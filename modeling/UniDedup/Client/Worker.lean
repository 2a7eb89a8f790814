import UniDedup.Client.Group
import Mathlib.Data.List.Forall2
import Mathlib.Logic.Function.Basic

/-!
# Writing and reading files over the cluster

A client worker serves two requests. `clientWrite` cuts the file into groups, records in the file
recipe which group went to which node, and sends every group to its node. `clientRead` looks the
recipe up and asks each node for its group. A node keeps, for a group name, the bytes of the last
group stored under that name, because the key `<group name>_job_id` is overwritten by each write.

Nothing but the group name tells the groups of two files apart on a node, and `new_group` writes
the group index directly behind the file name. The main result says exactly which sequences of
files can be read back whatever their contents: those in which no two files have a group with the
same name on the same node. That happens when one file name is the other one followed by leading
digits of a group index, for instance `a` and `a1` (group 10 of `a` is group 0 of `a1`).
-/

namespace UniDedup.Client

open Decimal

/-- `struct groupMeta`. -/
structure GroupMeta where
  groupName : Name
  nodeId : ℕ
  deriving DecidableEq

/-- `struct fileRecipe`; `num` is the length of `gm`. -/
structure FileRecipe where
  filename : Name
  gm : List GroupMeta
  deriving DecidableEq

/-- `genFileRecipe`: the names and nodes of the groups, in order. -/
def genFileRecipe (filename : Name) (gps : List Group) : FileRecipe :=
  { filename, gm := gps.map fun g ↦ ⟨g.groupName, g.nodeId⟩ }

/-- The cluster as a worker sees it. -/
structure Cluster where
  /-- `name2FileRecipe`, an exact table. -/
  recipes : Name → Option FileRecipe
  /-- What each node returns for a group name. -/
  stored : ℕ → Name → Option Bytes

namespace Cluster

def empty : Cluster := ⟨fun _ ↦ none, fun _ _ ↦ none⟩

def setFileRecipe (w : Cluster) (fr : FileRecipe) : Cluster :=
  { w with recipes := Function.update w.recipes fr.filename (some fr) }

/-- A node takes in a group; what it had under that name is replaced. -/
def storeGroup (w : Cluster) (g : Group) : Cluster :=
  let node := Function.update (w.stored g.nodeId) g.groupName (some g.data)
  { w with stored := Function.update w.stored g.nodeId node }

end Cluster

/-- A write request: the name to save as, the chunks of the file and the routing decisions made
for its groups. -/
structure Request where
  /-- The name given as `saveas`. -/
  filename : Name
  chunks : List Chunk
  /-- The nodes chosen by the routing call. -/
  route : Routing

namespace Request

def content (r : Request) : Bytes := chunksData r.chunks

/-- The groups `clientWrite` sends. -/
def groups (r : Request) : List Group := split2Groups r.filename r.route r.chunks

end Request

def clientWrite (w : Cluster) (r : Request) : Cluster :=
  r.groups.foldl Cluster.storeGroup (w.setFileRecipe (genFileRecipe r.filename r.groups))

/-- The loop of `Worker::clientRead` over the groups of the recipe. -/
def readGroups (w : Cluster) : List GroupMeta → Option Bytes
  | [] => some []
  | m :: ms => do
    let bytes ← w.stored m.nodeId m.groupName
    let rest ← readGroups w ms
    return bytes ++ rest

/-- `Worker::clientRead`: the bytes written to the output file, or `none` when there is no recipe or
a node does not know the group. -/
def clientRead (w : Cluster) (filename : Name) : Option Bytes := do
  let fr ← w.recipes filename
  readGroups w fr.gm

/-- A sequence of write requests, from an empty cluster. -/
def runWrites (reqs : List Request) : Cluster := reqs.foldl clientWrite Cluster.empty

/-! ## One write

The place a group is stored in is the pair of its node and its name. -/

/-- Where a group is stored: its node and its name. -/
def Group.place (g : Group) : ℕ × Name := (g.nodeId, g.groupName)

def Cluster.at (w : Cluster) (p : ℕ × Name) : Option Bytes := w.stored p.1 p.2

@[simp] theorem at_setFileRecipe (w : Cluster) (fr : FileRecipe) (p : ℕ × Name) :
    (w.setFileRecipe fr).at p = w.at p := rfl

theorem at_storeGroup (w : Cluster) (g : Group) (p : ℕ × Name) :
    (w.storeGroup g).at p = if p = g.place then some g.data else w.at p := by
  obtain ⟨n, f⟩ := p
  by_cases hn : n = g.nodeId
  · subst hn
    by_cases hf : f = g.groupName <;> simp [Cluster.storeGroup, Cluster.at, Group.place, hf]
  · simp [Cluster.storeGroup, Cluster.at, Group.place, hn]

@[simp] theorem recipes_foldl_storeGroup (gps : List Group) (w : Cluster) :
    (gps.foldl Cluster.storeGroup w).recipes = w.recipes := by
  induction gps generalizing w with
  | nil => rfl
  | cons g gps ih => rw [List.foldl_cons, ih, Cluster.storeGroup]

theorem at_foldl_storeGroup_of_notMem {gps : List Group} {p : ℕ × Name}
    (h : p ∉ gps.map Group.place) (w : Cluster) :
    (gps.foldl Cluster.storeGroup w).at p = w.at p := by
  induction gps generalizing w with
  | nil => rfl
  | cons g gps ih =>
    simp only [List.map_cons, List.mem_cons, not_or] at h
    rw [List.foldl_cons, ih h.2, at_storeGroup, if_neg h.1]

/-- A place written by a list of groups holds the bytes of one of them. -/
theorem at_foldl_storeGroup_of_mem {gps : List Group} {p : ℕ × Name}
    (h : p ∈ gps.map Group.place) (w : Cluster) :
    ∃ g ∈ gps, g.place = p ∧ (gps.foldl Cluster.storeGroup w).at p = some g.data := by
  induction gps generalizing w with
  | nil => simp at h
  | cons g gps ih =>
    rw [List.foldl_cons]
    by_cases hp : p ∈ gps.map Group.place
    · obtain ⟨g', hg', hplace, hat⟩ := ih hp (w.storeGroup g)
      exact ⟨g', List.mem_cons_of_mem g hg', hplace, hat⟩
    · have hpg : p = g.place := by simpa [hp] using h
      refine ⟨g, List.mem_cons_self, hpg.symm, ?_⟩
      rw [at_foldl_storeGroup_of_notMem hp, at_storeGroup, if_pos hpg]

/-- The places of the groups of a request are distinct: their names are. -/
theorem groups_place_injOn (r : Request) : (r.groups.map Group.groupName).Nodup := by
  rw [Request.groups, split2Groups_names]
  refine List.Nodup.map ?_ List.nodup_range
  intro i j h
  exact append_toDigits_right_inj.mp h

theorem at_clientWrite_of_mem {r : Request} {g : Group} (hg : g ∈ r.groups) (w : Cluster) :
    (clientWrite w r).at g.place = some g.data := by
  obtain ⟨g', hg', hplace, hat⟩ := at_foldl_storeGroup_of_mem
    (List.mem_map_of_mem hg) (w.setFileRecipe (genFileRecipe r.filename r.groups))
  have hname : g'.groupName = g.groupName := congrArg Prod.snd hplace
  rw [List.inj_on_of_nodup_map (groups_place_injOn r) hg' hg hname] at hat
  exact hat

theorem at_clientWrite_of_notMem {r : Request} {p : ℕ × Name}
    (h : p ∉ r.groups.map Group.place) (w : Cluster) : (clientWrite w r).at p = w.at p := by
  rw [clientWrite, at_foldl_storeGroup_of_notMem h, at_setFileRecipe]

theorem recipes_clientWrite (w : Cluster) (r : Request) : (clientWrite w r).recipes =
    Function.update w.recipes r.filename (some (genFileRecipe r.filename r.groups)) := by
  rw [clientWrite, recipes_foldl_storeGroup]
  rfl

/-! ## A sequence of writes -/

theorem recipes_foldl_clientWrite_of_notMem {reqs : List Request} {f : Name}
    (h : f ∉ reqs.map Request.filename) (w : Cluster) :
    (reqs.foldl clientWrite w).recipes f = w.recipes f := by
  induction reqs generalizing w with
  | nil => rfl
  | cons r reqs ih =>
    simp only [List.map_cons, List.mem_cons, not_or] at h
    rw [List.foldl_cons, ih h.2, recipes_clientWrite, Function.update_of_ne h.1]

theorem at_foldl_clientWrite_of_forall {reqs : List Request} {p : ℕ × Name}
    (h : ∀ r ∈ reqs, p ∉ r.groups.map Group.place) (w : Cluster) :
    (reqs.foldl clientWrite w).at p = w.at p := by
  induction reqs generalizing w with
  | nil => rfl
  | cons r reqs ih =>
    rw [List.foldl_cons, ih (fun r' hr' ↦ h r' (List.mem_cons_of_mem r hr')),
      at_clientWrite_of_notMem (h r List.mem_cons_self)]

/-- A place written by some request of a sequence holds the bytes of a group of one of them. -/
theorem at_foldl_clientWrite_of_exists {reqs : List Request} {p : ℕ × Name}
    (h : ∃ r ∈ reqs, p ∈ r.groups.map Group.place) (w : Cluster) :
    ∃ r ∈ reqs, ∃ g ∈ r.groups, (reqs.foldl clientWrite w).at p = some g.data := by
  induction reqs generalizing w with
  | nil => simp at h
  | cons q reqs ih =>
    rw [List.foldl_cons]
    by_cases hlater : ∃ r ∈ reqs, p ∈ r.groups.map Group.place
    · obtain ⟨r, hr, g, hg, hat⟩ := ih hlater (clientWrite w q)
      exact ⟨r, List.mem_cons_of_mem q hr, g, hg, hat⟩
    · push Not at hlater
      have hq : p ∈ q.groups.map Group.place := by
        obtain ⟨r, hr, hp⟩ := h
        rcases List.mem_cons.mp hr with rfl | hr
        · exact hp
        · exact absurd hp (hlater r hr)
      obtain ⟨g, hg, rfl⟩ := List.mem_map.mp hq
      refine ⟨q, List.mem_cons_self, g, hg, ?_⟩
      rw [at_foldl_clientWrite_of_forall hlater, at_clientWrite_of_mem hg]

/-! ## Reading -/

theorem readGroups_genFileRecipe {w : Cluster} {gps : List Group}
    (h : ∀ g ∈ gps, w.at g.place = some g.data) (f : Name) :
    readGroups w (genFileRecipe f gps).gm = some (gps.flatMap Group.data) := by
  induction gps with
  | nil => rfl
  | cons g gps ih =>
    have hg : w.stored g.nodeId g.groupName = some g.data := h g List.mem_cons_self
    have hrest := ih fun g' hg' ↦ h g' (List.mem_cons_of_mem g hg')
    simp only [genFileRecipe] at hrest ⊢
    simp [readGroups, hg, hrest]

/-- What a read returns contains the bytes at the place of every group it asks for. -/
theorem subset_of_readGroups {w : Cluster} {gps : List Group} {f : Name} {bytes : Bytes}
    (h : readGroups w (genFileRecipe f gps).gm = some bytes) {g : Group} (hg : g ∈ gps)
    {b : Bytes} (hb : w.at g.place = some b) : b ⊆ bytes := by
  induction gps generalizing bytes with
  | nil => simp at hg
  | cons g' gps ih =>
    simp only [genFileRecipe, List.map_cons, readGroups, Option.bind_eq_bind,
      Option.bind_eq_some_iff] at h
    obtain ⟨b', hb', rest, hrest, hbytes⟩ := h
    obtain rfl : b' ++ rest = bytes := by simpa using hbytes
    rcases List.mem_cons.mp hg with rfl | hg
    · obtain rfl : b = b' := by simpa [Cluster.at, Group.place, hb'] using hb.symm
      exact List.subset_append_left b rest
    · exact List.Subset.trans (ih hrest hg) (List.subset_append_right b' rest)

/-! ## Which sequences of files can be read back -/

/-- What decides about clashes in a write request: the name, the number of groups and the nodes they
go to. The contents are left open. -/
structure Layout where
  filename : Name
  num : ℕ
  nodeId : ℕ → ℕ

/-- The request has the given name, number of groups and nodes. -/
def Request.HasLayout (r : Request) (l : Layout) : Prop :=
  r.filename = l.filename ∧ r.groups.map Group.nodeId = (List.range l.num).map l.nodeId

/-- Group `i` of a file `f` has the name of group `j` of a file `f'` because `f'` is `f` followed by
leading digits of `i`, with the digits of `j` left over. -/
def DigitsClash (f : Name) (i : ℕ) (f' : Name) (j : ℕ) : Prop :=
  ∃ d, f' = f ++ d ∧ toDigits i = d ++ toDigits j

/-- Two files get in each other's way: some group of one and some group of the other go to the same
node, and one file name is the other followed by leading digits of the group index. -/
def Layout.Clash (l l' : Layout) : Prop :=
  ∃ i < l.num, ∃ j < l'.num, l.nodeId i = l'.nodeId j ∧
    (DigitsClash l.filename i l'.filename j ∨ DigitsClash l'.filename j l.filename i)

theorem groupNameOf_eq_iff (f f' : Name) (i j : ℕ) :
    groupNameOf f i = groupNameOf f' j ↔ DigitsClash f i f' j ∨ DigitsClash f' j f i := by
  simp only [groupNameOf, DigitsClash, List.append_eq_append_iff]

theorem HasLayout.places {r : Request} {l : Layout} (h : r.HasLayout l) :
    r.groups.map Group.place =
      (List.range l.num).map fun i ↦ (l.nodeId i, groupNameOf l.filename i) := by
  have hnames : r.groups.map Group.groupName =
      (List.range (groupNum r.chunks.length)).map (groupNameOf l.filename) := by
    rw [← h.1]
    exact split2Groups_names _ _ _
  have hnum : groupNum r.chunks.length = l.num := by
    rw [← split2Groups_length r.filename r.route]
    simpa [Request.groups] using congrArg List.length h.2
  rw [hnum] at hnames
  have hzip := congrArg₂ List.zip h.2 hnames
  rwa [List.zip_map', List.zip_map'] at hzip

theorem Layout.clash_iff {r r' : Request} {l l' : Layout} (h : r.HasLayout l)
    (h' : r'.HasLayout l') :
    l.Clash l' ↔ ∃ p ∈ r.groups.map Group.place, p ∈ r'.groups.map Group.place := by
  rw [HasLayout.places h, HasLayout.places h']
  simp only [Layout.Clash, ← groupNameOf_eq_iff, List.mem_map, List.mem_range]
  constructor
  · rintro ⟨i, hi, j, hj, hnode, hname⟩
    exact ⟨_, ⟨i, hi, rfl⟩, j, hj, by rw [hnode, hname]⟩
  · rintro ⟨_, ⟨i, hi, rfl⟩, j, hj, heq⟩
    exact ⟨i, hi, j, hj, (congrArg Prod.fst heq).symm, (congrArg Prod.snd heq).symm⟩

theorem exists_layout_of_mem {reqs : List Request} {layouts : List Layout}
    (h : List.Forall₂ Request.HasLayout reqs layouts) {r : Request} (hr : r ∈ reqs) :
    ∃ l ∈ layouts, r.HasLayout l := by
  induction h with
  | nil => simp at hr
  | cons hq _ ih =>
    rcases List.mem_cons.mp hr with rfl | hr
    · exact ⟨_, List.mem_cons_self, hq⟩
    · obtain ⟨l, hl, hrl⟩ := ih hr
      exact ⟨l, List.mem_cons_of_mem _ hl, hrl⟩

/-- A later sequence of requests that avoids the places and the name of a request leaves its file
readable. -/
theorem clientRead_of_no_clash {r : Request} {later : List Request} (w : Cluster)
    (hname : r.filename ∉ later.map Request.filename)
    (hclash : ∀ r' ∈ later, ∀ p ∈ r.groups.map Group.place, p ∉ r'.groups.map Group.place) :
    clientRead ((r :: later).foldl clientWrite w) r.filename = some r.content := by
  have hrecipe : ((r :: later).foldl clientWrite w).recipes r.filename =
      some (genFileRecipe r.filename r.groups) := by
    rw [List.foldl_cons, recipes_foldl_clientWrite_of_notMem hname, recipes_clientWrite,
      Function.update_self]
  have hstored : ∀ g ∈ r.groups,
      ((r :: later).foldl clientWrite w).at g.place = some g.data := by
    intro g hg
    rw [List.foldl_cons, at_foldl_clientWrite_of_forall
      (fun r' hr' ↦ hclash r' hr' _ (List.mem_map_of_mem hg)), at_clientWrite_of_mem hg]
  rw [clientRead, hrecipe]
  exact (readGroups_genFileRecipe hstored r.filename).trans
    (congrArg some (split2Groups_content _ _ _))

theorem clientRead_foldl_of_no_clash {reqs : List Request} {layouts : List Layout}
    (hlayout : List.Forall₂ Request.HasLayout reqs layouts)
    (hnames : (layouts.map Layout.filename).Nodup)
    (hpair : layouts.Pairwise fun l l' ↦ ¬ l.Clash l') {r : Request} (hr : r ∈ reqs)
    (w : Cluster) : clientRead (reqs.foldl clientWrite w) r.filename = some r.content := by
  induction hlayout generalizing w with
  | nil => simp at hr
  | @cons q l reqs ls hql hrest ih =>
    rw [List.pairwise_cons] at hpair
    rw [List.map_cons, List.nodup_cons] at hnames
    rcases List.mem_cons.mp hr with rfl | hr
    · refine clientRead_of_no_clash w ?_ fun r' hr' p hp hp' ↦ ?_
      · have hfiles : reqs.map Request.filename = ls.map Layout.filename := by
          rw [← List.forall₂_eq_eq_eq, List.forall₂_map_left_iff, List.forall₂_map_right_iff]
          exact hrest.imp fun _ _ h ↦ h.1
        rw [hfiles, hql.1]
        exact hnames.1
      · obtain ⟨l', hl', hrl'⟩ := exists_layout_of_mem hrest hr'
        exact hpair.1 l' hl' ((Layout.clash_iff hql hrl').mpr ⟨p, hp, hp'⟩)
    · rw [List.foldl_cons]
      exact ih hnames.2 hpair.2 hr (clientWrite w q)

/-- A request with the given layout whose every byte is `b`: full groups of one-byte chunks. -/
def Layout.fillWith (b : UInt8) (l : Layout) : Request :=
  { filename := l.filename
    chunks := List.replicate (defaultGroupSize * l.num) ⟨Fingerprint.fill 0, [b]⟩
    route := fun id _ _ ↦ l.nodeId id }

theorem fillWith_hasLayout (b : UInt8) (l : Layout) : (l.fillWith b).HasLayout l := by
  refine ⟨rfl, ?_⟩
  rw [Request.groups, Layout.fillWith, split2Groups_nodes, List.length_replicate, groupNum_mul]

theorem mem_content_fillWith {b x : UInt8} {l : Layout} (h : x ∈ (l.fillWith b).content) :
    x = b := by
  obtain ⟨c, hc, hx⟩ := List.mem_flatMap.mp h
  rw [List.eq_of_mem_replicate hc] at hx
  exact List.mem_singleton.mp hx

theorem mem_data_fillWith {b : UInt8} {l : Layout} {g : Group} (hg : g ∈ (l.fillWith b).groups) :
    b ∈ g.data := by
  obtain ⟨ds, hne, hds, hdata⟩ := split2Groups_data _ _ _ hg
  obtain ⟨c, hc⟩ := List.exists_mem_of_ne_nil ds hne
  rw [hdata, chunksData, List.mem_flatMap]
  refine ⟨c, hc, ?_⟩
  rw [List.eq_of_mem_replicate (hds c hc)]
  exact List.mem_singleton_self b

theorem forall₂_fillWith (b : UInt8) (ls : List Layout) :
    List.Forall₂ Request.HasLayout (ls.map (Layout.fillWith b)) ls := by
  induction ls with
  | nil => exact .nil
  | cons l ls ih => exact .cons (fillWith_hasLayout b l) ih

/-- **A clash destroys data.** If a later file clashes with a file, and the file is all zeros while
every later one is all ones, then a one is read back. -/
theorem clientRead_ne_of_clash {l l' : Layout} {later : List Layout} (w : Cluster)
    (hname : l.filename ∉ later.map Layout.filename) (hl' : l' ∈ later) (hclash : l.Clash l') :
    let reqs := l.fillWith 0 :: later.map (Layout.fillWith 1)
    clientRead (reqs.foldl clientWrite w) l.filename ≠ some (l.fillWith 0).content := by
  intro reqs hread
  obtain ⟨p, hp, hp'⟩ :=
    (Layout.clash_iff (fillWith_hasLayout 0 l) (fillWith_hasLayout 1 l')).mp hclash
  obtain ⟨g, hg, rfl⟩ := List.mem_map.mp hp
  have hrecipe : (reqs.foldl clientWrite w).recipes l.filename =
      some (genFileRecipe l.filename (l.fillWith 0).groups) := by
    rw [List.foldl_cons, recipes_foldl_clientWrite_of_notMem, recipes_clientWrite]
    · exact Function.update_self ..
    · simpa [List.map_map, Function.comp_def, Layout.fillWith] using hname
  obtain ⟨r, hr, g', hg', hat⟩ := at_foldl_clientWrite_of_exists
    ⟨l'.fillWith 1, List.mem_map_of_mem hl', hp'⟩ (clientWrite w (l.fillWith 0))
  obtain ⟨m, -, rfl⟩ := List.mem_map.mp hr
  rw [clientRead, hrecipe] at hread
  -- the bytes at the shared place are those of the later file, and they reach the output
  have hone := subset_of_readGroups hread hg hat (mem_data_fillWith hg')
  exact absurd (mem_content_fillWith hone) (by decide)

theorem exists_of_not_pairwise {α : Type*} {R : α → α → Prop} {l : List α}
    (h : ¬ l.Pairwise R) : ∃ l₁ a l₂, l = l₁ ++ a :: l₂ ∧ ∃ b ∈ l₂, ¬ R a b := by
  induction l with
  | nil => exact absurd List.Pairwise.nil h
  | cons a l ih =>
    by_cases ha : ∀ b ∈ l, R a b
    · obtain ⟨l₁, c, l₂, rfl, hc⟩ := ih fun hl ↦ h (List.pairwise_cons.mpr ⟨ha, hl⟩)
      exact ⟨a :: l₁, c, l₂, rfl, hc⟩
    · push Not at ha
      exact ⟨[], a, l, rfl, ha⟩

/-- **Which files survive.** For a sequence of writes with distinct names, given the numbers of
groups and the nodes they go to: every file reads back whatever the contents exactly when no two
of the files clash. -/
theorem clientRead_runWrites_iff (layouts : List Layout)
    (hnames : (layouts.map Layout.filename).Nodup) :
    (∀ reqs, List.Forall₂ Request.HasLayout reqs layouts →
      ∀ r ∈ reqs, clientRead (runWrites reqs) r.filename = some r.content) ↔
    layouts.Pairwise fun l l' ↦ ¬ l.Clash l' := by
  constructor
  · intro hread
    by_contra hpair
    obtain ⟨before, l, later, rfl, l', hl', hclash⟩ := exists_of_not_pairwise hpair
    rw [not_not] at hclash
    have hlater : l.filename ∉ later.map Layout.filename := by
      rw [List.map_append, List.map_cons] at hnames
      exact (List.nodup_cons.mp hnames.of_append_right).1
    have hreqs := List.rel_append (forall₂_fillWith 1 before)
      (.cons (fillWith_hasLayout 0 l) (forall₂_fillWith 1 later))
    have := hread _ hreqs (l.fillWith 0) (by simp)
    rw [runWrites, List.foldl_append] at this
    exact clientRead_ne_of_clash _ hlater hl' hclash this
  · intro hpair reqs hreqs r hr
    exact clientRead_foldl_of_no_clash hreqs hnames hpair hr Cluster.empty

/-- Two files for which the conditions of `clientRead_runWrites_iff` can be met. -/
theorem clientRead_runWrites_iff_of_a_b :
    let layouts : List Layout := [⟨['a'], 1, fun _ ↦ 0⟩, ⟨['b'], 2, fun _ ↦ 0⟩]
    (layouts.map Layout.filename).Nodup ∧
    ((∀ reqs, List.Forall₂ Request.HasLayout reqs layouts →
      ∀ r ∈ reqs, clientRead (runWrites reqs) r.filename = some r.content) ↔
    layouts.Pairwise fun l l' ↦ ¬ l.Clash l') :=
  ⟨by decide, clientRead_runWrites_iff _ (by decide)⟩

/-- The file `a` with eleven groups of zeros, then the file `a1` with one group of ones, both on node
`0`: group 10 of `a` and group 0 of `a1` are both named `a10`, and a read of `a` returns bytes
of `a1`. -/
theorem clientRead_a_after_a1 :
    ∃ reqs : List Request, (reqs.map Request.filename).Nodup ∧
      ∃ r ∈ reqs, clientRead (runWrites reqs) r.filename ≠ some r.content := by
  let a : Layout := ⟨['a'], 11, fun _ ↦ 0⟩
  let a1 : Layout := ⟨['a', '1'], 1, fun _ ↦ 0⟩
  have hclash : a.Clash a1 :=
    ⟨10, by decide, 0, by decide, rfl, Or.inl ⟨['1'], rfl, by decide⟩⟩
  refine ⟨[a.fillWith 0, a1.fillWith 1], by decide, a.fillWith 0, List.mem_cons_self, ?_⟩
  exact @clientRead_ne_of_clash a a1 [a1] Cluster.empty (by decide) List.mem_cons_self hclash

end UniDedup.Client
