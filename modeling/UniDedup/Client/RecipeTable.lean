import UniDedup.Client.Worker
import UniDedup.Lib.Outcome

/-!
# The recipe table of a worker

Without a Redis cluster a worker keeps its recipes in `name2FileRecipe`, a table from file names to
*addresses* of recipes. `clientWrite` allocates a recipe and enters its address; `getFileRecipe` hands
out the address that is in the table, and `clientRead` frees the recipe it was given when it is done.
The entry of the table stays.

The model of `UniDedup.Client.Worker` has recipes in the place of addresses. A worker with addresses
shows it such a cluster, its *view*; the two agree as long as the table leads to allocated recipes
only. That is so exactly in the runs that never read a file they have written: the first read of a
written file leaves a dangling entry. An address that was freed may be given out again, so later the
same entry can even show the recipe of another file.
-/

namespace UniDedup.Client

open Outcome

/-- A worker with `redis_cluster_enabled = 0`. -/
structure Worker where
  /-- `name2FileRecipe`: the addresses of the recipes. -/
  name2FileRecipe : Name → Option ℕ
  /-- The recipes that are allocated, by address. -/
  heap : ℕ → Option FileRecipe
  /-- What each node returns for a group name. -/
  stored : ℕ → Name → Option Bytes

/-- The ways in which a read does not come to its end. -/
inductive ReadFault
  | useAfterFree
  /-- A node has no group of the name asked for. -/
  | unanswered
deriving DecidableEq

namespace Worker

/-- A worker that has not served a request. -/
def new : Worker := ⟨fun _ ↦ none, fun _ ↦ none, fun _ _ ↦ none⟩

/-- `getFileRecipe`: the address in the table. -/
def getFileRecipe (w : Worker) (filename : Name) : Option ℕ := w.name2FileRecipe filename

/-- The cluster a worker shows: the recipes its table leads to. -/
def view (w : Worker) : Cluster := ⟨fun f ↦ (w.getFileRecipe f).bind w.heap, w.stored⟩

/-- `setFileRecipe` of a recipe at the address `a`. -/
def setFileRecipe (w : Worker) (a : ℕ) (fr : FileRecipe) : Worker :=
  { w with name2FileRecipe := Function.update w.name2FileRecipe fr.filename (some a) }

/-- `Worker::clientWrite`, where `genFileRecipe` was given the address `a`. -/
def clientWrite (w : Worker) (a : ℕ) (r : Request) : Worker :=
  let fr := genFileRecipe r.filename r.groups
  let w := { w with heap := Function.update w.heap a (some fr) }
  let w := w.setFileRecipe a fr
  { w with stored := (r.groups.foldl Cluster.storeGroup w.view).stored }

/-- `Worker::clientRead`: the bytes written to the output file, if the table has the name, and the
worker after the recipe has been freed. -/
def clientRead (w : Worker) (filename : Name) : Except ReadFault (Option Bytes × Worker) :=
  match w.getFileRecipe filename with
  | none => .ok (none, w)
  | some a => do
    let fr ← getOr (w.heap a) .useAfterFree
    let bytes ← getOr (readGroups w.view fr.gm) .unanswered
    -- `free(fr)`; the table is not touched
    return (some bytes, { w with heap := Function.update w.heap a none })

end Worker

/-- A request to a worker. -/
inductive Task
  | write (r : Request)
  | read (filename : Name)

def writes : List Task → List Request
  | [] => []
  | .write r :: ts => r :: writes ts
  | .read _ :: ts => writes ts

/-- The tasks lead to the worker. The address of a recipe is any that is not in use. -/
inductive Run : List Task → Worker → Prop
  | nil : Run [] .new
  | write {ts : List Task} {w : Worker} (h : Run ts w) {a : ℕ} (ha : w.heap a = none) (r : Request) :
    Run (ts ++ [.write r]) (w.clientWrite a r)
  | read {ts : List Task} {w w' : Worker} {f : Name} {out : Option Bytes} (h : Run ts w)
    (hread : w.clientRead f = .ok (out, w')) : Run (ts ++ [.read f]) w'

/-- Every entry of the table leads to an allocated recipe, the one that was stored last. -/
structure Worker.TableLive (w : Worker) (ts : List Task) : Prop where
  live : ∀ f a, w.getFileRecipe f = some a → w.heap a ≠ none
  recipes : w.view.recipes = (runWrites (writes ts)).recipes

def RecipesLive (ts : List Task) : Prop :=
  ∀ ts', ts' <+: ts → ∀ w, Run ts' w → w.TableLive ts'

/-- No task reads a file that a task before it has written. -/
def ReadsUnwritten (ts : List Task) : Prop :=
  ∀ ts' f, ts' ++ [.read f] <+: ts → f ∉ (writes ts').map Request.filename

/-! ## What a run does to the nodes -/

@[simp] theorem writes_append (ts ts' : List Task) : writes (ts ++ ts') = writes ts ++ writes ts' := by
  induction ts with
  | nil => rfl
  | cons t ts ih =>
    cases t with
    | write r => exact congrArg (r :: ·) ih
    | read f => exact ih

theorem runWrites_append (rs : List Request) (r : Request) :
    runWrites (rs ++ [r]) = Client.clientWrite (runWrites rs) r := List.foldl_append

theorem stored_foldl_storeGroup {gps : List Group} {w w' : Cluster} (h : w.stored = w'.stored) :
    (gps.foldl Cluster.storeGroup w).stored = (gps.foldl Cluster.storeGroup w').stored := by
  induction gps generalizing w w' with
  | nil => exact h
  | cons g gps ih => exact ih (by rw [Cluster.storeGroup, Cluster.storeGroup, h])

theorem Worker.clientRead_cases {w w' : Worker} {f : Name} {out : Option Bytes}
    (h : w.clientRead f = .ok (out, w')) :
    (w.getFileRecipe f = none ∧ w' = w) ∨
      ∃ a, w.getFileRecipe f = some a ∧ w' = { w with heap := Function.update w.heap a none } := by
  unfold clientRead at h
  cases ha : w.getFileRecipe f with
  | none =>
    rw [ha] at h
    exact .inl ⟨rfl, (congrArg Prod.snd (Except.ok.inj h)).symm⟩
  | some a =>
    rw [ha] at h
    obtain ⟨fr, -, h⟩ := bind_eq_ok.mp h
    obtain ⟨bytes, -, h⟩ := bind_eq_ok.mp h
    exact .inr ⟨a, rfl, (congrArg Prod.snd (Except.ok.inj h)).symm⟩

theorem Run.stored {ts : List Task} {w : Worker} (h : Run ts w) :
    w.stored = (runWrites (writes ts)).stored := by
  induction h with
  | nil => rfl
  | @write ts w h a ha r ih =>
    rw [writes_append, writes, writes, runWrites_append]
    exact stored_foldl_storeGroup ih
  | @read ts w w' f out h hread ih =>
    rw [writes_append, writes, writes, List.append_nil, ← ih]
    rcases Worker.clientRead_cases hread with ⟨-, rfl⟩ | ⟨a, -, rfl⟩ <;> rfl

theorem Run.exists_bound {ts : List Task} {w : Worker} (h : Run ts w) :
    ∃ n, ∀ a, n ≤ a → w.heap a = none := by
  induction h with
  | nil => exact ⟨0, fun _ _ ↦ rfl⟩
  | @write ts w h a ha r ih =>
    obtain ⟨n, hn⟩ := ih
    refine ⟨max n (a + 1), fun b hb ↦ ?_⟩
    have hne : b ≠ a := by omega
    exact (Function.update_of_ne hne _ _).trans (hn b (by omega))
  | @read ts w w' f out h hread ih =>
    obtain ⟨n, hn⟩ := ih
    refine ⟨n, fun b hb ↦ ?_⟩
    rcases Worker.clientRead_cases hread with ⟨-, rfl⟩ | ⟨a, -, rfl⟩
    · exact hn b hb
    · by_cases hba : b = a
      · subst hba
        exact Function.update_self ..
      · exact (Function.update_of_ne hba _ _).trans (hn b hb)

/-! ## Reads find their groups -/

/-- Every recipe of the cluster can be read. -/
def Cluster.Complete (w : Cluster) : Prop :=
  ∀ f fr, w.recipes f = some fr → ∀ m ∈ fr.gm, w.at (m.nodeId, m.groupName) ≠ none

theorem complete_clientWrite {w : Cluster} (h : w.Complete) (r : Request) :
    (Client.clientWrite w r).Complete := by
  intro f fr hfr m hm
  by_cases hplace : (m.nodeId, m.groupName) ∈ r.groups.map Group.place
  · obtain ⟨g, hg, hgm⟩ := List.mem_map.mp hplace
    rw [← hgm, at_clientWrite_of_mem hg]
    exact Option.some_ne_none _
  · rw [at_clientWrite_of_notMem hplace]
    rw [recipes_clientWrite] at hfr
    by_cases hf : f = r.filename
    · subst hf
      rw [Function.update_self] at hfr
      obtain rfl := Option.some.inj hfr
      obtain ⟨g, hg, rfl⟩ := List.mem_map.mp hm
      exact absurd (List.mem_map_of_mem hg) hplace
    · rw [Function.update_of_ne hf] at hfr
      exact h f fr hfr m hm

theorem complete_runWrites (rs : List Request) : (runWrites rs).Complete := by
  induction rs using List.reverseRecOn with
  | nil =>
    intro f fr hfr
    cases hfr
  | append_singleton rs r ih =>
    rw [runWrites_append]
    exact complete_clientWrite ih r

theorem exists_readGroups {w : Cluster} {ms : List GroupMeta}
    (h : ∀ m ∈ ms, w.at (m.nodeId, m.groupName) ≠ none) : ∃ bytes, readGroups w ms = some bytes := by
  induction ms with
  | nil => exact ⟨[], rfl⟩
  | cons m ms ih =>
    obtain ⟨b, hb⟩ := Option.ne_none_iff_exists'.mp (h m List.mem_cons_self)
    obtain ⟨rest, hrest⟩ := ih fun m' hm' ↦ h m' (List.mem_cons_of_mem m hm')
    have hb' : w.stored m.nodeId m.groupName = some b := hb
    exact ⟨b ++ rest, by rw [readGroups, hb', hrest]; rfl⟩

theorem Worker.TableLive.exists_clientRead {w : Worker} {ts : List Task} (h : w.TableLive ts)
    (hrun : Run ts w) (f : Name) : ∃ out w', w.clientRead f = .ok (out, w') := by
  cases ha : w.getFileRecipe f with
  | none => exact ⟨none, w, by rw [clientRead, ha]⟩
  | some a =>
    obtain ⟨fr, hfr⟩ := Option.ne_none_iff_exists'.mp (h.live f a ha)
    have hview : w.view = runWrites (writes ts) :=
      congrArg₂ Cluster.mk h.recipes hrun.stored
    have hrecipe : (runWrites (writes ts)).recipes f = some fr := by
      rw [← h.recipes]
      exact (congrArg (Option.bind · w.heap) ha).trans hfr
    obtain ⟨bytes, hbytes⟩ := exists_readGroups (complete_runWrites (writes ts) f fr hrecipe)
    refine ⟨some bytes, { w with heap := Function.update w.heap a none }, ?_⟩
    rw [clientRead, ha]
    refine bind_eq_ok.mpr ⟨fr, by rw [hfr]; rfl, bind_eq_ok.mpr ⟨bytes, ?_, rfl⟩⟩
    rw [hview, hbytes]
    rfl

/-! ## Which runs keep the table live -/

theorem recipes_runWrites_of_notMem {rs : List Request} {f : Name}
    (h : f ∉ rs.map Request.filename) : (runWrites rs).recipes f = none :=
  recipes_foldl_clientWrite_of_notMem h Cluster.empty

theorem recipes_runWrites_of_mem {rs : List Request} {f : Name}
    (h : f ∈ rs.map Request.filename) : (runWrites rs).recipes f ≠ none := by
  induction rs using List.reverseRecOn with
  | nil => simp at h
  | append_singleton rs r ih =>
    rw [runWrites_append, recipes_clientWrite]
    by_cases hf : f = r.filename
    · subst hf
      rw [Function.update_self]
      exact Option.some_ne_none _
    · rw [Function.update_of_ne hf]
      refine ih ?_
      rw [List.map_append, List.mem_append] at h
      exact h.resolve_right fun hr ↦ hf (List.mem_singleton.mp hr)

/-- A write into a live table: the address is new, so no other entry changes its meaning. -/
theorem Worker.TableLive.write {w : Worker} {ts : List Task} (h : w.TableLive ts) {a : ℕ}
    (ha : w.heap a = none) (r : Request) : (w.clientWrite a r).TableLive (ts ++ [.write r]) := by
  have htable : ∀ f, (w.clientWrite a r).getFileRecipe f =
      if f = r.filename then some a else w.getFileRecipe f := by
    intro f
    exact Function.update_apply ..
  have hheap : ∀ b, (w.clientWrite a r).heap b =
      if b = a then some (genFileRecipe r.filename r.groups) else w.heap b := by
    intro b
    exact Function.update_apply ..
  constructor
  · intro f b hb
    rw [htable] at hb
    rw [hheap]
    by_cases hba : b = a
    · rw [if_pos hba]
      exact Option.some_ne_none _
    · rw [if_neg hba]
      split_ifs at hb with hf
      · exact absurd (Option.some.inj hb).symm hba
      · exact h.live f b hb
  · rw [writes_append, writes, writes, runWrites_append, recipes_clientWrite, ← h.recipes]
    funext f
    rw [Function.update_apply]
    change ((w.clientWrite a r).getFileRecipe f).bind _ = _
    rw [htable]
    split_ifs with hf
    · rw [Option.bind_some, hheap, if_pos rfl]
    · cases hb : w.getFileRecipe f with
      | none => simp [Worker.view, hb]
      | some b =>
        have hne : b ≠ a := by
          rintro rfl
          exact h.live f b hb ha
        rw [Option.bind_some, hheap, if_neg hne]
        exact (congrArg (Option.bind · w.heap) hb).symm

theorem Worker.TableLive.read {w w' : Worker} {ts : List Task} {f : Name} {out : Option Bytes}
    (h : w.TableLive ts) (hread : w.clientRead f = .ok (out, w'))
    (hf : f ∉ (writes ts).map Request.filename) : w'.TableLive (ts ++ [.read f]) := by
  have hnone : (w.getFileRecipe f).bind w.heap = none :=
    (congrFun h.recipes f).trans (recipes_runWrites_of_notMem hf)
  rcases Worker.clientRead_cases hread with ⟨-, rfl⟩ | ⟨a, ha, -⟩
  · refine ⟨h.live, ?_⟩
    rw [writes_append, writes, writes, List.append_nil]
    exact h.recipes
  · rw [ha] at hnone
    exact absurd hnone (h.live f a ha)

theorem Run.tableLive {ts : List Task} {w : Worker} (h : Run ts w) (hts : ReadsUnwritten ts) :
    w.TableLive ts := by
  induction h with
  | nil =>
    refine ⟨?_, rfl⟩
    intro f a ha
    cases ha
  | @write ts w h a ha r ih =>
    have hprefix : ReadsUnwritten ts := fun ts' f hf ↦ hts ts' f (hf.trans (List.prefix_append ..))
    exact (ih hprefix).write ha r
  | @read ts w w' f out h hread ih =>
    have hprefix : ReadsUnwritten ts := fun ts' f hf ↦ hts ts' f (hf.trans (List.prefix_append ..))
    exact (ih hprefix).read hread (hts ts f List.prefix_rfl)

theorem exists_run {ts : List Task} (h : RecipesLive ts) : ∃ w, Run ts w := by
  induction ts using List.reverseRecOn with
  | nil => exact ⟨_, .nil⟩
  | append_singleton ts t ih =>
    have hprefix : RecipesLive ts := fun ts' hts' ↦ h ts' (hts'.trans (List.prefix_append ..))
    obtain ⟨w, hw⟩ := ih hprefix
    cases t with
    | write r =>
      obtain ⟨n, hn⟩ := hw.exists_bound
      exact ⟨_, hw.write (hn n le_rfl) r⟩
    | read f =>
      obtain ⟨out, w', hread⟩ := (h ts (List.prefix_append ..) w hw).exists_clientRead hw f
      exact ⟨w', hw.read hread⟩

/-- **The table stays live exactly in the runs that never read a file they have written.** -/
theorem recipesLive_iff (ts : List Task) : RecipesLive ts ↔ ReadsUnwritten ts := by
  constructor
  · intro h ts' f hts' hf
    have hprefix : RecipesLive ts' := fun us hus ↦
      h us (hus.trans ((List.prefix_append ..).trans hts'))
    obtain ⟨w, hw⟩ := exists_run hprefix
    have hlive := hprefix ts' List.prefix_rfl w hw
    obtain ⟨out, w', hread⟩ := hlive.exists_clientRead hw f
    have hdead := h _ hts' w' (hw.read hread)
    have hsome : (w.getFileRecipe f).bind w.heap ≠ none := by
      have := recipes_runWrites_of_mem hf
      rwa [← hlive.recipes] at this
    rcases Worker.clientRead_cases hread with ⟨hnone, -⟩ | ⟨a, ha, rfl⟩
    · rw [hnone] at hsome
      exact hsome rfl
    · exact hdead.live f a ha (Function.update_self ..)
  · intro h ts' hts' w hw
    exact hw.tableLive fun us f hus ↦ h us f (hus.trans hts')

/-- A file `a` of one byte. -/
def fileA : Request := ⟨['a'], [⟨Fingerprint.fill 0, [0]⟩], fun _ _ _ ↦ 0⟩

/-- A file that is written and then read. -/
theorem not_recipesLive_a : ¬RecipesLive [.write fileA, .read ['a']] := by
  rw [recipesLive_iff]
  intro h
  exact h [.write fileA] ['a'] List.prefix_rfl (List.mem_singleton.mpr rfl)

end UniDedup.Client
