import UniDedup.Basic
import UniDedup.Lib.Decimal

/-!
# Cutting a file into groups

The client reads a file, cuts it into chunks and collects `DEFAULT_GROUP_SIZE` chunks at a time
into a *group*, the unit that is sent to one storage node. The last group may be shorter. Each
group is named by `new_group`: the file name followed directly by the decimal group index.

Routing a group to a node is `consistentHash` of the group's delegate fingerprint, or a choice that
depends on the history of all earlier groups. The splitting loop only stores its outcome, so it
takes the routing decision as a function argument.
-/

namespace UniDedup.Client

open Decimal

/-- A chunk as the hashing phase hands it over: its bytes and their fingerprint. -/
structure Chunk where
  fp : Fingerprint
  data : Bytes
  deriving DecidableEq

/-- `struct group`: a run of chunks of one file, sent to one node. -/
structure Group where
  /-- The name the node stores the group under. -/
  groupName : Name
  /-- The fingerprint the group is routed by. -/
  delegate : Fingerprint
  nodeId : ℕ
  /-- The bytes of the chunks, one after the other. -/
  data : Bytes
  deriving DecidableEq

def defaultGroupSize : ℕ := 1024

/-- The name `new_group` builds: the file name with the group index behind it. -/
def groupNameOf (fileName : Name) (id : ℕ) : Name := fileName ++ toDigits id

/-- `new_group`, with the fields its caller fills in afterwards. -/
def newGroup (fileName : Name) (id : ℕ) (delegate : Fingerprint) (nodeId : ℕ) (data : Bytes) :
    Group :=
  { groupName := groupNameOf fileName id, delegate, nodeId, data }

def chunksData (cs : List Chunk) : Bytes := cs.flatMap Chunk.data

@[simp] theorem chunksData_nil : chunksData [] = [] := rfl

@[simp] theorem chunksData_append (cs ds : List Chunk) :
    chunksData (cs ++ ds) = chunksData cs ++ chunksData ds := List.flatMap_append

@[simp] theorem chunksData_singleton (c : Chunk) : chunksData [c] = c.data := by
  simp [chunksData]

/-- The delegate of a full group: the loop keeps the smaller fingerprint, starting at `0xff…ff`. -/
def delegateOfFull (cs : List Chunk) : Fingerprint :=
  cs.foldl (fun m c ↦ if Fingerprint.cmp c.fp m = .lt then c.fp else m) (Fingerprint.fill 255)

/-- The delegate of the last, shorter group. The comparison there has no `< 0`, so every chunk whose
fingerprint differs from the current one replaces it. -/
def delegateOfLast (cs : List Chunk) : Fingerprint :=
  cs.foldl (fun m c ↦ if Fingerprint.cmp c.fp m ≠ .eq then c.fp else m) (Fingerprint.fill 255)

/-- The outcome of routing: for the group of a given index, its delegate and its chunks, the node
that was chosen. -/
abbrev Routing := ℕ → Fingerprint → List Chunk → ℕ

/-- The locals of the loop of `split2Groups`. -/
structure SplitState where
  /-- `chunkList`, the first `groupCnt` entries. -/
  chunkList : List Chunk
  id : ℕ
  result : List Group

/-- One iteration of the loop of `split2Groups`: store the chunk, and close the group when it has
`DEFAULT_GROUP_SIZE` chunks. -/
def splitStep (filename : Name) (route : Routing) (st : SplitState) (c : Chunk) : SplitState :=
  let chunkList := st.chunkList ++ [c]
  if chunkList.length = defaultGroupSize then
    let delegate := delegateOfFull chunkList
    { chunkList := []
      id := st.id + 1
      result := st.result ++ [newGroup filename st.id delegate (route st.id delegate chunkList)
        (chunksData chunkList)] }
  else
    { st with chunkList := chunkList }

/-- `split2Groups`: run the loop over the chunks of the file, then make a group of what is left. -/
def split2Groups (filename : Name) (route : Routing) (chunks : List Chunk) : List Group :=
  let st := chunks.foldl (splitStep filename route) ⟨[], 0, []⟩
  if st.chunkList = [] then st.result
  else
    let delegate := delegateOfLast st.chunkList
    st.result ++ [newGroup filename st.id delegate (route st.id delegate st.chunkList)
      (chunksData st.chunkList)]

/-! ## What the loop keeps

The loop is described by one invariant: the finished groups are numbered from zero, they and the
open group together hold the bytes read so far, and every finished group is a full run of chunks
of the file. -/

/-- The invariant of the loop of `split2Groups` after the chunks `cs`. -/
structure SplitInv (filename : Name) (route : Routing) (cs : List Chunk) (st : SplitState) :
    Prop where
  id_eq : st.id = cs.length / defaultGroupSize
  names : st.result.map Group.groupName = (List.range st.id).map (groupNameOf filename)
  nodes : ∀ n : ℕ → ℕ, (∀ id fp ds, route id fp ds = n id) →
    st.result.map Group.nodeId = (List.range st.id).map n
  content : st.result.flatMap Group.data ++ chunksData st.chunkList = chunksData cs
  open_length : st.chunkList.length = cs.length % defaultGroupSize
  open_mem : ∀ c ∈ st.chunkList, c ∈ cs
  closed : ∀ g ∈ st.result, ∃ ds, ds ≠ [] ∧ (∀ c ∈ ds, c ∈ cs) ∧ g.data = chunksData ds

private theorem splitInv_nil (filename : Name) (route : Routing) :
    SplitInv filename route [] ⟨[], 0, []⟩ :=
  ⟨rfl, rfl, fun _ _ ↦ rfl, rfl, rfl, by simp, by simp⟩

private theorem splitInv_step {filename : Name} {route : Routing} {cs : List Chunk}
    {st : SplitState} (h : SplitInv filename route cs st) (c : Chunk) :
    SplitInv filename route (cs ++ [c]) (splitStep filename route st c) := by
  have hpos : 0 < defaultGroupSize := by decide
  have hopen := h.open_length
  have hmem : ∀ d ∈ st.chunkList ++ [c], d ∈ cs ++ [c] := by
    intro d hd
    rcases List.mem_append.mp hd with hd | hd
    · exact List.mem_append_left _ (h.open_mem d hd)
    · exact List.mem_append_right _ hd
  have hclosed : ∀ g ∈ st.result, ∃ ds, ds ≠ [] ∧ (∀ d ∈ ds, d ∈ cs ++ [c]) ∧
      g.data = chunksData ds := by
    intro g hg
    obtain ⟨ds, hne, hds, hdata⟩ := h.closed g hg
    exact ⟨ds, hne, fun d hd ↦ List.mem_append_left _ (hds d hd), hdata⟩
  unfold splitStep
  by_cases hfull : (st.chunkList ++ [c]).length = defaultGroupSize
  · rw [if_pos hfull]
    have hlen : cs.length % defaultGroupSize + 1 = defaultGroupSize := by
      simpa [hopen] using hfull
    have hdiv : (cs.length + 1) / defaultGroupSize = cs.length / defaultGroupSize + 1 := by
      simp only [defaultGroupSize] at *
      omega
    refine ⟨?_, ?_, ?_, ?_, ?_, by simp, ?_⟩
    · simp [h.id_eq, hdiv]
    · simp [h.names, List.range_succ, newGroup]
    · intro n hn
      simp [h.nodes n hn, List.range_succ, newGroup, hn]
    · simp [newGroup, ← h.content]
    · simp only [List.length_nil, List.length_append, List.length_singleton, defaultGroupSize] at *
      omega
    · intro g hg
      rcases List.mem_append.mp hg with hg | hg
      · exact hclosed g hg
      · rw [List.mem_singleton.mp hg]
        exact ⟨st.chunkList ++ [c], by simp, hmem, rfl⟩
  · rw [if_neg hfull]
    have hlen : cs.length % defaultGroupSize + 1 ≠ defaultGroupSize := by
      simpa [hopen] using hfull
    refine ⟨?_, h.names, h.nodes, ?_, ?_, hmem, hclosed⟩
    · simp only [h.id_eq, List.length_append, List.length_singleton, defaultGroupSize] at *
      omega
    · simp [← h.content]
    · simp only [List.length_append, List.length_singleton, hopen, defaultGroupSize] at *
      omega

private theorem splitInv_foldl (filename : Name) (route : Routing) (cs : List Chunk) :
    SplitInv filename route cs (cs.foldl (splitStep filename route) ⟨[], 0, []⟩) := by
  induction cs using List.reverseRecOn with
  | nil => exact splitInv_nil filename route
  | append_singleton cs c ih =>
    rw [List.foldl_append]
    exact splitInv_step ih c

/-- The number of groups of a file of `n` chunks. -/
def groupNum (n : ℕ) : ℕ := (n + (defaultGroupSize - 1)) / defaultGroupSize

theorem groupNum_mul (n : ℕ) : groupNum (defaultGroupSize * n) = n := by
  simp only [groupNum, defaultGroupSize]
  omega

section Split

variable (filename : Name) (route : Routing) (chunks : List Chunk)

/-- The number of groups is the number of closed ones, plus one if a group is left open. -/
private theorem groupNum_eq :
    let st := chunks.foldl (splitStep filename route) ⟨[], 0, []⟩
    groupNum chunks.length = if st.chunkList = [] then st.id else st.id + 1 := by
  intro st
  have h := splitInv_foldl filename route chunks
  have hid : st.id = _ := h.id_eq
  have hopen : st.chunkList.length = _ := h.open_length
  split_ifs with hnil
  · rw [hnil, List.length_nil] at hopen
    simp only [groupNum, defaultGroupSize] at *
    omega
  · have hpos := List.length_pos_iff.mpr hnil
    simp only [groupNum, defaultGroupSize] at *
    omega

/-- The groups of a file are numbered from zero, one for each started run of
`DEFAULT_GROUP_SIZE` chunks. -/
theorem split2Groups_names : (split2Groups filename route chunks).map Group.groupName =
    (List.range (groupNum chunks.length)).map (groupNameOf filename) := by
  have h := splitInv_foldl filename route chunks
  rw [groupNum_eq filename route, split2Groups]
  split_ifs with hnil
  · exact h.names
  · rw [List.map_append, h.names, List.range_succ]
    simp [newGroup]

/-- Groups routed by their index alone go to the nodes of their indices. -/
theorem split2Groups_nodes (n : ℕ → ℕ) :
    (split2Groups filename (fun id _ _ ↦ n id) chunks).map Group.nodeId =
      (List.range (groupNum chunks.length)).map n := by
  have h := splitInv_foldl filename (fun id _ _ ↦ n id) chunks
  rw [groupNum_eq filename fun id _ _ ↦ n id, split2Groups]
  split_ifs with hnil
  · exact h.nodes n fun _ _ _ ↦ rfl
  · rw [List.map_append, h.nodes n fun _ _ _ ↦ rfl, List.range_succ]
    simp [newGroup]

theorem split2Groups_content :
    (split2Groups filename route chunks).flatMap Group.data = chunksData chunks := by
  have h := splitInv_foldl filename route chunks
  unfold split2Groups
  by_cases hnil : (chunks.foldl (splitStep filename route) ⟨[], 0, []⟩).chunkList = []
  · rw [if_pos hnil, ← h.content, hnil]
    simp
  · rw [if_neg hnil, ← h.content]
    simp [newGroup]

theorem split2Groups_data {g : Group} (hg : g ∈ split2Groups filename route chunks) :
    ∃ ds, ds ≠ [] ∧ (∀ c ∈ ds, c ∈ chunks) ∧ g.data = chunksData ds := by
  have h := splitInv_foldl filename route chunks
  unfold split2Groups at hg
  by_cases hnil : (chunks.foldl (splitStep filename route) ⟨[], 0, []⟩).chunkList = []
  · rw [if_pos hnil] at hg
    exact h.closed g hg
  · rw [if_neg hnil] at hg
    rcases List.mem_append.mp hg with hg | hg
    · exact h.closed g hg
    · rw [List.mem_singleton.mp hg]
      exact ⟨_, hnil, h.open_mem, rfl⟩

theorem split2Groups_length :
    (split2Groups filename route chunks).length = groupNum chunks.length := by
  simpa using congrArg List.length (split2Groups_names filename route chunks)

end Split

/-! ## The chunks of a group

The chunks of the group of index `i` are the `DEFAULT_GROUP_SIZE` chunks from `i * DEFAULT_GROUP_SIZE` on,
or as many as there are. -/

section Runs

variable (filename : Name) (route : Routing)

/-- The chunks of the group of index `i`. -/
def groupRun (chunks : List Chunk) (i : ℕ) : List Chunk :=
  (chunks.drop (i * defaultGroupSize)).take defaultGroupSize

/-- The delegate of a group: the last group of a file, when it is shorter, has its own loop. -/
def groupDelegate (run : List Chunk) : Fingerprint :=
  if run.length = defaultGroupSize then delegateOfFull run else delegateOfLast run

/-- The group of index `i` of a file. -/
def groupOf (chunks : List Chunk) (i : ℕ) : Group :=
  let run := groupRun chunks i
  newGroup filename i (groupDelegate run) (route i (groupDelegate run) run) (chunksData run)

theorem groupRun_append {cs : List Chunk} (ds : List Chunk) {i : ℕ}
    (hi : i < cs.length / defaultGroupSize) : groupRun (cs ++ ds) i = groupRun cs i := by
  have hle : i * defaultGroupSize + defaultGroupSize ≤ cs.length := by
    simp only [defaultGroupSize] at *
    omega
  rw [groupRun, groupRun, List.drop_append_of_le_length (by omega), List.take_append_of_le_length]
  rw [List.length_drop]
  omega

/-- The chunks of the group that is being filled. -/
def openRun (cs : List Chunk) : List Chunk := cs.drop (cs.length / defaultGroupSize * defaultGroupSize)

theorem openRun_concat_of_full {cs : List Chunk} {c : Chunk} (hfull : (openRun cs ++ [c]).length = defaultGroupSize) :
    (cs ++ [c]).length / defaultGroupSize = cs.length / defaultGroupSize + 1 ∧ openRun (cs ++ [c]) = [] ∧
      groupRun (cs ++ [c]) (cs.length / defaultGroupSize) = openRun cs ++ [c] := by
  have hlength : (cs ++ [c]).length = cs.length + 1 := by
    rw [List.length_append, List.length_singleton]
  have hopen : openRun cs ++ [c] = (cs ++ [c]).drop (cs.length / defaultGroupSize * defaultGroupSize) :=
    (List.drop_append_of_le_length (Nat.div_mul_le_self ..)).symm
  have hdrop := hfull
  rw [hopen, List.length_drop, hlength] at hdrop
  have hdiv : (cs ++ [c]).length / defaultGroupSize = cs.length / defaultGroupSize + 1 := by
    rw [hlength]
    simp only [defaultGroupSize] at *
    omega
  refine ⟨hdiv, ?_, ?_⟩
  · rw [openRun, hdiv, List.drop_eq_nil_iff, hlength]
    simp only [defaultGroupSize] at *
    omega
  · rw [groupRun, ← hopen, List.take_of_length_le hfull.le]

theorem openRun_concat_of_not_full {cs : List Chunk} {c : Chunk}
    (hfull : (openRun cs ++ [c]).length ≠ defaultGroupSize) :
    (cs ++ [c]).length / defaultGroupSize = cs.length / defaultGroupSize ∧ openRun (cs ++ [c]) = openRun cs ++ [c] := by
  have hdrop := hfull
  rw [List.length_append, List.length_singleton, openRun, List.length_drop] at hdrop
  have hdiv : (cs ++ [c]).length / defaultGroupSize = cs.length / defaultGroupSize := by
    rw [List.length_append, List.length_singleton]
    simp only [defaultGroupSize] at *
    omega
  refine ⟨hdiv, ?_⟩
  rw [openRun, hdiv, openRun, List.drop_append_of_le_length (Nat.div_mul_le_self ..)]

theorem groupNum_of_openRun_eq_nil {cs : List Chunk} (hnil : openRun cs = []) :
    groupNum cs.length = cs.length / defaultGroupSize := by
  rw [openRun, List.drop_eq_nil_iff] at hnil
  simp only [groupNum, defaultGroupSize] at *
  omega

theorem groupNum_of_openRun_ne_nil {cs : List Chunk} (hne : openRun cs ≠ []) :
    groupNum cs.length = cs.length / defaultGroupSize + 1 ∧ (openRun cs).length < defaultGroupSize ∧
      groupRun cs (cs.length / defaultGroupSize) = openRun cs := by
  have hlt : cs.length / defaultGroupSize * defaultGroupSize < cs.length := by
    rwa [ne_eq, openRun, List.drop_eq_nil_iff, not_le] at hne
  have hopen : (openRun cs).length < defaultGroupSize := by
    rw [openRun, List.length_drop]
    simp only [defaultGroupSize]
    omega
  refine ⟨?_, hopen, ?_⟩
  · simp only [groupNum, defaultGroupSize] at *
    omega
  · exact List.take_of_length_le hopen.le

private theorem foldl_splitStep (cs : List Chunk) :
    cs.foldl (splitStep filename route) ⟨[], 0, []⟩ =
      ⟨openRun cs, cs.length / defaultGroupSize,
        (List.range (cs.length / defaultGroupSize)).map (groupOf filename route cs)⟩ := by
  induction cs using List.reverseRecOn with
  | nil => rfl
  | append_singleton cs c ih =>
    have hgroups : ∀ i ∈ List.range (cs.length / defaultGroupSize),
        groupOf filename route (cs ++ [c]) i = groupOf filename route cs i := by
      intro i hi
      rw [groupOf, groupOf, groupRun_append [c] (List.mem_range.mp hi)]
    rw [List.foldl_append, ih, List.foldl_cons, List.foldl_nil, splitStep]
    dsimp only
    by_cases hfull : (openRun cs ++ [c]).length = defaultGroupSize
    · obtain ⟨hdiv, hnil, hrun⟩ := openRun_concat_of_full hfull
      rw [if_pos hfull, hdiv, hnil, List.range_succ, List.map_append, List.map_congr_left hgroups, List.map_singleton,
        groupOf, hrun, groupDelegate, if_pos hfull]
    · obtain ⟨hdiv, hopen⟩ := openRun_concat_of_not_full hfull
      rw [if_neg hfull, hdiv, hopen, List.map_congr_left hgroups]

/-- **The groups of a file are its runs of chunks, in order.** -/
theorem split2Groups_eq (chunks : List Chunk) :
    split2Groups filename route chunks =
      (List.range (groupNum chunks.length)).map (groupOf filename route chunks) := by
  rw [split2Groups, foldl_splitStep]
  by_cases hnil : openRun chunks = []
  · simp only [if_pos hnil, groupNum_of_openRun_eq_nil hnil]
  · obtain ⟨hnum, hlt, hrun⟩ := groupNum_of_openRun_ne_nil hnil
    simp only [if_neg hnil, hnum, List.range_succ, List.map_append, List.map_singleton, groupOf,
      groupDelegate, hrun, if_neg hlt.ne]

theorem groupRun_split {chunks : List Chunk} {i : ℕ} (hi : i < groupNum chunks.length) :
    groupRun chunks i ≠ [] ∧ ∃ as bs, chunks = as ++ (groupRun chunks i ++ bs) := by
  have hlt : i * defaultGroupSize < chunks.length := by
    simp only [groupNum, defaultGroupSize] at *
    omega
  refine ⟨List.ne_nil_of_length_pos ?_, chunks.take (i * defaultGroupSize),
    (chunks.drop (i * defaultGroupSize)).drop defaultGroupSize, ?_⟩
  · rw [groupRun, List.length_take, List.length_drop]
    simp only [defaultGroupSize] at *
    omega
  · rw [groupRun, List.take_append_drop, List.take_append_drop]

end Runs

end UniDedup.Client
