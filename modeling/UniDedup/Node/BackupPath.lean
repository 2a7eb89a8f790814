import UniDedup.Node.RecipeStore

/-!
# The path of a backup

`create_backup_version` keeps of the name of a backup what stands before its last component. It clears
the name from its end until it meets a separator, and does not look at the start of the name. The
directory backups it was written for had a separator at the end of their path, since `init_jcr` put one
there; that part of `init_jcr` is commented out, and the name of a group comes as it was sent.
-/

namespace UniDedup.Node

/-- The name of a group in a command to the server: a non-empty C string whose length the command holds
as an `int`. -/
structure GroupName where
  bytes : Bytes
  ne_nil : bytes ≠ []
  noNul : (0 : UInt8) ∉ bytes
  length_lt : bytes.length < 2 ^ 31

/-- The loop of `create_backup_version` with the positions below `n` still to come; `none` where it
leaves the bytes of the path. -/
def trimLoop (path : Bytes) : ℕ → Option Bytes
  | 0 => none
  | cur + 1 =>
    match path[cur]? with
    | none => none
    | some b => if b = slash then some path else trimLoop (path.set cur 0) cur

/-- What `create_backup_version` leaves in `b->path`: `sdsupdatelen` ends it at the first NUL. -/
def backupPath (path : Bytes) : Option Bytes :=
  (trimLoop path path.length).map cString

/-- The longest prefix of a name that ends with a separator, or the empty string. -/
structure IsDirectory (name dir : Bytes) : Prop where
  isPrefix : dir <+: name
  ends : dir = [] ∨ dir.getLast? = some slash
  longest : ∀ p, p <+: name → p.getLast? = some slash → p.length ≤ dir.length

/-- The loop stays within the name and leaves its directory, with which the version is created. -/
def GroupName.TrimsTotally (name : GroupName) : Prop :=
  ∃ dir, backupPath name.bytes = some dir ∧ trimPath name.bytes = .ok dir ∧ IsDirectory name.bytes dir

/-! ## The loop -/

/-- The loop over the bytes it has not cleared yet: it leaves the path behind the last separator, and
without one it runs past the start. -/
theorem trimLoop_append (pre : Bytes) (n : ℕ) :
    (slash ∉ pre → trimLoop (pre ++ List.replicate n 0) pre.length = none) ∧
      (slash ∈ pre → ∃ m, trimLoop (pre ++ List.replicate n 0) pre.length =
        some (pre.rdropWhile (· ≠ slash) ++ List.replicate m 0)) := by
  induction pre using List.reverseRecOn generalizing n with
  | nil => exact ⟨fun _ ↦ rfl, fun h ↦ absurd h List.not_mem_nil⟩
  | append_singleton pre b ih =>
    have hget : (pre ++ [b] ++ List.replicate n 0)[pre.length]? = some b := by simp
    rw [List.length_append, List.length_singleton, trimLoop, hget]
    by_cases hb : b = slash
    · refine ⟨fun h ↦ absurd (hb ▸ List.mem_append_right pre List.mem_cons_self) h, fun _ ↦ ⟨n, ?_⟩⟩
      rw [List.rdropWhile_concat_neg _ _ _ (by simp [hb])]
      exact if_pos hb
    · -- The byte is cleared, and is one more behind the rest.
      have hset : (pre ++ [b] ++ List.replicate n 0).set pre.length 0 =
          pre ++ List.replicate (n + 1) 0 := by
        simp [List.replicate_succ]
      have hmem : slash ∈ pre ++ [b] ↔ slash ∈ pre := by
        simp [Ne.symm hb]
      rw [hmem, List.rdropWhile_concat_pos _ _ _ (by simp [hb]), hset]
      simp only [if_neg hb]
      exact ih (n + 1)

theorem cString_append_replicate {p : Bytes} (h : (0 : UInt8) ∉ p) (m : ℕ) :
    cString (p ++ List.replicate m 0) = p := by
  have hp : ∀ b ∈ p, decide (b ≠ 0) = true := by
    intro b hb
    rw [decide_eq_true_eq]
    rintro rfl
    exact h hb
  rw [cString, List.takeWhile_append_of_pos hp, List.takeWhile_replicate]
  simp

/-- **What the loop leaves** of a C string. -/
theorem backupPath_eq {name : Bytes} (h : (0 : UInt8) ∉ name) :
    backupPath name = if slash ∈ name then some (name.rdropWhile (· ≠ slash)) else none := by
  obtain ⟨hnot, hmem⟩ := trimLoop_append name 0
  rw [List.replicate_zero, List.append_nil] at hnot hmem
  by_cases hs : slash ∈ name
  · obtain ⟨m, hm⟩ := hmem hs
    rw [if_pos hs, backupPath, hm, Option.map_some, cString_append_replicate]
    exact fun h0 ↦ h ((List.rdropWhile_prefix _ _).mem h0)
  · rw [if_neg hs, backupPath, hnot hs, Option.map_none]

theorem trimPath_eq_backupPath (name : GroupName) (dir : Bytes) :
    trimPath name.bytes = .ok dir ↔ backupPath name.bytes = some dir := by
  rw [backupPath_eq name.noNul]
  unfold trimPath Outcome.check
  rw [if_pos name.length_lt]
  by_cases hs : slash ∈ name.bytes
  · rw [if_pos hs, if_pos hs]
    exact ⟨fun h ↦ congrArg some (Except.ok.inj h), fun h ↦ congrArg Except.ok (Option.some.inj h)⟩
  · rw [if_neg hs, if_neg hs]
    constructor
    · intro h
      cases h
    · intro h
      cases h

/-! ## The directory -/

theorem isDirectory_rdropWhile {name : Bytes} (h : slash ∈ name) :
    IsDirectory name (name.rdropWhile (· ≠ slash)) where
  isPrefix := List.rdropWhile_prefix _ _
  ends := by
    refine .inr ?_
    have hne : name.rdropWhile (· ≠ slash) ≠ [] := by
      rw [ne_eq, List.rdropWhile_eq_nil_iff]
      intro hall
      simpa using hall slash h
    have hlast := List.rdropWhile_last_not _ name hne
    rw [List.getLast?_eq_some_getLast hne]
    simpa using hlast
  longest := by
    intro p hp hlast
    obtain ⟨rest, rfl⟩ := hp
    induction rest using List.reverseRecOn with
    | nil =>
      rw [List.append_nil, List.rdropWhile_eq_self_iff.mpr]
      intro hne
      rw [List.getLast?_eq_some_getLast hne, Option.some.injEq] at hlast
      simp [hlast]
    | append_singleton rest b ih =>
      rw [← List.append_assoc]
      by_cases hb : b = slash
      · rw [List.rdropWhile_concat_neg _ _ _ (by simp [hb])]
        simp only [List.length_append]
        omega
      · rw [List.rdropWhile_concat_pos _ _ _ (by simp [hb])]
        refine ih ?_
        exact List.mem_append_left rest (List.mem_of_getLast? hlast)

/-- **Trimming is total** exactly for the names with a separator. -/
theorem trimsTotally_iff (name : GroupName) : name.TrimsTotally ↔ slash ∈ name.bytes := by
  constructor
  · rintro ⟨dir, hdir, -⟩
    by_contra hs
    rw [backupPath_eq name.noNul, if_neg hs] at hdir
    cases hdir
  · intro hs
    have hdir : backupPath name.bytes = some (name.bytes.rdropWhile (· ≠ slash)) := by
      rw [backupPath_eq name.noNul, if_pos hs]
    exact ⟨_, hdir, (trimPath_eq_backupPath name _).mpr hdir, isDirectory_rdropWhile hs⟩

/-- The name `f` of a group. -/
theorem not_trimsTotally_f : ¬GroupName.TrimsTotally ⟨[0x66], by decide, by decide, by decide⟩ := by
  rintro ⟨dir, hdir, -⟩
  cases hdir

end UniDedup.Node
