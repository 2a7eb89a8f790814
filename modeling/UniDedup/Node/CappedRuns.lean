import UniDedup.Node.Capping
import UniDedup.Node.RewriteProgress

/-!
# The buffers that capping flushes

Each time `cap_rewrite` flushes its buffer, the unmarked duplicates it passes on refer to at most `cappingLevel`
containers, those with the largest totals in the buffer.

## The invariant

In the middle of a flush, what has been passed on is the first part of the buffer, and the containers that
`cap_segment_get_top` has chosen are those with the largest totals in the whole of it. The records keep changing while
the chunks are popped, and the containers chosen do not, so the invariant speaks of the buffer as it was when they
were chosen.

## Totals that do not fit

The records are sorted by the difference of their sizes, as `int`s. The total of a container from `2 ^ 31` bytes on
is below zero there, and the container comes after one with a single byte.
-/

namespace UniDedup.Node

open Outcome Comparing

instance (c : Chunk) : Decidable c.Unmarked :=
  decidable_of_iff (c.outOfOrder = false ∧ c.sparse = false) ⟨fun h ↦ ⟨h.1, h.2⟩, fun h ↦ ⟨h.1, h.2⟩⟩

namespace Rewriter

variable {cfg : Config} {inherited : List ℤ} {s s' : Rewriter} {buf : RewriteBuffer} {c d : Chunk}
variable {l : RewriteLabel}

/-- A flush of capping has passed on a part of the buffer. -/
structure Flushing (cfg : Config) (inherited : List ℤ) (s : Rewriter) (final : Bool) : Prop where
  unmarked : ∀ c ∈ s.capped, c.Unmarked
  chosen : ∃ buf : RewriteBuffer, buf.Accounted ∧ s.capped = buf.queue ∧ s.top = capTop cfg buf
  passed : ∃ before, s.capped = before ++ s.buffer.queue ∧ List.Forall₂
    (fun c d ↦ capMark s.top final (RewriteBuffer.popped cfg inherited c) = .ok d) before s.flushed

/-- **The invariant**: a flush is under way, or the last one has kept the guarantee. -/
structure CapsFlushed (cfg : Config) (inherited : List ℤ) (s : Rewriter) : Prop where
  flushing : ∀ final, s.point = .flush final → s.Flushing cfg inherited final
  flushed : (∀ final, s.point ≠ .flush final) → Capped cfg s.capped s.flushed

theorem Flushing.capped (halg : cfg.rewriteAlgorithm = .capping) {final : Bool} (h : s.Flushing cfg inherited final)
    (hq : s.buffer.queue = []) : Capped cfg s.capped s.flushed := by
  obtain ⟨buf, hbuf, hcapped, htop⟩ := h.chosen
  obtain ⟨before, hbefore, hforall⟩ := h.passed
  have hun := h.unmarked
  rw [hq, List.append_nil] at hbefore
  rw [hcapped] at hun hbefore ⊢
  rw [← hbefore, htop] at hforall
  exact capped_of_forall₂ halg hbuf hun hforall

theorem capsFlushed_init : init.CapsFlushed cfg inherited where
  flushing _ h := absurd h (by simp [init])
  flushed _ := ⟨.nil, Nat.zero_le _, fun _ _ _ hc ↦ absurd hc List.not_mem_nil⟩

theorem CapsFlushed.of_eq (h : s.CapsFlushed cfg inherited) (hpoint : ∀ final, s.point ≠ .flush final)
    (hpoint' : ∀ final, s'.point ≠ .flush final) (hcapped : s'.capped = s.capped) (hflushed : s'.flushed = s.flushed) :
    s'.CapsFlushed cfg inherited where
  flushing final hflush := absurd hflush (hpoint' final)
  flushed _ := hcapped ▸ hflushed ▸ h.flushed hpoint

theorem CapsFlushed.call (hint : cfg.rewriteBufferSize < 2 ^ 31) (halg : cfg.rewriteAlgorithm = .capping)
    (h : s.CapsFlushed cfg inherited) (hpassing : s.Passing cfg) (hbuf : s.Sound cfg buf)
    (hun : ∀ c ∈ s.taken, c.Unmarked) {outOfOrder recordFlag late : Bool}
    (hturn : s.turn cfg inherited (.call outOfOrder recordFlag late) = some (.ok s')) :
    s'.CapsFlushed cfg inherited := by
  have hof := hpassing.of
  rw [halg] at hof
  simp only [turn] at hturn
  cases hpoint : s.point with
  | loop =>
    rw [hpoint] at hturn
    exact absurd hturn.symm (Option.some_ne_none _)
  | done =>
    rw [hpoint] at hturn
    exact absurd hturn.symm (Option.some_ne_none _)
  | passing c =>
    rw [hpoint] at hof
    exact absurd hof (by simp [RewritePoint.Of])
  | judge c =>
    rw [hpoint] at hof
    exact absurd hof (by simp [RewritePoint.Of])
  | decide =>
    rw [hpoint] at hof
    exact absurd hof (by simp [RewritePoint.Of])
  | drain =>
    rw [hpoint] at hof
    exact absurd hof (by simp [RewritePoint.Of])
  | pushing c =>
    rw [hpoint] at hturn
    obtain ⟨-, -, -, hcapped, hflushed, hpoint'⟩ := pushed_cases (by simp [halg]) (Option.some.inj hturn)
    refine h.of_eq (by simp [hpoint]) (fun final ↦ ?_) hcapped hflushed
    rcases hpoint' with hpoint' | ⟨hpoint', -⟩ | ⟨hpoint', -⟩ <;> simp [hpoint']
  | sorted final =>
    rw [hpoint] at hturn
    obtain rfl := Except.ok.inj (Option.some.inj hturn)
    obtain ⟨done, htaken, -⟩ := hpassing.kept
    refine ⟨fun final' hflush ↦ ⟨fun c hc ↦ hun c ?_, ?_, [], rfl, .nil⟩, fun hnot ↦ absurd rfl (hnot final)⟩
    · rw [htaken, held]
      exact List.mem_append_right _ (List.mem_append_left _ hc)
    · exact ⟨buf, hbuf.bounded.accounted, hbuf.queue, (hbuf.chosen hint hpoint).2⟩
  | flush final =>
    rw [hpoint] at hturn
    dsimp only at hturn
    have hflushing := h.flushing final hpoint
    rcases popped_cases (Option.some.inj hturn) with ⟨rfl, hq⟩ | ⟨c, d, buffer, hq, hd, rfl⟩
    · have hcapped := hflushing.capped halg hq
      refine ⟨fun final' hflush ↦ ?_, fun _ ↦ hcapped⟩
      cases final <;> exact absurd hflush (by simp)
    · refine ⟨fun final' hflush ↦ ?_, fun hnot ↦ absurd hpoint (hnot final)⟩
      obtain rfl : final = final' := RewritePoint.flush.inj (hpoint.symm.trans hflush)
      obtain ⟨before, hbefore, hforall⟩ := hflushing.passed
      refine ⟨hflushing.unmarked, hflushing.chosen, before ++ [c], ?_, ?_⟩
      · rw [hq] at hbefore
        rw [List.append_assoc]
        exact hbefore
      · exact List.rel_append hforall (.cons hd .nil)

/-- **Every run of capping keeps the invariant.** -/
theorem capsFlushed_of_reach (hpos : 0 < cfg.rewriteBufferSize) (hint : cfg.rewriteBufferSize < 2 ^ 31)
    (halg : cfg.rewriteAlgorithm = .capping)
    (h : Reach cfg inherited (fun s l ↦ s.RecordsFit l ∧ Taking Chunk.Unmarked s l) s) :
    s.CapsFlushed cfg inherited := by
  induction h with
  | init h =>
    obtain rfl := h
    exact capsFlushed_init
  | @step s s' l h ha hs ih =>
    have hturn := turn_of_next hs
    cases l with
    | take c =>
      rw [turn] at hturn
      split at hturn
      · next hpoint =>
        obtain rfl := Except.ok.inj (Option.some.inj hturn)
        exact ih.of_eq (by simp [hpoint]) (by simp [takePoint, halg]) rfl rfl
      · exact absurd hturn.symm (Option.some_ne_none _)
    | finish =>
      rw [turn] at hturn
      split at hturn
      · next hpoint =>
        obtain rfl := Except.ok.inj (Option.some.inj hturn)
        exact ih.of_eq (by simp [hpoint]) (by simp [finished, halg]) (by simp [finished, halg]) (by simp [finished, halg])
      · exact absurd hturn.symm (Option.some_ne_none _)
    | call outOfOrder recordFlag late =>
      obtain ⟨buf, hbuf⟩ := sound_of_reach hpos hint (h.mono fun _ _ hl ↦ hl.1)
      exact ih.call hint halg (passing_of_reachable h.reachable) hbuf (forall_taken (h.mono fun _ _ hl ↦ hl.2)) hturn

/-- **Capping guarantee.** In every run in which the buffered duplicates of no container total `2 ^ 31` bytes, each
buffer that `cap_rewrite` flushes, because a chunk fills it or because the stream ends, is passed on with its duplicates
referring to at most `cappingLevel` containers, those with the largest totals in the buffer. -/
theorem cap_guarantee (hpos : 0 < cfg.rewriteBufferSize) (hint : cfg.rewriteBufferSize < 2 ^ 31)
    (halg : cfg.rewriteAlgorithm = .capping)
    (h : Reach cfg inherited (fun s l ↦ s.RecordsFit l ∧ Taking Chunk.Unmarked s l) s)
    (hend : ∀ final, s.point = .flush final → s.buffer.queue = []) : Capped cfg s.capped s.flushed := by
  have hcaps := capsFlushed_of_reach hpos hint halg h
  by_cases hflush : ∃ final, s.point = .flush final
  · obtain ⟨final, hpoint⟩ := hflush
    exact (hcaps.flushing final hpoint).capped halg (hend final hpoint)
  · exact hcaps.flushed (not_exists.mp hflush)

/-- Three containers and room for two: the one with the smallest total is left out. -/
theorem cap_guarantee_smallest :
    ∃ s, Reach (capping 5 2) [] (fun s l ↦ s.RecordsFit l ∧ Taking Chunk.Unmarked s l) s ∧
      s.flushed.map (fun d ↦ (d.id, d.outOfOrder)) = [(7, false), (8, true), (9, false), (8, true), (7, false)] ∧
      Capped (capping 5 2) s.capped s.flushed := by
  have hinit : Reach (capping 5 2) [] (fun s l ↦ s.RecordsFit l ∧ Taking Chunk.Unmarked s l) init := .init rfl
  obtain ⟨s, hs, hend⟩ := hinit.exists_of_runIf
    [.take { Chunk.new .normal [1, 2] with duplicate := true, id := 7 }, .call false false false,
      .take { Chunk.new .normal [3] with duplicate := true, id := 8 }, .call false false false,
      .take { Chunk.new .normal [4, 5, 6, 7] with duplicate := true, id := 9 }, .call false false false,
      .take { Chunk.new .normal [8] with duplicate := true, id := 8 }, .call false false false,
      .take { Chunk.new .normal [9] with duplicate := true, id := 7 }, .call false false false,
      .call false false false, .call false false false, .call false false false, .call false false false,
      .call false false false, .call false false false]
    (p := fun s ↦ decide (s.point = .flush false ∧ s.buffer.queue = [] ∧
      s.flushed.map (fun d ↦ (d.id, d.outOfOrder)) =
        [(7, false), (8, true), (9, false), (8, true), (7, false)])) (by decide)
  rw [decide_eq_true_eq] at hend
  obtain ⟨-, hempty, hflushed⟩ := hend
  exact ⟨s, hs, hflushed, cap_guarantee (by decide) (by decide) rfl hs fun _ _ ↦ hempty⟩

/-! ## A total of `2 ^ 31` bytes -/

theorem reach_flushed {P : Chunk → Prop} {final : Bool} {m : ℕ} {rest : IntBuffer} {before : List Chunk}
    (hstored : c.storedDuplicate = true) (hhar : cfg.enableHar = false) (hpos : 0 ≤ rest.num)
    (hint : m + rest.num < 2 ^ 31) (hne : ∀ j < m, int32 ((j + 1 : ℕ) * c.size) ≠ 0) {top : List ℤ}
    (hd : capMark top final c = .ok d) {taken capped : List Chunk}
    (h : Reach cfg inherited (Taking P)
      ⟨remaining c m rest, .flush final, temporaryId, false, top, taken, before, capped, before⟩) :
    Reach cfg inherited (Taking P) ⟨remaining c 0 rest, .flush final, temporaryId, false, top, taken,
      before ++ List.replicate m d, capped, before ++ List.replicate m d⟩ := by
  induction m generalizing before with
  | zero =>
    rw [List.replicate_zero, List.append_nil]
    exact h
  | succ m ih =>
    have hpop := @pop_remaining cfg inherited c m rest hstored hhar (hne m (Nat.lt_succ_self m)) hpos (by omega)
    have hturn : turn cfg inherited
        ⟨remaining c (m + 1) rest, .flush final, temporaryId, false, top, taken, before, capped, before⟩
          (.call false false false) = some (.ok ⟨remaining c m rest, .flush final, temporaryId, false, top, taken,
            before ++ [d], capped, before ++ [d]⟩) := by
      simp only [turn, popped]
      rw [hpop]
      refine congrArg some ?_
      show (capMark top final c >>= _) = _
      rw [hd]
      rfl
    have hrest := ih (by omega) (fun j hj ↦ hne j (by omega)) (h.call false false false hturn)
    rwa [List.append_assoc, List.singleton_append, ← List.replicate_succ] at hrest

theorem duplicateSize_replicate (n : ℕ) (id : ℤ) (hstored : c.storedDuplicate = true) :
    duplicateSize id (List.replicate n c) = if c.id = id then n * c.size else 0 := by
  induction n with
  | zero =>
    rw [Nat.zero_mul, ite_self]
    rfl
  | succ n ih =>
    rw [List.replicate_succ, duplicateSize_cons, ih]
    by_cases hid : c.id = id
    · rw [if_pos ⟨hstored, hid⟩, if_pos hid, if_pos hid, Nat.succ_mul, Nat.add_comm]
    · rw [if_neg fun h ↦ hid h.2, if_neg hid, if_neg hid]

def duplicate1 : Chunk := { Chunk.new .normal [1] with duplicate := true, id := 1 }

/-- 32769 duplicates of 64 KiB, and the byte of the other container. -/
def overflowing : List Chunk := List.replicate 32769 (duplicate64 0) ++ [duplicate1]

def restByte : IntBuffer := ⟨[duplicate1], [⟨1, 1, true⟩], 1, 1⟩

theorem int32_ne_zero {j : ℕ} (hj : j < 32769) : int32 ((j + 1 : ℕ) * (duplicate64 0).size) ≠ 0 := by
  rw [size_duplicate64, int32]
  intro hzero
  have hdvd := Int.dvd_iff_bmod_eq_zero.mpr hzero
  omega

theorem records_overflowing : (remaining (duplicate64 0) 32769 restByte).records =
    [⟨0, -2147418112, true⟩, ⟨1, 1, true⟩] := by
  have hsize : int32 ((32769 : ℕ) * (duplicate64 0).size) = -2147418112 := by
    rw [size_duplicate64]
    decide
  rw [remaining, hsize]
  rfl

/-- The byte comes into the buffer after the other chunks, and fills it. -/
theorem push_overflowing : (copies (duplicate64 0) 32769).push (capping 32770 1) duplicate1 =
    .ok (remaining (duplicate64 0) 32769 restByte, true) := by
  have hsize : int32 ((32769 : ℕ) * (duplicate64 0).size) = -2147418112 := by
    rw [size_duplicate64]
    decide
  have hsum : int32 ((32769 : ℕ) * (duplicate64 0).size + restByte.size) = -2147418111 := by
    rw [size_duplicate64]
    decide
  rw [copies, remaining, hsize, hsum]
  generalize List.replicate 32769 (duplicate64 0) = cs
  rfl

/-- **A container with a total of `2 ^ 31` bytes is left out**, and one with a single byte is kept. -/
theorem not_cap_guarantee :
    ∃ s, Reach (capping 32770 1) [] (Taking fun c ↦ c.Sized ∧ c.Unmarked) s ∧ s.point = .flush false ∧
      s.buffer.queue = [] ∧ s.capped = overflowing ∧ ¬Capped (capping 32770 1) s.capped s.flushed := by
  have hsize := size_duplicate64 0
  have hlt : (duplicate64 0).size < 2 ^ 31 := by rw [hsize]; decide
  have hc : (duplicate64 0).Sized ∧ (duplicate64 0).Unmarked := ⟨sized_duplicate64, rfl, rfl⟩
  have hd : duplicate1.Sized ∧ duplicate1.Unmarked := by decide
  have hfill : Reach (capping 32770 1) [] (Taking fun c ↦ c.Sized ∧ c.Unmarked) (filling (duplicate64 0) 32769) :=
    reach_filling [] rfl hc rfl hlt (by decide) (by decide)
  have hpushed : pushed (capping 32770 1) ⟨copies (duplicate64 0) 32769, .pushing duplicate1, temporaryId, false, [],
      overflowing, [], [], []⟩ duplicate1 = .ok ⟨(remaining (duplicate64 0) 32769 restByte).sortByLength,
        .sorted false, temporaryId, false, [], overflowing, [], [], []⟩ := by
    rw [pushed]
    dsimp only
    rw [push_overflowing]
    rfl
  -- the container with the byte comes first, and the order of the ids is restored
  have hsorts : (remaining (duplicate64 0) 32769 restByte).sortByLength.sortById =
      remaining (duplicate64 0) 32769 restByte := by
    have hboth : sort gRecordCmpById (sort gRecordDescmpByLength [⟨0, -2147418112, true⟩, ⟨1, 1, true⟩]) =
        [⟨0, -2147418112, true⟩, ⟨1, 1, true⟩] := by decide
    rw [IntBuffer.sortById, IntBuffer.sortByLength]
    dsimp only
    rw [records_overflowing, hboth, ← records_overflowing]
  have htop : ((remaining (duplicate64 0) 32769 restByte).sortByLength.records.take
      (capping 32770 1).cappingLevel).map IntRecord.cid = [1] := by
    rw [IntBuffer.sortByLength, records_overflowing]
    decide
  have hqueue : (remaining (duplicate64 0) 32769 restByte).sortByLength.queue = overflowing := rfl
  have hchosen : Reach (capping 32770 1) [] (Taking fun c ↦ c.Sized ∧ c.Unmarked)
      ⟨remaining (duplicate64 0) 32769 restByte, .flush false, temporaryId, false, [1], overflowing, [], overflowing,
        []⟩ := by
    have hturn : turn (capping 32770 1) [] ⟨(remaining (duplicate64 0) 32769 restByte).sortByLength, .sorted false,
        temporaryId, false, [], overflowing, [], [], []⟩ (.call false false false) =
          some (.ok ⟨remaining (duplicate64 0) 32769 restByte, .flush false, temporaryId, false, [1], overflowing, [],
            overflowing, []⟩) := by
      simp only [turn, chosen]
      rw [hsorts, htop, hqueue]
    exact ((hfill.take rfl hd).call false false false (congrArg some hpushed)).call false false false hturn
  -- the copies are marked as they are passed on, and the byte is not
  have hmark : capMark [1] false (duplicate64 0) = .ok { duplicate64 0 with outOfOrder := true } := rfl
  have hflushed := reach_flushed rfl rfl (by decide) (by decide) (fun _ ↦ int32_ne_zero) hmark hchosen
  have hlast : turn (capping 32770 1) [] ⟨remaining (duplicate64 0) 0 restByte, .flush false, temporaryId, false, [1],
      overflowing, List.replicate 32769 { duplicate64 0 with outOfOrder := true }, overflowing,
      List.replicate 32769 { duplicate64 0 with outOfOrder := true }⟩ (.call false false false) =
        some (.ok ⟨⟨[], [], 0, 0⟩, .flush false, temporaryId, false, [1], overflowing,
          List.replicate 32769 { duplicate64 0 with outOfOrder := true } ++ [duplicate1], overflowing,
          List.replicate 32769 { duplicate64 0 with outOfOrder := true } ++ [duplicate1]⟩) := by
    have hrest : remaining (duplicate64 0) 0 restByte = restByte := by
      rw [remaining, Int.natCast_zero, Int.zero_mul]
      rfl
    rw [hrest]
    generalize List.replicate 32769 { duplicate64 0 with outOfOrder := true } = marked
    rfl
  refine ⟨_, hflushed.call false false false hlast, rfl, rfl, rfl, fun hcapped ↦ ?_⟩
  have hnot : (0 : ℤ) ∉ keptContainers
      (List.replicate 32769 { duplicate64 0 with outOfOrder := true } ++ [duplicate1]) := by
    intro hmem
    obtain ⟨d, hd, -, -, hno, hid⟩ := mem_keptContainers.mp hmem
    rcases List.mem_append.mp hd with hd | hd
    · rw [List.eq_of_mem_replicate hd] at hno
      exact absurd hno (by decide)
    · rw [List.mem_singleton.mp hd] at hid
      exact absurd hid (by decide)
  have hkept : (1 : ℤ) ∈ keptContainers
      (List.replicate 32769 { duplicate64 0 with outOfOrder := true } ++ [duplicate1]) :=
    mem_keptContainers.mpr ⟨duplicate1, List.mem_append_right _ List.mem_cons_self, rfl, rfl, rfl, rfl⟩
  have hmem : duplicate64 0 ∈ overflowing :=
    List.mem_append_left _ (List.mem_replicate.mpr ⟨by decide, rfl⟩)
  have hle := hcapped.largest 1 hkept (duplicate64 0) hmem rfl hnot
  rw [overflowing, duplicateSize_append, duplicateSize_append, duplicateSize_replicate _ _ rfl,
    duplicateSize_replicate _ _ rfl, if_pos rfl, if_neg (by decide), hsize] at hle
  exact absurd hle (by decide)

end Rewriter

end UniDedup.Node
