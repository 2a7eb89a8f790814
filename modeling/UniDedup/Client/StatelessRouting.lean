import UniDedup.Client.Routing

/-!
# Which nodes stateless routing can choose

`fp2Int` folds a fingerprint into 64 bits and `consistentHash` takes the remainder by the number of nodes. The
fold goes over the bytes `FP_LENGTH / INT_SIZE` times, but each time over the first `INT_SIZE` of them; and it
shifts after every byte, the last included. With `x` for the first four bytes, as a number, the result is
`2 ^ 8 * (x + 2 ^ 32 * (x % 2 ^ 24))`: it is even, and the other bytes do not count.

The remainders are then a question of divisibility. The numbers `x + 2 ^ 32 * (x % 2 ^ 24)` are the numbers
`2 ^ 24 * hi + (2 ^ 32 + 1) * lo`, for a byte `hi` and three bytes `lo`, and `2 ^ 32 + 1 = 641 * 6700417`. Modulo a common
divisor of this and the number of nodes, only the byte `hi` is left.
-/

namespace UniDedup.Client.Routing

/-! ## The fold -/

theorem xor_byte (m : ℕ) {b : ℕ} (hb : b < 2 ^ 8) : 2 ^ 8 * m ^^^ b = 2 ^ 8 * m + b := by
  rw [Nat.two_pow_add_eq_or_of_lt hb]
  refine Nat.eq_of_testBit_eq fun i ↦ ?_
  rw [Nat.testBit_xor, Nat.testBit_or, Nat.testBit_two_pow_mul]
  by_cases hi : 8 ≤ i
  · have hhigh : b.testBit i = false := Nat.testBit_lt_two_pow (hb.trans_le (Nat.pow_le_pow_right (by decide) hi))
    rw [hhigh, Bool.xor_false, Bool.or_false]
  · rw [decide_eq_false hi, Bool.false_and, Bool.false_xor, Bool.false_or]

theorem toNat_fold_step {res : UInt64} (b : UInt8) (hres : 2 ^ 8 ∣ res.toNat) :
    ((res ^^^ b.toUInt64) <<< 8).toNat = (res.toNat + b.toNat) * 2 ^ 8 % 2 ^ 64 := by
  obtain ⟨m, hm⟩ := hres
  have hb : b.toUInt64.toNat = b.toNat := rfl
  have hshift : UInt64.toNat 8 % 64 = 8 := rfl
  rw [UInt64.toNat_shiftLeft, UInt64.toNat_xor, hb, hm, xor_byte m b.toNat_lt, hshift, Nat.shiftLeft_eq]

/-- One round of the fold, over the bytes `bs`. -/
def foldRound (bs : List UInt8) (res : UInt64) : UInt64 := bs.foldl (fun res b ↦ (res ^^^ b.toUInt64) <<< 8) res

theorem fp2Int_eq (fp : Fingerprint) :
    fp2Int fp = (List.range (fpLength / 4)).foldl (fun res _ ↦ foldRound (fp.toList.take 4) res) 0 := rfl

section Fold

variable (b₀ b₁ b₂ b₃ : UInt8)

/-- The last three of the first four bytes, as a number. -/
def lowWord : ℕ := (b₁.toNat * 2 ^ 8 + b₂.toNat) * 2 ^ 8 + b₃.toNat

theorem lowWord_lt : lowWord b₁ b₂ b₃ < 2 ^ 24 := by
  have h₁ := b₁.toNat_lt
  have h₂ := b₂.toNat_lt
  have h₃ := b₃.toNat_lt
  rw [lowWord]
  omega

theorem toNat_foldRound {res : UInt64} (hres : 2 ^ 8 ∣ res.toNat) :
    (foldRound [b₀, b₁, b₂, b₃] res).toNat =
      (res.toNat * 2 ^ 32 + (2 ^ 24 * b₀.toNat + lowWord b₁ b₂ b₃) * 2 ^ 8) % 2 ^ 64 := by
  have hdvd : ∀ n : ℕ, 2 ^ 8 ∣ n * 2 ^ 8 % 2 ^ 64 := fun n ↦
    (Nat.dvd_mod_iff (by decide)).mpr (Nat.dvd_mul_left ..)
  have h₀ := toNat_fold_step b₀ hres
  have h₁ := toNat_fold_step b₁ (h₀ ▸ hdvd _)
  have h₂ := toNat_fold_step b₂ (h₁ ▸ hdvd _)
  have h₃ := toNat_fold_step b₃ (h₂ ▸ hdvd _)
  simp only [foldRound, List.foldl_cons, List.foldl_nil, lowWord]
  rw [h₃, h₂, h₁, h₀]
  omega

/-- **What the fold computes** from a fingerprint that starts with these bytes. It is reached after two rounds, and
further rounds keep it. -/
theorem toNat_fp2Int {fp : Fingerprint} (hfp : fp.toList.take 4 = [b₀, b₁, b₂, b₃]) :
    (fp2Int fp).toNat = 2 ^ 8 * (2 ^ 24 * b₀.toNat + (2 ^ 32 + 1) * lowWord b₁ b₂ b₃) := by
  have hlow := lowWord_lt b₁ b₂ b₃
  have hhigh := b₀.toNat_lt
  have hfirst : (foldRound [b₀, b₁, b₂, b₃] 0).toNat = (2 ^ 24 * b₀.toNat + lowWord b₁ b₂ b₃) * 2 ^ 8 := by
    have h : (foldRound [b₀, b₁, b₂, b₃] 0).toNat =
        (0 * 2 ^ 32 + (2 ^ 24 * b₀.toNat + lowWord b₁ b₂ b₃) * 2 ^ 8) % 2 ^ 64 :=
      toNat_foldRound b₀ b₁ b₂ b₃ (Nat.dvd_zero _)
    rw [h]
    omega
  have hsecond : (foldRound [b₀, b₁, b₂, b₃] (foldRound [b₀, b₁, b₂, b₃] 0)).toNat =
      2 ^ 8 * (2 ^ 24 * b₀.toNat + (2 ^ 32 + 1) * lowWord b₁ b₂ b₃) := by
    rw [toNat_foldRound _ _ _ _ (hfirst ▸ Nat.dvd_mul_left ..), hfirst]
    omega
  have hkeep : ∀ {res : UInt64}, res.toNat = 2 ^ 8 * (2 ^ 24 * b₀.toNat + (2 ^ 32 + 1) * lowWord b₁ b₂ b₃) →
      (foldRound [b₀, b₁, b₂, b₃] res).toNat =
        2 ^ 8 * (2 ^ 24 * b₀.toNat + (2 ^ 32 + 1) * lowWord b₁ b₂ b₃) := by
    intro res hres
    rw [toNat_foldRound _ _ _ _ (hres ▸ Nat.dvd_mul_right ..), hres]
    omega
  rw [fp2Int_eq, hfp]
  exact hkeep (hkeep (hkeep hsecond))

end Fold

/-! ## The remainders -/

section Remainders

variable {num k : ℕ}

theorem exists_take_four (fp : Fingerprint) : ∃ b₀ b₁ b₂ b₃, fp.toList.take 4 = [b₀, b₁, b₂, b₃] := by
  have hlength : (fp.toList.take 4).length = 4 := by
    rw [List.length_take, fp.toList_length]
    rfl
  obtain ⟨b₀, t, ht⟩ := List.exists_of_length_succ _ hlength
  rw [ht] at hlength ⊢
  obtain ⟨b₁, b₂, b₃, rfl⟩ := List.length_eq_three.mp (Nat.succ.inj hlength)
  exact ⟨b₀, b₁, b₂, b₃, rfl⟩

/-- The fingerprint that starts with a byte and three bytes, given as numbers. -/
def leading (hi lo : ℕ) : Fingerprint :=
  ⟨[UInt8.ofNat hi, UInt8.ofNat (lo / 2 ^ 16), UInt8.ofNat (lo / 2 ^ 8), UInt8.ofNat lo] ++ List.replicate 16 0, rfl⟩

theorem toNat_fp2Int_leading {hi lo : ℕ} (hhi : hi < 2 ^ 8) (hlo : lo < 2 ^ 24) :
    (fp2Int (leading hi lo)).toNat = 2 ^ 8 * (2 ^ 24 * hi + (2 ^ 32 + 1) * lo) := by
  have hbyte : ∀ n : ℕ, (UInt8.ofNat n).toNat = n % 2 ^ 8 := fun _ ↦ rfl
  have hlow : lowWord (UInt8.ofNat (lo / 2 ^ 16)) (UInt8.ofNat (lo / 2 ^ 8)) (UInt8.ofNat lo) = lo := by
    rw [lowWord, hbyte, hbyte, hbyte]
    omega
  rw [toNat_fp2Int _ _ _ _ rfl, hlow, hbyte, Nat.mod_eq_of_lt hhi]

theorem exists_consistentHash_iff (hnum : 0 < num) :
    (∃ fp, consistentHash fp num = k) ↔
      ∃ hi < 2 ^ 8, ∃ lo < 2 ^ 24, 2 ^ 8 * (2 ^ 24 * hi + (2 ^ 32 + 1) * lo) % num = k := by
  constructor
  · rintro ⟨fp, rfl⟩
    obtain ⟨b₀, b₁, b₂, b₃, hfp⟩ := exists_take_four fp
    refine ⟨b₀.toNat, b₀.toNat_lt, lowWord b₁ b₂ b₃, lowWord_lt b₁ b₂ b₃, ?_⟩
    rw [consistentHash, if_neg hnum.ne', toNat_fp2Int _ _ _ _ hfp]
  · rintro ⟨hi, hhi, lo, hlo, rfl⟩
    refine ⟨leading hi lo, ?_⟩
    rw [consistentHash, if_neg hnum.ne', toNat_fp2Int_leading hhi hlo]

/-- With an even number of nodes there is a node that is never chosen. -/
theorem odd_of_reached (hnum : 0 < num) (h : ∀ k < num, ∃ fp, consistentHash fp num = k) : num % 2 = 1 := by
  by_contra heven
  have hlt : 1 < num := by omega
  obtain ⟨hi, -, lo, -, hk⟩ := (exists_consistentHash_iff hnum).mp (h 1 hlt)
  have hmod : 2 ^ 8 * (2 ^ 24 * hi + (2 ^ 32 + 1) * lo) % num % 2 =
      2 ^ 8 * (2 ^ 24 * hi + (2 ^ 32 + 1) * lo) % 2 := Nat.mod_mod_of_dvd _ (by omega)
  omega

/-- Modulo a divisor of `2 ^ 32 + 1` only the first byte is left, and it has too few values. -/
theorem not_dvd_of_reached {p : ℕ} (hnum : 0 < num) (hp : 2 ^ 8 < p) (hdvd : p ∣ 2 ^ 32 + 1)
    (h : ∀ k < num, ∃ fp, consistentHash fp num = k) : ¬p ∣ num := by
  intro hpn
  have hsurj : ∀ r < p, ∃ hi < 2 ^ 8, 2 ^ 32 * hi % p = r := by
    intro r hr
    obtain ⟨hi, hhi, lo, -, hk⟩ := (exists_consistentHash_iff hnum).mp (h r (hr.trans_le (Nat.le_of_dvd hnum hpn)))
    refine ⟨hi, hhi, ?_⟩
    obtain ⟨q, hq⟩ := hdvd
    have hsplit : 2 ^ 8 * (2 ^ 24 * hi + (2 ^ 32 + 1) * lo) = 2 ^ 32 * hi + p * (q * (2 ^ 8 * lo)) := by
      rw [hq]
      ring
    rw [← Nat.mod_eq_of_lt hr, ← hk, Nat.mod_mod_of_dvd _ hpn, hsplit, Nat.add_mul_mod_self_left]
  have hcard : (Finset.range p).card ≤ (Finset.range (2 ^ 8)).card := by
    refine Finset.card_le_card_of_surjOn (fun hi ↦ 2 ^ 32 * hi % p) fun r hr ↦ ?_
    obtain ⟨hi, hhi, hr⟩ := hsurj r (Finset.mem_range.mp hr)
    exact ⟨hi, Finset.mem_coe.mpr (Finset.mem_range.mpr hhi), hr⟩
  rw [Finset.card_range, Finset.card_range] at hcard
  omega

/-- The quotient of `2 ^ 24` by `2 ^ 32 + 1`: how far apart the values of the first byte lie, when three further
bytes count one by one. -/
def stride (num : ℕ) : ZMod num := 2 ^ 24 * ((2 ^ 32 + 1 : ℕ) : ZMod num)⁻¹

/-- No place on the circle of `num` places is `2 ^ 24` or more behind the last of the `2 ^ 8` multiples of the
stride. -/
def Covered (num : ℕ) : Prop := ∀ r : ZMod num, ∃ hi < 2 ^ 8, (r - (hi : ℕ) * stride num).val < 2 ^ 24

theorem covered_of_le (hnum : 0 < num) (hle : num ≤ 2 ^ 24) : Covered num := by
  have : NeZero num := ⟨hnum.ne'⟩
  exact fun r ↦ ⟨0, by decide, (ZMod.val_lt _).trans_le hle⟩

theorem coprime_factors (h641 : ¬641 ∣ num) (h6700417 : ¬6700417 ∣ num) : Nat.Coprime (2 ^ 32 + 1) num := by
  have hfactors : 2 ^ 32 + 1 = 641 * 6700417 := by norm_num
  have hprime : Nat.Prime 641 := by norm_num
  have hprime' : Nat.Prime 6700417 := by norm_num
  rw [hfactors]
  exact Nat.Coprime.mul_left (hprime.coprime_iff_not_dvd.mpr h641) (hprime'.coprime_iff_not_dvd.mpr h6700417)

section Units

variable (hodd : Nat.Coprime (2 ^ 8) num) (hfactors : Nat.Coprime (2 ^ 32 + 1) num)

include hfactors in
theorem cast_value (hi lo : ℕ) :
    ((2 ^ 8 * (2 ^ 24 * hi + (2 ^ 32 + 1) * lo) : ℕ) : ZMod num) =
      (2 ^ 8 : ℕ) * ((2 ^ 32 + 1 : ℕ) * (hi * stride num + lo)) := by
  have hunit : ((2 ^ 32 + 1 : ℕ) : ZMod num) * ((2 ^ 32 + 1 : ℕ) : ZMod num)⁻¹ = 1 :=
    ZMod.coe_mul_inv_eq_one _ hfactors
  have hstride : ((2 ^ 32 + 1 : ℕ) : ZMod num) * stride num = 2 ^ 24 := by
    rw [stride, mul_left_comm, hunit, mul_one]
  rw [mul_add ((2 ^ 32 + 1 : ℕ) : ZMod num), mul_left_comm _ (hi : ZMod num), hstride]
  push_cast
  ring

include hodd hfactors in
theorem covered_of_reached (hnum : 0 < num) (h : ∀ k < num, ∃ fp, consistentHash fp num = k) : Covered num := by
  have : NeZero num := ⟨hnum.ne'⟩
  intro r
  obtain ⟨hi, hhi, lo, hlo, hk⟩ := (exists_consistentHash_iff hnum).mp
    (h (((2 ^ 8 : ℕ) * ((2 ^ 32 + 1 : ℕ) * r) : ZMod num).val) (ZMod.val_lt _))
  refine ⟨hi, hhi, ?_⟩
  have hcast : ((2 ^ 8 : ℕ) : ZMod num) * ((2 ^ 32 + 1 : ℕ) * (hi * stride num + lo)) =
      (2 ^ 8 : ℕ) * ((2 ^ 32 + 1 : ℕ) * r) := by
    rw [← cast_value hfactors, ← ZMod.natCast_mod, hk, ZMod.natCast_zmod_val]
  have hr : hi * stride num + lo = r :=
    ((ZMod.isUnit_iff_coprime _ _).mpr hfactors).mul_left_cancel
      (((ZMod.isUnit_iff_coprime _ _).mpr hodd).mul_left_cancel hcast)
  rw [← hr, add_sub_cancel_left, ZMod.val_natCast]
  exact (Nat.mod_le ..).trans_lt hlo

include hodd hfactors in
theorem reached_of_covered (hnum : 0 < num) (h : Covered num) (hk : k < num) :
    ∃ fp, consistentHash fp num = k := by
  have : NeZero num := ⟨hnum.ne'⟩
  obtain ⟨hi, hhi, hlo⟩ := h (((2 ^ 32 + 1 : ℕ) : ZMod num)⁻¹ * (((2 ^ 8 : ℕ) : ZMod num)⁻¹ * k))
  refine (exists_consistentHash_iff hnum).mpr ⟨hi, hhi, _, hlo, ?_⟩
  have hcast : ((2 ^ 8 * (2 ^ 24 * hi + (2 ^ 32 + 1) *
      (((2 ^ 32 + 1 : ℕ) : ZMod num)⁻¹ * (((2 ^ 8 : ℕ) : ZMod num)⁻¹ * k) - hi * stride num).val) : ℕ) : ZMod num) = k := by
    rw [cast_value hfactors, ZMod.natCast_zmod_val, add_sub_cancel, ← mul_assoc ((2 ^ 32 + 1 : ℕ) : ZMod num),
      ZMod.coe_mul_inv_eq_one _ hfactors, one_mul, ← mul_assoc, ZMod.coe_mul_inv_eq_one _ hodd, one_mul]
  rw [(ZMod.natCast_eq_natCast_iff' ..).mp hcast, Nat.mod_eq_of_lt hk]

end Units

/-- **Which numbers of nodes stateless routing can use up**: the odd ones that are not divisible by `641` or `6700417`,
the factors of `2 ^ 32 + 1`, and above `2 ^ 24` only if the multiples of the stride leave no gap. -/
theorem reached_iff (hnum : 0 < num) :
    (∀ k < num, ∃ fp, consistentHash fp num = k) ↔
      num % 2 = 1 ∧ ¬641 ∣ num ∧ ¬6700417 ∣ num ∧ (2 ^ 24 < num → Covered num) := by
  have hcoprime : num % 2 = 1 → Nat.Coprime (2 ^ 8) num := fun hodd ↦
    Nat.Coprime.pow_left 8 (Nat.coprime_two_left.mpr (Nat.odd_iff.mpr hodd))
  constructor
  · intro h
    have hodd := odd_of_reached hnum h
    have h641 := not_dvd_of_reached (p := 641) hnum (by decide) (by decide) h
    have h6700417 := not_dvd_of_reached (p := 6700417) hnum (by decide) (by decide) h
    exact ⟨hodd, h641, h6700417, fun _ ↦
      covered_of_reached (hcoprime hodd) (coprime_factors h641 h6700417) hnum h⟩
  · rintro ⟨hodd, h641, h6700417, hlarge⟩ k hk
    have hcovered : Covered num := by
      by_cases hle : num ≤ 2 ^ 24
      · exact covered_of_le hnum hle
      · exact hlarge (not_le.mp hle)
    exact reached_of_covered (hcoprime hodd) (coprime_factors h641 h6700417) hnum hcovered hk

end Remainders

/-! ## The bytes that count -/

/-- There are two fingerprints that differ only in the byte at `j` and are folded differently. -/
def Influences (j : ℕ) : Prop :=
  ∃ fp fp' : Fingerprint, (∀ i, i ≠ j → fp.toList[i]? = fp'.toList[i]?) ∧ fp2Int fp ≠ fp2Int fp'

/-- Zero bytes, but for a one at `j`. -/
def withOne (j : ℕ) : Fingerprint := ⟨(Fingerprint.fill 0).toList.set j 1, List.length_set⟩

theorem influences_iff (j : ℕ) : Influences j ↔ j < 4 := by
  constructor
  · rintro ⟨fp, fp', hrest, hne⟩
    by_contra hj
    refine hne ?_
    have htake : fp.toList.take 4 = fp'.toList.take 4 := by
      refine List.ext_getElem? fun i ↦ ?_
      rw [List.getElem?_take, List.getElem?_take]
      split_ifs
      · exact hrest i (by omega)
      · rfl
    rw [fp2Int_eq, fp2Int_eq, htake]
  · intro hj
    refine ⟨Fingerprint.fill 0, withOne j, fun i hi ↦ (List.getElem?_set_ne hi.symm).symm, ?_⟩
    have hcases : j = 0 ∨ j = 1 ∨ j = 2 ∨ j = 3 := by omega
    rcases hcases with rfl | rfl | rfl | rfl
    all_goals decide

/-- **What stateless routing uses of the nodes and of the fingerprint.** Every node is the node of some fingerprint
if and only if their number is odd, divisible neither by `641` nor by `6700417`, and, above `2 ^ 24`, covered. A byte
of the fingerprint counts if and only if it is one of the first four; so not all of them do, for any number of nodes. -/
theorem stateless_routing_iff {num : ℕ} (hnum : 0 < num) :
    ((∀ k < num, ∃ fp, consistentHash fp num = k) ↔
      num % 2 = 1 ∧ ¬641 ∣ num ∧ ¬6700417 ∣ num ∧ (2 ^ 24 < num → Covered num)) ∧
    (∀ j, Influences j ↔ j < 4) ∧
    ¬((∀ k < num, ∃ fp, consistentHash fp num = k) ∧ ∀ j < fpLength, Influences j) :=
  ⟨reached_iff hnum, influences_iff, fun h ↦ absurd ((influences_iff 4).mp (h.2 4 (by decide))) (by decide)⟩

theorem stateless_routing_iff_five :
    0 < 5 ∧ ((∀ k < 5, ∃ fp, consistentHash fp 5 = k) ↔
      5 % 2 = 1 ∧ ¬641 ∣ 5 ∧ ¬6700417 ∣ 5 ∧ (2 ^ 24 < 5 → Covered 5)) :=
  ⟨by decide, (stateless_routing_iff (by decide)).1⟩

/-- With two nodes the second one gets no group, and the fifth byte does not count. -/
theorem not_reached_two : (¬∃ fp, consistentHash fp 2 = 1) ∧ ¬Influences 4 := by
  constructor
  · intro h
    obtain ⟨hi, -, lo, -, hk⟩ := (exists_consistentHash_iff (by decide)).mp h
    omega
  · intro h
    exact absurd ((influences_iff 4).mp h) (by decide)

end UniDedup.Client.Routing
