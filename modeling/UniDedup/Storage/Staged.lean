import UniDedup.Storage.Growing
import UniDedup.Storage.WordWidth

/-!
# The codes that repair in stages

`RSRPCONV` repairs the first `RPNUM` sub-packets of a block along a chain, and joins the other `CONVNUM` to
all helpers at once, with a bind node over the helpers. `RSSMARTLZ` repairs the others in two stages: the
helpers are put into racks of `m`, every rack computes its share of every lost sub-packet, with a bind node
over the rack, and the shares are added up along a chain across the racks. `RSASP` does so with all
sub-packets. Both choose the helpers so that whole racks come first.

They encode as `RSCONV` does.
-/

namespace UniDedup.Storage

open ECDAG WordField

def rpNum : ℕ := 1

def convNum : ℕ := 2

/-! ## The helpers -/

/-- The loop of `Decode` that takes whole racks, with what remains to be taken and what was taken. -/
def takeRacks (m : ℕ) : List (List ℕ) → ℕ → List ℕ → ℕ × List ℕ
  | [], remain, data => (remain, data)
  | rack :: racks, remain, data =>
    let taken := if rack.length = m ∧ m ≤ remain then (remain - m, data ++ rack) else (remain, data)
    if taken.1 < m then taken else takeRacks m racks taken.1 taken.2

/-- The loop that takes single blocks that are not in the racks taken. -/
def takeRest (selected : List ℕ) : List ℕ → ℕ → List ℕ → ℕ × List ℕ
  | [], remain, data => (remain, data)
  | s :: sids, remain, data =>
    let taken := if s ∈ selected then (remain, data) else (remain - 1, data ++ [s])
    if taken.1 = 0 then taken else takeRest selected sids taken.1 taken.2

/-- The helpers `Decode` chooses, for stripes of `n` blocks in racks of `m`; `none` where an assertion fails
or the array of racks is left. -/
def selectHelpers (n k m : ℕ) (fromsids : List ℕ) : Option (List ℕ) :=
  let racknum := n / m + if n % m = 0 then 0 else 1
  if fromsids.length < k ∨ fromsids.any fun s ↦ racknum ≤ s / m then none else
  let racks := (List.range racknum).map fun i ↦ fromsids.filter fun s ↦ s / m = i
  let (remain, data) := takeRacks m racks k []
  let (remain, data) := if remain = 0 then (remain, data) else takeRest data fromsids remain data
  if remain = 0 then some data else none

/-! ## The stages -/

/-- The chains that repair the sub-packets of one index, with the graph and `tmpname`. -/
def chainStage (c : RSCode) (data tosids : List ℕ) (coefs : List (List GF256)) (s : ECDAG × ℕ) (wi : ℕ) :
    Option (ECDAG × ℕ) :=
  (tosids.zip coefs).foldlM
    (fun s e ↦ RSPIPE.pipeline (e.1 * c.w + wi) c.k s.1 s.2 ((List.range c.k).map fun j ↦
      (data.getD j 0 * c.w + wi, e.2.getD j 0)))
    s

/-- The joins of the sub-packets of one index to all helpers. `convbindY` chooses the place of the bind node. -/
def convStage (c : RSCode) (data tosids : List ℕ) (coefs : List (List GF256)) (convbindY : ℕ) (dag : ECDAG)
    (wi : ℕ) : Option ECDAG := do
  let dag := (tosids.zip coefs).foldl
    (fun dag e ↦ dag.join (e.1 * c.w + wi) ((List.range c.k).map fun ki ↦ data.getD ki 0 * c.w + wi) e.2) dag
  let (dag, bindxidx) ← dag.bindX (tosids.map fun r ↦ r * c.w + wi)
  dag.bindYOf bindxidx (tosids.getD (convbindY % tosids.length) 0 * c.w + wi)

/-- A turn of the loop over the racks: the graph, `tmpname` and the temporaries of every lost block. The
`i`-th temporary of the turn is `tmpname + i`. -/
def innerRack (c : RSCode) (m : ℕ) (data : List ℕ) (coefs : List (List GF256)) (l pick wi : ℕ)
    (s : ECDAG × ℕ × List (List ℕ)) (ri : ℕ) : Option (ECDAG × ℕ × List (List ℕ)) :=
  let (dag, tmpname, tmpridxs) := s
  let startidx := ri * m
  if c.k < startidx + m then none else do
  let rdata := (List.range m).map fun mi ↦ data.getD (startidx + mi) 0 * c.w + wi
  let tobindx := (List.range l).map (tmpname + ·)
  let dag := (List.range l).foldl
    (fun dag i ↦ dag.join (tmpname + i) rdata ((List.range m).map fun j ↦ (coefs.getD i []).getD (startidx + j) 0))
    dag
  let (dag, bindxret) ← dag.bindX tobindx
  let dag ← dag.bindYOf bindxret (rdata.getD pick 0)
  let dag ← tobindx.foldlM (fun dag t ↦ dag.bindY t bindxret.toNat) dag
  some (dag, tmpname + l, (List.range l).map fun i ↦ tmpridxs.getD i [] ++ [tmpname + i])

/-- The loop over the queue of one lost sub-packet, filled with what the racks computed. -/
def crossRack (target : ℕ) : ℕ → ECDAG → ℕ → List (ℕ × GF256) → Option (ECDAG × ℕ)
  | fuel + 1, dag, tmpname, (d₀, c₀) :: (d₁, c₁) :: queue => do
    let dag ← (dag.join tmpname [d₀, d₁] [c₀, c₁]).bindY tmpname d₁
    if queue.isEmpty then some (dag.join target [tmpname] [1], tmpname + 1)
    else crossRack target fuel dag (tmpname + 1) ((tmpname, 1) :: queue)
  | _, dag, tmpname, _ => some (dag, tmpname)

/-- The two stages for the sub-packets of one index, with the graph and `tmpname`. -/
def rackStage (c : RSCode) (m vracknum : ℕ) (data tosids : List ℕ) (coefs : List (List GF256)) (pick : ℕ)
    (s : ECDAG × ℕ) (wi : ℕ) : Option (ECDAG × ℕ) := do
  let (dag, tmpname, tmpridxs) ← (List.range vracknum).foldlM
    (innerRack c m data coefs tosids.length pick wi) (s.1, s.2, tosids.map fun _ ↦ [])
  (List.range tosids.length).foldlM
    (fun s i ↦ crossRack (tosids.getD i 0 * c.w + wi) vracknum s.1 s.2 ((tmpridxs.getD i []).map (·, 1)))
    (dag, tmpname)

/-! ## The codes -/

section Codes

variable (gfMultiply : GF256 → GF256 → GF256)
variable (invert : (ℕ → ℕ) → ℕ → ℕ → ℕ → ℕ)

def RSRPCONV.encode (c : RSCode) : Option ECDAG := some (encodeStripe gfMultiply c)

/-- `RSRPCONV::Decode`, with `_convbindY`. -/
def RSRPCONV.decode (c : RSCode) (convbindY : ℕ) (from' to' : List ℕ) : Option ECDAG := do
  let fromsids := blockIds c.w from'
  let tosids := blockIds c.w to'
  if c.w ≠ rpNum + convNum ∨ fromsids.length < c.k then none else
  let coefs ← tosids.mapM (c.coefInts gfMultiply invert 8 fromsids)
  let s ← (List.range rpNum).foldlM (chainStage c fromsids tosids coefs) ({}, bindStart + c.n * c.w)
  (List.range convNum).foldlM
    (fun dag convi ↦ convStage c fromsids tosids coefs (convbindY + convi) dag (rpNum + convi)) s.1

def RSSMARTLZ.encode (c : RSCode) : Option ECDAG := some (encodeStripe gfMultiply c)

def RSSMARTLZ.decode (c : RSCode) (from' to' : List ℕ) : Option ECDAG := do
  let m := c.n - c.k
  if c.w ≠ rpNum + convNum then none else
  let tosids := blockIds c.w to'
  let data ← selectHelpers c.n c.k m (blockIds c.w from')
  let coefs ← tosids.mapM (c.coefInts gfMultiply invert 8 data)
  let s ← (List.range rpNum).foldlM (chainStage c data tosids coefs) ({}, bindStart + c.n * c.w)
  let s ← (List.range convNum).foldlM
    (fun s convi ↦ rackStage c m (c.k / m) data tosids coefs ((rpNum + convi) % m) s (rpNum + convi)) s
  some s.1

def RSASP.encode (c : RSCode) : Option ECDAG := some (encodeStripe gfMultiply c)

/-- `RSASP::Decode`, which hands the number of data blocks over as the width. -/
def RSASP.decode (c : RSCode) (from' to' : List ℕ) : Option ECDAG := do
  let m := c.n - c.k
  if c.w ≠ m then none else
  let tosids := blockIds c.w to'
  let data ← selectHelpers c.n c.k m (blockIds c.w from')
  let coefs ← tosids.mapM (c.coefInts gfMultiply invert c.k data)
  let s ← (List.range c.w).foldlM
    (fun s wi ↦ rackStage c m (c.k / m + if c.k % m = 0 then 0 else 1) data tosids coefs wi s wi)
    ({}, bindStart + c.n * c.w)
  some s.1

end Codes

/-! ## Choosing the helpers -/

section Helpers

variable {n k m remain : ℕ} {fromsids data : List ℕ} {racks : List (List ℕ)}

/-- What the loop over the racks takes: as many blocks as it counts, from the racks. -/
theorem takeRacks_spec (data : List ℕ) :
    (takeRacks m racks remain data).1 + (takeRacks m racks remain data).2.length = remain + data.length ∧
      ∃ taken, (takeRacks m racks remain data).2 = data ++ taken ∧ taken.Sublist racks.flatten := by
  induction racks generalizing remain data with
  | nil => exact ⟨rfl, [], (List.append_nil data).symm, .refl _⟩
  | cons rack racks ih =>
    rw [takeRacks]
    by_cases hwhole : rack.length = m ∧ m ≤ remain
    · rw [if_pos hwhole]
      dsimp only
      have hlen : remain - m + (data ++ rack).length = remain + data.length := by
        rw [List.length_append, hwhole.1]
        omega
      split
      · refine ⟨hlen, rack, rfl, ?_⟩
        rw [List.flatten_cons]
        exact List.sublist_append_left ..
      · obtain ⟨hlen', taken, htaken, hsub⟩ := @ih (remain - m) (data ++ rack)
        refine ⟨hlen'.trans hlen, rack ++ taken, ?_, ?_⟩
        · rw [htaken, List.append_assoc]
        · rw [List.flatten_cons]
          exact hsub.append_left rack
    · rw [if_neg hwhole]
      dsimp only
      have hskip : ∀ taken : List ℕ, taken.Sublist racks.flatten → taken.Sublist (rack :: racks).flatten := by
        intro taken hsub
        rw [List.flatten_cons]
        exact hsub.trans (List.sublist_append_right ..)
      split
      · exact ⟨rfl, [], (List.append_nil data).symm, List.nil_sublist _⟩
      · obtain ⟨hlen', taken, htaken, hsub⟩ := @ih remain data
        exact ⟨hlen', taken, htaken, hskip taken hsub⟩

/-- The loop over single blocks takes the ones that remain, when there are enough. -/
theorem takeRest_spec {selected sids : List ℕ} (hremain : 0 < remain)
    (henough : remain ≤ (sids.filter (· ∉ selected)).length) (data : List ℕ) :
    ∃ taken, takeRest selected sids remain data = (0, data ++ taken) ∧ taken.length = remain ∧
      taken.Sublist (sids.filter (· ∉ selected)) := by
  induction sids generalizing remain data with
  | nil => exact absurd (hremain.trans_le henough) (lt_irrefl 0)
  | cons s sids ih =>
    rw [takeRest]
    by_cases hs : s ∈ selected
    · rw [if_pos hs]
      dsimp only
      have hfilter : (s :: sids).filter (· ∉ selected) = sids.filter (· ∉ selected) :=
        List.filter_cons_of_neg (by simpa using hs)
      rw [hfilter] at henough ⊢
      rw [if_neg hremain.ne']
      exact ih hremain henough data
    · rw [if_neg hs]
      dsimp only
      have hfilter : (s :: sids).filter (· ∉ selected) = s :: sids.filter (· ∉ selected) :=
        List.filter_cons_of_pos (by simpa using hs)
      rw [hfilter, List.length_cons] at henough
      rw [hfilter]
      split
      · next hlast =>
        refine ⟨[s], by rw [hlast], ?_, ?_⟩
        · rw [List.length_singleton]
          omega
        · exact (List.nil_sublist _).cons_cons s
      · next hmore =>
        obtain ⟨taken, htaken, hlen, hsub⟩ := @ih (remain - 1) (by omega) (by omega) (data ++ [s])
        refine ⟨s :: taken, ?_, ?_, hsub.cons_cons s⟩
        · rw [htaken, List.append_assoc]
          rfl
        · rw [List.length_cons, hlen]
          omega

theorem nodup_racks (hnodup : fromsids.Nodup) (racknum : ℕ) :
    ((List.range racknum).map fun i ↦ fromsids.filter fun s ↦ s / m = i).flatten.Nodup := by
  rw [List.nodup_flatten]
  constructor
  · intro rack hrack
    obtain ⟨i, -, rfl⟩ := List.mem_map.mp hrack
    exact hnodup.filter _
  · rw [List.pairwise_map]
    refine List.nodup_range.imp fun {i j} hij s hi hj ↦ hij ?_
    have hi' := (List.mem_filter.mp hi).2
    have hj' := (List.mem_filter.mp hj).2
    exact (of_decide_eq_true hi').symm.trans (of_decide_eq_true hj')

/-- **The helpers are `k` of the survivors**, whatever racks these are in. -/
theorem selectHelpers_spec (hnodup : fromsids.Nodup) (hlen : k ≤ fromsids.length) (hlt : ∀ s ∈ fromsids, s < n)
    (hm : 0 < m) : ∃ data, selectHelpers n k m fromsids = some data ∧ data.length = k ∧ data.Nodup ∧
      data ⊆ fromsids := by
  have hrange : ¬(fromsids.length < k ∨ fromsids.any fun s ↦ n / m + (if n % m = 0 then 0 else 1) ≤ s / m) := by
    rw [not_or, List.any_eq_true]
    refine ⟨not_lt.mpr hlen, ?_⟩
    rintro ⟨s, hs, hle⟩
    have hsn := hlt s hs
    have hle := of_decide_eq_true hle
    have hdiv := Nat.div_add_mod n m
    have hmod := Nat.mod_lt n hm
    have hslt : s / m < n / m + if n % m = 0 then 0 else 1 := by
      rw [Nat.div_lt_iff_lt_mul hm, mul_comm, mul_add]
      split
      · omega
      · omega
    omega
  let racks := (List.range (n / m + if n % m = 0 then 0 else 1)).map fun i ↦ fromsids.filter fun s ↦ s / m = i
  obtain ⟨hcount, taken, htaken, hsub⟩ := @takeRacks_spec m k racks []
  have hnodup' : taken.Nodup := hsub.nodup (nodup_racks hnodup _)
  have hsubset : taken ⊆ fromsids := by
    intro s hs
    obtain ⟨rack, hrack, hs⟩ := List.mem_flatten.mp (hsub.subset hs)
    obtain ⟨i, -, rfl⟩ := List.mem_map.mp hrack
    exact (List.mem_filter.mp hs).1
  rw [selectHelpers, if_neg hrange]
  dsimp only
  rw [show takeRacks m _ k [] = ((takeRacks m racks k []).1, (takeRacks m racks k []).2) from rfl]
  dsimp only
  rw [htaken, List.nil_append] at hcount ⊢
  generalize (takeRacks m racks k []).1 = remain at hcount ⊢
  rw [List.length_nil, add_zero] at hcount
  by_cases hzero : remain = 0
  · rw [if_pos hzero]
    dsimp only
    rw [if_pos hzero]
    exact ⟨taken, rfl, by omega, hnodup', hsubset⟩
  · -- the blocks that were not taken are enough
    have henough : remain ≤ (fromsids.filter (· ∉ taken)).length := by
      have hsplit := List.length_eq_countP_add_countP (fun s ↦ decide (s ∉ taken)) (l := fromsids)
      have hle : (fromsids.filter (· ∈ taken)).length ≤ taken.length := by
        refine ((hnodup.filter _).subperm fun s hs ↦ ?_).length_le
        exact of_decide_eq_true (List.mem_filter.mp hs).2
      rw [List.countP_eq_length_filter, List.countP_eq_length_filter] at hsplit
      have hneg : (fromsids.filter fun s ↦ decide ¬decide (s ∉ taken) = true) = fromsids.filter (· ∈ taken) := by
        refine List.filter_congr fun s _ ↦ ?_
        simp
      rw [hneg] at hsplit
      omega
    obtain ⟨rest, hrest, hlen', hsub'⟩ := takeRest_spec (Nat.pos_of_ne_zero hzero) henough taken
    rw [if_neg hzero, hrest]
    dsimp only
    rw [if_pos rfl]
    refine ⟨taken ++ rest, rfl, ?_, ?_, ?_⟩
    · rw [List.length_append]
      omega
    · refine hnodup'.append (hsub'.nodup (hnodup.filter _)) fun s hs hs' ↦ ?_
      exact of_decide_eq_true (List.mem_filter.mp (hsub'.subset hs')).2 hs
    · refine List.append_subset.mpr ⟨hsubset, fun s hs ↦ ?_⟩
      exact (List.mem_filter.mp (hsub'.subset hs)).1

end Helpers

end UniDedup.Storage
