import UniDedup.Storage.CountedRuns
import UniDedup.Storage.Decoding
import UniDedup.Storage.LocalRepair
import UniDedup.Storage.WordDecoding

/-!
# The graphs of the codes are well formed

A code makes its graph by calls of `Join`, `BindX`, `BindXSp` and `BindY`. It joins every number once, and before it
reads it. So there is at every moment a set of fresh numbers, which have no row and are in none, and this set only gets
smaller: what is joined is taken out of it, and so is what is read.

Then a graph has no cycle, as a number that is joined is above everything that was there before, and the binds find
targets with rows of their own. `Assembled` says this of a graph in the making. That every number is joined once, and
that no row has a bind node's number, is what keeps the reference counts (`Accounted`), and is taken over from there.
-/

namespace UniDedup.Storage

open ECDAG

namespace ECDAG

/-! ## Steps -/

section Steps

variable {dag dag' : ECDAG} {p : ℕ} {cs idxs targets : List ℕ} {coefs : List GF256} {b : ℤ} {fresh fresh' : ℕ → Prop}

theorem Acyclic.join (h : Acyclic dag.shape) (hp : NotChild dag.shape p) (hpcs : p ∉ cs) (coefs : List GF256) :
    Acyclic (dag.join p cs coefs).shape := by
  obtain ⟨rank, hrank⟩ := h
  refine ⟨Function.update rank p ((cs.map rank).sum + 1), fun id sh hsh c hc ↦ ?_⟩
  rw [shape_join] at hsh
  by_cases hid : id = p
  · rw [if_pos hid] at hsh
    rw [← Option.some.inj hsh] at hc
    have hcp : c ≠ p := fun heq ↦ hpcs (heq ▸ hc)
    rw [hid, Function.update_self, Function.update_of_ne hcp]
    exact Nat.lt_succ_of_le (List.single_le_sum (fun _ _ ↦ Nat.zero_le _) _ (List.mem_map_of_mem hc))
  rw [if_neg hid] at hsh
  split_ifs at hsh with hleaf
  · rw [← Option.some.inj hsh] at hc
    exact absurd hc List.not_mem_nil
  · have hcp : c ≠ p := fun heq ↦ hp id sh hsh (heq ▸ hc)
    rw [Function.update_of_ne hid, Function.update_of_ne hcp]
    exact hrank id sh hsh c hc

/-- **A bind keeps a graph well formed.** -/
theorem WellFormed.binds (h : WellFormed dag) (hbinds : Binds dag dag' idxs cs) : WellFormed dag' := by
  obtain ⟨M, hgrouped⟩ := hbinds.grouped
  refine ⟨h.toFormed.regrouped ⟨hgrouped, fun t co hco ↦ ?_, hbinds.plain⟩ hbinds.headers, hgrouped.acyclic h.acyclic⟩
  obtain ⟨t', ht', ch, hS⟩ := hbinds.rows M hgrouped.shape_bind t co hco
  obtain ⟨ch', co', hS', hperm⟩ := hgrouped.target t' ht'
  rw [hS, Option.some_inj, Prod.mk.injEq] at hS'
  have hlen : co.length = ch.length := by
    refine (h.role t' _ hS).length_eq (fun c hc ↦ hbinds.plain c ?_) (AList.lookup_insert ∅)
    exact hperm.mem_iff.mp (hS'.1 ▸ hc)
  rw [hlen, hS'.1, hperm.length_eq]

theorem WellFormed.marks (h : WellFormed dag) (hm : Marks dag dag') : WellFormed dag' := by
  refine ⟨⟨fun id sh hsh c hc ↦ ?_, ?_, ?_⟩, hm.shape ▸ h.acyclic⟩
  · rw [hm.shape] at hsh
    exact (nodes_congr hm.shape c).mpr (h.closed id sh hsh c hc)
  · rw [hm.shape]
    exact h.role
  · rw [hm.shape, hm.headers]
    exact h.header

/-- A graph in the making. The numbers in `fresh` have no row and are in none. -/
structure Assembled (dag : ECDAG) (fresh : ℕ → Prop) : Prop extends WellFormed dag where
  accounted : ∃ targets, Accounted dag targets ∧ ∀ t ∈ targets, ¬fresh t
  unread : ∀ id, fresh id → NotChild dag.shape id

namespace Assembled

theorem empty (fresh : ℕ → Prop) : Assembled {} fresh where
  toFormed := formed_empty
  acyclic := ⟨fun _ ↦ 0, fun _ sh hsh ↦ absurd hsh.symm (Option.some_ne_none sh)⟩
  accounted := ⟨[], accounted_empty, fun _ ht ↦ absurd ht List.not_mem_nil⟩
  unread _ _ _ sh hsh := absurd hsh.symm (Option.some_ne_none sh)

theorem mono (h : Assembled dag fresh) (himp : ∀ id, fresh' id → fresh id) : Assembled dag fresh' where
  toWellFormed := h.toWellFormed
  accounted := by
    obtain ⟨targets, haccounted, hnot⟩ := h.accounted
    exact ⟨targets, haccounted, fun t ht hfresh ↦ hnot t ht (himp t hfresh)⟩
  unread id hid := h.unread id (himp id hid)

theorem marks (h : Assembled dag fresh) (hm : Marks dag dag') : Assembled dag' fresh where
  toWellFormed := h.toWellFormed.marks hm
  accounted := by
    obtain ⟨targets, haccounted, hnot⟩ := h.accounted
    exact ⟨targets, haccounted.marks hm, hnot⟩
  unread := by
    rw [hm.shape]
    exact h.unread

/-- **A fresh number is joined.** Neither it nor its children are fresh any more. -/
theorem join (h : Assembled dag fresh) (hp : fresh p) (hne : cs ≠ []) (hnodup : cs.Nodup)
    (hlen : coefs.length = cs.length) (hdrawn : ∀ id ∈ p :: cs, ¬dag.Drawn id) (hpcs : p ∉ cs)
    (hfresh : ∀ id, fresh' id → fresh id ∧ id ≠ p ∧ id ∉ cs) : Assembled (dag.join p cs coefs) fresh' := by
  obtain ⟨targets, haccounted, hnot⟩ := h.accounted
  have hnew : p ∉ targets := fun hmem ↦ hnot p hmem hp
  have hpp := haccounted.plain (hdrawn p List.mem_cons_self)
  have hcs : ∀ c ∈ cs, Plain dag.shape c := fun c hc ↦ haccounted.plain (hdrawn c (List.mem_cons_of_mem p hc))
  have hchilds : dag.childs p = [] := by
    by_contra hchilds
    exact hnew ((haccounted.joined p).mpr ⟨hpp, hchilds⟩)
  have hjoin : Accounted (dag.join p cs coefs) (targets ++ [p]) :=
    haccounted.join hne hnodup (fun c hc ↦ hdrawn c (List.mem_cons_of_mem p hc)) (hdrawn p List.mem_cons_self) hnew
  refine ⟨⟨h.toFormed.join hne hlen hcs fun sh hsh ↦ ⟨hpp sh hsh, fun c hc ↦ ?_⟩,
    h.acyclic.join (h.unread p hp) hpcs _⟩, ⟨targets ++ [p], hjoin, fun t ht hid ↦ ?_⟩, fun id hid ↦ ?_⟩
  · rw [childs_of_shape hsh] at hchilds
    exact absurd (hchilds ▸ hc) List.not_mem_nil
  · obtain ⟨hold, hne', -⟩ := hfresh t hid
    rcases List.mem_append.mp ht with ht | ht
    · exact hnot t ht hold
    · exact hne' (List.mem_singleton.mp ht)
  · obtain ⟨hold, -, hcs'⟩ := hfresh id hid
    exact (h.unread id hold).join coefs hcs'

theorem binds (h : Assembled dag fresh) (hbinds : Binds dag dag' idxs cs) (hbind : ¬fresh dag.bindId) :
    Assembled dag' fresh where
  toWellFormed := h.toWellFormed.binds hbinds
  accounted := by
    obtain ⟨targets, haccounted, hnot⟩ := h.accounted
    exact ⟨targets, haccounted.binds hbinds, hnot⟩
  unread id hid j sh hsh := by
    obtain ⟨M, hgrouped⟩ := hbinds.grouped
    rw [hgrouped.shape] at hsh
    split_ifs at hsh with hidx hb
    · rw [← Option.some.inj hsh]
      exact List.not_mem_cons_of_ne_of_not_mem (fun heq ↦ hbind (heq ▸ hid)) List.not_mem_nil
    · obtain ⟨t, ht⟩ := List.exists_mem_of_ne_nil idxs hgrouped.ne_nil
      obtain ⟨ch, co, hS, hperm⟩ := hgrouped.target t ht
      rw [← Option.some.inj hsh]
      exact fun hmem ↦ h.unread id hid t _ hS (hperm.mem_iff.mpr hmem)
    · exact h.unread id hid j sh hsh

theorem bindX (h : Assembled dag fresh) (hidxs : idxs.Nodup) (hdrawn : ∀ t ∈ idxs, ¬dag.Drawn t)
    (hbind : ¬fresh dag.bindId) (hrun : dag.bindX idxs = some (dag', b)) : Assembled dag' fresh := by
  obtain ⟨targets, haccounted, -⟩ := h.accounted
  obtain rfl | ⟨cs, hbinds⟩ := haccounted.eq_or_binds (fun _ ↦ ⟨hidxs, fun t ht ↦ haccounted.plain (hdrawn t ht)⟩) hrun
  · exact h
  · exact h.binds hbinds hbind

theorem bindXSp {idx : ℕ} (h : Assembled dag fresh) (hdrawn : ¬dag.Drawn idx) (hbind : ¬fresh dag.bindId)
    (hrun : dag.bindXSp idx = some (dag', b)) : Assembled dag' fresh := by
  obtain ⟨targets, haccounted, -⟩ := h.accounted
  exact h.binds (haccounted.binds_bindXSp (haccounted.plain hdrawn) hrun) hbind

theorem bindYOf {c : ℕ} (h : Assembled dag fresh) (hrun : dag.bindYOf b c = some dag') : Assembled dag' fresh := by
  rw [ECDAG.bindYOf] at hrun
  split_ifs at hrun
  exact h.marks (marks_bindY hrun)

theorem foldl_join {α : Type} (p : α → ℕ) (co : α → List GF256) {xs : List α} (h : Assembled dag fresh)
    (hxs : ∀ x ∈ xs, fresh (p x) ∧ ¬dag.Drawn (p x)) (hps : (xs.map p).Nodup) (hne : cs ≠ []) (hnodup : cs.Nodup)
    (hlen : ∀ x ∈ xs, (co x).length = cs.length) (hcs : ∀ c ∈ cs, ¬fresh c ∧ ¬dag.Drawn c) :
    Assembled (xs.foldl (fun dag x ↦ dag.join (p x) cs (co x)) dag) fun id ↦ fresh id ∧ id ∉ xs.map p := by
  induction xs generalizing dag fresh with
  | nil => exact h.mono fun id hid ↦ hid.1
  | cons x xs ih =>
    obtain ⟨hp, hdrawn⟩ := hxs x List.mem_cons_self
    rw [List.map_cons, List.nodup_cons] at hps
    have hjoin : Assembled (dag.join (p x) cs (co x)) fun id ↦ fresh id ∧ id ≠ p x := by
      refine h.join hp hne hnodup (hlen x List.mem_cons_self) (fun id hid ↦ ?_) (fun hmem ↦ (hcs _ hmem).1 hp)
        fun id hid ↦ ⟨hid.1, hid.2, fun hmem ↦ (hcs id hmem).1 hid.1⟩
      rcases List.mem_cons.mp hid with rfl | hid
      · exact hdrawn
      · exact (hcs id hid).2
    have hsame : ∀ id, (dag.join (p x) cs (co x)).Drawn id ↔ dag.Drawn id := fun id ↦ by rw [Drawn, bindId_join, Drawn]
    refine (ih hjoin (fun y hy ↦ ?_) hps.2 (fun y hy ↦ hlen y (List.mem_cons_of_mem x hy)) fun c hc ↦ ?_).mono
      fun id hid ↦ ?_
    · obtain ⟨hfresh, hdrawn'⟩ := hxs y (List.mem_cons_of_mem x hy)
      exact ⟨⟨hfresh, fun heq ↦ hps.1 (heq ▸ List.mem_map_of_mem hy)⟩, by rwa [hsame]⟩
    · exact ⟨fun hc' ↦ (hcs c hc).1 hc'.1, by rw [hsame]; exact (hcs c hc).2⟩
    · rw [List.map_cons, List.mem_cons, not_or] at hid
      exact ⟨⟨hid.1, hid.2.1⟩, hid.2.2⟩

end Assembled

theorem not_drawn_of_lt {id : ℕ} (hid : id < bindStart) : ¬dag.Drawn id := fun hdrawn ↦ absurd hid (not_lt.mpr hdrawn.1)

theorem bindId_bindYOf {c : ℕ} (hrun : dag.bindYOf b c = some dag') : dag'.bindId = dag.bindId := by
  rw [ECDAG.bindYOf] at hrun
  split_ifs at hrun
  exact bindId_bindY hrun

end Steps

end ECDAG

/-! ## Encoding -/

section Encoding

variable {gfMultiply : GF256 → GF256 → GF256} {c : RSCode} {dag dag' : ECDAG} {wi : ℕ}

/-- The sub-packets of the parity blocks from a round on. -/
def Unjoined (c : RSCode) (wi id : ℕ) : Prop := c.k ≤ id / c.w ∧ id / c.w < c.n ∧ wi ≤ id % c.w

theorem ECDAG.Assembled.joinParities (h : Assembled dag (Unjoined c wi)) (gfMultiply : GF256 → GF256 → GF256)
    (hk : 0 < c.k) (hkn : c.k ≤ c.n) (hwi : wi < c.w) (hdrawn : ∀ id < c.n * c.w, ¬dag.Drawn id) :
    Assembled (encodeJoins gfMultiply c wi dag) (Unjoined c (wi + 1)) := by
  have hdata : ∀ j < c.k, j * c.w + wi < c.n * c.w := fun j hj ↦ subPacket_lt (hj.trans_le hkn) hwi
  refine (h.foldl_join (fun i ↦ (c.k + i) * c.w + wi) _ (fun i hi ↦ ?_) ?_ ?_ ?_ (fun i _ ↦ ?_) fun s hs ↦ ?_).mono
    fun id hid ↦ ?_
  · have hi := List.mem_range.mp hi
    refine ⟨⟨?_, ?_, ?_⟩, hdrawn _ (subPacket_lt (by omega) hwi)⟩
    · rw [subPacket_div hwi]
      exact Nat.le_add_right c.k i
    · rw [subPacket_div hwi]
      omega
    · rw [subPacket_mod hwi]
  · exact List.nodup_range.map_on fun i _ j _ heq ↦ Nat.add_left_cancel ((cell_inj hwi hwi).mp heq).1
  · exact fun hnil ↦ hk.ne' (List.range_eq_nil.mp (List.map_eq_nil_iff.mp hnil))
  · exact List.nodup_range.map_on fun i _ j _ heq ↦ ((cell_inj hwi hwi).mp heq).1
  · rw [List.length_map, List.length_map]
  · obtain ⟨j, hj, rfl⟩ := List.mem_map.mp hs
    have hj := List.mem_range.mp hj
    refine ⟨fun hun ↦ ?_, hdrawn _ (hdata j hj)⟩
    rw [Unjoined, subPacket_div hwi] at hun
    exact absurd hun.1 (not_le.mpr hj)
  · obtain ⟨hle, hlt, hmod⟩ := hid
    refine ⟨⟨hle, hlt, (Nat.le_succ wi).trans hmod⟩, fun hmem ↦ ?_⟩
    obtain ⟨i, -, rfl⟩ := List.mem_map.mp hmem
    rw [subPacket_mod hwi] at hmod
    exact absurd hmod (Nat.not_succ_le_self wi)

theorem bindId_encodeJoins (wi : ℕ) (dag : ECDAG) : (encodeJoins gfMultiply c wi dag).bindId = dag.bindId :=
  bindId_foldl (fun _ _ ↦ bindId_join ..) _ _

/-- **The graph of `RSCONV::Encode`**, which `RSPIPE`, `RSRPCONV`, `RSSMARTLZ` and `RSASP` make too. -/
theorem wellFormed_encodeStripe (hk : 0 < c.k) (hkn : c.k ≤ c.n) : WellFormed (encodeStripe gfMultiply c) := by
  have hrun : (List.range c.w).foldlM (fun dag wi ↦ some (encodeJoins gfMultiply c wi dag)) {} =
      some (encodeStripe gfMultiply c) := List.foldlM_pure
  have hstart : Assembled {} (Unjoined c 0) ∧ ECDAG.bindId {} = bindStart := ⟨.empty _, rfl⟩
  refine (Fold.foldlM_range_invariant (I := fun m dag ↦ Assembled dag (Unjoined c m) ∧ dag.bindId = bindStart)
    (fun wi hwi dag dag' h hdag ↦ ?_) hstart hrun).1.toWellFormed
  obtain ⟨h, hbindId⟩ := h
  rw [← Option.some.inj hdag]
  refine ⟨h.joinParities gfMultiply hk hkn hwi fun id _ hid ↦ ?_, by rw [bindId_encodeJoins, hbindId]⟩
  rw [Drawn, hbindId] at hid
  omega

/-- Parity blocks that are joined to the data blocks and bound, if there are two at least. -/
theorem wellFormed_bound {k : ℕ} {code : List ℕ} (co : ℕ → List GF256) (hk : 0 < k)
    (hcode : ∀ t ∈ code, k ≤ t ∧ t < bindStart) (hnodup : code.Nodup) (hlen : ∀ t ∈ code, (co t).length = k)
    {joined : ECDAG} (hjoined : joined = code.foldl (fun dag t ↦ dag.join t (List.range k) (co t)) {})
    (hrun : (if 1 < code.length then (joined.bindX code).map Prod.fst else some joined) = some dag) :
    WellFormed dag := by
  have hbindId : joined.bindId = bindStart := hjoined ▸ bindId_foldl (fun _ _ ↦ bindId_join ..) _ _
  have hempty : ∀ id, ¬ECDAG.Drawn {} id := fun id hid ↦ absurd hid.2 (not_lt.mpr hid.1)
  have h : Assembled joined fun q ↦ (k ≤ q ∧ q < bindStart) ∧ q ∉ code.map id := by
    rw [hjoined]
    refine (Assembled.empty fun id ↦ k ≤ id ∧ id < bindStart).foldl_join id co (fun t ht ↦ ⟨hcode t ht, hempty t⟩)
      (by rwa [List.map_id]) (fun hnil ↦ hk.ne' (List.range_eq_nil.mp hnil)) List.nodup_range
      (fun t ht ↦ (hlen t ht).trans List.length_range.symm) fun s hs ↦ ⟨fun hs' ↦ ?_, hempty s⟩
    exact absurd (List.mem_range.mp hs) (not_lt.mpr hs'.1)
  split_ifs at hrun
  · obtain ⟨⟨dag', b⟩, hbind, rfl⟩ := Option.map_eq_some_iff.mp hrun
    refine (h.bindX hnodup (fun t ht ↦ not_drawn_of_lt (hcode t ht).2) (fun hfresh ↦ ?_) hbind).toWellFormed
    rw [hbindId] at hfresh
    exact hfresh.1.2.false
  · rw [← Option.some.inj hrun]
    exact h.toWellFormed

/-- The parity blocks, which are numbers below those of the bind nodes. -/
theorem parity_blocks {k n : ℕ} (hn : n ≤ bindStart) :
    (∀ t ∈ (List.range (n - k)).map (k + ·), k ≤ t ∧ t < bindStart) ∧ ((List.range (n - k)).map (k + ·)).Nodup := by
  refine ⟨fun t ht ↦ ?_, List.nodup_range.map (add_right_injective k)⟩
  obtain ⟨i, hi, rfl⟩ := List.mem_map.mp ht
  have hi := List.mem_range.mp hi
  omega

/-- **The graph of `RSPPR::Encode` and `RSBINDX::Encode`**, which binds the parity blocks. -/
theorem wellFormed_encodeBlocks (hk : 0 < c.k) (hn : c.n ≤ bindStart) (hrun : encodeBlocks gfMultiply c = some dag) :
    WellFormed dag := by
  obtain ⟨hcode, hnodup⟩ := parity_blocks (k := c.k) hn
  refine wellFormed_bound (fun t ↦ (List.range c.k).map fun j ↦ c.encodeMatrix gfMultiply (t * c.k + j)) hk hcode hnodup
    (fun t _ ↦ by rw [List.length_map, List.length_range]) ?_ hrun
  rw [List.foldl_map]
  simp only [Nat.add_comm]

/-- **The graph of `WASLRC::Encode`**. -/
theorem wellFormed_encodeWASLRC {gfMultiply : ℕ → ℕ → ℕ} {c : WASLRC} (hk : 0 < c.k) (hn : c.n ≤ bindStart)
    (hrun : c.encode gfMultiply = some dag) : WellFormed dag := by
  obtain ⟨hcode, hnodup⟩ := parity_blocks (k := c.k) hn
  exact wellFormed_bound (c.row gfMultiply) hk hcode hnodup
    (fun t _ ↦ by rw [WASLRC.row, List.length_map, List.length_range]) rfl hrun

/-- One round of `RSAS::Encode` binds the parity sub-packets of the round. -/
theorem ECDAG.Assembled.encodeSubPacket (h : Assembled dag (Unjoined c wi)) (hk : 0 < c.k) (hkn : c.k ≤ c.n)
    (hwi : wi < c.w) (hroom : c.n * c.w ≤ bindStart) (hbindId : bindStart ≤ dag.bindId)
    (hrun : RSAS.encodeSubPacket gfMultiply c dag wi = some dag') :
    Assembled dag' (Unjoined c (wi + 1)) ∧ bindStart ≤ dag'.bindId := by
  have hbelow : ∀ {dag : ECDAG} {id : ℕ}, id < c.n * c.w → ¬dag.Drawn id :=
    fun hid ↦ not_drawn_of_lt (hid.trans_le hroom)
  have hjoined := h.joinParities gfMultiply hk hkn hwi fun id hid ↦ hbelow hid
  simp only [RSAS.encodeSubPacket, Option.bind_eq_bind, Option.bind_eq_some_iff] at hrun
  obtain ⟨⟨dag₁, b⟩, hbind, hbindY⟩ := hrun
  have hbind' : bindStart ≤ (encodeJoins gfMultiply c wi dag).bindId := by rwa [bindId_encodeJoins]
  refine ⟨(hjoined.bindX ?_ (fun t ht ↦ ?_) (fun hfresh ↦ ?_) hbind).bindYOf hbindY, ?_⟩
  · exact List.nodup_range.map_on fun i _ j _ heq ↦ Nat.add_left_cancel ((cell_inj hwi hwi).mp heq).1
  · obtain ⟨i, hi, rfl⟩ := List.mem_map.mp ht
    have hi := List.mem_range.mp hi
    exact hbelow (subPacket_lt (by omega) hwi)
  · have hlt := (Nat.div_lt_iff_lt_mul (Nat.zero_lt_of_lt hwi)).mp hfresh.2.1
    omega
  · rw [bindId_bindYOf hbindY]
    exact hbind'.trans (bindId_le_bindX hbind)

/-- **The graph of `RSAS::Encode`**. -/
theorem wellFormed_encodeRSAS (hk : 0 < c.k) (hkn : c.k ≤ c.n) (hroom : c.n * c.w ≤ bindStart)
    (hrun : RSAS.encode gfMultiply c = some dag) : WellFormed dag := by
  rw [RSAS.encode] at hrun
  split_ifs at hrun
  have hstart : Assembled {} (Unjoined c 0) ∧ bindStart ≤ ECDAG.bindId {} := ⟨.empty _, le_rfl⟩
  exact (Fold.foldlM_range_invariant (I := fun m dag ↦ Assembled dag (Unjoined c m) ∧ bindStart ≤ dag.bindId)
    (fun wi hwi dag dag' h hdag ↦ h.1.encodeSubPacket hk hkn hwi hroom h.2 hdag) hstart hrun).1.toWellFormed

end Encoding

/-! ## Decoding -/

section Decoding

variable {gfMultiply : GF256 → GF256 → GF256} {invert : (ℕ → GF256) → ℕ → ℕ → GF256} {c : RSCode} {L : Loss c}
  {dag dag' : ECDAG} {wi : ℕ} {b : ℤ}

/-- The sub-packets of the lost blocks from a round on. -/
def Loss.Missing (L : Loss c) (wi id : ℕ) : Prop := id / c.w ∈ L.lost ∧ wi ≤ id % c.w

/-- The sub-packets that are read in a round. -/
def Loss.sources (L : Loss c) (wi : ℕ) : List ℕ := (List.range c.k).map fun ki ↦ L.survivors.getD ki 0 * c.w + wi

theorem Loss.mem_sources {s : ℕ} (hs : s ∈ L.sources wi) : ∃ r ∈ L.survivors, s = r * c.w + wi := by
  obtain ⟨ki, hki, rfl⟩ := List.mem_map.mp hs
  exact ⟨_, L.survivor_mem (List.mem_range.mp hki), rfl⟩

theorem Loss.nodup_sources (h : L.survivors.Nodup) (hwi : wi < c.w) : (L.sources wi).Nodup :=
  List.nodup_range.map_on fun _ hi _ hj heq ↦
    L.getD_inj h (List.mem_range.mp hi) (List.mem_range.mp hj) ((cell_inj hwi hwi).mp heq).1

theorem ECDAG.Assembled.joinLost {α : Type} {xs : List α} (h : Assembled dag (L.Missing wi)) (key : α → ℕ)
    (co : α → List GF256) (hkeys : (xs.map key).Nodup) (hlost : ∀ x ∈ xs, key x ∈ L.lost)
    (hlen : ∀ x ∈ xs, (co x).length = c.k) (hk : 0 < c.k) (hsurvivors : L.survivors.Nodup) (hwi : wi < c.w)
    (hdrawn : ∀ id < c.n * c.w, ¬dag.Drawn id) :
    Assembled (xs.foldl (fun dag x ↦ dag.join (key x * c.w + wi) (L.sources wi) (co x)) dag) (L.Missing (wi + 1)) := by
  refine (h.foldl_join (fun x ↦ key x * c.w + wi) co (fun x hx ↦ ?_) ?_ ?_ (L.nodup_sources hsurvivors hwi)
    (fun x hx ↦ ?_) fun s hs ↦ ?_).mono fun id hid ↦ ?_
  · refine ⟨⟨?_, ?_⟩, hdrawn _ (subPacket_lt (L.lost_lt _ (hlost x hx)) hwi)⟩
    · rw [subPacket_div hwi]
      exact hlost x hx
    · rw [subPacket_mod hwi]
  · have hmap : xs.map (fun x ↦ key x * c.w + wi) = (xs.map key).map (· * c.w + wi) := by rw [List.map_map]; rfl
    rw [hmap]
    exact hkeys.map_on fun r _ r' _ heq ↦ ((cell_inj hwi hwi).mp heq).1
  · exact fun hnil ↦ hk.ne' (List.range_eq_nil.mp (List.map_eq_nil_iff.mp hnil))
  · rw [hlen x hx, Loss.sources, List.length_map, List.length_range]
  · obtain ⟨r, hr, rfl⟩ := L.mem_sources hs
    refine ⟨fun hmiss ↦ ?_, hdrawn _ (subPacket_lt (L.survivors_lt r hr) hwi)⟩
    rw [Loss.Missing, subPacket_div hwi] at hmiss
    exact L.disjoint r hmiss.1 hr
  · obtain ⟨hdiv, hmod⟩ := hid
    refine ⟨⟨hdiv, (Nat.le_succ wi).trans hmod⟩, fun hmem ↦ ?_⟩
    obtain ⟨x, -, rfl⟩ := List.mem_map.mp hmem
    rw [subPacket_mod hwi] at hmod
    exact absurd hmod (Nat.not_succ_le_self wi)

/-- **The graph of `RSCONV::Decode`**. -/
theorem wellFormed_decodeRSCONV (hk : 0 < c.k) (hw : 0 < c.w) (hsurvivors : L.survivors.Nodup) (hlost : L.lost.Nodup)
    (hrun : RSCONV.decode gfMultiply invert c (subPackets c.w L.survivors) (subPackets c.w L.lost) = some dag) :
    WellFormed dag := by
  rw [RSCONV.decode, blockIds_subPackets hw, blockIds_subPackets hw] at hrun
  split_ifs at hrun
  rw [← Option.pure_def, ← List.foldlM_pure] at hrun
  have hstart : Assembled {} (L.Missing 0) ∧ ECDAG.bindId {} = bindStart := ⟨.empty _, rfl⟩
  refine (Fold.foldlM_range_invariant (I := fun m dag ↦ Assembled dag (L.Missing m) ∧ dag.bindId = bindStart)
    (fun wi hwi dag dag' h hdag ↦ ?_) hstart hrun).1.toWellFormed
  obtain ⟨h, hbindId⟩ := h
  rw [← Option.some.inj hdag]
  refine ⟨h.joinLost id _ (by rwa [List.map_id]) (fun r hr ↦ hr) (fun r _ ↦ ?_) hk hsurvivors hwi fun id _ hid ↦ ?_, ?_⟩
  · rw [List.length_map, List.length_range]
  · rw [Drawn, hbindId] at hid
    omega
  · exact (bindId_foldl (fun _ _ ↦ bindId_join ..) _ _).trans hbindId

/-- One round of `RSAS::Decode` binds the lost sub-packets of the round, or the only one. -/
theorem ECDAG.Assembled.decodeSubPacket (h : Assembled dag (L.Missing wi)) (hk : 0 < c.k) (hwi : wi < c.w)
    (hroom : c.n * c.w ≤ bindStart) (hsurvivors : L.survivors.Nodup) (hlost : L.lost.Nodup)
    (hbindId : bindStart ≤ dag.bindId) {coefs : List (List GF256)} (hlength : coefs.length = L.lost.length)
    (hcoefs : ∀ co ∈ coefs, co.length = c.k)
    (hrun : RSAS.decodeSubPacket c L.survivors L.lost coefs dag wi = some dag') :
    Assembled dag' (L.Missing (wi + 1)) ∧ bindStart ≤ dag'.bindId := by
  have hbelow : ∀ {dag : ECDAG} {id : ℕ}, id < c.n * c.w → ¬dag.Drawn id :=
    fun hid ↦ not_drawn_of_lt (hid.trans_le hroom)
  have hkeys : (L.lost.zip coefs).map Prod.fst = L.lost := List.map_fst_zip hlength.ge
  have hjoined := h.joinLost Prod.fst Prod.snd (by rwa [hkeys]) (fun x hx ↦ (List.of_mem_zip hx).1)
    (fun x hx ↦ hcoefs _ (List.of_mem_zip hx).2) hk hsurvivors hwi fun id hid ↦ hbelow hid
  have hjoinedId : bindStart ≤ ECDAG.bindId ((L.lost.zip coefs).foldl
      (fun dag x ↦ dag.join (x.1 * c.w + wi) (L.sources wi) x.2) dag) :=
    hbindId.trans_eq (bindId_foldl (fun _ _ ↦ bindId_join ..) _ _).symm
  have hfresh : ∀ b, bindStart ≤ b → ¬L.Missing (wi + 1) b := by
    intro b hb hmiss
    have hlt := (Nat.div_lt_iff_lt_mul (Nat.zero_lt_of_lt hwi)).mp (L.lost_lt _ hmiss.1)
    omega
  have htarget : ∀ t ∈ L.lost.map (· * c.w + wi), t < c.n * c.w := by
    intro t ht
    obtain ⟨r, hr, rfl⟩ := List.mem_map.mp ht
    exact subPacket_lt (L.lost_lt r hr) hwi
  rw [RSAS.decodeSubPacket] at hrun
  dsimp only at hrun
  -- several lost blocks are bound by `BindX`, a single one by `BindXSp`
  split_ifs at hrun
  · obtain ⟨⟨dag₁, b⟩, hbind, hbindY⟩ := Option.bind_eq_some_iff.mp hrun
    rw [bindId_bindYOf hbindY]
    exact ⟨(hjoined.bindX (hlost.map_on fun r _ r' _ heq ↦ ((cell_inj hwi hwi).mp heq).1)
      (fun t ht ↦ hbelow (htarget t ht)) (hfresh _ hjoinedId) hbind).bindYOf hbindY,
      hjoinedId.trans (bindId_le_bindX hbind)⟩
  · obtain ⟨⟨dag₁, b⟩, hbind, hbindY⟩ := Option.bind_eq_some_iff.mp hrun
    obtain ⟨idx, hidx, hbind⟩ := Option.bind_eq_some_iff.mp hbind
    rw [bindId_bindYOf hbindY]
    exact ⟨(hjoined.bindXSp (hbelow (htarget idx (List.mem_of_mem_head? hidx))) (hfresh _ hjoinedId)
      hbind).bindYOf hbindY, hjoinedId.trans (bindId_le_bindXSp hbind)⟩

/-- **The graph of `RSAS::Decode`**. -/
theorem wellFormed_decodeRSAS {invert : (ℕ → ℕ) → ℕ → ℕ → ℕ → ℕ} (hk : 0 < c.k) (hw : 0 < c.w)
    (hroom : c.n * c.w ≤ bindStart) (hsurvivors : L.survivors.Nodup) (hlost : L.lost.Nodup)
    (hrun : RSAS.decode gfMultiply invert c (subPackets c.w L.survivors) (subPackets c.w L.lost) = some dag) :
    WellFormed dag := by
  simp only [RSAS.decode, blockIds_subPackets hw, Option.bind_eq_bind] at hrun
  split_ifs at hrun
  obtain ⟨coefs, hcoefs, hrun⟩ := Option.bind_eq_some_iff.mp hrun
  have hlen : ∀ co ∈ coefs, co.length = c.k := by
    intro co hco
    obtain ⟨r, -, hr⟩ := Fold.of_mem_mapM hcoefs hco
    rw [Fold.length_of_mapM hr, List.length_range]
  have hstart : Assembled {} (L.Missing 0) ∧ bindStart ≤ ECDAG.bindId {} := ⟨.empty _, le_rfl⟩
  exact (Fold.foldlM_range_invariant (I := fun m dag ↦ Assembled dag (L.Missing m) ∧ bindStart ≤ dag.bindId)
    (fun wi hwi dag dag' h hdag ↦ h.1.decodeSubPacket hk hwi hroom hsurvivors hlost h.2
      (Fold.length_of_mapM hcoefs) hlen hdag) hstart
    hrun).1.toWellFormed

/-- **The graph of `RSBINDX::Decode`**, on numbers of blocks. -/
theorem wellFormed_decodeRSBINDX {invert : (ℕ → ℕ) → ℕ → ℕ → ℕ → ℕ} (hk : 0 < c.k) (hsurvivors : L.survivors.Nodup)
    (hlost : L.lost.Nodup) (hrun : RSBINDX.decode gfMultiply invert c L.survivors L.lost = some dag) :
    WellFormed dag := by
  rw [RSBINDX.decode] at hrun
  split_ifs at hrun
  have hnodup : ((List.range c.k).map fun i ↦ L.survivors.getD i 0).Nodup :=
    List.nodup_range.map_on fun _ hi _ hj ↦ L.getD_inj hsurvivors (List.mem_range.mp hi) (List.mem_range.mp hj)
  -- the blocks that are still to be joined are no nodes yet
  have hfold : ∀ (to' : List ℕ) (dag₀ : ECDAG), (∀ r ∈ to', r ∈ L.lost) → to'.Nodup → Assembled dag₀ (· ∈ to') →
      dag₀.bindId = bindStart →
      to'.foldlM (fun dag ridx ↦ (c.coefInts gfMultiply invert c.k L.survivors ridx).map fun coef ↦
        dag.join ridx ((List.range c.k).map fun i ↦ L.survivors.getD i 0) coef) dag₀ = some dag → WellFormed dag := by
    intro to'
    induction to' with
    | nil =>
      intro dag₀ _ _ h _ hrun
      rw [← Option.some.inj hrun]
      exact h.toWellFormed
    | cons r to' ih =>
      intro dag₀ hto hdistinct h hbindId hrun
      rw [List.foldlM_cons, Option.bind_eq_bind] at hrun
      obtain ⟨dag₁, hjoin, hrun⟩ := Option.bind_eq_some_iff.mp hrun
      obtain ⟨coef, hcoef, rfl⟩ := Option.map_eq_some_iff.mp hjoin
      obtain ⟨hr, hdistinct⟩ := List.nodup_cons.mp hdistinct
      have hundrawn : ∀ id, ¬dag₀.Drawn id := fun id hid ↦ by
        rw [Drawn, hbindId] at hid
        omega
      have hapart : ∀ id ∈ r :: to', id ∉ (List.range c.k).map fun i ↦ L.survivors.getD i 0 := by
        intro id hid hmem
        obtain ⟨i, hi, rfl⟩ := List.mem_map.mp hmem
        exact L.disjoint _ (hto _ hid) (L.survivor_mem (List.mem_range.mp hi))
      refine ih _ (fun r' hr' ↦ hto r' (List.mem_cons_of_mem r hr')) hdistinct ?_ (by rw [bindId_join, hbindId]) hrun
      have hne : (List.range c.k).map (fun i ↦ L.survivors.getD i 0) ≠ [] :=
        fun hnil ↦ hk.ne' (List.range_eq_nil.mp (List.map_eq_nil_iff.mp hnil))
      refine h.join List.mem_cons_self hne hnodup ?_ (fun id _ ↦ hundrawn id) (hapart r List.mem_cons_self) fun id hid ↦ ?_
      · rw [Fold.length_of_mapM hcoef, List.length_range, List.length_map, List.length_range]
      · exact ⟨List.mem_cons_of_mem r hid, fun heq ↦ hr (heq ▸ hid), hapart id (List.mem_cons_of_mem r hid)⟩
  exact hfold L.lost {} (fun r hr ↦ hr) hlost (.empty _) rfl hrun

/-- **The graph of `WASLRC::Decode`** for one lost block, unless it is one of the last `k % l` data blocks. -/
theorem wellFormed_decodeWASLRC {gfMultiply : ℕ → ℕ → ℕ} {c : WASLRC} (hl : 1 ≤ c.l) (hlk : c.l ≤ c.k)
    (from' : List ℕ) {r : ℕ} (hr : r < c.l * (c.k / c.l) ∨ c.k ≤ r) : WellFormed (c.decode gfMultiply from' [r]) := by
  obtain ⟨hne, hnot⟩ := WASLRC.helpers_spec (b := r) hl hlk
  have hshift : ∀ a : ℕ, ((List.range (c.k / c.l)).map (a + ·)).Nodup :=
    fun a ↦ List.nodup_range.map (add_right_injective a)
  have hnodup : (c.helpers r).Nodup := by
    by_cases hrk : r < c.k
    · rw [WASLRC.helpers_data hrk]
      refine List.nodup_append.mpr ⟨(hshift _).filter _, List.nodup_singleton _, fun s hs t ht heq ↦ ?_⟩
      -- The group of the block is one of the `l` groups.
      obtain ⟨j, hj, rfl⟩ := List.mem_map.mp (List.mem_filter.mp hs).1
      have hlt := hr.resolve_right (not_le.mpr hrk)
      have hgroup : r / (c.k / c.l) < c.l := Nat.div_lt_of_lt_mul (by rwa [Nat.mul_comm])
      have hlt := (WASLRC.column_lt (Nat.mul_div_le c.k c.l) hgroup (List.mem_range.mp hj)).2
      rw [heq, List.mem_singleton.mp ht] at hlt
      exact absurd hlt (Nat.le_add_right _ _).not_gt
    by_cases hrl : r < c.k + c.l
    · rw [WASLRC.helpers_local (not_lt.mp hrk) hrl]
      exact hshift _
    · rw [WASLRC.helpers_global (not_lt.mp hrl)]
      exact List.nodup_range
  have hlen : (c.helperCoefs gfMultiply r).length = (c.helpers r).length := by
    rw [WASLRC.helperCoefs]
    split_ifs with hrl
    · exact List.length_replicate
    · rw [WASLRC.helpers_global (not_lt.mp hrl), WASLRC.row, List.length_map]
  have hjoin : Assembled (ECDAG.join {} r (c.helpers r) (c.helperCoefs gfMultiply r)) fun _ ↦ False :=
    (Assembled.empty (· = r)).join rfl hne hnodup hlen (fun id _ hid ↦ absurd hid.2 (not_lt.mpr hid.1)) hnot
      fun _ hid ↦ hid.elim
  exact hjoin.toWellFormed

end Decoding

end UniDedup.Storage
