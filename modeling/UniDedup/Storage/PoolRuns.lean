import Mathlib.Data.List.Perm.Basic
import UniDedup.Lib.Fold
import UniDedup.Storage.Packing

/-!
# Runs of a pool

The requests that reach a pool: a file is registered, a registered file is finalized, a stripe that has been
queued is encoded. Each holds the lock of the pool, so a run is a sequence of requests. The state carries
the history that the statements speak of: the files registered and finalized, the stripes ever queued, and the
code index every object was handed out under, by the placement and by the encoder.

The `i`-th stripe of the pool is opened at the time `clock i`, and the clock moves on between two stripes.

## The invariant

`Inv` relates the history to the tables of the pool: its stripes are packed, an object is marked just if its file is
finalized, the stripes that were candidates are those queued and those encoded, and every object has the code index
of its place in a stripe. Each request is a loop with an invariant of its own (`Registering`, `Finalizing`,
`EncodingOf`).
-/

namespace UniDedup.Storage

open Fold Transition

/-- The pool with the entries and the queue, and the history of the run. -/
structure PoolRun where
  store : StripeStore
  pool : OfflineECPool
  pendingECQueue : List Name
  registered : List Name
  finalized : List Name
  /-- The stripes ever passed to `addEncodeCandidate`. -/
  candidates : List Name
  encoded : List Name
  codeIdx : List (Name × ℕ)

inductive PoolRequest
  | registerOfflineEC (clientIp : ℕ) (filename : Name) (filesizeMB : ℕ) (picks : ℕ → ℕ)
  | finalizeFile (filename : Name)
  | offlineEnc (stripename : Name) (picks : ℕ → ℕ)

namespace PoolRun

variable (conf : Config) (clock : ℕ → ℕ)

def IsData (s : PoolRun) (o : Name) : Prop :=
  ∃ f ∈ s.registered, ∃ e, s.store.ssEntryMap.lookup f = some e ∧ o ∈ e.objList

def IsFinal (s : PoolRun) (o : Name) : Prop :=
  ∃ f ∈ s.finalized, ∃ e, s.store.ssEntryMap.lookup f = some e ∧ o ∈ e.objList

/-- The effect of a request. A file is finalized once, and only queued stripes are encoded. -/
def next (s : PoolRun) : PoolRequest → Option PoolRun
  | .registerOfflineEC clientIp filename filesizeMB picks =>
    (registerOfflineEC conf clock s.store s.pool clientIp filename filesizeMB picks).map fun r ↦
      { s with
        store := r.1
        pool := r.2.pool
        registered := s.registered ++ [filename]
        codeIdx := s.codeIdx ++ r.2.fileobjnames.zip r.2.stripeidxs }
  | .finalizeFile filename =>
    if filename ∈ s.registered ∧ filename ∉ s.finalized then
      (finalizeFile s.store s.pool filename).map fun r ↦
        { s with
          pool := r.1
          pendingECQueue := s.pendingECQueue ++ r.2
          finalized := s.finalized ++ [filename]
          candidates := s.candidates ++ r.2 }
    else none
  | .offlineEnc stripename picks =>
    if stripename ∈ s.pendingECQueue then
      (offlineEnc conf s.store s.pool stripename picks).map fun r ↦
        { s with
          store := r.store
          pool := r.pool
          pendingECQueue := s.pendingECQueue.erase stripename
          encoded := s.encoded ++ [stripename]
          codeIdx := s.codeIdx ++ r.objlist.entries.map fun x ↦ (x.2.1, x.1) }
    else none

/-- A new pool, next to whatever entries there are. -/
def IsInitial (s : PoolRun) : Prop :=
  ∃ store ecpoolid ecpolicy basesize,
    s = ⟨store, .empty ecpoolid ecpolicy basesize, [], [], [], [], [], []⟩

def system : System PoolRun PoolRequest := ⟨IsInitial, next conf clock⟩

end PoolRun

/-! ## What the requests do to the pool -/

section Specs

variable {conf : Config} {clock picks : ℕ → ℕ} {st : StripeStore} {clientIp : ℕ} {f : Name}

theorem registerObj_spec {s s' : Placing} {i : ℕ}
    (h : registerObj conf st clientIp f clock picks s i = some s') :
    s'.pool = s.pool.addObj (objName f i)
        (s.pool.getStripeForObj (objName f i) (clock s.pool.stripes.length)) ∧
      s'.fileobjnames = s.fileobjnames ++ [objName f i] ∧
      s'.stripeidxs = s.stripeidxs ++ [(s.pool.getStripeObjList
        (s.pool.getStripeForObj (objName f i) (clock s.pool.stripes.length))).length] := by
  obtain ⟨stripeips, -, h⟩ := Option.bind_eq_some_iff.mp h
  obtain ⟨curIp, -, h⟩ := Option.bind_eq_some_iff.mp h
  cases h
  exact ⟨rfl, rfl, rfl⟩

theorem encodeParity_spec {stripename : Name} {s s' : Encoding} {i : ℕ}
    (h : encodeParity conf stripename picks s i = some s') :
    s'.pool = s.pool.addObj (parityName s.pool.ecpoolid stripename i) stripename ∧
      (∃ loc, s'.objlist = emplace s.objlist i (parityName s.pool.ecpoolid stripename i, loc)) ∧
      ∃ e, s'.store = s.store.insertEntry e := by
  obtain ⟨loc, -, h⟩ := Option.bind_eq_some_iff.mp h
  cases h
  exact ⟨rfl, ⟨loc, rfl⟩, _, rfl⟩

end Specs

/-- Every recorded code index is a position in a stripe. -/
def OfflineECPool.Placed (p : OfflineECPool) (codeIdx : List (Name × ℕ)) : Prop :=
  ∀ x ∈ codeIdx, ∃ t, (p.getStripeObjList t)[x.2]? = some x.1

namespace OfflineECPool

variable {p p' : OfflineECPool} {codeIdx codeIdx' : List (Name × ℕ)}

theorem Placed.mono (h : p.Placed codeIdx)
    ( hprefix : ∀ t, p.getStripeObjList t <+: p'.getStripeObjList t) : p'.Placed codeIdx := by
  intro x hx
  obtain ⟨t, ht⟩ := h x hx
  obtain ⟨rest, hrest⟩ := hprefix t
  refine ⟨t, ?_⟩
  rw [← hrest, List.getElem?_append_left (List.getElem?_eq_some_iff.mp ht).1, ht]

theorem Placed.append (h : p.Placed codeIdx) (h' : p.Placed codeIdx') : p.Placed (codeIdx ++ codeIdx') :=
  fun x hx ↦ (List.mem_append.mp hx).elim (h x) (h' x)

theorem placed_addObj (o s : Name) : (p.addObj o s).Placed [(o, (p.getStripeObjList s).length)] := by
  intro x hx
  rw [List.mem_singleton.mp hx]
  exact ⟨s, by rw [getStripeObjList_addObj_self, List.getElem?_concat_length]⟩

end OfflineECPool

/-! ### Registering a file -/

section Register

variable {conf : Config} {clock picks : ℕ → ℕ} {st : StripeStore} {clientIp : ℕ} {f : Name}
  {data : Name → Prop} {encoded candidates : List Name}

/-- The pool after some objects of a file have been added to the pool `p`. -/
structure Registering (clock : ℕ → ℕ) (p : OfflineECPool) (f : Name) (data : Name → Prop)
    (encoded candidates : List Name) (m : ℕ) (s : Placing) : Prop where
  packed : s.pool.Packed clock data encoded candidates
  ecpoolid : s.pool.ecpoolid = p.ecpoolid
  names : s.fileobjnames = (List.range m).map (objName f)
  length_idxs : s.stripeidxs.length = m
  placed : s.pool.Placed (s.fileobjnames.zip s.stripeidxs)
  grown : ∀ t, p.getStripeObjList t <+: s.pool.getStripeObjList t
  lookup : ∀ o, s.pool.objs.lookup o = if o ∈ s.fileobjnames then some false else p.objs.lookup o

theorem Registering.step {p : OfflineECPool} {m : ℕ} {s s' : Placing} (hclock : StrictMono clock)
    (h : Registering clock p f data encoded candidates m s) (hdata : data (objName f m))
    (hfresh : objName f m ∉ p.objs) (hs : registerObj conf st clientIp f clock picks s m = some s') :
    Registering clock p f data encoded candidates (m + 1) s' := by
  obtain ⟨hpool, hnames, hidxs⟩ := registerObj_spec hs
  have hnew : objName f m ∉ s.fileobjnames := by
    rw [h.names, List.mem_map]
    rintro ⟨i, hi, heq⟩
    exact absurd (objName_inj.mp heq).2 (List.mem_range.mp hi).ne
  have ho : objName f m ∉ s.pool.objs := by
    rw [← AList.lookup_eq_none, h.lookup, if_neg hnew]
    exact AList.lookup_eq_none.mpr hfresh
  have hlen : s.fileobjnames.length = s.stripeidxs.length := by
    rw [h.names, h.length_idxs, List.length_map, List.length_range]
  refine ⟨?_, ?_, ?_, ?_, ?_, fun t ↦ ?_, fun o ↦ ?_⟩
  · rw [hpool]
    exact h.packed.addObj hclock ho hdata
  · rw [hpool, OfflineECPool.ecpoolid_addObj, h.ecpoolid]
  · rw [hnames, h.names, List.range_succ, List.map_append, List.map_singleton]
  · rw [hidxs, List.length_append, List.length_singleton, h.length_idxs]
  · rw [hnames, hidxs, List.zip_append hlen, hpool]
    exact (h.placed.mono fun t ↦ s.pool.prefix_addObj _ _ t).append (OfflineECPool.placed_addObj _ _)
  · rw [hpool]
    exact (h.grown t).trans (s.pool.prefix_addObj _ _ t)
  · rw [hpool, OfflineECPool.objs_addObj, lookup_emplace _ _ _ _ ho, h.lookup, hnames]
    by_cases hom : o = objName f m
    · rw [if_pos hom, if_pos (List.mem_append_right _ (List.mem_singleton.mpr hom))]
    · rw [if_neg hom]
      simp only [List.mem_append, List.mem_singleton, hom, or_false]

theorem registering_of_foldlM {p : OfflineECPool} (hclock : StrictMono clock)
    (h : p.Packed clock data encoded candidates) (hfresh : ∀ i, objName f i ∉ p.objs) {m : ℕ} {s : Placing}
    (hdata : ∀ i < m, data (objName f i))
    (hs : (List.range m).foldlM (registerObj conf st clientIp f clock picks) ⟨p, [], [], []⟩ = some s) :
    Registering clock p f data encoded candidates m s :=
  foldlM_range_invariant (fun i hi _ _ hI hstep ↦ hI.step hclock (hdata i hi) (hfresh i) hstep)
    ⟨h, rfl, rfl, rfl, fun _ hx ↦ absurd hx List.not_mem_nil, fun _ ↦ List.prefix_refl _, fun _ ↦ rfl⟩ hs

end Register

/-! ### Finalizing a file -/

section Finalize

variable {clock : ℕ → ℕ} {data : Name → Prop} {encoded candidates : List Name}

theorem finalizeOne_spec {s s' : OfflineECPool × List Name} {o : Name} (h : finalizeOne s o = some s') :
    s.1.finalizeObj o = some s'.1 ∧ s'.2 = if s'.1.isCandidateForEC (s'.1.getStripeForObj o 0)
      then s.2 ++ [s'.1.getStripeForObj o 0] else s.2 := by
  obtain ⟨p, hp, rfl⟩ := Option.map_eq_some_iff.mp h
  exact ⟨hp, rfl⟩

/-- The pool and the queued stripes after some objects have been finalized. -/
structure Finalizing (clock : ℕ → ℕ) (p : OfflineECPool) (data : Name → Prop)
    (encoded candidates : List Name) (names : List Name) (s : OfflineECPool × List Name) : Prop where
  packed : s.1.Packed clock data encoded (candidates ++ s.2)
  ecpoolid : s.1.ecpoolid = p.ecpoolid
  same : s.1.getStripeObjList = p.getStripeObjList
  lookup : ∀ o, s.1.objs.lookup o = if o ∈ names then some true else p.objs.lookup o

theorem finalizing_of_foldlM {p : OfflineECPool} (h : p.Packed clock data encoded candidates)
    {names : List Name} (hnodup : names.Nodup) (hflag : ∀ o ∈ names, p.objs.lookup o = some false)
    (hpar : ∀ o ∈ names, ∀ t i, o ≠ parityName p.ecpoolid t i) {s : OfflineECPool × List Name}
    (hs : names.foldlM finalizeOne (p, []) = some s) : Finalizing clock p data encoded candidates names s := by
  induction names using List.reverseRecOn generalizing s with
  | nil =>
    cases hs
    exact ⟨by rw [List.append_nil]; exact h, rfl, rfl, fun o ↦ rfl⟩
  | append_singleton names o ih =>
    rw [List.foldlM_append] at hs
    obtain ⟨s₀, hs₀, hs⟩ := Option.bind_eq_some_iff.mp hs
    rw [List.foldlM_cons] at hs
    obtain ⟨s₁, hs₁, hs⟩ := Option.bind_eq_some_iff.mp hs
    cases hs
    rw [List.nodup_append] at hnodup
    have hnew : o ∉ names := fun hmem ↦ hnodup.2.2 o hmem o List.mem_cons_self rfl
    have h₀ := ih hnodup.1 (fun o' ho' ↦ hflag o' (List.mem_append_left _ ho'))
      (fun o' ho' ↦ hpar o' (List.mem_append_left _ ho')) hs₀
    obtain ⟨hp, hqueue⟩ := finalizeOne_spec hs₁
    have ho : o ∈ names ++ [o] := List.mem_append_right _ List.mem_cons_self
    have hp₁ := OfflineECPool.finalizeObj_eq hp
    refine ⟨?_, ?_, ?_, fun o' ↦ ?_⟩
    · have := h₀.packed.finalizeObj (by rw [h₀.lookup, if_neg hnew, hflag o ho])
        (by rw [h₀.ecpoolid]; exact hpar o ho) hp
      rw [hqueue]
      split_ifs at this ⊢ with hcand
      · rw [← List.append_assoc]
        exact this
      · exact this
    · rw [hp₁]
      exact h₀.ecpoolid
    · rw [← h₀.same, hp₁]
      rfl
    · rw [OfflineECPool.lookup_finalizeObj hp, h₀.lookup]
      by_cases hoo : o' = o
      · rw [if_pos hoo, if_pos (hoo ▸ ho)]
      · rw [if_neg hoo]
        simp only [List.mem_append, List.mem_singleton, hoo, or_false]

end Finalize

/-! ### Encoding a stripe -/

section Encode

variable {conf : Config} {picks : ℕ → ℕ} {st : StripeStore} {p : OfflineECPool} {t : Name}

/-- The entries are kept, and the objects are handed out under their positions. -/
structure EncodingOf (st : StripeStore) (p : OfflineECPool) (t : Name) (m : ℕ) (s : Encoding) : Prop where
  store : ∀ f e, st.ssEntryMap.lookup f = some e → s.store.ssEntryMap.lookup f = some e
  pool : s.pool = p.addObjs t ((List.range' p.ecpolicy.k m).map (parityName p.ecpoolid t))
  objlist : ∀ i x, s.objlist.lookup i = some x → (s.pool.getStripeObjList t)[i]? = some x.1

theorem EncodingOf.step {m : ℕ} {s s' : Encoding} (h : EncodingOf st p t m s)
    (hlen : (p.getStripeObjList t).length = p.ecpolicy.k)
    (hs : encodeParity conf t picks s (p.ecpolicy.k + m) = some s') : EncodingOf st p t (m + 1) s' := by
  obtain ⟨hpool, ⟨loc, hobjlist⟩, e, hstore⟩ := encodeParity_spec hs
  have hid : s.pool.ecpoolid = p.ecpoolid := by rw [h.pool, OfflineECPool.ecpoolid_addObjs]
  have hlist : (s.pool.getStripeObjList t).length = p.ecpolicy.k + m := by
    rw [h.pool, OfflineECPool.getStripeObjList_addObjs, if_pos rfl, List.length_append, List.length_map,
      List.length_range', hlen]
  refine ⟨fun f e' he' ↦ ?_, ?_, fun i x hx ↦ ?_⟩
  · rw [hstore]
    exact StripeStore.lookup_insertEntry (h.store f e' he')
  · rw [hpool, hid, List.range'_1_concat, List.map_append, List.map_singleton, OfflineECPool.addObjs_concat,
      ← h.pool]
  · rw [hpool, OfflineECPool.getStripeObjList_addObj_self]
    rw [hobjlist] at hx
    have hold : ∀ y, s.objlist.lookup i = some y →
        (s.pool.getStripeObjList t ++ [parityName s.pool.ecpoolid t (p.ecpolicy.k + m)])[i]? = some y.1 := by
      intro y hy
      have hy := h.objlist i y hy
      rw [List.getElem?_append_left (List.getElem?_eq_some_iff.mp hy).1, hy]
    by_cases hmem : p.ecpolicy.k + m ∈ s.objlist
    · rw [emplace, if_pos hmem] at hx
      exact hold x hx
    · rw [lookup_emplace _ _ _ _ hmem] at hx
      split_ifs at hx with hi
      · rw [← Option.some.inj hx, hi, ← hlist, List.getElem?_concat_length]
      · exact hold x hx

theorem lookup_objlist {stripelist : List Name} {locs : List ℕ} {n i : ℕ} {x : Name × ℕ}
    (hn : n ≤ stripelist.length)
    (h : ((List.range n).foldl (fun m i ↦ emplace m i (stripelist.getD i [], locs.getD i 0)) ∅ :
      AList fun _ : ℕ ↦ Name × ℕ).lookup i = some x) : stripelist[i]? = some x.1 := by
  induction n with
  | zero => exact absurd h (by simp)
  | succ n ih =>
    rw [List.range_succ, List.foldl_concat] at h
    have ih := ih (Nat.le_of_succ_le hn)
    generalize (List.range n).foldl (fun m i ↦ emplace m i (stripelist.getD i [], locs.getD i 0))
      (∅ : AList fun _ : ℕ ↦ Name × ℕ) = objlist at h ih
    by_cases hmem : n ∈ objlist
    · rw [emplace, if_pos hmem] at h
      exact ih h
    · rw [lookup_emplace _ _ _ _ hmem] at h
      split_ifs at h with hi
      · rw [← Option.some.inj h, hi, List.getD_eq_getElem?_getD, List.getElem?_eq_getElem hn, Option.getD_some]
      · exact ih h

theorem encodingOf_offlineEnc {s : Encoding} (hlen : (p.getStripeObjList t).length = p.ecpolicy.k)
    (hs : offlineEnc conf st p t picks = some s) :
    EncodingOf st p t (p.ecpolicy.n - p.ecpolicy.k) s := by
  obtain ⟨stripeips, -, hloop⟩ := Option.bind_eq_some_iff.mp hs
  exact foldlM_range'_invariant (fun m _ s s' hI hstep ↦ hI.step hlen hstep)
    ⟨fun _ _ he ↦ he, rfl, fun i x hx ↦ lookup_objlist le_rfl hx⟩ hloop

end Encode

/-! ## The invariant of a run -/

namespace PoolRun

variable (conf : Config) (clock : ℕ → ℕ)

/-- What holds between two requests. -/
structure Inv (s : PoolRun) : Prop where
  packed : s.pool.Packed clock s.IsData s.encoded s.candidates
  files : ∀ f ∈ s.registered, ∃ e m, s.store.ssEntryMap.lookup f = some e ∧ e.type = 1 ∧
    e.objList = (List.range m).map (objName f)
  flags : ∀ f ∈ s.registered, ∀ e, s.store.ssEntryMap.lookup f = some e → ∀ o ∈ e.objList,
    s.pool.objs.lookup o = some (decide (f ∈ s.finalized))
  finalized : ∀ f ∈ s.finalized, f ∈ s.registered
  pending : s.candidates.Perm (s.pendingECQueue ++ s.encoded)
  placed : s.pool.Placed s.codeIdx
  indexed : ∀ o, s.IsData o → ∃ i, (o, i) ∈ s.codeIdx

variable {conf clock} {s s' : PoolRun}

theorem IsInitial.inv (h : s.IsInitial) : s.Inv clock := by
  obtain ⟨store, ecpoolid, ecpolicy, basesize, rfl⟩ := h
  have hdata : ∀ o, ¬IsData ⟨store, .empty ecpoolid ecpolicy basesize, [], [], [], [], [], []⟩ o := by
    rintro o ⟨f, hf, -⟩
    exact absurd hf List.not_mem_nil
  exact
    { packed := (OfflineECPool.packed_empty clock ecpoolid ecpolicy basesize).mono fun o ho ↦ ho.elim
      files := fun f hf ↦ absurd hf List.not_mem_nil
      flags := fun f hf ↦ absurd hf List.not_mem_nil
      finalized := fun f hf ↦ absurd hf List.not_mem_nil
      pending := .refl _
      placed := fun x hx ↦ absurd hx List.not_mem_nil
      indexed := fun o ho ↦ absurd ho (hdata o) }

namespace Inv

variable (h : s.Inv clock)

include h

theorem mem_objList {f : Name} (hf : f ∈ s.registered) {e : SSEntry}
    (he : s.store.ssEntryMap.lookup f = some e) {o : Name} (ho : o ∈ e.objList) : ∃ i, o = objName f i := by
  obtain ⟨e', m, he', -, hlist⟩ := h.files f hf
  obtain rfl : e' = e := Option.some.inj (he'.symm.trans he)
  rw [hlist] at ho
  obtain ⟨i, -, hi⟩ := List.mem_map.mp ho
  exact ⟨i, hi.symm⟩

theorem exists_of_isData {o : Name} (ho : s.IsData o) : ∃ f ∈ s.registered, ∃ i, o = objName f i := by
  obtain ⟨f, hf, e, he, hmem⟩ := ho
  exact ⟨f, hf, h.mem_objList hf he hmem⟩

theorem ne_parityName {o : Name} (ho : s.IsData o) (ecpoolid t : Name) (i : ℕ) :
    o ≠ parityName ecpoolid t i := by
  obtain ⟨f, -, j, rfl⟩ := h.exists_of_isData ho
  exact objName_ne_parityName

theorem notMem_registered {f : Name} (hf : f ∉ s.store.ssEntryMap) : f ∉ s.registered := by
  intro hreg
  obtain ⟨e, m, he, -⟩ := h.files f hreg
  exact hf (AList.lookup_isSome.mp (Option.isSome_iff_exists.mpr ⟨e, he⟩))

theorem objName_notMem {f : Name} (hf : f ∉ s.registered) (i : ℕ) : objName f i ∉ s.pool.objs := by
  intro hmem
  rcases h.packed.objs _ hmem with hdata | ⟨t, -, j, heq⟩
  · obtain ⟨f', hf', j, heq⟩ := h.exists_of_isData hdata
    exact hf ((objName_inj.mp heq).1 ▸ hf')
  · exact objName_ne_parityName heq

theorem notMem_encoded {t : Name} (ht : t ∈ s.pendingECQueue) : t ∈ s.candidates ∧ t ∉ s.encoded := by
  have hcand : t ∈ s.candidates := h.pending.mem_iff.mpr (List.mem_append_left _ ht)
  refine ⟨hcand, fun henc ↦ ?_⟩
  have hone : s.candidates.count t = 1 := by
    by_contra hne
    have hnready : ¬s.pool.Ready t := fun hready ↦ hne ((h.packed.queued t).1 hready)
    exact absurd (List.count_pos_iff.mpr hcand) (by rw [(h.packed.queued t).2 hnready]; simp)
  rw [h.pending.count_eq, List.count_append] at hone
  have hpos := List.count_pos_iff.mpr ht
  have hpos' := List.count_pos_iff.mpr henc
  omega

theorem length_eq {t : Name} (ht : t ∈ s.pendingECQueue) :
    (s.pool.getStripeObjList t).length = s.pool.ecpolicy.k := by
  obtain ⟨hcand, henc⟩ := h.notMem_encoded ht
  have hready : s.pool.Ready t := by
    by_contra hn
    exact absurd (List.count_pos_iff.mpr hcand) (by rw [(h.packed.queued t).2 hn]; simp)
  obtain ⟨l, hlen, -, -, heq⟩ := h.packed.shape t
  rw [if_neg henc, List.append_nil] at heq
  exact Nat.le_antisymm (heq ▸ hlen) hready.1

/-! ### The steps -/

theorem registerOfflineEC (hclock : StrictMono clock) {clientIp filesizeMB : ℕ} {f : Name} {picks : ℕ → ℕ}
    (hs : next conf clock s (.registerOfflineEC clientIp f filesizeMB picks) = some s') : s'.Inv clock := by
  obtain ⟨⟨st, pl⟩, hr, rfl⟩ := Option.map_eq_some_iff.mp hs
  rw [Storage.registerOfflineEC] at hr
  split_ifs at hr with hguard
  obtain ⟨pl', hloop, hr⟩ := Option.bind_eq_some_iff.mp hr
  cases hr
  have hnmap : f ∉ s.store.ssEntryMap := fun hmem ↦ hguard (.inl hmem)
  have hf := h.notMem_registered hnmap
  generalize hm : objnum filesizeMB s.pool.basesize = m at hloop
  have hpacked : s.pool.Packed clock (fun o ↦ s.IsData o ∨ o ∈ (List.range m).map (objName f)) s.encoded s.candidates :=
    h.packed.mono fun o ↦ .inl
  have hreg := registering_of_foldlM hclock hpacked (h.objName_notMem hf)
    (fun i hi ↦ .inr (List.mem_map.mpr ⟨i, List.mem_range.mpr hi, rfl⟩)) hloop
  set e : SSEntry := ⟨f, 1, filesizeMB, s.pool.ecpoolid, pl.fileobjnames, pl.fileobjlocs⟩
  have hself : (s.store.insertEntry e).ssEntryMap.lookup f = some e :=
    @StripeStore.lookup_insertEntry_self s.store e hnmap
  have hkeep : ∀ f' ∈ s.registered, ∀ e', s.store.ssEntryMap.lookup f' = some e' ↔
      (s.store.insertEntry e).ssEntryMap.lookup f' = some e' := by
    intro f' hf' e'
    refine ⟨StripeStore.lookup_insertEntry, fun he' ↦ ?_⟩
    obtain ⟨e₀, -, he₀, -⟩ := h.files f' hf'
    rw [he₀, ← he', StripeStore.lookup_insertEntry he₀]
  refine
    { packed := hreg.packed.mono fun o ho ↦ ?_
      files := fun f' hf' ↦ ?_
      flags := fun f' hf' e' he' o ho ↦ ?_
      finalized := fun f' hf' ↦ List.mem_append_left _ (h.finalized f' hf')
      pending := h.pending
      placed := (h.placed.mono hreg.grown).append hreg.placed
      indexed := fun o ho ↦ ?_ }
  · rcases ho with ⟨f', hf', e', he', ho⟩ | ho
    · exact ⟨f', List.mem_append_left _ hf', e', (hkeep f' hf' e').mp he', ho⟩
    · rw [← hreg.names] at ho
      exact ⟨f, List.mem_append_right _ List.mem_cons_self, e, hself, ho⟩
  · rw [List.mem_append, List.mem_singleton] at hf'
    rcases hf' with hf' | rfl
    · obtain ⟨e', m', he', htype, hlist⟩ := h.files f' hf'
      exact ⟨e', m', (hkeep f' hf' e').mp he', htype, hlist⟩
    · exact ⟨e, m, hself, rfl, hreg.names⟩
  · dsimp only at he' ⊢
    rw [hreg.lookup]
    rw [List.mem_append, List.mem_singleton] at hf'
    rcases hf' with hf' | rfl
    · have he' := (hkeep f' hf' e').mpr he'
      obtain ⟨i, rfl⟩ := h.mem_objList hf' he' ho
      have hnew : objName f' i ∉ pl.fileobjnames := by
        rw [hreg.names, List.mem_map]
        rintro ⟨j, -, heq⟩
        exact hf ((objName_inj.mp heq).1 ▸ hf')
      rw [if_neg hnew]
      exact h.flags f' hf' e' he' _ ho
    · obtain rfl : e = e' := Option.some.inj (hself.symm.trans he')
      rw [if_pos ho, decide_eq_false fun hfin ↦ hf (h.finalized f' hfin)]
  · obtain ⟨f', hf', e', he', ho⟩ := ho
    rw [List.mem_append, List.mem_singleton] at hf'
    rcases hf' with hf' | rfl
    · obtain ⟨i, hi⟩ := h.indexed o ⟨f', hf', e', (hkeep f' hf' e').mpr he', ho⟩
      exact ⟨i, List.mem_append_left _ hi⟩
    · obtain rfl : e = e' := Option.some.inj (hself.symm.trans he')
      have hlen : pl.fileobjnames.length = pl.stripeidxs.length := by
        rw [hreg.names, hreg.length_idxs, List.length_map, List.length_range]
      have hmem : o ∈ (pl.fileobjnames.zip pl.stripeidxs).map Prod.fst := by
        rw [List.map_fst_zip hlen.le]
        exact ho
      obtain ⟨⟨o', i⟩, hx, rfl⟩ := List.mem_map.mp hmem
      exact ⟨i, List.mem_append_right _ hx⟩

theorem finalizeFile {f : Name} (hs : next conf clock s (.finalizeFile f) = some s') : s'.Inv clock := by
  rw [next] at hs
  split_ifs at hs with hguard
  obtain ⟨hf, hnfin⟩ := hguard
  obtain ⟨r, hr, rfl⟩ := Option.map_eq_some_iff.mp hs
  obtain ⟨e, he, hr⟩ := Option.bind_eq_some_iff.mp hr
  obtain ⟨e₀, m, he₀, htype, hlist⟩ := h.files f hf
  obtain rfl : e₀ = e := Option.some.inj (he₀.symm.trans he)
  rw [if_pos htype] at hr
  have hflag : ∀ o ∈ e₀.objList, s.pool.objs.lookup o = some false := fun o ho ↦ by
    rw [h.flags f hf e₀ he o ho, decide_eq_false hnfin]
  have hnodup : e₀.objList.Nodup := by
    rw [hlist]
    exact List.nodup_range.map fun i j hij ↦ (objName_inj.mp hij).2
  have hfin := finalizing_of_foldlM h.packed hnodup hflag
    (fun o ho t i ↦ h.ne_parityName ⟨f, hf, e₀, he, ho⟩ _ t i) hr
  refine
    { packed := hfin.packed
      files := h.files
      flags := fun f' hf' e' he' o ho ↦ ?_
      finalized := fun f' hf' ↦ ?_
      pending := ?_
      placed := h.placed.mono fun t ↦ hfin.same ▸ List.prefix_refl _
      indexed := h.indexed }
  · dsimp only at he' ⊢
    rw [hfin.lookup]
    by_cases hff : f' = f
    · subst hff
      obtain rfl : e₀ = e' := Option.some.inj (he.symm.trans he')
      rw [if_pos ho, decide_eq_true (List.mem_append_right _ List.mem_cons_self)]
    · have hnot : o ∉ e₀.objList := by
        intro ho'
        obtain ⟨i, hi⟩ := h.mem_objList hf' he' ho
        obtain ⟨j, hj⟩ := h.mem_objList hf he ho'
        exact hff (objName_inj.mp (hi.symm.trans hj)).1
      rw [if_neg hnot, h.flags f' hf' e' he' o ho]
      simp [hff]
  · rw [List.mem_append, List.mem_singleton] at hf'
    exact hf'.elim (h.finalized f') fun heq ↦ heq ▸ hf
  · refine (h.pending.append_right r.2).trans ?_
    rw [List.append_assoc, List.append_assoc]
    exact List.perm_append_comm.append_left _

theorem offlineEnc {t : Name} {picks : ℕ → ℕ} (hs : next conf clock s (.offlineEnc t picks) = some s') :
    s'.Inv clock := by
  rw [next] at hs
  split_ifs at hs with ht
  obtain ⟨r, hr, rfl⟩ := Option.map_eq_some_iff.mp hs
  obtain ⟨hcand, henc⟩ := h.notMem_encoded ht
  have hr := encodingOf_offlineEnc (h.length_eq ht) hr
  have hpool : r.pool = s.pool.addObjs t (s.pool.parityObjs t) := hr.pool
  have hkeep : ∀ f' ∈ s.registered, ∀ e', s.store.ssEntryMap.lookup f' = some e' ↔
      r.store.ssEntryMap.lookup f' = some e' := by
    intro f' hf' e'
    refine ⟨hr.store f' e', fun he' ↦ ?_⟩
    obtain ⟨e₀, -, he₀, -⟩ := h.files f' hf'
    rw [he₀, ← he', hr.store f' e₀ he₀]
  have hgrown : ∀ t', s.pool.getStripeObjList t' <+: r.pool.getStripeObjList t' := by
    intro t'
    rw [hpool, OfflineECPool.getStripeObjList_addObjs]
    split_ifs with htt
    · exact htt ▸ List.prefix_append _ _
    · exact List.prefix_refl _
  refine
    { packed := ?_
      files := fun f' hf' ↦ ?_
      flags := fun f' hf' e' he' o ho ↦ ?_
      finalized := h.finalized
      pending := ?_
      placed := (h.placed.mono hgrown).append ?_
      indexed := ?_ }
  · dsimp only
    rw [hpool]
    refine (h.packed.encode (fun o ho t' i ↦ h.ne_parityName ho _ t' i) hcand henc).mono ?_
    rintro o ⟨f', hf', e', he', ho⟩
    exact ⟨f', hf', e', (hkeep f' hf' e').mp he', ho⟩
  · obtain ⟨e', m', he', htype, hlist⟩ := h.files f' hf'
    exact ⟨e', m', (hkeep f' hf' e').mp he', htype, hlist⟩
  · have he' := (hkeep f' hf' e').mpr he'
    have hdata : s.IsData o := ⟨f', hf', e', he', ho⟩
    dsimp only
    rw [hpool, OfflineECPool.lookup_objs_addObjs]
    · exact h.flags f' hf' e' he' o ho
    · intro hmem
      obtain ⟨i, -, hi⟩ := List.mem_map.mp hmem
      exact h.ne_parityName hdata _ t i hi.symm
  · refine h.pending.trans ?_
    rw [← List.append_assoc]
    have hsplit := (List.perm_cons_erase ht).append_right s.encoded
    exact hsplit.trans (List.perm_append_singleton t _).symm
  · intro x hx
    obtain ⟨y, hy, rfl⟩ := List.mem_map.mp hx
    exact ⟨t, hr.objlist y.1 y.2 (AList.mem_lookup_iff.mpr hy)⟩
  · rintro o ⟨f', hf', e', he', ho⟩
    obtain ⟨i, hi⟩ := h.indexed o ⟨f', hf', e', (hkeep f' hf' e').mpr he', ho⟩
    exact ⟨i, List.mem_append_left _ hi⟩

end Inv

theorem inv_of_reachable (hclock : StrictMono clock) (h : (system conf clock).Reachable s) :
    s.Inv clock := by
  refine System.Reachable.invariant (fun s (hs : IsInitial s) ↦ hs.inv) (fun s l s' hinv hs ↦ ?_) h
  cases l with
  | registerOfflineEC clientIp f filesizeMB picks => exact hinv.registerOfflineEC hclock hs
  | finalizeFile f => exact @Inv.finalizeFile conf clock s s' hinv f hs
  | offlineEnc t picks => exact hinv.offlineEnc hs

/-! ## Packing and encode-once -/

/-- The stripe has its `k` data objects, and their files are finalized. -/
def Complete (s : PoolRun) (t : Name) : Prop :=
  s.pool.ecpolicy.k ≤ (s.pool.getStripeObjList t).length ∧
    ∀ o ∈ (s.pool.getStripeObjList t).take s.pool.ecpolicy.k, s.IsFinal o

/-- The stripes of a pool as they should be. -/
structure WellPacked (s : PoolRun) : Prop where
  /-- A data object is in one stripe, once. -/
  one_stripe : ∀ o, s.IsData o → ∃ t, (s.pool.getStripeObjList t).count o = 1 ∧
    ∀ t', o ∈ s.pool.getStripeObjList t' → t' = t
  /-- The code indices handed out are the positions in the stripes. -/
  code_index : (∀ o, s.IsData o → ∃ i, (o, i) ∈ s.codeIdx) ∧
    ∀ o i, (o, i) ∈ s.codeIdx → ∃ t, (s.pool.getStripeObjList t)[i]? = some o
  /-- At most `k` data objects, and behind all of them the parity objects. -/
  shape : ∀ t, ∃ l : List Name, l.length ≤ s.pool.ecpolicy.k ∧ (∀ o ∈ l, s.IsData o) ∧
    (s.pool.getStripeObjList t = l ∨
      l.length = s.pool.ecpolicy.k ∧ s.pool.getStripeObjList t = l ++ s.pool.parityObjs t)
  /-- A stripe is queued once when it is complete, and never otherwise. -/
  queued : ∀ t, (s.Complete t → s.candidates.count t = 1) ∧ (¬s.Complete t → s.candidates.count t = 0)

namespace Inv

variable (h : s.Inv clock)

include h

theorem lookup_eq_true_iff {o : Name} (ho : s.IsData o) : s.pool.objs.lookup o = some true ↔ s.IsFinal o := by
  obtain ⟨f, hf, e, he, hmem⟩ := ho
  rw [h.flags f hf e he o hmem, Option.some_inj, decide_eq_true_iff]
  refine ⟨fun hfin ↦ ⟨f, hfin, e, he, hmem⟩, fun ⟨f', hfin, e', he', hmem'⟩ ↦ ?_⟩
  obtain ⟨i, hi⟩ := h.mem_objList hf he hmem
  obtain ⟨j, hj⟩ := h.mem_objList (h.finalized f' hfin) he' hmem'
  exact (objName_inj.mp (hi.symm.trans hj)).1 ▸ hfin

theorem isData_of_mem_take {o t : Name}
    (ho : o ∈ (s.pool.getStripeObjList t).take s.pool.ecpolicy.k) : s.IsData o := by
  obtain ⟨l, -, hl, hfull, heq⟩ := h.packed.shape t
  by_cases henc : t ∈ s.encoded
  · rw [heq, ← hfull henc, List.take_left] at ho
    exact hl o ho
  · rw [heq, if_neg henc, List.append_nil] at ho
    exact hl o (List.mem_of_mem_take ho)

theorem complete_iff (t : Name) : s.Complete t ↔ s.pool.Ready t := by
  refine and_congr_right fun _ ↦ forall₂_congr fun o ho ↦ ?_
  exact (h.lookup_eq_true_iff (h.isData_of_mem_take ho)).symm

theorem wellPacked : s.WellPacked where
  one_stripe o ho := by
    obtain ⟨i, hi⟩ := h.indexed o ho
    obtain ⟨t, ht⟩ := h.placed _ hi
    have hmem : o ∈ s.pool.getStripeObjList t := List.mem_of_getElem? ht
    exact ⟨t, List.count_eq_one_of_mem (h.packed.consistent.nodup t) hmem,
      fun t' ht' ↦ h.packed.consistent.eq_of_mem ht' hmem⟩
  code_index := ⟨h.indexed, fun o i hi ↦ h.placed _ hi⟩
  shape t := by
    obtain ⟨l, hlen, hl, hfull, heq⟩ := h.packed.shape t
    refine ⟨l, hlen, hl, ?_⟩
    split_ifs at heq with henc
    · exact .inr ⟨hfull henc, heq⟩
    · exact .inl (heq.trans (List.append_nil l))
  queued t := by
    rw [h.complete_iff]
    exact h.packed.queued t

end Inv

/-- **Stripes are packed and encoded once.** After every run of requests, when the clock moves on between two
stripes. -/
theorem wellPacked_of_reachable (hclock : StrictMono clock) (h : (system conf clock).Reachable s) :
    s.WellPacked :=
  (inv_of_reachable hclock h).wellPacked

/-- A run that registers a file of two objects, finalizes it and encodes its stripe. -/
theorem wellPacked_twoObjects :
    ∃ s : PoolRun, s.candidates = [stripeName 0] ∧ s.encoded = [stripeName 0] ∧ s.WellPacked := by
  let policy : ECPolicy := ⟨3, 2, 1, [], Nat.succ_pos 1, Nat.lt_succ_self 2⟩
  let conf : Config := ⟨[(['a'], 1), (['a'], 2), (['b'], 3), (['b'], 4)], false, true, 1⟩
  obtain ⟨s, hs, hq⟩ := System.Reachable.exists_of_run (S := system conf id)
    (s := ⟨⟨∅, ∅⟩, .empty ['p'] policy 4, [], [], [], [], [], []⟩) (.init ⟨_, _, _, _, rfl⟩)
    [.registerOfflineEC 1 ['f'] 7 id, .finalizeFile ['f'], .offlineEnc (stripeName 0) id]
    (p := fun s ↦ decide (s.candidates = [stripeName 0] ∧ s.encoded = [stripeName 0])) (by decide +kernel)
  have hq := of_decide_eq_true hq
  exact ⟨s, hq.1, hq.2, wellPacked_of_reachable strictMono_id hs⟩

end PoolRun

end UniDedup.Storage
