import UniDedup.Node.BufferedFingerprints

/-!
# Runs of the dedup and the filter thread on the index buffer

The dedup thread looks up whole segments, the filter thread updates the same segments in the same order,
and `index_lock` makes each of the two calls one step; any number of segments may be in flight between
them. In every state reached the queues are those of the chunks in flight, and the next update pops the
elements of its own chunks.

## The invariant

`Ok` says that the buffer is the one of the chunks in flight. Each of the two calls keeps it, whatever the other one
has done in between, and what is said of the order of the queues (`InOrder`) is read off from it at the end.
-/

namespace UniDedup.Node

open Outcome

/-! ## Segments -/

/-- The fingerprints and addresses of the chunks of a segment that have elements. -/
def occurrences (cs : List (Chunk × ℕ)) : List (Fingerprint × ℕ) :=
  (cs.filter fun p ↦ !p.1.isFileMarker).map fun p ↦ (p.1.fp, p.2)

@[simp] theorem occurrences_append (cs ds : List (Chunk × ℕ)) :
    occurrences (cs ++ ds) = occurrences cs ++ occurrences ds := by
  simp [occurrences]

theorem occurrences_cons_data {c : Chunk} (h : c.isFileMarker = false) (a : ℕ) (cs : List (Chunk × ℕ)) :
    occurrences ((c, a) :: cs) = (c.fp, a) :: occurrences cs := by
  simp [occurrences, h]

theorem occurrences_cons_marker {c : Chunk} (h : c.isFileMarker = true) (a : ℕ) (cs : List (Chunk × ℕ)) :
    occurrences ((c, a) :: cs) = occurrences cs := by
  simp [occurrences, h]

theorem length_occurrences (cs : List (Chunk × ℕ)) :
    (occurrences cs).length = chunkNum (cs.map Prod.fst) := by
  induction cs with
  | nil => rfl
  | cons p cs ih =>
    obtain ⟨c, a⟩ := p
    rw [List.map_cons, chunkNum_cons, ← ih]
    cases hm : c.isFileMarker with
    | true => rw [occurrences_cons_marker hm, if_pos rfl, Nat.zero_add]
    | false => rw [occurrences_cons_data hm, if_neg Bool.false_ne_true, List.length_cons, Nat.add_comm]

/-- The addresses that `malloc` gives for the elements of a segment: each is free when it is given. -/
def FreshFor (m : BufferMemory) (cs : List (Chunk × ℕ)) : Prop :=
  ((occurrences cs).map Prod.snd).Nodup ∧ ∀ p ∈ occurrences cs, m.elems p.2 = none

instance (m : BufferMemory) (cs : List (Chunk × ℕ)) : Decidable (FreshFor m cs) :=
  inferInstanceAs (Decidable (_ ∧ _))

/-! ## The lookup of a segment -/

variable {cfg : Config}

/-- **The turn of the lookup for a chunk** is that on the queues of ids, and neither a key nor an element
dangles. -/
theorem lookupBuffered_eq (cfg : Config) (env : LookupEnv) (useKV : Bool) {m : BufferMemory}
    {occ : List (Fingerprint × ℕ)} (h : BufferOk m occ) (cache : Lru.Cache CacheUnit) {c : Chunk}
    (hm : c.isFileMarker = false) (a : ℕ) : ∃ found : Option BufferEntry,
      found.elim [] BufferEntry.queue = addressesOf occ c.fp ∧
      lookupBuffered cfg env useKV m cache c a =
        ((lookupChunk cfg env useKV ⟨m.view, cache⟩ c).mapError .lookup >>= fun r ↦
          .ok (m.push found a r.2, r.1.cache, r.2)) := by
  obtain ⟨found, hentry, hqueue, hfound⟩ := h.entry_eq c.fp
  refine ⟨found, hqueue, ?_⟩
  have hfp : (searchStorageBuffer env c).fp = c.fp := by
    rw [searchStorageBuffer_lookedUp env c]
  have hpeek : m.peek found (searchStorageBuffer env c) =
      .ok (searchIndexBuffer m.view (searchStorageBuffer env c)) :=
    h.peek_eq (hqueue.trans (congrArg _ hfp.symm)) fun t ht ↦ (hfound t ht).2.2
  unfold lookupBuffered lookupChunk
  rw [hm, if_neg Bool.false_ne_true, if_neg Bool.false_ne_true, hentry]
  dsimp only [bind, Except.bind]
  rw [hpeek]
  dsimp only
  cases searchCache cfg cache (searchIndexBuffer m.view (searchStorageBuffer env c)) with
  | error e => rfl
  | ok r =>
    dsimp only [Except.mapError]
    cases searchKVStore cfg env useKV r.2 r.1 with
    | error e => rfl
    | ok r' => rfl

/-- A chunk of a segment and its element, before and after the lookup. -/
def LookedUpAt (p q : Chunk × ℕ) : Prop := p.1.LookedUp q.1 ∧ q.2 = p.2

/-- The turn of a loop over a segment that collects the chunks on the queues of ids. -/
def lookupTurn (cfg : Config) (env : LookupEnv) (acc : IndexState × List Chunk) (c : Chunk) :
    Except LookupAbort (IndexState × List Chunk) := do
  let (st, c) ← lookupChunk cfg env cfg.searchesKVStore acc.1 c
  return (st, acc.2 ++ [c])

/-- **Looking up a segment** keeps the invariant, and it is the lookup on the queues of ids: nothing but what
that may stop with is raised. -/
theorem post_lookupSegment (cfg : Config) (env : LookupEnv) {m : BufferMemory} {occ : List (Fingerprint × ℕ)}
    (h : BufferOk m occ) (cache : Lru.Cache CacheUnit) {cs : List (Chunk × ℕ)} (hcs : FreshFor m cs) :
    Post (lookupSegment cfg env m cache cs)
      (fun r ↦ List.Forall₂ LookedUpAt cs r.2.2 ∧ BufferOk r.1 (occ ++ occurrences r.2.2) ∧
        indexLookup cfg env ⟨m.view, cache⟩ (cs.map Prod.fst) = .ok (⟨r.1.view, r.2.1⟩, r.2.2.map Prod.fst))
      (fun e ↦ ∃ e', e = .lookup e' ∧ indexLookup cfg env ⟨m.view, cache⟩ (cs.map Prod.fst) = .error e') := by
  unfold lookupSegment
  cases hpre : prefetchSimilar cfg env cache (cs.map Prod.fst) with
  | error e =>
    refine ⟨e, rfl, ?_⟩
    unfold indexLookup
    rw [hpre]
    rfl
  | ok cache₀ =>
    have hlookup : indexLookup cfg env ⟨m.view, cache⟩ (cs.map Prod.fst) =
        (cs.map Prod.fst).foldlM (lookupTurn cfg env) (⟨m.view, cache₀⟩, []) := by
      unfold indexLookup
      rw [hpre]
      rfl
    rw [hlookup]
    -- What is still to be looked up gives the result from the state reached.
    refine Post.foldlM (I := fun done todo (acc : BufferMemory × Lru.Cache CacheUnit × List (Chunk × ℕ)) ↦
      List.Forall₂ LookedUpAt done acc.2.2 ∧ BufferOk acc.1 (occ ++ occurrences acc.2.2) ∧
      FreshFor acc.1 todo ∧
      (cs.map Prod.fst).foldlM (lookupTurn cfg env) (⟨m.view, cache₀⟩, []) =
        (todo.map Prod.fst).foldlM (lookupTurn cfg env) (⟨acc.1.view, acc.2.1⟩, acc.2.2.map Prod.fst))
      ?_ cs [] (m, cache₀, []) ⟨.nil, by simpa [occurrences] using h, hcs, rfl⟩ |>.mono ?_ fun _ he ↦ he
    · rintro done ⟨c, a⟩ todo ⟨m₁, cache₁, out⟩ ⟨hout, hok, hfresh, hrest⟩
      rw [List.map_cons, List.foldlM_cons] at hrest
      dsimp only at hout hok hfresh hrest ⊢
      cases hm : c.isFileMarker with
      | true =>
        have hturn : lookupTurn cfg env (⟨m₁.view, cache₁⟩, out.map Prod.fst) c =
            .ok (⟨m₁.view, cache₁⟩, out.map Prod.fst ++ [c]) := by
          unfold lookupTurn lookupChunk
          rw [hm, if_pos rfl]
          rfl
        rw [hturn] at hrest
        refine post_bind_of_eq (a := (m₁, cache₁, c)) (by rw [lookupBuffered, hm, if_pos rfl]) ?_
        refine ⟨List.rel_append hout (.cons ⟨.refl c, rfl⟩ .nil), ?_, ?_, ?_⟩
        · rw [occurrences_append, occurrences_cons_marker hm]
          simpa [occurrences] using hok
        · rwa [FreshFor, occurrences_cons_marker hm] at hfresh
        · rw [hrest, List.map_append]
          rfl
      | false =>
        rw [FreshFor, occurrences_cons_data hm, List.map_cons, List.nodup_cons] at hfresh
        obtain ⟨⟨hnew, hnodup⟩, hnone⟩ := hfresh
        have ha : m₁.elems a = none := hnone (c.fp, a) List.mem_cons_self
        obtain ⟨found, hfound, heq⟩ := lookupBuffered_eq cfg env cfg.searchesKVStore hok
          cache₁ hm a
        cases hl : lookupChunk cfg env cfg.searchesKVStore ⟨m₁.view, cache₁⟩ c with
        | error e =>
          have hturn : lookupTurn cfg env (⟨m₁.view, cache₁⟩, out.map Prod.fst) c = .error e := by
            unfold lookupTurn
            rw [hl]
            rfl
          rw [hturn] at hrest
          rw [heq, hl]
          exact ⟨e, rfl, hrest⟩
        | ok r =>
          obtain ⟨st, c'⟩ := r
          have hlooked : c.LookedUp c' := lookupChunk_lookedUp hl
          have hfp : c'.fp = c.fp := by rw [hlooked]
          have hm' : c'.isFileMarker = false := by
            rw [hlooked]
            exact hm
          have hst : st = ⟨m₁.view.push c', st.cache⟩ := by
            unfold lookupChunk at hl
            rw [hm, if_neg Bool.false_ne_true] at hl
            obtain ⟨_, -, hl⟩ := bind_eq_ok.mp hl
            obtain ⟨_, -, hl⟩ := bind_eq_ok.mp hl
            cases hl
            rfl
          have hfound' : found.elim [] BufferEntry.queue = addressesOf (occ ++ occurrences out) c'.fp :=
            hfound.trans (congrArg _ hfp.symm)
          have hturn : lookupTurn cfg env (⟨m₁.view, cache₁⟩, out.map Prod.fst) c =
              .ok (⟨(m₁.push found a c').view, st.cache⟩, out.map Prod.fst ++ [c']) := by
            unfold lookupTurn
            rw [hl, hok.view_push ha hfound', ← hst]
            rfl
          rw [hturn] at hrest
          rw [heq, hl]
          refine ⟨List.rel_append hout (.cons ⟨hlooked, rfl⟩ .nil), ?_, ⟨hnodup, fun p hp ↦ ?_⟩, ?_⟩
          · rw [occurrences_append, occurrences_cons_data hm', ← List.append_assoc]
            exact hok.push ha hfound'
          · refine (Function.update_of_ne ?_ ..).trans (hnone p (List.mem_cons_of_mem _ hp))
            rintro rfl
            exact hnew (List.mem_map.mpr ⟨p, hp, rfl⟩)
          · rw [hrest, List.map_append]
            rfl
    · rintro ⟨m', cache', out⟩ ⟨hout, hok, -, hrest⟩
      exact ⟨hout, hok, hrest⟩

/-! ## The update of a segment -/

/-- The filter thread changes neither the fingerprint of a chunk nor whether it is a marker. -/
def SameChunk (p : Chunk × ℕ) (c : Chunk) : Prop :=
  c.fp = p.1.fp ∧ c.isFileMarker = p.1.isFileMarker

instance : ∀ p c, Decidable (SameChunk p c) := fun _ _ ↦ inferInstanceAs (Decidable (_ ∧ _))

/-- The last chunk of a list with a fingerprint. -/
def lastWith (fp : Fingerprint) (cs : List Chunk) : Option Chunk :=
  (dataChunks cs).reverse.find? fun c ↦ c.fp = fp

theorem lastWith_concat_marker {c : Chunk} (h : c.isFileMarker = true) (fp : Fingerprint) (cs : List Chunk) :
    lastWith fp (cs ++ [c]) = lastWith fp cs := by
  rw [lastWith, dataChunks_append, dataChunks_cons_marker h]
  exact congrArg (List.find? _) (congrArg List.reverse (List.append_nil _))

theorem lastWith_concat_data {c : Chunk} (h : c.isFileMarker = false) (fp : Fingerprint) (cs : List Chunk) :
    lastWith fp (cs ++ [c]) = if c.fp = fp then some c else lastWith fp cs := by
  rw [lastWith, dataChunks_append, dataChunks_cons_data h, List.reverse_append]
  show List.find? _ (c :: (dataChunks cs).reverse) = _
  rw [List.find?_cons]
  split_ifs with hfp
  · simp [hfp]
  · simp only [hfp, decide_false]
    rfl

/-- **Updating a segment** pops the elements of its own chunks, and those that remain under a fingerprint of
the segment have the container id of its last chunk. It is the update on the queues of ids, and it stops
only where a chunk has no container id. -/
theorem post_updateSegment {m : BufferMemory} {occ : List (Fingerprint × ℕ)} {seg : List (Chunk × ℕ)}
    (h : BufferOk m (occurrences seg ++ occ)) {cs : List Chunk} (hcs : List.Forall₂ SameChunk seg cs) :
    Post (updateSegment m cs)
      (fun r ↦ BufferOk r.1 occ ∧ r.2 = (occurrences seg).map Prod.snd ∧
        (∀ fp c, lastWith fp cs = some c → ∀ a ∈ addressesOf occ fp, r.1.elems a = some ⟨c.id, fp⟩) ∧
        indexUpdateBuffer m.view cs = .ok r.1.view)
      (fun e ↦ e = .filter .temporaryId ∧ (∃ c ∈ dataChunks cs, c.id = temporaryId) ∧
        indexUpdateBuffer m.view cs = .error .temporaryId) := by
  unfold updateSegment
  refine Post.foldlM (I := fun done todo (acc : BufferMemory × List ℕ) ↦
    ∃ segTodo, List.Forall₂ SameChunk segTodo todo ∧ (∀ c ∈ todo, c ∈ cs) ∧
      BufferOk acc.1 (occurrences segTodo ++ occ) ∧
      (occurrences seg).map Prod.snd = acc.2 ++ (occurrences segTodo).map Prod.snd ∧
      (∀ fp c, lastWith fp done = some c →
        ∀ a ∈ addressesOf (occurrences segTodo ++ occ) fp, acc.1.elems a = some ⟨c.id, fp⟩) ∧
      indexUpdateBuffer m.view cs = todo.foldlM updateChunk acc.1.view)
    ?_ cs [] (m, []) ⟨seg, hcs, fun _ hc ↦ hc, h, rfl, (by intro _ _ hc; cases hc), rfl⟩ |>.mono ?_ fun _ he ↦ he
  · rintro done c todo ⟨m₁, popped⟩ ⟨segTodo, hsame, hmem, hok, hpopped, hids, hrest⟩
    rw [List.foldlM_cons] at hrest
    obtain ⟨⟨c₀, a⟩, segTodo, ⟨hfp, hmark⟩, hsame', rfl⟩ := List.forall₂_cons_right_iff.mp hsame
    dsimp only at hok hpopped hids hrest hfp hmark ⊢
    replace hmem : c ∈ cs ∧ ∀ c' ∈ todo, c' ∈ cs := List.forall_mem_cons.mp hmem
    cases hm : c.isFileMarker with
    | true =>
      have hm₀ := hmark.symm.trans hm
      have hturn : updateChunk m₁.view c = .ok m₁.view := by rw [updateChunk, hm, if_pos rfl]
      rw [hturn] at hrest
      rw [occurrences_cons_marker hm₀] at hok hpopped hids
      refine post_bind_of_eq (a := (m₁, [])) (by rw [updateBuffered, hm, if_pos rfl]) ?_
      refine ⟨segTodo, hsame', hmem.2, hok, by simpa using hpopped, fun fp c' hc' ↦ ?_, hrest⟩
      rw [lastWith_concat_marker hm] at hc'
      exact hids fp c' hc'
    | false =>
      have hm₀ := hmark.symm.trans hm
      rw [occurrences_cons_data hm₀, ← hfp] at hok hpopped hids
      have hqueue : m₁.view.queues c.fp ≠ [] := by
        rw [hok.view_queues, List.cons_append, addressesOf_cons_self]
        obtain ⟨e, he, -⟩ := Option.map_eq_some_iff.mp (hok.elems _ List.mem_cons_self)
        replace he : m₁.elems a = some e := he
        rw [List.filterMap_cons, he]
        exact List.cons_ne_nil _ _
      by_cases hid : c.id = temporaryId
      · have hbad : updateBuffered m₁ c = .error (.filter .temporaryId) := by
          unfold updateBuffered check
          rw [hm, if_neg Bool.false_ne_true, if_neg (not_not_intro hid)]
          rfl
        have hturn : updateChunk m₁.view c = .error .temporaryId := by
          unfold updateChunk check
          rw [hm, if_neg Bool.false_ne_true, if_neg (not_not_intro hid)]
          rfl
        rw [hturn] at hrest
        rw [hbad]
        exact ⟨rfl, ⟨c, mem_dataChunks.mpr ⟨hmem.1, hm⟩, hid⟩, hrest⟩
      · obtain ⟨m₂, hrun, hok₂, hrem, hframe⟩ := hok.pop hm hid
        have hturn : updateChunk m₁.view c = .ok m₂.view := by
          rw [updateChunk, hm, if_neg Bool.false_ne_true, hok.view_pop hok₂ hrem hframe]
          exact bind_eq_ok.mpr ⟨⟨⟩, check_eq_ok.mpr hid, bind_eq_ok.mpr ⟨⟨⟩, check_eq_ok.mpr hqueue, rfl⟩⟩
        rw [hturn] at hrest
        refine post_bind_of_eq hrun ?_
        refine ⟨segTodo, hsame', hmem.2, hok₂, by simpa using hpopped, fun fp c' hc' b hb ↦ ?_, hrest⟩
        rw [lastWith_concat_data hm] at hc'
        by_cases hfp' : c.fp = fp
        · subst hfp'
          rw [if_pos rfl] at hc'
          cases hc'
          exact hrem b hb
        · rw [if_neg hfp'] at hc'
          have hb₁ : b ∈ addressesOf (occurrences segTodo ++ occ) fp := hb
          have hold := hids fp c' hc' b (by rwa [List.cons_append, addressesOf_cons_of_ne hfp'])
          have hother : b ∉ addressesOf (occurrences segTodo ++ occ) c.fp := by
            intro hmem'
            have hnew := hrem b hmem'
            have hfps := hok₂.elems _ (mem_addressesOf.mp hb₁)
            replace hfps : (m₂.elems b).map IndexElem.fp = some fp := hfps
            rw [hnew] at hfps
            exact hfp' (Option.some.inj hfps)
          refine (hframe b hother ?_).trans hold
          rintro rfl
          have hnodup := hok.nodup
          rw [List.cons_append, List.map_cons, List.nodup_cons] at hnodup
          exact hnodup.1 (List.mem_map.mpr ⟨_, mem_addressesOf.mp hb₁, rfl⟩)
  · rintro ⟨m', popped⟩ ⟨segTodo, hsame, -, hok, hpopped, hids, hrest⟩
    obtain rfl := List.forall₂_nil_right_iff.mp hsame
    exact ⟨hok, by simpa [occurrences] using hpopped.symm, hids, hrest⟩

/-! ## Runs -/

/-- The index as the two threads share it. -/
structure BufferState where
  memory : BufferMemory
  cache : Lru.Cache CacheUnit
  /-- The segments that were looked up but not updated, the oldest first, as they were looked up. -/
  flight : List (List (Chunk × ℕ))
  abort : Option BufferAbort

/-- The calls under `index_lock`. -/
inductive BufferCall
  /-- The dedup thread calls `index_lookup` for a segment. -/
  | lookup (env : LookupEnv) (cs : List (Chunk × ℕ))
  /-- The filter thread calls `index_update_buffer` for a segment. -/
  | update (cs : List Chunk)

/-- A call. A full buffer stays as it is, `malloc` gives addresses that are free, and the segments are
updated in the order in which they were looked up. -/
def BufferState.call (cfg : Config) (s : BufferState) : BufferCall → Option BufferState
  | .lookup env cs =>
    if s.abort.isSome then none
    else if s.memory.isFull cfg then some s
    else if FreshFor s.memory cs then
      match lookupSegment cfg env s.memory s.cache cs with
      | .ok (m, cache, cs) => some ⟨m, cache, s.flight ++ [cs], none⟩
      | .error e => some { s with abort := some e }
    else none
  | .update cs =>
    if s.abort.isSome then none
    else
      match s.flight with
      | [] => none
      | seg :: rest =>
        if List.Forall₂ SameChunk seg cs then
          match updateSegment s.memory cs with
          | .ok (m, _) => some ⟨m, s.cache, rest, none⟩
          | .error e => some { s with abort := some e }
        else none

/-- The runs of the two threads from an empty buffer. -/
def bufferSystem (cfg : Config) : Transition.System BufferState BufferCall where
  init s := s.memory = .empty ∧ s.flight = [] ∧ s.abort = none
  next := BufferState.call cfg

namespace BufferState

/-- The chunks in flight that have elements, the oldest first. -/
def inFlight (s : BufferState) : List (Fingerprint × ℕ) := occurrences s.flight.flatten

/-- The invariant of the runs. -/
structure Ok (s : BufferState) : Prop where
  /-- The buffer is that of the chunks in flight. -/
  buffer : BufferOk s.memory s.inFlight
  /-- The program stops for a missing container id or in the searches behind the buffer only. -/
  abort : ∀ e ∈ s.abort, e = .filter .temporaryId ∨ ∃ e', e = .lookup e'

/-- **A call keeps the invariant.** -/
theorem Ok.call {s s' : BufferState} {call : BufferCall} (h : s.Ok) (hs : s.call cfg call = some s') :
    s'.Ok := by
  cases call with
  | lookup env cs =>
    rw [BufferState.call] at hs
    split_ifs at hs with hstop hfull hfresh
    · cases hs
      exact h
    · have hpost := post_lookupSegment cfg env h.buffer s.cache hfresh
      cases hl : lookupSegment cfg env s.memory s.cache cs with
      | ok r =>
        rw [hl] at hs hpost
        cases hs
        refine ⟨?_, fun e he ↦ by cases he⟩
        have hflight : occurrences (s.flight ++ [r.2.2]).flatten = s.inFlight ++ occurrences r.2.2 := by
          rw [List.flatten_append, occurrences_append, List.flatten_singleton]
          rfl
        show BufferOk r.1 (occurrences (s.flight ++ [r.2.2]).flatten)
        rw [hflight]
        exact hpost.2.1
      | error e =>
        rw [hl] at hs hpost
        cases hs
        obtain ⟨e', he', -⟩ := hpost
        refine ⟨h.buffer, fun e₁ he₁ ↦ .inr ⟨e', ?_⟩⟩
        rw [← Option.mem_some_iff.mp he₁, he']
  | update cs =>
    rw [BufferState.call] at hs
    split_ifs at hs with hstop
    split at hs
    · cases hs
    · rename_i seg rest hflight
      split_ifs at hs with hsame
      have hocc : s.inFlight = occurrences seg ++ occurrences rest.flatten := by
        rw [inFlight, hflight, List.flatten_cons, occurrences_append]
      have hpost := post_updateSegment (hocc ▸ h.buffer) hsame
      cases hu : updateSegment s.memory cs with
      | ok r =>
        rw [hu] at hs hpost
        cases hs
        exact ⟨hpost.1, fun e he ↦ by cases he⟩
      | error e =>
        rw [hu] at hs hpost
        cases hs
        refine ⟨h.buffer, fun e₁ he₁ ↦ .inl ?_⟩
        rw [← Option.mem_some_iff.mp he₁, hpost.1]

theorem ok_of_reachable {s : BufferState} (h : (bufferSystem cfg).Reachable s) : s.Ok := by
  refine h.invariant (fun s hinit ↦ ?_) fun s call s' hs _ ↦ ?_
  · obtain ⟨hmem, hflight, habort⟩ := hinit
    refine ⟨?_, fun e he ↦ by rw [habort] at he; cases he⟩
    rw [inFlight, hmem, hflight]
    exact BufferOk.empty
  · exact hs.call ‹_›

/-- **The index buffer is in order.** -/
structure InOrder (s : BufferState) : Prop where
  /-- `chunk_num` counts the chunks in flight that are not file markers. -/
  chunkNum : s.memory.chunkNum = chunkNum (s.flight.flatten.map Prod.fst)
  /-- Each of them has an element of its own, which has its fingerprint. -/
  elems : (s.inFlight.map Prod.snd).Nodup ∧
    ∀ p ∈ s.inFlight, (s.memory.elems p.2).map IndexElem.fp = some p.1
  /-- The queue of a fingerprint lists its occurrences in the order of the stream, and there is none for a
  fingerprint without occurrences. -/
  queue : ∀ fp, (s.memory.entry fp).map (Option.map BufferEntry.queue) =
    .ok (if addressesOf s.inFlight fp = [] then none else some (addressesOf s.inFlight fp))
  /-- The update of the oldest segment, where its chunks were stored, pops their own elements, and what
  remains under their fingerprints has the container id the last of them was stored in. -/
  update : ∀ seg rest cs, s.flight = seg :: rest → List.Forall₂ SameChunk seg cs →
    (∀ c ∈ dataChunks cs, c.id ≠ temporaryId) → ∃ m' : BufferMemory,
      updateSegment s.memory cs = .ok (m', (occurrences seg).map Prod.snd) ∧
        ∀ fp c, lastWith fp cs = some c → ∀ a ∈ addressesOf (occurrences rest.flatten) fp,
          m'.elems a = some ⟨c.id, fp⟩
  /-- No key and no element dangles, and no queue is missing. -/
  abort : ∀ e ∈ s.abort, e = .filter .temporaryId ∨ ∃ e', e = .lookup e'

theorem Ok.inOrder {s : BufferState} (h : s.Ok) : s.InOrder where
  chunkNum := by rw [h.buffer.chunkNum, inFlight, length_occurrences]
  elems := ⟨h.buffer.nodup, h.buffer.elems⟩
  queue fp := by
    obtain ⟨found, hentry, hqueue, hlast⟩ := h.buffer.entry_eq fp
    rw [hentry, ← hqueue]
    cases found with
    | none => rfl
    | some t =>
      have hne : t.queue ≠ [] := by
        intro hnil
        have := (hlast t rfl).2.2
        rw [hnil] at this
        cases this
      exact congrArg Except.ok (if_neg hne).symm
  update seg rest cs hflight hsame hids := by
    have hocc : s.inFlight = occurrences seg ++ occurrences rest.flatten := by
      rw [inFlight, hflight, List.flatten_cons, occurrences_append]
    have hpost := post_updateSegment (hocc ▸ h.buffer) hsame
    cases hu : updateSegment s.memory cs with
    | ok r =>
      rw [hu] at hpost
      exact ⟨r.1, by rw [← hpost.2.1], hpost.2.2.1⟩
    | error e =>
      rw [hu] at hpost
      obtain ⟨-, ⟨c, hc, hid⟩, -⟩ := hpost
      exact absurd hid (hids c hc)
  abort := h.abort

end BufferState

/-- **However the two threads interleave, the index buffer is in order.** -/
theorem indexBuffer_inOrder {s : BufferState} (h : (bufferSystem cfg).Reachable s) : s.InOrder :=
  (BufferState.ok_of_reachable h).inOrder

/-- A chunk is looked up three times in two segments, and the first segment is updated. -/
theorem indexBuffer_inOrder_twice :
    ∃ s : BufferState, s.flight.length = 1 ∧ s.memory.elems 2 = some ⟨7, Fingerprint.fill 1⟩ ∧ s.InOrder := by
  let env : LookupEnv := ⟨⟨0, [], false, []⟩, none, [], KVStore.empty⟩
  let c : Chunk := { Chunk.new .normal [] with fp := Fingerprint.fill 1 }
  let marker : Chunk := Chunk.new .fileEnd []
  let calls : List BufferCall := [.lookup env [(c, 0), (c, 1), (marker, 0)], .lookup env [(c, 2)],
    .update [{ c with id := 5 }, { c with id := 7 }, marker]]
  have hinit : (bufferSystem Config.start).Reachable ⟨.empty, Lru.Cache.new 1, [], none⟩ :=
    .init ⟨rfl, rfl, rfl⟩
  obtain ⟨s, hs, htest⟩ := hinit.exists_of_run calls (p := fun s ↦
    s.flight.length = 1 && s.memory.elems 2 = some ⟨7, Fingerprint.fill 1⟩) (by decide +kernel)
  rw [Bool.and_eq_true, decide_eq_true_eq, decide_eq_true_eq] at htest
  exact ⟨s, htest.1, htest.2, indexBuffer_inOrder hs⟩

end UniDedup.Node
