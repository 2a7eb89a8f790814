import UniDedup.Client.Routing

/-!
# Stateful routing over a run

A routing call asks Redis for the features of every node, scores the nodes by the features they share with the
group, selects one of the best and records the features of the group for it. What Redis holds for a node is then
the set of the features of all groups that were routed to it, and the score of a node speaks of these.

Without the cluster the commands are texts, split at blanks; with the cluster the key and the elements are
handed over as they are. Both come down to the same commands on the store, as a feature is written without blanks. It can
be read back from its text, so the texts that match are those of equal features.
-/

namespace UniDedup.Client.Routing

open Decimal TypedStore Outcome

/-! ## Commands as texts -/

/-- The words of a command, as `redisCommand` finds them: what stands between blanks. The first argument is the
word being read. -/
def wordsFrom : Name → Name → List Name
  | acc, [] => if acc = [] then [] else [acc]
  | acc, c :: cs =>
    if c = ' ' then if acc = [] then wordsFrom [] cs else acc :: wordsFrom [] cs
    else wordsFrom (acc ++ [c]) cs

def words (cmd : Name) : List Name := wordsFrom [] cmd

/-- The command `smembers`. -/
def smembersName : Name := "smembers".toList

/-- The command `sadd`. -/
def saddName : Name := "sadd".toList

/-- What Redis answers, and how it changes. -/
def redisCommand (db : Redis) (cmd : Name) : Except Error (Finset Name × Redis) :=
  match words cmd with
  | [c, key] =>
    if c = smembersName then (db.smembers key).map fun s ↦ (s, db) else .error .wrongArity
  | c :: key :: x :: xs =>
    if c = saddName then (db.sadd key (x :: xs)).map fun db ↦ (∅, db) else .error .wrongArity
  | _ => .error .wrongArity

/-- The loop that writes the features of a group behind `sadd` and the node, with a blank behind each but the last. -/
def saddArgs : List SampleUnit → Name
  | [] => []
  | [u] => featureText u.feature
  | u :: v :: us => featureText u.feature ++ ' ' :: saddArgs (v :: us)

/-- `smembers` of a routing call, on either path. -/
def readMembers (conf : Config) (db : Redis) (i : ℕ) : Except Error (Finset Name) :=
  if conf.redisClusterEnabled then db.smembers (toDigits i)
  else (redisCommand db (smembersName ++ ' ' :: toDigits i)).map Prod.fst

/-- `sadd` of a routing call, on either path. With the cluster the features are collected in a set first; the order of its
elements does not matter to `sadd`. -/
def recordFeatures (conf : Config) (db : Redis) (selectedNode : ℕ) (units : List SampleUnit) : Except Error Redis :=
  if conf.redisClusterEnabled then
    db.sadd (toDigits selectedNode) (units.map fun u ↦ featureText u.feature).dedup
  else (redisCommand db (saddName ++ ' ' :: (toDigits selectedNode ++ ' ' :: saddArgs units))).map Prod.snd

/-! ## Runs -/

/-- A call that succeeds: Redis answers `smembers` by what it holds, in any order, the call returns a node, and the
features are recorded for it. -/
structure RouteCall {S : Type} (d : Scoring S) (conf : Config) (db : Redis) (units : List SampleUnit) (env : RoutingEnv)
    (selectedNode : ℕ) (db' : Redis) : Prop where
  answers : ∀ i < conf.nodeNum, ∃ members, env.smembers i = .array members ∧ members.Nodup ∧
    readMembers conf db i = .ok members.toFinset
  returns : getNodeForStatefulRouting d conf env units = .ok (selectedNode : ℤ)
  records : recordFeatures conf db selectedNode units = .ok db'

/-- The groups routed so far, with their nodes. -/
abbrev History := List (List SampleUnit × ℕ)

/-- The states of Redis after a run of routing calls that all succeed, from one that holds nothing for the nodes. -/
inductive Run {S : Type} (d : Scoring S) (conf : Config) : History → Redis → Prop
  | init {db : Redis} (h : ∀ i < conf.nodeNum, db (toDigits i) = none) : Run d conf [] db
  | step {hist : History} {db db' : Redis} {units : List SampleUnit} {env : RoutingEnv} {selectedNode : ℕ}
      (h : Run d conf hist db) (hcall : RouteCall d conf db units env selectedNode db') :
      Run d conf (hist ++ [(units, selectedNode)]) db'

/-! ## Words -/

theorem wordsFrom_append (acc : Name) {w : Name} (hw : ' ' ∉ w) (cmd : Name) :
    wordsFrom acc (w ++ cmd) = wordsFrom (acc ++ w) cmd := by
  induction w generalizing acc with
  | nil => rw [List.nil_append, List.append_nil]
  | cons c w ih =>
    have hc : c ≠ ' ' := fun h ↦ hw (h ▸ List.mem_cons_self)
    rw [List.cons_append, wordsFrom, if_neg hc, ih _ fun h ↦ hw (List.mem_cons_of_mem c h), List.append_assoc,
      List.singleton_append]

theorem words_cons {w : Name} (hne : w ≠ []) (hw : ' ' ∉ w) (cmd : Name) :
    words (w ++ ' ' :: cmd) = w :: words cmd := by
  rw [words, wordsFrom_append [] hw, List.nil_append, wordsFrom, if_pos rfl, if_neg hne, words]

theorem words_single {w : Name} (hne : w ≠ []) (hw : ' ' ∉ w) : words w = [w] := by
  have h := wordsFrom_append [] hw []
  rw [List.append_nil, List.nil_append, wordsFrom, if_neg hne] at h
  exact h

theorem blank_notMem_toDigits (n : ℕ) : ' ' ∉ toDigits n := not_mem_toDigits (by decide)

theorem blank_notMem_featureText (fp : Fingerprint) : ' ' ∉ featureText fp := by
  intro h
  obtain ⟨b, -, hb⟩ := List.mem_flatMap.mp h
  rcases List.mem_append.mp hb with hb | hb
  · exact blank_notMem_toDigits _ hb
  · exact absurd (List.mem_singleton.mp hb) (by decide)

private theorem bytesText_injective {as bs : List UInt8}
    (h : as.flatMap (fun b ↦ toDigits b.toNat ++ ['_']) = bs.flatMap fun b ↦ toDigits b.toNat ++ ['_']) : as = bs := by
  have hne : ∀ (b : UInt8) (bs : List UInt8), (b :: bs).flatMap (fun b ↦ toDigits b.toNat ++ ['_']) ≠ [] := by
    intro b bs hnil
    rw [List.flatMap_cons] at hnil
    exact toDigits_ne_nil (List.append_eq_nil_iff.mp (List.append_eq_nil_iff.mp hnil).1).1
  -- the first number is what stands before the first separator
  have hfirst : ∀ (b : UInt8) (bs : List UInt8),
      ((b :: bs).flatMap fun b ↦ toDigits b.toNat ++ ['_']).takeWhile (· ≠ '_') = toDigits b.toNat := by
    intro b bs
    rw [List.flatMap_cons, List.append_assoc, List.takeWhile_append_of_pos, List.singleton_append,
      List.takeWhile_cons_of_neg (by decide), List.append_nil]
    intro c hc
    refine decide_eq_true fun heq ↦ ?_
    rw [heq] at hc
    exact not_mem_toDigits (by decide) hc
  induction as generalizing bs with
  | nil =>
    cases bs with
    | nil => rfl
    | cons b bs => exact absurd h.symm (hne b bs)
  | cons a as ih =>
    cases bs with
    | nil => exact absurd h (hne a as)
    | cons b bs =>
      have hdigits : toDigits a.toNat = toDigits b.toNat := by
        rw [← hfirst a as, h, hfirst b bs]
      obtain rfl := UInt8.toNat_inj.mp (toDigits_injective hdigits)
      rw [List.flatMap_cons, List.flatMap_cons] at h
      rw [ih (List.append_cancel_left h)]

theorem featureText_injective : Function.Injective featureText := fun _ _ h ↦
  Subtype.ext (bytesText_injective h)

theorem featureText_ne_nil (fp : Fingerprint) : featureText fp ≠ [] := by
  intro h
  have hnil : fp.toList = [] := @bytesText_injective _ [] h
  have hlength := fp.toList_length
  rw [hnil] at hlength
  exact absurd hlength (by decide)

theorem words_saddArgs {units : List SampleUnit} :
    words (saddArgs units) = units.map fun u ↦ featureText u.feature := by
  induction units with
  | nil => rfl
  | cons u units ih =>
    cases units with
    | nil => exact words_single (featureText_ne_nil _) (blank_notMem_featureText _)
    | cons v units =>
      rw [saddArgs, words_cons (featureText_ne_nil _) (blank_notMem_featureText _), ih]
      rfl

/-! ## Both paths -/

section Paths

variable {conf : Config} {db db' : Redis} {units : List SampleUnit} {n : ℕ}

theorem readMembers_eq (conf : Config) (db : Redis) (i : ℕ) : readMembers conf db i = db.smembers (toDigits i) := by
  rw [readMembers]
  split_ifs
  · rfl
  · have hwords : words (smembersName ++ ' ' :: toDigits i) = [smembersName, toDigits i] := by
      rw [words_cons (by decide) (by decide), words_single toDigits_ne_nil (blank_notMem_toDigits i)]
    rw [redisCommand, hwords]
    dsimp only
    rw [if_pos rfl]
    cases db.smembers (toDigits i) <;> rfl

/-- The features of a list of units, as Redis has them. -/
def featureTexts (units : List SampleUnit) : Finset Name := (units.map fun u ↦ featureText u.feature).toFinset

theorem mem_featureTexts {u : SampleUnit} :
    featureText u.feature ∈ featureTexts units ↔ ∃ v ∈ units, v.feature = u.feature := by
  rw [featureTexts, List.mem_toFinset, List.mem_map]
  constructor
  · rintro ⟨v, hv, h⟩
    exact ⟨v, hv, featureText_injective h⟩
  · rintro ⟨v, hv, h⟩
    exact ⟨v, hv, congrArg featureText h⟩

/-- On either path the features of the group are added to those of the node. -/
theorem recordFeatures_ok (h : recordFeatures conf db n units = .ok db') :
    ∃ s, db.smembers (toDigits n) = .ok s ∧
      db' = Function.update db (toDigits n) (some (.set (s ∪ featureTexts units))) := by
  have hsadd : ∃ xs : List Name, db.sadd (toDigits n) xs = .ok db' ∧ xs.toFinset = featureTexts units := by
    rw [recordFeatures] at h
    split_ifs at h
    · refine ⟨_, h, ?_⟩
      ext x
      rw [featureTexts, List.mem_toFinset, List.mem_toFinset, List.mem_dedup]
    -- without a cluster the command is a text, which is split into words
    · refine ⟨units.map fun u ↦ featureText u.feature, ?_, rfl⟩
      have hwords : words (saddName ++ ' ' :: (toDigits n ++ ' ' :: saddArgs units)) =
          saddName :: toDigits n :: units.map fun u ↦ featureText u.feature := by
        rw [words_cons (by decide) (by decide), words_cons toDigits_ne_nil (blank_notMem_toDigits n), words_saddArgs]
      rw [redisCommand, hwords] at h
      cases units with
      | nil =>
        rw [List.map_nil] at h
        dsimp only at h
        rw [if_neg (by decide)] at h
        cases h
      | cons u units =>
        rw [List.map_cons] at h ⊢
        dsimp only at h
        rw [if_pos rfl] at h
        cases hadd : db.sadd (toDigits n) (featureText u.feature :: units.map fun u ↦ featureText u.feature) with
        | error e =>
          rw [hadd] at h
          cases h
        | ok db'' =>
          rw [hadd] at h
          exact congrArg Except.ok (Except.ok.inj h)
  obtain ⟨xs, hsadd, hxs⟩ := hsadd
  rw [← hxs]
  rcases Store.sadd_ok hsadd with ⟨hnone, hdb'⟩ | ⟨s, hsome, hdb'⟩
  · exact ⟨∅, by rw [Store.smembers, hnone], by rw [hdb', Finset.empty_union]⟩
  · exact ⟨s, by rw [Store.smembers, hsome], hdb'⟩

end Paths

/-! ## What Redis holds after a run -/

section History

variable {S : Type} {d : Scoring S} {conf : Config} {hist : History} {db : Redis} {i : ℕ}

/-- The features of the groups that were routed to a node. -/
def featuresOf (hist : History) (i : ℕ) : Finset Name :=
  featureTexts ((hist.filter fun g ↦ g.2 = i).flatMap Prod.fst)

theorem featureTexts_append (us vs : List SampleUnit) :
    featureTexts (us ++ vs) = featureTexts us ∪ featureTexts vs := by
  rw [featureTexts, List.map_append, List.toFinset_append, featureTexts, featureTexts]

theorem featuresOf_concat (hist : History) (units : List SampleUnit) (n i : ℕ) :
    featuresOf (hist ++ [(units, n)]) i = if n = i then featuresOf hist i ∪ featureTexts units else featuresOf hist i := by
  rw [featuresOf, List.filter_append, List.flatMap_append, featureTexts_append]
  split_ifs with hn
  · rw [List.filter_cons_of_pos (by simpa using hn), List.filter_nil, List.flatMap_singleton, featuresOf]
  · rw [List.filter_cons_of_neg (by simpa using hn), List.filter_nil, List.flatMap_nil, featuresOf]
    exact Finset.union_empty _

theorem mem_featuresOf {u : SampleUnit} :
    featureText u.feature ∈ featuresOf hist i ↔ ∃ g ∈ hist, g.2 = i ∧ ∃ v ∈ g.1, v.feature = u.feature := by
  rw [featuresOf, mem_featureTexts]
  constructor
  · rintro ⟨v, hv, heq⟩
    obtain ⟨g, hg, hvg⟩ := List.mem_flatMap.mp hv
    exact ⟨g, List.mem_of_mem_filter hg, of_decide_eq_true (List.mem_filter.mp hg).2, v, hvg, heq⟩
  · rintro ⟨g, hg, hi, v, hv, heq⟩
    exact ⟨v, List.mem_flatMap.mpr ⟨g, List.mem_filter.mpr ⟨hg, decide_eq_true hi⟩, hv⟩, heq⟩

/-- **The sets of features are the history.** -/
theorem Run.smembers_eq (h : Run d conf hist db) (hi : i < conf.nodeNum) :
    db.smembers (toDigits i) = .ok (featuresOf hist i) := by
  induction h with
  | init hnone => rw [Store.smembers, hnone i hi]; rfl
  | @step hist db db' units env n h hcall ih =>
    obtain ⟨s, hs, rfl⟩ := recordFeatures_ok hcall.records
    rw [featuresOf_concat, Store.smembers]
    split_ifs with hn
    · rw [hn] at hs ⊢
      rw [Function.update_self]
      rw [Except.ok.inj (hs.symm.trans ih)]
    · rw [Function.update_of_ne fun heq ↦ hn (toDigits_injective heq).symm]
      exact ih

end History

/-! ## Matching -/

section Matching

variable {units : List SampleUnit}

/-- The number and the total size of the units that meet a condition. -/
def tally (p : SampleUnit → Prop) [DecidablePred p] (units : List SampleUnit) : ℕ × ℕ :=
  ((units.filter (p ·)).length, ((units.filter (p ·)).map SampleUnit.size).sum)

theorem tally_cons (p : SampleUnit → Prop) [DecidablePred p] (u : SampleUnit) (units : List SampleUnit) :
    tally p (u :: units) =
      if p u then ((tally p units).1 + 1, (tally p units).2 + u.size) else tally p units := by
  by_cases hu : p u
  · have hfilter : (u :: units).filter (p ·) = u :: units.filter (p ·) :=
      List.filter_cons_of_pos (by simpa using hu)
    rw [if_pos hu, tally, hfilter, List.length_cons, List.map_cons, List.sum_cons,
      Nat.add_comm u.size]
    rfl
  · have hfilter : (u :: units).filter (p ·) = units.filter (p ·) :=
      List.filter_cons_of_neg (by simpa using hu)
    rw [if_neg hu, tally, hfilter]
    rfl

theorem tally_le (p : SampleUnit → Prop) [DecidablePred p] (units : List SampleUnit) :
    (tally p units).2 ≤ (units.map SampleUnit.size).sum := by
  induction units with
  | nil => exact le_rfl
  | cons u units ih =>
    rw [tally_cons, List.map_cons, List.sum_cons]
    split_ifs
    · dsimp only
      omega
    · omega

theorem tally_or (p q : SampleUnit → Prop) [DecidablePred p] [DecidablePred q] (hpq : ∀ u, p u → ¬q u)
    (units : List SampleUnit) :
    tally (fun u ↦ p u ∨ q u) units =
      ((tally p units).1 + (tally q units).1, (tally p units).2 + (tally q units).2) := by
  induction units with
  | nil => rfl
  | cons u units ih =>
    rw [tally_cons, tally_cons, tally_cons, ih]
    by_cases hp : p u
    · rw [if_pos (.inl hp), if_pos hp, if_neg (hpq u hp)]
      ext <;> dsimp only <;> omega
    · by_cases hq : q u
      · rw [if_pos (.inr hq), if_neg hp, if_pos hq]
        ext <;> dsimp only <;> omega
      · rw [if_neg (not_or.mpr ⟨hp, hq⟩), if_neg hp, if_neg hq]

theorem foldl_units (m : Name) (st : ℕ × ℕ) :
    units.foldl (fun st u ↦ if featureText u.feature = m then (st.1 + 1, st.2 + u.size) else st) st =
      (st.1 + (tally (fun u ↦ featureText u.feature = m) units).1,
        st.2 + (tally (fun u ↦ featureText u.feature = m) units).2) := by
  induction units generalizing st with
  | nil => rfl
  | cons u units ih =>
    rw [List.foldl_cons, ih, tally_cons]
    split_ifs
    · ext <;> dsimp only <;> omega
    · rfl

/-- **What the loops over the members and the units count**: the units whose feature is a member. -/
theorem matchNode_eq {members : List Name} (hmembers : members.Nodup) :
    matchNode units members = tally (fun u ↦ featureText u.feature ∈ members) units := by
  have hloop : ∀ st : ℕ × ℕ, members.foldl (fun st m ↦ units.foldl (fun st u ↦
      if featureText u.feature = m then (st.1 + 1, st.2 + u.size) else st) st) st =
        (st.1 + (tally (fun u ↦ featureText u.feature ∈ members) units).1,
          st.2 + (tally (fun u ↦ featureText u.feature ∈ members) units).2) := by
    induction members with
    | nil =>
      intro st
      have hnone : tally (fun u ↦ featureText u.feature ∈ ([] : List Name)) units = (0, 0) := by
        simp [tally]
      rw [hnone]
      rfl
    | cons m members ih =>
      intro st
      obtain ⟨hm, hnodup⟩ := List.nodup_cons.mp hmembers
      have hsplit : tally (fun u ↦ featureText u.feature ∈ m :: members) units =
          tally (fun u ↦ featureText u.feature = m ∨ featureText u.feature ∈ members) units := by
        simp only [tally, List.mem_cons]
      rw [List.foldl_cons, foldl_units, ih hnodup, hsplit,
        tally_or (fun u ↦ featureText u.feature = m) _ fun u hu hmem ↦ hm (hu ▸ hmem)]
      ext <;> dsimp only <;> omega
  rw [matchNode, hloop]
  simp only [Nat.zero_add]

theorem matchNodes_eq {env : RoutingEnv} {members : ℕ → List Name} {is : List ℕ}
    (h : ∀ i ∈ is, env.smembers i = .array (members i)) :
    matchNodes env units is = .ok (some (is.map fun i ↦ matchNode units (members i))) := by
  induction is with
  | nil => rfl
  | cons i is ih =>
    rw [matchNodes, h i List.mem_cons_self, ih fun j hj ↦ h j (List.mem_cons_of_mem i hj)]
    rfl

end Matching

/-! ## The selection -/

section Selection

variable {scores : List ℚ}

/-- The loop that looks for the largest score: nothing before is larger than what it has, and that is the initial zero or
the score at the index it has. -/
theorem foldl_max (l : List (ℚ × ℕ)) (st : ℚ × ℕ) :
    let best := l.foldl (fun st p ↦ if exactScoring.gt p.1 st.1 then p else st) st
    st.1 ≤ best.1 ∧ (∀ p ∈ l, p.1 ≤ best.1) ∧ (best = st ∨ best ∈ l) := by
  induction l generalizing st with
  | nil => exact ⟨le_rfl, fun p hp ↦ absurd hp List.not_mem_nil, .inl rfl⟩
  | cons p l ih =>
    have hstep : st.1 ≤ (if exactScoring.gt p.1 st.1 then p else st).1 ∧
        p.1 ≤ (if exactScoring.gt p.1 st.1 then p else st).1 := by
      split_ifs with hgt
      · exact ⟨(of_decide_eq_true hgt : st.1 < p.1).le, le_rfl⟩
      · exact ⟨le_rfl, not_lt.mp fun h ↦ hgt (decide_eq_true h)⟩
    obtain ⟨hle, hall, hbest⟩ := ih (if exactScoring.gt p.1 st.1 then p else st)
    refine ⟨hstep.1.trans hle, fun q hq ↦ ?_, ?_⟩
    · rcases List.mem_cons.mp hq with rfl | hq
      · exact hstep.2.trans hle
      · exact hall q hq
    · rw [List.foldl_cons]
      rcases hbest with hbest | hbest
      · rw [hbest]
        split_ifs
        exacts [.inr List.mem_cons_self, .inl rfl]
      · exact .inr (List.mem_cons_of_mem p hbest)

/-- **The node that is selected has the largest score**, when some score is not negative. -/
theorem getSelectedNode_max (hpos : ∃ x ∈ scores, 0 ≤ x) (rand : ℕ) :
    ∃ x, scores[getSelectedNode exactScoring scores rand]? = some x ∧ ∀ y ∈ scores, y ≤ x := by
  obtain ⟨hzero, hall, hbest⟩ := foldl_max scores.zipIdx (exactScoring.zero, 0)
  have hmax : ∀ y ∈ scores, y ≤ (scores.zipIdx.foldl (fun st p ↦ if exactScoring.gt p.1 st.1 then p else st)
      (exactScoring.zero, 0)).1 := by
    intro y hy
    obtain ⟨i, hi⟩ := List.getElem?_of_mem hy
    exact hall (y, i) (List.mk_mem_zipIdx_iff_getElem?.mpr hi)
  rw [getSelectedNode]
  generalize scores.zipIdx.foldl (fun st p ↦ if exactScoring.gt p.1 st.1 then p else st) (exactScoring.zero, 0) = best
    at hzero hmax hbest ⊢
  obtain ⟨maxScore, selectNode⟩ := best
  dsimp only at hzero hmax hbest ⊢
  -- some node has the largest score, the initial zero included
  have hsome : ∃ i, (maxScore, i) ∈ scores.zipIdx := by
    rcases hbest with hbest | hbest
    · obtain ⟨x, hx, hnonneg⟩ := hpos
      obtain ⟨i, hi⟩ := List.getElem?_of_mem hx
      have hzero' : maxScore = 0 := congrArg Prod.fst hbest
      obtain rfl : x = maxScore := le_antisymm (hmax x hx) (hzero' ▸ hnonneg)
      exact ⟨i, List.mk_mem_zipIdx_iff_getElem?.mpr hi⟩
    · exact ⟨selectNode, hbest⟩
  obtain ⟨i, hi⟩ := hsome
  have hmem : i ∈ (scores.zipIdx.filter fun p ↦ exactScoring.eq p.1 maxScore).map Prod.snd :=
    List.mem_map.mpr ⟨(maxScore, i), List.mem_filter.mpr ⟨hi, beq_self_eq_true maxScore⟩, rfl⟩
  have hlength := List.length_pos_of_mem hmem
  rw [if_neg hlength.ne', List.getD_eq_getElem _ _ (Nat.mod_lt rand hlength)]
  obtain ⟨p, hp, hpi⟩ := List.mem_map.mp (List.getElem_mem (Nat.mod_lt rand hlength))
  obtain ⟨hp, hscore⟩ := List.mem_filter.mp hp
  refine ⟨maxScore, ?_, hmax⟩
  rw [← hpi, ← (eq_of_beq hscore : p.1 = maxScore)]
  exact List.mk_mem_zipIdx_iff_getElem?.mp hp

end Selection

/-! ## Best nodes from the history -/

section Best

variable {conf : Config} {hist : History} {db db' : Redis} {units : List SampleUnit} {env : RoutingEnv} {n : ℕ}

/-- `node_match_num` and `node_match_size` as they should be: the units whose feature is one of a unit of a group that
was routed to the node. -/
def matched (hist : History) (units : List SampleUnit) (i : ℕ) : ℕ × ℕ :=
  tally (fun u ↦ ∃ g ∈ hist, g.2 = i ∧ ∃ v ∈ g.1, v.feature = u.feature) units

def nodeScore (conf : Config) (hist : History) (units : List SampleUnit) (i : ℕ) : ℚ :=
  (matched hist units i).1 * ((matched hist units i).2 / (units.map SampleUnit.size).sum) *
    (conf.computingPowerVec.getD i 0 / conf.computingPowerVec.sum)

theorem matchNodes_matched {S : Type} {d : Scoring S} (hrun : Run d conf hist db)
    (hcall : RouteCall d conf db units env n db') :
    matchNodes env units (List.range conf.nodeNum) =
      .ok (some ((List.range conf.nodeNum).map (matched hist units))) := by
  have hmembers : ∀ i, ∃ members, i < conf.nodeNum → env.smembers i = .array members ∧
      matchNode units members = matched hist units i := by
    intro i
    by_cases hi : i < conf.nodeNum
    · obtain ⟨members, hsmembers, hnodup, hread⟩ := hcall.answers i hi
      refine ⟨members, fun _ ↦ ⟨hsmembers, ?_⟩⟩
      rw [readMembers_eq, hrun.smembers_eq hi] at hread
      have hiff : ∀ u : SampleUnit, featureText u.feature ∈ members ↔
          ∃ g ∈ hist, g.2 = i ∧ ∃ v ∈ g.1, v.feature = u.feature := fun u ↦ by
        rw [← mem_featuresOf, Except.ok.inj hread, List.mem_toFinset]
      rw [matchNode_eq hnodup, matched]
      simp only [tally, hiff]
    · exact ⟨[], fun h ↦ absurd h hi⟩
  choose members hmembers using hmembers
  have hmap : (List.range conf.nodeNum).map (fun i ↦ matchNode units (members i)) =
      (List.range conf.nodeNum).map (matched hist units) :=
    List.map_congr_left fun i hi ↦ (hmembers i (List.mem_range.mp hi)).2
  rw [matchNodes_eq fun i hi ↦ (hmembers i (List.mem_range.mp hi)).1, hmap]

theorem selected_of_returns {S : Type} {d : Scoring S} {found : List (ℕ × ℕ)}
    (hfound : matchNodes env units (List.range conf.nodeNum) = .ok (some found))
    (hreturns : getNodeForStatefulRouting d conf env units = .ok (n : ℤ)) :
    n = getSelectedNode d (List.zipWith (fun m p ↦ d.score m.1 m.2 (units.map SampleUnit.size).sum p
      conf.computingPowerVec.sum) found conf.computingPowerVec) env.rand ∧ n < conf.nodeNum := by
  have hminus : (Except.ok (-1) : Except RoutingFault ℤ) ≠ .ok (n : ℤ) := by
    intro h
    have := Except.ok.inj h
    omega
  have hcheck : ∀ {p : Prop} [Decidable p] {e : RoutingFault} {k : Unit → Except RoutingFault ℤ},
      (check p e >>= k) = .ok (n : ℤ) → p ∧ k () = .ok (n : ℤ) := by
    intro p _ e k h
    by_cases hp : p
    · rw [check, if_pos hp] at h
      exact ⟨hp, h⟩
    · rw [check, if_neg hp] at h
      cases h
  obtain ⟨-, hreturns⟩ := hcheck hreturns
  rw [hfound] at hreturns
  obtain ⟨-, hreturns⟩ := hcheck hreturns
  obtain ⟨-, hreturns⟩ := hcheck hreturns
  cases hsadd : env.sadd with
  | null =>
    rw [hsadd] at hreturns
    cases hreturns
  | error =>
    rw [hsadd] at hreturns
    exact absurd hreturns hminus
  | other =>
    rw [hsadd] at hreturns
    obtain ⟨hn, hreturns⟩ := hcheck hreturns
    have heq : n = getSelectedNode d _ env.rand := (Int.ofNat.inj (Except.ok.inj hreturns)).symm
    exact ⟨heq, heq ▸ hn⟩

private theorem exists_pos_of_sum_pos {l : List ℤ} (h : 0 < l.sum) : ∃ x ∈ l, 0 < x := by
  induction l with
  | nil => exact absurd h (by decide)
  | cons x l ih =>
    by_cases hx : 0 < x
    · exact ⟨x, List.mem_cons_self, hx⟩
    · rw [List.sum_cons] at h
      obtain ⟨y, hy, hpos⟩ := ih (by omega)
      exact ⟨y, List.mem_cons_of_mem x hy, hpos⟩

/-- Some node has a score that is not negative: one with a positive power. -/
theorem exists_nodeScore_nonneg (hpowers : conf.computingPowerVec.length = conf.nodeNum)
    (htotal : 0 < conf.computingPowerVec.sum) : ∃ i < conf.nodeNum, 0 ≤ nodeScore conf hist units i := by
  obtain ⟨p, hp, hpos⟩ := exists_pos_of_sum_pos htotal
  obtain ⟨i, hi⟩ := List.getElem?_of_mem hp
  obtain ⟨hlt, hi⟩ := List.getElem?_eq_some_iff.mp hi
  refine ⟨i, hpowers ▸ hlt, mul_nonneg ?_ ?_⟩
  · exact mul_nonneg (Nat.cast_nonneg _) (div_nonneg (Nat.cast_nonneg _) (Nat.cast_nonneg _))
  · rw [List.getD_eq_getElem _ _ hlt, hi]
    exact div_nonneg (Int.cast_nonneg hpos.le) (Int.cast_nonneg htotal.le)

theorem zipWith_matched (hpowers : conf.computingPowerVec.length = conf.nodeNum) :
    List.zipWith (fun m p ↦ exactScoring.score m.1 m.2 (units.map SampleUnit.size).sum p conf.computingPowerVec.sum)
        ((List.range conf.nodeNum).map (matched hist units)) conf.computingPowerVec =
      (List.range conf.nodeNum).map (nodeScore conf hist units) := by
  refine List.ext_getElem ?_ fun i hi _ ↦ ?_
  · rw [List.length_zipWith, List.length_map, List.length_map, List.length_range, hpowers, min_self]
  · rw [List.length_zipWith, List.length_map, List.length_range, hpowers, min_self] at hi
    rw [List.getElem_zipWith, List.getElem_map, List.getElem_map, List.getElem_range, nodeScore,
      List.getD_eq_getElem _ _ (hpowers.symm ▸ hi)]
    rfl

/-- **Stateful routing picks a best node from exact history.** -/
theorem stateful_routing_best (hpowers : conf.computingPowerVec.length = conf.nodeNum)
    (htotal : 0 < conf.computingPowerVec.sum) (hrun : Run exactScoring conf hist db)
    (hcall : RouteCall exactScoring conf db units env n db') :
    matchNodes env units (List.range conf.nodeNum) =
        .ok (some ((List.range conf.nodeNum).map (matched hist units))) ∧
      (∀ i < conf.nodeNum, (matched hist units i).2 ≤ (units.map SampleUnit.size).sum) ∧
      n < conf.nodeNum ∧ ∀ i < conf.nodeNum, nodeScore conf hist units i ≤ nodeScore conf hist units n := by
  have hfound := matchNodes_matched hrun hcall
  obtain ⟨hselected, hn⟩ := selected_of_returns hfound hcall.returns
  refine ⟨hfound, fun i _ ↦ tally_le _ _, hn, ?_⟩
  rw [zipWith_matched hpowers] at hselected
  have hscore : ∀ i < conf.nodeNum, nodeScore conf hist units i ∈
      (List.range conf.nodeNum).map (nodeScore conf hist units) :=
    fun i hi ↦ List.mem_map_of_mem (List.mem_range.mpr hi)
  obtain ⟨j, hj, hnonneg⟩ := @exists_nodeScore_nonneg _ hist units hpowers htotal
  obtain ⟨x, hx, hmax⟩ := getSelectedNode_max ⟨_, hscore j hj, hnonneg⟩ env.rand
  rw [← hselected, List.getElem?_map, List.getElem?_range hn] at hx
  obtain rfl : nodeScore conf hist units n = x := Option.some.inj hx
  exact fun i hi ↦ hmax _ (hscore i hi)

/-- Two nodes of the same power, without the cluster. -/
def twoNodes : Config := ⟨2, by decide, false, true, [1, 1]⟩

/-- A group was routed to node 1 by chance, as no node had features. The next group shares one of its two units with it and
goes to node 1 too, although `rand` would pick node 0 of two equal ones. -/
theorem stateful_routing_best_secondGroup :
    let first : List SampleUnit := [⟨Fingerprint.fill 0, 1⟩]
    let units : List SampleUnit := [⟨Fingerprint.fill 0, 3⟩, ⟨Fingerprint.fill 5, 1⟩]
    let env : RoutingEnv :=
      ⟨true, fun i ↦ .array (if i = 1 then [featureText (Fingerprint.fill 0)] else []), true, .other, 0⟩
    getNodeForStatefulRouting exactScoring twoNodes env units = .ok 1 ∧
      matchNodes env units (List.range 2) = .ok (some [(0, 0), (1, 3)]) ∧
      ∀ i < 2, nodeScore twoNodes [(first, 1)] units i ≤ nodeScore twoNodes [(first, 1)] units 1 := by
  intro first units env
  let feature := featureText (Fingerprint.fill 0)
  let db : Redis := Function.update (fun _ ↦ none) ['1'] (some (.set {feature}))
  have hfirst : RouteCall exactScoring twoNodes (fun _ ↦ none) first ⟨true, fun _ ↦ .array [], true, .other, 1⟩ 1 db :=
    ⟨fun i _ ↦ ⟨[], rfl, List.nodup_nil, by rw [readMembers_eq]; rfl⟩, by decide +kernel, rfl⟩
  have hreturns : getNodeForStatefulRouting exactScoring twoNodes env units = .ok 1 := by decide +kernel
  have hcall : RouteCall exactScoring twoNodes db units env 1
      (Function.update db ['1'] (some (.set ({feature} ∪ featureTexts units)))) := by
    refine ⟨fun i hi ↦ ?_, hreturns, rfl⟩
    obtain rfl | rfl : i = 0 ∨ i = 1 := by
      have hlt : i < 2 := hi
      omega
    · exact ⟨[], rfl, List.nodup_nil, by rw [readMembers_eq]; rfl⟩
    · exact ⟨[feature], rfl, List.nodup_singleton _, by rw [readMembers_eq]; rfl⟩
  obtain ⟨hfound, -, -, hbest⟩ :=
    stateful_routing_best rfl (by decide) (.step (.init fun _ _ ↦ rfl) hfirst) hcall
  have hmatched : (List.range 2).map (matched [(first, 1)] units) = [(0, 0), (1, 3)] := by decide +kernel
  exact ⟨hreturns, hfound.trans (congrArg (Except.ok ∘ some) hmatched), hbest⟩

end Best

end UniDedup.Client.Routing
