import UniDedup.Storage.CodeGraphs
import UniDedup.Storage.Executor

/-!
# The executors are faithful to the graph

Which graphs the two compilers and the executors in the client agree on. A node with several targets whose
only child is a leaf has a task for an agent and none for a client. Where there is none, an executor runs
through and computes the headers exactly when every leaf that is read is in a packet it holds, and an online
write, which keeps the packets it reads apart from the ones it writes, reads no sub-packet of the stripe
that it computes itself.
-/

namespace UniDedup.Storage

open ECDAG

namespace ECDAG

/-- The compilers make the same compute task for every node, with whatever addresses. -/
def CompilersAgree (dag : ECDAG) : Prop :=
  ∀ id nodeIp ip, dag.parseForClient id = (dag.parseForOEC nodeIp ip id).bind OECTasks.compute

theorem compilersAgree_iff (dag : ECDAG) : CompilersAgree dag ↔ ∀ id, ¬dag.Skipped id :=
  ⟨fun h id ↦ (dag.parseForClient_eq_iff 0 0 id).mp (h id 0 0),
    fun h id nodeIp ip ↦ (dag.parseForClient_eq_iff nodeIp ip id).mpr (h id)⟩

/-- The executor runs through on every data, and every header ends up with its value in its buffer. -/
def Faithful (dag : ECDAG) (run : (ℕ → GF256) → Option Buffers) : Prop :=
  ∀ env, ∃ s, run env = some s ∧ HeadersDone dag env s

/-- **When the executors are faithful.** The compilers agree on a graph exactly when no node is skipped. On a
well formed graph on which they do, the executors compute the headers exactly when they hold what is read. -/
theorem faithful_iff (dag : ECDAG) :
    (CompilersAgree dag ↔ ∀ id, ¬dag.Skipped id) ∧
    (WellFormed dag → ∀ order : List ℕ, order.Perm dag.nodes.keys → ∀ eck ecw, 0 < ecw →
      (∀ ecn, eck ≤ ecn → (∀ id < eck * ecw, dag.shape id = none ∨ IsLeaf dag.shape id) →
        (CompilersAgree dag ∧
          Faithful dag (fun data ↦ onlineEncode ecn eck ecw data (dag.computeTasks order)) ↔
        (∀ id, ¬dag.Skipped id) ∧ EncodeReadable dag ecn eck ecw)) ∧
      (∀ ecn idlist, (∀ c, IsLeaf dag.shape c → c / ecw < eck → c / ecw ∈ idlist) →
        (CompilersAgree dag ∧
          Faithful dag (fun env ↦ degradedRead ecn eck ecw idlist env (dag.computeTasks order)) ↔
        (∀ id, ¬dag.Skipped id) ∧ InStripe ecn eck idlist ∧ LeavesLoaded dag (· / ecw ∈ idlist))) ∧
      ∀ lostidx cids, (∀ c, IsLeaf dag.shape c → c / ecw ≠ lostidx) →
        (CompilersAgree dag ∧
          Faithful dag (fun env ↦ degradedOffline ecw lostidx cids env (dag.computeTasks order)) ↔
        (∀ id, ¬dag.Skipped id) ∧ LeavesLoaded dag (· ∈ cids))) := by
  have hagree := compilersAgree_iff dag
  refine ⟨hagree, fun hwf order horder eck ecw hw ↦ ⟨fun ecn hkn hdata ↦ ?_, fun ecn idlist hlost ↦ ?_,
    fun lostidx cids hlost ↦ ?_⟩⟩
  · rw [hagree]
    exact and_congr_right fun hskip ↦ onlineEncode_iff hwf horder hskip hkn hdata
  · rw [hagree]
    exact and_congr_right fun hskip ↦ degradedRead_iff hwf horder hskip hw hlost
  · rw [hagree]
    exact and_congr_right fun hskip ↦ degradedOffline_iff hwf horder hskip hw hlost

/-- Two parity blocks over one data block. -/
def oneDataBlock : RSCode := ⟨3, 1, 1, 0⟩

/-- `RSPPR::Encode` binds the two parity blocks. The bind node has a task for an agent but none for a client,
so an online write runs no task, and writes zeros where the parity is one. -/
theorem encode_oneDataBlock :
    ∃ dag, RSPPR.encode (· * ·) oneDataBlock = some dag ∧
      dag.parseForClient bindStart ≠ (dag.parseForOEC 0 0 bindStart).bind OECTasks.compute ∧
      1 ∈ dag.headers ∧ Evaluates dag.shape 1 1 1 ∧
      ∃ s, onlineEncode 3 1 1 1 (dag.computeTasks dag.nodes.keys) = some s ∧ s.written 1 = some 0 := by
  have hrun : (RSPPR.encode (· * ·) oneDataBlock).map (fun dag ↦
      (dag.nodes.lookup bindStart).map (fun nd ↦ (nd.childNodes, dag.coefNum 0, nd.coefMap.keys.length)) =
          some ([0], 0, 2) ∧
        1 ∈ dag.headers ∧ value dag.shape 1 3 1 = some 1 ∧
        (onlineEncode 3 1 1 1 (dag.computeTasks dag.nodes.keys)).map (fun s ↦ s.written 1) =
          some (some 0)) = some True := by
    simp only [RSPPR.encode, encodeBlocks, oneDataBlock, List.range_succ, List.range_zero, List.nil_append,
      List.foldl_cons, List.foldl_nil, List.singleton_append, Nat.reduceSub, join, joinCluster,
      List.mergeSort_singleton]
    exact congrArg some (eq_true (by decide +kernel))
  obtain ⟨dag, hdag, hall⟩ := Option.map_eq_some_iff.mp hrun
  obtain ⟨hbind, hheader, hval, hwritten⟩ := of_eq_true hall
  obtain ⟨nd, hnd, hshape⟩ := Option.map_eq_some_iff.mp hbind
  obtain ⟨hchild, hshape⟩ := Prod.mk.inj hshape
  obtain ⟨hleaf, hkeys⟩ := Prod.mk.inj hshape
  have hskip : dag.Skipped bindStart := ⟨nd, 0, hnd, hchild, hleaf, by rw [hkeys]; decide⟩
  obtain ⟨s, hs, hzero⟩ := Option.map_eq_some_iff.mp hwritten
  exact ⟨dag, hdag, fun h ↦ (dag.parseForClient_eq_iff 0 0 bindStart).mp h hskip, hheader, ⟨3, hval⟩, s,
    hs, hzero⟩

/-- **The graph that `encodeBlocks` binds.** Its leaves are the data blocks. Only the bind node has a task. -/
theorem encodeBlocks_bound (gfMultiply : GF256 → GF256 → GF256) {c : RSCode} (hk : 2 ≤ c.k) (hm : 2 ≤ c.n - c.k)
    (hn : c.n < bindStart) :
    ∃ dag M, encodeBlocks gfMultiply c = some dag ∧ dag.shape bindStart = some (List.range c.k, M) ∧
      1 < M.keys.length ∧ (∀ id, IsLeaf dag.shape id ↔ id < c.k) ∧ (∀ id, ¬dag.Skipped id) ∧
      ∀ id cs M, Computes dag id cs M → cs = List.range c.k := by
  have hjoins := parityJoins_encode gfMultiply c
  rw [encodeBlocks]
  generalize (List.range (c.n - c.k)).foldl _ ({} : ECDAG) = joined at hjoins
  obtain ⟨dag, b, M, hbind, hleaf, hnode, hkeys, hparity, habsent⟩ := hjoins.bindX hm hn
  rw [hjoins.bindId] at hnode hparity habsent
  have hcases : ∀ id sh, dag.shape id = some sh →
      id < c.k ∧ sh = ([], ∅) ∨ id = bindStart ∧ sh = (List.range c.k, M) ∨
        c.k ≤ id ∧ sh = ([bindStart], AList.singleton id [1]) := by
    intro id sh hsh
    rcases lt_or_ge id c.k with hid | hid
    · exact .inl ⟨hid, Option.some.inj (hsh.symm.trans (hleaf id hid))⟩
    by_cases hb : id = bindStart
    · exact .inr (.inl ⟨hb, Option.some.inj (hsh.symm.trans (hb ▸ hnode))⟩)
    rcases lt_or_ge id c.n with hidn | hidn
    · exact .inr (.inr ⟨hid, Option.some.inj (hsh.symm.trans (hparity id hid hidn).1)⟩)
    · exact absurd (hsh.symm.trans (habsent id hidn hb)) (Option.some_ne_none sh)
  have hrange : List.range c.k ≠ [] := fun hnil ↦ by
    rw [List.range_eq_nil] at hnil
    omega
  refine ⟨dag, M, ?_, hnode, hkeys, fun id ↦ ⟨?_, fun hid ↦ ⟨∅, hleaf id hid⟩⟩, ?_, ?_⟩
  · rw [if_pos (by rw [List.length_map, List.length_range]; omega), hbind]
    rfl
  · rintro ⟨M', hsh⟩
    rcases hcases id _ hsh with ⟨hid, -⟩ | ⟨-, heq⟩ | ⟨-, heq⟩
    · exact hid
    · exact absurd (congrArg Prod.fst heq).symm hrange
    · exact absurd (congrArg Prod.fst heq).symm (List.cons_ne_nil _ _)
  · rintro id ⟨nd, child, hnd, hchild, -, hone⟩
    rcases hcases id _ (shape_of_lookup hnd) with ⟨-, heq⟩ | ⟨-, heq⟩ | ⟨-, heq⟩
    · exact List.cons_ne_nil child [] (hchild.symm.trans (congrArg Prod.fst heq))
    · -- a bind node with a single child is what the client skips
      have hlength := congrArg List.length (hchild.symm.trans (congrArg Prod.fst heq))
      rw [List.length_range, List.length_singleton] at hlength
      omega
    · exact hone (by rw [show nd.coefMap = AList.singleton id [1] from congrArg Prod.snd heq]; rfl)
  · rintro id cs M' ⟨hsh, hne, hplain⟩
    rcases hcases id _ hsh with ⟨-, heq⟩ | ⟨-, heq⟩ | ⟨-, heq⟩
    · exact absurd (congrArg Prod.fst heq) hne
    · exact congrArg Prod.fst heq
    · have hcs : cs = [bindStart] := congrArg Prod.fst heq
      exact absurd (hplain bindStart (by rw [hcs]; exact List.mem_cons_self) _ hnode) (not_le.mpr hkeys)

/-- Two data blocks, and two parity blocks that are bound. -/
def twoParityBlocks : RSCode := ⟨4, 2, 1, 0⟩

/-- One graph for the three executors. An online write computes the parity blocks of the data blocks, and so does a
degraded read or a repair that loads the two data blocks. -/
theorem faithful_twoParityBlocks :
    ∃ dag M, encodeBlocks (· * ·) twoParityBlocks = some dag ∧ dag.shape bindStart = some ([0, 1], M) ∧
      1 < M.keys.length ∧ CompilersAgree dag ∧
      Faithful dag (fun data ↦ onlineEncode 4 2 1 data (dag.computeTasks dag.nodes.keys)) ∧
      Faithful dag (fun env ↦ degradedRead 4 2 1 [0, 1] env (dag.computeTasks dag.nodes.keys)) ∧
      Faithful dag (fun env ↦ degradedOffline 1 3 [0, 1] env (dag.computeTasks dag.nodes.keys)) := by
  obtain ⟨dag, M, hencode, hnode, hkeys, hleaf, hskip, hcomputes⟩ :=
    encodeBlocks_bound (· * ·) (c := twoParityBlocks) (by decide) (by decide) (by decide)
  have hwf : WellFormed dag := wellFormed_encodeBlocks (by decide) (by decide) hencode
  have hdata : ∀ child, IsLeaf dag.shape child → child < 2 := fun child hchild ↦ (hleaf child).mp hchild
  have hread : ∀ id cs M, Computes dag id cs M → ∀ child ∈ cs, child < 2 := fun id cs M hcomp child hchild ↦ by
    rw [hcomputes id cs M hcomp] at hchild
    exact List.mem_range.mp hchild
  have hlist : ∀ child < 2, child ∈ [0, 1] ∧ child / 1 ∈ [0, 1] ∧ child / 1 ≠ 3 := by decide
  obtain ⟨honline, hdegraded, hoffline⟩ := (faithful_iff dag).2 hwf _ (.refl _) 2 1 Nat.one_pos
  have hencodable : EncodeReadable dag 4 2 1 := fun id cs M hcomp child hchild ↦
    have hlt := hread id cs M hcomp child hchild
    ⟨fun _ ↦ hlt, fun hnot ↦ absurd ((hleaf child).mpr hlt) hnot⟩
  have hencoded := (honline 4 (by decide) fun id hid ↦ .inr ((hleaf id).mpr hid)).mpr ⟨hskip, hencodable⟩
  have hloaded := (hdegraded 4 [0, 1] fun child hchild _ ↦ (hlist child (hdata child hchild)).2.1).mpr
    ⟨hskip, ⟨by decide, by decide⟩, fun id cs M hcomp child hchild _ ↦
      (hlist child (hread id cs M hcomp child hchild)).2.1⟩
  have hrepaired := (hoffline 3 [0, 1] fun child hchild ↦ (hlist child (hdata child hchild)).2.2).mpr
    ⟨hskip, fun id cs M hcomp child hchild _ ↦ (hlist child (hread id cs M hcomp child hchild)).1⟩
  exact ⟨dag, M, hencode, hnode, hkeys, hencoded.1, hencoded.2, hloaded.2, hrepaired.2⟩

end ECDAG

end UniDedup.Storage
