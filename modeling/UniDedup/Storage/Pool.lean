import Mathlib.Data.List.AList
import UniDedup.Basic
import UniDedup.Lib.Decimal

/-!
# The pool of an offline code

A file that is encoded offline is cut into objects, and the pool packs the objects of all its files into
stripes: a new object joins the last stripe while that has fewer than `k` objects and opens a new one
otherwise, under a name made from the clock. The parity objects are appended when the stripe is encoded.

The tables of the pool are kept in step (`Consistent`): an object is filed under the one stripe whose list it
is in.
-/

namespace UniDedup.Storage

/-- `insert` of a pair into an `unordered_map`, which keeps the pair that is there. -/
def emplace {α β : Type*} [DecidableEq α] (m : AList fun _ : α ↦ β) (key : α) (v : β) :
    AList fun _ : α ↦ β :=
  if key ∈ m then m else m.insert key v

section emplace

variable {α β : Type*} [DecidableEq α] (m : AList fun _ : α ↦ β) (key key' : α) (v : β)

theorem lookup_emplace (h : key ∉ m) :
    (emplace m key v).lookup key' = if key' = key then some v else m.lookup key' := by
  rw [emplace, if_neg h]
  split_ifs with hkey
  · rw [hkey, AList.lookup_insert]
  · rw [AList.lookup_insert_ne hkey]

theorem lookup_emplace_of_ne {key key' : α} (h : key' ≠ key) :
    (emplace m key v).lookup key' = m.lookup key' := by
  rw [emplace]
  split_ifs
  · rfl
  · rw [AList.lookup_insert_ne h]

@[simp] theorem mem_emplace : key' ∈ emplace m key v ↔ key' = key ∨ key' ∈ m := by
  rw [emplace]
  split_ifs with h
  · exact ⟨.inr, fun h' ↦ h'.elim (fun heq ↦ heq ▸ h) id⟩
  · exact AList.mem_insert _

end emplace

/-! ## Names -/

def objName (filename : Name) (objidx : ℕ) : Name :=
  filename ++ "_oecobj_".toList ++ Decimal.toDigits objidx

/-- The name of a stripe, from the clock. -/
def stripeName (timestamp : ℕ) : Name := "oecstripe-".toList ++ Decimal.toDigits timestamp

def parityName (ecpoolid stripename : Name) (i : ℕ) : Name :=
  '/' :: ecpoolid ++ '-' :: stripename ++ '-' :: Decimal.toDigits i

theorem stripeName_eq (timestamp : ℕ) :
    stripeName timestamp = "oecstripe".toList ++ '-' :: Decimal.toDigits timestamp := by
  have hsep : ∀ digits : List Char, "oecstripe-".toList ++ digits = "oecstripe".toList ++ '-' :: digits :=
    fun _ ↦ rfl
  exact hsep _

theorem objName_eq (filename : Name) (i : ℕ) :
    objName filename i = filename ++ "_oecobj".toList ++ '_' :: Decimal.toDigits i := by
  simp [objName]

theorem objName_inj {f f' : Name} {i i' : ℕ} : objName f i = objName f' i' ↔ f = f' ∧ i = i' := by
  refine ⟨fun h ↦ ?_, fun h ↦ by rw [h.1, h.2]⟩
  rw [objName_eq, objName_eq] at h
  obtain ⟨hname, -, hi⟩ := Decimal.append_sep_toDigits_inj rfl rfl h
  exact ⟨List.append_cancel_right hname, hi⟩

theorem parityName_inj {ecpoolid s s' : Name} {i i' : ℕ} :
    parityName ecpoolid s i = parityName ecpoolid s' i' ↔ s = s' ∧ i = i' := by
  refine ⟨fun h ↦ ?_, fun h ↦ by rw [h.1, h.2]⟩
  obtain ⟨hname, -, hi⟩ := Decimal.append_sep_toDigits_inj rfl rfl h
  refine ⟨?_, hi⟩
  simpa using hname

/-- The name of a parity object tells the pool as well, as the name of its stripe is made from a number. -/
theorem parityName_stripeName_inj {ecpoolid ecpoolid' : Name} {now now' i i' : ℕ} :
    parityName ecpoolid (stripeName now) i = parityName ecpoolid' (stripeName now') i' ↔
      ecpoolid = ecpoolid' ∧ now = now' ∧ i = i' := by
  refine ⟨fun h ↦ ?_, fun h ↦ by rw [h.1, h.2.1, h.2.2]⟩
  rw [parityName, parityName] at h
  obtain ⟨hname, -, hi⟩ := Decimal.append_sep_toDigits_inj rfl rfl h
  rw [stripeName_eq, stripeName_eq, ← List.cons_append, ← List.append_assoc, ← List.cons_append,
    ← List.append_assoc] at hname
  obtain ⟨hid, -, hnow⟩ := Decimal.append_sep_toDigits_inj rfl rfl hname
  exact ⟨List.tail_eq_of_cons_eq (List.append_cancel_right hid), hnow, hi⟩

theorem objName_ne_parityName {ecpoolid f s : Name} {i i' : ℕ} : objName f i ≠ parityName ecpoolid s i' := by
  intro h
  rw [objName_eq] at h
  obtain ⟨-, hsep, -⟩ := Decimal.append_sep_toDigits_inj rfl rfl h
  exact absurd hsep (by decide)

theorem stripeName_injective : Function.Injective stripeName := fun _ _ h ↦
  Decimal.append_toDigits_right_inj.mp h

/-! ## The pool -/

/-- `ECPolicy`: the parameters of a code, and the grouping its `Place` returns. -/
structure ECPolicy where
  n : ℕ
  k : ℕ
  w : ℕ
  group : List (List ℕ)
  k_pos : 0 < k
  k_lt_n : k < n

structure OfflineECPool where
  ecpoolid : Name
  ecpolicy : ECPolicy
  basesize : ℕ
  /-- The objects, and whether they are finalized. -/
  objs : AList fun _ : Name ↦ Bool
  stripes : List Name
  stripe2objs : AList fun _ : Name ↦ List Name
  obj2stripe : AList fun _ : Name ↦ Name

namespace OfflineECPool

variable (p : OfflineECPool)

def empty (ecpoolid : Name) (ecpolicy : ECPolicy) (basesize : ℕ) : OfflineECPool :=
  ⟨ecpoolid, ecpolicy, basesize, ∅, [], ∅, ∅⟩

def getStripeObjList (stripename : Name) : List Name := (p.stripe2objs.lookup stripename).getD []

def addObj (objname stripename : Name) : OfflineECPool :=
  { p with
    objs := emplace p.objs objname false
    stripes := if stripename ∈ p.stripes then p.stripes else p.stripes ++ [stripename]
    stripe2objs := p.stripe2objs.insert stripename (p.getStripeObjList stripename ++ [objname])
    obj2stripe := emplace p.obj2stripe objname stripename }

/-- `finalizeObj`, which asserts that the object is there. -/
def finalizeObj (objname : Name) : Option OfflineECPool :=
  if objname ∈ p.objs then some { p with objs := p.objs.insert objname true } else none

def isCandidateForEC (stripename : Name) : Bool :=
  let objlist := p.getStripeObjList stripename
  decide (objlist.length = p.ecpolicy.k) && objlist.all fun obj ↦ (p.objs.lookup obj).getD false

/-- `getStripeForObj`, when the clock shows `now`. -/
def getStripeForObj (objname : Name) (now : ℕ) : Name :=
  if objname ∈ p.objs then (p.obj2stripe.lookup objname).getD [] else
  match p.stripes.getLast? with
  | none => stripeName now
  | some last => if p.ecpolicy.k ≤ (p.getStripeObjList last).length then stripeName now else last

/-! ### What an object that is added changes -/

section addObj

variable (o s : Name)

@[simp] theorem ecpolicy_addObj : (p.addObj o s).ecpolicy = p.ecpolicy := rfl

@[simp] theorem ecpoolid_addObj : (p.addObj o s).ecpoolid = p.ecpoolid := rfl

@[simp] theorem objs_addObj : (p.addObj o s).objs = emplace p.objs o false := rfl

@[simp] theorem obj2stripe_addObj : (p.addObj o s).obj2stripe = emplace p.obj2stripe o s := rfl

theorem stripes_addObj :
    (p.addObj o s).stripes = if s ∈ p.stripes then p.stripes else p.stripes ++ [s] := rfl

@[simp] theorem mem_stripes_addObj {t : Name} : t ∈ (p.addObj o s).stripes ↔ t = s ∨ t ∈ p.stripes := by
  rw [stripes_addObj]
  split_ifs with h
  · exact ⟨.inr, fun ht ↦ ht.elim (fun heq ↦ heq ▸ h) id⟩
  · rw [List.mem_append, List.mem_singleton, or_comm]

theorem getStripeObjList_addObj (t : Name) : (p.addObj o s).getStripeObjList t =
    if t = s then p.getStripeObjList s ++ [o] else p.getStripeObjList t := by
  change ((p.stripe2objs.insert s (p.getStripeObjList s ++ [o])).lookup t).getD [] = _
  split_ifs with h
  · rw [h, AList.lookup_insert, Option.getD_some]
  · rw [AList.lookup_insert_ne h]
    rfl

@[simp] theorem getStripeObjList_addObj_self :
    (p.addObj o s).getStripeObjList s = p.getStripeObjList s ++ [o] := by
  rw [getStripeObjList_addObj, if_pos rfl]

theorem prefix_addObj (t : Name) : p.getStripeObjList t <+: (p.addObj o s).getStripeObjList t := by
  rw [getStripeObjList_addObj]
  split_ifs with h
  · exact h ▸ List.prefix_append _ _
  · exact List.prefix_refl _

end addObj

section finalizeObj

variable {p} {p' : OfflineECPool} {o : Name}

theorem finalizeObj_eq (h : p.finalizeObj o = some p') : p' = { p with objs := p.objs.insert o true } := by
  unfold finalizeObj at h
  split_ifs at h
  exact (Option.some.inj h).symm

theorem lookup_finalizeObj (h : p.finalizeObj o = some p') (o' : Name) :
    p'.objs.lookup o' = if o' = o then some true else p.objs.lookup o' := by
  rw [finalizeObj_eq h]
  split_ifs with ho
  · rw [ho, AList.lookup_insert]
  · rw [AList.lookup_insert_ne ho]

theorem mem_objs_finalizeObj (h : p.finalizeObj o = some p') (o' : Name) : o' ∈ p'.objs ↔ o' ∈ p.objs := by
  have hmem : o ∈ p.objs := by
    unfold finalizeObj at h
    split_ifs at h with hmem
    exact hmem
  rw [finalizeObj_eq h, AList.mem_insert]
  exact ⟨fun ho ↦ ho.elim (fun heq ↦ heq ▸ hmem) id, .inr⟩

end finalizeObj

/-! ### The tables agree -/

/-- An object is filed under the one stripe whose list it is in, and there once. -/
structure Consistent : Prop where
  obj2stripe_iff : ∀ o s, p.obj2stripe.lookup o = some s ↔ o ∈ p.getStripeObjList s
  nodup : ∀ s, (p.getStripeObjList s).Nodup
  mem_objs : ∀ o, o ∈ p.objs ↔ o ∈ p.obj2stripe
  mem_stripes : ∀ s, p.getStripeObjList s ≠ [] ↔ s ∈ p.stripes

theorem consistent_empty (ecpoolid : Name) (ecpolicy : ECPolicy) (basesize : ℕ) :
    (empty ecpoolid ecpolicy basesize).Consistent where
  obj2stripe_iff _ _ := by simp [empty, getStripeObjList]
  nodup _ := by simp [empty, getStripeObjList]
  mem_objs _ := by simp [empty]
  mem_stripes _ := by simp [empty, getStripeObjList]

namespace Consistent

variable {p} (h : p.Consistent) {o s t : Name}

include h

theorem mem_objs_of_mem (ho : o ∈ p.getStripeObjList s) : o ∈ p.objs :=
  (h.mem_objs o).mpr (AList.lookup_isSome.mp (Option.isSome_iff_exists.mpr ⟨s, (h.obj2stripe_iff o s).mpr ho⟩))

theorem exists_of_mem_objs (ho : o ∈ p.objs) : ∃ s, p.obj2stripe.lookup o = some s ∧ o ∈ p.getStripeObjList s := by
  obtain ⟨s, hs⟩ := Option.isSome_iff_exists.mp (AList.lookup_isSome.mpr ((h.mem_objs o).mp ho))
  exact ⟨s, hs, (h.obj2stripe_iff o s).mp hs⟩

theorem eq_of_mem (hs : o ∈ p.getStripeObjList s) (ht : o ∈ p.getStripeObjList t) : s = t :=
  Option.some.inj (((h.obj2stripe_iff o s).mpr hs).symm.trans ((h.obj2stripe_iff o t).mpr ht))

theorem getStripeForObj_of_mem (ho : o ∈ p.getStripeObjList s) (now : ℕ) : p.getStripeForObj o now = s := by
  rw [getStripeForObj, if_pos (h.mem_objs_of_mem ho), (h.obj2stripe_iff o s).mpr ho, Option.getD_some]

theorem getStripeObjList_eq_nil (hs : s ∉ p.stripes) : p.getStripeObjList s = [] := by
  by_contra hne
  exact hs ((h.mem_stripes s).mp hne)

theorem addObj (ho : o ∉ p.objs) (s : Name) : (p.addObj o s).Consistent := by
  have hob : o ∉ p.obj2stripe := fun hmem ↦ ho ((h.mem_objs o).mpr hmem)
  have hfresh : ∀ t, o ∉ p.getStripeObjList t := fun t ht ↦ ho (h.mem_objs_of_mem ht)
  refine ⟨fun o' t ↦ ?_, fun t ↦ ?_, fun o' ↦ ?_, fun t ↦ ?_⟩
  · rw [obj2stripe_addObj, lookup_emplace _ _ _ _ hob, getStripeObjList_addObj]
    by_cases hoo : o' = o
    · subst hoo
      rw [if_pos rfl, Option.some_inj]
      split_ifs with hts
      · simp [hts]
      · exact ⟨fun hst ↦ absurd hst.symm hts, fun hmem ↦ absurd hmem (hfresh t)⟩
    · rw [if_neg hoo, h.obj2stripe_iff]
      split_ifs with hts
      · simp [hts, hoo]
      · rfl
  · rw [getStripeObjList_addObj]
    split_ifs with hts
    · exact List.concat_eq_append ▸ (h.nodup s).concat (hfresh s)
    · exact h.nodup t
  · rw [objs_addObj, obj2stripe_addObj, mem_emplace, mem_emplace, h.mem_objs]
  · rw [mem_stripes_addObj, getStripeObjList_addObj]
    split_ifs with hts
    · simp [hts]
    · rw [h.mem_stripes]
      simp [hts]

theorem finalizeObj {p' : OfflineECPool} (hp : p.finalizeObj o = some p') : p'.Consistent := by
  have hmem := mem_objs_finalizeObj hp
  have heq := finalizeObj_eq hp
  subst heq
  exact ⟨h.obj2stripe_iff, h.nodup, fun o' ↦ (hmem o').trans (h.mem_objs o'), h.mem_stripes⟩

end Consistent

end OfflineECPool

end UniDedup.Storage
