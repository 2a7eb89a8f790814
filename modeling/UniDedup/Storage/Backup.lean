import UniDedup.Lib.Records
import UniDedup.Storage.Coordinator

/-!
# The backup files of the coordinator

The coordinator appends the entry of a file to one text file when the file is finalized, and the object list of a
stripe to another when the stripe has been encoded. A new coordinator reads both line by line and splits
the lines at the semicolons.

An entry comes back as it was written (`SSEntry.ofLine_toLine`). The record of a stripe has no newline behind
it, and what its last semicolon leaves becomes an object.
-/

namespace UniDedup.Storage

open Records

def stoi (l : Name) : Option ℕ := Decimal.readDigits 10 Char.isDigit l

/-- `stoul` of a number whose base is told by how it starts. Hexadecimal numbers are not written. -/
def stoul (l : Name) : Option ℕ :=
  if l.head? = some '0' then Decimal.readDigits 8 (fun c ↦ '0' ≤ c && c ≤ '7') l
  else Decimal.readDigits 10 Char.isDigit l

theorem stoi_toDigits (n : ℕ) : stoi (Decimal.toDigits n) = some n := Decimal.readDigits_toDigits n

theorem stoul_toDigits (n : ℕ) : stoul (Decimal.toDigits n) = some n := by
  rcases Nat.eq_zero_or_pos n with rfl | hn
  · rfl
  · rw [stoul, if_neg (Decimal.head?_toDigits hn), Decimal.readDigits_toDigits]

/-- The objects of an entry and their locations: two fields each; a last field alone is left out. -/
def pairs : List Name → List (Name × Name)
  | objname :: loc :: items => (objname, loc) :: pairs items
  | _ => []

theorem pairs_flatMap {β : Type*} (l : List (Name × β)) (f : β → Name) (last : Name) :
    pairs (l.flatMap (fun x ↦ [x.1, f x.2]) ++ [last]) = l.map fun x ↦ (x.1, f x.2) := by
  induction l with
  | nil => rfl
  | cons x l ih =>
    rw [List.flatMap_cons, List.map_cons, ← ih]
    rfl

namespace SSEntry

variable (e : SSEntry)

def fields : List Name :=
  e.filename :: Decimal.toDigits e.type :: Decimal.toDigits e.filesizeMB :: e.ecidpool ::
    (e.objList.zip e.objLoc).flatMap fun x ↦ [x.1, Decimal.toDigits x.2]

/-- `toString`, without the newline. -/
def toLine : List Char := terminate ';' e.fields

def ofLine (line : List Char) : Option SSEntry :=
  match line.splitOn ';' with
  | filename :: type :: filesizeMB :: ecidpool :: objs => do
    let type ← stoi type
    let filesizeMB ← stoi filesizeMB
    let locs ← (pairs objs).mapM fun x ↦ stoul x.2
    return ⟨filename, type, filesizeMB, ecidpool, (pairs objs).map Prod.fst, locs⟩
  | _ => none

/-- The names of the entry contain no separator. -/
structure Clean (sep : Char) : Prop where
  filename : sep ∉ e.filename
  ecidpool : sep ∉ e.ecidpool
  objList : ∀ o ∈ e.objList, sep ∉ o

variable {e}

theorem Clean.fields {sep : Char} (h : e.Clean sep) (hsep : sep.isDigit = false) : ∀ x ∈ e.fields, sep ∉ x := by
  intro x hx
  simp only [SSEntry.fields, List.mem_cons, List.mem_flatMap] at hx
  rcases hx with rfl | rfl | rfl | rfl | ⟨y, hy, hx⟩
  · exact h.filename
  · exact Decimal.not_mem_toDigits hsep
  · exact Decimal.not_mem_toDigits hsep
  · exact h.ecidpool
  · simp only [List.not_mem_nil, or_false] at hx
    rcases hx with rfl | rfl
    · exact h.objList _ (List.of_mem_zip hy).1
    · exact Decimal.not_mem_toDigits hsep

theorem Clean.toLine {sep : Char} (h : e.Clean sep) (hsep : sep.isDigit = false) (hne : sep ≠ ';') :
    sep ∉ e.toLine := by
  intro hmem
  rcases mem_terminate hmem with heq | ⟨x, hx, hin⟩
  · exact hne heq
  · exact h.fields hsep x hx hin

/-- **An entry comes back** from the line that was written for it. -/
theorem ofLine_toLine (h : e.Clean ';') (hlen : e.objList.length = e.objLoc.length) :
    ofLine e.toLine = some e := by
  have hsplit := splitOn_terminate (h.fields rfl)
  have hpairs := pairs_flatMap (e.objList.zip e.objLoc) Decimal.toDigits []
  have hnames : ((e.objList.zip e.objLoc).map fun x ↦ (x.1, Decimal.toDigits x.2)).map Prod.fst = e.objList := by
    rw [List.map_map]
    exact List.map_fst_zip hlen.le
  have hlocs : ((e.objList.zip e.objLoc).map fun x ↦ (x.1, Decimal.toDigits x.2)).mapM (fun x ↦ stoul x.2) =
      some e.objLoc := by
    have hall : ∀ l : List (Name × ℕ),
        (l.map fun x ↦ (x.1, Decimal.toDigits x.2)).mapM (fun x ↦ stoul x.2) = some (l.map Prod.snd) := by
      intro l
      induction l with
      | nil => rfl
      | cons x l ih => simp [ih, stoul_toDigits]
    rw [hall, List.map_snd_zip hlen.ge]
  rw [ofLine, toLine, hsplit]
  simp only [fields, List.cons_append, stoi_toDigits, hpairs, hnames, hlocs, Option.bind_eq_bind,
    Option.bind_some]
  rfl

end SSEntry

/-! ## Stripes -/

namespace OfflineECPool

variable (p : OfflineECPool)

def stripe2String (stripename : Name) : List Char :=
  terminate ';' (p.ecpoolid :: stripename :: p.getStripeObjList stripename)

def constructPool (items : List Name) : Option OfflineECPool :=
  match items with
  | _ :: stripename :: stripelist =>
    some { p with
      objs := stripelist.foldl (fun m o ↦ emplace m o true) p.objs
      stripes := p.stripes ++ [stripename]
      stripe2objs := emplace p.stripe2objs stripename stripelist
      obj2stripe := stripelist.foldl (fun m o ↦ emplace m o stripename) p.obj2stripe }
  | _ => none

end OfflineECPool

/-! ## A new coordinator -/

def readEntries (entryStore : List Char) : Option StripeStore :=
  (lines '\n' entryStore).foldlM (fun st line ↦ (SSEntry.ofLine line).map st.insertEntry) ⟨∅, ∅⟩

/-- A pool by its name; it is made when it is asked for first. -/
def getECPool (poolConf : Name → ECPolicy × ℕ) (pools : AList fun _ : Name ↦ OfflineECPool) (ecpoolid : Name) :
    OfflineECPool :=
  (pools.lookup ecpoolid).getD (.empty ecpoolid (poolConf ecpoolid).1 (poolConf ecpoolid).2)

def readPools (poolConf : Name → ECPolicy × ℕ) (poolStore : List Char) :
    Option (AList fun _ : Name ↦ OfflineECPool) :=
  (lines '\n' poolStore).foldlM (fun pools line ↦
    let items := line.splitOn ';'
    let ecpoolid := items.headD []
    ((getECPool poolConf pools ecpoolid).constructPool items).map fun pool ↦ pools.insert ecpoolid pool) ∅

/-- The first stripe that was backed up comes back with one object too many. -/
theorem readPools_stripe2String (poolConf : Name → ECPolicy × ℕ) {p : OfflineECPool} {t : Name}
    (hclean : ∀ sep ∈ [';', '\n'], sep ∉ p.ecpoolid ∧ sep ∉ t ∧ ∀ o ∈ p.getStripeObjList t, sep ∉ o) :
    ∃ pools, readPools poolConf (p.stripe2String t) = some pools ∧
      (getECPool poolConf pools p.ecpoolid).getStripeObjList t = p.getStripeObjList t ++ [[]] := by
  have hfields : ∀ sep ∈ [';', '\n'], ∀ x ∈ p.ecpoolid :: t :: p.getStripeObjList t, sep ∉ x := by
    intro sep hsep x hx
    obtain ⟨hid, ht, hobjs⟩ := hclean sep hsep
    rcases List.mem_cons.mp hx with rfl | hx
    · exact hid
    · rcases List.mem_cons.mp hx with rfl | hx
      · exact ht
      · exact hobjs x hx
  have hsplit := splitOn_terminate (hfields ';' List.mem_cons_self)
  have hline : lines '\n' (p.stripe2String t) = [p.stripe2String t] := by
    refine lines_eq_singleton (fun hmem ↦ ?_) (by simp [OfflineECPool.stripe2String])
    rcases mem_terminate hmem with heq | ⟨x, hx, hin⟩
    · exact absurd heq (by decide)
    · exact hfields '\n' (by simp) x hx hin
  rw [readPools, hline, List.foldlM_cons, OfflineECPool.stripe2String, hsplit]
  refine ⟨_, rfl, ?_⟩
  rw [getECPool]
  dsimp only [List.cons_append, List.headD_cons]
  rw [AList.lookup_insert, Option.getD_some]
  change ((emplace (∅ : AList fun _ : Name ↦ List Name) t (p.getStripeObjList t ++ [[]])).lookup t).getD [] = _
  rw [lookup_emplace _ _ _ _ (AList.notMem_empty t), if_pos rfl, Option.getD_some]

end UniDedup.Storage
