import UniDedup.Storage.Pool

/-!
# The metadata of the coordinator

The coordinator keeps an entry for every file with the names and locations of its objects. A file that is
registered for offline encoding is cut into objects, each of which gets a stripe of the pool and an agent;
when the file is finalized, the stripes that are complete are queued for encoding; encoding a stripe adds its
parity objects.

An object is placed in a rack with a member of its group that is placed already, if such a rack has a free
agent, and anywhere otherwise. Whatever the policy, an agent is taken from the list of candidates: a number
says which one.
-/

namespace UniDedup.Storage

/-! ## Entries -/

structure SSEntry where
  filename : Name
  /-- 0 for online and 1 for offline encoding. -/
  type : ℕ
  filesizeMB : ℕ
  ecidpool : Name
  objList : List Name
  objLoc : List ℕ
deriving DecidableEq

namespace SSEntry

/-- `getLocOfObj`, which asserts that the object is in the entry. -/
def getLocOfObj (e : SSEntry) (objname : Name) : Option ℕ :=
  if objname ∈ e.objList then e.objLoc[e.objList.idxOf objname]? else none

def updateObjLoc (e : SSEntry) (objname : Name) (loc : ℕ) : SSEntry :=
  { e with objLoc := e.objLoc.set (e.objList.idxOf objname) loc }

end SSEntry

structure StripeStore where
  ssEntryMap : AList fun _ : Name ↦ SSEntry
  /-- The entry an object points to, by its file name. -/
  objEntryMap : AList fun _ : Name ↦ Name

namespace StripeStore

variable (st : StripeStore)

def insertEntry (e : SSEntry) : StripeStore :=
  if e.filename ∈ st.ssEntryMap then st else
  { ssEntryMap := st.ssEntryMap.insert e.filename e
    objEntryMap := e.objList.foldl (fun m obj ↦ emplace m obj e.filename) st.objEntryMap }

def getEntryFromObj (objname : Name) : Option SSEntry :=
  (st.objEntryMap.lookup objname).bind st.ssEntryMap.lookup

/-- `updateObjLoc` of the entry of an object, which asserts that it has one. -/
def updateObjLoc (objname : Name) (loc : ℕ) : Option StripeStore :=
  (st.getEntryFromObj objname).map fun e ↦
    { st with ssEntryMap := st.ssEntryMap.insert e.filename (e.updateObjLoc objname loc) }

def locOf (objname : Name) : Option ℕ := (st.getEntryFromObj objname).bind (·.getLocOfObj objname)

variable {st} {e e' : SSEntry} {f : Name}

theorem lookup_insertEntry (h : st.ssEntryMap.lookup f = some e') :
    (st.insertEntry e).ssEntryMap.lookup f = some e' := by
  rw [insertEntry]
  split_ifs with he
  · exact h
  · have hne : f ≠ e.filename := fun hf ↦ he (hf ▸ AList.lookup_isSome.mp (Option.isSome_iff_exists.mpr ⟨e', h⟩))
    rw [AList.lookup_insert_ne hne, h]

theorem lookup_insertEntry_self (h : e.filename ∉ st.ssEntryMap) :
    (st.insertEntry e).ssEntryMap.lookup e.filename = some e := by
  rw [insertEntry, if_neg h, AList.lookup_insert]

end StripeStore

/-! ## Placement -/

/-- The configured agents with their racks, and the settings that decide where an object goes. -/
structure Config where
  agents : List (Name × ℕ)
  fixedLoc : Bool
  avoidLocal : Bool
  pktSize : ℕ

namespace Config

variable (conf : Config)

def agentsIPs : List ℕ := conf.agents.map Prod.snd

def ip2Rack (ip : ℕ) : Name := ((conf.agents.find? (·.2 = ip)).map Prod.fst).getD []

def rack2Ips (rack : Name) : List ℕ := (conf.agents.filter (·.1 = rack)).map Prod.snd

/-- The agents of a rack that are neither taken nor in the list yet. -/
def rackCandidates (placedIp : List ℕ) (toret : List ℕ) (rack : Name) : List ℕ :=
  (conf.rack2Ips rack).foldl
    (fun toret item ↦ if item ∉ toret ∧ item ∉ placedIp then toret ++ [item] else toret) toret

/-- `getCandidates`. With fixed locations the first agent of the rack that has the number of the group's
first index as its name. -/
def getCandidates (placedIp : List ℕ) (colocWith : List ℕ) : List ℕ :=
  if conf.fixedLoc then
    (colocWith.head?.bind fun curIdx ↦ (conf.rack2Ips (Decimal.toDigits curIdx)).head?).toList
  else
    let toret := colocWith.foldl (fun toret curIdx ↦
      match placedIp[curIdx]? with
      | none => toret
      | some curIp => conf.rackCandidates placedIp toret (conf.ip2Rack curIp)) []
    if toret = [] then conf.agentsIPs.filter (· ∉ placedIp) else toret

end Config

/-- `chooseFromCandidates`; `none` where the remainder by the number of candidates divides by zero. -/
def chooseFromCandidates (candidates : List ℕ) (pick : ℕ) : Option ℕ :=
  candidates[pick % candidates.length]?

/-- The grouping as a map: the first group with an index. -/
def ECPolicy.idx2group (ec : ECPolicy) (idx : ℕ) : List ℕ := (ec.group.find? (idx ∈ ·)).getD []

/-- The candidates for an object a client writes, without the client if it is to be avoided. -/
def Config.dataCandidates (conf : Config) (clientIp : ℕ) (placedIp colocWith : List ℕ) : List ℕ :=
  let candidates := conf.getCandidates placedIp colocWith
  if conf.avoidLocal then candidates.erase clientIp else candidates

/-- The location of an object a client writes. -/
def Config.placeData (conf : Config) (clientIp : ℕ) (placedIp colocWith : List ℕ) (pick : ℕ) : Option ℕ :=
  let candidates := conf.dataCandidates clientIp placedIp colocWith
  if !conf.avoidLocal && decide (clientIp ∈ candidates) then some clientIp
  else chooseFromCandidates candidates pick

/-! ## Registering a file for online encoding -/

/-- The locations of the objects of a file: each is placed given those before it. -/
def placeOnline (conf : Config) (ec : ECPolicy) (clientIp : ℕ) (picks : ℕ → ℕ) (ips : List ℕ) (i : ℕ) :
    Option (List ℕ) :=
  (conf.placeData clientIp ips (ec.idx2group i) (picks i)).map fun curIp ↦ ips ++ [curIp]

/-- `registerOnlineEC`: the entry of the file. -/
def registerOnlineEC (conf : Config) (st : StripeStore) (ec : ECPolicy) (clientIp : ℕ) (filename ecid : Name)
    (filesizeMB : ℕ) (picks : ℕ → ℕ) : Option StripeStore :=
  if filename ∈ st.ssEntryMap then none else
  ((List.range ec.n).foldlM (placeOnline conf ec clientIp picks) []).map fun ips ↦
    st.insertEntry ⟨filename, 0, filesizeMB, ecid, (List.range ec.n).map (objName filename), ips⟩

/-! ## Registering a file for offline encoding -/

/-- What `registerOfflineEC` builds: the pool, the objects of the file with their locations, and the code index
each of them was placed under. -/
structure Placing where
  pool : OfflineECPool
  fileobjnames : List Name
  fileobjlocs : List ℕ
  stripeidxs : List ℕ

/-- The location of an object of the stripe: recorded in its entry, or just chosen in this call. -/
def curLoc (st : StripeStore) (fileobjnames : List Name) (fileobjlocs : List ℕ) (objname : Name) : Option ℕ :=
  match st.getEntryFromObj objname with
  | some e => e.getLocOfObj objname
  | none => if objname ∈ fileobjnames then fileobjlocs[fileobjnames.idxOf objname]? else none

/-- One round of `registerOfflineEC`. -/
def registerObj (conf : Config) (st : StripeStore) (clientIp : ℕ) (filename : Name) (clock picks : ℕ → ℕ)
    (s : Placing) (objidx : ℕ) : Option Placing := do
  let objname := objName filename objidx
  let fileobjnames := s.fileobjnames ++ [objname]
  let stripename := s.pool.getStripeForObj objname (clock s.pool.stripes.length)
  let stripeobjlist := s.pool.getStripeObjList stripename
  let stripeips ← stripeobjlist.mapM (curLoc st fileobjnames s.fileobjlocs)
  let stripeidx := stripeobjlist.length
  let curIp ← conf.placeData clientIp stripeips (s.pool.ecpolicy.idx2group stripeidx) (picks objidx)
  return ⟨s.pool.addObj objname stripename, fileobjnames, s.fileobjlocs ++ [curIp], s.stripeidxs ++ [stripeidx]⟩

/-- The number of objects of a file: its size by the base size, rounded up. -/
def objnum (filesizeMB basesize : ℕ) : ℕ := filesizeMB / basesize + if filesizeMB % basesize = 0 then 0 else 1

/-- `registerOfflineEC`, when the `i`-th stripe of the pool is opened at the time `clock i`. -/
def registerOfflineEC (conf : Config) (clock : ℕ → ℕ) (st : StripeStore) (pool : OfflineECPool)
    (clientIp : ℕ) (filename : Name) (filesizeMB : ℕ) (picks : ℕ → ℕ) : Option (StripeStore × Placing) :=
  if filename ∈ st.ssEntryMap ∨ pool.basesize = 0 then none else do
    let s ← (List.range (objnum filesizeMB pool.basesize)).foldlM
      (registerObj conf st clientIp filename clock picks) ⟨pool, [], [], []⟩
    return (st.insertEntry ⟨filename, 1, filesizeMB, pool.ecpoolid, s.fileobjnames, s.fileobjlocs⟩, s)

/-! ## Finalizing a file -/

/-- One round of `finalizeFile`: the object is finalized, and its stripe is queued when it is complete. -/
def finalizeOne (s : OfflineECPool × List Name) (objname : Name) : Option (OfflineECPool × List Name) :=
  (s.1.finalizeObj objname).map fun pool ↦
    let stripename := pool.getStripeForObj objname 0
    (pool, if pool.isCandidateForEC stripename then s.2 ++ [stripename] else s.2)

/-- `finalizeFile`: the pool, and the stripes that are queued. -/
def finalizeFile (st : StripeStore) (pool : OfflineECPool) (filename : Name) :
    Option (OfflineECPool × List Name) :=
  (st.ssEntryMap.lookup filename).bind fun e ↦
    if e.type = 1 then e.objList.foldlM finalizeOne (pool, []) else some (pool, [])

/-! ## Encoding a stripe -/

/-- What `offlineEnc` builds: entries, pool, and the objects by their code index. -/
structure Encoding where
  store : StripeStore
  pool : OfflineECPool
  objlist : AList fun _ : ℕ ↦ Name × ℕ
  stripeips : List ℕ

/-- One round of the loop of `offlineEnc` over the parity objects. -/
def encodeParity (conf : Config) (stripename : Name) (picks : ℕ → ℕ) (s : Encoding) (i : ℕ) :
    Option Encoding := do
  let objname := parityName s.pool.ecpoolid stripename i
  let loc ← chooseFromCandidates (conf.getCandidates s.stripeips (s.pool.ecpolicy.idx2group i)) (picks i)
  return {
    store := s.store.insertEntry ⟨objname, 1, s.pool.basesize, s.pool.ecpoolid, [objname], [loc]⟩
    pool := s.pool.addObj objname stripename
    objlist := emplace s.objlist i (objname, loc)
    stripeips := s.stripeips ++ [loc] }

/-- `offlineEnc`, up to the point where the pool is unlocked. -/
def offlineEnc (conf : Config) (st : StripeStore) (pool : OfflineECPool) (stripename : Name) (picks : ℕ → ℕ) :
    Option Encoding := do
  let stripelist := pool.getStripeObjList stripename
  let stripeips ← stripelist.mapM st.locOf
  let objlist := (List.range stripelist.length).foldl
    (fun m i ↦ emplace m i (stripelist.getD i [], stripeips.getD i 0)) ∅
  (List.range' pool.ecpolicy.k (pool.ecpolicy.n - pool.ecpolicy.k)).foldlM
    (encodeParity conf stripename picks) ⟨st, pool, objlist, stripeips⟩

end UniDedup.Storage
