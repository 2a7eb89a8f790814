import UniDedup.Basic
import UniDedup.Lib.Codec

/-!
# The commands on the wire

The coordinator, the agents and the clients send each other commands through Redis, each a string of bytes that
starts with the type. The sender has one function for each type that puts the arguments into the fields of a new
command and writes those that the receiver needs, and the constructor that takes the bytes reads the type and then the
fields of that type.
-/

namespace UniDedup.Storage.Wire

open Codec

def maxCommandLen : ℕ := 8192

/-- An `unordered_map<int, int>`. -/
abbrev IntMap := AList fun _ : BitVec 32 ↦ BitVec 32

/-- An `unordered_map<int, vector<int>>`. -/
abbrev VectorMap := AList fun _ : BitVec 32 ↦ List (BitVec 32)

/-- `operator[]`: a key that is not there gets 0. -/
def IntMap.at (m : IntMap) (k : BitVec 32) : BitVec 32 := (m.lookup k).getD 0

/-- The number of elements as an `int`. -/
def size {α : Type} (l : List α) : BitVec 32 := .ofNat 32 l.length

/-- `readRawInt`: without a conversion from network order. -/
def readRawInt : Program (BitVec 32) := do
  let bs ← copyOut 4
  return .ofNat 32 (Word.unsigned bs)

/-! ## AGCommand -/

/-- `AGCommand` without its buffer. What the constructors leave open is 0 here. -/
structure AGCommand where
  type : BitVec 32 := 0
  filename : Bytes := []
  ecid : Bytes := []
  mode : Bytes := []
  filesizeMB : BitVec 32 := 0
  shouldSend : Bool := false
  sendIp : BitVec 32 := 0
  stripeName : Bytes := []
  ecw : BitVec 32 := 0
  num : BitVec 32 := 0
  cacheRefs : IntMap := ∅
  readObjName : Bytes := []
  readCidList : List (BitVec 32) := []
  nprevs : BitVec 32 := 0
  prevCids : List (BitVec 32) := []
  prevLocs : List (BitVec 32) := []
  coefs : VectorMap := ∅
  writeObjName : Bytes := []
  ecn : BitVec 32 := 0
  eck : BitVec 32 := 0
  computen : BitVec 32 := 0
  objnum : BitVec 32 := 0
  basesizeMB : BitVec 32 := 0

namespace AGCommand

/-- The loop over `_prevCids` and `_prevLocs`. -/
def writePrevs (c : AGCommand) : Program Unit :=
  (List.range (count c.nprevs)).forM fun i ↦ do
    writeInt (← elementAt c.prevCids i)
    writeInt (← elementAt c.prevLocs i)

/-- The loop over a vector of coefficients. -/
def writeCoef (c : AGCommand) (coef : List (BitVec 32)) : Program Unit :=
  (List.range (count c.nprevs)).forM fun i ↦ do
    writeInt (← elementAt coef i)

/-- The loop that appends to `_prevCids` and `_prevLocs`. -/
def readPrevs (c : AGCommand) : Program AGCommand := do
  let prevs ← times (do
    let cid ← readInt
    let loc ← readInt
    return (cid, loc)) (count c.nprevs)
  return { c with prevCids := c.prevCids ++ prevs.map Prod.fst, prevLocs := c.prevLocs ++ prevs.map Prod.snd }

def buildType0 (c : AGCommand) (type : BitVec 32) (filename ecid mode : Bytes) (filesizeMB : BitVec 32) :
    Program AGCommand := do
  let c := { c with type, filename, ecid, mode, filesizeMB }
  writeInt c.type
  writeString c.filename
  writeString c.ecid
  writeString c.mode
  writeInt c.filesizeMB
  return c

def resolveType0 (c : AGCommand) : Program AGCommand := do
  let filename ← readString
  let ecid ← readString
  let mode ← readString
  let filesizeMB ← readInt
  return { c with filename, ecid, mode, filesizeMB }

def buildType1 (c : AGCommand) (type : BitVec 32) (filename : Bytes) : Program AGCommand := do
  let c := { c with type, filename }
  writeInt c.type
  writeString c.filename
  return c

def resolveType1 (c : AGCommand) : Program AGCommand := do
  let filename ← readString
  return { c with filename }

def buildType2 (c : AGCommand) (type sendIp : BitVec 32) (stripeName : Bytes) (w numslices : BitVec 32)
    (readObjName : Bytes) (cidlist : List (BitVec 32)) (ref : IntMap) : Program AGCommand := do
  let c := { c with
    shouldSend := true, type, sendIp, stripeName, ecw := w, num := numslices, readObjName, readCidList := cidlist,
    cacheRefs := (entriesOf ref).foldl insertNew c.cacheRefs }
  writeInt c.type
  writeString c.stripeName
  writeInt c.ecw
  writeInt c.num
  writeString c.readObjName
  writeInt (size cidlist)
  cidlist.forM fun id ↦ do
    writeInt id
    writeInt (ref.at id)
  return c

def resolveType2 (c : AGCommand) : Program AGCommand := do
  let stripeName ← readString
  let ecw ← readInt
  let num ← readInt
  let readObjName ← readString
  let listsize ← readInt
  let items ← times (do
    let id ← readInt
    let ref ← readInt
    return (id, ref)) (count listsize)
  return { c with
    stripeName, ecw, num, readObjName, readCidList := c.readCidList ++ items.map Prod.fst,
    cacheRefs := items.foldl insertNew c.cacheRefs }

def buildType3 (c : AGCommand) (type sendIp : BitVec 32) (stripeName : Bytes) (w num prevnum : BitVec 32)
    (prevCids prevLocs : List (BitVec 32)) (coefs : VectorMap) (ref : IntMap) : Program AGCommand := do
  let c := { c with
    shouldSend := true, type, sendIp, stripeName, ecw := w, num, nprevs := prevnum, prevCids, prevLocs, coefs,
    cacheRefs := (entriesOf ref).foldl insertNew c.cacheRefs }
  writeInt c.type
  writeString c.stripeName
  writeInt c.ecw
  writeInt c.num
  writeInt c.nprevs
  c.writePrevs
  writeInt (size (entriesOf c.coefs))
  (entriesOf c.coefs).forM fun item ↦ do
    let r := ref.at item.1
    writeInt item.1
    c.writeCoef item.2
    writeInt r
  return c

def resolveType3 (c : AGCommand) : Program AGCommand := do
  let stripeName ← readString
  let ecw ← readInt
  let num ← readInt
  let nprevs ← readInt
  let c ← readPrevs { c with stripeName, ecw, num, nprevs }
  let targetnum ← readInt
  let items ← times (do
    let target ← readInt
    let coef ← times readInt (count c.nprevs)
    let r ← readInt
    return (target, coef, r)) (count targetnum)
  return { c with
    coefs := (items.map fun item ↦ (item.1, item.2.1)).foldl insertNew c.coefs
    cacheRefs := (items.map fun item ↦ (item.1, item.2.2)).foldl insertNew c.cacheRefs }

def buildType5 (c : AGCommand) (type sendIp : BitVec 32) (stripename : Bytes) (w num prevnum : BitVec 32)
    (prevCids prevLocs : List (BitVec 32)) (writeobjname : Bytes) : Program AGCommand := do
  let c := { c with
    shouldSend := true, type, sendIp, stripeName := stripename, ecw := w, num, nprevs := prevnum, prevCids,
    prevLocs, writeObjName := writeobjname }
  writeInt c.type
  writeString c.stripeName
  writeInt c.ecw
  writeInt c.num
  writeInt c.nprevs
  c.writePrevs
  writeString c.writeObjName
  return c

def resolveType5 (c : AGCommand) : Program AGCommand := do
  let stripeName ← readString
  let ecw ← readInt
  let num ← readInt
  let nprevs ← readInt
  let c ← readPrevs { c with stripeName, ecw, num, nprevs }
  let writeObjName ← readString
  return { c with writeObjName }

def buildType7 (c : AGCommand) (type sendIp : BitVec 32) (stripename : Bytes) (w num : BitVec 32)
    (readObjName : Bytes) (cidlist : List (BitVec 32)) (prevnum : BitVec 32) (prevCids prevLocs : List (BitVec 32))
    (coefs : VectorMap) (ref : IntMap) : Program AGCommand := do
  let c := { c with
    shouldSend := true, type, sendIp, stripeName := stripename, ecw := w, num, readObjName, readCidList := cidlist,
    nprevs := prevnum, prevCids, prevLocs, coefs, cacheRefs := ref }
  writeInt c.type
  writeString c.stripeName
  writeInt c.ecw
  writeInt c.num
  writeString c.readObjName
  writeInt (size c.readCidList)
  c.readCidList.forM writeInt
  writeInt c.nprevs
  c.writePrevs
  writeInt (size (entriesOf c.coefs))
  (entriesOf c.coefs).forM fun item ↦ do
    writeInt item.1
    c.writeCoef item.2
  writeInt (size (entriesOf ref))
  (entriesOf ref).forM fun item ↦ do
    writeInt item.1
    writeInt item.2
  return c

def resolveType7 (c : AGCommand) : Program AGCommand := do
  let stripeName ← readString
  let ecw ← readInt
  let num ← readInt
  let readObjName ← readString
  let readnum ← readInt
  let cids ← times readInt (count readnum)
  let nprevs ← readInt
  let c ← readPrevs { c with stripeName, ecw, num, readObjName, readCidList := c.readCidList ++ cids, nprevs }
  let targetnum ← readInt
  let items ← times (do
    let target ← readInt
    let coef ← times readInt (count c.nprevs)
    return (target, coef)) (count targetnum)
  let refnum ← readInt
  let refs ← times (do
    let cid ← readInt
    let r ← readInt
    return (cid, r)) (count refnum)
  return { c with coefs := items.foldl insertNew c.coefs, cacheRefs := refs.foldl insertNew c.cacheRefs }

def buildType10 (c : AGCommand) (type ecn eck ecw computen : BitVec 32) : Program AGCommand := do
  let c := { c with type, ecn, eck, ecw, computen }
  writeInt c.type
  writeInt c.ecn
  writeInt c.eck
  writeInt c.ecw
  writeInt c.computen
  return c

def resolveType10 (c : AGCommand) : Program AGCommand := do
  let ecn ← readInt
  let eck ← readInt
  let ecw ← readInt
  let computen ← readInt
  return { c with ecn, eck, ecw, computen }

def buildType11 (c : AGCommand) (type objnum basesizeMB : BitVec 32) : Program AGCommand := do
  let c := { c with type, objnum, basesizeMB }
  writeInt c.type
  writeInt c.objnum
  writeInt c.basesizeMB
  return c

def resolveType11 (c : AGCommand) : Program AGCommand := do
  let objnum ← readInt
  let basesizeMB ← readInt
  return { c with objnum, basesizeMB }

/-- The constructor that takes the bytes of a request. -/
def ofReqStr : Program AGCommand := do
  let type ← readInt
  let c : AGCommand := { type }
  match type.toNat with
  | 0 => c.resolveType0
  | 1 => c.resolveType1
  | 2 => c.resolveType2
  | 3 => c.resolveType3
  | 5 => c.resolveType5
  | 7 => c.resolveType7
  | 10 => c.resolveType10
  | 11 => c.resolveType11
  | _ => return c

end AGCommand

/-! ## CoorCommand -/

/-- `CoorCommand` without its buffer. -/
structure CoorCommand where
  type : BitVec 32 := 0
  clientIp : BitVec 32 := 0
  filename : Bytes := []
  ecid : Bytes := []
  mode : BitVec 32 := 0
  filesizeMB : BitVec 32 := 0
  numOfReplicas : BitVec 32 := 0
  ecpoolid : Bytes := []
  stripename : Bytes := []
  op : BitVec 32 := 0
  ectype : Bytes := []
  corruptIdx : List (BitVec 32) := []
  benchname : Bytes := []

namespace CoorCommand

def buildType0 (c : CoorCommand) (type ip : BitVec 32) (filename ecid : Bytes) (mode filesizeMB : BitVec 32) :
    Program CoorCommand := do
  let c := { c with type, clientIp := ip, filename, ecid, mode, filesizeMB }
  writeInt c.type
  writeInt c.clientIp
  writeString c.filename
  writeString c.ecid
  writeInt c.mode
  writeInt c.filesizeMB
  return c

def resolveType0 (c : CoorCommand) : Program CoorCommand := do
  let clientIp ← readInt
  let filename ← readString
  let ecid ← readString
  let mode ← readInt
  let filesizeMB ← readInt
  return { c with clientIp, filename, ecid, mode, filesizeMB }

def resolveType1 (c : CoorCommand) : Program CoorCommand := do
  let clientIp ← readRawInt
  let filename ← readString
  let numOfReplicas ← readInt
  return { c with clientIp, filename, numOfReplicas }

/-- A command of an address and a name of a file or an object. -/
def buildNamed (c : CoorCommand) (type ip : BitVec 32) (filename : Bytes) : Program CoorCommand := do
  let c := { c with type, clientIp := ip, filename }
  writeInt c.type
  writeInt c.clientIp
  writeString c.filename
  return c

def resolveNamed (c : CoorCommand) : Program CoorCommand := do
  let clientIp ← readInt
  let filename ← readString
  return { c with clientIp, filename }

def buildType2 (c : CoorCommand) (type ip : BitVec 32) (filename : Bytes) : Program CoorCommand :=
  c.buildNamed type ip filename

def resolveType2 (c : CoorCommand) : Program CoorCommand := c.resolveNamed

def buildType3 (c : CoorCommand) (type ip : BitVec 32) (filename : Bytes) : Program CoorCommand :=
  c.buildNamed type ip filename

def resolveType3 (c : CoorCommand) : Program CoorCommand := c.resolveNamed

def buildType4 (c : CoorCommand) (type ip : BitVec 32) (poolname stripename : Bytes) : Program CoorCommand := do
  let c := { c with type, clientIp := ip, ecpoolid := poolname, stripename }
  writeInt c.type
  writeInt c.clientIp
  writeString c.ecpoolid
  writeString c.stripename
  return c

def resolveType4 (c : CoorCommand) : Program CoorCommand := do
  let clientIp ← readInt
  let ecpoolid ← readString
  let stripename ← readString
  return { c with clientIp, ecpoolid, stripename }

def buildType5 (c : CoorCommand) (type ip : BitVec 32) (objname : Bytes) : Program CoorCommand :=
  c.buildNamed type ip objname

def resolveType5 (c : CoorCommand) : Program CoorCommand := c.resolveNamed

def resolveType6 (c : CoorCommand) : Program CoorCommand := c.resolveNamed

def buildType7 (c : CoorCommand) (type op : BitVec 32) (ectype : Bytes) : Program CoorCommand := do
  let c := { c with type, op, ectype }
  writeInt type
  writeInt op
  writeString ectype
  return c

def resolveType7 (c : CoorCommand) : Program CoorCommand := do
  let op ← readInt
  let ectype ← readString
  return { c with op, ectype }

def buildType8 (c : CoorCommand) (type ip : BitVec 32) (objname : Bytes) : Program CoorCommand :=
  c.buildNamed type ip objname

def resolveType8 (c : CoorCommand) : Program CoorCommand := c.resolveNamed

def buildType9 (c : CoorCommand) (type ip : BitVec 32) (filename : Bytes) (corruptIdx : List (BitVec 32)) :
    Program CoorCommand := do
  let c := { c with type, clientIp := ip, filename, corruptIdx }
  writeInt c.type
  writeInt c.clientIp
  writeString c.filename
  writeInt (size corruptIdx)
  corruptIdx.forM writeInt
  return c

def resolveType9 (c : CoorCommand) : Program CoorCommand := do
  let clientIp ← readInt
  let filename ← readString
  let num ← readInt
  let idxs ← times readInt (count num)
  return { c with clientIp, filename, corruptIdx := c.corruptIdx ++ idxs }

def resolveType11 (c : CoorCommand) : Program CoorCommand := c.resolveNamed

def buildType12 (c : CoorCommand) (type ip : BitVec 32) (benchname : Bytes) : Program CoorCommand := do
  let c := { c with type, clientIp := ip, benchname }
  writeInt c.type
  writeInt c.clientIp
  writeString c.benchname
  return c

def resolveType12 (c : CoorCommand) : Program CoorCommand := do
  let clientIp ← readInt
  let benchname ← readString
  return { c with clientIp, benchname }

/-- The constructor that takes the bytes of a request. -/
def ofReqStr : Program CoorCommand := do
  let type ← readInt
  let c : CoorCommand := { type }
  match type.toNat with
  | 0 => c.resolveType0
  | 1 => c.resolveType1
  | 2 => c.resolveType2
  | 3 => c.resolveType3
  | 4 => c.resolveType4
  | 5 => c.resolveType5
  | 6 => c.resolveType6
  | 7 => c.resolveType7
  | 8 => c.resolveType8
  | 9 => c.resolveType9
  | 11 => c.resolveType11
  | 12 => c.resolveType12
  | _ => return c

end CoorCommand

/-! ## ECTask -/

/-- What of `ECTask` is sent. -/
structure ECTask where
  type : BitVec 32 := 0
  children : List (BitVec 32) := []
  coefMap : VectorMap := ∅

namespace ECTask

def setType (t : ECTask) (type : BitVec 32) : ECTask := { t with type }

def setChildren (t : ECTask) (children : List (BitVec 32)) : ECTask := { t with children }

def setCoefmap (t : ECTask) (map : VectorMap) : ECTask := { t with coefMap := map }

def buildType2 (t : ECTask) : Program ECTask := do
  writeInt t.type
  writeInt (size t.children)
  t.children.forM writeInt
  writeInt (size (entriesOf t.coefMap))
  (entriesOf t.coefMap).forM fun item ↦ do
    writeInt item.1
    writeInt (size item.2)
    item.2.forM writeInt
  return t

def resolveType2 (t : ECTask) : Program ECTask := do
  let numchildren ← readInt
  let children ← times readInt (count numchildren)
  let targetnum ← readInt
  let items ← times (do
    let target ← readInt
    let coefnum ← readInt
    let coef ← times readInt (count coefnum)
    return (target, coef)) (count targetnum)
  return { t with children := t.children ++ children, coefMap := items.foldl insertNew t.coefMap }

/-- The constructor that takes the bytes of a request. -/
def ofReqStr : Program ECTask := do
  let type ← readInt
  let t : ECTask := { type }
  match type.toNat with
  | 2 => t.resolveType2
  | _ => return t

end ECTask

end UniDedup.Storage.Wire
