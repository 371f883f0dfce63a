import CertLedger.EdgeStateCodec

/-!
# The tracker and the payload maps

Two small objects the ledger keeps in its storage beside the edge states: the
list of the names of all states, and for every logged payload the state that
logs it.
-/
namespace CertLedger.LedgerIndexCodec
open Std TlvCodec NdnObjects RecordCodec EdgeStateCodec OrderedContainers

/-- A name nested as the only element of a value. -/
def nestedName (n : Name) : Buffer := n.wireEncode.wire

def readNested (value : Buffer) : Option (Block × Buffer) := readBlock value

theorem readNested_nestedName (n : Name) :
    readNested (nestedName n) = some (n.wireEncode, []) := by
  have h := readBlock_wire n.wireEncode []
  rwa [List.append_nil] at h

/-! ## Lists of state names -/

def TLV_EDGE_STATE_LIST_TYPE : ℕ := 351
def TLV_EDGE_STATE_LIST_NAME : ℕ := 352
def TLV_EDGE_STATE_LIST_KEY : ℕ := 353
def TLV_EDGE_STATE_LIST_VALUE : ℕ := 354
def TLV_EDGE_STATE_LIST_NEXT : ℕ := 355

/-- "/32=EdgeStateList" -/
def stateListNameHeader : Name :=
  [Name.keyword [69, 100, 103, 101, 83, 116, 97, 116, 101, 76, 105, 115, 116]]

/-- "/32=EdgeStateList/null" -/
def getStateListNull : Name :=
  stateListNameHeader ++ [Name.generic [110, 117, 108, 108]]

def globalTracker : UInt32 := 0

def toStateListName (key : UInt32) : Name := stateListNameHeader.appendNumber key

@[ext] structure EdgeStateList where
  listName : Name := []
  key : UInt32 := 0
  value : NameSet := ∅
  nextList : Name := []
  deriving DecidableEq

namespace EdgeStateList

def valueBlock (value : NameSet) : List Block :=
  if value.toList = [] then [] else
    [⟨TLV_EDGE_STATE_LIST_VALUE, wireAll (value.toList.map Name.wireEncode),
      by decide, by decide⟩]

def encodeEdgeStateList (l : EdgeStateList) : Block :=
  ⟨TLV_EDGE_STATE_LIST_TYPE, wireAll (
    [⟨TLV_EDGE_STATE_LIST_NAME, nestedName l.listName, by decide, by decide⟩,
      ⟨TLV_EDGE_STATE_LIST_KEY, nonNegativeInteger l.key.toNat, by decide, by decide⟩] ++
    valueBlock l.value ++
    [⟨TLV_EDGE_STATE_LIST_NEXT, nestedName l.nextList, by decide, by decide⟩]),
    by decide, by decide⟩

/-- `Name::wireDecode` of the block a span begins with. -/
def wireDecodeName (value : Buffer) : Except Error Name := do
  let (block, _) ← parsed (readNested value)
  if block.type ≠ tlvName then throw .tlv
  parsed (Name.ofBlock block)

def readItem (l : EdgeStateList) (item : Block) : Except Error EdgeStateList :=
  if item.type = TLV_EDGE_STATE_LIST_NAME then do
    let n ← wireDecodeName item.value
    return { l with listName := n }
  else if item.type = TLV_EDGE_STATE_LIST_KEY then do
    let k ← parsed (readNonNegativeInteger item.value)
    return { l with key := UInt32.ofNat k }
  else if item.type = TLV_EDGE_STATE_LIST_VALUE then do
    let ptrs ← parsed item.elements
    let names ← parsed (readNames ptrs)
    return { l with value := names.foldl (fun s n => s.insert n) l.value }
  else if item.type = TLV_EDGE_STATE_LIST_NEXT then do
    let n ← wireDecodeName item.value
    return { l with nextList := n }
  else if isCriticalType item.type then throw (.unrecognizedType item.type)
  else return l

def decodeEdgeStateList (block : Block) : Except Error EdgeStateList := do
  let items ← parsed block.elements
  if block.type ≠ TLV_EDGE_STATE_LIST_TYPE then throw .typeIncorrect
  items.foldlM readItem {}

theorem wireDecodeName_nestedName (n : Name) : wireDecodeName (nestedName n) = .ok n := by
  have ht : n.wireEncode.type = tlvName := rfl
  simp [wireDecodeName, readNested_nestedName, ht, bind, Except.bind]

section ReadItems
variable (l : EdgeStateList)

theorem readItem_name (n : Name) (hp : 0 < TLV_EDGE_STATE_LIST_NAME)
    (hl : TLV_EDGE_STATE_LIST_NAME < 2 ^ 32) :
    readItem l ⟨TLV_EDGE_STATE_LIST_NAME, nestedName n, hp, hl⟩ =
      .ok { l with listName := n } := by
  rw [readItem, if_pos rfl, wireDecodeName_nestedName]
  rfl

theorem readItem_key (k : UInt32) (hp : 0 < TLV_EDGE_STATE_LIST_KEY)
    (hl : TLV_EDGE_STATE_LIST_KEY < 2 ^ 32) :
    readItem l ⟨TLV_EDGE_STATE_LIST_KEY, nonNegativeInteger k.toNat, hp, hl⟩ =
      .ok { l with key := k } := by
  have hk : k.toNat < 2 ^ 64 := Nat.lt_trans k.toNat_lt (by decide)
  dsimp only [readItem]
  rw [if_neg (by decide), if_pos rfl, readNonNegativeInteger_of_lt hk]
  simp [bind, Except.bind, pure, Except.pure]

theorem readItem_next (n : Name) (hp : 0 < TLV_EDGE_STATE_LIST_NEXT)
    (hl : TLV_EDGE_STATE_LIST_NEXT < 2 ^ 32) :
    readItem l ⟨TLV_EDGE_STATE_LIST_NEXT, nestedName n, hp, hl⟩ =
      .ok { l with nextList := n } := by
  dsimp only [readItem]
  rw [if_neg (by decide), if_neg (by decide), if_neg (by decide), if_pos rfl,
    wireDecodeName_nestedName]
  rfl

theorem foldlM_valueBlock (value : NameSet) (h : l.value = ∅) (rest : List Block) :
    (valueBlock value ++ rest).foldlM readItem l =
      rest.foldlM readItem { l with value := value } := by
  have hd := foldl_insert_toList value
  unfold valueBlock
  split_ifs with he
  · have hs : value = ∅ := by rw [← hd, he]; rfl
    rw [List.nil_append, hs, ← h]
  · rw [List.singleton_append, List.foldlM_cons]
    dsimp only [readItem]
    rw [if_neg (by decide), if_neg (by decide), if_pos rfl, Block.elements_wireAll rfl]
    simp only [parsed_some, readNames_wireEncode, bind, Except.bind, pure, Except.pure, h, hd]

end ReadItems

theorem decodeEdgeStateList_encodeEdgeStateList (l : EdgeStateList) :
    decodeEdgeStateList (encodeEdgeStateList l) = .ok l := by
  have h : (encodeEdgeStateList l).elements = some _ := Block.elements_wireAll rfl
  rw [decodeEdgeStateList, h, parsed_some]
  simp only [bind, Except.bind, List.cons_append, List.nil_append, List.foldlM_cons,
    readItem_name, readItem_key]
  rw [foldlM_valueBlock _ _ rfl]
  simp only [bind, Except.bind, List.foldlM_cons, List.foldlM_nil, readItem_next]
  rfl

theorem decodeEdgeStateList_type {block : Block} {l : EdgeStateList}
    (h : decodeEdgeStateList block = .ok l) : block.type = TLV_EDGE_STATE_LIST_TYPE := by
  by_contra hne
  unfold decodeEdgeStateList at h
  cases he : block.elements with
  | none => simp [he, parsed, bind, Except.bind] at h
  | some items => simp [he, hne, bind, Except.bind, throw, throwThe, MonadExceptOf.throw] at h

end EdgeStateList

/-! ## Payload maps -/

def TLV_PAYLOAD_MAP_TYPE : ℕ := 381
def TLV_PAYLOAD_MAP_TO : ℕ := 382

/-- "/32=PayloadMap" -/
def mapNameHeader : Name :=
  [Name.keyword [80, 97, 121, 108, 111, 97, 100, 77, 97, 112]]

def toMapName [NdnCxx] (payload : Buffer) : Name :=
  mapNameHeader.appendParametersSha256Digest (NdnCxx.sha256 payload)

@[ext] structure PayloadMap where
  mapName : Name := []
  mapTo : Name := []
  deriving DecidableEq

namespace PayloadMap

def encodePayloadMap (map : PayloadMap) : Block :=
  ⟨TLV_PAYLOAD_MAP_TYPE, wireAll [map.mapName.wireEncode,
    ⟨TLV_PAYLOAD_MAP_TO, nestedName map.mapTo, by decide, by decide⟩], by decide, by decide⟩

/-- `Block::blockFromValue`: the value is exactly one element. -/
def blockFromValue (value : Buffer) : Except Error Block := do
  let (block, rest) ← parsed (readNested value)
  if rest ≠ [] then throw .tlv
  return block

def readItem (map : PayloadMap) (item : Block) : Except Error PayloadMap :=
  if item.type = tlvName then do
    let n ← parsed (Name.ofBlock item)
    return { map with mapName := n }
  else if item.type = TLV_PAYLOAD_MAP_TO then do
    let block ← blockFromValue item.value
    let n ← parsed (Name.ofBlock block)
    return { map with mapTo := n }
  else if isCriticalType item.type then throw (.unrecognizedType item.type)
  else return map

def decodePayloadMap (block : Block) : Except Error PayloadMap := do
  let items ← parsed block.elements
  if block.type ≠ TLV_PAYLOAD_MAP_TYPE then throw .typeIncorrect
  items.foldlM readItem {}

theorem decodePayloadMap_encodePayloadMap (map : PayloadMap) :
    decodePayloadMap (encodePayloadMap map) = .ok map := by
  have h : (encodePayloadMap map).elements = some _ := Block.elements_wireAll rfl
  have ht : map.mapName.wireEncode.type = tlvName := rfl
  rw [decodePayloadMap, h, parsed_some]
  simp [encodePayloadMap, readItem, ht, blockFromValue, readNested_nestedName, TLV_PAYLOAD_MAP_TO,
    tlvName, bind, Except.bind, pure, Except.pure]

end PayloadMap

/-! ## All codecs -/

/-- What is written is read back: a record but for the name its reader supplies, a state up to
the resolution of its times and with its record named after it, the two indexes as they were. -/
theorem codecs_round_trip [NdnCxx] (record : Record) (name : Name) (state : EdgeState)
    (l : EdgeStateList) (map : PayloadMap) :
    Record.ofContent name record.prepareContent = .ok { record with name := name } ∧
    decodeEdgeState (encodeEdgeState state) = .ok { state with
      record := { state.record with name := fromStateName state.stateName }
      created := isoTime state.created
      interlocked := isoTime state.interlocked } ∧
    EdgeStateList.decodeEdgeStateList l.encodeEdgeStateList = .ok l ∧
    PayloadMap.decodePayloadMap map.encodePayloadMap = .ok map :=
  ⟨Record.ofContent_prepareContent record name, decodeEdgeState_encodeEdgeState state,
    EdgeStateList.decodeEdgeStateList_encodeEdgeStateList l,
    PayloadMap.decodePayloadMap_encodePayloadMap map⟩

end CertLedger.LedgerIndexCodec
