import CertLedger.RecordCodec

/-!
# Edge states and their blocks

The state of a record in the ledger's graph, the name it is stored under and the
block it is stored as. A block restores its state up to the two time points,
which come back at the resolution of their ISO strings, and the record's name,
which is read off the state name.
-/
namespace CertLedger.EdgeStateCodec
open Std TlvCodec NdnObjects RecordCodec OrderedContainers

def TLV_EDGE_STATE_TYPE : ℕ := 311
def TLV_EDGE_STATE_STATUS : ℕ := 312
def TLV_EDGE_STATE_DESCENDANTS : ℕ := 313
def TLV_EDGE_STATE_CREATED_T : ℕ := 314
def TLV_EDGE_STATE_INTERLOCK_T : ℕ := 315

/-- "/32=EdgeState" -/
def stateNameHeader : Name := [Name.keyword [69, 100, 103, 101, 83, 116, 97, 116, 101]]

def toStateName (recordName : Name) : Name := stateNameHeader ++ recordName

def fromStateName (stateName : Name) : Name := stateName.drop 1

@[simp] theorem fromStateName_toStateName (n : Name) : fromStateName (toStateName n) = n := rfl

theorem toStateName_injective : Function.Injective toStateName := by
  intro m n h
  have := congrArg fromStateName h
  simpa using this

@[simp] theorem toStateName_inj {m n : Name} : toStateName m = toStateName n ↔ m = n :=
  toStateName_injective.eq_iff

/-- A name whose first component is the header. -/
def IsStateName (n : Name) : Prop := ∃ m, n = toStateName m

theorem isStateName_toStateName (n : Name) : IsStateName (toStateName n) := ⟨n, rfl⟩

theorem isStateName_of_mem {pointers : List Name} :
    ∀ r ∈ pointers.map toStateName, IsStateName r := by
  intro r hr
  obtain ⟨m, -, rfl⟩ := List.mem_map.mp hr
  exact isStateName_toStateName m

theorem IsStateName.toStateName_fromStateName {n : Name} (h : IsStateName n) :
    toStateName (fromStateName n) = n := by
  obtain ⟨m, hm⟩ := h
  rw [hm, fromStateName_toStateName]

instance (n : Name) : Decidable (IsStateName n) :=
  decidable_of_iff (toStateName (fromStateName n) = n)
    ⟨fun h => ⟨_, h.symm⟩, fun h => h.toStateName_fromStateName⟩

inductive Status where
  | INITIALIZED
  | LOADED
  | INTERLOCKED
  deriving DecidableEq

namespace Status

def toNat : Status → ℕ
  | INITIALIZED => 0
  | LOADED => 2
  | INTERLOCKED => 3

/-- The cast from a number; the source writes no other than these three. -/
def cast : ℕ → Except Error Status
  | 0 => .ok INITIALIZED
  | 2 => .ok LOADED
  | 3 => .ok INTERLOCKED
  | _ => .error .tlv

theorem toNat_lt (s : Status) : s.toNat < 2 ^ 64 := by cases s <;> decide

@[simp] theorem cast_toNat (s : Status) : cast s.toNat = .ok s := by cases s <;> rfl

theorem eq_loaded {s : Status} (h : s ≠ INITIALIZED) (h' : s ≠ INTERLOCKED) : s = LOADED := by
  cases s with
  | INITIALIZED => exact (h rfl).elim
  | LOADED => rfl
  | INTERLOCKED => exact (h' rfl).elim

end Status

@[ext] structure EdgeState where
  stateName : Name := []
  record : Record := {}
  descendants : NameSet := ∅
  status : Status := .INITIALIZED
  created : Time := 0
  interlocked : Time := 0
  deriving DecidableEq

variable [NdnCxx]

def descendantsBlock (descendants : NameSet) : List Block :=
  if descendants.toList = [] then [] else
    [⟨TLV_EDGE_STATE_DESCENDANTS, wireAll (descendants.toList.map Name.wireEncode),
      by decide, by decide⟩]

def encodeEdgeState (state : EdgeState) : Block :=
  ⟨TLV_EDGE_STATE_TYPE, wireAll (
    [state.stateName.wireEncode,
      ⟨TLV_EDGE_STATE_STATUS, nonNegativeInteger state.status.toNat, by decide, by decide⟩,
      state.record.prepareContent] ++
    descendantsBlock state.descendants ++
    [⟨TLV_EDGE_STATE_CREATED_T, NdnCxx.toIsoString state.created, by decide, by decide⟩,
      ⟨TLV_EDGE_STATE_INTERLOCK_T, NdnCxx.toIsoString state.interlocked, by decide, by decide⟩]),
    by decide, by decide⟩

/-- One turn of the loop over the elements of a block. The record is named after
the state name that has been read so far. -/
def readStateItem (state : EdgeState) (item : Block) : Except Error EdgeState :=
  if item.type = tlvName then do
    let n ← parsed (Name.ofBlock item)
    return { state with stateName := n }
  else if item.type = TLV_EDGE_STATE_STATUS then do
    let n ← parsed (readNonNegativeInteger item.value)
    let status ← Status.cast n
    return { state with status := status }
  else if item.type = tlvContent then do
    let record ← Record.ofContent (fromStateName state.stateName) item
    return { state with record := record }
  else if item.type = TLV_EDGE_STATE_DESCENDANTS then do
    let ptrs ← parsed item.elements
    let names ← parsed (readNames ptrs)
    return { state with descendants := names.foldl (fun s n => s.insert n) state.descendants }
  else if item.type = TLV_EDGE_STATE_CREATED_T then do
    let t ← parsed (NdnCxx.fromIsoString item.value)
    return { state with created := t }
  else if item.type = TLV_EDGE_STATE_INTERLOCK_T then do
    let t ← parsed (NdnCxx.fromIsoString item.value)
    return { state with interlocked := t }
  else if isCriticalType item.type then throw (.unrecognizedType item.type)
  else return state

def decodeEdgeState (block : Block) : Except Error EdgeState := do
  let items ← parsed block.elements
  if block.type ≠ TLV_EDGE_STATE_TYPE then throw .typeIncorrect
  items.foldlM readStateItem {}

/-- What a stored state keeps. -/
def EdgeState.stored (state : EdgeState) : EdgeState :=
  { state with
    record := { state.record with name := fromStateName state.stateName }
    created := isoTime state.created
    interlocked := isoTime state.interlocked }

@[simp] theorem stored_stored (s : EdgeState) : s.stored.stored = s.stored := by
  simp [EdgeState.stored]

section ReadItems
variable (state : EdgeState)

theorem readStateItem_name (n : Name) :
    readStateItem state n.wireEncode = .ok { state with stateName := n } := by
  have ht : n.wireEncode.type = tlvName := rfl
  rw [readStateItem, if_pos ht, Name.ofBlock_wireEncode]
  rfl

theorem readStateItem_status (status : Status) (hp : 0 < TLV_EDGE_STATE_STATUS)
    (hl : TLV_EDGE_STATE_STATUS < 2 ^ 32) :
    readStateItem state ⟨TLV_EDGE_STATE_STATUS, nonNegativeInteger status.toNat, hp, hl⟩ =
      .ok { state with status := status } := by
  dsimp only [readStateItem]
  rw [if_neg (by decide), if_pos rfl, readNonNegativeInteger_of_lt status.toNat_lt]
  simp [bind, Except.bind, pure, Except.pure]

theorem readStateItem_record (r : Record) :
    readStateItem state r.prepareContent =
      .ok { state with record := { r with name := fromStateName state.stateName } } := by
  have ht : r.prepareContent.type = tlvContent := rfl
  rw [readStateItem, ht, if_neg (by decide), if_neg (by decide), if_pos rfl,
    Record.ofContent_prepareContent]
  rfl

theorem readStateItem_descendants (names : List Name) (hp : 0 < TLV_EDGE_STATE_DESCENDANTS)
    (hl : TLV_EDGE_STATE_DESCENDANTS < 2 ^ 32) :
    readStateItem state
        ⟨TLV_EDGE_STATE_DESCENDANTS, wireAll (names.map Name.wireEncode), hp, hl⟩ =
      .ok { state with
        descendants := names.foldl (fun s n => s.insert n) state.descendants } := by
  dsimp only [readStateItem]
  rw [if_neg (by decide), if_neg (by decide), if_neg (by decide), if_pos rfl,
    Block.elements_wireAll rfl]
  simp [bind, Except.bind, pure, Except.pure, readNames_wireEncode]

theorem readStateItem_created (t : Time) (hp : 0 < TLV_EDGE_STATE_CREATED_T)
    (hl : TLV_EDGE_STATE_CREATED_T < 2 ^ 32) :
    readStateItem state ⟨TLV_EDGE_STATE_CREATED_T, NdnCxx.toIsoString t, hp, hl⟩ =
      .ok { state with created := isoTime t } := by
  dsimp only [readStateItem]
  rw [if_neg (by decide), if_neg (by decide), if_neg (by decide),
    if_neg (by decide), if_pos rfl, NdnCxx.fromIsoString_toIsoString]
  rfl

theorem readStateItem_interlocked (t : Time) (hp : 0 < TLV_EDGE_STATE_INTERLOCK_T)
    (hl : TLV_EDGE_STATE_INTERLOCK_T < 2 ^ 32) :
    readStateItem state ⟨TLV_EDGE_STATE_INTERLOCK_T, NdnCxx.toIsoString t, hp, hl⟩ =
      .ok { state with interlocked := isoTime t } := by
  dsimp only [readStateItem]
  rw [if_neg (by decide), if_neg (by decide), if_neg (by decide),
    if_neg (by decide), if_neg (by decide), if_pos rfl, NdnCxx.fromIsoString_toIsoString]
  rfl

/-- The optional element restores the set whether it is written or left out. -/
theorem foldlM_descendantsBlock (descendants : NameSet) (h : state.descendants = ∅)
    (rest : List Block) :
    (descendantsBlock descendants ++ rest).foldlM readStateItem state =
      rest.foldlM readStateItem { state with descendants := descendants } := by
  have hd := foldl_insert_toList descendants
  unfold descendantsBlock
  split_ifs with he
  · have hs : descendants = ∅ := by rw [← hd, he]; rfl
    rw [List.nil_append, hs, ← h]
  · rw [List.singleton_append, List.foldlM_cons, readStateItem_descendants, h, hd]
    rfl

end ReadItems

theorem decodeEdgeState_encodeEdgeState (state : EdgeState) :
    decodeEdgeState (encodeEdgeState state) = .ok state.stored := by
  have h : (encodeEdgeState state).elements = some _ := Block.elements_wireAll rfl
  rw [decodeEdgeState, h, parsed_some]
  simp only [bind, Except.bind, List.cons_append, List.nil_append,
    List.foldlM_cons, readStateItem_name, readStateItem_status, readStateItem_record]
  rw [foldlM_descendantsBlock _ _ rfl]
  simp only [bind, Except.bind, List.foldlM_cons, List.foldlM_nil, readStateItem_created,
    readStateItem_interlocked]
  rfl

/-- A block of another type is no edge state. -/
theorem decodeEdgeState_type {block : Block} {state : EdgeState}
    (h : decodeEdgeState block = .ok state) : block.type = TLV_EDGE_STATE_TYPE := by
  by_contra hne
  unfold decodeEdgeState at h
  cases he : block.elements with
  | none => simp [he, parsed, bind, Except.bind] at h
  | some items => simp [he, hne, bind, Except.bind, throw, throwThe, MonadExceptOf.throw] at h

theorem pointers_length_le_encode (state : EdgeState) :
    state.record.pointers.length ≤ (encodeEdgeState state).value.length := by
  have h₁ := state.record.pointers_length_le
  have h₂ := state.record.prepareContent.value_length_le_wire
  simp only [encodeEdgeState, wireAll_append, wireAll_cons, List.length_append]
  omega

end CertLedger.EdgeStateCodec
