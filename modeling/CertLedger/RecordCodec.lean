import CertLedger.NdnObjects

/-!
# Records and their content

A record has a name, a type, its pointers in order and a payload. Its content
is one element with three sub-elements; the pointers are the concatenated names.
Payload spans are values here, without the lifetime of the buffer under them.
-/
namespace CertLedger.RecordCodec
open TlvCodec NdnObjects

def GENERIC_RECORD : UInt32 := 1
def GENESIS_RECORD : UInt32 := 4
def REPLY_RECORD : UInt32 := 5

def TLV_RECORD_TYPE : ℕ := 211
def TLV_RECORD_POINTER : ℕ := 212
def TLV_RECORD_PAYLOAD : ℕ := 213

@[ext] structure Record where
  name : Name := []
  type : UInt32 := GENERIC_RECORD
  pointers : List Name := []
  payload : Buffer := []
  deriving DecidableEq

namespace Record

def isGenesis (r : Record) : Bool := r.type == GENESIS_RECORD

def prepareContent (r : Record) : Block :=
  ⟨tlvContent, wireAll [
    ⟨TLV_RECORD_TYPE, nonNegativeInteger r.type.toNat, by decide, by decide⟩,
    ⟨TLV_RECORD_POINTER, wireAll (r.pointers.map Name.wireEncode), by decide, by decide⟩,
    ⟨TLV_RECORD_PAYLOAD, r.payload, by decide, by decide⟩], by decide, by decide⟩

/-- One turn of the loop over the elements of a content. -/
def readItem (r : Record) (item : Block) : Except Error Record :=
  if item.type = TLV_RECORD_TYPE then do
    let n ← parsed (readNonNegativeInteger item.value)
    return { r with type := UInt32.ofNat n }
  else if item.type = TLV_RECORD_PAYLOAD then return { r with payload := item.value }
  else if item.type = TLV_RECORD_POINTER then do
    let ptrs ← parsed item.elements
    let names ← parsed (readNames ptrs)
    return { r with pointers := r.pointers ++ names }
  else if isCriticalType item.type then throw (.unrecognizedType item.type)
  else return r

/-- The constructor from a content. The source leaves the type unset until the
loop meets its element; it is zero here. -/
def ofContent (name : Name) (content : Block) : Except Error Record := do
  let items ← parsed content.elements
  items.foldlM readItem { name := name, type := 0 }

theorem readItem_type (r : Record) (t : UInt32) (hp : 0 < TLV_RECORD_TYPE)
    (hl : TLV_RECORD_TYPE < 2 ^ 32) :
    readItem r ⟨TLV_RECORD_TYPE, nonNegativeInteger t.toNat, hp, hl⟩ = .ok { r with type := t } := by
  have ht : t.toNat < 2 ^ 64 := lt_trans t.toNat_lt (by decide)
  rw [readItem, if_pos rfl, readNonNegativeInteger_of_lt ht]
  simp [bind, Except.bind, pure, Except.pure]

theorem readItem_pointers (r : Record) (names : List Name) (hp : 0 < TLV_RECORD_POINTER)
    (hl : TLV_RECORD_POINTER < 2 ^ 32) :
    readItem r ⟨TLV_RECORD_POINTER, wireAll (names.map Name.wireEncode), hp, hl⟩ =
      .ok { r with pointers := r.pointers ++ names } := by
  dsimp only [readItem]
  rw [if_neg (by decide), if_neg (by decide), if_pos rfl, Block.elements_wireAll rfl]
  simp [bind, Except.bind, pure, Except.pure, readNames_wireEncode]

theorem readItem_payload (r : Record) (payload : Buffer) (hp : 0 < TLV_RECORD_PAYLOAD)
    (hl : TLV_RECORD_PAYLOAD < 2 ^ 32) :
    readItem r ⟨TLV_RECORD_PAYLOAD, payload, hp, hl⟩ = .ok { r with payload := payload } := by
  dsimp only [readItem]
  rw [if_neg (by decide), if_pos rfl]
  rfl

/-- A content restores everything but the name, which its reader supplies. -/
theorem ofContent_prepareContent (r : Record) (name : Name) :
    ofContent name r.prepareContent = .ok { r with name := name } := by
  have h : r.prepareContent.elements = some _ := Block.elements_wireAll rfl
  rw [ofContent, h, parsed_some]
  simp only [bind, Except.bind, List.foldlM_cons, List.foldlM_nil, readItem_type,
    readItem_pointers, readItem_payload, List.nil_append]
  rfl

/-- Every pointer takes at least one octet of the content. -/
theorem pointers_length_le (r : Record) : r.pointers.length ≤ r.prepareContent.value.length := by
  have h := length_le_wireAll (r.pointers.map Name.wireEncode)
  simp only [prepareContent, wireAll_cons, Block.wire, List.length_append, List.length_map] at h ⊢
  omega

end Record

end CertLedger.RecordCodec
