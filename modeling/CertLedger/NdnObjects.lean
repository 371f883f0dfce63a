import CertLedger.TlvCodec
import CertLedger.OrderedContainers
import Mathlib.Tactic.Common

/-!
# Names, Data and the library functions behind them

Names are lists of elements in the canonical order. What the ledger takes from
its libraries without their code being part of the repository is collected in
`NdnCxx`: the ISO form of a time point, SHA-256 and the decoding of Data.
Containers of names and the counters that measure them are unbounded; a
`uint32_t` or `size_t` of the source would need more names than fit in memory
to wrap.
-/
namespace CertLedger.NdnObjects
open Std TlvCodec

/-! ## Names -/

/-- Canonical order of elements: type, then length, then octets. -/
instance : Ord Block :=
  ⟨compareLex (compareOn (·.type)) (compareLex (compareOn (·.value.length)) (compareOn (·.value)))⟩

instance : TransOrd Block :=
  inferInstanceAs (TransCmp (compareLex (compareOn Block.type)
    (compareLex (compareOn fun b => b.value.length) (compareOn Block.value))))

instance : LawfulEqOrd Block where
  eq_of_compare {a b} h := by
    have h' : ((compare a.type b.type).then ((compare a.value.length b.value.length).then
      (compare a.value b.value))) = .eq := h
    rw [Ordering.then_eq_eq, Ordering.then_eq_eq] at h'
    exact Block.ext (LawfulEqOrd.compare_eq_iff_eq.mp h'.1)
      (LawfulEqOrd.compare_eq_iff_eq.mp h'.2.2)

abbrev Name := List Block

instance : LawfulBEq Name := inferInstance

abbrev NameSet := ExtTreeSet Name

/-- TLV-TYPE of a name. -/
def tlvName : ℕ := 7

/-- TLV-TYPE of the content of Data. -/
def tlvContent : ℕ := 21

theorem tlvContent_pos : 0 < tlvContent := by decide

theorem tlvContent_lt : tlvContent < 2 ^ 32 := by decide

/-- TLV-TYPE of Data. -/
def tlvData : ℕ := 6

namespace Name

def wireEncode (n : Name) : Block := ⟨tlvName, wireAll n, by decide, by decide⟩

/-- The components are the sub-elements; the type of the element is not looked at. -/
def ofBlock (b : Block) : Option Name := b.elements

@[simp] theorem ofBlock_wireEncode (n : Name) : ofBlock n.wireEncode = some n :=
  Block.elements_wireAll rfl

def getPrefixButLast (n : Name) : Name := n.dropLast

/-- A keyword component, type 32. -/
def keyword (value : Buffer) : Block := ⟨32, value, by decide, by decide⟩

/-- A generic component, type 8. -/
def generic (value : Buffer) : Block := ⟨8, value, by decide, by decide⟩

/-- A generic component holding a number, type 8. -/
def appendNumber (n : Name) (number : UInt32) : Name :=
  n ++ [⟨8, nonNegativeInteger number.toNat, by decide, by decide⟩]

/-- A sequence number component, type 58. -/
def appendSequenceNumber (n : Name) (seqNo : UInt64) : Name :=
  n ++ [⟨58, nonNegativeInteger seqNo.toNat, by decide, by decide⟩]

/-- A parameters digest component, type 2. -/
def appendParametersSha256Digest (n : Name) (digest : Buffer) : Name :=
  n ++ [⟨2, digest, by decide, by decide⟩]

end Name

/-- Reads every element of a list as a name. -/
def readNames (blocks : List Block) : Option (List Name) := blocks.mapM Name.ofBlock

theorem readNames_wireEncode (names : List Name) :
    readNames (names.map Name.wireEncode) = some names := by
  induction names with
  | nil => rfl
  | cons n names ih =>
      rw [readNames] at ih ⊢
      simp [ih]

/-- Elements whose type is at most 31 or odd must be understood by the reader. -/
def isCriticalType (type : ℕ) : Bool := type ≤ 31 || type % 2 == 1

/-! ## Errors -/

/-- What a failing operation throws. -/
inductive Error where
  /-- a parse error of the TLV library -/
  | tlv
  /-- "TLV Type is incorrect" -/
  | typeIncorrect
  /-- "Unrecognized TLV Type: " and the type -/
  | unrecognizedType (type : ℕ)
  /-- "Block for " name " already exists" -/
  | alreadyExists (name : Name)
  /-- "Block for " name " does not exists" -/
  | doesNotExist (name : Name)
  /-- the storage backend reports a failure -/
  | storage
  /-- the publication fails -/
  | publish
  /-- the ancestor search has used up its rounds -/
  | outOfRounds
  deriving DecidableEq

/-- A parse of the TLV library: no result is its exception. -/
def parsed {α : Type} : Option α → Except Error α
  | some a => .ok a
  | none => .error .tlv

@[simp] theorem parsed_some {α : Type} (a : α) : parsed (some a) = .ok a := rfl

/-! ## Library functions -/

/-- Time points in nanoseconds. -/
abbrev Time := ℕ

class NdnCxx where
  /-- octets of `time::toIsoString` -/
  toIsoString : Time → Buffer
  fromIsoString : Buffer → Option Time
  /-- the unit of the fractional seconds in an ISO string -/
  resolution : ℕ
  resolution_pos : 0 < resolution
  fromIsoString_toIsoString : ∀ t, fromIsoString (toIsoString t) = some (t / resolution * resolution)
  /-- `Sha256::computeDigest` -/
  sha256 : Buffer → Buffer
  /-- the name of the Data that an element decodes to, if it is Data -/
  dataName : Block → Option Name
  dataName_type : ∀ b n, dataName b = some n → b.type = tlvData

variable [NdnCxx]

/-- A time point as it comes back from its ISO string. -/
def isoTime (t : Time) : Time := t / NdnCxx.resolution * NdnCxx.resolution

@[simp] theorem isoTime_isoTime (t : Time) : isoTime (isoTime t) = isoTime t := by
  unfold isoTime
  rw [Nat.mul_div_cancel _ NdnCxx.resolution_pos]

/-- A well-formed Data packet: its wire encoding and the name it decodes to. -/
structure Data where
  wire : Block
  name : Name
  decodes : NdnCxx.dataName wire = some name

/-- The constructor of Data from an element. -/
def Data.ofBlock (b : Block) : Except Error Data :=
  match h : NdnCxx.dataName b with
  | some n => .ok ⟨b, n, h⟩
  | none => .error .tlv

theorem Data.wire_type (d : Data) : d.wire.type = tlvData := NdnCxx.dataName_type _ _ d.decodes

theorem Data.ofBlock_wire (d : Data) : Data.ofBlock d.wire = .ok d := by
  obtain ⟨wire, name, hd⟩ := d
  unfold Data.ofBlock
  split
  · rename_i n h
    have : n = name := by simpa [h] using hd
    subst this
    rfl
  · rename_i h
    simp [h] at hd

end CertLedger.NdnObjects
