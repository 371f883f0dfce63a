import CertLedger.FallibleState
import CertLedger.NdnObjects

/-!
# Interests and packets field by field

What the append protocol, the segment transfer and the checker read and write of
an Interest and of a Data packet. Signatures are left to the verdicts of the
validator, and Interest nonces to the network.
-/
namespace CertLedger.NdnPackets
open TlvCodec FallibleState NdnObjects

/-! ## Exceptions -/

/-- What a handler of packets throws. -/
inductive PacketError where
  | ndn (error : Error)
  /-- `std::invalid_argument` -/
  | invalidArgument
  /-- "Internal error of SegmentConsumer: " with the name of the segment -/
  | nackSegment (name : Name)
  /-- "Internal error of SegmentConsumer: " with what the validator says -/
  | invalidSegment (info : String)
  /-- `PROTO_SPECIFIC`: "Unrecognized TLV Type" and the type -/
  | unrecognizedType (type : ℕ)
  deriving DecidableEq

section
variable {σ α : Type}

def ofExcept (r : Except Error α) : Program PacketError σ α := lift (r.mapError .ndn)

def ofOption (r : Option α) : Program PacketError σ α :=
  lift (match r with
    | some a => .ok a
    | none => .error .invalidArgument)

@[simp] theorem exec_ofExcept_ok (a : α) (s : σ) : exec (ofExcept (.ok a)) s = (.ok a, s) := rfl

@[simp] theorem exec_ofExcept_error (e : Error) (s : σ) :
    exec (ofExcept (.error e) : Program PacketError σ α) s = (.error (.ndn e), s) := rfl

@[simp] theorem exec_ofOption_some (a : α) (s : σ) : exec (ofOption (some a)) s = (.ok a, s) := rfl

@[simp] theorem exec_ofOption_none (s : σ) :
    exec (ofOption none : Program PacketError σ α) s = (.error .invalidArgument, s) := rfl

end

/-! ## Components -/

/-- A generic component holding a 64-bit number. -/
def fromNumber (n : UInt64) : Block := Name.generic (nonNegativeInteger n.toNat)

/-- `Component::toNumber`; the type of the component is not looked at. -/
def toNumber (c : Block) : Except Error UInt64 := do
  let n ← parsed (readNonNegativeInteger c.value)
  return UInt64.ofNat n

theorem toNumber_fromNumber (n : UInt64) : toNumber (fromNumber n) = .ok n := by
  have h : readNonNegativeInteger (fromNumber n).value = some n.toNat :=
    readNonNegativeInteger_of_lt n.toNat_lt
  rw [toNumber, h]
  simp [bind, Except.bind, pure, Except.pure]

/-- TLV-TYPE of a segment component. -/
def tlvSegment : ℕ := 50

/-- `Component::fromSegment` -/
def fromSegment (n : ℕ) : Block := ⟨tlvSegment, nonNegativeInteger n, by decide, by decide⟩

/-- `Component::toSegment` -/
def toSegment (c : Block) : Except Error ℕ :=
  if c.type = tlvSegment then parsed (readNonNegativeInteger c.value) else throw .tlv

theorem toSegment_fromSegment {n : ℕ} (h : n < 2 ^ 64) : toSegment (fromSegment n) = .ok n := by
  have ht : (fromSegment n).type = tlvSegment := rfl
  have hv : readNonNegativeInteger (fromSegment n).value = some n := readNonNegativeInteger_of_lt h
  rw [toSegment, if_pos ht, hv]
  rfl

/-- `Component::isVersion`: type 54 with a number. -/
def isVersion (c : Block) : Bool := c.type == 54 && (readNonNegativeInteger c.value).isSome

/-- `Component::isTimestamp`: type 56 with a number. -/
def isTimestamp (c : Block) : Bool := c.type == 56 && (readNonNegativeInteger c.value).isSome

/-- `Component::isParametersSha256Digest`: type 2 with 32 octets. -/
def isParametersDigest (c : Block) : Bool := c.type == 2 && c.value.length == 32

/-- `Name::get(-k)` for `0 < k`; nothing where the name is too short for it. -/
def getLast (n : Name) (k : ℕ) : Option Block := n.reverse[k - 1]?

@[simp] theorem getLast_append_one (n : Name) (c : Block) : getLast (n ++ [c]) 1 = some c := by
  simp [getLast]

/-- The number in the last component. -/
def lastNumber (n : Name) : Except Error UInt64 :=
  match getLast n 1 with
  | some c => toNumber c
  | none => .error .tlv

theorem lastNumber_append (n : Name) (k : UInt64) : lastNumber (n ++ [fromNumber k]) = .ok k := by
  rw [lastNumber, getLast_append_one]
  exact toNumber_fromNumber k

/-! ## Interests -/

/-- TLV-TYPE of the parameters of an Interest. -/
def tlvApplicationParameters : ℕ := 36

/-- TLV-TYPE of a forwarding hint. -/
def tlvForwardingHint : ℕ := 30

structure Interest where
  name : Name
  applicationParameters : Option Block := none
  forwardingHint : List Name := []
  mustBeFresh : Bool := false
  canBePrefix : Bool := false
  deriving DecidableEq

namespace Interest

/-- The constructor from a name throws `std::invalid_argument` where the name has
more than one digest of parameters. -/
def ofName (n : Name) : Option Interest :=
  if n.countP isParametersDigest ≤ 1 then some { name := n } else none

theorem name_ofName {n : Name} {i : Interest} (h : ofName n = some i) : i = { name := n } := by
  unfold ofName at h
  split_ifs at h
  exact (Option.some.inj h).symm

theorem digestType_lt : 2 < 2 ^ 32 := by decide

/-- The digest of the parameters takes the place of the one in the name, or comes last. -/
def withDigest (n : Name) (digest : Buffer) : Name :=
  match n.findIdx? isParametersDigest with
  | some k => n.set k ⟨2, digest, Nat.two_pos, digestType_lt⟩
  | none => n.appendParametersSha256Digest digest

def setApplicationParameters [NdnCxx] (i : Interest) (params : Block) : Interest :=
  { i with
    name := withDigest i.name (NdnCxx.sha256 params.wire)
    applicationParameters := some params }

/-- `Interest::matchesData` by the names. -/
def matchesName (i : Interest) (n : Name) : Bool :=
  if i.canBePrefix then i.name.isPrefixOf n else i.name == n

end Interest

/-! ## Packets -/

/-- The content type of an application-layer nack. -/
def contentTypeNack : ℕ := 3

structure Packet where
  name : Name
  content : Block
  contentType : ℕ := 0
  finalBlock : Option Block := none
  deriving DecidableEq

namespace Packet

/-- A packet with the concatenated elements as its content. -/
def ofElements (n : Name) (elements : List Block) : Packet where
  name := n
  content := ⟨tlvContent, wireAll elements, tlvContent_pos, tlvContent_lt⟩

@[simp] theorem name_ofElements (n : Name) (elements : List Block) :
    (ofElements n elements).name = n := rfl

@[simp] theorem elements_ofElements (n : Name) (elements : List Block) :
    (ofElements n elements).content.elements = some elements := Block.elements_wireAll rfl

end Packet

end CertLedger.NdnPackets
