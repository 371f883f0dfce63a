import CertLedger.LedgerHandlers

/-!
# The library functions on small inputs

Time points of the first second in their ISO form, digests from a table, and
Data packets by their sequence of elements. Concrete runs use these, and the
small ledger at the end.
-/
namespace CertLedger.PlainNdn
open TlvCodec NdnObjects LedgerHandlers

/-- "19700101T000000" -/
def isoEpoch : Buffer := [49, 57, 55, 48, 48, 49, 48, 49, 84, 48, 48, 48, 48, 48, 48]

def digit (n k : ℕ) : UInt8 := UInt8.ofNat (48 + n / k % 10)

/-- The six digits after the point. -/
def sixDigits (n : ℕ) : Buffer :=
  [digit n 100000, digit n 10000, digit n 1000, digit n 100, digit n 10, digit n 1]

def readDigits (b : Buffer) : ℕ := b.foldl (fun n c => n * 10 + (c.toNat - 48)) 0

/-- Later time points are written in unary, which no concrete run comes to. -/
def toIsoString (t : Time) : Buffer :=
  if t / 1000 = 0 then isoEpoch
  else if t / 1000 < 1000000 then isoEpoch ++ 46 :: sixDigits (t / 1000)
  else List.replicate (t / 1000) 120

def fromIsoString (b : Buffer) : Option Time :=
  if b.take 15 = isoEpoch then
    some (match b.drop 15 with
      | [] => 0
      | _ :: digits => readDigits digits * 1000)
  else some (b.length * 1000)

theorem readDigits_sixDigits {n : ℕ} (h : n < 1000000) : readDigits (sixDigits n) = n := by
  have hd : ∀ k, (digit n k).toNat - 48 = n / k % 10 := by
    intro k
    have : n / k % 10 < 10 := Nat.mod_lt _ (by decide)
    rw [digit, UInt8.toNat_ofNat']
    omega
  simp only [readDigits, sixDigits, List.foldl_cons, List.foldl_nil, hd]
  omega

theorem fromIsoString_toIsoString (t : Time) :
    fromIsoString (toIsoString t) = some (t / 1000 * 1000) := by
  have hlen : isoEpoch.length = 15 := rfl
  generalize hn : t / 1000 = n
  rw [toIsoString, hn]
  by_cases h₀ : n = 0
  · subst h₀
    rw [if_pos rfl]
    rfl
  · rw [if_neg h₀]
    by_cases h₁ : n < 1000000
    · have htake : (isoEpoch ++ 46 :: sixDigits n).take 15 = isoEpoch := List.take_left' hlen
      have hdrop : (isoEpoch ++ 46 :: sixDigits n).drop 15 = 46 :: sixDigits n :=
        List.drop_left' hlen
      rw [if_pos h₁, fromIsoString, if_pos htake, hdrop]
      dsimp only
      rw [readDigits_sixDigits h₁]
    · have htake : (List.replicate n (120 : UInt8)).take 15 ≠ isoEpoch := by
        intro he
        have hmem : (49 : UInt8) ∈ (List.replicate n (120 : UInt8)).take 15 := by
          rw [he]
          decide
        exact absurd (List.eq_of_mem_replicate (List.mem_of_mem_take hmem)) (by decide)
      rw [if_neg h₁, fromIsoString, if_neg htake, List.length_replicate]

/-- The name of a packet whose elements are a name, possibly meta information
and a content, and the two elements of the signature. -/
def dataName (b : Block) : Option Name :=
  if b.type = tlvData then
    match b.elements with
    | some (n :: rest) =>
        if n.type = tlvName ∧ List.isSublist [22, 23] (rest.map (·.type)) ∧
            (rest.map (·.type)).isSublist [20, 21, 22, 23] then Name.ofBlock n
        else none
    | _ => none
  else none

theorem dataName_type (b : Block) (n : Name) (h : dataName b = some n) : b.type = tlvData := by
  unfold dataName at h
  split_ifs at h with ht
  exact ht

/-- A signature of type 0 over no claim about its value. -/
def signature : List Block :=
  [⟨22, [27, 1, 0], by decide, by decide⟩, ⟨23, List.replicate 32 0, by decide, by decide⟩]

/-- The packet with a name and a content. -/
def packet (name : Name) (content : Buffer) : Block :=
  ⟨tlvData, wireAll (name.wireEncode ::
    ⟨tlvContent, content, tlvContent_pos, tlvContent_lt⟩ :: signature), by decide, by decide⟩

theorem dataName_packet (name : Name) (content : Buffer) :
    dataName (packet name content) = some name := by
  have h : (packet name content).elements = some _ := Block.elements_wireAll rfl
  have ht : (packet name content).type = tlvData := rfl
  have hn : name.wireEncode.type = tlvName := rfl
  rw [dataName, if_pos ht, h]
  dsimp only
  rw [if_pos ⟨hn, rfl, rfl⟩, Name.ofBlock_wireEncode]

@[reducible] def plainNdn (digests : List (Buffer × Buffer)) : NdnCxx where
  toIsoString := toIsoString
  fromIsoString := fromIsoString
  resolution := 1000
  resolution_pos := by decide
  fromIsoString_toIsoString := fromIsoString_toIsoString
  sha256 b := (digests.lookup b).getD b
  dataName := dataName
  dataName_type := dataName_type

/-! ## A small ledger -/

/-- The name "/A". -/
def nameA : Name := [Name.generic [65]]

/-- The name "/32=EdgeState/B". -/
def stateNameB : Name :=
  [Name.keyword [69, 100, 103, 101, 83, 116, 97, 116, 101], Name.generic [66]]

/-- The digests of three packets. -/
def packetDigests : List (Buffer × Buffer) :=
  [((packet nameA [1]).wire,
    [5, 24, 216, 129, 225, 22, 241, 217, 169, 44, 252, 240, 22, 121, 151, 77, 195, 189, 205, 251,
      24, 111, 85, 107, 173, 130, 255, 103, 137, 25, 8, 59]),
    ((packet [Name.generic [66]] [2]).wire,
    [61, 178, 135, 192, 183, 233, 221, 139, 252, 83, 118, 192, 226, 51, 97, 178, 213, 156, 57, 54,
      245, 155, 5, 143, 176, 69, 190, 158, 6, 202, 106, 11]),
    ((packet stateNameB [1]).wire,
    [172, 139, 227, 43, 197, 233, 133, 142, 200, 66, 233, 205, 135, 128, 240, 79, 92, 198, 149, 199,
      245, 247, 204, 63, 201, 81, 128, 55, 247, 4, 102, 3])]

def packetData (name : Name) (content : Buffer) : @Data (plainNdn packetDigests) :=
  @Data.mk (plainNdn packetDigests) (packet name content) name (dataName_packet name content)

local instance : NdnCxx := plainNdn packetDigests

/-- A publication of one packet. -/
def publication (seqNo : Option UInt64) : Publication where
  packets name content := [packetData name content]
  seqNo := seqNo

def ledger : LedgerConfig where
  policy := .descendants
  clock i := 1000 * i
  instancePrefix := [Name.generic [76]]

end CertLedger.PlainNdn
