import CertLedger.LedgerQueries
import CertLedger.RecordChecker
import CertLedger.SegmentRuns
import CertLedger.StoredPackets

/-!
# The answers of the ledger

What a ledger puts on its face for an Interest: stored Data, a nack of the
application, or the first segment of an object. The producer of an object answers
the Interests for its segments.
-/
namespace CertLedger.QueryAnswers
open Std TlvCodec FallibleState NdnObjects NdnPackets RecordCodec EdgeStateCodec LedgerIndexCodec
open DagEngine LedgerHandlers RecordChecker StoredPackets PlainNdn

/-! ## Components -/

theorem versionType_pos : 0 < 54 := by decide

theorem versionType_lt : 54 < 2 ^ 32 := by decide

theorem timestampType_pos : 0 < 56 := by decide

theorem timestampType_lt : 56 < 2 ^ 32 := by decide

/-- `Component::fromVersion` -/
def fromVersion (version : UInt64) : Block :=
  ⟨54, nonNegativeInteger version.toNat, versionType_pos, versionType_lt⟩

/-- `Component::fromTimestamp` of a time point in milliseconds; the component has microseconds. -/
def fromTimestamp (milliseconds : UInt64) : Block :=
  ⟨56, nonNegativeInteger (milliseconds * 1000).toNat, timestampType_pos, timestampType_lt⟩

/-- `Component::isSegment` -/
def isSegment (c : Block) : Bool := c.type == tlvSegment && (readNonNegativeInteger c.value).isSome

/-- "KEY" -/
def KEY : Block := Name.generic [75, 69, 89]

/-- The keyword "internal". -/
def internal : Block := Name.keyword [105, 110, 116, 101, 114, 110, 97, 108]

theorem isVersion_fromVersion (version : UInt64) : isVersion (fromVersion version) = true := by
  have h : readNonNegativeInteger (fromVersion version).value = some version.toNat :=
    readNonNegativeInteger_of_lt version.toNat_lt
  rw [isVersion, h]
  rfl

theorem isSegment_fromSegment {k : ℕ} (hk : k < 2 ^ 64) : isSegment (fromSegment k) = true := by
  have h : readNonNegativeInteger (fromSegment k).value = some k := readNonNegativeInteger_of_lt hk
  rw [isSegment, h]
  rfl

/-- An object that is hosted. Interests under `namePrefix` come to its producer. -/
structure Producer where
  namePrefix : Name
  versionedPrefix : Name
  store : List Packet

namespace Producer
variable (options : SegmentProducer.Options)

/-- The version of the clock is for a name that has none. -/
def new (name : Name) (block : Block) (time : UInt64) : Producer :=
  if (getLast name 1).any isVersion then
    ⟨name.dropLast, name, SegmentProducer.populateStore options name block⟩
  else
    ⟨name, name ++ [fromVersion time],
      SegmentProducer.populateStore options (name ++ [fromVersion time]) block⟩

/-- The answer to an Interest; a network nack where there is none. -/
def processSegmentInterest (producer : Producer) (interest : Interest) : Option Packet :=
  if interest.name.length = producer.versionedPrefix.length + 1 ∧
      (getLast interest.name 1).any isSegment then do
    -- of the name only the number is looked at
    let c ← getLast interest.name 1
    let segmentNo ← (toSegment c).toOption
    producer.store[segmentNo]?
  else producer.store.head?.filter fun data => interest.matchesName data.name

end Producer

/-! ## Answers -/

structure ServiceConfig extends LedgerConfig where
  recordZones : List Name := []
  maxSegmentSize : ℕ := 8000
  /-- `Certificate::isValidName` -/
  isValidCertName : Name → Bool

section
variable [NdnCxx]

inductive Answer where
  | silent
  /-- the source sets a component that the name does not have -/
  | undefined
  | data (p : Data)
  | nack (p : Packet)
  /-- the first segment of an object, with its producer -/
  | object (producer : Producer)

/-- What the ledger signs for an answer. -/
def Answer.signed : Answer → List Packet
  | .silent | .undefined | .data _ => []
  | .nack p => [p]
  | .object producer => producer.store

/-- The ledger signs nothing for the answer. -/
def Answer.Plain : Answer → Prop
  | .silent | .undefined | .data _ => True
  | .nack _ | .object _ => False

omit [NdnCxx] in
/-- `Nack::prepareData` -/
def prepareData (dataName : Name) (timestamp : UInt64) : Packet where
  name := dataName ++ [nackComponent, fromTimestamp timestamp]
  content := ⟨tlvContent, [], tlvContent_pos, tlvContent_lt⟩
  contentType := contentTypeNack

def sendNack (name : Name) (time : UInt64) : Answer := .nack (prepareData name time)

variable (config : ServiceConfig)

def sendResponse (name : Name) (block : Block) (time : UInt64) : Answer :=
  .object (.new { maxSegmentSize := config.maxSegmentSize }
    (name ++ [dataComponent, fromVersion time]) block time)

def replyOrSendNack (name : Name) (time : UInt64) : DagM Answer :=
  tryCatch (do
    let block ← getter name
    let data ← lift (Data.ofBlock block)
    return .data data) fun _ => return sendNack name time

/-- The answer with the record of a certificate and its endorsers. -/
def sendRecord (query certName : Name) (time : UInt64) : DagM Answer := do
  let blocks ← LedgerQueries.onQuery config.toLedgerConfig certName
  return sendResponse config query ⟨tlvContent, wireAll blocks, tlvContent_pos, tlvContent_lt⟩ time

def onQuery (query : Interest) (time : UInt64) : DagM Answer :=
  if query.forwardingHint = [] then return .silent
  -- for exactly this Data
  else if query.canBePrefix = false then replyOrSendNack query.name time
  else match setLast query.name 4 KEY with
    | none => return .undefined
    | some certName =>
        if config.isValidCertName certName then
          tryCatch (sendRecord config query.name certName time) fun _ => return sendNack query.name time
        else replyOrSendNack query.name time

/-- The handler for the objects that the ledger keeps for itself. -/
def onInternalObject (query : Interest) (time : UInt64) : DagM Answer :=
  if query.canBePrefix ∧ query.name[config.instancePrefix.length]? = some internal then
    tryCatch (do
      let block ← getter (query.name.drop (config.instancePrefix.length + 1))
      return sendResponse config query.name block time) fun _ => return sendNack query.name time
  else return .silent

/-- All filters that an Interest matches call their handler. -/
def onInterest (query : Interest) (time : UInt64) : DagM (List Answer) := do
  let internals := [stateListNameHeader, stateNameHeader].filter fun header =>
    (config.instancePrefix ++ internal :: header).isPrefixOf query.name
  let objects ← internals.mapM fun _ => onInternalObject config query time
  let zones := config.recordZones.filter (·.isPrefixOf query.name)
  let records ← zones.mapM fun _ => onQuery config query time
  return objects ++ records

end

/-! ## Objects that are hosted -/

section
variable {options : SegmentProducer.Options} {block : Block}

theorem names_populate (versionedPrefix : Name) (turns : ℕ) (count : ℤ) (store : List Packet) :
    (SegmentProducer.populate options versionedPrefix block turns count store).map (·.name) =
      store.map (·.name) ++
        (List.range turns).map fun k => versionedPrefix ++ [fromSegment (store.length + k)] := by
  induction turns generalizing count store with
  | zero => simp [SegmentProducer.populate]
  | succ turns ih =>
      rw [SegmentProducer.populate, ih, List.range_succ_eq_map]
      simp [Function.comp_def, Nat.add_assoc, Nat.add_comm 1]

theorem toInt_lt (n : ℕ) : (SegmentProducer.toInt n).toNat < 2 ^ 31 := by
  have hbmod : ∀ m, m = 2 ^ 32 → (Int.bmod n m).toNat < 2 ^ 31 := by
    intro m hm
    have hbound := @Int.bmod_lt n m (by omega)
    generalize Int.bmod n m = i at hbound ⊢
    omega
  exact hbmod _ rfl

/-- The segments are numbered from zero, by an `int`. -/
theorem name_populateStore (versionedPrefix : Name) {k : ℕ} {p : Packet}
    (h : (SegmentProducer.populateStore options versionedPrefix block)[k]? = some p) :
    p.name = versionedPrefix ++ [fromSegment k] ∧ k < 2 ^ 31 := by
  have htotal : (SegmentProducer.total options block).toNat < 2 ^ 31 := toInt_lt _
  generalize hturns : (SegmentProducer.total options block).toNat = turns at htotal
  have hnames : (SegmentProducer.populate options versionedPrefix block turns 0 []).map (·.name) =
      ([] : List Packet).map (·.name) ++
        (List.range turns).map fun k =>
          versionedPrefix ++ [fromSegment (([] : List Packet).length + k)] :=
    names_populate versionedPrefix turns 0 []
  rw [SegmentProducer.populateStore, hturns] at h
  generalize SegmentProducer.populate options versionedPrefix block turns 0 [] = store at h hnames
  have hname : p.name ∈ ((if store.isEmpty then
      [{ name := versionedPrefix ++ [fromSegment 0]
         content := ⟨tlvContent, [], tlvContent_pos, tlvContent_lt⟩ }]
    else store).map (·.name))[k]? := by
    rw [List.getElem?_map] at h ⊢
    obtain ⟨q, hq, rfl⟩ := Option.map_eq_some_iff.mp h
    rw [hq]
    rfl
  split_ifs at hname with hempty
  · cases k with
    | zero => exact ⟨(Option.some.inj hname).symm, Nat.two_pow_pos 31⟩
    | succ k => cases hname
  · rw [hnames, List.map_nil, List.nil_append, List.getElem?_map] at hname
    obtain ⟨j, hj, hname⟩ := Option.map_eq_some_iff.mp hname
    obtain ⟨hk, hj⟩ := List.getElem?_eq_some_iff.mp hj
    rw [List.getElem_range] at hj
    rw [List.length_range] at hk
    rw [List.length_nil, Nat.zero_add, ← hj] at hname
    exact ⟨hname.symm, by omega⟩

theorem populateStore_ne_nil (versionedPrefix : Name) :
    SegmentProducer.populateStore options versionedPrefix block ≠ [] := by
  rw [SegmentProducer.populateStore]
  split_ifs with hempty
  · simp
  · simpa using hempty

/-- The producer hosts an object with a versioned name: it has segments, and each comes for an
Interest with its name. -/
structure Hosts (producer : Producer) (versionedPrefix : Name) : Prop where
  versioned : producer.versionedPrefix = versionedPrefix
  ne_nil : producer.store ≠ []
  named : ∀ (k : ℕ) (p : Packet), producer.store[k]? = some p →
    p.name = versionedPrefix ++ [fromSegment k]
  served : ∀ (k : ℕ) (p : Packet), producer.store[k]? = some p → ∀ i : Interest, i.name = p.name →
    producer.processSegmentInterest i = some p

theorem hosts_populateStore {producer : Producer}
    (hstore : producer.store =
      SegmentProducer.populateStore options producer.versionedPrefix block) :
    Hosts producer producer.versionedPrefix := by
  have hnamed : ∀ (k : ℕ) (p : Packet), producer.store[k]? = some p →
      p.name = producer.versionedPrefix ++ [fromSegment k] ∧ k < 2 ^ 31 := by
    intro k p hp
    exact name_populateStore _ (hstore ▸ hp)
  refine ⟨rfl, hstore ▸ populateStore_ne_nil _, fun k p hp => (hnamed k p hp).1, ?_⟩
  intro k p hp i hi
  obtain ⟨hname, hlt⟩ := hnamed k p hp
  have hk : k < 2 ^ 64 := by omega
  have hlast : getLast i.name 1 = some (fromSegment k) := by rw [hi, hname, getLast_append_one]
  have hlength : i.name.length = producer.versionedPrefix.length + 1 := by simp [hi, hname]
  have hsegment : (getLast i.name 1).any isSegment = true := by
    rw [hlast]
    exact isSegment_fromSegment hk
  rw [Producer.processSegmentInterest, if_pos ⟨hlength, hsegment⟩, hlast]
  simp only [Option.bind_eq_bind, Option.bind_some, toSegment_fromSegment hk]
  exact hp

theorem new_versioned (name : Name) (time time' : UInt64) :
    Producer.new options (name ++ [fromVersion time]) block time' =
      ⟨name, name ++ [fromVersion time],
        SegmentProducer.populateStore options (name ++ [fromVersion time]) block⟩ := by
  rw [Producer.new, if_pos]
  · rw [List.dropLast_concat]
  · rw [getLast_append_one]
    exact isVersion_fromVersion time

end

/-! ## What an answer is -/

/-- Only failures of the storage are used up. -/
structure Reads (d d' : DagModule) : Prop where
  list : d'.storage.list = d.storage.list
  waitlist : d'.waitlist = d.waitlist
  ticks : d'.ticks = d.ticks

namespace Reads
variable {d d' d'' : DagModule}

theorem refl (d : DagModule) : Reads d d := ⟨rfl, rfl, rfl⟩

theorem trans (d d' d'' : DagModule) (h : Reads d d') (h' : Reads d' d'') : Reads d d'' :=
  ⟨h'.list.trans h.list, h'.waitlist.trans h.waitlist, h'.ticks.trans h.ticks⟩

theorem getter (n : Name) : Respects Reads (getter n) := by
  intro d
  obtain ⟨r, hget, -⟩ := DagEffects.exec_getter_any d n
  rw [hget]
  exact ⟨rfl, rfl, rfl⟩

end Reads

/-! ### Handlers only read -/

section
variable [NdnCxx] {R : DagModule → DagModule → Prop} (refl : ∀ d, R d d)
  (trans : ∀ d d' d'', R d d' → R d' d'' → R d d'') (hgetter : ∀ n, Respects R (getter n))
include refl trans hgetter

theorem respects_query (config : LedgerConfig) (dataName : Name) :
    Respects R (LedgerQueries.onQuery config dataName) := by
  have hencoder : ∀ content n, Respects R (LedgerQueries.encoder content n) := fun content n =>
    Respects.bind trans (hgetter n) fun _ => Respects.pure refl _
  refine Respects.bind trans ?_ fun state => Respects.bind trans (hencoder _ _) fun content =>
    Respects.bind trans (Respects.foldlM refl trans (fun acc des _ => ?_) _) fun _ =>
      Respects.pure refl _
  · exact Respects.bind trans (hgetter _) fun _ => Respects.bind trans (hgetter _) fun _ =>
      Respects.bind trans (fun d => refl d) fun _ => Respects.bind trans (hgetter _) fun _ d => refl d
  · unfold LedgerQueries.encodeDescendant
    split
    · exact Respects.bind trans (hencoder _ _) fun _ => Respects.pure refl _
    · exact Respects.pure refl _

theorem respects_replyOrSendNack (name : Name) (time : UInt64) :
    Respects R (replyOrSendNack name time) :=
  Respects.tryCatch trans (Respects.bind trans (hgetter _) fun _ =>
    Respects.bind trans (fun d => refl d) fun _ => Respects.pure refl _) fun _ =>
      Respects.pure refl _

theorem respects_onQuery (config : ServiceConfig) (query : Interest) (time : UInt64) :
    Respects R (onQuery config query time) := by
  unfold onQuery
  split
  · exact Respects.pure refl _
  · split
    · exact respects_replyOrSendNack refl trans hgetter _ _
    · split
      · exact Respects.pure refl _
      · split
        · exact Respects.tryCatch trans (Respects.bind trans
            (respects_query refl trans hgetter _ _) fun _ => Respects.pure refl _) fun _ =>
              Respects.pure refl _
        · exact respects_replyOrSendNack refl trans hgetter _ _

theorem respects_onInternalObject (config : ServiceConfig) (query : Interest) (time : UInt64) :
    Respects R (onInternalObject config query time) := by
  unfold onInternalObject
  split
  · exact Respects.tryCatch trans (Respects.bind trans (hgetter _) fun _ => Respects.pure refl _)
      fun _ => Respects.pure refl _
  · exact Respects.pure refl _

theorem respects_onInterest (config : ServiceConfig) (query : Interest) (time : UInt64) :
    Respects R (onInterest config query time) := by
  have hinternal := respects_onInternalObject refl trans hgetter config query time
  have hquery := respects_onQuery refl trans hgetter config query time
  exact Respects.bind trans (Respects.mapM refl trans fun _ _ => hinternal) fun objects =>
    Respects.bind trans (Respects.mapM refl trans fun _ _ => hquery) fun records =>
      Respects.pure refl _

end

section
variable [NdnCxx]

/-- What an answer is to a query, given what the storage holds. The checker of a record knows
a nack and an object by their names. -/
def Fits (d : DagModule) (query : Interest) : Answer → Prop
  | .silent => query.forwardingHint = []
  | .undefined => query.forwardingHint ≠ [] ∧ query.canBePrefix = true ∧ query.name.length < 4
  | .data p => query.forwardingHint ≠ [] ∧ p.name = query.name ∧
      d.storage.list[query.name]? = some p.wire
  | .nack p => query.forwardingHint ≠ [] ∧ query.name <+: p.name ∧ isRecordName p.name = false ∧
      isValidNackName p.name = true ∧ query.matchesName p.name = query.canBePrefix
  | .object producer => query.forwardingHint ≠ [] ∧ query.canBePrefix = true ∧
      Hosts producer producer.versionedPrefix ∧ query.name <+: producer.versionedPrefix ∧
      ∃ first, producer.store.head? = some first ∧ isRecordName first.name = true ∧
        query.matchesName first.name = true

variable {d : DagModule} {query : Interest}

end
end CertLedger.QueryAnswers
