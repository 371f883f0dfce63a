import CertLedger.SegmentPipeline

/-!
# The checker

A checker asks the ledger for the record of some Data. The answer is the first
segment of an object with records. All checks of one checker fetch the segments on
one pipeline. The caller is told of a success or a failure.
-/
namespace CertLedger.RecordChecker
open TlvCodec FallibleState NdnObjects NdnPackets SegmentPipeline

/-- "RECORD" -/
def RECORD : Block := Name.generic [82, 69, 67, 79, 82, 68]

/-- "data" -/
def dataComponent : Block := Name.generic [100, 97, 116, 97]

/-- "nack" -/
def nackComponent : Block := Name.generic [110, 97, 99, 107]

/-- `Nack::isValidName` -/
def isValidNackName (name : Name) : Bool :=
  getLast name 2 == some nackComponent && (getLast name 1).any isTimestamp

/-- A version and the component "data" before the last component. -/
def isRecordName (name : Name) : Bool :=
  (getLast name 2).any isVersion && getLast name 3 == some dataComponent

/-- `Name::set(-k, component)`. The source does not check that the name is long
enough; nothing is returned where it is not. -/
def setLast (name : Name) (k : ℕ) (component : Block) : Option Name :=
  if k ≤ name.length then some (name.set (name.length - k) component) else none

/-- The error of a failure callback. -/
inductive Failure where
  /-- `TIMEOUT`: "Running out of retries" -/
  | timeout
  /-- `NACK`: the name of the Interest -/
  | nack (name : Name)
  /-- `NACK`: "Application Layer Nack " and the name of the Data -/
  | applicationNack (name : Name)
  /-- `VALIDATION_ERROR`: what the validator says -/
  | validation (info : String)
  /-- `PROTO_SPECIFIC`: "Uncognized data format" -/
  | format
  deriving DecidableEq

def CHECKER_MAX_RETRIES : ℕ := 3

section
variable {ω : Type} (successCb : Program PacketError ω Unit) (failureCb : String → Program PacketError ω Unit)

/-- The loop of `validateMultipleData`, for the verdicts in the order of the Data.
A failed item has the reason that the validator gives. -/
def validateFrom (countTarget : UInt32) : List (Option String) → UInt32 → Program PacketError ω Unit
  | [], _ => return ()
  | none :: verdicts, count => do
      if count + 1 < countTarget then pure () else successCb
      validateFrom countTarget verdicts (count + 1)
  | some info :: verdicts, count => do
      failureCb info
      validateFrom countTarget verdicts count

variable {successCb failureCb} {X : ω → Prop}

theorem stays_validateFrom (hs : Stays X successCb) (hf : ∀ info, Stays X (failureCb info))
    (countTarget : UInt32) (verdicts : List (Option String)) (count : UInt32) :
    Stays X (validateFrom successCb failureCb countTarget verdicts count) := by
  induction verdicts generalizing count with
  | nil => exact Stays.pure ()
  | cons verdict verdicts ih =>
      cases verdict with
      | none =>
          rw [validateFrom]
          split_ifs
          · exact ih (count + 1)
          · exact Stays.bind hs fun _ => ih (count + 1)
      | some info => exact Stays.bind (hf info) fun _ => ih count

/-- Below `2 ^ 32` verdicts the success callback is called only if all Data are passed. -/
theorem stays_validateFrom_of_all (hf : ∀ info, Stays X (failureCb info))
    (done rest : List (Option String)) (hlength : (done ++ rest).length < 2 ^ 32)
    (hs : (∀ verdict ∈ done ++ rest, verdict = none) → Stays X successCb) :
    Stays X (validateFrom successCb failureCb (UInt32.ofNat (done ++ rest).length) rest
      (UInt32.ofNat (done.count none))) := by
  induction rest generalizing done with
  | nil => exact Stays.pure ()
  | cons verdict rest ih =>
      have hsplit : done ++ verdict :: rest = (done ++ [verdict]) ++ rest := by simp
      rw [hsplit] at hlength hs ⊢
      have hnext := ih (done ++ [verdict]) hlength hs
      cases verdict with
      | none =>
          have hcount : UInt32.ofNat (done.count none) + 1 =
              UInt32.ofNat ((done ++ [none]).count none) := by
            rw [List.count_append, UInt32.ofNat_add]
            rfl
          rw [validateFrom, hcount]
          split_ifs with hlt
          · exact hnext
          · refine Stays.bind (hs ?_) fun _ => hnext
            have hle : (done ++ [none]).count none ≤ (done ++ [none]).length := List.count_le_length
            rw [UInt32.lt_iff_toNat_lt, UInt32.toNat_ofNat', UInt32.toNat_ofNat'] at hlt
            have hsum : ((done ++ [none]) ++ rest).length = (done ++ [none]).length + rest.length :=
              List.length_append
            rw [hsum] at hlength hlt
            have hrest : rest = [] := List.eq_nil_of_length_eq_zero (by omega)
            have hall : (done ++ [none]).count none = (done ++ [none]).length := by omega
            rw [hrest, List.append_nil]
            exact fun verdict hv => (List.count_eq_length.mp hall verdict hv).symm
      | some info =>
          refine Stays.bind (hf info) fun _ => ?_
          simpa using hnext

end

variable [NdnCxx]

/-- A check is known by the number of its callbacks. It has one continuation at any
time, which takes the state along. -/
structure CheckerState where
  data : Data
  callbacks : ℕ
  retryCount : ℕ := 0

namespace CheckerState
variable (state : CheckerState)

def exhaustRetries : Bool × CheckerState :=
  (CHECKER_MAX_RETRIES < state.retryCount, { state with retryCount := state.retryCount + 1 })

def makeInterest (ledgerPrefix : Name) : Option Interest := do
  let interestName ← setLast state.data.name 4 RECORD
  let interest ← Interest.ofName interestName
  return { interest with
    mustBeFresh := true
    canBePrefix := true
    forwardingHint := [ledgerPrefix] }

end CheckerState

inductive Report where
  | success (callbacks : ℕ) (data : Data) (block : Block)
  | failure (callbacks : ℕ) (data : Data) (error : Failure)

/-- An Interest for a record that has no answer yet. -/
structure Expressed where
  state : CheckerState
  ledgerPrefix : Name
  interest : Interest

structure Checker where
  pending : List Expressed := []
  /-- answers at the validator -/
  validating : List (CheckerState × Packet) := []
  /-- the check that the callback of the consumer is for -/
  checked : Option CheckerState := none
  transfer : Transfer (List Report)

abbrev CheckerM := Program PacketError Checker

/-- The pipeline is made by the constructor; its options are never changed. -/
def Checker.new : Checker := { transfer := { pipeline := .new {}, world := [] } }

def onTransfer {α : Type} (x : TransferM (List Report) α) : CheckerM α :=
  zoom Checker.transfer (fun t c => { c with transfer := t }) x

def tell (report : Report) : Program PacketError (List Report) Unit := modify (· ++ [report])

def onSuccess (state : CheckerState) (block : Block) : Program PacketError (List Report) Unit :=
  tell (.success state.callbacks state.data block)

def onFailure (state : CheckerState) (error : Failure) : Program PacketError (List Report) Unit :=
  tell (.failure state.callbacks state.data error)

/-- A failure that does not come from the consumer. -/
def fail (state : CheckerState) (error : Failure) : CheckerM Unit :=
  onTransfer (Transfer.onWorld (onFailure state error))

def dispatchInterest (state : CheckerState) (ledgerPrefix : Name) : CheckerM Unit := do
  let (exhausted, state) := state.exhaustRetries
  if exhausted then fail state .timeout
  else
    let interest ← ofOption (state.makeInterest ledgerPrefix)
    modify fun c => { c with pending := c.pending ++ [⟨state, ledgerPrefix, interest⟩] }

def doCheck (ledgerPrefix : Name) (data : Data) (callbacks : ℕ) : CheckerM Unit :=
  dispatchInterest { data := data, callbacks := callbacks } ledgerPrefix

/-! ## The content of an answer -/

/-- One turn of the loop over the elements. -/
def readContent (dataVector : List Data) (item : Block) : Except PacketError (List Data) :=
  if item.type = tlvData then do
    let data ← (Data.ofBlock item).mapError .ndn
    return dataVector ++ [data]
  else if isCriticalType item.type then throw (.unrecognizedType item.type)
  else return dataVector

def decodeContent (content : Block) : Except PacketError (List Data) := do
  let items ← (parsed content.elements).mapError .ndn
  items.foldlM readContent []

section
variable {ω : Type} (successCb : Program PacketError ω Unit) (failureCb : String → Program PacketError ω Unit)

def validateMultipleData (dataVector : List Data) (verdict : ℕ → Option String) :
    Program PacketError ω Unit :=
  validateFrom successCb failureCb (UInt32.ofNat dataVector.length)
    ((List.range dataVector.length).map verdict) 0

variable {successCb failureCb} {X : ω → Prop}

/-- The success callback is called only if there is Data. Below `2 ^ 32` of them all are passed. -/
theorem stays_validateMultipleData (hf : ∀ info, Stays X (failureCb info)) {dataVector : List Data}
    {verdict : ℕ → Option String}
    (hs : dataVector ≠ [] →
      (dataVector.length < 2 ^ 32 → ∀ k < dataVector.length, verdict k = none) → Stays X successCb) :
    Stays X (validateMultipleData successCb failureCb dataVector verdict) := by
  by_cases hne : dataVector = []
  · rw [hne]
    exact Stays.pure ()
  · have hlength : ([] ++ (List.range dataVector.length).map verdict).length = dataVector.length := by
      simp
    by_cases hlt : dataVector.length < 2 ^ 32
    · have hall := stays_validateFrom_of_all hf [] ((List.range dataVector.length).map verdict)
        (hlength.trans_lt hlt) fun hnone => hs hne fun _ k hk =>
          hnone (verdict k) (List.mem_map_of_mem (List.mem_range.mpr hk))
      rw [hlength] at hall
      exact hall
    · exact stays_validateFrom (hs hne fun hlength => absurd hlength hlt) hf _ _ _

end

/-- The finish callback of a check. The validator gives its verdicts at once, by the
position of the Data. -/
def onContent (verdict : ℕ → Option String) (state : CheckerState) (block : Block) :
    Program PacketError (List Report) Unit := do
  let dataVector ← lift (decodeContent block)
  validateMultipleData (onSuccess state block) (fun info => onFailure state (.validation info))
    dataVector verdict

/-! ## The answer to an Interest -/

def onValidationSuccess (state : CheckerState) (data : Packet) : CheckerM Unit :=
  if isRecordName data.name then do
    modify fun c => { c with checked := some state }
    onTransfer (Consumer.run {} data.name.dropLast)
  else if isValidNackName data.name then fail state (.applicationNack data.name)
  else fail state .format

def onValidationFailure (state : CheckerState) (info : String) : CheckerM Unit :=
  fail state (.validation info)

/-- What comes back for the checks that are under way. -/
inductive Response where
  /-- Data answers the Interest at an index; the validator decides on it, or keeps it -/
  | answer (k : ℕ) (data : Packet) (verdict : Verdict)
  | nack (k : ℕ)
  | timeout (k : ℕ)
  /-- the validator passes the answer that waits at an index, or gives its reason -/
  | verdict (k : ℕ) (refused : Option String)
  /-- something happens to the segments; the verdicts are for Data inside them -/
  | segment (event : SegmentPipeline.Event) (inner : ℕ → Option String)

/-- The callbacks of the validator for an answer. -/
def onVerdict (state : CheckerState) (data : Packet) : Option String → CheckerM Unit
  | none => onValidationSuccess state data
  | some info => onValidationFailure state info

/-- What the consumer of a checker calls with the block. -/
def finishCb (inner : ℕ → Option String) : Option CheckerState → Block →
    Program PacketError (List Report) Unit
  | some state => onContent inner state
  | none => fun _ => return ()

def Response.handle : Response → CheckerM Unit
  | .answer k p v => do
      let c ← get
      match c.pending[k]? with
      | some e =>
          if e.interest.matchesName p.name then do
            set { c with pending := c.pending.eraseIdx k }
            match v with
            | .valid => onValidationSuccess e.state p
            | .invalid info => onValidationFailure e.state info
            | .later => modify fun c => { c with validating := c.validating ++ [(e.state, p)] }
          else return ()
      | none => return ()
  | .nack k => do
      let c ← get
      match c.pending[k]? with
      | some e =>
          set { c with pending := c.pending.eraseIdx k }
          fail e.state (.nack e.interest.name)
      | none => return ()
  | .timeout k => do
      let c ← get
      match c.pending[k]? with
      | some e =>
          set { c with pending := c.pending.eraseIdx k }
          dispatchInterest e.state e.ledgerPrefix
      | none => return ()
  | .verdict k refused => do
      let c ← get
      match c.validating[k]? with
      | some v =>
          set { c with validating := c.validating.eraseIdx k }
          onVerdict v.1 v.2 refused
      | none => return ()
  | .segment e inner => do
      let c ← get
      onTransfer (e.handle {} (finishCb inner c.checked))

/-- The checker after a response, whether or not its handler has thrown. -/
def respond (c : Checker) (response : Response) : Checker := (exec response.handle c).2

end CertLedger.RecordChecker
