import CertLedger.NdnPackets
import CertLedger.Reassembly

/-!
# The transfer of segments

A pipeline fetches the segments of an object, a fixed number at a time, and hands
them to a consumer. The consumer writes the contents in order as the validator
passes them, and calls back once the pipeline has received all.
-/
namespace CertLedger.SegmentPipeline
open TlvCodec FallibleState NdnObjects NdnPackets Reassembly

structure Options where
  maxRetriesOnTimeoutOrNack : ℤ := 15
  mustBeFresh : Bool := false
  maxPipelineSize : ℕ := 1

def MAX_RETRIES_INFINITE : ℤ := -1

inductive NackReason where
  | DUPLICATE
  | CONGESTION
  | other (reason : String)
  deriving DecidableEq

/-- The reason that a failed transfer gives. -/
inductive FetchFailure where
  /-- "Fetching terminated but no final segment number has been found" -/
  | noFinalSegment
  /-- "Failure retrieving segment #" -/
  | segment (segmentNo : ℕ)
  /-- "Could not retrieve data for ", with the reason of the nack -/
  | nack (name : Name) (reason : NackReason)
  /-- "Reached the maximum number of nack retries" -/
  | nackRetries (maxRetries : ℤ) (name : Name)
  /-- "Reached the maximum number of timeout retries" -/
  | timeoutRetries (maxRetries : ℤ) (name : Name)
  deriving DecidableEq

structure DataFetcher where
  interest : Interest
  nNacks : ℤ := 0
  nTimeouts : ℤ := 0
  isStopped : Bool := false
  hasError : Bool := false
  /-- the Interest is expressed and has no answer yet -/
  pendingInterest : Bool := true
  deriving DecidableEq

namespace DataFetcher

def isRunning (fetcher : DataFetcher) : Bool := !fetcher.isStopped && !fetcher.hasError

def cancel (fetcher : DataFetcher) : DataFetcher :=
  if fetcher.isRunning then { fetcher with isStopped := true, pendingInterest := false } else fetcher

end DataFetcher

structure PipelineInterests where
  versionedName : Name := []
  hasFinalBlockId : Bool := false
  lastSegmentNo : ℕ := 0
  nReceived : ℕ := 0
  nextSegmentNo : ℕ := 0
  isStopping : Bool := false

namespace PipelineInterests

def allSegmentsReceived (pipeline : PipelineInterests) : Bool :=
  0 < pipeline.nReceived && pipeline.hasFinalBlockId &&
    pipeline.lastSegmentNo ≤ pipeline.nReceived - 1

end PipelineInterests

structure PipelineInterestsFixed extends PipelineInterests where
  /-- a fetcher with its segment number for every pipe in use -/
  segmentFetchers : List (Option (DataFetcher × ℕ))
  hasFailure : Bool := false

namespace PipelineInterestsFixed

def new (options : Options) : PipelineInterestsFixed where
  segmentFetchers := List.replicate options.maxPipelineSize none

/-- Cancels all fetchers and forgets them. -/
def cancel (pipeline : PipelineInterestsFixed) : PipelineInterestsFixed :=
  if pipeline.isStopping then pipeline
  else { pipeline with isStopping := true, segmentFetchers := [] }

def setFetcher (pipeline : PipelineInterestsFixed) (pipeNo : ℕ) (fetcher : DataFetcher)
    (segmentNo : ℕ) : PipelineInterestsFixed :=
  { pipeline with segmentFetchers := pipeline.segmentFetchers.set pipeNo (some (fetcher, segmentNo)) }

/-- Cancels the fetchers of the segments after one. -/
def cancelAfter (pipeline : PipelineInterestsFixed) (segmentNo : ℕ) : PipelineInterestsFixed :=
  { pipeline with
    segmentFetchers := pipeline.segmentFetchers.map fun entry => entry.map fun f =>
      if segmentNo < f.2 then (f.1.cancel, f.2) else f }

end PipelineInterestsFixed

structure Consumer where
  outputBuffer : Buffer := []
  nextToPrint : ℕ := 0
  bufferedData : List (ℕ × Packet) := []
  /-- segments at the validator -/
  validating : List Packet := []

inductive Action where
  | fetch (interest : Interest)
  | failure (reason : FetchFailure)
  /-- the finish callback is called, so many segments being in the output buffer -/
  | finish (nextToPrint : ℕ) (outputBuffer : Buffer)
  deriving DecidableEq

/-- A pipeline, its consumer, and the world that the finish callback acts on. -/
structure Transfer (ω : Type) where
  pipeline : PipelineInterestsFixed
  consumer : Consumer := {}
  world : ω
  trace : List Action := []

variable {ω : Type}

abbrev TransferM (ω : Type) := Program PacketError (Transfer ω)

namespace Transfer

def act (t : Transfer ω) (action : Action) : Transfer ω := { t with trace := t.trace ++ [action] }

def onPipeline (t : Transfer ω) (f : PipelineInterestsFixed → PipelineInterestsFixed) : Transfer ω :=
  { t with pipeline := f t.pipeline }

def onConsumer (t : Transfer ω) (f : Consumer → Consumer) : Transfer ω :=
  { t with consumer := f t.consumer }

def onWorld {α : Type} (x : Program PacketError ω α) : TransferM ω α :=
  zoom Transfer.world (fun world t => { t with world := world }) x

end Transfer

def PipelineInterests.onFailure (reason : FetchFailure) : TransferM ω Unit :=
  modify fun t =>
    if t.pipeline.isStopping then t else (t.onPipeline (·.cancel)).act (.failure reason)

variable (options : Options)

namespace PipelineInterestsFixed

/-- Says whether a segment has been asked for. -/
def fetchNextSegment (pipeNo : ℕ) : TransferM ω Bool := do
  let t ← get
  if t.pipeline.isStopping then return false
  else if t.pipeline.hasFailure then do
    PipelineInterests.onFailure .noFinalSegment
    return false
  else
    let nextSegmentNo := t.pipeline.nextSegmentNo
    set (t.onPipeline fun p => { p with nextSegmentNo := nextSegmentNo + 1 })
    if t.pipeline.hasFinalBlockId ∧ t.pipeline.lastSegmentNo < nextSegmentNo then return false
    else
      let interest ← ofOption (Interest.ofName
        (t.pipeline.versionedName ++ [fromSegment nextSegmentNo]))
      let interest := { interest with mustBeFresh := options.mustBeFresh }
      modify fun t => (t.act (.fetch interest)).onPipeline
        (·.setFetcher pipeNo { interest := interest } nextSegmentNo)
      return true

/-- The loop of `doRun`, from a pipe on. -/
def doRunFrom : ℕ → ℕ → TransferM ω Unit
  | 0, _ => return ()
  | pipes + 1, pipeNo => do
      if ← fetchNextSegment options pipeNo then doRunFrom pipes (pipeNo + 1) else return ()

def doRun : TransferM ω Unit := doRunFrom options options.maxPipelineSize 0

end PipelineInterestsFixed

/-! ## The consumer -/

def getSegmentFromPacket (data : Packet) : Except Error ℕ :=
  match getLast data.name 1 with
  | some c => toSegment c
  | none => .error .tlv

/-- `Block(buffer)`: the first element of a buffer. -/
def blockOfBuffer (buffer : Buffer) : Except Error Block :=
  match readBlock buffer with
  | some (block, _) => .ok block
  | none => .error .tlv

/-- What the validator says at once. -/
inductive Verdict where
  | valid
  | invalid (info : String)
  | later
  deriving DecidableEq

variable (finishCb : Block → Program PacketError ω Unit)

namespace Consumer

def writeInOrderData : TransferM ω Unit := do
  let t ← get
  let (written, nextToPrint, bufferedData) := release t.consumer.nextToPrint t.consumer.bufferedData
  let outputBuffer := t.consumer.outputBuffer ++ written.flatMap (·.content.value)
  set (t.onConsumer fun c => { c with
    outputBuffer := outputBuffer
    nextToPrint := nextToPrint
    bufferedData := bufferedData })
  if t.pipeline.allSegmentsReceived then
    let block ← ofExcept (blockOfBuffer outputBuffer)
    modify fun t => t.act (.finish nextToPrint outputBuffer)
    Transfer.onWorld (finishCb block)
  else return ()

/-- The callback for a segment that the validator passes. -/
def onValidationSuccess (data : Packet) : TransferM ω Unit := do
  if data.contentType = contentTypeNack then throw (.nackSegment data.name)
  else
    let segmentNo ← ofExcept (getSegmentFromPacket data)
    modify fun t => t.onConsumer fun c =>
      { c with bufferedData := assign segmentNo data c.bufferedData }
    writeInOrderData finishCb

def handleData (data : Packet) : Verdict → TransferM ω Unit
  | .valid => onValidationSuccess finishCb data
  | .invalid info => throw (.invalidSegment info)
  | .later => modify fun t => t.onConsumer fun c => { c with validating := c.validating ++ [data] }

/-- A fresh consumer runs on the pipeline. The pipeline is taken as it is. -/
def run (versionedName : Name) : TransferM ω Unit := do
  modify fun t => { t with
    consumer := {}
    pipeline := { t.pipeline with versionedName := versionedName } }
  PipelineInterestsFixed.doRun options

end Consumer

/-! ## Segments that arrive -/

def PipelineInterests.onData (data : Packet) (verdict : Verdict) : TransferM ω Unit := do
  modify fun t => t.onPipeline fun p => { p with nReceived := p.nReceived + 1 }
  Consumer.handleData finishCb data verdict

namespace PipelineInterestsFixed

/-- The first part of `handleData`; says whether the transfer goes on. A failure
cancels all fetchers, also those that the loop of the source has cancelled before. -/
def learnFinalBlock (data : Packet) : TransferM ω Bool := do
  let t ← get
  match data.finalBlock with
  | none => return true
  | some finalBlock =>
      if t.pipeline.hasFinalBlockId then return true
      else
        let lastSegmentNo ← ofExcept (toSegment finalBlock)
        modify fun t => t.onPipeline fun p =>
          { p with hasFinalBlockId := true, lastSegmentNo := lastSegmentNo }
        match t.pipeline.segmentFetchers.findSome? fun entry => entry.bind fun f =>
            if f.2 ≤ lastSegmentNo ∧ f.1.hasError then some f.2 else none with
        | some segmentNo =>
            PipelineInterests.onFailure (.segment segmentNo)
            return false
        | none =>
            modify fun t => t.onPipeline (·.cancelAfter lastSegmentNo)
            return true

def handleData (pipeNo : ℕ) (data : Packet) (verdict : Verdict) : TransferM ω Unit := do
  let t ← get
  if t.pipeline.isStopping then return ()
  else if ← learnFinalBlock data then do
    PipelineInterests.onData finishCb data verdict
    let t ← get
    if t.pipeline.allSegmentsReceived then return ()
    else let _ ← fetchNextSegment options pipeNo
  else return ()

def handleFail (reason : FetchFailure) (pipeNo : ℕ) : TransferM ω Unit := do
  let t ← get
  if t.pipeline.isStopping then return ()
  else match t.pipeline.segmentFetchers[pipeNo]? with
    | some (some failed) =>
        if t.pipeline.hasFinalBlockId then
          -- a segment after the last one does no harm
          if failed.2 ≤ t.pipeline.lastSegmentNo then PipelineInterests.onFailure reason
          else return ()
        else
          set (t.onPipeline (·.cancelAfter failed.2))
          if t.pipeline.segmentFetchers.any fun entry => entry.any fun f =>
              f.2 ≤ failed.2 && f.1.isRunning then
            modify fun t => t.onPipeline fun p => { p with hasFailure := true }
          else PipelineInterests.onFailure .noFinalSegment
    | _ => return ()

end PipelineInterestsFixed

/-! ## Fetchers -/

namespace DataFetcher

/-- Expresses the Interest of a fetcher again. -/
def expressInterest (pipeNo : ℕ) (fetcher : DataFetcher) (segmentNo : ℕ) : TransferM ω Unit :=
  modify fun t => (t.act (.fetch fetcher.interest)).onPipeline
    (·.setFetcher pipeNo { fetcher with pendingInterest := true } segmentNo)

/-- The fetcher gives up. -/
def fail (pipeNo : ℕ) (fetcher : DataFetcher) (segmentNo : ℕ) (reason : FetchFailure) :
    TransferM ω Unit := do
  modify fun t => t.onPipeline
    (·.setFetcher pipeNo { fetcher with hasError := true, pendingInterest := false } segmentNo)
  PipelineInterestsFixed.handleFail reason pipeNo

/-- The fetcher of a pipe, if it runs. -/
def running (t : Transfer ω) (pipeNo : ℕ) : Option (DataFetcher × ℕ) :=
  (t.pipeline.segmentFetchers[pipeNo]?.join).filter (·.1.isRunning)

def handleData (pipeNo : ℕ) (data : Packet) (verdict : Verdict) : TransferM ω Unit := do
  let t ← get
  match running t pipeNo with
  | some (fetcher, segmentNo) =>
      set (t.onPipeline (·.setFetcher pipeNo
        { fetcher with isStopped := true, pendingInterest := false } segmentNo))
      PipelineInterestsFixed.handleData options finishCb pipeNo data verdict
  | none => return ()

def handleNack (pipeNo : ℕ) (reason : NackReason) : TransferM ω Unit := do
  let maxRetries := options.maxRetriesOnTimeoutOrNack
  let t ← get
  match running t pipeNo with
  | some (fetcher, segmentNo) =>
      let nNacks := if maxRetries = MAX_RETRIES_INFINITE then fetcher.nNacks else fetcher.nNacks + 1
      let fetcher := { fetcher with nNacks := nNacks }
      if nNacks ≤ maxRetries ∨ maxRetries = MAX_RETRIES_INFINITE then
        match reason with
        | .DUPLICATE => expressInterest pipeNo fetcher segmentNo
        -- the scheduler expresses the Interest after the backoff time
        | .CONGESTION => set (t.onPipeline
            (·.setFetcher pipeNo { fetcher with pendingInterest := false } segmentNo))
        | .other _ => fail pipeNo fetcher segmentNo (.nack fetcher.interest.name reason)
      else fail pipeNo fetcher segmentNo (.nackRetries maxRetries fetcher.interest.name)
  | none => return ()

def handleTimeout (pipeNo : ℕ) : TransferM ω Unit := do
  let maxRetries := options.maxRetriesOnTimeoutOrNack
  let t ← get
  match running t pipeNo with
  | some (fetcher, segmentNo) =>
      let nTimeouts :=
        if maxRetries = MAX_RETRIES_INFINITE then fetcher.nTimeouts else fetcher.nTimeouts + 1
      let fetcher := { fetcher with nTimeouts := nTimeouts }
      if nTimeouts ≤ maxRetries ∨ maxRetries = MAX_RETRIES_INFINITE then
        expressInterest pipeNo fetcher segmentNo
      else fail pipeNo fetcher segmentNo (.timeoutRetries maxRetries fetcher.interest.name)
  | none => return ()

end DataFetcher

/-! ## Events -/

inductive Event where
  /-- Data arrives; it goes to every fetcher that waits for its name -/
  | data (data : Packet) (verdict : Verdict)
  | nack (pipeNo : ℕ) (reason : NackReason)
  | timeout (pipeNo : ℕ)
  /-- the backoff time of a congested fetcher is over -/
  | backoff (pipeNo : ℕ)
  /-- the validator passes the segment that waits at an index, or gives its reason -/
  | verdict (k : ℕ) (refused : Option String)

/-- The pipes whose fetcher has an expressed Interest with `test`. -/
def waiting (t : Transfer ω) (test : Interest → Bool) : List ℕ :=
  (List.range t.pipeline.segmentFetchers.length).filter fun pipeNo =>
    ((DataFetcher.running t pipeNo).any fun f => f.1.pendingInterest && test f.1.interest)

/-- The validator's callbacks for a segment it has kept. -/
def Consumer.verdict (k : ℕ) (refused : Option String) : TransferM ω Unit := do
  let t ← get
  match t.consumer.validating[k]? with
  | some data =>
      set (t.onConsumer fun c => { c with validating := c.validating.eraseIdx k })
      match refused with
      | none => Consumer.onValidationSuccess finishCb data
      | some info => throw (.invalidSegment info)
  | none => return ()

def Event.handle : Event → TransferM ω Unit
  | .data p v => do
      let t ← get
      (waiting t (·.matchesName p.name)).foldlM
        (fun _ pipeNo => DataFetcher.handleData options finishCb pipeNo p v) ()
  | .nack pipeNo reason => do
      let t ← get
      if pipeNo ∈ waiting t fun _ => true then DataFetcher.handleNack options pipeNo reason
      else return ()
  | .timeout pipeNo => do
      let t ← get
      if pipeNo ∈ waiting t fun _ => true then DataFetcher.handleTimeout options pipeNo
      else return ()
  | .backoff pipeNo => do
      let t ← get
      match DataFetcher.running t pipeNo with
      | some (fetcher, segmentNo) =>
          if fetcher.pendingInterest then return ()
          else DataFetcher.expressInterest pipeNo fetcher segmentNo
      | none => return ()
  | .verdict k refused => Consumer.verdict finishCb k refused

end CertLedger.SegmentPipeline
