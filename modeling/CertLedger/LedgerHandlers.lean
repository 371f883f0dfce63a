import CertLedger.DagEngine

/-!
# The handlers of the ledger module

The ledger logs submitted Data, takes in the records that sync delivers and
replies to records that wait. Packets, payload maps, the tracker and the edge
states share one storage. A handler that throws keeps what it has done so far,
and the next event finds the module in that state.
-/
namespace CertLedger.LedgerHandlers
open Std TlvCodec FallibleState NdnObjects RecordCodec EdgeStateCodec LedgerIndexCodec
open EdgeStateList PayloadMap DagEngine

structure LedgerConfig extends DagConfig where
  policyThreshold : ℕ := 1
  instancePrefix : Name

structure LedgerModule extends DagModule where
  /-- of the latest publication -/
  seqNo : UInt64 := 0
  repliedRecords : NameSet := ∅

abbrev LedgerM := Program Error LedgerModule

def LedgerModule.withDag (ledger : LedgerModule) (dag : DagModule) : LedgerModule :=
  ⟨dag, ledger.seqNo, ledger.repliedRecords⟩

def onDag {α : Type} (x : DagM α) : LedgerM α :=
  zoom LedgerModule.toDagModule (fun dag ledger => ledger.withDag dag) x

inductive AppendStatus where
  | SUCCESS
  | FAILURE_NACK
  | FAILURE_TIMEOUT
  | FAILURE_VALIDATION_APP
  | FAILURE_VALIDATION_PROTO
  | FAILURE_STORAGE
  deriving DecidableEq

namespace AppendStatus

def toNat : AppendStatus → ℕ
  | SUCCESS => 0
  | FAILURE_NACK => 1
  | FAILURE_TIMEOUT => 2
  | FAILURE_VALIDATION_APP => 4
  | FAILURE_VALIDATION_PROTO => 5
  | FAILURE_STORAGE => 98

end AppendStatus

variable [NdnCxx] (config : LedgerConfig)

/-! ## The tracker and the payload maps -/

def trackerName : Name := toStateListName globalTracker

/-- An existing tracker is kept. -/
def initializeTracker : DagM Unit :=
  tryCatch (adder trackerName (encodeEdgeStateList
    { listName := trackerName, key := globalTracker, nextList := getStateListNull })) fun _ =>
      pure ()

/-- Sets the interlock time of a stored state. -/
def stampState (stateName : Name) : DagM Unit := do
  let stateBlock ← getter stateName
  let state ← lift (decodeEdgeState stateBlock)
  let interlocked ← now config.toDagConfig
  deleter stateName
  adder stateName (encodeEdgeState { state with interlocked := interlocked })

def storeTracker (statesTracker : EdgeStateList) : DagM Unit := do
  deleter trackerName
  adder trackerName (encodeEdgeStateList statesTracker)

def updateStatesTracker (stateName : Name) (interlocked : Bool) : DagM Unit := do
  let trackerBlock ← getter trackerName
  let statesTracker ← lift (decodeEdgeStateList trackerBlock)
  if stateName ∉ statesTracker.value then
    storeTracker { statesTracker with value := statesTracker.value.insert stateName }
  else if interlocked then do
    stampState config stateName
    storeTracker statesTracker
  -- refused: tracked already and not interlocked
  else return ()

def addPayloadMap (payload : Buffer) (mapTo : Name) : DagM Unit :=
  adder (toMapName payload) (encodePayloadMap ⟨toMapName payload, mapTo⟩)

def dagHarvest : LedgerM Unit := do
  let recordList ← onDag (harvestAbove config.toDagConfig config.policyThreshold true)
  recordList.foldlM (fun _ r => do
    modify fun ledger => { ledger with repliedRecords := ledger.repliedRecords.erase r.name }
    onDag (updateStatesTracker config (toStateName r.name) true)) ()

/-! ## Publication -/

/-- One publication by the sync library: the packets it puts into the storage for
a name and a content, and the sequence number it returns unless it throws. -/
structure Publication where
  packets : Name → Buffer → List Data
  seqNo : Option UInt64

/-- The data store given to the sync library. -/
def insert (data : Data) : DagM Unit := adder data.name data.wire

def getNextName : LedgerM Name := do
  let ledger ← get
  return config.instancePrefix.appendSequenceNumber (ledger.seqNo + 1)

def publishRecord (pub : Publication) (record : Record) : LedgerM Name := do
  let name ← getNextName config
  onDag ((pub.packets name record.prepareContent.wire).foldlM (fun _ data => insert data) ())
  match pub.seqNo with
  | none => throw .publish
  | some seqNo =>
      modify fun ledger => { ledger with seqNo := seqNo }
      return name

/-! ## Submissions -/

/-- Stores raw Data; a failure is taken for a duplicate. -/
def insertNew (data : Data) : DagM Bool :=
  tryCatch (do insert data; return true) fun _ => return false

/-- The record for a payload, without its name. It points to the records nobody
has endorsed yet. -/
def newRecord (payload : Buffer) : LedgerM Record := do
  let waiting ← onDag (getWaitList 0)
  let pointers := waiting.toList.map fromStateName
  if pointers.length < 1 then do
    let genesisName ← getNextName config
    return { type := GENESIS_RECORD, pointers := [genesisName], payload := payload }
  else return { type := GENERIC_RECORD, pointers := pointers, payload := payload }

/-- A published record goes into the graph, and its state into the two indexes. -/
def logRecord (record : Record) : LedgerM Unit := do
  let stateName ← onDag (add config.toDagConfig record)
  onDag (addPayloadMap record.payload stateName)
  onDag (updateStatesTracker config (toStateName record.name) false)
  dagHarvest config

def logPayload (pub : Publication) (payload : Buffer) : LedgerM Unit := do
  let record ← newRecord config payload
  let name ← publishRecord config pub record
  logRecord config { record with name := name }

def afterValidation (data : Data) (pub : Publication) : LedgerM Unit := do
  let isNew ← onDag (insertNew data)
  if isNew then logPayload config pub data.wire.wire else return ()

/-- The validator has come to its verdict before it returns. -/
def onDataSubmission (data : Data) (verdict : Bool) (pub : Publication) : LedgerM AppendStatus :=
  if verdict then
    tryCatch (do afterValidation config data pub; return .SUCCESS) fun _ =>
      return .FAILURE_STORAGE
  else return .FAILURE_VALIDATION_APP

/-! ## Records from sync -/

/-- Stores the Data a payload begins with and maps the payload to the state;
says whether the Data was new. -/
def storePayload (payload : Buffer) (stateName : Name) : DagM Bool := do
  let (dataBlock, _) ← lift (parsed (readBlock payload))
  let data ← lift (Data.ofBlock dataBlock)
  let isNew ← insertNew data
  if isNew then do
    tryCatch (addPayloadMap payload stateName) fun _ => pure ()
    return true
  else return false

def yieldPayload (record : Record) (stateName : Name) : DagM Bool :=
  if record.type ≠ REPLY_RECORD then storePayload record.payload stateName else return true

/-- The callback for a record that sync yields. -/
def yieldRecord (record : Record) : LedgerM Unit := do
  let stateName ← onDag (add config.toDagConfig record)
  onDag (updateStatesTracker config stateName false)
  let goesOn ← onDag (yieldPayload record stateName)
  if goesOn then dagHarvest config else return ()

/-! ## Replies -/

def collectReply (pointers : List Name) (record : Record) : LedgerM (List Name) := do
  let ledger ← get
  if record.name ∉ ledger.repliedRecords ∧ record.type ≠ REPLY_RECORD then do
    set { ledger with repliedRecords := ledger.repliedRecords.insert record.name }
    return pointers ++ [record.name]
  else return pointers

def logReply (pub : Publication) (pointers : List Name) : LedgerM Unit := do
  let newReply : Record := { type := REPLY_RECORD, pointers := pointers }
  let newReplyName ← publishRecord config pub newReply
  let _ ← onDag (add config.toDagConfig { newReply with name := newReplyName })
  dagHarvest config

def publishReply (pub : Publication) : LedgerM Unit := do
  let nonInterlocked ← onDag (harvestBelow config.toDagConfig config.policyThreshold)
  let pointers ← nonInterlocked.foldlM collectReply []
  if 0 < pointers.length then logReply config pub pointers else return ()

/-! ## Runs -/

inductive Event where
  | submission (data : Data) (verdict : Bool) (pub : Publication)
  | sync (record : Record)
  | reply (pub : Publication)

def Event.handle : Event → LedgerM Unit
  | submission data verdict pub => do let _ ← onDataSubmission config data verdict pub
  | sync record => yieldRecord config record
  | reply pub => publishReply config pub

/-- The module after an event, whether or not its handler has thrown. -/
def perform (ledger : LedgerModule) (event : Event) : LedgerModule :=
  (exec (event.handle config) ledger).2

/-- A new module; `faults` are the failures of the storage in its lifetime. -/
def start (faults : List Bool) : LedgerModule where
  toDagModule := (exec initializeTracker { storage := { faults := faults } }).2

def after (faults : List Bool) (events : List Event) : LedgerModule :=
  events.foldl (perform config) (start faults)

end CertLedger.LedgerHandlers
