import CertLedger.AppendOptions

/-!
# The ledger's side of the append protocol

Every notification starts a chain: the ledger fetches the submission, again
after each timeout until the retries are used up, hands the submitted Data to
the update callback and acknowledges. The callback acts on a world of its own.
-/
namespace CertLedger.AppendLedger
open TlvCodec FallibleState NdnObjects NdnPackets AppendOptions LedgerHandlers

/-- What a ledger sends. -/
inductive Action where
  | fetch (chain : ℕ) (fetcher : Interest)
  | ack (chain : ℕ) (ack : Packet)
  deriving DecidableEq

structure Ledger (σ : Type) where
  topic : Name
  world : σ
  /-- the options of the client, by chain -/
  chains : List ClientOptions := []
  /-- expressed fetches, by chain -/
  fetching : List (ℕ × Interest) := []
  /-- submissions at the validator, by chain -/
  validating : List (ℕ × Packet) := []
  trace : List Action := []

variable {σ : Type}

abbrev LedgerM (σ : Type) := Program PacketError (Ledger σ)

namespace Ledger

def onWorld {α : Type} (x : Program PacketError σ α) : LedgerM σ α :=
  zoom Ledger.world (fun world ledger => { ledger with world := world }) x

def setChain (ledger : Ledger σ) (chain : ℕ) (client : ClientOptions) : Ledger σ :=
  { ledger with chains := ledger.chains.set chain client }

def act (ledger : Ledger σ) (action : Action) : Ledger σ :=
  { ledger with trace := ledger.trace ++ [action] }

/-- The callbacks of a chain share its options. -/
def client (ledger : Ledger σ) (chain : ℕ) : ClientOptions :=
  ledger.chains.getD chain { topic := ledger.topic, appenderPrefix := [], nonce := InvalidNonce }

end Ledger

section
variable [NdnCxx]

/-- Builds, signs and puts the acknowledgement. -/
def putAck (chain : ℕ) (statusList : List StatusCode) : LedgerM σ Unit := do
  let ledger ← get
  let ack ← ofOption (makeNotificationAck (ledger.client chain) statusList)
  modify fun ledger => ledger.act (.ack chain ack)

/-- The fetch is built before the retries are looked at. -/
def serveClient (chain : ℕ) (random : UInt64) : LedgerM σ Unit := do
  let ledger ← get
  let (fetcher, client) := makeFetcher ledger.topic random (ledger.client chain)
  set (ledger.setChain chain client)
  let fetcher ← ofOption fetcher
  let (exhausted, client) := client.exhaustRetries
  modify fun ledger => ledger.setChain chain client
  if exhausted then putAck chain [code .FAILURE_TIMEOUT]
  else modify fun ledger =>
    { ledger.act (.fetch chain fetcher) with fetching := ledger.fetching ++ [(chain, fetcher)] }

/-- The callback for a notification. It builds a fetch that nothing uses before
`serveClient` builds its own. -/
def onNotification (notification : Interest) (random₁ random₂ : UInt64) : LedgerM σ Unit := do
  let ledger ← get
  let client ← ofExcept (praseNotification ledger.topic notification)
  let (fetcher, client) := makeFetcher ledger.topic random₁ client
  let _ ← ofOption fetcher
  set { ledger with chains := ledger.chains ++ [client] }
  serveClient ledger.chains.length random₂

variable (onUpdate : Data → Program PacketError σ StatusCode)

/-- One turn of the loop over the elements of a submission. -/
def readSubmission (statusList : List StatusCode) (item : Block) :
    Program PacketError σ (List StatusCode) :=
  if item.type = tlvData then do
    let data ← ofExcept (Data.ofBlock item)
    let statusCode ← onUpdate data
    return statusList ++ [statusCode]
  else if isCriticalType item.type then throw (.ndn (.unrecognizedType item.type))
  else return statusList

def readSubmissions (data : Packet) : Program PacketError σ (List StatusCode) := do
  let items ← ofExcept (parsed data.content.elements)
  items.foldlM (readSubmission onUpdate) []

def onValidationSuccess (chain : ℕ) (data : Packet) : LedgerM σ Unit := do
  let statusList ← Ledger.onWorld (readSubmissions onUpdate data)
  putAck chain statusList

def onValidationFailure (chain : ℕ) : LedgerM σ Unit :=
  putAck chain [code .FAILURE_VALIDATION_PROTO]

/-! ## Events -/

inductive Event where
  | notification (notification : Interest) (random₁ random₂ : UInt64)
  /-- Data arrives; it goes to every fetch of its name -/
  | data (data : Packet)
  | valid (chain : ℕ)
  | invalid (chain : ℕ)
  | nack (chain : ℕ)
  | timeout (chain : ℕ) (random : UInt64)

/-- The name that `listen` sets the filter for. -/
def notifyName (topic : Name) : Name := topic ++ [notify]

def Event.handle : Event → LedgerM σ Unit
  | notification i random₁ random₂ => do
      let ledger ← get
      -- there is no filter for an empty topic
      if ledger.topic ≠ [] ∧ (notifyName ledger.topic).isPrefixOf i.name then
        onNotification i random₁ random₂
      else return ()
  | data p => modify fun ledger => { ledger with
      fetching := ledger.fetching.filter fun f => !f.2.matchesName p.name
      validating := ledger.validating ++
        (ledger.fetching.filter fun f => f.2.matchesName p.name).map fun f => (f.1, p) }
  | valid chain => do
      let ledger ← get
      match ledger.validating.lookup chain with
      | some p =>
          set { ledger with validating := ledger.validating.eraseP (·.1 == chain) }
          onValidationSuccess onUpdate chain p
      | none => return ()
  | invalid chain => do
      let ledger ← get
      match ledger.validating.lookup chain with
      | some _ =>
          set { ledger with validating := ledger.validating.eraseP (·.1 == chain) }
          onValidationFailure chain
      | none => return ()
  | nack chain => do
      let ledger ← get
      match ledger.fetching.lookup chain with
      | some _ =>
          set { ledger with fetching := ledger.fetching.eraseP (·.1 == chain) }
          putAck chain [code .FAILURE_NACK]
      | none => return ()
  | timeout chain random => do
      let ledger ← get
      match ledger.fetching.lookup chain with
      | some _ =>
          set { ledger with fetching := ledger.fetching.eraseP (·.1 == chain) }
          serveClient chain random
      | none => return ()

/-- The ledger after an event, whether or not its handler has thrown. -/
def perform (ledger : Ledger σ) (event : Event) : Ledger σ := (exec (event.handle onUpdate) ledger).2

/-! ## The statuses of a submission -/

/-- The update callback for each item of a list, in order. -/
def updates (dataList : List Data) (statusList : List StatusCode) :
    Program PacketError σ (List StatusCode) :=
  dataList.foldlM (fun statusList data => do
    let statusCode ← onUpdate data
    return statusList ++ [statusCode]) statusList

theorem readSubmission_wire (statusList : List StatusCode) (data : Data) :
    readSubmission onUpdate statusList data.wire = (do
      let statusCode ← onUpdate data
      return statusList ++ [statusCode]) := by
  rw [readSubmission, if_pos data.wire_type, data.ofBlock_wire]
  rfl

theorem foldlM_readSubmission (dataList : List Data) (statusList : List StatusCode) :
    (dataList.map (·.wire)).foldlM (readSubmission onUpdate) statusList =
      updates onUpdate dataList statusList := by
  induction dataList generalizing statusList with
  | nil => rfl
  | cons data dataList ih =>
      simp only [updates, List.map_cons, List.foldlM_cons, readSubmission_wire] at ih ⊢
      simp only [ih]

/-- The ledger hands the Data of a submission to the callback one by one. -/
theorem readSubmissions_makeSubmission (o : ClientOptions) (dataList : List Data) :
    readSubmissions onUpdate (o.makeSubmission dataList) = updates onUpdate dataList [] := by
  rw [readSubmissions, ClientOptions.makeSubmission, Packet.elements_ofElements, parsed_some]
  exact foldlM_readSubmission onUpdate dataList []

/-- A callback that notes its calls and returns the outcomes of a sequence. -/
def scripted (outcomes : ℕ → StatusCode) (data : Data) :
    Program PacketError (List Data) StatusCode := do
  let calls ← get
  set (calls ++ [data])
  return outcomes calls.length

theorem exec_updates_scripted (outcomes : ℕ → StatusCode) (dataList calls : List Data)
    (statusList : List StatusCode) :
    exec (updates (scripted outcomes) dataList statusList) calls =
      (.ok (statusList ++ (List.range' calls.length dataList.length).map outcomes),
        calls ++ dataList) := by
  induction dataList generalizing calls statusList with
  | nil => simp [updates]
  | cons data dataList ih =>
      have hfirst : exec (do
          let statusCode ← scripted outcomes data
          return statusList ++ [statusCode]) calls =
          (.ok (statusList ++ [outcomes calls.length]), calls ++ [data]) := rfl
      rw [updates, List.foldlM_cons, exec_bind_ok hfirst]
      have hrest := ih (calls ++ [data]) (statusList ++ [outcomes calls.length])
      rw [updates] at hrest
      rw [hrest]
      simp [List.range'_succ]

theorem exec_putAck {ledger : Ledger σ} {chain : ℕ} {statusList : List StatusCode} {ack : Packet}
    (h : makeNotificationAck (ledger.client chain) statusList = some ack) :
    exec (putAck chain statusList) ledger = (.ok (), ledger.act (.ack chain ack)) := by
  rw [putAck, exec_bind_ok (exec_get ledger), h]
  rfl

theorem statuses_line_up (o client : ClientOptions) (notification : Interest)
    (h : client.makeNotification = some notification) (dataList : List Data)
    (outcomes : ℕ → StatusCode) (ledger : Ledger (List Data)) (chain : ℕ)
    (hc : ledger.chains[chain]? = some client) (hw : ledger.world = []) :
    ∃ ledger' ack, exec (onValidationSuccess (scripted outcomes) chain (o.makeSubmission dataList))
        ledger = (.ok (), ledger') ∧
      ledger'.world = dataList ∧ ledger'.trace = ledger.trace ++ [.ack chain ack] ∧
      praseAck ack = .ok ((List.range dataList.length).map outcomes) := by
  have hupdates : exec (Ledger.onWorld (readSubmissions (scripted outcomes)
      (o.makeSubmission dataList))) ledger =
      (.ok ((List.range dataList.length).map outcomes), { ledger with world := dataList }) := by
    have hrun := exec_updates_scripted outcomes dataList [] []
    rw [List.nil_append, List.nil_append, List.length_nil, ← List.range_eq_range'] at hrun
    rw [readSubmissions_makeSubmission]
    change ((exec (updates (scripted outcomes) dataList []) ledger.world).1,
      { ledger with world := (exec (updates (scripted outcomes) dataList []) ledger.world).2 }) = _
    rw [hw, hrun]
  have hack := name_makeNotificationAck h ((List.range dataList.length).map outcomes)
  have hclient : ({ ledger with world := dataList } : Ledger (List Data)).client chain = client := by
    simp [Ledger.client, hc]
  rw [onValidationSuccess, exec_bind_ok hupdates, exec_putAck (hclient ▸ hack)]
  exact ⟨_, _, rfl, rfl, rfl, praseAck_makeNotificationAck hack⟩

end

section
open PlainNdn

local instance : NdnCxx := plainNdn sessionDigests

theorem statuses_line_up_session :
    ∃ ledger' ack, exec (onValidationSuccess
        (scripted fun k => if k = 0 then code .SUCCESS else code .FAILURE_STORAGE) 0
        ((sessionOptions 7).makeSubmission [sessionData [1], sessionData [2]]))
        { topic := nameT, world := [], chains := [sessionOptions 7] } = (.ok (), ledger') ∧
      ledger'.world = [sessionData [1], sessionData [2]] ∧ ledger'.trace = [.ack 0 ack] ∧
      praseAck ack = .ok [code .SUCCESS, code .FAILURE_STORAGE] :=
  statuses_line_up (sessionOptions 7) (sessionOptions 7) (sessionNotification 7) rfl _ _ _ 0 rfl rfl

end

end CertLedger.AppendLedger
