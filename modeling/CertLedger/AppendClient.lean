import CertLedger.AppendOptions

/-!
# The client's side of the append protocol

One client runs any number of sessions. Each sets a filter for its fetches,
notifies the ledger until it is acknowledged or gives up, and answers a fetch
with its submission. All filters are on one handle. The trace holds what comes in
for a session, what goes out for it and what its caller is told.
-/
namespace CertLedger.AppendClient
open TlvCodec FallibleState NdnObjects NdnPackets AppendOptions LedgerHandlers

/-- The error of a failure callback. -/
inductive Failure where
  /-- `TIMEOUT`: the name of the notification and " not acked" -/
  | timeout (notification : Name)
  /-- `NACK`: the name of the notification -/
  | nack (notification : Name)
  /-- `VALIDATION_ERROR`: what the validator says -/
  | validation (info : String)
  deriving DecidableEq

variable [NdnCxx]

inductive Action where
  | acked (session : ℕ) (ack : Packet)
  | fetched (session : ℕ) (name : Name)
  | notified (session : ℕ) (notification : Interest)
  | submitted (session : ℕ) (submission : Packet)
  | success (session : ℕ) (data : List Data) (ack : Packet)
  | failure (session : ℕ) (data : List Data) (error : Failure)

/-- What the callbacks of one session share. -/
structure Session where
  options : ClientOptions
  data : List Data

structure Client where
  appenderPrefix : Name
  sessions : List Session := []
  /-- the filters on the handle, by session -/
  handle : List ℕ := []
  /-- the filters of the face, by session -/
  filters : List (ℕ × Name) := []
  /-- expressed notifications, by session -/
  pending : List (ℕ × Interest) := []
  /-- acknowledgements at the validator, by session -/
  validating : List (ℕ × Packet) := []
  trace : List Action := []

abbrev ClientM := Program PacketError Client

namespace Client
variable (client : Client)

def act (action : Action) : Client := { client with trace := client.trace ++ [action] }

def session (session : ℕ) : Session :=
  client.sessions.getD session ⟨{ topic := [], appenderPrefix := [], nonce := InvalidNonce }, []⟩

def setOptions (session : ℕ) (options : ClientOptions) : Client :=
  { client with sessions := client.sessions.modify session fun s => { s with options := options } }

/-- Cancels what is on the handle, which stays there. -/
def unregisterFilters : Client :=
  { client with filters := client.filters.filter fun f => f.1 ∉ client.handle }

end Client

/-- Calls the failure callback of a session. -/
def fail (session : ℕ) (error : Failure) : ClientM Unit :=
  modify fun client => client.act (.failure session (client.session session).data error)

/-- The notification is built before the retries are looked at. -/
def dispatchNotification (session : ℕ) : ClientM Unit := do
  let client ← get
  let interest ← ofOption (client.session session).options.makeNotification
  let (exhausted, options) := (client.session session).options.exhaustRetries
  set (client.setOptions session options)
  if exhausted then fail session (.timeout interest.name)
  else modify fun client =>
    { client.act (.notified session interest) with pending := client.pending ++ [(session, interest)] }

/-- The callback of a session's filter. -/
def onFetch (session : ℕ) (name : Name) : ClientM Unit := do
  let client ← get
  set (client.act (.fetched session name))
  let options := (client.session session).options
  -- matched already
  if 0 < options.nonce2 then return ()
  else
    let nonce2 ← ofExcept (lastNumber name)
    let options := options.setNonce2 nonce2
    modify fun client => (client.setOptions session options).act
      (.submitted session (options.makeSubmission (client.session session).data))

def appendData (topic : Name) (data : List Data) (nonce : UInt64) : ClientM UInt64 := do
  if topic = [] ∨ (data.map (·.name)).headD [] = [] then return InvalidNonce
  else
    let client ← get
    let options : ClientOptions :=
      { topic := topic, appenderPrefix := client.appenderPrefix, nonce := nonce }
    let session := client.sessions.length
    set { client with
      sessions := client.sessions ++ [Session.mk options data]
      filters := client.filters ++ [(session, options.makeInterestFilter)]
      handle := client.handle ++ [session] }
    dispatchNotification session
    return nonce

/-- The callback for the acknowledgement of a session. -/
def onAck (session : ℕ) (ack : Packet) : ClientM Unit :=
  modify fun client =>
    let client := (client.act (.acked session ack)).unregisterFilters
    { client with validating := client.validating ++ [(session, ack)] }

def onValidationSuccess (session : ℕ) (ack : Packet) : ClientM Unit := do
  -- the loop over the statuses only logs
  let _statusList ← ofExcept (praseAck ack)
  modify fun client => client.act (.success session (client.session session).data ack)

/-! ## Events -/

inductive Event where
  | append (topic : Name) (data : List Data) (nonce : UInt64)
  /-- an Interest arrives; it goes to every filter that is a prefix of its name -/
  | interest (name : Name)
  /-- Data arrives; it goes to every notification of its name -/
  | received (packet : Packet)
  | valid (session : ℕ)
  | invalid (session : ℕ) (info : String)
  | nack (session : ℕ)
  | timeout (session : ℕ)

def Event.handle : Event → ClientM Unit
  | .append topic data nonce => do let _ ← appendData topic data nonce
  | .interest name => do
      let client ← get
      (client.filters.filter fun f => f.2.isPrefixOf name).foldlM (fun _ f => onFetch f.1 name) ()
  | .received p => do
      let client ← get
      set { client with pending := client.pending.filter fun f => !f.2.matchesName p.name }
      (client.pending.filter fun f => f.2.matchesName p.name).foldlM (fun _ f => onAck f.1 p) ()
  | .valid session => do
      let client ← get
      match client.validating.lookup session with
      | some ack =>
          set { client with validating := client.validating.eraseP (·.1 == session) }
          onValidationSuccess session ack
      | none => return ()
  | .invalid session info => do
      let client ← get
      match client.validating.lookup session with
      | some _ =>
          set { client with validating := client.validating.eraseP (·.1 == session) }
          fail session (.validation info)
      | none => return ()
  | .nack session => do
      let client ← get
      match client.pending.lookup session with
      | some notification =>
          set { client with pending := client.pending.eraseP (·.1 == session) }
          fail session (.nack notification.name)
      | none => return ()
  | .timeout session => do
      let client ← get
      match client.pending.lookup session with
      | some _ =>
          set { client with pending := client.pending.eraseP (·.1 == session) }
          dispatchNotification session
      | none => return ()

/-- The client after an event, whether or not its handler has thrown. -/
def perform (client : Client) (event : Event) : Client := (exec event.handle client).2

def start (appenderPrefix : Name) : Client := { appenderPrefix := appenderPrefix }

def after (appenderPrefix : Name) (events : List Event) : Client :=
  events.foldl perform (start appenderPrefix)

namespace Action

def session : Action → ℕ
  | .acked session _ => session
  | .fetched session _ => session
  | .notified session _ => session
  | .submitted session _ => session
  | .success session _ _ => session
  | .failure session _ _ => session

/-- The second nonce of a fetch that has come in for a session. -/
def fetchedNonce (j : ℕ) : Action → Option UInt64
  | .fetched k name => if k = j then (lastNumber name).toOption else none
  | _ => none

/-- The second nonce of a submission that has gone out for a session. -/
def submittedNonce (j : ℕ) : Action → Option UInt64
  | .submitted k submission => if k = j then (lastNumber submission.name).toOption else none
  | _ => none

/-- What is neither received from the ledger nor sent in answer to it. -/
def IsReport : Action → Prop
  | .notified _ _ => True
  | .success _ _ _ => True
  | .failure _ _ _ => True
  | _ => False

theorem IsReport.fetchedNonce {a : Action} (h : a.IsReport) (j : ℕ) : a.fetchedNonce j = none := by
  cases a <;> first | rfl | exact h.elim

theorem IsReport.submittedNonce {a : Action} (h : a.IsReport) (j : ℕ) :
    a.submittedNonce j = none := by
  cases a <;> first | rfl | exact h.elim

end Action

/-- Verdicts, nacks and timeouts. -/
def Event.IsMinor : Event → Prop
  | .valid _ => True
  | .invalid _ _ => True
  | .nack _ => True
  | .timeout _ => True
  | _ => False

/-! ## The parts of a client -/

namespace Client
variable (c : Client)

@[simp] theorem session_act (a : Action) (j : ℕ) : (c.act a).session j = c.session j := rfl

@[simp] theorem session_unregisterFilters (j : ℕ) :
    c.unregisterFilters.session j = c.session j := rfl

theorem unregisterFilters_unregisterFilters :
    c.unregisterFilters.unregisterFilters = c.unregisterFilters := by
  have h : (c.filters.filter fun f => f.1 ∉ c.handle).filter (fun f => f.1 ∉ c.handle) =
      c.filters.filter fun f => f.1 ∉ c.handle := by
    rw [List.filter_filter]
    exact List.filter_congr fun f _ => Bool.and_self _
  exact congrArg (fun filters => { c with filters := filters }) h

@[simp] theorem length_setOptions (k : ℕ) (o : ClientOptions) :
    (c.setOptions k o).sessions.length = c.sessions.length := by
  simp [setOptions]

theorem session_setOptions_self {k : ℕ} (h : k < c.sessions.length) (o : ClientOptions) :
    (c.setOptions k o).session k = ⟨o, (c.session k).data⟩ := by
  simp [setOptions, session, h, List.getD_eq_getElem?_getD]

theorem session_setOptions_ne {j k : ℕ} (h : j ≠ k) (o : ClientOptions) :
    (c.setOptions k o).session j = c.session j := by
  simp [setOptions, session, List.getD_eq_getElem?_getD, Ne.symm h]

end Client

/-! ## What the handlers do -/

section
variable (c : Client) (k : ℕ)

/-- One more turn of the retries has been taken. -/
def retried : Client := c.setOptions k (c.session k).options.exhaustRetries.2

/-- A dispatch throws, gives up, or sends a notification. -/
theorem dispatch_cases :
    (exec (dispatchNotification k) c).2 = c ∨
    (∃ i, (c.session k).options.makeNotification = some i ∧
      (exec (dispatchNotification k) c).2 =
        (retried c k).act (.failure k ((retried c k).session k).data (.timeout i.name))) ∨
    (∃ i, (c.session k).options.makeNotification = some i ∧
      (exec (dispatchNotification k) c).2 =
        { (retried c k).act (.notified k i) with pending := c.pending ++ [(k, i)] }) := by
  rw [dispatchNotification, exec_bind_ok (exec_get c)]
  cases hi : (c.session k).options.makeNotification with
  | none => exact .inl rfl
  | some i =>
      rw [exec_bind_ok (exec_ofOption_some i c)]
      right
      by_cases hr : (c.session k).options.exhaustRetries.1 = true
      · left
        refine ⟨i, rfl, ?_⟩
        simp only [hr, if_true]
        rfl
      · right
        refine ⟨i, rfl, ?_⟩
        simp only [hr]
        rfl

variable {c} {name : Name}

theorem exec_onFetch_matched (h : 0 < (c.session k).options.nonce2) :
    exec (onFetch k name) c = (.ok (), c.act (.fetched k name)) := by
  rw [onFetch, exec_bind_ok (exec_get c), exec_bind_ok (exec_set _ c)]
  simp only [h, if_true]
  rfl

theorem exec_onFetch_error (h : ¬0 < (c.session k).options.nonce2) {e : Error}
    (he : lastNumber name = .error e) :
    exec (onFetch k name) c = (.error (.ndn e), c.act (.fetched k name)) := by
  rw [onFetch, exec_bind_ok (exec_get c), exec_bind_ok (exec_set _ c)]
  simp only [h, if_false, he]
  rfl

/-- A session after it has answered a fetch. -/
def answered (c : Client) (k : ℕ) (name : Name) (n : UInt64) : Client :=
  ((c.act (.fetched k name)).setOptions k ((c.session k).options.setNonce2 n)).act
    (.submitted k (((c.session k).options.setNonce2 n).makeSubmission (c.session k).data))

theorem exec_onFetch_answers (h : ¬0 < (c.session k).options.nonce2) {n : UInt64}
    (hn : lastNumber name = .ok n) :
    exec (onFetch k name) c = (.ok (), answered c k name n) := by
  rw [onFetch, exec_bind_ok (exec_get c), exec_bind_ok (exec_set _ c)]
  simp only [h, if_false, hn]
  rfl

end

/-! ## What an event can do -/

section
variable (c : Client)

/-- A new session with its filter. -/
def opened (topic : Name) (data : List Data) (nonce : UInt64) : Client :=
  let options : ClientOptions :=
    { topic := topic, appenderPrefix := c.appenderPrefix, nonce := nonce }
  { c with
    sessions := c.sessions ++ [Session.mk options data]
    filters := c.filters ++ [(c.sessions.length, options.makeInterestFilter)]
    handle := c.handle ++ [c.sessions.length] }

theorem perform_append_accepted {topic : Name} {data : List Data}
    (h : ¬(topic = [] ∨ (data.map (·.name)).headD [] = [])) (nonce : UInt64) :
    perform c (.append topic data nonce) =
      (exec (dispatchNotification c.sessions.length) (opened c topic data nonce)).2 := by
  have ha : exec (appendData topic data nonce) c = exec (do
      dispatchNotification c.sessions.length
      return nonce) (opened c topic data nonce) := by
    rw [appendData, if_neg h]
    rfl
  rw [perform, Event.handle, exec_bind, ha, exec_bind]
  rcases exec (dispatchNotification c.sessions.length) (opened c topic data nonce) with ⟨_ | _, t⟩
  · rfl
  · rfl

theorem perform_append (topic : Name) (data : List Data) (nonce : UInt64) :
    perform c (.append topic data nonce) = c ∨
      perform c (.append topic data nonce) =
        (exec (dispatchNotification c.sessions.length) (opened c topic data nonce)).2 := by
  by_cases h : topic = [] ∨ (data.map (·.name)).headD [] = []
  · left
    have ha : exec (appendData topic data nonce) c = (.ok InvalidNonce, c) := by
      rw [appendData, if_pos h]
      rfl
    rw [perform, Event.handle, exec_bind_ok ha]
    rfl
  · exact .inr (perform_append_accepted c h nonce)

/-- The filters an Interest reaches. -/
def matching (name : Name) : List (ℕ × Name) := c.filters.filter fun f => f.2.isPrefixOf name

theorem perform_interest (name : Name) :
    perform c (.interest name) =
      (exec ((matching c name).foldlM (fun _ f => onFetch f.1 name) ()) c).2 := rfl

/-- The notifications that Data answers. -/
def acknowledged (p : Packet) : List (ℕ × Interest) :=
  c.pending.filter fun f => f.2.matchesName p.name

/-- All of `l` have got the acknowledgement. -/
def ackAll (l : List (ℕ × Interest)) (p : Packet) : Client :=
  { c with
    filters := if l = [] then c.filters else c.unregisterFilters.filters
    validating := c.validating ++ l.map fun f => (f.1, p)
    trace := c.trace ++ l.map fun f => .acked f.1 p }

theorem exec_onAcks (l : List (ℕ × Interest)) (p : Packet) :
    exec (l.foldlM (fun _ f => onAck f.1 p) ()) c = (.ok (), ackAll c l p) := by
  induction l generalizing c with
  | nil => simp [ackAll]
  | cons f l ih =>
      have hfirst : exec (onAck f.1 p) c = (.ok (), { (c.act (.acked f.1 p)).unregisterFilters with
          validating := c.validating ++ [(f.1, p)] }) := rfl
      rw [List.foldlM_cons, exec_bind_ok hfirst, ih]
      change (Except.ok (), ({ c with
        filters := if l = [] then c.unregisterFilters.filters
          else c.unregisterFilters.unregisterFilters.filters
        validating := c.validating ++ [(f.1, p)] ++ l.map fun f => (f.1, p)
        trace := c.trace ++ [.acked f.1 p] ++ l.map fun f => .acked f.1 p } : Client)) = _
      rw [c.unregisterFilters_unregisterFilters, ite_self, List.append_assoc, List.append_assoc]
      rfl

theorem perform_received (p : Packet) :
    perform c (.received p) =
      ackAll { c with pending := c.pending.filter fun f => !f.2.matchesName p.name }
        (acknowledged c p) p := by
  rw [perform, Event.handle, exec_bind_ok (exec_get c), exec_bind_ok (exec_set _ c), exec_onAcks]
  rfl

theorem perform_valid (k : ℕ) :
    (c.validating.lookup k = none ∧ perform c (.valid k) = c) ∨
    ∃ ack, c.validating.lookup k = some ack ∧
      let c' := { c with validating := c.validating.eraseP (·.1 == k) }
      ((∃ e, praseAck ack = .error e ∧ perform c (.valid k) = c') ∨
      ∃ statusList, praseAck ack = .ok statusList ∧
        perform c (.valid k) = c'.act (.success k (c.session k).data ack)) := by
  rw [perform, Event.handle, exec_bind_ok (exec_get c)]
  cases h : c.validating.lookup k with
  | none => exact .inl ⟨rfl, rfl⟩
  | some ack =>
      right
      refine ⟨ack, rfl, ?_⟩
      dsimp only
      rw [exec_bind_ok (exec_set _ c), onValidationSuccess]
      cases hs : praseAck ack with
      | error e => exact .inl ⟨e, rfl, rfl⟩
      | ok statusList => exact .inr ⟨statusList, rfl, rfl⟩

theorem perform_invalid (k : ℕ) (info : String) :
    (c.validating.lookup k = none ∧ perform c (.invalid k info) = c) ∨
    ∃ ack, c.validating.lookup k = some ack ∧ perform c (.invalid k info) =
      { c with validating := c.validating.eraseP (·.1 == k) }.act
        (.failure k (c.session k).data (.validation info)) := by
  rw [perform, Event.handle, exec_bind_ok (exec_get c)]
  cases h : c.validating.lookup k with
  | none => exact .inl ⟨rfl, rfl⟩
  | some ack => exact .inr ⟨ack, rfl, rfl⟩

theorem perform_nack (k : ℕ) :
    (c.pending.lookup k = none ∧ perform c (.nack k) = c) ∨
    ∃ i, c.pending.lookup k = some i ∧ perform c (.nack k) =
      { c with pending := c.pending.eraseP (·.1 == k) }.act
        (.failure k (c.session k).data (.nack i.name)) := by
  rw [perform, Event.handle, exec_bind_ok (exec_get c)]
  cases h : c.pending.lookup k with
  | none => exact .inl ⟨rfl, rfl⟩
  | some i => exact .inr ⟨i, rfl, rfl⟩

theorem perform_timeout (k : ℕ) :
    (c.pending.lookup k = none ∧ perform c (.timeout k) = c) ∨
    ∃ i, c.pending.lookup k = some i ∧ perform c (.timeout k) =
      (exec (dispatchNotification k) { c with pending := c.pending.eraseP (·.1 == k) }).2 := by
  rw [perform, Event.handle, exec_bind_ok (exec_get c)]
  cases h : c.pending.lookup k with
  | none => exact .inl ⟨rfl, rfl⟩
  | some i => exact .inr ⟨i, rfl, rfl⟩

end

end CertLedger.AppendClient
