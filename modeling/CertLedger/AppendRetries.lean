import CertLedger.AppendClientRuns
import CertLedger.AppendLedgerRuns

/-!
# Retries of the append protocol

One session of a client, one ledger, and a network that delivers packets in any
order and loses some. A fetch that is sent again draws another second nonce, and
the client answers no second nonce once it is matched.
-/
namespace CertLedger.AppendRetries
open TlvCodec FallibleState NdnObjects NdnPackets AppendOptions EventRuns
open AppendClient (Client dispatch_cases)
open AppendLedger (Ledger)
open AppendClientRuns AppendLedgerRuns

/-- A packet on its way. -/
inductive Message where
  | notification (notification : Interest)
  | fetch (fetcher : Interest)
  | submission (submission : Packet)
  | ack (ack : Packet)
  deriving DecidableEq

/-- Options that give the same names, up to the second nonce. -/
structure Alike (o client : ClientOptions) : Prop where
  topic : client.topic = o.topic
  appenderPrefix : client.appenderPrefix = o.appenderPrefix
  nonce : client.nonce = o.nonce
  fwHint : client.fwHint = o.fwHint

theorem Alike.steady (o : ClientOptions) : Steady (Alike o) :=
  fun _ _ _ h => ⟨h.topic, h.appenderPrefix, h.nonce, h.fwHint⟩

theorem Alike.makeInterestFilter {o client : ClientOptions} (h : Alike o client) :
    client.makeInterestFilter = o.makeInterestFilter := by
  simp only [ClientOptions.makeInterestFilter, h.topic, h.appenderPrefix, h.nonce]

theorem Alike.fetcherName {o client : ClientOptions} (h : Alike o client) (random : UInt64) :
    fetcherName o.topic (client.setNonce2 random) = o.makeInterestFilter ++ [fromNumber random] := by
  rw [← h.makeInterestFilter, ← h.topic]
  rfl

theorem isParametersDigest_fromNumber (n : UInt64) : isParametersDigest (fromNumber n) = false := rfl

section
variable [NdnCxx] {σ : Type}

def ofClient : AppendClient.Action → Option Message
  | .notified _ notification => some (.notification notification)
  | .submitted _ submission => some (.submission submission)
  | _ => none

def ofLedger : AppendLedger.Action → Option Message
  | .fetch _ fetcher => some (.fetch fetcher)
  | .ack _ ack => some (.ack ack)

structure System (σ : Type) where
  client : Client
  ledger : Ledger σ
  flight : List Message := []

/-- Verdicts, nacks and timeouts of the ledger. -/
def IsLocal : AppendLedger.Event → Prop
  | .valid _ => True
  | .invalid _ => True
  | .nack _ => True
  | .timeout _ _ => True
  | _ => False

inductive Event where
  /-- a packet arrives; the ledger draws the numbers where it is a notification -/
  | deliver (k : ℕ) (random₁ random₂ : UInt64)
  | lose (k : ℕ)
  | client (event : AppendClient.Event) (h : event.IsMinor)
  | ledger (event : AppendLedger.Event) (h : IsLocal event)

variable (onUpdate : Data → Program PacketError σ StatusCode)

namespace System

/-- The client takes a step, and what it sends is on its way. -/
def onClient (s : System σ) (event : AppendClient.Event) : System σ :=
  let client := AppendClient.perform s.client event
  { s with
    client := client
    flight := s.flight ++ (client.trace.drop s.client.trace.length).filterMap ofClient }

def onLedger (s : System σ) (event : AppendLedger.Event) : System σ :=
  let ledger := AppendLedger.perform onUpdate s.ledger event
  { s with
    ledger := ledger
    flight := s.flight ++ (ledger.trace.drop s.ledger.trace.length).filterMap ofLedger }

def receive (s : System σ) (random₁ random₂ : UInt64) : Message → System σ
  | .notification i => s.onLedger onUpdate (.notification i random₁ random₂)
  | .fetch fetcher => s.onClient (.interest fetcher.name)
  | .submission submission => s.onLedger onUpdate (.data submission)
  | .ack ack => s.onClient (.received ack)

def perform (s : System σ) : Event → System σ
  | .deliver k random₁ random₂ =>
      match s.flight[k]? with
      | some m => { s with flight := s.flight.eraseIdx k }.receive onUpdate random₁ random₂ m
      | none => s
  | .lose k => { s with flight := s.flight.eraseIdx k }
  | .client event _ => s.onClient event
  | .ledger event _ => s.onLedger onUpdate event

end System

/-- A session that `appendData` accepts, and the ledger of its topic. -/
structure Setup (σ : Type) where
  topic : Name
  appenderPrefix : Name
  data : List Data
  nonce : UInt64
  world : σ
  accepted : ¬(topic = [] ∨ (data.map (·.name)).headD [] = [])

namespace Setup
variable (u : Setup σ)

def options : ClientOptions :=
  { topic := u.topic, appenderPrefix := u.appenderPrefix, nonce := u.nonce }

/-- The session has begun. -/
def begun : System σ :=
  let s : System σ := {
    client := AppendClient.start u.appenderPrefix
    ledger := { topic := u.topic, world := u.world } }
  s.onClient (.append u.topic u.data u.nonce)

def after (events : List Event) : System σ := events.foldl (System.perform onUpdate) u.begun

end Setup

/-- The client puts the submission under the name of a fetch that arrives. -/
def Answered (data : List Data) (s : System σ) (k : ℕ) (fetcher : Interest) : Prop :=
  ∀ random₁ random₂, ∃ new, (s.perform onUpdate (.deliver k random₁ random₂)).client.trace =
    s.client.trace ++ new ∧
    .submitted 0 (.ofElements fetcher.name (data.map (·.wire))) ∈ new

/-! ## What stays true -/

theorem Alike.makeNotification {o client : ClientOptions} (h : Alike o client) :
    client.makeNotification = o.makeNotification :=
  makeNotification_congr h.topic h.appenderPrefix h.nonce h.fwHint

theorem Alike.praseNotification {o : ClientOptions} {notification : Interest}
    (h : o.makeNotification = some notification) {client : ClientOptions}
    (hc : praseNotification o.topic notification = .ok client) : Alike o client := by
  rw [praseNotification_makeNotification h] at hc
  cases hc
  exact ⟨rfl, rfl, rfl, rfl⟩

/-- A client with one session, which is there or has been acknowledged. -/
structure Single (o : ClientOptions) (data : List Data) (c : Client) : Prop where
  sound : Sound c
  length : c.sessions.length = 1
  alike : Alike o (c.session 0).options
  data : (c.session 0).data = data
  notified : ∀ k i, .notified k i ∈ c.trace → o.makeNotification = some i
  filters : (c.filters = [(0, o.makeInterestFilter)] ∧ ¬Acked c 0) ∨ (c.filters = [] ∧ Acked c 0)

theorem acked_append {c c' : Client} {new : List AppendClient.Action} (h : c'.trace = c.trace ++ new)
    {j : ℕ} (hn : ∀ ack, .acked j ack ∉ new) : Acked c' j ↔ Acked c j := by
  simp only [Acked, h, List.mem_append, hn, or_false]

namespace Single
variable {o : ClientOptions} {data : List Data} {c : Client}

theorem filter_first (h : Single o data c) {f : ℕ × Name} (hf : f ∈ c.filters) :
    f = (0, o.makeInterestFilter) := by
  rcases h.filters with ⟨he, -⟩ | ⟨he, -⟩
  · rw [he] at hf
    exact List.mem_singleton.mp hf
  · rw [he] at hf
    exact absurd hf List.not_mem_nil

/-- What keeps the filters and calls no session acknowledged. -/
theorem extend (h : Single o data c) {c' : Client} (hs : Sound c') (hstays : Stays c c')
    (halike : Alike o (c'.session 0).options) (hdata : (c'.session 0).data = data)
    {new : List AppendClient.Action} (htrace : c'.trace = c.trace ++ new)
    (hacked : ∀ ack, .acked 0 ack ∉ new)
    (hnotified : ∀ k i, .notified k i ∈ new → o.makeNotification = some i) : Single o data c' where
  sound := hs
  length := hstays.length.trans h.length
  alike := halike
  data := hdata
  notified k i hk := by
    rw [htrace] at hk
    rcases List.mem_append.mp hk with hk | hk
    · exact h.notified k i hk
    · exact hnotified k i hk
  filters := by
    rw [hstays.filters, acked_append htrace hacked]
    exact h.filters

theorem onFetch (h : Single o data c) (name : Name) :
    Single o data (exec (AppendClient.onFetch 0 name) c).2 := by
  have hk : 0 < c.sessions.length := by
    rw [h.length]
    exact Nat.one_pos
  have hs := (h.sound.onFetch hk name).1
  have hstays := stays_onFetch c 0 name
  rcases onFetch_cases c 0 name with he | ⟨n, -, he⟩
  · rw [he] at hs hstays ⊢
    have htrace : (c.act (.fetched 0 name)).trace = c.trace ++ [.fetched 0 name] := rfl
    exact h.extend hs hstays h.alike h.data htrace (by simp) (by simp)
  · rw [he] at hs hstays ⊢
    have hsession := (c.act (.fetched 0 name)).session_setOptions_self hk
      ((c.session 0).options.setNonce2 n)
    have hself : (AppendClient.answered c 0 name n).session 0 =
        ⟨(c.session 0).options.setNonce2 n, (c.session 0).data⟩ := hsession
    apply h.extend hs hstays ?_ ?_ (trace_answered c 0 name n) (by simp) (by simp)
    · rw [hself]
      exact ⟨h.alike.topic, h.alike.appenderPrefix, h.alike.nonce, h.alike.fwHint⟩
    · rw [hself]
      exact h.data

theorem interest (h : Single o data c) (name : Name) :
    Single o data (AppendClient.perform c (.interest name)) := by
  rw [AppendClient.perform_interest]
  apply fetches_invariant (I := Single o data)
  · intro f hf d hd
    rw [h.filter_first (List.mem_of_mem_filter hf)]
    exact hd.onFetch name
  · exact h

theorem received (h : Single o data c) (p : Packet) :
    Single o data (AppendClient.perform c (.received p)) := by
  have hs := h.sound.perform (.received p)
  rw [AppendClient.perform_received] at hs ⊢
  refine ⟨hs, h.length, h.alike, h.data, ?_, ?_⟩
  · intro k i hk
    rcases List.mem_append.mp hk with hk | hk
    · exact h.notified k i hk
    · obtain ⟨f, -, hf⟩ := List.mem_map.mp hk
      cases hf
  · by_cases hnil : AppendClient.acknowledged c p = []
    · rw [hnil]
      have hacked : Acked (AppendClient.ackAll { c with
          pending := c.pending.filter fun f => !f.2.matchesName p.name } [] p) 0 ↔ Acked c 0 := by
        simp [Acked, AppendClient.ackAll]
      rw [hacked]
      exact h.filters
    · right
      constructor
      · simp only [AppendClient.ackAll, if_neg hnil, Client.unregisterFilters]
        apply List.filter_eq_nil_iff.mpr
        intro f hf
        simpa using h.sound.handle f hf
      · obtain ⟨f, hf⟩ := List.exists_mem_of_ne_nil _ hnil
        have hlt := h.sound.pending f (List.mem_of_mem_filter hf)
        rw [h.length] at hlt
        have hzero : f.1 = 0 := by omega
        refine ⟨p, List.mem_append_right _ (List.mem_map.mpr ⟨f, hf, ?_⟩)⟩
        rw [hzero]

theorem notified_dispatch (c : Client) {k j : ℕ} {i : Interest}
    (h : .notified j i ∈ (exec (AppendClient.dispatchNotification k) c).2.trace) :
    .notified j i ∈ c.trace ∨ (c.session k).options.makeNotification = some i := by
  rcases dispatch_cases c k with he | ⟨i', -, he⟩ | ⟨i', hi', he⟩
  · rw [he] at h
    exact .inl h
  · rw [he] at h
    rcases List.mem_append.mp h with h | h
    · exact .inl h
    · simp at h
  · rw [he] at h
    rcases List.mem_append.mp h with h | h
    · exact .inl h
    · rw [List.mem_singleton, AppendClient.Action.notified.injEq] at h
      rw [h.2]
      exact .inr hi'

theorem notified_minor (h : Single o data c) (event : AppendClient.Event) (he : event.IsMinor)
    {j : ℕ} {i : Interest} (hn : .notified j i ∈ (AppendClient.perform c event).trace) :
    o.makeNotification = some i := by
  cases event with
  | valid k =>
      rcases AppendClient.perform_valid c k with ⟨-, hp⟩ | ⟨ack, hl, ⟨e, -, hp⟩ | ⟨_, -, hp⟩⟩
      · rw [hp] at hn
        exact h.notified j i hn
      · rw [hp] at hn
        exact h.notified j i hn
      · rw [hp] at hn
        exact h.notified j i (by simpa [Client.act] using hn)
  | invalid k info =>
      rcases AppendClient.perform_invalid c k info with ⟨-, hp⟩ | ⟨ack, hl, hp⟩
      · rw [hp] at hn
        exact h.notified j i hn
      · rw [hp] at hn
        exact h.notified j i (by simpa [Client.act] using hn)
  | nack k =>
      rcases AppendClient.perform_nack c k with ⟨-, hp⟩ | ⟨i, hl, hp⟩
      · rw [hp] at hn
        exact h.notified j _ hn
      · rw [hp] at hn
        exact h.notified j _ (by simpa [Client.act] using hn)
  | timeout k =>
      rcases AppendClient.perform_timeout c k with ⟨-, hp⟩ | ⟨i', hl, hp⟩
      · rw [hp] at hn
        exact h.notified j i hn
      · rw [hp] at hn
        rcases notified_dispatch _ hn with hn | hn
        · exact h.notified j i hn
        · have hlt := lookup_lt h.sound.pending hl
          rw [h.length] at hlt
          have hzero : k = 0 := by omega
          subst hzero
          exact h.alike.makeNotification ▸ hn
  | append => exact he.elim
  | interest => exact he.elim
  | received => exact he.elim

theorem minor (h : Single o data c) (event : AppendClient.Event) (he : event.IsMinor) :
    Single o data (AppendClient.perform c event) := by
  have hm := minor_perform h.sound event he
  obtain ⟨new, hnew, hall⟩ := hm.trace
  obtain ⟨r, hr⟩ := hm.session 0
  apply h.extend (h.sound.perform event) hm.stays ?_ ?_ hnew
  · exact fun ack hack => (hall _ hack).2
  · intro k i hk
    exact h.notified_minor event he (hnew ▸ List.mem_append_right _ hk)
  · rw [hr]
    exact ⟨h.alike.topic, h.alike.appenderPrefix, h.alike.nonce, h.alike.fwHint⟩
  · rw [hr]
    exact h.data

theorem dispatch (h : Single o data c) :
    Single o data (exec (AppendClient.dispatchNotification 0) c).2 := by
  have hk : 0 < c.sessions.length := by
    rw [h.length]
    exact Nat.one_pos
  have hm := minor_dispatch c hk
  obtain ⟨new, hnew, hall⟩ := hm.trace
  obtain ⟨r, hr⟩ := hm.session 0
  apply h.extend (h.sound.minor hm) hm.stays ?_ ?_ hnew
  · exact fun ack hack => (hall _ hack).2
  · intro k i hk
    rcases notified_dispatch c (hnew ▸ List.mem_append_right _ hk) with hn | hn
    · exact h.notified k i hn
    · exact h.alike.makeNotification ▸ hn
  · rw [hr]
    exact ⟨h.alike.topic, h.alike.appenderPrefix, h.alike.nonce, h.alike.fwHint⟩
  · rw [hr]
    exact h.data

end Single

theorem Setup.single_begun (u : Setup σ) : Single u.options u.data u.begun.client := by
  have hself := session_opened_self (AppendClient.start u.appenderPrefix) u.topic u.data u.nonce
  have hopened : Single u.options u.data
      (AppendClient.opened (AppendClient.start u.appenderPrefix) u.topic u.data u.nonce) := by
    refine ⟨(sound_start u.appenderPrefix).opened u.topic u.data u.nonce, rfl, ?_, rfl, ?_, ?_⟩
    · exact ⟨rfl, rfl, rfl, rfl⟩
    · intro k i hk
      exact absurd hk List.not_mem_nil
    · exact .inl ⟨rfl, fun ⟨ack, hack⟩ => absurd hack List.not_mem_nil⟩
  change Single _ _ (AppendClient.perform (AppendClient.start u.appenderPrefix)
    (.append u.topic u.data u.nonce))
  rw [AppendClient.perform_append_accepted _ u.accepted]
  exact hopened.dispatch

/-- Packets that the session has made or asked for. -/
def Expected (o : ClientOptions) : Message → Prop
  | .notification i => o.makeNotification = some i
  | .fetch fetcher => ∃ n, fetcher.name = o.makeInterestFilter ++ [fromNumber n]
  | _ => True

section
variable (u : Setup σ) {onUpdate}

variable (onUpdate) in
structure Linked (s : System σ) : Prop where
  client : Single u.options u.data s.client
  ledger : Regular (Alike u.options) onUpdate u.topic s.ledger
  flight : ∀ m ∈ s.flight, Expected u.options m

variable {u} {s : System σ}

theorem expected_of_client {o : ClientOptions} {data : List Data} {c : Client} (h : Single o data c)
    (k : ℕ) : ∀ m ∈ (c.trace.drop k).filterMap ofClient, Expected o m := by
  intro m hm
  obtain ⟨a, ha, hma⟩ := List.mem_filterMap.mp hm
  have hin := List.mem_of_mem_drop ha
  cases a with
  | notified j i =>
      obtain rfl := Option.some.inj hma
      exact h.notified j i hin
  | submitted j submission =>
      obtain rfl := Option.some.inj hma
      trivial
  | _ => simp [ofClient] at hma

theorem expected_of_ledger {o : ClientOptions} {l : Ledger σ}
    (h : Regular (Alike o) onUpdate o.topic l) (k : ℕ) :
    ∀ m ∈ (l.trace.drop k).filterMap ofLedger, Expected o m := by
  intro m hm
  obtain ⟨a, ha, hma⟩ := List.mem_filterMap.mp hm
  have hbuilt := h.trace a (List.mem_of_mem_drop ha)
  cases a with
  | fetch chain fetcher =>
      obtain rfl := Option.some.inj hma
      obtain ⟨client, random, halike, hf⟩ := hbuilt
      exact ⟨random, (name_makeFetcher hf).trans (halike.fetcherName random)⟩
  | ack chain ack =>
      obtain rfl := Option.some.inj hma
      trivial

theorem Linked.onClient (h : Linked onUpdate u s) (event : AppendClient.Event)
    (hc : Single u.options u.data (AppendClient.perform s.client event)) :
    Linked onUpdate u (s.onClient event) where
  client := hc
  ledger := h.ledger
  flight m hm := by
    rcases List.mem_append.mp hm with hm | hm
    · exact h.flight m hm
    · exact expected_of_client hc _ m hm

theorem Linked.onLedger (h : Linked onUpdate u s) (event : AppendLedger.Event)
    (he : FromClients (Alike u.options) u.topic event) :
    Linked onUpdate u (s.onLedger onUpdate event) := by
  have hl := h.ledger.perform (Alike.steady u.options) event he
  refine ⟨h.client, hl, ?_⟩
  intro m hm
  rcases List.mem_append.mp hm with hm | hm
  · exact h.flight m hm
  · exact expected_of_ledger hl _ m hm

theorem Linked.drop (h : Linked onUpdate u s) (k : ℕ) :
    Linked onUpdate u { s with flight := s.flight.eraseIdx k } :=
  ⟨h.client, h.ledger, fun m hm => h.flight m (List.mem_of_mem_eraseIdx hm)⟩

theorem Linked.perform (h : Linked onUpdate u s) (event : Event) :
    Linked onUpdate u (s.perform onUpdate event) := by
  cases event with
  | deliver k random₁ random₂ =>
      simp only [System.perform]
      cases hm : s.flight[k]? with
      | none => exact h
      | some m =>
          have hexpected := h.flight m (List.mem_of_getElem? hm)
          cases m with
          | notification i =>
              exact (h.drop k).onLedger _ fun client hc => Alike.praseNotification hexpected hc
          | fetch fetcher => exact (h.drop k).onClient _ (h.client.interest fetcher.name)
          | submission submission => exact (h.drop k).onLedger _ trivial
          | ack ack => exact (h.drop k).onClient _ (h.client.received ack)
  | lose k => exact h.drop k
  | client event he => exact h.onClient event (h.client.minor event he)
  | ledger event he =>
      apply h.onLedger event
      cases event with
      | notification => exact he.elim
      | _ => trivial

theorem linked_after (u : Setup σ) (events : List Event) :
    Linked onUpdate u (u.after onUpdate events) := by
  apply foldl_invariant (I := Linked onUpdate u)
  · exact fun s event h => h.perform event
  · have hbegun := u.single_begun
    have hledger : Regular (Alike u.options) onUpdate u.topic u.begun.ledger := regular_start u.world
    exact ⟨hbegun, hledger, expected_of_client hbegun 0⟩

/-! ## A fetch that is sent again -/

/-- After a timeout the ledger fetches again while it has retries. -/
theorem Linked.resends (h : Linked onUpdate u s) {chain : ℕ} {fetcher₀ : Interest}
    (hf : s.ledger.fetching.lookup chain = some fetcher₀)
    (hr : (s.ledger.client chain).retryCount ≤ MAX_RETRIES) (random : UInt64) :
    ∃ fetcher, (s.perform onUpdate (.ledger (.timeout chain random) trivial)).flight =
      s.flight ++ [.fetch fetcher] := by
  have hin := h.ledger.fetching _ (lookup_mem hf)
  have hclient := h.ledger.client hin.1
  obtain ⟨client, random₀, halike, hmade⟩ := h.ledger.trace _ hin.2
  have hvalid : (makeFetcher u.topic random (s.ledger.client chain)).1.isSome := by
    have hname : ∀ (o' : ClientOptions) (n : UInt64), Alike u.options o' →
        ((makeFetcher u.topic n o').1.isSome ↔
          u.options.makeInterestFilter.countP isParametersDigest ≤ 1) := by
      intro o' n ho
      have heq : fetcherName u.topic (o'.setNonce2 n) = _ := ho.fetcherName n
      simp [makeFetcher, heq, Interest.ofName, List.countP_append, isParametersDigest_fromNumber]
    have hsome : (makeFetcher u.topic random₀ client).1.isSome := by
      rw [hmade]
      rfl
    exact (hname _ _ hclient).mpr ((hname _ _ halike).mp hsome)
  obtain ⟨fetcher, hfetcher⟩ := Option.isSome_iff_exists.mp hvalid
  refine ⟨fetcher, ?_⟩
  let l : Ledger σ := { s.ledger with fetching := s.ledger.fetching.eraseP (·.1 == chain) }
  have hmake : (makeFetcher l.topic random (l.client chain)).1 = some fetcher :=
    h.ledger.topic_eq ▸ hfetcher
  have hperform : AppendLedger.perform onUpdate s.ledger (.timeout chain random) =
      fetched l chain random fetcher := by
    have hretry : ¬MAX_RETRIES < (l.client chain).retryCount := Nat.not_lt.mpr hr
    have hserve := exec_serveClient_some hmake
    rw [if_neg hretry] at hserve
    rw [AppendLedger.perform, AppendLedger.Event.handle, exec_bind_ok (exec_get _), hf]
    dsimp only
    rw [exec_bind_ok (exec_set _ _)]
    exact hserve
  have htrace : (fetched l chain random fetcher).trace = s.ledger.trace ++ [.fetch chain fetcher] := rfl
  simp only [System.perform, System.onLedger, hperform, htrace, List.drop_left]
  rfl

theorem Linked.answered_iff (h : Linked onUpdate u s) {k : ℕ} {fetcher : Interest}
    (hk : s.flight[k]? = some (.fetch fetcher)) :
    Answered onUpdate u.data s k fetcher ↔
      ¬Acked s.client 0 ∧ ∀ n ∈ fetchedNonces 0 s.client.trace, n = 0 := by
  have hstep : ∀ random₁ random₂, (s.perform onUpdate (.deliver k random₁ random₂)).client =
      AppendClient.perform s.client (.interest fetcher.name) := by
    intro random₁ random₂
    simp only [System.perform, hk]
    rfl
  obtain ⟨n, hn⟩ := h.flight _ (List.mem_of_getElem? hk)
  have hc := h.client
  simp only [Answered, hstep]
  rcases hc.filters with ⟨hfilters, hopen⟩ | ⟨hfilters, hacked⟩
  · have hmatching : AppendClient.matching s.client fetcher.name =
        [(0, u.options.makeInterestFilter)] := by
      have hpre : u.options.makeInterestFilter.isPrefixOf fetcher.name = true := by
        rw [hn, List.isPrefixOf_iff_prefix]
        exact List.prefix_append _ _
      simp [AppendClient.matching, hfilters, hpre]
    have hone : AppendClient.perform s.client (.interest fetcher.name) =
        (exec (AppendClient.onFetch 0 fetcher.name) s.client).2 := by
      rw [AppendClient.perform_interest, hmatching]
      simp
    rw [hone, ← hc.sound.nonce2 0]
    by_cases hz : 0 < (s.client.session 0).options.nonce2
    · have hne : (s.client.session 0).options.nonce2 ≠ 0 := UInt64.pos_iff_ne_zero.mp hz
      rw [AppendClient.exec_onFetch_matched 0 hz]
      refine iff_of_false ?_ fun hall => hne hall.2
      intro hall
      obtain ⟨new, hnew, hin⟩ := hall 0 0
      obtain rfl := List.append_cancel_left hnew
      simp at hin
    · have hzero : (s.client.session 0).options.nonce2 = 0 := by
        by_contra hne
        exact hz (UInt64.pos_iff_ne_zero.mpr hne)
      have hlast : lastNumber fetcher.name = .ok n := by
        rw [hn]
        exact lastNumber_append _ n
      have hname : ((s.client.session 0).options.setNonce2 n).submissionName = fetcher.name := by
        rw [hn, ← hc.alike.makeInterestFilter]
        rfl
      rw [AppendClient.exec_onFetch_answers 0 hz hlast]
      refine iff_of_true ?_ ⟨hopen, hzero⟩
      intro _ _
      refine ⟨_, trace_answered s.client 0 fetcher.name n, ?_⟩
      rw [ClientOptions.makeSubmission, hname, hc.data]
      simp
  · have hsame : AppendClient.perform s.client (.interest fetcher.name) = s.client := by
      rw [AppendClient.perform_interest, AppendClient.matching, hfilters]
      rfl
    rw [hsame]
    refine iff_of_false ?_ fun hall => hall.1 hacked
    intro hall
    obtain ⟨new, hnew, hin⟩ := hall 0 0
    rw [List.self_eq_append_right] at hnew
    rw [hnew] at hin
    exact absurd hin List.not_mem_nil

end

/-- A ledger with retries left fetches again after a timeout, and the fetch is
answered when it arrives if and only if no acknowledgement has reached the client
and all second nonces that have are zero. -/
theorem retry_answered_iff (u : Setup σ) (before : List Event) (chain : ℕ) (random : UInt64)
    (hf : ((u.after onUpdate before).ledger.fetching.lookup chain).isSome)
    (hr : ((u.after onUpdate before).ledger.client chain).retryCount ≤ MAX_RETRIES) :
    let retry : Event := .ledger (.timeout chain random) trivial
    ∃ fetcher, (u.after onUpdate (before ++ [retry])).flight =
        (u.after onUpdate before).flight ++ [.fetch fetcher] ∧
      ∀ between k, let s := u.after onUpdate (before ++ retry :: between)
        s.flight[k]? = some (.fetch fetcher) →
          (Answered onUpdate u.data s k fetcher ↔
            ¬Acked s.client 0 ∧ ∀ n ∈ fetchedNonces 0 s.client.trace, n = 0) := by
  intro retry
  obtain ⟨fetcher₀, hf₀⟩ := Option.isSome_iff_exists.mp hf
  obtain ⟨fetcher, hflight⟩ := (linked_after u before).resends hf₀ hr random
  refine ⟨fetcher, ?_, ?_⟩
  · rw [Setup.after, List.foldl_concat]
    exact hflight
  · intro between k s hk
    exact (linked_after u (before ++ retry :: between)).answered_iff hk

end

section
open PlainNdn

local instance : NdnCxx := plainNdn sessionDigests

def setup : Setup Unit where
  topic := nameT
  appenderPrefix := nameA
  data := [sessionData [1]]
  nonce := 7
  world := ()
  accepted := by decide

def stored (_ : Data) : Program PacketError Unit StatusCode := pure (code .SUCCESS)

/-- The notification arrives, and the ledger fetches. -/
def heard : List Event := [.deliver 0 1 2]

theorem retry_answered_lost_fetch :
    ∃ fetcher, let s := setup.after stored (heard ++ [.lose 0, .ledger (.timeout 0 3) trivial])
      s.flight = [.fetch fetcher] ∧ Answered stored setup.data s 0 fetcher := by
  obtain ⟨fetcher, hflight, hall⟩ := retry_answered_iff stored setup (heard ++ [.lose 0]) 0 3
    (by decide +kernel) (by decide +kernel)
  have hempty : (setup.after stored (heard ++ [.lose 0])).flight = [] := by decide +kernel
  rw [hempty, List.nil_append] at hflight
  refine ⟨fetcher, hflight, (hall [] 0 ?_).mpr ⟨?_, ?_⟩⟩
  · rw [hflight]
    rfl
  · have htrace : (setup.after stored (heard ++ [.lose 0, .ledger (.timeout 0 3) trivial])).client.trace
        = [.notified 0 (sessionNotification 7)] := rfl
    rintro ⟨ack, hack⟩
    exact absurd (htrace ▸ hack) (by simp)
  · have hnone : fetchedNonces 0 (setup.after stored
        (heard ++ [.lose 0, .ledger (.timeout 0 3) trivial])).client.trace = [] := by decide +kernel
    intro n hn
    exact absurd (hnone ▸ hn) List.not_mem_nil

/-- The first fetch is answered and the submission is lost. -/
theorem retry_refused :
    let s := setup.after stored (heard ++ [.deliver 0 0 0, .lose 0, .ledger (.timeout 0 3) trivial])
    ∃ fetcher, s.flight = [.fetch fetcher] ∧ ¬Acked s.client 0 ∧
      ¬Answered stored setup.data s 0 fetcher := by
  intro s
  let fetchName (n : UInt64) : Name := fetcherName nameT ((sessionOptions 7).setNonce2 n)
  have htrace : s.client.trace = [.notified 0 (sessionNotification 7), .fetched 0 (fetchName 2),
      .submitted 0 (((sessionOptions 7).setNonce2 2).makeSubmission setup.data)] := rfl
  have hnext : (s.perform stored (.deliver 0 0 0)).client.trace =
      s.client.trace ++ [.fetched 0 (fetchName 3)] := rfl
  refine ⟨{ name := fetchName 3 }, by decide +kernel, ?_, ?_⟩
  · rintro ⟨ack, hack⟩
    simp [htrace] at hack
  · intro hall
    obtain ⟨new, hnew, hin⟩ := hall 0 0
    rw [hnext] at hnew
    obtain rfl := List.append_cancel_left hnew
    simp at hin

end
end CertLedger.AppendRetries
