import CertLedger.AppendLedger
import CertLedger.EventRuns
import Mathlib.Tactic.Common

/-!
# The runs of an append ledger

What a ledger sends is built from what clients have told about themselves. An
acknowledgement holds the outcomes of the update callback, or a single failure.
-/
namespace CertLedger.AppendLedgerRuns
open TlvCodec FallibleState NdnObjects NdnPackets AppendOptions AppendLedger EventRuns

variable {σ : Type}

theorem lookup_mem {α : Type} {entries : List (ℕ × α)} {k : ℕ} {a : α}
    (h : entries.lookup k = some a) : (k, a) ∈ entries := by
  obtain ⟨l₁, l₂, rfl, -⟩ := List.lookup_eq_some_iff.mp h
  simp

namespace Ledger
variable (l : Ledger σ) (chain : ℕ)

theorem setChain_setChain (client client' : ClientOptions) :
    (l.setChain chain client).setChain chain client' = l.setChain chain client' := by
  simp [AppendLedger.Ledger.setChain]

end Ledger

variable [NdnCxx]

/-! ## What the handlers do -/

section
variable (l : Ledger σ) (chain : ℕ)

theorem putAck_cases (statusList : List StatusCode) :
    (exec (putAck chain statusList) l).2 = l ∨
    ∃ ack, makeNotificationAck (l.client chain) statusList = some ack ∧
      (exec (putAck chain statusList) l).2 = l.act (.ack chain ack) := by
  cases h : makeNotificationAck (l.client chain) statusList with
  | none =>
      left
      rw [putAck, exec_bind_ok (exec_get l), h]
      rfl
  | some ack =>
      right
      refine ⟨ack, rfl, ?_⟩
      rw [exec_putAck h]

/-- The ledger once a turn of a chain has been counted. -/
def turned (random : UInt64) : Ledger σ :=
  l.setChain chain ((l.client chain).setNonce2 random).exhaustRetries.2

/-- The fetch of a turn is on its way. -/
def fetched (random : UInt64) (fetcher : Interest) : Ledger σ :=
  { (turned l chain random).act (.fetch chain fetcher) with
    fetching := l.fetching ++ [(chain, fetcher)] }

variable {l chain} {random : UInt64}

theorem exec_serveClient_none (h : (makeFetcher l.topic random (l.client chain)).1 = none) :
    (exec (serveClient chain random) l).2 = l.setChain chain ((l.client chain).setNonce2 random) := by
  rw [serveClient, exec_bind_ok (exec_get l)]
  dsimp only
  rw [exec_bind_ok (exec_set _ l), h]
  rfl

theorem exec_serveClient_some {fetcher : Interest}
    (h : (makeFetcher l.topic random (l.client chain)).1 = some fetcher) :
    (exec (serveClient chain random) l).2 =
      if MAX_RETRIES < (l.client chain).retryCount then
        (exec (putAck chain [code .FAILURE_TIMEOUT]) (turned l chain random)).2
      else fetched l chain random fetcher := by
  rw [serveClient, exec_bind_ok (exec_get l)]
  dsimp only
  rw [exec_bind_ok (exec_set _ l), h, exec_bind_ok (exec_ofOption_some fetcher _)]
  rw [exec_bind_ok (exec_modify _ _), Ledger.setChain_setChain]
  by_cases hr : MAX_RETRIES < (l.client chain).retryCount
  · have hr' : ((makeFetcher l.topic random (l.client chain)).2.exhaustRetries.1) = true :=
      decide_eq_true hr
    rw [if_pos hr', if_pos hr]
    rfl
  · have hr' : ¬((makeFetcher l.topic random (l.client chain)).2.exhaustRetries.1) = true :=
      fun hd => hr (of_decide_eq_true hd)
    rw [if_neg hr', if_neg hr]
    rfl

end

/-! ## What a ledger sends -/

section
variable (C : ClientOptions → Prop) (onUpdate : Data → Program PacketError σ StatusCode)
  (topic : Name)

/-- The statuses that end a chain: the outcomes for a submission, or one failure. -/
def Concluded (statusList : List StatusCode) : Prop :=
  (∃ p world world', exec (readSubmissions onUpdate p) world = (.ok statusList, world')) ∨
  statusList = [code .FAILURE_NACK] ∨ statusList = [code .FAILURE_TIMEOUT] ∨
  statusList = [code .FAILURE_VALIDATION_PROTO]

/-- Built from options with `C`. -/
def Built : Action → Prop
  | .fetch _ fetcher => ∃ client random, C client ∧
      (makeFetcher topic random client).1 = some fetcher
  | .ack _ ack => ∃ client statusList, C client ∧ Concluded onUpdate statusList ∧
      makeNotificationAck client statusList = some ack

/-- What counting turns and drawing nonces does not change. -/
def Steady : Prop := ∀ client nonce2 retryCount, C client →
  C { client with nonce2 := nonce2, retryCount := retryCount }

/-- All chains serve clients with `C`. -/
structure Regular (l : Ledger σ) : Prop where
  topic_eq : l.topic = topic
  chains : ∀ client ∈ l.chains, C client
  fetching : ∀ f ∈ l.fetching, f.1 < l.chains.length ∧ Action.fetch f.1 f.2 ∈ l.trace
  validating : ∀ f ∈ l.validating, f.1 < l.chains.length
  trace : ∀ a ∈ l.trace, Built C onUpdate topic a

variable {C onUpdate topic} {l : Ledger σ}

theorem regular_start (world : σ) :
    Regular C onUpdate topic { topic := topic, world := world } := by
  constructor <;> simp

theorem Regular.client (h : Regular C onUpdate topic l) {chain : ℕ} (hk : chain < l.chains.length) :
    C (l.client chain) := by
  have hget : l.client chain = l.chains[chain] := by
    simp [AppendLedger.Ledger.client, List.getD_eq_getElem?_getD, hk]
  rw [hget]
  exact h.chains _ (List.getElem_mem hk)

theorem Regular.act (h : Regular C onUpdate topic l) {a : Action} (ha : Built C onUpdate topic a) :
    Regular C onUpdate topic (l.act a) where
  topic_eq := h.topic_eq
  chains := h.chains
  fetching f hf := ⟨(h.fetching f hf).1, List.mem_append_left _ (h.fetching f hf).2⟩
  validating := h.validating
  trace a' ha' := by
    rcases List.mem_append.mp ha' with ha' | ha'
    · exact h.trace a' ha'
    · rw [List.mem_singleton.mp ha']
      exact ha

theorem Regular.setChain (h : Regular C onUpdate topic l) (chain : ℕ) {client : ClientOptions}
    (hc : C client) : Regular C onUpdate topic (l.setChain chain client) where
  topic_eq := h.topic_eq
  chains c hmem := by
    rcases List.mem_or_eq_of_mem_set hmem with hmem | rfl
    · exact h.chains c hmem
    · exact hc
  fetching f hf := by
    rw [AppendLedger.Ledger.setChain, List.length_set]
    exact h.fetching f hf
  validating f hf := by
    rw [AppendLedger.Ledger.setChain, List.length_set]
    exact h.validating f hf
  trace := h.trace

theorem Regular.putAck (h : Regular C onUpdate topic l) {chain : ℕ} (hk : chain < l.chains.length)
    {statusList : List StatusCode} (hs : Concluded onUpdate statusList) :
    Regular C onUpdate topic (exec (putAck chain statusList) l).2 := by
  rcases putAck_cases l chain statusList with he | ⟨ack, hack, he⟩
  · rw [he]
    exact h
  · rw [he]
    exact h.act ⟨_, _, h.client hk, hs, hack⟩

theorem Regular.serveClient (hC : Steady C) (h : Regular C onUpdate topic l) {chain : ℕ}
    (hk : chain < l.chains.length) (random : UInt64) :
    Regular C onUpdate topic (exec (serveClient chain random) l).2 := by
  have hclient := h.client hk
  cases hf : (makeFetcher l.topic random (l.client chain)).1 with
  | none =>
      rw [exec_serveClient_none hf]
      exact h.setChain chain (hC _ random (l.client chain).retryCount hclient)
  | some fetcher =>
      have hturned : Regular C onUpdate topic (turned l chain random) :=
        h.setChain chain (hC (l.client chain) random ((l.client chain).retryCount + 1) hclient)
      have hk' : chain < (turned l chain random).chains.length := by
        simpa [turned, AppendLedger.Ledger.setChain] using hk
      rw [exec_serveClient_some hf]
      split_ifs
      · exact hturned.putAck hk' (.inr (.inr (.inl rfl)))
      · have hbuilt : Built C onUpdate topic (.fetch chain fetcher) :=
          ⟨_, random, hclient, h.topic_eq ▸ hf⟩
        have hact := hturned.act hbuilt
        refine ⟨hact.topic_eq, hact.chains, ?_, hact.validating, hact.trace⟩
        intro f hin
        rcases List.mem_append.mp hin with hin | hin
        · exact hact.fetching f hin
        · rw [List.mem_singleton.mp hin]
          exact ⟨hk', List.mem_append_right _ (List.mem_singleton_self _)⟩

theorem Regular.onNotification (hC : Steady C) (h : Regular C onUpdate topic l)
    {notification : Interest}
    (hn : ∀ client, praseNotification topic notification = .ok client → C client)
    (random₁ random₂ : UInt64) :
    Regular C onUpdate topic (exec (onNotification notification random₁ random₂) l).2 := by
  obtain rfl := h.topic_eq
  rw [AppendLedger.onNotification, exec_bind_ok (exec_get l)]
  cases hp : praseNotification l.topic notification with
  | error e => exact h
  | ok client =>
      rw [exec_bind_ok (exec_ofExcept_ok client l)]
      dsimp only
      cases hf : (makeFetcher l.topic random₁ client).1 with
      | none => exact h
      | some fetcher =>
          rw [exec_bind_ok (exec_ofOption_some fetcher l), exec_bind_ok (exec_set _ l)]
          have hopened : Regular C onUpdate l.topic
              { l with chains := l.chains ++ [(makeFetcher l.topic random₁ client).2] } := by
            refine ⟨rfl, ?_, ?_, ?_, h.trace⟩
            · intro c hmem
              rcases List.mem_append.mp hmem with hmem | hmem
              · exact h.chains c hmem
              · rw [List.mem_singleton.mp hmem]
                exact hC _ random₁ client.retryCount (hn client hp)
            · intro f hin
              rw [List.length_append]
              exact ⟨Nat.lt_add_right _ (h.fetching f hin).1, (h.fetching f hin).2⟩
            · intro f hin
              rw [List.length_append]
              exact Nat.lt_add_right _ (h.validating f hin)
          have hk : l.chains.length <
              (l.chains ++ [(makeFetcher l.topic random₁ client).2]).length := by simp
          exact hopened.serveClient hC hk random₂

/-- Waits that end. -/
theorem Regular.drop (h : Regular C onUpdate topic l) {fetching : List (ℕ × Interest)}
    {validating : List (ℕ × Packet)} (hf : fetching.Sublist l.fetching)
    (hv : validating.Sublist l.validating) :
    Regular C onUpdate topic { l with fetching := fetching, validating := validating } where
  topic_eq := h.topic_eq
  chains := h.chains
  fetching f hin := h.fetching f (hf.subset hin)
  validating f hin := h.validating f (hv.subset hin)
  trace := h.trace

/-- Notifications are from clients with `C`. -/
def FromClients (C : ClientOptions → Prop) (topic : Name) : Event → Prop
  | .notification i _ _ => ∀ client, praseNotification topic i = .ok client → C client
  | _ => True

theorem Regular.perform (hC : Steady C) (h : Regular C onUpdate topic l) (event : Event)
    (hn : FromClients C topic event) : Regular C onUpdate topic (perform onUpdate l event) := by
  cases event with
  | notification i random₁ random₂ =>
      rw [AppendLedger.perform, Event.handle, exec_bind_ok (exec_get l)]
      split_ifs
      · exact h.onNotification hC hn random₁ random₂
      · exact h
  | data p =>
      rw [AppendLedger.perform, Event.handle, exec_modify]
      refine ⟨h.topic_eq, h.chains, ?_, ?_, h.trace⟩
      · exact fun f hin => h.fetching f (List.mem_of_mem_filter hin)
      · intro f hin
        rcases List.mem_append.mp hin with hin | hin
        · exact h.validating f hin
        · obtain ⟨g, hg, rfl⟩ := List.mem_map.mp hin
          exact (h.fetching g (List.mem_of_mem_filter hg)).1
  | valid chain =>
      rw [AppendLedger.perform, Event.handle, exec_bind_ok (exec_get l)]
      cases hl : l.validating.lookup chain with
      | none => exact h
      | some p =>
          have hk : chain < l.chains.length := h.validating _ (lookup_mem hl)
          have hdrop := h.drop (List.Sublist.refl _)
            (List.eraseP_sublist (p := fun f => f.1 == chain))
          dsimp only
          rw [exec_bind_ok (exec_set _ l), onValidationSuccess, exec_bind]
          rcases hr : exec (readSubmissions onUpdate p) l.world with ⟨r, world⟩
          have hzoom : exec (AppendLedger.Ledger.onWorld (readSubmissions onUpdate p))
              { l with validating := l.validating.eraseP (·.1 == chain) } =
              (r, { l with validating := l.validating.eraseP (·.1 == chain), world := world }) :=
            congrArg (fun r => (r.1, ({ l with
              validating := l.validating.eraseP (·.1 == chain), world := r.2 } : Ledger σ))) hr
          rw [hzoom]
          have hworld : Regular C onUpdate topic { l with
              validating := l.validating.eraseP (·.1 == chain), world := world } :=
            ⟨hdrop.topic_eq, hdrop.chains, hdrop.fetching, hdrop.validating, hdrop.trace⟩
          cases r with
          | error e => exact hworld
          | ok statusList => exact hworld.putAck hk (.inl ⟨p, l.world, world, hr⟩)
  | invalid chain =>
      rw [AppendLedger.perform, Event.handle, exec_bind_ok (exec_get l)]
      cases hl : l.validating.lookup chain with
      | none => exact h
      | some p =>
          dsimp only
          rw [exec_bind_ok (exec_set _ l)]
          apply (h.drop (List.Sublist.refl _) List.eraseP_sublist).putAck
          · exact h.validating _ (lookup_mem hl)
          · exact .inr (.inr (.inr rfl))
  | nack chain =>
      rw [AppendLedger.perform, Event.handle, exec_bind_ok (exec_get l)]
      cases hl : l.fetching.lookup chain with
      | none => exact h
      | some fetcher =>
          dsimp only
          rw [exec_bind_ok (exec_set _ l)]
          apply (h.drop List.eraseP_sublist (List.Sublist.refl _)).putAck
          · exact (h.fetching _ (lookup_mem hl)).1
          · exact .inr (.inl rfl)
  | timeout chain random =>
      rw [AppendLedger.perform, Event.handle, exec_bind_ok (exec_get l)]
      cases hl : l.fetching.lookup chain with
      | none => exact h
      | some fetcher =>
          dsimp only
          rw [exec_bind_ok (exec_set _ l)]
          apply (h.drop List.eraseP_sublist (List.Sublist.refl _)).serveClient hC
          exact (h.fetching _ (lookup_mem hl)).1

end

/-! ## Runs -/

section
variable (onUpdate : Data → Program PacketError σ StatusCode)

def after (topic : Name) (world : σ) (events : List Event) : Ledger σ :=
  events.foldl (perform onUpdate) { topic := topic, world := world }

theorem built_after (topic : Name) (world : σ) (events : List Event) :
    ∀ a ∈ (after onUpdate topic world events).trace, Built (fun _ => True) onUpdate topic a := by
  have h : Regular (fun _ => True) onUpdate topic (after onUpdate topic world events) := by
    apply foldl_invariant (I := Regular (fun _ => True) onUpdate topic)
    · intro l event hl
      apply hl.perform fun _ _ _ _ => trivial
      cases event with
      | notification => exact fun _ _ => trivial
      | _ => trivial
    · exact regular_start world
  exact h.trace

/-- The client can read every acknowledgement that a ledger has put. -/
theorem acks_concluded {topic : Name} {world : σ} {events : List Event} {chain : ℕ} {ack : Packet}
    (h : Action.ack chain ack ∈ (after onUpdate topic world events).trace) :
    ∃ statusList, Concluded onUpdate statusList ∧ praseAck ack = .ok statusList := by
  obtain ⟨client, statusList, -, hs, hack⟩ := built_after onUpdate topic world events _ h
  exact ⟨statusList, hs, praseAck_makeNotificationAck hack⟩

end
end CertLedger.AppendLedgerRuns
