import CertLedger.AppendClientOrigins

/-!
# Where the acknowledgements of a ledger come from

A ledger acknowledges under the name of a notification it has read, with one failure or with
what its callback has returned for the content of a packet under the name of its own fetch.
-/
namespace CertLedger.AppendLedgerOrigins
open TlvCodec FallibleState NdnObjects NdnPackets AppendOptions AppendRetries
open AppendLedger AppendLedgerRuns
open AppendClientOrigins (alike_refl)

variable {σ : Type}

/-- One status that ends a chain without a submission. -/
def Failed (statusList : List StatusCode) : Prop :=
  statusList = [code .FAILURE_NACK] ∨ statusList = [code .FAILURE_TIMEOUT] ∨
    statusList = [code .FAILURE_VALIDATION_PROTO]

/-- The name is one of a fetch of the chain. -/
def Fetches (l : Ledger σ) (chain : ℕ) (name : Name) : Prop :=
  chain < l.chains.length ∧ ∃ n, name = (l.client chain).makeInterestFilter ++ [fromNumber n]

section
variable [NdnCxx]

/-- An acknowledgement tells of a failure, or of statuses with `R`. -/
def Fits (R : ClientOptions → List StatusCode → Prop) : Action → Prop
  | .ack _ ack => ∃ client statusList, makeNotificationAck client statusList = some ack ∧
      (Failed statusList ∨ R client statusList)
  | .fetch _ _ => True

/-- What waits belongs to its chain. -/
structure Fitting (R : ClientOptions → List StatusCode → Prop) (topic : Name) (l : Ledger σ) :
    Prop where
  topic_eq : l.topic = topic
  chains : ∀ client ∈ l.chains, client.topic = topic
  fetching : ∀ f ∈ l.fetching, f.2.canBePrefix = false ∧ Fetches l f.1 f.2.name
  validating : ∀ f ∈ l.validating, Fetches l f.1 f.2.name
  trace : ∀ a ∈ l.trace, Fits R a

variable {R : ClientOptions → List StatusCode → Prop} {topic : Name} {l : Ledger σ}

theorem fitting_start (world : σ) : Fitting R topic { topic := topic, world := world } := by
  constructor <;> simp

omit [NdnCxx] in
theorem client_getElem {chain : ℕ} (hk : chain < l.chains.length) : l.client chain = l.chains[chain] := by
  simp [Ledger.client, List.getD_eq_getElem?_getD, hk]

omit [NdnCxx] in
theorem client_setChain_self {chain : ℕ} (hk : chain < l.chains.length) (client : ClientOptions) :
    (l.setChain chain client).client chain = client := by
  simp [Ledger.client, Ledger.setChain, List.getD_eq_getElem?_getD, hk]

omit [NdnCxx] in
theorem client_setChain_ne {chain k : ℕ} (hk : k ≠ chain) (client : ClientOptions) :
    (l.setChain chain client).client k = l.client k := by
  simp [Ledger.client, Ledger.setChain, List.getD_eq_getElem?_getD, Ne.symm hk]

omit [NdnCxx] in
theorem topic_readParameter {client client' : ClientOptions} {item : Block}
    (h : readParameter client item = .ok client') : client'.topic = client.topic := by
  unfold readParameter at h
  split_ifs at h
  · obtain ⟨n, -, hc⟩ := bind_eq_ok h
    rw [← Except.ok.inj hc]
  · obtain ⟨n, -, hc⟩ := bind_eq_ok h
    rw [← Except.ok.inj hc]
  · obtain ⟨n, -, hc⟩ := bind_eq_ok h
    rw [← Except.ok.inj hc]
  · rw [← Except.ok.inj h]

omit [NdnCxx] in
theorem topic_praseNotification {notification : Interest} {client : ClientOptions}
    (h : praseNotification topic notification = .ok client) : client.topic = topic := by
  have hall : ∀ items : List Block, items.foldlM readParameter
      { topic := topic, appenderPrefix := [], nonce := InvalidNonce } = .ok client →
        client.topic = topic := by
    intro items hfold
    exact foldlM_eq_ok (I := fun c => c.topic = topic) hfold
      (fun _ _ _ _ hc hi => (topic_readParameter hc).trans hi) rfl
  rw [praseNotification] at h
  split at h
  · obtain ⟨items, -, hfold⟩ := bind_eq_ok h
    exact hall items hfold
  · exact hall [] h

omit [NdnCxx] in
theorem canBePrefix_makeFetcher {random : UInt64} {client : ClientOptions} {fetcher : Interest}
    (h : (makeFetcher topic random client).1 = some fetcher) : fetcher.canBePrefix = false := by
  obtain ⟨i, hi, rfl⟩ := Option.map_eq_some_iff.mp h
  rw [Interest.name_ofName hi]
  dsimp only
  split_ifs <;> rfl

omit [NdnCxx] in
/-- The chain of a fetch has the same name in a ledger with more chains. -/
theorem Fetches.carry {l' : Ledger σ} {chain : ℕ} {name : Name} (h : Fetches l chain name)
    (hle : l.chains.length ≤ l'.chains.length)
    (halike : ∀ k < l.chains.length, Alike (l.client k) (l'.client k)) : Fetches l' chain name := by
  obtain ⟨hk, n, hn⟩ := h
  exact ⟨hk.trans_le hle, n, by rw [(halike chain hk).makeInterestFilter, hn]⟩

namespace Fitting

theorem client_topic (h : Fitting R topic l) {chain : ℕ} (hk : chain < l.chains.length) :
    (l.client chain).topic = topic := by
  rw [client_getElem hk]
  exact h.chains _ (List.getElem_mem hk)

/-- Other chains, all of them with the old ones among them. -/
theorem withChains (h : Fitting R topic l) {chains : List ClientOptions}
    (hle : l.chains.length ≤ chains.length)
    (halike : ∀ k < l.chains.length, Alike (l.client k) (({ l with chains := chains } : Ledger σ).client k))
    (hchains : ∀ client ∈ chains, client.topic = topic) :
    Fitting R topic { l with chains := chains } where
  topic_eq := h.topic_eq
  chains := hchains
  fetching f hf := ⟨(h.fetching f hf).1, (h.fetching f hf).2.carry hle halike⟩
  validating f hf := (h.validating f hf).carry hle halike
  trace := h.trace

theorem mono {R' : ClientOptions → List StatusCode → Prop} (hR : ∀ o statusList, R o statusList →
    R' o statusList) (h : Fitting R topic l) : Fitting R' topic l := by
  refine ⟨h.topic_eq, h.chains, h.fetching, h.validating, fun a ha => ?_⟩
  have hfits := h.trace a ha
  cases a with
  | fetch chain fetcher => trivial
  | ack chain ack =>
      obtain ⟨client, statusList, hack, hs⟩ := hfits
      exact ⟨client, statusList, hack, hs.imp_right (hR client statusList)⟩

theorem act (h : Fitting R topic l) {a : Action} (ha : Fits R a) : Fitting R topic (l.act a) where
  topic_eq := h.topic_eq
  chains := h.chains
  fetching := h.fetching
  validating := h.validating
  trace a' ha' := by
    rcases List.mem_append.mp ha' with ha' | ha'
    · exact h.trace a' ha'
    · rw [List.mem_singleton.mp ha']
      exact ha

theorem setChain (h : Fitting R topic l) {chain : ℕ} (hk : chain < l.chains.length)
    {client : ClientOptions} (hc : Alike (l.client chain) client) :
    Fitting R topic (l.setChain chain client) := by
  apply h.withChains
  · exact List.length_set.ge
  · intro k _
    change Alike _ ((l.setChain chain client).client k)
    by_cases he : k = chain
    · rw [he, client_setChain_self hk]
      exact hc
    · rw [client_setChain_ne he]
      exact alike_refl _
  · intro c hmem
    rcases List.mem_or_eq_of_mem_set hmem with hmem | rfl
    · exact h.chains c hmem
    · exact hc.topic.trans (h.client_topic hk)

theorem putAck (h : Fitting R topic l) {chain : ℕ} {statusList : List StatusCode}
    (hs : Failed statusList ∨ R (l.client chain) statusList) :
    Fitting R topic (exec (putAck chain statusList) l).2 := by
  rcases putAck_cases l chain statusList with he | ⟨ack, hack, he⟩
  · rw [he]
    exact h
  · rw [he]
    exact h.act ⟨_, _, hack, hs⟩

theorem serveClient (h : Fitting R topic l) {chain : ℕ} (hk : chain < l.chains.length)
    (random : UInt64) : Fitting R topic (exec (serveClient chain random) l).2 := by
  have hsteady : ∀ r, Alike (l.client chain) { (l.client chain).setNonce2 random with retryCount := r } :=
    fun r => Alike.steady (l.client chain) (l.client chain) random r (alike_refl _)
  cases hf : (makeFetcher l.topic random (l.client chain)).1 with
  | none =>
      rw [exec_serveClient_none hf]
      exact h.setChain hk (hsteady _)
  | some fetcher =>
      have hturned : Fitting R topic (turned l chain random) := h.setChain hk (hsteady _)
      have hk' : chain < (turned l chain random).chains.length := by
        simpa [turned, Ledger.setChain] using hk
      rw [exec_serveClient_some hf]
      split_ifs
      · exact hturned.putAck (.inl (.inr (.inl rfl)))
      · have hact := hturned.act (a := .fetch chain fetcher) trivial
        refine ⟨hact.topic_eq, hact.chains, fun f hin => ?_, hact.validating, hact.trace⟩
        rcases List.mem_append.mp hin with hin | hin
        · exact hact.fetching f hin
        · obtain rfl := List.mem_singleton.mp hin
          refine ⟨canBePrefix_makeFetcher hf, hk', random, ?_⟩
          have hclient : (turned l chain random).client chain =
              ((l.client chain).setNonce2 random).exhaustRetries.2 := by
            exact client_setChain_self hk _
          have htopic := (h.client_topic hk).trans h.topic_eq.symm
          rw [name_makeFetcher hf, ← htopic]
          change _ = ((turned l chain random).client chain).makeInterestFilter ++ _
          rw [hclient]
          rfl

theorem onNotification (h : Fitting R topic l) (notification : Interest) (random₁ random₂ : UInt64) :
    Fitting R topic (exec (onNotification notification random₁ random₂) l).2 := by
  rw [AppendLedger.onNotification, exec_bind_ok (exec_get l)]
  cases hp : praseNotification l.topic notification with
  | error e => exact h
  | ok client =>
      rw [exec_bind_ok (exec_ofExcept_ok client l)]
      dsimp only
      cases hf : (makeFetcher l.topic random₁ client).1 with
      | none => exact h
      | some fetcher =>
          rw [exec_bind_ok (exec_ofOption_some fetcher l), exec_bind_ok (exec_set _ l)]
          have hopened : Fitting R topic
              { l with chains := l.chains ++ [(makeFetcher l.topic random₁ client).2] } := by
            apply h.withChains
            · simp
            · intro k hlt
              have hsame : (l.chains ++ [(makeFetcher l.topic random₁ client).2])[k]? = l.chains[k]? :=
                List.getElem?_append_left hlt
              simp only [Ledger.client, List.getD_eq_getElem?_getD, hsame]
              exact alike_refl _
            · intro c hmem
              rcases List.mem_append.mp hmem with hmem | hmem
              · exact h.chains c hmem
              · rw [List.mem_singleton.mp hmem]
                exact (topic_praseNotification hp).trans h.topic_eq
          exact hopened.serveClient (by simp) random₂

/-- Waits that end, and whatever happens to the world. -/
theorem drop (h : Fitting R topic l) {fetching : List (ℕ × Interest)} {validating : List (ℕ × Packet)}
    (hf : fetching.Sublist l.fetching) (hv : validating.Sublist l.validating) (world : σ) :
    Fitting R topic { l with fetching := fetching, validating := validating, world := world } where
  topic_eq := h.topic_eq
  chains := h.chains
  fetching f hin := h.fetching f (hf.subset hin)
  validating f hin := h.validating f (hv.subset hin)
  trace := h.trace

end Fitting

variable {onUpdate : Data → Program PacketError σ StatusCode}

variable (onUpdate) in
/-- What the verdict of the validator on a submission does. -/
theorem perform_valid (l : Ledger σ) (chain : ℕ) :
    (l.validating.lookup chain = none ∧ perform onUpdate l (.valid chain) = l) ∨
      ∃ p, l.validating.lookup chain = some p ∧
        let served := exec (readSubmissions onUpdate p) l.world
        let l' := { l with
          validating := l.validating.eraseP (·.1 == chain)
          world := served.2 }
        ((∃ e, served.1 = .error e ∧ perform onUpdate l (.valid chain) = l') ∨
          ∃ statusList, served.1 = .ok statusList ∧
            perform onUpdate l (.valid chain) = (exec (putAck chain statusList) l').2) := by
  rw [perform, Event.handle, exec_bind_ok (exec_get l)]
  cases hl : l.validating.lookup chain with
  | none => exact .inl ⟨rfl, rfl⟩
  | some p =>
      right
      refine ⟨p, rfl, ?_⟩
      dsimp only
      rw [exec_bind_ok (exec_set _ l), onValidationSuccess, exec_bind]
      have hzoom : exec (Ledger.onWorld (readSubmissions onUpdate p))
          { l with validating := l.validating.eraseP (·.1 == chain) } =
          ((exec (readSubmissions onUpdate p) l.world).1,
            { l with
              validating := l.validating.eraseP (·.1 == chain)
              world := (exec (readSubmissions onUpdate p) l.world).2 }) := rfl
      rw [hzoom]
      cases hr : (exec (readSubmissions onUpdate p) l.world).1 with
      | error e => exact .inl ⟨e, rfl, rfl⟩
      | ok statusList => exact .inr ⟨statusList, rfl, rfl⟩

/-- Every step keeps what waits with its chain, where the statuses of the packets that the
validator has passed have `R`. -/
theorem Fitting.perform (h : Fitting R topic l) (event : AppendLedger.Event)
    (hR : ∀ chain p statusList, event = .valid chain → l.validating.lookup chain = some p →
      Fetches l chain p.name → (exec (readSubmissions onUpdate p) l.world).1 = .ok statusList →
        R (l.client chain) statusList) : Fitting R topic (perform onUpdate l event) := by
  cases event with
  | notification i random₁ random₂ =>
      rw [AppendLedger.perform, Event.handle, exec_bind_ok (exec_get l)]
      split_ifs
      · exact h.onNotification i random₁ random₂
      · exact h
  | data p =>
      rw [AppendLedger.perform, Event.handle, exec_modify]
      refine ⟨h.topic_eq, h.chains, fun f hf => h.fetching f (List.mem_of_mem_filter hf), fun f hf => ?_,
        h.trace⟩
      rcases List.mem_append.mp hf with hf | hf
      · exact h.validating f hf
      · obtain ⟨g, hg, rfl⟩ := List.mem_map.mp hf
        obtain ⟨hmem, hmatch⟩ := List.mem_filter.mp hg
        obtain ⟨hcan, hfetches⟩ := h.fetching g hmem
        have hname : g.2.name = p.name := by
          rw [Interest.matchesName, hcan] at hmatch
          simpa using hmatch
        exact hname ▸ hfetches
  | valid chain =>
      rcases perform_valid onUpdate l chain with
        ⟨-, hp⟩ | ⟨p, hl, ⟨e, -, hp⟩ | ⟨statusList, hs, hp⟩⟩
      · rw [hp]
        exact h
      · rw [hp]
        exact h.drop (List.Sublist.refl _) List.eraseP_sublist _
      · rw [hp]
        have hmem := lookup_mem hl
        exact (h.drop (List.Sublist.refl _) List.eraseP_sublist _).putAck
          (.inr (hR chain p statusList rfl hl (h.validating _ hmem) hs))
  | invalid chain =>
      rw [AppendLedger.perform, Event.handle, exec_bind_ok (exec_get l)]
      cases hl : l.validating.lookup chain with
      | none => exact h
      | some p =>
          dsimp only
          rw [exec_bind_ok (exec_set _ l)]
          exact (h.drop (List.Sublist.refl _) List.eraseP_sublist _).putAck (.inl (.inr (.inr rfl)))
  | nack chain =>
      rw [AppendLedger.perform, Event.handle, exec_bind_ok (exec_get l)]
      cases hl : l.fetching.lookup chain with
      | none => exact h
      | some fetcher =>
          dsimp only
          rw [exec_bind_ok (exec_set _ l)]
          exact (h.drop List.eraseP_sublist (List.Sublist.refl _) _).putAck (.inl (.inl rfl))
  | timeout chain random =>
      rw [AppendLedger.perform, Event.handle, exec_bind_ok (exec_get l)]
      cases hl : l.fetching.lookup chain with
      | none => exact h
      | some fetcher =>
          have hk := (h.fetching _ (lookup_mem hl)).2.1
          dsimp only
          rw [exec_bind_ok (exec_set _ l)]
          exact (h.drop List.eraseP_sublist (List.Sublist.refl _) _).serveClient hk random

/-- Nothing is handed to the callback. -/
structure Quiet (l l' : Ledger σ) : Prop where
  world : l'.world = l.world
  trace : l.trace <+: l'.trace

theorem quiet_putAck (l : Ledger σ) (chain : ℕ) (statusList : List StatusCode) :
    Quiet l (exec (putAck chain statusList) l).2 := by
  rcases putAck_cases l chain statusList with he | ⟨ack, -, he⟩
  · rw [he]
    exact ⟨rfl, List.prefix_rfl⟩
  · rw [he]
    exact ⟨rfl, List.prefix_append _ _⟩

theorem quiet_serveClient (l : Ledger σ) (chain : ℕ) (random : UInt64) :
    Quiet l (exec (serveClient chain random) l).2 := by
  cases hf : (makeFetcher l.topic random (l.client chain)).1 with
  | none =>
      rw [exec_serveClient_none hf]
      exact ⟨rfl, List.prefix_rfl⟩
  | some fetcher =>
      rw [exec_serveClient_some hf]
      split_ifs
      · have hput := quiet_putAck (turned l chain random) chain [code .FAILURE_TIMEOUT]
        exact ⟨hput.world, hput.trace⟩
      · exact ⟨rfl, List.prefix_append _ _⟩

theorem quiet_onNotification (l : Ledger σ) (notification : Interest) (random₁ random₂ : UInt64) :
    Quiet l (exec (onNotification notification random₁ random₂) l).2 := by
  rw [onNotification, exec_bind_ok (exec_get l)]
  cases hp : praseNotification l.topic notification with
  | error e => exact ⟨rfl, List.prefix_rfl⟩
  | ok client =>
      rw [exec_bind_ok (exec_ofExcept_ok client l)]
      dsimp only
      cases hf : (makeFetcher l.topic random₁ client).1 with
      | none => exact ⟨rfl, List.prefix_rfl⟩
      | some fetcher =>
          rw [exec_bind_ok (exec_ofOption_some fetcher l), exec_bind_ok (exec_set _ l)]
          have hserve := quiet_serveClient { l with
            chains := l.chains ++ [(makeFetcher l.topic random₁ client).2] } l.chains.length random₂
          exact ⟨hserve.world, hserve.trace⟩

variable (onUpdate) in
theorem served_valid {chain : ℕ} {p : Packet} (hl : l.validating.lookup chain = some p) :
    l.trace <+: (perform onUpdate l (.valid chain)).trace ∧
      (perform onUpdate l (.valid chain)).world = (exec (readSubmissions onUpdate p) l.world).2 := by
  rcases perform_valid onUpdate l chain with ⟨hn, -⟩ | ⟨p', hp', hcase⟩
  · cases hn.symm.trans hl
  · obtain rfl := Option.some.inj (hp'.symm.trans hl)
    rcases hcase with ⟨e, -, hp⟩ | ⟨statusList, -, hp⟩
    · rw [hp]
      exact ⟨List.prefix_rfl, rfl⟩
    · rw [hp]
      have hput := quiet_putAck { l with
        validating := l.validating.eraseP (·.1 == chain)
        world := (exec (readSubmissions onUpdate p') l.world).2 } chain statusList
      exact ⟨hput.trace, hput.world⟩

variable (onUpdate) in
/-- Only a submission that the validator has passed is handed to the callback. -/
theorem perform_cases (l : Ledger σ) (event : AppendLedger.Event) :
    Quiet l (perform onUpdate l event) ∨
      ∃ chain p, event = .valid chain ∧ l.validating.lookup chain = some p := by
  cases event with
  | notification i random₁ random₂ =>
      left
      rw [AppendLedger.perform, Event.handle, exec_bind_ok (exec_get l)]
      split_ifs
      · exact quiet_onNotification l i random₁ random₂
      · exact ⟨rfl, List.prefix_rfl⟩
  | data p => exact .inl ⟨rfl, List.prefix_rfl⟩
  | valid chain =>
      rcases perform_valid onUpdate l chain with ⟨-, hp⟩ | ⟨p, hl, -⟩
      · left
        rw [hp]
        exact ⟨rfl, List.prefix_rfl⟩
      · exact .inr ⟨chain, p, rfl, hl⟩
  | invalid chain =>
      left
      rw [AppendLedger.perform, Event.handle, exec_bind_ok (exec_get l)]
      cases hl : l.validating.lookup chain with
      | none => exact ⟨rfl, List.prefix_rfl⟩
      | some p =>
          dsimp only
          rw [exec_bind_ok (exec_set _ l)]
          have hput := quiet_putAck { l with validating := l.validating.eraseP (·.1 == chain) } chain
            [code .FAILURE_VALIDATION_PROTO]
          exact ⟨hput.world, hput.trace⟩
  | nack chain =>
      left
      rw [AppendLedger.perform, Event.handle, exec_bind_ok (exec_get l)]
      cases hl : l.fetching.lookup chain with
      | none => exact ⟨rfl, List.prefix_rfl⟩
      | some fetcher =>
          dsimp only
          rw [exec_bind_ok (exec_set _ l)]
          have hput := quiet_putAck { l with fetching := l.fetching.eraseP (·.1 == chain) } chain
            [code .FAILURE_NACK]
          exact ⟨hput.world, hput.trace⟩
  | timeout chain random =>
      left
      rw [AppendLedger.perform, Event.handle, exec_bind_ok (exec_get l)]
      cases hl : l.fetching.lookup chain with
      | none => exact ⟨rfl, List.prefix_rfl⟩
      | some fetcher =>
          dsimp only
          rw [exec_bind_ok (exec_set _ l)]
          have hserve := quiet_serveClient { l with
            fetching := l.fetching.eraseP (·.1 == chain) } chain random
          exact ⟨hserve.world, hserve.trace⟩

end

end CertLedger.AppendLedgerOrigins
