import CertLedger.AppendClient
import CertLedger.EventRuns
import Mathlib.Tactic.Common

/-!
# The runs of an append client

A session answers its fetches up to the first second nonce that is not zero.
Sessions share a handle, so the acknowledgement of one cancels the filters of all.
-/
namespace CertLedger.AppendClientRuns
open TlvCodec FallibleState NdnObjects NdnPackets AppendOptions EventRuns
open AppendClient

/-! ## The exchange of a session -/

/-- The second nonces that are answered: all up to the first that is not zero. -/
def answers : List UInt64 → List UInt64
  | [] => []
  | n :: ns => if n = 0 then n :: answers ns else [n]

theorem answers_append {ns : List UInt64} (h : ∀ m ∈ ns, m = 0) (n : UInt64) :
    answers (ns ++ [n]) = answers ns ++ [n] := by
  induction ns with
  | nil => simp [answers]
  | cons m ns ih =>
      obtain ⟨rfl, hns⟩ := List.forall_mem_cons.mp h
      simp only [List.cons_append, answers, if_true, ih hns]

theorem answers_append_of_not {ns : List UInt64} (h : ¬∀ m ∈ ns, m = 0) (n : UInt64) :
    answers (ns ++ [n]) = answers ns := by
  induction ns with
  | nil => simp at h
  | cons m ns ih =>
      by_cases hm : m = 0
      · have hns : ¬∀ m ∈ ns, m = 0 := fun hns => h (List.forall_mem_cons.mpr ⟨hm, hns⟩)
        simp only [List.cons_append, answers, hm, if_true, ih hns]
      · simp [answers, hm]

/-- One value is answered at most, unless zero comes before another. -/
theorem answers_unique_iff (ns : List UInt64) :
    (∀ a ∈ answers ns, ∀ b ∈ answers ns, a = b) ↔ (ns.head? = some 0 → ∀ n ∈ ns, n = 0) := by
  have hzero : ∀ ns : List UInt64, (∀ a ∈ answers ns, a = 0) ↔ ∀ n ∈ ns, n = 0 := by
    intro ns
    induction ns with
    | nil => simp [answers]
    | cons n ns ih =>
        by_cases hn : n = 0
        · simp only [answers, hn, if_true, List.forall_mem_cons, ih]
        · simp [answers, hn]
  cases ns with
  | nil => simp [answers]
  | cons n ns =>
      by_cases hn : n = 0
      · subst hn
        have h := hzero (0 :: ns)
        simp only [List.head?_cons, true_implies]
        rw [← h]
        constructor
        · intro hall a ha
          exact hall a ha 0 (by simp [answers])
        · intro hall a ha b hb
          rw [hall a ha, hall b hb]
      · simp [answers, hn]

section
variable [NdnCxx]

def fetchedNonces (j : ℕ) (trace : List Action) : List UInt64 :=
  trace.filterMap (·.fetchedNonce j)

def submittedNonces (j : ℕ) (trace : List Action) : List UInt64 :=
  trace.filterMap (·.submittedNonce j)

/-- A client whose parts belong together, and whose sessions have answered what
they should. -/
structure Sound (c : Client) : Prop where
  handle : ∀ f ∈ c.filters, f.1 ∈ c.handle
  filters : ∀ f ∈ c.filters, f.1 < c.sessions.length ∧
    f.2 = (c.session f.1).options.makeInterestFilter
  pending : ∀ f ∈ c.pending, f.1 < c.sessions.length
  validating : ∀ f ∈ c.validating, f.1 < c.sessions.length
  trace : ∀ a ∈ c.trace, a.session < c.sessions.length
  submitted : ∀ j, submittedNonces j c.trace = answers (fetchedNonces j c.trace)
  nonce2 : ∀ j, (c.session j).options.nonce2 = 0 ↔ ∀ n ∈ fetchedNonces j c.trace, n = 0

/-- What a handler does that is not about filters, fetches or acknowledgements. -/
structure Minor (c c' : Client) : Prop where
  length : c'.sessions.length = c.sessions.length
  filters : c'.filters = c.filters
  handle : c'.handle = c.handle
  session : ∀ j, ∃ r, c'.session j = ⟨{ (c.session j).options with retryCount := r },
    (c.session j).data⟩
  pending : ∀ n, (∀ f ∈ c.pending, f.1 < n) → c.sessions.length ≤ n → ∀ f ∈ c'.pending, f.1 < n
  validating : ∀ f ∈ c'.validating, f ∈ c.validating
  trace : ∃ new, c'.trace = c.trace ++ new ∧
    ∀ a ∈ new, a.session < c.sessions.length ∧ a.IsReport

theorem Minor.refl (c : Client) : Minor c c where
  length := rfl
  filters := rfl
  handle := rfl
  session _ := ⟨_, rfl⟩
  pending _ h _ := h
  validating _ h := h
  trace := ⟨[], by simp⟩

theorem Minor.trans {c c' c'' : Client} (h : Minor c c') (h' : Minor c' c'') : Minor c c'' where
  length := h'.length.trans h.length
  filters := h'.filters.trans h.filters
  handle := h'.handle.trans h.handle
  session j := by
    obtain ⟨r, hr⟩ := h.session j
    obtain ⟨r', hr'⟩ := h'.session j
    exact ⟨r', by rw [hr', hr]⟩
  pending n hn hle := h'.pending n (h.pending n hn hle) (h.length.trans_le hle)
  validating f hf := h.validating f (h'.validating f hf)
  trace := by
    obtain ⟨new, hnew, hall⟩ := h.trace
    obtain ⟨new', hnew', hall'⟩ := h'.trace
    refine ⟨new ++ new', by rw [hnew', hnew, List.append_assoc], fun a ha => ?_⟩
    rcases List.mem_append.mp ha with ha | ha
    · exact hall a ha
    · exact h.length ▸ hall' a ha

theorem Minor.act (c : Client) {a : Action} (hs : a.session < c.sessions.length) (hr : a.IsReport) :
    Minor c (c.act a) where
  length := rfl
  filters := rfl
  handle := rfl
  session _ := ⟨_, rfl⟩
  pending _ h _ := h
  validating _ h := h
  trace := ⟨[a], rfl, by simp [hs, hr]⟩

/-- Dropping what waits. -/
theorem Minor.drop (c : Client) {pending : List (ℕ × Interest)} {validating : List (ℕ × Packet)}
    (hp : pending.Sublist c.pending) (hv : validating.Sublist c.validating) :
    Minor c { c with pending := pending, validating := validating } where
  length := rfl
  filters := rfl
  handle := rfl
  session _ := ⟨_, rfl⟩
  pending _ h _ f hf := h f (hp.subset hf)
  validating f hf := hv.subset hf
  trace := ⟨[], by simp⟩

theorem Minor.retried (c : Client) (k : ℕ) : Minor c (retried c k) where
  length := c.length_setOptions k _
  filters := rfl
  handle := rfl
  session j := by
    by_cases hj : j = k
    · subst hj
      by_cases hl : j < c.sessions.length
      · exact ⟨_, c.session_setOptions_self hl _⟩
      · have hsame : (AppendClient.retried c j).session j = c.session j := by
          simp [AppendClient.retried, Client.setOptions, Client.session,
            List.getD_eq_getElem?_getD, hl]
        exact ⟨_, hsame⟩
    · exact ⟨_, c.session_setOptions_ne hj _⟩
  pending _ h _ := h
  validating _ h := h
  trace := ⟨[], by simp [AppendClient.retried, Client.setOptions]⟩

theorem minor_dispatch (c : Client) {k : ℕ} (hk : k < c.sessions.length) :
    Minor c (exec (dispatchNotification k) c).2 := by
  have hretried := Minor.retried c k
  have hk' : k < (retried c k).sessions.length := hretried.length ▸ hk
  rcases dispatch_cases c k with he | ⟨i, -, he⟩ | ⟨i, -, he⟩
  · rw [he]
    exact Minor.refl c
  · rw [he]
    exact hretried.trans (Minor.act _ hk' trivial)
  · rw [he]
    have hact := hretried.trans (Minor.act (a := .notified k i) _ hk' trivial)
    refine ⟨hact.length, hact.filters, hact.handle, hact.session, ?_, hact.validating, hact.trace⟩
    intro n hn hle f hf
    rcases List.mem_append.mp hf with hf | hf
    · exact hn f hf
    · rw [List.mem_singleton.mp hf]
      omega

theorem filterMap_reports {β : Type} {g : Action → Option β} {trace new : List Action}
    (h : ∀ a ∈ new, g a = none) : (trace ++ new).filterMap g = trace.filterMap g := by
  rw [List.filterMap_append, List.filterMap_eq_nil_iff.mpr h, List.append_nil]

theorem Sound.minor {c c' : Client} (h : Sound c) (hm : Minor c c') : Sound c' := by
  obtain ⟨new, hnew, hall⟩ := hm.trace
  have hfetched : ∀ j, fetchedNonces j c'.trace = fetchedNonces j c.trace := fun j => by
    rw [fetchedNonces, hnew]
    exact filterMap_reports fun a ha => (hall a ha).2.fetchedNonce j
  have hsubmitted : ∀ j, submittedNonces j c'.trace = submittedNonces j c.trace := fun j => by
    rw [submittedNonces, hnew]
    exact filterMap_reports fun a ha => (hall a ha).2.submittedNonce j
  constructor
  · rw [hm.filters, hm.handle]
    exact h.handle
  · intro f hf
    obtain ⟨r, hr⟩ := hm.session f.1
    rw [hm.filters] at hf
    rw [hm.length, hr]
    exact h.filters f hf
  · rw [hm.length]
    exact hm.pending _ h.pending le_rfl
  · intro f hf
    rw [hm.length]
    exact h.validating f (hm.validating f hf)
  · intro a ha
    rw [hm.length]
    rw [hnew] at ha
    rcases List.mem_append.mp ha with ha | ha
    · exact h.trace a ha
    · exact (hall a ha).1
  · intro j
    rw [hfetched, hsubmitted]
    exact h.submitted j
  · intro j
    obtain ⟨r, hr⟩ := hm.session j
    rw [hfetched, hr]
    exact h.nonce2 j

end

section
variable [NdnCxx]

theorem nonces_eq_nil {c : Client} (h : ∀ a ∈ c.trace, a.session < c.sessions.length) {j : ℕ}
    (hj : c.sessions.length ≤ j) : fetchedNonces j c.trace = [] := by
  apply List.filterMap_eq_nil_iff.mpr
  intro a ha
  have hlt := h a ha
  cases a with
  | fetched k name =>
      have hne : k ≠ j := by
        change k < _ at hlt
        omega
      exact if_neg hne
  | _ => rfl

theorem session_opened_self (c : Client) (topic : Name) (data : List Data) (nonce : UInt64) :
    (opened c topic data nonce).session c.sessions.length =
      ⟨{ topic := topic, appenderPrefix := c.appenderPrefix, nonce := nonce }, data⟩ := by
  simp [opened, Client.session, List.getD_eq_getElem?_getD]

theorem session_opened_ne (c : Client) (topic : Name) (data : List Data) (nonce : UInt64) {j : ℕ}
    (h : j ≠ c.sessions.length) : (opened c topic data nonce).session j = c.session j := by
  simp only [opened, Client.session, List.getD_eq_getElem?_getD]
  by_cases hlt : j < c.sessions.length
  · rw [List.getElem?_append_left hlt]
  · rw [List.getElem?_eq_none (by simp; omega), List.getElem?_eq_none (by omega)]

theorem length_opened (c : Client) (topic : Name) (data : List Data) (nonce : UInt64) :
    (opened c topic data nonce).sessions.length = c.sessions.length + 1 := by
  simp [opened]

theorem Sound.opened {c : Client} (h : Sound c) (topic : Name) (data : List Data)
    (nonce : UInt64) : Sound (opened c topic data nonce) := by
  have hlength := length_opened c topic data nonce
  have hself := session_opened_self c topic data nonce
  constructor
  · intro f hf
    rcases List.mem_append.mp hf with hf | hf
    · exact List.mem_append_left _ (h.handle f hf)
    · rw [List.mem_singleton.mp hf]
      exact List.mem_append_right _ (List.mem_singleton_self _)
  · intro f hf
    rcases List.mem_append.mp hf with hf | hf
    · obtain ⟨hlt, hname⟩ := h.filters f hf
      rw [session_opened_ne c topic data nonce hlt.ne]
      exact ⟨by omega, hname⟩
    · rw [List.mem_singleton.mp hf]
      exact ⟨by simp [hlength], by rw [hself]⟩
  · intro f hf
    exact lt_of_lt_of_eq (Nat.lt_succ_of_lt (h.pending f hf)) hlength.symm
  · intro f hf
    exact lt_of_lt_of_eq (Nat.lt_succ_of_lt (h.validating f hf)) hlength.symm
  · intro a ha
    exact lt_of_lt_of_eq (Nat.lt_succ_of_lt (h.trace a ha)) hlength.symm
  · exact h.submitted
  · intro j
    by_cases hj : j = c.sessions.length
    · subst hj
      rw [hself]
      have hnil : fetchedNonces c.sessions.length c.trace = [] := nonces_eq_nil h.trace le_rfl
      change 0 = 0 ↔ ∀ n ∈ fetchedNonces c.sessions.length c.trace, n = 0
      simp [hnil]
    · rw [session_opened_ne c topic data nonce hj]
      exact h.nonce2 j

theorem Sound.ackAll {c : Client} (h : Sound c) {l : List (ℕ × Interest)} (hl : ∀ f ∈ l, f ∈ c.pending)
    (p : Packet) {pending : List (ℕ × Interest)} (hp : pending.Sublist c.pending) :
    Sound (ackAll { c with pending := pending } l p) := by
  have hnil : ∀ {β : Type} (g : Action → Option β), (∀ k ack, g (.acked k ack) = none) →
      (c.trace ++ l.map fun f => Action.acked f.1 p).filterMap g = c.trace.filterMap g := by
    intro β g hg
    apply filterMap_reports
    intro a ha
    obtain ⟨f, -, rfl⟩ := List.mem_map.mp ha
    exact hg _ _
  have hsub : ∀ f ∈ (AppendClient.ackAll { c with pending := pending } l p).filters,
      f ∈ c.filters := by
    intro f hf
    by_cases hl' : l = []
    · simpa [AppendClient.ackAll, hl'] using hf
    · simp only [AppendClient.ackAll, hl', if_false, Client.unregisterFilters] at hf
      exact List.mem_of_mem_filter hf
  constructor
  · exact fun f hf => h.handle f (hsub f hf)
  · exact fun f hf => h.filters f (hsub f hf)
  · exact fun f hf => h.pending f (hp.subset hf)
  · intro f hf
    rcases List.mem_append.mp hf with hf | hf
    · exact h.validating f hf
    · obtain ⟨g, hg, rfl⟩ := List.mem_map.mp hf
      exact h.pending g (hl g hg)
  · intro a ha
    rcases List.mem_append.mp ha with ha | ha
    · exact h.trace a ha
    · obtain ⟨g, hg, rfl⟩ := List.mem_map.mp ha
      exact h.pending g (hl g hg)
  · intro j
    change (c.trace ++ l.map fun f => Action.acked f.1 p).filterMap (·.submittedNonce j) =
      answers ((c.trace ++ l.map fun f => Action.acked f.1 p).filterMap (·.fetchedNonce j))
    rw [hnil _ fun _ _ => rfl, hnil _ fun _ _ => rfl]
    exact h.submitted j
  · intro j
    change _ ↔ ∀ n ∈ (c.trace ++ l.map fun f => Action.acked f.1 p).filterMap (·.fetchedNonce j), n = 0
    rw [hnil _ fun _ _ => rfl]
    exact h.nonce2 j

/-! ### Fetches -/

theorem lastNumber_submission (o : ClientOptions) (n : UInt64) (data : List Data) :
    lastNumber ((o.setNonce2 n).makeSubmission data).name = .ok n :=
  lastNumber_append _ n

/-- A fetch that is not answered. -/
theorem Sound.fetched {c : Client} (h : Sound c) {k : ℕ} (hk : k < c.sessions.length) {name : Name}
    (hn : (∃ e, lastNumber name = .error e) ∨ (c.session k).options.nonce2 ≠ 0) :
    Sound (c.act (.fetched k name)) := by
  have hsub : ∀ j, submittedNonces j (c.act (.fetched k name)).trace = submittedNonces j c.trace := by
    intro j
    exact filterMap_reports fun a ha => by rw [List.mem_singleton.mp ha]; rfl
  have hfetch : ∀ j, (fetchedNonces j (c.act (.fetched k name)).trace = fetchedNonces j c.trace) ∨
      ((c.session j).options.nonce2 ≠ 0 ∧ ∃ n, fetchedNonces j (c.act (.fetched k name)).trace =
        fetchedNonces j c.trace ++ [n]) := by
    intro j
    have happend : fetchedNonces j (c.act (.fetched k name)).trace = fetchedNonces j c.trace ++
        [Action.fetched k name].filterMap (·.fetchedNonce j) := List.filterMap_append
    by_cases hj : k = j
    · subst hj
      rcases hln : lastNumber name with e | n
      · left
        rw [happend]
        simp [Action.fetchedNonce, hln, Except.toOption]
      · right
        refine ⟨hn.resolve_left (by simp [hln]), n, ?_⟩
        rw [happend]
        simp [Action.fetchedNonce, hln, Except.toOption]
    · left
      rw [happend]
      simp [Action.fetchedNonce, hj]
  refine ⟨h.handle, h.filters, h.pending, h.validating, ?_, ?_, ?_⟩
  · intro a ha
    rcases List.mem_append.mp ha with ha | ha
    · exact h.trace a ha
    · rw [List.mem_singleton.mp ha]
      exact hk
  · intro j
    rw [hsub, h.submitted]
    rcases hfetch j with he | ⟨hne, n, he⟩
    · rw [he]
    · rw [he, answers_append_of_not ((h.nonce2 j).not.mp hne)]
  · intro j
    rcases hfetch j with he | ⟨hne, n, he⟩
    · rw [he]
      exact h.nonce2 j
    · have hnot := (h.nonce2 j).not.mp hne
      rw [he]
      constructor
      · intro hz
        exact absurd hz hne
      · intro hall
        exact absurd (fun m hm => hall m (List.mem_append_left _ hm)) hnot

/-- A fetch that is answered. -/
theorem Sound.answered {c : Client} (h : Sound c) {k : ℕ} (hk : k < c.sessions.length) {name : Name}
    {n : UInt64} (hz : (c.session k).options.nonce2 = 0) (hn : lastNumber name = .ok n) :
    Sound (answered c k name n) := by
  have hself : (AppendClient.answered c k name n).session k =
      ⟨(c.session k).options.setNonce2 n, (c.session k).data⟩ :=
    (c.act (.fetched k name)).session_setOptions_self hk _
  have hother : ∀ j, j ≠ k → (AppendClient.answered c k name n).session j = c.session j :=
    fun j hj => (c.act (.fetched k name)).session_setOptions_ne hj _
  have hlength : (AppendClient.answered c k name n).sessions.length = c.sessions.length :=
    (c.act (.fetched k name)).length_setOptions k _
  let new : List Action := [.fetched k name,
    .submitted k (((c.session k).options.setNonce2 n).makeSubmission (c.session k).data)]
  have htrace : (AppendClient.answered c k name n).trace = c.trace ++ new := by
    simp [AppendClient.answered, Client.act, Client.setOptions, new]
  have hnew : ∀ j, fetchedNonces j (AppendClient.answered c k name n).trace =
        fetchedNonces j c.trace ++ (if k = j then [n] else []) ∧
      submittedNonces j (AppendClient.answered c k name n).trace =
        submittedNonces j c.trace ++ (if k = j then [n] else []) := by
    intro j
    rw [fetchedNonces, submittedNonces, htrace, List.filterMap_append, List.filterMap_append]
    by_cases hj : k = j
    · simp [new, Action.fetchedNonce, Action.submittedNonce, hj, hn, lastNumber_submission,
        Except.toOption, fetchedNonces, submittedNonces]
    · simp [new, Action.fetchedNonce, Action.submittedNonce, hj, fetchedNonces, submittedNonces]
  have hall := (h.nonce2 k).mp hz
  refine ⟨h.handle, ?_, ?_, ?_, ?_, ?_, ?_⟩
  · intro f hf
    obtain ⟨hlt, hname⟩ := h.filters f hf
    rw [hlength]
    refine ⟨hlt, ?_⟩
    by_cases hf' : f.1 = k
    · rw [hf', hself, hname, hf']
      rfl
    · rw [hother _ hf']
      exact hname
  · intro f hf
    rw [hlength]
    exact h.pending f hf
  · intro f hf
    rw [hlength]
    exact h.validating f hf
  · intro a ha
    rw [hlength]
    rw [htrace] at ha
    rcases List.mem_append.mp ha with ha | ha
    · exact h.trace a ha
    · have : a.session = k := by
        simp only [new, List.mem_cons, List.not_mem_nil, or_false] at ha
        rcases ha with rfl | rfl <;> rfl
      omega
  · intro j
    rw [(hnew j).1, (hnew j).2, h.submitted]
    by_cases hj : k = j
    · subst hj
      rw [if_pos rfl, answers_append hall]
    · rw [if_neg hj, List.append_nil, List.append_nil]
  · intro j
    rw [(hnew j).1]
    by_cases hj : k = j
    · subst hj
      rw [if_pos rfl, hself]
      change n = 0 ↔ _
      simp only [List.mem_append, List.mem_singleton]
      constructor
      · rintro hn0 m (hm | rfl)
        · exact hall m hm
        · exact hn0
      · intro hm
        exact hm n (.inr rfl)
    · rw [if_neg hj, List.append_nil, hother j (Ne.symm hj)]
      exact h.nonce2 j

end

theorem lookup_lt {α : Type} {l : List (ℕ × α)} {k : ℕ} {a : α} {n : ℕ} (h : ∀ f ∈ l, f.1 < n)
    (ha : l.lookup k = some a) : k < n := by
  obtain ⟨l₁, l₂, rfl, -⟩ := List.lookup_eq_some_iff.mp ha
  exact h (k, a) (by simp)

section
variable [NdnCxx]

theorem minor_perform {c : Client} (h : Sound c) (event : Event) (he : event.IsMinor) :
    Minor c (perform c event) := by
  cases event with
  | valid k =>
      rcases perform_valid c k with ⟨-, hp⟩ | ⟨ack, hl, ⟨e, -, hp⟩ | ⟨statusList, -, hp⟩⟩
      · rw [hp]
        exact Minor.refl c
      · rw [hp]
        exact Minor.drop c (List.Sublist.refl _) List.eraseP_sublist
      · rw [hp]
        exact (Minor.drop c (List.Sublist.refl _) List.eraseP_sublist).trans
          (Minor.act _ (lookup_lt h.validating hl) trivial)
  | invalid k info =>
      rcases perform_invalid c k info with ⟨-, hp⟩ | ⟨ack, hl, hp⟩
      · rw [hp]
        exact Minor.refl c
      · rw [hp]
        exact (Minor.drop c (List.Sublist.refl _) List.eraseP_sublist).trans
          (Minor.act _ (lookup_lt h.validating hl) trivial)
  | nack k =>
      rcases perform_nack c k with ⟨-, hp⟩ | ⟨i, hl, hp⟩
      · rw [hp]
        exact Minor.refl c
      · rw [hp]
        exact (Minor.drop c List.eraseP_sublist (List.Sublist.refl _)).trans
          (Minor.act _ (lookup_lt h.pending hl) trivial)
  | timeout k =>
      rcases perform_timeout c k with ⟨-, hp⟩ | ⟨i, hl, hp⟩
      · rw [hp]
        exact Minor.refl c
      · rw [hp]
        exact (Minor.drop c List.eraseP_sublist (List.Sublist.refl _)).trans
          (minor_dispatch _ (lookup_lt h.pending hl))
  | append => exact he.elim
  | interest => exact he.elim
  | received => exact he.elim

/-- What the callbacks of a fetch keep, one after the other. -/
theorem fetches_invariant {I : Client → Prop} (name : Name) (l : List (ℕ × Name))
    (hstep : ∀ f ∈ l, ∀ c, I c → I (exec (onFetch f.1 name) c).2) {c : Client} (h : I c) :
    I (exec (l.foldlM (fun _ f => onFetch f.1 name) ()) c).2 := by
  have hrespects : Respects (fun s t => I s → I t)
      (l.foldlM (fun (_ : Unit) f => onFetch f.1 name) ()) :=
    Respects.foldlM (R := fun s t => I s → I t) (fun _ => id) (fun _ _ _ h₁ h₂ => h₂ ∘ h₁)
      (fun _ f hf s => hstep f hf s) ()
  exact hrespects c h

theorem Sound.onFetch {c : Client} (h : Sound c) {k : ℕ} (hk : k < c.sessions.length) (name : Name) :
    Sound (exec (onFetch k name) c).2 ∧
      (exec (AppendClient.onFetch k name) c).2.sessions.length = c.sessions.length := by
  by_cases hz : 0 < (c.session k).options.nonce2
  · have hne : (c.session k).options.nonce2 ≠ 0 := UInt64.pos_iff_ne_zero.mp hz
    rw [exec_onFetch_matched k hz]
    exact ⟨h.fetched hk (.inr hne), rfl⟩
  · cases hn : lastNumber name with
    | error e =>
        rw [exec_onFetch_error k hz hn]
        exact ⟨h.fetched hk (.inl ⟨e, hn⟩), rfl⟩
    | ok n =>
        have hzero : (c.session k).options.nonce2 = 0 := by
          by_contra hne
          exact hz (UInt64.pos_iff_ne_zero.mpr hne)
        rw [exec_onFetch_answers k hz hn]
        exact ⟨h.answered hk hzero hn, (c.act (.fetched k name)).length_setOptions k _⟩

theorem Sound.perform {c : Client} (h : Sound c) (event : Event) : Sound (perform c event) := by
  cases event with
  | append topic data nonce =>
      rcases perform_append c topic data nonce with hp | hp
      · rw [hp]
        exact h
      · rw [hp]
        apply (h.opened topic data nonce).minor
        apply minor_dispatch
        rw [length_opened]
        exact Nat.lt_succ_self _
  | interest name =>
      rw [perform_interest]
      have hinv := fetches_invariant
        (I := fun d => Sound d ∧ d.sessions.length = c.sessions.length) name (matching c name) ?_
        ⟨h, rfl⟩
      · exact hinv.1
      · intro f hf d hd
        have hlt := (h.filters f (List.mem_of_mem_filter hf)).1
        have hstep := hd.1.onFetch (hd.2 ▸ hlt) name
        exact ⟨hstep.1, hstep.2.trans hd.2⟩
  | received p =>
      rw [perform_received]
      exact h.ackAll (fun f hf => List.mem_of_mem_filter hf) p List.filter_sublist
  | valid k => exact h.minor (minor_perform h (.valid k) trivial)
  | invalid k info => exact h.minor (minor_perform h (.invalid k info) trivial)
  | nack k => exact h.minor (minor_perform h (.nack k) trivial)
  | timeout k => exact h.minor (minor_perform h (.timeout k) trivial)

theorem sound_start (appenderPrefix : Name) : Sound (start appenderPrefix) := by
  constructor <;> simp [start, submittedNonces, fetchedNonces, answers, Client.session]

theorem sound_after (appenderPrefix : Name) (events : List Event) :
    Sound (after appenderPrefix events) := by
  change Sound (events.foldl perform (start appenderPrefix))
  apply foldl_invariant (I := Sound)
  · exact fun _ event h => h.perform event
  · exact sound_start appenderPrefix

/-- A session gives its submission to one second nonce at most, unless the first
that reaches it is zero and another follows. -/
theorem one_match_iff (appenderPrefix : Name) (events : List Event) (j : ℕ) :
    let trace := (after appenderPrefix events).trace
    (∀ a ∈ submittedNonces j trace, ∀ b ∈ submittedNonces j trace, a = b) ↔
      ((fetchedNonces j trace).head? = some 0 → ∀ n ∈ fetchedNonces j trace, n = 0) := by
  intro trace
  rw [(sound_after appenderPrefix events).submitted j]
  exact answers_unique_iff _

end

section
open PlainNdn

local instance : NdnCxx := plainNdn sessionDigests

/-- A session that is fetched from twice. -/
def fetchedTwice : List Event :=
  [.append nameT [sessionData [1]] 7,
    .interest (fetcherName nameT ((sessionOptions 7).setNonce2 0)),
    .interest (fetcherName nameT ((sessionOptions 7).setNonce2 5))]

theorem two_matches : submittedNonces 0 (after nameA fetchedTwice).trace = [0, 5] := by
  decide

end

/-! ## Sessions beside each other -/

section
variable [NdnCxx]

/-- The acknowledgement of a session has come. -/
def Acked (c : Client) (j : ℕ) : Prop := ∃ ack, Action.acked j ack ∈ c.trace

/-- The filter of a session is set. -/
def Registered (c : Client) (j : ℕ) : Prop :=
  (j, (c.session j).options.makeInterestFilter) ∈ c.filters

/-- Every session that has not been acknowledged can be fetched from. -/
def KeepsFilters (c : Client) : Prop := ∀ j < c.sessions.length, ¬Acked c j → Registered c j

/-- The name of the fetch that a ledger builds for a session. -/
def fetchName (c : Client) (j : ℕ) (n : UInt64) : Name :=
  fetcherName (c.session j).options.topic ((c.session j).options.setNonce2 n)

theorem fetchName_eq (c : Client) (j : ℕ) (n : UInt64) :
    fetchName c j n = (c.session j).options.makeInterestFilter ++ [fromNumber n] := rfl

/-- No fetch of a session has come in. -/
def Unfetched (c : Client) (j : ℕ) : Prop := ∀ n, Action.fetched j (fetchName c j n) ∉ c.trace

/-- An Interest with this name makes a session put a submission. -/
def Answers (c : Client) (name : Name) (j : ℕ) (submission : Packet) : Prop :=
  ∃ new, (perform c (.interest name)).trace = c.trace ++ new ∧ Action.submitted j submission ∈ new

/-- An acknowledgement comes when no other session is without one. -/
def Alone (c : Client) : Event → Prop
  | .received p => acknowledged c p ≠ [] →
      ∀ j < c.sessions.length, Acked c j ∨ ∃ f ∈ acknowledged c p, f.1 = j
  | _ => True

/-- An Interest that reaches a filter is a fetch for its session. -/
def Separate (c : Client) : Event → Prop
  | .interest name => ∀ f ∈ c.filters, f.2 <+: name → ∃ n, name = f.2 ++ [fromNumber n]
  | _ => True

/-- What a handler that cancels no filter keeps. -/
structure Stays (c c' : Client) : Prop where
  length : c'.sessions.length = c.sessions.length
  filters : c'.filters = c.filters
  name : ∀ j, (c'.session j).options.makeInterestFilter = (c.session j).options.makeInterestFilter
  trace : c.trace <+: c'.trace

theorem Stays.refl (c : Client) : Stays c c := ⟨rfl, rfl, fun _ => rfl, List.prefix_rfl⟩

theorem Stays.trans {c c' c'' : Client} (h : Stays c c') (h' : Stays c' c'') : Stays c c'' :=
  ⟨h'.length.trans h.length, h'.filters.trans h.filters, fun j => (h'.name j).trans (h.name j),
    h.trace.trans h'.trace⟩

theorem Minor.stays {c c' : Client} (h : Minor c c') : Stays c c' where
  length := h.length
  filters := h.filters
  name j := by
    obtain ⟨r, hr⟩ := h.session j
    rw [hr]
    rfl
  trace := by
    obtain ⟨new, hnew, -⟩ := h.trace
    exact ⟨new, hnew.symm⟩

theorem session_answered (c : Client) (k : ℕ) (name : Name) (n : UInt64) (j : ℕ) :
    (answered c k name n).session j = c.session j ∨
      j = k ∧ (answered c k name n).session j =
        ⟨(c.session k).options.setNonce2 n, (c.session k).data⟩ := by
  by_cases hj : j = k
  · subst hj
    by_cases hl : j < c.sessions.length
    · exact .inr ⟨rfl, (c.act (.fetched j name)).session_setOptions_self hl _⟩
    · left
      simp [answered, Client.setOptions, Client.session, Client.act, List.getD_eq_getElem?_getD, hl]
  · exact .inl ((c.act (.fetched k name)).session_setOptions_ne hj _)

theorem trace_answered (c : Client) (k : ℕ) (name : Name) (n : UInt64) :
    (answered c k name n).trace = c.trace ++ [.fetched k name,
      .submitted k (((c.session k).options.setNonce2 n).makeSubmission (c.session k).data)] := by
  simp [answered, Client.act, Client.setOptions]

theorem stays_answered (c : Client) (k : ℕ) (name : Name) (n : UInt64) :
    Stays c (answered c k name n) where
  length := (c.act (.fetched k name)).length_setOptions k _
  filters := rfl
  name j := by
    rcases session_answered c k name n j with he | ⟨rfl, he⟩
    · rw [he]
    · rw [he]
      rfl
  trace := ⟨_, (trace_answered c k name n).symm⟩

/-- The callback of a fetch only notes the fetch, or answers it too. -/
theorem onFetch_cases (c : Client) (k : ℕ) (name : Name) :
    (exec (onFetch k name) c).2 = c.act (.fetched k name) ∨
      ∃ n, lastNumber name = .ok n ∧ (exec (onFetch k name) c).2 = answered c k name n := by
  by_cases hz : 0 < (c.session k).options.nonce2
  · rw [exec_onFetch_matched k hz]
    exact .inl rfl
  · cases hn : lastNumber name with
    | error e =>
        rw [exec_onFetch_error k hz hn]
        exact .inl rfl
    | ok n =>
        rw [exec_onFetch_answers k hz hn]
        exact .inr ⟨n, rfl, rfl⟩

theorem stays_onFetch (c : Client) (k : ℕ) (name : Name) :
    Stays c (exec (onFetch k name) c).2 := by
  rcases onFetch_cases c k name with he | ⟨n, -, he⟩
  · rw [he]
    exact ⟨rfl, rfl, fun _ => rfl, List.prefix_append _ _⟩
  · rw [he]
    exact stays_answered c k name n

theorem stays_interest (c : Client) (name : Name) : Stays c (perform c (.interest name)) := by
  rw [perform_interest]
  apply fetches_invariant (I := Stays c)
  · exact fun f _ d hd => hd.trans (stays_onFetch d f.1 name)
  · exact Stays.refl c

theorem KeepsFilters.stays {c c' : Client} (h : KeepsFilters c) (hs : Stays c c') :
    KeepsFilters c' := by
  intro j hj hn
  rw [hs.length] at hj
  have hreg := h j hj fun ⟨ack, hack⟩ => hn ⟨ack, hs.trace.subset hack⟩
  rw [Registered, hs.name, hs.filters]
  exact hreg

theorem KeepsFilters.minor {c : Client} (h : KeepsFilters c) (hs : Sound c) (event : Event)
    (he : event.IsMinor) : KeepsFilters (perform c event) := h.stays (minor_perform hs event he).stays

theorem KeepsFilters.opened {c : Client} (h : KeepsFilters c) (topic : Name) (data : List Data)
    (nonce : UInt64) : KeepsFilters (opened c topic data nonce) := by
  intro j hj hn
  by_cases hj' : j = c.sessions.length
  · subst hj'
    rw [Registered, session_opened_self]
    exact List.mem_append_right _ (List.mem_singleton_self _)
  · rw [length_opened] at hj
    rw [Registered, session_opened_ne c topic data nonce hj']
    exact List.mem_append_left _ (h j (by omega) hn)

/-- A handler of notifications keeps the filters; a session's own acknowledgement
may cancel them if it is alone. -/
theorem keepsFilters_received {c : Client} (hs : Sound c) (h : KeepsFilters c) (p : Packet) :
    KeepsFilters (perform c (.received p)) ↔ Alone c (.received p) := by
  rw [perform_received]
  by_cases hnil : acknowledged c p = []
  · constructor
    · exact fun _ hne => absurd hnil hne
    · intro _
      apply h.stays
      rw [hnil]
      refine ⟨rfl, ?_, fun _ => rfl, ?_⟩
      · simp [ackAll]
      · simp [ackAll]
  · have hacked : ∀ j, Acked (ackAll { c with
        pending := c.pending.filter fun f => !f.2.matchesName p.name } (acknowledged c p) p) j ↔
        Acked c j ∨ ∃ f ∈ acknowledged c p, f.1 = j := by
      intro j
      simp only [Acked, ackAll, List.mem_append, List.mem_map, Action.acked.injEq]
      constructor
      · rintro ⟨ack, hack | ⟨f, hf, rfl, -⟩⟩
        · exact .inl ⟨ack, hack⟩
        · exact .inr ⟨f, hf, rfl⟩
      · rintro (⟨ack, hack⟩ | ⟨f, hf, rfl⟩)
        · exact ⟨ack, .inl hack⟩
        · exact ⟨p, .inr ⟨f, hf, rfl, rfl⟩⟩
    have hnone : ∀ j, ¬Registered (ackAll { c with
        pending := c.pending.filter fun f => !f.2.matchesName p.name } (acknowledged c p) p) j := by
      intro j hreg
      simp only [Registered, ackAll, if_neg hnil, Client.unregisterFilters] at hreg
      have hin := hs.handle _ (List.mem_of_mem_filter hreg)
      have hout := List.of_mem_filter hreg
      simp [hin] at hout
    constructor
    · intro hk _ j hj
      by_contra hnot
      exact hnone j (hk j hj fun ha => hnot ((hacked j).mp ha))
    · intro halone j hj hn
      exact absurd ((hacked j).mpr (halone hnil j hj)) hn

theorem keepsFilters_perform {c : Client} (hs : Sound c) (h : KeepsFilters c) (event : Event) :
    KeepsFilters (perform c event) ↔ Alone c event := by
  cases event with
  | received p => exact keepsFilters_received hs h p
  | append topic data nonce =>
      refine iff_of_true ?_ trivial
      rcases perform_append c topic data nonce with hp | hp
      · rw [hp]
        exact h
      · rw [hp]
        apply (h.opened topic data nonce).stays
        apply (minor_dispatch _ _).stays
        rw [length_opened]
        exact Nat.lt_succ_self _
  | interest name => exact iff_of_true (h.stays (stays_interest c name)) trivial
  | valid k => exact iff_of_true (h.minor hs (.valid k) trivial) trivial
  | invalid k info => exact iff_of_true (h.minor hs (.invalid k info) trivial) trivial
  | nack k => exact iff_of_true (h.minor hs (.nack k) trivial) trivial
  | timeout k => exact iff_of_true (h.minor hs (.timeout k) trivial) trivial

/-! ### The first fetch -/

/-- Callbacks that can read the second nonce all run, and every session that is not
matched answers. -/
theorem exec_fetches {name : Name} {n : UInt64} (hn : lastNumber name = .ok n)
    (l : List (ℕ × Name)) (c : Client) :
    ∃ c' new, exec (l.foldlM (fun _ f => onFetch f.1 name) ()) c = (.ok (), c') ∧
      c'.trace = c.trace ++ new ∧ ∀ j, (c.session j).options.nonce2 = 0 → (∃ f ∈ l, f.1 = j) →
        Action.submitted j (((c.session j).options.setNonce2 n).makeSubmission (c.session j).data) ∈
          new := by
  induction l generalizing c with
  | nil => exact ⟨c, [], rfl, by simp, by simp⟩
  | cons f l ih =>
      by_cases hz : 0 < (c.session f.1).options.nonce2
      · obtain ⟨c', new, hrun, htrace, hall⟩ := ih (c.act (.fetched f.1 name))
        refine ⟨c', .fetched f.1 name :: new, ?_, ?_, ?_⟩
        · rw [List.foldlM_cons, exec_bind_ok (exec_onFetch_matched f.1 hz)]
          exact hrun
        · rw [htrace, Client.act, List.append_assoc, List.singleton_append]
        · intro j hj hf
          obtain ⟨g, hg, rfl⟩ := hf
          rcases List.mem_cons.mp hg with rfl | hg
          · exact absurd hj (UInt64.pos_iff_ne_zero.mp hz)
          · exact List.mem_cons_of_mem _ (hall g.1 hj ⟨g, hg, rfl⟩)
      · obtain ⟨c', new, hrun, htrace, hall⟩ := ih (answered c f.1 name n)
        refine ⟨c', _, ?_, (htrace.trans (by rw [trace_answered, List.append_assoc])), ?_⟩
        · rw [List.foldlM_cons, exec_bind_ok (exec_onFetch_answers f.1 hz hn)]
          exact hrun
        · intro j hj hf
          by_cases hjf : j = f.1
          · subst hjf
            simp
          · obtain ⟨g, hg, rfl⟩ := hf
            have hsame : (answered c f.1 name n).session g.1 = c.session g.1 :=
              (c.act (.fetched f.1 name)).session_setOptions_ne hjf _
            have hin : g ∈ l := by
              rcases List.mem_cons.mp hg with rfl | hg
              · exact absurd rfl hjf
              · exact hg
            have hnew := hall g.1 (hsame ▸ hj) ⟨g, hin, rfl⟩
            rw [hsame] at hnew
            exact List.mem_append_right _ hnew

theorem answers_of_registered {c : Client} {j : ℕ} (h : Registered c j)
    (hz : (c.session j).options.nonce2 = 0) (n : UInt64) :
    Answers c (fetchName c j n) j
      (((c.session j).options.setNonce2 n).makeSubmission (c.session j).data) := by
  obtain ⟨c', new, hrun, htrace, hall⟩ :=
    exec_fetches (lastNumber_append (c.session j).options.makeInterestFilter n)
      (matching c (fetchName c j n)) c
  refine ⟨new, ?_, hall j hz ⟨_, List.mem_filter.mpr ⟨h, ?_⟩, rfl⟩⟩
  · rw [perform_interest]
    rw [fetchName_eq] at hrun ⊢
    rw [hrun]
    exact htrace
  · rw [List.isPrefixOf_iff_prefix, fetchName_eq]
    exact List.prefix_append _ _

/-- All that has reached the filters were fetches of their sessions. -/
def OwnFetches (c : Client) : Prop :=
  ∀ k name, Action.fetched k name ∈ c.trace → ∃ n, name = fetchName c k n

theorem OwnFetches.nonce2 {c : Client} (h : OwnFetches c) (hs : Sound c) {j : ℕ}
    (hu : Unfetched c j) : (c.session j).options.nonce2 = 0 := by
  apply (hs.nonce2 j).mpr
  intro n hn
  obtain ⟨a, ha, hna⟩ := List.mem_filterMap.mp hn
  cases a with
  | fetched k name =>
      by_cases hk : k = j
      · subst hk
        obtain ⟨m, rfl⟩ := h k name ha
        exact absurd ha (hu m)
      · simp [Action.fetchedNonce, hk] at hna
  | _ => simp [Action.fetchedNonce] at hna

theorem OwnFetches.extend {c c' : Client} (h : OwnFetches c) (hs : Sound c)
    (hname : ∀ j < c.sessions.length,
      (c'.session j).options.makeInterestFilter = (c.session j).options.makeInterestFilter)
    {new : List Action} (htrace : c'.trace = c.trace ++ new)
    (hnew : ∀ k name, Action.fetched k name ∈ new → ∃ n, name = fetchName c' k n) :
    OwnFetches c' := by
  intro k name hk
  rw [htrace] at hk
  rcases List.mem_append.mp hk with hk | hk
  · have hlt : k < c.sessions.length := hs.trace _ hk
    obtain ⟨n, hn⟩ := h k name hk
    refine ⟨n, ?_⟩
    rw [fetchName_eq, hname k hlt, ← fetchName_eq]
    exact hn
  · exact hnew k name hk

theorem OwnFetches.minor {c c' : Client} (h : OwnFetches c) (hs : Sound c) (hm : Minor c c') :
    OwnFetches c' := by
  obtain ⟨new, hnew, hall⟩ := hm.trace
  exact h.extend hs (fun j _ => hm.stays.name j) hnew fun k name hk => (hall _ hk).2.elim

theorem OwnFetches.interest {c : Client} (h : OwnFetches c) (hs : Sound c) {name : Name}
    (hsep : Separate c (.interest name)) : OwnFetches (perform c (.interest name)) := by
  rw [perform_interest]
  have hinv := fetches_invariant (I := fun d => Stays c d ∧ OwnFetches d) name
    (matching c name) ?_ ⟨Stays.refl c, h⟩
  · exact hinv.2
  · intro f hf d hd
    refine ⟨hd.1.trans (stays_onFetch d f.1 name), ?_⟩
    obtain ⟨hin, hpre⟩ := List.mem_filter.mp hf
    obtain ⟨n, hn⟩ := hsep f hin (List.isPrefixOf_iff_prefix.mp hpre)
    have hname : name = fetchName d f.1 n := by
      rw [fetchName_eq, hd.1.name, ← (hs.filters f hin).2]
      exact hn
    have hkeep : ∀ {d' : Client} {new : List Action}, Stays d d' → d'.trace = d.trace ++ new →
        (∀ k m, Action.fetched k m ∈ new → k = f.1 ∧ m = name) → OwnFetches d' := by
      intro d' new hst htrace hnew k m hk
      rw [htrace] at hk
      rcases List.mem_append.mp hk with hk | hk
      · obtain ⟨i, hi⟩ := hd.2 k m hk
        exact ⟨i, by rw [fetchName_eq, hst.name, ← fetchName_eq, hi]⟩
      · obtain ⟨rfl, rfl⟩ := hnew k m hk
        exact ⟨n, by rw [fetchName_eq, hst.name, ← fetchName_eq, ← hname]⟩
    have hst := stays_onFetch d f.1 name
    rcases onFetch_cases d f.1 name with he | ⟨i, -, he⟩
    · rw [he] at hst ⊢
      exact hkeep hst rfl fun k m hk => by simpa using hk
    · rw [he] at hst ⊢
      exact hkeep hst (trace_answered d f.1 name i) fun k m hk => by simpa using hk

theorem OwnFetches.perform {c : Client} (h : OwnFetches c) (hs : Sound c) {event : Event}
    (hsep : Separate c event) : OwnFetches (perform c event) := by
  cases event with
  | append topic data nonce =>
      rcases perform_append c topic data nonce with hp | hp
      · rw [hp]
        exact h
      · rw [hp]
        have hopened : OwnFetches (opened c topic data nonce) := by
          have htrace : (opened c topic data nonce).trace = c.trace ++ [] :=
            (List.append_nil _).symm
          refine h.extend hs (fun j hj => ?_) htrace (by simp)
          rw [session_opened_ne c topic data nonce hj.ne]
        apply hopened.minor (hs.opened topic data nonce)
        apply minor_dispatch
        rw [length_opened]
        exact Nat.lt_succ_self _
  | interest name => exact h.interest hs hsep
  | received p =>
      rw [perform_received]
      have htrace : (ackAll { c with pending := c.pending.filter fun f => !f.2.matchesName p.name }
          (acknowledged c p) p).trace =
          c.trace ++ (acknowledged c p).map fun f => Action.acked f.1 p := rfl
      refine h.extend hs (fun _ _ => rfl) htrace ?_
      intro k name hk
      obtain ⟨f, -, hf⟩ := List.mem_map.mp hk
      cases hf
  | valid k => exact h.minor hs (minor_perform hs (.valid k) trivial)
  | invalid k info => exact h.minor hs (minor_perform hs (.invalid k info) trivial)
  | nack k => exact h.minor hs (minor_perform hs (.nack k) trivial)
  | timeout k => exact h.minor hs (minor_perform hs (.timeout k) trivial)

/-- Every open session can be fetched from, and answers its first fetch. -/
def Served (c : Client) : Prop :=
  ∀ j < c.sessions.length, ¬Acked c j → Registered c j ∧
    (Unfetched c j → ∀ n, Answers c (fetchName c j n) j
      (((c.session j).options.setNonce2 n).makeSubmission (c.session j).data))

theorem keepsFilters_start (appenderPrefix : Name) : KeepsFilters (start appenderPrefix) := by
  intro j hj
  simp [start] at hj

/-- Every open session keeps its filter if and only if each acknowledgement comes
when no other session is open. Where besides only fetches of a session reach its
filter, an open session answers its first fetch. -/
theorem sessions_apart (appenderPrefix : Name) (events : List Event) :
    ((∀ before, before <+: events → KeepsFilters (after appenderPrefix before)) ↔
      Throughout perform Alone (start appenderPrefix) events) ∧
    (Throughout perform (fun c event => Alone c event ∧ Separate c event) (start appenderPrefix)
        events →
      ∀ before, before <+: events → Served (after appenderPrefix before)) := by
  have hiff : (∀ before, before <+: events → KeepsFilters (after appenderPrefix before)) ↔
      Throughout perform Alone (start appenderPrefix) events :=
    everywhere_iff (J := Sound) (I := KeepsFilters) (fun _ event hs => hs.perform event)
      (fun _ event hs h => keepsFilters_perform hs h event) (sound_start appenderPrefix)
      (keepsFilters_start appenderPrefix) events
  refine ⟨hiff, ?_⟩
  intro hall before hb j hj hopen
  have hkeeps := hiff.mpr (hall.mono fun _ _ h => h.1) before hb j hj hopen
  refine ⟨hkeeps, fun hu n => answers_of_registered hkeeps ?_ n⟩
  have hown : Sound (after appenderPrefix before) ∧ OwnFetches (after appenderPrefix before) := by
    apply Throughout.invariant (I := fun c => Sound c ∧ OwnFetches c) (P := Separate)
    · exact fun c event h hsep => ⟨h.1.perform event, h.2.perform h.1 hsep⟩
    · exact (hall.mono fun _ _ h => h.2).upTo hb
    · exact ⟨sound_start appenderPrefix, fun k name hk => by simp [start] at hk⟩
  exact hown.2.nonce2 hown.1 hu

end

section
open PlainNdn

local instance : NdnCxx := plainNdn sessionDigests

/-- The acknowledgement of a session. -/
def sessionAck (nonce : UInt64) : Packet :=
  .ofElements (sessionNotification nonce).name [statusBlock (code .SUCCESS)]

/-- Two sessions, and the acknowledgement of the first. -/
def ackedEarly : List Event :=
  [.append nameT [sessionData [1]] 7, .append nameT [sessionData [2]] 8, .received (sessionAck 7)]

theorem second_session_cut_off :
    let c := after nameA ackedEarly
    1 < c.sessions.length ∧ ¬Acked c 1 ∧ Unfetched c 1 ∧
      ∀ n submission, ¬Answers c (fetchName c 1 n) 1 submission := by
  intro c
  have hfilters : c.filters = [] := by decide
  have htrace : c.trace = [.notified 0 (sessionNotification 7), .notified 1 (sessionNotification 8),
      .acked 0 (sessionAck 7)] := rfl
  refine ⟨by decide, ?_, ?_, ?_⟩
  · rintro ⟨ack, hack⟩
    simp [htrace] at hack
  · intro n hn
    simp [htrace] at hn
  · rintro n submission ⟨new, hnew, hin⟩
    have hsame : perform c (.interest (fetchName c 1 n)) = c := by
      rw [perform_interest, matching, hfilters]
      rfl
    rw [hsame, List.self_eq_append_right] at hnew
    simp [hnew] at hin

/-- A session is acknowledged before the next is opened. -/
def ackedInTurn : List Event :=
  [.append nameT [sessionData [1]] 7, .received (sessionAck 7), .append nameT [sessionData [2]] 8]

theorem sessions_apart_in_turn : Served (after nameA ackedInTurn) := by
  refine (sessions_apart nameA ackedInTurn).2 ?_ ackedInTurn List.prefix_rfl
  refine ⟨⟨trivial, trivial⟩, ⟨?_, trivial⟩, ⟨trivial, trivial⟩, trivial⟩
  intro _ j hj
  have hj' : j = 0 := Nat.lt_one_iff.mp hj
  subst hj'
  exact .inr ⟨(0, sessionNotification 7), by decide, rfl⟩

end

end CertLedger.AppendClientRuns
