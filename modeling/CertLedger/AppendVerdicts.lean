import CertLedger.AppendClientRuns
import CertLedger.AppendLedgerRuns

/-!
# The verdicts of append sessions

A session tells its caller one verdict at most. For an acknowledgement that
conforms to the trust schema it is a success whatever the statuses are.
-/
namespace CertLedger.AppendVerdicts
open TlvCodec FallibleState NdnObjects NdnPackets AppendOptions EventRuns
open AppendClient AppendClientRuns

/-- Which of its two callbacks a session has called. -/
inductive Verdict where
  | onSuccess
  | onFailure
  deriving DecidableEq

/-- The verdict that the statuses call for. -/
def rule (statusList : List StatusCode) : Verdict :=
  if statusList.all (· == code .SUCCESS) then .onSuccess else .onFailure

theorem count_eraseP {α : Type} {entries : List (ℕ × α)} {k : ℕ} {a : α}
    (h : entries.lookup k = some a) (j : ℕ) :
    (entries.eraseP (·.1 == k)).countP (·.1 == j) + (if j = k then 1 else 0) =
      entries.countP (·.1 == j) := by
  induction entries with
  | nil => simp at h
  | cons f entries ih =>
      by_cases hk : f.1 = k
      · have he : (f :: entries).eraseP (·.1 == k) = entries :=
          List.eraseP_cons_of_pos (beq_iff_eq.mpr hk)
        rw [he, List.countP_cons, hk]
        by_cases hj : j = k
        · simp [hj]
        · simp [hj, Ne.symm hj]
      · have he : (f :: entries).eraseP (·.1 == k) = f :: entries.eraseP (·.1 == k) :=
          List.eraseP_cons_of_neg (by simpa using hk)
        have hl : entries.lookup k = some a := by
          have hne : (k == f.1) = false := by simpa using Ne.symm hk
          rw [List.lookup_cons, hne] at h
          exact h
        rw [he, List.countP_cons, List.countP_cons, ← ih hl]
        omega

section
variable [NdnCxx]

def verdict (j : ℕ) : Action → Option Verdict
  | .success k _ _ => if k = j then some .onSuccess else none
  | .failure k _ _ => if k = j then some .onFailure else none
  | _ => none

def verdicts (j : ℕ) (trace : List Action) : List Verdict := trace.filterMap (verdict j)

theorem verdicts_append (j : ℕ) (trace new : List Action) :
    verdicts j (trace ++ new) = verdicts j trace ++ verdicts j new := List.filterMap_append

/-- The verdicts of a session, given and still to come. -/
def tokens (c : Client) (j : ℕ) : ℕ :=
  c.pending.countP (·.1 == j) + c.validating.countP (·.1 == j) + (verdicts j c.trace).length

theorem tokens_eq_zero {c : Client} (h : Sound c) {j : ℕ} (hj : c.sessions.length ≤ j) :
    tokens c j = 0 := by
  have hp : c.pending.countP (·.1 == j) = 0 := by
    apply List.countP_eq_zero.mpr
    intro f hf he
    have hlt := h.pending f hf
    have : f.1 = j := beq_iff_eq.mp he
    omega
  have hv : c.validating.countP (·.1 == j) = 0 := by
    apply List.countP_eq_zero.mpr
    intro f hf he
    have hlt := h.validating f hf
    have : f.1 = j := beq_iff_eq.mp he
    omega
  have ht : verdicts j c.trace = [] := by
    apply List.filterMap_eq_nil_iff.mpr
    intro a ha
    have hlt := h.trace a ha
    have hne : a.session ≠ j := by omega
    cases a with
    | success => exact if_neg hne
    | failure => exact if_neg hne
    | _ => rfl
  rw [tokens, hp, hv, ht]
  rfl

theorem length_verdicts_single (a : Action) (j : ℕ) :
    (verdicts j [a]).length ≤ if j = a.session then 1 else 0 := by
  cases a with
  | success k data ack => by_cases h : k = j <;> simp [verdicts, verdict, Action.session, h, eq_comm]
  | failure k data e => by_cases h : k = j <;> simp [verdicts, verdict, Action.session, h, eq_comm]
  | _ => exact Nat.zero_le _

theorem tokens_act_le (c : Client) (a : Action) (j : ℕ) :
    tokens (c.act a) j ≤ tokens c j + if j = a.session then 1 else 0 := by
  have h := length_verdicts_single a j
  simp only [tokens, Client.act, verdicts_append, List.length_append]
  omega

theorem tokens_dispatch_le (c : Client) (k j : ℕ) :
    tokens (exec (dispatchNotification k) c).2 j ≤ tokens c j + if j = k then 1 else 0 := by
  rcases dispatch_cases c k with he | ⟨i, -, he⟩ | ⟨i, -, he⟩
  · rw [he]
    omega
  · rw [he]
    exact tokens_act_le (retried c k) _ j
  · rw [he]
    have hv : verdicts j (c.trace ++ [Action.notified k i]) = verdicts j c.trace :=
      (verdicts_append j _ _).trans (List.append_nil _)
    change (c.pending ++ [(k, i)]).countP (·.1 == j) + c.validating.countP (·.1 == j) +
      (verdicts j (c.trace ++ [Action.notified k i])).length ≤ _
    rw [hv, List.countP_append, tokens]
    by_cases hj : j = k
    · simp [hj]
      omega
    · simp [hj, Ne.symm hj]

/-- A handler that calls no callback and keeps what waits. -/
theorem tokens_eq_of_trace (c c' : Client) (hp : c'.pending = c.pending)
    (hv : c'.validating = c.validating) {new : List Action} (ht : c'.trace = c.trace ++ new) {j : ℕ}
    (hn : verdicts j new = []) : tokens c' j = tokens c j := by
  rw [tokens, hp, hv, ht, verdicts_append, hn, List.append_nil]
  rfl

theorem tokens_onFetch (c : Client) (k : ℕ) (name : Name) (j : ℕ) :
    tokens (exec (onFetch k name) c).2 j = tokens c j := by
  rcases onFetch_cases c k name with he | ⟨n, -, he⟩
  · rw [he]
    have ht : (c.act (.fetched k name)).trace = c.trace ++ [.fetched k name] := rfl
    exact tokens_eq_of_trace c (c.act (.fetched k name)) rfl rfl ht rfl
  · rw [he]
    exact tokens_eq_of_trace c (answered c k name n) rfl rfl (trace_answered c k name n) rfl

theorem tokens_interest (c : Client) (name : Name) (j : ℕ) :
    tokens (perform c (.interest name)) j = tokens c j := by
  rw [perform_interest]
  apply fetches_invariant (I := fun d => tokens d j = tokens c j)
  · exact fun f _ d hd => (tokens_onFetch d f.1 name j).trans hd
  · rfl

/-- An acknowledgement moves from the face to the validator. -/
theorem tokens_received (c : Client) (p : Packet) (j : ℕ) :
    tokens (perform c (.received p)) j = tokens c j := by
  have hv : verdicts j ((acknowledged c p).map fun f => Action.acked f.1 p) = [] := by
    apply List.filterMap_eq_nil_iff.mpr
    intro a ha
    obtain ⟨f, -, rfl⟩ := List.mem_map.mp ha
    rfl
  have hmap : ((acknowledged c p).map fun f => (f.1, p)).countP (·.1 == j) =
      (acknowledged c p).countP (·.1 == j) := List.countP_map
  have hsplit : ∀ l : List (ℕ × Interest),
      (l.filter fun f => !f.2.matchesName p.name).countP (·.1 == j) +
        (l.filter fun f => f.2.matchesName p.name).countP (·.1 == j) = l.countP (·.1 == j) := by
    intro l
    induction l with
    | nil => rfl
    | cons f l ih =>
        cases hm : f.2.matchesName p.name with
        | false =>
            simp only [List.filter_cons, hm, Bool.not_false, if_true, Bool.false_eq_true, if_false,
              List.countP_cons]
            omega
        | true =>
            simp only [List.filter_cons, hm, Bool.not_true, if_true, Bool.false_eq_true, if_false,
              List.countP_cons]
            omega
  rw [perform_received]
  change (c.pending.filter fun f => !f.2.matchesName p.name).countP (·.1 == j) +
    (c.validating ++ (acknowledged c p).map fun f => (f.1, p)).countP (·.1 == j) +
    (verdicts j (c.trace ++ (acknowledged c p).map fun f => Action.acked f.1 p)).length = _
  rw [verdicts_append, hv, List.append_nil, List.countP_append, hmap, tokens, ← hsplit c.pending,
    acknowledged]
  omega

/-- An entry that no longer waits frees a token. -/
theorem tokens_drop_pending (c : Client) {k : ℕ} {i : Interest} (h : c.pending.lookup k = some i)
    (j : ℕ) : tokens { c with pending := c.pending.eraseP (·.1 == k) } j +
      (if j = k then 1 else 0) = tokens c j := by
  have hcount := count_eraseP h j
  simp only [tokens]
  omega

theorem tokens_drop_validating (c : Client) {k : ℕ} {ack : Packet}
    (h : c.validating.lookup k = some ack) (j : ℕ) :
    tokens { c with validating := c.validating.eraseP (·.1 == k) } j +
      (if j = k then 1 else 0) = tokens c j := by
  have hcount := count_eraseP h j
  simp only [tokens]
  omega

/-- Verdicts, nacks and timeouts make no token. -/
theorem tokens_minor (c : Client) (event : Event) (he : event.IsMinor) (j : ℕ) :
    tokens (perform c event) j ≤ tokens c j := by
  cases event with
  | valid k =>
      rcases perform_valid c k with ⟨-, hp⟩ | ⟨ack, hl, ⟨e, -, hp⟩ | ⟨statusList, -, hp⟩⟩
      · rw [hp]
      · rw [hp, ← tokens_drop_validating c hl j]
        exact Nat.le_add_right _ _
      · rw [hp, ← tokens_drop_validating c hl j]
        exact tokens_act_le _ (.success k _ ack) j
  | invalid k info =>
      rcases perform_invalid c k info with ⟨-, hp⟩ | ⟨ack, hl, hp⟩
      · rw [hp]
      · rw [hp, ← tokens_drop_validating c hl j]
        exact tokens_act_le _ (.failure k _ _) j
  | nack k =>
      rcases perform_nack c k with ⟨-, hp⟩ | ⟨i, hl, hp⟩
      · rw [hp]
      · rw [hp, ← tokens_drop_pending c hl j]
        exact tokens_act_le _ (.failure k _ _) j
  | timeout k =>
      rcases perform_timeout c k with ⟨-, hp⟩ | ⟨i, hl, hp⟩
      · rw [hp]
      · rw [hp, ← tokens_drop_pending c hl j]
        exact tokens_dispatch_le _ k j
  | append => exact he.elim
  | interest => exact he.elim
  | received => exact he.elim

theorem tokens_perform_le {c : Client} (h : Sound c) (ht : ∀ j, tokens c j ≤ 1) (event : Event)
    (j : ℕ) : tokens (perform c event) j ≤ 1 := by
  cases event with
  | append topic data nonce =>
      rcases perform_append c topic data nonce with hp | hp
      · rw [hp]
        exact ht j
      · rw [hp]
        have hd := tokens_dispatch_le (opened c topic data nonce) c.sessions.length j
        have hsame : tokens (opened c topic data nonce) j = tokens c j := rfl
        rw [hsame] at hd
        by_cases hj : j = c.sessions.length
        · rw [if_pos hj, tokens_eq_zero h hj.ge] at hd
          exact hd
        · rw [if_neg hj] at hd
          exact hd.trans (ht j)
  | interest name =>
      rw [tokens_interest]
      exact ht j
  | received p =>
      rw [tokens_received]
      exact ht j
  | valid k => exact (tokens_minor c (.valid k) trivial j).trans (ht j)
  | invalid k info => exact (tokens_minor c (.invalid k info) trivial j).trans (ht j)
  | nack k => exact (tokens_minor c (.nack k) trivial j).trans (ht j)
  | timeout k => exact (tokens_minor c (.timeout k) trivial j).trans (ht j)

theorem tokens_after_le (appenderPrefix : Name) (events : List Event) (j : ℕ) :
    tokens (after appenderPrefix events) j ≤ 1 := by
  have h : Sound (after appenderPrefix events) ∧ ∀ j, tokens (after appenderPrefix events) j ≤ 1 := by
    apply foldl_invariant (I := fun c => Sound c ∧ ∀ j, tokens c j ≤ 1)
    · exact fun c event hc => ⟨hc.1.perform event, tokens_perform_le hc.1 hc.2 event⟩
    · exact ⟨sound_start appenderPrefix, fun j => Nat.zero_le 1⟩
  exact h.2 j

theorem after_append (appenderPrefix : Name) (events rest : List Event) :
    after appenderPrefix (events ++ rest) = rest.foldl perform (after appenderPrefix events) :=
  List.foldl_append

theorem trace_perform (c : Client) (event : Event) (h : Sound c) :
    c.trace <+: (perform c event).trace := by
  cases event with
  | append topic data nonce =>
      rcases perform_append c topic data nonce with hp | hp
      · rw [hp]
      · rw [hp]
        have hk : c.sessions.length < (opened c topic data nonce).sessions.length := by
          rw [length_opened]
          exact Nat.lt_succ_self _
        exact (minor_dispatch (opened c topic data nonce) hk).stays.trace
  | interest name => exact (stays_interest c name).trace
  | received p =>
      rw [perform_received]
      exact List.prefix_append c.trace ((acknowledged c p).map fun f => .acked f.1 p)
  | valid k => exact (minor_perform h (.valid k) trivial).stays.trace
  | invalid k info => exact (minor_perform h (.invalid k info) trivial).stays.trace
  | nack k => exact (minor_perform h (.nack k) trivial).stays.trace
  | timeout k => exact (minor_perform h (.timeout k) trivial).stays.trace

/-- Once a session has told its verdict, it tells no other. -/
theorem verdicts_fixed (appenderPrefix : Name) (events rest : List Event) {j : ℕ} {v : Verdict}
    (h : v ∈ verdicts j (after appenderPrefix events).trace) :
    verdicts j (after appenderPrefix (events ++ rest)).trace = [v] := by
  have hkept : Sound (after appenderPrefix (events ++ rest)) ∧
      v ∈ verdicts j (after appenderPrefix (events ++ rest)).trace := by
    rw [after_append]
    apply foldl_invariant (I := fun c => Sound c ∧ v ∈ verdicts j c.trace)
    · intro c event hc
      obtain ⟨new, hnew⟩ := trace_perform c event hc.1
      refine ⟨hc.1.perform event, ?_⟩
      rw [← hnew, verdicts_append]
      exact List.mem_append_left _ hc.2
    · exact ⟨sound_after appenderPrefix events, h⟩
  have hle := tokens_after_le appenderPrefix (events ++ rest) j
  obtain ⟨w, hw⟩ : ∃ w, verdicts j (after appenderPrefix (events ++ rest)).trace = [w] := by
    apply List.length_eq_one_iff.mp
    have hpos := List.length_pos_of_mem hkept.2
    rw [tokens] at hle
    omega
  rw [hw] at hkept ⊢
  rw [List.mem_singleton.mp hkept.2]

/-- The verdict on an acknowledgement of a ledger is the one its statuses call for if
and only if all of them are a success. -/
theorem verdict_matches_iff {σ : Type} (onUpdate : Data → Program PacketError σ StatusCode)
    (topic : Name) (world : σ) (served : List AppendLedger.Event) (chain : ℕ) (ack : Packet)
    (hack : .ack chain ack ∈ (AppendLedgerRuns.after onUpdate topic world served).trace)
    (appenderPrefix : Name) (events : List Event) (j : ℕ)
    (hv : (after appenderPrefix events).validating.lookup j = some ack) :
    ∃ statusList, AppendLedgerRuns.Concluded onUpdate statusList ∧
      praseAck ack = .ok statusList ∧
      ∀ rest, verdicts j (after appenderPrefix (events ++ .valid j :: rest)).trace =
          [rule statusList] ↔ ∀ status ∈ statusList, status = code .SUCCESS := by
  obtain ⟨statusList, hs, hread⟩ := AppendLedgerRuns.acks_concluded onUpdate hack
  refine ⟨statusList, hs, hread, fun rest => ?_⟩
  have hvalid : Verdict.onSuccess ∈ verdicts j
      (after appenderPrefix (events ++ [.valid j])).trace := by
    rw [after_append]
    change _ ∈ verdicts j (perform (after appenderPrefix events) (.valid j)).trace
    rcases perform_valid (after appenderPrefix events) j with ⟨hn, -⟩ | ⟨a, ha, hcase⟩
    · simp [hn] at hv
    · obtain rfl := Option.some.inj (ha.symm.trans hv)
      rcases hcase with ⟨e, he, -⟩ | ⟨_, -, hp⟩
      · simp [hread] at he
      · rw [hp, Client.act, verdicts_append]
        simp [verdicts, verdict]
  have hall := verdicts_fixed appenderPrefix (events ++ [.valid j]) rest hvalid
  rw [List.append_assoc, List.singleton_append] at hall
  rw [hall, List.cons.injEq, eq_self, and_true, rule]
  have hsuccesses : statusList.all (· == code .SUCCESS) = true ↔
      ∀ status ∈ statusList, status = code .SUCCESS := by simp [List.all_eq_true]
  split_ifs with hsuccess
  · exact iff_of_true rfl (hsuccesses.mp hsuccess)
  · exact iff_of_false (fun he => by cases he) (hsuccesses.not.mp hsuccess)

end

section
open PlainNdn

local instance : NdnCxx := plainNdn sessionDigests

/-- A ledger serves one session, and its callback returns a status. -/
def servedLedger (status : StatusCode) : AppendLedger.Ledger Unit :=
  AppendLedgerRuns.after (fun _ => pure status) nameT () [
    .notification (sessionNotification 7) 1 2,
    .data (((sessionOptions 7).setNonce2 2).makeSubmission [sessionData [1]]),
    .valid 0]

def statusAck (status : StatusCode) : Packet :=
  .ofElements (sessionNotification 7).name [statusBlock status]

/-- The session up to the acknowledgement. -/
def ackedSession (status : StatusCode) : List Event :=
  [.append nameT [sessionData [1]] 7, .received (statusAck status)]

theorem verdict_matches_session :
    ∃ statusList, praseAck (statusAck (code .SUCCESS)) = .ok statusList ∧
      (verdicts 0 (after nameA (ackedSession (code .SUCCESS) ++ [.valid 0])).trace =
        [rule statusList] ↔ ∀ status ∈ statusList, status = code .SUCCESS) := by
  have hack : .ack 0 (statusAck (code .SUCCESS)) ∈ (servedLedger (code .SUCCESS)).trace := by
    decide +kernel
  obtain ⟨statusList, -, hread, hall⟩ := verdict_matches_iff (fun _ => pure (code .SUCCESS)) nameT ()
    _ 0 (statusAck (code .SUCCESS)) hack nameA (ackedSession (code .SUCCESS)) 0 (by decide +kernel)
  exact ⟨statusList, hread, hall []⟩

/-- The ledger could not store the Data, and the caller is told that it has. -/
theorem failure_told_as_success :
    let ack := statusAck (code .FAILURE_STORAGE)
    .ack 0 ack ∈ (servedLedger (code .FAILURE_STORAGE)).trace ∧
      praseAck ack = .ok [code .FAILURE_STORAGE] ∧ rule [code .FAILURE_STORAGE] = .onFailure ∧
      verdicts 0 (after nameA (ackedSession (code .FAILURE_STORAGE) ++ [.valid 0])).trace =
        [.onSuccess] := by
  have hread := praseAck_ofElements (sessionNotification 7).name [code .FAILURE_STORAGE]
  exact ⟨by decide +kernel, hread, by decide, by decide +kernel⟩

end
end CertLedger.AppendVerdicts
