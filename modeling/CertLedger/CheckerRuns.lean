import CertLedger.EventRuns
import CertLedger.PlainNdn
import CertLedger.RecordChecker
import CertLedger.SinglePipe

/-!
# Checks in turn

All checks of a checker share one pipeline, which nothing sets back. A check that
fetches segments is told what a fresh checker would tell only if no check before it
has fetched any.
-/
namespace CertLedger.CheckerRuns
open TlvCodec FallibleState NdnObjects NdnPackets SegmentPipeline SinglePipe RecordChecker EventRuns
open PlainNdn

theorem singleton_of_getElem? {α : Type} {l : List α} {k : ℕ} {a : α} (h : l[k]? = some a)
    (hl : l.length ≤ 1) : l = [a] ∧ k = 0 := by
  obtain ⟨hk, hget⟩ := List.getElem?_eq_some_iff.mp h
  obtain ⟨b, rfl⟩ := List.length_eq_one_iff.mp (by omega : l.length = 1)
  obtain rfl : k = 0 := by simpa using hk
  exact ⟨congrArg (fun x => [x]) hget, rfl⟩

section
variable [NdnCxx]

/-! ## What a response does outside the pipeline -/

/-- The Interests and answers that are left, what is told, and the transfer that starts. -/
structure Turn where
  pending : List Expressed
  validating : List (CheckerState × Packet)
  reports : List Report := []
  start : Option (CheckerState × Name) := none

def failed (state : CheckerState) (error : Failure) : List Report :=
  [.failure state.callbacks state.data error]

/-- An answer on which the validator has decided. -/
def judged (pending : List Expressed) (validating : List (CheckerState × Packet))
    (state : CheckerState) (data : Packet) : Option String → Turn
  | none =>
      if isRecordName data.name then
        { pending := pending, validating := validating, start := some (state, data.name.dropLast) }
      else if isValidNackName data.name then
        ⟨pending, validating, failed state (.applicationNack data.name), none⟩
      else ⟨pending, validating, failed state .format, none⟩
  | some info => ⟨pending, validating, failed state (.validation info), none⟩

/-- The Interest is expressed again, or the check is given up. -/
def redispatched (pending : List Expressed) (validating : List (CheckerState × Packet))
    (state : CheckerState) (ledgerPrefix : Name) : Turn :=
  if state.exhaustRetries.1 then ⟨pending, validating, failed state .timeout, none⟩
  else match state.exhaustRetries.2.makeInterest ledgerPrefix with
    | some interest =>
        ⟨pending ++ [⟨state.exhaustRetries.2, ledgerPrefix, interest⟩], validating, [], none⟩
    | none => ⟨pending, validating, [], none⟩

def turn (pending : List Expressed) (validating : List (CheckerState × Packet)) : Response → Turn
  | .answer k p v =>
      match pending[k]? with
      | some e =>
          if e.interest.matchesName p.name then
            match v with
            | .valid => judged (pending.eraseIdx k) validating e.state p none
            | .invalid info => judged (pending.eraseIdx k) validating e.state p (some info)
            | .later => ⟨pending.eraseIdx k, validating ++ [(e.state, p)], [], none⟩
          else ⟨pending, validating, [], none⟩
      | none => ⟨pending, validating, [], none⟩
  | .nack k =>
      match pending[k]? with
      | some e => ⟨pending.eraseIdx k, validating, failed e.state (.nack e.interest.name), none⟩
      | none => ⟨pending, validating, [], none⟩
  | .timeout k =>
      match pending[k]? with
      | some e => redispatched (pending.eraseIdx k) validating e.state e.ledgerPrefix
      | none => ⟨pending, validating, [], none⟩
  | .verdict k refused =>
      match validating[k]? with
      | some v => judged pending (validating.eraseIdx k) v.1 v.2 refused
      | none => ⟨pending, validating, [], none⟩
  | .segment _ _ => ⟨pending, validating, [], none⟩

namespace Turn

/-- The checker once the reports are made. -/
def told (turn : Turn) (c : Checker) : Checker := { c with
  pending := turn.pending
  validating := turn.validating
  transfer := { c.transfer with world := c.transfer.world ++ turn.reports } }

def perform (turn : Turn) (c : Checker) : Checker :=
  match turn.start with
  | some start => { turn.told c with
      checked := some start.1
      transfer := (exec (Consumer.run {} start.2) (turn.told c).transfer).2 }
  | none => turn.told c

end Turn

theorem exec_onTransfer {α : Type} (x : TransferM (List Report) α) (c : Checker) :
    exec (onTransfer x) c = ((exec x c.transfer).1, { c with transfer := (exec x c.transfer).2 }) :=
  rfl

theorem exec_fail (state : CheckerState) (error : Failure) (c : Checker) :
    exec (fail state error) c = (.ok (), { c with
      transfer := { c.transfer with world := c.transfer.world ++ failed state error } }) := rfl

theorem told_nil (c : Checker) : Turn.told ⟨c.pending, c.validating, [], none⟩ c = c := by
  rw [Turn.told, List.append_nil]

theorem exec_onVerdict (state : CheckerState) (data : Packet) (refused : Option String)
    (c : Checker) :
    (exec (onVerdict state data refused) c).2 =
      (judged c.pending c.validating state data refused).perform c := by
  cases refused with
  | none =>
      simp only [onVerdict, RecordChecker.onValidationSuccess, judged]
      split_ifs
      · rw [exec_bind_ok (exec_modify _ c), exec_onTransfer]
        simp only [Turn.perform, Turn.told, List.append_nil]
      · rfl
      · rfl
  | some info => rfl

theorem exec_dispatchInterest (state : CheckerState) (ledgerPrefix : Name) (c : Checker) :
    (exec (dispatchInterest state ledgerPrefix) c).2 =
      (redispatched c.pending c.validating state ledgerPrefix).perform c := by
  simp only [dispatchInterest, redispatched]
  split_ifs
  · rfl
  · cases state.exhaustRetries.2.makeInterest ledgerPrefix with
    | none => exact (told_nil c).symm
    | some interest =>
        rw [exec_bind_ok (exec_ofOption_some interest c), exec_modify]
        simp only [Turn.perform, Turn.told, List.append_nil]

/-- A response that is not about segments. -/
theorem respond_eq (c : Checker) {r : Response} (hr : ∀ e inner, r ≠ .segment e inner) :
    respond c r = (turn c.pending c.validating r).perform c := by
  cases r with
  | answer k p v =>
      rw [respond, Response.handle, exec_bind_ok (exec_get c), turn]
      cases hk : c.pending[k]? with
      | none => exact (told_nil c).symm
      | some e =>
          dsimp only
          split_ifs
          · rw [exec_bind_ok (exec_set _ c)]
            cases v with
            | valid => exact exec_onVerdict e.state p none { c with pending := c.pending.eraseIdx k }
            | invalid info =>
                exact exec_onVerdict e.state p (some info) { c with pending := c.pending.eraseIdx k }
            | later => simp only [exec_modify, Turn.perform, Turn.told, List.append_nil]
          · exact (told_nil c).symm
  | nack k =>
      rw [respond, Response.handle, exec_bind_ok (exec_get c), turn]
      cases hk : c.pending[k]? with
      | none => exact (told_nil c).symm
      | some e =>
          dsimp only
          rw [exec_bind_ok (exec_set _ c), exec_fail]
          rfl
  | timeout k =>
      rw [respond, Response.handle, exec_bind_ok (exec_get c), turn]
      cases hk : c.pending[k]? with
      | none => exact (told_nil c).symm
      | some e =>
          dsimp only
          rw [exec_bind_ok (exec_set _ c)]
          exact exec_dispatchInterest e.state e.ledgerPrefix { c with pending := c.pending.eraseIdx k }
  | verdict k refused =>
      rw [respond, Response.handle, exec_bind_ok (exec_get c), turn]
      cases hk : c.validating[k]? with
      | none => exact (told_nil c).symm
      | some v =>
          dsimp only
          rw [exec_bind_ok (exec_set _ c)]
          exact exec_onVerdict v.1 v.2 refused { c with validating := c.validating.eraseIdx k }
  | segment e inner => exact absurd rfl (hr e inner)

theorem respond_segment (c : Checker) (e : Event) (inner : ℕ → Option String) :
    respond c (.segment e inner) =
      { c with transfer := (exec (e.handle {} (finishCb inner c.checked)) c.transfer).2 } := by
  rw [respond, Response.handle, exec_bind_ok (exec_get c)]
  rfl

/-! ## One check at a time -/

def callbacksOf : Report → ℕ
  | .success callbacks _ _ => callbacks
  | .failure callbacks _ _ => callbacks

def reportsOf (n : ℕ) (reports : List Report) : List Report :=
  reports.filter fun report => callbacksOf report == n

theorem reportsOf_append (n : ℕ) (reports new : List Report) :
    reportsOf n (reports ++ new) = reportsOf n reports ++ reportsOf n new := List.filter_append ..

/-- One Interest or answer at most is on its way, and it is for check `n`. -/
structure Owned (n : ℕ) (pending : List Expressed) (validating : List (CheckerState × Packet)) :
    Prop where
  single : pending.length + validating.length ≤ 1
  pending : ∀ e ∈ pending, e.state.callbacks = n
  validating : ∀ v ∈ validating, v.1.callbacks = n

/-- A turn of check `n`. With a report or a transfer nothing is left on its way. -/
structure Turned (n : ℕ) (turn : Turn) : Prop where
  owned : Owned n turn.pending turn.validating
  start : ∀ start ∈ turn.start, start.1.callbacks = n ∧ turn.reports = []
  settled : turn.reports ≠ [] ∨ turn.start ≠ none → turn.pending = [] ∧ turn.validating = []

theorem owned_nil (n : ℕ) : Owned n [] [] := ⟨Nat.zero_le _, by simp, by simp⟩

theorem turned_reported (n : ℕ) (reports : List Report) : Turned n ⟨[], [], reports, none⟩ :=
  ⟨owned_nil n, by simp, fun _ => ⟨rfl, rfl⟩⟩

theorem turned_same {n : ℕ} {pending : List Expressed} {validating : List (CheckerState × Packet)}
    (h : Owned n pending validating) : Turned n ⟨pending, validating, [], none⟩ :=
  ⟨h, by simp, by simp⟩

variable {n : ℕ} {state : CheckerState}

theorem turned_judged (hs : state.callbacks = n) (data : Packet) (refused : Option String) :
    Turned n (judged [] [] state data refused) := by
  cases refused with
  | none =>
      simp only [judged]
      split_ifs
      · refine ⟨owned_nil n, ?_, fun _ => ⟨rfl, rfl⟩⟩
        intro start hstart
        obtain rfl := Option.mem_some.mp hstart
        exact ⟨hs, rfl⟩
      · exact turned_reported n _
      · exact turned_reported n _
  | some info => exact turned_reported n _

theorem turned_redispatched (state : CheckerState) (ledgerPrefix : Name) :
    Turned state.callbacks (redispatched [] [] state ledgerPrefix) := by
  rw [redispatched]
  split_ifs
  · exact turned_reported _ _
  · cases state.exhaustRetries.2.makeInterest ledgerPrefix with
    | none => exact turned_reported _ _
    | some interest =>
        refine turned_same ⟨le_rfl, ?_, by simp⟩
        intro e he
        rw [List.mem_singleton.mp he]
        rfl

theorem Owned.of_pending {pending : List Expressed} {validating : List (CheckerState × Packet)}
    (h : Owned n pending validating) {k : ℕ} {e : Expressed} (hk : pending[k]? = some e) :
    pending = [e] ∧ k = 0 ∧ validating = [] := by
  have hsingle := h.single
  obtain ⟨rfl, rfl⟩ := singleton_of_getElem? hk (by omega)
  rw [List.length_singleton] at hsingle
  exact ⟨rfl, rfl, List.eq_nil_of_length_eq_zero (by omega)⟩

theorem Owned.of_validating {pending : List Expressed}
    {validating : List (CheckerState × Packet)} (h : Owned n pending validating) {k : ℕ}
    {v : CheckerState × Packet} (hk : validating[k]? = some v) :
    validating = [v] ∧ k = 0 ∧ pending = [] := by
  have hsingle := h.single
  obtain ⟨rfl, rfl⟩ := singleton_of_getElem? hk (by omega)
  rw [List.length_singleton] at hsingle
  exact ⟨rfl, rfl, List.eq_nil_of_length_eq_zero (by omega)⟩

/-- What a response comes to where one Interest or answer at most is on its way. -/
inductive Comes (pending : List Expressed) (validating : List (CheckerState × Packet))
    (r : Response) : Turn → Prop
  | same : Comes pending validating r ⟨pending, validating, [], none⟩
  /-- The validator holds the answer. -/
  | held {e : Expressed} {p : Packet} (hpending : pending = [e]) (hvalidating : validating = [])
      (hmatch : e.interest.matchesName p.name = true) :
      Comes pending validating r ⟨[], [(e.state, p)], [], none⟩
  | answered {e : Expressed} {p : Packet} {refused : Option String} (hpending : pending = [e])
      (hvalidating : validating = []) (hmatch : e.interest.matchesName p.name = true)
      (hr : refused = none → r = .answer 0 p .valid) :
      Comes pending validating r (judged [] [] e.state p refused)
  | nacked {e : Expressed} (hpending : pending = [e]) (hvalidating : validating = []) :
      Comes pending validating r ⟨[], [], failed e.state (.nack e.interest.name), none⟩
  | timedOut {e : Expressed} (hpending : pending = [e]) (hvalidating : validating = []) :
      Comes pending validating r (redispatched [] [] e.state e.ledgerPrefix)
  | decided {v : CheckerState × Packet} {refused : Option String} (hpending : pending = [])
      (hvalidating : validating = [v]) (hr : r = .verdict 0 refused) :
      Comes pending validating r (judged [] [] v.1 v.2 refused)

theorem comes_turn {pending : List Expressed} {validating : List (CheckerState × Packet)}
    (h : Owned n pending validating) (r : Response) :
    Comes pending validating r (turn pending validating r) := by
  cases r with
  | answer k p v =>
      rw [turn]
      cases hk : pending[k]? with
      | none => exact .same
      | some e =>
          obtain ⟨rfl, rfl, rfl⟩ := h.of_pending hk
          dsimp only
          split_ifs with hmatch
          · cases v with
            | valid => exact .answered rfl rfl hmatch fun _ => rfl
            | invalid info => exact .answered rfl rfl hmatch fun hnone => by cases hnone
            | later => exact .held rfl rfl hmatch
          · exact .same
  | nack k =>
      rw [turn]
      cases hk : pending[k]? with
      | none => exact .same
      | some e =>
          obtain ⟨rfl, rfl, rfl⟩ := h.of_pending hk
          exact .nacked rfl rfl
  | timeout k =>
      rw [turn]
      cases hk : pending[k]? with
      | none => exact .same
      | some e =>
          obtain ⟨rfl, rfl, rfl⟩ := h.of_pending hk
          exact .timedOut rfl rfl
  | verdict k refused =>
      rw [turn]
      cases hk : validating[k]? with
      | none => exact .same
      | some v =>
          obtain ⟨rfl, rfl, rfl⟩ := h.of_validating hk
          exact .decided rfl rfl rfl
  | segment e inner => exact .same

theorem turned_turn {pending : List Expressed} {validating : List (CheckerState × Packet)}
    (h : Owned n pending validating) (r : Response) : Turned n (turn pending validating r) := by
  have hcomes := comes_turn h r
  generalize turn pending validating r = t at hcomes
  cases hcomes with
  | same => exact turned_same h
  | @held e p hpending =>
      refine turned_same ⟨le_rfl, by simp, ?_⟩
      simpa using h.pending e (by simp [hpending])
  | @answered e p refused hpending =>
      exact turned_judged (h.pending e (by simp [hpending])) p refused
  | nacked => exact turned_reported n _
  | @timedOut e hpending =>
      exact h.pending e (by simp [hpending]) ▸ turned_redispatched e.state e.ledgerPrefix
  | @decided v refused _ hvalidating =>
      exact turned_judged (h.validating v (by simp [hvalidating])) v.2 refused

/-- With nothing on its way a response comes to nothing. -/
theorem turn_nil (r : Response) : turn [] [] r = ⟨[], [], [], none⟩ := by
  cases r <;> rfl

/-! ### The finish callback -/

theorem stays_tell (report : Report) (hr : callbacksOf report ≠ n) (reports : List Report) :
    Stays (fun world => reportsOf n world = reports) (tell report) := by
  intro world hworld
  have hnone : reportsOf n [report] = [] := by simp [reportsOf, hr]
  change reportsOf n (world ++ [report]) = reports
  rw [reportsOf_append, hnone, List.append_nil, hworld]

/-- The callback of one check tells nothing to the caller of another. -/
theorem stays_finishCb {checked : Option CheckerState} (h : ∀ state ∈ checked, state.callbacks ≠ n)
    (inner : ℕ → Option String) (block : Block) (reports : List Report) :
    Stays (fun world => reportsOf n world = reports) (finishCb inner checked block) := by
  cases checked with
  | none => exact Stays.pure ()
  | some state =>
      have hne := h state rfl
      refine Stays.bind (fun _ h => h) fun dataVector => ?_
      apply stays_validateFrom
      · exact stays_tell (.success state.callbacks state.data block) hne reports
      · intro info
        exact stays_tell (.failure state.callbacks state.data (.validation info)) hne reports

/-! ### The stages of a check -/

/-- No transfer has been started for check `n`. -/
structure Ahead (n : ℕ) (c : Checker) : Prop where
  owned : Owned n c.pending c.validating
  silent : c.pending ≠ [] ∨ c.validating ≠ [] → reportsOf n c.transfer.world = []
  fetches : fetches c.transfer.trace = []

/-- The pipeline has never been run. -/
structure Fresh (n : ℕ) (c : Checker) : Prop where
  ahead : Ahead n c
  checked : c.checked = none
  pipeline : c.transfer.pipeline = .new {}
  consumer : c.transfer.consumer = {}

/-- The pipeline has done its work for an earlier check. -/
structure Late (n : ℕ) (c : Checker) : Prop where
  ahead : Ahead n c
  checked : ∀ state ∈ c.checked, state.callbacks < n
  spent : Spent c.transfer.pipeline

/-- The transfer for check `n` has come to nothing. -/
structure Dead (n : ℕ) (c : Checker) : Prop where
  pending : c.pending = []
  validating : c.validating = []
  idle : Idle c.transfer.pipeline
  consumer : c.transfer.consumer.validating = []
  silent : reportsOf n c.transfer.world = []
  fetches : fetches c.transfer.trace = []

/-- Segments are fetched for check `n`. -/
structure Live (n : ℕ) (c : Checker) : Prop where
  pending : c.pending = []
  validating : c.validating = []
  checked : ∀ state ∈ c.checked, state.callbacks ≤ n
  steady : Steady (fun world => reportsOf n world = []) c.transfer

/-- The response starts a transfer whose first segment can be asked for. -/
def Asks (c : Checker) (r : Response) : Prop :=
  (turn c.pending c.validating r).start.any
    (fun start => (Interest.ofName (start.2 ++ [fromSegment 0])).isSome) = true

instance (c : Checker) (r : Response) : Decidable (Asks c r) := inferInstanceAs (Decidable (_ = _))

section
variable {c f : Checker}

theorem respond_segment_empty (h : Idle c.transfer.pipeline)
    (hv : c.transfer.consumer.validating = []) (e : Event) (inner : ℕ → Option String) :
    respond c (.segment e inner) = c := by
  have hnothing : exec (e.handle {} (finishCb inner c.checked)) c.transfer = (.ok (), c.transfer) := by
    cases e with
    | verdict k refused =>
        rw [Event.handle, Consumer.verdict, exec_bind_ok (exec_get _), hv]
        rfl
    | data p v => exact h.handle _ _ (by simp)
    | nack pipeNo reason => exact h.handle _ _ (by simp)
    | timeout pipeNo => exact h.handle _ _ (by simp)
    | backoff pipeNo => exact h.handle _ _ (by simp)
  rw [respond_segment, hnothing]

theorem respond_nothing_left (hp : c.pending = []) (hv : c.validating = []) {r : Response}
    (hr : ∀ e inner, r ≠ .segment e inner) : respond c r = c := by
  have hsame := told_nil c
  rw [hp, hv] at hsame
  rw [respond_eq c hr, hp, hv, turn_nil]
  exact hsame

theorem Dead.responded (h : Dead n c) (r : Response) : respond c r = c := by
  cases r with
  | segment e inner => exact respond_segment_empty h.idle h.consumer e inner
  | answer k p v => exact respond_nothing_left h.pending h.validating (by simp)
  | nack k => exact respond_nothing_left h.pending h.validating (by simp)
  | timeout k => exact respond_nothing_left h.pending h.validating (by simp)
  | verdict k refused => exact respond_nothing_left h.pending h.validating (by simp)

theorem Live.responded (h : Live n c) (r : Response) : Live n (respond c r) := by
  cases r with
  | segment e inner =>
      rw [respond_segment]
      exact ⟨h.pending, h.validating, h.checked, h.steady.handle _ e⟩
  | answer k p v => rwa [respond_nothing_left h.pending h.validating (by simp)]
  | nack k => rwa [respond_nothing_left h.pending h.validating (by simp)]
  | timeout k => rwa [respond_nothing_left h.pending h.validating (by simp)]
  | verdict k refused => rwa [respond_nothing_left h.pending h.validating (by simp)]

theorem Ahead.told (h : Ahead n c) {t : Turn} (ht : Turned n t)
    (hsilent : t.pending ≠ [] ∨ t.validating ≠ [] → reportsOf n c.transfer.world = []) :
    Ahead n (t.told c) := by
  refine ⟨ht.owned, ?_, h.fetches⟩
  intro hleft
  have hnone : t.reports = [] := by
    by_contra hreports
    obtain ⟨hp, hv⟩ := ht.settled (.inl hreports)
    simp [Turn.told, hp, hv] at hleft
  change reportsOf n (c.transfer.world ++ t.reports) = []
  rw [hnone, List.append_nil]
  exact hsilent hleft

/-- Before its last turn a check has told nothing. -/
theorem Ahead.silent_of_turn (h : Ahead n c) (r : Response) {t : Turn}
    (ht : turn c.pending c.validating r = t)
    (hgoes : t.pending ≠ [] ∨ t.validating ≠ [] ∨ t.start ≠ none) :
    reportsOf n c.transfer.world = [] := by
  apply h.silent
  by_contra hnothing
  obtain ⟨hp, hv⟩ := not_or.mp hnothing
  rw [not_not.mp hp, not_not.mp hv, turn_nil] at ht
  subst ht
  simp at hgoes

theorem Fresh.told (h : Fresh n c) {t : Turn} (ht : Turned n t)
    (hsilent : t.pending ≠ [] ∨ t.validating ≠ [] → reportsOf n c.transfer.world = []) :
    Fresh n (t.told c) := ⟨h.ahead.told ht hsilent, h.checked, h.pipeline, h.consumer⟩

theorem Late.told (h : Late n c) {t : Turn} (ht : Turned n t)
    (hsilent : t.pending ≠ [] ∨ t.validating ≠ [] → reportsOf n c.transfer.world = []) :
    Late n (t.told c) := ⟨h.ahead.told ht hsilent, h.checked, h.spent⟩

theorem perform_start {t : Turn} {start : CheckerState × Name} (hstart : t.start = some start) :
    t.perform c = { t.told c with
      checked := some start.1
      transfer := (exec (Consumer.run {} start.2) (t.told c).transfer).2 } := by
  rw [Turn.perform, hstart]

/-- Nothing is told with the start of a transfer. -/
theorem Turned.silent_told {t : Turn} (ht : Turned n t) {start : CheckerState × Name}
    (hstart : t.start = some start) (hsilent : reportsOf n c.transfer.world = []) :
    reportsOf n (t.told c).transfer.world = [] := by
  change reportsOf n (c.transfer.world ++ t.reports) = []
  rw [(ht.start start hstart).2, List.append_nil, hsilent]

theorem Late.started (h : Late n c) {t : Turn} (ht : Turned n t) {start : CheckerState × Name}
    (hstart : t.start = some start) (hsilent : reportsOf n c.transfer.world = []) :
    Dead n (t.perform c) := by
  obtain ⟨hp, hv⟩ := ht.settled (.inr (by simp [hstart]))
  have hspent : Spent (t.told c).transfer.pipeline := h.spent
  obtain ⟨hspent', hconsumer, hworld, hfetches⟩ := hspent.run start.2
  rw [perform_start hstart]
  refine ⟨hp, hv, hspent'.idle, ?_, ?_, ?_⟩
  · dsimp only
    rw [hconsumer]
  · dsimp only
    rw [hworld]
    exact ht.silent_told hstart hsilent
  · exact hfetches.trans h.ahead.fetches

/-- A fresh pipeline fetches the first segment where its name is the name of an Interest. -/
theorem Fresh.started (h : Fresh n c) {t : Turn} (ht : Turned n t) {start : CheckerState × Name}
    (hstart : t.start = some start) (hsilent : reportsOf n c.transfer.world = []) :
    match Interest.ofName (start.2 ++ [fromSegment 0]) with
    | some i => Live n (t.perform c) ∧ fetches (t.perform c).transfer.trace = [i]
    | none => Dead n (t.perform c) := by
  obtain ⟨hp, hv⟩ := ht.settled (.inr (by simp [hstart]))
  have htold := ht.silent_told hstart hsilent
  have hpipeline : (t.told c).transfer.pipeline = .new {} := h.pipeline
  have hrun := run_new (S := fun world => reportsOf n world = []) hpipeline start.2
  obtain ⟨hworld, hconsumer, hrest⟩ := hrun
  rw [perform_start hstart]
  cases hi : Interest.ofName (start.2 ++ [fromSegment 0]) with
  | none =>
      rw [hi] at hrest
      refine ⟨hp, hv, hrest.1, ?_, ?_, ?_⟩
      · dsimp only
        rw [hconsumer]
      · dsimp only
        rw [hworld]
        exact htold
      · exact hrest.2.trans h.ahead.fetches
  | some i =>
      rw [hi] at hrest
      refine ⟨⟨hp, hv, ?_, hrest.2 htold⟩, ?_⟩
      · intro state hstate
        obtain rfl := Option.mem_some.mp hstate
        exact (ht.start start hstart).1.le
      · have hnone : fetches (t.told c).transfer.trace = [] := h.ahead.fetches
        exact hrest.1.trans (by rw [hnone, List.nil_append])

theorem Fresh.segment (h : Fresh n c) (e : Event) (inner : ℕ → Option String) :
    respond c (.segment e inner) = c := by
  apply respond_segment_empty
  · rw [h.pipeline]
    exact idle_new {}
  · rw [h.consumer]

/-- One response on a fresh checker. -/
theorem Fresh.responded (h : Fresh n c) (r : Response) :
    (¬Asks c r ∧ (Fresh n (respond c r) ∨ Dead n (respond c r))) ∨
      (Asks c r ∧ Live n (respond c r) ∧ fetches (respond c r).transfer.trace ≠ []) := by
  by_cases hr : ∃ e inner, r = .segment e inner
  · obtain ⟨e, inner, rfl⟩ := hr
    left
    refine ⟨by simp [Asks, turn], .inl ?_⟩
    rwa [h.segment e inner]
  · simp only [not_exists] at hr
    have ht := turned_turn h.ahead.owned r
    have hsilent := h.ahead.silent_of_turn r rfl
    rw [respond_eq c hr]
    cases hstart : (turn c.pending c.validating r).start with
    | none =>
        left
        refine ⟨by simp [Asks, hstart], .inl ?_⟩
        rw [Turn.perform, hstart]
        exact h.told ht fun hleft => hsilent (hleft.imp id .inl)
    | some start =>
        have hstarted := h.started ht hstart (hsilent (.inr (.inr (by simp [hstart]))))
        have hasks : Asks c r ↔ (Interest.ofName (start.2 ++ [fromSegment 0])).isSome = true := by
          simp [Asks, hstart]
        rw [hasks]
        cases hi : Interest.ofName (start.2 ++ [fromSegment 0]) with
        | none =>
            rw [hi] at hstarted
            exact .inl ⟨by simp, .inr hstarted⟩
        | some i =>
            rw [hi] at hstarted
            exact .inr ⟨rfl, hstarted.1, by simp [hstarted.2]⟩

/-- What happens to the segments of an earlier check is nothing to this one. -/
theorem Late.segment (h : Late n c) (e : Event) (inner : ℕ → Option String) :
    let c' := respond c (.segment e inner)
    Late n c' ∧ c'.pending = c.pending ∧ c'.validating = c.validating ∧
      reportsOf n c'.transfer.world = reportsOf n c.transfer.world := by
  let cb := finishCb inner c.checked
  have hconsumes : Consumes cb c.transfer (exec (e.handle {} cb) c.transfer).2 := by
    cases e with
    | verdict k refused => exact consumes_verdict cb k refused c.transfer
    | data p v => rw [h.spent.idle.handle cb _ (by simp)]; exact Consumes.refl cb _
    | nack pipeNo reason => rw [h.spent.idle.handle cb _ (by simp)]; exact Consumes.refl cb _
    | timeout pipeNo => rw [h.spent.idle.handle cb _ (by simp)]; exact Consumes.refl cb _
    | backoff pipeNo => rw [h.spent.idle.handle cb _ (by simp)]; exact Consumes.refl cb _
  have hreports : reportsOf n (exec (e.handle {} cb) c.transfer).2.world =
      reportsOf n c.transfer.world := by
    rcases hconsumes.world with hworld | ⟨-, block, hworld⟩
    · rw [hworld]
    · rw [hworld]
      apply stays_finishCb
      · exact fun state hstate => (h.checked state hstate).ne
      · rfl
  rw [respond_segment]
  refine ⟨⟨⟨h.ahead.owned, ?_, ?_⟩, h.checked, ?_⟩, rfl, rfl, hreports⟩
  · intro hleft
    exact hreports.trans (h.ahead.silent hleft)
  · exact hconsumes.fetches.trans h.ahead.fetches
  · exact hconsumes.pipeline ▸ h.spent

theorem Late.responded (h : Late n c) (r : Response) :
    Late n (respond c r) ∨ Dead n (respond c r) := by
  by_cases hr : ∃ e inner, r = .segment e inner
  · obtain ⟨e, inner, rfl⟩ := hr
    exact .inl (h.segment e inner).1
  · simp only [not_exists] at hr
    have ht := turned_turn h.ahead.owned r
    have hsilent := h.ahead.silent_of_turn r rfl
    rw [respond_eq c hr]
    cases hstart : (turn c.pending c.validating r).start with
    | none =>
        left
        rw [Turn.perform, hstart]
        exact h.told ht fun hleft => hsilent (hleft.imp id .inl)
    | some start => exact .inr (h.started ht hstart (hsilent (.inr (.inr (by simp [hstart])))))

/-! ### Two checkers -/

/-- A checker whose pipeline has done its work, and a fresh one, at the same check. -/
structure Follows (n : ℕ) (c f : Checker) : Prop where
  late : Late n c
  fresh : Fresh n f
  pending : c.pending = f.pending
  validating : c.validating = f.validating
  reports : reportsOf n c.transfer.world = reportsOf n f.transfer.world

def Alike (n : ℕ) (c f : Checker) : Prop := Follows n c f ∨ Dead n c ∧ Dead n f

/-- The fetches and the reports of check `n`. -/
def observed (n : ℕ) (c : Checker) : List Interest × List Report :=
  (fetches c.transfer.trace, reportsOf n c.transfer.world)

theorem Alike.observed (h : Alike n c f) : observed n c = observed n f := by
  rcases h with h | ⟨hc, hf⟩
  · exact Prod.ext (h.late.ahead.fetches.trans h.fresh.ahead.fetches.symm) h.reports
  · exact Prod.ext (hc.fetches.trans hf.fetches.symm) (hc.silent.trans hf.silent.symm)

/-- The two go on alike, but when the fresh one fetches the first segment. -/
theorem Follows.responded (h : Follows n c f) (r : Response) :
    (¬Asks f r → Alike n (respond c r) (respond f r)) ∧ (Asks f r → Dead n (respond c r)) := by
  by_cases hr : ∃ e inner, r = .segment e inner
  · obtain ⟨e, inner, rfl⟩ := hr
    have hnot : ¬Asks f (.segment e inner) := by simp [Asks, turn]
    obtain ⟨hlate, hp, hv, hreports⟩ := h.late.segment e inner
    refine ⟨fun _ => .inl ?_, fun hasks => absurd hasks hnot⟩
    rw [h.fresh.segment e inner]
    exact ⟨hlate, h.fresh, hp.trans h.pending, hv.trans h.validating, hreports.trans h.reports⟩
  · simp only [not_exists] at hr
    have ht := turned_turn h.late.ahead.owned r
    have hsilent := h.late.ahead.silent_of_turn r rfl
    have hturn : turn f.pending f.validating r = turn c.pending c.validating r := by
      rw [h.pending, h.validating]
    have hsilent' : reportsOf n c.transfer.world = [] → reportsOf n f.transfer.world = [] :=
      fun hnone => h.reports.symm.trans hnone
    rw [Asks, respond_eq c hr, respond_eq f hr, hturn]
    cases hstart : (turn c.pending c.validating r).start with
    | none =>
        have hc := h.late.told ht fun hleft => hsilent (hleft.imp id .inl)
        have hf := h.fresh.told ht fun hleft => hsilent' (hsilent (hleft.imp id .inl))
        refine ⟨fun _ => .inl ?_, by simp⟩
        rw [Turn.perform, Turn.perform, hstart]
        refine ⟨hc, hf, rfl, rfl, ?_⟩
        change reportsOf n (c.transfer.world ++ _) = reportsOf n (f.transfer.world ++ _)
        rw [reportsOf_append, reportsOf_append, h.reports]
    | some start =>
        have hnone := hsilent (.inr (.inr (by simp [hstart])))
        have hdead := h.late.started ht hstart hnone
        have hstarted := h.fresh.started ht hstart (hsilent' hnone)
        refine ⟨fun hnot => .inr ⟨hdead, ?_⟩, fun _ => hdead⟩
        cases hi : Interest.ofName (start.2 ++ [fromSegment 0]) with
        | none =>
            rw [hi] at hstarted
            exact hstarted
        | some i => exact absurd (by simp [hi]) hnot

end

/-! ## Runs of checks -/

/-- A check with what comes back for it. -/
structure Check where
  ledgerPrefix : Name
  data : Data
  responses : List Response

/-- A new page for what is done and told. -/
def page (c : Checker) : Checker := { c with transfer := { c.transfer with
  world := []
  trace := [] } }

def begun (c : Checker) (n : ℕ) (check : Check) : Checker :=
  (exec (doCheck check.ledgerPrefix check.data n) (page c)).2

def during (c : Checker) (n : ℕ) (check : Check) (responses : List Response) : Checker :=
  responses.foldl respond (begun c n check)

/-- Check `n` from its start to its last response. -/
def next (s : Checker × ℕ) (check : Check) : Checker × ℕ :=
  (during s.1 s.2 check check.responses, s.2 + 1)

def start : Checker × ℕ := (.new, 0)

/-- The check has told its caller something in the end. -/
def Delivered (s : Checker × ℕ) (check : Check) : Prop :=
  reportsOf s.2 (next s check).1.transfer.world ≠ []

instance (s : Checker × ℕ) (check : Check) : Decidable (Delivered s check) :=
  inferInstanceAs (Decidable (_ ≠ _))

/-- Each check starts after the verdict of the one before. -/
def InTurn (history : List Check) : Prop := Throughout next Delivered start history

/-- A validated answer to the check starts a transfer. -/
def Transfers (c : Checker) (n : ℕ) (check : Check) : Prop :=
  ¬Throughout respond (fun c r => ¬Asks c r) (begun c n check) check.responses

/-- No check has started a transfer. -/
def Untouched (history : List Check) : Prop :=
  Throughout next (fun s check => ¬Transfers s.1 s.2 check) start history

section
variable {c : Checker}

theorem begun_eq (hp : c.pending = []) (hv : c.validating = []) (check : Check) :
    begun c n check =
      (redispatched [] [] { data := check.data, callbacks := n } check.ledgerPrefix).told (page c) := by
  have hpending : (page c).pending = [] := hp
  have hvalidating : (page c).validating = [] := hv
  rw [begun, doCheck, exec_dispatchInterest, hpending, hvalidating, Turn.perform]
  have hnone : (redispatched [] [] { data := check.data, callbacks := n }
      check.ledgerPrefix).start = none := by
    rw [redispatched]
    split_ifs
    · rfl
    · split <;> rfl
  rw [hnone]

theorem turned_begun (n : ℕ) (check : Check) :
    Turned n (redispatched [] [] { data := check.data, callbacks := n } check.ledgerPrefix) :=
  turned_redispatched { data := check.data, callbacks := n } check.ledgerPrefix

theorem fresh_begun (n : ℕ) (check : Check) : Fresh n (begun .new n check) := by
  have hpage : Fresh n (page .new) := ⟨⟨owned_nil n, fun _ => rfl, rfl⟩, rfl, rfl, rfl⟩
  rw [begun_eq rfl rfl]
  exact hpage.told (turned_begun n check) fun _ => rfl

theorem late_begun (hp : c.pending = []) (hv : c.validating = [])
    (hchecked : ∀ state ∈ c.checked, state.callbacks < n) (hspent : Spent c.transfer.pipeline)
    (check : Check) : Late n (begun c n check) := by
  have howned : Owned n (page c).pending (page c).validating := by
    have hpending : (page c).pending = [] := hp
    have hvalidating : (page c).validating = [] := hv
    rw [hpending, hvalidating]
    exact owned_nil n
  have hpage : Late n (page c) := ⟨⟨howned, fun _ => rfl, rfl⟩, hchecked, hspent⟩
  rw [begun_eq hp hv]
  exact hpage.told (turned_begun n check) fun _ => rfl

theorem follows_begun (hp : c.pending = []) (hv : c.validating = [])
    (hchecked : ∀ state ∈ c.checked, state.callbacks < n) (hspent : Spent c.transfer.pipeline)
    (check : Check) : Follows n (begun c n check) (begun .new n check) := by
  refine ⟨late_begun hp hv hchecked hspent check, fresh_begun n check, ?_, ?_, ?_⟩ <;>
    rw [begun_eq hp hv, begun_eq rfl rfl] <;> rfl

theorem Dead.run (h : Dead n c) (responses : List Response) :
    responses.foldl respond c = c ∧ Throughout respond (fun c r => ¬Asks c r) c responses := by
  induction responses with
  | nil => exact ⟨rfl, trivial⟩
  | cons r responses ih =>
      have hnot : ¬Asks c r := by simp [Asks, h.pending, h.validating, turn_nil]
      rw [List.foldl_cons, Throughout, h.responded r]
      exact ⟨ih.1, hnot, ih.2⟩

/-- A fresh checker after the responses to its check. -/
theorem Fresh.run (h : Fresh n c) (responses : List Response) :
    let c' := responses.foldl respond c
    (Throughout respond (fun c r => ¬Asks c r) c responses ∧ (Fresh n c' ∨ Dead n c')) ∨
      (¬Throughout respond (fun c r => ¬Asks c r) c responses ∧ Live n c') := by
  induction responses generalizing c with
  | nil => exact .inl ⟨trivial, .inl h⟩
  | cons r responses ih =>
      rw [List.foldl_cons, Throughout]
      rcases h.responded r with ⟨hnot, hfresh | hdead⟩ | ⟨hasks, hlive, -⟩
      · rcases ih hfresh with ⟨hall, hend⟩ | ⟨hnall, hend⟩
        · exact .inl ⟨⟨hnot, hall⟩, hend⟩
        · exact .inr ⟨fun hall => hnall hall.2, hend⟩
      · obtain ⟨hsame, hall⟩ := hdead.run responses
        rw [hsame]
        exact .inl ⟨⟨hnot, hall⟩, .inr hdead⟩
      · refine .inr ⟨fun hall => hall.1 hasks, ?_⟩
        exact foldl_invariant (fun _ r h => h.responded r) responses hlive

theorem Late.run (h : Late n c) (responses : List Response) :
    Late n (responses.foldl respond c) ∨ Dead n (responses.foldl respond c) := by
  refine foldl_invariant (I := fun c => Late n c ∨ Dead n c) ?_ responses (.inl h)
  intro c r hc
  rcases hc with hlate | hdead
  · exact hlate.responded r
  · rw [hdead.responded r]
    exact .inr hdead

theorem Ahead.settled (h : Ahead n c) (hreports : reportsOf n c.transfer.world ≠ []) :
    c.pending = [] ∧ c.validating = [] := by
  have hleft := fun hleft => hreports (h.silent hleft)
  exact ⟨not_not.mp fun hp => hleft (.inl hp), not_not.mp fun hv => hleft (.inr hv)⟩

theorem Fresh.page_eq (h : Fresh n c) (hp : c.pending = []) (hv : c.validating = []) :
    page c = .new := by
  simp only [page, hp, hv, h.checked, h.pipeline, h.consumer, Checker.new]

/-- Between two checks nothing is on its way. The pipeline is as the constructor has
made it, or it has done its work. -/
structure Rested (s : Checker × ℕ) (untouched : Prop) : Prop where
  pending : s.1.pending = []
  validating : s.1.validating = []
  pipeline : (untouched ∧ page s.1 = .new) ∨ (¬untouched ∧ Spent s.1.transfer.pipeline ∧
    ∀ state ∈ s.1.checked, state.callbacks < s.2)

/-- A delivered check leaves nothing on its way. -/
theorem rested_next {s : Checker × ℕ} {untouched : Prop} (h : Rested s untouched) {check : Check}
    (hdelivered : Delivered s check) :
    Rested (next s check) (untouched ∧ ¬Transfers s.1 s.2 check) := by
  rcases h.pipeline with ⟨huntouched, hpage⟩ | ⟨htouched, hspent, hchecked⟩
  · have hbegun : begun s.1 s.2 check = begun .new s.2 check :=
      congrArg (fun c => (exec (doCheck check.ledgerPrefix check.data s.2) c).2) hpage
    have hfresh : Fresh s.2 (begun s.1 s.2 check) := hbegun ▸ fresh_begun s.2 check
    rcases hfresh.run check.responses with ⟨hall, hend | hend⟩ | ⟨hnall, hend⟩
    · obtain ⟨hp, hv⟩ := hend.ahead.settled hdelivered
      exact ⟨hp, hv, .inl ⟨⟨huntouched, not_not.mpr hall⟩, hend.page_eq hp hv⟩⟩
    · exact absurd hend.silent hdelivered
    · refine ⟨hend.pending, hend.validating, .inr ⟨?_, hend.steady.spent hdelivered, ?_⟩⟩
      · exact fun hboth => hboth.2 hnall
      · exact fun state hstate => Nat.lt_succ_of_le (hend.checked state hstate)
  · have hlate := late_begun h.pending h.validating hchecked hspent check
    rcases hlate.run check.responses with hend | hend
    · obtain ⟨hp, hv⟩ := hend.ahead.settled hdelivered
      refine ⟨hp, hv, .inr ⟨fun hboth => htouched hboth.1, hend.spent, ?_⟩⟩
      exact fun state hstate => (hend.checked state hstate).trans (Nat.lt_succ_self _)
    · exact absurd hend.silent hdelivered

theorem rested_after {history : List Check} (h : InTurn history) :
    Rested (history.foldl next start) (Untouched history) := by
  induction history using List.reverseRecOn with
  | nil => exact ⟨rfl, rfl, .inl ⟨trivial, rfl⟩⟩
  | append_singleton history check ih =>
      obtain ⟨hbefore, hdelivered⟩ := (throughout_concat start history check).mp h
      have hrested := rested_next (ih hbefore) hdelivered
      have huntouched : Untouched (history ++ [check]) ↔ Untouched history ∧
          ¬Transfers (history.foldl next start).1 (history.foldl next start).2 check :=
        throughout_concat start history check
      rw [List.foldl_concat, propext huntouched]
      exact hrested

/-- A check after others is told what a fresh checker would tell, and fetches what it
would fetch, if and only if no check before it has started a transfer, or it does not
start one itself. -/
theorem checks_independent_iff (history : List Check) (h : InTurn history) (check : Check) :
    let s := history.foldl next start
    (∀ responses, responses <+: check.responses →
      observed s.2 (during s.1 s.2 check responses) =
        observed s.2 (during .new s.2 check responses)) ↔
      Untouched history ∨ ¬Transfers .new s.2 check := by
  intro s
  have hrested := rested_after h
  rcases hrested.pipeline with ⟨huntouched, hpage⟩ | ⟨htouched, hspent, hchecked⟩
  · have hbegun : begun s.1 s.2 check = begun .new s.2 check :=
      congrArg (fun c => (exec (doCheck check.ledgerPrefix check.data s.2) c).2) hpage
    refine iff_of_true (fun responses _ => ?_) (.inl huntouched)
    rw [during, hbegun, during]
  · have hfollows := follows_begun hrested.pending hrested.validating hchecked hspent check
    rw [or_iff_right htouched, Transfers, not_not]
    apply agree_iff (C := Alike s.2) (L := fun c f => observed s.2 c = observed s.2 f)
      (T := fun f r => ¬Asks f r)
    · exact fun _ _ halike => halike.observed
    · intro c f r halike hnot
      rcases halike with halike | ⟨hc, hf⟩
      · exact (halike.responded r).1 hnot
      · rw [hc.responded r, hf.responded r]
        exact .inr ⟨hc, hf⟩
    · intro c f r halike hasks hlooks
      have hasks := not_not.mp hasks
      rcases halike with halike | ⟨-, hf⟩
      · rcases halike.fresh.responded r with ⟨hnot, -⟩ | ⟨-, -, hfetches⟩
        · exact hnot hasks
        · have hdead := (halike.responded r).2 hasks
          exact hfetches ((congrArg Prod.fst hlooks).symm.trans hdead.fetches)
      · exact absurd hasks (by simp [Asks, hf.pending, hf.validating, turn_nil])
    · exact .inl hfollows

end
end

/-! ## Two checks of one certificate -/

section

/-- The name `/A/KEY/B/C/v` of a certificate. -/
def certificateName : Name := nameA ++ [Name.generic [75, 69, 89], Name.generic [66],
  Name.generic [67], Name.generic [118]]

/-- The name under which its records are served. -/
def versionedName : Name := nameA ++ [RECORD, Name.generic [66], Name.generic [67],
  Name.generic [118], dataComponent, ⟨54, [1], by decide, by decide⟩]

def certificate : @Data (plainNdn []) :=
  @Data.mk (plainNdn []) (packet certificateName [1]) certificateName
    (dataName_packet certificateName [1])

local instance : NdnCxx := plainNdn []

/-- The only segment of an object that holds one Data. -/
def onlySegment : Packet where
  name := versionedName ++ [fromSegment 0]
  content := ⟨tlvContent,
    (⟨tlvContent, certificate.wire.wire, tlvContent_pos, tlvContent_lt⟩ : Block).wire,
    tlvContent_pos, tlvContent_lt⟩
  finalBlock := some (fromSegment 0)

/-- The ledger answers with an object of one segment. -/
def answeredCheck : Check where
  ledgerPrefix := nameA
  data := certificate
  responses := [.answer 0 onlySegment .valid, .segment (.data onlySegment .valid) fun _ => none]

def nackedCheck : Check where
  ledgerPrefix := nameA
  data := certificate
  responses := [.nack 0]

/-- After a nack the next check succeeds as on a fresh checker. -/
theorem checks_independent_nacked : InTurn [nackedCheck] ∧
    ∀ responses, responses <+: answeredCheck.responses →
      observed 1 (during (next start nackedCheck).1 1 answeredCheck responses) =
        observed 1 (during .new 1 answeredCheck responses) := by
  have hturn : InTurn [nackedCheck] := ⟨by decide +kernel, trivial⟩
  refine ⟨hturn, (checks_independent_iff [nackedCheck] hturn answeredCheck).mpr
    (.inl ⟨?_, trivial⟩)⟩
  exact not_not.mpr ⟨by decide +kernel, trivial⟩

/-- After a success the next check of the same certificate fetches nothing and is told nothing. -/
theorem second_check_stuck :
    let reused := during (next start answeredCheck).1 1 answeredCheck answeredCheck.responses
    let fresh := during .new 1 answeredCheck answeredCheck.responses
    InTurn [answeredCheck] ∧
      fetches reused.transfer.trace = [] ∧ reportsOf 1 reused.transfer.world = [] ∧
      fetches fresh.transfer.trace = [{ name := onlySegment.name }] ∧
      reportsOf 1 fresh.transfer.world ≠ [] := by
  refine ⟨⟨?_, trivial⟩, ?_, ?_, ?_, ?_⟩
  · decide +kernel
  · decide +kernel
  · decide +kernel
  · decide +kernel
  · decide +kernel

end

end CertLedger.CheckerRuns
