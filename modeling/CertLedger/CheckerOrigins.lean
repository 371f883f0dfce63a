import CertLedger.CheckerRuns
import CertLedger.RecordCodec

/-!
# Where a success comes from

A success is tied to the checked Data by the name of one validated answer. What the
answer holds is validated, but it is not compared with the Data.
-/
namespace CertLedger.CheckerOrigins
open TlvCodec FallibleState NdnObjects NdnPackets Reassembly SegmentPipeline SinglePipe
open PipelineSteps RecordChecker EventRuns RecordCodec PlainNdn
open SegmentRuns (finishes finishes_append finishes_calls called written)

/-! ## The segments of a transfer -/

/-- A segment of an object with one of the names. -/
def SegmentName (N : Name → Prop) (name : Name) : Prop :=
  ∃ versionedName k, N versionedName ∧ name = versionedName ++ [fromSegment k]

/-- A validated segment. -/
def Genuine (V : Packet → Prop) (N : Name → Prop) (p : Packet) : Prop := V p ∧ SegmentName N p.name

/-- The block begins the contents of validated segments. -/
def Assembled (V : Packet → Prop) (N : Name → Prop) (block : Block) : Prop :=
  ∃ segments : List Packet, (∀ s ∈ segments, Genuine V N s) ∧
    blockOfBuffer (segments.flatMap (·.content.value)) = .ok block

/-- An Interest for a segment, which only Data of this name answers. -/
def Fetched (N : Name → Prop) (i : Interest) : Prop := i.canBePrefix = false ∧ SegmentName N i.name

section
variable {ω : Type} (V : Packet → Prop) (N : Name → Prop) (X : ω → List (ℕ × Buffer) → Prop)

/-- Everything in a transfer comes from segments with the names, and what has left the
validator is validated. `X` is about the world and the calls of the finish callback. -/
structure Sourced (t : Transfer ω) : Prop where
  versioned : N t.pipeline.versionedName
  fetchers : ∀ pipeNo f k, Has t.pipeline pipeNo f k → Fetched N f.interest
  validating : ∀ p ∈ t.consumer.validating, SegmentName N p.name
  buffered : ∀ b ∈ t.consumer.bufferedData, Genuine V N b.2
  output : ∃ segments : List Packet, (∀ s ∈ segments, Genuine V N s) ∧
    t.consumer.outputBuffer = segments.flatMap (·.content.value)
  world : X t.world (finishes t.trace)

/-- A call of the finish callback keeps what is said of the world and the calls. -/
def Answers (cb : Block → Program PacketError ω Unit) : Prop :=
  ∀ n buffer block, blockOfBuffer buffer = .ok block → Assembled V N block →
    ∀ world calls, X world calls → X (exec (cb block) world).2 (calls ++ [(n, buffer)])

variable {V N X} {t t' : Transfer ω} {cb : Block → Program PacketError ω Unit}

theorem Sourced.settles (h : Sourced V N X t) (hs : Settles t t') : Sourced V N X t' where
  versioned := hs.versionedName ▸ h.versioned
  fetchers pipeNo f k hf := by
    obtain ⟨f', hf', hi, -⟩ := hs.fetcher pipeNo f k hf
    exact hi ▸ h.fetchers pipeNo f' k hf'
  validating := hs.consumer ▸ h.validating
  buffered := hs.consumer ▸ h.buffered
  output := hs.consumer ▸ h.output
  world := by
    rw [hs.world, hs.finishes]
    exact h.world

/-- A fetcher is put to a pipe. The pipeline may change but for its name and its fetchers. -/
theorem Sourced.setFetcher (h : Sourced V N X t) (pipeNo : ℕ) (f : DataFetcher)
    (hf : Fetched N f.interest) (k : ℕ) :
    Sourced V N X (t.onPipeline (·.setFetcher pipeNo f k)) := by
  refine ⟨h.versioned, ?_, h.validating, h.buffered, h.output, h.world⟩
  intro j g i hg
  rcases has_setFetcher hg with ⟨-, rfl, -⟩ | hg
  · exact hf
  · exact h.fetchers j g i hg

theorem Sourced.fetch (h : Sourced V N X t) (i : Interest) : Sourced V N X (t.act (.fetch i)) := by
  refine ⟨h.versioned, h.fetchers, h.validating, h.buffered, h.output, ?_⟩
  have hnone : finishes (t.trace ++ [.fetch i]) = finishes t.trace :=
    (finishes_append t.trace _).trans (List.append_nil _)
  rw [Transfer.act, hnone]
  exact h.world

variable (options : Options)

theorem stays_fetchNextSegment (pipeNo : ℕ) :
    Stays (Sourced V N X) (PipelineInterestsFixed.fetchNextSegment (ω := ω) options pipeNo) := by
  intro t h
  have hcounted : Sourced V N X (t.onPipeline fun p =>
      { p with nextSegmentNo := p.nextSegmentNo + 1 }) :=
    ⟨h.versioned, h.fetchers, h.validating, h.buffered, h.output, h.world⟩
  rcases fetchNextSegment_cases options pipeNo t with
    ⟨-, ht⟩ | ⟨-, -, ht⟩ | ⟨-, -, ⟨-, ht⟩ | ⟨i, hi, hexact, ht⟩⟩
  · rw [ht]
    exact h
  · rw [ht]
    exact h.settles (settles_onFailure _ t)
  · rw [ht]
    exact hcounted
  · rw [ht]
    exact (hcounted.fetch i).setFetcher pipeNo { interest := i } ⟨hexact, _, _, h.versioned, hi⟩ _

/-- A consumer that is run starts afresh. -/
theorem sourced_run (hfetchers : ∀ pipeNo f k, Has t.pipeline pipeNo f k → Fetched N f.interest)
    (hworld : X t.world (finishes t.trace)) {versionedName : Name} (hname : N versionedName) :
    Sourced V N X (exec (Consumer.run options versionedName) t).2 := by
  rw [Consumer.run, exec_bind_ok (exec_modify _ t)]
  apply stays_doRunFrom options (stays_fetchNextSegment options)
  exact ⟨hname, hfetchers, by simp, by simp, ⟨[], by simp, rfl⟩, hworld⟩

/-! ### The consumer -/

theorem stays_onValidationSuccess (hcb : Answers V N X cb) {p : Packet} (hp : Genuine V N p) :
    Stays (Sourced V N X) (Consumer.onValidationSuccess cb p) := by
  intro t h
  rcases onValidationSuccess_cases cb p t with ht | ⟨k, -, ht⟩
  · rw [ht]
    exact h
  rw [ht]
  obtain ⟨first, hsplit, hitems⟩ :=
    release_split t.consumer.nextToPrint (assign k p t.consumer.bufferedData)
  obtain ⟨segments, hsegments, houtput⟩ := h.output
  have hassigned : ∀ b ∈ assign k p t.consumer.bufferedData, Genuine V N b.2 := by
    intro b hb
    rcases of_mem_assign hb with rfl | hb
    · exact hp
    · exact h.buffered b hb
  have hall : ∃ segments : List Packet, (∀ s ∈ segments, Genuine V N s) ∧
      (written t.consumer p k).outputBuffer = segments.flatMap (·.content.value) := by
    refine ⟨segments ++ first.map (·.2), ?_, ?_⟩
    · intro s hs
      rcases List.mem_append.mp hs with hs | hs
      · exact hsegments s hs
      · obtain ⟨b, hb, rfl⟩ := List.mem_map.mp hs
        exact hassigned b (hsplit ▸ List.mem_append_left _ hb)
    · rw [written, hitems, houtput, List.flatMap_append]
  refine ⟨h.versioned, h.fetchers, h.validating, ?_, hall, ?_⟩
  · exact fun b hb => hassigned b (hsplit ▸ List.mem_append_right _ hb)
  · rw [finishes_append, finishes_calls]
    rcases called_cases t.pipeline (written t.consumer p k) with hcall | ⟨-, block, hblock, hcall⟩
    · rw [hcall, List.append_nil]
      exact h.world
    · obtain ⟨segments, hsegments, houtput⟩ := hall
      rw [hcall, callAll_one cb hblock]
      exact hcb _ _ block hblock ⟨segments, hsegments, houtput ▸ hblock⟩ _ _ h.world

theorem stays_consumer (hcb : Answers V N X cb) {p : Packet} (hp : SegmentName N p.name)
    {v : Verdict} (hv : v = .valid → V p) :
    Stays (Sourced V N X) (Consumer.handleData cb p v) := by
  intro t h
  rcases consume_cases cb p v t with ⟨hvalid, ht⟩ | ht | ht
  · rw [ht]
    exact stays_onValidationSuccess hcb ⟨hv hvalid, hp⟩ t h
  · rw [ht]
    exact h
  · rw [ht]
    refine ⟨h.versioned, h.fetchers, ?_, h.buffered, h.output, h.world⟩
    intro q hq
    rcases List.mem_append.mp hq with hq | hq
    · exact h.validating q hq
    · rw [List.mem_singleton.mp hq]
      exact hp

theorem Sourced.verdict (h : Sourced V N X t) (hcb : Answers V N X cb) {k : ℕ}
    {refused : Option String} (hv : refused = none → ∀ p ∈ t.consumer.validating[k]?, V p) :
    Sourced V N X (exec (Consumer.verdict cb k refused) t).2 := by
  have hleft : Sourced V N X (t.onConsumer fun c =>
      { c with validating := c.validating.eraseIdx k }) :=
    ⟨h.versioned, h.fetchers, fun q hq => h.validating q (List.mem_of_mem_eraseIdx hq), h.buffered,
      h.output, h.world⟩
  rcases verdict_cases cb k refused t with ⟨-, ht⟩ | ⟨p, hp, ⟨hpass, ht⟩ | ⟨-, ht⟩⟩
  · rw [ht]
    exact h
  · rw [ht]
    have hgenuine : Genuine V N p := ⟨hv hpass p hp, h.validating p (List.mem_of_getElem? hp)⟩
    exact stays_onValidationSuccess hcb hgenuine _ hleft
  · rw [ht]
    exact hleft

/-! ### The pipeline -/

theorem Sourced.tended (h : Sourced V N X t) {pipeNo : ℕ} {f : DataFetcher} {k : ℕ}
    {e : SegmentPipeline.Event} (hf : Fetched N f.interest)
    (ht : Tended options t pipeNo f k e t') : Sourced V N X t' := by
  have hg : Fetched N (heard options f e).interest := (heard_spec options f e).1.symm ▸ hf
  cases ht with
  | again =>
      exact (h.fetch _).setFetcher pipeNo { heard options f e with pendingInterest := true } hg k
  | wait => exact h.setFetcher pipeNo { heard options f e with pendingInterest := false } hg k
  | giveUp _ reason =>
      rw [DataFetcher.fail, exec_bind_ok (exec_modify _ t)]
      have hset := h.setFetcher pipeNo
        { heard options f e with hasError := true, pendingInterest := false } hg k
      exact hset.settles (settles_handleFail reason pipeNo _)

/-- Data for one pipe. The validator is asked only about what the pipeline has counted. -/
theorem Sourced.handleData (h : Sourced V N X t) (hcb : Answers V N X cb) {p : Packet}
    (hp : SegmentName N p.name) {v : Verdict} (pipeNo : ℕ)
    (hv : v = .valid → t.pipeline.nReceived <
      (exec (DataFetcher.handleData options cb pipeNo p v) t).2.pipeline.nReceived → V p) :
    Sourced V N X (exec (DataFetcher.handleData options cb pipeNo p v) t).2 := by
  cases hf : DataFetcher.running t pipeNo with
  | none =>
      rw [handleData_idle options cb hf]
      exact h
  | some f =>
      have hstop : Sourced V N X (stopped t pipeNo f.1 f.2) := by
        apply h.setFetcher
        exact h.fetchers pipeNo f.1 f.2 (has_of_running hf).1
      rcases data_cases options cb hf p v with hs | ⟨learned, hs, hreceived, hcases⟩
      · exact hstop.settles hs
      · have hlearned := hstop.settles hs
        have hcounted : Sourced V N X (learned.onPipeline fun p =>
            { p with nReceived := p.nReceived + 1 }) := ⟨hlearned.versioned, hlearned.fetchers,
          hlearned.validating, hlearned.buffered, hlearned.output, hlearned.world⟩
        have hgot := stays_consumer hcb hp (fun hvalid => hv hvalid (by omega)) _ hcounted
        rcases hcases with ht | ⟨-, ht⟩
        · rw [ht]
          exact hgot
        · rw [ht]
          exact stays_fetchNextSegment options pipeNo _ hgot

/-- Data goes to the pipes that wait for it, one after the other. -/
theorem Sourced.data (h : Sourced V N X t) (hcb : Answers V N X cb) {p : Packet}
    (hp : SegmentName N p.name) {v : Verdict} (pipes : List ℕ)
    (hv : v = .valid → t.pipeline.nReceived < (exec (pipes.foldlM (fun _ pipeNo =>
      DataFetcher.handleData options cb pipeNo p v) ()) t).2.pipeline.nReceived → V p) :
    Sourced V N X (exec (pipes.foldlM (fun _ pipeNo =>
      DataFetcher.handleData options cb pipeNo p v) ()) t).2 := by
  induction pipes generalizing t with
  | nil => exact h
  | cons pipeNo pipes ih =>
      have hfirst := h.handleData options hcb hp (v := v) pipeNo
      have hgrows := nReceived_handleData options cb pipeNo p v t
      rw [List.foldlM_cons, exec_bind] at hv ⊢
      rcases hx : exec (DataFetcher.handleData options cb pipeNo p v) t with ⟨_ | _, t₁⟩
      · rw [hx] at hfirst hv
        exact hfirst hv
      · rw [hx] at hfirst hv hgrows
        have hrest : t₁.pipeline.nReceived ≤ (exec (pipes.foldlM (fun _ pipeNo =>
            DataFetcher.handleData options cb pipeNo p v) ()) t₁).2.pipeline.nReceived :=
          Respects.foldlM (R := fun t t' => t.pipeline.nReceived ≤ t'.pipeline.nReceived)
            (fun _ => le_rfl) (fun _ _ _ => le_trans)
            (fun _ pipeNo _ => nReceived_handleData options cb pipeNo p v) () t₁
        refine ih (hfirst fun hvalid hlt => hv hvalid (hlt.trans_le hrest)) fun hvalid hlt => ?_
        exact hv hvalid (hgrows.trans_lt hlt)

/-- Data that goes to a fetcher has the name of a segment. -/
theorem Sourced.named (h : Sourced V N X t) {p : Packet} {pipeNo : ℕ}
    (hpipe : pipeNo ∈ waiting t (·.matchesName p.name)) : SegmentName N p.name := by
  obtain ⟨f, k, hf, -, hmatch⟩ := of_waiting hpipe
  obtain ⟨hexact, hname⟩ := h.fetchers pipeNo f k (has_of_running hf).1
  simp only [Interest.matchesName, hexact, Bool.false_eq_true, if_false, beq_iff_eq] at hmatch
  exact hmatch ▸ hname

/-- What the validator passes with an event. -/
def passed (t : Transfer ω) : Event → List Packet
  | .data p .valid => [p]
  | .verdict k none => t.consumer.validating[k]?.toList
  | _ => []

/-- What the validator has passed with an event that has led to `t'`. Data that arrives comes
to the validator only if the pipeline counts it. -/
def passedWith (t t' : Transfer ω) : Event → List Packet
  | .data p .valid => if t.pipeline.nReceived < t'.pipeline.nReceived then [p] else []
  | e => passed t e

theorem Sourced.handle (h : Sourced V N X t) (hcb : Answers V N X cb) (e : Event)
    (hv : ∀ p ∈ passedWith t (exec (e.handle options cb) t).2 e, V p) :
    Sourced V N X (exec (e.handle options cb) t).2 := by
  have hdata : ∀ p v, e = .data p v → Sourced V N X (exec ((waiting t (·.matchesName p.name)).foldlM
      (fun _ pipeNo => DataFetcher.handleData options cb pipeNo p v) ()) t).2 := by
    rintro p v rfl
    cases hw : waiting t (·.matchesName p.name) with
    | nil => exact h
    | cons pipeNo rest =>
        have hp : SegmentName N p.name := h.named (hw ▸ List.mem_cons_self)
        refine h.data options hcb hp _ fun hvalid hlt => hv p ?_
        subst hvalid
        rw [Event.handle, exec_bind_ok (exec_get t), hw, passedWith, if_pos hlt]
        exact List.mem_singleton_self p
  refine handle_rule options cb e h ?_ hdata ?_
  · exact fun pipeNo f k t' _ hf ht =>
      h.tended options (h.fetchers pipeNo f k (has_of_running hf).1) ht
  · rintro k refused rfl
    apply h.verdict hcb
    rintro rfl p hp
    exact hv p (by simp [passedWith, passed, Option.mem_def.mp hp])

end

/-! ## What the validator has said -/

section
variable [NdnCxx]

structure Log where
  /-- answers that it has passed, with the checks whose Interests they have answered -/
  answers : List (CheckerState × Packet) := []
  /-- segments that it has passed -/
  segments : List Packet := []
  /-- contents that it has been handed, with their checks and its verdicts on the Data inside -/
  verdicts : List (CheckerState × Block × (ℕ → Option String)) := []

/-- The name of an object whose first segment was a validated answer. -/
def Versioned (log : Log) (name : Name) : Prop :=
  ∃ a ∈ log.answers, isRecordName a.2.name = true ∧ name = a.2.name.dropLast

structure Log.Le (log log' : Log) : Prop where
  answers : ∀ a ∈ log.answers, a ∈ log'.answers
  segments : ∀ p ∈ log.segments, p ∈ log'.segments
  verdicts : ∀ verdict ∈ log.verdicts, verdict ∈ log'.verdicts

variable {log log' : Log}

theorem Log.Le.versioned (h : log.Le log') {name : Name} (hn : Versioned log name) :
    Versioned log' name := by
  obtain ⟨a, ha, hname⟩ := hn
  exact ⟨a, h.answers a ha, hname⟩

theorem Log.Le.segmentName (h : log.Le log') {name : Name} (hn : SegmentName (Versioned log) name) :
    SegmentName (Versioned log') name := by
  obtain ⟨versionedName, k, hv, hname⟩ := hn
  exact ⟨versionedName, k, h.versioned hv, hname⟩

theorem Log.Le.genuine (h : log.Le log') {p : Packet}
    (hp : Genuine (· ∈ log.segments) (Versioned log) p) :
    Genuine (· ∈ log'.segments) (Versioned log') p := ⟨h.segments p hp.1, h.segmentName hp.2⟩

theorem Log.Le.sourced (h : log.Le log') {ω : Type} {X : ω → List (ℕ × Buffer) → Prop}
    {t : Transfer ω} (ht : Sourced (· ∈ log.segments) (Versioned log) X t) :
    Sourced (· ∈ log'.segments) (Versioned log') X t := by
  obtain ⟨segments, hsegments, houtput⟩ := ht.output
  refine ⟨h.versioned ht.versioned, ?_, fun p hp => h.segmentName (ht.validating p hp),
    fun b hb => h.genuine (ht.buffered b hb),
    ⟨segments, fun s hs => h.genuine (hsegments s hs), houtput⟩, ht.world⟩
  intro pipeNo f k hf
  obtain ⟨hexact, hname⟩ := ht.fetchers pipeNo f k hf
  exact ⟨hexact, h.segmentName hname⟩

/-! ## The reports of a checker -/

inductive Step where
  | check (ledgerPrefix : Name) (data : Data) (callbacks : ℕ)
  | response (r : Response)

def Step.perform (c : Checker) : Step → Checker
  | .check ledgerPrefix data callbacks => (exec (doCheck ledgerPrefix data callbacks) c).2
  | .response r => respond c r

/-- An answer that the validator passes with a response, and the check that it is for. -/
def passedFor (c : Checker) : Response → List (CheckerState × Packet)
  | .answer k p .valid =>
      (c.pending[k]?.filter (·.interest.matchesName p.name)).toList.map fun e => (e.state, p)
  | .verdict k none => c.validating[k]?.toList
  | _ => []

def passedAnswers (c : Checker) (r : Response) : List Packet := (passedFor c r).map (·.2)

/-- The contents that the finish callback has been called with from `c` to `c'`. -/
def handed (c c' : Checker) (inner : ℕ → Option String) :
    List (CheckerState × Block × (ℕ → Option String)) :=
  c.checked.toList.flatMap fun state =>
    ((finishes c'.transfer.trace).drop (finishes c.transfer.trace).length).filterMap fun call =>
      (blockOfBuffer call.2).toOption.map fun block => (state, block, inner)

/-- What the validator has said in a step from `c` to `c'`. -/
def Log.note (log : Log) (c c' : Checker) : Step → Log
  | .check _ _ _ => log
  | .response (.segment e inner) => { log with
      segments := log.segments ++ passedWith c.transfer c'.transfer e
      verdicts := log.verdicts ++ handed c c' inner }
  | .response r => { log with answers := log.answers ++ passedFor c r }

def next (s : Checker × Log) (step : Step) : Checker × Log :=
  (step.perform s.1, s.2.note s.1 (step.perform s.1) step)

def after (steps : List Step) : Checker × Log := steps.foldl next (.new, {})

/-- The name begins as the Interest for the record of the Data. -/
def Asked (data : Data) (name : Name) : Prop :=
  ∃ interestName, setLast data.name 4 RECORD = some interestName ∧ interestName <+: name

/-- The validator has passed an answer to the Interest of the check. -/
def Answered (log : Log) (state : CheckerState) : Prop :=
  ∃ p, (state, p) ∈ log.answers ∧ isRecordName p.name = true ∧ Asked state.data p.name

/-- The content holds Data, and the validator has passed all of them for the check. With
`2 ^ 32` and more the counter may wrap. -/
def Validated (log : Log) (state : CheckerState) (block : Block) : Prop :=
  ∃ dataVector verdict, decodeContent block = .ok dataVector ∧ dataVector ≠ [] ∧
    (state, block, verdict) ∈ log.verdicts ∧
    (dataVector.length < 2 ^ 32 → ∀ k < dataVector.length, verdict k = none)

/-- What a success stands for. -/
def Justified (log : Log) : Report → Prop
  | .success callbacks data block => ∃ state : CheckerState, state.callbacks = callbacks ∧
      state.data = data ∧ Answered log state ∧
      Assembled (· ∈ log.segments) (Versioned log) block ∧ Validated log state block
  | .failure _ _ _ => True

/-- Everything on its way and everything told is accounted for. -/
structure Traced (log : Log) (c : Checker) : Prop where
  pending : ∀ e ∈ c.pending, e.interest.canBePrefix = true ∧
    setLast e.state.data.name 4 RECORD = some e.interest.name
  validating : ∀ v ∈ c.validating, Asked v.1.data v.2.name
  checked : ∀ state ∈ c.checked, Answered log state
  transfer : (c.transfer.pipeline = .new {} ∧ c.transfer.consumer = {}) ∨
    Sourced (· ∈ log.segments) (Versioned log) (fun _ _ => True) c.transfer
  reports : ∀ report ∈ c.transfer.world, Justified log report

variable {c : Checker}

theorem Log.Le.answered (h : log.Le log') {state : CheckerState} (ha : Answered log state) :
    Answered log' state := by
  obtain ⟨p, hp, hname⟩ := ha
  exact ⟨p, h.answers _ hp, hname⟩

theorem Log.Le.justified (h : log.Le log') {report : Report} (hr : Justified log report) :
    Justified log' report := by
  cases report with
  | failure callbacks data error => exact trivial
  | success callbacks data block =>
      obtain ⟨state, hcallbacks, hdata, hanswered, ⟨segments, hsegments, hblock⟩, dataVector, verdict,
        hcontent, hne, hverdict, hall⟩ := hr
      exact ⟨state, hcallbacks, hdata, h.answered hanswered,
        ⟨segments, fun s hs => h.genuine (hsegments s hs), hblock⟩, dataVector, verdict, hcontent, hne,
        h.verdicts _ hverdict, hall⟩

theorem Traced.mono (ht : Traced log c) (h : log.Le log') : Traced log' c where
  pending := ht.pending
  validating := ht.validating
  checked state hs := h.answered (ht.checked state hs)
  transfer := ht.transfer.imp id h.sourced
  reports report hr := h.justified (ht.reports report hr)

theorem stays_report (state : CheckerState) (error : Failure) :
    Stays (Traced log) (RecordChecker.fail state error) := by
  intro c h
  refine ⟨h.pending, h.validating, h.checked, h.transfer.imp id fun ht => ?_, ?_⟩
  · exact ⟨ht.versioned, ht.fetchers, ht.validating, ht.buffered, ht.output, trivial⟩
  · intro report hr
    rcases List.mem_append.mp hr with hr | hr
    · exact h.reports report hr
    · rw [List.mem_singleton.mp hr]
      exact trivial

/-- The Interest of a check asks for the record of its Data. -/
theorem asks_makeInterest {state : CheckerState} {ledgerPrefix : Name} {i : Interest}
    (hi : state.makeInterest ledgerPrefix = some i) :
    i.canBePrefix = true ∧ setLast state.data.name 4 RECORD = some i.name := by
  obtain ⟨name, hname, hi⟩ := Option.bind_eq_some_iff.mp hi
  obtain ⟨i', hi', hi⟩ := Option.bind_eq_some_iff.mp hi
  obtain rfl := Interest.name_ofName hi'
  obtain rfl := Option.some.inj hi
  exact ⟨rfl, hname⟩

theorem stays_dispatchInterest (state : CheckerState) (ledgerPrefix : Name) :
    Stays (Traced log) (dispatchInterest state ledgerPrefix) := by
  intro c h
  simp only [dispatchInterest]
  split_ifs
  · exact stays_report _ .timeout c h
  · cases hi : state.exhaustRetries.2.makeInterest ledgerPrefix with
    | none => exact h
    | some i =>
        rw [exec_bind_ok (exec_ofOption_some i c)]
        refine ⟨?_, h.validating, h.checked, h.transfer, h.reports⟩
        intro e he
        rcases List.mem_append.mp he with he | he
        · exact h.pending e he
        · rw [List.mem_singleton.mp he]
          exact asks_makeInterest hi

theorem stays_onVerdict {state : CheckerState} {p : Packet} {refused : Option String}
    (hp : refused = none → (state, p) ∈ log.answers) (hasked : Asked state.data p.name) :
    Stays (Traced log) (onVerdict state p refused) := by
  intro c h
  cases refused with
  | some info => exact stays_report state (.validation info) c h
  | none =>
      simp only [onVerdict, RecordChecker.onValidationSuccess]
      split_ifs with hname
      · have hanswer := hp rfl
        rw [exec_bind_ok (exec_modify _ c)]
        have hfetchers : ∀ pipeNo f k, Has c.transfer.pipeline pipeNo f k →
            Fetched (Versioned log) f.interest := by
          rcases h.transfer with ⟨hnew, -⟩ | ht
          · intro pipeNo f k hf
            exact absurd hf (hnew ▸ not_has_new {} pipeNo f k)
          · exact ht.fetchers
        have hrun : Sourced (· ∈ log.segments) (Versioned log)
            (fun world _ => ∀ report ∈ world, Justified log report)
            (exec (Consumer.run {} p.name.dropLast) c.transfer).2 :=
          sourced_run {} hfetchers h.reports ⟨(state, p), hanswer, hname, rfl⟩
        refine ⟨h.pending, h.validating, ?_, .inr ?_, hrun.world⟩
        · intro state' hstate
          obtain rfl := Option.mem_some.mp hstate
          exact ⟨p, hanswer, hname, hasked⟩
        · exact ⟨hrun.versioned, hrun.fetchers, hrun.validating, hrun.buffered, hrun.output, trivial⟩
      · exact stays_report state _ c h
      · exact stays_report state _ c h

/-- The finish callback tells a success of what it can justify. -/
theorem stays_finishCb {checked : Option CheckerState} {verdict : ℕ → Option String} {block : Block}
    (hchecked : ∀ state ∈ checked, Answered log state)
    (hverdict : ∀ state ∈ checked, (state, block, verdict) ∈ log.verdicts)
    (hblock : Assembled (· ∈ log.segments) (Versioned log) block) :
    Stays (fun world => ∀ report ∈ world, Justified log report) (finishCb verdict checked block) := by
  have htell : ∀ report, Justified log report →
      Stays (fun world => ∀ report ∈ world, Justified log report) (tell report) := by
    intro report hreport world hworld report' hr
    rcases List.mem_append.mp hr with hr | hr
    · exact hworld report' hr
    · rw [List.mem_singleton.mp hr]
      exact hreport
  cases checked with
  | none => exact Stays.pure ()
  | some state =>
      intro world hworld
      rw [finishCb, onContent, exec_bind, exec_lift]
      cases hcontent : decodeContent block with
      | error e => exact hworld
      | ok dataVector =>
          refine stays_validateMultipleData (X := fun world => ∀ report ∈ world, Justified log report)
            (fun info => ?_) (fun hne hall => ?_) world hworld
          · exact htell (.failure state.callbacks state.data (.validation info)) trivial
          · exact htell (.success state.callbacks state.data block) ⟨state, rfl, rfl,
              hchecked state rfl, hblock, dataVector, verdict, hcontent, hne, hverdict state rfl, hall⟩

theorem Traced.erasePending (h : Traced log c) (k : ℕ) :
    Traced log { c with pending := c.pending.eraseIdx k } :=
  ⟨fun e he => h.pending e (List.mem_of_mem_eraseIdx he), h.validating, h.checked, h.transfer,
    h.reports⟩

theorem Traced.eraseValidating (h : Traced log c) (k : ℕ) :
    Traced log { c with validating := c.validating.eraseIdx k } :=
  ⟨h.pending, fun v hv => h.validating v (List.mem_of_mem_eraseIdx hv), h.checked, h.transfer,
    h.reports⟩

/-- The validator keeps an answer. -/
theorem Traced.keep (h : Traced log c) {state : CheckerState} {p : Packet}
    (hasked : Asked state.data p.name) :
    Traced log { c with validating := c.validating ++ [(state, p)] } := by
  refine ⟨h.pending, ?_, h.checked, h.transfer, h.reports⟩
  intro v hv
  rcases List.mem_append.mp hv with hv | hv
  · exact h.validating v hv
  · rw [List.mem_singleton.mp hv]
    exact hasked

/-- The last call of the finish callback is among those of the step. -/
theorem mem_handed {c' : Checker} {state : CheckerState} (hstate : state ∈ c.checked)
    {verdict : ℕ → Option String} {calls : List (ℕ × Buffer)} {n : ℕ} {buffer : Buffer} {block : Block}
    (hblock : blockOfBuffer buffer = .ok block) (hold : finishes c.transfer.trace <+: calls)
    (hcalls : calls ++ [(n, buffer)] <+: finishes c'.transfer.trace) :
    (state, block, verdict) ∈ handed c c' verdict := by
  obtain ⟨new, rfl⟩ := hold
  obtain ⟨rest, hrest⟩ := hcalls
  refine List.mem_flatMap.mpr ⟨state, Option.mem_toList.mpr hstate, ?_⟩
  refine List.mem_filterMap.mpr ⟨(n, buffer), ?_, by simp [hblock, Except.toOption]⟩
  rw [← hrest, List.append_assoc, List.append_assoc, List.drop_left]
  simp

/-- A segment, in a transfer or when none has been started. A success that the finish
callback tells is justified by what it is called with. -/
theorem Traced.segment (h : Traced log c) {e : SegmentPipeline.Event} {verdict : ℕ → Option String}
    (hpassed : ∀ p ∈ passedWith c.transfer
      (RecordChecker.respond c (.segment e verdict)).transfer e, p ∈ log.segments)
    (hhanded : ∀ entry ∈ handed c (RecordChecker.respond c (.segment e verdict)) verdict,
      entry ∈ log.verdicts) :
    Traced log (RecordChecker.respond c (.segment e verdict)) := by
  rcases h.transfer with ⟨hnew, hconsumer⟩ | ht
  · have hsame := CheckerRuns.respond_segment_empty (c := c) (by rw [hnew]; exact idle_new {})
      (by rw [hconsumer]) e verdict
    rw [hsame]
    exact h
  · let final := (RecordChecker.respond c (.segment e verdict)).transfer
    have hrespond := CheckerRuns.respond_segment c e verdict
    let X : List Report → List (ℕ × Buffer) → Prop := fun world calls =>
      finishes c.transfer.trace <+: calls ∧
        (calls <+: finishes final.trace → ∀ report ∈ world, Justified log report)
    have hcb : Answers (· ∈ log.segments) (Versioned log) X (finishCb verdict c.checked) := by
      rintro n buffer block hblock hassembled world calls ⟨hold, hworld⟩
      refine ⟨hold.trans (List.prefix_append _ _), fun hcalls => ?_⟩
      refine stays_finishCb h.checked (fun state hstate => ?_) hassembled world
        (hworld ((List.prefix_append _ _).trans hcalls))
      exact hhanded _ (mem_handed hstate hblock hold hcalls)
    have hall : Sourced (· ∈ log.segments) (Versioned log) X c.transfer :=
      ⟨ht.versioned, ht.fetchers, ht.validating, ht.buffered, ht.output, List.prefix_rfl,
        fun _ => h.reports⟩
    rw [hrespond] at hpassed ⊢
    have hnext := hall.handle {} hcb e hpassed
    refine ⟨h.pending, h.validating, h.checked, .inr ⟨hnext.versioned, hnext.fetchers,
      hnext.validating, hnext.buffered, hnext.output, trivial⟩, hnext.world.2 ?_⟩
    rw [show final = _ from congrArg Checker.transfer hrespond]

/-- A response after which the log holds what the validator has passed with it. -/
theorem Traced.respond (h : Traced log c) {r : Response}
    (hanswers : ∀ a ∈ passedFor c r, a ∈ log.answers)
    (hsegments : ∀ e verdict, r = .segment e verdict →
      (∀ p ∈ passedWith c.transfer (RecordChecker.respond c r).transfer e, p ∈ log.segments) ∧
        ∀ entry ∈ handed c (RecordChecker.respond c r) verdict, entry ∈ log.verdicts) :
    Traced log (RecordChecker.respond c r) := by
  cases r with
  | answer k p v =>
      rw [RecordChecker.respond, Response.handle, exec_bind_ok (exec_get c)]
      cases hk : c.pending[k]? with
      | none => exact h
      | some e =>
          dsimp only
          split_ifs with hmatches
          · obtain ⟨hcan, hname⟩ := h.pending e (List.mem_of_getElem? hk)
            have hasked : Asked e.state.data p.name := by
              refine ⟨e.interest.name, hname, ?_⟩
              simpa [Interest.matchesName, hcan] using hmatches
            rw [exec_bind_ok (exec_set _ c)]
            cases v with
            | valid =>
                have hpassed : (e.state, p) ∈ log.answers :=
                  hanswers _ (by simp [passedFor, hk, hmatches])
                have hstays : Stays (Traced log) (onVerdict e.state p none) :=
                  stays_onVerdict (fun _ => hpassed) hasked
                exact hstays _ (h.erasePending k)
            | invalid info =>
                have hstays : Stays (Traced log) (onVerdict e.state p (some info)) :=
                  stays_onVerdict (by simp) hasked
                exact hstays _ (h.erasePending k)
            | later => exact (h.erasePending k).keep hasked
          · exact h
  | nack k =>
      rw [RecordChecker.respond, Response.handle, exec_bind_ok (exec_get c)]
      cases hk : c.pending[k]? with
      | none => exact h
      | some e =>
          dsimp only
          rw [exec_bind_ok (exec_set _ c)]
          exact stays_report _ _ _ (h.erasePending k)
  | timeout k =>
      rw [RecordChecker.respond, Response.handle, exec_bind_ok (exec_get c)]
      cases hk : c.pending[k]? with
      | none => exact h
      | some e =>
          dsimp only
          rw [exec_bind_ok (exec_set _ c)]
          exact stays_dispatchInterest _ _ _ (h.erasePending k)
  | verdict k refused =>
      rw [RecordChecker.respond, Response.handle, exec_bind_ok (exec_get c)]
      cases hk : c.validating[k]? with
      | none => exact h
      | some v =>
          dsimp only
          rw [exec_bind_ok (exec_set _ c)]
          refine stays_onVerdict ?_ (h.validating v (List.mem_of_getElem? hk)) _
            (h.eraseValidating k)
          rintro rfl
          exact hanswers v (by simp [passedFor, hk])
  | segment e verdict =>
      obtain ⟨hpassed, hhanded⟩ := hsegments e verdict rfl
      exact h.segment hpassed hhanded

end

/-! ## The record of another certificate -/

section
open CheckerRuns (certificate versionedName)

local instance : NdnCxx := plainNdn []

end

end CertLedger.CheckerOrigins
