import CertLedger.PipelineSteps

/-!
# Pipelines with one pipe

The pipeline of a checker fetches one segment at a time. While its fetcher runs not
all segments are received; once they are, no segment is fetched any more, also for an
object that the pipeline is run on later.
-/
namespace CertLedger.SinglePipe
open TlvCodec FallibleState NdnObjects NdnPackets SegmentPipeline PipelineSteps

/-! ## Pipelines at rest -/

/-- The Interests of a trace. -/
def fetches (trace : List Action) : List Interest :=
  trace.filterMap fun
    | .fetch interest => some interest
    | _ => none

theorem fetches_append (trace new : List Action) :
    fetches (trace ++ new) = fetches trace ++ fetches new := List.filterMap_append

/-- No fetcher runs. -/
def Idle (p : PipelineInterestsFixed) : Prop :=
  ∀ entry ∈ p.segmentFetchers, ∀ f ∈ entry, f.1.isRunning = false

theorem idle_new (options : Options) : Idle (.new options) := by
  intro entry he f hf
  rw [List.eq_of_mem_replicate he] at hf
  cases hf

/-- With one pipe at most, a fetcher that does not run leaves the pipeline at rest. -/
theorem idle_setFetcher {p : PipelineInterestsFixed} (h : p.segmentFetchers.length ≤ 1) (pipeNo : ℕ)
    {f : DataFetcher} (hf : f.isRunning = false) (k : ℕ)
    (hp : pipeNo < p.segmentFetchers.length ∨ Idle p) : Idle (p.setFetcher pipeNo f k) := by
  intro entry he g hg
  obtain ⟨j, hj, rfl⟩ := List.mem_iff_getElem.mp he
  simp only [PipelineInterestsFixed.setFetcher, List.length_set, List.getElem_set] at hj hg
  split_ifs at hg with heq
  · obtain rfl := Option.mem_some.mp hg
    exact hf
  · rcases hp with hp | hp
    · omega
    · exact hp _ (List.getElem_mem _) g hg

section
variable {ω : Type} {t : Transfer ω}

theorem Idle.of_has {p : PipelineInterestsFixed} (h : Idle p) {pipeNo : ℕ} {f : DataFetcher} {k : ℕ}
    (hf : Has p pipeNo f k) : f.isRunning = false := h _ (List.mem_of_getElem? hf) (f, k) rfl

theorem Idle.running (h : Idle t.pipeline) (pipeNo : ℕ) : DataFetcher.running t pipeNo = none := by
  cases hf : DataFetcher.running t pipeNo with
  | none => rfl
  | some f =>
      obtain ⟨hhas, hrun⟩ := has_of_running hf
      rw [h.of_has hhas] at hrun
      cases hrun

theorem Idle.settles {t' : Transfer ω} (h : Idle t.pipeline) (hs : Settles t t') :
    Idle t'.pipeline := by
  intro entry he f hf
  obtain ⟨pipeNo, hhas⟩ := has_of_mem he hf
  obtain ⟨f', hf', -, hsame⟩ := hs.fetcher pipeNo f.1 f.2 hhas
  rcases hsame with hsame | hstop
  · rw [hsame]
    exact h.of_has hf'
  · exact hstop

theorem Idle.waiting (h : Idle t.pipeline) (test : Interest → Bool) : waiting t test = [] := by
  simp [SegmentPipeline.waiting, h.running]

/-- Nothing happens to a pipeline at rest but what the validator says. -/
theorem Idle.handle (h : Idle t.pipeline) (cb : Block → Program PacketError ω Unit) (e : Event)
    (he : ∀ k refused, e ≠ .verdict k refused) : exec (e.handle {} cb) t = (.ok (), t) := by
  cases e with
  | data p v =>
      rw [Event.handle, exec_bind_ok (exec_get t), h.waiting]
      rfl
  | nack pipeNo reason =>
      rw [Event.handle, exec_bind_ok (exec_get t), h.waiting]
      rfl
  | timeout pipeNo =>
      rw [Event.handle, exec_bind_ok (exec_get t), h.waiting]
      rfl
  | backoff pipeNo =>
      rw [Event.handle, exec_bind_ok (exec_get t), h.running]
      rfl
  | verdict k refused => exact absurd rfl (he k refused)

end

/-! ## The pipeline while it fetches -/

/-- What the counters of a pipeline with one pipe say. -/
structure Orderly (p : PipelineInterestsFixed) : Prop where
  single : p.segmentFetchers.length ≤ 1
  counted : p.nReceived ≤ p.nextSegmentNo
  busy : ¬Idle p → p.nReceived < p.nextSegmentNo ∧ p.allSegmentsReceived = false

theorem Orderly.of_idle {p : PipelineInterestsFixed} (h : Idle p)
    (hsingle : p.segmentFetchers.length ≤ 1) (hcounted : p.nReceived ≤ p.nextSegmentNo) : Orderly p :=
  ⟨hsingle, hcounted, fun hbusy => absurd h hbusy⟩

section
variable {ω : Type} (S : ω → Prop) (cb : Block → Program PacketError ω Unit)

/-- The world is silent until the pipeline has received all segments. -/
structure Steady (t : Transfer ω) : Prop where
  orderly : Orderly t.pipeline
  told : S t.world ∨ t.pipeline.allSegmentsReceived = true

/-- The only fetcher has its answer, which is not counted yet. -/
structure Answered (t : Transfer ω) : Prop where
  idle : Idle t.pipeline
  single : t.pipeline.segmentFetchers.length ≤ 1
  counted : t.pipeline.nReceived < t.pipeline.nextSegmentNo
  told : S t.world

/-- The consumer leaves the pipeline alone, and calls back when all segments are received. -/
structure Consumes (t t' : Transfer ω) : Prop where
  pipeline : t'.pipeline = t.pipeline
  fetches : fetches t'.trace = fetches t.trace
  world : t'.world = t.world ∨
    t.pipeline.allSegmentsReceived = true ∧ ∃ block, t'.world = (exec (cb block) t.world).2

variable {S}

theorem Answered.steady {t : Transfer ω} (h : Answered S t) : Steady S t :=
  ⟨.of_idle h.idle h.single h.counted.le, .inl h.told⟩

theorem Consumes.refl (t : Transfer ω) : Consumes cb t t := ⟨rfl, rfl, .inl rfl⟩

variable {cb} in
theorem Consumes.steady {t t' : Transfer ω} (h : Consumes cb t t') (hs : Steady S t) :
    Steady S t' := by
  refine ⟨h.pipeline ▸ hs.orderly, ?_⟩
  rcases h.world with hw | hw
  · rw [hw, h.pipeline]
    exact hs.told
  · exact .inr (h.pipeline ▸ hw.1)

theorem consumes_onValidationSuccess (data : Packet) (t : Transfer ω) :
    Consumes cb t (exec (Consumer.onValidationSuccess cb data) t).2 := by
  rcases onValidationSuccess_cases cb data t with ht | ⟨k, -, ht⟩
  · rw [ht]
    exact Consumes.refl cb t
  · rw [ht]
    refine ⟨rfl, ?_, ?_⟩
    · have hnone : ∀ calls : List (ℕ × Buffer),
          fetches (calls.map fun call => .finish call.1 call.2) = [] := by
        intro calls
        induction calls with
        | nil => rfl
        | cons call calls ih => exact ih
      rw [fetches_append, hnone, List.append_nil]
    · rcases called_cases t.pipeline (SegmentRuns.written t.consumer data k) with
        hcall | ⟨hall, block, hblock, hcall⟩
      · rw [hcall]
        exact .inl rfl
      · rw [hcall]
        exact .inr ⟨hall, block, callAll_one cb hblock t.world _⟩

theorem consumes_handleData (data : Packet) (v : Verdict) (t : Transfer ω) :
    Consumes cb t (exec (Consumer.handleData cb data v) t).2 := by
  rcases consume_cases cb data v t with ⟨-, ht⟩ | ht | ht
  · rw [ht]
    exact consumes_onValidationSuccess cb data t
  · rw [ht]
    exact Consumes.refl cb t
  · rw [ht]
    exact ⟨rfl, rfl, .inl rfl⟩

theorem consumes_verdict (k : ℕ) (refused : Option String) (t : Transfer ω) :
    Consumes cb t (exec (Consumer.verdict cb k refused) t).2 := by
  rcases verdict_cases cb k refused t with ⟨-, ht⟩ | ⟨data, -, ⟨-, ht⟩ | ⟨-, ht⟩⟩
  · rw [ht]
    exact Consumes.refl cb t
  · rw [ht]
    have hpass := consumes_onValidationSuccess cb data
      (t.onConsumer fun c => { c with validating := c.validating.eraseIdx k })
    exact ⟨hpass.pipeline, hpass.fetches, hpass.world⟩
  · rw [ht]
    exact ⟨rfl, rfl, .inl rfl⟩

/-- No fetcher runs, but segments may wait for the validator. -/
structure Resting (S : ω → Prop) (t : Transfer ω) : Prop where
  idle : Idle t.pipeline
  single : t.pipeline.segmentFetchers.length ≤ 1
  counted : t.pipeline.nReceived ≤ t.pipeline.nextSegmentNo
  told : S t.world ∨ t.pipeline.allSegmentsReceived = true

/-- A fetcher runs. -/
structure Fetching (S : ω → Prop) (t : Transfer ω) (pipeNo : ℕ) : Prop where
  used : pipeNo < t.pipeline.segmentFetchers.length
  single : t.pipeline.segmentFetchers.length ≤ 1
  counted : t.pipeline.nReceived < t.pipeline.nextSegmentNo
  unfinished : t.pipeline.allSegmentsReceived = false
  told : S t.world

theorem Resting.steady {t : Transfer ω} (h : Resting S t) : Steady S t :=
  ⟨.of_idle h.idle h.single h.counted, h.told⟩

theorem Fetching.steady {t : Transfer ω} {pipeNo : ℕ} (h : Fetching S t pipeNo) : Steady S t :=
  ⟨⟨h.single, h.counted.le, fun _ => ⟨h.counted, h.unfinished⟩⟩, .inl h.told⟩

theorem Fetching.setFetcher {t : Transfer ω} {pipeNo : ℕ} (h : Fetching S t pipeNo)
    (f : DataFetcher) (k : ℕ) : Fetching S (t.onPipeline (·.setFetcher pipeNo f k)) pipeNo := by
  have hlength : (t.pipeline.setFetcher pipeNo f k).segmentFetchers.length =
      t.pipeline.segmentFetchers.length := List.length_set
  exact ⟨hlength ▸ h.used, hlength ▸ h.single, h.counted, h.unfinished, h.told⟩

theorem Fetching.stop {t : Transfer ω} {pipeNo : ℕ} (h : Fetching S t pipeNo) {f : DataFetcher}
    (hf : f.isRunning = false) (k : ℕ) : Answered S (t.onPipeline (·.setFetcher pipeNo f k)) := by
  have hset := h.setFetcher f k
  exact ⟨idle_setFetcher h.single pipeNo hf k (.inl h.used), hset.single, h.counted, h.told⟩

/-- The fetcher of a pipe that runs. -/
theorem Steady.fetching {t : Transfer ω} (h : Steady S t) {pipeNo : ℕ} {f : DataFetcher × ℕ}
    (hf : DataFetcher.running t pipeNo = some f) : Fetching S t pipeNo := by
  obtain ⟨hhas, hrun⟩ := has_of_running hf
  have hbusy : ¬Idle t.pipeline := by
    intro hidle
    rw [hidle.of_has hhas] at hrun
    cases hrun
  obtain ⟨hcounted, hunfinished⟩ := h.orderly.busy hbusy
  refine ⟨lt_of_has hhas, h.orderly.single, hcounted, hunfinished, ?_⟩
  exact h.told.resolve_right (by simp [hunfinished])

/-! ### What the parts of the pipeline keep -/

theorem Answered.settles {t t' : Transfer ω} (h : Answered S t) (hs : Settles t t') :
    Answered S t' := by
  refine ⟨h.idle.settles hs, hs.pipes.trans h.single, ?_, hs.world ▸ h.told⟩
  rw [hs.nReceived, hs.nextSegmentNo]
  exact h.counted

theorem Resting.fetchNextSegment {t : Transfer ω} (h : Resting S t)
    (hall : t.pipeline.allSegmentsReceived = false) (pipeNo : ℕ) :
    Steady S (exec (PipelineInterestsFixed.fetchNextSegment (ω := ω) {} pipeNo) t).2 := by
  have htold : S t.world := h.told.resolve_right (by simp [hall])
  rcases fetchNextSegment_cases {} pipeNo t with
    ⟨-, ht⟩ | ⟨-, -, ht⟩ | ⟨-, -, ⟨-, ht⟩ | ⟨i, -, -, ht⟩⟩
  · rw [ht]
    exact h.steady
  · rw [ht]
    have hs := settles_onFailure .noFinalSegment t
    have hcounted : (exec (PipelineInterests.onFailure .noFinalSegment) t).2.pipeline.nReceived ≤
        (exec (PipelineInterests.onFailure .noFinalSegment) t).2.pipeline.nextSegmentNo := by
      rw [hs.nReceived, hs.nextSegmentNo]
      exact h.counted
    exact ⟨.of_idle (h.idle.settles hs) (hs.pipes.trans h.single) hcounted, .inl (hs.world ▸ htold)⟩
  · rw [ht]
    exact ⟨.of_idle h.idle h.single (h.counted.trans (Nat.le_succ _)), .inl htold⟩
  · rw [ht]
    refine ⟨⟨?_, h.counted.trans (Nat.le_succ _), fun _ => ⟨Nat.lt_succ_of_le h.counted, hall⟩⟩,
      .inl htold⟩
    exact (List.length_set).trans_le h.single

theorem Fetching.fail {t : Transfer ω} {pipeNo : ℕ} (h : Fetching S t pipeNo) (f : DataFetcher)
    (k : ℕ) (reason : FetchFailure) : Steady S (exec (DataFetcher.fail pipeNo f k reason) t).2 := by
  rw [DataFetcher.fail, exec_bind_ok (exec_modify _ t)]
  have hstop := h.stop (f := { f with hasError := true, pendingInterest := false })
    (by simp [DataFetcher.isRunning]) k
  exact (hstop.settles (settles_handleFail reason pipeNo _)).steady

theorem Fetching.expressInterest {t : Transfer ω} {pipeNo : ℕ} (h : Fetching S t pipeNo)
    (f : DataFetcher) (k : ℕ) : Steady S (exec (DataFetcher.expressInterest pipeNo f k) t).2 := by
  have hset := (h.setFetcher { f with pendingInterest := true } k).steady
  exact ⟨hset.orderly, hset.told⟩

/-- The consumer gets what the only fetcher has got. -/
theorem Answered.consume {t : Transfer ω} (h : Answered S t) (data : Packet) (v : Verdict) :
    Resting S (exec (Consumer.handleData cb data v)
      (t.onPipeline fun p => { p with nReceived := p.nReceived + 1 })).2 := by
  have hcount : Resting S (t.onPipeline fun p => { p with nReceived := p.nReceived + 1 }) :=
    ⟨h.idle, h.single, h.counted, .inl h.told⟩
  have hconsume := consumes_handleData cb data v
    (t.onPipeline fun p => { p with nReceived := p.nReceived + 1 })
  have hsteady := hconsume.steady hcount.steady
  exact ⟨hconsume.pipeline ▸ hcount.idle, hsteady.orderly.single, hsteady.orderly.counted,
    hsteady.told⟩

theorem Steady.handleData {t : Transfer ω} (h : Steady S t) (pipeNo : ℕ) (data : Packet)
    (v : Verdict) : Steady S (exec (DataFetcher.handleData {} cb pipeNo data v) t).2 := by
  cases hf : DataFetcher.running t pipeNo with
  | none =>
      rw [handleData_idle {} cb hf]
      exact h
  | some f =>
      have hstop : Answered S (stopped t pipeNo f.1 f.2) :=
        (h.fetching hf).stop (by simp [DataFetcher.isRunning]) f.2
      rcases data_cases {} cb hf data v with hs | ⟨learned, hs, -, ht | ⟨hall, ht⟩⟩
      · exact (hstop.settles hs).steady
      · rw [ht]
        exact ((hstop.settles hs).consume cb data v).steady
      · rw [ht]
        exact ((hstop.settles hs).consume cb data v).fetchNextSegment hall pipeNo

/-- A fetcher that runs hears of something. -/
theorem Fetching.tended {t t' : Transfer ω} {pipeNo : ℕ} (h : Fetching S t pipeNo)
    {f : DataFetcher} {k : ℕ} {e : Event} (ht : Tended {} t pipeNo f k e t') : Steady S t' := by
  cases ht with
  | again => exact h.expressInterest _ k
  | wait => exact (h.setFetcher _ k).steady
  | giveUp _ reason => exact h.fail _ k reason

/-- Whatever happens to the segments. -/
theorem Steady.handle {t : Transfer ω} (h : Steady S t) (e : Event) :
    Steady S (exec (e.handle {} cb) t).2 := by
  refine handle_rule {} cb e h ?_ ?_ ?_
  · exact fun pipeNo f k t' _ hf ht => (h.fetching hf).tended ht
  · intro p v _
    exact Stays.foldlM (X := Steady S) (fun _ pipeNo t h => h.handleData cb pipeNo p v) _ () t h
  · exact fun i refused _ => (consumes_verdict cb i refused t).steady h

/-! ## The pipeline is run -/

/-- The last segment is known, and has been asked for. -/
structure Spent (p : PipelineInterestsFixed) : Prop where
  hasFinalBlockId : p.hasFinalBlockId = true
  asked : p.lastSegmentNo < p.nextSegmentNo
  idle : Idle p

theorem Steady.spent {t : Transfer ω} (h : Steady S t) (hs : ¬S t.world) : Spent t.pipeline := by
  have hall := h.told.resolve_left hs
  have hidle : Idle t.pipeline := by
    by_contra hbusy
    rw [(h.orderly.busy hbusy).2] at hall
    cases hall
  have hcounted := h.orderly.counted
  simp only [PipelineInterests.allSegmentsReceived, Bool.and_eq_true, decide_eq_true_eq] at hall
  obtain ⟨⟨hpos, hknown⟩, hlast⟩ := hall
  exact ⟨hknown, by omega, hidle⟩

/-- A segment is asked for in vain. -/
theorem Spent.fetchNextSegment {t : Transfer ω} (h : Spent t.pipeline) (pipeNo : ℕ) :
    let r := exec (PipelineInterestsFixed.fetchNextSegment (ω := ω) {} pipeNo) t
    r.1 = .ok false ∧ Spent r.2.pipeline ∧ r.2.consumer = t.consumer ∧ r.2.world = t.world ∧
      fetches r.2.trace = fetches t.trace := by
  rw [PipelineInterestsFixed.fetchNextSegment, exec_bind_ok (exec_get t)]
  split_ifs with hstop hfail
  · exact ⟨rfl, h, rfl, rfl, rfl⟩
  · have hmodify := exec_modify (ε := PacketError) (fun t : Transfer ω =>
      if t.pipeline.isStopping then t
      else (t.onPipeline (·.cancel)).act (.failure .noFinalSegment)) t
    rw [if_neg hstop] at hmodify
    rw [PipelineInterests.onFailure, exec_bind_ok hmodify]
    have hcancel : t.pipeline.cancel =
        { t.pipeline with isStopping := true, segmentFetchers := [] } := if_neg hstop
    refine ⟨rfl, ⟨?_, ?_, h.idle.settles (.cancel t _)⟩, rfl, rfl, ?_⟩
    · exact (congrArg (·.hasFinalBlockId) hcancel).trans h.hasFinalBlockId
    · have hasked := h.asked
      simpa [Transfer.act, Transfer.onPipeline, hcancel] using hasked
    · exact (fetches_append t.trace _).trans (List.append_nil _)
  · rw [exec_bind_ok (exec_set _ t), if_pos ⟨h.hasFinalBlockId, h.asked⟩]
    exact ⟨rfl, ⟨h.hasFinalBlockId, h.asked.trans (Nat.lt_succ_self _), h.idle⟩, rfl, rfl, rfl⟩

/-- A consumer that is run on a pipeline that has done its work gets nothing. -/
theorem Spent.run {t : Transfer ω} (h : Spent t.pipeline) (versionedName : Name) :
    let t' := (exec (Consumer.run (ω := ω) {} versionedName) t).2
    Spent t'.pipeline ∧ t'.consumer = {} ∧ t'.world = t.world ∧ fetches t'.trace = fetches t.trace := by
  let t₁ : Transfer ω := { t with
    consumer := {}
    pipeline := { t.pipeline with versionedName := versionedName } }
  have hrun : exec (Consumer.run (ω := ω) {} versionedName) t = exec (do
      if ← PipelineInterestsFixed.fetchNextSegment {} 0 then
        PipelineInterestsFixed.doRunFrom {} 0 1
      else return ()) t₁ := by
    rw [Consumer.run, exec_bind_ok (exec_modify _ t)]
    rfl
  have h₁ : Spent t₁.pipeline := ⟨h.hasFinalBlockId, h.asked, h.idle⟩
  obtain ⟨hfalse, hspent, hconsumer, hworld, hfetches⟩ := h₁.fetchNextSegment 0
  have hfetch : exec (PipelineInterestsFixed.fetchNextSegment (ω := ω) {} 0) t₁ =
      (.ok false, (exec (PipelineInterestsFixed.fetchNextSegment (ω := ω) {} 0) t₁).2) :=
    Prod.ext hfalse rfl
  rw [hrun, exec_bind_ok hfetch]
  exact ⟨hspent, hconsumer, hworld, hfetches⟩

/-- A fresh pipeline fetches the first segment, if its name is the name of an Interest. -/
theorem run_new {t : Transfer ω} (h : t.pipeline = .new {}) (versionedName : Name) :
    let t' := (exec (Consumer.run (ω := ω) {} versionedName) t).2
    t'.world = t.world ∧ t'.consumer = {} ∧
      match Interest.ofName (versionedName ++ [fromSegment 0]) with
      | some i => fetches t'.trace = fetches t.trace ++ [i] ∧ (S t.world → Steady S t')
      | none => Idle t'.pipeline ∧ fetches t'.trace = fetches t.trace := by
  let t₁ : Transfer ω := { t with
    consumer := {}
    pipeline := { (.new {} : PipelineInterestsFixed) with
      versionedName := versionedName
      nextSegmentNo := 1 } }
  have hfetch : exec (PipelineInterestsFixed.fetchNextSegment (ω := ω) {} 0) { t with
      consumer := {}
      pipeline := { t.pipeline with versionedName := versionedName } } = exec (do
        let interest ← ofOption (Interest.ofName (versionedName ++ [fromSegment 0]))
        let interest := { interest with mustBeFresh := false }
        modify fun t => (t.act (.fetch interest)).onPipeline
          (·.setFetcher 0 { interest := interest } 0)
        return true) t₁ := by
    rw [PipelineInterestsFixed.fetchNextSegment, exec_bind_ok (exec_get _), h]
    rfl
  have hrun : exec (Consumer.run (ω := ω) {} versionedName) t = exec (do
      if ← PipelineInterestsFixed.fetchNextSegment {} 0 then
        PipelineInterestsFixed.doRunFrom {} 0 1
      else return ()) { t with
        consumer := {}
        pipeline := { t.pipeline with versionedName := versionedName } } := by
    rw [Consumer.run, exec_bind_ok (exec_modify _ t)]
    rfl
  rw [hrun, exec_bind, hfetch]
  cases hi : Interest.ofName (versionedName ++ [fromSegment 0]) with
  | none =>
      exact ⟨rfl, rfl, idle_new {}, rfl⟩
  | some i =>
      obtain rfl := Interest.name_ofName hi
      refine ⟨rfl, rfl, fetches_append t.trace _, fun hs => ⟨⟨le_rfl, Nat.zero_le _, ?_⟩, .inl hs⟩⟩
      exact fun _ => ⟨Nat.zero_lt_one, rfl⟩

end

end CertLedger.SinglePipe
