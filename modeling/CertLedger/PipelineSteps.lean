import CertLedger.SegmentRuns

/-!
# The steps of a transfer

What the handlers of a pipeline and of its consumer may do to a transfer. What holds of
transfers is derived from these lemmas, and the handlers are not opened again.
-/
namespace CertLedger.PipelineSteps
open TlvCodec FallibleState NdnObjects NdnPackets Reassembly SegmentPipeline SegmentRuns

/-! ## Fetchers -/

/-- The fetcher of a pipe and its segment. -/
def Has (p : PipelineInterestsFixed) (pipeNo : ℕ) (f : DataFetcher) (k : ℕ) : Prop :=
  p.segmentFetchers[pipeNo]? = some (some (f, k))

section
variable {p : PipelineInterestsFixed} {pipeNo j : ℕ} {f g : DataFetcher} {k i : ℕ}

theorem lt_of_has (h : Has p pipeNo f k) : pipeNo < p.segmentFetchers.length :=
  (List.getElem?_eq_some_iff.mp h).1

theorem Has.unique (h : Has p pipeNo f k) (h' : Has p pipeNo g i) : f = g ∧ k = i :=
  Prod.mk.inj (Option.some.inj (Option.some.inj (h.symm.trans h')))

theorem has_setFetcher (h : Has (p.setFetcher pipeNo f k) j g i) :
    (j = pipeNo ∧ g = f ∧ i = k) ∨ Has p j g i := by
  rw [Has, PipelineInterestsFixed.setFetcher, List.getElem?_set] at h
  split_ifs at h with heq hlt
  · obtain ⟨rfl, rfl⟩ := Prod.mk.inj (Option.some.inj (Option.some.inj h))
    exact .inl ⟨heq.symm, rfl, rfl⟩
  · exact .inr h

theorem has_setFetcher_self (h : pipeNo < p.segmentFetchers.length) (f : DataFetcher) (k : ℕ) :
    Has (p.setFetcher pipeNo f k) pipeNo f k := by
  rw [Has, PipelineInterestsFixed.setFetcher, List.getElem?_set_self h]

theorem has_setFetcher_ne (h : Has p j g i) (hne : pipeNo ≠ j) (f : DataFetcher) (k : ℕ) :
    Has (p.setFetcher pipeNo f k) j g i := by
  rw [Has, PipelineInterestsFixed.setFetcher, List.getElem?_set_ne hne]
  exact h

theorem has_cancelAfter {segmentNo : ℕ} (h : Has (p.cancelAfter segmentNo) pipeNo f k) :
    ∃ f', Has p pipeNo f' k ∧ f = if segmentNo < k then f'.cancel else f' := by
  rw [Has, PipelineInterestsFixed.cancelAfter, List.getElem?_map] at h
  obtain ⟨entry, hentry, hmap⟩ := Option.map_eq_some_iff.mp h
  obtain ⟨⟨f', k'⟩, rfl, hf⟩ := Option.map_eq_some_iff.mp hmap
  dsimp only at hf
  split_ifs at hf with hlt
  · obtain ⟨rfl, rfl⟩ := Prod.mk.inj hf
    exact ⟨f', hentry, (if_pos hlt).symm⟩
  · obtain ⟨rfl, rfl⟩ := Prod.mk.inj hf
    exact ⟨f', hentry, (if_neg hlt).symm⟩

theorem has_of_mem {entry : Option (DataFetcher × ℕ)} (he : entry ∈ p.segmentFetchers)
    {f : DataFetcher × ℕ} (hf : f ∈ entry) : ∃ pipeNo, Has p pipeNo f.1 f.2 := by
  obtain ⟨pipeNo, hpipe⟩ := List.mem_iff_getElem?.mp he
  exact ⟨pipeNo, hpipe.trans (congrArg some hf)⟩

theorem not_has_new (options : Options) (pipeNo : ℕ) (f : DataFetcher) (k : ℕ) :
    ¬Has (.new options) pipeNo f k := by
  rw [Has, PipelineInterestsFixed.new, List.getElem?_replicate]
  split_ifs <;> simp

theorem cancel_spec (f : DataFetcher) : f.cancel.interest = f.interest ∧
    f.cancel.isRunning = false := by
  rw [DataFetcher.cancel]
  split_ifs with hrun
  · exact ⟨rfl, rfl⟩
  · exact ⟨rfl, by simpa using hrun⟩

end

section
variable {ω : Type} {t t' t'' : Transfer ω} {pipeNo : ℕ} {f : DataFetcher} {k : ℕ}

/-- The fetcher of a pipe that runs. -/
theorem has_of_running {f : DataFetcher × ℕ} (h : DataFetcher.running t pipeNo = some f) :
    Has t.pipeline pipeNo f.1 f.2 ∧ f.1.isRunning = true := by
  obtain ⟨hjoin, hrun⟩ := Option.filter_eq_some_iff.mp h
  obtain ⟨entry, he, hentry⟩ : ∃ entry, t.pipeline.segmentFetchers[pipeNo]? = some entry ∧
      entry = some f := by simpa [Option.join_eq_some_iff] using hjoin
  exact ⟨he.trans (congrArg some hentry), hrun⟩

theorem running_of_has (h : Has t.pipeline pipeNo f k) (hrun : f.isRunning = true) :
    DataFetcher.running t pipeNo = some (f, k) := by
  rw [Has] at h
  simp [DataFetcher.running, h, hrun, Option.filter]

theorem of_waiting {test : Interest → Bool} (h : pipeNo ∈ waiting t test) :
    ∃ f k, DataFetcher.running t pipeNo = some (f, k) ∧ f.pendingInterest = true ∧
      test f.interest = true := by
  have hany := (List.mem_filter.mp h).2
  cases hf : DataFetcher.running t pipeNo with
  | none => simp [hf] at hany
  | some f =>
      rw [hf, Option.any_some, Bool.and_eq_true] at hany
      exact ⟨f.1, f.2, rfl, hany⟩

/-! ## Pipelines that learn and give up -/

/-- A pipeline fetches no more than before, and tells failures at most. -/
structure Settles (t t' : Transfer ω) : Prop where
  consumer : t'.consumer = t.consumer
  world : t'.world = t.world
  trace : ∃ reasons : List FetchFailure, t'.trace = t.trace ++ reasons.map .failure
  versionedName : t'.pipeline.versionedName = t.pipeline.versionedName
  nReceived : t'.pipeline.nReceived = t.pipeline.nReceived
  nextSegmentNo : t'.pipeline.nextSegmentNo = t.pipeline.nextSegmentNo
  pipes : t'.pipeline.segmentFetchers.length ≤ t.pipeline.segmentFetchers.length
  fetcher : ∀ pipeNo f k, Has t'.pipeline pipeNo f k →
    ∃ f', Has t.pipeline pipeNo f' k ∧ f.interest = f'.interest ∧ (f = f' ∨ f.isRunning = false)

namespace Settles

/-- The flags of a pipeline may change, and what it knows of the last segment. -/
theorem of_fetchers (t : Transfer ω) {p : PipelineInterestsFixed}
    (hname : p.versionedName = t.pipeline.versionedName)
    (hreceived : p.nReceived = t.pipeline.nReceived)
    (hnext : p.nextSegmentNo = t.pipeline.nextSegmentNo)
    (hf : p.segmentFetchers = t.pipeline.segmentFetchers) :
    Settles t (t.onPipeline fun _ => p) := by
  refine ⟨rfl, rfl, ⟨[], (List.append_nil _).symm⟩, hname, hreceived, hnext, ?_, ?_⟩
  · exact (congrArg List.length hf).le
  · intro pipeNo f k h
    refine ⟨f, ?_, rfl, .inl rfl⟩
    rwa [Has, ← hf]

theorem refl (t : Transfer ω) : Settles t t := of_fetchers t rfl rfl rfl rfl

theorem trans (t t' t'' : Transfer ω) (h : Settles t t') (h' : Settles t' t'') : Settles t t'' where
  consumer := h'.consumer.trans h.consumer
  world := h'.world.trans h.world
  trace := by
    obtain ⟨reasons, htrace⟩ := h.trace
    obtain ⟨reasons', htrace'⟩ := h'.trace
    refine ⟨reasons ++ reasons', ?_⟩
    rw [htrace', htrace, List.map_append, List.append_assoc]
  versionedName := h'.versionedName.trans h.versionedName
  nReceived := h'.nReceived.trans h.nReceived
  nextSegmentNo := h'.nextSegmentNo.trans h.nextSegmentNo
  pipes := h'.pipes.trans h.pipes
  fetcher pipeNo f k hf := by
    obtain ⟨f', hf', hi, hsame⟩ := h'.fetcher pipeNo f k hf
    obtain ⟨f'', hf'', hi', hsame'⟩ := h.fetcher pipeNo f' k hf'
    refine ⟨f'', hf'', hi.trans hi', ?_⟩
    rcases hsame with rfl | hstop
    · exact hsame'
    · exact .inr hstop

/-- The finish callback is not called. -/
theorem finishes (h : Settles t t') : SegmentRuns.finishes t'.trace = SegmentRuns.finishes t.trace := by
  have hnone : ∀ reasons : List FetchFailure, SegmentRuns.finishes (reasons.map .failure) = [] := by
    intro reasons
    induction reasons with
    | nil => rfl
    | cons reason reasons ih => exact ih
  obtain ⟨reasons, htrace⟩ := h.trace
  rw [htrace, finishes_append, hnone, List.append_nil]

theorem cancelAfter (t : Transfer ω) (segmentNo : ℕ) :
    Settles t (t.onPipeline (·.cancelAfter segmentNo)) := by
  refine ⟨rfl, rfl, ⟨[], (List.append_nil _).symm⟩, rfl, rfl, rfl, (List.length_map _).le, ?_⟩
  intro pipeNo f k hf
  obtain ⟨f', hf', rfl⟩ := has_cancelAfter hf
  obtain ⟨hi, hstop⟩ := cancel_spec f'
  refine ⟨f', hf', ?_⟩
  split_ifs
  · exact ⟨hi, .inr hstop⟩
  · exact ⟨rfl, .inl rfl⟩

theorem cancel (t : Transfer ω) (reason : FetchFailure) :
    Settles t ((t.onPipeline (·.cancel)).act (.failure reason)) := by
  by_cases hstop : t.pipeline.isStopping = true
  · have hsame : t.pipeline.cancel = t.pipeline := if_pos hstop
    have htrans := refl t
    refine ⟨rfl, rfl, ⟨[reason], rfl⟩, ?_, ?_, ?_, ?_, ?_⟩
    all_goals simp only [Transfer.act, Transfer.onPipeline, hsame]
    · exact le_rfl
    · exact htrans.fetcher
  · have hcancel : t.pipeline.cancel =
        { t.pipeline with isStopping := true, segmentFetchers := [] } := if_neg hstop
    refine ⟨rfl, rfl, ⟨[reason], rfl⟩, ?_, ?_, ?_, ?_, ?_⟩
    all_goals simp only [Transfer.act, Transfer.onPipeline, hcancel]
    · exact Nat.zero_le _
    · intro pipeNo f k hf
      simp [Has] at hf

end Settles

theorem onFailure_cases (reason : FetchFailure) (t : Transfer ω) :
    let t' := (exec (PipelineInterests.onFailure reason) t).2
    (t.pipeline.isStopping = true ∧ t' = t) ∨
      (t.pipeline.isStopping = false ∧ t' = (t.onPipeline (·.cancel)).act (.failure reason)) := by
  rw [PipelineInterests.onFailure, exec_modify]
  dsimp only
  split_ifs with hstop
  · exact .inl ⟨hstop, rfl⟩
  · exact .inr ⟨by simpa using hstop, rfl⟩

theorem settles_onFailure (reason : FetchFailure) :
    Respects Settles (PipelineInterests.onFailure (ω := ω) reason) := by
  intro t
  rcases onFailure_cases reason t with ⟨-, ht⟩ | ⟨-, ht⟩
  · rw [ht]
    exact .refl t
  · rw [ht]
    exact .cancel t reason

/-- What a packet does that may tell the last segment. -/
theorem learnFinalBlock_cases (data : Packet) (t : Transfer ω) :
    let r := exec (PipelineInterestsFixed.learnFinalBlock data) t
    (r.2 = t ∧ ∀ c last, data.finalBlock = some c → toSegment c = .ok last →
      t.pipeline.hasFinalBlockId = true ∧ r.1 = .ok true) ∨
    ∃ c last, data.finalBlock = some c ∧ toSegment c = .ok last ∧
      t.pipeline.hasFinalBlockId = false ∧
      let known := t.onPipeline fun p => { p with hasFinalBlockId := true, lastSegmentNo := last }
      (∃ pipeNo f k, Has t.pipeline pipeNo f k ∧ f.hasError = true ∧
        r = (.ok false, (exec (PipelineInterests.onFailure (.segment k)) known).2)) ∨
      r = (.ok true, known.onPipeline (·.cancelAfter last)) := by
  intro r
  have hr : r = exec (PipelineInterestsFixed.learnFinalBlock data) t := rfl
  rw [PipelineInterestsFixed.learnFinalBlock, exec_bind_ok (exec_get t)] at hr
  cases hfinal : data.finalBlock with
  | none =>
      rw [hfinal] at hr
      exact .inl ⟨congrArg Prod.snd hr, fun c last hc => by cases hc⟩
  | some c =>
      rw [hfinal] at hr
      dsimp only at hr
      split_ifs at hr with hknown
      · exact .inl ⟨congrArg Prod.snd hr, fun _ _ _ _ => ⟨hknown, congrArg Prod.fst hr⟩⟩
      · cases hlast : toSegment c with
        | error e =>
            rw [hlast] at hr
            refine .inl ⟨congrArg Prod.snd hr, fun c' last hc hl => ?_⟩
            obtain rfl := Option.some.inj hc
            rw [hlast] at hl
            cases hl
        | ok last =>
            rw [hlast, exec_bind_ok (exec_ofExcept_ok last t), exec_bind_ok (exec_modify _ t)] at hr
            refine .inr ⟨c, last, rfl, hlast, by simpa using hknown, ?_⟩
            split at hr
            · rename_i k hfailed
              obtain ⟨entry, he, hentry⟩ := List.exists_of_findSome?_eq_some hfailed
              obtain ⟨f, hf, hsegment⟩ := Option.bind_eq_some_iff.mp hentry
              split_ifs at hsegment with herror
              obtain ⟨pipeNo, hhas⟩ := has_of_mem he hf
              obtain rfl := Option.some.inj hsegment
              refine .inl ⟨pipeNo, f.1, f.2, hhas, herror.2, ?_⟩
              rw [hr, exec_bind]
              rfl
            · exact .inr hr

theorem settles_learnFinalBlock (data : Packet) :
    Respects Settles (PipelineInterestsFixed.learnFinalBlock (ω := ω) data) := by
  intro t
  have hknown : ∀ last, Settles t (t.onPipeline fun p =>
      { p with hasFinalBlockId := true, lastSegmentNo := last }) :=
    fun last => .of_fetchers t rfl rfl rfl rfl
  rcases learnFinalBlock_cases data t with
    ⟨ht, -⟩ | ⟨c, last, -, -, -, ⟨-, -, k, -, -, hr⟩ | hr⟩
  · rw [ht]
    exact .refl t
  · rw [hr]
    exact .trans _ _ _ (hknown last) (settles_onFailure (.segment k) _)
  · rw [hr]
    exact .trans _ _ _ (hknown last) (.cancelAfter _ last)

/-- What a pipeline does about a fetcher that has given up. -/
theorem handleFail_cases (reason : FetchFailure) (pipeNo : ℕ) (t : Transfer ω) :
    let t' := (exec (PipelineInterestsFixed.handleFail reason pipeNo) t).2
    (t' = t ∧ (t.pipeline.isStopping = false → ∀ f k, Has t.pipeline pipeNo f k →
      t.pipeline.hasFinalBlockId = true ∧ t.pipeline.lastSegmentNo < k)) ∨
    t.pipeline.isStopping = false ∧ ∃ f k, Has t.pipeline pipeNo f k ∧
      let cancelled := t.onPipeline (·.cancelAfter k)
      (t' = (exec (PipelineInterests.onFailure reason) t).2 ∨
      t.pipeline.hasFinalBlockId = false ∧
        ((∃ j g i, Has t.pipeline j g i ∧ i ≤ k ∧ g.isRunning = true) ∧
          t' = cancelled.onPipeline ({ · with hasFailure := true }) ∨
        t' = (exec (PipelineInterests.onFailure .noFinalSegment) cancelled).2)) := by
  intro t'
  have ht' : t' = (exec (PipelineInterestsFixed.handleFail reason pipeNo) t).2 := rfl
  rw [PipelineInterestsFixed.handleFail, exec_bind_ok (exec_get t)] at ht'
  by_cases hstop : t.pipeline.isStopping = true
  · rw [if_pos hstop] at ht'
    exact .inl ⟨ht', fun hgoes => by simp [hstop] at hgoes⟩
  · rw [if_neg hstop] at ht'
    split at ht'
    · rename_i failed hfailed
      have hgoes : t.pipeline.isStopping = false := by simpa using hstop
      split_ifs at ht' with hknown hle hany
      · exact .inr ⟨hgoes, failed.1, failed.2, hfailed, .inl ht'⟩
      · refine .inl ⟨ht', fun _ f k hf => ⟨hknown, ?_⟩⟩
        obtain ⟨-, rfl⟩ := Has.unique (f := failed.1) (k := failed.2) hfailed hf
        exact Nat.not_le.mp hle
      · refine .inr ⟨hgoes, failed.1, failed.2, hfailed, .inr ⟨by simpa using hknown, .inl ⟨?_, ht'⟩⟩⟩
        obtain ⟨entry, he, hentry⟩ := List.any_eq_true.mp hany
        obtain ⟨g, hg, hrun⟩ := (Option.any_eq_true _ _).mp hentry
        obtain ⟨j, hj⟩ := has_of_mem he hg
        simp only [Bool.and_eq_true, decide_eq_true_eq] at hrun
        exact ⟨j, g.1, g.2, hj, hrun⟩
      · refine .inr ⟨hgoes, failed.1, failed.2, hfailed, .inr ⟨by simpa using hknown, .inr ?_⟩⟩
        rw [ht', exec_bind_ok (exec_set _ t)]
    · rename_i hnone
      exact .inl ⟨ht', fun _ f k hf => absurd hf (hnone (f, k))⟩

theorem settles_handleFail (reason : FetchFailure) (pipeNo : ℕ) :
    Respects Settles (PipelineInterestsFixed.handleFail (ω := ω) reason pipeNo) := by
  intro t
  rcases handleFail_cases reason pipeNo t with
    ⟨ht, -⟩ | ⟨-, f, k, -, ht | ⟨-, ⟨-, ht⟩ | ht⟩⟩
  · rw [ht]
    exact .refl t
  · rw [ht]
    exact settles_onFailure reason t
  · rw [ht]
    exact .trans _ _ _ (.cancelAfter t k) (.of_fetchers _ rfl rfl rfl rfl)
  · rw [ht]
    exact .trans _ _ _ (.cancelAfter t k) (settles_onFailure _ _)

/-! ## Segments that are asked for -/

variable (options : Options)

/-- What asking for the next segment does: nothing, a failure, or one more is counted and,
where the name of an Interest is well formed, fetched. -/
theorem fetchNextSegment_cases (pipeNo : ℕ) (t : Transfer ω) :
    let t' := (exec (PipelineInterestsFixed.fetchNextSegment options pipeNo) t).2
    let counted := t.onPipeline fun p => { p with nextSegmentNo := p.nextSegmentNo + 1 }
    (t.pipeline.isStopping = true ∧ t' = t) ∨
    (t.pipeline.isStopping = false ∧ t.pipeline.hasFailure = true ∧
      t' = (exec (PipelineInterests.onFailure .noFinalSegment) t).2) ∨
    (t.pipeline.isStopping = false ∧ t.pipeline.hasFailure = false ∧
      ((t.pipeline.hasFinalBlockId = true ∧ t.pipeline.lastSegmentNo < t.pipeline.nextSegmentNo ∨
        Interest.ofName (t.pipeline.versionedName ++ [fromSegment t.pipeline.nextSegmentNo]) = none) ∧
        t' = counted ∨
      ∃ i : Interest, i.name = t.pipeline.versionedName ++ [fromSegment t.pipeline.nextSegmentNo] ∧
        i.canBePrefix = false ∧ t' = (counted.act (.fetch i)).onPipeline
          (·.setFetcher pipeNo { interest := i } t.pipeline.nextSegmentNo))) := by
  intro t' counted
  have ht' : t' = (exec (PipelineInterestsFixed.fetchNextSegment options pipeNo) t).2 := rfl
  rw [PipelineInterestsFixed.fetchNextSegment, exec_bind_ok (exec_get t)] at ht'
  split_ifs at ht' with hstop hfailure
  · exact .inl ⟨hstop, ht'⟩
  · refine .inr (.inl ⟨by simpa using hstop, hfailure, ?_⟩)
    rw [ht', exec_bind]
    rfl
  · rw [exec_bind_ok (exec_set _ t)] at ht'
    refine .inr (.inr ⟨by simpa using hstop, by simpa using hfailure, ?_⟩)
    split_ifs at ht' with hlast
    · exact .inl ⟨.inl hlast, ht'⟩
    · cases hi : Interest.ofName (t.pipeline.versionedName ++
          [fromSegment t.pipeline.nextSegmentNo]) with
      | none =>
          rw [hi] at ht'
          exact .inl ⟨.inr rfl, ht'⟩
      | some i =>
          rw [hi, exec_bind_ok (exec_ofOption_some i _), exec_bind_ok (exec_modify _ _)] at ht'
          obtain rfl := Interest.name_ofName hi
          exact .inr ⟨{
            name := t.pipeline.versionedName ++ [fromSegment t.pipeline.nextSegmentNo]
            mustBeFresh := options.mustBeFresh }, rfl, rfl, ht'⟩

theorem fetchNextSegment_beside (pipeNo : ℕ) (t : Transfer ω) :
    let t' := (exec (PipelineInterestsFixed.fetchNextSegment options pipeNo) t).2
    t'.consumer = t.consumer ∧ t'.pipeline.nReceived = t.pipeline.nReceived ∧
      finishes t'.trace = finishes t.trace := by
  rcases fetchNextSegment_cases options pipeNo t with
    ⟨-, ht⟩ | ⟨-, -, ht⟩ | ⟨-, -, ⟨-, ht⟩ | ⟨i, -, -, ht⟩⟩
  · rw [ht]
    exact ⟨rfl, rfl, rfl⟩
  · rw [ht]
    have hsettles := settles_onFailure .noFinalSegment t
    exact ⟨hsettles.consumer, hsettles.nReceived, hsettles.finishes⟩
  · rw [ht]
    exact ⟨rfl, rfl, rfl⟩
  · rw [ht]
    exact ⟨rfl, rfl, (finishes_append t.trace _).trans (List.append_nil _)⟩

/-- The loop of a run keeps what asking for one segment keeps. -/
theorem stays_doRunFrom {X : Transfer ω → Prop}
    (h : ∀ pipeNo, Stays X (PipelineInterestsFixed.fetchNextSegment options pipeNo))
    (pipes pipeNo : ℕ) : Stays X (PipelineInterestsFixed.doRunFrom options pipes pipeNo) := by
  induction pipes generalizing pipeNo with
  | zero => exact Stays.pure ()
  | succ pipes ih =>
      refine Stays.bind (h pipeNo) fun more => ?_
      cases more with
      | false => exact Stays.pure ()
      | true => exact ih (pipeNo + 1)

/-! ## The consumer -/

variable (cb : Block → Program PacketError ω Unit)

/-- The finish callback is called with the element that the output buffer begins with, once
all segments are received. -/
theorem called_cases (p : PipelineInterestsFixed) (c : Consumer) :
    called p c = [] ∨ p.allSegmentsReceived = true ∧ ∃ block,
      blockOfBuffer c.outputBuffer = .ok block ∧ called p c = [(c.nextToPrint, c.outputBuffer)] := by
  rw [called]
  split_ifs with h
  · obtain ⟨r, hr⟩ := Option.isSome_iff_exists.mp h.2
    exact .inr ⟨h.1, r.1, by rw [blockOfBuffer, hr], rfl⟩
  · exact .inl rfl

theorem callAll_one {buffer : Buffer} {block : Block} (h : blockOfBuffer buffer = .ok block)
    (world : ω) (n : ℕ) : callAll cb world [(n, buffer)] = (exec (cb block) world).2 := by
  rw [blockOfBuffer] at h
  rw [callAll, List.foldl_cons, List.foldl_nil]
  split at h
  · rename_i hread
    rw [hread]
    cases h
    rfl
  · cases h

/-- The consumer throws at once, or it writes and may call back. -/
theorem onValidationSuccess_cases (data : Packet) (t : Transfer ω) :
    let t' := (exec (Consumer.onValidationSuccess cb data) t).2
    t' = t ∨ ∃ k, getSegmentFromPacket data = .ok k ∧
      let calls := called t.pipeline (written t.consumer data k)
      t' = { t with
        consumer := written t.consumer data k
        world := callAll cb t.world calls
        trace := t.trace ++ calls.map fun call => .finish call.1 call.2 } := by
  intro t'
  by_cases hnack : data.contentType = contentTypeNack
  · left
    change (exec (Consumer.onValidationSuccess cb data) t).2 = t
    rw [Consumer.onValidationSuccess, if_pos hnack]
    rfl
  · cases hk : getSegmentFromPacket data with
    | error e =>
        left
        change (exec (Consumer.onValidationSuccess cb data) t).2 = t
        rw [Consumer.onValidationSuccess, if_neg hnack, hk]
        rfl
    | ok k => exact .inr ⟨k, rfl, exec_onValidationSuccess cb hk hnack t⟩

/-- What the consumer does with Data that has come. -/
theorem consume_cases (data : Packet) (v : Verdict) (t : Transfer ω) :
    let t' := (exec (Consumer.handleData cb data v) t).2
    (v = .valid ∧ t' = (exec (Consumer.onValidationSuccess cb data) t).2) ∨ t' = t ∨
      t' = t.onConsumer fun c => { c with validating := c.validating ++ [data] } := by
  cases v with
  | valid => exact .inl ⟨rfl, rfl⟩
  | invalid info => exact .inr (.inl rfl)
  | later => exact .inr (.inr rfl)

/-- The consumer leaves the pipeline alone. -/
theorem pipeline_onValidationSuccess (data : Packet) (t : Transfer ω) :
    (exec (Consumer.onValidationSuccess cb data) t).2.pipeline = t.pipeline := by
  rcases onValidationSuccess_cases cb data t with ht | ⟨k, -, ht⟩
  · rw [ht]
  · rw [ht]

theorem pipeline_consume (data : Packet) (v : Verdict) (t : Transfer ω) :
    (exec (Consumer.handleData cb data v) t).2.pipeline = t.pipeline := by
  rcases consume_cases cb data v t with ⟨-, ht⟩ | ht | ht
  · rw [ht]
    exact pipeline_onValidationSuccess cb data t
  · rw [ht]
  · rw [ht]
    rfl

/-- The validator takes up what it has kept. -/
theorem verdict_cases (i : ℕ) (refused : Option String) (t : Transfer ω) :
    let t' := (exec (Consumer.verdict cb i refused) t).2
    (t.consumer.validating[i]? = none ∧ t' = t) ∨
      ∃ data, t.consumer.validating[i]? = some data ∧
        let left := t.onConsumer fun c => { c with validating := c.validating.eraseIdx i }
        (refused = none ∧ t' = (exec (Consumer.onValidationSuccess cb data) left).2 ∨
          refused ≠ none ∧ t' = left) := by
  rw [Consumer.verdict, exec_bind_ok (exec_get t)]
  cases hi : t.consumer.validating[i]? with
  | none => exact .inl ⟨rfl, rfl⟩
  | some data =>
      right
      dsimp only
      rw [exec_bind_ok (exec_set _ t)]
      cases refused with
      | none => exact ⟨data, rfl, .inl ⟨rfl, rfl⟩⟩
      | some info => exact ⟨data, rfl, .inr ⟨by simp, rfl⟩⟩

/-! ## Data that comes -/

/-- Where the handler of a segment stops. -/
theorem handleData_cases (pipeNo : ℕ) (data : Packet)
    (v : Verdict) (t : Transfer ω) :
    let t' := (exec (PipelineInterestsFixed.handleData options cb pipeNo data v) t).2
    let learned := (exec (PipelineInterestsFixed.learnFinalBlock data) t).2
    let got := (exec (PipelineInterests.onData cb data v) learned).2
    t' = t ∨ t' = learned ∨ t' = got ∨ got.pipeline.allSegmentsReceived = false ∧
      t' = (exec (PipelineInterestsFixed.fetchNextSegment options pipeNo) got).2 := by
  intro t' learned got
  have ht' : t' = (exec (PipelineInterestsFixed.handleData options cb pipeNo data v) t).2 := rfl
  rw [PipelineInterestsFixed.handleData, exec_bind_ok (exec_get t)] at ht'
  split_ifs at ht'
  · exact .inl ht'
  · right
    rw [exec_bind] at ht'
    rcases hx : exec (PipelineInterestsFixed.learnFinalBlock data) t with ⟨e | more, t₂⟩
    · have hlearned : learned = t₂ := congrArg Prod.snd hx
      rw [hx] at ht'
      exact .inl (ht'.trans hlearned.symm)
    · have hlearned : learned = t₂ := congrArg Prod.snd hx
      rw [hx] at ht'
      cases more with
      | false => exact .inl (ht'.trans hlearned.symm)
      | true =>
          right
          simp only [if_true] at ht'
          rw [← hlearned, exec_bind] at ht'
          rcases hy : exec (PipelineInterests.onData cb data v) learned with ⟨e | _, t₃⟩
          · have hgot : got = t₃ := congrArg Prod.snd hy
            rw [hy] at ht'
            exact .inl (ht'.trans hgot.symm)
          · have hgot : got = t₃ := congrArg Prod.snd hy
            rw [hy] at ht'
            dsimp only at ht'
            rw [exec_bind_ok (exec_get t₃), ← hgot] at ht'
            split_ifs at ht' with hall
            · exact .inl ht'
            · refine .inr ⟨by simpa using hall, ?_⟩
              rw [ht', exec_bind]
              rcases exec (PipelineInterestsFixed.fetchNextSegment options pipeNo) got
                with ⟨_ | _, t₄⟩
              · rfl
              · rfl

/-- A fetcher that has got its Data stops. -/
def stopped (t : Transfer ω) (pipeNo : ℕ) (f : DataFetcher) (k : ℕ) : Transfer ω :=
  t.onPipeline (·.setFetcher pipeNo { f with isStopped := true, pendingInterest := false } k)

theorem exec_handleData (hf : DataFetcher.running t pipeNo = some (f, k)) (data : Packet)
    (v : Verdict) : exec (DataFetcher.handleData options cb pipeNo data v) t =
      exec (PipelineInterestsFixed.handleData options cb pipeNo data v) (stopped t pipeNo f k) := by
  rw [DataFetcher.handleData, exec_bind_ok (exec_get t), hf]
  dsimp only
  rw [exec_bind_ok (exec_set _ t)]
  rfl

/-- Data for a fetcher that runs is dropped, or it is counted and the consumer gets it. -/
theorem data_cases (hf : DataFetcher.running t pipeNo = some (f, k)) (data : Packet) (v : Verdict) :
    let t' := (exec (DataFetcher.handleData options cb pipeNo data v) t).2
    Settles (stopped t pipeNo f k) t' ∨ ∃ learned, Settles (stopped t pipeNo f k) learned ∧
      t'.pipeline.nReceived = t.pipeline.nReceived + 1 ∧
      let got := (exec (Consumer.handleData cb data v)
        (learned.onPipeline fun p => { p with nReceived := p.nReceived + 1 })).2
      t' = got ∨ got.pipeline.allSegmentsReceived = false ∧
        t' = (exec (PipelineInterestsFixed.fetchNextSegment options pipeNo) got).2 := by
  have hlearned := settles_learnFinalBlock data (stopped t pipeNo f k)
  let counted := (exec (PipelineInterestsFixed.learnFinalBlock data) (stopped t pipeNo f k)).2.onPipeline
    fun p => { p with nReceived := p.nReceived + 1 }
  have hgot : (exec (Consumer.handleData cb data v) counted).2.pipeline.nReceived =
      t.pipeline.nReceived + 1 := by
    rw [pipeline_consume]
    exact congrArg (· + 1) hlearned.nReceived
  rw [exec_handleData options cb hf]
  rcases handleData_cases options cb pipeNo data v (stopped t pipeNo f k) with
    ht | ht | ht | ⟨hall, ht⟩
  · rw [ht]
    exact .inl (.refl _)
  · rw [ht]
    exact .inl hlearned
  · rw [ht]
    exact .inr ⟨_, hlearned, hgot, .inl rfl⟩
  · rw [ht]
    refine .inr ⟨_, hlearned, ?_, .inr ⟨hall, rfl⟩⟩
    exact (fetchNextSegment_beside options pipeNo _).2.1.trans hgot

theorem handleData_idle (hf : DataFetcher.running t pipeNo = none) (data : Packet) (v : Verdict) :
    exec (DataFetcher.handleData options cb pipeNo data v) t = (.ok (), t) := by
  rw [DataFetcher.handleData, exec_bind_ok (exec_get t), hf]
  rfl

theorem nReceived_handleData (pipeNo : ℕ) (data : Packet) (v : Verdict) :
    Respects (fun t t' => t.pipeline.nReceived ≤ t'.pipeline.nReceived)
      (DataFetcher.handleData options cb pipeNo data v) := by
  intro t
  cases hf : DataFetcher.running t pipeNo with
  | none =>
      rw [handleData_idle options cb hf]
  | some f =>
      rcases data_cases options cb hf data v with hs | ⟨-, -, hreceived, -⟩
      · exact hs.nReceived.ge
      · rw [hreceived]
        exact Nat.le_succ _

/-! ## Nacks, timeouts and backoffs -/

/-- A fetcher that has heard of an event. Retries without a limit are not counted. -/
def heard (f : DataFetcher) : SegmentPipeline.Event → DataFetcher
  | .nack _ _ => { f with
      nNacks := if options.maxRetriesOnTimeoutOrNack = MAX_RETRIES_INFINITE then f.nNacks
        else f.nNacks + 1 }
  | .timeout _ => { f with
      nTimeouts := if options.maxRetriesOnTimeoutOrNack = MAX_RETRIES_INFINITE then f.nTimeouts
        else f.nTimeouts + 1 }
  | _ => f

/-- A fetcher that has heard of an event goes on. -/
def Bears (f : DataFetcher) : SegmentPipeline.Event → Prop
  | .nack _ reason => (f.nNacks ≤ options.maxRetriesOnTimeoutOrNack ∨
      options.maxRetriesOnTimeoutOrNack = MAX_RETRIES_INFINITE) ∧ ∀ text, reason ≠ .other text
  | .timeout _ => f.nTimeouts ≤ options.maxRetriesOnTimeoutOrNack ∨
      options.maxRetriesOnTimeoutOrNack = MAX_RETRIES_INFINITE
  | _ => True

/-- A fetcher that hears of an event expresses its Interest again, or waits for the backoff
time, or gives up. -/
inductive Tended (t : Transfer ω) (pipeNo : ℕ) (f : DataFetcher) (k : ℕ) (e : SegmentPipeline.Event) :
    Transfer ω → Prop
  | again (h : Bears options (heard options f e) e) : Tended t pipeNo f k e
      (exec (DataFetcher.expressInterest pipeNo (heard options f e) k) t).2
  | wait (h : Bears options (heard options f e) e) (reason : NackReason) (he : e = .nack pipeNo reason) :
      Tended t pipeNo f k e (t.onPipeline
        (·.setFetcher pipeNo { heard options f e with pendingInterest := false } k))
  | giveUp (h : ¬Bears options (heard options f e) e) (reason : FetchFailure) :
      Tended t pipeNo f k e (exec (DataFetcher.fail pipeNo (heard options f e) k reason) t).2

theorem tended_handleNack (hf : DataFetcher.running t pipeNo = some (f, k)) (reason : NackReason) :
    Tended options t pipeNo f k (.nack pipeNo reason)
      (exec (DataFetcher.handleNack options pipeNo reason) t).2 := by
  simp only [DataFetcher.handleNack]
  rw [exec_bind_ok (exec_get t), hf]
  dsimp only
  by_cases hmore : (if options.maxRetriesOnTimeoutOrNack = MAX_RETRIES_INFINITE then f.nNacks
      else f.nNacks + 1) ≤ options.maxRetriesOnTimeoutOrNack ∨
    options.maxRetriesOnTimeoutOrNack = MAX_RETRIES_INFINITE
  · rw [if_pos hmore]
    cases reason with
    | DUPLICATE => exact .again ⟨hmore, by simp⟩
    | CONGESTION => exact .wait ⟨hmore, by simp⟩ .CONGESTION rfl
    | other text =>
        refine .giveUp ?_ _
        exact fun hbears => hbears.2 text rfl
  · rw [if_neg hmore]
    refine .giveUp ?_ _
    exact fun hbears => hmore hbears.1

theorem tended_handleTimeout (hf : DataFetcher.running t pipeNo = some (f, k)) :
    Tended options t pipeNo f k (.timeout pipeNo)
      (exec (DataFetcher.handleTimeout options pipeNo) t).2 := by
  simp only [DataFetcher.handleTimeout]
  rw [exec_bind_ok (exec_get t), hf]
  dsimp only
  by_cases hmore : (if options.maxRetriesOnTimeoutOrNack = MAX_RETRIES_INFINITE then f.nTimeouts
      else f.nTimeouts + 1) ≤ options.maxRetriesOnTimeoutOrNack ∨
    options.maxRetriesOnTimeoutOrNack = MAX_RETRIES_INFINITE
  · rw [if_pos hmore]
    exact .again hmore
  · rw [if_neg hmore]
    refine .giveUp ?_ _
    exact hmore

/-- The Interest of a fetcher is the same after an event, and whether it runs. -/
theorem heard_spec (f : DataFetcher) (e : SegmentPipeline.Event) :
    (heard options f e).interest = f.interest ∧ (heard options f e).hasError = f.hasError ∧
      (heard options f e).isRunning = f.isRunning := by
  cases e <;> exact ⟨rfl, rfl, rfl⟩

/-! ## Events -/

/-- The pipe whose fetcher hears of an event. -/
def pipeOf : SegmentPipeline.Event → Option ℕ
  | .nack pipeNo _ => some pipeNo
  | .timeout pipeNo => some pipeNo
  | .backoff pipeNo => some pipeNo
  | _ => none

/-- An event finds nothing that it is for, or a fetcher hears of it, or Data comes, or the
validator decides. -/
theorem handle_rule {J : Transfer ω → Prop} (e : SegmentPipeline.Event) (hmissed : J t)
    (htended : ∀ pipeNo f k t', pipeOf e = some pipeNo → DataFetcher.running t pipeNo = some (f, k) →
      Tended options t pipeNo f k e t' → J t')
    (hdata : ∀ p v, e = .data p v → J (exec ((waiting t (·.matchesName p.name)).foldlM
      (fun _ pipeNo => DataFetcher.handleData options cb pipeNo p v) ()) t).2)
    (hverdict : ∀ i refused, e = .verdict i refused → J (exec (Consumer.verdict cb i refused) t).2) :
    J (exec (e.handle options cb) t).2 := by
  cases e with
  | data p v =>
      rw [Event.handle, exec_bind_ok (exec_get t)]
      exact hdata p v rfl
  | nack pipeNo reason =>
      rw [Event.handle, exec_bind_ok (exec_get t)]
      split_ifs with hin
      · obtain ⟨f, k, hf, -⟩ := of_waiting hin
        exact htended pipeNo f k _ rfl hf (tended_handleNack options hf reason)
      · exact hmissed
  | timeout pipeNo =>
      rw [Event.handle, exec_bind_ok (exec_get t)]
      split_ifs with hin
      · obtain ⟨f, k, hf, -⟩ := of_waiting hin
        exact htended pipeNo f k _ rfl hf (tended_handleTimeout options hf)
      · exact hmissed
  | backoff pipeNo =>
      rw [Event.handle, exec_bind_ok (exec_get t)]
      cases hf : DataFetcher.running t pipeNo with
      | none => exact hmissed
      | some f =>
          dsimp only
          split_ifs
          · exact hmissed
          · exact htended pipeNo f.1 f.2 _ rfl hf (.again trivial)
  | verdict i refused => exact hverdict i refused rfl

/-- Data for one pipe. -/
theorem exec_foldlM_one (data : Packet) (v : Verdict) (t : Transfer ω) :
    (exec ([pipeNo].foldlM (fun _ pipeNo => DataFetcher.handleData options cb pipeNo data v) ()) t).2 =
      (exec (DataFetcher.handleData options cb pipeNo data v) t).2 := by
  rw [List.foldlM_cons, exec_bind]
  rcases exec (DataFetcher.handleData options cb pipeNo data v) t with ⟨_ | _, t'⟩
  · rfl
  · rfl

/-! ## Calls of the finish callback -/

/-- What has become of the world is the doing of the calls between. -/
def CallsBack (t t' : Transfer ω) : Prop := ∃ calls,
  finishes t'.trace = finishes t.trace ++ calls ∧ t'.world = callAll cb t.world calls

namespace CallsBack

theorem of_eq (hf : finishes t'.trace = finishes t.trace) (hw : t'.world = t.world) :
    CallsBack cb t t' := ⟨[], hf.trans (List.append_nil _).symm, hw⟩

theorem refl (t : Transfer ω) : CallsBack cb t t := of_eq cb rfl rfl

theorem trans (t t' t'' : Transfer ω) (h : CallsBack cb t t') (h' : CallsBack cb t' t'') :
    CallsBack cb t t'' := by
  obtain ⟨calls, hf, hw⟩ := h
  obtain ⟨calls', hf', hw'⟩ := h'
  refine ⟨calls ++ calls', ?_, ?_⟩
  · rw [hf', hf, List.append_assoc]
  · rw [hw', hw]
    exact List.foldl_append.symm

theorem of_settles (h : Settles t t') : CallsBack cb t t' := of_eq cb h.finishes h.world

variable {cb} in
/-- Without a call the world is the same. -/
theorem world_eq (h : CallsBack cb t t') (hf : finishes t'.trace = finishes t.trace) :
    t'.world = t.world := by
  obtain ⟨calls, hcalls, hw⟩ := h
  obtain rfl : calls = [] := List.append_right_eq_self.mp (hcalls.symm.trans hf)
  exact hw

theorem fetchNextSegment (pipeNo : ℕ) :
    Respects (CallsBack cb) (PipelineInterestsFixed.fetchNextSegment options pipeNo) := by
  intro t
  have hfinishes := (fetchNextSegment_beside options pipeNo t).2.2
  refine of_eq cb hfinishes ?_
  rcases fetchNextSegment_cases options pipeNo t with
    ⟨-, ht⟩ | ⟨-, -, ht⟩ | ⟨-, -, ⟨-, ht⟩ | ⟨i, -, -, ht⟩⟩
  · rw [ht]
  · rw [ht]
    exact (settles_onFailure .noFinalSegment t).world
  · rw [ht]
    rfl
  · rw [ht]
    rfl

theorem onValidationSuccess (data : Packet) :
    Respects (CallsBack cb) (Consumer.onValidationSuccess cb data) := by
  intro t
  rcases onValidationSuccess_cases cb data t with ht | ⟨k, -, ht⟩
  · rw [ht]
    exact refl cb t
  · rw [ht]
    refine ⟨called t.pipeline (written t.consumer data k), ?_, rfl⟩
    rw [finishes_append, finishes_calls]

theorem consume (data : Packet) (v : Verdict) :
    Respects (CallsBack cb) (Consumer.handleData cb data v) := by
  intro t
  rcases consume_cases cb data v t with ⟨-, ht⟩ | ht | ht
  · rw [ht]
    exact onValidationSuccess cb data t
  · rw [ht]
    exact refl cb t
  · rw [ht]
    exact of_eq cb rfl rfl

theorem verdict (i : ℕ) (refused : Option String) :
    Respects (CallsBack cb) (Consumer.verdict cb i refused) := by
  intro t
  have hleft : CallsBack cb t
      (t.onConsumer fun c => { c with validating := c.validating.eraseIdx i }) := of_eq cb rfl rfl
  rcases verdict_cases cb i refused t with ⟨-, ht⟩ | ⟨data, -, ⟨-, ht⟩ | ⟨-, ht⟩⟩
  · rw [ht]
    exact refl cb t
  · rw [ht]
    exact trans cb _ _ _ hleft (onValidationSuccess cb data _)
  · rw [ht]
    exact hleft

theorem handleData (pipeNo : ℕ) (data : Packet) (v : Verdict) :
    Respects (CallsBack cb) (DataFetcher.handleData options cb pipeNo data v) := by
  intro t
  cases hf : DataFetcher.running t pipeNo with
  | none =>
      rw [handleData_idle options cb hf]
      exact refl cb t
  | some f =>
      have hstop : CallsBack cb t (stopped t pipeNo f.1 f.2) := of_eq cb rfl rfl
      rcases data_cases options cb hf data v with hs | ⟨learned, hs, -, hcases⟩
      · exact trans cb _ _ _ hstop (of_settles cb hs)
      · have hcounted : CallsBack cb t
            (learned.onPipeline fun p => { p with nReceived := p.nReceived + 1 }) :=
          trans cb _ _ _ hstop (of_eq cb hs.finishes hs.world)
        have hgot := trans cb _ _ _ hcounted (consume cb data v _)
        rcases hcases with ht | ⟨-, ht⟩
        · rw [ht]
          exact hgot
        · rw [ht]
          exact trans cb _ _ _ hgot (fetchNextSegment options cb pipeNo _)

theorem tended {e : SegmentPipeline.Event} (ht : Tended options t pipeNo f k e t') :
    CallsBack cb t t' := by
  have hfetch : ∀ i, finishes (t.trace ++ [.fetch i]) = finishes t.trace :=
    fun i => (finishes_append t.trace _).trans (List.append_nil _)
  cases ht with
  | again => exact of_eq cb (hfetch _) rfl
  | wait => exact of_eq cb rfl rfl
  | giveUp _ reason =>
      rw [DataFetcher.fail, exec_bind_ok (exec_modify _ t)]
      have hset : CallsBack cb t (t.onPipeline (·.setFetcher pipeNo
          { heard options f e with hasError := true, pendingInterest := false } k)) := of_eq cb rfl rfl
      exact trans cb _ _ _ hset (of_settles cb (settles_handleFail reason pipeNo _))

theorem handle (e : SegmentPipeline.Event) : Respects (CallsBack cb) (e.handle options cb) := by
  intro t
  refine handle_rule options cb e (refl cb t) ?_ ?_ ?_
  · exact fun pipeNo f k t' _ _ ht => tended options cb ht
  · rintro p v -
    exact Respects.foldlM (refl cb) (trans cb) (fun _ pipeNo _ => handleData options cb pipeNo p v) () t
  · exact fun i refused _ => verdict cb i refused t

end CallsBack

end

end CertLedger.PipelineSteps
