import CertLedger.PipelineRuns

/-!
# Transfers that go on

Where the network brings only segments of the object and the validator refuses none, a
transfer at any time waits for a fetcher or for the validator, or it has failed with a
reason, or the finish callback has been called.
-/
namespace CertLedger.PipelineProgress
open TlvCodec FallibleState NdnObjects NdnPackets Reassembly EventRuns SegmentPipeline SegmentRuns
open PipelineSteps PipelineRuns

/-! ## Fetchers that run -/

/-- A fetcher of the segment runs. -/
def Busy (p : PipelineInterestsFixed) (k : ℕ) : Prop :=
  ∃ pipeNo f, Has p pipeNo f k ∧ f.isRunning = true

section
variable {p : PipelineInterestsFixed} {pipeNo : ℕ} {f : DataFetcher} {k : ℕ}

/-- The fetchers of the segments up to one are not cancelled. -/
theorem has_cancelAfter_le (h : Has p pipeNo f k) {segmentNo : ℕ} (hle : k ≤ segmentNo) :
    Has (p.cancelAfter segmentNo) pipeNo f k := by
  rw [Has, PipelineInterestsFixed.cancelAfter, List.getElem?_map, h]
  simp [Nat.not_lt.mpr hle]

/-- A segment is still fetched when a fetcher that does not run is put to a pipe, unless it
was fetched there. -/
theorem Busy.setFetcher {j : ℕ} (h : Busy p j) (f : DataFetcher) (k : ℕ)
    (hpipe : ∀ g, Has p pipeNo g j → g.isRunning = false) : Busy (p.setFetcher pipeNo f k) j := by
  obtain ⟨i, g, hg, hrun⟩ := h
  refine ⟨i, g, has_setFetcher_ne hg ?_ f k, hrun⟩
  rintro rfl
  rw [hpipe g hg] at hrun
  cases hrun

/-- A segment is still fetched when the fetcher of a pipe goes on with its own. -/
theorem Busy.setRunning {j : ℕ} (h : Busy p j) {f' : DataFetcher} (hf' : Has p pipeNo f' k)
    (hrun : f.isRunning = true) : Busy (p.setFetcher pipeNo f k) j := by
  obtain ⟨i, g, hg, hrun'⟩ := h
  by_cases hi : pipeNo = i
  · subst hi
    obtain ⟨-, rfl⟩ := Prod.mk.inj (Option.some.inj (Option.some.inj (hg.symm.trans hf')))
    exact ⟨pipeNo, f, has_setFetcher_self (lt_of_has hf') f j, hrun⟩
  · exact ⟨i, g, has_setFetcher_ne hg hi f k, hrun'⟩

theorem Busy.cancelAfter {j segmentNo : ℕ} (h : Busy p j) (hle : j ≤ segmentNo) :
    Busy (p.cancelAfter segmentNo) j := by
  obtain ⟨i, g, hg, hrun⟩ := h
  exact ⟨i, g, has_cancelAfter_le hg hle, hrun⟩

end

/-! ## The account of a pipeline -/

section
variable {ω : Type} (obj : SegmentedObject)

/-- A transfer that has been given up, for a reason that has been told. -/
structure Failed (t : Transfer ω) : Prop where
  isStopping : t.pipeline.isStopping = true
  fetchers : t.pipeline.segmentFetchers = []
  told : ∃ reason, .failure reason ∈ t.trace

/-- What the counters of a pipeline say while it has not failed. It has still to ask for
`slack` segments in the handler that runs. -/
structure Account (W slack : ℕ) (taken : List ℕ) (p : PipelineInterestsFixed) : Prop where
  isStopping : p.isStopping = false
  pipes : p.segmentFetchers.length = W
  counted : p.nReceived = taken.length
  known : p.hasFinalBlockId = true ↔ taken ≠ []
  last : p.hasFinalBlockId = true → p.lastSegmentNo = obj.size - 1
  asked : p.allSegmentsReceived = false → p.nextSegmentNo + slack = W + taken.length
  covered : p.hasFailure = false → ∀ k < p.nextSegmentNo,
    k ∈ taken ∨ Busy p k ∨ p.hasFinalBlockId = true ∧ p.lastSegmentNo < k
  failing : p.hasFailure = true → p.allSegmentsReceived = true ∨ 0 < slack ∨
    p.hasFinalBlockId = false ∧ ∃ k, Busy p k

variable {obj} {W slack : ℕ} {taken : List ℕ} {t : Transfer ω}

theorem failed_onFailure (h : t.pipeline.isStopping = false) (reason : FetchFailure) :
    Failed (exec (PipelineInterests.onFailure reason) t).2 := by
  rw [PipelineInterests.onFailure, exec_modify, if_neg (by simp [h])]
  have hcancel : t.pipeline.cancel = { t.pipeline with isStopping := true, segmentFetchers := [] } := by
    rw [PipelineInterestsFixed.cancel, if_neg (by simp [h])]
  refine ⟨?_, ?_, reason, ?_⟩
  · simp [Transfer.act, Transfer.onPipeline, hcancel]
  · simp [Transfer.act, Transfer.onPipeline, hcancel]
  · simp [Transfer.act]

/-- Once all segments are received nothing is owed. -/
theorem Account.settle {p : PipelineInterestsFixed} (h : Account obj W slack taken p)
    (hall : p.allSegmentsReceived = true) : Account obj W 0 taken p :=
  ⟨h.isStopping, h.pipes, h.counted, h.known, h.last, fun hnot => by simp [hall] at hnot, h.covered,
    fun _ => .inl hall⟩

/-- The names of the segments are names of Interests. -/
theorem ofName_segment {name : Name} (hname : name.countP isParametersDigest ≤ 1) (k : ℕ) :
    Interest.ofName (name ++ [fromSegment k]) ≠ none := by
  have hnone : isParametersDigest (fromSegment k) = false := by
    simp [isParametersDigest, fromSegment, tlvSegment]
  rw [Interest.ofName, List.countP_append, List.countP_singleton, hnone]
  simpa using hname

/-- The next segment is asked for on a pipe whose fetcher has stopped. -/
theorem Account.fetch (h : Account obj W (slack + 1) taken t.pipeline)
    (hall : t.pipeline.allSegmentsReceived = false)
    (hname : t.pipeline.versionedName.countP isParametersDigest ≤ 1) (options : Options) {pipeNo : ℕ}
    (hpipe : pipeNo < W) (hidle : ∀ g j, Has t.pipeline pipeNo g j → g.isRunning = false) :
    Account obj W slack taken
        (exec (PipelineInterestsFixed.fetchNextSegment options pipeNo) t).2.pipeline ∨
      t.pipeline.hasFailure = true ∧
        Failed (exec (PipelineInterestsFixed.fetchNextSegment options pipeNo) t).2 := by
  have hasked := h.asked hall
  rcases fetchNextSegment_cases options pipeNo t with
    ⟨hstop, -⟩ | ⟨hstop, hfailure, ht⟩ | ⟨hstop, hfailure, ⟨hlast | hnone, ht⟩ | ⟨i, -, -, ht⟩⟩
  · rw [h.isStopping] at hstop
    cases hstop
  · rw [ht]
    exact .inr ⟨hfailure, failed_onFailure hstop _⟩
  · rw [ht]
    refine .inl ⟨h.isStopping, h.pipes, h.counted, h.known, h.last, fun _ => ?_, fun _ k hk => ?_, ?_⟩
    · change t.pipeline.nextSegmentNo + 1 + slack = _
      omega
    · rcases Nat.lt_succ_iff_lt_or_eq.mp hk with hk | rfl
      · exact h.covered hfailure k hk
      · exact .inr (.inr hlast)
    · intro hfailure'
      have : t.pipeline.hasFailure = true := hfailure'
      rw [hfailure] at this
      cases this
  · exact absurd hnone (ofName_segment hname _)
  · rw [ht]
    refine .inl ⟨h.isStopping, ?_, h.counted, h.known, h.last, fun _ => ?_, fun _ k hk => ?_, ?_⟩
    · exact List.length_set.trans h.pipes
    · change t.pipeline.nextSegmentNo + 1 + slack = _
      omega
    · rcases Nat.lt_succ_iff_lt_or_eq.mp hk with hk | rfl
      · refine (h.covered hfailure k hk).imp_right (Or.imp_left fun hbusy => ?_)
        exact hbusy.setFetcher _ _ fun g hg => hidle g k hg
      · exact .inr (.inl ⟨pipeNo, _, has_setFetcher_self (hpipe.trans_eq h.pipes.symm) _ _, rfl⟩)
    · intro hfailure'
      have : t.pipeline.hasFailure = true := hfailure'
      rw [hfailure] at this
      cases this

/-! ### A segment that comes -/

/-- A pipeline has received all segments no earlier than it receives one more. -/
theorem Account.not_yet {p q : PipelineInterestsFixed} (h : Account obj W 0 taken p)
    (hreceived : q.nReceived = p.nReceived + 1) (hlast : q.lastSegmentNo = obj.size - 1)
    (hknown : q.hasFinalBlockId = true) (hall : q.allSegmentsReceived = false) :
    p.allSegmentsReceived = false := by
  by_contra htrue
  have hp : p.allSegmentsReceived = true := by simpa using htrue
  simp only [PipelineInterests.allSegmentsReceived, Bool.and_eq_true, decide_eq_true_eq] at hp
  have hle := h.last hp.1.2 ▸ hp.2
  have hq : q.allSegmentsReceived = true := by
    simp only [PipelineInterests.allSegmentsReceived, Bool.and_eq_true, decide_eq_true_eq,
      hreceived, hlast]
    exact ⟨⟨Nat.succ_pos _, hknown⟩, by omega⟩
  rw [hall] at hq
  cases hq

/-- The account when a segment has come and its fetcher, which has stopped, is free. -/
theorem Account.count {p q : PipelineInterestsFixed} (h : Account obj W 0 taken p) {k : ℕ}
    (hstop : q.isStopping = false) (hpipes : q.segmentFetchers.length = W)
    (hreceived : q.nReceived = p.nReceived + 1) (hnext : q.nextSegmentNo = p.nextSegmentNo)
    (hknown : q.hasFinalBlockId = true) (hlast : q.lastSegmentNo = obj.size - 1)
    (hfailure : q.hasFailure = p.hasFailure)
    (hbusy : ∀ j, Busy p j → j = k ∨ Busy q j ∨ obj.size - 1 < j) :
    Account obj W 1 (k :: taken) q where
  isStopping := hstop
  pipes := hpipes
  counted := by rw [hreceived, h.counted, List.length_cons]
  known := iff_of_true hknown (List.cons_ne_nil k taken)
  last _ := hlast
  asked hall := by
    have hasked := h.asked (h.not_yet hreceived hlast hknown hall)
    rw [hnext, List.length_cons]
    omega
  covered hnot j hj := by
    rcases h.covered (hfailure ▸ hnot) j (hnext ▸ hj) with hin | hrun | ⟨hfinal, hlt⟩
    · exact .inl (List.mem_cons_of_mem k hin)
    · rcases hbusy j hrun with rfl | hrun | hlt
      · exact .inl List.mem_cons_self
      · exact .inr (.inl hrun)
      · exact .inr (.inr ⟨hknown, hlast ▸ hlt⟩)
    · exact .inr (.inr ⟨hknown, by rw [hlast, ← h.last hfinal]; exact hlt⟩)
  failing _ := .inr (.inl Nat.one_pos)

/-- What a packet does that tells the last segment. -/
theorem learn_cases (h : t.pipeline.isStopping = false) {data : Packet} {c : Block} {last : ℕ}
    (hc : data.finalBlock = some c) (hlast : toSegment c = .ok last) :
    (t.pipeline.hasFinalBlockId = true ∧
      exec (PipelineInterestsFixed.learnFinalBlock data) t = (.ok true, t)) ∨
    (∃ t', exec (PipelineInterestsFixed.learnFinalBlock data) t = (.ok false, t') ∧ Failed t') ∨
    (t.pipeline.hasFinalBlockId = false ∧
      exec (PipelineInterestsFixed.learnFinalBlock data) t = (.ok true, t.onPipeline fun p =>
        ({ p with hasFinalBlockId := true, lastSegmentNo := last } : PipelineInterestsFixed).cancelAfter
          last)) := by
  rcases learnFinalBlock_cases data t with
    ⟨ht, hknown⟩ | ⟨c', last', hc', hlast', hunknown, ⟨-, -, k, -, -, hr⟩ | hr⟩
  · obtain ⟨hknown, hok⟩ := hknown c last hc hlast
    exact .inl ⟨hknown, Prod.ext hok ht⟩
  · refine .inr (.inl ⟨_, hr, failed_onFailure ?_ _⟩)
    exact h
  · obtain rfl := Option.some.inj (hc.symm.trans hc')
    obtain rfl := Except.ok.inj (hlast.symm.trans hlast')
    exact .inr (.inr ⟨hunknown, hr⟩)

/-- A segment tells which is the last one. The transfer fails where one before it has been
given up. -/
theorem Account.learn (h : Account obj W 0 taken t.pipeline) {pipeNo : ℕ} {f : DataFetcher} {k : ℕ}
    (hf : Has t.pipeline pipeNo f k) (hk : k < obj.size)
    (hfinal : (obj.packet k).finalBlock.isSome = true) :
    (∃ t', exec (PipelineInterestsFixed.learnFinalBlock (obj.packet k)) (stopped t pipeNo f k) =
        (.ok false, t') ∧ Failed t') ∨
    ∃ q, exec (PipelineInterestsFixed.learnFinalBlock (obj.packet k)) (stopped t pipeNo f k) =
        (.ok true, { t with pipeline := q }) ∧
      Account obj W 1 (k :: taken) { q with nReceived := q.nReceived + 1 } ∧
      ∀ f' j, Has q pipeNo f' j → f'.isRunning = false := by
  let g : DataFetcher := { f with isStopped := true, pendingInterest := false }
  have hg : g.isRunning = false := rfl
  have hset : ∀ f' j, Has (t.pipeline.setFetcher pipeNo g k) pipeNo f' j → f'.isRunning = false := by
    intro f' j hf'
    have hself := has_setFetcher_self (lt_of_has hf) g k
    obtain ⟨rfl, -⟩ := Prod.mk.inj (Option.some.inj (Option.some.inj (hf'.symm.trans hself)))
    exact hg
  have hbusy : ∀ j, Busy t.pipeline j → j = k ∨ Busy (t.pipeline.setFetcher pipeNo g k) j := by
    intro j hj
    by_cases hjk : j = k
    · exact .inl hjk
    · refine .inr (hj.setFetcher g k fun g' hg' => ?_)
      obtain ⟨-, rfl⟩ := Prod.mk.inj (Option.some.inj (Option.some.inj (hg'.symm.trans hf)))
      exact absurd rfl hjk
  have hpipes : (t.pipeline.setFetcher pipeNo g k).segmentFetchers.length = W :=
    List.length_set.trans h.pipes
  obtain ⟨c, hc⟩ := Option.isSome_iff_exists.mp hfinal
  have hstop : (stopped t pipeNo f k).pipeline.isStopping = false := h.isStopping
  rcases learn_cases hstop hc (SegmentedObject.toSegment_final hk hc) with
    ⟨hknown, hrun⟩ | hfailed | ⟨-, hrun⟩
  · refine .inr ⟨_, hrun, ?_, hset⟩
    apply h.count
    · exact h.isStopping
    · exact hpipes
    · rfl
    · rfl
    · exact hknown
    · exact h.last hknown
    · rfl
    · exact fun j hj => (hbusy j hj).imp_right .inl
  · exact .inl hfailed
  · refine .inr ⟨_, hrun, ?_, ?_⟩
    · apply h.count
      · exact h.isStopping
      · exact (List.length_map _).trans hpipes
      · rfl
      · rfl
      · rfl
      · rfl
      · rfl
      · intro j hj
        rcases hbusy j hj with rfl | hj
        · exact .inl rfl
        · rcases Nat.lt_or_ge (obj.size - 1) j with hlt | hle
          · exact .inr (.inr hlt)
          · exact .inr (.inl (Busy.cancelAfter hj hle))
    · intro f' j hf'
      obtain ⟨f'', hf'', rfl⟩ := has_cancelAfter hf'
      split_ifs
      · exact (cancel_spec f'').2
      · exact hset f'' j hf''

/-! ### A fetcher that gives up -/

/-- A fetcher goes on with its segment. -/
theorem Account.setRunning {p : PipelineInterestsFixed} (h : Account obj W 0 taken p) {pipeNo : ℕ}
    {f g : DataFetcher} {k : ℕ} (hf : Has p pipeNo f k) (hrun : g.isRunning = true) :
    Account obj W 0 taken (p.setFetcher pipeNo g k) := by
  refine ⟨h.isStopping, List.length_set.trans h.pipes, h.counted, h.known, h.last, h.asked, ?_, ?_⟩
  · exact fun hfailure j hj => (h.covered hfailure j hj).imp_right (.imp_left (·.setRunning hf hrun))
  · refine fun hfailure => (h.failing hfailure).imp_right (.imp_right fun ⟨hfinal, j, hj⟩ => ?_)
    exact ⟨hfinal, j, hj.setRunning hf hrun⟩

/-- What a pipeline does about a fetcher that has given up. -/
theorem fail_cases (h : t.pipeline.isStopping = false) {pipeNo : ℕ} {f : DataFetcher} {k : ℕ}
    (hf : Has t.pipeline pipeNo f k) (reason : FetchFailure) :
    let t' := (exec (PipelineInterestsFixed.handleFail reason pipeNo) t).2
    Failed t' ∨
      (t.pipeline.hasFinalBlockId = true ∧ t.pipeline.lastSegmentNo < k ∧ t' = t) ∨
      (t.pipeline.hasFinalBlockId = false ∧ (∃ j ≤ k, Busy t.pipeline j) ∧
        t' = t.onPipeline fun p => { p.cancelAfter k with hasFailure := true }) := by
  rcases handleFail_cases reason pipeNo t with
    ⟨ht, hlast⟩ | ⟨-, f', k', hf', ht | ⟨hunknown, ⟨⟨j, g, i, hg, hle, hrun⟩, ht⟩ | ht⟩⟩
  · obtain ⟨hknown, hlt⟩ := hlast h f k hf
    exact .inr (.inl ⟨hknown, hlt, ht⟩)
  · rw [ht]
    exact .inl (failed_onFailure h reason)
  · obtain ⟨-, rfl⟩ := hf.unique hf'
    exact .inr (.inr ⟨hunknown, ⟨i, hle, j, g, hg, hrun⟩, ht⟩)
  · rw [ht]
    refine .inl (failed_onFailure ?_ _)
    exact h

/-- A fetcher that gives up fails the transfer, is not needed, or leaves another one that
runs. -/
theorem Account.fail (h : Account obj W 0 taken t.pipeline) {pipeNo : ℕ} {f g : DataFetcher} {k : ℕ}
    (hf : Has t.pipeline pipeNo f k) (reason : FetchFailure) :
    Account obj W 0 taken (exec (DataFetcher.fail pipeNo g k reason) t).2.pipeline ∨
      Failed (exec (DataFetcher.fail pipeNo g k reason) t).2 := by
  rw [DataFetcher.fail, exec_bind_ok (exec_modify _ t)]
  generalize ({ g with hasError := true, pendingInterest := false } : DataFetcher) = g'
  have hself : Has (t.pipeline.setFetcher pipeNo g' k) pipeNo g' k :=
    has_setFetcher_self (lt_of_has hf) g' k
  have hpipes : (t.pipeline.setFetcher pipeNo g' k).segmentFetchers.length = W :=
    List.length_set.trans h.pipes
  have hstop : (t.onPipeline (·.setFetcher pipeNo g' k)).pipeline.isStopping = false := h.isStopping
  rcases fail_cases hstop hself reason with
    hfailed | ⟨hknown, hlt, ht⟩ | ⟨hknown, ⟨j, hle, hbusy⟩, ht⟩
  · exact .inr hfailed
  · rw [ht]
    refine .inl ⟨h.isStopping, hpipes, h.counted, h.known, h.last, h.asked, ?_, ?_⟩
    · intro hfailure j hj
      rcases h.covered hfailure j hj with hin | hbusy | hafter
      · exact .inl hin
      · by_cases hjk : j = k
        · exact .inr (.inr ⟨hknown, hjk ▸ hlt⟩)
        · refine .inr (.inl (hbusy.setFetcher g' k fun f' hf' => ?_))
          obtain ⟨-, rfl⟩ := Prod.mk.inj (Option.some.inj (Option.some.inj (hf'.symm.trans hf)))
          exact absurd rfl hjk
      · exact .inr (.inr hafter)
    · intro hfailure
      rcases h.failing hfailure with hall | hpos | ⟨hnot, -⟩
      · exact .inl hall
      · exact absurd hpos (Nat.lt_irrefl 0)
      · have hknown : t.pipeline.hasFinalBlockId = true := hknown
        rw [hnot] at hknown
        cases hknown
  · rw [ht]
    refine .inl ⟨h.isStopping, (List.length_map _).trans hpipes, h.counted, h.known, h.last, h.asked, ?_,
      fun _ => .inr (.inr ⟨hknown, j, Busy.cancelAfter hbusy hle⟩)⟩
    rintro ⟨⟩

/-! ## Transfers that have not failed -/

variable (obj) (E : ω → Prop) (world : ω)

/-- All that has come are segments; they are validated or kept. When all are validated the
finish callback has been called. -/
structure Live (limit W slack : ℕ) (w : Tally) (t : Transfer ω) : Prop where
  safe : Safe obj E world limit w t
  account : Account obj W slack w.taken t.pipeline
  kept : t.consumer.validating = w.awaiting.map obj.packet
  owned : ∀ k ∈ w.taken, k < obj.size ∧ k ∈ w.validated ++ w.awaiting
  told : (∀ k < obj.size, k ∈ w.validated) → finishes t.trace ≠ []

variable {obj E world} {cb : Block → Program PacketError ω Unit} {block : Block} {limit : ℕ}
  {w : Tally} {t' : Transfer ω}

namespace Live

theorem aside (h : Live obj E world limit W 0 w t) (ha : Aside t t')
    (hacc : Account obj W 0 w.taken t'.pipeline ∨ Failed t') :
    Live obj E world limit W 0 w t' ∨ Failed t' := by
  refine hacc.imp_left fun hacc => ⟨h.safe.aside ha, hacc, ?_, h.owned, ?_⟩
  · rw [ha.consumer]
    exact h.kept
  · rw [ha.finishes]
    exact h.told

theorem mono (h : Live obj E world limit W slack w t) {limit' : ℕ} (hle : limit ≤ limit') :
    Live obj E world limit' W slack w t :=
  ⟨h.safe.mono hle, h.account, h.kept, h.owned, h.told⟩

theorem imp (h : Live obj E world limit W slack w t) {E' : ω → Prop}
    (hE : finishes t.trace ≠ [] → E t.world → E' t.world) : Live obj E' world limit W slack w t :=
  ⟨h.safe.imp hE, h.account, h.kept, h.owned, h.told⟩

theorem settle (h : Live obj E world limit W slack w t)
    (hall : t.pipeline.allSegmentsReceived = true) : Live obj E world limit W 0 w t :=
  ⟨h.safe, h.account.settle hall, h.kept, h.owned, h.told⟩

theorem fetch (h : Live obj E world limit W (slack + 1) w t)
    (hall : t.pipeline.allSegmentsReceived = false)
    (hname : obj.name.countP isParametersDigest ≤ 1) (options : Options) {pipeNo : ℕ}
    (hpipe : pipeNo < W) (hidle : ∀ g j, Has t.pipeline pipeNo g j → g.isRunning = false) :
    Live obj E world (limit + 1) W slack w
        (exec (PipelineInterestsFixed.fetchNextSegment options pipeNo) t).2 ∨
      t.pipeline.hasFailure = true ∧
        Failed (exec (PipelineInterestsFixed.fetchNextSegment options pipeNo) t).2 := by
  have hacc := h.account.fetch hall (h.safe.flow.versionedName.symm ▸ hname) options hpipe hidle
  obtain ⟨hconsumer, -, hfinishes⟩ := fetchNextSegment_beside options pipeNo t
  refine hacc.imp_left fun hacc => ⟨h.safe.fetch options pipeNo, hacc, ?_, h.owned, ?_⟩
  · rw [hconsumer]
    exact h.kept
  · rw [hfinishes]
    exact h.told

end Live

/-- A pipeline that knows the last segment and has received all is done. -/
theorem Account.all {p : PipelineInterestsFixed} (h : Account obj W slack taken p)
    (hall : obj.size ≤ taken.length) : p.allSegmentsReceived = true := by
  have hpos := obj.size_pos
  have hknown : p.hasFinalBlockId = true := h.known.mpr (by rintro rfl; simp at hall; omega)
  simp only [PipelineInterests.allSegmentsReceived, Bool.and_eq_true, decide_eq_true_eq, h.counted,
    h.last hknown]
  exact ⟨⟨by omega, hknown⟩, by omega⟩

/-- The validator passes a segment, the only one that has come and is neither validated nor
kept. -/
theorem live_pass (h : Safe obj E world limit w t) (hframe : Framed obj block)
    (hcb : E (exec (cb block) world).2)
    (hacc : Account obj W slack w.taken t.pipeline) (hkept : t.consumer.validating = w.awaiting.map obj.packet)
    {k : ℕ} (hk : k < obj.size) (hcome : k ∈ w.taken) (hnew : k ∉ w.validated ++ w.awaiting)
    (howned : ∀ j ∈ w.taken, j < obj.size ∧ (j ∈ w.validated ++ w.awaiting ∨ j = k)) :
    Live obj E world limit W slack { w with validated := w.validated ++ [k] }
        (exec (Consumer.onValidationSuccess cb (obj.packet k)) t).2 ∧
      (exec (Consumer.onValidationSuccess cb (obj.packet k)) t).2.pipeline = t.pipeline := by
  have hpass := h.pass hframe hcb hk hcome hnew
  obtain ⟨hpipeline, hconsumer, hfinishes, -⟩ := onValidationSuccess_spec cb
    (SegmentedObject.getSegmentFromPacket_packet hk) (obj.regular k hk) t
  refine ⟨⟨hpass, hpipeline ▸ hacc, ?_, ?_, ?_⟩, hpipeline⟩
  · rw [hconsumer]
    exact hkept
  · intro j hj
    obtain ⟨hlt, hin⟩ := howned j hj
    simp only [List.mem_append, List.mem_singleton] at hin ⊢
    tauto
  · intro hall
    have hreceived := hpass.received
    rw [hconsumer] at hreceived
    have hnext : (written t.consumer (obj.packet k) k).nextToPrint = obj.size :=
      (hreceived.wrote.holds.complete hreceived.lt).mpr hall
    have houtput : (written t.consumer (obj.packet k) k).outputBuffer = obj.contents := by
      have := hreceived.wrote.output
      rw [hnext] at this
      exact this
    have hsize : obj.size ≤ w.taken.length := by
      have hlt : ∀ j ∈ w.taken, j < obj.size := fun j hj => (howned j hj).1
      refine ((length_le_of_nodup h.flow.nodup hlt).2.mpr fun j hj => ?_).ge
      exact hpass.received.taken j (List.mem_append_left _ (hall j hj))
    have hcalled : called t.pipeline (written t.consumer (obj.packet k) k) ≠ [] := by
      rw [called, if_pos ⟨hacc.all hsize, by rw [houtput, hframe.whole]; rfl⟩]
      simp
    rw [hfinishes]
    exact List.append_ne_nil_of_right_ne_nil _ hcalled

/-- The consumer throws only once all segments are received. -/
theorem onValidationSuccess_ok {k : ℕ} (hk : k < obj.size)
    (hall : t.pipeline.allSegmentsReceived = false) :
    ∃ t', exec (Consumer.onValidationSuccess cb (obj.packet k)) t = (.ok (), t') := by
  rw [Consumer.onValidationSuccess, if_neg (obj.regular k hk),
    SegmentedObject.getSegmentFromPacket_packet hk, exec_bind_ok (exec_ofExcept_ok k t),
    exec_bind_ok (exec_modify _ t), Consumer.writeInOrderData, exec_bind_ok (exec_get _)]
  dsimp only
  rw [exec_bind_ok (exec_set _ _), if_neg (by simp [Transfer.onConsumer, hall])]
  exact ⟨_, rfl⟩

/-! ### Events -/

/-- A segment that has come is validated or kept. -/
theorem live_consume (h : Safe obj E world limit w t) (hframe : Framed obj block)
    (hcb : E (exec (cb block) world).2)
    (hacc : Account obj W slack w.taken t.pipeline) (hkept : t.consumer.validating = w.awaiting.map obj.packet)
    {k : ℕ} (hk : k < obj.size) (hcome : k ∈ w.taken) (hnew : k ∉ w.validated ++ w.awaiting)
    (howned : ∀ j ∈ w.taken, j < obj.size ∧ (j ∈ w.validated ++ w.awaiting ∨ j = k))
    {v : Verdict} (hv : ∀ info, v ≠ .invalid info) :
    ∃ w' r t', exec (Consumer.handleData cb (obj.packet k) v) t = (r, t') ∧
      Live obj E world limit W slack w' t' ∧ t'.pipeline = t.pipeline ∧
      (t.pipeline.allSegmentsReceived = false → r = .ok ()) := by
  cases v with
  | valid =>
      obtain ⟨hlive, hpipeline⟩ := live_pass h hframe hcb hacc hkept hk hcome hnew howned
      refine ⟨_, _, _, rfl, hlive, hpipeline, fun hall => ?_⟩
      have hpass : ∃ t', exec (Consumer.onValidationSuccess cb (obj.packet k)) t = (.ok (), t') :=
        onValidationSuccess_ok hk hall
      obtain ⟨t', hrun⟩ := hpass
      exact congrArg Prod.fst hrun
  | invalid info => exact absurd rfl (hv info)
  | later =>
      refine ⟨{ w with awaiting := w.awaiting ++ [k] }, _, _, rfl,
        ⟨h.keep (obj.named k hk) hcome hnew, hacc, ?_, ?_, ?_⟩, rfl, fun _ => rfl⟩
      · rw [List.map_append, ← hkept]
        rfl
      · intro j hj
        obtain ⟨hlt, hin⟩ := howned j hj
        simp only [List.mem_append, List.mem_singleton] at hin ⊢
        tauto
      · exact fun hall => absurd (List.mem_append_left _ (hall k hk)) hnew

theorem Live.handleData (h : Live obj E world limit W 0 w t) (hframe : Framed obj block)
    (hcb : E (exec (cb block) world).2)
    (hfinal : ∀ k < obj.size, (obj.packet k).finalBlock.isSome = true)
    (hname : obj.name.countP isParametersDigest ≤ 1) (hlimit : limit ≤ 2 ^ 64) (options : Options)
    {pipeNo : ℕ} {f : DataFetcher} {k : ℕ} (hf : DataFetcher.running t pipeNo = some (f, k))
    {p : Packet} (hpname : p.name = obj.name ++ [fromSegment k]) (hp : Vouched obj p) {v : Verdict}
    (hv : ∀ info, v ≠ .invalid info) :
    (∃ w', Live obj E world (limit + 1) W 0 w'
        (exec (DataFetcher.handleData options cb pipeNo p v) t).2) ∨
      Failed (exec (DataFetcher.handleData options cb pipeNo p v) t).2 := by
  obtain ⟨hhas, hrun⟩ := has_of_running hf
  obtain ⟨hk, rfl⟩ := hp.packet
    (((h.safe.flow.asked pipeNo f k hhas).trans_le h.safe.next_le).trans_le hlimit) hpname
  have hfresh : k ∉ w.taken := h.safe.flow.fresh pipeNo f k hhas hrun
  have hnew : k ∉ w.validated ++ w.awaiting := fun hin => hfresh (h.safe.received.taken k hin)
  have htaken := h.safe.take hhas hrun
  have hpipe : pipeNo < W := h.account.pipes ▸ lt_of_has hhas
  rw [exec_handleData options cb hf, PipelineInterestsFixed.handleData, exec_bind_ok (exec_get _),
    if_neg (by simp [stopped, Transfer.onPipeline, PipelineInterestsFixed.setFetcher,
      h.account.isStopping])]
  have hlearn : Aside (stopped t pipeNo f k)
      (exec (PipelineInterestsFixed.learnFinalBlock (obj.packet k)) (stopped t pipeNo f k)).2 :=
    .settles (settles_learnFinalBlock _ _)
  rcases h.account.learn hhas hk (hfinal k hk) with
    ⟨t', hlearned, hfailed⟩ | ⟨q, hlearned, hacc, hidle⟩
  · rw [exec_bind_ok hlearned]
    exact .inr hfailed
  · rw [exec_bind_ok hlearned]
    rw [hlearned] at hlearn
    let t₂ : Transfer ω := { t with pipeline := { q with nReceived := q.nReceived + 1 } }
    have hcounted : Aside { t with pipeline := q } t₂ :=
      Aside.onPipeline _ ({ · with nReceived := q.nReceived + 1 }) (.of_fetchers rfl rfl rfl)
    have hsafe : Safe obj E world limit { w with taken := k :: w.taken } t₂ :=
      (htaken.aside hlearn).aside hcounted
    have howned : ∀ j ∈ k :: w.taken, j < obj.size ∧ (j ∈ w.validated ++ w.awaiting ∨ j = k) := by
      intro j hj
      rcases List.mem_cons.mp hj with rfl | hj
      · exact ⟨hk, .inr rfl⟩
      · exact (h.owned j hj).imp_right .inl
    obtain ⟨w', r, t₃, hconsume, hlive, hpipeline, hok⟩ :=
      live_consume hsafe hframe hcb hacc h.kept hk List.mem_cons_self hnew howned hv
    have hdata : exec (PipelineInterests.onData cb (obj.packet k) v) { t with pipeline := q } =
        (r, t₃) := by
      rw [PipelineInterests.onData, exec_bind_ok (exec_modify _ _)]
      exact hconsume
    have hdone : t₂.pipeline.allSegmentsReceived = true →
        Live obj E world (limit + 1) W 0 w' t₃ := fun hall =>
      (hlive.settle (hpipeline ▸ hall)).mono (Nat.le_succ limit)
    simp only [if_true]
    cases r with
    | error e =>
        rw [exec_bind_error hdata]
        refine .inl ⟨w', hdone ?_⟩
        by_contra hnot
        cases hok (by simpa using hnot)
    | ok _ =>
        rw [exec_bind_ok hdata, exec_bind_ok (exec_get t₃)]
        by_cases hall : t₃.pipeline.allSegmentsReceived = true
        · rw [if_pos hall]
          exact .inl ⟨w', hdone (hpipeline ▸ hall)⟩
        · rw [if_neg hall]
          have hidle' : ∀ g j, Has t₃.pipeline pipeNo g j → g.isRunning = false := by
            rw [hpipeline]
            exact hidle
          have hfetch := hlive.fetch (by simpa using hall) hname options hpipe hidle'
          rw [exec_bind]
          rcases hx : exec (PipelineInterestsFixed.fetchNextSegment options pipeNo) t₃ with ⟨_ | _, t₄⟩
          · rw [hx] at hfetch
            exact hfetch.imp (fun hlive => ⟨w', hlive⟩) And.right
          · rw [hx] at hfetch
            exact hfetch.imp (fun hlive => ⟨w', hlive⟩) And.right

/-- What one erased index takes from a list is the item there. -/
theorem getElem?_of_not_mem_eraseIdx {α : Type} {l : List α} {i : ℕ} {a : α} (h : a ∈ l)
    (hnot : a ∉ l.eraseIdx i) : l[i]? = some a := by
  obtain ⟨j, hj⟩ := List.mem_iff_getElem?.mp h
  by_cases hij : j = i
  · exact hij ▸ hj
  · exact absurd (List.mem_eraseIdx_iff_getElem?.mpr ⟨j, hij, hj⟩) hnot

/-- The validator passes a segment that it has kept. -/
theorem Live.verdict (h : Live obj E world limit W 0 w t) (hframe : Framed obj block)
    (hcb : E (exec (cb block) world).2) (i : ℕ) :
    ∃ w', Live obj E world limit W 0 w' (exec (Consumer.verdict cb i none) t).2 := by
  rcases verdict_cases cb i none t with ⟨-, ht⟩ | ⟨p, hi, ⟨-, ht⟩ | ⟨hrefused, -⟩⟩
  · rw [ht]
    exact ⟨w, h⟩
  · obtain ⟨k, hname, hcome, hlt, hnew, hleft⟩ := h.safe.leave hi
    have hk : k < obj.size := (h.owned k hcome).1
    have hitem : ∀ j ∈ w.taken, j ∉ w.validated ++ w.awaiting.eraseIdx i → w.awaiting[i]? = some j := by
      intro j hj hout
      rw [List.mem_append, not_or] at hout
      rcases List.mem_append.mp (h.owned j hj).2 with hin | hin
      · exact absurd hin hout.1
      · exact getElem?_of_not_mem_eraseIdx hin hout.2
    have hindex := hitem k hcome hnew
    have hp : p = obj.packet k := by
      have hkept := congrArg (·[i]?) h.kept
      simp only [List.getElem?_map, hindex, hi, Option.map_some] at hkept
      exact Option.some.inj hkept
    subst hp
    rw [ht]
    refine ⟨_, (live_pass hleft hframe hcb h.account ?_ hk hcome hnew ?_).1⟩
    · simp only [Transfer.onConsumer, h.kept, List.eraseIdx_map]
    · intro j hj
      refine ⟨(h.owned j hj).1, ?_⟩
      by_cases hin : j ∈ w.validated ++ w.awaiting.eraseIdx i
      · exact .inl hin
      · exact .inr (Option.some.inj ((hitem j hj hin).symm.trans hindex))
  · exact absurd rfl hrefused

/-- A fetcher that runs hears of an event. -/
theorem Account.tended (h : Account obj W 0 taken t.pipeline) {options : Options} {pipeNo : ℕ}
    {f : DataFetcher} {k : ℕ} (hf : DataFetcher.running t pipeNo = some (f, k))
    {e : SegmentPipeline.Event} {t' : Transfer ω} (ht : Tended options t pipeNo f k e t') :
    Account obj W 0 taken t'.pipeline ∨ Failed t' := by
  obtain ⟨hhas, hrun⟩ := has_of_running hf
  have hgoes : (heard options f e).isRunning = true := (heard_spec options f e).2.2.trans hrun
  cases ht with
  | again => exact .inl (h.setRunning hhas hgoes)
  | wait => exact .inl (h.setRunning hhas hgoes)
  | giveUp _ reason => exact h.fail hhas reason

/-- The network brings only packets with `V`, and the validator refuses none. -/
def Faithful (V : Packet → Prop) : SegmentPipeline.Event → Prop
  | .data p v => V p ∧ ∀ info, v ≠ .invalid info
  | .verdict _ refused => refused = none
  | _ => True

theorem Faithful.mono {V V' : Packet → Prop} (h : ∀ p, V p → V' p) {e : SegmentPipeline.Event}
    (he : Faithful V e) : Faithful V' e := by
  cases e with
  | data p v => exact ⟨h p he.1, he.2⟩
  | nack pipeNo reason => exact trivial
  | timeout pipeNo => exact trivial
  | backoff pipeNo => exact trivial
  | verdict i refused => exact he

theorem Live.handle (h : Live obj E world limit W 0 w t) (hframe : Framed obj block)
    (hcb : E (exec (cb block) world).2)
    (hfinal : ∀ k < obj.size, (obj.packet k).finalBlock.isSome = true)
    (hname : obj.name.countP isParametersDigest ≤ 1) (hlimit : limit ≤ 2 ^ 64) (options : Options)
    {e : SegmentPipeline.Event} (he : Faithful (Vouched obj) e) :
    (∃ w', Live obj E world (limit + 1) W 0 w' (exec (e.handle options cb) t).2) ∨
      Failed (exec (e.handle options cb) t).2 := by
  have haside : ∀ t', Aside t t' → (Account obj W 0 w.taken t'.pipeline ∨ Failed t') →
      (∃ w', Live obj E world (limit + 1) W 0 w' t') ∨ Failed t' := fun t' ha hacc =>
    (h.aside ha hacc).imp_left fun hlive => ⟨w, hlive.mono (Nat.le_succ limit)⟩
  refine handle_rule (J := fun t' => (∃ w', Live obj E world (limit + 1) W 0 w' t') ∨ Failed t')
    options cb e (haside t (.refl t) (.inl h.account)) ?_ ?_ ?_
  · exact fun pipeNo f k t' _ hf ht => haside t' (.tended hf ht) (h.account.tended hf ht)
  · rintro p v rfl
    rcases waiting_cases h.safe.flow (h.safe.next_le.trans hlimit) p.name with
      hnone | ⟨pipeNo, f, k, hone, hf, hpname⟩
    · rw [hnone]
      exact haside t (.refl t) (.inl h.account)
    · rw [hone, exec_foldlM_one]
      exact h.handleData hframe hcb hfinal hname hlimit options hf hpname he.1 he.2
  · rintro i refused rfl
    obtain rfl : refused = none := he
    obtain ⟨w', hlive⟩ := h.verdict hframe hcb i
    exact .inl ⟨w', hlive.mono (Nat.le_succ limit)⟩

/-! ### Failed transfers -/

theorem Failed.idle (h : Failed t) : SinglePipe.Idle t.pipeline := by
  intro entry he
  rw [h.fetchers] at he
  cases he

/-- The consumer leaves the pipeline alone, and nothing that has been told is taken back. -/
theorem failed_consumer (h : Failed t) (p : Packet) :
    Failed (exec (Consumer.onValidationSuccess cb p) t).2 := by
  rcases onValidationSuccess_cases cb p t with ht | ⟨k, -, ht⟩
  · rw [ht]
    exact h
  · rw [ht]
    obtain ⟨reason, htold⟩ := h.told
    exact ⟨h.isStopping, h.fetchers, reason, List.mem_append_left _ htold⟩

theorem Failed.handle (h : Failed t) (options : Options) (e : SegmentPipeline.Event) :
    Failed (exec (e.handle options cb) t).2 := by
  refine handle_rule options cb e h ?_ ?_ ?_
  · intro pipeNo f k t' _ hf
    rw [h.idle.running] at hf
    cases hf
  · intro p v _
    rw [h.idle.waiting]
    exact h
  · intro i refused _
    have hleft : Failed (t.onConsumer fun c => { c with validating := c.validating.eraseIdx i }) :=
      ⟨h.isStopping, h.fetchers, h.told⟩
    rcases verdict_cases cb i refused t with ⟨-, ht⟩ | ⟨p, -, ⟨-, ht⟩ | ⟨-, ht⟩⟩
    · rw [ht]
      exact h
    · rw [ht]
      exact failed_consumer hleft p
    · rw [ht]
      exact hleft

/-! ## Runs -/

/-- The pipes after some have asked for the first segments. -/
structure Beginning (pipeNo : ℕ) (p : PipelineInterestsFixed) : Prop where
  hasFailure : p.hasFailure = false
  hasFinalBlockId : p.hasFinalBlockId = false
  empty : ∀ i, pipeNo ≤ i → ∀ f k, ¬Has p i f k

theorem live_doRunFrom (hname : obj.name.countP isParametersDigest ≤ 1) (options : Options)
    (pipes : ℕ) {pipeNo : ℕ} (hW : pipeNo + pipes = W)
    (h : Live obj E world limit W pipes w t) (hbegin : Beginning pipeNo t.pipeline) :
    Live obj E world (limit + pipes) W 0 w
      (exec (PipelineInterestsFixed.doRunFrom options pipes pipeNo) t).2 := by
  induction pipes generalizing t limit pipeNo with
  | zero => exact h
  | succ pipes ih =>
      have hall : t.pipeline.allSegmentsReceived = false := by
        simp [PipelineInterests.allSegmentsReceived, hbegin.hasFinalBlockId]
      have hfetch := h.fetch hall hname options (show pipeNo < W by omega)
        fun f k hf => absurd hf (hbegin.empty pipeNo le_rfl f k)
      rw [hbegin.hasFailure] at hfetch
      have hlive := hfetch.resolve_right (by simp)
      have hversioned := h.safe.flow.versionedName
      -- the first segments are asked for, as the last one is not known
      obtain ⟨i, hi⟩ := Option.ne_none_iff_exists'.mp
        (ofName_segment (hversioned.symm ▸ hname) t.pipeline.nextSegmentNo)
      have hrun : ∃ t', exec (PipelineInterestsFixed.fetchNextSegment options pipeNo) t = (.ok true, t') ∧
          Beginning (pipeNo + 1) t'.pipeline := by
        rw [PipelineInterestsFixed.fetchNextSegment, exec_bind_ok (exec_get t),
          if_neg (by simp [h.account.isStopping]), if_neg (by simp [hbegin.hasFailure]),
          exec_bind_ok (exec_set _ t), if_neg (by simp [hbegin.hasFinalBlockId]), hi,
          exec_bind_ok (exec_ofOption_some i _), exec_bind_ok (exec_modify _ _)]
        refine ⟨_, rfl, hbegin.hasFailure, hbegin.hasFinalBlockId, ?_⟩
        intro j hj f k hf
        rcases has_setFetcher hf with ⟨rfl, -⟩ | hf
        · omega
        · exact hbegin.empty j (by omega) f k hf
      obtain ⟨t', hrun, hnext⟩ := hrun
      rw [hrun] at hlive
      rw [PipelineInterestsFixed.doRunFrom, exec_bind_ok hrun, if_pos rfl]
      exact (ih (by omega) hlive hnext).mono (by omega)

theorem live_begin (hname : obj.name.countP isParametersDigest ≤ 1) (options : Options) (world : ω) :
    Live obj E world options.maxPipelineSize options.maxPipelineSize 0 {}
      (begin options obj.name world) := by
  let t₀ : Transfer ω := {
    pipeline := { PipelineInterestsFixed.new options with versionedName := obj.name }
    world := world }
  have hsafe : Safe obj E world 0 {} t₀ := safe_start options world
  have hnone := not_has_new options
  have hacc : Account obj options.maxPipelineSize options.maxPipelineSize [] t₀.pipeline := by
    refine ⟨rfl, List.length_replicate, rfl, ?_, ?_, fun _ => ?_, ?_, ?_⟩
    · simp [t₀, PipelineInterestsFixed.new]
    · simp [t₀, PipelineInterestsFixed.new]
    · simp [t₀, PipelineInterestsFixed.new]
    · simp [t₀, PipelineInterestsFixed.new]
    · simp [t₀, PipelineInterestsFixed.new]
  have hlive : Live obj E world 0 options.maxPipelineSize options.maxPipelineSize {} t₀ := by
    refine ⟨hsafe, hacc, rfl, by simp, fun hall => ?_⟩
    exact absurd (hall 0 obj.size_pos) (by simp)
  rw [begin, Consumer.run, exec_bind_ok (exec_modify _ _)]
  have hrun := live_doRunFrom hname options options.maxPipelineSize (Nat.zero_add _) hlive
    ⟨rfl, rfl, fun i _ f k => hnone i f k⟩
  rwa [Nat.zero_add] at hrun

theorem Live.run (h : (∃ w, Live obj E world limit W 0 w t) ∨ Failed t)
    (hframe : Framed obj block) (hcb : E (exec (cb block) world).2)
    (hfinal : ∀ k < obj.size, (obj.packet k).finalBlock.isSome = true)
    (hname : obj.name.countP isParametersDigest ≤ 1) (options : Options)
    {events : List SegmentPipeline.Event} (hlimit : limit + events.length ≤ 2 ^ 64)
    (he : ∀ e ∈ events, Faithful (Vouched obj) e) :
    (∃ w, Live obj E world (limit + events.length) W 0 w (events.foldl (step options cb) t)) ∨
      Failed (events.foldl (step options cb) t) := by
  induction events generalizing t limit with
  | nil => exact h
  | cons e events ih =>
      rw [List.length_cons] at hlimit ⊢
      have hrest : ∀ e' ∈ events, Faithful (Vouched obj) e' := fun e' he' => he e' (List.mem_cons_of_mem e he')
      have hstep : (∃ w, Live obj E world (limit + 1) W 0 w (step options cb t e)) ∨
          Failed (step options cb t e) := by
        rcases h with ⟨w, hlive⟩ | hfailed
        · exact hlive.handle hframe hcb hfinal hname (by omega) options (he e List.mem_cons_self)
        · exact .inr (hfailed.handle options e)
      refine (ih hstep (by omega) hrest).imp_left fun ⟨w, hlive⟩ => ⟨w, hlive.mono ?_⟩
      omega

/-- A transfer that waits for nothing has finished. -/
theorem Live.finished (h : Live obj E world limit W 0 w t) (hW : 1 ≤ W)
    (hidle : ∀ k, ¬Busy t.pipeline k) (hkept : t.consumer.validating = []) :
    finishes t.trace ≠ [] := by
  have hlt : ∀ k ∈ w.taken, k < obj.size := fun k hk => (h.owned k hk).1
  obtain ⟨hle, heq⟩ := length_le_of_nodup h.safe.flow.nodup hlt
  have hcovered : t.pipeline.allSegmentsReceived = true := by
    by_contra hnot
    have hall : t.pipeline.allSegmentsReceived = false := by simpa using hnot
    have hasked := h.account.asked hall
    have hfailure : t.pipeline.hasFailure = false := by
      by_contra hfailure
      rcases h.account.failing (by simpa using hfailure) with hyes | hpos | ⟨-, k, hk⟩
      · exact hnot hyes
      · exact Nat.lt_irrefl 0 hpos
      · exact hidle k hk
    -- what has been asked for has come, but for what is after the last segment
    have hcome : ∀ k < t.pipeline.nextSegmentNo, k < obj.size → k ∈ w.taken := by
      intro k hk hsize
      rcases h.account.covered hfailure k hk with hin | hbusy | ⟨hknown, hafter⟩
      · exact hin
      · exact absurd hbusy (hidle k)
      · rw [h.account.last hknown] at hafter
        omega
    rcases Nat.le_total obj.size t.pipeline.nextSegmentNo with hmore | hless
    · have hlength := heq.mpr fun k hk => hcome k (by omega) hk
      exact hnot (h.account.all hlength.ge)
    · have hsub : (List.range t.pipeline.nextSegmentNo).Subperm w.taken :=
        List.subperm_of_subset List.nodup_range fun k hk =>
          hcome k (List.mem_range.mp hk) (by have := List.mem_range.mp hk; omega)
      have hlength := hsub.length_le
      rw [List.length_range] at hlength
      omega
  have hlength : w.taken.length = obj.size := by
    have hknown := hcovered
    simp only [PipelineInterests.allSegmentsReceived, Bool.and_eq_true, decide_eq_true_eq] at hknown
    have hlast := h.account.last hknown.1.2 ▸ hknown.2
    rw [h.account.counted] at hlast
    have := hknown.1.1
    rw [h.account.counted] at this
    have := obj.size_pos
    omega
  have hawaiting : w.awaiting = [] := by
    have hmap := h.kept
    rw [hkept] at hmap
    exact List.map_eq_nil_iff.mp hmap.symm
  apply h.told
  intro k hk
  have hin := (h.owned k (heq.mp hlength k hk)).2
  rwa [hawaiting, List.append_nil] at hin

/-- What a transfer has come to that waits for nothing. -/
theorem settled (h : (∃ w, Live obj E world limit W 0 w t) ∨ Failed t) (hW : 1 ≤ W)
    (hidle : ∀ k, ¬Busy t.pipeline k) (hkept : t.consumer.validating = []) :
    (∃ reason, .failure reason ∈ t.trace) ∨
      finishes t.trace = [(obj.size, obj.contents)] ∧ E t.world := by
  rcases h with ⟨w, hlive⟩ | hfailed
  · right
    rcases hlive.safe.told with ⟨hnone, -⟩ | ⟨hone, hworld, -⟩
    · exact absurd hnone (hlive.finished hW hidle hkept)
    · exact ⟨hone, hworld⟩
  · exact .inl hfailed.told

theorem running_of_busy {k : ℕ} (h : Busy t.pipeline k) :
    ∃ pipeNo, (DataFetcher.running t pipeNo).isSome = true := by
  obtain ⟨pipeNo, f, hf, hrun⟩ := h
  exact ⟨pipeNo, Option.isSome_iff_exists.mpr ⟨(f, k), running_of_has hf hrun⟩⟩

/-- With any number of pipes, any retries, losses, nacks and late verdicts a transfer is
never left waiting for nothing. At any time a fetcher runs, or the validator has a segment, or
a failure has been told, or the finish callback has been called with the block. -/
theorem never_stuck (producer : SegmentProducer.Options) (versionedPrefix : Name) (block : Block)
    (options : Options) (cb : Block → Program PacketError ω Unit) (world : ω)
    (events : List SegmentPipeline.Event) (hs : 1 ≤ producer.maxSegmentSize)
    (hs' : producer.maxSegmentSize < 2 ^ 31) (hb : block.wire.length < 2 ^ 31)
    (hW : 1 ≤ options.maxPipelineSize) (hname : versionedPrefix.countP isParametersDigest ≤ 1)
    (hlength : options.maxPipelineSize + events.length ≤ 2 ^ 64)
    (he : ∀ e ∈ events, Faithful (fun p => p.name.dropLast = versionedPrefix →
      p ∈ SegmentProducer.populateStore producer versionedPrefix block) e) :
    let t := runOf options cb versionedPrefix world events
    let n := (SegmentProducer.populateStore producer versionedPrefix block).length
    (∃ pipeNo, (DataFetcher.running t pipeNo).isSome = true) ∨ t.consumer.validating ≠ [] ∨
      (∃ reason, .failure reason ∈ t.trace) ∨
      finishes t.trace = [(n, block.wire)] ∧ t.world = (exec (cb block) world).2 := by
  intro t n
  have hframe : Framed (ofBlock producer versionedPrefix hb) block := framed_ofBlock hs hb
  have hvouched : ∀ e ∈ events, Faithful (Vouched (ofBlock producer versionedPrefix hb)) e :=
    fun e hmem => (he e hmem).mono fun p hp => vouched_ofBlock hs hs' hb hp
  have hbegin : Live (ofBlock producer versionedPrefix hb) (· = (exec (cb block) world).2) world
      options.maxPipelineSize options.maxPipelineSize 0 {} (begin options versionedPrefix world) :=
    live_begin hname options world
  have hrun := Live.run (.inl ⟨_, hbegin⟩) hframe rfl (fun _ _ => rfl) hname options hlength hvouched
  by_cases hbusy : ∃ k, Busy t.pipeline k
  · obtain ⟨k, hk⟩ := hbusy
    exact .inl (running_of_busy hk)
  · by_cases hkept : t.consumer.validating = []
    · have hsettled := settled hrun hW (fun k hk => hbusy ⟨k, hk⟩) hkept
      rw [contents_ofBlock producer hs hb, ← length_store hs hs' hb] at hsettled
      exact .inr (.inr hsettled)
    · exact .inr (.inl hkept)

theorem faithful_lossy : ∀ e ∈ lossy, Faithful (fun p => p.name.dropLast = [] →
    p ∈ SegmentProducer.populateStore { maxSegmentSize := 2 } [] shortBlock) e := by
  intro e hmem
  simp only [lossy, List.mem_cons, List.not_mem_nil, or_false] at hmem
  have hstore : ∀ p ∈ [shortSegment 0 [8, 3], shortSegment 1 [1, 2], shortSegment 2 [3]],
      p ∈ SegmentProducer.populateStore { maxSegmentSize := 2 } [] shortBlock := by decide
  rcases hmem with rfl | rfl | rfl | rfl | rfl | rfl
  · exact trivial
  · exact ⟨fun _ => hstore _ (by simp), by simp⟩
  · exact ⟨fun _ => hstore _ (by simp), by simp⟩
  · exact ⟨fun _ => hstore _ (by simp), by simp⟩
  · exact ⟨fun _ => hstore _ (by simp), by simp⟩
  · rfl

theorem never_stuck_lossy :
    let t := runOf { maxPipelineSize := 2 } keep [] [] lossy
    (∃ pipeNo, (DataFetcher.running t pipeNo).isSome = true) ∨ t.consumer.validating ≠ [] ∨
      (∃ reason, .failure reason ∈ t.trace) ∨
      finishes t.trace = [(3, shortBlock.wire)] ∧ t.world = (exec (keep shortBlock) []).2 := by
  apply never_stuck { maxSegmentSize := 2 } [] shortBlock { maxPipelineSize := 2 } keep [] lossy
  · decide
  · decide
  · decide
  · decide
  · decide
  · decide
  · exact faithful_lossy

end
end CertLedger.PipelineProgress
