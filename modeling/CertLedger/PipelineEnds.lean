import CertLedger.PipelineProgress

/-!
# Transfers that end

Where the retries are limited, the fetchers of a transfer can be heard of so many times at
most, whatever the network does. A transfer that nothing can happen to any more has told a
failure, or has called the finish callback. No failure is told unless a fetcher gives up.
-/
namespace CertLedger.PipelineEnds
open TlvCodec FallibleState NdnObjects NdnPackets Reassembly EventRuns SegmentPipeline SegmentRuns
open PipelineSteps PipelineRuns PipelineProgress

section
variable {ω : Type} (options : Options)

/-! ## What is still to be heard of -/

/-- How often a fetcher can be heard of: its Data and the verdict on it, every nack that it
bears with the end of the backoff after it, and every timeout. -/
def attempts (f : DataFetcher) : ℕ :=
  if f.isRunning then
    2 + 2 * (options.maxRetriesOnTimeoutOrNack - f.nNacks).toNat +
      (options.maxRetriesOnTimeoutOrNack - f.nTimeouts).toNat + (if f.pendingInterest then 0 else 1)
  else 0

/-- The attempts of a new fetcher. -/
def attemptsPerSegment : ℕ := 2 + 3 * options.maxRetriesOnTimeoutOrNack.toNat

def attemptsOf : Option (DataFetcher × ℕ) → ℕ
  | some f => attempts options f.1
  | none => 0

def attemptsIn (fetchers : List (Option (DataFetcher × ℕ))) : ℕ :=
  (fetchers.map (attemptsOf options)).sum

/-- What can still happen to a transfer that asks for no more segments. -/
def outstanding (t : Transfer ω) : ℕ :=
  attemptsIn options t.pipeline.segmentFetchers + t.consumer.validating.length

/-- An event finds what it is for in the transfer. -/
def takes (t : Transfer ω) : SegmentPipeline.Event → Bool
  | .data p _ => !(waiting t (·.matchesName p.name)).isEmpty
  | .nack pipeNo _ => pipeNo ∈ waiting t fun _ => true
  | .timeout pipeNo => pipeNo ∈ waiting t fun _ => true
  | .backoff pipeNo => (DataFetcher.running t pipeNo).any fun f => !f.1.pendingInterest
  | .verdict k _ => k < t.consumer.validating.length

/-- A step takes `paid` from what is outstanding and adds `due`, and what each segment costs
that it asks for. -/
structure Pays (paid due : ℕ) (t t' : Transfer ω) : Prop where
  next_le : t.pipeline.nextSegmentNo ≤ t'.pipeline.nextSegmentNo
  spent : outstanding options t' + paid ≤ outstanding options t + due +
    (t'.pipeline.nextSegmentNo - t.pipeline.nextSegmentNo) * attemptsPerSegment options

variable {options} {t t' t'' : Transfer ω} {pipeNo : ℕ} {f g : DataFetcher} {k : ℕ}

theorem attempts_of_running (h : f.isRunning = true) : 2 ≤ attempts options f := by
  rw [attempts, if_pos h]
  omega

theorem attempts_of_not_running (h : f.isRunning = false) : attempts options f = 0 := by
  rw [attempts, h]
  rfl

theorem attempts_new (i : Interest) :
    attempts options { interest := i } = attemptsPerSegment options := by
  have hrunning : ({ interest := i } : DataFetcher).isRunning = true := rfl
  have hnone : (if ({ interest := i } : DataFetcher).pendingInterest then 0 else 1) = 0 := rfl
  rw [attempts, attemptsPerSegment, if_pos hrunning, hnone, Int.sub_zero]
  omega

theorem attemptsIn_set {fetchers : List (Option (DataFetcher × ℕ))} {i : ℕ}
    {entry : Option (DataFetcher × ℕ)} (h : fetchers[i]? = some entry)
    (entry' : Option (DataFetcher × ℕ)) :
    attemptsIn options (fetchers.set i entry') + attemptsOf options entry =
      attemptsIn options fetchers + attemptsOf options entry' := by
  induction fetchers generalizing i with
  | nil => simp at h
  | cons first fetchers ih =>
      cases i with
      | zero =>
          obtain rfl : first = entry := by simpa using h
          simp only [List.set_cons_zero, attemptsIn, List.map_cons, List.sum_cons]
          omega
      | succ i =>
          have hrest := ih (show fetchers[i]? = some entry by simpa using h)
          simp only [List.set_cons_succ, attemptsIn, List.map_cons, List.sum_cons] at hrest ⊢
          omega

theorem attemptsIn_set_le (fetchers : List (Option (DataFetcher × ℕ))) (i : ℕ)
    (entry : Option (DataFetcher × ℕ)) :
    attemptsIn options (fetchers.set i entry) ≤
      attemptsIn options fetchers + attemptsOf options entry := by
  cases hi : fetchers[i]? with
  | none =>
      rw [List.set_eq_of_length_le (List.getElem?_eq_none_iff.mp hi)]
      exact Nat.le_add_right _ _
  | some old => exact Nat.le.intro (attemptsIn_set hi entry)

/-- Fetchers that can be heard of no more than those they have come from. -/
theorem attemptsIn_le {fetchers fetchers' : List (Option (DataFetcher × ℕ))}
    (hlength : fetchers'.length ≤ fetchers.length)
    (h : ∀ (i : ℕ) f k, fetchers'[i]? = some (some (f, k)) →
      ∃ f', fetchers[i]? = some (some (f', k)) ∧ attempts options f ≤ attempts options f') :
    attemptsIn options fetchers' ≤ attemptsIn options fetchers := by
  induction fetchers' generalizing fetchers with
  | nil => exact Nat.zero_le _
  | cons entry' fetchers' ih =>
      cases fetchers with
      | nil => simp at hlength
      | cons entry fetchers =>
          have hfirst : attemptsOf options entry' ≤ attemptsOf options entry := by
            cases entry' with
            | none => exact Nat.zero_le _
            | some f =>
                obtain ⟨f', hf', hle⟩ := h 0 f.1 f.2 rfl
                obtain rfl : entry = some (f', f.2) := by simpa using hf'
                exact hle
          have hrest := ih (by simpa using hlength) fun i f k hi => h (i + 1) f k hi
          simp only [attemptsIn, List.map_cons, List.sum_cons] at hrest ⊢
          exact Nat.add_le_add hfirst hrest

/-- The consumer leaves what the validator keeps alone, and tells no failure. -/
theorem kept_onValidationSuccess (cb : Block → Program PacketError ω Unit) (data : Packet)
    (t : Transfer ω) :
    let t' := (exec (Consumer.onValidationSuccess cb data) t).2
    t'.consumer.validating = t.consumer.validating ∧
      ∀ reason, .failure reason ∈ t'.trace → .failure reason ∈ t.trace := by
  rcases onValidationSuccess_cases cb data t with ht | ⟨k, -, ht⟩
  · rw [ht]
    exact ⟨rfl, fun _ => id⟩
  · rw [ht]
    refine ⟨rfl, fun reason hmem => ?_⟩
    rcases List.mem_append.mp hmem with hmem | hmem
    · exact hmem
    · simp at hmem

/-! ## What the steps take -/

namespace Pays

theorem refl (t : Transfer ω) : Pays options 0 0 t t := ⟨le_rfl, by simp⟩

theorem trans {paid due paid' due' : ℕ} (h : Pays options paid due t t')
    (h' : Pays options paid' due' t' t'') : Pays options (paid + paid') (due + due') t t'' := by
  refine ⟨h.next_le.trans h'.next_le, ?_⟩
  have hnext : t''.pipeline.nextSegmentNo - t.pipeline.nextSegmentNo =
      (t'.pipeline.nextSegmentNo - t.pipeline.nextSegmentNo) +
        (t''.pipeline.nextSegmentNo - t'.pipeline.nextSegmentNo) := by
    have := h.next_le
    have := h'.next_le
    omega
  have hspent := h.spent
  have hspent' := h'.spent
  rw [hnext, Nat.add_mul]
  omega

theorem same {t t' : Transfer ω} (h : t'.pipeline.nextSegmentNo = t.pipeline.nextSegmentNo)
    {paid due : ℕ}
    (hspent : outstanding options t' + paid ≤ outstanding options t + due) :
    Pays options paid due t t' := ⟨h.ge, hspent.trans (Nat.le_add_right _ _)⟩

theorem untouched (t t' : Transfer ω) (hnext : t'.pipeline.nextSegmentNo = t.pipeline.nextSegmentNo)
    (hfetchers : t'.pipeline.segmentFetchers = t.pipeline.segmentFetchers)
    (hconsumer : t'.consumer = t.consumer) : Pays options 0 0 t t' := by
  apply same hnext
  rw [outstanding, hfetchers, hconsumer]
  exact le_rfl

theorem less {paid due : ℕ} (h : Pays options (paid + due) due t t') :
    Pays options paid 0 t t' := by
  refine ⟨h.next_le, ?_⟩
  have := h.spent
  omega

theorem weaken {paid paid' due : ℕ} (h : Pays options paid due t t') (hle : paid' ≤ paid) :
    Pays options paid' due t t' := by
  refine ⟨h.next_le, ?_⟩
  have := h.spent
  omega

/-- A fetcher is replaced by one that can be heard of less often. -/
theorem setFetcher (h : Has t.pipeline pipeNo f k) {paid : ℕ}
    (hle : attempts options g + paid ≤ attempts options f) :
    Pays options paid 0 t (t.onPipeline (·.setFetcher pipeNo g k)) := by
  refine same ?_ ?_
  · rfl
  have hset : attemptsIn options (t.pipeline.segmentFetchers.set pipeNo (some (g, k))) +
      attempts options f = attemptsIn options t.pipeline.segmentFetchers + attempts options g :=
    attemptsIn_set h _
  simp only [outstanding, Transfer.onPipeline, PipelineInterestsFixed.setFetcher]
  omega

theorem settles (h : Settles t t') : Pays options 0 0 t t' := by
  refine same h.nextSegmentNo ?_
  have hle : attemptsIn options t'.pipeline.segmentFetchers ≤
      attemptsIn options t.pipeline.segmentFetchers := by
    refine attemptsIn_le h.pipes fun i f k hf => ?_
    obtain ⟨f', hf', -, hsame⟩ := h.fetcher i f k hf
    refine ⟨f', hf', ?_⟩
    rcases hsame with rfl | hstop
    · exact le_rfl
    · rw [attempts_of_not_running hstop]
      exact Nat.zero_le _
  rw [outstanding, outstanding, h.consumer]
  exact Nat.add_le_add_right hle _

/-- A fetcher that runs gives up. -/
theorem fail (h : Has t.pipeline pipeNo f k) (hrun : f.isRunning = true) (g : DataFetcher)
    (reason : FetchFailure) :
    Pays options 2 0 t (exec (DataFetcher.fail pipeNo g k reason) t).2 := by
  rw [DataFetcher.fail, exec_bind_ok (exec_modify _ t)]
  have hstop : attempts options { g with hasError := true, pendingInterest := false } = 0 :=
    attempts_of_not_running (by simp [DataFetcher.isRunning])
  have hpaid : attempts options { g with hasError := true, pendingInterest := false } + 2 ≤
      attempts options f := by
    rw [hstop]
    exact attempts_of_running hrun
  exact (setFetcher h hpaid).trans (settles (settles_handleFail reason pipeNo _))

/-- A fetcher expresses its Interest again. -/
theorem expressInterest (h : Has t.pipeline pipeNo f k) {paid : ℕ}
    (hle : attempts options { g with pendingInterest := true } + paid ≤ attempts options f) :
    Pays options paid 0 t (exec (DataFetcher.expressInterest pipeNo g k) t).2 := by
  have hact : Pays options 0 0 t (t.act (.fetch g.interest)) := untouched t _ rfl rfl rfl
  have hacted : Has (t.act (.fetch g.interest)).pipeline pipeNo f k := h
  have hset : Pays options paid 0 (t.act (.fetch g.interest))
      ((t.act (.fetch g.interest)).onPipeline
      (·.setFetcher pipeNo { g with pendingInterest := true } k)) := setFetcher hacted hle
  exact (hact.trans hset).weaken (Nat.zero_add paid).ge

/-- Asking for a segment costs what its fetcher can be heard of. -/
theorem fetchNextSegment (pipeNo : ℕ) (t : Transfer ω) :
    Pays options 0 0 t (exec (PipelineInterestsFixed.fetchNextSegment options pipeNo) t).2 := by
  rcases fetchNextSegment_cases options pipeNo t with
    ⟨-, ht⟩ | ⟨-, -, ht⟩ | ⟨-, -, ⟨-, ht⟩ | ⟨i, -, -, ht⟩⟩
  · rw [ht]
    exact refl t
  · rw [ht]
    exact settles (settles_onFailure _ t)
  · rw [ht]
    exact ⟨Nat.le_succ _, Nat.le_add_right _ _⟩
  · rw [ht]
    refine ⟨Nat.le_succ _, ?_⟩
    have hset : attemptsIn options (t.pipeline.segmentFetchers.set pipeNo
        (some ({ interest := i }, t.pipeline.nextSegmentNo))) ≤
          attemptsIn options t.pipeline.segmentFetchers + attempts options { interest := i } :=
      attemptsIn_set_le _ _ _
    rw [attempts_new] at hset
    change attemptsIn options (t.pipeline.segmentFetchers.set pipeNo _) +
      t.consumer.validating.length + 0 ≤ attemptsIn options t.pipeline.segmentFetchers +
        t.consumer.validating.length + 0 +
          (t.pipeline.nextSegmentNo + 1 - t.pipeline.nextSegmentNo) * attemptsPerSegment options
    rw [Nat.add_sub_cancel_left, Nat.one_mul]
    omega

/-! ### Nacks and timeouts -/

/-- A nack that a fetcher bears leaves it with less to be heard of, also while it waits for
the backoff time. -/
theorem attempts_nack (hretries : options.maxRetriesOnTimeoutOrNack ≠ MAX_RETRIES_INFINITE)
    (hrun : f.isRunning = true) (hpending : f.pendingInterest = true) {reason : NackReason}
    (hb : Bears options (heard options f (.nack pipeNo reason)) (.nack pipeNo reason)) (pending : Bool) :
    attempts options { heard options f (.nack pipeNo reason) with pendingInterest := pending } + 1 ≤
      attempts options f := by
  have hcount : (heard options f (.nack pipeNo reason)).nNacks = f.nNacks + 1 := if_neg hretries
  have hle := hb.1.resolve_right hretries
  rw [hcount] at hle
  have hrun' : ({ heard options f (.nack pipeNo reason) with pendingInterest := pending } :
    DataFetcher).isRunning = true := hrun
  rw [attempts, attempts, if_pos hrun, if_pos hrun', if_pos hpending]
  dsimp only
  rw [hcount]
  change 2 + _ + (options.maxRetriesOnTimeoutOrNack - f.nTimeouts).toNat + _ + 1 ≤ _
  split_ifs
  · omega
  · omega

theorem attempts_timeout (hretries : options.maxRetriesOnTimeoutOrNack ≠ MAX_RETRIES_INFINITE)
    (hrun : f.isRunning = true) (hpending : f.pendingInterest = true)
    (hb : Bears options (heard options f (.timeout pipeNo)) (.timeout pipeNo)) :
    attempts options { heard options f (.timeout pipeNo) with pendingInterest := true } + 1 ≤
      attempts options f := by
  have hcount : (heard options f (.timeout pipeNo)).nTimeouts = f.nTimeouts + 1 := if_neg hretries
  have hle := Or.resolve_right hb hretries
  rw [hcount] at hle
  have hrun' : ({ heard options f (.timeout pipeNo) with pendingInterest := true } :
    DataFetcher).isRunning = true := hrun
  rw [attempts, attempts, if_pos hrun, if_pos hrun', if_pos hpending, if_pos rfl]
  dsimp only
  rw [hcount]
  change 2 + 2 * (options.maxRetriesOnTimeoutOrNack - f.nNacks).toNat + _ + 0 + 1 ≤ _
  omega

theorem handleNack (hretries : options.maxRetriesOnTimeoutOrNack ≠ MAX_RETRIES_INFINITE)
    (h : DataFetcher.running t pipeNo = some (f, k)) (hpending : f.pendingInterest = true)
    {reason : NackReason} (ht : Tended options t pipeNo f k (.nack pipeNo reason) t') :
    Pays options 1 0 t t' := by
  obtain ⟨hhas, hrun⟩ := has_of_running h
  cases ht with
  | again hb => exact expressInterest hhas (attempts_nack hretries hrun hpending hb true)
  | wait hb => exact setFetcher hhas (attempts_nack hretries hrun hpending hb false)
  | giveUp _ why => exact (fail hhas hrun _ why).weaken (Nat.le_succ 1)

theorem handleTimeout (hretries : options.maxRetriesOnTimeoutOrNack ≠ MAX_RETRIES_INFINITE)
    (h : DataFetcher.running t pipeNo = some (f, k)) (hpending : f.pendingInterest = true)
    (ht : Tended options t pipeNo f k (.timeout pipeNo) t') : Pays options 1 0 t t' := by
  obtain ⟨hhas, hrun⟩ := has_of_running h
  cases ht with
  | again hb => exact expressInterest hhas (attempts_timeout hretries hrun hpending hb)
  | wait _ _ he => cases he
  | giveUp _ why => exact (fail hhas hrun _ why).weaken (Nat.le_succ 1)

/-! ### Data -/

variable {cb : Block → Program PacketError ω Unit}

theorem onValidationSuccess (data : Packet) (t : Transfer ω) :
    Pays options 0 0 t (exec (Consumer.onValidationSuccess cb data) t).2 := by
  have hpipeline := pipeline_onValidationSuccess cb data t
  have hvalidating := (kept_onValidationSuccess cb data t).1
  refine same (by rw [hpipeline]) ?_
  rw [outstanding, hpipeline, hvalidating]
  exact le_rfl

/-- The validator may keep the segment that has come. -/
theorem consume (data : Packet) (v : Verdict) (t : Transfer ω) :
    Pays options 0 1 t (exec (Consumer.handleData cb data v) t).2 := by
  have hdue : ∀ t' : Transfer ω, Pays options 0 0 t t' → Pays options 0 1 t t' := by
    intro t' h
    refine ⟨h.next_le, ?_⟩
    have := h.spent
    omega
  rcases consume_cases cb data v t with ⟨-, ht⟩ | ht | ht
  · rw [ht]
    exact hdue _ (onValidationSuccess data t)
  · rw [ht]
    exact hdue _ (refl t)
  · rw [ht]
    refine same ?_ ?_
    · rfl
    · change _ + (t.consumer.validating ++ [data]).length + 0 ≤ _
      rw [List.length_append]
      exact le_rfl

/-- Data comes for a fetcher that runs. -/
theorem handleData (h : DataFetcher.running t pipeNo = some (f, k)) (data : Packet) (v : Verdict) :
    Pays options 1 0 t (exec (DataFetcher.handleData options cb pipeNo data v) t).2 := by
  obtain ⟨hhas, hrun⟩ := has_of_running h
  have hnone : attempts options { f with isStopped := true, pendingInterest := false } = 0 :=
    attempts_of_not_running (by simp [DataFetcher.isRunning])
  have hstop : Pays options 2 0 t (stopped t pipeNo f k) := by
    apply setFetcher hhas
    rw [hnone]
    exact attempts_of_running hrun
  -- one of the two that the fetcher leaves is for the verdict
  rcases data_cases options cb h data v with hs | ⟨learned, hs, -, hcases⟩
  · exact (hstop.trans (settles hs)).weaken (Nat.le_succ 1)
  · have hcount : Pays options 0 0 learned
        (learned.onPipeline fun p => { p with nReceived := p.nReceived + 1 }) :=
      untouched learned _ rfl rfl rfl
    have hcounted := (hstop.trans (settles hs)).trans hcount
    have hgot : Pays options (1 + 1) 1 t (exec (Consumer.handleData cb data v)
        (learned.onPipeline fun p => { p with nReceived := p.nReceived + 1 })).2 :=
      hcounted.trans (consume data v _)
    rcases hcases with ht | ⟨-, ht⟩
    · rw [ht]
      exact hgot.less
    · rw [ht]
      exact hgot.less.trans (fetchNextSegment pipeNo _)

theorem handleData_any (pipeNo : ℕ) (data : Packet) (v : Verdict) :
    Respects (Pays options 0 0) (DataFetcher.handleData (ω := ω) options cb pipeNo data v) := by
  intro t
  cases hf : DataFetcher.running t pipeNo with
  | none =>
      rw [handleData_idle options cb hf]
      exact refl t
  | some f => exact (handleData hf data v).weaken (Nat.zero_le 1)

/-- An Interest that is expressed after a wait was counted as outstanding before. -/
theorem backoff (pipeNo : ℕ) : Pays options (takes t (.backoff pipeNo)).toNat 0 t
    (exec (Event.handle options cb (.backoff pipeNo)) t).2 := by
  rw [Event.handle, exec_bind_ok (exec_get t), takes]
  cases hf : DataFetcher.running t pipeNo with
  | none => exact refl t
  | some f =>
      obtain ⟨hhas, hrun⟩ := has_of_running hf
      simp only [Option.any_some]
      cases hpending : f.1.pendingInterest with
      | true => exact refl t
      | false =>
          apply expressInterest hhas
          have hrun' :
              ({ f.1 with pendingInterest := true } : DataFetcher).isRunning = true := hrun
          rw [attempts, attempts, if_pos hrun, if_pos hrun', hpending]
          exact le_rfl

/-- A late verdict takes its packet from the validator. -/
theorem verdict (i : ℕ) (refused : Option String) :
    Pays options (takes t (.verdict i refused)).toNat 0 t
      (exec (Consumer.verdict cb i refused) t).2 := by
  rw [takes]
  rcases verdict_cases cb i refused t with ⟨hi, ht⟩ | ⟨data, hi, hcases⟩
  · rw [ht, decide_eq_false (Nat.not_lt.mpr (List.getElem?_eq_none_iff.mp hi))]
    exact refl t
  · obtain ⟨hlt, -⟩ := List.getElem?_eq_some_iff.mp hi
    have hleave : Pays options 1 0 t (t.onConsumer fun c =>
        { c with validating := c.validating.eraseIdx i }) := by
      refine same ?_ ?_
      · rfl
      · have hlength := List.length_eraseIdx_add_one hlt
        simp only [outstanding, Transfer.onConsumer]
        omega
    rw [decide_eq_true hlt]
    rcases hcases with ⟨-, ht⟩ | ⟨-, ht⟩
    · rw [ht]
      exact hleave.trans (onValidationSuccess data _)
    · rw [ht]
      exact hleave

/-- One event takes one of what is outstanding, if it finds what it is for. -/
theorem step (hretries : options.maxRetriesOnTimeoutOrNack ≠ MAX_RETRIES_INFINITE)
    (t : Transfer ω) (e : SegmentPipeline.Event) :
    Pays options (takes t e).toNat 0 t (PipelineRuns.step options cb t e) := by
  rw [PipelineRuns.step]
  cases e with
  | data p v =>
      rw [Event.handle, exec_bind_ok (exec_get t), takes]
      cases hw : waiting t (·.matchesName p.name) with
      | nil => exact refl t
      | cons pipeNo rest =>
          have hmem : pipeNo ∈ waiting t (·.matchesName p.name) := by
            rw [hw]
            exact List.mem_cons_self
          obtain ⟨f, k, hf, -⟩ := of_waiting hmem
          have hfirst :
              Pays options 1 0 t (exec (DataFetcher.handleData options cb pipeNo p v) t).2 :=
            handleData hf p v
          rw [List.foldlM_cons, exec_bind]
          rcases hx : exec (DataFetcher.handleData options cb pipeNo p v) t with ⟨_ | _, t'⟩
          · rw [hx] at hfirst
            exact hfirst
          · rw [hx] at hfirst
            exact hfirst.trans (Respects.foldlM refl (fun _ _ _ => trans) (fun _ pipeNo _ =>
              handleData_any pipeNo p v) () t')
  | nack pipeNo reason =>
      rw [Event.handle, exec_bind_ok (exec_get t), takes]
      split_ifs with hin
      · obtain ⟨f, k, hf, hpending, -⟩ := of_waiting hin
        rw [decide_eq_true hin]
        exact handleNack hretries hf hpending (tended_handleNack options hf reason)
      · rw [decide_eq_false hin]
        exact refl t
  | timeout pipeNo =>
      rw [Event.handle, exec_bind_ok (exec_get t), takes]
      split_ifs with hin
      · obtain ⟨f, k, hf, hpending, -⟩ := of_waiting hin
        rw [decide_eq_true hin]
        exact handleTimeout hretries hf hpending (tended_handleTimeout options hf)
      · rw [decide_eq_false hin]
        exact refl t
  | backoff pipeNo => exact backoff pipeNo
  | verdict i refused => exact verdict i refused

end Pays

/-! ## The segments that are asked for -/

/-- A step asks for one segment more, and then not all have come. -/
def Asks (t t' : Transfer ω) : Prop :=
  t'.pipeline.nextSegmentNo = t.pipeline.nextSegmentNo ∨
    t'.pipeline.nextSegmentNo = t.pipeline.nextSegmentNo + 1 ∧
      t'.pipeline.allSegmentsReceived = false ∧ t'.pipeline.isStopping = false

variable (options) in
theorem asks_fetchNextSegment (hall : t.pipeline.allSegmentsReceived = false) (pipeNo : ℕ) :
    Asks t (exec (PipelineInterestsFixed.fetchNextSegment options pipeNo) t).2 := by
  rcases fetchNextSegment_cases options pipeNo t with
    ⟨-, ht⟩ | ⟨-, -, ht⟩ | ⟨hstop, -, ⟨-, ht⟩ | ⟨i, -, -, ht⟩⟩
  · rw [ht]
    exact .inl rfl
  · rw [ht]
    exact .inl (settles_onFailure _ t).nextSegmentNo
  · rw [ht]
    exact .inr ⟨rfl, hall, hstop⟩
  · rw [ht]
    exact .inr ⟨rfl, hall, hstop⟩

section
variable {cb : Block → Program PacketError ω Unit}

variable (options cb) in
theorem asks_handleData (pipeNo : ℕ) (data : Packet) (v : Verdict) (t : Transfer ω) :
    Asks t (exec (DataFetcher.handleData options cb pipeNo data v) t).2 := by
  cases hf : DataFetcher.running t pipeNo with
  | none =>
      rw [handleData_idle options cb hf]
      exact .inl rfl
  | some f =>
      rcases data_cases options cb hf data v with hs | ⟨learned, hs, -, hcases⟩
      · exact .inl hs.nextSegmentNo
      · have hgot : (exec (Consumer.handleData cb data v) (learned.onPipeline fun p =>
            { p with nReceived := p.nReceived + 1 })).2.pipeline.nextSegmentNo =
            t.pipeline.nextSegmentNo := by
          rw [pipeline_consume]
          exact hs.nextSegmentNo
        rcases hcases with ht | ⟨hall, ht⟩
        · rw [ht]
          exact .inl hgot
        · rw [ht]
          have hfetch := asks_fetchNextSegment options hall pipeNo
          rwa [Asks, hgot] at hfetch

/-- An event asks for one segment more at most. -/
theorem asks_step (h : ∀ name, waiting t (·.matchesName name) = [] ∨
    ∃ pipeNo, waiting t (·.matchesName name) = [pipeNo]) (e : SegmentPipeline.Event) :
    Asks t (PipelineRuns.step options cb t e) := by
  refine handle_rule options cb e (.inl rfl) ?_ ?_ ?_
  · intro pipeNo f k t' _ hf ht
    have haside : Aside t t' := .tended hf ht
    exact .inl haside.descends.nextSegmentNo
  · intro p v _
    rcases h p.name with hnone | ⟨pipeNo, hone⟩
    · rw [hnone]
      exact .inl rfl
    · rw [hone, exec_foldlM_one]
      exact asks_handleData options cb pipeNo p v t
  · intro i refused _
    have hpipeline : (exec (Consumer.verdict cb i refused) t).2.pipeline = t.pipeline :=
      (SinglePipe.consumes_verdict cb i refused t).pipeline
    exact .inl (by rw [hpipeline])

end

/-! ## Runs -/

section
variable {obj : SegmentedObject} {E : ω → Prop} {world : ω} {block : Block}
  {cb : Block → Program PacketError ω Unit} {limit W : ℕ} {w : Tally}

theorem asks_of_live (h : (∃ w, Live obj E world limit W 0 w t) ∨ Failed t)
    (hlimit : limit ≤ 2 ^ 64)
    (e : SegmentPipeline.Event) : Asks t (PipelineRuns.step options cb t e) := by
  apply asks_step
  intro name
  rcases h with ⟨w, hlive⟩ | hfailed
  · rcases waiting_cases hlive.safe.flow (hlive.safe.next_le.trans hlimit) name with
      hnone | ⟨pipeNo, -, -, hone, -⟩
    · exact .inl hnone
    · exact .inr ⟨pipeNo, hone⟩
  · exact .inl (hfailed.idle.waiting _)

theorem live_runOf (hframe : Framed obj block) (hcb : E (exec (cb block) world).2)
    (hfinal : ∀ k < obj.size, (obj.packet k).finalBlock.isSome = true)
    (hname : obj.name.countP isParametersDigest ≤ 1) {events : List SegmentPipeline.Event}
    (hlimit : options.maxPipelineSize + events.length ≤ 2 ^ 64)
    (he : ∀ e ∈ events, Faithful (Vouched obj) e) :
    (∃ w, Live obj E world (options.maxPipelineSize + events.length) options.maxPipelineSize 0 w
        (runOf options cb obj.name world events)) ∨ Failed (runOf options cb obj.name world events) :=
  Live.run (.inl ⟨_, live_begin hname options world⟩) hframe hcb hfinal hname options hlimit he

theorem runOf_concat (name : Name) (world : ω) (events : List SegmentPipeline.Event)
    (e : SegmentPipeline.Event) : runOf options cb name world (events ++ [e]) =
      PipelineRuns.step options cb (runOf options cb name world events) e :=
  List.foldl_concat _ _ _ _

/-- The pipes ask for one segment each, and for one more with every segment that comes. -/
theorem next_runOf (hframe : Framed obj block) (hcb : E (exec (cb block) world).2)
    (hfinal : ∀ k < obj.size, (obj.packet k).finalBlock.isSome = true)
    (hname : obj.name.countP isParametersDigest ≤ 1) {events : List SegmentPipeline.Event}
    (hlimit : options.maxPipelineSize + events.length ≤ 2 ^ 64)
    (he : ∀ e ∈ events, Faithful (Vouched obj) e) :
    (runOf options cb obj.name world events).pipeline.nextSegmentNo ≤
      options.maxPipelineSize + obj.size := by
  induction events using List.reverseRecOn with
  | nil =>
      have hbegin : Live obj E world options.maxPipelineSize options.maxPipelineSize 0 {}
          (begin options obj.name world) := live_begin hname options world
      exact hbegin.safe.next_le.trans (Nat.le_add_right _ _)
  | append_singleton events e ih =>
      have hafter := live_runOf hframe hcb hfinal hname hlimit he
      rw [List.length_append, List.length_singleton] at hlimit
      have hold : ∀ e' ∈ events, Faithful (Vouched obj) e' := fun e' he' =>
        he e' (List.mem_append_left _ he')
      have hbefore := ih (by omega) hold
      have hlimit' : options.maxPipelineSize + events.length ≤ 2 ^ 64 := by omega
      have hasks : Asks (runOf options cb obj.name world events)
          (runOf options cb obj.name world (events ++ [e])) := by
        rw [runOf_concat]
        exact asks_of_live (live_runOf hframe hcb hfinal hname hlimit' hold) hlimit' e
      rcases hasks with hsame | ⟨-, hall, hstop⟩
      · exact hsame.le.trans hbefore
      · rcases hafter with ⟨w, hlive⟩ | hfailed
        · have hasked := hlive.account.asked hall
          have hle := (length_le_of_nodup hlive.safe.flow.nodup fun k hk => (hlive.owned k hk).1).1
          omega
        · have hstopped := hfailed.isStopping
          rw [hstop] at hstopped
          cases hstopped

variable (options) in
/-- What is outstanding at the beginning is for the segments that are asked for. -/
theorem outstanding_begin (name : Name) (world : ω) :
    outstanding options (begin options name world) ≤
      (begin options name world).pipeline.nextSegmentNo * attemptsPerSegment options := by
  let t₀ : Transfer ω := {
    pipeline := { PipelineInterestsFixed.new options with versionedName := name }
    world := world }
  have hnothing : outstanding options t₀ = 0 := by
    have hnone : ∀ n, attemptsIn options (List.replicate n none) = 0 := by
      intro n
      simp [attemptsIn, attemptsOf]
    exact (Nat.add_zero _).trans (hnone options.maxPipelineSize)
  have hrun : begin options name world = (exec (PipelineInterestsFixed.doRun options) t₀).2 := by
    rw [begin, Consumer.run, exec_bind_ok (exec_modify _ _)]
  have hspent : Pays options 0 0 t₀ (begin options name world) := by
    rw [hrun]
    refine stays_doRunFrom (X := Pays options 0 0 t₀) options (fun pipeNo t h => ?_) _ 0 t₀ (.refl t₀)
    exact h.trans (Pays.fetchNextSegment pipeNo t)
  have hfirst : t₀.pipeline.nextSegmentNo = 0 := rfl
  have hle := hspent.spent
  rwa [hnothing, hfirst, Nat.sub_zero, Nat.zero_add, Nat.add_zero] at hle

/-- What can still happen to a transfer, with the segments that it may yet ask for. -/
def remaining (options : Options) (size : ℕ) (t : Transfer ω) : ℕ := outstanding options t +
  (options.maxPipelineSize + size - t.pipeline.nextSegmentNo) * attemptsPerSegment options

/-- An event that a transfer takes leaves less to happen. -/
theorem remaining_step (hretries : options.maxRetriesOnTimeoutOrNack ≠ MAX_RETRIES_INFINITE)
    (size : ℕ) (t : Transfer ω) (e : SegmentPipeline.Event)
    (hnext : (PipelineRuns.step options cb t e).pipeline.nextSegmentNo ≤
      options.maxPipelineSize + size) :
    remaining options size (PipelineRuns.step options cb t e) + (takes t e).toNat ≤
      remaining options size t := by
  have hpays : Pays options (takes t e).toNat 0 t (PipelineRuns.step options cb t e) :=
    Pays.step hretries t e
  have hspent := hpays.spent
  have hle := hpays.next_le
  have hsplit : options.maxPipelineSize + size - t.pipeline.nextSegmentNo =
      ((PipelineRuns.step options cb t e).pipeline.nextSegmentNo - t.pipeline.nextSegmentNo) +
        (options.maxPipelineSize + size -
          (PipelineRuns.step options cb t e).pipeline.nextSegmentNo) := by
    omega
  rw [remaining, remaining, hsplit, Nat.add_mul]
  omega

theorem taken_runOf (hframe : Framed obj block)
    (hfinal : ∀ k < obj.size, (obj.packet k).finalBlock.isSome = true)
    (hname : obj.name.countP isParametersDigest ≤ 1)
    (hretries : options.maxRetriesOnTimeoutOrNack ≠ MAX_RETRIES_INFINITE)
    {events : List SegmentPipeline.Event}
    (hlimit : options.maxPipelineSize + events.length ≤ 2 ^ 64)
    (he : ∀ e ∈ events, Faithful (Vouched obj) e) :
    takenIn (PipelineRuns.step options cb) takes (begin options obj.name world) events ≤
      (options.maxPipelineSize + obj.size) * attemptsPerSegment options := by
  have hnext : ∀ before, before <+: events →
      (runOf options cb obj.name world before).pipeline.nextSegmentNo ≤
        options.maxPipelineSize + obj.size := by
    intro before hbefore
    have hlimit' : options.maxPipelineSize + before.length ≤ 2 ^ 64 :=
      (Nat.add_le_add_left hbefore.length_le _).trans hlimit
    exact next_runOf (E := fun _ => True) hframe trivial hfinal hname hlimit' fun e hmem =>
      he e (hbefore.subset hmem)
  have hmeasured : remaining options obj.size (runOf options cb obj.name world events) +
      takenIn (PipelineRuns.step options cb) takes (begin options obj.name world) events ≤
        remaining options obj.size (begin options obj.name world) := by
    apply takenIn_le
    intro before e hb
    have hle := hnext _ hb
    rw [runOf_concat] at hle
    exact remaining_step hretries obj.size _ e hle
  have hbegin : remaining options obj.size (begin options obj.name world) ≤
      (options.maxPipelineSize + obj.size) * attemptsPerSegment options := by
    have hfirst : (begin options obj.name world).pipeline.nextSegmentNo ≤
        options.maxPipelineSize + obj.size := hnext [] List.nil_prefix
    have hle := outstanding_begin options obj.name world
    have hsum := Nat.add_le_add_right hle ((options.maxPipelineSize + obj.size -
      (begin options obj.name world).pipeline.nextSegmentNo) * attemptsPerSegment options)
    rwa [← Nat.add_mul, Nat.add_sub_cancel' hfirst] at hsum
  omega

/-- A transfer that takes no event waits for nothing. -/
theorem idle_of_not_takes (h : ∀ e, takes t e = false) :
    (∀ k, ¬Busy t.pipeline k) ∧ t.consumer.validating = [] := by
  constructor
  · rintro k ⟨pipeNo, f, hf, hrun⟩
    have hrunning := running_of_has hf hrun
    cases hpending : f.pendingInterest with
    | true =>
        have hin : pipeNo ∈ waiting t fun _ => true := by
          refine List.mem_filter.mpr ⟨List.mem_range.mpr (lt_of_has hf), ?_⟩
          simp [hrunning, hpending]
        have hnot := h (.timeout pipeNo)
        rw [takes, decide_eq_true hin] at hnot
        cases hnot
    | false =>
        have hnot := h (.backoff pipeNo)
        rw [takes, hrunning, Option.any_some, hpending] at hnot
        cases hnot
  · by_contra hkept
    have hnot := h (.verdict 0 none)
    rw [takes, decide_eq_true (List.length_pos_iff.mpr hkept)] at hnot
    cases hnot

end

/-- Where the retries are limited, a transfer takes so many events at most, whatever the
network does. One that can take no more has told a failure, or has finished with the block. -/
theorem transfer_ends (producer : SegmentProducer.Options) (versionedPrefix : Name) (block : Block)
    (options : Options) (cb : Block → Program PacketError ω Unit) (world : ω)
    (events : List SegmentPipeline.Event) (hs : 1 ≤ producer.maxSegmentSize)
    (hs' : producer.maxSegmentSize < 2 ^ 31) (hb : block.wire.length < 2 ^ 31)
    (hW : 1 ≤ options.maxPipelineSize)
    (hretries : options.maxRetriesOnTimeoutOrNack ≠ MAX_RETRIES_INFINITE)
    (hname : versionedPrefix.countP isParametersDigest ≤ 1)
    (hlength : options.maxPipelineSize + events.length ≤ 2 ^ 64)
    (he : ∀ e ∈ events, Faithful (fun p => p.name.dropLast = versionedPrefix →
      p ∈ SegmentProducer.populateStore producer versionedPrefix block) e) :
    let t := runOf options cb versionedPrefix world events
    let n := (SegmentProducer.populateStore producer versionedPrefix block).length
    takenIn (step options cb) takes (begin options versionedPrefix world) events ≤
        (options.maxPipelineSize + n) * (2 + 3 * options.maxRetriesOnTimeoutOrNack.toNat) ∧
      ((∀ e, takes t e = false) → (∃ reason, .failure reason ∈ t.trace) ∨
        finishes t.trace = [(n, block.wire)] ∧ t.world = (exec (cb block) world).2) := by
  intro t n
  let obj := ofBlock producer versionedPrefix hb
  have hframe : Framed obj block := framed_ofBlock hs hb
  have hfinal : ∀ k < obj.size, (obj.packet k).finalBlock.isSome = true := fun _ _ => rfl
  have hvouched : ∀ e ∈ events, Faithful (Vouched obj) e :=
    fun e hmem => (he e hmem).mono fun p hp => vouched_ofBlock hs hs' hb hp
  have hn : n = obj.size := length_store hs hs' hb
  rw [hn]
  constructor
  · exact taken_runOf hframe hfinal hname hretries hlength hvouched
  · intro hnothing
    obtain ⟨hidle, hkept⟩ := idle_of_not_takes hnothing
    have hlive : (∃ w, Live obj (· = (exec (cb block) world).2) world
        (options.maxPipelineSize + events.length) options.maxPipelineSize 0 w t) ∨ Failed t :=
      live_runOf (E := (· = (exec (cb block) world).2)) hframe rfl hfinal hname hlength hvouched
    have hsettled := settled hlive hW hidle hkept
    rwa [contents_ofBlock producer hs hb] at hsettled

theorem transfer_ends_lossy :
    takenIn (step { maxPipelineSize := 2 } keep) takes (begin { maxPipelineSize := 2 } [] []) lossy ≤
        (2 + 3) * (2 + 3 * 15) ∧
      ((∀ e, takes (runOf { maxPipelineSize := 2 } keep [] [] lossy) e = false) →
        (∃ reason, .failure reason ∈ (runOf { maxPipelineSize := 2 } keep [] [] lossy).trace) ∨
        finishes (runOf { maxPipelineSize := 2 } keep [] [] lossy).trace = [(3, shortBlock.wire)] ∧
          (runOf { maxPipelineSize := 2 } keep [] [] lossy).world = (exec (keep shortBlock) []).2) := by
  apply transfer_ends { maxSegmentSize := 2 } [] shortBlock { maxPipelineSize := 2 } keep [] lossy
  · decide
  · decide
  · decide
  · decide
  · decide
  · decide
  · decide
  · exact faithful_lossy

/-! ## Transfers that are not given up -/

variable {options : Options}

variable (options) in
/-- The fetcher that hears of a nack or a timeout bears it. -/
def Patient (t : Transfer ω) : SegmentPipeline.Event → Prop
  | .nack pipeNo reason => (∀ text, reason ≠ .other text) ∧
      ∀ f ∈ DataFetcher.running t pipeNo, options.maxRetriesOnTimeoutOrNack = MAX_RETRIES_INFINITE ∨
        f.1.nNacks < options.maxRetriesOnTimeoutOrNack
  | .timeout pipeNo =>
      ∀ f ∈ DataFetcher.running t pipeNo, options.maxRetriesOnTimeoutOrNack = MAX_RETRIES_INFINITE ∨
        f.1.nTimeouts < options.maxRetriesOnTimeoutOrNack
  | _ => True

/-- Nothing has failed, and no failure has been told. -/
structure Untroubled (t : Transfer ω) : Prop where
  calm : Calm t.pipeline
  untold : ∀ reason, .failure reason ∉ t.trace

/-- A pipeline is calm with a fetcher that has no error. -/
theorem calm_setFetcher {p : PipelineInterestsFixed} (h : Calm p) (pipeNo : ℕ) {f : DataFetcher}
    (hf : f.hasError = false) (k : ℕ) : Calm (p.setFetcher pipeNo f k) where
  isStopping := h.isStopping
  hasFailure := h.hasFailure
  hasError entry he f' hf' := by
    rcases List.mem_or_eq_of_mem_set he with he | rfl
    · exact h.hasError entry he f' hf'
    · obtain rfl := Option.mem_some.mp hf'
      exact hf

/-- A fetcher that runs has no error. -/
theorem hasError_of_isRunning {f : DataFetcher} (h : f.isRunning = true) : f.hasError = false := by
  rw [DataFetcher.isRunning, Bool.and_eq_true] at h
  simpa using h.2

/-- A fetcher that is patient goes on. -/
theorem bears_of_patient {t : Transfer ω} {e : SegmentPipeline.Event} (hp : Patient options t e)
    {pipeNo : ℕ} (hpipe : pipeOf e = some pipeNo) {f : DataFetcher} {k : ℕ}
    (hf : DataFetcher.running t pipeNo = some (f, k)) : Bears options (heard options f e) e := by
  have hgoes : ∀ count : ℤ, options.maxRetriesOnTimeoutOrNack = MAX_RETRIES_INFINITE ∨
      count < options.maxRetriesOnTimeoutOrNack →
      (if options.maxRetriesOnTimeoutOrNack = MAX_RETRIES_INFINITE then count else count + 1) ≤
        options.maxRetriesOnTimeoutOrNack ∨
          options.maxRetriesOnTimeoutOrNack = MAX_RETRIES_INFINITE := by
    intro count h
    by_cases hinfinite : options.maxRetriesOnTimeoutOrNack = MAX_RETRIES_INFINITE
    · exact .inr hinfinite
    · rw [if_neg hinfinite]
      exact .inl (h.resolve_left hinfinite)
  cases e with
  | nack j reason =>
      obtain rfl := Option.some.inj hpipe
      exact ⟨hgoes _ (hp.2 _ hf), hp.1⟩
  | timeout j =>
      obtain rfl := Option.some.inj hpipe
      exact hgoes _ (hp _ hf)
  | data p v => exact trivial
  | backoff j => exact trivial
  | verdict i refused => exact trivial

namespace Untroubled
variable {t : Transfer ω} {cb : Block → Program PacketError ω Unit}

theorem fetchNextSegment (pipeNo : ℕ) :
    Stays Untroubled (PipelineInterestsFixed.fetchNextSegment (ω := ω) options pipeNo) := by
  intro t h
  have hcalm := (quiet_fetchNextSegment options h.calm pipeNo).calm
  refine ⟨hcalm, ?_⟩
  rcases fetchNextSegment_cases options pipeNo t with
    ⟨hstop, -⟩ | ⟨-, hfailure, -⟩ | ⟨-, -, ⟨-, ht⟩ | ⟨i, -, -, ht⟩⟩
  · rw [h.calm.isStopping] at hstop
    cases hstop
  · rw [h.calm.hasFailure] at hfailure
    cases hfailure
  · rw [ht]
    exact h.untold
  · rw [ht]
    intro reason hmem
    have hmem' : .failure reason ∈ t.trace ++ [.fetch i] := hmem
    exact h.untold reason (by simpa using hmem')

theorem learnFinalBlock (data : Packet) :
    Stays Untroubled (PipelineInterestsFixed.learnFinalBlock (ω := ω) data) := by
  intro t h
  rcases learnFinalBlock_cases data t with
    ⟨ht, -⟩ | ⟨c, last, -, -, -, ⟨pipeNo, f, k, hf, herror, -⟩ | hr⟩
  · rw [ht]
    exact h
  · have hno : f.hasError = false := h.calm.hasError _ (List.mem_of_getElem? hf) (f, k) rfl
    rw [hno] at herror
    cases herror
  · rw [hr]
    have hknown : Calm { t.pipeline with hasFinalBlockId := true, lastSegmentNo := last } :=
      ⟨h.calm.isStopping, h.calm.hasFailure, h.calm.hasError⟩
    exact ⟨hknown.cancelAfter last, h.untold⟩

theorem onValidationSuccess (data : Packet) :
    Stays Untroubled (Consumer.onValidationSuccess cb data) := by
  intro t h
  refine ⟨?_, fun reason hmem => h.untold reason ?_⟩
  · rw [pipeline_onValidationSuccess]
    exact h.calm
  · exact (kept_onValidationSuccess cb data t).2 reason hmem

theorem onData (data : Packet) (v : Verdict) :
    Stays Untroubled (PipelineInterests.onData cb data v) := by
  intro t h
  have hcounted : Untroubled (t.onPipeline fun p => { p with nReceived := p.nReceived + 1 }) :=
    ⟨⟨h.calm.isStopping, h.calm.hasFailure, h.calm.hasError⟩, h.untold⟩
  rw [PipelineInterests.onData, exec_bind_ok (exec_modify _ t)]
  rcases consume_cases cb data v (t.onPipeline fun p => { p with nReceived := p.nReceived + 1 }) with
    ⟨-, ht⟩ | ht | ht
  · rw [ht]
    exact onValidationSuccess data _ hcounted
  · rw [ht]
    exact hcounted
  · rw [ht]
    exact ⟨hcounted.calm, hcounted.untold⟩

theorem handleData (pipeNo : ℕ) (data : Packet) (v : Verdict) :
    Stays Untroubled (DataFetcher.handleData options cb pipeNo data v) := by
  intro t h
  cases hf : DataFetcher.running t pipeNo with
  | none =>
      rw [handleData_idle options cb hf]
      exact h
  | some f =>
      have hno := hasError_of_isRunning (has_of_running hf).2
      have hstopped : Untroubled (stopped t pipeNo f.1 f.2) := by
        refine ⟨calm_setFetcher h.calm pipeNo ?_ f.2, h.untold⟩
        exact hno
      have hlearned := learnFinalBlock data _ hstopped
      have hgot : Untroubled (exec (PipelineInterests.onData cb data v) _).2 :=
        onData data v _ hlearned
      rw [exec_handleData options cb hf]
      rcases handleData_cases options cb pipeNo data v _ with ht | ht | ht | ⟨-, ht⟩
      · rw [ht]
        exact hstopped
      · rw [ht]
        exact hlearned
      · rw [ht]
        exact hgot
      · rw [ht]
        exact fetchNextSegment pipeNo _ hgot

/-- A fetcher that runs goes on. -/
theorem setFetcher (h : Untroubled t) {f g : DataFetcher} {k pipeNo : ℕ}
    (hrun : f.isRunning = true) (hg : g.hasError = f.hasError) :
    Untroubled (t.onPipeline (·.setFetcher pipeNo g k)) :=
  ⟨calm_setFetcher h.calm pipeNo (hg.trans (hasError_of_isRunning hrun)) k, h.untold⟩

theorem expressInterest (h : Untroubled t) {f g : DataFetcher} {k pipeNo : ℕ}
    (hrun : f.isRunning = true) (hg : g.hasError = f.hasError) :
    Untroubled (exec (DataFetcher.expressInterest pipeNo g k) t).2 := by
  have hact : Untroubled (t.act (.fetch g.interest)) := by
    refine ⟨h.calm, fun reason hmem => h.untold reason ?_⟩
    have hmem' : .failure reason ∈ t.trace ++ [.fetch g.interest] := hmem
    simpa using hmem'
  refine hact.setFetcher hrun ?_
  exact hg

/-- An event that the fetcher bears is answered by the Interest, at once or later. -/
theorem tended (h : Untroubled t) {pipeNo : ℕ} {f : DataFetcher} {k : ℕ}
    (hf : DataFetcher.running t pipeNo = some (f, k)) {e : SegmentPipeline.Event}
    (hb : Bears options (heard options f e) e) {t' : Transfer ω}
    (ht : Tended options t pipeNo f k e t') : Untroubled t' := by
  have hrun := (has_of_running hf).2
  have hsame := (heard_spec options f e).2.1
  cases ht with
  | again => exact h.expressInterest hrun hsame
  | wait => exact h.setFetcher hrun hsame
  | giveUp hnot => exact absurd hb hnot

theorem step (h : Untroubled t) {e : SegmentPipeline.Event} (hp : Patient options t e) :
    Untroubled (PipelineRuns.step options cb t e) := by
  refine handle_rule options cb e h ?_ ?_ ?_
  · exact fun pipeNo f k t' hpipe hf ht => h.tended hf (bears_of_patient hp hpipe hf) ht
  · exact fun p v _ => Stays.foldlM (fun _ pipeNo => handleData pipeNo p v) _ () t h
  · intro i refused _
    have hleft : Untroubled (t.onConsumer fun c => { c with validating := c.validating.eraseIdx i }) :=
      ⟨h.calm, h.untold⟩
    rcases verdict_cases cb i refused t with ⟨-, ht⟩ | ⟨data, -, ⟨-, ht⟩ | ⟨-, ht⟩⟩
    · rw [ht]
      exact h
    · rw [ht]
      exact onValidationSuccess data _ hleft
    · rw [ht]
      exact hleft

theorem begin (name : Name) (world : ω) : Untroubled (PipelineRuns.begin options name world) := by
  rw [PipelineRuns.begin, Consumer.run, exec_bind_ok (exec_modify _ _)]
  apply stays_doRunFrom options fetchNextSegment
  exact ⟨(calm_new options).named name, by simp⟩

end Untroubled

/-- Where no fetcher gives up no failure is told, and the block is delivered. -/
theorem patient_delivers (producer : SegmentProducer.Options) (versionedPrefix : Name) (block : Block)
    (options : Options) (cb : Block → Program PacketError ω Unit) (world : ω)
    (events : List SegmentPipeline.Event) (hs : 1 ≤ producer.maxSegmentSize)
    (hs' : producer.maxSegmentSize < 2 ^ 31) (hb : block.wire.length < 2 ^ 31)
    (hW : 1 ≤ options.maxPipelineSize) (hname : versionedPrefix.countP isParametersDigest ≤ 1)
    (hlength : options.maxPipelineSize + events.length ≤ 2 ^ 64)
    (he : ∀ e ∈ events, Faithful (fun p => p.name.dropLast = versionedPrefix →
      p ∈ SegmentProducer.populateStore producer versionedPrefix block) e)
    (hpatient : Throughout (step options cb) (Patient options) (begin options versionedPrefix world) events) :
    let t := runOf options cb versionedPrefix world events
    let n := (SegmentProducer.populateStore producer versionedPrefix block).length
    (∀ reason, .failure reason ∉ t.trace) ∧
      ((∃ pipeNo, (DataFetcher.running t pipeNo).isSome = true) ∨ t.consumer.validating ≠ [] ∨
        finishes t.trace = [(n, block.wire)] ∧ t.world = (exec (cb block) world).2) := by
  intro t n
  have huntroubled : Untroubled t :=
    Throughout.invariant (fun _ _ h hp => h.step hp) hpatient (Untroubled.begin versionedPrefix world)
  refine ⟨huntroubled.untold, ?_⟩
  let obj := ofBlock producer versionedPrefix hb
  have hframe : Framed obj block := framed_ofBlock hs hb
  have hvouched : ∀ e ∈ events, Faithful (Vouched obj) e :=
    fun e hmem => (he e hmem).mono fun p hp => vouched_ofBlock hs hs' hb hp
  have hlive : (∃ w, Live obj (· = (exec (cb block) world).2) world
      (options.maxPipelineSize + events.length) options.maxPipelineSize 0 w t) ∨ Failed t :=
    live_runOf (E := (· = (exec (cb block) world).2)) hframe rfl (fun _ _ => rfl) hname hlength
      hvouched
  by_cases hbusy : ∃ k, Busy t.pipeline k
  · obtain ⟨k, hk⟩ := hbusy
    exact .inl (running_of_busy hk)
  · by_cases hkept : t.consumer.validating = []
    · rcases settled hlive hW (fun k hk => hbusy ⟨k, hk⟩) hkept with ⟨reason, htold⟩ | hfinished
      · exact absurd htold (huntroubled.untold reason)
      · rw [contents_ofBlock producer hs hb, ← length_store hs hs' hb] at hfinished
        exact .inr (.inr hfinished)
    · exact .inr (.inl hkept)

theorem patient_lossy : Throughout (step { maxPipelineSize := 2 } keep)
    (Patient { maxPipelineSize := 2 }) (begin { maxPipelineSize := 2 } [] []) lossy := by
  have hfirst : ∀ f ∈ DataFetcher.running (begin { maxPipelineSize := 2 } [] ([] : List Block)) 0,
      (15 : ℤ) = MAX_RETRIES_INFINITE ∨ f.1.nTimeouts < 15 := by decide
  exact ⟨hfirst, trivial, trivial, trivial, trivial, trivial, trivial⟩

theorem patient_delivers_lossy :
    let t := runOf { maxPipelineSize := 2 } keep [] [] lossy
    (∀ reason, .failure reason ∉ t.trace) ∧
      ((∃ pipeNo, (DataFetcher.running t pipeNo).isSome = true) ∨ t.consumer.validating ≠ [] ∨
        finishes t.trace = [(3, shortBlock.wire)] ∧ t.world = (exec (keep shortBlock) []).2) := by
  apply patient_delivers { maxSegmentSize := 2 } [] shortBlock { maxPipelineSize := 2 } keep [] lossy
  · decide
  · decide
  · decide
  · decide
  · decide
  · decide
  · exact faithful_lossy
  · exact patient_lossy

end
end CertLedger.PipelineEnds
