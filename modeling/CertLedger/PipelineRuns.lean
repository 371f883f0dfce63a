import CertLedger.CheckerOrigins

/-!
# Transfers over a network

Segments are fetched by any number of pipes, over a network that loses, repeats and
forges Data, with a validator that decides at any time. The finish callback is called
once at most, with the object that was cut. A transfer that has not failed and has not
finished waits for something.
-/
namespace CertLedger.PipelineRuns
open TlvCodec FallibleState NdnObjects NdnPackets Reassembly EventRuns SegmentPipeline SegmentRuns
open PipelineSteps
open CheckerOrigins (passed)

/-! ## Fetchers -/

/-- No fetcher is new, and none runs again. -/
structure Descends (p q : PipelineInterestsFixed) : Prop where
  versionedName : q.versionedName = p.versionedName
  nextSegmentNo : q.nextSegmentNo = p.nextSegmentNo
  fetcher : ∀ pipeNo f k, Has q pipeNo f k →
    ∃ f', Has p pipeNo f' k ∧ f.interest = f'.interest ∧ (f.isRunning = true → f'.isRunning = true)

namespace Descends
variable {p q r : PipelineInterestsFixed}

theorem of_fetchers (hname : q.versionedName = p.versionedName)
    (hnext : q.nextSegmentNo = p.nextSegmentNo) (hf : q.segmentFetchers = p.segmentFetchers) :
    Descends p q := by
  refine ⟨hname, hnext, fun pipeNo f k h => ⟨f, ?_, rfl, id⟩⟩
  rwa [Has, hf] at h

theorem refl (p : PipelineInterestsFixed) : Descends p p := of_fetchers rfl rfl rfl

theorem trans (h : Descends p q) (h' : Descends q r) : Descends p r := by
  refine ⟨h'.versionedName.trans h.versionedName, h'.nextSegmentNo.trans h.nextSegmentNo, ?_⟩
  intro pipeNo f k hf
  obtain ⟨f', hf', hi', hrun'⟩ := h'.fetcher pipeNo f k hf
  obtain ⟨f'', hf'', hi'', hrun''⟩ := h.fetcher pipeNo f' k hf'
  exact ⟨f'', hf'', hi'.trans hi'', hrun'' ∘ hrun'⟩

theorem setFetcher {pipeNo : ℕ} {f f' : DataFetcher} {k : ℕ} (h : Has p pipeNo f' k)
    (hi : f.interest = f'.interest) (hrun : f.isRunning = true → f'.isRunning = true) :
    Descends p (p.setFetcher pipeNo f k) := by
  refine ⟨rfl, rfl, ?_⟩
  intro j g i hg
  rcases has_setFetcher hg with ⟨rfl, rfl, rfl⟩ | hg
  · exact ⟨f', h, hi, hrun⟩
  · exact ⟨g, hg, rfl, id⟩

end Descends

section
variable {ω : Type}

/-- What a pipeline does while the consumer does nothing. -/
structure Aside (t t' : Transfer ω) : Prop where
  consumer : t'.consumer = t.consumer
  world : t'.world = t.world
  finishes : finishes t'.trace = finishes t.trace
  descends : Descends t.pipeline t'.pipeline

namespace Aside
variable {t t' t'' : Transfer ω}

theorem refl (t : Transfer ω) : Aside t t := ⟨rfl, rfl, rfl, .refl _⟩

theorem trans (t t' t'' : Transfer ω) (h : Aside t t') (h' : Aside t' t'') : Aside t t'' :=
  ⟨h'.consumer.trans h.consumer, h'.world.trans h.world, h'.finishes.trans h.finishes,
    h.descends.trans h'.descends⟩

theorem onPipeline (t : Transfer ω) (f : PipelineInterestsFixed → PipelineInterestsFixed)
    (h : Descends t.pipeline (f t.pipeline)) : Aside t (t.onPipeline f) := ⟨rfl, rfl, rfl, h⟩

theorem setFetcher {t : Transfer ω} {pipeNo : ℕ} {f f' : DataFetcher} {k : ℕ}
    (h : Has t.pipeline pipeNo f' k) (hi : f.interest = f'.interest)
    (hrun : f'.isRunning = true) : Aside t (t.onPipeline (·.setFetcher pipeNo f k)) :=
  onPipeline t _ (.setFetcher h hi fun _ => hrun)

theorem act (t : Transfer ω) {action : Action} (h : SegmentRuns.finishes [action] = []) :
    Aside t (t.act action) := by
  refine ⟨rfl, rfl, ?_, .refl _⟩
  rw [Transfer.act, finishes_append, h, List.append_nil]

theorem settles (h : Settles t t') : Aside t t' := by
  refine ⟨h.consumer, h.world, h.finishes, h.versionedName, h.nextSegmentNo, ?_⟩
  intro pipeNo f k hf
  obtain ⟨f', hf', hi, hsame⟩ := h.fetcher pipeNo f k hf
  refine ⟨f', hf', hi, fun hrun => ?_⟩
  rcases hsame with rfl | hstop
  · exact hrun
  · rw [hstop] at hrun
    cases hrun

/-- What is done with a fetcher that runs. -/
theorem expressInterest {pipeNo : ℕ} {f f' : DataFetcher} {k : ℕ} (h : Has t.pipeline pipeNo f' k)
    (hi : f.interest = f'.interest) (hrun : f'.isRunning = true) :
    Aside t (exec (DataFetcher.expressInterest pipeNo f k) t).2 :=
  trans _ _ _ (act t rfl) (setFetcher h hi hrun)

theorem fail {pipeNo : ℕ} {f f' : DataFetcher} {k : ℕ} (h : Has t.pipeline pipeNo f' k)
    (hi : f.interest = f'.interest) (hrun : f'.isRunning = true) (reason : FetchFailure) :
    Aside t (exec (DataFetcher.fail pipeNo f k reason) t).2 := by
  rw [DataFetcher.fail, exec_bind_ok (exec_modify _ t)]
  refine trans _ _ _ (setFetcher h ?_ hrun) (settles (settles_handleFail reason pipeNo _))
  exact hi

theorem tended {options : Options} {pipeNo : ℕ} {f : DataFetcher} {k : ℕ} {e : SegmentPipeline.Event}
    (hf : DataFetcher.running t pipeNo = some (f, k)) (ht : Tended options t pipeNo f k e t') :
    Aside t t' := by
  obtain ⟨hhas, hrun⟩ := has_of_running hf
  obtain ⟨hi, -, -⟩ := heard_spec options f e
  cases ht with
  | again => exact expressInterest hhas hi hrun
  | wait => exact setFetcher hhas hi hrun
  | giveUp _ reason => exact fail hhas hi hrun reason

end Aside

/-! ## Segments that are asked for and come -/

theorem fromSegment_inj {j k : ℕ} (hj : j < 2 ^ 64) (hk : k < 2 ^ 64)
    (h : fromSegment j = fromSegment k) : j = k := by
  have hjk := toSegment_fromSegment hj
  rw [h, toSegment_fromSegment hk] at hjk
  exact (Except.ok.inj hjk).symm

theorem segment_inj {name : Name} {j k : ℕ} (hj : j < 2 ^ 64) (hk : k < 2 ^ 64)
    (h : name ++ [fromSegment j] = name ++ [fromSegment k]) : j = k := by
  have hlast := List.append_cancel_left h
  exact fromSegment_inj hj hk (List.cons.inj hlast).1

/-- Each segment is fetched by one pipe at most, until it has come. -/
structure Flow (name : Name) (taken : List ℕ) (p : PipelineInterestsFixed) : Prop where
  versionedName : p.versionedName = name
  interest : ∀ pipeNo f k, Has p pipeNo f k →
    f.interest.name = name ++ [fromSegment k] ∧ f.interest.canBePrefix = false
  asked : ∀ pipeNo f k, Has p pipeNo f k → k < p.nextSegmentNo
  distinct : ∀ i j f g k, Has p i f k → Has p j g k → i = j
  fresh : ∀ pipeNo f k, Has p pipeNo f k → f.isRunning = true → k ∉ taken
  come : ∀ k ∈ taken, k < p.nextSegmentNo
  nodup : taken.Nodup

namespace Flow
variable {name : Name} {taken : List ℕ} {p q : PipelineInterestsFixed}

theorem descends (h : Flow name taken p) (hd : Descends p q) : Flow name taken q where
  versionedName := hd.versionedName.trans h.versionedName
  interest pipeNo f k hf := by
    obtain ⟨f', hf', hi, -⟩ := hd.fetcher pipeNo f k hf
    rw [hi]
    exact h.interest pipeNo f' k hf'
  asked pipeNo f k hf := by
    obtain ⟨f', hf', -⟩ := hd.fetcher pipeNo f k hf
    rw [hd.nextSegmentNo]
    exact h.asked pipeNo f' k hf'
  distinct i j f g k hf hg := by
    obtain ⟨f', hf', -⟩ := hd.fetcher i f k hf
    obtain ⟨g', hg', -⟩ := hd.fetcher j g k hg
    exact h.distinct i j f' g' k hf' hg'
  fresh pipeNo f k hf hrun := by
    obtain ⟨f', hf', -, hrun'⟩ := hd.fetcher pipeNo f k hf
    exact h.fresh pipeNo f' k hf' (hrun' hrun)
  come := hd.nextSegmentNo ▸ h.come
  nodup := h.nodup

/-- Data comes for the fetcher of a pipe, which stops. -/
theorem take (h : Flow name taken p) {pipeNo : ℕ} {f g : DataFetcher} {k : ℕ}
    (hf : Has p pipeNo f k) (hrun : f.isRunning = true) (hi : g.interest = f.interest)
    (hstop : g.isRunning = false) : Flow name (k :: taken) (p.setFetcher pipeNo g k) := by
  have hd : Descends p (p.setFetcher pipeNo g k) := .setFetcher hf hi (by simp [hstop])
  have hrest := h.descends hd
  refine ⟨hrest.versionedName, hrest.interest, hrest.asked, hrest.distinct, ?_, ?_, ?_⟩
  · intro j f' i hf' hrun' hmem
    rcases List.mem_cons.mp hmem with rfl | hmem
    · rcases has_setFetcher hf' with ⟨-, rfl, -⟩ | hother
      · exact Bool.false_ne_true (hstop.symm.trans hrun')
      · -- a pipe with the same segment is the same pipe
        obtain rfl := h.distinct j pipeNo f' f i hother hf
        have hset : Has (p.setFetcher j g i) j g i := by
          rw [Has, PipelineInterestsFixed.setFetcher, List.getElem?_set_self]
          exact (List.getElem?_eq_some_iff.mp hf).1
        have hsame := Option.some.inj (Option.some.inj (hf'.symm.trans hset))
        rw [(Prod.mk.inj hsame).1] at hrun'
        exact Bool.false_ne_true (hstop.symm.trans hrun')
    · exact hrest.fresh j f' i hf' hrun' hmem
  · intro i hi
    rcases List.mem_cons.mp hi with rfl | hi
    · exact h.asked pipeNo f i hf
    · exact h.come i hi
  · exact List.nodup_cons.mpr ⟨h.fresh pipeNo f k hf hrun, h.nodup⟩

/-- The next segment is asked for. -/
theorem ask (h : Flow name taken p) (pipeNo : ℕ) {i : Interest}
    (hi : i.name = name ++ [fromSegment p.nextSegmentNo] ∧ i.canBePrefix = false) :
    Flow name taken (({ p with nextSegmentNo := p.nextSegmentNo + 1 } : PipelineInterestsFixed).setFetcher
      pipeNo { interest := i } p.nextSegmentNo) := by
  have hcases : ∀ j g k, Has (({ p with nextSegmentNo := p.nextSegmentNo + 1 } :
      PipelineInterestsFixed).setFetcher pipeNo { interest := i } p.nextSegmentNo) j g k →
      (j = pipeNo ∧ g = { interest := i } ∧ k = p.nextSegmentNo) ∨ Has p j g k :=
    fun j g k hg => has_setFetcher hg
  refine ⟨h.versionedName, ?_, ?_, ?_, ?_, ?_, h.nodup⟩
  · intro j g k hg
    rcases hcases j g k hg with ⟨-, rfl, rfl⟩ | hg
    · exact hi
    · exact h.interest j g k hg
  · intro j g k hg
    rcases hcases j g k hg with ⟨-, -, rfl⟩ | hg
    · exact Nat.lt_succ_self _
    · exact Nat.lt_succ_of_lt (h.asked j g k hg)
  · intro j j' g g' k hg hg'
    rcases hcases j g k hg with ⟨rfl, -, hk⟩ | hold
    · rcases hcases j' g' k hg' with ⟨rfl, -, -⟩ | hold'
      · rfl
      · exact absurd (h.asked j' g' k hold') (by omega)
    · rcases hcases j' g' k hg' with ⟨-, -, hk⟩ | hold'
      · exact absurd (h.asked j g k hold) (by omega)
      · exact h.distinct j j' g g' k hold hold'
  · intro j g k hg hrun
    rcases hcases j g k hg with ⟨-, -, rfl⟩ | hg
    · exact fun hin => Nat.lt_irrefl _ (h.come _ hin)
    · exact h.fresh j g k hg hrun
  · exact fun k hk => Nat.lt_succ_of_lt (h.come k hk)

end Flow

/-- The pipes that wait for Data with one name. -/
theorem waiting_cases {name : Name} {taken : List ℕ} {t : Transfer ω}
    (h : Flow name taken t.pipeline) (hnext : t.pipeline.nextSegmentNo ≤ 2 ^ 64) (dataName : Name) :
    waiting t (·.matchesName dataName) = [] ∨ ∃ pipeNo f k,
      waiting t (·.matchesName dataName) = [pipeNo] ∧ DataFetcher.running t pipeNo = some (f, k) ∧
        dataName = name ++ [fromSegment k] := by
  have hmem : ∀ pipeNo ∈ waiting t (·.matchesName dataName), ∃ f k,
      DataFetcher.running t pipeNo = some (f, k) ∧ dataName = name ++ [fromSegment k] := by
    intro pipeNo hpipe
    obtain ⟨f, k, hf, -, hmatch⟩ := of_waiting hpipe
    obtain ⟨hname, hexact⟩ := h.interest pipeNo f k (has_of_running hf).1
    simp only [Interest.matchesName, hexact, Bool.false_eq_true, if_false, beq_iff_eq, hname] at hmatch
    exact ⟨f, k, hf, hmatch.symm⟩
  have hnodup : (waiting t (·.matchesName dataName)).Nodup := List.nodup_range.filter _
  cases hw : waiting t (·.matchesName dataName) with
  | nil => exact .inl rfl
  | cons pipeNo rest =>
      rw [hw] at hmem hnodup
      obtain ⟨f, k, hf, hname⟩ := hmem pipeNo List.mem_cons_self
      refine .inr ⟨pipeNo, f, k, ?_, hf, hname⟩
      cases rest with
      | nil => rfl
      | cons other rest =>
          obtain ⟨f', k', hf', hname'⟩ := hmem other (by simp)
          have hhas := (has_of_running hf).1
          have hhas' := (has_of_running hf').1
          obtain rfl : k = k' := segment_inj ((h.asked _ _ _ hhas).trans_le hnext)
            ((h.asked _ _ _ hhas').trans_le hnext) (hname.symm.trans hname')
          have hsame : pipeNo = other := h.distinct _ _ _ _ _ hhas hhas'
          rw [hsame] at hnodup
          simp at hnodup

/-! ## What is written and told -/

/-- The segments that have come, whatever they held, those that the validator has passed
and those it has kept. -/
structure Tally where
  taken : List ℕ := []
  validated : List ℕ := []
  awaiting : List ℕ := []

variable (obj : SegmentedObject)

/-- The consumer has the validated segments and keeps the others. -/
structure Received (w : Tally) (c : Consumer) : Prop where
  wrote : Wrote obj { validated := w.validated } { c with validating := [] }
  validating : c.validating.map (·.name) = w.awaiting.map fun k => obj.name ++ [fromSegment k]
  lt : ∀ k ∈ w.validated, k < obj.size
  nodup : (w.validated ++ w.awaiting).Nodup
  taken : ∀ k ∈ w.validated ++ w.awaiting, k ∈ w.taken

/-- The contents are an element, and its beginnings hold none. -/
structure Framed (block : Block) : Prop where
  whole : readBlock obj.contents = some (block, [])
  first : ∀ m ≤ obj.size, (readBlock ((List.range m).flatMap obj.content)).isSome = true →
    m = obj.size

variable (E : ω → Prop) (world : ω)

/-- The callback has not been called, or once, with `E`, for the whole object, of which
nothing is left to come. -/
def Told (w : Tally) (t : Transfer ω) : Prop :=
  (finishes t.trace = [] ∧ t.world = world) ∨
    finishes t.trace = [(obj.size, obj.contents)] ∧ E t.world ∧ ∀ k < obj.size, k ∈ w.validated

/-- What holds of a transfer at any time. Fewer than `limit` segments have been asked for. -/
structure Safe (limit : ℕ) (w : Tally) (t : Transfer ω) : Prop where
  flow : Flow obj.name w.taken t.pipeline
  next_le : t.pipeline.nextSegmentNo ≤ limit
  received : Received obj w t.consumer
  told : Told obj E world w t

/-- Of the packets with the name of a segment the validator passes only the segments. -/
def Vouched (p : Packet) : Prop := p.name.dropLast = obj.name → ∃ k < obj.size, p = obj.packet k

variable {obj E world} {cb : Block → Program PacketError ω Unit} {block : Block} {limit : ℕ}
  {w : Tally} {t t' : Transfer ω}

theorem Vouched.packet {p : Packet} (hp : Vouched obj p) {k : ℕ} (hk : k < 2 ^ 64)
    (hname : p.name = obj.name ++ [fromSegment k]) : k < obj.size ∧ p = obj.packet k := by
  obtain ⟨j, hj, rfl⟩ := hp (by rw [hname, List.dropLast_concat])
  rw [obj.named j hj] at hname
  obtain rfl := segment_inj (hj.trans_le obj.size_le) hk hname
  exact ⟨hj, rfl⟩

theorem Told.of_eq (h : Told obj E world w t) (hf : finishes t'.trace = finishes t.trace)
    (hw : t'.world = t.world) : Told obj E world w t' := by
  rw [Told, hf, hw]
  exact h

theorem Told.finishes_eq (h : Told obj E world w t) (hfinished : finishes t.trace ≠ []) :
    finishes t.trace = [(obj.size, obj.contents)] := by
  rcases h with ⟨hnone, -⟩ | ⟨hone, -⟩
  · exact absurd hnone hfinished
  · exact hone

theorem Told.imp (h : Told obj E world w t) {E' : ω → Prop}
    (hE : finishes t.trace ≠ [] → E t.world → E' t.world) : Told obj E' world w t := by
  refine h.imp_right fun ⟨hf, he, hall⟩ => ⟨hf, hE ?_ he, hall⟩
  rw [hf]
  exact List.cons_ne_nil _ _

namespace Safe

theorem mono (h : Safe obj E world limit w t) {limit' : ℕ} (hle : limit ≤ limit') :
    Safe obj E world limit' w t := ⟨h.flow, h.next_le.trans hle, h.received, h.told⟩

theorem imp (h : Safe obj E world limit w t) {E' : ω → Prop}
    (hE : finishes t.trace ≠ [] → E t.world → E' t.world) : Safe obj E' world limit w t :=
  ⟨h.flow, h.next_le, h.received, h.told.imp hE⟩

theorem aside (h : Safe obj E world limit w t) (ha : Aside t t') :
    Safe obj E world limit w t' where
  flow := h.flow.descends ha.descends
  next_le := ha.descends.nextSegmentNo ▸ h.next_le
  received := ha.consumer ▸ h.received
  told := h.told.of_eq ha.finishes ha.world

theorem fetch (h : Safe obj E world limit w t) (options : Options) (pipeNo : ℕ) :
    Safe obj E world (limit + 1) w
      (exec (PipelineInterestsFixed.fetchNextSegment options pipeNo) t).2 := by
  have hnext : t.pipeline.nextSegmentNo + 1 ≤ limit + 1 := Nat.succ_le_succ h.next_le
  have hle := h.mono (Nat.le_succ limit)
  rcases fetchNextSegment_cases options pipeNo t with
    ⟨-, ht⟩ | ⟨-, -, ht⟩ | ⟨-, -, ⟨-, ht⟩ | ⟨i, hi, hexact, ht⟩⟩
  · rw [ht]
    exact hle
  · rw [ht]
    exact hle.aside (.settles (settles_onFailure _ t))
  · rw [ht]
    have hflow : Flow obj.name w.taken
        { t.pipeline with nextSegmentNo := t.pipeline.nextSegmentNo + 1 } :=
      ⟨h.flow.versionedName, h.flow.interest,
        fun pipeNo f k hf => Nat.lt_succ_of_lt (h.flow.asked pipeNo f k hf), h.flow.distinct,
        h.flow.fresh, fun k hk => Nat.lt_succ_of_lt (h.flow.come k hk), h.flow.nodup⟩
    exact ⟨hflow, hnext, h.received, h.told⟩
  · rw [ht]
    have htrace : finishes (t.trace ++ [.fetch i]) = finishes t.trace :=
      (finishes_append t.trace [.fetch i]).trans (List.append_nil _)
    exact ⟨h.flow.ask pipeNo ⟨h.flow.versionedName ▸ hi, hexact⟩, hnext, h.received,
      h.told.of_eq htrace rfl⟩

end Safe

theorem Received.next_le {c : Consumer} (h : Received obj w c) : c.nextToPrint ≤ obj.size := by
  by_contra hlt
  exact Nat.lt_irrefl _ (h.lt _ (h.wrote.holds.left obj.size (Nat.not_le.mp hlt)))

/-- The validator passes a segment that has come and is not kept. -/
theorem Safe.pass (h : Safe obj E world limit w t) (hframe : Framed obj block)
    (hcb : E (exec (cb block) world).2) {k : ℕ}
    (hk : k < obj.size) (hcome : k ∈ w.taken) (hnew : k ∉ w.validated ++ w.awaiting) :
    Safe obj E world limit { w with validated := w.validated ++ [k] }
      (exec (Consumer.onValidationSuccess cb (obj.packet k)) t).2 := by
  rw [List.mem_append, not_or] at hnew
  obtain ⟨hpipeline, hconsumer, hfinishes, hworld⟩ := onValidationSuccess_spec cb
    (SegmentedObject.getSegmentFromPacket_packet hk) (obj.regular k hk) t
  obtain ⟨hwrote, -⟩ := h.received.wrote.pass hnew.1
    { validated := w.validated ++ [k] } rfl { t.consumer with validating := [] } rfl
  have hreceived : Received obj { w with validated := w.validated ++ [k] }
      (written t.consumer (obj.packet k) k) := by
    refine ⟨hwrote, h.received.validating, ?_, ?_, ?_⟩
    · intro j hj
      rcases List.mem_append.mp hj with hj | hj
      · exact h.received.lt j hj
      · exact List.mem_singleton.mp hj ▸ hk
    · have hperm : ((w.validated ++ [k]) ++ w.awaiting).Perm (k :: (w.validated ++ w.awaiting)) := by
        rw [List.append_assoc]
        exact List.perm_middle
      rw [hperm.nodup_iff, List.nodup_cons, List.mem_append, not_or]
      exact ⟨hnew, h.received.nodup⟩
    · intro j hj
      rcases List.mem_append.mp hj with hj | hj
      · rcases List.mem_append.mp hj with hj | hj
        · exact h.received.taken j (List.mem_append_left _ hj)
        · exact List.mem_singleton.mp hj ▸ hcome
      · exact h.received.taken j (List.mem_append_right _ hj)
  refine ⟨hpipeline ▸ h.flow, hpipeline ▸ h.next_le, hconsumer ▸ hreceived, ?_⟩
  rcases h.told with ⟨hnone, hsame⟩ | ⟨-, -, hall⟩
  · rw [hnone, List.nil_append] at hfinishes
    rw [hsame] at hworld
    have houtput : (written t.consumer (obj.packet k) k).outputBuffer =
        (List.range (written t.consumer (obj.packet k) k).nextToPrint).flatMap obj.content :=
      hwrote.output
    by_cases hcalled : t.pipeline.allSegmentsReceived = true ∧
        (readBlock (written t.consumer (obj.packet k) k).outputBuffer).isSome = true
    · -- an element is there only once all segments are
      have hnext := hframe.first _ hreceived.next_le (houtput ▸ hcalled.2)
      have hcontents : (written t.consumer (obj.packet k) k).outputBuffer = obj.contents := by
        rw [houtput, hnext]
        rfl
      have hcall : called t.pipeline (written t.consumer (obj.packet k) k) =
          [(obj.size, obj.contents)] := by rw [called, if_pos hcalled, hnext, hcontents]
      rw [hcall] at hfinishes hworld
      refine .inr ⟨hfinishes, ?_, fun j hj => hwrote.holds.left j ?_⟩
      · rw [hworld, callAll, List.foldl_cons, List.foldl_nil, hframe.whole]
        exact hcb
      · exact hnext.symm ▸ hj
    · have hcall : called t.pipeline (written t.consumer (obj.packet k) k) = [] := if_neg hcalled
      rw [hcall] at hfinishes hworld
      exact .inl ⟨hfinishes, hworld⟩
  · exact absurd (hall k hk) hnew.1

/-! ## Events -/

/-- The validator keeps a segment that has come. -/
theorem Safe.keep (h : Safe obj E world limit w t) {p : Packet} {k : ℕ}
    (hname : p.name = obj.name ++ [fromSegment k]) (hcome : k ∈ w.taken)
    (hnew : k ∉ w.validated ++ w.awaiting) :
    Safe obj E world limit { w with awaiting := w.awaiting ++ [k] }
      (t.onConsumer fun c => { c with validating := c.validating ++ [p] }) := by
  have hperm : (w.validated ++ (w.awaiting ++ [k])).Perm (k :: (w.validated ++ w.awaiting)) := by
    rw [← List.append_assoc]
    exact List.perm_append_singleton k _
  refine ⟨h.flow, h.next_le, ⟨h.received.wrote, ?_, h.received.lt, ?_, ?_⟩, h.told⟩
  · simp [Transfer.onConsumer, h.received.validating, hname]
  · exact hperm.nodup_iff.mpr (List.nodup_cons.mpr ⟨hnew, h.received.nodup⟩)
  · intro j hj
    rcases List.mem_cons.mp (hperm.subset hj) with rfl | hj
    · exact hcome
    · exact h.received.taken j hj

/-- A segment that the validator has kept leaves it. -/
theorem Safe.leave (h : Safe obj E world limit w t) {i : ℕ} {p : Packet}
    (hi : t.consumer.validating[i]? = some p) :
    ∃ k, p.name = obj.name ++ [fromSegment k] ∧ k ∈ w.taken ∧ k < limit ∧
      k ∉ w.validated ++ w.awaiting.eraseIdx i ∧
      Safe obj E world limit { w with awaiting := w.awaiting.eraseIdx i }
        (t.onConsumer fun c => { c with validating := c.validating.eraseIdx i }) := by
  have hnames := congrArg (·[i]?) h.received.validating
  simp only [List.getElem?_map, hi, Option.map_some] at hnames
  obtain ⟨k, hk, hname⟩ := Option.map_eq_some_iff.mp hnames.symm
  have hmem : k ∈ w.awaiting := List.mem_of_getElem? hk
  have hcome : k ∈ w.taken := h.received.taken k (List.mem_append_right _ hmem)
  obtain ⟨hvalidated, hawaiting, hdisjoint⟩ := List.nodup_append'.mp h.received.nodup
  have hsub : (w.awaiting.eraseIdx i).Sublist w.awaiting := List.eraseIdx_sublist ..
  have hleft : k ∉ w.awaiting.eraseIdx i := by
    obtain ⟨hlt, hget⟩ := List.getElem?_eq_some_iff.mp hk
    rw [List.mem_eraseIdx_iff_getElem]
    rintro ⟨j, hj, hne, heq⟩
    exact hne (hawaiting.getElem_inj_iff.mp (heq.trans hget.symm))
  refine ⟨k, hname.symm, hcome, (h.flow.come k hcome).trans_le h.next_le, ?_, h.flow, h.next_le,
    ⟨h.received.wrote, ?_, h.received.lt, ?_, ?_⟩, h.told⟩
  · rw [List.mem_append, not_or]
    exact ⟨fun hin => hdisjoint hin hmem, hleft⟩
  · simp only [Transfer.onConsumer, ← List.eraseIdx_map, h.received.validating]
  · exact h.received.nodup.sublist ((List.Sublist.refl _).append hsub)
  · exact fun j hj => h.received.taken j (((List.Sublist.refl _).append hsub).subset hj)

/-- What the consumer makes of a segment that has come. -/
theorem Safe.consume (h : Safe obj E world limit w t) (hframe : Framed obj block)
    (hcb : E (exec (cb block) world).2)
    (hlimit : limit ≤ 2 ^ 64) {p : Packet} {k : ℕ} (hname : p.name = obj.name ++ [fromSegment k])
    (hcome : k ∈ w.taken) (hnew : k ∉ w.validated ++ w.awaiting) {v : Verdict}
    (hv : v = .valid → Vouched obj p) :
    ∃ w', Safe obj E world limit w' (exec (Consumer.handleData cb p v) t).2 := by
  cases v with
  | valid =>
      have hlt : k < 2 ^ 64 := ((h.flow.come k hcome).trans_le h.next_le).trans_le hlimit
      obtain ⟨hk, rfl⟩ := (hv rfl).packet hlt hname
      exact ⟨_, h.pass hframe hcb hk hcome hnew⟩
  | invalid info => exact ⟨w, h⟩
  | later => exact ⟨_, h.keep hname hcome hnew⟩

theorem Safe.verdict (h : Safe obj E world limit w t) (hframe : Framed obj block)
    (hcb : E (exec (cb block) world).2)
    (hlimit : limit ≤ 2 ^ 64) {i : ℕ} {refused : Option String}
    (hv : refused = none → ∀ p ∈ t.consumer.validating[i]?, Vouched obj p) :
    ∃ w', Safe obj E world limit w' (exec (Consumer.verdict cb i refused) t).2 := by
  rcases verdict_cases cb i refused t with ⟨-, ht⟩ | ⟨p, hi, hcases⟩
  · rw [ht]
    exact ⟨w, h⟩
  · obtain ⟨k, hname, hcome, hlt, hnew, hleft⟩ := h.leave hi
    rcases hcases with ⟨hpass, ht⟩ | ⟨-, ht⟩
    · rw [ht]
      obtain ⟨hk, rfl⟩ := (hv hpass p hi).packet (hlt.trans_le hlimit) hname
      exact ⟨_, hleft.pass hframe hcb hk hcome hnew⟩
    · rw [ht]
      exact ⟨_, hleft⟩

/-- The fetcher of a segment that comes stops. -/
theorem Safe.take (h : Safe obj E world limit w t) {pipeNo : ℕ} {f : DataFetcher} {k : ℕ}
    (hf : Has t.pipeline pipeNo f k) (hrun : f.isRunning = true) :
    Safe obj E world limit { w with taken := k :: w.taken } (stopped t pipeNo f k) := by
  refine ⟨h.flow.take hf hrun ?_ ?_, h.next_le, ⟨h.received.wrote, h.received.validating,
    h.received.lt, h.received.nodup, ?_⟩, h.told⟩
  · rfl
  · rfl
  · exact fun j hj => List.mem_cons_of_mem k (h.received.taken j hj)

/-- Data comes for a fetcher. -/
theorem Safe.handleData (h : Safe obj E world limit w t) (hframe : Framed obj block)
    (hcb : E (exec (cb block) world).2)
    (hlimit : limit ≤ 2 ^ 64) (options : Options) {pipeNo : ℕ} {f : DataFetcher} {k : ℕ}
    (hf : DataFetcher.running t pipeNo = some (f, k)) {p : Packet}
    (hname : p.name = obj.name ++ [fromSegment k]) {v : Verdict}
    (hv : v = .valid → Vouched obj p) :
    ∃ w', Safe obj E world (limit + 1) w'
      (exec (DataFetcher.handleData options cb pipeNo p v) t).2 := by
  obtain ⟨hhas, hrun⟩ := has_of_running hf
  have hfresh : k ∉ w.taken := h.flow.fresh pipeNo f k hhas hrun
  let w' : Tally := { w with taken := k :: w.taken }
  have hnew : k ∉ w'.validated ++ w'.awaiting := fun hin => hfresh (h.received.taken k hin)
  have htaken : Safe obj E world limit w' (stopped t pipeNo f k) := h.take hhas hrun
  rcases data_cases options cb hf p v with hs | ⟨learned, hs, -, hcases⟩
  · exact ⟨w', (htaken.aside (.settles hs)).mono (Nat.le_succ limit)⟩
  · have hcounted : Aside learned (learned.onPipeline fun p => { p with nReceived := p.nReceived + 1 }) :=
      Aside.onPipeline learned _ (.of_fetchers rfl rfl rfl)
    obtain ⟨w'', hgot⟩ := ((htaken.aside (.settles hs)).aside hcounted).consume hframe hcb hlimit hname
      List.mem_cons_self hnew hv
    rcases hcases with ht | ⟨-, ht⟩
    · rw [ht]
      exact ⟨w'', hgot.mono (Nat.le_succ limit)⟩
    · rw [ht]
      exact ⟨w'', hgot.fetch options pipeNo⟩

/-- One event, with which the validator passes only segments of the object. -/
theorem Safe.handle (h : Safe obj E world limit w t) (hframe : Framed obj block)
    (hcb : E (exec (cb block) world).2)
    (hlimit : limit ≤ 2 ^ 64) (options : Options) (e : SegmentPipeline.Event)
    (hv : ∀ p ∈ passed t e, Vouched obj p) :
    ∃ w', Safe obj E world (limit + 1) w' (exec (e.handle options cb) t).2 := by
  have haside : ∀ t', Aside t t' → ∃ w', Safe obj E world (limit + 1) w' t' :=
    fun t' ha => ⟨w, (h.aside ha).mono (Nat.le_succ limit)⟩
  refine handle_rule (J := fun t' => ∃ w', Safe obj E world (limit + 1) w' t') options cb e
    (haside t (.refl t)) ?_ ?_ ?_
  · exact fun pipeNo f k t' _ hf ht => haside t' (.tended hf ht)
  · rintro p v rfl
    have hvouched : v = .valid → Vouched obj p := by
      rintro rfl
      exact hv p (List.mem_singleton_self p)
    rcases waiting_cases h.flow (h.next_le.trans hlimit) p.name with
      hnone | ⟨pipeNo, f, k, hone, hf, hname⟩
    · rw [hnone]
      exact haside t (.refl t)
    · rw [hone, exec_foldlM_one]
      exact h.handleData hframe hcb hlimit options hf hname hvouched
  · rintro i refused rfl
    have hvouched : refused = none → ∀ p ∈ t.consumer.validating[i]?, Vouched obj p := by
      rintro rfl p hp
      exact hv p (by simp [passed, Option.mem_def.mp hp])
    obtain ⟨w', hw'⟩ := h.verdict hframe hcb hlimit hvouched
    exact ⟨w', hw'.mono (Nat.le_succ limit)⟩

/-! ## Runs -/

section
variable (options : Options) (cb : Block → Program PacketError ω Unit)

def step (t : Transfer ω) (e : SegmentPipeline.Event) : Transfer ω := (exec (e.handle options cb) t).2

/-- A fresh consumer runs on a fresh pipeline. -/
def begin (name : Name) (world : ω) : Transfer ω :=
  (exec (Consumer.run options name) { pipeline := .new options, world := world }).2

def runOf (name : Name) (world : ω) (events : List SegmentPipeline.Event) : Transfer ω :=
  events.foldl (step options cb) (begin options name world)

end

theorem Safe.doRunFrom (options : Options) (h : Safe obj E world limit w t)
    (pipes pipeNo : ℕ) : Safe obj E world (limit + pipes) w
      (exec (PipelineInterestsFixed.doRunFrom options pipes pipeNo) t).2 := by
  induction pipes generalizing t limit pipeNo with
  | zero => exact h
  | succ pipes ih =>
      have hfetch := h.fetch options pipeNo
      rw [PipelineInterestsFixed.doRunFrom, exec_bind]
      rcases hrun : exec (PipelineInterestsFixed.fetchNextSegment options pipeNo) t with
        ⟨_ | more, t'⟩
      · rw [hrun] at hfetch
        exact hfetch.mono (by omega)
      · rw [hrun] at hfetch
        cases more with
        | false => exact hfetch.mono (by omega)
        | true => exact (ih hfetch (pipeNo + 1)).mono (by omega)

theorem safe_start (options : Options) (world : ω) : Safe obj E world 0 {} {
    pipeline := { PipelineInterestsFixed.new options with versionedName := obj.name }
    world := world } := by
  have hnone := not_has_new options
  have hflow : Flow obj.name [] { PipelineInterestsFixed.new options with versionedName := obj.name } :=
    ⟨rfl, fun i f k h => absurd h (hnone i f k), fun i f k h => absurd h (hnone i f k),
      fun i _ f _ k h => absurd h (hnone i f k), fun i f k h => absurd h (hnone i f k), by simp,
      List.nodup_nil⟩
  have hwrote : Wrote obj {} ({} : Consumer) := by
    refine ⟨rfl, ?_, rfl⟩
    have hempty : {k | k ∈ ({} : Progress).validated} = (∅ : Set ℕ) := by
      ext k
      simp
    rw [hempty]
    exact holds_empty obj.packet
  exact ⟨hflow, le_rfl, ⟨hwrote, rfl, by simp, by simp, by simp⟩, .inl ⟨rfl, rfl⟩⟩

theorem safe_begin (options : Options) (world : ω) :
    Safe obj E world options.maxPipelineSize {} (begin options obj.name world) := by
  have hstart : Safe obj E world 0 {} {
      pipeline := { PipelineInterestsFixed.new options with versionedName := obj.name }
      world := world } := safe_start options world
  have hrun := hstart.doRunFrom options options.maxPipelineSize 0
  rw [Nat.zero_add] at hrun
  rw [begin, Consumer.run, exec_bind_ok (exec_modify _ _)]
  exact hrun

theorem Safe.run (h : Safe obj E world limit w t) (hframe : Framed obj block)
    (hcb : E (exec (cb block) world).2)
    (options : Options) {events : List SegmentPipeline.Event} (hlimit : limit + events.length ≤ 2 ^ 64)
    (hv : Throughout (step options cb) (fun t e => ∀ p ∈ passed t e, Vouched obj p) t events) :
    ∃ w', Safe obj E world (limit + events.length) w' (events.foldl (step options cb) t) := by
  induction events generalizing t limit w with
  | nil => exact ⟨w, h⟩
  | cons e events ih =>
      rw [List.length_cons] at hlimit ⊢
      obtain ⟨w', hw'⟩ := h.handle hframe hcb (by omega) options e hv.1
      obtain ⟨w'', hw''⟩ := ih hw' (by omega) hv.2
      exact ⟨w'', hw''.mono (by omega)⟩

/-! ## Objects that a producer has cut -/

section
variable {producer : SegmentProducer.Options} {versionedPrefix : Name}

/-- The wire of a block begins with no shorter element. -/
theorem framed_ofBlock (hs : 1 ≤ producer.maxSegmentSize) (hb : block.wire.length < 2 ^ 31) :
    Framed (ofBlock producer versionedPrefix hb) block := by
  have hcontents : (ofBlock producer versionedPrefix hb).contents = block.wire :=
    contents_ofBlock producer hs hb
  constructor
  · have hread := readBlock_wire block []
    rwa [List.append_nil, ← hcontents] at hread
  · intro m hm hsome
    obtain ⟨⟨c, rest⟩, hread⟩ := Option.isSome_iff_exists.mp hsome
    have hwritten : (List.range m).flatMap (ofBlock producer versionedPrefix hb).content =
        block.wire.take (m * producer.maxSegmentSize) := flatMap_chunk _ _ m
    rw [hwritten] at hread
    have hwhole := readBlock_prefix_wire (by omega) (List.take_prefix _ _) hread
    have hlength := congrArg List.length hwhole
    rw [List.length_take] at hlength
    by_contra hne
    have hlt : m < SegmentProducer.segments producer.maxSegmentSize block := lt_of_le_of_ne hm hne
    have := SegmentProducer.mul_size_lt hs hlt
    omega

/-- The segments of the object are those that the producer has stored. -/
theorem vouched_ofBlock (hs : 1 ≤ producer.maxSegmentSize) (hs' : producer.maxSegmentSize < 2 ^ 31)
    (hb : block.wire.length < 2 ^ 31) {p : Packet}
    (hp : p.name.dropLast = versionedPrefix →
      p ∈ SegmentProducer.populateStore producer versionedPrefix block) :
    Vouched (ofBlock producer versionedPrefix hb) p := by
  intro hname
  have hmem := hp hname
  rw [SegmentProducer.populateStore_eq versionedPrefix hs hs' hb] at hmem
  obtain ⟨k, hk, rfl⟩ := List.mem_map.mp hmem
  exact ⟨k, List.mem_range.mp hk, rfl⟩

theorem length_store (hs : 1 ≤ producer.maxSegmentSize) (hs' : producer.maxSegmentSize < 2 ^ 31)
    (hb : block.wire.length < 2 ^ 31) :
    (SegmentProducer.populateStore producer versionedPrefix block).length =
      (ofBlock producer versionedPrefix hb).size := by
  rw [SegmentProducer.populateStore_eq versionedPrefix hs hs' hb, List.length_map, List.length_range]
  rfl

/-- Whatever the size of the segments, the number of pipes and the retries, and whatever is
lost, delayed, repeated or forged: where the validator passes, under the name of an object,
only segments of the producer, the finish callback is called once at most, and with the
block that the producer has cut. -/
theorem finishes_once (producer : SegmentProducer.Options) (versionedPrefix : Name) (block : Block)
    (options : Options) (cb : Block → Program PacketError ω Unit) (world : ω)
    (events : List SegmentPipeline.Event) (hs : 1 ≤ producer.maxSegmentSize)
    (hs' : producer.maxSegmentSize < 2 ^ 31) (hb : block.wire.length < 2 ^ 31)
    (hlength : options.maxPipelineSize + events.length ≤ 2 ^ 64)
    (hv : Throughout (step options cb) (fun t e => ∀ p ∈ passed t e,
      p.name.dropLast = versionedPrefix →
        p ∈ SegmentProducer.populateStore producer versionedPrefix block)
      (begin options versionedPrefix world) events) :
    let t := runOf options cb versionedPrefix world events
    let n := (SegmentProducer.populateStore producer versionedPrefix block).length
    (finishes t.trace = [] ∧ t.world = world) ∨
      finishes t.trace = [(n, block.wire)] ∧ t.world = (exec (cb block) world).2 := by
  intro t n
  have hframe : Framed (ofBlock producer versionedPrefix hb) block := framed_ofBlock hs hb
  have hvouched := hv.mono fun t e h p hp => vouched_ofBlock hs hs' hb (h p hp)
  have hbegin : Safe (ofBlock producer versionedPrefix hb) (· = (exec (cb block) world).2) world
      options.maxPipelineSize {} (begin options versionedPrefix world) := safe_begin options world
  obtain ⟨w, hsafe⟩ := hbegin.run hframe rfl options hlength hvouched
  rcases hsafe.told with hnone | ⟨hone, hworld, -⟩
  · exact .inl hnone
  · rw [contents_ofBlock producer hs hb, ← length_store hs hs' hb] at hone
    exact .inr ⟨hone, hworld⟩

end
end

/-! ## Three segments on two pipes -/

/-- A segment of a block of five octets. -/
def shortSegment (k : ℕ) (content : Buffer) : Packet := SegmentProducer.segment [] 3 content k

/-- The first segment is lost once, the second comes twice, and the verdict on it is the
last event. -/
def lossy : List SegmentPipeline.Event :=
  [.timeout 0, .data (shortSegment 0 [8, 3]) .valid, .data (shortSegment 1 [1, 2]) .later,
    .data (shortSegment 1 [1, 2]) .later, .data (shortSegment 2 [3]) .valid, .verdict 0 none]

theorem finishes_once_lossy :
    (runOf { maxPipelineSize := 2 } keep [] [] lossy).world = [shortBlock] := by
  have hcalled : finishes (runOf { maxPipelineSize := 2 } keep [] [] lossy).trace ≠ [] := by decide
  rcases finishes_once { maxSegmentSize := 2 } [] shortBlock { maxPipelineSize := 2 } keep [] lossy
    (by decide) (by decide) (by decide) (by decide) (by decide) with ⟨hnone, -⟩ | ⟨-, hworld⟩
  · exact absurd hnone hcalled
  · exact hworld

end CertLedger.PipelineRuns
