import CertLedger.EventRuns
import CertLedger.SegmentPipeline
import CertLedger.SegmentProducer

/-!
# The runs of a transfer

The consumer calls back when the pipeline has received all segments, while the
validator may still hold some. What it writes is the longest run of validated
segments from zero.
-/
namespace CertLedger.SegmentRuns
open TlvCodec FallibleState NdnObjects NdnPackets Reassembly EventRuns SegmentPipeline

/-! ## Objects -/

/-- A segmented object. -/
structure SegmentedObject where
  name : Name
  size : ℕ
  packet : ℕ → Packet
  size_pos : 0 < size
  size_le : size ≤ 2 ^ 64
  named : ∀ k < size, (packet k).name = name ++ [fromSegment k]
  regular : ∀ k < size, (packet k).contentType ≠ contentTypeNack
  final : ∀ k < size, ∀ c, (packet k).finalBlock = some c → c = fromSegment (size - 1)

namespace SegmentedObject
variable (obj : SegmentedObject)

def content (k : ℕ) : Buffer := (obj.packet k).content.value

def contents : Buffer := (List.range obj.size).flatMap obj.content

/-- The contents of the segments before the first that is not in a list. -/
def inOrder (validated : List ℕ) : Buffer :=
  ((List.range obj.size).takeWhile (· ∈ validated)).flatMap obj.content

variable {obj}

theorem getSegmentFromPacket_packet {k : ℕ} (hk : k < obj.size) :
    getSegmentFromPacket (obj.packet k) = .ok k := by
  rw [getSegmentFromPacket, obj.named k hk, getLast_append_one]
  exact toSegment_fromSegment (lt_of_lt_of_le hk obj.size_le)

theorem toSegment_final {k : ℕ} (hk : k < obj.size) {c : Block}
    (hc : (obj.packet k).finalBlock = some c) : toSegment c = .ok (obj.size - 1) := by
  have hpos := obj.size_pos
  have hle := obj.size_le
  rw [obj.final k hk c hc]
  exact toSegment_fromSegment (by omega)

end SegmentedObject

/-- The longest run of keys with a property. -/
theorem takeWhile_range {p : ℕ → Bool} {m n : ℕ} (hm : m ≤ n) (hp : ∀ k < m, p k = true)
    (hstop : m < n → p m = false) : (List.range n).takeWhile p = List.range m := by
  obtain ⟨d, rfl⟩ := Nat.exists_eq_add_of_le hm
  rw [List.range_add, List.takeWhile_append_of_pos fun k hk => hp k (List.mem_range.mp hk)]
  cases d with
  | zero => simp
  | succ d =>
      have hfirst := hstop (by omega)
      rw [List.range_succ_eq_map]
      simp [hfirst]

/-- Distinct numbers below `n` are `n` at most, and then they are all. -/
theorem length_le_of_nodup {l : List ℕ} {n : ℕ} (hl : l.Nodup) (hlt : ∀ k ∈ l, k < n) :
    l.length ≤ n ∧ (l.length = n ↔ ∀ k < n, k ∈ l) := by
  have hsub : l.Subperm (List.range n) :=
    List.subperm_of_subset hl fun k hk => List.mem_range.mpr (hlt k hk)
  have hle := hsub.length_le
  rw [List.length_range] at hle
  refine ⟨hle, ?_, ?_⟩
  · intro heq k hk
    have hperm := hsub.perm_of_length_le (by rw [List.length_range, heq])
    exact hperm.symm.subset (List.mem_range.mpr hk)
  · intro hall
    have hge := (List.subperm_of_subset List.nodup_range fun k hk =>
      hall k (List.mem_range.mp hk)).length_le
    rw [List.length_range] at hge
    omega

/-! ## Calls of the finish callback -/

def finishes (trace : List Action) : List (ℕ × Buffer) :=
  trace.filterMap fun
    | .finish nextToPrint outputBuffer => some (nextToPrint, outputBuffer)
    | _ => none

theorem finishes_append (trace new : List Action) :
    finishes (trace ++ new) = finishes trace ++ finishes new := List.filterMap_append

/-! ## Pipelines without failures -/

/-- Nothing has failed. -/
structure Calm (p : PipelineInterestsFixed) : Prop where
  isStopping : p.isStopping = false
  hasFailure : p.hasFailure = false
  hasError : ∀ entry ∈ p.segmentFetchers, ∀ f ∈ entry, f.1.hasError = false

theorem Calm.setFetcher {p : PipelineInterestsFixed} (h : Calm p) (pipeNo : ℕ) (i : Interest)
    (segmentNo : ℕ) : Calm (p.setFetcher pipeNo { interest := i } segmentNo) where
  isStopping := h.isStopping
  hasFailure := h.hasFailure
  hasError entry he f hf := by
    rcases List.mem_or_eq_of_mem_set he with he | rfl
    · exact h.hasError entry he f hf
    · obtain rfl := Option.mem_some.mp hf
      rfl

theorem Calm.named {p : PipelineInterestsFixed} (h : Calm p) (name : Name) :
    Calm { p with versionedName := name } := ⟨h.isStopping, h.hasFailure, h.hasError⟩

theorem Calm.cancelAfter {p : PipelineInterestsFixed} (h : Calm p) (segmentNo : ℕ) :
    Calm (p.cancelAfter segmentNo) where
  isStopping := h.isStopping
  hasFailure := h.hasFailure
  hasError entry he f hf := by
    obtain ⟨entry', he', rfl⟩ := List.mem_map.mp he
    obtain ⟨f', hf', rfl⟩ := Option.map_eq_some_iff.mp hf
    have hsame := h.hasError entry' he' f' hf'
    split_ifs
    · simp only [DataFetcher.cancel]
      split_ifs <;> exact hsame
    · exact hsame

theorem calm_new (options : Options) : Calm (.new options) where
  isStopping := rfl
  hasFailure := rfl
  hasError entry he f hf := by
    rw [List.eq_of_mem_replicate he] at hf
    simp at hf

section
variable {ω : Type}

/-- What asking for a segment leaves alone, where nothing has failed. -/
structure Quiet (t t' : Transfer ω) : Prop where
  calm : Calm t'.pipeline
  consumer : t'.consumer = t.consumer
  world : t'.world = t.world
  nReceived : t'.pipeline.nReceived = t.pipeline.nReceived
  hasFinalBlockId : t'.pipeline.hasFinalBlockId = t.pipeline.hasFinalBlockId
  lastSegmentNo : t'.pipeline.lastSegmentNo = t.pipeline.lastSegmentNo
  finishes : finishes t'.trace = finishes t.trace

theorem Quiet.refl {t : Transfer ω} (h : Calm t.pipeline) : Quiet t t :=
  ⟨h, rfl, rfl, rfl, rfl, rfl, rfl⟩

theorem Quiet.trans {t t' t'' : Transfer ω} (h : Quiet t t') (h' : Quiet t' t'') : Quiet t t'' :=
  ⟨h'.calm, h'.consumer.trans h.consumer, h'.world.trans h.world, h'.nReceived.trans h.nReceived,
    h'.hasFinalBlockId.trans h.hasFinalBlockId, h'.lastSegmentNo.trans h.lastSegmentNo,
    h'.finishes.trans h.finishes⟩

variable (options : Options)

theorem quiet_fetchNextSegment {t : Transfer ω} (h : Calm t.pipeline) (pipeNo : ℕ) :
    Quiet t (exec (PipelineInterestsFixed.fetchNextSegment options pipeNo) t).2 := by
  rw [PipelineInterestsFixed.fetchNextSegment, exec_bind_ok (exec_get t)]
  simp only [h.isStopping, h.hasFailure, Bool.false_eq_true, if_false]
  rw [exec_bind_ok (exec_set _ t)]
  have hcalm : Calm { t.pipeline with nextSegmentNo := t.pipeline.nextSegmentNo + 1 } :=
    ⟨h.isStopping, h.hasFailure, h.hasError⟩
  split_ifs
  · exact ⟨hcalm, rfl, rfl, rfl, rfl, rfl, rfl⟩
  · cases hi : Interest.ofName (t.pipeline.versionedName ++ [fromSegment t.pipeline.nextSegmentNo]) with
    | none => exact ⟨hcalm, rfl, rfl, rfl, rfl, rfl, rfl⟩
    | some i =>
        rw [exec_bind_ok (exec_ofOption_some i _), exec_bind_ok (exec_modify _ _)]
        refine ⟨?_, rfl, rfl, rfl, rfl, rfl, ?_⟩
        · exact hcalm.setFetcher pipeNo { i with mustBeFresh := options.mustBeFresh } _
        · exact (finishes_append t.trace _).trans (List.append_nil _)

theorem quiet_doRunFrom (pipes pipeNo : ℕ) {t : Transfer ω} (h : Calm t.pipeline) :
    Quiet t (exec (PipelineInterestsFixed.doRunFrom options pipes pipeNo) t).2 := by
  induction pipes generalizing pipeNo t with
  | zero => exact Quiet.refl h
  | succ pipes ih =>
      have hfetch := quiet_fetchNextSegment options h pipeNo
      rw [PipelineInterestsFixed.doRunFrom, exec_bind]
      rcases hx : exec (PipelineInterestsFixed.fetchNextSegment options pipeNo) t with ⟨e | more, t'⟩
      · rw [hx] at hfetch
        exact hfetch
      · rw [hx] at hfetch
        cases more with
        | false => exact hfetch
        | true => exact hfetch.trans (ih (pipeNo + 1) hfetch.calm)

/-- What a packet tells about the last segment. -/
theorem exec_learnFinalBlock {t : Transfer ω} (h : Calm t.pipeline) {data : Packet} {last : ℕ}
    (hdata : ∀ c, data.finalBlock = some c → toSegment c = .ok last)
    (hlast : t.pipeline.hasFinalBlockId = true → t.pipeline.lastSegmentNo = last) :
    ∃ p, exec (PipelineInterestsFixed.learnFinalBlock data) t = (.ok true, { t with pipeline := p }) ∧
      Calm p ∧ p.nReceived = t.pipeline.nReceived ∧
      (p.hasFinalBlockId = true ↔
        t.pipeline.hasFinalBlockId = true ∨ data.finalBlock.isSome = true) ∧
      (p.hasFinalBlockId = true → p.lastSegmentNo = last) := by
  rw [PipelineInterestsFixed.learnFinalBlock, exec_bind_ok (exec_get t)]
  cases hf : data.finalBlock with
  | none => exact ⟨t.pipeline, rfl, h, rfl, by simp, hlast⟩
  | some c =>
      by_cases hknown : t.pipeline.hasFinalBlockId = true
      · refine ⟨t.pipeline, ?_, h, rfl, by simp [hknown], hlast⟩
        simp only [hknown, if_true]
        rfl
      · have hnone : t.pipeline.segmentFetchers.findSome? (fun entry => entry.bind fun f =>
            if f.2 ≤ last ∧ f.1.hasError then some f.2 else none) = none := by
          apply List.findSome?_eq_none_iff.mpr
          intro entry he
          cases entry with
          | none => rfl
          | some f =>
              have hno := h.hasError _ he f rfl
              simp [hno]
        let p : PipelineInterestsFixed :=
          { t.pipeline with hasFinalBlockId := true, lastSegmentNo := last }
        have hp : Calm p := ⟨h.isStopping, h.hasFailure, h.hasError⟩
        refine ⟨p.cancelAfter last, ?_, hp.cancelAfter last, rfl, ?_, fun _ => rfl⟩
        · simp only [hknown, hdata c hf, Bool.false_eq_true, if_false]
          rw [exec_bind_ok (exec_ofExcept_ok last t), exec_bind_ok (exec_modify _ t), hnone]
          rfl
        · exact iff_of_true rfl (.inr rfl)

variable (finishCb : Block → Program PacketError ω Unit)

/-- The consumer once a segment has been validated. -/
def written (c : Consumer) (data : Packet) (k : ℕ) : Consumer :=
  let r := release c.nextToPrint (assign k data c.bufferedData)
  { c with
    outputBuffer := c.outputBuffer ++ r.1.flatMap (·.content.value)
    nextToPrint := r.2.1
    bufferedData := r.2.2 }

/-- The call of the finish callback that a validated segment leads to. -/
def called (p : PipelineInterestsFixed) (c : Consumer) : List (ℕ × Buffer) :=
  if p.allSegmentsReceived ∧ (readBlock c.outputBuffer).isSome then
    [(c.nextToPrint, c.outputBuffer)]
  else []

/-- What the calls of the finish callback make of the world. -/
def callAll (world : ω) (calls : List (ℕ × Buffer)) : ω :=
  calls.foldl (fun world call =>
    match readBlock call.2 with
    | some r => (exec (finishCb r.1) world).2
    | none => world) world

theorem finishes_calls (calls : List (ℕ × Buffer)) :
    finishes (calls.map fun call => .finish call.1 call.2) = calls := by
  induction calls with
  | nil => rfl
  | cons call calls ih => exact congrArg (call :: ·) ih

/-- What the consumer does with a segment that the validator passes. -/
theorem exec_onValidationSuccess {data : Packet} {k : ℕ} (hk : getSegmentFromPacket data = .ok k)
    (hr : data.contentType ≠ contentTypeNack) (t : Transfer ω) :
    let calls := called t.pipeline (written t.consumer data k)
    (exec (Consumer.onValidationSuccess finishCb data) t).2 = { t with
      consumer := written t.consumer data k
      world := callAll finishCb t.world calls
      trace := t.trace ++ calls.map fun call => .finish call.1 call.2 } := by
  intro calls
  let c := written t.consumer data k
  have hrun : exec (Consumer.onValidationSuccess finishCb data) t = exec (do
      if t.pipeline.allSegmentsReceived then
        let block ← ofExcept (blockOfBuffer c.outputBuffer)
        modify fun t => t.act (.finish c.nextToPrint c.outputBuffer)
        Transfer.onWorld (finishCb block)
      else return ()) { t with consumer := c } := by
    rw [Consumer.onValidationSuccess, if_neg hr, hk, exec_bind_ok (exec_ofExcept_ok k t),
      exec_bind_ok (exec_modify _ t), Consumer.writeInOrderData, exec_bind_ok (exec_get _)]
    rfl
  have hnothing : calls = [] → ({ t with consumer := c } : Transfer ω) = { t with
      consumer := c
      world := callAll finishCb t.world calls
      trace := t.trace ++ calls.map fun call => .finish call.1 call.2 } := by
    intro hnone
    rw [hnone, List.map_nil, List.append_nil]
    rfl
  rw [hrun]
  by_cases hall : t.pipeline.allSegmentsReceived = true
  · rw [if_pos hall]
    cases hb : readBlock c.outputBuffer with
    | none =>
        have hnot : calls = [] := by simp [calls, c, called, hb]
        have herr : blockOfBuffer c.outputBuffer = .error .tlv := by rw [blockOfBuffer, hb]
        rw [herr]
        exact hnothing hnot
    | some r =>
        have hyes : calls = [(c.nextToPrint, c.outputBuffer)] := by
          simp [calls, c, called, hall, hb]
        have hok : blockOfBuffer c.outputBuffer = .ok r.1 := by rw [blockOfBuffer, hb]
        rw [hok, exec_bind_ok (exec_ofExcept_ok _ _), exec_bind_ok (exec_modify _ _), hyes, callAll,
          List.foldl_cons, List.foldl_nil, hb]
        rfl
  · rw [if_neg hall]
    have hnot : calls = [] := by simp [calls, called, hall]
    exact hnothing hnot

theorem onValidationSuccess_spec {data : Packet} {k : ℕ} (hk : getSegmentFromPacket data = .ok k)
    (hr : data.contentType ≠ contentTypeNack) (t : Transfer ω) :
    let t' := (exec (Consumer.onValidationSuccess finishCb data) t).2
    t'.pipeline = t.pipeline ∧ t'.consumer = written t.consumer data k ∧
      finishes t'.trace = finishes t.trace ++ called t.pipeline (written t.consumer data k) ∧
      t'.world = callAll finishCb t.world (called t.pipeline (written t.consumer data k)) := by
  rw [exec_onValidationSuccess finishCb hk hr t]
  refine ⟨rfl, rfl, ?_, rfl⟩
  rw [finishes_append, finishes_calls]

/-- What follows a segment asks for another one at most. -/
theorem quiet_after (x : TransferM ω Unit) (pipeNo : ℕ) (t : Transfer ω)
    (h : Calm (exec x t).2.pipeline) :
    Quiet (exec x t).2 (exec (do
      x
      let t ← get
      if t.pipeline.allSegmentsReceived then return ()
      else let _ ← PipelineInterestsFixed.fetchNextSegment options pipeNo) t).2 := by
  rw [exec_bind]
  rcases hx : exec x t with ⟨_ | _, t'⟩
  · rw [hx] at h
    exact Quiet.refl h
  · rw [hx] at h
    dsimp only
    rw [exec_bind_ok (exec_get t')]
    split_ifs
    · exact Quiet.refl h
    · have hfetch : Quiet t' (exec (PipelineInterestsFixed.fetchNextSegment options pipeNo) t').2 :=
        quiet_fetchNextSegment options h pipeNo
      rw [exec_bind]
      rcases hf : exec (PipelineInterestsFixed.fetchNextSegment options pipeNo) t' with ⟨_ | _, t''⟩
      · rw [hf] at hfetch
        exact hfetch
      · rw [hf] at hfetch
        exact hfetch

end

/-! ## Runs -/

/-- The segments that the validator has passed, and those it has kept. -/
structure Progress where
  validated : List ℕ := []
  awaiting : List ℕ := []

def Progress.received (p : Progress) : List ℕ := p.validated ++ p.awaiting

inductive Event where
  /-- a segment arrives on a pipe, and the validator passes it at once or keeps it -/
  | deliver (k pipeNo : ℕ) (later : Bool)
  /-- the validator passes a segment that it has kept -/
  | pass (k : ℕ)

/-- A transfer with its history. -/
structure Run (ω : Type) where
  progress : Progress := {}
  transfer : Transfer ω

section
variable {ω : Type} (obj : SegmentedObject) (options : Options)
  (finishCb : Block → Program PacketError ω Unit)

/-- Each segment of the object arrives once. -/
def Progress.next (p : Progress) : Event → Progress
  | .deliver k _ later =>
      if k < obj.size ∧ k ∉ p.received then
        if later then { p with awaiting := p.awaiting ++ [k] }
        else { p with validated := p.validated ++ [k] }
      else p
  | .pass k =>
      if k ∈ p.awaiting then
        { validated := p.validated ++ [k], awaiting := p.awaiting.erase k }
      else p

def Progress.handle (p : Progress) : Event → TransferM ω Unit
  | .deliver k pipeNo later =>
      if k < obj.size ∧ k ∉ p.received then
        PipelineInterestsFixed.handleData options finishCb pipeNo (obj.packet k)
          (if later then .later else .valid)
      else return ()
  | .pass k =>
      if k ∈ p.awaiting then Consumer.verdict finishCb (p.awaiting.idxOf k) none else return ()

def perform (r : Run ω) (event : Event) : Run ω where
  progress := r.progress.next obj event
  transfer := (exec (r.progress.handle obj options finishCb event) r.transfer).2

def start (world : ω) : Run ω where
  transfer := (exec (Consumer.run options obj.name) { pipeline := .new options, world := world }).2

/-- The pipeline has received these segments. -/
structure Counted (received : List ℕ) (q : PipelineInterestsFixed) : Prop where
  nodup : received.Nodup
  lt : ∀ k ∈ received, k < obj.size
  calm : Calm q
  nReceived : q.nReceived = received.length
  final : q.hasFinalBlockId = true ↔ ∃ k ∈ received, (obj.packet k).finalBlock.isSome = true
  last : q.hasFinalBlockId = true → q.lastSegmentNo = obj.size - 1

/-- The consumer has got these segments validated, and waits for the others. -/
structure Wrote (p : Progress) (c : Consumer) : Prop where
  validating : c.validating = p.awaiting.map obj.packet
  holds : Holds obj.packet {k | k ∈ p.validated} c.nextToPrint c.bufferedData
  output : c.outputBuffer = (List.range c.nextToPrint).flatMap obj.content

/-- The state of a transfer in terms of its history. -/
structure Tracks (p : Progress) (t : Transfer ω) : Prop where
  counted : Counted obj p.received t.pipeline
  wrote : Wrote obj p t.consumer

/-- The history goes on, and the finish callback is called where the code says so. -/
structure Steps (p : Progress) (t : Transfer ω) (p' : Progress) (t' : Transfer ω) : Prop where
  tracks : Tracks obj p' t'
  le : t.consumer.nextToPrint ≤ t'.consumer.nextToPrint
  finishes : finishes t'.trace = finishes t.trace ++
    if p'.validated = p.validated then [] else called t'.pipeline t'.consumer
  world : t'.world = callAll finishCb t.world
    (if p'.validated = p.validated then [] else called t'.pipeline t'.consumer)

variable {obj options finishCb} {p p' : Progress} {t t' : Transfer ω}

theorem Tracks.quiet (h : Tracks obj p t) (hq : Quiet t t') : Tracks obj p t' := by
  refine ⟨⟨h.counted.nodup, h.counted.lt, hq.calm, ?_, ?_, ?_⟩, hq.consumer ▸ h.wrote⟩
  · exact hq.nReceived.trans h.counted.nReceived
  · rw [hq.hasFinalBlockId]
    exact h.counted.final
  · rw [hq.hasFinalBlockId, hq.lastSegmentNo]
    exact h.counted.last

theorem Counted.perm {l l' : List ℕ} {q : PipelineInterestsFixed} (h : Counted obj l q)
    (hp : l'.Perm l) : Counted obj l' q where
  nodup := hp.nodup_iff.mpr h.nodup
  lt k hk := h.lt k (hp.subset hk)
  calm := h.calm
  nReceived := h.nReceived.trans hp.length_eq.symm
  final := by
    rw [h.final]
    exact ⟨fun ⟨k, hk, hf⟩ => ⟨k, hp.symm.subset hk, hf⟩, fun ⟨k, hk, hf⟩ => ⟨k, hp.subset hk, hf⟩⟩
  last := h.last

/-- One more segment has been looked at and counted. -/
theorem Counted.cons {l : List ℕ} (h : Counted obj l t.pipeline) {k : ℕ} (hk : k < obj.size)
    (hnew : k ∉ l) :
    ∃ q, exec (PipelineInterestsFixed.learnFinalBlock (obj.packet k)) t =
        (.ok true, { t with pipeline := q }) ∧
      Counted obj (k :: l) { q with nReceived := q.nReceived + 1 } := by
  obtain ⟨q, hq, hcalm, hn, hfinal, hlast⟩ := exec_learnFinalBlock h.calm
    (fun c hc => SegmentedObject.toSegment_final hk hc) h.last
  refine ⟨q, hq, List.nodup_cons.mpr ⟨hnew, h.nodup⟩, ?_, ?_, ?_, ?_, hlast⟩
  · intro j hj
    rcases List.mem_cons.mp hj with rfl | hj
    · exact hk
    · exact h.lt j hj
  · exact ⟨hcalm.isStopping, hcalm.hasFailure, hcalm.hasError⟩
  · change q.nReceived + 1 = _
    rw [hn, h.nReceived, List.length_cons]
  · change q.hasFinalBlockId = true ↔ _
    rw [hfinal, h.final, List.exists_mem_cons_iff, or_comm]

/-- The validator passes one more segment. -/
theorem Wrote.pass {c : Consumer} (h : Wrote obj p c) {k : ℕ} (hk : k ∉ p.validated)
    (p' : Progress) (hp : p'.validated = p.validated ++ [k]) (c' : Consumer)
    (hc : c' = { c with validating := p'.awaiting.map obj.packet }) :
    Wrote obj p' (written c' (obj.packet k) k) ∧
      c.nextToPrint ≤ (written c' (obj.packet k) k).nextToPrint := by
  obtain ⟨d, entries, hrelease, hholds⟩ := h.holds.step hk
  have hset : insert k {j | j ∈ p.validated} = {j | j ∈ p'.validated} := by
    ext j
    simp [hp, or_comm]
  rw [hset] at hholds
  have hwritten : written c' (obj.packet k) k = {
      outputBuffer := c.outputBuffer ++
        ((List.range' c.nextToPrint d).map obj.packet).flatMap (·.content.value)
      nextToPrint := c.nextToPrint + d
      bufferedData := entries
      validating := p'.awaiting.map obj.packet } := by
    simp only [hc, written, hrelease]
  have hcontent : ((List.range' c.nextToPrint d).map obj.packet).flatMap (·.content.value) =
      (List.range' c.nextToPrint d).flatMap obj.content := by
    rw [List.flatMap_map]
    rfl
  have hrange := @List.range'_append_1 0 c.nextToPrint d
  rw [Nat.zero_add] at hrange
  rw [hwritten]
  refine ⟨⟨rfl, hholds, ?_⟩, Nat.le_add_right _ _⟩
  dsimp only
  rw [hcontent, h.output, ← List.flatMap_append, List.range_eq_range', List.range_eq_range', hrange]

/-! ### What a step does -/

theorem Steps.refl (h : Tracks obj p t) : Steps obj finishCb p t p t where
  tracks := h
  le := le_rfl
  finishes := by simp
  world := by
    rw [if_pos rfl]
    rfl

theorem Steps.quiet {t'' : Transfer ω} (h : Steps obj finishCb p t p' t') (hq : Quiet t' t'') :
    Steps obj finishCb p t p' t'' := by
  have hall : t''.pipeline.allSegmentsReceived = t'.pipeline.allSegmentsReceived := by
    simp only [PipelineInterests.allSegmentsReceived, hq.nReceived, hq.hasFinalBlockId,
      hq.lastSegmentNo]
  have hcalled : called t''.pipeline t''.consumer = called t'.pipeline t'.consumer := by
    rw [called, called, hall, hq.consumer]
  refine ⟨h.tracks.quiet hq, ?_, ?_, ?_⟩
  · rw [hq.consumer]
    exact h.le
  · rw [hq.finishes, hcalled]
    exact h.finishes
  · rw [hq.world, hcalled]
    exact h.world

theorem exec_handleData (hcalm : Calm t.pipeline) {q : PipelineInterestsFixed} {data : Packet}
    (hlearn : exec (PipelineInterestsFixed.learnFinalBlock data) t =
      (.ok true, { t with pipeline := q })) (pipeNo : ℕ) (verdict : Verdict) :
    exec (PipelineInterestsFixed.handleData options finishCb pipeNo data verdict) t = exec (do
      PipelineInterests.onData finishCb data verdict
      let t ← get
      if t.pipeline.allSegmentsReceived then return ()
      else let _ ← PipelineInterestsFixed.fetchNextSegment options pipeNo)
      { t with pipeline := q } := by
  rw [PipelineInterestsFixed.handleData, exec_bind_ok (exec_get t)]
  simp only [hcalm.isStopping, Bool.false_eq_true, if_false]
  rw [exec_bind_ok hlearn]
  rfl

variable (finishCb) in
theorem steps_onData (h : Tracks obj p t) {k : ℕ} {q : PipelineInterestsFixed}
    (hq : Counted obj (k :: p.received) { q with nReceived := q.nReceived + 1 }) (hk : k < obj.size)
    (hnew : k ∉ p.received) (pipeNo : ℕ) (later : Bool) :
    Steps obj finishCb p t (p.next obj (.deliver k pipeNo later))
      (exec (PipelineInterests.onData finishCb (obj.packet k) (if later then .later else .valid))
        { t with pipeline := q }).2 := by
  rw [PipelineInterests.onData, exec_bind_ok (exec_modify _ _)]
  simp only [Progress.next, hk, hnew, not_false_eq_true, and_self, if_true]
  cases later with
  | true =>
      simp only [if_true, Consumer.handleData, exec_modify]
      refine ⟨⟨?_, ?_, h.wrote.holds, h.wrote.output⟩, le_rfl, ?_, ?_⟩
      · apply hq.perm
        rw [Progress.received, Progress.received, ← List.append_assoc]
        exact List.perm_append_singleton k _
      · change t.consumer.validating ++ [obj.packet k] = _
        rw [h.wrote.validating, List.map_append, List.map_singleton]
      · rw [if_pos rfl]
        exact (List.append_nil _).symm
      · rw [if_pos rfl]
        rfl
  | false =>
      have hval : k ∉ p.validated := fun hin => hnew (List.mem_append_left _ hin)
      obtain ⟨hpipeline, hconsumer, hfinishes, hworld⟩ := onValidationSuccess_spec finishCb
        (SegmentedObject.getSegmentFromPacket_packet hk) (obj.regular k hk)
        ({ t with pipeline := q }.onPipeline fun p => { p with nReceived := p.nReceived + 1 })
      simp only [Bool.false_eq_true, if_false, Consumer.handleData]
      have hwrote := h.wrote.pass hval { p with validated := p.validated ++ [k] } rfl t.consumer
        (by rw [← h.wrote.validating])
      refine ⟨⟨?_, ?_⟩, ?_, ?_, ?_⟩
      · rw [hpipeline]
        apply hq.perm
        rw [Progress.received, Progress.received]
        exact (List.perm_append_singleton k p.validated).append_right p.awaiting
      · rw [hconsumer]
        exact hwrote.1
      · rw [hconsumer]
        exact hwrote.2
      · rw [hfinishes, hpipeline, hconsumer, if_neg (by simp)]
        rfl
      · rw [hworld, hpipeline, hconsumer, if_neg (by simp)]
        rfl

theorem steps_pass (h : Tracks obj p t) {k : ℕ} (hk : k ∈ p.awaiting) :
    Steps obj finishCb p t (p.next obj (.pass k))
      (exec (Consumer.verdict finishCb (p.awaiting.idxOf k) none) t).2 := by
  have hreceived : k ∈ p.received := List.mem_append_right _ hk
  have hlt := h.counted.lt k hreceived
  have hval : k ∉ p.validated := by
    intro hin
    exact (List.disjoint_of_nodup_append h.counted.nodup) hin hk
  have hget : t.consumer.validating[p.awaiting.idxOf k]? = some (obj.packet k) := by
    rw [h.wrote.validating, List.getElem?_map, List.getElem?_idxOf hk]
    rfl
  have herase : t.consumer.validating.eraseIdx (p.awaiting.idxOf k) =
      (p.awaiting.erase k).map obj.packet := by
    rw [h.wrote.validating, List.erase_eq_eraseIdx_of_idxOf rfl, List.eraseIdx_map]
  obtain ⟨hpipeline, hconsumer, hfinishes, hworld⟩ := onValidationSuccess_spec finishCb
    (SegmentedObject.getSegmentFromPacket_packet hlt) (obj.regular k hlt)
    (t.onConsumer fun c => { c with validating := c.validating.eraseIdx (p.awaiting.idxOf k) })
  have hwrote := h.wrote.pass hval
    { validated := p.validated ++ [k], awaiting := p.awaiting.erase k } rfl
    { t.consumer with validating := t.consumer.validating.eraseIdx (p.awaiting.idxOf k) }
    (by rw [herase])
  rw [Consumer.verdict, exec_bind_ok (exec_get t), hget]
  dsimp only
  rw [exec_bind_ok (exec_set _ t)]
  simp only [Progress.next, hk, if_true]
  refine ⟨⟨?_, ?_⟩, ?_, ?_, ?_⟩
  · rw [hpipeline]
    apply h.counted.perm
    rw [Progress.received, Progress.received, List.append_assoc]
    exact (List.perm_cons_erase hk).symm.append_left p.validated
  · rw [hconsumer]
    exact hwrote.1
  · rw [hconsumer]
    exact hwrote.2
  · rw [hfinishes, hpipeline, hconsumer, if_neg (by simp)]
    rfl
  · rw [hworld, hpipeline, hconsumer, if_neg (by simp)]
    rfl

variable (options finishCb) in
theorem steps_perform (r : Run ω) (h : Tracks obj r.progress r.transfer) (event : Event) :
    let r' := perform obj options finishCb r event
    Steps obj finishCb r.progress r.transfer r'.progress r'.transfer := by
  cases event with
  | deliver k pipeNo later =>
      by_cases hk : k < obj.size ∧ k ∉ r.progress.received
      · obtain ⟨q, hlearn, hcount⟩ := h.counted.cons hk.1 hk.2
        have hstep := steps_onData finishCb h hcount hk.1 hk.2 pipeNo later
        simp only [perform, Progress.handle, if_pos hk, exec_handleData h.counted.calm hlearn]
        exact hstep.quiet (quiet_after options _ pipeNo _ hstep.tracks.counted.calm)
      · simp only [perform, Progress.handle, Progress.next, if_neg hk]
        exact Steps.refl h
  | pass k =>
      by_cases hk : k ∈ r.progress.awaiting
      · simp only [perform, Progress.handle, if_pos hk]
        exact steps_pass h hk
      · simp only [perform, Progress.handle, Progress.next, if_neg hk]
        exact Steps.refl h

variable (obj options) in
theorem quiet_start (world : ω) :
    Quiet { pipeline := { PipelineInterestsFixed.new options with versionedName := obj.name }
            world := world } (start obj options world).transfer :=
  quiet_doRunFrom options options.maxPipelineSize 0 ((calm_new options).named obj.name)

variable (obj options) in
theorem tracks_start (world : ω) : Tracks obj {} (start obj options world).transfer := by
  refine Tracks.quiet ⟨⟨List.nodup_nil, by simp [Progress.received], ?_, rfl, ?_, ?_⟩, rfl, ?_, rfl⟩
    (quiet_start obj options world)
  · exact (calm_new options).named obj.name
  · simp [Progress.received, PipelineInterestsFixed.new]
  · simp [PipelineInterestsFixed.new]
  · have hempty : {k : ℕ | k ∈ ({} : Progress).validated} = ∅ := by simp
    rw [hempty]
    exact holds_empty obj.packet

/-! ### What has been written -/

theorem Tracks.next_le (h : Tracks obj p t) : t.consumer.nextToPrint ≤ obj.size := by
  by_contra hlt
  have hin := h.wrote.holds.left obj.size (by omega)
  exact absurd (h.counted.lt _ (List.mem_append_left _ hin)) (Nat.lt_irrefl _)

theorem Tracks.next_eq (h : Tracks obj p t) :
    t.consumer.nextToPrint = obj.size ↔ ∀ k < obj.size, k ∈ p.validated :=
  h.wrote.holds.complete fun k hk => h.counted.lt k (List.mem_append_left _ hk)

theorem Tracks.output_eq (h : Tracks obj p t) :
    t.consumer.outputBuffer = obj.inOrder p.validated := by
  rw [h.wrote.output, SegmentedObject.inOrder, takeWhile_range h.next_le]
  · intro k hk
    exact decide_eq_true (h.wrote.holds.left k hk)
  · intro _
    exact decide_eq_false h.wrote.holds.stop

theorem Tracks.length_le (h : Tracks obj p t) : p.received.length ≤ obj.size :=
  (length_le_of_nodup h.counted.nodup h.counted.lt).1

/-- The pipeline takes the transfer for complete when all segments are there and one
of them has told so. -/
theorem Tracks.allSegmentsReceived_iff (h : Tracks obj p t) :
    t.pipeline.allSegmentsReceived = true ↔ p.received.length = obj.size ∧
      ∃ k ∈ p.received, (obj.packet k).finalBlock.isSome = true := by
  have hpos := obj.size_pos
  have hle := h.length_le
  rw [← h.counted.final, PipelineInterests.allSegmentsReceived, h.counted.nReceived]
  simp only [Bool.and_eq_true, decide_eq_true_eq]
  constructor
  · rintro ⟨⟨hreceived, hknown⟩, hlast⟩
    rw [h.counted.last hknown] at hlast
    exact ⟨by omega, hknown⟩
  · rintro ⟨hlength, hknown⟩
    rw [h.counted.last hknown]
    exact ⟨⟨by omega, hknown⟩, by omega⟩

/-- All segments are there. They are validated when none awaits it. -/
theorem Tracks.next_eq_of_received (h : Tracks obj p t) (hall : p.received.length = obj.size) :
    t.consumer.nextToPrint = obj.size ↔ p.awaiting = [] := by
  have hnodup : p.validated.Nodup := (List.nodup_append.mp h.counted.nodup).1
  have hlt : ∀ k ∈ p.validated, k < obj.size := fun k hk => h.counted.lt k (List.mem_append_left _ hk)
  rw [h.next_eq, ← (length_le_of_nodup hnodup hlt).2, ← List.length_eq_zero_iff]
  rw [Progress.received, List.length_append] at hall
  omega

/-! ## Completion -/

variable (obj options finishCb)

def after (world : ω) (events : List Event) : Run ω :=
  events.foldl (perform obj options finishCb) (start obj options world)

/-- The finish callback has been called once at most, with all segments written. -/
def Complete (r : Run ω) : Prop :=
  (finishes r.transfer.trace).length ≤ 1 ∧
    ∀ f ∈ finishes r.transfer.trace, f = (obj.size, obj.contents)

/-- When the validator passes a segment and all are received, none is kept any more, or
the contents before the first that is kept do not begin with a whole element. -/
def OnTime (r : Run ω) (event : Event) : Prop :=
  let p := r.progress.next obj event
  p.validated ≠ r.progress.validated → p.received.length = obj.size →
    (∃ k ∈ p.received, (obj.packet k).finalBlock.isSome = true) →
    p.awaiting = [] ∨ readBlock (obj.inOrder p.validated) = none

/-- What all steps keep. -/
structure Sound (r : Run ω) : Prop where
  tracks : Tracks obj r.progress r.transfer
  finishes : ∀ f ∈ finishes r.transfer.trace, f.1 ≤ r.transfer.consumer.nextToPrint

variable {obj options finishCb}

theorem Sound.perform {r : Run ω} (h : Sound obj r) (event : Event) :
    Sound obj (perform obj options finishCb r event) := by
  obtain ⟨htracks, hle, hfinishes, -⟩ := steps_perform options finishCb r h.tracks event
  refine ⟨htracks, ?_⟩
  intro f hf
  rw [hfinishes] at hf
  rcases List.mem_append.mp hf with hf | hf
  · exact (h.finishes f hf).trans hle
  · split_ifs at hf
    · simp at hf
    · simp only [called] at hf
      split_ifs at hf
      · rw [List.mem_singleton.mp hf]
      · simp at hf

theorem validated_next (p : Progress) (event : Event) :
    (p.next obj event).validated = p.validated ∨
      ∃ k, (p.next obj event).validated = p.validated ++ [k] := by
  cases event with
  | deliver k pipeNo later =>
      simp only [Progress.next]
      split_ifs
      · exact .inl rfl
      · exact .inr ⟨k, rfl⟩
      · exact .inl rfl
  | pass k =>
      simp only [Progress.next]
      split_ifs
      · exact .inr ⟨k, rfl⟩
      · exact .inl rfl

/-- While a segment can still be validated, a complete call has not been made. -/
theorem Sound.finishes_eq_nil {r : Run ω} (h : Sound obj r) (hc : Complete obj r)
    {event : Event} (hs : Tracks obj (r.progress.next obj event) t)
    (hne : (r.progress.next obj event).validated ≠ r.progress.validated) :
    SegmentRuns.finishes r.transfer.trace = [] := by
  apply List.eq_nil_iff_forall_not_mem.mpr
  intro f hf
  have hle := h.finishes f hf
  rw [hc.2 f hf] at hle
  have hnext : r.transfer.consumer.nextToPrint = obj.size :=
    Nat.le_antisymm h.tracks.next_le hle
  have hall := h.tracks.next_eq.mp hnext
  obtain ⟨k, hk⟩ := (validated_next r.progress event).resolve_left hne
  have hnodup := (List.nodup_append.mp hs.counted.nodup).1
  rw [hk] at hnodup
  have hlt : k < obj.size := hs.counted.lt k (List.mem_append_left _ (by rw [hk]; simp))
  exact List.disjoint_of_nodup_append hnodup (hall k hlt) (List.mem_singleton_self k)

/-- One step: a call is complete if and only if the verdict is on time. -/
theorem complete_perform {r : Run ω} (h : Sound obj r) (hc : Complete obj r) (event : Event) :
    Complete obj (perform obj options finishCb r event) ↔ OnTime obj r event := by
  let p' := r.progress.next obj event
  let t' := (SegmentRuns.perform obj options finishCb r event).transfer
  obtain ⟨htracks, -, hfinishes, -⟩ : Steps obj finishCb r.progress r.transfer p' t' :=
    steps_perform options finishCb r h.tracks event
  change ((finishes t'.trace).length ≤ 1 ∧ ∀ f ∈ finishes t'.trace, f = (obj.size, obj.contents)) ↔ _
  by_cases hv : p'.validated = r.progress.validated
  · rw [if_pos hv, List.append_nil] at hfinishes
    rw [hfinishes]
    exact iff_of_true hc fun hne => absurd hv hne
  · rw [if_neg hv, h.finishes_eq_nil hc htracks hv, List.nil_append] at hfinishes
    rw [hfinishes, called]
    split_ifs with hcall
    · obtain ⟨hlength, hfinal⟩ := htracks.allSegmentsReceived_iff.mp hcall.1
      have hnext := htracks.next_eq_of_received hlength
      simp only [List.length_singleton, le_refl, List.mem_singleton, forall_eq, true_and,
        Prod.mk.injEq]
      constructor
      · intro hcomplete _ _ _
        exact .inl (hnext.mp hcomplete.1)
      · intro hontime
        rcases hontime hv hlength hfinal with hnone | hparse
        · have hsize := hnext.mpr hnone
          refine ⟨hsize, ?_⟩
          rw [htracks.wrote.output, hsize]
          rfl
        · have hsome := hcall.2
          rw [htracks.output_eq, hparse] at hsome
          cases hsome
    · refine iff_of_true (by simp) ?_
      intro _ hlength hfinal
      right
      by_contra hparse
      apply hcall
      refine ⟨htracks.allSegmentsReceived_iff.mpr ⟨hlength, hfinal⟩, ?_⟩
      rw [htracks.output_eq]
      exact Option.isSome_iff_ne_none.mpr hparse

theorem sound_start (world : ω) : Sound obj (start obj options world) := by
  have hnil : finishes (start obj options world).transfer.trace = [] :=
    (quiet_start obj options world).finishes
  exact ⟨tracks_start obj options world, by simp [hnil]⟩

/-- The finish callback is called once at most and with all segments written, at every
point of a run, if and only if every verdict of the validator is on time. -/
theorem finishes_complete_iff (obj : SegmentedObject) (options : Options)
    (finishCb : Block → Program PacketError ω Unit) (world : ω) (events : List Event) :
    (∀ before, before <+: events → Complete obj (after obj options finishCb world before)) ↔
      Throughout (perform obj options finishCb) (OnTime obj) (start obj options world) events := by
  apply everywhere_iff (J := Sound obj) (I := Complete obj)
  · exact fun _ event h => h.perform event
  · exact fun _ event h hc => complete_perform h hc event
  · exact sound_start world
  · have hnil : finishes (start obj options world).transfer.trace = [] :=
      (quiet_start obj options world).finishes
    constructor <;> simp [hnil]

end

section

/-- Two segments that hold an empty element each. -/
def twoElements : SegmentedObject where
  name := []
  size := 2
  packet k := SegmentProducer.segment [] 2 [8, 0] k
  size_pos := Nat.two_pos
  size_le := by decide
  named _ _ := rfl
  regular _ _ := (by decide : 0 ≠ contentTypeNack)
  final _ _ _ h := (Option.some.inj h).symm

/-- Both segments arrive before the validator passes the first, and then the second. -/
def lateVerdicts : List Event := [.deliver 0 0 true, .deliver 1 0 true, .pass 0, .pass 1]

theorem called_early :
    let run := after twoElements {} (fun _ => pure ()) () lateVerdicts
    finishes run.transfer.trace = [(1, [8, 0]), (2, [8, 0, 8, 0])] ∧ ¬Complete twoElements run := by
  have hcalls : finishes (after twoElements {} (fun _ => pure ()) ()
      lateVerdicts).transfer.trace = [(1, [8, 0]), (2, [8, 0, 8, 0])] := by decide +kernel
  refine ⟨hcalls, fun hcomplete => ?_⟩
  have hone := hcomplete.1
  rw [hcalls] at hone
  simp at hone

end

/-! ## Verdicts at once -/

section
variable {ω : Type} {obj : SegmentedObject} (options : Options)
  (finishCb : Block → Program PacketError ω Unit) (world : ω)

def arrivals (deliveries : List (ℕ × ℕ)) : List Event :=
  deliveries.map fun d => .deliver d.1 d.2 false

theorem sound_after (events : List Event) : Sound obj (after obj options finishCb world events) :=
  foldl_invariant (fun _ event h => h.perform event) events (sound_start world)

theorem perform_deliver {r : Run ω} {k : ℕ} (hk : k < obj.size ∧ k ∉ r.progress.received)
    (pipeNo : ℕ) :
    perform obj options finishCb r (.deliver k pipeNo false) =
      ⟨{ r.progress with validated := r.progress.validated ++ [k] },
        (exec (PipelineInterestsFixed.handleData options finishCb pipeNo (obj.packet k) .valid)
          r.transfer).2⟩ := by
  simp only [perform, Progress.next, Progress.handle, if_pos hk, Bool.false_eq_true, if_false]

/-- With no segment kept, the only call is for the whole object. -/
theorem Tracks.called_eq {p : Progress} {t : Transfer ω} (h : Tracks obj p t)
    (hnone : p.awaiting = []) (hfinal : ∀ k < obj.size, (obj.packet k).finalBlock.isSome = true)
    (hparse : (readBlock obj.contents).isSome = true) :
    called t.pipeline t.consumer =
      if p.received.length = obj.size then [(obj.size, obj.contents)] else [] := by
  by_cases hlength : p.received.length = obj.size
  · have hsize := (h.next_eq_of_received hlength).mpr hnone
    have houtput : t.consumer.outputBuffer = obj.contents := by
      rw [h.wrote.output, hsize]
      rfl
    have hall : t.pipeline.allSegmentsReceived = true := by
      have hin := (length_le_of_nodup h.counted.nodup h.counted.lt).2.mp hlength 0 obj.size_pos
      exact h.allSegmentsReceived_iff.mpr ⟨hlength, 0, hin, hfinal 0 obj.size_pos⟩
    rw [called, if_pos ⟨hall, houtput ▸ hparse⟩, if_pos hlength, hsize, houtput]
  · rw [if_neg hlength, called, if_neg]
    intro hcall
    exact hlength (h.allSegmentsReceived_iff.mp hcall.1).1

/-- Distinct segments arrive and the validator passes them at once. The only call is
that for the whole object, with the last of its segments. -/
theorem deliver_all (hfinal : ∀ k < obj.size, (obj.packet k).finalBlock.isSome = true)
    (hparse : (readBlock obj.contents).isSome = true) (deliveries : List (ℕ × ℕ))
    (hnodup : (deliveries.map Prod.fst).Nodup) (hlt : ∀ k ∈ deliveries.map Prod.fst, k < obj.size) :
    let r := after obj options finishCb world (arrivals deliveries)
    let calls := if deliveries.length = obj.size then [(obj.size, obj.contents)] else []
    r.progress = ⟨deliveries.map Prod.fst, []⟩ ∧
      r.transfer = deliveries.foldl (fun t d => (exec (PipelineInterestsFixed.handleData options
        finishCb d.2 (obj.packet d.1) .valid) t).2) (start obj options world).transfer ∧
      finishes r.transfer.trace = calls ∧ r.transfer.world = callAll finishCb world calls := by
  induction deliveries using List.reverseRecOn with
  | nil =>
      have hpos := obj.size_pos
      have hsize : ¬0 = obj.size := by omega
      have hquiet := quiet_start obj options world
      simp only [List.length_nil, hsize, if_false]
      exact ⟨rfl, rfl, hquiet.finishes, hquiet.world⟩
  | append_singleton deliveries d ih =>
      have hlength := (length_le_of_nodup hnodup hlt).1
      rw [List.length_map, List.length_append, List.length_singleton] at hlength
      have hsize : ¬deliveries.length = obj.size := by omega
      rw [List.map_append, List.map_singleton] at hnodup hlt ⊢
      obtain ⟨hprogress, htransfer, hfinishes, hworld⟩ := ih (List.nodup_append.mp hnodup).1
        fun k hk => hlt k (List.mem_append_left _ hk)
      rw [if_neg hsize] at hfinishes hworld
      let r := after obj options finishCb world (arrivals deliveries)
      have hnew : d.1 < obj.size ∧ d.1 ∉ r.progress.received := by
        rw [hprogress, Progress.received, List.append_nil]
        refine ⟨hlt _ (List.mem_append_right _ (List.mem_singleton_self _)), fun hin => ?_⟩
        exact List.disjoint_of_nodup_append hnodup hin (List.mem_singleton_self _)
      have hstep := steps_perform options finishCb r
        (sound_after options finishCb world (arrivals deliveries)).tracks (.deliver d.1 d.2 false)
      have hrun : after obj options finishCb world (arrivals (deliveries ++ [d])) =
          perform obj options finishCb r (.deliver d.1 d.2 false) := by
        simp only [r, after, arrivals, List.map_append, List.map_singleton, List.foldl_concat]
      rw [hrun]
      rw [perform_deliver options finishCb hnew d.2] at hstep ⊢
      obtain ⟨htracks, -, hfinishes', hworld'⟩ := hstep
      have hcalled := htracks.called_eq (congrArg Progress.awaiting hprogress) hfinal hparse
      have hreceived : Progress.received
          { r.progress with validated := r.progress.validated ++ [d.1] } =
          deliveries.map Prod.fst ++ [d.1] := by
        rw [hprogress, Progress.received, List.append_nil]
      rw [hreceived, List.length_append, List.length_map, List.length_singleton] at hcalled
      rw [if_neg (by simp), hcalled] at hfinishes' hworld'
      refine ⟨?_, ?_, ?_, ?_⟩
      · rw [hprogress]
      · rw [htransfer, List.foldl_concat]
      · rw [hfinishes', hfinishes, List.nil_append, List.length_append, List.length_singleton]
      · rw [hworld', hworld, List.length_append, List.length_singleton]
        rfl

end

/-! ## A segmented block -/

section
variable (producer : SegmentProducer.Options) {versionedPrefix : Name} {block : Block}
  (options : Options)

/-- The finish callback that keeps what it is called with. -/
def keep (block : Block) : Program PacketError (List Block) Unit := modify (· ++ [block])

/-- Segments arrive on pipes one after the other, and the validator passes each at once. -/
def receiveAll (versionedName : Name) (deliveries : List (Packet × ℕ)) : Transfer (List Block) :=
  deliveries.foldl
    (fun t d => (exec (PipelineInterestsFixed.handleData options keep d.2 d.1 .valid) t).2)
    (exec (Consumer.run options versionedName) { pipeline := .new options, world := [] }).2

/-- The object that the producer makes of a block. -/
def ofBlock (versionedPrefix : Name) (hb : block.wire.length < 2 ^ 31) : SegmentedObject where
  name := versionedPrefix
  size := SegmentProducer.segments producer.maxSegmentSize block
  packet k := SegmentProducer.segment versionedPrefix
    (SegmentProducer.segments producer.maxSegmentSize block)
    (chunk producer.maxSegmentSize block.wire k) k
  size_pos := Nat.succ_pos _
  size_le := by
    have := @SegmentProducer.segments_lt producer block hb
    omega
  named _ _ := rfl
  regular _ _ := (by decide : 0 ≠ contentTypeNack)
  final _ _ _ h := (Option.some.inj h).symm

theorem contents_ofBlock (hs : 1 ≤ producer.maxSegmentSize) (hb : block.wire.length < 2 ^ 31) :
    (ofBlock producer versionedPrefix hb).contents = block.wire := by
  have hcontents : (ofBlock producer versionedPrefix hb).contents =
      (List.range (SegmentProducer.segments producer.maxSegmentSize block)).flatMap
        (chunk producer.maxSegmentSize block.wire) := rfl
  rw [hcontents, flatMap_chunk]
  exact List.take_of_length_le (SegmentProducer.length_le_segments_mul hs)

/-- The number in the name of a segment. -/
def numberOf (data : Packet) : ℕ := (getSegmentFromPacket data).toOption.getD 0

theorem numberOf_packet (obj : SegmentedObject) {k : ℕ} (hk : k < obj.size) :
    numberOf (obj.packet k) = k := by
  rw [numberOf, SegmentedObject.getSegmentFromPacket_packet hk]
  rfl

/-- What arrives in any order, by number. -/
theorem numbered (obj : SegmentedObject) {deliveries : List (Packet × ℕ)}
    (hd : (deliveries.map Prod.fst).Perm ((List.range obj.size).map obj.packet)) :
    (deliveries.map fun d => numberOf d.1).Perm (List.range obj.size) ∧
      ∀ d ∈ deliveries, obj.packet (numberOf d.1) = d.1 := by
  have hnumber : ((List.range obj.size).map obj.packet).map numberOf = List.range obj.size := by
    rw [List.map_map]
    refine (List.map_congr_left fun k hk => ?_).trans (List.map_id _)
    exact numberOf_packet obj (List.mem_range.mp hk)
  constructor
  · have hperm := hd.map numberOf
    rwa [hnumber, List.map_map] at hperm
  · intro d hd'
    have hin : d.1 ∈ deliveries.map Prod.fst := List.mem_map_of_mem hd'
    obtain ⟨k, hk, hpacket⟩ := List.mem_map.mp (hd.subset hin)
    rw [← hpacket, numberOf_packet obj (List.mem_range.mp hk)]

/-- The callback with what is received of an object. -/
theorem world_receiveAll (obj : SegmentedObject)
    (hfinal : ∀ k < obj.size, (obj.packet k).finalBlock.isSome = true)
    (hparse : (readBlock obj.contents).isSome = true) {received : List (Packet × ℕ)}
    (hnodup : (received.map fun d => numberOf d.1).Nodup)
    (hlt : ∀ k ∈ received.map fun d => numberOf d.1, k < obj.size)
    (hnumber : ∀ d ∈ received, obj.packet (numberOf d.1) = d.1) :
    (receiveAll options obj.name received).world =
      callAll keep [] (if received.length = obj.size then [(obj.size, obj.contents)] else []) := by
  let byNumber := received.map fun d => (numberOf d.1, d.2)
  have hfst : byNumber.map Prod.fst = received.map fun d => numberOf d.1 := by
    rw [List.map_map]
    rfl
  have hsame : receiveAll options obj.name received =
      (after obj options keep [] (arrivals byNumber)).transfer := by
    obtain ⟨-, htransfer, -, -⟩ := deliver_all options keep [] hfinal hparse byNumber
      (hfst ▸ hnodup) (hfst ▸ hlt)
    rw [htransfer, List.foldl_map]
    apply List.foldl_ext
    intro t d hd
    rw [hnumber d hd]
  obtain ⟨-, -, -, hworld⟩ := deliver_all options keep [] hfinal hparse byNumber
    (hfst ▸ hnodup) (hfst ▸ hlt)
  rw [hsame, hworld, List.length_map]

/-- The segments of a block are cut as they should be, and reassembled in any order. -/
theorem segmentation_round_trip (hs : 1 ≤ producer.maxSegmentSize)
    (hs' : producer.maxSegmentSize < 2 ^ 31) (versionedPrefix : Name) (block : Block)
    (hb : block.wire.length < 2 ^ 31) :
    let store := SegmentProducer.populateStore producer versionedPrefix block
    store.length = (block.wire.length + producer.maxSegmentSize - 1) / producer.maxSegmentSize ∧
    (∀ k data, store[k]? = some data → data.name = versionedPrefix ++ [fromSegment k] ∧
      1 ≤ data.content.value.length ∧ data.content.value.length ≤ producer.maxSegmentSize ∧
      data.finalBlock = some (fromSegment (store.length - 1))) ∧
    ∀ deliveries : List (Packet × ℕ), (deliveries.map Prod.fst).Perm store →
      (∀ received, received <+: deliveries → received ≠ deliveries →
        (receiveAll options versionedPrefix received).world = []) ∧
      (receiveAll options versionedPrefix deliveries).world = [block] := by
  let obj := ofBlock producer versionedPrefix hb
  have hpos := block.wire_length_pos
  have hstore : SegmentProducer.populateStore producer versionedPrefix block =
      (List.range obj.size).map obj.packet :=
    SegmentProducer.populateStore_eq versionedPrefix hs hs' hb
  have hceil : obj.size =
      (block.wire.length + producer.maxSegmentSize - 1) / producer.maxSegmentSize := by
    have hsplit : block.wire.length + producer.maxSegmentSize - 1 =
        block.wire.length - 1 + producer.maxSegmentSize := by omega
    rw [hsplit, Nat.add_div_right _ hs]
    rfl
  rw [hstore]
  refine ⟨by rw [List.length_map, List.length_range, hceil], ?_, ?_⟩
  · intro k data hk
    rw [List.getElem?_map] at hk
    obtain ⟨j, hj, rfl⟩ := Option.map_eq_some_iff.mp hk
    have hlt : k < obj.size := by
      have hk := (List.getElem?_eq_some_iff.mp hj).1
      rwa [List.length_range] at hk
    rw [List.getElem?_range hlt] at hj
    obtain rfl := Option.some.inj hj
    have hmul := SegmentProducer.mul_size_lt hs hlt
    have hlength : (obj.packet k).content.value.length =
        min producer.maxSegmentSize (block.wire.length - k * producer.maxSegmentSize) :=
      length_chunk producer.maxSegmentSize block.wire k
    rw [hlength, List.length_map, List.length_range]
    refine ⟨rfl, ?_, Nat.min_le_left _ _, rfl⟩
    rw [Nat.le_min]
    omega
  · intro deliveries hd
    obtain ⟨hperm, hnumber⟩ := numbered obj hd
    have hcontents : obj.contents = block.wire := contents_ofBlock producer hs hb
    have hread : readBlock obj.contents = some (block, []) := by
      rw [hcontents]
      have := readBlock_wire block []
      rwa [List.append_nil] at this
    have hworld : ∀ received, received <+: deliveries →
        (receiveAll options versionedPrefix received).world =
          callAll keep [] (if received.length = obj.size then [(obj.size, obj.contents)] else []) := by
      intro received hr
      have hsub := hr.sublist.map fun d => numberOf d.1
      apply world_receiveAll options obj (fun _ _ => rfl) (by rw [hread]; rfl)
      · exact hsub.nodup (hperm.nodup_iff.mpr List.nodup_range)
      · exact fun k hk => List.mem_range.mp (hperm.subset (hsub.subset hk))
      · exact fun d hd' => hnumber d (hr.subset hd')
    have hlength : deliveries.length = obj.size := by
      rw [← List.length_range (n := obj.size), ← hperm.length_eq, List.length_map]
    constructor
    · intro received hr hne
      have hshort : ¬received.length = obj.size := fun heq => hne (hr.eq_of_length (heq.trans hlength.symm))
      rw [hworld received hr, if_neg hshort]
      rfl
    · rw [hworld deliveries List.prefix_rfl, if_pos hlength, callAll, List.foldl_cons, List.foldl_nil,
        hread]
      rfl

end

section

/-- A block of five octets. -/
def shortBlock : Block := Name.generic [1, 2, 3]

/-- Segments of two octets, from the last to the first. -/
def backwards : List (Packet × ℕ) :=
  (SegmentProducer.populateStore { maxSegmentSize := 2 } [] shortBlock).reverse.map fun data => (data, 0)

theorem segmentation_round_trip_backwards :
    (receiveAll {} [] (backwards.take 2)).world = [] ∧
      (receiveAll {} [] backwards).world = [shortBlock] := by
  obtain ⟨-, -, hall⟩ := segmentation_round_trip { maxSegmentSize := 2 } {} (by decide) (by decide) []
    shortBlock (by decide)
  have hperm : (backwards.map Prod.fst).Perm
      (SegmentProducer.populateStore { maxSegmentSize := 2 } [] shortBlock) := by
    rw [backwards, List.map_map]
    exact (List.map_id _).symm ▸ List.reverse_perm _
  obtain ⟨hbefore, hlast⟩ := hall backwards hperm
  exact ⟨hbefore _ (List.take_prefix 2 backwards) (by decide), hlast⟩

end
end CertLedger.SegmentRuns
