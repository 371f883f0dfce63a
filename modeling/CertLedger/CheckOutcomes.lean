import CertLedger.CheckNetwork
import CertLedger.CheckerVerdicts
import CertLedger.PipelineEnds

/-!
# What a check comes to

A check at a group of ledgers waits for an answer, has been told one failure, or fetches the
segments of an answer. Where these come, and no fetcher gives up, it waits for the next one, or
it is told of the content, unless this cannot be read: the success, or what is refused of it.
-/
namespace CertLedger.CheckOutcomes
open Std TlvCodec FallibleState NdnObjects NdnPackets RecordCodec DagEngine
open LedgerHandlers EventRuns BroadcastNetwork LedgerNetwork SegmentPipeline SegmentRuns PipelineRuns
open PipelineSteps PipelineProgress PipelineEnds RecordChecker CheckerRuns CheckerOrigins QueryAnswers
open AttestedAnswers CheckNetwork PlainNdn

section
variable [NdnCxx]

/-! ## Turns that leave something -/

section
variable {data : Data} {n : ℕ} {pending : List Expressed}
  {validating : List (CheckerState × Packet)}

/-- An Interest can be made for the record of the Data. -/
def Askable (data : Data) : Prop := ∃ name, setLast data.name 4 RECORD = some name ∧
  Interest.ofName name ≠ none

theorem makeInterest_of_askable (h : Askable data) {state : CheckerState} (hd : state.data = data)
    (ledgerPrefix : Name) : ∃ interest, state.makeInterest ledgerPrefix = some interest := by
  obtain ⟨name, hset, hname⟩ := h
  obtain ⟨i, hi⟩ := Option.ne_none_iff_exists'.mp hname
  apply Option.isSome_iff_exists.mp
  rw [CheckerState.makeInterest, hd, hset, Option.bind_eq_bind, Option.bind_some, hi]
  rfl

/-- Something is on its way, a transfer starts, or one failure is told. -/
def Lasts (data : Data) (n : ℕ) (t : Turn) : Prop :=
  t.pending ≠ [] ∨ t.validating ≠ [] ∨ t.start ≠ none ∨ ∃ error, t.reports = [.failure n data error]

theorem lasts_failed {state : CheckerState} (hd : state.data = data) (hn : state.callbacks = n)
    (error : Failure) : Lasts data n ⟨[], [], failed state error, none⟩ := by
  refine .inr (.inr (.inr ⟨error, ?_⟩))
  rw [← hd, ← hn]
  rfl

theorem lasts_judged {state : CheckerState} (hd : state.data = data) (hn : state.callbacks = n)
    (p : Packet) (refused : Option String) : Lasts data n (judged [] [] state p refused) := by
  cases refused with
  | some info => exact lasts_failed hd hn _
  | none =>
      simp only [judged]
      split_ifs
      · exact .inr (.inr (.inl (Option.some_ne_none _)))
      · exact lasts_failed hd hn _
      · exact lasts_failed hd hn _

theorem lasts_redispatched (hable : Askable data) {state : CheckerState} (hd : state.data = data)
    (hn : state.callbacks = n) (ledgerPrefix : Name) :
    Lasts data n (redispatched [] [] state ledgerPrefix) := by
  have hd' : state.exhaustRetries.2.data = data := hd
  obtain ⟨interest, hi⟩ := makeInterest_of_askable hable hd' ledgerPrefix
  rw [redispatched]
  split_ifs
  · exact lasts_failed hd hn _
  · rw [hi]
    exact .inl (List.append_ne_nil_of_right_ne_nil _ (List.cons_ne_nil _ _))

/-- A turn of a check under way leaves something, whatever comes. -/
theorem lasts_turn (h : Mine data n pending validating) (hable : Askable data)
    (hleft : pending ≠ [] ∨ validating ≠ []) (r : Response) :
    Lasts data n (turn pending validating r) := by
  have hcomes := comes_turn h.owned r
  generalize turn pending validating r = t at hcomes
  cases hcomes with
  | same => exact hleft.imp_right .inl
  | held => exact .inr (.inl (List.cons_ne_nil _ _))
  | @answered e p refused hpending =>
      have he : e ∈ pending := by simp [hpending]
      exact lasts_judged (h.pending e he).1 (h.owned.pending e he) p refused
  | @nacked e hpending =>
      have he : e ∈ pending := by simp [hpending]
      exact lasts_failed (h.pending e he).1 (h.owned.pending e he) _
  | @timedOut e hpending =>
      have he : e ∈ pending := by simp [hpending]
      exact lasts_redispatched hable (h.pending e he).1 (h.owned.pending e he) _
  | @decided v refused _ hvalidating =>
      have hv : v ∈ validating := by simp [hvalidating]
      exact lasts_judged (h.validating v hv).1 (h.owned.validating v hv) v.2 refused

end

/-! ## Checks that have not started a transfer -/

/-- The check waits, or has been told one failure. -/
structure Asking (data : Data) (n : ℕ) (c : Checker) : Prop where
  waits : Waits data n c
  told : c.pending = [] → c.validating = [] → ∃ error, c.transfer.world = [.failure n data error]

section
variable {data : Data} {n : ℕ} {c : Checker}

theorem asking_doCheck (hable : Askable data) (ledgerPrefix : Name) :
    Asking data n (exec (doCheck ledgerPrefix data n) .new).2 := by
  let state : CheckerState := { data := data, callbacks := n }
  have hrun : (exec (doCheck ledgerPrefix data n) .new).2 =
      (redispatched [] [] state ledgerPrefix).told .new :=
    @begun_eq _ n .new rfl rfl ⟨ledgerPrefix, data, []⟩
  have hfirst : state.exhaustRetries.2.data = data := rfl
  have hmore : state.exhaustRetries.1 ≠ true := Bool.false_ne_true
  obtain ⟨interest, hi⟩ := makeInterest_of_askable hable hfirst ledgerPrefix
  refine ⟨waits_doCheck ledgerPrefix data n, fun hpending => ?_⟩
  have hasks : (redispatched [] [] state ledgerPrefix).pending ≠ [] := by
    rw [redispatched, if_neg hmore, hi]
    exact List.append_ne_nil_of_right_ne_nil _ (List.cons_ne_nil _ _)
  rw [hrun] at hpending
  exact absurd hpending hasks

/-- A response leaves the check waiting or told, or starts a transfer with a validated answer. -/
theorem Asking.responded (h : Asking data n c) (hable : Askable data) (r : Response) :
    Asking data n (respond c r) ∨
      ∃ p ∈ passedPackets c r, isRecordName p.name = true ∧ Asked data p.name ∧
        Starts data n p.name.dropLast (respond c r) := by
  rcases h.waits.responded r with ⟨hwaits, hnostart⟩ | hstarts
  · refine .inl ⟨hwaits, ?_⟩
    by_cases hr : ∃ e inner, r = .segment e inner
    · obtain ⟨e, inner, rfl⟩ := hr
      rw [h.waits.segment e inner]
      exact h.told
    · simp only [not_exists] at hr
      by_cases hleft : c.pending ≠ [] ∨ c.validating ≠ []
      · have hlasts := lasts_turn h.waits.mine hable hleft r
        have hsilent := h.waits.silent hleft
        rw [respond_eq c hr]
        generalize turn c.pending c.validating r = t at hnostart hlasts
        rw [Turn.perform, hnostart]
        intro hpending hvalidating
        rcases hlasts with hsome | hsome | hsome | ⟨error, herror⟩
        · exact absurd hpending hsome
        · exact absurd hvalidating hsome
        · exact absurd hnostart hsome
        · refine ⟨error, ?_⟩
          rw [Turn.told, hsilent, herror]
          rfl
      · obtain ⟨hpending, hvalidating⟩ := not_or.mp hleft
        rw [respond_nothing_left (not_not.mp hpending) (not_not.mp hvalidating) hr]
        exact h.told
  · exact .inr hstarts

/-! ## Checks that fetch an answer -/

/-- What is told of a content, with the verdicts on the Data in it. -/
def outcome (inner : ℕ → Option String) (state : CheckerState) (block : Block) : List Report :=
  (exec (onContent inner state block) []).2

/-- The segments of an object come, and none is given up. If the content has been handed to the
validator, then with some of `said` for the Data in it. -/
structure Delivers (data : Data) (n : ℕ) (limit size : ℕ) (versionedPrefix : Name) (block : Block)
    (said : (ℕ → Option String) → Prop) (c : Checker) : Prop where
  pending : c.pending = []
  validating : c.validating = []
  transfer : ∃ (state : CheckerState) (hb : block.wire.length < 2 ^ 31),
    c.checked = some state ∧ state.data = data ∧ state.callbacks = n ∧ Untroubled c.transfer ∧
      ∃ w, Live (ofBlock { maxSegmentSize := size } versionedPrefix hb)
        (fun world => ∃ inner, said inner ∧ world = outcome inner state block) [] limit 1 0 w c.transfer

variable {limit size : ℕ} {versionedPrefix : Name} {block : Block}
  {said said' : (ℕ → Option String) → Prop}

theorem Delivers.mono (h : Delivers data n limit size versionedPrefix block said c) {limit' : ℕ}
    (hle : limit ≤ limit') (hsaid : ∀ inner, said inner → said' inner) :
    Delivers data n limit' size versionedPrefix block said' c := by
  obtain ⟨state, hb, hchecked, hd, hn, huntroubled, w, hlive⟩ := h.transfer
  refine ⟨h.pending, h.validating, state, hb, hchecked, hd, hn, huntroubled, w, ?_⟩
  exact (hlive.mono hle).imp fun _ ⟨inner, hinner, hworld⟩ => ⟨inner, hsaid inner hinner, hworld⟩

theorem delivers_of_starts (h : Starts data n versionedPrefix c) (size : ℕ)
    (hb : block.wire.length < 2 ^ 31) (hname : versionedPrefix.countP isParametersDigest ≤ 1) :
    Delivers data n 1 size versionedPrefix block said c := by
  obtain ⟨state, hchecked, hd, hn, htransfer⟩ := h.transfer
  have hlive : Live (ofBlock { maxSegmentSize := size } versionedPrefix hb)
      (fun world => ∃ inner, said inner ∧ world = outcome inner state block) [] 1 1 0 {}
      (begin {} versionedPrefix []) := live_begin hname {} []
  refine ⟨h.pending, h.validating, state, hb, hchecked, hd, hn, ?_, {}, ?_⟩
  · rw [htransfer]
    exact Untroubled.begin versionedPrefix []
  · rw [htransfer]
    exact hlive

/-- Nothing is lost with the response: a segment that comes is one of `signed`, the validator
passes it, and no fetcher gives up. -/
def Smooth (signed : Packet → Prop) (c : Checker) : Response → Prop
  | .segment e _ => Faithful signed e ∧ Patient {} c.transfer e
  | _ => True

/-- The finish callback is called with the response. -/
def Finishes (c : Checker) (r : Response) : Prop :=
  finishes c.transfer.trace = [] ∧ finishes (respond c r).transfer.trace ≠ []

/-- The verdicts on a content are those of before, or of the response that finishes. -/
theorem live_segment {obj : SegmentedObject} (hframe : Framed obj block)
    (hfinal : ∀ k < obj.size, (obj.packet k).finalBlock.isSome = true)
    (hname : obj.name.countP isParametersDigest ≤ 1) (hlimit : limit ≤ 2 ^ 64) {state : CheckerState}
    {w : Tally} {t : Transfer (List Report)}
    (h : Live obj (fun world => ∃ inner, said inner ∧ world = outcome inner state block) [] limit 1 0
      w t) {e : SegmentPipeline.Event} (he : Faithful (PipelineRuns.Vouched obj) e)
    {inner : ℕ → Option String} (hsaid : ∀ inner', said inner' → said' inner')
    (hcalled : finishes t.trace = [] →
      finishes (exec (e.handle {} (finishCb inner (some state))) t).2.trace ≠ [] → said' inner) :
    (∃ w', Live obj (fun world => ∃ inner, said' inner ∧ world = outcome inner state block) []
        (limit + 1) 1 0 w' (exec (e.handle {} (finishCb inner (some state))) t).2) ∨
      Failed (exec (e.handle {} (finishCb inner (some state))) t).2 := by
  have hany : Live obj (fun world => ∃ inner', (said inner' ∨ inner' = inner) ∧
      world = outcome inner' state block) [] limit 1 0 w t :=
    h.imp fun _ ⟨inner', hinner, hworld⟩ => ⟨inner', .inl hinner, hworld⟩
  have hcb : ∃ inner', (said inner' ∨ inner' = inner) ∧
      (exec (finishCb inner (some state) block) []).2 = outcome inner' state block :=
    ⟨inner, .inr rfl, rfl⟩
  refine (hany.handle hframe hcb hfinal hname hlimit {} he).imp_left fun ⟨w', hlive⟩ => ⟨w', ?_⟩
  refine hlive.imp fun hfinished ⟨inner', hinner, hworld⟩ => ?_
  rcases hinner with hinner | rfl
  · exact ⟨inner', hsaid inner' hinner, hworld⟩
  · rcases h.safe.told with ⟨hnone, -⟩ | ⟨hone, ⟨earlier, hearlier, hbefore⟩, -⟩
    · exact ⟨inner', hcalled hnone hfinished, hworld⟩
    · -- the callback is called only once, and the world is that of before
      have hsame := (hlive.safe.told.finishes_eq hfinished).trans hone.symm
      refine ⟨earlier, hsaid earlier hearlier, ?_⟩
      rw [← hbefore]
      exact (CallsBack.handle {} (finishCb inner' (some state)) e t).world_eq hsame

theorem Delivers.responded (h : Delivers data n limit size versionedPrefix block said c)
    (hs : 1 ≤ size) (hs' : size < 2 ^ 31) (hlimit : limit ≤ 2 ^ 64)
    (hname : versionedPrefix.countP isParametersDigest ≤ 1) {r : Response}
    (hr : Smooth (fun p => p.name.dropLast = versionedPrefix →
      p ∈ SegmentProducer.populateStore { maxSegmentSize := size } versionedPrefix block) c r)
    (hsaid : ∀ inner, said inner → said' inner)
    (hfinishes : ∀ e inner, r = .segment e inner → Finishes c r → said' inner) :
    Delivers data n (limit + 1) size versionedPrefix block said' (respond c r) := by
  have hnothing : (∀ e inner, r ≠ .segment e inner) →
      Delivers data n (limit + 1) size versionedPrefix block said' (respond c r) := by
    intro hr
    rw [respond_nothing_left h.pending h.validating hr]
    exact h.mono (Nat.le_succ limit) hsaid
  cases r with
  | segment e inner =>
      obtain ⟨hfaithful, hpatient⟩ := hr
      obtain ⟨state, hb, hchecked, hd, hn, huntroubled, w, hlive⟩ := h.transfer
      have hcalled := hfinishes e inner rfl
      rw [Finishes, respond_segment, hchecked] at hcalled
      rw [respond_segment, hchecked]
      let obj := ofBlock { maxSegmentSize := size } versionedPrefix hb
      have hframe : Framed obj block := framed_ofBlock hs hb
      have hvouched : Faithful (Vouched obj) e :=
        hfaithful.mono fun p hp => vouched_ofBlock hs hs' hb hp
      have hnext :
          Untroubled (exec (e.handle {} (finishCb inner (some state))) c.transfer).2 :=
        huntroubled.step hpatient
      have hafter := live_segment hframe (fun _ _ => rfl) hname hlimit hlive hvouched hsaid
        fun hnone hfinished => hcalled ⟨hnone, hfinished⟩
      refine ⟨h.pending, h.validating, state, hb, rfl, hd, hn, hnext, ?_⟩
      rcases hafter with hlive' | hfailed
      · exact hlive'
      · have hstopped := hfailed.isStopping
        rw [hnext.calm.isStopping] at hstopped
        cases hstopped
  | answer k p v => exact hnothing (by simp)
  | nack k => exact hnothing (by simp)
  | timeout k => exact hnothing (by simp)
  | verdict k refused => exact hnothing (by simp)

/-- A check that fetches waits for a segment or a verdict, or what it is told is out. -/
theorem Delivers.settled (h : Delivers data n limit size versionedPrefix block said c) :
    (∃ pipeNo, (DataFetcher.running c.transfer pipeNo).isSome = true) ∨
      c.transfer.consumer.validating ≠ [] ∨
        ∃ state inner, state.data = data ∧ state.callbacks = n ∧ said inner ∧
          c.transfer.world = outcome inner state block := by
  obtain ⟨state, hb, -, hd, hn, huntroubled, w, hlive⟩ := h.transfer
  by_cases hbusy : ∃ k, Busy c.transfer.pipeline k
  · obtain ⟨k, hk⟩ := hbusy
    exact .inl (running_of_busy hk)
  · by_cases hkept : c.transfer.consumer.validating = []
    · rcases PipelineProgress.settled (.inl ⟨w, hlive⟩) le_rfl (fun k hk => hbusy ⟨k, hk⟩) hkept with
        ⟨reason, htold⟩ | ⟨-, inner, hinner, hworld⟩
      · exact absurd htold (huntroubled.untold reason)
      · exact .inr (.inr ⟨state, inner, hd, hn, hinner, hworld⟩)
    · exact .inr (.inl hkept)

end

/-! ## What is told of a content -/

section
variable {state : CheckerState} {block : Block}

theorem outcome_unread (inner : ℕ → Option String) {e : PacketError}
    (h : decodeContent block = .error e) : outcome inner state block = [] := by
  rw [outcome, onContent, exec_bind, exec_lift, h]

/-- The failures for the Data that are refused. -/
def refusals (n : ℕ) (data : Data) (verdicts : List (Option String)) : List Report :=
  verdicts.filterMap fun verdict => verdict.map fun info => .failure n data (.validation info)

/-- What the verdicts on the Data in a content come to: a failure for each that is refused, and
where none is the success. -/
def verdictsTold (n : ℕ) (data : Data) (block : Block) (verdicts : List (Option String)) :
    List Report :=
  refusals n data verdicts ++ if ∀ verdict ∈ verdicts, verdict = none then
    [.success n data block] else []

omit [NdnCxx] in
theorem ofNat_lt_iff {m n : ℕ} (hm : m ≤ n) (hn : n < 2 ^ 32) :
    UInt32.ofNat m < UInt32.ofNat n ↔ m < n := by
  rw [UInt32.lt_iff_toNat_lt, UInt32.toNat_ofNat', UInt32.toNat_ofNat',
    Nat.mod_eq_of_lt (by omega), Nat.mod_eq_of_lt hn]

/-- The loop after `m` passes. The success comes with the last of `n` Data, if all have
passed. Induction on the verdicts that are left. -/
theorem told_validateFrom (state : CheckerState) (block : Block) {n : ℕ} (hn : n < 2 ^ 32)
    (verdicts : List (Option String)) (m : ℕ) (hm : m + verdicts.length ≤ n) (world : List Report) :
    (exec (validateFrom (onSuccess state block) (fun info => onFailure state (.validation info))
        (UInt32.ofNat n) verdicts (UInt32.ofNat m)) world).2 =
      world ++ (refusals state.callbacks state.data verdicts ++
        if verdicts ≠ [] ∧ m + verdicts.count none = n then
          [.success state.callbacks state.data block] else []) := by
  induction verdicts generalizing m world with
  | nil => simp [validateFrom, refusals]
  | cons verdict verdicts ih =>
      rw [List.length_cons] at hm
      have hcount : verdicts.count none ≤ verdicts.length := List.count_le_length
      cases verdict with
      | none =>
          have hnext : UInt32.ofNat m + 1 = UInt32.ofNat (m + 1) := by
            rw [UInt32.ofNat_add]
            rfl
          have hrest := ih (m + 1) (by omega)
          have hsame : refusals state.callbacks state.data (none :: verdicts) =
              refusals state.callbacks state.data verdicts := rfl
          rw [validateFrom, hnext, hsame, List.count_cons_self]
          by_cases hlt : m + 1 < n
          · rw [if_pos ((ofNat_lt_iff (by omega) hn).mpr hlt)]
            have hiff : (verdicts ≠ [] ∧ m + 1 + verdicts.count none = n) ↔
                (none :: verdicts ≠ [] ∧ m + (verdicts.count none + 1) = n) := by
              constructor
              · exact fun h => ⟨List.cons_ne_nil _ _, by omega⟩
              · rintro ⟨-, hall⟩
                refine ⟨?_, by omega⟩
                rintro rfl
                rw [List.count_nil] at hall
                omega
            simp only [← hiff]
            exact hrest world
          · obtain rfl : verdicts = [] := List.eq_nil_of_length_eq_zero (by omega)
            rw [if_neg fun h => hlt ((ofNat_lt_iff (by omega) hn).mp h),
              exec_bind_ok (CheckerVerdicts.exec_onSuccess world),
              if_pos ⟨List.cons_ne_nil _ _, by rw [List.count_nil]; omega⟩]
            rfl
      | some info =>
          have hrest := ih m (by omega)
            (world ++ [.failure state.callbacks state.data (.validation info)])
          have hmore : refusals state.callbacks state.data (some info :: verdicts) =
              .failure state.callbacks state.data (.validation info) ::
                refusals state.callbacks state.data verdicts := rfl
          have hless : (some info :: verdicts).count none = verdicts.count none :=
            List.count_cons_of_ne (by simp)
          rw [validateFrom, exec_bind_ok (CheckerVerdicts.exec_onFailure (.validation info) world),
            hmore, hless, if_neg (by omega)]
          rw [if_neg (by omega)] at hrest
          refine hrest.trans ?_
          simp

/-- Where the content can be read, every Data that is refused makes a failure, and the success
is told once where none is. -/
theorem outcome_read {dataVector : List Data} (h : decodeContent block = .ok dataVector)
    (hne : dataVector ≠ []) (hlength : dataVector.length < 2 ^ 32) (inner : ℕ → Option String) :
    outcome inner state block = verdictsTold state.callbacks state.data block
      ((List.range dataVector.length).map inner) := by
  have hrun : outcome inner state block = (exec (validateFrom (onSuccess state block)
      (fun info => onFailure state (.validation info)) (UInt32.ofNat dataVector.length)
      ((List.range dataVector.length).map inner) (UInt32.ofNat 0)) []).2 := by
    rw [outcome, onContent, exec_bind, exec_lift, h]
    rfl
  have hverdicts : (List.range dataVector.length).map inner ≠ [] := by simpa using hne
  have hsize : ((List.range dataVector.length).map inner).length = dataVector.length := by simp
  rw [hrun]
  generalize (List.range dataVector.length).map inner = verdicts at hverdicts hsize ⊢
  rw [told_validateFrom state block hlength verdicts 0 (by rw [hsize, Nat.zero_add]) []]
  have hall : (verdicts ≠ [] ∧ 0 + verdicts.count none = dataVector.length) ↔
      ∀ verdict ∈ verdicts, verdict = none := by
    rw [and_iff_right hverdicts, Nat.zero_add, ← hsize, List.count_eq_length]
    exact forall₂_congr fun verdict _ => eq_comm
  simp only [hall, verdictsTold, List.nil_append]

/-- There is no more Data in a content than there are elements. -/
theorem length_readContent {blocks : List Block} {acc out : List Data}
    (h : blocks.foldlM readContent acc = .ok out) : out.length ≤ acc.length + blocks.length := by
  induction blocks generalizing acc with
  | nil =>
      obtain rfl := Except.ok.inj h
      exact le_rfl
  | cons b blocks ih =>
      rw [List.foldlM_cons] at h
      obtain ⟨more, hmore, hrest⟩ := bind_eq_ok h
      have hle := ih hrest
      have hone : more.length ≤ acc.length + 1 := by
        rw [readContent] at hmore
        split_ifs at hmore with htype hcritical
        · obtain ⟨data, -, hpure⟩ := bind_eq_ok hmore
          obtain rfl := Except.ok.inj hpure
          simp
        · obtain rfl := Except.ok.inj hmore
          exact Nat.le_succ _
      rw [List.length_cons]
      omega

end

/-! ## Runs -/

section
variable {ι : Type} [DecidableEq ι] {group : ι → ServiceConfig} {data : Data} {n : ℕ}

/-- Nothing is lost on the way of an answer, and Interests have names of Interests. -/
def Lossless (s : Service ι) : Move ι → Prop
  | .group _ => True
  | .interest _ query _ => query.name.countP isParametersDigest ≤ 1
  | .response r => Smooth (· ∈ s.signed) s.checker r

/-- The answers are to Interests with names of Interests. -/
def Answerable (s : Service ι) : Prop := ∀ g ∈ s.given, g.query.name.countP isParametersDigest ≤ 1

variable (group) in
/-- The verdicts on the Data in a content that have come with the response that finishes. -/
def SaidOf (s₀ : Service ι) (moves : List (Move ι)) (inner : ℕ → Option String) : Prop :=
  ∃ before e, before ++ [.response (.segment e inner)] <+: moves ∧
    Finishes (before.foldl (Move.perform group) s₀).checker (.segment e inner)

theorem SaidOf.mono {s₀ : Service ι} {moves moves' : List (Move ι)} {inner : ℕ → Option String}
    (h : SaidOf group s₀ moves inner) (hle : moves <+: moves') :
    SaidOf group s₀ moves' inner := by
  obtain ⟨before, e, hbefore, hfinishes⟩ := h
  exact ⟨before, e, hbefore.trans hle, hfinishes⟩

variable (group) in
/-- The check waits or has been told one failure, or an answer is delivered to it that shows
what a ledger has found. -/
def Phase (data : Data) (n : ℕ) (s₀ : Service ι) (moves : List (Move ι)) (s : Service ι) : Prop :=
  Asking data n s.checker ∨ ∃ g ∈ s.given, ∃ time certName blocks k,
    Shows group (netSteps moves) g time certName blocks ∧
      Asked data (objectName g.query.name time ++ [fromSegment k]) ∧
      Delivers data n (1 + moves.length) (group g.party).maxSegmentSize
        (objectName g.query.name time) (contentBlock blocks) (SaidOf group s₀ moves) s.checker

theorem Smooth.mono {signed signed' : Packet → Prop} {c : Checker} {r : Response}
    (h : Smooth signed c r) (himp : ∀ p, signed p → signed' p) : Smooth signed' c r := by
  cases r with
  | segment e inner => exact ⟨h.1.mono himp, h.2⟩
  | _ => exact trivial

theorem answerable_perform {s : Service ι} {move : Move ι} (h : Answerable s)
    (hlossless : Lossless s move) : Answerable (move.perform group s) := by
  cases move with
  | group step => exact h
  | response r => exact h
  | interest i query time =>
      intro g hg
      rcases List.mem_append.mp hg with hg | hg
      · exact h g hg
      · obtain ⟨answer, -, rfl⟩ := List.mem_map.mp hg
        exact hlossless

omit [NdnCxx] in
theorem countP_objectName (query : Name) (time : UInt64) :
    (objectName query time).countP isParametersDigest = query.countP isParametersDigest := by
  have hdata : isParametersDigest dataComponent = false := rfl
  have hversion : isParametersDigest (fromVersion time) = false := rfl
  simp [objectName, List.countP_append, hdata, hversion]

theorem Phase.perform {s₀ : Service ι} {moves : List (Move ι)} {s : Service ι} {move : Move ι}
    (h : Phase group data n s₀ moves s) (hs : s = moves.foldl (Move.perform group) s₀)
    (he : Explained group moves s) (hable : Askable data)
    (hsize : ∀ i, 1 ≤ (group i).maxSegmentSize ∧ (group i).maxSegmentSize < 2 ^ 31)
    (hlength : moves.length < 2 ^ 64) (happart : ∀ i, Apart (group i) data) (hunique : Unique s)
    (hauthentic : Authentic s move) (hanswerable : Answerable s) (hlossless : Lossless s move) :
    Phase group data n s₀ (moves ++ [move]) (move.perform group s) := by
  have hsaid : ∀ inner, SaidOf group s₀ moves inner → SaidOf group s₀ (moves ++ [move]) inner :=
    fun inner hinner => hinner.mono (List.prefix_append _ _)
  have hsteps := netSteps_append moves move
  have hgiven := (given_perform group s move).subset
  have hlater : (move.perform group s).checker = s.checker →
      Phase group data n s₀ (moves ++ [move]) (move.perform group s) := by
    intro hchecker
    rcases h with hasking | ⟨g, hg, time, certName, blocks, k, hshows, hasked, hdelivers⟩
    · left
      rwa [hchecker]
    · right
      refine ⟨g, hgiven hg, time, certName, blocks, k, hshows.mono hsteps, hasked, ?_⟩
      rw [hchecker]
      exact hdelivers.mono (by simp) hsaid
  have hname : ∀ g ∈ s.given, ∀ time,
      (objectName g.query.name time).countP isParametersDigest ≤ 1 := by
    intro g hg time
    rw [countP_objectName]
    exact hanswerable g hg
  cases move with
  | group step => exact hlater rfl
  | interest i query time => exact hlater rfl
  | response r =>
      rcases h with hasking | ⟨g, hg, time, certName, blocks, k, hshows, hasked, hdelivers⟩
      · rcases hasking.responded hable r with hasking' | ⟨p, hp, hrecord, hasked, hstart⟩
        · exact .inl hasking'
        · right
          obtain ⟨g, hg, time, certName, blocks, k, hshows, hpname⟩ :=
            he.shows happart (hauthentic p hp) hrecord hasked
          rw [hpname, List.dropLast_concat] at hstart
          refine ⟨g, hg, time, certName, blocks, k, hshows.mono hsteps, hpname ▸ hasked, ?_⟩
          have hnext : Delivers data n 1 (group g.party).maxSegmentSize
              (objectName g.query.name time) (contentBlock blocks)
              (SaidOf group s₀ (moves ++ [.response r])) (respond s.checker r) :=
            delivers_of_starts hstart _ hshows.moderate (hname g hg time)
          exact hnext.mono (by omega) fun _ => id
      · right
        refine ⟨g, hg, time, certName, blocks, k, hshows.mono hsteps, hasked, ?_⟩
        have hsmooth := Smooth.mono hlossless fun p hp (hunder : p.name.dropLast = _) =>
          he.segment hunique hg hshows hp hunder
        have hfinishes : ∀ e inner, r = .segment e inner → Finishes s.checker r →
            SaidOf group s₀ (moves ++ [.response r]) inner := by
          rintro e inner rfl hfinishes
          exact ⟨moves, e, List.prefix_rfl, hs ▸ hfinishes⟩
        have hnext := hdelivers.responded (hsize g.party).1 (hsize g.party).2 (by omega)
          (hname g hg time) hsmooth hsaid hfinishes
        rw [List.length_append, List.length_singleton, ← Nat.add_assoc]
        exact hnext

/-- What holds at any time of a run. -/
theorem phase_run (ledgerPrefix : Name) (moves : List (Move ι)) (hable : Askable data)
    (hsize : ∀ i, 1 ≤ (group i).maxSegmentSize ∧ (group i).maxSegmentSize < 2 ^ 31)
    (hlength : moves.length < 2 ^ 64) (happart : ∀ i, Apart (group i) data)
    (hmoderate : Throughout (Move.perform group) (Moderate group) (opened ledgerPrefix data n) moves)
    (hauthentic : Throughout (Move.perform group) Authentic (opened ledgerPrefix data n) moves)
    (hlossless : Throughout (Move.perform group) Lossless (opened ledgerPrefix data n) moves)
    (hunique : Unique (moves.foldl (Move.perform group) (opened ledgerPrefix data n))) :
    Answerable (moves.foldl (Move.perform group) (opened ledgerPrefix data n)) ∧
      Phase group data n (opened ledgerPrefix data n) moves
        (moves.foldl (Move.perform group) (opened ledgerPrefix data n)) := by
  induction moves using List.reverseRecOn with
  | nil => exact ⟨by simp [Answerable, opened], .inl (asking_doCheck hable ledgerPrefix)⟩
  | append_singleton moves move ih =>
      obtain ⟨hmoderate, -⟩ := (throughout_concat _ _ _).mp hmoderate
      obtain ⟨hauthentic, ha⟩ := (throughout_concat _ _ _).mp hauthentic
      obtain ⟨hlossless, hl⟩ := (throughout_concat _ _ _).mp hlossless
      rw [List.length_append, List.length_singleton] at hlength
      rw [List.foldl_append, List.foldl_cons, List.foldl_nil] at hunique ⊢
      have hbefore := hunique.before
      obtain ⟨hanswerable, hphase⟩ := ih (by omega) hmoderate hauthentic hlossless hbefore
      obtain ⟨hexplained, -⟩ :=
        stage_run ledgerPrefix moves hsize (by omega) happart hmoderate hauthentic hbefore
      exact ⟨answerable_perform hanswerable hl, hphase.perform rfl hexplained hable hsize (by omega)
        happart hbefore ha hanswerable hl⟩

/-- What a check has come to that fetches the answer of a ledger, with the verdicts that the
validator has said on the Data in it. -/
structure Concluded (group : ι → ServiceConfig) (data : Data) (n : ℕ)
    (steps : List (BroadcastNetwork.Step ι Request))
    (said : (ℕ → Option String) → Prop) (world : List Report) (g : Given ι)
    (certName : Name) (blocks : List Block) (names : List Name) : Prop where
  asked : setLast g.query.name 4 KEY = some certName
  found : ∃ before, before <+: steps ∧
    (exec (LedgerQueries.onQuery (ledgers group g.party) certName)
      ((groupAfter (ledgers group) before).parties g.party).toDagModule).1 = .ok blocks ∧
    Attested (ledgers group g.party) (groupAfter (ledgers group) before) g.party certName names
  told : (∃ (dataVector : List Data) (inner : ℕ → Option String), said inner ∧
      decodeContent (contentBlock blocks) = .ok dataVector ∧ dataVector.map (·.name) = names ∧
      dataVector ≠ [] ∧ world = verdictsTold n data (contentBlock blocks)
        ((List.range dataVector.length).map inner)) ∨
    (∃ e, decodeContent (contentBlock blocks) = .error e) ∧ world = []

theorem concluded_of_shows {steps : List (BroadcastNetwork.Step ι Request)} {g : Given ι}
    {time : UInt64} {certName : Name} {blocks : List Block}
    (h : Shows group steps g time certName blocks) {state : CheckerState} (hd : state.data = data)
    (hn : state.callbacks = n) {said : (ℕ → Option String) → Prop} {inner : ℕ → Option String}
    (hinner : said inner) :
    ∃ names, Concluded group data n steps said (outcome inner state (contentBlock blocks)) g
      certName blocks names := by
  obtain ⟨before, hbefore, hfound⟩ := h.found
  obtain ⟨names, hattested, hnames⟩ :=
    attested_of_query group before g.party (Prod.ext hfound rfl)
  refine ⟨names, h.asked, ⟨before, hbefore, hfound, hattested⟩, ?_⟩
  cases hread : decodeContent (contentBlock blocks) with
  | error e => exact .inr ⟨⟨e, rfl⟩, outcome_unread inner hread⟩
  | ok dataVector =>
      have hnamed := hnames _ dataVector rfl hread
      have helements : (contentBlock blocks).elements = some blocks := Block.elements_wireAll rfl
      have hlength : dataVector.length ≤ blocks.length := by
        rw [decodeContent, helements] at hread
        simpa using length_readContent hread
      have hshort : (wireAll blocks).length ≤ (contentBlock blocks).wire.length := by
        rw [Block.wire, List.length_append, List.length_append]
        exact (Nat.le_add_left _ _).trans (Nat.le_add_left _ _)
      have hmoderate := h.moderate
      have hle := length_le_wireAll blocks
      have hne : dataVector ≠ [] := by
        rintro rfl
        obtain ⟨cert, p, endorsers, hattests⟩ := hattested
        rw [hattests.names] at hnamed
        cases hnamed
      refine .inl ⟨dataVector, inner, hinner, rfl, hnamed, hne, ?_⟩
      rw [outcome_read hread hne (by omega), hd, hn]

/-- A check waits for an answer, or it has been told one failure, or it waits for a segment, or
it fetches no more. -/
def Outcome (group : ι → ServiceConfig) (data : Data) (n : ℕ)
    (steps : List (BroadcastNetwork.Step ι Request)) (said : (ℕ → Option String) → Prop)
    (s : Service ι) : Prop :=
  (s.checker.pending ≠ [] ∨ s.checker.validating ≠ []) ∨
    (∃ error, s.checker.transfer.world = [.failure n data error]) ∨
    ((∃ pipeNo, (DataFetcher.running s.checker.transfer pipeNo).isSome = true) ∨
      s.checker.transfer.consumer.validating ≠ []) ∨
    ∃ g ∈ s.given, ∃ certName blocks names,
      Concluded group data n steps said s.checker.transfer.world g certName blocks names

/-- Where no segment is lost, refused or given up, a check waits for its answer, or it has been
told one failure, or it waits for a segment, or it is told of the content that a ledger has
found, unless this cannot be read: the success, once, or a failure for each Data in it that
the validator refuses. -/
theorem check_concludes (ledgerPrefix : Name) (moves : List (Move ι)) (hable : Askable data)
    (hsize : ∀ i, 1 ≤ (group i).maxSegmentSize ∧ (group i).maxSegmentSize < 2 ^ 31)
    (hlength : moves.length < 2 ^ 64) (happart : ∀ i, Apart (group i) data)
    (hmoderate : Throughout (Move.perform group) (Moderate group) (opened ledgerPrefix data n) moves)
    (hauthentic : Throughout (Move.perform group) Authentic (opened ledgerPrefix data n) moves)
    (hlossless : Throughout (Move.perform group) Lossless (opened ledgerPrefix data n) moves)
    (hunique : Unique (moves.foldl (Move.perform group) (opened ledgerPrefix data n))) :
    Outcome group data n (netSteps moves) (SaidOf group (opened ledgerPrefix data n) moves)
      (moves.foldl (Move.perform group) (opened ledgerPrefix data n)) := by
  obtain ⟨-, hphase⟩ :=
    phase_run ledgerPrefix moves hable hsize hlength happart hmoderate hauthentic hlossless hunique
  rcases hphase with hasking | ⟨g, hg, time, certName, blocks, k, hshows, -, hdelivers⟩
  · by_cases hleft : (moves.foldl (Move.perform group) (opened ledgerPrefix data n)).checker.pending ≠ [] ∨
        (moves.foldl (Move.perform group) (opened ledgerPrefix data n)).checker.validating ≠ []
    · exact .inl hleft
    · obtain ⟨hpending, hvalidating⟩ := not_or.mp hleft
      exact .inr (.inl (hasking.told (not_not.mp hpending) (not_not.mp hvalidating)))
  · rcases hdelivers.settled with hbusy | hkept | ⟨state, inner, hd, hn, hinner, hworld⟩
    · exact .inr (.inr (.inl (.inl hbusy)))
    · exact .inr (.inr (.inl (.inr hkept)))
    · obtain ⟨names, hconcluded⟩ := concluded_of_shows hshows hd hn hinner
      rw [← hworld] at hconcluded
      exact .inr (.inr (.inr ⟨g, hg, certName, blocks, names, hconcluded⟩))

end

end

/-! ## The check of a certificate -/

section
local instance : NdnCxx := plainNdn certDigests

theorem askable_certA : Askable (certData certA [1]) := ⟨recordA, by decide, by decide⟩

theorem lossless_answered (s : Service Bool)
    (h : answerA ∈ (Move.perform servers s (.response (.answer 0 answerA .valid))).signed) :
    Throughout (Move.perform servers) Lossless s [.response (.answer 0 answerA .valid),
      .response (.segment (.data answerA .valid) fun _ => none)] :=
  ⟨trivial, ⟨⟨h, by simp⟩, trivial⟩, trivial⟩

/-- The Interest, the answer and its segment come through. -/
theorem lossless_checkA : Throughout (Move.perform servers) Lossless
    (opened [] (certData certA [1]) 0) checkA := by
  apply (throughout_append _ _ _).mpr
  constructor
  · apply (throughout_iff _ _).mpr
    intro before move hb
    have hmem : move ∈ asked := hb.subset (by simp)
    rcases List.mem_append.mp hmem with hmem | hmem
    · obtain ⟨step, -, rfl⟩ := List.mem_map.mp hmem
      exact trivial
    · rw [List.mem_singleton.mp hmem]
      exact (by decide : queryA.name.countP isParametersDigest ≤ 1)
  · have hsigned :
        answerA ∈ (afterMoves (asked ++ [.response (.answer 0 answerA .valid)])).signed := by
      decide +kernel
    rw [afterMoves, List.foldl_concat] at hsigned
    exact lossless_answered _ hsigned

theorem check_concludes_checkA : Outcome servers (certData certA [1]) 0 (netSteps checkA)
    (SaidOf servers (opened [] (certData certA [1]) 0) checkA)
    (checkA.foldl (Move.perform servers) (opened [] (certData certA [1]) 0)) := by
  have hsize : ∀ i, 1 ≤ (servers i).maxSegmentSize ∧ (servers i).maxSegmentSize < 2 ^ 31 :=
    fun i => ⟨(by decide : 1 ≤ 8000), (by decide : 8000 < 2 ^ 31)⟩
  have hmoderate : Throughout (Move.perform servers) (Moderate servers)
      (opened [] (certData certA [1]) 0) checkA := by decide +kernel
  have hauthentic : Throughout (Move.perform servers) Authentic
      (opened [] (certData certA [1]) 0) checkA := by decide +kernel
  have hlength : checkA.length < 2 ^ 64 := by decide
  have hunique : Unique (checkA.foldl (Move.perform servers) (opened [] (certData certA [1]) 0)) :=
    unique_checkA
  exact check_concludes [] checkA askable_certA hsize hlength apart_servers hmoderate hauthentic
    lossless_checkA hunique

end
end CertLedger.CheckOutcomes
