import CertLedger.AttestedAnswers
import CertLedger.CheckerOrigins
import CertLedger.PipelineRuns

/-!
# A check at a group of ledgers

The ledgers of a group answer Interests while a checker checks some Data. The network may
lose, delay, repeat and forge what comes back to the checker. Where its validator passes
only what the ledgers have signed, a success is told only with the block of one answer of one
ledger, and so with records that the group has published.
-/
namespace CertLedger.CheckNetwork
open Std TlvCodec FallibleState NdnObjects NdnPackets RecordCodec EdgeStateCodec DagEngine
open LedgerHandlers LedgerSafety EventRuns BroadcastNetwork LedgerNetwork NetworkRuns SegmentPipeline
open SinglePipe SegmentRuns PipelineRuns RecordChecker CheckerRuns CheckerOrigins QueryAnswers AttestedAnswers
open PlainNdn

section
variable [NdnCxx]

/-! ## The turns of one check -/

section
variable {data : Data} {n : ℕ} {pending : List Expressed}
  {validating : List (CheckerState × Packet)}

/-- What is on its way is for the check of the Data. -/
structure Mine (data : Data) (n : ℕ) (pending : List Expressed)
    (validating : List (CheckerState × Packet)) : Prop where
  owned : Owned n pending validating
  pending : ∀ e ∈ pending, e.state.data = data ∧ e.interest.canBePrefix = true ∧
    setLast data.name 4 RECORD = some e.interest.name
  validating : ∀ v ∈ validating, v.1.data = data ∧ Asked data v.2.name

/-- A turn of the check tells failures only, and starts a transfer only with a validated answer
to the Interest of the check. -/
structure Goes (data : Data) (n : ℕ) (passed : List Packet) (turn : Turn) : Prop where
  mine : Mine data n turn.pending turn.validating
  failures : ∀ report ∈ turn.reports, ∃ error, report = .failure n data error
  started : ∀ start ∈ turn.start, start.1.data = data ∧ start.1.callbacks = n ∧
    ∃ p ∈ passed, isRecordName p.name = true ∧ Asked data p.name ∧ start.2 = p.name.dropLast

theorem mine_nil : Mine data n [] [] := ⟨owned_nil n, by simp, by simp⟩

theorem goes_same (h : Mine data n pending validating) (passed : List Packet) :
    Goes data n passed ⟨pending, validating, [], none⟩ := ⟨h, by simp, by simp⟩

theorem goes_failed {state : CheckerState} (hd : state.data = data) (hn : state.callbacks = n)
    (error : Failure) (passed : List Packet) :
    Goes data n passed ⟨[], [], failed state error, none⟩ := by
  refine ⟨mine_nil, fun report hr => ⟨error, ?_⟩, by simp⟩
  rw [List.mem_singleton.mp hr, hd, hn]

theorem goes_judged {state : CheckerState} (hd : state.data = data) (hn : state.callbacks = n)
    {p : Packet} (hasked : Asked data p.name) {refused : Option String} {passed : List Packet}
    (hp : refused = none → p ∈ passed) : Goes data n passed (judged [] [] state p refused) := by
  cases refused with
  | some info => exact goes_failed hd hn _ passed
  | none =>
      simp only [judged]
      split_ifs with hname
      · refine ⟨mine_nil, by simp, fun start hstart => ?_⟩
        obtain rfl := Option.mem_some.mp hstart
        exact ⟨hd, hn, p, hp rfl, hname, hasked, rfl⟩
      · exact goes_failed hd hn _ passed
      · exact goes_failed hd hn _ passed

theorem goes_redispatched {state : CheckerState} (hd : state.data = data)
    (hn : state.callbacks = n) (ledgerPrefix : Name) (passed : List Packet) :
    Goes data n passed (redispatched [] [] state ledgerPrefix) := by
  rw [redispatched]
  split_ifs
  · exact goes_failed hd hn _ passed
  · cases hi : state.exhaustRetries.2.makeInterest ledgerPrefix with
    | none => exact goes_same mine_nil passed
    | some interest =>
        obtain ⟨hcan, hname⟩ := asks_makeInterest hi
        refine goes_same ⟨⟨le_rfl, ?_, by simp⟩, ?_, by simp⟩ passed
        · intro e he
          rw [List.mem_singleton.mp he]
          exact hn
        · intro e he
          rw [List.mem_singleton.mp he]
          exact ⟨hd, hcan, hd ▸ hname⟩

/-- Data that answers the Interest of the check begins with its name. -/
theorem Mine.asked (h : Mine data n pending validating) {e : Expressed} (he : e ∈ pending)
    {name : Name} (hmatch : e.interest.matchesName name = true) : Asked data name := by
  obtain ⟨-, hcan, hname⟩ := h.pending e he
  rw [Interest.matchesName, if_pos hcan] at hmatch
  exact ⟨e.interest.name, hname, List.isPrefixOf_iff_prefix.mp hmatch⟩

theorem goes_turn {c : Checker} (h : Mine data n c.pending c.validating) (r : Response) :
    Goes data n (passedAnswers c r) (turn c.pending c.validating r) := by
  have hcomes := comes_turn h.owned r
  generalize turn c.pending c.validating r = t at hcomes
  cases hcomes with
  | same => exact goes_same h _
  | @held e p hpending _ hmatch =>
      have he : e ∈ c.pending := by simp [hpending]
      have hn := h.owned.pending e he
      refine goes_same ⟨⟨le_rfl, by simp, by simpa using hn⟩, by simp, ?_⟩ _
      simpa using ⟨(h.pending e he).1, h.asked he hmatch⟩
  | @answered e p refused hpending _ hmatch hr =>
      have he : e ∈ c.pending := by simp [hpending]
      refine goes_judged (h.pending e he).1 (h.owned.pending e he) (h.asked he hmatch) ?_
      intro hnone
      rw [hr hnone]
      simp [passedAnswers, passedFor, hpending, hmatch]
  | @nacked e hpending =>
      have he : e ∈ c.pending := by simp [hpending]
      exact goes_failed (h.pending e he).1 (h.owned.pending e he) _ _
  | @timedOut e hpending =>
      have he : e ∈ c.pending := by simp [hpending]
      exact goes_redispatched (h.pending e he).1 (h.owned.pending e he) _ _
  | @decided v refused _ hvalidating hr =>
      have hv : v ∈ c.validating := by simp [hvalidating]
      obtain ⟨hd, hasked⟩ := h.validating v hv
      refine goes_judged hd (h.owned.validating v hv) hasked ?_
      rintro rfl
      rw [hr]
      simp [passedAnswers, passedFor, hvalidating]

end

/-! ## The stages of the check -/

/-- No transfer has been started. -/
structure Waits (data : Data) (n : ℕ) (c : Checker) : Prop where
  mine : Mine data n c.pending c.validating
  transfer : c.transfer = { pipeline := .new {}, world := c.transfer.world }
  silent : c.pending ≠ [] ∨ c.validating ≠ [] → c.transfer.world = []
  failures : ∀ report ∈ c.transfer.world, ∃ error, report = .failure n data error

/-- What has been told of the content of a block. -/
def Concluded (state : CheckerState) (block : Block) (world : List Report) : Prop :=
  ∃ inner, world = (exec (onContent inner state block) []).2

/-- The segments of one object are fetched. -/
structure Fetches (data : Data) (n : ℕ) (limit size : ℕ) (versionedPrefix : Name) (block : Block)
    (c : Checker) : Prop where
  pending : c.pending = []
  validating : c.validating = []
  transfer : ∃ (state : CheckerState) (hb : block.wire.length < 2 ^ 31) (w : Tally),
    c.checked = some state ∧ state.data = data ∧ state.callbacks = n ∧
      Safe (ofBlock { maxSegmentSize := size } versionedPrefix hb)
        (Concluded state block) [] limit w c.transfer

/-- A transfer of the segments under a name has just been started. -/
structure Starts (data : Data) (n : ℕ) (versionedPrefix : Name) (c : Checker) : Prop where
  pending : c.pending = []
  validating : c.validating = []
  transfer : ∃ state : CheckerState, c.checked = some state ∧ state.data = data ∧
    state.callbacks = n ∧ c.transfer = begin {} versionedPrefix []

/-- The packets on which the validator decides with a response, and passes. -/
def passedPackets (c : Checker) : Response → List Packet
  | .segment e _ => passed c.transfer e
  | r => passedAnswers c r

section
variable {data : Data} {n limit size : ℕ} {versionedPrefix : Name} {block : Block} {c : Checker}

theorem Waits.told (h : Waits data n c) {passed : List Packet} {t : Turn}
    (ht : Goes data n passed t)
    (hturned : Turned n t)
    (hsilent : t.pending ≠ [] ∨ t.validating ≠ [] → c.transfer.world = []) :
    Waits data n (t.told c) := by
  refine ⟨ht.mine, ?_, fun hleft => ?_, fun report hr => ?_⟩
  · rw [Turn.told, h.transfer]
  · have hnone : t.reports = [] := by
      by_contra hreports
      obtain ⟨hp, hv⟩ := hturned.settled (.inl hreports)
      simp [Turn.told, hp, hv] at hleft
    change c.transfer.world ++ t.reports = []
    rw [hnone, List.append_nil]
    exact hsilent hleft
  · rcases List.mem_append.mp hr with hr | hr
    · exact h.failures report hr
    · exact ht.failures report hr

theorem Waits.segment (h : Waits data n c) (e : SegmentPipeline.Event) (inner : ℕ → Option String) :
    respond c (.segment e inner) = c := by
  apply respond_segment_empty
  · rw [h.transfer]
    exact idle_new {}
  · rw [h.transfer]

theorem waits_doCheck (ledgerPrefix : Name) (data : Data) (n : ℕ) :
    Waits data n (exec (doCheck ledgerPrefix data n) .new).2 := by
  let state : CheckerState := { data := data, callbacks := n }
  have hturned : Turned n (redispatched [] [] state ledgerPrefix) :=
    turned_redispatched state ledgerPrefix
  have hgoes : Goes state.data state.callbacks [] (redispatched [] [] state ledgerPrefix) :=
    goes_redispatched rfl rfl ledgerPrefix []
  have hnew : Waits data n .new := ⟨mine_nil, rfl, fun _ => rfl, by simp [Checker.new]⟩
  have hbegun : (exec (doCheck ledgerPrefix data n) .new).2 =
      (redispatched [] [] state ledgerPrefix).told .new :=
    @begun_eq _ n .new rfl rfl ⟨ledgerPrefix, data, []⟩
  rw [hbegun]
  exact hnew.told hgoes hturned fun _ => rfl

/-- A validated answer starts a transfer under its name, and nothing else does. -/
theorem Waits.responded (h : Waits data n c) (r : Response) :
    (Waits data n (respond c r) ∧ (turn c.pending c.validating r).start = none) ∨
      ∃ p ∈ passedPackets c r, isRecordName p.name = true ∧ Asked data p.name ∧
        Starts data n p.name.dropLast (respond c r) := by
  by_cases hr : ∃ e inner, r = .segment e inner
  · obtain ⟨e, inner, rfl⟩ := hr
    left
    rw [h.segment e inner]
    exact ⟨h, rfl⟩
  · simp only [not_exists] at hr
    have hgoes := goes_turn h.mine r
    have hturned := turned_turn h.mine.owned r
    have hpassed : passedPackets c r = passedAnswers c r := by
      cases r with
      | segment e inner => exact absurd rfl (hr e inner)
      | _ => rfl
    have hsilent : (turn c.pending c.validating r).pending ≠ [] ∨
        (turn c.pending c.validating r).validating ≠ [] ∨
          (turn c.pending c.validating r).start ≠ none → c.transfer.world = [] := by
      intro hgoesOn
      apply h.silent
      by_contra hnothing
      obtain ⟨hp, hv⟩ := not_or.mp hnothing
      rw [not_not.mp hp, not_not.mp hv, turn_nil] at hgoesOn
      simp at hgoesOn
    rw [hpassed, respond_eq c hr]
    generalize turn c.pending c.validating r = t at hgoes hturned hsilent
    cases hstart : t.start with
    | none =>
        left
        rw [Turn.perform, hstart]
        exact ⟨h.told hgoes hturned fun hleft => hsilent (hleft.imp id .inl), rfl⟩
    | some start =>
        right
        obtain ⟨hd, hn, p, hp, hname, hasked, hversioned⟩ := hgoes.started start hstart
        obtain ⟨hpending, hvalidating⟩ := hturned.settled (.inr (by simp [hstart]))
        have hworld := hsilent (.inr (.inr (by simp [hstart])))
        have hreports := (hturned.start start hstart).2
        refine ⟨p, hp, hname, hasked, ?_⟩
        have htransfer : (t.told c).transfer = { pipeline := .new {}, world := [] } := by
          rw [Turn.told, h.transfer, hworld, hreports]
          rfl
        rw [perform_start hstart, htransfer, hversioned]
        exact ⟨hpending, hvalidating, start.1, rfl, hd, hn, rfl⟩

theorem Starts.fetches (h : Starts data n versionedPrefix c) (size : ℕ)
    (hb : block.wire.length < 2 ^ 31) : Fetches data n 1 size versionedPrefix block c := by
  obtain ⟨state, hchecked, hd, hn, htransfer⟩ := h.transfer
  exact ⟨h.pending, h.validating, state, hb, {}, hchecked, hd, hn, htransfer ▸ safe_begin {} []⟩

theorem Fetches.mono (h : Fetches data n limit size versionedPrefix block c) {limit' : ℕ}
    (hle : limit ≤ limit') : Fetches data n limit' size versionedPrefix block c := by
  obtain ⟨state, hb, w, hchecked, hd, hn, hsafe⟩ := h.transfer
  exact ⟨h.pending, h.validating, state, hb, w, hchecked, hd, hn, hsafe.mono hle⟩

/-- The transfer goes on with segments of the object. -/
theorem Fetches.responded (h : Fetches data n limit size versionedPrefix block c)
    (hs : 1 ≤ size) (hs' : size < 2 ^ 31) (hlimit : limit ≤ 2 ^ 64) (r : Response)
    (hv : ∀ p ∈ passedPackets c r, p.name.dropLast = versionedPrefix →
      p ∈ SegmentProducer.populateStore { maxSegmentSize := size } versionedPrefix block) :
    Fetches data n (limit + 1) size versionedPrefix block (respond c r) := by
  obtain ⟨state, hb, w, hchecked, hd, hn, hsafe⟩ := h.transfer
  have hnothing : (∀ e inner, r ≠ .segment e inner) →
      Fetches data n (limit + 1) size versionedPrefix block (respond c r) := by
    intro hr
    rw [respond_nothing_left h.pending h.validating hr]
    exact ⟨h.pending, h.validating, state, hb, w, hchecked, hd, hn, hsafe.mono (Nat.le_succ limit)⟩
  cases r with
  | segment e inner =>
      rw [respond_segment, hchecked]
      have hframe : Framed (ofBlock { maxSegmentSize := size } versionedPrefix hb) block :=
        framed_ofBlock hs hb
      obtain ⟨w', hw'⟩ := hsafe.handle hframe ⟨inner, rfl⟩ hlimit {} e
        fun p hp => vouched_ofBlock hs hs' hb (hv p hp)
      exact ⟨h.pending, h.validating, state, hb, w', rfl, hd, hn, hw'⟩
  | answer k p v => exact hnothing (by simp)
  | nack k => exact hnothing (by simp)
  | timeout k => exact hnothing (by simp)
  | verdict k refused => exact hnothing (by simp)

end

/-! ## Ledgers and a checker -/

/-- An answer that a ledger has given to an Interest. -/
structure Given (ι : Type) where
  party : ι
  query : Interest
  answer : Answer

structure Service (ι : Type) where
  net : Network ι LedgerModule Record
  given : List (Given ι) := []
  checker : Checker

inductive Move (ι : Type) where
  /-- the ledgers go on among themselves -/
  | group (step : BroadcastNetwork.Step ι Request)
  /-- an Interest comes to a ledger, from the checker or from anybody else -/
  | interest (i : ι) (query : Interest) (time : UInt64)
  /-- something comes back to the checker -/
  | response (r : Response)

/-- The name of the object that answers a query. -/
def objectName (query : Name) (time : UInt64) : Name := query ++ [dataComponent, fromVersion time]

def contentBlock (blocks : List Block) : Block :=
  ⟨tlvContent, wireAll blocks, tlvContent_pos, tlvContent_lt⟩

section
variable {ι : Type} [DecidableEq ι] (group : ι → ServiceConfig)

/-- Everything that the ledgers have signed in their answers. -/
def Service.signed (s : Service ι) : List Packet := s.given.flatMap (·.answer.signed)

def Service.serve (s : Service ι) (i : ι) (query : Interest) (time : UInt64) : Service ι :=
  let served := exec (onInterest (group i) query time) (s.net.parties i).toDagModule
  { s with
    net := { s.net with
      parties := Function.update s.net.parties i ((s.net.parties i).withDag served.2) }
    given := s.given ++ (served.1.toOption.getD []).map fun answer => ⟨i, query, answer⟩ }

def Move.perform (s : Service ι) : Move ι → Service ι
  | .group step => { s with net := s.net.perform (fun i => machine (ledgers group i)) step }
  | .interest i query time => s.serve group i query time
  | .response r => { s with checker := respond s.checker r }

/-- New ledgers, and a new checker with one check. It may get its first answer at any time. -/
def opened (ledgerPrefix : Name) (data : Data) (n : ℕ) : Service ι where
  net := newGroup
  checker := (exec (doCheck ledgerPrefix data n) .new).2

/-- The block with which a ledger would answer a query for a certificate. -/
def recordBlock (config : LedgerConfig) (d : DagModule) (query : Interest) : Option Block := do
  let certName ← setLast query.name 4 KEY
  let blocks ← (exec (LedgerQueries.onQuery config certName) d).1.toOption
  return contentBlock blocks

/-! ### What is assumed of the outside -/

/-- The validator of the checker passes only what a ledger has signed by then. -/
def Authentic (s : Service ι) : Move ι → Prop
  | .response r => ∀ p ∈ passedPackets s.checker r, p ∈ s.signed
  | _ => True

/-- An object with records is below 2 GiB. -/
def Moderate (s : Service ι) : Move ι → Prop
  | .interest i query _ =>
      ∀ block ∈ recordBlock (ledgers group i) (s.net.parties i).toDagModule query,
        block.wire.length < 2 ^ 31
  | _ => True

instance (s : Service ι) : (move : Move ι) → Decidable (Authentic s move)
  | .response r => inferInstanceAs (Decidable (∀ p ∈ passedPackets s.checker r, p ∈ s.signed))
  | .group _ => .isTrue trivial
  | .interest _ _ _ => .isTrue trivial

instance (s : Service ι) : (move : Move ι) → Decidable (Moderate group s move)
  | .interest i query _ => inferInstanceAs (Decidable (∀ block ∈
      recordBlock (ledgers group i) (s.net.parties i).toDagModule query,
        block.wire.length < 2 ^ 31))
  | .group _ => .isTrue trivial
  | .response _ => .isTrue trivial

/-- No name has been used for two objects. -/
def Unique (s : Service ι) : Prop := ∀ g ∈ s.given, ∀ g' ∈ s.given, ∀ producer producer',
  g.answer = .object producer → g'.answer = .object producer' →
    producer.versionedPrefix = producer'.versionedPrefix → producer = producer'

/-- The records of the Data are not asked for among the internal objects of a ledger. -/
def Apart (config : ServiceConfig) (data : Data) : Prop :=
  ∀ name, setLast data.name 4 RECORD = some name →
    ¬ name <+: config.instancePrefix ++ [internal] ∧ ¬ config.instancePrefix ++ [internal] <+: name

/-! ### Why an answer was given -/

/-- The part of a run that the ledgers have among themselves. -/
def netSteps (moves : List (Move ι)) : List (BroadcastNetwork.Step ι Request) :=
  moves.filterMap fun move => match move with
    | .group step => some step
    | _ => none

/-- The answer is an object with what a ledger has found for a certificate at some time. -/
structure Shows (steps : List (BroadcastNetwork.Step ι Request)) (g : Given ι) (time : UInt64)
    (certName : Name) (blocks : List Block) : Prop where
  answer : g.answer = sendResponse (group g.party) g.query.name (contentBlock blocks) time
  asked : setLast g.query.name 4 KEY = some certName
  moderate : (contentBlock blocks).wire.length < 2 ^ 31
  found : ∃ before, before <+: steps ∧
    (exec (LedgerQueries.onQuery (ledgers group g.party) certName)
      ((groupAfter (ledgers group) before).parties g.party).toDagModule).1 = .ok blocks

/-- Why a ledger has signed an answer, if it has signed any. -/
def Caused (steps : List (BroadcastNetwork.Step ι Request)) (g : Given ι) : Prop :=
  g.answer.Plain ∨ (∃ time, g.answer = sendNack g.query.name time) ∨
    (∃ time certName blocks, Shows group steps g time certName blocks) ∨
    ∃ time block, (group g.party).instancePrefix ++ [internal] <+: g.query.name ∧
      g.answer = sendResponse (group g.party) g.query.name block time

/-- How the answers and the ledgers of a service have come about. -/
structure Explained (moves : List (Move ι)) (s : Service ι) : Prop where
  net : s.net = groupAfter (ledgers group) (netSteps moves)
  given : ∀ g ∈ s.given, Caused group (netSteps moves) g

variable {group} {data : Data} {n : ℕ}

theorem Shows.mono {steps steps' : List (BroadcastNetwork.Step ι Request)} {g : Given ι}
    {time : UInt64} {certName : Name} {blocks : List Block}
    (h : Shows group steps g time certName blocks) (hle : steps <+: steps') :
    Shows group steps' g time certName blocks := by
  obtain ⟨before, hbefore, hrun⟩ := h.found
  exact ⟨h.answer, h.asked, h.moderate, before, hbefore.trans hle, hrun⟩

theorem Caused.mono {steps steps' : List (BroadcastNetwork.Step ι Request)} {g : Given ι}
    (h : Caused group steps g) (hle : steps <+: steps') : Caused group steps' g := by
  rcases h with h | h | ⟨time, certName, blocks, h⟩ | h
  · exact .inl h
  · exact .inr (.inl h)
  · exact .inr (.inr (.inl ⟨time, certName, blocks, h.mono hle⟩))
  · exact .inr (.inr (.inr h))

/-- An Interest changes no ledger, and every answer to it has its cause. -/
theorem Explained.serve {moves : List (Move ι)} {s : Service ι} (h : Explained group moves s)
    {i : ι} {query : Interest} {time : UInt64}
    (hmoderate : Moderate group s (.interest i query time)) :
    (s.serve group i query time).net = s.net ∧
      ∀ g ∈ (s.serve group i query time).given, Caused group (netSteps moves) g := by
  have hsecure := secure_group (ledgers group) (netSteps moves) i
  rw [← h.net] at hsecure
  have hreliable := hsecure.fair.legible.reliable
  have hstill :=
    respects_onInterest Still.refl Still.trans Still.getter (group i) query time _ hreliable
  rcases hrun : exec (onInterest (group i) query time) (s.net.parties i).toDagModule with ⟨res, d⟩
  rw [hrun] at hstill
  obtain rfl : d = (s.net.parties i).toDagModule := hstill
  rw [Service.serve, hrun]
  refine ⟨?_, fun g hg => ?_⟩
  · have hsame : (s.net.parties i).withDag (s.net.parties i).toDagModule = s.net.parties i := rfl
    dsimp only
    rw [hsame, Function.update_eq_self]
  · rcases List.mem_append.mp hg with hg | hg
    · exact h.given g hg
    · obtain ⟨answer, ha, rfl⟩ := List.mem_map.mp hg
      cases res with
      | error e => exact absurd ha List.not_mem_nil
      | ok answers =>
          rcases (answers_of_onInterest hreliable hrun).2 answer ha with hquery | ⟨hname, hinternal⟩
          · rcases answer_of_query hquery with
              hplain | hnack | ⟨certName, blocks, hset, hfound, hanswer⟩
            · exact .inl hplain
            · exact .inr (.inl ⟨time, hnack⟩)
            · refine .inr (.inr (.inl ⟨time, certName, blocks, hanswer, hset, ?_, netSteps moves,
                List.prefix_rfl, ?_⟩))
              · apply hmoderate
                rw [recordBlock, hset]
                simp [hfound, Except.toOption]
              · rw [← h.net, hfound]
          · rcases answer_of_internal hinternal with hplain | hnack | ⟨block, hanswer⟩
            · exact .inl hplain
            · exact .inr (.inl ⟨time, hnack⟩)
            · exact .inr (.inr (.inr ⟨time, block, hname, hanswer⟩))

omit [DecidableEq ι] in
theorem netSteps_append (moves : List (Move ι)) (move : Move ι) :
    netSteps moves <+: netSteps (moves ++ [move]) := by
  rw [netSteps, netSteps, List.filterMap_append]
  exact List.prefix_append _ _

theorem Explained.perform {moves : List (Move ι)} {s : Service ι} (h : Explained group moves s)
    {move : Move ι} (hmoderate : Moderate group s move) :
    Explained group (moves ++ [move]) (move.perform group s) := by
  have happend : netSteps (moves ++ [move]) = netSteps moves ++ netSteps [move] :=
    List.filterMap_append
  have hle := netSteps_append moves move
  cases move with
  | group step =>
      refine ⟨?_, fun g hg => (h.given g hg).mono hle⟩
      have hstep : netSteps [Move.group step] = [step] := rfl
      have hafter : groupAfter (ledgers group) (netSteps moves ++ [step]) =
          (groupAfter (ledgers group) (netSteps moves)).perform
            (fun i => machine (ledgers group i)) step := after_concat _ _ _
      rw [happend, hstep, hafter, ← h.net]
      rfl
  | interest i query time =>
      have hstep : netSteps (moves ++ [Move.interest i query time]) = netSteps moves :=
        happend.trans (List.append_nil _)
      obtain ⟨hnet, hgiven⟩ := h.serve hmoderate
      exact ⟨hstep ▸ hnet.trans h.net, hstep ▸ hgiven⟩
  | response r =>
      have hstep : netSteps (moves ++ [Move.response r]) = netSteps moves :=
        happend.trans (List.append_nil _)
      exact ⟨hstep ▸ h.net, hstep ▸ h.given⟩

/-! ### What is signed -/

/-- An answer with content is an object under its name. -/
theorem object_of_sendResponse (config : ServiceConfig) (name : Name) (block : Block)
    (time : UInt64) :
    ∃ producer, sendResponse config name block time = .object producer ∧
      producer.versionedPrefix = objectName name time ∧
      producer.store = SegmentProducer.populateStore { maxSegmentSize := config.maxSegmentSize }
        (objectName name time) block := by
  have hnew := @new_versioned { maxSegmentSize := config.maxSegmentSize } block
    (name ++ [dataComponent]) time time
  rw [List.append_assoc, List.singleton_append] at hnew
  rw [sendResponse]
  generalize Producer.new { maxSegmentSize := config.maxSegmentSize }
    (name ++ [dataComponent, fromVersion time]) block time = producer at hnew
  refine ⟨producer, rfl, ?_, ?_⟩
  · rw [hnew, objectName]
  · rw [hnew, objectName]

/-- What a ledger has signed is a nack, or a segment of an object that it has made from records
or keeps for itself. -/
theorem Explained.signed {moves : List (Move ι)} {s : Service ι} (h : Explained group moves s)
    {p : Packet} (hp : p ∈ s.signed) :
    (∃ name time, p.name = name ++ [nackComponent, fromTimestamp time]) ∨
      ∃ g ∈ s.given, ∃ producer time k, g.answer = .object producer ∧ p ∈ producer.store ∧
        producer.versionedPrefix = objectName g.query.name time ∧
        p.name = objectName g.query.name time ++ [fromSegment k] ∧
        ((∃ certName blocks, Shows group (netSteps moves) g time certName blocks) ∨
          (group g.party).instancePrefix ++ [internal] <+: g.query.name) := by
  obtain ⟨g, hg, hp⟩ := List.mem_flatMap.mp hp
  have hobject : ∀ block time, g.answer = sendResponse (group g.party) g.query.name block time →
      ∃ producer k, g.answer = .object producer ∧ p ∈ producer.store ∧
        producer.versionedPrefix = objectName g.query.name time ∧
        p.name = objectName g.query.name time ++ [fromSegment k] := by
    intro block time hanswer
    obtain ⟨producer, hproducer, hversioned, hstore⟩ :=
      object_of_sendResponse (group g.party) g.query.name block time
    rw [← hversioned] at hstore
    have hhosts : Hosts producer producer.versionedPrefix :=
      @hosts_populateStore { maxSegmentSize := (group g.party).maxSegmentSize } block producer
        hstore
    rw [hversioned] at hhosts
    rw [← hanswer] at hproducer
    rw [hproducer, Answer.signed] at hp
    obtain ⟨k, hk⟩ := List.getElem?_of_mem hp
    exact ⟨producer, k, hproducer, hp, hversioned, hhosts.named k p hk⟩
  rcases h.given g hg with hplain | ⟨time, hnack⟩ | ⟨time, certName, blocks, hshows⟩ |
    ⟨time, block, hname, hanswer⟩
  · cases hanswer : g.answer with
    | nack q =>
        rw [hanswer] at hplain
        exact hplain.elim
    | object producer =>
        rw [hanswer] at hplain
        exact hplain.elim
    | _ => simp [hanswer, Answer.signed] at hp
  · rw [hnack] at hp
    rw [List.mem_singleton.mp hp]
    exact .inl ⟨g.query.name, time, rfl⟩
  · obtain ⟨producer, k, hproducer, hstore, hversioned, hpname⟩ := hobject _ time hshows.answer
    exact .inr ⟨g, hg, producer, time, k, hproducer, hstore, hversioned, hpname,
      .inl ⟨certName, blocks, hshows⟩⟩
  · obtain ⟨producer, k, hproducer, hstore, hversioned, hpname⟩ := hobject block time hanswer
    exact .inr ⟨g, hg, producer, time, k, hproducer, hstore, hversioned, hpname, .inr hname⟩

/-! ### What a check comes to -/

variable (group) in
/-- The check waits for an answer, or fetches an answer that shows what a ledger has found. -/
def Stage (data : Data) (n : ℕ) (moves : List (Move ι)) (s : Service ι) : Prop :=
  Waits data n s.checker ∨ ∃ g ∈ s.given, ∃ time certName blocks k,
    Shows group (netSteps moves) g time certName blocks ∧
      Asked data (objectName g.query.name time ++ [fromSegment k]) ∧
      Fetches data n (1 + moves.length) (group g.party).maxSegmentSize
        (objectName g.query.name time) (contentBlock blocks) s.checker

variable (group) in
theorem given_perform (s : Service ι) (move : Move ι) :
    s.given <+: (move.perform group s).given := by
  cases move with
  | group step => exact List.prefix_rfl
  | interest i query time => exact List.prefix_append _ _
  | response r => exact List.prefix_rfl

theorem Unique.before {s : Service ι} {move : Move ι} (h : Unique (move.perform group s)) :
    Unique s := by
  have hle := (given_perform group s move).subset
  intro g hg g' hg'
  exact h g (hle hg) g' (hle hg')

omit [NdnCxx] in
theorem not_isRecordName_nack (name : Name) (time : UInt64) :
    isRecordName (name ++ [nackComponent, fromTimestamp time]) = false := by
  have hlast : getLast (name ++ [nackComponent, fromTimestamp time]) 2 = some nackComponent := by
    simp [getLast]
  have hnot : isVersion nackComponent = false := by decide
  rw [isRecordName, hlast]
  simp [hnot]

/-- The segment of an object that the ledgers have shown is one of its store. -/
theorem Explained.segment {moves : List (Move ι)} {s : Service ι} (h : Explained group moves s)
    (hunique : Unique s) {g : Given ι} (hg : g ∈ s.given) {time : UInt64} {certName : Name}
    {blocks : List Block} (hshows : Shows group (netSteps moves) g time certName blocks)
    {p : Packet} (hp : p ∈ s.signed) (hname : p.name.dropLast = objectName g.query.name time) :
    p ∈ SegmentProducer.populateStore { maxSegmentSize := (group g.party).maxSegmentSize }
      (objectName g.query.name time) (contentBlock blocks) := by
  obtain ⟨producer, hproducer, hversioned, hstore⟩ :=
    object_of_sendResponse (group g.party) g.query.name (contentBlock blocks) time
  rcases h.signed hp with ⟨name, time', hnack⟩ | ⟨g', hg', producer', time', k, hanswer', hmem,
    hversioned', hpname, -⟩
  · have hlast : getLast (objectName g.query.name time) 1 = some (fromVersion time) := by
      simp [getLast, objectName]
    have hlast' : getLast p.name.dropLast 1 = some nackComponent := by
      rw [hnack]
      simp [getLast]
    rw [hname, hlast] at hlast'
    have hversion := isVersion_fromVersion time
    rw [Option.some.inj hlast'] at hversion
    exact absurd hversion (by decide)
  · rw [hpname, List.dropLast_concat] at hname
    have hsame : producer' = producer := by
      apply hunique g' hg' g hg producer' producer hanswer' (hshows.answer.trans hproducer)
      rw [hversioned', hname, hversioned]
    rw [hsame, hstore] at hmem
    exact hmem

/-- A validated answer that starts a transfer shows what a ledger has found. -/
theorem Explained.shows {moves : List (Move ι)} {s : Service ι} (h : Explained group moves s)
    (happart : ∀ i, Apart (group i) data) {p : Packet} (hp : p ∈ s.signed)
    (hname : isRecordName p.name = true) (hasked : Asked data p.name) :
    ∃ g ∈ s.given, ∃ time certName blocks k, Shows group (netSteps moves) g time certName blocks ∧
      p.name = objectName g.query.name time ++ [fromSegment k] := by
  rcases h.signed hp with ⟨name, time, hnack⟩ | ⟨g, hg, producer, time, k, -, -, -, hpname, hwhy⟩
  · rw [hnack, not_isRecordName_nack] at hname
    exact absurd hname Bool.false_ne_true
  · rcases hwhy with ⟨certName, blocks, hshows⟩ | hinternal
    · exact ⟨g, hg, time, certName, blocks, k, hshows, hpname⟩
    · obtain ⟨name, hset, hle⟩ := hasked
      obtain ⟨hbelow, habove⟩ := happart g.party name hset
      have hinside : (group g.party).instancePrefix ++ [internal] <+: p.name := by
        rw [hpname, objectName, List.append_assoc]
        exact hinternal.trans (List.prefix_append _ _)
      rcases List.prefix_or_prefix_of_prefix hle hinside with hshort | hlong
      · exact absurd hshort hbelow
      · exact absurd hlong habove

theorem Stage.later {moves : List (Move ι)} {s : Service ι} {move : Move ι}
    (h : Stage group data n moves s)
    (hchecker : (move.perform group s).checker = s.checker) :
    Stage group data n (moves ++ [move]) (move.perform group s) := by
  rcases h with hwaits | ⟨g, hg, time, certName, blocks, k, hshows, hasked, hfetches⟩
  · left
    rwa [hchecker]
  · right
    refine ⟨g, (given_perform group s move).subset hg, time, certName, blocks, k,
      hshows.mono (netSteps_append moves move), hasked, ?_⟩
    rw [hchecker]
    exact hfetches.mono (by simp)

theorem Stage.perform {moves : List (Move ι)} {s : Service ι} {move : Move ι}
    (h : Stage group data n moves s) (he : Explained group moves s)
    (hsize : ∀ i, 1 ≤ (group i).maxSegmentSize ∧ (group i).maxSegmentSize < 2 ^ 31)
    (hlength : moves.length < 2 ^ 64) (happart : ∀ i, Apart (group i) data) (hunique : Unique s)
    (hauthentic : Authentic s move) :
    Stage group data n (moves ++ [move]) (move.perform group s) := by
  cases move with
  | group step => exact h.later rfl
  | interest i query time => exact h.later rfl
  | response r =>
      have hsteps := netSteps_append moves (.response r)
      rcases h with hwaits | ⟨g, hg, time, certName, blocks, k, hshows, hasked, hfetches⟩
      · rcases hwaits.responded r with ⟨hwaits', -⟩ | ⟨p, hp, hname, hasked, hstart⟩
        · exact .inl hwaits'
        · right
          obtain ⟨g, hg, time, certName, blocks, k, hshows, hpname⟩ :=
            he.shows happart (hauthentic p hp) hname hasked
          refine ⟨g, hg, time, certName, blocks, k, hshows.mono hsteps, hpname ▸ hasked, ?_⟩
          rw [hpname, List.dropLast_concat] at hstart
          exact (hstart.fetches (group g.party).maxSegmentSize hshows.moderate).mono (by omega)
      · right
        refine ⟨g, hg, time, certName, blocks, k, hshows.mono hsteps, hasked, ?_⟩
        have hnext := hfetches.responded (hsize g.party).1 (hsize g.party).2 (by omega) r
          fun p hp hname => he.segment hunique hg hshows (hauthentic p hp) hname
        rw [List.length_append, List.length_singleton, ← Nat.add_assoc]
        exact hnext

/-- What holds at any time of a run. -/
theorem stage_run (ledgerPrefix : Name) (moves : List (Move ι))
    (hsize : ∀ i, 1 ≤ (group i).maxSegmentSize ∧ (group i).maxSegmentSize < 2 ^ 31)
    (hlength : moves.length < 2 ^ 64) (happart : ∀ i, Apart (group i) data)
    (hmoderate : Throughout (Move.perform group) (Moderate group) (opened ledgerPrefix data n) moves)
    (hauthentic : Throughout (Move.perform group) Authentic (opened ledgerPrefix data n) moves)
    (hunique : Unique (moves.foldl (Move.perform group) (opened ledgerPrefix data n))) :
    Explained group moves (moves.foldl (Move.perform group) (opened ledgerPrefix data n)) ∧
      Stage group data n moves (moves.foldl (Move.perform group) (opened ledgerPrefix data n)) := by
  induction moves using List.reverseRecOn with
  | nil => exact ⟨⟨rfl, by simp [opened]⟩, .inl (waits_doCheck ledgerPrefix data n)⟩
  | append_singleton moves move ih =>
      obtain ⟨hmoderate, hm⟩ := (throughout_concat _ _ _).mp hmoderate
      obtain ⟨hauthentic, ha⟩ := (throughout_concat _ _ _).mp hauthentic
      rw [List.length_append, List.length_singleton] at hlength
      rw [List.foldl_append, List.foldl_cons, List.foldl_nil] at hunique ⊢
      have hbefore := hunique.before
      obtain ⟨hexplained, hstage⟩ := ih (by omega) hmoderate hauthentic hbefore
      exact ⟨hexplained.perform hm, hstage.perform hexplained hsize (by omega) happart hbefore ha⟩

/-- Every success that has been told is for this check, with this block. -/
def Truthful (state : CheckerState) (block : Block) (world : List Report) : Prop :=
  ∀ m d b, Report.success m d b ∈ world → m = state.callbacks ∧ d = state.data ∧ b = block

theorem stays_truthful {state : CheckerState} {block : Block} {report : Report}
    (h : Truthful state block [report]) : Stays (Truthful state block) (tell report) := by
  intro world hworld m d b hr
  rcases List.mem_append.mp hr with hr | hr
  · exact hworld m d b hr
  · exact h m d b hr

/-- A success is told with a block that could be read. -/
theorem success_of_concluded {state : CheckerState} {block : Block} {world : List Report}
    (h : Concluded state block world) {m : ℕ} {d : Data} {b : Block}
    (hr : Report.success m d b ∈ world) :
    m = state.callbacks ∧ d = state.data ∧ b = block ∧
      ∃ dataVector, decodeContent block = .ok dataVector := by
  obtain ⟨inner, rfl⟩ := h
  cases hread : decodeContent block with
  | error e =>
      have hrun : (exec (onContent inner state block) ([] : List Report)).2 = [] := by
        rw [onContent, exec_bind, exec_lift, hread]
      rw [hrun] at hr
      exact absurd hr List.not_mem_nil
  | ok dataVector =>
      have hfailure : ∀ info, Stays (Truthful state block) (onFailure state (.validation info)) :=
        fun info => stays_truthful (by simp [Truthful])
      have hsuccess : Stays (Truthful state block) (onSuccess state block) :=
        stays_truthful (by simp [Truthful])
      have hall : Stays (Truthful state block) (validateMultipleData (onSuccess state block)
          (fun info => onFailure state (.validation info)) dataVector inner) :=
        stays_validateMultipleData hfailure fun _ _ => hsuccess
      rw [onContent, exec_bind, exec_lift, hread] at hr
      obtain ⟨hm, hd, hb⟩ := hall [] (by simp [Truthful]) m d b hr
      exact ⟨hm, hd, hb, dataVector, rfl⟩

theorem setLast_of_asked {query : Name} {time : UInt64} {k : ℕ} {certName : Name}
    (hset : setLast query 4 KEY = some certName)
    (hasked : Asked data (objectName query time ++ [fromSegment k]))
    (hlength : query.length = data.name.length) : setLast data.name 4 KEY = some certName := by
  obtain ⟨name, hname, hle⟩ := hasked
  rw [setLast] at hname hset ⊢
  split_ifs at hname with hfour
  obtain rfl := Option.some.inj hname
  rw [objectName, List.append_assoc] at hle
  have hsame : data.name.set (data.name.length - 4) RECORD = query := by
    apply List.IsPrefix.eq_of_length _ (by simp [hlength])
    exact List.prefix_of_prefix_length_le hle (List.prefix_append _ _) (by simp [hlength])
  rw [if_pos (hlength ▸ hfour), ← hsame] at hset
  rw [if_pos hfour, ← hset]
  simp

theorem success_attested (ledgerPrefix : Name) (moves : List (Move ι))
    (hsize : ∀ i, 1 ≤ (group i).maxSegmentSize ∧ (group i).maxSegmentSize < 2 ^ 31)
    (hlength : moves.length < 2 ^ 64) (happart : ∀ i, Apart (group i) data)
    (hmoderate : Throughout (Move.perform group) (Moderate group) (opened ledgerPrefix data n) moves)
    (hauthentic : Throughout (Move.perform group) Authentic (opened ledgerPrefix data n) moves)
    (hunique : Unique (moves.foldl (Move.perform group) (opened ledgerPrefix data n)))
    (m : ℕ) (d : Data) (block : Block)
    (hsuccess : Report.success m d block ∈
      (moves.foldl (Move.perform group) (opened ledgerPrefix data n)).checker.transfer.world) :
    m = n ∧ d = data ∧ ∃ i query time k certName before names dataVector,
      before <+: netSteps moves ∧ setLast query 4 KEY = some certName ∧
        Asked data (objectName query time ++ [fromSegment k]) ∧
        (query.length = data.name.length → setLast data.name 4 KEY = some certName) ∧
        Attested (ledgers group i) (groupAfter (ledgers group) before) i certName names ∧
        decodeContent block = .ok dataVector ∧ dataVector.map (·.name) = names := by
  obtain ⟨-, hstage⟩ :=
    stage_run ledgerPrefix moves hsize hlength happart hmoderate hauthentic hunique
  rcases hstage with hwaits | ⟨g, -, time, certName, blocks, k, hshows, hasked, hfetches⟩
  · obtain ⟨error, herror⟩ := hwaits.failures _ hsuccess
    cases herror
  · obtain ⟨state, hb, w, -, rfl, rfl, hsafe⟩ := hfetches.transfer
    rcases hsafe.told with ⟨-, hworld⟩ | ⟨-, hconcluded, -⟩
    · rw [hworld] at hsuccess
      exact absurd hsuccess List.not_mem_nil
    · obtain ⟨rfl, rfl, rfl, dataVector, hread⟩ := success_of_concluded hconcluded hsuccess
      obtain ⟨before, hbefore, hfound⟩ := hshows.found
      obtain ⟨names, hattested, hnames⟩ :=
        attested_of_query group before g.party (Prod.ext hfound rfl)
      exact ⟨rfl, rfl, g.party, g.query.name, time, k, certName, before, names, dataVector, hbefore,
        hshows.asked, hasked, setLast_of_asked hshows.asked hasked, hattested, hread,
        hnames _ dataVector rfl hread⟩

end

end

/-! ## The check of a certificate -/

section
local instance : NdnCxx := plainNdn certDigests

/-- The query of the checker comes to the first ledger. -/
def asked : List (Move Bool) := issued.map .group ++ [.interest false queryA 7]

def afterMoves (moves : List (Move Bool)) : Service Bool :=
  moves.foldl (Move.perform servers) (opened [] (certData certA [1]) 0)

/-- The answer is one segment. -/
def answerA : Packet :=
  (afterMoves asked).signed.head?.getD (SegmentProducer.segment [] 0 [] 0)

def checkA : List (Move Bool) :=
  asked ++ [.response (.answer 0 answerA .valid),
    .response (.segment (.data answerA .valid) fun _ => none)]

def isSuccess : Report → Bool
  | .success _ _ _ => true
  | .failure _ _ _ => false

theorem checkA_succeeds : (afterMoves checkA).checker.transfer.world.any isSuccess = true := by
  decide +kernel

theorem unique_checkA : Unique (afterMoves checkA) := by
  have hone : (afterMoves checkA).given.length = 1 := by decide +kernel
  obtain ⟨g, hg⟩ := List.length_eq_one_iff.mp hone
  intro g₁ h₁ g₂ h₂ producer₁ producer₂ hanswer₁ hanswer₂ _
  rw [hg, List.mem_singleton] at h₁ h₂
  rw [h₁] at hanswer₁
  rw [h₂, hanswer₁] at hanswer₂
  exact Answer.object.inj hanswer₂

theorem apart_servers (i : Bool) : Apart (servers i) (certData certA [1]) := by
  have hname : setLast (certData certA [1]).name 4 RECORD = some recordA := by decide
  intro name hset
  obtain rfl := Option.some.inj (hname.symm.trans hset)
  cases i with
  | false => decide
  | true => decide

theorem success_attested_checkA :
    ∃ m d block, m = 0 ∧ d = certData certA [1] ∧
      ∃ i query time k certName before names dataVector, before <+: netSteps checkA ∧
        setLast query 4 KEY = some certName ∧
        Asked (certData certA [1]) (objectName query time ++ [fromSegment k]) ∧
        (query.length = certA.length → setLast certA 4 KEY = some certName) ∧
        Attested (ledgers servers i) (groupAfter (ledgers servers) before) i certName names ∧
        decodeContent block = .ok dataVector ∧ dataVector.map (·.name) = names := by
  obtain ⟨report, hreport, hsuccess⟩ := List.any_eq_true.mp checkA_succeeds
  cases report with
  | failure m d error => exact absurd hsuccess Bool.false_ne_true
  | success m d block =>
      have hsize : ∀ i, 1 ≤ (servers i).maxSegmentSize ∧ (servers i).maxSegmentSize < 2 ^ 31 :=
        fun i => ⟨(by decide : 1 ≤ 8000), (by decide : 8000 < 2 ^ 31)⟩
      exact ⟨m, d, block, success_attested [] checkA hsize (by decide) apart_servers
        (by decide +kernel) (by decide +kernel) unique_checkA m d block hreport⟩

end
end CertLedger.CheckNetwork
