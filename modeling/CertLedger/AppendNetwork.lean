import CertLedger.AppendLedgerOrigins
import CertLedger.NetworkRuns

/-!
# Submissions to a group of ledgers

Clients submit Data to the ledgers of a group by the append protocol; the update callback of a
ledger is its handler for submissions. Anything may come to anybody. Where the validators pass
only what the parties have made, a success is told with the outcomes of one ledger for the Data
of the session, or with one failure; and Data whose outcome is a success are stored there, and
published where their name was free.
-/
namespace CertLedger.AppendNetwork
open Std TlvCodec FallibleState NdnObjects NdnPackets RecordCodec AppendOptions
open DagEngine DagEffects LedgerHandlers LedgerEffects SubmissionRuns LedgerConsistency LedgerSafety
open EventRuns BroadcastNetwork LedgerNetwork AppendRetries PlainNdn
open AppendClient (Client)
open AppendLedger (Ledger readSubmission readSubmissions updates)
open AppendLedgerOrigins (Failed Fetches)

section
variable [NdnCxx] {ι κ : Type} [DecidableEq ι] [DecidableEq κ]

/-- What the ledgers of a group have done. -/
abbrev Steps (ι : Type) := List (BroadcastNetwork.Step ι Request)

structure System (ι κ : Type) where
  clients : κ → Client
  /-- the append sides of the ledgers -/
  sides : ι → Ledger (Steps ι)
  steps : Steps ι

inductive Move (ι κ : Type) where
  | client (c : κ) (event : AppendClient.Event)
  | ledger (i : ι) (event : AppendLedger.Event)
  /-- the ledgers go on among themselves -/
  | group (step : BroadcastNetwork.Step ι Request)

variable (group : ι → LedgerConfig) (outside : ℕ → Bool × Publication)

/-- The update callback of a ledger. What the validator and the sync library do with a
submission depends on its position in the run. -/
def onUpdate (i : ι) (data : Data) : Program PacketError (Steps ι) StatusCode := do
  let steps ← get
  let (verdict, pub) := outside steps.length
  set (steps ++ [BroadcastNetwork.Step.request i (.submission data verdict pub)])
  let result := exec (onDataSubmission (group i) data verdict pub)
    ((groupAfter group steps).parties i)
  match result.1 with
  | .ok status => return code status
  | .error e => throw (.ndn e)

def Move.perform (s : System ι κ) : Move ι κ → System ι κ
  | .client c event =>
      { s with clients := Function.update s.clients c (AppendClient.perform (s.clients c) event) }
  | .ledger i event =>
      let side := AppendLedger.perform (onUpdate group outside i)
        { s.sides i with world := s.steps } event
      { s with sides := Function.update s.sides i side, steps := side.world }
  | .group step => { s with steps := s.steps ++ [step] }

/-- Clients without sessions, and new ledgers with one topic. -/
def begun (prefixes : κ → Name) (topic : Name) : System ι κ where
  clients c := AppendClient.start (prefixes c)
  sides _ := { topic := topic, world := [] }
  steps := []

/-! ## What the statuses of a submission are -/

/-- The handler of a ledger has had the Data one after the other, with these outcomes. -/
structure Outcomes (steps : Steps ι) (i : ι) (data : List Data) (statusList : List StatusCode) :
    Prop where
  length : statusList.length = data.length
  outcome : ∀ (k : ℕ) (d : Data), data[k]? = some d → ∃ before verdict pub status,
    before ++ [BroadcastNetwork.Step.request i (.submission d verdict pub)] <+: steps ∧
      (exec (onDataSubmission (group i) d verdict pub) ((groupAfter group before).parties i)).1 =
        .ok status ∧ statusList[k]? = some (code status)

variable {group} {outside}

theorem Outcomes.mono {steps steps' : Steps ι} {i : ι} {data : List Data}
    {statusList : List StatusCode} (h : Outcomes group steps i data statusList)
    (hle : steps <+: steps') : Outcomes group steps' i data statusList where
  length := h.length
  outcome k d hd := by
    obtain ⟨before, verdict, pub, status, hbefore, hrun, hs⟩ := h.outcome k d hd
    exact ⟨before, verdict, pub, status, hbefore.trans hle, hrun, hs⟩

variable (group) (outside) in
theorem exec_onUpdate (i : ι) (data : Data) (steps : Steps ι) :
    ∃ verdict pub, (exec (onUpdate group outside i data) steps).2 =
        steps ++ [BroadcastNetwork.Step.request i (.submission data verdict pub)] ∧
      ∀ statusCode, (exec (onUpdate group outside i data) steps).1 = .ok statusCode → ∃ status,
        (exec (onDataSubmission (group i) data verdict pub) ((groupAfter group steps).parties i)).1 =
          .ok status ∧ statusCode = code status := by
  refine ⟨(outside steps.length).1, (outside steps.length).2, ?_⟩
  rw [onUpdate, exec_bind_ok (exec_get steps)]
  dsimp only
  rw [exec_bind_ok (exec_set _ steps)]
  cases (exec (onDataSubmission (group i) data (outside steps.length).1 (outside steps.length).2)
    ((groupAfter group steps).parties i)).1 with
  | error e => exact ⟨rfl, fun statusCode hs => by cases hs⟩
  | ok status => exact ⟨rfl, fun statusCode hs => ⟨status, rfl, (Except.ok.inj hs).symm⟩⟩

theorem grows_onUpdate (i : ι) (data : Data) :
    Respects (· <+: ·) (onUpdate group outside i data) := by
  intro steps
  obtain ⟨verdict, pub, hsteps, -⟩ := exec_onUpdate group outside i data steps
  rw [hsteps]
  exact List.prefix_append _ _

/-- The callback for one submission after the other. -/
theorem outcomes_updates (i : ι) (data : List Data) (done : List StatusCode) (steps : Steps ι)
    {statusList : List StatusCode} {steps' : Steps ι}
    (h : exec (updates (onUpdate group outside i) data done) steps = (.ok statusList, steps')) :
    steps <+: steps' ∧ ∃ new, statusList = done ++ new ∧ Outcomes group steps' i data new := by
  induction data generalizing done steps with
  | nil =>
      cases h
      exact ⟨List.prefix_rfl, [], (List.append_nil _).symm, rfl, by simp⟩
  | cons d data ih =>
      rw [updates, List.foldlM_cons, bind_assoc] at h
      obtain ⟨statusCode, mid, hfirst, hrest⟩ := exec_bind_eq_ok h
      obtain ⟨verdict, pub, hmid, hcode⟩ := exec_onUpdate group outside i d steps
      rw [hfirst] at hmid hcode
      obtain rfl := hmid
      obtain ⟨status, hstatus, rfl⟩ := hcode statusCode rfl
      obtain ⟨hle, new, rfl, hnew⟩ := ih (done ++ [code status]) _ hrest
      refine ⟨(List.prefix_append _ _).trans hle, code status :: new, by simp, ?_⟩
      refine ⟨congrArg (· + 1) hnew.length, fun k d' hd' => ?_⟩
      cases k with
      | zero =>
          obtain rfl := Option.some.inj hd'
          exact ⟨steps, verdict, pub, status, hle, hstatus, rfl⟩
      | succ k => exact hnew.outcome k d' hd'

theorem grows_readSubmissions (i : ι) (p : Packet) :
    Respects (· <+: ·) (readSubmissions (onUpdate group outside i) p) := by
  have refl : ∀ steps : Steps ι, steps <+: steps := fun _ => List.prefix_rfl
  have trans : ∀ s t u : Steps ι, s <+: t → t <+: u → s <+: u := fun _ _ _ => List.IsPrefix.trans
  refine Respects.bind trans (fun steps => refl steps) fun items => ?_
  refine Respects.foldlM refl trans (fun statusList item _ => ?_) []
  unfold readSubmission
  split_ifs
  · refine Respects.bind trans (fun steps => refl steps) fun data => ?_
    exact Respects.bind trans (grows_onUpdate i data) fun statusCode => Respects.pure refl _
  · exact Respects.throw refl _
  · exact Respects.pure refl _

/-! ## What a success means -/

/-- After a success the name of the Data is taken. If it was free, the Data are stored and a
record with them is published. -/
theorem published_of_success {config : LedgerConfig} (events : List LedgerHandlers.Event)
    {data : Data}
    {verdict : Bool} {pub : Publication}
    (h : (exec (onDataSubmission config data verdict pub) (after config [] events)).1 =
      .ok .SUCCESS) :
    verdict = true ∧ ((∃ b, (after config [] events).storage.list[data.name]? = some b) ∨
      (exec (onDataSubmission config data verdict pub)
        (after config [] events)).2.storage.list[data.name]? = some data.wire ∧
      ∃ r, published config (after config [] events) (.submission data verdict pub) = some r ∧
        r.payload = data.wire.wire) := by
  have hkeyed := after_keyed config [] events
  have hr := after_reliable config events
  cases verdict with
  | false => cases h
  | true =>
      refine ⟨rfl, ?_⟩
      rcases hrun : exec (onDataSubmission config data true pub) (after config [] events)
        with ⟨res, s⟩
      rw [hrun] at h
      obtain rfl := h
      have hvalid := afterValidation_of_success hrun
      generalize after config [] events = s₀ at hvalid hkeyed hr
      cases hfree : s₀.storage.list[data.name]? with
      | some b => exact .inl ⟨b, rfl⟩
      | none =>
          right
          have hnew : exec (onDag (insertNew data)) s₀ = (.ok true, withPacket s₀ data) := by
            rw [exec_onDag, exec_insertNew_free hr hfree, withPacket, spend_of_reliable hr]
          have hpacket := stores_withPacket data hfree
          have hkept := Keeps.of_stores hkeyed hpacket PacketOf.foreign
          have hsteady := (steady_lawful config).logPayload
            (fun (p : Data) (_ : Publication.Packet config pub p) => trivial) data.wire.wire _
            hkept.keyed
          rw [(exec_afterValidation_free config hr hfree pub).symm.trans hvalid] at hsteady
          refine ⟨hsteady.lasting _ _ (withPacket_list s₀ data) (lasting_packet data), ?_⟩
          obtain ⟨r, w, hmake, -, hdraft⟩ :=
            exec_newRecord config data.wire.wire (withPacket s₀ data)
          have hdrafted : exec (draft config (.submission data true pub)) s₀ =
              (.ok (some r), (withPacket s₀ data).withDag
                { (withPacket s₀ data).toDagModule with waitlist := w }) := by
            rw [draft, if_pos rfl, exec_bind_ok hnew, if_pos rfl, exec_bind_ok hmake]
            rfl
          rw [afterValidation_eq] at hvalid
          obtain ⟨record, t, hpublish, -⟩ := exec_bind_eq_ok hvalid
          have hout : published config s₀ (.submission data true pub) = record := by
            rw [published, hpublish]
          rw [publish, exec_bind_ok hdrafted] at hpublish
          obtain ⟨name, u, -, hsent⟩ := exec_bind_eq_ok hpublish
          obtain rfl : some { r with name := name } = record :=
            Except.ok.inj (congrArg Prod.fst hsent)
          exact ⟨_, hout, hdraft.payload⟩

/-! ## What the parties vouch for -/

/-- Some ledger has put the packet as an acknowledgement. -/
def Put (s : System ι κ) (ack : Packet) : Prop := ∃ i chain, .ack chain ack ∈ (s.sides i).trace

/-- The validators pass only what the parties have made. -/
def Authentic (s : System ι κ) : Move ι κ → Prop
  | .client c (.valid j) => ∀ ack, (s.clients c).validating.lookup j = some ack → Put s ack
  | .ledger i (.valid chain) => ∀ p, (s.sides i).validating.lookup chain = some p →
      ∃ c j, .submitted j p ∈ (s.clients c).trace
  | _ => True

variable (group) in
/-- The statuses are the outcomes for the Data of a session that has the name of the fetch. -/
def Told (topic : Name) (s : System ι κ) (i : ι) (o : ClientOptions)
    (statusList : List StatusCode) : Prop :=
  o.topic = topic ∧ ∃ c j, j < (s.clients c).sessions.length ∧
    ((s.clients c).session j).options.makeInterestFilter = o.makeInterestFilter ∧
    Outcomes group s.steps i ((s.clients c).session j).data statusList

variable (group) in
/-- Everything in a system belongs to a session or a chain. -/
structure Linked (topic : Name) (s : System ι κ) : Prop where
  sound : ∀ c, AppendClientRuns.Sound (s.clients c)
  clients : ∀ c, AppendClientOrigins.Fitting (fun _ ack => Put s ack) (s.clients c)
  sides : ∀ i, AppendLedgerOrigins.Fitting (Told group topic s i) topic (s.sides i)

variable {topic : Name} {s s' : System ι κ}

/-- What later steps keep. -/
structure Later (s s' : System ι κ) : Prop where
  clients : ∀ c, AppendClientOrigins.Carries (s.clients c) (s'.clients c)
  sides : ∀ i, (s.sides i).trace ⊆ (s'.sides i).trace
  steps : s.steps <+: s'.steps

omit [DecidableEq ι] [DecidableEq κ] in
theorem Put.later {ack : Packet} (h : Put s ack) (hl : Later s s') : Put s' ack := by
  obtain ⟨i, chain, hack⟩ := h
  exact ⟨i, chain, hl.sides i hack⟩

omit [DecidableEq κ] in
theorem Told.later {i : ι} {o : ClientOptions} {statusList : List StatusCode}
    (h : Told group topic s i o statusList) (hl : Later s s') :
    Told group topic s' i o statusList := by
  obtain ⟨htopic, c, j, hj, hfilter, hall⟩ := h
  have hcarries := hl.clients c
  refine ⟨htopic, c, j, hj.trans_le hcarries.length, ?_, ?_⟩
  · rw [(hcarries.alike j hj).makeInterestFilter, hfilter]
  · rw [hcarries.data j hj]
    exact hall.mono hl.steps

omit [DecidableEq κ] in
/-- The parties that have done nothing are linked as before. -/
theorem Linked.of_later (h : Linked group topic s) (hl : Later s s')
    (hclients : ∀ c, s'.clients c = s.clients c ∨ AppendClientRuns.Sound (s'.clients c) ∧
      AppendClientOrigins.Fitting (fun _ ack => Put s' ack) (s'.clients c))
    (hsides : ∀ i, s'.sides i = s.sides i ∨
      AppendLedgerOrigins.Fitting (Told group topic s' i) topic (s'.sides i)) :
    Linked group topic s' where
  sound c := by
    rcases hclients c with he | he
    · exact he ▸ h.sound c
    · exact he.1
  clients c := by
    rcases hclients c with he | he
    · rw [he]
      exact (h.clients c).mono fun _ _ hput => hput.later hl
    · exact he.2
  sides i := by
    rcases hsides i with he | he
    · rw [he]
      exact (h.sides i).mono fun _ _ htold => htold.later hl
    · exact he

theorem readSubmissions_ofElements {σ : Type} (onUpdate : Data → Program PacketError σ StatusCode)
    (name : Name) (data : List Data) :
    readSubmissions onUpdate (.ofElements name (data.map (·.wire))) = updates onUpdate data [] := by
  rw [readSubmissions, Packet.elements_ofElements, parsed_some]
  exact AppendLedger.foldlM_readSubmission onUpdate data []

theorem Linked.client (h : Linked group topic s) (c : κ) (event : AppendClient.Event)
    (ha : Authentic s (.client c event)) :
    Linked group topic ((Move.client c event).perform group outside s) := by
  have hput : ∀ j ack, event = .valid j → (s.clients c).validating.lookup j = some ack →
      Put s ack := by
    rintro j ack rfl hl
    exact ha ack hl
  have hextends := AppendClientOrigins.extends_perform (S := fun _ ack => Put s ack) (h.sound c)
    (h.clients c) event hput
  have hself : ((Move.client c event).perform group outside s).clients c =
      AppendClient.perform (s.clients c) event := Function.update_self ..
  have hother : ∀ c', c' ≠ c →
      ((Move.client c event).perform group outside s).clients c' = s.clients c' :=
    fun c' hne => Function.update_of_ne hne ..
  apply h.of_later
  · refine ⟨fun c' => ?_, fun i => List.Subset.refl _, List.prefix_rfl⟩
    by_cases he : c' = c
    · rw [he, hself]
      exact hextends.carries
    · rw [hother c' he]
      exact AppendClientOrigins.Carries.refl _
  · intro c'
    by_cases he : c' = c
    · right
      rw [he, hself]
      exact ⟨(h.sound c).perform event, (h.clients c).extend hextends⟩
    · exact .inl (hother c' he)
  · exact fun i => .inl rfl

theorem Linked.ledger (h : Linked group topic s) (i : ι) (event : AppendLedger.Event)
    (ha : Authentic s (.ledger i event)) :
    Linked group topic ((Move.ledger i event).perform group outside s) := by
  let l : Ledger (Steps ι) := { s.sides i with world := s.steps }
  let s' := (Move.ledger i event).perform group outside s
  have hself : s'.sides i = AppendLedger.perform (onUpdate group outside i) l event :=
    Function.update_self ..
  have hother : ∀ i', i' ≠ i → s'.sides i' = s.sides i' :=
    fun i' hne => Function.update_of_ne hne ..
  have hsteps : s'.steps = (AppendLedger.perform (onUpdate group outside i) l event).world := rfl
  have hgrows : l.trace <+: (AppendLedger.perform (onUpdate group outside i) l event).trace ∧
      l.world <+: (AppendLedger.perform (onUpdate group outside i) l event).world := by
    rcases AppendLedgerOrigins.perform_cases (onUpdate group outside i) l event with
      hquiet | ⟨chain, p, rfl, hl⟩
    · exact ⟨hquiet.trace, hquiet.world ▸ List.prefix_rfl⟩
    · obtain ⟨htrace, hworld⟩ := AppendLedgerOrigins.served_valid (onUpdate group outside i) hl
      exact ⟨htrace, hworld ▸ grows_readSubmissions i p l.world⟩
  have hlater : Later s s' := by
    refine ⟨fun c => AppendClientOrigins.Carries.refl _, fun i' => ?_, hgrows.2⟩
    by_cases he : i' = i
    · rw [he, hself]
      exact hgrows.1.subset
    · rw [hother i' he]
      exact List.Subset.refl _
  apply h.of_later hlater
  · exact fun c => .inl rfl
  · intro i'
    by_cases he : i' = i
    · right
      rw [he, hself]
      have hl : AppendLedgerOrigins.Fitting (Told group topic s' i) topic l :=
        ((h.sides i).mono fun _ _ htold => htold.later hlater).drop (List.Sublist.refl _)
          (List.Sublist.refl _) s.steps
      apply hl.perform event
      rintro chain p statusList rfl hlookup ⟨hk, n, hname⟩ hstatus
      obtain ⟨c, j, hsubmitted⟩ := ha p hlookup
      obtain ⟨hj, n', hp⟩ := (h.clients c).trace _ hsubmitted
      have hserved := (AppendLedgerOrigins.served_valid (onUpdate group outside i) hlookup).2
      have hrun :
          exec (updates (onUpdate group outside i) ((s.clients c).session j).data []) s.steps =
          (.ok statusList, s'.steps) := by
        rw [← readSubmissions_ofElements, ← hp, hsteps, hserved]
        exact Prod.ext hstatus rfl
      obtain ⟨-, new, hnew, hall⟩ := outcomes_updates i _ [] s.steps hrun
      have hfilter := congrArg (·.name.dropLast) hp
      simp only [Packet.name_ofElements, hname, List.dropLast_concat] at hfilter
      rw [List.nil_append] at hnew
      exact ⟨hl.client_topic hk, c, j, hj, hfilter.symm, hnew ▸ hall⟩
    · exact .inl (hother i' he)

theorem Linked.perform (h : Linked group topic s) (move : Move ι κ) (ha : Authentic s move) :
    Linked group topic (move.perform group outside s) := by
  cases move with
  | client c event => exact h.client c event ha
  | ledger i event => exact h.ledger i event ha
  | group step =>
      apply h.of_later
      · exact ⟨fun c => AppendClientOrigins.Carries.refl _, fun i => List.Subset.refl _,
          List.prefix_append _ _⟩
      · exact fun c => .inl rfl
      · exact fun i => .inl rfl

theorem linked_run (prefixes : κ → Name) (topic : Name) (moves : List (Move ι κ))
    (ha : Throughout (Move.perform group outside) Authentic (begun prefixes topic) moves) :
    Linked group topic (moves.foldl (Move.perform group outside) (begun prefixes topic)) := by
  apply ha.invariant (I := Linked group topic)
  · exact fun s move h hmove => h.perform move hmove
  · refine ⟨fun c => AppendClientRuns.sound_start _, fun c => ⟨?_, ?_, ?_⟩, fun i =>
      AppendLedgerOrigins.fitting_start []⟩
    · exact fun f hf => absurd hf List.not_mem_nil
    · exact fun f hf => absurd hf List.not_mem_nil
    · exact fun a ha => absurd ha List.not_mem_nil

/-! ## What a client is told -/

omit [NdnCxx] in
theorem tlvApplicationParameters_pos : 0 < tlvApplicationParameters := by decide

omit [NdnCxx] in
theorem tlvApplicationParameters_lt : tlvApplicationParameters < 2 ^ 32 := by decide

/-- The parameters of a notification as one element. -/
def parametersBlock (o : ClientOptions) : Block where
  type := tlvApplicationParameters
  value := wireAll o.parameters
  type_pos := tlvApplicationParameters_pos
  type_lt := tlvApplicationParameters_lt

/-- No other parameters have the digest of these. -/
def NoCollision (o : ClientOptions) : Prop := ∀ o' : ClientOptions,
  NdnCxx.sha256 (parametersBlock o').wire = NdnCxx.sha256 (parametersBlock o).wire →
    (parametersBlock o').wire = (parametersBlock o).wire

/-- The session is the only one with its filter. -/
def Alone (s : System ι κ) (c : κ) (j : ℕ) : Prop :=
  ∀ c' j', j' < (s.clients c').sessions.length →
    ((s.clients c').session j').options.makeInterestFilter =
      ((s.clients c).session j).options.makeInterestFilter → c' = c ∧ j' = j

omit [NdnCxx] in
theorem withDigest_inj {n : Name} {digest digest' : Buffer}
    (h : Interest.withDigest n digest = Interest.withDigest n digest') : digest = digest' := by
  unfold Interest.withDigest at h
  cases hk : n.findIdx? isParametersDigest with
  | none =>
      rw [hk] at h
      have hlast := (List.append_inj' h rfl).2
      simpa using hlast
  | some k =>
      rw [hk] at h
      have hlt : k < n.length := (List.findIdx?_eq_some_iff_getElem.mp hk).1
      have hget := congrArg (·[k]?) h
      simpa [hlt] using hget

theorem name_makeNotification {o : ClientOptions} {i : Interest} (h : o.makeNotification = some i) :
    i.name = Interest.withDigest (o.topic ++ [notify])
      (NdnCxx.sha256 (parametersBlock o).wire) := by
  obtain ⟨i', hi', hi⟩ := Option.bind_eq_some_iff.mp h
  rw [← Option.some.inj hi, Interest.name_ofName hi']
  rfl

/-- Notifications for one topic with one name are of one client and one nonce. -/
theorem same_of_name {o o' : ClientOptions} (hcollision : NoCollision o)
    (htopic : o'.topic = o.topic)
    {i i' : Interest} (hi : o.makeNotification = some i) (hi' : o'.makeNotification = some i')
    (hname : i'.name = i.name) : o'.makeInterestFilter = o.makeInterestFilter := by
  rw [name_makeNotification hi, name_makeNotification hi', htopic] at hname
  have hwire := hcollision o' (withDigest_inj hname)
  have hblock : parametersBlock o' = parametersBlock o := by
    have hread := readBlock_wire (parametersBlock o') []
    rw [hwire, readBlock_wire (parametersBlock o) []] at hread
    exact (congrArg Prod.fst (Option.some.inj hread)).symm
  have helements : ∀ o : ClientOptions, (parametersBlock o).elements = some o.parameters :=
    fun o => Block.elements_wireAll rfl
  have hparameters : o'.parameters = o.parameters := by
    have hsame := helements o'
    rw [hblock, helements o] at hsame
    exact (Option.some.inj hsame).symm
  have hread := foldlM_parameters o' { topic := [], appenderPrefix := [], nonce := 0 }
  rw [hparameters, foldlM_parameters o] at hread
  have hboth := Except.ok.inj hread
  simp only [ClientOptions.mk.injEq] at hboth
  obtain ⟨-, hprefix, hnonce, -⟩ := hboth
  rw [ClientOptions.makeInterestFilter, ClientOptions.makeInterestFilter, hprefix, hnonce, htopic]

omit [NdnCxx] in
theorem code_inj {status : AppendStatus} (h : code status = code .SUCCESS) : status = .SUCCESS := by
  cases status <;> first | rfl | exact absurd h (by decide)

variable (group) in
/-- The name of the Data was taken at the ledger, or the ledger has stored them and published
a record with them. -/
def Logged (steps : Steps ι) (i : ι) (d : Data) : Prop := ∃ before pub,
  before ++ [BroadcastNetwork.Step.request i (.submission d true pub)] <+: steps ∧
    ((∃ b, ((groupAfter group before).parties i).storage.list[d.name]? = some b) ∨
      ((groupAfter group (before ++ [BroadcastNetwork.Step.request i
          (.submission d true pub)])).parties i).storage.list[d.name]? = some d.wire ∧
        ∃ r, (i, r) ∈ (groupAfter group steps).published ∧ r.payload = d.wire.wire)

theorem Outcomes.logged {steps : Steps ι} {i : ι} {data : List Data} {statusList : List StatusCode}
    (h : Outcomes group steps i data statusList) {k : ℕ} {d : Data} (hd : data[k]? = some d)
    (hs : statusList[k]? = some (code .SUCCESS)) : Logged group steps i d := by
  obtain ⟨before, verdict, pub, status, hbefore, hrun, hcode⟩ := h.outcome k d hd
  obtain rfl := code_inj (Option.some.inj (hcode.symm.trans hs))
  have hparty : (groupAfter group before).parties i = after (group i) []
      (history (fun i => machine (group i)) i newGroup before) := parties_after _ _ i
  have hsuccess := hrun
  rw [hparty] at hsuccess
  obtain ⟨rfl, hlogged⟩ := published_of_success _ hsuccess
  rw [← hparty] at hlogged
  refine ⟨before, pub, hbefore, hlogged.imp_right fun ⟨hstored, r, hout, hpayload⟩ => ?_⟩
  have hstep :
      groupAfter group (before ++ [BroadcastNetwork.Step.request i (.submission d true pub)]) =
      (groupAfter group before).handle (fun i => machine (group i)) i (.submission d true pub) :=
    after_concat _ _ _
  refine ⟨?_, r, ?_, hpayload⟩
  · rw [hstep, handle_self]
    change (LedgerHandlers.perform (group i) _ _).storage.list[d.name]? = _
    rw [← hstored, LedgerHandlers.perform, Event.handle, exec_bind]
    rcases exec (onDataSubmission (group i) d true pub) ((groupAfter group before).parties i) with
      ⟨_ | _, t⟩
    · rfl
    · rfl
  · obtain ⟨rest, rfl⟩ := hbefore
    have hafter : groupAfter group (before ++ [BroadcastNetwork.Step.request i
        (.submission d true pub)] ++ rest) = (groupAfter group (before ++
          [BroadcastNetwork.Step.request i (.submission d true pub)])).after
            (fun i => machine (group i)) rest := List.foldl_append ..
    rw [hafter]
    apply (published_grows _ rest).subset
    rw [hstep, mem_published_handle]
    exact .inr ⟨rfl, hout⟩

theorem success_submitted (prefixes : κ → Name) (topic : Name) (moves : List (Move ι κ))
    (hauthentic : Throughout (Move.perform group outside) Authentic (begun prefixes topic) moves)
    (c : κ) (j : ℕ) (data : List Data) (ack : Packet)
    (hsuccess : .success j data ack ∈
      ((moves.foldl (Move.perform group outside) (begun prefixes topic)).clients c).trace)
    (halone : Alone (moves.foldl (Move.perform group outside) (begun prefixes topic)) c j)
    (htopic : (((moves.foldl (Move.perform group outside)
      (begun prefixes topic)).clients c).session j).options.topic = topic)
    (hcollision : NoCollision (((moves.foldl (Move.perform group outside)
      (begun prefixes topic)).clients c).session j).options) :
    ∃ statusList, praseAck ack = .ok statusList ∧ (Failed statusList ∨ ∃ i,
      Outcomes group (moves.foldl (Move.perform group outside) (begun prefixes topic)).steps i data
        statusList ∧
      ∀ (k : ℕ) (d : Data), data[k]? = some d → statusList[k]? = some (code .SUCCESS) →
        Logged group (moves.foldl (Move.perform group outside) (begun prefixes topic)).steps i d) := by
  have hlinked := linked_run prefixes topic moves hauthentic
  generalize moves.foldl (Move.perform group outside) (begun prefixes topic) = s at *
  obtain ⟨hj, rfl, ⟨i, hi, hname⟩, side, chain, hput⟩ := (hlinked.clients c).trace _ hsuccess
  obtain ⟨o, statusList, hack, hwhy⟩ := (hlinked.sides side).trace _ hput
  refine ⟨statusList, praseAck_makeNotificationAck hack, hwhy.imp_right fun htold => ?_⟩
  obtain ⟨hotopic, c', j', hj', hfilter, hall⟩ := htold
  obtain ⟨notification, hn, he⟩ := Option.bind_eq_some_iff.mp hack
  have hackName : ack.name = notification.name := by
    rw [← Option.some.inj he, Packet.name_ofElements]
  have hsame :=
    same_of_name hcollision (hotopic.trans htopic.symm) hi hn (hackName.symm.trans hname)
  obtain ⟨rfl, rfl⟩ := halone c' j' hj' (hfilter.trans hsame)
  exact ⟨side, hall, fun k d hd hs => hall.logged hd hs⟩

end

/-! ## A session with two packets -/

/-- The digests of the parameters of a notification and of two packets. -/
def appendDigests : List (Buffer × Buffer) :=
  sessionDigests ++ packetDigests ++ [((packet nameT [1]).wire,
    [22, 120, 201, 245, 82, 71, 237, 154, 248, 0, 16, 236, 101, 142, 119, 74, 151, 195, 165, 222, 175,
      0, 48, 162, 42, 203, 203, 206, 51, 143, 236, 17])]

section
local instance : NdnCxx := plainNdn appendDigests

def packetOf (name : Name) (content : Buffer) : Data where
  wire := packet name content
  name := name
  decodes := dataName_packet name content

/-- All submissions are passed, and the sync library counts. -/
def passing (n : ℕ) : Bool × Publication :=
  (true, { packets := fun name content => [packetOf name content], seqNo := some (UInt64.ofNat (n + 1)) })

def dataT : List Data := [packetOf nameA [1], packetOf nameT [1]]

def notificationT : Interest := (sessionOptions 7).makeNotification.getD { name := [] }

def submissionT : Packet := ((sessionOptions 7).setNonce2 2).makeSubmission dataT

def ackT : Packet := (makeNotificationAck (sessionOptions 7) [code .SUCCESS, code .SUCCESS]).getD
  (.ofElements [] [])

/-- The session is notified, fetched, submitted and acknowledged. -/
def sessionMoves : List (Move Bool Unit) :=
  [.client () (.append nameT dataT 7), .ledger false (.notification notificationT 1 2),
    .client () (.interest submissionT.name), .ledger false (.data submissionT),
    .ledger false (.valid 0), .group (.deliver true 0), .client () (.received ackT),
    .client () (.valid 0)]

def afterSession (moves : List (Move Bool Unit)) : System Bool Unit :=
  moves.foldl (Move.perform NetworkRuns.pair passing) (begun (fun _ => nameA) nameT)

def isSubmission (p : Packet) : AppendClient.Action → Bool
  | .submitted 0 q => p == q
  | _ => false

def isSuccess : AppendClient.Action → Bool
  | .success 0 _ _ => true
  | _ => false

theorem sessionMoves_authentic : Throughout (Move.perform NetworkRuns.pair passing) Authentic
    (begun (fun _ => nameA) nameT) sessionMoves := by
  refine ⟨trivial, trivial, trivial, trivial, fun p hp => ⟨(), 0, ?_⟩, trivial, trivial,
    fun ack hack => ⟨false, 0, ?_⟩, trivial⟩
  · have hlookup : ((afterSession (sessionMoves.take 4)).sides false).validating.lookup 0 =
        some submissionT := by decide +kernel
    obtain rfl := Option.some.inj (hlookup.symm.trans hp)
    have hany : ((afterSession (sessionMoves.take 4)).clients ()).trace.any
        (isSubmission submissionT) = true := by decide +kernel
    obtain ⟨a, ha, hsame⟩ := List.any_eq_true.mp hany
    unfold isSubmission at hsame
    split at hsame
    · rw [← beq_iff_eq.mp hsame] at ha
      exact ha
    · cases hsame
  · have hlookup : ((afterSession (sessionMoves.take 7)).clients ()).validating.lookup 0 =
        some ackT := by decide +kernel
    obtain rfl := Option.some.inj (hlookup.symm.trans hack)
    have hput : .ack 0 ackT ∈ ((afterSession (sessionMoves.take 7)).sides false).trace := by
      decide +kernel
    exact hput

/-- No other octets have the digest of the parameters. -/
theorem noCollision_session : NoCollision (sessionOptions 7) := by
  intro o h
  have hself : NdnCxx.sha256 (parametersBlock (sessionOptions 7)).wire =
      [15, 86, 106, 232, 240, 14, 253, 208, 217, 114, 103, 31, 164, 76, 196, 248, 146, 67, 193, 45,
        51, 28, 125, 130, 172, 230, 151, 153, 90, 139, 192, 75] := by decide
  have hhead : (parametersBlock o).wire.head? = some 36 := rfl
  rw [hself] at h
  change (appendDigests.lookup (parametersBlock o).wire).getD (parametersBlock o).wire = _ at h
  cases hl : appendDigests.lookup (parametersBlock o).wire with
  | none =>
      rw [hl, Option.getD_none] at h
      rw [h] at hhead
      cases hhead
  | some digest =>
      rw [hl, Option.getD_some] at h
      obtain ⟨before, rest, hentries, -⟩ := List.lookup_eq_some_iff.mp hl
      have hmem : ((parametersBlock o).wire, digest) ∈ appendDigests := by simp [hentries]
      rw [h] at hmem
      have hall : ∀ e ∈ appendDigests, e.2 = [15, 86, 106, 232, 240, 14, 253, 208, 217, 114, 103, 31,
          164, 76, 196, 248, 146, 67, 193, 45, 51, 28, 125, 130, 172, 230, 151, 153, 90, 139, 192,
          75] → e.1 = (parametersBlock (sessionOptions 7)).wire := by decide
      exact hall _ hmem rfl

theorem success_submitted_session :
    ∃ data ack statusList, praseAck ack = .ok statusList ∧ (Failed statusList ∨ ∃ i,
      Outcomes NetworkRuns.pair (afterSession sessionMoves).steps i data statusList ∧
      ∀ (k : ℕ) (d : Data), data[k]? = some d → statusList[k]? = some (code .SUCCESS) →
        Logged NetworkRuns.pair (afterSession sessionMoves).steps i d) := by
  have hany : ((afterSession sessionMoves).clients ()).trace.any isSuccess = true := by
    decide +kernel
  have hoptions : (((afterSession sessionMoves).clients ()).session 0).options =
      { sessionOptions 7 with nonce2 := 2, retryCount := 1 } := by decide +kernel
  have hlength : ((afterSession sessionMoves).clients ()).sessions.length = 1 := by decide +kernel
  obtain ⟨a, ha, htold⟩ := List.any_eq_true.mp hany
  unfold isSuccess at htold
  split at htold
  next data ack =>
    refine ⟨data, ack, success_submitted (fun _ => nameA) nameT sessionMoves sessionMoves_authentic
      () 0 data ack ha (fun c j hj _ => ⟨rfl, ?_⟩) ?_ ?_⟩
    · have hlt : j < 1 := hlength ▸ hj
      omega
    · exact congrArg ClientOptions.topic hoptions
    · change NoCollision ((afterSession sessionMoves).clients () |>.session 0).options
      rw [hoptions]
      exact noCollision_session
  next => cases htold

end
end CertLedger.AppendNetwork
