import CertLedger.AppendRuns
import CertLedger.BroadcastNetwork
import CertLedger.ReplyRuns

/-!
# A group of ledgers

The sync library hands every publication of a ledger to the other ledgers, as a
name and the octets of a content. A handler that publishes is split there: what
it does first decides on the record, and the rest adds it. A publication that
throws is not sent.
-/
namespace CertLedger.LedgerNetwork
open TlvCodec FallibleState NdnObjects RecordCodec EdgeStateCodec OrderedContainers
open DagEngine DagStates DagUpdates DagSafety DagCover BroadcastNetwork
open LedgerHandlers LedgerEffects SubmissionRuns LedgerConsistency HarvestRuns LedgerSafety
open AppendRuns

/-! ## Publications on their way -/

/-- What a subscriber is given of a publication. -/
structure Message where
  name : Name
  content : Buffer

def message (record : Record) : Message := ⟨record.name, record.prepareContent.wire⟩

/-- The subscription to all names; the record is read before the callback is called. -/
def Message.record (m : Message) : Except Error Record := do
  let (contentBlock, _) ← parsed (readBlock m.content)
  Record.ofContent m.name contentBlock

theorem record_message (record : Record) : (message record).record = .ok record := by
  have hread : readBlock (message record).content = some (record.prepareContent, []) := by
    have := readBlock_wire record.prepareContent []
    rwa [List.append_nil] at this
  rw [Message.record, hread]
  exact Record.ofContent_prepareContent record record.name

section
variable [NdnCxx]

/-- What comes to a ledger from outside the group. -/
inductive Request where
  | submission (data : Data) (verdict : Bool) (pub : Publication)
  | reply (pub : Publication)

def Request.event : Request → Event
  | submission data verdict pub => .submission data verdict pub
  | reply pub => .reply pub

def Request.publication : Request → Publication
  | submission _ _ pub => pub
  | reply pub => pub

/-- The Data that is submitted, if any, is in `S`. -/
def Request.Submits (S : Data → Prop) : Request → Prop
  | submission data _ _ => S data
  | reply _ => True

variable (config : LedgerConfig)

/-! ## The steps of a handler -/

/-- The record a request makes, without its name. -/
def draft : Request → LedgerM (Option Record)
  | .submission data verdict _ =>
      if verdict then do
        let isNew ← onDag (insertNew data)
        if isNew then do
          let record ← newRecord config data.wire.wire
          return some record
        else return none
      else return none
  | .reply _ => do
      let pointers ← collectPointers config
      if 0 < pointers.length then return some { type := REPLY_RECORD, pointers := pointers }
      else return none

def send (pub : Publication) : Option Record → LedgerM (Option Record)
  | some record => do
      let name ← publishRecord config pub record
      return some { record with name := name }
  | none => return none

def publish (request : Request) : LedgerM (Option Record) := do
  let record ← draft config request
  send config request.publication record

/-- What is done with a record after it has been published. -/
def conclude (request : Request) (record : Record) : LedgerM Unit :=
  match request with
  | .submission _ _ _ => logRecord config record
  | .reply _ => do
      let _ ← onDag (add config.toDagConfig record)
      dagHarvest config

/-- The record that a request has published. -/
def published (s : LedgerModule) (request : Request) : Option Record :=
  match (exec (publish config request) s).1 with
  | .ok record => record
  | .error _ => none

def concludeAll (request : Request) : Option Record → LedgerM Unit
  | some record => conclude config request record
  | none => return ()

/-! ## The group -/

/-- A ledger with its publications and what the sync library makes of them. -/
def machine : Machine LedgerModule Event Request Record where
  step := perform config
  output s
    | .submission data verdict pub => published config s (.submission data verdict pub)
    | .reply pub => published config s (.reply pub)
    | .sync _ => none
  request := Request.event
  delivery record :=
    match (message record).record with
    | .ok record => some (.sync record)
    | .error _ => none

def newGroup {ι : Type} : Network ι LedgerModule Record where
  parties _ := start []

/-- The group after a run; every ledger has its own configuration. -/
def groupAfter {ι : Type} [DecidableEq ι] (group : ι → LedgerConfig)
    (steps : List (Step ι Request)) : Network ι LedgerModule Record :=
  newGroup.after (fun i => machine (group i)) steps

/-! ## What a handler does is to publish and to conclude -/

theorem afterValidation_eq (data : Data) (pub : Publication) :
    afterValidation config data pub = (do
      let record ← publish config (.submission data true pub)
      concludeAll config (.submission data true pub) record) := by
  rw [afterValidation, publish, draft, if_pos rfl, bind_assoc, bind_assoc]
  congr 1
  funext isNew
  cases isNew with
  | false => rfl
  | true => simp only [if_true, logPayload, bind_assoc, pure_bind, send, concludeAll, conclude,
      Request.publication]

theorem publishReply_split (pub : Publication) :
    publishReply config pub = (do
      let record ← publish config (.reply pub)
      concludeAll config (.reply pub) record) := by
  rw [publishReply_eq, publish, draft, bind_assoc, bind_assoc]
  congr 1
  funext pointers
  split
  · simp only [logReply, bind_assoc, pure_bind, send, concludeAll, conclude, Request.publication]
  · rfl

/-- What a request does is to publish and, if it has published a record, to add that. -/
theorem perform_request (s : LedgerModule) (request : Request) :
    perform config s request.event = (exec (do
      let record ← publish config request
      concludeAll config request record) s).2 := by
  cases request with
  | submission data verdict pub =>
      cases verdict with
      | false => rfl
      | true => rw [Request.event, perform_submission, afterValidation_eq]
  | reply pub =>
      rw [← publishReply_split]
      rfl

/-- The three ways a request ends. -/
theorem request_cases (s : LedgerModule) (request : Request) :
    (∃ t r, exec (publish config request) s = (.ok (some r), t) ∧
        published config s request = some r ∧
        perform config s request.event = (exec (conclude config request r) t).2) ∨
      ∃ t res, exec (publish config request) s = (res, t) ∧ published config s request = none ∧
        perform config s request.event = t := by
  rw [perform_request, published]
  rcases hrun : exec (publish config request) s with ⟨e | r, t⟩
  · exact .inr ⟨t, .error e, rfl, rfl, by rw [exec_bind_error hrun]⟩
  · cases r with
    | none => exact .inr ⟨t, .ok none, rfl, rfl, by rw [exec_bind_ok hrun]; rfl⟩
    | some r => exact .inl ⟨t, r, rfl, rfl, by rw [exec_bind_ok hrun]; rfl⟩

/-- A record that has been published is added before anything else is done. -/
theorem conclude_eq (request : Request) (record : Record) : ∃ k : Name → LedgerM Unit,
    conclude config request record =
        (do let stateName ← onDag (add config.toDagConfig record); k stateName) ∧
      ∀ R, Beside config (fun _ => True) R → ∀ n, Respects R (k n) := by
  cases request with
  | submission data verdict pub =>
      exact ⟨_, rfl, fun R h n => h.index record.payload n record.name⟩
  | reply pub => exact ⟨_, rfl, fun R h _ => h.harvest⟩

/-! ## Which records a handler loads -/

/-- Nothing is loaded that was not loaded before. -/
structure Sat (config : LedgerConfig) (s s' : LedgerModule) : Prop where
  onward : Onward config s s'
  pending : ∀ n, (node s'.toDagModule n).status ≠ .INITIALIZED →
    (node s.toDagModule n).status ≠ .INITIALIZED

def Sits (config : LedgerConfig) (s s' : LedgerModule) : Prop := Secure config s → Sat config s s'

section
variable {config} {s s' s'' t : LedgerModule}

theorem Sat.trans (h : Sat config s s') (h' : Sat config s' s'') : Sat config s s'' :=
  ⟨h.onward.trans h'.onward, fun n hn => h.pending n (h'.pending n hn)⟩

theorem sat_alike (h : Onward config s s') (ha : Alike s.toDagModule s'.toDagModule) :
    Sat config s s' :=
  ⟨h, fun n hn => ha.node n ▸ hn⟩

theorem sits_harmless {α : Type} {x : DagM α} (hx : Harmless x) :
    Respects (onGraph (Sits config)) x := by
  intro d s hs h
  subst hs
  exact sat_alike (secures_harmless hx _ s rfl h) (hx _ h.fair.legible h.tracker).1

variable (config) in
theorem sits_beside : Beside config (fun _ => True) (Sits config) where
  refl _ h := sat_alike (.refl h) (.refl h.fair.legible)
  trans _ _ _ hst htu h := (hst h).trans (htu (hst h).onward.secure)
  number s seqNo h := sat_alike ((secures_lawful config).number s seqNo h) (.refl h.fair.legible)
  tips := sits_harmless harmless_getWaitList
  insert data _ := sits_harmless (harmless_insert data)
  map payload n := sits_harmless (harmless_addPayloadMap payload n)
  track n := sits_harmless (harmless_track n)
  harvest := by
    intro s h
    have honward := secures_dagHarvest s h
    obtain ⟨d, s', -, hreaps, hrun, hlike, -⟩ := exec_dagHarvest_secure h
    rw [hrun] at honward ⊢
    refine ⟨honward, fun n hn => ?_⟩
    rwa [hlike.node, Ne, hreaps.pending] at hn

theorem beside_draft {S : Data → Prop} {R : LedgerModule → LedgerModule → Prop}
    (h : Beside config S R) {request : Request} (hdata : request.Submits S)
    (hcollect : Respects R (collectPointers config)) : Respects R (draft config request) := by
  cases request with
  | submission data verdict pub =>
      unfold draft
      dsimp only
      split
      · refine Respects.bind h.trans (respects_onGraph (h.insertNew hdata)) fun isNew => ?_
        split
        · exact Respects.bind h.trans (h.newRecord _) fun record => Respects.pure h.refl _
        · exact Respects.pure h.refl _
      · exact Respects.pure h.refl _
  | reply pub =>
      refine Respects.bind h.trans hcollect fun pointers => ?_
      split
      · exact Respects.pure h.refl _
      · exact Respects.pure h.refl _

theorem beside_send {S : Data → Prop} {R : LedgerModule → LedgerModule → Prop}
    (h : Beside config S R) {pub : Publication}
    (hpub : ∀ p, Publication.Packet config pub p → S p) (record : Option Record) :
    Respects R (send config pub record) := by
  cases record with
  | none => exact Respects.pure h.refl _
  | some record =>
      exact Respects.bind h.trans (h.publishRecord hpub record) fun _ => Respects.pure h.refl _

theorem beside_publish {S : Data → Prop} {R : LedgerModule → LedgerModule → Prop}
    (h : Beside config S R) {request : Request} (hdata : request.Submits S)
    (hpub : ∀ p, Publication.Packet config request.publication p → S p)
    (hcollect : Respects R (collectPointers config)) : Respects R (publish config request) :=
  Respects.bind h.trans (beside_draft h hdata hcollect) fun record => beside_send h hpub record

theorem sits_collectPointers : Respects (Sits config) (collectPointers config) := by
  intro s h
  obtain ⟨pointers, t, hrun, ht, hdag, -⟩ := exec_collectPointers h
  rw [hrun]
  exact ⟨ht, fun n hn => hdag ▸ hn⟩

/-- Up to the publication nothing is loaded. -/
theorem sits_publish (request : Request) : Respects (Sits config) (publish config request) :=
  beside_publish (sits_beside config) (by cases request <;> exact trivial) (fun _ _ => trivial)
    sits_collectPointers

/-- A loaded record has been loaded before, or it is the one that has been added. -/
structure Gained (config : LedgerConfig) (r : Record) (s s' : LedgerModule) : Prop where
  onward : Onward config s s'
  gained : ∀ n, (node s'.toDagModule n).status ≠ .INITIALIZED →
    (node s.toDagModule n).status ≠ .INITIALIZED ∨
      (n = toStateName r.name ∧ (node s'.toDagModule n).record = r)

/-- An addition and what follows it. -/
theorem gained_add (h : Secure config s) (r : Record) {k : Name → LedgerM Unit}
    (hk : ∀ n, Respects (Sits config) (k n)) : Gained config r s (exec (do
      let stateName ← onDag (add config.toDagConfig r)
      k stateName) s).2 := by
  obtain ⟨-, htakes⟩ := fair_add h.fair r
  have hadded := (secures_lawful config).add r _ s rfl h
  rcases hrun : exec (add config.toDagConfig r) s.toDagModule with ⟨e | stateName, d⟩ <;>
    rw [hrun] at htakes hadded
  all_goals
    have hgained : ∀ n, (node d n).status ≠ .INITIALIZED →
        (node s.toDagModule n).status ≠ .INITIALIZED ∨
          (n = toStateName r.name ∧ (node d n).record = r) := by
      intro n hn
      by_cases he : n = toStateName r.name
      · subst he
        rcases htakes.self with hsame | hnew
        · exact .inl (hsame.1 ▸ hn)
        · exact .inr ⟨rfl, hnew.2.2⟩
      · exact .inl ((htakes.other n he).1 ▸ hn)
  · rw [exec_bind_error (exec_onDag_of hrun)]
    exact ⟨hadded, hgained⟩
  · have hrest := hk stateName _ hadded.secure
    rw [exec_bind_ok (exec_onDag_of hrun)]
    refine ⟨hadded.trans hrest.onward, fun n hn => ?_⟩
    have hd := hrest.pending n hn
    exact (hgained n hd).imp_right fun hnew =>
      ⟨hnew.1, ((hrest.onward.loaded n hd).2).trans hnew.2⟩

theorem gained_sync (h : Secure config s) (r : Record) :
    Gained config r s (perform config s (.sync r)) :=
  gained_add h r fun n => (sits_beside config).store n fun _ =>
    (sits_beside config).storePayload (fun _ => trivial) r.payload n

theorem gained_request (h : Secure config s) (request : Request) :
    (published config s request = none ∧ Sat config s (perform config s request.event)) ∨
      ∃ r t, published config s request = some r ∧ Sat config s t ∧
        exec (publish config request) s = (.ok (some r), t) ∧
        Gained config r t (perform config s request.event) := by
  have hpub := sits_publish request s h
  rcases request_cases config s request with ⟨t, r, hrun, hout, hend⟩ | ⟨t, res, hrun, hout, hend⟩ <;>
    rw [hrun] at hpub
  · obtain ⟨k, hconclude, hk⟩ := conclude_eq config request r
    refine .inr ⟨r, t, hout, hpub, hrun, ?_⟩
    rw [hend, hconclude]
    exact gained_add hpub.onward.secure r (hk _ (sits_beside config))
  · exact .inl ⟨hout, hend ▸ hpub⟩

/-! ## Additions that cannot fail -/

theorem loaded_add (hs : Sane config.toDagConfig s.toDagModule) (h : Secure config s)
    (r : Record) {k : Name → LedgerM Unit} (hk : ∀ n, Respects (Sits config) (k n)) :
    (node (exec (do
      let stateName ← onDag (add config.toDagConfig r)
      k stateName) s).2.toDagModule (toStateName r.name)).status ≠ .INITIALIZED := by
  have hadded := (secures_lawful config).add r _ s rfl h
  obtain ⟨d, hrun, hload⟩ : ∃ d, exec (add config.toDagConfig r) s.toDagModule =
      (.ok (toStateName r.name), d) ∧ (node d (toStateName r.name)).status ≠ .INITIALIZED := by
    by_cases hnew : (node s.toDagModule (toStateName r.name)).status = .INITIALIZED
    · obtain ⟨d, hrun, -, ha⟩ := hs.consistent.add_new hnew
      refine ⟨d, hrun, ?_⟩
      rw [← DagRefinement.mem_loaded, ha.abs_eq]
      exact Set.mem_insert _ _
    · exact ⟨_, hs.consistent.add_old hnew, hnew⟩
  rw [hrun] at hadded
  rw [exec_bind_ok (exec_onDag_of hrun)]
  exact ((hk _ _ hadded.secure).onward.loaded _ hload).1

theorem loaded_sync (hs : Sane config.toDagConfig s.toDagModule) (h : Secure config s)
    (r : Record) :
    (node (perform config s (.sync r)).toDagModule (toStateName r.name)).status ≠ .INITIALIZED :=
  loaded_add hs h r fun n => (sits_beside config).store n fun _ =>
    (sits_beside config).storePayload (fun _ => trivial) r.payload n

theorem saves_collectPointers : Respects (onLedger (Saves config)) (collectPointers config) := by
  refine Respects.bind (onLedger_trans (saves_trans config))
    (respects_onDag (saves_harvestBelow config config.policyThreshold)) fun records => ?_
  refine Respects.foldlM (onLedger_refl (saves_refl config)) (onLedger_trans (saves_trans config))
    (fun pointers record _ t => ?_) []
  rw [collectReply, exec_bind_ok (exec_get t)]
  split
  · exact saves_refl config _
  · exact saves_refl config _

/-- A record that a ledger has published is loaded there. -/
theorem loaded_published (hs : Sane config.toDagConfig s.toDagModule) (h : Secure config s)
    {request : Request} (hout : Outside config request.event) {r : Record}
    (hr : published config s request = some r) :
    (node (perform config s request.event).toDagModule (toStateName r.name)).status ≠
      .INITIALIZED := by
  have hpub := sits_publish request s h
  have hsane : onLedger (Saves config) s (exec (publish config request) s).2 := by
    refine beside_publish (saves_lawful config).toBeside ?_ ?_ saves_collectPointers s
    · cases request with
      | submission data verdict pub => exact hout.1
      | reply pub => exact trivial
    · cases request with
      | submission data verdict pub => exact hout.2
      | reply pub => exact hout
  rcases request_cases config s request with ⟨t, r', hrun, hout', hend⟩ | ⟨t, res, -, hout', -⟩
  · obtain rfl := Option.some.inj (hout'.symm.trans hr)
    obtain ⟨k, hconclude, hk⟩ := conclude_eq config request r'
    rw [hrun] at hpub hsane
    rw [hend, hconclude]
    exact loaded_add (hsane hs) hpub.onward.secure r' (hk _ (sits_beside config))
  · cases hout'.symm.trans hr

/-! ## Sequence numbers -/

def SameNumber (s s' : LedgerModule) : Prop := s'.seqNo = s.seqNo

omit [NdnCxx] in
theorem sameNumber_trans (s t u : LedgerModule) (h : SameNumber s t) (h' : SameNumber t u) :
    SameNumber s u := Eq.trans h' h

omit [NdnCxx] in
theorem sameNumber_onDag {α : Type} (x : DagM α) : Respects SameNumber (onDag x) := fun _ => rfl

theorem sameNumber_draft (request : Request) : Respects SameNumber (draft config request) := by
  have refl : ∀ s, SameNumber s s := fun _ => rfl
  have trans := sameNumber_trans
  cases request with
  | submission data verdict pub =>
      unfold draft
      dsimp only
      split
      · refine Respects.bind trans (sameNumber_onDag _) fun isNew => ?_
        split
        · refine Respects.bind trans ?_ fun record => Respects.pure refl _
          refine Respects.bind trans (sameNumber_onDag _) fun waiting => ?_
          dsimp only
          split
          · exact Respects.bind trans (fun s => refl s) fun _ => Respects.pure refl _
          · exact Respects.pure refl _
        · exact Respects.pure refl _
      · exact Respects.pure refl _
  | reply pub =>
      refine Respects.bind trans ?_ fun pointers => ?_
      · refine Respects.bind trans (sameNumber_onDag _) fun records => ?_
        refine Respects.foldlM refl trans (fun pointers record _ s => ?_) []
        rw [collectReply, exec_bind_ok (exec_get s)]
        split
        · rfl
        · rfl
      · split
        · exact Respects.pure refl _
        · exact Respects.pure refl _

theorem sameNumber_dagHarvest : Respects SameNumber (dagHarvest config) := by
  have refl : ∀ s, SameNumber s s := fun _ => rfl
  have trans := sameNumber_trans
  refine Respects.bind trans (sameNumber_onDag _) fun records =>
    Respects.foldlM refl trans (fun _ r _ => ?_) ()
  exact Respects.bind trans (fun s => by rw [exec_modify]; rfl) fun _ => sameNumber_onDag _

theorem sameNumber_conclude (request : Request) (record : Record) :
    Respects SameNumber (conclude config request record) := by
  have trans := sameNumber_trans
  cases request with
  | submission data verdict pub =>
      exact Respects.bind trans (sameNumber_onDag _) fun stateName =>
        Respects.bind trans (sameNumber_onDag _) fun _ =>
          Respects.bind trans (sameNumber_onDag _) fun _ => sameNumber_dagHarvest
  | reply pub => exact Respects.bind trans (sameNumber_onDag _) fun _ => sameNumber_dagHarvest

theorem sameNumber_sync (record : Record) :
    Respects SameNumber (yieldRecord config record) := by
  have trans := sameNumber_trans
  refine Respects.bind trans (sameNumber_onDag _) fun stateName =>
    Respects.bind trans (sameNumber_onDag _) fun _ =>
      Respects.bind trans (sameNumber_onDag _) fun goesOn => ?_
  split
  · exact sameNumber_dagHarvest
  · exact fun _ => rfl

/-- A request that has published gives the record the next name, and any other request leaves
the number of the latest publication. -/
theorem number_publish (s : LedgerModule) (request : Request) :
    match exec (publish config request) s with
    | (.ok (some r), t) => r.name = nextName config s ∧ request.publication.seqNo = some t.seqNo
    | (_, t) => t.seqNo = s.seqNo := by
  have hdraft := @sameNumber_draft _ config request s
  rcases hrun : exec (draft config request) s with ⟨e | record, t⟩ <;> rw [hrun] at hdraft
  · rw [publish, exec_bind_error hrun]
    exact hdraft
  · rw [publish, exec_bind_ok hrun]
    cases record with
    | none => exact hdraft
    | some record =>
        rw [send]
        rcases hpub : exec (publishRecord config request.publication record) t with ⟨e | name, u⟩
        · rw [exec_bind_error hpub]
          exact (publishRecord_error config hpub).trans hdraft
        · obtain ⟨hname, hseq⟩ := publishRecord_ok config hpub
          rw [exec_bind_ok hpub]
          refine ⟨hname.trans ?_, hseq⟩
          rw [nextName, nextName, hdraft]

theorem number_published {request : Request} {r : Record}
    (h : published config s request = some r) : r.name = nextName config s ∧
      request.publication.seqNo = some (perform config s request.event).seqNo := by
  have hnumber := @number_publish _ config s request
  rcases request_cases config s request with ⟨t, r', hrun, hout, hend⟩ | ⟨t, res, -, hout, -⟩
  · obtain rfl := Option.some.inj (hout.symm.trans h)
    rw [hrun] at hnumber
    rw [hend, sameNumber_conclude request r' t]
    exact hnumber
  · cases hout.symm.trans h

theorem number_unpublished {request : Request} (h : published config s request = none) :
    (perform config s request.event).seqNo = s.seqNo := by
  have hnumber := @number_publish _ config s request
  rcases request_cases config s request with ⟨t, r, -, hout, -⟩ | ⟨t, res, hrun, -, hend⟩
  · cases hout.symm.trans h
  · rw [hend]
    rw [published, hrun] at h
    rw [hrun] at hnumber
    rcases res with e | record
    · exact hnumber
    · cases record with
      | none => exact hnumber
      | some r => cases h

end

end

end CertLedger.LedgerNetwork
