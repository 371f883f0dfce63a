import CertLedger.EventRuns
import CertLedger.LedgerQueries

/-!
# Logged payloads are found

A query looks Data up by name, takes the bytes of the block it finds, and follows
the payload map of these bytes to the state of the record that logs them. For a
submission the map is made for the same bytes. For a synced record it is made for
the whole payload, and the Data stored is what the payload begins with.
-/
namespace CertLedger.PayloadRuns
open Std TlvCodec FallibleState NdnObjects RecordCodec EdgeStateCodec LedgerIndexCodec
open PayloadMap OrderedContainers DagEngine DagStates DagEffects DagRefinement DagRuns DagSafety
open LedgerHandlers LedgerEffects LedgerConsistency SubmissionRuns HarvestRuns LedgerQueries
open EventRuns PlainNdn

section
variable [NdnCxx] (config : LedgerConfig)

/-- The Data an event can put into the storage. -/
def Puts : Event → Data → Prop
  | .submission data _ pub, p => p = data ∨ Publication.Packet config pub p
  | .sync record, p => record.type ≠ REPLY_RECORD ∧ payloadData record.payload = .ok p
  | .reply pub, p => Publication.Packet config pub p

/-- No Data takes a name that the ledger uses for its own objects. -/
structure Apart (event : Event) : Prop where
  states : Outside config event
  maps : ∀ data, Puts config event data → ∀ payload, data.name ≠ toMapName payload

/-- The Data that an event logs, unless the name is taken. -/
def payloadOf (s : LedgerModule) : Event → Option Data
  | .submission data verdict _ =>
      if verdict = true ∧ s.storage.list[data.name]? = none then some data else none
  | .sync record =>
      if record.type = REPLY_RECORD then none else
        match payloadData record.payload with
        | .ok data => if s.storage.list[data.name]? = none then some data else none
        | .error _ => none
  | .reply _ => none

/-- The Data logged in a run, in order. -/
def payloads : LedgerModule → List Event → List Data
  | _, [] => []
  | s, event :: events => (payloadOf s event).toList ++ payloads (perform config s event) events

/-- The publication for a new submission does not fail. -/
def Publishes (s : LedgerModule) : Event → Prop
  | .submission data verdict pub => payloadOf s (.submission data verdict pub) = some data →
      (exec (publishPayload config pub data.wire.wire) (withPacket s data)).1.isOk = true
  | _ => True

/-- A record that has this name and this payload is all there is to log the Data: the payload
has no map yet, and the name belongs to no loaded record with another payload. -/
structure Loggable (s : LedgerModule) (data : Data) (name : Name) (payload : Buffer) : Prop where
  whole : data.wire.wire = payload
  unmapped : s.storage.list[toMapName payload]? = none
  carries : ∀ r, loadedRecord s.toDagModule (toStateName name) = some r → r.payload = payload

/-- The record of an event can log the Data of the event. -/
def Logs (s : LedgerModule) : Event → Data → Prop
  | .submission submitted _ _, data => Loggable s data (nextName config s) submitted.wire.wire
  | .sync record, data => Loggable s data record.name record.payload
  | .reply _, _ => True

/-- The lookups of a query for the Data meet its bytes, their map, and a loaded state whose
record has the bytes as its payload. -/
structure Indexed (d : DagModule) (data : Data) (s : EdgeState) : Prop where
  packet : d.storage.list[data.name]? = some data.wire
  map : d.storage.list[toMapName data.wire.wire]? = some (encodePayloadMap
    ⟨toMapName data.wire.wire, toStateName s.record.name⟩)
  state : stateAt d (toStateName s.record.name) = some s
  loaded : s.status ≠ .INITIALIZED
  payload : s.record.payload = data.wire.wire

section
variable {config}
variable {d d' : DagModule} {data : Data} {state : EdgeState}

theorem Indexed.query (h : Indexed d data state) (hr : d.storage.faults = []) :
    exec (queryState data.name) d = (.ok state, d) := by
  obtain ⟨block, hblock, hdecode⟩ := stateAt_eq_some.mp h.state
  rw [queryState, exec_bind_ok (exec_getter hr h.packet), exec_bind_ok (exec_getter hr h.map),
    decodePayloadMap_encodePayloadMap, exec_bind_ok (exec_lift _ _),
    exec_bind_ok (exec_getter hr hblock), hdecode]
  rfl

theorem Indexed.keeps (h : Indexed d data state) (hk : Keeps d d') (hr : d.storage.faults = []) :
    ∃ state', Indexed d' data state' := by
  obtain ⟨state', hs, hl, hrecord⟩ := hk.loaded hr _ state h.state h.loaded
  rw [← hrecord] at hs
  refine ⟨state', hk.lasting _ _ h.packet (lasting_packet data), ?_, hs, hl,
    (congrArg Record.payload hrecord).trans h.payload⟩
  rw [hrecord]
  exact hk.lasting _ _ h.map (lasting_map _)

/-- The map is what is missing once the record is loaded and the Data is stored. -/
theorem exec_addPayloadMap_indexed (h : Sane config.toDagConfig d)
    (hpacket : d.storage.list[data.name]? = some data.wire)
    (hfree : d.storage.list[toMapName data.wire.wire]? = none)
    (hs : stateAt d (toStateName state.record.name) = some state)
    (hl : state.status ≠ .INITIALIZED) (hpayload : state.record.payload = data.wire.wire) :
    ∃ d', exec (addPayloadMap data.wire.wire (toStateName state.record.name)) d = (.ok (), d') ∧
      Sane config.toDagConfig d' ∧ Indexed d' data state := by
  have hstores := stores_addPayloadMap data.wire.wire (toStateName state.record.name) d
  have hrun := exec_adder h.consistent.clean.reliable hfree
    (encodePayloadMap ⟨toMapName data.wire.wire, toStateName state.record.name⟩)
  rw [addPayloadMap, hrun] at hstores
  have hforeign : Stores Foreign d _ := hstores.mono mapBlock_outside
  refine ⟨_, hrun, sane_stores h hforeign, hforeign.kept hpacket, ?_, ?_, hl, hpayload⟩
  · exact (getElem?_insert _ _ _ _).trans (if_pos rfl)
  · rw [hforeign.stateAt fun n b hb => hb.2]
    exact hs

/-- The graph holds a record of this name and payload after the addition, new or not. -/
theorem exec_add_carries (h : Sane config.toDagConfig d) {record : Record}
    (hcarries : ∀ r, loadedRecord d (toStateName record.name) = some r →
      r.payload = record.payload) :
    ∃ d' state, exec (add config.toDagConfig record) d = (.ok (toStateName record.name), d') ∧
      Sane config.toDagConfig d' ∧
      (∀ n : Name, ¬IsStateName n → d'.storage.list[n]? = d.storage.list[n]?) ∧
      stateAt d' (toStateName record.name) = some state ∧ state.status ≠ .INITIALIZED ∧
      state.record.name = record.name ∧ state.record.payload = record.payload := by
  have hlegible := Legible.of_clean h.consistent.clean
  obtain ⟨d', hrun, hsane, hothers⟩ := exec_add_sane h record
  by_cases hnew : loadedRecord d (toStateName record.name) = none
  · obtain ⟨state, hs, hl, hrecord⟩ := add_logs hlegible.keyed hlegible.reliable
      (loadedRecord_eq_none hnew) hrun
    exact ⟨d', state, hrun, hsane, hothers, hs, hl, congrArg Record.name hrecord,
      congrArg Record.payload hrecord⟩
  · obtain ⟨r, hr⟩ := Option.ne_none_iff_exists'.mp hnew
    obtain ⟨state, hs, hl, hrecord⟩ := loadedRecord_eq_some.mp hr
    have hold := h.consistent.add_old (r := record) (by rw [node_of_stateAt hs]; exact hl)
    obtain rfl : d = d' := congrArg Prod.snd (hold.symm.trans hrun)
    have hname := hlegible.record_name (Option.isSome_iff_exists.mpr ⟨state, hs⟩)
    rw [node_of_stateAt hs, fromStateName_toStateName] at hname
    exact ⟨d, state, hrun, hsane, hothers, hs, hl, hname, hrecord ▸ hcarries r hr⟩

/-! ## One event -/

/-- A submission that is new and published is logged. -/
theorem indexed_submission {s : LedgerModule} (h : Sane config.toDagConfig s.toDagModule)
    {pub : Publication} (hapart : Apart config (.submission data true pub))
    (hfree : s.storage.list[data.name]? = none)
    (hpub : (exec (publishPayload config pub data.wire.wire) (withPacket s data)).1.isOk = true)
    (hlog : Loggable s data (nextName config s) data.wire.wire) :
    ∃ state, Indexed (perform config s (.submission data true pub)).toDagModule data state := by
  have hpacket := stores_withPacket data hfree
  have hforeign := foreign_packets (fun _ hp => hp ▸ hapart.states.1) hpacket
  rw [perform_submission, exec_afterValidation_free config h.consistent.clean.reliable hfree]
  rcases exec_logPayload config (withPacket s data) pub data.wire.wire with
    ⟨e, t, -, -, -, herror⟩ | ⟨r, s₁, hrun, hstores, hname, -, hdraft, -⟩
  · rw [herror] at hpub
    cases hpub
  · have hall := hforeign.trans (foreign_packets hapart.states.2 hstores)
    have hsane := sane_stores h hall
    -- the name of the record is as open as it was before, and so is that of the map
    have hcarries : ∀ q, loadedRecord s₁.toDagModule (toStateName r.name) = some q →
        q.payload = r.payload := by
      intro q hq
      rw [hdraft.payload]
      refine hlog.carries q ?_
      rw [← hq, hname, loadedRecord, loadedRecord, node_stores hall]
      rfl
    have hunmapped : s₁.storage.list[toMapName data.wire.wire]? = none := by
      refine hstores.free (hpacket.free hlog.unmapped ?_) ?_
      · rintro b ⟨p, rfl, hp, -⟩
        exact hapart.maps _ (.inl rfl) _ hp
      · rintro b ⟨p, hp, hn, -⟩
        exact hapart.maps p (.inr hp) _ hn
    obtain ⟨d₁, state, hadd, hsane₁, hothers, hs, hl, hrname, hpayload⟩ :=
      exec_add_carries hsane hcarries
    rw [hdraft.payload] at hpayload
    obtain ⟨d₂, hmap, hsane₂, hindexed⟩ := exec_addPayloadMap_indexed hsane₁
      ((hothers _ hapart.states.1).trans (hstores.kept (withPacket_list s data)))
      ((hothers _ (toMapName_not_state _)).trans hunmapped) (hrname ▸ hs) hl hpayload
    rw [hrname] at hmap
    have hlawful := steady_lawful config
    have hrest : Respects (onLedger Steady) (do
        onDag (updateStatesTracker config (toStateName r.name) false)
        dagHarvest config) :=
      Respects.bind hlawful.trans (respects_onGraph (hlawful.track _)) fun _ => hlawful.harvest
    rw [hrun, logRecord, hdraft.payload, exec_bind_ok (exec_onDag_of hadd),
      exec_bind_ok (exec_onDag_of hmap)]
    exact hindexed.keeps (hrest ((s₁.withDag d₁).withDag d₂)
      (Legible.of_clean hsane₂.consistent.clean).keyed) hsane₂.consistent.clean.reliable

/-- A synced record whose payload is new logs the Data, if the Data is the whole payload. -/
theorem indexed_sync {s : LedgerModule} (h : Sane config.toDagConfig s.toDagModule)
    {record : Record} (hname : ¬IsStateName data.name)
    (hapart : data.name ≠ toMapName data.wire.wire) (htype : record.type ≠ REPLY_RECORD)
    (hd : payloadData record.payload = .ok data) (hfree : s.storage.list[data.name]? = none)
    (hlog : Loggable s data record.name record.payload) :
    ∃ state, Indexed (perform config s (.sync record)).toDagModule data state := by
  obtain ⟨d₁, state, hadd, hsane₁, hothers, hs, hl, hrname, hpayload⟩ :=
    exec_add_carries h hlog.carries
  obtain ⟨l, hlist⟩ := hsane₁.tracker
  have htrack := exec_updateStatesTracker_false config hsane₁.consistent.clean.reliable hlist
    (toStateName record.name)
  have hsane₂ := sane_tracked hsane₁ l (toStateName record.name)
  have hs₂ := (stateAt_tracked hsane₁.consistent.clean l (toStateName record.name) _).trans hs
  -- no name is taken that was free before, but that of the tracker
  have hopen : ∀ n : Name, ¬IsStateName n → s.storage.list[n]? = none →
      (tracked l (toStateName record.name) d₁).storage.list[n]? = none := by
    intro n hn hnone
    have hnone₁ := (hothers n hn).trans hnone
    rw [tracked_list l _ _ fun he => by simp [he, hlist] at hnone₁]
    exact hnone₁
  generalize tracked l (toStateName record.name) d₁ = d₂ at htrack hsane₂ hs₂ hopen
  have hinsert := exec_insertNew_free hsane₂.consistent.clean.reliable (hopen _ hname hfree)
  have hstores := stores_insertNew (S := (· = data)) rfl d₂
  rw [hinsert] at hstores
  have hforeign := foreign_packets (fun _ hp => hp ▸ hname) hstores
  have hsane₃ := sane_stores hsane₂ hforeign
  have hpacket : (d₂.storage.list.insert data.name data.wire)[data.name]? = some data.wire :=
    (getElem?_insert _ _ _ _).trans (if_pos rfl)
  have hs₃ := (hforeign.stateAt (fun n b hb => hb.2) (toStateName record.name)).trans hs₂
  have hunmapped := hstores.free
    (hopen _ (toMapName_not_state _) (hlog.whole ▸ hlog.unmapped)) (by
      rintro b ⟨p, rfl, hn, -⟩
      exact hapart hn)
  obtain ⟨d₄, hmap, hsane₄, hindexed⟩ := exec_addPayloadMap_indexed hsane₃ hpacket hunmapped
    (hrname ▸ hs₃) hl (hpayload.trans hlog.whole.symm)
  rw [hrname, hlog.whole] at hmap
  have hyield : exec (yieldPayload record (toStateName record.name)) d₂ = (.ok true, d₄) := by
    rw [yieldPayload, if_pos htype, exec_storePayload hd, storeData, exec_bind_ok hinsert]
    exact exec_bind_ok (exec_tryCatch_ok hmap)
  have hrest := (steady_lawful config).harvest
  rw [perform, Event.handle, yieldRecord, exec_bind_ok (exec_onDag_of hadd),
    exec_bind_ok (exec_onDag_of (s := s.withDag d₁) htrack),
    exec_bind_ok (exec_onDag_of (s := (s.withDag d₁).withDag d₂) hyield)]
  exact hindexed.keeps (hrest (((s.withDag d₁).withDag d₂).withDag d₄)
    (Legible.of_clean hsane₄.consistent.clean).keyed) hsane₄.consistent.clean.reliable

theorem payloadOf_submission {s : LedgerModule} {submitted : Data} {verdict : Bool}
    {pub : Publication} : payloadOf s (.submission submitted verdict pub) = some data ↔
      submitted = data ∧ verdict = true ∧ s.storage.list[data.name]? = none := by
  rw [payloadOf]
  by_cases hv : verdict = true ∧ s.storage.list[submitted.name]? = none
  · rw [if_pos hv, Option.some.injEq]
    exact ⟨fun he => ⟨he, hv.1, he ▸ hv.2⟩, fun he => he.1⟩
  · rw [if_neg hv]
    refine ⟨fun he => (Option.some_ne_none data he.symm).elim, ?_⟩
    rintro ⟨rfl, hverdict, hfree⟩
    exact (hv ⟨hverdict, hfree⟩).elim

theorem payloadOf_sync {s : LedgerModule} {record : Record} :
    payloadOf s (.sync record) = some data ↔ record.type ≠ REPLY_RECORD ∧
      payloadData record.payload = .ok data ∧ s.storage.list[data.name]? = none := by
  rw [payloadOf]
  by_cases htype : record.type = REPLY_RECORD
  · simp [htype]
  · rw [if_neg htype]
    cases payloadData record.payload with
    | error e => simp
    | ok found =>
        dsimp only
        split_ifs with hfree
        · simp only [htype, ne_eq, not_false_eq_true, true_and, Option.some.injEq, Except.ok.injEq]
          exact ⟨fun he => ⟨he, he ▸ hfree⟩, fun he => he.1⟩
        · simp only [false_iff]
          rintro ⟨-, hd, hnone⟩
          exact hfree (Except.ok.inj hd ▸ hnone)

/-- Whatever an event logs is found afterwards. -/
theorem indexed_perform {s : LedgerModule} (h : Sane config.toDagConfig s.toDagModule)
    {event : Event} (hapart : Apart config event) (hpub : Publishes config s event)
    (hdata : payloadOf s event = some data) (hlog : Logs config s event data) :
    ∃ state, Indexed (perform config s event).toDagModule data state := by
  cases event with
  | submission submitted verdict pub =>
      obtain ⟨rfl, rfl, hfree⟩ := payloadOf_submission.mp hdata
      exact indexed_submission h hapart hfree (hpub hdata) hlog
  | sync record =>
      obtain ⟨htype, hd, hfree⟩ := payloadOf_sync.mp hdata
      exact indexed_sync h (hapart.states htype data hd) (hapart.maps data ⟨htype, hd⟩ _) htype hd
        hfree hlog
  | reply pub => cases hdata

/-! ## Runs -/

theorem payloads_append (s : LedgerModule) (events : List Event) (event : Event) :
    payloads config s (events ++ [event]) = payloads config s events ++
      (payloadOf (events.foldl (perform config) s) event).toList := by
  induction events generalizing s with
  | nil => simp [payloads]
  | cons first events ih => simp [payloads, ih, List.append_assoc]

/-- In a run in which every event can log the Data it stores, a query for any of them finds the
state of a loaded record whose payload is exactly the Data. -/
theorem payloads_indexed (events : List Event)
    (h : Throughout (perform config) (fun s event => Apart config event ∧
      Publishes config s event ∧ ∀ data, payloadOf s event = some data → Logs config s event data)
      (start []) events) :
    ∀ data ∈ payloads config (start []) events, ∃ state,
      Indexed (after config [] events).toDagModule data state ∧
        exec (queryState data.name) (after config [] events).toDagModule =
          (.ok state, (after config [] events).toDagModule) := by
  have hall : Sane config.toDagConfig (after config [] events).toDagModule ∧
      ∀ data ∈ payloads config (start []) events, ∃ state,
        Indexed (after config [] events).toDagModule data state := by
    induction events using List.reverseRecOn with
    | nil => exact ⟨sane_start config, by simp [payloads]⟩
    | append_singleton events event ih =>
        obtain ⟨hbefore, hapart, hpub, hlogs⟩ := (throughout_concat _ _ _).mp h
        obtain ⟨hsane, hindexed⟩ := ih hbefore
        rw [after_append, payloads_append]
        refine ⟨saves_handle config hapart.states _ hsane, fun data hdata => ?_⟩
        rcases List.mem_append.mp hdata with hold | hnew
        · obtain ⟨state, hstate⟩ := hindexed data hold
          have hclean := hsane.consistent.clean
          exact hstate.keeps (steady_handle config event _ (Legible.of_clean hclean).keyed)
            hclean.reliable
        · have hnew := Option.mem_toList.mp hnew
          exact indexed_perform hsane hapart hpub hnew (hlogs data hnew)
  intro data hdata
  obtain ⟨state, hstate⟩ := hall.2 data hdata
  exact ⟨state, hstate, hstate.query hall.1.consistent.clean.reliable⟩

theorem payloadData_append (data : Data) (rest : Buffer) :
    payloadData (data.wire.wire ++ rest) = .ok data := by
  rw [payloadData, readBlock_wire, parsed_some]
  exact Data.ofBlock_wire data

/-- The internal names begin with keywords. -/
theorem apart_of_generic {event : Event}
    (h : ∀ p, Puts config event p → p.name.head?.map Block.type = some 8) : Apart config event := by
  have hstate : ∀ p, Puts config event p → ¬IsStateName p.name := by
    rintro p hp ⟨m, hm⟩
    have hkeyword : (toStateName m).head?.map Block.type = some 32 := rfl
    have hhead := h p hp
    rw [hm, hkeyword] at hhead
    exact absurd hhead (by decide)
  have hmap : ∀ p, Puts config event p → ∀ payload, p.name ≠ toMapName payload := by
    intro p hp payload hm
    have hkeyword : (toMapName payload).head?.map Block.type = some 32 := rfl
    have hhead := h p hp
    rw [hm, hkeyword] at hhead
    exact absurd hhead (by decide)
  refine ⟨?_, hmap⟩
  cases event with
  | submission data verdict pub => exact ⟨hstate data (.inl rfl), fun p hp => hstate p (.inr hp)⟩
  | sync record => exact fun htype data hd => hstate data ⟨htype, hd⟩
  | reply pub => exact hstate

end

end

section

/-- The name "/B". -/
def nameB : Name := [Name.generic [66]]

/-- The payload of a peer: the packet "/A" and one more byte. -/
def trailedA : Buffer := (packet nameA [1]).wire ++ [0]

/-- The digests of the payloads below. -/
def payloadDigests : List (Buffer × Buffer) := packetDigests ++
  [(trailedA,
    [139, 66, 25, 77, 233, 135, 212, 173, 81, 219, 184, 124, 241, 224, 31, 117, 240, 41, 33, 194,
      6, 131, 208, 100, 99, 183, 193, 25, 225, 136, 32, 101]),
    ((packet nameB [1]).wire,
    [72, 239, 129, 205, 8, 15, 2, 166, 245, 90, 185, 206, 8, 49, 221, 38, 168, 123, 83, 146, 121,
      118, 206, 155, 181, 58, 87, 194, 50, 125, 65, 142])]

local instance : NdnCxx := plainNdn payloadDigests

def packetFor (name : Name) (content : Buffer) : Data :=
  ⟨packet name content, name, dataName_packet name content⟩

def published (seqNo : UInt64) : Publication where
  packets name content := [packetFor name content]
  seqNo := some seqNo

/-- The record of a peer that logs the packet "/B". -/
def peerB : Record where
  name := nameB
  pointers := [ledger.instancePrefix.appendSequenceNumber 1]
  payload := (packet nameB [1]).wire

/-- The record of a peer with more than the packet "/A" in its payload. -/
def peerA : Record where
  name := nameB
  payload := trailedA

def loggedAB : List Event :=
  [.submission (packetFor nameA [1]) true (published 1), .sync peerB]

theorem payloadData_packet (name : Name) (content rest : Buffer) :
    payloadData ((packet name content).wire ++ rest) = .ok (packetFor name content) :=
  payloadData_append (packetFor name content) rest

theorem apart_submission (seqNo : UInt64) :
    Apart ledger (.submission (packetFor nameA [1]) true (published seqNo)) := by
  refine apart_of_generic fun p hp => ?_
  rcases hp with rfl | ⟨n, content, hp⟩
  · rfl
  · rw [List.mem_singleton.mp hp]
    rfl

theorem apart_sync {record : Record} {name : Name} {content rest : Buffer}
    (hpayload : record.payload = (packet name content).wire ++ rest)
    (hname : name.head?.map Block.type = some 8) : Apart ledger (.sync record) := by
  refine apart_of_generic fun p hp => ?_
  have hd := hp.2
  rw [hpayload, payloadData_packet] at hd
  obtain rfl := Except.ok.inj hd
  exact hname

theorem not_loaded {d : DagModule} {n : Name} (h : (loadedRecord d n).isNone = true) (r : Record) :
    loadedRecord d n ≠ some r := by
  rw [Option.isNone_iff_eq_none.mp h]
  exact (Option.some_ne_none r).symm

theorem loggedAB_logs : Throughout (perform ledger) (fun s event => Apart ledger event ∧
    Publishes ledger s event ∧ ∀ data, payloadOf s event = some data → Logs ledger s event data)
    (start []) loggedAB := by
  refine ⟨⟨apart_submission 1, fun _ => by decide +kernel, fun data hdata => ?_⟩,
    ⟨apart_sync (List.append_nil _).symm rfl, trivial, fun data hdata => ?_⟩, trivial⟩
  · obtain ⟨rfl, -⟩ := payloadOf_submission.mp hdata
    exact ⟨rfl, by decide +kernel, fun r hr => absurd hr (not_loaded (by decide +kernel) r)⟩
  · obtain ⟨-, hd, -⟩ := payloadOf_sync.mp hdata
    obtain rfl := Except.ok.inj ((payloadData_packet nameB [1] []).symm.trans hd)
    exact ⟨rfl, by decide +kernel, fun r hr => absurd hr (not_loaded (by decide +kernel) r)⟩

theorem payloads_indexed_loggedAB :
    (∃ state, Indexed (after ledger [] loggedAB).toDagModule (packetFor nameA [1]) state ∧
      exec (queryState nameA) (after ledger [] loggedAB).toDagModule =
        (.ok state, (after ledger [] loggedAB).toDagModule)) ∧
    ∃ state, Indexed (after ledger [] loggedAB).toDagModule (packetFor nameB [1]) state ∧
      exec (queryState nameB) (after ledger [] loggedAB).toDagModule =
        (.ok state, (after ledger [] loggedAB).toDagModule) := by
  have hall := payloads_indexed loggedAB loggedAB_logs
  have hfirst : payloadOf (start []) (.submission (packetFor nameA [1]) true (published 1)) =
      some (packetFor nameA [1]) := payloadOf_submission.mpr ⟨rfl, rfl, by decide +kernel⟩
  have hsecond : payloadOf (after ledger [] (loggedAB.take 1)) (.sync peerB) =
      some (packetFor nameB [1]) :=
    payloadOf_sync.mpr ⟨by decide, payloadData_packet nameB [1] [], by decide +kernel⟩
  have hpayloads : payloads ledger (start []) loggedAB =
      (payloadOf (start []) (.submission (packetFor nameA [1]) true (published 1))).toList ++
        ((payloadOf (after ledger [] (loggedAB.take 1)) (.sync peerB)).toList ++ []) := rfl
  rw [hpayloads, hfirst, hsecond] at hall
  exact ⟨hall _ (by simp), hall _ (by simp)⟩

/-- A peer's payload has a byte after its Data: the map is for all of it, and no query for the
Data finds it. -/
theorem trailed_not_indexed :
    ¬ ∀ (config : LedgerConfig) (events : List Event),
      Throughout (perform config) (fun s event => Apart config event ∧ Publishes config s event ∧
        (exec (event.handle config) s).1.isOk = true) (start []) events →
      ∀ data ∈ payloads config (start []) events, ∃ state,
        exec (queryState data.name) (after config [] events).toDagModule =
          (.ok state, (after config [] events).toDagModule) := by
  intro h
  have hdata : payloadOf (start []) (.sync peerA) = some (packetFor nameA [1]) :=
    payloadOf_sync.mpr ⟨by decide, payloadData_packet nameA [1] [0], by decide +kernel⟩
  have hpayloads : payloads ledger (start []) [.sync peerA] =
      (payloadOf (start []) (.sync peerA)).toList ++ [] := rfl
  obtain ⟨state, hquery⟩ := h ledger [.sync peerA]
    ⟨⟨apart_sync rfl rfl, trivial, by decide +kernel⟩, trivial⟩ (packetFor nameA [1])
    (by simp [hpayloads, hdata])
  have hfailed : (exec (queryState nameA) (after ledger [] [.sync peerA]).toDagModule).1.isOk =
      false := by decide +kernel
  have hname : (packetFor nameA [1]).name = nameA := rfl
  rw [← hname, hquery] at hfailed
  cases hfailed

end

end CertLedger.PayloadRuns
