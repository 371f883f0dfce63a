import CertLedger.EventRuns
import CertLedger.LedgerHarvest
import CertLedger.SubmissionRuns

/-!
# What the handlers come to without failures

Each handler adds at most one record to the graph, and ends in a harvest unless
it stops before. The runs in which no record that could be interlocked is left.
-/
namespace CertLedger.HarvestRuns
open Std TlvCodec FallibleState NdnObjects RecordCodec EdgeStateCodec LedgerIndexCodec
open InterlockPolicies EdgeStateList PayloadMap OrderedContainers EndorsementDag DagEngine
open DagStates DagUpdates DagHarvest DagEffects DagRefinement DagRuns LedgerHandlers
open LedgerEffects LedgerConsistency LedgerHarvest SubmissionRuns EventRuns PlainNdn

/-- The tracker after a name has been put into it. -/
def tracked (l : EdgeStateList) (n : Name) (d : DagModule) : DagModule :=
  if n ∈ l.value then d else withTracker d { l with value := l.value.insert n }

theorem tracked_list (l : EdgeStateList) (n : Name) (d : DagModule) {m : Name}
    (h : m ≠ trackerName) : (tracked l n d).storage.list[m]? = d.storage.list[m]? := by
  unfold tracked
  split_ifs
  · rfl
  · exact withTracker_list d _ h

theorem tracked_self {l : EdgeStateList} {d : DagModule}
    (hl : d.storage.list[trackerName]? = some (encodeEdgeStateList l)) (n : Name) :
    ∃ l', (tracked l n d).storage.list[trackerName]? = some (encodeEdgeStateList l') ∧
      ∀ m, m ∈ l'.value ↔ m ∈ l.value ∨ m = n := by
  unfold tracked
  split_ifs with hn
  · exact ⟨l, hl, fun m => (or_iff_left_of_imp fun he => he ▸ hn).symm⟩
  · exact ⟨_, withTracker_self _ _, fun m => by rw [mem_insert, or_comm, eq_comm]⟩

/-- Collecting replies only marks records as replied to, and takes each of them once. -/
theorem exec_collectReplies (s : LedgerModule) (records : List Record) :
    ∃ pointers t, exec (records.foldlM collectReply []) s = (.ok pointers, t) ∧
      t.toDagModule = s.toDagModule ∧ t.seqNo = s.seqNo ∧
      (∀ m, m ∈ t.repliedRecords ↔ m ∈ s.repliedRecords ∨ m ∈ pointers) ∧ pointers.Nodup ∧
      ∀ m ∈ pointers, m ∉ s.repliedRecords ∧
        ∃ r ∈ records, r.name = m ∧ r.type ≠ REPLY_RECORD := by
  refine exec_foldlM (f := collectReply) (fun done pointers t =>
    t.toDagModule = s.toDagModule ∧ t.seqNo = s.seqNo ∧
      (∀ m, m ∈ t.repliedRecords ↔ m ∈ s.repliedRecords ∨ m ∈ pointers) ∧ pointers.Nodup ∧
      ∀ m ∈ pointers, m ∉ s.repliedRecords ∧ ∃ r ∈ done, r.name = m ∧ r.type ≠ REPLY_RECORD)
    records ?_ ⟨rfl, rfl, by simp, List.nodup_nil, by simp⟩
  rintro done r rest pointers t _ ⟨hdag, hseq, hmem, hnodup, hfrom⟩
  rw [collectReply, exec_bind_ok (exec_get t)]
  by_cases hr : r.name ∉ t.repliedRecords ∧ r.type ≠ REPLY_RECORD
  · rw [if_pos hr]
    obtain ⟨hnew, hnot⟩ := not_or.mp ((hmem r.name).not.mp hr.1)
    refine ⟨_, _, rfl, hdag, hseq, fun m => ?_, ?_, fun m hm => ?_⟩
    · rw [mem_insert, hmem, List.mem_append, List.mem_singleton, eq_comm, or_comm, or_assoc]
    · exact List.nodup_append.mpr ⟨hnodup, List.nodup_singleton _, fun a ha b hb he =>
        hnot (List.mem_singleton.mp hb ▸ he ▸ ha)⟩
    · rcases List.mem_append.mp hm with hm | hm
      · obtain ⟨hold, q, hq, hqm⟩ := hfrom m hm
        exact ⟨hold, q, List.mem_append_left _ hq, hqm⟩
      · obtain rfl := List.mem_singleton.mp hm
        exact ⟨hnew, r, by simp, rfl, hr.2⟩
  · rw [if_neg hr]
    refine ⟨_, t, rfl, hdag, hseq, hmem, hnodup, fun m hm => ?_⟩
    obtain ⟨hold, q, hq, hqm⟩ := hfrom m hm
    exact ⟨hold, q, List.mem_append_left _ hq, hqm⟩

section
variable [NdnCxx] {config : LedgerConfig}

/-! ## Pieces of the handlers -/

/-- A block beside the states. -/
def Foreign (n : Name) (b : Block) : Prop := ¬IsStateName n ∧ b.type ≠ TLV_EDGE_STATE_TYPE

theorem foreign_packets {S : Data → Prop} (hS : ∀ p, S p → ¬IsStateName p.name)
    {d d' : DagModule} (h : Stores (PacketOf S) d d') : Stores Foreign d d' :=
  h.mono (packetOf_outside hS)

section
variable {d d' : DagModule}

theorem node_stores (h : Stores Foreign d d') (n : Name) : node d' n = node d n := by
  rw [node, h.stateAt fun n b hb => hb.2]
  rfl

theorem sane_stores (h : Sane config.toDagConfig d) (hs : Stores Foreign d d') :
    Sane config.toDagConfig d' := h.of_stores hs fun _ _ hb => hb

end

variable (config) in
theorem exec_updateStatesTracker_false {d : DagModule} (hr : d.storage.faults = [])
    {l : EdgeStateList} (hl : d.storage.list[trackerName]? = some (encodeEdgeStateList l))
    (n : Name) : exec (updateStatesTracker config n false) d = (.ok (), tracked l n d) := by
  unfold tracked
  split_ifs with hn
  · exact exec_updateStatesTracker_old config hr hl hn
  · exact exec_updateStatesTracker_new config hr hl hn false

theorem sane_tracked {d : DagModule} (h : Sane config.toDagConfig d) (l : EdgeStateList)
    (n : Name) : Sane config.toDagConfig (tracked l n d) := by
  unfold tracked
  split_ifs
  · exact h
  · exact h.withTracker _

theorem stateAt_tracked {d : DagModule} (hc : Clean d) (l : EdgeStateList) (n m : Name) :
    stateAt (tracked l n d) m = stateAt d m := by
  unfold tracked
  split_ifs
  · rfl
  · exact stateAt_withTracker (.of_clean hc) _ m

theorem exec_add_sane {d : DagModule} (h : Sane config.toDagConfig d) (r : Record) :
    ∃ d', exec (add config.toDagConfig r) d = (.ok (toStateName r.name), d') ∧
      Sane config.toDagConfig d' ∧
      ∀ n : Name, ¬IsStateName n → d'.storage.list[n]? = d.storage.list[n]? := by
  by_cases hs : (node d (toStateName r.name)).status = .INITIALIZED
  · obtain ⟨d', hrun, hc, ha⟩ := h.consistent.add_new hs
    exact ⟨d', hrun, h.of_others hc ha.others, ha.others⟩
  · exact ⟨d, h.consistent.add_old hs, h, fun _ _ => rfl⟩

/-- A published record is added and indexed, and the harvest follows. -/
theorem exec_logRecord {s : LedgerModule} (h : Sane config.toDagConfig s.toDagModule) {r : Record}
    (hmap : s.storage.list[toMapName r.payload]? = none) {l : EdgeStateList}
    (hl : s.storage.list[trackerName]? = some (encodeEdgeStateList l)) :
    ∃ d₁ d₂, exec (add config.toDagConfig r) s.toDagModule = (.ok (toStateName r.name), d₁) ∧
      Sane config.toDagConfig d₁ ∧ Stores Foreign d₁ d₂ ∧
      d₂.storage.list[trackerName]? = some (encodeEdgeStateList l) ∧
      exec (logRecord config r) s =
        exec (dagHarvest config) (s.withDag (tracked l (toStateName r.name) d₂)) := by
  obtain ⟨d₁, hadd, hsane, hothers⟩ := exec_add_sane h r
  have hfree : d₁.storage.list[toMapName r.payload]? = none :=
    (hothers _ (toMapName_not_state r.payload)).trans hmap
  have hstores := stores_addPayloadMap r.payload (toStateName r.name) d₁
  have hmapped : exec (addPayloadMap r.payload (toStateName r.name)) d₁ =
      (.ok (), (exec (addPayloadMap r.payload (toStateName r.name)) d₁).2) := by
    rw [addPayloadMap, exec_adder hsane.consistent.clean.reliable hfree]
  generalize (exec (addPayloadMap r.payload (toStateName r.name)) d₁).2 = d₂ at hmapped hstores
  have hforeign : Stores Foreign d₁ d₂ := hstores.mono mapBlock_outside
  have hl₂ := hforeign.kept ((hothers _ trackerName_not_state).trans hl)
  have htrack := exec_updateStatesTracker_false config
    (hforeign.reliable hsane.consistent.clean.reliable) hl₂ (toStateName r.name)
  refine ⟨d₁, d₂, hadd, hsane, hforeign, hl₂, ?_⟩
  rw [logRecord, exec_bind_ok (exec_onDag_of hadd), exec_bind_ok (exec_onDag_of hmapped),
    exec_bind_ok (exec_onDag_of htrack)]
  rfl

/-- What becomes of the payload of a synced record. -/
theorem exec_yieldPayload {d : DagModule} (hr : d.storage.faults = []) {record : Record}
    (h : record.type ≠ REPLY_RECORD →
      ∀ data, payloadData record.payload = .ok data → ¬IsStateName data.name) (n : Name) :
    ∃ res d', exec (yieldPayload record n) d = (res, d') ∧ Stores Foreign d d' ∧
      (record.type = REPLY_RECORD → res = .ok true) ∧
      ∀ data, payloadData record.payload = .ok data →
        d.storage.list[data.name]? = none → res = .ok true := by
  by_cases htype : record.type = REPLY_RECORD
  · refine ⟨.ok true, d, ?_, Stores.refl d, fun _ => rfl, fun _ _ _ => rfl⟩
    rw [yieldPayload, if_neg (not_not_intro htype)]
    rfl
  · rw [yieldPayload, if_pos htype]
    cases hd : payloadData record.payload with
    | error e =>
        exact ⟨_, d, exec_storePayload_error hd n d, Stores.refl d, fun he => (htype he).elim,
          fun _ he => by cases he⟩
    | ok data =>
        rw [exec_storePayload hd]
        have hname := h htype data hd
        cases hb : d.storage.list[data.name]? with
        | some b =>
            have htaken := exec_insertNew_taken hb
            rw [spend_of_reliable hr] at htaken
            refine ⟨.ok false, d, exec_bind_ok htaken, Stores.refl d, fun he => (htype he).elim, ?_⟩
            intro data' hd' hfree
            obtain rfl := Except.ok.inj hd'
            simp [hb] at hfree
        | none =>
            have hinsert := stores_insertNew (S := (· = data)) rfl d
            rw [exec_insertNew_free hr hb] at hinsert
            have hmap := stores_addPayloadMap record.payload n { d with storage :=
              { d.storage with list := d.storage.list.insert data.name data.wire } }
            refine ⟨.ok true, _, (exec_bind_ok (exec_insertNew_free hr hb)).trans
              (exec_bind_ok (exec_tryCatch_pure _ _)), ?_, fun _ => rfl, fun _ _ _ => rfl⟩
            exact (foreign_packets (fun _ hp => hp ▸ hname) hinsert).trans
              (hmap.mono mapBlock_outside)

/-- A synced record is added and tracked; the harvest follows if the payload was new. -/
theorem exec_yieldRecord {s : LedgerModule} (h : Sane config.toDagConfig s.toDagModule)
    {record : Record} (hout : Outside config (.sync record)) {l : EdgeStateList}
    (hl : s.storage.list[trackerName]? = some (encodeEdgeStateList l)) :
    ∃ d₁ s₂, exec (add config.toDagConfig record) s.toDagModule =
        (.ok (toStateName record.name), d₁) ∧
      Sane config.toDagConfig d₁ ∧
      d₁.storage.list[trackerName]? = some (encodeEdgeStateList l) ∧
      Stores Foreign (tracked l (toStateName record.name) d₁) s₂.toDagModule ∧
      (exec (yieldRecord config record) s = exec (dagHarvest config) s₂ ∨
        (exec (yieldRecord config record) s).2 = s₂ ∧ record.type ≠ REPLY_RECORD ∧
          ∀ data, payloadData record.payload = .ok data →
            s.storage.list[data.name]? ≠ none) := by
  obtain ⟨d₁, hadd, hsane, hothers⟩ := exec_add_sane h record
  have hl₁ := (hothers _ trackerName_not_state).trans hl
  have htrack := exec_updateStatesTracker_false config
    hsane.consistent.clean.reliable hl₁ (toStateName record.name)
  have hsane' := sane_tracked hsane l (toStateName record.name)
  obtain ⟨res, d₂, hrun, hstores, hreply, hnew⟩ := exec_yieldPayload
    hsane'.consistent.clean.reliable hout (toStateName record.name)
  refine ⟨d₁, s.withDag d₂, hadd, hsane, hl₁, hstores, ?_⟩
  rw [yieldRecord, exec_bind_ok (exec_onDag_of hadd),
    exec_bind_ok (exec_onDag_of (s := s.withDag d₁) htrack)]
  have hpay := exec_onDag_of (s := (s.withDag d₁).withDag (tracked l (toStateName record.name) d₁))
    hrun
  by_cases hres : res = .ok true
  · rw [hres] at hpay
    exact .inl (exec_bind_ok hpay)
  · refine .inr ⟨?_, fun htype => hres (hreply htype), ?_⟩
    · cases res with
      | error e =>
          rw [exec_bind_error hpay]
          rfl
      | ok goesOn =>
          cases goesOn with
          | true => exact (hres rfl).elim
          | false =>
              rw [exec_bind_ok hpay]
              rfl
    · intro data hd hfree
      have hname := hout (fun htype => hres (hreply htype)) data hd
      refine hres (hnew data hd ?_)
      rw [tracked_list l _ _ fun he => by simp [he, hl] at hfree, hothers _ hname]
      exact hfree

/-- There is a record that has waited and has not been replied to. -/
def RepliesDue (config : LedgerConfig) (s : LedgerModule) : Prop :=
  ∃ n, (node s.toDagModule n).status ≠ .INITIALIZED ∧
    (∃ k, k < config.policyThreshold ∧ InBucket s.waitlist k n) ∧
    (node s.toDagModule n).record.name ∉ s.repliedRecords ∧
    (node s.toDagModule n).record.type ≠ REPLY_RECORD

/-- A reply that is published is added, and the harvest follows. -/
theorem exec_publishReply {s : LedgerModule} (h : Sane config.toDagConfig s.toDagModule)
    (pub : Publication) :
    Stores (PacketOf (Publication.Packet config pub)) s.toDagModule
        (exec (publishReply config pub) s).2.toDagModule ∨
      (pub.seqNo ≠ none ∧ RepliesDue config s ∧
        ∃ r s₁, Stores (PacketOf (Publication.Packet config pub)) s.toDagModule s₁.toDagModule ∧
          exec (publishReply config pub) s = exec (do
            let _ ← onDag (add config.toDagConfig r)
            dagHarvest config) s₁) := by
  have hbelow : exec (onDag (harvestBelow config.toDagConfig config.policyThreshold)) s =
      (.ok ((harvested s.toDagModule (· < config.policyThreshold) s.waitlist.toList).map fun n =>
        (node s.toDagModule n).record), s) :=
    exec_onDag_of (h.consistent.harvestBelow config.policyThreshold)
  obtain ⟨pointers, t, hcollect, hdag, -, -, -, hfrom⟩ := exec_collectReplies s
    ((harvested s.toDagModule (· < config.policyThreshold) s.waitlist.toList).map fun n =>
      (node s.toDagModule n).record)
  rw [publishReply, exec_bind_ok hbelow, exec_bind_ok hcollect]
  by_cases hlen : 0 < pointers.length
  · have hpub := stores_publishRecord config pub { type := REPLY_RECORD, pointers := pointers } t
    rw [onLedger, hdag] at hpub
    rw [if_pos hlen, logReply]
    rcases hrun : exec (publishRecord config pub { type := REPLY_RECORD, pointers := pointers }) t
      with ⟨e | name, s₁⟩ <;> rw [hrun] at hpub
    · rw [exec_bind_error hrun]
      exact .inl hpub
    · refine .inr ⟨by simp [(publishRecord_ok config hrun).2], ?_, _, s₁, hpub, exec_bind_ok hrun⟩
      obtain ⟨m, hm⟩ := List.exists_mem_of_length_pos hlen
      obtain ⟨hnot, r, hr, rfl, htype⟩ := hfrom m hm
      obtain ⟨n, hn, rfl⟩ := List.mem_map.mp hr
      obtain ⟨hload, k, hk, hin⟩ := mem_harvested.mp hn
      exact ⟨n, hload, ⟨k, of_decide_eq_true hk, hin⟩, hnot, htype⟩
  · rw [if_neg hlen]
    exact .inl (hdag ▸ Stores.refl _)

/-! ## Runs that leave no ripe record behind -/

/-- A new packet leaves the name of its payload map free. -/
def MapFree (config : LedgerConfig) (s : LedgerModule) (data : Data) (pub : Publication) : Prop :=
  s.storage.list[data.name]? = none →
    s.storage.list[toMapName data.wire.wire]? = none ∧
    data.name ≠ toMapName data.wire.wire ∧
    ∀ p, Publication.Packet config pub p → p.name ≠ toMapName data.wire.wire

/-- The handler does not stop between the addition of a new record and the harvest. -/
def Finishes (config : LedgerConfig) (s : LedgerModule) : Event → Prop
  | .submission data verdict pub => verdict = true → MapFree config s data pub
  | .sync record => record.type ≠ REPLY_RECORD →
      (node s.toDagModule (toStateName record.name)).status ≠ .INITIALIZED ∨
      ∃ data, payloadData record.payload = .ok data ∧ s.storage.list[data.name]? = none
  | .reply _ => True

/-- No loaded record has reached the threshold. -/
def Calm (config : LedgerConfig) (d : DagModule) : Prop :=
  ∀ n, (node d n).status = .LOADED → value config.toDagConfig d n < config.policyThreshold

theorem calm_congr {d d' : DagModule} (h : Calm config d) (hnode : ∀ n, node d' n = node d n) :
    Calm config d' := by
  intro n hn
  have hvalue : value config.toDagConfig d' n = value config.toDagConfig d n :=
    value_congr fun x => by rw [hnode]
  rw [hvalue]
  exact h n (hnode n ▸ hn)

theorem calm_harvest {d e : DagModule}
    (h : Harvests config.toDagConfig config.policyThreshold true d e) : Calm config e := by
  intro n hn
  have hdesc : (abs e).desc = (abs d).desc := by
    rw [h.abs_eq]
    rfl
  by_contra hle
  have henough : config.policy.enough config.policyThreshold ((abs d).desc n) := by
    rw [← hdesc]
    exact (enough_desc n : config.toDagConfig.policy.enough _ _ ↔ _).mpr (Nat.not_lt.mp hle)
  have hload : n ∈ (abs d).loaded := by
    have : n ∈ (abs e).loaded := mem_loaded.mpr (by simp [hn])
    rwa [h.abs_eq] at this
  have hlocked : n ∈ (abs e).locked := by
    rw [h.abs_eq]
    by_cases hl : n ∈ (abs d).locked
    · exact .inl hl
    · exact .inr ⟨⟨hload, hl, henough⟩, hload⟩
  rw [mem_locked, hn] at hlocked
  cases hlocked

theorem calm_dagHarvest {s : LedgerModule} (h : Sane config.toDagConfig s.toDagModule) :
    Calm config (exec (dagHarvest config) s).2.toDagModule := by
  obtain ⟨l, hl⟩ := h.tracker
  obtain ⟨e, s', hrun, -, hh, hs⟩ := exec_dagHarvest h hl
  rw [hrun]
  exact calm_congr (calm_harvest hh) hs.node

theorem calm_stores {d d' : DagModule} (h : Calm config d) (hs : Stores Foreign d d') :
    Calm config d' := calm_congr h (node_stores hs)

theorem perform_submission (s : LedgerModule) (data : Data) (pub : Publication) :
    perform config s (.submission data true pub) = (exec (afterValidation config data pub) s).2 := by
  rw [perform, Event.handle, exec_bind, exec_onDataSubmission]
  rcases exec (afterValidation config data pub) s with ⟨_ | _, t⟩ <;> rfl

/-- A new submission is logged after its packet, or it leaves nothing but packets. -/
theorem exec_submission {s : LedgerModule} (h : Sane config.toDagConfig s.toDagModule)
    {data : Data} {pub : Publication} (hout : Outside config (.submission data true pub))
    (hmap : MapFree config s data pub) :
    Stores Foreign s.toDagModule
        (perform config s (.submission data true pub)).toDagModule ∨
      ∃ r s₁, perform config s (.submission data true pub) = (exec (logRecord config r) s₁).2 ∧
        Stores Foreign s.toDagModule s₁.toDagModule ∧
        s₁.storage.list[toMapName r.payload]? = none ∧ r.name = nextName config s ∧
        (r.isGenesis = true ∨
          ∀ m ∈ r.pointers, ∃ n, InBucket s.waitlist 0 n ∧ m = fromStateName n) := by
  have hr := h.consistent.clean.reliable
  rw [perform_submission]
  rcases exec_afterValidation config s data pub with ⟨hfree, hrun⟩ | hrun
  · obtain ⟨hmapfree, hself, hpackets⟩ := hmap hfree
    have hpacket := stores_withPacket data hfree
    have hfirst := foreign_packets (fun _ hp => hp ▸ hout.1) hpacket
    rw [hrun]
    rcases exec_logPayload config (withPacket s data) pub data.wire.wire with
      ⟨e, t, hlog, -, hstores, -⟩ | ⟨r, s₁, hlog, hstores, hname, -, hdraft, -⟩
    · rw [hlog]
      exact .inl (hfirst.trans (foreign_packets hout.2 hstores))
    · refine .inr ⟨r, s₁, by rw [hlog], hfirst.trans (foreign_packets hout.2 hstores), ?_, hname,
        hdraft.pointers⟩
      rw [hdraft.payload]
      refine Stores.free hstores (Stores.free hpacket hmapfree ?_) ?_
      · rintro b ⟨p, rfl, hp, -⟩
        exact hself hp
      · rintro b ⟨p, hp, hpn, -⟩
        exact hpackets p hp hpn
  · rw [hrun, spend_of_reliable hr]
    exact .inl (Stores.refl _)

/-- One event keeps the ledger calm. -/
theorem calm_perform {s : LedgerModule} (h : Sane config.toDagConfig s.toDagModule)
    (hcalm : Calm config s.toDagModule) {event : Event} (hout : Outside config event)
    (hfin : Finishes config s event) : Calm config (perform config s event).toDagModule := by
  obtain ⟨l, hl⟩ := h.tracker
  cases event with
  | submission data verdict pub =>
      cases verdict with
      | false => exact hcalm
      | true =>
          rcases exec_submission h hout (hfin rfl) with hs | ⟨r, s₁, hrun, hs, hmap, -⟩
          · exact calm_stores hcalm hs
          · have h₁ := sane_stores h hs
            obtain ⟨d₁, d₂, -, hsane, hd₂, -, hlog⟩ := exec_logRecord h₁ hmap (hs.kept hl)
            rw [hrun, hlog]
            exact calm_dagHarvest (sane_tracked (sane_stores hsane hd₂) l _)
  | sync record =>
      obtain ⟨d₁, s₂, hadd, hsane, -, hs, hrun⟩ := exec_yieldRecord h hout hl
      have hsane₁ := sane_tracked hsane l (toStateName record.name)
      rw [perform, Event.handle]
      rcases hrun with hrun | ⟨hrun, htype, hold⟩
      · rw [hrun]
        exact calm_dagHarvest (sane_stores hsane₁ hs)
      · rw [hrun]
        refine calm_stores ?_ hs
        rcases hfin htype with hloaded | ⟨data, hd, hfree⟩
        · -- the record was known, so the early end leaves nothing undone
          rw [h.consistent.add_old hloaded] at hadd
          obtain rfl : s.toDagModule = d₁ := congrArg Prod.snd hadd
          refine calm_congr hcalm fun n => ?_
          rw [node, stateAt_tracked h.consistent.clean]
          rfl
        · exact (hold data hd hfree).elim
  | reply pub =>
      rw [perform, Event.handle]
      rcases exec_publishReply h pub with hs | ⟨-, -, r, s₁, hs, hrun⟩
      · exact calm_stores hcalm (foreign_packets hout hs)
      · obtain ⟨d₁, hadd, hsane, -⟩ := exec_add_sane (sane_stores h (foreign_packets hout hs)) r
        rw [hrun, exec_bind_ok (exec_onDag_of hadd)]
        exact calm_dagHarvest hsane

theorem evaluate_eq {d : DagModule} {n : Name} {s : EdgeState} (hs : stateAt d n = some s) :
    DagUpdates.value config.toDagConfig d n = config.policy.evaluate s := by
  rw [DagUpdates.value, node_of_stateAt hs, evaluate_eq_value]
  rfl

/-- In a run whose handlers all come to the harvest, every record that has reached the
threshold has been interlocked. -/
theorem none_left_behind (events : List Event)
    (h : Throughout (perform config)
      (fun s event => Outside config event ∧ Finishes config s event) (start []) events)
    (n : Name) (s : EdgeState)
    (hs : stateAt (after config [] events).toDagModule n = some s) (hloaded : s.status = .LOADED) :
    config.policy.evaluate s < config.policyThreshold := by
  have hall := Throughout.invariant
    (I := fun s => Sane config.toDagConfig s.toDagModule ∧ Calm config s.toDagModule)
    (fun s event hI hP => ⟨saves_handle config hP.1 s hI.1, calm_perform hI.1 hI.2 hP.1 hP.2⟩)
    h ⟨sane_start config, ?_⟩
  · rw [← evaluate_eq hs]
    exact hall.2 n ((status_of_stateAt hs).trans hloaded)
  · intro m hm
    rw [start_eq, node, stateAt_withTracker (.of_clean Clean.empty)] at hm
    simp [stateAt, Node.unknown] at hm

end

section

local instance : NdnCxx := plainNdn packetDigests

/-- A submission, the reply to its record, and the record of another peer. -/
def repliedA : List Event :=
  [.submission (packetData nameA [1]) true (publication (some 1)),
    .reply (publication (some 2)),
    .sync { name := nameA, type := REPLY_RECORD, pointers := [nameA] }]

theorem repliedA_finishes :
    Throughout (perform ledger) (fun s event => Outside ledger event ∧ Finishes ledger s event)
      (start []) repliedA := by
  refine ⟨⟨⟨by decide, publication_outside _⟩, fun _ _ => ⟨by decide +kernel, by decide, ?_⟩⟩,
    ⟨publication_outside _, trivial⟩, ⟨fun h => (h rfl).elim, fun h => (h rfl).elim⟩, trivial⟩
  intro p hp he
  have hhead := publication_head _ p hp
  rw [he] at hhead
  exact absurd hhead (by decide)

theorem none_left_behind_repliedA :
    ∃ s, stateAt (after ledger [] repliedA).toDagModule
        (toStateName (ledger.instancePrefix.appendSequenceNumber 2)) = some s ∧
      s.status = .LOADED ∧ ledger.policy.evaluate s < ledger.policyThreshold := by
  have hloaded : (stateAt (after ledger [] repliedA).toDagModule
      (toStateName (ledger.instancePrefix.appendSequenceNumber 2))).any
        (fun s => s.status = .LOADED) = true := by decide +kernel
  rw [Option.any_eq_true] at hloaded
  obtain ⟨s, hs, hloaded⟩ := hloaded
  have hstatus : s.status = .LOADED := of_decide_eq_true hloaded
  exact ⟨s, hs, hstatus, none_left_behind repliedA repliedA_finishes _ s hs hstatus⟩

/-- The record of a peer that has logged the packet "/A" after it was logged here. -/
def sharedA : Record where
  name := nameA
  pointers := [ledger.instancePrefix.appendSequenceNumber 1]
  payload := (packet nameA [1]).wire

/-- A payload that has been logged here already ends the callback before the harvest. -/
theorem one_left_behind :
    ¬ ∀ (config : LedgerConfig) (before : List Event) (event : Event),
      1 ≤ config.policyThreshold →
      (∀ record, .sync record ∈ before ++ [event] →
        ∃ data, payloadData record.payload = .ok data) →
      (exec (event.handle config) (after config [] before)).1.isOk = true →
      ∀ n s, stateAt (perform config (after config [] before) event).toDagModule n = some s →
        s.status = .LOADED → config.policy.evaluate s < config.policyThreshold := by
  intro h
  have hleft : (stateAt (perform ledger (after ledger []
      [.submission (packetData nameA [1]) true (publication (some 1))])
      (.sync sharedA)).toDagModule
      (toStateName (ledger.instancePrefix.appendSequenceNumber 1))).any
        (fun s => s.status = .LOADED ∧ ledger.policy.evaluate s = 1) = true := by decide +kernel
  rw [Option.any_eq_true] at hleft
  obtain ⟨s, hs, hleft⟩ := hleft
  obtain ⟨hloaded, hone⟩ := of_decide_eq_true hleft
  have hlt := h ledger _ _ (by decide) ?_ (by decide +kernel) _ _ hs hloaded
  · rw [hone] at hlt
    exact absurd hlt (by decide)
  · intro record hr
    simp only [List.cons_append, List.nil_append, List.mem_cons, reduceCtorEq, List.not_mem_nil,
      Event.sync.injEq, or_false, false_or] at hr
    have hok : (payloadData sharedA.payload).isOk = true := by decide +kernel
    rw [hr]
    cases hd : payloadData sharedA.payload with
    | ok data => exact ⟨data, rfl⟩
    | error e => rw [hd] at hok; cases hok

end

end CertLedger.HarvestRuns
