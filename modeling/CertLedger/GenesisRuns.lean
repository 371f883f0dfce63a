import CertLedger.LedgerSafety

/-!
# The first publication

As long as the pointers of the loaded records form no cycle, one of them is
pointed to by none of the others. Nothing has endorsed it, so it waits among the
tips, and a submission points to it. Only a ledger that has loaded nothing makes
a genesis record, and its guess of the name is right.
-/
namespace CertLedger.GenesisRuns
open Std TlvCodec FallibleState NdnObjects RecordCodec EdgeStateCodec InterlockPolicies
open OrderedContainers EndorsementDag DagEngine DagStates DagUpdates DagRefinement DagSafety
open LedgerHandlers LedgerEffects SubmissionRuns LedgerConsistency HarvestRuns LedgerSafety
open PlainNdn Relation

section
variable [NdnCxx]

/-! ## Tips -/

theorem finite_loaded (d : DagModule) : (abs d).loaded.Finite := by
  refine (List.finite_toSet (d.storage.list.toList.map Prod.fst)).subset fun n hn => ?_
  obtain ⟨s, hs⟩ := Option.isSome_iff_exists.mp (stored_of_status hn)
  obtain ⟨block, hb, -⟩ := stateAt_eq_some.mp hs
  exact List.mem_map.mpr ⟨(n, block), ExtTreeMap.mem_toList_iff_getElem?_eq_some.mpr hb, rfl⟩

/-- Where something is loaded and no pointers form a cycle, the bucket of the value zero is
not empty. -/
theorem exists_tip {config : DagConfig} {t : ℕ} {d : DagModule} (h : Fair config t d) (ht : 1 ≤ t)
    (hacyclic : ∀ u, ¬TransGen (abs d).ProperEdge u u) {n : Name}
    (hn : (node d n).status ≠ .INITIALIZED) : ∃ a, InBucket d.waitlist 0 a := by
  obtain ⟨a, ha, hsource⟩ := Dag.exists_source (finite_loaded d) ⟨n, hn⟩ hacyclic
  have hdesc := Dag.desc_source h.sound hsource
  have hzero : value config d a = 0 := value_of_desc_eq_empty hdesc
  have hwaits : (node d a).status = .LOADED := by
    cases hs : (node d a).status with
    | INITIALIZED => exact (ha hs).elim
    | LOADED => rfl
    | INTERLOCKED =>
        have := h.earned a hs
        omega
  obtain ⟨k, hk⟩ := h.waiting a hwaits
  have := (h.listed k a hk).2.2
  obtain rfl : k = 0 := by omega
  exact ⟨a, hk⟩

/-! ## Sequence numbers -/

variable {config : LedgerConfig} {s : LedgerModule}

/-- Only a ledger with a loaded record has published. -/
def Numbered (s : LedgerModule) : Prop :=
  s.seqNo ≠ 0 → ∃ n, (node s.toDagModule n).status ≠ .INITIALIZED

/-- A record that is added is loaded, whatever is done after it. -/
theorem loaded_after_add (hs : Sane config.toDagConfig s.toDagModule) (h : Secure config s)
    (r : Record) {k : Name → LedgerM Unit} (hk : ∀ n, Respects (Secures config) (k n)) :
    ∃ n, (node (exec (do
      let stateName ← onDag (add config.toDagConfig r)
      k stateName) s).2.toDagModule n).status ≠ .INITIALIZED := by
  obtain ⟨d, hadd, hload⟩ : ∃ d, exec (add config.toDagConfig r) s.toDagModule =
      (.ok (toStateName r.name), d) ∧ (node d (toStateName r.name)).status ≠ .INITIALIZED := by
    by_cases hnew : (node s.toDagModule (toStateName r.name)).status = .INITIALIZED
    · obtain ⟨d, hrun, -, ha⟩ := hs.consistent.add_new hnew
      refine ⟨d, hrun, ?_⟩
      rw [← mem_loaded, ha.abs_eq]
      exact Set.mem_insert _ _
    · exact ⟨_, hs.consistent.add_old hnew, hnew⟩
  have hadded := (secures_lawful config).add r _ s rfl h
  rw [hadd] at hadded
  rw [exec_bind_ok (exec_onDag_of hadd)]
  exact ⟨_, ((hk _ _ hadded.secure).loaded _ hload).1⟩

theorem numbered_perform (hs : Sane config.toDagConfig s.toDagModule) (h : Secure config s)
    (hnum : Numbered s) {event : Event} (hout : Outside config event) :
    Numbered (perform config s event) := by
  by_cases hload : ∃ n, (node s.toDagModule n).status ≠ .INITIALIZED
  · obtain ⟨n, hn⟩ := hload
    exact fun _ => ⟨n, ((secures_handle config event s h).loaded n hn).1⟩
  · have hzero : s.seqNo = 0 := by_contra fun hne => hload (hnum hne)
    cases event with
    | submission data verdict pub =>
        cases verdict with
        | false => exact hnum
        | true =>
            rw [perform_submission]
            rcases exec_afterValidation config s data pub with ⟨hfree, hrun⟩ | hrun <;> rw [hrun]
            · have hpacket := stores_withPacket data hfree
              rcases exec_logPayload config (withPacket s data) pub data.wire.wire with
                ⟨e, t, hlog, hseq, -⟩ | ⟨r, s₁, hlog, hstores, -, -, -, hbeside⟩ <;> rw [hlog]
              · exact fun hne => (hne (hseq.trans hzero)).elim
              · have hall := (foreign_packets (fun _ hp => hp ▸ hout.1) hpacket).trans
                  (foreign_packets hout.2 hstores)
                have hlog := hbeside _ _ (secures_lawful config).toBeside (fun _ _ => trivial)
                  (h.withPacket data hfree).secure
                exact fun _ => loaded_after_add (sane_stores hs hall) hlog.secure r fun n =>
                  (secures_lawful config).index r.payload n r.name
            · exact fun hne => (hne hzero).elim
    | sync record =>
        exact fun _ => loaded_after_add hs h record fun n => (secures_lawful config).store n
          fun _ => (secures_lawful config).storePayload (fun _ => trivial) record.payload n
    | reply pub =>
        obtain ⟨pointers, t, hrun, -, -, hseq, -, hfrom⟩ := exec_collectPointers h
        have hnone : ¬0 < pointers.length := by
          intro hlen
          obtain ⟨m, hm⟩ := List.exists_mem_of_length_pos hlen
          exact hload ⟨_, fun he => Status.noConfusion (he.symm.trans (hfrom m hm).1.status)⟩
        have hend : perform config s (.reply pub) = t := by
          rw [perform, Event.handle, publishReply_eq, exec_bind_ok hrun, if_neg hnone]
          rfl
        rw [hend]
        exact fun hne => (hne (hseq.trans hzero)).elim

theorem numbered_after (events : List Event) (h : ∀ event ∈ events, Outside config event) :
    Numbered (after config [] events) := by
  induction events using List.reverseRecOn with
  | nil => exact fun hne => (hne rfl).elim
  | append_singleton events event ih =>
      have hbefore : ∀ e ∈ events, Outside config e := fun e he => h e (by simp [he])
      rw [after_append]
      exact numbered_perform (after_sane config events hbefore) (after_secure config events)
        (ih hbefore) (h event (by simp))

/-- A genesis record is made for a submission only when nothing is loaded, and it is published
under the name it points to, with the sequence number 1. -/
theorem genesis_first (events : List Event) (hout : ∀ event ∈ events, Outside config event)
    (ht : 1 ≤ config.policyThreshold)
    (hacyclic : ∀ u, ¬TransGen (abs (after config [] events).toDagModule).ProperEdge u u)
    (data : Data) {r : Record} {s : LedgerModule}
    (hmake : exec (newRecord config data.wire.wire) (withPacket (after config [] events) data) =
      (.ok r, s)) (hgenesis : r.type = GENESIS_RECORD) :
    (∀ n, (node (after config [] events).toDagModule n).status = .INITIALIZED) ∧
      ∀ pub name s', exec (publishRecord config pub r) s = (.ok name, s') →
        r.pointers = [name] ∧ name = config.instancePrefix.appendSequenceNumber 1 ∧
          (pub.seqNo = some ((after config [] events).seqNo + 1) → s'.seqNo = 1) := by
  have hsecure := after_secure config events
  have hnum := numbered_after events hout
  generalize after config [] events = s₀ at *
  obtain ⟨r', w, hrun, -, hdraft⟩ := exec_newRecord config data.wire.wire (withPacket s₀ data)
  obtain ⟨hr, rfl⟩ := Prod.mk.inj (hmake.symm.trans hrun)
  obtain rfl := Except.ok.inj hr
  obtain ⟨-, hptr, hempty⟩ | ⟨htype, -⟩ := hdraft.kind
  · have hnone : ∀ n, (node s₀.toDagModule n).status = .INITIALIZED := by
      intro n
      by_contra hn
      obtain ⟨a, ha⟩ := exists_tip hsecure.fair ht hacyclic hn
      exact hempty a ha
    have hzero : s₀.seqNo = 0 := by
      by_contra hne
      obtain ⟨n, hn⟩ := hnum hne
      exact hn (hnone n)
    have hnext : nextName config (withPacket s₀ data) =
        config.instancePrefix.appendSequenceNumber 1 := by
      change config.instancePrefix.appendSequenceNumber (s₀.seqNo + 1) = _
      rw [hzero]
      rfl
    refine ⟨hnone, fun pub name s' hpub => ?_⟩
    obtain ⟨hname, hseqNo⟩ := publishRecord_ok config hpub
    have hname : name = nextName config (withPacket s₀ data) := hname
    refine ⟨hname ▸ hptr, hname.trans hnext, fun hseq => ?_⟩
    have hs' : s'.seqNo = s₀.seqNo + 1 := Option.some.inj (hseqNo.symm.trans hseq)
    rw [hs', hzero]
    rfl
  · exact absurd (hgenesis.symm.trans htype) (by decide)

end

section

local instance : NdnCxx := plainNdn packetDigests

/-- A submission whose publication fails. -/
def unpublishedA : List Event :=
  [.submission (packetData nameA [1]) true (publication none)]

/-- The packet "/B". -/
def dataB : Data := packetData [Name.generic [66]] [2]

/-- The record made for it after that. -/
def genesisB : Record where
  type := GENESIS_RECORD
  pointers := [ledger.instancePrefix.appendSequenceNumber 1]
  payload := dataB.wire.wire

theorem genesis_first_dataB :
    (∀ n, (node (after ledger [] unpublishedA).toDagModule n).status = .INITIALIZED) ∧
      ∀ pub name s', exec (publishRecord ledger pub genesisB)
          (exec (newRecord ledger dataB.wire.wire)
            (withPacket (after ledger [] unpublishedA) dataB)).2 = (.ok name, s') →
        genesisB.pointers = [name] ∧ name = ledger.instancePrefix.appendSequenceNumber 1 ∧
          (pub.seqNo = some ((after ledger [] unpublishedA).seqNo + 1) → s'.seqNo = 1) := by
  have hnone : ∀ n, (node (after ledger [] unpublishedA).toDagModule n).status = .INITIALIZED := by
    intro n
    by_contra hn
    obtain ⟨s, hs⟩ := Option.isSome_iff_exists.mp (stored_of_status hn)
    obtain ⟨block, hb, hd⟩ := stateAt_eq_some.mp hs
    have hmem := ExtTreeMap.mem_toList_iff_getElem?_eq_some.mpr hb
    have hall : (after ledger [] unpublishedA).storage.list.toList.all
        (fun e => !(decodeEdgeState e.2).isOk) = true := by decide +kernel
    have := List.all_eq_true.mp hall _ hmem
    rw [hd] at this
    cases this
  refine genesis_first unpublishedA ?_ (by decide) ?_ dataB
    (exec_eq_of_toOption (by decide +kernel)) rfl
  · intro event he
    obtain rfl := List.mem_singleton.mp he
    exact ⟨by decide, publication_outside _⟩
  · intro u hu
    obtain ⟨v, huv, -⟩ := TransGen.head'_iff.mp hu
    exact huv.1.1 (hnone u)

end

end CertLedger.GenesisRuns
