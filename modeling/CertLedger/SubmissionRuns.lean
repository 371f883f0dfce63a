import CertLedger.DagRuns
import CertLedger.EventRuns
import CertLedger.LedgerEffects

/-!
# What the answer to a submission says

Whatever happened before, and whatever fails: what has been logged when a
submission succeeds, and what is left behind when it does not.
-/
namespace CertLedger.SubmissionRuns
open Std TlvCodec FallibleState NdnObjects RecordCodec EdgeStateCodec InterlockPolicies
open OrderedContainers DagEngine DagStates DagEffects DagRuns LedgerHandlers LedgerEffects
open EventRuns PlainNdn

section
variable [NdnCxx] {config : LedgerConfig}

theorem exec_insertNew (d : DagModule) (data : Data) :
    (d.storage.list[data.name]? = none ∧ exec (insertNew data) d = (.ok true, { d with
        storage := { spend d.storage with
          list := d.storage.list.insert data.name data.wire } })) ∨
      exec (insertNew data) d = (.ok false, { d with storage := spend d.storage }) := by
  rcases exec_adder_any d data.name data.wire with ⟨e, hadd⟩ | ⟨hfree, hadd⟩
  · exact .inr (exec_tryCatch_error (exec_bind_error hadd))
  · exact .inl ⟨hfree, exec_tryCatch_ok (exec_bind_ok hadd)⟩

theorem exec_insertNew_free {d : DagModule} (hr : d.storage.faults = []) {data : Data}
    (hfree : d.storage.list[data.name]? = none) :
    exec (insertNew data) d = (.ok true, { d with
      storage := { d.storage with list := d.storage.list.insert data.name data.wire } }) :=
  exec_tryCatch_ok (exec_bind_ok (exec_adder hr hfree data.wire))

theorem exec_insertNew_taken {d : DagModule} {data : Data} {b : Block}
    (h : d.storage.list[data.name]? = some b) :
    exec (insertNew data) d = (.ok false, { d with storage := spend d.storage }) := by
  rcases exec_insertNew d data with ⟨hfree, -⟩ | hrun
  · simp [h] at hfree
  · exact hrun

/-- The module in which the payload of a new submission is logged. -/
def withPacket (s : LedgerModule) (data : Data) : LedgerModule :=
  s.withDag { s.toDagModule with storage := { spend s.storage with
    list := s.storage.list.insert data.name data.wire } }

theorem withPacket_list (s : LedgerModule) (data : Data) :
    (withPacket s data).storage.list[data.name]? = some data.wire :=
  (getElem?_insert _ _ _ _).trans (if_pos rfl)

variable (config) in
/-- A submission is a duplicate, or its payload is logged. -/
theorem exec_afterValidation (s : LedgerModule) (data : Data) (pub : Publication) :
    (s.storage.list[data.name]? = none ∧ exec (afterValidation config data pub) s =
        exec (logPayload config pub data.wire.wire) (withPacket s data)) ∨
      exec (afterValidation config data pub) s =
        (.ok (), s.withDag { s.toDagModule with storage := spend s.storage }) := by
  rcases exec_insertNew s.toDagModule data with ⟨hfree, hrun⟩ | hrun
  · have hnew : exec (onDag (insertNew data)) s = (.ok true, withPacket s data) := by
      rw [exec_onDag, hrun]
      rfl
    exact .inl ⟨hfree, exec_bind_ok hnew⟩
  · have hold : exec (onDag (insertNew data)) s =
        (.ok false, s.withDag { s.toDagModule with storage := spend s.storage }) :=
      exec_onDag_of hrun
    exact .inr (exec_bind_ok hold)

theorem exec_afterValidation_taken {s : LedgerModule} {data : Data} {b : Block}
    (h : s.storage.list[data.name]? = some b) (pub : Publication) :
    exec (afterValidation config data pub) s =
      (.ok (), s.withDag { s.toDagModule with storage := spend s.storage }) := by
  rcases exec_afterValidation config s data pub with ⟨hfree, -⟩ | hrun
  · simp [h] at hfree
  · exact hrun

variable (config) in
theorem exec_afterValidation_free {s : LedgerModule} (hr : s.storage.faults = []) {data : Data}
    (hfree : s.storage.list[data.name]? = none) (pub : Publication) :
    exec (afterValidation config data pub) s =
      exec (logPayload config pub data.wire.wire) (withPacket s data) := by
  have hnew : exec (onDag (insertNew data)) s = (.ok true, withPacket s data) := by
    rw [exec_onDag, exec_insertNew_free hr hfree, withPacket, spend_of_reliable hr]
  exact exec_bind_ok hnew

theorem stores_withPacket {s : LedgerModule} (data : Data)
    (hfree : s.storage.list[data.name]? = none) :
    Stores (PacketOf (· = data)) s.toDagModule (withPacket s data).toDagModule := by
  have hstore := stores_insertNew (S := (· = data)) rfl s.toDagModule
  rcases exec_insertNew s.toDagModule data with ⟨-, hrun⟩ | hrun
  · rw [hrun] at hstore
    exact hstore
  · refine ⟨fun n => ?_, fun _ _ => Iff.rfl, rfl, spend_reliable⟩
    by_cases hn : data.name = n
    · subst hn
      exact .inr ⟨hfree, data.wire, withPacket_list s data, data, rfl, rfl, rfl⟩
    · exact .inl ((getElem?_insert _ _ _ _).trans (if_neg hn))

/-- The publication of a record for a payload. -/
def publishPayload (config : LedgerConfig) (pub : Publication) (payload : Buffer) :
    LedgerM Name := do
  let record ← newRecord config payload
  publishRecord config pub record

/-- A payload is logged under the next name, or its publication fails. -/
theorem exec_logPayload (config : LedgerConfig) (s : LedgerModule) (pub : Publication)
    (payload : Buffer) :
    (∃ e s', exec (logPayload config pub payload) s = (.error e, s') ∧ s'.seqNo = s.seqNo ∧
        Stores (PacketOf (Publication.Packet config pub)) s.toDagModule s'.toDagModule ∧
        (exec (publishPayload config pub payload) s).1 = .error e) ∨
      ∃ r s₁, exec (logPayload config pub payload) s = exec (logRecord config r) s₁ ∧
        Stores (PacketOf (Publication.Packet config pub)) s.toDagModule s₁.toDagModule ∧
        r.name = nextName config s ∧ pub.seqNo ≠ none ∧ Drafts config s payload r ∧
        ∀ (S : Data → Prop) (R : LedgerModule → LedgerModule → Prop), Beside config S R →
          (∀ p, Publication.Packet config pub p → S p) → R s s₁ := by
  obtain ⟨r, w, hmake, hw, hdraft⟩ := exec_newRecord config payload s
  rw [logPayload, exec_bind_ok hmake]
  generalize hmid : s.withDag { s.toDagModule with waitlist := w } = mid
  have hstart : Stores (PacketOf (Publication.Packet config pub)) s.toDagModule mid.toDagModule :=
    hmid ▸ ⟨fun _ => .inl rfl, hw, rfl, id⟩
  have hstores := hstart.trans (stores_publishRecord config pub r mid)
  rcases hpub : exec (publishRecord config pub r) mid with ⟨e | name, s₁⟩ <;> rw [hpub] at hstores
  · have hseq : s₁.seqNo = s.seqNo := (publishRecord_error config hpub).trans (hmid ▸ rfl)
    refine .inl ⟨e, s₁, exec_bind_error hpub, hseq, hstores, ?_⟩
    rw [publishPayload, exec_bind_ok hmake, hmid, hpub]
  · obtain ⟨hname, hseq⟩ := publishRecord_ok config hpub
    refine .inr ⟨{ r with name := name }, s₁, exec_bind_ok hpub, hstores,
      hname.trans (hmid ▸ rfl), by simp [hseq], ⟨hdraft.payload, hdraft.kind⟩, fun S R h hS => ?_⟩
    have hfirst := h.newRecord payload s
    have hsecond := h.publishRecord hS r mid
    rw [hmake, hmid] at hfirst
    rw [hpub] at hsecond
    exact h.trans _ _ _ hfirst hsecond

/-! ## Success -/

/-- A record that was not loaded is, with its payload, once `add` has returned. -/
theorem add_logs {config : DagConfig} {d d' : DagModule} (h : Keyed d)
    (hr : d.storage.faults = []) {r : Record} {n : Name}
    (hnew : ∀ s, stateAt d (toStateName r.name) = some s → s.status = .INITIALIZED)
    (hrun : exec (add config r) d = (.ok n, d')) :
    ∃ s, stateAt d' (toStateName r.name) = some s ∧ s.status ≠ .INITIALIZED ∧ s.record = r := by
  obtain ⟨found, mid, hread, hrest⟩ := exec_bind_eq_ok hrun
  obtain ⟨res, mid', hread', hevolves, hres⟩ := getOrConstruct_any config h
    (toStateName r.name)
  rw [hread] at hread'
  obtain ⟨rfl, rfl⟩ := Prod.mk.inj hread'
  obtain ⟨hname, hstored, hfrom⟩ := hres found rfl
  have hstatus : found.status = .INITIALIZED := by
    rcases hfrom hr with ⟨-, hs⟩ | hs
    · exact hs
    · exact hnew found hs
  let state : EdgeState := { found with record := r, status := .LOADED }
  have hsname : state.stateName = toStateName r.name := hname
  obtain ⟨block, hblock, -⟩ := stateAt_eq_some.mp hstored
  have hupdate := exec_update (s := state) (hevolves.reliable hr) (hsname ▸ hblock)
  have hput : stateAt (put mid state) (toStateName r.name) = some state.stored := by
    rw [stateAt_put, if_pos hsname]
  have hrecord : state.stored.record = r :=
    congrArg (fun m => { r with name := m }) ((congrArg fromStateName hsname).trans rfl)
  dsimp only at hrest
  rw [hstatus] at hrest
  obtain ⟨_, e, hload, hret⟩ := exec_bind_eq_ok hrest
  obtain rfl : e = d' := congrArg Prod.snd hret
  rw [onNewRecord, exec_bind_ok hupdate] at hload
  have hrest := tame_resolve config state (put mid state) (hevolves.keyed.put state)
  rw [hload] at hrest
  obtain ⟨t, ht, hlater⟩ := hrest.later (hevolves.reliable hr) _ _ hput
  have hloaded : state.stored.status ≠ .INITIALIZED := fun he => Status.noConfusion he
  exact ⟨t, ht, hlater.loaded hloaded, (hlater.record hloaded).trans hrecord⟩

theorem loadedRecord_eq_some {d : DagModule} {n : Name} {r : Record} :
    loadedRecord d n = some r ↔
      ∃ s, stateAt d n = some s ∧ s.status ≠ .INITIALIZED ∧ s.record = r := by
  unfold loadedRecord node
  cases stateAt d n with
  | none => simp [Node.unknown]
  | some s => by_cases hs : s.status = .INITIALIZED <;> simp [Node.of, hs]

theorem loadedRecord_eq_none {d : DagModule} {n : Name} (h : loadedRecord d n = none) :
    ∀ s, stateAt d n = some s → s.status = .INITIALIZED := by
  intro s hs
  by_contra hl
  have := loadedRecord_eq_some.mpr ⟨s, hs, hl, rfl⟩
  simp [h] at this

/-- The payload is in the record that gets the next name, unless that name is loaded already. -/
theorem logPayload_logs {s s' : LedgerModule} (h : Keyed s.toDagModule)
    (hr : s.storage.faults = []) {pub : Publication} {payload : Buffer}
    (hnew : loadedRecord s.toDagModule (toStateName (nextName config s)) = none)
    (hrun : exec (logPayload config pub payload) s = (.ok (), s')) :
    ∃ r, loadedRecord s'.toDagModule (toStateName (nextName config s)) = some r ∧
      r.payload = payload := by
  obtain ⟨r, w, hmake, -, hdraft⟩ := exec_newRecord config payload s
  rw [logPayload, exec_bind_ok hmake] at hrun
  generalize hmid : s.withDag { s.toDagModule with waitlist := w } = mid at hrun
  have hstate : ∀ n, stateAt mid.toDagModule n = stateAt s.toDagModule n := fun n => hmid ▸ rfl
  have hkeyed : Keyed mid.toDagModule := fun n t ht => h n t (hstate n ▸ ht)
  have hname : nextName config mid = nextName config s := hmid ▸ rfl
  have hfaults : mid.storage.faults = [] := hmid ▸ hr
  -- the publication gives the name and leaves the states alone
  obtain ⟨name, s₁, hpub, hrun⟩ := exec_bind_eq_ok hrun
  obtain rfl : name = nextName config s := (publishRecord_ok config hpub).1.trans hname
  have hstores := stores_publishRecord config pub r mid
  rw [hpub] at hstores
  have hsteady : Keeps mid.toDagModule s₁.toDagModule :=
    Keeps.of_stores hkeyed hstores PacketOf.foreign
  have hnew₁ : ∀ t, stateAt s₁.toDagModule (toStateName (nextName config s)) = some t →
      t.status = .INITIALIZED := by
    intro t ht
    rw [hstores.stateAt PacketOf.foreign, hstate] at ht
    exact loadedRecord_eq_none hnew t ht
  -- the graph takes the record, and what follows keeps it
  obtain ⟨stateName, s₂, hadd, hrest⟩ := exec_bind_eq_ok hrun
  obtain ⟨d₂, hrecord, rfl⟩ := exec_onDag_eq hadd
  obtain ⟨t, ht, htl, htr⟩ := add_logs hsteady.keyed (hsteady.reliable hfaults) hnew₁ hrecord
  have hadded := tame_add config.toDagConfig { r with name := nextName config s } _ hsteady.keyed
  rw [hrecord] at hadded
  have hkeeps := (steady_lawful config).index r.payload stateName (nextName config s) (s₁.withDag d₂)
    hadded.keyed
  rw [hrest] at hkeeps
  obtain ⟨u, hu, hul, hur⟩ := hkeeps.loaded (hadded.reliable (hsteady.reliable hfaults)) _ t ht htl
  refine ⟨u.record, loadedRecord_eq_some.mpr ⟨u, hu, hul, rfl⟩, ?_⟩
  rw [hur, htr, ← hdraft.payload]

variable (config) in
theorem after_reliable (events : List Event) : (after config [] events).storage.faults = [] := by
  induction events using List.reverseRecOn with
  | nil => exact (keeps_initializeTracker _ fun n s hs => by simp [stateAt] at hs).reliable rfl
  | append_singleton events event ih =>
      rw [after_append]
      exact (steady_handle config event _ (after_keyed config [] events)).reliable ih

/-- The status is that of the work after the validation. -/
theorem exec_onDataSubmission (s : LedgerModule) (data : Data) (pub : Publication) :
    exec (onDataSubmission config data true pub) s =
      match exec (afterValidation config data pub) s with
      | (.ok _, t) => (.ok .SUCCESS, t)
      | (.error _, t) => (.ok .FAILURE_STORAGE, t) := by
  rw [onDataSubmission, if_pos rfl, exec_tryCatch, exec_bind]
  rcases exec (afterValidation config data pub) s with ⟨_ | _, t⟩ <;> rfl

theorem afterValidation_of_success {s s' : LedgerModule} {data : Data} {verdict : Bool}
    {pub : Publication}
    (h : exec (onDataSubmission config data verdict pub) s = (.ok .SUCCESS, s')) :
    exec (afterValidation config data pub) s = (.ok (), s') := by
  cases verdict with
  | false => cases congrArg Prod.fst h
  | true =>
      rw [exec_onDataSubmission] at h
      rcases hv : exec (afterValidation config data pub) s with ⟨e | _, t⟩ <;> rw [hv] at h
      · cases congrArg Prod.fst h
      · exact congrArg (fun p => (Except.ok (), p.2)) h

theorem afterValidation_of_failure {s s' : LedgerModule} {data : Data} {verdict : Bool}
    {pub : Publication}
    (h : exec (onDataSubmission config data verdict pub) s = (.ok .FAILURE_STORAGE, s')) :
    ∃ e, exec (afterValidation config data pub) s = (.error e, s') := by
  cases verdict with
  | false => cases congrArg Prod.fst h
  | true =>
      rw [exec_onDataSubmission] at h
      rcases hv : exec (afterValidation config data pub) s with ⟨e | _, t⟩ <;> rw [hv] at h
      · exact ⟨e, congrArg (fun p => (Except.error e, p.2)) h⟩
      · cases congrArg Prod.fst h

/-- A successful submission is either dropped as a duplicate, by its name alone, or it is
stored and logged under the next name. -/
theorem success_logged (events : List Event) (data : Data) (verdict : Bool) (pub : Publication)
    {s : LedgerModule}
    (h : exec (onDataSubmission config data verdict pub) (after config [] events) =
      (.ok .SUCCESS, s)) :
    ((∃ b, (after config [] events).storage.list[data.name]? = some b) ∧
        s = after config [] events) ∨
      ((after config [] events).storage.list[data.name]? = none ∧
        s.storage.list[data.name]? = some data.wire ∧
        (loadedRecord (after config [] events).toDagModule
            (toStateName (nextName config (after config [] events))) = none →
          ∃ r, loadedRecord s.toDagModule
              (toStateName (nextName config (after config [] events))) = some r ∧
            r.payload = data.wire.wire)) := by
  have hkeyed := after_keyed config [] events
  have hr := after_reliable config events
  have hrun := afterValidation_of_success h
  generalize after config [] events = s₀ at hrun hkeyed hr
  cases hfree : s₀.storage.list[data.name]? with
  | some b =>
      rw [exec_afterValidation_taken hfree, spend_of_reliable hr] at hrun
      exact .inl ⟨⟨b, rfl⟩, (congrArg Prod.snd hrun).symm⟩
  | none =>
      have hlog : exec (logPayload config pub data.wire.wire) (withPacket s₀ data) = (.ok (), s) :=
        (exec_afterValidation_free config hr hfree pub).symm.trans hrun
      have hpacket := stores_withPacket data hfree
      have hkept := Keeps.of_stores hkeyed hpacket PacketOf.foreign
      have hsteady := (steady_lawful config).logPayload
        (fun (p : Data) (_ : Publication.Packet config pub p) => trivial) data.wire.wire _
        hkept.keyed
      rw [hlog] at hsteady
      refine .inr ⟨rfl, hsteady.lasting _ _ (withPacket_list s₀ data) (lasting_packet data), ?_⟩
      intro hnone
      refine logPayload_logs (s := withPacket s₀ data) hkept.keyed (hkept.reliable hr) ?_ hlog
      rw [loadedRecord, node, hpacket.stateAt PacketOf.foreign]
      exact hnone

/-! ## Failure -/

/-- A publication that throws adds packets to the storage at most. -/
theorem stores_failed_publication {s : LedgerModule} {pub : Publication} {payload : Buffer}
    {e : Error} (h : (exec (publishPayload config pub payload) s).1 = .error e) :
    Stores (PacketOf (Publication.Packet config pub)) s.toDagModule
      (exec (logPayload config pub payload) s).2.toDagModule := by
  obtain ⟨r, w, hmake, hw, -⟩ := exec_newRecord config payload s
  rw [publishPayload, exec_bind_ok hmake] at h
  rw [logPayload, exec_bind_ok hmake]
  generalize hmid : s.withDag { s.toDagModule with waitlist := w } = mid at h ⊢
  have hstart : Stores (PacketOf (Publication.Packet config pub)) s.toDagModule mid.toDagModule :=
    hmid ▸ ⟨fun _ => .inl rfl, hw, rfl, id⟩
  have hstores := hstart.trans (stores_publishRecord config pub r mid)
  rcases hpub : exec (publishRecord config pub r) mid with ⟨e' | name, s₁⟩
  · rw [hpub] at hstores
    rw [exec_bind_error hpub]
    exact hstores
  · rw [hpub] at h
    cases h

variable (config) in
/-- A stored packet stays, whatever comes later. -/
theorem packet_lasts {s : LedgerModule} (h : Keyed s.toDagModule) {data : Data}
    (hs : s.storage.list[data.name]? = some data.wire) (later : List Event) :
    (later.foldl (perform config) s).storage.list[data.name]? = some data.wire := by
  have hstep : ∀ t event, Keyed t.toDagModule ∧ t.storage.list[data.name]? = some data.wire →
      Keyed (perform config t event).toDagModule ∧
        (perform config t event).storage.list[data.name]? = some data.wire := by
    intro t event ht
    have hsteady := steady_handle config event t ht.1
    exact ⟨hsteady.keyed, hsteady.lasting _ _ ht.2 (lasting_packet data)⟩
  exact (foldl_invariant (I := fun t : LedgerModule => Keyed t.toDagModule ∧
    t.storage.list[data.name]? = some data.wire) hstep later ⟨h, hs⟩).2

/-- A submission that fails in the storage was new and has been stored; submitting it again,
at any later time, is a success without any further effect. If the publication of its
record has thrown, the states, the waitlist and all blocks that were stored before are as
they were. -/
theorem failure_stored (faults : List Bool) (events : List Event) (data : Data) (verdict : Bool)
    (pub : Publication) {s : LedgerModule}
    (h : exec (onDataSubmission config data verdict pub) (after config faults events) =
      (.ok .FAILURE_STORAGE, s)) :
    (after config faults events).storage.list[data.name]? = none ∧
      s.storage.list[data.name]? = some data.wire ∧
      (∀ (later : List Event) again,
        exec (onDataSubmission config data true again) (later.foldl (perform config) s) =
          (.ok .SUCCESS, (later.foldl (perform config) s).withDag
            { (later.foldl (perform config) s).toDagModule with
              storage := spend (later.foldl (perform config) s).storage })) ∧
      (∀ e, (exec (publishPayload config pub data.wire.wire)
          (withPacket (after config faults events) data)).1 = .error e →
        (∀ n, stateAt s.toDagModule n = stateAt (after config faults events).toDagModule n) ∧
        (∀ k n, InBucket s.waitlist k n ↔ InBucket (after config faults events).waitlist k n) ∧
        ∀ n, s.storage.list[n]? = (after config faults events).storage.list[n]? ∨
          ((after config faults events).storage.list[n]? = none ∧
            ∃ p, (p = data ∨ Publication.Packet config pub p) ∧ p.name = n ∧
              s.storage.list[n]? = some p.wire)) := by
  have hkeyed := after_keyed config faults events
  obtain ⟨e, hrun⟩ := afterValidation_of_failure h
  generalize after config faults events = s₀ at hrun hkeyed
  rcases exec_afterValidation config s₀ data pub with ⟨hfree, hlog⟩ | hdup
  · have hpacket := stores_withPacket data hfree
    have hkept := Keeps.of_stores hkeyed hpacket PacketOf.foreign
    have hsteady := (steady_lawful config).logPayload
      (fun (p : Data) (_ : Publication.Packet config pub p) => trivial) data.wire.wire _ hkept.keyed
    rw [hlog] at hrun
    rw [hrun] at hsteady
    have hstored := hsteady.lasting _ _ (withPacket_list s₀ data) (lasting_packet data)
    refine ⟨hfree, hstored, ?_, ?_⟩
    · intro later again
      rw [exec_onDataSubmission,
        exec_afterValidation_taken (packet_lasts config hsteady.keyed hstored later)]
    · intro e' hpub
      have hstores := stores_failed_publication hpub
      rw [hrun] at hstores
      have hall : Stores (PacketOf fun p => p = data ∨ Publication.Packet config pub p)
          s₀.toDagModule s.toDagModule :=
        (hpacket.mono fun n b => PacketOf.mono fun p => .inl).trans
          (hstores.mono fun n b => PacketOf.mono fun p => .inr)
      refine ⟨hall.stateAt PacketOf.foreign, hall.bucket, ?_⟩
      intro n
      rcases hall.blocks n with hn | ⟨hn, b, hb, p, hp, hpn, rfl⟩
      · exact .inl hn
      · exact .inr ⟨hn, p, hp, hpn, hb⟩
  · rw [hdup] at hrun
    cases congrArg Prod.fst hrun

end

section

local instance : NdnCxx := plainNdn packetDigests

/-- The state after the submission of the packet "/A". -/
abbrev submitA (pub : Publication) : LedgerModule :=
  (exec (onDataSubmission ledger (packetData nameA [1]) true pub) (after ledger [] [])).2

theorem success_logged_genesis :
    ((∃ b, (after ledger [] []).storage.list[nameA]? = some b) ∧
        submitA (publication (some 1)) = after ledger [] []) ∨
      ((after ledger [] []).storage.list[nameA]? = none ∧
        (submitA (publication (some 1))).storage.list[nameA]? = some (packet nameA [1]) ∧
        (loadedRecord (after ledger [] []).toDagModule
            (toStateName (nextName ledger (after ledger [] []))) = none →
          ∃ r, loadedRecord (submitA (publication (some 1))).toDagModule
              (toStateName (nextName ledger (after ledger [] []))) = some r ∧
            r.payload = (packet nameA [1]).wire)) :=
  success_logged [] (packetData nameA [1]) true (publication (some 1))
    (exec_eq_of_toOption (by decide +kernel))

theorem not_loaded_of_all {d : DagModule} {payload : Buffer}
    (h : d.storage.list.toList.all (fun e =>
      (decodeEdgeState e.2).toOption.all fun s => s.record.payload != payload) = true)
    (n : Name) (r : Record) (hr : loadedRecord d n = some r) : r.payload ≠ payload := by
  obtain ⟨s, hs, -, rfl⟩ := loadedRecord_eq_some.mp hr
  obtain ⟨block, hb, hd⟩ := stateAt_eq_some.mp hs
  have hmem : (n, block) ∈ d.storage.list.toList :=
    ExtTreeMap.mem_toList_iff_getElem?_eq_some.mpr hb
  have := List.all_eq_true.mp h _ hmem
  simpa [hd, Except.toOption] using this

/-- Other bytes under a known name, and a name of the ledger that sync has brought before
the ledger uses it: both submissions succeed. -/
theorem success_not_logged :
    (¬ ∀ (config : LedgerConfig) (events : List Event) (data : Data) (pub : Publication)
      (s : LedgerModule), exec (onDataSubmission config data true pub) (after config [] events) =
        (.ok .SUCCESS, s) → s.storage.list[data.name]? = some data.wire) ∧
    ¬ ∀ (config : LedgerConfig) (events : List Event) (data : Data) (pub : Publication)
      (s : LedgerModule), (after config [] events).storage.list[data.name]? = none →
        exec (onDataSubmission config data true pub) (after config [] events) =
          (.ok .SUCCESS, s) →
        ∃ n r, loadedRecord s.toDagModule n = some r ∧ r.payload = data.wire.wire := by
  constructor
  · intro h
    have := h ledger [.submission (packetData nameA [1]) true (publication (some 1))]
      (packetData nameA [2]) (publication (some 2)) _ (exec_eq_of_toOption (by decide +kernel))
    revert this
    decide +kernel
  · intro h
    obtain ⟨n, r, hr, hp⟩ := h ledger
      [.sync { name := ledger.instancePrefix.appendSequenceNumber 1, type := REPLY_RECORD }]
      (packetData nameA [1]) (publication (some 1)) _ (by decide +kernel)
      (exec_eq_of_toOption (by decide +kernel))
    exact not_loaded_of_all (by decide +kernel) n r hr hp

theorem failure_stored_unpublished :
    (after ledger [] []).storage.list[nameA]? = none ∧
      (submitA (publication none)).storage.list[nameA]? = some (packet nameA [1]) ∧
      (∀ (later : List Event) again,
        exec (onDataSubmission ledger (packetData nameA [1]) true again)
            (later.foldl (perform ledger) (submitA (publication none))) =
          (.ok .SUCCESS, (later.foldl (perform ledger) (submitA (publication none))).withDag
            { (later.foldl (perform ledger) (submitA (publication none))).toDagModule with
              storage := spend
                (later.foldl (perform ledger) (submitA (publication none))).storage })) ∧
      (∀ e, (exec (publishPayload ledger (publication none) (packet nameA [1]).wire)
          (withPacket (after ledger [] []) (packetData nameA [1]))).1 = .error e →
        (∀ n, stateAt (submitA (publication none)).toDagModule n =
          stateAt (after ledger [] []).toDagModule n) ∧
        (∀ k n, InBucket (submitA (publication none)).waitlist k n ↔
          InBucket (after ledger [] []).waitlist k n) ∧
        ∀ n, (submitA (publication none)).storage.list[n]? =
            (after ledger [] []).storage.list[n]? ∨
          ((after ledger [] []).storage.list[n]? = none ∧
            ∃ p, (p = packetData nameA [1] ∨ Publication.Packet ledger (publication none) p) ∧
              p.name = n ∧ (submitA (publication none)).storage.list[n]? = some p.wire)) :=
  failure_stored [] [] (packetData nameA [1]) true (publication none)
    (exec_eq_of_toOption (by decide +kernel))

/-- What has been stored when the publication throws is not taken back. -/
theorem failure_not_atomic :
    ¬ ∀ (config : LedgerConfig) (faults : List Bool) (events : List Event) (data : Data)
      (pub : Publication) (s : LedgerModule),
      exec (onDataSubmission config data true pub) (after config faults events) =
        (.ok .FAILURE_STORAGE, s) →
      ∀ n : Name, s.storage.list[n]? = (after config faults events).storage.list[n]? := by
  intro h
  have := h ledger [] [] (packetData nameA [1]) (publication none) _
    (exec_eq_of_toOption (by decide +kernel)) nameA
  revert this
  decide +kernel

end

end CertLedger.SubmissionRuns
