import CertLedger.DagCover
import CertLedger.HarvestRuns

/-!
# What every run of the ledger keeps

The Data of a peer may take any name, the names of states included. The graph
stays fair all the same, the harvest of the ledger never fails, and the records
that count as replied to are waiting records.
-/
namespace CertLedger.LedgerSafety
open Std TlvCodec FallibleState NdnObjects RecordCodec EdgeStateCodec LedgerIndexCodec
open EdgeStateList OrderedContainers DagEngine DagStates DagUpdates DagHarvest DagEffects
open DagRefinement DagSafety DagCover LedgerHandlers LedgerEffects LedgerConsistency HarvestRuns

variable [NdnCxx]

/-! ## Storages with other blocks -/

/-- The same graph over another storage. -/
structure Alike (d d' : DagModule) : Prop where
  legible : Legible d'
  node : ∀ n, node d' n = node d n
  stored : ∀ n, Stored d' n ↔ Stored d n
  bucket : ∀ k n, InBucket d'.waitlist k n ↔ InBucket d.waitlist k n

def HasTracker (d : DagModule) : Prop :=
  ∃ l, d.storage.list[trackerName]? = some (encodeEdgeStateList l)

section
variable {d d' d'' : DagModule}

theorem Alike.refl (h : Legible d) : Alike d d :=
  ⟨h, fun _ => rfl, fun _ => Iff.rfl, fun _ _ => Iff.rfl⟩

theorem Alike.trans (h : Alike d d') (h' : Alike d' d'') : Alike d d'' where
  legible := h'.legible
  node n := (h'.node n).trans (h.node n)
  stored n := (h'.stored n).trans (h.stored n)
  bucket k n := (h'.bucket k n).trans (h.bucket k n)

theorem Alike.fair {config : DagConfig} {t : ℕ} (h : Alike d d') (hd : Fair config t d) :
    Fair config t d' :=
  hd.same_waitlist (Gains.of_nodes h.legible h.node fun n => (h.stored n).mpr) h.bucket

theorem alike_stores {P : Name → Block → Prop} (h : Legible d) (hs : Stores P d d')
    (hP : ∀ n b, P n b → b.type ≠ TLV_EDGE_STATE_TYPE) : Alike d d' := by
  have hstate := hs.stateAt hP
  refine ⟨⟨hs.reliable h.reliable, ?_⟩, fun n => by rw [node, hstate]; rfl,
    fun n => by rw [Stored, hstate]; rfl, hs.bucket⟩
  intro n block s hb hd
  rcases hs.blocks n with he | ⟨-, c, hc, hPc⟩
  · exact h.states n block s (he ▸ hb) hd
  · obtain rfl := Option.some.inj (hb.symm.trans hc)
    exact (hP n block hPc (decodeEdgeState_type hd)).elim

theorem alike_withTracker (h : Legible d) (l : EdgeStateList) : Alike d (withTracker d l) := by
  have hstate := stateAt_withTracker h l
  refine ⟨⟨h.reliable, ?_⟩, fun n => by rw [node, hstate]; rfl,
    fun n => by rw [Stored, hstate]; rfl, fun _ _ => Iff.rfl⟩
  intro n block s hb hd
  have hs := stateAt_eq_some.mpr ⟨block, hb, hd⟩
  rw [hstate] at hs
  have hne : n ≠ trackerName := fun he => trackerName_not_state (he ▸ (h.state hs).1)
  exact h.states n block s ((withTracker_list d l hne).symm.trans hb) hd

theorem alike_stamped {config : DagConfig} (h : Legible d) {n : Name} {s : EdgeState}
    (hs : stateAt d n = some s) : Alike d (stamped config d s) := by
  obtain ⟨hn, hname, -⟩ := h.state hs
  have hticks : Legible { d with ticks := d.ticks + 1 } := h.of_list rfl rfl
  refine ⟨hticks.put (by rw [hname]; exact hn), node_stamped h hs, fun m => ?_, fun _ _ => Iff.rfl⟩
  rw [Stored, stateAt_stamped h hs, Stored]
  split_ifs with hm
  · rw [← hm, hs]
    exact Iff.rfl
  · rfl

/-- Tracking a name succeeds, unless it is to be stamped and is no state. -/
theorem exec_track (config : LedgerConfig) (h : Legible d) (ht : HasTracker d) {n : Name}
    {interlocked : Bool} (hn : interlocked = true → Stored d n) :
    ∃ d', exec (updateStatesTracker config n interlocked) d = (.ok (), d') ∧ Alike d d' ∧
      HasTracker d' := by
  obtain ⟨l, hl⟩ := ht
  by_cases hin : n ∈ l.value
  · cases interlocked with
    | false => exact ⟨d, exec_updateStatesTracker_old config h.reliable hl hin, .refl h, l, hl⟩
    | true =>
        obtain ⟨s, hs⟩ := Option.isSome_iff_exists.mp (hn rfl)
        have hstamped : Alike d (stamped config.toDagConfig d s) := alike_stamped h hs
        exact ⟨_, exec_updateStatesTracker_stamp config h hl hin hs,
          hstamped.trans (alike_withTracker hstamped.legible l), l, withTracker_self _ _⟩
  · exact ⟨_, exec_updateStatesTracker_new config h.reliable hl hin interlocked,
      alike_withTracker h _, _, withTracker_self _ _⟩

theorem HasTracker.evolves {config : DagConfig} (ht : HasTracker d) (h : Evolves config d d') :
    HasTracker d' := by
  obtain ⟨l, hl⟩ := ht
  refine ⟨l, h.foreign _ _ hl ?_⟩
  rw [Option.eq_none_iff_forall_ne_some]
  intro s hs
  obtain ⟨b, hb, hd⟩ := stateAt_eq_some.mp hs
  obtain rfl := Option.some.inj (hl.symm.trans hb)
  exact absurd (decodeEdgeState_type hd) (by decide : TLV_EDGE_STATE_LIST_TYPE ≠ _)

end

/-! ## The invariant -/

structure Secure (config : LedgerConfig) (s : LedgerModule) : Prop where
  fair : Fair config.toDagConfig config.policyThreshold s.toDagModule
  tracker : HasTracker s.toDagModule
  replied : ∀ m ∈ s.repliedRecords, (node s.toDagModule (toStateName m)).status = .LOADED

/-- Loaded records stay, interlocked ones for good, and a record is no longer
replied to only when it is interlocked. -/
structure Onward (config : LedgerConfig) (s s' : LedgerModule) : Prop where
  secure : Secure config s'
  loaded : ∀ n, (node s.toDagModule n).status ≠ .INITIALIZED →
    (node s'.toDagModule n).status ≠ .INITIALIZED ∧
      (node s'.toDagModule n).record = (node s.toDagModule n).record
  locked : ∀ n, (node s.toDagModule n).status = .INTERLOCKED →
    (node s'.toDagModule n).status = .INTERLOCKED
  replied : ∀ m ∈ s.repliedRecords,
    m ∈ s'.repliedRecords ∨ (node s'.toDagModule (toStateName m)).status = .INTERLOCKED

def Secures (config : LedgerConfig) (s s' : LedgerModule) : Prop :=
  Secure config s → Onward config s s'

section
variable {config : LedgerConfig} {s s' s'' : LedgerModule}

theorem Onward.refl (h : Secure config s) : Onward config s s :=
  ⟨h, fun _ hn => ⟨hn, rfl⟩, fun _ hn => hn, fun _ hm => .inl hm⟩

theorem Onward.trans (h : Onward config s s') (h' : Onward config s' s'') :
    Onward config s s'' where
  secure := h'.secure
  loaded n hn := by
    obtain ⟨hn', hr⟩ := h.loaded n hn
    obtain ⟨hn'', hr'⟩ := h'.loaded n hn'
    exact ⟨hn'', hr'.trans hr⟩
  locked n hn := h'.locked n (h.locked n hn)
  replied m hm := by
    rcases h.replied m hm with hm' | hm'
    · exact h'.replied m hm'
    · exact .inr (h'.locked _ hm')

/-- An operation of the graph engine that interlocks nothing. -/
theorem Secure.withDag (h : Secure config s) {d : DagModule}
    (hd : Fair config.toDagConfig config.policyThreshold d) (ht : HasTracker d)
    (hkept : ∀ n, (node s.toDagModule n).status ≠ .INITIALIZED →
      (node d n).status = (node s.toDagModule n).status ∧
        (node d n).record = (node s.toDagModule n).record) : Onward config s (s.withDag d) where
  secure := ⟨hd, ht, fun m hm => by
    have hl := h.replied m hm
    exact (hkept _ fun he => Status.noConfusion (hl.symm.trans he)).1.trans hl⟩
  loaded n hn := by
    obtain ⟨hs, hr⟩ := hkept n hn
    exact ⟨fun he => hn (hs.symm.trans he), hr⟩
  locked n hn := (hkept n fun he => Status.noConfusion (hn.symm.trans he)).1.trans hn
  replied m hm := .inl hm

theorem Secure.alike (h : Secure config s) {d : DagModule} (ha : Alike s.toDagModule d)
    (ht : HasTracker d) : Onward config s (s.withDag d) :=
  h.withDag (ha.fair h.fair) ht fun n _ => by rw [ha.node]; exact ⟨rfl, rfl⟩

/-- A program that leaves the graph alone and keeps the tracker. -/
def Harmless {α : Type} (x : DagM α) : Prop := ∀ d, Legible d → HasTracker d →
  Alike d (exec x d).2 ∧ HasTracker (exec x d).2

theorem harmless_stores {α : Type} {P : Name → Block → Prop} {x : DagM α}
    (hx : Respects (Stores P) x) (hP : ∀ n b, P n b → b.type ≠ TLV_EDGE_STATE_TYPE) :
    Harmless x := by
  rintro d h ⟨l, hl⟩
  exact ⟨alike_stores h (hx d) hP, l, (hx d).kept hl⟩

theorem harmless_insert (data : Data) : Harmless (LedgerHandlers.insert data) :=
  harmless_stores (stores_insert (S := fun _ => True) trivial) PacketOf.foreign

theorem harmless_addPayloadMap (payload : Buffer) (n : Name) :
    Harmless (addPayloadMap payload n) :=
  harmless_stores (stores_addPayloadMap payload n) fun _ b hb => by
    rw [hb.2]
    decide

theorem harmless_getWaitList : Harmless (getWaitList 0) := by
  intro d h ht
  obtain ⟨names, w, hrun, -, hw⟩ := exec_getWaitList d 0
  rw [hrun]
  exact ⟨⟨h.of_list rfl rfl, fun _ => rfl, fun _ => Iff.rfl, hw⟩, ht⟩

theorem harmless_track (n : Name) : Harmless (updateStatesTracker config n false) := by
  intro d h ht
  obtain ⟨d', hrun, hlike, htracker⟩ : ∃ d', exec (updateStatesTracker config n false) d =
      (.ok (), d') ∧ Alike d d' ∧ HasTracker d' := exec_track config h ht fun he => by cases he
  rw [hrun]
  exact ⟨hlike, htracker⟩

theorem secures_harmless {α : Type} {x : DagM α} (hx : Harmless x) :
    Respects (onGraph (Secures config)) x := by
  intro d s hs h
  subst hs
  obtain ⟨hlike, htracker⟩ := hx _ h.fair.legible h.tracker
  exact h.alike hlike htracker

/-! ## The harvest of the ledger -/

theorem exec_dagHarvest_secure (h : Secure config s) :
    ∃ d s', exec (harvestAbove config.toDagConfig config.policyThreshold true) s.toDagModule =
        (.ok ((harvested s.toDagModule (config.policyThreshold ≤ ·) s.waitlist.toList).map fun n =>
          (node s.toDagModule n).record), d) ∧
      Reaps config.policyThreshold true s.toDagModule d ∧
      exec (dagHarvest config) s = (.ok (), s') ∧ Alike d s'.toDagModule ∧
      HasTracker s'.toDagModule ∧ s'.seqNo = s.seqNo ∧
      ∀ m, m ∈ s'.repliedRecords ↔ m ∈ s.repliedRecords ∧
        toStateName m ∉ harvested s.toDagModule (config.policyThreshold ≤ ·) s.waitlist.toList := by
  obtain ⟨d, hrun, hreaps⟩ := exec_harvestAbove_legible config.toDagConfig h.fair.legible
    (fun k n hn => (h.fair.listed k n hn).1) config.policyThreshold true
  let names := harvested s.toDagModule (config.policyThreshold ≤ ·) s.waitlist.toList
  have hstored : ∀ n ∈ names, Stored s.toDagModule n := fun n hn =>
    stored_of_status (mem_harvested.mp hn).1
  obtain ⟨l, hl⟩ := h.tracker
  have htracker : HasTracker (s.withDag d).toDagModule :=
    ⟨l, (hreaps.others _ trackerName_not_state).trans hl⟩
  have hharvest : exec (onDag (harvestAbove config.toDagConfig config.policyThreshold true)) s =
      (.ok (names.map fun n => (node s.toDagModule n).record), s.withDag d) := exec_onDag_of hrun
  obtain ⟨_, s', hloop, hlike, htracker', hseq, hreplied⟩ := exec_foldlM
    (f := fun (_ : Unit) (r : Record) => do
      modify fun ledger : LedgerModule =>
        { ledger with repliedRecords := ledger.repliedRecords.erase r.name }
      onDag (updateStatesTracker config (toStateName r.name) true))
    (fun done _ t => Alike d t.toDagModule ∧ HasTracker t.toDagModule ∧ t.seqNo = s.seqNo ∧
      ∀ m, m ∈ t.repliedRecords ↔ m ∈ s.repliedRecords ∧ m ∉ done.map Record.name)
    (names.map fun n => (node s.toDagModule n).record)
    (by
      rintro done r rest _ t hdone ⟨hlike, htracker, hseq, hreplied⟩
      obtain ⟨n, hn, rfl⟩ : ∃ n ∈ names, (node s.toDagModule n).record = r := by
        have : r ∈ names.map fun n => (node s.toDagModule n).record := by simp [hdone]
        exact List.mem_map.mp this
      have hname := h.fair.legible.toStateName_record_name (hstored n hn)
      obtain ⟨d', htrack, hlike', htracker'⟩ : ∃ d', exec (updateStatesTracker config
          (toStateName (node s.toDagModule n).record.name) true) t.toDagModule = (.ok (), d') ∧
          Alike t.toDagModule d' ∧ HasTracker d' :=
        exec_track config hlike.legible htracker
          fun _ => (hlike.stored _).mpr ((hreaps.stored _).mpr (hname.symm ▸ hstored n hn))
      refine ⟨(), (LedgerModule.mk t.toDagModule t.seqNo
        (t.repliedRecords.erase (node s.toDagModule n).record.name)).withDag d', ?_,
        hlike.trans hlike', htracker', hseq, fun m => ?_⟩
      · exact (exec_bind_ok (exec_modify _ _)).trans (exec_onDag_of htrack)
      · change m ∈ t.repliedRecords.erase _ ↔ _
        rw [mem_erase, hreplied, List.map_append, List.mem_append]
        grind)
    (b := ()) (s := s.withDag d)
    ⟨.refl hreaps.legible, htracker, rfl, by simp [LedgerModule.withDag]⟩
  refine ⟨d, s', hrun, hreaps, ?_, hlike, htracker', hseq, fun m => ?_⟩
  · rw [dagHarvest, exec_bind_ok hharvest]
    exact hloop
  · rw [hreplied, List.map_map, List.mem_map]
    refine and_congr_right fun _ => not_congr ⟨?_, fun hm => ?_⟩
    · rintro ⟨n, hn, rfl⟩
      exact (h.fair.legible.toStateName_record_name (hstored n hn)).symm ▸ hn
    · refine ⟨_, hm, ?_⟩
      rw [Function.comp_apply, h.fair.legible.record_name (hstored _ hm), fromStateName_toStateName]

theorem secures_dagHarvest : Respects (Secures config) (dagHarvest config) := by
  intro s h
  obtain ⟨d, s', -, hreaps, hrun, hlike, htracker, -, hreplied⟩ := exec_dagHarvest_secure h
  rw [hrun]
  refine ⟨⟨hlike.fair (hreaps.fair h.fair), htracker, fun m hm => ?_⟩, fun n hn => ?_,
    fun n hn => ?_, fun m hm => ?_⟩
  · obtain ⟨hold, hnot⟩ := (hreplied m).mp hm
    rw [hlike.node, hreaps.same _ hnot]
    exact h.replied m hold
  · rw [hlike.node, Ne, hreaps.pending, hreaps.record]
    exact ⟨hn, rfl⟩
  · rw [hlike.node]
    by_cases hmem : n ∈ harvested s.toDagModule (config.policyThreshold ≤ ·) s.waitlist.toList
    · rw [hreaps.locked n hmem]
    · rw [hreaps.same n hmem]
      exact hn
  · rw [hlike.node]
    by_cases hmem : toStateName m ∈
        harvested s.toDagModule (config.policyThreshold ≤ ·) s.waitlist.toList
    · exact .inr (by rw [hreaps.locked _ hmem])
    · exact .inl ((hreplied m).mpr ⟨hm, hmem⟩)

/-! ## The handlers -/

variable (config) in
theorem secures_lawful : Lawful config (fun _ => True) (Secures config) where
  refl _ := Onward.refl
  trans _ _ _ hst htu h := (hst h).trans (htu (hst h).secure)
  number _ _ h := ⟨⟨h.fair, h.tracker, h.replied⟩, fun _ hn => ⟨hn, rfl⟩, fun _ hn => hn,
    fun _ hm => .inl hm⟩
  add record := by
    intro d s hs h
    subst hs
    obtain ⟨hfair, htakes⟩ := fair_add h.fair record
    exact h.withDag hfair (h.tracker.evolves (tame_add _ record _ h.fair.legible.keyed))
      fun n hn => htakes.kept hn
  tips := secures_harmless harmless_getWaitList
  insert data _ := secures_harmless (harmless_insert data)
  map payload n := secures_harmless (harmless_addPayloadMap payload n)
  track n := secures_harmless (harmless_track n)
  harvest := secures_dagHarvest

theorem Secure.withPacket (h : Secure config s) (data : Data)
    (hfree : s.storage.list[data.name]? = none) :
    Onward config s (SubmissionRuns.withPacket s data) := by
  have hstores := SubmissionRuns.stores_withPacket data hfree
  obtain ⟨l, hl⟩ := h.tracker
  exact h.alike (alike_stores h.fair.legible hstores PacketOf.foreign) ⟨l, hstores.kept hl⟩

/-! ### Replies -/

variable (config) in
/-- The pointers of the reply that is due; they count as replied to from then on. -/
def collectPointers : LedgerM (List Name) := do
  let nonInterlocked ← onDag (harvestBelow config.toDagConfig config.policyThreshold)
  nonInterlocked.foldlM collectReply []

theorem publishReply_eq (pub : Publication) : publishReply config pub = do
    let pointers ← collectPointers config
    if 0 < pointers.length then logReply config pub pointers else return () := by
  rw [collectPointers, bind_assoc]
  rfl

/-- A record that a new reply points to. -/
structure Awaits (s : LedgerModule) (m : Name) : Prop where
  status : (node s.toDagModule (toStateName m)).status = .LOADED
  name : (node s.toDagModule (toStateName m)).record.name = m
  type : (node s.toDagModule (toStateName m)).record.type ≠ REPLY_RECORD
  unreplied : m ∉ s.repliedRecords

theorem exec_collectPointers (h : Secure config s) :
    ∃ pointers t, exec (collectPointers config) s = (.ok pointers, t) ∧ Onward config s t ∧
      t.toDagModule = s.toDagModule ∧ t.seqNo = s.seqNo ∧ pointers.Nodup ∧
      ∀ m ∈ pointers, Awaits s m ∧ m ∈ t.repliedRecords := by
  have hbelow : exec (onDag (harvestBelow config.toDagConfig config.policyThreshold)) s =
      (.ok ((harvested s.toDagModule (· < config.policyThreshold) s.waitlist.toList).map fun n =>
        (node s.toDagModule n).record), s) :=
    exec_onDag_of (exec_harvestBelow_legible h.fair.legible
      (fun k n hn => (h.fair.listed k n hn).1) config.policyThreshold)
  obtain ⟨pointers, t, hcollect, hdag, hseq, hmem, hnodup, hfrom⟩ := exec_collectReplies s
    ((harvested s.toDagModule (· < config.policyThreshold) s.waitlist.toList).map fun n =>
      (node s.toDagModule n).record)
  have hawaits : ∀ m ∈ pointers, Awaits s m := by
    intro m hm
    obtain ⟨hnot, r, hr, rfl, htype⟩ := hfrom m hm
    obtain ⟨n, hn, rfl⟩ := List.mem_map.mp hr
    obtain ⟨hload, k, -, hin⟩ := mem_harvested.mp hn
    obtain ⟨hst, hopen, -⟩ := h.fair.listed k n hin
    have hname := h.fair.legible.toStateName_record_name hst
    refine ⟨?_, by rw [hname], by rw [hname]; exact htype, hnot⟩
    rw [hname]
    exact Status.eq_loaded hload hopen
  refine ⟨pointers, t, (exec_bind_ok hbelow).trans hcollect, ⟨⟨?_, ?_, ?_⟩, ?_, ?_, ?_⟩, hdag, hseq,
    hnodup, fun m hm => ⟨hawaits m hm, (hmem m).mpr (.inr hm)⟩⟩
  · rw [hdag]
    exact h.fair
  · rw [hdag]
    exact h.tracker
  · intro m hm
    rw [hdag]
    exact ((hmem m).mp hm).elim (h.replied m) fun hp => (hawaits m hp).status
  · intro n hn
    rw [hdag]
    exact ⟨hn, rfl⟩
  · intro n hn
    rw [hdag]
    exact hn
  · exact fun m hm => .inl ((hmem m).mpr (.inl hm))

theorem onward_publishReply {pointers : List Name}
    (hrun : exec (collectPointers config) s = (.ok pointers, s')) (h : Secure config s')
    (pub : Publication) : Onward config s' (exec (publishReply config pub) s).2 := by
  rw [publishReply_eq, exec_bind_ok hrun]
  split
  · exact (secures_lawful config).logReply (fun _ _ => trivial) pointers s' h
  · exact .refl h

theorem secures_publishReply (pub : Publication) :
    Respects (Secures config) (publishReply config pub) := by
  intro s h
  obtain ⟨pointers, t, hrun, ht, -⟩ := exec_collectPointers h
  exact ht.trans (onward_publishReply hrun ht.secure pub)

variable (config) in
theorem secures_handle (event : Event) : Respects (Secures config) (event.handle config) := by
  have h := secures_lawful config
  cases event with
  | submission data verdict pub =>
      exact Respects.bind h.trans (h.onDataSubmission trivial (fun _ _ => trivial) verdict)
        fun _ => Respects.pure h.refl _
  | sync record =>
      exact h.yieldRecord fun _ n => h.storePayload (fun _ => trivial) record.payload n
  | reply pub => exact secures_publishReply pub

/-! ## Every run -/

theorem fair_empty (config : DagConfig) (t : ℕ) : Fair config t {} where
  legible := .of_clean Clean.empty
  sound := (Consistent.empty : Consistent config {}).sound
  listed k n hin := by simp [InBucket] at hin
  once k j n hin := by simp [InBucket] at hin
  waiting n hn := by simp [node_empty, Node.unknown] at hn
  earned n hn := by simp [node_empty, Node.unknown] at hn

variable (config) in
theorem secure_start : Secure config (start []) where
  fair := by
    rw [start_eq]
    exact (alike_withTracker (.of_clean Clean.empty) _).fair (fair_empty _ _)
  tracker := by
    rw [start_eq]
    exact ⟨_, withTracker_self _ _⟩
  replied m hm := by simp [start] at hm

variable (config) in
theorem after_secure (events : List Event) : Secure config (after config [] events) := by
  induction events using List.reverseRecOn with
  | nil => exact secure_start config
  | append_singleton events event ih =>
      rw [after_append]
      exact (secures_handle config event _ ih).secure

end

end CertLedger.LedgerSafety
