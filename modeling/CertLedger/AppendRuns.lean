import CertLedger.DagTips
import CertLedger.EventRuns
import CertLedger.GenesisRuns

/-!
# One append endorses the whole ledger

When every record points to records that were there before it, nothing waits for
a record and no search misses one. Every open record is then below a tip, so a
record that points to all tips endorses them all and is the only tip after it.
-/
namespace CertLedger.AppendRuns
open Std TlvCodec FallibleState NdnObjects RecordCodec EdgeStateCodec InterlockPolicies
open OrderedContainers EndorsementDag DagEngine DagStates DagUpdates DagHarvest DagEffects
open DagRefinement DagSafety DagCover LedgerHandlers LedgerEffects SubmissionRuns
open HarvestRuns LedgerSafety GenesisRuns EventRuns PlainNdn

section
variable [NdnCxx]

/-! ## Modules whose records came in order -/

/-- The records came in order, and nothing else is stored under the name of a state. -/
structure Rooted (config : DagConfig) (d : DagModule) : Prop where
  consistent : Consistent config d
  complete : (abs d).Complete
  closed : (abs d).Closed
  ordered : (abs d).Ordered
  stored : ∀ n, Stored d n → (node d n).status ≠ .INITIALIZED

/-- The records came in order, whatever else is stored. -/
structure Grounded (config : DagConfig) (d : DagModule) : Prop where
  legible : Legible d
  rooted : Rooted config (cleaned d)

/-- What a record may point to when it comes in order. -/
def PointsBack (d : DagModule) (r : Record) : Prop :=
  ∀ m ∈ r.pointers, (node d (toStateName m)).status ≠ .INITIALIZED ∨
    (r.isGenesis = true ∧ m = r.name)

section
variable {config : DagConfig} {d d' e : DagModule}

theorem rooted_empty : Rooted config {} where
  consistent := Consistent.empty
  complete := by
    rw [abs_empty]
    exact Dag.complete_empty
  closed := by
    rw [abs_empty]
    exact Dag.closed_empty
  ordered := by
    rw [abs_empty]
    exact Dag.ordered_empty
  stored n hn := by simp [Stored, stateAt] at hn

theorem Rooted.congr (h : Rooted config d) (hclean : Clean d')
    (hnode : ∀ n, node d' n = node d n) (hstored : ∀ n, Stored d' n ↔ Stored d n)
    (hbucket : ∀ k n, InBucket d'.waitlist k n ↔ InBucket d.waitlist k n) : Rooted config d' where
  consistent := h.consistent.congr hclean hnode hstored hbucket
  complete := by
    rw [abs_congr hnode]
    exact h.complete
  closed := by
    rw [abs_congr hnode]
    exact h.closed
  ordered := by
    rw [abs_congr hnode]
    exact h.ordered
  stored n hn := by
    rw [hnode]
    exact h.stored n ((hstored n).mp hn)

theorem Rooted.add (h : Rooted config d) {r : Record}
    (hnew : (node d (toStateName r.name)).status = .INITIALIZED) (hptr : PointsBack d r) :
    ∃ d', exec (add config r) d = (.ok (toStateName r.name), d') ∧ Rooted config d' ∧
      Adds r d d' := by
  obtain ⟨d', hrun, hc, ha⟩ := h.consistent.add_new hnew
  have hr : toStateName r.name ∉ (abs d).loaded := fun hl => hl hnew
  have hordered : (abs d').Ordered := by
    rw [ha.abs_eq]
    refine h.ordered.add hr fun v hv => ?_
    obtain ⟨m, hm, rfl⟩ := List.mem_map.mp hv
    rcases hptr m hm with hload | ⟨hgenesis, rfl⟩
    · exact .inl hload
    · exact .inr ⟨rfl, by simp [hgenesis]⟩
  refine ⟨d', hrun, ⟨hc, ?_, ?_, hordered, fun n hn => ?_⟩, ha⟩
  · rw [ha.abs_eq]
    exact h.complete.add h.closed hr
  · rw [ha.abs_eq]
    exact h.closed.add hr
  · rw [← mem_loaded]
    rcases DagTips.stored_of_add h.consistent hnew hrun hn with hold | rfl | ⟨x, hx⟩
    · rw [ha.abs_eq]
      exact .inr (h.stored n hold)
    · rw [ha.abs_eq]
      exact .inl rfl
    · obtain ⟨u, hu, -⟩ := Dag.exists_edge_of_mem_desc hc.sound hx
      exact hordered.grounded hu

theorem Rooted.harvestAbove (h : Rooted config d) (t : ℕ) (remove : Bool) :
    ∃ l d', exec (harvestAbove config t remove) d = (.ok l, d') ∧ Rooted config d' ∧
      ∀ n, Stored d' n ↔ Stored d n := by
  obtain ⟨d', hrun, hc, hh⟩ := h.consistent.harvestAbove t remove
  have hordered : (abs d').Ordered := by
    rw [hh.abs_eq]
    exact h.ordered.lock _
  refine ⟨_, d', hrun, ⟨hc, ?_, ?_, hordered, fun n hn => ?_⟩, hh.stored⟩
  · rw [hh.abs_eq]
    exact h.complete.lock _
  · rw [hh.abs_eq]
    refine h.closed.lock h.consistent.sound h.complete enough_mono fun p _ a hpa => ?_
    obtain ⟨u, -, hua⟩ := Relation.TransGen.tail'_iff.mp hpa
    exact h.ordered.grounded hua
  · rw [← mem_loaded, hh.abs_eq]
    exact h.stored n ((hh.stored n).mp hn)

theorem Grounded.of_covers {B : Name → Prop} (h : Covers B d e) (hr : Rooted config e) :
    Grounded config d := by
  have hlegible := h.legible hr.consistent.clean
  obtain ⟨hcover, hclean⟩ := covers_cleaned hlegible
  refine ⟨hlegible, hr.congr hclean (fun n => ?_) (fun n => ?_) fun k n => ?_⟩
  · rw [hcover.node, h.node]
  · rw [hcover.stored, h.stored]
  · rw [hcover.waitlist, h.waitlist]

theorem Grounded.alike (h : Grounded config d) (ha : Alike d d') : Grounded config d' := by
  obtain ⟨hcover, -⟩ := covers_cleaned h.legible
  obtain ⟨hcover', hclean'⟩ := covers_cleaned ha.legible
  refine ⟨ha.legible, h.rooted.congr hclean' (fun n => ?_) (fun n => ?_) fun k n => ?_⟩
  · rw [hcover'.node, ha.node, hcover.node]
  · rw [hcover'.stored, ha.stored, hcover.stored]
  · rw [hcover'.waitlist, ha.bucket, hcover.waitlist]

theorem Grounded.loaded (h : Grounded config d) {n : Name} (hn : Stored d n) :
    (node d n).status ≠ .INITIALIZED := by
  obtain ⟨hcover, -⟩ := covers_cleaned h.legible
  rw [← hcover.node]
  exact h.rooted.stored n ((hcover.stored n).mpr hn)

theorem Grounded.ordered (h : Grounded config d) : (abs d).Ordered := by
  rw [← abs_congr (covers_cleaned h.legible).1.node]
  exact h.rooted.ordered

/-- The name of a record that is added is not blocked. -/
theorem not_blocked_of_add (h : Legible d) {r : Record} {n : Name}
    (hrun : exec (add config r) d = (.ok n, d')) : ¬Blocked d (toStateName r.name) := by
  rintro ⟨_, hnone, b, hb⟩
  obtain ⟨found, mid, hread, -⟩ := exec_bind_eq_ok hrun
  rcases exec_getOrConstruct_cases config h.reliable (toStateName r.name) with
    ⟨s, hs, -⟩ | ⟨hfree, -⟩ | ⟨c, e, -, -, herr⟩
  · simp [hnone] at hs
  · simp [hfree] at hb
  · cases congrArg Prod.fst (hread.symm.trans herr)

/-- A record that comes in order is added as it would be without the foreign blocks. -/
theorem Grounded.add_new (h : Grounded config d) {r : Record}
    (hnew : (node d (toStateName r.name)).status = .INITIALIZED)
    (hfree : ¬Blocked d (toStateName r.name)) (hptr : PointsBack d r) :
    ∃ d' e', exec (add config r) d = (.ok (toStateName r.name), d') ∧
      Covers (Blocked d) d' e' ∧ Rooted config e' ∧ Adds r (cleaned d) e' := by
  obtain ⟨hcover, -⟩ := covers_cleaned h.legible
  have hptr' : PointsBack (cleaned d) r := fun m hm => by
    rw [hcover.node]
    exact hptr m hm
  obtain ⟨e', hrun, hr', ha⟩ := h.rooted.add (by rw [hcover.node]; exact hnew) hptr'
  rcases shadows_add r d _ _ e' hcover hrun with hX | ⟨d', hd', h'⟩
  · obtain ⟨n, hn, hs⟩ := hX.stored
    have hload : n ∈ (abs e').loaded := hr'.stored n hs
    rw [ha.abs_eq] at hload
    rcases hload with rfl | hload
    · exact (hfree hn).elim
    · obtain ⟨s, hs⟩ := Option.isSome_iff_exists.mp (stored_of_status hload)
      exact (hcover.hides.not_blocked hs hn).elim
  · exact ⟨d', e', hd', h', hr', ha⟩

theorem Grounded.add (h : Grounded config d) {r : Record}
    (hptr : (node d (toStateName r.name)).status = .INITIALIZED →
      ¬Blocked d (toStateName r.name) → PointsBack d r) :
    Grounded config (exec (add config r) d).2 := by
  by_cases hfree : Blocked d (toStateName r.name)
  · -- the first read fails
    rcases exec_getOrConstruct_cases config h.legible.reliable (toStateName r.name) with
      ⟨s, hs, -⟩ | ⟨hnone, -⟩ | ⟨b, e, -, -, hrun⟩
    · simp [hfree.2.1] at hs
    · obtain ⟨b, hb⟩ := hfree.2.2
      simp [hnone] at hb
    · rw [DagEngine.add, exec_bind_error hrun]
      exact h.alike ⟨h.legible.of_list rfl rfl, fun _ => rfl, fun _ => Iff.rfl, fun _ _ => Iff.rfl⟩
  · by_cases hnew : (node d (toStateName r.name)).status = .INITIALIZED
    · obtain ⟨d', e', hrun, hcover, hr, -⟩ := h.add_new hnew hfree (hptr hnew hfree)
      rw [hrun]
      exact .of_covers hcover hr
    · obtain ⟨hcover, -⟩ := covers_cleaned h.legible
      have hrun := h.rooted.consistent.add_old (r := r) (by rw [hcover.node]; exact hnew)
      rcases shadows_add r d _ _ _ hcover hrun with hX | ⟨d', hd', h'⟩
      · exact (hX.elim hcover fun n => id).elim
      · rw [hd']
        exact .of_covers h' h.rooted

theorem Grounded.harvestAbove (h : Grounded config d) (t : ℕ) (remove : Bool) :
    Grounded config (exec (harvestAbove config t remove) d).2 := by
  obtain ⟨hcover, -⟩ := covers_cleaned h.legible
  obtain ⟨l, e', hrun, hr, hstored⟩ := h.rooted.harvestAbove t remove
  rcases shadows_harvestAbove t remove d _ _ e' hcover hrun with hX | ⟨d', hd', h'⟩
  · exact (hX.elim hcover fun n => (hstored n).mp).elim
  · rw [hd']
    exact .of_covers h' hr

end

/-! ## Beside the additions -/

/-- Only names in buckets from `t` up are taken out, and endorsers stay. -/
structure Trims (t : ℕ) (d d' : DagModule) : Prop where
  record : ∀ n, (node d' n).record = (node d n).record
  descendants : ∀ n, (node d' n).descendants = (node d n).descendants
  bucket : ∀ k n, k < t → (InBucket d'.waitlist k n ↔ InBucket d.waitlist k n)

/-- What the ledger does besides adding records. -/
structure Settled (config : LedgerConfig) (s s' : LedgerModule) : Prop where
  onward : Onward config s s'
  trims : Trims config.policyThreshold s.toDagModule s'.toDagModule
  grounded : Grounded config.toDagConfig s.toDagModule →
    Grounded config.toDagConfig s'.toDagModule

def Settles (config : LedgerConfig) (s s' : LedgerModule) : Prop :=
  Secure config s → Settled config s s'

section
variable {config : LedgerConfig} {s s' s'' : LedgerModule}

theorem trims_alike {t : ℕ} {d d' : DagModule} (h : Alike d d') : Trims t d d' where
  record n := by rw [h.node]
  descendants n := by rw [h.node]
  bucket k n _ := h.bucket k n

theorem Trims.trans {t : ℕ} {d d' d'' : DagModule} (h : Trims t d d') (h' : Trims t d' d'') :
    Trims t d d'' where
  record n := (h'.record n).trans (h.record n)
  descendants n := (h'.descendants n).trans (h.descendants n)
  bucket k n hk := (h'.bucket k n hk).trans (h.bucket k n hk)

theorem Settled.trans (h : Settled config s s') (h' : Settled config s' s'') :
    Settled config s s'' where
  onward := h.onward.trans h'.onward
  trims := h.trims.trans h'.trims
  grounded hg := h'.grounded (h.grounded hg)

theorem settled_alike (h : Onward config s s') (ha : Alike s.toDagModule s'.toDagModule) :
    Settled config s s' where
  onward := h
  trims := trims_alike ha
  grounded hg := hg.alike ha

theorem settled_refl (h : Secure config s) : Settled config s s :=
  settled_alike (.refl h) (.refl h.fair.legible)

theorem settles_harmless {α : Type} {x : DagM α} (hx : Harmless x) :
    Respects (onGraph (Settles config)) x := by
  intro d s hs h
  subst hs
  exact settled_alike (secures_harmless hx _ s rfl h) (hx _ h.fair.legible h.tracker).1

variable (config) in
theorem settles_beside : Beside config (fun _ => True) (Settles config) where
  refl _ := settled_refl
  trans _ _ _ hst htu h := (hst h).trans (htu (hst h).onward.secure)
  number s seqNo h :=
    settled_alike ((secures_lawful config).number s seqNo h) (.refl h.fair.legible)
  tips := settles_harmless harmless_getWaitList
  insert data _ := settles_harmless (harmless_insert data)
  map payload n := settles_harmless (harmless_addPayloadMap payload n)
  track n := settles_harmless (harmless_track n)
  harvest := by
    intro s h
    have honward := secures_dagHarvest s h
    obtain ⟨d, s', hharvest, hreaps, hrun, hlike, -⟩ := exec_dagHarvest_secure h
    rw [hrun] at honward ⊢
    have htrims : Trims config.policyThreshold s.toDagModule d := by
      refine ⟨hreaps.record, hreaps.descendants, fun k n hk => ?_⟩
      rw [hreaps.bucket]
      exact and_iff_left fun hgone => absurd hgone.2.1 (Nat.not_le.mpr hk)
    refine ⟨honward, htrims.trans (trims_alike hlike), fun hg => ?_⟩
    have hd := hg.harvestAbove config.policyThreshold true
    rw [hharvest] at hd
    exact hd.alike hlike

/-! ## Runs in order -/

/-- A record from sync that is to be loaded points back. The records the ledger makes do anyway. -/
def InOrder (s : LedgerModule) : Event → Prop
  | .sync record =>
      (node s.toDagModule (toStateName record.name)).status = .INITIALIZED →
        ¬Blocked s.toDagModule (toStateName record.name) → PointsBack s.toDagModule record
  | _ => True

/-- A record that comes in order is added, and other things are done after it. -/
theorem grounded_after_add (h : Secure config s)
    (hg : Grounded config.toDagConfig s.toDagModule) {r : Record}
    (hptr : (node s.toDagModule (toStateName r.name)).status = .INITIALIZED →
      ¬Blocked s.toDagModule (toStateName r.name) → PointsBack s.toDagModule r)
    {k : Name → LedgerM Unit} (hk : ∀ n, Respects (Settles config) (k n)) :
    Grounded config.toDagConfig (exec (do
      let stateName ← onDag (add config.toDagConfig r)
      k stateName) s).2.toDagModule := by
  have hadded := hg.add hptr
  have hsecure := (secures_lawful config).add r _ s rfl h
  rcases hrun : exec (add config.toDagConfig r) s.toDagModule with ⟨e | n, d⟩ <;>
    rw [hrun] at hadded hsecure
  · rw [exec_bind_error (exec_onDag_of hrun)]
    exact hadded
  · rw [exec_bind_ok (exec_onDag_of hrun)]
    exact (hk n _ hsecure.secure).grounded hadded

theorem PointsBack.onward {r : Record} (h : PointsBack s.toDagModule r)
    (ht : Onward config s s') : PointsBack s'.toDagModule r :=
  fun m hm => (h m hm).imp_left fun hn => (ht.loaded _ hn).1

/-- A record made for a payload points back. -/
theorem pointsBack_of_drafts {payload : Buffer} {r : Record} (h : Secure config s)
    (hg : Grounded config.toDagConfig s.toDagModule) (hdraft : Drafts config s payload r)
    (hname : r.name = nextName config s) : PointsBack s.toDagModule r := by
  intro m hm
  rcases hdraft.kind with ⟨htype, hptr, -⟩ | ⟨-, -, hptr⟩
  · rw [hptr] at hm
    exact .inr ⟨by simp [Record.isGenesis, htype], (List.mem_singleton.mp hm).trans hname.symm⟩
  · obtain ⟨n, hn, rfl⟩ := (hptr m).mp hm
    have hst := (h.fair.listed 0 n hn).1
    rw [(h.fair.legible.isStateName hst).toStateName_fromStateName]
    exact .inl (hg.loaded hst)

theorem grounded_logReply (h : Secure config s)
    (hg : Grounded config.toDagConfig s.toDagModule) {pointers : List Name}
    (hptr : ∀ m ∈ pointers, (node s.toDagModule (toStateName m)).status ≠ .INITIALIZED)
    (pub : Publication) :
    Grounded config.toDagConfig (exec (logReply config pub pointers) s).2.toDagModule := by
  have hpub := (settles_beside config).publishRecord
    (fun (p : Data) (_ : Publication.Packet config pub p) => trivial)
    { type := REPLY_RECORD, pointers := pointers } s h
  rw [logReply]
  rcases hrun : exec (publishRecord config pub { type := REPLY_RECORD, pointers := pointers }) s
    with ⟨e | name, s₁⟩ <;> rw [hrun] at hpub
  · rw [exec_bind_error hrun]
    exact hpub.grounded hg
  · rw [exec_bind_ok hrun]
    refine grounded_after_add hpub.onward.secure (hpub.grounded hg) (fun _ _ m hm => ?_)
      fun _ => (settles_beside config).harvest
    exact .inl (hpub.onward.loaded _ (hptr m hm)).1

theorem grounded_perform (h : Secure config s)
    (hg : Grounded config.toDagConfig s.toDagModule) {event : Event}
    (hord : InOrder s event) :
    Grounded config.toDagConfig (perform config s event).toDagModule := by
  cases event with
  | submission data verdict pub =>
      cases verdict with
      | false => exact hg
      | true =>
          rw [perform_submission]
          rcases exec_afterValidation config s data pub with ⟨hfree, hrun⟩ | hrun <;> rw [hrun]
          · have hpacket := h.withPacket data hfree
            have hg' : Grounded config.toDagConfig (withPacket s data).toDagModule :=
              hg.alike (alike_stores h.fair.legible (stores_withPacket data hfree) PacketOf.foreign)
            rcases exec_logPayload config (withPacket s data) pub data.wire.wire with
              ⟨e, t, hlog, -, hstores, -⟩ | ⟨r, s₁, hlog, -, hname, -, hdraft, hbeside⟩ <;>
              rw [hlog]
            · exact hg'.alike (alike_stores hpacket.secure.fair.legible hstores PacketOf.foreign)
            · have hmid := hbeside _ _ (settles_beside config) (fun _ _ => trivial) hpacket.secure
              exact grounded_after_add hmid.onward.secure (hmid.grounded hg')
                (fun _ _ =>
                  (pointsBack_of_drafts hpacket.secure hg' hdraft hname).onward hmid.onward)
                fun n => (settles_beside config).index r.payload n r.name
          · exact hg.alike ⟨h.fair.legible.of_list rfl (by
              rw [spend_of_reliable h.fair.legible.reliable]
              rfl), fun _ => rfl, fun _ => Iff.rfl, fun _ _ => Iff.rfl⟩
  | sync record =>
      exact grounded_after_add h hg hord fun n => (settles_beside config).store n
        fun _ => (settles_beside config).storePayload (fun _ => trivial) record.payload n
  | reply pub =>
      obtain ⟨pointers, t, hrun, ht, hdag, -, -, hfrom⟩ := exec_collectPointers h
      rw [perform, Event.handle, publishReply_eq, exec_bind_ok hrun]
      have hg' : Grounded config.toDagConfig t.toDagModule := hdag ▸ hg
      split
      · refine grounded_logReply ht.secure hg' (fun m hm => ?_) pub
        rw [hdag]
        exact fun he => Status.noConfusion (he.symm.trans (hfrom m hm).1.status)
      · exact hg'

/-! ## What one append endorses -/

/-- What the graph is after a new record that points to all tips. -/
structure Appended (d : DagModule) (x : Name) (d' : DagModule) : Prop where
  endorsed : ∀ n, (node d n).status = .LOADED → x ∈ (node d' n).descendants
  tip : ∀ n, InBucket d'.waitlist 0 n ↔ n = x

theorem Rooted.append {config : DagConfig} {d d' : DagModule} (h : Rooted config d) {r : Record}
    (hnew : (node d (toStateName r.name)).status = .INITIALIZED) (hgenesis : r.isGenesis = false)
    (hptr : ∀ m, m ∈ r.pointers ↔ ∃ n, InBucket d.waitlist 0 n ∧ m = fromStateName n)
    (h' : Rooted config d') (ha : Adds r d d')
    (hlisted : ∀ k n, InBucket d'.waitlist k n → (node d' n).status ≠ .INTERLOCKED) :
    Appended d (toStateName r.name) d' := by
  have hc := h.consistent
  have hr : toStateName r.name ∉ (abs d).loaded := fun hl => hl hnew
  have hback : {v | v ∈ r.pointers.map toStateName} ⊆ (abs d).loaded := by
    intro v hv
    obtain ⟨m, hm, rfl⟩ := List.mem_map.mp hv
    obtain ⟨n, hn, rfl⟩ := (hptr m).mp hm
    have hst := (hc.bucket 0 n hn).1
    rw [((Legible.of_clean hc.clean).isStateName hst).toStateName_fromStateName]
    exact h.stored n hst
  have htips : ∀ b ∈ (abs d).loaded, b ∉ (abs d).locked → (abs d).desc b = ∅ →
      b ∈ {v | v ∈ r.pointers.map toStateName} := by
    intro b hb hopen hnone
    have hst := stored_of_status hb
    have hzero : value config d b = 0 := value_of_desc_eq_empty hnone
    have hin := hc.waiting b hst hopen
    rw [hzero] at hin
    exact List.mem_map.mpr ⟨_, (hptr _).mpr ⟨b, hin, rfl⟩,
      ((Legible.of_clean hc.clean).isStateName hst).toStateName_fromStateName⟩
  have hall : ∀ n, (node d n).status = .LOADED →
      toStateName r.name ∈ (node d' n).descendants := by
    intro n hn
    have hload : n ∈ (abs d).loaded := fun he => Status.noConfusion (he.symm.trans hn)
    have hopen : n ∉ (abs d).locked := fun he => Status.noConfusion (he.symm.trans hn)
    rw [← mem_desc, ha.abs_eq]
    exact Dag.endorses_all hc.sound h.complete h.closed h.ordered (finite_loaded d) hr hgenesis
      htips hload hopen
  refine ⟨hall, fun n => ⟨fun hin => ?_, ?_⟩⟩
  · obtain ⟨hst, hzero⟩ := h'.consistent.bucket 0 n hin
    have hload : n ∈ (abs d').loaded := h'.stored n hst
    rw [ha.abs_eq] at hload
    refine hload.resolve_right fun hold => ?_
    -- an older record that is listed is open and has been endorsed
    have hopen : (node d n).status ≠ .INTERLOCKED := by
      intro hl
      have hlocked : n ∈ (abs d').locked := by
        rw [ha.abs_eq]
        exact hl
      exact hlisted 0 n hin hlocked
    have hwaits : (node d n).status = .LOADED := Status.eq_loaded hold hopen
    exact value_eq_zero_iff.mp hzero.symm _ (hall n hwaits)
  · rintro rfl
    have hload : toStateName r.name ∈ (abs d').loaded := by
      rw [ha.abs_eq]
      exact .inl rfl
    have hopen : toStateName r.name ∉ (abs d').locked := by
      rw [ha.abs_eq]
      exact fun hl => hr ((abs d).locked_loaded hl)
    have hnone : (abs d').desc (toStateName r.name) = ∅ := by
      rw [ha.abs_eq]
      exact Dag.desc_new hc.sound h.ordered hr hback
    have hzero : value config d' (toStateName r.name) = 0 := value_of_desc_eq_empty hnone
    rw [← hzero]
    exact h'.consistent.waiting _ (stored_of_status hload) hopen

theorem appended_of_add (h : Secure config s) (hg : Grounded config.toDagConfig s.toDagModule)
    {r : Record} (hnew : (node s.toDagModule (toStateName r.name)).status = .INITIALIZED)
    (hgenesis : r.isGenesis = false)
    (hptr : ∀ m, m ∈ r.pointers ↔ ∃ n, InBucket s.waitlist 0 n ∧ m = fromStateName n)
    {x : Name} {d' : DagModule}
    (hrun : exec (add config.toDagConfig r) s.toDagModule = (.ok x, d')) :
    Appended s.toDagModule (toStateName r.name) d' ∧
      (node d' (toStateName r.name)).record = r := by
  have hback : PointsBack s.toDagModule r := by
    intro m hm
    obtain ⟨n, hn, rfl⟩ := (hptr m).mp hm
    have hst := (h.fair.listed 0 n hn).1
    rw [(h.fair.legible.isStateName hst).toStateName_fromStateName]
    exact .inl (hg.loaded hst)
  obtain ⟨hcover, -⟩ := covers_cleaned hg.legible
  obtain ⟨d, e, hrun', hcover', hr', ha⟩ :=
    hg.add_new hnew (not_blocked_of_add hg.legible hrun) hback
  obtain rfl : d = d' := congrArg Prod.snd (hrun'.symm.trans hrun)
  have hfair := ((secures_lawful config).add r _ s rfl h).secure.fair
  rw [hrun'] at hfair
  have happend := hg.rooted.append (by rw [hcover.node]; exact hnew) hgenesis
    (fun m => by rw [hcover.waitlist]; exact hptr m) hr' ha fun k n hin => by
      rw [hcover'.node]
      exact (hfair.listed k n (hcover'.waitlist ▸ hin)).2.1
  refine ⟨⟨fun n hn => ?_, fun n => ?_⟩, ?_⟩
  · rw [← hcover'.node]
    exact happend.endorsed n (by rw [hcover.node]; exact hn)
  · rw [← hcover'.waitlist]
    exact happend.tip n
  · rw [← hcover'.node]
    exact ha.loaded

/-- A record that is added in order and has come to the graph was taken by the addition. -/
theorem exec_add_of_loaded (hg : Grounded config.toDagConfig s.toDagModule) {r : Record}
    (hnew : (node s.toDagModule (toStateName r.name)).status = .INITIALIZED)
    (hback : PointsBack s.toDagModule r) {res : Except Error Name} {d : DagModule}
    (hrun : exec (add config.toDagConfig r) s.toDagModule = (res, d)) :
    res = .ok (toStateName r.name) ∨
      ((∃ e, res = .error e) ∧ (node d (toStateName r.name)).status = .INITIALIZED) := by
  by_cases hfree : Blocked s.toDagModule (toStateName r.name)
  · rcases exec_getOrConstruct_cases config.toDagConfig hg.legible.reliable
      (toStateName r.name) with ⟨t, ht, -⟩ | ⟨hnone, -⟩ | ⟨b, e, -, -, hread⟩
    · simp [hfree.2.1] at ht
    · obtain ⟨b, hb⟩ := hfree.2.2
      simp [hnone] at hb
    · rw [add, exec_bind_error hread] at hrun
      obtain ⟨rfl, rfl⟩ := Prod.mk.inj hrun
      exact .inr ⟨⟨e, rfl⟩, hnew⟩
  · obtain ⟨d', e', hrun', -⟩ := hg.add_new hnew hfree hback
    exact .inl (congrArg Prod.fst (hrun.symm.trans hrun'))

/-- What is true of a new record when its handler has come at least as far as the graph. -/
theorem appended_of_logRecord (ht : 1 ≤ config.policyThreshold) (h : Secure config s)
    (hg : Grounded config.toDagConfig s.toDagModule) {r : Record}
    (hnew : (node s.toDagModule (toStateName r.name)).status = .INITIALIZED)
    (hback : PointsBack s.toDagModule r) (hgenesis : r.isGenesis = false)
    (hptr : ∀ m, m ∈ r.pointers ↔ ∃ n, InBucket s.waitlist 0 n ∧ m = fromStateName n)
    {res : Except Error Unit} {s' : LedgerModule}
    (hrun : exec (logRecord config r) s = (res, s'))
    (hadded : res = .ok () ∨
      (node s'.toDagModule (toStateName r.name)).status ≠ .INITIALIZED) :
    (node s'.toDagModule (toStateName r.name)).record = r ∧
      (∀ n, (node s.toDagModule n).status = .LOADED →
        toStateName r.name ∈ (node s'.toDagModule n).descendants) ∧
      ∀ n, InBucket s'.waitlist 0 n ↔ n = toStateName r.name := by
  rw [logRecord] at hrun
  rcases hadd : exec (add config.toDagConfig r) s.toDagModule with ⟨res', d⟩
  rcases exec_add_of_loaded hg hnew hback hadd with rfl | ⟨⟨e, rfl⟩, hnone⟩
  · obtain ⟨happ, hrecord⟩ := appended_of_add h hg hnew hgenesis hptr hadd
    have hsecure := (secures_lawful config).add r _ s rfl h
    rw [hadd] at hsecure
    have hend := (settles_beside config).index r.payload (toStateName r.name) r.name _
      hsecure.secure
    rw [exec_bind_ok (exec_onDag_of hadd)] at hrun
    rw [hrun] at hend
    refine ⟨?_, fun n hn => ?_, fun n => ?_⟩
    · rw [hend.trims.record]
      exact hrecord
    · rw [hend.trims.descendants]
      exact happ.endorsed n hn
    · rw [hend.trims.bucket 0 n ht]
      exact happ.tip n
  · -- the name of the record was blocked
    rw [exec_bind_error (exec_onDag_of hadd)] at hrun
    obtain ⟨rfl, rfl⟩ := Prod.mk.inj hrun
    exact ((hadded.resolve_left fun he => by cases he) hnone).elim

variable (config) in
theorem grounded_after (events : List Event)
    (h : Throughout (perform config) InOrder (start []) events) :
    Grounded config.toDagConfig (after config [] events).toDagModule := by
  have hstart : Grounded config.toDagConfig (start []).toDagModule := by
    have hempty : Covers (fun _ => False) ({} : DagModule) {} :=
      ⟨rfl, rfl, (Legible.of_clean Clean.empty).keyed, rfl, rfl, fun _ _ => rfl,
        fun _ hf => hf.elim, fun _ hf => hf.elim⟩
    rw [LedgerConsistency.start_eq]
    exact (Grounded.of_covers hempty rooted_empty).alike
      (alike_withTracker (.of_clean Clean.empty) _)
  have hall := Throughout.invariant
    (I := fun s => Secure config s ∧ Grounded config.toDagConfig s.toDagModule)
    (fun s event hI hP => ⟨(secures_handle config event s hI.1).secure,
      grounded_perform hI.1 hI.2 hP⟩) h ⟨secure_start config, hstart⟩
  exact hall.2

/-- A new record whose submission succeeds, or comes at least as far as the graph, is generic,
endorses every record that was waiting to be interlocked, and is the only tip. -/
theorem append_endorses (events : List Event)
    (h : Throughout (perform config) InOrder (start []) events)
    (ht : 1 ≤ config.policyThreshold) (data : Data) (pub : Publication)
    (hdata : (after config [] events).storage.list[data.name]? = none)
    (hload : ∃ n, (node (after config [] events).toDagModule n).status ≠ .INITIALIZED) {x : Name}
    (hx : x = toStateName (nextName config (after config [] events)))
    (hfresh : (node (after config [] events).toDagModule x).status = .INITIALIZED)
    {res : Except Error Unit} {s' : LedgerModule}
    (hrun : exec (afterValidation config data pub) (after config [] events) = (res, s'))
    (hadded : res = .ok () ∨ (node s'.toDagModule x).status ≠ .INITIALIZED) :
    (node s'.toDagModule x).record.type = GENERIC_RECORD ∧
      (node s'.toDagModule x).record.payload = data.wire.wire ∧
      (∀ n, (node (after config [] events).toDagModule n).status = .LOADED →
        x ∈ (node s'.toDagModule n).descendants) ∧
      ∃ names d, exec (getWaitList 0) s'.toDagModule = (.ok names, d) ∧
        ∀ n, n ∈ names ↔ n = x := by
  have hsecure := after_secure config events
  have hg := grounded_after config events h
  generalize after config [] events = s at *
  subst hx
  have hr := hsecure.fair.legible.reliable
  have hstores := stores_withPacket data hdata
  have hpacket := hsecure.withPacket data hdata
  have hg' : Grounded config.toDagConfig (withPacket s data).toDagModule :=
    hg.alike (alike_stores hsecure.fair.legible hstores PacketOf.foreign)
  rw [exec_afterValidation_free config hr hdata] at hrun
  have hsame : ∀ t : LedgerModule, Stores (PacketOf (Publication.Packet config pub))
      (withPacket s data).toDagModule t.toDagModule → Alike s.toDagModule t.toDagModule :=
    fun t hpub => alike_stores hsecure.fair.legible
      ((hstores.mono PacketOf.foreign).trans (hpub.mono PacketOf.foreign)) fun _ _ hb => hb
  rcases exec_logPayload config (withPacket s data) pub data.wire.wire with
    ⟨e, t, hlog, -, hpub, -⟩ | ⟨r, s₁, hlog, hpub, hname, -, hdraft, hbeside⟩
  · -- the publication has failed, so nothing was added
    obtain ⟨rfl, rfl⟩ := Prod.mk.inj (hlog.symm.trans hrun)
    rw [(hsame t hpub).node] at hadded
    exact ((hadded.resolve_left fun he => by cases he) hfresh).elim
  · have hall := hsame s₁ hpub
    have hmid := hbeside _ _ (settles_beside config) (fun _ _ => trivial) hpacket.secure
    have hg₁ := hmid.grounded hg'
    have hback := (pointsBack_of_drafts hpacket.secure hg' hdraft hname).onward hmid.onward
    have hname : r.name = nextName config s := hname
    rw [← hname] at hadded hfresh ⊢
    have hnew : (node s₁.toDagModule (toStateName r.name)).status = .INITIALIZED := by
      rw [hall.node]
      exact hfresh
    obtain ⟨n, hn⟩ := hload
    obtain ⟨a, ha⟩ := exists_tip hsecure.fair ht hg.ordered.acyclic hn
    obtain ⟨-, -, hempty⟩ | ⟨htype, -, hptr⟩ := hdraft.kind
    · exact (hempty a ha).elim
    have hgenesis : r.isGenesis = false := by
      rw [Record.isGenesis, htype]
      rfl
    have hptr₁ : ∀ m, m ∈ r.pointers ↔ ∃ n, InBucket s₁.waitlist 0 n ∧ m = fromStateName n := by
      simp only [hpub.bucket]
      exact hptr
    rw [hlog] at hrun
    obtain ⟨hrecord, hendorsed, htip⟩ := appended_of_logRecord ht hmid.onward.secure hg₁ hnew hback
      hgenesis hptr₁ hrun hadded
    obtain ⟨names, w, hget, hnames, -⟩ := exec_getWaitList s'.toDagModule 0
    rw [hrecord]
    exact ⟨htype, hdraft.payload, fun n hn => hendorsed n (by rw [hall.node]; exact hn), names, _,
      hget, fun n => (hnames n).trans (htip n)⟩

end

end

section

local instance : NdnCxx := plainNdn packetDigests

def peerReply : Record where
  name := nameA
  type := REPLY_RECORD
  pointers := [ledger.instancePrefix.appendSequenceNumber 1]

/-- A submission and the reply of a peer to its record, which is interlocked by that. -/
def peerReplied : List Event :=
  [.submission (packetData nameA [1]) true (publication (some 1)), .sync peerReply]

/-- The module after one more submission. -/
abbrev appendB : LedgerModule :=
  (exec (afterValidation ledger dataB (publication (some 2))) (after ledger [] peerReplied)).2

theorem append_endorses_dataB :
    (node appendB.toDagModule
        (toStateName (ledger.instancePrefix.appendSequenceNumber 2))).record.type =
        GENERIC_RECORD ∧
      (node appendB.toDagModule
        (toStateName (ledger.instancePrefix.appendSequenceNumber 2))).record.payload =
        dataB.wire.wire ∧
      (∀ n, (node (after ledger [] peerReplied).toDagModule n).status = .LOADED →
        toStateName (ledger.instancePrefix.appendSequenceNumber 2) ∈
          (node appendB.toDagModule n).descendants) ∧
      ∃ names d, exec (getWaitList 0) appendB.toDagModule = (.ok names, d) ∧
        ∀ n, n ∈ names ↔ n = toStateName (ledger.instancePrefix.appendSequenceNumber 2) := by
  refine append_endorses peerReplied ⟨trivial, fun _ _ m hm => ?_, trivial⟩ (by decide) dataB
    (publication (some 2)) (by decide +kernel) ⟨toStateName nameA, by decide +kernel⟩
    (by decide +kernel) (by decide +kernel) (exec_eq_of_isOk (by decide +kernel)) (.inl rfl)
  obtain rfl := List.mem_singleton.mp hm
  exact .inl (by decide +kernel)

end

end CertLedger.AppendRuns
