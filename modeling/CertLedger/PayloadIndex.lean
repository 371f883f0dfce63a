import CertLedger.NetworkRuns
import CertLedger.StoredPackets

/-!
# What a payload map leads to

A payload map is stored only for a record that a ledger has published or has been sent, and
nothing else in the storage reads as a map. So in a group every map leads from the digest of
a published payload to the state of the record that has it.
-/
namespace CertLedger.PayloadIndex
open Std TlvCodec FallibleState NdnObjects RecordCodec EdgeStateCodec LedgerIndexCodec
open PayloadMap OrderedContainers DagEngine DagStates DagEffects LedgerHandlers LedgerEffects
open LedgerSafety BroadcastNetwork LedgerNetwork NetworkRuns StoredPackets

section
variable [NdnCxx]

omit [NdnCxx] in
theorem type_of_decodePayloadMap {b : Block} {map : PayloadMap} (h : decodePayloadMap b = .ok map) :
    b.type = TLV_PAYLOAD_MAP_TYPE := by
  by_contra hne
  unfold decodePayloadMap at h
  cases he : b.elements with
  | none => simp [he, parsed, bind, Except.bind] at h
  | some items => simp [he, hne, bind, Except.bind, throw, throwThe, MonadExceptOf.throw] at h

theorem result_of_add {config : DagConfig} {d d' : DagModule} (h : Keyed d) {r : Record} {n : Name}
    (hrun : exec (add config r) d = (.ok n, d')) : n = toStateName r.name := by
  obtain ⟨found, t, hread, hrest⟩ := exec_bind_eq_ok hrun
  obtain ⟨_, _, hread', -, hfound⟩ := getOrConstruct_any config h (toStateName r.name)
  have hname := (hfound found (congrArg Prod.fst (hread'.symm.trans hread))).1
  dsimp only at hrest
  cases hstatus : found.status with
  | INITIALIZED =>
      rw [hstatus] at hrest
      obtain ⟨_, _, -, hpure⟩ := exec_bind_eq_ok hrest
      exact (Except.ok.inj (congrArg Prod.fst hpure)).symm.trans hname
  | LOADED =>
      rw [hstatus] at hrest
      exact (Except.ok.inj (congrArg Prod.fst hrest)).symm.trans hname
  | INTERLOCKED =>
      rw [hstatus] at hrest
      exact (Except.ok.inj (congrArg Prod.fst hrest)).symm.trans hname

/-! ## The parts of a handler -/

section
variable {R : DagModule → DagModule → Prop} (h : Plain R)
  (hinsert : ∀ data, Respects R (LedgerHandlers.insert data)) (config : LedgerConfig)
include h

theorem respects_harvest : Respects (onLedger R) (dagHarvest config) :=
  respects_dagHarvest h.refl h.trans (h.harvestAbove _ _ _) fun n => h.updateStatesTracker config n true

theorem respects_collectPointers : Respects (onLedger R) (collectPointers config) := by
  refine Respects.bind (onLedger_trans h.trans) (respects_onDag (h.harvestBelow _ _)) fun records =>
    Respects.foldlM (onLedger_refl h.refl) (onLedger_trans h.trans) (fun pointers r _ => ?_) []
  intro s
  rw [collectReply, exec_bind_ok (exec_get s)]
  split
  · exact onLedger_refl h.refl s
  · exact onLedger_refl h.refl s

include hinsert

theorem respects_insertNew (data : Data) : Respects R (insertNew data) :=
  Respects.tryCatch h.trans (Respects.bind h.trans (hinsert data) fun _ => h.pure true)
    fun _ => h.pure false

theorem respects_publishRecord (pub : Publication) (record : Record) :
    Respects (onLedger R) (publishRecord config pub record) := by
  intro s
  rw [publishRecord, exec_bind_ok (exec_getNextName config s)]
  refine Respects.bind (onLedger_trans h.trans) (respects_onDag ?_) (fun _ => ?_) s
  · exact h.foldlM (fun _ p => hinsert p) _ ()
  · cases pub.seqNo with
    | none => exact Respects.throw (onLedger_refl h.refl) _
    | some seqNo => exact fun s => onLedger_refl h.refl s

theorem respects_draft (request : Request) : Respects (onLedger R) (draft config request) := by
  have refl := onLedger_refl h.refl
  have trans := onLedger_trans h.trans
  cases request with
  | submission data verdict pub =>
      unfold draft
      dsimp only
      split
      · refine Respects.bind trans (respects_onDag (respects_insertNew h hinsert data)) fun isNew => ?_
        split
        · refine Respects.bind trans (Respects.bind trans (respects_onDag (h.getWaitList 0))
            fun waiting => ?_) fun record => Respects.pure refl _
          dsimp only
          split
          · exact Respects.bind trans (fun s => refl s) fun _ => Respects.pure refl _
          · exact Respects.pure refl _
        · exact Respects.pure refl _
      · exact Respects.pure refl _
  | reply pub =>
      refine Respects.bind trans (respects_collectPointers h config) fun pointers => ?_
      split
      · exact Respects.pure refl _
      · exact Respects.pure refl _

/-- Until a record is published no map is written. -/
theorem respects_publish (request : Request) : Respects (onLedger R) (publish config request) := by
  refine Respects.bind (onLedger_trans h.trans) (respects_draft h hinsert config request) fun record => ?_
  cases record with
  | none => exact Respects.pure (onLedger_refl h.refl) _
  | some record =>
      exact Respects.bind (onLedger_trans h.trans)
        (respects_publishRecord h hinsert config request.publication record) fun _ =>
          Respects.pure (onLedger_refl h.refl) _

omit hinsert in
/-- With a published record a map for its payload is written at most. -/
theorem respects_conclude {s : LedgerModule} (hk : Keyed s.toDagModule) (request : Request)
    {record : Record} (hmap : Respects R (addPayloadMap record.payload (toStateName record.name))) :
    onLedger R s (exec (conclude config request record) s).2 := by
  have refl := onLedger_refl h.refl
  have trans := onLedger_trans h.trans
  have hadd : Respects (onLedger R) (onDag (add config.toDagConfig record)) :=
    respects_onDag (h.add _ record)
  cases request with
  | submission data verdict pub =>
      refine Respects.bind_at trans (hadd s) fun n t hrun => ?_
      obtain ⟨d, hadded, rfl⟩ := exec_onDag_eq hrun
      obtain rfl := result_of_add hk hadded
      exact Respects.bind trans (respects_onDag hmap) (fun _ =>
        Respects.bind trans (respects_onDag (h.updateStatesTracker config _ false)) fun _ =>
          respects_harvest h config) _
  | reply pub => exact Respects.bind trans hadd (fun _ => respects_harvest h config) s

theorem respects_yieldRecord {s : LedgerModule} (hk : Keyed s.toDagModule) {record : Record}
    (hmap : Respects R (addPayloadMap record.payload (toStateName record.name))) :
    onLedger R s (exec (yieldRecord config record) s).2 := by
  have refl := onLedger_refl h.refl
  have trans := onLedger_trans h.trans
  refine Respects.bind_at trans (respects_onDag (h.add _ record) s) fun n t hrun => ?_
  obtain ⟨d, hadded, rfl⟩ := exec_onDag_eq hrun
  obtain rfl := result_of_add hk hadded
  have hstore : Respects R (storePayload record.payload (toStateName record.name)) := by
    refine Respects.bind h.trans (fun d => h.refl d) fun _ => Respects.bind h.trans
      (fun d => h.refl d) fun data => Respects.bind h.trans (respects_insertNew h hinsert data)
        fun isNew => ?_
    split
    · exact Respects.bind h.trans (Respects.tryCatch h.trans hmap fun _ => h.pure ()) fun _ =>
        h.pure true
    · exact h.pure false
  refine Respects.bind trans (respects_onDag (h.updateStatesTracker config _ false)) (fun _ =>
    Respects.bind trans (respects_onDag ?_) fun goesOn => ?_) _
  · unfold yieldPayload
    split
    · exact hstore
    · exact h.pure true
  · split
    · exact respects_harvest h config
    · exact Respects.pure refl _

end

/-! ## The maps of a ledger -/

/-- A map for the record is stored under a name. -/
def MapOf (r : Record) (n : Name) (map : PayloadMap) : Prop :=
  n = toMapName r.payload ∧ map.mapTo = toStateName r.name

/-- Every map that was not there before is for a record in `T`. -/
def Maps (T : Record → Prop) (d d' : DagModule) : Prop :=
  ∀ (n : Name) (b : Block) (map : PayloadMap), d'.storage.list[n]? = some b →
    decodePayloadMap b = .ok map → d.storage.list[n]? = some b ∨ ∃ r, T r ∧ MapOf r n map

variable {T : Record → Prop}

theorem maps_adder {n : Name} {b : Block}
    (hb : ∀ map, decodePayloadMap b = .ok map → ∃ r, T r ∧ MapOf r n map) :
    Respects (Maps T) (adder n b) := by
  intro d
  rcases exec_adder_any d n b with ⟨e, hadd⟩ | ⟨-, hadd⟩
  · rw [hadd]
    exact fun m c map hc _ => .inl hc
  · rw [hadd]
    intro m c map hc hmap
    change (d.storage.list.insert n b)[m]? = some c at hc
    rw [getElem?_insert] at hc
    split_ifs at hc with hm
    · obtain rfl := Option.some.inj hc
      exact .inr (hm ▸ hb map hmap)
    · exact .inl hc

theorem maps_plain (T : Record → Prop) : Plain (Maps T) where
  refl _ _ _ _ hb _ := .inl hb
  trans d d' d'' h h' n b map hb hmap := by
    rcases h' n b map hb hmap with hb | hnew
    · exact h n b map hb hmap
    · exact .inr hnew
  getter n d := by
    obtain ⟨r, hget, -⟩ := exec_getter_any d n
    rw [hget]
    exact fun m b map hb _ => .inl hb
  deleter n d := by
    rcases exec_deleter_any d n with ⟨e, hdel⟩ | hdel
    · rw [hdel]
      exact fun m b map hb _ => .inl hb
    · rw [hdel]
      intro m b map hb _
      change (d.storage.list.erase n)[m]? = some b at hb
      rw [getElem?_erase] at hb
      split_ifs at hb
      exact .inl hb
  adder n b hb := maps_adder fun map hmap => by
    have htype := type_of_decodePayloadMap hmap
    refine absurd ?_ hb
    rw [Lasting, htype]
    decide
  ticks _ _ _ _ _ hb _ := .inl hb
  waitlist _ _ _ _ _ hb _ := .inl hb

theorem maps_insert (data : Data) : Respects (Maps T) (LedgerHandlers.insert data) := by
  apply maps_adder
  intro map hmap
  have htype := data.wire_type.symm.trans (type_of_decodePayloadMap hmap)
  exact absurd htype (by decide)

theorem maps_addPayloadMap {r : Record} (hr : T r) :
    Respects (Maps T) (addPayloadMap r.payload (toStateName r.name)) := by
  apply maps_adder
  intro map hmap
  rw [decodePayloadMap_encodePayloadMap] at hmap
  obtain rfl := Except.ok.inj hmap
  exact ⟨r, hr, rfl, rfl⟩

/-- The record that an event is about: the one that has come, or the one that it publishes. -/
def Handles (config : LedgerConfig) (s : LedgerModule) (event : Event) (r : Record) : Prop :=
  event = .sync r ∨ ∃ request : Request, request.event = event ∧ published config s request = some r

theorem maps_request {config : LedgerConfig} {s : LedgerModule} (h : Secure config s)
    (request : Request) :
    Maps (Handles config s request.event) s.toDagModule
      (perform config s request.event).toDagModule := by
  have hplain := maps_plain (Handles config s request.event)
  have hpublish := respects_publish hplain maps_insert config request s
  rcases request_cases config s request with ⟨t, r, hrun, hr, hperform⟩ | ⟨t, res, hrun, -, hperform⟩
  · have hsat := sits_publish request s h
    rw [hrun] at hpublish hsat
    rw [hperform]
    exact hplain.trans _ _ _ hpublish (respects_conclude hplain config
      hsat.onward.secure.fair.legible.keyed request (maps_addPayloadMap (.inr ⟨request, rfl, hr⟩)))
  · rw [hrun] at hpublish
    rw [hperform]
    exact hpublish

/-- A handler writes a map only for the record it is about. -/
theorem maps_perform {config : LedgerConfig} {s : LedgerModule} (h : Secure config s)
    (event : Event) :
    Maps (Handles config s event) s.toDagModule (perform config s event).toDagModule := by
  cases event with
  | submission data verdict pub => exact maps_request h (.submission data verdict pub)
  | reply pub => exact maps_request h (.reply pub)
  | sync record =>
      exact respects_yieldRecord (maps_plain _) maps_insert config h.fair.legible.keyed
        (maps_addPayloadMap (.inl rfl))

/-! ## The maps of a group -/

variable {ι : Type} [DecidableEq ι]

omit [DecidableEq ι] in
/-- A record comes from sync only after it has been published. -/
theorem published_of_sync {group : ι → LedgerConfig} {net : Network ι LedgerModule Record}
    {step : Step ι Request} {i : ι} {r : Record}
    (h : step.event (fun i => machine (group i)) net = some (i, .sync r)) :
    ∃ p ∈ net.published, p.2 = r := by
  cases step with
  | request k request =>
      obtain ⟨-, hevent⟩ := Prod.mk.inj (Option.some.inj h)
      cases request <;> cases hevent
  | deliver k n =>
      obtain ⟨rfl, p, m, hm, hread⟩ := event_deliver h
      rw [delivery_machine] at hread
      obtain rfl := Event.sync.inj (Option.some.inj hread)
      exact ⟨(p, m), List.mem_of_getElem? hm, rfl⟩

/-- Every map leads to the state of a published record, and lies under the digest of its payload. -/
def Indexed (net : Network ι LedgerModule Record) : Prop :=
  ∀ (i : ι) (n : Name) (b : Block) (map : PayloadMap), (net.parties i).storage.list[n]? = some b →
    decodePayloadMap b = .ok map → ∃ p ∈ net.published, MapOf p.2 n map

theorem indexed_group (group : ι → LedgerConfig) (steps : List (Step ι Request)) :
    Indexed (groupAfter group steps) := by
  induction steps using List.reverseRecOn with
  | nil =>
      intro i n b map hb hmap
      have hstart : Maps (fun _ => False) ({} : DagModule) (start []).toDagModule :=
        Respects.tryCatch (maps_plain _).trans ((maps_plain _).adder _ _ (not_lasting_list _))
          (fun _ => (maps_plain _).pure ()) _
      rcases hstart n b map hb hmap with hb | ⟨r, hr, -⟩
      · simp at hb
      · exact hr.elim
  | append_singleton steps step ih =>
      have hsecure := secure_group group steps
      unfold groupAfter at ih hsecure ⊢
      rw [after_concat]
      generalize newGroup.after (fun i => machine (group i)) steps = net at ih hsecure
      rcases perform_cases (fun i => machine (group i)) net step with
        ⟨i, e, hevent, hnet⟩ | hnet <;> rw [hnet]
      · have hold : ∀ {n : Name} {map : PayloadMap}, (∃ p ∈ net.published, MapOf p.2 n map) →
            ∃ p ∈ (net.handle (fun i => machine (group i)) i e).published, MapOf p.2 n map := by
          rintro n map ⟨p, hp, hmap⟩
          exact ⟨p, (mem_published_handle net i e p).mpr (.inl hp), hmap⟩
        intro j n b map hb hmap
        by_cases hj : j = i
        · subst hj
          rw [handle_self] at hb
          rcases maps_perform (hsecure j) e n b map hb hmap with hb | ⟨r, hr, hmapOf⟩
          · exact hold (ih j n b map hb hmap)
          · rcases hr with rfl | ⟨request, rfl, hr⟩
            · obtain ⟨p, hp, rfl⟩ := published_of_sync hevent
              exact hold ⟨p, hp, hmapOf⟩
            · refine ⟨(j, r), (mem_published_handle net j _ _).mpr (.inr ⟨rfl, ?_⟩), hmapOf⟩
              exact (output_request (group j) _ request).trans hr
        · rw [handle_other net e hj] at hb
          exact hold (ih j n b map hb hmap)
      · exact ih

end
end CertLedger.PayloadIndex
