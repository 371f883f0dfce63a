import CertLedger.LedgerEffects

/-!
# Data lies under its own name

The engine writes states only, and every handler of the ledger stores Data under
the name of the Data. So what the storage has under the name of some Data is this
Data, whatever else has failed in the run.
-/
namespace CertLedger.StoredPackets
open Std TlvCodec FallibleState NdnObjects RecordCodec EdgeStateCodec LedgerIndexCodec
open EdgeStateList PayloadMap OrderedContainers DagEngine DagStates DagHarvest DagEffects
open LedgerHandlers LedgerEffects

/-! ## What the primitives respect, the engine respects -/

/-- A relation that reads, deletions and the writing of states and lists respect. -/
structure Plain (R : DagModule → DagModule → Prop) : Prop where
  refl : ∀ d, R d d
  trans : ∀ d d' d'', R d d' → R d' d'' → R d d''
  getter : ∀ n, Respects R (getter n)
  deleter : ∀ n, Respects R (deleter n)
  adder : ∀ n b, ¬Lasting b → Respects R (adder n b)
  ticks : ∀ d k, R d { d with ticks := k }
  waitlist : ∀ d w, R d { d with waitlist := w }

theorem not_lasting_state [NdnCxx] (s : EdgeState) : ¬Lasting (encodeEdgeState s) :=
  fun h => h.1 rfl

theorem not_lasting_list (l : EdgeStateList) : ¬Lasting (encodeEdgeStateList l) :=
  fun h => h.2 rfl

namespace Plain
section
variable {R : DagModule → DagModule → Prop} (config : DagConfig)

theorem pure (h : Plain R) {α : Type} (a : α) : Respects R (pure a : DagM α) :=
  Respects.pure h.refl a

theorem foldlM (h : Plain R) {α β : Type} {f : β → α → DagM β} (hf : ∀ b a, Respects R (f b a))
    (l : List α) (b : β) : Respects R (l.foldlM f b) :=
  Respects.foldlM h.refl h.trans (fun b a _ => hf b a) b

theorem now (h : Plain R) : Respects R (now config) := fun d => h.ticks d (d.ticks + 1)

theorem evaluateWaitlist (h : Plain R) (state : EdgeState) :
    Respects R (evaluateWaitlist config state) := by
  unfold DagEngine.evaluateWaitlist
  split
  · exact h.pure _
  · exact fun d => h.waitlist d _

theorem getWaitList (h : Plain R) (value : ℕ) : Respects R (getWaitList value) := by
  intro d
  obtain ⟨names, w, hrun, -⟩ := exec_getWaitList d value
  rw [hrun]
  exact h.waitlist d w

variable [NdnCxx]

theorem getOrConstruct (h : Plain R) (n : Name) : Respects R (getOrConstruct config n) := by
  refine Respects.tryCatch h.trans ?_ fun _ => ?_
  · exact Respects.bind h.trans (h.getter n) fun _ d => h.refl d
  · have hmade : Respects R (construct config n) :=
      Respects.bind h.trans (h.now config) fun _ => Respects.bind h.trans (h.now config) fun _ =>
        h.pure _
    exact Respects.bind h.trans hmade fun s =>
      Respects.bind h.trans (h.adder _ _ (not_lasting_state s)) fun _ => h.pure s

theorem update (h : Plain R) (s : EdgeState) : Respects R (update s) :=
  Respects.bind h.trans (h.deleter s.stateName) fun _ => h.adder _ _ (not_lasting_state s)

theorem visitParent (h : Plain R) (testSeen : Bool) (state : EdgeState) (search : AncestorSearch)
    (ptr : Name) : Respects R (visitParent config testSeen state search ptr) := by
  refine Respects.bind h.trans (h.getOrConstruct config _) fun parent => ?_
  dsimp only
  split
  · exact Respects.bind h.trans (h.update _) fun _ => h.pure _
  · split
    · exact h.pure _
    · exact h.pure _

theorem searchRounds (h : Plain R) (state : EdgeState) (fuel prev : ℕ) (search : AncestorSearch) :
    Respects R (searchRounds config state fuel prev search) := by
  induction fuel generalizing prev search with
  | zero =>
      rw [DagEngine.searchRounds]
      split
      · exact h.pure _
      · exact Respects.throw h.refl _
  | succ fuel ih =>
      rw [DagEngine.searchRounds]
      split
      · exact h.pure _
      · refine Respects.bind h.trans (h.foldlM (fun acc f => ?_) _ _) fun next => ih _ next
        exact Respects.bind h.trans (h.getOrConstruct config f) fun s =>
          h.foldlM (fun acc ptr => h.visitParent config true state acc ptr) _ _

theorem evaluateNonGenesis (h : Plain R) (state : EdgeState) :
    Respects R (evaluateNonGenesis config state) := by
  unfold DagEngine.evaluateNonGenesis
  split
  · refine Respects.bind h.trans ?_ fun ancestors => h.foldlM (fun _ a => ?_) _ _
    · refine Respects.bind h.trans
        (h.foldlM (fun acc ptr => h.visitParent config false state acc ptr) _ _) fun search => ?_
      exact Respects.bind h.trans (Respects.get h.refl) fun d =>
        Respects.bind h.trans (h.searchRounds config state _ _ search) fun _ => h.pure _
    · exact Respects.bind h.trans (h.getOrConstruct config a) fun s =>
        Respects.bind h.trans (h.update _) fun _ => h.evaluateWaitlist config _
  · exact h.pure _

theorem add (h : Plain R) (record : Record) : Respects R (add config record) := by
  refine Respects.bind h.trans (h.getOrConstruct config _) fun found => ?_
  dsimp only
  cases found.status with
  | LOADED => exact h.pure _
  | INTERLOCKED => exact h.pure _
  | INITIALIZED =>
      refine Respects.bind h.trans (Respects.bind h.trans (h.update _) fun _ => ?_) fun _ => h.pure _
      refine Respects.bind h.trans (h.evaluateWaitlist config _) fun _ =>
        Respects.bind h.trans (h.evaluateNonGenesis config _) fun _ => h.foldlM (fun _ desc => ?_) _ _
      exact Respects.bind h.trans (h.getOrConstruct config desc) fun s => h.evaluateNonGenesis config s

theorem harvestAbove (h : Plain R) (threshold : ℕ) (remove : Bool) :
    Respects R (harvestAbove config threshold remove) := by
  refine Respects.bind h.trans (Respects.get h.refl) fun d => h.foldlM (fun ret bucket => ?_) _ _
  unfold harvestBucket
  split
  · refine Respects.bind h.trans (h.foldlM (fun acc s => ?_) _ _) fun out =>
      Respects.bind h.trans (fun d => h.waitlist d _) fun _ => h.pure _
    refine Respects.bind h.trans (h.getOrConstruct config s) fun state => ?_
    split
    · exact Respects.bind h.trans (h.update _) fun _ => h.pure _
    · exact h.pure _
  · exact h.pure _

theorem harvestBelow (h : Plain R) (threshold : ℕ) : Respects R (harvestBelow config threshold) := by
  refine Respects.bind h.trans (Respects.get h.refl) fun d => h.foldlM (fun ret bucket => ?_) _ _
  split
  · refine h.foldlM (fun ret s => ?_) _ _
    refine Respects.bind h.trans (h.getOrConstruct config s) fun state => ?_
    split
    · exact h.pure _
    · exact h.pure _
  · exact h.pure _

end

/-! ### The ledger -/

section
variable {R : DagModule → DagModule → Prop}

theorem storeTracker (h : Plain R) (l : EdgeStateList) : Respects R (storeTracker l) :=
  Respects.bind h.trans (h.deleter _) fun _ => h.adder _ _ (not_lasting_list l)

variable [NdnCxx] (config : LedgerConfig)

theorem updateStatesTracker (h : Plain R) (n : Name) (interlocked : Bool) :
    Respects R (updateStatesTracker config n interlocked) := by
  refine Respects.bind h.trans (h.getter _) fun b => Respects.bind h.trans (fun d => h.refl d) fun l => ?_
  split
  · exact h.storeTracker _
  · split
    · refine Respects.bind h.trans ?_ fun _ => h.storeTracker _
      exact Respects.bind h.trans (h.getter n) fun _ =>
        Respects.bind h.trans (fun d => h.refl d) fun s => Respects.bind h.trans (h.now _) fun _ =>
          Respects.bind h.trans (h.deleter n) fun _ => h.adder n _ (not_lasting_state _)
    · exact h.pure _

theorem lawful (h : Plain R) {S : Data → Prop}
    (hinsert : ∀ data, S data → Respects R (LedgerHandlers.insert data))
    (hmap : ∀ payload n, Respects R (addPayloadMap payload n)) :
    Lawful config S (onLedger R) where
  refl := onLedger_refl h.refl
  trans := onLedger_trans h.trans
  number s _ := onLedger_refl h.refl s
  add record := (h.add _ record).mono fun _ _ => onGraph_onLedger
  tips := (h.getWaitList 0).mono fun _ _ => onGraph_onLedger
  insert data hd := (hinsert data hd).mono fun _ _ => onGraph_onLedger
  map payload n := (hmap payload n).mono fun _ _ => onGraph_onLedger
  track n := (h.updateStatesTracker config n false).mono fun _ _ => onGraph_onLedger
  harvest := respects_dagHarvest h.refl h.trans (h.harvestAbove _ _ _) fun n =>
    h.updateStatesTracker config n true

/-- No handler steps outside a relation that also the storing of Data and of maps respects. -/
theorem handle (h : Plain R) (hinsert : ∀ data, Respects R (LedgerHandlers.insert data))
    (hmap : ∀ payload n, Respects R (addPayloadMap payload n)) (event : Event) :
    Respects (onLedger R) (event.handle config) := by
  have hlaw : Lawful config (fun _ => True) (onLedger R) :=
    h.lawful config (fun data _ => hinsert data) hmap
  cases event with
  | submission data verdict pub =>
      exact Respects.bind hlaw.trans (hlaw.onDataSubmission trivial (fun _ _ => trivial) verdict)
        fun _ => Respects.pure hlaw.refl _
  | sync record =>
      exact hlaw.yieldRecord fun _ n => hlaw.storePayload (fun _ => trivial) record.payload n
  | reply pub => exact respects_publishReply hlaw (fun _ _ => trivial) (h.harvestBelow _ _)

end
end Plain

/-! ## Data in the storage -/

section
variable [NdnCxx] {d d' : DagModule}

/-- Stored Data lies under its own name. -/
def Filed (d : DagModule) : Prop := ∀ (n : Name) (b : Block) (p : Data),
  d.storage.list[n]? = some b → Data.ofBlock b = .ok p → p.name = n

theorem wire_of_ofBlock {b : Block} {p : Data} (h : Data.ofBlock b = .ok p) : p.wire = b := by
  unfold Data.ofBlock at h
  split at h
  · obtain rfl := Except.ok.inj h
    rfl
  · cases h

theorem type_of_ofBlock {b : Block} {p : Data} (h : Data.ofBlock b = .ok p) : b.type = tlvData :=
  wire_of_ofBlock h ▸ p.wire_type

theorem filed_insert (h : Filed d) {n : Name} {b : Block}
    (hb : ∀ p, Data.ofBlock b = .ok p → p.name = n)
    (hlist : ∀ m : Name, d'.storage.list[m]? = if n = m then some b else d.storage.list[m]?) :
    Filed d' := by
  intro m c p hc hp
  rw [hlist] at hc
  split_ifs at hc with hm
  · obtain rfl := Option.some.inj hc
    exact hm ▸ hb p hp
  · exact h m c p hc hp

theorem filed_adder {n : Name} {b : Block} (hb : ∀ p, Data.ofBlock b = .ok p → p.name = n) :
    Respects (fun d d' => Filed d → Filed d') (adder n b) := by
  intro d h
  rcases exec_adder_any d n b with ⟨e, hadd⟩ | ⟨-, hadd⟩
  · rw [hadd]
    exact h
  · rw [hadd]
    exact filed_insert h hb fun m => getElem?_insert _ _ _ _

theorem filed_plain : Plain fun d d' => Filed d → Filed d' where
  refl _ h := h
  trans _ _ _ h h' hd := h' (h hd)
  getter n d h := by
    obtain ⟨r, hget, -⟩ := exec_getter_any d n
    rw [hget]
    exact h
  deleter n d h := by
    rcases exec_deleter_any d n with ⟨e, hdel⟩ | hdel
    · rw [hdel]
      exact h
    · rw [hdel]
      intro m b p hb hp
      change (d.storage.list.erase n)[m]? = some b at hb
      rw [getElem?_erase] at hb
      split_ifs at hb
      exact h m b p hb hp
  adder n b hb := filed_adder fun p hp => absurd (wire_of_ofBlock hp ▸ lasting_packet p) hb
  ticks _ _ h := h
  waitlist _ _ h := h

theorem filed_insertData (data : Data) :
    Respects (fun d d' => Filed d → Filed d') (LedgerHandlers.insert data) := by
  apply filed_adder
  intro p hp
  rw [Data.ofBlock_wire] at hp
  rw [Except.ok.inj hp]

theorem filed_addPayloadMap (payload : Buffer) (n : Name) :
    Respects (fun d d' => Filed d → Filed d') (addPayloadMap payload n) := by
  apply filed_adder
  intro p hp
  have htype : TLV_PAYLOAD_MAP_TYPE = tlvData := type_of_ofBlock hp
  exact absurd htype (by decide)

theorem after_filed (config : LedgerConfig) (faults : List Bool) (events : List Event) :
    Filed (after config faults events).toDagModule := by
  induction events using List.reverseRecOn with
  | nil =>
      have hstart : Respects (fun d d' => Filed d → Filed d') initializeTracker :=
        Respects.tryCatch filed_plain.trans (filed_plain.adder _ _ (not_lasting_list _)) fun _ =>
          filed_plain.pure ()
      exact hstart _ fun n b p hb _ => by simp at hb
  | append_singleton events event ih =>
      rw [after_append]
      exact filed_plain.handle config filed_insertData filed_addPayloadMap event _ ih

/-! ## Kinds of blocks -/

/-- A block of one of the kinds that the ledger stores. -/
def Kind (b : Block) : Prop := b.type = tlvData ∨ ¬Lasting b ∨ b.type = TLV_PAYLOAD_MAP_TYPE

def Kinds (d : DagModule) : Prop := ∀ (n : Name) (b : Block), d.storage.list[n]? = some b → Kind b

omit [NdnCxx] in
theorem kinds_adder {n : Name} {b : Block} (hb : Kind b) :
    Respects (fun d d' => Kinds d → Kinds d') (adder n b) := by
  intro d h
  rcases exec_adder_any d n b with ⟨e, hadd⟩ | ⟨-, hadd⟩
  · rw [hadd]
    exact h
  · rw [hadd]
    intro m c hc
    change (d.storage.list.insert n b)[m]? = some c at hc
    rw [getElem?_insert] at hc
    split_ifs at hc
    · exact Option.some.inj hc ▸ hb
    · exact h m c hc

omit [NdnCxx] in
theorem kinds_plain : Plain fun d d' => Kinds d → Kinds d' where
  refl _ h := h
  trans _ _ _ h h' hd := h' (h hd)
  getter n d h := by
    obtain ⟨r, hget, -⟩ := exec_getter_any d n
    rw [hget]
    exact h
  deleter n d h := by
    rcases exec_deleter_any d n with ⟨e, hdel⟩ | hdel
    · rw [hdel]
      exact h
    · rw [hdel]
      intro m b hb
      change (d.storage.list.erase n)[m]? = some b at hb
      rw [getElem?_erase] at hb
      split_ifs at hb
      exact h m b hb
  adder n b hb := kinds_adder (.inr (.inl hb))
  ticks _ _ h := h
  waitlist _ _ h := h

theorem after_kinds (config : LedgerConfig) (faults : List Bool) (events : List Event) :
    Kinds (after config faults events).toDagModule := by
  induction events using List.reverseRecOn with
  | nil =>
      have hstart : Respects (fun d d' => Kinds d → Kinds d') initializeTracker :=
        Respects.tryCatch kinds_plain.trans (kinds_plain.adder _ _ (not_lasting_list _)) fun _ =>
          kinds_plain.pure ()
      exact hstart _ fun n b hb => by simp at hb
  | append_singleton events event ih =>
      rw [after_append]
      refine kinds_plain.handle config (fun data => ?_) (fun payload n => ?_) event _ ih
      · exact kinds_adder (.inl data.wire_type)
      · exact kinds_adder (.inr (.inr rfl))

end
end CertLedger.StoredPackets
