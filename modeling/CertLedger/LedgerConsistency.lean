import CertLedger.DagSafety
import CertLedger.LedgerEffects
import CertLedger.PlainNdn

/-!
# The ledger keeps its graph consistent

As long as no Data is named like a state, no handler disturbs the agreement of
states and waitlist or loses the tracker, whether it returns or throws.
-/
namespace CertLedger.LedgerConsistency
open Std TlvCodec FallibleState NdnObjects RecordCodec EdgeStateCodec LedgerIndexCodec
open EdgeStateList PayloadMap OrderedContainers DagEngine DagStates DagHarvest DagEffects
open DagRefinement DagSafety LedgerHandlers LedgerEffects PlainNdn

theorem trackerName_not_state : ¬IsStateName trackerName := by decide

/-! ## Single operations without failures -/

def withTracker (d : DagModule) (l : EdgeStateList) : DagModule :=
  { d with storage := ⟨d.storage.list.insert trackerName (encodeEdgeStateList l),
    d.storage.faults⟩ }

theorem withTracker_list (d : DagModule) (l : EdgeStateList) {n : Name} (h : n ≠ trackerName) :
    (withTracker d l).storage.list[n]? = d.storage.list[n]? :=
  (getElem?_insert _ _ _ _).trans (if_neg fun he => h he.symm)

theorem withTracker_self (d : DagModule) (l : EdgeStateList) :
    (withTracker d l).storage.list[trackerName]? = some (encodeEdgeStateList l) :=
  (getElem?_insert _ _ _ _).trans (if_pos rfl)

section
variable {d : DagModule}

theorem exec_replace (hr : d.storage.faults = []) {n : Name} {b : Block}
    (hb : d.storage.list[n]? = some b) (block : Block) :
    exec (do deleter n; adder n block) d =
      (.ok (), { d with storage := ⟨d.storage.list.insert n block, d.storage.faults⟩ }) := by
  have hdel : exec (deleter n) d =
      (.ok (), { d with storage := ⟨d.storage.list.erase n, d.storage.faults⟩ }) := by
    rw [deleter, exec_onStorage, exec_deleteBlock hr hb]
  have hfree : (d.storage.list.erase n)[n]? = none := (getElem?_erase _ _ _).trans (if_pos rfl)
  have hadd : exec (adder n block)
      { d with storage := ⟨d.storage.list.erase n, d.storage.faults⟩ } = _ :=
    exec_adder (by exact hr) hfree block
  rw [erase_insert] at hadd
  exact (exec_bind_ok hdel).trans hadd

theorem exec_storeTracker (hr : d.storage.faults = []) {b : Block}
    (hb : d.storage.list[trackerName]? = some b) (l : EdgeStateList) :
    exec (storeTracker l) d = (.ok (), withTracker d l) := exec_replace hr hb _

theorem exec_readTracker {l : EdgeStateList} (hr : d.storage.faults = [])
    (hl : d.storage.list[trackerName]? = some (encodeEdgeStateList l)) {α : Type}
    (k : EdgeStateList → DagM α) :
    exec (do
      let trackerBlock ← getter trackerName
      let statesTracker ← lift (decodeEdgeStateList trackerBlock)
      k statesTracker) d = exec (k l) d := by
  rw [exec_bind_ok (exec_getter hr hl), decodeEdgeStateList_encodeEdgeStateList,
    exec_bind_ok (exec_lift _ _)]

end

theorem start_eq : (start []).toDagModule = withTracker {}
    { listName := trackerName, key := globalTracker, nextList := getStateListNull } := by
  have hadd : exec (adder trackerName (encodeEdgeStateList
      { listName := trackerName, key := globalTracker, nextList := getStateListNull })) {} = _ :=
    exec_adder rfl (by rfl) _
  rw [start, initializeTracker, exec_tryCatch, hadd]
  rfl

section
variable [NdnCxx]

theorem toMapName_not_state (payload : Buffer) : ¬IsStateName (toMapName payload) := by
  rintro ⟨m, hm⟩
  have := congrArg List.head? hm
  revert this
  simp [toMapName, mapNameHeader, toStateName, stateNameHeader, Name.appendParametersSha256Digest,
    Name.keyword]

/-! ## The tracker and the stamps -/

def stamped (config : DagConfig) (d : DagModule) (s : EdgeState) : DagModule :=
  put { d with ticks := d.ticks + 1 } { s with interlocked := config.clock d.ticks }

section
variable {d : DagModule}

theorem exec_stampState (config : LedgerConfig) (hc : Legible d) {n : Name} {s : EdgeState}
    (hs : stateAt d n = some s) :
    exec (stampState config n) d = (.ok (), stamped config.toDagConfig d s) := by
  obtain ⟨b, hb, hd⟩ := stateAt_eq_some.mp hs
  have hname : s.stateName = n := (hc.state hs).2.1
  have hnow : exec (now config.toDagConfig) d =
    (.ok (config.clock d.ticks), { d with ticks := d.ticks + 1 }) := rfl
  have hreplace := exec_replace (d := { d with ticks := d.ticks + 1 }) hc.reliable hb
    (encodeEdgeState { s with interlocked := config.clock d.ticks })
  subst hname
  rw [stampState, exec_bind_ok (exec_getter hc.reliable hb), hd, exec_bind_ok (exec_lift _ _),
    exec_bind_ok hnow, hreplace]
  rfl

theorem exec_stampState_none (config : LedgerConfig) (hr : d.storage.faults = []) {n : Name}
    (hs : stateAt d n = none) : ∃ e, exec (stampState config n) d = (.error e, d) := by
  cases hb : d.storage.list[n]? with
  | none =>
      exact ⟨_, exec_bind_error (exec_getter_none hr hb)⟩
  | some b =>
      rw [stampState, exec_bind_ok (exec_getter hr hb)]
      cases hd : decodeEdgeState b with
      | error e => exact ⟨e, exec_bind_error (exec_lift _ _)⟩
      | ok s =>
          have := stateAt_eq_some.mpr ⟨b, hb, hd⟩
          simp [hs] at this

/-! ### The three updates of the tracker -/

variable {l : EdgeStateList}

theorem exec_updateStatesTracker_new (config : LedgerConfig) (hr : d.storage.faults = [])
    (hl : d.storage.list[trackerName]? = some (encodeEdgeStateList l)) {n : Name}
    (hn : n ∉ l.value) (interlocked : Bool) :
    exec (updateStatesTracker config n interlocked) d =
      (.ok (), withTracker d { l with value := l.value.insert n }) := by
  refine (exec_readTracker hr hl _).trans ?_
  rw [if_pos hn]
  exact exec_storeTracker hr hl _

theorem exec_updateStatesTracker_old (config : LedgerConfig) (hr : d.storage.faults = [])
    (hl : d.storage.list[trackerName]? = some (encodeEdgeStateList l)) {n : Name}
    (hn : n ∈ l.value) : exec (updateStatesTracker config n false) d = (.ok (), d) := by
  refine (exec_readTracker hr hl _).trans ?_
  rw [if_neg (not_not_intro hn)]
  rfl

theorem exec_updateStatesTracker_stamp (config : LedgerConfig) (hc : Legible d)
    (hl : d.storage.list[trackerName]? = some (encodeEdgeStateList l)) {n : Name}
    (hn : n ∈ l.value) {s : EdgeState} (hs : stateAt d n = some s) :
    exec (updateStatesTracker config n true) d =
      (.ok (), withTracker (stamped config.toDagConfig d s) l) := by
  refine (exec_readTracker hc.reliable hl _).trans ?_
  rw [if_neg (not_not_intro hn), if_pos rfl, exec_bind_ok (exec_stampState config hc hs)]
  have hne : s.stateName ≠ trackerName := fun he =>
    trackerName_not_state (he ▸ (hc.state hs).2.1 ▸ (hc.state hs).1)
  refine exec_storeTracker (d := stamped config.toDagConfig d s) hc.reliable
    (b := encodeEdgeStateList l) ?_ l
  exact (put_list _ _ _).trans ((if_neg hne).trans hl)

end

/-! ## The invariant -/

/-- The graph is consistent and there is a tracker. -/
structure Sane (config : DagConfig) (d : DagModule) : Prop where
  consistent : Consistent config d
  tracker : ∃ l, d.storage.list[trackerName]? = some (encodeEdgeStateList l)

theorem stateAt_withTracker {d : DagModule} (hc : Legible d) (l : EdgeStateList) (n : Name) :
    stateAt (withTracker d l) n = stateAt d n := by
  by_cases hn : n = trackerName
  · have hnone : ∀ e : DagModule, (∀ s, stateAt e n ≠ some s) → stateAt e n = none := by
      intro e he
      exact Option.eq_none_iff_forall_ne_some.mpr he
    rw [hnone (withTracker d l), hnone d]
    · exact fun s hs => trackerName_not_state (hn ▸ (hc.state hs).1)
    · intro s hs
      obtain ⟨b, hb, hd⟩ := stateAt_eq_some.mp hs
      rw [hn, withTracker_self] at hb
      obtain rfl := Option.some.inj hb
      exact absurd (decodeEdgeState_type hd) (by decide : TLV_EDGE_STATE_LIST_TYPE ≠ _)
  · exact stateAt_congr (withTracker_list d l hn)

theorem stateAt_stamped {config : DagConfig} {d : DagModule} (hc : Legible d) {n : Name}
    {s : EdgeState} (hs : stateAt d n = some s) (m : Name) :
    stateAt (stamped config d s) m =
      if n = m then some { s with interlocked := isoTime (config.clock d.ticks) }
      else stateAt d m := by
  obtain ⟨-, hname, hst⟩ := hc.state hs
  subst hname
  rw [stamped, stateAt_put]
  have hnew : ({ s with interlocked := config.clock d.ticks } : EdgeState).stored =
      { s with interlocked := isoTime (config.clock d.ticks) } :=
    congrArg (fun t : EdgeState => { t with interlocked := isoTime (config.clock d.ticks) }) hst
  split_ifs
  · rw [hnew]
  · rfl

section
variable {config : DagConfig} {d d' : DagModule}

theorem consistent_withTracker (h : Consistent config d) (l : EdgeStateList) :
    Consistent config (withTracker d l) := by
  have hstate := stateAt_withTracker (.of_clean h.clean) l
  refine h.congr ⟨h.clean.reliable, ?_, ?_⟩ (fun n => by rw [node, hstate]; rfl)
    (fun n => by rw [Stored, hstate]; rfl) fun _ _ => Iff.rfl
  · intro n block hb hn
    rw [withTracker_list d l fun he => trackerName_not_state (he ▸ hn)] at hb
    exact h.clean.states n block hb hn
  · intro n block s hb hd
    exact (h.clean.state ((hstate n).symm.trans (stateAt_eq_some.mpr ⟨block, hb, hd⟩))).1

theorem Sane.withTracker (h : Sane config d) (l : EdgeStateList) : Sane config (withTracker d l) :=
  ⟨consistent_withTracker h.consistent l, l, withTracker_self d l⟩

theorem node_stamped (hc : Legible d) {n : Name} {s : EdgeState} (hs : stateAt d n = some s)
    (m : Name) : node (stamped config d s) m = node d m := by
  rw [node, stateAt_stamped hc hs, node]
  split_ifs with hm
  · rw [← hm, hs]
    rfl
  · rfl

theorem Sane.stamped (h : Sane config d) {n : Name} {s : EdgeState} (hs : stateAt d n = some s) :
    Sane config (stamped config d s) := by
  have hc := h.consistent.clean
  obtain ⟨hn, hname, -⟩ := hc.state hs
  have hclean : Clean { d with ticks := d.ticks + 1 } := hc.of_storage rfl
  obtain ⟨l, hl⟩ := h.tracker
  refine ⟨h.consistent.congr (hclean.put (by rw [hname]; exact hn)) (node_stamped (.of_clean hc) hs) ?_
    fun _ _ => Iff.rfl, l, ?_⟩
  · intro m
    rw [Stored, stateAt_stamped (.of_clean hc) hs, Stored]
    split_ifs with hm
    · rw [← hm, hs]
      exact Iff.rfl
    · rfl
  · refine (put_list _ _ _).trans ((if_neg ?_).trans hl)
    exact fun he => trackerName_not_state (he ▸ hname ▸ hn)

theorem Sane.of_stores {P : Name → Block → Prop} (h : Sane config d) (hs : Stores P d d')
    (hP : ∀ n b, P n b → ¬IsStateName n ∧ b.type ≠ TLV_EDGE_STATE_TYPE) : Sane config d' := by
  have hc := h.consistent.clean
  have hstate := hs.stateAt fun n b hb => (hP n b hb).2
  obtain ⟨l, hl⟩ := h.tracker
  refine ⟨h.consistent.congr ⟨hs.reliable hc.reliable, ?_, ?_⟩ (fun n => by rw [node, hstate]; rfl)
    (fun n => by rw [Stored, hstate]; rfl) hs.bucket, l, hs.kept hl⟩
  · intro n block hb hn
    rcases hs.blocks n with he | ⟨-, c, hc', hPc⟩
    · exact hc.states n block (he ▸ hb) hn
    · exact ((hP n c hPc).1 hn).elim
  · intro n block s hb hd
    exact (hc.state ((hstate n).symm.trans (stateAt_eq_some.mpr ⟨block, hb, hd⟩))).1

/-- An operation of the graph engine. -/
theorem Sane.of_others (h : Sane config d) (hc : Consistent config d')
    (ho : ∀ n : Name, ¬IsStateName n → d'.storage.list[n]? = d.storage.list[n]?) :
    Sane config d' := by
  obtain ⟨l, hl⟩ := h.tracker
  exact ⟨hc, l, (ho _ trackerName_not_state).trans hl⟩

end

/-! ## The programs of the ledger keep it -/

section
variable (config : LedgerConfig)

def Saves (config : LedgerConfig) (d d' : DagModule) : Prop :=
  Sane config.toDagConfig d → Sane config.toDagConfig d'

theorem saves_refl (d : DagModule) : Saves config d d := id

theorem saves_trans (d d' d'' : DagModule) (h : Saves config d d') (h' : Saves config d' d'') :
    Saves config d d'' := fun hs => h' (h hs)

theorem saves_of_stores {α : Type} {P : Name → Block → Prop} {x : DagM α}
    (h : Respects (Stores P) x)
    (hP : ∀ n b, P n b → ¬IsStateName n ∧ b.type ≠ TLV_EDGE_STATE_TYPE) :
    Respects (Saves config) x := fun d hd => hd.of_stores (h d) hP

theorem packetOf_outside {S : Data → Prop} (hS : ∀ p, S p → ¬IsStateName p.name) (n : Name)
    (b : Block) (h : PacketOf S n b) : ¬IsStateName n ∧ b.type ≠ TLV_EDGE_STATE_TYPE := by
  obtain ⟨p, hp, rfl, rfl⟩ := h
  exact ⟨hS p hp, PacketOf.foreign p.name p.wire ⟨p, hp, rfl, rfl⟩⟩

theorem mapBlock_outside {payload : Buffer} (n : Name) (b : Block)
    (h : n = toMapName payload ∧ b.type = TLV_PAYLOAD_MAP_TYPE) :
    ¬IsStateName n ∧ b.type ≠ TLV_EDGE_STATE_TYPE := by
  obtain ⟨rfl, hb⟩ := h
  exact ⟨toMapName_not_state payload, by rw [hb]; decide⟩

theorem saves_add (record : Record) : Respects (Saves config) (add config.toDagConfig record) := by
  intro d h
  by_cases hs : (node d (toStateName record.name)).status = .INITIALIZED
  · obtain ⟨d', hrun, hc, ha⟩ := h.consistent.add_new hs
    rw [hrun]
    exact h.of_others hc ha.others
  · rw [h.consistent.add_old hs]
    exact h

theorem saves_harvestAbove (t : ℕ) (remove : Bool) :
    Respects (Saves config) (harvestAbove config.toDagConfig t remove) := by
  intro d h
  obtain ⟨d', hrun, hc, hh⟩ := h.consistent.harvestAbove t remove
  rw [hrun]
  exact h.of_others hc hh.others

theorem saves_harvestBelow (t : ℕ) :
    Respects (Saves config) (harvestBelow config.toDagConfig t) := by
  intro d h
  rw [h.consistent.harvestBelow t]
  exact h

theorem saves_getWaitList : Respects (Saves config) (getWaitList 0) := by
  intro d h
  obtain ⟨names, w, hrun, -, hw⟩ := exec_getWaitList d 0
  rw [hrun]
  have hstores : Stores (fun _ _ => False) d { d with waitlist := w } :=
    ⟨fun _ => .inl rfl, hw, rfl, id⟩
  exact h.of_stores hstores fun _ _ hf => hf.elim

theorem saves_updateStatesTracker (n : Name) (interlocked : Bool) :
    Respects (Saves config) (updateStatesTracker config n interlocked) := by
  intro d h
  have hc := h.consistent.clean
  obtain ⟨l, hl⟩ := h.tracker
  by_cases hn : n ∈ l.value
  · cases interlocked with
    | false =>
        rw [exec_updateStatesTracker_old config hc.reliable hl hn]
        exact h
    | true =>
        cases hs : stateAt d n with
        | some s =>
            rw [exec_updateStatesTracker_stamp config (.of_clean hc) hl hn hs]
            exact (h.stamped hs).withTracker l
        | none =>
            obtain ⟨e, he⟩ := exec_stampState_none config hc.reliable hs
            have hrun : exec (updateStatesTracker config n true) d = (.error e, d) := by
              refine (exec_readTracker hc.reliable hl _).trans ?_
              rw [if_neg (not_not_intro hn), if_pos rfl]
              exact exec_bind_error he
            rw [hrun]
            exact h
  · rw [exec_updateStatesTracker_new config hc.reliable hl hn]
    exact h.withTracker _

theorem saves_insert {data : Data} (h : ¬IsStateName data.name) :
    Respects (Saves config) (LedgerHandlers.insert data) :=
  saves_of_stores config (stores_insert (S := (· = data)) rfl)
    (packetOf_outside fun _ hp => hp ▸ h)

theorem saves_addPayloadMap (payload : Buffer) (mapTo : Name) :
    Respects (Saves config) (addPayloadMap payload mapTo) :=
  saves_of_stores config (stores_addPayloadMap payload mapTo) mapBlock_outside

/-- The Data a payload begins with. -/
def payloadData (payload : Buffer) : Except Error Data := do
  let (dataBlock, _) ← parsed (readBlock payload)
  Data.ofBlock dataBlock

/-- Storing the Data of a payload, and what depends on it. -/
def storeData (payload : Buffer) (stateName : Name) (data : Data) : DagM Bool := do
  let isNew ← insertNew data
  if isNew then do
    tryCatch (addPayloadMap payload stateName) fun _ => pure ()
    return true
  else return false

theorem exec_storePayload {payload : Buffer} {data : Data} (h : payloadData payload = .ok data)
    (n : Name) (d : DagModule) :
    exec (storePayload payload n) d = exec (storeData payload n data) d := by
  unfold payloadData at h
  unfold storePayload
  cases hb : readBlock payload with
  | none => simp [hb, parsed, bind, Except.bind] at h
  | some b =>
      obtain ⟨block, rest⟩ := b
      simp only [hb, parsed_some, bind, Except.bind] at h
      rw [parsed_some, exec_bind_ok (exec_lift _ d)]
      dsimp only
      rw [h]
      exact exec_bind_ok (exec_lift _ d)

theorem exec_storePayload_error {payload : Buffer} {e : Error} (h : payloadData payload = .error e)
    (n : Name) (d : DagModule) : exec (storePayload payload n) d = (.error e, d) := by
  unfold payloadData at h
  unfold storePayload
  cases hb : readBlock payload with
  | none =>
      simp only [hb, parsed, bind, Except.bind] at h
      cases h
      exact exec_bind_error (exec_lift _ d)
  | some b =>
      obtain ⟨block, rest⟩ := b
      simp only [hb, parsed_some, bind, Except.bind] at h
      rw [parsed_some, exec_bind_ok (exec_lift _ d)]
      dsimp only
      rw [h]
      exact exec_bind_error (exec_lift _ d)

theorem saves_lawful :
    Lawful config (fun data => ¬IsStateName data.name) (onLedger (Saves config)) where
  refl := onLedger_refl (saves_refl config)
  trans := onLedger_trans (saves_trans config)
  number s _ := onLedger_refl (saves_refl config) s
  add record := (saves_add config record).mono fun _ _ => onGraph_onLedger
  tips := (saves_getWaitList config).mono fun _ _ => onGraph_onLedger
  insert _ h := (saves_insert config h).mono fun _ _ => onGraph_onLedger
  map payload n := (saves_addPayloadMap config payload n).mono fun _ _ => onGraph_onLedger
  track n := (saves_updateStatesTracker config n false).mono fun _ _ => onGraph_onLedger
  harvest := respects_dagHarvest (saves_refl config) (saves_trans config)
    (saves_harvestAbove config _ _) fun n => saves_updateStatesTracker config n true

/-- The payload of a synced record, when its Data has an allowed name. -/
theorem beside_storePayload {S : Data → Prop} {R : LedgerModule → LedgerModule → Prop}
    (h : Beside config S R) {payload : Buffer}
    (hpay : ∀ data, payloadData payload = .ok data → S data) (n : Name) :
    Respects (onGraph R) (storePayload payload n) := by
  intro d
  cases hd : payloadData payload with
  | error e =>
      rw [exec_storePayload_error hd]
      exact h.graph_refl d
  | ok data =>
      rw [exec_storePayload hd]
      exact h.storeData (hpay data hd) payload n d

/-! ## Runs in which no Data is named like a state -/

def Outside (config : LedgerConfig) : Event → Prop
  | .submission data _ pub =>
      ¬IsStateName data.name ∧ ∀ p, Publication.Packet config pub p → ¬IsStateName p.name
  | .sync record => record.type ≠ REPLY_RECORD →
      ∀ data, payloadData record.payload = .ok data → ¬IsStateName data.name
  | .reply pub => ∀ p, Publication.Packet config pub p → ¬IsStateName p.name

theorem saves_handle {event : Event} (hout : Outside config event) :
    Respects (onLedger (Saves config)) (event.handle config) := by
  have h := saves_lawful config
  cases event with
  | submission data verdict pub =>
      exact Respects.bind h.trans (h.onDataSubmission hout.1 hout.2 verdict) fun _ =>
        Respects.pure h.refl _
  | sync record =>
      exact h.yieldRecord fun htype n => beside_storePayload config h.toBeside (hout htype) n
  | reply pub => exact respects_publishReply h hout (saves_harvestBelow config _)

theorem sane_start : Sane config.toDagConfig (start []).toDagModule := by
  rw [start_eq]
  exact ⟨consistent_withTracker Consistent.empty _, _, withTracker_self _ _⟩

theorem after_sane (events : List Event) (h : ∀ event ∈ events, Outside config event) :
    Sane config.toDagConfig (after config [] events).toDagModule := by
  induction events using List.reverseRecOn with
  | nil => exact sane_start config
  | append_singleton events event ih =>
      rw [after_append]
      exact saves_handle config (h event (by simp)) _ (ih fun e he => h e (by simp [he]))

/-- What the internal namespace holds in every run, and that no record name is closed to the
graph engine. -/
theorem states_intact (events : List Event) (h : ∀ event ∈ events, Outside config event) :
    (∀ n block, (after config [] events).storage.list[n]? = some block → IsStateName n →
      ∃ s, decodeEdgeState block = .ok s ∧ s.stateName = n) ∧
    ∀ r : Name, ∃ s d, exec (getOrConstruct config.toDagConfig (toStateName r))
      (after config [] events).toDagModule = (.ok s, d) := by
  have hc := (after_sane config events h).consistent.clean
  constructor
  · intro n block hb hn
    obtain ⟨s, rfl, hs⟩ := hc.states n block hb hn
    exact ⟨s.stored, decodeEdgeState_encodeEdgeState s, hs⟩
  · intro r
    exact ⟨_, _, exec_getOrConstruct config.toDagConfig hc (isStateName_toStateName r)⟩

end

end

section

local instance : NdnCxx := plainNdn packetDigests

theorem publication_head (seqNo : Option UInt64) (p : Data)
    (h : Publication.Packet ledger (publication seqNo) p) :
    p.name.head? = some (Name.generic [76]) := by
  obtain ⟨n, content, hp⟩ := h
  rw [List.mem_singleton.mp hp]
  rfl

theorem publication_outside (seqNo : Option UInt64) (p : Data)
    (h : Publication.Packet ledger (publication seqNo) p) : ¬IsStateName p.name := by
  rintro ⟨m, hm⟩
  have hhead := publication_head seqNo p h
  rw [hm] at hhead
  exact absurd (Option.some.inj hhead) (by decide)

/-- A submission, a synced record with the same Data, and a reply that is not published. -/
def duplicatedA : List Event :=
  [.submission (packetData nameA [1]) true (publication (some 1)),
    .sync { name := nameA, payload := (packet nameA [1]).wire }, .reply (publication none)]

theorem states_intact_duplicatedA :
    (∀ n block, (after ledger [] duplicatedA).storage.list[n]? = some block → IsStateName n →
      ∃ s, decodeEdgeState block = .ok s ∧ s.stateName = n) ∧
    ∀ r : Name, ∃ s d, exec (getOrConstruct ledger.toDagConfig (toStateName r))
      (after ledger [] duplicatedA).toDagModule = (.ok s, d) := by
  refine states_intact ledger duplicatedA ?_
  intro event he
  simp only [duplicatedA, List.mem_cons, List.not_mem_nil, or_false] at he
  rcases he with rfl | rfl | rfl
  · exact ⟨by decide, publication_outside _⟩
  · intro _ data hd
    have hname : (payloadData (packet nameA [1]).wire).toOption.map (·.name) = some nameA := by
      decide +kernel
    have hdata : some data.name = some nameA := by
      rw [← hname, hd]
      rfl
    rw [Option.some.inj hdata]
    decide
  · exact publication_outside _

/-- A peer's payload Data takes the name of a state before the state exists. -/
theorem states_not_intact :
    (¬ ∀ (config : LedgerConfig) (events : List Event) (n : Name) (block : Block),
      (after config [] events).storage.list[n]? = some block → IsStateName n →
        ∃ s, decodeEdgeState block = .ok s ∧ s.stateName = n) ∧
    ¬ ∀ (config : LedgerConfig) (events : List Event) (r : Name),
      ∃ s d, exec (getOrConstruct config.toDagConfig (toStateName r))
        (after config [] events).toDagModule = (.ok s, d) := by
  constructor
  · intro h
    obtain ⟨s, hs, -⟩ := h ledger [.sync { name := nameA, payload := (packet stateNameB [1]).wire }]
      stateNameB (packet stateNameB [1]) (by decide +kernel) (by decide)
    have hfail : (decodeEdgeState (packet stateNameB [1])).isOk = false := by decide +kernel
    rw [hs] at hfail
    cases hfail
  · intro h
    obtain ⟨s, d, hrun⟩ := h ledger
      [.sync { name := nameA, payload := (packet stateNameB [1]).wire }] (fromStateName stateNameB)
    have hfail : (exec (getOrConstruct ledger.toDagConfig (toStateName (fromStateName stateNameB)))
      (after ledger [] [.sync { name := nameA, payload := (packet stateNameB [1]).wire
        }]).toDagModule).1.isOk = false := by decide +kernel
    rw [hrun] at hfail
    cases hfail

end

end CertLedger.LedgerConsistency
