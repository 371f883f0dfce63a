import CertLedger.CallTraces
import CertLedger.DagAncestors
import CertLedger.DagRuns
import CertLedger.EventRuns

/-!
# The storage calls of the engine

The engine writes to the storage by adding and deleting blocks. No handler guards
these calls, so the first one that fails ends the call of the module. In a storage
that has no blocks of others under state names none of them fails.
-/
namespace CertLedger.StorageCalls
open Std TlvCodec FallibleState CallTraces EventRuns NdnObjects RecordCodec EdgeStateCodec
open OrderedContainers DagEngine DagStates DagEffects DagCover DagAncestors DagRuns

/-! ## Calls that write -/

inductive StorageCall where
  | add (name : Name) (block : Block)
  | delete (name : Name)

def StorageCall.perform : StorageCall → DagM Unit
  | add name block => adder name block
  | delete name => deleter name

/-- An added name is free, a deleted one is not. -/
def StorageCall.Meets : StorageCall → DagModule → Prop
  | add name _, d => d.storage.list[name]? = none
  | delete name, d => d.storage.list[name]?.isSome

/-- Whatever else is done, the blocks stay as they are. -/
def SameBlocks (d d' : DagModule) : Prop := d'.storage.list = d.storage.list

theorem SameBlocks.refl (d : DagModule) : SameBlocks d d := rfl

theorem SameBlocks.trans (d d' d'' : DagModule) (h : SameBlocks d d') (h' : SameBlocks d' d'') :
    SameBlocks d d'' := Eq.trans h' h

abbrev Trace {α : Type} (x : DagM α) (d : DagModule) (log : List (StorageCall × DagModule))
    (r : Except Error α) (d' : DagModule) : Prop :=
  Traces StorageCall.perform SameBlocks x d log r d'

theorem exec_deleter_free (d : DagModule) {n : Name} (h : d.storage.list[n]? = none) :
    ∃ e d', exec (deleter n) d = (.error e, d') := by
  rw [deleter, exec_onStorage]
  rcases exec_backend_any d.storage with hb | hb
  · have hlist : (spend d.storage).list[n]? = none := h
    rw [LedgerMemory.deleteBlock, exec_bind_ok hb, exec_bind_ok (exec_get _), hlist]
    exact ⟨_, _, rfl⟩
  · rw [LedgerMemory.deleteBlock, exec_bind_error hb]
    exact ⟨_, _, rfl⟩

theorem meets_of_ok (call : StorageCall) (d d' : DagModule)
    (h : exec call.perform d = (.ok (), d')) : call.Meets d := by
  cases call with
  | add name block =>
      rcases exec_adder_any d name block with ⟨e, he⟩ | ⟨hfree, -⟩
      · cases he.symm.trans h
      · exact hfree
  | delete name =>
      rw [StorageCall.Meets, Option.isSome_iff_ne_none]
      intro hfree
      obtain ⟨e, t, he⟩ := exec_deleter_free d hfree
      cases he.symm.trans h

/-! ## Every run of the engine has a trace -/

abbrev Logged {α : Type} (x : DagM α) : Prop := Traced StorageCall.perform SameBlocks x

theorem Logged.pure {α : Type} (a : α) : Logged (pure a) :=
  Traced.silent (Respects.pure SameBlocks.refl a)

theorem Logged.get : Logged get := Traced.silent (Respects.get SameBlocks.refl)

theorem Logged.foldlM {α β : Type} {f : β → α → DagM β} (hf : ∀ b a, Logged (f b a))
    (l : List α) (b : β) : Logged (l.foldlM f b) := Traced.foldlM SameBlocks.refl hf l b

theorem logged_adder (name : Name) (block : Block) : Logged (adder name block) :=
  Traced.of_call (StorageCall.add name block)

theorem logged_deleter (name : Name) : Logged (deleter name) :=
  Traced.of_call (StorageCall.delete name)

section
variable [NdnCxx] (config : DagConfig)

theorem logged_getOrConstruct (name : Name) : Logged (getOrConstruct config name) := by
  refine Traced.tryCatch ?_ fun _ => ?_
  · refine Respects.bind SameBlocks.trans (fun d => ?_) fun block => ?_
    · obtain ⟨r, hrun, -⟩ := exec_getter_any d name
      rw [hrun]
      rfl
    · exact fun d => rfl
  · have hmade : Respects SameBlocks (construct config name) := fun d => rfl
    exact Traced.bind (Traced.silent hmade) fun s =>
      Traced.bind (logged_adder s.stateName _) fun _ => Logged.pure s

theorem logged_update (state : EdgeState) : Logged (update state) :=
  Traced.bind (logged_deleter state.stateName) fun _ => logged_adder state.stateName _

theorem logged_visitParent (testSeen : Bool) (state : EdgeState) (search : AncestorSearch)
    (ptr : Name) : Logged (visitParent config testSeen state search ptr) := by
  refine Traced.bind (logged_getOrConstruct config _) fun parent => ?_
  dsimp only
  split
  · exact Traced.bind (logged_update _) fun _ => Logged.pure _
  · split
    · exact Logged.pure _
    · exact Logged.pure _

theorem logged_expandFrontier (state : EdgeState) (search : AncestorSearch) :
    Logged (expandFrontier config state search) := by
  refine Logged.foldlM (fun acc f => ?_) _ _
  refine Traced.bind (logged_getOrConstruct config f) fun s => ?_
  exact Logged.foldlM (fun acc ptr => logged_visitParent config true state acc ptr) _ _

theorem logged_searchRounds (state : EdgeState) (fuel prev : ℕ) (search : AncestorSearch) :
    Logged (searchRounds config state fuel prev search) := by
  induction fuel generalizing prev search with
  | zero =>
      rw [searchRounds]
      split
      · exact Logged.pure _
      · exact Traced.silent (Respects.throw SameBlocks.refl _)
  | succ fuel ih =>
      rw [searchRounds]
      split
      · exact Logged.pure _
      · exact Traced.bind (logged_expandFrontier config state search) fun next => ih _ next

theorem logged_getAncestors (state : EdgeState) : Logged (getAncestors config state) := by
  refine Traced.bind
    (Logged.foldlM (fun acc ptr => logged_visitParent config false state acc ptr) _ _) ?_
  intro search
  refine Traced.bind Logged.get fun dag => ?_
  exact Traced.bind (logged_searchRounds config state _ _ search) fun ancestors => Logged.pure _

omit [NdnCxx] in
theorem logged_evaluateWaitlist (state : EdgeState) : Logged (evaluateWaitlist config state) := by
  unfold evaluateWaitlist
  split
  · exact Logged.pure _
  · exact Traced.silent fun d => rfl

theorem logged_evaluateNonGenesis (state : EdgeState) :
    Logged (evaluateNonGenesis config state) := by
  unfold evaluateNonGenesis
  split
  · refine Traced.bind (logged_getAncestors config state) fun ancestors => ?_
    refine Logged.foldlM (fun _ a => ?_) _ _
    refine Traced.bind (logged_getOrConstruct config a) fun s => ?_
    exact Traced.bind (logged_update _) fun _ => logged_evaluateWaitlist config _
  · exact Logged.pure _

theorem logged_onNewRecord (state : EdgeState) : Logged (onNewRecord config state) := by
  refine Traced.bind (logged_update _) fun _ => ?_
  refine Traced.bind (logged_evaluateWaitlist config _) fun _ => ?_
  refine Traced.bind (logged_evaluateNonGenesis config _) fun _ => ?_
  refine Logged.foldlM (fun _ desc => ?_) _ _
  exact Traced.bind (logged_getOrConstruct config desc) fun s => logged_evaluateNonGenesis config s

theorem logged_add (record : Record) : Logged (add config record) := by
  refine Traced.bind (logged_getOrConstruct config _) fun found => ?_
  dsimp only
  cases found.status with
  | INITIALIZED => exact Traced.bind (logged_onNewRecord config _) fun _ => Logged.pure _
  | LOADED => exact Logged.pure _
  | INTERLOCKED => exact Logged.pure _

theorem logged_harvestAbove (threshold : ℕ) (remove : Bool) :
    Logged (harvestAbove config threshold remove) := by
  refine Traced.bind Logged.get fun dag => ?_
  refine Logged.foldlM (fun ret bucket => ?_) _ _
  unfold harvestBucket
  split
  · refine Traced.bind (Logged.foldlM (fun acc s => ?_) _ _) fun out =>
      Traced.bind (Traced.silent fun d => rfl) fun _ => Logged.pure _
    refine Traced.bind (logged_getOrConstruct config s) fun state => ?_
    split
    · exact Traced.bind (logged_update _) fun _ => Logged.pure _
    · exact Logged.pure _
  · exact Logged.pure _

theorem logged_harvestBelow (threshold : ℕ) : Logged (harvestBelow config threshold) := by
  refine Traced.bind Logged.get fun dag => ?_
  refine Logged.foldlM (fun ret bucket => ?_) _ _
  split
  · refine Logged.foldlM (fun ret s => ?_) _ _
    refine Traced.bind (logged_getOrConstruct config s) fun state => ?_
    split
    · exact Logged.pure _
    · exact Logged.pure _
  · exact Logged.pure _

theorem logged_perform (op : Operation) : Logged (op.perform config) := by
  cases op with
  | add record => exact Traced.bind (logged_add config record) fun _ => Logged.pure _
  | harvestAbove threshold remove =>
      exact Traced.bind (logged_harvestAbove config threshold remove) fun _ => Logged.pure _
  | harvestBelow threshold =>
      exact Traced.bind (logged_harvestBelow config threshold) fun _ => Logged.pure _

end

/-! ## Runs beside other writers -/

section
variable [NdnCxx] {config : DagConfig}

inductive Event where
  | call (op : Operation)
  /-- Others write or delete a block, under a name of no state. -/
  | write (name : Name) (outside : ¬IsStateName name) (block : Option Block)

def writeBlock (d : DagModule) (name : Name) (block : Option Block) : DagModule :=
  { d with storage := { d.storage with list := match block with
      | some block => d.storage.list.insert name block
      | none => d.storage.list.erase name } }

def perform (config : DagConfig) (d : DagModule) : Event → DagModule
  | .call op => (exec (op.perform config) d).2
  | .write name _ block => writeBlock d name block

/-- A run of a new module over a storage that may be in use. -/
def after (config : DagConfig) (list : ExtTreeMap Name Block) (events : List Event) : DagModule :=
  events.foldl (perform config) { storage := { list := list } }

omit [NdnCxx] in
theorem writeBlock_list (d : DagModule) {name n : Name} (block : Option Block) (hn : name ≠ n) :
    (writeBlock d name block).storage.list[n]? = d.storage.list[n]? := by
  unfold writeBlock
  cases block with
  | none => exact (getElem?_erase _ _ _).trans (if_neg hn)
  | some block => exact (getElem?_insert _ _ _ _).trans (if_neg hn)

/-- Among the states the module is one whose storage nobody else has written. -/
def Apart (config : DagConfig) (d : DagModule) : Prop :=
  ∃ F e rs, Hides Outside F d e ∧ Reached config rs False e

theorem Apart.start {list : ExtTreeMap Name Block}
    (h : ∀ n, IsStateName n → list[n]? = none) :
    Apart config { storage := { list := list } } := by
  refine ⟨fun n => list[n]?, {}, [], ?_, reached_empty False⟩
  constructor
  · rfl
  · rfl
  · exact fun n s hs => by simp [stateAt] at hs
  · rfl
  · rfl
  · exact fun n hn => by simp [h n (not_not.mp hn)]
  · exact fun n hn => by simp
  · exact fun n hn => rfl

theorem Apart.write {d : DagModule} (h : Apart config d) {name : Name}
    (hname : ¬IsStateName name) (block : Option Block) : Apart config (writeBlock d name block) := by
  obtain ⟨F, e, rs, hh, hr⟩ := h
  refine ⟨fun n => (writeBlock d name block).storage.list[n]?, e, rs, ?_, hr⟩
  refine ⟨hh.reliable, hh.intact, hh.keyed, hh.waitlist, hh.ticks, ?_, hh.erased, fun _ _ => rfl⟩
  intro n hn
  have hne : name ≠ n := fun he => hname (he ▸ not_not.mp hn)
  rw [writeBlock_list d block hne, hh.shared n hn]

theorem echoes_perform {B : Name → Prop} {F : Name → Option Block} (op : Operation) :
    Echoes B F (op.perform config) := by
  cases op with
  | add r => exact Mirrors.bind (echoes_add r) (fun _ => Mirrors.pure _) fun _ => Stays.pure _
  | harvestAbove t remove =>
      exact Mirrors.bind (echoes_harvestAbove t remove) (fun _ => Mirrors.pure _)
        fun _ => Stays.pure _
  | harvestBelow t =>
      exact Mirrors.bind (echoes_harvestBelow t) (fun _ => Mirrors.pure _) fun _ => Stays.pure _

theorem Apart.exec {d : DagModule} (h : Apart config d) (op : Operation) :
    ∃ d', FallibleState.exec (op.perform config) d = (.ok (), d') ∧ Apart config d' := by
  obtain ⟨F, e, rs, hh, hr⟩ := h
  obtain ⟨e', hrun, hr'⟩ := hr.perform op
  obtain ⟨d', hd', hh'⟩ := exec_of_inside (echoes_perform op) hh hrun hr'.consistent.clean
  exact ⟨d', hd', F, e', _, hh', hr'.consistent, hr'.holds, False.elim⟩

theorem Apart.perform {d : DagModule} (h : Apart config d) (event : Event) :
    Apart config (perform config d event) := by
  cases event with
  | call op =>
      obtain ⟨d', hrun, hd'⟩ := h.exec op
      rw [StorageCalls.perform, hrun]
      exact hd'
  | write name outside block => exact h.write outside block

theorem Apart.tidy {d : DagModule} (h : Apart config d) : Tidy d := by
  obtain ⟨F, e, rs, hh, hr⟩ := h
  exact tidy_of_hides hh hr.consistent.clean

theorem apart_after {list : ExtTreeMap Name Block} (h : ∀ n, IsStateName n → list[n]? = none)
    (events : List Event) : Apart config (after config list events) :=
  foldl_invariant (fun _ event hd => hd.perform event) events (Apart.start h)

/-- Over a storage without blocks under state names, whatever has been called and whatever
others have written elsewhere: the next call succeeds, and in every trace of it all added
names are free and all deleted blocks are there. The block under a state name decodes to a
state of that name. -/
theorem storage_calls_succeed (config : DagConfig) {list : ExtTreeMap Name Block}
    (h : ∀ n, IsStateName n → list[n]? = none) (events : List Event) :
    (∀ op : Operation,
      (∃ log d', Trace (op.perform config) (after config list events) log (.ok ()) d') ∧
      ∀ log r d', Trace (op.perform config) (after config list events) log r d' →
        r = .ok () ∧ ∀ c ∈ log, c.1.Meets c.2) ∧
    ∀ n block, (after config list events).storage.list[n]? = some block → IsStateName n →
      ∃ s, decodeEdgeState block = .ok s ∧ s.stateName = n := by
  have hd : Apart config (after config list events) := apart_after h events
  constructor
  · intro op
    obtain ⟨d', hrun, -⟩ := hd.exec op
    constructor
    · obtain ⟨log, r, t, htrace⟩ := logged_perform config op (after config list events)
      have heq := htrace.exec_eq
      rw [hrun] at heq
      obtain ⟨rfl, rfl⟩ := Prod.mk.inj heq
      exact ⟨log, _, htrace⟩
    · intro log r t htrace
      have heq := htrace.exec_eq
      rw [hrun] at heq
      obtain ⟨rfl, rfl⟩ := Prod.mk.inj heq
      exact ⟨rfl, htrace.good_of_ok meets_of_ok rfl⟩
  · intro n block hb hn
    obtain ⟨s, rfl, hs⟩ := hd.tidy.states n block hb hn
    exact ⟨s.stored, decodeEdgeState_encodeEdgeState s, hs⟩

end

section
open PlainNdn

local instance : NdnCxx := plainNdn []

/-- A storage that already holds a packet. -/
def usedStorage : ExtTreeMap Name Block :=
  (∅ : ExtTreeMap Name Block).insert nameA (packet nameA [1])

theorem nameA_outside : ¬IsStateName nameA := by
  rintro ⟨m, h⟩
  exact absurd (List.cons.inj h).1 (by decide)

theorem usedStorage_free (n : Name) (hn : IsStateName n) : usedStorage[n]? = none := by
  have hne : nameA ≠ n := fun he => nameA_outside (he ▸ hn)
  rw [usedStorage, getElem?_insert, if_neg hne]
  simp

/-- A record of no name that points to itself is added, the packet is deleted, and a
harvest takes the record. -/
def usedEvents : List Event :=
  [.call (.add { pointers := [[], [Name.keyword [65]]] }), .write nameA nameA_outside none,
    .call (.harvestAbove 0 true)]

theorem storage_calls_succeed_used :
    (∀ op : Operation,
      (∃ log d', Trace (op.perform ⟨.descendants, fun i => 1000 * i⟩)
        (after ⟨.descendants, fun i => 1000 * i⟩ usedStorage usedEvents) log (.ok ()) d') ∧
      ∀ log r d', Trace (op.perform ⟨.descendants, fun i => 1000 * i⟩)
        (after ⟨.descendants, fun i => 1000 * i⟩ usedStorage usedEvents) log r d' →
        r = .ok () ∧ ∀ c ∈ log, c.1.Meets c.2) ∧
    ∀ n block, (after ⟨.descendants, fun i => 1000 * i⟩ usedStorage
        usedEvents).storage.list[n]? = some block → IsStateName n →
      ∃ s, decodeEdgeState block = .ok s ∧ s.stateName = n :=
  storage_calls_succeed _ usedStorage_free usedEvents

end

end CertLedger.StorageCalls
