import CertLedger.DagEngine

/-!
# Stored states, and what single storage operations do

A module seen as a total assignment of nodes to names: a name that is not stored
holds the node a read would create. Where the storage is clean and does not fail,
reading leaves the assignment as it is and writing changes it at one name.
-/
namespace CertLedger.DagStates
open Std TlvCodec FallibleState NdnObjects RecordCodec EdgeStateCodec InterlockPolicies
open OrderedContainers DagEngine

/-! ## Storage operations without failures -/

section Reliable
variable {m : LedgerMemory}

theorem exec_backend (h : m.faults = []) : exec LedgerMemory.backend m = (.ok (), m) := by
  simp [LedgerMemory.backend, exec_bind, h]

theorem exec_getBlock (h : m.faults = []) (n : Name) :
    exec (LedgerMemory.getBlock n) m =
      (match m.list[n]? with
        | some block => .ok block
        | none => .error (.doesNotExist n), m) := by
  rw [LedgerMemory.getBlock, exec_bind_ok (exec_backend h), exec_bind_ok (exec_get m)]
  cases m.list[n]? <;> rfl

theorem exec_addBlock_free (h : m.faults = []) {n : Name} (hn : m.list[n]? = none)
    (block : Block) :
    exec (LedgerMemory.addBlock n block) m = (.ok (), { m with list := m.list.insert n block }) := by
  rw [LedgerMemory.addBlock, exec_bind_ok (exec_backend h), exec_bind_ok (exec_get m), hn]
  rfl

theorem exec_addBlock_taken (h : m.faults = []) {n : Name} {b : Block}
    (hn : m.list[n]? = some b) (block : Block) :
    exec (LedgerMemory.addBlock n block) m = (.error (.alreadyExists n), m) := by
  rw [LedgerMemory.addBlock, exec_bind_ok (exec_backend h), exec_bind_ok (exec_get m), hn]
  rfl

theorem exec_deleteBlock (h : m.faults = []) {n : Name} {b : Block}
    (hn : m.list[n]? = some b) :
    exec (LedgerMemory.deleteBlock n) m = (.ok (), { m with list := m.list.erase n }) := by
  rw [LedgerMemory.deleteBlock, exec_bind_ok (exec_backend h), exec_bind_ok (exec_get m), hn]
  rfl

end Reliable

theorem exec_onStorage {α : Type} (x : Program Error LedgerMemory α) (dag : DagModule) :
    exec (onStorage x) dag =
      ((exec x dag.storage).1, { dag with storage := (exec x dag.storage).2 }) := rfl

section
variable {dag : DagModule} {n : Name}

theorem exec_getter (h : dag.storage.faults = []) {b : Block}
    (hb : dag.storage.list[n]? = some b) : exec (getter n) dag = (.ok b, dag) := by
  rw [getter, exec_onStorage, exec_getBlock h, hb]

theorem exec_getter_none (h : dag.storage.faults = []) (hn : dag.storage.list[n]? = none) :
    exec (getter n) dag = (.error (.doesNotExist n), dag) := by
  rw [getter, exec_onStorage, exec_getBlock h, hn]

theorem exec_adder (h : dag.storage.faults = []) (hn : dag.storage.list[n]? = none)
    (block : Block) :
    exec (adder n block) dag = (.ok (), { dag with
      storage := { dag.storage with list := dag.storage.list.insert n block } }) := by
  rw [adder, exec_onStorage, exec_addBlock_free h hn]

end

/-! ## Views -/

/-- A state without its name and its times. -/
@[ext] structure Node where
  status : Status
  record : Record
  descendants : NameSet

namespace Node

def of (s : EdgeState) : Node := ⟨s.status, s.record, s.descendants⟩

/-- The node of a name that nothing is known about. -/
def unknown (n : Name) : Node := ⟨.INITIALIZED, { name := fromStateName n }, ∅⟩

/-- The state names the record points to, in order. -/
def next (v : Node) : List Name := v.record.pointers.map toStateName

/-- Not yet taken by a harvest; such nodes are recorded by a search. -/
def isOpen (v : Node) : Bool := v.status ≠ .INTERLOCKED

/-- Whether a search goes on from the node. -/
def isLoaded (v : Node) : Bool := v.status = .LOADED

theorem isOpen_of_isLoaded {v : Node} (h : v.isLoaded = true) : v.isOpen = true := by
  unfold isLoaded at h
  unfold isOpen
  simp_all

end Node

variable [NdnCxx]

/-- The state stored under a name, if its block decodes. -/
def stateAt (dag : DagModule) (n : Name) : Option EdgeState :=
  dag.storage.list[n]?.bind fun block => (decodeEdgeState block).toOption

def node (dag : DagModule) (n : Name) : Node := (stateAt dag n).elim (Node.unknown n) Node.of

def Stored (dag : DagModule) (n : Name) : Prop := (stateAt dag n).isSome

theorem stateAt_eq_some {dag : DagModule} {n : Name} {s : EdgeState} :
    stateAt dag n = some s ↔
      ∃ block, dag.storage.list[n]? = some block ∧ decodeEdgeState block = .ok s := by
  unfold stateAt
  cases h : dag.storage.list[n]? with
  | none => simp
  | some block => cases hd : decodeEdgeState block <;> simp [hd, Except.toOption]

theorem stateAt_congr {d e : DagModule} {n : Name}
    (h : d.storage.list[n]? = e.storage.list[n]?) : stateAt d n = stateAt e n := by
  unfold stateAt
  rw [h]

theorem node_of_stateAt {dag : DagModule} {n : Name} {s : EdgeState}
    (h : stateAt dag n = some s) : node dag n = Node.of s := by
  rw [node, h]
  rfl

theorem status_of_stateAt {dag : DagModule} {n : Name} {s : EdgeState}
    (h : stateAt dag n = some s) : (node dag n).status = s.status :=
  congrArg Node.status (node_of_stateAt h)

theorem node_of_none {dag : DagModule} {n : Name} (h : stateAt dag n = none) :
    node dag n = Node.unknown n := by
  rw [node, h]
  rfl

theorem stored_of_status {dag : DagModule} {n : Name}
    (h : (node dag n).status ≠ .INITIALIZED) : Stored dag n := by
  unfold Stored
  cases hs : stateAt dag n with
  | none => simp [node, hs, Node.unknown] at h
  | some s => rfl

theorem node_with_waitlist (dag : DagModule) (w : ExtTreeMap ℕ NameSet) (n : Name) :
    node { dag with waitlist := w } n = node dag n := rfl

/-- Writing a state over whatever its name holds. -/
def put (dag : DagModule) (s : EdgeState) : DagModule :=
  { dag with storage :=
    { dag.storage with list := dag.storage.list.insert s.stateName (encodeEdgeState s) } }

@[simp] theorem put_waitlist (dag : DagModule) (s : EdgeState) :
    (put dag s).waitlist = dag.waitlist := rfl

@[simp] theorem put_ticks (dag : DagModule) (s : EdgeState) : (put dag s).ticks = dag.ticks := rfl

theorem put_list (dag : DagModule) (s : EdgeState) (n : Name) :
    (put dag s).storage.list[n]? =
      if s.stateName = n then some (encodeEdgeState s) else dag.storage.list[n]? :=
  getElem?_insert _ _ _ _

theorem stateAt_put (dag : DagModule) (s : EdgeState) (n : Name) :
    stateAt (put dag s) n = if s.stateName = n then some s.stored else stateAt dag n := by
  unfold stateAt
  rw [put_list]
  split_ifs
  · simp [decodeEdgeState_encodeEdgeState, Except.toOption]
  · rfl

theorem node_put (dag : DagModule) (s : EdgeState) (n : Name) :
    node (put dag s) n = if s.stateName = n then Node.of s.stored else node dag n := by
  unfold node
  rw [stateAt_put]
  split_ifs <;> rfl

theorem stored_put (dag : DagModule) (s : EdgeState) (n : Name) :
    Stored (put dag s) n ↔ Stored dag n ∨ s.stateName = n := by
  unfold Stored
  rw [stateAt_put]
  split_ifs with h <;> simp [h]

/-- Deleting and adding again overwrites, provided there is something to delete. -/
theorem exec_update {dag : DagModule} (h : dag.storage.faults = []) {s : EdgeState} {b : Block}
    (hs : dag.storage.list[s.stateName]? = some b) :
    exec (update s) dag = (.ok (), put dag s) := by
  have hdel : exec (deleter s.stateName) dag = (.ok (), { dag with
      storage := { dag.storage with list := dag.storage.list.erase s.stateName } }) := by
    rw [deleter, exec_onStorage, exec_deleteBlock h hs]
  have hfree : (dag.storage.list.erase s.stateName)[s.stateName]? = none := by
    rw [getElem?_erase, if_pos rfl]
  have hadd := exec_addBlock_free
    (m := { dag.storage with list := dag.storage.list.erase s.stateName }) h hfree
    (encodeEdgeState s)
  rw [erase_insert] at hadd
  rw [update, exec_bind_ok hdel, adder, exec_onStorage, hadd]
  rfl

/-! ## Clean storages -/

/-- Names under the header hold encoded states under their own name, and no
other block is a state. -/
structure Clean (dag : DagModule) : Prop where
  reliable : dag.storage.faults = []
  states : ∀ n block, dag.storage.list[n]? = some block → IsStateName n →
    ∃ s, block = encodeEdgeState s ∧ s.stateName = n
  others : ∀ n block s, dag.storage.list[n]? = some block → decodeEdgeState block = .ok s →
    IsStateName n

namespace Clean
variable {dag : DagModule}

theorem empty : Clean {} where
  reliable := rfl
  states n block h := by simp at h
  others n block s h := by simp at h

/-- A stored state has the name it is stored under and is in stored form. -/
theorem state (h : Clean dag) {n : Name} {s : EdgeState} (hs : stateAt dag n = some s) :
    IsStateName n ∧ s.stateName = n ∧ s.stored = s := by
  obtain ⟨block, hb, hd⟩ := stateAt_eq_some.mp hs
  have hn := h.others n block s hb hd
  obtain ⟨t, ht, htn⟩ := h.states n block hb hn
  rw [ht, decodeEdgeState_encodeEdgeState] at hd
  have he : t.stored = s := Except.ok.inj hd
  exact ⟨hn, he ▸ htn, he ▸ stored_stored t⟩

/-- The record of a stored state is named after it. -/
theorem record_name (h : Clean dag) {n : Name} (hs : Stored dag n) :
    toStateName (node dag n).record.name = n := by
  obtain ⟨s, hs⟩ := Option.isSome_iff_exists.mp hs
  obtain ⟨hn, hsn, hst⟩ := h.state hs
  have hrec : s.record.name = fromStateName n := by
    rw [← hsn, ← hst]
    rfl
  rw [node_of_stateAt hs]
  exact (congrArg toStateName hrec).trans hn.toStateName_fromStateName

theorem stateAt_eq_none (h : Clean dag) {n : Name} (hn : IsStateName n) :
    stateAt dag n = none ↔ dag.storage.list[n]? = none := by
  constructor
  · intro hs
    by_contra hne
    obtain ⟨block, hb⟩ := Option.ne_none_iff_exists'.mp hne
    obtain ⟨t, ht, -⟩ := h.states n block hb hn
    have : stateAt dag n = some t.stored :=
      stateAt_eq_some.mpr ⟨block, hb, ht ▸ decodeEdgeState_encodeEdgeState t⟩
    simp [this] at hs
  · intro hb
    simp [stateAt, hb]

theorem put (h : Clean dag) {s : EdgeState} (hs : IsStateName s.stateName) :
    Clean (put dag s) where
  reliable := h.reliable
  states n block hb hn := by
    rw [put_list] at hb
    split_ifs at hb with he
    · exact ⟨s, (Option.some.inj hb).symm, he⟩
    · exact h.states n block hb hn
  others n block t hb hd := by
    rw [put_list] at hb
    split_ifs at hb with he
    · exact he ▸ hs
    · exact h.others n block t hb hd

theorem of_storage {e : DagModule} (h : Clean dag) (he : e.storage = dag.storage) : Clean e where
  reliable := he ▸ h.reliable
  states := he ▸ h.states
  others := he ▸ h.others

end Clean

/-! ## Reading a state -/

section Fetch
variable (config : DagConfig)

/-- The state that is made for a name met for the first time. -/
def fresh (dag : DagModule) (n : Name) : EdgeState :=
  { stateName := n, created := config.clock dag.ticks + 1,
    interlocked := config.clock (dag.ticks + 1) }

def fetch (dag : DagModule) (n : Name) : EdgeState := (stateAt dag n).getD (fresh config dag n)

def settle (dag : DagModule) (n : Name) : DagModule :=
  if (stateAt dag n).isSome then dag
  else put { dag with ticks := dag.ticks + 2 } (fresh config dag n)

/-- Reading the name of a state and writing the state. -/
def write (dag : DagModule) (s : EdgeState) : DagModule := put (settle config dag s.stateName) s

theorem exec_getOrConstruct {dag : DagModule} (h : Clean dag) {n : Name} (hn : IsStateName n) :
    exec (getOrConstruct config n) dag = (.ok (fetch config dag n), settle config dag n) := by
  have hmade : exec (construct config n) dag =
      (.ok (fresh config dag n), { dag with ticks := dag.ticks + 2 }) := rfl
  cases hb : dag.storage.list[n]? with
  | some block =>
      obtain ⟨t, ht, htn⟩ := h.states n block hb hn
      have hs : stateAt dag n = some t.stored :=
        stateAt_eq_some.mpr ⟨block, hb, ht ▸ decodeEdgeState_encodeEdgeState t⟩
      refine (exec_tryCatch_ok (a := t.stored) (t := dag) ?_).trans ?_
      · rw [exec_bind_ok (exec_getter h.reliable hb), exec_lift, ht,
          decodeEdgeState_encodeEdgeState]
      · simp [fetch, settle, hs]
  | none =>
      have hs : stateAt dag n = none := (h.stateAt_eq_none hn).mpr hb
      refine (exec_tryCatch_error (exec_bind_error (exec_getter_none h.reliable hb))).trans ?_
      rw [exec_bind_ok hmade, exec_bind, adder, exec_onStorage,
        exec_addBlock_free h.reliable (by exact hb)]
      simp [fetch, settle, hs, put]

variable {config}

theorem settle_of_stored {dag : DagModule} {n : Name} (h : Stored dag n) :
    settle config dag n = dag := if_pos h

@[simp] theorem settle_waitlist (dag : DagModule) (n : Name) :
    (settle config dag n).waitlist = dag.waitlist := by
  unfold settle
  split_ifs <;> rfl

theorem Clean.settle {dag : DagModule} (h : Clean dag) {n : Name} (hn : IsStateName n) :
    Clean (settle config dag n) := by
  unfold DagStates.settle
  split_ifs
  · exact h
  · have h' : Clean { dag with ticks := dag.ticks + 2 } := h.of_storage rfl
    exact h'.put hn

theorem node_settle (dag : DagModule) (n m : Name) :
    node (settle config dag n) m = node dag m := by
  unfold settle
  split_ifs with hs
  · rfl
  · rw [node_put]
    split_ifs with he
    · have hnone : stateAt dag n = none := by simpa using hs
      obtain rfl : n = m := he
      exact (node_of_none hnone).symm
    · rfl

theorem stored_settle (dag : DagModule) (n m : Name) :
    Stored (settle config dag n) m ↔ Stored dag m ∨ n = m := by
  unfold settle
  split_ifs with hs
  · refine ⟨Or.inl, ?_⟩
    intro hm
    rcases hm with hm | rfl
    · exact hm
    · exact hs
  · exact stored_put _ _ _

/-- Only the block of the name read can be new. -/
theorem settle_list (dag : DagModule) {n m : Name} (hm : n ≠ m) :
    (settle config dag n).storage.list[m]? = dag.storage.list[m]? := by
  unfold settle
  split_ifs
  · rfl
  · exact (put_list _ _ _).trans (if_neg hm)

/-! ## Writing a state that has been read -/

/-- A read: the state returned, and what an update of that name does after it. -/
theorem exec_read (config : DagConfig) {dag : DagModule} (h : Clean dag) {n : Name} (hn : IsStateName n) :
    ∃ s mid, exec (getOrConstruct config n) dag = (.ok s, mid) ∧ s.stateName = n ∧
      Node.of s.stored = node dag n ∧ (Stored dag n → mid = dag ∧ Node.of s = node dag n) ∧
      ∀ t : EdgeState, t.stateName = n → exec (update t) mid = (.ok (), write config dag t) := by
  refine ⟨_, _, exec_getOrConstruct config h hn, ?_, ?_, ?_, ?_⟩
  · unfold fetch
    cases hs : stateAt dag n with
    | none => rfl
    | some s => exact (h.state hs).2.1
  · unfold fetch node
    cases hs : stateAt dag n with
    | none => rfl
    | some s => exact congrArg Node.of (h.state hs).2.2
  · intro hst
    obtain ⟨s, hs⟩ := Option.isSome_iff_exists.mp hst
    exact ⟨settle_of_stored hst, by simp [fetch, node, hs]⟩
  · intro t ht
    subst ht
    have hst : Stored (settle config dag t.stateName) t.stateName :=
      (stored_settle dag _ _).mpr (.inr rfl)
    obtain ⟨s, hs⟩ := Option.isSome_iff_exists.mp hst
    obtain ⟨block, hb, -⟩ := stateAt_eq_some.mp hs
    exact exec_update (h.settle hn).reliable hb

theorem Clean.write {dag : DagModule} (h : Clean dag) {s : EdgeState}
    (hs : IsStateName s.stateName) : Clean (write config dag s) := (h.settle hs).put hs

@[simp] theorem write_waitlist (dag : DagModule) (s : EdgeState) :
    (write config dag s).waitlist = dag.waitlist := settle_waitlist dag _

theorem node_write (dag : DagModule) (s : EdgeState) (m : Name) :
    node (write config dag s) m = if s.stateName = m then Node.of s.stored else node dag m := by
  rw [write, node_put, node_settle]

theorem stored_write (dag : DagModule) (s : EdgeState) (m : Name) :
    Stored (write config dag s) m ↔ Stored dag m ∨ s.stateName = m := by
  rw [write, stored_put, stored_settle, or_assoc, or_self]

theorem write_list (dag : DagModule) {s : EdgeState} {m : Name} (hm : s.stateName ≠ m) :
    (write config dag s).storage.list[m]? = dag.storage.list[m]? := by
  rw [write, put_list, if_neg hm, settle_list _ hm]

end Fetch

end CertLedger.DagStates
