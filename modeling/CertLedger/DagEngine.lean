import CertLedger.FallibleState
import Mathlib.Algebra.GroupWithZero.Nat
import CertLedger.LedgerIndexCodec
import CertLedger.InterlockPolicies

/-!
# The graph engine over the block storage

Every edge state is read from the storage, decoded into a copy, changed and
written back by deleting its block and adding a new one. The waitlist is kept in
memory: for every policy value the names of the states with that value. Storage
operations may also fail on their own; `faults` says which of the next ones do.
-/
namespace CertLedger.DagEngine
open Std TlvCodec FallibleState NdnObjects RecordCodec EdgeStateCodec InterlockPolicies

/-! ## Storage -/

structure LedgerMemory where
  list : ExtTreeMap Name Block := ∅
  /-- whether the next operations of the backend fail; none do after the list ends -/
  faults : List Bool := []

namespace LedgerMemory

/-- The backend's own failure, before it has any effect. -/
def backend : Program Error LedgerMemory Unit := do
  let memory ← get
  match memory.faults with
  | [] => pure ()
  | fails :: faults =>
      set { memory with faults := faults }
      if fails then throw .storage

def addBlock (name : Name) (block : Block) : Program Error LedgerMemory Unit := do
  backend
  let memory ← get
  match memory.list[name]? with
  | some _ => throw (.alreadyExists name)
  | none => set { memory with list := memory.list.insert name block }

def getBlock (name : Name) : Program Error LedgerMemory Block := do
  backend
  let memory ← get
  match memory.list[name]? with
  | some block => return block
  | none => throw (.doesNotExist name)

def deleteBlock (name : Name) : Program Error LedgerMemory Unit := do
  backend
  let memory ← get
  match memory.list[name]? with
  | some _ => set { memory with list := memory.list.erase name }
  | none => throw (.doesNotExist name)

end LedgerMemory

/-! ## The module -/

structure DagConfig where
  policy : InterlockPolicy
  /-- the readings of the system clock, in the order they are taken -/
  clock : ℕ → Time

structure DagModule where
  storage : LedgerMemory := {}
  waitlist : ExtTreeMap ℕ NameSet := ∅
  /-- clock readings taken so far -/
  ticks : ℕ := 0

abbrev DagM := Program Error DagModule

def onStorage {α : Type} (x : Program Error LedgerMemory α) : DagM α :=
  zoom DagModule.storage (fun memory dag => { dag with storage := memory }) x

def adder (name : Name) (block : Block) : DagM Unit := onStorage (LedgerMemory.addBlock name block)
def getter (name : Name) : DagM Block := onStorage (LedgerMemory.getBlock name)
def deleter (name : Name) : DagM Unit := onStorage (LedgerMemory.deleteBlock name)

variable [NdnCxx] (config : DagConfig)

def now : DagM Time := do
  let dag ← get
  set { dag with ticks := dag.ticks + 1 }
  return config.clock dag.ticks

def construct (name : Name) : DagM EdgeState := do
  let created ← now config
  let interlocked ← now config
  return { stateName := name, status := .INITIALIZED, created := created + 1,
           interlocked := interlocked }

/-- Whatever goes wrong in the read is taken for a name that is not stored. -/
def getOrConstruct (name : Name) : DagM EdgeState :=
  tryCatch (do let block ← getter name; lift (decodeEdgeState block)) fun _ => do
    let s ← construct config name
    adder s.stateName (encodeEdgeState s)
    return s

def update (state : EdgeState) : DagM Unit := do
  deleter state.stateName
  adder state.stateName (encodeEdgeState state)

/-! ## The ancestor search -/

structure AncestorSearch where
  ancestors : List Name
  frontier : List Name

/-- Meets one parent. The parents of the searched state itself are entered
without the test whether they have been seen. -/
def visitParent (testSeen : Bool) (state : EdgeState) (search : AncestorSearch) (ptr : Name) :
    DagM AncestorSearch := do
  let parent ← getOrConstruct config (toStateName ptr)
  let hasSeen := testSeen && decide (parent.stateName ∈ search.ancestors)
  let ancestors := if !hasSeen ∧ parent.status ≠ .INTERLOCKED
    then search.ancestors ++ [parent.stateName] else search.ancestors
  if parent.status = .INITIALIZED then
    -- a pending parent ends the search here and takes the descendant at once
    update { parent with descendants := parent.descendants.insert state.stateName }
    return { search with ancestors := ancestors }
  else if parent.status ≠ .INTERLOCKED then
    return ⟨ancestors, search.frontier ++ [parent.stateName]⟩
  else return { search with ancestors := ancestors }

def expandFrontier (state : EdgeState) (search : AncestorSearch) : DagM AncestorSearch :=
  search.frontier.foldlM (fun acc f => do
    let s ← getOrConstruct config f
    s.record.pointers.foldlM (visitParent config true state) acc) ⟨search.ancestors, []⟩

/-- The rounds, with a bound on their number that is never reached. -/
def searchRounds (state : EdgeState) : ℕ → ℕ → AncestorSearch → DagM (List Name)
  | 0, prevAncestors, search =>
      if search.ancestors.length ≤ prevAncestors then return search.ancestors
      else throw .outOfRounds
  | fuel + 1, prevAncestors, search =>
      if search.ancestors.length ≤ prevAncestors then return search.ancestors else do
        let next ← expandFrontier config state search
        searchRounds state fuel search.ancestors.length next

/-- Every stored pointer takes an octet at least, and every round but the last
two meets a pointer for the first time. -/
def roundBound (state : EdgeState) (dag : DagModule) : ℕ :=
  state.record.pointers.length + (dag.storage.list.toList.map fun e => e.2.value.length).sum + 1

def getAncestors (state : EdgeState) : DagM (List Name) := do
  let search ← state.record.pointers.foldlM (visitParent config false state) ⟨[], []⟩
  let dag ← get
  let ancestors ← searchRounds config state (roundBound state dag) 0 search
  return ancestors.reverse

/-! ## Updates -/

def evaluateWaitlist (state : EdgeState) : DagM Unit :=
  if state.status = .INTERLOCKED then pure () else
    modify fun dag =>
      let cleared := dag.waitlist.map fun _ names => names.erase state.stateName
      let key := config.policy.evaluate state
      { dag with waitlist := cleared.insert key ((cleared.getD key ∅).insert state.stateName) }

def evaluateAncestors (state : EdgeState) : DagM Unit := do
  let ancestors ← getAncestors config state
  ancestors.foldlM (fun _ a => do
    let aState ← getOrConstruct config a
    let aState := { aState with descendants := aState.descendants.insert state.stateName }
    update aState
    evaluateWaitlist config aState) ()

/-- A genesis record endorses nothing. -/
def evaluateNonGenesis (state : EdgeState) : DagM Unit :=
  if !state.record.isGenesis then evaluateAncestors config state else pure ()

def onNewRecord (state : EdgeState) : DagM Unit := do
  let state := { state with status := .LOADED }
  update state
  evaluateWaitlist config state
  evaluateNonGenesis config state
  -- resolve all pending descendants
  state.descendants.toList.foldlM (fun _ desc => do
    let descState ← getOrConstruct config desc
    evaluateNonGenesis config descState) ()

def add (record : Record) : DagM Name := do
  let found ← getOrConstruct config (toStateName record.name)
  let state := { found with record := record }
  match state.status with
  | .INITIALIZED =>
      onNewRecord config state
      return state.stateName
  | .LOADED | .INTERLOCKED => return state.stateName

/-! ## The waitlist -/

def getWaitList (value : ℕ) : DagM NameSet := do
  let dag ← get
  match dag.waitlist[value]? with
  | some names => return names
  | none =>
      set { dag with waitlist := dag.waitlist.insert value ∅ }
      return ∅

def harvestBelowName (ret : List Record) (s : Name) : DagM (List Record) := do
  let state ← getOrConstruct config s
  if state.status ≠ .INITIALIZED then return ret ++ [state.record] else return ret

def harvestBelow (threshold : ℕ) : DagM (List Record) := do
  let dag ← get
  dag.waitlist.toList.foldlM (fun ret bucket =>
    if bucket.1 < threshold then bucket.2.toList.foldlM (harvestBelowName config) ret
    else return ret) []

/-- One name of a bucket: what is returned so far and what is to be removed. -/
def harvestName (acc : List Record × List Name) (s : Name) :
    DagM (List Record × List Name) := do
  let state ← getOrConstruct config s
  if state.status ≠ .INITIALIZED then do
    update { state with status := .INTERLOCKED }
    return (acc.1 ++ [state.record], acc.2 ++ [s])
  else return acc

/-- One bucket; what it loses is erased after its names are through. -/
def harvestBucket (threshold : ℕ) (remove : Bool) (ret : List Record) (bucket : ℕ × NameSet) :
    DagM (List Record) :=
  if threshold ≤ bucket.1 then do
    let (ret, rm) ← bucket.2.toList.foldlM (harvestName config) (ret, [])
    let rm := if remove then rm else []
    modify fun dag => { dag with
      waitlist := dag.waitlist.modify bucket.1 fun names => rm.foldl (fun l n => l.erase n) names }
    return ret
  else return ret

def harvestAbove (threshold : ℕ) (remove : Bool) : DagM (List Record) := do
  let dag ← get
  dag.waitlist.toList.foldlM (harvestBucket config threshold remove) []

end CertLedger.DagEngine
