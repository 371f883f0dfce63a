import CertLedger.DagEffects
import CertLedger.PlainNdn

/-!
# The storage in a database

The other backend of the storage keeps the blocks in a LevelDB database, under the
URIs of their names. It takes every read that does not succeed for a name that is
free. The database is a parameter, of which only the statuses of its calls are known
and what the successful ones do. Unless a read that fails makes the backend write over
a block, or a write that fails is not undone, the backend is the memory backend, some
operations of which fail on their own.
-/
namespace CertLedger.LedgerLevelDB
open Std TlvCodec FallibleState OrderedContainers NdnObjects DagEngine PlainNdn

/-! ## The database -/

/-- The calls of `leveldb::DB`. A read returns a value where its status is ok, a write
whether its status is. -/
structure DB (δ : Type) where
  get : String → δ → Option Buffer × δ
  put : String → Buffer → δ → Bool × δ
  delete : String → δ → Bool × δ

/-- The entries change only by writes. A read that succeeds finds the entry of its key, a
write that succeeds changes the entry of its key alone. Nothing is said of calls that fail. -/
structure Lawful {δ : Type} (db : DB δ) (entries : δ → String → Option Buffer) : Prop where
  get_entries : ∀ key s, entries (db.get key s).2 = entries s
  get_ok : ∀ key s value, (db.get key s).1 = some value → entries s key = some value
  put_ok : ∀ key value s, (db.put key value s).1 = true →
    ∀ k, entries (db.put key value s).2 k = if key = k then some value else entries s k
  delete_ok : ∀ key s, (db.delete key s).1 = true →
    ∀ k, entries (db.delete key s).2 k = if key = k then none else entries s k

/-! ## The backend -/

section
variable {δ : Type}

/-- A call of the database does not throw. -/
def ask {α : Type} (f : δ → α × δ) : Program Error δ α := ExceptT.mk fun s => (.ok (f s).1, (f s).2)

theorem exec_ask {α : Type} (f : δ → α × δ) (s : δ) : exec (ask f) s = (.ok (f s).1, (f s).2) := rfl

variable (db : DB δ) (toUri : Name → String)

def addBlock (name : Name) (block : Block) : Program Error δ Unit := do
  let value ← ask (db.get (toUri name))
  if value.isSome then throw (.alreadyExists name)
  else
    let ok ← ask (db.put (toUri name) block.wire)
    if ok then return () else throw .storage

def getBlock (name : Name) : Program Error δ Block := do
  let value ← ask (db.get (toUri name))
  match value with
  | some data =>
      let (block, _) ← lift (parsed (readBlock data))
      return block
  | none => throw (.doesNotExist name)

def deleteBlock (name : Name) : Program Error δ Unit := do
  let value ← ask (db.get (toUri name))
  if value.isSome then
    let ok ← ask (db.delete (toUri name))
    if ok then return () else throw .storage
  else throw (.doesNotExist name)

end

/-! ## Interfaces -/

/-- What the modules of the ledger know of a storage. -/
structure Interface (σ : Type) where
  adder : Name → Block → Program Error σ Unit
  getter : Name → Program Error σ Block
  deleter : Name → Program Error σ Unit

def getInterface {δ : Type} (db : DB δ) (toUri : Name → String) : Interface δ where
  adder := addBlock db toUri
  getter := getBlock db toUri
  deleter := deleteBlock db toUri

/-- `LedgerMemory::getInterface` -/
def memoryInterface : Interface LedgerMemory where
  adder := LedgerMemory.addBlock
  getter := LedgerMemory.getBlock
  deleter := LedgerMemory.deleteBlock

inductive Call where
  | add (name : Name) (block : Block)
  | get (name : Name)
  | delete (name : Name)

def Call.name : Call → Name
  | add name _ | get name | delete name => name

/-- What a caller hears; of an exception only that it was thrown. -/
inductive Answer where
  | thrown
  | done
  | block (b : Block)
  deriving DecidableEq

def heard {α : Type} (answer : α → Answer) : Except Error α → Answer
  | .ok a => answer a
  | .error _ => .thrown

section
variable {σ : Type} (intf : Interface σ)

def Call.perform (s : σ) : Call → Answer × σ
  | add name block =>
      let r := exec (intf.adder name block) s
      (heard (fun _ => .done) r.1, r.2)
  | get name =>
      let r := exec (intf.getter name) s
      (heard .block r.1, r.2)
  | delete name =>
      let r := exec (intf.deleter name) s
      (heard (fun _ => .done) r.1, r.2)

/-- A user of a storage, whose calls may depend on all that it has heard. -/
inductive Client (α : Type) where
  | finished (a : α)
  | calls (call : Call) (next : Answer → Client α)

def Client.run {α : Type} : Client α → σ → α × σ
  | finished a, s => (a, s)
  | calls call next, s => (next (call.perform intf s).1).run (call.perform intf s).2

end

/-! ## One call of the memory -/

section
variable {list : ExtTreeMap Name Block}

/-- The memory fails on its own. -/
theorem memory_fails (call : Call) (faults : List Bool) :
    call.perform memoryInterface ⟨list, true :: faults⟩ = (.thrown, ⟨list, faults⟩) := by
  cases call <;> rfl

theorem backend_works (faults : List Bool) :
    exec LedgerMemory.backend ⟨list, false :: faults⟩ = (.ok (), ⟨list, faults⟩) := rfl

theorem add_memory (name : Name) (block : Block) (faults : List Bool) :
    (Call.add name block).perform memoryInterface ⟨list, false :: faults⟩ =
      if list[name]? = none then (.done, ⟨list.insert name block, faults⟩)
      else (.thrown, ⟨list, faults⟩) := by
  simp only [Call.perform, memoryInterface, LedgerMemory.addBlock]
  rw [exec_bind_ok (backend_works faults), exec_bind_ok (exec_get _)]
  cases list[name]? <;> rfl

theorem get_memory (name : Name) (faults : List Bool) :
    (Call.get name).perform memoryInterface ⟨list, false :: faults⟩ =
      ((list[name]?.map Answer.block).getD .thrown, ⟨list, faults⟩) := by
  simp only [Call.perform, memoryInterface, LedgerMemory.getBlock]
  rw [exec_bind_ok (backend_works faults), exec_bind_ok (exec_get _)]
  cases list[name]? <;> rfl

theorem delete_memory (name : Name) (faults : List Bool) :
    (Call.delete name).perform memoryInterface ⟨list, false :: faults⟩ =
      if list[name]? = none then (.thrown, ⟨list, faults⟩)
      else (.done, ⟨list.erase name, faults⟩) := by
  simp only [Call.perform, memoryInterface, LedgerMemory.deleteBlock]
  rw [exec_bind_ok (backend_works faults), exec_bind_ok (exec_get _)]
  cases list[name]? <;> rfl

/-- A memory has changed nothing where it throws. -/
theorem memory_thrown {call : Call} {fails : Bool} {faults : List Bool} {m : LedgerMemory}
    (h : call.perform memoryInterface ⟨list, fails :: faults⟩ = (.thrown, m)) :
    m = ⟨list, faults⟩ := by
  cases fails with
  | true =>
      rw [memory_fails] at h
      exact (congrArg Prod.snd h).symm
  | false =>
      cases call with
      | add name block =>
          rw [add_memory] at h
          split_ifs at h
          · cases congrArg Prod.fst h
          · exact (congrArg Prod.snd h).symm
      | get name =>
          rw [get_memory] at h
          exact (congrArg Prod.snd h).symm
      | delete name =>
          rw [delete_memory] at h
          split_ifs at h
          · exact (congrArg Prod.snd h).symm
          · cases congrArg Prod.fst h

end

/-! ## One call of the database -/

section
variable {δ : Type} {db : DB δ} {entries : δ → String → Option Buffer} {toUri : Name → String}
  {s : δ} {list : ExtTreeMap Name Block}

variable (db toUri s) in
theorem add_level (name : Name) (block : Block) :
    (Call.add name block).perform (getInterface db toUri) s =
      match db.get (toUri name) s with
      | (some _, s₁) => (.thrown, s₁)
      | (none, s₁) =>
          (if (db.put (toUri name) block.wire s₁).1 then .done else .thrown,
            (db.put (toUri name) block.wire s₁).2) := by
  simp only [Call.perform, getInterface, addBlock]
  rw [exec_bind_ok (exec_ask _ s)]
  rcases db.get (toUri name) s with ⟨_ | value, s₁⟩
  · dsimp only
    rw [if_neg (by simp), exec_bind_ok (exec_ask _ s₁)]
    rcases db.put (toUri name) block.wire s₁ with ⟨_ | _, s₂⟩ <;> rfl
  · rfl

variable (db toUri s) in
theorem get_level (name : Name) :
    (Call.get name).perform (getInterface db toUri) s =
      (((db.get (toUri name) s).1.bind fun data =>
        (readBlock data).map fun r => Answer.block r.1).getD .thrown, (db.get (toUri name) s).2) := by
  simp only [Call.perform, getInterface, getBlock]
  rw [exec_bind_ok (exec_ask _ s)]
  rcases db.get (toUri name) s with ⟨_ | data, s₁⟩
  · rfl
  · simp only [Option.bind_some]
    cases readBlock data <;> rfl

variable (db toUri s) in
theorem delete_level (name : Name) :
    (Call.delete name).perform (getInterface db toUri) s =
      match db.get (toUri name) s with
      | (none, s₁) => (.thrown, s₁)
      | (some _, s₁) =>
          (if (db.delete (toUri name) s₁).1 then .done else .thrown,
            (db.delete (toUri name) s₁).2) := by
  simp only [Call.perform, getInterface, deleteBlock]
  rw [exec_bind_ok (exec_ask _ s)]
  rcases db.get (toUri name) s with ⟨_ | value, s₁⟩
  · rfl
  · dsimp only
    rw [if_pos (by simp), exec_bind_ok (exec_ask _ s₁)]
    rcases db.delete (toUri name) s₁ with ⟨_ | _, s₂⟩ <;> rfl

/-! ## The database as a memory -/

variable (entries toUri) in
/-- The database has the blocks of the memory, for the names that are used. -/
def Holds (names : Set Name) (s : δ) (list : ExtTreeMap Name Block) : Prop :=
  ∀ name ∈ names, entries s (toUri name) = list[name]?.map Block.wire

variable (entries toUri) in
/-- The entries of the names are the same. -/
def Same (names : Set Name) (s s' : δ) : Prop :=
  ∀ name ∈ names, entries s' (toUri name) = entries s (toUri name)

variable (db entries toUri s) in
/-- The read of an addition fails, and a block is written over. -/
def Call.Overwrites : Call → Prop
  | add name block => (db.get (toUri name) s).1 = none ∧ entries s (toUri name) ≠ none ∧
      (db.put (toUri name) block.wire (db.get (toUri name) s).2).1 = true
  | get _ | delete _ => False

variable (db entries toUri s) in
/-- A write whose status is not ok has changed an entry. -/
def Call.Tears (names : Set Name) : Call → Prop
  | add name block => (db.get (toUri name) s).1 = none ∧
      (db.put (toUri name) block.wire (db.get (toUri name) s).2).1 = false ∧
      ¬ Same entries toUri names s (db.put (toUri name) block.wire (db.get (toUri name) s).2).2
  | get _ => False
  | delete name => (db.get (toUri name) s).1 ≠ none ∧
      (db.delete (toUri name) (db.get (toUri name) s).2).1 = false ∧
      ¬ Same entries toUri names s (db.delete (toUri name) (db.get (toUri name) s).2).2

namespace Holds
variable {names : Set Name} {name : Name}

theorem free_iff (h : Holds entries toUri names s list) (hname : name ∈ names) :
    entries s (toUri name) = none ↔ list[name]? = none := by
  rw [h name hname, Option.map_eq_none_iff]

theorem same (h : Holds entries toUri names s list) {s' : δ}
    (hsame : Same entries toUri names s s') : Holds entries toUri names s' list :=
  fun n hn => (hsame n hn).trans (h n hn)

theorem insert (h : Holds entries toUri names s list) (hinj : Set.InjOn toUri names)
    (hname : name ∈ names) {block : Block} {s' : δ} (hput : ∀ k, entries s' k =
      if toUri name = k then some block.wire else entries s k) :
    Holds entries toUri names s' (list.insert name block) := by
  intro n hn
  rw [hput, getElem?_insert]
  by_cases hsame : name = n
  · rw [if_pos hsame, if_pos (congrArg toUri hsame)]
    rfl
  · rw [if_neg hsame, if_neg fun huri => hsame (hinj hname hn huri)]
    exact h n hn

theorem erase (h : Holds entries toUri names s list) (hinj : Set.InjOn toUri names)
    (hname : name ∈ names) {s' : δ} (hdelete : ∀ k, entries s' k =
      if toUri name = k then none else entries s k) :
    Holds entries toUri names s' (list.erase name) := by
  intro n hn
  rw [hdelete, getElem?_erase]
  by_cases hsame : name = n
  · rw [if_pos hsame, if_pos (congrArg toUri hsame)]
    rfl
  · rw [if_neg hsame, if_neg fun huri => hsame (hinj hname hn huri)]
    exact h n hn

end Holds

variable (db entries toUri s list) in
/-- The memory answers a call as the database does, where it fails on its own or not, and then
has the same blocks again. -/
def Call.Like (names : Set Name) (call : Call) : Prop :=
  ∃ fails list', Holds entries toUri names (call.perform (getInterface db toUri) s).2 list' ∧
    ∀ faults, call.perform memoryInterface ⟨list, fails :: faults⟩ =
      ((call.perform (getInterface db toUri) s).1, ⟨list', faults⟩)

section
variable {names : Set Name} {name : Name}

/-- A call that throws and changes nothing is one that fails in the memory. -/
theorem like_of_thrown (h : Holds entries toUri names s list) {call : Call} {s' : δ}
    (hrun : call.perform (getInterface db toUri) s = (.thrown, s'))
    (hsame : Same entries toUri names s s') : call.Like db entries toUri s list names := by
  refine ⟨true, list, ?_, fun faults => ?_⟩
  · rw [hrun]
    exact h.same hsame
  · rw [memory_fails, hrun]

theorem add_like (hlaw : Lawful db entries) (h : Holds entries toUri names s list)
    (hinj : Set.InjOn toUri names) (hname : name ∈ names) {block : Block}
    (hkeeps : ¬ (Call.add name block).Overwrites db entries toUri s)
    (hwhole : ¬ (Call.add name block).Tears db entries toUri s names) :
    (Call.add name block).Like db entries toUri s list names := by
  have hrun := add_level db toUri s name block
  have hread := hlaw.get_entries (toUri name) s
  rcases hget : db.get (toUri name) s with ⟨_ | value, s₁⟩
  · rw [hget] at hrun hread
    have hput := hlaw.put_ok (toUri name) block.wire s₁
    dsimp only at hrun hread
    rcases hwrite : db.put (toUri name) block.wire s₁ with ⟨_ | _, s₂⟩
    · rw [hwrite] at hrun
      refine like_of_thrown h hrun ?_
      by_contra hsame
      exact hwhole (by simp [Call.Tears, hget, hwrite, hsame])
    · rw [hwrite] at hrun hput
      have hfree : entries s (toUri name) = none := by
        by_contra hstored
        exact hkeeps (by simp [Call.Overwrites, hget, hwrite, hstored])
      refine ⟨false, list.insert name block, ?_, fun faults => ?_⟩
      · rw [hrun]
        exact h.insert hinj hname (hread ▸ hput rfl)
      · rw [add_memory, if_pos ((h.free_iff hname).mp hfree), hrun]
        rfl
  · rw [hget] at hrun hread
    exact like_of_thrown h hrun fun n _ => congrFun hread (toUri n)

theorem get_like (hlaw : Lawful db entries) (h : Holds entries toUri names s list)
    (hname : name ∈ names) : (Call.get name).Like db entries toUri s list names := by
  have hrun := get_level db toUri s name
  have hread := hlaw.get_entries (toUri name) s
  have hfound := hlaw.get_ok (toUri name) s
  rcases hget : db.get (toUri name) s with ⟨_ | data, s₁⟩ <;> rw [hget] at hrun hread hfound
  · exact like_of_thrown h hrun fun n _ => congrFun hread (toUri n)
  · have hstored := h name hname
    rw [hfound data rfl] at hstored
    obtain ⟨block, hblock, rfl⟩ := Option.map_eq_some_iff.mp hstored.symm
    have hparsed := readBlock_wire block []
    rw [List.append_nil] at hparsed
    refine ⟨false, list, ?_, fun faults => ?_⟩
    · rw [hrun]
      exact h.same fun n _ => congrFun hread (toUri n)
    · rw [get_memory, hrun, hblock]
      simp [hparsed]

theorem delete_like (hlaw : Lawful db entries) (h : Holds entries toUri names s list)
    (hinj : Set.InjOn toUri names) (hname : name ∈ names)
    (hwhole : ¬ (Call.delete name).Tears db entries toUri s names) :
    (Call.delete name).Like db entries toUri s list names := by
  have hrun := delete_level db toUri s name
  have hread := hlaw.get_entries (toUri name) s
  have hfound := hlaw.get_ok (toUri name) s
  rcases hget : db.get (toUri name) s with ⟨_ | value, s₁⟩ <;> rw [hget] at hrun hread hfound
  · exact like_of_thrown h hrun fun n _ => congrFun hread (toUri n)
  · have hdelete := hlaw.delete_ok (toUri name) s₁
    have hstored : list[name]? ≠ none := by
      refine (h.free_iff hname).not.mp ?_
      rw [hfound value rfl]
      exact Option.some_ne_none value
    dsimp only at hrun hread
    rcases hwrite : db.delete (toUri name) s₁ with ⟨_ | _, s₂⟩ <;> rw [hwrite] at hrun hdelete
    · refine like_of_thrown h hrun ?_
      by_contra hsame
      exact hwhole (by simp [Call.Tears, hget, hwrite, hsame])
    · refine ⟨false, list.erase name, ?_, fun faults => ?_⟩
      · rw [hrun]
        exact h.erase hinj hname (hread ▸ hdelete rfl)
      · rw [delete_memory, if_neg hstored, hrun]
        rfl

/-- Every call that writes over no block and leaves no failed write behind is one of a memory. -/
theorem perform_like (hlaw : Lawful db entries) (h : Holds entries toUri names s list)
    (hinj : Set.InjOn toUri names) {call : Call} (hname : call.name ∈ names)
    (hkeeps : ¬ call.Overwrites db entries toUri s)
    (hwhole : ¬ call.Tears db entries toUri s names) : call.Like db entries toUri s list names := by
  cases call with
  | add name block => exact add_like hlaw h hinj hname hkeeps hwhole
  | get name => exact get_like hlaw h hname
  | delete name => exact delete_like hlaw h hinj hname hwhole

/-- No memory answers an addition in this way that writes over a block. -/
theorem not_like_of_overwrites (h : Holds entries toUri names s list) {call : Call}
    (hname : call.name ∈ names) (hover : call.Overwrites db entries toUri s) :
    ¬ call.Like db entries toUri s list names := by
  rintro ⟨fails, list', -, hall⟩
  cases call with
  | get name => exact hover
  | delete name => exact hover
  | add name block =>
      obtain ⟨hread, hentry, hwrite⟩ := hover
      have hstored : list[name]? ≠ none := (h.free_iff hname).not.mp hentry
      have hrun := add_level db toUri s name block
      have hanswer := congrArg Prod.fst (hall [])
      rcases hget : db.get (toUri name) s with ⟨_ | value, s₁⟩ <;> rw [hget] at hread hwrite hrun
      · dsimp only at hwrite hrun
        rw [hrun, if_pos hwrite] at hanswer
        cases fails with
        | true =>
            rw [memory_fails] at hanswer
            cases hanswer
        | false =>
            rw [add_memory, if_neg hstored] at hanswer
            cases hanswer
      · cases hread

/-- What throws in a memory has changed nothing. -/
theorem same_of_like (h : Holds entries toUri names s list) {call : Call} {s' : δ}
    (hlike : call.Like db entries toUri s list names)
    (hrun : call.perform (getInterface db toUri) s = (.thrown, s')) :
    Same entries toUri names s s' := by
  obtain ⟨fails, list', hheld, hall⟩ := hlike
  have hmemory := hall []
  rw [hrun] at hheld hmemory
  have hlist : list' = list := congrArg LedgerMemory.list (memory_thrown hmemory)
  intro n hn
  rw [hheld n hn, hlist, h n hn]

theorem not_like_of_tears (h : Holds entries toUri names s list) {call : Call}
    (htears : call.Tears db entries toUri s names) :
    ¬ call.Like db entries toUri s list names := by
  intro hlike
  cases call with
  | add name block =>
      obtain ⟨hread, hwrite, htorn⟩ := htears
      have hrun := add_level db toUri s name block
      rcases hget : db.get (toUri name) s with ⟨_ | value, s₁⟩ <;>
        rw [hget] at hread hwrite htorn hrun
      · dsimp only at hwrite htorn hrun
        rw [hwrite] at hrun
        exact htorn (same_of_like h hlike hrun)
      · cases hread
  | get name => exact htears
  | delete name =>
      obtain ⟨hread, hwrite, htorn⟩ := htears
      have hrun := delete_level db toUri s name
      rcases hget : db.get (toUri name) s with ⟨_ | value, s₁⟩ <;>
        rw [hget] at hread hwrite htorn hrun
      · exact hread rfl
      · dsimp only at hwrite htorn hrun
        rw [hwrite] at hrun
        exact htorn (same_of_like h hlike hrun)

/-- The calls of a memory are exactly those that neither write over a block nor leave a failed
write behind. -/
theorem like_iff (hlaw : Lawful db entries) (h : Holds entries toUri names s list)
    (hinj : Set.InjOn toUri names) {call : Call} (hname : call.name ∈ names) :
    call.Like db entries toUri s list names ↔
      ¬ call.Overwrites db entries toUri s ∧ ¬ call.Tears db entries toUri s names :=
  ⟨fun hlike => ⟨fun hover => not_like_of_overwrites h hname hover hlike,
      fun htears => not_like_of_tears h htears hlike⟩,
    fun hcall => perform_like hlaw h hinj hname hcall.1 hcall.2⟩

end

/-! ## Runs -/

variable (db entries toUri) in
/-- The client uses the given names; none of its additions writes over a block, and no failed
write leaves something behind. -/
def Client.Proper {α : Type} (names : Set Name) : Client α → δ → Prop
  | finished _, _ => True
  | calls call next, s => call.name ∈ names ∧ ¬ call.Overwrites db entries toUri s ∧
      ¬ call.Tears db entries toUri s names ∧
      (next (call.perform (getInterface db toUri) s).1).Proper names
        (call.perform (getInterface db toUri) s).2

/-- Whatever a user of the database does and hears, some operations of a memory that fail on
their own let it do and hear the same; the memory then has the same blocks. -/
theorem level_refines {α : Type} {names : Set Name} (hlaw : Lawful db entries)
    (hinj : Set.InjOn toUri names) (client : Client α) (h : Holds entries toUri names s list)
    (hproper : client.Proper db entries toUri names s) :
    ∃ faults list', Holds entries toUri names (client.run (getInterface db toUri) s).2 list' ∧
      client.run memoryInterface ⟨list, faults⟩ =
        ((client.run (getInterface db toUri) s).1, ⟨list', []⟩) := by
  induction client generalizing s list with
  | finished a => exact ⟨[], list, h, rfl⟩
  | calls call next ih =>
      obtain ⟨hname, hkeeps, hwhole, hrest⟩ := hproper
      obtain ⟨fails, list₁, hheld, hcall⟩ := (like_iff hlaw h hinj hname).mpr ⟨hkeeps, hwhole⟩
      obtain ⟨faults, list', hlast, hrun⟩ := ih _ hheld hrest
      refine ⟨fails :: faults, list', hlast, ?_⟩
      rw [Client.run, hcall faults]
      exact hrun

end

/-! ### A run with failures -/

/-- The entries of a database, and whether the next reads and writes fail. A write that fails
changes nothing. -/
structure Database where
  entries : ExtTreeMap String Buffer := ∅
  reads : List Bool := []
  writes : List Bool := []

namespace Database

def lookup (s : Database) (key : String) : Option Buffer := s.entries[key]?

def read (key : String) (s : Database) : Option Buffer × Database :=
  (if s.reads.head? = some true then none else s.lookup key, { s with reads := s.reads.tail })

def write (change : ExtTreeMap String Buffer → ExtTreeMap String Buffer) (s : Database) :
    Bool × Database :=
  if s.writes.head? = some true then (false, { s with writes := s.writes.tail })
  else (true, { s with entries := change s.entries, writes := s.writes.tail })

def db : DB Database where
  get := read
  put key value := write (·.insert key value)
  delete key := write (·.erase key)

theorem lookup_write {change : ExtTreeMap String Buffer → ExtTreeMap String Buffer} {s : Database}
    (h : (write change s).1 = true) (k : String) :
    (write change s).2.lookup k = (change s.entries)[k]? := by
  rw [write] at h ⊢
  split_ifs at h ⊢
  rfl

theorem lawful : Lawful db lookup where
  get_entries _ _ := rfl
  get_ok key s value h := by
    have hread : (if s.reads.head? = some true then none else s.lookup key) = some value := h
    split_ifs at hread
    exact hread
  put_ok key value s h k := (lookup_write h k).trans (getElem?_insert s.entries key k value)
  delete_ok key s h k := (lookup_write h k).trans (getElem?_erase s.entries key k)

/-- No failed write leaves anything behind. -/
theorem not_tears (toUri : Name → String) (names : Set Name) (call : Call) (s : Database) :
    ¬ call.Tears db lookup toUri s names := by
  have hsame : ∀ change s', (write change s').1 = false → Same lookup toUri names s s' →
      Same lookup toUri names s (write change s').2 := by
    intro change s' hfails hs
    rw [write] at hfails ⊢
    split_ifs at hfails ⊢
    exact hs
  have hread : ∀ key, Same lookup toUri names s (read key s).2 := fun key n _ => rfl
  cases call with
  | add name block => exact fun htears => htears.2.2 (hsame _ _ htears.2.1 (hread _))
  | get name => exact id
  | delete name => exact fun htears => htears.2.2 (hsame _ _ htears.2.1 (hread _))

end Database

/-- The URI of a name of letters. -/
def uri (n : Name) : String :=
  n.foldl (fun s c => s ++ "/" ++ String.ofList (c.value.map fun b => Char.ofNat b.toNat)) ""

def nameZ : Name := [Name.generic [90]]

def clientA : Client (List Answer) :=
  .calls (.add nameA (Name.generic [1])) fun added =>
  .calls (.get nameA) fun read =>
  .calls (.delete nameA) fun deleted =>
  .calls (.add nameZ (Name.generic [2])) fun addedToo =>
  .finished [added, read, deleted, addedToo]

/-- The second and the last read fail, and the second write. -/
def databaseA : Database where
  reads := [false, true, false, true]
  writes := [false, true, false]

example : (clientA.run (getInterface Database.db uri) databaseA).1 =
    [.done, .thrown, .thrown, .done] := by
  decide +kernel

theorem injOn_uri : Set.InjOn uri {nameA, nameZ} := by
  have hne : uri nameA ≠ uri nameZ := by decide +kernel
  rintro n (rfl | rfl) n' (rfl | rfl) huri
  · rfl
  · exact absurd huri hne
  · exact absurd huri.symm hne
  · rfl

theorem proper_clientA : clientA.Proper Database.db Database.lookup uri {nameA, nameZ} databaseA := by
  refine ⟨.inl rfl, ?_, Database.not_tears _ _ _ _, .inl rfl, id, id, .inl rfl, id,
    Database.not_tears _ _ _ _, .inr rfl, ?_, Database.not_tears _ _ _ _, trivial⟩
  · exact fun hover => absurd hover.2.1 (by decide +kernel)
  · exact fun hover => absurd hover.2.1 (by decide +kernel)

theorem level_refines_clientA : ∃ faults list',
    Holds Database.lookup uri {nameA, nameZ}
        (clientA.run (getInterface Database.db uri) databaseA).2 list' ∧
      clientA.run memoryInterface ⟨∅, faults⟩ =
        ((clientA.run (getInterface Database.db uri) databaseA).1, ⟨list', []⟩) := by
  have hempty : Holds Database.lookup uri {nameA, nameZ} databaseA ∅ := fun n _ => by
    simp [Database.lookup, databaseA]
  exact level_refines Database.lawful injOn_uri clientA hempty proper_clientA

end CertLedger.LedgerLevelDB
