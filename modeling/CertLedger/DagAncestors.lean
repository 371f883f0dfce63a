import CertLedger.DagCover
import CertLedger.PlainNdn

/-!
# The ancestor search on any storage of states

The names of states hold states of these names; the other names may hold anything,
also blocks that decode to states. The engine never comes to see those, so what it
does on the states alone it does on the whole storage.
-/
namespace CertLedger.DagAncestors
open Std TlvCodec FallibleState NdnObjects RecordCodec EdgeStateCodec OrderedContainers Relation
open DagEngine DagStates DagSearch DagEffects DagCover

/-! ## The states of a storage -/

section
variable [NdnCxx]

structure Tidy (d : DagModule) : Prop where
  reliable : d.storage.faults = []
  states : ∀ n block, d.storage.list[n]? = some block → IsStateName n →
    ∃ s, block = encodeEdgeState s ∧ s.stateName = n

def Outside (n : Name) : Prop := ¬IsStateName n

/-- The module with nothing in its storage but the states. -/
def inside (d : DagModule) : DagModule :=
  { d with storage := { d.storage with
      list := d.storage.list.filter fun n _ => decide (IsStateName n) } }

variable {config : DagConfig} {F : Name → Option Block} {d e d' e' : DagModule} {n : Name}

omit [NdnCxx] in
theorem inside_list (d : DagModule) (n : Name) : (inside d).storage.list[n]? =
    if IsStateName n then d.storage.list[n]? else none := by
  have hfilter : (inside d).storage.list[n]? =
      d.storage.list[n]?.filter fun _ => decide (IsStateName n) := ExtTreeMap.getElem?_filter'
  rw [hfilter]
  split_ifs with hn
  · cases d.storage.list[n]? <;> simp [hn]
  · cases d.storage.list[n]? <;> simp [hn]

theorem Tidy.clean (h : Tidy d) : Clean (inside d) where
  reliable := h.reliable
  states n block hb hn := by
    rw [inside_list, if_pos hn] at hb
    exact h.states n block hb hn
  others n block s hb _ := by
    rw [inside_list] at hb
    split_ifs at hb with hn
    exact hn

theorem Tidy.hides (h : Tidy d) : Hides Outside (fun n => d.storage.list[n]?) d (inside d) where
  reliable := h.reliable
  intact := h.reliable
  keyed n s hs := (h.clean.state hs).2
  waitlist := rfl
  ticks := rfl
  shared n hn := by rw [inside_list, if_pos (not_not.mp hn)]
  erased n hn := by rw [inside_list, if_neg hn]
  kept _ _ := rfl

theorem tidy_of_hides (h : Hides Outside F d e) (hc : Clean e) : Tidy d where
  reliable := h.reliable
  states n block hb hn := hc.states n block ((h.shared n (not_not.mpr hn)).trans hb) hn

theorem stateAt_of_hides (h : Hides Outside F d e) (hn : IsStateName n) :
    stateAt d n = stateAt e n := (stateAt_congr (h.shared n (not_not.mpr hn))).symm

theorem node_of_hides (h : Hides Outside F d e) (hn : IsStateName n) : node d n = node e n := by
  rw [node, node, stateAt_of_hides h hn]

/-- A run among the states that leaves them clean is a run on the whole storage. -/
theorem exec_of_inside {α : Type} {x : DagM α} (hx : Echoes Outside F x)
    (h : Hides Outside F d e) {a : α} (hrun : exec x e = (.ok a, e')) (hc : Clean e') :
    ∃ d', exec x d = (.ok a, d') ∧ Hides Outside F d' e' := by
  rcases hx d e a e' h hrun with hX | hd'
  · obtain ⟨m, hm, hs⟩ := hX.stored
    obtain ⟨s, hs⟩ := Option.isSome_iff_exists.mp hs
    exact (hm (hc.state hs).1).elim
  · exact hd'

/-! ## Paths through loaded states -/

/-- From a loaded state to the states its record points to. -/
def Leads (d : DagModule) (u v : Name) : Prop := (node d u).status = .LOADED ∧ v ∈ (node d u).next

theorem found_iff (pointers : List Name) (a : Name) : Found d pointers a ↔
    (node d a).status ≠ .INTERLOCKED ∧
      ∃ p ∈ pointers, ReflTransGen (Leads d) (toStateName p) a := by
  have hstep : (fun u v => expand d u = true ∧ v ∈ next d u) = Leads d := by
    funext u v
    simp [expand, Node.isLoaded, Leads, next]
  simp [Found, FrontierSearch.Reached, hstep, keep, Node.isOpen]

/-- Paths from the name of a state run through names of states. -/
theorem leads_congr (h : ∀ n, IsStateName n → node d n = node e n) {p a : Name}
    (hpath : ReflTransGen (Leads d) (toStateName p) a) :
    IsStateName a ∧ ReflTransGen (Leads e) (toStateName p) a := by
  induction hpath with
  | refl => exact ⟨isStateName_toStateName p, .refl⟩
  | tail _ hstep ih =>
      rw [Leads, h _ ih.1] at hstep
      obtain ⟨m, -, hm⟩ := List.mem_map.mp hstep.2
      exact ⟨⟨m, hm.symm⟩, ih.2.tail hstep⟩

/-! ## What the search leaves in the storage -/

/-- States that are stored only gain descendants. -/
theorem stateAt_gives {P : Name → Name → Prop} (h : Gives P e e') (he : Evolves config e e')
    (hf : e.storage.faults = []) {s : EdgeState} (hs : stateAt e n = some s) :
    ∃ descendants, stateAt e' n = some { s with descendants := descendants } ∧
      ∀ x, x ∈ descendants ↔ x ∈ s.descendants ∨ P x n := by
  obtain ⟨t, ht, hlater⟩ := he.later hf n s hs
  have hof : node e n = Node.of s := node_of_stateAt hs
  have hof' : node e' n = Node.of t := node_of_stateAt ht
  have hstatus : t.status = s.status := by
    have := h.status n
    rwa [hof, hof'] at this
  have hrecord : t.record = s.record := by
    have := h.record n
    rwa [hof, hof'] at this
  have hdesc := h.descendants n
  rw [hof, hof'] at hdesc
  refine ⟨t.descendants, ?_, hdesc⟩
  rw [ht]
  exact congrArg some (EdgeState.ext hlater.stateName hrecord rfl hstatus hlater.created
    hlater.interlocked)

/-- What the search leaves among the states. -/
structure Searched (l : List Name) (x : Name) (d d' : DagModule) : Prop where
  pending : ∀ a ∈ l, ∀ s, stateAt d a = some s → s.status = .INITIALIZED →
    stateAt d' a = some { s with descendants := s.descendants.insert x }
  unknown : ∀ a ∈ l, stateAt d a = none → ∃ s, stateAt d' a = some s ∧ s.stateName = a ∧
    s.status = .INITIALIZED ∧ s.record = { name := fromStateName a } ∧
      s.descendants = (∅ : NameSet).insert x
  others : ∀ a, ¬(a ∈ l ∧ (node d a).status = .INITIALIZED) → stateAt d' a = stateAt d a

theorem searched {l : List Name} {x : Name} (h : Searching e x l e') (he : Evolves config e e')
    (hc : Clean e) : Searched l x e e' where
  pending a ha s hs hstatus := by
    have hopen : (node e a).status = .INITIALIZED := (status_of_stateAt hs).trans hstatus
    obtain ⟨descendants, hs', hmem⟩ := stateAt_gives h.gives he hc.reliable hs
    have hdesc : descendants = s.descendants.insert x := by
      refine ExtTreeSet.ext_mem fun y => ?_
      rw [hmem, mem_insert]
      simp [ha, hopen, or_comm, eq_comm]
    rw [hs', hdesc]
  unknown a ha hs := by
    have hnode : node e a = Node.unknown a := node_of_none hs
    have hst : Stored e' a := (h.gives.stored a).mpr (.inr ⟨x, rfl, ha, by rw [hnode]; rfl⟩)
    obtain ⟨s, hs'⟩ := Option.isSome_iff_exists.mp hst
    have hof : node e' a = Node.of s := node_of_stateAt hs'
    have hstatus := h.gives.status a
    have hrecord := h.gives.record a
    rw [hof, hnode] at hstatus hrecord
    refine ⟨s, hs', (h.gives.clean.state hs').2.1, hstatus, hrecord, ?_⟩
    refine ExtTreeSet.ext_mem fun y => ?_
    have hdesc := h.gives.descendants a y
    rw [hof, hnode] at hdesc
    rw [mem_insert]
    simpa [Node.of, Node.unknown, ha, eq_comm] using hdesc
  others a ha := by
    cases hs : stateAt e a with
    | some s =>
        obtain ⟨descendants, hs', hmem⟩ := stateAt_gives h.gives he hc.reliable hs
        have hdesc : descendants = s.descendants := by
          refine ExtTreeSet.ext_mem fun y => ?_
          rw [hmem]
          simp [ha]
        rw [hs', hdesc]
    | none =>
        have hst : ¬Stored e' a := by
          rw [h.gives.stored]
          simp [Stored, hs, ha]
        simpa [Stored] using hst

/-- What is left among the states is left in the whole storage. -/
theorem Searched.of_hides {l : List Name} {x : Name} (h : Searched l x e e')
    (hbefore : Hides Outside F d e) (hafter : Hides Outside F d' e')
    (hl : ∀ a ∈ l, IsStateName a) : Searched l x d d' where
  pending a ha s hs := by
    rw [stateAt_of_hides hbefore (hl a ha)] at hs
    rw [stateAt_of_hides hafter (hl a ha)]
    exact h.pending a ha s hs
  unknown a ha hs := by
    rw [stateAt_of_hides hbefore (hl a ha)] at hs
    rw [stateAt_of_hides hafter (hl a ha)]
    exact h.unknown a ha hs
  others a ha := by
    by_cases hn : IsStateName a
    · rw [node_of_hides hbefore hn] at ha
      rw [stateAt_of_hides hbefore hn, stateAt_of_hides hafter hn]
      exact h.others a ha
    · exact stateAt_congr ((hafter.kept a hn).trans (hbefore.kept a hn).symm)

/-! ## The search -/

/-- Whatever states a storage holds and however they point to each other, the search ends.
It returns the names that are not interlocked and are reached through loaded states. The
pending ones among them, made where nothing was stored, gain the searched state as a
descendant. -/
theorem getAncestors_exact (config : DagConfig) {d : DagModule} (h : Tidy d)
    (state : EdgeState) :
    ∃ l d', exec (getAncestors config state) d = (.ok l, d') ∧
      (∀ a, a ∈ l ↔ (node d a).status ≠ .INTERLOCKED ∧
        ∃ p ∈ state.record.pointers, ReflTransGen (Leads d) (toStateName p) a) ∧
      Searched l state.stateName d d' ∧
      (∀ n, ¬IsStateName n → d'.storage.list[n]? = d.storage.list[n]?) ∧
      d'.waitlist = d.waitlist := by
  have hnode : ∀ n, IsStateName n → node d n = node (inside d) n := fun n hn =>
    node_of_hides h.hides hn
  obtain ⟨l, e', hrun, hfound, hsearch⟩ := exec_getAncestors config state h.clean
  have he : Evolves config (inside d) e' := by
    have htame := tame_getAncestors config state (inside d) h.hides.keyed
    rwa [hrun] at htame
  obtain ⟨d', hd', hh⟩ :=
    exec_of_inside (echoes_getAncestors state) h.hides hrun hsearch.gives.clean
  have hstate : ∀ a ∈ l, IsStateName a := fun a ha => ((hfound a).mp ha).isStateName
  have hs : Searched l state.stateName d d' :=
    (searched hsearch he h.clean).of_hides h.hides hh hstate
  refine ⟨l, d', hd', ?_, hs, fun n hn => hh.kept n hn, ?_⟩
  · intro a
    rw [hfound, found_iff]
    constructor
    · rintro ⟨hopen, p, hp, hpath⟩
      obtain ⟨ha, hpath⟩ := leads_congr (fun n hn => (hnode n hn).symm) hpath
      exact ⟨by rwa [hnode a ha], p, hp, hpath⟩
    · rintro ⟨hopen, p, hp, hpath⟩
      obtain ⟨ha, hpath⟩ := leads_congr hnode hpath
      exact ⟨by rwa [← hnode a ha], p, hp, hpath⟩
  · rw [← hh.waitlist]
    exact hsearch.waitlist.trans h.hides.waitlist

end

section
open PlainNdn

local instance : NdnCxx := plainNdn []

/-- Two states that point to each other. The first one points also to itself, twice to the
second and to a name that is not stored. -/
def cyclic : DagModule :=
  put (put {} { stateName := toStateName [Name.keyword [65]], status := .LOADED,
                record := { pointers := [[Name.keyword [65]], [Name.keyword [66]],
                  [Name.keyword [66]], [Name.keyword [67]]] } })
    { stateName := toStateName [Name.keyword [66]], status := .LOADED,
      record := { pointers := [[Name.keyword [65]]] } }

theorem tidy_cyclic : Tidy cyclic := by
  have h : Clean cyclic := (Clean.empty.put (by exact isStateName_toStateName _)).put
    (by exact isStateName_toStateName _)
  exact ⟨h.reliable, h.states⟩

theorem getAncestors_exact_cyclic :
    ∃ l d', exec (getAncestors ⟨.descendants, fun i => 1000 * i⟩
        { stateName := toStateName [Name.keyword [68]],
          record := { pointers := [[Name.keyword [66]]] } }) cyclic = (.ok l, d') ∧
      (∀ a, a ∈ l ↔ (node cyclic a).status ≠ .INTERLOCKED ∧
        ∃ p ∈ [[Name.keyword [66]]], ReflTransGen (Leads cyclic) (toStateName p) a) ∧
      Searched l (toStateName [Name.keyword [68]]) cyclic d' ∧
      (∀ n, ¬IsStateName n → d'.storage.list[n]? = cyclic.storage.list[n]?) ∧
      d'.waitlist = cyclic.waitlist :=
  getAncestors_exact _ tidy_cyclic _

end

end CertLedger.DagAncestors
