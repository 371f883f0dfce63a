import CertLedger.FrontierSearch
import CertLedger.DagStates
import Mathlib.Algebra.Order.BigOperators.Group.List
import Mathlib.Algebra.Order.Ring.Nat

/-!
# The ancestor search computes reachability

The search of a state leaves the shape of the graph as it is and gives the state
as a descendant to the pending nodes it meets. It succeeds, and it returns the
open nodes that are reached through loaded ones.
-/
namespace CertLedger.DagSearch
open Std TlvCodec FallibleState NdnObjects RecordCodec EdgeStateCodec OrderedContainers
open FrontierSearch DagEngine DagStates

variable [NdnCxx]

/-! ## Giving descendants -/

/-- What changes when every `a` is given the descendants `x` with `P x a`. -/
structure Gives (P : Name → Name → Prop) (d d' : DagModule) : Prop where
  clean : Clean d'
  status : ∀ n, (node d' n).status = (node d n).status
  record : ∀ n, (node d' n).record = (node d n).record
  descendants : ∀ a x, x ∈ (node d' a).descendants ↔ x ∈ (node d a).descendants ∨ P x a
  stored : ∀ n, Stored d' n ↔ Stored d n ∨ ∃ x, P x n
  others : ∀ n, ¬IsStateName n → d'.storage.list[n]? = d.storage.list[n]?

namespace Gives
variable {P Q : Name → Name → Prop} {d d' d'' : DagModule}

theorem refl (h : Clean d) : Gives (fun _ _ => False) d d where
  clean := h
  status _ := rfl
  record _ := rfl
  descendants a x := by simp
  stored n := by simp
  others _ _ := rfl

theorem trans (h : Gives P d d') (h' : Gives Q d' d'') :
    Gives (fun x a => P x a ∨ Q x a) d d'' where
  clean := h'.clean
  status n := (h'.status n).trans (h.status n)
  record n := (h'.record n).trans (h.record n)
  descendants a x := by rw [h'.descendants, h.descendants, or_assoc]
  stored n := by rw [h'.stored, h.stored, or_assoc, exists_or]
  others n hn := (h'.others n hn).trans (h.others n hn)

theorem congr (h : Gives P d d') (hPQ : ∀ x a, P x a ↔ Q x a) : Gives Q d d' := by
  have : P = Q := by
    funext x a
    exact propext (hPQ x a)
  exact this ▸ h

theorem with_waitlist (h : Gives P d d') (w : ExtTreeMap ℕ NameSet) :
    Gives P d { d' with waitlist := w } where
  clean := h.clean.of_storage rfl
  status := h.status
  record := h.record
  descendants := h.descendants
  stored := h.stored
  others := h.others

theorem next (h : Gives P d d') (n : Name) : (node d' n).next = (node d n).next := by
  unfold Node.next
  rw [h.record]

theorem isOpen (h : Gives P d d') (n : Name) : (node d' n).isOpen = (node d n).isOpen := by
  unfold Node.isOpen
  rw [h.status]

theorem isLoaded (h : Gives P d d') (n : Name) : (node d' n).isLoaded = (node d n).isLoaded := by
  unfold Node.isLoaded
  rw [h.status]

end Gives

abbrev give (s : EdgeState) (x : Name) : EdgeState :=
  { s with descendants := s.descendants.insert x }

/-- Reading a state and writing it back with one more descendant. -/
theorem gives_write (config : DagConfig) {d : DagModule} (h : Clean d) {s : EdgeState}
    (hs : IsStateName s.stateName) (hof : Node.of s.stored = node d s.stateName) (x : Name) :
    Gives (fun y a => y = x ∧ a = s.stateName) d (write config d (give s x)) := by
  have hnode : Node.of (give s x).stored = { node d s.stateName with
      descendants := (node d s.stateName).descendants.insert x } :=
    congrArg (fun v : Node => { v with descendants := v.descendants.insert x }) hof
  refine ⟨h.write hs, ?_, ?_, ?_, ?_, ?_⟩
  · intro m
    rw [node_write, hnode]
    split_ifs with he
    · rw [← he]
    · rfl
  · intro m
    rw [node_write, hnode]
    split_ifs with he
    · rw [← he]
    · rfl
  · intro a y
    rw [node_write, hnode]
    split_ifs with he
    · subst he
      rw [mem_insert]
      grind
    · have hne : a ≠ s.stateName := fun ha => he ha.symm
      simp [hne]
  · intro m
    rw [stored_write]
    grind
  · exact fun m hm => write_list d fun he => hm (he ▸ hs)

/-! ## One parent -/

section Search
variable (config : DagConfig) {d₀ d : DagModule} {state : EdgeState}

/-- The module during the search of `x`, as far as the nodes seen tell. -/
structure Searching (d₀ : DagModule) (x : Name) (seen : List Name) (d : DagModule) : Prop where
  gives : Gives (fun y a => y = x ∧ a ∈ seen ∧ (node d₀ a).status = .INITIALIZED) d₀ d
  waitlist : d.waitlist = d₀.waitlist

def ofSearch (t : Search Name) : AncestorSearch := ⟨t.seen, t.frontier⟩

/-- Which nodes the search records, goes through, and where it goes. -/
def keep (d : DagModule) (n : Name) : Bool := (node d n).isOpen
def expand (d : DagModule) (n : Name) : Bool := (node d n).isLoaded
def next (d : DagModule) (n : Name) : List Name := (node d n).next

/-- One parent met, with or without the test whether it was seen. -/
def meet (d₀ : DagModule) (testSeen : Bool) (t : Search Name) (p : Name) : Search Name :=
  ⟨if !(testSeen && decide (p ∈ t.seen)) ∧ (node d₀ p).status ≠ .INTERLOCKED
    then t.seen ++ [p] else t.seen,
    if expand d₀ p then t.frontier ++ [p] else t.frontier⟩

theorem meet_true (t : Search Name) (p : Name) :
    meet d₀ true t p = visit (keep d₀) (expand d₀) t p := by
  simp [meet, visit, keep, Node.isOpen, and_comm]

theorem mem_meet (testSeen : Bool) (t : Search Name) (p a : Name) :
    a ∈ (meet d₀ testSeen t p).seen ↔
      a ∈ t.seen ∨ (a = p ∧ (node d₀ p).status ≠ .INTERLOCKED) := by
  unfold meet
  cases testSeen <;> by_cases hp : p ∈ t.seen <;>
    by_cases hk : (node d₀ p).status = .INTERLOCKED <;> simp [hp, hk]
  intro ha
  exact ha ▸ hp

theorem exec_visitParent (testSeen : Bool) {t : Search Name}
    (h : Searching d₀ state.stateName t.seen d) (ptr : Name) :
    ∃ d', exec (visitParent config testSeen state (ofSearch t) ptr) d =
        (.ok (ofSearch (meet d₀ testSeen t (toStateName ptr))), d') ∧
      Searching d₀ state.stateName (meet d₀ testSeen t (toStateName ptr)).seen d' := by
  have hp := isStateName_toStateName ptr
  obtain ⟨parent, mid, hread, hname, hof, hmid, hupdate⟩ :=
    exec_read config h.gives.clean hp
  rw [← hname] at hp hof hmid ⊢
  have hstatus : parent.status = (node d₀ parent.stateName).status :=
    (congrArg Node.status hof).trans (h.gives.status _)
  have hresult : ofSearch (meet d₀ testSeen t parent.stateName) =
      ⟨if !(testSeen && decide (parent.stateName ∈ t.seen)) ∧ parent.status ≠ .INTERLOCKED
        then t.seen ++ [parent.stateName] else t.seen,
        if expand d₀ parent.stateName then t.frontier ++ [parent.stateName] else t.frontier⟩ := by
    rw [hstatus]
    rfl
  rw [visitParent, exec_bind_ok hread, hresult]
  by_cases hs : parent.status = .INITIALIZED
  · -- pending: the write is all that happens
    have hwrite := gives_write config h.gives.clean hp hof state.stateName
    refine ⟨_, ?_, (h.gives.trans hwrite).congr ?_, (write_waitlist _ _).trans h.waitlist⟩
    · have he : expand d₀ parent.stateName = false := by
        simp [expand, Node.isLoaded, ← hstatus, hs]
      rw [if_pos hs, exec_bind_ok (hupdate (give parent state.stateName) hname), he]
      rfl
    · intro y a
      rw [mem_meet, ← hstatus, hs]
      grind
  · -- otherwise the parent was stored, and nothing is written
    have hst : Stored d parent.stateName :=
      stored_of_status (by rw [h.gives.status, ← hstatus]; exact hs)
    refine ⟨d, ?_, h.gives.congr ?_, h.waitlist⟩
    · rw [(hmid hst).1, if_neg hs]
      by_cases hl : parent.status = .INTERLOCKED
      · have he : expand d₀ parent.stateName = false := by
          simp [expand, Node.isLoaded, ← hstatus, hl]
        rw [if_neg (not_not_intro hl), he]
        rfl
      · have he : expand d₀ parent.stateName = true := by
          cases hc : parent.status <;> simp_all [expand, Node.isLoaded]
        rw [if_pos hl, he]
        rfl
    · intro y a
      rw [mem_meet]
      grind

/-! ## The rounds -/

theorem meet_first (l : List Name) (p : Name) :
    meet d₀ false (first (keep d₀) (expand d₀) l) p =
      first (keep d₀) (expand d₀) (l ++ [p]) := by
  by_cases hk : (node d₀ p).status = .INTERLOCKED <;>
    by_cases he : expand d₀ p = true <;>
      simp [meet, first, List.filter_append, keep, Node.isOpen, hk, he]

theorem exec_roots (state : EdgeState) (h : Clean d₀) (ptrs : List Name) :
    ∃ d, exec (ptrs.foldlM (visitParent config false state) ⟨[], []⟩) d₀ =
        (.ok (ofSearch (first (keep d₀) (expand d₀) (ptrs.map toStateName))), d) ∧
      Searching d₀ state.stateName
        (first (keep d₀) (expand d₀) (ptrs.map toStateName)).seen d := by
  obtain ⟨c, d, hrun, rfl, hd⟩ := exec_foldlM (f := visitParent config false state)
    (fun done b s => b = ofSearch (first (keep d₀) (expand d₀) (done.map toStateName)) ∧
      Searching d₀ state.stateName
        (first (keep d₀) (expand d₀) (done.map toStateName)).seen s) ptrs
    (by
      intro done a rest b s _ hI
      obtain ⟨rfl, hs⟩ := hI
      obtain ⟨d', hrun, hd'⟩ := exec_visitParent config false hs a
      rw [meet_first, ← List.map_singleton (f := toStateName), ← List.map_append] at hrun hd'
      exact ⟨_, d', hrun, rfl, hd'⟩)
    ⟨rfl, (Gives.refl h).congr (by simp [first]), rfl⟩
  exact ⟨d, hrun, hd⟩

theorem exec_visits {t : Search Name} (h : Searching d₀ state.stateName t.seen d)
    (ptrs : List Name) :
    ∃ d', exec (ptrs.foldlM (visitParent config true state) (ofSearch t)) d =
        (.ok (ofSearch ((ptrs.map toStateName).foldl (visit (keep d₀) (expand d₀)) t)), d') ∧
      Searching d₀ state.stateName
        ((ptrs.map toStateName).foldl (visit (keep d₀) (expand d₀)) t).seen d' := by
  induction ptrs generalizing t d with
  | nil => exact ⟨d, rfl, h⟩
  | cons ptr ptrs ih =>
      obtain ⟨d₁, hrun, hd₁⟩ := exec_visitParent config true h ptr
      rw [meet_true] at hrun hd₁
      obtain ⟨d', hrest, hd'⟩ := ih hd₁
      exact ⟨d', by rw [List.foldlM_cons, exec_bind_ok hrun, hrest]; rfl, hd'⟩

/-- A round expands loaded nodes, which are read as they are stored. -/
theorem exec_expandFrontier {t : Search Name} (h : Searching d₀ state.stateName t.seen d)
    (hf : ∀ f ∈ t.frontier, expand d₀ f = true ∧ IsStateName f) :
    ∃ d', exec (expandFrontier config state (ofSearch t)) d =
        (.ok (ofSearch (round (next d₀) (keep d₀) (expand d₀) t)), d') ∧
      Searching d₀ state.stateName (round (next d₀) (keep d₀) (expand d₀) t).seen d' := by
  suffices H : ∀ (l : List Name) (u : Search Name) (d : DagModule),
      (∀ f ∈ l, expand d₀ f = true ∧ IsStateName f) → Searching d₀ state.stateName u.seen d →
      ∃ d', exec (l.foldlM (fun acc f => do
            let s ← getOrConstruct config f
            s.record.pointers.foldlM (visitParent config true state) acc) (ofSearch u)) d =
          (.ok (ofSearch ((l.flatMap (next d₀)).foldl (visit (keep d₀) (expand d₀)) u)), d') ∧
        Searching d₀ state.stateName
          ((l.flatMap (next d₀)).foldl (visit (keep d₀) (expand d₀)) u).seen d' from
    H t.frontier ⟨t.seen, []⟩ d hf h
  intro l
  induction l with
  | nil => exact fun u d _ hu => ⟨d, rfl, hu⟩
  | cons f l ih =>
      intro u d hl hu
      obtain ⟨hload, hname⟩ := hl f (by simp)
      obtain ⟨s, mid, hread, -, -, hmid, -⟩ := exec_read config hu.gives.clean hname
      have hst : Stored d f := stored_of_status (by
        rw [hu.gives.status]
        intro hs
        simp [expand, Node.isLoaded, hs] at hload)
      obtain ⟨hmd, hof⟩ := hmid hst
      have hnext : s.record.pointers.map toStateName = next d₀ f :=
        (congrArg Node.next hof).trans (hu.gives.next f)
      obtain ⟨d₁, hrun, hd₁⟩ := exec_visits config hu s.record.pointers
      rw [hnext] at hrun hd₁
      obtain ⟨d', hrest, hd'⟩ := ih _ d₁ (fun g hg => hl g (by simp [hg])) hd₁
      rw [List.flatMap_cons, List.foldl_append]
      refine ⟨d', ?_, hd'⟩
      rw [List.foldlM_cons, exec_bind_ok ((exec_bind_ok hread).trans (hmd ▸ hrun)), hrest]

theorem reached_isStateName {roots : List Name} (hroots : ∀ r ∈ roots, IsStateName r) {a : Name}
    (h : Reached (next d₀) (expand d₀) roots a) : IsStateName a := by
  obtain ⟨r, hr, hra⟩ := h
  cases hra with
  | refl => exact hroots a hr
  | tail _ hstep =>
      obtain ⟨m, -, rfl⟩ := List.mem_map.mp hstep.2
      exact isStateName_toStateName m

theorem exec_searchRounds {roots : List Name} {l : List Name} (fuel : ℕ) {prev : ℕ}
    {t : Search Name} (hroots : ∀ r ∈ roots, IsStateName r)
    (hprog : Progress (next d₀) (keep d₀) (expand d₀) roots prev t)
    (hl : loop (next d₀) (keep d₀) (expand d₀) fuel prev t = some l)
    (h : Searching d₀ state.stateName t.seen d) :
    ∃ d', exec (searchRounds config state fuel prev (ofSearch t)) d = (.ok l, d') ∧
      Searching d₀ state.stateName l d' := by
  induction fuel generalizing prev t d with
  | zero =>
      rw [loop] at hl
      split_ifs at hl with hstop
      obtain rfl := Option.some.inj hl
      refine ⟨d, ?_, h⟩
      rw [searchRounds, if_pos (by exact hstop)]
      rfl
  | succ fuel ih =>
      rw [loop] at hl
      split_ifs at hl with hstop
      · obtain rfl := Option.some.inj hl
        refine ⟨d, ?_, h⟩
        rw [searchRounds, if_pos (by exact hstop)]
        rfl
      · have hf : ∀ f ∈ t.frontier, expand d₀ f = true ∧ IsStateName f := by
          intro f hf
          have hfr := hprog.frontier_reached f hf
          exact ⟨hfr.1, reached_isStateName hroots hfr.2⟩
        obtain ⟨d₁, hrun, hd₁⟩ := exec_expandFrontier config h hf
        obtain ⟨d', hrest, hd'⟩ := ih hprog.round hl hd₁
        refine ⟨d', ?_, hd'⟩
        rw [searchRounds, if_neg (by exact hstop), exec_bind_ok hrun]
        exact hrest

/-! ## The bound on the rounds -/

theorem mem_storage {d : DagModule} {n : Name} (h : Stored d n) :
    ∃ block, (n, block) ∈ d.storage.list.toList := by
  obtain ⟨s, hs⟩ := Option.isSome_iff_exists.mp h
  obtain ⟨block, hb, -⟩ := stateAt_eq_some.mp hs
  exact ⟨block, ExtTreeMap.mem_toList_iff_getElem?_eq_some.mpr hb⟩

/-- A block is at least as long as the pointers of its state are many. -/
theorem next_length_le {d : DagModule} (h : Clean d) {e : Name × Block}
    (he : e ∈ d.storage.list.toList) : (next d e.1).length ≤ e.2.value.length := by
  have hb : d.storage.list[e.1]? = some e.2 := ExtTreeMap.mem_toList_iff_getElem?_eq_some.mp he
  unfold next node
  cases hs : stateAt d e.1 with
  | none => simp [Node.unknown, Node.next]
  | some s =>
      obtain ⟨t, ht, -⟩ := h.states e.1 e.2 hb (h.state hs).1
      obtain ⟨block, hb', hd⟩ := stateAt_eq_some.mp hs
      obtain rfl : e.2 = block := Option.some.inj (hb.symm.trans hb')
      rw [ht, decodeEdgeState_encodeEdgeState] at hd
      obtain rfl : t.stored = s := Except.ok.inj hd
      rw [ht]
      simpa [Node.next, Node.of, EdgeState.stored] using pointers_length_le_encode t

theorem loop_roundBound (hs : Searching d₀ state.stateName
      (first (keep d₀) (expand d₀) (state.record.pointers.map toStateName)).seen d) :
    (loop (next d₀) (keep d₀) (expand d₀) (roundBound state d) 0
      (first (keep d₀) (expand d₀) (state.record.pointers.map toStateName))).isSome := by
  have hnext : next d₀ = next d := by
    funext n
    exact (hs.gives.next n).symm
  have hlen : (d.storage.list.toList.flatMap fun e => next d₀ e.1).length ≤
      (d.storage.list.toList.map fun e => e.2.value.length).sum := by
    rw [List.length_flatMap, hnext]
    exact List.sum_le_sum fun e he => next_length_le hs.gives.clean he
  have hcard := List.toFinset_card_le (state.record.pointers.map toStateName ++
    d.storage.list.toList.flatMap fun e => next d₀ e.1)
  rw [List.length_append, List.length_map] at hcard
  refine loop_isSome (state.record.pointers.map toStateName ++
    d.storage.list.toList.flatMap fun e => next d₀ e.1).toFinset ?_ ?_ _ (progress_first _) ?_
  · intro r hr
    exact List.mem_toFinset.mpr (List.mem_append_left _ hr)
  · intro a _ he b hb
    have hst : Stored d a := stored_of_status (by
      rw [hs.gives.status]
      intro h
      simp [expand, Node.isLoaded, h] at he)
    obtain ⟨block, hmem⟩ := mem_storage hst
    exact List.mem_toFinset.mpr
      (List.mem_append_right _ (List.mem_flatMap.mpr ⟨(a, block), hmem, hb⟩))
  · unfold roundBound
    omega

/-! ## The search as a whole -/

/-- The search of a state with the given pointers finds `a`. -/
def Found (d : DagModule) (pointers : List Name) (a : Name) : Prop :=
  keep d a = true ∧ Reached (next d) (expand d) (pointers.map toStateName) a

theorem Found.isStateName {pointers : List Name} {a : Name} (h : Found d pointers a) :
    IsStateName a := reached_isStateName isStateName_of_mem h.2

theorem Found.congr {P : Name → Name → Prop} {d' : DagModule} (h : Gives P d d')
    (pointers : List Name) (a : Name) : Found d' pointers a ↔ Found d pointers a := by
  have hn : next d' = next d := funext h.next
  have he : expand d' = expand d := funext h.isLoaded
  have hk : keep d' a = keep d a := h.isOpen a
  unfold Found
  rw [hn, he, hk]

theorem exec_getAncestors (state : EdgeState) (h : Clean d) :
    ∃ l d', exec (getAncestors config state) d = (.ok l, d') ∧
      (∀ a, a ∈ l ↔ Found d state.record.pointers a) ∧ Searching d state.stateName l d' := by
  obtain ⟨d₁, hrun, hd₁⟩ :=
    exec_roots config state h state.record.pointers
  obtain ⟨l, hl⟩ := Option.isSome_iff_exists.mp (loop_roundBound hd₁)
  obtain ⟨d', hrest, hd'⟩ :=
    exec_searchRounds config _ isStateName_of_mem (progress_first _) hl hd₁
  refine ⟨l.reverse, d', ?_, ?_, ?_⟩
  · rw [getAncestors, exec_bind_ok hrun, exec_bind_ok (exec_get d₁), exec_bind_ok hrest]
    rfl
  · intro a
    rw [List.mem_reverse]
    exact mem_loop (fun a => Node.isOpen_of_isLoaded) _ (progress_first _) hl a
  · refine ⟨hd'.gives.congr ?_, hd'.waitlist⟩
    simp

end Search

end CertLedger.DagSearch
