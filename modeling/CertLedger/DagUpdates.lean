import CertLedger.DagSearch

/-!
# Adding a record

What the evaluation of a state and the arrival of a new record do to the nodes
and to the waitlist. All evaluations that a new record sets off search the same
shape, so their effects add up.
-/
namespace CertLedger.DagUpdates
open Std TlvCodec FallibleState NdnObjects RecordCodec EdgeStateCodec InterlockPolicies
open OrderedContainers FrontierSearch DagEngine DagStates DagSearch

variable {config : DagConfig}

theorem exec_evaluateWaitlist {state : EdgeState} (h : state.status ≠ .INTERLOCKED)
    (d : DagModule) :
    exec (evaluateWaitlist config state) d = (.ok (), { d with
      waitlist := moveTo d.waitlist (config.policy.evaluate state) state.stateName }) := by
  rw [evaluateWaitlist, if_neg h]
  rfl

variable [NdnCxx]

/-- The policy value of a node. -/
def value (config : DagConfig) (d : DagModule) (n : Name) : ℕ :=
  config.policy.value (members (node d n).descendants)

theorem value_congr {d d' : DagModule} {n : Name}
    (h : ∀ x, x ∈ (node d' n).descendants ↔ x ∈ (node d n).descendants) :
    value config d' n = value config d n := by
  unfold value
  congr 1
  ext x
  simpa using h x

theorem value_eq_zero_iff {d : DagModule} {n : Name} :
    value config d n = 0 ↔ ∀ x, x ∉ (node d n).descendants := by
  rw [value, value_eq_zero, Finset.eq_empty_iff_forall_notMem]
  exact forall_congr' fun x => not_congr (mem_members _ x)

/-! ## Giving descendants and moving what has been given some -/

structure Credits (config : DagConfig) (P : Name → Name → Prop) (d d' : DagModule) : Prop
    extends Gives P d d' where
  moved : ∀ a, (∃ x, P x a) → ∀ k, InBucket d'.waitlist k a ↔ k = value config d' a
  unmoved : ∀ a, (¬∃ x, P x a) → ∀ k, InBucket d'.waitlist k a ↔ InBucket d.waitlist k a

namespace Credits
variable {P Q : Name → Name → Prop} {d d' d'' : DagModule}

theorem refl (h : Clean d) : Credits config (fun _ _ => False) d d where
  toGives := Gives.refl h
  moved _ ha := ha.elim fun _ => False.elim
  unmoved _ _ _ := Iff.rfl

theorem congr (h : Credits config P d d') (hPQ : ∀ x a, P x a ↔ Q x a) :
    Credits config Q d d' := by
  have : P = Q := by
    funext x a
    exact propext (hPQ x a)
  exact this ▸ h

theorem trans (h : Credits config P d d') (h' : Credits config Q d' d'') :
    Credits config (fun x a => P x a ∨ Q x a) d d'' where
  toGives := h.toGives.trans h'.toGives
  moved a ha k := by
    by_cases hq : ∃ x, Q x a
    · exact h'.moved a hq k
    · have hp : ∃ x, P x a := by
        obtain ⟨x, hx⟩ := ha
        exact ⟨x, hx.resolve_right fun hxq => hq ⟨x, hxq⟩⟩
      have hsame : ∀ x, x ∈ (node d'' a).descendants ↔ x ∈ (node d' a).descendants := by
        intro x
        rw [h'.descendants]
        exact or_iff_left fun hx => hq ⟨x, hx⟩
      rw [h'.unmoved a hq, h.moved a hp, value_congr hsame]
  unmoved a ha k := by
    have hp : ¬∃ x, P x a := fun hx => ha (hx.imp fun _ => .inl)
    have hq : ¬∃ x, Q x a := fun hx => ha (hx.imp fun _ => .inr)
    rw [h'.unmoved a hq, h.unmoved a hp]

/-- Descendants given ahead, without moving, count for nothing in the end. -/
theorem of_gives (h : Gives P d d') (hw : d'.waitlist = d.waitlist)
    (h' : Credits config Q d' d'') (hPQ : ∀ x a, P x a → Q x a) : Credits config Q d d'' where
  toGives := (h.trans h'.toGives).congr fun x a => or_iff_right_of_imp (hPQ x a)
  moved := h'.moved
  unmoved a ha k := by rw [h'.unmoved a ha, hw]

end Credits

/-- One ancestor: read, given the descendant, written back and moved. -/
theorem exec_credit (config : DagConfig) {d : DagModule} (h : Clean d) {a : Name} (ha : IsStateName a)
    (hopen : (node d a).status ≠ .INTERLOCKED) (x : Name) :
    ∃ d', exec (do
        let aState ← getOrConstruct config a
        let aState := { aState with descendants := aState.descendants.insert x }
        update aState
        evaluateWaitlist config aState) d = (.ok (), d') ∧
      Credits config (fun y b => y = x ∧ b = a) d d' := by
  obtain ⟨s, mid, hread, hname, hof, -, hupdate⟩ := exec_read config h ha
  subst hname
  have hs : (give s x).status ≠ .INTERLOCKED := by
    rw [show (give s x).status = (node d s.stateName).status from congrArg Node.status hof]
    exact hopen
  have hgives := gives_write config h ha hof x
  have hdesc : (node (write config d (give s x)) s.stateName).descendants =
      (give s x).descendants := by
    rw [node_write, if_pos rfl]
    rfl
  refine ⟨_, (exec_bind_ok hread).trans ((exec_bind_ok (hupdate (give s x) rfl)).trans
    (exec_evaluateWaitlist hs _)), hgives.with_waitlist _, ?_, ?_⟩
  · intro b hb k
    obtain ⟨y, -, rfl⟩ := hb
    rw [inBucket_moveTo, if_pos rfl, evaluate_eq_value, value, node_with_waitlist, hdesc]
  · intro b hb k
    have hne : b ≠ (give s x).stateName := fun he => hb ⟨x, rfl, he⟩
    rw [inBucket_moveTo, if_neg hne, write_waitlist]

/-- The state becomes a descendant of everything its search finds. -/
theorem exec_evaluateAncestors (config : DagConfig) {d : DagModule} (h : Clean d) (state : EdgeState) :
    ∃ d', exec (evaluateAncestors config state) d = (.ok (), d') ∧
      Credits config (fun x a => x = state.stateName ∧ Found d state.record.pointers a) d d' := by
  obtain ⟨l, d₁, hsearch, hl, hd₁⟩ :=
    exec_getAncestors config state h
  have hfold := exec_foldlM (f := fun _ a => do
      let aState ← getOrConstruct config a
      let aState := { aState with descendants := aState.descendants.insert state.stateName }
      update aState
      evaluateWaitlist config aState)
    (fun done _ s => Credits config (fun x a => x = state.stateName ∧ a ∈ done) d₁ s) l
    (by
      intro done a rest _ s hdone hs
      have ha : Found d state.record.pointers a := (hl a).mp (by simp [hdone])
      have hopen : (node s a).status ≠ .INTERLOCKED := by
        rw [hs.status, hd₁.gives.status]
        exact of_decide_eq_true ha.1
      obtain ⟨s', hrun, hs'⟩ :=
        exec_credit config hs.clean ha.isStateName hopen state.stateName
      refine ⟨(), s', hrun, (hs.trans hs').congr ?_⟩
      intro x b
      rw [List.mem_append, List.mem_singleton]
      tauto)
    (b := ()) (s := d₁) ((Credits.refl hd₁.gives.clean).congr (by simp))
  obtain ⟨_, d', hrun, hd'⟩ := hfold
  refine ⟨d', (exec_bind_ok hsearch).trans hrun, ?_⟩
  refine (Credits.of_gives hd₁.gives hd₁.waitlist hd' ?_).congr ?_
  · exact fun x a ha => ⟨ha.1, ha.2.1⟩
  · exact fun x a => and_congr_right fun _ => hl a

theorem exec_evaluateNonGenesis (config : DagConfig) {d : DagModule} (h : Clean d) (state : EdgeState) :
    ∃ d', exec (evaluateNonGenesis config state) d = (.ok (), d') ∧
      Credits config (fun x a => x = state.stateName ∧ state.record.isGenesis = false ∧
        Found d state.record.pointers a) d d' := by
  by_cases hg : state.record.isGenesis = true
  · exact ⟨d, by simp [evaluateNonGenesis, hg], (Credits.refl h).congr (by simp [hg])⟩
  · obtain ⟨d', hrun, hd'⟩ := exec_evaluateAncestors config h state
    have hg' : state.record.isGenesis = false := by simpa using hg
    exact ⟨d', by simpa [evaluateNonGenesis, hg'] using hrun, hd'.congr (by simp [hg'])⟩

/-! ## A new record -/

/-- The record is loaded and in its bucket; no search has begun. -/
structure Loads (config : DagConfig) (r : Record) (d d₁ : DagModule) : Prop where
  clean : Clean d₁
  loaded : node d₁ (toStateName r.name) = ⟨.LOADED, r, (node d (toStateName r.name)).descendants⟩
  same : ∀ n, n ≠ toStateName r.name → node d₁ n = node d n
  stored : ∀ n, Stored d₁ n ↔ Stored d n ∨ n = toStateName r.name
  others : ∀ n, ¬IsStateName n → d₁.storage.list[n]? = d.storage.list[n]?
  bucket : ∀ n k, InBucket d₁.waitlist k n ↔
    if n = toStateName r.name then k = value config d₁ n else InBucket d.waitlist k n

/-- Which `x` endorses which `a` once the record is loaded: the record itself
and its pending descendants search. -/
def Endorses (d d₁ : DagModule) (r : Record) (x a : Name) : Prop :=
  (x = toStateName r.name ∨ x ∈ (node d (toStateName r.name)).descendants) ∧
    (node d₁ x).record.isGenesis = false ∧ Found d₁ (node d₁ x).record.pointers a

theorem exec_resolve {d₁ d₂ : DagModule} {P : Name → Name → Prop} (h : Credits config P d₁ d₂)
    (l : List Name) (hl : ∀ x ∈ l, (node d₁ x).status ≠ .INITIALIZED) :
    ∃ d', exec (l.foldlM (fun _ desc => do
        let descState ← getOrConstruct config desc
        evaluateNonGenesis config descState) ()) d₂ =
        (.ok (), d') ∧
      Credits config (fun x a => P x a ∨ (x ∈ l ∧ (node d₁ x).record.isGenesis = false ∧
        Found d₁ (node d₁ x).record.pointers a)) d₁ d' := by
  obtain ⟨_, d', hrun, hd'⟩ := exec_foldlM (f := fun _ desc => do
      let descState ← getOrConstruct config desc
      evaluateNonGenesis config descState)
    (fun done _ s => Credits config (fun x a => P x a ∨ (x ∈ done ∧
      (node d₁ x).record.isGenesis = false ∧
        Found d₁ (node d₁ x).record.pointers a)) d₁ s) l
    (by
      intro done x rest _ s hdone hs
      have hst : Stored s x := stored_of_status (by
        rw [hs.status]
        exact hl x (by simp [hdone]))
      obtain ⟨t, ht⟩ := Option.isSome_iff_exists.mp hst
      obtain ⟨state, mid, hread, hname, -, hmid, -⟩ :=
        exec_read config hs.clean (hs.clean.state ht).1
      obtain ⟨rfl, hof⟩ := hmid hst
      obtain ⟨s', hrun, hs'⟩ := exec_evaluateNonGenesis config hs.clean state
      have hrec : state.record = (node d₁ x).record :=
        (congrArg Node.record hof).trans (hs.record x)
      refine ⟨(), s', (exec_bind_ok hread).trans hrun, (hs.trans hs').congr ?_⟩
      intro y a
      rw [List.mem_append, List.mem_singleton, hname, hrec, Found.congr hs.toGives]
      grind)
    (b := ()) (s := d₂) (h.congr (by simp))
  exact ⟨d', hrun, hd'⟩

/-- Writing a state and moving its name. -/
def place (config : DagConfig) (d : DagModule) (state : EdgeState) : DagModule :=
  { write config d state with
    waitlist := moveTo (write config d state).waitlist (config.policy.evaluate state)
      state.stateName }

theorem loads_place {d : DagModule} (h : Clean d) {r : Record} {state : EdgeState}
    (hname : state.stateName = toStateName r.name) (hnode : Node.of state =
      ⟨.LOADED, r, (node d (toStateName r.name)).descendants⟩) :
    Loads config r d (place config d state) := by
  have hs : IsStateName state.stateName := hname ▸ isStateName_toStateName r.name
  have hstored : Node.of state.stored = Node.of state := by
    have hr : state.record.name = fromStateName state.stateName := by
      rw [show state.record = r from congrArg Node.record hnode, hname, fromStateName_toStateName]
    simp only [Node.of, EdgeState.stored, ← hr]
  have hput : ∀ n, node (place config d state) n = node (write config d state) n := fun _ => rfl
  refine ⟨(h.write hs).of_storage rfl, ?_, ?_, ?_, ?_, ?_⟩
  · rw [hput, node_write, if_pos hname, hstored, hnode]
  · intro n hn
    rw [hput, node_write, if_neg fun he => hn (he.symm.trans hname)]
  · intro n
    have hst : Stored (place config d state) n ↔ Stored (write config d state) n := Iff.rfl
    rw [hst, stored_write, hname, eq_comm]
  · exact fun n hn => write_list d fun he => hn (he ▸ hs)
  · intro n k
    rw [place, inBucket_moveTo, hname, write_waitlist]
    split_ifs with he
    · rw [evaluate_eq_value, value, node_with_waitlist, node_write, he, if_pos hname]
      rfl
    · rfl

/-- The run of `add` for a record that is not loaded yet. -/
theorem exec_add_new (config : DagConfig) {d : DagModule} (h : Clean d) {r : Record}
    (hnew : (node d (toStateName r.name)).status = .INITIALIZED)
    (hdesc : ∀ x ∈ (node d (toStateName r.name)).descendants,
      (node d x).status ≠ .INITIALIZED) :
    ∃ d₁ d', exec (add config r) d = (.ok (toStateName r.name), d') ∧ Loads config r d d₁ ∧
      Credits config (Endorses d d₁ r) d₁ d' := by
  obtain ⟨found, mid, hread, hname, hof, -, hupdate⟩ :=
    exec_read config h (isStateName_toStateName r.name)
  have hstatus : found.status = .INITIALIZED := (congrArg Node.status hof).trans hnew
  have hdescs : found.descendants = (node d (toStateName r.name)).descendants :=
    congrArg Node.descendants hof
  let state : EdgeState := { found with record := r, status := .LOADED }
  have hopen : state.status ≠ .INTERLOCKED := fun he => Status.noConfusion he
  have hmove : exec (evaluateWaitlist config state) (write config d state) =
    (.ok (), place config d state) := exec_evaluateWaitlist hopen _
  have hload : Loads config r d (place config d state) := loads_place h hname (by
    rw [← hdescs]
    rfl)
  generalize place config d state = d₁ at hmove hload
  obtain ⟨d₂, hown, hd₂⟩ := exec_evaluateNonGenesis config hload.clean state
  have hpending : ∀ x ∈ state.descendants.toList, (node d₁ x).status ≠ .INITIALIZED := by
    intro x hx
    by_cases he : x = toStateName r.name
    · rw [he, hload.loaded]
      exact fun hc => Status.noConfusion hc
    · rw [hload.same x he]
      exact hdesc x (hdescs ▸ ExtTreeSet.mem_toList.mp hx)
  obtain ⟨d', hrest, hd'⟩ := exec_resolve hd₂ state.descendants.toList hpending
  refine ⟨d₁, d', ?_, hload, hd'.congr ?_⟩
  · have hnewRecord : exec (onNewRecord config { found with record := r }) mid = (.ok (), d') :=
      (exec_bind_ok (hupdate state hname)).trans ((exec_bind_ok hmove).trans
        ((exec_bind_ok hown).trans hrest))
    rw [add, exec_bind_ok hread]
    dsimp only
    rw [hstatus]
    exact (exec_bind_ok hnewRecord).trans (by rw [exec_pure, hname])
  · intro x a
    have hself : (node d₁ (toStateName r.name)).record = state.record :=
      congrArg Node.record hload.loaded
    have hmem : x ∈ state.descendants.toList ↔
        x ∈ (node d (toStateName r.name)).descendants := by
      rw [← hdescs]
      exact ExtTreeSet.mem_toList
    have hn : state.stateName = toStateName r.name := hname
    rw [Endorses, hmem, hn, ← hself]
    grind

theorem exec_add_old {d : DagModule} (h : Clean d) {r : Record}
    (hold : (node d (toStateName r.name)).status ≠ .INITIALIZED) :
    exec (add config r) d = (.ok (toStateName r.name), d) := by
  obtain ⟨found, mid, hread, hname, -, hmid, -⟩ :=
    exec_read config h (isStateName_toStateName r.name)
  obtain ⟨rfl, hof⟩ := hmid (stored_of_status hold)
  have hstatus : found.status = (node mid (toStateName r.name)).status := congrArg Node.status hof
  rw [add, exec_bind_ok hread]
  cases hs : found.status with
  | INITIALIZED => exact (hold (hstatus ▸ hs)).elim
  | LOADED => simp [hname]
  | INTERLOCKED => simp [hname]

end CertLedger.DagUpdates
