import CertLedger.DagEffects
import CertLedger.DagRefinement

/-!
# What survives foreign blocks under state names

A block that is no state may take the name of one. Every operation that meets
the name then fails, and leaves what it has done so far. Whatever order this
happens in, endorsers stay sound, the waitlist lists only states that wait, and
a state is interlocked only with enough endorsers.
-/
namespace CertLedger.DagSafety
open Std TlvCodec FallibleState NdnObjects RecordCodec EdgeStateCodec InterlockPolicies
open OrderedContainers EndorsementDag DagEngine DagStates DagSearch DagUpdates DagEffects
open DagRefinement Relation

theorem once_moveTo {w : ExtTreeMap ℕ NameSet}
    (h : ∀ k j n, InBucket w k n → InBucket w j n → k = j) (v : ℕ) (m : Name) (k j : ℕ) (n : Name)
    (hk : InBucket (moveTo w v m) k n) (hj : InBucket (moveTo w v m) j n) : k = j := by
  rw [inBucket_moveTo] at hk hj
  split_ifs at hk hj
  · exact hk.trans hj.symm
  · exact h k j n hk hj

variable [NdnCxx]

/-! ## Storages whose states can be read -/

/-- Every block that decodes to a state is the encoding of one under its own name. -/
structure Legible (d : DagModule) : Prop where
  reliable : d.storage.faults = []
  states : ∀ n block s, d.storage.list[n]? = some block → decodeEdgeState block = .ok s →
    IsStateName n ∧ ∃ t, block = encodeEdgeState t ∧ t.stateName = n

namespace Legible
variable {d e : DagModule}

theorem of_clean (h : Clean d) : Legible d where
  reliable := h.reliable
  states n block s hb hd := by
    have hn := h.others n block s hb hd
    exact ⟨hn, h.states n block hb hn⟩

theorem state (h : Legible d) {n : Name} {s : EdgeState} (hs : stateAt d n = some s) :
    IsStateName n ∧ s.stateName = n ∧ s.stored = s := by
  obtain ⟨block, hb, hd⟩ := stateAt_eq_some.mp hs
  obtain ⟨hn, t, ht, htn⟩ := h.states n block s hb hd
  rw [ht, decodeEdgeState_encodeEdgeState] at hd
  obtain rfl := Except.ok.inj hd
  exact ⟨hn, htn, stored_stored t⟩

theorem keyed (h : Legible d) : Keyed d := fun _ _ hs => (h.state hs).2

theorem isStateName (h : Legible d) {n : Name} (hn : Stored d n) : IsStateName n := by
  obtain ⟨s, hs⟩ := Option.isSome_iff_exists.mp hn
  exact (h.state hs).1

theorem record_name (h : Legible d) {n : Name} (hn : Stored d n) :
    (node d n).record.name = fromStateName n := by
  obtain ⟨s, hs⟩ := Option.isSome_iff_exists.mp hn
  obtain ⟨-, hname, hst⟩ := h.state hs
  rw [node_of_stateAt hs, ← hname, ← hst]
  rfl

theorem toStateName_record_name (h : Legible d) {n : Name} (hn : Stored d n) :
    toStateName (node d n).record.name = n := by
  rw [h.record_name hn, (h.isStateName hn).toStateName_fromStateName]

theorem of_list (h : Legible d) (hlist : e.storage.list = d.storage.list)
    (hfaults : e.storage.faults = d.storage.faults) : Legible e where
  reliable := hfaults.trans h.reliable
  states n block s hb := h.states n block s (hlist ▸ hb)

theorem put (h : Legible d) {s : EdgeState} (hs : IsStateName s.stateName) :
    Legible (put d s) where
  reliable := h.reliable
  states n block t hb hd := by
    rw [put_list] at hb
    split_ifs at hb with he
    · exact ⟨he ▸ hs, s, (Option.some.inj hb).symm, he⟩
    · exact h.states n block t hb hd

end Legible

theorem exec_getOrConstruct_stored (config : DagConfig) {d : DagModule}
    (h : d.storage.faults = []) {n : Name} {s : EdgeState} (hs : stateAt d n = some s) :
    exec (getOrConstruct config n) d = (.ok s, d) := by
  obtain ⟨block, hb, hd⟩ := stateAt_eq_some.mp hs
  refine exec_tryCatch_ok ?_
  rw [exec_bind_ok (exec_getter h hb), hd, exec_lift]

theorem exec_getOrConstruct_free (config : DagConfig) {d : DagModule}
    (h : d.storage.faults = []) {n : Name} (hn : d.storage.list[n]? = none) :
    exec (getOrConstruct config n) d =
      (.ok (fresh config d n), put { d with ticks := d.ticks + 2 } (fresh config d n)) := by
  have hmade : exec (construct config n) d =
      (.ok (fresh config d n), { d with ticks := d.ticks + 2 }) := rfl
  refine (exec_tryCatch_error (exec_bind_error (exec_getter_none h hn))).trans ?_
  rw [exec_bind_ok hmade, exec_bind, adder, exec_onStorage, exec_addBlock_free h (by exact hn)]
  rfl

/-- A read finds the state, makes it, or fails on a block that is no state. -/
theorem exec_getOrConstruct_cases (config : DagConfig) {d : DagModule}
    (h : d.storage.faults = []) (n : Name) :
    (∃ s, stateAt d n = some s ∧ exec (getOrConstruct config n) d = (.ok s, d)) ∨
      (d.storage.list[n]? = none ∧ exec (getOrConstruct config n) d =
        (.ok (fresh config d n), put { d with ticks := d.ticks + 2 } (fresh config d n))) ∨
      ∃ b e, d.storage.list[n]? = some b ∧ stateAt d n = none ∧
        exec (getOrConstruct config n) d = (.error e, { d with ticks := d.ticks + 2 }) := by
  cases hb : d.storage.list[n]? with
  | none => exact .inr (.inl ⟨rfl, exec_getOrConstruct_free config h hb⟩)
  | some block =>
      cases hd : decodeEdgeState block with
      | ok s =>
          have hs : stateAt d n = some s := stateAt_eq_some.mpr ⟨block, hb, hd⟩
          exact .inl ⟨s, hs, exec_getOrConstruct_stored config h hs⟩
      | error e =>
          refine .inr (.inr ⟨block, .alreadyExists n, rfl, by simp [stateAt, hb, hd,
            Except.toOption], ?_⟩)
          have hmade : exec (construct config n) d =
              (.ok (fresh config d n), { d with ticks := d.ticks + 2 }) := rfl
          have hread : exec (do let block ← getter n; lift (decodeEdgeState block)) d =
              (.error e, d) := by
            rw [exec_bind_ok (exec_getter h hb), hd, exec_lift]
          refine (exec_tryCatch_error hread).trans ?_
          rw [exec_bind_ok hmade, exec_bind, adder, exec_onStorage,
            exec_addBlock_taken h (by exact hb)]
          rfl

/-- A read changes no node, and what it returns is stored from then on. -/
theorem legible_read (config : DagConfig) {d : DagModule} (h : Legible d) {n : Name}
    (hn : IsStateName n) :
    ∃ r mid, exec (getOrConstruct config n) d = (r, mid) ∧ Legible mid ∧
      mid.waitlist = d.waitlist ∧ (∀ m, node mid m = node d m) ∧
      (∀ m, Stored d m → Stored mid m) ∧
      ∀ s, r = .ok s → s.stateName = n ∧ stateAt mid n = some s.stored := by
  rcases exec_getOrConstruct_cases config h.reliable n with
    ⟨s, hs, hrun⟩ | ⟨hfree, hrun⟩ | ⟨b, e, -, -, hrun⟩
  · refine ⟨_, d, hrun, h, rfl, fun _ => rfl, fun _ => id, ?_⟩
    intro t ht
    obtain rfl := Except.ok.inj ht
    obtain ⟨-, hname, hst⟩ := h.state hs
    exact ⟨hname, by rw [hs, hst]⟩
  · have hnone : stateAt d n = none := by simp [stateAt, hfree]
    have hticks : Legible { d with ticks := d.ticks + 2 } := h.of_list rfl rfl
    refine ⟨_, _, hrun, hticks.put hn, rfl, ?_, ?_, ?_⟩
    · intro m
      rw [node_put]
      split_ifs with hm
      · obtain rfl : n = m := hm
        exact (node_of_none hnone).symm
      · rfl
    · exact fun m hm => (stored_put _ _ m).mpr (.inl hm)
    · intro t ht
      obtain rfl := Except.ok.inj ht
      exact ⟨rfl, (stateAt_put _ _ _).trans (if_pos rfl)⟩
  · exact ⟨_, _, hrun, h.of_list rfl rfl, rfl, fun _ => rfl, fun _ => id, fun t ht => by cases ht⟩

/-- A state that is stored can be written anew. -/
theorem legible_update {d : DagModule} (h : Legible d) {s : EdgeState}
    (hs : Stored d s.stateName) : exec (update s) d = (.ok (), put d s) ∧ Legible (put d s) := by
  obtain ⟨t, ht⟩ := Option.isSome_iff_exists.mp hs
  obtain ⟨block, hb, -⟩ := stateAt_eq_some.mp ht
  exact ⟨exec_update h.reliable hb, h.put (h.state ht).1⟩

/-! ## The invariant -/

/-- What holds of the states and the waitlist when all interlocking was from `t` up. -/
structure Fair (config : DagConfig) (t : ℕ) (d : DagModule) : Prop where
  legible : Legible d
  sound : (abs d).Sound
  listed : ∀ k n, InBucket d.waitlist k n →
    Stored d n ∧ (node d n).status ≠ .INTERLOCKED ∧ k ≤ value config d n
  once : ∀ k j n, InBucket d.waitlist k n → InBucket d.waitlist j n → k = j
  waiting : ∀ n, (node d n).status = .LOADED → ∃ k, InBucket d.waitlist k n
  earned : ∀ n, (node d n).status = .INTERLOCKED → t ≤ value config d n

section
variable {config : DagConfig} {t : ℕ} {d d' : DagModule}

theorem value_le {n : Name} (h : ∀ x ∈ (node d n).descendants, x ∈ (node d' n).descendants) :
    value config d n ≤ value config d' n := by
  refine value_mono _ fun x hx => ?_
  simp only [mem_members] at hx ⊢
  exact h x hx

/-- Nodes that are given endorsers which reach them, and nothing else. -/
structure Gains (d d' : DagModule) : Prop where
  legible : Legible d'
  status : ∀ n, (node d' n).status = (node d n).status
  record : ∀ n, (node d' n).record = (node d n).record
  kept : ∀ n, ∀ x ∈ (node d n).descendants, x ∈ (node d' n).descendants
  gained : ∀ n, ∀ x ∈ (node d' n).descendants,
    x ∈ (node d n).descendants ∨ x ∈ (abs d).counted ∧ TransGen (abs d).edge x n
  stored : ∀ n, Stored d n → Stored d' n

namespace Gains

theorem of_nodes (h : Legible d') (hnode : ∀ n, node d' n = node d n)
    (hstored : ∀ n, Stored d n → Stored d' n) : Gains d d' where
  legible := h
  status n := by rw [hnode]
  record n := by rw [hnode]
  kept n x hx := hnode n ▸ hx
  gained n x hx := .inl (hnode n ▸ hx)
  stored := hstored

theorem edge (h : Gains d d') : (abs d').edge = (abs d).edge := by
  funext u v
  refine propext ?_
  rw [abs_edge, abs_edge, h.status, Node.next, Node.next, h.record]

theorem counted (h : Gains d d') : (abs d').counted = (abs d).counted := by
  ext u
  rw [mem_counted, mem_counted, h.status, h.record]

theorem sound (h : Gains d d') (hs : (abs d).Sound) : (abs d').Sound := by
  intro a x hx
  rw [Dag.endorsers, h.edge, h.counted]
  rcases h.gained a x hx with hold | hnew
  · exact hs a hold
  · exact hnew

end Gains

namespace Fair

/-- What is given does not unsettle the waitlist, wherever its names are moved meanwhile. -/
theorem gains (h : Fair config t d) (hg : Gains d d')
    (hlisted : ∀ k n, InBucket d'.waitlist k n → InBucket d.waitlist k n ∨
      Stored d' n ∧ (node d' n).status ≠ .INTERLOCKED ∧ k ≤ value config d' n)
    (honce : ∀ k j n, InBucket d'.waitlist k n → InBucket d'.waitlist j n → k = j)
    (hwaiting : ∀ k n, InBucket d.waitlist k n → ∃ j, InBucket d'.waitlist j n) :
    Fair config t d' where
  legible := hg.legible
  sound := hg.sound h.sound
  listed k n hin := by
    rcases hlisted k n hin with hold | hnew
    · obtain ⟨hst, hopen, hk⟩ := h.listed k n hold
      exact ⟨hg.stored n hst, hg.status n ▸ hopen, hk.trans (value_le (hg.kept n))⟩
    · exact hnew
  once := honce
  waiting n hn := by
    obtain ⟨k, hk⟩ := h.waiting n (hg.status n ▸ hn)
    exact hwaiting k n hk
  earned n hn := (h.earned n (hg.status n ▸ hn)).trans (value_le (hg.kept n))

theorem same_waitlist (h : Fair config t d) (hg : Gains d d')
    (hw : ∀ k n, InBucket d'.waitlist k n ↔ InBucket d.waitlist k n) : Fair config t d' :=
  h.gains hg (fun k n hin => .inl ((hw k n).mp hin))
    (fun k j n hk hj => h.once k j n ((hw k n).mp hk) ((hw j n).mp hj))
    fun k n hin => ⟨k, (hw k n).mpr hin⟩

end Fair

/-- Writing a stored state with one more endorser. -/
theorem gains_put (h : Legible d) {s : EdgeState} (hs : stateAt d s.stateName = some s.stored)
    {x : Name} (hx : x ∈ (abs d).counted) (hreach : TransGen (abs d).edge x s.stateName) :
    Gains d (put d (give s x)) := by
  have hnode : Node.of (give s x).stored = { node d s.stateName with
      descendants := (node d s.stateName).descendants.insert x } := by
    rw [node_of_stateAt hs]
    rfl
  have hput : ∀ m, node (put d (give s x)) m = if s.stateName = m then
      { node d m with descendants := (node d m).descendants.insert x } else node d m := by
    intro m
    rw [node_put, hnode]
    split_ifs with he
    · rw [he]
    · rfl
  have hstored : Stored d s.stateName := by simp [Stored, hs]
  refine ⟨(legible_update h (s := give s x) hstored).2, ?_, ?_, ?_, ?_, ?_⟩
  · intro m
    rw [hput]
    split_ifs <;> rfl
  · intro m
    rw [hput]
    split_ifs <;> rfl
  · intro m y hy
    rw [hput]
    split_ifs
    · exact (mem_insert _ _ _).mpr (.inr hy)
    · exact hy
  · intro m y hy
    rw [hput] at hy
    split_ifs at hy with he
    · rcases (mem_insert _ _ _).mp hy with rfl | hold
      · exact .inr ⟨hx, he ▸ hreach⟩
      · exact .inl hold
    · exact .inl hy
  · exact fun m hm => (stored_put d _ m).mpr (.inl hm)

/-- A stored open state is moved to the bucket of its value. -/
theorem fair_move (h : Fair config t d) {s : EdgeState}
    (hs : stateAt d s.stateName = some s.stored) (hopen : s.status ≠ .INTERLOCKED) :
    Fair config t { d with
      waitlist := moveTo d.waitlist (config.policy.evaluate s) s.stateName } := by
  have hvalue : value config d s.stateName = config.policy.evaluate s := by
    rw [value, node_of_stateAt hs, evaluate_eq_value]
    rfl
  have hstatus : (node d s.stateName).status ≠ .INTERLOCKED := by
    rw [node_of_stateAt hs]
    exact hopen
  have hin : ∀ j b, InBucket (moveTo d.waitlist (config.policy.evaluate s) s.stateName) j b ↔
      if b = s.stateName then j = config.policy.evaluate s else InBucket d.waitlist j b :=
    fun _ _ => inBucket_moveTo _ _ _ _ _
  refine h.gains (Gains.of_nodes (h.legible.of_list rfl rfl) (fun _ => rfl) fun _ => id) ?_
    (once_moveTo h.once _ _) ?_
  · intro k n hk
    rw [hin] at hk
    split_ifs at hk with hn
    · subst hn
      refine .inr ⟨?_, hstatus, (hk.trans hvalue.symm).le⟩
      simp only [Stored]
      exact hs ▸ rfl
    · exact .inl hk
  · intro k n hk
    by_cases hn : n = s.stateName
    · exact ⟨_, (hin _ n).mpr (by rw [if_pos hn])⟩
    · exact ⟨k, (hin k n).mpr (by rwa [if_neg hn])⟩

theorem place_stored {s : EdgeState} (hs : Stored d s.stateName) :
    place config d s = { put d s with
      waitlist := moveTo d.waitlist (config.policy.evaluate s) s.stateName } := by
  rw [place, write_waitlist, write, settle_of_stored hs]

/-! ### Loading a state -/

section
variable {s : EdgeState} (hs : stateAt d s.stateName = some s.stored)
include hs

theorem node_load_self (r : Record) :
    node (put d { s with record := r, status := .LOADED }) s.stateName =
      { node d s.stateName with
        status := .LOADED
        record := { r with name := fromStateName s.stateName } } := by
  rw [node_put, if_pos rfl, node, hs]
  rfl

theorem descendants_load (r : Record) (n : Name) :
    (node (put d { s with record := r, status := .LOADED }) n).descendants =
      (node d n).descendants := by
  by_cases hn : s.stateName = n
  · subst hn
    rw [node_load_self hs]
  · rw [node_put, if_neg hn]

theorem value_load (r : Record) (n : Name) :
    value config (put d { s with record := r, status := .LOADED }) n = value config d n :=
  value_congr fun x => by rw [descendants_load hs]

/-- An old path does not start at the state, which was not loaded. -/
theorem sound_load (h : (abs d).Sound) (hpending : s.status = .INITIALIZED) (r : Record) :
    (abs (put d { s with record := r, status := .LOADED })).Sound := by
  have hother : ∀ u, (node d u).status ≠ .INITIALIZED →
      node (put d { s with record := r, status := .LOADED }) u = node d u := by
    intro u hu
    rw [node_put, if_neg]
    rintro rfl
    rw [node_of_stateAt hs] at hu
    exact hu hpending
  intro a x hx
  rw [mem_desc, descendants_load hs] at hx
  obtain ⟨hcount, hxa⟩ := h a hx
  refine ⟨?_, TransGen.mono (fun u v huv => ?_) x a hxa⟩
  · rw [mem_counted, hother x hcount.1]
    exact hcount
  · rw [abs_edge, hother u huv.1]
    exact huv

end

/-- A stored state becomes the state of a record and waits. -/
theorem fair_load (h : Fair config t d) {s : EdgeState}
    (hs : stateAt d s.stateName = some s.stored) (hpending : s.status = .INITIALIZED)
    (r : Record) : Fair config t (place config d { s with record := r, status := .LOADED }) := by
  let loaded : EdgeState := { s with record := r, status := .LOADED }
  have hstored : Stored d s.stateName := by simp [Stored, hs]
  have hother : ∀ n, n ≠ s.stateName → node (put d loaded) n = node d n := by
    intro n hn
    rw [node_put, if_neg fun he => hn he.symm]
  have hself : node (put d loaded) s.stateName = _ := node_load_self hs r
  have hvalue : ∀ n, value config (put d loaded) n = value config d n := value_load hs r
  have hnotLocked : ∀ n, (node (put d loaded) n).status = .INTERLOCKED →
      (node d n).status = .INTERLOCKED := by
    intro n hn
    by_cases he : n = s.stateName
    · rw [he, hself] at hn
      cases hn
    · exact hother n he ▸ hn
  -- it is not in its bucket yet
  have hmid : ∀ n k, n ≠ s.stateName → InBucket d.waitlist k n → Stored (put d loaded) n ∧
      (node (put d loaded) n).status ≠ .INTERLOCKED ∧ k ≤ value config (put d loaded) n := by
    intro n k hn hin
    obtain ⟨hst, hopen, hk⟩ := h.listed k n hin
    refine ⟨(stored_put d loaded n).mpr (.inl hst), ?_, hvalue n ▸ hk⟩
    rw [hother n hn]
    exact hopen
  have hin : ∀ j b, InBucket (moveTo d.waitlist (config.policy.evaluate s) s.stateName) j b ↔
      if b = s.stateName then j = config.policy.evaluate s else InBucket d.waitlist j b :=
    fun _ _ => inBucket_moveTo _ _ _ _ _
  have heval : value config (put d loaded) s.stateName = config.policy.evaluate s := by
    rw [hvalue, value, node, hs, evaluate_eq_value]
    rfl
  suffices H : Fair config t { put d loaded with
      waitlist := moveTo d.waitlist (config.policy.evaluate s) s.stateName } by
    rw [place_stored (s := loaded) hstored]
    exact H
  refine ⟨((legible_update h.legible (s := loaded) hstored).2).of_list rfl rfl,
    sound_load hs h.sound hpending r, ?_, once_moveTo h.once _ _, ?_, ?_⟩
  · intro k n hk
    dsimp only at hk
    rw [hin] at hk
    split_ifs at hk with hn
    · subst hn
      refine ⟨(stored_put d loaded _).mpr (.inr rfl), ?_, (hk.trans heval.symm).le⟩
      change (node (put d loaded) s.stateName).status ≠ _
      rw [hself]
      exact fun he => Status.noConfusion he
    · exact hmid n k hn hk
  · intro n hn
    by_cases he : n = s.stateName
    · exact ⟨_, (hin _ n).mpr (by rw [if_pos he])⟩
    · obtain ⟨k, hk⟩ := h.waiting n (hother n he ▸ hn)
      exact ⟨k, (hin k n).mpr (by rwa [if_neg he])⟩
  · intro n hn
    exact (h.earned n (hnotLocked n hn)).trans (hvalue n).ge

/-! ## The programs of the engine -/

/-- A fair module with the statuses and the records of another one. -/
structure Shaped (config : DagConfig) (t : ℕ) (d₀ d : DagModule) : Prop where
  fair : Fair config t d
  status : ∀ n, (node d n).status = (node d₀ n).status
  record : ∀ n, (node d n).record = (node d₀ n).record

section
variable {d₀ : DagModule} {α : Type} {Q : α → Prop}

theorem Shaped.gains (h : Shaped config t d₀ d) (hg : Gains d d') (hf : Fair config t d') :
    Shaped config t d₀ d' where
  fair := hf
  status n := (hg.status n).trans (h.status n)
  record n := (hg.record n).trans (h.record n)

theorem Shaped.edge (h : Shaped config t d₀ d) : (abs d).edge = (abs d₀).edge := by
  funext u v
  refine propext ?_
  rw [abs_edge, abs_edge, h.status, Node.next, Node.next, h.record]

theorem Shaped.counted (h : Shaped config t d₀ d) : (abs d).counted = (abs d₀).counted := by
  ext u
  rw [mem_counted, mem_counted, h.status, h.record]

/-- What follows a read may rely on the state being stored as it was returned. -/
theorem ensures_read {n : Name} (hn : IsStateName n) {k : EdgeState → DagM α}
    (hk : ∀ s d, Shaped config t d₀ d → s.stateName = n → stateAt d s.stateName = some s.stored →
      Shaped config t d₀ (exec (k s) d).2 ∧ ∀ a, (exec (k s) d).1 = .ok a → Q a) :
    Ensures (Shaped config t d₀) Q (getOrConstruct config n >>= k) := by
  intro d h
  obtain ⟨r, mid, hrun, hmid, hw, hnode, hstored, hres⟩ := legible_read config h.fair.legible hn
  have hg := Gains.of_nodes hmid hnode hstored
  have h' := h.gains hg (h.fair.same_waitlist hg fun _ _ => by rw [hw])
  cases r with
  | error e =>
      rw [exec_bind_error hrun]
      exact ⟨h', fun a ha => by cases ha⟩
  | ok s =>
      obtain ⟨hname, hs⟩ := hres s rfl
      rw [exec_bind_ok hrun]
      exact hk s mid h' hname (hname.symm ▸ hs)

/-- Giving a stored state an endorser that reaches it. -/
theorem shaped_give (h : Shaped config t d₀ d) {s : EdgeState}
    (hs : stateAt d s.stateName = some s.stored) {x : Name} (hx : x ∈ (abs d₀).counted)
    (hreach : TransGen (abs d₀).edge x s.stateName) :
    exec (update (give s x)) d = (.ok (), put d (give s x)) ∧
      Shaped config t d₀ (put d (give s x)) := by
  have hg := gains_put h.fair.legible hs (h.counted ▸ hx) (h.edge ▸ hreach)
  exact ⟨(legible_update h.fair.legible (s := give s x) (by simp [Stored, hs])).1,
    h.gains hg (h.fair.same_waitlist hg fun _ _ => Iff.rfl)⟩

/-- What a search from `x` may have met. -/
structure Met (d₀ : DagModule) (x : Name) (search : AncestorSearch) : Prop where
  ancestors : ∀ a ∈ search.ancestors, TransGen (abs d₀).edge x a
  frontier : ∀ f ∈ search.frontier,
    TransGen (abs d₀).edge x f ∧ (node d₀ f).status ≠ .INITIALIZED

theorem isStateName_of_reached {x a : Name} (h : TransGen (abs d₀).edge x a) : IsStateName a := by
  obtain ⟨u, -, -, ha⟩ := TransGen.tail'_iff.mp h
  obtain ⟨m, -, rfl⟩ := List.mem_map.mp ha
  exact isStateName_toStateName m

variable {state : EdgeState} (hx : state.stateName ∈ (abs d₀).counted)
include hx

theorem ensures_visitParent (testSeen : Bool) {search : AncestorSearch}
    (hm : Met d₀ state.stateName search) {ptr : Name}
    (hptr : TransGen (abs d₀).edge state.stateName (toStateName ptr)) :
    Ensures (Shaped config t d₀) (Met d₀ state.stateName)
      (visitParent config testSeen state search ptr) := by
  refine ensures_read (isStateName_toStateName ptr) fun parent d h hname hs => ?_
  have hreach : TransGen (abs d₀).edge state.stateName parent.stateName := hname ▸ hptr
  have hancestors : ∀ a ∈ (if !(testSeen && decide (parent.stateName ∈ search.ancestors)) ∧
      parent.status ≠ .INTERLOCKED then search.ancestors ++ [parent.stateName]
      else search.ancestors), TransGen (abs d₀).edge state.stateName a := by
    intro a ha
    split_ifs at ha
    · rcases List.mem_append.mp ha with ha | ha
      · exact hm.ancestors a ha
      · exact List.mem_singleton.mp ha ▸ hreach
    · exact hm.ancestors a ha
  dsimp only
  split
  · obtain ⟨hrun, h'⟩ := shaped_give h hs hx hreach
    rw [exec_bind_ok hrun]
    refine ⟨h', fun b hb => ?_⟩
    cases hb
    exact ⟨hancestors, hm.frontier⟩
  · rename_i hpending
    split
    · refine ⟨h, fun b hb => ?_⟩
      cases hb
      refine ⟨hancestors, fun f hf => ?_⟩
      rcases List.mem_append.mp hf with hf | hf
      · exact hm.frontier f hf
      · rw [List.mem_singleton.mp hf]
        refine ⟨hreach, ?_⟩
        rw [← h.status, node, hs]
        exact hpending
    · refine ⟨h, fun b hb => ?_⟩
      cases hb
      exact ⟨hancestors, hm.frontier⟩

theorem ensures_visitParents (testSeen : Bool) {search : AncestorSearch}
    (hm : Met d₀ state.stateName search) (ptrs : List Name)
    (hptrs : ∀ ptr ∈ ptrs, TransGen (abs d₀).edge state.stateName (toStateName ptr)) :
    Ensures (Shaped config t d₀) (Met d₀ state.stateName)
      (ptrs.foldlM (visitParent config testSeen state) search) :=
  Ensures.foldlM (fun _ hb ptr hptr => ensures_visitParent hx testSeen hb (hptrs ptr hptr)) hm

theorem ensures_expandFrontier {search : AncestorSearch} (hm : Met d₀ state.stateName search) :
    Ensures (Shaped config t d₀) (Met d₀ state.stateName)
      (expandFrontier config state search) := by
  refine Ensures.foldlM (fun acc hacc f hf => ?_)
    (⟨hm.ancestors, fun f hf => by simp at hf⟩ : Met d₀ state.stateName ⟨search.ancestors, []⟩)
  obtain ⟨hreach, hloaded⟩ := hm.frontier f hf
  refine ensures_read (isStateName_of_reached hreach) fun s d h hname hs => ?_
  refine ensures_visitParents hx true hacc s.record.pointers (fun ptr hptr => ?_) d h
  refine hreach.tail ⟨hloaded, ?_⟩
  have hrec : s.record.pointers = (node d₀ f).record.pointers := by
    rw [← h.record, ← hname, node, hs]
    rfl
  exact List.mem_map_of_mem (hrec ▸ hptr)

theorem ensures_searchRounds (fuel prev : ℕ) {search : AncestorSearch}
    (hm : Met d₀ state.stateName search) :
    Ensures (Shaped config t d₀) (fun l => ∀ a ∈ l, TransGen (abs d₀).edge state.stateName a)
      (searchRounds config state fuel prev search) := by
  induction fuel generalizing prev search with
  | zero =>
      rw [searchRounds]
      split
      · exact Ensures.pure hm.ancestors
      · exact Ensures.throw _
  | succ fuel ih =>
      rw [searchRounds]
      split
      · exact Ensures.pure hm.ancestors
      · exact Ensures.bind (ensures_expandFrontier hx hm) fun next hnext => ih _ hnext

theorem ensures_getAncestors (hptrs : ∀ ptr ∈ state.record.pointers,
      (abs d₀).edge state.stateName (toStateName ptr)) :
    Ensures (Shaped config t d₀) (fun l => ∀ a ∈ l, TransGen (abs d₀).edge state.stateName a)
      (getAncestors config state) := by
  have hstart : Met d₀ state.stateName ⟨[], []⟩ := by constructor <;> simp
  refine Ensures.bind (ensures_visitParents hx false hstart _ fun ptr hptr =>
    TransGen.single (hptrs ptr hptr)) fun search hsearch => ?_
  intro d h
  rw [exec_bind_ok (exec_get d)]
  refine Ensures.bind (ensures_searchRounds hx _ _ hsearch) (fun l hl => ?_) d h
  exact Ensures.pure fun a ha => hl a (List.mem_reverse.mp ha)

theorem ensures_evaluateAncestors (hptrs : ∀ ptr ∈ state.record.pointers,
      (abs d₀).edge state.stateName (toStateName ptr)) :
    Ensures (Shaped config t d₀) (fun _ => True) (evaluateAncestors config state) := by
  refine Ensures.bind (ensures_getAncestors hx hptrs) fun l hl =>
    Ensures.foldlM (fun _ _ a ha => ?_) trivial
  have hreach := hl a ha
  refine ensures_read (isStateName_of_reached hreach) fun s d h hname hs => ?_
  obtain ⟨hrun, h'⟩ := shaped_give h hs hx (hname.symm ▸ hreach)
  rw [exec_bind_ok hrun, evaluateWaitlist]
  split
  · exact ⟨h', fun _ _ => trivial⟩
  · rename_i hopen
    have hput : stateAt (put d (give s state.stateName)) (give s state.stateName).stateName =
        some (give s state.stateName).stored := by
      rw [stateAt_put, if_pos rfl]
    refine ⟨h'.gains (Gains.of_nodes (h'.fair.legible.of_list rfl rfl) (fun _ => rfl) fun _ => id)
      (fair_move h'.fair hput hopen), fun _ _ => trivial⟩

end

/-- A loaded state gives itself to what it reaches, unless it is a genesis record's. -/
theorem ensures_evaluateNonGenesis {d₀ : DagModule} {state : EdgeState}
    (hloaded : (node d₀ state.stateName).status ≠ .INITIALIZED)
    (hrecord : state.record.type = (node d₀ state.stateName).record.type ∧
      state.record.pointers = (node d₀ state.stateName).record.pointers) :
    Ensures (Shaped config t d₀) (fun _ => True) (evaluateNonGenesis config state) := by
  unfold evaluateNonGenesis
  split
  · rename_i hg
    refine ensures_evaluateAncestors ⟨hloaded, ?_⟩ fun ptr hptr => ⟨hloaded, ?_⟩
    · simpa [Record.isGenesis, hrecord.1] using hg
    · exact List.mem_map_of_mem (hrecord.2 ▸ hptr)
  · exact Ensures.pure trivial

/-- What an addition may do to statuses and records. -/
structure Takes (r : Record) (d d' : DagModule) : Prop where
  other : ∀ n, n ≠ toStateName r.name →
    (node d' n).status = (node d n).status ∧ (node d' n).record = (node d n).record
  self : (node d' (toStateName r.name)).status = (node d (toStateName r.name)).status ∧
      (node d' (toStateName r.name)).record = (node d (toStateName r.name)).record ∨
    (node d (toStateName r.name)).status = .INITIALIZED ∧
      (node d' (toStateName r.name)).status = .LOADED ∧ (node d' (toStateName r.name)).record = r

namespace Takes
variable {r : Record}

theorem of_same (hs : ∀ n, (node d' n).status = (node d n).status)
    (hr : ∀ n, (node d' n).record = (node d n).record) : Takes r d d' :=
  ⟨fun n _ => ⟨hs n, hr n⟩, .inl ⟨hs _, hr _⟩⟩

theorem kept (h : Takes r d d') {n : Name} (hn : (node d n).status ≠ .INITIALIZED) :
    (node d' n).status = (node d n).status ∧ (node d' n).record = (node d n).record := by
  by_cases he : n = toStateName r.name
  · subst he
    exact h.self.resolve_right fun hnew => hn hnew.1
  · exact h.other n he

end Takes

/-- The pending endorsers of a record search once it is loaded. -/
theorem shaped_resolve {d₁ : DagModule} (h : Fair config t d₁) (state : EdgeState)
    (hs : stateAt d₁ state.stateName = some state.stored) (hloaded : state.status = .LOADED) :
    Ensures (Shaped config t d₁) (fun _ => True) (do
      evaluateNonGenesis config state
      state.descendants.toList.foldlM (fun _ desc => do
        let descState ← getOrConstruct config desc
        evaluateNonGenesis config descState) ()) := by
  have hnode : node d₁ state.stateName = Node.of state.stored := node_of_stateAt hs
  refine Ensures.bind (ensures_evaluateNonGenesis ?_ ?_) fun _ _ =>
    Ensures.foldlM (fun _ _ desc hdesc => ?_) trivial
  · rw [hnode]
    exact fun he => Status.noConfusion (hloaded.symm.trans he)
  · rw [hnode]
    exact ⟨rfl, rfl⟩
  · have hmem : desc ∈ (node d₁ state.stateName).descendants := by
      rw [hnode]
      exact ExtTreeSet.mem_toList.mp hdesc
    have hcount := (h.sound _ hmem).1
    refine ensures_read (h.legible.isStateName (stored_of_status hcount.1)) ?_
    intro s d h' hname hs'
    have hofs : node d s.stateName = Node.of s.stored := node_of_stateAt hs'
    have hrec : s.record.type = (node d₁ s.stateName).record.type ∧
        s.record.pointers = (node d₁ s.stateName).record.pointers := by
      rw [← h'.record, hofs]
      exact ⟨rfl, rfl⟩
    exact ensures_evaluateNonGenesis (hname ▸ hcount.1) hrec d h'

theorem fair_onNewRecord (h : Fair config t d) {s : EdgeState}
    (hs : stateAt d s.stateName = some s.stored) (hpending : s.status = .INITIALIZED) {r : Record}
    (hname : s.stateName = toStateName r.name) :
    Fair config t (exec (onNewRecord config { s with record := r }) d).2 ∧
      Takes r d (exec (onNewRecord config { s with record := r }) d).2 := by
  let state : EdgeState := { s with record := r, status := .LOADED }
  have hstored : Stored d state.stateName := by simp [Stored, state, hs]
  have hload : Fair config t (place config d state) := fair_load h hs hpending r
  have hnode : ∀ n, node (place config d state) n =
      if state.stateName = n then Node.of state.stored else node d n := by
    rw [place_stored hstored]
    exact node_put d state
  have hself : stateAt (place config d state) state.stateName = some state.stored := by
    rw [place_stored hstored]
    exact (stateAt_put d state _).trans (if_pos rfl)
  have hmove : exec (evaluateWaitlist config state) (put d state) =
      (.ok (), place config d state) := by
    rw [place_stored hstored]
    exact exec_evaluateWaitlist (fun he => Status.noConfusion he) _
  have hrun : exec (onNewRecord config { s with record := r }) d = exec (do
      evaluateNonGenesis config state
      state.descendants.toList.foldlM (fun _ desc => do
        let descState ← getOrConstruct config desc
        evaluateNonGenesis config descState) ()) (place config d state) :=
    (exec_bind_ok (legible_update h.legible hstored).1).trans (exec_bind_ok hmove)
  have hrecord : state.stored.record = r :=
    congrArg (fun m => { r with name := m })
      ((congrArg fromStateName hname).trans (fromStateName_toStateName r.name))
  rw [hrun]
  generalize place config d state = d₁ at hload hnode hself
  obtain ⟨hshaped, -⟩ := shaped_resolve hload state hself rfl d₁ ⟨hload, fun _ => rfl, fun _ => rfl⟩
  refine ⟨hshaped.fair, ?_, .inr ⟨?_, ?_, ?_⟩⟩
  · intro n hn
    have hne : state.stateName ≠ n := fun he => hn (he.symm.trans hname)
    rw [hshaped.status, hshaped.record, hnode, if_neg hne]
    exact ⟨rfl, rfl⟩
  · rw [← hname, node, hs]
    exact hpending
  · rw [hshaped.status, hnode, if_pos hname]
    rfl
  · rw [hshaped.record, hnode, if_pos hname]
    exact hrecord

theorem fair_add (h : Fair config t d) (r : Record) :
    Fair config t (exec (add config r) d).2 ∧ Takes r d (exec (add config r) d).2 := by
  obtain ⟨res, mid, hrun, hmid, hw, hnode, hstored, hres⟩ :=
    legible_read config h.legible (isStateName_toStateName r.name)
  have hg := Gains.of_nodes hmid hnode hstored
  have hfair := h.same_waitlist hg fun _ _ => by rw [hw]
  have hsame : Takes r d mid :=
    .of_same (fun n => by rw [hnode]) fun n => by rw [hnode]
  rw [add]
  cases res with
  | error e =>
      rw [exec_bind_error hrun]
      exact ⟨hfair, hsame⟩
  | ok found =>
      obtain ⟨hname, hfound⟩ := hres found rfl
      rw [exec_bind_ok hrun]
      dsimp only
      cases hstatus : found.status with
      | LOADED => exact ⟨hfair, hsame⟩
      | INTERLOCKED => exact ⟨hfair, hsame⟩
      | INITIALIZED =>
          dsimp only
          have hlast : ∀ (x : DagM Unit) (n : Name), (exec (do x; return n) mid).2 =
              (exec x mid).2 := by
            intro x n
            rw [exec_bind]
            rcases exec x mid with ⟨_ | _, _⟩ <;> rfl
          obtain ⟨hnew, htakes⟩ := fair_onNewRecord hfair (hname.symm ▸ hfound) hstatus hname
          rw [← hstatus, hlast]
          refine ⟨hnew, fun n hn => ?_, ?_⟩
          · rw [← hnode]
            exact htakes.other n hn
          · rw [← hnode]
            exact htakes.self

end

end CertLedger.DagSafety
