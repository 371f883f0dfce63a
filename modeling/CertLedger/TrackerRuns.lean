import CertLedger.EventRuns
import CertLedger.HarvestRuns

/-!
# Runs that keep the tracker complete

A submission or a synced record puts the state it loads into the tracker before
the harvest, so that the harvest stamps what it interlocks. A published reply
does not.
-/
namespace CertLedger.TrackerRuns
open Std TlvCodec FallibleState NdnObjects RecordCodec EdgeStateCodec LedgerIndexCodec
open InterlockPolicies EdgeStateList OrderedContainers EndorsementDag DagEngine DagStates
open DagHarvest DagEffects DagRefinement DagRuns LedgerHandlers LedgerEffects
open LedgerConsistency LedgerHarvest SubmissionRuns HarvestRuns EventRuns PlainNdn

section
variable [NdnCxx] {config : LedgerConfig}

/-! ## One record -/

/-- The record would be among its own descendants. -/
def EndorsesItself (d : DagModule) (r : Record) : Prop :=
  toStateName r.name ∈ ((abs d).load (toStateName r.name) {v | v ∈ r.pointers.map toStateName}
    (r.isGenesis = false)).endorsers (toStateName r.name)

/-- An event that makes the state of the record does not also interlock it. -/
def Patient (config : LedgerConfig) (d : DagModule) (r : Record) : Prop :=
  Stored d (toStateName r.name) ∨ 2 ≤ config.policyThreshold ∨
    (1 ≤ config.policyThreshold ∧ ¬EndorsesItself d r)

/-- What becomes of the states, their times and the waitlist before the harvest, when the
states of some names are loaded. -/
structure Arrives (config : LedgerConfig) (names : List Name) (d d' : DagModule) : Prop where
  ticks : d.ticks ≤ d'.ticks
  kept : ∀ n s, stateAt d n = some s →
    ∃ s', stateAt d' n = some s' ∧ s'.created = s.created ∧ s'.interlocked = s.interlocked
  born : ∀ n s, stateAt d' n = some s → stateAt d n = none →
    ∃ i, d.ticks ≤ i ∧ i < d'.ticks ∧ s.created = isoTime (config.clock i + 1)
  locked : ∀ n, (node d' n).status = .INTERLOCKED ↔ (node d n).status = .INTERLOCKED
  loaded : ∀ n, (node d' n).status ≠ .INITIALIZED ↔
    (node d n).status ≠ .INITIALIZED ∨ n ∈ names
  fresh : ∀ n, ¬Stored d n → (node d' n).status ≠ .INITIALIZED →
    DagUpdates.value config.toDagConfig d' n < config.policyThreshold
  unlisted : Unlisted d → Unlisted d'

/-- Two modules that differ only beside the states. -/
structure Same (d d' : DagModule) : Prop where
  states : ∀ n, stateAt d' n = stateAt d n
  bucket : ∀ k n, InBucket d'.waitlist k n ↔ InBucket d.waitlist k n
  ticks : d'.ticks = d.ticks

namespace Same
variable {d d' d'' : DagModule}

theorem trans (h : Same d d') (h' : Same d' d'') : Same d d'' where
  states n := (h'.states n).trans (h.states n)
  bucket k n := (h'.bucket k n).trans (h.bucket k n)
  ticks := h'.ticks.trans h.ticks

theorem of_stores (h : Stores Foreign d d') : Same d d' where
  states := h.stateAt fun _ _ hb => hb.2
  bucket := h.bucket
  ticks := h.ticks

theorem tracked {d : DagModule} (hc : Clean d) (l : EdgeStateList) (n : Name) :
    Same d (tracked l n d) where
  states := stateAt_tracked hc l n
  bucket k m := by
    unfold HarvestRuns.tracked
    split_ifs <;> rfl
  ticks := by
    unfold HarvestRuns.tracked
    split_ifs <;> rfl

theorem node (h : Same d d') (n : Name) : node d' n = node d n := by
  rw [DagStates.node, h.states]
  rfl

theorem stored (h : Same d d') (n : Name) : Stored d' n ↔ Stored d n := by
  rw [Stored, h.states]
  rfl

theorem value (h : Same d d') (n : Name) :
    DagUpdates.value config.toDagConfig d' n = DagUpdates.value config.toDagConfig d n :=
  DagUpdates.value_congr fun x => by rw [h.node]

theorem patient (h : Same d d') {r : Record} (hp : Patient config d r) : Patient config d' r := by
  unfold Patient EndorsesItself
  rw [h.stored, abs_congr h.node]
  exact hp

end Same

namespace Arrives
variable {names : List Name} {d d' e e' : DagModule}

theorem congr (h : Arrives config names d d') (hd : Same e d) (hd' : Same d' e') :
    Arrives config names e e' where
  ticks := by
    rw [hd'.ticks, ← hd.ticks]
    exact h.ticks
  kept n s hs := by
    rw [hd'.states]
    exact h.kept n s ((hd.states n).trans hs)
  born n s hs hn := by
    rw [hd'.states] at hs
    rw [hd'.ticks, ← hd.ticks]
    exact h.born n s hs ((hd.states n).trans hn)
  locked n := by
    rw [hd'.node, ← hd.node]
    exact h.locked n
  loaded n := by
    rw [hd'.node, ← hd.node]
    exact h.loaded n
  fresh n hn hl := by
    rw [hd'.node] at hl
    rw [hd'.value]
    exact h.fresh n (fun hs => hn ((hd.stored n).mp hs)) hl
  unlisted hu k n hin := by
    rw [hd'.node]
    refine h.unlisted ?_ k n ((hd'.bucket k n).mp hin)
    intro j m hm
    rw [hd.node]
    exact hu j m ((hd.bucket j m).mp hm)

/-- Nothing arrives. -/
theorem of_same (h : Same d d') : Arrives config [] d d' where
  ticks := h.ticks.ge
  kept n s hs := ⟨s, (h.states n).trans hs, rfl, rfl⟩
  born n s hs hn := by
    rw [h.states, hn] at hs
    cases hs
  locked n := by rw [h.node]
  loaded n := by simp [h.node]
  fresh n hn hl := (hn (stored_of_status (h.node n ▸ hl))).elim
  unlisted hu k n hin := by
    rw [h.node]
    exact hu k n ((h.bucket k n).mp hin)

/-- An old record is not added again. -/
theorem of_loaded {n : Name} (h : (node d n).status ≠ .INITIALIZED) : Arrives config [n] d d where
  ticks := le_rfl
  kept _ s hs := ⟨s, hs, rfl, rfl⟩
  born _ _ hs hn := by simp [hn] at hs
  locked _ := Iff.rfl
  loaded m := by
    rw [List.mem_singleton]
    exact (or_iff_left_of_imp fun he => he ▸ h).symm
  fresh m hm hl := (hm (stored_of_status hl)).elim
  unlisted := id

end Arrives

theorem desc_of_not_stored {d : DagModule} {n : Name} (h : ¬Stored d n) :
    (abs d).desc n = ∅ := by
  ext x
  rw [mem_desc, node, Option.not_isSome_iff_eq_none.mp h]
  simp [Node.unknown]

/-- A new state that is not its own descendant has none, and one otherwise. -/
theorem value_new {d d' : DagModule} {r : Record} (ha : Adds r d d')
    (hn : ¬Stored d (toStateName r.name)) (hp : Patient config d r) :
    DagUpdates.value config.toDagConfig d' (toStateName r.name) < config.policyThreshold := by
  have hself : ∀ x ∈ members (node d' (toStateName r.name)).descendants,
      x = toStateName r.name ∧ EndorsesItself d r := by
    intro x hx
    have hdesc : x ∈ (abs d').desc (toStateName r.name) := (mem_members _ x).mp hx
    rw [ha.abs_eq] at hdesc
    exact Dag.desc_add_self (desc_of_not_stored hn) hdesc
  rcases hp with hst | htwo | ⟨hone, hnot⟩
  · exact (hn hst).elim
  · refine Nat.lt_of_le_of_lt ?_ htwo
    refine (value_mono _ fun x hx => ?_).trans (value_le_card _ {toStateName r.name})
    exact Finset.mem_singleton.mpr (hself x hx).1
  · have hempty : members (node d' (toStateName r.name)).descendants = ∅ :=
      Finset.eq_empty_of_forall_notMem fun x hx => hnot (hself x hx).2
    rw [DagUpdates.value, hempty, value_empty]
    exact hone

theorem arrives_add {d d' : DagModule} (h : Sane config.toDagConfig d) {r : Record} {n : Name}
    (hadd : exec (add config.toDagConfig r) d = (.ok n, d')) (hp : Patient config d r) :
    Arrives config [toStateName r.name] d d' := by
  have hc := h.consistent.clean
  have hkeyed : Keyed d := fun n s hs => (hc.state hs).2
  have hev : Evolves config.toDagConfig d d' := by
    have := tame_add config.toDagConfig r d hkeyed
    rwa [hadd] at this
  by_cases hs : (node d (toStateName r.name)).status = .INITIALIZED
  · obtain ⟨e, hrun, -, ha⟩ := h.consistent.add_new hs
    obtain rfl : e = d' := congrArg Prod.snd (hrun.symm.trans hadd)
    have hload : ∀ m, (node e m).status ≠ .INITIALIZED ↔
        m = toStateName r.name ∨ (node d m).status ≠ .INITIALIZED := by
      intro m
      rw [← mem_loaded, ha.abs_eq]
      rfl
    refine ⟨hev.ticks, ?_, hev.born hc.reliable, ?_, ?_, ?_, fun hu => hu.add ha⟩
    · intro m s hm
      obtain ⟨s', hs', hl⟩ := hev.later hc.reliable m s hm
      exact ⟨s', hs', hl.created, hl.interlocked⟩
    · intro m
      rw [← mem_locked, ha.abs_eq]
      rfl
    · intro m
      rw [hload, List.mem_singleton, or_comm]
    · intro m hm hl
      obtain rfl := ((hload m).mp hl).resolve_right fun hd => hm (stored_of_status hd)
      exact value_new ha hm hp
  · obtain rfl : d = d' := congrArg Prod.snd ((h.consistent.add_old hs).symm.trans hadd)
    exact Arrives.of_loaded hs

/-! ## Between events -/

/-- The tracker holds the names of the loaded states. -/
def Listed (d : DagModule) (l : EdgeStateList) : Prop :=
  d.storage.list[trackerName]? = some (encodeEdgeStateList l) ∧
    ∀ n, n ∈ l.value ↔ (node d n).status ≠ .INITIALIZED

structure Timed (config : LedgerConfig) (d : DagModule) : Prop where
  sane : Sane config.toDagConfig d
  unlisted : Unlisted d
  listed : ∃ l, Listed d l
  born : ∀ n s, stateAt d n = some s →
    ∃ i, i < d.ticks ∧ s.created = isoTime (config.clock i + 1)
  late : ∀ n s, stateAt d n = some s → s.status = .INTERLOCKED → s.created < s.interlocked

theorem timed_start : Timed config (start []).toDagModule where
  sane := sane_start config
  unlisted k n hin := by
    rw [start_eq] at hin
    simp [withTracker, InBucket] at hin
  listed := by
    rw [start_eq]
    refine ⟨_, withTracker_self _ _, fun n => ?_⟩
    rw [node, stateAt_withTracker (.of_clean Clean.empty)]
    simp [stateAt, Node.unknown]
  born n s hs := by
    rw [start_eq, stateAt_withTracker (.of_clean Clean.empty)] at hs
    simp [stateAt] at hs
  late n s hs := by
    rw [start_eq, stateAt_withTracker (.of_clean Clean.empty)] at hs
    simp [stateAt] at hs

theorem stateAt_of_node {d : DagModule} {n : Name} (h : (node d n).status = .INTERLOCKED) :
    ∃ s, stateAt d n = some s ∧ s.status = .INTERLOCKED := by
  have hst : Stored d n := stored_of_status (by simp [h])
  obtain ⟨s, hs⟩ := Option.isSome_iff_exists.mp hst
  exact ⟨s, hs, (status_of_stateAt hs).symm.trans h⟩

namespace Arrives
variable {names : List Name} {d d' : DagModule}

/-- What is interlocked was so before, at the same time. -/
theorem before (h : Arrives config names d d') {n : Name} {s : EdgeState}
    (hs : stateAt d' n = some s) (hlocked : s.status = .INTERLOCKED) :
    ∃ s₀, stateAt d n = some s₀ ∧ s₀.status = .INTERLOCKED ∧ s.created = s₀.created ∧
      s.interlocked = s₀.interlocked := by
  have hnode : (node d' n).status = .INTERLOCKED :=
    (status_of_stateAt hs).trans hlocked
  obtain ⟨s₀, hs₀, hlocked₀⟩ := stateAt_of_node ((h.locked n).mp hnode)
  obtain ⟨s', hs', hcreated, hinterlocked⟩ := h.kept n s₀ hs₀
  obtain rfl : s' = s := Option.some.inj (hs'.symm.trans hs)
  exact ⟨s₀, hs₀, hlocked₀, hcreated, hinterlocked⟩

theorem timed (h : Arrives config names d d') (hd : Timed config d)
    (hsane : Sane config.toDagConfig d') (hl : ∃ l, Listed d' l) : Timed config d' where
  sane := hsane
  unlisted := h.unlisted hd.unlisted
  listed := hl
  born n s hs := by
    cases hold : stateAt d n with
    | none =>
        obtain ⟨i, -, hlt, hcreated⟩ := h.born n s hs hold
        exact ⟨i, hlt, hcreated⟩
    | some s₀ =>
        obtain ⟨s', hs', hcreated, -⟩ := h.kept n s₀ hold
        obtain rfl : s' = s := Option.some.inj (hs'.symm.trans hs)
        obtain ⟨i, hlt, hborn⟩ := hd.born n s₀ hold
        exact ⟨i, Nat.lt_of_lt_of_le hlt h.ticks, hcreated.trans hborn⟩
  late n s hs hlocked := by
    obtain ⟨s₀, hs₀, hlocked₀, hcreated, hinterlocked⟩ := h.before hs hlocked
    rw [hcreated, hinterlocked]
    exact hd.late n s₀ hs₀ hlocked₀

theorem listed (h : Arrives config names d d') {l l' : EdgeStateList} (hl : Listed d l)
    (hl' : d'.storage.list[trackerName]? = some (encodeEdgeStateList l'))
    (hmem : ∀ n, n ∈ l'.value ↔ n ∈ l.value ∨ n ∈ names) : Listed d' l' := by
  refine ⟨hl', fun n => ?_⟩
  rw [hmem, h.loaded, hl.2]

end Arrives

/-! ## Harvests -/

/-- What a harvest has interlocked is in the list of names it goes through. -/
theorem mem_harvested_of_locked {d e : DagModule} (h : Consistent config.toDagConfig d)
    (hh : Harvests config.toDagConfig config.policyThreshold true d e) {n : Name}
    (hn : (node e n).status = .INTERLOCKED) (hopen : (node d n).status ≠ .INTERLOCKED) :
    n ∈ harvested d (config.policyThreshold ≤ ·) d.waitlist.toList := by
  have hl : n ∈ (abs e).locked := hn
  rw [hh.abs_eq] at hl
  obtain ⟨⟨hload, -, henough⟩, -⟩ := hl.resolve_left hopen
  exact mem_harvested.mpr ⟨hload, _, decide_eq_true ((enough_desc n).mp henough),
    h.waiting n (stored_of_status hload) hopen⟩

/-- What a harvest of the ledger makes of a module whose tracker is complete. -/
structure Takes (config : LedgerConfig) (d d' : DagModule) : Prop where
  sane : Sane config.toDagConfig d'
  unlisted : Unlisted d'
  listed : ∃ l, Listed d' l
  ticks : d.ticks ≤ d'.ticks
  states : ∀ n s', stateAt d' n = some s' → ∃ s, stateAt d n = some s ∧ s'.created = s.created ∧
    (s'.status = .INTERLOCKED →
      (s.status = .INTERLOCKED ∧ s'.interlocked = s.interlocked) ∨
      (s.status = .LOADED ∧
        config.policyThreshold ≤ DagUpdates.value config.toDagConfig d n ∧
        ∃ j, d.ticks ≤ j ∧ j < d'.ticks ∧ s'.interlocked = isoTime (config.clock j)))

theorem takes_dagHarvest {s : LedgerModule} (h : Timed config s.toDagModule) :
    Takes config s.toDagModule (exec (dagHarvest config) s).2.toDagModule := by
  obtain ⟨l, hl, hlisted⟩ := h.listed
  have hc := h.sane.consistent
  have hev := tame_harvestAbove config.toDagConfig config.policyThreshold true s.toDagModule
    fun n t ht => (hc.clean.state ht).2
  obtain ⟨e, s', hrun, habove, hh, hs'⟩ := exec_dagHarvest h.sane hl
  rw [habove] at hev
  rw [hrun]
  have hload : ∀ n, (node e n).status ≠ .INITIALIZED ↔ (node s.toDagModule n).status ≠ .INITIALIZED := by
    intro n
    rw [← mem_loaded, hh.abs_eq]
    rfl
  refine ⟨hs'.sane, ?_, ?_, hev.ticks.trans hs'.ticks, ?_⟩
  · intro k n hin
    rw [hs'.node]
    exact h.unlisted.harvest hc hh k n (hs'.waitlist ▸ hin)
  · obtain ⟨l', hl', hmem⟩ := hs'.tracker
    refine ⟨l', hl', fun n => ?_⟩
    rw [hmem, hs'.node, hload, hlisted]
    exact or_iff_left_of_imp fun hn => (mem_harvested.mp hn).1
  · intro n t' ht'
    have hst : Stored s.toDagModule n := (hh.stored n).mp (hs'.stored n (by simp [Stored, ht']))
    obtain ⟨t, ht⟩ := Option.isSome_iff_exists.mp hst
    obtain ⟨t₁, ht₁, hlater⟩ := hev.later hc.clean.reliable n t ht
    obtain ⟨t₂, ht₂, hcreated, hkept, hstamp⟩ := hs'.states n t₁ ht₁
    obtain rfl : t₂ = t' := Option.some.inj (ht₂.symm.trans ht')
    refine ⟨t, ht, hcreated.trans hlater.created, fun hlocked => ?_⟩
    have hnode : node s.toDagModule n = Node.of t := node_of_stateAt ht
    by_cases hn : n ∈ harvested s.toDagModule (config.policyThreshold ≤ ·) s.waitlist.toList
    · obtain ⟨hloaded, k, hk, hin⟩ := mem_harvested.mp hn
      obtain ⟨j, hj, hlt, htime⟩ := hstamp hn ((hlisted n).mpr hloaded)
      refine .inr ⟨?_, (hc.bucket k n hin).2 ▸ of_decide_eq_true hk, j, hev.ticks.trans hj, hlt, htime⟩
      have hopen := h.unlisted k n hin
      rw [hnode] at hloaded hopen
      exact Status.eq_loaded hloaded hopen
    · obtain rfl := hkept hn
      refine .inl ⟨?_, hlater.interlocked⟩
      by_contra hopen
      refine hn (mem_harvested_of_locked hc hh ?_ ?_)
      · exact (status_of_stateAt ht₁).trans hlocked
      · rw [hnode]
        exact hopen

/-! ## One event -/

/-- From now on the clock shows later times than the states that are stored by now. -/
def Advances (config : LedgerConfig) (d : DagModule) : Prop :=
  ∀ i, i < d.ticks → ∀ j, d.ticks ≤ j → isoTime (config.clock i + 1) < isoTime (config.clock j)

/-- The module is left by a harvest that has interlocked the state and read the clock for it. -/
def HarvestedIn (config : LedgerConfig) (d : DagModule) (s' : LedgerModule) (n : Name)
    (time : Time) : Prop :=
  ∃ s : LedgerModule, s' = (exec (dagHarvest config) s).2 ∧ d.ticks ≤ s.ticks ∧
    (node s.toDagModule n).status = .LOADED ∧ (node s'.toDagModule n).status = .INTERLOCKED ∧
    ∃ j, s.ticks ≤ j ∧ j < s'.ticks ∧ time = isoTime (config.clock j)

/-- Whatever is interlocked was so before, at the same time, or has been harvested since. -/
def Dated (config : LedgerConfig) (d : DagModule) (s' : LedgerModule) : Prop :=
  ∀ n s, stateAt s'.toDagModule n = some s → s.status = .INTERLOCKED →
    (∃ s₀, stateAt d n = some s₀ ∧ s₀.status = .INTERLOCKED ∧ s.interlocked = s₀.interlocked) ∨
      ((node d n).status ≠ .INTERLOCKED ∧ HarvestedIn config d s' n s.interlocked)

section
variable {names : List Name} {d : DagModule} {s : LedgerModule}

theorem Arrives.dated (h : Arrives config names d s.toDagModule) : Dated config d s := by
  intro n t ht hlocked
  obtain ⟨t₀, ht₀, hlocked₀, -, hinterlocked⟩ := h.before ht hlocked
  exact .inl ⟨t₀, ht₀, hlocked₀, hinterlocked⟩

/-- A harvest takes only states that an earlier event has made. -/
theorem timed_harvest (hd : Timed config d) (ha : Arrives config names d s.toDagModule)
    (h : Timed config s.toDagModule) (hclock : Advances config d) :
    Timed config (exec (dagHarvest config) s).2.toDagModule := by
  have ht := takes_dagHarvest h
  refine ⟨ht.sane, ht.unlisted, ht.listed, ?_, ?_⟩
  · intro n t' ht'
    obtain ⟨t, hs, hcreated, -⟩ := ht.states n t' ht'
    obtain ⟨i, hlt, hborn⟩ := h.born n t hs
    exact ⟨i, Nat.lt_of_lt_of_le hlt ht.ticks, hcreated.trans hborn⟩
  · intro n t' ht' hlocked
    obtain ⟨t, hs, hcreated, hwhen⟩ := ht.states n t' ht'
    rcases hwhen hlocked with ⟨hold, hsame⟩ | ⟨hload, hripe, j, hj, -, htime⟩
    · rw [hcreated, hsame]
      exact h.late n t hs hold
    · have hstored : Stored d n := by
        by_contra hnew
        have hnode : (node s.toDagModule n).status = .LOADED :=
          (status_of_stateAt hs).trans hload
        exact Nat.not_le.mpr (ha.fresh n hnew (by simp [hnode])) hripe
      obtain ⟨t₀, ht₀⟩ := Option.isSome_iff_exists.mp hstored
      obtain ⟨u, hu, hkept, -⟩ := ha.kept n t₀ ht₀
      obtain rfl : u = t := Option.some.inj (hu.symm.trans hs)
      obtain ⟨i, hi, hborn⟩ := hd.born n t₀ ht₀
      rw [hcreated, hkept, hborn, htime]
      exact hclock i hi j (ha.ticks.trans hj)

theorem dated_harvest (ha : Arrives config names d s.toDagModule)
    (h : Timed config s.toDagModule) : Dated config d (exec (dagHarvest config) s).2 := by
  have ht := takes_dagHarvest h
  intro n t' ht' hlocked
  obtain ⟨t, hs, -, hwhen⟩ := ht.states n t' ht'
  rcases hwhen hlocked with ⟨hold, hsame⟩ | ⟨hload, -, hj⟩
  · obtain ⟨t₀, ht₀, hlocked₀, -, hinterlocked⟩ := ha.before hs hold
    exact .inl ⟨t₀, ht₀, hlocked₀, hsame.trans hinterlocked⟩
  · have hnode : (node s.toDagModule n).status = .LOADED :=
      (status_of_stateAt hs).trans hload
    have hnow : (node (exec (dagHarvest config) s).2.toDagModule n).status = .INTERLOCKED :=
      (status_of_stateAt ht').trans hlocked
    refine .inr ⟨?_, s, rfl, ha.ticks, hnode, hnow, hj⟩
    rw [Ne, ← ha.locked, hnode]
    exact fun he => Status.noConfusion he

end

/-- The handler puts what it loads into the tracker, and its harvest takes no state it has made. -/
def Tracks (config : LedgerConfig) (s : LedgerModule) : Event → Prop
  | .submission data verdict pub => verdict = true → MapFree config s data pub ∧
      ∀ r : Record, r.name = nextName config s →
        (r.isGenesis = true ∨
          ∀ m ∈ r.pointers, ∃ n, InBucket s.waitlist 0 n ∧ m = fromStateName n) →
        Patient config s.toDagModule r
  | .sync record => Patient config s.toDagModule record
  | .reply pub => pub.seqNo = none ∨ ¬RepliesDue config s

/-- A record that is added and put into the tracker. -/
theorem arrives_tracked {d e e' d' : DagModule} {l : EdgeStateList} {r : Record} {n : Name}
    (h : Timed config d) (hl : Listed d l) (he : Stores Foreign d e)
    (hadd : exec (add config.toDagConfig r) e = (.ok n, e')) (hp : Patient config d r)
    (hsame : Same e' d') (hsane : Sane config.toDagConfig d')
    (hl' : ∃ l', d'.storage.list[trackerName]? = some (encodeEdgeStateList l') ∧
      ∀ m, m ∈ l'.value ↔ m ∈ l.value ∨ m = toStateName r.name) :
    Arrives config [toStateName r.name] d d' ∧ Timed config d' := by
  have hde := Same.of_stores he
  have ha : Arrives config [toStateName r.name] d d' :=
    (arrives_add (sane_stores h.sane he) hadd (hde.patient hp)).congr hde hsame
  obtain ⟨l', hstored, hmem⟩ := hl'
  refine ⟨ha, ha.timed h hsane ⟨l', ha.listed hl hstored fun m => ?_⟩⟩
  rw [hmem, List.mem_singleton]

/-- Whatever the handler loads is tracked when it comes to the harvest or ends. -/
theorem arrives_perform {s : LedgerModule} (h : Timed config s.toDagModule) {event : Event}
    (hout : Outside config event) (htracks : Tracks config s event) :
    ∃ names s₁, Arrives config names s.toDagModule s₁.toDagModule ∧
      Timed config s₁.toDagModule ∧
      (perform config s event = s₁ ∨ perform config s event = (exec (dagHarvest config) s₁).2) := by
  obtain ⟨l, hlisted⟩ := h.listed
  have hl := hlisted.1
  have hquiet : ∀ s₁ : LedgerModule, Stores Foreign s.toDagModule s₁.toDagModule →
      perform config s event = s₁ → ∃ names s₁, Arrives config names s.toDagModule s₁.toDagModule ∧
        Timed config s₁.toDagModule ∧ (perform config s event = s₁ ∨
          perform config s event = (exec (dagHarvest config) s₁).2) := by
    intro s₁ hs hrun
    have ha : Arrives config [] s.toDagModule s₁.toDagModule :=
      Arrives.of_same (Same.of_stores hs)
    refine ⟨[], s₁, ha, ha.timed h (sane_stores h.sane hs) ⟨l, ?_⟩, .inl hrun⟩
    exact ha.listed hlisted (hs.kept hl) (by simp)
  cases event with
  | submission data verdict pub =>
      cases verdict with
      | false => exact hquiet s (Stores.refl _) rfl
      | true =>
          obtain ⟨hmap, hpatient⟩ := htracks rfl
          rcases exec_submission h.sane hout hmap with hs | ⟨r, s₁, hrun, hs, hfree, hname, hptr⟩
          · exact hquiet _ hs rfl
          · obtain ⟨d₁, d₂, hadd, hsane, hd₂, hl₂, hlog⟩ :=
              exec_logRecord (sane_stores h.sane hs) hfree (hs.kept hl)
            have hsane₂ := sane_stores hsane hd₂
            obtain ⟨ha, ht⟩ := arrives_tracked h hlisted hs hadd (hpatient r hname hptr)
              ((Same.of_stores hd₂).trans (Same.tracked hsane₂.consistent.clean l _))
              (sane_tracked hsane₂ l _) (tracked_self hl₂ _)
            exact ⟨_, s₁.withDag (tracked l (toStateName r.name) d₂), ha, ht,
              .inr (hrun.trans (congrArg Prod.snd hlog))⟩
  | sync record =>
      obtain ⟨d₁, s₂, hadd, hsane, hl₁, hs, hrun⟩ := exec_yieldRecord h.sane hout hl
      have hsane₁ := sane_tracked hsane l (toStateName record.name)
      obtain ⟨l', hl', hmem⟩ := tracked_self hl₁ (toStateName record.name)
      obtain ⟨ha, ht⟩ := arrives_tracked h hlisted (Stores.refl _) hadd htracks
        ((Same.tracked hsane.consistent.clean l _).trans (Same.of_stores hs))
        (sane_stores hsane₁ hs) ⟨l', hs.kept hl', hmem⟩
      refine ⟨_, s₂, ha, ht, ?_⟩
      rcases hrun with hrun | ⟨hrun, -⟩
      · exact .inr (congrArg Prod.snd hrun)
      · exact .inl hrun
  | reply pub =>
      rcases exec_publishReply h.sane pub with hs | ⟨hpub, hdue, -⟩
      · exact hquiet _ (foreign_packets hout hs) rfl
      · rcases htracks with hnone | hnot
        · exact (hpub hnone).elim
        · exact (hnot hdue).elim

/-- One event keeps the tracker complete and the times in order. -/
theorem timed_perform {s : LedgerModule} (h : Timed config s.toDagModule) {event : Event}
    (hout : Outside config event) (htracks : Tracks config s event)
    (hclock : Advances config s.toDagModule) :
    Timed config (perform config s event).toDagModule ∧
      Dated config s.toDagModule (perform config s event) := by
  obtain ⟨names, s₁, ha, ht, hrun | hrun⟩ := arrives_perform h hout htracks
  · rw [hrun]
    exact ⟨ht, ha.dated⟩
  · rw [hrun]
    exact ⟨timed_harvest h ha ht hclock, dated_harvest ha ht⟩

/-! ## Runs -/

/-- An event of the run ends in the harvest that has interlocked the state at this time. -/
def HarvestedDuring (config : LedgerConfig) (events : List Event) (n : Name) (time : Time) : Prop :=
  ∃ before event rest, events = before ++ event :: rest ∧
    (node (after config [] before).toDagModule n).status ≠ .INTERLOCKED ∧
    HarvestedIn config (after config [] before).toDagModule
      (after config [] (before ++ [event])) n time

theorem timed_after (events : List Event)
    (h : Throughout (perform config) (fun s event => Outside config event ∧
      Tracks config s event ∧ Advances config s.toDagModule) (start []) events) :
    Timed config (after config [] events).toDagModule ∧
      ∀ n s, stateAt (after config [] events).toDagModule n = some s → s.status = .INTERLOCKED →
        HarvestedDuring config events n s.interlocked := by
  induction events using List.reverseRecOn with
  | nil =>
      refine ⟨timed_start, fun n s hs => ?_⟩
      have hempty : stateAt (start []).toDagModule n = none := by
        rw [start_eq, stateAt_withTracker (.of_clean Clean.empty)]
        simp [stateAt]
      exact absurd (hs.symm.trans hempty) (by simp)
  | append_singleton events event ih =>
      obtain ⟨hevents, hout, htracks, hclock⟩ := (throughout_concat _ _ _).mp h
      obtain ⟨ht, hduring⟩ := ih hevents
      obtain ⟨ht', hdated⟩ := timed_perform ht hout htracks hclock
      have happ : after config [] (events ++ [event]) =
          perform config (after config [] events) event := after_append config [] events [event]
      rw [happ]
      refine ⟨ht', fun n s hs hlocked => ?_⟩
      rcases hdated n s hs hlocked with ⟨s₀, hs₀, hlocked₀, hsame⟩ | ⟨hopen, hnow⟩
      · obtain ⟨before, last, rest, hevents, hopen, hin⟩ := hduring n s₀ hs₀ hlocked₀
        exact ⟨before, last, rest ++ [event], by simp [hevents], hopen, hsame ▸ hin⟩
      · exact ⟨events, event, [], rfl, hopen, happ ▸ hnow⟩

/-- In every run whose handlers track what they load, and whose clock advances from event to
event, the tracker lists the loaded states, and each interlocked state carries a time later
than its creation that the harvest which interlocked it has read. -/
theorem tracker_complete (events : List Event)
    (h : Throughout (perform config) (fun s event => Outside config event ∧
      Tracks config s event ∧ Advances config s.toDagModule) (start []) events) :
    (∃ l, (after config [] events).storage.list[trackerName]? = some (encodeEdgeStateList l) ∧
      ∀ n, n ∈ l.value ↔ ∃ s, stateAt (after config [] events).toDagModule n = some s ∧
        s.status ≠ .INITIALIZED) ∧
    ∀ n s, stateAt (after config [] events).toDagModule n = some s → s.status = .INTERLOCKED →
      s.created < s.interlocked ∧ HarvestedDuring config events n s.interlocked := by
  obtain ⟨ht, hduring⟩ := timed_after events h
  refine ⟨?_, fun n s hs hlocked => ⟨ht.late n s hs hlocked, hduring n s hs hlocked⟩⟩
  obtain ⟨l, hl, hmem⟩ := ht.listed
  refine ⟨l, hl, fun n => (hmem n).trans ?_⟩
  constructor
  · intro hn
    obtain ⟨s, hs⟩ := Option.isSome_iff_exists.mp (stored_of_status hn)
    rw [node_of_stateAt hs] at hn
    exact ⟨s, hs, hn⟩
  · rintro ⟨s, hs, hn⟩
    rw [node_of_stateAt hs]
    exact hn

end

section

local instance : NdnCxx := plainNdn packetDigests

theorem isoTime_clock (i : ℕ) : isoTime (ledger.clock i) = 1000 * i := by
  change 1000 * i / 1000 * 1000 = 1000 * i
  omega

theorem isoTime_created (i : ℕ) : isoTime (ledger.clock i + 1) = 1000 * i := by
  change (1000 * i + 1) / 1000 * 1000 = 1000 * i
  omega

theorem ledger_advances {i j : ℕ} (h : i < j) :
    isoTime (ledger.clock i + 1) < isoTime (ledger.clock j) := by
  rw [isoTime_created, isoTime_clock]
  exact Nat.mul_lt_mul_of_pos_left h (by decide)

/-- The small ledger with a threshold of two. -/
def pairLedger : LedgerConfig := { ledger with policyThreshold := 2 }

/-- A submission whose record two peers endorse. -/
def endorsedA : List Event :=
  [.submission (packetData nameA [1]) true (publication (some 1)),
    .sync { name := nameA, type := REPLY_RECORD,
            pointers := [ledger.instancePrefix.appendSequenceNumber 1] },
    .sync { name := fromStateName stateNameB, type := REPLY_RECORD,
            pointers := [ledger.instancePrefix.appendSequenceNumber 1] },
    .reply (publication none)]

theorem endorsedA_tracks :
    Throughout (perform pairLedger) (fun s event => Outside pairLedger event ∧
      Tracks pairLedger s event ∧ Advances pairLedger s.toDagModule) (start []) endorsedA := by
  have hclock : ∀ d, Advances pairLedger d := fun d i hi j hj =>
    ledger_advances (Nat.lt_of_lt_of_le hi hj)
  have htwo : ∀ d r, Patient pairLedger d r := fun d r => .inr (.inl le_rfl)
  refine ⟨⟨⟨by decide, publication_outside _⟩, fun _ => ⟨?_, fun r _ _ => htwo _ r⟩, hclock _⟩,
    ⟨fun h => (h rfl).elim, htwo _ _, hclock _⟩, ⟨fun h => (h rfl).elim, htwo _ _, hclock _⟩,
    ⟨publication_outside _, .inl rfl, hclock _⟩, trivial⟩
  refine fun _ => ⟨by decide +kernel, by decide, fun p hp he => ?_⟩
  have hhead := publication_head _ p hp
  rw [he] at hhead
  exact absurd hhead (by decide)

theorem tracker_complete_endorsedA :
    (∃ l, (after pairLedger [] endorsedA).storage.list[trackerName]? =
        some (encodeEdgeStateList l) ∧
      ∀ n, n ∈ l.value ↔ ∃ s, stateAt (after pairLedger [] endorsedA).toDagModule n = some s ∧
        s.status ≠ .INITIALIZED) ∧
    ∀ n s, stateAt (after pairLedger [] endorsedA).toDagModule n = some s →
      s.status = .INTERLOCKED →
      s.created < s.interlocked ∧ HarvestedDuring pairLedger endorsedA n s.interlocked :=
  tracker_complete endorsedA endorsedA_tracks

/-- A submission and a published reply to its record. -/
def answeredA : List Event :=
  [.submission (packetData nameA [1]) true (publication (some 1)), .reply (publication (some 2))]

/-- The record of the reply is not tracked when the handler has returned, and a harvest that
interlocks it later leaves it the time of its creation. -/
theorem reply_not_tracked :
    (¬ ∀ (config : LedgerConfig) (before : List Event) (event : Event),
      (∀ i j, i < j → isoTime (config.clock i + 1) < isoTime (config.clock j)) →
      (exec (event.handle config) (after config [] before)).1.isOk = true →
      ∀ l, (perform config (after config [] before) event).storage.list[trackerName]? =
          some (encodeEdgeStateList l) →
        ∀ n s, stateAt (perform config (after config [] before) event).toDagModule n = some s →
          s.status ≠ .INITIALIZED → n ∈ l.value) ∧
    ¬ ∀ (config : LedgerConfig) (before : List Event) (event : Event),
      (∀ i j, i < j → isoTime (config.clock i + 1) < isoTime (config.clock j)) →
      (exec (event.handle config) (after config [] before)).1.isOk = true →
      ∀ n s, stateAt (perform config (after config [] before) event).toDagModule n = some s →
        (node (after config [] before).toDagModule n).status ≠ .INTERLOCKED →
        s.status = .INTERLOCKED →
        ∃ j, (after config [] before).ticks ≤ j ∧ s.interlocked = isoTime (config.clock j) := by
  constructor
  · intro h
    have hloaded : (stateAt (perform ledger (after ledger []
        [.submission (packetData nameA [1]) true (publication (some 1))])
        (.reply (publication (some 2)))).toDagModule
        (toStateName (ledger.instancePrefix.appendSequenceNumber 2))).any
          (fun s => s.status ≠ .INITIALIZED) = true := by decide +kernel
    rw [Option.any_eq_true] at hloaded
    obtain ⟨s, hs, hloaded⟩ := hloaded
    have hin := h ledger _ _ (fun i j => ledger_advances) (by decide +kernel)
      { listName := trackerName, key := globalTracker, nextList := getStateListNull,
        value := (∅ : NameSet).insert
          (toStateName (ledger.instancePrefix.appendSequenceNumber 1)) }
      (by decide +kernel) _ s hs (of_decide_eq_true hloaded)
    revert hin
    decide +kernel
  · intro h
    have hleft : (stateAt (perform ledger (after ledger [] answeredA)
        (.sync { name := nameA, type := REPLY_RECORD,
                 pointers := [ledger.instancePrefix.appendSequenceNumber 2] })).toDagModule
        (toStateName (ledger.instancePrefix.appendSequenceNumber 2))).any
          (fun s => s.status = .INTERLOCKED ∧ s.interlocked = 3000) = true := by decide +kernel
    rw [Option.any_eq_true] at hleft
    obtain ⟨s, hs, hleft⟩ := hleft
    obtain ⟨hlocked, htime⟩ := of_decide_eq_true hleft
    have hticks : (after ledger [] answeredA).ticks = 5 := by decide +kernel
    obtain ⟨j, hj, hnow⟩ := h ledger _ _ (fun i j => ledger_advances) (by decide +kernel) _ s hs
      (by decide +kernel) hlocked
    have hreading : 3000 = 1000 * j := htime.symm.trans (hnow.trans (isoTime_clock j))
    omega

end

end CertLedger.TrackerRuns
