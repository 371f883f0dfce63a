import CertLedger.DagRuns
import CertLedger.LedgerConsistency

/-!
# The harvest of the ledger

A harvest of the ledger succeeds: it interlocks what is endorsed enough, stamps
the interlocked states that are tracked and puts the others into the tracker.
-/
namespace CertLedger.LedgerHarvest
open Std TlvCodec FallibleState NdnObjects RecordCodec EdgeStateCodec LedgerIndexCodec
open InterlockPolicies EdgeStateList OrderedContainers EndorsementDag DagEngine DagStates
open DagUpdates DagHarvest DagRefinement DagSafety LedgerHandlers LedgerEffects LedgerConsistency

variable [NdnCxx] {config : LedgerConfig}

/-- What has been done for the names of a list, from a module with the tracker `l` on. -/
structure Stamps (config : DagConfig) (l : EdgeStateList) (names : List Name) (d d' : DagModule) :
    Prop where
  sane : Sane config d'
  node : ∀ n, node d' n = node d n
  stored : ∀ n, Stored d' n → Stored d n
  waitlist : d'.waitlist = d.waitlist
  tracker : ∃ l', d'.storage.list[trackerName]? = some (encodeEdgeStateList l') ∧
    ∀ n, n ∈ l'.value ↔ n ∈ l.value ∨ n ∈ names
  ticks : d.ticks ≤ d'.ticks
  states : ∀ n s, stateAt d n = some s → ∃ s', stateAt d' n = some s' ∧ s'.created = s.created ∧
    (n ∉ names → s' = s) ∧
    (n ∈ names → n ∈ l.value →
      ∃ j, d.ticks ≤ j ∧ j < d'.ticks ∧ s'.interlocked = isoTime (config.clock j))

namespace Stamps
variable {l : EdgeStateList} {names : List Name} {d d' : DagModule}

theorem nil {config : DagConfig} (h : Sane config d)
    (hl : d.storage.list[trackerName]? = some (encodeEdgeStateList l)) : Stamps config l [] d d where
  sane := h
  node _ := rfl
  stored _ := id
  waitlist := rfl
  tracker := ⟨l, hl, by simp⟩
  ticks := le_rfl
  states _ s hs := ⟨s, hs, rfl, fun _ => rfl, fun hn => by simp at hn⟩

/-- One more name, tracked or not. -/
theorem snoc (h : Stamps config.toDagConfig l names d d') {n : Name} (hn : Stored d n) :
    ∃ d'', exec (updateStatesTracker config n true) d' = (.ok (), d'') ∧
      Stamps config.toDagConfig l (names ++ [n]) d d'' := by
  have hc := h.sane.consistent.clean
  obtain ⟨l', hl', hmem⟩ := h.tracker
  obtain ⟨s, hs⟩ := Option.isSome_iff_exists.mp hn
  obtain ⟨s', hs', -⟩ := h.states n s hs
  by_cases hin : n ∈ l'.value
  · refine ⟨_, exec_updateStatesTracker_stamp config (.of_clean hc) hl' hin hs', ?_⟩
    have hstamped := h.sane.stamped hs'
    have hstate := stateAt_withTracker (.of_clean hstamped.consistent.clean) l'
    refine ⟨hstamped.withTracker l', ?_, ?_, h.waitlist, ⟨l', withTracker_self _ _, ?_⟩, ?_, ?_⟩
    · intro m
      rw [DagStates.node, hstate]
      exact (node_stamped (.of_clean hc) hs' m).trans (h.node m)
    · intro m hm
      rw [Stored, hstate, stateAt_stamped (.of_clean hc) hs'] at hm
      split_ifs at hm with he
      · exact he ▸ hn
      · exact h.stored m hm
    · intro m
      rw [hmem]
      grind
    · exact h.ticks.trans (Nat.le_succ _)
    · intro m t ht
      obtain ⟨t', ht', hcreated, hkept, hstamp⟩ := h.states m t ht
      rw [hstate, stateAt_stamped (.of_clean hc) hs']
      by_cases hm : n = m
      · subst hm
        obtain rfl : s' = t' := Option.some.inj (hs'.symm.trans ht')
        refine ⟨_, if_pos rfl, hcreated, fun hnot => by simp at hnot, fun _ _ => ?_⟩
        exact ⟨d'.ticks, h.ticks, Nat.lt_succ_self _, rfl⟩
      · refine ⟨t', by rw [if_neg hm, ht'], hcreated, fun hnot => hkept (by grind), ?_⟩
        intro hmn hml
        obtain ⟨j, hj, hlt, htime⟩ := hstamp (by grind) hml
        exact ⟨j, hj, Nat.lt_succ_of_lt hlt, htime⟩
  · refine ⟨_, exec_updateStatesTracker_new config hc.reliable hl' hin true, ?_⟩
    have hstate := stateAt_withTracker (.of_clean hc) { l' with value := l'.value.insert n }
    refine ⟨h.sane.withTracker _, ?_, ?_, h.waitlist, ⟨_, withTracker_self _ _, ?_⟩, h.ticks, ?_⟩
    · intro m
      rw [DagStates.node, hstate]
      exact h.node m
    · intro m hm
      rw [Stored, hstate] at hm
      exact h.stored m hm
    · intro m
      rw [mem_insert, hmem]
      grind
    · intro m t ht
      obtain ⟨t', ht', hcreated, hkept, hstamp⟩ := h.states m t ht
      refine ⟨t', by rw [hstate, ht'], hcreated, fun hnot => hkept (by grind), ?_⟩
      intro hmn hml
      have hne : m ≠ n := fun he => hin ((hmem n).mpr (.inl (he ▸ hml)))
      exact hstamp (by grind) hml

end Stamps

/-- A harvest of the ledger: the graph's harvest, then the stamps. -/
theorem exec_dagHarvest {s : LedgerModule} (h : Sane config.toDagConfig s.toDagModule)
    {l : EdgeStateList} (hl : s.storage.list[trackerName]? = some (encodeEdgeStateList l)) :
    ∃ e s', exec (dagHarvest config) s = (.ok (), s') ∧
      exec (harvestAbove config.toDagConfig config.policyThreshold true) s.toDagModule =
        (.ok ((harvested s.toDagModule (config.policyThreshold ≤ ·) s.waitlist.toList).map fun n =>
          (node s.toDagModule n).record), e) ∧
      Harvests config.toDagConfig config.policyThreshold true s.toDagModule e ∧
      Stamps config.toDagConfig l
        (harvested s.toDagModule (config.policyThreshold ≤ ·) s.waitlist.toList) e s'.toDagModule := by
  obtain ⟨e, hrun, hc, hh⟩ := h.consistent.harvestAbove config.policyThreshold true
  let names := harvested s.toDagModule (config.policyThreshold ≤ ·) s.waitlist.toList
  have hloaded : ∀ n ∈ names, Stored s.toDagModule n := fun n hn =>
    stored_of_status (mem_harvested.mp hn).1
  have hharvest : exec (onDag (harvestAbove config.toDagConfig config.policyThreshold true)) s =
      (.ok (names.map fun n => (node s.toDagModule n).record), s.withDag e) := exec_onDag_of hrun
  have hsane : Sane config.toDagConfig e := h.of_others hc hh.others
  have hle : e.storage.list[trackerName]? = some (encodeEdgeStateList l) :=
    (hh.others _ trackerName_not_state).trans hl
  obtain ⟨_, s', hloop, hs'⟩ := exec_foldlM (f := fun (_ : Unit) (r : Record) => do
      modify fun ledger : LedgerModule =>
        { ledger with repliedRecords := ledger.repliedRecords.erase r.name }
      onDag (updateStatesTracker config (toStateName r.name) true))
    (fun done _ t => Stamps config.toDagConfig l (done.map fun r => toStateName r.name) e
      t.toDagModule) (names.map fun n => (node s.toDagModule n).record)
    (by
      intro done r rest _ t hdone ht
      obtain ⟨n, hn, rfl⟩ : ∃ n ∈ names, (node s.toDagModule n).record = r := by
        have : r ∈ names.map fun n => (node s.toDagModule n).record := by simp [hdone]
        exact List.mem_map.mp this
      have hname := h.consistent.clean.record_name (hloaded n hn)
      obtain ⟨d'', htrack, hd''⟩ := ht.snoc (n := toStateName (node s.toDagModule n).record.name)
        ((hh.stored _).mpr (hname.symm ▸ hloaded n hn))
      refine ⟨(), (LedgerModule.mk t.toDagModule t.seqNo
        (t.repliedRecords.erase (node s.toDagModule n).record.name)).withDag d'', ?_, ?_⟩
      · exact (exec_bind_ok (exec_modify _ _)).trans (exec_onDag_of htrack)
      · rw [List.map_append]
        exact hd'')
    (b := ()) (s := s.withDag e) (Stamps.nil hsane hle)
  refine ⟨e, s', ?_, hrun, hh, ?_⟩
  · rw [dagHarvest, exec_bind_ok hharvest]
    exact hloop
  · have hnames : (names.map fun n => (node s.toDagModule n).record).map
        (fun r => toStateName r.name) = names := by
      rw [List.map_map]
      exact (List.map_congr_left fun n hn => h.consistent.clean.record_name (hloaded n hn)).trans
        (List.map_id _)
    rw [hnames] at hs'
    exact hs'

end CertLedger.LedgerHarvest
