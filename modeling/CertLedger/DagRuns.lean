import CertLedger.DagRefinement
import CertLedger.PlainNdn
import CertLedger.RecordGraph

/-!
# Runs of the graph engine

Sequences of additions and harvests on an empty module, and what holds after
every one of them.
-/
namespace CertLedger.DagRuns
open Std TlvCodec FallibleState NdnObjects RecordCodec EdgeStateCodec InterlockPolicies
open OrderedContainers EndorsementDag DagEngine DagStates DagSearch DagUpdates DagHarvest
open DagRefinement RecordGraph Relation

section
variable [NdnCxx] {config : DagConfig}

/-! ## A module that holds the records of a list -/

/-- The record loaded under a state name. -/
def loadedRecord (d : DagModule) (n : Name) : Option Record :=
  if (node d n).status = .INITIALIZED then none else some (node d n).record

structure Holds (rs : List Record) (d : DagModule) : Prop where
  record : ∀ n, loadedRecord d (toStateName n) = recordOf rs n
  named : ∀ n, n ∈ (abs d).loaded → IsStateName n

theorem holds_empty : Holds [] {} where
  record n := by simp [loadedRecord, node_empty, Node.unknown, recordOf]
  named n hn := by simp [mem_loaded, node_empty, Node.unknown] at hn

namespace Holds
variable {rs : List Record} {d : DagModule}

theorem loaded_iff (h : Holds rs d) (n : Name) :
    toStateName n ∈ (abs d).loaded ↔ (recordOf rs n).isSome := by
  rw [← h.record, mem_loaded, loadedRecord]
  split_ifs with hs <;> simp [hs]

theorem record_eq (h : Holds rs d) {n : Name} {r : Record} (hr : recordOf rs n = some r) :
    (node d (toStateName n)).record = r := by
  rw [← h.record, loadedRecord] at hr
  split_ifs at hr
  exact Option.some.inj hr

theorem edge_iff (h : Holds rs d) {x v : Name} :
    (abs d).edge (toStateName x) v ↔ ∃ y, v = toStateName y ∧ Points rs x y := by
  rw [abs_edge, ← mem_loaded, h.loaded_iff, Node.next, List.mem_map]
  constructor
  · rintro ⟨hx, y, hy, hv⟩
    obtain ⟨r, hr⟩ := Option.isSome_iff_exists.mp hx
    exact ⟨y, hv.symm, r, hr, h.record_eq hr ▸ hy⟩
  · rintro ⟨y, hv, r, hr, hy⟩
    exact ⟨by simp [hr], y, (h.record_eq hr).symm ▸ hy, hv.symm⟩

theorem reaches_iff (h : Holds rs d) {x v : Name} :
    TransGen (abs d).edge (toStateName x) v ↔
      ∃ y, v = toStateName y ∧ TransGen (Points rs) x y := by
  constructor
  · intro hxv
    induction hxv with
    | single hxv =>
        obtain ⟨y, hv, hy⟩ := h.edge_iff.mp hxv
        exact ⟨y, hv, .single hy⟩
    | tail _ hbc ih =>
        obtain ⟨y, rfl, hxy⟩ := ih
        obtain ⟨z, hz, hyz⟩ := h.edge_iff.mp hbc
        exact ⟨z, hz, hxy.tail hyz⟩
  · rintro ⟨y, hv, hxy⟩
    rw [hv]
    exact TransGen.lift toStateName (fun a b hab => h.edge_iff.mpr ⟨b, rfl, hab⟩) x y hxy

theorem mem_endorsers_iff (h : Holds rs d) {a u : Name} :
    u ∈ endorsers rs a ↔ u ∈ (abs d).endorsers (toStateName a) := by
  rw [mem_endorsers]
  constructor
  · rintro ⟨x, hu, ⟨r, hr, hg⟩, hxa⟩
    have hx : toStateName x ∈ (abs d).loaded := (h.loaded_iff x).mpr (by simp [hr])
    rw [hu]
    exact ⟨⟨hx, h.record_eq hr ▸ hg⟩, h.reaches_iff.mpr ⟨a, rfl, hxa⟩⟩
  · rintro ⟨⟨hload, hg⟩, hua⟩
    obtain ⟨x, rfl⟩ := h.named u hload
    obtain ⟨r, hr⟩ := Option.isSome_iff_exists.mp ((h.loaded_iff x).mp hload)
    obtain ⟨y, hy, hxy⟩ := h.reaches_iff.mp hua
    rw [toStateName_inj] at hy
    exact ⟨x, rfl, ⟨r, hr, h.record_eq hr ▸ hg⟩, hy ▸ hxy⟩

theorem enough_iff (h : Holds rs d) (t : ℕ) (a : Name) :
    config.policy.enough t ((abs d).endorsers (toStateName a)) ↔
      t ≤ config.policy.value (endorsers rs a) :=
  InterlockPolicies.enough_iff fun _ => h.mem_endorsers_iff

/-- A record added twice changes nothing the second time. -/
theorem add_old (h : Holds rs d) {r : Record}
    (hold : (node d (toStateName r.name)).status ≠ .INITIALIZED) : Holds (rs ++ [r]) d where
  record n := by
    rw [recordOf_append, h.record]
    by_cases hn : r.name = n
    · subst hn
      obtain ⟨s, hs⟩ := Option.isSome_iff_exists.mp ((h.loaded_iff r.name).mp hold)
      rw [hs, Option.some_or]
    · simp [hn]
  named := h.named

theorem add_new (h : Holds rs d) {r : Record} {d' : DagModule}
    (hnew : (node d (toStateName r.name)).status = .INITIALIZED) (ha : Adds r d d') :
    Holds (rs ++ [r]) d' := by
  have hload : ∀ n, n ∈ (abs d').loaded ↔ n = toStateName r.name ∨ n ∈ (abs d).loaded := by
    intro n
    rw [ha.abs_eq]
    rfl
  refine ⟨?_, ?_⟩
  · intro n
    rw [recordOf_append]
    by_cases hn : r.name = n
    · subst hn
      have hnone : recordOf rs r.name = none := by
        rw [← h.record, loadedRecord, if_pos hnew]
      have hin : (node d' (toStateName r.name)).status ≠ .INITIALIZED :=
        mem_loaded.mp ((hload _).mpr (.inl rfl))
      rw [hnone, Option.none_or, if_pos rfl, loadedRecord, if_neg hin, ha.loaded]
    · have hne : toStateName n ≠ toStateName r.name := fun he => hn (toStateName_inj.mp he).symm
      have hst : (node d' (toStateName n)).status = .INITIALIZED ↔
          (node d (toStateName n)).status = .INITIALIZED := by
        have := hload (toStateName n)
        simp only [mem_loaded, hne, false_or] at this
        exact not_iff_not.mp this
      rw [if_neg hn, Option.or_none, ← h.record, loadedRecord, loadedRecord, ha.record _ hne]
      simp only [hst]
  · intro n hn
    rcases (hload n).mp hn with rfl | hn
    · exact isStateName_toStateName _
    · exact h.named n hn

theorem harvest (h : Holds rs d) {t : ℕ} {remove : Bool} {d' : DagModule}
    (hh : Harvests config t remove d d') : Holds rs d' := by
  have hload : ∀ n, n ∈ (abs d').loaded ↔ n ∈ (abs d).loaded := by
    intro n
    rw [hh.abs_eq]
    rfl
  refine ⟨?_, fun n hn => h.named n ((hload n).mp hn)⟩
  intro n
  have hst : (node d' (toStateName n)).status = .INITIALIZED ↔
      (node d (toStateName n)).status = .INITIALIZED := not_iff_not.mp (hload (toStateName n))
  rw [← h.record, loadedRecord, loadedRecord, hh.record]
  simp only [hst]

end Holds

/-! ## Runs -/

inductive Operation where
  | add (record : Record)
  | harvestAbove (threshold : ℕ) (remove : Bool)
  | harvestBelow (threshold : ℕ)

namespace Operation

def perform (config : DagConfig) : Operation → DagM Unit
  | add record => do let _ ← DagEngine.add config record
  | harvestAbove threshold remove => do
      let _ ← DagEngine.harvestAbove config threshold remove
  | harvestBelow threshold => do let _ ← DagEngine.harvestBelow config threshold

def record? : Operation → Option Record
  | add record => some record
  | _ => none

/-- Not a harvest that leaves what it interlocks in the waitlist. -/
def removes : Operation → Bool
  | harvestAbove _ remove => remove
  | _ => true

end Operation

def run (config : DagConfig) (ops : List Operation) : DagM Unit :=
  ops.foldlM (fun _ op => op.perform config) ()

/-- The records added in a run, in order. -/
def recordsOf (ops : List Operation) : List Record := ops.filterMap (·.record?)

omit [NdnCxx] in
theorem recordsOf_append (ops ops' : List Operation) :
    recordsOf (ops ++ ops') = recordsOf ops ++ recordsOf ops' := List.filterMap_append

omit [NdnCxx] in
@[simp] theorem recordsOf_harvestAbove (t : ℕ) (remove : Bool) :
    recordsOf [.harvestAbove t remove] = [] := rfl

omit [NdnCxx] in
@[simp] theorem recordsOf_harvestBelow (t : ℕ) : recordsOf [.harvestBelow t] = [] := rfl

/-- No interlocked name is in the waitlist. -/
def Unlisted (d : DagModule) : Prop :=
  ∀ k n, InBucket d.waitlist k n → (node d n).status ≠ .INTERLOCKED

theorem Unlisted.add {d d' : DagModule} {r : Record} (h : Unlisted d) (ha : Adds r d d') :
    Unlisted d' := by
  intro k n hin hlock
  have hbefore : n ∈ (abs d).locked := by
    have : n ∈ (abs d').locked := hlock
    rwa [ha.abs_eq] at this
  exact h k n ((ha.unlisted k n hlock).mp hin) hbefore

theorem Unlisted.harvest {d d' : DagModule} (h : Unlisted d) (hc : Consistent config d) {t : ℕ}
    (hh : Harvests config t true d d') : Unlisted d' := by
  intro k n hin hlock
  obtain ⟨hbefore, hkept⟩ := (hh.bucket k n).mp hin
  have hl : n ∈ (abs d').locked := hlock
  rw [hh.abs_eq] at hl
  rcases hl with hl | ⟨⟨hload, -, ht⟩, -⟩
  · exact h k n hbefore hl
  · have hk := (hc.bucket k n hbefore).2
    exact hkept ⟨rfl, hk ▸ (enough_desc n).mp ht, hload⟩

/-- What holds after a run with the records `rs`. -/
structure Reached (config : DagConfig) (rs : List Record) (removed : Prop) (d : DagModule) :
    Prop where
  consistent : Consistent config d
  holds : Holds rs d
  unlisted : removed → Unlisted d

theorem reached_empty (removed : Prop) : Reached config [] removed {} where
  consistent := Consistent.empty
  holds := holds_empty
  unlisted _ k n hn := by simp [InBucket] at hn

namespace Reached
variable {rs : List Record} {removed : Prop} {d : DagModule}

theorem add (h : Reached config rs removed d) (r : Record) :
    ∃ d', exec (DagEngine.add config r) d = (.ok (toStateName r.name), d') ∧
      Reached config (rs ++ [r]) removed d' ∧
      ((node d (toStateName r.name)).status ≠ .INITIALIZED ∧ d' = d ∨
        (node d (toStateName r.name)).status = .INITIALIZED ∧ Adds r d d') := by
  by_cases hs : (node d (toStateName r.name)).status = .INITIALIZED
  · obtain ⟨d', hrun, hc, ha⟩ := h.consistent.add_new hs
    exact ⟨d', hrun, ⟨hc, h.holds.add_new hs ha, fun hr => (h.unlisted hr).add ha⟩,
      .inr ⟨hs, ha⟩⟩
  · exact ⟨d, h.consistent.add_old hs, ⟨h.consistent, h.holds.add_old hs, h.unlisted⟩,
      .inl ⟨hs, rfl⟩⟩

theorem harvestAbove (h : Reached config rs removed d) (t : ℕ) (remove : Bool) :
    ∃ d', exec (DagEngine.harvestAbove config t remove) d =
        (.ok ((harvested d (t ≤ ·) d.waitlist.toList).map fun n => (node d n).record), d') ∧
      Reached config rs (removed ∧ remove = true) d' ∧ Harvests config t remove d d' := by
  obtain ⟨d', hrun, hc, hh⟩ := h.consistent.harvestAbove t remove
  refine ⟨d', hrun, ⟨hc, h.holds.harvest hh, ?_⟩, hh⟩
  rintro ⟨hr, rfl⟩
  exact (h.unlisted hr).harvest h.consistent hh

/-- One operation of a run. -/
theorem perform (h : Reached config rs removed d) (op : Operation) :
    ∃ d', exec (op.perform config) d = (.ok (), d') ∧
      Reached config (rs ++ recordsOf [op]) (removed ∧ op.removes = true) d' := by
  cases op with
  | add r =>
      obtain ⟨d', hrun, hd', -⟩ := h.add r
      exact ⟨d', exec_bind_ok hrun, hd'.consistent, hd'.holds, fun hr => hd'.unlisted hr.1⟩
  | harvestAbove t remove =>
      obtain ⟨d', hrun, hd', -⟩ := h.harvestAbove t remove
      rw [recordsOf_harvestAbove, List.append_nil]
      exact ⟨d', exec_bind_ok hrun, hd'.consistent, hd'.holds, hd'.unlisted⟩
  | harvestBelow t =>
      rw [recordsOf_harvestBelow, List.append_nil]
      exact ⟨d, exec_bind_ok (h.consistent.harvestBelow t), h.consistent, h.holds,
        fun hr => h.unlisted hr.1⟩

end Reached

/-- Every run succeeds. -/
theorem exec_run (config : DagConfig) (ops : List Operation) :
    ∃ d, exec (run config ops) {} = (.ok (), d) ∧
      Reached config (recordsOf ops) (∀ op ∈ ops, op.removes = true) d := by
  obtain ⟨_, d, hrun, hd⟩ := exec_foldlM (f := fun _ op => op.perform config)
    (fun done (_ : Unit) s =>
      Reached config (recordsOf done) (∀ op ∈ done, op.removes = true) s) ops
    (by
      intro done op rest _ s _ hs
      obtain ⟨s', hrun, hs'⟩ := hs.perform op
      rw [recordsOf_append]
      refine ⟨(), s', hrun, hs'.consistent, hs'.holds, fun hr => hs'.unlisted ⟨?_, ?_⟩⟩
      · exact fun o ho => hr o (by simp [ho])
      · exact hr op (by simp))
    (b := ()) (s := {}) (reached_empty _)
  exact ⟨d, hrun, hd⟩

/-! ## Soundness in every run -/

theorem mem_descendants_sound {rs : List Record} {d : DagModule} (hc : Consistent config d)
    (hh : Holds rs d) {a : Name} {s : EdgeState} (hs : stateAt d a = some s) {x : Name}
    (hx : x ∈ s.descendants) :
    ∃ y b, x = toStateName y ∧ a = toStateName b ∧ Endorses rs y b := by
  obtain ⟨b, rfl⟩ := (hc.clean.state hs).1
  have hdesc : x ∈ (abs d).desc (toStateName b) := by
    rw [mem_desc, node, hs]
    exact hx
  obtain ⟨y, hy, he⟩ := mem_endorsers.mp (hh.mem_endorsers_iff.mpr (hc.sound _ hdesc))
  exact ⟨y, b, hy, rfl, he⟩

/-- What is stored or returned as endorsed is endorsed, whatever the run was. -/
theorem interlocking_sound (ops : List Operation) :
    ∃ d, exec (run config ops) {} = (.ok (), d) ∧
      (∀ a s, stateAt d a = some s → ∀ x ∈ s.descendants,
        ∃ y b, x = toStateName y ∧ a = toStateName b ∧ Endorses (recordsOf ops) y b) ∧
      ∀ t, ∃ ret d', exec (harvestAbove config t true) d = (.ok ret, d') ∧
        ∀ r ∈ ret, recordOf (recordsOf ops) r.name = some r ∧
          t ≤ config.policy.value (endorsers (recordsOf ops) r.name) := by
  obtain ⟨d, hrun, hd⟩ := exec_run config ops
  refine ⟨d, hrun, fun a s hs x hx => mem_descendants_sound hd.consistent hd.holds hs hx, ?_⟩
  intro t
  obtain ⟨d', hharvest, -, -⟩ := hd.harvestAbove t true
  refine ⟨_, d', hharvest, ?_⟩
  intro r hr
  obtain ⟨n, hn, rfl⟩ := List.mem_map.mp hr
  obtain ⟨hload, k, ht, hk⟩ := mem_harvested.mp hn
  obtain ⟨m, rfl⟩ := hd.holds.named n hload
  obtain ⟨r, hrec⟩ := Option.isSome_iff_exists.mp ((hd.holds.loaded_iff m).mp hload)
  rw [hd.holds.record_eq hrec, recordOf_name hrec]
  refine ⟨hrec, (of_decide_eq_true ht).trans ?_⟩
  rw [(hd.consistent.bucket k _ hk).2]
  refine value_mono _ fun x hx => hd.holds.mem_endorsers_iff.mpr (hd.consistent.sound _ ?_)
  exact (mem_members _ _).mp hx

/-- Only a record that reaches itself counts toward its own interlock. -/
theorem own_descendant_reaches_itself (ops : List Operation) :
    ∃ d, exec (run config ops) {} = (.ok (), d) ∧
      (∀ a s, stateAt d a = some s → s.stateName ∈ s.descendants →
        Endorses (recordsOf ops) (fromStateName s.stateName) (fromStateName s.stateName)) ∧
      (Acyclic (recordsOf ops) → ∀ a s, stateAt d a = some s → s.stateName ∉ s.descendants) := by
  obtain ⟨d, hrun, hd⟩ := exec_run config ops
  have hself : ∀ a s, stateAt d a = some s → s.stateName ∈ s.descendants →
      Endorses (recordsOf ops) (fromStateName s.stateName) (fromStateName s.stateName) := by
    intro a s hs hmem
    obtain ⟨y, b, hy, hb, he⟩ := mem_descendants_sound hd.consistent hd.holds hs hmem
    have hname : s.stateName = a := (hd.consistent.clean.state hs).2.1
    obtain rfl : y = b := toStateName_inj.mp (hy.symm.trans (hname.trans hb))
    rwa [hy, fromStateName_toStateName]
  exact ⟨d, hrun, hself, fun h a s hs hmem => h.not_endorses _ (hself a s hs hmem)⟩

/-! ## The waitlist in runs that remove what they interlock -/

theorem nodup_harvested {d : DagModule} (h : Consistent config d) (hits : ℕ → Bool) :
    (harvested d hits d.waitlist.toList).Nodup := by
  rw [harvested, List.nodup_flatMap]
  refine ⟨fun b _ => (nodup_toList b.2).filter _, ?_⟩
  have hkeys : d.waitlist.toList.Pairwise fun b c => b.1 ≠ c.1 :=
    (ExtTreeMap.distinct_keys_toList (t := d.waitlist)).imp fun hbc he =>
      hbc (by rw [he]; exact ReflCmp.compare_self)
  refine (hkeys.filter _).imp_of_mem fun hb hc hne => ?_
  intro n hnb hnc
  have hin : ∀ {b : ℕ × NameSet}, b ∈ d.waitlist.toList.filter (fun b => hits b.1) →
      n ∈ loadedNames d b.2.toList → b.1 = value config d n := fun hb hn =>
    (h.bucket _ n ((inBucket_iff_mem_toList _ _ _).mpr ⟨_, (List.mem_filter.mp hb).1, rfl,
      ExtTreeSet.mem_toList.mp (mem_loadedNames.mp hn).1⟩)).2
  exact hne ((hin hb hnb).trans (hin hc hnc).symm)

/-- Names of loaded states are told apart by the records they hold. -/
theorem record_injective {d : DagModule} (h : Consistent config d) {m n : Name}
    (hm : (node d m).status ≠ .INITIALIZED) (hn : (node d n).status ≠ .INITIALIZED)
    (he : (node d m).record = (node d n).record) : m = n := by
  rw [← h.clean.record_name (stored_of_status hm), he, h.clean.record_name (stored_of_status hn)]

theorem mem_harvests {d : DagModule} (h : Consistent config d) (hu : Unlisted d) (t : ℕ)
    (n : Name) :
    n ∈ harvested d (· < t) d.waitlist.toList ++ harvested d (t ≤ ·) d.waitlist.toList ↔
      (node d n).status = .LOADED := by
  simp only [List.mem_append, mem_harvested, decide_eq_true_eq]
  constructor
  · intro hn
    have hin : (node d n).status ≠ .INITIALIZED ∧ ∃ k, InBucket d.waitlist k n := by
      rcases hn with ⟨hs, k, -, hk⟩ | ⟨hs, k, -, hk⟩ <;> exact ⟨hs, k, hk⟩
    obtain ⟨hs, k, hk⟩ := hin
    exact Status.eq_loaded hs (hu k n hk)
  · intro hs
    have hload : (node d n).status ≠ .INITIALIZED := by simp [hs]
    have hin := h.waiting n (stored_of_status hload) (by simp [hs])
    rcases Nat.lt_or_ge (value config d n) t with ht | ht
    · exact .inl ⟨hload, _, ht, hin⟩
    · exact .inr ⟨hload, _, ht, hin⟩

/-- Every open state is in the bucket of its value and in no other; a harvest
below a threshold and one from it up share the loaded records out. -/
theorem waitlist_representation (ops : List Operation) (h : ∀ op ∈ ops, op.removes = true) :
    ∃ d, exec (run config ops) {} = (.ok (), d) ∧
      (∀ n k j, InBucket d.waitlist k n → InBucket d.waitlist j n → k = j) ∧
      (∀ n s, stateAt d n = some s → s.status ≠ .INTERLOCKED →
        ∀ k, InBucket d.waitlist k n ↔ k = config.policy.evaluate s) ∧
      (∀ n s, stateAt d n = some s → s.status = .INTERLOCKED → ∀ k, ¬InBucket d.waitlist k n) ∧
      ∀ t, ∃ below above d', exec (harvestBelow config t) d = (.ok below, d) ∧
        exec (harvestAbove config t true) d = (.ok above, d') ∧ (below ++ above).Nodup ∧
        ∀ r, r ∈ below ++ above ↔
          ∃ n s, stateAt d n = some s ∧ s.status = .LOADED ∧ s.record = r := by
  obtain ⟨d, hrun, hd⟩ := exec_run config ops
  have hc := hd.consistent
  have hopen := hd.unlisted h
  refine ⟨d, hrun, ?_, ?_, ?_, ?_⟩
  · exact fun n k j hk hj => (hc.bucket k n hk).2.trans (hc.bucket j n hj).2.symm
  · intro n s hs hstatus k
    have hvalue : value config d n = config.policy.evaluate s := by
      rw [value, node_of_stateAt hs, evaluate_eq_value]
      rfl
    rw [← hvalue]
    refine ⟨fun hk => (hc.bucket k n hk).2, fun hk => hk ▸ hc.waiting n (by simp [Stored, hs]) ?_⟩
    rw [node_of_stateAt hs]
    exact hstatus
  · intro n s hs hstatus k hk
    refine hopen k n hk ?_
    rw [node_of_stateAt hs]
    exact hstatus
  · intro t
    obtain ⟨d', habove, -, -⟩ := hd.harvestAbove t true
    have hmem := mem_harvests hc hopen t
    refine ⟨_, _, d', hc.harvestBelow t, habove, ?_, ?_⟩
    · rw [← List.map_append]
      refine List.Nodup.map_on ?_ ?_
      · intro m hm n hn
        exact record_injective hc (by simp [(hmem m).mp hm]) (by simp [(hmem n).mp hn])
      · refine (nodup_harvested hc _).append (nodup_harvested hc _) ?_
        intro n hb ha
        obtain ⟨-, k, hk, hkn⟩ := mem_harvested.mp hb
        obtain ⟨-, j, hj, hjn⟩ := mem_harvested.mp ha
        have hkj := (hc.bucket k n hkn).2.trans (hc.bucket j n hjn).2.symm
        simp only [decide_eq_true_eq] at hk hj
        omega
    · intro r
      rw [← List.map_append, List.mem_map]
      constructor
      · rintro ⟨n, hn, hr⟩
        have hs := (hmem n).mp hn
        have hload : (node d n).status ≠ .INITIALIZED := by simp [hs]
        obtain ⟨s, hst⟩ := Option.isSome_iff_exists.mp (stored_of_status hload)
        rw [node_of_stateAt hst] at hs hr
        exact ⟨n, s, hst, hs, hr⟩
      · rintro ⟨n, s, hst, hs, hr⟩
        refine ⟨n, (hmem n).mpr ?_, ?_⟩
        · rw [node_of_stateAt hst]
          exact hs
        · rw [node_of_stateAt hst]
          exact hr

end

section
open PlainNdn

local instance plainTable : NdnCxx := plainNdn []

/-- A record that points to itself is its own descendant. -/
theorem own_descendant :
    ¬ ∀ (config : DagConfig) (ops : List Operation) (d : DagModule),
      exec (run config ops) {} = (.ok (), d) →
      ∀ a s, stateAt d a = some s → s.stateName ∉ s.descendants := by
  intro h
  have hself : (stateAt (exec (run ⟨.descendants, fun i => 1000 * i⟩
      [.add { name := [Name.keyword [65]], pointers := [[Name.keyword [65]]] }]) {}).2
      (toStateName [Name.keyword [65]])).any (fun s => s.stateName ∈ s.descendants) = true := by
    decide +kernel
  rw [Option.any_eq_true] at hself
  obtain ⟨s, hs, hmem⟩ := hself
  exact h _ _ _ (exec_eq_of_isOk (by decide +kernel)) _ s hs (of_decide_eq_true hmem)

/-- A genesis record, a record that points to it, harvests between and after. -/
def harvestedPair : List Operation :=
  [.add { name := [Name.keyword [65]], type := GENESIS_RECORD, pointers := [[Name.keyword [65]]] },
    .harvestAbove 1 true, .add { name := [Name.keyword [66]], pointers := [[Name.keyword [65]]] },
    .harvestBelow 1, .harvestAbove 1 true]

theorem waitlist_representation_pair :
    ∃ d, exec (run ⟨.descendants, fun i => 1000 * i⟩ harvestedPair) {} = (.ok (), d) ∧
      (∀ n k j, InBucket d.waitlist k n → InBucket d.waitlist j n → k = j) ∧
      (∀ n s, stateAt d n = some s → s.status ≠ .INTERLOCKED →
        ∀ k, InBucket d.waitlist k n ↔ k = InterlockPolicy.descendants.evaluate s) ∧
      (∀ n s, stateAt d n = some s → s.status = .INTERLOCKED → ∀ k, ¬InBucket d.waitlist k n) ∧
      ∀ t, ∃ below above d',
        exec (harvestBelow ⟨.descendants, fun i => 1000 * i⟩ t) d = (.ok below, d) ∧
        exec (harvestAbove ⟨.descendants, fun i => 1000 * i⟩ t true) d = (.ok above, d') ∧
        (below ++ above).Nodup ∧ ∀ r, r ∈ below ++ above ↔
          ∃ n s, stateAt d n = some s ∧ s.status = .LOADED ∧ s.record = r :=
  waitlist_representation harvestedPair (by decide)

end

end CertLedger.DagRuns
