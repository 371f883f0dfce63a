import CertLedger.DagRuns
import CertLedger.PlainNdn

/-!
# Runs whose endorsements are exact

Without harvests the stored descendants are all endorsers. With a harvest after
every record they are exact on the open states as long as no record is endorsed
enough before all it reaches has arrived; then the interlocked names depend on
the records alone.
-/
namespace CertLedger.EndorsementRuns
open Std TlvCodec FallibleState NdnObjects RecordCodec EdgeStateCodec InterlockPolicies
open OrderedContainers EndorsementDag DagEngine DagStates DagSearch DagUpdates DagHarvest
open DagRefinement RecordGraph DagRuns Relation

section
variable [NdnCxx] {config : DagConfig}

/-! ## Runs without harvests -/

theorem exec_addAll (config : DagConfig) (rs : List Record) :
    ∃ d, exec (run config (rs.map .add)) {} = (.ok (), d) ∧ Reached config rs True d ∧
      (abs d).locked = ∅ ∧ (abs d).Complete := by
  rw [run, List.foldlM_map]
  obtain ⟨_, d, hrun, hd, hl, hcomp⟩ := exec_foldlM
    (f := fun _ r => (Operation.add r).perform config)
    (fun done (_ : Unit) s =>
      Reached config done True s ∧ (abs s).locked = ∅ ∧ (abs s).Complete) rs
    (by
      intro done r rest _ s _ hI
      obtain ⟨hs, hl, hcomp⟩ := hI
      obtain ⟨s', hadd, hs', heffect⟩ := hs.add r
      refine ⟨(), s', exec_bind_ok hadd, hs', ?_⟩
      rcases heffect with ⟨-, rfl⟩ | ⟨hnew, ha⟩
      · exact ⟨hl, hcomp⟩
      · have hclosed : (abs s).Closed := by
          intro p hp
          rw [hl] at hp
          exact hp.elim
        rw [ha.abs_eq]
        exact ⟨hl, hcomp.add hclosed (fun hload => hload hnew)⟩)
    (b := ()) (s := {})
    ⟨reached_empty _, by rw [abs_empty]; rfl, by rw [abs_empty]; exact Dag.complete_empty⟩
  exact ⟨d, hrun, hd, hl, hcomp⟩

/-- Without harvests the stored descendants are all the endorsers there are. -/
theorem descendants_exact (rs : List Record) :
    ∃ d, exec (run config (rs.map .add)) {} = (.ok (), d) ∧
      ∀ a s, stateAt d a = some s → ∀ x, x ∈ s.descendants ↔
        ∃ y b, x = toStateName y ∧ a = toStateName b ∧ Endorses rs y b := by
  obtain ⟨d, hrun, hd, hl, hcomp⟩ := exec_addAll config rs
  refine ⟨d, hrun, ?_⟩
  intro a s hs x
  refine ⟨mem_descendants_sound hd.consistent hd.holds hs, ?_⟩
  rintro ⟨y, b, hx, ha, he⟩
  subst ha
  have hend : x ∈ (abs d).endorsers (toStateName b) :=
    hd.holds.mem_endorsers_iff.mp (mem_endorsers.mpr ⟨y, hx, he⟩)
  have hopen : toStateName b ∉ (abs d).locked := by
    rw [hl]
    exact fun h => h
  have hmem := hcomp _ hopen hend
  rwa [mem_desc, node_of_stateAt hs] at hmem

/-! ## Runs that harvest after every record -/

def addAndHarvest (config : DagConfig) (t : ℕ) (record : Record) : DagM Unit := do
  let _ ← add config record
  let _ ← harvestAbove config t true

def runHarvesting (config : DagConfig) (t : ℕ) (rs : List Record) : DagM Unit :=
  rs.foldlM (fun _ r => addAndHarvest config t r) ()

def Interlocked (d : DagModule) (n : Name) : Prop :=
  ∃ s, stateAt d n = some s ∧ s.status = .INTERLOCKED

theorem interlocked_iff {d : DagModule} {n : Name} : Interlocked d n ↔ n ∈ (abs d).locked := by
  rw [mem_locked]
  constructor
  · rintro ⟨s, hs, hstatus⟩
    rw [node_of_stateAt hs]
    exact hstatus
  · intro hlock
    have hload : (node d n).status ≠ .INITIALIZED := by simp [hlock]
    obtain ⟨s, hs⟩ := Option.isSome_iff_exists.mp (stored_of_status hload)
    rw [node_of_stateAt hs] at hlock
    exact ⟨s, hs, hlock⟩

/-- A timely run keeps the graph balanced. -/
theorem exec_runHarvesting (config : DagConfig) {t : ℕ} {rs : List Record} (hnames : (rs.map (·.name)).Nodup)
    (htimely : Timely config.policy t rs) :
    ∃ d, exec (runHarvesting config t rs) {} = (.ok (), d) ∧ Holds rs d ∧
      (abs d).Balanced (config.policy.enough t) := by
  obtain ⟨_, d, hrun, hd, hb⟩ := exec_foldlM (f := fun _ r => addAndHarvest config t r)
    (fun done (_ : Unit) s =>
      Reached config done True s ∧ (abs s).Balanced (config.policy.enough t)) rs
    (by
      intro us r vs _ s hrs hI
      obtain ⟨hs, hb⟩ := hI
      obtain ⟨s₁, hadd, hs₁, heffect⟩ := hs.add r
      obtain ⟨s₂, hharvest, hs₂, hh⟩ := hs₁.harvestAbove t true
      refine ⟨(), s₂, (exec_bind_ok hadd).trans (exec_bind_ok hharvest),
        ⟨hs₂.consistent, hs₂.holds, fun _ => hs₂.unlisted ⟨trivial, rfl⟩⟩, ?_⟩
      have hfresh : (node s (toStateName r.name)).status = .INITIALIZED := by
        by_contra hold
        have hsome := (hs.holds.loaded_iff r.name).mp hold
        obtain ⟨q, hq⟩ := Option.isSome_iff_exists.mp hsome
        rw [hrs, List.map_append, List.map_cons, List.nodup_append] at hnames
        exact hnames.2.2 q.name (List.mem_map_of_mem (recordOf_mem hq)) r.name (by simp)
          (recordOf_name hq)
      have ha : Adds r s s₁ := by
        rcases heffect with ⟨hold, -⟩ | ⟨-, ha⟩
        · exact (hold hfresh).elim
        · exact ha
      rw [hh.abs_eq, ha.abs_eq]
      refine hb.round (fun h => enough_mono h) _ _ (fun hload => hload hfresh) ?_
      -- what is endorsed enough now has all it reaches in the list so far
      rw [← ha.abs_eq]
      intro p hp henough a hpa
      have hload : ∀ n, n ∈ (abs s₁).loaded ↔
          n ∈ insert (toStateName r.name) (abs s).loaded := by
        intro n
        rw [ha.abs_eq]
        rfl
      rw [← hload] at hp ⊢
      obtain ⟨m, rfl⟩ := hs₁.holds.named p hp
      obtain ⟨b, rfl, hmb⟩ := hs₁.holds.reaches_iff.mp hpa
      refine (hs₁.holds.loaded_iff b).mpr (htimely (us ++ [r]) ⟨vs, by simp [hrs]⟩ m
        ((hs₁.holds.loaded_iff m).mp hp) ?_ b hmb)
      exact (hs₁.holds.enough_iff t m).mp henough)
    (b := ()) (s := {}) ⟨reached_empty _, by rw [abs_empty]; exact Dag.balanced_empty⟩
  exact ⟨d, hrun, hd.holds, hb⟩

/-- The interlocked names of a timely run are those the records endorse enough. -/
theorem interlocked_of_balanced {t : ℕ} {rs : List Record} {d : DagModule} (hh : Holds rs d)
    (hb : (abs d).Balanced (config.policy.enough t)) (n : Name) :
    Interlocked d n ↔ ∃ m, n = toStateName m ∧ (recordOf rs m).isSome ∧
      t ≤ config.policy.value (endorsers rs m) := by
  rw [interlocked_iff, hb.settled n]
  constructor
  · rintro ⟨hload, henough⟩
    obtain ⟨m, rfl⟩ := hh.named n hload
    exact ⟨m, rfl, (hh.loaded_iff m).mp hload, (hh.enough_iff t m).mp henough⟩
  · rintro ⟨m, hn, hload, ht⟩
    rw [hn]
    exact ⟨(hh.loaded_iff m).mpr hload, (hh.enough_iff t m).mpr ht⟩

/-- In-order arrival: after every step the interlocked names are exactly those
endorsed enough, and what an interlocked record reaches is interlocked. -/
theorem inOrder_interlocking_exact (t : ℕ) (rs : List Record) (h : InOrder rs) :
    ∀ us, us <+: rs → ∃ d, exec (runHarvesting config t us) {} = (.ok (), d) ∧
      (∀ n, Interlocked d n ↔ ∃ m, n = toStateName m ∧ (recordOf us m).isSome ∧
        t ≤ config.policy.value (endorsers us m)) ∧
      ∀ p a, Interlocked d (toStateName p) → TransGen (Points us) p a →
        Interlocked d (toStateName a) := by
  intro us hus
  have hin := h.initial hus
  have hnames : (us.map (·.name)).Nodup := by
    simpa using InOrderAfter.nodup hin (by simp)
  obtain ⟨d, hrun, hh, hb⟩ := exec_runHarvesting config (t := t) hnames hin.timely
  refine ⟨d, hrun, interlocked_of_balanced hh hb, ?_⟩
  intro p a hp hpa
  rw [interlocked_iff] at hp ⊢
  exact hb.closed _ hp _ (hh.reaches_iff.mpr ⟨a, rfl, hpa⟩)

/-- Timely orders of the same records interlock the same names. -/
theorem timely_orders_agree {t : ℕ} {rs ss : List Record} (hperm : rs.Perm ss)
    (hnames : (rs.map (·.name)).Nodup) (hrs : Timely config.policy t rs)
    (hss : Timely config.policy t ss) :
    ∃ d e, exec (runHarvesting config t rs) {} = (.ok (), d) ∧
      exec (runHarvesting config t ss) {} = (.ok (), e) ∧
      ∀ n, Interlocked d n ↔ Interlocked e n := by
  have hnames' := (hperm.map (·.name)).nodup_iff.mp hnames
  obtain ⟨d, hrun, hd, hdb⟩ := exec_runHarvesting config hnames hrs
  obtain ⟨e, hrun', he, heb⟩ := exec_runHarvesting config hnames' hss
  refine ⟨d, e, hrun, hrun', ?_⟩
  intro n
  have hrecord := recordOf_perm hperm hnames
  rw [interlocked_of_balanced hd hdb, interlocked_of_balanced he heb, hrecord,
    endorsers_congr hrecord]

end

/-! ## Concrete orders -/

section
open PlainNdn

local instance emptyTable : NdnCxx := plainNdn []

/-- The name of a producer's record. -/
def producerName (producer seq : UInt8) : Name :=
  [Name.generic [producer], Name.generic [seq]]

def recordX : Record := { name := producerName 65 1 }
def recordY : Record := { name := producerName 65 2, pointers := [recordX.name] }
def recordP : Record := { name := producerName 65 3, pointers := [recordY.name] }
def recordD : Record := { name := producerName 66 1, pointers := [recordP.name] }
def recordE : Record := { name := producerName 67 1, pointers := [recordP.name] }

def witnessConfig : DagConfig := ⟨.witness, fun i => 1000 * i⟩

def ancestorsFirst : List Record := [recordX, recordY, recordP, recordD, recordE]
def ancestorsLast : List Record := [recordP, recordD, recordE, recordX, recordY]

/-- Once `p` is interlocked the search of its endorsers stops there, so an
ancestor that arrives later gets `p` but not them. -/
theorem arrival_order_matters :
    ancestorsFirst.Perm ancestorsLast ∧ (ancestorsFirst.map (·.name)).Nodup ∧
      Acyclic ancestorsFirst ∧
      ∃ d e, exec (runHarvesting witnessConfig 2 ancestorsFirst) {} = (.ok (), d) ∧
        exec (runHarvesting witnessConfig 2 ancestorsLast) {} = (.ok (), e) ∧
        ¬∀ n, Interlocked d n ↔ Interlocked e n := by
  refine ⟨by decide, by decide, acyclic_of_rank
    (fun n => (ancestorsFirst.map (·.name)).idxOf n) (by decide), _, _,
    exec_eq_of_isOk (by decide +kernel), exec_eq_of_isOk (by decide +kernel), ?_⟩
  intro h
  have hx := h (toStateName recordX.name)
  rw [interlocked_iff, interlocked_iff, mem_locked, mem_locked] at hx
  exact absurd (hx.mp (by decide +kernel)) (by decide +kernel)

def root : Record := { name := producerName 65 0, type := GENESIS_RECORD,
                       pointers := [producerName 65 0] }
def left : Record := { name := producerName 65 1, pointers := [root.name] }
def right : Record := { name := producerName 66 1, pointers := [root.name] }
def join : Record := { name := producerName 67 1, pointers := [left.name, right.name] }

theorem timely_orders_agree_diamond :
    ∃ d e, exec (runHarvesting witnessConfig 2 [root, left, right, join]) {} = (.ok (), d) ∧
      exec (runHarvesting witnessConfig 2 [root, right, left, join]) {} = (.ok (), e) ∧
      ∀ n, Interlocked d n ↔ Interlocked e n :=
  timely_orders_agree (by decide) (by decide) (InOrder.timely (by decide))
    (InOrder.timely (by decide))

theorem inOrder_interlocking_exact_diamond :
    ∃ d, exec (runHarvesting witnessConfig 2 [root, left, right]) {} = (.ok (), d) ∧
      (∀ n, Interlocked d n ↔ ∃ m, n = toStateName m ∧
        (recordOf [root, left, right] m).isSome ∧
          2 ≤ witnessConfig.policy.value (endorsers [root, left, right] m)) ∧
      ∀ p a, Interlocked d (toStateName p) → TransGen (Points [root, left, right]) p a →
        Interlocked d (toStateName a) :=
  inOrder_interlocking_exact 2 [root, left, right, join] (by decide) _ ⟨[join], rfl⟩

end

end CertLedger.EndorsementRuns
