import CertLedger.DagLifecycle

/-!
# The tips of the graph

The bucket of the value zero holds the loaded records that nobody has endorsed.
A record leaves it with the first pointer of a non-genesis record, whichever of
the two comes first; only pointers of genesis records let one leave it later.
-/
namespace CertLedger.DagTips
open Std TlvCodec FallibleState NdnObjects RecordCodec EdgeStateCodec InterlockPolicies
open OrderedContainers EndorsementDag DagEngine DagStates DagUpdates DagHarvest DagRefinement
open DagRuns

section
variable [NdnCxx] {config : DagConfig}

/-- A name is stored by an addition for the record itself or for what it endorses. -/
theorem stored_of_add {d d' : DagModule} (h : Consistent config d) {r : Record} {m : Name}
    (hnew : (node d (toStateName r.name)).status = .INITIALIZED)
    (hadd : exec (add config r) d = (.ok m, d')) {n : Name} (hn : Stored d' n) :
    Stored d n ∨ n = toStateName r.name ∨ ∃ x, x ∈ (node d' n).descendants := by
  have hdesc : ∀ x ∈ (node d (toStateName r.name)).descendants,
      (node d x).status ≠ .INITIALIZED := fun x hx =>
    (abs d).counted_loaded (h.sound _ hx).1
  obtain ⟨d₁, e, hrun, hl, hc⟩ := exec_add_new config h.clean hnew hdesc
  obtain rfl : e = d' := congrArg Prod.snd (hrun.symm.trans hadd)
  rcases (hc.stored n).mp hn with hstored | ⟨x, hx⟩
  · rcases (hl.stored n).mp hstored with hold | hself
    · exact .inl hold
    · exact .inr (.inl hself)
  · exact .inr (.inr ⟨x, (hc.descendants n x).mpr (.inr hx)⟩)

/-- What holds of the tips in runs that remove what they interlock. -/
structure Tipped (config : DagConfig) (rs : List Record) (d : DagModule) : Prop where
  reached : Reached config rs True d
  direct : (abs d).Direct
  pending : ∀ n, Stored d n → (node d n).status = .INITIALIZED →
    ∃ x, x ∈ (node d n).descendants

theorem tipped_empty : Tipped config [] {} where
  reached := reached_empty True
  direct := by
    rw [abs_empty]
    exact Dag.direct_empty
  pending n hn := by simp [Stored, stateAt] at hn

namespace Tipped
variable {rs : List Record} {d : DagModule}

theorem step (h : Tipped config rs d) {op : Operation} (hop : op.removes = true) :
    ∃ d', exec (op.perform config) d = (.ok (), d') ∧ Tipped config (rs ++ recordsOf [op]) d' := by
  cases op with
  | add r =>
      obtain ⟨d', hrun, hr, ⟨-, rfl⟩ | ⟨hnew, ha⟩⟩ := h.reached.add r
      · exact ⟨d', exec_bind_ok hrun, hr, h.direct, h.pending⟩
      · refine ⟨d', exec_bind_ok hrun, hr, ?_, ?_⟩
        · rw [ha.abs_eq]
          exact h.direct.add fun hload => hload hnew
        · intro n hn hs
          rcases stored_of_add h.reached.consistent hnew hrun hn with hold | rfl | hx
          · have hpend : (node d n).status = .INITIALIZED := by
              by_contra hload
              exact DagLifecycle.loaded_of_le (DagLifecycle.turns_add ha n).le hload hs
            obtain ⟨x, hx⟩ := h.pending n hold hpend
            exact ⟨x, (DagLifecycle.moves_add hnew ha n).kept x hx⟩
          · have hload : toStateName r.name ∈ (abs d').loaded := by
              rw [ha.abs_eq]
              exact .inl rfl
            exact (hload hs).elim
          · exact hx
  | harvestAbove t remove =>
      obtain rfl : remove = true := hop
      obtain ⟨d', hrun, hr, hh⟩ := h.reached.harvestAbove t true
      refine ⟨d', exec_bind_ok hrun, ?_, ?_, ?_⟩
      · rw [recordsOf_harvestAbove, List.append_nil]
        exact ⟨hr.consistent, hr.holds, fun _ => hr.unlisted ⟨trivial, rfl⟩⟩
      · rw [hh.abs_eq]
        exact h.direct.lock _
      · intro n hn hs
        have hpend : (node d n).status = .INITIALIZED := by
          by_contra hload
          exact DagLifecycle.loaded_of_le (DagLifecycle.turns_harvest hh n).le hload hs
        obtain ⟨x, hx⟩ := h.pending n ((hh.stored n).mp hn) hpend
        exact ⟨x, (DagLifecycle.moves_harvest hh n).kept x hx⟩
  | harvestBelow t =>
      refine ⟨d, exec_bind_ok (h.reached.consistent.harvestBelow t), ?_, h.direct, h.pending⟩
      rw [recordsOf_harvestBelow, List.append_nil]
      exact h.reached

theorem run (h : Tipped config rs d) (ops : List Operation)
    (hops : ∀ op ∈ ops, op.removes = true) :
    ∃ d', exec (DagRuns.run config ops) d = (.ok (), d') ∧
      Tipped config (rs ++ recordsOf ops) d' := by
  obtain ⟨_, d', hrun, hd'⟩ := exec_foldlM (f := fun _ op => op.perform config)
    (fun done (_ : Unit) s => Tipped config (rs ++ recordsOf done) s) ops
    (by
      intro done op rest _ s hdone hs
      obtain ⟨s', hrun, hs'⟩ := hs.step (hops op (by simp [hdone]))
      refine ⟨(), s', hrun, ?_⟩
      rw [recordsOf_append, ← List.append_assoc]
      exact hs')
    (b := ()) (s := d) (by simpa [recordsOf] using h)
  exact ⟨d', hrun, hd'⟩

/-- The bucket of the value zero holds the loaded states without descendants. -/
theorem bucket_zero (h : Tipped config rs d) (n : Name) :
    InBucket d.waitlist 0 n ↔ (node d n).status = .LOADED ∧ ∀ x, x ∉ (node d n).descendants := by
  have hc := h.reached.consistent
  have hzero : 0 = value config d n ↔ ∀ x, x ∉ (node d n).descendants :=
    eq_comm.trans value_eq_zero_iff
  constructor
  · intro hin
    obtain ⟨hst, hv⟩ := hc.bucket 0 n hin
    have hnone := hzero.mp hv
    refine ⟨?_, hnone⟩
    cases hs : (node d n).status with
    | INITIALIZED =>
        obtain ⟨x, hx⟩ := h.pending n hst hs
        exact (hnone x hx).elim
    | LOADED => rfl
    | INTERLOCKED => exact (h.reached.unlisted trivial 0 n hin hs).elim
  · rintro ⟨hs, hnone⟩
    rw [hzero.mpr hnone]
    exact hc.waiting n (stored_of_status (by simp [hs])) (by simp [hs])

end Tipped

/-- No record that counts points to a tip, and what no such record reaches is a tip. The two
differ only where a genesis record points to a record other than itself. -/
theorem tips (ops : List Operation) (h : ∀ op ∈ ops, op.removes = true) :
    ∃ d names d', exec (run config ops) {} = (.ok (), d) ∧
      exec (getWaitList 0) d = (.ok names, d') ∧
      (∀ n ∈ names, (node d n).status = .LOADED ∧
        ∀ u, (node d u).status ≠ .INITIALIZED → (node d u).record.isGenesis = false →
          n ∉ (node d u).next) ∧
      (∀ n, (node d n).status = .LOADED →
        (∀ u, (node d u).status ≠ .INITIALIZED → n ∈ (node d u).next →
          (node d u).record.isGenesis = true ∧ u = n) → n ∈ names) ∧
      (∀ n, (node d n).status = .LOADED →
        (∀ u, (node d u).status ≠ .INITIALIZED → (node d u).record.isGenesis = false →
          ¬Relation.TransGen (abs d).edge u n) → n ∈ names) ∧
      ((∀ u, (node d u).status ≠ .INITIALIZED → (node d u).record.isGenesis = true →
          ∀ n ∈ (node d u).next, n = u) →
        ∀ n, n ∈ names ↔ (node d n).status = .LOADED ∧
          ∀ u, (node d u).status ≠ .INITIALIZED → (node d u).record.isGenesis = false →
            n ∉ (node d u).next) := by
  obtain ⟨d, hrun, hd⟩ := (tipped_empty : Tipped config [] {}).run ops h
  obtain ⟨names, w, hget, hnames, -⟩ := exec_getWaitList d 0
  have hunder : ∀ n ∈ names, (node d n).status = .LOADED ∧
      ∀ u, (node d u).status ≠ .INITIALIZED → (node d u).record.isGenesis = false →
        n ∉ (node d u).next := by
    intro n hn
    obtain ⟨hs, hnone⟩ := (hd.bucket_zero n).mp ((hnames n).mp hn)
    refine ⟨hs, fun u hu hg hnext => ?_⟩
    rcases hd.direct u ⟨hu, hg⟩ n ⟨hu, hnext⟩ with hlocked | hdesc
    · exact absurd (hs.symm.trans hlocked) (by decide)
    · exact hnone u hdesc
  have hover : ∀ n, (node d n).status = .LOADED →
      (∀ u, (node d u).status ≠ .INITIALIZED → n ∈ (node d u).next →
        (node d u).record.isGenesis = true ∧ u = n) → n ∈ names := by
    intro n hs hfree
    refine (hnames n).mpr ((hd.bucket_zero n).mpr ⟨hs, fun x hx => ?_⟩)
    obtain ⟨u, ⟨hu, hnext⟩, hcount⟩ :=
      Dag.exists_edge_of_mem_desc hd.reached.consistent.sound (mem_desc.mpr hx)
    obtain ⟨hg, rfl⟩ := hfree u hu hnext
    rcases hcount with hcount | hne
    · exact Bool.false_ne_true (hcount.2.symm.trans hg)
    · exact hne rfl
  have hunreached : ∀ n, (node d n).status = .LOADED →
      (∀ u, (node d u).status ≠ .INITIALIZED → (node d u).record.isGenesis = false →
        ¬Relation.TransGen (abs d).edge u n) → n ∈ names := by
    intro n hs hfree
    refine (hnames n).mpr ((hd.bucket_zero n).mpr ⟨hs, fun x hx => ?_⟩)
    obtain ⟨⟨hload, hg⟩, hreach⟩ := hd.reached.consistent.sound n (mem_desc.mpr hx)
    exact hfree x hload hg hreach
  refine ⟨d, names, _, hrun, hget, hunder, hover, hunreached, fun hgenesis n => ⟨hunder n, ?_⟩⟩
  rintro ⟨hs, hfree⟩
  refine hover n hs fun u hu hnext => ?_
  cases hg : (node d u).record.isGenesis with
  | true => exact ⟨rfl, (hgenesis u hu hg n hnext).symm⟩
  | false => exact (hfree u hu hg hnext).elim

end

section
open PlainNdn

local instance : NdnCxx := plainNdn []

/-- The descendants of a genesis record reach what it points to. -/
def genesisBetween : List Operation :=
  [.add { name := [Name.keyword [65]] },
    .add { name := [Name.keyword [66]], type := GENESIS_RECORD,
           pointers := [[Name.keyword [65]]] },
    .add { name := [Name.keyword [67]], pointers := [[Name.keyword [66]]] }]

theorem endorsed_through_genesis :
    ¬ ∀ (config : DagConfig) (ops : List Operation) (d : DagModule) (names : NameSet)
      (d' : DagModule), (∀ op ∈ ops, op.removes = true) →
      (∀ t remove, .harvestAbove t remove ∈ ops → 1 ≤ t) →
      exec (run config ops) {} = (.ok (), d) → exec (getWaitList 0) d = (.ok names, d') →
      ∀ n, n ∈ names ↔ (node d n).status = .LOADED ∧
        ∀ u, (node d u).status ≠ .INITIALIZED → (node d u).record.isGenesis = false →
          n ∉ (node d u).next := by
  intro h
  obtain ⟨d, hrun, hd⟩ := exec_run ⟨.descendants, fun i => 1000 * i⟩ genesisBetween
  have hat : d = (exec (run ⟨.descendants, fun i => 1000 * i⟩ genesisBetween) {}).2 := by
    rw [hrun]
  obtain ⟨names, w, hget, hnames, -⟩ := exec_getWaitList d 0
  have hiff := h _ genesisBetween d names _ (by decide) (by simp [genesisBetween]) hrun hget
    (toStateName [Name.keyword [65]])
  rw [hnames] at hiff
  have hin : InBucket d.waitlist 0 (toStateName [Name.keyword [65]]) := by
    refine hiff.mpr ⟨?_, ?_⟩
    · rw [hat]
      decide +kernel
    · intro u hu hg hmem
      obtain ⟨m, rfl⟩ := hd.holds.named u (mem_loaded.mpr hu)
      obtain ⟨r, hr⟩ := Option.isSome_iff_exists.mp ((hd.holds.loaded_iff m).mp (mem_loaded.mpr hu))
      rw [hd.holds.record_eq hr] at hg
      rw [Node.next, hd.holds.record_eq hr] at hmem
      have hfree : ∀ r ∈ recordsOf genesisBetween, r.isGenesis = false →
          toStateName [Name.keyword [65]] ∉ r.pointers.map toStateName := by
        decide +kernel
      exact hfree r (RecordGraph.recordOf_mem hr) hg hmem
  exact absurd (hd.consistent.bucket 0 _ hin).2 (by rw [hat]; decide +kernel)

theorem tips_genesisBetween :
    ∃ d names d', exec (run ⟨.descendants, fun i => 1000 * i⟩ genesisBetween) {} = (.ok (), d) ∧
      exec (getWaitList 0) d = (.ok names, d') ∧
      (∀ n ∈ names, (node d n).status = .LOADED ∧
        ∀ u, (node d u).status ≠ .INITIALIZED → (node d u).record.isGenesis = false →
          n ∉ (node d u).next) ∧
      (∀ n, (node d n).status = .LOADED →
        (∀ u, (node d u).status ≠ .INITIALIZED → n ∈ (node d u).next →
          (node d u).record.isGenesis = true ∧ u = n) → n ∈ names) ∧
      (∀ n, (node d n).status = .LOADED →
        (∀ u, (node d u).status ≠ .INITIALIZED → (node d u).record.isGenesis = false →
          ¬Relation.TransGen (abs d).edge u n) → n ∈ names) ∧
      ((∀ u, (node d u).status ≠ .INITIALIZED → (node d u).record.isGenesis = true →
          ∀ n ∈ (node d u).next, n = u) →
        ∀ n, n ∈ names ↔ (node d n).status = .LOADED ∧
          ∀ u, (node d u).status ≠ .INITIALIZED → (node d u).record.isGenesis = false →
            n ∉ (node d u).next) :=
  tips genesisBetween (by decide)

end

end CertLedger.DagTips
