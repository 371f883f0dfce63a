import CertLedger.DagRuns

/-!
# The life of a record

A state is pending, then loaded, then interlocked. Its record is settled when it
is loaded and its descendants when it is interlocked, and a harvest returns it
once.
-/
namespace CertLedger.DagLifecycle
open Std TlvCodec FallibleState NdnObjects RecordCodec EdgeStateCodec InterlockPolicies
open OrderedContainers EndorsementDag DagEngine DagStates DagHarvest DagRefinement RecordGraph
open DagRuns

/-! ## Changes of a node -/

/-- What may have become of a node. -/
structure Moves (v w : Node) : Prop where
  status : v.status.toNat ≤ w.status.toNat
  record : v.status ≠ .INITIALIZED → w.record = v.record
  kept : ∀ x ∈ v.descendants, x ∈ w.descendants
  frozen : v.status = .INTERLOCKED → ∀ x ∈ w.descendants, x ∈ v.descendants

/-- One operation moves a status by one place at most. -/
inductive Turns : Status → Status → Prop
  | stays (s : Status) : Turns s s
  | loads : Turns .INITIALIZED .LOADED
  | locks : Turns .LOADED .INTERLOCKED

theorem Turns.le {s t : Status} (h : Turns s t) : s.toNat ≤ t.toNat := by
  cases h with
  | stays => exact le_rfl
  | loads => decide
  | locks => decide

theorem loaded_of_le {s t : Status} (h : s.toNat ≤ t.toNat) (hs : s ≠ .INITIALIZED) :
    t ≠ .INITIALIZED := by
  rintro rfl
  cases s with
  | INITIALIZED => exact hs rfl
  | LOADED => exact absurd h (by decide)
  | INTERLOCKED => exact absurd h (by decide)

theorem interlocked_of_le {t : Status} (h : Status.toNat .INTERLOCKED ≤ t.toNat) :
    t = .INTERLOCKED := by
  cases t with
  | INITIALIZED => exact absurd h (by decide)
  | LOADED => exact absurd h (by decide)
  | INTERLOCKED => rfl

namespace Moves
variable {u v w : Node}

theorem refl (v : Node) : Moves v v := ⟨le_rfl, fun _ => rfl, fun _ h => h, fun _ _ h => h⟩

theorem trans (h : Moves u v) (h' : Moves v w) : Moves u w where
  status := h.status.trans h'.status
  record hu := (h'.record (loaded_of_le h.status hu)).trans (h.record hu)
  kept x hx := h'.kept x (h.kept x hx)
  frozen hu x hx := by
    have hv : v.status = .INTERLOCKED := interlocked_of_le (hu ▸ h.status)
    exact h.frozen hu x (h'.frozen hv x hx)

end Moves

section
variable [NdnCxx] {config : DagConfig} {d d' : DagModule}

theorem turns_add {r : Record} (h : Adds r d d') (n : Name) : Turns (node d n).status (node d' n).status := by
  have hload : (node d' n).status ≠ .INITIALIZED ↔
      n = toStateName r.name ∨ (node d n).status ≠ .INITIALIZED := by
    rw [← mem_loaded, h.abs_eq]
    rfl
  have hlock : (node d' n).status = .INTERLOCKED ↔ (node d n).status = .INTERLOCKED := by
    rw [← mem_locked, h.abs_eq]
    rfl
  cases hs : (node d n).status with
  | INITIALIZED =>
      cases hs' : (node d' n).status with
      | INITIALIZED => exact .stays _
      | LOADED => exact .loads
      | INTERLOCKED => exact absurd (hs.symm.trans (hlock.mp hs')) (by decide)
  | LOADED =>
      cases hs' : (node d' n).status with
      | INITIALIZED => exact absurd hs' (hload.mpr (.inr (by simp [hs])))
      | LOADED => exact .stays _
      | INTERLOCKED => exact absurd (hs.symm.trans (hlock.mp hs')) (by decide)
  | INTERLOCKED =>
      rw [hlock.mpr hs]
      exact .stays _

theorem moves_add {r : Record} (hnew : (node d (toStateName r.name)).status = .INITIALIZED)
    (h : Adds r d d') (n : Name) : Moves (node d n) (node d' n) where
  status := (turns_add h n).le
  record hs := h.record n fun he => hs (he ▸ hnew)
  kept x hx := by
    rw [← mem_desc, h.abs_eq]
    exact .inl hx
  frozen hs x hx := by
    rw [← mem_desc, h.abs_eq] at hx
    exact hx.resolve_right fun hfound => hfound.2.2.1 hs

theorem turns_harvest {t : ℕ} {remove : Bool} (h : Harvests config t remove d d') (n : Name) :
    Turns (node d n).status (node d' n).status := by
  have hload : (node d' n).status ≠ .INITIALIZED ↔ (node d n).status ≠ .INITIALIZED := by
    rw [← mem_loaded, h.abs_eq]
    rfl
  have hlock : (node d n).status = .INTERLOCKED → (node d' n).status = .INTERLOCKED := by
    intro hs
    rw [← mem_locked, h.abs_eq]
    exact .inl hs
  cases hs : (node d n).status with
  | INITIALIZED =>
      rw [not_iff_not.mp hload |>.mpr hs]
      exact .stays _
  | LOADED =>
      cases hs' : (node d' n).status with
      | INITIALIZED => exact absurd hs' (hload.mpr (by simp [hs]))
      | LOADED => exact .stays _
      | INTERLOCKED => exact .locks
  | INTERLOCKED =>
      rw [hlock hs]
      exact .stays _

theorem moves_harvest {t : ℕ} {remove : Bool} (h : Harvests config t remove d d') (n : Name) :
    Moves (node d n) (node d' n) := by
  have hdesc : ∀ x, x ∈ (node d' n).descendants ↔ x ∈ (node d n).descendants := by
    intro x
    rw [← mem_desc, h.abs_eq]
    rfl
  exact ⟨(turns_harvest h n).le, fun _ => h.record n, fun x => (hdesc x).mpr,
    fun _ x => (hdesc x).mp⟩

/-! ## Runs with their harvests -/

/-- The records that an operation harvests. -/
def harvests (config : DagConfig) : Operation → DagM (List Record)
  | .harvestAbove threshold remove => DagEngine.harvestAbove config threshold remove
  | op => do
      op.perform config
      return []

/-- The records that a run harvests, in order. -/
def harvestRun (config : DagConfig) (ops : List Operation) : DagM (List Record) :=
  ops.foldlM (fun ret op => do
    let records ← harvests config op
    return ret ++ records) []

/-- Where a run stands that has harvested `ret` and has come by `d₀`. -/
structure Lived (config : DagConfig) (rs ret : List Record) (d₀ d : DagModule) : Prop where
  reached : Reached config rs True d
  moves : ∀ n, Moves (node d₀ n) (node d n)
  locked : ∀ r ∈ ret, (node d (toStateName r.name)).status = .INTERLOCKED
  nodup : (ret.map (·.name)).Nodup

namespace Lived
variable {rs ret : List Record} {d₀ d d' : DagModule}

/-- A step that harvests nothing. -/
theorem quiet (h : Lived config rs ret d₀ d) {rs' : List Record}
    (hr : Reached config rs' True d') (hm : ∀ n, Moves (node d n) (node d' n)) :
    Lived config rs' (ret ++ []) d₀ d' where
  reached := hr
  moves n := (h.moves n).trans (hm n)
  locked r hr' := by
    rw [List.append_nil] at hr'
    exact interlocked_of_le (h.locked r hr' ▸ (hm _).status)
  nodup := by
    rw [List.append_nil]
    exact h.nodup

/-- A harvest takes records that were not interlocked, and leaves them interlocked. -/
theorem harvest (h : Lived config rs ret d₀ d) {t : ℕ} (hr : Reached config rs True d')
    (hh : Harvests config t true d d') :
    Lived config rs (ret ++ (harvested d (t ≤ ·) d.waitlist.toList).map fun n =>
      (node d n).record) d₀ d' := by
  have hc := h.reached.consistent
  have hname : ∀ n ∈ harvested d (t ≤ ·) d.waitlist.toList,
      toStateName (node d n).record.name = n := fun n hn =>
    hc.clean.record_name (stored_of_status (mem_harvested.mp hn).1)
  have hopen : ∀ n ∈ harvested d (t ≤ ·) d.waitlist.toList,
      (node d n).status ≠ .INTERLOCKED := by
    intro n hn
    obtain ⟨-, k, -, hin⟩ := mem_harvested.mp hn
    exact h.reached.unlisted trivial k n hin
  refine ⟨hr, fun n => (h.moves n).trans (moves_harvest hh n), ?_, ?_⟩
  · intro r hmem
    rcases List.mem_append.mp hmem with hold | hnew
    · exact interlocked_of_le (h.locked r hold ▸ (moves_harvest hh _).status)
    · obtain ⟨n, hn, rfl⟩ := List.mem_map.mp hnew
      obtain ⟨hload, k, ht, hin⟩ := mem_harvested.mp hn
      rw [hname n hn, ← mem_locked, hh.abs_eq]
      refine .inr ⟨⟨hload, hopen n hn, (enough_desc n).mpr ?_⟩, hload⟩
      exact (hc.bucket k n hin).2 ▸ of_decide_eq_true ht
  · rw [List.map_append, List.map_map]
    refine h.nodup.append ((nodup_harvested hc _).map_on ?_) ?_
    · intro m hm n hn he
      rw [← hname m hm, ← hname n hn]
      exact congrArg toStateName he
    · intro x hx hx'
      obtain ⟨r, hr', rfl⟩ := List.mem_map.mp hx
      obtain ⟨n, hn, he⟩ := List.mem_map.mp hx'
      have hlocked := h.locked r hr'
      rw [← he] at hlocked
      exact hopen n hn ((congrArg (fun m => (node d m).status) (hname n hn)).symm.trans hlocked)

theorem step (h : Lived config rs ret d₀ d) {op : Operation} (hop : op.removes = true) :
    ∃ records d', exec (harvests config op) d = (.ok records, d') ∧
      Lived config (rs ++ recordsOf [op]) (ret ++ records) d₀ d' ∧
      ∀ n, Turns (node d n).status (node d' n).status := by
  cases op with
  | add r =>
      obtain ⟨d', hrun, hr, ⟨-, rfl⟩ | ⟨hnew, ha⟩⟩ := h.reached.add r
      · exact ⟨[], d', exec_bind_ok (exec_bind_ok hrun), h.quiet hr fun _ => Moves.refl _,
          fun _ => .stays _⟩
      · exact ⟨[], d', exec_bind_ok (exec_bind_ok hrun), h.quiet hr (moves_add hnew ha),
          turns_add ha⟩
  | harvestAbove t remove =>
      obtain rfl : remove = true := hop
      obtain ⟨d', hrun, hr, hh⟩ := h.reached.harvestAbove t true
      have hr' : Reached config rs True d' :=
        ⟨hr.consistent, hr.holds, fun _ => hr.unlisted ⟨trivial, rfl⟩⟩
      refine ⟨_, d', hrun, ?_, turns_harvest hh⟩
      rw [recordsOf_harvestAbove, List.append_nil]
      exact h.harvest hr' hh
  | harvestBelow t =>
      have hrun := h.reached.consistent.harvestBelow t
      refine ⟨[], d, exec_bind_ok (exec_bind_ok hrun), ?_, fun _ => .stays _⟩
      rw [recordsOf_harvestBelow, List.append_nil]
      exact h.quiet h.reached fun _ => Moves.refl _

theorem run (h : Lived config rs ret d₀ d) (ops : List Operation)
    (hops : ∀ op ∈ ops, op.removes = true) :
    ∃ more d', exec (harvestRun config ops) d = (.ok more, d') ∧
      Lived config (rs ++ recordsOf ops) (ret ++ more) d₀ d' := by
  refine exec_foldlM (f := fun ret op => do
      let records ← harvests config op
      return ret ++ records)
    (fun done more s => Lived config (rs ++ recordsOf done) (ret ++ more) d₀ s) ops ?_
    (b := []) (s := d) (by simpa [recordsOf] using h)
  intro done op rest more s hdone hs
  obtain ⟨records, s', hrun, hs', -⟩ := hs.step (hops op (by simp [hdone]))
  refine ⟨more ++ records, s', exec_bind_ok hrun, ?_⟩
  rw [recordsOf_append, ← List.append_assoc, ← List.append_assoc]
  exact hs'

end Lived

/-- In every run, and from every point of it on. -/
theorem record_lifecycle (ops rest : List Operation) (hops : ∀ op ∈ ops, op.removes = true)
    (hrest : ∀ op ∈ rest, op.removes = true) :
    ∃ ret d more d', exec (harvestRun config ops) {} = (.ok ret, d) ∧
      exec (harvestRun config rest) d = (.ok more, d') ∧
      (∀ n, Moves (node d n) (node d' n)) ∧
      (∀ op, op.removes = true → ∃ records e, exec (harvests config op) d = (.ok records, e) ∧
        ∀ n, Turns (node d n).status (node e n).status) ∧
      (∀ r : Record, (node d (toStateName r.name)).status ≠ .INITIALIZED →
        exec (add config r) d = (.ok (toStateName r.name), d)) ∧
      ((ret ++ more).map (·.name)).Nodup := by
  have hstart : Lived config [] [] {} {} :=
    ⟨reached_empty True, fun _ => Moves.refl _, by simp, List.nodup_nil⟩
  obtain ⟨ret, d, hrun, hd⟩ := hstart.run ops hops
  have hsplit : Lived config (recordsOf ops) ret d d :=
    ⟨hd.reached, fun _ => Moves.refl _, hd.locked, hd.nodup⟩
  obtain ⟨more, d', hmore, hd'⟩ := hsplit.run rest hrest
  refine ⟨ret, d, more, d', hrun, hmore, hd'.moves, ?_, ?_, hd'.nodup⟩
  · intro op hop
    obtain ⟨records, e, hstep, -, hturns⟩ := hsplit.step hop
    exact ⟨records, e, hstep, hturns⟩
  · exact fun r hr => hd.reached.consistent.add_old hr

end

section
open PlainNdn

local instance : NdnCxx := plainNdn []

theorem record_lifecycle_pair :
    ∃ ret d more d',
      exec (harvestRun ⟨.descendants, fun i => 1000 * i⟩ (harvestedPair.take 3)) {} =
        (.ok ret, d) ∧
      exec (harvestRun ⟨.descendants, fun i => 1000 * i⟩ (harvestedPair.drop 3)) d =
        (.ok more, d') ∧
      (∀ n, Moves (node d n) (node d' n)) ∧
      (∀ op, op.removes = true → ∃ records e,
        exec (harvests ⟨.descendants, fun i => 1000 * i⟩ op) d = (.ok records, e) ∧
        ∀ n, Turns (node d n).status (node e n).status) ∧
      (∀ r : Record, (node d (toStateName r.name)).status ≠ .INITIALIZED →
        exec (add ⟨.descendants, fun i => 1000 * i⟩ r) d = (.ok (toStateName r.name), d)) ∧
      ((ret ++ more).map (·.name)).Nodup :=
  record_lifecycle (harvestedPair.take 3) (harvestedPair.drop 3) (by decide) (by decide)

end

end CertLedger.DagLifecycle
