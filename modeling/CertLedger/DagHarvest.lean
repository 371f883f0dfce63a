import CertLedger.DagUpdates

/-!
# Harvesting the waitlist

A harvest from a threshold up interlocks the loaded names of the buckets it
visits and returns their records; one below a threshold changes nothing.
-/
namespace CertLedger.DagHarvest
open Std TlvCodec FallibleState NdnObjects RecordCodec EdgeStateCodec InterlockPolicies
open OrderedContainers DagEngine DagStates DagUpdates

/-- A name set of the waitlist is fetched; a missing bucket is created empty. -/
theorem exec_getWaitList (d : DagModule) (k : ℕ) :
    ∃ names w, exec (getWaitList k) d = (.ok names, { d with waitlist := w }) ∧
      (∀ n, n ∈ names ↔ InBucket d.waitlist k n) ∧
      ∀ j n, InBucket w j n ↔ InBucket d.waitlist j n := by
  rw [getWaitList, exec_bind_ok (exec_get d)]
  cases h : d.waitlist[k]? with
  | some names => exact ⟨names, d.waitlist, rfl, by simp [InBucket, h], fun _ _ => Iff.rfl⟩
  | none => exact ⟨∅, _, rfl, by simp [InBucket, h], inBucket_insert_empty d.waitlist h⟩

variable [NdnCxx] {config : DagConfig}

/-! ## Interlocking names -/

structure Locks (H : Name → Prop) (d d' : DagModule) : Prop where
  clean : Clean d'
  loaded : ∀ n, H n → (node d n).status ≠ .INITIALIZED
  locked : ∀ n, H n → node d' n = { node d n with status := .INTERLOCKED }
  same : ∀ n, ¬H n → node d' n = node d n
  stored : ∀ n, Stored d' n ↔ Stored d n
  others : ∀ n, ¬IsStateName n → d'.storage.list[n]? = d.storage.list[n]?

namespace Locks
variable {H K : Name → Prop} {d d' d'' : DagModule}

theorem refl (h : Clean d) : Locks (fun _ => False) d d where
  clean := h
  loaded _ hn := hn.elim
  locked _ hn := hn.elim
  same _ _ := rfl
  stored _ := Iff.rfl
  others _ _ := rfl

theorem congr (h : Locks H d d') (hHK : ∀ n, H n ↔ K n) : Locks K d d' := by
  have : H = K := by
    funext n
    exact propext (hHK n)
  exact this ▸ h

theorem record (h : Locks H d d') (n : Name) : (node d' n).record = (node d n).record := by
  by_cases hn : H n
  · rw [h.locked n hn]
  · rw [h.same n hn]

theorem descendants (h : Locks H d d') (n : Name) :
    (node d' n).descendants = (node d n).descendants := by
  by_cases hn : H n
  · rw [h.locked n hn]
  · rw [h.same n hn]

theorem pending (h : Locks H d d') (n : Name) :
    (node d' n).status = .INITIALIZED ↔ (node d n).status = .INITIALIZED := by
  by_cases hn : H n
  · have hl := h.loaded n hn
    rw [h.locked n hn]
    exact ⟨fun he => Status.noConfusion he, fun he => (hl he).elim⟩
  · rw [h.same n hn]

theorem trans (h : Locks H d d') (h' : Locks K d' d'') : Locks (fun n => H n ∨ K n) d d'' where
  clean := h'.clean
  loaded n hn := by
    rcases hn with hn | hn
    · exact h.loaded n hn
    · exact fun he => h'.loaded n hn ((h.pending n).mpr he)
  locked n hn := by
    have hd' : node d' n = node d n ∨ node d' n = { node d n with status := .INTERLOCKED } := by
      by_cases hH : H n
      · exact .inr (h.locked n hH)
      · exact .inl (h.same n hH)
    by_cases hK : K n
    · rw [h'.locked n hK]
      rcases hd' with hd' | hd' <;> rw [hd']
    · rw [h'.same n hK, h.locked n (hn.resolve_right hK)]
  same n hn := (h'.same n fun hK => hn (.inr hK)).trans (h.same n fun hH => hn (.inl hH))
  stored n := (h'.stored n).trans (h.stored n)
  others n hn := (h'.others n hn).trans (h.others n hn)

theorem with_waitlist (h : Locks H d d') (w : ExtTreeMap ℕ NameSet) :
    Locks H d { d' with waitlist := w } where
  clean := h.clean.of_storage rfl
  loaded := h.loaded
  locked := h.locked
  same := h.same
  stored := h.stored
  others := h.others

end Locks

/-- The names of a list that hold records. -/
def loadedNames (d : DagModule) (l : List Name) : List Name :=
  l.filter fun n => (node d n).status ≠ .INITIALIZED

theorem mem_loadedNames {d : DagModule} {l : List Name} {n : Name} :
    n ∈ loadedNames d l ↔ n ∈ l ∧ (node d n).status ≠ .INITIALIZED := by
  simp [loadedNames]

theorem exec_harvestName (config : DagConfig) {d : DagModule} (h : Clean d) {s : Name} (hs : Stored d s)
    (acc : List Record × List Name) :
    ∃ d', exec (harvestName config acc s) d =
        (.ok (acc.1 ++ (loadedNames d [s]).map fun n => (node d n).record,
          acc.2 ++ loadedNames d [s]), d') ∧
      Locks (fun n => n ∈ loadedNames d [s]) d d' ∧ d'.waitlist = d.waitlist := by
  obtain ⟨t, ht⟩ := Option.isSome_iff_exists.mp hs
  obtain ⟨state, mid, hread, hname, hofs, hmid, hupdate⟩ :=
    exec_read config h (h.state ht).1
  obtain ⟨rfl, hof⟩ := hmid hs
  have hstatus : state.status = (node mid s).status := congrArg Node.status hof
  rw [harvestName, exec_bind_ok hread]
  by_cases hp : state.status = .INITIALIZED
  · have hnone : loadedNames mid [s] = [] := by simp [loadedNames, ← hstatus, hp]
    refine ⟨mid, ?_, (Locks.refl h).congr (by simp [hnone]), rfl⟩
    rw [if_neg (not_not_intro hp), hnone]
    simp
  · have hone : loadedNames mid [s] = [s] := by simp [loadedNames, ← hstatus, hp]
    let locked : EdgeState := { state with status := .INTERLOCKED }
    have hnode : Node.of locked.stored = { node mid s with status := .INTERLOCKED } :=
      congrArg (fun v : Node => { v with status := .INTERLOCKED }) hofs
    refine ⟨write config mid locked, ?_, ?_, write_waitlist _ _⟩
    · rw [if_pos hp, exec_bind_ok (hupdate locked hname), hone]
      simp [← hof, Node.of]
    · have hln : locked.stateName = s := hname
      refine ⟨h.write (by rw [hln]; exact (h.state ht).1), ?_, ?_, ?_, ?_, ?_⟩
      · exact fun n hn => (mem_loadedNames.mp hn).2
      · intro n hn
        have hns : n = s := by simpa [hone] using hn
        rw [node_write, hln, if_pos hns.symm, hnode, hns]
      · intro n hn
        have hns : s ≠ n := fun he => hn (by rw [hone, he]; simp)
        rw [node_write, hln, if_neg hns]
      · intro n
        rw [stored_write, hln]
        refine or_iff_left_of_imp ?_
        exact fun he => he ▸ hs
      · intro n hn
        exact write_list mid fun he => hn (he ▸ hln ▸ (h.state ht).1)

theorem exec_harvestNames (config : DagConfig) {d₀ d : DagModule} {H : Name → Prop} (h : Locks H d₀ d)
    (l : List Name) (hl : ∀ n ∈ l, Stored d₀ n) (ret : List Record) :
    ∃ d', exec (l.foldlM (harvestName config) (ret, [])) d =
        (.ok (ret ++ (loadedNames d₀ l).map fun n => (node d₀ n).record,
          loadedNames d₀ l), d') ∧
      Locks (fun n => H n ∨ n ∈ loadedNames d₀ l) d₀ d' ∧ d'.waitlist = d.waitlist := by
  obtain ⟨acc, d', hrun, rfl, hd', hw⟩ := exec_foldlM (f := harvestName config)
    (fun done acc s => acc = (ret ++ (loadedNames d₀ done).map fun n => (node d₀ n).record,
        loadedNames d₀ done) ∧
      Locks (fun n => H n ∨ n ∈ loadedNames d₀ done) d₀ s ∧ s.waitlist = d.waitlist) l
    (by
      intro done s rest acc e hdone hI
      obtain ⟨rfl, he, hw⟩ := hI
      have hst : Stored e s := (he.stored s).mpr (hl s (by simp [hdone]))
      obtain ⟨e', hrun, he', hw'⟩ := exec_harvestName config he.clean hst
        (ret ++ (loadedNames d₀ done).map fun n => (node d₀ n).record, loadedNames d₀ done)
      have hsame : loadedNames e [s] = loadedNames d₀ [s] := by
        have := he.pending s
        by_cases hp : (node d₀ s).status = .INITIALIZED <;> simp_all [loadedNames]
      have happ : loadedNames d₀ (done ++ [s]) = loadedNames d₀ done ++ loadedNames d₀ [s] :=
        List.filter_append _ _
      have hrec : (fun n => (node e n).record) = fun n => (node d₀ n).record := funext he.record
      refine ⟨_, e', hrun, ?_, (he.trans he').congr ?_, hw'.trans hw⟩
      · rw [hsame, happ, hrec, List.map_append, List.append_assoc]
      · intro n
        rw [hsame, happ, List.mem_append, or_assoc])
    (b := (ret, [])) (s := d)
    ⟨by simp [loadedNames], h.congr (by simp [loadedNames]), rfl⟩
  exact ⟨d', hrun, hd', hw⟩

/-! ## Whole harvests -/

/-- The names that a harvest of the given buckets returns records for, in order. -/
def harvested (d : DagModule) (hits : ℕ → Bool) (buckets : List (ℕ × NameSet)) : List Name :=
  (buckets.filter fun b => hits b.1).flatMap fun b => loadedNames d b.2.toList

theorem mem_harvested {d : DagModule} {hits : ℕ → Bool} {n : Name} :
    n ∈ harvested d hits d.waitlist.toList ↔
      (node d n).status ≠ .INITIALIZED ∧ ∃ k, hits k = true ∧ InBucket d.waitlist k n := by
  simp only [harvested, List.mem_flatMap, List.mem_filter, mem_loadedNames,
    inBucket_iff_mem_toList, ExtTreeSet.mem_toList]
  constructor
  · rintro ⟨b, ⟨hb, hk⟩, hn, hs⟩
    exact ⟨hs, b.1, hk, b, hb, rfl, hn⟩
  · rintro ⟨hs, k, hk, b, hb, he, hn⟩
    exact ⟨b, ⟨hb, he ▸ hk⟩, hn, hs⟩

theorem harvested_append {d : DagModule} {hits : ℕ → Bool} (l m : List (ℕ × NameSet)) :
    harvested d hits (l ++ m) = harvested d hits l ++ harvested d hits m := by
  simp [harvested]

theorem harvested_hit {d : DagModule} (hits : ℕ → Bool) {b : ℕ × NameSet} (h : hits b.1 = true) :
    harvested d hits [b] = loadedNames d b.2.toList := by
  simp [harvested, h]

theorem harvested_miss {d : DagModule} (hits : ℕ → Bool) {b : ℕ × NameSet}
    (h : hits b.1 = false) : harvested d hits [b] = [] := by
  simp [harvested, h]

/-- Where a harvest from `t` up stands after the buckets `done`. -/
structure Harvesting (d : DagModule) (t : ℕ) (remove : Bool) (done : List (ℕ × NameSet))
    (s : DagModule) : Prop where
  locks : Locks (fun n => n ∈ harvested d (t ≤ ·) done) d s
  waitlist : ∀ k n, InBucket s.waitlist k n ↔ InBucket d.waitlist k n ∧
    ¬(remove = true ∧ ∃ b ∈ done, b.1 = k ∧ t ≤ k ∧ n ∈ loadedNames d b.2.toList)

theorem exec_harvestBucket (config : DagConfig) {d s : DagModule} {t : ℕ} {remove : Bool}
    {done : List (ℕ × NameSet)} (h : Harvesting d t remove done s) (b : ℕ × NameSet)
    (hstored : ∀ n ∈ b.2, Stored d n) (ret : List Record) :
    ∃ s', exec (harvestBucket config t remove ret b) s =
        (.ok (ret ++ (harvested d (t ≤ ·) [b]).map fun n => (node d n).record), s') ∧
      Harvesting d t remove (done ++ [b]) s' := by
  rw [harvestBucket]
  by_cases ht : t ≤ b.1
  · obtain ⟨e, hrun, he, hew⟩ := exec_harvestNames config h.locks b.2.toList
      (fun n hn => hstored n (ExtTreeSet.mem_toList.mp hn)) ret
    have hone := harvested_hit (d := d) (t ≤ ·) (b := b) (decide_eq_true ht)
    rw [if_pos ht, exec_bind_ok hrun, hone]
    refine ⟨_, rfl, (he.with_waitlist _).congr ?_, ?_⟩
    · intro n
      rw [harvested_append, hone, List.mem_append]
    · intro k n
      rw [inBucket_modify, hew, h.waitlist]
      cases remove with
      | false => simp
      | true => simp only [List.mem_append, List.mem_singleton]; grind
  · have hnone := harvested_miss (d := d) (t ≤ ·) (b := b) (decide_eq_false ht)
    rw [if_neg ht, hnone]
    refine ⟨s, by simp, h.locks.congr (by simp [harvested_append, hnone]), ?_⟩
    intro k n
    rw [h.waitlist]
    simp only [List.mem_append, List.mem_singleton]
    grind

/-- A harvest from a threshold up: what it returns, locks and removes. -/
theorem exec_harvestAbove (config : DagConfig) {d : DagModule} (h : Clean d)
    (hstored : ∀ k n, InBucket d.waitlist k n → Stored d n) (t : ℕ) (remove : Bool) :
    ∃ d', exec (harvestAbove config t remove) d =
        (.ok ((harvested d (t ≤ ·) d.waitlist.toList).map fun n => (node d n).record), d') ∧
      Locks (fun n => n ∈ harvested d (t ≤ ·) d.waitlist.toList) d d' ∧
      ∀ k n, InBucket d'.waitlist k n ↔ InBucket d.waitlist k n ∧
        ¬(remove = true ∧ t ≤ k ∧ (node d n).status ≠ .INITIALIZED) := by
  obtain ⟨ret, d', hrun, rfl, hd'⟩ := exec_foldlM (f := harvestBucket config t remove)
    (fun done ret s => ret = ((harvested d (t ≤ ·) done).map fun n => (node d n).record) ∧
      Harvesting d t remove done s) d.waitlist.toList
    (by
      intro done b rest ret s hdone hI
      obtain ⟨rfl, hs⟩ := hI
      have hst : ∀ n ∈ b.2, Stored d n := fun n hn =>
        hstored b.1 n ((inBucket_iff_mem_toList _ _ _).mpr ⟨b, by simp [hdone], rfl, hn⟩)
      obtain ⟨s', hrun, hs'⟩ := exec_harvestBucket config hs b hst
        ((harvested d (t ≤ ·) done).map fun n => (node d n).record)
      exact ⟨_, s', hrun, by rw [harvested_append, List.map_append], hs'⟩)
    (b := []) (s := d)
    ⟨by simp [harvested], (Locks.refl h).congr (by simp [harvested]), by simp⟩
  refine ⟨d', hrun, hd'.locks, ?_⟩
  intro k n
  rw [hd'.waitlist, and_congr_right_iff]
  intro hin
  rw [not_iff_not, and_congr_right_iff]
  intro _
  constructor
  · rintro ⟨b, _, hb, ht, hn⟩
    exact ⟨ht, (mem_loadedNames.mp hn).2⟩
  · rintro ⟨ht, hs⟩
    obtain ⟨b, hb, hk, hn⟩ := (inBucket_iff_mem_toList _ _ _).mp hin
    exact ⟨b, hb, hk, ht, mem_loadedNames.mpr ⟨ExtTreeSet.mem_toList.mpr hn, hs⟩⟩

theorem exec_harvestBelowName (config : DagConfig) {d : DagModule} (h : Clean d) {s : Name} (hs : Stored d s)
    (ret : List Record) :
    exec (harvestBelowName config ret s) d =
      (.ok (ret ++ (loadedNames d [s]).map fun n => (node d n).record), d) := by
  obtain ⟨t, ht⟩ := Option.isSome_iff_exists.mp hs
  obtain ⟨state, mid, hread, -, -, hmid, -⟩ := exec_read config h (h.state ht).1
  obtain ⟨rfl, hof⟩ := hmid hs
  have hstatus : state.status = (node mid s).status := congrArg Node.status hof
  have hrecord : state.record = (node mid s).record := congrArg Node.record hof
  rw [harvestBelowName, exec_bind_ok hread]
  by_cases hp : state.status = .INITIALIZED
  · simp [loadedNames, ← hstatus, hp]
  · simp [loadedNames, ← hstatus, hp, hrecord]

theorem exec_harvestBelowNames {d : DagModule} (h : Clean d) {l : List Name}
    (hl : ∀ n ∈ l, Stored d n) (ret : List Record) :
    exec (l.foldlM (harvestBelowName config) ret) d =
      (.ok (ret ++ (loadedNames d l).map fun n => (node d n).record), d) := by
  induction l generalizing ret with
  | nil => simp [loadedNames]
  | cons s l ih =>
      have hs := exec_harvestBelowName config h (hl s (by simp)) ret
      have happ : loadedNames d (s :: l) = loadedNames d [s] ++ loadedNames d l :=
        List.filter_append [s] l
      rw [List.foldlM_cons, exec_bind_ok hs, ih fun n hn => hl n (by simp [hn]), happ,
        List.map_append, List.append_assoc]

/-- A harvest below a threshold only reads. -/
theorem exec_harvestBelow {d : DagModule} (h : Clean d)
    (hstored : ∀ k n, InBucket d.waitlist k n → Stored d n) (t : ℕ) :
    exec (harvestBelow config t) d =
      (.ok ((harvested d (· < t) d.waitlist.toList).map fun n => (node d n).record), d) := by
  obtain ⟨ret, d', hrun, rfl, rfl⟩ := exec_foldlM (f := fun ret bucket =>
      if bucket.1 < t then bucket.2.toList.foldlM (harvestBelowName config) ret
      else return ret)
    (fun done ret s => ret = ((harvested d (· < t) done).map fun n => (node d n).record) ∧ s = d)
    d.waitlist.toList
    (by
      intro done b rest ret s hdone hI
      obtain ⟨rfl, rfl⟩ := hI
      rw [harvested_append, List.map_append]
      by_cases ht : b.1 < t
      · have hst : ∀ n ∈ b.2.toList, Stored s n := fun n hn =>
          hstored b.1 n ((inBucket_iff_mem_toList _ _ _).mpr
            ⟨b, by simp [hdone], rfl, ExtTreeSet.mem_toList.mp hn⟩)
        rw [if_pos ht, harvested_hit (· < t) (b := b) (decide_eq_true ht)]
        exact ⟨_, s, exec_harvestBelowNames h hst _, rfl, rfl⟩
      · rw [if_neg ht, harvested_miss (· < t) (b := b) (decide_eq_false ht)]
        exact ⟨_, s, rfl, by simp, rfl⟩)
    (b := []) (s := d) ⟨by simp [harvested], rfl⟩
  exact hrun

end CertLedger.DagHarvest
