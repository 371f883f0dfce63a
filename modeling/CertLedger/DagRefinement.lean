import CertLedger.EndorsementDag
import CertLedger.DagHarvest

/-!
# The engine refines the endorsement graph

A module stands for a graph: the loaded names, the pointers of their records and
the descendants stored so far. As long as the storage is clean and the waitlist
agrees with it, the operations of the module are those of the graph.
-/
namespace CertLedger.DagRefinement
open Std TlvCodec FallibleState NdnObjects RecordCodec EdgeStateCodec InterlockPolicies
open OrderedContainers EndorsementDag FrontierSearch DagEngine DagStates DagSearch DagUpdates
open DagHarvest Relation

variable [NdnCxx] {config : DagConfig}

/-! ## The graph of a module -/

def abs (d : DagModule) : Dag Name where
  loaded := {n | (node d n).status ≠ .INITIALIZED}
  locked := {n | (node d n).status = .INTERLOCKED}
  edge u v := (node d u).status ≠ .INITIALIZED ∧ v ∈ next d u
  counted := {n | (node d n).status ≠ .INITIALIZED ∧ (node d n).record.isGenesis = false}
  desc a := {x | x ∈ (node d a).descendants}
  edge_loaded h := h.1
  locked_loaded _ hn he := Status.noConfusion (hn.symm.trans he)
  counted_loaded _ h := h.1

section
variable {d : DagModule}

theorem mem_loaded {n : Name} : n ∈ (abs d).loaded ↔ (node d n).status ≠ .INITIALIZED := Iff.rfl

theorem mem_locked {n : Name} : n ∈ (abs d).locked ↔ (node d n).status = .INTERLOCKED := Iff.rfl

theorem abs_edge {u v : Name} :
    (abs d).edge u v ↔ (node d u).status ≠ .INITIALIZED ∧ v ∈ (node d u).next := Iff.rfl

theorem mem_counted {n : Name} : n ∈ (abs d).counted ↔
    (node d n).status ≠ .INITIALIZED ∧ (node d n).record.isGenesis = false := Iff.rfl

theorem mem_desc {a x : Name} : x ∈ (abs d).desc a ↔ x ∈ (node d a).descendants := Iff.rfl

end

/-- The search of the engine and that of the graph find the same nodes. -/
theorem finds_iff {d : DagModule} {x : Name} (hx : (node d x).status ≠ .INITIALIZED) (a : Name) :
    (abs d).Finds x a ↔ Found d (node d x).record.pointers a := by
  have hstep : ∀ u v, (abs d).OpenEdge u v ↔ expand d u = true ∧ v ∈ next d u := by
    intro u v
    unfold Dag.OpenEdge abs expand Node.isLoaded
    cases h : (node d u).status <;> simp [h]
  have hopen : a ∉ (abs d).locked ↔ keep d a = true := by
    simp [abs, keep, Node.isOpen]
  have hpaths : (abs d).OpenEdge = fun u v => expand d u = true ∧ v ∈ next d u := by
    funext u v
    exact propext (hstep u v)
  unfold Dag.Finds Found Reached
  rw [hopen, hpaths]
  refine and_congr_right fun _ => exists_congr fun p => and_congr_left fun _ => ?_
  exact ⟨fun h => h.2, fun h => ⟨hx, h⟩⟩

theorem abs_loads {d d₁ : DagModule} {r : Record} (h : Loads config r d d₁)
    (hnew : (node d (toStateName r.name)).status = .INITIALIZED) :
    abs d₁ = (abs d).load (toStateName r.name) {v | v ∈ r.pointers.map toStateName}
      (r.isGenesis = false) := by
  -- the new name holds the record, every other name what it held before
  have hsplit : ∀ u, (u = toStateName r.name ∧ (node d u).status = .INITIALIZED ∧
      node d₁ u = ⟨.LOADED, r, (node d u).descendants⟩) ∨
      (u ≠ toStateName r.name ∧ node d₁ u = node d u) := by
    intro u
    by_cases hu : u = toStateName r.name
    · exact .inl ⟨hu, hu ▸ hnew, hu ▸ h.loaded⟩
    · exact .inr ⟨hu, h.same u hu⟩
  refine Dag.ext ?_ ?_ ?_ ?_ ?_
  · ext u
    change (node d₁ u).status ≠ _ ↔ u = _ ∨ (node d u).status ≠ _
    rcases hsplit u with ⟨hu, hs, hn⟩ | ⟨hu, hn⟩
    · rw [hn, hs]
      simp [hu]
    · rw [hn]
      simp [hu]
  · ext u
    change (node d₁ u).status = _ ↔ (node d u).status = _
    rcases hsplit u with ⟨hu, hs, hn⟩ | ⟨hu, hn⟩
    · rw [hn, hs]
      simp
    · rw [hn]
  · funext u v
    change ((node d₁ u).status ≠ _ ∧ v ∈ (node d₁ u).next) =
      (((node d u).status ≠ _ ∧ v ∈ (node d u).next) ∨ (u = _ ∧ v ∈ r.pointers.map toStateName))
    rcases hsplit u with ⟨hu, hs, hn⟩ | ⟨hu, hn⟩
    · rw [hn, hs]
      simp [hu, Node.next]
    · rw [hn]
      simp [hu]
  · ext u
    change ((node d₁ u).status ≠ _ ∧ (node d₁ u).record.isGenesis = false) ↔
      ((node d u).status ≠ _ ∧ (node d u).record.isGenesis = false) ∨
        (u = _ ∧ r.isGenesis = false)
    rcases hsplit u with ⟨hu, hs, hn⟩ | ⟨hu, hn⟩
    · rw [hn, hs]
      simp [hu]
    · rw [hn]
      simp [hu]
  · funext u
    ext x
    change x ∈ (node d₁ u).descendants ↔ x ∈ (node d u).descendants
    rcases hsplit u with ⟨hu, hs, hn⟩ | ⟨hu, hn⟩ <;> rw [hn]

theorem abs_credits {P : Name → Name → Prop} {d d' : DagModule} (h : Gives P d d') (X : Set Name)
    (hP : ∀ x a, P x a ↔ x ∈ X ∧ x ∈ (abs d).counted ∧ (abs d).Finds x a) :
    abs d' = (abs d).credit X := by
  refine Dag.ext ?_ ?_ ?_ ?_ ?_
  · ext u
    rw [mem_loaded, h.status]
    rfl
  · ext u
    rw [mem_locked, h.status]
    rfl
  · funext u v
    exact propext (by rw [abs_edge, h.status, h.next]; rfl)
  · ext u
    rw [mem_counted, h.status, h.record]
    rfl
  · funext a
    ext x
    rw [mem_desc, h.descendants, hP]
    rfl

theorem abs_locks {H : Name → Prop} {d d' : DagModule} (h : Locks H d d') (S : Set Name)
    (hS : ∀ n, H n ↔ n ∈ S ∧ n ∈ (abs d).loaded) : abs d' = (abs d).lock S := by
  have hnext : ∀ n, (node d' n).next = (node d n).next := fun n => by rw [Node.next, h.record]; rfl
  refine Dag.ext ?_ ?_ ?_ ?_ ?_
  · ext u
    rw [mem_loaded, Ne, h.pending]
    rfl
  · ext u
    change (node d' u).status = _ ↔ (node d u).status = _ ∨ (u ∈ S ∧ u ∈ (abs d).loaded)
    rw [← hS]
    by_cases hu : H u
    · simp [h.locked u hu, hu]
    · simp [h.same u hu, hu]
  · funext u v
    exact propext (by rw [abs_edge, Ne, h.pending, hnext]; rfl)
  · ext u
    rw [mem_counted, Ne, h.pending, h.record]
    rfl
  · funext a
    ext x
    rw [mem_desc, h.descendants]
    rfl

/-! ## Modules whose waitlist agrees with their storage -/

structure Consistent (config : DagConfig) (d : DagModule) : Prop where
  clean : Clean d
  sound : (abs d).Sound
  bucket : ∀ k n, InBucket d.waitlist k n → Stored d n ∧ k = value config d n
  waiting : ∀ n, Stored d n → (node d n).status ≠ .INTERLOCKED →
    InBucket d.waitlist (value config d n) n

theorem abs_congr {d d' : DagModule} (h : ∀ n, node d' n = node d n) : abs d' = abs d := by
  refine Dag.ext ?_ ?_ ?_ ?_ ?_
  · ext u
    rw [mem_loaded, mem_loaded, h]
  · ext u
    rw [mem_locked, mem_locked, h]
  · funext u v
    exact propext (by rw [abs_edge, abs_edge, h])
  · ext u
    rw [mem_counted, mem_counted, h]
  · funext a
    ext x
    rw [mem_desc, mem_desc, h]

/-- Only nodes and buckets matter, as long as the storage stays clean. -/
theorem Consistent.congr {d d' : DagModule} (h : Consistent config d) (hclean : Clean d')
    (hnode : ∀ n, node d' n = node d n) (hstored : ∀ n, Stored d' n ↔ Stored d n)
    (hbucket : ∀ k n, InBucket d'.waitlist k n ↔ InBucket d.waitlist k n) :
    Consistent config d' := by
  have hvalue : ∀ n, value config d' n = value config d n :=
    fun n => value_congr fun x => by rw [hnode]
  refine ⟨hclean, ?_, ?_, ?_⟩
  · rw [abs_congr hnode]
    exact h.sound
  · intro k n hin
    rw [hstored, hvalue]
    exact h.bucket k n ((hbucket k n).mp hin)
  · intro n hst hopen
    rw [hvalue, hbucket]
    exact h.waiting n ((hstored n).mp hst) (hnode n ▸ hopen)

theorem node_empty (n : Name) : node {} n = Node.unknown n := by
  simp [node, stateAt]

theorem abs_empty : abs {} = (Dag.empty : Dag Name) := by
  refine Dag.ext ?_ ?_ ?_ ?_ ?_
  · ext u
    simp [mem_loaded, node_empty, Node.unknown, Dag.empty]
  · ext u
    simp [mem_locked, node_empty, Node.unknown, Dag.empty]
  · funext u v
    simp [abs_edge, node_empty, Node.unknown, Dag.empty]
  · ext u
    simp [mem_counted, node_empty, Node.unknown, Dag.empty]
  · funext a
    ext x
    simp [mem_desc, node_empty, Node.unknown, Dag.empty]

theorem Consistent.empty : Consistent config {} where
  clean := Clean.empty
  sound := by
    rw [abs_empty]
    exact Dag.sound_empty
  bucket k n h := by simp [InBucket] at h
  waiting n h := by simp [Stored, stateAt] at h

/-- What the arrival of a record that is not loaded yet amounts to. -/
structure Adds (r : Record) (d d' : DagModule) : Prop where
  abs_eq : abs d' = (abs d).add (toStateName r.name) {v | v ∈ r.pointers.map toStateName}
    (r.isGenesis = false)
  loaded : (node d' (toStateName r.name)).record = r
  record : ∀ n, n ≠ toStateName r.name → (node d' n).record = (node d n).record
  stored : ∀ n, Stored d n → Stored d' n
  unlisted : ∀ k n, (node d' n).status = .INTERLOCKED →
    (InBucket d'.waitlist k n ↔ InBucket d.waitlist k n)
  others : ∀ n, ¬IsStateName n → d'.storage.list[n]? = d.storage.list[n]?

theorem Consistent.add_new {d : DagModule} (h : Consistent config d) {r : Record}
    (hnew : (node d (toStateName r.name)).status = .INITIALIZED) :
    ∃ d', exec (add config r) d = (.ok (toStateName r.name), d') ∧ Consistent config d' ∧
      Adds r d d' := by
  have hdesc : ∀ x ∈ (node d (toStateName r.name)).descendants,
      (node d x).status ≠ .INITIALIZED := fun x hx =>
    (abs d).counted_loaded (h.sound _ hx).1
  obtain ⟨d₁, d', hrun, hl, hc⟩ := exec_add_new config h.clean hnew hdesc
  have hendorse : ∀ x a, Endorses d d₁ r x a ↔
      x ∈ insert (toStateName r.name) ((abs d).desc (toStateName r.name)) ∧
        x ∈ (abs d₁).counted ∧ (abs d₁).Finds x a := by
    intro x a
    have hx : x ∈ insert (toStateName r.name) ((abs d).desc (toStateName r.name)) →
        (node d₁ x).status ≠ .INITIALIZED := by
      intro hx
      by_cases he : x = toStateName r.name
      · rw [he, hl.loaded]
        exact fun hc => Status.noConfusion hc
      · rw [hl.same x he]
        exact hdesc x (hx.resolve_left he)
    constructor
    · rintro ⟨hmem, hg, hf⟩
      exact ⟨hmem, ⟨hx hmem, hg⟩, (finds_iff (hx hmem) a).mpr hf⟩
    · rintro ⟨hmem, hcount, hf⟩
      exact ⟨hmem, hcount.2, (finds_iff hcount.1 a).mp hf⟩
  have habs : abs d' = (abs d).add (toStateName r.name) {v | v ∈ r.pointers.map toStateName}
      (r.isGenesis = false) := by
    rw [abs_credits hc.toGives _ hendorse, abs_loads hl hnew]
    rfl
  have hvalue : ∀ a, (¬∃ x, Endorses d d₁ r x a) → value config d' a = value config d₁ a :=
    fun a ha => value_congr fun x => by
      rw [hc.descendants]
      exact or_iff_left fun hx => ha ⟨x, hx⟩
  have hvalue₁ : ∀ a, a ≠ toStateName r.name → value config d₁ a = value config d a :=
    fun a ha => value_congr fun x => by rw [hl.same a ha]
  refine ⟨d', hrun, ⟨hc.clean, ?_, ?_, ?_⟩, ⟨habs, ?_, ?_, ?_, ?_, ?_⟩⟩
  · rw [habs]
    exact h.sound.add _ _ _
  · intro k n hin
    by_cases he : ∃ x, Endorses d d₁ r x n
    · exact ⟨(hc.stored n).mpr (.inr he), (hc.moved n he k).mp hin⟩
    · have hin₁ := (hl.bucket n k).mp ((hc.unmoved n he k).mp hin)
      rw [hvalue n he, hc.stored, hl.stored]
      split_ifs at hin₁ with hn
      · exact ⟨.inl (.inr hn), hin₁⟩
      · rw [hvalue₁ n hn]
        exact ⟨.inl (.inl (h.bucket k n hin₁).1), (h.bucket k n hin₁).2⟩
  · intro n hst hopen
    by_cases he : ∃ x, Endorses d d₁ r x n
    · exact (hc.moved n he _).mpr rfl
    · rw [hc.unmoved n he, hvalue n he, hl.bucket]
      split_ifs with hn
      · rfl
      · rw [hvalue₁ n hn]
        rw [hc.stored, hl.stored] at hst
        rw [hc.status, hl.same n hn] at hopen
        exact h.waiting n ((hst.resolve_right he).resolve_right hn) hopen
  · rw [hc.record, hl.loaded]
  · intro n hn
    rw [hc.record, hl.same n hn]
  · exact fun n hn => (hc.stored n).mpr (.inl ((hl.stored n).mpr (.inl hn)))
  · intro k n hlocked
    have hn : n ≠ toStateName r.name := by
      intro hn
      rw [hc.status, hn, hl.loaded] at hlocked
      exact Status.noConfusion hlocked
    have he : ¬∃ x, Endorses d d₁ r x n := by
      rintro ⟨x, hx⟩
      have hopen : (node d₁ n).isOpen = true := hx.2.2.1
      rw [hc.status] at hlocked
      simp [Node.isOpen, hlocked] at hopen
    rw [hc.unmoved n he, hl.bucket, if_neg hn]
  · intro n hn
    rw [hc.others n hn, hl.others n hn]

theorem Consistent.add_old {d : DagModule} (h : Consistent config d) {r : Record}
    (hold : (node d (toStateName r.name)).status ≠ .INITIALIZED) :
    exec (add config r) d = (.ok (toStateName r.name), d) := exec_add_old h.clean hold

/-! ## Harvests -/

/-- A state that nothing endorses has the value zero. -/
theorem value_of_desc_eq_empty {d : DagModule} {n : Name} (h : (abs d).desc n = ∅) :
    value config d n = 0 :=
  value_eq_zero_iff.mpr fun x hx => Set.eq_empty_iff_forall_notMem.mp h x hx

theorem enough_desc {t : ℕ} {d : DagModule} (n : Name) :
    config.policy.enough t ((abs d).desc n) ↔ t ≤ value config d n :=
  enough_iff fun x => mem_members _ x

/-- The effect of a harvest from `t` up. -/
structure Harvests (config : DagConfig) (t : ℕ) (remove : Bool) (d d' : DagModule) : Prop where
  abs_eq : abs d' = (abs d).lock ((abs d).ripe (config.policy.enough t))
  record : ∀ n, (node d' n).record = (node d n).record
  stored : ∀ n, Stored d' n ↔ Stored d n
  bucket : ∀ k n, InBucket d'.waitlist k n ↔ InBucket d.waitlist k n ∧
    ¬(remove = true ∧ t ≤ k ∧ (node d n).status ≠ .INITIALIZED)
  others : ∀ n, ¬IsStateName n → d'.storage.list[n]? = d.storage.list[n]?

theorem Consistent.harvestAbove {d : DagModule} (h : Consistent config d) (t : ℕ)
    (remove : Bool) :
    ∃ d', exec (harvestAbove config t remove) d =
        (.ok ((harvested d (t ≤ ·) d.waitlist.toList).map fun n => (node d n).record), d') ∧
      Consistent config d' ∧ Harvests config t remove d d' := by
  obtain ⟨d', hrun, hl, hb⟩ := exec_harvestAbove config h.clean
    (fun k n hn => (h.bucket k n hn).1) t remove
  have hlocked : ∀ n, n ∈ harvested d (t ≤ ·) d.waitlist.toList ↔
      n ∈ {n | ∃ k, t ≤ k ∧ InBucket d.waitlist k n} ∧ n ∈ (abs d).loaded := by
    intro n
    simp only [mem_harvested, decide_eq_true_eq, mem_loaded]
    exact and_comm
  have hripe : (abs d).lock {n | ∃ k, t ≤ k ∧ InBucket d.waitlist k n} =
      (abs d).lock ((abs d).ripe (config.policy.enough t)) := by
    refine Dag.ext rfl ?_ rfl rfl rfl
    ext n
    change n ∈ (abs d).locked ∨ ((∃ k, t ≤ k ∧ InBucket d.waitlist k n) ∧ n ∈ (abs d).loaded) ↔
      n ∈ (abs d).locked ∨ (n ∈ (abs d).ripe (config.policy.enough t) ∧ n ∈ (abs d).loaded)
    by_cases hn : n ∈ (abs d).locked
    · exact ⟨fun _ => .inl hn, fun _ => .inl hn⟩
    · refine or_congr_right (and_congr_left fun hload => ?_)
      constructor
      · rintro ⟨k, ht, hk⟩
        exact ⟨hload, hn, (enough_desc n).mpr ((h.bucket k n hk).2 ▸ ht)⟩
      · rintro ⟨_, _, ht⟩
        exact ⟨_, (enough_desc n).mp ht, h.waiting n (stored_of_status hload) hn⟩
  have habs := abs_locks hl _ hlocked
  have hvalue : ∀ n, value config d' n = value config d n :=
    fun n => value_congr fun x => by rw [hl.descendants]
  refine ⟨d', hrun, ⟨hl.clean, ?_, ?_, ?_⟩, habs.trans hripe, hl.record, hl.stored, hb, hl.others⟩
  · rw [habs]
    exact h.sound.lock _
  · intro k n hin
    rw [hvalue, hl.stored]
    exact h.bucket k n ((hb k n).mp hin).1
  · intro n hst hopen
    have hnot : n ∉ harvested d (t ≤ ·) d.waitlist.toList := by
      intro hn
      rw [hl.locked n hn] at hopen
      exact hopen rfl
    rw [hl.same n hnot] at hopen
    have hin := h.waiting n ((hl.stored n).mp hst) hopen
    rw [hvalue, hb]
    refine ⟨hin, ?_⟩
    rintro ⟨_, ht, hs⟩
    exact hnot ((hlocked n).mpr ⟨⟨_, ht, hin⟩, hs⟩)

theorem Consistent.harvestBelow {d : DagModule} (h : Consistent config d) (t : ℕ) :
    exec (harvestBelow config t) d =
      (.ok ((harvested d (· < t) d.waitlist.toList).map fun n => (node d n).record), d) :=
  exec_harvestBelow h.clean (fun k n hn => (h.bucket k n hn).1) t

end CertLedger.DagRefinement
