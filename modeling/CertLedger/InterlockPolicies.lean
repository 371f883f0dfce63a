import CertLedger.EdgeStateCodec

/-!
# Interlock policies

A policy selects endorsements among the descendants of a state; its value is
their number. On finite sets of descendants both policies are monotone counts,
of the members and of their producers.
-/
namespace CertLedger.InterlockPolicies
open Std NdnObjects EdgeStateCodec OrderedContainers

inductive InterlockPolicy where
  /-- "policy-descendants" -/
  | descendants
  /-- "policy-witness" -/
  | witness
  deriving DecidableEq

/-- The record name without its last component. -/
def dataPrefix (stateName : Name) : Name := (fromStateName stateName).getPrefixButLast

/-- One turn of the selection loop: the prefixes met and the names taken. -/
def selectWitness (acc : NameSet × NameSet) (item : Name) : NameSet × NameSet :=
  if dataPrefix item ∈ acc.1 then acc
  else (acc.1.insert (dataPrefix item), acc.2.insert item)

def InterlockPolicy.select (policy : InterlockPolicy) (state : EdgeState) : NameSet :=
  match policy with
  | .descendants => state.descendants
  | .witness => (state.descendants.toList.foldl selectWitness (∅, ∅)).2

def InterlockPolicy.evaluate (policy : InterlockPolicy) (state : EdgeState) : ℕ :=
  (policy.select state).size

/-- The count behind a policy, on any finite set of state names. -/
def InterlockPolicy.value (policy : InterlockPolicy) (names : Finset Name) : ℕ :=
  match policy with
  | .descendants => names.card
  | .witness => (names.image dataPrefix).card

theorem value_mono (policy : InterlockPolicy) {s t : Finset Name} (h : s ⊆ t) :
    policy.value s ≤ policy.value t := by
  cases policy with
  | descendants => exact Finset.card_le_card h
  | witness => exact Finset.card_le_card (Finset.image_subset_image h)

theorem value_le_card (policy : InterlockPolicy) (s : Finset Name) : policy.value s ≤ s.card := by
  cases policy with
  | descendants => exact le_rfl
  | witness => exact Finset.card_image_le

@[simp] theorem value_empty (policy : InterlockPolicy) : policy.value ∅ = 0 := by
  cases policy <;> rfl

theorem value_eq_zero (policy : InterlockPolicy) (s : Finset Name) :
    policy.value s = 0 ↔ s = ∅ := by
  cases policy <;> simp [InterlockPolicy.value]

/-- Endorsed enough for the threshold, on sets that need not be finite. -/
def InterlockPolicy.enough (policy : InterlockPolicy) (t : ℕ) (D : Set Name) : Prop :=
  ∃ F : Finset Name, (∀ x ∈ F, x ∈ D) ∧ t ≤ policy.value F

theorem enough_mono {policy : InterlockPolicy} {t : ℕ} {D E : Set Name} (h : D ⊆ E) :
    policy.enough t D → policy.enough t E :=
  Exists.imp fun _ hF => ⟨fun x hx => h (hF.1 x hx), hF.2⟩

/-- On a finite set it is a test of the value. -/
theorem enough_iff {policy : InterlockPolicy} {t : ℕ} {D : Set Name} {F : Finset Name}
    (h : ∀ x, x ∈ F ↔ x ∈ D) : policy.enough t D ↔ t ≤ policy.value F := by
  constructor
  · rintro ⟨E, hE, ht⟩
    exact ht.trans (value_mono _ fun x hx => (h x).mpr (hE x hx))
  · exact fun ht => ⟨F, fun x hx => (h x).mp hx, ht⟩

/-- The selection loop takes one name for each prefix it meets. -/
theorem selectWitness_fold (l : List Name) (acc : NameSet × NameSet)
    (hpre : ∀ n ∈ acc.2, dataPrefix n ∈ acc.1) :
    let out := l.foldl selectWitness acc
    members out.1 = members acc.1 ∪ (l.toFinset.image dataPrefix) ∧
      (members out.2).card + (members acc.1).card =
        (members acc.2).card + (members out.1).card := by
  induction l generalizing acc with
  | nil => simp [Nat.add_comm]
  | cons item l ih =>
      rw [List.foldl_cons, List.toFinset_cons, Finset.image_insert]
      by_cases h : dataPrefix item ∈ acc.1
      · have hstep : selectWitness acc item = acc := if_pos h
        have hin : dataPrefix item ∈ members acc.1 := (mem_members _ _).mpr h
        obtain ⟨h₁, h₂⟩ := ih acc hpre
        rw [hstep]
        refine ⟨?_, h₂⟩
        rw [h₁, Finset.union_insert, Finset.insert_eq_of_mem (Finset.mem_union_left _ hin)]
      · have hstep : selectWitness acc item =
            (acc.1.insert (dataPrefix item), acc.2.insert item) := if_neg h
        have hfresh : item ∉ members acc.2 := fun hm => h (hpre item ((mem_members _ _).mp hm))
        have hnew : dataPrefix item ∉ members acc.1 := fun hm => h ((mem_members _ _).mp hm)
        have hpre' : ∀ n ∈ acc.2.insert item, dataPrefix n ∈ acc.1.insert (dataPrefix item) := by
          intro n hn
          rw [mem_insert] at hn ⊢
          cases hn with
          | inl he => exact .inl (congrArg dataPrefix he)
          | inr hm => exact .inr (hpre n hm)
        obtain ⟨h₁, h₂⟩ := ih (acc.1.insert (dataPrefix item), acc.2.insert item) hpre'
        rw [hstep]
        simp only [members_insert, Finset.card_insert_of_notMem hfresh,
          Finset.card_insert_of_notMem hnew] at h₁ h₂ ⊢
        refine ⟨?_, by omega⟩
        rw [h₁, Finset.insert_union, Finset.union_insert]

/-- Of two names with one prefix the loop takes the first. -/
theorem selectWitness_distinct (l : List Name) (acc : NameSet × NameSet)
    (hpre : ∀ n ∈ acc.2, dataPrefix n ∈ acc.1)
    (hone : ∀ x ∈ acc.2, ∀ y ∈ acc.2, dataPrefix x = dataPrefix y → x = y) :
    let out := l.foldl selectWitness acc
    (∀ x ∈ out.2, x ∈ acc.2 ∨ x ∈ l) ∧
      ∀ x ∈ out.2, ∀ y ∈ out.2, dataPrefix x = dataPrefix y → x = y := by
  induction l generalizing acc with
  | nil => exact ⟨fun x hx => .inl hx, hone⟩
  | cons item l ih =>
      rw [List.foldl_cons]
      by_cases h : dataPrefix item ∈ acc.1
      · rw [show selectWitness acc item = acc from if_pos h]
        obtain ⟨hmem, hout⟩ := ih acc hpre hone
        exact ⟨fun x hx => (hmem x hx).imp_right (List.mem_cons_of_mem _), hout⟩
      · rw [show selectWitness acc item =
          (acc.1.insert (dataPrefix item), acc.2.insert item) from if_neg h]
        have hfresh : ∀ x ∈ acc.2, dataPrefix x ≠ dataPrefix item :=
          fun x hx he => h (he ▸ hpre x hx)
        have hpre' : ∀ n ∈ acc.2.insert item, dataPrefix n ∈ acc.1.insert (dataPrefix item) := by
          intro n hn
          rw [mem_insert] at hn ⊢
          exact hn.imp (congrArg dataPrefix) (hpre n)
        have hone' : ∀ x ∈ acc.2.insert item, ∀ y ∈ acc.2.insert item,
            dataPrefix x = dataPrefix y → x = y := by
          intro x hx y hy he
          rcases (mem_insert _ _ _).mp hx with rfl | hx' <;>
            rcases (mem_insert _ _ _).mp hy with rfl | hy'
          · rfl
          · exact (hfresh y hy' he.symm).elim
          · exact (hfresh x hx' he).elim
          · exact hone x hx' y hy' he
        obtain ⟨hmem, hout⟩ := ih (acc.1.insert (dataPrefix item), acc.2.insert item) hpre' hone'
        refine ⟨fun x hx => ?_, hout⟩
        rcases hmem x hx with hx | hx
        · rcases (mem_insert _ _ _).mp hx with rfl | hx
          · exact .inr (by simp)
          · exact .inl hx
        · exact .inr (List.mem_cons_of_mem _ hx)

theorem mem_select {policy : InterlockPolicy} {state : EdgeState} {x : Name}
    (hx : x ∈ policy.select state) : x ∈ state.descendants := by
  cases policy with
  | descendants => exact hx
  | witness =>
      have h := (selectWitness_distinct state.descendants.toList (∅, ∅) (by simp) (by simp)).1 x hx
      simpa using h

/-- Witnesses have different producers. -/
theorem select_distinct {state : EdgeState} {x y : Name}
    (hx : x ∈ InterlockPolicy.witness.select state) (hy : y ∈ InterlockPolicy.witness.select state)
    (h : dataPrefix x = dataPrefix y) : x = y :=
  (selectWitness_distinct state.descendants.toList (∅, ∅) (by simp) (by simp)).2 x hx y hy h

/-- The value of a stored state is the count over its descendants. -/
theorem evaluate_eq_value (policy : InterlockPolicy) (state : EdgeState) :
    policy.evaluate state = policy.value (members state.descendants) := by
  cases policy with
  | descendants => exact (card_members _).symm
  | witness =>
      have h := selectWitness_fold state.descendants.toList (∅, ∅) (by simp)
      have he : members (∅ : NameSet) = ∅ := by
        ext n
        simp
      rw [InterlockPolicy.evaluate, InterlockPolicy.select, ← card_members]
      simp only [he, Finset.card_empty, Finset.empty_union, Nat.add_zero, Nat.zero_add] at h
      rw [h.2, h.1]
      rfl

/-- The source returns a `uint32_t`, which holds the value below `2 ^ 32` descendants. -/
theorem toNat_evaluate (policy : InterlockPolicy) {state : EdgeState}
    (h : state.descendants.size < 2 ^ 32) :
    (UInt32.ofNat (policy.evaluate state)).toNat = policy.evaluate state := by
  have hle := value_le_card policy (members state.descendants)
  rw [card_members, ← evaluate_eq_value] at hle
  rw [UInt32.toNat_ofNat', Nat.mod_eq_of_lt (hle.trans_lt h)]

/-! ## Witnesses -/

/-- The witnesses have the producers of the descendants: they are as many, and none is new. -/
theorem image_select (state : EdgeState) :
    (members (InterlockPolicy.witness.select state)).image dataPrefix =
      (members state.descendants).image dataPrefix := by
  have hsub : members (InterlockPolicy.witness.select state) ⊆ members state.descendants := by
    intro x hx
    rw [mem_members] at hx ⊢
    exact mem_select hx
  have hinj : Set.InjOn dataPrefix (members (InterlockPolicy.witness.select state)) := by
    intro x hx y hy hxy
    rw [Finset.mem_coe, mem_members] at hx hy
    exact select_distinct hx hy hxy
  refine Finset.eq_of_subset_of_card_le (Finset.image_subset_image hsub) ?_
  rw [Finset.card_image_of_injOn hinj, card_members]
  exact (evaluate_eq_value .witness state).ge

theorem exists_witness {state : EdgeState} {x : Name} (hx : x ∈ state.descendants) :
    ∃ w ∈ InterlockPolicy.witness.select state, dataPrefix w = dataPrefix x := by
  have himage : dataPrefix x ∈ (members state.descendants).image dataPrefix :=
    Finset.mem_image_of_mem _ ((mem_members _ _).mpr hx)
  rw [← image_select] at himage
  obtain ⟨w, hw, hwx⟩ := Finset.mem_image.mp himage
  exact ⟨w, (mem_members _ _).mp hw, hwx⟩

/-- One witness for each producer, and what follows for their number. -/
theorem witness_selection (state : EdgeState) :
    (∀ x ∈ InterlockPolicy.witness.select state, x ∈ state.descendants) ∧
    (∀ producer, (∃ x ∈ state.descendants, dataPrefix x = producer) →
      ∃! w, w ∈ InterlockPolicy.witness.select state ∧ dataPrefix w = producer) ∧
    InterlockPolicy.witness.evaluate state =
      ((members state.descendants).image dataPrefix).card ∧
    (∀ larger : EdgeState, (∀ x ∈ state.descendants, x ∈ larger.descendants) →
      InterlockPolicy.witness.evaluate state ≤ InterlockPolicy.witness.evaluate larger) ∧
    (InterlockPolicy.witness.evaluate state = 0 ↔ state.descendants = ∅) := by
  refine ⟨fun x hx => mem_select hx, ?_, evaluate_eq_value .witness state, ?_, ?_⟩
  · rintro producer ⟨x, hx, rfl⟩
    obtain ⟨w, hw, hwx⟩ := exists_witness hx
    refine ⟨w, ⟨hw, hwx⟩, ?_⟩
    intro v hv
    exact select_distinct hv.1 hw (hv.2.trans hwx.symm)
  · intro larger h
    rw [evaluate_eq_value, evaluate_eq_value]
    refine value_mono .witness fun x hx => ?_
    rw [mem_members] at hx ⊢
    exact h x hx
  · rw [evaluate_eq_value, value_eq_zero, ← Finset.card_eq_zero, card_members,
      ExtTreeSet.eq_empty_iff_size_eq_zero]

end CertLedger.InterlockPolicies
