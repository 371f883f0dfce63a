import Mathlib.Data.Finset.Card
import Mathlib.Data.Finset.Dedup
import Mathlib.Data.List.Nodup
import Std.Data.ExtTreeMap
import Std.Data.ExtTreeSet

/-!
# Ordered maps and sets with equality as their key relation

Rules for the extensional tree containers when the comparison decides equality,
in the form proofs about lookups use, and the finite set of a tree set's members.
-/
namespace CertLedger.OrderedContainers
open Std

variable {κ : Type} {ν : Type} [Ord κ] [TransOrd κ] [LawfulEqOrd κ]

theorem getElem?_insert [DecidableEq κ] (t : ExtTreeMap κ ν) (k a : κ) (v : ν) :
    (t.insert k v)[a]? = if k = a then some v else t[a]? := by
  rw [ExtTreeMap.getElem?_insert]
  simp only [LawfulEqCmp.compare_eq_iff_eq]

theorem getElem?_erase [DecidableEq κ] (t : ExtTreeMap κ ν) (k a : κ) :
    (t.erase k)[a]? = if k = a then none else t[a]? := by
  rw [ExtTreeMap.getElem?_erase]
  simp only [LawfulEqCmp.compare_eq_iff_eq]

/-- Deleting an entry and writing it again is the same as overwriting it. -/
theorem erase_insert [DecidableEq κ] (t : ExtTreeMap κ ν) (k : κ) (v : ν) :
    (t.erase k).insert k v = t.insert k v := by
  apply ExtTreeMap.ext_getElem?
  intro a
  by_cases h : k = a <;> simp [getElem?_insert, getElem?_erase, h]

theorem mem_insert (s : ExtTreeSet κ) (k a : κ) : a ∈ s.insert k ↔ k = a ∨ a ∈ s := by
  rw [ExtTreeSet.mem_insert, LawfulEqCmp.compare_eq_iff_eq]

theorem nodup_toList (s : ExtTreeSet κ) : s.toList.Nodup := by
  refine s.ordered_toList.imp ?_
  intro a b hab he
  subst he
  simp at hab

section
variable [DecidableEq κ]

/-- The members of a tree set as a finite set. -/
def members (s : ExtTreeSet κ) : Finset κ := s.toList.toFinset

@[simp] theorem mem_members (s : ExtTreeSet κ) (a : κ) : a ∈ members s ↔ a ∈ s := by
  simp [members]

@[simp] theorem members_insert (s : ExtTreeSet κ) (k : κ) :
    members (s.insert k) = insert k (members s) := by
  ext a
  rw [mem_members, mem_insert, Finset.mem_insert, mem_members, eq_comm]

theorem card_members (s : ExtTreeSet κ) : (members s).card = s.size := by
  rw [members, List.toFinset_card_of_nodup (nodup_toList s), ExtTreeSet.length_toList]

end

/-- Inserting the members of a set one by one gives the set back. -/
theorem mem_foldl_insert (l : List κ) (s : ExtTreeSet κ) (a : κ) :
    a ∈ l.foldl (fun t k => t.insert k) s ↔ a ∈ l ∨ a ∈ s := by
  induction l generalizing s with
  | nil => simp
  | cons k l ih =>
      rw [List.foldl_cons, ih, mem_insert, List.mem_cons, eq_comm]
      tauto

theorem foldl_insert_toList (s : ExtTreeSet κ) :
    s.toList.foldl (fun t k => t.insert k) ∅ = s := by
  apply ExtTreeSet.ext_mem
  intro a
  simp [mem_foldl_insert]

/-! ## Sets kept in buckets -/

section Buckets
variable {α : Type} [Ord α] [TransOrd α] (w : ExtTreeMap κ (ExtTreeSet α))

def InBucket (k : κ) (a : α) : Prop := ∃ s, w[k]? = some s ∧ a ∈ s

theorem inBucket_iff_mem_toList (k : κ) (a : α) :
    InBucket w k a ↔ ∃ e ∈ w.toList, e.1 = k ∧ a ∈ e.2 := by
  constructor
  · rintro ⟨s, hs, ha⟩
    exact ⟨(k, s), ExtTreeMap.mem_toList_iff_getElem?_eq_some.mpr hs, rfl, ha⟩
  · rintro ⟨e, he, hk, ha⟩
    subst hk
    exact ⟨e.2, ExtTreeMap.mem_toList_iff_getElem?_eq_some.mp he, ha⟩

variable [DecidableEq κ]

theorem inBucket_insert_empty {k : κ} (hk : w[k]? = none) (j : κ) (a : α) :
    InBucket (w.insert k ∅) j a ↔ InBucket w j a := by
  unfold InBucket
  rw [getElem?_insert]
  split_ifs with hj
  · subst hj
    simp [hk]
  · rfl

/-- Takes an element out of every bucket and puts it into one. -/
def moveTo (k : κ) (a : α) : ExtTreeMap κ (ExtTreeSet α) :=
  let cleared := w.map fun _ s => s.erase a
  cleared.insert k ((cleared.getD k ∅).insert a)

variable [LawfulEqOrd α]

theorem mem_erase (s : ExtTreeSet α) (k a : α) : a ∈ s.erase k ↔ k ≠ a ∧ a ∈ s := by
  rw [ExtTreeSet.mem_erase, Ne, LawfulEqCmp.compare_eq_iff_eq]

theorem inBucket_moveTo [DecidableEq α] (k j : κ) (a b : α) :
    InBucket (moveTo w k a) j b ↔ if b = a then j = k else InBucket w j b := by
  have hcleared : ∀ i : κ, (w.map fun _ s => s.erase a)[i]? = w[i]?.map fun s => s.erase a := by
    intro i
    simp
  have herased : ∀ i : κ, InBucket (w.map fun _ s => s.erase a) i b ↔ a ≠ b ∧ InBucket w i b := by
    intro i
    unfold InBucket
    rw [hcleared]
    cases w[i]? with
    | none => simp
    | some s => simp only [Option.map_some, Option.some.injEq, exists_eq_left', mem_erase]
  unfold moveTo
  generalize (w.map fun _ s => s.erase a) = cleared at herased
  have hget : b ∈ cleared.getD k ∅ ↔ InBucket cleared k b := by
    unfold InBucket
    rw [ExtTreeMap.getD_eq_getD_getElem?]
    cases cleared[k]? <;> simp
  by_cases hj : k = j
  · subst hj
    have hin : InBucket (cleared.insert k ((cleared.getD k ∅).insert a)) k b ↔
        a = b ∨ InBucket cleared k b := by
      rw [InBucket, getElem?_insert, if_pos rfl, ← hget, ← mem_insert]
      simp
    rw [hin, herased]
    grind
  · have hin : InBucket (cleared.insert k ((cleared.getD k ∅).insert a)) j b ↔
        InBucket cleared j b := by
      rw [InBucket, getElem?_insert, if_neg hj, InBucket]
    rw [hin, herased]
    grind

theorem mem_foldl_erase (l : List α) (s : ExtTreeSet α) (a : α) :
    a ∈ l.foldl (fun t k => t.erase k) s ↔ a ∈ s ∧ a ∉ l := by
  induction l generalizing s with
  | nil => simp
  | cons k l ih =>
      rw [List.foldl_cons, ih, mem_erase, List.mem_cons]
      grind

/-- Erasing from one bucket. -/
theorem inBucket_modify (k j : κ) (rm : List α) (b : α) :
    InBucket (w.modify k fun s => rm.foldl (fun t n => t.erase n) s) j b ↔
      InBucket w j b ∧ ¬(j = k ∧ b ∈ rm) := by
  unfold InBucket
  rw [ExtTreeMap.getElem?_modify]
  simp only [LawfulEqCmp.compare_eq_iff_eq]
  by_cases hj : k = j
  · subst hj
    cases w[k]? <;> simp [mem_foldl_erase]
  · have hj' : j ≠ k := fun h => hj h.symm
    simp [hj, hj']

end Buckets

end CertLedger.OrderedContainers
