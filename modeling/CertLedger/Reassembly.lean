import Mathlib.Data.List.Basic
import Mathlib.Data.List.Infix
import Mathlib.Data.Set.Insert
import Mathlib.Tactic.Common

/-!
# Cutting and reassembly

A list cut into chunks of one size, and items that come in any order and leave in
the order of their keys. What has come is a set of keys; what has left is the
longest run of keys from zero in it.
-/
namespace CertLedger.Reassembly

variable {α : Type}

/-! ## Chunks -/

/-- The chunk of a list from a multiple of the size on. -/
def chunk (size : ℕ) (l : List α) (k : ℕ) : List α := (l.drop (k * size)).take size

theorem flatMap_chunk (size : ℕ) (l : List α) (n : ℕ) :
    (List.range n).flatMap (chunk size l) = l.take (n * size) := by
  induction n with
  | zero => simp
  | succ n ih =>
      rw [List.range_succ, List.flatMap_append, ih, List.flatMap_singleton, Nat.succ_mul,
        List.take_add]
      rfl

theorem length_chunk (size : ℕ) (l : List α) (k : ℕ) :
    (chunk size l k).length = min size (l.length - k * size) := by
  rw [chunk, List.length_take, List.length_drop]

/-! ## Items in order -/

/-- Writes an item into entries that are sorted by their keys. -/
def assign (k : ℕ) (a : α) : List (ℕ × α) → List (ℕ × α)
  | [] => [(k, a)]
  | e :: entries =>
      if k < e.1 then (k, a) :: e :: entries
      else if k = e.1 then (k, a) :: entries
      else e :: assign k a entries

/-- Takes out the entries whose keys go on from `next`: the items, the key that is
next then, and the entries that stay. -/
def release (next : ℕ) : List (ℕ × α) → List α × ℕ × List (ℕ × α)
  | [] => ([], next, [])
  | e :: entries =>
      if e.1 = next then
        let r := release (next + 1) entries
        (e.2 :: r.1, r.2)
      else ([], next, e :: entries)

def Sorted (entries : List (ℕ × α)) : Prop := entries.Pairwise (·.1 < ·.1)

theorem mem_assign {k : ℕ} {a : α} {entries : List (ℕ × α)} (h : ∀ e ∈ entries, e.1 ≠ k)
    (e : ℕ × α) : e ∈ assign k a entries ↔ e = (k, a) ∨ e ∈ entries := by
  induction entries with
  | nil => simp [assign]
  | cons f entries ih =>
      have hf : k ≠ f.1 := Ne.symm (h f List.mem_cons_self)
      have hrest := ih fun e he => h e (List.mem_cons_of_mem f he)
      simp only [assign, if_neg hf]
      split_ifs
      · simp
      · simp only [List.mem_cons, hrest]
        tauto

theorem of_mem_assign {k : ℕ} {a : α} {entries : List (ℕ × α)} {e : ℕ × α}
    (he : e ∈ assign k a entries) : e = (k, a) ∨ e ∈ entries := by
  induction entries with
  | nil => simpa [assign] using he
  | cons f entries ih =>
      simp only [assign] at he
      split_ifs at he
      · simpa using he
      · simp only [List.mem_cons] at he ⊢
        tauto
      · rcases List.mem_cons.mp he with rfl | he
        · exact .inr List.mem_cons_self
        · exact (ih he).imp id (List.mem_cons_of_mem f)

/-- The entries are taken out from the front. -/
theorem release_split (next : ℕ) (entries : List (ℕ × α)) :
    ∃ first, entries = first ++ (release next entries).2.2 ∧
      (release next entries).1 = first.map (·.2) := by
  induction entries generalizing next with
  | nil => exact ⟨[], rfl, rfl⟩
  | cons e entries ih =>
      rw [release]
      split_ifs
      · obtain ⟨first, hsplit, hitems⟩ := ih (next + 1)
        exact ⟨e :: first, congrArg (e :: ·) hsplit, congrArg (e.2 :: ·) hitems⟩
      · exact ⟨[], rfl, rfl⟩

theorem Sorted.assign {k : ℕ} {entries : List (ℕ × α)} (hs : Sorted entries)
    (h : ∀ e ∈ entries, e.1 ≠ k) (a : α) : Sorted (assign k a entries) := by
  induction entries with
  | nil => simp [Reassembly.assign, Sorted]
  | cons f entries ih =>
      have hf : k ≠ f.1 := Ne.symm (h f List.mem_cons_self)
      have hrest : ∀ e ∈ entries, e.1 ≠ k := fun e he => h e (List.mem_cons_of_mem f he)
      obtain ⟨hlt, htail⟩ := List.pairwise_cons.mp hs
      simp only [Reassembly.assign, if_neg hf]
      split_ifs with hk
      · apply List.pairwise_cons.mpr
        refine ⟨?_, hs⟩
        intro e he
        rcases List.mem_cons.mp he with rfl | he
        · exact hk
        · exact hk.trans (hlt e he)
      · apply List.pairwise_cons.mpr
        refine ⟨?_, ih htail hrest⟩
        intro e he
        rcases (mem_assign hrest e).mp he with rfl | he
        · dsimp only
          omega
        · exact hlt e he

/-- The entries that stay are sorted and those from the next key on, and the items are
those of the keys before it. -/
theorem release_spec (f : ℕ → α) {next : ℕ} {entries : List (ℕ × α)} (hs : Sorted entries)
    (hle : ∀ e ∈ entries, next ≤ e.1) (hf : ∀ e ∈ entries, e.2 = f e.1) :
    ∃ d, release next entries = ((List.range' next d).map f, next + d,
        entries.filter (next + d ≤ ·.1)) ∧
      (∀ i < d, ∃ e ∈ entries, e.1 = next + i) ∧ ∀ e ∈ entries, e.1 ≠ next + d := by
  induction entries generalizing next with
  | nil => exact ⟨0, by simp [release]⟩
  | cons e entries ih =>
      obtain ⟨hlt, htail⟩ := List.pairwise_cons.mp hs
      by_cases he : e.1 = next
      · have hle' : ∀ e' ∈ entries, next + 1 ≤ e'.1 := by
          intro e' he'
          have := hlt e' he'
          omega
        obtain ⟨d, hd, hbelow, hnext⟩ := ih htail hle' fun e' he' => hf e' (List.mem_cons_of_mem e he')
        have hadd : next + 1 + d = next + (d + 1) := by omega
        rw [hadd] at hd hnext
        refine ⟨d + 1, ?_, ?_, ?_⟩
        · have hout : ¬next + (d + 1) ≤ e.1 := by omega
          rw [release, if_pos he, hd, List.range'_succ, List.map_cons, hf e List.mem_cons_self, he]
          simp [hout]
        · intro i hi
          rcases Nat.eq_zero_or_pos i with rfl | hpos
          · exact ⟨e, List.mem_cons_self, he⟩
          · obtain ⟨e', he', hkey⟩ := hbelow (i - 1) (by omega)
            exact ⟨e', List.mem_cons_of_mem e he', by omega⟩
        · intro e' he'
          rcases List.mem_cons.mp he' with rfl | he'
          · omega
          · exact hnext e' he'
      · have hgt : next < e.1 := by
          have := hle e List.mem_cons_self
          omega
        refine ⟨0, ?_, by simp, ?_⟩
        · have hall : (e :: entries).filter (next + 0 ≤ ·.1) = e :: entries := by
            apply List.filter_eq_self.mpr
            intro e' he'
            simpa using hle e' he'
          rw [release, if_neg he, hall]
          rfl
        · intro e' he'
          rcases List.mem_cons.mp he' with rfl | he'
          · omega
          · have := hlt e' he'
            omega

/-- The items `f` of the keys in `S` have come. Those before `next` have left. -/
structure Holds (f : ℕ → α) (S : Set ℕ) (next : ℕ) (entries : List (ℕ × α)) : Prop where
  left : ∀ k < next, k ∈ S
  stop : next ∉ S
  sorted : Sorted entries
  mem : ∀ e, e ∈ entries ↔ e.1 ∈ S ∧ next ≤ e.1 ∧ e.2 = f e.1

theorem holds_empty (f : ℕ → α) : Holds f ∅ 0 [] := by
  constructor <;> simp [Sorted]

/-- One more item comes, and all leave that can. -/
theorem Holds.step {f : ℕ → α} {S : Set ℕ} {next : ℕ} {entries : List (ℕ × α)}
    (h : Holds f S next entries) {k : ℕ} (hk : k ∉ S) :
    ∃ d entries', release next (assign k (f k) entries) =
        ((List.range' next d).map f, next + d, entries') ∧
      Holds f (insert k S) (next + d) entries' := by
  have hkey : ∀ e ∈ entries, e.1 ≠ k := by
    rintro e he rfl
    exact hk ((h.mem e).mp he).1
  have hmem := mem_assign (a := f k) hkey
  have hsorted := h.sorted.assign hkey (f k)
  have hnext : next ≤ k := by
    by_contra hlt
    exact hk (h.left k (by omega))
  have hle : ∀ e ∈ assign k (f k) entries, next ≤ e.1 := by
    intro e he
    rcases (hmem e).mp he with rfl | he
    · exact hnext
    · exact ((h.mem e).mp he).2.1
  have hf : ∀ e ∈ assign k (f k) entries, e.2 = f e.1 := by
    intro e he
    rcases (hmem e).mp he with rfl | he
    · rfl
    · exact ((h.mem e).mp he).2.2
  have hin : ∀ e ∈ assign k (f k) entries, e.1 ∈ insert k S := by
    intro e he
    rcases (hmem e).mp he with rfl | he
    · exact Set.mem_insert k S
    · exact Set.mem_insert_of_mem k ((h.mem e).mp he).1
  have hout : ∀ j, j ∈ insert k S → next ≤ j → (j, f j) ∈ assign k (f k) entries := by
    intro j hj hle
    apply (hmem _).mpr
    rcases Set.mem_insert_iff.mp hj with rfl | hj
    · exact .inl rfl
    · exact .inr ((h.mem _).mpr ⟨hj, hle, rfl⟩)
  obtain ⟨d, hd, hbelow, hstop⟩ := release_spec f hsorted hle hf
  refine ⟨d, _, hd, ?_, ?_, hsorted.filter _, ?_⟩
  · intro j hj
    by_cases hj' : j < next
    · exact Set.mem_insert_of_mem k (h.left j hj')
    · obtain ⟨e, he, hej⟩ := hbelow (j - next) (by omega)
      have : e.1 = j := by omega
      exact this ▸ hin e he
  · intro hj
    exact hstop _ (hout _ hj (Nat.le_add_right next d)) rfl
  · intro e
    rw [List.mem_filter, decide_eq_true_iff]
    constructor
    · rintro ⟨he, hle⟩
      exact ⟨hin e he, hle, hf e he⟩
    · rintro ⟨he, hle', hfe⟩
      have := hout e.1 he (by omega)
      rw [← hfe] at this
      exact ⟨this, hle'⟩

/-- All keys below `n` have come, and no other. -/
theorem Holds.complete {f : ℕ → α} {S : Set ℕ} {next : ℕ} {entries : List (ℕ × α)}
    (h : Holds f S next entries) {n : ℕ} (hS : ∀ k ∈ S, k < n) : next = n ↔ ∀ k < n, k ∈ S := by
  constructor
  · rintro rfl
    exact h.left
  · intro hall
    rcases Nat.lt_trichotomy next n with hlt | heq | hgt
    · exact absurd (hall next hlt) h.stop
    · exact heq
    · exact absurd (hS n (h.left n hgt)) (Nat.lt_irrefl n)

end CertLedger.Reassembly
