import Mathlib.Data.Finset.Card
import Mathlib.Data.List.Basic
import Mathlib.Logic.Relation

/-!
# Round-based search that stops at the first round without a new node

The search keeps the list of nodes seen and a frontier of nodes to expand. The
first nodes are entered without a check for repetitions, and a frontier may
hold nodes that were expanded before. A round expands the whole frontier. The
search ends after the first round that sees nothing new; every node seen has
been expanded by then, so nothing reachable is missed.

`keep` selects the nodes that are recorded and `expand` those that the search
goes through.
-/
namespace CertLedger.FrontierSearch

variable {α : Type}

structure Search (α : Type) where
  seen : List α
  frontier : List α

/-- The nodes the search begins with. -/
def first (keep expand : α → Bool) (roots : List α) : Search α :=
  ⟨roots.filter keep, roots.filter expand⟩

/-- Meets one node. -/
def visit [DecidableEq α] (keep expand : α → Bool) (s : Search α) (a : α) : Search α :=
  ⟨if keep a ∧ a ∉ s.seen then s.seen ++ [a] else s.seen,
    if expand a then s.frontier ++ [a] else s.frontier⟩

/-- Expands the whole frontier. -/
def round [DecidableEq α] (next : α → List α) (keep expand : α → Bool) (s : Search α) : Search α :=
  (s.frontier.flatMap next).foldl (visit keep expand) ⟨s.seen, []⟩

/-- Rounds as long as the last one has seen something new; `prev` counts the
nodes seen before it. -/
def loop [DecidableEq α] (next : α → List α) (keep expand : α → Bool) :
    ℕ → ℕ → Search α → Option (List α)
  | 0, prev, s => if s.seen.length ≤ prev then some s.seen else none
  | fuel + 1, prev, s =>
      if s.seen.length ≤ prev then some s.seen
      else loop next keep expand fuel s.seen.length (round next keep expand s)

/-- Reached from a root through expanded nodes. -/
def Reached (next : α → List α) (expand : α → Bool) (roots : List α) (a : α) : Prop :=
  ∃ r ∈ roots, Relation.ReflTransGen (fun u v => expand u = true ∧ v ∈ next u) r a

section
variable {next : α → List α} {keep expand : α → Bool}

theorem Reached.step {roots : List α} {u v : α} (h : Reached next expand roots u)
    (hu : expand u = true) (hv : v ∈ next u) : Reached next expand roots v := by
  obtain ⟨r, hr, hru⟩ := h
  exact ⟨r, hr, hru.tail ⟨hu, hv⟩⟩

/-! ## What the search returns -/

/-- Everything seen before the last round is expanded already, everything seen
in it waits in the frontier. -/
structure Progress (next : α → List α) (keep expand : α → Bool) (roots : List α)
    (prev : ℕ) (s : Search α) : Prop where
  roots_seen : ∀ r ∈ roots, keep r = true → r ∈ s.seen
  seen_reached : ∀ a ∈ s.seen, keep a = true ∧ Reached next expand roots a
  frontier_reached : ∀ a ∈ s.frontier, expand a = true ∧ Reached next expand roots a
  old_closed : ∀ a ∈ s.seen.take prev, expand a = true →
    ∀ b ∈ next a, keep b = true → b ∈ s.seen
  new_waiting : ∀ a ∈ s.seen.drop prev, expand a = true → a ∈ s.frontier

theorem progress_first (roots : List α) :
    Progress next keep expand roots 0 (first keep expand roots) where
  roots_seen r hr ha := List.mem_filter.mpr ⟨hr, ha⟩
  seen_reached a ha := ⟨(List.mem_filter.mp ha).2, a, (List.mem_filter.mp ha).1, .refl⟩
  frontier_reached a ha := ⟨(List.mem_filter.mp ha).2, a, (List.mem_filter.mp ha).1, .refl⟩
  old_closed a ha := by simp at ha
  new_waiting a ha he := List.mem_filter.mpr ⟨(List.mem_filter.mp ha).1, he⟩

/-- At the stop nothing waits any more, so the nodes seen are closed. -/
theorem Progress.complete {roots : List α} {prev : ℕ} {s : Search α}
    (h : Progress next keep expand roots prev s) (stop : s.seen.length ≤ prev)
    (hexp : ∀ a, expand a = true → keep a = true) (a : α) :
    a ∈ s.seen ↔ keep a = true ∧ Reached next expand roots a := by
  refine ⟨h.seen_reached a, ?_⟩
  rintro ⟨hadm, r, hr, hra⟩
  induction hra with
  | refl => exact h.roots_seen r hr hadm
  | tail _ hbc ih =>
      have hb := ih (hexp _ hbc.1)
      rw [← List.take_of_length_le stop] at hb
      exact h.old_closed _ hb hbc.1 _ hbc.2 hadm

variable [DecidableEq α]

/-! ## One round -/

theorem mem_visit_seen (s : Search α) (a b : α) :
    b ∈ (visit keep expand s a).seen ↔ b ∈ s.seen ∨ (b = a ∧ keep a = true) := by
  unfold visit
  by_cases h : keep a = true <;> by_cases hm : a ∈ s.seen <;> simp [h, hm]
  intro hb
  exact hb ▸ hm

theorem mem_visit_frontier (s : Search α) (a b : α) :
    b ∈ (visit keep expand s a).frontier ↔ b ∈ s.frontier ∨ (b = a ∧ expand a = true) := by
  unfold visit
  by_cases h : expand a = true <;> simp [h]

theorem mem_visits (l : List α) (s : Search α) (b : α) :
    (b ∈ (l.foldl (visit keep expand) s).seen ↔ b ∈ s.seen ∨ (b ∈ l ∧ keep b = true)) ∧
      (b ∈ (l.foldl (visit keep expand) s).frontier ↔
        b ∈ s.frontier ∨ (b ∈ l ∧ expand b = true)) := by
  induction l generalizing s with
  | nil => simp
  | cons a l ih =>
      simp only [List.foldl_cons, (ih _).1, (ih _).2, mem_visit_seen, mem_visit_frontier,
        List.mem_cons]
      constructor <;> grind

theorem mem_round_seen (s : Search α) (b : α) :
    b ∈ (round next keep expand s).seen ↔
      b ∈ s.seen ∨ ((∃ f ∈ s.frontier, b ∈ next f) ∧ keep b = true) := by
  rw [round, (mem_visits _ _ b).1, List.mem_flatMap]

theorem mem_round_frontier (s : Search α) (b : α) :
    b ∈ (round next keep expand s).frontier ↔
      (∃ f ∈ s.frontier, b ∈ next f) ∧ expand b = true := by
  rw [round, (mem_visits _ _ b).2, List.mem_flatMap]
  simp

theorem visits_seen (l : List α) (s : Search α) :
    ∃ t, (l.foldl (visit keep expand) s).seen = s.seen ++ t ∧ ∀ a ∈ t, a ∉ s.seen := by
  induction l generalizing s with
  | nil => exact ⟨[], by simp, by simp⟩
  | cons a l ih =>
      obtain ⟨t, ht, hnew⟩ := ih (visit keep expand s a)
      rw [List.foldl_cons, ht]
      by_cases h : keep a ∧ a ∉ s.seen
      · refine ⟨a :: t, by simp [visit, h], ?_⟩
        intro b hb
        rcases List.mem_cons.mp hb with rfl | hb
        · exact h.2
        · exact fun hs => hnew b hb ((mem_visit_seen s a b).mpr (.inl hs))
      · exact ⟨t, by simp [visit, h], fun b hb hs =>
          hnew b hb ((mem_visit_seen s a b).mpr (.inl hs))⟩

/-- A round only appends, and appends only nodes not seen before. -/
theorem round_seen (next : α → List α) (keep expand : α → Bool) (s : Search α) :
    ∃ t, (round next keep expand s).seen = s.seen ++ t ∧ ∀ a ∈ t, a ∉ s.seen :=
  visits_seen _ _

theorem Progress.round {roots : List α} {prev : ℕ} {s : Search α}
    (h : Progress next keep expand roots prev s) :
    Progress next keep expand roots s.seen.length (round next keep expand s) where
  roots_seen r hr ha := (mem_round_seen s r).mpr (.inl (h.roots_seen r hr ha))
  seen_reached a ha := by
    rcases (mem_round_seen s a).mp ha with ha | ⟨⟨f, hf, hfa⟩, hadm⟩
    · exact h.seen_reached a ha
    · exact ⟨hadm, (h.frontier_reached f hf).2.step (h.frontier_reached f hf).1 hfa⟩
  frontier_reached a ha := by
    obtain ⟨⟨f, hf, hfa⟩, he⟩ := (mem_round_frontier s a).mp ha
    exact ⟨he, (h.frontier_reached f hf).2.step (h.frontier_reached f hf).1 hfa⟩
  old_closed a ha he b hb hadm := by
    obtain ⟨t, ht, -⟩ := round_seen next keep expand s
    rw [ht, List.take_left, ← List.take_append_drop prev s.seen] at ha
    rw [mem_round_seen]
    rcases List.mem_append.mp ha with ha | ha
    · exact .inl (h.old_closed a ha he b hb hadm)
    · exact .inr ⟨⟨a, h.new_waiting a ha he, hb⟩, hadm⟩
  new_waiting a ha he := by
    obtain ⟨t, ht, hnew⟩ := round_seen next keep expand s
    rw [ht, List.drop_left] at ha
    have hseen : a ∈ (FrontierSearch.round next keep expand s).seen := by
      rw [ht]
      exact List.mem_append_right _ ha
    rcases (mem_round_seen s a).mp hseen with hs | ⟨hf, -⟩
    · exact (hnew a ha hs).elim
    · exact (mem_round_frontier s a).mpr ⟨hf, he⟩

theorem mem_loop (hexp : ∀ a, expand a = true → keep a = true) {roots : List α} (fuel : ℕ)
    {prev : ℕ} {s : Search α} (h : Progress next keep expand roots prev s) {l : List α}
    (hl : loop next keep expand fuel prev s = some l) (a : α) :
    a ∈ l ↔ keep a = true ∧ Reached next expand roots a := by
  induction fuel generalizing prev s with
  | zero =>
      rw [loop] at hl
      split_ifs at hl with hstop
      obtain rfl := Option.some.inj hl
      exact h.complete hstop hexp a
  | succ fuel ih =>
      rw [loop] at hl
      split_ifs at hl with hstop
      · obtain rfl := Option.some.inj hl
        exact h.complete hstop hexp a
      · exact ih h.round hl

/-! ## Termination -/

/-- Every round but the last sees a node of the universe for the first time. -/
theorem loop_isSome (nodes : Finset α) {roots : List α}
    (hroots : ∀ r ∈ roots, r ∈ nodes)
    (hnext : ∀ a ∈ nodes, expand a = true → ∀ b ∈ next a, b ∈ nodes) (fuel : ℕ)
    {prev : ℕ} {s : Search α} (h : Progress next keep expand roots prev s)
    (hfuel : nodes.card < fuel + s.seen.toFinset.card) :
    (loop next keep expand fuel prev s).isSome := by
  have inside : ∀ a, Reached next expand roots a → a ∈ nodes := by
    rintro a ⟨r, hr, hra⟩
    induction hra with
    | refl => exact hroots r hr
    | tail _ hbc ih => exact hnext _ ih hbc.1 _ hbc.2
  induction fuel generalizing prev s with
  | zero =>
      have hsub : s.seen.toFinset ⊆ nodes := fun a ha =>
        inside a (h.seen_reached a (List.mem_toFinset.mp ha)).2
      have := Finset.card_le_card hsub
      omega
  | succ fuel ih =>
      rw [loop]
      split_ifs with hstop
      · rfl
      · obtain ⟨t, ht, hnew⟩ := round_seen next keep expand s
        obtain _ | ⟨a, t⟩ := t
        · -- nothing new: the next test ends the loop whatever the fuel
          rw [List.append_nil] at ht
          cases fuel <;> simp [loop, ht]
        · refine ih h.round ?_
          have hlt : s.seen.toFinset ⊂ (round next keep expand s).seen.toFinset := by
            rw [Finset.ssubset_iff]
            refine ⟨a, by simpa using hnew a (by simp), ?_⟩
            intro b hb
            rw [ht]
            rcases Finset.mem_insert.mp hb with rfl | hb
            · simp
            · simp [List.mem_toFinset.mp hb]
          have := Finset.card_lt_card hlt
          omega

end

end CertLedger.FrontierSearch
