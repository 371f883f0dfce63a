import Mathlib.Data.List.Basic
import Mathlib.Data.List.Infix

/-!
# Runs over a list of events

A machine that takes events one by one. Conditions on the steps of a run,
invariants under such conditions, and what holds at every point of a run.
-/
namespace CertLedger.EventRuns

variable {σ ε : Type}

/-- Every step of a run, as the state before it and its event, has `P`. -/
def Throughout (step : σ → ε → σ) (P : σ → ε → Prop) : σ → List ε → Prop
  | _, [] => True
  | s, e :: events => P s e ∧ Throughout step P (step s e) events

variable {step : σ → ε → σ} {P Q : σ → ε → Prop} {I : σ → Prop}

instance decidableThroughout [∀ s e, Decidable (P s e)] (s : σ) :
    (events : List ε) → Decidable (Throughout step P s events)
  | [] => .isTrue trivial
  | e :: events =>
      have := decidableThroughout (step s e) events
      inferInstanceAs (Decidable (P s e ∧ Throughout step P (step s e) events))

theorem throughout_append (s : σ) (events rest : List ε) :
    Throughout step P s (events ++ rest) ↔
      Throughout step P s events ∧ Throughout step P (events.foldl step s) rest := by
  induction events generalizing s with
  | nil => simp [Throughout]
  | cons e events ih => simp only [List.cons_append, Throughout, ih, List.foldl_cons, and_assoc]

theorem throughout_concat (s : σ) (events : List ε) (e : ε) :
    Throughout step P s (events ++ [e]) ↔
      Throughout step P s events ∧ P (events.foldl step s) e := by
  simp only [throughout_append, Throughout, and_true]

theorem Throughout.upTo {s : σ} {events before : List ε} (h : Throughout step P s events)
    (hb : before <+: events) : Throughout step P s before := by
  obtain ⟨rest, rfl⟩ := hb
  exact ((throughout_append s before rest).mp h).1

theorem Throughout.mono {s : σ} {events : List ε} (hp : Throughout step P s events)
    (h : ∀ s e, P s e → Q s e) : Throughout step Q s events := by
  induction events generalizing s with
  | nil => exact trivial
  | cons e events ih => exact ⟨h _ _ hp.1, ih hp.2⟩

/-- A condition on the steps is one on the points of a run and the events after them. -/
theorem throughout_iff (s : σ) (events : List ε) :
    Throughout step P s events ↔
      ∀ before e, before ++ [e] <+: events → P (before.foldl step s) e := by
  constructor
  · intro h before e hb
    exact ((throughout_concat s before e).mp (h.upTo hb)).2
  · intro h
    induction events using List.reverseRecOn with
    | nil => exact trivial
    | append_singleton events e ih =>
        apply (throughout_concat s events e).mpr
        constructor
        · exact ih fun before e' hb => h before e' (hb.trans (List.prefix_append events [e]))
        · exact h events e List.prefix_rfl

/-- An invariant that the steps with `P` keep. -/
theorem Throughout.invariant (hstep : ∀ s e, I s → P s e → I (step s e)) {s : σ}
    {events : List ε} (h : Throughout step P s events) (hs : I s) : I (events.foldl step s) := by
  induction events generalizing s with
  | nil => exact hs
  | cons e events ih => exact ih h.2 (hstep s e hs h.1)

/-- An invariant that all steps keep. -/
theorem foldl_invariant (hstep : ∀ s e, I s → I (step s e)) (events : List ε) {s : σ} (hs : I s) :
    I (events.foldl step s) := by
  induction events generalizing s with
  | nil => exact hs
  | cons e events ih => exact ih (hstep s e hs)

/-- Where a step with `P` keeps `I` and a step without `P` loses it, `I` holds at every
point of a run if and only if every step has `P`. `J` is what all steps keep. -/
theorem everywhere_iff {J : σ → Prop} (hJ : ∀ s e, J s → J (step s e))
    (hstep : ∀ s e, J s → I s → (I (step s e) ↔ P s e)) {s : σ} (hj : J s) (hs : I s)
    (events : List ε) :
    (∀ before, before <+: events → I (before.foldl step s)) ↔ Throughout step P s events := by
  constructor
  · intro h
    apply (throughout_iff s events).mpr
    intro before e hb
    apply (hstep _ e (foldl_invariant hJ before hj) ?_).mp
    · have hafter := h _ hb
      rwa [List.foldl_concat] at hafter
    · exact h before ((List.prefix_append before [e]).trans hb)
  · intro h before hb
    have hboth := Throughout.invariant (I := fun s => J s ∧ I s)
      (fun s e hs hp => ⟨hJ s e hs.1, (hstep s e hs.1 hs.2).mpr hp⟩) (h.upTo hb) ⟨hj, hs⟩
    exact hboth.2

/-- Two machines on the same events. Related states look alike; the steps with `T` keep
the relation, and a step without `T` can be seen. Then the runs look alike at every point
if and only if every step has `T`. -/
theorem agree_iff {τ : Type} {step' : τ → ε → τ} {C L : σ → τ → Prop} {T : τ → ε → Prop}
    (hlooks : ∀ s t, C s t → L s t) (hkeep : ∀ s t e, C s t → T t e → C (step s e) (step' t e))
    (hseen : ∀ s t e, C s t → ¬T t e → ¬L (step s e) (step' t e)) {s : σ} {t : τ} (h : C s t)
    (events : List ε) :
    (∀ before, before <+: events → L (before.foldl step s) (before.foldl step' t)) ↔
      Throughout step' T t events := by
  induction events generalizing s t with
  | nil =>
      refine iff_of_true (fun before hb => ?_) trivial
      rw [List.prefix_nil.mp hb]
      exact hlooks s t h
  | cons e events ih =>
      by_cases ht : T t e
      · have hnext := ih (hkeep s t e h ht)
        constructor
        · intro hall
          exact ⟨ht, hnext.mp fun before hb =>
            hall (e :: before) ((List.prefix_cons_inj e).mpr hb)⟩
        · intro hall before hb
          cases before with
          | nil => exact hlooks s t h
          | cons e' before =>
              obtain ⟨rfl, hrest⟩ := List.cons_prefix_cons.mp hb
              exact hnext.mpr hall.2 before hrest
      · refine iff_of_false (fun hall => hseen s t e h ht ?_) fun hall => ht hall.1
        exact hall [e] (List.prefix_append [e] events)

/-! ## Events that are taken -/

/-- How many events of a run the machine takes. -/
def takenIn (step : σ → ε → σ) (takes : σ → ε → Bool) : σ → List ε → ℕ
  | _, [] => 0
  | s, e :: events => (takes s e).toNat + takenIn step takes (step s e) events

theorem takenIn_concat (takes : σ → ε → Bool) (s : σ) (events : List ε) (e : ε) :
    takenIn step takes s (events ++ [e]) =
      takenIn step takes s events + (takes (events.foldl step s) e).toNat := by
  induction events generalizing s with
  | nil => simp [takenIn]
  | cons e' events ih => simp only [List.cons_append, takenIn, ih, List.foldl_cons, Nat.add_assoc]

/-- Where an event that is taken lowers a measure and no other raises it, a run takes as many
events at most as it begins with. -/
theorem takenIn_le {takes : σ → ε → Bool} {measure : σ → ℕ} {s : σ} {events : List ε}
    (h : ∀ before e, before ++ [e] <+: events →
      measure (step (before.foldl step s) e) + (takes (before.foldl step s) e).toNat ≤
        measure (before.foldl step s)) :
    measure (events.foldl step s) + takenIn step takes s events ≤ measure s := by
  induction events using List.reverseRecOn with
  | nil => simp [takenIn]
  | append_singleton events e ih =>
      have hbefore := ih fun before e' hb => h before e' (hb.trans (List.prefix_append events [e]))
      have hlast := h events e List.prefix_rfl
      rw [takenIn_concat, List.foldl_concat]
      omega

end CertLedger.EventRuns
