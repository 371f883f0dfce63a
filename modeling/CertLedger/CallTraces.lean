import CertLedger.FallibleState

/-!
# The calls in a run of a program

A program makes calls of a given kind, and everything else it does is silent. A
trace lists the calls of one run in order, each with the state it was made in. As
no handler guards a call, a run that succeeds has succeeded in all of them.
-/
namespace CertLedger.CallTraces
open FallibleState

variable {ε σ κ α β : Type}

section
variable (call : κ → Program ε σ Unit) (R : σ → σ → Prop)

inductive Traces : {α : Type} → Program ε σ α → σ → List (κ × σ) → Except ε α → σ → Prop
  | silent {α : Type} {x : Program ε σ α} (s : σ) (hx : Respects R x) :
      Traces x s [] (exec x s).1 (exec x s).2
  | call (k : κ) (s : σ) : Traces (call k) s [(k, s)] (exec (call k) s).1 (exec (call k) s).2
  | bind {α β : Type} {x : Program ε σ α} {f : α → Program ε σ β} {s t u : σ}
      {log rest : List (κ × σ)} {a : α} {r : Except ε β} (hx : Traces x s log (.ok a) t)
      (hf : Traces (f a) t rest r u) : Traces (x >>= f) s (log ++ rest) r u
  | stop {α β : Type} {x : Program ε σ α} {f : α → Program ε σ β} {s t : σ}
      {log : List (κ × σ)} {e : ε} (hx : Traces x s log (.error e) t) :
      Traces (x >>= f) s log (.error e) t
  | guarded {α : Type} {x : Program ε σ α} {f : ε → Program ε σ α} {s t : σ} {a : α}
      (hx : Respects R x) (hrun : exec x s = (.ok a, t)) : Traces (tryCatch x f) s [] (.ok a) t
  | caught {α : Type} {x : Program ε σ α} {f : ε → Program ε σ α} {s t u : σ} {e : ε}
      {log : List (κ × σ)} {r : Except ε α} (hx : Respects R x)
      (hrun : exec x s = (.error e, t)) (hf : Traces (f e) t log r u) :
      Traces (tryCatch x f) s log r u

/-- Every run of the program has a trace. -/
def Traced (x : Program ε σ α) : Prop := ∀ s, ∃ log r t, Traces call R x s log r t

end

variable {call : κ → Program ε σ Unit} {R : σ → σ → Prop}

theorem Traces.exec_eq {x : Program ε σ α} {s t : σ} {log : List (κ × σ)} {r : Except ε α}
    (h : Traces call R x s log r t) : exec x s = (r, t) := by
  induction h with
  | silent => rfl
  | call => rfl
  | bind _ _ hx hf => exact (exec_bind_ok hx).trans hf
  | stop _ hx => exact exec_bind_error hx
  | guarded _ hrun => exact exec_tryCatch_ok hrun
  | caught _ hrun _ hf => exact (exec_tryCatch_error hrun).trans hf

/-- Where a call can only succeed if `good` holds, it holds at all calls of a run that succeeds. -/
theorem Traces.good_of_ok {good : κ → σ → Prop}
    (hgood : ∀ k s t, exec (call k) s = (.ok (), t) → good k s) {x : Program ε σ α} {s t : σ}
    {log : List (κ × σ)} {r : Except ε α} (h : Traces call R x s log r t) (hok : r.isOk = true) :
    ∀ c ∈ log, good c.1 c.2 := by
  induction h with
  | silent => simp
  | call k s => simpa using hgood k s _ (exec_eq_of_isOk hok)
  | bind _ _ hx hf =>
      intro c hc
      rcases List.mem_append.mp hc with hc | hc
      · exact hx rfl c hc
      · exact hf hok c hc
  | stop => cases hok
  | guarded => simp
  | caught _ _ _ hf => exact hf hok

namespace Traced

theorem silent {x : Program ε σ α} (h : Respects R x) : Traced call R x :=
  fun s => ⟨_, _, _, .silent s h⟩

theorem of_call (k : κ) : Traced call R (call k) := fun s => ⟨_, _, _, .call k s⟩

theorem bind {x : Program ε σ α} {f : α → Program ε σ β} (hx : Traced call R x)
    (hf : ∀ a, Traced call R (f a)) : Traced call R (x >>= f) := by
  intro s
  obtain ⟨log, r, t, h⟩ := hx s
  cases r with
  | error e => exact ⟨log, _, t, .stop h⟩
  | ok a =>
      obtain ⟨rest, r, u, h'⟩ := hf a t
      exact ⟨_, r, u, .bind h h'⟩

theorem foldlM {f : β → α → Program ε σ β} (refl : ∀ s, R s s)
    (hf : ∀ b a, Traced call R (f b a)) (l : List α) (b : β) : Traced call R (l.foldlM f b) := by
  induction l generalizing b with
  | nil => exact silent (Respects.pure refl b)
  | cons a l ih =>
      rw [List.foldlM_cons]
      exact bind (hf b a) fun c => ih c

theorem tryCatch {x : Program ε σ α} {f : ε → Program ε σ α} (hx : Respects R x)
    (hf : ∀ e, Traced call R (f e)) : Traced call R (tryCatch x f) := by
  intro s
  rcases hrun : exec x s with ⟨e | a, t⟩
  · obtain ⟨log, r, u, h⟩ := hf e t
    exact ⟨log, r, u, .caught hx hrun h⟩
  · exact ⟨[], _, t, .guarded hx hrun⟩

end Traced

end CertLedger.CallTraces
