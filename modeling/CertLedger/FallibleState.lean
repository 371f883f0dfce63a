import Mathlib.Logic.Basic
import Mathlib.Data.List.Basic

/-!
# Programs that change a state and may fail

A failing program keeps the changes it has made, as a thrown exception does.
Two kinds of rule are given. `Respects` bounds what a program can do to the
state whether or not it fails; it is closed under sequencing and loops. The
rules for `exec` describe a run that succeeds, step by step.
-/
namespace CertLedger.FallibleState

abbrev Program (ε σ : Type) := ExceptT ε (StateM σ)

variable {ε σ τ α β : Type}

/-- One run: the value or the error, and the state that is left in either case. -/
def exec (x : Program ε σ α) (s : σ) : Except ε α × σ := (ExceptT.run x).run s

/-- A computation that does not touch the state. -/
def lift (r : Except ε α) : Program ε σ α := ExceptT.mk fun s => (r, s)

@[simp] theorem exec_lift (r : Except ε α) (s : σ) : exec (lift r) s = (r, s) := rfl

@[simp] theorem exec_pure (a : α) (s : σ) : exec (pure a : Program ε σ α) s = (.ok a, s) := rfl

@[simp] theorem exec_throw (e : ε) (s : σ) :
    exec (throw e : Program ε σ α) s = (.error e, s) := rfl

@[simp] theorem exec_get (s : σ) : exec (get : Program ε σ σ) s = (.ok s, s) := rfl

@[simp] theorem exec_set (t s : σ) : exec (set t : Program ε σ PUnit) s = (.ok ⟨⟩, t) := rfl

@[simp] theorem exec_modify (f : σ → σ) (s : σ) :
    exec (modify f : Program ε σ PUnit) s = (.ok ⟨⟩, f s) := rfl

theorem exec_bind (x : Program ε σ α) (f : α → Program ε σ β) (s : σ) :
    exec (x >>= f) s = match exec x s with
      | (.ok a, t) => exec (f a) t
      | (.error e, t) => (.error e, t) := by
  change (match (ExceptT.run x).run s with
    | (r, t) => (ExceptT.bindCont (fun a => f a) r).run t) = _
  rw [exec]
  rcases (ExceptT.run x).run s with ⟨_ | a, t⟩ <;> rfl

theorem exec_tryCatch (x : Program ε σ α) (f : ε → Program ε σ α) (s : σ) :
    exec (tryCatch x f) s = match exec x s with
      | (.ok a, t) => (.ok a, t)
      | (.error e, t) => exec (f e) t := by
  change (match (ExceptT.run x).run s with
    | (r, t) => (match r with
      | .ok a => (pure (.ok a) : StateM σ (Except ε α))
      | .error e => ExceptT.run (f e)).run t) = _
  rw [exec]
  rcases (ExceptT.run x).run s with ⟨_ | a, t⟩ <;> rfl

theorem exec_bind_ok {x : Program ε σ α} {f : α → Program ε σ β} {s t : σ} {a : α}
    (h : exec x s = (.ok a, t)) : exec (x >>= f) s = exec (f a) t := by
  rw [exec_bind, h]

theorem exec_bind_error {x : Program ε σ α} {f : α → Program ε σ β} {s t : σ} {e : ε}
    (h : exec x s = (.error e, t)) : exec (x >>= f) s = (.error e, t) := by
  rw [exec_bind, h]

theorem bind_eq_ok {x : Except ε α} {f : α → Except ε β} {b : β} (h : x >>= f = .ok b) :
    ∃ a, x = .ok a ∧ f a = .ok b := by
  cases x with
  | error e => cases h
  | ok a => exact ⟨a, rfl, h⟩

/-- What every turn of a loop keeps, where the loop succeeds. -/
theorem foldlM_eq_ok {I : β → Prop} {f : β → α → Except ε β} {l : List α} {b c : β}
    (h : l.foldlM f b = .ok c) (hstep : ∀ b, ∀ a ∈ l, ∀ c, f b a = .ok c → I b → I c) (hb : I b) :
    I c := by
  induction l generalizing b with
  | nil =>
      cases h
      exact hb
  | cons a l ih =>
      rw [List.foldlM_cons] at h
      obtain ⟨d, hfirst, hrest⟩ := bind_eq_ok h
      apply ih hrest
      · exact fun b a' ha' => hstep b a' (List.mem_cons_of_mem a ha')
      · exact hstep b a List.mem_cons_self d hfirst hb

/-- A sequence that succeeds has succeeded in its first part. -/
theorem exec_bind_eq_ok {x : Program ε σ α} {f : α → Program ε σ β} {s u : σ} {b : β}
    (h : exec (x >>= f) s = (.ok b, u)) :
    ∃ a t, exec x s = (.ok a, t) ∧ exec (f a) t = (.ok b, u) := by
  rw [exec_bind] at h
  rcases hx : exec x s with ⟨_ | a, t⟩
  · simp [hx] at h
  · rw [hx] at h
    exact ⟨a, t, rfl, h⟩

theorem exec_tryCatch_ok {x : Program ε σ α} {f : ε → Program ε σ α} {s t : σ} {a : α}
    (h : exec x s = (.ok a, t)) : exec (tryCatch x f) s = (.ok a, t) := by
  rw [exec_tryCatch, h]

theorem exec_tryCatch_error {x : Program ε σ α} {f : ε → Program ε σ α} {s t : σ} {e : ε}
    (h : exec x s = (.error e, t)) : exec (tryCatch x f) s = exec (f e) t := by
  rw [exec_tryCatch, h]

/-- An error that is caught and forgotten. -/
theorem exec_tryCatch_pure (x : Program ε σ Unit) (s : σ) :
    exec (tryCatch x fun _ => pure ()) s = (.ok (), (exec x s).2) := by
  rw [exec_tryCatch]
  rcases exec x s with ⟨_ | _, t⟩ <;> rfl

/-- A run without a value is known by its success and its last state. -/
theorem exec_eq_of_isOk {x : Program ε σ Unit} {s : σ} (h : (exec x s).1.isOk = true) :
    exec x s = (.ok (), (exec x s).2) := by
  rcases hx : exec x s with ⟨_ | _, t⟩
  · simp [hx, Except.isOk, Except.toBool] at h
  · rfl

theorem exec_eq_of_toOption {x : Program ε σ α} {s : σ} {a : α}
    (h : (exec x s).1.toOption = some a) : exec x s = (.ok a, (exec x s).2) := by
  rcases hx : exec x s with ⟨_ | b, t⟩
  · simp [hx, Except.toOption] at h
  · rw [hx] at h
    exact congrArg (fun c => (Except.ok c, t)) (Option.some.inj h)

/-! ## Running on a part of the state -/

/-- Runs a program on the component of the state that `view` reads and `put` writes. -/
def zoom (view : σ → τ) (put : τ → σ → σ) (x : Program ε τ α) : Program ε σ α :=
  ExceptT.mk fun s => let r := exec x (view s); (r.1, put r.2 s)

/-! ## What a program can do to the state -/

/-- Every run, failed or not, ends in a state that `R` relates to the first one. -/
def Respects (R : σ → σ → Prop) (x : Program ε σ α) : Prop := ∀ s, R s (exec x s).2

namespace Respects

variable {R : σ → σ → Prop}

theorem mono {T : σ → σ → Prop} {x : Program ε σ α} (hx : Respects R x)
    (h : ∀ s t, R s t → T s t) : Respects T x := fun s => h s _ (hx s)

theorem pure (refl : ∀ s, R s s) (a : α) : Respects R (pure a : Program ε σ α) :=
  fun s => refl s

theorem throw (refl : ∀ s, R s s) (e : ε) : Respects R (throw e : Program ε σ α) :=
  fun s => refl s

theorem get (refl : ∀ s, R s s) : Respects R (get : Program ε σ σ) := fun s => refl s

/-- A sequence from one state, where the second part may rely on the run of the first. -/
theorem bind_at (trans : ∀ s t u, R s t → R t u → R s u) {x : Program ε σ α}
    {f : α → Program ε σ β} {s : σ} (hx : R s (exec x s).2)
    (hf : ∀ a t, exec x s = (.ok a, t) → R t (exec (f a) t).2) : R s (exec (x >>= f) s).2 := by
  rw [exec_bind]
  rcases he : exec x s with ⟨e | a, t⟩ <;> rw [he] at hx
  · exact hx
  · exact trans s t _ hx (hf a t he)

theorem bind (trans : ∀ s t u, R s t → R t u → R s u) {x : Program ε σ α}
    {f : α → Program ε σ β} (hx : Respects R x) (hf : ∀ a, Respects R (f a)) :
    Respects R (x >>= f) := fun s => bind_at trans (hx s) fun a t _ => hf a t

theorem tryCatch (trans : ∀ s t u, R s t → R t u → R s u) {x : Program ε σ α}
    {f : ε → Program ε σ α} (hx : Respects R x) (hf : ∀ e, Respects R (f e)) :
    Respects R (tryCatch x f) := by
  intro s
  have h := hx s
  rw [exec_tryCatch]
  rcases he : exec x s with ⟨e | a, t⟩ <;> rw [he] at h
  · exact trans s t _ h (hf e t)
  · exact h

theorem foldlM (refl : ∀ s, R s s) (trans : ∀ s t u, R s t → R t u → R s u)
    {f : β → α → Program ε σ β} {l : List α} (hf : ∀ b, ∀ a ∈ l, Respects R (f b a)) (b : β) :
    Respects R (l.foldlM f b) := by
  induction l generalizing b with
  | nil => exact fun s => refl s
  | cons a l ih =>
      rw [List.foldlM_cons]
      exact bind trans (hf b a (by simp)) fun c => ih (fun b d hd => hf b d (by simp [hd])) c

theorem mapM (refl : ∀ s, R s s) (trans : ∀ s t u, R s t → R t u → R s u)
    {f : α → Program ε σ β} {l : List α} (hf : ∀ a ∈ l, Respects R (f a)) : Respects R (l.mapM f) := by
  induction l with
  | nil => exact fun s => refl s
  | cons a l ih =>
      rw [List.mapM_cons]
      refine bind trans (hf a List.mem_cons_self) fun b => bind trans (ih fun c hc => ?_) fun bs =>
        pure refl _
      exact hf c (List.mem_cons_of_mem a hc)

theorem zoom {T : τ → τ → Prop} {view : σ → τ} {put : τ → σ → σ} {x : Program ε τ α}
    (hx : Respects T x) (lift : ∀ s t, T (view s) t → R s (put t s)) :
    Respects R (zoom view put x) := fun s => lift s _ (hx (view s))

end Respects

/-! ## What a program keeps and what it returns -/

/-- From a state with `I` every run, failed or not, ends in one, and what it returns has `Q`. -/
def Ensures (I : σ → Prop) (Q : α → Prop) (x : Program ε σ α) : Prop :=
  ∀ s, I s → I (exec x s).2 ∧ ∀ a, (exec x s).1 = .ok a → Q a

namespace Ensures
variable {I : σ → Prop} {Q : α → Prop} {T : β → Prop}

theorem pure {a : α} (h : Q a) : Ensures I Q (pure a : Program ε σ α) := by
  intro s hs
  refine ⟨hs, fun b hb => ?_⟩
  cases hb
  exact h

theorem throw (e : ε) : Ensures I Q (throw e : Program ε σ α) :=
  fun s hs => ⟨hs, fun a ha => by cases ha⟩

theorem bind {x : Program ε σ α} {f : α → Program ε σ β} (hx : Ensures I Q x)
    (hf : ∀ a, Q a → Ensures I T (f a)) : Ensures I T (x >>= f) := by
  intro s hs
  obtain ⟨ht, hq⟩ := hx s hs
  rw [exec_bind]
  rcases hrun : exec x s with ⟨e | a, t⟩ <;> rw [hrun] at ht hq
  · exact ⟨ht, fun b hb => by cases hb⟩
  · exact hf a (hq a rfl) t ht

theorem foldlM {f : β → α → Program ε σ β} {l : List α}
    (hf : ∀ b, T b → ∀ a ∈ l, Ensures I T (f b a)) {b : β} (hb : T b) :
    Ensures I T (l.foldlM f b) := by
  induction l generalizing b with
  | nil => exact pure hb
  | cons a l ih =>
      rw [List.foldlM_cons]
      exact bind (hf b hb a (by simp)) fun c hc =>
        ih (fun b hb d hd => hf b hb d (by simp [hd])) hc

end Ensures

/-! ## Two runs of one program -/

/-- A run from `t` that succeeds is matched by the run from any state that `C` relates to
`t`, or it comes to a state with `X`. -/
def Mirrors (C : σ → σ → Prop) (X : σ → Prop) (x : Program ε σ α) : Prop :=
  ∀ s t a t', C s t → exec x t = (.ok a, t') → X t' ∨ ∃ s', exec x s = (.ok a, s') ∧ C s' t'

/-- No run leaves the states with `X`. -/
def Stays (X : σ → Prop) (x : Program ε σ α) : Prop := ∀ s, X s → X (exec x s).2

theorem Stays.pure {X : σ → Prop} (a : α) : Stays X (pure a : Program ε σ α) := fun _ h => h

theorem Stays.bind {X : σ → Prop} {x : Program ε σ α} {f : α → Program ε σ β} (hx : Stays X x)
    (hf : ∀ a, Stays X (f a)) : Stays X (x >>= f) := by
  intro s hs
  have hx := hx s hs
  rw [exec_bind]
  rcases hrun : exec x s with ⟨e | a, t⟩ <;> rw [hrun] at hx
  · exact hx
  · exact hf a t hx

theorem Stays.foldlM {X : σ → Prop} {f : β → α → Program ε σ β} (hf : ∀ b a, Stays X (f b a))
    (l : List α) (b : β) : Stays X (l.foldlM f b) := by
  induction l generalizing b with
  | nil => exact Stays.pure b
  | cons a l ih =>
      rw [List.foldlM_cons]
      exact Stays.bind (hf b a) ih

namespace Mirrors
variable {C : σ → σ → Prop} {X : σ → Prop}

theorem pure (a : α) : Mirrors C X (pure a : Program ε σ α) := by
  intro s t b t' h hrun
  obtain ⟨hb, rfl⟩ := Prod.mk.inj hrun
  exact .inr ⟨s, by rw [exec_pure, hb], h⟩

theorem throw (e : ε) : Mirrors C X (throw e : Program ε σ α) := by
  intro s t b t' _ hrun
  cases congrArg Prod.fst hrun

theorem bind {x : Program ε σ α} {f : α → Program ε σ β} (hx : Mirrors C X x)
    (hf : ∀ a, Mirrors C X (f a)) (stays : ∀ a, Stays X (f a)) : Mirrors C X (x >>= f) := by
  intro s t b u h hrun
  obtain ⟨a, t', hfirst, hrest⟩ := exec_bind_eq_ok hrun
  rcases hx s t a t' h hfirst with hX | ⟨s', hs', h'⟩
  · have := stays a t' hX
    rw [hrest] at this
    exact .inl this
  · rw [exec_bind_ok hs']
    exact hf a s' t' b u h' hrest

theorem foldlM {f : β → α → Program ε σ β} {l : List α} (hf : ∀ b, ∀ a ∈ l, Mirrors C X (f b a))
    (stays : ∀ b a, Stays X (f b a)) (b : β) : Mirrors C X (l.foldlM f b) := by
  induction l generalizing b with
  | nil => exact pure b
  | cons a l ih =>
      rw [List.foldlM_cons]
      exact bind (hf b a (by simp)) (fun c => ih (fun b d hd => hf b d (by simp [hd])) c)
        fun c => Stays.foldlM stays l c

end Mirrors

/-! ## Loops that succeed -/

/-- A loop whose body succeeds while `I`, indexed by the items done, holds. -/
theorem exec_foldlM {f : β → α → Program ε σ β} (I : List α → β → σ → Prop) (l : List α)
    (step : ∀ done a rest b s, l = done ++ a :: rest → I done b s →
      ∃ c t, exec (f b a) s = (.ok c, t) ∧ I (done ++ [a]) c t)
    {b : β} {s : σ} (init : I [] b s) :
    ∃ c t, exec (l.foldlM f b) s = (.ok c, t) ∧ I l c t := by
  suffices H : ∀ rest done b s, l = done ++ rest → I done b s →
      ∃ c t, exec (rest.foldlM f b) s = (.ok c, t) ∧ I l c t from H l [] b s rfl init
  intro rest
  induction rest with
  | nil =>
      intro done b s hl hI
      have hd : l = done := by simpa using hl
      subst hd
      exact ⟨b, s, rfl, hI⟩
  | cons a rest ih =>
      intro done b s hl hI
      obtain ⟨c, t, hrun, hc⟩ := step done a rest b s hl hI
      rw [List.foldlM_cons, exec_bind_ok hrun]
      exact ih (done ++ [a]) c t (by simpa using hl) hc

/-- A loop over programs that leave a state alone. -/
theorem exec_mapM_same {f : α → Program ε σ β} {l : List α} {s t : σ} {out : List β}
    (hf : ∀ a ∈ l, (exec (f a) s).2 = s) (hrun : exec (l.mapM f) s = (.ok out, t)) :
    t = s ∧ ∀ b ∈ out, ∃ a ∈ l, exec (f a) s = (.ok b, s) := by
  induction l generalizing out t with
  | nil =>
      obtain ⟨hout, ht⟩ := Prod.mk.inj hrun
      obtain rfl := Except.ok.inj hout
      exact ⟨ht.symm, fun b hb => absurd hb List.not_mem_nil⟩
  | cons a l ih =>
      rw [List.mapM_cons] at hrun
      obtain ⟨b, u, hone, hrest⟩ := exec_bind_eq_ok hrun
      obtain rfl : u = s := (congrArg Prod.snd hone).symm.trans (hf a List.mem_cons_self)
      obtain ⟨bs, v, hmore, hpure⟩ := exec_bind_eq_ok hrest
      obtain ⟨rfl, hall⟩ := ih (fun c hc => hf c (List.mem_cons_of_mem a hc)) hmore
      obtain ⟨hout, ht⟩ := Prod.mk.inj hpure
      obtain rfl := Except.ok.inj hout
      refine ⟨ht.symm, fun c hc => ?_⟩
      rcases List.mem_cons.mp hc with rfl | hc
      · exact ⟨a, List.mem_cons_self, hone⟩
      · obtain ⟨d, hd, hrun⟩ := hall c hc
        exact ⟨d, List.mem_cons_of_mem a hd, hrun⟩

end CertLedger.FallibleState
