import CertLedger.DagHarvest

/-!
# What the engine can do to a storage at all

Whatever the storage holds and whichever of its operations fail, the engine
touches only blocks that decode to states. As long as no operation fails on its
own, a state keeps its name and its times, and from its loading on its record.
-/
namespace CertLedger.DagEffects
open Std TlvCodec FallibleState NdnObjects RecordCodec EdgeStateCodec OrderedContainers
open DagEngine DagStates DagHarvest

/-! ## Single operations that may fail -/

section Memory
variable (m : LedgerMemory) (n : Name)

/-- The memory after an operation has asked the backend. -/
def spend (m : LedgerMemory) : LedgerMemory := { m with faults := m.faults.tail }

theorem exec_backend_any :
    exec LedgerMemory.backend m = (.ok (), spend m) ∨
      exec LedgerMemory.backend m = (.error .storage, spend m) := by
  obtain ⟨list, faults⟩ := m
  cases faults with
  | nil => exact .inl rfl
  | cons fails faults =>
      cases fails with
      | true => exact .inr rfl
      | false => exact .inl rfl

theorem exec_getBlock_any :
    ∃ r, exec (LedgerMemory.getBlock n) m = (r, spend m) ∧
      (∀ b, r = .ok b → m.list[n]? = some b) ∧
        (m.faults = [] → ∀ e, r = .error e → m.list[n]? = none) := by
  rcases exec_backend_any m with h | h
  · rw [LedgerMemory.getBlock, exec_bind_ok h, exec_bind_ok (exec_get _)]
    have hlist : (spend m).list[n]? = m.list[n]? := rfl
    rw [hlist]
    cases m.list[n]? with
    | none => exact ⟨_, rfl, by simp⟩
    | some c => exact ⟨_, rfl, by simp⟩
  · refine ⟨_, exec_bind_error h, by simp, ?_⟩
    intro hr
    rw [exec_backend hr] at h
    cases h

theorem exec_addBlock_any (block : Block) :
    (∃ e, exec (LedgerMemory.addBlock n block) m = (.error e, spend m)) ∨
      (m.list[n]? = none ∧ exec (LedgerMemory.addBlock n block) m =
        (.ok (), { spend m with list := m.list.insert n block })) := by
  rcases exec_backend_any m with h | h
  · rw [LedgerMemory.addBlock, exec_bind_ok h, exec_bind_ok (exec_get _)]
    have hlist : (spend m).list[n]? = m.list[n]? := rfl
    rw [hlist]
    cases m.list[n]? with
    | none => exact .inr ⟨rfl, rfl⟩
    | some c => exact .inl ⟨_, rfl⟩
  · exact .inl ⟨_, exec_bind_error h⟩

theorem exec_deleteBlock_any :
    (∃ e, exec (LedgerMemory.deleteBlock n) m = (.error e, spend m)) ∨
      exec (LedgerMemory.deleteBlock n) m =
        (.ok (), { spend m with list := m.list.erase n }) := by
  rcases exec_backend_any m with h | h
  · rw [LedgerMemory.deleteBlock, exec_bind_ok h, exec_bind_ok (exec_get _)]
    have hlist : (spend m).list[n]? = m.list[n]? := rfl
    rw [hlist]
    cases m.list[n]? with
    | none => exact .inl ⟨_, rfl⟩
    | some c => exact .inr rfl
  · exact .inl ⟨_, exec_bind_error h⟩

theorem spend_reliable {m : LedgerMemory} (h : m.faults = []) : (spend m).faults = [] := by
  rw [spend, h]
  rfl

theorem spend_of_reliable {m : LedgerMemory} (h : m.faults = []) : spend m = m := by
  rw [spend, h]
  exact congrArg (LedgerMemory.mk m.list) h.symm

end Memory

/-! ## The relation -/

/-- How a stored state may change. -/
structure Later (s s' : EdgeState) : Prop where
  stateName : s'.stateName = s.stateName
  created : s'.created = s.created
  interlocked : s'.interlocked = s.interlocked
  record : s.status ≠ .INITIALIZED → s'.record = s.record
  loaded : s.status ≠ .INITIALIZED → s'.status ≠ .INITIALIZED
  locked : s.status = .INTERLOCKED → s'.status = .INTERLOCKED

theorem Later.refl (s : EdgeState) : Later s s :=
  ⟨rfl, rfl, rfl, fun _ => rfl, fun h => h, fun h => h⟩

theorem Later.trans {s t u : EdgeState} (h : Later s t) (h' : Later t u) : Later s u where
  stateName := h'.stateName.trans h.stateName
  created := h'.created.trans h.created
  interlocked := h'.interlocked.trans h.interlocked
  record hs := (h'.record (h.loaded hs)).trans (h.record hs)
  loaded hs := h'.loaded (h.loaded hs)
  locked hs := h'.locked (h.locked hs)

theorem exec_getter_any (d : DagModule) (n : Name) :
    ∃ r, exec (getter n) d = (r, { d with storage := spend d.storage }) ∧
      (∀ b, r = .ok b → d.storage.list[n]? = some b) ∧
        (d.storage.faults = [] → ∀ e, r = .error e → d.storage.list[n]? = none) := by
  obtain ⟨r, h, hok, herr⟩ := exec_getBlock_any d.storage n
  exact ⟨r, by rw [getter, exec_onStorage, h], hok, herr⟩

theorem exec_adder_any (d : DagModule) (n : Name) (block : Block) :
    (∃ e, exec (adder n block) d = (.error e, { d with storage := spend d.storage })) ∨
      (d.storage.list[n]? = none ∧ exec (adder n block) d = (.ok (), { d with
        storage := { spend d.storage with list := d.storage.list.insert n block } })) := by
  rw [adder, exec_onStorage]
  rcases exec_addBlock_any d.storage n block with ⟨e, h⟩ | ⟨hfree, h⟩
  · exact .inl ⟨e, by rw [h]⟩
  · exact .inr ⟨hfree, by rw [h]⟩

theorem exec_deleter_any (d : DagModule) (n : Name) :
    (∃ e, exec (deleter n) d = (.error e, { d with storage := spend d.storage })) ∨
      exec (deleter n) d = (.ok (), { d with
        storage := { spend d.storage with list := d.storage.list.erase n } }) := by
  rw [deleter, exec_onStorage]
  rcases exec_deleteBlock_any d.storage n with ⟨e, h⟩ | h
  · exact .inl ⟨e, by rw [h]⟩
  · exact .inr (by rw [h])

/-- Deleting a block and adding another one in its place, as far as it gets. -/
theorem exec_replace_any (d : DagModule) (n : Name) (block : Block) :
    ∃ r m, exec (do deleter n; adder n block) d = (r, { d with storage := m }) ∧
      (d.storage.faults = [] → m.faults = []) ∧
      (m.list = d.storage.list ∨ m.list = d.storage.list.insert n block ∨
        (m.list = d.storage.list.erase n ∧ d.storage.faults ≠ [])) := by
  rcases exec_deleter_any d n with ⟨e, hdel⟩ | hdel
  · exact ⟨_, _, exec_bind_error hdel, spend_reliable, .inl rfl⟩
  · rw [exec_bind_ok hdel]
    by_cases hr : d.storage.faults = []
    · have hspent := spend_reliable hr
      have hfree : (d.storage.list.erase n)[n]? = none := by rw [getElem?_erase, if_pos rfl]
      have hadd := exec_addBlock_free (m := ⟨d.storage.list.erase n, (spend d.storage).faults⟩)
        hspent hfree block
      rw [adder, exec_onStorage]
      exact ⟨_, _, rfl, fun _ => by rw [hadd]; exact hspent,
        .inr (.inl (by rw [hadd]; exact erase_insert _ _ _))⟩
    · rcases exec_adder_any { d with storage := ⟨d.storage.list.erase n, (spend d.storage).faults⟩ }
        n block with ⟨e, hadd⟩ | ⟨-, hadd⟩
      · exact ⟨_, _, hadd, fun he => (hr he).elim, .inr (.inr ⟨rfl, hr⟩)⟩
      · exact ⟨_, _, hadd, fun he => (hr he).elim, .inr (.inl (erase_insert _ _ _))⟩

variable [NdnCxx] {config : DagConfig}

/-- Every block that is a state is stored under the name in it. -/
def Keyed (d : DagModule) : Prop := ∀ n s, stateAt d n = some s → s.stateName = n ∧ s.stored = s

theorem Keyed.put {d : DagModule} (h : Keyed d) (s : EdgeState) : Keyed (DagStates.put d s) := by
  intro n t ht
  rw [stateAt_put] at ht
  split_ifs at ht with hn
  · obtain rfl := Option.some.inj ht
    exact ⟨hn, stored_stored s⟩
  · exact h n t ht

structure Evolves (config : DagConfig) (d d' : DagModule) : Prop where
  keyed : Keyed d'
  foreign : ∀ n block, d.storage.list[n]? = some block → stateAt d n = none →
    d'.storage.list[n]? = some block
  ticks : d.ticks ≤ d'.ticks
  reliable : d.storage.faults = [] → d'.storage.faults = []
  later : d.storage.faults = [] → ∀ n s, stateAt d n = some s →
    ∃ s', stateAt d' n = some s' ∧ Later s s'
  born : d.storage.faults = [] → ∀ n s', stateAt d' n = some s' → stateAt d n = none →
    ∃ i, d.ticks ≤ i ∧ i < d'.ticks ∧ s'.created = isoTime (config.clock i + 1)

namespace Evolves
variable {d d' d'' : DagModule}

theorem refl (h : Keyed d) : Evolves config d d where
  keyed := h
  foreign _ _ hb _ := hb
  ticks := le_rfl
  reliable h := h
  later _ n s hs := ⟨s, hs, Later.refl s⟩
  born _ n s' hs hn := by simp [hn] at hs

theorem trans (h : Evolves config d d') (h' : Evolves config d' d'') : Evolves config d d'' where
  keyed := h'.keyed
  foreign n block hb hn := by
    have hb' := h.foreign n block hb hn
    have hn' : stateAt d' n = none := (stateAt_congr (hb'.trans hb.symm)).trans hn
    exact h'.foreign n block hb' hn'
  ticks := h.ticks.trans h'.ticks
  reliable hr := h'.reliable (h.reliable hr)
  later hr n s hs := by
    obtain ⟨s', hs', hl⟩ := h.later hr n s hs
    obtain ⟨s'', hs'', hl'⟩ := h'.later (h.reliable hr) n s' hs'
    exact ⟨s'', hs'', hl.trans hl'⟩
  born hr n s'' hs'' hn := by
    cases hs' : stateAt d' n with
    | none =>
        obtain ⟨i, hi, hlt, hc⟩ := h'.born (h.reliable hr) n s'' hs'' hs'
        exact ⟨i, h.ticks.trans hi, hlt, hc⟩
    | some s' =>
        obtain ⟨i, hi, hlt, hc⟩ := h.born hr n s' hs' hn
        obtain ⟨t, ht, hl⟩ := h'.later (h.reliable hr) n s' hs'
        obtain rfl : t = s'' := Option.some.inj (ht.symm.trans hs'')
        exact ⟨i, hi, Nat.lt_of_lt_of_le hlt h'.ticks, hl.created.trans hc⟩

/-- A change that leaves the blocks alone. -/
theorem of_list (h : Keyed d) (hlist : d'.storage.list = d.storage.list)
    (hticks : d.ticks ≤ d'.ticks) (hfaults : d.storage.faults = [] → d'.storage.faults = []) :
    Evolves config d d' := by
  have hstate : ∀ n, stateAt d' n = stateAt d n := fun n => stateAt_congr (by rw [hlist])
  refine ⟨fun n s hs => h n s (hstate n ▸ hs), fun n b hb _ => hlist ▸ hb, hticks, hfaults, ?_, ?_⟩
  · exact fun _ n s hs => ⟨s, (hstate n).trans hs, Later.refl s⟩
  · intro _ n s hs hn
    rw [hstate, hn] at hs
    cases hs

/-- A state made under a free name. -/
theorem of_insert {s : EdgeState} (h : Keyed d)
    (hlist : d'.storage.list = d.storage.list.insert s.stateName (encodeEdgeState s))
    (hfree : d.storage.list[s.stateName]? = none) {i : ℕ} (hi : d.ticks ≤ i) (hlt : i < d'.ticks)
    (hborn : s.created = config.clock i + 1)
    (hfaults : d.storage.faults = [] → d'.storage.faults = []) : Evolves config d d' := by
  have hstate : ∀ n, stateAt d' n = if s.stateName = n then some s.stored else stateAt d n := by
    intro n
    rw [← stateAt_put]
    exact stateAt_congr (by rw [hlist]; rfl)
  have hnone : stateAt d s.stateName = none := by rw [stateAt, hfree]; rfl
  refine ⟨?_, ?_, by omega, hfaults, ?_, ?_⟩
  · intro n t ht
    exact h.put s n t ((stateAt_put d s n).trans ((hstate n).symm.trans ht))
  · intro n b hb _
    rw [hlist, getElem?_insert, if_neg fun hn => by simp [← hn, hfree] at hb]
    exact hb
  · intro _ n t ht
    refine ⟨t, ?_, Later.refl t⟩
    rw [hstate, if_neg fun hn => by simp [← hn, hnone] at ht]
    exact ht
  · intro _ n t ht hn
    rw [hstate] at ht
    split_ifs at ht with he
    · obtain rfl := Option.some.inj ht
      exact ⟨i, hi, hlt, congrArg isoTime hborn⟩
    · simp [hn] at ht

/-- A state written over its earlier form. -/
theorem of_replace {s s₀ : EdgeState} (h : Keyed d)
    (hlist : d'.storage.list = d.storage.list.insert s.stateName (encodeEdgeState s))
    (hold : stateAt d s.stateName = some s₀) (hlater : Later s₀ s.stored)
    (hticks : d.ticks ≤ d'.ticks) (hfaults : d.storage.faults = [] → d'.storage.faults = []) :
    Evolves config d d' := by
  have hstate : ∀ n, stateAt d' n = if s.stateName = n then some s.stored else stateAt d n := by
    intro n
    rw [← stateAt_put]
    exact stateAt_congr (by rw [hlist]; rfl)
  refine ⟨?_, ?_, hticks, hfaults, ?_, ?_⟩
  · intro n t ht
    exact h.put s n t ((stateAt_put d s n).trans ((hstate n).symm.trans ht))
  · intro n b hb hn
    rw [hlist, getElem?_insert, if_neg fun he => by simp [← he, hold] at hn]
    exact hb
  · intro _ n t ht
    by_cases he : s.stateName = n
    · subst he
      obtain rfl : s₀ = t := Option.some.inj (hold.symm.trans ht)
      exact ⟨s.stored, by rw [hstate, if_pos rfl], hlater⟩
    · exact ⟨t, by rw [hstate, if_neg he, ht], Later.refl t⟩
  · intro _ n t ht hn
    rw [hstate, if_neg fun he => by simp [← he, hold] at hn, hn] at ht
    cases ht

/-- A state lost between its deletion and its return, by a failing backend. -/
theorem of_erase {n : Name} {s₀ : EdgeState} (h : Keyed d)
    (hlist : d'.storage.list = d.storage.list.erase n) (hold : stateAt d n = some s₀)
    (hticks : d.ticks ≤ d'.ticks) (hfaults : d.storage.faults ≠ []) : Evolves config d d' := by
  have hstate : ∀ m, stateAt d' m = if n = m then none else stateAt d m := by
    intro m
    unfold stateAt
    rw [hlist, getElem?_erase]
    split_ifs <;> rfl
  refine ⟨?_, ?_, hticks, fun hr => (hfaults hr).elim, fun hr => (hfaults hr).elim,
    fun hr => (hfaults hr).elim⟩
  · intro m t ht
    rw [hstate] at ht
    split_ifs at ht
    exact h m t ht
  · intro m b hb hm
    rw [hlist, getElem?_erase, if_neg fun he => by simp [← he, hold] at hm]
    exact hb

end Evolves

/-- A program of the engine keeps to these changes in every run. -/
def Tame {α : Type} (config : DagConfig) (x : DagM α) : Prop :=
  Respects (fun d d' => Keyed d → Evolves config d d') x

namespace Tame
variable {α β : Type}

theorem trans_rel (d d' d'' : DagModule) (h : Keyed d → Evolves config d d')
    (h' : Keyed d' → Evolves config d' d'') : Keyed d → Evolves config d d'' :=
  fun hk => (h hk).trans (h' (h hk).keyed)

theorem pure (a : α) : Tame config (pure a : DagM α) := Respects.pure (fun _ => Evolves.refl) a

theorem throw (e : Error) : Tame config (throw e : DagM α) :=
  Respects.throw (fun _ => Evolves.refl) e

theorem get : Tame config (get : DagM DagModule) := Respects.get fun _ => Evolves.refl

theorem bind {x : DagM α} {f : α → DagM β} (hx : Tame config x) (hf : ∀ a, Tame config (f a)) :
    Tame config (x >>= f) := Respects.bind trans_rel hx hf

theorem foldlM {f : β → α → DagM β} {l : List α} (hf : ∀ b a, Tame config (f b a)) (b : β) :
    Tame config (l.foldlM f b) :=
  Respects.foldlM (fun _ => Evolves.refl) trans_rel (fun b a _ => hf b a) b

/-- Changes of the waitlist. -/
theorem modify (f : DagModule → DagModule) (hf : ∀ d, (f d).storage = d.storage)
    (ht : ∀ d, (f d).ticks = d.ticks) : Tame config (modify f : DagM PUnit) := fun d hk =>
  Evolves.of_list hk (by rw [exec_modify, hf]) (by rw [exec_modify, ht])
    (fun h => by rw [exec_modify, hf, h])

end Tame

/-! ## Reading and writing states -/

variable (config) in
/-- The program that is left when a read has failed and the clock has been asked. -/
theorem make_any {d : DagModule} (h : Keyed d) (n : Name) :
    ∃ r d', exec (do
        adder n (encodeEdgeState (fresh config d n))
        pure (fresh config d n)) { d with ticks := d.ticks + 2 } = (r, d') ∧
      Evolves config d d' ∧
      ∀ s, r = .ok s → s.stateName = n ∧ s.status = .INITIALIZED ∧ stateAt d' n = some s.stored := by
  have hticks : d.ticks < d.ticks + 2 := by omega
  rcases exec_adder_any { d with ticks := d.ticks + 2 } n (encodeEdgeState (fresh config d n)) with
    ⟨e, hadd⟩ | ⟨hfree, hadd⟩
  · refine ⟨.error e, _, exec_bind_error hadd, ?_, fun s hs => by cases hs⟩
    exact Evolves.of_list h rfl (Nat.le_of_lt hticks) spend_reliable
  · refine ⟨.ok (fresh config d n), _, exec_bind_ok hadd, ?_, ?_⟩
    · exact Evolves.of_insert (s := fresh config d n) h rfl hfree le_rfl hticks rfl spend_reliable
    · intro s hs
      obtain rfl := Except.ok.inj hs
      refine ⟨rfl, rfl, ?_⟩
      have hput := stateAt_put d (fresh config d n) n
      exact (stateAt_congr rfl).trans (hput.trans (if_pos rfl))

variable (config) in
/-- A read that succeeds leaves what it returns in the storage. -/
theorem getOrConstruct_any {d : DagModule} (h : Keyed d) (n : Name) :
    ∃ r d', exec (getOrConstruct config n) d = (r, d') ∧ Evolves config d d' ∧
      ∀ s, r = .ok s → s.stateName = n ∧ stateAt d' n = some s.stored ∧
        (d.storage.faults = [] → stateAt d n = none ∧ s.status = .INITIALIZED ∨
          stateAt d n = some s) := by
  let spent : DagModule := { d with storage := spend d.storage }
  have hspent : Evolves config d spent := Evolves.of_list h rfl le_rfl spend_reliable
  have hread : ∃ r, exec (do let block ← getter n; lift (decodeEdgeState block)) d = (r, spent) ∧
      (∀ s, r = .ok s → stateAt d n = some s) ∧
      (d.storage.faults = [] → ∀ e, r = .error e → stateAt d n = none) := by
    obtain ⟨r, hget, hok, herr⟩ := exec_getter_any d n
    cases r with
    | error e =>
        refine ⟨_, exec_bind_error hget, by simp, ?_⟩
        intro hr _ _
        rw [stateAt, herr hr e rfl]
        rfl
    | ok block =>
        refine ⟨decodeEdgeState block, exec_bind_ok hget, ?_, ?_⟩
        · exact fun s hs => stateAt_eq_some.mpr ⟨block, hok block rfl, hs⟩
        · intro _ e he
          simp [stateAt, hok block rfl, he, Except.toOption]
  obtain ⟨r, hr, hok, herr⟩ := hread
  cases r with
  | ok s =>
      have hs := hok s rfl
      have hsame : stateAt spent n = stateAt d n := rfl
      refine ⟨_, _, exec_tryCatch_ok hr, hspent, ?_⟩
      intro t ht
      obtain rfl := Except.ok.inj ht
      exact ⟨(h n s hs).1, by rw [hsame, hs, (h n s hs).2], fun _ => .inr hs⟩
  | error e =>
      have hmade : exec (construct config n) spent =
        (.ok (fresh config spent n), { spent with ticks := spent.ticks + 2 }) := rfl
      obtain ⟨r, d', hrun, hd', hres⟩ := make_any config hspent.keyed n
      refine ⟨r, d', ?_, hspent.trans hd', ?_⟩
      · rw [getOrConstruct, exec_tryCatch_error hr, exec_bind_ok hmade]
        exact hrun
      · intro s hs
        obtain ⟨hname, hstatus, hstored⟩ := hres s hs
        exact ⟨hname, hstored, fun hf => .inl ⟨herr hf e rfl, hstatus⟩⟩

variable (config) in
theorem update_any {d : DagModule} (h : Keyed d) {s s₀ : EdgeState}
    (hold : stateAt d s.stateName = some s₀) (hlater : Later s₀ s.stored) :
    Evolves config d (exec (update s) d).2 := by
  obtain ⟨r, m, hrun, hr, hm⟩ := exec_replace_any d s.stateName (encodeEdgeState s)
  rw [update, hrun]
  rcases hm with hm | hm | ⟨hm, hf⟩
  · exact Evolves.of_list h hm le_rfl hr
  · exact Evolves.of_replace h hm hold hlater le_rfl hr
  · exact Evolves.of_erase h hm hold le_rfl hf

namespace Tame
variable {β : Type}

/-- What follows a read may rely on the state being stored as it was returned. -/
theorem read {n : Name} {k : EdgeState → DagM β}
    (hk : ∀ s d, Keyed d → stateAt d s.stateName = some s.stored →
      Evolves config d (exec (k s) d).2) : Tame config (getOrConstruct config n >>= k) := by
  intro d h
  obtain ⟨r, d', hrun, hd', hs⟩ := getOrConstruct_any config h n
  cases r with
  | error e =>
      rw [exec_bind_error hrun]
      exact hd'
  | ok s =>
      obtain ⟨hname, hstored, -⟩ := hs s rfl
      rw [exec_bind_ok hrun]
      exact hd'.trans (hk s d' hd'.keyed (by rw [hname, hstored]))

end Tame

/-- A later form of a state that has been read is written, and something done after it. -/
theorem evolves_update {β : Type} {d : DagModule} (h : Keyed d) {s t : EdgeState}
    (hold : stateAt d s.stateName = some s.stored) (hlater : Later s.stored t.stored)
    {k : Unit → DagM β} (hk : Tame config (k ())) :
    Evolves config d (exec (update t >>= k) d).2 := by
  have hname : t.stateName = s.stateName := hlater.stateName
  have hu := update_any config h (hname ▸ hold) hlater
  rcases hrun : exec (update t) d with ⟨r, d'⟩
  rw [hrun] at hu
  cases r with
  | error e =>
      rw [exec_bind_error hrun]
      exact hu
  | ok _ =>
      rw [exec_bind_ok hrun]
      exact hu.trans (hk d' hu.keyed)

theorem Later.give (s : EdgeState) (x : Name) :
    Later s.stored ({ s with descendants := s.descendants.insert x } : EdgeState).stored :=
  ⟨rfl, rfl, rfl, fun _ => rfl, fun h => h, fun h => h⟩

theorem Later.load {s : EdgeState} (h : s.status = .INITIALIZED) (r : Record) :
    Later s.stored ({ s with record := r, status := .LOADED } : EdgeState).stored :=
  ⟨rfl, rfl, rfl, fun hn => (hn h).elim, fun hn => (hn h).elim,
    fun hl => Status.noConfusion (h.symm.trans hl)⟩

theorem Later.lock (s : EdgeState) :
    Later s.stored ({ s with status := .INTERLOCKED } : EdgeState).stored :=
  ⟨rfl, rfl, rfl, fun _ => rfl, fun _ he => Status.noConfusion he, fun _ => rfl⟩

/-! ## The programs of the engine -/

section
variable (config : DagConfig)

theorem tame_visitParent (testSeen : Bool) (state : EdgeState) (search : AncestorSearch)
    (ptr : Name) : Tame config (visitParent config testSeen state search ptr) := by
  refine Tame.read fun parent d h hs => ?_
  dsimp only
  split
  · exact evolves_update h hs (Later.give parent _) (Tame.pure _)
  · split
    · exact Evolves.refl h
    · exact Evolves.refl h

theorem tame_searchRounds (state : EdgeState) (fuel prev : ℕ) (search : AncestorSearch) :
    Tame config (searchRounds config state fuel prev search) := by
  induction fuel generalizing prev search with
  | zero =>
      rw [searchRounds]
      split
      · exact Tame.pure _
      · exact Tame.throw _
  | succ fuel ih =>
      rw [searchRounds]
      split
      · exact Tame.pure _
      · refine Tame.bind (Tame.foldlM (fun acc f => Tame.read fun s d h _ => ?_) _) fun next =>
          ih _ next
        exact Tame.foldlM (fun acc ptr => tame_visitParent config true state acc ptr) acc d h

theorem tame_getAncestors (state : EdgeState) : Tame config (getAncestors config state) := by
  refine Tame.bind (Tame.foldlM (fun acc ptr => tame_visitParent config false state acc ptr) _) ?_
  intro search
  refine Tame.bind Tame.get fun dag => ?_
  exact Tame.bind (tame_searchRounds config state _ _ search) fun ancestors => Tame.pure _

theorem tame_evaluateWaitlist (state : EdgeState) :
    Tame config (evaluateWaitlist config state) := by
  unfold evaluateWaitlist
  split
  · exact Tame.pure _
  · exact Tame.modify _ (fun _ => rfl) fun _ => rfl

theorem tame_credit (x a : Name) : Tame config (do
    let aState ← getOrConstruct config a
    let aState := { aState with descendants := aState.descendants.insert x }
    update aState
    evaluateWaitlist config aState) :=
  Tame.read fun s _ h hs => evolves_update h hs (Later.give s x) (tame_evaluateWaitlist config _)

theorem tame_evaluateNonGenesis (state : EdgeState) :
    Tame config (evaluateNonGenesis config state) := by
  unfold evaluateNonGenesis
  split
  · refine Tame.bind (tame_getAncestors config state) fun ancestors => ?_
    exact Tame.foldlM (fun _ a => tame_credit config state.stateName a) ()
  · exact Tame.pure _

/-- What is done for a new record after its state has been written. -/
theorem tame_resolve (state : EdgeState) : Tame config (do
    evaluateWaitlist config state
    evaluateNonGenesis config state
    state.descendants.toList.foldlM (fun _ desc => do
      let descState ← getOrConstruct config desc
      evaluateNonGenesis config descState) ()) := by
  refine Tame.bind (tame_evaluateWaitlist config state) fun _ =>
    Tame.bind (tame_evaluateNonGenesis config state) fun _ => Tame.foldlM (fun _ desc => ?_) ()
  exact Tame.read fun s d h _ => tame_evaluateNonGenesis config s d h

theorem tame_add (record : Record) : Tame config (add config record) := by
  refine Tame.read fun found d h hs => ?_
  dsimp only
  cases hstatus : found.status with
  | LOADED => exact Evolves.refl h
  | INTERLOCKED => exact Evolves.refl h
  | INITIALIZED =>
      dsimp only
      unfold onNewRecord
      rw [bind_assoc]
      exact evolves_update h hs (Later.load hstatus record)
        (Tame.bind (tame_resolve config _) fun _ => Tame.pure _)

theorem tame_harvestAbove (threshold : ℕ) (remove : Bool) :
    Tame config (harvestAbove config threshold remove) := by
  refine Tame.bind Tame.get fun dag => Tame.foldlM (fun ret bucket => ?_) []
  unfold harvestBucket
  split
  · refine Tame.bind (Tame.foldlM (fun acc s => Tame.read fun state d h hs => ?_) _) fun out =>
      Tame.bind (Tame.modify _ (fun _ => rfl) fun _ => rfl) fun _ => Tame.pure _
    split
    · exact evolves_update h hs (Later.lock state) (Tame.pure _)
    · exact Evolves.refl h
  · exact Tame.pure _

theorem tame_harvestBelow (threshold : ℕ) : Tame config (harvestBelow config threshold) := by
  refine Tame.bind Tame.get fun dag => Tame.foldlM (fun ret bucket => ?_) []
  split
  · refine Tame.foldlM (fun ret s => Tame.read fun state d h _ => ?_) ret
    split
    · exact Evolves.refl h
    · exact Evolves.refl h
  · exact Tame.pure _

theorem tame_getWaitList (value : ℕ) : Tame config (getWaitList value) := by
  intro d h
  obtain ⟨names, w, hrun, -⟩ := exec_getWaitList d value
  rw [hrun]
  exact Evolves.of_list h rfl le_rfl fun hf => hf

end

end CertLedger.DagEffects
