import CertLedger.DagSafety

/-!
# A module without its foreign blocks

The blocks under state names that are no states are taken out of the storage.
What the engine does on the storage that is left, it does on the full one, unless
it comes to write one of the names that were blocked.
-/
namespace CertLedger.DagCover
open Std TlvCodec FallibleState NdnObjects RecordCodec EdgeStateCodec InterlockPolicies
open OrderedContainers EndorsementDag DagEngine DagStates DagSearch DagUpdates DagHarvest
open DagEffects DagRefinement DagSafety

variable [NdnCxx]

/-- The second module is the first one without the foreign blocks of `B`. -/
structure Covers (B : Name → Prop) (d e : DagModule) : Prop where
  reliable : d.storage.faults = []
  intact : e.storage.faults = []
  keyed : Keyed e
  waitlist : e.waitlist = d.waitlist
  ticks : e.ticks = d.ticks
  shared : ∀ n, ¬B n → e.storage.list[n]? = d.storage.list[n]?
  erased : ∀ n, B n → e.storage.list[n]? = none
  blocked : ∀ n, B n → ∃ b, d.storage.list[n]? = some b ∧ stateAt d n = none

/-- The second module is the first one without the blocks under the names of `B`, whatever
they hold; they are those of `F`. -/
structure Hides (B : Name → Prop) (F : Name → Option Block) (d e : DagModule) : Prop where
  reliable : d.storage.faults = []
  intact : e.storage.faults = []
  keyed : Keyed e
  waitlist : e.waitlist = d.waitlist
  ticks : e.ticks = d.ticks
  shared : ∀ n, ¬B n → e.storage.list[n]? = d.storage.list[n]?
  erased : ∀ n, B n → e.storage.list[n]? = none
  kept : ∀ n, B n → d.storage.list[n]? = F n

/-- A blocked name has been written. -/
structure Escaped (B : Name → Prop) (e : DagModule) : Prop where
  intact : e.storage.faults = []
  keyed : Keyed e
  stored : ∃ n, B n ∧ Stored e n

section
variable {config : DagConfig} {B : Name → Prop} {F : Name → Option Block} {d e : DagModule}
  {α β : Type}

theorem Covers.stateAt (h : Covers B d e) (n : Name) : stateAt e n = stateAt d n := by
  by_cases hn : B n
  · obtain ⟨b, -, hb⟩ := h.blocked n hn
    rw [hb, DagStates.stateAt, h.erased n hn]
    rfl
  · exact stateAt_congr (h.shared n hn)

theorem Covers.node (h : Covers B d e) (n : Name) : node e n = node d n := by
  rw [DagStates.node, DagStates.node, h.stateAt]

theorem Covers.stored (h : Covers B d e) (n : Name) : Stored e n ↔ Stored d n := by
  rw [Stored, Stored, h.stateAt]

theorem Escaped.evolves {e' : DagModule} (h : Escaped B e) (he : Evolves config e e') :
    Escaped B e' where
  intact := he.reliable h.intact
  keyed := he.keyed
  stored := by
    obtain ⟨n, hn, hs⟩ := h.stored
    obtain ⟨s, hs⟩ := Option.isSome_iff_exists.mp hs
    obtain ⟨s', hs', -⟩ := he.later h.intact n s hs
    exact ⟨n, hn, by simp [Stored, hs']⟩

theorem stays_of_tame {x : DagM α} (h : Tame config x) : Stays (Escaped B) x :=
  fun e he => he.evolves (h e he.keyed)

abbrev Shadows (B : Name → Prop) (x : DagM α) : Prop := Mirrors (Covers B) (Escaped B) x

abbrev Echoes (B : Name → Prop) (F : Name → Option Block) (x : DagM α) : Prop :=
  Mirrors (Hides B F) (Escaped B) x

theorem Covers.hides (h : Covers B d e) : Hides B (fun n => d.storage.list[n]?) d e :=
  ⟨h.reliable, h.intact, h.keyed, h.waitlist, h.ticks, h.shared, h.erased, fun _ _ => rfl⟩

/-- The blocks that are hidden stay, and with them what they are not. -/
theorem Covers.of_hides {d' e' : DagModule} (h : Covers B d e)
    (h' : Hides B (fun n => d.storage.list[n]?) d' e') : Covers B d' e' where
  reliable := h'.reliable
  intact := h'.intact
  keyed := h'.keyed
  waitlist := h'.waitlist
  ticks := h'.ticks
  shared := h'.shared
  erased := h'.erased
  blocked n hn := by
    obtain ⟨b, hb, hnone⟩ := h.blocked n hn
    have hkept := h'.kept n hn
    exact ⟨b, hkept.trans hb, (stateAt_congr hkept).trans hnone⟩

theorem Shadows.of_echoes {x : DagM α} (h : ∀ F, Echoes B F x) : Shadows B x := by
  intro d e a e' hc hrun
  rcases h _ d e a e' hc.hides hrun with hX | ⟨d', hd', h'⟩
  · exact .inl hX
  · exact .inr ⟨d', hd', hc.of_hides h'⟩

/-- Both modules write the same state. -/
theorem Hides.put (h : Hides B F d e) {s : EdgeState} (hs : ¬B s.stateName) :
    Hides B F (put d s) (put e s) where
  reliable := h.reliable
  intact := h.intact
  keyed n t ht := by
    rw [stateAt_put] at ht
    split_ifs at ht with hn
    · obtain rfl := Option.some.inj ht
      exact ⟨hn, stored_stored s⟩
    · exact h.keyed n t ht
  waitlist := h.waitlist
  ticks := h.ticks
  shared n hn := by
    rw [put_list, put_list, h.shared n hn]
  erased n hn := by
    have hne : s.stateName ≠ n := fun he => hs (he ▸ hn)
    rw [put_list, if_neg hne, h.erased n hn]
  kept n hn := by
    have hne : s.stateName ≠ n := fun he => hs (he ▸ hn)
    rw [put_list, if_neg hne, h.kept n hn]

theorem Hides.not_blocked (h : Hides B F d e) {n : Name} {s : EdgeState}
    (hs : DagStates.stateAt e n = some s) : ¬B n := by
  intro hn
  simp [DagStates.stateAt, h.erased n hn] at hs

theorem Hides.rewrites (h : Hides B F d e) {s t : EdgeState}
    (hs : DagStates.stateAt e s.stateName = some s.stored) (ht : t.stateName = s.stateName) :
    exec (update t) d = (.ok (), DagStates.put d t) ∧
      exec (update t) e = (.ok (), DagStates.put e t) ∧
      Hides B F (DagStates.put d t) (DagStates.put e t) := by
  obtain ⟨b, hb, -⟩ := stateAt_eq_some.mp hs
  have hne : ¬B t.stateName := ht ▸ h.not_blocked hs
  rw [← ht] at hb
  exact ⟨exec_update h.reliable ((h.shared _ hne).symm.trans hb), exec_update h.intact hb,
    h.put hne⟩

/-- What follows a read may rely on the state being stored as it was returned. -/
theorem echoes_read {n : Name} {k : EdgeState → DagM α}
    (hk : ∀ s d, Keyed d → DagStates.stateAt d s.stateName = some s.stored →
      Evolves config d (exec (k s) d).2)
    (hs : ∀ s d e a e', Hides B F d e → DagStates.stateAt e s.stateName = some s.stored →
      exec (k s) e = (.ok a, e') →
        Escaped B e' ∨ ∃ d', exec (k s) d = (.ok a, d') ∧ Hides B F d' e') :
    Echoes B F (getOrConstruct config n >>= k) := by
  intro d e a e' h hrun
  obtain ⟨s, mid, hread, hrest⟩ := exec_bind_eq_ok hrun
  rcases exec_getOrConstruct_cases config h.intact n with
    ⟨t, ht, hget⟩ | ⟨hfree, hget⟩ | ⟨b, err, -, -, hget⟩ <;> rw [hget] at hread
  · obtain ⟨hst, rfl⟩ := Prod.mk.inj hread
    obtain rfl := Except.ok.inj hst
    obtain ⟨hname, hstored⟩ := h.keyed n t ht
    have hshared := stateAt_congr (h.shared n (h.not_blocked ht))
    rw [exec_bind_ok (exec_getOrConstruct_stored config h.reliable (hshared.symm.trans ht))]
    exact hs t d e a e' h (by rw [hname, ht, hstored]) hrest
  · obtain ⟨hst, rfl⟩ := Prod.mk.inj hread
    obtain rfl := Except.ok.inj hst
    have hstored : DagStates.stateAt (DagStates.put { e with ticks := e.ticks + 2 }
        (fresh config e n)) (fresh config e n).stateName = some (fresh config e n).stored := by
      rw [stateAt_put, if_pos rfl]
    by_cases hn : B n
    · -- the name that was blocked is written
      have hmid : Keyed { e with ticks := e.ticks + 2 } := h.keyed
      have hkeyed := hmid.put (fresh config e n)
      have hescaped : Escaped B (DagStates.put { e with ticks := e.ticks + 2 }
          (fresh config e n)) := ⟨h.intact, hkeyed, n, hn, by
            rw [Stored]
            exact Option.isSome_iff_exists.mpr ⟨_, hstored⟩⟩
      have := hescaped.evolves (hk _ _ hkeyed hstored)
      rw [hrest] at this
      exact .inl this
    · have hd : exec (getOrConstruct config n) d = (.ok (fresh config e n),
          DagStates.put { d with ticks := d.ticks + 2 } (fresh config e n)) := by
        have hfresh : fresh config e n = fresh config d n := by rw [fresh, fresh, h.ticks]
        rw [hfresh]
        exact exec_getOrConstruct_free config h.reliable ((h.shared n hn).symm.trans hfree)
      have hticks : Hides B F { d with ticks := d.ticks + 2 } { e with ticks := e.ticks + 2 } :=
        ⟨h.reliable, h.intact, h.keyed, h.waitlist, congrArg (· + 2) h.ticks, h.shared, h.erased,
          h.kept⟩
      rw [exec_bind_ok hd]
      exact hs _ _ _ a e' (hticks.put hn) hstored hrest
  · cases congrArg Prod.fst hread

/-- A stored state is written anew, and something is done after it. -/
theorem Hides.bind_update (h : Hides B F d e) {s t : EdgeState}
    (hs : DagStates.stateAt e s.stateName = some s.stored) (ht : t.stateName = s.stateName)
    {k : Unit → DagM α} (hk : Echoes B F (k ())) {a : α} {e' : DagModule}
    (hrun : exec (update t >>= k) e = (.ok a, e')) :
    Escaped B e' ∨ ∃ d', exec (update t >>= k) d = (.ok a, d') ∧ Hides B F d' e' := by
  obtain ⟨hd, he, h'⟩ := h.rewrites hs ht
  rw [exec_bind_ok he] at hrun
  rw [exec_bind_ok hd]
  exact hk _ _ a e' h' hrun

/-- A change of the waitlist alone. -/
theorem echoes_modify (f : ExtTreeMap ℕ NameSet → ExtTreeMap ℕ NameSet) :
    Echoes B F (modify fun dag : DagModule => { dag with waitlist := f dag.waitlist }) := by
  intro d e a e' h hrun
  rw [exec_modify] at hrun
  obtain ⟨-, rfl⟩ := Prod.mk.inj hrun
  refine .inr ⟨_, rfl, h.reliable, h.intact, h.keyed, ?_, h.ticks, h.shared, h.erased, h.kept⟩
  exact congrArg f h.waitlist

/-! ## The search -/

theorem echoes_visitParent (testSeen : Bool) (state : EdgeState) (search : AncestorSearch)
    (ptr : Name) : Echoes B F (visitParent config testSeen state search ptr) := by
  refine echoes_read (fun parent d h hs => ?_) fun parent d e a e' h hs hrun => ?_
  · dsimp only
    split
    · exact evolves_update h hs (Later.give parent _) (Tame.pure _)
    · split
      · exact Evolves.refl h
      · exact Evolves.refl h
  · dsimp only at hrun ⊢
    by_cases hpending : parent.status = .INITIALIZED
    · rw [if_pos hpending] at hrun ⊢
      refine h.bind_update (t := give parent state.stateName) hs rfl ?_ hrun
      exact Mirrors.pure _
    · rw [if_neg hpending] at hrun ⊢
      revert hrun
      split
      · exact Mirrors.pure _ d e a e' h
      · exact Mirrors.pure _ d e a e' h

theorem echoes_visitParents (testSeen : Bool) (state : EdgeState) (ptrs : List Name)
    (search : AncestorSearch) :
    Echoes B F (ptrs.foldlM (visitParent config testSeen state) search) :=
  Mirrors.foldlM (fun acc ptr _ => echoes_visitParent testSeen state acc ptr)
    (fun acc ptr => stays_of_tame (tame_visitParent config testSeen state acc ptr)) search

theorem echoes_expandFrontier (state : EdgeState) (search : AncestorSearch) :
    Echoes B F (expandFrontier config state search) := by
  have htame : ∀ acc f, Tame config (do
      let s ← getOrConstruct config f
      s.record.pointers.foldlM (visitParent config true state) acc) := fun acc f =>
    Tame.read fun s d h _ =>
      Tame.foldlM (fun acc ptr => tame_visitParent config true state acc ptr) acc d h
  refine Mirrors.foldlM (fun acc f _ => ?_) (fun acc f => stays_of_tame (htame acc f)) _
  refine echoes_read (fun s d h _ => ?_) fun s d e a e' h _ hrun => ?_
  · exact Tame.foldlM (fun acc ptr => tame_visitParent config true state acc ptr) acc d h
  · exact echoes_visitParents true state s.record.pointers acc d e a e' h hrun

theorem echoes_searchRounds (state : EdgeState) (fuel prev : ℕ) (search : AncestorSearch) :
    Echoes B F (searchRounds config state fuel prev search) := by
  induction fuel generalizing prev search with
  | zero =>
      rw [searchRounds]
      split
      · exact Mirrors.pure _
      · exact Mirrors.throw _
  | succ fuel ih =>
      rw [searchRounds]
      split
      · exact Mirrors.pure _
      · exact Mirrors.bind (echoes_expandFrontier state search) (fun next => ih _ next)
          fun next => stays_of_tame (tame_searchRounds config state fuel _ next)

/-- More rounds than are needed do not change what the search returns. -/
theorem searchRounds_mono {state : EdgeState} {fuel fuel' prev : ℕ} {search : AncestorSearch}
    {l : List Name} {d' : DagModule} (hle : fuel ≤ fuel')
    (hrun : exec (searchRounds config state fuel prev search) d = (.ok l, d')) :
    exec (searchRounds config state fuel' prev search) d = (.ok l, d') := by
  induction fuel generalizing fuel' prev search d with
  | zero =>
      rw [searchRounds] at hrun
      split at hrun
      · rename_i hdone
        cases fuel' with
        | zero => rw [searchRounds, if_pos hdone, hrun]
        | succ fuel' => rw [searchRounds, if_pos hdone, hrun]
      · cases congrArg Prod.fst hrun
  | succ fuel ih =>
      obtain ⟨fuel', rfl⟩ : ∃ k, fuel' = k + 1 := ⟨fuel' - 1, by omega⟩
      rw [searchRounds] at hrun ⊢
      split at hrun
      · rename_i hdone
        rw [if_pos hdone, hrun]
      · rename_i hmore
        obtain ⟨next, mid, hnext, hrest⟩ := exec_bind_eq_ok hrun
        rw [if_neg hmore, exec_bind_ok hnext]
        exact ih (by omega) hrest

/-- Foreign blocks only raise the bound on the rounds. -/
theorem Hides.roundBound_le (h : Hides B F d e) (state : EdgeState) :
    roundBound state e ≤ roundBound state d := by
  have hsub : e.storage.list.toList ⊆ d.storage.list.toList := by
    rintro ⟨n, block⟩ hp
    rw [ExtTreeMap.mem_toList_iff_getElem?_eq_some] at hp ⊢
    rw [← h.shared n fun hn => by simp [h.erased n hn] at hp]
    exact hp
  have hnodup : e.storage.list.toList.Nodup :=
    (ExtTreeMap.distinct_keys_toList (t := e.storage.list)).imp fun hab he =>
      hab (by rw [he]; exact ReflCmp.compare_self)
  obtain ⟨l, hperm, hl⟩ := hnodup.subperm hsub
  have hsum := (hperm.map fun p : Name × Block => p.2.value.length).sum_eq
  have hle := (hl.map fun p : Name × Block => p.2.value.length).sum_le_sum fun _ _ => Nat.zero_le _
  unfold roundBound
  omega

theorem echoes_getAncestors (state : EdgeState) : Echoes B F (getAncestors config state) := by
  intro d e l e' h hrun
  obtain ⟨search, e₁, hfirst, hrest⟩ := exec_bind_eq_ok hrun
  have htame : Tame config (do
      let dag ← get
      let ancestors ← searchRounds config state (roundBound state dag) 0 search
      return ancestors.reverse) :=
    Tame.bind Tame.get fun dag =>
      Tame.bind (tame_searchRounds config state _ _ search) fun _ => Tame.pure _
  rcases echoes_visitParents false state state.record.pointers ⟨[], []⟩ d e search e₁ h hfirst with
    hX | ⟨d₁, hd₁, h₁⟩
  · have := stays_of_tame htame e₁ hX
    rw [hrest] at this
    exact .inl this
  · rw [exec_bind_ok (exec_get e₁)] at hrest
    obtain ⟨ancestors, e₂, hsearch, hret⟩ := exec_bind_eq_ok hrest
    obtain ⟨hl, rfl⟩ := Prod.mk.inj hret
    rcases echoes_searchRounds state _ _ search d₁ e₁ ancestors e₂ h₁ hsearch with
      hX | ⟨d₂, hd₂, h₂⟩
    · exact .inl hX
    · refine .inr ⟨d₂, ?_, h₂⟩
      have hmore := searchRounds_mono (h₁.roundBound_le state) hd₂
      rw [getAncestors, exec_bind_ok hd₁, exec_bind_ok (exec_get d₁), exec_bind_ok hmore]
      exact congrArg (·, d₂) hl

/-! ## Updates and additions -/

theorem echoes_evaluateWaitlist (state : EdgeState) :
    Echoes B F (evaluateWaitlist config state) := by
  by_cases hs : state.status = .INTERLOCKED
  · rw [evaluateWaitlist, if_pos hs]
    exact Mirrors.pure _
  · have hmodify : evaluateWaitlist config state = modify fun dag : DagModule => { dag with
        waitlist := moveTo dag.waitlist (config.policy.evaluate state) state.stateName } := by
      rw [evaluateWaitlist, if_neg hs]
      rfl
    rw [hmodify]
    exact echoes_modify fun w => moveTo w (config.policy.evaluate state) state.stateName

theorem echoes_evaluateNonGenesis (state : EdgeState) :
    Echoes B F (evaluateNonGenesis config state) := by
  unfold evaluateNonGenesis
  split
  · refine Mirrors.bind (echoes_getAncestors state) (fun l => ?_) fun l => stays_of_tame
      (Tame.foldlM (fun _ a => tame_credit config state.stateName a) ())
    refine Mirrors.foldlM (fun _ a _ => ?_)
      (fun _ a => stays_of_tame (tame_credit config state.stateName a)) ()
    refine echoes_read (fun s _ h hs => ?_) fun s d e u e' h hs hrun => ?_
    · exact evolves_update h hs (Later.give s state.stateName) (tame_evaluateWaitlist config _)
    · refine h.bind_update (t := give s state.stateName) hs rfl ?_ hrun
      exact echoes_evaluateWaitlist _
  · exact Mirrors.pure _

theorem echoes_resolve (state : EdgeState) : Echoes B F (do
    evaluateWaitlist config state
    evaluateNonGenesis config state
    state.descendants.toList.foldlM (fun _ desc => do
      let descState ← getOrConstruct config desc
      evaluateNonGenesis config descState) ()) := by
  have hone : ∀ desc, Tame config (do
      let descState ← getOrConstruct config desc
      evaluateNonGenesis config descState) := fun desc =>
    Tame.read fun s d h _ => tame_evaluateNonGenesis config s d h
  have hall := Tame.foldlM (fun _ desc => hone desc) () (l := state.descendants.toList)
  refine Mirrors.bind (echoes_evaluateWaitlist state) (fun _ => ?_) fun _ => stays_of_tame
    (Tame.bind (tame_evaluateNonGenesis config state) fun _ => hall)
  refine Mirrors.bind (echoes_evaluateNonGenesis state) (fun _ => ?_) fun _ => stays_of_tame hall
  refine Mirrors.foldlM (fun _ desc _ => ?_) (fun _ desc => stays_of_tame (hone desc)) ()
  refine echoes_read (fun s d h _ => ?_) fun s d e u e' h _ hrun => ?_
  · exact tame_evaluateNonGenesis config s d h
  · exact echoes_evaluateNonGenesis s d e u e' h hrun

theorem echoes_add (r : Record) : Echoes B F (add config r) := by
  refine echoes_read (fun found d h hs => ?_) fun found d e n e' h hs hrun => ?_
  · dsimp only
    cases hstatus : found.status with
    | LOADED => exact Evolves.refl h
    | INTERLOCKED => exact Evolves.refl h
    | INITIALIZED =>
        dsimp only
        unfold onNewRecord
        rw [bind_assoc]
        exact evolves_update h hs (Later.load hstatus r)
          (Tame.bind (tame_resolve config _) fun _ => Tame.pure _)
  · dsimp only at hrun ⊢
    revert hrun
    cases hstatus : found.status with
    | LOADED => exact Mirrors.pure _ d e n e' h
    | INTERLOCKED => exact Mirrors.pure _ d e n e' h
    | INITIALIZED =>
        dsimp only
        unfold onNewRecord
        rw [bind_assoc]
        intro hrun
        refine h.bind_update (t := { found with record := r, status := .LOADED }) hs rfl ?_ hrun
        exact Mirrors.bind (echoes_resolve _) (fun _ => Mirrors.pure _) fun _ =>
          Stays.pure _

/-! ## Harvests -/

theorem echoes_harvestName (acc : List Record × List Name) (s : Name) :
    Echoes B F (harvestName config acc s) := by
  refine echoes_read (fun state d h hs => ?_) fun state d e a e' h hs hrun => ?_
  · split
    · exact evolves_update h hs (Later.lock state) (Tame.pure _)
    · exact Evolves.refl h
  · by_cases hp : state.status ≠ .INITIALIZED
    · rw [if_pos hp] at hrun ⊢
      refine h.bind_update (t := { state with status := .INTERLOCKED }) hs rfl ?_ hrun
      exact Mirrors.pure _
    · rw [if_neg hp] at hrun ⊢
      exact Mirrors.pure _ d e a e' h hrun

theorem echoes_harvestAbove (t : ℕ) (remove : Bool) :
    Echoes B F (harvestAbove config t remove) := by
  intro d e ret e' h hrun
  have hname : ∀ acc s, Tame config (harvestName config acc s) := fun acc s =>
    Tame.read fun state d h hs => by
      split
      · exact evolves_update h hs (Later.lock state) (Tame.pure _)
      · exact Evolves.refl h
  have hbucket : ∀ ret bucket, Tame config (harvestBucket config t remove ret bucket) := by
    intro ret bucket
    unfold harvestBucket
    split
    · exact Tame.bind (Tame.foldlM (fun acc s => hname acc s) _) fun out =>
        Tame.bind (Tame.modify _ (fun _ => rfl) fun _ => rfl) fun _ => Tame.pure _
    · exact Tame.pure _
  rw [harvestAbove, exec_bind_ok (exec_get e), h.waitlist] at hrun
  rw [harvestAbove, exec_bind_ok (exec_get d)]
  refine Mirrors.foldlM (fun ret bucket _ => ?_)
    (fun ret bucket => stays_of_tame (hbucket ret bucket)) [] d e ret e' h hrun
  unfold harvestBucket
  split
  · refine Mirrors.bind (Mirrors.foldlM (fun acc s _ => echoes_harvestName acc s)
      (fun acc s => stays_of_tame (hname acc s)) _) (fun out => ?_) fun out => ?_
    case refine_2 =>
      suffices H : Tame config _ from stays_of_tame H
      exact Tame.bind (Tame.modify _ (fun _ => rfl) fun _ => rfl) fun _ => Tame.pure _
    exact Mirrors.bind (echoes_modify fun w => w.modify bucket.1 fun names =>
      (if remove then out.2 else []).foldl (fun l n => l.erase n) names)
      (fun _ => Mirrors.pure _) fun _ => Stays.pure _
  · exact Mirrors.pure _

theorem echoes_harvestBelow (t : ℕ) : Echoes B F (harvestBelow config t) := by
  intro d e ret e' h hrun
  have hname : ∀ ret s, Tame config (harvestBelowName config ret s) := fun ret s =>
    Tame.read fun state d h _ => by
      split
      · exact Evolves.refl h
      · exact Evolves.refl h
  have hnames : ∀ ret (l : List Name), Tame config (l.foldlM (harvestBelowName config) ret) :=
    fun ret l => Tame.foldlM (fun ret s => hname ret s) ret
  rw [harvestBelow, exec_bind_ok (exec_get e), h.waitlist] at hrun
  rw [harvestBelow, exec_bind_ok (exec_get d)]
  refine Mirrors.foldlM (fun ret bucket _ => ?_) (fun ret bucket => ?_) [] d e ret e' h hrun
  · split
    · refine Mirrors.foldlM (fun ret s _ => ?_) (fun ret s => stays_of_tame (hname ret s)) ret
      refine echoes_read (fun state d h _ => ?_) fun state d e a e' h _ hrun => ?_
      · split
        · exact Evolves.refl h
        · exact Evolves.refl h
      · revert hrun
        split
        · exact Mirrors.pure _ d e a e' h
        · exact Mirrors.pure _ d e a e' h
    · exact Mirrors.pure _
  · suffices H : Tame config _ from stays_of_tame H
    split
    · exact hnames ret _
    · exact Tame.pure _

/-! ## Foreign blocks that are no states -/

theorem shadows_add (r : Record) : Shadows B (add config r) :=
  Shadows.of_echoes fun _ => echoes_add r

theorem shadows_harvestAbove (t : ℕ) (remove : Bool) :
    Shadows B (harvestAbove config t remove) :=
  Shadows.of_echoes fun _ => echoes_harvestAbove t remove

theorem shadows_harvestBelow (t : ℕ) : Shadows B (harvestBelow config t) :=
  Shadows.of_echoes fun _ => echoes_harvestBelow t

/-! ## Taking the foreign blocks out -/

/-- The name of a state under which something else is stored. -/
def Blocked (d : DagModule) (n : Name) : Prop :=
  IsStateName n ∧ stateAt d n = none ∧ ∃ b, d.storage.list[n]? = some b

/-- The storage without the foreign blocks under state names. -/
def cleaned (d : DagModule) : DagModule :=
  { d with storage := { d.storage with
      list := d.storage.list.filter fun n b => !decide (IsStateName n) || (decodeEdgeState b).isOk } }

theorem cleaned_list (d : DagModule) (n : Name) : (cleaned d).storage.list[n]? =
    d.storage.list[n]?.filter fun b => !decide (IsStateName n) || (decodeEdgeState b).isOk :=
  ExtTreeMap.getElem?_filter'

theorem Covers.legible (h : Covers B d e) (hc : Clean e) : Legible d where
  reliable := h.reliable
  states n block s hb hd := by
    have hs : DagStates.stateAt e n = some s :=
      (h.stateAt n).trans (stateAt_eq_some.mpr ⟨block, hb, hd⟩)
    rw [← h.shared n (h.hides.not_blocked hs)] at hb
    exact (Legible.of_clean hc).states n block s hb hd

theorem cleaned_of_not_blocked {n : Name} (h : ¬Blocked d n) :
    (cleaned d).storage.list[n]? = d.storage.list[n]? := by
  rw [cleaned_list]
  cases hb : d.storage.list[n]? with
  | none => rfl
  | some b =>
      rw [Option.filter_some, if_pos]
      by_cases hn : IsStateName n
      · cases hd : decodeEdgeState b with
        | ok s => simp [Except.isOk, Except.toBool]
        | error err =>
            refine (h ⟨hn, ?_, b, hb⟩).elim
            simp [DagStates.stateAt, hb, hd, Except.toOption]
      · simp [hn]

theorem cleaned_of_blocked {n : Name} (h : Blocked d n) :
    (cleaned d).storage.list[n]? = none := by
  obtain ⟨hn, hs, b, hb⟩ := h
  rw [cleaned_list, hb, Option.filter_some, if_neg]
  rw [DagStates.stateAt, hb] at hs
  cases hd : decodeEdgeState b with
  | ok s => simp [hd, Except.toOption] at hs
  | error err => simp [hn, Except.isOk, Except.toBool]

theorem covers_cleaned (h : Legible d) :
    Covers (Blocked d) d (cleaned d) ∧ Clean (cleaned d) := by
  have hstate : ∀ n s, DagStates.stateAt (cleaned d) n = some s →
      DagStates.stateAt d n = some s := by
    intro n s hs
    by_cases hn : Blocked d n
    · simp [DagStates.stateAt, cleaned_of_blocked hn] at hs
    · exact (stateAt_congr (cleaned_of_not_blocked hn)).symm.trans hs
  refine ⟨⟨h.reliable, h.reliable, fun n s hs => h.keyed n s (hstate n s hs), rfl, rfl,
    fun n hn => cleaned_of_not_blocked hn, fun n hn => cleaned_of_blocked hn, ?_⟩,
    h.reliable, ?_, ?_⟩
  · rintro n ⟨_, hs, b, hb⟩
    exact ⟨b, hb, hs⟩
  · intro n block hb hn
    have hblocked : ¬Blocked d n := fun he => by simp [cleaned_of_blocked he] at hb
    rw [cleaned_of_not_blocked hblocked] at hb
    cases hs : DagStates.stateAt d n with
    | none => exact (hblocked ⟨hn, hs, block, hb⟩).elim
    | some s =>
        obtain ⟨c, hc, hd⟩ := stateAt_eq_some.mp hs
        obtain rfl := Option.some.inj (hb.symm.trans hc)
        exact (h.states n block s hb hd).2
  · intro n block s hb hd
    exact (h.state (hstate n s (stateAt_eq_some.mpr ⟨block, hb, hd⟩))).1

/-! ## Harvests of legible modules -/

theorem Covers.harvested (h : Covers B d e) (hits : ℕ → Bool) :
    DagHarvest.harvested e hits e.waitlist.toList =
      DagHarvest.harvested d hits d.waitlist.toList := by
  rw [DagHarvest.harvested, DagHarvest.harvested, h.waitlist]
  simp only [loadedNames, h.node]

/-- No name is written that was not stored before. -/
theorem Escaped.elim {e' : DagModule} (h : Covers B d e) (hX : Escaped B e')
    (hstored : ∀ n, Stored e' n → Stored e n) : False := by
  obtain ⟨n, hn, hs⟩ := hX.stored
  obtain ⟨s, hs⟩ := Option.isSome_iff_exists.mp (hstored n hs)
  exact h.hides.not_blocked hs hn

/-- What a harvest from `t` up leaves behind. -/
structure Reaps (t : ℕ) (remove : Bool) (d d' : DagModule) : Prop where
  legible : Legible d'
  locked : ∀ n ∈ DagHarvest.harvested d (t ≤ ·) d.waitlist.toList,
    node d' n = { node d n with status := .INTERLOCKED }
  same : ∀ n, n ∉ DagHarvest.harvested d (t ≤ ·) d.waitlist.toList → node d' n = node d n
  stored : ∀ n, Stored d' n ↔ Stored d n
  bucket : ∀ k n, InBucket d'.waitlist k n ↔ InBucket d.waitlist k n ∧
    ¬(remove = true ∧ t ≤ k ∧ (node d n).status ≠ .INITIALIZED)
  others : ∀ n, ¬IsStateName n → d'.storage.list[n]? = d.storage.list[n]?

theorem exec_harvestAbove_legible (config : DagConfig) (h : Legible d)
    (hlisted : ∀ k n, InBucket d.waitlist k n → Stored d n) (t : ℕ) (remove : Bool) :
    ∃ d', exec (harvestAbove config t remove) d =
        (.ok ((DagHarvest.harvested d (t ≤ ·) d.waitlist.toList).map fun n => (node d n).record),
          d') ∧ Reaps t remove d d' := by
  obtain ⟨hcover, hclean⟩ := covers_cleaned h
  obtain ⟨e', hrun, hlocks, hbucket⟩ := exec_harvestAbove config hclean
    (fun k n hn => (hcover.stored n).mpr (hlisted k n (hcover.waitlist ▸ hn))) t remove
  rcases shadows_harvestAbove t remove d _ _ e' hcover hrun with hX | ⟨d', hd', h'⟩
  · exact (hX.elim hcover fun n => (hlocks.stored n).mp).elim
  · rw [hcover.harvested, funext hcover.node] at hd'
    refine ⟨d', hd', h'.legible hlocks.clean, ?_, ?_, ?_, ?_, ?_⟩
    · intro n hn
      rw [← h'.node, hlocks.locked n (hcover.harvested _ ▸ hn), hcover.node]
    · intro n hn
      rw [← h'.node, hlocks.same n (hcover.harvested _ ▸ hn), hcover.node]
    · intro n
      rw [← h'.stored, hlocks.stored, hcover.stored]
    · intro k n
      rw [← h'.waitlist, hbucket, hcover.node, hcover.waitlist]
    · intro n hn
      have hfree : ∀ m, Blocked d m → IsStateName m := fun m hm => hm.1
      rw [← h'.shared n fun hb => hn (hfree n hb), hlocks.others n hn,
        hcover.shared n fun hb => hn (hfree n hb)]

theorem exec_harvestBelow_legible (h : Legible d)
    (hlisted : ∀ k n, InBucket d.waitlist k n → Stored d n) (t : ℕ) :
    exec (harvestBelow config t) d = (.ok ((DagHarvest.harvested d (· < t)
      d.waitlist.toList).map fun n => (node d n).record), d) := by
  obtain ⟨hcover, hclean⟩ := covers_cleaned h
  have hrun : exec (harvestBelow config t) (cleaned d) = _ := exec_harvestBelow hclean
    (fun k n hn => (hcover.stored n).mpr (hlisted k n (hcover.waitlist ▸ hn))) t
  rcases shadows_harvestBelow t d _ _ _ hcover hrun with hX | ⟨d', hd', h'⟩
  · exact (hX.elim hcover fun n => id).elim
  · rw [hcover.harvested, funext hcover.node] at hd'
    have hevolves := tame_harvestBelow config t d h.keyed
    rw [hd'] at hevolves
    have hlist : d'.storage.list = d.storage.list := by
      apply ExtTreeMap.ext_getElem?
      intro n
      by_cases hn : Blocked d n
      · obtain ⟨b, hb, hnone⟩ := hcover.blocked n hn
        rw [hb, hevolves.foreign n b hb hnone]
      · rw [← h'.shared n hn, hcover.shared n hn]
    have hsame : d' = d := by
      have hstorage : d'.storage = d.storage :=
        congrArg₂ LedgerMemory.mk hlist (h'.reliable.trans h.reliable.symm)
      have hw : d'.waitlist = d.waitlist := h'.waitlist.symm
      have hticks : d'.ticks = d.ticks := h'.ticks.symm
      obtain ⟨_, _, _⟩ := d'
      exact congr (congr (congrArg DagModule.mk hstorage) hw) hticks
    rw [hd', hsame]

namespace Reaps
variable {t : ℕ} {remove : Bool} {d' : DagModule}

theorem record (h : Reaps t remove d d') (n : Name) : (node d' n).record = (node d n).record := by
  by_cases hn : n ∈ DagHarvest.harvested d (t ≤ ·) d.waitlist.toList
  · rw [h.locked n hn]
  · rw [h.same n hn]

theorem descendants (h : Reaps t remove d d') (n : Name) :
    (node d' n).descendants = (node d n).descendants := by
  by_cases hn : n ∈ DagHarvest.harvested d (t ≤ ·) d.waitlist.toList
  · rw [h.locked n hn]
  · rw [h.same n hn]

theorem pending (h : Reaps t remove d d') (n : Name) :
    (node d' n).status = .INITIALIZED ↔ (node d n).status = .INITIALIZED := by
  by_cases hn : n ∈ DagHarvest.harvested d (t ≤ ·) d.waitlist.toList
  · rw [h.locked n hn]
    exact ⟨fun he => Status.noConfusion he, fun he => ((mem_harvested.mp hn).1 he).elim⟩
  · rw [h.same n hn]

theorem value (h : Reaps t remove d d') (n : Name) :
    DagUpdates.value config d' n = DagUpdates.value config d n :=
  value_congr fun x => by rw [h.descendants]

/-- Harvested from its threshold up and removed, what is interlocked has earned it. -/
theorem fair (h : Reaps t true d d') (hd : Fair config t d) : Fair config t d' := by
  have hbucket : ∀ k n, InBucket d'.waitlist k n →
      InBucket d.waitlist k n ∧ n ∉ DagHarvest.harvested d (t ≤ ·) d.waitlist.toList := by
    intro k n hin
    obtain ⟨hk, hkept⟩ := (h.bucket k n).mp hin
    refine ⟨hk, fun hn => hkept ?_⟩
    obtain ⟨hs, j, hj, hjn⟩ := mem_harvested.mp hn
    exact ⟨rfl, hd.once j k n hjn hk ▸ of_decide_eq_true hj, hs⟩
  refine ⟨h.legible, ?_, ?_, ?_, ?_, ?_⟩
  · have hedge : (abs d').edge = (abs d).edge := by
      funext u v
      refine propext ?_
      rw [abs_edge, abs_edge, Ne, h.pending, Node.next, Node.next, h.record]
    have hcounted : (abs d').counted = (abs d).counted := by
      ext u
      rw [mem_counted, mem_counted, Ne, h.pending, h.record]
    intro a x hx
    rw [mem_desc, h.descendants] at hx
    rw [Dag.endorsers, hedge, hcounted]
    exact hd.sound a hx
  · intro k n hin
    obtain ⟨hk, hn⟩ := hbucket k n hin
    rw [h.stored, h.same n hn, h.value]
    exact hd.listed k n hk
  · intro k j n hk hj
    exact hd.once k j n (hbucket k n hk).1 (hbucket j n hj).1
  · intro n hn
    have hnot : n ∉ DagHarvest.harvested d (t ≤ ·) d.waitlist.toList := by
      intro hmem
      rw [h.locked n hmem] at hn
      cases hn
    rw [h.same n hnot] at hn
    obtain ⟨k, hk⟩ := hd.waiting n hn
    refine ⟨k, (h.bucket k n).mpr ⟨hk, ?_⟩⟩
    rintro ⟨-, ht, hs⟩
    exact hnot (mem_harvested.mpr ⟨hs, k, decide_eq_true ht, hk⟩)
  · intro n hn
    rw [h.value]
    by_cases hmem : n ∈ DagHarvest.harvested d (t ≤ ·) d.waitlist.toList
    · obtain ⟨-, k, hk, hin⟩ := mem_harvested.mp hmem
      exact (of_decide_eq_true hk).trans (hd.listed k n hin).2.2
    · rw [h.same n hmem] at hn
      exact hd.earned n hn

end Reaps

end

end CertLedger.DagCover
