import CertLedger.EventRuns
import Mathlib.Data.List.Nodup
import Mathlib.Logic.Function.Basic
import Mathlib.Tactic.Common

/-!
# Parties that publish to each other

Machines whose events may publish a message. A message stays available once it
is published, and it may be delivered to any party at any time, more than once,
out of order or never. What a party does in a run is a run of its own machine
over its own events.
-/
namespace CertLedger.BroadcastNetwork
open EventRuns

variable {ι σ ε α μ β κ : Type}

/-- A party: what its events do and publish, and which of them are requests from
outside or deliveries. -/
structure Machine (σ ε α μ : Type) where
  step : σ → ε → σ
  output : σ → ε → Option μ
  request : α → ε
  /-- nothing when the message cannot be read -/
  delivery : μ → Option ε

structure Network (ι σ μ : Type) where
  parties : ι → σ
  /-- every message published so far, with its party -/
  published : List (ι × μ) := []

inductive Step (ι α : Type) where
  | request (i : ι) (a : α)
  /-- of the message at a position -/
  | deliver (i : ι) (k : ℕ)

variable (machines : ι → Machine σ ε α μ)

/-- The event that a step is, and its party. -/
def Step.event (net : Network ι σ μ) : Step ι α → Option (ι × ε)
  | .request i a => some (i, (machines i).request a)
  | .deliver i k =>
      match net.published[k]? with
      | some m => ((machines i).delivery m.2).map fun e => (i, e)
      | none => none

variable [DecidableEq ι]

/-- One event at a party. -/
def Network.handle (net : Network ι σ μ) (i : ι) (e : ε) : Network ι σ μ where
  parties := Function.update net.parties i ((machines i).step (net.parties i) e)
  published := net.published ++
    (((machines i).output (net.parties i) e).map fun m => (i, m)).toList

def Network.perform (net : Network ι σ μ) (step : Step ι α) : Network ι σ μ :=
  match step.event machines net with
  | some (i, e) => net.handle machines i e
  | none => net

def Network.after (net : Network ι σ μ) (steps : List (Step ι α)) : Network ι σ μ :=
  steps.foldl (Network.perform machines) net

/-- What a step is to a party. -/
def Step.at (net : Network ι σ μ) (i : ι) (step : Step ι α) : Option ε :=
  match step.event machines net with
  | some (j, e) => if j = i then some e else none
  | none => none

/-- The events of a party in a run. -/
def history (i : ι) : Network ι σ μ → List (Step ι α) → List ε
  | _, [] => []
  | net, step :: steps =>
      (step.at machines net i).toList ++ history i (net.perform machines step) steps

/-- Every event of a run has `P`, with its party and the state that party is in. -/
def Everywhere (P : ι → σ → ε → Prop) (net : Network ι σ μ) (steps : List (Step ι α)) : Prop :=
  Throughout (Network.perform machines)
    (fun net step => ∀ i e, step.event machines net = some (i, e) → P i (net.parties i) e)
    net steps

/-- The message at a position has come to a party. -/
def Delivered (net : Network ι σ μ) (steps : List (Step ι α)) (i : ι) (k : ℕ) : Prop :=
  ∃ before, before ++ [.deliver i k] <+: steps ∧
    k < (net.after machines before).published.length

variable {machines} {net : Network ι σ μ} {steps : List (Step ι α)} {i j : ι}

/-! ## Runs of one party -/

theorem parties_perform (net : Network ι σ μ) (step : Step ι α) (i : ι) :
    (net.perform machines step).parties i =
      (step.at machines net i).toList.foldl (machines i).step (net.parties i) := by
  unfold Network.perform Step.at
  cases step.event machines net with
  | none => rfl
  | some found =>
      obtain ⟨j, e⟩ := found
      change (net.handle machines j e).parties i = (if j = i then some e else none).toList.foldl _ _
      by_cases h : j = i
      · subst h
        simp [Network.handle]
      · have hne : i ≠ j := fun he => h he.symm
        simp [Network.handle, h, hne]

theorem parties_after (net : Network ι σ μ) (steps : List (Step ι α)) (i : ι) :
    (net.after machines steps).parties i =
      (history machines i net steps).foldl (machines i).step (net.parties i) := by
  unfold Network.after
  induction steps generalizing net with
  | nil => rfl
  | cons step steps ih =>
      rw [List.foldl_cons, ih, history, List.foldl_append, parties_perform]

theorem after_concat (net : Network ι σ μ) (steps : List (Step ι α)) (step : Step ι α) :
    net.after machines (steps ++ [step]) = (net.after machines steps).perform machines step :=
  List.foldl_concat ..

/-- What holds of all events of a run holds of those of a party. -/
theorem Everywhere.history {P : ι → σ → ε → Prop} (h : Everywhere machines P net steps) (i : ι) :
    Throughout (machines i).step (P i) (net.parties i) (history machines i net steps) := by
  induction steps generalizing net with
  | nil => exact trivial
  | cons step steps ih =>
      have hrest := ih h.2
      rw [BroadcastNetwork.history]
      rw [parties_perform] at hrest
      cases he : step.at machines net i with
      | none =>
          rw [he] at hrest
          exact hrest
      | some e =>
          rw [he] at hrest
          refine ⟨h.1 i e ?_, hrest⟩
          unfold Step.at at he
          split at he
          · rename_i j e' hevent
            split_ifs at he with hj
            rw [hevent, hj, Option.some.inj he]
          · cases he

/-! ## Published messages -/

theorem published_perform (net : Network ι σ μ) (step : Step ι α) :
    (net.perform machines step).published = net.published ++
      (match step.event machines net with
        | some (i, e) => (((machines i).output (net.parties i) e).map fun m => (i, m)).toList
        | none => []) := by
  unfold Network.perform
  cases step.event machines net with
  | none => exact (List.append_nil _).symm
  | some found => rfl

theorem published_grows (net : Network ι σ μ) (steps : List (Step ι α)) :
    net.published <+: (net.after machines steps).published := by
  unfold Network.after
  induction steps generalizing net with
  | nil => exact List.prefix_rfl
  | cons step steps ih =>
      refine List.IsPrefix.trans ?_ (ih (net.perform machines step))
      rw [published_perform]
      exact List.prefix_append _ _

variable (machines) in
theorem length_published_mono (net : Network ι σ μ) {before : List (Step ι α)}
    (h : before <+: steps) :
    (net.after machines before).published.length ≤ (net.after machines steps).published.length := by
  obtain ⟨rest, rfl⟩ := h
  have happend : net.after machines (before ++ rest) =
      (net.after machines before).after machines rest := List.foldl_append ..
  rw [happend]
  exact (published_grows _ rest).length_le

/-- A message that was not there before a step is what its event publishes. -/
theorem output_of_published {step : Step ι α} {k : ℕ} {m : μ}
    (h : (net.perform machines step).published[k]? = some (j, m))
    (hk : net.published.length ≤ k) :
    ∃ e, step.event machines net = some (j, e) ∧
      (machines j).output (net.parties j) e = some m := by
  rw [published_perform, List.getElem?_append_right hk] at h
  split at h
  · rename_i i e hevent
    have hmem := List.mem_of_getElem? h
    rw [Option.mem_toList, Option.map_eq_some_iff] at hmem
    obtain ⟨m', hout, hpair⟩ := hmem
    obtain ⟨rfl, rfl⟩ := Prod.mk.inj hpair
    exact ⟨e, hevent, hout⟩
  · simp at h

variable (machines) in
/-- No step publishes more than one message. -/
theorem length_published_le (net : Network ι σ μ) (steps : List (Step ι α)) :
    (net.after machines steps).published.length ≤ net.published.length + steps.length := by
  induction steps using List.reverseRecOn with
  | nil => exact le_rfl
  | append_singleton steps step ih =>
      rw [after_concat, published_perform, List.length_append, List.length_append]
      have hone : (match step.event machines (net.after machines steps) with
          | some (i, e) => (((machines i).output ((net.after machines steps).parties i) e).map
              fun m => (i, m)).toList
          | none => []).length ≤ 1 := by
        split
        · exact Option.length_toList_le
        · exact Nat.zero_le _
      simp only [List.length_singleton]
      omega

/-! ## Invariants -/

variable (machines) in
/-- A step is an event at a party, or nothing. -/
theorem perform_cases (net : Network ι σ μ) (step : Step ι α) :
    (∃ i e, step.event machines net = some (i, e) ∧
        net.perform machines step = net.handle machines i e) ∨
      net.perform machines step = net := by
  unfold Network.perform
  cases step.event machines net with
  | none => exact .inr rfl
  | some found => exact .inl ⟨found.1, found.2, rfl, rfl⟩

theorem handle_self (net : Network ι σ μ) (i : ι) (e : ε) :
    (net.handle machines i e).parties i = (machines i).step (net.parties i) e :=
  Function.update_self ..

theorem handle_other (net : Network ι σ μ) (e : ε) (h : j ≠ i) :
    (net.handle machines i e).parties j = net.parties j :=
  Function.update_of_ne h ..

theorem mem_published_handle (net : Network ι σ μ) (i : ι) (e : ε) (p : ι × μ) :
    p ∈ (net.handle machines i e).published ↔ p ∈ net.published ∨
      (p.1 = i ∧ (machines i).output (net.parties i) e = some p.2) := by
  obtain ⟨j, m⟩ := p
  change (j, m) ∈ net.published ++ _ ↔ _
  rw [List.mem_append, Option.mem_toList, Option.map_eq_some_iff]
  refine or_congr_right ?_
  constructor
  · rintro ⟨m', hm', he⟩
    obtain ⟨rfl, rfl⟩ := Prod.mk.inj he
    exact ⟨rfl, hm'⟩
  · rintro ⟨rfl, hm⟩
    exact ⟨m, hm, rfl⟩

omit [DecidableEq ι] in
/-- The delivered message is one that has been published. -/
theorem event_deliver {k : ℕ} {e : ε}
    (h : (Step.deliver j k : Step ι α).event machines net = some (i, e)) :
    j = i ∧ ∃ p m, net.published[k]? = some (p, m) ∧ (machines i).delivery m = some e := by
  dsimp only [Step.event] at h
  cases hm : net.published[k]? with
  | none => simp [hm] at h
  | some m =>
      rw [hm] at h
      obtain ⟨e', he, hpair⟩ := Option.map_eq_some_iff.mp h
      obtain ⟨rfl, rfl⟩ := Prod.mk.inj hpair
      exact ⟨rfl, m.1, m.2, rfl, he⟩

/-- An invariant of the parties is one of the network. -/
theorem parties_invariant {J : ι → σ → Prop} {P : ι → σ → ε → Prop}
    (hkeep : ∀ i s e, J i s → P i s e → J i ((machines i).step s e))
    (h : Everywhere machines P net steps) (hJ : ∀ i, J i (net.parties i)) (i : ι) :
    J i ((net.after machines steps).parties i) := by
  rw [parties_after]
  exact (h.history i).invariant (hkeep i) (hJ i)

/-! ## What the parties hold -/

/-- Parties hold what they have published and what has been delivered to them, and
nothing else, in states with `J` and events with `P`. -/
structure Sourced (machines : ι → Machine σ ε α μ) (J : ι → σ → Prop) (P : ι → σ → ε → Prop)
    (holds : σ → μ → Prop) : Prop where
  keeps : ∀ i s e, J i s → P i s e → J i ((machines i).step s e)
  request : ∀ i s a m, J i s → P i s ((machines i).request a) →
    holds ((machines i).step s ((machines i).request a)) m →
      holds s m ∨ (machines i).output s ((machines i).request a) = some m
  delivery : ∀ i s e m m', J i s → P i s e → (machines i).delivery m' = some e →
    holds ((machines i).step s e) m → holds s m ∨ m = m'

section
variable {J : ι → σ → Prop} {P : ι → σ → ε → Prop} {holds : σ → μ → Prop}

/-- Every message that a party holds has been published. -/
def Vouched (holds : σ → μ → Prop) (net : Network ι σ μ) : Prop :=
  ∀ i m, holds (net.parties i) m → ∃ j, (j, m) ∈ net.published

theorem vouched_perform (h : Sourced machines J P holds) (hJ : ∀ i, J i (net.parties i))
    (hv : Vouched holds net) {step : Step ι α}
    (hP : ∀ i e, step.event machines net = some (i, e) → P i (net.parties i) e) :
    Vouched holds (net.perform machines step) := by
  rcases perform_cases machines net step with ⟨i, e, hevent, hnet⟩ | hnet <;> rw [hnet]
  · intro j m hm
    have hold : holds (net.parties j) m → ∃ j, (j, m) ∈ (net.handle machines i e).published := by
      intro hm
      obtain ⟨k, hk⟩ := hv j m hm
      exact ⟨k, (mem_published_handle net i e _).mpr (.inl hk)⟩
    by_cases hj : j = i
    · subst hj
      rw [handle_self] at hm
      cases step with
      | request k a =>
          obtain ⟨rfl, rfl⟩ := Prod.mk.inj (Option.some.inj hevent)
          rcases h.request k _ a m (hJ k) (hP _ _ hevent) hm with hm | hout
          · exact hold hm
          · exact ⟨k, (mem_published_handle net k _ _).mpr (.inr ⟨rfl, hout⟩)⟩
      | deliver k n =>
          obtain ⟨rfl, p, m', hm', hread⟩ := event_deliver hevent
          rcases h.delivery k _ e m m' (hJ k) (hP _ _ hevent) hread hm with hm | rfl
          · exact hold hm
          · exact ⟨p, (mem_published_handle net k _ _).mpr (.inl (List.mem_of_getElem? hm'))⟩
    · rw [handle_other net e hj] at hm
      exact hold hm
  · exact hv

theorem Sourced.vouched (h : Sourced machines J P holds) (hrun : Everywhere machines P net steps)
    (hJ : ∀ i, J i (net.parties i)) (hv : Vouched holds net) :
    Vouched holds (net.after machines steps) := by
  have hboth := Throughout.invariant (I := fun net : Network ι σ μ =>
      (∀ i, J i (net.parties i)) ∧ Vouched holds net)
    (fun net step hI hP => ⟨fun i => ?_, vouched_perform h hI.1 hI.2 hP⟩) hrun ⟨hJ, hv⟩
  · exact hboth.2
  · rcases perform_cases machines net step with ⟨j, e, hevent, hnet⟩ | hnet <;>
      rw [hnet]
    · by_cases hi : i = j
      · subst hi
        rw [handle_self]
        exact h.keeps i _ e (hI.1 i) (hP i e hevent)
      · rw [handle_other net e hi]
        exact hI.1 i
    · exact hI.1 i

end

/-! ## Numbered messages -/

/-- Every party numbers its messages one after the other, and up to `N` the key of a
message tells its party and number. -/
structure Numbered (machines : ι → Machine σ ε α μ) (P : ι → σ → ε → Prop) (count : σ → ℕ)
    (key : μ → κ) (stamp : ι → ℕ → κ) (N : ℕ) : Prop where
  published : ∀ i s e m, P i s e → count s < N → (machines i).output s e = some m →
    key m = stamp i (count s + 1) ∧ count ((machines i).step s e) = count s + 1
  silent : ∀ i s e, P i s e → (machines i).output s e = none →
    count ((machines i).step s e) = count s
  apart : ∀ i j a b, a ≤ N → b ≤ N → stamp i a = stamp j b → i = j ∧ a = b

/-- The numbers given so far. -/
structure Tallied (count : σ → ℕ) (key : μ → κ) (stamp : ι → ℕ → κ) (net : Network ι σ μ) :
    Prop where
  bounded : ∀ i, count (net.parties i) ≤ net.published.length
  stamped : ∀ p ∈ net.published, ∃ k, k ≤ count (net.parties p.1) ∧ key p.2 = stamp p.1 k
  nodup : (net.published.map fun p => key p.2).Nodup

section
variable {P : ι → σ → ε → Prop} {count : σ → ℕ} {key : μ → κ} {stamp : ι → ℕ → κ} {N : ℕ}

theorem tallied_handle (h : Numbered machines P count key stamp N)
    (ht : Tallied count key stamp net) (hN : net.published.length < N) {e : ε}
    (hP : P i (net.parties i) e) : Tallied count key stamp (net.handle machines i e) := by
  have hlt : count (net.parties i) < N := (ht.bounded i).trans_lt hN
  have hother : ∀ j, j ≠ i → count ((net.handle machines i e).parties j) = count (net.parties j) :=
    fun j hj => by rw [handle_other net e hj]
  cases hout : (machines i).output (net.parties i) e with
  | none =>
      have hsame : ∀ j, count ((net.handle machines i e).parties j) = count (net.parties j) := by
        intro j
        by_cases hj : j = i
        · subst hj
          rw [handle_self]
          exact h.silent j _ e hP hout
        · exact hother j hj
      have hpub : (net.handle machines i e).published = net.published := by
        simp [Network.handle, hout]
      refine ⟨fun j => ?_, fun p hp => ?_, by rw [hpub]; exact ht.nodup⟩
      · rw [hsame, hpub]
        exact ht.bounded j
      · rw [hsame]
        exact ht.stamped p (hpub ▸ hp)
  | some m =>
      obtain ⟨hkey, hnext⟩ := h.published i _ e m hP hlt hout
      have hself : count ((net.handle machines i e).parties i) = count (net.parties i) + 1 := by
        rw [handle_self]
        exact hnext
      have hpub : (net.handle machines i e).published = net.published ++ [(i, m)] := by
        simp [Network.handle, hout]
      refine ⟨fun j => ?_, fun p hp => ?_, ?_⟩
      · rw [hpub, List.length_append, List.length_singleton]
        by_cases hj : j = i
        · subst hj
          rw [hself]
          exact Nat.add_le_add_right (ht.bounded j) 1
        · rw [hother j hj]
          exact (ht.bounded j).trans (Nat.le_succ _)
      · rw [hpub, List.mem_append, List.mem_singleton] at hp
        rcases hp with hp | rfl
        · obtain ⟨k, hk, hstamp⟩ := ht.stamped p hp
          refine ⟨k, ?_, hstamp⟩
          by_cases hj : p.1 = i
          · rw [hj] at hk ⊢
            omega
          · rw [hother _ hj]
            exact hk
        · exact ⟨_, hself.ge, hkey⟩
      · rw [hpub, List.map_append, List.nodup_append]
        refine ⟨ht.nodup, List.nodup_singleton _, ?_⟩
        rintro _ hold _ hnew rfl
        obtain ⟨p, hp, hpkey⟩ := List.mem_map.mp hold
        obtain ⟨k, hk, hstamp⟩ := ht.stamped p hp
        have hsame : stamp p.1 k = stamp i (count (net.parties i) + 1) := by
          rw [← hstamp, hpkey, List.mem_singleton.mp hnew, ← hkey]
        have hkN : k ≤ N := hk.trans ((ht.bounded _).trans hN.le)
        obtain ⟨hparty, hnumber⟩ := h.apart _ _ _ _ hkN hlt hsame
        rw [hparty] at hk
        omega

/-- In a run of at most `N` steps no two messages have the same key. -/
theorem Numbered.tallied (h : Numbered machines P count key stamp N)
    (hrun : Everywhere machines P net steps) (hN : net.published.length + steps.length ≤ N)
    (ht : Tallied count key stamp net) : Tallied count key stamp (net.after machines steps) := by
  induction steps using List.reverseRecOn with
  | nil => exact ht
  | append_singleton steps step ih =>
      obtain ⟨hbefore, hlast⟩ := (throughout_concat net steps step).mp hrun
      rw [List.length_append, List.length_singleton] at hN
      have hold := ih hbefore (by omega)
      have hlen := length_published_le machines net steps
      rw [after_concat]
      rcases perform_cases machines (net.after machines steps) step with
        ⟨i, e, hevent, hnet⟩ | hnet <;> rw [hnet]
      · exact tallied_handle h hold (by omega) (hlast i e hevent)
      · exact hold

omit [DecidableEq ι] in
theorem Tallied.eq_of_key (ht : Tallied count key stamp net) {m m' : μ}
    (hm : (i, m) ∈ net.published) (hm' : (j, m') ∈ net.published) (hkey : key m = key m') :
    m = m' :=
  congrArg Prod.snd (List.inj_on_of_nodup_map ht.nodup hm hm' hkey)

omit [DecidableEq ι] in
/-- Two parties that hold messages with one key hold the same message. -/
theorem Tallied.agree (ht : Tallied count key stamp net) {holds : σ → μ → Prop}
    (hv : Vouched holds net) {m m' : μ} (hm : holds (net.parties i) m)
    (hm' : holds (net.parties j) m') (hkey : key m = key m') : m = m' := by
  obtain ⟨p, hp⟩ := hv i m hm
  obtain ⟨q, hq⟩ := hv j m' hm'
  exact ht.eq_of_key hp hq hkey

end

/-! ## Complete delivery -/

/-- A party holds a message with the key of each one that it has published or that has
been delivered to it. -/
structure Retained (machines : ι → Machine σ ε α μ) (J : ι → σ → Prop) (P : ι → σ → ε → Prop)
    (holds : σ → μ → Prop) (key : μ → κ) : Prop where
  keeps : ∀ i s e, J i s → P i s e → J i ((machines i).step s e)
  kept : ∀ i s e m, J i s → P i s e → holds s m → holds ((machines i).step s e) m
  published : ∀ i s e m, J i s → P i s e → (machines i).output s e = some m →
    ∃ m', key m' = key m ∧ holds ((machines i).step s e) m'
  readable : ∀ i m, ∃ e, (machines i).delivery m = some e
  delivered : ∀ i s e m, J i s → P i s e → (machines i).delivery m = some e →
    ∃ m', key m' = key m ∧ holds ((machines i).step s e) m'

section
variable {J : ι → σ → Prop} {P : ι → σ → ε → Prop} {holds : σ → μ → Prop} {key : μ → κ}

theorem Retained.kept_perform (h : Retained machines J P holds key)
    (hJ : ∀ i, J i (net.parties i)) {step : Step ι α}
    (hP : ∀ i e, step.event machines net = some (i, e) → P i (net.parties i) e) {m : μ}
    (hm : holds (net.parties i) m) : holds ((net.perform machines step).parties i) m := by
  rcases perform_cases machines net step with ⟨j, e, hevent, hnet⟩ | hnet <;> rw [hnet]
  · by_cases hi : i = j
    · subst hi
      rw [handle_self]
      exact h.kept i _ e m (hJ i) (hP i e hevent) hm
    · rw [handle_other net e hi]
      exact hm
  · exact hm

/-- What a party has published or been given is still there at the end of the run. -/
theorem Retained.retained (h : Retained machines J P holds key)
    (hrun : Everywhere machines P net steps) (hJ : ∀ i, J i (net.parties i))
    (hnone : net.published = []) {k : ℕ} {m : μ}
    (hm : (net.after machines steps).published[k]? = some (j, m))
    (hcome : j = i ∨ Delivered machines net steps i k) :
    ∃ m', key m' = key m ∧ holds ((net.after machines steps).parties i) m' := by
  induction steps using List.reverseRecOn generalizing j k m with
  | nil =>
      have hm' : net.published[k]? = some (j, m) := hm
      simp [hnone] at hm'
  | append_singleton steps step ih =>
      obtain ⟨hbefore, hlast⟩ := (throughout_concat net steps step).mp hrun
      have hJ' : ∀ i, J i ((net.after machines steps).parties i) :=
        fun i => parties_invariant h.keeps hbefore hJ i
      have hlast : ∀ i e, step.event machines (net.after machines steps) = some (i, e) →
          P i ((net.after machines steps).parties i) e := hlast
      have hsofar : ∀ {j k m}, (net.after machines steps).published[k]? = some (j, m) →
          (j = i ∨ Delivered machines net steps i k) →
            ∃ m', key m' = key m ∧ holds ((net.after machines (steps ++ [step])).parties i) m' := by
        intro j k m hm hcome
        obtain ⟨m', hkey, hold⟩ := ih hbefore hm hcome
        rw [after_concat]
        exact ⟨m', hkey, h.kept_perform hJ' hlast hold⟩
      by_cases hk : k < (net.after machines steps).published.length
      · have hm' : (net.after machines steps).published[k]? = some (j, m) := by
          rw [after_concat, published_perform, List.getElem?_append_left hk] at hm
          exact hm
        rcases hcome with hown | ⟨before, hb, hlen⟩
        · exact hsofar hm' (.inl hown)
        · rcases List.prefix_concat_iff.mp hb with heq | hb
          · -- it is delivered by the last step
            obtain ⟨rfl, hstep⟩ := List.append_inj' heq rfl
            obtain rfl := List.cons.inj hstep |>.1
            obtain ⟨e, he⟩ := h.readable i m
            have hevent : (Step.deliver i k : Step ι α).event machines
                (net.after machines before) = some (i, e) := by
              dsimp only [Step.event]
              rw [hm']
              exact Option.map_eq_some_iff.mpr ⟨e, he, rfl⟩
            rw [after_concat, Network.perform, hevent]
            dsimp only
            rw [handle_self]
            exact h.delivered i _ e m (hJ' i) (hlast i e hevent) he
          · exact hsofar hm' (.inr ⟨before, hb, hlen⟩)
      · -- it is published by the last step
        rw [after_concat] at hm ⊢
        obtain ⟨e, hevent, hout⟩ := output_of_published hm (Nat.not_lt.mp hk)
        rcases hcome with rfl | ⟨before, hb, hlen⟩
        · rw [Network.perform, hevent]
          dsimp only
          rw [handle_self]
          exact h.published j _ e m (hJ' j) (hlast j e hevent) hout
        · -- a delivery comes after its publication
          have hbefore : before <+: steps := by
            rcases List.prefix_concat_iff.mp hb with heq | hb
            · rw [(List.append_inj' heq rfl).1]
            · exact (List.prefix_append before _).trans hb
          have := length_published_mono machines net hbefore
          omega

/-- A party to which everything has come holds exactly what has been published. -/
theorem Retained.holds_iff (h : Retained machines J P holds key)
    (hrun : Everywhere machines P net steps) (hJ : ∀ i, J i (net.parties i))
    (hnone : net.published = []) {count : σ → ℕ} {stamp : ι → ℕ → κ}
    (ht : Tallied count key stamp (net.after machines steps))
    (hv : Vouched holds (net.after machines steps))
    (hall : ∀ k p, (net.after machines steps).published[k]? = some p →
      p.1 = i ∨ Delivered machines net steps i k) (m : μ) :
    holds ((net.after machines steps).parties i) m ↔
      ∃ j, (j, m) ∈ (net.after machines steps).published := by
  constructor
  · exact hv i m
  · rintro ⟨j, hj⟩
    obtain ⟨k, hk⟩ := List.mem_iff_getElem?.mp hj
    obtain ⟨m', hkey, hm'⟩ := h.retained hrun hJ hnone hk (hall k _ hk)
    obtain ⟨j', hj'⟩ := hv i m' hm'
    rwa [← ht.eq_of_key hj' hj hkey]

end

end CertLedger.BroadcastNetwork
