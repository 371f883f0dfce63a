import CertLedger.DagTips

/-!
# A new module over the same storage

The waitlist is kept in memory and nowhere else. A module constructed over the
storage of another one starts with an empty waitlist, and it answers as the
other one would have if and only if no loaded record was waiting there.
-/
namespace CertLedger.DagRestart
open Std TlvCodec FallibleState NdnObjects RecordCodec EdgeStateCodec InterlockPolicies
open OrderedContainers DagEngine DagStates DagSearch DagUpdates DagHarvest DagRefinement DagRuns
open DagTips

/-! ## What callers see -/

inductive Call where
  | add (record : Record)
  | harvestAbove (threshold : ℕ)
  | harvestBelow (threshold : ℕ)
  | getWaitList

inductive Answer where
  | added (name : Name)
  | harvested (records : Finset Record)
  | tips (names : NameSet)
  deriving DecidableEq

/-- The constructor is given the storage; the clock is no part of either module. -/
def constructOver (d : DagModule) : DagModule := { storage := d.storage, ticks := d.ticks }

theorem empty_constructOver (d : DagModule) (k : ℕ) (n : Name) :
    ¬InBucket (constructOver d).waitlist k n := by
  simp [InBucket, constructOver]

section
variable [NdnCxx] (config : DagConfig)

def Call.answer : Call → DagM Answer
  | .add record => do
      let name ← DagEngine.add config record
      return .added name
  | .harvestAbove threshold => do
      let ret ← DagEngine.harvestAbove config threshold true
      return .harvested ret.toFinset
  | .harvestBelow threshold => do
      let ret ← DagEngine.harvestBelow config threshold
      return .harvested ret.toFinset
  | .getWaitList => do
      let names ← DagEngine.getWaitList 0
      return .tips names

def appendAnswer (ret : List Answer) (call : Call) : DagM (List Answer) := do
  let answer ← call.answer config
  return ret ++ [answer]

def answers (calls : List Call) : DagM (List Answer) := calls.foldlM (appendAnswer config) []

variable {config}

/-! ## Two modules that hold the same nodes -/

/-- The second module knows the nodes of the first; pending names may be missing
from its buckets, and nothing else is. -/
structure Follows (d e : DagModule) : Prop where
  clean : Clean e
  same : ∀ n, node e n = node d n
  stored : ∀ n, Stored e n ↔ Stored d n
  listed : ∀ k n, InBucket e.waitlist k n → InBucket d.waitlist k n
  waiting : ∀ k n, (node d n).status ≠ .INITIALIZED → InBucket d.waitlist k n →
    InBucket e.waitlist k n

theorem found_same {d e : DagModule} (h : ∀ n, node e n = node d n) (ptrs : List Name) (a : Name) :
    Found e ptrs a ↔ Found d ptrs a := by
  have hkeep : keep e = keep d := by
    funext n
    simp only [keep, h]
  have hexpand : expand e = expand d := by
    funext n
    simp only [expand, h]
  have hnext : next e = next d := by
    funext n
    simp only [next, h]
  rw [Found, Found, hkeep, hexpand, hnext]

namespace Follows
variable {d e d' e' : DagModule}

theorem loads (h : Follows d e) {r : Record} (hd : Loads config r d d')
    (he : Loads config r e e') : Follows d' e' := by
  have hsame : ∀ n, node e' n = node d' n := by
    intro n
    by_cases hn : n = toStateName r.name
    · rw [hn, he.loaded, hd.loaded, h.same]
    · rw [he.same n hn, hd.same n hn, h.same]
  have hvalue : ∀ n, value config e' n = value config d' n :=
    fun n => value_congr fun x => by rw [hsame]
  refine ⟨he.clean, hsame, ?_, ?_, ?_⟩
  · intro n
    rw [he.stored, hd.stored, h.stored]
  · intro k n
    rw [he.bucket, hd.bucket, hvalue]
    split_ifs with hn
    · exact id
    · exact h.listed k n
  · intro k n
    rw [he.bucket, hd.bucket, hvalue]
    split_ifs with hn
    · exact fun _ => id
    · rw [hd.same n hn]
      exact h.waiting k n

theorem credits (h : Follows d e) {P : Name → Name → Prop} (hd : Credits config P d d')
    (he : Credits config P e e') : Follows d' e' := by
  have hdesc : ∀ n, (node e' n).descendants = (node d' n).descendants := by
    intro n
    apply ExtTreeSet.ext_mem
    intro x
    rw [he.descendants, hd.descendants, h.same]
  have hsame : ∀ n, node e' n = node d' n := by
    intro n
    apply Node.ext
    · rw [he.status, hd.status, h.same]
    · rw [he.record, hd.record, h.same]
    · exact hdesc n
  have hvalue : ∀ n, value config e' n = value config d' n :=
    fun n => value_congr fun x => by rw [hdesc]
  refine ⟨he.clean, hsame, ?_, ?_, ?_⟩
  · intro n
    rw [he.stored, hd.stored, h.stored]
  · intro k n
    by_cases hn : ∃ x, P x n
    · rw [he.moved n hn, hd.moved n hn, hvalue]
      exact id
    · rw [he.unmoved n hn, hd.unmoved n hn]
      exact h.listed k n
  · intro k n
    by_cases hn : ∃ x, P x n
    · rw [he.moved n hn, hd.moved n hn, hvalue]
      exact fun _ => id
    · rw [he.unmoved n hn, hd.unmoved n hn, hd.status]
      exact h.waiting k n

theorem add (h : Follows d e) (hd : Consistent config d) (r : Record) :
    ∃ d' e', exec (DagEngine.add config r) d = (.ok (toStateName r.name), d') ∧
      exec (DagEngine.add config r) e = (.ok (toStateName r.name), e') ∧ Follows d' e' := by
  by_cases hnew : (node d (toStateName r.name)).status = .INITIALIZED
  · have hdesc : ∀ x ∈ (node d (toStateName r.name)).descendants,
        (node d x).status ≠ .INITIALIZED := fun x hx =>
      (abs d).counted_loaded (hd.sound _ hx).1
    obtain ⟨d₁, d', hrun, hl, hc⟩ := exec_add_new config hd.clean hnew hdesc
    obtain ⟨e₁, e', hrun', hl', hc'⟩ := exec_add_new config h.clean (r := r)
      (by rw [h.same]; exact hnew) (by simpa only [h.same] using hdesc)
    have h₁ := h.loads hl hl'
    have hendorses : ∀ x a, Endorses e e₁ r x a ↔ Endorses d d₁ r x a := by
      intro x a
      rw [Endorses, Endorses, h.same, h₁.same, found_same h₁.same]
    exact ⟨d', e', hrun, hrun', h₁.credits hc (hc'.congr hendorses)⟩
  · exact ⟨d, e, hd.add_old hnew, exec_add_old h.clean (by rw [h.same]; exact hnew), h⟩

theorem stored_listed (h : Follows d e) (hd : Consistent config d) {k : ℕ} {n : Name}
    (hn : InBucket e.waitlist k n) : Stored e n :=
  (h.stored n).mpr (hd.bucket k n (h.listed k n hn)).1

theorem mem_harvested (h : Follows d e) (hits : ℕ → Bool) (n : Name) :
    n ∈ harvested e hits e.waitlist.toList ↔ n ∈ harvested d hits d.waitlist.toList := by
  rw [DagHarvest.mem_harvested, DagHarvest.mem_harvested, h.same]
  refine and_congr_right fun hs => exists_congr fun k => and_congr_right fun _ => ?_
  exact ⟨h.listed k n, h.waiting k n hs⟩

theorem records_eq (h : Follows d e) (hits : ℕ → Bool) :
    ((harvested e hits e.waitlist.toList).map fun n => (node e n).record).toFinset =
      ((harvested d hits d.waitlist.toList).map fun n => (node d n).record).toFinset := by
  ext r
  simp only [List.mem_toFinset, List.mem_map, h.mem_harvested, h.same]

theorem harvestAbove (h : Follows d e) (hd : Consistent config d) (t : ℕ) :
    ∃ ret ret' d' e', exec (DagEngine.harvestAbove config t true) d = (.ok ret, d') ∧
      exec (DagEngine.harvestAbove config t true) e = (.ok ret', e') ∧
      ret'.toFinset = ret.toFinset ∧ Follows d' e' := by
  obtain ⟨d', hrun, hl, hb⟩ :=
    exec_harvestAbove config hd.clean (fun k n hn => (hd.bucket k n hn).1) t true
  obtain ⟨e', hrun', hl', hb'⟩ :=
    exec_harvestAbove config h.clean (fun k n hn => h.stored_listed hd hn) t true
  have hpending : ∀ n, (node d n).status ≠ .INITIALIZED ↔ (node d' n).status ≠ .INITIALIZED :=
    fun n => (not_iff_not.mpr (hl.pending n)).symm
  refine ⟨_, _, d', e', hrun, hrun', h.records_eq _, hl'.clean, ?_, ?_, ?_, ?_⟩
  · intro n
    by_cases hn : n ∈ harvested d (t ≤ ·) d.waitlist.toList
    · rw [hl.locked n hn, hl'.locked n ((h.mem_harvested _ n).mpr hn), h.same]
    · rw [hl.same n hn, hl'.same n fun hn' => hn ((h.mem_harvested _ n).mp hn'), h.same]
  · intro n
    rw [hl.stored, hl'.stored, h.stored]
  · intro k n
    rw [hb, hb', h.same]
    exact And.imp_left (h.listed k n)
  · intro k n hs
    rw [hb, hb', h.same]
    exact And.imp_left (h.waiting k n ((hpending n).mpr hs))

end Follows

/-! ## Calls, one after another -/

theorem tipped_with_waitlist {rs : List Record} {d : DagModule} (h : Tipped config rs d)
    {w : ExtTreeMap ℕ NameSet} (hw : ∀ k n, InBucket w k n ↔ InBucket d.waitlist k n) :
    Tipped config rs { d with waitlist := w } where
  reached :=
    { consistent := h.reached.consistent.congr (h.reached.consistent.clean.of_storage rfl)
        (fun _ => rfl) (fun _ => Iff.rfl) hw
      holds := ⟨h.reached.holds.record, h.reached.holds.named⟩
      unlisted := fun hr k n hn => h.reached.unlisted hr k n ((hw k n).mp hn) }
  direct := h.direct
  pending := h.pending

/-- What a run of operations reaches, a single call reaches. -/
theorem tipped_of_perform {rs : List Record} {d d' : DagModule} (h : Tipped config rs d)
    {op : Operation} (hop : op.removes = true) (hrun : exec (op.perform config) d = (.ok (), d')) :
    Tipped config (rs ++ recordsOf [op]) d' := by
  obtain ⟨d'', hrun', hd''⟩ := h.step hop
  obtain rfl : d'' = d' := congrArg Prod.snd (hrun'.symm.trans hrun)
  exact hd''

theorem answer_follows {rs : List Record} {d e : DagModule} (hd : Tipped config rs d)
    (h : Follows d e) (call : Call) :
    ∃ answer rs' d' e', exec (call.answer config) d = (.ok answer, d') ∧
      exec (call.answer config) e = (.ok answer, e') ∧ Tipped config rs' d' ∧ Follows d' e' := by
  have hc := hd.reached.consistent
  cases call with
  | add r =>
      obtain ⟨d', e', hrun, hrun', h'⟩ := h.add hc r
      exact ⟨_, _, d', e', exec_bind_ok hrun, exec_bind_ok hrun',
        tipped_of_perform hd (show (Operation.add r).removes = true from rfl) (exec_bind_ok hrun), h'⟩
  | harvestAbove t =>
      obtain ⟨ret, ret', d', e', hrun, hrun', hret, h'⟩ := h.harvestAbove hc t
      refine ⟨.harvested ret.toFinset, _, d', e', exec_bind_ok hrun, ?_,
        tipped_of_perform hd (show (Operation.harvestAbove t true).removes = true from rfl)
          (exec_bind_ok hrun), h'⟩
      rw [Call.answer, exec_bind_ok hrun', hret, exec_pure]
  | harvestBelow t =>
      refine ⟨_, rs, d, e, exec_bind_ok (hc.harvestBelow t), ?_, hd, h⟩
      rw [Call.answer, exec_bind_ok (exec_harvestBelow h.clean
        (fun k n hn => h.stored_listed hc hn) t), h.records_eq, exec_pure]
  | getWaitList =>
      obtain ⟨names, w, hrun, hnames, hw⟩ := exec_getWaitList d 0
      obtain ⟨names', w', hrun', hnames', hw'⟩ := exec_getWaitList e 0
      have hloaded : ∀ n, InBucket d.waitlist 0 n → (node d n).status ≠ .INITIALIZED := by
        intro n hn
        simp [((hd.bucket_zero n).mp hn).1]
      have heq : names' = names := by
        apply ExtTreeSet.ext_mem
        intro n
        rw [hnames', hnames]
        exact ⟨h.listed 0 n, fun hn => h.waiting 0 n (hloaded n hn) hn⟩
      refine ⟨.tips names, rs, { d with waitlist := w }, { e with waitlist := w' },
        exec_bind_ok hrun, ?_, tipped_with_waitlist hd hw,
        h.clean.of_storage rfl, h.same, h.stored, ?_, ?_⟩
      · rw [Call.answer, exec_bind_ok hrun', heq, exec_pure]
      · exact fun k n hn => (hw k n).mpr (h.listed k n ((hw' k n).mp hn))
      · exact fun k n hs hn => (hw' k n).mpr (h.waiting k n hs ((hw k n).mp hn))

theorem exec_appendAnswer {call : Call} {answer : Answer} {d d' : DagModule}
    (h : exec (call.answer config) d = (.ok answer, d')) (ret : List Answer) :
    exec (appendAnswer config ret call) d = (.ok (ret ++ [answer]), d') := by
  rw [appendAnswer, exec_bind_ok h, exec_pure]

theorem answers_follow (calls : List Call) (ret : List Answer) {rs : List Record}
    {d e : DagModule} (hd : Tipped config rs d) (h : Follows d e) :
    ∃ given rs' d' e', exec (calls.foldlM (appendAnswer config) ret) d = (.ok given, d') ∧
      exec (calls.foldlM (appendAnswer config) ret) e = (.ok given, e') ∧
      Tipped config rs' d' := by
  induction calls generalizing rs d e ret with
  | nil => exact ⟨ret, rs, d, e, rfl, rfl, hd⟩
  | cons call calls ih =>
      obtain ⟨answer, rs', d', e', hrun, hrun', hd', h'⟩ := answer_follows hd h call
      obtain ⟨given, rs'', d'', e'', hrest, hrest', hd''⟩ := ih (ret ++ [answer]) hd' h'
      refine ⟨given, rs'', d'', e'', ?_, ?_, hd''⟩
      · rw [List.foldlM_cons, exec_bind_ok (exec_appendAnswer hrun ret), hrest]
      · rw [List.foldlM_cons, exec_bind_ok (exec_appendAnswer hrun' ret), hrest']

theorem follows_refl {d : DagModule} (h : Clean d) : Follows d d where
  clean := h
  same _ := rfl
  stored _ := Iff.rfl
  listed _ _ := id
  waiting _ _ _ := id

/-- Nothing is missing from the waitlist of a new module when nothing waits. -/
theorem follows_constructOver {rs : List Record} {d : DagModule} (hd : Tipped config rs d)
    (h : ∀ n s, stateAt d n = some s → s.status ≠ .LOADED) : Follows d (constructOver d) where
  clean := hd.reached.consistent.clean.of_storage rfl
  same _ := rfl
  stored _ := Iff.rfl
  listed k n hn := (empty_constructOver d k n hn).elim
  waiting k n hs hn := by
    obtain ⟨s, hst⟩ := Option.isSome_iff_exists.mp (stored_of_status hs)
    have hnode := node_of_stateAt hst
    have hopen := hd.reached.unlisted trivial k n hn
    have hwait := h n s hst
    rw [hnode] at hs hopen
    cases hstatus : s.status with
    | INITIALIZED => exact (hs hstatus).elim
    | LOADED => exact (hwait hstatus).elim
    | INTERLOCKED => exact (hopen hstatus).elim

/-- The harvest from zero up answers with the records of the loaded states, and a new module
has none. -/
theorem no_loaded_of_harvest {rs : List Record} {d : DagModule} (hd : Tipped config rs d)
    (h : (exec (answers config [.harvestAbove 0]) (constructOver d)).1 =
      (exec (answers config [.harvestAbove 0]) d).1) (n : Name) (s : EdgeState)
    (hs : stateAt d n = some s) : s.status ≠ .LOADED := by
  intro hloaded
  have hc := hd.reached.consistent
  have hstatus : (node d n).status = .LOADED := by
    rw [node_of_stateAt hs]
    exact hloaded
  obtain ⟨d', habove, -, -⟩ := hc.harvestAbove 0 true
  obtain ⟨e', habove', -, -⟩ := exec_harvestAbove config (d := constructOver d)
    (hc.clean.of_storage rfl) (fun k n hn => (empty_constructOver d k n hn).elim) 0 true
  have hanswer : ∀ {e e' : DagModule} {ret : List Record},
      exec (harvestAbove config 0 true) e = (.ok ret, e') →
      exec (answers config [.harvestAbove 0]) e = (.ok [.harvested ret.toFinset], e') :=
    fun hrun => exec_bind_ok (exec_appendAnswer (exec_bind_ok hrun) [])
  rw [hanswer habove, hanswer habove'] at h
  simp only [Except.ok.injEq, List.cons.injEq, Answer.harvested.injEq, and_true] at h
  have hwaits : ∃ k, decide (0 ≤ k) = true ∧ InBucket d.waitlist k n :=
    ⟨_, decide_eq_true (Nat.zero_le _), hc.waiting n (by simp [Stored, hs]) (by simp [hstatus])⟩
  have hmem : (node d n).record ∈
      ((harvested d (0 ≤ ·) d.waitlist.toList).map fun n => (node d n).record).toFinset := by
    rw [List.mem_toFinset]
    exact List.mem_map_of_mem (DagHarvest.mem_harvested.mpr ⟨by simp [hstatus], hwaits⟩)
  rw [← h, List.mem_toFinset, List.mem_map] at hmem
  obtain ⟨m, hm, -⟩ := hmem
  obtain ⟨-, k, -, hin⟩ := DagHarvest.mem_harvested.mp hm
  exact empty_constructOver d k m hin

/-- A new module answers every sequence of calls as the old one if and only if
no loaded record waits at its construction. -/
theorem restart_transparent_iff (calls : List Call) :
    ∃ given d, exec (answers config calls) {} = (.ok given, d) ∧
      ((∀ rest, (exec (answers config rest) (constructOver d)).1 =
          (exec (answers config rest) d).1) ↔
        ∀ n s, stateAt d n = some s → s.status ≠ .LOADED) := by
  obtain ⟨given, rs, d, -, hrun, -, hd⟩ :=
    answers_follow calls [] (tipped_empty : Tipped config [] {}) (follows_refl Clean.empty)
  refine ⟨given, d, hrun, fun h => no_loaded_of_harvest hd (h [.harvestAbove 0]), fun h rest => ?_⟩
  obtain ⟨later, -, d', e', hrest, hrest', -⟩ :=
    answers_follow rest [] hd (follows_constructOver hd h)
  unfold answers
  rw [hrest, hrest']

end

section
open PlainNdn

local instance : NdnCxx := plainNdn []

def answersNoTip : Except Error (List Answer) → Bool
  | .ok [.tips names] => names.isEmpty
  | _ => true

/-- A tip is lost with the module that knew it. -/
theorem restart_forgets :
    ¬ ∀ (config : DagConfig) (calls rest : List Call) (given : List Answer) (d : DagModule),
      exec (answers config calls) {} = (.ok given, d) →
      (exec (answers config rest) (constructOver d)).1 = (exec (answers config rest) d).1 := by
  intro h
  have hsplit := h ⟨.descendants, fun i => 1000 * i⟩ [.add { name := [Name.keyword [65]] }]
    [.getWaitList] [.added (toStateName [Name.keyword [65]])]
    (exec (answers ⟨.descendants, fun i => 1000 * i⟩ [.add { name := [Name.keyword [65]] }]) {}).2
    (exec_eq_of_toOption (by decide +kernel))
  exact absurd (congrArg answersNoTip hsplit) (by decide +kernel)

end

end CertLedger.DagRestart
