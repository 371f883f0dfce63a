import CertLedger.PlainNdn
import CertLedger.RecordChecker
import Mathlib.Data.Finset.Range

/-!
# What a check is told about a content

The Data of a content are validated in order. Every refusal is told, and a success is
told with every pass that finds the counter at the number of Data or above. So a check
is told once and rightly if there is Data, not too much of it for the counter, and at
most one of them is refused.
-/
namespace CertLedger.CheckerVerdicts
open TlvCodec FallibleState NdnObjects NdnPackets RecordChecker PlainNdn

/-! ## The counter of passed Data -/

/-- Of the first `m` passes, those that leave the counter at the target `n` or above. -/
def completing (n m : ℕ) : Finset ℕ :=
  (Finset.range m).filter fun k => ¬UInt32.ofNat (k + 1) < UInt32.ofNat n

theorem mem_completing {n m k : ℕ} :
    k ∈ completing n m ↔ k < m ∧ n % 2 ^ 32 ≤ (k + 1) % 2 ^ 32 := by
  rw [completing, Finset.mem_filter, Finset.mem_range, UInt32.lt_iff_toNat_lt,
    UInt32.toNat_ofNat', UInt32.toNat_ofNat', not_lt]

theorem card_completing_succ (n m : ℕ) :
    (completing n (m + 1)).card = (completing n m).card +
      if UInt32.ofNat (m + 1) < UInt32.ofNat n then 0 else 1 := by
  rw [completing, Finset.range_add_one, Finset.filter_insert]
  split_ifs with hlt
  · rfl
  · rw [Finset.card_insert_of_notMem (by simp)]
    rfl

/-- Below `2 ^ 32` no pass but the last of all completes the counter. -/
theorem completing_eq {n m : ℕ} (hlength : n < 2 ^ 32) (hm : m ≤ n) :
    completing n m = if m = n ∧ 0 < n then {n - 1} else ∅ := by
  ext k
  rw [mem_completing]
  split_ifs with hall
  · rw [Finset.mem_singleton]
    omega
  · simp only [Finset.notMem_empty, iff_false]
    omega

/-- From `2 ^ 32` on a pass with the largest number completes it as well. -/
theorem completing_of_long {n m : ℕ} (hlength : 2 ^ 32 ≤ n) (hm : n ≤ m + 1) :
    2 ^ 32 - 2 ∈ completing n m := by
  rw [mem_completing]
  omega

theorem last_completing {n : ℕ} (hn : 0 < n) : n - 1 ∈ completing n n := by
  rw [mem_completing]
  refine ⟨by omega, ?_⟩
  rw [Nat.sub_add_cancel hn]

/-- With at most one refusal too many Data complete the counter more than once, or once
beside the refusal. -/
theorem two_le_of_long {n m : ℕ} (hlength : 2 ^ 32 ≤ n) (hle : m ≤ n) (hm : n ≤ m + 1) :
    2 ≤ (completing n m).card + (n - m) := by
  have hfirst := completing_of_long hlength hm
  by_cases hall : m = n
  · subst hall
    have htwo := Finset.one_lt_card.mpr
      ⟨_, hfirst, _, last_completing (by omega), by omega⟩
    omega
  · have hone := Finset.card_pos.mpr ⟨_, hfirst⟩
    omega

/-- How many of the first `n` Data the validator refuses. -/
def refused (verdict : ℕ → Option String) (n : ℕ) : ℕ :=
  (List.range n).countP fun k => (verdict k).isSome

theorem refused_eq_zero {verdict : ℕ → Option String} {n : ℕ} :
    refused verdict n = 0 ↔ ∀ k < n, verdict k = none := by
  simp [refused]

theorem passes_add_refusals (verdicts : List (Option String)) :
    verdicts.count none + verdicts.countP Option.isSome = verdicts.length := by
  rw [List.length_eq_countP_add_countP Option.isNone, List.count]
  congr 1
  · exact List.countP_congr fun v _ => by cases v <;> simp
  · exact List.countP_congr fun v _ => by cases v <;> simp

/-! ## The reports of a validation -/

section
variable [NdnCxx]

def isSuccess : Report → Bool
  | .success _ _ _ => true
  | .failure _ _ _ => false

/-- The reports of a check on a content: `s` successes and `r` refusals, in any order. -/
structure Told (state : CheckerState) (block : Block) (told : List Report) (s r : ℕ) : Prop where
  own : ∀ report ∈ told, report = .success state.callbacks state.data block ∨
    ∃ info, report = .failure state.callbacks state.data (.validation info)
  successes : told.countP isSuccess = s
  length : told.length = s + r

variable {state : CheckerState} {block : Block} {told : List Report} {s r : ℕ}

theorem told_nil : Told state block [] 0 0 := ⟨by simp, rfl, rfl⟩

theorem Told.success (h : Told state block told s r) :
    Told state block (.success state.callbacks state.data block :: told) (s + 1) r where
  own := List.forall_mem_cons.mpr ⟨.inl rfl, h.own⟩
  successes := by rw [List.countP_cons, h.successes]; rfl
  length := by rw [List.length_cons, h.length]; omega

theorem Told.refusal (h : Told state block told s r) (info : String) :
    Told state block (.failure state.callbacks state.data (.validation info) :: told) s
      (r + 1) where
  own := List.forall_mem_cons.mpr ⟨.inr ⟨info, rfl⟩, h.own⟩
  successes := by rw [List.countP_cons, h.successes]; rfl
  length := by rw [List.length_cons, h.length]; omega

theorem exec_onSuccess (world : List Report) : exec (onSuccess state block) world =
    (.ok (), world ++ [.success state.callbacks state.data block]) := rfl

theorem exec_onFailure (error : Failure) (world : List Report) :
    exec (onFailure state error) world =
      (.ok (), world ++ [.failure state.callbacks state.data error]) := rfl

/-- The loop after `m` passes. Induction on the verdicts that are left. -/
theorem exec_validateFrom (state : CheckerState) (block : Block) (n : ℕ)
    (verdicts : List (Option String)) (m : ℕ) (world : List Report) :
    ∃ told s, exec (validateFrom (onSuccess state block)
        (fun info => onFailure state (.validation info)) (UInt32.ofNat n) verdicts
        (UInt32.ofNat m)) world = (.ok (), world ++ told) ∧
      Told state block told s (verdicts.countP Option.isSome) ∧
      (completing n (m + verdicts.count none)).card = (completing n m).card + s := by
  induction verdicts generalizing m world with
  | nil => exact ⟨[], 0, by simp [validateFrom], told_nil, rfl⟩
  | cons verdict verdicts ih =>
      cases verdict with
      | none =>
          have hnext : UInt32.ofNat m + 1 = UInt32.ofNat (m + 1) := by
            rw [UInt32.ofNat_add]
            rfl
          have hcount : m + (none :: verdicts).count none = (m + 1) + verdicts.count none := by
            rw [List.count_cons_self]
            omega
          have hcard := card_completing_succ n m
          rw [validateFrom, hnext, hcount]
          split_ifs with hlt
          · rw [if_pos hlt] at hcard
            obtain ⟨told, s, hrun, htold, hsum⟩ := ih (m + 1) world
            exact ⟨told, s, hrun, htold, hsum.trans (by rw [hcard]; rfl)⟩
          · rw [if_neg hlt] at hcard
            obtain ⟨told, s, hrun, htold, hsum⟩ := ih (m + 1)
              (world ++ [.success state.callbacks state.data block])
            rw [exec_bind_ok (exec_onSuccess world)]
            refine ⟨_, s + 1, hrun.trans ?_, htold.success, by omega⟩
            rw [List.append_assoc]
            rfl
      | some info =>
          have hcount : (some info :: verdicts).count none = verdicts.count none :=
            List.count_cons_of_ne (by simp)
          obtain ⟨told, s, hrun, htold, hsum⟩ := ih m
            (world ++ [.failure state.callbacks state.data (.validation info)])
          rw [validateFrom, hcount, List.countP_cons_of_pos rfl,
            exec_bind_ok (exec_onFailure (.validation info) world)]
          refine ⟨_, _, hrun.trans ?_, htold.refusal info, hsum⟩
          rw [List.append_assoc]
          rfl

/-! ## One verdict -/

/-- One callback is called, once: the one for a success just if the content has passed. -/
def OneVerdict (state : CheckerState) (block : Block) (passed : Prop) (told : List Report) : Prop :=
  (passed ∧ told = [.success state.callbacks state.data block]) ∨
    (¬passed ∧ ∃ info, told = [.failure state.callbacks state.data (.validation info)])

theorem OneVerdict.length {passed : Prop} (h : OneVerdict state block passed told) :
    told.length = 1 := by
  rcases h with ⟨-, rfl⟩ | ⟨-, info, rfl⟩ <;> rfl

/-- A single report is the right one if it is a success just where the content has passed. -/
theorem Told.oneVerdict (h : Told state block told s r) {passed : Prop} (hone : s + r = 1)
    (hpassed : passed ↔ s = 1) :
    OneVerdict state block passed told := by
  obtain ⟨report, rfl⟩ := List.length_eq_one_iff.mp (h.length.trans hone)
  have hcount := h.successes
  rcases h.own report (List.mem_singleton_self report) with rfl | ⟨info, rfl⟩
  · exact .inl ⟨hpassed.mpr hcount.symm, rfl⟩
  · refine .inr ⟨fun hp => ?_, info, rfl⟩
    have hnone : s = 0 := hcount.symm
    have hsome := hpassed.mp hp
    omega

/-- A check is told once and rightly about a content if and only if the content holds
Data, fewer than `2 ^ 32`, of which at most one is refused. -/
theorem one_verdict_iff {content : Block} {dataVector : List Data}
    (h : decodeContent content = .ok dataVector) (verdict : ℕ → Option String)
    (state : CheckerState) (world : List Report) :
    ∃ told, exec (onContent verdict state content) world = (.ok (), world ++ told) ∧
      (OneVerdict state content (dataVector ≠ [] ∧ ∀ k < dataVector.length, verdict k = none)
          told ↔
        dataVector ≠ [] ∧ dataVector.length < 2 ^ 32 ∧
          refused verdict dataVector.length ≤ 1) := by
  obtain ⟨told, s, hrun, htold, hsum⟩ := exec_validateFrom state content dataVector.length
    ((List.range dataVector.length).map verdict) 0 world
  have hdecoded : exec (lift (decodeContent content)) world = (.ok dataVector, world) := by
    rw [h, exec_lift]
  refine ⟨told, (exec_bind_ok hdecoded).trans hrun, ?_⟩
  have hpasses := passes_add_refusals ((List.range dataVector.length).map verdict)
  rw [List.length_map, List.length_range] at hpasses
  have hrefused : ((List.range dataVector.length).map verdict).countP Option.isSome =
      refused verdict dataVector.length := List.countP_map
  rw [hrefused] at hpasses htold
  have hnonempty : dataVector ≠ [] ↔ 0 < dataVector.length := List.length_pos_iff.symm
  rw [hnonempty, ← refused_eq_zero]
  generalize ((List.range dataVector.length).map verdict).count none = m at hpasses hsum
  generalize refused verdict dataVector.length = r at hpasses htold
  generalize dataVector.length = n at hpasses hsum
  have hzero : (completing n 0).card = 0 := rfl
  rw [hzero, Nat.zero_add, Nat.zero_add] at hsum
  constructor
  · intro hone
    have hlength := htold.length.symm.trans hone.length
    refine ⟨?_, ?_, by omega⟩
    · by_contra hn
      obtain rfl : m = 0 := by omega
      omega
    · by_contra hlong
      have htwo := two_le_of_long (m := m) (not_lt.mp hlong) (by omega) (by omega)
      omega
  · rintro ⟨hn, hlong, hrefusals⟩
    have hcard : (completing n m).card = if m = n ∧ 0 < n then 1 else 0 := by
      rw [completing_eq hlong (by omega)]
      split_ifs <;> rfl
    rw [hsum] at hcard
    split_ifs at hcard with hall
    · exact htold.oneVerdict (by omega) (by omega)
    · exact htold.oneVerdict (by omega) (by omega)

theorem readContent_wire (dataVector : List Data) (data : Data) :
    readContent dataVector data.wire = .ok (dataVector ++ [data]) := by
  rw [readContent, if_pos data.wire_type, data.ofBlock_wire]
  rfl

/-- A content that is put together from Data gives them back. -/
theorem decodeContent_wires {content : Block} {dataVector : List Data}
    (h : content.value = wireAll (dataVector.map Data.wire)) :
    decodeContent content = .ok dataVector := by
  have hread : ∀ (rest done : List Data),
      (rest.map Data.wire).foldlM readContent done = .ok (done ++ rest) := by
    intro rest
    induction rest with
    | nil => exact fun done => congrArg Except.ok (List.append_nil done).symm
    | cons data rest ih =>
        intro done
        rw [List.map_cons, List.foldlM_cons, readContent_wire]
        exact (ih (done ++ [data])).trans (by rw [List.append_assoc]; rfl)
  rw [decodeContent, Block.elements_wireAll h]
  exact hread dataVector []

end

/-! ## Contents with no verdict and with two -/

section
local instance : NdnCxx := plainNdn packetDigests

/-- A content made of copies of one packet. -/
def copies (n : ℕ) : Block :=
  ⟨tlvContent, wireAll ((List.replicate n (packetData nameA [1])).map Data.wire), tlvContent_pos,
    tlvContent_lt⟩

def checkA : CheckerState := { data := packetData nameA [1], callbacks := 0 }

theorem one_verdict_copy : ∃ told,
    exec (onContent (fun _ => none) checkA (copies 1)) [] = (.ok (), told) ∧
      told.length = 1 := by
  have hdecoded : decodeContent (copies 1) = .ok [packetData nameA [1]] :=
    decodeContent_wires rfl
  obtain ⟨told, hrun, hone⟩ := one_verdict_iff hdecoded (fun _ => none) checkA []
  exact ⟨told, hrun, (hone.mpr ⟨by decide, by decide, by decide⟩).length⟩

/-- Nothing is told about a content without Data, and two refusals are told as two failures.
Neither is one verdict, whatever it should be. -/
theorem no_verdict_and_two :
    decodeContent (copies 0) = .ok [] ∧
      exec (onContent (fun _ => none) checkA (copies 0)) [] = (.ok (), []) ∧
      (∀ passed, ¬OneVerdict checkA (copies 0) passed []) ∧
    decodeContent (copies 2) = .ok (List.replicate 2 (packetData nameA [1])) ∧
      ∃ told, exec (onContent (fun _ => some "refused") checkA (copies 2)) [] = (.ok (), told) ∧
        told = List.replicate 2 (.failure 0 (packetData nameA [1]) (.validation "refused")) ∧
        ∀ passed, ¬OneVerdict checkA (copies 2) passed told := by
  have hnone : decodeContent (copies 0) = .ok [] := decodeContent_wires rfl
  have htwo : decodeContent (copies 2) = .ok (List.replicate 2 (packetData nameA [1])) :=
    decodeContent_wires rfl
  refine ⟨hnone, ?_, fun passed h => absurd h.length (by decide), htwo, _, ?_, rfl,
    fun passed h => absurd h.length (by decide)⟩
  · rw [onContent, hnone]
    rfl
  · rw [onContent, htwo]
    rfl

end

end CertLedger.CheckerVerdicts
