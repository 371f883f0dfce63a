import CertLedger.InterlockPolicies
import Mathlib.Logic.Relation

/-!
# What a list of records says

The graph that records form by their names and pointers, whatever has been
stored of it, and two kinds of arrival order.
-/
namespace CertLedger.RecordGraph
open NdnObjects RecordCodec EdgeStateCodec InterlockPolicies Relation

/-- The first record of a name is the one that counts. -/
def recordOf (rs : List Record) (n : Name) : Option Record := rs.find? (·.name = n)

/-- A pointer of the record named `x`. -/
def Points (rs : List Record) (x y : Name) : Prop := ∃ r, recordOf rs x = some r ∧ y ∈ r.pointers

/-- A non-genesis record that reaches `a` through records of the list. -/
def Endorses (rs : List Record) (x a : Name) : Prop :=
  (∃ r, recordOf rs x = some r ∧ r.isGenesis = false) ∧ TransGen (Points rs) x a

open Classical in
/-- The state names of the records that endorse `a`. -/
noncomputable def endorsers (rs : List Record) (a : Name) : Finset Name :=
  ((rs.map (·.name)).toFinset.filter (Endorses rs · a)).image toStateName

/-- No record reaches itself, but for a genesis record that points to itself. -/
def Acyclic (rs : List Record) : Prop :=
  ∀ n, ¬TransGen (fun x y => ∃ r ∈ rs, r.name = x ∧ y ∈ r.pointers ∧
    ¬(r.isGenesis = true ∧ y = x)) n n

/-- A path with some loops taken out of it ends where it did, unless it only looped. -/
theorem transGen_unlooped {N : Type} {R : N → N → Prop} {G : N → Prop} {x y : N}
    (h : TransGen R x y) :
    TransGen (fun u v => R u v ∧ ¬(G u ∧ v = u)) x y ∨ (x = y ∧ G x) := by
  induction h with
  | @single b hxy =>
      by_cases hloop : G x ∧ b = x
      · exact .inr ⟨hloop.2.symm, hloop.1⟩
      · exact .inl (.single ⟨hxy, hloop⟩)
  | @tail b c _ hbc ih =>
      by_cases hloop : G b ∧ c = b
      · rwa [hloop.2]
      · rcases ih with ih | ⟨rfl, -⟩
        · exact .inl (ih.tail ⟨hbc, hloop⟩)
        · exact .inl (.single ⟨hbc, hloop⟩)

/-- Pointers that lower a rank close no cycle. -/
theorem acyclic_of_rank {rs : List Record} (rank : Name → ℕ)
    (h : ∀ r ∈ rs, ∀ y ∈ r.pointers, ¬(r.isGenesis = true ∧ y = r.name) →
      rank y < rank r.name) : Acyclic rs := by
  intro n hn
  suffices H : ∀ m, TransGen (fun x y => ∃ r ∈ rs, r.name = x ∧ y ∈ r.pointers ∧
      ¬(r.isGenesis = true ∧ y = x)) n m → rank m < rank n from lt_irrefl _ (H n hn)
  intro m hm
  induction hm with
  | single hm =>
      obtain ⟨r, hr, rfl, hy, hne⟩ := hm
      exact h r hr _ hy hne
  | tail _ hbc ih =>
      obtain ⟨r, hr, rfl, hy, hne⟩ := hbc
      exact (h r hr _ hy hne).trans ih

theorem recordOf_name {rs : List Record} {n : Name} {r : Record} (h : recordOf rs n = some r) :
    r.name = n := by
  simpa using List.find?_some h

theorem recordOf_mem {rs : List Record} {n : Name} {r : Record} (h : recordOf rs n = some r) :
    r ∈ rs := List.mem_of_find?_eq_some h

theorem recordOf_append (rs : List Record) (r : Record) (n : Name) :
    recordOf (rs ++ [r]) n = (recordOf rs n).or (if r.name = n then some r else none) := by
  unfold recordOf
  rw [List.find?_append, List.find?_singleton]
  simp

theorem recordOf_eq_some {rs : List Record} (h : (rs.map (·.name)).Nodup) {n : Name} {r : Record} :
    recordOf rs n = some r ↔ r ∈ rs ∧ r.name = n := by
  refine ⟨fun hr => ⟨recordOf_mem hr, recordOf_name hr⟩, ?_⟩
  rintro ⟨hr, hn⟩
  have hsome : (recordOf rs n).isSome := by
    rw [recordOf, List.find?_isSome]
    exact ⟨r, hr, by simpa using hn⟩
  obtain ⟨s, hs⟩ := Option.isSome_iff_exists.mp hsome
  have hrs : r = s := List.inj_on_of_nodup_map h hr (recordOf_mem hs)
    (hn.trans (recordOf_name hs).symm)
  rw [hs, hrs]

theorem recordOf_perm {rs ss : List Record} (h : rs.Perm ss) (hn : (rs.map (·.name)).Nodup) :
    recordOf rs = recordOf ss := by
  funext n
  ext r
  rw [recordOf_eq_some hn, recordOf_eq_some ((h.map _).nodup_iff.mp hn), h.mem_iff]

theorem mem_endorsers {rs : List Record} {a u : Name} :
    u ∈ endorsers rs a ↔ ∃ x, u = toStateName x ∧ Endorses rs x a := by
  simp only [endorsers, Finset.mem_image, Finset.mem_filter, List.mem_toFinset, List.mem_map]
  constructor
  · rintro ⟨x, ⟨_, hx⟩, hu⟩
    exact ⟨x, hu.symm, hx⟩
  · rintro ⟨x, hu, hx⟩
    obtain ⟨⟨r, hr, -⟩, -⟩ := id hx
    exact ⟨x, ⟨⟨r, recordOf_mem hr, recordOf_name hr⟩, hx⟩, hu.symm⟩

theorem endorsers_congr {rs ss : List Record} (h : recordOf rs = recordOf ss) :
    endorsers rs = endorsers ss := by
  have hp : Points rs = Points ss := by
    funext x y
    rw [Points, h, Points]
  funext a
  ext u
  simp only [mem_endorsers, Endorses, hp, h]

/-- A record that endorses itself closes a cycle. -/
theorem Acyclic.not_endorses {rs : List Record} (h : Acyclic rs) (n : Name) :
    ¬Endorses rs n n := by
  rintro ⟨⟨r, hr, hg⟩, hn⟩
  rcases transGen_unlooped (G := fun u => ∃ q, recordOf rs u = some q ∧ q.isGenesis = true) hn with
    hcycle | ⟨-, q, hq, hgq⟩
  · refine h n (TransGen.mono (fun u v huv => ?_) n n hcycle)
    obtain ⟨⟨q, hq, hv⟩, hloop⟩ := huv
    exact ⟨q, recordOf_mem hq, recordOf_name hq, hv, fun hl => hloop ⟨⟨q, hq, hl.1⟩, hl.2⟩⟩
  · obtain rfl : q = r := Option.some.inj (hq.symm.trans hr)
    rw [hg] at hgq
    cases hgq

/-! ## Arrival orders -/

/-- Every record has a fresh name and points to records that came before it; a
genesis record may also point to itself. -/
def InOrderAfter (us : List Record) : List Record → Prop
  | [] => True
  | r :: rs => recordOf us r.name = none ∧
      (∀ p ∈ r.pointers, (recordOf us p).isSome ∨ (r.isGenesis = true ∧ p = r.name)) ∧
      InOrderAfter (us ++ [r]) rs

def InOrder (rs : List Record) : Prop := InOrderAfter [] rs

instance decidableInOrderAfter : (us rs : List Record) → Decidable (InOrderAfter us rs)
  | _, [] => inferInstanceAs (Decidable True)
  | us, r :: rs =>
      have := decidableInOrderAfter (us ++ [r]) rs
      inferInstanceAs (Decidable (_ ∧ _ ∧ _))

instance (rs : List Record) : Decidable (InOrder rs) := inferInstanceAs (Decidable (InOrderAfter _ _))

/-- A record that its policy value takes to the threshold has by then all the
records it reaches before it or with it. -/
def Timely (policy : InterlockPolicy) (t : ℕ) (rs : List Record) : Prop :=
  ∀ us, us <+: rs → ∀ p, (recordOf us p).isSome → t ≤ policy.value (endorsers us p) →
    ∀ a, TransGen (Points us) p a → (recordOf us a).isSome

theorem InOrderAfter.append {us rs ss : List Record} :
    InOrderAfter us (rs ++ ss) ↔ InOrderAfter us rs ∧ InOrderAfter (us ++ rs) ss := by
  induction rs generalizing us with
  | nil => simp [InOrderAfter]
  | cons r rs ih =>
      simp only [List.cons_append, InOrderAfter, ih, List.append_assoc, List.nil_append]
      tauto

theorem InOrder.initial {us rs : List Record} (h : InOrder rs) (hus : us <+: rs) : InOrder us := by
  obtain ⟨vs, rfl⟩ := hus
  exact (InOrderAfter.append.mp h).1

theorem InOrderAfter.nodup {us rs : List Record} (h : InOrderAfter us rs)
    (hus : (us.map (·.name)).Nodup) : ((us ++ rs).map (·.name)).Nodup := by
  induction rs generalizing us with
  | nil => simpa using hus
  | cons r rs ih =>
      have := ih h.2.2 (by
        rw [List.map_append, List.map_singleton, List.nodup_append]
        refine ⟨hus, by simp, ?_⟩
        intro a ha b hb he
        obtain ⟨q, hq, rfl⟩ := List.mem_map.mp ha
        have hb' : b = r.name := by simpa using hb
        have hnone := List.find?_eq_none.mp h.1 q hq
        exact hnone (by simpa using he.trans hb'))
      simpa using this

/-- Every pointer leads to a record of the list. -/
theorem InOrder.closed {rs : List Record} (h : InOrder rs) {x y : Name} (hxy : Points rs x y) :
    (recordOf rs y).isSome := by
  suffices H : ∀ (ss us : List Record), InOrderAfter us ss →
      (∀ x y, Points us x y → (recordOf us y).isSome) →
      ∀ x y, Points (us ++ ss) x y → (recordOf (us ++ ss) y).isSome from
    H rs [] h (fun x y hnone => by obtain ⟨r, hr, -⟩ := hnone; simp [recordOf] at hr) x y hxy
  intro ss
  induction ss with
  | nil =>
      intro us _ hus
      simpa using hus
  | cons r ss ih =>
      rintro us ⟨hfresh, hptrs, hrest⟩ hus
      have hstep := ih (us ++ [r]) hrest (by
        rintro x y ⟨s, hs, hy⟩
        rw [recordOf_append] at hs ⊢
        by_cases hx : recordOf us x = none
        · rw [hx, Option.none_or] at hs
          split_ifs at hs with hrx
          obtain rfl : r = s := Option.some.inj hs
          rcases hptrs y hy with hy' | ⟨-, hy'⟩
          · simp [Option.isSome_or, hy']
          · simp [hy', hfresh]
        · obtain ⟨v, hv⟩ := Option.ne_none_iff_exists'.mp hx
          rw [hv, Option.some_or] at hs
          obtain rfl : v = s := Option.some.inj hs
          simp [Option.isSome_or, hus x y ⟨v, hv, hy⟩])
      simpa using hstep

theorem InOrder.timely {policy : InterlockPolicy} {t : ℕ} {rs : List Record} (h : InOrder rs) :
    Timely policy t rs := by
  intro us hus p _ _ a hpa
  cases hpa with
  | single hpa => exact (h.initial hus).closed hpa
  | tail _ hba => exact (h.initial hus).closed hba

end CertLedger.RecordGraph
