import Mathlib.Data.Set.Insert
import Mathlib.Logic.Relation
import Mathlib.Order.WellFoundedSet

/-!
# Endorsement in a growing graph

Nodes are loaded one at a time, in any order, each with its edges. A counted
node endorses everything it reaches. Every node keeps the set of endorsers it
has been given; a node that is locked takes no more, and the search that hands
out endorsements does not go through locked nodes.

The sets are sound in every run. They are exact on the nodes that are not locked
as long as everything a locked node reaches is locked too. Locking all nodes
whose endorsers are enough keeps that closure whenever what they reach is
loaded; then the locked nodes depend on the graph alone.
-/
namespace CertLedger.EndorsementDag
open Relation

variable {N : Type}

@[ext] structure Dag (N : Type) where
  loaded : Set N
  locked : Set N
  edge : N → N → Prop
  counted : Set N
  /-- the endorsers a node has been given -/
  desc : N → Set N
  edge_loaded : ∀ {u v}, edge u v → u ∈ loaded
  locked_loaded : locked ⊆ loaded
  counted_loaded : counted ⊆ loaded

namespace Dag

def empty : Dag N where
  loaded := ∅
  locked := ∅
  edge _ _ := False
  counted := ∅
  desc _ := ∅
  edge_loaded h := h.elim
  locked_loaded _ h := h
  counted_loaded _ h := h

/-- The counted nodes that reach `a`. -/
def endorsers (g : Dag N) (a : N) : Set N := {d | d ∈ g.counted ∧ TransGen g.edge d a}

/-- An edge the search follows. -/
def OpenEdge (g : Dag N) (u v : N) : Prop := u ∈ g.loaded ∧ u ∉ g.locked ∧ g.edge u v

/-- The search from `x` finds `a`; whether `x` itself is locked does not matter. -/
def Finds (g : Dag N) (x a : N) : Prop :=
  a ∉ g.locked ∧ ∃ p, g.edge x p ∧ ReflTransGen g.OpenEdge p a

def load (g : Dag N) (r : N) (targets : Set N) (counts : Prop) : Dag N where
  loaded := insert r g.loaded
  locked := g.locked
  edge u v := g.edge u v ∨ (u = r ∧ v ∈ targets)
  counted := g.counted ∪ {u | u = r ∧ counts}
  desc := g.desc
  edge_loaded h := by
    cases h with
    | inl h => exact Set.mem_insert_of_mem _ (g.edge_loaded h)
    | inr h => exact h.1 ▸ Set.mem_insert _ _
  locked_loaded _ h := Set.mem_insert_of_mem _ (g.locked_loaded h)
  counted_loaded u h := by
    cases h with
    | inl h => exact Set.mem_insert_of_mem _ (g.counted_loaded h)
    | inr h => exact h.1 ▸ Set.mem_insert _ _

/-- Every node of `X` that is counted endorses what its search finds. -/
def credit (g : Dag N) (X : Set N) : Dag N :=
  { g with desc := fun a => g.desc a ∪ {x | x ∈ X ∧ x ∈ g.counted ∧ g.Finds x a} }

/-- A new node endorses its ancestors, and the endorsers that were waiting for it
search again. -/
def add (g : Dag N) (r : N) (targets : Set N) (counts : Prop) : Dag N :=
  (g.load r targets counts).credit (insert r (g.desc r))

def lock (g : Dag N) (S : Set N) : Dag N :=
  { g with
    locked := g.locked ∪ (S ∩ g.loaded)
    locked_loaded := fun _ h => h.elim (fun h => g.locked_loaded h) fun h => h.2 }

@[simp] theorem add_loaded (g : Dag N) (r : N) (T : Set N) (c : Prop) :
    (g.add r T c).loaded = insert r g.loaded := rfl

@[simp] theorem add_locked (g : Dag N) (r : N) (T : Set N) (c : Prop) :
    (g.add r T c).locked = g.locked := rfl

/-! ## Soundness -/

def Sound (g : Dag N) : Prop := ∀ a, g.desc a ⊆ g.endorsers a

theorem Finds.reaches {g : Dag N} {x a : N} (h : g.Finds x a) : TransGen g.edge x a := by
  obtain ⟨-, p, hxp, hpa⟩ := h
  exact TransGen.head' hxp (ReflTransGen.mono (fun u v huv => huv.2.2) p a hpa)

theorem sound_empty : (empty : Dag N).Sound := fun _ _ h => h.elim

theorem endorsers_load (g : Dag N) (r : N) (T : Set N) (c : Prop) (a : N) :
    g.endorsers a ⊆ (g.load r T c).endorsers a := by
  intro d hd
  exact ⟨Or.inl hd.1, TransGen.mono (fun u v huv => Or.inl huv) d a hd.2⟩

theorem Sound.add {g : Dag N} (h : g.Sound) (r : N) (T : Set N) (c : Prop) :
    (g.add r T c).Sound := by
  intro a d hd
  cases hd with
  | inl hd => exact endorsers_load g r T c a (h a hd)
  | inr hd => exact ⟨hd.2.1, hd.2.2.reaches⟩

/-- A new node that nothing was known of can be endorsed by itself only. -/
theorem desc_add_self {g : Dag N} {r : N} {T : Set N} {c : Prop} (h : g.desc r = ∅) {x : N}
    (hx : x ∈ (g.add r T c).desc r) : x = r ∧ r ∈ (g.load r T c).endorsers r := by
  cases hx with
  | inl hx => exact (h ▸ hx : x ∈ (∅ : Set N)).elim
  | inr hx =>
      have hxr : x = r := hx.1.resolve_right fun he => (h ▸ he : x ∈ (∅ : Set N)).elim
      exact ⟨hxr, hxr ▸ hx.2.1, hxr ▸ hx.2.2.reaches⟩

theorem Sound.lock {g : Dag N} (h : g.Sound) (S : Set N) : (g.lock S).Sound := h

/-! ## Direct endorsers -/

/-- Counted nodes endorse what they point to, but for what was locked when they came. -/
def Direct (g : Dag N) : Prop := ∀ u ∈ g.counted, ∀ a, g.edge u a → a ∈ g.locked ∨ u ∈ g.desc a

theorem direct_empty : (empty : Dag N).Direct := fun _ h => h.elim

theorem Direct.add {g : Dag N} (h : g.Direct) {r : N} {T : Set N} {c : Prop}
    (hr : r ∉ g.loaded) : (g.add r T c).Direct := by
  intro u hu a hua
  by_cases ha : a ∈ g.locked
  · exact .inl ha
  · refine .inr ?_
    cases hua with
    | inl hua =>
        have hne : u ≠ r := fun he => hr (he ▸ g.edge_loaded hua)
        exact .inl ((h u (hu.resolve_right fun hc => hne hc.1) a hua).resolve_left ha)
    | inr hua => exact .inr ⟨.inl hua.1, hu, ha, a, .inr hua, ReflTransGen.refl⟩

theorem Direct.lock {g : Dag N} (h : g.Direct) (S : Set N) : (g.lock S).Direct :=
  fun u hu a hua => (h u hu a hua).imp_left .inl

/-- A node with an endorser has an edge into it that is not just its own loop. -/
theorem exists_edge_of_mem_desc {g : Dag N} (h : g.Sound) {a x : N} (hx : x ∈ g.desc a) :
    ∃ u, g.edge u a ∧ (u ∈ g.counted ∨ u ≠ a) := by
  obtain ⟨hcount, hxa⟩ := h a hx
  by_cases ha : a ∈ g.counted
  · obtain ⟨u, -, hua⟩ := TransGen.tail'_iff.mp hxa
    by_cases hu : u = a
    · exact ⟨u, hua, .inl (hu ▸ ha)⟩
    · exact ⟨u, hua, .inr hu⟩
  · have hne : x ≠ a := fun he => ha (he ▸ hcount)
    clear hx
    induction hxa with
    | single hxa => exact ⟨x, hxa, .inr hne⟩
    | @tail b c _ hbc ih =>
        by_cases hb : b = c
        · subst hb
          exact ih ha hne
        · exact ⟨b, hbc, .inr hb⟩

/-- An edge that is not the loop of a node that does not count. -/
def ProperEdge (g : Dag N) (u v : N) : Prop := g.edge u v ∧ (u ∈ g.counted ∨ u ≠ v)

theorem desc_source {g : Dag N} (h : g.Sound) {a : N} (ha : ∀ u, ¬g.ProperEdge u a) :
    g.desc a = ∅ := by
  refine Set.eq_empty_of_forall_notMem fun x hx => ?_
  obtain ⟨u, hua, hu⟩ := exists_edge_of_mem_desc h hx
  exact ha u ⟨hua, hu⟩

theorem wellFounded_loaded {g : Dag N} (hfin : g.loaded.Finite)
    (hacyclic : ∀ u, ¬TransGen g.ProperEdge u u) :
    g.loaded.WellFoundedOn (TransGen g.ProperEdge) :=
  have : IsStrictOrder N (TransGen g.ProperEdge) :=
    { irrefl := hacyclic, trans := fun _ _ _ => TransGen.trans }
  hfin.wellFoundedOn

/-- A finite graph without cycles has a node that nothing points to. -/
theorem exists_source {g : Dag N} (hfin : g.loaded.Finite) (hne : g.loaded.Nonempty)
    (hacyclic : ∀ u, ¬TransGen g.ProperEdge u u) : ∃ a ∈ g.loaded, ∀ u, ¬g.ProperEdge u a := by
  obtain ⟨⟨a, ha⟩, -, hmin⟩ := (wellFounded_loaded hfin hacyclic).has_min Set.univ
    ⟨⟨hne.some, hne.some_mem⟩, trivial⟩
  refine ⟨a, ha, fun u hu => ?_⟩
  exact hmin ⟨u, g.edge_loaded hu.1⟩ trivial (TransGen.single hu)

/-! ## Exactness under closure -/

/-- Whatever a locked node reaches is locked. -/
def Closed (g : Dag N) : Prop := ∀ p ∈ g.locked, ∀ a, TransGen g.edge p a → a ∈ g.locked

/-- The nodes that are not locked have all their endorsers. -/
def Complete (g : Dag N) : Prop := ∀ a, a ∉ g.locked → g.endorsers a ⊆ g.desc a

theorem closed_empty : (empty : Dag N).Closed := fun _ h => h.elim

theorem complete_empty : (empty : Dag N).Complete := fun _ _ _ h => h.1.elim

section Add
variable {g : Dag N} {r : N} {T : Set N} {c : Prop}

/-- No locked node leads to a node that is only now loaded. -/
theorem Closed.add (h : g.Closed) (hr : r ∉ g.loaded) : (g.add r T c).Closed := by
  have hstep : ∀ u ∈ g.locked, ∀ v, (g.add r T c).edge u v → v ∈ g.locked := by
    intro u hu v huv
    cases huv with
    | inl huv => exact h u hu v (TransGen.single huv)
    | inr huv => exact (hr (huv.1 ▸ g.locked_loaded hu)).elim
  intro p hp a hpa
  induction hpa with
  | single hpa => exact hstep p hp _ hpa
  | tail _ hab ih => exact hstep _ ih _ hab

/-- A new path either was there before or runs through the new node. -/
theorem reaches_add {d a : N} (h : TransGen (g.add r T c).edge d a) :
    TransGen g.edge d a ∨ d = r ∨ TransGen g.edge d r := by
  induction h using TransGen.head_induction_on with
  | single hda =>
      cases hda with
      | inl hda => exact .inl (TransGen.single hda)
      | inr hda => exact .inr (.inl hda.1)
  | head hdb _ ih =>
      cases hdb with
      | inr hdb => exact .inr (.inl hdb.1)
      | inl hdb =>
          rcases ih with ih | ih | ih
          · exact .inl (TransGen.head hdb ih)
          · exact .inr (.inr (ih ▸ TransGen.single hdb))
          · exact .inr (.inr (TransGen.head hdb ih))

/-- In a closed graph the search misses nothing that is not locked. -/
theorem Closed.finds {g : Dag N} (h : g.Closed) {x a : N} (ha : a ∉ g.locked)
    (hxa : TransGen g.edge x a) : g.Finds x a := by
  obtain ⟨p, hxp, hpa⟩ := TransGen.head'_iff.mp hxa
  refine ⟨ha, p, hxp, ?_⟩
  clear hxp hxa
  induction hpa using ReflTransGen.head_induction_on with
  | refl => exact ReflTransGen.refl
  | head huv hva ih =>
      refine ReflTransGen.head ⟨g.edge_loaded huv, ?_, huv⟩ ih
      exact fun hu => ha (h _ hu _ (TransGen.head' huv hva))

theorem Complete.add (h : g.Complete) (hc : g.Closed) (hr : r ∉ g.loaded) :
    (g.add r T c).Complete := by
  intro a ha d hd
  have hfinds := (hc.add hr).finds ha hd.2
  rcases reaches_add hd.2 with hda | hdr | hdr
  · cases hd.1 with
    | inl hcount => exact .inl (h a ha ⟨hcount, hda⟩)
    | inr hcount => exact .inr ⟨.inl hcount.1, hd.1, hfinds⟩
  · exact .inr ⟨.inl hdr, hd.1, hfinds⟩
  · cases hd.1 with
    | inl hcount =>
        have hopen : r ∉ g.locked := fun hl => hr (g.locked_loaded hl)
        exact .inr ⟨.inr (h r hopen ⟨hcount, hdr⟩), hd.1, hfinds⟩
    | inr hcount => exact .inr ⟨.inl hcount.1, hd.1, hfinds⟩

end Add

/-! ## Graphs in order -/

/-- Edges lead to loaded nodes, and they form no cycle. -/
structure Ordered (g : Dag N) : Prop where
  grounded : ∀ {u v}, g.edge u v → v ∈ g.loaded
  acyclic : ∀ u, ¬TransGen g.ProperEdge u u

theorem ordered_empty : (empty : Dag N).Ordered where
  grounded h := h.elim
  acyclic u hu := by
    obtain ⟨v, huv, -⟩ := TransGen.head'_iff.mp hu
    exact huv.1

theorem Ordered.lock {g : Dag N} (h : g.Ordered) (S : Set N) : (g.lock S).Ordered :=
  ⟨h.grounded, h.acyclic⟩

/-- The paths of a counted node are there without the loops. -/
theorem reaches_proper {g : Dag N} {x a : N} (hx : x ∈ g.counted) (h : TransGen g.edge x a) :
    TransGen g.ProperEdge x a := by
  obtain ⟨p, hxp, hpa⟩ := TransGen.head'_iff.mp h
  refine TransGen.head' ⟨hxp, .inl hx⟩ ?_
  clear h hxp
  induction hpa with
  | refl => exact ReflTransGen.refl
  | @tail b c _ hbc ih =>
      by_cases hb : b = c
      · exact hb ▸ ih
      · exact ih.tail ⟨hbc, .inr hb⟩

section Order
variable {g : Dag N} {r : N} {T : Set N} {c : Prop}

theorem Ordered.add (h : g.Ordered) (hr : r ∉ g.loaded)
    (hT : ∀ v ∈ T, v ∈ g.loaded ∨ (v = r ∧ ¬c)) : (g.add r T c).Ordered := by
  have htarget : ∀ u v, (g.add r T c).ProperEdge u v → v ∈ g.loaded := by
    rintro u v ⟨huv, hproper⟩
    rcases huv with huv | ⟨rfl, hv⟩
    · exact h.grounded huv
    · rcases hT v hv with hv | ⟨rfl, hc⟩
      · exact hv
      · rcases hproper with (hcount | hcount) | hne
        · exact g.counted_loaded hcount
        · exact (hc hcount.2).elim
        · exact (hne rfl).elim
  have hold : ∀ u v, u ∈ g.loaded → (g.add r T c).ProperEdge u v → g.ProperEdge u v := by
    rintro u v hu ⟨huv, hproper⟩
    have hne : u ≠ r := fun he => hr (he ▸ hu)
    exact ⟨huv.resolve_right fun hn => hne hn.1,
      hproper.imp_left fun hc => hc.resolve_right fun hn => hne hn.1⟩
  refine ⟨fun huv => ?_, fun u hu => ?_⟩
  · rcases huv with huv | ⟨rfl, hv⟩
    · exact .inr (h.grounded huv)
    · exact (hT _ hv).elim .inr fun he => .inl he.1
  · obtain ⟨_, -, hlast⟩ := TransGen.tail'_iff.mp hu
    have hload := htarget _ u hlast
    have hpath : ∀ w, TransGen (g.add r T c).ProperEdge u w →
        w ∈ g.loaded ∧ TransGen g.ProperEdge u w := by
      intro w hw
      induction hw with
      | single huv => exact ⟨htarget _ _ huv, TransGen.single (hold _ _ hload huv)⟩
      | tail _ hbc ih => exact ⟨htarget _ _ hbc, ih.2.tail (hold _ _ ih.1 hbc)⟩
    exact h.acyclic u (hpath u hu).2

/-- An open node can be reached from an open one that has no endorsers. -/
theorem exists_tip_above (hs : g.Sound) (hcl : g.Closed) (ho : g.Ordered)
    (hfin : g.loaded.Finite) {a : N} (ha : a ∈ g.loaded) (hopen : a ∉ g.locked) :
    ∃ b ∈ g.loaded, b ∉ g.locked ∧ g.desc b = ∅ ∧ ReflTransGen g.edge b a := by
  refine (wellFounded_loaded hfin ho.acyclic).induction (P := fun a => a ∉ g.locked →
    ∃ b ∈ g.loaded, b ∉ g.locked ∧ g.desc b = ∅ ∧ ReflTransGen g.edge b a) ha
    (fun a ha ih hopen => ?_) hopen
  rcases Set.eq_empty_or_nonempty (g.desc a) with hnone | ⟨y, hy⟩
  · exact ⟨a, ha, hopen, hnone, ReflTransGen.refl⟩
  · obtain ⟨hcount, hreach⟩ := hs a hy
    have hyopen : y ∉ g.locked := fun hl => hopen (hcl y hl a hreach)
    obtain ⟨b, hb, hbopen, hbnone, hby⟩ :=
      ih y (g.counted_loaded hcount) (reaches_proper hcount hreach) hyopen
    exact ⟨b, hb, hbopen, hbnone, hby.trans hreach.to_reflTransGen⟩

/-- A new counted node that points to all open nodes without endorsers endorses every open
node. -/
theorem endorses_all (hs : g.Sound) (hc : g.Complete) (hcl : g.Closed) (ho : g.Ordered)
    (hfin : g.loaded.Finite) (hr : r ∉ g.loaded) (hcount : c)
    (hT : ∀ b ∈ g.loaded, b ∉ g.locked → g.desc b = ∅ → b ∈ T) {a : N} (ha : a ∈ g.loaded)
    (hopen : a ∉ g.locked) : r ∈ (g.add r T c).desc a := by
  obtain ⟨b, hb, hbopen, hbnone, hba⟩ := exists_tip_above hs hcl ho hfin ha hopen
  refine hc.add hcl hr a hopen ⟨.inr ⟨rfl, hcount⟩, ?_⟩
  exact TransGen.head' (.inr ⟨rfl, hT b hb hbopen hbnone⟩)
    (ReflTransGen.mono (fun u v huv => .inl huv) b a hba)

theorem desc_new (hs : g.Sound) (ho : g.Ordered) (hr : r ∉ g.loaded) (hT : T ⊆ g.loaded) :
    (g.add r T c).desc r = ∅ := by
  refine desc_source (hs.add r T c) fun u hu => ?_
  rcases hu.1 with hur | ⟨-, hmem⟩
  · exact hr (ho.grounded hur)
  · exact hr (hT hmem)

end Order

/-! ## Locking what is endorsed enough -/

section Lock
variable {enough : Set N → Prop}

/-- The nodes a harvest takes: loaded, not yet locked, endorsed enough. -/
def ripe (enough : Set N → Prop) (g : Dag N) : Set N :=
  {a | a ∈ g.loaded ∧ a ∉ g.locked ∧ enough (g.desc a)}

theorem endorsers_mono {g : Dag N} {p a : N} (h : TransGen g.edge p a) :
    g.endorsers p ⊆ g.endorsers a := fun _ hd => ⟨hd.1, hd.2.trans h⟩

theorem Closed.lock {g : Dag N} (h : g.Closed) (hs : g.Sound) (hc : g.Complete)
    (mono : ∀ {D E : Set N}, D ⊆ E → enough D → enough E)
    (hload : ∀ p ∈ g.ripe enough, ∀ a, TransGen g.edge p a → a ∈ g.loaded) :
    (g.lock (g.ripe enough)).Closed := by
  intro p hp a hpa
  cases hp with
  | inl hp => exact .inl (h p hp a hpa)
  | inr hp =>
      have ha := hload p hp.1 a hpa
      by_cases hl : a ∈ g.locked
      · exact .inl hl
      · have hsub : g.desc p ⊆ g.desc a :=
          fun d hd => hc a hl (endorsers_mono hpa (hs p hd))
        exact .inr ⟨⟨ha, hl, mono hsub hp.1.2.2⟩, ha⟩

theorem Complete.lock {g : Dag N} (h : g.Complete) (S : Set N) : (g.lock S).Complete :=
  fun a ha => h a fun hl => ha (.inl hl)

/-- The locked nodes are those that the graph alone endorses enough. -/
def Settled (enough : Set N → Prop) (g : Dag N) : Prop :=
  ∀ a, a ∈ g.locked ↔ a ∈ g.loaded ∧ enough (g.endorsers a)

theorem desc_eq_endorsers {g : Dag N} (hs : g.Sound) (hc : g.Complete) {a : N}
    (ha : a ∉ g.locked) : g.desc a = g.endorsers a := (hs a).antisymm (hc a ha)

theorem settled_lock {g : Dag N} (hs : g.Sound) (hc : g.Complete)
    (hold : ∀ a ∈ g.locked, enough (g.endorsers a)) :
    (g.lock (g.ripe enough)).Settled enough := by
  intro a
  constructor
  · intro ha
    cases ha with
    | inl ha => exact ⟨g.locked_loaded ha, hold a ha⟩
    | inr ha => exact ⟨ha.2, (desc_eq_endorsers hs hc ha.1.2.1) ▸ ha.1.2.2⟩
  · intro ha
    by_cases hl : a ∈ g.locked
    · exact .inl hl
    · exact .inr ⟨⟨ha.1, hl, (desc_eq_endorsers hs hc hl).symm ▸ ha.2⟩, ha.1⟩

end Lock

/-! ## Add and lock in turn -/

/-- What holds between the rounds of a run that locks after every addition. -/
structure Balanced (enough : Set N → Prop) (g : Dag N) : Prop where
  sound : g.Sound
  complete : g.Complete
  closed : g.Closed
  settled : g.Settled enough

theorem balanced_empty {enough : Set N → Prop} : (empty : Dag N).Balanced enough where
  sound := sound_empty
  complete := complete_empty
  closed := closed_empty
  settled _ := ⟨fun h => h.elim, fun h => h.1.elim⟩

/-- One round. What becomes ripe must reach loaded nodes only. -/
theorem Balanced.round {enough : Set N → Prop} {g : Dag N} (h : g.Balanced enough)
    (mono : ∀ {D E : Set N}, D ⊆ E → enough D → enough E) {r : N} (T : Set N) (c : Prop)
    (hr : r ∉ g.loaded)
    (hload : ∀ p ∈ insert r g.loaded, enough ((g.add r T c).endorsers p) →
      ∀ a, TransGen (g.add r T c).edge p a → a ∈ insert r g.loaded) :
    ((g.add r T c).lock ((g.add r T c).ripe enough)).Balanced enough := by
  have hs := h.sound.add r T c
  have hcl := h.closed.add (T := T) (c := c) hr
  have hco := h.complete.add (T := T) (c := c) h.closed hr
  have hold : ∀ a ∈ (g.add r T c).locked, enough ((g.add r T c).endorsers a) := by
    intro a ha
    exact mono (endorsers_load g r T c a) ((h.settled a).mp ha).2
  refine ⟨hs.lock _, hco.lock _, hcl.lock hs hco mono ?_, settled_lock hs hco hold⟩
  intro p hp
  exact hload p hp.1 ((desc_eq_endorsers hs hco hp.2.1) ▸ hp.2.2)

end Dag

end CertLedger.EndorsementDag
