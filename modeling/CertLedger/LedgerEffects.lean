import CertLedger.DagEffects
import CertLedger.LedgerHandlers

/-!
# What the handlers can do to a storage at all

Two bounds that hold in every run, failed or not. Packets and payload maps go
under free names only. Whatever else a handler does, they stay there, and as long
as no operation fails on its own so do loaded records.
-/
namespace CertLedger.LedgerEffects
open Std TlvCodec FallibleState NdnObjects RecordCodec EdgeStateCodec LedgerIndexCodec
open EdgeStateList PayloadMap OrderedContainers DagEngine DagStates DagHarvest DagEffects
open LedgerHandlers

/-! ## Graph programs in the ledger -/

/-- A relation on graph modules as one on ledger modules. -/
def onLedger (R : DagModule → DagModule → Prop) (s s' : LedgerModule) : Prop :=
  R s.toDagModule s'.toDagModule

section
variable {R : DagModule → DagModule → Prop}

theorem onLedger_refl (h : ∀ d, R d d) (s : LedgerModule) : onLedger R s s := h s.toDagModule

theorem onLedger_trans (h : ∀ d d' d'', R d d' → R d' d'' → R d d'') (s t u : LedgerModule)
    (hst : onLedger R s t) (htu : onLedger R t u) : onLedger R s u := h _ _ _ hst htu

theorem respects_onDag {α : Type} {x : DagM α} (h : Respects R x) :
    Respects (onLedger R) (onDag x) := Respects.zoom h fun _ _ ht => ht

/-- What a relation on ledger modules says about their graph modules. -/
def onGraph (R : LedgerModule → LedgerModule → Prop) (d d' : DagModule) : Prop :=
  ∀ s : LedgerModule, s.toDagModule = d → R s (s.withDag d')

theorem onGraph_onLedger {d d' : DagModule} (h : R d d') : onGraph (onLedger R) d d' := by
  intro s hs
  subst hs
  exact h

theorem respects_onGraph {α : Type} {R : LedgerModule → LedgerModule → Prop} {x : DagM α}
    (h : Respects (onGraph R) x) : Respects R (onDag x) := fun s => h s.toDagModule s rfl

theorem exec_onDag {α : Type} (x : DagM α) (s : LedgerModule) :
    exec (onDag x) s = ((exec x s.toDagModule).1, s.withDag (exec x s.toDagModule).2) := rfl

theorem exec_onDag_of {α : Type} {x : DagM α} {s : LedgerModule} {r : Except Error α} {d : DagModule}
    (h : exec x s.toDagModule = (r, d)) : exec (onDag x) s = (r, s.withDag d) := by
  rw [exec_onDag, h]

theorem exec_onDag_eq {α : Type} {x : DagM α} {s s' : LedgerModule} {r : Except Error α}
    (h : exec (onDag x) s = (r, s')) : ∃ d, exec x s.toDagModule = (r, d) ∧ s' = s.withDag d := by
  rw [exec_onDag] at h
  obtain ⟨h₁, h₂⟩ := Prod.mk.inj h
  exact ⟨_, Prod.ext h₁ rfl, h₂.symm⟩

end

/-! ## Blocks under new names -/

/-- Nothing that was stored is touched, and what is new is allowed by `P`. -/
structure Stores (P : Name → Block → Prop) (d d' : DagModule) : Prop where
  blocks : ∀ n, d'.storage.list[n]? = d.storage.list[n]? ∨
    (d.storage.list[n]? = none ∧ ∃ b, d'.storage.list[n]? = some b ∧ P n b)
  bucket : ∀ k n, InBucket d'.waitlist k n ↔ InBucket d.waitlist k n
  ticks : d'.ticks = d.ticks
  reliable : d.storage.faults = [] → d'.storage.faults = []

namespace Stores
variable {P Q : Name → Block → Prop} {d d' d'' : DagModule}

theorem refl (d : DagModule) : Stores P d d := ⟨fun _ => .inl rfl, fun _ _ => Iff.rfl, rfl, id⟩

theorem mono (h : Stores P d d') (hPQ : ∀ n b, P n b → Q n b) : Stores Q d d' where
  blocks n := by
    rcases h.blocks n with hn | ⟨hn, b, hb, hP⟩
    · exact .inl hn
    · exact .inr ⟨hn, b, hb, hPQ n b hP⟩
  bucket := h.bucket
  ticks := h.ticks
  reliable := h.reliable

theorem kept (h : Stores P d d') {n : Name} {b : Block} (hb : d.storage.list[n]? = some b) :
    d'.storage.list[n]? = some b := by
  rcases h.blocks n with hn | ⟨hn, -⟩
  · rw [hn, hb]
  · simp [hb] at hn

theorem trans (h : Stores P d d') (h' : Stores P d' d'') : Stores P d d'' where
  blocks n := by
    rcases h.blocks n with hn | ⟨hn, b, hb, hP⟩
    · rw [← hn]
      exact h'.blocks n
    · exact .inr ⟨hn, b, h'.kept hb, hP⟩
  bucket k n := (h'.bucket k n).trans (h.bucket k n)
  ticks := h'.ticks.trans h.ticks
  reliable hr := h'.reliable (h.reliable hr)

theorem free (h : Stores P d d') {n : Name}
    (hn : d.storage.list[n]? = none) (hP : ∀ b, ¬P n b) : d'.storage.list[n]? = none := by
  rcases h.blocks n with he | ⟨-, b, -, hb⟩
  · rw [he, hn]
  · exact (hP b hb).elim

theorem stateAt [NdnCxx] (h : Stores P d d') (hP : ∀ n b, P n b → b.type ≠ TLV_EDGE_STATE_TYPE)
    (n : Name) : stateAt d' n = stateAt d n := by
  rcases h.blocks n with hn | ⟨hn, b, hb, hPb⟩
  · exact stateAt_congr hn
  · have hnone : DagStates.stateAt d n = none := by simp [DagStates.stateAt, hn]
    rw [hnone]
    cases hs : DagStates.stateAt d' n with
    | none => rfl
    | some s =>
        obtain ⟨c, hc, hd⟩ := stateAt_eq_some.mp hs
        obtain rfl : b = c := Option.some.inj (hb.symm.trans hc)
        exact (hP n b hPb (decodeEdgeState_type hd)).elim

end Stores

theorem stores_adder {P : Name → Block → Prop} {n : Name} {block : Block} (h : P n block) :
    Respects (Stores P) (adder n block) := by
  intro d
  rcases exec_adder_any d n block with ⟨e, hadd⟩ | ⟨hfree, hadd⟩
  · rw [hadd]
    exact ⟨fun _ => .inl rfl, fun _ _ => Iff.rfl, rfl, spend_reliable⟩
  · rw [hadd]
    refine ⟨fun m => ?_, fun _ _ => Iff.rfl, rfl, spend_reliable⟩
    by_cases hm : n = m
    · subst hm
      exact .inr ⟨hfree, block, (getElem?_insert _ _ _ _).trans (if_pos rfl), h⟩
    · exact .inl ((getElem?_insert _ _ _ _).trans (if_neg hm))

theorem trans_stores {P : Name → Block → Prop} (d d' d'' : DagModule) (h : Stores P d d')
    (h' : Stores P d' d'') : Stores P d d'' := h.trans h'

/-- Blocks that are never written over. -/
def Lasting (b : Block) : Prop := b.type ≠ TLV_EDGE_STATE_TYPE ∧ b.type ≠ TLV_EDGE_STATE_LIST_TYPE

theorem lasting_map (map : PayloadMap) : Lasting (encodePayloadMap map) :=
  (by decide : TLV_PAYLOAD_MAP_TYPE ≠ TLV_EDGE_STATE_TYPE ∧
    TLV_PAYLOAD_MAP_TYPE ≠ TLV_EDGE_STATE_LIST_TYPE)

/-- The name the next publication gets. -/
def nextName (config : LedgerConfig) (s : LedgerModule) : Name :=
  config.instancePrefix.appendSequenceNumber (s.seqNo + 1)

theorem exec_getNextName (config : LedgerConfig) (s : LedgerModule) :
    exec (getNextName config) s = (.ok (nextName config s), s) := rfl

/-- What a record made for a payload is, whatever its name: only an empty bucket makes it new. -/
structure Drafts (config : LedgerConfig) (s : LedgerModule) (payload : Buffer) (r : Record) :
    Prop where
  payload : r.payload = payload
  kind : (r.type = GENESIS_RECORD ∧ r.pointers = [nextName config s] ∧
      ∀ n, ¬InBucket s.waitlist 0 n) ∨
    (r.type = GENERIC_RECORD ∧ (∃ n, InBucket s.waitlist 0 n) ∧
      ∀ m, m ∈ r.pointers ↔ ∃ n, InBucket s.waitlist 0 n ∧ m = fromStateName n)

theorem Drafts.pointers {config : LedgerConfig} {s : LedgerModule} {payload : Buffer} {r : Record}
    (h : Drafts config s payload r) : r.isGenesis = true ∨
      ∀ m ∈ r.pointers, ∃ n, InBucket s.waitlist 0 n ∧ m = fromStateName n := by
  rcases h.kind with ⟨htype, -⟩ | ⟨-, -, hptr⟩
  · exact .inl (by simp [Record.isGenesis, htype])
  · exact .inr fun m hm => (hptr m).mp hm

theorem exec_newRecord (config : LedgerConfig) (payload : Buffer) (s : LedgerModule) :
    ∃ r w, exec (newRecord config payload) s =
        (.ok r, s.withDag { s.toDagModule with waitlist := w }) ∧
      (∀ k n, InBucket w k n ↔ InBucket s.waitlist k n) ∧ Drafts config s payload r := by
  obtain ⟨names, w, hrun, hnames, hw⟩ := exec_getWaitList s.toDagModule 0
  have hget : exec (onDag (getWaitList 0)) s =
      (.ok names, s.withDag { s.toDagModule with waitlist := w }) := exec_onDag_of hrun
  have hmem : ∀ m, m ∈ names.toList.map fromStateName ↔
      ∃ n, InBucket s.waitlist 0 n ∧ m = fromStateName n := by
    intro m
    simp only [List.mem_map, ExtTreeSet.mem_toList, hnames, eq_comm]
  rw [newRecord, exec_bind_ok hget]
  by_cases hlen : (names.toList.map fromStateName).length < 1
  · refine ⟨⟨[], GENESIS_RECORD, [nextName config s], payload⟩, w, ?_, hw, rfl, .inl ⟨rfl, rfl, ?_⟩⟩
    · dsimp only
      rw [if_pos hlen, exec_bind_ok (exec_getNextName config _)]
      rfl
    · intro n hn
      have := List.length_pos_of_mem ((hmem _).mpr ⟨n, hn, rfl⟩)
      omega
  · refine ⟨⟨[], GENERIC_RECORD, names.toList.map fromStateName, payload⟩, w, ?_, hw, rfl,
      .inr ⟨rfl, ?_, hmem⟩⟩
    · dsimp only
      rw [if_neg hlen]
      rfl
    · obtain ⟨m, hm⟩ := List.exists_mem_of_length_pos (Nat.not_lt.mp hlen)
      obtain ⟨n, hn, -⟩ := (hmem m).mp hm
      exact ⟨n, hn⟩

section
variable [NdnCxx]

/-- The blocks of Data packets among some. -/
def PacketOf (S : Data → Prop) (n : Name) (b : Block) : Prop := ∃ p, S p ∧ p.name = n ∧ p.wire = b

theorem PacketOf.mono {S T : Data → Prop} (h : ∀ p, S p → T p) {n : Name} {b : Block} :
    PacketOf S n b → PacketOf T n b := Exists.imp fun p hp => ⟨h p hp.1, hp.2⟩

theorem PacketOf.type {S : Data → Prop} {n : Name} {b : Block} (h : PacketOf S n b) :
    b.type = tlvData := by
  obtain ⟨p, -, -, rfl⟩ := h
  exact p.wire_type

theorem PacketOf.foreign {S : Data → Prop} (n : Name) (b : Block) (h : PacketOf S n b) :
    b.type ≠ TLV_EDGE_STATE_TYPE := by
  rw [h.type]
  decide

theorem stores_insert {S : Data → Prop} {p : Data} (h : S p) :
    Respects (Stores (PacketOf S)) (insert p) := stores_adder ⟨p, h, rfl, rfl⟩

theorem stores_insertNew {S : Data → Prop} {p : Data} (h : S p) :
    Respects (Stores (PacketOf S)) (insertNew p) :=
  Respects.tryCatch trans_stores
    (Respects.bind trans_stores (stores_insert h) fun _ => Respects.pure Stores.refl true)
    fun _ => Respects.pure Stores.refl false

theorem stores_addPayloadMap (payload : Buffer) (mapTo : Name) :
    Respects (Stores fun n b => n = toMapName payload ∧ b.type = TLV_PAYLOAD_MAP_TYPE)
      (addPayloadMap payload mapTo) := stores_adder ⟨rfl, rfl⟩

/-! ## Publications -/

variable (config : LedgerConfig)

/-- The packets a publication of the ledger can consist of. -/
def Publication.Packet (pub : Publication) (p : Data) : Prop :=
  ∃ seqNo content, p ∈ pub.packets (config.instancePrefix.appendSequenceNumber seqNo) content

theorem stores_publishRecord (pub : Publication) (record : Record) :
    Respects (onLedger (Stores (PacketOf (Publication.Packet config pub))))
      (publishRecord config pub record) := by
  have refl := onLedger_refl (R := Stores (PacketOf (Publication.Packet config pub))) Stores.refl
  have trans := onLedger_trans (R := Stores (PacketOf (Publication.Packet config pub))) trans_stores
  intro s
  rw [publishRecord, exec_bind_ok (exec_getNextName config s)]
  refine Respects.bind trans (respects_onDag ?_) (fun _ => ?_) s
  · exact Respects.foldlM Stores.refl trans_stores
      (fun _ p hp => stores_insert ⟨s.seqNo + 1, _, hp⟩) ()
  · cases pub.seqNo with
    | none => exact Respects.throw refl _
    | some seqNo => exact fun s => refl s

/-- A publication that succeeds has given the record the next name. -/
theorem publishRecord_ok {pub : Publication} {record : Record} {s s' : LedgerModule} {n : Name}
    (h : exec (publishRecord config pub record) s = (.ok n, s')) :
    n = nextName config s ∧ pub.seqNo = some s'.seqNo := by
  rw [publishRecord, exec_bind_ok (exec_getNextName config s)] at h
  obtain ⟨_, t, -, h⟩ := exec_bind_eq_ok h
  cases hseq : pub.seqNo with
  | none => simp [hseq] at h
  | some seqNo =>
      rw [hseq] at h
      obtain ⟨_, u, hmodify, h⟩ := exec_bind_eq_ok h
      obtain ⟨-, rfl⟩ := Prod.mk.inj hmodify
      obtain ⟨hn, rfl⟩ := Prod.mk.inj h
      exact ⟨(Except.ok.inj hn).symm, rfl⟩

/-- A publication that fails does not count. -/
theorem publishRecord_error {pub : Publication} {record : Record} {s s' : LedgerModule} {e : Error}
    (h : exec (publishRecord config pub record) s = (.error e, s')) : s'.seqNo = s.seqNo := by
  rw [publishRecord, exec_bind_ok (exec_getNextName config s), exec_bind, exec_onDag] at h
  generalize exec ((pub.packets (nextName config s) record.prepareContent.wire).foldlM
    (fun _ data => insert data) ()) s.toDagModule = stored at h
  obtain ⟨_ | _, d⟩ := stored
  · obtain ⟨-, rfl⟩ := Prod.mk.inj h
    rfl
  · cases hseq : pub.seqNo with
    | none =>
        simp only [hseq] at h
        obtain ⟨-, rfl⟩ := Prod.mk.inj h
        rfl
    | some seqNo =>
        simp only [hseq] at h
        cases congrArg Prod.fst h

/-! ## Packets, payload maps and loaded records stay -/

theorem lasting_packet (data : Data) : Lasting data.wire := by
  rw [Lasting, data.wire_type]
  decide

structure Keeps (d d' : DagModule) : Prop where
  keyed : Keyed d'
  lasting : ∀ (n : Name) (b : Block), d.storage.list[n]? = some b → Lasting b →
    d'.storage.list[n]? = some b
  reliable : d.storage.faults = [] → d'.storage.faults = []
  loaded : d.storage.faults = [] → ∀ n s, stateAt d n = some s → s.status ≠ .INITIALIZED →
    ∃ s', stateAt d' n = some s' ∧ s'.status ≠ .INITIALIZED ∧ s'.record = s.record

namespace Keeps
variable {d d' d'' : DagModule}

theorem trans (h : Keeps d d') (h' : Keeps d' d'') : Keeps d d'' where
  keyed := h'.keyed
  lasting n b hb ht := h'.lasting n b (h.lasting n b hb ht) ht
  reliable hr := h'.reliable (h.reliable hr)
  loaded hr n s hs hl := by
    obtain ⟨t, ht, htl, htr⟩ := h.loaded hr n s hs hl
    obtain ⟨u, hu, hul, hur⟩ := h'.loaded (h.reliable hr) n t ht htl
    exact ⟨u, hu, hul, hur.trans htr⟩

theorem stateAt_of_lasting {n : Name} {b : Block} (hb : d.storage.list[n]? = some b)
    (ht : Lasting b) : stateAt d n = none := by
  cases hs : stateAt d n with
  | none => rfl
  | some s =>
      obtain ⟨c, hc, hd⟩ := stateAt_eq_some.mp hs
      obtain rfl : b = c := Option.some.inj (hb.symm.trans hc)
      exact (ht.1 (decodeEdgeState_type hd)).elim

theorem of_evolves {config : DagConfig} (h : Evolves config d d') : Keeps d d' where
  keyed := h.keyed
  lasting n b hb ht := h.foreign n b hb (stateAt_of_lasting hb ht)
  reliable := h.reliable
  loaded hr n s hs hl := by
    obtain ⟨s', hs', hlater⟩ := h.later hr n s hs
    exact ⟨s', hs', hlater.loaded hl, hlater.record hl⟩

theorem of_stores {P : Name → Block → Prop} (hk : Keyed d) (h : Stores P d d')
    (hP : ∀ n b, P n b → b.type ≠ TLV_EDGE_STATE_TYPE) : Keeps d d' where
  keyed n s hs := hk n s (h.stateAt hP n ▸ hs)
  lasting _ _ hb _ := h.kept hb
  reliable := h.reliable
  loaded _ n s hs hl := ⟨s, (h.stateAt hP n).trans hs, hl, rfl⟩

theorem refl (h : Keyed d) : Keeps d d :=
  of_stores (P := fun _ _ => False) h (Stores.refl d) fun _ _ hf => hf.elim

/-- A block written over another one, as far as it gets. -/
theorem of_replace {n : Name} {block : Block} (h : Keyed d)
    (hlist : d'.storage.list = d.storage.list ∨ d'.storage.list = d.storage.list.insert n block ∨
      (d'.storage.list = d.storage.list.erase n ∧ d.storage.faults ≠ []))
    (hr : d.storage.faults = [] → d'.storage.faults = [])
    (hold : ∀ b : Block, d.storage.list[n]? = some b → ¬Lasting b)
    (hnew : ∀ s, decodeEdgeState block = .ok s → s.stateName = n ∧ s.stored = s)
    (hloaded : ∀ s, stateAt d n = some s → s.status ≠ .INITIALIZED →
      ∃ s', decodeEdgeState block = .ok s' ∧ s'.status ≠ .INITIALIZED ∧ s'.record = s.record) :
    Keeps d d' := by
  have hother : ∀ m, n ≠ m → d'.storage.list[m]? = d.storage.list[m]? := by
    intro m hm
    rcases hlist with hl | hl | ⟨hl, -⟩ <;> rw [hl]
    · rw [getElem?_insert, if_neg hm]
    · rw [getElem?_erase, if_neg hm]
  have hself : d'.storage.list[n]? = d.storage.list[n]? ∨ d'.storage.list[n]? = some block ∨
      (d'.storage.list[n]? = none ∧ d.storage.faults ≠ []) := by
    rcases hlist with hl | hl | ⟨hl, hf⟩ <;> rw [hl]
    · exact .inl rfl
    · exact .inr (.inl ((getElem?_insert _ _ _ _).trans (if_pos rfl)))
    · exact .inr (.inr ⟨(getElem?_erase _ _ _).trans (if_pos rfl), hf⟩)
  refine ⟨?_, ?_, hr, ?_⟩
  · intro m s hs
    by_cases hm : n = m
    · subst hm
      obtain ⟨c, hc, hd⟩ := stateAt_eq_some.mp hs
      rcases hself with hl | hl | ⟨hl, -⟩
      · exact h n s (stateAt_congr hl ▸ hs)
      · obtain rfl : block = c := Option.some.inj (hl.symm.trans hc)
        exact hnew s hd
      · simp [hl] at hc
    · exact h m s (stateAt_congr (hother m hm) ▸ hs)
  · intro m b hb ht
    rw [hother m fun hm => hold b (hm ▸ hb) ht]
    exact hb
  · intro hf m s hs hl
    by_cases hm : n = m
    · subst hm
      rcases hself with he | he | ⟨-, hne⟩
      · exact ⟨s, (stateAt_congr he).trans hs, hl, rfl⟩
      · obtain ⟨s', hd, hl', hr'⟩ := hloaded s hs hl
        exact ⟨s', stateAt_eq_some.mpr ⟨block, he, hd⟩, hl', hr'⟩
      · exact (hne hf).elim
    · exact ⟨s, (stateAt_congr (hother m hm)).trans hs, hl, rfl⟩

end Keeps

/-! ## The programs of the ledger -/

def Steady (d d' : DagModule) : Prop := Keyed d → Keeps d d'

theorem steady_refl (d : DagModule) : Steady d d := Keeps.refl

theorem steady_trans (d d' d'' : DagModule) (h : Steady d d') (h' : Steady d' d'') : Steady d d'' :=
  fun hk => (h hk).trans (h' (h hk).keyed)

theorem steady_of_tame {α : Type} {config : DagConfig} {x : DagM α} (h : Tame config x) :
    Respects Steady x := fun d hk => Keeps.of_evolves (h d hk)

theorem steady_of_stores {α : Type} {P : Name → Block → Prop} {x : DagM α}
    (h : Respects (Stores P) x) (hP : ∀ n b, P n b → b.type ≠ TLV_EDGE_STATE_TYPE) :
    Respects Steady x := fun d hk => Keeps.of_stores hk (h d) hP

theorem steady_addPayloadMap (payload : Buffer) (mapTo : Name) :
    Respects Steady (addPayloadMap payload mapTo) := by
  refine steady_of_stores (stores_addPayloadMap payload mapTo) ?_
  intro n b h
  rw [h.2]
  decide

/-- The name holds nothing but a tracker. -/
def HoldsTracker (d : DagModule) : Prop :=
  ∀ b : Block, d.storage.list[trackerName]? = some b → b.type = TLV_EDGE_STATE_LIST_TYPE

theorem keeps_storeTracker {d : DagModule} (h : Keyed d) (ht : HoldsTracker d)
    (l : EdgeStateList) : Keeps d (exec (storeTracker l) d).2 := by
  obtain ⟨r, m, hrun, hr, hm⟩ := exec_replace_any d trackerName (encodeEdgeStateList l)
  rw [storeTracker, hrun]
  refine Keeps.of_replace h hm hr ?_ ?_ ?_
  · exact fun b hb hlast => hlast.2 (ht b hb)
  · intro s hs
    exact absurd (decodeEdgeState_type hs) (by decide : TLV_EDGE_STATE_LIST_TYPE ≠ _)
  · intro s hs
    obtain ⟨b, hb, hd⟩ := stateAt_eq_some.mp hs
    exact absurd ((ht b hb).symm.trans (decodeEdgeState_type hd)) (by decide)

variable (config : LedgerConfig)

theorem keeps_stampState {d : DagModule} (h : Keyed d) (ht : HoldsTracker d) (n : Name) :
    Keeps d (exec (stampState config n) d).2 ∧ HoldsTracker (exec (stampState config n) d).2 := by
  let spent : DagModule := { d with storage := spend d.storage }
  have hspent : Keeps d spent := Keeps.of_evolves
    (Evolves.of_list h rfl le_rfl spend_reliable : Evolves config.toDagConfig d spent)
  obtain ⟨r, hget, hok, -⟩ := exec_getter_any d n
  rw [stampState]
  cases r with
  | error e =>
      rw [exec_bind_error hget]
      exact ⟨hspent, ht⟩
  | ok block =>
      rw [exec_bind_ok hget]
      cases hd : decodeEdgeState block with
      | error e =>
          rw [exec_bind_error (exec_lift _ _)]
          exact ⟨hspent, ht⟩
      | ok s =>
          have hs : stateAt d n = some s := stateAt_eq_some.mpr ⟨block, hok block rfl, hd⟩
          have hnow : exec (now config.toDagConfig) spent =
            (.ok (config.clock spent.ticks), { spent with ticks := spent.ticks + 1 }) := rfl
          obtain ⟨r, m, hrun, hr, hm⟩ := exec_replace_any { spent with ticks := spent.ticks + 1 } n
            (encodeEdgeState { s with interlocked := config.clock spent.ticks })
          rw [exec_bind_ok (exec_lift _ _), exec_bind_ok hnow, hrun]
          have hne : n ≠ trackerName := by
            intro he
            have := (ht block (he ▸ hok block rfl)).symm.trans (decodeEdgeState_type hd)
            exact absurd this (by decide)
          constructor
          · refine hspent.trans (Keeps.of_replace hspent.keyed hm hr ?_ ?_ ?_)
            · intro b hb
              obtain rfl : block = b := Option.some.inj ((hok block rfl).symm.trans hb)
              exact fun hlast => hlast.1 (decodeEdgeState_type hd)
            · intro t hdt
              rw [decodeEdgeState_encodeEdgeState] at hdt
              obtain rfl := Except.ok.inj hdt
              exact ⟨(h n s hs).1, stored_stored _⟩
            · intro t hst hl
              obtain rfl : s = t := Option.some.inj (hs.symm.trans hst)
              have hrec : s.stored.record = s.record := congrArg EdgeState.record (h n s hs).2
              exact ⟨_, decodeEdgeState_encodeEdgeState _, hl, hrec⟩
          · intro b hb
            have hlist : m.list[trackerName]? = d.storage.list[trackerName]? := by
              rcases hm with hl | hl | ⟨hl, -⟩ <;> rw [hl]
              · rfl
              · exact (getElem?_insert _ _ _ _).trans (if_neg hne)
              · exact (getElem?_erase _ _ _).trans (if_neg hne)
            exact ht b (hlist ▸ hb)

theorem steady_updateStatesTracker (n : Name) (interlocked : Bool) :
    Respects Steady (updateStatesTracker config n interlocked) := by
  intro d h
  let spent : DagModule := { d with storage := spend d.storage }
  have hspent : Keeps d spent := Keeps.of_evolves
    (Evolves.of_list h rfl le_rfl spend_reliable : Evolves config.toDagConfig d spent)
  obtain ⟨r, hget, hok, -⟩ := exec_getter_any d trackerName
  rw [updateStatesTracker]
  cases r with
  | error e =>
      rw [exec_bind_error hget]
      exact hspent
  | ok block =>
      rw [exec_bind_ok hget]
      cases hd : decodeEdgeStateList block with
      | error e =>
          rw [exec_bind_error (exec_lift _ _)]
          exact hspent
      | ok l =>
          have ht : HoldsTracker spent := by
            intro b hb
            obtain rfl : block = b := Option.some.inj ((hok block rfl).symm.trans hb)
            exact decodeEdgeStateList_type hd
          rw [exec_bind_ok (exec_lift _ _)]
          split
          · exact hspent.trans (keeps_storeTracker hspent.keyed ht _)
          · split
            · obtain ⟨hk, ht'⟩ := keeps_stampState config hspent.keyed ht n
              rcases hrun : exec (stampState config n) spent with ⟨_ | _, d'⟩
              · rw [hrun] at hk
                rw [exec_bind_error hrun]
                exact hspent.trans hk
              · rw [hrun] at hk ht'
                rw [exec_bind_ok hrun]
                exact (hspent.trans hk).trans (keeps_storeTracker hk.keyed ht' _)
            · exact hspent

/-! ## What the operations respect, the handlers respect -/

/-- A relation that all operations of the ledger but the additions to the graph respect, as
long as `S` holds of the Data they store. -/
structure Beside (S : Data → Prop) (R : LedgerModule → LedgerModule → Prop) : Prop where
  refl : ∀ s, R s s
  trans : ∀ s t u, R s t → R t u → R s u
  number : ∀ s seqNo, R s { s with seqNo := seqNo }
  tips : Respects (onGraph R) (getWaitList 0)
  insert : ∀ data, S data → Respects (onGraph R) (LedgerHandlers.insert data)
  map : ∀ payload stateName, Respects (onGraph R) (addPayloadMap payload stateName)
  track : ∀ stateName, Respects (onGraph R) (updateStatesTracker config stateName false)
  harvest : Respects R (dagHarvest config)

/-- A relation that the additions respect as well. -/
structure Lawful (S : Data → Prop) (R : LedgerModule → LedgerModule → Prop) : Prop
    extends Beside config S R where
  add : ∀ record, Respects (onGraph R) (add config.toDagConfig record)

namespace Beside
variable {config} {S : Data → Prop} {R : LedgerModule → LedgerModule → Prop}

theorem graph_refl (h : Beside config S R) (d : DagModule) : onGraph R d d :=
  fun s hs => hs ▸ h.refl s

theorem graph_trans (h : Beside config S R) (d d' d'' : DagModule) (hd : onGraph R d d')
    (hd' : onGraph R d' d'') : onGraph R d d'' :=
  fun s hs => h.trans _ _ _ (hd s hs) (hd' (s.withDag d') rfl)

theorem insertNew (h : Beside config S R) {data : Data} (hd : S data) :
    Respects (onGraph R) (insertNew data) :=
  Respects.tryCatch h.graph_trans
    (Respects.bind h.graph_trans (h.insert data hd) fun _ => Respects.pure h.graph_refl true)
    fun _ => Respects.pure h.graph_refl false

theorem newRecord (h : Beside config S R) (payload : Buffer) :
    Respects R (newRecord config payload) := by
  refine Respects.bind h.trans (respects_onGraph h.tips) fun waiting => ?_
  dsimp only
  split
  · exact Respects.bind h.trans (fun s => h.refl s) fun _ => Respects.pure h.refl _
  · exact Respects.pure h.refl _

theorem publishRecord (h : Beside config S R) {pub : Publication}
    (hpub : ∀ p, Publication.Packet config pub p → S p) (record : Record) :
    Respects R (publishRecord config pub record) := by
  intro s
  rw [LedgerHandlers.publishRecord, exec_bind_ok (exec_getNextName config s)]
  refine Respects.bind h.trans (respects_onGraph ?_) (fun _ => ?_) s
  · exact Respects.foldlM h.graph_refl h.graph_trans
      (fun _ p hp => h.insert p (hpub p ⟨s.seqNo + 1, _, hp⟩)) ()
  · cases pub.seqNo with
    | none => exact Respects.throw h.refl _
    | some seqNo => exact fun s => h.number s seqNo

/-- What is done for a new record after the graph has taken it. -/
theorem index (h : Beside config S R) (payload : Buffer) (stateName name : Name) :
    Respects R (do
      onDag (addPayloadMap payload stateName)
      onDag (updateStatesTracker config (toStateName name) false)
      dagHarvest config) :=
  Respects.bind h.trans (respects_onGraph (h.map payload stateName)) fun _ =>
    Respects.bind h.trans (respects_onGraph (h.track _)) fun _ => h.harvest

theorem storeData (h : Beside config S R) {data : Data} (hd : S data) (payload : Buffer)
    (stateName : Name) : Respects (onGraph R) (do
      let isNew ← LedgerHandlers.insertNew data
      if isNew then do
        tryCatch (addPayloadMap payload stateName) fun _ => pure ()
        return true
      else return false) := by
  refine Respects.bind h.graph_trans (h.insertNew hd) fun isNew => ?_
  split
  · exact Respects.bind h.graph_trans (Respects.tryCatch h.graph_trans (h.map payload stateName)
      fun _ => Respects.pure h.graph_refl ()) fun _ => Respects.pure h.graph_refl true
  · exact Respects.pure h.graph_refl false

theorem storePayload (h : Beside config S R) (hS : ∀ data, S data) (payload : Buffer)
    (stateName : Name) : Respects (onGraph R) (storePayload payload stateName) :=
  Respects.bind h.graph_trans (fun d => h.graph_refl d) fun _ =>
    Respects.bind h.graph_trans (fun d => h.graph_refl d) fun data =>
      h.storeData (hS data) payload stateName

/-- What is done for a synced record after the graph has taken it. -/
theorem store (h : Beside config S R) {record : Record} (stateName : Name)
    (hpay : record.type ≠ REPLY_RECORD →
      Respects (onGraph R) (LedgerHandlers.storePayload record.payload stateName)) :
    Respects R (do
      onDag (updateStatesTracker config stateName false)
      let goesOn ← onDag (yieldPayload record stateName)
      if goesOn then dagHarvest config else return ()) := by
  refine Respects.bind h.trans (respects_onGraph (h.track _)) fun _ =>
    Respects.bind h.trans (respects_onGraph ?_) fun goesOn => ?_
  · unfold yieldPayload
    split
    · rename_i htype
      exact hpay htype
    · exact Respects.pure h.graph_refl true
  · split
    · exact h.harvest
    · exact Respects.pure h.refl _

end Beside

namespace Lawful
variable {config} {S : Data → Prop} {R : LedgerModule → LedgerModule → Prop}

theorem logRecord (h : Lawful config S R) (record : Record) :
    Respects R (logRecord config record) :=
  Respects.bind h.trans (respects_onGraph (h.add record)) fun stateName =>
    h.index _ stateName record.name

theorem logPayload (h : Lawful config S R) {pub : Publication}
    (hpub : ∀ p, Publication.Packet config pub p → S p) (payload : Buffer) :
    Respects R (logPayload config pub payload) :=
  Respects.bind h.trans (h.newRecord payload) fun record =>
    Respects.bind h.trans (h.publishRecord hpub record) fun _ => h.logRecord _

theorem onDataSubmission (h : Lawful config S R) {data : Data} {pub : Publication} (hd : S data)
    (hpub : ∀ p, Publication.Packet config pub p → S p) (verdict : Bool) :
    Respects R (onDataSubmission config data verdict pub) := by
  unfold LedgerHandlers.onDataSubmission
  split
  · refine Respects.tryCatch h.trans (Respects.bind h.trans (Respects.bind h.trans
      (respects_onGraph (h.insertNew hd)) fun isNew => ?_) fun _ => Respects.pure h.refl _)
      fun _ => Respects.pure h.refl _
    split
    · exact h.logPayload hpub _
    · exact Respects.pure h.refl _
  · exact Respects.pure h.refl _

theorem yieldRecord (h : Lawful config S R) {record : Record}
    (hpay : record.type ≠ REPLY_RECORD →
      ∀ stateName, Respects (onGraph R) (LedgerHandlers.storePayload record.payload stateName)) :
    Respects R (yieldRecord config record) :=
  Respects.bind h.trans (respects_onGraph (h.add record)) fun stateName =>
    h.store stateName fun htype => hpay htype stateName

theorem logReply (h : Lawful config S R) {pub : Publication}
    (hpub : ∀ p, Publication.Packet config pub p → S p) (pointers : List Name) :
    Respects R (logReply config pub pointers) :=
  Respects.bind h.trans (h.publishRecord hpub _) fun _ =>
    Respects.bind h.trans (respects_onGraph (h.add _)) fun _ => h.harvest

end Lawful

/-! ### Relations between graph modules -/

section
variable {config} {S : Data → Prop} {R : DagModule → DagModule → Prop}

theorem respects_dagHarvest (refl : ∀ d, R d d) (trans : ∀ d d' d'', R d d' → R d' d'' → R d d'')
    (hharvest : Respects R (harvestAbove config.toDagConfig config.policyThreshold true))
    (htrack : ∀ n, Respects R (updateStatesTracker config n true)) :
    Respects (onLedger R) (dagHarvest config) := by
  have refl := onLedger_refl refl
  have trans := onLedger_trans trans
  refine Respects.bind trans (respects_onDag hharvest) fun l =>
    Respects.foldlM refl trans (fun _ r _ => ?_) ()
  exact Respects.bind trans (fun s => refl s) fun _ => respects_onDag (htrack _)

theorem respects_publishReply (h : Lawful config S (onLedger R)) {pub : Publication}
    (hpub : ∀ p, Publication.Packet config pub p → S p)
    (hbelow : Respects R (harvestBelow config.toDagConfig config.policyThreshold)) :
    Respects (onLedger R) (publishReply config pub) := by
  refine Respects.bind h.trans (respects_onDag hbelow) fun l =>
    Respects.bind h.trans (Respects.foldlM h.refl h.trans (fun pointers r _ => ?_) [])
      fun pointers => ?_
  · intro s
    rw [collectReply, exec_bind_ok (exec_get s)]
    split
    · exact h.refl s
    · exact h.refl s
  · split
    · exact h.logReply hpub pointers
    · exact Respects.pure h.refl _

end

theorem steady_lawful : Lawful config (fun _ => True) (onLedger Steady) where
  refl := onLedger_refl steady_refl
  trans := onLedger_trans steady_trans
  number s _ := onLedger_refl steady_refl s
  add record := (steady_of_tame (tame_add _ record)).mono fun _ _ => onGraph_onLedger
  tips := (steady_of_tame (tame_getWaitList config.toDagConfig 0)).mono
    fun _ _ => onGraph_onLedger
  insert _ _ := (steady_of_stores (stores_insert (S := fun _ => True) trivial)
    PacketOf.foreign).mono fun _ _ => onGraph_onLedger
  map payload n := (steady_addPayloadMap payload n).mono fun _ _ => onGraph_onLedger
  track n := (steady_updateStatesTracker config n false).mono fun _ _ => onGraph_onLedger
  harvest := respects_dagHarvest steady_refl steady_trans
    (steady_of_tame (tame_harvestAbove _ _ _)) fun n => steady_updateStatesTracker config n true

theorem steady_handle (event : Event) : Respects (onLedger Steady) (event.handle config) := by
  have h := steady_lawful config
  cases event with
  | submission data verdict pub =>
      exact Respects.bind h.trans (h.onDataSubmission trivial (fun _ _ => trivial) verdict)
        fun _ => Respects.pure h.refl _
  | sync record =>
      exact h.yieldRecord fun _ n => h.storePayload (fun _ => trivial) record.payload n
  | reply pub =>
      exact respects_publishReply h (fun _ _ => trivial) (steady_of_tame (tame_harvestBelow _ _))

/-! ## Every run -/

theorem after_append (faults : List Bool) (before rest : List Event) :
    after config faults (before ++ rest) = rest.foldl (perform config) (after config faults before) :=
  List.foldl_append

theorem keeps_initializeTracker (d : DagModule) (h : Keyed d) :
    Keeps d (exec initializeTracker d).2 := by
  have hadd : Respects (Stores fun _ b => b.type = TLV_EDGE_STATE_LIST_TYPE)
      (adder trackerName (encodeEdgeStateList
        { listName := trackerName, key := globalTracker, nextList := getStateListNull })) :=
    stores_adder rfl
  exact steady_of_stores (Respects.tryCatch trans_stores hadd fun _ => Respects.pure Stores.refl ())
    (fun _ b hb => by rw [hb]; decide) d h

/-- Whatever happens, a block that is a state is stored under the state's name. -/
theorem after_keyed (faults : List Bool) (events : List Event) :
    Keyed (after config faults events).toDagModule := by
  induction events using List.reverseRecOn with
  | nil => exact (keeps_initializeTracker _ fun n s hs => by simp [stateAt] at hs).keyed
  | append_singleton events event ih =>
      rw [after_append]
      exact (steady_handle config event _ ih).keyed

end

end CertLedger.LedgerEffects
