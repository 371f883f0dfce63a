import CertLedger.LedgerSafety

/-!
# The answers to queries

The answer to a query for logged Data holds the record that logs it and as many
of its endorsers as the interlock takes. For an interlocked record these are
there in every run, whatever names the Data of peers had.
-/
namespace CertLedger.LedgerQueries
open Std TlvCodec FallibleState NdnObjects RecordCodec EdgeStateCodec LedgerIndexCodec
open InterlockPolicies EdgeStateList PayloadMap OrderedContainers EndorsementDag DagEngine
open DagStates DagUpdates DagRefinement LedgerHandlers LedgerConsistency LedgerSafety PlainNdn
open Relation

def encoder (content : List Block) (n : Name) : DagM (List Block) := do
  let tlv ← getter n
  return content ++ [tlv]

/-- One of the selected endorsers, with their count so far. -/
def encodeDescendant (config : LedgerConfig) (acc : List Block × ℕ) (des : Name) :
    DagM (List Block × ℕ) := do
  if acc.2 < config.policyThreshold then do
    let content ← encoder acc.1 (fromStateName des)
    return (content, acc.2 + 1)
  else return (acc.1, acc.2 + 1)

/-- The blocks in the content of the answer. -/
def queryContent (config : LedgerConfig) (state : EdgeState) : DagM (List Block) := do
  let content ← encoder [] (fromStateName state.stateName)
  let out ← (config.policy.select state).toList.foldlM (encodeDescendant config) (content, 0)
  return out.1

section
variable {d : DagModule}

theorem exec_encoder (h : d.storage.faults = []) {n : Name} {b : Block}
    (hb : d.storage.list[n]? = some b) (content : List Block) :
    exec (encoder content n) d = (.ok (content ++ [b]), d) := by
  rw [encoder, exec_bind_ok (exec_getter h hb)]
  rfl

/-- The endorsers up to the threshold are looked up. -/
theorem exec_encodeDescendants (config : LedgerConfig) (h : d.storage.faults = [])
    {names : List Name} (hdata : ∀ x ∈ names, ∃ b, d.storage.list[fromStateName x]? = some b)
    (content : List Block) :
    ∃ blocks k, exec (names.foldlM (encodeDescendant config) (content, 0)) d =
        (.ok (content ++ blocks, k), d) ∧
      blocks.map some = (names.take config.policyThreshold).map fun x =>
        d.storage.list[fromStateName x]? := by
  obtain ⟨⟨out, k⟩, t, hrun, rfl, -, blocks, rfl, hblocks⟩ := exec_foldlM
    (f := encodeDescendant config)
    (fun done acc t => t = d ∧ acc.2 = done.length ∧ ∃ blocks, acc.1 = content ++ blocks ∧
      blocks.map some = (done.take config.policyThreshold).map fun x =>
        d.storage.list[fromStateName x]?) names
    (by
      rintro done x rest acc t hdone ⟨ht, hcount, blocks, hacc, hblocks⟩
      subst ht
      obtain ⟨b, hb⟩ := hdata x (by simp [hdone])
      by_cases hlt : acc.2 < config.policyThreshold
      · refine ⟨(acc.1 ++ [b], acc.2 + 1), t, ?_, rfl, by simp [hcount], blocks ++ [b], ?_, ?_⟩
        · rw [encodeDescendant, if_pos hlt, exec_bind_ok (exec_encoder h hb acc.1)]
          rfl
        · rw [hacc, List.append_assoc]
        · have hone : [x].take (config.policyThreshold - done.length) = [x] :=
            List.take_of_length_le (by simp; omega)
          rw [List.take_append, hone, List.map_append, List.map_append, hblocks]
          simp [hb]
      · refine ⟨(acc.1, acc.2 + 1), t, by rw [encodeDescendant, if_neg hlt]; rfl, rfl,
          by simp [hcount], blocks, hacc, ?_⟩
        have hnone : [x].take (config.policyThreshold - done.length) = [] := by
          rw [show config.policyThreshold - done.length = 0 by omega, List.take_zero]
        rw [List.take_append, hnone, List.append_nil]
        exact hblocks)
    (b := (content, 0)) (s := d) ⟨rfl, rfl, [], (List.append_nil _).symm, by simp⟩
  exact ⟨blocks, k, hrun, hblocks⟩

end

section
variable [NdnCxx] (config : LedgerConfig)

/-- The state that the payload of stored Data is mapped to. -/
def queryState (dataName : Name) : DagM EdgeState := do
  let payloadBlock ← getter dataName
  let mapBlock ← getter (toMapName payloadBlock.wire)
  let payloadMap ← lift (decodePayloadMap mapBlock)
  let stateBlock ← getter payloadMap.mapTo
  lift (decodeEdgeState stateBlock)

def onQuery (dataName : Name) : DagM (List Block) := do
  let state ← queryState dataName
  queryContent config state

section
variable {d : DagModule}

/-- Queries change nothing. -/
theorem queryState_reads (dataName : Name) (h : d.storage.faults = []) :
    (exec (queryState dataName) d).2 = d := by
  let R : DagModule → DagModule → Prop := fun d d' => d.storage.faults = [] → d' = d
  have refl : ∀ d, R d d := fun _ _ => rfl
  have trans : ∀ d d' d'', R d d' → R d' d'' → R d d'' := by
    intro d d' d'' hd hd' hr
    obtain rfl := hd hr
    exact hd' hr
  have hget : ∀ n, Respects R (getter n) := by
    intro n d hr
    rw [getter, exec_onStorage, exec_getBlock hr]
  refine Respects.bind trans (hget _) (fun _ => Respects.bind trans (hget _) fun _ =>
    Respects.bind trans (fun _ => refl _) fun _ => Respects.bind trans (hget _) fun _ =>
      fun _ => refl _) d h

/-- The blocks that prove the interlock of a state, and the endorsers they are the records of. -/
structure InterlockProof (d : DagModule) (n : Name) (blocks : List Block) (names : List Name) :
    Prop where
  records : blocks.map some = names.map fun x => d.storage.list[(node d x).record.name]?
  length : names.length = config.policyThreshold
  distinct : names.Nodup
  endorse : ∀ x ∈ names, (node d x).status ≠ .INITIALIZED ∧
    (node d x).record.isGenesis = false ∧ TransGen (abs d).edge x n
  producers : config.policy = .witness → (names.map dataPrefix).Nodup

/-- The endorsers in the answer, for a fair module. -/
theorem queryContent_proof {n : Name} {s : EdgeState} {t : ℕ}
    (h : DagSafety.Fair config.toDagConfig t d) (hs : stateAt d n = some s)
    (ht : config.policyThreshold ≤ config.policy.evaluate s)
    (hdata : ∀ x, (node d x).status ≠ .INITIALIZED →
      ∃ b, d.storage.list[(node d x).record.name]? = some b)
    (hloaded : s.status ≠ .INITIALIZED) :
    ∃ b blocks names, exec (queryContent config s) d = (.ok (b :: blocks), d) ∧
      d.storage.list[s.record.name]? = some b ∧ InterlockProof config d n blocks names := by
  have hnode : node d n = Node.of s := node_of_stateAt hs
  obtain ⟨-, hname, -⟩ := h.legible.state hs
  have hrecord : s.record.name = fromStateName n :=
    (congrArg (fun v => v.record.name) hnode).symm.trans
      (h.legible.record_name (by simp [Stored, hs]))
  have hrname : ∀ x, (node d x).status ≠ .INITIALIZED → (node d x).record.name = fromStateName x :=
    fun x hx => h.legible.record_name (stored_of_status hx)
  let selected := (config.policy.select s).toList
  have hselected : ∀ x ∈ selected, (node d x).status ≠ .INITIALIZED ∧
      (node d x).record.isGenesis = false ∧ TransGen (abs d).edge x n := by
    intro x hx
    have hdesc : x ∈ (abs d).desc n := by
      rw [mem_desc, hnode]
      exact mem_select (ExtTreeSet.mem_toList.mp hx)
    obtain ⟨hcount, hreach⟩ := h.sound n hdesc
    exact ⟨hcount.1, hcount.2, hreach⟩
  have htake : ∀ x ∈ selected.take config.policyThreshold, x ∈ selected :=
    fun x hx => List.mem_of_mem_take hx
  obtain ⟨b, hb⟩ := hdata n (hnode ▸ hloaded)
  have hb : d.storage.list[s.record.name]? = some b := by
    rw [hnode] at hb
    exact hb
  have hlookup : ∀ x ∈ selected, ∃ b, d.storage.list[fromStateName x]? = some b := by
    intro x hx
    have hx' := (hselected x hx).1
    exact hrname x hx' ▸ hdata x hx'
  obtain ⟨blocks, k, hrun, hblocks⟩ :=
    exec_encodeDescendants config h.legible.reliable hlookup ([] ++ [b])
  refine ⟨b, blocks, selected.take config.policyThreshold, ?_, hb, ?_, ?_, ?_, ?_, ?_⟩
  · rw [queryContent, hname, ← hrecord, exec_bind_ok (exec_encoder h.legible.reliable hb []),
      exec_bind_ok hrun]
    rfl
  · rw [hblocks]
    exact List.map_congr_left fun x hx => by rw [hrname x (hselected x (htake x hx)).1]
  · rw [List.length_take]
    have : selected.length = config.policy.evaluate s := ExtTreeSet.length_toList
    omega
  · exact (nodup_toList _).sublist (List.take_sublist _ _)
  · exact fun x hx => hselected x (htake x hx)
  · intro hpolicy
    refine ((nodup_toList _).sublist (List.take_sublist _ _)).map_on fun x hx y hy he => ?_
    have hx' := ExtTreeSet.mem_toList.mp (htake x hx)
    have hy' := ExtTreeSet.mem_toList.mp (htake y hy)
    rw [hpolicy] at hx' hy'
    exact select_distinct hx' hy' he

end

/-- The answer for an interlocked record proves its interlock: no lookup fails, and there are
as many endorsers in it as the threshold asks for. -/
theorem query_proof (events : List Event) {n : Name} {s : EdgeState}
    (hs : stateAt (after config [] events).toDagModule n = some s)
    (hlocked : s.status = .INTERLOCKED)
    (hdata : ∀ x, (node (after config [] events).toDagModule x).status ≠ .INITIALIZED →
      ∃ b, (after config [] events).storage.list[
        (node (after config [] events).toDagModule x).record.name]? = some b) :
    ∃ b blocks names,
      exec (queryContent config s) (after config [] events).toDagModule =
        (.ok (b :: blocks), (after config [] events).toDagModule) ∧
      (∀ dataName, (exec (queryState dataName) (after config [] events).toDagModule).1 = .ok s →
        exec (onQuery config dataName) (after config [] events).toDagModule =
          (.ok (b :: blocks), (after config [] events).toDagModule)) ∧
      (after config [] events).storage.list[s.record.name]? = some b ∧
      InterlockProof config (after config [] events).toDagModule n blocks names := by
  have h := after_secure config events
  generalize after config [] events = ledger at *
  have hnode : node ledger.toDagModule n = Node.of s := node_of_stateAt hs
  have hearned : config.policyThreshold ≤ config.policy.evaluate s := by
    rw [← HarvestRuns.evaluate_eq hs]
    exact h.fair.earned n (hnode ▸ hlocked)
  obtain ⟨b, blocks, names, hrun, hb, hproof⟩ := queryContent_proof config h.fair hs hearned hdata
    fun he => Status.noConfusion (hlocked.symm.trans he)
  refine ⟨b, blocks, names, hrun, fun dataName hquery => ?_, hb, hproof⟩
  have hread := queryState_reads dataName h.fair.legible.reliable
  exact (exec_bind_ok (Prod.ext hquery hread)).trans hrun

end

section

local instance : NdnCxx := plainNdn packetDigests

/-- A submission and the reply to its record. -/
def answeredA : List Event :=
  [.submission (packetData nameA [1]) true (publication (some 1)), .reply (publication (some 2))]

theorem data_of_all {d : DagModule} (h : d.storage.list.toList.all (fun e =>
      (decodeEdgeState e.2).toOption.all fun s => d.storage.list[s.record.name]?.isSome) = true)
    (x : Name) (hx : (node d x).status ≠ .INITIALIZED) :
    ∃ b, d.storage.list[(node d x).record.name]? = some b := by
  obtain ⟨s, hs⟩ := Option.isSome_iff_exists.mp (stored_of_status hx)
  obtain ⟨block, hb, hd⟩ := stateAt_eq_some.mp hs
  have hmem : (x, block) ∈ d.storage.list.toList :=
    ExtTreeMap.mem_toList_iff_getElem?_eq_some.mpr hb
  have hall := List.all_eq_true.mp h _ hmem
  rw [hd] at hall
  rw [node_of_stateAt hs]
  exact Option.isSome_iff_exists.mp hall

theorem query_proof_answeredA :
    ∃ s, stateAt (after ledger [] answeredA).toDagModule
        (toStateName (ledger.instancePrefix.appendSequenceNumber 1)) = some s ∧
      ∃ b blocks names,
        exec (queryContent ledger s) (after ledger [] answeredA).toDagModule =
          (.ok (b :: blocks), (after ledger [] answeredA).toDagModule) ∧
        (∀ dataName, (exec (queryState dataName) (after ledger [] answeredA).toDagModule).1 = .ok s →
          exec (onQuery ledger dataName) (after ledger [] answeredA).toDagModule =
            (.ok (b :: blocks), (after ledger [] answeredA).toDagModule)) ∧
        (after ledger [] answeredA).storage.list[s.record.name]? = some b ∧
        InterlockProof ledger (after ledger [] answeredA).toDagModule
          (toStateName (ledger.instancePrefix.appendSequenceNumber 1)) blocks names := by
  have hlocked : (stateAt (after ledger [] answeredA).toDagModule
      (toStateName (ledger.instancePrefix.appendSequenceNumber 1))).any
        (fun s => s.status = .INTERLOCKED) = true := by decide +kernel
  rw [Option.any_eq_true] at hlocked
  obtain ⟨s, hs, hlocked⟩ := hlocked
  exact ⟨s, hs, query_proof ledger answeredA hs (of_decide_eq_true hlocked)
    (data_of_all (by decide +kernel))⟩

end

end CertLedger.LedgerQueries
