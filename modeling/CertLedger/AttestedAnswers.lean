import CertLedger.PayloadIndex
import CertLedger.QueryAnswers

/-!
# What an answer with records attests

The answer to a query for a certificate is read from one storage by four lookups in turn. In
a group the first record in it is a publication whose payload has the digest of the stored
certificate, and every other one is a publication that endorses the first.
-/
namespace CertLedger.AttestedAnswers
open Std TlvCodec FallibleState NdnObjects NdnPackets RecordCodec EdgeStateCodec LedgerIndexCodec
open InterlockPolicies PayloadMap OrderedContainers DagEngine DagStates DagUpdates DagEffects
open DagRefinement DagSafety LedgerHandlers LedgerEffects LedgerSafety BroadcastNetwork LedgerNetwork
open NetworkRuns LedgerQueries RecordChecker StoredPackets QueryAnswers PayloadIndex PlainNdn Relation

/-! ## What the lookups have found -/

theorem exec_getter_eq {d d' : DagModule} {n : Name} {b : Block} (h : d.storage.faults = [])
    (hrun : exec (getter n) d = (.ok b, d')) : d' = d ∧ d.storage.list[n]? = some b := by
  obtain ⟨r, hget, hok, -⟩ := exec_getter_any d n
  obtain ⟨hr, hd⟩ := Prod.mk.inj (hget.symm.trans hrun)
  refine ⟨?_, hok b hr⟩
  rw [← hd]
  have hspend : spend d.storage = d.storage := spend_of_reliable h
  rw [hspend]

/-- A storage that does not fail is left alone. -/
def Still (d d' : DagModule) : Prop := d.storage.faults = [] → d' = d

theorem Still.refl (d : DagModule) : Still d d := fun _ => rfl

theorem Still.trans (d d' d'' : DagModule) (h : Still d d') (h' : Still d' d'') : Still d d'' := by
  intro hr
  obtain rfl := h hr
  exact h' hr

theorem Still.getter (n : Name) : Respects Still (getter n) := by
  intro d hr
  obtain ⟨r, hget, -⟩ := exec_getter_any d n
  rw [hget, spend_of_reliable hr]

section
variable {d d' : DagModule}

theorem exec_encoder_eq {n : Name} {content out : List Block} (h : d.storage.faults = [])
    (hrun : exec (encoder content n) d = (.ok out, d')) :
    d' = d ∧ ∃ b, d.storage.list[n]? = some b ∧ out = content ++ [b] := by
  obtain ⟨b, t, hget, hpure⟩ := exec_bind_eq_ok hrun
  obtain ⟨rfl, hb⟩ := exec_getter_eq h hget
  obtain ⟨hout, hd⟩ := Prod.mk.inj hpure
  exact ⟨hd.symm, b, hb, (Except.ok.inj hout).symm⟩

/-- The endorsers that are looked up are those before the threshold. -/
theorem blocks_of_encodeDescendants {config : LedgerConfig} (h : d.storage.faults = [])
    (names : List Name) {content out : List Block} {k k' : ℕ}
    (hrun : exec (names.foldlM (encodeDescendant config) (content, k)) d = (.ok (out, k'), d')) :
    d' = d ∧ ∃ blocks, out = content ++ blocks ∧
      blocks.map some = (names.take (config.policyThreshold - k)).map fun x =>
        d.storage.list[fromStateName x]? := by
  induction names generalizing content k with
  | nil =>
      obtain ⟨hout, rfl⟩ := Prod.mk.inj hrun
      obtain ⟨rfl, -⟩ := Prod.mk.inj (Except.ok.inj hout)
      exact ⟨rfl, [], (List.append_nil _).symm, by simp⟩
  | cons x names ih =>
      rw [List.foldlM_cons] at hrun
      obtain ⟨⟨more, j⟩, t, hone, hrest⟩ := exec_bind_eq_ok hrun
      by_cases hlt : k < config.policyThreshold
      · rw [encodeDescendant, if_pos hlt] at hone
        obtain ⟨content', u, hcontent, hpure⟩ := exec_bind_eq_ok hone
        obtain ⟨rfl, b, hb, rfl⟩ := exec_encoder_eq h hcontent
        obtain ⟨hmore, rfl⟩ := Prod.mk.inj hpure
        obtain ⟨rfl, rfl⟩ := Prod.mk.inj (Except.ok.inj hmore)
        obtain ⟨rfl, blocks, rfl, hblocks⟩ := ih hrest
        refine ⟨rfl, b :: blocks, by simp, ?_⟩
        have hsucc : config.policyThreshold - k = config.policyThreshold - (k + 1) + 1 := by omega
        rw [hsucc, List.take_succ_cons, List.map_cons, List.map_cons, hblocks, hb]
      · rw [encodeDescendant, if_neg hlt] at hone
        obtain ⟨hmore, rfl⟩ := Prod.mk.inj hone
        obtain ⟨rfl, rfl⟩ := Prod.mk.inj (Except.ok.inj hmore)
        obtain ⟨rfl, blocks, rfl, hblocks⟩ := ih hrest
        refine ⟨rfl, blocks, rfl, ?_⟩
        have hnone : config.policyThreshold - k = 0 := by omega
        have hnone' : config.policyThreshold - (k + 1) = 0 := by omega
        rw [hnone', List.take_zero] at hblocks
        rw [hnone, List.take_zero]
        exact hblocks

variable [NdnCxx]

/-- The endorsers in the answer for a state. -/
def shown (config : LedgerConfig) (s : EdgeState) : List Name :=
  (config.policy.select s).toList.take config.policyThreshold

/-- What an answer was read from. -/
structure Found (config : LedgerConfig) (d : DagModule) (certName : Name) (blocks : List Block)
    (cert : Block) (map : PayloadMap) (s : EdgeState) : Prop where
  stored : d.storage.list[certName]? = some cert
  mapped : ∃ b, d.storage.list[toMapName cert.wire]? = some b ∧ decodePayloadMap b = .ok map
  state : stateAt d map.mapTo = some s
  read : blocks.map some =
    ((map.mapTo :: shown config s).map fromStateName).map fun n => d.storage.list[n]?

theorem exec_queryState_eq (h : d.storage.faults = []) {certName : Name} {s : EdgeState}
    (hrun : exec (queryState certName) d = (.ok s, d')) :
    d' = d ∧ ∃ cert mapBlock map, d.storage.list[certName]? = some cert ∧
      d.storage.list[toMapName cert.wire]? = some mapBlock ∧ decodePayloadMap mapBlock = .ok map ∧
      stateAt d map.mapTo = some s := by
  obtain ⟨cert, t, hcert, hrest⟩ := exec_bind_eq_ok hrun
  obtain ⟨ht, hcert⟩ := exec_getter_eq h hcert
  rw [ht] at hrest
  obtain ⟨mapBlock, u, hmap, hrest⟩ := exec_bind_eq_ok hrest
  obtain ⟨hu, hmap⟩ := exec_getter_eq h hmap
  rw [hu] at hrest
  obtain ⟨map, v, hread, hrest⟩ := exec_bind_eq_ok hrest
  obtain ⟨hread, hv⟩ := Prod.mk.inj hread
  rw [← hv] at hrest
  obtain ⟨stateBlock, w, hblock, hdecode⟩ := exec_bind_eq_ok hrest
  obtain ⟨hw, hblock⟩ := exec_getter_eq h hblock
  obtain ⟨hdecode, hd⟩ := Prod.mk.inj hdecode
  exact ⟨hd.symm.trans hw, cert, mapBlock, map, hcert, hmap, hread,
    stateAt_eq_some.mpr ⟨stateBlock, hblock, hdecode⟩⟩

omit [NdnCxx] in
theorem exec_queryContent_eq {config : LedgerConfig} (h : d.storage.faults = []) {s : EdgeState}
    {blocks : List Block} (hrun : exec (queryContent config s) d = (.ok blocks, d')) :
    blocks.map some =
      ((s.stateName :: shown config s).map fromStateName).map fun n => d.storage.list[n]? := by
  obtain ⟨first, t, hfirst, hrest⟩ := exec_bind_eq_ok hrun
  obtain ⟨ht, b, hb, rfl⟩ := exec_encoder_eq h hfirst
  rw [ht] at hrest
  obtain ⟨⟨out, k⟩, u, hloop, hpure⟩ := exec_bind_eq_ok hrest
  obtain ⟨-, rest, rfl, hblocks⟩ := blocks_of_encodeDescendants h _ hloop
  obtain rfl := Except.ok.inj (congrArg Prod.fst hpure)
  simp [shown, hb, hblocks, Function.comp_def]

theorem found_of_query {config : LedgerConfig} (h : Legible d) {certName : Name}
    {blocks : List Block} (hrun : exec (LedgerQueries.onQuery config certName) d = (.ok blocks, d')) :
    ∃ cert map s, Found config d certName blocks cert map s := by
  obtain ⟨s, t, hstate, hcontent⟩ := exec_bind_eq_ok hrun
  obtain ⟨ht, cert, mapBlock, map, hcert, hmap, hread, hs⟩ := exec_queryState_eq h.reliable hstate
  rw [ht] at hcontent
  have hblocks := exec_queryContent_eq h.reliable hcontent
  rw [(h.state hs).2.1] at hblocks
  exact ⟨cert, map, s, hcert, ⟨mapBlock, hmap, hread⟩, hs, hblocks⟩

/-! ## The Data in an answer -/

/-- What a checker reads from blocks that a ledger has stored are the Data with their names. -/
theorem names_of_content (hfiled : Filed d) (hkinds : Kinds d) {names : List Name}
    {blocks : List Block} (hblocks : blocks.map some = names.map fun n => d.storage.list[n]?)
    {acc out : List Data} (hread : blocks.foldlM readContent acc = .ok out) :
    out.map (·.name) = acc.map (·.name) ++ names := by
  induction blocks generalizing names acc with
  | nil =>
      obtain rfl := Except.ok.inj hread
      have hnone : names = [] := by simpa using hblocks
      rw [hnone, List.append_nil]
  | cons b blocks ih =>
      cases names with
      | nil => simp at hblocks
      | cons n names =>
          obtain ⟨hb, hrest⟩ := List.cons.inj hblocks
          rw [List.foldlM_cons] at hread
          have hkind := hkinds n b hb.symm
          by_cases htype : b.type = tlvData
          · cases hdata : Data.ofBlock b with
            | error e =>
                rw [readContent, if_pos htype, hdata] at hread
                cases hread
            | ok data =>
                rw [readContent, if_pos htype, hdata] at hread
                rw [ih hrest hread, List.map_append, List.append_assoc, List.map_singleton,
                  hfiled n b data hb.symm hdata]
                rfl
          · have hcritical : isCriticalType b.type = true := by
              rcases hkind with hkind | hkind | hkind
              · exact absurd hkind htype
              · rcases Decidable.not_and_iff_not_or_not.mp hkind with hstate | hlist
                · rw [not_not.mp hstate]
                  decide
                · rw [not_not.mp hlist]
                  decide
              · rw [hkind]
                decide
            rw [readContent, if_neg htype, if_pos hcritical] at hread
            cases hread

theorem names_of_answer (hfiled : Filed d) (hkinds : Kinds d) {names : List Name}
    {blocks : List Block} (hblocks : blocks.map some = names.map fun n => d.storage.list[n]?)
    {block : Block} (hblock : block.value = wireAll blocks) {dataVector : List Data}
    (hread : decodeContent block = .ok dataVector) : dataVector.map (·.name) = names := by
  have helements : block.elements = some blocks := Block.elements_wireAll hblock
  rw [decodeContent, helements] at hread
  have hnames := names_of_content hfiled hkinds hblocks hread
  exact hnames

end

/-! ## What is attested -/

section
variable [NdnCxx] {ι : Type} [DecidableEq ι]

/-- The names begin with a publication that has the digest of the stored Data. The others
are publications that endorse it, of different ledgers under the witness policy; with an
interlocked record there are as many as the threshold asks for. -/
structure Attests (config : LedgerConfig) (net : Network ι LedgerModule Record) (i : ι)
    (certName : Name) (names : List Name) (cert : Block) (p : ι × Record)
    (endorsers : List (ι × Record)) : Prop where
  stored : (net.parties i).storage.list[certName]? = some cert
  published : p ∈ net.published
  payload : NdnCxx.sha256 p.2.payload = NdnCxx.sha256 cert.wire
  names : names = p.2.name :: endorsers.map (·.2.name)
  backs : ∀ e ∈ endorsers, Backs net.published (toStateName p.2.name) e
  distinct : (endorsers.map (·.2.name)).Nodup
  ledgers : config.policy = .witness → (endorsers.map Prod.fst).Nodup
  bounded : endorsers.length ≤ config.policyThreshold
  full : (node (net.parties i).toDagModule (toStateName p.2.name)).status = .INTERLOCKED →
    endorsers.length = config.policyThreshold

def Attested (config : LedgerConfig) (net : Network ι LedgerModule Record) (i : ι)
    (certName : Name) (names : List Name) : Prop :=
  ∃ cert p endorsers, Attests config net i certName names cert p endorsers

theorem sha256_of_toMapName {payload payload' : Buffer} (h : toMapName payload = toMapName payload') :
    NdnCxx.sha256 payload = NdnCxx.sha256 payload' := by
  obtain ⟨-, hdigest⟩ := List.append_inj' h rfl
  exact congrArg Block.value (List.cons.inj hdigest).1

variable (group : ι → LedgerConfig) (steps : List (Step ι Request))

/-- The name of a published record leads back to its ledger. -/
theorem dataPrefix_published {p : ι × Record} (hp : p ∈ (groupAfter group steps).published) :
    dataPrefix (toStateName p.2.name) = (group p.1).instancePrefix := by
  obtain ⟨k, hk⟩ := named group steps p hp
  rw [dataPrefix, fromStateName_toStateName, hk]
  exact List.dropLast_concat

/-- The shown endorsers of a state are publications. -/
theorem endorsers_of_shown {i : ι} {n : Name} {s : EdgeState}
    (hs : stateAt ((groupAfter group steps).parties i).toDagModule n = some s) :
    ∃ endorsers : List (ι × Record), endorsers.map (fun e => toStateName e.2.name) =
        shown (group i) s ∧
      ∀ e ∈ endorsers, Backs (groupAfter group steps).published n e := by
  have hback : ∀ x ∈ shown (group i) s, ∃ p, Backs (groupAfter group steps).published n p ∧
      toStateName p.2.name = x := by
    intro x hx
    apply backs_of_descendant group
    rw [node_of_stateAt hs]
    exact mem_select (ExtTreeSet.mem_toList.mp (List.mem_of_mem_take hx))
  have : Nonempty (ι × Record) := ⟨(i, {})⟩
  choose! record hrecord hname using hback
  refine ⟨(shown (group i) s).map record, ?_, ?_⟩
  · rw [List.map_map]
    exact (List.map_congr_left hname).trans (List.map_id _)
  · intro e he
    obtain ⟨x, hx, rfl⟩ := List.mem_map.mp he
    exact hrecord x hx

/-- What a query finds at a ledger of the group is backed by publications. -/
theorem attested_of_found {i : ι} {certName : Name} {blocks : List Block} {cert : Block}
    {map : PayloadMap} {s : EdgeState}
    (h : Found (group i) ((groupAfter group steps).parties i).toDagModule certName blocks cert map s) :
    Attested (group i) (groupAfter group steps) i certName
      ((map.mapTo :: shown (group i) s).map fromStateName) := by
  obtain ⟨b, hb, hread⟩ := h.mapped
  obtain ⟨p, hp, hpayload, hstate⟩ := indexed_group group steps i _ b map hb hread
  obtain ⟨endorsers, hshown, hbacks⟩ := endorsers_of_shown group steps h.state
  have hsecure := secure_group group steps i
  have hnode := node_of_stateAt h.state
  have hprefixes : (shown (group i) s).map dataPrefix =
      endorsers.map fun e => (group e.1).instancePrefix := by
    rw [← hshown, List.map_map]
    exact List.map_congr_left fun e he => dataPrefix_published group steps (hbacks e he).published
  have hnodup : (shown (group i) s).Nodup := (nodup_toList _).sublist (List.take_sublist _ _)
  have hlength : endorsers.length = (shown (group i) s).length := by
    rw [← hshown, List.length_map]
  have hselected : (((group i).policy.select s).toList).length = (group i).policy.evaluate s :=
    ExtTreeSet.length_toList
  rw [hstate] at hbacks
  refine ⟨cert, p, endorsers, h.stored, hp, sha256_of_toMapName hpayload.symm, ?_, hbacks, ?_, ?_, ?_, ?_⟩
  · rw [List.map_cons, hstate, fromStateName_toStateName, ← hshown, List.map_map]
    rfl
  · rw [← hshown] at hnodup
    exact List.Nodup.of_map (f := toStateName) (by rwa [List.map_map])
  · intro hpolicy
    have hdistinct : ((shown (group i) s).map dataPrefix).Nodup := by
      refine hnodup.map_on fun x hx y hy he => ?_
      have hx' := ExtTreeSet.mem_toList.mp (List.mem_of_mem_take hx)
      have hy' := ExtTreeSet.mem_toList.mp (List.mem_of_mem_take hy)
      rw [hpolicy] at hx' hy'
      exact select_distinct hx' hy' he
    rw [hprefixes] at hdistinct
    exact List.Nodup.of_map (f := fun j => (group j).instancePrefix) (by rwa [List.map_map])
  · rw [hlength, shown, List.length_take]
    exact Nat.min_le_left _ _
  · intro hlocked
    have hearned : (group i).policyThreshold ≤ (group i).policy.evaluate s := by
      rw [← HarvestRuns.evaluate_eq h.state]
      rw [← hstate] at hlocked
      exact hsecure.fair.earned _ hlocked
    rw [hlength, shown, List.length_take]
    omega

end

/-! ## Objects that are answers -/

section
variable [NdnCxx] {config : ServiceConfig} {d d' : DagModule} {query : Interest} {time : UInt64}

theorem answer_of_tryCatch {x : DagM Answer} {name : Name} {answer : Answer}
    (hrun : exec (tryCatch x fun _ => return sendNack name time) d = (.ok answer, d')) :
    exec x d = (.ok answer, d') ∨ answer = sendNack name time := by
  rw [exec_tryCatch] at hrun
  split at hrun
  · rename_i a t htried
    exact .inl (htried.trans hrun)
  · exact .inr (Except.ok.inj (congrArg Prod.fst hrun)).symm

theorem answer_of_replyOrSendNack {name : Name} {answer : Answer}
    (hrun : exec (replyOrSendNack name time) d = (.ok answer, d')) :
    answer.Plain ∨ answer = sendNack name time := by
  rcases answer_of_tryCatch hrun with hrun | hnack
  · obtain ⟨block, t, -, hrest⟩ := exec_bind_eq_ok hrun
    obtain ⟨data, u, -, hpure⟩ := exec_bind_eq_ok hrest
    obtain rfl := Except.ok.inj (congrArg Prod.fst hpure)
    exact .inl trivial
  · exact .inr hnack

/-- The ledger signs nothing for a query but a nack for it, or an object under its name with
what the lookups for a certificate have found. -/
theorem answer_of_query {answer : Answer}
    (hrun : exec (QueryAnswers.onQuery config query time) d = (.ok answer, d')) :
    answer.Plain ∨ answer = sendNack query.name time ∨
      ∃ certName blocks, setLast query.name 4 KEY = some certName ∧
        exec (LedgerQueries.onQuery config.toLedgerConfig certName) d = (.ok blocks, d') ∧
        answer = sendResponse config query.name
          ⟨tlvContent, wireAll blocks, tlvContent_pos, tlvContent_lt⟩ time := by
  unfold QueryAnswers.onQuery at hrun
  split_ifs at hrun
  · obtain rfl := Except.ok.inj (congrArg Prod.fst hrun)
    exact .inl trivial
  · exact (answer_of_replyOrSendNack hrun).imp_right .inl
  · cases hset : setLast query.name 4 KEY with
    | none =>
        rw [hset] at hrun
        obtain rfl := Except.ok.inj (congrArg Prod.fst hrun)
        exact .inl trivial
    | some certName =>
        rw [hset] at hrun
        dsimp only at hrun
        split_ifs at hrun
        · rcases answer_of_tryCatch hrun with hrun | hnack
          · obtain ⟨blocks, u, hquery, hpure⟩ := exec_bind_eq_ok hrun
            obtain ⟨hanswer, rfl⟩ := Prod.mk.inj hpure
            exact .inr (.inr ⟨certName, blocks, rfl, hquery, (Except.ok.inj hanswer).symm⟩)
          · exact .inr (.inl hnack)
        · exact (answer_of_replyOrSendNack hrun).imp_right .inl

/-- The same for an object that the ledger keeps for itself. -/
theorem answer_of_internal {answer : Answer}
    (hrun : exec (onInternalObject config query time) d = (.ok answer, d')) :
    answer.Plain ∨ answer = sendNack query.name time ∨
      ∃ block, answer = sendResponse config query.name block time := by
  unfold onInternalObject at hrun
  split_ifs at hrun
  · rcases answer_of_tryCatch hrun with hrun | hnack
    · obtain ⟨block, t, -, hpure⟩ := exec_bind_eq_ok hrun
      exact .inr (.inr ⟨block, (Except.ok.inj (congrArg Prod.fst hpure)).symm⟩)
    · exact .inr (.inl hnack)
  · obtain rfl := Except.ok.inj (congrArg Prod.fst hrun)
    exact .inl trivial

/-- What an Interest is answered with comes from one of the two handlers. -/
theorem answers_of_onInterest (h : d.storage.faults = []) {answers : List Answer}
    (hrun : exec (onInterest config query time) d = (.ok answers, d')) :
    d' = d ∧ ∀ answer ∈ answers,
      exec (QueryAnswers.onQuery config query time) d = (.ok answer, d) ∨
        config.instancePrefix ++ [internal] <+: query.name ∧
          exec (onInternalObject config query time) d = (.ok answer, d) := by
  have hinternal := respects_onInternalObject Still.refl Still.trans Still.getter config query time d h
  have hquery := respects_onQuery Still.refl Still.trans Still.getter config query time d h
  obtain ⟨objects, t, hobjects, hrest⟩ := exec_bind_eq_ok hrun
  obtain ⟨rfl, hobjects⟩ := exec_mapM_same (fun _ _ => hinternal) hobjects
  obtain ⟨records, u, hrecords, hpure⟩ := exec_bind_eq_ok hrest
  obtain ⟨rfl, hrecords⟩ := exec_mapM_same (fun _ _ => hquery) hrecords
  obtain ⟨hanswers, hd⟩ := Prod.mk.inj hpure
  obtain rfl := Except.ok.inj hanswers
  refine ⟨hd.symm, fun answer ha => ?_⟩
  rcases List.mem_append.mp ha with ha | ha
  · obtain ⟨header, hheader, hrun⟩ := hobjects answer ha
    have hname := List.isPrefixOf_iff_prefix.mp (List.mem_filter.mp hheader).2
    have hsplit : config.instancePrefix ++ internal :: header =
        config.instancePrefix ++ [internal] ++ header := by simp
    rw [hsplit] at hname
    exact .inr ⟨(List.prefix_append _ _).trans hname, hrun⟩
  · obtain ⟨zone, -, hrun⟩ := hrecords answer ha
    exact .inl hrun

end

section
variable [NdnCxx] {ι : Type} [DecidableEq ι] (group : ι → ServiceConfig)

/-- The group without what its ledgers need for their answers. -/
abbrev ledgers : ι → LedgerConfig := fun i => (group i).toLedgerConfig

theorem attested_of_query (steps : List (Step ι Request)) (i : ι) {certName : Name}
    {blocks : List Block} {d' : DagModule}
    (hrun : exec (LedgerQueries.onQuery (ledgers group i) certName)
      ((groupAfter (ledgers group) steps).parties i).toDagModule = (.ok blocks, d')) :
    ∃ names, Attested (ledgers group i) (groupAfter (ledgers group) steps) i certName names ∧
      ∀ block dataVector, block.value = wireAll blocks →
        decodeContent block = .ok dataVector → dataVector.map (·.name) = names := by
  have hsecure := secure_group (ledgers group) steps i
  obtain ⟨cert, map, s, hfound⟩ := found_of_query hsecure.fair.legible hrun
  refine ⟨_, attested_of_found (ledgers group) steps hfound, fun block dataVector hblock hread => ?_⟩
  have hparty : (groupAfter (ledgers group) steps).parties i = after (ledgers group i) []
      (history (fun i => machine (ledgers group i)) i newGroup steps) := parties_after _ _ i
  rw [hparty] at hfound
  exact names_of_answer (after_filed _ [] _) (after_kinds _ [] _) hfound.read hblock hread

/-- In every run of a group, an object that answers a query holds, as far as it can be read,
the records of a publication with the digest of the stored certificate and of its endorsers. -/
theorem answers_attested (steps : List (Step ι Request)) (i : ι) (query : Interest) (time : UInt64)
    (producer : Producer)
    (hrun : (exec (QueryAnswers.onQuery (group i) query time)
      ((groupAfter (ledgers group) steps).parties i).toDagModule).1 = .ok (.object producer)) :
    ∃ certName names block, setLast query.name 4 KEY = some certName ∧
      Answer.object producer = sendResponse (group i) query.name block time ∧
      Attested (ledgers group i) (groupAfter (ledgers group) steps) i certName names ∧
      ∀ dataVector, decodeContent block = .ok dataVector → dataVector.map (·.name) = names := by
  rcases answer_of_query (Prod.ext hrun rfl) with
    hplain | hnack | ⟨certName, blocks, hset, hquery, hproducer⟩
  · exact hplain.elim
  · cases hnack
  · obtain ⟨names, hattested, hnames⟩ := attested_of_query group steps i hquery
    exact ⟨certName, names, _, hset, hproducer, hattested, fun dataVector => hnames _ dataVector rfl⟩

end

/-! ## A certificate at two ledgers -/

/-- The name "/A/KEY/B/C/D". -/
def certA : Name := nameA ++ [KEY, Name.generic [66], Name.generic [67], Name.generic [68]]

/-- The name "/A/RECORD/B/C/D". -/
def recordA : Name := nameA ++ [RECORD, Name.generic [66], Name.generic [67], Name.generic [68]]

/-- The name that the second ledger gives to its first publication. -/
def replyName : Name := (pair true).instancePrefix.appendSequenceNumber 1

/-- The digests of the packet with the certificate and of a packet with the name of a reply. -/
def certDigests : List (Buffer × Buffer) :=
  [((packet certA [1]).wire,
    [27, 114, 86, 64, 74, 15, 124, 105, 2, 222, 199, 98, 242, 202, 213, 20, 188, 62, 220, 251, 33,
      51, 242, 250, 73, 103, 207, 133, 178, 35, 32, 23]),
    ((packet replyName [2]).wire,
    [255, 66, 144, 61, 183, 171, 131, 92, 149, 203, 248, 107, 25, 98, 227, 195, 95, 84, 2, 148, 62,
      164, 84, 118, 4, 74, 178, 47, 4, 41, 202, 249])]

section
local instance : NdnCxx := plainNdn certDigests

def certData (name : Name) (content : Buffer) : Data where
  wire := packet name content
  name := name
  decodes := dataName_packet name content

def certPublication (seqNo : UInt64) : Publication where
  packets name content := [certData name content]
  seqNo := some seqNo

def servers (i : Bool) : ServiceConfig where
  toLedgerConfig := pair i
  recordZones := [nameA]
  isValidCertName name := setLast name 4 KEY == some name

/-- The certificate is submitted to the first ledger, and the second replies. A Data that somebody
submits to the first ledger has taken the name of the reply there, and is what a query finds. -/
def issued : List (Step Bool Request) :=
  [.request false (.submission (certData certA [1]) true (certPublication 1)), .deliver true 0,
    .request true (.reply (certPublication 1)), .deliver false 1,
    .request false (.submission (certData replyName [2]) true (certPublication 2))]

def queryA : Interest where
  name := recordA
  forwardingHint := [(pair false).instancePrefix]
  canBePrefix := true

def hosted : Except Error Answer → Option Producer
  | .ok (.object producer) => some producer
  | _ => none

theorem hosted_issued : (hosted (exec (QueryAnswers.onQuery (servers false) queryA 7)
    ((groupAfter (ledgers servers) issued).parties false).toDagModule).1).isSome = true := by
  decide +kernel

theorem answers_attested_issued :
    ∃ producer certName names block, setLast queryA.name 4 KEY = some certName ∧
      Answer.object producer = sendResponse (servers false) queryA.name block 7 ∧
      Attested (ledgers servers false) (groupAfter (ledgers servers) issued) false certName names ∧
      ∀ dataVector, decodeContent block = .ok dataVector → dataVector.map (·.name) = names := by
  obtain ⟨producer, hproducer⟩ := Option.isSome_iff_exists.mp hosted_issued
  have hrun : (exec (QueryAnswers.onQuery (servers false) queryA 7)
      ((groupAfter (ledgers servers) issued).parties false).toDagModule).1 = .ok (.object producer) := by
    unfold hosted at hproducer
    split at hproducer
    next producer' hrun =>
      rw [hrun, Option.some.inj hproducer]
    next => cases hproducer
  exact ⟨producer, answers_attested servers issued false queryA 7 producer hrun⟩

end
end CertLedger.AttestedAnswers
