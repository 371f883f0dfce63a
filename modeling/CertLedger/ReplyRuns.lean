import Mathlib.Data.Set.Card
import CertLedger.EventRuns
import CertLedger.LedgerSafety

/-!
# The replies of a run

A reply points to records that wait and have not been replied to. They stay out
of later replies, also after the ledger has forgotten that it replied: by then
they are interlocked and do not wait any more.
-/
namespace CertLedger.ReplyRuns
open Std TlvCodec FallibleState NdnObjects RecordCodec EdgeStateCodec OrderedContainers
open DagEngine DagStates LedgerHandlers LedgerEffects HarvestRuns LedgerSafety EventRuns

variable [NdnCxx] (config : LedgerConfig)

/-- The record an event publishes as a reply, before it has a name. -/
def replyOf (s : LedgerModule) : Event → Option Record
  | .reply _ =>
      match (exec (collectPointers config) s).1 with
      | .ok pointers =>
          if 0 < pointers.length then some { type := REPLY_RECORD, pointers := pointers } else none
      | .error _ => none
  | _ => none

/-- The replies of a run, in order. -/
def replies : LedgerModule → List Event → List Record
  | _, [] => []
  | s, event :: events =>
      (replyOf config s event).toList ++ replies (perform config s event) events

section
variable {config}
variable {s t : LedgerModule} {given : List Name}

/-- A reply is what the handler publishes, adds to the graph and harvests after. -/
theorem exec_publishReply_replyOf {pointers : List Name}
    (h : exec (collectPointers config) s = (.ok pointers, t)) (pub : Publication) :
    exec (publishReply config pub) s = match replyOf config s (.reply pub) with
      | some reply => exec (do
          let name ← publishRecord config pub reply
          let _ ← onDag (add config.toDagConfig { reply with name := name })
          dagHarvest config) t
      | none => (.ok (), t) := by
  rw [publishReply_eq, exec_bind_ok h, replyOf, h]
  by_cases hp : 0 < pointers.length
  · simp only [if_pos hp]
    rfl
  · simp only [if_neg hp]
    rfl

theorem replies_append (s : LedgerModule) (events : List Event) (event : Event) :
    replies config s (events ++ [event]) = replies config s events ++
      (replyOf config (events.foldl (perform config) s) event).toList := by
  induction events generalizing s with
  | nil => simp [replies]
  | cons first events ih => simp [replies, ih, List.append_assoc]

/-- What is known of the names that have been replied to. -/
structure Answered (config : LedgerConfig) (given : List Name) (s : LedgerModule) : Prop where
  secure : Secure config s
  nodup : given.Nodup
  answered : ∀ m ∈ given,
    m ∈ s.repliedRecords ∨ (node s.toDagModule (toStateName m)).status = .INTERLOCKED
  loaded : ∀ m ∈ given, (node s.toDagModule (toStateName m)).status ≠ .INITIALIZED ∧
    (node s.toDagModule (toStateName m)).record.type ≠ REPLY_RECORD

theorem Answered.onward (h : Answered config given s) (ht : Onward config s t) :
    Answered config given t where
  secure := ht.secure
  nodup := h.nodup
  answered m hm := (h.answered m hm).elim (ht.replied m) fun hl => .inr (ht.locked _ hl)
  loaded m hm := by
    obtain ⟨hl, htype⟩ := h.loaded m hm
    obtain ⟨hl', hr⟩ := ht.loaded _ hl
    exact ⟨hl', hr ▸ htype⟩

/-- The pointers of a new reply have not been given before. -/
theorem Answered.collect (h : Answered config given s) : ∃ pointers t,
    exec (collectPointers config) s = (.ok pointers, t) ∧ Onward config s t ∧
      Answered config (given ++ pointers) t ∧ ∀ m ∈ pointers, Awaits s m := by
  obtain ⟨pointers, t, hrun, ht, hdag, -, hnodup, hfrom⟩ := exec_collectPointers h.secure
  refine ⟨pointers, t, hrun, ht, ?_, fun m hm => (hfrom m hm).1⟩
  have ht' := h.onward ht
  refine ⟨ht.secure, List.nodup_append.mpr ⟨h.nodup, hnodup, ?_⟩, ?_, ?_⟩
  · intro m hm m' hm' he
    subst he
    obtain ⟨⟨hstatus, -, -, hnot⟩, -⟩ := hfrom m hm'
    rcases h.answered m hm with hrep | hlock
    · exact hnot hrep
    · exact Status.noConfusion (hstatus.symm.trans hlock)
  · intro m hm
    rcases List.mem_append.mp hm with hm | hm
    · exact ht'.answered m hm
    · exact .inl (hfrom m hm).2
  · intro m hm
    rcases List.mem_append.mp hm with hm | hm
    · exact ht'.loaded m hm
    · obtain ⟨⟨hstatus, -, htype, -⟩, -⟩ := hfrom m hm
      rw [hdag]
      exact ⟨fun he => Status.noConfusion (he.symm.trans hstatus), htype⟩

theorem replyOf_eq {pointers : List Name}
    (h : exec (collectPointers config) s = (.ok pointers, t)) (pub : Publication) :
    ((replyOf config s (.reply pub)).toList.flatMap Record.pointers) = pointers := by
  rw [replyOf, h]
  by_cases hp : 0 < pointers.length
  · simp [hp]
  · have hnil : pointers = [] := List.length_eq_zero_iff.mp (by omega)
    simp [hnil]

theorem Answered.perform (h : Answered config given s) (event : Event) :
    Answered config (given ++ (replyOf config s event).toList.flatMap Record.pointers)
      (perform config s event) := by
  have hsame : Answered config given (LedgerHandlers.perform config s event) :=
    h.onward (secures_handle config event s h.secure)
  cases event with
  | submission data verdict pub => simpa [replyOf] using hsame
  | sync record => simpa [replyOf] using hsame
  | reply pub =>
      obtain ⟨pointers, t, hrun, -, ht, -⟩ := h.collect
      rw [replyOf_eq hrun]
      exact ht.onward (onward_publishReply hrun ht.secure pub)

theorem answered_after (events : List Event) :
    Answered config ((replies config (start []) events).flatMap Record.pointers)
      (after config [] events) := by
  induction events using List.reverseRecOn with
  | nil => exact ⟨secure_start config, List.nodup_nil, by simp [replies], by simp [replies]⟩
  | append_singleton events event ih =>
      rw [replies_append, List.flatMap_append, after_append]
      exact ih.perform event

theorem pointers_ne_nil {event : Event} {reply : Record}
    (h : replyOf config s event = some reply) : reply.pointers ≠ [] := by
  cases event with
  | submission data verdict pub => cases h
  | sync record => cases h
  | reply pub =>
      unfold replyOf at h
      dsimp only at h
      split at h
      · split_ifs at h with hp
        obtain rfl := Option.some.inj h
        exact List.length_pos_iff.mp hp
      · cases h

theorem length_replies_le (events : List Event) :
    (replies config s events).length ≤
      ((replies config s events).flatMap Record.pointers).length := by
  induction events generalizing s with
  | nil => exact le_rfl
  | cons event events ih =>
      rw [replies, List.flatMap_append, List.length_append, List.length_append]
      refine Nat.add_le_add ?_ ih
      cases hr : replyOf config s event with
      | none => exact Nat.zero_le _
      | some reply =>
          have : 1 ≤ reply.pointers.length := List.length_pos_iff.mpr (pointers_ne_nil hr)
          simpa using this

/-- A reply points to records that wait. -/
theorem awaits_of_replyOf (h : Secure config s) {event : Event} {reply : Record}
    (hreply : replyOf config s event = some reply) :
    ∀ m ∈ reply.pointers, Awaits s m := by
  cases event with
  | submission data verdict pub => cases hreply
  | sync record => cases hreply
  | reply pub =>
      obtain ⟨pointers, t, hrun, -, -, -, -, hfrom⟩ := exec_collectPointers h
      have hp := replyOf_eq hrun pub
      rw [hreply] at hp
      have hp : reply.pointers = pointers := by simpa using hp
      exact fun m hm => (hfrom m (hp ▸ hm)).1

/-- No more names have been replied to than there are records to reply to. -/
theorem Answered.card_le (h : Answered config given s) : (given.length : ENat) ≤
    Set.encard {n | (node s.toDagModule n).status ≠ .INITIALIZED ∧
      (node s.toDagModule n).record.type ≠ REPLY_RECORD} := by
  have hinj : (given.map toStateName).Nodup :=
    h.nodup.map fun m m' he => by
      rw [← fromStateName_toStateName m, he, fromStateName_toStateName]
  calc (given.length : ENat)
    _ = ((given.map toStateName).toFinset.card : ENat) := by
        rw [List.toFinset_card_of_nodup hinj, List.length_map]
    _ = Set.encard ((given.map toStateName).toFinset : Set Name) :=
        (Set.encard_coe_eq_coe_finsetCard _).symm
    _ ≤ _ := Set.encard_le_encard fun n hn => by
        obtain ⟨m, hm, rfl⟩ := List.mem_map.mp (List.mem_toFinset.mp hn)
        exact h.loaded m hm

end

/-- Replies never repeat a record, and there are no more of them than records to reply to. -/
theorem replies_end (events : List Event) :
    Throughout (perform config) (fun s event => ∀ reply, replyOf config s event = some reply →
      reply.pointers ≠ [] ∧ ∀ m ∈ reply.pointers,
        (node s.toDagModule (toStateName m)).status = .LOADED ∧
          (node s.toDagModule (toStateName m)).record.name = m ∧
          (node s.toDagModule (toStateName m)).record.type ≠ REPLY_RECORD) (start []) events ∧
    ((replies config (start []) events).flatMap Record.pointers).Nodup ∧
    (∀ m ∈ (after config [] events).repliedRecords,
      (node (after config [] events).toDagModule (toStateName m)).status = .LOADED) ∧
    ((replies config (start []) events).length : ENat) ≤
      Set.encard {n | (node (after config [] events).toDagModule n).status ≠ .INITIALIZED ∧
        (node (after config [] events).toDagModule n).record.type ≠ REPLY_RECORD} := by
  have hall : Answered config _ _ := answered_after events
  refine ⟨?_, hall.nodup, hall.secure.replied, ?_⟩
  · refine (throughout_iff _ _).mpr fun before event _ reply hr => ?_
    have hsecure := foldl_invariant (I := Secure config)
      (fun s event h => (secures_handle config event s h).secure) before (secure_start config)
    have hawaits := awaits_of_replyOf hsecure hr
    exact ⟨pointers_ne_nil hr,
      fun m hm => ⟨(hawaits m hm).status, (hawaits m hm).name, (hawaits m hm).type⟩⟩
  · exact (Nat.cast_le.mpr (length_replies_le events)).trans hall.card_le

end CertLedger.ReplyRuns
