import CertLedger.AppendRetries

/-!
# Where the packets of a client come from

What a client sends and tells belongs to one of its sessions, whatever comes to it: a
submission holds the Data of the session, and a success is told of an acknowledgement that has
the name of the notification and that the validator has passed.
-/
namespace CertLedger.AppendClientOrigins
open TlvCodec FallibleState NdnObjects NdnPackets AppendOptions AppendRetries
open AppendClient AppendClientRuns

theorem alike_refl (o : ClientOptions) : Alike o o := ⟨rfl, rfl, rfl, rfl⟩

theorem alike_trans {o o' o'' : ClientOptions} (h : Alike o o') (h' : Alike o' o'') : Alike o o'' :=
  ⟨h'.topic.trans h.topic, h'.appenderPrefix.trans h.appenderPrefix, h'.nonce.trans h.nonce,
    h'.fwHint.trans h.fwHint⟩

section
variable [NdnCxx]

theorem canBePrefix_makeNotification {o : ClientOptions} {notification : Interest}
    (h : o.makeNotification = some notification) : notification.canBePrefix = false := by
  obtain ⟨i, hi, hn⟩ := Option.bind_eq_some_iff.mp h
  rw [← Option.some.inj hn, Interest.name_ofName hi]
  rfl

/-- The packet has the name of the notification of a session. -/
def Named (c : Client) (j : ℕ) (p : Packet) : Prop :=
  ∃ i, (c.session j).options.makeNotification = some i ∧ p.name = i.name

/-- A submission holds the Data of its session, and a success tells of an acknowledgement with
`S`. -/
def Fits (S : ℕ → Packet → Prop) (c : Client) : Action → Prop
  | .submitted j p => j < c.sessions.length ∧ ∃ n, p = .ofElements
      ((c.session j).options.makeInterestFilter ++ [fromNumber n]) ((c.session j).data.map (·.wire))
  | .success j data ack => j < c.sessions.length ∧ data = (c.session j).data ∧ Named c j ack ∧ S j ack
  | _ => True

/-- The sessions that are there stay. -/
structure Carries (c c' : Client) : Prop where
  length : c.sessions.length ≤ c'.sessions.length
  alike : ∀ j < c.sessions.length, Alike (c.session j).options (c'.session j).options
  data : ∀ j < c.sessions.length, (c'.session j).data = (c.session j).data

/-- What waits and what has been done belongs to a session. -/
structure Fitting (S : ℕ → Packet → Prop) (c : Client) : Prop where
  pending : ∀ f ∈ c.pending, f.1 < c.sessions.length ∧
    (c.session f.1).options.makeNotification = some f.2
  validating : ∀ f ∈ c.validating, f.1 < c.sessions.length ∧ Named c f.1 f.2
  trace : ∀ a ∈ c.trace, Fits S c a

/-- What handlers do. -/
structure Extends (S : ℕ → Packet → Prop) (c c' : Client) : Prop where
  carries : Carries c c'
  pending : ∀ f ∈ c'.pending, f ∈ c.pending ∨ f.1 < c'.sessions.length ∧
    (c'.session f.1).options.makeNotification = some f.2
  validating : ∀ f ∈ c'.validating, f ∈ c.validating ∨ f.1 < c'.sessions.length ∧ Named c' f.1 f.2
  trace : ∃ new, c'.trace = c.trace ++ new ∧ ∀ a ∈ new, Fits S c' a

variable {S : ℕ → Packet → Prop} {c c' c'' : Client}

theorem Carries.refl (c : Client) : Carries c c := ⟨le_rfl, fun _ _ => alike_refl _, fun _ _ => rfl⟩

theorem Carries.trans (h : Carries c c') (h' : Carries c' c'') : Carries c c'' where
  length := h.length.trans h'.length
  alike j hj := alike_trans (h.alike j hj) (h'.alike j (hj.trans_le h.length))
  data j hj := (h'.data j (hj.trans_le h.length)).trans (h.data j hj)

theorem Carries.makeNotification (h : Carries c c') {j : ℕ} (hj : j < c.sessions.length) :
    (c'.session j).options.makeNotification = (c.session j).options.makeNotification :=
  (h.alike j hj).makeNotification

theorem Named.carry {j : ℕ} {p : Packet} (hp : Named c j p) (h : Carries c c')
    (hj : j < c.sessions.length) : Named c' j p := by
  obtain ⟨i, hi, hname⟩ := hp
  exact ⟨i, (h.makeNotification hj).trans hi, hname⟩

theorem Fits.carry {a : Action} (ha : Fits S c a) (h : Carries c c') : Fits S c' a := by
  cases a with
  | submitted j p =>
      obtain ⟨hj, n, hp⟩ := ha
      refine ⟨hj.trans_le h.length, n, ?_⟩
      rw [(h.alike j hj).makeInterestFilter, h.data j hj]
      exact hp
  | success j data ack =>
      obtain ⟨hj, hdata, hnamed, hs⟩ := ha
      exact ⟨hj.trans_le h.length, hdata.trans (h.data j hj).symm, hnamed.carry h hj, hs⟩
  | _ => trivial

theorem Fits.mono {S' : ℕ → Packet → Prop} (hS : ∀ j p, S j p → S' j p) {a : Action}
    (ha : Fits S c a) : Fits S' c a := by
  cases a with
  | success j data ack => exact ⟨ha.1, ha.2.1, ha.2.2.1, hS _ _ ha.2.2.2⟩
  | submitted j p => exact ha
  | _ => trivial

theorem Extends.refl (S : ℕ → Packet → Prop) (c : Client) : Extends S c c :=
  ⟨Carries.refl c, fun _ hf => .inl hf, fun _ hf => .inl hf, [], by simp⟩

theorem Extends.trans (h : Extends S c c') (h' : Extends S c' c'') : Extends S c c'' where
  carries := h.carries.trans h'.carries
  pending f hf := by
    rcases h'.pending f hf with hf | hf
    · refine (h.pending f hf).imp_right fun ⟨hlt, hn⟩ => ?_
      exact ⟨hlt.trans_le h'.carries.length, (h'.carries.makeNotification hlt).trans hn⟩
    · exact .inr hf
  validating f hf := by
    rcases h'.validating f hf with hf | hf
    · refine (h.validating f hf).imp_right fun ⟨hlt, hn⟩ => ?_
      exact ⟨hlt.trans_le h'.carries.length, hn.carry h'.carries hlt⟩
    · exact .inr hf
  trace := by
    obtain ⟨new, hnew, hall⟩ := h.trace
    obtain ⟨new', hnew', hall'⟩ := h'.trace
    refine ⟨new ++ new', by rw [hnew', hnew, List.append_assoc], fun a ha => ?_⟩
    rcases List.mem_append.mp ha with ha | ha
    · exact (hall a ha).carry h'.carries
    · exact hall' a ha

theorem Fitting.extend (h : Fitting S c) (he : Extends S c c') : Fitting S c' where
  pending f hf := by
    rcases he.pending f hf with hf | hf
    · obtain ⟨hlt, hn⟩ := h.pending f hf
      exact ⟨hlt.trans_le he.carries.length, (he.carries.makeNotification hlt).trans hn⟩
    · exact hf
  validating f hf := by
    rcases he.validating f hf with hf | hf
    · obtain ⟨hlt, hn⟩ := h.validating f hf
      exact ⟨hlt.trans_le he.carries.length, hn.carry he.carries hlt⟩
    · exact hf
  trace a ha := by
    obtain ⟨new, hnew, hall⟩ := he.trace
    rw [hnew] at ha
    rcases List.mem_append.mp ha with ha | ha
    · exact (h.trace a ha).carry he.carries
    · exact hall a ha

theorem Fitting.mono {S' : ℕ → Packet → Prop} (hS : ∀ j p, S j p → S' j p) (h : Fitting S c) :
    Fitting S' c := ⟨h.pending, h.validating, fun a ha => (h.trace a ha).mono hS⟩

/-! ### What each handler does -/

theorem Extends.act {a : Action} (ha : Fits S c a) : Extends S c (c.act a) :=
  ⟨⟨le_rfl, fun _ _ => alike_refl _, fun _ _ => rfl⟩, fun _ hf => .inl hf, fun _ hf => .inl hf, [a], rfl,
    fun _ hb => (List.mem_singleton.mp hb) ▸ ha⟩

theorem Extends.drop (c : Client) {pending : List (ℕ × Interest)} {validating : List (ℕ × Packet)}
    (hp : pending.Sublist c.pending) (hv : validating.Sublist c.validating) :
    Extends S c { c with pending := pending, validating := validating } :=
  ⟨⟨le_rfl, fun _ _ => alike_refl _, fun _ _ => rfl⟩, fun _ hf => .inl (hp.subset hf),
    fun _ hf => .inl (hv.subset hf), [], by simp⟩

theorem carries_minor (h : Minor c c') : Carries c c' where
  length := h.length.ge
  alike j _ := by
    obtain ⟨r, hr⟩ := h.session j
    rw [hr]
    exact Alike.steady _ _ _ r (alike_refl _)
  data j _ := by
    obtain ⟨r, hr⟩ := h.session j
    rw [hr]

theorem extends_dispatch (c : Client) {k : ℕ} (hk : k < c.sessions.length) :
    Extends S c (exec (dispatchNotification k) c).2 := by
  have hcarries := carries_minor (minor_dispatch c hk)
  have hretried : (retried c k).trace = c.trace := rfl
  rcases dispatch_cases c k with he | ⟨i, -, he⟩ | ⟨i, hi, he⟩
  · rw [he]
    exact Extends.refl S c
  · rw [he] at hcarries ⊢
    exact ⟨hcarries, fun _ hf => .inl hf, fun _ hf => .inl hf, _, rfl, by simp [Fits]⟩
  · rw [he] at hcarries ⊢
    refine ⟨hcarries, fun f hf => ?_, fun _ hf => .inl hf, _, rfl, by simp [Fits]⟩
    rcases List.mem_append.mp hf with hf | hf
    · exact .inl hf
    · obtain rfl := List.mem_singleton.mp hf
      exact .inr ⟨hk.trans_le hcarries.length, (hcarries.makeNotification hk).trans hi⟩

theorem extends_onFetch (c : Client) {k : ℕ} (hk : k < c.sessions.length) (name : Name) :
    Extends S c (exec (onFetch k name) c).2 := by
  rcases onFetch_cases c k name with he | ⟨n, -, he⟩
  · rw [he]
    exact Extends.act trivial
  · rw [he]
    have hlength := (stays_answered c k name n).length
    have halike : ∀ j, Alike (c.session j).options ((answered c k name n).session j).options ∧
        ((answered c k name n).session j).data = (c.session j).data := by
      intro j
      rcases session_answered c k name n j with hj | ⟨rfl, hj⟩
      · rw [hj]
        exact ⟨alike_refl _, rfl⟩
      · rw [hj]
        exact ⟨Alike.steady _ _ n _ (alike_refl _), rfl⟩
    refine ⟨⟨hlength.ge, fun j _ => (halike j).1, fun j _ => (halike j).2⟩, fun _ hf => .inl hf,
      fun _ hf => .inl hf, _, trace_answered c k name n, fun a ha => ?_⟩
    rcases List.mem_pair.mp ha with rfl | rfl
    · trivial
    · refine ⟨hk.trans_le hlength.ge, n, ?_⟩
      rw [(halike k).1.makeInterestFilter, (halike k).2]
      rfl

theorem extends_opened (c : Client) (topic : Name) (data : List Data) (nonce : UInt64) :
    Extends S c (opened c topic data nonce) := by
  refine ⟨⟨(length_opened c topic data nonce) ▸ Nat.le_succ _, fun j hj => ?_, fun j hj => ?_⟩,
    fun _ hf => .inl hf, fun _ hf => .inl hf, [], (List.append_nil _).symm, by simp⟩
  · rw [session_opened_ne c topic data nonce hj.ne]
    exact alike_refl _
  · rw [session_opened_ne c topic data nonce hj.ne]

theorem extends_received (h : Fitting S c) (p : Packet) : Extends S c (perform c (.received p)) := by
  rw [perform_received]
  refine ⟨⟨le_rfl, fun _ _ => alike_refl _, fun _ _ => rfl⟩, fun f hf => .inl (List.mem_of_mem_filter hf),
    fun f hf => ?_, _, rfl, fun a ha => ?_⟩
  · rcases List.mem_append.mp hf with hf | hf
    · exact .inl hf
    · obtain ⟨g, hg, rfl⟩ := List.mem_map.mp hf
      obtain ⟨hmem, hmatch⟩ := List.mem_filter.mp hg
      obtain ⟨hlt, hn⟩ := h.pending g hmem
      have hname : g.2.name = p.name := by
        rw [Interest.matchesName, canBePrefix_makeNotification hn] at hmatch
        simpa using hmatch
      exact .inr ⟨hlt, g.2, hn, hname.symm⟩
  · obtain ⟨g, -, rfl⟩ := List.mem_map.mp ha
    trivial

/-- A success is told when the validator passes the acknowledgement. -/
theorem extends_perform (hs : Sound c) (h : Fitting S c) (event : AppendClient.Event)
    (hS : ∀ j ack, event = .valid j → c.validating.lookup j = some ack → S j ack) :
    Extends S c (perform c event) := by
  cases event with
  | append topic data nonce =>
      rcases perform_append c topic data nonce with hp | hp
      · rw [hp]
        exact Extends.refl S c
      · rw [hp]
        apply (extends_opened c topic data nonce).trans
        apply extends_dispatch
        rw [length_opened]
        exact Nat.lt_succ_self _
  | interest name =>
      rw [perform_interest]
      apply fetches_invariant (I := Extends S c)
      · intro f hf d hd
        have hlt := (hs.filters f (List.mem_of_mem_filter hf)).1
        exact hd.trans (extends_onFetch d (hlt.trans_le hd.carries.length) name)
      · exact Extends.refl S c
  | received p => exact extends_received h p
  | valid k =>
      rcases perform_valid c k with ⟨-, hp⟩ | ⟨ack, hl, ⟨e, -, hp⟩ | ⟨statusList, -, hp⟩⟩
      · rw [hp]
        exact Extends.refl S c
      · rw [hp]
        exact Extends.drop c (List.Sublist.refl _) List.eraseP_sublist
      · rw [hp]
        obtain ⟨hlt, hnamed⟩ := h.validating _ (AppendLedgerRuns.lookup_mem hl)
        exact (Extends.drop c (List.Sublist.refl _) List.eraseP_sublist).trans
          (Extends.act ⟨hlt, rfl, hnamed, hS k ack rfl hl⟩)
  | invalid k info =>
      rcases perform_invalid c k info with ⟨-, hp⟩ | ⟨ack, hl, hp⟩
      · rw [hp]
        exact Extends.refl S c
      · rw [hp]
        exact (Extends.drop c (List.Sublist.refl _) List.eraseP_sublist).trans (Extends.act trivial)
  | nack k =>
      rcases perform_nack c k with ⟨-, hp⟩ | ⟨i, hl, hp⟩
      · rw [hp]
        exact Extends.refl S c
      · rw [hp]
        exact (Extends.drop c List.eraseP_sublist (List.Sublist.refl _)).trans (Extends.act trivial)
  | timeout k =>
      rcases perform_timeout c k with ⟨-, hp⟩ | ⟨i, hl, hp⟩
      · rw [hp]
        exact Extends.refl S c
      · rw [hp]
        exact (Extends.drop c List.eraseP_sublist (List.Sublist.refl _)).trans
          (extends_dispatch _ (lookup_lt hs.pending hl))

end
end CertLedger.AppendClientOrigins
