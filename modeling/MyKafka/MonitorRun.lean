import MyKafka.Monitor

/-!
# Interleaved calls are linearizable

Whatever the order of the steps, the calls that have passed the lock can be put in one order that
respects real time, in which each one found the object as those before it left it, run one after the
other. What an answer adds after the lock is what one of the later states of that order shows.
-/

namespace Monitor

variable {κ ι σ α β : Type*} {method : ι → Method σ α β} {m m' : State κ ι σ α β} {c d : κ}
  {x y : ι} {e : Event κ ι} {es : List (Event κ ι)} {s₀ : σ}

/-! ## The lock -/

/-- The calls that are inside are the one writer or the readers. -/
structure Locked (method : ι → Method σ α β) (m : State κ ι σ α β) : Prop where
  writing : ∀ c, m.writer = some c → m.readers = [] ∧
    ∃ x body, m.calls c = some (.inside x body) ∧ (method x).exclusive = true
  reading : ∀ c ∈ m.readers,
    ∃ x body, m.calls c = some (.inside x body) ∧ (method x).exclusive = false
  once : m.readers.Nodup
  inside : ∀ c x body, m.calls c = some (.inside x body) →
    if (method x).exclusive then m.writer = some c else c ∈ m.readers

theorem Locked.start (s : σ) : Locked method (start s : State κ ι σ α β) where
  writing _ hc := by cases hc
  reading _ hc := by cases hc
  once := List.nodup_nil
  inside _ _ _ hc := by cases hc

namespace Locked

/-- Where no call is inside, nobody has the lock. -/
theorem free (H : Locked method m) (hnone : ∀ c x body, m.calls c ≠ some (.inside x body)) :
    m.writer = none ∧ m.readers = [] := by
  constructor
  · cases hw : m.writer with
    | none => rfl
    | some d =>
        obtain ⟨-, x, body, hd, -⟩ := H.writing d hw
        exact absurd hd (hnone d x body)
  · cases hr : m.readers with
    | nil => rfl
    | cons d ds =>
        obtain ⟨x, body, hd, -⟩ := H.reading d (by rw [hr]; exact List.mem_cons_self)
        exact absurd hd (hnone d x body)

theorem writer_none (H : Locked method m) {body : Body σ α}
    (hc : m.calls c = some (.inside x body)) (hx : (method x).exclusive = false) :
    m.writer = none := by
  have hin := H.inside c x body hc
  rw [hx] at hin
  cases hw : m.writer with
  | none => rfl
  | some d =>
      rw [(H.writing d hw).1] at hin
      cases hin

variable [DecidableEq κ] {q : Phase ι σ α β}

/-- A call that is not inside goes to another phase out there. -/
theorem put (H : Locked method m) (hc : ∀ x body, m.calls c ≠ some (.inside x body))
    (hq : ∀ x body, q ≠ .inside x body) : Locked method (m.put c q) := by
  have hne : ∀ {d x body}, m.calls d = some (.inside x body) → d ≠ c := by
    rintro d x body hd rfl
    exact hc x body hd
  refine ⟨fun d hd => ?_, fun d hd => ?_, H.once, fun d x body hd => ?_⟩
  · obtain ⟨hr, x, body, hx, hxe⟩ := H.writing d hd
    exact ⟨hr, x, body, (State.put_of_ne (hne hx)).trans hx, hxe⟩
  · obtain ⟨x, body, hx, hxe⟩ := H.reading d hd
    exact ⟨x, body, (State.put_of_ne (hne hx)).trans hx, hxe⟩
  · rcases State.of_put hd with ⟨-, hp⟩ | ⟨-, hd⟩
    · exact absurd hp.symm (hq x body)
    · exact H.inside d x body hd

theorem read (H : Locked method m) (hc : m.calls c = some (.waiting x))
    (hx : (method x).exclusive = false) (hw : m.writer = none) (body : Body σ α) :
    Locked method ({ m with readers := c :: m.readers }.put c (.inside x body)) := by
  have hnot : c ∉ m.readers := by
    intro hmem
    obtain ⟨y, body, hy, -⟩ := H.reading c hmem
    rw [hc] at hy
    cases hy
  refine ⟨fun d hd => ?_, fun d hd => ?_, List.nodup_cons.mpr ⟨hnot, H.once⟩,
    fun d y body hd => ?_⟩
  · rw [State.put_writer, hw] at hd
    cases hd
  · rcases List.mem_cons.mp hd with rfl | hmem
    · exact ⟨x, _, State.put_self, hx⟩
    · obtain ⟨y, body, hy, hxy⟩ := H.reading d hmem
      exact ⟨y, body, (State.put_of_ne (by rintro rfl; exact hnot hmem)).trans hy, hxy⟩
  · rcases State.of_put hd with ⟨rfl, hp⟩ | ⟨-, hd⟩
    · cases hp
      rw [hx]
      exact List.mem_cons_self
    · have hin := H.inside d y body hd
      split_ifs at hin ⊢ with hxy
      · exact hin
      · exact List.mem_cons_of_mem _ hin

theorem write (H : Locked method m) (hx : (method x).exclusive = true) (hw : m.writer = none)
    (hr : m.readers = []) (body : Body σ α) :
    Locked method ({ m with writer := some c }.put c (.inside x body)) := by
  refine ⟨fun d hd => ?_, fun d hd => ?_, H.once, fun d y body hd => ?_⟩
  · obtain rfl := Option.some.inj hd
    exact ⟨hr, x, _, State.put_self, hx⟩
  · rw [State.put_readers, hr] at hd
    cases hd
  · rcases State.of_put hd with ⟨rfl, hp⟩ | ⟨-, hd⟩
    · cases hp
      rw [if_pos hx]
      rfl
    · have hin := H.inside d y body hd
      split_ifs at hin
      · rw [hw] at hin
        cases hin
      · rw [hr] at hin
        cases hin

/-- A call that is inside stays there. -/
theorem act (H : Locked method m) {body : Body σ α} (hc : m.calls c = some (.inside x body))
    (o : σ) (body' : Body σ α) : Locked method ({ m with object := o }.put c (.inside x body')) := by
  have hstill : ∀ {d y b}, m.calls d = some (.inside y b) →
      ∃ b', ({ m with object := o }.put c (.inside x body')).calls d = some (.inside y b') := by
    intro d y b hy
    by_cases hdc : d = c
    · subst hdc
      obtain ⟨rfl, -⟩ := Phase.inside.inj (Option.some.inj (hc.symm.trans hy))
      exact ⟨_, State.put_self⟩
    · exact ⟨b, (State.put_of_ne hdc).trans hy⟩
  refine ⟨fun d hd => ?_, fun d hd => ?_, H.once, fun d y b hd => ?_⟩
  · obtain ⟨hr, y, b, hy, hxy⟩ := H.writing d hd
    obtain ⟨b', hb'⟩ := hstill hy
    exact ⟨hr, y, b', hb', hxy⟩
  · obtain ⟨y, b, hy, hxy⟩ := H.reading d hd
    obtain ⟨b', hb'⟩ := hstill hy
    exact ⟨y, b', hb', hxy⟩
  · rcases State.of_put hd with ⟨rfl, hp⟩ | ⟨-, hd⟩
    · obtain ⟨rfl, -⟩ := Phase.inside.inj hp
      exact H.inside d y _ hc
    · exact H.inside d y b hd

theorem leaveRead (H : Locked method m) {body : Body σ α} (hc : m.calls c = some (.inside x body))
    (hx : (method x).exclusive = false) (hq : ∀ x body, q ≠ .inside x body) :
    Locked method ({ m with readers := m.readers.erase c }.put c q) := by
  refine ⟨fun d hd => ?_, fun d hd => ?_, H.once.erase c, fun d y body hd => ?_⟩
  · rw [State.put_writer, H.writer_none hc hx] at hd
    cases hd
  · obtain ⟨hdc, hd⟩ := (H.once.mem_erase_iff).mp hd
    obtain ⟨y, body, hy, hxy⟩ := H.reading d hd
    exact ⟨y, body, (State.put_of_ne hdc).trans hy, hxy⟩
  · rcases State.of_put hd with ⟨-, hp⟩ | ⟨hdc, hd⟩
    · exact absurd hp.symm (hq y body)
    · have hin := H.inside d y body hd
      split_ifs at hin ⊢ with hxy
      · exact hin
      · exact (List.mem_erase_of_ne hdc).mpr hin

theorem leaveWrite (H : Locked method m) {body : Body σ α} (hc : m.calls c = some (.inside x body))
    (hx : (method x).exclusive = true) (hq : ∀ x body, q ≠ .inside x body) :
    Locked method ({ m with writer := none }.put c q) := by
  have hin := H.inside c x _ hc
  rw [if_pos hx] at hin
  obtain ⟨hr, -⟩ := H.writing c hin
  refine ⟨fun d hd => ?_, fun d hd => ?_, H.once, fun d y body hd => ?_⟩
  · cases hd
  · rw [State.put_readers, hr] at hd
    cases hd
  · rcases State.of_put hd with ⟨-, hp⟩ | ⟨hdc, hd⟩
    · exact absurd hp.symm (hq y body)
    · have hin' := H.inside d y body hd
      split_ifs at hin'
      · rw [hin] at hin'
        exact absurd (Option.some.inj hin').symm hdc
      · rw [hr] at hin'
        cases hin'

theorem next (H : Locked method m) (h : Next method m e m') : Locked method m' := by
  cases h with
  | call c x hc => exact H.put (by simp [hc]) (by simp)
  | read hc hx hw => exact H.read hc hx hw _
  | write hc hx hw hr => exact H.write hx hw hr _
  | step hc => exact H.act hc _ _
  | leaveRead hc hx => exact H.leaveRead hc hx (by simp)
  | leaveWrite hc hx => exact H.leaveWrite hc hx (by simp)
  | reply hc => exact H.put (by simp [hc]) (by simp)

end Locked

/-! ## The order of the calls -/

theorem pair_sublist_concat {γ : Type*} {a b e : γ} {es : List γ} :
    [a, b].Sublist (es ++ [e]) ↔ [a, b].Sublist es ∨ (a ∈ es ∧ b = e) := by
  constructor
  · intro h
    obtain ⟨l₁, l₂, heq, h₁, h₂⟩ := List.sublist_append_iff.mp h
    rcases List.sublist_singleton.mp h₂ with rfl | rfl
    · rw [List.append_nil] at heq
      exact Or.inl (heq ▸ h₁)
    · have hlen := congrArg List.length heq
      obtain ⟨a', rfl⟩ : ∃ a', l₁ = [a'] := List.length_eq_one_iff.mp (by simpa using hlen.symm)
      obtain ⟨rfl, rfl⟩ : a = a' ∧ b = e := by simpa using heq
      exact Or.inr ⟨List.singleton_sublist.mp h₁, rfl⟩
  · rintro (h | ⟨ha, rfl⟩)
    · exact h.trans (List.sublist_append_left _ _)
    · exact (List.singleton_sublist.mpr ha).append (.refl [b])

/-- The object after these calls. -/
def after (method : ι → Method σ α β) (s₀ : σ) (h : List (κ × ι)) : σ :=
  Runs.final (atomic method) s₀ (h.map Prod.snd)

theorem after_concat (h : List (κ × ι)) :
    after method s₀ (h ++ [(c, x)]) = (atomic method (after method s₀ h) x).2 := by
  rw [after, List.map_append, Runs.final_append]
  rfl

/-- `h` are the calls that read or have the lock as the writer, in the order of that. -/
structure Inv (method : ι → Method σ α β) (s₀ : σ) (es : List (Event κ ι)) (m : State κ ι σ α β)
    (h : List (κ × ι)) : Prop where
  locked : Locked method m
  called : ∀ c x, .call c x ∈ es ↔ ∃ p, m.calls c = some p ∧ p.input = x
  replied : ∀ c, .reply c ∈ es ↔ ∃ x a b, m.calls c = some (.done x a b)
  placed : ∀ c x, (c, x) ∈ h ↔
    ∃ p, m.calls c = some p ∧ p.input = x ∧ (p.result? ≠ none ∨ m.writer = some c)
  once : (h.map Prod.fst).Nodup
  idle : m.writer = none → m.object = after method s₀ h
  writing : ∀ c x body, m.calls c = some (.inside x body) → m.writer = some c →
    ∃ h₀, h = h₀ ++ [(c, x)] ∧ body.run m.object = atomic method (after method s₀ h₀) x ∧
      body.states m.object ⊆ (method x).body.states (after method s₀ h₀)
  reading : ∀ c x body, m.calls c = some (.inside x body) → (method x).exclusive = false →
    body.Reads ∧ (body.run m.object).1 = (atomic method m.object x).1
  result : ∀ c p a, m.calls c = some p → p.result? = some a →
    ∃ h₁, h₁ ++ [(c, p.input)] <+: h ∧ a = (atomic method (after method s₀ h₁) p.input).1
  answered : ∀ c x a b, m.calls c = some (.done x a b) →
    ∃ h₁, (c, x) ∈ h₁ ∧ h₁ <+: h ∧ b = (method x).reply a (after method s₀ h₁) ∧
      ∀ d ∈ h₁.map Prod.fst, ∀ y, ¬ [.reply c, .call d y].Sublist es
  ordered : ∀ c d y, [.reply c, .call d y].Sublist es → d ∈ h.map Prod.fst →
    [c, d].Sublist (h.map Prod.fst)

theorem Inv.start (s : σ) : Inv method s [] (start s : State κ ι σ α β) [] where
  locked := .start s
  called c x := by simp [Monitor.start]
  replied c := by simp [Monitor.start]
  placed c x := by simp [Monitor.start]
  once := List.nodup_nil
  idle _ := rfl
  writing _ _ _ hc := by cases hc
  reading _ _ _ hc := by cases hc
  result _ _ _ hc := by cases hc
  answered _ _ _ _ hc := by cases hc
  ordered _ _ _ hs := by cases hs

/-! ## What every step keeps -/

namespace Inv

variable {h h' : List (κ × ι)} {p q : Phase ι σ α β} {a : α}

theorem mem_of_replied (H : Inv method s₀ es m h) (hc : .reply c ∈ es) : c ∈ h.map Prod.fst := by
  obtain ⟨x, a, b, hc⟩ := (H.replied c).mp hc
  exact List.mem_map.mpr ⟨(c, x), (H.placed c x).mpr ⟨_, hc, rfl, Or.inl (by simp [Phase.result?])⟩,
    rfl⟩

theorem not_mem (H : Inv method s₀ es m h) (hc : m.calls c = some p) (hp : p.result? = none)
    (hw : m.writer ≠ some c) : c ∉ h.map Prod.fst := by
  intro hmem
  obtain ⟨⟨c', x⟩, hx, rfl⟩ := List.mem_map.mp hmem
  obtain ⟨p', hp', -, hor⟩ := (H.placed c' x).mp hx
  obtain rfl := Option.some.inj (hc.symm.trans hp')
  rcases hor with hor | hor
  · exact hor hp
  · exact hw hor

theorem not_mem_of_none (H : Inv method s₀ es m h) (hc : m.calls c = none) :
    c ∉ h.map Prod.fst := by
  intro hmem
  obtain ⟨⟨c', x⟩, hx, rfl⟩ := List.mem_map.mp hmem
  obtain ⟨p, hp, -⟩ := (H.placed c' x).mp hx
  rw [hc] at hp
  cases hp

theorem prefix_of_mem (H : Inv method s₀ es m h) {h₁ h₂ : List (κ × ι)}
    (hcall : h₁ ++ [(c, x)] <+: h) (hmem : (c, x) ∈ h₂) (hpre : h₂ <+: h) :
    h₁ ++ [(c, x)] <+: h₂ := by
  rcases List.prefix_or_prefix_of_prefix hcall hpre with hle | hle
  · exact hle
  · rcases List.prefix_concat_iff.mp hle with rfl | hle
    · exact List.prefix_refl _
    · have honce := (hcall.map Prod.fst).sublist.nodup H.once
      rw [List.map_append, List.nodup_append] at honce
      exact absurd rfl (honce.2.2 c (List.mem_map.mpr ⟨_, hle.subset hmem, rfl⟩) c (by simp))

/-- A call is at the end of the order as long as it writes. -/
theorem writer_eq (H : Inv method s₀ es m h) {body : Body σ α}
    (hc : m.calls c = some (.inside x body)) (hx : (method x).exclusive = true) :
    m.writer = some c := by
  have hin := H.locked.inside c x body hc
  rwa [if_pos hx] at hin

theorem ordered_same (H : Inv method s₀ es m h) (he : e.isCall = false) (c d : κ) (y : ι)
    (hsub : [.reply c, .call d y].Sublist (es ++ [e])) (hd : d ∈ h.map Prod.fst) :
    [c, d].Sublist (h.map Prod.fst) := by
  rcases pair_sublist_concat.mp hsub with hsub | ⟨-, hlast⟩
  · exact H.ordered c d y hsub hd
  · subst hlast
    cases he

theorem ordered_concat (H : Inv method s₀ es m h) (he : e.isCall = false) (x : ι) (c' d : κ)
    (y : ι) (hsub : [.reply c', .call d y].Sublist (es ++ [e]))
    (hd : d ∈ (h ++ [(c, x)]).map Prod.fst) : [c', d].Sublist ((h ++ [(c, x)]).map Prod.fst) := by
  rw [List.map_append, List.mem_append] at hd
  rw [List.map_append, List.map_singleton, pair_sublist_concat]
  rcases hd with hd | hd
  · exact Or.inl (H.ordered_same he c' d y hsub hd)
  · rcases pair_sublist_concat.mp hsub with hsub | ⟨-, hlast⟩
    · exact Or.inr ⟨H.mem_of_replied (hsub.subset (by simp)), by simpa using hd⟩
    · subst hlast
      cases he

theorem once_concat (H : Inv method s₀ es m h) (hc : m.calls c = some p) (hp : p.result? = none)
    (hwc : m.writer ≠ some c) (x : ι) : ((h ++ [(c, x)]).map Prod.fst).Nodup := by
  rw [List.map_append, List.nodup_append]
  refine ⟨H.once, List.nodup_singleton _, fun d hd d' hd' => ?_⟩
  rw [List.map_singleton, List.mem_singleton] at hd'
  subst hd'
  rintro rfl
  exact H.not_mem hc hp hwc hd

/-- What an answer sees after the lock is a state before or after the writer that is at work. -/
theorem reply_eq (H : Inv method s₀ es m h) (hlaw : Lawful method) {a : α}
    (hc : m.calls c = some (.outside x a)) :
    ∃ h₁, (c, x) ∈ h₁ ∧ h₁ <+: h ∧
      (method x).reply a m.object = (method x).reply a (after method s₀ h₁) := by
  have hmem : (c, x) ∈ h := (H.placed c x).mpr ⟨_, hc, rfl, Or.inl (by simp [Phase.result?])⟩
  cases hw : m.writer with
  | none => exact ⟨h, hmem, List.prefix_refl h, by rw [H.idle hw]⟩
  | some d =>
      obtain ⟨-, y, body, hd, hy⟩ := H.locked.writing d hw
      obtain ⟨h₀, rfl, -, hstates⟩ := H.writing d y body hd hw
      have hne : (c, x) ≠ (d, y) := by
        rintro ⟨⟩
        rw [hc] at hd
        cases hd
      have hmem₀ : (c, x) ∈ h₀ := by
        rcases List.mem_append.mp hmem with hmem | hmem
        · exact hmem
        · exact absurd (List.mem_singleton.mp hmem) hne
      rcases hlaw.settled y x a _ hy m.object (hstates (Body.mem_states body m.object)) with
        hsee | hsee
      · exact ⟨h₀, hmem₀, List.prefix_append _ _, hsee⟩
      · exact ⟨h₀ ++ [(d, y)], hmem, List.prefix_refl _, by rw [hsee, after_concat]⟩

end Inv

variable [DecidableEq κ]

theorem run_cons_eq_some (hrun : run method m (e :: es) = some m') :
    ∃ m₁, Next method m e m₁ ∧ run method m₁ es = some m' := by
  simp only [run] at hrun
  split at hrun
  · cases hrun
  · rename_i m₁ hstep
    exact ⟨m₁, next_of_step hstep, hrun⟩

namespace Inv

variable {h h' : List (κ × ι)} {p q : Phase ι σ α β} {a : α}

/-! ### A call that goes on -/

theorem called_put (H : Inv method s₀ es m h) (hc : m.calls c = some p) (hq : q.input = p.input)
    (he : e.isCall = false) (d : κ) (x : ι) :
    .call d x ∈ es ++ [e] ↔ ∃ p, (m.put c q).calls d = some p ∧ p.input = x := by
  have hne : Event.call d x ≠ e := by
    rintro rfl
    cases he
  rw [List.mem_append, List.mem_singleton, or_iff_left hne, H.called d x]
  by_cases hd : d = c
  · subst hd
    rw [hc, State.put_self]
    simp [hq]
  · rw [State.put_of_ne hd]

theorem replied_put (H : Inv method s₀ es m h) (hc : m.calls c = some p)
    (hp : ∀ x a b, p ≠ .done x a b) (hq : ∀ x a b, q ≠ .done x a b) (he : ∀ d, e ≠ .reply d)
    (d : κ) : .reply d ∈ es ++ [e] ↔ ∃ x a b, (m.put c q).calls d = some (.done x a b) := by
  rw [List.mem_append, List.mem_singleton, or_iff_left (he d).symm, H.replied d]
  by_cases hd : d = c
  · subst hd
    rw [hc, State.put_self]
    simp [hp, hq]
  · rw [State.put_of_ne hd]

theorem result_put (H : Inv method s₀ es m h) (hgrow : h <+: h')
    (hq : ∀ a, q.result? = some a → ∃ h₁, h₁ ++ [(c, q.input)] <+: h' ∧
      a = (atomic method (after method s₀ h₁) q.input).1) (d : κ) (p : Phase ι σ α β) (a : α)
    (hd : (m.put c q).calls d = some p) (ha : p.result? = some a) :
    ∃ h₁, h₁ ++ [(d, p.input)] <+: h' ∧ a = (atomic method (after method s₀ h₁) p.input).1 := by
  rcases State.of_put hd with ⟨rfl, rfl⟩ | ⟨-, hd⟩
  · exact hq a ha
  · obtain ⟨h₁, hpre, heq⟩ := H.result d p a hd ha
    exact ⟨h₁, hpre.trans hgrow, heq⟩

theorem answered_put (H : Inv method s₀ es m h) (hgrow : h <+: h')
    (hq : ∀ x a b, q ≠ .done x a b) (he : e.isCall = false) (d : κ) (x : ι) (a : α) (b : β)
    (hd : (m.put c q).calls d = some (.done x a b)) :
    ∃ h₁, (d, x) ∈ h₁ ∧ h₁ <+: h' ∧ b = (method x).reply a (after method s₀ h₁) ∧
      ∀ d' ∈ h₁.map Prod.fst, ∀ y, ¬ [.reply d, .call d' y].Sublist (es ++ [e]) := by
  rcases State.of_put hd with ⟨-, hd⟩ | ⟨-, hd⟩
  · exact absurd hd.symm (hq x a b)
  · obtain ⟨h₁, hmem, hpre, heq, hbefore⟩ := H.answered d x a b hd
    refine ⟨h₁, hmem, hpre.trans hgrow, heq, fun d' hd' y hsub => ?_⟩
    rcases pair_sublist_concat.mp hsub with hsub | ⟨-, hlast⟩
    · exact hbefore d' hd' y hsub
    · subst hlast
      cases he

/-- What is known of a call that has the lock survives a step of another call. -/
theorem placed_put (H : Inv method s₀ es m h) (hc : m.calls c = some p) (hq : q.input = p.input)
    (hiff : (q.result? ≠ none ∨ m'.writer = some c) ↔ (p.result? ≠ none ∨ m.writer = some c))
    (hw : ∀ d, d ≠ c → (m'.writer = some d ↔ m.writer = some d)) (d : κ) (x : ι) :
    (d, x) ∈ h ↔ ∃ p, (m.put c q).calls d = some p ∧ p.input = x ∧
      (p.result? ≠ none ∨ m'.writer = some d) := by
  rw [H.placed d x]
  by_cases hd : d = c
  · subst hd
    rw [hc, State.put_self]
    simp only [Option.some.injEq, exists_eq_left', hq, hiff]
  · rw [State.put_of_ne hd]
    simp only [hw d hd]

theorem placed_concat (H : Inv method s₀ es m h) (hc : m.calls c = some p)
    (hp : p.result? = none) (hwc : m.writer ≠ some c) (hq : q.input = p.input)
    (hnow : q.result? ≠ none ∨ m'.writer = some c)
    (hw : ∀ d, d ≠ c → (m'.writer = some d ↔ m.writer = some d)) (d : κ) (x : ι) :
    (d, x) ∈ h ++ [(c, p.input)] ↔ ∃ p, (m.put c q).calls d = some p ∧ p.input = x ∧
      (p.result? ≠ none ∨ m'.writer = some d) := by
  rw [List.mem_append, List.mem_singleton, Prod.mk.injEq, H.placed d x]
  by_cases hd : d = c
  · subst hd
    rw [hc, State.put_self]
    simp only [Option.some.injEq, exists_eq_left', hp, hwc, hq, hnow]
    simp [eq_comm]
  · rw [State.put_of_ne hd]
    simp only [hw d hd, hd, false_and, or_false]

/-! ### The steps -/

theorem call (H : Inv method s₀ es m h) (hc : m.calls c = none) (x : ι) :
    Inv method s₀ (es ++ [.call c x]) (m.put c (.waiting x)) h := by
  have hfresh := H.not_mem_of_none hc
  have hwc : m.writer ≠ some c := by
    intro hw
    obtain ⟨-, y, body, hy, -⟩ := H.locked.writing c hw
    rw [hc] at hy
    cases hy
  refine ⟨H.locked.next (.call c x hc), fun d y => ?_, fun d => ?_, fun d y => ?_, H.once, H.idle,
    fun d y body hd hw => ?_, fun d y body hd => ?_, ?_, fun d y a b hd => ?_, fun c' d y hsub hd => ?_⟩
  · rw [List.mem_append, List.mem_singleton, H.called d y, Event.call.injEq]
    by_cases hd : d = c
    · subst hd
      rw [hc, State.put_self]
      simp [Phase.input, eq_comm]
    · rw [State.put_of_ne hd]
      simp [hd]
  · rw [List.mem_append, List.mem_singleton, or_iff_left (by simp), H.replied d]
    by_cases hd : d = c
    · subst hd
      rw [hc, State.put_self]
      simp
    · rw [State.put_of_ne hd]
  · by_cases hd : d = c
    · subst hd
      rw [State.put_self]
      refine iff_of_false (fun hmem => hfresh (List.mem_map.mpr ⟨_, hmem, rfl⟩)) ?_
      rintro ⟨p, hp, -, hor⟩
      obtain rfl := Option.some.inj hp
      rcases hor with hor | hor
      · exact hor rfl
      · exact hwc hor
    · rw [State.put_of_ne hd]
      exact H.placed d y
  · rcases State.of_put hd with ⟨-, hp⟩ | ⟨-, hd⟩
    · cases hp
    · exact H.writing d y body hd hw
  · rcases State.of_put hd with ⟨-, hp⟩ | ⟨-, hd⟩
    · cases hp
    · exact H.reading d y body hd
  · exact H.result_put (List.prefix_refl h) (fun a ha => by cases ha)
  · rcases State.of_put hd with ⟨-, hp⟩ | ⟨-, hd⟩
    · cases hp
    · obtain ⟨h₁, hmem, hpre, heq, hbefore⟩ := H.answered d y a b hd
      refine ⟨h₁, hmem, hpre, heq, fun d' hd' y' hsub => ?_⟩
      rcases pair_sublist_concat.mp hsub with hsub | ⟨-, hlast⟩
      · exact hbefore d' hd' y' hsub
      · obtain ⟨rfl, -⟩ := Event.call.inj hlast
        exact hfresh ((hpre.map Prod.fst).subset hd')
  · rcases pair_sublist_concat.mp hsub with hsub | ⟨-, hlast⟩
    · exact H.ordered c' d y hsub hd
    · obtain ⟨rfl, -⟩ := Event.call.inj hlast
      exact absurd hd hfresh

theorem read (H : Inv method s₀ es m h) (hlaw : Lawful method)
    (hc : m.calls c = some (.waiting x)) (hx : (method x).exclusive = false)
    (hw : m.writer = none) :
    Inv method s₀ (es ++ [.acquire c])
      ({ m with readers := c :: m.readers }.put c (.inside x (method x).body)) h := by
  refine ⟨H.locked.next (.read hc hx hw), H.called_put hc rfl rfl,
    H.replied_put hc (by simp) (by simp) (by simp),
    H.placed_put (p := .waiting x) hc rfl (by simp [Phase.result?]) (fun _ _ => Iff.rfl), H.once,
    H.idle, fun d y body _ hd => ?_, fun d y body hd => ?_,
    H.result_put (List.prefix_refl h) (fun a ha => by cases ha),
    H.answered_put (List.prefix_refl h) (by simp) rfl, H.ordered_same rfl⟩
  · rw [State.put_writer, hw] at hd
    cases hd
  · rcases State.of_put hd with ⟨rfl, hp⟩ | ⟨-, hd⟩
    · obtain ⟨rfl, rfl⟩ := Phase.inside.inj hp
      exact fun hx => ⟨hlaw.reads y hx, rfl⟩
    · exact H.reading d y body hd

theorem write (H : Inv method s₀ es m h) (hc : m.calls c = some (.waiting x))
    (hx : (method x).exclusive = true) (hw : m.writer = none) (hr : m.readers = []) :
    Inv method s₀ (es ++ [.acquire c])
      ({ m with writer := some c }.put c (.inside x (method x).body)) (h ++ [(c, x)]) := by
  have hwc : m.writer ≠ some c := by
    rw [hw]
    rintro ⟨⟩
  have hgrow : h <+: h ++ [(c, x)] := List.prefix_append _ _
  refine ⟨H.locked.next (.write hc hx hw hr), H.called_put hc rfl rfl,
    H.replied_put hc (by simp) (by simp) (by simp), ?_, H.once_concat hc rfl hwc x,
    ?_, fun d y body hd hwd => ?_, fun d y body hd => ?_,
    H.result_put hgrow (fun a ha => by cases ha), H.answered_put hgrow (by simp) rfl,
    H.ordered_concat rfl x⟩
  · refine H.placed_concat (p := .waiting x) hc rfl hwc rfl (Or.inr rfl) fun d hd => ?_
    rw [hw]
    exact iff_of_false (fun hcd => hd (Option.some.inj hcd).symm) (by simp)
  · rintro ⟨⟩
  · obtain rfl := Option.some.inj hwd
    rw [State.put_self] at hd
    obtain ⟨rfl, rfl⟩ := Phase.inside.inj (Option.some.inj hd)
    refine ⟨h, rfl, ?_, ?_⟩
    · rw [State.put_object, H.idle hw]
      rfl
    · rw [State.put_object, H.idle hw]
      exact List.Subset.refl _
  · rcases State.of_put hd with ⟨rfl, hp⟩ | ⟨-, hd⟩
    · obtain ⟨rfl, rfl⟩ := Phase.inside.inj hp
      rw [hx]
      rintro ⟨⟩
    · exact H.reading d y body hd

theorem act (H : Inv method s₀ es m h) {act : σ → σ} {rest : σ → Body σ α}
    (hc : m.calls c = some (.inside x (.call act rest))) :
    Inv method s₀ (es ++ [.step c])
      ({ m with object := act m.object }.put c (.inside x (rest m.object))) h := by
  -- A reader leaves the object as it is, and while a writer works nobody else is inside.
  have hsame : (method x).exclusive = false → act m.object = m.object := fun hx =>
    ((H.reading c x _ hc hx).1 m.object).1
  refine ⟨H.locked.next (.step hc), H.called_put hc rfl rfl,
    H.replied_put hc (by simp) (by simp) (by simp),
    H.placed_put (p := .inside x _) hc rfl (by simp [Phase.result?]) (fun _ _ => Iff.rfl), H.once,
    fun hnone => ?_, fun d y body hd hwd => ?_, fun d y body hd hy => ?_,
    H.result_put (List.prefix_refl h) (fun a ha => by cases ha),
    H.answered_put (List.prefix_refl h) (by simp) rfl, H.ordered_same rfl⟩
  · have hx : (method x).exclusive = false := by
      by_contra hx
      have hw := H.writer_eq hc (by simpa using hx)
      rw [State.put_writer] at hnone
      rw [hnone] at hw
      cases hw
    exact (hsame hx).trans (H.idle hnone)
  · rcases State.of_put hd with ⟨rfl, hp⟩ | ⟨hdc, hd⟩
    · obtain ⟨rfl, rfl⟩ := Phase.inside.inj hp
      obtain ⟨h₀, hh, hrun, hstates⟩ := H.writing d y _ hc hwd
      refine ⟨h₀, hh, hrun, ?_⟩
      exact fun t ht => hstates (List.mem_cons_of_mem _ ht)
    · have hx : (method x).exclusive = false := by
        by_contra hx
        have hw := H.writer_eq hc (by simpa using hx)
        exact hdc (Option.some.inj (hwd.symm.trans hw))
      have hobj : act m.object = m.object := hsame hx
      rw [State.put_object, hobj]
      exact H.writing d y body hd hwd
  · rcases State.of_put hd with ⟨rfl, hp⟩ | ⟨hdc, hd⟩
    · obtain ⟨rfl, rfl⟩ := Phase.inside.inj hp
      obtain ⟨hreads, hrun⟩ := H.reading d y _ hc hy
      obtain ⟨hobj, hrest⟩ := hreads m.object
      refine ⟨hrest, ?_⟩
      rw [State.put_object]
      dsimp only
      rw [hobj]
      rw [Body.run, hobj] at hrun
      exact hrun
    · have hx : (method x).exclusive = false := by
        by_contra hx
        have hw := H.writer_eq hc (by simpa using hx)
        rw [H.locked.writer_none hd hy] at hw
        cases hw
      rw [State.put_object]
      dsimp only
      rw [hsame hx]
      exact H.reading d y body hd hy

theorem leaveRead (H : Inv method s₀ es m h) (hlaw : Lawful method) {a : α}
    (hc : m.calls c = some (.inside x (.ret a))) (hx : (method x).exclusive = false) :
    Inv method s₀ (es ++ [.release c])
      ({ m with readers := m.readers.erase c }.put c (.outside x a)) (h ++ [(c, x)]) := by
  have hw := H.locked.writer_none hc hx
  have hwc : m.writer ≠ some c := by
    rw [hw]
    rintro ⟨⟩
  have hgrow : h <+: h ++ [(c, x)] := List.prefix_append _ _
  obtain ⟨-, hresult⟩ := H.reading c x _ hc hx
  rw [H.idle hw] at hresult
  refine ⟨H.locked.next (.leaveRead hc hx), H.called_put hc rfl rfl,
    H.replied_put hc (by simp) (by simp) (by simp),
    H.placed_concat (p := .inside x _) hc rfl hwc rfl (Or.inl (by simp [Phase.result?]))
      (fun _ _ => Iff.rfl), H.once_concat hc rfl hwc x, fun _ => ?_, fun d y body _ hwd => ?_,
    fun d y body hd hy => ?_, H.result_put hgrow ?_, H.answered_put hgrow (by simp) rfl,
    H.ordered_concat rfl x⟩
  · rw [State.put_object, after_concat, atomic, (hlaw.reads x hx).run]
    exact H.idle hw
  · rw [State.put_writer, hw] at hwd
    cases hwd
  · rcases State.of_put hd with ⟨-, hp⟩ | ⟨-, hd⟩
    · cases hp
    · exact H.reading d y body hd hy
  · rintro a' ⟨⟩
    exact ⟨h, List.prefix_refl _, hresult⟩

theorem leaveWrite (H : Inv method s₀ es m h) {a : α}
    (hc : m.calls c = some (.inside x (.ret a))) (hx : (method x).exclusive = true) :
    Inv method s₀ (es ++ [.release c]) ({ m with writer := none }.put c (.outside x a)) h := by
  have hwc := H.writer_eq hc hx
  obtain ⟨h₀, hh, hrun, -⟩ := H.writing c x _ hc hwc
  refine ⟨H.locked.next (.leaveWrite hc hx), H.called_put hc rfl rfl,
    H.replied_put hc (by simp) (by simp) (by simp),
    H.placed_put (p := .inside x _) hc rfl ?_ ?_, H.once, fun _ => ?_, fun d y body _ hwd => ?_,
    fun d y body hd hy => ?_, H.result_put (List.prefix_refl h) ?_,
    H.answered_put (List.prefix_refl h) (by simp) rfl, H.ordered_same rfl⟩
  · exact iff_of_true (Or.inl (by simp [Phase.result?])) (Or.inr hwc)
  · intro d hd
    refine iff_of_false (by rintro ⟨⟩) ?_
    intro hwd
    exact hd (Option.some.inj (hwd.symm.trans hwc))
  · rw [State.put_object, hh, after_concat, ← hrun]
    rfl
  · cases hwd
  · rcases State.of_put hd with ⟨-, hp⟩ | ⟨-, hd⟩
    · cases hp
    · exact H.reading d y body hd hy
  · rintro a' ⟨⟩
    exact ⟨h₀, by rw [hh]; exact List.prefix_refl _, congrArg Prod.fst hrun⟩

theorem reply (H : Inv method s₀ es m h) (hlaw : Lawful method) {a : α}
    (hc : m.calls c = some (.outside x a)) :
    Inv method s₀ (es ++ [.reply c]) (m.put c (.done x a ((method x).reply a m.object))) h := by
  refine ⟨H.locked.next (.reply hc), H.called_put hc rfl rfl, fun d => ?_,
    H.placed_put (p := .outside x _) hc rfl (by simp [Phase.result?]) (fun _ _ => Iff.rfl), H.once,
    H.idle, fun d y body hd => ?_, fun d y body hd => ?_, H.result_put (List.prefix_refl h) ?_,
    fun d y a' b hd => ?_, H.ordered_same rfl⟩
  · rw [List.mem_append, List.mem_singleton, H.replied d, Event.reply.injEq]
    by_cases hd : d = c
    · subst hd
      rw [hc, State.put_self]
      simp
    · rw [State.put_of_ne hd]
      simp [hd]
  · rcases State.of_put hd with ⟨-, hp⟩ | ⟨-, hd⟩
    · cases hp
    · exact H.writing d y body hd
  · rcases State.of_put hd with ⟨-, hp⟩ | ⟨-, hd⟩
    · cases hp
    · exact H.reading d y body hd
  · rintro a' ⟨⟩
    exact H.result c (.outside x a) a hc rfl
  · have hlast : ∀ d' y', [Event.reply d, .call d' y'].Sublist (es ++ [.reply c]) →
        [Event.reply d, .call d' y'].Sublist es := by
      intro d' y' hsub
      rcases pair_sublist_concat.mp hsub with hsub | ⟨-, hlast⟩
      · exact hsub
      · cases hlast
    rcases State.of_put hd with ⟨rfl, hp⟩ | ⟨-, hd⟩
    · obtain ⟨rfl, rfl, rfl⟩ := Phase.done.inj hp
      obtain ⟨h₁, hmem, hpre, hsee⟩ := H.reply_eq hlaw hc
      refine ⟨h₁, hmem, hpre, hsee, fun d' _ y' hsub => ?_⟩
      obtain ⟨y, a, b, hdone⟩ := (H.replied d).mp ((hlast d' y' hsub).subset (by simp))
      rw [hc] at hdone
      cases hdone
    · obtain ⟨h₁, hmem, hpre, hsee, hbefore⟩ := H.answered d y a' b hd
      exact ⟨h₁, hmem, hpre, hsee, fun d' hd' y' hsub => hbefore d' hd' y' (hlast d' y' hsub)⟩

theorem next (H : Inv method s₀ es m h) (hlaw : Lawful method) (hn : Next method m e m') :
    ∃ h', Inv method s₀ (es ++ [e]) m' h' := by
  cases hn with
  | call c x hc => exact ⟨h, H.call hc x⟩
  | read hc hx hw => exact ⟨h, H.read hlaw hc hx hw⟩
  | write hc hx hw hr => exact ⟨_, H.write hc hx hw hr⟩
  | step hc => exact ⟨h, H.act hc⟩
  | leaveRead hc hx => exact ⟨_, H.leaveRead hlaw hc hx⟩
  | leaveWrite hc hx => exact ⟨h, H.leaveWrite hc hx⟩
  | reply hc => exact ⟨h, H.reply hlaw hc⟩

theorem run (hlaw : Lawful method) {es' : List (Event κ ι)} (H : Inv method s₀ es m h)
    (hrun : Monitor.run method m es' = some m') : ∃ h', Inv method s₀ (es ++ es') m' h' := by
  induction es' generalizing m es h with
  | nil =>
      cases hrun
      exact ⟨h, by rwa [List.append_nil]⟩
  | cons e es' ih =>
      obtain ⟨m₁, hn, hrun⟩ := run_cons_eq_some hrun
      obtain ⟨h₁, H₁⟩ := H.next hlaw hn
      obtain ⟨h', H'⟩ := ih H₁ hrun
      exact ⟨h', by rwa [List.append_assoc] at H'⟩

end Inv

/-! ## One call in a run -/

variable {p q : Phase ι σ α β} {h : List (κ × ι)}

/-- A call keeps its input, and its answer once it has one. -/
theorem Next.keeps (hn : Next method m e m') (hc : m.calls c = some p) :
    ∃ q, m'.calls c = some q ∧ q.input = p.input ∧ ((∃ x a b, p = .done x a b) → q = p) := by
  have hput : ∀ {d : κ} (p₀ : Phase ι σ α β) {p' : Phase ι σ α β}, m.calls d = some p₀ →
      p'.input = p₀.input → (∀ x a b, p₀ ≠ .done x a b) → ∃ q, (m.put d p').calls c = some q ∧ q.input = p.input ∧
        ((∃ x a b, p = .done x a b) → q = p) := by
    intro d p₀ p' hd hin hdone
    by_cases hcd : c = d
    · subst hcd
      obtain rfl := Option.some.inj (hc.symm.trans hd)
      refine ⟨p', State.put_self, hin, ?_⟩
      rintro ⟨x, a, b, hp⟩
      exact absurd hp (hdone x a b)
    · exact ⟨p, (State.put_of_ne hcd).trans hc, rfl, fun _ => rfl⟩
  cases hn with
  | call d x hd =>
      refine ⟨p, ?_, rfl, fun _ => rfl⟩
      rw [State.put_of_ne (by rintro rfl; rw [hd] at hc; cases hc)]
      exact hc
  | read hd | write hd => exact hput (.waiting _) hd rfl (by simp)
  | step hd | leaveRead hd | leaveWrite hd => exact hput (.inside _ _) hd rfl (by simp)
  | reply hd => exact hput (.outside _ _) hd rfl (by simp)

/-- A call is there since it was made. -/
theorem Next.origin (hn : Next method m e m') (hc : m'.calls c = some q) :
    e = .call c q.input ∨ ∃ p, m.calls c = some p ∧ p.input = q.input := by
  have hput : ∀ {d : κ} (p₀ : Phase ι σ α β) {p' : Phase ι σ α β}, m.calls d = some p₀ →
      Function.update m.calls d (some p') c = some q → p'.input = p₀.input →
      ∃ p, m.calls c = some p ∧ p.input = q.input := by
    intro d p₀ p' hd hq hin
    rcases State.of_put (m := m) hq with ⟨rfl, rfl⟩ | ⟨-, hq⟩
    · exact ⟨p₀, hd, hin.symm⟩
    · exact ⟨q, hq, rfl⟩
  cases hn with
  | call d x hd =>
      rcases State.of_put hc with ⟨rfl, rfl⟩ | ⟨-, hq⟩
      · exact Or.inl rfl
      · exact Or.inr ⟨q, hq, rfl⟩
  | read hd | write hd => exact Or.inr (hput (.waiting _) hd hc rfl)
  | step hd | leaveRead hd | leaveWrite hd => exact Or.inr (hput (.inside _ _) hd hc rfl)
  | reply hd => exact Or.inr (hput (.outside _ _) hd hc rfl)

theorem Next.other (hn : Next method m e m') (hc : c ≠ e.caller) : m'.calls c = m.calls c := by
  cases hn <;> exact Function.update_of_ne hc ..

theorem run_other (hrun : run method m es = some m') (hc : ∀ e ∈ es, c ≠ e.caller) :
    m'.calls c = m.calls c := by
  induction es generalizing m with
  | nil =>
      cases hrun
      rfl
  | cons e es ih =>
      obtain ⟨m₁, hn, hrun⟩ := run_cons_eq_some hrun
      exact (ih hrun fun e' he' => hc e' (List.mem_cons_of_mem _ he')).trans
        (hn.other (hc e List.mem_cons_self))

theorem run_keeps (hrun : run method m es = some m') (hc : m.calls c = some p) :
    ∃ q, m'.calls c = some q ∧ q.input = p.input ∧ ((∃ x a b, p = .done x a b) → q = p) := by
  induction es generalizing m p with
  | nil =>
      cases hrun
      exact ⟨p, hc, rfl, fun _ => rfl⟩
  | cons e es ih =>
      obtain ⟨m₁, hn, hrun⟩ := run_cons_eq_some hrun
      obtain ⟨p₁, hc₁, hin₁, hdone₁⟩ := hn.keeps hc
      obtain ⟨q, hq, hin, hdone⟩ := ih hrun hc₁
      refine ⟨q, hq, hin.trans hin₁, fun hp => ?_⟩
      obtain rfl := hdone₁ hp
      exact hdone hp

theorem run_origin (hrun : run method m es = some m') (hc : m'.calls c = some q) :
    .call c q.input ∈ es ∨ ∃ p, m.calls c = some p ∧ p.input = q.input := by
  induction es generalizing m with
  | nil =>
      cases hrun
      exact Or.inr ⟨q, hc, rfl⟩
  | cons e es ih =>
      obtain ⟨m₁, hn, hrun⟩ := run_cons_eq_some hrun
      rcases ih hrun with hmem | ⟨p, hp, hin⟩
      · exact Or.inl (List.mem_cons_of_mem _ hmem)
      · rcases hn.origin hp with rfl | ⟨p₀, hp₀, hin₀⟩
        · rw [hin]
          exact Or.inl List.mem_cons_self
        · exact Or.inr ⟨p₀, hp₀, hin₀.trans hin⟩

end Monitor
