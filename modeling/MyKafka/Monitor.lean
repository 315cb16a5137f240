import MyKafka.Runs

/-!
# Methods under a lock of readers and writers

A method is a tree of the calls it makes while it holds the lock; when it has released the lock it
looks at the object once more to give its answer. Calls of many methods are under way at once, and
their steps come in any order that the lock admits.
-/

namespace Monitor

variable {κ ι σ α β : Type*}

/-- A method has its result, or makes a call and goes on with what the call found. -/
inductive Body (σ α : Type*) where
  | ret (a : α)
  | call (act : σ → σ) (rest : σ → Body σ α)

namespace Body

/-- A call that gives the rest of the method and the new state. -/
def sub (f : σ → Body σ α × σ) : Body σ α := .call (fun s => (f s).2) (fun s => (f s).1)

/-- The method on its own. -/
def run : Body σ α → σ → α × σ
  | .ret a, s => (a, s)
  | .call act rest, s => (rest s).run (act s)

/-- The states a run goes through. -/
def states : Body σ α → σ → List σ
  | .ret _, s => [s]
  | .call act rest, s => s :: (rest s).states (act s)

/-- No call changes the object. -/
def Reads : Body σ α → Prop
  | .ret _ => True
  | .call act rest => ∀ s, act s = s ∧ (rest s).Reads

@[simp] theorem run_sub (f : σ → Body σ α × σ) (s : σ) : (sub f).run s = (f s).1.run (f s).2 := rfl

@[simp] theorem states_sub (f : σ → Body σ α × σ) (s : σ) :
    (sub f).states s = s :: (f s).1.states (f s).2 := rfl

theorem mem_states (body : Body σ α) (s : σ) : s ∈ body.states s := by
  cases body <;> simp [states]

theorem Reads.run {body : Body σ α} (h : body.Reads) (s : σ) : (body.run s).2 = s := by
  induction body generalizing s with
  | ret a => rfl
  | call act rest ih =>
      obtain ⟨hact, hrest⟩ := h s
      rw [Body.run, hact, ih s hrest]

end Body

structure Method (σ α β : Type*) where
  /-- Whether it takes the lock as a writer. -/
  exclusive : Bool
  body : Body σ α
  /-- The answer, from its result and what it finds after it has released the lock. -/
  reply : α → σ → β

/-- A method that nobody interrupts. -/
def atomic (method : ι → Method σ α β) (s : σ) (x : ι) : α × σ := (method x).body.run s

/-- Readers read, and what an answer depends on changes at most once within a writer. -/
structure Lawful (method : ι → Method σ α β) : Prop where
  reads : ∀ x, (method x).exclusive = false → (method x).body.Reads
  settled : ∀ x y a s, (method x).exclusive = true → ∀ t ∈ (method x).body.states s,
    (method y).reply a t = (method y).reply a s ∨
      (method y).reply a t = (method y).reply a (atomic method s x).2

/-- Where a call is: before the lock, holding it, after it, or answered. -/
inductive Phase (ι σ α β : Type*) where
  | waiting (x : ι)
  | inside (x : ι) (body : Body σ α)
  | outside (x : ι) (a : α)
  | done (x : ι) (a : α) (b : β)

namespace Phase

def input : Phase ι σ α β → ι
  | .waiting x | .inside x _ | .outside x _ | .done x _ _ => x

def result? : Phase ι σ α β → Option α
  | .waiting _ | .inside _ _ => none
  | .outside _ a | .done _ a _ => some a

end Phase

structure State (κ ι σ α β : Type*) where
  object : σ
  writer : Option κ
  readers : List κ
  calls : κ → Option (Phase ι σ α β)

inductive Event (κ ι : Type*) where
  | call (c : κ) (x : ι)
  | acquire (c : κ)
  | step (c : κ)
  | release (c : κ)
  | reply (c : κ)

def Event.isCall : Event κ ι → Bool
  | .call _ _ => true
  | .acquire _ | .step _ | .release _ | .reply _ => false

def Event.caller : Event κ ι → κ
  | .call c _ | .acquire c | .step c | .release c | .reply c => c

def start (s : σ) : State κ ι σ α β := ⟨s, none, [], fun _ => none⟩

/-- Any number of readers, or one writer. -/
def State.lock (m : State κ ι σ α β) (c : κ) (exclusive : Bool) : Option (State κ ι σ α β) :=
  match m.writer, exclusive, m.readers with
  | none, true, [] => some { m with writer := some c }
  | none, false, readers => some { m with readers := c :: readers }
  | _, _, _ => none

theorem State.lock_eq_some {m m' : State κ ι σ α β} {c : κ} {exclusive : Bool}
    (h : m.lock c exclusive = some m') :
    m.writer = none ∧ ((exclusive = true ∧ m.readers = [] ∧ m' = { m with writer := some c }) ∨
      (exclusive = false ∧ m' = { m with readers := c :: m.readers })) := by
  unfold State.lock at h
  split at h
  · rename_i hw hr
    exact ⟨hw, Or.inl ⟨rfl, hr, (Option.some.inj h).symm⟩⟩
  · rename_i hw
    exact ⟨hw, Or.inr ⟨rfl, (Option.some.inj h).symm⟩⟩
  · cases h

variable [DecidableEq κ] {method : ι → Method σ α β} {m m' : State κ ι σ α β} {c d : κ}
  {e : Event κ ι} {es : List (Event κ ι)}

namespace State

def put (m : State κ ι σ α β) (c : κ) (p : Phase ι σ α β) : State κ ι σ α β :=
  { m with calls := Function.update m.calls c (some p) }

def unlock (m : State κ ι σ α β) (c : κ) (exclusive : Bool) : State κ ι σ α β :=
  if exclusive then { m with writer := none } else { m with readers := m.readers.erase c }

end State

/-- `none` where the call is elsewhere, or the lock is taken. -/
def step (method : ι → Method σ α β) (m : State κ ι σ α β) :
    Event κ ι → Option (State κ ι σ α β)
  | .call c x =>
    match m.calls c with
    | none => some (m.put c (.waiting x))
    | some _ => none
  | .acquire c =>
    match m.calls c with
    | some (.waiting x) =>
      match m.lock c (method x).exclusive with
      | none => none
      | some m => some (m.put c (.inside x (method x).body))
    | _ => none
  | .step c =>
    match m.calls c with
    | some (.inside x (.call act rest)) =>
      some ({ m with object := act m.object }.put c (.inside x (rest m.object)))
    | _ => none
  | .release c =>
    match m.calls c with
    | some (.inside x (.ret a)) => some ((m.unlock c (method x).exclusive).put c (.outside x a))
    | _ => none
  | .reply c =>
    match m.calls c with
    | some (.outside x a) => some (m.put c (.done x a ((method x).reply a m.object)))
    | _ => none

def run (method : ι → Method σ α β) (m : State κ ι σ α β) :
    List (Event κ ι) → Option (State κ ι σ α β)
  | [] => some m
  | e :: es =>
    match step method m e with
    | none => none
    | some m => run method m es

/-! ## What a step does -/

inductive Next (method : ι → Method σ α β) (m : State κ ι σ α β) :
    Event κ ι → State κ ι σ α β → Prop
  | call (c : κ) (x : ι) (hc : m.calls c = none) :
      Next method m (.call c x) (m.put c (.waiting x))
  | read {c : κ} {x : ι} (hc : m.calls c = some (.waiting x)) (hx : (method x).exclusive = false)
      (hw : m.writer = none) :
      Next method m (.acquire c)
        ({ m with readers := c :: m.readers }.put c (.inside x (method x).body))
  | write {c : κ} {x : ι} (hc : m.calls c = some (.waiting x)) (hx : (method x).exclusive = true)
      (hw : m.writer = none) (hr : m.readers = []) :
      Next method m (.acquire c) ({ m with writer := some c }.put c (.inside x (method x).body))
  | step {c : κ} {x : ι} {act : σ → σ} {rest : σ → Body σ α}
      (hc : m.calls c = some (.inside x (.call act rest))) :
      Next method m (.step c)
        ({ m with object := act m.object }.put c (.inside x (rest m.object)))
  | leaveRead {c : κ} {x : ι} {a : α} (hc : m.calls c = some (.inside x (.ret a)))
      (hx : (method x).exclusive = false) :
      Next method m (.release c)
        ({ m with readers := m.readers.erase c }.put c (.outside x a))
  | leaveWrite {c : κ} {x : ι} {a : α} (hc : m.calls c = some (.inside x (.ret a)))
      (hx : (method x).exclusive = true) :
      Next method m (.release c) ({ m with writer := none }.put c (.outside x a))
  | reply {c : κ} {x : ι} {a : α} (hc : m.calls c = some (.outside x a)) :
      Next method m (.reply c) (m.put c (.done x a ((method x).reply a m.object)))

theorem next_of_step (h : step method m e = some m') : Next method m e m' := by
  cases e with
  | call c x =>
      simp only [step] at h
      split at h
      · rename_i hc
        cases h
        exact .call c x hc
      · cases h
  | acquire c =>
      simp only [step] at h
      split at h
      · rename_i x hc
        split at h
        · cases h
        · rename_i m₁ hlock
          cases h
          obtain ⟨hw, ⟨hx, hr, rfl⟩ | ⟨hx, rfl⟩⟩ := State.lock_eq_some hlock
          · exact .write hc hx hw hr
          · exact .read hc hx hw
      · cases h
  | step c =>
      simp only [step] at h
      split at h
      · rename_i hc
        cases h
        exact .step hc
      · cases h
  | release c =>
      simp only [step] at h
      split at h
      · rename_i x a hc
        obtain rfl := Option.some.inj h
        unfold State.unlock
        cases hx : (method x).exclusive with
        | true => exact .leaveWrite hc hx
        | false => exact .leaveRead hc hx
      · cases h
  | reply c =>
      simp only [step] at h
      split at h
      · rename_i hc
        cases h
        exact .reply hc
      · cases h

theorem run_append (m : State κ ι σ α β) (es es' : List (Event κ ι)) :
    run method m (es ++ es') = (run method m es).bind fun m => run method m es' := by
  induction es generalizing m with
  | nil => rfl
  | cons e es ih =>
      simp only [List.cons_append, run]
      cases step method m e with
      | none => rfl
      | some m₁ => exact ih m₁

namespace State

variable {p : Phase ι σ α β}

@[simp] theorem put_object : (m.put c p).object = m.object := rfl

@[simp] theorem put_writer : (m.put c p).writer = m.writer := rfl

@[simp] theorem put_readers : (m.put c p).readers = m.readers := rfl

@[simp] theorem put_self : (m.put c p).calls c = some p := Function.update_self ..

theorem put_of_ne (h : d ≠ c) : (m.put c p).calls d = m.calls d := Function.update_of_ne h ..

theorem of_put {q : Phase ι σ α β} (h : (m.put c p).calls d = some q) :
    (d = c ∧ q = p) ∨ (d ≠ c ∧ m.calls d = some q) := by
  by_cases hd : d = c
  · subst hd
    rw [put_self] at h
    exact Or.inl ⟨rfl, (Option.some.inj h).symm⟩
  · rw [put_of_ne hd] at h
    exact Or.inr ⟨hd, h⟩

end State

end Monitor
