import MyKafka.BrokerServer
import MyKafka.MonitorRun
import MyKafka.RpcRun

/-!
# A run of the server

A run of the server is a run of its threads and a run of its broker. The answers that go out are
those of a broker that serves one call after the other, in an order that respects real time, except
that `getOffsets` looks a second time, later in that order.
-/

namespace MyKafka

open Posix Monitor

/-! ## What the threads do -/

namespace RpcServer

variable {s s' : RpcServer} {lost : List RpcService} {x : RpcService} {th th' : Worker} {t : ℕ}

theorem exists_rest (ht : s.threads[t]? = some th) : ∃ rest, s.threads.Perm (th :: rest) ∧
    ∀ th', (s.threads.set t th').Perm (th' :: rest) := by
  obtain ⟨hlt, rfl⟩ := List.getElem?_eq_some_iff.mp ht
  exact ⟨s.threads.eraseIdx t, (List.getElem_cons_eraseIdx_perm hlt).symm,
    fun th' => List.set_perm_cons_eraseIdx hlt th'⟩

/-- What a thread does on its own: it creates a service, comes to rest, serves an object, or takes one
of the actions of `process`. -/
inductive Advanced (s s' : RpcServer) : Worker → Worker → Prop
  | handle (kind : ServiceKind) (todo : List ServiceKind) (hp : s'.processed = s.processed)
      (hf : s'.finishing = s.finishing) :
      Advanced s s' (.handling (kind :: todo)) (.handling todo)
  | rest {th : Worker} (hwait : th ≠ .waiting) (hth : ∀ x todo, th = .processing x todo → todo = [])
      (hx : ∀ x, th = .proceeding x → s.objects.lookup x ≠ some .process)
      (hp : s'.processed = s.processed) (hf : s'.finishing = s.finishing) :
      Advanced s s' th .waiting
  | serve (x : RpcService) (hx : s.objects.lookup x = some .process)
      (hp : s'.processed = x :: s.processed) (hf : s'.finishing = s.finishing) :
      Advanced s s' (.proceeding x) (.processing x x.process)
  | act (x : RpcService) (a : ServiceAction) (todo : List ServiceAction)
      (hp : s'.processed = s.processed)
      (hf : s'.finishing = if a = .finish then x :: s.finishing else s.finishing) :
      Advanced s s' (.processing x (a :: todo)) (.processing x todo)

theorem advanced_of_advance (h : s.advance th = some (s', th')) :
    Advanced s s' th th' ∧ s'.threads = s.threads := by
  cases th with
  | waiting => cases h
  | handling todo =>
      cases todo with
      | nil =>
          cases h
          exact ⟨.rest (by simp) (by simp) (by simp) rfl rfl, rfl⟩
      | cons kind todo =>
          cases h
          exact ⟨.handle kind todo rfl rfl, rfl⟩
  | proceeding x =>
      simp only [RpcServer.advance, Option.some.injEq, proceed] at h
      split at h
      · next hx =>
          cases h
          exact ⟨.serve x hx rfl rfl, rfl⟩
      · next hx =>
          cases h
          refine ⟨.rest (by simp) (by simp) ?_ rfl rfl, rfl⟩
          rintro y ⟨⟩
          rw [hx]
          simp
      · next hx =>
          cases h
          refine ⟨.rest (by simp) (by simp) ?_ rfl rfl, rfl⟩
          rintro y ⟨⟩
          rw [hx]
          simp
  | processing x todo =>
      cases todo with
      | nil =>
          cases h
          exact ⟨.rest (by simp) (by simp) (by simp) rfl rfl, rfl⟩
      | cons a todo =>
          cases h
          have hperform : (s.perform x a).processed = s.processed ∧
              (s.perform x a).threads = s.threads ∧ (s.perform x a).finishing =
                if a = .finish then x :: s.finishing else s.finishing := by
            cases a <;> simp only [perform, touch, create] <;> split_ifs <;> simp_all
          exact ⟨.act x a todo hperform.1 hperform.2.2, hperform.2.1⟩

theorem step_advance (h : s.step (.advance t) = some s') : ∃ th th' s₁, s.threads[t]? = some th ∧
    s.advance th = some (s₁, th') ∧ s' = { s₁ with threads := s.threads.set t th' } := by
  rw [RpcServer.step] at h
  cases ht : s.threads[t]? with
  | none => simp [ht] at h
  | some th =>
      cases ha : s.advance th with
      | none => simp [ht, ha] at h
      | some r =>
          obtain ⟨s₁, th'⟩ := r
          simp only [ht, ha, Option.some.injEq] at h
          have hthreads := (advanced_of_advance ha).2
          refine ⟨th, th', s₁, rfl, ha, ?_⟩
          rw [← h, hthreads]

/-- A step leaves the status of the other objects alone, and makes no new service of its own. -/
theorem lookup_of_advance (H : Inv s lost) (h : s.advance th = some (s', th')) {y : RpcService}
    (hy : y ∈ s.objects) : s'.objects.lookup y = s.objects.lookup y ∨
      th.object? = some y ∧ s'.objects.lookup y ≠ some .process := by
  have hcreate : ∀ kind, (s.create kind).objects.lookup y = s.objects.lookup y := by
    intro kind
    have hlt := H.fresh y (Or.inl hy)
    apply AList.lookup_insert_ne
    intro heq
    rw [heq] at hlt
    exact lt_irrefl _ hlt
  cases th with
  | waiting => cases h
  | handling todo =>
      cases todo with
      | nil =>
          cases h
          exact Or.inl rfl
      | cons kind todo =>
          cases h
          exact Or.inl (hcreate kind)
  | proceeding x =>
      simp only [RpcServer.advance, Option.some.injEq, proceed] at h
      split at h
      · cases h
        by_cases hyx : y = x
        · subst hyx
          exact Or.inr ⟨rfl, by rw [AList.lookup_insert]; simp⟩
        · exact Or.inl (AList.lookup_insert_ne hyx)
      · cases h
        by_cases hyx : y = x
        · subst hyx
          exact Or.inr ⟨rfl, by rw [AList.lookup_erase]; simp⟩
        · exact Or.inl (AList.lookup_erase_ne hyx)
      · cases h
        exact Or.inl rfl
  | processing x todo =>
      cases todo with
      | nil =>
          cases h
          exact Or.inl rfl
      | cons a todo =>
          cases h
          have htouch : (s.touch x).objects = s.objects ∧ (s.touch x).count = s.count := by
            unfold touch
            split_ifs <;> exact ⟨rfl, rfl⟩
          cases a with
          | create kind =>
              have hsame : ((s.touch x).create kind).objects = (s.create kind).objects := by
                simp only [create, htouch]
              rw [perform, hsame]
              exact Or.inl (hcreate kind)
          | call kind =>
              rw [perform, htouch.1]
              exact Or.inl rfl
          | finish =>
              rw [perform, htouch.1]
              exact Or.inl rfl

/-- One thread moved on, and the others did not. -/
structure Moved (s s' : RpcServer) (th th' : Worker) (rest : List Worker) : Prop where
  perm : s.threads.Perm (th :: rest)
  perm' : s'.threads.Perm (th' :: rest)
  others : ∀ x, th.object? = some x → ∀ th₀ ∈ rest, th₀.object? ≠ some x
  lookup : ∀ y ∈ s.objects, s'.objects.lookup y = s.objects.lookup y ∨
    th.object? = some y ∧ s'.objects.lookup y ≠ some .process

theorem Moved.before {rest : List Worker} (h : Moved s s' th th' rest) (th₀ : Worker) :
    th₀ ∈ s.threads ↔ th₀ = th ∨ th₀ ∈ rest := h.perm.mem_iff.trans List.mem_cons

theorem Moved.after {rest : List Worker} (h : Moved s s' th th' rest) (th₀ : Worker) :
    th₀ ∈ s'.threads ↔ th₀ = th' ∨ th₀ ∈ rest := h.perm'.mem_iff.trans List.mem_cons

theorem moved_advance (H : Inv s lost) (h : s.step (.advance t) = some s') :
    ∃ th th' rest, s.threads[t]? = some th ∧ Moved s s' th th' rest ∧ Advanced s s' th th' := by
  obtain ⟨th, th', s₁, ht, ha, rfl⟩ := step_advance h
  obtain ⟨rest, hperm, hset⟩ := exists_rest ht
  have hadv := (advanced_of_advance ha).1
  refine ⟨th, th', rest, ht, ⟨hperm, hset th', fun x hx => ?_, fun y hy => ?_⟩, ?_⟩
  · exact ((H.perm hperm).only rfl hx).2.2.2
  · exact lookup_of_advance H ha hy
  · cases hadv with
    | handle kind todo hp hf => exact .handle kind todo hp hf
    | rest hwait hth hx hp hf => exact .rest hwait hth hx hp hf
    | serve x hx hp hf => exact .serve x hx hp hf
    | act x a todo hp hf => exact .act x a todo hp hf

theorem moved_took {objects : List RpcService} (ht : s.threads[t]? = some .waiting) (ok : Bool)
    (hs' : s' = { s with requested := objects, threads := s.threads.set t (Worker.took x ok) } ∨
      s' = { s with
        finishing := objects
        finished := x :: s.finished
        threads := s.threads.set t (Worker.took x ok) }) :
    ∃ rest, Moved s s' .waiting (Worker.took x ok) rest ∧ s'.processed = s.processed ∧
      s'.objects = s.objects := by
  obtain ⟨rest, hperm, hset⟩ := exists_rest ht
  have hothers : ∀ x, Worker.waiting.object? = some x → ∀ th₀ ∈ rest, th₀.object? ≠ some x := by
    rintro x ⟨⟩
  rcases hs' with rfl | rfl
  · exact ⟨rest, ⟨hperm, hset _, hothers, fun _ _ => Or.inl rfl⟩, rfl, rfl⟩
  · exact ⟨rest, ⟨hperm, hset _, hothers, fun _ _ => Or.inl rfl⟩, rfl, rfl⟩

theorem run_append (s : RpcServer) (es es' : List RpcEvent) :
    s.run (es ++ es') = (s.run es).bind fun s => s.run es' := by
  induction es generalizing s with
  | nil => rfl
  | cons e es ih =>
      simp only [List.cons_append, run]
      cases s.step e with
      | none => rfl
      | some s₁ => exact ih s₁

theorem run_singleton (s : RpcServer) (e : RpcEvent) : s.run [e] = s.step e := by
  simp only [run]
  cases s.step e <;> rfl

end RpcServer

/-! ## Two runs in one -/

namespace BrokerServer

variable {s s' : BrokerServer} {e : ServerEvent} {es : List ServerEvent} {x y : RpcService}

theorem stepRpc_eq_some {ev : RpcEvent} (h : s.stepRpc ev = some s') :
    s.rpc.step ev = some s'.rpc ∧ s' = { s with rpc := s'.rpc } := by
  obtain ⟨rpc, hrpc, rfl⟩ := Option.map_eq_some_iff.mp h
  exact ⟨hrpc, rfl⟩

theorem runBroker_eq_some {evs : List (Monitor.Event Caller BrokerCall)} (h : s.runBroker evs = some s') :
    Monitor.run brokerMethod s.broker evs = some s'.broker ∧
      s' = { s with broker := s'.broker } := by
  obtain ⟨broker, hbroker, rfl⟩ := Option.map_eq_some_iff.mp h
  exact ⟨hbroker, rfl⟩

/-- What the steps do, with what they need. -/
inductive Next (s : BrokerServer) : ServerEvent → BrokerServer → Prop
  | advance {t : ℕ} {rpc : RpcServer} (hmay : s.mayAdvance t = true)
      (h : s.rpc.step (.advance t) = some rpc) : Next s (.advance t) { s with rpc := rpc }
  | request {t : ℕ} {x : RpcService} {ok : Bool} {request : ServiceRequest} {rpc : RpcServer}
      (hkind : request.kind = x.kind) (h : s.rpc.step (.request t x ok) = some rpc) :
      Next s (.request t x ok request) { s with
        rpc := rpc
        requests := if ok then Function.update s.requests x (some request) else s.requests }
  | finish {t : ℕ} {x : RpcService} {ok : Bool} {rpc : RpcServer}
      (h : s.rpc.step (.finish t x ok) = some rpc) : Next s (.finish t x ok) { s with rpc := rpc }
  | enter {t : ℕ} {x : RpcService} {request : ServiceRequest} {kind : ServiceKind}
      {todo : List ServiceAction} {m : State Caller BrokerCall Server CallResult CallResult}
      (ht : s.rpc.threads[t]? = some (.processing x (.call kind :: todo)))
      (hx : s.requests x = some request)
      (h : Monitor.run brokerMethod s.broker [.call (.service x) (.request request)] = some m) :
      Next s (.enter t x request) { s with broker := m }
  | method {x : RpcService} {part : MethodStep}
      {m : State Caller BrokerCall Server CallResult CallResult}
      (h : Monitor.run brokerMethod s.broker [part.event (.service x)] = some m) :
      Next s (.method x part) { s with broker := m }
  | respond {t : ℕ} {x : RpcService} {todo : List ServiceAction} {input : BrokerCall}
      {a response : CallResult} {rpc : RpcServer}
      (ht : s.rpc.threads[t]? = some (.processing x (.finish :: todo)))
      (hx : s.broker.calls (.service x) = some (.done input a response))
      (h : s.rpc.step (.advance t) = some rpc) :
      Next s (.respond t x) { s with rpc := rpc, responses := (x, response) :: s.responses }
  | tick {n seconds : ℕ} {m : State Caller BrokerCall Server CallResult CallResult}
      (h : Monitor.run brokerMethod s.broker (clockEvents n seconds) = some m) :
      Next s (.tick n seconds) { s with broker := m }

theorem next_of_step (h : s.step e = some s') : Next s e s' := by
  cases e with
  | advance t =>
      simp only [step, Option.ite_none_right_eq_some] at h
      obtain ⟨hmay, h⟩ := h
      obtain ⟨hrpc, heq⟩ := stepRpc_eq_some h
      rw [heq]
      exact .advance hmay hrpc
  | request t x ok request =>
      simp only [step, Option.ite_none_right_eq_some] at h
      obtain ⟨hkind, h⟩ := h
      obtain ⟨hrpc, heq⟩ := stepRpc_eq_some h
      rw [heq]
      exact .request hkind hrpc
  | finish t x ok =>
      obtain ⟨hrpc, heq⟩ := stepRpc_eq_some h
      rw [heq]
      exact .finish hrpc
  | enter t x request =>
      simp only [step] at h
      split at h
      · next ht =>
          simp only [Option.ite_none_right_eq_some] at h
          obtain ⟨⟨rfl, hx⟩, h⟩ := h
          obtain ⟨hrun, heq⟩ := runBroker_eq_some h
          rw [heq]
          exact .enter ht hx hrun
      · cases h
  | method x part =>
      obtain ⟨hrun, heq⟩ := runBroker_eq_some h
      rw [heq]
      exact .method hrun
  | respond t x =>
      simp only [step] at h
      split at h
      · next ht hx =>
          simp only [Option.ite_none_right_eq_some] at h
          obtain ⟨rfl, h⟩ := h
          obtain ⟨hrpc, heq⟩ := stepRpc_eq_some h
          rw [heq]
          exact .respond ht hx hrpc
      · cases h
  | tick n seconds =>
      obtain ⟨hrun, heq⟩ := runBroker_eq_some h
      rw [heq]
      exact .tick hrun

theorem run_cons_eq_some (h : s.run (e :: es) = some s') :
    ∃ s₁, Next s e s₁ ∧ s₁.run es = some s' := by
  simp only [run] at h
  split at h
  · cases h
  · next s₁ hstep => exact ⟨s₁, next_of_step hstep, h⟩

theorem run_append_eq_some {es' : List ServerEvent} (h : s.run (es ++ es') = some s') :
    ∃ s₁, s.run es = some s₁ ∧ s₁.run es' = some s' := by
  induction es generalizing s with
  | nil => exact ⟨s, rfl, h⟩
  | cons e es ih =>
      simp only [List.cons_append, run] at h ⊢
      cases hstep : s.step e with
      | none => simp [hstep] at h
      | some s₁ =>
          rw [hstep] at h
          exact ih h

theorem Next.rpc_run (h : Next s e s') : s.rpc.run e.rpc = some s'.rpc := by
  cases h with
  | advance _ h | request _ h | finish h | respond _ _ h =>
      exact (RpcServer.run_singleton _ _).trans h
  | enter | method | tick => rfl

theorem Next.broker_run (h : Next s e s') :
    Monitor.run brokerMethod s.broker e.broker = some s'.broker := by
  cases h with
  | advance | request | finish | respond => rfl
  | enter _ _ h | method h | tick h => exact h

theorem rpc_run (h : s.run es = some s') : s.rpc.run (es.flatMap ServerEvent.rpc) = some s'.rpc := by
  induction es generalizing s with
  | nil =>
      cases h
      rfl
  | cons e es ih =>
      obtain ⟨s₁, hn, hrun⟩ := run_cons_eq_some h
      rw [List.flatMap_cons, RpcServer.run_append, hn.rpc_run]
      exact ih hrun

theorem broker_run (h : s.run es = some s') :
    Monitor.run brokerMethod s.broker (es.flatMap ServerEvent.broker) = some s'.broker := by
  induction es generalizing s with
  | nil =>
      cases h
      rfl
  | cons e es ih =>
      obtain ⟨s₁, hn, hrun⟩ := run_cons_eq_some h
      rw [List.flatMap_cons, Monitor.run_append, hn.broker_run]
      exact ih hrun

/-! ## The objects and their calls -/

/-- Every call of a service is the one of its `process` method with what it received, and every
service that was processed has answered, once, or is about to. -/
structure Joined (es : List ServerEvent) (s : BrokerServer) : Prop where
  inv : ∃ lost dropped, s.rpc.Inv lost ∧ s.rpc.Balance dropped
  called : ∀ x p, s.broker.calls (.service x) = some p → x ∈ s.rpc.processed ∧
    ∃ request, p.input = .request request ∧ s.requests x = some request
  clocked : ∀ n p, s.broker.calls (.clock n) = some p → ∃ input a response,
    p = .done input a response
  received : ∀ x request, s.requests x = some request → request.kind = x.kind ∧
    ∃ t, .request t x true request ∈ es
  coming : ∀ x, .proceeding x ∈ s.rpc.threads → s.rpc.objects.lookup x = some .process →
    s.requests x ≠ none
  taken : ∀ x ∈ s.rpc.processed, s.requests x ≠ none
  awaited : ∀ t x request, .request t x true request ∈ es → x ∈ s.rpc.processed ∨
    .proceeding x ∈ s.rpc.threads ∧ s.rpc.objects.lookup x = some .process
  served : ∀ x todo, .processing x todo ∈ s.rpc.threads → x ∈ s.rpc.processed
  responded : ∀ x response, (x, response) ∈ s.responses →
    ∃ input a, s.broker.calls (.service x) = some (.done input a response)
  once : (s.responses.map Prod.fst).Nodup
  unanswered : ∀ x todo, .processing x todo ∈ s.rpc.threads → .finish ∈ todo →
    x ∉ s.responses.map Prod.fst
  answered : ∀ x ∈ s.rpc.processed, x ∈ s.responses.map Prod.fst ∨
    ∃ todo, .processing x todo ∈ s.rpc.threads ∧ .finish ∈ todo
  returned : ∀ x todo, .processing x (.finish :: todo) ∈ s.rpc.threads →
    ∃ input a response, s.broker.calls (.service x) = some (.done input a response)

namespace Joined

theorem start (threadNumber : ℕ) (srv : Server) : Joined [] (BrokerServer.start threadNumber srv) := by
  have hth : ∀ th ∈ (BrokerServer.start threadNumber srv).rpc.threads,
      th = .handling BrokerServer.specificHandle := fun th h => List.eq_of_mem_replicate h
  refine ⟨⟨[], [], RpcServer.Inv.start threadNumber, RpcServer.Balance.start threadNumber⟩, ?_, ?_,
    ?_, ?_, ?_, ?_, ?_, ?_, List.nodup_nil, ?_, ?_, ?_⟩
  · rintro x p ⟨⟩
  · rintro n p ⟨⟩
  · rintro x request ⟨⟩
  · intro x hx
    cases hth _ hx
  · rintro x ⟨⟩
  · rintro t x request ⟨⟩
  · intro x todo hx
    cases hth _ hx
  · rintro x response ⟨⟩
  · intro x todo hx
    cases hth _ hx
  · rintro x ⟨⟩
  · intro x todo hx
    cases hth _ hx

theorem done_of_clock {n seconds : ℕ} {m m' : State Caller BrokerCall Server CallResult CallResult}
    {p : Phase BrokerCall Server CallResult CallResult}
    (hrun : Monitor.run brokerMethod m (clockEvents n seconds) = some m')
    (hp : m'.calls (.clock n) = some p) : ∃ input a response, p = .done input a response := by
  obtain ⟨m₁, -, hrun⟩ := Monitor.run_cons_eq_some hrun
  obtain ⟨m₂, -, hrun⟩ := Monitor.run_cons_eq_some hrun
  obtain ⟨m₃, -, hrun⟩ := Monitor.run_cons_eq_some hrun
  obtain ⟨m₄, -, hrun⟩ := Monitor.run_cons_eq_some hrun
  obtain ⟨m₅, hn, hrun⟩ := Monitor.run_cons_eq_some hrun
  cases hrun
  cases hn with
  | reply hc =>
      rw [State.put_self] at hp
      exact ⟨_, _, _, (Option.some.inj hp).symm⟩

theorem runBroker (J : Joined es s) {evs : List (Monitor.Event Caller BrokerCall)}
    {m : State Caller BrokerCall Server CallResult CallResult}
    (hrun : Monitor.run brokerMethod s.broker evs = some m)
    (hnew : ∀ x input, .call (.service x) input ∈ evs → x ∈ s.rpc.processed ∧
      ∃ request, input = .request request ∧ s.requests x = some request) {e : ServerEvent}
    (hclock : ∀ n p, m.calls (.clock n) = some p → ∃ input a response, p = .done input a response)
    (he : ∀ t x request, e ≠ .request t x true request) :
    Joined (es ++ [e]) { s with broker := m } := by
  refine ⟨J.inv, fun x p hp => ?_, hclock, fun x request hx => ?_, J.coming, J.taken,
    fun t x request hx => ?_, J.served, fun x response hx => ?_, J.once, J.unanswered, J.answered,
    fun x todo hx => ?_⟩
  · rcases Monitor.run_origin hrun hp with hcall | ⟨p₀, hp₀, hin⟩
    · exact hnew x _ hcall
    · rw [← hin]
      exact J.called x p₀ hp₀
  · obtain ⟨hkind, t, ht⟩ := J.received x request hx
    exact ⟨hkind, t, List.mem_append_left _ ht⟩
  · rcases List.mem_append.mp hx with hx | hx
    · exact J.awaited t x request hx
    · exact absurd (List.mem_singleton.mp hx).symm (he t x request)
  · obtain ⟨input, a, hdone⟩ := J.responded x response hx
    obtain ⟨q, hq, -, hsame⟩ := Monitor.run_keeps hrun hdone
    rw [hsame ⟨_, _, _, rfl⟩] at hq
    exact ⟨input, a, hq⟩
  · obtain ⟨input, a, response, hdone⟩ := J.returned x todo hx
    obtain ⟨q, hq, -, hsame⟩ := Monitor.run_keeps hrun hdone
    rw [hsame ⟨_, _, _, rfl⟩] at hq
    exact ⟨input, a, response, hq⟩

/-- A service that is called for the first time has not been in the broker before. -/
theorem calls_none (J : Joined es s) (hx : x ∉ s.rpc.processed) :
    s.broker.calls (.service x) = none := by
  cases hp : s.broker.calls (.service x) with
  | none => rfl
  | some p => exact absurd (J.called x p hp).1 hx

theorem not_processed (J : Joined es s) (hx : s.rpc.objects.lookup x = some .process) :
    x ∉ s.rpc.processed := by
  obtain ⟨lost, -, H, -⟩ := J.inv
  exact fun hmem => H.processed x hmem hx

theorem took (J : Joined es s) {rpc : RpcServer} {rest : List Worker} {ok : Bool}
    {requests : RpcService → Option ServiceRequest} {e : ServerEvent}
    (hmoved : RpcServer.Moved s.rpc rpc .waiting (Worker.took x ok) rest)
    (hprocessed : rpc.processed = s.rpc.processed) (hobjects : rpc.objects = s.rpc.objects)
    (hinv : ∃ lost dropped, rpc.Inv lost ∧ rpc.Balance dropped)
    (hsame : ∀ y, y ≠ x → requests y = s.requests y)
    (hx : requests x = s.requests x ∨ x ∉ s.rpc.processed ∧
      ∃ t request, e = .request t x true request ∧ request.kind = x.kind ∧ requests x = some request)
    (hcoming : ok = true → s.rpc.objects.lookup x = some .process → requests x ≠ none)
    (hawaited : ∀ t y request, e = .request t y true request → Worker.took x ok = .proceeding y ∧
      s.rpc.objects.lookup y = some .process) :
    Joined (es ++ [e]) { s with rpc := rpc, requests := requests } := by
  have hthread : ∀ y todo, Worker.processing y todo ∈ rpc.threads →
      Worker.processing y todo ∈ s.rpc.threads := by
    intro y todo hy
    rcases (hmoved.after _).mp hy with hy | hy
    · cases ok <;> cases hy
    · exact (hmoved.before _).mpr (Or.inr hy)
  have hkeep : ∀ y ∈ s.rpc.processed, requests y = s.requests y := by
    intro y hy
    by_cases hyx : y = x
    · subst hyx
      rcases hx with hx | ⟨hnot, -⟩
      · exact hx
      · exact absurd hy hnot
    · exact hsame y hyx
  refine ⟨hinv, fun y p hp => ?_, J.clocked, fun y request hy => ?_, fun y hy hl => ?_, fun y hy => ?_,
    fun t y request hy => ?_, fun y todo hy => ?_, J.responded, J.once, fun y todo hy => ?_,
    fun y hy => ?_, fun y todo hy => ?_⟩
  · obtain ⟨hmem, request, hin, hreq⟩ := J.called y p hp
    refine ⟨?_, request, hin, ?_⟩
    · rw [hprocessed]
      exact hmem
    · exact (hkeep y hmem).trans hreq
  · have hold : s.requests y = some request →
        request.kind = y.kind ∧ ∃ t, ServerEvent.request t y true request ∈ es ++ [e] := by
      intro hreq
      obtain ⟨hkind, t, ht⟩ := J.received y request hreq
      exact ⟨hkind, t, List.mem_append_left _ ht⟩
    by_cases hyx : y = x
    · subst hyx
      rcases hx with hx | ⟨-, t, request', rfl, hkind, hreq⟩
      · exact hold (hx ▸ hy)
      · obtain rfl := Option.some.inj (hreq.symm.trans hy)
        exact ⟨hkind, t, List.mem_append_right _ (List.mem_singleton_self _)⟩
    · exact hold ((hsame y hyx).symm.trans hy)
  · rw [hobjects] at hl
    rcases (hmoved.after _).mp hy with hy | hy
    · cases ok with
      | true =>
          obtain rfl := Worker.proceeding.inj hy
          exact hcoming rfl hl
      | false => cases hy
    · have hold := J.coming y ((hmoved.before _).mpr (Or.inr hy)) hl
      by_cases hyx : y = x
      · subst hyx
        rcases hx with hx | ⟨-, t, request, -, -, hreq⟩
        · dsimp only
          rw [hx]
          exact hold
        · dsimp only
          rw [hreq]
          simp
      · dsimp only
        rw [hsame y hyx]
        exact hold
  · rw [hprocessed] at hy
    dsimp only
    rw [hkeep y hy]
    exact J.taken y hy
  · rw [hprocessed, hobjects]
    rcases List.mem_append.mp hy with hy | hy
    · rcases J.awaited t y request hy with hdone | ⟨hth, hl⟩
      · exact Or.inl hdone
      · refine Or.inr ⟨(hmoved.after _).mpr (Or.inr ?_), hl⟩
        rcases (hmoved.before _).mp hth with hth | hth
        · cases hth
        · exact hth
    · obtain ⟨hth, hl⟩ := hawaited t y request (List.mem_singleton.mp hy).symm
      exact Or.inr ⟨(hmoved.after _).mpr (Or.inl hth.symm), hl⟩
  · rw [hprocessed]
    exact J.served y todo (hthread y todo hy)
  · exact J.unanswered y todo (hthread y todo hy)
  · rw [hprocessed] at hy
    rcases J.answered y hy with hdone | ⟨todo, htodo, hfin⟩
    · exact Or.inl hdone
    · refine Or.inr ⟨todo, (hmoved.after _).mpr (Or.inr ?_), hfin⟩
      rcases (hmoved.before _).mp htodo with htodo | htodo
      · cases htodo
      · exact htodo
  · exact J.returned y todo (hthread y _ hy)

section Advance

variable {rpc : RpcServer} {th th' : Worker} {rest : List Worker}
  {responses : List (RpcService × CallResult)}

/-- A thread goes on. What is left to show is about the service that it serves. -/
theorem moved (J : Joined es s) (hmoved : RpcServer.Moved s.rpc rpc th th' rest)
    (hadv : RpcServer.Advanced s.rpc rpc th th')
    (hinv : ∃ lost dropped, rpc.Inv lost ∧ rpc.Balance dropped)
    (he : ∀ t x request, e ≠ .request t x true request)
    (htaken : ∀ y ∈ rpc.processed, s.requests y ≠ none)
    (hserved : ∀ y todo, .processing y todo ∈ rpc.threads → y ∈ rpc.processed)
    (hresponded : ∀ y response, (y, response) ∈ responses →
      ∃ input b, s.broker.calls (.service y) = some (.done input b response))
    (honce : (responses.map Prod.fst).Nodup)
    (hunanswered : ∀ y todo, .processing y todo ∈ rpc.threads → .finish ∈ todo →
      y ∉ responses.map Prod.fst)
    (hanswered : ∀ y ∈ rpc.processed, y ∈ responses.map Prod.fst ∨
      ∃ todo, .processing y todo ∈ rpc.threads ∧ .finish ∈ todo)
    (hreturned : ∀ y todo, .processing y (.finish :: todo) ∈ rpc.threads →
      ∃ input b response, s.broker.calls (.service y) = some (.done input b response)) :
    Joined (es ++ [e]) { s with rpc := rpc, responses := responses } := by
  obtain ⟨lost, -, H, -⟩ := J.inv
  have hrest : ∀ th₀ ∈ rest, th₀ ∈ s.rpc.threads := fun th₀ h => (hmoved.before _).mpr (Or.inr h)
  have hprocessed : ∀ y ∈ s.rpc.processed, y ∈ rpc.processed := by
    intro y hy
    cases hadv with
    | serve x hx hp => exact hp ▸ List.mem_cons_of_mem _ hy
    | handle _ _ hp | rest _ _ _ hp | act _ _ _ hp => exact hp ▸ hy
  refine ⟨hinv, fun y p hy => ?_, J.clocked, fun x request hx => ?_, fun y hy hl => ?_, htaken,
    fun t y request hy => ?_, hserved, hresponded, honce, hunanswered, hanswered, hreturned⟩
  · obtain ⟨hmem, hreq⟩ := J.called y p hy
    exact ⟨hprocessed y hmem, hreq⟩
  · obtain ⟨hkind, t, ht⟩ := J.received x request hx
    exact ⟨hkind, t, List.mem_append_left _ ht⟩
  · rcases (hmoved.after _).mp hy with hy | hy
    · cases hadv <;> cases hy
    · have hlive := H.mem_of_object (hrest _ hy) rfl
      rcases hmoved.lookup y hlive with hsame | ⟨-, hnot⟩
      · exact J.coming y (hrest _ hy) (hsame ▸ hl)
      · exact absurd hl hnot
  · rcases List.mem_append.mp hy with hy | hy
    · rcases J.awaited t y request hy with hdone | ⟨hproc, hl⟩
      · exact Or.inl (hprocessed y hdone)
      · rcases (hmoved.before _).mp hproc with rfl | hproc'
        · cases hadv with
          | rest _ _ hnot => exact absurd hl (hnot y rfl)
          | serve _ _ hp => exact Or.inl (hp ▸ List.mem_cons_self)
        · refine Or.inr ⟨(hmoved.after _).mpr (Or.inr hproc'), ?_⟩
          rcases hmoved.lookup y (H.mem_of_object hproc rfl) with hsame | ⟨hobj, -⟩
          · rw [hsame, hl]
          · exact absurd rfl (hmoved.others y hobj _ hproc')
    · exact absurd (List.mem_singleton.mp hy).symm (he t y request)

/-- A thread goes on that serves nothing, or has nothing left to do. -/
theorem idle (J : Joined es s) (hmoved : RpcServer.Moved s.rpc rpc th th' rest)
    (hadv : RpcServer.Advanced s.rpc rpc th th')
    (hinv : ∃ lost dropped, rpc.Inv lost ∧ rpc.Balance dropped)
    (he : ∀ t x request, e ≠ .request t x true request) (hp : rpc.processed = s.rpc.processed)
    (hempty : ∀ y todo, th = .processing y todo → todo = [])
    (hth' : ∀ y todo, th' ≠ .processing y todo) : Joined (es ++ [e]) { s with rpc := rpc } := by
  have hold : ∀ y todo, Worker.processing y todo ∈ rpc.threads →
      Worker.processing y todo ∈ s.rpc.threads := by
    intro y todo hy
    rcases (hmoved.after _).mp hy with hy | hy
    · exact absurd hy.symm (hth' y todo)
    · exact (hmoved.before _).mpr (Or.inr hy)
  refine J.moved hmoved hadv hinv he (fun y hy => ?_) (fun y todo hy => ?_) J.responded J.once
    (fun y todo hy => J.unanswered y todo (hold y todo hy)) (fun y hy => ?_)
    (fun y todo hy => J.returned y todo (hold y _ hy))
  · rw [hp] at hy
    exact J.taken y hy
  · rw [hp]
    exact J.served y todo (hold y todo hy)
  · rw [hp] at hy
    rcases J.answered y hy with hdone | ⟨todo, htodo, hfin⟩
    · exact Or.inl hdone
    · refine Or.inr ⟨todo, (hmoved.after _).mpr (Or.inr ?_), hfin⟩
      rcases (hmoved.before _).mp htodo with htodo | htodo
      · rw [hempty y todo htodo.symm] at hfin
        cases hfin
      · exact htodo

/-- A thread begins to process a service. -/
theorem serve (J : Joined es s)
    (hmoved : RpcServer.Moved s.rpc rpc (.proceeding x) (.processing x x.process) rest)
    (hinv : ∃ lost dropped, rpc.Inv lost ∧ rpc.Balance dropped)
    (he : ∀ t x request, e ≠ .request t x true request)
    (hx : s.rpc.objects.lookup x = some .process) (hp : rpc.processed = x :: s.rpc.processed)
    (hf : rpc.finishing = s.rpc.finishing) : Joined (es ++ [e]) { s with rpc := rpc } := by
  have hnew := J.not_processed hx
  have hold : ∀ y todo, Worker.processing y todo ∈ rpc.threads →
      y = x ∧ todo = x.process ∨ Worker.processing y todo ∈ s.rpc.threads := by
    intro y todo hy
    rcases (hmoved.after _).mp hy with hy | hy
    · exact Or.inl (Worker.processing.inj hy)
    · exact Or.inr ((hmoved.before _).mpr (Or.inr hy))
  refine J.moved hmoved (.serve x hx hp hf) hinv he (fun y hy => ?_) (fun y todo hy => ?_)
    J.responded J.once (fun y todo hy hfin => ?_) (fun y hy => ?_) (fun y todo hy => ?_)
  · rw [hp] at hy
    rcases List.mem_cons.mp hy with rfl | hy
    · exact J.coming y ((hmoved.before _).mpr (Or.inl rfl)) hx
    · exact J.taken y hy
  · rw [hp]
    rcases hold y todo hy with ⟨rfl, -⟩ | hy
    · exact List.mem_cons_self
    · exact List.mem_cons_of_mem _ (J.served y todo hy)
  · rcases hold y todo hy with ⟨rfl, -⟩ | hy
    · intro hmem
      obtain ⟨⟨y', response⟩, hresponse, rfl⟩ := List.mem_map.mp hmem
      obtain ⟨input, a, hdone⟩ := J.responded y' response hresponse
      exact hnew (J.called y' _ hdone).1
    · exact J.unanswered y todo hy hfin
  · rw [hp] at hy
    rcases List.mem_cons.mp hy with rfl | hy
    · refine Or.inr ⟨y.process, (hmoved.after _).mpr (Or.inl rfl), ?_⟩
      rw [RpcService.process_eq]
      simp [processAs]
    · rcases J.answered y hy with hdone | ⟨todo, htodo, hfin⟩
      · exact Or.inl hdone
      · refine Or.inr ⟨todo, (hmoved.after _).mpr (Or.inr ?_), hfin⟩
        rcases (hmoved.before _).mp htodo with htodo | htodo
        · cases htodo
        · exact htodo
  · rcases hold y _ hy with ⟨-, htodo⟩ | hy
    · rw [RpcService.process_eq] at htodo
      cases htodo
    · exact J.returned y todo hy

variable {a : ServiceAction} {todo : List ServiceAction}

theorem served_of_act (J : Joined es s)
    (hmoved : RpcServer.Moved s.rpc rpc (.processing x (a :: todo)) (.processing x todo) rest)
    (hp : rpc.processed = s.rpc.processed) (y : RpcService) (todo' : List ServiceAction)
    (hy : .processing y todo' ∈ rpc.threads) : y ∈ rpc.processed := by
  rw [hp]
  rcases (hmoved.after _).mp hy with hy | hy
  · obtain ⟨rfl, -⟩ := Worker.processing.inj hy
    exact J.served y _ ((hmoved.before _).mpr (Or.inl rfl))
  · exact J.served y todo' ((hmoved.before _).mpr (Or.inr hy))

/-- A thread creates the next service, or goes on after its call. -/
theorem act (J : Joined es s)
    (hmoved : RpcServer.Moved s.rpc rpc (.processing x (a :: todo)) (.processing x todo) rest)
    (hinv : ∃ lost dropped, rpc.Inv lost ∧ rpc.Balance dropped)
    (he : ∀ t x request, e ≠ .request t x true request) (hp : rpc.processed = s.rpc.processed)
    (hf : rpc.finishing = if a = .finish then x :: s.rpc.finishing else s.rpc.finishing)
    (ha : a ≠ .finish) (hcall : ∀ kind, a = .call kind →
      ∃ input b response, s.broker.calls (.service x) = some (.done input b response)) :
    Joined (es ++ [e]) { s with rpc := rpc } := by
  obtain ⟨lost, -, H, -⟩ := J.inv
  have hth : Worker.processing x (a :: todo) ∈ s.rpc.threads := (hmoved.before _).mpr (Or.inl rfl)
  have hsuf := (H.sound _ hth).1
  have hold : ∀ y todo', Worker.processing y todo' ∈ rpc.threads →
      y = x ∧ todo' = todo ∨ Worker.processing y todo' ∈ s.rpc.threads := by
    intro y todo' hy
    rcases (hmoved.after _).mp hy with hy | hy
    · exact Or.inl (Worker.processing.inj hy)
    · exact Or.inr ((hmoved.before _).mpr (Or.inr hy))
  refine J.moved hmoved (.act x a todo hp hf) hinv he (fun y hy => J.taken y (hp ▸ hy))
    (J.served_of_act hmoved hp) J.responded J.once (fun y todo' hy hfin => ?_) (fun y hy => ?_)
    (fun y todo' hy => ?_)
  · rcases hold y todo' hy with ⟨rfl, rfl⟩ | hy
    · exact J.unanswered y _ hth (List.mem_cons_of_mem _ hfin)
    · exact J.unanswered y todo' hy hfin
  · rw [hp] at hy
    rcases J.answered y hy with hmem | ⟨todo', htodo, hfin⟩
    · exact Or.inl hmem
    · refine Or.inr ?_
      rcases (hmoved.before _).mp htodo with htodo | htodo
      · obtain ⟨rfl, rfl⟩ := Worker.processing.inj htodo
        refine ⟨todo, (hmoved.after _).mpr (Or.inl rfl), ?_⟩
        exact (List.mem_cons.mp hfin).resolve_left ha.symm
      · exact ⟨todo', (hmoved.after _).mpr (Or.inr htodo), hfin⟩
  · rcases hold y _ hy with ⟨rfl, rfl⟩ | hy
    · rcases RpcServer.suffix_process hsuf with ⟨-, htodo⟩ | ⟨hcall', -⟩ | ⟨-, htodo⟩
      · cases htodo
      · exact hcall _ hcall'
      · cases htodo
    · exact J.returned y todo' hy

/-- A thread sends the answer of its call. -/
theorem answer (J : Joined es s)
    (hmoved : RpcServer.Moved s.rpc rpc (.processing x (.finish :: todo)) (.processing x todo) rest)
    (hinv : ∃ lost dropped, rpc.Inv lost ∧ rpc.Balance dropped)
    (he : ∀ t x request, e ≠ .request t x true request) (hp : rpc.processed = s.rpc.processed)
    (hf : rpc.finishing = x :: s.rpc.finishing) {input : BrokerCall} {b response : CallResult}
    (hdone : s.broker.calls (.service x) = some (.done input b response)) :
    Joined (es ++ [e]) { s with rpc := rpc, responses := (x, response) :: s.responses } := by
  obtain ⟨lost, -, H, -⟩ := J.inv
  have hth : Worker.processing x (.finish :: todo) ∈ s.rpc.threads :=
    (hmoved.before _).mpr (Or.inl rfl)
  obtain rfl : todo = [] := by
    rcases RpcServer.suffix_process (H.sound _ hth).1 with ⟨h, -⟩ | ⟨h, -⟩ | ⟨-, h⟩
    · cases h
    · cases h
    · exact h
  -- No other thread has the object.
  have hold : ∀ y a todo', Worker.processing y (a :: todo') ∈ rpc.threads →
      y ≠ x ∧ Worker.processing y (a :: todo') ∈ s.rpc.threads := by
    intro y a todo' hy
    rcases (hmoved.after _).mp hy with hy | hy
    · cases hy
    · refine ⟨?_, (hmoved.before _).mpr (Or.inr hy)⟩
      rintro rfl
      exact hmoved.others y rfl _ hy rfl
  refine J.moved hmoved (.act x .finish [] hp hf) hinv he (fun y hy => J.taken y (hp ▸ hy))
    (J.served_of_act hmoved hp) (fun y r hy => ?_) ?_ (fun y todo' hy hfin => ?_) (fun y hy => ?_)
    (fun y todo' hy => J.returned y todo' (hold y _ _ hy).2)
  · rcases List.mem_cons.mp hy with hy | hy
    · obtain ⟨rfl, rfl⟩ := Prod.mk.inj hy
      exact ⟨input, b, hdone⟩
    · exact J.responded y r hy
  · rw [List.map_cons, List.nodup_cons]
    exact ⟨J.unanswered x _ hth List.mem_cons_self, J.once⟩
  · obtain ⟨c, todo', rfl⟩ := List.exists_cons_of_ne_nil (List.ne_nil_of_mem hfin)
    obtain ⟨hyx, hy⟩ := hold y c todo' hy
    rw [List.map_cons, List.mem_cons, not_or]
    exact ⟨hyx, J.unanswered y _ hy hfin⟩
  · rw [hp] at hy
    rw [List.map_cons, List.mem_cons]
    rcases J.answered y hy with hmem | ⟨todo', htodo, hfin⟩
    · exact Or.inl (Or.inr hmem)
    · rcases (hmoved.before _).mp htodo with htodo | htodo
      · exact Or.inl (Or.inl (Worker.processing.inj htodo).1)
      · exact Or.inr ⟨todo', (hmoved.after _).mpr (Or.inr htodo), hfin⟩

/-- A thread goes on by itself, past its call only when that has returned. -/
theorem advance (J : Joined es s) (hmoved : RpcServer.Moved s.rpc rpc th th' rest)
    (hadv : RpcServer.Advanced s.rpc rpc th th')
    (hinv : ∃ lost dropped, rpc.Inv lost ∧ rpc.Balance dropped)
    (he : ∀ t x request, e ≠ .request t x true request)
    (hact : ∀ x a todo, th = .processing x (a :: todo) → a ≠ .finish ∧ ∀ kind, a = .call kind →
      ∃ input b response, s.broker.calls (.service x) = some (.done input b response)) :
    Joined (es ++ [e]) { s with rpc := rpc } := by
  cases hadv with
  | handle kind todo hp hf =>
      exact J.idle hmoved (.handle kind todo hp hf) hinv he hp (by simp) (by simp)
  | rest hwait hempty hx hp hf =>
      exact J.idle hmoved (.rest hwait hempty hx hp hf) hinv he hp hempty (by simp)
  | serve x hx hp hf => exact J.serve hmoved hinv he hx hp hf
  | act x a todo hp hf =>
      obtain ⟨ha, hcall⟩ := hact x a todo rfl
      exact J.act hmoved hinv he hp hf ha hcall

end Advance

theorem next (J : Joined es s) (h : Next s e s') : Joined (es ++ [e]) s' := by
  obtain ⟨lost, dropped, H, B⟩ := J.inv
  cases h with
  | @advance t rpc hmay hstep =>
      obtain ⟨th, th', rest, ht, hmoved, hadv⟩ := RpcServer.moved_advance H hstep
      refine J.advance hmoved hadv ⟨_, _, H.step B hstep⟩ (by simp) ?_
      rintro x a todo rfl
      unfold mayAdvance at hmay
      rw [ht] at hmay
      cases a with
      | create kind => exact ⟨by simp, by simp⟩
      | call kind =>
          refine ⟨by simp, fun _ _ => ?_⟩
          dsimp only at hmay
          split at hmay
          · next input b response hdone => exact ⟨input, b, response, hdone⟩
          · cases hmay
      | finish => cases hmay
  | @request t x ok request rpc hkind hstep =>
      have hstep' := hstep
      simp only [RpcServer.step, Option.ite_none_right_eq_some, Option.some.injEq] at hstep
      obtain ⟨⟨ht, hx⟩, rfl⟩ := hstep
      obtain ⟨rest, hmoved, hprocessed, hobjects⟩ :=
        RpcServer.moved_took (x := x) ht ok (Or.inl rfl)
      have hnew := J.not_processed (H.requested x hx)
      refine J.took hmoved hprocessed hobjects ⟨_, _, H.step B hstep'⟩ (fun y hy => ?_) ?_ ?_ ?_
      · cases ok with
        | true => exact Function.update_of_ne hy ..
        | false => rfl
      · cases ok with
        | true => exact Or.inr ⟨hnew, t, request, rfl, hkind, Function.update_self ..⟩
        | false => exact Or.inl rfl
      · rintro rfl -
        rw [if_pos rfl, Function.update_self]
        simp
      · rintro t' y request' ⟨⟩
        exact ⟨rfl, H.requested x hx⟩
  | @finish t x ok rpc hstep =>
      have hstep' := hstep
      simp only [RpcServer.step, Option.ite_none_right_eq_some, Option.some.injEq] at hstep
      obtain ⟨⟨ht, hx⟩, rfl⟩ := hstep
      obtain ⟨rest, hmoved, hprocessed, hobjects⟩ :=
        RpcServer.moved_took (x := x) ht ok (Or.inr rfl)
      refine J.took hmoved hprocessed hobjects ⟨_, _, H.step B hstep'⟩ (fun y hy => rfl)
        (Or.inl rfl) ?_ (by simp)
      intro _ hl
      rw [H.finishing x hx] at hl
      cases hl
  | @enter t x request kind todo m ht hx hrun =>
      refine J.runBroker hrun (fun y input hy => ?_) (fun n p hp => ?_) (by simp)
      · obtain ⟨hcaller, rfl⟩ := Event.call.inj (List.mem_singleton.mp hy)
        obtain rfl := Caller.service.inj hcaller
        exact ⟨J.served y _ (List.mem_of_getElem? ht), request, rfl, hx⟩
      · rw [Monitor.run_other hrun (by simp [Event.caller])] at hp
        exact J.clocked n p hp
  | @method x part m hrun =>
      refine J.runBroker hrun (fun y input hy => ?_) (fun n p hp => ?_) (by simp)
      · cases part <;> cases List.mem_singleton.mp hy
      · have hne : ∀ e ∈ [part.event (.service x)], Caller.clock n ≠ e.caller := by
          intro e he
          rw [List.mem_singleton.mp he]
          cases part <;> simp [MethodStep.event, Event.caller]
        rw [Monitor.run_other hrun hne] at hp
        exact J.clocked n p hp
  | @respond t x todo input a response rpc ht hx hstep =>
      obtain ⟨th, th', rest, ht', hmoved, hadv⟩ := RpcServer.moved_advance H hstep
      obtain rfl := Option.some.inj (ht.symm.trans ht')
      cases hadv with
      | rest _ hempty => cases hempty x _ rfl
      | act _ _ _ hp hf => exact J.answer hmoved ⟨_, _, H.step B hstep⟩ (by simp) hp hf hx
  | @tick n seconds m hrun =>
      refine J.runBroker hrun (fun y input hy => ?_) (fun n' p hp => ?_) (by simp)
      · simp [clockEvents] at hy
      · by_cases hn : n' = n
        · subst hn
          exact done_of_clock hrun hp
        · rw [Monitor.run_other hrun (by simp [clockEvents, Event.caller, hn])] at hp
          exact J.clocked n' p hp

theorem run (J : Joined es s) {es' : List ServerEvent} (h : s.run es' = some s') :
    Joined (es ++ es') s' := by
  induction es' generalizing s es with
  | nil =>
      cases h
      rwa [List.append_nil]
  | cons e es' ih =>
      obtain ⟨s₁, hn, hrun⟩ := run_cons_eq_some h
      have hjoined := ih (J.next hn) hrun
      rwa [List.append_assoc] at hjoined

end Joined

end BrokerServer

end MyKafka
