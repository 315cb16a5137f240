import MyKafka.BrokerServerOrder
import MyKafka.MonitorProgress

/-!
# Every request is answered

As long as no new request comes in and the clock stands, every step brings the server nearer to the
state in which all threads wait for events, and until then some step is possible.
-/

namespace MyKafka

open Posix Monitor Relation

/-- A step that the server takes by itself, or with an answer that the queue has to report. -/
def ServerEvent.internal : ServerEvent → Bool
  | .advance _ | .finish _ _ _ | .enter _ _ _ | .method _ _ | .respond _ _ => true
  | .request _ _ _ _ | .tick _ _ => false

namespace RpcServer

variable {s s' : RpcServer} {t : ℕ} {th : Worker}

theorem exists_advance (ht : s.threads[t]? = some th) (hth : th ≠ .waiting) :
    ∃ s', s.step (.advance t) = some s' := by
  have hadvance : ∃ r, s.advance th = some r := by
    cases th with
    | waiting => exact absurd rfl hth
    | handling todo => cases todo <;> exact ⟨_, rfl⟩
    | proceeding x => exact ⟨_, rfl⟩
    | processing x todo => cases todo <;> exact ⟨_, rfl⟩
  obtain ⟨⟨s₁, th'⟩, hr⟩ := hadvance
  exact ⟨_, by simp only [step, ht, hr]; rfl⟩

theorem step_length {e : RpcEvent} (h : s.step e = some s') :
    s'.threads.length = s.threads.length := by
  cases e with
  | advance t =>
      obtain ⟨th, th', s₁, -, -, rfl⟩ := step_advance h
      exact List.length_set
  | request t x ok =>
      simp only [step, Option.ite_none_right_eq_some, Option.some.injEq] at h
      obtain ⟨-, rfl⟩ := h
      exact List.length_set
  | finish t x ok =>
      simp only [step, Option.ite_none_right_eq_some, Option.some.injEq] at h
      obtain ⟨-, rfl⟩ := h
      exact List.length_set

theorem run_length {es : List RpcEvent} (h : s.run es = some s') :
    s'.threads.length = s.threads.length := by
  induction es generalizing s with
  | nil =>
      cases h
      rfl
  | cons e es ih =>
      simp only [run] at h
      split at h
      · cases h
      · next s₁ hstep => exact (ih h).trans (step_length hstep)

end RpcServer

namespace BrokerServer

variable {s s' : BrokerServer} {e : ServerEvent} {es : List ServerEvent} {x : RpcService}

/-! ## What is left to do -/

/-- A phase of a call, or the number of steps a thread may take on its own. -/
abbrev Task := Phase BrokerCall Server CallResult CallResult ⊕ ℕ

/-- A call in the broker counts less than a step of a thread. -/
def Smaller : Task → Task → Prop := Sum.Lex (Phase.Goes brokerMethod) (· < ·)

theorem smaller_wf : WellFounded Smaller := Sum.lex_wf Phase.goes_wf Nat.lt_wfRel.wf

/-- A new service is served; one that was answered is deleted. -/
def rank (objects : AList (fun _ : RpcService => CallStatus))
    (calls : Caller → Option (Phase BrokerCall Server CallResult CallResult)) : Worker → ℕ
  | .handling todo => todo.length + 1
  | .waiting => 0
  | .proceeding x => if objects.lookup x = some .process then 8 else 1
  | .processing x (.call _ :: todo) =>
    2 * todo.length + if calls (.service x) = none then 3 else 2
  | .processing _ todo => 2 * todo.length + 1

def threadTasks (s : BrokerServer) : Worker → Multiset Task
  | .waiting => 0
  | th => {.inr (rank s.rpc.objects s.broker.calls th)}

def callTasks (s : BrokerServer) : Multiset Task :=
  (tasks s.broker.calls (s.rpc.processed.map Caller.service)).map .inl

/-- An answer that the queue has to report makes a thread delete the object. -/
def finishTasks (s : BrokerServer) : Multiset Task :=
  ↑(s.rpc.finishing.map fun _ => (.inr 2 : Task))

def work (s : BrokerServer) : Multiset Task :=
  s.callTasks + s.finishTasks + (s.rpc.threads.map s.threadTasks).sum

/-! ## Every step leaves less -/

theorem work_eq {th : Worker} {rest : List Worker} (hperm : s.rpc.threads.Perm (th :: rest)) :
    s.work = s.callTasks + (rest.map s.threadTasks).sum + (s.finishTasks + s.threadTasks th) := by
  rw [work, (hperm.map s.threadTasks).sum_eq, List.map_cons, List.sum_cons]
  abel

theorem smaller_work {th th' : Worker} {rest : List Worker}
    (hmoved : RpcServer.Moved s.rpc s'.rpc th th' rest)
    (hrest : ∀ th₀ ∈ rest, s'.threadTasks th₀ = s.threadTasks th₀)
    (hcalls : s'.callTasks = s.callTasks)
    (hless : CutExpand Smaller (s'.finishTasks + s'.threadTasks th')
      (s.finishTasks + s.threadTasks th)) : CutExpand Smaller s'.work s.work := by
  rw [work_eq hmoved.perm, work_eq hmoved.perm', hcalls, List.map_congr_left hrest]
  exact (cutExpand_add_left _).mpr hless

theorem threadTasks_eq {th : Worker}
    (hcalls : ∀ y, th.object? = some y →
      (s'.broker.calls (.service y) = none ↔ s.broker.calls (.service y) = none))
    (hlookup : ∀ y, th = .proceeding y →
      (s'.rpc.objects.lookup y = some .process ↔ s.rpc.objects.lookup y = some .process)) :
    s'.threadTasks th = s.threadTasks th := by
  cases th with
  | waiting => rfl
  | handling todo => rfl
  | proceeding y => simp only [threadTasks, rank, hlookup y rfl]
  | processing y todo =>
      cases todo with
      | nil => rfl
      | cons a todo =>
          cases a with
          | call kind => simp only [threadTasks, rank, hcalls y rfl]
          | create kind => rfl
          | finish => rfl

theorem cutExpand_inr {m n : ℕ} (h : m < n) : CutExpand Smaller {.inr m} {.inr n} :=
  cutExpand_singleton_singleton (Sum.Lex.inr h)

theorem cutExpand_none {n : ℕ} : CutExpand Smaller 0 {.inr n} := cutExpand_zero

theorem smaller_of_advanced (J : Joined es s) {rpc : RpcServer} {th th' : Worker}
    {rest : List Worker} {responses : List (RpcService × CallResult)}
    (hmoved : RpcServer.Moved s.rpc rpc th th' rest) (hadv : RpcServer.Advanced s.rpc rpc th th') :
    CutExpand Smaller { s with rpc := rpc, responses := responses }.work s.work := by
  obtain ⟨lost, -, H, -⟩ := J.inv
  set s' : BrokerServer := { s with rpc := rpc, responses := responses }
  have hth : th ∈ s.rpc.threads := (hmoved.before _).mpr (Or.inl rfl)
  have hrest : ∀ th₀ ∈ rest, s'.threadTasks th₀ = s.threadTasks th₀ := by
    intro th₀ h₀
    refine threadTasks_eq (fun _ _ => Iff.rfl) ?_
    rintro y rfl
    rcases hmoved.lookup y (H.mem_of_object ((hmoved.before _).mpr (Or.inr h₀)) rfl) with
      hsame | ⟨hobj, -⟩
    · rw [show s'.rpc.objects.lookup y = _ from hsame]
    · exact absurd rfl (hmoved.others y hobj _ h₀)
  have hsame : rpc.processed = s.rpc.processed → s'.callTasks = s.callTasks := by
    intro hp
    rw [callTasks, callTasks, show s'.rpc.processed = _ from hp]
  have hfinish : rpc.finishing = s.rpc.finishing → s'.finishTasks = s.finishTasks := by
    intro hf
    rw [finishTasks, finishTasks, show s'.rpc.finishing = _ from hf]
  cases hadv with
  | handle kind todo hp hf =>
      refine smaller_work hmoved hrest (hsame hp) ?_
      rw [hfinish hf]
      exact (cutExpand_add_left _).mpr (cutExpand_inr (Nat.lt_succ_self (todo.length + 1)))
  | rest hwait hempty hx hp hf =>
      refine smaller_work hmoved hrest (hsame hp) ?_
      rw [hfinish hf]
      refine (cutExpand_add_left _).mpr ?_
      cases th with
      | waiting => exact absurd rfl hwait
      | handling | proceeding | processing => exact cutExpand_none
  | serve x hx hp hf =>
      have hnone := J.calls_none (J.not_processed hx)
      have hcalls : s'.callTasks = s.callTasks := by
        rw [callTasks, callTasks, show s'.rpc.processed = _ from hp, tasks, List.map_cons,
          List.filterMap_cons_none hnone]
        rfl
      refine smaller_work hmoved hrest hcalls ?_
      rw [hfinish hf]
      refine (cutExpand_add_left _).mpr (cutExpand_inr ?_)
      simp [rank, hx, RpcService.process_eq, processAs]
  | act x a todo hp hf =>
      refine smaller_work hmoved hrest (hsame hp) ?_
      have hsuf := (H.sound _ hth).1
      rcases RpcServer.suffix_process hsuf with ⟨rfl, rfl⟩ | ⟨rfl, rfl⟩ | ⟨rfl, rfl⟩
      · rw [hfinish (by simpa using hf)]
        refine (cutExpand_add_left _).mpr (cutExpand_inr ?_)
        simp only [rank]
        split_ifs <;> simp
      · rw [hfinish (by simpa using hf)]
        refine (cutExpand_add_left _).mpr (cutExpand_inr ?_)
        simp only [rank]
        split_ifs <;> simp
      · have htoken : s'.finishTasks = s.finishTasks + {.inr 2} := by
          rw [finishTasks, show s'.rpc.finishing = _ from hf, if_pos rfl, List.map_cons,
            ← Multiset.cons_coe, ← Multiset.singleton_add, add_comm]
          rfl
        rw [htoken, add_assoc]
        refine (cutExpand_add_left _).mpr (cutExpand_double ?_ ?_)
        · exact Sum.Lex.inr (show 2 < 3 by decide)
        · exact Sum.Lex.inr (show 1 < 3 by decide)

theorem smaller_of_finish (J : Joined es s) {t : ℕ} {ok : Bool} {rpc : RpcServer}
    (h : s.rpc.step (.finish t x ok) = some rpc) :
    CutExpand Smaller { s with rpc := rpc }.work s.work := by
  obtain ⟨lost, -, H, -⟩ := J.inv
  simp only [RpcServer.step, Option.ite_none_right_eq_some, Option.some.injEq] at h
  obtain ⟨⟨ht, hx⟩, rfl⟩ := h
  obtain ⟨rest, hmoved, hprocessed, hobjects⟩ :=
    RpcServer.moved_took (x := x) ht ok (Or.inr rfl)
  refine smaller_work hmoved (fun th₀ h₀ => threadTasks_eq (fun _ _ => Iff.rfl) ?_) ?_ ?_
  · rintro y rfl
    rw [hobjects]
  · rw [callTasks, callTasks, hprocessed]
  · have htoken : s.finishTasks =
        ↑((s.rpc.finishing.erase x).map fun _ => (.inr 2 : Task)) + {.inr 2} := by
      have hperm := (List.perm_cons_erase hx).map fun _ => (.inr 2 : Task)
      rw [finishTasks, Multiset.coe_eq_coe.mpr hperm, List.map_cons, ← Multiset.cons_coe,
        ← Multiset.singleton_add, add_comm]
    rw [htoken, add_assoc]
    refine (cutExpand_add_left _).mpr ?_
    cases ok with
    | false => exact cutExpand_none
    | true =>
        refine cutExpand_inr ?_
        have hrank : rank s.rpc.objects s.broker.calls (.proceeding x) = 1 := by
          simp [rank, H.finishing x hx]
        exact hrank.trans_lt (by decide)

theorem cutExpand_call {p : Phase BrokerCall Server CallResult CallResult} {m n : ℕ} (h : m < n) :
    CutExpand Smaller {.inl p, .inr m} {.inr n} :=
  cutExpand_double (Sum.Lex.sep _ _) (Sum.Lex.inr h)

theorem smaller_of_enter (J : Joined es s) {t : ℕ} {request : ServiceRequest} {kind : ServiceKind}
    {todo : List ServiceAction} {m : State Caller BrokerCall Server CallResult CallResult}
    (ht : s.rpc.threads[t]? = some (.processing x (.call kind :: todo)))
    (hrun : Monitor.run brokerMethod s.broker [.call (.service x) (.request request)] = some m) :
    CutExpand Smaller { s with broker := m }.work s.work := by
  obtain ⟨lost, -, H, -⟩ := J.inv
  obtain ⟨m', hn, hrun⟩ := Monitor.run_cons_eq_some hrun
  cases hrun
  cases hn with
  | call _ _ hc =>
      set s' : BrokerServer :=
        { s with broker := s.broker.put (.service x) (.waiting (.request request)) }
      obtain ⟨rest, hperm, -⟩ := RpcServer.exists_rest ht
      have hothers := ((H.perm hperm).only rfl rfl).2.2.2
      have hrest : ∀ th₀ ∈ rest, s'.threadTasks th₀ = s.threadTasks th₀ := by
        intro th₀ h₀
        refine threadTasks_eq (fun y hy => ?_) (fun _ _ => Iff.rfl)
        have hne : Caller.service y ≠ .service x := by
          rintro ⟨⟩
          exact hothers th₀ h₀ hy
        rw [show s'.broker.calls (.service y) = _ from State.put_of_ne hne]
      have hmem : Caller.service x ∈ s.rpc.processed.map Caller.service :=
        List.mem_map_of_mem (J.served x _ (List.mem_of_getElem? ht))
      have hnodup : (s.rpc.processed.map Caller.service).Nodup :=
        H.once.map fun _ _ => Caller.service.inj
      have hcalls : s'.callTasks = {.inl (.waiting (.request request))} + s.callTasks := by
        have hinsert := tasks_insert (q := .waiting (.request request)) hnodup hmem hc
        rw [callTasks, show tasks s'.broker.calls _ = _ from hinsert, Multiset.map_cons,
          Multiset.singleton_add]
        rfl
      have hbefore : s.threadTasks (.processing x (.call kind :: todo)) =
          {.inr (2 * todo.length + 3)} := by
        simp only [threadTasks, rank, if_pos hc]
      have hafter : s'.threadTasks (.processing x (.call kind :: todo)) =
          {.inr (2 * todo.length + 2)} := by
        have hsome : s'.broker.calls (.service x) ≠ none := by
          rw [show s'.broker.calls (.service x) = _ from State.put_self]
          simp
        simp only [threadTasks, rank, if_neg hsome]
      rw [work_eq hperm, work_eq (s := s') hperm, List.map_congr_left hrest, hcalls, hbefore, hafter,
        show s'.finishTasks = s.finishTasks from rfl]
      have hsplit : ({.inl (.waiting (.request request))} + s.callTasks + (rest.map s.threadTasks).sum +
          (s.finishTasks + {.inr (2 * todo.length + 2)}) : Multiset Task) =
          s.callTasks + (rest.map s.threadTasks).sum + s.finishTasks +
            {.inl (.waiting (.request request)), .inr (2 * todo.length + 2)} := by
        rw [show ({.inl (.waiting (.request request)), .inr (2 * todo.length + 2)} : Multiset Task) =
          {.inl (.waiting (.request request))} + {.inr (2 * todo.length + 2)} from rfl]
        abel
      rw [hsplit, ← add_assoc]
      exact (cutExpand_add_left _).mpr (cutExpand_call (Nat.lt_succ_self _))

theorem smaller_of_method (J : Joined es s) {part : MethodStep}
    {m : State Caller BrokerCall Server CallResult CallResult}
    (hrun : Monitor.run brokerMethod s.broker [part.event (.service x)] = some m) :
    CutExpand Smaller { s with broker := m }.work s.work := by
  obtain ⟨lost, -, H, -⟩ := J.inv
  obtain ⟨m', hn, hrun⟩ := Monitor.run_cons_eq_some hrun
  cases hrun
  have hevent : (part.event (.service x)).isCall = false ∧
      (part.event (.service x)).caller = .service x := by
    cases part <;> exact ⟨rfl, rfl⟩
  obtain ⟨p, q, hp, hgoes, hcalls⟩ := hn.goes hevent.1
  rw [hevent.2] at hp hcalls
  set s' : BrokerServer := { s with broker := m }
  have hmem : Caller.service x ∈ s.rpc.processed.map Caller.service :=
    List.mem_map_of_mem (J.called x p hp).1
  have hnodup : (s.rpc.processed.map Caller.service).Nodup :=
    H.once.map fun _ _ => Caller.service.inj
  obtain ⟨rest, hbefore, hafter⟩ := tasks_update (q := q) hnodup hmem hp
  have hthreads : ∀ th, s'.threadTasks th = s.threadTasks th := by
    intro th
    refine threadTasks_eq (fun y _ => ?_) (fun _ _ => Iff.rfl)
    rw [show s'.broker.calls = _ from hcalls]
    by_cases hy : y = x
    · subst hy
      simp [hp]
    · rw [Function.update_of_ne (by simpa using hy)]
  have hcallTasks : s.callTasks = {.inl p} + rest.map .inl := by
    rw [callTasks, hbefore, Multiset.map_cons, Multiset.singleton_add]
  have hcallTasks' : s'.callTasks = {.inl q} + rest.map .inl := by
    rw [callTasks, show s'.broker.calls = _ from hcalls, show tasks _ _ = _ from hafter,
      Multiset.map_cons, Multiset.singleton_add]
  have hsplit : ∀ p₀, {.inl p₀} + rest.map .inl + s.finishTasks +
      (s.rpc.threads.map s.threadTasks).sum = rest.map .inl + s.finishTasks +
        (s.rpc.threads.map s.threadTasks).sum + {(.inl p₀ : Task)} := by
    intro p₀
    abel
  rw [work, work, hcallTasks, hcallTasks', show s'.finishTasks = s.finishTasks from rfl,
    List.map_congr_left fun th _ => hthreads th, hsplit p, hsplit q]
  exact (cutExpand_add_left _).mpr (cutExpand_singleton_singleton (Sum.Lex.inl hgoes))

/-- A step that is not a new request or the clock leaves less to do. -/
theorem Joined.smaller (J : Joined es s) (hn : Next s e s') (he : e.internal = true) :
    CutExpand Smaller s'.work s.work := by
  obtain ⟨lost, -, H, -⟩ := J.inv
  cases hn with
  | advance _ hstep =>
      obtain ⟨th, th', rest, -, hmoved, hadv⟩ := RpcServer.moved_advance H hstep
      exact smaller_of_advanced J hmoved hadv
  | request => cases he
  | finish hstep => exact smaller_of_finish J hstep
  | enter ht _ hrun => exact smaller_of_enter J ht hrun
  | method hrun => exact smaller_of_method J hrun
  | respond _ _ hstep =>
      obtain ⟨th, th', rest, -, hmoved, hadv⟩ := RpcServer.moved_advance H hstep
      exact smaller_of_advanced J hmoved hadv
  | tick => cases he

/-! ## Until nothing is left -/

/-- The server waits for a request. -/
def Stuck (s : BrokerServer) : Prop := ∀ e : ServerEvent, e.internal = true → s.step e = none

/-- All threads wait, every method has returned and no lock is held, and what came in was answered
once; unless a registration failed, every thread has a service of each class armed. -/
structure Resting (threadNumber : ℕ) (es : List ServerEvent) (s : BrokerServer) : Prop where
  waiting : ∀ th ∈ s.rpc.threads, th = .waiting
  reported : s.rpc.finishing = []
  returned : ∀ c p, s.broker.calls c = some p → ∃ input a response, p = .done input a response
  writer : s.broker.writer = none
  readers : s.broker.readers = []
  answered : ∀ t x request, .request t x true request ∈ es → (s.responses.map Prod.fst).count x = 1
  armed : (∀ t x request, .request t x false request ∉ es) →
    ∀ kind, s.rpc.armed kind = threadNumber

theorem MethodStep.exists_event {e : Monitor.Event Caller BrokerCall} (he : e.isCall = false) :
    ∃ part : MethodStep, e = part.event e.caller := by
  cases e with
  | call => cases he
  | acquire c => exact ⟨.acquire, rfl⟩
  | step c => exact ⟨.step, rfl⟩
  | release c => exact ⟨.release, rfl⟩
  | reply c => exact ⟨.reply, rfl⟩

theorem Stuck.not_mayAdvance (hs : s.Stuck) {t : ℕ} {th : Worker} (ht : s.rpc.threads[t]? = some th)
    (hth : th ≠ .waiting) : s.mayAdvance t = false := by
  obtain ⟨rpc, hrpc⟩ := RpcServer.exists_advance ht hth
  have hstep := hs (.advance t) rfl
  simp only [step, stepRpc, hrpc, Option.map_some] at hstep
  by_contra hmay
  rw [if_pos (by simpa using hmay)] at hstep
  cases hstep

theorem Stuck.returned (hs : s.Stuck) (J : Joined es s) (hlocked : Locked brokerMethod s.broker)
    {c : Caller} {p : Phase BrokerCall Server CallResult CallResult}
    (hp : s.broker.calls c = some p) : ∃ input a response, p = .done input a response := by
  refine hlocked.stuck (fun e he => ?_) hp
  obtain ⟨part, he⟩ := MethodStep.exists_event he
  cases hc : e.caller with
  | service x =>
      have hstep := hs (.method x part) rfl
      simp only [step, runBroker, Monitor.run, Option.map_eq_none_iff] at hstep
      rw [he, hc]
      split at hstep
      · assumption
      · cases hstep
  | clock n =>
      rw [he, hc]
      cases hn : s.broker.calls (.clock n) with
      | none => cases part <;> simp [Monitor.step, MethodStep.event, hn]
      | some q =>
          obtain ⟨input, a, response, rfl⟩ := J.clocked n q hn
          cases part <;> simp [Monitor.step, MethodStep.event, hn]

theorem Stuck.waiting (hs : s.Stuck) (J : Joined es s) (hlocked : Locked brokerMethod s.broker)
    {th : Worker} (hth : th ∈ s.rpc.threads) : th = .waiting := by
  obtain ⟨t, ht⟩ := List.mem_iff_getElem?.mp hth
  by_contra hne
  have hmay := hs.not_mayAdvance ht hne
  unfold mayAdvance at hmay
  rw [ht] at hmay
  cases th with
  | waiting => exact hne rfl
  | handling | proceeding => cases hmay
  | processing x todo =>
      cases todo with
      | nil => cases hmay
      | cons a todo =>
          cases a with
          | create kind => cases hmay
          | call kind =>
              cases hp : s.broker.calls (.service x) with
              | none =>
                  obtain ⟨request, hrequest⟩ :=
                    Option.ne_none_iff_exists'.mp (J.taken x (J.served x _ hth))
                  have hstep := hs (.enter t x request) rfl
                  simp [step, ht, hrequest, runBroker, Monitor.run, Monitor.step, hp] at hstep
              | some p =>
                  obtain ⟨input, b, response, rfl⟩ := hs.returned J hlocked hp
                  simp [hp] at hmay
          | finish =>
              obtain ⟨input, b, response, hp⟩ := J.returned x todo hth
              obtain ⟨rpc, hrpc⟩ := RpcServer.exists_advance ht (by simp)
              have hstep := hs (.respond t x) rfl
              simp [step, ht, hp, stepRpc, hrpc] at hstep

theorem Stuck.resting {threadNumber : ℕ} {srv : Server} (hpos : 0 < threadNumber)
    (h : (start threadNumber srv).run es = some s) (hs : s.Stuck) : Resting threadNumber es s := by
  obtain ⟨J, order, hinv⟩ := run_order h
  obtain ⟨H, B⟩ := (RpcServer.Inv.start threadNumber).run (RpcServer.Balance.start threadNumber)
    (rpc_run h)
  have hlength : s.rpc.threads.length = threadNumber :=
    (RpcServer.run_length (rpc_run h)).trans List.length_replicate
  have hwaiting : ∀ th ∈ s.rpc.threads, th = .waiting := fun th => hs.waiting J hinv.locked
  have hreturned : ∀ c p, s.broker.calls c = some p → ∃ input a response,
      p = .done input a response := fun c p => hs.returned J hinv.locked
  have hinside : ∀ c x body, s.broker.calls c ≠ some (.inside x body) := by
    intro c x body hc
    obtain ⟨_, _, _, hdone⟩ := hreturned c _ hc
    cases hdone
  obtain ⟨hwriter, hreaders⟩ := hinv.locked.free hinside
  refine ⟨hwaiting, ?_, hreturned, hwriter, hreaders,
    fun t x request hx => ?_, fun hok kind => ?_⟩
  · cases hf : s.rpc.finishing with
    | nil => rfl
    | cons x xs =>
        have hlt : 0 < s.rpc.threads.length := hlength ▸ hpos
        have ht : s.rpc.threads[0]? = some .waiting := by
          rw [List.getElem?_eq_getElem hlt, hwaiting _ (List.getElem_mem hlt)]
        have hstep := hs (.finish 0 x true) rfl
        simp [step, stepRpc, RpcServer.step, ht, hf] at hstep
  · have hdone : x ∈ s.rpc.processed := by
      rcases J.awaited t x request hx with hdone | ⟨hproc, -⟩
      · exact hdone
      · cases hwaiting _ hproc
    rcases J.answered x hdone with hmem | ⟨todo, htodo, -⟩
    · exact List.count_eq_one_of_mem J.once hmem
    · cases hwaiting _ htodo
  · have hdropped : (es.flatMap ServerEvent.rpc).flatMap RpcEvent.dropped = [] := by
      refine List.flatMap_eq_nil_iff.mpr fun ev hev => ?_
      obtain ⟨e, he, hmem⟩ := List.mem_flatMap.mp hev
      cases e with
      | advance | finish | respond =>
          cases List.mem_singleton.mp hmem
          rfl
      | request t x ok request =>
          cases List.mem_singleton.mp hmem
          cases ok with
          | true => rfl
          | false => exact absurd he (hok t x request)
      | enter | method | tick => cases hmem
    have hb := B kind
    have hunserved : s.rpc.unprocessed kind = 0 := by
      refine List.countP_eq_zero.mpr fun th hth => ?_
      rw [hwaiting th hth]
      simp [RpcServer.unserved]
    have hcalled : s.rpc.called kind = s.rpc.threads.length := by
      refine List.countP_eq_length.mpr fun th hth => ?_
      rw [hwaiting th hth]
      rfl
    rw [List.nil_append, hdropped, List.countP_nil, hunserved, hcalled, hlength] at hb
    exact hb

theorem internal_wf : WellFounded (CutExpand Smaller) := smaller_wf.cutExpand

/-- By themselves the threads come to rest. -/
theorem Joined.exists_stuck (J : Joined es s) :
    ∃ es' s', s.run es' = some s' ∧ (∀ e ∈ es', e.internal = true) ∧ s'.Stuck := by
  generalize hwork : s.work = todo
  induction todo using internal_wf.induction generalizing s es with
  | _ todo ih =>
      by_cases hs : s.Stuck
      · exact ⟨[], s, rfl, by simp, hs⟩
      · simp only [Stuck, not_forall] at hs
        obtain ⟨e, he, hstep⟩ := hs
        obtain ⟨s₁, hs₁⟩ := Option.ne_none_iff_exists'.mp hstep
        have hn := next_of_step hs₁
        obtain ⟨es', s', hrun, hes', hs'⟩ := ih _ (hwork ▸ J.smaller hn he) (J.next hn) rfl
        exact ⟨e :: es', s', by simp only [BrokerServer.run, hs₁, hrun],
          List.forall_mem_cons.mpr ⟨he, hes'⟩, hs'⟩

/-- From any state the server comes to rest if no request comes in, whichever steps are taken, and
where it rests every request was answered, once. -/
theorem every_request_answered {threadNumber : ℕ} (hpos : 0 < threadNumber) (srv : Server)
    (h : (start threadNumber srv).run es = some s) :
    (∃ es' s', s.run es' = some s' ∧ (∀ e ∈ es', e.internal = true) ∧ s'.Stuck) ∧
      (∀ (states : ℕ → BrokerServer) (events : ℕ → ServerEvent), states 0 = s →
        ¬ ∀ n, (events n).internal = true ∧ (states n).step (events n) = some (states (n + 1))) ∧
      (s.Stuck → Resting threadNumber es s) := by
  have J := (Joined.start threadNumber srv).run h
  refine ⟨J.exists_stuck, fun states events hzero hsteps => ?_, fun hs => hs.resting hpos h⟩
  have hjoined : ∀ n, ∃ es, Joined es (states n) := by
    intro n
    induction n with
    | zero => exact ⟨es, hzero ▸ J⟩
    | succ n ih =>
        obtain ⟨es, Jn⟩ := ih
        exact ⟨_, Jn.next (next_of_step (hsteps n).2)⟩
  refine (wellFounded_iff_isEmpty_descending_chain.mp internal_wf).false
    ⟨fun n => (states n).work, fun n => ?_⟩
  obtain ⟨es, Jn⟩ := hjoined n
  exact Jn.smaller (next_of_step (hsteps n).2) (hsteps n).1

/-- A send that is stopped after its write, with the lock held and `getOffsets` half done. -/
theorem every_request_answered_halfway :
    ∃ s, (start 2 (Server.boot ⟨[], []⟩ ⟨id, fun _ => .refl _⟩ (World.blank 0))).run
        halfSent = some s ∧ s.broker.writer = some (.service ⟨.sendMessage, 0⟩) ∧
      (∃ es' s', s.run es' = some s' ∧ (∀ e ∈ es', e.internal = true) ∧ s'.Stuck) ∧
      (s.Stuck → Resting 2 halfSent s) := by
  have hrun : (((start 2 (Server.boot ⟨[], []⟩ ⟨id, fun _ => .refl _⟩ (World.blank 0))).run
      halfSent).map (fun s => s.broker.writer)) = some (some (.service ⟨.sendMessage, 0⟩)) := by
    decide +kernel
  obtain ⟨s, hs, hwriter⟩ := Option.map_eq_some_iff.mp hrun
  obtain ⟨hrest, -, hresting⟩ := every_request_answered Nat.two_pos _ hs
  exact ⟨s, hs, hwriter, hrest, hresting⟩

end BrokerServer

end MyKafka
