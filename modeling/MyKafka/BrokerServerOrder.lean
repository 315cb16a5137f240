import MyKafka.BrokerServerRun

/-!
# The order behind the answers

Whatever the threads do in which order, the calls that the broker has let in can be put in one order
such that every answer is that of a broker that serves them one after the other.
-/

namespace MyKafka

open Posix Monitor

/-- A broker that served these calls one after the other. -/
def serverAfter (srv : Server) (calls : List (Caller × BrokerCall)) : Server :=
  (calls.map Prod.snd).foldl Server.serve srv

theorem after_brokerMethod (srv : Server) (calls : List (Caller × BrokerCall)) :
    Monitor.after brokerMethod srv calls = serverAfter srv calls := by
  unfold Monitor.after serverAfter
  induction calls generalizing srv with
  | nil => rfl
  | cons call calls ih =>
      rw [List.map_cons, Runs.final, List.foldl_cons, atomic_serve]
      exact ih _

/-- The calls in an order that explains the answers. -/
structure Explained (srv : Server) (es : List ServerEvent) (s : BrokerServer)
    (order : List (Caller × BrokerCall)) : Prop where
  once : (order.map Prod.fst).Nodup
  received : ∀ c call, (c, call) ∈ order →
    (∃ t x request, c = .service x ∧ call = .request request ∧ .request t x true request ∈ es) ∨
      ∃ n seconds, c = .clock n ∧ call = .tick seconds ∧ .tick n seconds ∈ es
  /-- A request that came after an answer was out is later in the order. -/
  realTime : ∀ t x t' y ok request, [.respond t x, .request t' y ok request].Sublist es →
    .service y ∈ order.map Prod.fst → [.service x, .service y].Sublist (order.map Prod.fst)
  /-- The answer of the broker in its place of the order, and of one not after the answer where it
  looks again. -/
  answered : ∀ x result, (x, result) ∈ s.responses → ∃ request before later,
    before ++ [(.service x, .request request)] <+: later ∧ later <+: order ∧
    result = .response ((serverAfter srv before).respond (serverAfter srv later) request) ∧
    ∀ t t' y ok request', [.respond t x, .request t' y ok request'].Sublist es →
      .service y ∉ later.map Prod.fst
  idle : s.broker.writer = none → s.broker.object = serverAfter srv order

namespace BrokerServer

variable {threadNumber : ℕ} {srv : Server} {s s' : BrokerServer} {es : List ServerEvent}
  {x y : RpcService} {order : List (Caller × BrokerCall)}

theorem run_order (h : (start threadNumber srv).run es = some s) :
    Joined es s ∧ ∃ order, Monitor.Inv brokerMethod srv (es.flatMap ServerEvent.broker) s.broker
      order := by
  have hjoined := (Joined.start threadNumber srv).run h
  obtain ⟨order, horder⟩ := (Monitor.Inv.start srv).run brokerMethod_lawful
    (broker_run h)
  exact ⟨hjoined, order, horder⟩

theorem reply_of_respond {t : ℕ} (h : (start threadNumber srv).run es = some s)
    (hmem : .respond t x ∈ es) : .reply (.service x) ∈ es.flatMap ServerEvent.broker := by
  obtain ⟨es₁, es₂, rfl⟩ := List.append_of_mem hmem
  obtain ⟨s₁, hrun₁, hrun₂⟩ := run_append_eq_some h
  obtain ⟨s₂, hn, hrun₂⟩ := run_cons_eq_some hrun₂
  obtain ⟨-, order, H⟩ := run_order h
  cases hn with
  | @respond _ _ _ input a response rpc _ hdone _ =>
      obtain ⟨q, hq, -, hsame⟩ := Monitor.run_keeps (broker_run hrun₂) hdone
      rw [hsame ⟨_, _, _, rfl⟩] at hq
      exact (H.replied _).mpr ⟨_, _, _, hq⟩

/-- What comes after an answer calls the broker after it. -/
theorem reply_before_call {t t' : ℕ} {ok : Bool} {request : ServiceRequest} {call : BrokerCall}
    (h : (start threadNumber srv).run es = some s)
    (hsub : [.respond t x, .request t' y ok request].Sublist es)
    (hcall : .call (.service y) call ∈ es.flatMap ServerEvent.broker) :
    [.reply (.service x), .call (.service y) call].Sublist (es.flatMap ServerEvent.broker) := by
  obtain ⟨r₁, r₂, rfl, hx, hy⟩ := List.cons_sublist_iff.mp hsub
  obtain ⟨m₁, m₂, rfl⟩ := List.append_of_mem (List.singleton_sublist.mp hy)
  rw [← List.append_assoc] at h hcall ⊢
  obtain ⟨s₁, hrun₁, hrun₂⟩ := run_append_eq_some h
  obtain ⟨s₂, hn, -⟩ := run_cons_eq_some hrun₂
  obtain ⟨J, order, H⟩ := run_order hrun₁
  have hnone : s₁.broker.calls (.service y) = none := by
    obtain ⟨lost, -, Hrpc, -⟩ := J.inv
    cases hn with
    | request _ hstep =>
        simp only [RpcServer.step, Option.ite_none_right_eq_some] at hstep
        exact J.calls_none (J.not_processed (Hrpc.requested y hstep.1.2))
  have hreply := reply_of_respond hrun₁ (List.mem_append_left m₁ hx)
  rw [List.flatMap_append] at hcall ⊢
  rcases List.mem_append.mp hcall with hbefore | hafter
  · obtain ⟨p, hp, -⟩ := (H.called _ _).mp hbefore
    rw [hnone] at hp
    cases hp
  · exact (List.singleton_sublist.mpr hreply).append (List.singleton_sublist.mpr hafter)

/-- With any number of threads and any order of their steps, the answers that go out are those of
one broker that serves the requests one after the other, in an order that respects real time; the
second half of `getOffsets` looks at a later point of that order, and not after the answer. -/
theorem answers_explained (threadNumber : ℕ) (srv : Server)
    (h : (start threadNumber srv).run es = some s) : ∃ order, Explained srv es s order := by
  obtain ⟨J, order, H⟩ := run_order h
  have hcall : ∀ c call, (c, call) ∈ order → .call c call ∈ es.flatMap ServerEvent.broker := by
    intro c call hmem
    obtain ⟨p, hp, hin, -⟩ := (H.placed c call).mp hmem
    exact (H.called c call).mpr ⟨p, hp, hin⟩
  refine ⟨order, H.once, fun c call hmem => ?_, fun t x t' y ok request hsub hy => ?_,
    fun x result hx => ?_, fun hw => ?_⟩
  · obtain ⟨p, hp, hin, -⟩ := (H.placed c call).mp hmem
    cases c with
    | service x =>
        obtain ⟨-, request, hrequest, hx⟩ := J.called x p hp
        obtain ⟨-, t, ht⟩ := J.received x request hx
        exact Or.inl ⟨t, x, request, rfl, hin.symm.trans hrequest, ht⟩
    | clock n =>
        obtain ⟨e, he, hmem'⟩ := List.mem_flatMap.mp (hcall _ _ hmem)
        cases e with
        | tick n' seconds =>
            have heq : n = n' ∧ call = .tick seconds := by simpa [ServerEvent.broker, clockEvents] using hmem'
            obtain ⟨rfl, rfl⟩ := heq
            exact Or.inr ⟨n, seconds, rfl, rfl, he⟩
        | enter t x request =>
            cases List.mem_singleton.mp hmem'
        | method x part =>
            cases part <;> cases List.mem_singleton.mp hmem'
        | advance | request | finish | respond => cases hmem'
  · obtain ⟨⟨c, call⟩, hmem, hc⟩ := List.mem_map.mp hy
    obtain rfl : c = .service y := hc
    exact H.ordered _ _ call (reply_before_call h hsub (hcall _ _ hmem)) hy
  · obtain ⟨input, a, hdone⟩ := J.responded x result hx
    obtain ⟨-, request, hin, -⟩ := J.called x _ hdone
    obtain rfl : input = .request request := hin
    obtain ⟨before, hbefore, ha⟩ := H.result _ _ a hdone rfl
    obtain ⟨later, hmem, hlater, hresult, hnot⟩ := H.answered _ _ _ _ hdone
    refine ⟨request, before, later, H.prefix_of_mem hbefore hmem hlater, hlater, ?_,
      fun t t' y ok request' hsub hy => ?_⟩
    · rw [hresult, ha, after_brokerMethod, after_brokerMethod]
      exact (atomic_request (serverAfter srv before) request).2 (serverAfter srv later)
    · obtain ⟨⟨c, call⟩, hmem', hc⟩ := List.mem_map.mp hy
      obtain rfl : c = .service y := hc
      exact hnot _ hy call (reply_before_call h hsub (hcall _ _ (hlater.subset hmem')))
  · rw [H.idle hw, after_brokerMethod]

/-- What a thread does once its call has returned: it answers, and deletes the object. -/
def served (thread : ℕ) (x : RpcService) : List ServerEvent :=
  [.advance thread, .respond thread x, .advance thread, .finish thread x true, .advance thread]

/-- Two threads create their services, and one serves a creation. Then `getOffsets` and `brokerInfo`
are inside at once, and a send waits for the lock; it has it when the first half of `getOffsets` is
done, and is stopped after its write. -/
def halfSent : List ServerEvent :=
  let key : TopicPartition := ⟨"logs".toList, 2⟩
  let creation : ServiceRequest := .createPartition ⟨"logs".toList, 2, 100, 0, 0⟩
  List.replicate 8 (.advance 0) ++ List.replicate 8 (.advance 1) ++
    [.request 0 ⟨.createPartition, 4⟩ true creation, .advance 0, .advance 0,
      .enter 0 ⟨.createPartition, 4⟩ creation, .method ⟨.createPartition, 4⟩ .acquire,
      .method ⟨.createPartition, 4⟩ .step, .method ⟨.createPartition, 4⟩ .step,
      .method ⟨.createPartition, 4⟩ .release, .method ⟨.createPartition, 4⟩ .reply] ++
    served 0 ⟨.createPartition, 4⟩ ++
    [.tick 0 5, .request 1 ⟨.getOffsets, 9⟩ true (.getOffsets key),
      .request 0 ⟨.brokerInfo, 3⟩ true .brokerInfo, .advance 1, .advance 1, .advance 0, .advance 0,
      .enter 1 ⟨.getOffsets, 9⟩ (.getOffsets key), .enter 0 ⟨.brokerInfo, 3⟩ .brokerInfo,
      .method ⟨.getOffsets, 9⟩ .acquire, .method ⟨.brokerInfo, 3⟩ .acquire,
      .method ⟨.getOffsets, 9⟩ .step, .method ⟨.brokerInfo, 3⟩ .step, .method ⟨.brokerInfo, 3⟩ .step,
      .method ⟨.brokerInfo, 3⟩ .release, .method ⟨.brokerInfo, 3⟩ .reply] ++
    served 0 ⟨.brokerInfo, 3⟩ ++
    [.request 0 ⟨.sendMessage, 0⟩ true (.sendMessage key [7]), .advance 0, .advance 0,
      .enter 0 ⟨.sendMessage, 0⟩ (.sendMessage key [7]), .method ⟨.getOffsets, 9⟩ .release,
      .method ⟨.sendMessage, 0⟩ .acquire, .method ⟨.sendMessage, 0⟩ .step]

/-- The send goes on, and `getOffsets` looks again before it is done. -/
def fullySent : List ServerEvent :=
  halfSent ++ [.method ⟨.sendMessage, 0⟩ .step, .method ⟨.getOffsets, 9⟩ .reply,
    .method ⟨.sendMessage, 0⟩ .release, .method ⟨.sendMessage, 0⟩ .reply] ++
    served 1 ⟨.getOffsets, 9⟩ ++ served 0 ⟨.sendMessage, 0⟩

theorem runs_fullySent :
    ∃ s, (start 2 (Server.boot ⟨[], []⟩ ⟨id, fun _ => .refl _⟩ (World.blank 0))).run
      fullySent = some s ∧ s.responses.length = 4 := by
  have hrun : (((start 2 (Server.boot ⟨[], []⟩ ⟨id, fun _ => .refl _⟩ (World.blank 0))).run
      fullySent).map (fun s => s.responses.length)) = some 4 := by decide +kernel
  exact Option.map_eq_some_iff.mp hrun

theorem answers_explained_overlapping :
    ∃ s, (start 2 (Server.boot ⟨[], []⟩ ⟨id, fun _ => .refl _⟩ (World.blank 0))).run
        fullySent = some s ∧ s.responses.length = 4 ∧
      ∃ order, Explained (Server.boot ⟨[], []⟩ ⟨id, fun _ => .refl _⟩ (World.blank 0))
        fullySent s order := by
  obtain ⟨s, hs, hlength⟩ := runs_fullySent
  exact ⟨s, hs, hlength, answers_explained 2 _ hs⟩

end BrokerServer

end MyKafka
