import MyKafka.BrokerServerOrder
import MyKafka.SmallSegments

/-!
# Clients see a map of logs

Where all segments are small, the answers of a server with any number of threads are those of one
map from keys to logs that takes the calls in their order.
-/

namespace MyKafka

open Posix Monitor

/-- The line of a log, and of its config file. -/
def Store.topicLine (st : Store) (size : TopicPartition → ℤ) (key : TopicPartition) : Str :=
  match st key with
  | none => []
  | some e => Broker.dumpLine key e.log.length e.oldest (size key)

def Store.fileLine (st : Store) (fd : TopicPartition → ℤ) (key : TopicPartition) : Str :=
  match st key with
  | none => []
  | some e => ConfigManager.dumpLine key (fd key) e.info

/-- The text of `BrokerInfo` shows each log of the map once, and each config file. -/
def InfoOf (st : Store) (response : BrokerInfoResponse) : Prop :=
  response.error = .ok () ∧
    ∃ (topics files : List TopicPartition) (size fd : TopicPartition → ℤ),
      topics.Nodup ∧ (∀ key, key ∈ topics ↔ st key ≠ none) ∧ files.Perm topics ∧
      response.dump = Broker.topicsTitle ++ topics.flatMap (st.topicLine size) ++
        Broker.configTitle ++ files.flatMap (st.fileLine fd)

/-- The two halves of `getOffsets` find two states of the map. -/
def HalvesOf (v v' : Option Entry) (response : GetOffsetsResponse) : Prop :=
  match v, v' with
  | some e, some e' => response = ⟨.ok (), e.oldest, e.log.length - 1, e'.log.length - 1⟩
  | _, _ => response.error ≠ .ok ()

/-- What the map answers; `later` is the map in the second half of `getOffsets`. -/
def AnswerOf (st later : Store) : ServiceRequest → ServiceResponse → Prop
  | .sendMessage key _, .sent response =>
    match st key with
    | none => ∃ msg, response = ⟨Utils.err .topicError msg, 0⟩
    | some e => response = ⟨.ok (), e.log.length⟩
  | .getMessage key o, .message response => MessageOf (st key) o response
  | .getOffsets key, .offsets response => HalvesOf (st key) (later key) response
  | .brokerInfo, .info response => InfoOf st response
  | .createPartition request, .created res => res = .ok () ↔ st request.key = none
  | .deletePartition key, .deleted res => res = .ok () ↔ st key ≠ none
  | .deleteTopic _, .deleted res => res = .ok ()
  | _, _ => False

/-- A call as a step of the map. -/
def MapStep (st : Store) (call : BrokerCall) (st' : Store) : Prop :=
  match call.request? with
  | none => st' = st
  | some request => ∃ response, StoreNext st request response st'

/-- Requests whose segments are full before their index is, and whose messages are not too long. -/
def ServiceRequest.Small (request : ServiceRequest) : Prop :=
  ∀ r, (BrokerCall.request request).request? = some r → r.Small

variable {r : RawPath} {B : Path} {w : World} {srv later : Server} {st st' : Store}

/-! ## What the text shows -/

theorem mem_keys_iff {β : Type} {m : AList (fun _ : TopicPartition => β)} (order : KeyOrder)
    (key : TopicPartition) : key ∈ order.order m.keys ↔ m.lookup key ≠ none := by
  rw [(order.perm m.keys).mem_iff, ← AList.mem_keys, ← AList.lookup_isSome,
    Option.isSome_iff_ne_none]

theorem Serves.getTopicInfo {b : Broker} (h : Serves r B b w st) :
    InfoOf st b.getTopicInfo := by
  have hm := h.mirrors
  have htopics : ∀ key, b.topics.lookup key ≠ none ↔ st key ≠ none := by
    intro key
    cases he : st key with
    | none => simp [(hm.absent key he).1]
    | some e =>
        obtain ⟨p, cfg, hp, -⟩ := hm.present key e he
        simp [hp]
  have hfiles : ∀ key, b.configManager.configs.lookup key ≠ none ↔ st key ≠ none := by
    intro key
    cases he : st key with
    | none => simp [(hm.absent key he).2]
    | some e =>
        obtain ⟨p, cfg, -, -, hcfg, -⟩ := hm.present key e he
        simp [hcfg]
  have honce : b.keys.Nodup := ((b.order.perm _).nodup_iff).mpr b.topics.keys_nodup
  have honce' : b.configManager.keys.Nodup :=
    ((b.configManager.order.perm _).nodup_iff).mpr b.configManager.configs.keys_nodup
  have hmem : ∀ key, key ∈ b.keys ↔ st key ≠ none :=
    fun key => (mem_keys_iff b.order key).trans (htopics key)
  have hmem' : ∀ key, key ∈ b.configManager.keys ↔ st key ≠ none :=
    fun key => (mem_keys_iff b.configManager.order key).trans (hfiles key)
  let size : TopicPartition → ℤ := fun key =>
    ((b.topics.lookup key).map Partition.physicalSize).getD 0
  let fd : TopicPartition → ℤ := fun key =>
    ((b.configManager.configs.lookup key).map (fun cfg => cfg.fd.number)).getD 0
  have hlines : b.dumpTopics = Broker.topicsTitle ++ b.keys.flatMap (st.topicLine size) := by
    refine congrArg (Broker.topicsTitle ++ ·) (List.flatMap_congr fun key hkey => ?_)
    obtain ⟨e, he⟩ := Option.ne_none_iff_exists'.mp ((hmem key).mp hkey)
    obtain ⟨p, cfg, hp, hlog, -⟩ := hm.present key e he
    obtain ⟨hold, hnew, -⟩ := hlog.reads hm.calm
    simp only [Store.topicLine, size, hp, he, hold, hnew, Option.map_some, Option.getD_some]
  have hfileLines : b.configManager.dump = b.configManager.keys.flatMap (st.fileLine fd) := by
    refine List.flatMap_congr fun key hkey => ?_
    obtain ⟨e, he⟩ := Option.ne_none_iff_exists'.mp ((hmem' key).mp hkey)
    obtain ⟨p, cfg, -, -, hcfg, hinfo⟩ := hm.present key e he
    simp only [Store.fileLine, fd, hcfg, he, hinfo.info, Option.map_some, Option.getD_some]
  refine ⟨rfl, b.keys, b.configManager.keys, size, fd, honce, hmem,
    (List.perm_ext_iff_of_nodup honce' honce).mpr (fun key => (hmem' key).trans (hmem key).symm), ?_⟩
  rw [Broker.getTopicInfo, Broker.dump, hlines, hfileLines]

/-! ## One call -/

theorem ServesSmall.answer (h : ServesSmall r B srv st) (h' : ServesSmall r B later st')
    (hroom : ∀ key e, st key = some e → e.log.length + 1 < 2 ^ 63)
    (hlen' : ∀ key e, st' key = some e → e.log.length < 2 ^ 63) {request : ServiceRequest}
    (hsmall : request.Small) : AnswerOf st st' request (srv.respond later request) := by
  have hlen : ∀ key e, st key = some e → e.log.length < 2 ^ 63 := fun key e he =>
    (Nat.le_succ _).trans_lt (hroom key e he)
  have hsends : ∀ request : Request, ∀ key e, st key = some e →
      e.log.length + sends [request] < 2 ^ 63 := fun request key e he =>
    (Nat.add_le_add_left (sends_singleton_le request) _).trans_lt (hroom key e he)
  cases request with
  | sendMessage key m =>
      obtain ⟨st₁, hn, -⟩ := h.step (hsmall _ rfl) (hsends _)
      simp only [Server.step] at hn
      simp only [AnswerOf, Server.respond]
      generalize (srv.broker.sendMessage key m srv.world).1 = response at hn ⊢
      cases hn with
      | send he => rw [he]
      | sendUnknown he =>
          rw [he]
          exact ⟨_, rfl⟩
  | getMessage key o => exact (h.serves.getMessage (fun e he => hlen key e he) o).2
  | getOffsets key =>
      have hhalves := h.serves.commitOffset h'.serves (fun e he => hlen' key e he)
        (show later.broker.commitOffset key (srv.broker.offsetRange key) = _ from rfl)
      simp only [AnswerOf, Server.respond, HalvesOf]
      cases he : st key with
      | none =>
          rw [he] at hhalves
          exact hhalves
      | some e =>
          cases he' : st' key with
          | none =>
              rw [he, he'] at hhalves
              exact hhalves
          | some e' =>
              rw [he, he'] at hhalves
              exact hhalves
  | brokerInfo => exact h.serves.getTopicInfo
  | createPartition request =>
      obtain ⟨st₁, hn, -⟩ := h.step (hsmall _ rfl) (hsends _)
      simp only [Server.step] at hn
      simp only [AnswerOf, Server.respond]
      generalize (srv.broker.createPartition request srv.world).1 = res at hn ⊢
      cases hn with
      | create hnone => exact iff_of_true rfl hnone
      | createAgain hsome => exact iff_of_false (by simp) hsome
  | deletePartition key =>
      obtain ⟨st₁, hn, -⟩ := h.step (hsmall _ rfl) (hsends _)
      simp only [Server.step] at hn
      simp only [AnswerOf, Server.respond]
      generalize (srv.broker.deletePartition key srv.world).1 = res at hn ⊢
      cases hn with
      | delete hsome => exact iff_of_true rfl hsome
      | deleteUnknown hnone => exact iff_of_false (by simp [Utils.err]) (by simp [hnone])
  | deleteTopic topic =>
      obtain ⟨st₁, hn, -⟩ := h.step (hsmall _ rfl) (hsends _)
      simp only [Server.step] at hn
      simp only [AnswerOf, Server.respond]
      generalize (srv.broker.deleteTopic topic srv.world).1 = res at hn ⊢
      cases hn with
      | deleteTopic => rfl

theorem ServesSmall.stores {calls : List BrokerCall} (h : ServesSmall r B srv st)
    (hsmall : ∀ call ∈ calls, ∀ request, call.request? = some request → request.Small)
    (htotal : calls.length < 2 ^ 63)
    (hcount : ∀ key e, st key = some e → e.log.length + calls.length < 2 ^ 63) :
    ∃ stores : ℕ → Store, stores 0 = st ∧
      (∀ n call, calls[n]? = some call → MapStep (stores n) call (stores (n + 1))) ∧
      ∀ n ≤ calls.length, ServesSmall r B ((calls.take n).foldl Server.serve srv) (stores n) ∧
        ∀ key e, stores n key = some e → e.log.length + (calls.length - n) < 2 ^ 63 := by
  induction calls generalizing srv st with
  | nil =>
      refine ⟨fun _ => st, rfl, fun n call hcall => by simp at hcall, fun n hn => ?_⟩
      obtain rfl : n = 0 := by simpa using hn
      exact ⟨h, fun key e he => by simpa using hcount key e he⟩
  | cons call calls ih =>
      rw [List.length_cons] at htotal hcount
      obtain ⟨st₁, hstep, h₁, hcount₁⟩ : ∃ st₁, MapStep st call st₁ ∧
          ServesSmall r B (srv.serve call) st₁ ∧
          ∀ key e, st₁ key = some e → e.log.length + calls.length < 2 ^ 63 := by
        cases hreq : call.request? with
        | none =>
            refine ⟨st, by rw [MapStep, hreq], by rwa [Server.serve, hreq], fun key e he => ?_⟩
            have := hcount key e he
            omega
        | some request =>
            have hone := sends_singleton_le request
            obtain ⟨st₁, hn, h₁⟩ := h.step (hsmall call List.mem_cons_self request hreq)
              (fun key e he => by
                have := hcount key e he
                omega)
            refine ⟨st₁, ?_, by rwa [Server.serve, hreq], hn.count (by omega) htotal hcount⟩
            rw [MapStep, hreq]
            exact ⟨_, hn⟩
      obtain ⟨stores, hzero, hsteps, hserves⟩ := ih h₁
        (fun call' hcall' => hsmall call' (List.mem_cons_of_mem _ hcall')) (by omega) hcount₁
      refine ⟨fun n => Nat.casesOn n st stores, rfl, fun n call' hcall' => ?_, fun n hn => ?_⟩
      · cases n with
        | zero =>
            obtain rfl : call = call' := by simpa using hcall'
            rw [← hzero] at hstep
            exact hstep
        | succ n => exact hsteps n call' (by simpa using hcall')
      · cases n with
        | zero => exact ⟨h, hcount⟩
        | succ n =>
            rw [List.length_cons, Nat.add_sub_add_right]
            exact hserves n (by simpa using hn)

/-! ## The run -/

namespace Explained

variable {es : List ServerEvent} {s : BrokerServer} {order : List (Caller × BrokerCall)}

/-- Who enters the broker because of the event. -/
def caller? : ServerEvent → Option Caller
  | .request _ x true _ => some (.service x)
  | .tick n _ => some (.clock n)
  | _ => none

theorem length_le (h : Explained srv es s order) : order.length ≤ es.length := by
  have hsub : order.map Prod.fst ⊆ es.filterMap caller? := by
    intro c hc
    obtain ⟨⟨c, call⟩, hmem, rfl⟩ := List.mem_map.mp hc
    rcases h.received c call hmem with ⟨t, x, request, rfl, -, he⟩ | ⟨n, seconds, rfl, -, he⟩
    · exact List.mem_filterMap.mpr ⟨_, he, rfl⟩
    · exact List.mem_filterMap.mpr ⟨_, he, rfl⟩
  have hle := (List.subperm_of_subset h.once hsub).length_le
  rw [List.length_map] at hle
  exact hle.trans (List.length_filterMap_le _ _)

end Explained

/-- From an empty base directory, with small segments: whatever the threads do in which order, the
answers are those of one map of logs that takes the calls in an order that respects real time. -/
theorem answers_of_map {order : KeyOrder} {es : List ServerEvent} {s : BrokerServer}
    (threadNumber : ℕ) (hbare : Bare w r B)
    (hsmall : ∀ t x request, .request t x true request ∈ es → request.Small)
    (hcount : es.length < 2 ^ 63)
    (h : (BrokerServer.start threadNumber (Server.boot r order w)).run es = some s) :
    ∃ calls, Explained (Server.boot r order w) es s calls ∧ ∃ stores : ℕ → Store,
      stores 0 = (fun _ => none) ∧
      (∀ n c call, calls[n]? = some (c, call) → MapStep (stores n) call (stores (n + 1))) ∧
      ∀ x result, (x, result) ∈ s.responses → ∃ n m request response,
        calls[n]? = some (.service x, .request request) ∧ n < m ∧ m ≤ calls.length ∧
        result = .response response ∧ AnswerOf (stores n) (stores m) request response := by
  obtain ⟨calls, hexp⟩ := BrokerServer.answers_explained threadNumber _ h
  have hlength := hexp.length_le.trans_lt hcount
  have hcalls : ∀ call ∈ calls.map Prod.snd, ∀ request, call.request? = some request →
      request.Small := by
    intro call hmem request hreq
    obtain ⟨⟨c, call'⟩, hcall, rfl⟩ := List.mem_map.mp hmem
    rcases hexp.received c call' hcall with ⟨t, x, q, -, rfl, he⟩ | ⟨n, seconds, -, rfl, -⟩
    · exact hsmall t x q he request hreq
    · cases hreq
      trivial
  obtain ⟨stores, hzero, hsteps, hserves⟩ := (hbare.small order).stores hcalls
    (by simpa using hlength) (fun key e he => by cases he)
  refine ⟨calls, hexp, stores, hzero, fun n c call hcall => ?_, fun x result hx => ?_⟩
  · exact hsteps n call (by rw [List.getElem?_map, hcall]; rfl)
  · obtain ⟨request, before, later, hbefore, hlater, hresult, -⟩ := hexp.answered x result hx
    obtain ⟨rest, rfl⟩ := hbefore
    obtain ⟨rest', rfl⟩ := hlater
    have hget : (before ++ [(Caller.service x, BrokerCall.request request)] ++ rest ++
        rest')[before.length]? = some (.service x, .request request) := by simp
    have hreq : request.Small := by
      intro q hq
      refine hcalls (.request request) ?_ q hq
      simp
    have hn := hserves before.length (by simp)
    have hm := hserves (before.length + 1 + rest.length) (by simp; omega)
    have htake : ∀ (l l' : List (Caller × BrokerCall)) (k : ℕ), k = l.length →
        (((l ++ l').map Prod.snd).take k).foldl Server.serve (Server.boot r order w) =
          serverAfter (Server.boot r order w) l := by
      rintro l l' k rfl
      rw [serverAfter, List.map_append, List.take_left' (by simp)]
    rw [List.append_assoc, List.append_assoc, htake before _ _ rfl] at hn
    rw [htake _ rest' _ (by simp; omega)] at hm
    refine ⟨before.length, before.length + 1 + rest.length, request, _, hget, by omega,
      by simp; omega, hresult, hn.1.answer hm.1 (fun key e he => ?_) (fun key e he => ?_) hreq⟩
    · have hcount := hn.2 key e he
      simp only [List.length_map, List.length_append, List.length_cons, List.length_nil] at hcount
      omega
    · exact (Nat.le_add_right ..).trans_lt (hm.2 key e he)

theorem answers_of_map_overlapping :
    ∃ s calls, (BrokerServer.start 2
        (Server.boot ⟨[], []⟩ ⟨id, fun _ => .refl _⟩ (World.blank 0))).run
          BrokerServer.fullySent = some s ∧ s.responses.length = 4 ∧
      Explained (Server.boot ⟨[], []⟩ ⟨id, fun _ => .refl _⟩ (World.blank 0))
        BrokerServer.fullySent s calls := by
  have hsmall : ∀ t x request,
      ServerEvent.request t x true request ∈ BrokerServer.fullySent → request.Small := by
    intro t x request hmem
    have heq : request = .createPartition ⟨"logs".toList, 2, 100, 0, 0⟩ ∨
        request = .getOffsets ⟨"logs".toList, 2⟩ ∨ request = .brokerInfo ∨
        request = .sendMessage ⟨"logs".toList, 2⟩ [7] := by
      simp [BrokerServer.fullySent, BrokerServer.halfSent, BrokerServer.served] at hmem
      tauto
    rcases heq with rfl | rfl | rfl | rfl
    · rintro q ⟨⟩
      exact ⟨⟨⟨by decide, by decide⟩, by decide⟩, by decide, by decide⟩
    · rintro q ⟨⟩
      trivial
    · rintro q ⟨⟩
    · rintro q ⟨⟩
      exact Nat.lt_of_sub_pos (by decide)
  obtain ⟨s, hs, hlength⟩ := BrokerServer.runs_fullySent
  obtain ⟨calls, hexplained, -⟩ := answers_of_map 2 (Bare.blank 0) hsmall (by decide) hs
  exact ⟨s, calls, hs, hlength, hexplained⟩

end MyKafka
