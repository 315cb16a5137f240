import MyKafka.BrokerRestart
import MyKafka.Client

/-!
# Clients and the log

While nobody deletes its key a log only grows, so what a consumer was given stays what the log holds.
-/

namespace MyKafka

open Posix MyKafka.Partition

variable {r : RawPath} {B : Path} {w : World} {st st' : Store} {key : TopicPartition}
  {request : Request} {response : Response} {e : Entry}

/-! ## Logs that grow -/

def Request.Deletes (key : TopicPartition) : Request → Prop
  | .deletePartition key' => key' = key
  | .deleteTopic topic => key.topic = topic
  | _ => False

def History.messages (h : History) (key : TopicPartition) : List Payload := (h key).getD []

/-- A step of the map that does not delete the key keeps its messages. -/
theorem StoreNext.grows (h : StoreNext st request response st') (hkeep : ¬ request.Deletes key)
    (he : st key = some e) : ∃ e', st' key = some e' ∧ e.log <+: e'.log := by
  cases h with
  | tick | createAgain | deleteUnknown | sendUnknown | getMessage | getOffsets =>
      exact ⟨e, he, List.prefix_refl _⟩
  | @create creation hnone =>
      have hne : key ≠ creation.key := by
        rintro rfl
        rw [he] at hnone
        cases hnone
      exact ⟨e, by rw [Function.update_of_ne hne, he], List.prefix_refl _⟩
  | @delete key' =>
      exact ⟨e, by rw [Function.update_of_ne (fun heq => hkeep heq.symm), he], List.prefix_refl _⟩
  | deleteTopic topic =>
      exact ⟨e, by rw [Store.without, if_neg (show ¬ key.topic = topic from hkeep), he], List.prefix_refl _⟩
  | @send key' e₀ m n he₀ =>
      by_cases hk : key = key'
      · subst hk
        obtain rfl := Option.some.inj (he.symm.trans he₀)
        exact ⟨_, Function.update_self .., List.prefix_append _ _⟩
      · exact ⟨e, by rw [Function.update_of_ne hk, he], List.prefix_refl _⟩
  | restart hages =>
      have ha := hages key
      rw [he] at ha
      generalize st' key = v at ha ⊢
      cases ha with
      | present => exact ⟨_, rfl, List.prefix_refl _⟩

theorem StoreNext.messages (h : StoreNext st request response st')
    (hkeep : ¬ request.Deletes key) : st.logs.messages key <+: st'.logs.messages key := by
  cases he : st key with
  | none =>
      simp only [History.messages, Store.logs, he, Option.map_none, Option.getD_none]
      exact List.nil_prefix
  | some e =>
      obtain ⟨e', he', hpre⟩ := h.grows hkeep he
      simpa only [History.messages, Store.logs, he, he', Option.map_some, Option.getD_some] using hpre

theorem getElem?_mono {α : Type} {xs ys : List α} {i : ℕ} {a : α} (h : xs <+: ys)
    (ha : xs[i]? = some a) : ys[i]? = some a := by
  obtain ⟨rest, rfl⟩ := h
  obtain ⟨hlt, -⟩ := List.getElem?_eq_some_iff.mp ha
  rwa [List.getElem?_append_left hlt]

/-! ## Runs of a client -/

section Run

variable {σ : Type} {prog : ClientProgram σ} {c : Client σ} {srv : Server} {event : NetEvent}
  {es : List NetEvent}

/-- What the broker executed, with its answers. -/
def executed (t : List (NetEvent × Option (Request × Response))) : List (Request × Response) :=
  t.filterMap Prod.snd

/-- The requests of others keep the key. -/
def Keeping (key : TopicPartition) (es : List NetEvent) : Prop :=
  ∀ request, NetEvent.other request ∈ es → ¬ request.Deletes key

/-- Whatever the broker executes in the run, it can serve. -/
def ServableRun (prog : ClientProgram σ) (s : Client σ × Server) (es : List NetEvent) : Prop :=
  Runs.Always prog.step (fun s event => ∀ request, prog.executes s.1 event = some request →
    request.Servable s.2.broker) s es

/-- A bound on the messages that are sent in a run. -/
def sendings : List NetEvent → ℕ
  | [] => 0
  | .other request :: es => sends [request] + sendings es
  | .attempt _ :: es | .arrive _ :: es => 1 + sendings es

namespace ClientProgram

theorem step_none {s : Client σ × Server} (h : prog.executes s.1 event = none) :
    prog.step s event = (none, (prog.idle s.1 event, s.2)) := by
  rw [step, h]

theorem step_some {s : Client σ × Server} (h : prog.executes s.1 event = some request) :
    prog.step s event = (some (request, (s.2.step request).1),
      (prog.after s.1 (s.2.step request).1 event, (s.2.step request).2)) := by
  rw [step, h]

theorem sends_le (h : prog.executes c event = some request) (es : List NetEvent) :
    sends [request] + sendings es ≤ sendings (event :: es) := by
  rcases event with request' | delivery | n
  · obtain rfl := Option.some.inj h
    rfl
  · cases request <;> simp [sends, sendings]
  · cases request <;> simp [sends, sendings]

@[simp] theorem state_idle : (prog.idle c event).state = c.state := by
  unfold idle
  split
  · split <;> rfl
  · rfl

/-- Only an answer moves the program on. -/
theorem state_after {response : Response} (h : event ≠ .attempt .answered) :
    (prog.after c response event).state = c.state := by
  unfold after
  split
  · exact absurd rfl h
  · rfl
  · rfl

end ClientProgram

/-- The server holds the map and can serve the run, in which no log gets longer than an offset can
count. -/
structure ServesRun (r : RawPath) (B : Path) (prog : ClientProgram σ) (c : Client σ) (srv : Server)
    (st : Store) (es : List NetEvent) : Prop where
  serves : Serves r B srv.broker srv.world st
  total : sendings es < 2 ^ 63
  count : ∀ key e, st key = some e → e.log.length + sendings es < 2 ^ 63
  servable : ServableRun prog (c, srv) es

theorem ServesRun.length_lt (h : ServesRun r B prog c srv st es) (he : st key = some e) :
    e.log.length < 2 ^ 63 :=
  (Nat.le_add_right ..).trans_lt (h.count key e he)

/-- An event in which the broker executes nothing changes nothing; any other is a step of the map. -/
theorem ServesRun.turn (h : ServesRun r B prog c srv st (event :: es)) :
    (prog.executes c event = none ∧ prog.step (c, srv) event = (none, (prog.idle c event, srv)) ∧
      ServesRun r B prog (prog.idle c event) srv st es) ∨
    ∃ request st', prog.executes c event = some request ∧
      prog.step (c, srv) event = (some (request, (srv.step request).1),
        (prog.after c (srv.step request).1 event, (srv.step request).2)) ∧
      StoreNext st request (srv.step request).1 st' ∧
      ServesRun r B prog (prog.after c (srv.step request).1 event) (srv.step request).2 st' es := by
  have hservable := h.servable.2
  cases hexe : prog.executes c event with
  | none =>
      have hle : sendings es ≤ sendings (event :: es) := by
        cases event <;> simp [sendings]
      have hstep : prog.step (c, srv) event = (none, (prog.idle c event, srv)) :=
        ClientProgram.step_none hexe
      rw [hstep] at hservable
      exact Or.inl ⟨rfl, hstep, h.serves, hle.trans_lt h.total,
        fun key e he => (Nat.add_le_add_left hle _).trans_lt (h.count key e he), hservable⟩
  | some request =>
      have hle := ClientProgram.sends_le hexe es
      have hstep := ClientProgram.step_some (s := (c, srv)) hexe
      rw [hstep] at hservable
      obtain ⟨st', hn, h'⟩ := h.serves.step (h.servable.1 request hexe) (fun key e he => by
        have := h.count key e he
        omega)
      exact Or.inr ⟨request, st', rfl, hstep, hn, h', (Nat.le_add_left ..).trans_lt
        (hle.trans_lt h.total), hn.count hle h.total h.count, hservable⟩

end Run

/-! ## Fetching -/

/-- The offset is one the partition of the key holds. -/
def Fetchable (b : Broker) (key : TopicPartition) (o : Int64) : Prop :=
  ∃ p, b.topics.lookup key = some p ∧ p.oldestOffset ≤ o.toInt ∧ o.toInt < p.newestOffset

theorem Serves.fetchable {b : Broker} (h : Serves r B b w st) (o : Int64) :
    Fetchable b key o ↔ ∃ e, st key = some e ∧ e.oldest ≤ o.toInt ∧ o.toInt < e.log.length := by
  have hm := h.mirrors
  constructor
  · rintro ⟨p, hp, h0, h1⟩
    cases he : st key with
    | none =>
        rw [(hm.absent key he).1] at hp
        cases hp
    | some e =>
        obtain ⟨p', -, hp', hlog, -⟩ := hm.present key e he
        obtain rfl := Option.some.inj (hp.symm.trans hp')
        obtain ⟨hold, hnew, -⟩ := hlog.reads hm.calm
        exact ⟨e, rfl, hold ▸ h0, hnew ▸ h1⟩
  · rintro ⟨e, he, h0, h1⟩
    obtain ⟨p, -, hp, hlog, -⟩ := hm.present key e he
    obtain ⟨hold, hnew, -⟩ := hlog.reads hm.calm
    exact ⟨p, hp, hold ▸ h0, hnew ▸ h1⟩

/-- A fetch is answered with the message of the log, or with an error. -/
theorem Serves.fetch {b : Broker} (h : Serves r B b w st)
    (hlen : ∀ e, st key = some e → e.log.length < 2 ^ 63) (o : Int64) :
    (Fetchable b key o → (b.getMessage key o w).1.error = .ok () ∧ 0 ≤ o.toInt ∧
      o.toInt < 2 ^ 63 - 1 ∧
      (st.logs.messages key)[o.toInt.toNat]? = some (b.getMessage key o w).1.payload) ∧
    (¬ Fetchable b key o → ∃ err, (b.getMessage key o w).1.error = .error err) := by
  obtain ⟨-, hmsg⟩ := h.getMessage hlen o
  rw [h.fetchable o]
  cases he : st key with
  | none =>
      rw [he] at hmsg
      obtain ⟨msg, hres⟩ := hmsg
      rw [hres]
      refine ⟨?_, fun _ => ⟨_, rfl⟩⟩
      rintro ⟨e, he', -⟩
      cases he'
  | some e =>
      rw [he] at hmsg
      have hreads : Reads e o (b.getMessage key o w).1 := hmsg
      have hlog : st.logs.messages key = e.log := by
        rw [History.messages, Store.logs_some he, Option.getD_some]
      have hshort := hlen e he
      constructor
      · rintro ⟨e', he', h0, h1⟩
        obtain rfl := Option.some.inj he'
        have hok := hreads.ok.mpr ⟨h0, h1⟩
        refine ⟨hok, by omega, by omega, ?_⟩
        rw [hlog]
        exact hreads.payload hok
      · intro hnot
        cases hres : (b.getMessage key o w).1.error with
        | error err => exact ⟨err, rfl⟩
        | ok => exact absurd ⟨e, rfl, hreads.ok.mp hres⟩ hnot

/-! ## The consumer -/

/-- The consumer printed one line for each offset from `s` up to where it stands, with the message
of that offset. -/
def PrintsLog (s : Int64) (msgs : List Payload) (c : Consumer) : Prop :=
  ∃ n : ℕ, c.offset.toInt = s.toInt + n ∧ c.printed.map (fun l => (l.1, some l.2)) =
    (List.range n).map (fun k : ℕ => (s.toInt + k, msgs[s.toInt.toNat + k]?))

/-- It printed more lines than it passed offsets. -/
def Overprints (s : Int64) (c : Consumer) : Prop := c.offset.toInt - s.toInt < c.printed.length

namespace PrintsLog

variable {s : Int64} {msgs msgs' : List Payload} {c : Consumer}

theorem length_printed (h : PrintsLog s msgs c) :
    (c.printed.length : ℤ) = c.offset.toInt - s.toInt := by
  obtain ⟨n, hoff, hlines⟩ := h
  have hlen := congrArg List.length hlines
  rw [List.length_map, List.length_map, List.length_range] at hlen
  omega

theorem not_overprints (h : PrintsLog s msgs c) : ¬ Overprints s c := by
  rw [Overprints, h.length_printed]
  exact lt_irrefl _

theorem start (s : Int64) (msgs : List Payload) : PrintsLog s msgs (Consumer.start s) :=
  ⟨0, by simp [Consumer.start], rfl⟩

/-- What was printed stays what the log holds. -/
theorem mono (h : PrintsLog s msgs c) (hpre : msgs <+: msgs') : PrintsLog s msgs' c := by
  obtain ⟨n, hoff, hlines⟩ := h
  refine ⟨n, hoff, hlines.trans ?_⟩
  apply List.map_congr_left
  intro k hk
  have hmem : (s.toInt + k, msgs[s.toInt.toNat + k]?) ∈
      c.printed.map (fun l => (l.1, some l.2)) := by
    rw [hlines]
    exact List.mem_map_of_mem hk
  obtain ⟨l, -, hl⟩ := List.mem_map.mp hmem
  obtain ⟨-, hl⟩ := Prod.mk.inj hl
  rw [← hl, getElem?_mono hpre hl.symm]

end PrintsLog

namespace Consumer

variable {s : Int64} {msgs : List Payload} {c : Consumer} {opts : ConsumerOptions}
  {answer : GetMessageResponse}

theorem toInt_succ {o : Int64} (h0 : 0 ≤ o.toInt) (h : o.toInt < 2 ^ 63 - 1) :
    (o + 1).toInt = o.toInt + 1 := by
  rw [Int64.toInt_add, show (1 : Int64).toInt = 1 from rfl]
  exact Int.bmod_eq_of_le (by omega) (by omega)

/-- A turn prints one payload, whatever the broker answered. -/
theorem printed_turn (opts : ConsumerOptions) (c : Consumer) (answer : GetMessageResponse) :
    (c.turn opts answer).printed = c.printed ++ [(c.offset.toInt, answer.payload)] := by
  have hprint : ∀ line, (c.print line).printed = c.printed ++ line.payload?.toList := by
    intro line
    simp only [print, printed, List.filterMap_append, List.append_cancel_left_eq]
    cases line <;> rfl
  have hadvance : ((c.print (.payloadAt c.offset answer.payload)).advance opts
      answer.error).printed = c.printed ++ [(c.offset.toInt, answer.payload)] := by
    unfold advance
    split
    · exact hprint _
    · split_ifs
      · exact hprint _
      · simp [print, printed, Line.payload?]
      · simp [print, printed, Line.payload?]
  unfold turn
  dsimp only
  split_ifs
  · exact hadvance
  · exact hadvance

theorem offset_turn (opts : ConsumerOptions) (c : Consumer) (answer : GetMessageResponse) :
    (c.turn opts answer).offset =
      ((c.print (.payloadAt c.offset answer.payload)).advance opts answer.error).offset := by
  unfold turn
  dsimp only
  split_ifs <;> rfl

theorem offset_turn_ok (h : answer.error = .ok ()) :
    (c.turn opts answer).offset = c.offset + 1 := by
  rw [offset_turn, h]
  rfl

theorem offset_turn_error {e : Error} (h : answer.error = .error e) :
    (c.turn opts answer).offset = c.offset := by
  rw [offset_turn, h, advance]
  split_ifs <;> rfl

/-- A turn with an error prints a line for an offset it does not pass. -/
theorem overprints_error {e : Error} (hle : c.offset.toInt - s.toInt ≤ c.printed.length)
    (herr : answer.error = .error e) : Overprints s (c.turn opts answer) := by
  rw [Overprints, offset_turn_error herr, printed_turn, List.length_append, List.length_singleton]
  push_cast
  omega

theorem overprints_turn (h : Overprints s c) (h0 : 0 ≤ c.offset.toInt)
    (h1 : c.offset.toInt < 2 ^ 63 - 1) (hok : answer.error = .ok ()) :
    Overprints s (c.turn opts answer) := by
  rw [Overprints] at h
  rw [Overprints, offset_turn_ok hok, printed_turn, toInt_succ h0 h1, List.length_append,
    List.length_singleton]
  push_cast
  omega

theorem printsLog_turn (h : PrintsLog s msgs c) (hs : 0 ≤ s.toInt)
    (h1 : c.offset.toInt < 2 ^ 63 - 1) (hok : answer.error = .ok ())
    (hmsg : msgs[c.offset.toInt.toNat]? = some answer.payload) :
    PrintsLog s msgs (c.turn opts answer) := by
  obtain ⟨n, hoff, hlines⟩ := h
  refine ⟨n + 1, ?_, ?_⟩
  · rw [offset_turn_ok hok, toInt_succ (by omega) h1, hoff]
    push_cast
    ring
  · rw [printed_turn, List.map_append, hlines, List.range_succ, List.map_append, List.map_singleton,
      List.map_singleton, ← hmsg, hoff, show (s.toInt + (n : ℤ)).toNat = s.toInt.toNat + n by omega]

end Consumer

section Consume

variable {opts : ConsumerOptions} {s : Int64} {c : Client Consumer} {srv : Server}
  {event : NetEvent} {es : List NetEvent}

/-- If the event answers the call of the consumer, its offset is one the partition holds. -/
def FetchHeld (opts : ConsumerOptions) (c : Client Consumer × Server) (event : NetEvent) : Prop :=
  event = .attempt .answered → c.1.state.stop = false →
    Fetchable c.2.broker opts.key c.1.state.offset

theorem request_consumer {c : Consumer} (h : (consumer opts).request c = some request) :
    request = .getMessage opts.key c.offset ∧ c.stop = false := by
  simp only [consumer] at h
  split_ifs at h with hstop
  exact ⟨(Option.some.inj h).symm, by simpa using hstop⟩

theorem executes_consumer (h : (consumer opts).executes c (.attempt .answered) = some request) :
    request = .getMessage opts.key c.state.offset ∧ c.state.stop = false :=
  request_consumer h

/-- A consumer that is in a call can be answered. -/
theorem stopped_of_executes (h : (consumer opts).executes c (.attempt .answered) = none) :
    c.state.stop = true := by
  by_contra hgo
  simp [ClientProgram.executes, consumer, hgo] at h

theorem not_deletes_consumer (hkeep : Keeping opts.key (event :: es))
    (h : (consumer opts).executes c event = some request) : ¬ request.Deletes opts.key := by
  have hread : ∀ {c : Consumer}, (consumer opts).request c = some request →
      ¬ request.Deletes opts.key := by
    intro c hreq
    rw [(request_consumer hreq).1]
    exact id
  rcases event with request' | delivery | n
  · obtain rfl := Option.some.inj h
    exact hkeep request' List.mem_cons_self
  · cases delivery with
    | lost | late => cases h
    | unanswered | answered => exact hread h
  · obtain ⟨c', -, hreq⟩ := Option.bind_eq_some_iff.mp h
    exact hread hreq

theorem Serves.consumer_step (h : Serves r B srv.broker srv.world st) (hs : 0 ≤ s.toInt)
    (hlen : ∀ e, st opts.key = some e → e.log.length < 2 ^ 63)
    (hexe : (consumer opts).executes c event = some request) {msgs : List Payload}
    (hmsgs : st.logs.messages opts.key <+: msgs) :
    let c' := ((consumer opts).after c (srv.step request).1 event).state
    (Overprints s c.state → Overprints s c') ∧
    (PrintsLog s (st.logs.messages opts.key) c.state → FetchHeld opts (c, srv) event →
      PrintsLog s msgs c') ∧
    (PrintsLog s (st.logs.messages opts.key) c.state → ¬ FetchHeld opts (c, srv) event →
      Overprints s c') := by
  intro c'
  by_cases hans : event = .attempt .answered
  · subst hans
    obtain ⟨rfl, hstop⟩ := executes_consumer hexe
    obtain ⟨hheld, hmissing⟩ := h.fetch hlen c.state.offset
    have hc' : c' = c.state.turn opts
        (srv.broker.getMessage opts.key c.state.offset srv.world).1 := rfl
    by_cases hfetch : Fetchable srv.broker opts.key c.state.offset
    · obtain ⟨hok, h0, h1, hmsg⟩ := hheld hfetch
      rw [hc']
      refine ⟨fun ho => Consumer.overprints_turn ho h0 h1 hok, fun hp _ => ?_, fun _ hnot => ?_⟩
      · exact (Consumer.printsLog_turn hp hs h1 hok hmsg).mono hmsgs
      · exact absurd (fun _ _ => hfetch) hnot
    · obtain ⟨err, herr⟩ := hmissing hfetch
      rw [hc']
      refine ⟨fun ho => Consumer.overprints_error ho.le herr,
        fun _ hheld' => absurd (hheld' rfl hstop) hfetch,
        fun hp _ => Consumer.overprints_error hp.length_printed.ge herr⟩
  · have hc' : c' = c.state := ClientProgram.state_after hans
    rw [hc']
    exact ⟨id, fun hp _ => hp.mono hmsgs, fun _ hnot => absurd (fun h' => absurd h' hans) hnot⟩

theorem ServesRun.consumer_run (hs : 0 ≤ s.toInt) :
    ∀ {c : Client Consumer} {srv : Server} {st : Store},
    ServesRun r B (consumer opts) c srv st es → Keeping opts.key es →
    let msgs := ((executed (Runs.trace (consumer opts).step (c, srv) es)).foldl History.next
      st.logs).messages opts.key
    let c' := (Runs.final (consumer opts).step (c, srv) es).1.state
    (Overprints s c.state → Overprints s c') ∧
    (PrintsLog s (st.logs.messages opts.key) c.state →
      Runs.Always (consumer opts).step (FetchHeld opts) (c, srv) es → PrintsLog s msgs c') ∧
    (PrintsLog s (st.logs.messages opts.key) c.state →
      ¬ Runs.Always (consumer opts).step (FetchHeld opts) (c, srv) es → Overprints s c') := by
  induction es with
  | nil => exact fun {c srv st} _ _ => ⟨id, fun hp _ => hp, fun _ hnot => absurd trivial hnot⟩
  | cons event es ih =>
      intro c srv st h hkeep msgs c'
      have hkeep' : Keeping opts.key es := fun request hm => hkeep request (List.mem_cons_of_mem _ hm)
      rcases h.turn with ⟨hexe, hstep, h'⟩ | ⟨request, st', hexe, hstep, hn, h'⟩
      · have hheld : FetchHeld opts (c, srv) event := by
          rintro rfl hstop
          rw [stopped_of_executes hexe] at hstop
          cases hstop
        obtain ⟨h1, h2, h3⟩ := ih h' hkeep'
        rw [ClientProgram.state_idle] at h1 h2 h3
        simp only [msgs, c', Runs.trace, Runs.final, Runs.Always, hstep, executed,
          List.filterMap_cons]
        exact ⟨h1, fun hp hall => h2 hp hall.2, fun hp hnot => h3 hp (fun hall => hnot ⟨hheld, hall⟩)⟩
      · obtain ⟨h1, h2, h3⟩ := ih h' hkeep'
        obtain ⟨hs1, hs2, hs3⟩ := h.serves.consumer_step hs (fun e he => h.length_lt he) hexe
          (hn.messages (not_deletes_consumer hkeep hexe))
        rw [hn.logs] at h2 h3 hs2
        simp only [msgs, c', Runs.trace, Runs.final, Runs.Always, hstep, executed,
          List.filterMap_cons, List.foldl_cons]
        refine ⟨fun ho => h1 (hs1 ho), fun hp hall => h2 (hs2 hp hall.1) hall.2, fun hp hnot => ?_⟩
        by_cases hheld : FetchHeld opts (c, srv) event
        · exact h3 (hs2 hp hheld) (fun hall => hnot ⟨hheld, hall⟩)
        · exact h1 (hs3 hp hheld)

end Consume

/-- From an empty base directory, while nobody deletes its key: the consumer prints the log and
nothing else exactly when each of its fetches is answered at an offset the partition holds. -/
theorem prints_log_iff {order : KeyOrder} {requests : List Request} {opts : ConsumerOptions}
    {s : Int64} {es : List NetEvent} (h : Bare w r B) (hs : 0 ≤ s.toInt)
    (hcount : sends requests + sendings es < 2 ^ 63) (hkeep : Keeping opts.key es)
    (hok : Runs.Always Server.step (fun srv request => request.Servable srv.broker)
      (Server.boot r order w) requests)
    (hok' : ServableRun (consumer opts)
      (⟨.start s, []⟩, Runs.final Server.step (Server.boot r order w) requests) es) :
    let srv := Runs.final Server.step (Server.boot r order w) requests
    let history := (Runs.trace Server.step (Server.boot r order w) requests ++
      executed (Runs.trace (consumer opts).step (⟨.start s, []⟩, srv) es)).foldl History.next
        (fun _ => none)
    PrintsLog s (history.messages opts.key)
        (Runs.final (consumer opts).step (⟨.start s, []⟩, srv) es).1.state ↔
      Runs.Always (consumer opts).step (FetchHeld opts) (⟨.start s, []⟩, srv) es := by
  intro srv history
  obtain ⟨st, htrace, hserves, hshort⟩ := (h.boot order).run hcount (fun key e he => by cases he) hok
  have hrun : ServesRun r B _ _ srv st es := ⟨hserves, by omega, hshort, hok'⟩
  obtain ⟨-, hgood, hbad⟩ := hrun.consumer_run hs hkeep
  have hstart := PrintsLog.start s (st.logs.messages opts.key)
  have hhistory : history = (executed (Runs.trace (consumer opts).step (⟨.start s, []⟩, srv) es)).foldl
      History.next st.logs := by
    rw [Store.logs_trace htrace, ← List.foldl_append]
    rfl
  rw [hhistory]
  constructor
  · intro hprints
    by_contra hnot
    exact hprints.not_overprints (hbad hstart hnot)
  · exact hgood hstart

theorem prints_log_iff_sent :
    let requests : List Request := [.createPartition ⟨"logs".toList, 2, 100, 0, 0⟩]
    let es : List NetEvent := [.other (.sendMessage ⟨"logs".toList, 2⟩ [1, 2]), .attempt .answered]
    let opts : ConsumerOptions := ⟨⟨"logs".toList, 2⟩, 0, false⟩
    let srv := Runs.final Server.step
      (Server.boot ⟨[], []⟩ ⟨id, fun _ => .refl _⟩ (World.blank 0)) requests
    Runs.Always (consumer opts).step (FetchHeld opts) (⟨.start 0, []⟩, srv) es := by
  intro requests es opts srv
  have hkeep : Keeping opts.key es := by
    intro request hm
    simp only [es, List.mem_cons, NetEvent.other.injEq, reduceCtorEq, List.not_mem_nil, or_false]
      at hm
    subst hm
    exact id
  have hok : Runs.Always Server.step (fun srv request => request.Servable srv.broker)
      (Server.boot ⟨[], []⟩ ⟨id, fun _ => .refl _⟩ (World.blank 0)) requests :=
    ⟨Or.inr ⟨⟨by decide, by decide⟩, by decide⟩, trivial⟩
  have hok' : ServableRun (consumer opts) (⟨.start 0, []⟩, srv) es := by
    refine ⟨?_, ?_, trivial⟩
    · rintro _ ⟨⟩
      exact ⟨Nat.lt_of_sub_pos (by decide), ready_of_all (by decide +kernel)⟩
    · rintro _ ⟨⟩
      trivial
  exact (prints_log_iff (Bare.blank 0) (by decide) (by decide) hkeep hok hok').mp
    ⟨1, by decide +kernel, by decide +kernel⟩

/-- A fetch before the first message is printed as a payload, and printed again once the message is
there. -/
theorem prints_missing_message :
    let requests : List Request := [.createPartition ⟨"logs".toList, 2, 100, 0, 0⟩]
    let es : List NetEvent := [.attempt .answered, .other (.sendMessage ⟨"logs".toList, 2⟩ [1, 2]),
      .attempt .answered]
    let opts : ConsumerOptions := ⟨⟨"logs".toList, 2⟩, 0, false⟩
    let srv := Runs.final Server.step
      (Server.boot ⟨[], []⟩ ⟨id, fun _ => .refl _⟩ (World.blank 0)) requests
    let c := (Runs.final (consumer opts).step (⟨.start 0, []⟩, srv) es).1.state
    c.printed = [(0, []), (0, [1, 2])] ∧ ∀ msgs, ¬ PrintsLog 0 msgs c := by
  intro requests es opts srv c
  have hprinted : c.printed = [(0, []), (0, [1, 2])] := by decide +kernel
  refine ⟨hprinted, fun msgs hprints => hprints.not_overprints ?_⟩
  rw [Overprints, hprinted]
  decide +kernel

end MyKafka
