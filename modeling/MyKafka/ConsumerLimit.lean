import MyKafka.ClientRun

/-!
# The limit of the consumer

The loop of the consumer ends once the offset it stands at has reached `nb-offset`. Starting at
offset 0 that is when as many messages were received; from any other offset on it is too early.
-/

namespace MyKafka

open Posix MyKafka.Partition

namespace Consumer

variable {opts : ConsumerOptions} {msgs msgs' : List Payload} {c : Consumer} {o : Int64}
  {answer : GetMessageResponse} {answers : List GetMessageResponse}

/-! ## The loop and the answers it gets -/

/-- The answer is the message of the offset, or that there is none yet and the consumer waits. -/
def Expected (opts : ConsumerOptions) (msgs : List Payload) (o : Int64)
    (answer : GetMessageResponse) : Prop :=
  (answer.error = .ok () ∧ 0 ≤ o.toInt ∧ o.toInt < 2 ^ 63 - 1 ∧
      msgs[o.toInt.toNat]? = some answer.payload) ∨
    (∃ msg, answer.error = Utils.err .noMessage msg) ∧ opts.stopNoMsg = false

/-- The answers are what a consumer that goes on from `c` hears. -/
def Hears (opts : ConsumerOptions) (msgs : List Payload) : Consumer → List GetMessageResponse → Prop
  | _, [] => True
  | c, answer :: answers =>
    c.stop = false ∧ Expected opts msgs c.offset answer ∧ Hears opts msgs (c.turn opts answer) answers

/-- The message that comes with an answer, if one does. -/
def gained (o : Int64) (answer : GetMessageResponse) : List (ℤ × Payload) :=
  match answer.error with
  | .ok _ => [(o.toInt, answer.payload)]
  | .error _ => []

/-- The messages among the answers, each with the offset that was asked for. -/
def receives (opts : ConsumerOptions) : Consumer → List GetMessageResponse → List (ℤ × Payload)
  | _, [] => []
  | c, answer :: answers =>
    gained c.offset answer ++ receives opts (c.turn opts answer) answers

theorem Expected.mono (h : Expected opts msgs o answer) (hpre : msgs <+: msgs') :
    Expected opts msgs' o answer := by
  rcases h with ⟨hok, h0, h1, hmsg⟩ | hwait
  · exact Or.inl ⟨hok, h0, h1, getElem?_mono hpre hmsg⟩
  · exact Or.inr hwait

theorem Hears.stop (h : Hears opts msgs c answers) (hne : answers ≠ []) : c.stop = false := by
  cases answers with
  | nil => exact absurd rfl hne
  | cons => exact h.1

theorem stop_turn_ok (hstop : c.stop = false) (hok : answer.error = .ok ()) :
    (c.turn opts answer).stop = true ↔ 0 < opts.nbOffset ∧ opts.nbOffset ≤ c.offset + 1 := by
  unfold turn
  rw [hok]
  dsimp only [advance, print]
  split_ifs with h
  · simpa using h
  · simpa [hstop] using h

theorem stop_turn_wait (hstop : c.stop = false) {msg : String}
    (herr : answer.error = Utils.err .noMessage msg) (hwait : opts.stopNoMsg = false) :
    (c.turn opts answer).stop = true ↔ 0 < opts.nbOffset ∧ opts.nbOffset ≤ c.offset := by
  unfold turn
  rw [herr]
  simp only [advance, print, Utils.err, if_true, hwait, Bool.false_eq_true, if_false]
  split_ifs with h
  · simpa using h
  · simpa [hstop] using h

/-- One turn with a limit: the offset moves on with a message, and the loop ends where it stands at
the limit or above. -/
theorem Expected.turn (h : Expected opts msgs c.offset answer) (hstop : c.stop = false)
    (hn : 0 < opts.nbOffset) :
    ((c.turn opts answer).stop = true ↔
      opts.nbOffset.toInt ≤ (c.turn opts answer).offset.toInt) ∧
    (c.turn opts answer).offset.toInt =
      c.offset.toInt + (gained c.offset answer).length := by
  rcases h with ⟨hok, h0, h1, -⟩ | ⟨⟨msg, herr⟩, hwait⟩
  · rw [stop_turn_ok hstop hok, offset_turn_ok hok, gained, hok, and_iff_right hn,
      Int64.le_iff_toInt_le, toInt_succ h0 h1]
    exact ⟨Iff.rfl, rfl⟩
  · rw [stop_turn_wait hstop herr hwait, offset_turn_error herr, gained, herr, and_iff_right hn,
      Int64.le_iff_toInt_le]
    exact ⟨Iff.rfl, (Int.add_zero _).symm⟩

/-- What a consumer with a limit has read after these answers. -/
theorem Hears.final (hn : 0 < opts.nbOffset) (h : Hears opts msgs c answers) :
    let c' := answers.foldl (Consumer.turn opts) c
    c'.offset.toInt = c.offset.toInt + (receives opts c answers).length ∧
      (answers ≠ [] → (c'.stop = true ↔ opts.nbOffset.toInt ≤ c'.offset.toInt)) ∧
      (c'.offset.toInt ≤ opts.nbOffset.toInt ∨ c'.offset.toInt ≤ c.offset.toInt + 1) ∧
      (opts.nbOffset.toInt ≤ c.offset.toInt → answers.length ≤ 1) := by
  induction answers generalizing c with
  | nil =>
      refine ⟨(Int.add_zero _).symm, fun hne => absurd rfl hne, Or.inr ?_, fun _ => Nat.zero_le _⟩
      exact Int.le_add_one le_rfl
  | cons answer answers ih =>
      obtain ⟨hstop, hexp, hrest⟩ := h
      obtain ⟨hiff, hoff⟩ := hexp.turn hstop hn
      obtain ⟨hoff', hiff', hmax, hone⟩ := ih hrest
      have hlen : (gained c.offset answer).length ≤ 1 := by
        unfold gained
        split <;> simp
      simp only [List.foldl_cons, receives, List.length_append] at *
      by_cases hempty : answers = []
      · subst hempty
        simp only [List.foldl_nil, receives, List.length_nil, List.length_singleton] at *
        exact ⟨by omega, fun _ => hiff, Or.inr (by omega), fun _ => le_rfl⟩
      · -- the loop went on, so it had not reached the limit
        have hgo := hrest.stop hempty
        have hlt : (c.turn opts answer).offset.toInt < opts.nbOffset.toInt := by
          by_contra hle
          rw [hiff.mpr (by omega)] at hgo
          cases hgo
        exact ⟨by omega, fun _ => hiff' hempty, Or.inl (by omega), fun hle => by omega⟩

theorem Hears.receives (h : Hears opts msgs c answers) (h0 : 0 ≤ c.offset.toInt) :
    (Consumer.receives opts c answers).map (fun l => (l.1, some l.2)) =
      (List.range (Consumer.receives opts c answers).length).map
        (fun k : ℕ => (c.offset.toInt + k, msgs[c.offset.toInt.toNat + k]?)) := by
  induction answers generalizing c with
  | nil => rfl
  | cons answer answers ih =>
      obtain ⟨hstop, hexp, hrest⟩ := h
      rcases hexp with ⟨hok, -, h1, hmsg⟩ | ⟨⟨msg, herr⟩, -⟩
      · have hoff : (c.turn opts answer).offset.toInt = c.offset.toInt + 1 := by
          rw [offset_turn_ok hok, toInt_succ h0 h1]
        have hih := ih hrest (by omega)
        rw [Consumer.receives, gained, hok, List.singleton_append, List.map_cons, hih, hoff,
          List.length_cons, List.range_succ_eq_map, List.map_cons, List.map_map, ← hmsg]
        congr 1
        · simp
        · apply List.map_congr_left
          intro k hk
          simp only [Function.comp_apply, Nat.cast_succ]
          rw [show c.offset.toInt + 1 + (k : ℤ) = c.offset.toInt + (k + 1) by ring,
            show (c.offset.toInt + 1).toNat + k = c.offset.toInt.toNat + (k + 1) by omega]
      · have hoff : (c.turn opts answer).offset = c.offset := offset_turn_error herr
        have hih := ih hrest (by rw [hoff]; exact h0)
        rw [hoff] at hih
        rw [Consumer.receives, gained, herr, Utils.err, List.nil_append]
        exact hih

/-- The answer brings no message. -/
def waits (answer : GetMessageResponse) : Bool :=
  match answer.error with
  | .ok _ => false
  | .error _ => true

theorem length_gained (o : Int64) (answer : GetMessageResponse) :
    (gained o answer).length + (if waits answer then 1 else 0) = 1 := by
  unfold gained waits
  split <;> rfl

theorem length_receives (opts : ConsumerOptions) (c : Consumer)
    (answers : List GetMessageResponse) :
    (Consumer.receives opts c answers).length + answers.countP waits = answers.length := by
  induction answers generalizing c with
  | nil => rfl
  | cons answer answers ih =>
      have hih := ih (c.turn opts answer)
      have hone := length_gained c.offset answer
      rw [Consumer.receives, List.length_append, List.countP_cons, List.length_cons]
      omega

/-- A loop that starts at `s` and is called often enough ends with the messages of its first `n`
offsets, and no others, exactly if it starts at 0 or gets its only message with the first answer. -/
theorem Hears.stops_iff {s : Int64} (h : Hears opts msgs (start s) answers) (hs : 0 ≤ s.toInt)
    (hn : 0 < opts.nbOffset)
    (hcalls : (answers.foldl (Consumer.turn opts) (start s)).stop = false →
      opts.nbOffset.toInt ≤ (Consumer.receives opts (start s) answers).length) :
    (answers.foldl (Consumer.turn opts) (start s)).stop = true ∧
        ((Consumer.receives opts (start s) answers).length : ℤ) = opts.nbOffset.toInt ↔
      s = 0 ∨ opts.nbOffset = 1 ∧ ∃ a as, answers = a :: as ∧ a.error = .ok () := by
  obtain ⟨hoff, hiff, hmax, hone⟩ := h.final hn
  have hn' : 0 < opts.nbOffset.toInt := Int64.lt_iff_toInt_lt.mp hn
  have hstart : (start s).offset = s := rfl
  rw [hstart] at hoff hmax hone
  have hne : answers ≠ [] := by
    rintro rfl
    have hle := hcalls rfl
    simp only [Consumer.receives, List.length_nil] at hle
    omega
  have hstop : (answers.foldl (Consumer.turn opts) (start s)).stop = true := by
    by_contra hgo
    have hle := hcalls (by simpa using hgo)
    exact hgo ((hiff hne).mpr (by omega))
  have hge := (hiff hne).mp hstop
  rw [and_iff_right hstop]
  constructor
  · intro hlen
    by_cases h0 : s = 0
    · exact Or.inl h0
    · have hpos : s.toInt ≠ 0 := fun he => h0 (Int64.toInt_inj.mp he)
      have hn1 : opts.nbOffset.toInt = 1 := by omega
      have hshort := hone (by omega)
      obtain ⟨a, as, rfl⟩ := List.exists_cons_of_ne_nil hne
      obtain rfl : as = [] := List.length_eq_zero_iff.mp (by simpa using hshort)
      refine Or.inr ⟨Int64.toInt_inj.mp hn1, a, [], rfl, ?_⟩
      rcases h.2.1 with ⟨hok, -⟩ | ⟨⟨msg, herr⟩, -⟩
      · exact hok
      · simp only [Consumer.receives, gained, herr, Utils.err, List.append_nil, List.length_nil] at hlen
        omega
  · rintro (rfl | ⟨hn1, a, as, rfl, hok⟩)
    · rw [show (0 : Int64).toInt = 0 from rfl] at hoff hmax
      omega
    · have hlen : 1 ≤ (Consumer.receives opts (start s) (a :: as)).length := by
        rw [Consumer.receives, gained, hok]
        simp
      rw [hn1, show (1 : Int64).toInt = 1 from rfl] at hmax ⊢
      omega

end Consumer

/-! ## The consumer and the broker -/

section Limit

variable {r : RawPath} {B : Path} {w : World} {st : Store} {opts : ConsumerOptions} {s : Int64}
  {srv : Server} {event : NetEvent} {es : List NetEvent}

/-- If the event answers the call of the consumer, its offset is one the partition holds, or one it
does not hold yet while the consumer waits for messages. -/
def Awaits (opts : ConsumerOptions) (s : Client Consumer × Server) (event : NetEvent) : Prop :=
  event = .attempt .answered → s.1.state.stop = false →
    Fetchable s.2.broker opts.key s.1.state.offset ∨
      (∃ p, s.2.broker.topics.lookup opts.key = some p ∧
        p.newestOffset ≤ s.1.state.offset.toInt) ∧ opts.stopNoMsg = false

/-- The number of attempts that are answered. -/
def answers : List NetEvent → ℕ
  | [] => 0
  | .attempt .answered :: es => answers es + 1
  | _ :: es => answers es

/-- The answers a client gets to its fetches. -/
def heard (t : List (NetEvent × Option (Request × Response))) : List GetMessageResponse :=
  t.filterMap (fun
    | (.attempt .answered, some (_, .message response)) => some response
    | _ => none)

/-- The messages a client receives, with their offsets. -/
def received (t : List (NetEvent × Option (Request × Response))) : List (ℤ × Payload) :=
  t.flatMap (fun
    | (.attempt .answered, some (.getMessage _ o, .message response)) => Consumer.gained o response
    | _ => [])

/-- The first call that is answered finds its offset held. -/
def FirstHeld (opts : ConsumerOptions) : Client Consumer × Server → List NetEvent → Prop
  | _, [] => False
  | s, .attempt .answered :: _ => Fetchable s.2.broker opts.key s.1.state.offset
  | s, event :: es => FirstHeld opts ((consumer opts).step s event).2 es

theorem firstHeld_skip {s : Client Consumer × Server} (h : event ≠ .attempt .answered) :
    FirstHeld opts s (event :: es) ↔ FirstHeld opts ((consumer opts).step s event).2 es := by
  rcases event with request | (_ | _ | _ | _) | n
  · rfl
  · rfl
  · rfl
  · rfl
  · exact absurd rfl h
  · rfl

theorem answers_skip (h : event ≠ .attempt .answered) : answers (event :: es) = answers es := by
  rcases event with request | (_ | _ | _ | _) | n
  · rfl
  · rfl
  · rfl
  · rfl
  · exact absurd rfl h
  · rfl

theorem heard_skip {x : Option (Request × Response)}
    {t : List (NetEvent × Option (Request × Response))} (h : event = .attempt .answered → x = none) :
    heard ((event, x) :: t) = heard t := by
  rcases event with request | (_ | _ | _ | _) | n
  · rfl
  · rfl
  · rfl
  · rfl
  · rw [h rfl]
    rfl
  · rfl

theorem received_skip {x : Option (Request × Response)}
    {t : List (NetEvent × Option (Request × Response))} (h : event = .attempt .answered → x = none) :
    received ((event, x) :: t) = received t := by
  rcases event with request | (_ | _ | _ | _) | n
  · rfl
  · rfl
  · rfl
  · rfl
  · rw [h rfl]
    rfl
  · rfl

/-- What is heard in a run that takes the consumer from `c` to `c'` with `calls` answered calls. -/
structure Listens (opts : ConsumerOptions) (msgs : List Payload) (c c' : Consumer) (calls : ℕ)
    (t : List (NetEvent × Option (Request × Response))) : Prop where
  hears : Consumer.Hears opts msgs c (heard t)
  final : c' = (heard t).foldl (Consumer.turn opts) c
  received : received t = Consumer.receives opts c (heard t)
  calls : c'.stop = false → (heard t).length = calls

theorem Listens.nil (opts : ConsumerOptions) (msgs : List Payload) (c : Consumer) :
    Listens opts msgs c c 0 [] := ⟨trivial, rfl, rfl, fun _ => rfl⟩

/-- Nothing is heard in an event that does not answer the consumer. -/
theorem Listens.cons {msgs : List Payload} {c c' : Consumer} {calls : ℕ}
    {t : List (NetEvent × Option (Request × Response))}
    {x : Option (Request × Response)} (h : Listens opts msgs c c' calls t)
    (hx : event = .attempt .answered → x = none ∧ c'.stop = true) :
    Listens opts msgs c c' (answers [event] + calls) ((event, x) :: t) := by
  have hheard : heard ((event, x) :: t) = heard t := heard_skip (fun he => (hx he).1)
  refine ⟨hheard ▸ h.hears, hheard ▸ h.final, ?_, fun hstop => ?_⟩
  · rw [hheard, received_skip (fun he => (hx he).1)]
    exact h.received
  · have hne : event ≠ .attempt .answered := by
      intro he
      rw [(hx he).2] at hstop
      cases hstop
    rw [hheard, h.calls hstop, answers_skip hne, answers, Nat.zero_add]

theorem Listens.answer {msgs : List Payload} {c c' : Consumer} {calls : ℕ} {key : TopicPartition}
    {answer : GetMessageResponse} {t : List (NetEvent × Option (Request × Response))}
    (hstop : c.stop = false) (hexp : Consumer.Expected opts msgs c.offset answer)
    (h : Listens opts msgs (c.turn opts answer) c' calls t) :
    Listens opts msgs c c' (calls + 1)
      ((.attempt .answered, some (.getMessage key c.offset, .message answer)) :: t) where
  hears := ⟨hstop, hexp, h.hears⟩
  final := h.final
  received := by
    have hrec := h.received
    unfold MyKafka.received at hrec ⊢
    rw [List.flatMap_cons, hrec]
    rfl
  calls hgo := congrArg Nat.succ (h.calls hgo)

theorem Listens.stopped {msgs : List Payload} {c c' : Consumer} {calls : ℕ}
    {t : List (NetEvent × Option (Request × Response))} (h : Listens opts msgs c c' calls t)
    (hstop : c.stop = true) : c'.stop = true := by
  have hempty : heard t = [] := by
    by_contra hne
    rw [h.hears.stop hne] at hstop
    cases hstop
  rw [h.final, hempty]
  exact hstop

theorem Serves.fetch_early {b : Broker} {key : TopicPartition} {p : Partition} {o : Int64}
    (h : Serves r B b w st) (hlen : ∀ e, st key = some e → e.log.length < 2 ^ 63)
    (hp : b.topics.lookup key = some p) (ho : p.newestOffset ≤ o.toInt) :
    ∃ msg, (b.getMessage key o w).1.error = Utils.err .noMessage msg := by
  have hm := h.mirrors
  obtain ⟨-, hmsg⟩ := h.getMessage hlen o
  cases he : st key with
  | none =>
      rw [(hm.absent key he).1] at hp
      cases hp
  | some e =>
      obtain ⟨p', -, hp', hlog, -⟩ := hm.present key e he
      obtain rfl := Option.some.inj (hp.symm.trans hp')
      obtain ⟨-, hnew, -⟩ := hlog.reads hm.calm
      rw [he] at hmsg
      have hreads : Reads e o (b.getMessage key o w).1 := hmsg
      exact hreads.noMessage.mpr (hnew ▸ ho)

/-- A consumer that waits is answered as it expects. -/
theorem Serves.expected (h : Serves r B srv.broker srv.world st) {c : Client Consumer}
    (hlen : ∀ e, st opts.key = some e → e.log.length < 2 ^ 63)
    (hwait : Awaits opts (c, srv) (.attempt .answered)) (hstop : c.state.stop = false) :
    Consumer.Expected opts (st.logs.messages opts.key) c.state.offset
        (srv.broker.getMessage opts.key c.state.offset srv.world).1 ∧
      ((srv.broker.getMessage opts.key c.state.offset srv.world).1.error = .ok () ↔
        Fetchable srv.broker opts.key c.state.offset) := by
  obtain ⟨hheld, hmissing⟩ := h.fetch hlen c.state.offset
  rcases hwait rfl hstop with hfetch | ⟨⟨p, hp, ho⟩, hstopNoMsg⟩
  · exact ⟨Or.inl (hheld hfetch), iff_of_true (hheld hfetch).1 hfetch⟩
  · obtain ⟨msg, herr⟩ := h.fetch_early hlen hp ho
    refine ⟨Or.inr ⟨⟨msg, herr⟩, hstopNoMsg⟩, iff_of_false ?_ ?_⟩
    · rw [herr]
      rintro ⟨⟩
    · intro hfetch
      have hok := (hheld hfetch).1
      rw [herr] at hok
      cases hok

theorem ServesRun.consumer_listens : ∀ {c : Client Consumer} {srv : Server} {st : Store},
    ServesRun r B (consumer opts) c srv st es → Keeping opts.key es →
    Runs.Always (consumer opts).step (Awaits opts) (c, srv) es →
    let t := Runs.trace (consumer opts).step (c, srv) es
    let msgs := ((executed t).foldl History.next st.logs).messages opts.key
    st.logs.messages opts.key <+: msgs ∧
      Listens opts msgs c.state (Runs.final (consumer opts).step (c, srv) es).1.state
        (answers es) t ∧
      (c.state.stop = false →
        (FirstHeld opts (c, srv) es ↔ ∃ a as, heard t = a :: as ∧ a.error = .ok ())) := by
  induction es with
  | nil =>
      intro c srv st _ _ _
      exact ⟨List.prefix_refl _, .nil _ _ _, fun _ => iff_of_false id (by rintro ⟨a, as, ⟨⟩, -⟩)⟩
  | cons event es ih =>
      intro c srv st h hkeep hwait t msgs
      have hkeep' : Keeping opts.key es := fun request hm => hkeep request (List.mem_cons_of_mem _ hm)
      have hwait' := hwait.2
      have hanswers : answers (event :: es) = answers [event] + answers es := by
        rcases event with request | (_ | _ | _ | _) | n <;> simp [answers, Nat.add_comm]
      rcases h.turn with ⟨hexe, hstep, h'⟩ | ⟨request, st', hexe, hstep, hn, h'⟩
      · rw [hstep] at hwait'
        obtain ⟨hgrows, hl, hfirst⟩ := ih h' hkeep' hwait'
        have hstopped : event = .attempt .answered → c.state.stop = true := by
          rintro rfl
          exact stopped_of_executes hexe
        rw [ClientProgram.state_idle] at hl hfirst
        simp only [t, msgs, Runs.trace, Runs.final, hstep, executed, List.filterMap_cons]
        refine ⟨hgrows, ?_, fun hgo => ?_⟩
        · rw [hanswers]
          exact hl.cons (fun he => ⟨rfl, hl.stopped (hstopped he)⟩)
        · have hne : event ≠ .attempt .answered := by
            intro he
            rw [hstopped he] at hgo
            cases hgo
          rw [firstHeld_skip hne, hstep, heard_skip (fun _ => rfl)]
          exact hfirst hgo
      · rw [hstep] at hwait'
        obtain ⟨hgrows, hl, hfirst⟩ := ih h' hkeep' hwait'
        have hmono := hn.messages (not_deletes_consumer hkeep hexe)
        rw [hn.logs] at hgrows hl hmono
        simp only [t, msgs, Runs.trace, Runs.final, hstep, executed, List.filterMap_cons,
          List.foldl_cons]
        refine ⟨hmono.trans hgrows, ?_⟩
        by_cases hans : event = .attempt .answered
        · subst hans
          obtain ⟨rfl, hstop⟩ := executes_consumer hexe
          obtain ⟨hexp, hiff⟩ := h.serves.expected (fun e he => h.length_lt he) hwait.1 hstop
          constructor
          · exact Listens.answer hstop (hexp.mono (hmono.trans hgrows)) hl
          · intro _
            rw [FirstHeld, ← hiff]
            constructor
            · exact fun hok => ⟨_, _, rfl, hok⟩
            · rintro ⟨a, as, has, hok⟩
              obtain ⟨rfl, -⟩ := List.cons.inj has
              exact hok
        · have hsame : ((consumer opts).after c (srv.step request).1 event).state = c.state :=
            ClientProgram.state_after hans
          rw [hsame] at hl hfirst
          rw [hanswers]
          refine ⟨hl.cons (fun he => absurd he hans), fun hgo => ?_⟩
          rw [firstHeld_skip hans, hstep, heard_skip (fun he => absurd he hans)]
          exact hfirst hgo

end Limit

/-- The consumer has stopped with the messages of `n` offsets from `s` on. -/
structure ReadsExactly (s : Int64) (n : ℤ) (msgs : List Payload) (received : List (ℤ × Payload))
    (c : Consumer) : Prop where
  stopped : c.stop = true
  count : (received.length : ℤ) = n
  messages : received.map (fun l => (l.1, some l.2)) =
    (List.range received.length).map (fun k : ℕ => (s.toInt + k, msgs[s.toInt.toNat + k]?))

/-- From an empty base directory: a consumer with a limit that finds its offsets stored or waits for
them, and whose calls are answered often enough, reads exactly that many messages if and only if it
starts at offset 0, or has the limit 1 and gets the message with its first answer. -/
theorem reads_exactly_iff {w : World} {r : RawPath} {B : Path} {order : KeyOrder}
    {requests : List Request} {opts : ConsumerOptions} {s : Int64} {es : List NetEvent}
    (h : Bare w r B) (hs : 0 ≤ s.toInt) (hn : 0 < opts.nbOffset)
    (hcount : sends requests + sendings es < 2 ^ 63) (hkeep : Keeping opts.key es)
    (hok : Runs.Always Server.step (fun srv request => request.Servable srv.broker)
      (Server.boot r order w) requests)
    (hok' : ServableRun (consumer opts)
      (⟨.start s, []⟩, Runs.final Server.step (Server.boot r order w) requests) es)
    (hwait : Runs.Always (consumer opts).step (Awaits opts)
      (⟨.start s, []⟩, Runs.final Server.step (Server.boot r order w) requests) es) :
    let srv := Runs.final Server.step (Server.boot r order w) requests
    let t := Runs.trace (consumer opts).step (⟨.start s, []⟩, srv) es
    let history := (Runs.trace Server.step (Server.boot r order w) requests ++
      executed t).foldl History.next (fun _ => none)
    opts.nbOffset.toInt + (heard t).countP Consumer.waits ≤ answers es →
    (ReadsExactly s opts.nbOffset.toInt (history.messages opts.key) (received t)
        (Runs.final (consumer opts).step (⟨.start s, []⟩, srv) es).1.state ↔
      s = 0 ∨ opts.nbOffset = 1 ∧ FirstHeld opts (⟨.start s, []⟩, srv) es) := by
  intro srv t history hcalls
  obtain ⟨st, htrace, hserves, hshort⟩ := (h.boot order).run hcount (fun key e he => by cases he) hok
  have hrun : ServesRun r B _ _ srv st es := ⟨hserves, by omega, hshort, hok'⟩
  obtain ⟨-, hl, hfirst⟩ := hrun.consumer_listens hkeep hwait
  have hhistory : history = (executed t).foldl History.next st.logs := by
    rw [Store.logs_trace htrace, ← List.foldl_append]
    rfl
  rw [← hhistory] at hl
  have hl : Listens opts (history.messages opts.key) (.start s)
    (Runs.final (consumer opts).step (⟨.start s, []⟩, srv) es).1.state (answers es) t := hl
  have hlen := Consumer.length_receives opts (.start s) (heard t)
  have hiff := hl.hears.stops_iff hs hn (by
    intro hgo
    have hall := hl.calls (by rw [hl.final]; exact hgo)
    omega)
  rw [← hl.final, ← hl.received] at hiff
  rw [hfirst rfl, ← hiff]
  constructor
  · exact fun hr => ⟨hr.stopped, hr.count⟩
  · rintro ⟨hstop, hnum⟩
    refine ⟨hstop, hnum, ?_⟩
    rw [hl.received]
    exact hl.hears.receives hs

theorem exists_of_any {α : Type} {x : Option α} {P : α → Prop} [DecidablePred P]
    (h : x.any (fun a => decide (P a)) = true) : ∃ a, x = some a ∧ P a := by
  simpa [Option.any_eq_true] using h

/-- A consumer that waits for its second message. -/
theorem reads_exactly_iff_two :
    let requests : List Request := [.createPartition ⟨"logs".toList, 2, 100, 0, 0⟩]
    let es : List NetEvent := [.other (.sendMessage ⟨"logs".toList, 2⟩ [1]), .attempt .answered,
      .attempt .answered, .other (.sendMessage ⟨"logs".toList, 2⟩ [2]), .attempt .answered]
    let opts : ConsumerOptions := ⟨⟨"logs".toList, 2⟩, 2, false⟩
    let srv := Runs.final Server.step
      (Server.boot ⟨[], []⟩ ⟨id, fun _ => .refl _⟩ (World.blank 0)) requests
    ∃ msgs, ReadsExactly 0 2 msgs (received (Runs.trace (consumer opts).step (⟨.start 0, []⟩, srv) es))
      (Runs.final (consumer opts).step (⟨.start 0, []⟩, srv) es).1.state := by
  intro requests es opts srv
  have hkeep : Keeping opts.key es := by
    intro request hm
    simp only [es, List.mem_cons, NetEvent.other.injEq, reduceCtorEq, List.not_mem_nil, or_false,
      false_or] at hm
    rcases hm with rfl | rfl <;> exact id
  have hok : Runs.Always Server.step (fun srv request => request.Servable srv.broker)
      (Server.boot ⟨[], []⟩ ⟨id, fun _ => .refl _⟩ (World.blank 0)) requests :=
    ⟨Or.inr ⟨⟨by decide, by decide⟩, by decide⟩, trivial⟩
  have hfetch : ∀ (s : Client Consumer × Server) request,
      (consumer opts).executes s.1 (.attempt .answered) = some request →
      request.Servable s.2.broker := by
    intro s request hexe
    obtain ⟨rfl, -⟩ := executes_consumer hexe
    trivial
  have hok' : ServableRun (consumer opts) (⟨.start 0, []⟩, srv) es := by
    refine ⟨?_, ?_, ?_, ?_, ?_, trivial⟩
    · rintro _ ⟨⟩
      exact ⟨Nat.lt_of_sub_pos (by decide), ready_of_all (by decide +kernel)⟩
    · exact hfetch _
    · exact hfetch _
    · rintro _ ⟨⟩
      exact ⟨Nat.lt_of_sub_pos (by decide), ready_of_all (by decide +kernel)⟩
    · exact hfetch _
  have hwait : Runs.Always (consumer opts).step (Awaits opts) (⟨.start 0, []⟩, srv) es := by
    refine ⟨?_, ?_, ?_, ?_, ?_, trivial⟩
    · rintro ⟨⟩
    · intro _ _
      exact Or.inl (exists_of_any (by decide +kernel))
    · intro _ _
      exact Or.inr ⟨exists_of_any (by decide +kernel), rfl⟩
    · rintro ⟨⟩
    · intro _ _
      exact Or.inl (exists_of_any (by decide +kernel))
  exact ⟨_, (reads_exactly_iff (Bare.blank 0) (by decide) (by decide) (by decide) hkeep hok hok' hwait
    (by decide +kernel)).mpr (Or.inl rfl)⟩

/-- From offset 1 on the consumer stops one message too early. -/
theorem stops_early :
    let requests : List Request := [.createPartition ⟨"logs".toList, 2, 100, 0, 0⟩,
      .sendMessage ⟨"logs".toList, 2⟩ [1], .sendMessage ⟨"logs".toList, 2⟩ [2],
      .sendMessage ⟨"logs".toList, 2⟩ [3]]
    let es : List NetEvent := [.attempt .answered, .attempt .answered]
    let opts : ConsumerOptions := ⟨⟨"logs".toList, 2⟩, 2, false⟩
    let srv := Runs.final Server.step
      (Server.boot ⟨[], []⟩ ⟨id, fun _ => .refl _⟩ (World.blank 0)) requests
    let c := (Runs.final (consumer opts).step (⟨.start 1, []⟩, srv) es).1.state
    c.stop = true ∧ c.printed = [(1, [2])] ∧ ∀ msgs, ¬ ReadsExactly 1 2 msgs
      (received (Runs.trace (consumer opts).step (⟨.start 1, []⟩, srv) es)) c := by
  intro requests es opts srv c
  have hreceived : received (Runs.trace (consumer opts).step (⟨.start 1, []⟩, srv) es) = [(1, [2])] := by
    decide +kernel
  refine ⟨by decide +kernel, by decide +kernel, fun msgs h => ?_⟩
  have hcount := h.count
  rw [hreceived] at hcount
  exact absurd hcount (by decide)

end MyKafka
