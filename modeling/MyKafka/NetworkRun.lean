import MyKafka.NetworkStep
import MyKafka.SmallSegments

/-!
# What the clients of a network share

While nobody deletes its key, the log of a key takes up the lines of all its producers, the lines of
each in their order but for requests that come late, and all its consumers read this one log without
a gap.
-/

namespace MyKafka

open Posix MyKafka.Partition

variable {r : RawPath} {B : Path} {w : World} {srv : Server} {st st' : Store} {key : TopicPartition}
  {request : Request} {response : Response} {ι κ : Type}

/-! ## One step of the log -/

/-- A step keeps the messages of the key, or appends one and answers with its offset. -/
theorem StoreNext.messages_cases (key : TopicPartition) (h : StoreNext st request response st')
    (hkeep : ¬ request.Deletes key) :
    (st'.logs.messages key = st.logs.messages key ∧
      ∀ m answer, request = .sendMessage key m → response = .sent answer → answer.error ≠ .ok ()) ∨
    ∃ m, request = .sendMessage key m ∧
      response = .sent ⟨.ok (), (st.logs.messages key).length⟩ ∧
      st'.logs.messages key = st.logs.messages key ++ [m] := by
  have hmessages : ∀ {v : Store} {e : Entry}, v key = some e → v.logs.messages key = e.log := by
    intro v e he
    rw [History.messages, Store.logs_some he, Option.getD_some]
  have hother : ∀ {v v' : Store}, v' key = v key → v'.logs.messages key = v.logs.messages key := by
    intro v v' heq
    rw [History.messages, History.messages, Store.logs, Store.logs, heq]
  cases h with
  | tick | createAgain | deleteUnknown | getMessage | getOffsets =>
      exact Or.inl ⟨rfl, by simp⟩
  | @create creation hnone =>
      refine Or.inl ⟨?_, by simp⟩
      by_cases hk : key = creation.key
      · subst hk
        rw [hmessages (Function.update_self ..), History.messages, Store.logs, hnone]
        rfl
      · exact hother (Function.update_of_ne hk ..)
  | @delete key' =>
      exact Or.inl ⟨hother (Function.update_of_ne (fun heq => hkeep heq.symm) ..), by simp⟩
  | deleteTopic topic =>
      exact Or.inl ⟨hother (if_neg (show ¬ key.topic = topic from hkeep)), by simp⟩
  | @send key' e m n he =>
      by_cases hk : key = key'
      · subst hk
        refine Or.inr ⟨m, rfl, ?_, ?_⟩
        · rw [hmessages he]
        · rw [hmessages he, hmessages (Function.update_self ..)]
          rfl
      · refine Or.inl ⟨hother (Function.update_of_ne hk ..), ?_⟩
        rintro m' answer heq -
        obtain ⟨rfl, -⟩ := Request.sendMessage.inj heq
        exact absurd rfl hk
  | sendUnknown =>
      refine Or.inl ⟨rfl, ?_⟩
      rintro m' answer - hresponse
      obtain rfl := Response.sent.inj hresponse
      exact fun herr => by cases herr
  | restart hages =>
      refine Or.inl ⟨?_, by simp⟩
      have ha := hages key
      rw [History.messages, History.messages, Store.logs, Store.logs]
      generalize st key = v, st' key = v' at ha ⊢
      cases ha with
      | present => rfl
      | absent => rfl

/-! ## What a consumer prints -/

/-- What is not fetched is empty. -/
theorem Serves.fetch_empty {b : Broker} (h : Serves r B b w st)
    (hlen : ∀ e, st key = some e → e.log.length < 2 ^ 63) (o : Int64)
    (hfetch : ¬ Fetchable b key o) : (b.getMessage key o w).1.payload = [] := by
  have hm := h.mirrors
  unfold Broker.getMessage ConfigManager.get
  cases he : st key with
  | none =>
      rw [(hm.absent key he).2]
      rfl
  | some e =>
      obtain ⟨p, cfg, hp, hlog, hcfg, hinfo⟩ := hm.present key e he
      obtain ⟨cs, hrep, -, -, hold⟩ := hlog.chunks
      rw [hcfg]
      dsimp only
      rw [hinfo.info]
      split_ifs with hlt
      · rfl
      · rw [Int64.lt_iff_toInt_lt, toInt_commit (hlen e he)] at hlt
        rw [hp]
        dsimp only
        have hout : o.toInt < p.oldestOffset := by
          by_contra hle
          refine hfetch ((h.fetchable o).mpr ⟨e, he, ?_, by omega⟩)
          rw [hrep.oldest, ← hold] at hle
          omega
        obtain ⟨msg, hread⟩ := readAt_dropped (w := w) hrep hout
        rw [hread]

/-- The offsets from `s` up to where it stands were printed one after the other, each with its
message; the other lines are empty or repeat the log. -/
def ReadsFrom (s : Int64) (log : List Payload) (c : Consumer) : Prop :=
  (∃ n : ℕ, c.offset.toInt = s.toInt + n ∧
    ((List.range n).map fun k : ℕ => (s.toInt + k, log[s.toInt.toNat + k]?)).Sublist
      (c.printed.map fun l => (l.1, some l.2))) ∧
    ∀ o payload, (o, payload) ∈ c.printed → payload = [] ∨ 0 ≤ o ∧ log[o.toNat]? = some payload

namespace ReadsFrom

variable {s : Int64} {log log' : List Payload} {c : Consumer} {opts : ConsumerOptions}
  {answer : GetMessageResponse}

theorem start (s : Int64) (log : List Payload) : ReadsFrom s log (Consumer.start s) :=
  ⟨⟨0, by simp [Consumer.start], List.nil_sublist _⟩, fun o payload h => by cases h⟩

theorem mono (h : ReadsFrom s log c) (hpre : log <+: log') : ReadsFrom s log' c := by
  obtain ⟨⟨n, hoff, hsub⟩, honly⟩ := h
  refine ⟨⟨n, hoff, ?_⟩, fun o payload hmem => ?_⟩
  · have hsame : ((List.range n).map fun k : ℕ => (s.toInt + k, log'[s.toInt.toNat + k]?)) =
        (List.range n).map fun k : ℕ => (s.toInt + k, log[s.toInt.toNat + k]?) := by
      refine List.map_congr_left fun k hk => ?_
      obtain ⟨l, -, hl⟩ := List.mem_map.mp (hsub.subset (List.mem_map_of_mem hk))
      rw [← (Prod.mk.inj hl).2, getElem?_mono hpre (Prod.mk.inj hl).2.symm]
    rw [hsame]
    exact hsub
  · rcases honly o payload hmem with hempty | ⟨h0, hget⟩
    · exact Or.inl hempty
    · exact Or.inr ⟨h0, getElem?_mono hpre hget⟩

theorem turn_ok (h : ReadsFrom s log c) (hs : 0 ≤ s.toInt) (h1 : c.offset.toInt < 2 ^ 63 - 1)
    (hok : answer.error = .ok ()) (hmsg : log[c.offset.toInt.toNat]? = some answer.payload) :
    ReadsFrom s log (c.turn opts answer) := by
  obtain ⟨⟨n, hoff, hsub⟩, honly⟩ := h
  refine ⟨⟨n + 1, ?_, ?_⟩, fun o payload hmem => ?_⟩
  · rw [Consumer.offset_turn_ok hok, Consumer.toInt_succ (by omega) h1, hoff]
    push_cast
    ring
  · have hplace : s.toInt.toNat + n = c.offset.toInt.toNat := by omega
    rw [Consumer.printed_turn, List.map_append, List.range_succ, List.map_append,
      List.map_singleton, List.map_singleton, hplace, hmsg, hoff]
    exact hsub.append (List.Sublist.refl _)
  · rw [Consumer.printed_turn] at hmem
    rcases List.mem_append.mp hmem with hmem | hmem
    · exact honly o payload hmem
    · obtain ⟨rfl, rfl⟩ := Prod.mk.inj (List.mem_singleton.mp hmem)
      exact Or.inr ⟨by omega, hmsg⟩

theorem turn_error (h : ReadsFrom s log c) {err : Error} (herr : answer.error = .error err)
    (hempty : answer.payload = []) : ReadsFrom s log (c.turn opts answer) := by
  obtain ⟨⟨n, hoff, hsub⟩, honly⟩ := h
  refine ⟨⟨n, ?_, ?_⟩, fun o payload hmem => ?_⟩
  · rw [Consumer.offset_turn_error herr, hoff]
  · rw [Consumer.printed_turn, List.map_append]
    exact hsub.trans (List.sublist_append_left ..)
  · rw [Consumer.printed_turn] at hmem
    rcases List.mem_append.mp hmem with hmem | hmem
    · exact honly o payload hmem
    · obtain ⟨rfl, rfl⟩ := Prod.mk.inj (List.mem_singleton.mp hmem)
      exact Or.inl hempty

end ReadsFrom

/-- Where the loop of the consumer started: at the offset it was given, or at the first one it was
told. -/
def StartsAt (offset s : Int64) : Option GetOffsetsResponse → Prop
  | none => s = offset
  | some response => offset < 0 ∧ response.error = .ok () ∧ s.toInt = response.firstOffset

/-- What the consumer makes of the log. -/
def ConsumerMain.Follows (offset : Int64) (log : List Payload) : ConsumerMain → Prop
  | .asking => offset < 0
  | .reading offsets c => ∃ s : Int64, 0 ≤ s.toInt ∧ StartsAt offset s offsets ∧ ReadsFrom s log c
  | .failed _ => offset < 0

namespace ConsumerMain

variable {offset : Int64} {log log' : List Payload} {c : ConsumerMain} {opts : ConsumerOptions}

theorem Follows.start (offset : Int64) (log : List Payload) :
    (ConsumerMain.start offset).Follows offset log := by
  unfold ConsumerMain.start
  split_ifs with h
  · exact h
  · rw [Int64.lt_iff_toInt_lt] at h
    exact ⟨offset, not_lt.mp h, rfl, .start offset log⟩

theorem Follows.mono (h : c.Follows offset log) (hpre : log <+: log') : c.Follows offset log' := by
  cases c with
  | asking => exact h
  | reading offsets c =>
      obtain ⟨s, hs, hstart, hreads⟩ := h
      exact ⟨s, hs, hstart, hreads.mono hpre⟩
  | failed e => exact h

theorem Follows.answered (h : c.Follows offset (st.logs.messages opts.key))
    (hserves : Serves r B srv.broker srv.world st)
    (hlen : ∀ e, st opts.key = some e → e.log.length < 2 ^ 63)
    (hreq : (consumerMain opts).request c = some request) :
    ((consumerMain opts).resume c (srv.step request).1).Follows offset
      (st.logs.messages opts.key) := by
  cases c with
  | asking =>
      obtain rfl := Option.some.inj hreq
      have hoffsets := hserves.getOffsets hlen
      show (told (srv.broker.getOffsets opts.key)).Follows offset _
      cases he : st opts.key with
      | none =>
          rw [he] at hoffsets
          obtain ⟨msg, hresponse⟩ := hoffsets
          rw [hresponse]
          exact h
      | some e =>
          rw [he] at hoffsets
          rw [show srv.broker.getOffsets opts.key = _ from hoffsets]
          obtain ⟨p, -, -, hlog, -⟩ := hserves.mirrors.present opts.key e he
          obtain ⟨cs, hrep, -, -, hold⟩ := hlog.chunks
          have hle := hrep.firstBase_le
          have hshort := hlen e he
          have hfirst : (Int64.ofInt e.oldest).toInt = e.oldest :=
            Int64.toInt_ofInt_of_le (by omega) (by omega)
          exact ⟨.ofInt e.oldest, by omega, ⟨h, rfl, hfirst⟩, .start _ _⟩
  | reading offsets c =>
      obtain ⟨s, hs, hstart, hreads⟩ := h
      simp only [consumerMain, consumer] at hreq
      split_ifs at hreq
      obtain rfl := Option.some.inj hreq
      refine ⟨s, hs, hstart, ?_⟩
      show ReadsFrom s _ (c.turn opts (srv.broker.getMessage opts.key c.offset srv.world).1)
      obtain ⟨hheld, hmissing⟩ := hserves.fetch hlen c.offset
      by_cases hfetch : Fetchable srv.broker opts.key c.offset
      · obtain ⟨hok, -, h1, hmsg⟩ := hheld hfetch
        exact hreads.turn_ok hs h1 hok hmsg
      · obtain ⟨err, herr⟩ := hmissing hfetch
        exact hreads.turn_error herr (hserves.fetch_empty hlen c.offset hfetch)
  | failed e => cases hreq

end ConsumerMain

/-! ## Whose message it is -/

/-- A message that the log took up: in which event, in whose call and where. -/
structure Sent (ι κ : Type) where
  event : NetworkEvent ι κ
  stamp : Stamp ι
  payload : Payload
  offset : ℤ

/-- The message a step appends to the log of the key. -/
def sent? (key : TopicPartition) :
    NetworkEvent ι κ × (Stamp ι × Option (Request × Response)) → Option (Sent ι κ)
  | (event, stamp, some (.sendMessage key' payload, .sent ⟨.ok _, offset⟩)) =>
    if key' = key then some ⟨event, stamp, payload, offset⟩ else none
  | _ => none

/-- The messages a run appends to the log of the key. -/
def sentTo (key : TopicPartition)
    (t : List (NetworkEvent ι κ × (Stamp ι × Option (Request × Response)))) : List (Sent ι κ) :=
  t.filterMap (sent? key)

theorem sentTo_cons (key : TopicPartition)
    (x : NetworkEvent ι κ × (Stamp ι × Option (Request × Response)))
    (t : List (NetworkEvent ι κ × (Stamp ι × Option (Request × Response)))) :
    sentTo key (x :: t) = (sent? key x).toList ++ sentTo key t := by
  rw [sentTo, sentTo, List.filterMap_eq_flatMap_toList, List.filterMap_eq_flatMap_toList,
    List.flatMap_cons]

theorem sent?_eq_some {e : NetworkEvent ι κ} {stamp : Stamp ι} {x : Sent ι κ} :
    sent? key (e, stamp, some (request, response)) = some x ↔ ∃ m o,
      request = .sendMessage key m ∧ response = .sent ⟨.ok (), o⟩ ∧ x = ⟨e, stamp, m, o⟩ := by
  constructor
  · intro h
    unfold sent? at h
    split at h
    · rename_i heq
      obtain ⟨rfl, rfl, hx⟩ : _ ∧ _ ∧ _ := by simpa using heq
      obtain ⟨rfl, rfl⟩ := hx
      split_ifs at h with hkey
      subst hkey
      exact ⟨_, _, rfl, rfl, (Option.some.inj h).symm⟩
    · cases h
  · rintro ⟨m, o, rfl, rfl, rfl⟩
    exact if_pos rfl

/-- The lines of the producer that were accepted, and the offsets it was told. -/
def acknowledgements (i : ι) (responses : List SendMessageResponse) : List (Stamp ι × ℤ) :=
  responses.zipIdx.filterMap fun
    | (⟨.ok _, offset⟩, k) => some (some (i, k), offset)
    | (⟨.error _, _⟩, _) => none

theorem acknowledgements_ok (i : ι) (responses : List SendMessageResponse) (o : ℤ) :
    acknowledgements i (responses ++ [⟨.ok (), o⟩]) =
      acknowledgements i responses ++ [(some (i, responses.length), o)] := by
  simp [acknowledgements, List.zipIdx_append]

theorem acknowledgements_error (i : ι) (responses : List SendMessageResponse)
    {answer : SendMessageResponse} (h : answer.error ≠ .ok ()) :
    acknowledgements i (responses ++ [answer]) = acknowledgements i responses := by
  obtain ⟨error, offset⟩ := answer
  cases error with
  | ok => exact absurd rfl h
  | error e => simp [acknowledgements, List.zipIdx_append]

/-- Others sent it if it has no stamp; else it is the line with that number of a producer of the
key, sent in a call the producer has come to. -/
def Sent.Sourced (keys : ι → TopicPartition) (inputs : ι → List Payload) (key : TopicPartition)
    (responses : ι → List SendMessageResponse) (x : Sent ι κ) : Prop :=
  match x.stamp with
  | none => x.event = .other (.sendMessage key x.payload)
  | some (i, k) => x.event.From i ∧ keys i = key ∧ (inputs i)[k]? = some x.payload ∧
      k ≤ (responses i).length

theorem Sent.Sourced.mono {keys : ι → TopicPartition} {inputs : ι → List Payload}
    {responses responses' : ι → List SendMessageResponse} {x : Sent ι κ}
    (h : x.Sourced keys inputs key responses)
    (hle : ∀ i, (responses i).length ≤ (responses' i).length) :
    x.Sourced keys inputs key responses' := by
  unfold Sent.Sourced at h ⊢
  split at h
  · exact h
  · obtain ⟨hfrom, hkey, hline, hk⟩ := h
    exact ⟨hfrom, hkey, hline, hk.trans (hle _)⟩

/-- The messages of a log: each is where its answer says; those of one producer are in the order of
its lines, but for copies that come late; and for each line that was accepted, one message is that
of the answer. -/
structure Stamped [DecidableEq ι] (keys : ι → TopicPartition) (inputs : ι → List Payload)
    (key : TopicPartition) (responses : ι → List SendMessageResponse) (sents : List (Sent ι κ)) :
    Prop where
  place : ∀ (o : ℕ) x, sents[o]? = some x → x.offset = o
  source : ∀ x ∈ sents, x.Sourced keys inputs key responses
  ordered : sents.Pairwise fun x y => x.event.late = false → y.event.late = false →
    ∀ i k k', x.stamp = some (i, k) → y.stamp = some (i, k') → k ≤ k'
  acknowledged : ∀ i, keys i = key →
    (sents.filter fun x => x.event.answers i).map (fun x => (x.stamp, x.offset)) =
      acknowledgements i (responses i)

namespace Stamped

variable [DecidableEq ι] {keys : ι → TopicPartition} {inputs : ι → List Payload}
  {responses : ι → List SendMessageResponse} {sents : List (Sent ι κ)}
  {e : NetworkEvent ι κ} {answer : SendMessageResponse} {x : Sent ι κ}

theorem nil : Stamped keys inputs key (fun _ => []) ([] : List (Sent ι κ)) where
  place o x h := by simp at h
  source x h := by simp at h
  ordered := .nil
  acknowledged i _ := rfl

theorem length_le_answer (i : ι) :
    (responses i).length ≤ (responses i ++ if e.answers i then [answer] else []).length := by
  rw [List.length_append]
  exact Nat.le_add_right ..

/-- The log took up nothing, and the producer whose call was answered was refused. -/
theorem refused (h : Stamped keys inputs key responses sents)
    (hanswer : ∀ i, keys i = key → e.answers i = true → answer.error ≠ .ok ()) :
    Stamped keys inputs key (fun i => responses i ++ if e.answers i then [answer] else []) sents where
  place := h.place
  source x hx := (h.source x hx).mono length_le_answer
  ordered := h.ordered
  acknowledged i hi := by
    rw [h.acknowledged i hi]
    split_ifs with hans
    · rw [acknowledgements_error i _ (hanswer i hi hans)]
    · rw [List.append_nil]

/-- The log took up a message, and the producer whose call was answered was told where. -/
theorem append (h : Stamped keys inputs key responses sents)
    (hplace : x.offset = sents.length) (hsource : x.Sourced keys inputs key responses)
    (hlast : x.event.late = false → ∀ i k, x.stamp = some (i, k) → k = (responses i).length)
    (hanswers : ∀ i, x.event.answers i = true → ∃ k, x.stamp = some (i, k)) :
    Stamped keys inputs key
      (fun i => responses i ++ if x.event.answers i then [⟨.ok (), x.offset⟩] else [])
      (sents ++ [x]) where
  place o y ho := by
    obtain ⟨hlt, -⟩ := List.getElem?_eq_some_iff.mp ho
    rw [List.length_append, List.length_singleton] at hlt
    rcases Nat.lt_succ_iff_lt_or_eq.mp hlt with hlt | rfl
    · rw [List.getElem?_append_left hlt] at ho
      exact h.place o y ho
    · rw [List.getElem?_concat_length] at ho
      rw [← Option.some.inj ho, hplace]
  source y hy := by
    rcases List.mem_append.mp hy with hy | hy
    · exact (h.source y hy).mono length_le_answer
    · rw [List.mem_singleton.mp hy]
      exact hsource.mono length_le_answer
  ordered := by
    rw [List.pairwise_append]
    refine ⟨h.ordered, List.pairwise_singleton .., fun y hy z hz hly hlz i k k' hk hk' => ?_⟩
    rw [List.mem_singleton.mp hz] at hlz hk'
    rw [hlast hlz i k' hk']
    have hy' := h.source y hy
    rw [Sent.Sourced, hk] at hy'
    exact hy'.2.2.2
  acknowledged i hi := by
    rw [List.filter_append, List.map_append, h.acknowledged i hi]
    split_ifs with hans
    · obtain ⟨k, hk⟩ := hanswers i hans
      have hlate : x.event.late = false := by
        cases hev : x.event with
        | arrive c n => rw [hev] at hans; cases hans
        | _ => rfl
      have hfilter : [x].filter (fun x => x.event.answers i) = [x] :=
        List.filter_cons_of_pos (p := fun x : Sent ι κ => x.event.answers i) hans
      rw [acknowledgements_ok, hfilter, List.map_singleton, hk, hlast hlate i k hk]
    · have hfilter : [x].filter (fun x => x.event.answers i) = [] :=
        List.filter_cons_of_neg (p := fun x : Sent ι κ => x.event.answers i) hans
      rw [hfilter, List.map_nil, List.append_nil, List.append_nil]

end Stamped

/-! ## The network -/

namespace Network

/-- What the broker executed, with its answers. -/
def executed (t : List (NetworkEvent ι κ × (Stamp ι × Option (Request × Response)))) :
    List (Request × Response) :=
  t.filterMap fun x => x.2.2

theorem executed_cons (e : NetworkEvent ι κ) (y : Stamp ι × Option (Request × Response))
    (t : List (NetworkEvent ι κ × (Stamp ι × Option (Request × Response)))) :
    executed ((e, y) :: t) = y.2.toList ++ executed t := by
  rw [executed, executed, List.filterMap_eq_flatMap_toList, List.filterMap_eq_flatMap_toList,
    List.flatMap_cons]

variable [DecidableEq ι]

/-- The broker holds the messages that were sent to the key, and its consumers follow them. -/
structure Inv (r : RawPath) (B : Path) (keys : ι → TopicPartition) (inputs : ι → List Payload)
    (opts : κ → ConsumerOptions) (offsets : κ → Int64) (key : TopicPartition) (n : Network ι κ)
    (st : Store) (sents : List (Sent ι κ)) : Prop where
  serves : Serves r B n.server.broker n.server.world st
  reads : ∀ i, (n.producers i).Reads (inputs i)
  stamped : Stamped keys inputs key (fun i => (n.producers i).state.responses) sents
  log : st.logs.messages key = sents.map Sent.payload
  follows : ∀ j, (opts j).key = key →
    (n.consumers j).state.Follows (offsets j) (st.logs.messages key)

variable {keys : ι → TopicPartition} {inputs : ι → List Payload} {opts : κ → ConsumerOptions}
  {offsets : κ → Int64} {n : Network ι κ} {e : NetworkEvent ι κ} {es : List (NetworkEvent ι κ)}
  {sents : List (Sent ι κ)}

theorem Inv.start (hbare : Bare w r B) (order : KeyOrder) (keys : ι → TopicPartition)
    (inputs : ι → List Payload) (opts : κ → ConsumerOptions) (offsets : κ → Int64)
    (key : TopicPartition) : Inv r B keys inputs opts offsets key
      (start inputs offsets (Server.boot r order w)) (fun _ => none) [] where
  serves := hbare.boot order
  reads i := ⟨rfl, fun s hs => by cases hs⟩
  stamped := .nil
  log := rfl
  follows j _ := .start (offsets j) _

theorem Inv.not_deletes (h : Inv r B keys inputs opts offsets key n st sents)
    (hexe : n.executes keys opts e = some request) (hkeep : e.Keeps key) : ¬ request.Deletes key := by
  rcases executes_cases h.reads hexe with ⟨rfl, -⟩ | ⟨i, k, m, -, -, rfl, -⟩ | ⟨j, -, ⟨o, rfl⟩ | rfl⟩
  · exact hkeep
  · exact id
  · exact id
  · exact id

variable [DecidableEq κ]

theorem Inv.idle (h : Inv r B keys inputs opts offsets key n st sents) :
    Inv r B keys inputs opts offsets key (n.idle keys opts e) st sents where
  serves := by
    rw [server_idle]
    exact h.serves
  reads := reads_idle h.reads
  stamped := by
    simp only [producer_idle]
    exact h.stamped
  log := h.log
  follows j hj := by
    rw [consumer_idle]
    exact h.follows j hj

/-- What the step adds to the log, and what the producers are told. -/
theorem Inv.stamped_after (h : Inv r B keys inputs opts offsets key n st sents)
    (hexe : n.executes keys opts e = some request)
    (hn : StoreNext st request (n.server.step request).1 st') (hkeep : ¬ request.Deletes key) :
    let new := (sent? key (e, (n.caller e, some (request, (n.server.step request).1)))).toList
    Stamped keys inputs key (fun i => ((n.after keys opts (n.server.step request).1
      (n.server.step request).2 e).producers i).state.responses) (sents ++ new) ∧
    st'.logs.messages key = (sents ++ new).map Sent.payload := by
  intro new
  have hcases := executes_cases h.reads hexe
  -- An answer is given to the producer that sent the request only.
  have hsender : ∀ i, e.answers i = true → ∃ m, request = .sendMessage (keys i) m := by
    intro i hans
    have hcaller := caller_of_answers (n := n) hans
    rcases hcases with ⟨-, hnone⟩ | ⟨i', k, m, hcaller', -, hm, -⟩ | ⟨j, hnone, -⟩
    · rw [hnone] at hcaller
      cases hcaller
    · rw [hcaller'] at hcaller
      obtain ⟨rfl, -⟩ := Prod.mk.inj (Option.some.inj hcaller)
      exact ⟨m, hm⟩
    · rw [hnone] at hcaller
      cases hcaller
  rcases hn.messages_cases key hkeep with ⟨hsame, hno⟩ | ⟨m, rfl, hresponse, hlog⟩
  · have hnone : sent? key (e, (n.caller e, some (request, (n.server.step request).1))) = none := by
      refine Option.eq_none_iff_forall_ne_some.mpr fun x hx => ?_
      obtain ⟨m, o, rfl, hresponse, -⟩ := sent?_eq_some.mp hx
      exact hno m _ rfl hresponse rfl
    have hnew : new = [] := by
      rw [show new = _ from congrArg Option.toList hnone]
      rfl
    obtain ⟨answer, hanswer⟩ : ∃ answer, ∀ i, e.answers i = true →
        (n.server.step request).1 = .sent answer := by
      by_cases hex : ∃ i, e.answers i = true
      · obtain ⟨i, hans⟩ := hex
        obtain ⟨m, rfl⟩ := hsender i hans
        exact ⟨_, fun _ _ => rfl⟩
      · exact ⟨⟨.ok (), 0⟩, fun i hans => absurd ⟨i, hans⟩ hex⟩
    rw [hnew, List.append_nil, hsame]
    refine ⟨?_, h.log⟩
    simp only [responses_after (hanswer _)]
    refine h.stamped.refused fun i hi hans => ?_
    obtain ⟨m, hm⟩ := hsender i hans
    exact hno m answer (hi ▸ hm) (hanswer i hans)
  · have hlen : (st.logs.messages key).length = sents.length := by rw [h.log, List.length_map]
    rw [hlen] at hresponse
    have hnew : new = [⟨e, n.caller e, m, sents.length⟩] := by
      rw [show new = _ from congrArg Option.toList
        (sent?_eq_some.mpr ⟨m, _, rfl, hresponse, rfl⟩)]
      rfl
    rw [hnew, hlog, h.log, List.map_append, List.map_singleton]
    refine ⟨?_, rfl⟩
    simp only [responses_after (fun _ => hresponse)]
    refine h.stamped.append (x := ⟨e, n.caller e, m, sents.length⟩) rfl ?_ ?_ ?_
    · unfold Sent.Sourced
      rcases hcases with ⟨rfl, -⟩ | ⟨i, k, m', hcaller, hfrom, hm, hline, hle, -⟩ |
        ⟨j, -, ⟨o, ho⟩ | ho⟩
      · rfl
      · obtain ⟨hkey, rfl⟩ := Request.sendMessage.inj hm
        dsimp only
        rw [hcaller]
        exact ⟨hfrom, hkey.symm, hline, hle⟩
      · cases ho
      · cases ho
    · intro hlate i k hk
      rcases hcases with ⟨-, hnone⟩ | ⟨i', k', m', hcaller, -, -, -, -, hlast⟩ | ⟨j, hnone, -⟩
      · rw [hnone] at hk
        cases hk
      · rw [hcaller] at hk
        obtain ⟨rfl, rfl⟩ := Prod.mk.inj (Option.some.inj hk)
        exact hlast hlate
      · rw [hnone] at hk
        cases hk
    · exact fun i hans => ⟨_, caller_of_answers hans⟩

theorem Inv.follows_after (h : Inv r B keys inputs opts offsets key n st sents)
    (hlen : ∀ e, st key = some e → e.log.length < 2 ^ 63)
    (hexe : n.executes keys opts e = some request) (j : κ) (hj : (opts j).key = key) :
    ((n.after keys opts (n.server.step request).1 (n.server.step request).2 e).consumers
      j).state.Follows (offsets j) (st.logs.messages key) := by
  have hold := h.follows j hj
  rcases e with request' | ⟨i, delivery⟩ | ⟨j', delivery⟩ | ⟨i | j', k⟩
  · exact hold
  · exact hold
  · by_cases hjj : j = j'
    · subst hjj
      have hreq : (consumerMain (opts j)).request (n.consumers j).state = some request :=
        ClientProgram.request_of_attempt hexe
      dsimp only [after, setConsumer]
      rw [Function.update_self]
      cases delivery with
      | lost | late | unanswered => exact hold
      | answered =>
          subst hj
          exact hold.answered h.serves hlen hreq
    · dsimp only [after, setConsumer]
      rw [Function.update_of_ne hjj]
      exact hold
  · exact hold
  · refine (Function.forall_update_iff _ fun j (c : Client ConsumerMain) => (opts j).key = key →
      c.state.Follows (offsets j) (st.logs.messages key)).mpr
      ⟨fun hj' => ?_, fun j _ => h.follows j⟩ j hj
    exact h.follows j' hj'

/-- Nothing was executed, or a step of the map. -/
def Moves (st : Store) (x : Option (Request × Response)) (st' : Store) : Prop :=
  st' = st ∧ x = none ∨
    ∃ request response, x = some (request, response) ∧ StoreNext st request response st'

theorem Moves.count {x : Option (Request × Response)} {l : ℕ} (h : Moves st x st')
    (htotal : l + 1 < 2 ^ 63) (hcount : ∀ key e, st key = some e → e.log.length + (l + 1) < 2 ^ 63) :
    ∀ key e, st' key = some e → e.log.length + l < 2 ^ 63 := by
  rcases h with ⟨rfl, -⟩ | ⟨request, response, -, hn⟩
  · intro key e he
    have := hcount key e he
    omega
  · have hone := sends_singleton_le request
    exact hn.count (by omega) htotal hcount

/-- A step of the network keeps the invariant. -/
theorem Inv.step (h : Inv r B keys inputs opts offsets key n st sents)
    (hservable : ∀ request, n.executes keys opts e = some request →
      request.Servable n.server.broker)
    (hroom : ∀ key e, st key = some e → e.log.length + 1 < 2 ^ 63) (hkeep : e.Keeps key) :
    ∃ st', Moves st (n.step keys opts e).1.2 st' ∧
      Inv r B keys inputs opts offsets key (n.step keys opts e).2 st'
        (sents ++ (sent? key (e, (n.step keys opts e).1)).toList) := by
  cases hexe : n.executes keys opts e with
  | none =>
      refine ⟨st, Or.inl ⟨rfl, by rw [step_none hexe]⟩, ?_⟩
      rw [step_none hexe, show sent? key (e, (n.caller e, none)) = none from rfl,
        Option.toList_none, List.append_nil]
      exact h.idle
  | some request =>
      have hdel := h.not_deletes hexe hkeep
      obtain ⟨st', hn, hserves⟩ := h.serves.step (hservable request hexe) fun key e he =>
        (Nat.add_le_add_left (sends_singleton_le request) _).trans_lt (hroom key e he)
      have hlen : ∀ e, st key = some e → e.log.length < 2 ^ 63 := fun e he =>
        (Nat.le_add_right ..).trans_lt (hroom key e he)
      obtain ⟨hstamped, hlog⟩ := h.stamped_after hexe hn hdel
      refine ⟨st', Or.inr ⟨request, _, by rw [step_some hexe], hn⟩, ?_⟩
      rw [step_some hexe]
      refine ⟨?_, reads_after h.reads, hstamped, hlog, fun j hj => ?_⟩
      · rw [server_after]
        exact hserves
      · exact (h.follows_after hlen hexe j hj).mono (hn.messages hdel)

/-- Whatever the broker executes in the run, it can serve. -/
def Servable (keys : ι → TopicPartition) (opts : κ → ConsumerOptions) (n : Network ι κ)
    (es : List (NetworkEvent ι κ)) : Prop :=
  Runs.Always (Network.step keys opts) (fun n e => ∀ request, n.executes keys opts e = some request →
    request.Servable n.server.broker) n es

theorem Inv.run (h : Inv r B keys inputs opts offsets key n st sents)
    (hservable : Servable keys opts n es) (htotal : es.length < 2 ^ 63)
    (hcount : ∀ key e, st key = some e → e.log.length + es.length < 2 ^ 63)
    (hkeep : ∀ e ∈ es, e.Keeps key) :
    ∃ st', Inv r B keys inputs opts offsets key (Runs.final (Network.step keys opts) n es) st'
        (sents ++ sentTo key (Runs.trace (Network.step keys opts) n es)) ∧
      (∀ key e, st' key = some e → e.log.length < 2 ^ 63) ∧
      st'.logs = (executed (Runs.trace (Network.step keys opts) n es)).foldl History.next st.logs := by
  induction es generalizing n st sents with
  | nil =>
      rw [show sentTo key (Runs.trace (Network.step keys opts) n []) = [] from rfl, List.append_nil]
      exact ⟨st, h, hcount, rfl⟩
  | cons e es ih =>
      rw [List.length_cons] at htotal hcount
      obtain ⟨st₁, hnext, h₁⟩ := h.step hservable.1 (fun key e he => by
        have := hcount key e he
        omega) (hkeep e List.mem_cons_self)
      obtain ⟨st', h', hshort, hlogs⟩ := ih h₁ hservable.2 (by omega)
        (hnext.count htotal hcount)
        fun e he => hkeep e (List.mem_cons_of_mem _ he)
      refine ⟨st', ?_, hshort, ?_⟩
      · rw [Runs.trace, sentTo_cons, ← List.append_assoc]
        exact h'
      · rw [hlogs, Runs.trace, executed_cons]
        rcases hnext with ⟨rfl, hnone⟩ | ⟨request, response, hsome, hn⟩
        · rw [hnone]
          rfl
        · rw [hsome, hn.logs]
          rfl

end Network

/-- What others ask for is small. -/
def NetworkEvent.Small : NetworkEvent ι κ → Prop
  | .other request => request.Small
  | .produce _ _ | .consume _ _ | .arrive _ _ => True

namespace Network

variable [DecidableEq ι] [DecidableEq κ] {keys : ι → TopicPartition} {inputs : ι → List Payload}
  {opts : κ → ConsumerOptions} {offsets : κ → Int64} {n : Network ι κ}
  {es : List (NetworkEvent ι κ)}

/-- A broker with small segments can serve lines that are short. -/
theorem servable_of_small (hinputs : ∀ i, ∀ line ∈ inputs i, line.length < 2 ^ 31)
    (h : ServesSmall r B n.server st) (hreads : ∀ i, (n.producers i).Reads (inputs i))
    (htotal : es.length < 2 ^ 63)
    (hcount : ∀ key e, st key = some e → e.log.length + es.length < 2 ^ 63)
    (hsmall : ∀ e ∈ es, e.Small) : Servable keys opts n es := by
  induction es generalizing n st with
  | nil => trivial
  | cons e es ih =>
      rw [List.length_cons] at htotal hcount
      have hrest : ∀ e ∈ es, e.Small := fun e he => hsmall e (List.mem_cons_of_mem _ he)
      have hrequest : ∀ request, n.executes keys opts e = some request → request.Small := by
        intro request hexe
        rcases executes_cases hreads hexe with ⟨rfl, -⟩ | ⟨i, k, m, -, -, rfl, hline, -⟩ |
          ⟨j, -, ⟨o, rfl⟩ | rfl⟩
        · exact hsmall _ List.mem_cons_self
        · exact hinputs i m (List.mem_of_getElem? hline)
        · trivial
        · trivial
      refine ⟨fun request hexe => h.servable (hrequest request hexe), ?_⟩
      cases hexe : n.executes keys opts e with
      | none =>
          have hidle : ServesSmall r B (n.idle keys opts e).server st := by
            rw [server_idle]
            exact h
          rw [step_none hexe]
          refine ih hidle (reads_idle hreads) (by omega) (fun key e he => ?_) hrest
          have := hcount key e he
          omega
      | some request =>
          have hone := sends_singleton_le request
          obtain ⟨st', hn, h'⟩ := h.step (hrequest request hexe) fun key e he => by
            have := hcount key e he
            omega
          rw [step_some hexe]
          refine ih ?_ (reads_after hreads) (by omega) (hn.count (by omega) htotal hcount) hrest
          rw [server_after]
          exact h'

/-- From an empty base directory, with any number of producers and consumers and whatever becomes of
their calls: the log of a key that nobody deletes consists of the lines of its producers and of what
others sent, and all its consumers read it without a gap. -/
theorem clients_share_log (keys : ι → TopicPartition) (inputs : ι → List Payload)
    (opts : κ → ConsumerOptions) (offsets : κ → Int64) (order : KeyOrder) (hbare : Bare w r B)
    (hcount : es.length < 2 ^ 63) (hinputs : ∀ i, ∀ line ∈ inputs i, line.length < 2 ^ 31)
    (hsmall : ∀ e ∈ es, e.Small) (hkeep : ∀ e ∈ es, e.Keeps key) :
    let start := start inputs offsets (Server.boot r order w)
    let n := Runs.final (Network.step keys opts) start es
    let sents := sentTo key (Runs.trace (Network.step keys opts) start es)
    Stamped keys inputs key (fun i => (n.producers i).state.responses) sents ∧
      (∀ j, (opts j).key = key →
        (n.consumers j).state.Follows (offsets j) (sents.map Sent.payload)) ∧
      (∀ p, n.server.broker.topics.lookup key = some p → p.newestOffset = sents.length) ∧
      ∀ o : Int64, Fetchable n.server.broker key o →
        (n.server.broker.getMessage key o n.server.world).1.error = .ok () ∧
        (sents.map Sent.payload)[o.toInt.toNat]? =
          some (n.server.broker.getMessage key o n.server.world).1.payload := by
  intro start n sents
  have hstart := Inv.start hbare order keys inputs opts offsets key
  obtain ⟨st, h, hlen, -⟩ := hstart.run (servable_of_small hinputs (hbare.small order) hstart.reads
    hcount (fun key e he => by cases he) hsmall) hcount (fun key e he => by cases he) hkeep
  rw [List.nil_append] at h
  have hm := h.serves.mirrors
  refine ⟨h.stamped, fun j hj => h.log ▸ h.follows j hj, fun p hp => ?_, fun o hfetch => ?_⟩
  · cases he : st key with
    | none =>
        rw [(hm.absent key he).1] at hp
        cases hp
    | some e =>
        obtain ⟨p', -, hp', hlog, -⟩ := hm.present key e he
        obtain rfl := Option.some.inj (hp.symm.trans hp')
        obtain ⟨-, hnew, -⟩ := hlog.reads hm.calm
        have hmessages : e.log = sents.map Sent.payload := by
          rw [← h.log, History.messages, Store.logs_some he, Option.getD_some]
        rw [hnew, hmessages, List.length_map]
  · obtain ⟨hok, -, -, hmsg⟩ := (h.serves.fetch (hlen key) o).1 hfetch
    exact ⟨hok, h.log ▸ hmsg⟩

/-- Two producers, one of whose requests is late and arrives after the call, and a consumer. -/
theorem two_producers_share_log :
    let key : TopicPartition := ⟨"logs".toList, 2⟩
    let inputs : Bool → List Payload := fun i => if i then [[1], [2]] else [[3]]
    let es : List (NetworkEvent Bool Unit) :=
      [.other (.createPartition ⟨"logs".toList, 2, 100, 0, 0⟩), .produce true .late,
        .produce true .answered, .produce false .unanswered, .arrive (.inl true) 0,
        .produce false .answered, .consume () .answered, .consume () .answered]
    let start := start inputs (fun _ => -1)
      (Server.boot ⟨[], []⟩ ⟨id, fun _ => .refl _⟩ (World.blank 0))
    let run := Network.step (fun _ => key) (fun _ : Unit => ⟨key, 0, false⟩)
    Stamped (fun _ => key) inputs key
        (fun i => ((Runs.final run start es).producers i).state.responses)
        (sentTo key (Runs.trace run start es)) ∧
      ((Runs.final run start es).consumers ()).state.Follows (-1)
        ((sentTo key (Runs.trace run start es)).map Sent.payload) := by
  intro key inputs es start run
  have hinputs : ∀ i, ∀ line ∈ inputs i, line.length < 2 ^ 31 := by decide
  have hsmall : ∀ e ∈ es, e.Small := by
    simp only [es, List.forall_mem_cons, NetworkEvent.Small, true_and]
    exact ⟨⟨⟨⟨by decide, by decide⟩, by decide⟩, by decide, by decide⟩, by simp⟩
  have hkeep : ∀ e ∈ es, e.Keeps key := by
    simp only [es, List.forall_mem_cons, NetworkEvent.Keeps, Request.Deletes, not_false_eq_true,
      true_and]
    simp
  have hcount : es.length < 2 ^ 63 := by decide
  clear_value key inputs es
  obtain ⟨hstamped, hfollows, -⟩ := clients_share_log (fun _ => key) inputs
    (fun _ => ⟨key, 0, false⟩) (fun _ => -1) ⟨id, fun _ => .refl _⟩ (Bare.blank 0) hcount hinputs
    hsmall hkeep
  exact ⟨hstamped, hfollows () rfl⟩

end Network

end MyKafka
