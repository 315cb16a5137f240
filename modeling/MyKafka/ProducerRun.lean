import MyKafka.NetworkRun

/-!
# What a producer appends

A call of a producer appends one message for each of its attempts that the broker executes. So it
appends its line once if the broker executes only the attempt that it answers, and then a producer
whose lines are all accepted appends them once and in their order.
-/

namespace MyKafka

open Posix MyKafka.Partition

variable {r : RawPath} {B : Path} {w : World} {st st' : Store} {key : TopicPartition}
  {request : Request} {response : Response} {ι κ : Type}

theorem eq_of_sublist_of_map_eq {α β : Type} {f : α → β} {l l' : List α} (h : l.Sublist l')
    (heq : l.map f = l'.map f) : l = l' :=
  h.eq_of_length (by rw [← List.length_map f, heq, List.length_map])

/-! ## Answers -/

theorem stamp_of_mem_acknowledgements {i : ι} {responses : List SendMessageResponse}
    {x : Stamp ι × ℤ} (h : x ∈ acknowledgements i responses) :
    ∃ k < responses.length, x.1 = some (i, k) := by
  obtain ⟨⟨⟨error, offset⟩, k⟩, hmem, hx⟩ := List.mem_filterMap.mp h
  have hk := List.snd_lt_of_mem_zipIdx hmem
  cases error with
  | ok =>
      obtain rfl := Option.some.inj hx
      exact ⟨k, hk, rfl⟩
  | error e => cases hx

theorem stamps_acknowledgements {i : ι} {responses : List SendMessageResponse}
    (h : ∀ answer ∈ responses, answer.error = .ok ()) :
    (acknowledgements i responses).map Prod.fst =
      (List.range responses.length).map fun k => some (i, k) := by
  induction responses using List.reverseRecOn with
  | nil => rfl
  | append_singleton responses answer ih =>
      obtain ⟨error, offset⟩ := answer
      obtain rfl : error = .ok () := h _ (List.mem_append_right _ List.mem_cons_self)
      rw [acknowledgements_ok, List.map_append, ih fun answer ha => h answer
        (List.mem_append_left _ ha), List.length_append, List.length_singleton, List.range_succ,
        List.map_append, List.map_singleton, List.map_singleton]

variable [DecidableEq ι]

theorem acknowledgements_filter {i : ι} {responses : List SendMessageResponse} {k : ℕ} {o : ℤ}
    (h : responses[k]? = some ⟨.ok (), o⟩) :
    ((acknowledgements i responses).filter fun x => x.1 = some (i, k)).map Prod.snd = [o] := by
  induction responses using List.reverseRecOn with
  | nil => cases h
  | append_singleton responses answer ih =>
      obtain ⟨hlt, -⟩ := List.getElem?_eq_some_iff.mp h
      rw [List.length_append, List.length_singleton] at hlt
      rcases Nat.lt_succ_iff_lt_or_eq.mp hlt with hlt | rfl
      · rw [List.getElem?_append_left hlt] at h
        by_cases hok : answer.error = .ok ()
        · obtain ⟨error, offset⟩ := answer
          obtain rfl : error = .ok () := hok
          rw [acknowledgements_ok, List.filter_append, List.map_append, ih h]
          simp [hlt.ne']
        · rw [acknowledgements_error i responses hok, ih h]
      · rw [List.getElem?_concat_length] at h
        obtain rfl := Option.some.inj h
        have hnone : (acknowledgements i responses).filter
            (fun x => x.1 = some (i, responses.length)) = [] := by
          refine List.filter_eq_nil_iff.mpr fun x hx heq => ?_
          obtain ⟨k, hk, hstamp⟩ := stamp_of_mem_acknowledgements hx
          rw [hstamp] at heq
          obtain ⟨-, rfl⟩ := Prod.mk.inj (Option.some.inj (of_decide_eq_true heq))
          exact absurd hk (lt_irrefl _)
        rw [acknowledgements_ok, List.filter_append, hnone]
        simp

/-! ## Calls -/

/-- The message is of a call of the producer. -/
def Stamp.writtenBy (i : ι) : Stamp ι → Bool
  | none => false
  | some (j, _) => j = i

/-- The call of this number appended one message: its line, at the offset of the answer. -/
def AppendsOnce (i : ι) (input log : List Payload) (sents : List (Sent ι κ)) (k : ℕ)
    (answer : SendMessageResponse) : Prop :=
  (sents.filter fun x => x.stamp = some (i, k)).map Sent.offset = [answer.offset] ∧
    0 ≤ answer.offset ∧ ∃ line, input[k]? = some line ∧ log[answer.offset.toNat]? = some line

/-- All lines were sent, and accepted. -/
def Producer.Accepted (s : Producer) : Prop :=
  s.lines = [] ∧ ∀ answer ∈ s.responses, answer.error = .ok ()

/-- If the event executes an attempt of the call, and the broker has the key, it answers it. -/
def Network.AnswersCall (keys : ι → TopicPartition) (opts : κ → ConsumerOptions) (i : ι) (k : ℕ)
    (n : Network ι κ) (e : NetworkEvent ι κ) : Prop :=
  n.caller e = some (i, k) → (n.executes keys opts e).isSome = true →
    keys i ∈ n.server.broker.topics → e = .produce i .answered

namespace Stamped

variable {keys : ι → TopicPartition} {inputs : ι → List Payload}
  {responses : ι → List SendMessageResponse} {sents : List (Sent ι κ)} {i : ι} {k : ℕ}
  {answer : SendMessageResponse}

/-- An answer is that of a call of its producer. -/
theorem writtenBy_of_answers (h : Stamped keys inputs key responses sents) {x : Sent ι κ}
    (hx : x ∈ sents) (hans : x.event.answers i = true) : x.stamp.writtenBy i = true := by
  have hsource := h.source x hx
  rw [Sent.Sourced, NetworkEvent.eq_of_answers hans] at hsource
  split at hsource
  · cases hsource
  · rename_i j k hstamp
    rw [hstamp]
    exact decide_eq_true hsource.1.symm

/-- The answered attempts of an accepted call. -/
theorem answered_filter (h : Stamped keys inputs key responses sents) (hkey : keys i = key)
    (hr : (responses i)[k]? = some answer) (hok : answer.error = .ok ()) :
    ((sents.filter fun x => x.event.answers i).filter fun x => x.stamp = some (i, k)).map
      Sent.offset = [answer.offset] := by
  obtain ⟨error, offset⟩ := answer
  obtain rfl : error = .ok () := hok
  calc ((sents.filter fun x => x.event.answers i).filter fun x => x.stamp = some (i, k)).map
        Sent.offset
      = (((sents.filter fun x => x.event.answers i).map fun x => (x.stamp, x.offset)).filter
          fun x => x.1 = some (i, k)).map Prod.snd := by
        rw [List.filter_map, List.map_map]
        rfl
    _ = ((acknowledgements i (responses i)).filter fun x => x.1 = some (i, k)).map Prod.snd := by
        rw [h.acknowledged i hkey]
    _ = [offset] := acknowledgements_filter hr

/-- A call that was accepted appended once what is not an attempt without an answer. -/
theorem appendsOnce_iff (h : Stamped keys inputs key responses sents) (hkey : keys i = key)
    (hr : (responses i)[k]? = some answer) (hok : answer.error = .ok ()) :
    AppendsOnce i (inputs i) (sents.map Sent.payload) sents k answer ↔
      ∀ x ∈ sents, x.stamp = some (i, k) → x.event.answers i = true := by
  have hanswered := h.answered_filter hkey hr hok
  constructor
  · rintro ⟨honce, -⟩ x hx hstamp
    have hsub : ((sents.filter fun x => x.event.answers i).filter fun x => x.stamp = some (i, k)).Sublist
        (sents.filter fun x => x.stamp = some (i, k)) := List.filter_sublist.filter _
    have heq := eq_of_sublist_of_map_eq hsub (hanswered.trans honce.symm)
    have hmem : x ∈ sents.filter fun x => x.stamp = some (i, k) :=
      List.mem_filter.mpr ⟨hx, decide_eq_true hstamp⟩
    rw [← heq] at hmem
    exact (List.mem_filter.mp (List.mem_filter.mp hmem).1).2
  · intro hclean
    have hsame : (sents.filter fun x => x.stamp = some (i, k)) =
        (sents.filter fun x => x.event.answers i).filter fun x => x.stamp = some (i, k) := by
      rw [List.filter_filter]
      refine List.filter_congr fun x hx => ?_
      by_cases hstamp : x.stamp = some (i, k)
      · rw [hclean x hx hstamp, Bool.and_true]
      · rw [decide_eq_false hstamp, Bool.false_and]
    rw [← hsame] at hanswered
    obtain ⟨x, hx, hoffset⟩ : ∃ x, x ∈ (sents.filter fun x => x.stamp = some (i, k)) ∧
        x.offset = answer.offset := by
      have hmem : answer.offset ∈ (sents.filter fun x => x.stamp = some (i, k)).map Sent.offset := by
        rw [hanswered]
        exact List.mem_singleton_self _
      obtain ⟨x, hx, hoffset⟩ := List.mem_map.mp hmem
      exact ⟨x, hx, hoffset⟩
    obtain ⟨hx, hstamp⟩ := List.mem_filter.mp hx
    obtain ⟨o, ho⟩ := List.mem_iff_getElem?.mp hx
    have hplace := h.place o x ho
    have hsource := h.source x hx
    rw [Sent.Sourced, of_decide_eq_true hstamp] at hsource
    obtain ⟨-, -, hline, -⟩ := hsource
    refine ⟨hanswered, by omega, x.payload, hline, ?_⟩
    rw [← hoffset, hplace, Int.toNat_natCast, List.getElem?_map, ho]
    rfl

/-- The answered attempts of a producer whose lines were all accepted are its lines. -/
theorem answered_payloads (h : Stamped keys inputs key responses sents) (hkey : keys i = key)
    (hok : ∀ answer ∈ responses i, answer.error = .ok ())
    (hall : (inputs i).length ≤ (responses i).length) :
    (sents.filter fun x => x.event.answers i).map Sent.payload = inputs i := by
  have hstamps : (sents.filter fun x => x.event.answers i).map Sent.stamp =
      (List.range (responses i).length).map fun k => some (i, k) := by
    rw [← stamps_acknowledgements hok, ← h.acknowledged i hkey, List.map_map]
    rfl
  have hlen := congrArg List.length hstamps
  rw [List.length_map, List.length_map, List.length_range] at hlen
  refine List.ext_getElem? fun k => ?_
  rw [List.getElem?_map]
  cases hx : (sents.filter fun x => x.event.answers i)[k]? with
  | none =>
      rw [List.getElem?_eq_none_iff, hlen] at hx
      rw [List.getElem?_eq_none (hall.trans hx)]
      rfl
  | some x =>
      have hlt := (List.getElem?_eq_some_iff.mp hx).1
      have hstamp : some x.stamp = some (some (i, k)) := by
        have hk := congrArg (·[k]?) hstamps
        rw [List.getElem?_map, hx, List.getElem?_map] at hk
        rw [List.getElem?_range (hlen ▸ hlt)] at hk
        exact hk
      have hsource := h.source x (List.mem_filter.mp (List.mem_of_getElem? hx)).1
      rw [Sent.Sourced, Option.some.inj hstamp] at hsource
      exact hsource.2.2.1.symm

/-- A producer whose lines were all accepted appended once what is not an attempt without an
answer. -/
theorem appendsInOrder_iff (h : Stamped keys inputs key responses sents) (hkey : keys i = key)
    (hok : ∀ answer ∈ responses i, answer.error = .ok ())
    (hall : (inputs i).length ≤ (responses i).length) :
    (sents.filter fun x => x.stamp.writtenBy i).map Sent.payload = inputs i ↔
      ∀ x ∈ sents, x.stamp.writtenBy i = true → x.event.answers i = true := by
  have hanswered := h.answered_payloads hkey hok hall
  have hboth : (sents.filter fun x => x.event.answers i) =
      (sents.filter fun x => x.stamp.writtenBy i).filter fun x => x.event.answers i := by
    rw [List.filter_filter]
    refine List.filter_congr fun x hx => ?_
    cases hans : x.event.answers i with
    | false => rfl
    | true => rw [h.writtenBy_of_answers hx hans, Bool.and_true]
  rw [hboth] at hanswered
  constructor
  · intro honce x hx hwritten
    have heq := eq_of_sublist_of_map_eq List.filter_sublist (hanswered.trans honce.symm)
    exact List.filter_eq_self.mp heq x (List.mem_filter.mpr ⟨hx, hwritten⟩)
  · intro hclean
    rw [List.filter_eq_self.mpr fun x hx => hclean x (List.mem_filter.mp hx).1
      (List.mem_filter.mp hx).2] at hanswered
    exact hanswered

end Stamped

/-- A send is accepted if the key is there, and only then. -/
theorem StoreNext.accepts_iff {m : Payload} (h : StoreNext st (.sendMessage key m) response st') :
    (∃ o, response = .sent ⟨.ok (), o⟩) ↔ st key ≠ none := by
  cases h with
  | send he => simp [he]
  | sendUnknown hnone =>
      refine ⟨?_, fun hne => absurd hnone hne⟩
      rintro ⟨o, ho⟩
      cases ho

namespace Network

variable [DecidableEq κ] {keys : ι → TopicPartition} {inputs : ι → List Payload}
  {opts : κ → ConsumerOptions} {offsets : κ → Int64} {n : Network ι κ} {e : NetworkEvent ι κ}
  {es : List (NetworkEvent ι κ)} {sents : List (Sent ι κ)} {i : ι} {k : ℕ}

/-- An attempt of a call that the broker executes is a message of the call, if the broker has the
key. -/
theorem answersCall_iff (h : Inv r B keys inputs opts offsets (keys i) n st sents)
    (hservable : ∀ request, n.executes keys opts e = some request →
      request.Servable n.server.broker)
    (hroom : ∀ key e, st key = some e → e.log.length + 1 < 2 ^ 63) :
    AnswersCall keys opts i k n e ↔ ∀ x ∈ sent? (keys i) (e, (n.step keys opts e).1),
      x.stamp = some (i, k) → x.event.answers i = true := by
  cases hexe : n.executes keys opts e with
  | none =>
      rw [step_none hexe]
      refine iff_of_true (fun _ hsome => ?_) (fun x hx => by cases hx)
      rw [hexe] at hsome
      cases hsome
  | some request =>
      obtain ⟨st', hn, -⟩ := h.serves.step (hservable request hexe) fun key e he =>
        (Nat.add_le_add_left (sends_singleton_le request) _).trans_lt (hroom key e he)
      rw [step_some hexe, AnswersCall, h.serves.mem_topics, hexe]
      have hanswers : e = .produce i .answered ↔ e.answers i = true :=
        ⟨fun he => he ▸ decide_eq_true rfl, NetworkEvent.eq_of_answers⟩
      rw [hanswers]
      constructor
      · intro hclean x hx hstamp
        obtain ⟨m, o, rfl, hresponse, rfl⟩ := sent?_eq_some.mp (Option.mem_def.mp hx)
        exact hclean hstamp rfl (hn.accepts_iff.mp ⟨o, hresponse⟩)
      · intro hclean hcaller _ hkey
        rcases executes_cases h.reads hexe with ⟨-, hnone⟩ | ⟨i', k', m, hcaller', -, rfl, -⟩ |
          ⟨j, hnone, -⟩
        · rw [hnone] at hcaller
          cases hcaller
        · rw [hcaller'] at hcaller
          obtain ⟨rfl, rfl⟩ := Prod.mk.inj (Option.some.inj hcaller)
          obtain ⟨o, hresponse⟩ := hn.accepts_iff.mpr hkey
          exact hclean _ (sent?_eq_some.mpr ⟨m, o, rfl, hresponse, rfl⟩) hcaller'
        · rw [hnone] at hcaller
          cases hcaller

theorem always_answersCall_iff (h : Inv r B keys inputs opts offsets (keys i) n st sents)
    (hservable : Servable keys opts n es) (htotal : es.length < 2 ^ 63)
    (hcount : ∀ key e, st key = some e → e.log.length + es.length < 2 ^ 63)
    (hkeep : ∀ e ∈ es, e.Keeps (keys i)) :
    Runs.Always (Network.step keys opts) (AnswersCall keys opts i k) n es ↔
      ∀ x ∈ sentTo (keys i) (Runs.trace (Network.step keys opts) n es),
        x.stamp = some (i, k) → x.event.answers i = true := by
  induction es generalizing n st sents with
  | nil => exact iff_of_true trivial (fun x hx => by cases hx)
  | cons e es ih =>
      rw [List.length_cons] at htotal hcount
      have hroom : ∀ key e, st key = some e → e.log.length + 1 < 2 ^ 63 := fun key e he => by
        have := hcount key e he
        omega
      obtain ⟨st₁, hnext, h₁⟩ := h.step hservable.1 hroom (hkeep e List.mem_cons_self)
      have hrest := ih h₁ hservable.2 (by omega) (hnext.count htotal hcount)
        fun e he => hkeep e (List.mem_cons_of_mem _ he)
      rw [Runs.Always, Runs.trace, sentTo_cons, hrest, answersCall_iff h hservable.1 hroom]
      constructor
      · rintro ⟨hfirst, hrest⟩ x hx
        rcases List.mem_append.mp hx with hx | hx
        · exact hfirst x (Option.mem_toList.mp hx)
        · exact hrest x hx
      · intro hall
        exact ⟨fun x hx => hall x (List.mem_append_left _ (Option.mem_toList.mpr hx)),
          fun x hx => hall x (List.mem_append_right _ hx)⟩

/-- From an empty base directory, among any other clients, and while nobody deletes its key: a call
of a producer that is accepted appends its line once exactly when the broker executes none of its
attempts but the answered one; and a producer whose lines are all accepted appends each of them
once, in their order, exactly when this holds of all its calls. -/
theorem appends_once_iff {order : KeyOrder} (hbare : Bare w r B) (hcount : es.length < 2 ^ 63)
    (hkeep : ∀ e ∈ es, e.Keeps (keys i))
    (hservable : Servable keys opts (start inputs offsets (Server.boot r order w)) es) :
    let start := start inputs offsets (Server.boot r order w)
    let t := Runs.trace (Network.step keys opts) start es
    let s := ((Runs.final (Network.step keys opts) start es).producers i).state
    let sents := sentTo (keys i) t
    let log := ((executed t).foldl History.next (fun _ => none)).messages (keys i)
    (∀ k answer, s.responses[k]? = some answer → answer.error = .ok () →
      (AppendsOnce i (inputs i) log sents k answer ↔
        Runs.Always (Network.step keys opts) (AnswersCall keys opts i k) start es)) ∧
    (s.Accepted →
      ((sents.filter fun x => x.stamp.writtenBy i).map Sent.payload = inputs i ↔
        ∀ k < (inputs i).length,
          Runs.Always (Network.step keys opts) (AnswersCall keys opts i k) start es)) := by
  intro start t s sents log
  have hinv := Inv.start hbare order keys inputs opts offsets (keys i)
  obtain ⟨st, h, -, hlogs⟩ := hinv.run hservable hcount (fun key e he => by cases he) hkeep
  have hclean := fun k => always_answersCall_iff (k := k) hinv hservable hcount
    (fun key e he => by cases he) hkeep
  rw [List.nil_append] at h
  have hlog : log = sents.map Sent.payload := by
    rw [← h.log, hlogs]
    rfl
  refine ⟨fun k answer hr hok => ?_, fun haccepted => ?_⟩
  · rw [hlog, hclean k]
    exact h.stamped.appendsOnce_iff rfl hr hok
  · obtain ⟨hlines, hok⟩ := haccepted
    have hall : (inputs i).length ≤ s.responses.length := by
      rw [← List.drop_eq_nil_iff, ← hlines]
      exact (h.reads i).state.symm
    refine (h.stamped.appendsInOrder_iff rfl hok hall).trans ⟨fun hone k hk => ?_, fun hone x hx hw => ?_⟩
    · refine (hclean k).mpr fun x hx hstamp => hone x hx ?_
      rw [hstamp]
      exact decide_eq_true rfl
    · have hsource := h.stamped.source x hx
      unfold Sent.Sourced at hsource
      split at hsource
      · rename_i hstamp
        rw [hstamp] at hw
        cases hw
      · rename_i j k hstamp
        rw [hstamp] at hw
        obtain rfl : j = i := of_decide_eq_true hw
        obtain ⟨-, -, hline, -⟩ := hsource
        have hk := (List.getElem?_eq_some_iff.mp hline).1
        exact (hclean k).mp (hone k hk) x hx hstamp

/-- A request that is lost, one that is late and does not arrive, and one that is answered. -/
theorem appends_once_iff_lost :
    let key : TopicPartition := ⟨"logs".toList, 2⟩
    let es : List (NetworkEvent Unit Empty) :=
      [.other (.createPartition ⟨"logs".toList, 2, 100, 0, 0⟩), .produce () .lost,
        .produce () .late, .other (.sendMessage key [3]), .produce () .answered]
    let start : Network Unit Empty := .start (fun _ => [[1, 2]]) Empty.elim
      (Server.boot ⟨[], []⟩ ⟨id, fun _ => .refl _⟩ (World.blank 0))
    Runs.Always (Network.step (fun _ => key) Empty.elim)
      (AnswersCall (fun _ => key) Empty.elim () 0) start es := by
  intro key es start
  have hkeep : ∀ e ∈ es, e.Keeps key := by
    simp only [es, List.forall_mem_cons, NetworkEvent.Keeps, Request.Deletes, not_false_eq_true,
      true_and]
    simp
  have hsmall : ∀ e ∈ es, e.Small := by
    simp only [es, List.forall_mem_cons, NetworkEvent.Small, true_and]
    exact ⟨⟨⟨⟨by decide, by decide⟩, by decide⟩, by decide, by decide⟩,
      Nat.lt_of_sub_pos (by decide), by simp⟩
  have hlines : ∀ (i : Unit), ∀ line ∈ (fun _ => [[1, 2]] : Unit → List Payload) i,
      line.length < 2 ^ 31 := by decide
  have hservable : Servable (fun _ => key) Empty.elim start es :=
    servable_of_small hlines ((Bare.blank 0).small _) (fun i => ⟨rfl, fun s hs => by cases hs⟩)
      (by decide) (fun key e he => by cases he) hsmall
  obtain ⟨answer, hanswer⟩ := Option.isSome_iff_exists.mp (show (((Runs.final (Network.step
    (fun _ => key) Empty.elim) start es).producers ()).state.responses[0]?).isSome = true by
      decide +kernel)
  have hall : ∀ answer ∈ ((Runs.final (Network.step (fun _ => key) Empty.elim) start es).producers
      ()).state.responses[0]?, answer.error.isOk = true ∧ answer.offset = 1 := by decide +kernel
  obtain ⟨hok, hoffset⟩ := hall answer hanswer
  have honce : AppendsOnce () [[1, 2]] (((executed (Runs.trace (Network.step (fun _ => key) Empty.elim)
      start es)).foldl History.next (fun _ => none)).messages key)
      (sentTo key (Runs.trace (Network.step (fun _ => key) Empty.elim) start es)) 0 answer := by
    rw [AppendsOnce, hoffset]
    exact ⟨by decide +kernel, by decide, [1, 2], rfl, by decide +kernel⟩
  have hstart : start = .start (fun _ => [[1, 2]]) Empty.elim
      (Server.boot ⟨[], []⟩ ⟨id, fun _ => .refl _⟩ (World.blank 0)) := rfl
  have hcount : es.length < 2 ^ 63 := by decide
  clear_value start es
  rw [hstart] at hservable
  have hiff := appends_once_iff (i := ()) (Bare.blank 0) hcount hkeep hservable
  dsimp only at hiff
  rw [← hstart] at hiff
  exact (hiff.1 0 answer hanswer (eq_ok_of_isOk hok)).mp honce

/-- A send whose reply is lost is appended twice. -/
theorem appends_twice :
    let key : TopicPartition := ⟨"logs".toList, 2⟩
    let es : List (NetworkEvent Unit Empty) :=
      [.other (.createPartition ⟨"logs".toList, 2, 100, 0, 0⟩), .produce () .unanswered,
        .produce () .answered]
    let start : Network Unit Empty := .start (fun _ => [[1, 2]]) Empty.elim
      (Server.boot ⟨[], []⟩ ⟨id, fun _ => .refl _⟩ (World.blank 0))
    let run := Network.step (fun _ => key) Empty.elim
    ∃ answer, ((Runs.final run start es).producers ()).state.responses[0]? = some answer ∧
      answer.error = .ok () ∧ answer.offset = 1 ∧
      ∀ log, ¬ AppendsOnce () [[1, 2]] log (sentTo key (Runs.trace run start es)) 0 answer := by
  intro key es start run
  obtain ⟨answer, hanswer⟩ := Option.isSome_iff_exists.mp
    (show (((Runs.final run start es).producers ()).state.responses[0]?).isSome = true by
      decide +kernel)
  have hok : ∀ answer ∈ ((Runs.final run start es).producers ()).state.responses[0]?,
      answer.error.isOk = true ∧ answer.offset = 1 := by decide +kernel
  obtain ⟨hok, hoffset⟩ := hok answer hanswer
  refine ⟨answer, hanswer, eq_ok_of_isOk hok, hoffset, fun log honce => ?_⟩
  have htwo : ((sentTo key (Runs.trace run start es)).filter fun x => x.stamp = some ((), 0)).map
      Sent.offset = [0, 1] := by decide +kernel
  rw [AppendsOnce, htwo] at honce
  exact absurd (congrArg List.length honce.1) (by simp)

end Network

end MyKafka
