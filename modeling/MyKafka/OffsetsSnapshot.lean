import MyKafka.BrokerRestart

/-!
# The two halves of getOffsets

`getOffsets` reads the first and the last offset under the mutex of the broker and the commit offset
after it has released it. Neither half changes the broker, so of what other clients do in between
only their requests matter.
-/

namespace MyKafka

open Posix

namespace Broker

/-- The first half: the first and the last offset. -/
def offsetRange (b : Broker) (key : TopicPartition) : Result (ℤ × ℤ) :=
  match b.topics.lookup key with
  | none => unknownTopic key
  | some partition => .ok (partition.oldestOffset, partition.newestOffset - 1)

/-- The second half, with what the first half left in the response. -/
def commitOffset (b : Broker) (key : TopicPartition) (range : Result (ℤ × ℤ)) :
    GetOffsetsResponse :=
  match range with
  | .error e => ⟨.error e, 0, 0, 0⟩
  | .ok (first, last) =>
    match b.configManager.get key with
    | .error e => ⟨.error e, first, last, 0⟩
    | .ok info => ⟨.ok (), first, last, info.commitOffset.toInt⟩

theorem commitOffset_offsetRange (b : Broker) (key : TopicPartition) :
    b.commitOffset key (b.offsetRange key) = b.getOffsets key := by
  unfold commitOffset offsetRange getOffsets
  cases b.topics.lookup key <;> rfl

end Broker

/-- The answer of a call whose halves have these requests of other clients between them. -/
def Server.getOffsetsAround (srv : Server) (key : TopicPartition) (between : List Request) :
    GetOffsetsResponse :=
  (Runs.final Server.step srv between).broker.commitOffset key (srv.broker.offsetRange key)

/-- An answer with code `OK` shows the broker as it was at one moment of the call. -/
def Snapshot (srv : Server) (key : TopicPartition) (between : List Request)
    (response : GetOffsetsResponse) : Prop :=
  response.error = .ok () → response.commitOffset = response.lastOffset ∧
    ∃ part, part <+: between ∧
      (Runs.final Server.step srv part).broker.getOffsets key = response

variable {r : RawPath} {B : Path} {w : World} {st st' : Store} {key : TopicPartition} {srv srv' : Server}

/-- The answer of a call whose halves find the broker in two states. -/
theorem Serves.commitOffset (h : Serves r B srv.broker srv.world st)
    (h' : Serves r B srv'.broker srv'.world st')
    (hlen : ∀ e, st' key = some e → e.log.length < 2 ^ 63) {response : GetOffsetsResponse}
    (hresponse : srv'.broker.commitOffset key (srv.broker.offsetRange key) = response) :
    match st key, st' key with
    | some e, some e' => response = ⟨.ok (), e.oldest, e.log.length - 1, e'.log.length - 1⟩
    | _, _ => response.error ≠ .ok () := by
  subst hresponse
  cases he : st key with
  | none =>
      have hnone := (h.mirrors.absent key he).1
      simp [Broker.commitOffset, Broker.offsetRange, hnone, Broker.unknownTopic, Utils.err]
  | some e =>
      obtain ⟨p, -, hp, hlog, -⟩ := h.mirrors.present key e he
      obtain ⟨hold, hnew, -⟩ := hlog.reads h.mirrors.calm
      have hrange : srv.broker.offsetRange key = .ok ((e.oldest : ℤ), (e.log.length : ℤ) - 1) := by
        rw [Broker.offsetRange, hp]
        dsimp only
        rw [hold, hnew]
      rw [hrange]
      cases he' : st' key with
      | none =>
          have hnone := (h'.mirrors.absent key he').2
          simp [Broker.commitOffset, ConfigManager.get, hnone, ConfigManager.notFound, Utils.err]
      | some e' =>
          obtain ⟨-, cfg, -, -, hcfg, hinfo⟩ := h'.mirrors.present key e' he'
          simp only [Broker.commitOffset, ConfigManager.get, hcfg, hinfo.info,
            toInt_commit (hlen e' he')]

/-- From an empty base directory: `getOffsets` shows one moment exactly when its second half finds as
many messages of the key as its first half did. -/
theorem snapshot_iff {order : KeyOrder} {requests between : List Request} (h : Bare w r B)
    (hcount : sends requests + sends between < 2 ^ 63)
    (hok : Runs.Always Server.step (fun srv request => request.Servable srv.broker)
      (Server.boot r order w) (requests ++ between)) :
    let srv := Runs.final Server.step (Server.boot r order w) requests
    let before := (Runs.trace Server.step (Server.boot r order w) requests).foldl History.next
      (fun _ => none)
    let after := (Runs.trace Server.step srv between).foldl History.next before
    Snapshot srv key between (srv.getOffsetsAround key between) ↔
      ∀ msgs msgs', before key = some msgs → after key = some msgs' →
        msgs'.length = msgs.length := by
  intro srv before after
  rw [Runs.always_append] at hok
  obtain ⟨st, htrace, hserves, hshort⟩ := (h.boot order).run hcount
    (fun key e he => by cases he) hok.1
  obtain ⟨st', htrace', hserves', hshort'⟩ := hserves.run (n := 0) (by omega) hshort hok.2
  have hbefore : before = st.logs := (Store.logs_trace htrace).symm
  have hafter : after = st'.logs := by
    rw [Store.logs_trace htrace', ← hbefore]
  have hlen : ∀ e, st key = some e → e.log.length < 2 ^ 63 := by
    intro e he
    have := hshort key e he
    omega
  have hanswer := hserves.commitOffset hserves' (fun e he => hshort' key e he)
    (show srv.getOffsetsAround key between = _ from rfl)
  rw [hbefore, hafter]
  cases he : st key with
  | none =>
      simp only [he] at hanswer
      refine iff_of_true (fun hres => absurd hres hanswer) ?_
      intro msgs msgs' hmsgs
      rw [Store.logs, he] at hmsgs
      cases hmsgs
  | some e =>
      cases he' : st' key with
      | none =>
          simp only [he, he'] at hanswer
          refine iff_of_true (fun hres => absurd hres hanswer) ?_
          intro msgs msgs' _ hmsgs'
          rw [Store.logs, he'] at hmsgs'
          cases hmsgs'
      | some e' =>
          simp only [he, he'] at hanswer
          rw [hanswer, Store.logs_some he, Store.logs_some he']
          constructor
          · rintro hsnap _ _ ⟨⟩ ⟨⟩
            have hsame : (e'.log.length : ℤ) - 1 = (e.log.length : ℤ) - 1 := (hsnap rfl).1
            omega
          · intro hsame _
            have hlength := hsame _ _ rfl rfl
            refine ⟨by rw [hlength], [], List.nil_prefix, ?_⟩
            have hoffsets := hserves.getOffsets hlen
            rw [he] at hoffsets
            refine (show srv.broker.getOffsets key = _ from hoffsets).trans ?_
            rw [hlength]

theorem snapshot_iff_sent :
    let key : TopicPartition := ⟨"logs".toList, 2⟩
    let requests : List Request := [.createPartition ⟨"logs".toList, 2, 100, 0, 0⟩,
      .createPartition ⟨"logs".toList, 3, 100, 0, 0⟩, .sendMessage key [1]]
    let between : List Request := [.sendMessage ⟨"logs".toList, 3⟩ [2]]
    let srv := Runs.final Server.step
      (Server.boot ⟨[], []⟩ ⟨id, fun _ => .refl _⟩ (World.blank 0)) requests
    Snapshot srv key between (srv.getOffsetsAround key between) := by
  intro key requests between srv
  have hok : Runs.Always Server.step (fun srv request => request.Servable srv.broker)
      (Server.boot ⟨[], []⟩ ⟨id, fun _ => .refl _⟩ (World.blank 0)) (requests ++ between) := by
    refine ⟨Or.inr ⟨⟨by decide, by decide⟩, by decide⟩, Or.inr ⟨⟨by decide, by decide⟩, by decide⟩,
      ⟨?_, ?_⟩, ⟨?_, ?_⟩, trivial⟩
    · exact Nat.lt_of_sub_pos (by decide)
    · exact ready_of_all (by decide +kernel)
    · exact Nat.lt_of_sub_pos (by decide)
    · exact ready_of_all (by decide +kernel)
  have hbefore : (Runs.trace Server.step (Server.boot ⟨[], []⟩ ⟨id, fun _ => .refl _⟩
      (World.blank 0)) requests).foldl History.next (fun _ => none) key = some [[1]] := by
    decide +kernel
  have hafter : (Runs.trace Server.step srv between).foldl History.next
      ((Runs.trace Server.step (Server.boot ⟨[], []⟩ ⟨id, fun _ => .refl _⟩
        (World.blank 0)) requests).foldl History.next (fun _ => none)) key = some [[1]] := by
    decide +kernel
  refine (snapshot_iff (Bare.blank 0) (by decide) hok).mpr ?_
  intro msgs msgs' hmsgs hmsgs'
  obtain rfl := Option.some.inj (hbefore.symm.trans hmsgs)
  obtain rfl := Option.some.inj (hafter.symm.trans hmsgs')
  rfl

/-- A message that is sent between the halves is counted by the second half only. -/
theorem torn_offsets :
    let key : TopicPartition := ⟨"logs".toList, 2⟩
    let requests : List Request := [.createPartition ⟨"logs".toList, 2, 100, 0, 0⟩]
    let between : List Request := [.sendMessage key [1]]
    let srv := Runs.final Server.step
      (Server.boot ⟨[], []⟩ ⟨id, fun _ => .refl _⟩ (World.blank 0)) requests
    let response := srv.getOffsetsAround key between
    response.lastOffset = -1 ∧ response.commitOffset = 0 ∧ ¬ Snapshot srv key between response := by
  intro key requests between srv response
  have hok : response.error.isOk = true := by decide +kernel
  have hlast : response.lastOffset = -1 := by decide +kernel
  have hcommit : response.commitOffset = 0 := by decide +kernel
  refine ⟨hlast, hcommit, fun hsnap => ?_⟩
  have hsame := (hsnap (eq_ok_of_isOk hok)).1
  rw [hlast, hcommit] at hsame
  exact absurd hsame (by decide)

end MyKafka
