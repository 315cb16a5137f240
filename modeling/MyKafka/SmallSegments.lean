import MyKafka.BrokerRefinement

/-!
# Small segments

A segment that is full before its index is makes room for every message. Where all segments are
so small, a broker can serve every request, and no message is refused.
-/

namespace MyKafka

open Posix MyKafka.Partition

/-- A request whose segments are full before their index is. -/
def Request.Small : Request → Prop
  | .createPartition request => request.key.Decodable ∧ 0 ≤ request.maxSegmentSize.toInt ∧
      request.maxSegmentSize.toInt < 15728640
  | .sendMessage _ m => m.length < 2 ^ 31
  | _ => True

/-- The broker serves the logs of the map, all in such segments. -/
structure ServesSmall (r : RawPath) (B : Path) (srv : Server) (st : Store) : Prop where
  serves : Serves r B srv.broker srv.world st
  sizes : ∀ key e, st key = some e → 0 ≤ e.maxSegmentSize.toInt ∧ e.maxSegmentSize.toInt < 15728640

variable {r : RawPath} {B : Path} {w : World} {srv : Server} {st st' : Store} {request : Request}
  {response : Response}

namespace ServesSmall

theorem ready (h : ServesSmall r B srv st) {key : TopicPartition} {p : Partition}
    (hp : srv.broker.topics.lookup key = some p) : p.Ready := by
  have hne : st key ≠ none := by
    intro hnone
    rw [(h.serves.mirrors.absent key hnone).1] at hp
    cases hp
  obtain ⟨e, he⟩ := Option.ne_none_iff_exists'.mp hne
  obtain ⟨p', cfg, hp', hlog, -⟩ := h.serves.mirrors.present key e he
  obtain rfl := Option.some.inj (hp.symm.trans hp')
  obtain ⟨cs, hrep, -⟩ := hlog.chunks
  obtain ⟨h0, h1⟩ := h.sizes key e he
  have hsize : p.maxSegmentSize = e.maxSegmentSize.toInt :=
    congrArg (fun x => x.2.1) hlog.settings
  exact ready_of_small hrep (hsize ▸ h0) (hsize ▸ h1)

theorem servable (h : ServesSmall r B srv st) (hreq : request.Small) :
    request.Servable srv.broker := by
  cases request with
  | createPartition request => exact Or.inr hreq.1
  | sendMessage key m => exact ⟨hreq, fun p hp => h.ready hp⟩
  | tick | deletePartition | deleteTopic | getMessage | getOffsets | restart => trivial

theorem step (h : ServesSmall r B srv st) (hreq : request.Small)
    (hroom : ∀ key e, st key = some e → e.log.length + sends [request] < 2 ^ 63) :
    ∃ st', StoreNext st request (srv.step request).1 st' ∧
      ServesSmall r B (srv.step request).2 st' := by
  obtain ⟨st', hn, hserves⟩ := h.serves.step (h.servable hreq) hroom
  refine ⟨st', hn, hserves, fun key e' he' => ?_⟩
  rcases hn.origin he' with ⟨creation, rfl, rfl⟩ | ⟨e, he, hsize, -⟩
  · exact hreq.2
  · rw [hsize]
    exact h.sizes key e he

end ServesSmall

theorem Bare.small (h : Bare w r B) (order : KeyOrder) :
    ServesSmall r B (Server.boot r order w) (fun _ => none) :=
  ⟨h.boot order, fun _ _ he => by cases he⟩

end MyKafka
