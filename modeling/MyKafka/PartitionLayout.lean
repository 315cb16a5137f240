import MyKafka.Cut
import MyKafka.PartitionStep

/-!
# The segments of a partition are a greedy cut

Without retention a run puts the messages into segments as the greedy cut of their sequence says.
The position that decides about a roll is counted while writing and recomputed from the log when a
segment is opened, so a restart between two writes leaves no mark.
-/

namespace MyKafka

open Posix MyKafka.Partition

/-- The bytes a message takes in a log. -/
def recordSize (m : Payload) : ℕ := 12 + m.length

theorem weight_recordSize (ms : List Payload) : Blocks.weight recordSize ms = Log.logSize ms := by
  induction ms with
  | nil => rfl
  | cons m ms ih =>
      rw [Log.logSize, ← ih, Blocks.weight, Blocks.weight, List.map_cons, List.sum_cons, recordSize]

/-- The bytes of a file. -/
def bytesAt (w : World) (p : Path) : Option (List UInt8) :=
  match w.fs.node? p with
  | some (.file i) => some (w.fs.data i).image.toList
  | _ => none

/-- The directory holds a log and an index for each block and nothing else, and the partition has a
segment open for each. -/
structure LaidOut (h : Host) (dir : Path) (bs : List (ℕ × List Payload)) : Prop where
  bases : h.partition.segments.map Segment.baseOffset = bs.map (fun b => (b.1 : ℤ))
  logs : ∀ b ∈ bs, bytesAt h.world (dir ++ [logName b.1]) = some (Log.encode b.1 b.2)
  indexes : ∀ b ∈ bs, bytesAt h.world (dir ++ [indexName b.1]) ≠ none
  only : ∀ n, h.world.fs.node? (dir ++ [n]) ≠ none →
    ∃ b ∈ bs, n = logName b.1 ∨ n = indexName b.1

/-- The same names with the same logs. -/
def SameLogs (h h' : Host) (dir : Path) : Prop :=
  ∀ n, (h.world.fs.node? (dir ++ [n]) = none ↔ h'.world.fs.node? (dir ++ [n]) = none) ∧
    (extension n = logExtension → bytesAt h.world (dir ++ [n]) = bytesAt h'.world (dir ++ [n]))

variable {w : World} {dir : Path} {h h' : Host} {cs cs' : List Chunk} {log : List Payload}
  {op : PartitionOp}

/-- What a chunk keeps of a message sequence. -/
def Chunk.block (c : Chunk) : ℕ × List Payload := (c.base, c.msgs)

/-- The chunks are the greedy cut of the history, and nothing is ever dropped. -/
structure Greedy (S : ℤ) (h : Host) (cs : List Chunk) (log : List Payload) : Prop where
  maxSegmentSize : h.partition.maxSegmentSize = S
  maxPartitionSize : h.partition.maxPartitionSize = 0
  segmentTtl : h.partition.segmentTtl = 0
  cut : cs.map Chunk.block = Blocks.greedyCut recordSize S log

theorem Greedy.moved {S : ℤ} (hh : Holding dir h cs log) (hm : Moved dir h log cs op h' cs')
    (hh' : Holding dir h' cs' (log ++ writes [op])) (hg : Greedy S h cs log) :
    Greedy S h' cs' (log ++ writes [op]) := by
  obtain ⟨hsize, hmax, httl, hcut⟩ := hg
  have hset := hm.settings
  have hmax' : h'.partition.maxPartitionSize = 0 :=
    (congrArg (fun x => x.2.2.1) hset).trans hmax
  have httl' : h'.partition.segmentTtl = 0 := (congrArg (fun x => x.2.2.2) hset).trans httl
  refine ⟨(maxSegmentSize_eq hset).trans hsize, hmax', httl', ?_⟩
  cases hm with
  | tick seconds => rwa [writes, writes, List.append_nil]
  | readAt o => rwa [writes, writes, List.append_nil]
  | @restart closing k h' hrestart hre =>
      rw [writes, writes, List.append_nil, hre.idle httl hmax, List.drop_zero]
      exact hcut
  | @write m p' w' cs' hwrite hwr _ =>
      rw [writes, writes]
      cases hwr with
      | @append init c hfits hlt hjunk hmtimes =>
          rw [List.map_append, List.map_singleton] at hcut
          rw [Blocks.greedyCut_concat m hcut.symm, if_neg, List.map_append, List.map_singleton]
          · rfl
          · rw [weight_recordSize, ← hsize]
            exact not_lt.mpr hfits
      | @roll _ next k hfull hk hmtimes hexpired =>
          obtain ⟨init, c, rfl⟩ := hh.rep.exists_last
          obtain rfl := hh.rep.idle_eq_zero httl hmax hk hexpired
          obtain ⟨s, hs, -, hst⟩ := hh.rep.last
          have hover := (isFull_iff hst).mp (hfull s hs)
          -- the new segment is named by the number of messages written so far
          have hnext : next = c.base + c.msgs.length := by
            have hlast := hh.rep.live.represents.next_last
            have hlast' := hh'.rep.live.represents.next_last
            simp only [Blocks.next, Chunk.push, emptyChunk, List.nil_append, List.length_append,
              List.length_singleton, writes] at hlast hlast'
            omega
          rw [List.map_append, List.map_singleton] at hcut
          rw [Blocks.greedyCut_concat m hcut.symm, if_pos, List.drop_zero, List.map_append,
            List.map_append, hnext]
          · rfl
          · rw [weight_recordSize, ← hsize]
            exact hover

theorem bytesAt_file {p : Path} {i : ℕ} (hp : w.fs.node? p = some (.file i)) :
    bytesAt w p = some (w.fs.data i).image.toList := by
  rw [bytesAt, hp]

theorem Holding.laidOut (hh : Holding dir h cs log) : LaidOut h dir (cs.map Chunk.block) where
  bases := by
    rw [map_baseOffset hh.rep.live.stands, List.map_map]
    rfl
  logs := by
    intro b hb
    obtain ⟨c, hc, rfl⟩ := List.mem_map.mp hb
    obtain ⟨i, j, hd, -⟩ := hh.rep.live.files c hc
    have hbytes := hd.bytes
    rw [hh.settled c hc, List.append_nil] at hbytes
    rw [Chunk.block, bytesAt_file hd.log, hbytes]
  indexes := by
    intro b hb
    obtain ⟨c, hc, rfl⟩ := List.mem_map.mp hb
    obtain ⟨i, j, hd, -⟩ := hh.rep.live.files c hc
    rw [Chunk.block, bytesAt_file hd.index]
    exact Option.some_ne_none _
  only := by
    intro n hn
    obtain ⟨c, hc, hown⟩ := hh.rep.live.only n hn
    refine ⟨c.block, List.mem_map_of_mem hc, ?_⟩
    simpa [ownNames, Chunk.block] using hown

/-- Two partitions laid out as the same blocks have the same logs. -/
theorem LaidOut.sameLogs {bs : List (ℕ × List Payload)} (hl : LaidOut h dir bs)
    (hl' : LaidOut h' dir bs) : SameLogs h h' dir := by
  have hpresent : ∀ {h : Host}, LaidOut h dir bs → ∀ n,
      h.world.fs.node? (dir ++ [n]) ≠ none ↔ ∃ b ∈ bs, n = logName b.1 ∨ n = indexName b.1 := by
    intro h hl n
    refine ⟨hl.only n, ?_⟩
    rintro ⟨b, hb, rfl | rfl⟩ hnone
    · have := hl.logs b hb
      rw [bytesAt, hnone] at this
      cases this
    · exact hl.indexes b hb (by rw [bytesAt, hnone])
  intro n
  refine ⟨not_iff_not.mp ((hpresent hl n).trans (hpresent hl' n).symm), fun hext => ?_⟩
  by_cases hn : ∃ b ∈ bs, n = logName b.1 ∨ n = indexName b.1
  · obtain ⟨b, hb, rfl | rfl⟩ := hn
    · rw [hl.logs b hb, hl'.logs b hb]
    · rw [extension_indexName] at hext
      exact absurd hext (by decide)
  · have hnone := not_not.mp (mt (hpresent hl n).mp hn)
    have hnone' := not_not.mp (mt (hpresent hl' n).mp hn)
    rw [bytesAt, bytesAt, hnone, hnone']

theorem laidOut_of_run {path : RawPath} {S : ℕ} {ops : List PartitionOp} (hv : Vacant w path dir)
    (hS : S < 2 ^ 31) (hpay : Payloads ops) (hcount : (writes ops).length < 2 ^ 63)
    (hack : Acknowledged ((Host.boot path S 0 0 w).2.trace ops)) :
    LaidOut ((Host.boot path S 0 0 w).2.final ops) dir
      (Blocks.greedyCut recordSize S (writes ops)) := by
  obtain ⟨h, hboot, hre⟩ : ∃ h, Host.boot path S 0 0 w = (.ok (), h) ∧ _ := Host.boot_spec hv
  rw [hboot] at hack ⊢
  have hset := hre.settings
  have hsize : h.partition.maxSegmentSize = S := maxSegmentSize_eq hset
  have hh : Holding dir h [emptyChunk 0 w.now] [] :=
    ⟨hre.calm, hre.rep, settled_empty _ _, addressable_empty _ _, by omega, by omega⟩
  have hg : Greedy S h [emptyChunk 0 w.now] [] :=
    ⟨hsize, congrArg (fun x => x.2.2.1) hset, congrArg (fun x => x.2.2.2) hset, rfl⟩
  obtain ⟨cs, hh', hg'⟩ := hh.run (I := Greedy S)
    (fun hh hm hh' _ _ => Greedy.moved hh hm hh') hpay
    (by simpa using hcount) hack hg
  rw [List.nil_append] at hg'
  rw [← hg'.cut]
  exact hh'.laidOut

/-- Where restarts fall among the writes has no influence on the segments: they are the greedy cut
of the messages, and `n` messages of one size take `⌈n / (⌊S / size⌋ + 1)⌉` of them. -/
theorem restarts_keep_layout {path : RawPath} {S : ℕ} {ops ops' : List PartitionOp}
    (hv : Vacant w path dir) (hS : S < 2 ^ 31) (hsame : writes ops' = writes ops)
    (hpay : Payloads ops) (hcount : (writes ops).length < 2 ^ 63)
    (hack : Acknowledged ((Host.boot path S 0 0 w).2.trace ops))
    (hack' : Acknowledged ((Host.boot path S 0 0 w).2.trace ops')) :
    let h := (Host.boot path S 0 0 w).2.final ops
    let h' := (Host.boot path S 0 0 w).2.final ops'
    let bs := Blocks.greedyCut recordSize S (writes ops)
    SameLogs h h' dir ∧ LaidOut h dir bs ∧ LaidOut h' dir bs ∧
      Blocks.Represents Prod.fst Prod.snd bs (writes ops) ∧
      ∀ r, (∀ m ∈ writes ops, recordSize m = r) → writes ops ≠ [] →
        h.partition.segments.length = (writes ops).length ⌈/⌉ (S / r + 1) := by
  have hl := laidOut_of_run hv hS hpay hcount hack
  have hl' := laidOut_of_run hv hS (by rwa [Payloads, hsame]) (by rwa [hsame]) hack'
  rw [hsame] at hl'
  refine ⟨hl.sameLogs hl', hl, hl', Blocks.represents_greedyCut (by omega) _, ?_⟩
  intro r hr hne
  obtain ⟨m, hm⟩ := List.exists_mem_of_ne_nil _ hne
  have hpos : 0 < r := by
    rw [← hr m hm, recordSize]
    omega
  have hlen := congrArg List.length hl.bases
  rw [List.length_map, List.length_map] at hlen
  rw [hlen, Blocks.length_greedyCut hpos hr hne]

theorem restarts_keep_layout_mixed :
    let h := (Host.boot ⟨[], []⟩ (20 : ℕ) 0 0 (World.blank 0)).2.final
      [.write [1], .write [2], .write [3], .write [4]]
    let h' := (Host.boot ⟨[], []⟩ (20 : ℕ) 0 0 (World.blank 0)).2.final
      [.restart true, .write [1], .write [2], .restart false, .write [3], .tick 9, .write [4]]
    SameLogs h h' [] ∧ h.partition.segments.length = 2 := by
  have hv := Vacant.blank 0
  obtain ⟨h, hboot, hset, href⟩ : ∃ h, Host.boot ⟨[], []⟩ 20 0 0 (World.blank 0) = (.ok (), h) ∧ _ :=
    boot_refines hv (by decide) (by decide)
  have hsmall : h.partition.maxSegmentSize < 15728640 := by
    rw [show h.partition.maxSegmentSize = 20 from congrArg (fun x => x.2.1) hset]
    decide
  have hack : ∀ ops, writes ops = [[1], [2], [3], [4]] →
      Acknowledged ((Host.boot ⟨[], []⟩ (20 : ℕ) 0 0 (World.blank 0)).2.trace ops) := by
    intro ops hops
    rw [show ((20 : ℕ) : ℤ) = 20 from rfl, hboot]
    refine acknowledged_of_small href hsmall ?_ ?_
    · simp [Payloads, hops]
    · rw [hops]
      decide
  have hack₁ := hack [.write [1], .write [2], .write [3], .write [4]] rfl
  have hack₂ := hack [.restart true, .write [1], .write [2], .restart false, .write [3], .tick 9,
    .write [4]] rfl
  obtain ⟨hlogs, -, -, -, hcount⟩ := restarts_keep_layout hv (show 20 < 2 ^ 31 by decide)
    (by simp only [writes]) (by simp [Payloads, writes]) (by decide) hack₁ hack₂
  have hlen := hcount 13 (by simp [writes, recordSize]) (by simp [writes])
  rw [show 20 / 13 + 1 = 2 from rfl, Nat.ceilDiv_eq_add_pred_div] at hlen
  exact ⟨hlogs, hlen⟩

end MyKafka
