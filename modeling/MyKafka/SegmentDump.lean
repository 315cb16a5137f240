import MyKafka.FindEntry
import MyKafka.PartitionRefinement

/-!
# Printing a segment

`dump` goes through the index slot by slot and reads each record by itself, not by `readAt`. On any
log, damaged or not, it prints what `readAt` gives, and stops at the first record it cannot read.
-/

namespace MyKafka

open Posix LittleEndian Decimal MyKafka.Partition

/-- The text as the bytes that a stream gets. -/
def bytesOf (text : Str) : List UInt8 := text.map (fun c => UInt8.ofNat c.toNat)

namespace Segment

def entryText (offset relOffset relPosition : ℤ) : List UInt8 :=
  bytesOf ("For offset ".toList ++ decimalInt offset ++
    ", using rel_offset=".toList ++ decimalInt relOffset ++
    " and rel_position=".toList ++ decimalInt relPosition ++ ['\n'])

def recordText (offset size : ℤ) (payload : Payload) : List UInt8 :=
  bytesOf ("=> | off: ".toList ++ decimalInt offset ++ " | size: ".toList ++ decimalInt size ++
    " | payload: ".toList) ++ payload ++ bytesOf ['\n']

/-- The part of the loop of `dump` behind the entry: the text of the record. -/
def dumpRecord (s : Segment) (relPosition : ℤ) (w : World) : Result Unit × List UInt8 × World :=
  match w.lseek s.fdRead relPosition with
  | (false, w) =>
    (Utils.err .logError ("Can't seek at " ++ toString relPosition ++
      s.logText " in payload when reading " ++ " because: "), [], w)
  | (true, w) =>
    match w.read s.fdRead relPosition.toNat headerSize with
    | (none, w) =>
      (Utils.err .logError (s.logText "Can't read offset/size from log " ++ " because: "), [], w)
    | (some bytes, w) =>
      let entry := bytes ++ (toLE offsetSize (-1) ++ toLE sizeSize (-1)).drop bytes.length
      let entryOffset := fromLE (entry.take offsetSize)
      let entrySize := fromLE (entry.drop offsetSize)
      if entryOffset < 0 ∨ entrySize < 0 then
        (Utils.err .logError (s.logText "Can't read offset/size from log " ++ " because: "), [], w)
      else
        match w.read s.fdRead (relPosition.toNat + bytes.length) entrySize.toNat with
        | (none, w) =>
          (Utils.err .logError (s.logText "Can't read payload from log " ++ "! (-1 != " ++
            toString entrySize ++ ") because: "), [], w)
        | (some payload, w) =>
          if (payload.length : ℤ) ≠ entrySize then
            (Utils.err .logError (s.logText "Can't read payload from log " ++ "! (" ++
              toString payload.length ++ " != " ++ toString entrySize ++ ") because: "), [], w)
          else (.ok (), recordText entryOffset entrySize payload, w)

/-- The loop of `dump` over so many offsets from this one on. -/
def dumpLoop (s : Segment) : ℕ → ℤ → World → Result Unit × List UInt8 × World
  | 0, _, w => (.ok (), [], w)
  | n + 1, offset, w =>
    match s.index.read (offset * Index.entryWidth) w with
    | .error e => (.error e, [], w)
    | .ok (relOffset, relPosition) =>
      match s.dumpRecord relPosition w with
      | (.error e, text, w) => (.error e, entryText offset relOffset relPosition ++ text, w)
      | (.ok _, text, w) =>
        match dumpLoop s n (offset + 1) w with
        | (res, texts, w) =>
          (res, entryText offset relOffset relPosition ++ text ++ texts, w)

def dump (s : Segment) (w : World) : Result Unit × List UInt8 × World :=
  s.dumpLoop (s.nextOffset - s.index.baseOffset).toNat 0 w

/-- The offset field of the header at this position. -/
def offsetAt (s : Segment) (position : ℤ) (w : World) : ℤ :=
  let bytes := ((w.read s.fdRead position.toNat headerSize).1).getD []
  fromLE ((bytes ++ (toLE offsetSize (-1) ++ toLE sizeSize (-1)).drop bytes.length).take offsetSize)

variable {w : World} {s : Segment} {n : ℕ} {positions : ℕ → ℤ}

/-! ## One record -/

/-- A record is printed where `readAt` reads it. -/
theorem dumpRecord_reads (hw : w.Calm) (s : Segment) (relPosition target : ℤ) {relOffset : ℤ}
    (hrel : relOffset ≠ -1) :
    (s.dumpRecord relPosition w).2.2 = w ∧
      ((s.readAtEntry (.ok (relOffset, relPosition)) target w).1 = .ok () →
        (s.dumpRecord relPosition w).1 = .ok () ∧ (s.dumpRecord relPosition w).2.1 =
          recordText (s.offsetAt relPosition w)
            (s.readAtEntry (.ok (relOffset, relPosition)) target w).2.1.length
            (s.readAtEntry (.ok (relOffset, relPosition)) target w).2.1) ∧
      ((s.readAtEntry (.ok (relOffset, relPosition)) target w).1 ≠ .ok () →
        (∃ e, (s.dumpRecord relPosition w).1 = .error e) ∧ (s.dumpRecord relPosition w).2.1 = []) := by
  have hseek := World.lseek_same hw s.fdRead relPosition
  have hpos : (w.lseek s.fdRead relPosition).1 = true → relPosition ≠ -1 := by
    rintro hok rfl
    cases hfd : s.fdRead <;> simp [World.lseek, hw, hfd] at hok
  simp only [dumpRecord, readAtEntry, offsetAt]
  generalize w.lseek s.fdRead relPosition = x at hseek hpos ⊢
  obtain ⟨seeks, w₁⟩ := x
  obtain rfl := hseek
  cases seeks with
  | false =>
      refine ⟨rfl, ?_, fun _ => ⟨⟨_, rfl⟩, rfl⟩⟩
      split_ifs <;> exact fun hok => by cases hok
  | true =>
      dsimp only
      rw [if_neg (not_or.mpr ⟨hrel, hpos rfl⟩)]
      have hread := World.read_same hw s.fdRead relPosition.toNat headerSize
      generalize World.read _ s.fdRead relPosition.toNat headerSize = x at hread ⊢
      obtain ⟨head, w₂⟩ := x
      obtain rfl := hread
      cases head with
      | none =>
          dsimp only
          exact ⟨rfl, by rintro ⟨⟩, fun _ => ⟨⟨_, rfl⟩, rfl⟩⟩
      | some bytes =>
          dsimp only [Option.getD_some]
          split_ifs with hneg
          · exact ⟨rfl, by rintro ⟨⟩, fun _ => ⟨⟨_, rfl⟩, rfl⟩⟩
          · generalize hsize : fromLE ((bytes ++ (toLE offsetSize (-1) ++
              toLE sizeSize (-1)).drop bytes.length).drop offsetSize) = size
            have hbody := World.read_same hw s.fdRead (relPosition.toNat + bytes.length) size.toNat
            generalize World.read _ s.fdRead (relPosition.toNat + bytes.length) size.toNat = x
              at hbody ⊢
            obtain ⟨body, w₃⟩ := x
            obtain rfl := hbody
            cases body with
            | none =>
                dsimp only
                exact ⟨rfl, by rintro ⟨⟩, fun _ => ⟨⟨_, rfl⟩, rfl⟩⟩
            | some payload =>
                dsimp only
                split_ifs with hlen
                · exact ⟨rfl, by rintro ⟨⟩, fun _ => ⟨⟨_, rfl⟩, rfl⟩⟩
                · rw [not_not] at hlen
                  exact ⟨rfl, fun _ => ⟨rfl, by rw [hlen]⟩, fun hok => absurd rfl hok⟩

/-! ## The loop -/

/-- The entry of an offset and the record that `readAt` reads there, as `dump` prints them. -/
def printed (s : Segment) (w : World) (positions : ℕ → ℤ) (k : ℕ) : List UInt8 :=
  entryText k (k + s.index.baseOffset) (positions k) ++
    recordText (s.offsetAt (positions k) w) (s.readAt k w).2.1.length (s.readAt k w).2.1

/-- Where a run over the offsets from `k` on stops. -/
structure Stops (s : Segment) (w : World) (n : ℕ) (positions : ℕ → ℤ) (k : ℕ)
    (x : Result Unit × List UInt8 × World) (j : ℕ) : Prop where
  from_le : k ≤ j
  le : j ≤ n
  read : ∀ i, k ≤ i → i < j → (s.readAt i w).1 = .ok ()
  refused : j < n → (s.readAt j w).1 ≠ .ok ()
  ok : x.1 = .ok () ↔ j = n
  text : x.2.1 = (List.range' k (j - k)).flatMap (s.printed w positions) ++
    if j < n then entryText j (j + s.index.baseOffset) (positions j) else []
  world : x.2.2 = w

theorem dumpLoop_reads (h : Contiguous w s n positions) (hw : w.Calm) {m k : ℕ} (hk : k + m = n) :
    ∃ j, Stops s w n positions k (s.dumpLoop m k w) j := by
  induction m generalizing k with
  | zero =>
      obtain rfl : k = n := hk
      refine ⟨k, le_rfl, le_rfl, fun i hi hlt => by omega, fun hlt => by omega, ?_, ?_, rfl⟩
      · exact iff_of_true rfl rfl
      · rw [if_neg (lt_irrefl k), Nat.sub_self]
        rfl
  | succ m ih =>
      have hlt : k < n := by omega
      have hread : s.readAt k w = s.readAtEntry (.ok ((k : ℤ), positions k)) k w := by
        rw [(findEntry_direct h k).2.2, h.directEntry, if_pos ⟨by omega, by omega⟩,
          Int.toNat_natCast]
      obtain ⟨hworld, hok, herror⟩ := dumpRecord_reads hw s (positions k) k
        (show (k : ℤ) ≠ -1 by omega)
      rw [← hread] at hok herror
      rw [dumpLoop, h.read k hlt]
      dsimp only
      by_cases hk' : (s.readAt k w).1 = .ok ()
      · obtain ⟨hres, htext⟩ := hok hk'
        generalize s.dumpRecord (positions k) w = x at hworld hres htext ⊢
        obtain ⟨res, text, w₁⟩ := x
        dsimp only at hworld hres htext
        subst hworld hres
        obtain ⟨j, hj⟩ := ih (k := k + 1) (by omega)
        rw [Nat.cast_succ] at hj
        dsimp only
        generalize s.dumpLoop m ((k : ℤ) + 1) w₁ = y at hj ⊢
        obtain ⟨res, texts, w₂⟩ := y
        refine ⟨j, (Nat.le_succ k).trans hj.from_le, hj.le, fun i hi hij => ?_, hj.refused, hj.ok, ?_,
          hj.world⟩
        · rcases Nat.eq_or_lt_of_le hi with rfl | hlt'
          · exact hk'
          · exact hj.read i hlt' hij
        · have hle := hj.from_le
          have htexts : texts = _ := hj.text
          rw [show j - k = (j - (k + 1)) + 1 by omega, List.range'_succ, List.flatMap_cons, htexts,
            printed, htext]
          simp only [List.append_assoc]
      · obtain ⟨⟨e, hres⟩, htext⟩ := herror hk'
        generalize s.dumpRecord (positions k) w = x at hworld hres htext ⊢
        obtain ⟨res, text, w₁⟩ := x
        dsimp only at hworld hres htext
        subst hworld hres htext
        refine ⟨k, le_rfl, hlt.le, fun i hi hik => by omega, fun _ => hk', ?_, ?_, rfl⟩
        · exact iff_of_false (by rintro ⟨⟩) hlt.ne
        · rw [if_pos hlt, Nat.sub_self]
          simp

theorem dump_stops (h : Contiguous w s n positions) (hw : w.Calm) :
    ∃ j, Stops s w n positions 0 (s.dump w) j := by
  rw [dump, h.next, Int.toNat_natCast]
  exact dumpLoop_reads h hw (Nat.zero_add n)

/-- On any log, `dump` prints what `readAt` reads, offset by offset, and stops behind the entry of the
first offset that `readAt` refuses. -/
theorem dump_as_read (h : Contiguous w s n positions) (hw : w.Calm) :
    ∃ j ≤ n, (∀ k < j, (s.readAt k w).1 = .ok ()) ∧ (j < n → (s.readAt j w).1 ≠ .ok ()) ∧
      ((s.dump w).1 = .ok () ↔ j = n) ∧
      (s.dump w).2.1 = (List.range j).flatMap (s.printed w positions) ++
        (if j < n then entryText j (j + s.index.baseOffset) (positions j) else []) ∧
      (s.dump w).2.2 = w := by
  obtain ⟨j, hj⟩ := dump_stops h hw
  have htext := hj.text
  rw [Nat.sub_zero, ← List.range_eq_range'] at htext
  exact ⟨j, hj.le, fun k => hj.read k (Nat.zero_le k), hj.refused, hj.ok, htext, hj.world⟩

/-- The log ends inside the second of two records. -/
theorem dump_as_read_cut :
    let opened := (Segment.new ⟨[], []⟩ 5 100).open (World.blank 0)
    let first := opened.2.1.write [7] opened.2.2
    let second := first.2.1.write [8, 9] first.2.2
    let cut : World := { second.2.2 with
      fs := second.2.2.fs.setData 1 ⟨(second.2.2.fs.data 1).image.truncate 20, 0⟩ }
    (second.2.1.readAt 0 cut).1 = .ok () ∧ (second.2.1.dump cut).1 ≠ .ok () ∧
      (second.2.1.dump cut).2.1 = second.2.1.printed cut (fun k => 13 * k) 0 ++ entryText 1 6 13 := by
  intro opened first second cut
  have hcontiguous : Contiguous cut second.2.1 2 (fun k => 13 * k) :=
    ⟨by decide +kernel, by decide +kernel, by norm_num, by decide +kernel, by decide +kernel⟩
  have hcalm : cut.outcomes = [] := by decide +kernel
  have hread : (second.2.1.readAt 0 cut).1.isOk = true := by decide +kernel
  have hcut : (second.2.1.readAt 1 cut).1.isOk = false := by decide +kernel
  have hbase : second.2.1.index.baseOffset = 5 := by decide +kernel
  clear_value second cut
  obtain ⟨j, hle, hok, hrefused, hres, htext, -⟩ := dump_as_read hcontiguous hcalm
  obtain rfl : j = 1 := by
    interval_cases j
    · rw [show (((0 : ℕ) : ℤ)) = 0 from rfl] at hrefused
      cases hzero : (second.2.1.readAt 0 cut).1 with
      | ok u => exact absurd hzero (hrefused (by decide))
      | error e =>
          rw [hzero] at hread
          cases hread
    · rfl
    · have hone := hok 1 (by decide)
      rw [show (((1 : ℕ) : ℤ)) = 1 from rfl] at hone
      rw [hone] at hcut
      cases hcut
  rw [if_pos (by decide), hbase] at htext
  refine ⟨hok 0 (by decide), mt hres.mp (by decide), ?_⟩
  simpa using htext

/-! ## A whole log -/

/-- What is printed of these messages, the first of which has this offset. -/
def listing (base : ℕ) (msgs : List Payload) : List UInt8 :=
  (List.range msgs.length).flatMap fun k : ℕ =>
    entryText k (base + k) (Log.logSize (msgs.take k)) ++
      recordText (base + k) (msgs.getD k []).length (msgs.getD k [])

variable {path : RawPath} {dir : Path} {i j : ℕ} {c : Chunk}

theorem OpenAs.contiguous (h : OpenAs w.fs path dir i j s c) (ha : Log.Addressable c.msgs) :
    Contiguous w s c.msgs.length (fun k => (Log.logSize (c.msgs.take k) : ℤ)) where
  next := by
    rw [h.nextOffset, h.baseOffset, Chunk.next]
    omega
  size := h.holds.size
  room := by
    have hroom := h.holds.room
    rwa [Log.length_startsFrom] at hroom
  offset k hk := by
    have hentry := (h.holds.entry k _ (Log.startsFrom_getElem? 0 hk)).1
    have hin := h.holds.slot_le (Log.startsFrom_getElem? 0 hk)
    rw [h.holds.addr, show (8 * k : ℤ) = ((8 * k : ℕ) : ℤ) by push_cast; rfl,
      World.load_mapped (by omega) (by norm_num), hentry]
  position k hk := by
    have hentry := (h.holds.entry k _ (Log.startsFrom_getElem? 0 hk)).2
    have hin := h.holds.slot_le (Log.startsFrom_getElem? 0 hk)
    rw [zero_add] at hentry
    rw [h.holds.addr, show (8 * k + 4 : ℤ) = ((8 * k + 4 : ℕ) : ℤ) by push_cast; rfl,
      World.load_mapped (by omega) (by norm_num), hentry]
    exact congrArg some (Index.toInt32_of_range (by omega) (by exact_mod_cast ha k hk))

/-- The header of a record gives the offset of its message. -/
theorem OpenAs.offsetAt (hw : w.Calm) (h : OpenAs w.fs path dir i j s c) {k : ℕ} {m : Payload}
    (hk : c.msgs[k]? = some m) : s.offsetAt (Log.logSize (c.msgs.take k)) w = c.base + k := by
  obtain ⟨num, hfd⟩ := h.fdRead
  have hlt := (List.getElem?_eq_some_iff.mp hk).1
  have hnext := h.fits.next_lt
  rw [Chunk.next] at hnext
  have hbytes := h.bytes
  rw [Log.encode_at c.base hk, Log.record] at hbytes
  have hhead : (w.fs.data i).image.read (Log.logSize (c.msgs.take k)) headerSize =
      toLE 8 (c.base + k) ++ toLE 4 m.length := by
    rw [Image.read_eq, hbytes, ← Log.length_encode c.base]
    simp only [List.append_assoc]
    rw [List.drop_left, ← List.append_assoc, List.take_left' (by simp [headerSize, offsetSize, sizeSize])]
  rw [Segment.offsetAt, hfd, World.read_calm hw, Int.toNat_natCast, hhead]
  dsimp only [Option.getD_some]
  rw [List.append_assoc, show offsetSize = (toLE 8 ((c.base : ℤ) + k)).length from
    (length_toLE 8 _).symm, List.take_left]
  exact fromLE_toLE_of_range (by omega) (by omega)

/-- A segment that stands for messages prints them. -/
theorem dump_open (hw : w.Calm) (h : OpenAs w.fs path dir i j s c) (ha : Log.Addressable c.msgs) :
    s.dump w = (.ok (), listing c.base c.msgs, w) := by
  obtain ⟨j', hstops⟩ := dump_stops (OpenAs.contiguous h ha) hw
  have hread : ∀ k (hk : k < c.msgs.length), s.readAt k w = (.ok (), c.msgs.getD k [], w) := by
    intro k hk
    rw [List.getD_eq_getElem _ _ hk]
    exact readAt_ok hw h (List.getElem?_eq_getElem hk) (ha k hk)
  obtain rfl : j' = c.msgs.length := by
    by_contra hne
    have hlt : j' < c.msgs.length := lt_of_le_of_ne hstops.le hne
    exact hstops.refused hlt (congrArg Prod.fst (hread j' hlt))
  have htext := hstops.text
  rw [if_neg (lt_irrefl _), List.append_nil, Nat.sub_zero, ← List.range_eq_range'] at htext
  have hlisting : (List.range c.msgs.length).flatMap
      (s.printed w (fun k => (Log.logSize (c.msgs.take k) : ℤ))) = listing c.base c.msgs := by
    refine List.flatMap_congr fun k hk => ?_
    have hk := List.mem_range.mp hk
    rw [printed, hread k hk, OpenAs.offsetAt hw h (List.getElem?_eq_getElem hk), h.baseOffset,
      add_comm (k : ℤ)]
  rw [hlisting] at htext
  exact Prod.ext (hstops.ok.mpr rfl) (Prod.ext htext hstops.world)

end Segment

/-- In every run of a partition whose writes are acknowledged, each segment prints the messages it
was given, with their offsets and the positions of their records. -/
theorem segments_print_log {w : World} {dir : Path} {path : RawPath} {S M ttl : ℤ}
    {ops : List PartitionOp} (hv : Vacant w path dir) (h0 : 0 ≤ S) (h1 : S < 2 ^ 31)
    (hpay : Payloads ops) (hcount : (writes ops).length < 2 ^ 63)
    (hack : Acknowledged ((Host.boot path S M ttl w).2.trace ops)) :
    let h := (Host.boot path S M ttl w).2.final ops
    ∀ s ∈ h.partition.segments, ∃ base len : ℕ, s.baseOffset = base ∧ s.nextOffset = base + len ∧
      base + len ≤ (writes ops).length ∧
      s.dump h.world = (.ok (), Segment.listing base (((writes ops).drop base).take len), h.world) := by
  obtain ⟨h, hboot, -, href⟩ : ∃ h, Host.boot path S M ttl w = (.ok (), h) ∧ _ :=
    boot_refines hv h0 h1
  rw [hboot] at hack ⊢
  obtain ⟨t, -, hlog, -, href'⟩ := href.run hpay (by simpa using hcount) hack
  rw [List.nil_append] at hlog
  obtain ⟨cs, hrep, -, haddr, -⟩ := href'.chunks
  rw [hlog] at hrep
  intro h' s hs
  obtain ⟨c, hc, hst⟩ := forall₂_mem hrep.live.stands hs
  obtain ⟨i, j, hopen⟩ := hst.opened
  obtain ⟨xs, ys, rfl⟩ := List.append_of_mem hc
  obtain ⟨pre, hsplit, hbase⟩ := hrep.live.represents.base_of_split
  have hmsgs : ((writes ops).drop c.base).take c.msgs.length = c.msgs := by
    rw [hsplit, hbase, List.drop_left, List.take_left]
  refine ⟨c.base, c.msgs.length, hopen.baseOffset, hopen.nextOffset, ?_, ?_⟩
  · rw [hsplit, hbase]
    simp
  · rw [hmsgs]
    exact Segment.dump_open href'.calm hopen (haddr c hc)

theorem segments_print_log_retention :
    let ops : List PartitionOp :=
      [.write [1], .write [2], .write [3], .restart true, .write [4], .write [5]]
    let h := (Host.boot ⟨[], []⟩ 20 30 0 (World.blank 0)).2.final ops
    ∀ s ∈ h.partition.segments, (s.dump h.world).1 = .ok () := by
  intro ops
  have hv := Vacant.blank 0
  obtain ⟨h, hboot, hset, href⟩ : ∃ h, Host.boot ⟨[], []⟩ 20 30 0 (World.blank 0) = (.ok (), h) ∧ _ :=
    boot_refines hv (by decide) (by decide)
  have hpay : Payloads ops := by
    simp [Payloads, writes, ops]
  have hack := acknowledged_of_small href
    (show h.partition.maxSegmentSize < 15728640 by
      rw [show h.partition.maxSegmentSize = 20 from congrArg (fun x => x.2.1) hset]
      decide) hpay (by decide)
  have hprint := segments_print_log hv (show (0 : ℤ) ≤ 20 by decide) (by decide) hpay (by decide)
    (by rw [hboot]; exact hack)
  intro h' s hs
  obtain ⟨base, len, -, -, -, hdump⟩ := hprint s hs
  rw [hdump]

end MyKafka
