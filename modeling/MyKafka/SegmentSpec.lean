import MyKafka.Bisection
import MyKafka.SegmentOpen

/-!
# Writing to and reading from an open segment

A write either adds a message to the chunk or, once the index is full, leaves its bytes behind the
last record. The binary search of `findEntry` finds entry `k` for the offset `k`, and reading there
gives message `k` back as long as its position fits 32 bits.
-/

namespace MyKafka

open Posix LittleEndian Log

namespace Segment

variable {w : World} {s : Segment} {i j : ℕ} {path : RawPath} {dir : Path} {c : Chunk}

/-! ## Writing -/

theorem appendPayload_calm (hw : w.Calm) (num i : ℕ) {m : Payload} (hm : m.length < 2 ^ 31) :
    appendPayload w (.live num i) m (toInt32 m.length) =
      ((m.length : ℤ), w.setImage i ((w.fs.data i).image.append m)) ∧
    toInt32 m.length = m.length := by
  have hsize : toInt32 (m.length : ℤ) = m.length :=
    Index.toInt32_of_range (by omega) (by exact_mod_cast hm)
  refine ⟨?_, hsize⟩
  rw [appendPayload, hsize, if_neg (by omega), Int.toNat_natCast, List.take_length,
    World.append_calm hw]

theorem write_bytes (hw : w.Calm) (hfd : ∃ num, s.fd = .live num i) {m : Payload}
    (hm : m.length < 2 ^ 31) :
    ∃ d, d.image.toList = (w.fs.data i).image.toList ++ record s.nextOffset m ∧ d.mtime = w.now ∧
      s.write m w =
        match s.index.write s.nextOffset s.position { w with fs := w.fs.setData i d } with
        | (.error e, index, w) => (.error e, { s with index := index }, w)
        | (.ok _, index, w) =>
          (.ok s.nextOffset, { s with
            index := index
            nextOffset := toInt64 (s.nextOffset + 1)
            position := s.position + (12 + m.length)
            physicalSize := s.physicalSize + (12 + m.length) }, w) := by
  obtain ⟨num, hfd⟩ := hfd
  refine ⟨⟨((w.fs.data i).image.append (toLE 8 s.nextOffset ++ toLE 4 m.length)).append m, w.now⟩,
    ?_, rfl, ?_⟩
  · simp only [Image.toList_append, record, List.append_assoc]
  · obtain ⟨hap, hsize⟩ := appendPayload_calm (World.setImage_calm hw i
      ((w.fs.data i).image.append (toLE 8 s.nextOffset ++ toLE 4 m.length))) num i hm
    rw [write, hsize, writeBuffer, hfd, World.append_calm hw]
    dsimp only
    rw [hsize] at hap
    rw [if_neg (by simp [headerSize, offsetSize, sizeSize]), show offsetSize = 8 from rfl,
      show sizeSize = 4 from rfl, hap]
    dsimp only
    rw [if_neg (by simp)]
    simp only [World.setImage, FileSystem.data_setData_same, FileSystem.setData_setData]
    rfl

/-- While the index has room a write adds its message to the chunk. -/
theorem write_ok (hw : w.Calm) (h : OpenAs w.fs path dir i j s c)
    (hroom : c.msgs.length < 1310720) {m : Payload} (hm : m.length < 2 ^ 31)
    (hnext : c.next + 1 < 2 ^ 63) :
    ∃ s' w', s.write m w = (.ok c.next, s', w') ∧
      OpenAs w'.fs path dir i j s' (c.push m w.now) ∧ s'.mtime = s.mtime ∧
      s'.maxSize = s.maxSize := by
  obtain ⟨d, hbytes, hmtime, hwrite⟩ := write_bytes hw h.fd hm
  have hjunk : c.junk = [] := h.junk.resolve_right (by omega)
  have hij := h.ne
  have H : s.index.Holds (w.fs.setData i d) j (startsFrom 0 c.msgs) :=
    h.holds.congr (FileSystem.data_setData_ne _ _ (Ne.symm hij))
  obtain ⟨d', hx, H'⟩ := Index.write_room (w := { w with fs := w.fs.setData i d }) H
    (by rwa [length_startsFrom]) s.position
  have hoff : s.index.baseOffset + ((startsFrom 0 c.msgs).length : ℤ) = s.nextOffset := by
    rw [length_startsFrom, h.baseOffset, h.nextOffset, Chunk.next]
    push_cast
    rfl
  rw [hoff] at hx
  have hdata : ((w.fs.setData i d).setData j d').data i = d := by
    rw [FileSystem.data_setData_ne _ _ hij, FileSystem.data_setData_same]
  refine ⟨{ s with
      index := { s.index with position := s.index.position + 8 }
      nextOffset := toInt64 (s.nextOffset + 1)
      position := s.position + (12 + m.length)
      physicalSize := s.physicalSize + (12 + m.length) },
    { w with fs := (w.fs.setData i d).setData j d' }, ?_, ?_, rfl, rfl⟩
  · rw [hwrite, hx, h.nextOffset]
  · refine ⟨⟨h.log, h.index, ?_, ?_, ⟨?_, ?_, ?_⟩⟩, h.fd, h.fdRead, ?_, ?_, ?_,
      h.filename, h.indexFilename, h.baseOffset, ?_, Or.inl hjunk⟩
    · show (((w.fs.setData i d).setData j d').data i).image.toList =
        encode c.base (c.msgs ++ [m]) ++ c.junk
      rw [hdata, hbytes, h.bytes, hjunk, encode_append, encode_singleton, h.nextOffset, Chunk.next]
      simp only [List.append_nil]
      push_cast
      rfl
    · show (((w.fs.setData i d).setData j d').data i).mtime = w.now
      rw [hdata, hmtime]
    · intro m' hm'
      rcases List.mem_append.mp hm' with hm' | hm'
      · exact h.fits.payload m' hm'
      · rwa [List.mem_singleton.mp hm']
    · rw [Chunk.next_push]
      omega
    · simp only [Chunk.push, List.length_append, List.length_singleton]
      omega
    · show toInt64 (s.nextOffset + 1) = _
      rw [h.nextOffset, Chunk.next_push, toInt64_of_range (by omega) (by omega)]
      push_cast
      rfl
    · show s.position + _ = _
      rw [h.position, Chunk.size_push]
      push_cast
      rfl
    · show s.physicalSize + _ = _
      rw [h.physicalSize, Chunk.size_push]
      push_cast
      rfl
    · show Index.Holds _ j _ (startsFrom 0 (c.msgs ++ [m]))
      rw [startsFrom_append]
      rw [h.position] at H'
      simpa [startsFrom, Chunk.size] using H'

/-- Once the index is full a write fails and leaves its bytes in the log. -/
theorem write_full (hw : w.Calm) (h : OpenAs w.fs path dir i j s c)
    (hfull : c.msgs.length = 1310720) {m : Payload} (hm : m.length < 2 ^ 31) :
    ∃ e w', s.write m w = (.error e, s, w') ∧
      OpenAs w'.fs path dir i j s (c.spoil (record c.next m) w.now) := by
  obtain ⟨d, hbytes, hmtime, hwrite⟩ := write_bytes hw h.fd hm
  have hij := h.ne
  have H : s.index.Holds (w.fs.setData i d) j (startsFrom 0 c.msgs) :=
    h.holds.congr (FileSystem.data_setData_ne _ _ (Ne.symm hij))
  obtain ⟨e, hx⟩ := Index.write_full (w := { w with fs := w.fs.setData i d }) H
    (by rwa [length_startsFrom]) s.nextOffset s.position
  refine ⟨e, { w with fs := w.fs.setData i d }, ?_, ?_⟩
  · rw [hwrite, hx]
  · refine ⟨⟨h.log, h.index, ?_, ?_, ⟨h.fits.payload, h.fits.next_lt, h.fits.room⟩⟩, h.fd, h.fdRead,
      h.nextOffset, h.position, h.physicalSize, h.filename, h.indexFilename, h.baseOffset, H,
      Or.inr hfull⟩
    · show ((w.fs.setData i d).data i).image.toList = encode c.base c.msgs ++ (c.junk ++ _)
      rw [FileSystem.data_setData_same, hbytes, h.bytes, h.nextOffset, List.append_assoc]
    · show ((w.fs.setData i d).data i).mtime = w.now
      rw [FileSystem.data_setData_same, hmtime]

/-! ## Reading -/

theorem middle_of_range {first last : ℤ} (h0 : 0 ≤ first) (hle : first ≤ last)
    (hlast : last < 2 ^ 62) : middle first last = Int.tdiv (first + last) 2 := by
  rw [middle, toInt64_of_range (by omega) (by omega)]

theorem slot_of_range {k : ℤ} (h0 : 0 ≤ k) (h1 : k < 2 ^ 60) :
    toInt64 (k * Index.entryWidth) = k * Index.entryWidth := by
  rw [show Index.entryWidth = 8 from rfl, toInt64_of_range (by omega) (by omega)]

/-- The search over the entries from `first` to `last`: an offset that is stored and was not just read
lies between them, and an offset that is not stored is never read. -/
theorem findEntryLoop_spec {x : Index} {n : ℕ} {f : ℕ → ℤ} (hn : n ≤ 1310720)
    (H : ∀ k < n, x.read (k * Index.entryWidth) w = .ok (k + x.baseOffset, f k)) (target : ℤ)
    {fuel : ℕ} : ∀ {first last relOffset relPosition : ℤ},
      (last + 1 - first).toNat < fuel → 0 ≤ first → last < n →
      (relOffset = target → 0 ≤ target → target < n → relPosition = f target.toNat) →
      (relOffset ≠ target → 0 ≤ target → target < n → first ≤ target ∧ target ≤ last) →
      ∃ r p, findEntryLoop x target w fuel first last (middle first last) relOffset
          relPosition = some (.ok (r, p)) ∧
        (0 ≤ target → target < n → r = target ∧ p = f target.toNat) ∧
        (target < 0 ∨ n ≤ target → r ≠ target ∨ r = relOffset ∧ p = relPosition) := by
  induction fuel with
  | zero => intro first last _ _ hfuel; omega
  | succ fuel ih =>
      intro first last relOffset relPosition hfuel h0 hlast hfound hrange
      rw [findEntryLoop]
      split_ifs with hcond
      · obtain ⟨hle, hne⟩ := hcond
        obtain ⟨hlo, hhi⟩ := Bisection.midpoint h0 hle
        rw [middle_of_range h0 hle (by omega)]
        obtain ⟨k, hk⟩ : ∃ k : ℕ, Int.tdiv (first + last) 2 = k :=
          ⟨_, (Int.toNat_of_nonneg (h0.trans hlo)).symm⟩
        rw [hk] at hlo hhi ⊢
        rw [slot_of_range (by omega) (by omega), H k (by omega)]
        dsimp only
        rw [Int.add_sub_cancel]
        have hstored : (k : ℤ) = target → 0 ≤ target → target < n → f k = f target.toNat := by
          rintro rfl _ _
          rfl
        split_ifs with hbefore
        · obtain ⟨r, p, hloop, hin, hout⟩ := ih
            (by omega) h0 (show (k : ℤ) - 1 < n by omega) hstored
            (fun _ h0t ht => by have := hrange hne h0t ht; omega)
          exact ⟨r, p, hloop, hin, fun hnot => Or.inl ((hout hnot).elim id (by omega))⟩
        · obtain ⟨r, p, hloop, hin, hout⟩ := ih
            (by omega) (show (0 : ℤ) ≤ k + 1 by omega) hlast hstored
            (fun hkt h0t ht => by have := hrange hne h0t ht; omega)
          exact ⟨r, p, hloop, hin, fun hnot => Or.inl ((hout hnot).elim id (by omega))⟩
      · refine ⟨relOffset, relPosition, rfl, ?_, fun _ => Or.inr ⟨rfl, rfl⟩⟩
        intro h0t ht
        by_cases heq : relOffset = target
        · exact ⟨heq, hfound heq h0t ht⟩
        · have := hrange heq h0t ht
          exact absurd ⟨by omega, heq⟩ hcond

/-- What the search answers: the entry of a stored offset, and `-1` for every other offset. -/
theorem findEntry_entries {n : ℕ} {f : ℕ → ℤ} (hn : n ≤ 1310720)
    (H : ∀ k < n, s.index.read (k * Index.entryWidth) w = .ok (k + s.index.baseOffset, f k))
    (hnext : s.nextOffset - s.index.baseOffset = n) (relPosition target : ℤ) :
    ∃ p, s.findEntry relPosition target w =
        .ok (if 0 ≤ target ∧ target < n then (target, f target.toNat) else (-1, p)) ∧
      (relPosition = -1 → p = -1) := by
  have hlast : toInt64 (s.nextOffset - s.index.baseOffset - 1) = (n : ℤ) - 1 := by
    rw [hnext, toInt64_of_range (by omega) (by omega)]
  have hfuel : ((n : ℤ) - 1 + 1 - 0).toNat < ((n : ℤ) - 1).toNat + 2 := by omega
  obtain ⟨r, p, hloop, hin, hout⟩ :=
    findEntryLoop_spec hn H target hfuel le_rfl (by omega)
      (show (-1 : ℤ) = target → 0 ≤ target → target < n → relPosition = f target.toNat by omega)
      (by omega)
  unfold findEntry
  dsimp only
  rw [hlast, hloop, Option.getD_some]
  dsimp only
  by_cases hrange : 0 ≤ target ∧ target < n
  · obtain ⟨rfl, rfl⟩ := hin hrange.1 hrange.2
    refine ⟨-1, ?_, fun _ => rfl⟩
    rw [if_neg (by simp), if_pos hrange]
  · simp only [if_neg hrange]
    rcases hout (by omega) with hne | ⟨rfl, rfl⟩
    · rw [if_pos hne]
      exact ⟨-1, rfl, fun _ => rfl⟩
    · split_ifs
      · exact ⟨-1, rfl, fun _ => rfl⟩
      · exact ⟨p, rfl, id⟩

/-- `position` is what the entry of the offset `target` says. -/
def Stored (es : List ℤ) (target position : ℤ) : Prop :=
  ∃ pos, es[target.toNat]? = some pos ∧ position = toInt32 pos

theorem findEntry_spec (H : s.index.Holds w.fs j (startsFrom 0 c.msgs))
    (hnext : s.nextOffset - s.index.baseOffset = c.msgs.length) (target : ℤ) :
    ∃ p, s.findEntry (-1) target w =
        .ok (if 0 ≤ target ∧ target < c.msgs.length then (target, p) else (-1, -1)) ∧
      (0 ≤ target → target < c.msgs.length → Stored (startsFrom 0 c.msgs) target p) := by
  have hentries : ∀ k < c.msgs.length, s.index.read (k * Index.entryWidth) w =
      .ok (k + s.index.baseOffset, toInt32 (logSize (c.msgs.take k))) := by
    intro k hk
    have hentry := Index.read_entry H (startsFrom_getElem? 0 hk)
    rwa [zero_add] at hentry
  have hroom := H.room
  rw [length_startsFrom] at hroom
  obtain ⟨p, hfind, hp⟩ := findEntry_entries hroom hentries hnext (-1) target
  rw [hp rfl] at hfind
  refine ⟨_, hfind, fun h0 h1 => ⟨logSize (c.msgs.take target.toNat), ?_, rfl⟩⟩
  rw [startsFrom_getElem? 0 (by omega), zero_add]

/-- A whole record at a position of a log: a header without negative fields and the payload. -/
def RecordAt (log : List UInt8) (position : ℕ) (payload : Payload) : Prop :=
  ∃ header, header.length = headerSize ∧ 0 ≤ fromLE (header.take offsetSize) ∧
    fromLE (header.drop offsetSize) = payload.length ∧ header ++ payload <+: log.drop position

/-- The records at a header that is in range. -/
theorem recordAt_header (pre post : List UInt8) (offset size : ℤ) (payload : Payload)
    (h0 : -2 ^ 63 ≤ offset) (h1 : offset < 2 ^ 63) (h2 : -2 ^ 31 ≤ size) (h3 : size < 2 ^ 31) :
    RecordAt (pre ++ (toLE 8 offset ++ (toLE 4 size ++ post))) pre.length payload ↔
      0 ≤ offset ∧ size = payload.length ∧ payload <+: post := by
  have hlen : (toLE 8 offset ++ toLE 4 size).length = headerSize := by
    rw [List.length_append, length_toLE, length_toLE]
    rfl
  have h8 : offsetSize = (toLE 8 offset).length := (length_toLE 8 offset).symm
  have hoffset : fromLE ((toLE 8 offset ++ toLE 4 size).take offsetSize) = offset := by
    rw [h8, List.take_left]
    exact fromLE_toLE_of_range (by omega) (by omega)
  have hsize : fromLE ((toLE 8 offset ++ toLE 4 size).drop offsetSize) = size := by
    rw [h8, List.drop_left]
    exact fromLE_toLE_of_range (by omega) (by omega)
  rw [RecordAt, List.drop_left, ← List.append_assoc]
  constructor
  · rintro ⟨header, hheader, hoff, hsz, rest, hpre⟩
    rw [List.append_assoc] at hpre
    obtain ⟨rfl, hpost⟩ := List.append_inj hpre (hheader.trans hlen.symm)
    rw [hoffset] at hoff
    rw [hsize] at hsz
    exact ⟨hoff, hsz, rest, hpost⟩
  · rintro ⟨hoff, hsz, hpost⟩
    refine ⟨_, hlen, ?_, ?_, (List.prefix_append_right_inj _).mpr hpost⟩
    · rwa [hoffset]
    · rwa [hsize]

theorem RecordAt.reads {im : Image} {position : ℕ} {payload : Payload}
    (h : RecordAt im.toList position payload) :
    (im.read position headerSize).length = headerSize ∧
      0 ≤ fromLE ((im.read position headerSize).take offsetSize) ∧
      fromLE ((im.read position headerSize).drop offsetSize) = payload.length ∧
      im.read (position + headerSize) payload.length = payload := by
  obtain ⟨header, hlen, hoffset, hsize, rest, hpre⟩ := h
  have hhead : im.read position headerSize = header := by
    rw [Image.read_eq, ← hpre, List.append_assoc, ← hlen, List.take_left]
  have hbody : im.read (position + headerSize) payload.length = payload := by
    rw [Image.read_eq, ← List.drop_drop, ← hpre, List.append_assoc, ← hlen, List.drop_left,
      List.take_left]
  rw [hhead]
  exact ⟨hlen, hoffset, hsize, hbody⟩

/-- Where the index leads to a record, the record is read. -/
theorem readAt_found (hw : w.Calm) {i : ℕ} (hfd : ∃ num, s.fdRead = .live num i) {target r : ℤ}
    {position : ℕ} {payload : Payload} (hfind : s.findEntry (-1) target w = .ok (r, position))
    (hr : r ≠ -1) (h : RecordAt (w.fs.data i).image.toList position payload) :
    s.readAt target w = (.ok (), payload, w) := by
  obtain ⟨num, hfd⟩ := hfd
  obtain ⟨hlen, hoffset, hsize, hbody⟩ := h.reads
  unfold readAt
  rw [hfind]
  dsimp only
  rw [if_neg (by omega), hfd, World.lseek_calm hw, decide_eq_true (by omega)]
  dsimp only
  rw [Int.toNat_natCast, World.read_calm hw]
  dsimp only
  rw [List.drop_eq_nil_of_le (by rw [hlen, List.length_append, length_toLE, length_toLE]; rfl),
    List.append_nil, hsize, if_neg (by omega), hlen, Int.toNat_natCast, World.read_calm hw, hbody]
  dsimp only
  rw [if_neg (by simp)]

theorem stored_eq {k : ℕ} (hk : k < c.msgs.length) {p : ℤ}
    (h : Stored (startsFrom 0 c.msgs) k p) : p = toInt32 (logSize (c.msgs.take k)) := by
  obtain ⟨pos, hpos, rfl⟩ := h
  rw [Int.toNat_natCast, startsFrom_getElem? 0 hk, zero_add, Option.some.injEq] at hpos
  rw [hpos]

theorem findEntry_open (h : OpenAs w.fs path dir i j s c) (target : ℤ) :
    ∃ p, s.findEntry (-1) target w =
        .ok (if 0 ≤ target ∧ target < c.msgs.length then (target, p) else (-1, -1)) ∧
      (0 ≤ target → target < c.msgs.length → Stored (startsFrom 0 c.msgs) target p) := by
  apply findEntry_spec h.holds
  rw [h.nextOffset, h.baseOffset, Chunk.next]
  omega

/-- A message whose record starts below 2³¹ is read back. -/
theorem readAt_ok (hw : w.Calm) (h : OpenAs w.fs path dir i j s c) {k : ℕ} {m : Payload}
    (hk : c.msgs[k]? = some m) (hpos : logSize (c.msgs.take k) < 2 ^ 31) :
    s.readAt k w = (.ok (), m, w) := by
  have hlt : k < c.msgs.length := (List.getElem?_eq_some_iff.mp hk).1
  have hm : m.length < 2 ^ 31 := h.fits.payload m (List.mem_of_getElem? hk)
  have hnext := h.fits.next_lt
  have hoff : (c.base : ℤ) + k < 2 ^ 63 := by
    unfold Chunk.next at hnext
    omega
  obtain ⟨p, hfind, hstored⟩ := findEntry_open h k
  obtain rfl : p = (logSize (c.msgs.take k) : ℤ) :=
    (stored_eq hlt (hstored (by omega) (by omega))).trans
      (Index.toInt32_of_range (by omega) (by exact_mod_cast hpos))
  rw [if_pos ⟨by omega, by omega⟩] at hfind
  have hbytes := h.bytes
  rw [encode_at c.base hk, record] at hbytes
  have hrec : RecordAt (w.fs.data i).image.toList (logSize (c.msgs.take k)) m := by
    have hat := recordAt_header (encode c.base (c.msgs.take k))
      (m ++ (encode (c.base + k + 1) (c.msgs.drop (k + 1)) ++ c.junk)) (c.base + k) m.length m
      (by omega) hoff (by omega) (by omega)
    rw [length_encode] at hat
    rw [hbytes]
    simp only [List.append_assoc]
    exact hat.mpr ⟨by omega, rfl, List.prefix_append _ _⟩
  exact readAt_found hw h.fdRead hfind (by omega) hrec

theorem readAt_error (h : OpenAs w.fs path dir i j s c) {target : ℤ}
    (hout : target < 0 ∨ c.msgs.length ≤ target) : ∃ e, s.readAt target w = (.error e, [], w) := by
  obtain ⟨p, hfind, -⟩ := findEntry_open h target
  rw [if_neg (by omega)] at hfind
  unfold readAt
  rw [hfind]
  exact ⟨_, rfl⟩

/-- A message whose record starts at 2³¹ exactly is not read: its position was narrowed to a
negative one. -/
theorem readAt_narrowed (hw : w.Calm) (h : OpenAs w.fs path dir i j s c) {k : ℕ}
    (hk : k < c.msgs.length) (hpos : logSize (c.msgs.take k) = 2 ^ 31) :
    ∃ e, s.readAt k w = (.error e, [], w) := by
  obtain ⟨num, hfd⟩ := h.fdRead
  obtain ⟨p, hfind, hstored⟩ := findEntry_open h k
  have hp := stored_eq hk (hstored (by omega) (by omega))
  rw [hpos, show toInt32 ((2 ^ 31 : ℕ) : ℤ) = -2 ^ 31 from by decide] at hp
  subst hp
  rw [if_pos ⟨by omega, by omega⟩] at hfind
  unfold readAt
  rw [hfind]
  dsimp only
  rw [if_neg (by omega), hfd, World.lseek_calm hw, decide_eq_false (by omega)]
  exact ⟨_, rfl⟩

/-! ## Closing and deleting -/

theorem readAt_calm (hw : w.Calm) (s : Segment) (target : ℤ) : (s.readAt target w).2.2 = w := by
  have hread := fun pos n => World.read_same hw s.fdRead pos n
  unfold Segment.readAt
  split
  · rfl
  · next relOffset relPosition _ =>
      split_ifs
      · rfl
      · have hseek := World.lseek_same hw s.fdRead relPosition
        split
        · next w₁ he =>
            rw [he] at hseek
            exact hseek
        · next w₁ he =>
            rw [he] at hseek
            obtain rfl : w₁ = w := hseek
            have hheader := hread relPosition.toNat headerSize
            split
            · next w₂ he =>
                rw [he] at hheader
                exact hheader
            · next bytes w₂ he =>
                rw [he] at hheader
                obtain rfl : w₂ = w₁ := hheader
                dsimp only
                split_ifs
                · rfl
                · split
                  · next w₃ he =>
                      have hpayload := congrArg Prod.snd he
                      rw [hread] at hpayload
                      exact hpayload.symm
                  · next payload w₃ he =>
                      have hpayload := congrArg Prod.snd he
                      rw [hread] at hpayload
                      split_ifs
                      · exact hpayload.symm
                      · exact hpayload.symm

/-- Neither file of the segment is open. -/
def Shut (s : Segment) : Prop := s.fd = .closed ∧ s.index.fd = .closed

theorem destroy_shut (h : s.Shut) (w : World) : s.destroy w = w := by
  rw [destroy, Segment.close, if_pos h.1]
  dsimp only
  rw [Index.close, if_pos h.2]

theorem close_spec (hw : w.Calm) (h : OpenAs w.fs path dir i j s c) :
    ∃ s' w', s.close w = (.ok (), s', w') ∧ s'.Shut ∧ s'.filename = s.filename ∧
      s'.index.filename = s.index.filename ∧ OnDisk w'.fs dir i j c ∧
      Index.Sane (w'.fs.data j).image := by
  obtain ⟨n₁, hfd⟩ := h.fd
  obtain ⟨n₂, hfr⟩ := h.fdRead
  let w₂ : World := { w with closed := n₂ :: n₁ :: w.closed }
  have hw₁ : World.Calm { w with closed := n₁ :: w.closed } := hw
  obtain ⟨im, n₃, hsane, hclose⟩ := Index.close_calm (w := w₂) (x := s.index) (j := j) hw h.holds
  have hij := h.ne
  refine ⟨{ s with
      fd := .closed, fdRead := .closed, position := 0, mtime := 0, physicalSize := 0
      index := { s.index with fd := .closed, addr := .stale j } },
    { w₂ with fs := w.fs.setData j ⟨im, w.now⟩, closed := n₃ :: w₂.closed }, ?_, ⟨rfl, rfl⟩, rfl,
    rfl, ⟨h.log, h.index, ?_, ?_, h.fits⟩, ?_⟩
  · unfold Segment.close
    rw [if_neg (by rw [hfd]; simp), hfd, World.close_calm hw]
    dsimp only
    rw [hfr, World.close_calm hw₁]
    dsimp only
    rw [hclose]
  · show ((w.fs.setData j _).data i).image.toList = _
    rw [FileSystem.data_setData_ne _ _ hij, h.bytes]
  · show ((w.fs.setData j _).data i).mtime = _
    rw [FileSystem.data_setData_ne _ _ hij, h.mtime]
  · show Index.Sane ((w.fs.setData j _).data j).image
    rw [FileSystem.data_setData_same]
    exact hsane

theorem deleteSegment_spec (hw : w.Calm) (hp : FileSystem.At w.fs path dir)
    (h : OpenAs w.fs path dir i j s c) :
    ∃ s' w', s.deleteSegment w = (.ok (), s', w') ∧ s'.Shut ∧
      ∀ q, ownNames dir c.base q → w'.fs.node? q = none := by
  obtain ⟨s₁, w₁, hclose, hshut, hname, hxname, hdisk, -⟩ := close_spec hw h
  have hfr := close_frame (Frame.refl (fun _ => id)) (h.confined hp)
  rw [hclose] at hfr
  have hw₁ : w₁.Calm := hfr.1.calm hw
  have hdirs : ∀ q, w₁.fs.IsDir q ↔ w.fs.IsDir q := by
    refine FileSystem.isDir_congr hfr.1.within ?_ ?_
    · rintro q (rfl | rfl)
      · rw [FileSystem.IsDir, h.log]; simp
      · rw [FileSystem.IsDir, h.index]; simp
    · rintro q (rfl | rfl)
      · rw [FileSystem.IsDir, hdisk.log]; simp
      · rw [FileSystem.IsDir, hdisk.index]; simp
  have hp₁ := hp.congr hdirs
  have hlx : dir ++ [logName c.base] ≠ dir ++ [indexName c.base] := by
    intro he
    exact logName_ne_indexName c.base c.base (by simpa using he)
  let w₂ : World := { w₁ with fs := w₁.fs.erase (dir ++ [logName c.base]) }
  have hn₂ : ∀ q, w₂.fs.node? q = if q = dir ++ [logName c.base] then none else w₁.fs.node? q :=
    FileSystem.node?_erase w₁.fs (by simp)
  have hp₂ : FileSystem.At w₂.fs path dir := by
    apply hp₁.congr
    intro q
    rw [FileSystem.IsDir, FileSystem.IsDir, hn₂]
    split_ifs with hq
    · subst hq
      rw [hdisk.log]
      simp
    · rfl
  have hx₂ : w₂.fs.node? (dir ++ [indexName c.base]) = some (.file j) := by
    rw [hn₂, if_neg (Ne.symm hlx), hdisk.index]
  refine ⟨s₁, { w₂ with fs := w₂.fs.erase (dir ++ [indexName c.base]) }, ?_, hshut, ?_⟩
  · have hlog : w₁.unlink s₁.filename = (true, w₂) := by
      rw [hname, h.filename]
      exact World.unlink_calm hw₁ (hp₁.child (plain_logName _)) hdisk.log
    have hindex : s₁.index.deleteIndex w₂ =
        (.ok (), { w₂ with fs := w₂.fs.erase (dir ++ [indexName c.base]) }) := by
      have hw₂ : w₂.Calm := hw₁
      rw [Index.deleteIndex, hxname, h.indexFilename, getIndexFilename_eq,
        World.unlink_calm hw₂ (hp₂.child (plain_indexName _)) hx₂]
    unfold deleteSegment
    rw [hclose]
    dsimp only
    rw [hlog]
    dsimp only
    rw [hindex]
  · intro q hq
    show (w₂.fs.erase _).node? q = none
    rw [FileSystem.node?_erase _ (by simp), hn₂]
    rcases hq with rfl | rfl
    · rw [if_neg hlx, if_pos rfl]
    · rw [if_pos rfl]

end Segment

end MyKafka
