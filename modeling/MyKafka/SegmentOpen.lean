import MyKafka.SegmentFiles

/-!
# Opening a segment

The rebuild of the index goes through the log record by record: after the records of the messages
`ms` the index holds their positions and the cursor stands behind them. Opening the two files of a
chunk therefore gives an open segment that stands for it.
-/

namespace MyKafka

open Posix LittleEndian Log

namespace Segment

variable {w : World} {s : Segment} {i j : ℕ}

/-- A field that is read in full. -/
theorem overlay_full {width : ℕ} {old : ℤ} {bytes : List UInt8} (h : bytes.length = width) :
    overlay width old bytes = fromLE bytes := by
  rw [overlay, List.drop_eq_nil_of_le (by rw [length_toLE]; omega), List.append_nil]

/-- The segment after one turn of the rebuild. -/
def advance (s : Segment) (x : Index) (offset size : ℤ) : Segment :=
  { s with
    index := x
    nextOffset := toInt64 (offset + 1)
    position := s.position + (size + 12) }

/-- The offset that the header at `q` carries. -/
def offsetField (log : List UInt8) (q : ℕ) : ℤ := fromLE ((log.drop q).take offsetSize)

/-- The size that the header at `q` carries, of whose bytes the last may be missing. -/
def sizeField (log : List UInt8) (q : ℕ) : ℤ :=
  overlay sizeSize (-1) ((log.drop (q + offsetSize)).take sizeSize)

/-- Where the seek over the payload goes from the header at `q`. -/
def landing (log : List UInt8) (q : ℕ) : ℤ :=
  q + (min headerSize (log.length - q) : ℕ) + sizeField log q

/-- A turn of the rebuild at a header of which all of the offset and some of the size is there. -/
theorem reconstructLoop_header {log : List UInt8} {q : ℕ} (hw : w.Calm)
    (hfd : ∃ num, s.fd = .live num i) (hlog : (w.fs.data i).image.toList = log)
    (hq : q + offsetSize < log.length) (fuel : ℕ) :
    reconstructLoop (fuel + 1) s q w =
      match s.index.write (offsetField log q) s.position w with
      | (.error e, x, w) =>
        some (.error e, { s with nextOffset := offsetField log q, index := x }, w)
      | (.ok _, x, w) =>
        match w.lseek s.fd (landing log q) with
        | (false, w) => some (.ok (), s.advance x (offsetField log q) (sizeField log q), w)
        | (true, w) =>
          reconstructLoop fuel (s.advance x (offsetField log q) (sizeField log q))
            (landing log q).toNat w := by
  obtain ⟨num, hfd⟩ := hfd
  have hread : (w.fs.data i).image.read q offsetSize = (log.drop q).take offsetSize := by
    rw [Image.read_eq, hlog]
  have hlen : ((log.drop q).take offsetSize).length = offsetSize := by
    rw [List.length_take, List.length_drop]
    omega
  have hread' : (w.fs.data i).image.read (q + offsetSize) sizeSize =
      (log.drop (q + offsetSize)).take sizeSize := by
    rw [Image.read_eq, hlog]
  have hlen' : ((log.drop (q + offsetSize)).take sizeSize).length =
      min sizeSize (log.length - (q + offsetSize)) := by
    rw [List.length_take, List.length_drop]
  have hcursor : ((q + offsetSize + min sizeSize (log.length - (q + offsetSize)) : ℕ) : ℤ) +
      sizeField log q = landing log q := by
    rw [landing, show headerSize = 12 from rfl, show offsetSize = 8 from rfl,
      show sizeSize = 4 from rfl]
    rw [show offsetSize = 8 from rfl] at hq
    omega
  have hne : (log.drop q).take offsetSize ≠ [] := by
    intro he
    rw [he] at hlen
    cases hlen
  have hne' : (log.drop (q + offsetSize)).take sizeSize ≠ [] := by
    intro he
    rw [he, List.length_nil, show sizeSize = 4 from rfl] at hlen'
    omega
  rw [reconstructLoop, hfd, World.read_calm hw, hread]
  dsimp only
  rw [if_neg hne, hlen, World.read_calm hw, hread']
  dsimp only
  rw [if_neg hne', overlay_full hlen, hlen', show overlay sizeSize (-1)
    ((log.drop (q + offsetSize)).take sizeSize) = sizeField log q from rfl, hcursor, offsetField]
  rcases s.index.write (fromLE ((log.drop q).take offsetSize)) s.position w with ⟨_ | _, x, w₁⟩
  · rfl
  · simp only [advance, hfd]
    rfl

theorem reconstructLoop_turn {log : List UInt8} {q : ℕ} {x : Index} {w₁ : World} (hw : w.Calm)
    (hfd : ∃ num, s.fd = .live num i) (hlog : (w.fs.data i).image.toList = log)
    (hq : q + offsetSize < log.length)
    (hx : s.index.write (offsetField log q) s.position w = (.ok (), x, w₁)) (hw₁ : w₁.Calm)
    (fuel : ℕ) :
    reconstructLoop (fuel + 1) s q w =
      if landing log q < 0 then
        some (.ok (), s.advance x (offsetField log q) (sizeField log q), w₁)
      else
        reconstructLoop fuel (s.advance x (offsetField log q) (sizeField log q))
          (landing log q).toNat w₁ := by
  rw [reconstructLoop_header hw hfd hlog hq, hx]
  obtain ⟨num, hfd⟩ := hfd
  dsimp only
  rw [hfd, World.lseek_calm hw₁]
  split_ifs with hneg
  · rw [decide_eq_false (by omega)]
  · rw [decide_eq_true (by omega)]

theorem reconstructLoop_over {log : List UInt8} {q : ℕ} (hw : w.Calm)
    (hfd : ∃ num, s.fd = .live num i) (hlog : (w.fs.data i).image.toList = log)
    (hq : log.length ≤ q) (fuel : ℕ) :
    reconstructLoop (fuel + 1) s q w = some (.ok (), s, w) := by
  obtain ⟨num, hfd⟩ := hfd
  rw [← hlog, Image.length_toList] at hq
  rw [reconstructLoop, hfd, World.read_calm hw, Image.read_end hq]
  dsimp only
  rw [if_pos rfl]

/-- Where the log ends within the offset or behind it, the size cannot be read. -/
theorem reconstructLoop_cut {log : List UInt8} {q : ℕ} (hw : w.Calm)
    (hfd : ∃ num, s.fd = .live num i) (hlog : (w.fs.data i).image.toList = log)
    (hq : q < log.length) (hcut : log.length ≤ q + offsetSize) (fuel : ℕ) :
    ∃ e offset, reconstructLoop (fuel + 1) s q w =
      some (.error e, { s with nextOffset := offset }, w) := by
  obtain ⟨num, hfd⟩ := hfd
  rw [← hlog, Image.length_toList] at hq hcut
  have hlen : ((w.fs.data i).image.read q offsetSize).length = (w.fs.data i).image.size - q := by
    rw [Image.read_eq, List.length_take, List.length_drop, Image.length_toList]
    omega
  have hne : (w.fs.data i).image.read q offsetSize ≠ [] := by
    intro he
    rw [he, List.length_nil] at hlen
    omega
  rw [reconstructLoop, hfd, World.read_calm hw]
  dsimp only
  rw [if_neg hne, World.read_calm hw, Image.read_end (by omega)]
  dsimp only
  rw [if_pos rfl]
  exact ⟨_, _, rfl⟩

/-! ## Whole headers -/

theorem offsetField_at (pre post : List UInt8) {offset : ℤ} (h0 : -2 ^ 63 ≤ offset) (h1 : offset < 2 ^ 63) :
    offsetField (pre ++ (toLE 8 offset ++ post)) pre.length = offset := by
  rw [offsetField, List.drop_left, show offsetSize = (toLE 8 offset).length from
    (length_toLE 8 offset).symm, List.take_left, header_offset h0 h1]

theorem sizeField_at (pre post : List UInt8) (offset : ℤ) {m : Payload} (hm : m.length < 2 ^ 31) :
    sizeField (pre ++ (toLE 8 offset ++ (toLE 4 m.length ++ post))) pre.length = m.length := by
  have hsplit : pre ++ (toLE 8 offset ++ (toLE 4 (m.length : ℤ) ++ post)) =
      (pre ++ toLE 8 offset) ++ (toLE 4 (m.length : ℤ) ++ post) := (List.append_assoc ..).symm
  have hlen : (pre ++ toLE 8 offset).length = pre.length + offsetSize := by
    rw [List.length_append, length_toLE]
    rfl
  rw [sizeField, hsplit, ← hlen, List.drop_left, show sizeSize = (toLE 4 (m.length : ℤ)).length from
    (length_toLE 4 (m.length : ℤ)).symm, List.take_left, overlay_full rfl, header_size hm]

theorem landing_at (pre post : List UInt8) (offset : ℤ) {m : Payload} (hm : m.length < 2 ^ 31) :
    landing (pre ++ (toLE 8 offset ++ (toLE 4 m.length ++ post))) pre.length =
      (pre.length + (12 + m.length) : ℕ) := by
  rw [landing, sizeField_at pre post offset hm]
  simp only [List.length_append, length_toLE, show headerSize = 12 from rfl]
  omega

theorem reconstructLoop_record (hw : w.Calm) (hfd : ∃ num, s.fd = .live num i)
    {es : List ℤ} (H : s.index.Holds w.fs j es) (hroom : es.length < 1310720) {offset : ℤ}
    (hoff : s.index.baseOffset + es.length = offset) (h0 : -2 ^ 63 ≤ offset) (h1 : offset < 2 ^ 63)
    {m : Payload} (hm : m.length < 2 ^ 31) {pre post : List UInt8}
    (hbytes : (w.fs.data i).image.toList = pre ++ (record offset m ++ post)) (fuel : ℕ) :
    ∃ d, reconstructLoop (fuel + 1) s pre.length w =
        reconstructLoop fuel
          (s.advance { s.index with position := s.index.position + 8 } offset m.length)
          (pre ++ record offset m).length { w with fs := w.fs.setData j d } ∧
      Index.Holds (w.fs.setData j d) j { s.index with position := s.index.position + 8 }
        (es ++ [s.position]) := by
  obtain ⟨d, hwrite, H'⟩ := Index.write_room H hroom s.position
  refine ⟨d, ?_, H'⟩
  rw [record, List.append_assoc, List.append_assoc] at hbytes
  rw [hoff, ← offsetField_at pre (toLE 4 m.length ++ (m ++ post)) h0 h1] at hwrite
  rw [reconstructLoop_turn hw hfd hbytes ?_ hwrite hw, landing_at pre (m ++ post) offset hm,
    offsetField_at pre _ h0 h1, sizeField_at pre (m ++ post) offset hm, if_neg (by omega), Int.toNat_natCast, List.length_append, length_record]
  simp only [List.length_append, length_toLE, show offsetSize = 8 from rfl]
  omega

theorem reconstructLoop_records (hij : i ≠ j) {ms : List Payload} :
    ∀ {w : World} {s : Segment} {es : List ℤ} {offset : ℤ} {pre post : List UInt8},
      w.Calm → (∃ num, s.fd = .live num i) → s.index.Holds w.fs j es →
      es.length + ms.length ≤ 1310720 → s.index.baseOffset + es.length = offset → -2 ^ 63 ≤ offset →
      offset + ms.length < 2 ^ 63 → s.nextOffset = offset → (∀ m ∈ ms, m.length < 2 ^ 31) →
      (w.fs.data i).image.toList = pre ++ (encode offset ms ++ post) → ∀ fuel : ℕ,
      ∃ d x, reconstructLoop (fuel + ms.length) s pre.length w =
          reconstructLoop fuel
            { s with
              index := x
              nextOffset := offset + ms.length
              position := s.position + logSize ms }
            (pre ++ encode offset ms).length { w with fs := w.fs.setData j d } ∧
        Index.Holds (w.fs.setData j d) j x (es ++ startsFrom s.position ms) ∧
        x.baseOffset = s.index.baseOffset ∧ x.filename = s.index.filename := by
  induction ms with
  | nil =>
      intro w s es offset pre post hw hfd H hroom hoff h0 h1 hnext hms hbytes fuel
      refine ⟨w.fs.data j, s.index, ?_, ?_, rfl, rfl⟩
      · have hfs : w.fs.setData j (w.fs.data j) = w.fs := by simp [FileSystem.setData]
        rw [hfs]
        simp [encode, logSize, ← hnext]
      · rw [startsFrom, List.append_nil]
        exact H.congr (by simp)
  | cons m ms ih =>
      intro w s es offset pre post hw hfd H hroom hoff h0 h1 hnext hms hbytes fuel
      rw [List.length_cons] at hroom h1
      rw [encode, List.append_assoc] at hbytes
      obtain ⟨d, hstep, H₁⟩ := reconstructLoop_record hw hfd H (by omega) hoff h0
        (by push_cast at h1; omega) (hms m List.mem_cons_self) hbytes (fuel + ms.length)
      have hdata : ((w.fs.setData j d).data i).image.toList =
          (pre ++ record offset m) ++ (encode (offset + 1) ms ++ post) := by
        rw [FileSystem.data_setData_ne _ _ hij, hbytes, List.append_assoc]
      obtain ⟨d', x, hrest, H₂, hbase, hname⟩ := ih
        (w := { w with fs := w.fs.setData j d })
        (s := s.advance { s.index with position := s.index.position + 8 } offset m.length)
        hw hfd H₁
        (by simp only [List.length_append, List.length_singleton]; omega)
        (by simp only [advance, List.length_append, List.length_singleton]; push_cast; omega)
        (show -2 ^ 63 ≤ offset + 1 by omega) (by push_cast at h1; omega)
        (toInt64_of_range (by omega) (by push_cast at h1; omega))
        (fun m' hm' => hms m' (List.mem_cons_of_mem m hm')) hdata fuel
      refine ⟨d', x, ?_, ?_, hbase, hname⟩
      · rw [List.length_cons, ← Nat.add_assoc, hstep, hrest]
        simp only [advance, FileSystem.setData_setData, encode, List.append_assoc, logSize]
        congr 2 <;> push_cast <;> ring
      · rw [startsFrom, ← List.singleton_append, ← List.append_assoc]
        rw [FileSystem.setData_setData] at H₂
        rw [show s.position + (12 + (m.length : ℤ)) = s.position + (m.length + 12) by ring]
        exact H₂

/-- The rebuild is its loop from the start of the log. -/
theorem reconstruct_calm (hw : w.Calm) (hfd : ∃ num, s.fd = .live num i) :
    s.reconstructIndexAndGetLastOffset w =
      (reconstructLoop (room s.index + 1) s 0 w).getD (.ok (), s, w) := by
  obtain ⟨num, hfd⟩ := hfd
  unfold reconstructIndexAndGetLastOffset
  rw [hfd, World.lseek_calm hw, decide_eq_true le_rfl]

theorem reconstruct_spec (hw : w.Calm) (hij : i ≠ j) (hfd : ∃ num, s.fd = .live num i)
    (H : s.index.Holds w.fs j []) {ms : List Payload} (hroom : ms.length ≤ 1310720)
    (h0 : -2 ^ 63 ≤ s.index.baseOffset) (h1 : s.index.baseOffset + ms.length < 2 ^ 63)
    (hnext : s.nextOffset = s.index.baseOffset) (hpos : s.position = 0)
    (hms : ∀ m ∈ ms, m.length < 2 ^ 31)
    (hbytes : (w.fs.data i).image.toList = encode s.index.baseOffset ms) :
    ∃ d x, s.reconstructIndexAndGetLastOffset w = (.ok (),
        { s with
          index := x
          nextOffset := s.index.baseOffset + ms.length
          position := logSize ms },
        { w with fs := w.fs.setData j d }) ∧
      Index.Holds (w.fs.setData j d) j x (startsFrom 0 ms) ∧
      x.baseOffset = s.index.baseOffset ∧ x.filename = s.index.filename := by
  have hp : s.index.position = 0 := by simpa using H.position
  have hfuel : room s.index + 1 = (1310720 - ms.length + 1) + ms.length := by
    simp only [room, H.size, hp, Index.entryWidth, Index.offsetWidth, Index.positionWidth]
    omega
  obtain ⟨d, x, hloop, H', hbase, hname⟩ := reconstructLoop_records hij hw
    hfd H (by simpa using hroom) (by simp) h0 h1 hnext hms
    (show _ = [] ++ (encode s.index.baseOffset ms ++ []) by simpa using hbytes)
    (1310720 - ms.length + 1)
  refine ⟨d, x, ?_, by simpa [hpos] using H', hbase, hname⟩
  have hdata : ((w.fs.setData j d).data i).image.toList = encode s.index.baseOffset ms := by
    rw [FileSystem.data_setData_ne _ _ hij, hbytes]
  have hover := reconstructLoop_over (s := { s with
      index := x
      nextOffset := s.index.baseOffset + ms.length
      position := s.position + logSize ms })
    (w := { w with fs := w.fs.setData j d }) hw hfd hdata le_rfl (1310720 - ms.length)
  rw [List.length_nil, List.nil_append] at hloop
  rw [reconstruct_calm hw hfd, hfuel, hloop, hover, Option.getD_some, hpos, zero_add]

/-- The rebuild reads on behind the records an index has room for, and fails. -/
theorem reconstruct_spoiled {s : Segment} (hw : w.Calm) (hij : i ≠ j)
    (hfd : ∃ num, s.fd = .live num i) (H : s.index.Holds w.fs j []) {ms : List Payload}
    (hfull : ms.length = 1310720) (h0 : -2 ^ 63 ≤ s.index.baseOffset)
    (h1 : s.index.baseOffset + ms.length < 2 ^ 63) (hnext : s.nextOffset = s.index.baseOffset)
    (hpos : s.position = 0) (hms : ∀ m ∈ ms, m.length < 2 ^ 31) {junk : List UInt8}
    (hbytes : (w.fs.data i).image.toList = encode s.index.baseOffset ms ++ junk)
    (hjunk : junk ≠ []) :
    ∃ e s' d, s.reconstructIndexAndGetLastOffset w = (.error e, s',
        { w with fs := w.fs.setData j d }) ∧
      Index.Holds (w.fs.setData j d) j s'.index (startsFrom 0 ms) ∧ s'.fd = s.fd ∧
      s'.fdRead = s.fdRead := by
  have hp : s.index.position = 0 := by simpa using H.position
  have hfuel : room s.index + 1 = 1 + ms.length := by
    simp only [room, H.size, hp, Index.entryWidth, Index.offsetWidth, Index.positionWidth]
    omega
  obtain ⟨d, x, hloop, H', hbase, hname⟩ := reconstructLoop_records hij hw
    hfd H (by simp [hfull]) (by simp) h0 h1 hnext hms
    (show _ = [] ++ (encode s.index.baseOffset ms ++ junk) by simpa using hbytes) 1
  rw [hpos, List.nil_append] at H'
  have hdata : ((w.fs.setData j d).data i).image.toList = encode s.index.baseOffset ms ++ junk := by
    rw [FileSystem.data_setData_ne _ _ hij, hbytes]
  let t : Segment := { s with
    index := x
    nextOffset := s.index.baseOffset + ms.length
    position := s.position + logSize ms }
  have hcalm : World.Calm { w with fs := w.fs.setData j d } := hw
  have hlen : (encode s.index.baseOffset ms).length < (encode s.index.baseOffset ms ++ junk).length := by
    rw [List.length_append]
    have := List.length_pos_iff.mpr hjunk
    omega
  rw [reconstruct_calm hw hfd, hfuel, Nat.add_comm]
  rw [List.length_nil, List.nil_append, Nat.add_comm] at hloop
  rw [hloop]
  by_cases hcut : (encode s.index.baseOffset ms ++ junk).length ≤
      (encode s.index.baseOffset ms).length + offsetSize
  · obtain ⟨e, offset, herr⟩ := reconstructLoop_cut (s := t) hcalm hfd hdata hlen
      hcut 0
    rw [herr]
    exact ⟨e, _, d, rfl, H', rfl, rfl⟩
  · obtain ⟨e, hx⟩ := Index.write_full (w := { w with fs := w.fs.setData j d }) H'
      (by rwa [length_startsFrom])
      (offsetField (encode s.index.baseOffset ms ++ junk) (encode s.index.baseOffset ms).length)
      (s.position + logSize ms)
    rw [reconstructLoop_header (s := t) hcalm hfd hdata (by omega), hx]
    exact ⟨e, _, d, rfl, H', rfl, rfl⟩

/-! ## Opening -/

variable {path : RawPath} {dir : Path}

/-- What `open` reads of a segment object, but for the next offset, is as in a new one. -/
structure AsNew (path : RawPath) (base maxSize : ℤ) (s : Segment) : Prop where
  position : s.position = 0
  maxSize : s.maxSize = maxSize
  filename : s.filename = getLogFilename path base
  indexFilename : s.index.filename = getIndexFilename path base
  indexSize : s.index.size = 10485760
  baseOffset : s.index.baseOffset = base

theorem AsNew.new (path : RawPath) (base maxSize : ℤ) :
    AsNew path base maxSize (Segment.new path base maxSize) := ⟨rfl, rfl, rfl, rfl, rfl, rfl⟩

/-- What opening the index of a segment object leaves to do. -/
theorem open_index (maxSize : ℤ) (hw : w.Calm) (hp : FileSystem.At w.fs path dir) {base : ℤ}
    (hx : ¬ w.fs.IsDir (dir ++ [indexName base]))
    (hsane : Index.Sane (w.fs.contents (dir ++ [indexName base]) w.now).image) :
    ∃ x w₁ j, (∀ s, AsNew path base maxSize s → s.open w = { s with index := x }.openLog w₁) ∧
      x.Holds w₁.fs j [] ∧ x.baseOffset = base ∧ x.filename = getIndexFilename path base ∧
      w₁.fs.node? (dir ++ [indexName base]) = some (.file j) ∧
      (∀ q, q ≠ dir ++ [indexName base] → w₁.fs.node? q = w.fs.node? q) ∧
      (∀ k, k ≠ j → w₁.fs.data k = w.fs.data k) ∧
      (w₁.fs.data j).image =
        Index.opened (w.fs.contents (dir ++ [indexName base]) w.now).image ∧
      w₁.Calm ∧ w₁.now = w.now := by
  have hres := hp.child (plain_indexName base)
  obtain ⟨j, fs, ho, hnode, hdata, hother, hrest⟩ := FileSystem.openCreate_spec hres (by simp) hx
    (by simpa using hp.isDir) w.now
  rw [← hdata] at hsane
  let w₁ : World := { w with
    fs := fs.setData j ⟨Index.opened (fs.data j).image, w.now⟩, nextFd := w.nextFd + 1 }
  let x : Index := ⟨10485760, base, (fs.data j).image.size, .live w.nextFd j, .mapped j,
    getIndexFilename path base⟩
  refine ⟨{ x with position := 0 }, w₁, j, ?_, Index.Holds.opened hsane ⟨_, rfl⟩ rfl rfl rfl, rfl,
    rfl, hnode, hother, ?_, ?_, hw, rfl⟩
  · intro s hs
    have hopen : s.index.open w = (.ok (), x, w₁) := by
      rw [Index.open_calm (x := s.index) hw hs.indexSize (by rw [hs.indexFilename]; exact ho)]
      simp only [x, w₁, hs.indexSize, hs.indexFilename, hs.baseOffset]
    unfold Segment.open
    rw [hopen]
    dsimp only
    rw [Index.sanityCheck_calm hsane (FileSystem.data_setData_same _ _ _) rfl rfl rfl]
    dsimp only
    rw [Index.truncateEntries, if_neg (by simp [x])]
    rfl
  · intro k hk
    exact (FileSystem.data_setData_ne _ _ hk).trans (hrest k hk)
  · rw [← hdata]
    exact congrArg FileData.image (FileSystem.data_setData_same _ _ _)

/-- The end of `open`, once the log is open too. -/
def finish (s : Segment) (w : World) : Result Unit × Segment × World :=
  match s.reconstructIndexAndGetLastOffset w with
  | (.error e, s, w) => s.abandon w e
  | (.ok _, s, w) => (.ok (), s, w)

/-- The segment with its log open on the inode `i`, of which `d` is known. -/
def withLog (s : Segment) (num i : ℕ) (d : FileData) : Segment :=
  { s with
    fd := .live num i
    physicalSize := d.image.size
    mtime := d.mtime
    fdRead := .live (num + 1) i }

theorem openLog_calm (hw : w.Calm) {fs : FileSystem}
    (ho : w.fs.openCreate s.filename w.now = some (i, fs))
    (hat : fs.fileAt s.filename = some i) :
    s.openLog w = (s.withLog w.nextFd i (fs.data i)).finish
      { w with fs := fs, nextFd := w.nextFd + 2 } := by
  have hw₁ : World.Calm { w with fs := fs, nextFd := w.nextFd + 1 } := hw
  unfold openLog finish
  rw [World.openCreate_calm hw ho]
  dsimp only
  rw [World.fstat_calm hw₁]
  dsimp only
  rw [World.openRead_calm hw₁ hat]
  rfl

/-- A segment whose two files are open and whose index is still empty. -/
structure Ready (w : World) (path : RawPath) (dir : Path) (base maxSize : ℤ) (log : FileData)
    (s : Segment) (w' : World) (i j : ℕ) : Prop where
  logNode : w'.fs.node? (dir ++ [logName base]) = some (.file i)
  indexNode : w'.fs.node? (dir ++ [indexName base]) = some (.file j)
  data : w'.fs.data i = log
  holds : s.index.Holds w'.fs j []
  entries : (w'.fs.data j).image =
    Index.opened (w.fs.contents (dir ++ [indexName base]) w.now).image
  fd : ∃ num, s.fd = .live num i
  fdRead : ∃ num, s.fdRead = .live num i
  nextOffset : s.nextOffset = base
  position : s.position = 0
  physicalSize : s.physicalSize = log.image.size
  mtime : s.mtime = log.mtime
  maxSize_eq : s.maxSize = maxSize
  filename : s.filename = getLogFilename path base
  indexFilename : s.index.filename = getIndexFilename path base
  baseOffset : s.index.baseOffset = base
  calm : w'.Calm
  now : w'.now = w.now

theorem Ready.ne {base maxSize : ℤ} {log : FileData} {w' : World}
    (h : Ready w path dir base maxSize log s w' i j) : i ≠ j := by
  rintro rfl
  have hp := FileSystem.node?_inj h.logNode h.indexNode
  exact logName_ne_indexName _ _ (by simpa using hp)

theorem isDir_of_file {fs fs' : FileSystem} {p : Path} {i : ℕ}
    (hn : fs'.node? p = some (.file i)) (hp : ¬ fs.IsDir p)
    (h : ∀ q, q ≠ p → fs'.node? q = fs.node? q) (q : Path) : fs'.IsDir q ↔ fs.IsDir q := by
  by_cases hq : q = p
  · subst hq
    exact iff_of_false (by rw [FileSystem.IsDir, hn]; simp) hp
  · rw [FileSystem.IsDir, FileSystem.IsDir, h q hq]

/-- Opening two files, either of which may not be there yet, up to the rebuild of the index: an object
that is used again starts there with the next offset it had. -/
theorem reopen_ready (hw : w.Calm) (hp : FileSystem.At w.fs path dir) {base : ℤ} (maxSize : ℤ)
    (hl : ¬ w.fs.IsDir (dir ++ [logName base])) (hx : ¬ w.fs.IsDir (dir ++ [indexName base]))
    (hsane : Index.Sane (w.fs.contents (dir ++ [indexName base]) w.now).image) :
    ∃ s w' i j, (∀ s₀, AsNew path base maxSize s₀ →
        s₀.open w = { s with nextOffset := s₀.nextOffset }.finish w') ∧
      Ready w path dir base maxSize (w.fs.contents (dir ++ [logName base]) w.now) s w' i j := by
  obtain ⟨x, w₁, j, hopen, H, hbase, hname, hnode, hother, hrest, himage, hw₁, hnow⟩ :=
    open_index maxSize hw hp hx hsane
  have hlx : dir ++ [logName base] ≠ dir ++ [indexName base] := by
    intro h
    exact logName_ne_indexName base base (by simpa using h)
  have hdirs := isDir_of_file hnode hx hother
  have hl₁ : ¬ w₁.fs.IsDir (dir ++ [logName base]) := fun h => hl ((hdirs _).mp h)
  have hp₁ := hp.congr hdirs
  have hcont : w₁.fs.contents (dir ++ [logName base]) w.now =
      w.fs.contents (dir ++ [logName base]) w.now := by
    have hn := hother _ hlx
    unfold FileSystem.contents
    rw [hn]
    split
    · next i hi =>
        apply hrest
        rintro rfl
        exact hlx (FileSystem.node?_inj (hn.trans hi) hnode)
    · rfl
  obtain ⟨i, fs, ho, hnode', hdata', hother', hrest'⟩ := FileSystem.openCreate_spec
    (hp₁.child (plain_logName base)) (by simp) hl₁ (by simpa using hp₁.isDir) w₁.now
  rw [hnow, hcont] at hdata'
  have hj := (hother' _ (Ne.symm hlx)).trans hnode
  have hji : j ≠ i := by
    rintro rfl
    exact hlx (FileSystem.node?_inj hnode' hj)
  have hp₂ := hp₁.congr (isDir_of_file hnode' hl₁ hother')
  have hat := FileSystem.fileAt_eq (hp₂.child (plain_logName base)) hnode'
  refine ⟨({ Segment.new path base maxSize with index := x } : Segment).withLog w₁.nextFd i
    (fs.data i), { w₁ with fs := fs, nextFd := w₁.nextFd + 2 }, i, j, ?_, ?_⟩
  · intro s hs
    rw [hopen s hs, openLog_calm hw₁ (by rw [hs.filename]; exact ho) (by rw [hs.filename]; exact hat)]
    simp only [withLog, Segment.new, hs.position, hs.maxSize, hs.filename]
  · refine ⟨hnode', hj, hdata', H.congr (hrest' j hji), ?_, ⟨_, rfl⟩, ⟨_, rfl⟩, rfl, rfl,
      congrArg (fun d => (d.image.size : ℤ)) hdata', congrArg FileData.mtime hdata', rfl, rfl,
      hname, hbase, hw₁, hnow⟩
    rw [← himage]
    exact congrArg FileData.image (hrest' j hji)

theorem open_ready (hw : w.Calm) (hp : FileSystem.At w.fs path dir) {base : ℤ} (maxSize : ℤ)
    (hl : ¬ w.fs.IsDir (dir ++ [logName base])) (hx : ¬ w.fs.IsDir (dir ++ [indexName base]))
    (hsane : Index.Sane (w.fs.contents (dir ++ [indexName base]) w.now).image) :
    ∃ s w' i j, (Segment.new path base maxSize).open w = s.finish w' ∧
      Ready w path dir base maxSize (w.fs.contents (dir ++ [logName base]) w.now) s w' i j := by
  obtain ⟨s, w', i, j, hopen, R⟩ := reopen_ready hw hp maxSize hl hx hsane
  refine ⟨s, w', i, j, ?_, R⟩
  rw [hopen _ (AsNew.new path base maxSize)]
  congr 1
  exact congrArg (fun n => { s with nextOffset := n }) R.nextOffset.symm

theorem open_spec (hw : w.Calm) (hp : FileSystem.At w.fs path dir) {c : Chunk} {maxSize : ℤ}
    (hl : ¬ w.fs.IsDir (dir ++ [logName c.base])) (hx : ¬ w.fs.IsDir (dir ++ [indexName c.base]))
    (hbytes : (w.fs.contents (dir ++ [logName c.base]) w.now).image.toList =
      encode c.base c.msgs)
    (hmtime : (w.fs.contents (dir ++ [logName c.base]) w.now).mtime = c.mtime)
    (hsane : Index.Sane (w.fs.contents (dir ++ [indexName c.base]) w.now).image)
    (hfits : c.Fits) (hjunk : c.junk = []) :
    ∃ s w' i j, (Segment.new path c.base maxSize).open w = (.ok (), s, w') ∧
      OpenAs w'.fs path dir i j s c ∧ s.mtime = c.mtime ∧ s.maxSize = maxSize := by
  obtain ⟨s, w', i, j, hopen, R⟩ := open_ready hw hp maxSize hl hx hsane
  have hnext : s.index.baseOffset + c.msgs.length < 2 ^ 63 := by
    have := hfits.next_lt
    rw [R.baseOffset]
    unfold Chunk.next at this
    omega
  obtain ⟨d, x, hrec, H, hbase, hname⟩ := reconstruct_spec R.calm R.ne R.fd R.holds hfits.room
    (by rw [R.baseOffset]; omega) hnext (R.nextOffset.trans R.baseOffset.symm) R.position
    hfits.payload (by rw [R.data, hbytes, R.baseOffset])
  refine ⟨{ s with
      index := x, nextOffset := s.index.baseOffset + c.msgs.length, position := logSize c.msgs },
    { w' with fs := w'.fs.setData j d }, i, j, ?_, ⟨⟨?_, ?_, ?_, ?_, hfits⟩, R.fd, R.fdRead, ?_, rfl,
    ?_, R.filename, hname.trans R.indexFilename, hbase.trans R.baseOffset, H, Or.inl hjunk⟩, ?_,
    R.maxSize_eq⟩
  · rw [hopen, finish, hrec]
  · exact R.logNode
  · exact R.indexNode
  · show ((w'.fs.setData j d).data i).image.toList = _
    rw [FileSystem.data_setData_ne _ _ R.ne, R.data, hbytes, hjunk, List.append_nil]
  · show ((w'.fs.setData j d).data i).mtime = _
    rw [FileSystem.data_setData_ne _ _ R.ne, R.data, hmtime]
  · show s.index.baseOffset + _ = _
    rw [R.baseOffset, Chunk.next]
    push_cast
    rfl
  · rw [show _ = _ from R.physicalSize, ← Image.length_toList, hbytes, length_encode]
    rfl
  · exact R.mtime.trans hmtime

end Segment

end MyKafka
