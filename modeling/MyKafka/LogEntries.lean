import MyKafka.SegmentFailure
import MyKafka.SegmentReads

/-!
# The index and the bytes of a log

The index of an open segment and the bytes of its log need not agree. `Placed` says what both hold,
and then what is read is the record that lies where the entry of its offset leads. When no entry
leads to the end of the log, and the next one will not either, the next record is lost.
-/

namespace MyKafka

open Posix LittleEndian Log Segment

/-- A write whose appends are served. -/
def SegmentHost.append (h : SegmentHost) (m : Payload) : Result ℤ × SegmentHost := h.step ⟨m, []⟩

variable {h : SegmentHost} {base : ℤ} {es : List ℤ} {bytes : List UInt8} {m : Payload} {w : World}

theorem SegmentHost.append_eq (hw : h.world.Calm) {res : Result ℤ} {s : Segment} {w : World}
    (hwrite : h.segment.write m h.world = (res, s, w)) :
    h.append m = (res, ⟨s, { w with outcomes := [] }⟩) := by
  have hsame : { h.world with outcomes := [] } = h.world := by
    rw [show ([] : List Outcome) = h.world.outcomes from hw.symm]
  rw [SegmentHost.append, SegmentHost.step, hsame, hwrite]

theorem SegmentHost.readAt_eq {target : ℤ} {res : Result Unit} {payload : Payload}
    (h' : h.readAt target = (res, payload)) :
    ∃ w, h.segment.readAt target h.world = (res, payload, w) := by
  rw [SegmentHost.readAt] at h'
  obtain ⟨rfl, rfl⟩ := Prod.mk.inj h'
  exact ⟨_, rfl⟩

/-- An open segment whose log is `bytes`, and whose index says that its records start at `es`. -/
structure Placed (h : SegmentHost) (base : ℤ) (es : List ℤ) (bytes : List UInt8) : Prop where
  calm : h.world.Calm
  files : ∃ i j, i ≠ j ∧ (∃ num, h.segment.fd = .live num i) ∧
    (∃ num, h.segment.fdRead = .live num i) ∧ (h.world.fs.data i).image.toList = bytes ∧
    h.segment.index.Holds h.world.fs j es
  nextOffset : h.segment.nextOffset = base + es.length
  baseOffset : h.segment.index.baseOffset = base
  base_ge : -2 ^ 63 ≤ base
  next_lt : base + es.length < 2 ^ 63

/-- What is read is what the record at the entry of the offset holds. -/
theorem Placed.read (hp : Placed h base es bytes) {target : ℤ} {payload : Payload} :
    h.readAt target = (.ok (), payload) ↔
      ∃ k q : ℕ, ∃ pos, target = k ∧ es[k]? = some pos ∧ toInt32 pos = q ∧
        RecordAt bytes q payload := by
  obtain ⟨i, j, -, -, hfd, hbytes, H⟩ := hp.files
  have hentries : ∀ k < es.length, h.segment.index.read (k * Index.entryWidth) h.world =
      .ok (k + h.segment.index.baseOffset, toInt32 (es.getD k 0)) := by
    intro k hk
    rw [Index.read_entry H (List.getElem?_eq_getElem hk), List.getD_eq_getElem _ _ hk]
  have hnext : h.segment.nextOffset - h.segment.index.baseOffset = es.length := by
    rw [hp.nextOffset, hp.baseOffset]
    omega
  obtain ⟨p, hfind, hp'⟩ := findEntry_entries H.room hentries hnext (-1) target
  constructor
  · intro hread
    obtain ⟨w, hok⟩ := SegmentHost.readAt_eq hread
    obtain ⟨r, num, i', q, hfind', hfd', hrec⟩ := readAt_inv hok
    obtain ⟨num', hfd⟩ := hfd
    rw [hfd, Desc.live.injEq] at hfd'
    obtain ⟨-, rfl⟩ := hfd'
    rw [hfind, Except.ok.injEq] at hfind'
    split_ifs at hfind' with hrange
    · obtain ⟨k, rfl⟩ := Int.eq_ofNat_of_zero_le hrange.1
      have hk : k < es.length := by omega
      obtain ⟨-, hq⟩ := Prod.mk.inj hfind'
      rw [Int.toNat_natCast, List.getD_eq_getElem _ _ hk] at hq
      exact ⟨k, q, es[k], rfl, List.getElem?_eq_getElem hk, hq, hbytes ▸ hrec⟩
    · obtain ⟨-, hq⟩ := Prod.mk.inj hfind'
      rw [hp' rfl] at hq
      omega
  · rintro ⟨k, q, pos, rfl, hk, hq, hrec⟩
    obtain ⟨hlt, rfl⟩ := List.getElem?_eq_some_iff.mp hk
    rw [if_pos ⟨by omega, by omega⟩, Int.toNat_natCast, List.getD_eq_getElem _ _ hlt, hq] at hfind
    rw [SegmentHost.readAt, readAt_found hp.calm hfd hfind (by omega) (hbytes ▸ hrec)]

/-- While the index has room a write adds its record and an entry. -/
theorem Placed.append (hp : Placed h base es bytes) (hroom : es.length < 1310720)
    (hm : m.length < 2 ^ 31) (hcount : base + es.length + 1 < 2 ^ 63) :
    ∃ h', h.append m = (.ok h.segment.nextOffset, h') ∧
      Placed h' base (es ++ [h.segment.position]) (bytes ++ record h.segment.nextOffset m) ∧
      h'.segment.position = h.segment.position + (12 + m.length) := by
  obtain ⟨i, j, hij, hfd, hfr, hbytes, H⟩ := hp.files
  obtain ⟨d, hlog, -, hwrite⟩ := write_bytes hp.calm hfd hm
  obtain ⟨d', hx, H'⟩ := Index.write_room
    (w := { h.world with fs := h.world.fs.setData i d })
    (H.congr (FileSystem.data_setData_ne _ _ hij.symm)) hroom h.segment.position
  have hoff : h.segment.index.baseOffset + es.length = h.segment.nextOffset := by
    rw [hp.baseOffset, hp.nextOffset]
  rw [hoff] at hx
  rw [hx] at hwrite
  have hlen : ((es ++ [h.segment.position]).length : ℤ) = es.length + 1 := by simp
  refine ⟨_, SegmentHost.append_eq hp.calm hwrite,
    ⟨rfl, ⟨i, j, hij, hfd, hfr, ?_, H'⟩, ?_, hp.baseOffset, hp.base_ge, ?_⟩, rfl⟩
  · show (((h.world.fs.setData i d).setData j d').data i).image.toList = _
    rw [FileSystem.data_setData_ne _ _ hij, FileSystem.data_setData_same, hlog, hbytes]
  · have hge := hp.base_ge
    show toInt64 (h.segment.nextOffset + 1) = _
    rw [hp.nextOffset, hlen, toInt64_of_range (by omega) hcount, add_assoc]
  · rw [hlen]
    omega

/-- With a full index it only adds its record. -/
theorem Placed.append_full (hp : Placed h base es bytes) (hfull : es.length = 1310720)
    (hm : m.length < 2 ^ 31) :
    ∃ e h', h.append m = (.error e, h') ∧
      Placed h' base es (bytes ++ record h.segment.nextOffset m) := by
  obtain ⟨i, j, hij, hfd, hfr, hbytes, H⟩ := hp.files
  obtain ⟨d, hlog, -, hwrite⟩ := write_bytes hp.calm hfd hm
  have H' : Index.Holds (h.world.fs.setData i d) j h.segment.index es :=
    H.congr (FileSystem.data_setData_ne _ _ hij.symm)
  obtain ⟨e, hx⟩ := Index.write_full (w := { h.world with fs := h.world.fs.setData i d }) H' hfull
    h.segment.nextOffset h.segment.position
  rw [hx] at hwrite
  refine ⟨e, _, SegmentHost.append_eq hp.calm hwrite, rfl,
    ⟨i, j, hij, hfd, hfr, ?_, H'⟩, hp.nextOffset, hp.baseOffset, hp.base_ge, hp.next_lt⟩
  show ((h.world.fs.setData i d).data i).image.toList = _
  rw [FileSystem.data_setData_same, hlog, hbytes]

theorem Placed.room (hp : Placed h base es bytes) : es.length ≤ 1310720 := by
  obtain ⟨i, j, -, -, -, -, H⟩ := hp.files
  exact H.room

theorem Placed.run {later : List Payload} (hlater : ∀ m ∈ later, m.length < 2 ^ 31) :
    ∀ {h : SegmentHost} {es : List ℤ} {bytes : List UInt8}, Placed h base es bytes →
    base + es.length + later.length < 2 ^ 63 → ∃ ext rest, Placed (Runs.final SegmentHost.append h later) base (es ++ ext) (bytes ++ rest) ∧
      rest.length = logSize later ∧ ∀ m o, (m, Except.ok o) ∈ Runs.trace SegmentHost.append h later →
        base + es.length ≤ o ∧ es.length < 1310720 := by
  induction later with
  | nil =>
      intro h es bytes hp _
      exact ⟨[], [], by simpa [Runs.final] using hp, rfl, by simp [Runs.trace]⟩
  | cons m later ih =>
      intro h es bytes hp hcount
      rw [List.length_cons, Nat.cast_succ] at hcount
      have hm := hlater m List.mem_cons_self
      have hrest := fun m' hm' => hlater m' (List.mem_cons_of_mem m hm')
      rcases hp.room.lt_or_eq with hroom | hfull
      · obtain ⟨h₁, hstep, hp₁, -⟩ := hp.append hroom hm (by omega)
        obtain ⟨ext, rest, hp', hlen, hacks⟩ := ih hrest hp₁ (by
          rw [List.length_append, List.length_singleton]
          push_cast
          omega)
        refine ⟨h.segment.position :: ext, record h.segment.nextOffset m ++ rest, ?_, ?_, ?_⟩
        · rw [Runs.final, hstep]
          rw [List.append_assoc, List.append_assoc] at hp'
          exact hp'
        · rw [List.length_append, length_record, hlen, logSize]
        · intro m' o hmem
          rw [Runs.trace, hstep] at hmem
          rcases List.mem_cons.mp hmem with heq | hmem
          · simp only [Prod.mk.injEq, Except.ok.injEq] at heq
            rw [heq.2, hp.nextOffset]
            exact ⟨le_rfl, hroom⟩
          · have hle := (hacks m' o hmem).1
            rw [List.length_append, List.length_singleton] at hle
            exact ⟨by push_cast at hle; omega, hroom⟩
      · obtain ⟨e, h₁, hstep, hp₁⟩ := hp.append_full hfull hm
        obtain ⟨ext, rest, hp', hlen, hacks⟩ := ih hrest hp₁ (by omega)
        refine ⟨ext, record h.segment.nextOffset m ++ rest, ?_, ?_, ?_⟩
        · rw [Runs.final, hstep]
          rw [List.append_assoc] at hp'
          exact hp'
        · rw [List.length_append, length_record, hlen, logSize]
        · intro m' o hmem
          rw [Runs.trace, hstep] at hmem
          rcases List.mem_cons.mp hmem with heq | hmem
          · simp at heq
          · exact hacks m' o hmem

/-! ## Entries that lead elsewhere -/

/-- Every answer of the search was read from some entry. -/
theorem findEntryLoop_reads {x : Index} {target : ℤ} {fuel : ℕ} :
    ∀ {first last pos relOffset relPosition r p : ℤ},
      findEntryLoop x target w fuel first last pos relOffset relPosition = some (.ok (r, p)) →
      p = relPosition ∨ ∃ pos offset : ℤ,
        x.read (toInt64 (pos * Index.entryWidth)) w = .ok (offset, p) := by
  induction fuel with
  | zero => intro first last pos relOffset relPosition r p h; cases h
  | succ fuel ih =>
      intro first last pos relOffset relPosition r p h
      rw [findEntryLoop] at h
      split_ifs at h with hcond
      · rcases hread : x.read (toInt64 (pos * Index.entryWidth)) w with e | ⟨offset, position⟩
        · rw [hread] at h
          cases h
        · rw [hread] at h
          dsimp only at h
          split_ifs at h
          · rcases ih h with rfl | hrest
            · exact Or.inr ⟨pos, offset, hread⟩
            · exact Or.inr hrest
          · rcases ih h with rfl | hrest
            · exact Or.inr ⟨pos, offset, hread⟩
            · exact Or.inr hrest
      · cases h
        exact Or.inl rfl

theorem findEntry_reads {s : Segment} {target r p : ℤ} (h : s.findEntry (-1) target w = .ok (r, p)) :
    p = -1 ∨ ∃ pos offset : ℤ, s.index.read (toInt64 (pos * Index.entryWidth)) w = .ok (offset, p) := by
  unfold findEntry at h
  dsimp only at h
  generalize hlast : toInt64 (s.nextOffset - s.index.baseOffset - 1) = last at h
  generalize hloop : findEntryLoop s.index target w (last.toNat + 2) 0 last (middle 0 last) (-1)
    (-1) = res at h
  rcases res with _ | e | ⟨r', p'⟩
  · dsimp only [Option.getD] at h
    split_ifs at h
    · cases h
      exact Or.inl rfl
    · cases h
      exact Or.inl rfl
  · cases h
  · dsimp only [Option.getD] at h
    split_ifs at h
    · cases h
      exact Or.inl rfl
    · cases h
      exact findEntryLoop_reads hloop

/-- An open segment whose position is not the end of its log, and no entry of whose index leads
there. -/
structure Astray (h : SegmentHost) (bytes : List UInt8) : Prop where
  calm : h.world.Calm
  files : ∃ i j, i ≠ j ∧ (∃ num, h.segment.fd = .live num i) ∧
    (∃ num, h.segment.fdRead = .live num i) ∧ (h.world.fs.data i).image.toList = bytes ∧
    h.segment.index.addr = .mapped j ∧ (h.world.fs.data j).image.size = 10485760 ∧
    ∀ k, (h.world.fs.data j).image.load (8 * k + 4) 4 ≠ bytes.length
  size : h.segment.index.size = 10485760
  entries : ∃ n : ℕ, h.segment.index.position = 8 * n ∧ n < 1310720
  position : toInt32 h.segment.position ≠ bytes.length

/-- Behind `bytes`, this record can be read at the end of `bytes` only. -/
theorem recordAt_end {offset : ℤ} {q : ℕ} (h : RecordAt (bytes ++ record offset
    (List.replicate bytes.length 0 ++ [1])) q (List.replicate bytes.length 0 ++ [1])) :
    q = bytes.length := by
  obtain ⟨header, hlen, -, -, rest, hpre⟩ := h
  have hle := congrArg List.length hpre
  simp only [List.length_append, List.length_drop, length_record, List.length_replicate,
    List.length_singleton, hlen, show headerSize = 12 from rfl] at hle
  by_contra hne
  have hbyte := congrArg (·[12 + bytes.length]?) hpre
  have hlast : (header ++ (List.replicate bytes.length 0 ++ [1]) ++ rest)[12 + bytes.length]? =
      some 1 := by
    rw [List.append_assoc, List.getElem?_append_right (by rw [hlen]; simp [headerSize, offsetSize,
      sizeSize]), hlen, show 12 + bytes.length - headerSize = bytes.length by
        rw [show headerSize = 12 from rfl]; omega]
    simp
  have hshift : ((bytes ++ record offset (List.replicate bytes.length 0 ++ [1])).drop q)[
      12 + bytes.length]? = some 0 := by
    rw [List.getElem?_drop, List.getElem?_append_right (by omega), record,
      List.getElem?_append_right (by simp only [List.length_append, length_toLE]; omega)]
    simp only [List.length_append, length_toLE]
    rw [List.getElem?_append_left (by rw [List.length_replicate]; omega),
      List.getElem?_replicate_of_lt (by omega)]
  rw [hlast, hshift] at hbyte
  exact absurd hbyte (by decide)

/-- The wrap keeps the positions of entries at multiples of their width. -/
theorem slot_of_wrapped {pos : ℤ} {a : ℕ}
    (h : toInt64 (pos * Index.entryWidth) + Index.offsetWidth = a) : ∃ k, a = 8 * k + 4 := by
  rw [toInt64, show Index.entryWidth = 8 from rfl, show Index.offsetWidth = 4 from rfl,
    Int.bmod_def] at h
  refine ⟨(a - 4) / 8, ?_⟩
  split_ifs at h <;> omega

theorem Astray.lost (ha : Astray h bytes) (hlen : bytes.length < 2 ^ 30) :
    ∃ m, m.length < 2 ^ 31 ∧ ∃ o h', h.append m = (.ok o, h') ∧
      ∀ target, h'.readAt target ≠ (.ok (), m) := by
  obtain ⟨i, j, hij, hfd, hfr, hbytes, haddr, hfile, hslots⟩ := ha.files
  obtain ⟨n, hn, hroom⟩ := ha.entries
  set m : Payload := List.replicate bytes.length 0 ++ [1] with hm
  have hmlen : m.length = bytes.length + 1 := by simp [hm]
  obtain ⟨d, hlog, -, hwrite⟩ := write_bytes ha.calm hfd (m := m) (by omega)
  have hx := Index.write_mapped haddr (w := { h.world with fs := h.world.fs.setData i d })
    (by omega) (by rw [ha.size, hn]; omega) h.segment.nextOffset h.segment.position
  rw [hx] at hwrite
  refine ⟨m, by omega, _, _, SegmentHost.append_eq ha.calm hwrite, fun target hread => ?_⟩
  obtain ⟨w', hread⟩ := SegmentHost.readAt_eq hread
  obtain ⟨r, num, i', q, hfind, hfd', hrec⟩ := readAt_inv hread
  obtain ⟨num', hfr⟩ := hfr
  rw [hfr, Desc.live.injEq] at hfd'
  obtain ⟨-, rfl⟩ := hfd'
  have hq : (q : ℤ) ≠ bytes.length := by
    rcases findEntry_reads hfind with hneg | ⟨pos, offset, hentry⟩
    · omega
    · have hload := Index.read_inv hentry
      dsimp only at hload
      rw [haddr] at hload
      obtain ⟨a, hslot, hval⟩ := World.load_inv hload
      obtain ⟨k, rfl⟩ := slot_of_wrapped hslot
      have hpos : h.segment.index.position.toNat = 8 * n := by omega
      rw [FileSystem.data_setData_same, FileSystem.data_setData_ne _ _ hij.symm, hpos] at hval
      rw [← hval]
      by_cases hk : k = n
      · rw [hk, Index.load_stored_position (by omega), Index.toInt32_toInt32]
        exact ha.position
      · rw [Index.load_stored_disjoint (by omega)]
        exact hslots k
  have hend : (((h.world.fs.setData i d).setData j ⟨Index.stored
      ((h.world.fs.setData i d).data j).image h.segment.index.position.toNat
      (toInt32 (h.segment.nextOffset - h.segment.index.baseOffset)) (toInt32 h.segment.position),
      ((h.world.fs.setData i d).data j).mtime⟩).data i).image.toList =
      bytes ++ record h.segment.nextOffset m := by
    rw [FileSystem.data_setData_ne _ _ hij, FileSystem.data_setData_same, hlog, hbytes]
  dsimp only at hrec
  rw [hend] at hrec
  exact hq (congrArg Nat.cast (recordAt_end hrec))

end MyKafka
