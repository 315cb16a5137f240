import MyKafka.SegmentFailure

/-!
# Rebuilding a segment

A new object on the files of a segment whose writes all succeeded reads its index back from the log,
whatever file the old index left. It gives the same answers as the object that wrote the log.
-/

namespace MyKafka

open Posix LittleEndian Log

/-- The file of the index is one that `open` and `sanityCheck` accept. -/
def Index.Accepts (x : Index) (w : World) : Prop :=
  ∃ x' w', x.open w = (.ok (), x', w') ∧ x'.sanityCheck w' = .ok ()

/-- The writes of `ms`, one after the other; `none` when one of them fails. -/
def Segment.writeAll (s : Segment) : List Payload → World → Option (Segment × World)
  | [], w => some (s, w)
  | m :: ms, w =>
    match s.write m w with
    | (.error _, _, _) => none
    | (.ok _, s, w) => s.writeAll ms w

/-- The two objects answer every call the same way. -/
structure SameSegment (s : Segment) (w : World) (s' : Segment) (w' : World) : Prop where
  nextOffset : s'.nextOffset = s.nextOffset
  position : s'.position = s.position
  isFull : s'.isFull ↔ s.isFull
  size : s'.size = s'.position
  entries : ∀ k : ℕ, (k : ℤ) < s.nextOffset - s.baseOffset →
    s'.index.read (k * Index.entryWidth) w' = s.index.read (k * Index.entryWidth) w
  findEntry : ∀ relPosition target,
    s'.findEntry relPosition target w' = s.findEntry relPosition target w
  readAt : ∀ target, (s'.readAt target w').1 = (s.readAt target w).1 ∧
    (s'.readAt target w').2.1 = (s.readAt target w).2.1
  write : ∀ m : Payload, m.length < 2 ^ 31 → (s'.write m w').1 = (s.write m w).1

/-- What a later object finds: the log of the segment, and some file under the name of the index. -/
structure LeftBehind (w w' : World) (path : RawPath) (dir : Path) (base : ℕ) : Prop where
  calm : w'.Calm
  atDir : FileSystem.At w'.fs path dir
  logName : ¬ w'.fs.IsDir (dir ++ [logName base])
  indexName : ¬ w'.fs.IsDir (dir ++ [indexName base])
  log : (w'.fs.contents (dir ++ [MyKafka.logName base]) w'.now).image =
    (w.fs.contents (dir ++ [MyKafka.logName base]) w.now).image

variable {w w' : World} {s s' : Segment} {i j i' j' : ℕ} {path : RawPath} {dir : Path}
  {c c' : Chunk} {base : ℕ}

theorem Index.sane_of_check {x : Index} {im : Image} {mtime : ℤ} (hpos : x.position = im.size)
    (hsize : x.size = 10485760) (haddr : x.addr = .mapped j)
    (hdata : w.fs.data j = ⟨Index.opened im, mtime⟩) (hcheck : x.sanityCheck w = .ok ()) :
    Index.Sane im := by
  by_cases hzero : im.size = 0
  · exact ⟨by rw [hzero]; exact dvd_zero 8, by omega, Or.inl hzero⟩
  · unfold Index.sanityCheck at hcheck
    rw [hpos, show Index.entryWidth = 8 from rfl, if_neg (by exact_mod_cast hzero)] at hcheck
    split_ifs at hcheck with hmod
    · cases hcheck
    · have hdvd : 8 ∣ im.size := by
        have := Int.dvd_of_tmod_eq_zero (not_not.mp hmod)
        exact_mod_cast this
      have hge : 8 ≤ im.size := Nat.le_of_dvd (by omega) hdvd
      have hle : im.size ≤ 10485760 := by
        by_contra hover
        rw [Index.read, hsize, show Index.entryWidth = 8 from rfl, if_pos (by omega)] at hcheck
        cases hcheck
      have hread := Index.read_mapped (w := w) (a := im.size - 8) haddr (by omega)
        (by rw [hdata, Index.size_opened]; omega)
      rw [hdata, Index.load_opened im (by omega)] at hread
      rw [show (im.size : ℤ) - 8 = ((im.size - 8 : ℕ) : ℤ) by omega, hread] at hcheck
      dsimp only at hcheck
      split_ifs at hcheck with hneg
      · cases hcheck
      · exact ⟨hdvd, hle, Or.inr (by omega)⟩

theorem Index.Accepts.sane (hw : w.Calm) (hp : FileSystem.At w.fs path dir)
    (hx : ¬ w.fs.IsDir (dir ++ [indexName base]))
    (h : (Index.new (getIndexFilename path base) base 0).Accepts w) :
    Index.Sane (w.fs.contents (dir ++ [indexName base]) w.now).image := by
  obtain ⟨x, w₁, hopen, hcheck⟩ := h
  obtain ⟨j, fs, ho, -, hdata, -, -⟩ := FileSystem.openCreate_spec
    (hp.child (plain_indexName base)) (by simp) hx (by simpa using hp.isDir) w.now
  rw [← hdata]
  have hcalm := Index.open_calm (x := Index.new (getIndexFilename path base) base 0) hw rfl ho
  rw [hopen, Prod.mk.injEq, Prod.mk.injEq] at hcalm
  obtain ⟨-, rfl, rfl⟩ := hcalm
  exact Index.sane_of_check rfl rfl rfl (FileSystem.data_setData_same _ _ _) hcheck

namespace Segment

/-! ## Two objects on the same records -/

theorem findEntryLoop_congr {x x' : Index} {n : ℤ} (hbase : x'.baseOffset = x.baseOffset)
    (hn : n < 2 ^ 60) (hread : ∀ k : ℕ, (k : ℤ) < n →
      x'.read (k * Index.entryWidth) w' = x.read (k * Index.entryWidth) w)
    (target : ℤ) (fuel : ℕ) : ∀ {first last relOffset relPosition : ℤ}, 0 ≤ first → last < n →
      findEntryLoop x' target w' fuel first last (middle first last) relOffset relPosition =
        findEntryLoop x target w fuel first last (middle first last) relOffset relPosition := by
  induction fuel with
  | zero => intros; rfl
  | succ fuel ih =>
      intro first last relOffset relPosition h0 hlast
      rw [findEntryLoop, findEntryLoop]
      split_ifs with hcond
      · obtain ⟨hlo, hhi⟩ := Bisection.midpoint h0 hcond.1
        obtain ⟨k, hk⟩ : ∃ k : ℕ, Int.tdiv (first + last) 2 = k :=
          ⟨_, (Int.toNat_of_nonneg (h0.trans hlo)).symm⟩
        rw [middle_of_range h0 hcond.1 (by omega), hk]
        rw [hk] at hlo hhi
        rw [slot_of_range (by omega) (by omega), hread k (by omega), hbase]
        split
        · rfl
        · dsimp only
          split_ifs with hbefore
          · exact ih h0 (by omega)
          · exact ih (by omega) hlast
      · rfl

theorem readAt_congr (hw : w.Calm) (hw' : w'.Calm) (hfd : ∃ num, s.fdRead = .live num i)
    (hfd' : ∃ num, s'.fdRead = .live num i') (hname : s'.filename = s.filename)
    (hlog : (w'.fs.data i').image.toList = (w.fs.data i).image.toList) {target : ℤ}
    (hfind : s'.findEntry (-1) target w' = s.findEntry (-1) target w) :
    (s'.readAt target w').1 = (s.readAt target w).1 ∧
      (s'.readAt target w').2.1 = (s.readAt target w).2.1 := by
  obtain ⟨num, hfd⟩ := hfd
  obtain ⟨num', hfd'⟩ := hfd'
  have hread : ∀ pos n, (w'.fs.data i').image.read pos n = (w.fs.data i).image.read pos n := by
    intro pos n
    rw [Image.read_eq, Image.read_eq, hlog]
  unfold readAt logText
  rw [hfind, hname, hfd, hfd']
  split
  · exact ⟨rfl, rfl⟩
  · next relOffset relPosition _ =>
      dsimp only
      split_ifs with hnone
      · exact ⟨rfl, rfl⟩
      · rw [World.lseek_calm hw, World.lseek_calm hw']
        cases decide (0 ≤ relPosition) with
        | false => exact ⟨rfl, rfl⟩
        | true =>
            dsimp only
            rw [World.read_calm hw, World.read_calm hw', hread]
            dsimp only
            split_ifs with hneg
            · exact ⟨rfl, rfl⟩
            · rw [World.read_calm hw, World.read_calm hw', hread]
              dsimp only
              split_ifs <;> exact ⟨rfl, rfl⟩

theorem write_congr (hw : w.Calm) (hw' : w'.Calm) (h : OpenAs w.fs path dir i j s c)
    (h' : OpenAs w'.fs path dir i' j' s' c') (hnext : s'.nextOffset = s.nextOffset)
    (hindex : s'.index.position = s.index.position) {m : Payload} (hm : m.length < 2 ^ 31) :
    (s'.write m w').1 = (s.write m w).1 := by
  obtain ⟨d, -, -, hwrite⟩ := write_bytes hw h.fd hm
  obtain ⟨d', -, -, hwrite'⟩ := write_bytes hw' h'.fd hm
  rw [hwrite, hwrite']
  unfold Index.write
  dsimp only
  rw [h.holds.size, h'.holds.size, hindex, hnext]
  split_ifs <;> rfl

/-- Two objects on the same records answer alike. -/
theorem same_of_open (hw : w.Calm) (hw' : w'.Calm) (h : OpenAs w.fs path dir i j s c)
    (h' : OpenAs w'.fs path dir i' j' s' c') (hbase : c'.base = c.base) (hmsgs : c'.msgs = c.msgs)
    (hjunk : c'.junk = c.junk) (hmax : s'.maxSize = s.maxSize) : SameSegment s w s' w' := by
  have hnext : s'.nextOffset = s.nextOffset := by
    rw [h.nextOffset, h'.nextOffset, Chunk.next, Chunk.next, hbase, hmsgs]
  have hpos : s'.position = s.position := by
    rw [h.position, h'.position, Chunk.size, Chunk.size, hmsgs]
  have hindex : s'.index.baseOffset = s.index.baseOffset := by
    rw [h.baseOffset, h'.baseOffset, hbase]
  have hentries : ∀ k : ℕ, (k : ℤ) < s.nextOffset - s.baseOffset →
      s'.index.read (k * Index.entryWidth) w' = s.index.read (k * Index.entryWidth) w := by
    intro k hk
    have hlt : k < c.msgs.length := by
      rw [h.nextOffset, baseOffset, h.baseOffset, Chunk.next] at hk
      omega
    have hentry := startsFrom_getElem? 0 hlt
    have hentry' := hentry
    rw [← hmsgs] at hentry'
    rw [Index.read_entry h.holds hentry, Index.read_entry h'.holds hentry', hindex, hmsgs]
  have hfind : ∀ relPosition target,
      s'.findEntry relPosition target w' = s.findEntry relPosition target w := by
    intro relPosition target
    have hcount : s.nextOffset - s.index.baseOffset = c.msgs.length := by
      rw [h.nextOffset, h.baseOffset, Chunk.next]
      omega
    have hroom := h.fits.room
    unfold findEntry
    rw [hnext, hindex, hcount, toInt64_of_range (by omega) (by omega)]
    dsimp only
    rw [findEntryLoop_congr (n := c.msgs.length) hindex (by omega) (fun k hk => hentries k (by
      rw [baseOffset, hcount]
      exact hk)) target _ le_rfl (by omega)]
  refine ⟨hnext, hpos, ?_, ?_, hentries, hfind, ?_, ?_⟩
  · rw [isFull, isFull, hmax, hpos]
  · rw [size, h'.physicalSize, h'.position]
  · intro target
    refine readAt_congr hw hw' h.fdRead h'.fdRead ?_ ?_ (hfind _ _)
    · rw [h.filename, h'.filename, hbase]
    · rw [h.bytes, h'.bytes, hbase, hmsgs, hjunk]
  · intro m hm
    refine write_congr hw hw' h h' hnext ?_ hm
    rw [h.holds.position, h'.holds.position, hmsgs]

theorem write_calm (hw : w.Calm) (hfd : ∃ num, s.fd = .live num i) {m : Payload}
    (hm : m.length < 2 ^ 31) : (s.write m w).2.2.Calm := by
  obtain ⟨d, -, -, hwrite⟩ := write_bytes hw hfd hm
  rw [hwrite]
  unfold Index.write
  dsimp only
  split_ifs
  · exact hw
  · cases s.index.addr <;> exact hw

theorem writeAll_spec {ms : List Payload} : ∀ {w : World} {s : Segment} {c : Chunk}, w.Calm →
    OpenAs w.fs path dir i j s c → c.base + (c.msgs.length + ms.length) < 2 ^ 63 →
    (∀ m ∈ ms, m.length < 2 ^ 31) → s.writeAll ms w = some (s', w') →
    w'.Calm ∧ s'.maxSize = s.maxSize ∧ ∃ d, OpenAs w'.fs path dir i j s' d ∧ d.base = c.base ∧
      d.msgs = c.msgs ++ ms ∧ (c.junk = [] → d.junk = []) := by
  induction ms with
  | nil =>
      intro w s c hw h _ _ hall
      obtain ⟨rfl, rfl⟩ := Prod.mk.inj (Option.some.inj hall)
      exact ⟨hw, rfl, c, h, rfl, (List.append_nil _).symm, id⟩
  | cons m ms ih =>
      intro w s c hw h hlen hms hall
      have hm := hms m List.mem_cons_self
      have hcalm := write_calm hw h.fd hm
      rw [writeAll] at hall
      by_cases hroom : c.msgs.length < 1310720
      · obtain ⟨s₁, w₁, hwrite, h₁, -, hmax⟩ := write_ok hw h hroom hm
          (by rw [Chunk.next]; rw [List.length_cons] at hlen; omega)
        rw [hwrite] at hall hcalm
        obtain ⟨hw', hmax', d, hd, hbase, hmsgs, hjunk⟩ := ih hcalm h₁
          (by
            simp only [Chunk.push, List.length_append, List.length_cons, List.length_nil] at hlen ⊢
            omega)
          (fun m' hm' => hms m' (List.mem_cons_of_mem m hm')) hall
        refine ⟨hw', hmax'.trans hmax, d, hd, hbase, ?_, hjunk⟩
        rw [hmsgs, Chunk.push, List.append_assoc, List.singleton_append]
      · have hroom' := h.fits.room
        obtain ⟨e, w₁, hwrite, -⟩ := write_full hw h (by omega) hm
        rw [hwrite] at hall
        cases hall

/-- After writes that all succeeded, a new object on the log and on any index file that is accepted
gives the answers of the object that wrote the log. -/
theorem rebuild_same {maxSize : ℤ} {old ms : List Payload} {w₁ w₂ w₃ : World} {s₁ s₂ : Segment}
    (hlog : CompleteLog w path dir base old) (hopen : (Segment.new path base maxSize).open w =
      (.ok (), s₁, w₁))
    (hlen : base + (old.length + ms.length) < 2 ^ 63) (hms : ∀ m ∈ ms, m.length < 2 ^ 31)
    (hwrites : s₁.writeAll ms w₁ = some (s₂, w₂)) (hleft : LeftBehind w₂ w₃ path dir base)
    (hindex : (Index.new (getIndexFilename path base) base 0).Accepts w₃) :
    ∃ s' w', (Segment.new path base maxSize).open w₃ = (.ok (), s', w') ∧
      SameSegment s₂ w₂ s' w' := by
  obtain ⟨s₁', w₁', i, j, hopen', ho, -, hmax⟩ := open_spec
    (c := ⟨base, old, [], (w.fs.contents (dir ++ [logName base]) w.now).mtime⟩)
    hlog.calm hlog.atDir hlog.logName hlog.indexName hlog.bytes rfl hlog.sane
    ⟨hlog.fits.payload, hlog.fits.next_lt, hlog.fits.room⟩ rfl
  have hfr := (open_frame (Frame.refl (fun _ => id)) (Confined.new
    (S := ownNames dir base) (I := FileSystem.Named (ownNames dir base) w.fs)
    (hlog.atDir.inside (plain_logName _) (Or.inl rfl))
    (hlog.atDir.inside (plain_indexName _) (Or.inr rfl)) maxSize)).1
  rw [hopen] at hfr hopen'
  obtain ⟨-, rfl, rfl⟩ := by simpa only [Prod.mk.injEq] using hopen'
  obtain ⟨hw₂, hmax₂, d, hd, hbase, hmsgs, hjunk⟩ := writeAll_spec (hfr.calm hlog.calm) ho hlen hms
    hwrites
  -- the log as the new object finds it
  have hlog₂ : (w₂.fs.contents (dir ++ [logName base]) w₂.now).image.toList =
      encode base (old ++ ms) := by
    have hnode := hd.log
    rw [hbase] at hnode
    rw [FileSystem.contents_file hnode, hd.bytes, hbase, hmsgs, hjunk rfl, List.append_nil]
  have hfits : Chunk.Fits ⟨base, old ++ ms, [], (w₃.fs.contents (dir ++ [logName base]) w₃.now).mtime⟩ := by
    obtain ⟨hpayload, hnext, hroom⟩ := hd.fits
    rw [Chunk.next, hbase] at hnext
    rw [hmsgs] at hpayload hnext hroom
    exact ⟨hpayload, hnext, hroom⟩
  obtain ⟨s', w', i', j', hopen₃, ho', -, hmax₃⟩ := open_spec
    (c := ⟨base, old ++ ms, [], (w₃.fs.contents (dir ++ [logName base]) w₃.now).mtime⟩)
    hleft.calm hleft.atDir hleft.logName hleft.indexName
    (by rw [hleft.log]; exact hlog₂) rfl (hindex.sane hleft.calm hleft.atDir hleft.indexName)
    hfits rfl
  have hfr₃ := (open_frame (Frame.refl (fun _ => id)) (Confined.new
    (S := ownNames dir base) (I := FileSystem.Named (ownNames dir base) w₃.fs)
    (hleft.atDir.inside (plain_logName _) (Or.inl rfl))
    (hleft.atDir.inside (plain_indexName _) (Or.inr rfl)) maxSize)).1
  rw [hopen₃] at hfr₃
  exact ⟨s', w', hopen₃, same_of_open hw₂ (hfr₃.calm hleft.calm) hd ho' hbase.symm hmsgs.symm
    (hjunk rfl).symm (by rw [hmax₃, hmax₂, hmax])⟩

theorem writeAll_cons {m : Payload} (h : (s.write m w).1.isOk = true) (ms : List Payload) :
    s.writeAll (m :: ms) w = (s.write m w).2.1.writeAll ms (s.write m w).2.2 := by
  rw [writeAll]
  generalize s.write m w = r at h ⊢
  obtain ⟨res, s', w'⟩ := r
  cases res with
  | ok => rfl
  | error => cases h

/-- The index file keeps its full size when nobody closes it. -/
theorem rebuild_same_killed :
    let first := (Segment.new ⟨[], []⟩ 0 100).open (World.blank 0)
    let last := first.2.1.write [1, 2] first.2.2
    ∃ s' w', (Segment.new ⟨[], []⟩ 0 100).open last.2.2 = (.ok (), s', w') ∧
      SameSegment last.2.1 last.2.2 s' w' := by
  intro first last
  have hopen : first = (.ok (), first.2.1, first.2.2) :=
    Prod.ext (eq_ok_of_isOk (by decide +kernel)) rfl
  have hwrites : first.2.1.writeAll [[1, 2]] first.2.2 = some (last.2.1, last.2.2) :=
    writeAll_cons (by decide +kernel) []
  have hleft : LeftBehind last.2.2 last.2.2 ⟨[], []⟩ [] 0 := by
    refine ⟨?_, ⟨by simp, rfl, rfl, rfl⟩, by decide +kernel, by decide +kernel, rfl⟩
    show last.2.2.outcomes = []
    decide +kernel
  have haccept : (Index.new (getIndexFilename ⟨[], []⟩ 0) 0 0).Accepts last.2.2 :=
    ⟨_, _, Prod.ext (eq_ok_of_isOk (by decide +kernel)) rfl, eq_ok_of_isOk (by decide +kernel)⟩
  exact rebuild_same (CompleteLog.blank 0) hopen (by decide)
    (fun m hm => by rw [List.mem_singleton.mp hm]; exact Nat.lt_of_sub_pos (by decide)) hwrites
    hleft haccept

end Segment

end MyKafka
