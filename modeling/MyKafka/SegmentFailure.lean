import MyKafka.Runs
import MyKafka.SegmentSpec

/-!
# Appends that fail

A write of a segment makes two appends, and the kernel may refuse each or cut it short. While no
failed write leaves bytes behind, every acknowledged message stays readable; once the index is full
no write succeeds any more, and what is left behind does no harm.
-/

namespace Posix

/-- A write of `size` bytes that is served in full. -/
def Lands (size : ℕ) : List Outcome → Prop
  | [] | .ok :: _ => True
  | .fail :: _ => False
  | .short n :: _ => size ≤ n

instance (size : ℕ) : (os : List Outcome) → Decidable (Lands size os)
  | [] | .ok :: _ => inferInstanceAs (Decidable True)
  | .fail :: _ => inferInstanceAs (Decidable False)
  | .short n :: _ => inferInstanceAs (Decidable (size ≤ n))

/-- A write that leaves no byte. -/
def Refused : List Outcome → Prop
  | .fail :: _ => True
  | .short n :: _ => n = 0
  | [] | .ok :: _ => False

instance : (os : List Outcome) → Decidable (Refused os)
  | .fail :: _ => inferInstanceAs (Decidable True)
  | .short n :: _ => inferInstanceAs (Decidable (n = 0))
  | [] | .ok :: _ => inferInstanceAs (Decidable False)

/-- The file of the inode `i` grew by `extra`, and nothing else changed. -/
structure FileSystem.Grown (fs fs' : FileSystem) (i : ℕ) (extra : List UInt8) : Prop where
  node : ∀ p, fs'.node? p = fs.node? p
  log : (fs'.data i).image.toList = (fs.data i).image.toList ++ extra
  other : ∀ j, j ≠ i → fs'.data j = fs.data j

namespace FileSystem.Grown

variable {fs fs' fs'' : FileSystem} {i : ℕ} {extra more : List UInt8}

theorem refl (fs : FileSystem) (i : ℕ) : Grown fs fs i [] := ⟨fun _ => rfl, by simp, fun _ _ => rfl⟩

theorem trans (h : Grown fs fs' i extra) (h' : Grown fs' fs'' i more) :
    Grown fs fs'' i (extra ++ more) :=
  ⟨fun p => (h'.node p).trans (h.node p), by rw [h'.log, h.log, List.append_assoc],
    fun j hj => (h'.other j hj).trans (h.other j hj)⟩

theorem append (fs : FileSystem) (i : ℕ) (bs : List UInt8) (now : ℤ) :
    Grown fs (fs.setData i ⟨(fs.data i).image.append bs, now⟩) i bs := by
  refine ⟨fun _ => rfl, ?_, fun j hj => data_setData_ne _ _ hj⟩
  rw [data_setData_same, Image.toList_append]

end FileSystem.Grown

namespace World

variable {w : World} {num i : ℕ} {bs : List UInt8}

theorem append_lands (h : Lands bs.length w.outcomes) :
    w.append (.live num i) bs = ((bs.length : ℤ),
      { w.setImage i ((w.fs.data i).image.append bs) with outcomes := w.outcomes.tail }) := by
  obtain ⟨fs, now, outcomes, order, nextFd, closed⟩ := w
  cases outcomes with
  | nil => rfl
  | cons o os =>
      cases o with
      | ok => rfl
      | fail => exact h.elim
      | short n =>
          simp only [append, next, List.take_of_length_le (show bs.length ≤ n from h)]
          rfl

theorem append_grows (w : World) (num i : ℕ) (bs : List UInt8) :
    ∃ extra, FileSystem.Grown w.fs (w.append (.live num i) bs).2.fs i extra := by
  obtain ⟨fs, now, outcomes, order, nextFd, closed⟩ := w
  cases outcomes with
  | nil => exact ⟨bs, FileSystem.Grown.append fs i bs now⟩
  | cons o os =>
      cases o with
      | ok => exact ⟨bs, FileSystem.Grown.append fs i bs now⟩
      | fail => exact ⟨[], FileSystem.Grown.refl fs i⟩
      | short n => exact ⟨bs.take n, FileSystem.Grown.append fs i (bs.take n) now⟩

theorem append_refused (h : Refused w.outcomes) :
    ∃ n w', w.append (.live num i) bs = (n, w') ∧ n ≤ 0 ∧ FileSystem.Grown w.fs w'.fs i [] := by
  obtain ⟨fs, now, outcomes, order, nextFd, closed⟩ := w
  cases outcomes with
  | nil => exact h.elim
  | cons o os =>
      cases o with
      | ok => exact h.elim
      | fail => exact ⟨-1, _, rfl, by decide, FileSystem.Grown.refl fs i⟩
      | short n =>
          obtain rfl : n = 0 := h
          exact ⟨0, _, rfl, le_rfl, FileSystem.Grown.append fs i [] now⟩

end World

end Posix

namespace MyKafka

open Posix LittleEndian Log

/-- The calls a write makes are answered by `outcomes`, and all later ones are served. -/
structure Attempt where
  payload : Payload
  outcomes : List Outcome

structure SegmentHost where
  segment : Segment
  world : World

namespace SegmentHost

def boot (path : RawPath) (baseOffset maxSize : ℤ) (w : World) : Result Unit × SegmentHost :=
  match (Segment.new path baseOffset maxSize).open w with
  | (res, s, w) => (res, ⟨s, w⟩)

def step (h : SegmentHost) (a : Attempt) : Result ℤ × SegmentHost :=
  match h.segment.write a.payload { h.world with outcomes := a.outcomes } with
  | (res, s, w) => (res, ⟨s, { w with outcomes := [] }⟩)

def readAt (h : SegmentHost) (relativeOffset : ℤ) : Result Unit × Payload :=
  match h.segment.readAt relativeOffset h.world with
  | (res, payload, _) => (res, payload)

abbrev final (h : SegmentHost) (as : List Attempt) : SegmentHost := Runs.final step h as

end SegmentHost

/-- The appends of the write leave no byte, or a whole record at a position that fits its field;
unless the index is full, and the write fails in any case. -/
def Whole (h : SegmentHost) (a : Attempt) : Prop :=
  h.segment.index.size ≤ h.segment.index.position ∨ Refused a.outcomes ∨
    (Lands Segment.headerSize a.outcomes ∧ Lands a.payload.length a.outcomes.tail ∧
      a.payload.length < 2 ^ 31 ∧ h.segment.position < 2 ^ 31)

instance (h : SegmentHost) (a : Attempt) : Decidable (Whole h a) :=
  inferInstanceAs (Decidable (_ ∨ _ ∨ (_ ∧ _ ∧ _ ∧ _)))

variable {w : World} {s : Segment} {i j : ℕ} {path : RawPath} {dir : Path} {c : Chunk}

/-- Bytes added behind the records. -/
theorem OpenAs.grown {fs fs' : FileSystem} {extra : List UInt8} (h : OpenAs fs path dir i j s c)
    (hg : FileSystem.Grown fs fs' i extra) (hfull : extra = [] ∨ c.msgs.length = 1310720) :
    OpenAs fs' path dir i j s { c with junk := c.junk ++ extra, mtime := (fs'.data i).mtime } := by
  refine ⟨⟨?_, ?_, ?_, rfl, ⟨h.fits.payload, h.fits.next_lt, h.fits.room⟩⟩, h.fd, h.fdRead,
    h.nextOffset, h.position, h.physicalSize, h.filename, h.indexFilename, h.baseOffset,
    h.holds.congr (hg.other j h.ne.symm), ?_⟩
  · rw [hg.node, h.log]
  · rw [hg.node, h.index]
  · rw [hg.log, h.bytes, List.append_assoc]
  · rcases hfull with rfl | hfull
    · simpa using h.junk
    · exact Or.inr hfull

namespace Segment

/-- A write whose header is refused fails and leaves the segment as it was. -/
theorem writeBuffer_refused (hfd : ∃ num, s.fd = .live num i) (m : Payload) (size : ℤ)
    (h : Refused w.outcomes) :
    ∃ e w', s.writeBuffer m size w = (.error e, s, w') ∧ FileSystem.Grown w.fs w'.fs i [] := by
  obtain ⟨num, hfd⟩ := hfd
  obtain ⟨n, w', hap, hn, hg⟩ := World.append_refused (i := i)
    h
  rw [← hfd] at hap
  rw [writeBuffer, hap]
  dsimp only
  rw [if_pos (by simp only [headerSize, offsetSize, sizeSize]; omega)]
  exact ⟨_, w', rfl, hg⟩

theorem appendPayload_grows (w : World) (num i : ℕ) (m : Payload) (size : ℤ) :
    ∃ extra, FileSystem.Grown w.fs (appendPayload w (.live num i) m size).2.fs i extra := by
  rw [appendPayload]
  split_ifs with hneg
  · refine ⟨[], ?_⟩
    have hfs : w.served.2.fs = w.fs := by
      obtain ⟨fs, now, outcomes, order, nextFd, closed⟩ := w
      cases outcomes with
      | nil => rfl
      | cons o os => cases o <;> rfl
    rw [hfs]
    exact FileSystem.Grown.refl _ _
  · exact World.append_grows _ _ _ _

theorem index_write_full {x : Index} (hfull : x.size ≤ x.position) (offset position : ℤ) (w : World) :
    ∃ e, x.write offset position w = (.error e, x, w) := by
  unfold Index.write
  dsimp only
  rw [if_pos hfull]
  exact ⟨_, rfl⟩

/-- With a full index a write fails whatever the kernel lets through. -/
theorem writeBuffer_no_room (hfd : ∃ num, s.fd = .live num i) (m : Payload) (size : ℤ)
    (hfull : s.index.size ≤ s.index.position) :
    ∃ e w' extra, s.writeBuffer m size w = (.error e, s, w') ∧
      FileSystem.Grown w.fs w'.fs i extra := by
  obtain ⟨num, hfd⟩ := hfd
  obtain ⟨extra, hg⟩ := World.append_grows w num i
    (toLE offsetSize s.nextOffset ++ toLE sizeSize size)
  rw [← hfd] at hg
  cases hap : w.append s.fd (toLE offsetSize s.nextOffset ++ toLE sizeSize size) with
  | mk n w₁ =>
      rw [hap] at hg
      obtain ⟨more, hg'⟩ := appendPayload_grows w₁ num i m size
      rw [← hfd] at hg'
      rw [writeBuffer, hap]
      dsimp only at hg ⊢
      by_cases hn : n ≠ headerSize
      · rw [if_pos hn]
        exact ⟨_, w₁, extra, rfl, hg⟩
      · rw [if_neg hn]
        cases hpay : appendPayload w₁ s.fd m size with
        | mk n' w₂ =>
            rw [hpay] at hg'
            dsimp only at hg' ⊢
            by_cases hn' : n' ≠ size
            · rw [if_pos hn']
              exact ⟨_, w₂, _, rfl, hg.trans hg'⟩
            · obtain ⟨e, hx⟩ := index_write_full hfull s.nextOffset s.position w₂
              rw [if_neg hn', hx]
              exact ⟨e, w₂, _, rfl, hg.trans hg'⟩

/-- A store through a mapping takes no outcome. -/
theorem index_write_outcomes (x : Index) (offset position : ℤ) (w : World) (os : List Outcome) :
    x.write offset position { w with outcomes := os } =
      match x.write offset position w with
      | (res, x, w) => (res, x, { w with outcomes := os }) := by
  unfold Index.write
  dsimp only
  split_ifs
  · rfl
  · cases x.addr <;> rfl

theorem append_outcomes (num i : ℕ) {bs : List UInt8} (hw : w.Calm) {os : List Outcome}
    (h : Lands bs.length os) :
    { w with outcomes := os }.append (.live num i) bs =
      match w.append (.live num i) bs with
      | (n, w) => (n, { w with outcomes := os.tail }) := by
  rw [World.append_lands (w := { w with outcomes := os }) h, World.append_calm hw]
  rfl

/-- A write both of whose appends are served. -/
theorem writeBuffer_served {w₁ w₂ : World} {m : Payload} {size : ℤ}
    (hheader : w.append s.fd (toLE offsetSize s.nextOffset ++ toLE sizeSize size) =
      ((headerSize : ℤ), w₁))
    (hpay : appendPayload w₁ s.fd m size = (size, w₂)) :
    s.writeBuffer m size w =
      match s.index.write s.nextOffset s.position w₂ with
      | (.error e, index, w) => (.error e, { s with index := index }, w)
      | (.ok _, index, w) =>
        (.ok s.nextOffset, { s with
          index := index
          nextOffset := toInt64 (s.nextOffset + 1)
          position := s.position + (headerSize + size)
          physicalSize := s.physicalSize + (headerSize + size) }, w) := by
  rw [writeBuffer, hheader]
  dsimp only
  rw [if_neg (by simp), hpay]
  exact if_neg (by simp)

theorem appendPayload_whole {fd : Desc} {m : Payload} {size : ℤ} (hsize : size = m.length) (w : World) :
    appendPayload w fd m size = w.append fd m := by
  rw [appendPayload, if_neg (by omega), hsize, Int.toNat_natCast, List.take_length]

/-- When both appends are served in full, the outcomes make no difference. -/
theorem writeBuffer_lands (hw : w.Calm) (hfd : ∃ num, s.fd = .live num i) {m : Payload} {size : ℤ}
    (hsize : size = m.length) {os : List Outcome} (h : Lands headerSize os)
    (h' : Lands m.length os.tail) :
    s.writeBuffer m size { w with outcomes := os } =
      match s.writeBuffer m size w with
      | (res, s, w) => (res, s, { w with outcomes := os.tail.tail }) := by
  obtain ⟨num, hfd⟩ := hfd
  have hlen : (toLE offsetSize s.nextOffset ++ toLE sizeSize size).length = headerSize := by
    rw [List.length_append, length_toLE, length_toLE]
    rfl
  have h₁ := World.append_calm hw num i (toLE offsetSize s.nextOffset ++ toLE sizeSize size)
  have h₁' := append_outcomes num i hw (hlen ▸ h)
  rw [h₁] at h₁'
  rw [hlen, ← hfd] at h₁ h₁'
  generalize hw₁ : w.setImage i
    ((w.fs.data i).image.append (toLE offsetSize s.nextOffset ++ toLE sizeSize size)) = w₁ at h₁ h₁'
  have hcalm : w₁.Calm := hw₁ ▸ World.setImage_calm hw i _
  have h₂ := World.append_calm hcalm num i m
  have h₂' := append_outcomes num i hcalm h'
  rw [h₂] at h₂'
  rw [← hfd, ← hsize] at h₂ h₂'
  rw [writeBuffer_served h₁ ((appendPayload_whole hsize _).trans h₂),
    writeBuffer_served h₁' ((appendPayload_whole hsize _).trans h₂'), index_write_outcomes]
  cases s.index.write s.nextOffset s.position _ with
  | mk res rest => cases res <;> rfl

end Segment

/-! ## Runs -/

/-- The files of a segment whose log is a sequence of complete records. -/
structure CompleteLog (w : World) (path : RawPath) (dir : Path) (base : ℕ) (msgs : List Payload) :
    Prop where
  calm : w.Calm
  atDir : FileSystem.At w.fs path dir
  logName : ¬ w.fs.IsDir (dir ++ [logName base])
  indexName : ¬ w.fs.IsDir (dir ++ [indexName base])
  bytes : (w.fs.contents (dir ++ [MyKafka.logName base]) w.now).image.toList = encode base msgs
  sane : Index.Sane (w.fs.contents (dir ++ [MyKafka.indexName base]) w.now).image
  fits : Chunk.Fits ⟨base, msgs, [], 0⟩

/-- The segment is open and holds the messages, perhaps with bytes behind them once its index is
full. -/
structure Intact (path : RawPath) (dir : Path) (h : SegmentHost) (base : ℕ) (msgs : List Payload) :
    Prop where
  calm : h.world.Calm
  opened : ∃ i j c, OpenAs h.world.fs path dir i j h.segment c ∧ c.base = base ∧ c.msgs = msgs
  addressable : Addressable msgs

theorem CompleteLog.blank (now : ℤ) : CompleteLog (World.blank now) ⟨[], []⟩ [] 0 [] where
  calm := rfl
  atDir := ⟨by simp, rfl, rfl, rfl⟩
  logName h := by cases h
  indexName h := by cases h
  bytes := rfl
  sane := Index.Sane.empty
  fits := ⟨by simp, by simp [Chunk.next], by simp⟩

variable {h : SegmentHost} {base : ℕ} {msgs : List Payload}

theorem boot_intact {maxSize : ℤ} (hlog : CompleteLog w path dir base msgs)
    (haddr : Addressable msgs) :
    ∃ h, SegmentHost.boot path base maxSize w = (.ok (), h) ∧ Intact path dir h base msgs := by
  obtain ⟨s, w', i, j, hopen, ho, -, -⟩ := Segment.open_spec
    (c := ⟨base, msgs, [], (w.fs.contents (dir ++ [logName base]) w.now).mtime⟩) hlog.calm
    hlog.atDir hlog.logName hlog.indexName hlog.bytes rfl hlog.sane
    ⟨hlog.fits.payload, hlog.fits.next_lt, hlog.fits.room⟩ rfl
  have hfr := (Segment.open_frame (Frame.refl (fun _ => id)) (Segment.Confined.new
    (S := ownNames dir base) (I := FileSystem.Named (ownNames dir base) w.fs)
    (hlog.atDir.inside (plain_logName _) (Or.inl rfl))
    (hlog.atDir.inside (plain_indexName _) (Or.inr rfl)) maxSize)).1
  rw [hopen] at hfr
  refine ⟨⟨s, w'⟩, ?_, hfr.calm hlog.calm, ⟨i, j, _, ho, rfl, rfl⟩, haddr⟩
  rw [SegmentHost.boot, hopen]

/-- A failed write that leaves no bytes, or leaves them behind a full index. -/
theorem Intact.fail (hi : Intact path dir h base msgs) {a : Attempt}
    (hstep : ∀ i, (∃ num, h.segment.fd = .live num i) → ∃ e w' extra,
      h.segment.write a.payload { h.world with outcomes := a.outcomes } =
        (.error e, h.segment, w') ∧ FileSystem.Grown h.world.fs w'.fs i extra ∧
      (extra = [] ∨ h.segment.index.size ≤ h.segment.index.position)) :
    ∃ e h', SegmentHost.step h a = (.error e, h') ∧ h'.segment = h.segment ∧
      Intact path dir h' base msgs := by
  obtain ⟨i, j, c, ho, hbase, hmsgs⟩ := hi.opened
  obtain ⟨e, w', extra, hwrite, hg, hextra⟩ := hstep i ho.fd
  have hpos := ho.holds.position
  have hsize := ho.holds.size
  have hroom := ho.fits.room
  rw [length_startsFrom] at hpos
  refine ⟨e, ⟨h.segment, { w' with outcomes := [] }⟩, ?_, rfl, rfl, ⟨i, j, _, ho.grown hg ?_, hbase,
    hmsgs⟩, hi.addressable⟩
  · rw [SegmentHost.step, hwrite]
  · exact hextra.imp_right (fun hfull => by omega)

theorem Intact.step (hi : Intact path dir h base msgs) {a : Attempt} (hwhole : Whole h a)
    (hnext : base + msgs.length + 1 < 2 ^ 63) :
    (∃ h', SegmentHost.step h a = (.ok ((base + msgs.length : ℕ) : ℤ), h') ∧
      Intact path dir h' base (msgs ++ [a.payload])) ∨
    ∃ e h', SegmentHost.step h a = (.error e, h') ∧ h'.segment = h.segment ∧
      Intact path dir h' base msgs := by
  by_cases hfull : h.segment.index.size ≤ h.segment.index.position
  · right
    refine hi.fail (fun i hfd => ?_)
    obtain ⟨e, w', extra, hwrite, hg⟩ := Segment.writeBuffer_no_room
      (w := { h.world with outcomes := a.outcomes }) hfd a.payload (toInt32 a.payload.length) hfull
    exact ⟨e, w', extra, hwrite, hg, Or.inr hfull⟩
  · rcases hwhole with hwhole | hrefused | ⟨hheader, hpay, hm, hpos⟩
    · exact absurd hwhole hfull
    · right
      refine hi.fail (fun i hfd => ?_)
      obtain ⟨e, w', hwrite, hg⟩ := Segment.writeBuffer_refused
        (w := { h.world with outcomes := a.outcomes }) hfd a.payload (toInt32 a.payload.length)
        hrefused
      exact ⟨e, w', [], hwrite, hg, Or.inl rfl⟩
    · left
      obtain ⟨i, j, c, ho, rfl, rfl⟩ := hi.opened
      have hp := ho.holds.position
      have hsize := ho.holds.size
      rw [length_startsFrom] at hp
      obtain ⟨s', w', hwrite, ho', -, -⟩ := Segment.write_ok hi.calm ho (by omega) hm hnext
      have hlands := Segment.writeBuffer_lands hi.calm ho.fd
        (Index.toInt32_of_range (by omega) (by exact_mod_cast hm)) hheader hpay
      rw [Segment.write] at hwrite
      rw [hwrite] at hlands
      refine ⟨⟨s', { w' with outcomes := [] }⟩, ?_, rfl, ⟨i, j, _, ho', rfl, rfl⟩, ?_⟩
      · rw [SegmentHost.step, Segment.write, hlands]
        rfl
      · rw [ho.position] at hpos
        exact hi.addressable.append (by exact_mod_cast hpos) _

theorem Intact.read (hi : Intact path dir h base msgs) {k : ℕ} {m : Payload}
    (hk : msgs[k]? = some m) : h.readAt k = (.ok (), m) := by
  obtain ⟨i, j, c, ho, rfl, rfl⟩ := hi.opened
  have hlt := (List.getElem?_eq_some_iff.mp hk).1
  rw [SegmentHost.readAt, Segment.readAt_ok hi.calm ho hk (hi.addressable k hlt)]

theorem Intact.unread (hi : Intact path dir h base msgs) :
    (h.readAt (h.segment.nextOffset - h.segment.baseOffset)).1 ≠ .ok () := by
  obtain ⟨i, j, c, ho, rfl, rfl⟩ := hi.opened
  have hnext : h.segment.nextOffset - h.segment.baseOffset = c.msgs.length := by
    rw [ho.nextOffset, Segment.baseOffset, ho.baseOffset, Chunk.next]
    push_cast
    ring
  obtain ⟨e, he⟩ := Segment.readAt_error (w := h.world) ho (Or.inr le_rfl)
  rw [hnext, SegmentHost.readAt, he]
  simp

theorem Intact.baseOffset (hi : Intact path dir h base msgs) : h.segment.baseOffset = base := by
  obtain ⟨i, j, c, ho, rfl, -⟩ := hi.opened
  exact ho.baseOffset

/-- Every acknowledged message is among the stored ones, at its offset. -/
theorem Intact.run {as : List Attempt} : ∀ {h : SegmentHost} {msgs : List Payload},
    Intact path dir h base msgs → Runs.Always SegmentHost.step Whole h as →
    base + msgs.length + as.length < 2 ^ 63 →
    ∃ ext, Intact path dir (h.final as) base (msgs ++ ext) ∧ ext.length ≤ as.length ∧
      ∀ a n, (a, Except.ok n) ∈ Runs.trace SegmentHost.step h as →
        ∃ k : ℕ, n = (base + k : ℕ) ∧ (msgs ++ ext)[k]? = some a.payload := by
  induction as with
  | nil =>
      intro h msgs hi _ _
      exact ⟨[], by simpa [SegmentHost.final, Runs.final] using hi, by simp, by simp [Runs.trace]⟩
  | cons a as ih =>
      intro h msgs hi halways hcount
      rw [List.length_cons] at hcount
      have hrest := halways.2
      rcases hi.step halways.1 (by omega) with ⟨h', hstep, hi'⟩ | ⟨e, h', hstep, -, hi'⟩
      · rw [hstep] at hrest
        obtain ⟨ext, hi'', hlen, hacks⟩ := ih hi' hrest (by
          rw [List.length_append, List.length_singleton]
          omega)
        rw [List.append_assoc] at hi'' hacks
        refine ⟨[a.payload] ++ ext, ?_, ?_, ?_⟩
        · rwa [SegmentHost.final, Runs.final, hstep]
        · rw [List.length_append, List.length_singleton, List.length_cons]
          omega
        · intro a' n hmem
          rw [Runs.trace, hstep] at hmem
          rcases List.mem_cons.mp hmem with heq | hmem
          · simp only [Prod.mk.injEq, Except.ok.injEq] at heq
            obtain ⟨rfl, rfl⟩ := heq
            exact ⟨msgs.length, rfl, by simp⟩
          · exact hacks a' n hmem
      · rw [hstep] at hrest
        obtain ⟨ext, hi'', hlen, hacks⟩ := ih hi' hrest (by omega)
        refine ⟨ext, ?_, hlen.trans (Nat.le_succ _), ?_⟩
        · rwa [SegmentHost.final, Runs.final, hstep]
        · intro a' n hmem
          rw [Runs.trace, hstep] at hmem
          rcases List.mem_cons.mp hmem with heq | hmem
          · simp at heq
          · exact hacks a' n hmem

/-- Writes of a run are atomic: what was stored before and what is acknowledged is read back at the
end, and no offset is whose write just failed. -/
structure Atomic (h : SegmentHost) (msgs : List Payload) (as : List Attempt) : Prop where
  kept : ∀ (k : ℕ) (m : Payload), msgs[k]? = some m → (h.final as).readAt k = (.ok (), m)
  acknowledged : ∀ a n, (a, Except.ok n) ∈ Runs.trace SegmentHost.step h as →
    (h.final as).readAt (n - (h.final as).segment.baseOffset) = (.ok (), a.payload)
  failed : ∀ as₁ a as₂ e, as = as₁ ++ a :: as₂ → (SegmentHost.step (h.final as₁) a).1 = .error e →
    ((SegmentHost.step (h.final as₁) a).2.readAt
      ((h.final as₁).segment.nextOffset - (h.final as₁).segment.baseOffset)).1 ≠ .ok ()

/-- When every write of a run leaves no byte or a whole record that can be addressed, or finds the
index full, failed writes do no harm. -/
theorem failed_append_atomic {maxSize : ℤ} {as : List Attempt}
    (hlog : CompleteLog w path dir base msgs) (haddr : Addressable msgs)
    (hcount : base + msgs.length + as.length < 2 ^ 63)
    (hwhole : Runs.Always SegmentHost.step Whole (SegmentHost.boot path base maxSize w).2 as) :
    (SegmentHost.boot path base maxSize w).1 = .ok () ∧
      Atomic (SegmentHost.boot path base maxSize w).2 msgs as := by
  obtain ⟨h, hboot, hi⟩ := boot_intact hlog haddr
  rw [hboot] at hwhole ⊢
  dsimp only at hwhole ⊢
  obtain ⟨ext, hi', -, hacks⟩ := hi.run hwhole hcount
  refine ⟨rfl, ?_, ?_, ?_⟩
  · intro k m hk
    refine hi'.read ?_
    rw [List.getElem?_append_left (List.getElem?_eq_some_iff.mp hk).1, hk]
  · intro a n hmem
    obtain ⟨k, rfl, hk⟩ := hacks a n hmem
    rw [hi'.baseOffset, show ((base + k : ℕ) : ℤ) - base = k by push_cast; ring]
    exact hi'.read hk
  · rintro as₁ a as₂ e rfl herr
    rw [Runs.always_append] at hwhole
    rw [List.length_append, List.length_cons] at hcount
    obtain ⟨ext₁, hi₁, hlen, -⟩ := hi.run hwhole.1 (by omega)
    rcases hi₁.step hwhole.2.1 (by rw [List.length_append]; omega) with
      ⟨h', hstep, -⟩ | ⟨e', h', hstep, hsame, hi'⟩
    · rw [hstep] at herr
      cases herr
    · rw [hstep]
      exact hsame ▸ hi'.unread

theorem failed_append_atomic_refused :
    Atomic (SegmentHost.boot ⟨[], []⟩ (0 : ℕ) 1024 (World.blank 0)).2 []
      [⟨[7], [.fail]⟩, ⟨[1, 2, 3], []⟩, ⟨[4], [.ok, .short 1]⟩] := by
  refine (failed_append_atomic (CompleteLog.blank 0) Addressable.nil (by decide) ?_).2
  exact ⟨by decide +kernel, by decide +kernel, by decide +kernel, trivial⟩

/-- Five bytes of a header that stay in the log shift the record behind them. -/
theorem cut_header_shifts :
    ¬ Atomic (SegmentHost.boot ⟨[], []⟩ 0 1024 (World.blank 0)).2 []
      [⟨[7], [.short 5]⟩, ⟨[1, 2, 3], []⟩] := by
  intro ha
  have hread := ha.acknowledged ⟨[1, 2, 3], []⟩ 0
    (List.mem_cons_of_mem _ (List.mem_cons.mpr (Or.inl rfl)))
  exact absurd (congrArg Prod.snd hread) (by decide +kernel)

end MyKafka
