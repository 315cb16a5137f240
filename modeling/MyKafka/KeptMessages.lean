import MyKafka.FailingCalls
import MyKafka.FindEntry
import MyKafka.SegmentFailure

/-!
# What calls that fail leave readable

A failed append may leave bytes behind the records of a segment, and the records that follow may be
lost to its index. What was there before stays where it was, so a partition that is open goes on
reading it, whatever calls fail.
-/

namespace MyKafka

open Posix LittleEndian Log

variable {w w' : World} {fs fs' : FileSystem} {path : RawPath} {dir : Path} {i j : ℕ} {s s' : Segment}
  {c : Chunk} {es : List ℤ}

/-! ## Segments -/

/-- The segment holds the messages of the chunk, and the entries `es` of what came after them. -/
structure Segment.Keeps (fs : FileSystem) (path : RawPath) (dir : Path) (i j : ℕ) (c : Chunk)
    (es : List ℤ) (s : Segment) : Prop where
  log : fs.node? (dir ++ [logName c.base]) = some (.file i)
  index : fs.node? (dir ++ [indexName c.base]) = some (.file j)
  bytes : encode c.base c.msgs <+: (fs.data i).image.toList
  fits : c.Fits
  addressable : Addressable c.msgs
  fd : ∃ num, s.fd = .live num i
  fdRead : ∃ num, s.fdRead = .live num i
  filename : s.filename = getLogFilename path c.base
  indexFilename : s.index.filename = getIndexFilename path c.base
  baseOffset : s.index.baseOffset = c.base
  holds : s.index.Holds fs j (startsFrom 0 c.msgs ++ es)
  nextOffset : s.nextOffset = c.base + (c.msgs.length + es.length : ℕ)

theorem OpenAs.keeps (h : OpenAs fs path dir i j s c) (ha : Addressable c.msgs) :
    s.Keeps fs path dir i j c [] where
  log := h.log
  index := h.index
  bytes := by
    rw [h.bytes]
    exact List.prefix_append _ _
  fits := h.fits
  addressable := ha
  fd := h.fd
  fdRead := h.fdRead
  filename := h.filename
  indexFilename := h.indexFilename
  baseOffset := h.baseOffset
  holds := by
    rw [List.append_nil]
    exact h.holds
  nextOffset := by
    rw [h.nextOffset, Chunk.next, List.length_nil]
    push_cast
    rfl

namespace Segment.Keeps

theorem congr (h : s.Keeps fs path dir i j c es)
    (hnode : ∀ q, ownNames dir c.base q → fs'.node? q = fs.node? q)
    (hbytes : (fs.data i).image.toList <+: (fs'.data i).image.toList)
    (hindex : fs'.data j = fs.data j) : s.Keeps fs' path dir i j c es :=
  { h with
    log := (hnode _ (Or.inl rfl)).trans h.log
    index := (hnode _ (Or.inr rfl)).trans h.index
    bytes := h.bytes.trans hbytes
    holds := h.holds.congr hindex }

theorem spared {K : Path → Prop} (h : s.Keeps w.fs path dir i j c es) (hfr : Sparing K w w')
    (hK : ∀ q, ownNames dir c.base q → K q) : s.Keeps w'.fs path dir i j c es := by
  have hdata : ∀ {k q}, ownNames dir c.base q → w.fs.node? q = some (.file k) →
      w'.fs.data k = w.fs.data k := by
    intro k q hq hk
    refine hfr.within.data k ?_
    rintro (hnew | hno)
    · exact absurd (FileSystem.node?_lt hk) (Nat.not_lt.mpr hnew)
    · exact hno ⟨q, hK q hq, hk⟩
  refine h.congr (fun q hq => hfr.within.node q (not_not.mpr (hK q hq))) ?_
    (hdata (Or.inr rfl) h.index)
  rw [hdata (Or.inl rfl) h.log]

theorem ne (h : s.Keeps fs path dir i j c es) : i ≠ j := by
  rintro rfl
  have hp := FileSystem.node?_inj h.log h.index
  exact logName_ne_indexName _ _ (by simpa using hp)

theorem grown {extra : List UInt8} (h : s.Keeps fs path dir i j c es)
    (hg : FileSystem.Grown fs fs' i extra) : s.Keeps fs' path dir i j c es := by
  refine h.congr (fun q _ => hg.node q) ?_ (hg.other j h.ne.symm)
  rw [hg.log]
  exact List.prefix_append _ _

/-- An append keeps what the segment held, whatever becomes of the record. -/
theorem write {m : Payload} {size : ℤ} {res : Result ℤ} (h : s.Keeps w.fs path dir i j c es)
    (hroom : s.nextOffset + 1 < 2 ^ 63) (hw : s.writeBuffer m size w = (res, s', w')) : ∃ es', s'.Keeps w'.fs path dir i j c es' := by
  obtain ⟨num, hfd⟩ := h.fd
  obtain ⟨extra, hg⟩ := World.append_grows w num i (toLE offsetSize s.nextOffset ++ toLE sizeSize size)
  rw [← hfd] at hg
  rw [writeBuffer] at hw
  dsimp only at hw
  generalize w.append s.fd (toLE offsetSize s.nextOffset ++ toLE sizeSize size) = out at hw hg
  obtain ⟨n, w₁⟩ := out
  have h₁ := h.grown hg
  obtain ⟨more, hg'⟩ := appendPayload_grows w₁ num i m size
  rw [← hfd] at hg'
  dsimp only at hw h₁
  generalize appendPayload w₁ s.fd m size = out at hw hg'
  obtain ⟨n', w₂⟩ := out
  have h₂ := h₁.grown hg'
  dsimp only at hw h₂
  split_ifs at hw
  · cases hw
    exact ⟨es, h₁⟩
  · cases hw
    exact ⟨es, h₂⟩
  · rcases h₂.holds.room.lt_or_eq with hfree | hfull
    · have hnext : s.nextOffset = s.index.baseOffset + (startsFrom 0 c.msgs ++ es).length := by
        rw [h.nextOffset, h.baseOffset, List.length_append, length_startsFrom]
      obtain ⟨d, hx, hholds⟩ := Index.write_room h₂.holds hfree s.position
      rw [hnext, hx] at hw
      cases hw
      have hlog : (w₂.fs.setData j d).data i = w₂.fs.data i := FileSystem.data_setData_ne _ _ h.ne
      refine ⟨es ++ [s.position], h₂.log, h₂.index, ?_, h₂.fits, h₂.addressable, h₂.fd, h₂.fdRead,
        h₂.filename, h₂.indexFilename, h₂.baseOffset, ?_, ?_⟩
      · rw [hlog]
        exact h₂.bytes
      · rw [← List.append_assoc]
        exact hholds
      · rw [h.nextOffset] at hroom
        dsimp only
        rw [h.baseOffset, List.length_append, List.length_append, length_startsFrom,
          List.length_singleton, toInt64_of_range (by omega) (by push_cast at hroom ⊢; omega)]
        push_cast
        ring
    · obtain ⟨e, he⟩ := Index.write_full h₂.holds hfull s.nextOffset s.position
      rw [he] at hw
      cases hw
      exact ⟨es, h₂⟩

theorem contiguous (h : s.Keeps w.fs path dir i j c es) :
    Contiguous w s (c.msgs.length + es.length)
      (fun k => toInt32 ((startsFrom 0 c.msgs ++ es).getD k 0)) where
  next := by
    rw [h.nextOffset, h.baseOffset]
    omega
  size := h.holds.size
  room := by
    have hroom := h.holds.room
    rwa [List.length_append, length_startsFrom] at hroom
  offset k hk := by
    have hlt : k < (startsFrom 0 c.msgs ++ es).length := by
      rwa [List.length_append, length_startsFrom]
    have hin := h.holds.slot_le (List.getElem?_eq_getElem hlt)
    rw [h.holds.addr, show (8 * k : ℤ) = ((8 * k : ℕ) : ℤ) by push_cast; rfl,
      World.load_mapped (by omega) (by norm_num)]
    exact congrArg some (h.holds.entry k _ (List.getElem?_eq_getElem hlt)).1
  position k hk := by
    have hlt : k < (startsFrom 0 c.msgs ++ es).length := by
      rwa [List.length_append, length_startsFrom]
    have hin := h.holds.slot_le (List.getElem?_eq_getElem hlt)
    rw [h.holds.addr, List.getD_eq_getElem _ _ hlt,
      show (8 * k + 4 : ℤ) = ((8 * k + 4 : ℕ) : ℤ) by push_cast; rfl,
      World.load_mapped (by omega) (by norm_num)]
    exact congrArg some (h.holds.entry k _ (List.getElem?_eq_getElem hlt)).2

theorem readAt (hw : w.Calm) (h : s.Keeps w.fs path dir i j c es) {k : ℕ} {m : Payload}
    (hk : c.msgs[k]? = some m) : s.readAt k w = (.ok (), m, w) := by
  have hlt : k < c.msgs.length := (List.getElem?_eq_some_iff.mp hk).1
  have hm : m.length < 2 ^ 31 := h.fits.payload m (List.mem_of_getElem? hk)
  have hoff : (c.base : ℤ) + k < 2 ^ 63 := by
    have hnext := h.fits.next_lt
    unfold Chunk.next at hnext
    omega
  have hpos : toInt32 ((startsFrom 0 c.msgs ++ es).getD k 0) = (logSize (c.msgs.take k) : ℤ) := by
    rw [List.getD_eq_getElem?_getD, List.getElem?_append_left (by rwa [length_startsFrom]),
      startsFrom_getElem? 0 hlt, zero_add, Option.getD_some]
    exact Index.toInt32_of_range (by omega) (by exact_mod_cast h.addressable k hlt)
  obtain ⟨p, hfind⟩ := (findEntry_direct h.contiguous k).1 (-1)
  rw [if_pos ⟨by omega, by push_cast; omega⟩, Int.toNat_natCast, hpos] at hfind
  have hrec : RecordAt (w.fs.data i).image.toList (logSize (c.msgs.take k)) m := by
    obtain ⟨rest, hbytes⟩ := h.bytes
    have hat := recordAt_header (encode c.base (c.msgs.take k))
      (m ++ (encode (c.base + k + 1) (c.msgs.drop (k + 1)) ++ rest)) (c.base + k) m.length m
      (by omega) hoff (by omega) (by omega)
    rw [length_encode] at hat
    rw [← hbytes, encode_at c.base hk, record]
    simp only [List.append_assoc]
    exact hat.mpr ⟨by omega, rfl, List.prefix_append _ _⟩
  exact readAt_found hw h.fdRead hfind (by omega) hrec

theorem confined (h : s.Keeps fs path dir i j c es) (hp : FileSystem.At fs' path dir) :
    s.Confined (ownNames dir c.base) (FileSystem.Named (ownNames dir c.base) fs) fs := by
  have hi : FileSystem.Named (ownNames dir c.base) fs i := ⟨_, Or.inl rfl, h.log⟩
  have hj : FileSystem.Named (ownNames dir c.base) fs j := ⟨_, Or.inr rfl, h.index⟩
  obtain ⟨n₁, h₁⟩ := h.fd
  obtain ⟨n₂, h₂⟩ := h.fdRead
  obtain ⟨n₃, h₃⟩ := h.holds.fd
  refine ⟨?_, ?_, ?_, ?_, ?_, ?_⟩
  · rw [h.filename]
    exact hp.inside (plain_logName _) (Or.inl rfl)
  · rw [h₁]
    exact Or.inr hi
  · rw [h₂]
    exact Or.inr hi
  · rw [h.indexFilename]
    exact hp.inside (plain_indexName _) (Or.inr rfl)
  · rw [h₃]
    exact Or.inr hj
  · rw [h.holds.addr]
    exact Or.inr hj

theorem uses (h : s.Keeps fs path dir i j c es) {k : ℕ} (hk : s.Uses k) :
    ∃ q, ownNames dir c.base q ∧ fs.node? q = some (.file k) := by
  obtain ⟨n₁, h₁⟩ := h.fd
  obtain ⟨n₂, h₂⟩ := h.fdRead
  obtain ⟨n₃, h₃⟩ := h.holds.fd
  have h₄ := h.holds.addr
  have hij : k = i ∨ k = j := by
    rcases hk with ⟨n, hn⟩ | ⟨n, hn⟩ | ⟨n, hn⟩ | hn
    · rw [h₁] at hn
      exact Or.inl (Desc.live.inj hn).2.symm
    · rw [h₂] at hn
      exact Or.inl (Desc.live.inj hn).2.symm
    · rw [h₃] at hn
      exact Or.inr (Desc.live.inj hn).2.symm
    · rw [h₄] at hn
      exact Or.inr (Addr.mapped.inj hn).symm
  rcases hij with rfl | rfl
  · exact ⟨_, Or.inl rfl, h.log⟩
  · exact ⟨_, Or.inr rfl, h.index⟩

/-- The segment is beside the files of other segments. -/
theorem beside {K : Path → Prop} {fs₀ : FileSystem} (h : s.Keeps fs path dir i j c es)
    (hat : FileSystem.At fs₀ path dir) (hK : ∀ q, ownNames dir c.base q → ¬ K q) :
    s.Beside K fs := by
  refine ⟨(h.confined hat).mono hK ?_, fun k hk => ?_⟩
  · rintro k ⟨q, hq, hk⟩ ⟨q', hq', hk'⟩
    exact hK q hq (FileSystem.node?_inj hk hk' ▸ hq')
  · obtain ⟨q, -, hk'⟩ := h.uses hk
    exact FileSystem.node?_lt hk'

end Segment.Keeps

/-! ## Segments in a row -/

/-- The files of the chunks. -/
def ChunkFiles (dir : Path) (cs : List Chunk) (q : Path) : Prop := ∃ c ∈ cs, ownNames dir c.base q

/-- The first segments of the list hold the messages of the chunks, and the other ones, from the
offset `n` on, are beside their files. -/
structure Guards (fs : FileSystem) (path : RawPath) (dir : Path) (n : ℕ) (cs : List Chunk)
    (olds news : List Segment) : Prop where
  bases : cs.Pairwise (fun c d => c.base < d.base)
  keeps : List.Forall₂ (fun s c => ∃ i j es, s.Keeps fs path dir i j c es) olds cs
  fresh : ∀ t ∈ news, (n : ℤ) ≤ t.baseOffset
  beside : ∀ t ∈ news, t.Beside (ChunkFiles dir cs) fs

namespace Guards

variable {n : ℕ} {cs : List Chunk} {olds news : List Segment}

theorem spared (h : Guards w.fs path dir n cs olds news) (hfr : Sparing (ChunkFiles dir cs) w w') :
    Guards w'.fs path dir n cs olds news := by
  refine ⟨h.bases, forall₂_imp_mem h.keeps ?_, h.fresh, fun t ht => (h.beside t ht).frame hfr⟩
  rintro s c hc ⟨i, j, es, hs⟩
  exact ⟨i, j, es, hs.spared hfr (fun q hq => ⟨c, hc, hq⟩)⟩

theorem concat (h : Guards fs path dir n cs olds news) (hn : (n : ℤ) ≤ s.baseOffset)
    (hs : s.Beside (ChunkFiles dir cs) fs) : Guards fs path dir n cs olds (news ++ [s]) := by
  refine ⟨h.bases, h.keeps, fun t ht => ?_, fun t ht => ?_⟩
  · rcases List.mem_append.mp ht with ht | ht
    · exact h.fresh t ht
    · exact List.mem_singleton.mp ht ▸ hn
  · rcases List.mem_append.mp ht with ht | ht
    · exact h.beside t ht
    · exact List.mem_singleton.mp ht ▸ hs

/-- An append to the last segment, whatever becomes of it. -/
theorem write {fs₀ : FileSystem} (hat : FileSystem.At fs₀ path dir) {older : List Segment}
    (h : Guards w.fs path dir n cs olds news) (hrow : older ++ [s] = olds ++ news) {m : Payload}
    {res : Result ℤ} (hroom : s.nextOffset + 1 < 2 ^ 63) (hw : s.write m w = (res, s', w')) :
    ∃ olds' news', older ++ [s'] = olds' ++ news' ∧ Guards w'.fs path dir n cs olds' news' := by
  have hbase : s'.baseOffset = s.baseOffset := by
    have hmake := (s.write_descs m w).toSameMake
    rw [hw] at hmake
    exact hmake.index.baseOffset
  rcases List.eq_nil_or_concat' news with rfl | ⟨news, t, rfl⟩
  · rw [List.append_nil] at hrow
    subst hrow
    have hne : cs ≠ [] := by
      rintro rfl
      have := h.keeps.length_eq
      simp at this
    obtain ⟨init, c, rfl⟩ : ∃ init c, cs = init ++ [c] :=
      ⟨_, _, (List.dropLast_append_getLast hne).symm⟩
    obtain ⟨hinit, i, j, es, hs⟩ := forall₂_concat.mp h.keeps
    have hother : ∀ d ∈ init, ∀ q, ownNames dir c.base q → ¬ ownNames dir d.base q := by
      intro d hd q hq hq'
      have hlt := (List.pairwise_append.mp h.bases).2.2 d hd c (List.mem_singleton_self c)
      exact absurd (ownNames_inj hq hq') hlt.ne'
    have hbeside : s.Beside (ChunkFiles dir init) w.fs := by
      refine hs.beside hat ?_
      rintro q hq ⟨d, hd, hq'⟩
      exact hother d hd q hq hq'
    have hfr := (hbeside.write m).1
    rw [hw] at hfr
    obtain ⟨es', hs'⟩ := hs.write hroom hw
    refine ⟨older ++ [s'], [], by rw [List.append_nil], h.bases, ?_, by simp, by simp⟩
    refine forall₂_concat.mpr ⟨forall₂_imp_mem hinit ?_, i, j, es', hs'⟩
    rintro t d hd ⟨i', j', es'', ht⟩
    exact ⟨i', j', es'', ht.spared hfr (fun q hq => ⟨d, hd, hq⟩)⟩
  · rw [← List.append_assoc] at hrow
    obtain ⟨rfl, hst⟩ := List.append_inj' hrow rfl
    obtain rfl : s = t := by simpa using hst
    have hmem : s ∈ news ++ [s] := List.mem_append_right _ (List.mem_singleton_self s)
    have hfr := (h.beside s hmem).write m
    rw [hw] at hfr
    have hrest : Guards w.fs path dir n cs olds news :=
      ⟨h.bases, h.keeps, fun t ht => h.fresh t (List.mem_append_left _ ht),
        fun t ht => h.beside t (List.mem_append_left _ ht)⟩
    exact ⟨olds, news ++ [s'], by rw [List.append_assoc],
      (hrest.spared hfr.1).concat (hbase ▸ h.fresh s hmem) hfr.2⟩

end Guards

/-! ## Partitions -/

namespace Partition

variable {n n' : ℕ} {cs : List Chunk} {p p' : Partition}

/-- A partition without retention whose first segments hold the messages of the chunks, all of them
before the offset `n`. -/
structure Guarded (dir : Path) (n : ℕ) (cs : List Chunk) (p : Partition) (w : World) : Prop where
  segmentTtl : p.segmentTtl = 0
  maxPartitionSize : p.maxPartitionSize = 0
  atDir : ∃ fs, FileSystem.At fs p.path dir
  sorted : p.segments.Pairwise (fun s t => s.baseOffset < t.baseOffset)
  base_nonneg : ∀ s ∈ p.segments, 0 ≤ s.baseOffset
  reached : ∀ s, p.activeSegment = some s → (n : ℤ) ≤ s.nextOffset ∧
    (s.baseOffset < s.nextOffset ∨ s.baseOffset = s.nextOffset ∧ s.position = 0)
  guards : ∃ olds news, p.segments = olds ++ news ∧ Guards w.fs p.path dir n cs olds news

namespace Guarded

theorem spared (h : p.Guarded dir n cs w) (hfr : Sparing (ChunkFiles dir cs) w w') :
    p.Guarded dir n cs w' := by
  obtain ⟨olds, news, hsegs, hg⟩ := h.guards
  exact { h with guards := ⟨olds, news, hsegs, hg.spared hfr⟩ }

theorem of_fs (h : p.Guarded dir n cs w) (hfs : w'.fs = w.fs) : p.Guarded dir n cs w' := by
  refine { h with guards := ?_ }
  rw [hfs]
  exact h.guards

theorem base_le (h : p.Guarded dir n cs w) (hs : p.activeSegment = some s) {t : Segment}
    (ht : t ∈ p.segments) : t.baseOffset ≤ s.baseOffset := by
  have hsorted := h.sorted
  rw [segments_eq hs] at hsorted ht
  rcases List.mem_append.mp ht with ht | ht
  · exact ((List.pairwise_append.mp hsorted).2.2 t ht s (List.mem_singleton_self s)).le
  · rw [List.mem_singleton.mp ht]

/-- The names of the next segment are none of the chunks'. -/
theorem unused (h : p.Guarded dir n cs w) (hs : p.activeSegment = some s)
    (hlt : s.baseOffset < n') {q : Path} (hq : ownNames dir n' q) : ¬ ChunkFiles dir cs q := by
  rintro ⟨c, hc, hq'⟩
  obtain ⟨olds, news, hsegs, hg⟩ := h.guards
  obtain ⟨t, ht, i, j, es, hkeeps⟩ := forall₂_mem hg.keeps.flip hc
  have hle := h.base_le hs (t := t) (by rw [hsegs]; exact List.mem_append_left _ ht)
  rw [Segment.baseOffset, hkeeps.baseOffset] at hle
  have := ownNames_inj hq hq'
  omega

theorem roll (h : p.Guarded dir n cs w) (ha : p.AtOffset dir n' w) (hs : p.activeSegment = some s) :
    (p.roll s w).2.1.Guarded dir n cs (p.roll s w).2.2 := by
  obtain ⟨b, s', hc⟩ := ha
  obtain rfl : s' = s := Option.some.inj (hc.active.symm.trans hs)
  unfold Partition.roll
  split_ifs with hfull
  · have hlt : s'.baseOffset < n' := by
      rw [← hc.next]
      refine (h.reached s' hs).2.resolve_right ?_
      rintro ⟨-, hpos⟩
      have hmax := hc.maxSize_nonneg
      rw [Segment.isFull, hpos] at hfull
      omega
    obtain ⟨fs, hat⟩ := h.atDir
    have hopened := Segment.Beside.opened (K := ChunkFiles dir cs) w p.maxSegmentSize
      (hat.inside (plain_logName n') (h.unused hs hlt (Or.inl rfl)))
      (hat.inside (plain_indexName n') (h.unused hs hlt (Or.inr rfl)))
    have hmake := (Segment.new p.path n' p.maxSegmentSize).open_make w
    rw [← hc.next] at hopened hmake
    obtain ⟨hfr, hbeside⟩ := hopened
    split
    · next e t w₁ he =>
        rw [he] at hfr hbeside
        exact (h.spared hfr).spared hbeside.destroy
    · next t w₁ he =>
        have hrolled := hc.rolled hfull he
        rw [he] at hfr hbeside hmake
        dsimp only
        rw [if_neg (by simp [h.segmentTtl, h.maxPartitionSize])]
        have hbase : t.baseOffset = s'.nextOffset := hmake.index.baseOffset
        have hreached := (h.reached s' hs).1
        have hsegs : { p with older := p.older ++ [s'], activeSegment := some t }.segments =
            p.segments ++ [t] := by
          rw [segments_eq (s := t) rfl, segments_eq hs]
        obtain ⟨olds, news, hrow, hg⟩ := h.guards
        refine ⟨h.segmentTtl, h.maxPartitionSize, h.atDir, ?_, ?_, ?_, olds, news ++ [t], ?_, ?_⟩
        · rw [hsegs]
          refine List.pairwise_append.mpr ⟨h.sorted, List.pairwise_singleton _ _, ?_⟩
          intro u hu v hv
          have hle := h.base_le hs hu
          rw [List.mem_singleton.mp hv, hbase, hc.next]
          omega
        · rw [hsegs]
          intro u hu
          rcases List.mem_append.mp hu with hu | hu
          · exact h.base_nonneg u hu
          · rw [List.mem_singleton.mp hu, hbase, hc.next]
            omega
        · rintro u ⟨⟩
          refine ⟨?_, Or.inr ⟨?_, ?_⟩⟩
          · rw [hrolled.next, ← hc.next]
            exact hreached
          · rw [hbase, hrolled.next, hc.next]
          · exact (hrolled.bound.resolve_left (by omega)).2
        · rw [hsegs, hrow, List.append_assoc]
        · exact (hg.spared hfr).concat (hbase ▸ hreached) hbeside
  · exact h

theorem active_write (h : p.Guarded dir n cs w) (hs : p.activeSegment = some s) {m : Payload}
    {res : Result ℤ} (hroom : s.nextOffset + 1 < 2 ^ 63) (hw : s.write m w = (res, s', w'))
    (hcount : s.Counted res s')
    (hbase : s'.baseOffset = s.baseOffset) (size : ℤ) :
    { p with activeSegment := some s', physicalSize := size }.Guarded dir n cs w' := by
  obtain ⟨fs, hat⟩ := h.atDir
  obtain ⟨olds, news, hrow, hg⟩ := h.guards
  rw [segments_eq hs] at hrow
  obtain ⟨olds', news', hrow', hg'⟩ := hg.write hat hrow hroom hw
  have hsegs : { p with activeSegment := some s', physicalSize := size }.segments =
      p.older ++ [s'] := segments_eq rfl
  have hsorted := h.sorted
  rw [segments_eq hs, List.pairwise_append] at hsorted
  have hreached := h.reached s hs
  refine ⟨h.segmentTtl, h.maxPartitionSize, ⟨fs, hat⟩, ?_, ?_, ?_, olds', news', ?_, hg'⟩
  · rw [hsegs]
    refine List.pairwise_append.mpr ⟨hsorted.1, List.pairwise_singleton _ _, fun t ht u hu => ?_⟩
    rw [List.mem_singleton.mp hu, hbase]
    exact hsorted.2.2 t ht s (List.mem_singleton_self s)
  · rw [hsegs]
    intro t ht
    rcases List.mem_append.mp ht with ht | ht
    · exact h.base_nonneg t (List.mem_append_left _ ht)
    · rw [List.mem_singleton.mp ht, hbase]
      exact h.base_nonneg s (List.mem_append_right _ (Option.mem_toList.mpr hs))
  · rintro u ⟨⟩
    rw [hbase]
    rcases hcount with ⟨e, -, hnext, hpos⟩ | ⟨-, hnext⟩
    · rw [hnext, hpos]
      exact hreached
    · rw [hnext, toInt64_of_range (by omega) hroom]
      omega
  · rw [hsegs, hrow']

/-- A write that fails or not. -/
theorem write (h : p.Guarded dir n cs w) (ha : p.AtOffset dir n' w) (hroom : n' + 1 < 2 ^ 63)
    (m : Payload) :
    (p.write m w).2.1.Guarded dir n cs (p.write m w).2.2 := by
  obtain ⟨b₀, s₀, h₀⟩ := id ha
  have hroll := h.roll ha h₀.active
  have hcount := ha.roll h₀.active
  unfold Partition.write
  rw [if_neg (by simp [h₀.opened]), h₀.active]
  dsimp only
  split
  · next e p₁ w₁ he =>
      rw [he] at hroll
      exact hroll
  · next p₁ w₁ he =>
      rw [he] at hroll hcount
      obtain ⟨b, s, hc⟩ := hcount
      rw [hc.active]
      dsimp only
      have hmake := (s.write_descs m w₁).toSameMake
      rcases hwrite : s.write m w₁ with ⟨res, s', w'⟩
      rw [hwrite] at hmake
      have hkept := fun size => hroll.active_write hc.active (by rw [hc.next]; omega) hwrite
        (Segment.writeBuffer_counts hwrite) hmake.index.baseOffset size
      cases res with
      | error e => exact hkept p₁.physicalSize
      | ok offset => exact hkept _

theorem readAt {log : List Payload} (hw : w.Calm) (h : p.Guarded dir log.length cs w)
    (hopen : p.cancel = false) (hrep : Blocks.Represents Chunk.base Chunk.msgs cs log) {k : ℕ}
    {m : Payload} (hold : firstBase cs ≤ k) (hk : log[k]? = some m) :
    p.readAt k w = (.ok (), m, w) := by
  have hlt := (List.getElem?_eq_some_iff.mp hk).1
  obtain ⟨olds, news, hsegs, hg⟩ := h.guards
  have hf := findSegment_spec h.sorted h.base_nonneg k
  cases hfind : p.findSegment k with
  | none =>
      rw [hfind] at hf
      cases cs with
      | nil => exact absurd rfl hrep.ne_nil
      | cons c cs =>
          obtain ⟨s, hs, i, j, es, hkeeps⟩ := forall₂_mem hg.keeps.flip List.mem_cons_self
          have hafter := hf s (by rw [hsegs]; exact List.mem_append_left _ hs)
          have hle : c.base ≤ k := hold
          rw [Segment.baseOffset, hkeeps.baseOffset] at hafter
          omega
  | some s =>
      rw [hfind] at hf
      obtain ⟨x, hx, hle, hafter⟩ := hf
      rw [hsegs] at hx
      rcases Nat.lt_or_ge x olds.length with hin | hout
      · rw [List.getElem?_append_left hin] at hx
        obtain ⟨c, hc, i, j, es, hkeeps⟩ := forall₂_getElem? hg.keeps hx
        have hbase : s.baseOffset = c.base := hkeeps.baseOffset
        have hlast : Blocks.LastBefore Chunk.base cs (k : ℤ) c := by
          refine ⟨x, hc, by omega, ?_⟩
          intro l d hl hd
          have hlen := hg.keeps.length_eq
          have hll := (List.getElem?_eq_some_iff.mp hd).1
          have hold : olds[l]? = some (olds[l]) := List.getElem?_eq_getElem (by omega)
          obtain ⟨d', hd', i', j', es', hkeeps'⟩ := forall₂_getElem? hg.keeps hold
          rw [hd, Option.some.injEq] at hd'
          subst hd'
          have := hafter l olds[l] hl
            (by rw [hsegs, List.getElem?_append_left (by omega)]; exact hold)
          rwa [Segment.baseOffset, hkeeps'.baseOffset] at this
        have hin := (hlast.entry hrep).1 (by omega)
        obtain ⟨r, hr⟩ : ∃ r : ℕ, (k : ℤ) - c.base = r := ⟨_, (Int.toNat_of_nonneg (by omega)).symm⟩
        have hmsg : c.msgs[r]? = some m := by
          rw [← hrep.getElem? (List.mem_of_getElem? hc) (by omega), show c.base + r = k by omega, hk]
        unfold Partition.readAt
        rw [hopen, if_neg (by simp), hfind]
        dsimp only
        rw [hbase, hr]
        exact hkeeps.readAt hw hmsg
      · rw [List.getElem?_append_right hout] at hx
        have := hg.fresh s (List.mem_of_getElem? hx)
        omega

end Guarded

end Partition

/-! ## Runs -/

variable {n n' : ℕ} {cs cs' : List Chunk} {log : List Payload} {h h' : Host} {op : PartitionOp}

/-- What a run without retention starts from. -/
theorem Holding.guarded (hh : Holding dir h cs log) (httl : h.partition.segmentTtl = 0)
    (hmax : h.partition.maxPartitionSize = 0) : h.partition.Guarded dir log.length cs h.world := by
  obtain ⟨c, s, -, hs, hbase, hnext, -, hlast⟩ := hh.last
  refine ⟨httl, hmax, ⟨_, hh.rep.live.atDir⟩, hh.rep.sorted, hh.rep.baseOffset_nonneg, ?_,
    h.partition.segments, [], (List.append_nil _).symm,
    Blocks.pairwise_base hh.rep.live.represents.chain, ?_, by simp, by simp⟩
  · intro t ht
    obtain rfl : t = s := Option.some.inj (ht.symm.trans hs)
    refine ⟨hnext.ge, ?_⟩
    rw [hbase, hnext]
    exact_mod_cast hlast
  · refine forall₂_imp_mem hh.rep.live.stands ?_
    intro t d hd hst
    obtain ⟨i, j, ho⟩ := hst.opened
    exact ⟨i, j, [], ho.keeps (hh.addressable d hd)⟩

/-- Nothing is ever deleted. -/
structure Idle (h : Host) (cs : List Chunk) : Prop where
  segmentTtl : h.partition.segmentTtl = 0
  maxPartitionSize : h.partition.maxPartitionSize = 0
  first : Partition.firstBase cs = 0

theorem Idle.moved (hi : Idle h cs) (hh : Holding dir h cs log) (hm : Moved dir h log cs op h' cs') :
    Idle h' cs' := by
  obtain ⟨httl, hmax, hfirst⟩ := hi
  have hset := hm.settings
  refine ⟨(congrArg (fun x => x.2.2.2) hset).trans httl, (congrArg (fun x => x.2.2.1) hset).trans hmax, ?_⟩
  cases hm with
  | tick seconds => exact hfirst
  | readAt o => exact hfirst
  | write _ hwr _ => exact (hwr.firstBase_eq hh.rep httl hmax).trans hfirst
  | restart _ hre =>
      rw [hre.idle httl hmax, List.drop_zero]
      exact hfirst

theorem Host.step_guarded (hg : h.partition.Guarded dir n cs h.world)
    (ha : h.partition.AtOffset dir n' h.world) (hop : ∀ closing, op ≠ .restart closing)
    (hroom : n' + (writes [op]).length < 2 ^ 63) :
    (h.step op).2.partition.Guarded dir n cs (h.step op).2.world := by
  cases op with
  | tick seconds => exact hg.of_fs rfl
  | write m => exact hg.write ha hroom m
  | readAt o => exact hg.of_fs (Partition.fs_readAt _ _ _)
  | restart closing => exact absurd rfl (hop closing)

theorem Host.run_guarded {ops : List PartitionOp} (hops : ∀ closing, .restart closing ∉ ops) :
    ∀ {n' : ℕ} {h : Host}, h.partition.Guarded dir n cs h.world → h.partition.AtOffset dir n' h.world →
    n' + (writes ops).length < 2 ^ 63 → (h.final ops).partition.Guarded dir n cs (h.final ops).world := by
  induction ops with
  | nil => exact fun hg _ _ => hg
  | cons op ops ih =>
      intro n' h hg ha hroom
      rw [show writes (op :: ops) = writes [op] ++ writes ops from writes_append [op] ops,
        List.length_append] at hroom
      have hop : ∀ closing, op ≠ .restart closing :=
        fun closing he => hops closing (he ▸ List.mem_cons_self)
      obtain ⟨k, hk, -, ha'⟩ := h.step_atOffset ha hop (by omega)
      exact ih (fun closing hm => hops closing (List.mem_cons_of_mem _ hm))
        (Host.step_guarded hg ha hop (by omega)) ha' (by omega)

/-- Without retention, what was acknowledged before calls fail is read again when they are served
again, as long as the partition stays open. -/
theorem acknowledged_stay_readable {path : RawPath} {S : ℤ} {ops ops' : List PartitionOp}
    (hv : Vacant w path dir) (h0 : 0 ≤ S) (h1 : S < 2 ^ 31) (hpay : Payloads ops)
    (hcount : (writes ops).length + (writes ops').length < 2 ^ 63)
    (hack : Acknowledged ((Host.boot path S 0 0 w).2.trace ops))
    (hops : ∀ closing, .restart closing ∉ ops') (outcomes : List Outcome) {k : ℕ} {m : Payload}
    (hk : (writes ops)[k]? = some m) :
    let h := (Host.boot path S 0 0 w).2.final ops
    let h' : Host := Host.final { h with world := { h.world with outcomes := outcomes } } ops'
    (Host.step { h' with world := { h'.world with outcomes := [] } } (.readAt k)).1 =
      .read (.ok ()) m := by
  obtain ⟨h, hboot, hre⟩ : ∃ h, Host.boot path S 0 0 w = (.ok (), h) ∧ _ := Host.boot_spec hv
  have hsize : h.partition.maxSegmentSize = S := maxSegmentSize_eq hre.settings
  have hh : Holding dir h [emptyChunk 0 w.now] [] :=
    ⟨hre.calm, hre.rep, settled_empty _ _, Partition.addressable_empty _ _, hsize ▸ h0,
      hsize ▸ h1⟩
  have hidle : Idle h [emptyChunk 0 w.now] :=
    ⟨congrArg (fun x => x.2.2.2) hre.settings, congrArg (fun x => x.2.2.1) hre.settings, rfl⟩
  rw [hboot] at hack ⊢
  obtain ⟨cs, hh', hi⟩ := hh.run (I := fun h cs _ => Idle h cs)
    (fun hh hm _ _ _ hi => hi.moved hh hm) hpay (by simp only [List.length_nil]; omega) hack hidle
  set h₀ : Host := { h.final ops with world := { (h.final ops).world with outcomes := outcomes } }
  have ha : h₀.partition.AtOffset dir ([] ++ writes ops).length h₀.world := hh'.atOffset.of_fs rfl
  have hstart : h₀.partition.Guarded dir ([] ++ writes ops).length cs h₀.world :=
    (hh'.guarded hi.segmentTtl hi.maxPartitionSize).of_fs rfl
  have hroom : ([] ++ writes ops).length + (writes ops').length < 2 ^ 63 := hcount
  have hg := Host.run_guarded hops hstart ha hroom
  obtain ⟨k', -, b, s, hcounting⟩ := Host.run_atOffset hops ha hroom
  intro h₁ h₂
  have hcalm : World.Calm { h₂.world with outcomes := [] } := rfl
  have hg' : h₂.partition.Guarded dir ([] ++ writes ops).length cs
      { h₂.world with outcomes := [] } := hg.of_fs rfl
  have hread := hg'.readAt hcalm hcounting.opened
    hh'.rep.live.represents (by rw [hi.first]; exact Nat.zero_le k) hk
  show PartitionAnswer.read (h₂.partition.readAt k { h₂.world with outcomes := [] }).1
    (h₂.partition.readAt k { h₂.world with outcomes := [] }).2.1 = _
  rw [hread]

theorem acknowledged_stay_readable_short :
    let h := (Host.boot ⟨[], []⟩ 20 0 0 (World.blank 0)).2.final [.write [1], .write [2]]
    let h' : Host := Host.final { h with world := { h.world with
      outcomes := List.replicate 11 .ok ++ [.short 3, .fail] } }
      [.write [3], .write [4], .readAt 0, .write [5]]
    (Host.step { h' with world := { h'.world with outcomes := [] } } (.readAt (1 : ℕ))).1 =
      .read (.ok ()) [2] := by
  have hpay : Payloads [.write [1], .write [2]] := by simp [Payloads, writes]
  have hops : ∀ closing, PartitionOp.restart closing ∉
      [PartitionOp.write [3], .write [4], .readAt 0, .write [5]] := by simp
  have hcount : (writes [.write [1], .write [2]]).length +
      (writes [.write [3], .write [4], .readAt 0, .write [5]]).length < 2 ^ 63 := by decide
  have hk : (writes [.write [1], .write [2]])[1]? = some [2] := rfl
  have hread := acknowledged_stay_readable (Vacant.blank 0) (show (0 : ℤ) ≤ 20 by decide)
    (by decide) hpay hcount two_acknowledged hops (List.replicate 11 .ok ++ [.short 3, .fail]) hk
  dsimp only at hread ⊢
  exact hread

end MyKafka
