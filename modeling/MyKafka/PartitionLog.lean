import MyKafka.PartitionSpec

/-!
# Writing to, reading from and closing a partition

A write rolls to a new segment when the active one is over its size, and then fails only if the
index of the segment it writes to is full. A read finds the segment by binary search over the base
offsets.
-/

namespace MyKafka

open Posix LittleEndian

namespace Partition

variable {w : World} {dir : Path} {p : Partition} {cs : List Chunk} {c : Chunk}
  {log : List Payload} {m : Payload}

/-! ## Writing -/

theorem Rep.last (h : Rep w dir p (cs ++ [c]) log) :
    ∃ s, p.activeSegment = some s ∧
      Live w p.path dir p.maxSegmentSize (p.older ++ [s]) (cs ++ [c]) log ∧
      Stands w.fs p.path dir p.maxSegmentSize s c := by
  obtain ⟨s, hs⟩ := h.active
  have hlive := h.live
  rw [segments_eq hs] at hlive
  exact ⟨s, hs, hlive, (forall₂_concat.mp hlive.stands).2⟩

theorem isFull_iff {s : Segment} {maxSize : ℤ} {path : RawPath}
    (h : Stands w.fs path dir maxSize s c) : s.isFull ↔ maxSize < c.size := by
  obtain ⟨i, j, ho⟩ := h.opened
  rw [Segment.isFull, h.maxSize_eq, ho.position]

theorem write_append_aux {s s' : Segment} {w' : World} {res : Result ℤ} (hc : p.cancel = false)
    (hs : p.activeSegment = some s) (hfull : ¬ s.isFull) (hw : s.write m w = (res, s', w')) :
    ∃ size, p.write m w = (res, { p with activeSegment := some s', physicalSize := size }, w') := by
  unfold Partition.write roll
  rw [if_neg (by simp [hc]), hs]
  dsimp only
  rw [if_neg hfull]
  dsimp only
  rw [hs]
  dsimp only
  rw [hw]
  cases res with
  | error e => exact ⟨_, rfl⟩
  | ok offset => exact ⟨_, rfl⟩

/-- A write that does not roll, with room in the index. -/
theorem write_append (hw : w.Calm) (h : Rep w dir p (cs ++ [c]) log)
    (hsize : c.size ≤ p.maxSegmentSize) (hroom : c.msgs.length < 1310720)
    (hm : m.length < 2 ^ 31) (hlog : log.length + 1 < 2 ^ 63) :
    ∃ p' w', p.write m w = (.ok (log.length : ℤ), p', w') ∧
      Rep w' dir p' (cs ++ [c.push m w.now]) (log ++ [m]) ∧ p'.settings = p.settings ∧
      p'.segments.map Segment.mtime = p.segments.map Segment.mtime ∧ w'.Calm ∧ w'.now = w.now := by
  obtain ⟨s, hs, hlive, hst⟩ := h.last
  obtain ⟨s', w', hwrite, hlive', hmtime, hw', hnow⟩ := hlive.write_last hw hroom hm hlog
  obtain ⟨size, hpw⟩ := write_append_aux h.opened hs
    (fun hfull => absurd ((isFull_iff hst).mp hfull) (not_lt.mpr hsize)) hwrite
  refine ⟨_, w', hpw, ⟨h.opened, ⟨s', rfl⟩, ?_⟩, rfl, ?_, hw', hnow⟩
  · rw [segments_eq (p := { p with activeSegment := some s', physicalSize := size }) rfl]
    exact hlive'
  · rw [segments_eq (p := { p with activeSegment := some s', physicalSize := size }) rfl,
      segments_eq hs, List.map_append, List.map_append, List.map_singleton, List.map_singleton,
      hmtime]

/-- A write that does not roll although the index is full. -/
theorem write_wedged (hw : w.Calm) (h : Rep w dir p (cs ++ [c]) log)
    (hsize : c.size ≤ p.maxSegmentSize) (hfull : c.msgs.length = 1310720)
    (hm : m.length < 2 ^ 31) :
    ∃ e p' w' c', p.write m w = (.error e, p', w') ∧ Rep w' dir p' (cs ++ [c']) log ∧
      p'.settings = p.settings ∧ c'.base = c.base ∧ c'.msgs = c.msgs ∧ w'.Calm ∧
      w'.now = w.now := by
  obtain ⟨s, hs, hlive, hst⟩ := h.last
  obtain ⟨e, w', c', hwrite, hlive', hbase, hmsgs, hw', hnow⟩ :=
    hlive.write_last_full hw hfull hm
  obtain ⟨size, hpw⟩ := write_append_aux h.opened hs
    (fun hfull => absurd ((isFull_iff hst).mp hfull) (not_lt.mpr hsize)) hwrite
  refine ⟨e, _, w', c', hpw, ⟨h.opened, ⟨s, rfl⟩, ?_⟩, rfl, hbase, hmsgs, hw', hnow⟩
  rw [segments_eq (p := { p with activeSegment := some s, physicalSize := size }) rfl]
  exact hlive'

/-- What rolling opens behind the active segment, before retention goes over the others. -/
theorem roll_opens (hw : w.Calm) (h : Rep w dir p (cs ++ [c]) log) (hne : c.msgs ≠ [])
    (hjunk : c.junk = []) (hlog : log.length < 2 ^ 63) {s : Segment}
    (hs : p.activeSegment = some s) :
    ∃ t w', (Segment.new p.path s.nextOffset p.maxSegmentSize).open w = (.ok (), t, w') ∧
      Rep w' dir { p with older := p.older ++ [s], activeSegment := some t }
        (cs ++ [c] ++ [emptyChunk c.next w.now]) log ∧
      t.mtime = w.now ∧ w'.Calm ∧ w'.now = w.now := by
  obtain ⟨s', hs', hlive, hst⟩ := h.last
  obtain rfl : s = s' := by simpa [hs] using hs'
  obtain ⟨i, j, ho⟩ := hst.opened
  obtain ⟨t, w', hopen, hlive', hmtime, hw', hnow⟩ := hlive.roll_last hw hne hjunk hlog
  refine ⟨t, w', ?_, ⟨h.opened, ⟨t, rfl⟩, ?_⟩, hmtime, hw', hnow⟩
  · rw [ho.nextOffset, hopen]
  · rw [segments_eq (p := { p with older := p.older ++ [s], activeSegment := some t }) rfl]
    exact hlive'

/-- Rolling to an empty segment; retention may drop chunks before it. -/
theorem roll_spec (hw : w.Calm) (h : Rep w dir p (cs ++ [c]) log)
    (hsize : p.maxSegmentSize < c.size) (hne : c.msgs ≠ []) (hjunk : c.junk = [])
    (hlog : log.length < 2 ^ 63) {s : Segment} (hs : p.activeSegment = some s) :
    ∃ k p' w', p.roll s w = (.ok (), p', w') ∧ k ≤ (cs ++ [c]).length ∧
      Rep w' dir p' ((cs ++ [c]).drop k ++ [emptyChunk c.next w.now]) log ∧
      p'.settings = p.settings ∧
      p'.segments.map Segment.mtime = (p.segments.map Segment.mtime).drop k ++ [w.now] ∧
      (∀ t ∈ p.segments.take k, p.Expired w.now t) ∧ w'.Calm ∧ w'.now = w.now := by
  obtain ⟨s', hs', hlive, hst⟩ := h.last
  obtain rfl : s = s' := by simpa [hs] using hs'
  obtain ⟨t, w₁, hopen, hrep₁, hmtime, hw₁, hnow⟩ := roll_opens hw h hne hjunk hlog hs
  have hsegs := segments_eq hs
  let p₁ : Partition := { p with older := p.older ++ [s], activeSegment := some t }
  have hlen := hlive.stands.length_eq
  unfold roll
  rw [if_pos ((isFull_iff hst).mpr hsize), hopen]
  dsimp only
  split_ifs with hidle
  · obtain ⟨k, size, w', hclean, hrep, hk, hw', hnow', hexp, -⟩ := cleanOldSegments_spec hw₁ hrep₁
    have hk' : k ≤ (cs ++ [c]).length := by
      simp only [List.length_append, List.length_singleton] at hk ⊢
      omega
    rw [hclean]
    refine ⟨k, _, w', rfl, hk', ?_, rfl, ?_, ?_, hw', hnow'.trans hnow⟩
    · rw [← List.drop_append_of_le_length hk']
      exact hrep
    · rw [segments_eq (p := { p₁ with physicalSize := size, older := p₁.older.drop k }) rfl, hsegs,
        List.map_append, List.map_singleton, hmtime, List.map_drop]
    · intro u hu
      rw [hsegs] at hu
      have := hexp u hu
      rwa [hnow] at this
  · refine ⟨0, _, w₁, rfl, Nat.zero_le _, hrep₁, rfl, ?_, by simp, hw₁, hnow⟩
    rw [segments_eq (p := p₁) rfl, hsegs, List.map_append, List.map_singleton, hmtime,
      List.drop_zero]

/-- A write that rolls. -/
theorem write_roll (hw : w.Calm) (h : Rep w dir p (cs ++ [c]) log)
    (hsize : p.maxSegmentSize < c.size) (hne : c.msgs ≠ []) (hjunk : c.junk = [])
    (hm : m.length < 2 ^ 31) (hlog : log.length + 1 < 2 ^ 63) :
    ∃ k p' w', p.write m w = (.ok (log.length : ℤ), p', w') ∧ k ≤ (cs ++ [c]).length ∧
      Rep w' dir p' ((cs ++ [c]).drop k ++ [(emptyChunk c.next w.now).push m w.now]) (log ++ [m]) ∧
      p'.settings = p.settings ∧
      p'.segments.map Segment.mtime = (p.segments.map Segment.mtime).drop k ++ [w.now] ∧
      (∀ t ∈ p.segments.take k, p.Expired w.now t) ∧ w'.Calm ∧ w'.now = w.now := by
  obtain ⟨s, hs⟩ := h.active
  obtain ⟨k, p₁, w₁, hroll, hk, hrep₁, hset, hmtimes, hexp, hw₁, hnow₁⟩ :=
    roll_spec hw h hsize hne hjunk (by omega) hs
  obtain ⟨t, ht, hlive, hst⟩ := hrep₁.last
  obtain ⟨t', w', hwrite, hlive', hmtime, hw', hnow'⟩ := hlive.write_last hw₁
    (by simp [emptyChunk]) hm hlog
  rw [hnow₁] at hlive'
  refine ⟨k, { p₁ with
      activeSegment := some t'
      physicalSize := p₁.physicalSize + (m.length + Segment.headerSize) }, w', ?_, hk,
    ⟨hrep₁.opened, ⟨t', rfl⟩, ?_⟩, hset, ?_, hexp, hw', hnow'.trans hnow₁⟩
  · unfold Partition.write
    rw [h.opened, if_neg (by simp), hs]
    dsimp only
    rw [hroll]
    dsimp only
    rw [ht]
    dsimp only
    rw [hwrite]
  · rw [segments_eq (p := { p₁ with
      activeSegment := some t'
      physicalSize := p₁.physicalSize + (m.length + Segment.headerSize) }) rfl]
    exact hlive'
  · rw [segments_eq (p := { p₁ with
      activeSegment := some t'
      physicalSize := p₁.physicalSize + (m.length + Segment.headerSize) }) rfl, ← hmtimes,
      segments_eq ht, List.map_append, List.map_append, List.map_singleton, List.map_singleton,
      hmtime]

/-! ## Reading -/

/-- What a search over the base offsets finds: the last segment that starts at or before `o`. -/
def Finds (segs : List Segment) (o : ℤ) : Option Segment → Prop
  | none => ∀ t ∈ segs, o < t.baseOffset
  | some s => ∃ k : ℕ, segs[k]? = some s ∧ s.baseOffset ≤ o ∧
      ∀ (l : ℕ) t, k < l → segs[l]? = some t → o < t.baseOffset

/-- Segments before `first` start at or before `o`, those after `last` start after it, and `found`
is the one before `first`. -/
structure Bracket (segs : List Segment) (o first last : ℤ) (found : Option Segment) : Prop where
  first_nonneg : 0 ≤ first
  first_le : first ≤ last + 1
  last_lt : last < segs.length
  found_eq : found = if first = 0 then none else segs[(first - 1).toNat]?
  before : ∀ (l : ℕ) t, (l : ℤ) < first → segs[l]? = some t → t.baseOffset ≤ o
  after : ∀ (l : ℕ) t, last < l → segs[l]? = some t → o < t.baseOffset

theorem Bracket.empty {segs : List Segment} {o first last : ℤ} {found : Option Segment}
    (h : Bracket segs o first last found) (hlt : last < first) : Finds segs o found := by
  obtain ⟨h0, hle, hlast, rfl, hbefore, hafter⟩ := h
  split_ifs with hfirst
  · intro t ht
    obtain ⟨l, hl⟩ := List.getElem?_of_mem ht
    exact hafter l t (by omega) hl
  · have hlen : (first - 1).toNat < segs.length := by omega
    have hget := List.getElem?_eq_getElem hlen
    rw [hget]
    refine ⟨_, hget, hbefore _ _ (by omega) hget, ?_⟩
    intro l t hl ht
    exact hafter l t (by omega) ht

theorem Bracket.left {segs : List Segment} {o first last : ℤ} {found : Option Segment} {k : ℕ}
    {s : Segment} (h : Bracket segs o first last found)
    (hsorted : segs.Pairwise (fun s t => s.baseOffset < t.baseOffset)) (hk : segs[k]? = some s)
    (hlo : first ≤ k) (hhi : k ≤ last) (hs : o < s.baseOffset) :
    Bracket segs o first (k - 1) found := by
  have hlast := h.last_lt
  refine ⟨h.first_nonneg, by omega, by omega, h.found_eq, h.before, ?_⟩
  intro l t hl ht
  rcases eq_or_ne l k with rfl | hne
  · rw [hk, Option.some.injEq] at ht
    rwa [← ht]
  · obtain ⟨hll, rfl⟩ := List.getElem?_eq_some_iff.mp ht
    obtain ⟨hkl, rfl⟩ := List.getElem?_eq_some_iff.mp hk
    have := List.pairwise_iff_getElem.mp hsorted k l hkl hll (by omega)
    omega

theorem Bracket.right {segs : List Segment} {o first last : ℤ} {found : Option Segment} {k : ℕ}
    {s : Segment} (h : Bracket segs o first last found)
    (hsorted : segs.Pairwise (fun s t => s.baseOffset < t.baseOffset)) (hk : segs[k]? = some s)
    (hlo : first ≤ k) (hhi : k ≤ last) (hs : s.baseOffset ≤ o) :
    Bracket segs o (k + 1) last (some s) := by
  have h0 := h.first_nonneg
  refine ⟨by omega, by omega, h.last_lt, ?_, ?_, h.after⟩
  · rw [if_neg (by omega), show ((k : ℤ) + 1 - 1).toNat = k by omega, hk]
  · intro l t hl ht
    rcases eq_or_ne l k with rfl | hne
    · rw [hk, Option.some.injEq] at ht
      rwa [← ht]
    · obtain ⟨hll, rfl⟩ := List.getElem?_eq_some_iff.mp ht
      obtain ⟨hkl, rfl⟩ := List.getElem?_eq_some_iff.mp hk
      have := List.pairwise_iff_getElem.mp hsorted l k hll hkl (by omega)
      omega

theorem findSegmentLoop_spec {segs : List Segment} {o : ℤ}
    (hsorted : segs.Pairwise (fun s t => s.baseOffset < t.baseOffset)) (fuel : ℕ) :
    ∀ {first last foundOffset : ℤ} {found : Option Segment}, (last + 1 - first).toNat < fuel →
      Bracket segs o first last found → (foundOffset = o → Finds segs o found) →
      ∃ r, findSegmentLoop segs o fuel first last (Int.tdiv (first + last) 2) foundOffset found =
        some r ∧ Finds segs o r := by
  induction fuel with
  | zero => intro first last _ _ hfuel; omega
  | succ fuel ih =>
      intro first last foundOffset found hfuel hb hfound
      rw [findSegmentLoop]
      split_ifs with hcond
      · have h0 := hb.first_nonneg
        have hlast := hb.last_lt
        obtain ⟨hlo, hhi⟩ := Bisection.midpoint h0 hcond.1
        obtain ⟨k, hk⟩ : ∃ k : ℕ, Int.tdiv (first + last) 2 = k :=
          ⟨_, (Int.toNat_of_nonneg (h0.trans hlo)).symm⟩
        rw [hk] at hlo hhi ⊢
        have hget : segs[k]? = some segs[k] := List.getElem?_eq_getElem (by omega)
        rw [Int.toNat_natCast, hget]
        dsimp only
        split_ifs with hbefore
        · refine ih (by omega) (hb.left hsorted hget hlo hhi hbefore) ?_
          intro heq
          omega
        · have hb' := hb.right hsorted hget hlo hhi (not_lt.mp hbefore)
          refine ih (by omega) hb' ?_
          intro heq
          refine ⟨k, hget, by omega, ?_⟩
          intro l t hl ht
          obtain ⟨hll, rfl⟩ := List.getElem?_eq_some_iff.mp ht
          have := List.pairwise_iff_getElem.mp hsorted k l (by omega) hll hl
          omega
      · refine ⟨found, rfl, ?_⟩
        by_cases heq : foundOffset = o
        · exact hfound heq
        · exact hb.empty (by by_contra hle; exact hcond ⟨by omega, heq⟩)

theorem findSegment_spec (hsorted : p.segments.Pairwise (fun s t => s.baseOffset < t.baseOffset))
    (hnonneg : ∀ s ∈ p.segments, 0 ≤ s.baseOffset) (o : ℤ) :
    Finds p.segments o (p.findSegment o) := by
  unfold findSegment
  split_ifs with hnil
  · rw [hnil]
    simp [Finds]
  · have hpos := List.length_pos_of_ne_nil hnil
    have hb : Bracket p.segments o 0 ((p.segments.length : ℤ) - 1) none := by
      refine ⟨le_rfl, by omega, by omega, by simp, fun l t hl => by omega, ?_⟩
      intro l t hl ht
      have := (List.getElem?_eq_some_iff.mp ht).1
      omega
    have hfound : (-1 : ℤ) = o → Finds p.segments o none := by
      intro heq t ht
      have := hnonneg t ht
      omega
    obtain ⟨r, hloop, hr⟩ := findSegmentLoop_spec hsorted (p.segments.length + 1) (by omega)
      hb hfound
    dsimp only
    rw [hloop]
    exact hr

theorem map_baseOffset {path : RawPath} {maxSize : ℤ} {segs : List Segment}
    (h : List.Forall₂ (Stands w.fs path dir maxSize) segs cs) :
    segs.map Segment.baseOffset = cs.map (fun c => (c.base : ℤ)) := by
  induction h with
  | nil => rfl
  | cons hs _ ih =>
      obtain ⟨i, j, ho⟩ := hs.opened
      rw [List.map_cons, List.map_cons, ih, Segment.baseOffset, ho.baseOffset]

theorem Rep.sorted (h : Rep w dir p cs log) :
    p.segments.Pairwise (fun s t => s.baseOffset < t.baseOffset) := by
  have hb := Blocks.pairwise_base h.live.represents.chain
  have hcs : (cs.map (fun c => (c.base : ℤ))).Pairwise (· < ·) := by
    rw [List.pairwise_map]
    exact hb.imp (fun hlt => by omega)
  rw [← map_baseOffset h.live.stands, List.pairwise_map] at hcs
  exact hcs

theorem Rep.baseOffset_nonneg (h : Rep w dir p cs log) (s : Segment) (hs : s ∈ p.segments) :
    0 ≤ s.baseOffset := by
  have hmem : s.baseOffset ∈ p.segments.map Segment.baseOffset := List.mem_map_of_mem hs
  rw [map_baseOffset h.live.stands] at hmem
  obtain ⟨c, -, hc⟩ := List.mem_map.mp hmem
  omega

def Addressable (cs : List Chunk) : Prop := ∀ c ∈ cs, Log.Addressable c.msgs

theorem oldestOffset_eq (h : Rep w dir p (c :: cs) log) : p.oldestOffset = c.base := by
  have hmap := map_baseOffset h.live.stands
  unfold oldestOffset
  rw [h.opened, if_neg (by simp)]
  cases hseg : p.segments with
  | nil => simp [hseg] at hmap
  | cons s ss =>
      rw [hseg, List.map_cons, List.map_cons] at hmap
      exact (List.cons.inj hmap).1

theorem newestOffset_eq (h : Rep w dir p cs log) : p.newestOffset = log.length := by
  obtain ⟨init, c, rfl⟩ : ∃ init c, cs = init ++ [c] :=
    ⟨_, _, (List.dropLast_append_getLast h.live.represents.ne_nil).symm⟩
  obtain ⟨s, hs, hlive, hst⟩ := h.last
  obtain ⟨i, j, ho⟩ := hst.opened
  unfold newestOffset
  rw [h.opened, if_neg (by simp), hs]
  dsimp only
  rw [ho.nextOffset, hlive.next_last]

/-- The segment a read goes to, with its chunk. -/
theorem Rep.find (h : Rep w dir p (c :: cs) log) (o : ℤ) :
    (o < c.base → p.findSegment o = none) ∧
      (c.base ≤ o → ∃ s d, p.findSegment o = some s ∧ d ∈ c :: cs ∧
        Stands w.fs p.path dir p.maxSegmentSize s d ∧ s.baseOffset = d.base ∧ (d.base : ℤ) ≤ o ∧
        Blocks.LastBefore Chunk.base (c :: cs) o d) := by
  have hf := findSegment_spec h.sorted h.baseOffset_nonneg o
  have hmap := map_baseOffset h.live.stands
  constructor
  · intro ho
    cases hr : p.findSegment o with
    | none => rfl
    | some s =>
        rw [hr] at hf
        obtain ⟨k, hk, hle, -⟩ := hf
        have hmem : s.baseOffset ∈ p.segments.map Segment.baseOffset :=
          List.mem_map_of_mem (List.mem_of_getElem? hk)
        rw [hmap, List.mem_map] at hmem
        obtain ⟨d, hd, hdb⟩ := hmem
        have hb := List.pairwise_cons.mp (Blocks.pairwise_base h.live.represents.chain)
        rcases List.mem_cons.mp hd with rfl | hd
        · omega
        · have := hb.1 d hd
          omega
  · intro ho
    cases hr : p.findSegment o with
    | none =>
        rw [hr] at hf
        cases hseg : p.segments with
        | nil => simp [hseg] at hmap
        | cons s ss =>
            rw [hseg, List.map_cons, List.map_cons] at hmap
            have := hf s (by rw [hseg]; exact List.mem_cons_self)
            rw [(List.cons.inj hmap).1] at this
            omega
    | some s =>
        rw [hr] at hf
        obtain ⟨k, hk, hle, hafter⟩ := hf
        obtain ⟨d, hd, hst⟩ := forall₂_getElem? h.live.stands hk
        obtain ⟨i, j, hopen⟩ := hst.opened
        have hbase : s.baseOffset = d.base := hopen.baseOffset
        refine ⟨s, d, rfl, List.mem_of_getElem? hd, hst, hbase, by omega, k, hd, by omega, ?_⟩
        intro l e hl he
        have hlen := h.live.stands.length_eq
        have hll := (List.getElem?_eq_some_iff.mp he).1
        have hsl : p.segments[l]? = some (p.segments[l]) := List.getElem?_eq_getElem (by omega)
        obtain ⟨e', he', hst'⟩ := forall₂_getElem? h.live.stands hsl
        rw [he, Option.some.injEq] at he'
        subst he'
        obtain ⟨i', j', hopen'⟩ := hst'.opened
        have := hafter l _ hl hsl
        rwa [Segment.baseOffset, hopen'.baseOffset] at this

theorem readAt_ok (hw : w.Calm) (h : Rep w dir p cs log) (ha : Addressable cs) {k : ℕ}
    (hk : log[k]? = some m) (hold : p.oldestOffset ≤ k) : p.readAt k w = (.ok (), m, w) := by
  cases cs with
  | nil => exact absurd rfl h.live.represents.ne_nil
  | cons c cs =>
      rw [oldestOffset_eq h] at hold
      obtain ⟨s, d, hfind, hd, hst, hbase, hle, hlast⟩ := (h.find k).2 hold
      have hlt := (List.getElem?_eq_some_iff.mp hk).1
      have hin := (hlast.entry h.live.represents).1 (by omega)
      obtain ⟨r, hr⟩ : ∃ r : ℕ, (k : ℤ) - d.base = r := ⟨_, (Int.toNat_of_nonneg (by omega)).symm⟩
      have hmsg : d.msgs[r]? = some m := by
        rw [← h.live.represents.getElem? hd (by omega), show d.base + r = k by omega, hk]
      obtain ⟨i, j, hopen⟩ := hst.opened
      unfold Partition.readAt
      rw [h.opened, if_neg (by simp), hfind]
      dsimp only
      rw [hbase, hr]
      exact Segment.readAt_ok hw hopen hmsg (ha d hd r (by omega))

/-- No segment holds a message from before the oldest offset. -/
theorem readAt_dropped (h : Rep w dir p cs log) {o : ℤ} (ho : o < p.oldestOffset) :
    ∃ msg, p.readAt o w = (Utils.err .partitionError msg, [], w) := by
  cases cs with
  | nil => exact absurd rfl h.live.represents.ne_nil
  | cons c cs =>
      rw [oldestOffset_eq h] at ho
      unfold Partition.readAt
      rw [h.opened, if_neg (by simp), (h.find o).1 ho]
      exact ⟨_, rfl⟩

theorem readAt_error (h : Rep w dir p cs log) {o : ℤ}
    (ho : o < p.oldestOffset ∨ log.length ≤ o) : ∃ e, p.readAt o w = (.error e, [], w) := by
  cases cs with
  | nil => exact absurd rfl h.live.represents.ne_nil
  | cons c cs =>
      rw [oldestOffset_eq h] at ho
      unfold Partition.readAt
      rw [h.opened, if_neg (by simp)]
      by_cases hold : o < c.base
      · rw [(h.find o).1 hold]
        exact ⟨_, rfl⟩
      · obtain ⟨s, d, hfind, hd, hst, hbase, hle, hlast⟩ := (h.find o).2 (by omega)
        have hout := (hlast.entry h.live.represents).2 (by omega)
        obtain ⟨i, j, hopen⟩ := hst.opened
        rw [hfind]
        dsimp only
        rw [hbase]
        exact Segment.readAt_error hopen (Or.inr hout)

end Partition

end MyKafka
