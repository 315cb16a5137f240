import MyKafka.LogCursor
import MyKafka.LogEntries
import MyKafka.PartitionClosable

/-!
# Logs that end within a record

A kill in the middle of a write leaves the first bytes of a record behind the complete ones. A new
object takes what is left of the header for a whole one, so its position is not the end of the log
any more: later writes are acknowledged and lost, and they fill the torn record up.
-/

namespace MyKafka

open Posix LittleEndian Log Segment

variable {h : SegmentHost} {base : ℤ} {m : Payload}

/-- What a kill in the middle of a write leaves: complete records, the first `cut` bytes of one
more, and an index whose entries lead to complete records or were never written. -/
structure TornLog (w : World) (path : RawPath) (dir : Path) (base : ℤ) (msgs : List Payload)
    (torn : Payload) (cut : ℕ) : Prop where
  calm : w.Calm
  atDir : FileSystem.At w.fs path dir
  logFile : ¬ w.fs.IsDir (dir ++ [logName base])
  indexFile : ¬ w.fs.IsDir (dir ++ [indexName base])
  bytes : (w.fs.contents (dir ++ [logName base]) w.now).image.toList =
    encode base msgs ++ (record (base + msgs.length) torn).take cut
  begun : 0 < cut
  unfinished : cut < 12 + torn.length
  sane : Index.Sane (w.fs.contents (dir ++ [indexName base]) w.now).image
  slots : ∀ k, (w.fs.contents (dir ++ [indexName base]) w.now).image.load (8 * k + 4) 4 = 0 ∨
    k < msgs.length ∧ (w.fs.contents (dir ++ [indexName base]) w.now).image.load (8 * k + 4) 4 =
      toInt32 (logSize (msgs.take k))
  payload : ∀ m ∈ torn :: msgs, m.length < 2 ^ 31
  base_ge : -2 ^ 63 ≤ base
  next_lt : base + msgs.length < 2 ^ 63

variable {w : World} {path : RawPath} {dir : Path} {msgs later : List Payload} {torn : Payload}
  {cut : ℕ} {maxSize : ℤ}

namespace TornLog

/-- The bytes of the log. -/
def log (base : ℤ) (msgs : List Payload) (torn : Payload) (cut : ℕ) : List UInt8 :=
  encode base msgs ++ (record (base + msgs.length) torn).take cut

theorem length_log (base : ℤ) (msgs : List Payload) (hcut : cut < 12 + torn.length) :
    (log base msgs torn cut).length = logSize msgs + cut := by
  rw [log, List.length_append, length_encode, List.length_take, length_record]
  omega

theorem ready (ht : TornLog w path dir base msgs torn cut) (maxSize : ℤ) :
    ∃ s w' i j, (Segment.new path base maxSize).open w = s.finish w' ∧
      Ready w path dir base maxSize (w.fs.contents (dir ++ [logName base]) w.now) s w' i j :=
  open_ready ht.calm ht.atDir maxSize ht.logFile ht.indexFile ht.sane

theorem rebuild_records (ht : TornLog w path dir base msgs torn cut) (hroom : msgs.length < 1310720)
    {s : Segment} {w' : World} {i j : ℕ}
    (R : Ready w path dir base maxSize (w.fs.contents (dir ++ [logName base]) w.now) s w' i j) :
    ∃ d x, s.reconstructIndexAndGetLastOffset w' =
        (reconstructLoop (1310721 - msgs.length)
          { s with
            index := x
            nextOffset := base + msgs.length
            position := logSize msgs }
          (logSize msgs) { w' with fs := w'.fs.setData j d }).getD (.ok (), s, w') ∧
      x.Holds (w'.fs.setData j d) j (startsFrom 0 msgs) ∧ x.baseOffset = base ∧
      ((w'.fs.setData j d).data i).image.toList = log base msgs torn cut := by
  have hp : s.index.position = 0 := by simpa using R.holds.position
  have hbytes : (w'.fs.data i).image.toList =
      [] ++ (encode base msgs ++ (record (base + msgs.length) torn).take cut) := by
    rw [R.data, ht.bytes]
    rfl
  have hnext := ht.next_lt
  obtain ⟨d, x, hloop, H, hbase, -⟩ := reconstructLoop_records R.ne R.calm R.fd R.holds
    (by simpa using hroom.le) (by rw [R.baseOffset]; simp) ht.base_ge hnext R.nextOffset
    (fun m hm => ht.payload m (List.mem_cons_of_mem _ hm)) hbytes (1310721 - msgs.length)
  have hfuel : room s.index + 1 = 1310721 - msgs.length + msgs.length := by
    simp only [Segment.room, R.holds.size, hp, Index.entryWidth, Index.offsetWidth,
      Index.positionWidth]
    omega
  rw [R.position, zero_add, List.nil_append, length_encode, List.length_nil] at hloop
  rw [R.position, List.nil_append] at H
  refine ⟨d, x, ?_, H, hbase.trans R.baseOffset, ?_⟩
  · rw [reconstruct_calm R.calm R.fd, hfuel, hloop]
  · rw [FileSystem.data_setData_ne _ _ R.ne]
    exact hbytes

theorem finish_error {s : Segment} {w' : World} {e : Error} {s₁ : Segment} {w₁ : World}
    (h : s.reconstructIndexAndGetLastOffset w' = (.error e, s₁, w₁)) :
    ∃ e', (s.finish w').1 = .error e' := by
  rw [finish, h]
  exact abandon_error s₁ w₁ e

/-- Without the first byte of the size, and with more records than entries, the rebuild fails. -/
theorem boot_error (ht : TornLog w path dir base msgs torn cut) (maxSize : ℤ)
    (h : cut < 9 ∨ 1310720 ≤ msgs.length) :
    ∃ e, (SegmentHost.boot path base maxSize w).1 = .error e := by
  obtain ⟨s, w', i, j, hopen, R⟩ := ht.ready maxSize
  have hnext := ht.next_lt
  have hbegun := ht.begun
  have hfinish : ∃ e s₁ w₁, s.reconstructIndexAndGetLastOffset w' = (.error e, s₁, w₁) := by
    by_cases hroom : msgs.length < 1310720
    · obtain ⟨d, x, hrec, -, -, hlog⟩ := ht.rebuild_records hroom R
      have hlen := length_log base msgs ht.unfinished
      obtain ⟨e, offset, herr⟩ := reconstructLoop_cut (s := { s with
          index := x
          nextOffset := base + msgs.length
          position := logSize msgs }) (w := { w' with fs := w'.fs.setData j d }) R.calm R.fd hlog
        (q := logSize msgs) (by omega) (by rw [show offsetSize = 8 from rfl]; omega)
        (1310720 - msgs.length)
      rw [show 1310721 - msgs.length = 1310720 - msgs.length + 1 by omega, herr] at hrec
      exact ⟨_, _, _, hrec⟩
    · have htake : (msgs.take 1310720).length = 1310720 := List.length_take_of_le (by omega)
      have hbytes : (w'.fs.data i).image.toList = encode s.index.baseOffset (msgs.take 1310720) ++
          (encode (base + (msgs.take 1310720).length) (msgs.drop 1310720) ++
            (record (base + msgs.length) torn).take cut) := by
        rw [R.data, ht.bytes, R.baseOffset, ← List.append_assoc, ← encode_append,
          List.take_append_drop]
      obtain ⟨e, s₁, d, hrec, -⟩ := reconstruct_spoiled R.calm R.ne R.fd R.holds htake
        (by rw [R.baseOffset]; exact ht.base_ge) (by rw [R.baseOffset, htake]; push_cast; omega)
        (R.nextOffset.trans R.baseOffset.symm) R.position
        (fun m hm => ht.payload m (List.mem_cons_of_mem _ (List.mem_of_mem_take hm))) hbytes
        (by
          intro hnil
          have hlen := congrArg List.length (List.append_eq_nil_iff.mp hnil).2
          rw [List.length_take, length_record] at hlen
          simp only [List.length_nil] at hlen
          omega)
      exact ⟨_, _, _, hrec⟩
  obtain ⟨e, s₁, w₁, hrec⟩ := hfinish
  obtain ⟨e', he'⟩ := finish_error hrec
  exact ⟨e', by rw [SegmentHost.boot, hopen]; exact he'⟩

theorem log_header (h : 8 ≤ cut) : log base msgs torn cut = encode base msgs ++
    (toLE 8 (base + msgs.length) ++ (toLE 4 torn.length ++ torn).take (cut - 8)) := by
  rw [log, record, List.append_assoc, List.take_append, length_toLE,
    List.take_of_length_le (by rw [length_toLE]; exact h)]

theorem log_whole_header (h : 12 ≤ cut) : log base msgs torn cut = encode base msgs ++
    (toLE 8 (base + msgs.length) ++ (toLE 4 torn.length ++ torn.take (cut - 12))) := by
  rw [log_header (by omega), List.take_append, length_toLE,
    List.take_of_length_le (by rw [length_toLE]; omega), show cut - 8 - 4 = cut - 12 by omega]

/-- The entries of the index after the torn log was opened. -/
def starts (msgs : List Payload) : List ℤ := startsFrom 0 msgs ++ [(logSize msgs : ℤ)]

theorem length_starts : (starts msgs).length = msgs.length + 1 := by
  rw [starts, List.length_append, length_startsFrom, List.length_singleton]

theorem starts_at {k : ℕ} (hk : k ≤ msgs.length) :
    (starts msgs)[k]? = some (logSize (msgs.take k) : ℤ) := by
  have hsplit : starts msgs = startsFrom 0 (msgs ++ [[]]) := by
    rw [startsFrom_append, zero_add]
    rfl
  rw [hsplit, startsFrom_getElem? 0 (by rw [List.length_append, List.length_singleton]; omega),
    zero_add, List.take_append_of_le_length hk]

/-- A header whose size is whole, or sends the seek to before the log, ends the rebuild. -/
theorem boot_placed (ht : TornLog w path dir base msgs torn cut) (maxSize : ℤ)
    (hnext : base + msgs.length + 1 < 2 ^ 63) (hroom : msgs.length < 1310720) (hcut : 9 ≤ cut)
    (hland : 12 ≤ cut ∨ landing (log base msgs torn cut) (logSize msgs) < 0) :
    ∃ h, SegmentHost.boot path base maxSize w = (.ok (), h) ∧
      Placed h base (starts msgs) (log base msgs torn cut) ∧
      h.segment.position = logSize msgs + (sizeField (log base msgs torn cut) (logSize msgs) + 12) := by
  obtain ⟨s, w', i, j, hopen, R⟩ := ht.ready maxSize
  obtain ⟨d, x, hrec, H, hbase, hlog⟩ := ht.rebuild_records hroom R
  have hlen := length_log base msgs ht.unfinished
  have hoff : offsetField (log base msgs torn cut) (logSize msgs) = base + msgs.length := by
    have hat := offsetField_at (encode base msgs) ((toLE 4 (torn.length : ℤ) ++ torn).take (cut - 8))
      (show -2 ^ 63 ≤ base + msgs.length by have := ht.base_ge; omega) ht.next_lt
    rwa [length_encode, ← log_header (by omega)] at hat
  let t : Segment := { s with
    index := x
    nextOffset := base + msgs.length
    position := logSize msgs }
  obtain ⟨d', hx, H'⟩ := Index.write_room (w := { w' with fs := w'.fs.setData j d }) H
    (by rwa [length_startsFrom]) (logSize msgs)
  rw [show x.baseOffset + ((startsFrom 0 msgs).length : ℤ) = _ by
    rw [hbase, length_startsFrom, ← hoff]] at hx
  have hturn := reconstructLoop_turn (s := t) (w := { w' with fs := w'.fs.setData j d }) R.calm R.fd
    hlog (by rw [show offsetSize = 8 from rfl]; omega) hx R.calm (1310720 - msgs.length)
  let t' : Segment := t.advance { x with position := x.position + 8 }
    (offsetField (log base msgs torn cut) (logSize msgs))
    (sizeField (log base msgs torn cut) (logSize msgs))
  let w₂ : World := { w' with fs := (w'.fs.setData j d).setData j d' }
  have hw₂ : w₂.Calm := R.calm
  have hdata : (w₂.fs.data i).image.toList = log base msgs torn cut := by
    rw [FileSystem.data_setData_ne _ _ R.ne, hlog]
  have hloop : reconstructLoop (1310721 - msgs.length) t (logSize msgs)
      { w' with fs := w'.fs.setData j d } = some (.ok (), t', w₂) := by
    rw [show 1310721 - msgs.length = 1310720 - msgs.length + 1 by omega, hturn]
    split_ifs with hneg
    · rfl
    · have hwhole := hland.resolve_right hneg
      have hat := landing_at (encode base msgs) (torn.take (cut - 12)) (base + msgs.length)
        (ht.payload torn List.mem_cons_self)
      rw [length_encode, ← log_whole_header hwhole] at hat
      have hcut := ht.unfinished
      rw [hat, Int.toNat_natCast, show 1310720 - msgs.length = 1310719 - msgs.length + 1 by omega]
      exact reconstructLoop_over (s := t') hw₂ R.fd hdata (by omega) _
  rw [hloop, Option.getD_some] at hrec
  refine ⟨⟨t', w₂⟩, by rw [SegmentHost.boot, hopen, finish, hrec],
    ⟨hw₂, ⟨i, j, R.ne, R.fd, R.fdRead, hdata, H'⟩, ?_, hbase, ht.base_ge, ?_⟩, rfl⟩
  · have hge := ht.base_ge
    show toInt64 (offsetField (log base msgs torn cut) (logSize msgs) + 1) = _
    rw [hoff, toInt64_of_range (by omega) (by omega), length_starts]
    push_cast
    ring
  · rw [length_starts]
    push_cast
    omega

/-! ## What is read -/

/-- Whatever follows the torn record, message `k` is read from its record. -/
theorem recordAt_kept (hms : ∀ m ∈ msgs, m.length < 2 ^ 31) (h0 : -2 ^ 63 ≤ base)
    (h1 : base + msgs.length < 2 ^ 63) {k : ℕ} (hk : msgs[k]? = some m) {payload : Payload}
    (rest : List UInt8) :
    RecordAt (log base msgs torn cut ++ rest) (logSize (msgs.take k)) payload ↔
      0 ≤ base + k ∧ payload = m := by
  have hlt := (List.getElem?_eq_some_iff.mp hk).1
  have hm := hms m (List.mem_of_getElem? hk)
  have hat := recordAt_header (encode base (msgs.take k))
    (m ++ (encode (base + k + 1) (msgs.drop (k + 1)) ++
      ((record (base + msgs.length) torn).take cut ++ rest))) (base + k) m.length payload
    (by omega) (by omega) (by omega) (by omega)
  rw [length_encode] at hat
  rw [log, encode_at base hk, record]
  simp only [List.append_assoc]
  rw [hat]
  constructor
  · rintro ⟨hoff, hlen, hpre⟩
    refine ⟨hoff, ?_⟩
    rw [List.prefix_iff_eq_take, ← Int.ofNat_inj.mp hlen, List.take_left] at hpre
    exact hpre
  · rintro ⟨hoff, rfl⟩
    exact ⟨hoff, rfl, List.prefix_append _ _⟩

theorem recordAt_torn (htorn : torn.length < 2 ^ 31) (h0 : -2 ^ 63 ≤ base + msgs.length)
    (h1 : base + msgs.length < 2 ^ 63) (hcut : 12 ≤ cut) {payload : Payload} (rest : List UInt8) :
    RecordAt (log base msgs torn cut ++ rest) (logSize msgs) payload ↔
      0 ≤ base + msgs.length ∧ torn.length = payload.length ∧
        payload <+: torn.take (cut - 12) ++ rest := by
  have hat := recordAt_header (encode base msgs) (torn.take (cut - 12) ++ rest) (base + msgs.length)
    torn.length payload h0 h1
    (by omega) (by omega)
  rw [length_encode] at hat
  rw [log_whole_header hcut]
  simp only [List.append_assoc]
  rw [hat, Nat.cast_inj]

/-- Nothing is read from a header that is cut short. -/
theorem not_recordAt_torn (hcut : cut < 12) {payload : Payload} :
    ¬ RecordAt (log base msgs torn cut) (logSize msgs) payload := by
  rintro ⟨header, hlen, -, -, hpre⟩
  have hle := hpre.length_le
  rw [← length_encode base msgs, log, List.drop_left, List.length_append, List.length_take, hlen,
    show headerSize = 12 from rfl] at hle
  omega

end TornLog

/-- What a run of later writes on a segment that holds `msgs` must give: the old messages and those
that were acknowledged are read back, and nothing else is. -/
structure Recovered (h : SegmentHost) (msgs later : List Payload) : Prop where
  kept : ∀ (k : ℕ) (m : Payload), msgs[k]? = some m →
    (Runs.final SegmentHost.append h later).readAt k = (.ok (), m)
  acknowledged : ∀ m o, (m, Except.ok o) ∈ Runs.trace SegmentHost.append h later →
    (Runs.final SegmentHost.append h later).readAt (o - h.segment.baseOffset) = (.ok (), m)
  nothingElse : ∀ target m,
    (Runs.final SegmentHost.append h later).readAt target = (.ok (), m) →
      (∃ k : ℕ, target = k ∧ msgs[k]? = some m) ∨
      ∃ o, (m, Except.ok o) ∈ Runs.trace SegmentHost.append h later ∧
        target = o - h.segment.baseOffset

/-- A new segment object opens and the later writes find it in order. -/
def Recovers (w : World) (path : RawPath) (base maxSize : ℤ) (msgs later : List Payload) : Prop :=
  (SegmentHost.boot path base maxSize w).1 = .ok () ∧
    Recovered (SegmentHost.boot path base maxSize w).2 msgs later

/-- The torn record does no harm. -/
structure Harmless (base : ℤ) (msgs : List Payload) (torn : Payload) (cut : ℕ)
    (later : List Payload) : Prop where
  header : 12 ≤ cut ∨ 9 ≤ cut ∧
    (logSize msgs + cut : ℕ) + overlay sizeSize (-1) ((toLE sizeSize torn.length).take (cut - 8)) < 0
  room : msgs.length < 1310720
  readable : 0 ≤ base ∨ msgs = []
  quiet : later = [] ∨
    12 ≤ cut ∧ msgs.length = 1310719 ∧ cut + logSize later < 12 + torn.length

namespace TornLog

/-- Where the seek over a torn record goes. -/
theorem landing_torn (hcut : 8 ≤ cut) (hcut' : cut < 12) :
    landing (log base msgs torn cut) (logSize msgs) =
      (logSize msgs + cut : ℕ) +
        overlay sizeSize (-1) ((toLE sizeSize torn.length).take (cut - 8)) := by
  have hlen : (log base msgs torn cut).length = logSize msgs + cut := by
    rw [log, List.length_append, length_encode, List.length_take, length_record]
    omega
  have hsize : sizeField (log base msgs torn cut) (logSize msgs) =
      overlay sizeSize (-1) ((toLE sizeSize torn.length).take (cut - 8)) := by
    have hpre : (encode base msgs ++ toLE 8 (base + msgs.length)).length =
        logSize msgs + offsetSize := by
      rw [List.length_append, length_encode, length_toLE]
      rfl
    rw [sizeField, log_header hcut, ← List.append_assoc, ← hpre, List.drop_left,
      List.take_append_of_le_length (by rw [length_toLE]; omega), List.take_take,
      show sizeSize = 4 from rfl, Nat.min_eq_right (by omega)]
  rw [landing, hsize, hlen, show headerSize = 12 from rfl]
  congr 1
  push_cast
  omega

theorem toInt32_start (haddr : Addressable (msgs ++ torn :: later)) {k : ℕ} (hk : k ≤ msgs.length) :
    toInt32 (logSize (msgs.take k) : ℤ) = logSize (msgs.take k) := by
  have hlt := haddr k (by rw [List.length_append, List.length_cons]; omega)
  rw [List.take_append_of_le_length hk] at hlt
  exact Index.toInt32_of_range (by omega) (by exact_mod_cast hlt)

/-- The entries lead to the complete records and to the torn one. -/
theorem read_start (haddr : Addressable (msgs ++ torn :: later)) {ext : List ℤ}
    {bytes : List UInt8} (hp : Placed h base (starts msgs ++ ext) bytes) {k : ℕ}
    (hk : k ≤ msgs.length) {payload : Payload} :
    h.readAt k = (.ok (), payload) ↔ RecordAt bytes (logSize (msgs.take k)) payload := by
  have hentry : (starts msgs ++ ext)[k]? = some (logSize (msgs.take k) : ℤ) := by
    rw [List.getElem?_append_left (by rw [length_starts]; omega), starts_at hk]
  have hstart := toInt32_start haddr hk
  rw [hp.read]
  constructor
  · rintro ⟨k', q, pos, hkk, hpos, hq, hat⟩
    obtain rfl := Int.ofNat_inj.mp hkk
    rw [hentry, Option.some.injEq] at hpos
    rw [← hpos, hstart, Nat.cast_inj] at hq
    rwa [hq]
  · intro hat
    exact ⟨k, _, _, rfl, hentry, hstart, hat⟩

theorem read_kept (ht : TornLog w path dir base msgs torn cut)
    (haddr : Addressable (msgs ++ torn :: later)) {ext : List ℤ} {rest : List UInt8}
    (hp : Placed h base (starts msgs ++ ext) (log base msgs torn cut ++ rest)) {k : ℕ}
    (hk : msgs[k]? = some m) {payload : Payload} :
    h.readAt k = (.ok (), payload) ↔ 0 ≤ base + k ∧ payload = m := by
  rw [read_start haddr hp (List.getElem?_eq_some_iff.mp hk).1.le]
  exact recordAt_kept (fun m hm => ht.payload m (List.mem_cons_of_mem _ hm)) ht.base_ge ht.next_lt hk
    rest

theorem read_torn (ht : TornLog w path dir base msgs torn cut) (hcut : 12 ≤ cut)
    (haddr : Addressable (msgs ++ torn :: later)) {ext : List ℤ} {rest : List UInt8}
    (hp : Placed h base (starts msgs ++ ext) (log base msgs torn cut ++ rest)) {payload : Payload} :
    h.readAt msgs.length = (.ok (), payload) ↔ 0 ≤ base + msgs.length ∧
      torn.length = payload.length ∧ payload <+: torn.take (cut - 12) ++ rest := by
  have hbase := ht.base_ge
  rw [read_start haddr hp le_rfl, List.take_length]
  exact recordAt_torn (ht.payload torn List.mem_cons_self) (by omega) ht.next_lt hcut rest

theorem harmless_recovers (ht : TornLog w path dir base msgs torn cut)
    (haddr : Addressable (msgs ++ torn :: later)) (hlater : ∀ m ∈ later, m.length < 2 ^ 31)
    (hnext : base + (msgs ++ torn :: later).length < 2 ^ 63)
    (hh : Harmless base msgs torn cut later) : Recovers w path base maxSize msgs later := by
  have hland : 9 ≤ cut ∧ (12 ≤ cut ∨ landing (log base msgs torn cut) (logSize msgs) < 0) := by
    by_cases hcut : 12 ≤ cut
    · exact ⟨by omega, Or.inl hcut⟩
    · obtain ⟨h9, hneg⟩ := hh.header.resolve_left hcut
      exact ⟨h9, Or.inr (by rwa [landing_torn (by omega) (by omega)])⟩
  rw [List.length_append, List.length_cons] at hnext
  push_cast at hnext
  obtain ⟨h, hboot, hp, -⟩ := ht.boot_placed maxSize (by omega) hh.room hland.1 hland.2
  have hbase : h.segment.baseOffset = base := hp.baseOffset
  rw [Recovers, hboot]
  obtain ⟨ext, rest, hfinal, hrest, hacks⟩ := hp.run hlater (by
    rw [length_starts]
    push_cast
    omega)
  have hsmall := hfinal.room
  rw [List.length_append, length_starts] at hsmall
  -- no later write gets an entry, and none fills the torn record up
  have hquiet : ext = [] ∧ (∀ m o, (m, Except.ok o) ∉ Runs.trace SegmentHost.append h later) ∧
      (rest = [] ∨ 12 ≤ cut) ∧ cut + rest.length < 12 + torn.length := by
    have hcut := ht.unfinished
    rcases hh.quiet with rfl | ⟨h12, hfull, hshort⟩
    · have hext := hfinal.nextOffset
      rw [Runs.final, hp.nextOffset, List.length_append] at hext
      obtain rfl := List.length_eq_zero_iff.mp (show ext.length = 0 by omega)
      obtain rfl := List.length_eq_zero_iff.mp hrest
      exact ⟨rfl, by simp [Runs.trace], Or.inl rfl, by simpa using hcut⟩
    · refine ⟨List.length_eq_zero_iff.mp (by omega), fun m o hmem => ?_, Or.inr h12, by omega⟩
      have := (hacks m o hmem).2
      rw [length_starts] at this
      omega
  obtain ⟨rfl, hnone, hwhole, hshort⟩ := hquiet
  have htorn : ∀ payload,
      (Runs.final SegmentHost.append h later).readAt msgs.length ≠ (.ok (), payload) := by
    intro payload hread
    by_cases h12 : 12 ≤ cut
    · obtain ⟨-, hlen, hpre⟩ := (ht.read_torn h12 haddr hfinal).mp hread
      have := hpre.length_le
      rw [List.length_append, List.length_take] at this
      omega
    · obtain rfl := hwhole.resolve_right h12
      rw [read_start haddr hfinal le_rfl, List.take_length, List.append_nil] at hread
      exact not_recordAt_torn (by omega) hread
  refine ⟨rfl, ?_, fun m o hmem => absurd hmem (hnone m o), ?_⟩
  · intro k m hk
    refine (ht.read_kept haddr hfinal hk).mpr ⟨?_, rfl⟩
    rcases hh.readable with h0 | rfl
    · omega
    · cases hk
  · intro target payload hread
    obtain ⟨k, q, pos, rfl, hentry, -⟩ := hfinal.read.mp hread
    have hlt := (List.getElem?_eq_some_iff.mp hentry).1
    rw [List.append_nil, length_starts] at hlt
    rcases Nat.lt_succ_iff_lt_or_eq.mp hlt with hlt | rfl
    · have hk : msgs[k]? = some msgs[k] := List.getElem?_eq_getElem hlt
      rw [((ht.read_kept haddr hfinal hk).mp hread).2]
      exact Or.inl ⟨k, rfl, hk⟩
    · exact absurd hread (htorn payload)

/-- The first later write gets an entry behind the end of the log. -/
theorem first_misplaced (ht : TornLog w path dir base msgs torn cut) (hcut : 12 ≤ cut)
    (haddr : Addressable (msgs ++ torn :: m :: later)) (hm : m.length < 2 ^ 31)
    (hlater : ∀ m ∈ later, m.length < 2 ^ 31)
    (hnext : base + (msgs ++ torn :: m :: later).length < 2 ^ 63) (hroom : msgs.length + 1 < 1310720)
    (hp : Placed h base (starts msgs) (log base msgs torn cut))
    (hpos : h.segment.position =
      logSize msgs + (sizeField (log base msgs torn cut) (logSize msgs) + 12))
    (hshort : cut + logSize (m :: later) < 12 + torn.length) :
    ¬ Recovered h msgs (m :: later) := by
  intro hr
  have hsize := sizeField_at (encode base msgs) (torn.take (cut - 12)) (base + msgs.length)
    (ht.payload torn List.mem_cons_self)
  rw [length_encode, ← log_whole_header hcut] at hsize
  rw [List.length_append, List.length_cons, List.length_cons] at hnext
  push_cast at hnext
  obtain ⟨h₁, hstep, hp₁, -⟩ := hp.append (by rwa [length_starts]) hm (by
    rw [length_starts]
    push_cast
    omega)
  obtain ⟨ext, rest, hfinal, hrest, -⟩ := hp₁.run hlater (by
    rw [List.length_append, List.length_singleton, length_starts]
    push_cast
    omega)
  have hack := hr.acknowledged m h.segment.nextOffset (by simp [Runs.trace, hstep])
  rw [Runs.final, hstep, hfinal.read] at hack
  obtain ⟨k, q, pos, hk, hentry, hq, header, hlen, -, -, hpre⟩ := hack
  have hk' : k = msgs.length + 1 := by
    rw [hp.nextOffset, length_starts, show h.segment.baseOffset = base from hp.baseOffset] at hk
    push_cast at hk
    omega
  have hend : pos = (logSize (msgs ++ [torn]) : ℤ) := by
    rw [hk', List.getElem?_append_left (by simp [length_starts]), ← length_starts,
      List.getElem?_concat_length, Option.some.injEq] at hentry
    rw [← hentry, hpos, hsize, logSize_append, logSize, logSize]
    push_cast
    ring
  have hlt := haddr (msgs.length + 1) (by simp)
  rw [show msgs ++ torn :: m :: later = (msgs ++ [torn]) ++ m :: later by simp,
    List.take_append_of_le_length (by simp), List.take_of_length_le (by simp)] at hlt
  rw [hend, Index.toInt32_of_range (by omega) (by exact_mod_cast hlt), Nat.cast_inj] at hq
  -- the entry is past the last byte
  have hle := hpre.length_le
  rw [List.length_append, hlen, List.length_drop, List.length_append, List.length_append,
    length_record, hrest, length_log base msgs ht.unfinished, ← hq, logSize_append, logSize, logSize,
    show headerSize = 12 from rfl] at hle
  rw [logSize] at hshort
  omega

theorem recovers_harmless (ht : TornLog w path dir base msgs torn cut)
    (haddr : Addressable (msgs ++ torn :: later)) (hlater : ∀ m ∈ later, m.length < 2 ^ 31)
    (hnext : base + (msgs ++ torn :: later).length < 2 ^ 63) (hbase : 0 ≤ base ∨ msgs ≠ [])
    (hcut : cut < 9 ∨ 12 ≤ cut) (hr : Recovers w path base maxSize msgs later) : Harmless base msgs torn cut later := by
  obtain ⟨hopen, hr⟩ := hr
  have hsound : ¬ (cut < 9 ∨ 1310720 ≤ msgs.length) := by
    intro hbad
    obtain ⟨e, he⟩ := ht.boot_error maxSize hbad
    rw [hopen] at he
    cases he
  have h12 : 12 ≤ cut := by omega
  have hroom : msgs.length < 1310720 := by omega
  have hcount := hnext
  rw [List.length_append, List.length_cons] at hcount
  push_cast at hcount
  obtain ⟨h, hboot, hp, hpos⟩ := ht.boot_placed maxSize (by omega) hroom (by omega) (Or.inl h12)
  rw [hboot] at hr
  dsimp only at hr
  obtain ⟨ext, rest, hfinal, hrest, hacks⟩ := hp.run hlater (by
    rw [length_starts]
    push_cast
    omega)
  have h0 : 0 ≤ base := by
    rcases hbase with h0 | hne
    · exact h0
    · have hk : msgs[0]? = some (msgs.head hne) := by
        rw [← List.head?_eq_getElem?, List.head?_eq_some_head hne]
      have := ((ht.read_kept haddr hfinal hk).mp (hr.kept 0 _ hk)).1
      omega
  refine ⟨Or.inl h12, hroom, Or.inl h0, ?_⟩
  by_cases hshort : cut + logSize later < 12 + torn.length
  · cases later with
    | nil => exact Or.inl rfl
    | cons m later =>
        refine Or.inr ⟨h12, ?_, hshort⟩
        by_contra hne
        exact first_misplaced ht h12 haddr (hlater m List.mem_cons_self)
          (fun m' hm' => hlater m' (List.mem_cons_of_mem m hm')) hnext (by omega) hp hpos hshort hr
  · -- the torn record is filled up with the bytes of the later ones
    have hread : (Runs.final SegmentHost.append h later).readAt msgs.length =
        (.ok (), (torn.take (cut - 12) ++ rest).take torn.length) := by
      have hcut' := ht.unfinished
      refine (ht.read_torn h12 haddr hfinal).mpr ⟨by omega, ?_, List.take_prefix _ _⟩
      rw [List.length_take, List.length_append, List.length_take]
      omega
    exfalso
    rcases hr.nothingElse _ _ hread with ⟨k, hk, hmsg⟩ | ⟨o, hmem, ho⟩
    · have hlt := (List.getElem?_eq_some_iff.mp hmsg).1
      omega
    · have := (hacks _ o hmem).1
      rw [length_starts] at this
      rw [show h.segment.baseOffset = base from hp.baseOffset] at ho
      push_cast at this
      omega

end TornLog

/-! ## Sizes cut short -/

/-- A slot that was never written stays so when the index is opened. -/
theorem opened_slot {im : Image} {k : ℕ} (h : im.load (8 * k + 4) 4 = 0) :
    (Index.opened im).load (8 * k + 4) 4 = 0 := by
  rcases lt_trichotomy k 1310719 with hlt | rfl | hgt
  · rw [Index.load_opened im (by omega), h]
  · have htrunc : (im.truncate 10485760).load (8 * 1310719 + 4) (3 + 1) = 0 := by
      rw [Image.load_truncate (by omega)]
      exact h
    have hlast := Image.load_pwrite_last (w := 3) htrunc.ge
    rw [htrunc] at hlast
    exact hlast
  · exact Image.load_past_end (by rw [Index.size_opened]; omega)

theorem toInt32_ne {v : ℤ} {n : ℕ} (hn : n < 2 ^ 30) (hne : v ≠ n) (hlo : -2 ^ 31 ≤ v)
    (hhi : v < 2 ^ 31 + 2 ^ 30 + 6) : toInt32 v ≠ n := by
  unfold toInt32
  rw [Int.bmod_def]
  split_ifs <;> omega

/-- No entry that a rebuild leaves leads to the end of the log. -/
theorem TornLog.slot_ne (ht : TornLog w path dir base msgs torn cut)
    (hsmall : logSize msgs + cut < 1310720) {l : List ℕ} {stop : ℤ}
    (hl : Visits (log base msgs torn cut) 0 l stop) {new : Image} {k : ℕ}
    (h : Slot (log base msgs torn cut) 0 l
      (Index.opened (w.fs.contents (dir ++ [indexName base]) w.now).image) new k) :
    new.load (8 * k + 4) 4 ≠ (log base msgs torn cut).length := by
  have hlen := length_log base msgs ht.unfinished
  have hbegun := ht.begun
  rcases h with hold | ⟨l₁, x, l₂, rfl, hnew⟩
  · rw [hold]
    rcases ht.slots k with hzero | ⟨hk, hstart⟩
    · rw [opened_slot hzero, hlen]
      omega
    · have hge := logSize_ge msgs
      have hle := logSize_take_le msgs k
      rw [Index.load_opened _ (by omega), hstart, hlen]
      exact toInt32_ne (by omega) (by omega) (by omega) (by omega)
  · have hx := hl.lt x (by simp)
    have hdrift := hl.drift_prefix
    rw [show offsetSize = 8 from rfl] at hx
    rw [hnew]
    exact toInt32_ne (by omega) (by omega) (by omega) (by omega)

/-- The cursor of a rebuild goes over the header of the torn record. -/
theorem TornLog.drift_pos (ht : TornLog w path dir base msgs torn cut) (h9 : 9 ≤ cut)
    (h12 : cut < 12) {l : List ℕ} {stop : ℤ} (hl : Visits (log base msgs torn cut) 0 l stop) :
    0 < drift (log base msgs torn cut) l := by
  have hlen := length_log base msgs ht.unfinished
  have hl' : Visits ([] ++ (encode base msgs ++ (record (base + msgs.length) torn).take cut))
    ([] : List UInt8).length l stop := hl
  obtain ⟨l', hrest, hsub⟩ := hl'.records (fun m hm => ht.payload m (List.mem_cons_of_mem _ hm))
  have hvisited : logSize msgs ∈ l' := by
    rw [List.length_nil, zero_add] at hrest
    cases hrest with
    | past hle =>
        rw [List.nil_append, ← log, hlen] at hle
        omega
    | out => exact List.mem_singleton_self _
    | on => exact List.mem_cons_self
  refine Visits.drift_pos (hsub hvisited) ?_
  rw [hlen, show headerSize = 12 from rfl]
  omega

/-- An object that opens has rebuilt its index to the end. -/
theorem TornLog.boot_rebuilt {s : Segment} {w' : World} {i j : ℕ} {d : FileData}
    (R : Ready w path dir base maxSize d s w' i j)
    (hboot : (Segment.new path base maxSize).open w = s.finish w')
    (hopen : (SegmentHost.boot path base maxSize w).1 = .ok ()) :
    ∃ s' w₁, reconstructLoop (room s.index + 1) s 0 w' = some (.ok (), s', w₁) ∧
      SegmentHost.boot path base maxSize w = (.ok (), ⟨s', w₁⟩) := by
  obtain ⟨⟨res, s', w₁⟩, hloop⟩ := Option.isSome_iff_exists.mp
    (reconstructLoop_isSome (room s.index + 1) s 0 w' (Nat.lt_succ_self _))
  have hrec : s.reconstructIndexAndGetLastOffset w' = (res, s', w₁) := by
    rw [reconstruct_calm R.calm R.fd, hloop, Option.getD_some]
  rw [SegmentHost.boot, hboot, finish, hrec] at hopen ⊢
  cases res with
  | error e =>
      obtain ⟨e', he'⟩ := abandon_error s' w₁ e
      exact absurd (he'.symm.trans hopen) (by simp)
  | ok u => exact ⟨s', w₁, hloop, rfl⟩

/-- A rebuild that ends, of a log with a part of a size at its end. -/
theorem TornLog.boot_astray (ht : TornLog w path dir base msgs torn cut) (h9 : 9 ≤ cut)
    (h12 : cut < 12) (hsmall : logSize msgs + cut < 1310720)
    (hopen : (SegmentHost.boot path base maxSize w).1 = .ok ()) :
    Astray (SegmentHost.boot path base maxSize w).2 (log base msgs torn cut) := by
  obtain ⟨s, w', i, j, hboot, R⟩ := ht.ready maxSize
  obtain ⟨s', w₁, hloop, hrebuilt⟩ := boot_rebuilt R hboot hopen
  rw [hrebuilt]
  have hlen := length_log base msgs ht.unfinished
  have hdata : (w'.fs.data i).image.toList = log base msgs torn cut := by
    rw [R.data, ht.bytes]
    rfl
  obtain ⟨l, stop, d, hl, hpos, hindex, hfd, hfr, rfl, hd, hslots⟩ := reconstructLoop_visits
    R.calm R.ne R.fd R.holds.addr R.holds.size R.holds.length
    (show s.index.position = 8 * (0 : ℕ) by simpa using R.holds.position) hdata hloop
  have hcount := hl.length_le
  rw [hlen, show offsetSize = 8 from rfl] at hcount
  have hdrift := hl.drift_le
  have hpassed := ht.drift_pos h9 h12 hl
  refine ⟨R.calm, ⟨i, j, R.ne, hfd ▸ R.fd, hfr ▸ R.fdRead, ?_, ?_, ?_, ?_⟩, ?_,
    ⟨l.length, ?_, by omega⟩, ?_⟩
  · show ((w'.fs.setData j d).data i).image.toList = _
    rw [FileSystem.data_setData_ne _ _ R.ne, hdata]
  · show s'.index.addr = _
    rw [hindex]
    exact R.holds.addr
  · show ((w'.fs.setData j d).data j).image.size = _
    rw [FileSystem.data_setData_same, hd]
  · intro k
    show ((w'.fs.setData j d).data j).image.load _ 4 ≠ _
    rw [FileSystem.data_setData_same]
    have hslot := hslots k
    rw [R.position, R.entries, Nat.cast_zero, sub_zero] at hslot
    exact ht.slot_ne hsmall hl hslot
  · show s'.index.size = _
    rw [hindex]
    exact R.holds.size
  · show s'.index.position = _
    rw [hindex, Nat.zero_add]
  · show toInt32 s'.position ≠ _
    have hstop := hl.stop_out (by omega)
    rw [hpos, R.position]
    exact toInt32_ne (by omega) (by omega) (by omega) (by omega)

/-- A log that ends with a part of a size loses some later write. -/
theorem TornLog.later_lost (ht : TornLog w path dir base msgs torn cut) (h9 : 9 ≤ cut)
    (h12 : cut < 12) (hsmall : logSize msgs + cut < 1310720) :
    ∃ m, m.length < 2 ^ 31 ∧ ¬ Recovers w path base maxSize msgs [m] := by
  by_cases hopen : (SegmentHost.boot path base maxSize w).1 = .ok ()
  · have hlen := length_log base msgs ht.unfinished
    obtain ⟨m, hm, o, h', hstep, hlost⟩ := (ht.boot_astray h9 h12 hsmall hopen).lost (by omega)
    refine ⟨m, hm, fun hr => ?_⟩
    have hack := hr.2.acknowledged m o (by simp [Runs.trace, hstep])
    rw [Runs.final, Runs.final, hstep] at hack
    exact hlost _ hack
  · exact ⟨[], by simp, fun hr => hopen hr.1⟩

/-- A segment recovers from a kill as long as the torn record does no harm. Where the cut does not
lie in the size of the record that is the only way, and where it does some later write is lost. -/
theorem torn_log_recovers (ht : TornLog w path dir base msgs torn cut)
    (haddr : Addressable (msgs ++ torn :: later)) (hlater : ∀ m ∈ later, m.length < 2 ^ 31)
    (hnext : base + (msgs ++ torn :: later).length < 2 ^ 63) :
    (Harmless base msgs torn cut later → Recovers w path base maxSize msgs later) ∧
      (0 ≤ base ∨ msgs ≠ [] → cut < 9 ∨ 12 ≤ cut →
        Recovers w path base maxSize msgs later → Harmless base msgs torn cut later) ∧
      (9 ≤ cut → cut < 12 → logSize msgs + cut < 1310720 →
        ∃ m, m.length < 2 ^ 31 ∧ ¬ Recovers w path base maxSize msgs [m]) :=
  ⟨ht.harmless_recovers haddr hlater hnext, ht.recovers_harmless haddr hlater hnext, ht.later_lost⟩

/-- A kill between the two appends of the third write. -/
theorem torn_third_write :
    let opened := (Segment.new ⟨[], []⟩ 0 100).open (World.blank 0)
    let h := Runs.final SegmentHost.append ⟨opened.2.1, opened.2.2⟩ [[1], [2, 3]]
    TornLog (h.world.append h.segment.fd (toLE 8 2 ++ toLE 4 3)).2 ⟨[], []⟩ [] 0 [[1], [2, 3]]
      [7, 7, 7] 12 := by
  intro opened h
  have hindex : ((h.world.append h.segment.fd (toLE 8 2 ++ toLE 4 3)).2.fs.contents
      ([] ++ [indexName 0]) 0).image =
        Index.stored (Index.stored (Index.opened Image.empty) 0 0 0) 8 1 13 := by
    rfl
  have hkept : ∀ b, 16 ≤ b → (Index.stored (Index.stored (Index.opened Image.empty) 0 0 0) 8 1 13).load
      b 4 = (Index.opened Image.empty).load b 4 := by
    intro b hb
    rw [Index.load_stored_disjoint (Or.inr (by omega)), Index.load_stored_disjoint
      (Or.inr (by omega))]
  have hsize : (Index.stored (Index.stored (Index.opened Image.empty) 0 0 0) 8 1 13).size =
      10485760 := Index.size_opened Image.empty
  refine ⟨?_, ⟨by simp, rfl, rfl, rfl⟩, by decide +kernel, by decide +kernel, by decide +kernel,
    by decide, by decide, ?_, fun k => ?_, by decide, by decide, by decide⟩
  · show World.outcomes _ = []
    decide +kernel
  · show Index.Sane (FileSystem.contents _ ([] ++ [indexName 0]) 0).image
    rw [hindex]
    refine ⟨by rw [hsize]; norm_num, hsize.le, Or.inr ?_⟩
    rw [hsize, hkept _ (by norm_num), Index.load_opened _ (by norm_num),
      Image.load_past_end (Nat.zero_le _)]
  · show (FileSystem.contents _ ([] ++ [indexName 0]) 0).image.load _ 4 = 0 ∨ k < 2 ∧
      (FileSystem.contents _ ([] ++ [indexName 0]) 0).image.load _ 4 = _
    rw [hindex]
    rcases k with _ | _ | k
    · exact Or.inl (by decide +kernel)
    · exact Or.inr ⟨by norm_num, by decide +kernel⟩
    · left
      rw [hkept _ (by omega)]
      exact opened_slot (Image.load_past_end (Nat.zero_le _))

theorem torn_log_recovers_third :
    let opened := (Segment.new ⟨[], []⟩ 0 100).open (World.blank 0)
    let h := Runs.final SegmentHost.append ⟨opened.2.1, opened.2.2⟩ [[1], [2, 3]]
    Recovers (h.world.append h.segment.fd (toLE 8 2 ++ toLE 4 3)).2 ⟨[], []⟩ 0 100 [[1], [2, 3]]
      [] := by
  intro opened h
  have haddr : Addressable ([[1], [2, 3]] ++ [7, 7, 7] :: []) := by
    intro k hk
    exact (logSize_take_le _ k).trans_lt (by decide)
  refine (torn_log_recovers torn_third_write haddr (by simp) (by decide)).1 ?_
  exact ⟨Or.inl le_rfl, by simp, Or.inl le_rfl, Or.inl rfl⟩

/-- A kill between the two appends of the first write. -/
theorem torn_first_write :
    let opened := (Segment.new ⟨[], []⟩ 0 100).open (World.blank 0)
    TornLog (opened.2.2.append opened.2.1.fd (toLE 8 0 ++ toLE 4 3)).2 ⟨[], []⟩ [] 0 [] [7, 7, 7]
      12 := by
  intro opened
  have hindex : ((opened.2.2.append opened.2.1.fd (toLE 8 0 ++ toLE 4 3)).2.fs.contents
      ([] ++ [indexName 0]) 0).image = Index.opened Image.empty := by
    rfl
  refine ⟨?_, ⟨by simp, rfl, rfl, rfl⟩, by decide +kernel, by decide +kernel, by decide +kernel,
    by decide, by decide, ?_, fun k => ?_, by decide, by decide, by decide⟩
  · show World.outcomes _ = []
    decide +kernel
  · show Index.Sane (FileSystem.contents _ ([] ++ [indexName 0]) 0).image
    rw [hindex]
    refine ⟨by rw [Index.size_opened]; norm_num, (Index.size_opened _).le, Or.inr ?_⟩
    rw [Index.size_opened, Index.load_opened _ (by norm_num), Image.load_past_end (Nat.zero_le _)]
  · left
    show (FileSystem.contents _ ([] ++ [indexName 0]) 0).image.load _ 4 = 0
    rw [hindex]
    exact opened_slot (Image.load_past_end (Nat.zero_le _))

/-- There the first write after the restart is acknowledged, and cannot be read. -/
theorem torn_log_loses_next :
    let opened := (Segment.new ⟨[], []⟩ 0 100).open (World.blank 0)
    let w := (opened.2.2.append opened.2.1.fd (toLE 8 0 ++ toLE 4 3)).2
    TornLog w ⟨[], []⟩ [] 0 [] [7, 7, 7] 12 ∧ ¬ Recovers w ⟨[], []⟩ 0 100 [] [[1]] := by
  intro opened w
  refine ⟨torn_first_write, fun hr => ?_⟩
  have hack := hr.2.acknowledged [1] 1 (by decide +kernel)
  exact absurd (congrArg Prod.snd hack) (by decide +kernel)

end MyKafka
