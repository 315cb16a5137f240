import MyKafka.OpenFiles
import MyKafka.SegmentSpec

/-!
# What a read gives back

Whatever the log and the index hold, a payload that is read with an ok status lies in the log after
a whole header. A header that is cut short is filled up with the bytes of negative numbers, which
the sign check refuses.
-/

namespace LittleEndian

theorem toLE_neg_one (w : ℕ) : toLE w (-1) = List.replicate w 255 := by
  induction w with
  | zero => rfl
  | succ w ih =>
      rw [toLE, List.replicate_succ, show (-1 : ℤ) / 256 = -1 by decide, ih]
      rfl

/-- The last byte holds the sign. -/
theorem fromLE_neg (bs : List UInt8) : fromLE (bs ++ [255]) < 0 := by
  have hval : natLE (bs ++ [255]) = natLE bs + 256 ^ bs.length * 255 := by
    rw [natLE_append]
    rfl
  have hlt := natLE_lt bs
  rw [fromLE, List.length_append, List.length_singleton, pow_succ, hval]
  generalize natLE bs = n at hlt ⊢
  generalize 256 ^ bs.length = m at hlt ⊢
  rw [Int.bmod_def, Int.emod_eq_of_lt (by omega) (by omega)]
  split_ifs <;> omega

/-- So does a string that was filled up with the bytes of a negative number. -/
theorem fromLE_fill (bs : List UInt8) {n : ℕ} (hn : n ≠ 0) :
    fromLE (bs ++ List.replicate n 255) < 0 := by
  obtain ⟨m, rfl⟩ := Nat.exists_eq_succ_of_ne_zero hn
  rw [List.replicate_succ', ← List.append_assoc]
  exact fromLE_neg _

end LittleEndian

namespace MyKafka

open Posix LittleEndian

namespace Segment

/-- A header that is read short is negative in one of its fields. -/
theorem short_header {bytes : List UInt8} (h : bytes.length < headerSize) :
    fromLE ((bytes ++ (toLE offsetSize (-1) ++ toLE sizeSize (-1)).drop bytes.length).take
      offsetSize) < 0 ∨
    fromLE ((bytes ++ (toLE offsetSize (-1) ++ toLE sizeSize (-1)).drop bytes.length).drop
      offsetSize) < 0 := by
  have hfill : (toLE offsetSize (-1) ++ toLE sizeSize (-1)).drop bytes.length =
      List.replicate (headerSize - bytes.length) 255 := by
    rw [toLE_neg_one, toLE_neg_one, List.replicate_append_replicate, List.drop_replicate]
    rfl
  have hsize : headerSize = offsetSize + 4 := rfl
  rw [hfill]
  by_cases hcut : bytes.length < offsetSize
  · left
    rw [List.take_append, List.take_of_length_le hcut.le, List.take_replicate]
    exact fromLE_fill _ (by omega)
  · right
    rw [List.drop_append, List.drop_replicate]
    exact fromLE_fill _ (by omega)

/-- Two reads that pass the checks have found a record. -/
theorem recordAt_of_reads {im : Image} {position : ℕ} {bytes : List UInt8} {payload : Payload}
    (hhead : bytes = im.read position headerSize)
    (hoffset : 0 ≤ fromLE ((bytes ++
      (toLE offsetSize (-1) ++ toLE sizeSize (-1)).drop bytes.length).take offsetSize))
    (hsize : 0 ≤ fromLE ((bytes ++
      (toLE offsetSize (-1) ++ toLE sizeSize (-1)).drop bytes.length).drop offsetSize))
    (hlen : (payload.length : ℤ) = fromLE ((bytes ++
      (toLE offsetSize (-1) ++ toLE sizeSize (-1)).drop bytes.length).drop offsetSize))
    (hbody : payload = im.read (position + bytes.length) (fromLE ((bytes ++
      (toLE offsetSize (-1) ++ toLE sizeSize (-1)).drop bytes.length).drop offsetSize)).toNat) :
    RecordAt im.toList position payload := by
  have hwhole : bytes.length = headerSize := by
    have hle : bytes.length ≤ headerSize := by
      rw [hhead, Image.read_eq]
      exact List.length_take_le _ _
    by_contra hne
    rcases short_header (lt_of_le_of_ne hle hne) with hneg | hneg
    · exact absurd hneg (not_lt.mpr hoffset)
    · exact absurd hneg (not_lt.mpr hsize)
  have hentry : bytes ++ (toLE offsetSize (-1) ++ toLE sizeSize (-1)).drop bytes.length = bytes := by
    rw [hwhole, List.drop_of_length_le (by simp [headerSize]), List.append_nil]
  rw [hentry] at hoffset hlen hbody
  refine ⟨bytes, hwhole, hoffset, hlen.symm, ?_⟩
  have hjoin : bytes ++ payload = (im.toList.drop position).take (headerSize + payload.length) := by
    rw [← hlen, hwhole, Int.toNat_natCast, Image.read_eq] at hbody
    rw [List.take_add, List.drop_drop, ← hbody, ← Image.read_eq, ← hhead]
  rw [hjoin]
  exact List.take_prefix _ _

variable {s : Segment} {w : World}

/-- What a successful read has found. -/
theorem readAt_inv {target : ℤ} {u : Unit} {payload : Payload} {w' : World}
    (h : s.readAt target w = (.ok u, payload, w')) :
    ∃ relOffset num i, ∃ position : ℕ, s.findEntry (-1) target w = .ok (relOffset, position) ∧
      s.fdRead = .live num i ∧ RecordAt (w.fs.data i).image.toList position payload := by
  unfold readAt at h
  split at h
  · cases h
  · next relOffset relPosition hfind =>
      split_ifs at h
      · cases h
      · split at h
        · cases h
        · next w₁ hseek =>
            have hfs := w.fs_lseek s.fdRead relPosition
            rw [hseek] at hfs
            obtain ⟨hpos, num, i, hfd⟩ : 0 ≤ relPosition ∧ ∃ num i, s.fdRead = .live num i :=
              World.lseek_inv hseek
            obtain ⟨position, rfl⟩ := Int.eq_ofNat_of_zero_le hpos
            refine ⟨relOffset, num, i, position, hfind, hfd, ?_⟩
            rw [hfd, Int.toNat_natCast] at h
            split at h
            · cases h
            · next bytes w₂ hhead =>
                have hfs₂ := (w₁.fs_read (.live num i) position headerSize).trans hfs
                rw [hhead] at hfs₂
                dsimp only at h
                split_ifs at h with hneg
                · cases h
                · split at h
                  · cases h
                  · next body w₃ hbody =>
                      split_ifs at h with hlen
                      · cases h
                      · cases h
                        rw [not_or, not_lt, not_lt] at hneg
                        rw [not_not] at hlen
                        have hhead := World.read_inv hhead
                        have hbody := World.read_inv hbody
                        rw [hfs] at hhead
                        rw [hfs₂] at hbody
                        exact recordAt_of_reads hhead hneg.1 hneg.2 hlen hbody

/-- A read that is OK gives the payload of a record that is whole in the log, and where the index
leads to a header that is cut short nothing is read. -/
theorem reads_whole_records (s : Segment) (target : ℤ) (w : World) :
    ((s.readAt target w).1 = .ok () → ∃ relOffset num i, ∃ position : ℕ,
      s.findEntry (-1) target w = .ok (relOffset, position) ∧ s.fdRead = .live num i ∧
      RecordAt (w.fs.data i).image.toList position (s.readAt target w).2.1) ∧
    ∀ relOffset num i, ∀ position : ℕ, s.findEntry (-1) target w = .ok (relOffset, position) →
      s.fdRead = .live num i → (w.fs.data i).image.size < position + headerSize →
      ∃ e, (s.readAt target w).1 = .error e := by
  rcases hread : s.readAt target w with ⟨_ | _, payload, w'⟩
  · exact ⟨(by rintro ⟨⟩), fun _ _ _ _ _ _ _ => ⟨_, rfl⟩⟩
  · refine ⟨fun _ => readAt_inv hread, ?_⟩
    intro relOffset num i position hfind hfd hshort
    obtain ⟨relOffset', num', i', position', hfind', hfd', header, hlen, -, -, hpre⟩ :=
      readAt_inv hread
    rw [hfind, Except.ok.injEq, Prod.mk.injEq, Nat.cast_inj] at hfind'
    rw [hfd, Desc.live.injEq] at hfd'
    obtain ⟨-, rfl⟩ := hfind'
    obtain ⟨-, rfl⟩ := hfd'
    have hle := hpre.length_le
    have hsize : headerSize = 12 := rfl
    rw [List.length_append, hlen, List.length_drop, Image.length_toList] at hle
    omega

/-- A log with one record, and the same log cut in the header. -/
theorem reads_whole_records_cut :
    let first := (Segment.new ⟨[], []⟩ 0 100).open (World.blank 0)
    let last := first.2.1.write [1, 2] first.2.2
    let cut := (last.2.2.ftruncate last.2.1.fd 11).2
    (∃ position : ℕ, ∃ num i, last.2.1.fdRead = .live num i ∧
      RecordAt (last.2.2.fs.data i).image.toList position [1, 2]) ∧
    ∃ e, (last.2.1.readAt 0 cut).1 = .error e := by
  intro first last cut
  have hok : (last.2.1.readAt 0 last.2.2).1 = .ok () := eq_ok_of_isOk (by decide +kernel)
  have hpay : (last.2.1.readAt 0 last.2.2).2.1 = [1, 2] := by decide +kernel
  constructor
  · obtain ⟨relOffset, num, i, position, -, hfd, hrec⟩ :=
      (reads_whole_records last.2.1 0 last.2.2).1 hok
    rw [hpay] at hrec
    exact ⟨position, num, i, hfd, hrec⟩
  · apply (reads_whole_records last.2.1 0 cut).2 0 5 1 0
    · decide +kernel
    · decide +kernel
    · decide +kernel

end Segment

end MyKafka
