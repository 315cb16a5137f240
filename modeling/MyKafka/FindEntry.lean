import MyKafka.Bisection
import MyKafka.SegmentSpec

/-!
# Direct access to the index

The offsets of a segment are contiguous, so the entry of an offset can be read at its slot instead of
being searched for. The search and the direct access give the same entry, and reading through the one
or the other gives the same answer.
-/

namespace MyKafka

open Posix LittleEndian

namespace Segment

variable {w : World} {s : Segment} {n : ℕ} {positions : ℕ → ℤ}

/-- The index of the segment holds the entries of `n` offsets in a row. -/
structure Contiguous (w : World) (s : Segment) (n : ℕ) (positions : ℕ → ℤ) : Prop where
  next : s.nextOffset - s.index.baseOffset = n
  size : s.index.size = Index.defaultSize
  room : n ≤ 1310720
  offset : ∀ k < n, w.load s.index.addr (8 * k) 4 = some (k : ℤ)
  position : ∀ k < n, w.load s.index.addr (8 * k + 4) 4 = some (positions k)

theorem Contiguous.read (h : Contiguous w s n positions) (k : ℕ) (hk : k < n) :
    s.index.read (k * Index.entryWidth) w = .ok (k + s.index.baseOffset, positions k) := by
  have hroom := h.room
  have hslot : (k : ℤ) * Index.entryWidth = 8 * k := mul_comm _ _
  rw [hslot, Index.read, if_neg, h.offset k hk, show Index.offsetWidth = 4 from rfl, h.position k hk]
  rw [h.size, show Index.entryWidth = 8 from rfl, show Index.defaultSize = 10485760 from rfl]
  omega

/-! ## The slots the search reads -/

/-- What the loop of `findEntry` does at a slot, whatever it read before. -/
def visitEntry (x : Index) (w : World) (pos _relPosition : ℤ) : Except Error (ℤ × ℤ) :=
  match x.read (toInt64 (pos * Index.entryWidth)) w with
  | .error e => .error e
  | .ok (offset, relPosition) => .ok (offset - x.baseOffset, relPosition)

/-- The loop is a bisection, as long as the middle of its interval does not wrap around. -/
theorem findEntryLoop_bisect (x : Index) (target : ℤ) (w : World) (fuel : ℕ) :
    ∀ first last relOffset relPosition : ℤ, 0 ≤ first → last < 2 ^ 62 →
      findEntryLoop x target w fuel first last (middle first last) relOffset relPosition =
        (Bisection.bisect (visitEntry x w) target fuel first last (Int.tdiv (first + last) 2)
          relOffset relPosition).map Prod.fst := by
  induction fuel with
  | zero => exact fun _ _ _ _ _ _ => rfl
  | succ fuel ih =>
      intro first last relOffset relPosition h0 hlast
      rw [findEntryLoop, Bisection.bisect]
      split_ifs with hcond
      · obtain ⟨hlo, hhi⟩ := Bisection.midpoint h0 hcond.1
        rw [middle_of_range h0 hcond.1 hlast]
        generalize Int.tdiv (first + last) 2 = pos at hlo hhi ⊢
        unfold visitEntry
        rcases x.read (toInt64 (pos * Index.entryWidth)) w with e | ⟨offset, relPosition'⟩
        · rfl
        · dsimp only
          split_ifs
          · rw [ih _ _ _ _ h0 (by omega), Option.map_map]
            rfl
          · rw [ih _ _ _ _ (by omega) hlast, Option.map_map]
            rfl
      · rfl

/-- The search of `findEntry` with the slots it reads. -/
def entrySearch (s : Segment) (relPosition searchOffset : ℤ) (w : World) :
    Option (Except Error (ℤ × ℤ) × List ℤ) :=
  let last := toInt64 (s.nextOffset - s.index.baseOffset - 1)
  Bisection.bisect (visitEntry s.index w) searchOffset (last.toNat + 2) 0 last
    (Int.tdiv (0 + last) 2) (-1) relPosition

/-! ## Direct access -/

/-- The entry of an offset, read at its slot. -/
def directEntry (s : Segment) (searchOffset : ℤ) (w : World) : Result (ℤ × ℤ) :=
  if 0 ≤ searchOffset ∧ searchOffset < s.nextOffset - s.index.baseOffset then
    match s.index.read (searchOffset * Index.entryWidth) w with
    | .error e => .error e
    | .ok (offset, relPosition) => .ok (offset - s.index.baseOffset, relPosition)
  else .ok (-1, -1)

/-- `readAt` with the entry given to it. -/
def readAtEntry (s : Segment) (entry : Result (ℤ × ℤ)) (relativeOffset : ℤ) (w : World) :
    Result Unit × Payload × World :=
  match entry with
  | .error e => (.error e, [], w)
  | .ok (relOffset, relPosition) =>
    if relOffset = -1 ∨ relPosition = -1 then
      (Utils.err .logError ("Can't find offset " ++ toString relativeOffset ++
        s.logText " when reading log "), [], w)
    else
      match w.lseek s.fdRead relPosition with
      | (false, w) =>
        (Utils.err .logError ("Can't seek at " ++ toString relPosition ++
          s.logText " in payload when reading " ++ " because: "), [], w)
      | (true, w) =>
        match w.read s.fdRead relPosition.toNat headerSize with
        | (none, w) =>
          (Utils.err .logError (s.logText "Can't read offset/size from log " ++ " because: "),
            [], w)
        | (some bytes, w) =>
          let entry := bytes ++ (toLE offsetSize (-1) ++ toLE sizeSize (-1)).drop bytes.length
          let entryOffset := fromLE (entry.take offsetSize)
          let entrySize := fromLE (entry.drop offsetSize)
          if entryOffset < 0 ∨ entrySize < 0 then
            (Utils.err .logError (s.logText "Can't read offset/size from log " ++ " because: "),
              [], w)
          else
            match w.read s.fdRead (relPosition.toNat + bytes.length) entrySize.toNat with
            | (none, w) =>
              (Utils.err .logError (s.logText "Can't read payload from log " ++ "! (-1 != " ++
                toString entrySize ++ ") error is: "), List.replicate entrySize.toNat 0, w)
            | (some payload, w) =>
              if (payload.length : ℤ) ≠ entrySize then
                (Utils.err .logError (s.logText "Can't read payload from log " ++ "! (" ++
                  toString payload.length ++ " != " ++ toString entrySize ++ ") error is: "),
                  payload ++ List.replicate (entrySize.toNat - payload.length) 0, w)
              else (.ok (), payload, w)

theorem readAt_eq (s : Segment) (relativeOffset : ℤ) (w : World) :
    s.readAt relativeOffset w =
      s.readAtEntry (s.findEntry (-1) relativeOffset w) relativeOffset w := rfl

theorem Contiguous.directEntry (h : Contiguous w s n positions) (target : ℤ) :
    s.directEntry target w =
      .ok (if 0 ≤ target ∧ target < n then (target, positions target.toNat) else (-1, -1)) := by
  unfold Segment.directEntry
  rw [h.next]
  split_ifs with hrange
  · obtain ⟨k, rfl⟩ := Int.eq_ofNat_of_zero_le hrange.1
    rw [h.read k (by omega)]
    dsimp only
    rw [Int.add_sub_cancel]
    rfl
  · rfl

/-- The search finds the entry of every stored offset and answers `-1` for every other one, reads no
slot behind the last entry, and can be replaced by the direct access. -/
theorem findEntry_direct (h : Contiguous w s n positions) (target : ℤ) :
    (∀ relPosition, ∃ p, s.findEntry relPosition target w =
      .ok (if 0 ≤ target ∧ target < n then (target, positions target.toNat) else (-1, p))) ∧
    (∀ relPosition, ∃ res slots, s.entrySearch relPosition target w = some (res, slots) ∧
      findEntryLoop s.index target w (((n : ℤ) - 1).toNat + 2) 0 (n - 1) (middle 0 (n - 1)) (-1)
        relPosition = some res ∧
      ∀ slot ∈ slots, 0 ≤ slot ∧ slot < n) ∧
    s.readAt target w = s.readAtEntry (s.directEntry target w) target w := by
  refine ⟨fun relPosition => ?_, fun relPosition => ?_, ?_⟩
  · obtain ⟨p, hfind, -⟩ := findEntry_entries h.room h.read h.next relPosition target
    exact ⟨p, hfind⟩
  · obtain ⟨res, slots, hsearch, hin⟩ : ∃ res slots,
        s.entrySearch relPosition target w = some (res, slots) ∧
          ∀ slot ∈ slots, 0 ≤ slot ∧ slot ≤ toInt64 (s.nextOffset - s.index.baseOffset - 1) := by
      apply Bisection.bisect_ends
      · omega
      · exact le_rfl
    have hroom := h.room
    have hlast : toInt64 ((n : ℤ) - 1) = n - 1 := toInt64_of_range (by omega) (by omega)
    rw [h.next, hlast] at hin
    refine ⟨res, slots, hsearch, ?_, fun slot hslot => ?_⟩
    · rw [entrySearch, h.next, hlast] at hsearch
      rw [findEntryLoop_bisect _ _ _ _ _ _ _ _ le_rfl (by omega), hsearch]
      rfl
    · have := hin slot hslot
      omega
  · obtain ⟨p, hfind, hp⟩ := findEntry_entries h.room h.read h.next (-1) target
    rw [readAt_eq, hfind, h.directEntry, hp rfl]

/-- Two messages after offset 5. -/
theorem findEntry_direct_two :
    let opened := (Segment.new ⟨[], []⟩ 5 100).open (World.blank 0)
    let first := opened.2.1.write [7] opened.2.2
    let second := first.2.1.write [8, 9] first.2.2
    (∀ relPosition, ∃ p, second.2.1.findEntry relPosition 1 second.2.2 =
      .ok (if 0 ≤ (1 : ℤ) ∧ (1 : ℤ) < (2 : ℕ) then (1, 13) else (-1, p))) ∧
    (∀ relPosition, ∃ res slots, second.2.1.entrySearch relPosition 1 second.2.2 =
        some (res, slots) ∧
      findEntryLoop second.2.1.index 1 second.2.2 ((((2 : ℕ) : ℤ) - 1).toNat + 2) 0 ((2 : ℕ) - 1)
        (middle 0 ((2 : ℕ) - 1)) (-1) relPosition = some res ∧
      ∀ slot ∈ slots, 0 ≤ slot ∧ slot < (2 : ℕ)) ∧
    second.2.1.readAt 1 second.2.2 =
      second.2.1.readAtEntry (second.2.1.directEntry 1 second.2.2) 1 second.2.2 := by
  intro opened first second
  have hcontiguous : Contiguous second.2.2 second.2.1 2 (fun k => 13 * k) :=
    ⟨by decide +kernel, by decide +kernel, by norm_num, by decide +kernel, by decide +kernel⟩
  exact findEntry_direct hcontiguous 1

end Segment

end MyKafka
