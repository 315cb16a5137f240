import Mathlib.Algebra.BigOperators.Group.List.Basic
import MyKafka.SegmentOpen

/-!
# The cursor of a rebuild

A size whose bytes are not all there is negative, so a log that ends within a header sends the
cursor back into records it has already passed. Where it goes depends on the bytes of the log alone:
a rebuild that ends never comes to one place twice.
-/

namespace MyKafka

open Posix LittleEndian Log Segment

/-- The headers a rebuild reads from `q` on, one after the other, and where it stops. -/
inductive Visits (log : List UInt8) : ℕ → List ℕ → ℤ → Prop
  | past {q : ℕ} (h : log.length ≤ q) : Visits log q [] q
  | out {q : ℕ} (h : q + offsetSize < log.length) (hneg : landing log q < 0) :
    Visits log q [q] (landing log q)
  | on {q q' : ℕ} {l : List ℕ} {stop : ℤ} (h : q + offsetSize < log.length)
    (hland : landing log q = q') (hrest : Visits log q' l stop) : Visits log q (q :: l) stop

theorem sizeField_range (log : List UInt8) (q : ℕ) :
    -2 ^ 31 ≤ sizeField log q ∧ sizeField log q < 2 ^ 31 := by
  have hlen : ((log.drop (q + offsetSize)).take sizeSize ++
      (toLE sizeSize (-1)).drop ((log.drop (q + offsetSize)).take sizeSize).length).length = 4 := by
    rw [List.length_append, List.length_drop, length_toLE, show sizeSize = 4 from rfl]
    have := List.length_take_le 4 (log.drop (q + offsetSize))
    omega
  rw [sizeField, overlay, fromLE, hlen]
  constructor
  · exact Int.le_bmod (by norm_num)
  · exact Int.bmod_lt (by norm_num)

/-- The bytes that the header at `q` lacks. -/
def lacking (log : List UInt8) (q : ℕ) : ℕ := headerSize - min headerSize (log.length - q)

/-- How far the position runs ahead of the cursor after the headers `l`. -/
def drift (log : List UInt8) (l : List ℕ) : ℕ := (l.map (lacking log)).sum

namespace Visits

variable {log : List UInt8} {q : ℕ} {l l' : List ℕ} {stop stop' : ℤ}

theorem unique (h : Visits log q l stop) (h' : Visits log q l' stop') : l = l' ∧ stop = stop' := by
  induction h generalizing l' stop' with
  | past hq =>
      cases h' with
      | past => exact ⟨rfl, rfl⟩
      | out hq' => omega
      | on hq' => omega
  | out hq hneg =>
      cases h' with
      | past hq' => omega
      | out => exact ⟨rfl, rfl⟩
      | on hq' hland => omega
  | on hq hland _ ih =>
      cases h' with
      | past hq' => omega
      | out hq' hneg => omega
      | on hq' hland' hrest' =>
          obtain rfl := Int.ofNat_inj.mp (hland.symm.trans hland')
          obtain ⟨rfl, rfl⟩ := ih hrest'
          exact ⟨rfl, rfl⟩

theorem lt (h : Visits log q l stop) : ∀ x ∈ l, x + offsetSize < log.length := by
  induction h with
  | past => simp
  | out hq => simpa using hq
  | on hq _ _ ih => simpa using ⟨hq, ih⟩

/-- From a header it comes to, a rebuild goes on as one that starts there. -/
theorem from_mem (h : Visits log q l stop) {x : ℕ} (hx : x ∈ l) :
    ∃ l₂, Visits log x l₂ stop ∧ l₂.length ≤ l.length := by
  induction h with
  | past => cases hx
  | out hq hneg =>
      obtain rfl := List.mem_singleton.mp hx
      exact ⟨_, .out hq hneg, le_rfl⟩
  | on hq hland hrest ih =>
      rcases List.mem_cons.mp hx with rfl | hx
      · exact ⟨_, .on hq hland hrest, le_rfl⟩
      · obtain ⟨l₂, h₂, hle⟩ := ih hx
        exact ⟨l₂, h₂, hle.trans (Nat.le_succ _)⟩

/-- A rebuild that came to a header again would go round for ever. -/
theorem nodup (h : Visits log q l stop) : l.Nodup := by
  induction h with
  | past => exact List.nodup_nil
  | out => exact List.nodup_singleton _
  | on hq hland hrest ih =>
      refine List.nodup_cons.mpr ⟨fun hmem => ?_, ih⟩
      obtain ⟨l₂, h₂, hle⟩ := hrest.from_mem hmem
      obtain ⟨rfl, -⟩ := h₂.unique (.on hq hland hrest)
      simp at hle

theorem length_le (h : Visits log q l stop) : l.length ≤ log.length - offsetSize := by
  have hsub : l.toFinset ⊆ Finset.range (log.length - offsetSize) := by
    intro x hx
    have := h.lt x (List.mem_toFinset.mp hx)
    exact Finset.mem_range.mpr (by omega)
  have hcard := Finset.card_le_card hsub
  rwa [List.toFinset_card_of_nodup h.nodup, Finset.card_range] at hcard

/-- Only the last three places at which a size can be read in part lack anything. -/
theorem drift_le (h : Visits log q l stop) : drift log l ≤ 6 := by
  have hnodup : (l.map (log.length - ·)).Nodup := by
    refine List.Nodup.map_on (fun x hx y hy hxy => ?_) h.nodup
    have := h.lt x hx
    have := h.lt y hy
    omega
  have hsum : drift log l = ∑ r ∈ (l.map (log.length - ·)).toFinset, (12 - min 12 r) := by
    rw [List.sum_toFinset _ hnodup, List.map_map]
    rfl
  have hle : ∑ r ∈ (l.map (log.length - ·)).toFinset, (12 - min 12 r) ≤
      ∑ r ∈ Finset.Ioo 8 12, (12 - min 12 r) := by
    refine Finset.sum_le_sum_of_ne_zero (fun r hr hne => ?_)
    obtain ⟨x, hx, rfl⟩ := List.mem_map.mp (List.mem_toFinset.mp hr)
    have := h.lt x hx
    rw [show offsetSize = 8 from rfl] at this
    exact Finset.mem_Ioo.mpr (by omega)
  rw [hsum]
  exact hle.trans (by decide)

theorem drift_prefix (h : Visits log q (l ++ l') stop) : drift log l ≤ 6 := by
  have := h.drift_le
  rw [drift, List.map_append, List.sum_append] at this
  rw [drift]
  omega

theorem drift_pos {x : ℕ} (hx : x ∈ l) (hcut : log.length < x + headerSize) : 0 < drift log l := by
  have hle : lacking log x ≤ drift log l :=
    List.single_le_sum (fun _ _ => Nat.zero_le _) _ (List.mem_map_of_mem hx)
  rw [lacking, show headerSize = 12 from rfl] at hle
  rw [show headerSize = 12 from rfl] at hcut
  omega

theorem stop_out (h : Visits log q l stop) (hq : q < log.length + 2 ^ 31) :
    (-2 ^ 31 ≤ stop ∧ stop < 0) ∨ (log.length ≤ stop ∧ stop < log.length + 2 ^ 31) := by
  induction h with
  | past hle => exact Or.inr ⟨by omega, by omega⟩
  | @out q hlt hneg =>
      obtain ⟨hlo, -⟩ := sizeField_range log q
      refine Or.inl ⟨?_, hneg⟩
      rw [landing]
      omega
  | @on q q' _ _ hlt hland _ ih =>
      obtain ⟨-, hhi⟩ := sizeField_range log q
      refine ih ?_
      rw [landing] at hland
      omega

/-- Over complete records the cursor goes from one to the next. -/
theorem records {pre post : List UInt8} {offset : ℤ} {ms : List Payload}
    (hms : ∀ m ∈ ms, m.length < 2 ^ 31)
    (h : Visits (pre ++ (encode offset ms ++ post)) pre.length l stop) :
    ∃ l', Visits (pre ++ (encode offset ms ++ post)) (pre.length + logSize ms) l' stop ∧ l' ⊆ l := by
  induction ms generalizing pre offset l with
  | nil => exact ⟨l, h, fun _ hx => hx⟩
  | cons m ms ih =>
      have hland := landing_at pre (m ++ (encode (offset + 1) ms ++ post)) offset
        (hms m List.mem_cons_self)
      have hlog : pre ++ (encode offset (m :: ms) ++ post) =
          pre ++ (toLE 8 offset ++ (toLE 4 m.length ++ (m ++ (encode (offset + 1) ms ++ post)))) := by
        simp only [encode, record, List.append_assoc]
      rw [← hlog] at hland
      cases h with
      | past hq =>
          simp only [List.length_append, length_encode, logSize] at hq
          omega
      | out _ hneg => omega
      | on hq hland' hrest =>
          obtain rfl := Int.ofNat_inj.mp (hland.symm.trans hland')
          have hsplit : pre ++ (encode offset (m :: ms) ++ post) =
              (pre ++ record offset m) ++ (encode (offset + 1) ms ++ post) := by
            simp only [encode, List.append_assoc]
          have hlen : pre.length + (12 + m.length) = (pre ++ record offset m).length := by
            rw [List.length_append, length_record]
          rw [hsplit, hlen] at hrest
          obtain ⟨l', hl', hsub⟩ := ih (fun m' hm' => hms m' (List.mem_cons_of_mem m hm')) hrest
          rw [← hsplit, ← hlen, Nat.add_assoc] at hl'
          exact ⟨l', hl', fun x hx => List.mem_cons_of_mem _ (hsub hx)⟩

end Visits

namespace Segment

variable {s s' : Segment} {w w' : World} {i j n q fuel : ℕ} {log : List UInt8} {u : Unit}

/-- The entry that a rebuild has left in slot `k`: an old one, or the position at a header it came to. -/
def Slot (log : List UInt8) (start : ℤ) (l : List ℕ) (old new : Image) (k : ℕ) : Prop :=
  new.load (8 * k + 4) 4 = old.load (8 * k + 4) 4 ∨
    ∃ (l₁ : List ℕ) (x : ℕ) (l₂ : List ℕ), l = l₁ ++ x :: l₂ ∧
      new.load (8 * k + 4) 4 = toInt32 (start + x + drift log l₁)

/-- The turn at the header at `q` writes slot `n`. -/
theorem Slot.turn {im : Image} (hn : 8 * n + 8 ≤ im.size) (log : List UInt8) (q : ℕ)
    (start offset : ℤ) (l : List ℕ) (k : ℕ) :
    Slot log start (q :: l) im (Index.stored im (8 * n) offset (toInt32 (start + q))) k := by
  by_cases hk : k = n
  · subst hk
    refine Or.inr ⟨[], q, l, rfl, ?_⟩
    rw [Index.load_stored_position hn, Index.toInt32_toInt32]
    simp [drift]
  · left
    exact Index.load_stored_disjoint (by omega) _ _

theorem Slot.cons {start : ℤ} {l : List ℕ} {old mid new : Image} {k : ℕ}
    (h : Slot log start (q :: l) old mid k) (h' : Slot log (start + lacking log q) l mid new k) :
    Slot log start (q :: l) old new k := by
  rcases h' with hsame | ⟨l₁, x, l₂, rfl, hload⟩
  · rw [Slot, hsame]
    exact h
  · refine Or.inr ⟨q :: l₁, x, l₂, rfl, hload.trans (congrArg toInt32 ?_)⟩
    rw [drift, drift, List.map_cons, List.sum_cons]
    push_cast
    ring

theorem write_slot (haddr : s.index.addr = .mapped j) (hsize : s.index.size = 10485760)
    (hfile : (w.fs.data j).image.size = 10485760) (hn : s.index.position = 8 * n)
    (hroom : s.index.position < s.index.size) (log : List UInt8) (q : ℕ) :
    ∃ d, s.index.write (offsetField log q) s.position w =
        (.ok (), { s.index with position := s.index.position + 8 },
          { w with fs := w.fs.setData j d }) ∧ d.image.size = 10485760 ∧
      ∀ l k, Slot log (s.position - q) (q :: l) (w.fs.data j).image d.image k := by
  have hx := Index.write_mapped haddr (w := w) (by omega) hroom (offsetField log q) s.position
  have hto : s.index.position.toNat = 8 * n := by omega
  refine ⟨_, hx, hfile, fun l k => ?_⟩
  have hslot := Slot.turn (show 8 * n + 8 ≤ (w.fs.data j).image.size by omega) log q
    (s.position - q) (toInt32 (offsetField log q - s.index.baseOffset)) l k
  rwa [sub_add_cancel, ← hto] at hslot

/-- What a rebuild that ends leaves. -/
theorem reconstructLoop_visits (hw : w.Calm) (hij : i ≠ j) (hfd : ∃ num, s.fd = .live num i)
    (haddr : s.index.addr = .mapped j) (hsize : s.index.size = 10485760)
    (hfile : (w.fs.data j).image.size = 10485760) (hn : s.index.position = 8 * n)
    (hlog : (w.fs.data i).image.toList = log)
    (h : reconstructLoop fuel s q w = some (.ok u, s', w')) :
    ∃ l stop d, Visits log q l stop ∧ s'.position = s.position - q + stop + drift log l ∧
      s'.index = { s.index with position := 8 * (n + l.length : ℕ) } ∧ s'.fd = s.fd ∧
      s'.fdRead = s.fdRead ∧ w' = { w with fs := w.fs.setData j d } ∧ d.image.size = 10485760 ∧
      ∀ k, Slot log (s.position - q) l (w.fs.data j).image d.image k := by
  induction fuel generalizing s w q n with
  | zero => cases h
  | succ fuel ih =>
      by_cases hpast : log.length ≤ q
      · rw [reconstructLoop_over hw hfd hlog hpast] at h
        obtain ⟨-, rfl, rfl⟩ := by simpa only [Option.some.injEq, Prod.mk.injEq] using h
        refine ⟨[], q, w.fs.data j, .past hpast, by simp [drift], ?_, rfl, rfl,
          by simp [FileSystem.setData], hfile, fun k => Or.inl rfl⟩
        simp only [List.length_nil, Nat.add_zero]
        rw [← hn]
      by_cases hcut : log.length ≤ q + offsetSize
      · obtain ⟨e, offset, herr⟩ := reconstructLoop_cut hw hfd hlog (by omega) hcut fuel
        rw [herr] at h
        cases h
      by_cases hfull : s.index.size ≤ s.index.position
      · obtain ⟨e, hx⟩ := Index.write_refused hfull (offsetField log q) s.position w
        rw [reconstructLoop_header hw hfd hlog (by omega), hx] at h
        cases h
      obtain ⟨d₁, hx, hfile₁, hturn⟩ := write_slot haddr hsize hfile hn (not_le.mp hfull) log q
      have hdrift : (q : ℤ) + 12 + sizeField log q = landing log q + lacking log q := by
        rw [landing, lacking, show headerSize = 12 from rfl]
        omega
      rw [reconstructLoop_turn hw hfd hlog (by omega) hx hw] at h
      split_ifs at h with hneg
      · obtain ⟨-, rfl, rfl⟩ := by simpa only [Option.some.injEq, Prod.mk.injEq] using h
        refine ⟨[q], landing log q, d₁, .out (by omega) hneg, ?_, ?_, rfl, rfl, rfl, hfile₁,
          hturn []⟩
        · simp only [advance, drift, List.map_cons, List.map_nil, List.sum_cons, List.sum_nil]
          omega
        · simp only [advance, List.length_singleton, hn]
          push_cast
          ring_nf
      · obtain ⟨q', hq'⟩ := Int.eq_ofNat_of_zero_le (not_lt.mp hneg)
        rw [hq', Int.toNat_natCast] at h
        have hlog₁ : ((w.fs.setData j d₁).data i).image.toList = log := by
          rw [FileSystem.data_setData_ne _ _ hij, hlog]
        obtain ⟨l, stop, d, hl, hpos, hindex, hfd', hread', hw', hd, hslots⟩ := ih
          (s := s.advance { s.index with position := s.index.position + 8 } (offsetField log q)
            (sizeField log q))
          (w := { w with fs := w.fs.setData j d₁ }) (n := n + 1) hw hfd haddr hsize
          (by rw [FileSystem.data_setData_same]; exact hfile₁)
          (by simp only [advance]; omega) hlog₁ h
        have hstart : (s.advance { s.index with position := s.index.position + 8 }
            (offsetField log q) (sizeField log q)).position - (q' : ℤ) =
              s.position - q + lacking log q := by
          simp only [advance]
          omega
        refine ⟨q :: l, stop, d, .on (by omega) hq' hl, ?_, ?_, hfd', hread', ?_, hd, ?_⟩
        · rw [hpos, hstart, drift, drift, List.map_cons, List.sum_cons]
          push_cast
          ring
        · rw [hindex, List.length_cons]
          simp only [advance]
          congr 2
          omega
        · rw [hw', FileSystem.setData_setData]
        · intro k
          have hrest := hslots k
          rw [FileSystem.data_setData_same, hstart] at hrest
          exact (hturn l k).cons hrest

end Segment
end MyKafka
