import Mathlib.Tactic

/-!
# Decimal numerals

`decimal` and `decimalInt` write a number the way `std::to_string` and `printf` do, `padded` the
way a zero-padded field does, and `leadingInt` reads the longest numeral a string starts with the
way `strtol` does, white space and a sign first.
-/

namespace Decimal

def digit (d : ℕ) : Char := Char.ofNat (48 + d)

def digitsFuel : ℕ → ℕ → List Char
  | 0, _ => []
  | fuel + 1, n => if n < 10 then [digit n] else digitsFuel fuel (n / 10) ++ [digit (n % 10)]

/-- The numeral of `n`, without leading zeros. -/
def decimal (n : ℕ) : List Char := digitsFuel (n + 1) n

def decimalInt (z : ℤ) : List Char :=
  if z < 0 then '-' :: decimal z.natAbs else decimal z.natAbs

/-- The numeral of `n` in a field of `width` characters filled with zeros. -/
def padded (width n : ℕ) : List Char :=
  List.replicate (width - (decimal n).length) '0' ++ decimal n

def isDigit (c : Char) : Bool := decide (48 ≤ c.toNat ∧ c.toNat ≤ 57)

def isSpace (c : Char) : Bool := decide (c.toNat = 32 ∨ (9 ≤ c.toNat ∧ c.toNat ≤ 13))

/-- The value of the digits a string starts with, `acc` being the value of those before. -/
def digitsValue : ℕ → List Char → ℕ
  | acc, [] => acc
  | acc, c :: cs => if isDigit c then digitsValue (acc * 10 + (c.toNat - 48)) cs else acc

/-- The integer a string starts with: white space, a sign, then digits; 0 if there is none. -/
def leadingInt (s : List Char) : ℤ :=
  match s.dropWhile isSpace with
  | '-' :: cs => -(digitsValue 0 cs)
  | '+' :: cs => digitsValue 0 cs
  | cs => digitsValue 0 cs

/-! ## Reading numerals back -/

/-- Only digits. -/
def Numeral (s : List Char) : Prop := ∀ c ∈ s, isDigit c = true

theorem toNat_digit {d : ℕ} (h : d < 10) : (digit d).toNat = 48 + d := by
  interval_cases d <;> rfl

theorem isDigit_digit {d : ℕ} (h : d < 10) : isDigit (digit d) = true := by
  rw [isDigit, toNat_digit h, decide_eq_true_eq]
  omega

theorem numeral_append {s t : List Char} (hs : Numeral s) (ht : Numeral t) : Numeral (s ++ t) := by
  intro c hc
  rcases List.mem_append.mp hc with hc | hc
  · exact hs c hc
  · exact ht c hc

theorem numeral_digit {d : ℕ} (h : d < 10) : Numeral [digit d] := by
  intro c hc
  rw [List.mem_singleton.mp hc]
  exact isDigit_digit h

theorem numeral_digitsFuel (fuel n : ℕ) : Numeral (digitsFuel fuel n) := by
  induction fuel generalizing n with
  | zero => simp [Numeral, digitsFuel]
  | succ fuel ih =>
      rw [digitsFuel]
      split_ifs with h
      · exact numeral_digit h
      · exact numeral_append (ih _) (numeral_digit (Nat.mod_lt _ (by omega)))

theorem numeral_decimal (n : ℕ) : Numeral (decimal n) := numeral_digitsFuel _ _

theorem numeral_zeros (k : ℕ) : Numeral (List.replicate k '0') := by
  intro c hc
  rw [List.eq_of_mem_replicate hc]
  rfl

theorem numeral_padded (width n : ℕ) : Numeral (padded width n) :=
  numeral_append (numeral_zeros _) (numeral_decimal n)

theorem digitsValue_append {s : List Char} (hs : Numeral s) (acc : ℕ) (t : List Char) :
    digitsValue acc (s ++ t) = digitsValue (digitsValue acc s) t := by
  induction s generalizing acc with
  | nil => rfl
  | cons c s ih =>
      have hc := hs c List.mem_cons_self
      rw [List.cons_append, digitsValue, if_pos hc, digitsValue, if_pos hc]
      exact ih (fun d hd => hs d (List.mem_cons_of_mem c hd)) _

theorem digitsValue_digit (acc : ℕ) {d : ℕ} (h : d < 10) :
    digitsValue acc [digit d] = acc * 10 + d := by
  rw [digitsValue, if_pos (isDigit_digit h), toNat_digit h, digitsValue]
  omega

theorem digitsValue_digitsFuel {fuel n : ℕ} (h : n < fuel) :
    digitsValue 0 (digitsFuel fuel n) = n := by
  induction fuel generalizing n with
  | zero => cases h
  | succ fuel ih =>
      rw [digitsFuel]
      split_ifs with hn
      · rw [digitsValue_digit 0 hn]
        omega
      · rw [digitsValue_append (numeral_digitsFuel _ _), ih (by omega),
          digitsValue_digit _ (Nat.mod_lt _ (by omega))]
        omega

theorem digitsValue_decimal (n : ℕ) : digitsValue 0 (decimal n) = n :=
  digitsValue_digitsFuel (Nat.lt_succ_self n)

theorem digitsValue_zeros (k : ℕ) : digitsValue 0 (List.replicate k '0') = 0 := by
  induction k with
  | zero => rfl
  | succ k ih =>
      rw [List.replicate_succ, digitsValue, if_pos (by rfl)]
      exact ih

theorem digitsValue_padded (width n : ℕ) : digitsValue 0 (padded width n) = n := by
  rw [padded, digitsValue_append (numeral_zeros _), digitsValue_zeros, digitsValue_decimal]

theorem leadingInt_numeral {s : List Char} (hs : Numeral s) : leadingInt s = digitsValue 0 s := by
  cases s with
  | nil => rfl
  | cons c cs =>
      have hc := hs c List.mem_cons_self
      rw [isDigit, decide_eq_true_eq] at hc
      have hspace : isSpace c = false := by
        rw [isSpace, decide_eq_false_iff_not]
        omega
      have hminus : c ≠ '-' := by
        rintro rfl
        simp at hc
      have hplus : c ≠ '+' := by
        rintro rfl
        simp at hc
      unfold leadingInt
      rw [List.dropWhile_cons_of_neg (by simp [hspace])]
      split
      · next h => exact absurd (List.cons.inj h).1 hminus
      · next h => exact absurd (List.cons.inj h).1 hplus
      · rfl

end Decimal
