import Mathlib.Tactic

/-!
# Bisection

A search over the positions from `first` to `last` that looks at the middle, narrows the interval to
one side of it, and stops when the interval is empty or the key just seen is the one searched for.
`bisect` gives the last key and the state with the positions it looked at.
-/

namespace Bisection

variable {ε σ : Type*}

/-- `visit pos s` looks at a position: it gives the key there and the next state. The result is
`none` when the fuel is spent before the search ends. -/
def bisect (visit : ℤ → σ → Except ε (ℤ × σ)) (target : ℤ) :
    ℕ → ℤ → ℤ → ℤ → ℤ → σ → Option (Except ε (ℤ × σ) × List ℤ)
  | 0, _, _, _, _, _ => none
  | fuel + 1, first, last, pos, key, s =>
    if first ≤ last ∧ key ≠ target then
      match visit pos s with
      | .error e => some (.error e, [pos])
      | .ok (key, s) =>
        if target < key then
          (bisect visit target fuel first (pos - 1) (Int.tdiv (first + (pos - 1)) 2) key s).map
            (Prod.map id (pos :: ·))
        else
          (bisect visit target fuel (pos + 1) last (Int.tdiv (pos + 1 + last) 2) key s).map
            (Prod.map id (pos :: ·))
    else some (.ok (key, s), [])

theorem midpoint {first last : ℤ} (h0 : 0 ≤ first) (h : first ≤ last) :
    first ≤ Int.tdiv (first + last) 2 ∧ Int.tdiv (first + last) 2 ≤ last := by
  rw [Int.tdiv_eq_ediv_of_nonneg (by omega)]
  omega

variable {visit : ℤ → σ → Except ε (ℤ × σ)} {target : ℤ}

/-- The search ends, and looks only at positions of the interval, whatever it sees there. -/
theorem bisect_ends {fuel : ℕ} : ∀ (first last key : ℤ) (s : σ),
    (last + 1 - first).toNat < fuel → 0 ≤ first →
    ∃ res visited, bisect visit target fuel first last (Int.tdiv (first + last) 2) key s =
      some (res, visited) ∧ ∀ pos ∈ visited, first ≤ pos ∧ pos ≤ last := by
  induction fuel with
  | zero => intro first last key s hfuel; omega
  | succ fuel ih =>
      intro first last key s hfuel h0
      rw [bisect]
      split_ifs with hcond
      · obtain ⟨hlo, hhi⟩ := midpoint h0 hcond.1
        generalize Int.tdiv (first + last) 2 = mid at hlo hhi ⊢
        rcases visit mid s with e | ⟨key', s'⟩
        · refine ⟨_, _, rfl, fun pos hpos => ?_⟩
          rw [List.mem_singleton.mp hpos]
          exact ⟨hlo, hhi⟩
        · dsimp only
          split_ifs with hbefore
          · obtain ⟨res, visited, hrest, hin⟩ := ih first (mid - 1) key' s' (by omega) h0
            refine ⟨res, mid :: visited, by rw [hrest]; rfl, fun pos hpos => ?_⟩
            rcases List.mem_cons.mp hpos with rfl | hpos
            · exact ⟨hlo, hhi⟩
            · have := hin pos hpos
              omega
          · obtain ⟨res, visited, hrest, hin⟩ := ih (mid + 1) last key' s' (by omega) (by omega)
            refine ⟨res, mid :: visited, by rw [hrest]; rfl, fun pos hpos => ?_⟩
            rcases List.mem_cons.mp hpos with rfl | hpos
            · exact ⟨hlo, hhi⟩
            · have := hin pos hpos
              omega
      · exact ⟨_, _, rfl, List.forall_mem_nil _⟩

end Bisection
