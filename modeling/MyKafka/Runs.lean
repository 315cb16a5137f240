import Mathlib.Data.List.Basic
import Mathlib.Tactic

/-!
# Runs of a machine

A machine takes an input to an answer and a new state. A run is its steps on a list of inputs; what
every step keeps, a run keeps, and a machine each of whose steps is a step of a relation has only
runs that are traces of that relation.
-/

namespace Runs

variable {σ τ ι α : Type*} {step : σ → ι → α × σ} {s : σ}

def final (step : σ → ι → α × σ) : σ → List ι → σ
  | s, [] => s
  | s, x :: xs => final step (step s x).2 xs

/-- The inputs of a run with their answers. -/
def trace (step : σ → ι → α × σ) : σ → List ι → List (ι × α)
  | _, [] => []
  | s, x :: xs => (x, (step s x).1) :: trace step (step s x).2 xs

/-- A condition that every step of a run meets in the state it is taken from. -/
def Always (step : σ → ι → α × σ) (ok : σ → ι → Prop) : σ → List ι → Prop
  | _, [] => True
  | s, x :: xs => ok s x ∧ Always step ok (step s x).2 xs

instance decidableAlways {ok : σ → ι → Prop} [∀ s x, Decidable (ok s x)] :
    (s : σ) → (xs : List ι) → Decidable (Always step ok s xs)
  | _, [] => isTrue trivial
  | s, x :: xs =>
    @instDecidableAnd (ok s x) (Always step ok (step s x).2 xs) _ (decidableAlways _ xs)

@[simp] theorem final_append (s : σ) (xs ys : List ι) :
    final step s (xs ++ ys) = final step (final step s xs) ys := by
  induction xs generalizing s with
  | nil => rfl
  | cons x xs ih => rw [List.cons_append, final, ih, final]

@[simp] theorem trace_append (s : σ) (xs ys : List ι) :
    trace step s (xs ++ ys) = trace step s xs ++ trace step (final step s xs) ys := by
  induction xs generalizing s with
  | nil => rfl
  | cons x xs ih => rw [List.cons_append, trace, ih, trace, final, List.cons_append]

theorem map_fst_trace (s : σ) (xs : List ι) : (trace step s xs).map Prod.fst = xs := by
  induction xs generalizing s with
  | nil => rfl
  | cons x xs ih => rw [trace, List.map_cons, ih]

theorem always_append {ok : σ → ι → Prop} (xs ys : List ι) :
    Always step ok s (xs ++ ys) ↔ Always step ok s xs ∧ Always step ok (final step s xs) ys := by
  induction xs generalizing s with
  | nil => simp [Always, final]
  | cons x xs ih => rw [List.cons_append, Always, Always, ih, final, and_assoc]

/-- What holds of the first state and survives every step holds of the last one. -/
theorem invariant {P : σ → Prop} {ok : σ → ι → Prop}
    (hstep : ∀ s x, P s → ok s x → P (step s x).2) {xs : List ι} (hs : P s)
    (hok : Always step ok s xs) : P (final step s xs) := by
  induction xs generalizing s with
  | nil => exact hs
  | cons x xs ih => exact ih (hstep s x hs hok.1) hok.2

theorem always_mono {ok ok' : σ → ι → Prop} (h : ∀ s x, ok s x → ok' s x) {xs : List ι}
    (hok : Always step ok s xs) : Always step ok' s xs := by
  induction xs generalizing s with
  | nil => trivial
  | cons x xs ih => exact ⟨h s x hok.1, ih hok.2⟩

theorem always_inputs {p : ι → Prop} {xs : List ι} (h : ∀ x ∈ xs, p x) :
    Always step (fun _ x => p x) s xs := by
  induction xs generalizing s with
  | nil => trivial
  | cons x xs ih => exact ⟨h x (by simp), ih fun y hy => h y (by simp [hy])⟩

/-- What follows from the invariant at every step. -/
theorem always_of_invariant {P : σ → Prop} {pre ok : σ → ι → Prop}
    (hok : ∀ s x, P s → pre s x → ok s x) (hstep : ∀ s x, P s → pre s x → P (step s x).2)
    {xs : List ι} (hs : P s) (hpre : Always step pre s xs) : Always step ok s xs := by
  induction xs generalizing s with
  | nil => trivial
  | cons x xs ih => exact ⟨hok s x hs hpre.1, ih (hstep s x hs hpre.1) hpre.2⟩

/-- Two conditions that are the same wherever the invariant holds, which need only survive the steps
that meet them. -/
theorem always_congr {P : σ → Prop} {pre ok ok' : σ → ι → Prop}
    (hiff : ∀ s x, P s → pre s x → (ok s x ↔ ok' s x))
    (hstep : ∀ s x, P s → pre s x → ok s x → P (step s x).2) {xs : List ι} (hs : P s)
    (hpre : Always step pre s xs) : Always step ok s xs ↔ Always step ok' s xs := by
  induction xs generalizing s with
  | nil => exact Iff.rfl
  | cons x xs ih =>
      rw [Always, Always, ← hiff s x hs hpre.1]
      exact and_congr_right fun hok => ih (hstep s x hs hpre.1 hok) hpre.2

/-- The traces of a relation between states. -/
inductive Trace (next : τ → ι → α → τ → Prop) : τ → List (ι × α) → τ → Prop
  | nil (t : τ) : Trace next t [] t
  | cons {t t' t'' : τ} {x : ι} {a : α} {es : List (ι × α)} (hn : next t x a t')
      (hr : Trace next t' es t'') : Trace next t ((x, a) :: es) t''

/-- `R` relates the states of a machine to those of a relation so that each admissible step of the
one is a step of the other. What is admissible may depend on the steps to come. -/
def Simulates (step : σ → ι → α × σ) (next : τ → ι → α → τ → Prop)
    (admissible : τ → List (ι × α) → Prop) (R : σ → τ → Prop) : Prop :=
  ∀ s t x es, R s t → admissible t ((x, (step s x).1) :: es) →
    ∃ t', next t x (step s x).1 t' ∧ R (step s x).2 t' ∧ admissible t' es

theorem Simulates.trace {next : τ → ι → α → τ → Prop} {admissible : τ → List (ι × α) → Prop}
    {R : σ → τ → Prop} (h : Simulates step next admissible R) {t : τ} {xs : List ι} (hR : R s t)
    (hadm : admissible t (trace step s xs)) :
    ∃ t', Trace next t (Runs.trace step s xs) t' ∧ R (final step s xs) t' ∧ admissible t' [] := by
  induction xs generalizing s t with
  | nil => exact ⟨t, .nil t, hR, hadm⟩
  | cons x xs ih =>
      obtain ⟨t₁, hn, hR₁, hadm₁⟩ := h s t x _ hR hadm
      obtain ⟨t', htr, hR'⟩ := ih hR₁ hadm₁
      exact ⟨t', .cons hn htr, hR'⟩

theorem Trace.map {κ β : Type*} {next : τ → κ → β → τ → Prop} {f : ι → κ} {g : α → β} {t t' : τ}
    {es : List (ι × α)} (h : Trace (fun t x a t' => next t (f x) (g a) t') t es t') :
    Trace next t (es.map (fun e => (f e.1, g e.2))) t' := by
  induction h with
  | nil => exact .nil _
  | cons hn _ ih => exact .cons hn ih

end Runs
