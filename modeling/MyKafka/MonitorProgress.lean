import Mathlib.Logic.Hydra
import MyKafka.MonitorRun

/-!
# Calls come to an end

Every step moves one call to its next phase, and there is no infinite chain of phases, for a method
is a finite tree. As long as a call is not answered, some step is possible.
-/

namespace Monitor

open Relation

variable {κ ι σ α β : Type*} {method : ι → Method σ α β} {m m' : State κ ι σ α β} {c : κ}
  {e : Event κ ι}

/-- The phase a call goes to from another. -/
inductive Phase.Goes (method : ι → Method σ α β) : Phase ι σ α β → Phase ι σ α β → Prop
  | enter (x : ι) : Goes method (.inside x (method x).body) (.waiting x)
  | step (x : ι) (act : σ → σ) (rest : σ → Body σ α) (s : σ) :
      Goes method (.inside x (rest s)) (.inside x (.call act rest))
  | leave (x : ι) (a : α) : Goes method (.outside x a) (.inside x (.ret a))
  | reply (x : ι) (a : α) (b : β) : Goes method (.done x a b) (.outside x a)

namespace Phase

theorem acc_outside (x : ι) (a : α) : Acc (Goes method) (.outside x a) := by
  refine ⟨_, fun q hq => ?_⟩
  cases hq
  exact ⟨_, fun q hq => by cases hq⟩

theorem acc_inside (x : ι) (body : Body σ α) : Acc (Goes method) (.inside x body) := by
  induction body with
  | ret a =>
      refine ⟨_, fun q hq => ?_⟩
      cases hq
      exact acc_outside x a
  | call act rest ih =>
      refine ⟨_, fun q hq => ?_⟩
      cases hq with
      | step _ _ _ s => exact ih s

theorem goes_wf : WellFounded (Goes method) := by
  refine ⟨fun p => ?_⟩
  cases p with
  | waiting x =>
      refine ⟨_, fun q hq => ?_⟩
      cases hq
      exact acc_inside x _
  | inside x body => exact acc_inside x body
  | outside x a => exact acc_outside x a
  | done x a b => exact ⟨_, fun q hq => by cases hq⟩

end Phase

variable [DecidableEq κ]

theorem Next.goes (h : Next method m e m') (he : e.isCall = false) :
    ∃ p q, m.calls e.caller = some p ∧ Phase.Goes method q p ∧
      m'.calls = Function.update m.calls e.caller (some q) := by
  cases h with
  | call => cases he
  | @read c x hc => exact ⟨_, _, hc, .enter x, rfl⟩
  | @write c x hc => exact ⟨_, _, hc, .enter x, rfl⟩
  | @step c x act rest hc => exact ⟨_, _, hc, .step x act rest m.object, rfl⟩
  | @leaveRead c x a hc => exact ⟨_, _, hc, .leave x a, rfl⟩
  | @leaveWrite c x a hc => exact ⟨_, _, hc, .leave x a, rfl⟩
  | @reply c x a hc => exact ⟨_, _, hc, .reply x a _, rfl⟩

/-- The phases of these calls. -/
def tasks (calls : κ → Option (Phase ι σ α β)) (ks : List κ) : Multiset (Phase ι σ α β) :=
  ↑(ks.filterMap calls)

theorem filterMap_update {calls : κ → Option (Phase ι σ α β)} {ks : List κ} (hc : c ∉ ks)
    (q : Option (Phase ι σ α β)) : ks.filterMap (Function.update calls c q) = ks.filterMap calls := by
  refine List.filterMap_congr fun d hd => ?_
  exact Function.update_of_ne (by rintro rfl; exact hc hd) ..

theorem tasks_update {calls : κ → Option (Phase ι σ α β)} {ks : List κ} {p q : Phase ι σ α β}
    (hks : ks.Nodup) (hmem : c ∈ ks) (hc : calls c = some p) :
    ∃ t, tasks calls ks = p ::ₘ t ∧ tasks (Function.update calls c (some q)) ks = q ::ₘ t := by
  obtain ⟨ks₁, ks₂, rfl⟩ := List.append_of_mem hmem
  obtain ⟨-, h₂, hne⟩ := List.nodup_append.mp hks
  have h₁ : c ∉ ks₁ := fun hc₁ => hne c hc₁ c (by simp) rfl
  have h₂ : c ∉ ks₂ := (List.nodup_cons.mp h₂).1
  refine ⟨↑(ks₁.filterMap calls ++ ks₂.filterMap calls), ?_, ?_⟩
  · rw [tasks, List.filterMap_append, List.filterMap_cons_some hc, Multiset.cons_coe,
      Multiset.coe_eq_coe]
    exact List.perm_middle
  · rw [tasks, List.filterMap_append, filterMap_update h₁,
      List.filterMap_cons_some (Function.update_self ..), filterMap_update h₂, Multiset.cons_coe,
      Multiset.coe_eq_coe]
    exact List.perm_middle

theorem tasks_insert {calls : κ → Option (Phase ι σ α β)} {ks : List κ} {q : Phase ι σ α β}
    (hks : ks.Nodup) (hmem : c ∈ ks) (hc : calls c = none) :
    tasks (Function.update calls c (some q)) ks = q ::ₘ tasks calls ks := by
  obtain ⟨ks₁, ks₂, rfl⟩ := List.append_of_mem hmem
  obtain ⟨-, h₂, hne⟩ := List.nodup_append.mp hks
  have h₁ : c ∉ ks₁ := fun hc₁ => hne c hc₁ c (by simp) rfl
  have h₂ : c ∉ ks₂ := (List.nodup_cons.mp h₂).1
  rw [tasks, tasks, List.filterMap_append, filterMap_update h₁,
    List.filterMap_cons_some (Function.update_self ..), filterMap_update h₂, List.filterMap_append,
    List.filterMap_cons_none hc, Multiset.cons_coe, Multiset.coe_eq_coe]
  exact List.perm_middle

/-- Where no step but a new call is possible, every call has its answer. -/
theorem Locked.stuck (H : Locked method m)
    (hstuck : ∀ e : Event κ ι, e.isCall = false → step method m e = none) {p : Phase ι σ α β}
    (hc : m.calls c = some p) : ∃ x a b, p = .done x a b := by
  have hinside : ∀ d x body, m.calls d ≠ some (.inside x body) := by
    intro d x body hd
    cases body with
    | ret a =>
        have hstep := hstuck (.release d) rfl
        simp only [step, hd] at hstep
        cases hstep
    | call act rest =>
        have hstep := hstuck (.step d) rfl
        simp only [step, hd] at hstep
        cases hstep
  obtain ⟨hw, hr⟩ := H.free hinside
  cases p with
  | waiting x =>
      have hstep := hstuck (.acquire c) rfl
      simp only [step, hc, State.lock, hw, hr] at hstep
      cases hx : (method x).exclusive with
      | true =>
          rw [hx] at hstep
          cases hstep
      | false =>
          rw [hx] at hstep
          cases hstep
  | inside x body => exact absurd hc (hinside c x body)
  | outside x a =>
      have hstep := hstuck (.reply c) rfl
      simp only [step, hc] at hstep
      cases hstep
  | done x a b => exact ⟨x, a, b, rfl⟩

end Monitor
