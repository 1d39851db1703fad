import Mathlib.Tactic.Ring

/-!
# Runs of a system

A `System` has initial states and steps that carry an event. `Reachable ok s`
says that a run whose every step satisfies `ok` ends in `s`: with `ok` always
true it is reachability, and with a condition on the state before each step
and its event it is what holds of the runs that meet the condition.

* `Reachable.invariant`: the induction over runs;
* `Reachable.exec`: a run computed by a function.
-/

namespace Framework

/-- A system: its initial states, and its steps with their events. -/
structure System (σ ι : Type*) where
  init : σ → Prop
  step : σ → ι → σ → Prop

namespace System

variable {σ ι : Type*} {M : System σ ι} {ok ok' : σ → ι → Prop}

/-- The states at the end of the runs whose every step satisfies `ok`. -/
inductive Reachable (M : System σ ι) (ok : σ → ι → Prop) : σ → Prop
  | init {s : σ} (h : M.init s) : Reachable M ok s
  | step {s s' : σ} {i : ι} (h : Reachable M ok s) (hok : ok s i) (hs : M.step s i s') : Reachable M ok s'

/-- What holds initially and is kept by every step that satisfies `ok` holds in every state reached. -/
theorem Reachable.invariant {I : σ → Prop} {s : σ} (h : M.Reachable ok s) (hinit : ∀ s, M.init s → I s)
    (hstep : ∀ s i s', I s → ok s i → M.step s i s' → I s') : I s := by
  induction h with
  | init h => exact hinit _ h
  | step _ hok hs ih => exact hstep _ _ _ ih hok hs

/-- The events of `l` in order, each step computed by `f`. -/
theorem Reachable.exec {f : σ → ι → Option σ} {l : List ι} {s s' : σ} (h : M.Reachable ok s)
    (hf : ∀ i ∈ l, ∀ s s', f s i = some s' → ok s i ∧ M.step s i s') (hl : l.foldlM f s = some s') :
    M.Reachable ok s' := by
  induction l generalizing s with
  | nil =>
    obtain rfl : s = s' := by simpa using hl
    exact h
  | cons i l ih =>
    rw [List.foldlM_cons, Option.bind_eq_bind, Option.bind_eq_some_iff] at hl
    obtain ⟨s₁, hs, hl⟩ := hl
    obtain ⟨hok, hstep⟩ := hf i List.mem_cons_self s s₁ hs
    exact ih (.step h hok hstep) (fun j hj => hf j (List.mem_cons_of_mem _ hj)) hl

end System

end Framework
