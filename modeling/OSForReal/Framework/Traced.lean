import OSForReal.Framework.Res

/-!
# Computations that record what they access

A traced computation (`Traced`) has a value and the list of its events. Its
value is computed as without the trace (`val_bind`), and a property of all its
events is one of the events of its parts (`all_bind`). `after` is a traced
computation after one without events that may not return.
-/

namespace Framework

/-- A value, and the events on the way to it. -/
structure Traced (ε α : Type) where
  val : α
  trace : List ε

namespace Traced

variable {ε α β : Type} {P Q : ε → Prop} {x : Traced ε α} {f : α → Traced ε β} {a : α} {e : ε}

instance : Monad (Traced ε) where
  pure a := ⟨a, []⟩
  bind x f := ⟨(f x.val).val, x.trace ++ (f x.val).trace⟩

/-- A value that takes one event. -/
def record (e : ε) (a : α) : Traced ε α := ⟨a, [e]⟩

@[simp] theorem val_pure : (pure a : Traced ε α).val = a := rfl
@[simp] theorem val_record : (record e a).val = a := rfl
@[simp] theorem val_bind : (x >>= f).val = (f x.val).val := rfl
@[simp] theorem trace_pure : (pure a : Traced ε α).trace = [] := rfl
@[simp] theorem trace_record : (record e a).trace = [e] := rfl
@[simp] theorem trace_bind : (x >>= f).trace = x.trace ++ (f x.val).trace := rfl

/-- Sequences are equal when their second parts are after the value of the first. -/
theorem bind_congr_val {g : α → Traced ε β} (h : f x.val = g x.val) : (x >>= f) = (x >>= g) := by
  show Traced.mk (f x.val).val (x.trace ++ (f x.val).trace) = Traced.mk (g x.val).val (x.trace ++ (g x.val).trace)
  rw [h]

/-- Every event satisfies `P`. -/
def All (P : ε → Prop) (x : Traced ε α) : Prop := ∀ e ∈ x.trace, P e

@[simp] theorem all_pure : (pure a : Traced ε α).All P := fun _ h => absurd h List.not_mem_nil

@[simp] theorem all_record : (record e a).All P ↔ P e := List.forall_mem_singleton

theorem all_bind : (x >>= f).All P ↔ x.All P ∧ (f x.val).All P := List.forall_mem_append

theorem all_ite {p : Prop} [Decidable p] {y : Traced ε α} :
    (if p then x else y).All P ↔ (p → x.All P) ∧ (¬ p → y.All P) := by
  split <;> simp_all

theorem All.mono (h : x.All P) (hPQ : ∀ e, P e → Q e) : x.All Q := fun e he => hPQ e (h e he)

/-- What comes after a computation without events, if it returns. -/
def after (x : Res α) (f : α → Traced ε (Res β)) : Traced ε (Res β) :=
  match x with
  | .ok a => f a
  | .halt => pure .halt
  | .timeout => pure .timeout

theorem val_after {x : Res α} {f : α → Traced ε (Res β)} : (after x f).val = x >>= fun a => (f a).val := by
  cases x <;> rfl

theorem all_after {x : Res α} {f : α → Traced ε (Res β)} : (after x f).All P ↔ ∀ a, x = .ok a → (f a).All P := by
  cases x <;> simp [after]

end Traced

end Framework
