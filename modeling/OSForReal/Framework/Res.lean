import Mathlib.Tactic.Ring

/-!
# Computations that return, stop the machine or run on

A bounded run of a computation (`Res`) returns a value, stops the machine (a
failed assertion) or uses up its fuel. `loop` is a loop whose body either
continues with a new state or leaves with a result; `loop_invariant` and
`loop_diverges` are the rules that proofs about loops use, and
`loop_mono` says that more fuel never changes a result. `Returns` is what a
computation returns with enough fuel, one rule for each way to build one.
-/

namespace Framework

/-- What a bounded run ends with. -/
inductive Res (α : Type) where
  | ok (a : α)
  | halt
  | timeout
deriving DecidableEq, Repr

namespace Res

variable {α β γ : Type}

def bind : Res α → (α → Res β) → Res β
  | ok a, f => f a
  | halt, _ => halt
  | timeout, _ => timeout

instance : Monad Res where
  pure := ok
  bind := bind

@[simp] theorem pure_eq (a : α) : (pure a : Res α) = ok a := rfl
@[simp] theorem ok_bind (a : α) (f : α → Res β) : (ok a >>= f) = f a := rfl
@[simp] theorem halt_bind (f : α → Res β) : ((halt : Res α) >>= f) = halt := rfl
@[simp] theorem timeout_bind (f : α → Res β) : ((timeout : Res α) >>= f) = timeout := rfl

instance : LawfulMonad Res :=
  .mk' Res (fun x => by cases x <;> rfl) (fun _ _ => rfl) (fun x _ _ => by cases x <;> rfl)

/-- A sequence returns when both parts do. -/
theorem bind_eq_ok {x : Res α} {f : α → Res β} {b : β} :
    (x >>= f) = ok b ↔ ∃ a, x = ok a ∧ f a = ok b := by
  cases x <;> simp

/-- Sequences are equal when their second parts are after what the first returns. -/
theorem bind_congr_ok {x : Res α} {f g : α → Res β} (h : ∀ a, x = ok a → f a = g a) : (x >>= f) = (x >>= g) := by
  cases x with
  | ok a => exact h a rfl
  | halt => rfl
  | timeout => rfl

/-- A sequence does not run on when neither part does. -/
theorem bind_ne_timeout {x : Res α} {f : α → Res β} (hx : x ≠ timeout) (hf : ∀ a, x = ok a → f a ≠ timeout) :
    (x >>= f) ≠ timeout := by
  cases x with
  | ok a => exact hf a rfl
  | halt => exact nofun
  | timeout => exact absurd rfl hx

theorem mapM_cons_eq_ok {f : α → Res β} {a : α} {l : List α} {b : β} {l' : List β} :
    (a :: l).mapM f = ok (b :: l') ↔ f a = ok b ∧ l.mapM f = ok l' := by
  simp [List.mapM_cons, bind_eq_ok]

theorem ite_halt_eq_ok {c : Prop} [Decidable c] {a b : α} : (if c then ok a else halt) = ok b ↔ c ∧ a = b := by
  by_cases hc : c
  · simp [hc]
  · simp [hc]

/-- What every step of a fold keeps holds of what the fold returns. -/
theorem foldlM_invariant {I : α → Prop} {f : α → β → Res α} {l : List β} {a a' : α} (ha : I a)
    (hstep : ∀ a, ∀ b ∈ l, ∀ a', I a → f a b = ok a' → I a') (h : l.foldlM f a = ok a') : I a' := by
  induction l generalizing a with
  | nil =>
    obtain rfl : a = a' := by simpa using h
    exact ha
  | cons b l ih =>
    rw [List.foldlM_cons] at h
    obtain ⟨c, hc, h⟩ := bind_eq_ok.mp h
    exact ih (hstep a b List.mem_cons_self c ha hc) (fun a b hb => hstep a b (List.mem_cons_of_mem _ hb)) h

/-- A fold whose every step is a step of another one, under `g`. -/
theorem foldlM_map {f : α → β → Res α} {f' : γ → β → Res γ} (g : α → γ)
    (hstep : ∀ a b, (f a b >>= fun a' => ok (g a')) = f' (g a) b) (l : List β) (a : α) :
    (l.foldlM f a >>= fun a' => ok (g a')) = l.foldlM f' (g a) := by
  induction l generalizing a with
  | nil => rfl
  | cons b l ih =>
    rw [List.foldlM_cons, List.foldlM_cons, bind_assoc, ← hstep a b, bind_assoc]
    simp only [ih, ok_bind]

/-- An assertion: the machine stops unless `c` holds. -/
def assert (c : Prop) [Decidable c] : Res Unit := if c then ok () else halt

@[simp] theorem assert_eq_ok {c : Prop} [Decidable c] {u : Unit} : assert c = ok u ↔ c := by
  unfold assert; split <;> simp_all

theorem assert_bind {c : Prop} [Decidable c] (h : c) (f : Unit → Res β) : (assert c >>= f) = f () := by
  simp [assert, h]

/-- Fuel for one more pass. -/
theorem exists_succ_of_lt {n fuel : Nat} (h : n < fuel) : ∃ fuel', fuel = fuel' + 1 ∧ n ≤ fuel' :=
  ⟨fuel - 1, by omega, by omega⟩

/-- A loop: `body` continues with a new state or leaves with a result. -/
def loop (body : α → Res (α ⊕ β)) : Nat → α → Res β
  | 0, _ => timeout
  | n + 1, a => body a >>= fun
    | .inl a' => loop body n a'
    | .inr b => ok b

@[simp] theorem loop_zero (body : α → Res (α ⊕ β)) (a : α) : loop body 0 a = timeout := rfl

theorem loop_succ (body : α → Res (α ⊕ β)) (n : Nat) (a : α) :
    loop body (n + 1) a = body a >>= fun
      | .inl a' => loop body n a'
      | .inr b => ok b := rfl

theorem loop_continue {body : α → Res (α ⊕ β)} {a c : α} (h : body a = ok (.inl c)) (n : Nat) :
    loop body (n + 1) a = loop body n c := by
  rw [loop_succ, h]; rfl

theorem loop_leave {body : α → Res (α ⊕ β)} {a : α} {b : β} (h : body a = ok (.inr b)) (n : Nat) :
    loop body (n + 1) a = ok b := by
  rw [loop_succ, h]; rfl

/-- A property that every continuing step keeps, and that gives `Q` of the
result when the loop leaves, gives `Q` of what the loop returns. -/
theorem loop_invariant {body : α → Res (α ⊕ β)} {I : α → Prop} {Q : β → Prop}
    (hstep : ∀ a a', I a → body a = ok (.inl a') → I a')
    (hleave : ∀ a b, I a → body a = ok (.inr b) → Q b) {n : Nat} {a : α} {b : β} (ha : I a)
    (h : loop body n a = ok b) : Q b := by
  induction n generalizing a with
  | zero => cases h
  | succ n ih =>
    obtain ⟨r, hr, h⟩ := bind_eq_ok.mp h
    cases r with
    | inl a' => exact ih (hstep a a' ha hr) h
    | inr b' =>
      obtain rfl : b' = b := by simpa using h
      exact hleave a b' ha hr

/-- A loop that always continues never returns. -/
theorem loop_diverges {body : α → Res (α ⊕ β)} {I : α → Prop}
    (hstep : ∀ a, I a → ∃ a', I a' ∧ body a = ok (.inl a')) (n : Nat) {a : α} (ha : I a) :
    loop body n a = timeout := by
  induction n generalizing a with
  | zero => rfl
  | succ n ih =>
    obtain ⟨a', ha', h⟩ := hstep a ha
    rw [loop_continue h, ih ha']

/-- More fuel does not change a result. -/
theorem loop_mono {body : α → Res (α ⊕ β)} {n m : Nat} {a : α} {b : β} (hnm : n ≤ m)
    (h : loop body n a = ok b) : loop body m a = ok b := by
  induction n generalizing m a with
  | zero => cases h
  | succ n ih =>
    obtain ⟨m, rfl⟩ : ∃ k, m = k + 1 := ⟨m - 1, by omega⟩
    obtain ⟨r, hr, h⟩ := bind_eq_ok.mp h
    rw [loop_succ, hr, ok_bind]
    cases r with
    | inl a' => exact ih (by omega) h
    | inr b' => exact h

/-! ## Fuel -/

/-- With enough fuel the computation returns `b`, and with no fuel anything else. -/
structure Returns (f : Nat → Res β) (b : β) : Prop where
  enough : ∃ n, ∀ m, n ≤ m → f m = ok b
  only : ∀ m c, f m = ok c → c = b

/-- Whatever the fuel, a loop returns one result. -/
theorem loop_unique {body : α → Res (α ⊕ β)} {n m : Nat} {a : α} {b c : β} (h : loop body n a = ok b)
    (h' : loop body m a = ok c) : b = c :=
  ok.inj ((loop_mono (Nat.le_max_left n m) h).symm.trans (loop_mono (Nat.le_max_right n m) h'))

theorem Returns.iff {f : Nat → Res β} {b c : β} (h : Returns f b) : (∃ n, f n = ok c) ↔ c = b := by
  constructor
  · intro hc
    obtain ⟨n, hn⟩ := hc
    exact h.only n c hn
  · intro hc
    obtain ⟨n, hn⟩ := h.enough
    exact ⟨n, hc ▸ hn n (Nat.le_refl n)⟩

theorem Returns.unique {f : Nat → Res β} {b c : β} (h : Returns f b) (h' : Returns f c) : b = c := by
  obtain ⟨n, hn⟩ := h.enough
  exact h'.only n b (hn n (Nat.le_refl n))

/-- A computation that needs no fuel. -/
theorem Returns.ok (b : β) : Returns (fun _ => Res.ok b) b :=
  ⟨⟨0, fun _ _ => rfl⟩, fun _ _ h => (Res.ok.inj h).symm⟩

theorem Returns.loop {body : α → Res (α ⊕ β)} {n : Nat} {a : α} {b : β} (h : loop body n a = .ok b) :
    Returns (fun n => Res.loop body n a) b :=
  ⟨⟨n, fun _ hm => loop_mono hm h⟩, fun _ _ hc => loop_unique hc h⟩

/-- The second part of a sequence begins with what the first returns. -/
theorem Returns.bind {f : Nat → Res α} {g : Nat → α → Res β} {a : α} {b : β} (h : Returns f a)
    (hg : Returns (fun n => g n a) b) : Returns (fun n => f n >>= g n) b := by
  obtain ⟨n, hn⟩ := h.enough
  obtain ⟨n', hn'⟩ := hg.enough
  refine ⟨⟨max n n', fun m hm => ?_⟩, fun m c hc => ?_⟩
  · rw [hn m (by omega), ok_bind]
    exact hn' m (by omega)
  · obtain ⟨a', ha, hc⟩ := bind_eq_ok.mp hc
    rw [h.only m a' ha] at hc
    exact hg.only m c hc

/-- A loop that polls: it takes steps until one leads to where `P` holds. -/
theorem Returns.poll {f : α → α} {P : α → Prop} [DecidablePred P] {body : α → Res (α ⊕ α)} {a : α} {j : Nat}
    (hbody : ∀ a, body a = .ok (if P (f a) then .inr (f a) else .inl (f a))) (h : P (f^[j + 1] a)) :
    ∃ k, P (f^[k + 1] a) ∧ Returns (fun n => Res.loop body n a) (f^[k + 1] a) := by
  have hleave : ∀ a, P (f a) → ∃ k, P (f^[k + 1] a) ∧ Returns (fun n => Res.loop body n a) (f^[k + 1] a) := by
    intro a hnow
    have hbody' : body a = .ok (.inr (f a)) := by rw [hbody, if_pos hnow]
    exact ⟨0, hnow, Returns.loop (loop_leave hbody' 0)⟩
  induction j generalizing a with
  | zero => exact hleave a h
  | succ j ih =>
    by_cases hnow : P (f a)
    · exact hleave a hnow
    · have hbody' : body a = .ok (.inl (f a)) := by rw [hbody, if_neg hnow]
      obtain ⟨k, hdone, hreturns⟩ := @ih (f a) h
      obtain ⟨n, hn⟩ := hreturns.enough
      exact ⟨k + 1, hdone, Returns.loop ((loop_continue hbody' n).trans (hn n (Nat.le_refl n)))⟩

/-- With enough fuel the computation returns `b`. -/
def Reaches (f : Nat → Res β) (b : β) : Prop := ∃ n, ∀ m, n ≤ m → f m = ok b

theorem Returns.reaches {f : Nat → Res β} {b : β} (h : Returns f b) : Reaches f b := h.enough

theorem Reaches.ok (b : β) : Reaches (fun _ => Res.ok b) b := ⟨0, fun _ _ => rfl⟩

theorem Reaches.bind {f : Nat → Res α} {g : Nat → α → Res β} {a : α} {b : β} (h : Reaches f a)
    (hg : Reaches (fun n => g n a) b) : Reaches (fun n => f n >>= g n) b := by
  obtain ⟨n, hn⟩ := h
  obtain ⟨n', hn'⟩ := hg
  refine ⟨max n n', fun m hm => ?_⟩
  show (f m >>= g m) = _
  rw [hn m (by omega), ok_bind]
  exact hn' m (by omega)

/-- A fold whose every step keeps what holds of the elements so far. -/
theorem Reaches.foldlM {f : Nat → α → γ → Res α} {I : List γ → α → Prop} {d : List γ} {a : α} (h0 : I d a)
    (hstep : ∀ d a c, I d a → ∃ a', Reaches (fun n => f n a c) a' ∧ I (d ++ [c]) a') (l : List γ) :
    ∃ a', Reaches (fun n => l.foldlM (f n) a) a' ∧ I (d ++ l) a' := by
  induction l generalizing d a with
  | nil => exact ⟨a, Reaches.ok a, by rwa [List.append_nil]⟩
  | cons c l ih =>
    obtain ⟨a₁, h₁, hI₁⟩ := hstep d a c h0
    obtain ⟨a', h', hI'⟩ := ih hI₁
    refine ⟨a', ?_, by rwa [List.append_assoc] at hI'⟩
    simp only [List.foldlM_cons]
    exact h₁.bind h'

end Res

end Framework
