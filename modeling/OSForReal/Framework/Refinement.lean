import Mathlib.Tactic.Ring

/-!
# Objects and what they are for

An `Object` takes calls and returns results. What it is for is said by a
function that gives the result of a call and the state after it, for the calls
that keep a contract. A `Simulation` relates the two states, and then the
object returns, for every list of calls that keeps the contract, what the
function says and nothing else (`Simulation.run_iff`).
-/

namespace Framework

/-- An object: in a state a call may have a result, and leave a state. -/
structure Object (σ ι ρ : Type*) where
  call : σ → ι → ρ → σ → Prop

variable {σ τ ι κ ρ π : Type*}

/-- The calls one after the other, with their results. -/
inductive Object.Run (M : Object σ ι ρ) : σ → List ι → List ρ → σ → Prop
  | nil {s : σ} : Run M s [] [] s
  | cons {s s₁ s' : σ} {i : ι} {r : ρ} {l : List ι} {rs : List ρ} (h : M.call s i r s₁) (hl : Run M s₁ l rs s') :
    Run M s (i :: l) (r :: rs) s'

/-- The results of the calls from `t` on. -/
def outputs (A : τ → ι → ρ × τ) : τ → List ι → List ρ
  | _, [] => []
  | t, i :: l => (A t i).1 :: outputs A (A t i).2 l

/-- The state after the calls. -/
def after (A : τ → ι → ρ × τ) (t : τ) (l : List ι) : τ := l.foldl (fun t i => (A t i).2) t

/-- The calls keep the contract `ok`, each in its turn. -/
def Keeps (ok : τ → ι → Prop) (A : τ → ι → ρ × τ) : τ → List ι → Prop
  | _, [] => True
  | t, i :: l => ok t i ∧ Keeps ok A (A t i).2 l

instance Keeps.decidable {ok : τ → ι → Prop} [∀ t i, Decidable (ok t i)] {A : τ → ι → ρ × τ} :
    ∀ t l, Decidable (Keeps ok A t l)
  | _, [] => inferInstanceAs (Decidable True)
  | t, i :: l => have := @Keeps.decidable ok _ A (A t i).2 l; inferInstanceAs (Decidable (_ ∧ _))

/-- A contract on the calls alone. -/
theorem Keeps.of_mem {ok : ι → Prop} {A : τ → ι → ρ × τ} {l : List ι} (h : ∀ i ∈ l, ok i) (t : τ) :
    Keeps (fun _ => ok) A t l := by
  induction l generalizing t with
  | nil => exact trivial
  | cons i l ih => exact ⟨h i List.mem_cons_self, ih (fun j hj => h j (List.mem_cons_of_mem i hj)) _⟩

/-- In related states, a call that keeps the contract returns, and only what the function says. -/
structure Simulation (M : Object σ ι ρ) (A : τ → ι → ρ × τ) (ok : τ → ι → Prop) (R : σ → τ → Prop) : Prop where
  returns : ∀ s t i, R s t → ok t i → ∃ r s', M.call s i r s'
  agrees : ∀ s t i r s', R s t → ok t i → M.call s i r s' → r = (A t i).1 ∧ R s' (A t i).2

namespace Simulation

variable {M : Object σ ι ρ} {A : τ → ι → ρ × τ} {ok : τ → ι → Prop} {R : σ → τ → Prop} {s s' : σ} {t : τ} {l : List ι}
  {rs : List ρ}

/-- A run of calls that keep the contract returns what the function says. -/
theorem run (h : Simulation M A ok R) (hR : R s t) (hok : Keeps ok A t l) (hr : M.Run s l rs s') :
    rs = outputs A t l ∧ R s' (after A t l) := by
  induction hr generalizing t with
  | nil => exact ⟨rfl, hR⟩
  | cons hcall _ ih =>
    obtain ⟨rfl, hR₁⟩ := h.agrees _ _ _ _ _ hR hok.1 hcall
    obtain ⟨rfl, hR'⟩ := ih hR₁ hok.2
    exact ⟨rfl, hR'⟩

/-- Calls that keep the contract can be run to their end. -/
theorem exists_run (h : Simulation M A ok R) (hR : R s t) (hok : Keeps ok A t l) : ∃ rs s', M.Run s l rs s' := by
  induction l generalizing s t with
  | nil => exact ⟨[], s, .nil⟩
  | cons i l ih =>
    obtain ⟨r, s₁, hcall⟩ := h.returns s t i hR hok.1
    obtain ⟨rs, s', hl⟩ := ih (h.agrees s t i r s₁ hR hok.1 hcall).2 hok.2
    exact ⟨r :: rs, s', .cons hcall hl⟩

/-- Calls that keep the contract return what the function says, and nothing else. -/
theorem run_iff (h : Simulation M A ok R) (hR : R s t) (hok : Keeps ok A t l) :
    (∃ s', M.Run s l rs s') ↔ rs = outputs A t l := by
  constructor
  · rintro ⟨s', hr⟩
    exact (h.run hR hok hr).1
  · rintro rfl
    obtain ⟨rs, s', hr⟩ := h.exists_run hR hok
    exact ⟨s', (h.run hR hok hr).1 ▸ hr⟩

end Simulation

/-! ## Two objects on one state -/

/-- Calls of either object. -/
def Object.sum (M : Object σ ι ρ) (N : Object σ κ π) : Object σ (ι ⊕ κ) (ρ ⊕ π) where
  call s c r s' := match c with
    | .inl i => ∃ x, r = .inl x ∧ M.call s i x s'
    | .inr k => ∃ y, r = .inr y ∧ N.call s k y s'

/-- What calls of either object return and leave. -/
def sumSpec (A : τ → ι → ρ × τ) (B : τ → κ → π × τ) (t : τ) : ι ⊕ κ → (ρ ⊕ π) × τ
  | .inl i => (.inl (A t i).1, (A t i).2)
  | .inr k => (.inr (B t k).1, (B t k).2)

/-- The contracts of both. -/
def sumOk (okM : τ → ι → Prop) (okN : τ → κ → Prop) (t : τ) : ι ⊕ κ → Prop
  | .inl i => okM t i
  | .inr k => okN t k

instance sumOk.decidable {okM : τ → ι → Prop} {okN : τ → κ → Prop} [∀ t i, Decidable (okM t i)]
    [∀ t k, Decidable (okN t k)] (t : τ) : ∀ c, Decidable (sumOk okM okN t c)
  | .inl i => inferInstanceAs (Decidable (okM t i))
  | .inr k => inferInstanceAs (Decidable (okN t k))

/-- Objects that keep one relation may be called in any order. -/
theorem Simulation.sum {M : Object σ ι ρ} {N : Object σ κ π} {A : τ → ι → ρ × τ} {B : τ → κ → π × τ}
    {okM : τ → ι → Prop} {okN : τ → κ → Prop} {R : σ → τ → Prop} (hM : Simulation M A okM R) (hN : Simulation N B okN R) :
    Simulation (M.sum N) (sumSpec A B) (sumOk okM okN) R where
  returns s t c hR hok := by
    cases c with
    | inl i =>
      obtain ⟨x, s', hcall⟩ := hM.returns s t i hR hok
      exact ⟨.inl x, s', x, rfl, hcall⟩
    | inr k =>
      obtain ⟨y, s', hcall⟩ := hN.returns s t k hR hok
      exact ⟨.inr y, s', y, rfl, hcall⟩
  agrees s t c r s' hR hok hcall := by
    cases c with
    | inl i =>
      obtain ⟨x, rfl, hcall⟩ := hcall
      obtain ⟨rfl, hR'⟩ := hM.agrees s t i x s' hR hok hcall
      exact ⟨rfl, hR'⟩
    | inr k =>
      obtain ⟨y, rfl, hcall⟩ := hcall
      obtain ⟨rfl, hR'⟩ := hN.agrees s t k y s' hR hok hcall
      exact ⟨rfl, hR'⟩

/-! ## An object beside another state -/

section

variable {υ χ : Type*}

/-- The object as part of a larger state, of which it leaves the rest as it is. -/
def Object.onFst (M : Object σ ι ρ) : Object (σ × υ) ι ρ where
  call s i r s' := M.call s.1 i r s'.1 ∧ s'.2 = s.2

/-- What a call returns and leaves there. -/
def onFstSpec (A : τ → ι → ρ × τ) (t : τ × χ) (i : ι) : ρ × (τ × χ) := ((A t.1 i).1, (A t.1 i).2, t.2)

/-- Any relation of the rest is kept. -/
theorem Simulation.onFst {M : Object σ ι ρ} {A : τ → ι → ρ × τ} {ok : τ → ι → Prop} {R : σ → τ → Prop}
    (h : Simulation M A ok R) (Q : υ → χ → Prop) :
    Simulation M.onFst (onFstSpec A) (fun t => ok t.1) fun s t => R s.1 t.1 ∧ Q s.2 t.2 where
  returns s t i hR hok := by
    obtain ⟨r, s', hcall⟩ := h.returns s.1 t.1 i hR.1 hok
    exact ⟨r, (s', s.2), hcall, rfl⟩
  agrees s t i r s' hR hok hcall := by
    obtain ⟨hr, hR'⟩ := h.agrees s.1 t.1 i r s'.1 hR.1 hok hcall.1
    refine ⟨hr, hR', ?_⟩
    rw [hcall.2]
    exact hR.2

end

end Framework
