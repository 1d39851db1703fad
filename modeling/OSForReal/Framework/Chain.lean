import Mathlib.Data.List.Nodup
import Mathlib.Tactic.Ring

/-!
# Chains

A singly linked structure is a successor function `next` with a marker at
which a chain ends: a free list threaded through memory, or a file allocation
table. `Chain next a l b` says that following `next` from `a` visits the nodes
`l` in order and arrives at `b`; `Reaches next stop a x` says that `x` is met
on the way from `a` before the marker `stop`.

* `Chain.append_iff`, `Chain.frame`: cutting a chain, and chains under another
  successor function;
* `Chain.first_unique`: one node on the way is the first with a property;
* `Chain.unique`, `Chain.nodup`: a chain to a marker that it does not contain
  is determined by its start, and repeats no node;
* `Chain.reaches_iff`: what a chain reaches are its nodes.
-/

namespace Framework

variable {α : Type*} {next next' : α → α}

/-- Following `next` from `a` visits `l` and arrives at `b`. -/
def Chain (next : α → α) : α → List α → α → Prop
  | a, [], b => a = b
  | a, x :: l, b => a = x ∧ Chain next (next x) l b

/-- `x` is met when following `next` from `a`, before the marker `stop`. -/
def Reaches (next : α → α) (stop a x : α) : Prop :=
  ∃ l, Chain next a l x ∧ stop ∉ l ∧ x ≠ stop

namespace Chain

@[simp] theorem nil_iff {a b : α} : Chain next a [] b ↔ a = b := Iff.rfl

@[simp] theorem cons_iff {a b x : α} {l : List α} :
    Chain next a (x :: l) b ↔ a = x ∧ Chain next (next x) l b := Iff.rfl

theorem append_iff {a b : α} {l₁ l₂ : List α} :
    Chain next a (l₁ ++ l₂) b ↔ ∃ c, Chain next a l₁ c ∧ Chain next c l₂ b := by
  induction l₁ generalizing a with
  | nil => simp
  | cons x l₁ ih => simp only [List.cons_append, cons_iff, ih]; tauto

/-- A chain and one more node. -/
theorem concat_iff {a b x : α} {l : List α} :
    Chain next a (l ++ [x]) b ↔ Chain next a l x ∧ next x = b := by
  simp [append_iff]

theorem head_eq {a b : α} {l : List α} (h : Chain next a l b) : a = l.headD b := by
  cases l with
  | nil => exact h
  | cons x l => exact h.1

/-- A chain under a successor function that agrees on its nodes. -/
theorem frame {a b : α} {l : List α} (h : Chain next a l b) (he : ∀ x ∈ l, next' x = next x) :
    Chain next' a l b := by
  induction l generalizing a with
  | nil => exact h
  | cons x l ih =>
    refine ⟨h.1, ?_⟩
    rw [he x List.mem_cons_self]
    exact ih h.2 fun y hy => he y (List.mem_cons_of_mem _ hy)

/-- The first nodes of a chain, under a successor function that agrees on all of them but the last. -/
theorem take_succ {a b d : α} {l : List α} {n : Nat} (h : Chain next a l b) (hn : n < l.length)
    (he : ∀ x ∈ l.take n, next' x = next x) : Chain next' a (l.take (n + 1)) (next' (l.getD n d)) := by
  induction n generalizing a l with
  | zero =>
    obtain ⟨x, l, rfl⟩ := List.exists_cons_of_length_pos hn
    exact ⟨h.1, rfl⟩
  | succ n ih =>
    obtain ⟨x, l, rfl⟩ := List.exists_cons_of_length_pos (Nat.zero_lt_of_lt hn)
    rw [List.take_succ_cons] at he
    refine ⟨h.1, ?_⟩
    rw [he x List.mem_cons_self]
    exact ih h.2 (Nat.lt_of_succ_lt_succ hn) fun y hy => he y (List.mem_cons_of_mem _ hy)

/-- One of two chains from the same start goes on from the end of the other. -/
theorem comparable {a b c : α} {l l' : List α} (h : Chain next a l b) (h' : Chain next a l' c) :
    (∃ k, l' = l ++ k ∧ Chain next b k c) ∨ ∃ k, l = l' ++ k ∧ Chain next c k b := by
  induction l generalizing a l' with
  | nil => exact .inl ⟨l', rfl, h ▸ h'⟩
  | cons x l ih =>
    cases l' with
    | nil => exact .inr ⟨x :: l, rfl, h' ▸ h⟩
    | cons y l' =>
      obtain rfl : x = y := h.1.symm.trans h'.1
      rcases ih h.2 h'.2 with ⟨k, e, hk⟩ | ⟨k, e, hk⟩
      · exact .inl ⟨k, by rw [e]; rfl, hk⟩
      · exact .inr ⟨k, by rw [e]; rfl, hk⟩

/-- Following `next` from `a`, one node is the first with a property. -/
theorem first_unique {P : α → Prop} {a b c : α} {l l' : List α} (h : Chain next a l b) (h' : Chain next a l' c)
    (hl : ∀ x ∈ l, ¬ P x) (hl' : ∀ x ∈ l', ¬ P x) (hb : P b) (hc : P c) : b = c := by
  rcases h.comparable h' with ⟨k, rfl, hk⟩ | ⟨k, rfl, hk⟩
  · cases k with
    | nil => exact hk
    | cons x k =>
      obtain rfl := hk.1
      exact absurd hb (hl' _ (by simp))
  · cases k with
    | nil => exact hk.symm
    | cons x k =>
      obtain rfl := hk.1
      exact absurd hc (hl _ (by simp))

/-- A chain to a marker it does not contain is determined by its start. -/
theorem unique {a b : α} {l l' : List α} (h : Chain next a l b) (h' : Chain next a l' b)
    (hb : b ∉ l) (hb' : b ∉ l') : l = l' := by
  rcases h.comparable h' with ⟨k, e, hk⟩ | ⟨k, e, hk⟩ <;> cases k with
  | nil => simp [e]
  | cons x k =>
    obtain rfl := hk.1
    simp_all

/-- A chain to a marker it does not contain repeats no node. -/
theorem nodup {a b : α} {l : List α} (h : Chain next a l b) (hb : b ∉ l) : l.Nodup := by
  induction l generalizing a with
  | nil => exact List.nodup_nil
  | cons x l ih =>
    refine List.nodup_cons.mpr ⟨fun hx => ?_, ih h.2 fun hl => hb (List.mem_cons_of_mem _ hl)⟩
    -- From the second occurrence of `x` on, the chain would be a shorter one from `x`.
    obtain ⟨l₁, l₂, rfl⟩ := List.append_of_mem hx
    obtain ⟨c, -, hc⟩ := append_iff.mp h.2
    obtain rfl : c = x := hc.1
    have hself : Chain next c (c :: (l₁ ++ c :: l₂)) b := ⟨rfl, h.2⟩
    have e := hself.unique hc hb fun hl => hb (by simp_all)
    have := congrArg List.length e
    simp only [List.length_cons, List.length_append] at this
    omega

/-- From a node linked to itself, no chain arrives elsewhere. -/
theorem end_of_self {a b : α} {l : List α} (h : Chain next a l b) (ha : next a = a) : b = a := by
  induction l with
  | nil => exact h.symm
  | cons x l ih =>
    obtain rfl := h.1
    exact ih (ha ▸ h.2)

/-- What a chain to its marker reaches are its nodes. -/
theorem reaches_iff {a stop x : α} {l : List α} (h : Chain next a l stop) (hs : stop ∉ l) :
    Reaches next stop a x ↔ x ∈ l := by
  constructor
  · rintro ⟨k, hk, hsk, hx⟩
    rcases h.comparable hk with ⟨t, rfl, ht⟩ | ⟨t, rfl, ht⟩
    · cases t with
      | nil => exact absurd ht.symm hx
      | cons y t => exact absurd (by simp [ht.1]) hsk
    · cases t with
      | nil => exact absurd ht hx
      | cons y t => simp [ht.1]
  · intro hx
    obtain ⟨l₁, l₂, rfl⟩ := List.append_of_mem hx
    obtain ⟨c, hc, hc'⟩ := append_iff.mp h
    obtain rfl := hc'.1
    exact ⟨l₁, hc, fun hm => hs (List.mem_append_left _ hm), fun e => hs (e ▸ hx)⟩

end Chain

namespace Reaches

theorem start {stop a : α} (h : a ≠ stop) : Reaches next stop a a := ⟨[], rfl, by simp, h⟩

theorem step {stop a x : α} (h : Reaches next stop a x) (hn : next x ≠ stop) :
    Reaches next stop a (next x) := by
  obtain ⟨l, hl, hs, hx⟩ := h
  exact ⟨l ++ [x], Chain.concat_iff.mpr ⟨hl, rfl⟩, by simp [hs, Ne.symm hx], hn⟩

end Reaches

end Framework
