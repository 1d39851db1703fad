import Mathlib.Data.List.Nodup
import OSForReal.Framework.Search

/-!
# Tables that are filled by first fit

A `Table` has slots that are free or hold an element. It `Lists` elements when
these are, in order, in its first slots and the other slots are free. To insert
an element is to look for it and, if it is not there, to put it in the first
free slot (`Inserts`): of a table that lists elements this makes one that lists
them and the new one, if there is room (`Lists.insert`).

* `Lists.used_of_lt`: the slots in use come first;
* `Lists.slot_unique`: an element that is listed once is in one slot.
-/

namespace Framework

/-- Appends an element that is not in the list, if that has fewer than `n` elements. -/
def insertNew {α : Type*} [DecidableEq α] (n : Nat) (l : List α) (a : α) : List α :=
  if a ∈ l then l else if l.length < n then l ++ [a] else l

theorem insertNew_nodup {α : Type*} [DecidableEq α] {n : Nat} {l : List α} {a : α} (h : l.Nodup) :
    (insertNew n l a).Nodup := by
  unfold insertNew
  split
  · exact h
  · rename_i ha
    split
    · exact List.nodup_append.mpr ⟨h, List.nodup_singleton a, fun x hx y hy => by
        rw [List.mem_singleton.mp hy]
        exact ne_of_mem_of_not_mem hx ha⟩
    · exact h

/-- A slot holds at most one element, and none when it is free. -/
structure Table (α : Type*) where
  size : Nat
  free : Nat → Bool
  holds : Nat → α → Bool
  unique : ∀ {i a b}, holds i a = true → holds i b = true → a = b
  used : ∀ {i a}, holds i a = true → free i = false

namespace Table

variable {α : Type*} {t t' : Table α} {l : List α} {a b : α} {i j k : Nat}

/-- The first slots hold the elements of `l`, and the others are free. -/
structure Lists (t : Table α) (l : List α) : Prop where
  length_le : l.length ≤ t.size
  holds : ∀ i (hi : i < l.length), t.holds i l[i] = true
  free : ∀ i, l.length ≤ i → i < t.size → t.free i = true

/-- `t'` is `t` with the element `a` in the slot `k`. -/
structure Put (t t' : Table α) (k : Nat) (a : α) : Prop where
  size : t'.size = t.size
  holds : t'.holds k a = true
  free : ∀ i, i ≠ k → i < t.size → t'.free i = t.free i
  keeps : ∀ i, i ≠ k → i < t.size → ∀ b, t.holds i b = true → t'.holds i b = true

/-- `t'` is `t` after the element `a` is looked for and, if it is not there, put in the first free slot. -/
def Inserts (t : Table α) (a : α) (t' : Table α) : Prop :=
  if scan (fun i => t.holds i a) t.size 0 < t.size then t' = t
  else if scan t.free t.size 0 < t.size then t.Put t' (scan t.free t.size 0) a
  else t' = t

namespace Lists

theorem empty (h : ∀ i < t.size, t.free i = true) : t.Lists [] :=
  ⟨Nat.zero_le _, fun i hi => absurd hi (Nat.not_lt_zero i), fun i _ hi => h i hi⟩

/-- What holds the same elements and has the same free slots lists the same. -/
theorem congr (h : t.Lists l) (hsize : t'.size = t.size) (hfree : ∀ i < t.size, t'.free i = t.free i)
    (hkeeps : ∀ i < t.size, ∀ b, t.holds i b = true → t'.holds i b = true) : t'.Lists l := by
  have hle := h.length_le
  refine ⟨by omega, fun i hi => hkeeps i (by omega) _ (h.holds i hi), fun i hi hlt => ?_⟩
  rw [hfree i (by omega)]
  exact h.free i hi (by omega)

variable (h : t.Lists l)

include h

theorem lt_of_used (hi : i < t.size) (hused : t.free i = false) : i < l.length := by
  by_contra hle
  rw [h.free i (Nat.le_of_not_lt hle) hi] at hused
  cases hused

theorem used_of_lt (hij : i < j) (hj : j < t.size) (hused : t.free j = false) : t.free i = false :=
  t.used (h.holds i (Nat.lt_trans hij (h.lt_of_used hj hused)))

theorem exists_holds (hi : i < t.size) (hused : t.free i = false) : ∃ a ∈ l, t.holds i a = true := by
  have hlt := h.lt_of_used hi hused
  exact ⟨l[i], List.getElem_mem hlt, h.holds i hlt⟩

/-- An element that is listed once is in one slot. -/
theorem slot_unique (hl : l.Nodup) (hi : i < t.size) (hj : j < t.size) (hia : t.holds i a = true)
    (hja : t.holds j a = true) : i = j := by
  have hilt := h.lt_of_used hi (t.used hia)
  have hjlt := h.lt_of_used hj (t.used hja)
  have hsame : l[i] = l[j] := (t.unique (h.holds i hilt) hia).trans (t.unique hja (h.holds j hjlt))
  exact (List.Nodup.getElem_inj_iff hl).mp hsame

/-- The search for an element finds it when it is listed. -/
theorem scan_holds_lt_iff : scan (fun i => t.holds i a) t.size 0 < t.size ↔ a ∈ l := by
  have hle := h.length_le
  constructor
  · intro hlt
    have hfound : t.holds (scan (fun i => t.holds i a) t.size 0) a = true :=
      scan_spec (p := fun i => t.holds i a) hlt
    have hilt := h.lt_of_used hlt (t.used hfound)
    rw [t.unique hfound (h.holds _ hilt)]
    exact List.getElem_mem hilt
  · intro ha
    obtain ⟨i, hi, rfl⟩ := List.mem_iff_getElem.mp ha
    by_contra hge
    have hmiss : t.holds i l[i] = false := scan_before (p := fun j => t.holds j l[i]) (n := t.size) (Nat.zero_le i) (by omega)
    rw [h.holds i hi] at hmiss
    cases hmiss

/-- The first free slot follows those in use. -/
theorem scan_free_eq : scan t.free t.size 0 = l.length := by
  have hle := h.length_le
  have hscan : scan t.free t.size 0 ≤ t.size := scan_le (Nat.zero_le _)
  rcases Nat.lt_trichotomy (scan t.free t.size 0) l.length with hlt | heq | hgt
  · have hfree : t.free (scan t.free t.size 0) = true := scan_spec (by omega)
    rw [t.used (h.holds _ hlt)] at hfree
    cases hfree
  · exact heq
  · have hused : t.free l.length = false := scan_before (Nat.zero_le _) hgt
    rw [h.free _ (Nat.le_refl _) (by omega)] at hused
    cases hused

/-- What is put in the first free slot is listed last. -/
theorem append (hp : t.Put t' l.length a) (hlt : l.length < t.size) : t'.Lists (l ++ [a]) := by
  have hlen : (l ++ [a]).length = l.length + 1 := by simp
  have hsize := hp.size
  refine ⟨by omega, fun i hi => ?_, fun i hi hit => ?_⟩
  · by_cases hil : i < l.length
    · rw [List.getElem_append_left hil]
      exact hp.keeps i (by omega) (by omega) _ (h.holds i hil)
    · obtain rfl : i = l.length := by omega
      simpa using hp.holds
  · rw [hp.free i (by omega) (by omega)]
    exact h.free i (by omega) (by omega)

/-- To insert an element is to append it if it is new and there is room. -/
theorem insert [DecidableEq α] (hi : t.Inserts a t') : t'.Lists (insertNew t.size l a) := by
  unfold Inserts at hi
  rw [h.scan_free_eq] at hi
  unfold insertNew
  split
  · rename_i ha
    rw [if_pos (h.scan_holds_lt_iff.mpr ha)] at hi
    rw [hi]
    exact h
  · rename_i ha
    rw [if_neg fun hlt => ha (h.scan_holds_lt_iff.mp hlt)] at hi
    split
    · rename_i hroom
      rw [if_pos hroom] at hi
      exact h.append hi hroom
    · rename_i hfull
      rw [if_neg hfull] at hi
      rw [hi]
      exact h

end Lists

end Table

end Framework
