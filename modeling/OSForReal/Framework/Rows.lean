import Mathlib.Data.List.DropRight
import Mathlib.Data.List.GetD
import Mathlib.Tactic.Ring

/-!
# The rows of a text

A text is laid out in rows: a separator ends the current row, and a row also
ends with its `w`-th character. `cell` is what a window of rows shows at a
place, blank where there is nothing.

* `cell_rtake_concat`: a new row moves a full window by one row;
* `cell_put`: a character put at the end of the last row.
-/

namespace Framework.Rows

variable {α : Type*}

/-- The rows that have ended, and the current one. -/
structure Layout (α : Type*) where
  ended : List (List α)
  current : List α

/-- All rows, the current one included. -/
def Layout.rows (l : Layout α) : List (List α) := l.ended ++ [l.current]

/-- The layout with one more character. -/
def Layout.add [DecidableEq α] (w : Nat) (sep : α) (l : Layout α) (c : α) : Layout α :=
  if c = sep then ⟨l.rows, []⟩
  else
    let row := l.current ++ [c]
    if row.length = w then ⟨l.ended ++ [row], []⟩ else ⟨l.ended, row⟩

/-- The layout of a text in rows of `w` characters. -/
def layout [DecidableEq α] (w : Nat) (sep : α) (text : List α) : Layout α := text.foldl (Layout.add w sep) ⟨[], []⟩

/-- What a window of rows shows at column `x` of row `y`. -/
def cell (blank : α) (rows : List (List α)) (y x : Nat) : α := (rows.getD y []).getD x blank

variable {blank c : α} {rows ended : List (List α)} {row : List α} {h w x y : Nat}

/-- The window of the last `h` rows, by the rows of the text. -/
theorem cell_rtake (blank : α) (rows : List (List α)) (h y x : Nat) :
    cell blank (rows.rtake h) y x = cell blank rows (rows.length - h + y) x := by
  have hrow : (rows.rtake h).getD y [] = rows.getD (rows.length - h + y) [] := by
    rw [List.rtake, List.getD_eq_getElem?_getD, List.getD_eq_getElem?_getD, List.getElem?_drop]
  rw [cell, cell, hrow]

/-- An empty row at the end shows nothing. -/
theorem cell_concat_nil (blank : α) (rows : List (List α)) (y x : Nat) :
    cell blank (rows ++ [[]]) y x = cell blank rows y x := by
  unfold cell
  rcases Nat.lt_trichotomy y rows.length with hy | hy | hy
  · rw [List.getD_append _ _ _ _ hy]
  · rw [List.getD_append_right _ _ _ _ hy.ge, List.getD_eq_default _ _ hy.ge, hy, Nat.sub_self]
    rfl
  · rw [List.getD_eq_default (rows ++ _) _ (by rw [List.length_append, List.length_singleton]; omega),
      List.getD_eq_default rows _ hy.le]

/-- Behind the last row there is nothing. -/
theorem cell_of_le (blank : α) (hy : rows.length ≤ y) (x : Nat) : cell blank rows y x = blank := by
  unfold cell
  rw [List.getD_eq_default rows _ hy]
  rfl

/-- A new row moves the window down when it is full, and else shows below the others. -/
theorem cell_rtake_concat (blank : α) (rows : List (List α)) (h y x : Nat) :
    cell blank ((rows ++ [[]]).rtake h) y x =
      cell blank (rows.rtake h) (if rows.length < h then y else y + 1) x := by
  rw [cell_rtake, cell_rtake, cell_concat_nil, List.length_append, List.length_singleton]
  congr 1
  split <;> omega

/-- A character at the end of the last row shows there, and changes nothing else. -/
theorem cell_put (blank : α) (ended : List (List α)) (row : List α) (c : α) (y x : Nat) :
    cell blank (ended ++ [row ++ [c]]) y x =
      if y = ended.length ∧ x = row.length then c else cell blank (ended ++ [row]) y x := by
  unfold cell
  rcases Nat.lt_trichotomy y ended.length with hy | hy | hy
  · rw [if_neg (by omega), List.getD_append _ _ _ _ hy, List.getD_append _ _ _ _ hy]
  · rw [List.getD_append_right _ _ _ _ hy.ge, List.getD_append_right _ _ _ _ hy.ge, hy, Nat.sub_self,
      List.getD_cons_zero, List.getD_cons_zero]
    rcases Nat.lt_trichotomy x row.length with hx | hx | hx
    · rw [if_neg (by omega), List.getD_append _ _ _ _ hx]
    · rw [if_pos ⟨rfl, hx⟩, List.getD_append_right _ _ _ _ hx.ge, hx, Nat.sub_self]
      rfl
    · rw [if_neg (by omega), List.getD_eq_default _ _ (by simp; omega), List.getD_eq_default _ _ hx.le]
  · rw [if_neg (by omega), List.getD_eq_default (ended ++ [row ++ _]) _ (by rw [List.length_append, List.length_singleton]; omega),
      List.getD_eq_default (ended ++ [row]) _ (by rw [List.length_append, List.length_singleton]; omega)]

end Framework.Rows
