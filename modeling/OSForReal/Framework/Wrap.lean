import OSForReal.Framework.Res
import OSForReal.Framework.Search

/-!
# Linear search with a counter that wraps

`wrapScan w p n` is the loop `for (i = 0; i < n; i++) if (p(i)) break;` with a
counter `i` below `w`: after `w - 1` it is 0 again. The loop ends exactly when
the search does before the counter wraps (`wrapScan_ok_iff`), and then
leaves what `scan` finds (`wrapScan_eq`).
-/

namespace Framework

/-- One turn of the search, at the counter `i`. -/
def wrapStep (w : Nat) (p : Nat → Bool) (n i : Nat) : Res (Nat ⊕ Nat) :=
  if i < n then if p i then .ok (.inr i) else .ok (.inl ((i + 1) % w)) else .ok (.inr i)

/-- The search, by the value of the counter it leaves. -/
def wrapScan (w : Nat) (p : Nat → Bool) (n fuel : Nat) : Res Nat := Res.loop (wrapStep w p n) fuel 0

variable {w n i fuel : Nat} {p : Nat → Bool}

/-- A turn before the search ends. -/
theorem wrapStep_before (h : i < scan p n 0) : wrapStep w p n i = .ok (.inl ((i + 1) % w)) := by
  have hlt : i < n := Nat.lt_of_lt_of_le h (scan_le (Nat.zero_le n))
  have hmiss : p i = false := scan_before (Nat.zero_le i) h
  rw [wrapStep, if_pos hlt, if_neg (by simp [hmiss])]

/-- The turn in which the search ends. -/
theorem wrapStep_end : wrapStep w p n (scan p n 0) = .ok (.inr (scan p n 0)) := by
  unfold wrapStep
  split
  · rename_i hlt
    rw [if_pos (scan_spec hlt)]
  · rfl

/-- From a counter that has not passed the end of the search. -/
theorem wrapLoop_eq (h : scan p n 0 < w) (hi : i ≤ scan p n 0) (hfuel : scan p n 0 - i < fuel) :
    Res.loop (wrapStep w p n) fuel i = .ok (scan p n 0) := by
  induction fuel generalizing i with
  | zero => omega
  | succ fuel ih =>
    rcases Nat.lt_or_ge i (scan p n 0) with hlt | hge
    · rw [Res.loop_continue (wrapStep_before hlt), Nat.mod_eq_of_lt (Nat.lt_of_le_of_lt hlt h)]
      exact ih hlt (by omega)
    · obtain rfl : i = scan p n 0 := Nat.le_antisymm hi hge
      exact Res.loop_leave wrapStep_end fuel

/-- A search that ends before the counter wraps leaves what it would without wrapping. -/
theorem wrapScan_eq (h : scan p n 0 < w) (hfuel : w ≤ fuel) : wrapScan w p n fuel = .ok (scan p n 0) :=
  wrapLoop_eq h (Nat.zero_le _) (by omega)

/-- A search that does not end before the counter wraps never ends. -/
theorem wrapScan_diverges (hw : 0 < w) (h : w ≤ scan p n 0) (fuel : Nat) : wrapScan w p n fuel = .timeout :=
  Res.loop_diverges (I := fun i => i < w)
    (fun i hi => ⟨(i + 1) % w, Nat.mod_lt _ hw, wrapStep_before (Nat.lt_of_lt_of_le hi h)⟩) fuel hw

/-- When the search ends, and with what. -/
theorem wrapScan_ok_iff (hw : 0 < w) : (∃ fuel, wrapScan w p n fuel = .ok i) ↔ scan p n 0 < w ∧ i = scan p n 0 := by
  constructor
  · rintro ⟨fuel, hr⟩
    have hlt : scan p n 0 < w := by
      by_contra hge
      rw [wrapScan_diverges hw (Nat.le_of_not_lt hge) fuel] at hr
      cases hr
    exact ⟨hlt, Res.loop_unique hr (wrapScan_eq hlt (Nat.le_refl w))⟩
  · rintro ⟨hlt, rfl⟩
    exact ⟨w, wrapScan_eq hlt (Nat.le_refl w)⟩

end Framework
