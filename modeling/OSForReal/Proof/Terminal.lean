import OSForReal.Framework.Counter
import OSForReal.Framework.Rows
import OSForReal.Std.Terminal

/-!
# The terminal shows the tail of the text

The text that was put since `terminal_init` is laid out in rows (`layout`);
the screen shows the last 25 of them. `Shows` relates the terminal to the
layout; `terminalIncrementRow_cells` is the step for a new row, which scrolls a
full screen in place, and `Shows.putChar` the step for a character.
-/

namespace OSForReal.Proof

open Framework (foldlM_range)
open Framework.Rows (Layout layout cell cell_rtake cell_rtake_concat cell_put cell_of_le)

/-- The character that the screen is blank with. -/
abbrev space : UInt8 := Char.toUInt8 ' '

/-- The character that ends a row. -/
abbrev newline : UInt8 := Char.toUInt8 '\n'

variable {t : Terminal} {rows : List (List UInt8)} {l : Layout UInt8} {c : UInt8}

/-! ## Loops over the screen -/

section Loops

variable {f : (Nat → UInt16) → Nat → Option (Nat → UInt16)} {I : Nat → (Nat → UInt16) → Prop} {b : Nat → UInt16}

/-- A loop over row `y`, by what it does at each index. -/
theorem forRow_spec (y : Nat) (h0 : I (y * vgaWidth) b)
    (hstep : ∀ i, y * vgaWidth ≤ i → i < (y + 1) * vgaWidth → ∀ b, I i b → ∃ b', f b i = some b' ∧ I (i + 1) b') :
    ∃ b', forRow f b y = some b' ∧ I ((y + 1) * vgaWidth) b' := by
  rw [Nat.succ_mul] at hstep ⊢
  exact foldlM_range (I := fun x b => I (y * vgaWidth + x) b) h0 fun x hx b hb =>
    hstep _ (Nat.le_add_right ..) (Nat.add_lt_add_left hx _) b hb

/-- A loop over the first `n` rows, by what it does at each index. -/
theorem forRows_spec (n : Nat) (h0 : I 0 b)
    (hstep : ∀ i < n * vgaWidth, ∀ b, I i b → ∃ b', f b i = some b' ∧ I (i + 1) b') :
    ∃ b', (List.range n).foldlM (forRow f) b = some b' ∧ I (n * vgaWidth) b' := by
  refine foldlM_range (I := fun y b => I (y * vgaWidth) b) (by rwa [Nat.zero_mul]) fun y hy b hb => ?_
  have hle : (y + 1) * vgaWidth ≤ n * vgaWidth := Nat.mul_le_mul_right _ hy
  exact forRow_spec y hb fun i _ hi b => hstep i (Nat.lt_of_lt_of_le hi hle) b

end Loops

theorem writeEntry_some {b : Nat → UInt16} {i : Nat} (e : UInt16) (hi : i < vgaHeight * vgaWidth) :
    writeEntry b i e = some (Function.update b i e) := if_pos hi

theorem readEntry_some {b : Nat → UInt16} {i : Nat} (hi : i < vgaHeight * vgaWidth) : readEntry b i = some (b i) :=
  if_pos hi

/-- An entry written behind what an update by ranges has done so far. -/
theorem update_range {b b' : Nat → UInt16} {i k lo : Nat} {g : Nat → UInt16} (hlo : lo ≤ i)
    (h : ∀ k, b' k = if lo ≤ k ∧ k < i then g k else b k) :
    Function.update b' i (g i) k = if lo ≤ k ∧ k < i + 1 then g k else b k := by
  by_cases hk : k = i
  · rw [hk, Function.update_self, if_pos ⟨hlo, Nat.lt_succ_self i⟩]
  · rw [Function.update_of_ne hk, h]
    exact if_congr (by omega) rfl rfl

/-- A row filled with one entry. -/
theorem fillRow_spec (e : UInt16) (b : Nat → UInt16) {y : Nat} (hy : y < vgaHeight) :
    ∃ b', forRow (fun b index => writeEntry b index e) b y = some b' ∧
      ∀ k, b' k = if y * vgaWidth ≤ k ∧ k < (y + 1) * vgaWidth then e else b k := by
  refine forRow_spec (I := fun i b' => ∀ k, b' k = if y * vgaWidth ≤ k ∧ k < i then e else b k) y
    (fun k => by rw [if_neg (by omega)]) fun i hlo hi b' hb' => ?_
  have hle : (y + 1) * vgaWidth ≤ vgaHeight * vgaWidth := Nat.mul_le_mul_right _ hy
  exact ⟨_, writeEntry_some e (Nat.lt_of_lt_of_le hi hle), fun k => update_range hlo hb'⟩

/-- The whole screen filled with one entry. -/
theorem fillScreen_spec (e : UInt16) (b : Nat → UInt16) :
    ∃ b', (List.range vgaHeight).foldlM (forRow fun b index => writeEntry b index e) b = some b' ∧
      ∀ k < vgaHeight * vgaWidth, b' k = e := by
  obtain ⟨b', hr, h⟩ := forRows_spec (I := fun i b' => ∀ k, b' k = if 0 ≤ k ∧ k < i then e else b k) (b := b)
    (f := fun b index => writeEntry b index e) vgaHeight (fun k => by rw [if_neg (by omega)]) fun i hi b' hb' =>
      ⟨_, writeEntry_some e hi, fun k => update_range (Nat.zero_le i) hb'⟩
  exact ⟨b', hr, fun k hk => by rw [h, if_pos ⟨Nat.zero_le k, hk⟩]⟩

/-- Every row but the last takes the entries of the next one: the copy in place
reads each entry before it is overwritten. -/
theorem scroll_spec (b : Nat → UInt16) :
    ∃ b', (List.range (vgaHeight - 1)).foldlM
        (forRow fun b index => do writeEntry b index (← readEntry b (index + vgaWidth))) b = some b' ∧
      ∀ k, b' k = if 0 ≤ k ∧ k < (vgaHeight - 1) * vgaWidth then b (k + vgaWidth) else b k := by
  refine forRows_spec (I := fun i b' => ∀ k, b' k = if 0 ≤ k ∧ k < i then b (k + vgaWidth) else b k) (vgaHeight - 1)
    (fun k => by rw [if_neg (by omega)]) fun i hi b' hb' => ?_
  have hread : readEntry b' (i + vgaWidth) = some (b (i + vgaWidth)) := by
    rw [readEntry_some (by simp only [vgaHeight, vgaWidth] at *; omega), hb', if_neg (by omega)]
  refine ⟨Function.update b' i (b (i + vgaWidth)), ?_, fun k => ?_⟩
  · simp only [hread]
    exact writeEntry_some _ (by simp only [vgaHeight, vgaWidth] at *; omega)
  · exact update_range (g := fun k => b (k + vgaWidth)) (Nat.zero_le i) hb'

/-! ## Rows on the screen -/

/-- The screen shows the last 25 of the rows. -/
def Cells (rows : List (List UInt8)) (t : Terminal) : Prop :=
  ∀ y < vgaHeight, ∀ x < vgaWidth,
    t.buffer (y * vgaWidth + x) = vgaEntry (cell space (rows.rtake vgaHeight) y x) t.color

/-- A new row: the screen scrolls when it is full. -/
theorem terminalIncrementRow_cells (hrow : t.row + 1 = min rows.length vgaHeight) (h : Cells rows t) :
    ∃ t', terminalIncrementRow t = some t' ∧ t'.row + 1 = min (rows.length + 1) vgaHeight ∧
      t'.column = t.column ∧ t'.color = t.color ∧ Cells (rows ++ [[]]) t' := by
  unfold terminalIncrementRow
  by_cases hfull : t.row + 1 ≥ vgaHeight
  · obtain ⟨b₁, hr₁, h₁⟩ := scroll_spec t.buffer
    obtain ⟨b₂, hr₂, h₂⟩ := fillRow_spec (vgaEntry space t.color) b₁ (y := vgaHeight - 1) (by decide)
    refine ⟨{ t with row := vgaHeight - 1, buffer := b₂ }, ?_, ?_, rfl, rfl, fun y hy x hx => ?_⟩
    · rw [if_pos hfull, hr₁, Option.bind_eq_bind, Option.bind_some, hr₂]
      rfl
    · simp only [vgaHeight] at *
      omega
    · have hlen : ¬ rows.length < vgaHeight := by omega
      rw [cell_rtake_concat, if_neg hlen]
      show b₂ (y * vgaWidth + x) = vgaEntry _ t.color
      rw [h₂]
      by_cases hlast : y = vgaHeight - 1
      · rw [if_pos (by rw [hlast]; simp only [vgaHeight, vgaWidth] at *; omega), cell_of_le]
        rw [List.rtake, List.length_drop]
        omega
      · rw [if_neg (by simp only [vgaHeight, vgaWidth] at *; omega), h₁,
          if_pos (by simp only [vgaHeight, vgaWidth] at *; omega), ← h (y + 1) (by omega) x hx]
        congr 1
        rw [Nat.succ_mul]
        omega
  · refine ⟨{ t with row := t.row + 1 }, if_neg hfull, ?_, rfl, rfl, fun y hy x hx => ?_⟩
    · show t.row + 1 + 1 = _
      omega
    · rw [cell_rtake_concat, if_pos (by omega)]
      exact h y hy x hx

/-- A character at the cursor. -/
theorem terminalPutentryat_cells (c : UInt8) (hrow : t.row + 1 = min l.rows.length vgaHeight)
    (hcol : t.column = l.current.length) (hlt : t.column < vgaWidth) (h : Cells l.rows t) :
    ∃ b, terminalPutentryat t c t.color t.column t.row = some { t with buffer := b } ∧
      Cells (l.ended ++ [l.current ++ [c]]) { t with buffer := b } := by
  have hlen : l.rows.length = l.ended.length + 1 := by rw [Layout.rows, List.length_append, List.length_singleton]
  have hindex : t.row * vgaWidth + t.column < vgaHeight * vgaWidth := by
    simp only [vgaHeight, vgaWidth] at *
    omega
  refine ⟨Function.update t.buffer (t.row * vgaWidth + t.column) (vgaEntry c t.color), ?_, fun y hy x hx => ?_⟩
  · simp only [terminalPutentryat, writeEntry_some _ hindex]
    rfl
  · have hwindow : cell space ((l.ended ++ [l.current ++ [c]]).rtake vgaHeight) y x =
        if y = t.row ∧ x = t.column then c else cell space (l.rows.rtake vgaHeight) y x := by
      rw [cell_rtake, cell_rtake, List.length_append, List.length_singleton, ← hlen, cell_put, hcol]
      exact if_congr (by omega) rfl rfl
    show Function.update t.buffer _ _ (y * vgaWidth + x) = _
    rw [hwindow]
    by_cases hpos : y = t.row ∧ x = t.column
    · rw [if_pos hpos, hpos.1, hpos.2, Function.update_self]
    · have hne : y * vgaWidth + x ≠ t.row * vgaWidth + t.column := by
        simp only [vgaWidth] at *
        omega
      rw [if_neg hpos, Function.update_of_ne hne]
      exact h y hy x hx

/-! ## The terminal and the layout -/

/-- The terminal shows the layout, and the cursor is at its end. -/
structure Shows (l : Layout UInt8) (t : Terminal) : Prop where
  color : t.color = vgaEntryColor vgaColorLightGrey vgaColorBlack
  row : t.row + 1 = min l.rows.length vgaHeight
  column : t.column = l.current.length
  column_lt : t.column < vgaWidth
  cells : Cells l.rows t

/-- `terminal_init` shows the empty text. -/
theorem shows_init (t : Terminal) : ∃ t', terminalInit t = some t' ∧ Shows ⟨[], []⟩ t' := by
  obtain ⟨b, hr, hb⟩ := fillScreen_spec (vgaEntry space (vgaEntryColor vgaColorLightGrey vgaColorBlack)) t.buffer
  refine ⟨⟨0, 0, _, b⟩, ?_, rfl, rfl, rfl, Nat.zero_lt_succ _, fun y hy x hx => ?_⟩
  · simp only [terminalInit]
    rw [hr]
    rfl
  · show b (y * vgaWidth + x) = _
    rw [hb _ (by simp only [vgaHeight, vgaWidth] at *; omega)]
    cases y with
    | zero => rfl
    | succ y =>
      rw [cell_of_le _ (by rw [List.rtake, List.length_drop]; exact Nat.le_add_left 1 y)]
      rfl

/-- `terminal_put_char` adds a character. -/
theorem Shows.putChar (h : Shows l t) (c : UInt8) :
    ∃ t', terminalPutChar t c = some t' ∧ Shows (l.add vgaWidth newline c) t' := by
  unfold terminalPutChar Layout.add
  by_cases hc : c = newline
  · obtain ⟨t', hr, hrow, hcol, hcolor, hcells⟩ :=
      terminalIncrementRow_cells (t := { t with column := 0 }) h.row h.cells
    refine ⟨t', ?_, ?_⟩
    · rw [if_pos hc]
      exact hr
    · rw [if_pos hc]
      exact ⟨hcolor.trans h.color, by simpa [Layout.rows] using hrow, hcol, hcol ▸ Nat.zero_lt_succ _, hcells⟩
  · obtain ⟨b, hput, hcells⟩ := terminalPutentryat_cells c h.row h.column h.column_lt h.cells
    have hlen : (l.current ++ [c]).length = t.column + 1 := by
      rw [List.length_append, List.length_singleton, h.column]
    have hrows : (l.ended ++ [l.current ++ [c]]).length = l.rows.length := by simp [Layout.rows]
    simp only [if_neg hc, hput, Option.bind_eq_bind, Option.bind_some]
    by_cases hwrap : t.column + 1 ≥ vgaWidth
    · -- The row ends with this character.
      have hfull : (l.current ++ [c]).length = vgaWidth := by
        have := h.column_lt
        omega
      obtain ⟨t', hr, hrow, hcol, hcolor, hcells'⟩ := @terminalIncrementRow_cells { t with column := 0, buffer := b } _
        (by rw [hrows]; exact h.row) hcells
      refine ⟨t', ?_, ?_⟩
      · rw [if_pos hwrap]
        exact hr
      · rw [if_pos hfull]
        exact ⟨hcolor.trans h.color, by simpa [Layout.rows] using hrow, hcol, hcol ▸ Nat.zero_lt_succ _, hcells'⟩
    · have hpart : (l.current ++ [c]).length ≠ vgaWidth := by omega
      refine ⟨{ t with column := t.column + 1, buffer := b }, ?_, ?_⟩
      · rw [if_neg hwrap]
      · rw [if_neg hpart]
        exact ⟨h.color, by simpa [Layout.rows] using h.row, hlen.symm, by simpa using hwrap, hcells⟩

/-- Any text. -/
theorem Shows.putChars (h : Shows l t) (text : List UInt8) :
    ∃ t', text.foldlM terminalPutChar t = some t' ∧ Shows (text.foldl (Layout.add vgaWidth newline) l) t' := by
  induction text generalizing l t with
  | nil => exact ⟨t, rfl, h⟩
  | cons c text ih =>
    obtain ⟨t₁, hr₁, h₁⟩ := h.putChar c
    obtain ⟨t₂, hr₂, h₂⟩ := ih h₁
    refine ⟨t₂, ?_, h₂⟩
    rw [List.foldlM_cons, hr₁]
    exact hr₂

/-- After `terminal_init` and any text, put character by character with every
access inside the buffer, the screen shows the last 25 rows of the text. -/
theorem terminal_shows_tail (t₀ : Terminal) (text : List UInt8) :
    ∃ t, (terminalInit t₀ >>= text.foldlM terminalPutChar) = some t ∧ t.row < vgaHeight ∧ t.column < vgaWidth ∧
      ∀ y < vgaHeight, ∀ x < vgaWidth, t.buffer (y * vgaWidth + x) =
        vgaEntry (cell space ((layout vgaWidth newline text).rows.rtake vgaHeight) y x)
          (vgaEntryColor vgaColorLightGrey vgaColorBlack) := by
  obtain ⟨t₁, hr₁, h₁⟩ := shows_init t₀
  obtain ⟨t, hr, h⟩ := h₁.putChars text
  have hrow := h.row
  refine ⟨t, ?_, by omega, h.column_lt, fun y hy x hx => ?_⟩
  · rw [hr₁]
    exact hr
  · rw [← h.color]
    exact h.cells y hy x hx

end OSForReal.Proof
