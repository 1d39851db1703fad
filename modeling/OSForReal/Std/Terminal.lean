import Mathlib.Tactic.Ring

/-!
# The terminal (`std/terminal.c`, `hal/vga.c`)

Text on the VGA screen: `terminal_put_char` writes at the cursor, wraps at the
end of a row and scrolls at the end of the screen. Characters are bytes. An
access outside the buffer ends in `none`.
-/

namespace OSForReal

/-- `VGA_WIDTH` -/
abbrev vgaWidth : Nat := 80

/-- `VGA_HEIGHT` -/
abbrev vgaHeight : Nat := 25

/-- `VGA_COLOR_BLACK` -/
def vgaColorBlack : UInt8 := 0

/-- `VGA_COLOR_LIGHT_GREY` -/
def vgaColorLightGrey : UInt8 := 7

/-- `vga_entry_color` -/
def vgaEntryColor (fg bg : UInt8) : UInt8 := fg ||| bg <<< 4

/-- `vga_entry` -/
def vgaEntry (uc color : UInt8) : UInt16 := uc.toUInt16 ||| color.toUInt16 <<< 8

/-- The globals of `terminal.c`, with what `terminal_buffer` points at. -/
structure Terminal where
  row : Nat
  column : Nat
  color : UInt8
  buffer : Nat → UInt16

/-- Reads `terminal_buffer[index]`. -/
def readEntry (buffer : Nat → UInt16) (index : Nat) : Option UInt16 :=
  if index < vgaHeight * vgaWidth then some (buffer index) else none

/-- Writes `terminal_buffer[index]`. -/
def writeEntry (buffer : Nat → UInt16) (index : Nat) (entry : UInt16) : Option (Nat → UInt16) :=
  if index < vgaHeight * vgaWidth then some (Function.update buffer index entry) else none

/-- The body of an outer loop over a row: `f` at each of its indices. -/
def forRow (f : (Nat → UInt16) → Nat → Option (Nat → UInt16)) (buffer : Nat → UInt16) (y : Nat) :
    Option (Nat → UInt16) :=
  (List.range vgaWidth).foldlM (fun b x => f b (y * vgaWidth + x)) buffer

/-- `terminal_init` -/
def terminalInit (t : Terminal) : Option Terminal := do
  let color := vgaEntryColor vgaColorLightGrey vgaColorBlack
  let buffer ← (List.range vgaHeight).foldlM
    (forRow fun b index => writeEntry b index (vgaEntry (Char.toUInt8 ' ') color)) t.buffer
  some { row := 0, column := 0, color, buffer }

/-- `_terminal_increment_row` -/
def terminalIncrementRow (t : Terminal) : Option Terminal := do
  let row := t.row + 1
  if row ≥ vgaHeight then
    -- Scroll the screen up, in place.
    let buffer ← (List.range (vgaHeight - 1)).foldlM
      (forRow fun b index => do writeEntry b index (← readEntry b (index + vgaWidth))) t.buffer
    let buffer ← forRow (fun b index => writeEntry b index (vgaEntry (Char.toUInt8 ' ') t.color)) buffer (vgaHeight - 1)
    some { t with row := vgaHeight - 1, buffer }
  else some { t with row }

/-- `terminal_putentryat` -/
def terminalPutentryat (t : Terminal) (c color : UInt8) (x y : Nat) : Option Terminal := do
  let index := y * vgaWidth + x
  let buffer ← writeEntry t.buffer index (vgaEntry c color)
  some { t with buffer }

/-- `terminal_put_char` -/
def terminalPutChar (t : Terminal) (c : UInt8) : Option Terminal :=
  if c = Char.toUInt8 '\n' then terminalIncrementRow { t with column := 0 }
  else do
    let t ← terminalPutentryat t c t.color t.column t.row
    let column := t.column + 1
    if column ≥ vgaWidth then terminalIncrementRow { t with column := 0 } else some { t with column }

end OSForReal
