import OSForReal.Hal.Serial
import OSForReal.Std.Io
import OSForReal.Std.Terminal

/-!
# The console (`std/io.c`, `kernel/kernel.c`)

What `put_char` prints goes to the screen and then to the serial port. A run of
`fmt_print_impl` makes the calls that it has recorded, in order.
-/

namespace OSForReal

open Framework (Bytes Res)

/-- The terminal, and a machine with the serial port. -/
structure Console (σ : Type) where
  terminal : Terminal
  machine : σ

section

variable {σ : Type} (P : PortIo σ)

/-- `put_char`. What an access outside the screen does is not defined: the run ends. -/
def putChar (fuel : Nat) (s : Console σ) (c : UInt8) : Res (Console σ) :=
  match terminalPutChar s.terminal c with
  | none => .halt
  | some terminal => do
    let machine ← serialWrite P fuel c s.machine
    .ok { terminal, machine }

/-- An event of a run of `fmt_print_impl`: its calls print their characters, and the others do nothing here. -/
def performEvent (m : Bytes) (fuel : Nat) (s : Console σ) : Io.PrintEvent → Res (Console σ)
  | .put call => do
    let chars ← call.chars m fuel
    chars.foldlM (putChar P fuel) s
  | .cursor _ => .ok s
  | .fetch _ => .ok s

/-- `fmt_print` of the string at `fmt`, with its arguments on the stack and the 0 that the macro adds. -/
def fmtPrint (m : Bytes) (stack : Nat → Io.Slot) (fmt fuel : Nat) (s : Console σ) : Res (Console σ) := do
  let run := Io.fmtPrintImpl m stack fuel fmt
  let s ← run.trace.foldlM (performEvent P m fuel) s
  run.val
  .ok s

/-- The first part of `kernel_init`, which has the console ready. -/
def kernelInitConsole (fuel : Nat) (s : Console σ) : Res (Console σ) :=
  match terminalInit s.terminal with
  | none => .halt
  | some terminal => do
    let (initted, machine) := serialInit P s.machine
    Res.assert (initted = true)
    let machine ← serialWrite P fuel (Char.toUInt8 '\n') machine
    .ok { terminal, machine }

end

end OSForReal
