import OSForReal.Framework.Res

/-!
# The serial port (`hal/serial.c`, `hal/serial_def.h`)

`serial_init` and `serial_write` over any `PortIo`: what reading and writing
a byte at a port does.
-/

namespace OSForReal

open Framework (Res)

/-- `in_8` and `out_8`. -/
structure PortIo (σ : Type) where
  in8 : UInt16 → σ → UInt8 × σ
  out8 : UInt16 → UInt8 → σ → σ

/-- `PORT` -/
def port : UInt16 := 0x3f8

section

variable {σ : Type} (P : PortIo σ)

/-- `serial_init` -/
def serialInit (s : σ) : Bool × σ :=
  let s := P.out8 (port + 1) 0x00 s
  let s := P.out8 (port + 3) 0x80 s
  let s := P.out8 (port + 0) 0x03 s
  let s := P.out8 (port + 1) 0x00 s
  let s := P.out8 (port + 3) 0x03 s
  let s := P.out8 (port + 2) 0xC7 s
  let s := P.out8 (port + 4) 0x0B s
  -- The loopback test.
  let s := P.out8 (port + 4) 0x1E s
  let s := P.out8 (port + 0) 0xAE s
  let (echo, s) := P.in8 (port + 0) s
  if echo ≠ 0xAE then (false, s) else (true, P.out8 (port + 4) 0x0F s)

/-- `serial_is_transmit_empty` -/
def serialIsTransmitEmpty (s : σ) : Bool × σ :=
  let (status, s) := P.in8 (port + 5) s
  (status &&& 0x20 ≠ 0, s)

/-- The `while` of `serial_write`. -/
def awaitTransmitEmpty (fuel : Nat) (s : σ) : Res σ :=
  Res.loop (fun s =>
    let (empty, s) := serialIsTransmitEmpty P s
    .ok (if empty = false then .inl s else .inr s)) fuel s

/-- `serial_write` -/
def serialWrite (fuel : Nat) (a : UInt8) (s : σ) : Res σ := do
  let s ← awaitTransmitEmpty P fuel s
  .ok (P.out8 port a s)

end

end OSForReal
