import Mathlib.Data.BitVec

/-!
# The interrupt controller 8259A

A controller is set up by a command word that is followed by up to three words
at the data port (`Pic.command`, `Pic.data`), and from then on a word there is
the mask of its lines. `Pic.acknowledge` is what it tells the CPU for a line.
The commands that end interrupts or ask for the registers are not modelled.
-/

namespace Framework

/-- The word that is expected at the data port. -/
inductive PicExpects where
  | icw2 (single icw4 : Bool)
  | icw3 (icw4 : Bool)
  | icw4
  | mask
deriving DecidableEq, Repr

/-- A controller. -/
structure Pic where
  expects : PicExpects
  /-- The vector of line 0. -/
  base : BitVec 8
  mask : BitVec 8
  autoEoi : Bool
  /-- The lines that are in service. -/
  service : BitVec 8
deriving DecidableEq, Repr

namespace Pic

/-- A word at the command port: with bit 4, the controller is set up anew. -/
def command (v : BitVec 8) (p : Pic) : Pic :=
  if v.getLsbD 4 then
    { p with expects := .icw2 (v.getLsbD 1) (v.getLsbD 0), mask := 0, autoEoi := false, service := 0 }
  else p

/-- A word at the data port. -/
def data (v : BitVec 8) (p : Pic) : Pic :=
  match p.expects with
  | .icw2 single icw4 =>
    { p with base := v &&& 0xF8, expects := if !single then .icw3 icw4 else if icw4 then .icw4 else .mask }
  | .icw3 icw4 => { p with expects := if icw4 then .icw4 else .mask }
  | .icw4 => { p with autoEoi := v.getLsbD 1, expects := .mask }
  | .mask => { p with mask := v }

/-- A request of line `n`: the vector, unless the line is masked, or it or one of a higher priority is in service. -/
def acknowledge (n : Fin 8) (p : Pic) : Option (BitVec 8 × Pic) :=
  if p.mask.getLsbD n = false ∧ ∀ k : Fin 8, k ≤ n → p.service.getLsbD k = false then
    some (p.base + BitVec.ofNat 8 n, if p.autoEoi then p else { p with service := p.service ||| 1 <<< n.val })
  else none

end Pic

/-- The two controllers of a PC; line 2 of the master is that of the slave. -/
structure Pics where
  master : Pic
  slave : Pic
deriving DecidableEq, Repr

/-- A byte is written to a port. -/
def Pics.out8 (port : BitVec 16) (v : BitVec 8) (p : Pics) : Pics :=
  if port = 0x20 then { p with master := p.master.command v }
  else if port = 0x21 then { p with master := p.master.data v }
  else if port = 0xA0 then { p with slave := p.slave.command v }
  else if port = 0xA1 then { p with slave := p.slave.data v }
  else p

end Framework
