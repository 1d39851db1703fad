import Mathlib.Data.BitVec

/-!
# The programmable interrupt controllers (`hal/pic.c`, `hal/pic_def.h`)

`pic_init` over any `out_8`.
-/

namespace OSForReal

/-- `PICM_COMMAND` -/
def picmCommand : BitVec 16 := 0x20

/-- `PICM_DATA` -/
def picmData : BitVec 16 := 0x21

/-- `PICS_COMMAND` -/
def picsCommand : BitVec 16 := 0x40

/-- `PICS_DATA` -/
def picsData : BitVec 16 := 0x41

/-- `PIC_ICW1_ICW4` -/
def picIcw1Icw4 : BitVec 8 := 1 <<< 0

/-- `PIC_ICW1_INIT` -/
def picIcw1Init : BitVec 8 := 1 <<< 4

/-- `PIC_ICW3_S_IRQ` -/
def picIcw3SIrq : BitVec 8 := 1 <<< 2

/-- `PIC_ICW3_S_ID` -/
def picIcw3SId : BitVec 8 := 2

/-- `PIC_ICW4_8086` -/
def picIcw4_8086 : BitVec 8 := 1 <<< 0

/-- `PIC_ICW4_AUTO_EOI` -/
def picIcw4AutoEoi : BitVec 8 := 1 <<< 1

/-- `pic_init` -/
def picInit {σ : Type} (out8 : BitVec 16 → BitVec 8 → σ → σ) (s : σ) : σ :=
  -- Master configuration.
  let s := out8 picmCommand (picIcw1Init ||| picIcw1Icw4) s
  let s := out8 picmData 0x20 s
  let s := out8 picmData picIcw3SIrq s
  let s := out8 picmData (picIcw4_8086 ||| picIcw4AutoEoi) s
  -- Slave configuration.
  let s := out8 picsCommand (picIcw1Init ||| picIcw1Icw4) s
  let s := out8 picsData 0x30 s
  let s := out8 picsData picIcw3SId s
  let s := out8 picsData (picIcw4_8086 ||| picIcw4AutoEoi) s
  -- Unmask the PICs.
  let s := out8 picmData 0 s
  out8 picsData 0 s

end OSForReal
