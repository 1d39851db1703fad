import Mathlib.Data.List.Basic
import OSForReal.Framework.Res

/-!
# The serial port 16550

A port sends the bytes of its holding register, or of its FIFO, whenever it likes
(`UartBehaviour`), with the divisor and the format that it is set to. A byte for which
there is no room is lost. In loopback what would be sent is received at once.
Nothing comes in on the line.

* `output_elapse`, `output_send`: what has been sent and will be;
* `exists_holding_eq_nil`: every byte is sent in the end.
-/

namespace Framework

/-- What a port chooses: how many bytes it sends before the `n`-th access, and the bits that are not modelled. -/
structure UartBehaviour where
  sends : Nat → Nat
  /-- It never stops sending. -/
  sends_again : ∀ n, ∃ k ≥ n, 0 < sends k
  other : Nat → UInt8

/-- A byte on the line, with the divisor and the line control that it is sent with. -/
structure UartFrame where
  divisorLow : UInt8
  divisorHigh : UInt8
  lineControl : UInt8
  byte : UInt8
deriving DecidableEq, Repr

/-- The settings of a port. -/
structure UartSettings where
  divisorLow : UInt8
  divisorHigh : UInt8
  interruptEnable : UInt8
  lineControl : UInt8
  modemControl : UInt8
  /-- The FIFOs are in use. -/
  fifo : Bool

namespace UartSettings

/-- The registers 0 and 1 are the divisor. -/
def dlab (s : UartSettings) : Bool := s.lineControl &&& 0x80 != 0

def loopback (s : UartSettings) : Bool := s.modemControl &&& 0x10 != 0

/-- How many bytes may wait to be sent. -/
def room (s : UartSettings) : Nat := if s.fifo then 16 else 1

def frame (s : UartSettings) (byte : UInt8) : UartFrame := ⟨s.divisorLow, s.divisorHigh, s.lineControl, byte⟩

/-- A register is written. -/
def write (reg : Nat) (v : UInt8) (s : UartSettings) : UartSettings :=
  if reg = 0 then if s.dlab then { s with divisorLow := v } else s
  else if reg = 1 then if s.dlab then { s with divisorHigh := v } else { s with interruptEnable := v }
  else if reg = 2 then { s with fifo := v &&& 1 != 0 }
  else if reg = 3 then { s with lineControl := v }
  else if reg = 4 then { s with modemControl := v }
  else s

end UartSettings

/-- A port. -/
structure Uart extends UartSettings where
  received : List UInt8
  /-- The bytes that are still to be sent. -/
  holding : List UInt8
  line : List UartFrame
  accesses : Nat

namespace Uart

/-- Bytes are received: a full FIFO keeps the first ones, and the register the last one. -/
def receive (bytes : List UInt8) (u : Uart) : Uart :=
  let received := u.received ++ bytes
  { u with received := if u.fifo then received.take 16 else received.drop (received.length - 1) }

/-- What happens before an access. -/
def elapse (B : UartBehaviour) (u : Uart) : Uart :=
  if u.loopback then { u.receive u.holding with holding := [], accesses := u.accesses + 1 }
  else
    { u with
      line := u.line ++ (u.holding.take (B.sends u.accesses)).map u.frame
      holding := u.holding.drop (B.sends u.accesses)
      accesses := u.accesses + 1 }

/-- The transmit register is written. -/
def send (byte : UInt8) (u : Uart) : Uart :=
  if u.holding.length < u.room then { u with holding := u.holding ++ [byte] } else u

/-- The FIFO control register is written: the FIFOs are emptied on request, and when they are turned on or off. -/
def fifoControl (v : UInt8) (u : Uart) : Uart :=
  let fifo := v &&& 1 != 0
  { u with
    fifo
    received := if fifo != u.fifo || fifo && v &&& 2 != 0 then [] else u.received
    holding := if fifo != u.fifo || fifo && v &&& 4 != 0 then [] else u.holding }

/-- A register is read. -/
def in8 (B : UartBehaviour) (reg : Nat) (u : Uart) : UInt8 × Uart :=
  let other := B.other u.accesses
  let u := u.elapse B
  if reg = 0 then
    if u.dlab then (u.divisorLow, u) else (u.received.headD other, { u with received := u.received.tail })
  else if reg = 1 then (if u.dlab then u.divisorHigh else u.interruptEnable, u)
  else if reg = 3 then (u.lineControl, u)
  else if reg = 4 then (u.modemControl, u)
  else if reg = 5 then (if u.holding = [] then other ||| 0x20 else other &&& ~~~0x20, u)
  else (other, u)

/-- A register is written. -/
def out8 (B : UartBehaviour) (reg : Nat) (v : UInt8) (u : Uart) : Uart :=
  let u := u.elapse B
  if reg = 0 ∧ u.dlab = false then u.send v
  else if reg = 2 then u.fifoControl v
  else { u with toUartSettings := u.toUartSettings.write reg v }

/-- What has been sent, and what will be with the settings as they are. -/
def output (u : Uart) : List UartFrame := u.line ++ u.holding.map u.frame

variable {B : UartBehaviour} {u : Uart} {byte : UInt8}

/-! ## Settings -/

@[simp] theorem settings_elapse (B : UartBehaviour) (u : Uart) : (u.elapse B).toUartSettings = u.toUartSettings := by
  unfold elapse
  split
  · rfl
  · rfl

@[simp] theorem settings_send (byte : UInt8) (u : Uart) : (u.send byte).toUartSettings = u.toUartSettings := by
  unfold send
  split
  · rfl
  · rfl

@[simp] theorem settings_in8 (B : UartBehaviour) (reg : Nat) (u : Uart) :
    (u.in8 B reg).2.toUartSettings = u.toUartSettings := by
  rw [← settings_elapse B u]
  simp only [in8]
  split_ifs <;> rfl

@[simp] theorem settings_out8 (B : UartBehaviour) (reg : Nat) (v : UInt8) (u : Uart) :
    (u.out8 B reg v).toUartSettings = u.toUartSettings.write reg v := by
  simp only [out8, settings_elapse]
  split_ifs with hsend hfifo
  · rw [settings_send, settings_elapse, UartSettings.write, if_pos hsend.1, hsend.2]
    rfl
  · rw [hfifo, ← settings_elapse B u]
    rfl
  · rfl

/-! ## What is sent -/

/-- Nothing is lost on the way to the line. -/
theorem output_elapse (h : u.loopback = false) : (u.elapse B).output = u.output := by
  have hsplit := List.take_append_drop (B.sends u.accesses) u.holding
  rw [elapse, h]
  show u.line ++ (u.holding.take _).map u.frame ++ (u.holding.drop _).map u.frame = u.line ++ u.holding.map u.frame
  rw [List.append_assoc, ← List.map_append, hsplit]

/-- A byte for an empty port is sent after all others. -/
theorem output_send (h : u.holding = []) : (u.send byte).output = u.output ++ [u.frame byte] := by
  have hroom : u.holding.length < u.room := by
    rw [h, UartSettings.room]
    split <;> decide
  rw [send, if_pos hroom]
  show u.line ++ (u.holding ++ [byte]).map u.frame = u.line ++ u.holding.map u.frame ++ [u.frame byte]
  rw [List.map_append, List.append_assoc]
  rfl

/-! ## All bytes are sent -/

theorem elapse_holding (h : u.loopback = false) : (u.elapse B).holding = u.holding.drop (B.sends u.accesses) := by
  rw [elapse, h]
  rfl

theorem elapse_accesses (B : UartBehaviour) (u : Uart) : (u.elapse B).accesses = u.accesses + 1 := by
  unfold elapse
  split
  · rfl
  · rfl

/-- What waiting keeps. -/
theorem iterate_spec (h : u.loopback = false) (j : Nat) :
    ((elapse B)^[j] u).toUartSettings = u.toUartSettings ∧ ((elapse B)^[j] u).output = u.output ∧
      ((elapse B)^[j] u).accesses = u.accesses + j ∧ ((elapse B)^[j] u).holding.length ≤ u.holding.length := by
  induction j with
  | zero => exact ⟨rfl, rfl, rfl, Nat.le_refl _⟩
  | succ j ih =>
    obtain ⟨hsame, houtput, haccesses, hlength⟩ := ih
    have hloop : ((elapse B)^[j] u).loopback = false := hsame ▸ h
    rw [Function.iterate_succ_apply']
    refine ⟨(settings_elapse B _).trans hsame, (output_elapse hloop).trans houtput, ?_, ?_⟩
    · rw [elapse_accesses, haccesses, Nat.add_assoc]
    · rw [elapse_holding hloop, List.length_drop]
      omega

/-- A port that waits has sent everything in the end. -/
theorem exists_holding_eq_nil (B : UartBehaviour) (h : u.loopback = false) : ∃ j, ((elapse B)^[j + 1] u).holding = [] := by
  suffices hless : ∀ n, ∃ j, ((elapse B)^[j + 1] u).holding.length ≤ u.holding.length - n by
    obtain ⟨j, hj⟩ := hless u.holding.length
    exact ⟨j, List.eq_nil_of_length_eq_zero (by omega)⟩
  intro n
  induction n with
  | zero => exact ⟨0, (iterate_spec h 1).2.2.2⟩
  | succ n ih =>
    obtain ⟨j, hj⟩ := ih
    -- The next access before which the port sends something.
    obtain ⟨hsame, -, haccesses, -⟩ := @iterate_spec B u h (j + 1)
    obtain ⟨k, hk, hsends⟩ := B.sends_again (u.accesses + (j + 1))
    obtain ⟨d, rfl⟩ := Nat.exists_eq_add_of_le hk
    have hloop : ((elapse B)^[j + 1] u).loopback = false := hsame ▸ h
    obtain ⟨hsame', -, haccesses', hlength⟩ := @iterate_spec B _ hloop d
    have hloop' : ((elapse B)^[d] ((elapse B)^[j + 1] u)).loopback = false := hsame' ▸ hloop
    refine ⟨d + (j + 1), ?_⟩
    have hsplit : (elapse B)^[d + (j + 1) + 1] u = elapse B ((elapse B)^[d] ((elapse B)^[j + 1] u)) := by
      rw [Function.iterate_succ_apply', Function.iterate_add_apply]
    rw [hsplit, elapse_holding hloop', haccesses', haccesses, List.length_drop]
    omega

/-! ## Registers -/

/-- Bit 5 of the line status says that there is nothing left to send. -/
theorem in8_status (B : UartBehaviour) (u : Uart) :
    ((u.in8 B 5).1 &&& 0x20 ≠ 0 ↔ (u.elapse B).holding = []) ∧ (u.in8 B 5).2 = u.elapse B := by
  have hset : ∀ v : UInt8, (v ||| 0x20) &&& 0x20 = 0x20 := fun v => by
    apply UInt8.toBitVec_inj.mp
    ext i hi
    simp
    grind
  have hclear : ∀ v : UInt8, v &&& ~~~0x20 &&& 0x20 = 0 := fun v => by
    rw [UInt8.and_assoc]
    simp
  refine ⟨?_, rfl⟩
  show (if (u.elapse B).holding = [] then B.other u.accesses ||| 0x20 else B.other u.accesses &&& ~~~0x20) &&& 0x20 ≠ 0 ↔ _
  by_cases h : (u.elapse B).holding = []
  · rw [if_pos h, hset]
    exact iff_of_true (by decide) h
  · rw [if_neg h, hclear]
    exact iff_of_false (by simp) h

theorem out8_transmit (h : u.dlab = false) : u.out8 B 0 byte = (u.elapse B).send byte := by
  have hsend : (0 : Nat) = 0 ∧ (u.elapse B).dlab = false := ⟨rfl, by rwa [settings_elapse]⟩
  exact if_pos hsend

/-! ## An idle port -/

/-- Nothing is on its way. -/
def Idle (u : Uart) : Prop := u.received = [] ∧ u.holding = []

theorem Idle.elapse (h : u.Idle) (B : UartBehaviour) : (u.elapse B).Idle := by
  unfold Uart.elapse
  split
  · refine ⟨?_, rfl⟩
    show (if u.fifo then (u.received ++ u.holding).take 16 else _) = []
    rw [h.1, h.2]
    split
    · rfl
    · rfl
  · refine ⟨h.1, ?_⟩
    show u.holding.drop _ = []
    rw [h.2, List.drop_nil]

/-- A write of one of the other registers sends nothing. -/
theorem Idle.out8 {reg : Nat} (h : u.Idle) (B : UartBehaviour) (hreg : 2 < reg) (v : UInt8) : (u.out8 B reg v).Idle := by
  have hsend : ¬ (reg = 0 ∧ (u.elapse B).dlab = false) := by omega
  have hfifo : ¬ reg = 2 := by omega
  show Idle (if _ then _ else _)
  rw [if_neg hsend, if_neg hfifo]
  exact h.elapse B

/-- The FIFOs are emptied. -/
theorem idle_out8_fifo (B : UartBehaviour) {v : UInt8} (u : Uart) (h : v &&& 1 = 1 ∧ v &&& 2 = 2 ∧ v &&& 4 = 4) :
    (u.out8 B 2 v).Idle := by
  constructor
  · show (if (v &&& 1 != 0) != _ || (v &&& 1 != 0) && v &&& 2 != 0 then [] else _) = []
    rw [h.1, h.2.1]
    exact if_pos (by simp)
  · show (if (v &&& 1 != 0) != _ || (v &&& 1 != 0) && v &&& 4 != 0 then [] else _) = []
    rw [h.1, h.2.2]
    exact if_pos (by simp)

/-- In loopback, a byte that is written to an idle port is read next. -/
theorem Idle.echo (h : u.Idle) (B : UartBehaviour) (hdlab : u.dlab = false) (hloopback : u.loopback = true) (byte : UInt8) :
    ((u.out8 B 0 byte).in8 B 0).1 = byte ∧ ((u.out8 B 0 byte).in8 B 0).2.Idle := by
  obtain ⟨hreceived, hholding⟩ := h.elapse B
  have hroom : (u.elapse B).holding.length < (u.elapse B).room := by
    rw [hholding, UartSettings.room]
    split <;> decide
  have hsent : u.out8 B 0 byte = { u.elapse B with holding := [byte] } := by
    rw [out8_transmit hdlab, send, if_pos hroom, hholding]
    rfl
  have hloop : (u.out8 B 0 byte).loopback = true := by
    rwa [out8_transmit hdlab, settings_send, settings_elapse]
  have hback : ((u.out8 B 0 byte).elapse B).received = [byte] ∧ ((u.out8 B 0 byte).elapse B).holding = [] := by
    rw [Uart.elapse, if_pos hloop]
    refine ⟨?_, rfl⟩
    show (if (u.out8 B 0 byte).fifo then _ else _) = [byte]
    rw [hsent]
    show (if (u.elapse B).fifo then ((u.elapse B).received ++ [byte]).take 16 else
      ((u.elapse B).received ++ [byte]).drop (((u.elapse B).received ++ [byte]).length - 1)) = [byte]
    rw [hreceived]
    split
    · rfl
    · rfl
  have hread : ¬ ((u.out8 B 0 byte).elapse B).dlab = true := by
    rw [settings_elapse, out8_transmit hdlab, settings_send, settings_elapse, hdlab]
    decide
  show (if ((u.out8 B 0 byte).elapse B).dlab = true then _ else _ : UInt8 × Uart).1 = byte ∧ Idle (if _ then _ else _ : UInt8 × Uart).2
  rw [if_neg hread]
  refine ⟨?_, ?_, hback.2⟩
  · rw [hback.1]
    rfl
  · show ((u.out8 B 0 byte).elapse B).received.tail = []
    rw [hback.1]
    rfl

end Uart

end Framework
