import OSForReal.Framework.X86

/-!
# Interrupt stubs (`arch/x86/asm_stubs.s`, `arch/x86/interrupts_def.h`)

The code that the CPU enters for each vector, and the `Interrupt_Frame` that the handlers
in C are given a pointer to.
-/

namespace OSForReal.Interrupts

open Framework.X86

/-- What the stubs call. -/
inductive Handler where
  | cExceptionHandler
  | cInterruptDispatch
deriving DecidableEq, Repr

abbrev Code := List (Instr Handler)

/-- `exc_start_with_err_code` -/
def excStartWithErrCode (iv : Nat) : Code := [
  .push .eax,
  .push .ecx,
  .push .edx,
  .push .ebx,
  .push .ebp,
  .push .esi,
  .push .edi,
  -- Call the C exception handler.
  .push .esp,
  .pushImm (BitVec.ofNat 32 iv),
  .call .cExceptionHandler,
  .add 8 .esp,
  .pop .edi,
  .pop .esi,
  .pop .ebp,
  .pop .ebx,
  .pop .edx,
  .pop .ecx,
  .pop .eax,
  .iret]

/-- `exc_start` -/
def excStart (iv : Nat) : Code := [
  -- Fills the slot of the error code.
  .pushImm 0,
  .push .eax,
  .push .ecx,
  .push .edx,
  .push .ebx,
  .push .ebp,
  .push .esi,
  .push .edi,
  -- Call the C exception handler.
  .push .esp,
  .pushImm (BitVec.ofNat 32 iv),
  .call .cExceptionHandler,
  .add 8 .esp,
  .pop .edi,
  .pop .esi,
  .pop .ebp,
  .pop .ebx,
  .pop .edx,
  .pop .ecx,
  .pop .eax,
  .add 4 .esp,
  .iret]

/-- `int_start` -/
def intStart (iv : Nat) : Code := [
  .push .eax,
  .push .ecx,
  .push .edx,
  .push .ebx,
  .push .ebp,
  .push .esi,
  .push .edi,
  -- Call the C interrupt dispatch.
  .push .esp,
  .pushImm (BitVec.ofNat 32 iv),
  .call .cInterruptDispatch,
  .add 8 .esp,
  .pop .edi,
  .pop .esi,
  .pop .ebp,
  .pop .ebx,
  .pop .edx,
  .pop .ecx,
  .pop .eax,
  .iret]

/-- The vectors of the lines `exc_start_with_err_code`. -/
def vectorsWithErrCode : List Nat := [8, 11, 12, 13, 14, 17, 21, 29, 30]

/-- The stub for a vector, `exc_start_0` to `exc_start_31` and `int_start_32` to `int_start_255`. -/
def stub (iv : Nat) : Code :=
  if iv ∈ vectorsWithErrCode then excStartWithErrCode iv
  else if iv < 32 then excStart iv
  else intStart iv

/-- `Interrupt_Frame` -/
structure InterruptFrame where
  edi : Word
  esi : Word
  ebp : Word
  ebx : Word
  edx : Word
  ecx : Word
  eax : Word
  errorCode : BitVec 16
  errorCodeHigh : BitVec 16
  eip : Word
  cs : BitVec 16
  csHigh : BitVec 16
  eflags : Word
  esp : Word
  ss : BitVec 16
  ssHigh : BitVec 16
deriving DecidableEq, Repr

/-- The `Interrupt_Frame` at `p`. -/
def frameAt (m : Memory) (p : Word) : InterruptFrame where
  edi := load m p
  esi := load m (p + 4)
  ebp := load m (p + 8)
  ebx := load m (p + 12)
  edx := load m (p + 16)
  ecx := load m (p + 20)
  eax := load m (p + 24)
  errorCode := loadHalf m (p + 28)
  errorCodeHigh := loadHalf m (p + 30)
  eip := load m (p + 32)
  cs := loadHalf m (p + 36)
  csHigh := loadHalf m (p + 38)
  eflags := load m (p + 40)
  esp := load m (p + 44)
  ss := loadHalf m (p + 48)
  ssHigh := loadHalf m (p + 50)

/-- The second argument of a function that is entered: behind the return address and the first one. -/
def frameArgument (s : State) : Word := load s.mem (s.regs .esp + 8)

/-- The first argument. -/
def vectorArgument (s : State) : Word := load s.mem (s.regs .esp + 4)

end OSForReal.Interrupts
