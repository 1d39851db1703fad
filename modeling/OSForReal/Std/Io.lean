import OSForReal.Framework.Bytes
import OSForReal.Framework.Traced

/-!
# Printing (`std/io.c`)

The functions that print numbers and strings return the characters that they give
to `put_char`. `fmt_print_impl` is modelled on any memory and any stack. The format
is a string in memory, and the variable arguments are the 4-byte slots of the stack
from the one after `fmt` on. A run records where its cursor is moved to, which slots
`va_arg` reads, and the calls that print (`PrintEvent`). The loops run on until they
read a 0, and are bounded by fuel here.
-/

namespace OSForReal.Io

open Framework

/-! ## Numbers and strings -/

/-- A pass of the loop of `put_uint` and `put_hex` that stores the digits of `n` in reverse
order. What a store behind the `size` elements of the array does is not defined: the run ends. -/
def storeDigit (size : Nat) (digit rest : BitVec 64 → BitVec 64) (s : List UInt8 × BitVec 64) :
    Res ((List UInt8 × BitVec 64) ⊕ List UInt8) :=
  if s.2 > 0 then do
    Res.assert (s.1.length < size)
    return .inl (s.1 ++ [UInt8.ofBitVec ((digit s.2).setWidth 8)], rest s.2)
  else return .inr s.1

/-- `put_uint` and `put_hex`. Their first loop has no more passes than the array has elements, and one
that ends it. -/
def putDigits (size : Nat) (digit rest : BitVec 64 → BitVec 64) (char : UInt8 → UInt8) (n : BitVec 64) :
    Res (List UInt8) :=
  if n = 0 then return [Char.toUInt8 '0']
  else do
    let digits ← Res.loop (storeDigit size digit rest) (size + 1) ([], n)
    return (List.range digits.length).map fun i => char (digits.getD (digits.length - i - 1) 0)

/-- `put_uint` -/
def putUint (n : BitVec 64) : Res (List UInt8) :=
  putDigits 19 (fun n => n % 10) (fun n => n / 10) (fun digit => digit + Char.toUInt8 '0') n

/-- `put_hex` -/
def putHex (n : BitVec 64) : Res (List UInt8) :=
  putDigits 16 (fun n => n &&& 0xf) (fun n => n >>> 4)
    (fun c => if c ≤ 9 then c + Char.toUInt8 '0' else c - 10 + Char.toUInt8 'A') n

/-- `put_int`, with a negation that wraps; `put_uint` gets `n` as a `uint64_t`. -/
def putInt (n : BitVec 32) : Res (List UInt8) :=
  if n = 0 then return [Char.toUInt8 '0']
  else if n.toInt < 0 then do
    let chars ← putUint ((-n).signExtend 64)
    return Char.toUInt8 '-' :: chars
  else putUint (n.signExtend 64)

def strlenStep (m : Bytes) (str len : Nat) : Res (Nat ⊕ Nat) :=
  if m (str + len) ≠ 0 then .ok (.inl (len + 1)) else .ok (.inr len)

/-- `strlen` of the string at `str`. -/
def strlenAt (m : Bytes) (fuel str : Nat) : Res Nat := Res.loop (strlenStep m str) fuel 0

/-- `write_string` -/
def writeString (m : Bytes) (fuel data : Nat) : Res (List UInt8) := do
  let length ← strlenAt m fuel data
  return (List.range length).map fun i => m (data + i)

/-! ## Specifiers and events -/

inductive FmtPrintDataType where
  | unknown | char | uint | int | hex | string
deriving DecidableEq, Repr

inductive FmtPrintLengthModifier where
  | none | l | h | hh
deriving DecidableEq, Repr

structure FmtPrintSpecifier where
  dataType : FmtPrintDataType
  lengthModifier : FmtPrintLengthModifier
deriving DecidableEq, Repr

/-- A slot of the stack. -/
abbrev Slot := BitVec 32

/-- A call that prints; `writeText` is `write_string` of a literal. -/
inductive Put where
  | putChar (c : UInt8)
  | putUint (n : BitVec 64)
  | putHex (n : BitVec 64)
  | putInt (n : BitVec 32)
  | writeString (data : Slot)
  | writeText (text : String)
deriving DecidableEq, Repr

/-- The characters that a call prints. -/
def Put.chars (m : Bytes) (fuel : Nat) : Put → Res (List UInt8)
  | .putChar c => .ok [c]
  | .putUint n => Io.putUint n
  | .putHex n => Io.putHex n
  | .putInt n => Io.putInt n
  | .writeString data => Io.writeString m fuel data.toNat
  | .writeText text => .ok (text.toList.map Char.toUInt8)

inductive PrintEvent where
  /-- The cursor `p_fmt` gets this value. -/
  | cursor (p : Nat)
  /-- `va_arg` reads the slot. -/
  | fetch (i : Nat)
  | put (call : Put)
deriving DecidableEq, Repr

/-! ## `parse_specifier` -/

def moveTo (p : Nat) : Traced PrintEvent Nat := Traced.record (.cursor p) p

/-- The second `switch` of `parse_specifier`. -/
def dataTypeOf (c : UInt8) : FmtPrintDataType :=
  if c = Char.toUInt8 'c' then .char
  else if c = Char.toUInt8 'u' then .uint
  else if c = Char.toUInt8 'd' then .int
  else if c = Char.toUInt8 'x' then .hex
  else if c = Char.toUInt8 's' then .string
  else .unknown

/-- The first `switch` of `parse_specifier`: the modifier, and the cursor after it. -/
def parseLengthModifier (m : Bytes) (fmt : Nat) : Traced PrintEvent (FmtPrintLengthModifier × Nat) :=
  if m fmt = Char.toUInt8 'h' then do
    let fmt ← moveTo (fmt + 1)
    if m fmt = Char.toUInt8 'h' then do
      let fmt ← moveTo (fmt + 1)
      return (.hh, fmt)
    else return (.h, fmt)
  else if m fmt = Char.toUInt8 'l' then do
    let fmt ← moveTo (fmt + 1)
    return (.l, fmt)
  else return (.none, fmt)

/-- `parse_specifier`, whose `for (;;)` is left in its first pass: the specifier, and the cursor after it. -/
def parseSpecifier (m : Bytes) (fmt : Nat) : Traced PrintEvent (FmtPrintSpecifier × Nat) := do
  let (lengthModifier, fmt) ← parseLengthModifier m fmt
  let dataType := dataTypeOf (m fmt)
  let fmt ← moveTo (fmt + 1)
  return (⟨dataType, lengthModifier⟩, fmt)

/-! ## `fmt_print_impl` -/

section

variable (m : Bytes) (stack : Nat → Slot)

/-- `va_arg` of a type of 4 bytes: the value, and the next slot. -/
def vaArg32 (args : Nat) : Traced PrintEvent (BitVec 32 × Nat) := Traced.record (.fetch args) (stack args, args + 1)

/-- `va_arg` of a type of 8 bytes. -/
def vaArg64 (args : Nat) : Traced PrintEvent (BitVec 64 × Nat) := do
  let (low, args) ← vaArg32 stack args
  let (high, args) ← vaArg32 stack args
  return (high ++ low, args)

def put (call : Put) : Traced PrintEvent Unit := Traced.record (.put call) ()

/-- What the cases of an unsigned type give to `print`, which is `put_uint` or `put_hex`. -/
def printUnsigned (print : BitVec 64 → Put) (lengthModifier : FmtPrintLengthModifier) (args : Nat) :
    Traced PrintEvent Nat :=
  match lengthModifier with
  | .none => do
    let (next, args) ← vaArg32 stack args
    put (print (next.setWidth 64))
    return args
  | .l => do
    let (next, args) ← vaArg64 stack args
    put (print next)
    return args
  | .h => do
    let (next, args) ← vaArg32 stack args
    put (print ((next.setWidth 16).setWidth 64))
    return args
  | .hh => do
    let (next, args) ← vaArg32 stack args
    put (print ((next.setWidth 8).setWidth 64))
    return args

/-- The `switch` of `fmt_print_impl`: the next slot. -/
def printArgument (specifier : FmtPrintSpecifier) (args : Nat) : Traced PrintEvent Nat :=
  match specifier.dataType with
  | .char => do
    let (next, args) ← vaArg32 stack args
    put (.putChar (UInt8.ofBitVec (next.setWidth 8)))
    return args
  | .uint => printUnsigned stack .putUint specifier.lengthModifier args
  | .int => do
    let (next, args) ← vaArg32 stack args
    put (.putInt next)
    return args
  | .hex => printUnsigned stack .putHex specifier.lengthModifier args
  | .string => do
    let (next, args) ← vaArg32 stack args
    put (.writeString next)
    return args
  | .unknown => do
    put (.writeText "%(UNKNOWN_SPECIFIER)")
    return args

/-- The `while (*p_fmt)` of `fmt_print_impl`: the cursor and the next slot at its end. -/
def formatLoop : Nat → Nat → Nat → Traced PrintEvent (Res (Nat × Nat))
  | 0, _, _ => pure .timeout
  | fuel + 1, pFmt, args =>
    if m pFmt ≠ 0 then
      if m pFmt = Char.toUInt8 '%' then do
        let pFmt ← moveTo (pFmt + 1)
        let (specifier, pFmt) ← parseSpecifier m pFmt
        let args ← printArgument stack specifier args
        formatLoop fuel pFmt args
      else do
        put (.putChar (m pFmt))
        let pFmt ← moveTo (pFmt + 1)
        formatLoop fuel pFmt args
    else pure (.ok (pFmt, args))

/-- What is printed for an argument after those of the specifiers. -/
def extraArgument : Put := .writeText " %(EXTRA_ARGUMENT)"

/-- The rest of `fmt_print_impl`, which takes the arguments up to a 0 for extra ones. -/
def extraLoop : Nat → Nat → Traced PrintEvent (Res Unit)
  | 0, _ => pure .timeout
  | fuel + 1, args => do
    let (next, args) ← vaArg32 stack args
    if next ≠ 0 then do
      put extraArgument
      extraLoop fuel args
    else pure (.ok ())

/-- `fmt_print_impl` -/
def fmtPrintImpl (fuel fmt : Nat) : Traced PrintEvent (Res Unit) := do
  let pFmt ← moveTo fmt
  let printed ← formatLoop m stack fuel pFmt 0
  Traced.after printed fun (_, args) => extraLoop stack fuel args

end

end OSForReal.Io
