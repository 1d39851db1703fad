import OSForReal.Framework.Bytes
import OSForReal.Framework.Decimal
import OSForReal.Framework.Res

/-!
# The command line of `tfsfmt` (`tagfs/tfsfmt/src/flags.c`)

`argv` is a list whose last element is NULL, so that what `shift_args` takes can be
NULL. A `Flag` has the object that its pointer points to (`Target`); the registered
flags point to different objects. What a call prints before it returns false is
a `FlagsError`. The descriptions and `flags_print_help`, which prints them, are left
out.
-/

namespace OSForReal.TagFS

open Framework
open Framework.Decimal

/-! ## `strtol` -/

def erange : Int := 34

/-- What `strtol` returns: the value, the text that `*endptr` points to, and whether `errno` is set to `ERANGE`. -/
structure Strtol where
  value : Int
  rest : List UInt8
  range : Bool
deriving DecidableEq, Repr

/-- `strtol` to base 10, with a `long` of 64 bits. A text without a number is read up to its beginning. -/
def strtol (s : List UInt8) : Strtol :=
  match readNumber s with
  | none => ⟨0, s, false⟩
  | some (v, rest) =>
    if v < -2 ^ 63 then ⟨-2 ^ 63, rest, true⟩
    else if v > 2 ^ 63 - 1 then ⟨2 ^ 63 - 1, rest, true⟩
    else ⟨v, rest, false⟩

/-! ## Flags -/

/-- A `Flag_Type` with what the flag's pointers point to. The array is written from the start, up to `maxLen`. -/
inductive Target where
  | cstr (value : Option CStr)
  | cstrArray (value : Nat → Option CStr) (index maxLen : Nat)
  | int (value : Int)
  | bool (value : Bool)

structure Flag where
  option : CStr
  provided : Bool
  required : Bool
  target : Target

/-- The static variables `flags` and `positionals`, up to `flag_index` and `positional_index`. -/
structure Flags where
  flags : List Flag
  positionals : List Flag

def flagCount : Nat := 128
def positionalCount : Nat := 128

/-- `flags_add_cstr_flag`, `flags_add_cstr_array_flag`, `flags_add_int_flag` and `flags_add_bool_flag`. -/
def Flags.addFlag (st : Flags) (target : Target) (option : CStr) (required : Bool) : Res Flags := do
  Res.assert (st.flags.length < flagCount)
  return { st with flags := st.flags ++ [⟨option, false, required, target⟩] }

def flagsAddCstrFlag (st : Flags) (value : Option CStr) (option : CStr) (required : Bool) : Res Flags :=
  st.addFlag (.cstr value) option required

def flagsAddCstrArrayFlag (st : Flags) (value : Nat → Option CStr) (parsed maxLen : Nat) (option : CStr)
    (required : Bool) : Res Flags :=
  st.addFlag (.cstrArray value parsed maxLen) option required

def flagsAddIntFlag (st : Flags) (value : Int) (option : CStr) (required : Bool) : Res Flags :=
  st.addFlag (.int value) option required

def flagsAddBoolFlag (st : Flags) (value : Bool) (option : CStr) (required : Bool) : Res Flags :=
  st.addFlag (.bool value) option required

/-- `flags_add_cstr_positional`. It leaves `provided` as it is in a static variable, false. -/
def flagsAddCstrPositional (st : Flags) (value : Option CStr) (name : CStr) : Res Flags := do
  Res.assert (st.positionals.length < positionalCount)
  return { st with positionals := st.positionals ++ [⟨name, false, true, .cstr value⟩] }

/-! ## The options of the subcommands -/

def CStr.ofString (s : String) : CStr where
  chars := (s.toList.map fun c => UInt8.ofNat c.toNat).filter (· ≠ 0)
  noNul := by simp

/-- The options of `parse_format_options`, with their defaults. -/
def formatFlags : Res Flags := do
  let st ← flagsAddCstrPositional ⟨[], []⟩ none (CStr.ofString "image_name")
  let st ← flagsAddIntFlag st 1000 (CStr.ofString "-sector-count") false
  let st ← flagsAddIntFlag st 512 (CStr.ofString "-sector-size") false
  let st ← flagsAddIntFlag st 10 (CStr.ofString "-fm-sectors") false
  let st ← flagsAddIntFlag st 10 (CStr.ofString "-tm-sectors") false
  let st ← flagsAddIntFlag st 10 (CStr.ofString "-tf-sectors") false
  flagsAddIntFlag st 2 (CStr.ofString "-fat-sectors") false

/-- The options of `parse_write_files_options`, in a structure of zeros. -/
def writeFilesFlags : Res Flags := do
  let st ← flagsAddCstrPositional ⟨[], []⟩ none (CStr.ofString "image_name")
  let st ← flagsAddCstrArrayFlag st (fun _ => none) 0 32 (CStr.ofString "-file") true
  flagsAddCstrArrayFlag st (fun _ => none) 0 32 (CStr.ofString "-tag") false

/-- The options of `parse_write_tag_options`. -/
def writeTagFlags : Res Flags := do
  let st ← flagsAddCstrPositional ⟨[], []⟩ none (CStr.ofString "image_name")
  flagsAddCstrFlag st none (CStr.ofString "-tag") true

/-! ## Errors -/

/-- What is printed before false is returned, with what the text names. -/
inductive FlagsError where
  | tooMany (option : CStr) (maxLen : Nat)
  | outOfRange (option arg : CStr)
  | notAnInteger (option arg : CStr)
  | tooManyPositionals (positionalIndex : Nat)
  | unknownFlag (arg : CStr)
  | positionalRequired (option : CStr)
  | optionRequired (option : CStr)

/-- A C string as it is printed. -/
def CStr.text (s : CStr) : String := String.ofList (s.chars.map fun c => Char.ofNat c.toNat)

def FlagsError.message : FlagsError → String
  | .tooMany option maxLen =>
    CStr.text option ++ ": Too many of this argument (maximum is " ++ toString maxLen ++ ").\n"
  | .outOfRange option arg => CStr.text option ++ " " ++ CStr.text arg ++ ": Integer out of range.\n\n"
  | .notAnInteger option arg => CStr.text option ++ " " ++ CStr.text arg ++ ": Not a valid integer.\n\n"
  | .tooManyPositionals positionalIndex =>
    "Too many positional arguments provided (expected at most " ++ toString positionalIndex ++ ").\n\n"
  | .unknownFlag arg => CStr.text arg ++ ": Unknown flag.\n\n"
  | .positionalRequired option => "Argument <" ++ CStr.text option ++ "> is required, but was not given.\n\n"
  | .optionRequired option => "Option " ++ CStr.text option ++ " is required, but was not given.\n\n"

/-! ## `flags_parse_flag` -/

/-- `flags_parse_flag`: what is printed if it returns false, the flag and `errno`. `strtol` does not
return from a NULL, and the `long` that it returns is narrowed to an `int`. -/
def flagsParseFlag (flag : Flag) (arg : Option CStr) (errno : Int) : Res (Option FlagsError × Flag × Int) :=
  let flag := { flag with provided := true }
  match flag.target with
  | .cstr _ => .ok (none, { flag with target := .cstr arg }, errno)
  | .cstrArray value index maxLen =>
    if index ≥ maxLen then .ok (some (.tooMany flag.option maxLen), flag, errno)
    else .ok (none, { flag with target := .cstrArray (Function.update value index arg) (index + 1) maxLen }, errno)
  | .int _ =>
    match arg with
    | none => .halt
    | some arg =>
      let read := strtol arg.chars
      let value := Int.bmod read.value (2 ^ 32)
      let errno := if read.range then erange else errno
      if errno = erange then .ok (some (.outOfRange flag.option arg), flag, errno)
      else if read.rest ≠ [] then .ok (some (.notAnInteger flag.option arg), flag, errno)
      else .ok (none, { flag with target := .int value }, errno)
  | .bool _ => .ok (none, { flag with target := .bool true }, errno)

/-! ## `flags_parse_flags` -/

/-- `argc`, and the elements from `argv` on. -/
structure Args where
  argc : Int
  argv : List (Option CStr)
deriving DecidableEq

/-- `shift_args`. Past the NULL there is nothing to read. -/
def shiftArgs (args : Args) : Res (Option CStr × Args) :=
  match args.argv with
  | [] => .halt
  | arg :: argv => .ok (arg, ⟨args.argc - 1, argv⟩)

/-- The variables of `flags_parse_flags`, and those that it shares with others. -/
structure Parse where
  statics : Flags
  errno : Int
  args : Args
  positionalI : Nat

/-- The body of the `while` of `flags_parse_flags`: the next pass, or what is printed if the call returns false. -/
def flagsStep (p : Parse) : Res (Parse ⊕ Option FlagsError × Parse) :=
  if p.args.argc > 0 then do
    let (arg, args) ← shiftArgs p.args
    match arg with
    | none => .halt
    | some arg =>
      if arg.chars.head? ≠ some 0x2d then
        match p.statics.positionals[p.positionalI]? with
        | none => .ok (.inr (some (.tooManyPositionals p.statics.positionals.length), { p with args }))
        | some positional => do
          let (error, positional, errno) ← flagsParseFlag positional (some arg) p.errno
          let statics := { p.statics with positionals := p.statics.positionals.set p.positionalI positional }
          match error with
          | some error => .ok (.inr (some error, { p with statics, errno, args }))
          | none => .ok (.inl ⟨statics, errno, args, p.positionalI + 1⟩)
      else
        -- The first flag with the option.
        let j := p.statics.flags.findIdx fun flag => flag.option = arg
        match p.statics.flags[j]? with
        | none => .ok (.inr (some (.unknownFlag arg), { p with args }))
        | some flag => do
          let (arg, args) ← shiftArgs args
          let (error, flag, errno) ← flagsParseFlag flag arg p.errno
          let statics := { p.statics with flags := p.statics.flags.set j flag }
          match error with
          | some error => .ok (.inr (some error, { p with statics, errno, args }))
          | none => .ok (.inl ⟨statics, errno, args, p.positionalI⟩)
  else .ok (.inr (none, p))

/-- `flags_parse_flags`: what is printed if it returns false, and the variables. Each
pass takes an element, so that `argc + 1` passes are enough. -/
def flagsParseFlags (st : Flags) (errno argc : Int) (argv : List (Option CStr)) : Res (Option FlagsError × Parse) := do
  let (error, p) ← Res.loop flagsStep (argc.toNat + 1) ⟨st, errno, ⟨argc, argv⟩, 0⟩
  match error with
  | some error => .ok (some error, p)
  | none =>
    match p.statics.positionals.find? fun flag => flag.required && !flag.provided with
    | some positional => .ok (some (.positionalRequired positional.option), p)
    | none =>
      match p.statics.flags.find? fun flag => flag.required && !flag.provided with
      | some flag => .ok (some (.optionRequired flag.option), p)
      | none => .ok (none, p)

end OSForReal.TagFS
