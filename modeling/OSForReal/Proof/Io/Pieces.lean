import OSForReal.Proof.Io.Cursor

/-!
# The run of `fmt_print` on a format

A format is a list of pieces, literal characters and specifiers (`format`). A run gives
each piece to one function that prints, with the slots that it reads for
it (`formatLoop_pieces`), and then takes slots up to a 0 for extra
arguments (`extraLoop_zero`). It reads one slot for `%ld`, which announces two.
-/

namespace OSForReal.Proof.Io

open Framework
open Framework.Bytes
open OSForReal.Io

variable {m : Bytes} {stack : Nat → Slot} {args fuel i j code p q z : Nat}

/-! ## Formats -/

inductive Conversion where
  | c | u | d | x | s
deriving DecidableEq, Repr

namespace Conversion

def char : Conversion → UInt8
  | c => Char.toUInt8 'c'
  | u => Char.toUInt8 'u'
  | d => Char.toUInt8 'd'
  | x => Char.toUInt8 'x'
  | s => Char.toUInt8 's'

def dataType : Conversion → FmtPrintDataType
  | c => .char
  | u => .uint
  | d => .int
  | x => .hex
  | s => .string

end Conversion

/-- A piece of a format. -/
inductive Piece where
  | literal (c : UInt8) (hc : c ≠ 0 ∧ c ≠ Char.toUInt8 '%')
  | specifier (lm : FmtPrintLengthModifier) (v : Conversion)

def modifierChars : FmtPrintLengthModifier → List UInt8
  | .none => []
  | .l => [Char.toUInt8 'l']
  | .h => [Char.toUInt8 'h']
  | .hh => [Char.toUInt8 'h', Char.toUInt8 'h']

/-- The characters of a specifier after its `%`. -/
def specifierChars (lm : FmtPrintLengthModifier) (v : Conversion) : List UInt8 := modifierChars lm ++ [v.char]

def Piece.chars : Piece → List UInt8
  | .literal c _ => [c]
  | .specifier lm v => Char.toUInt8 '%' :: specifierChars lm v

/-- The format string of pieces. -/
def format (ps : List Piece) : List UInt8 := ps.flatMap Piece.chars

variable {lm : FmtPrintLengthModifier} {v : Conversion} {ps : List Piece}

/-! ## Arguments -/

/-- The slots that a specifier announces: two for `l` with a number. -/
def announced : FmtPrintLengthModifier → Conversion → Nat
  | .l, .u => 2
  | .l, .d => 2
  | .l, .x => 2
  | _, _ => 1

/-- The slots that `fmt_print_impl` reads for it. -/
def width : FmtPrintLengthModifier → Conversion → Nat
  | .l, .u => 2
  | .l, .x => 2
  | _, _ => 1

theorem width_le_announced (lm : FmtPrintLengthModifier) (v : Conversion) : width lm v ≤ announced lm v := by
  cases lm <;> cases v <;> decide

/-- An unsigned argument, narrowed. -/
def unsignedArg (lm : FmtPrintLengthModifier) (arg : Nat → Slot) : BitVec 64 :=
  match lm with
  | .none => (arg 0).setWidth 64
  | .l => arg 1 ++ arg 0
  | .h => ((arg 0).setWidth 16).setWidth 64
  | .hh => ((arg 0).setWidth 8).setWidth 64

/-- How `fmt_print_impl` prints what it reads: it takes every signed argument for an `int`. -/
def taken (lm : FmtPrintLengthModifier) (v : Conversion) (arg : Nat → Slot) : Put :=
  match v with
  | .c => .putChar (UInt8.ofBitVec ((arg 0).setWidth 8))
  | .u => .putUint (unsignedArg lm arg)
  | .d => .putInt (arg 0)
  | .x => .putHex (unsignedArg lm arg)
  | .s => .writeString (arg 0)

/-- The stack from a slot on. -/
def fromSlot (stack : Nat → Slot) (i : Nat) : Nat → Slot := fun j => stack (i + j)

/-- The slots of all arguments that a format announces. -/
def slots : List Piece → Nat
  | [] => 0
  | .literal _ _ :: ps => slots ps
  | .specifier lm v :: ps => announced lm v + slots ps

/-- The slots that `fmt_print_impl` reads for them. -/
def readSlots : List Piece → Nat
  | [] => 0
  | .literal _ _ :: ps => readSlots ps
  | .specifier lm v :: ps => width lm v + readSlots ps

theorem readSlots_le (ps : List Piece) : readSlots ps ≤ slots ps := by
  induction ps with
  | nil => exact Nat.le_refl _
  | cons piece ps ih =>
    cases piece with
    | literal c hc => exact ih
    | specifier lm v => exact Nat.add_le_add (width_le_announced lm v) ih

/-- The calls that print, with the arguments read from a slot on. -/
def takenPuts (stack : Nat → Slot) : List Piece → Nat → List Put
  | [], _ => []
  | .literal c _ :: ps, code => .putChar c :: takenPuts stack ps code
  | .specifier lm v :: ps, code => taken lm v (fromSlot stack code) :: takenPuts stack ps (code + width lm v)

theorem length_takenPuts (ps : List Piece) (code : Nat) : (takenPuts stack ps code).length = ps.length := by
  induction ps generalizing code with
  | nil => rfl
  | cons piece ps ih => cases piece <;> simp [takenPuts, ih]

/-! ## Traces -/

/-- The calls that print, in order. -/
def puts : List PrintEvent → List Put
  | [] => []
  | .put call :: es => call :: puts es
  | .cursor _ :: es => puts es
  | .fetch _ :: es => puts es

@[simp] theorem puts_append (es es' : List PrintEvent) : puts (es ++ es') = puts es ++ puts es' := by
  induction es with
  | nil => rfl
  | cons e es ih => cases e <;> simp [puts, ih]

/-- No slot from `n` on is read. -/
def FetchLt (n : Nat) (e : PrintEvent) : Prop := ∀ i, e = .fetch i → i < n

theorem FetchLt.mono {n n' : Nat} (h : n ≤ n') (e : PrintEvent) (he : FetchLt n e) : FetchLt n' e :=
  fun i hi => Nat.lt_of_lt_of_le (he i hi) h

theorem fetchLt_fetch {n : Nat} : FetchLt n (.fetch i) ↔ i < n := by
  constructor
  · intro h
    exact h i rfl
  · intro h i' heq
    cases heq
    exact h

theorem OnlyCursor.fetchLt {n n' : Nat} {e : PrintEvent} (h : OnlyCursor n e) : FetchLt n' e := by
  obtain ⟨q, rfl, -⟩ := h
  nofun

theorem puts_onlyCursor {n : Nat} {es : List PrintEvent} (h : ∀ e ∈ es, OnlyCursor n e) : puts es = [] := by
  induction es with
  | nil => rfl
  | cons e es ih =>
    obtain ⟨q, rfl, -⟩ := h e List.mem_cons_self
    exact ih fun e he => h e (List.mem_cons_of_mem _ he)

/-! ## One piece -/

theorem specifierChars_whole (lm : FmtPrintLengthModifier) (v : Conversion) : SpecifierChars (specifierChars lm v) := by
  cases lm with
  | none => cases v <;> exact .plain (by decide) (by decide)
  | l => exact .afterL _
  | h => cases v <;> exact .afterH (by decide)
  | hh => exact .afterHH _

theorem dataTypeOf_char (v : Conversion) : dataTypeOf v.char = v.dataType := by
  cases v <;> decide

theorem parseLengthModifier_piece {s : List UInt8} (hm : hasChars m q (modifierChars lm ++ v.char :: s) = true) :
    (parseLengthModifier m q).val = (lm, q + (modifierChars lm).length) := by
  have hh : v.char ≠ Char.toUInt8 'h' := by cases v <;> decide
  have hl : v.char ≠ Char.toUInt8 'l' := by cases v <;> decide
  cases lm with
  | none =>
    obtain ⟨h0, -⟩ := hasChars_cons hm
    simp [parseLengthModifier, h0, hh, hl, modifierChars]
  | l =>
    obtain ⟨h0, -⟩ := hasChars_cons hm
    have hne : Char.toUInt8 'l' ≠ Char.toUInt8 'h' := by decide
    simp [parseLengthModifier, h0, hne, modifierChars, moveTo]
  | h =>
    obtain ⟨h0, hm⟩ := hasChars_cons hm
    obtain ⟨h1, -⟩ := hasChars_cons hm
    simp [parseLengthModifier, h0, h1, hh, modifierChars, moveTo]
  | hh =>
    obtain ⟨h0, hm⟩ := hasChars_cons hm
    obtain ⟨h1, -⟩ := hasChars_cons hm
    simp [parseLengthModifier, h0, h1, modifierChars, moveTo]

/-- A specifier is parsed for what it is. -/
theorem parseSpecifier_piece {s : List UInt8} (hm : hasChars m q (specifierChars lm v ++ s) = true) :
    (parseSpecifier m q).val = (⟨v.dataType, lm⟩, q + (specifierChars lm v).length) := by
  have hm' : hasChars m q (modifierChars lm ++ v.char :: s) = true := by
    rwa [specifierChars, List.append_assoc] at hm
  have hchar : m (q + (modifierChars lm).length) = v.char := (hasChars_cons (hasChars_drop hm')).1
  simp only [parseSpecifier, Traced.val_bind, parseLengthModifier_piece hm', moveTo, Traced.val_record, Traced.val_pure,
    hchar, dataTypeOf_char]
  rw [specifierChars, List.length_append, List.length_singleton, Nat.add_assoc]

/-- One call prints the argument, and no slot is read that is not taken for it. -/
theorem printArgument_piece (lm : FmtPrintLengthModifier) (v : Conversion) (i : Nat) :
    (printArgument stack ⟨v.dataType, lm⟩ i).val = i + width lm v ∧
      puts (printArgument stack ⟨v.dataType, lm⟩ i).trace = [taken lm v (fromSlot stack i)] ∧
      (printArgument stack ⟨v.dataType, lm⟩ i).All (FetchLt (i + width lm v)) := by
  cases v <;> cases lm <;>
    simp [printArgument, printUnsigned, vaArg32, vaArg64, put, Conversion.dataType, width, puts, taken, unsignedArg,
      fromSlot, Traced.all_bind, FetchLt]

/-! ## The loops -/

/-- The first loop gives every piece to one function, and reads the slots of the specifiers. -/
theorem formatLoop_pieces (hm : hasChars m p (format ps) = true) (hfuel : ps.length < fuel) :
    (formatLoop m stack fuel p args).val = .ok (p + (format ps).length, args + readSlots ps) ∧
      puts (formatLoop m stack fuel p args).trace = takenPuts stack ps args ∧
      (formatLoop m stack fuel p args).All (FetchLt (args + readSlots ps)) := by
  induction ps generalizing p args fuel with
  | nil =>
    obtain ⟨fuel, rfl, -⟩ := Res.exists_succ_of_lt hfuel
    rw [formatLoop_end (hasChars_nil hm)]
    exact ⟨rfl, rfl, Traced.all_pure⟩
  | cons piece ps ih =>
    obtain ⟨fuel, rfl, hfuel'⟩ := Res.exists_succ_of_lt hfuel
    cases piece with
    | literal c hc =>
      obtain ⟨hp, hrest⟩ := hasChars_cons hm
      obtain ⟨hval, hputs, hfetch⟩ := @ih args fuel (p + 1) hrest hfuel'
      rw [formatLoop_literal hp hc.1 hc.2]
      refine ⟨?_, ?_, ?_⟩
      · refine Eq.trans hval ?_
        show Res.ok (p + 1 + (format ps).length, _) = .ok (p + ((format ps).length + 1), _)
        rw [Nat.add_assoc, Nat.add_comm 1]
        rfl
      · show _ :: puts (formatLoop m stack fuel (p + 1) args).trace = _
        rw [hputs]
        rfl
      · refine Traced.all_bind.mpr ⟨Traced.all_record.mpr nofun, Traced.all_bind.mpr ⟨Traced.all_record.mpr nofun, hfetch⟩⟩
    | specifier lm v =>
      obtain ⟨hp, hm⟩ := hasChars_cons hm
      have hparsed := parseSpecifier_piece hm
      have honly := (parseSpecifier_whole (specifierChars_whole lm v) hm).2
      obtain ⟨hnext, hcall, hread⟩ := @printArgument_piece stack lm v args
      obtain ⟨hval, hputs, hfetch⟩ := @ih (args + width lm v) fuel _ (hasChars_drop hm) hfuel'
      have hslots : args + readSlots (.specifier lm v :: ps) = args + width lm v + readSlots ps :=
        (Nat.add_assoc _ _ _).symm
      have hlength : (format (.specifier lm v :: ps)).length = 1 + ((specifierChars lm v).length + (format ps).length) := by
        rw [format, List.flatMap_cons, List.length_append, Piece.chars, List.length_cons, Nat.add_right_comm, ← format]
        omega
      rw [formatLoop_specifier hp, hslots, hlength]
      refine ⟨?_, ?_, ?_⟩
      · simp only [Traced.val_bind, moveTo, Traced.val_record, hparsed, hnext]
        rw [hval, Nat.add_assoc, Nat.add_assoc]
      · simp only [Traced.trace_bind, moveTo, Traced.trace_record, Traced.val_record, hparsed, hnext, puts_append,
          puts_onlyCursor honly, hcall, hputs]
        rfl
      · refine Traced.all_bind.mpr ⟨Traced.all_record.mpr nofun, Traced.all_bind.mpr ⟨?_, ?_⟩⟩
        · exact honly.mono fun e he => he.fetchLt
        · simp only [moveTo, Traced.val_record, hparsed]
          refine Traced.all_bind.mpr ⟨hread.mono (FetchLt.mono (Nat.le_add_right _ _)), ?_⟩
          rw [hnext]
          exact hfetch

/-- A pass of the second loop. -/
theorem extraLoop_succ : extraLoop stack (fuel + 1) args = (do
    let _ ← vaArg32 stack args
    if stack args ≠ 0 then do
      put extraArgument
      extraLoop stack fuel (args + 1)
    else pure (.ok ())) := rfl

theorem extraLoop_stop (h : stack args = 0) : (extraLoop stack (fuel + 1) args).val = .ok () ∧
    (extraLoop stack (fuel + 1) args).trace = [.fetch args] := by
  rw [extraLoop_succ, if_neg (by simp [h])]
  exact ⟨rfl, rfl⟩

theorem extraLoop_next (h : stack args ≠ 0) :
    (extraLoop stack (fuel + 1) args).val = (extraLoop stack fuel (args + 1)).val ∧
      (extraLoop stack (fuel + 1) args).trace =
        .fetch args :: .put extraArgument :: (extraLoop stack fuel (args + 1)).trace := by
  rw [extraLoop_succ, if_pos h]
  exact ⟨rfl, rfl⟩

/-- The second loop takes the arguments before the first 0 for extra ones. -/
theorem extraLoop_zero (hbefore : ∀ j < z, stack (args + j) ≠ 0) (hz : stack (args + z) = 0) (hfuel : z < fuel) :
    (extraLoop stack fuel args).val = .ok () ∧ puts (extraLoop stack fuel args).trace = List.replicate z extraArgument ∧
      (extraLoop stack fuel args).All (FetchLt (args + z + 1)) := by
  induction z generalizing args fuel with
  | zero =>
    obtain ⟨fuel, rfl, -⟩ := Res.exists_succ_of_lt hfuel
    obtain ⟨hval, htrace⟩ := @extraLoop_stop stack args fuel hz
    refine ⟨hval, by rw [htrace]; rfl, fun e he => ?_⟩
    rw [htrace, List.mem_singleton] at he
    rw [he]
    exact fetchLt_fetch.mpr (Nat.lt_succ_self _)
  | succ z ih =>
    obtain ⟨fuel, rfl, hle⟩ := Res.exists_succ_of_lt hfuel
    obtain ⟨hval, htrace⟩ := @extraLoop_next stack args fuel (hbefore 0 (Nat.succ_pos z))
    have hat : ∀ j, args + 1 + j = args + (j + 1) := fun j => by omega
    obtain ⟨hrest, hputs, hfetch⟩ := @ih (args + 1) fuel
      (fun j hj => by rw [hat]; exact hbefore (j + 1) (Nat.succ_lt_succ hj)) (by rw [hat]; exact hz) hle
    refine ⟨hval.trans hrest, ?_, fun e he => ?_⟩
    · rw [htrace]
      show extraArgument :: puts (extraLoop stack fuel (args + 1)).trace = _
      rw [hputs]
      rfl
    · rw [htrace] at he
      rcases List.mem_cons.mp he with rfl | he
      · exact fetchLt_fetch.mpr (by omega)
      · rcases List.mem_cons.mp he with rfl | he
        · nofun
        · exact FetchLt.mono (by omega) e (hfetch e he)

/-! ## The whole run -/

/-- The calls of a run, where `z` slots that are not 0 are left before one that is. -/
theorem fmtPrintImpl_run {fmt : Nat} (hm : hasChars m fmt (format ps) = true)
    (hbefore : ∀ j < z, stack (readSlots ps + j) ≠ 0) (hz : stack (readSlots ps + z) = 0)
    (hfuel : ps.length + z < fuel) :
    (fmtPrintImpl m stack fuel fmt).val = .ok () ∧
      puts (fmtPrintImpl m stack fuel fmt).trace = takenPuts stack ps 0 ++ List.replicate z extraArgument ∧
      (fmtPrintImpl m stack fuel fmt).All (FetchLt (readSlots ps + z + 1)) := by
  obtain ⟨hval, hputs, hfetch⟩ := @formatLoop_pieces m stack 0 fuel fmt ps hm (by omega)
  rw [Nat.zero_add] at hval hfetch
  obtain ⟨hval', hputs', hfetch'⟩ := @extraLoop_zero stack (readSlots ps) fuel z hbefore hz (by omega)
  refine ⟨?_, ?_, ?_⟩
  · simp only [fmtPrintImpl, Traced.val_bind, moveTo, Traced.val_record, hval]
    exact hval'
  · simp only [fmtPrintImpl, Traced.trace_bind, Traced.trace_record, moveTo, Traced.val_record, hval, puts_append, hputs]
    show takenPuts stack ps 0 ++ puts (extraLoop stack fuel (readSlots ps)).trace = _
    rw [hputs']
  · refine Traced.all_bind.mpr ⟨Traced.all_record.mpr fun i hi => ?_, Traced.all_bind.mpr ⟨?_, ?_⟩⟩
    · cases hi
    · exact hfetch.mono (FetchLt.mono (by omega))
    · simp only [moveTo, Traced.val_record, hval]
      exact hfetch'

end OSForReal.Proof.Io
