import Mathlib.Data.Nat.Find
import Mathlib.Order.Filter.AtTopBot.Basic
import OSForReal.Proof.Io.Numbers
import OSForReal.Proof.Io.Pieces

/-!
# The arguments of `fmt_print`

The arguments of a format should be printed as texts (`Renders`), each from the slots
that its specifier announces. `Aligned` says of the slots that a run reads when it
prints these texts, which are two for `%lu` and `%lx` and one for every other specifier
(`printsArguments_iff`). Without `%ld` that is when the arguments of `%hd`
and `%hhd` are small, those of `%lu` and `%d` can be printed, and no extra argument is 0.
-/

namespace OSForReal.Proof.Io

open Framework
open Framework.Bytes
open OSForReal.Io

variable {m : Bytes} {stack stack' : Nat → Slot} {fuel i j k own code n z : Nat}
  {lm : FmtPrintLengthModifier} {v : Conversion} {ps : List Piece}

/-! ## Texts -/

/-- A signed argument, narrowed. -/
def signedArg (lm : FmtPrintLengthModifier) (arg : Nat → Slot) : Int :=
  match lm with
  | .none => (arg 0).toInt
  | .l => (arg 1 ++ arg 0).toInt
  | .h => ((arg 0).setWidth 16).toInt
  | .hh => ((arg 0).setWidth 8).toInt

/-- The text that an argument should be printed as. -/
def Renders (m : Bytes) (lm : FmtPrintLengthModifier) (v : Conversion) (arg : Nat → Slot) (text : List UInt8) : Prop :=
  match v with
  | .c => text = [UInt8.ofBitVec ((arg 0).setWidth 8)]
  | .u => text = decimalText (unsignedArg lm arg).toNat
  | .d => text = signedText (signedArg lm arg)
  | .x => text = hexText (unsignedArg lm arg).toNat
  | .s => hasChars m (arg 0).toNat text = true ∧ 0 ∉ text

/-- The texts that the pieces should be printed as, with the arguments from a slot on. -/
inductive Texts (m : Bytes) (stack : Nat → Slot) : List Piece → Nat → List (List UInt8) → Prop where
  | nil {own : Nat} : Texts m stack [] own []
  | literal {c : UInt8} {hc : c ≠ 0 ∧ c ≠ Char.toUInt8 '%'} {ps : List Piece} {own : Nat} {texts : List (List UInt8)}
      (h : Texts m stack ps own texts) : Texts m stack (.literal c hc :: ps) own ([c] :: texts)
  | specifier {lm : FmtPrintLengthModifier} {v : Conversion} {ps : List Piece} {own : Nat} {text : List UInt8}
      {texts : List (List UInt8)} (harg : Renders m lm v (fromSlot stack own) text)
      (h : Texts m stack ps (own + announced lm v) texts) : Texts m stack (.specifier lm v :: ps) own (text :: texts)

theorem Texts.length {texts : List (List UInt8)} (h : Texts m stack ps own texts) : texts.length = ps.length := by
  induction h with
  | nil => rfl
  | literal _ ih => rw [List.length_cons, List.length_cons, ih]
  | specifier _ _ ih => rw [List.length_cons, List.length_cons, ih]

/-- The mark of an extra argument. -/
def extraText : List UInt8 := " %(EXTRA_ARGUMENT)".toList.map Char.toUInt8

/-- With enough fuel the run ends, every piece prints its text, and each of the `k` extra arguments
a mark, and no slot is read after that of the 0 that follows these. -/
def PrintsArguments (m : Bytes) (stack : Nat → Slot) (fmt : Nat) (ps : List Piece) (k : Nat) : Prop :=
  ∃ texts, Texts m stack ps 0 texts ∧ ∃ n, ∀ fuel ≥ n, (fmtPrintImpl m stack fuel fmt).val = .ok () ∧
    (puts (fmtPrintImpl m stack fuel fmt).trace).mapM (Put.chars m fuel) = .ok (texts ++ List.replicate k extraText) ∧
    ∀ i, .fetch i ∈ (fmtPrintImpl m stack fuel fmt).trace → i ≤ slots ps + k

/-! ## Calls and texts -/

/-- With enough fuel the calls print these texts. -/
def PrintsAll (m : Bytes) (calls : List Put) (texts : List (List UInt8)) : Prop :=
  ∃ n, ∀ fuel ≥ n, calls.mapM (Put.chars m fuel) = .ok texts

/-- With enough fuel the call prints this text. -/
def Prints (m : Bytes) (call : Put) (text : List UInt8) : Prop := ∃ n, ∀ fuel ≥ n, call.chars m fuel = .ok text

theorem enough_and {P Q : Nat → Prop} :
    (∃ n, ∀ fuel ≥ n, P fuel ∧ Q fuel) ↔ (∃ n, ∀ fuel ≥ n, P fuel) ∧ ∃ n, ∀ fuel ≥ n, Q fuel := by
  simp only [ge_iff_le, ← Filter.eventually_atTop]
  exact Filter.eventually_and

theorem enough_const {P : Prop} : (∃ n : Nat, ∀ fuel ≥ n, P) ↔ P :=
  ⟨fun ⟨n, h⟩ => h n (Nat.le_refl n), fun h => ⟨0, fun _ _ => h⟩⟩

theorem printsAll_nil {texts : List (List UInt8)} : PrintsAll m [] texts ↔ texts = [] := by
  simp [PrintsAll, eq_comm, enough_const]

theorem printsAll_cons {call : Put} {calls : List Put} {text : List UInt8} {texts : List (List UInt8)} :
    PrintsAll m (call :: calls) (text :: texts) ↔ Prints m call text ∧ PrintsAll m calls texts := by
  simp only [PrintsAll, Prints, Res.mapM_cons_eq_ok]
  exact enough_and

theorem printsAll_append {calls calls' : List Put} {texts texts' : List (List UInt8)} (hlength : calls.length = texts.length) :
    PrintsAll m (calls ++ calls') (texts ++ texts') ↔ PrintsAll m calls texts ∧ PrintsAll m calls' texts' := by
  induction calls generalizing texts with
  | nil =>
    obtain rfl := List.eq_nil_of_length_eq_zero hlength.symm
    simp [printsAll_nil]
  | cons call calls ih =>
    cases texts with
    | nil => cases hlength
    | cons text texts =>
      rw [List.cons_append, List.cons_append, printsAll_cons, printsAll_cons, ih (Nat.succ.inj hlength), and_assoc]

/-- The marks printed are as many as asked for. -/
theorem printsAll_marks : PrintsAll m (List.replicate z extraArgument) (List.replicate k extraText) ↔ z = k := by
  induction z generalizing k with
  | zero => cases k <;> simp [printsAll_nil, List.replicate_succ]
  | succ z ih =>
    cases k with
    | zero =>
      have hnone : ¬ PrintsAll m (extraArgument :: List.replicate z extraArgument) [] := by
        rintro ⟨n, h⟩
        have hn := h n (Nat.le_refl n)
        simp [List.mapM_cons, Res.bind_eq_ok] at hn
      simpa [List.replicate_succ] using hnone
    | succ k =>
      have hmark : Prints m extraArgument extraText := ⟨0, fun _ _ => rfl⟩
      rw [List.replicate_succ, List.replicate_succ, printsAll_cons, ih]
      simp [hmark]

/-! ## One argument -/

/-- What is read for an argument has its value, and is no number that is not printed. -/
def SameValue (m : Bytes) (lm : FmtPrintLengthModifier) (v : Conversion) (read arg : Nat → Slot) : Prop :=
  match v with
  | .c => (read 0).setWidth 8 = (arg 0).setWidth 8
  | .u => unsignedArg lm read = unsignedArg lm arg ∧ (unsignedArg lm read).toNat < 10 ^ 19
  | .d => (read 0).toInt = signedArg lm arg ∧ (read 0).toInt ≠ -2 ^ 31
  | .x => unsignedArg lm read = unsignedArg lm arg
  | .s => ∃ s : CStr, hasChars m (read 0).toNat s.chars = true ∧ hasChars m (arg 0).toNat s.chars = true

theorem prints_string {data : Slot} {text : List UInt8} :
    Prints m (.writeString data) text ↔ hasChars m data.toNat text = true ∧ 0 ∉ text := by
  constructor
  · rintro ⟨n, h⟩
    exact (writeString_ok_iff.mp (h n (Nat.le_refl n))).2
  · intro h
    exact ⟨text.length + 1, fun fuel hfuel => writeString_ok_iff.mpr ⟨hfuel, h⟩⟩

/-- A call without a string prints what it prints with any fuel. -/
theorem prints_const {call : Put} {r : Res (List UInt8)} {text : List UInt8} (h : ∀ fuel, call.chars m fuel = r) :
    Prints m call text ↔ r = .ok text := by
  simp only [Prints, h, enough_const]

/-- An argument is printed as it should be exactly when its value is read, and can be printed. -/
theorem prints_taken_iff {read arg : Nat → Slot} :
    (∃ text, Renders m lm v arg text ∧ Prints m (taken lm v read) text) ↔ SameValue m lm v read arg := by
  cases v with
  | c =>
    have hcall : ∀ fuel, (taken lm .c read).chars m fuel = .ok [UInt8.ofBitVec ((read 0).setWidth 8)] := fun _ => rfl
    simp [Renders, prints_const hcall, SameValue]
  | u =>
    have hcall : ∀ fuel, (taken lm .u read).chars m fuel = _ := fun _ => putUint_eq (unsignedArg lm read)
    simp only [Renders, prints_const hcall, Res.ite_halt_eq_ok, SameValue, exists_eq_left]
    constructor
    · rintro ⟨hlt, htext⟩
      exact ⟨BitVec.eq_of_toNat_eq (decimalText_injective htext), hlt⟩
    · rintro ⟨hsame, hlt⟩
      exact ⟨hlt, by rw [hsame]⟩
  | d =>
    have hcall : ∀ fuel, (taken lm .d read).chars m fuel = _ := fun _ => putInt_eq (read 0)
    simp only [Renders, prints_const hcall, Res.ite_halt_eq_ok, SameValue, exists_eq_left]
    constructor
    · rintro ⟨hmin, htext⟩
      exact ⟨signedText_injective htext, hmin⟩
    · rintro ⟨hsame, hmin⟩
      exact ⟨hmin, by rw [hsame]⟩
  | x =>
    have hcall : ∀ fuel, (taken lm .x read).chars m fuel = _ := fun _ => putHex_eq (unsignedArg lm read)
    simp only [Renders, prints_const hcall, Res.ok.injEq, SameValue, exists_eq_left]
    constructor
    · intro htext
      exact BitVec.eq_of_toNat_eq (hexText_injective htext)
    · intro hsame
      rw [hsame]
  | s =>
    simp only [Renders, taken, prints_string, SameValue]
    constructor
    · rintro ⟨text, ⟨harg, hnoNul⟩, hread, _⟩
      exact ⟨⟨text, hnoNul⟩, hread, harg⟩
    · rintro ⟨s, hread, harg⟩
      exact ⟨s.chars, ⟨harg, s.noNul⟩, hread, s.noNul⟩

/-! ## All arguments -/

/-- For every specifier its argument, from `own` on, is read, from `code` on, and of the slots
that are left the first that is 0 is the `k`th. -/
def Aligned (m : Bytes) (stack : Nat → Slot) (k : Nat) : List Piece → Nat → Nat → Prop
  | [], _, code => (∀ j < k, stack (code + j) ≠ 0) ∧ stack (code + k) = 0
  | .literal _ _ :: ps, own, code => Aligned m stack k ps own code
  | .specifier lm v :: ps, own, code =>
    SameValue m lm v (fromSlot stack code) (fromSlot stack own) ∧
      Aligned m stack k ps (own + announced lm v) (code + width lm v)

/-- The pieces print their texts. -/
def PrintsPieces (m : Bytes) (stack : Nat → Slot) (ps : List Piece) (own code : Nat) : Prop :=
  ∃ texts, Texts m stack ps own texts ∧ PrintsAll m (takenPuts stack ps code) texts

theorem printsPieces_literal {c : UInt8} {hc : c ≠ 0 ∧ c ≠ Char.toUInt8 '%'} :
    PrintsPieces m stack (.literal c hc :: ps) own code ↔ PrintsPieces m stack ps own code := by
  have hchar : Prints m (.putChar c) [c] := ⟨0, fun _ _ => rfl⟩
  constructor
  · rintro ⟨_, htexts, hprints⟩
    cases htexts with
    | literal h => exact ⟨_, h, (printsAll_cons.mp hprints).2⟩
  · rintro ⟨texts, htexts, hprints⟩
    exact ⟨[c] :: texts, .literal htexts, printsAll_cons.mpr ⟨hchar, hprints⟩⟩

theorem printsPieces_specifier : PrintsPieces m stack (.specifier lm v :: ps) own code ↔
    SameValue m lm v (fromSlot stack code) (fromSlot stack own) ∧
      PrintsPieces m stack ps (own + announced lm v) (code + width lm v) := by
  rw [← prints_taken_iff]
  constructor
  · rintro ⟨_, htexts, hprints⟩
    cases htexts with
    | specifier harg h =>
      obtain ⟨hcall, hcalls⟩ := printsAll_cons.mp hprints
      exact ⟨⟨_, harg, hcall⟩, _, h, hcalls⟩
  · rintro ⟨⟨text, harg, hcall⟩, texts, htexts, hcalls⟩
    exact ⟨text :: texts, .specifier harg htexts, printsAll_cons.mpr ⟨hcall, hcalls⟩⟩

theorem aligned_iff : Aligned m stack k ps own code ↔ PrintsPieces m stack ps own code ∧
    (∀ j < k, stack (code + readSlots ps + j) ≠ 0) ∧ stack (code + readSlots ps + k) = 0 := by
  induction ps generalizing own code with
  | nil =>
    have hnil : PrintsPieces m stack [] own code := ⟨[], .nil, printsAll_nil.mpr rfl⟩
    simp [Aligned, hnil, readSlots]
  | cons piece ps ih =>
    cases piece with
    | literal c hc => rw [Aligned, ih, printsPieces_literal, readSlots]
    | specifier lm v => rw [Aligned, ih, printsPieces_specifier, readSlots, Nat.add_assoc, and_assoc]

/-! ## The whole run -/

/-- The slots after those that are read for the specifiers begin with some that are not 0, and then comes one that is. -/
theorem exists_first_zero (hsentinel : stack (slots ps + k) = 0) :
    ∃ z, (∀ j < z, stack (readSlots ps + j) ≠ 0) ∧ stack (readSlots ps + z) = 0 ∧ readSlots ps + z ≤ slots ps + k := by
  have hle := readSlots_le ps
  have hexists : ∃ z, stack (readSlots ps + z) = 0 :=
    ⟨slots ps + k - readSlots ps, by rw [Nat.add_sub_cancel' (by omega)]; exact hsentinel⟩
  refine ⟨Nat.find hexists, fun j hj => Nat.find_min hexists hj, Nat.find_spec hexists, ?_⟩
  have hmin : Nat.find hexists ≤ slots ps + k - readSlots ps :=
    Nat.find_min' hexists (by rw [Nat.add_sub_cancel' (by omega)]; exact hsentinel)
  omega

theorem first_zero_unique {n z z' : Nat} (hbefore : ∀ j < z, stack (n + j) ≠ 0) (hz : stack (n + z) = 0)
    (hbefore' : ∀ j < z', stack (n + j) ≠ 0) (hz' : stack (n + z') = 0) : z = z' := by
  rcases Nat.lt_trichotomy z z' with hlt | heq | hgt
  · exact absurd hz (hbefore' z hlt)
  · exact heq
  · exact absurd hz' (hbefore z' hgt)

theorem printsArguments_iff_aligned {fmt : Nat} (hm : hasChars m fmt (format ps) = true)
    (hsentinel : stack (slots ps + k) = 0) : PrintsArguments m stack fmt ps k ↔ Aligned m stack k ps 0 0 := by
  obtain ⟨z, hbefore, hz, hle⟩ := exists_first_zero hsentinel
  have hrun := fun {fuel} => @fmtPrintImpl_run m stack fuel z ps fmt hm hbefore hz
  rw [aligned_iff, Nat.zero_add]
  constructor
  · rintro ⟨texts, htexts, n, hn⟩
    have hlength : (takenPuts stack ps 0).length = texts.length := (length_takenPuts ps 0).trans htexts.length.symm
    have hall : PrintsAll m (takenPuts stack ps 0 ++ List.replicate z extraArgument)
        (texts ++ List.replicate k extraText) := by
      refine ⟨n + (ps.length + z + 1), fun fuel hfuel => ?_⟩
      rw [← (@hrun fuel (by omega)).2.1]
      exact (hn fuel (by omega)).2.1
    obtain ⟨hcalls, hmarks⟩ := (printsAll_append hlength).mp hall
    obtain rfl := printsAll_marks.mp hmarks
    exact ⟨⟨texts, htexts, hcalls⟩, hbefore, hz⟩
  · rintro ⟨⟨texts, htexts, hcalls⟩, hbefore', hz'⟩
    obtain rfl := first_zero_unique hbefore hz hbefore' hz'
    have hlength : (takenPuts stack ps 0).length = texts.length := (length_takenPuts ps 0).trans htexts.length.symm
    obtain ⟨n, hn⟩ := (printsAll_append hlength).mpr ⟨hcalls, printsAll_marks.mpr rfl⟩
    refine ⟨texts, htexts, n + (ps.length + z + 1), fun fuel hfuel => ?_⟩
    obtain ⟨hval, hputs, hfetch⟩ := @hrun fuel (by omega)
    refine ⟨hval, ?_, fun i hi => ?_⟩
    · rw [hputs]
      exact hn fuel (by omega)
    · have hlt := hfetch _ hi i rfl
      omega

/-! ## Without `%ld` -/

/-- Every argument of a `%s` is a string. -/
def Strings (m : Bytes) (stack : Nat → Slot) : List Piece → Nat → Prop
  | [], _ => True
  | .literal _ _ :: ps, own => Strings m stack ps own
  | .specifier lm v :: ps, own =>
    (v = .s → ∃ s : CStr, hasChars m (stack own).toNat s.chars = true) ∧ Strings m stack ps (own + announced lm v)

/-- The argument is small enough for its length modifier, and is no number that is not printed. -/
def Fits : FmtPrintLengthModifier → Conversion → (Nat → Slot) → Prop
  | .l, .u, arg => (arg 1 ++ arg 0).toNat < 10 ^ 19
  | .none, .d, arg => (arg 0).toInt ≠ -2 ^ 31
  | .h, .d, arg => -2 ^ 15 ≤ (arg 0).toInt ∧ (arg 0).toInt < 2 ^ 15
  | .hh, .d, arg => -2 ^ 7 ≤ (arg 0).toInt ∧ (arg 0).toInt < 2 ^ 7
  | _, _, _ => True

/-- Every argument fits, and no extra argument is 0. -/
def Plain (stack : Nat → Slot) (k : Nat) : List Piece → Nat → Prop
  | [], own => ∀ j < k, stack (own + j) ≠ 0
  | .literal _ _ :: ps, own => Plain stack k ps own
  | .specifier lm v :: ps, own => Fits lm v (fromSlot stack own) ∧ Plain stack k ps (own + announced lm v)

/-- Narrowing keeps a signed value exactly when that is small. -/
theorem setWidth_toInt_iff {arg : Slot} {w : Nat} (hw : w = 8 ∨ w = 16) :
    arg.toInt = (arg.setWidth w).toInt ↔ -2 ^ (w - 1) ≤ arg.toInt ∧ arg.toInt < 2 ^ (w - 1) := by
  have hlt := arg.isLt
  rw [BitVec.toInt_setWidth, BitVec.toInt_eq_toNat_bmod]
  generalize arg.toNat = n at hlt ⊢
  rcases hw with rfl | rfl
  · simp only [Int.bmod_def]
    omega
  · simp only [Int.bmod_def]
    omega

/-- An unsigned argument of 4 bytes has at most 10 digits. -/
theorem unsignedArg_lt {arg : Nat → Slot} (hlm : lm ≠ .l) : (unsignedArg lm arg).toNat < 10 ^ 19 := by
  have hlt : ∀ {w : Nat} (x : BitVec w), w ≤ 32 → (x.setWidth 64).toNat < 10 ^ 19 := by
    intro w x hw
    have hx : x.toNat < 2 ^ 32 := Nat.lt_of_lt_of_le x.isLt (Nat.pow_le_pow_right (by decide) hw)
    rw [BitVec.toNat_setWidth_of_le (by omega)]
    omega
  cases lm with
  | none => exact hlt (arg 0) (by decide)
  | l => exact absurd rfl hlm
  | h => exact hlt ((arg 0).setWidth 16) (by decide)
  | hh => exact hlt ((arg 0).setWidth 8) (by decide)

/-- An argument that is read from its own slots is printed as it should exactly when it fits. -/
theorem sameValue_self_iff {arg : Nat → Slot} (hno : ¬ (lm = .l ∧ v = .d))
    (hstring : v = .s → ∃ s : CStr, hasChars m (arg 0).toNat s.chars = true) :
    SameValue m lm v arg arg ↔ Fits lm v arg := by
  cases v with
  | c => simp [SameValue, Fits]
  | u =>
    cases lm with
    | l => exact and_iff_right rfl
    | _ => exact ⟨fun _ => trivial, fun _ => ⟨rfl, unsignedArg_lt (by decide)⟩⟩
  | d =>
    cases lm with
    | none => simp [SameValue, signedArg, Fits]
    | l => exact absurd ⟨rfl, rfl⟩ hno
    | h =>
      rw [SameValue, signedArg, setWidth_toInt_iff (by decide), Fits]
      omega
    | hh =>
      rw [SameValue, signedArg, setWidth_toInt_iff (by decide), Fits]
      omega
  | x => simp [SameValue, Fits]
  | s =>
    obtain ⟨s, hs⟩ := hstring rfl
    simpa [SameValue, Fits] using ⟨s, hs⟩

theorem announced_eq_width (hno : ¬ (lm = .l ∧ v = .d)) : announced lm v = width lm v := by
  cases lm <;> cases v <;> first | rfl | exact absurd ⟨rfl, rfl⟩ hno

/-- The sentinel of a format without `%ld` is where the run takes it to be. -/
theorem aligned_iff_plain (hno : ∀ lm v, .specifier lm v ∈ ps → ¬ (lm = .l ∧ v = .d)) (hstrings : Strings m stack ps own)
    (hsentinel : stack (own + slots ps + k) = 0) : Aligned m stack k ps own own ↔ Plain stack k ps own := by
  induction ps generalizing own with
  | nil =>
    rw [slots, Nat.add_zero] at hsentinel
    simp [Aligned, Plain, hsentinel]
  | cons piece ps ih =>
    have hrest : ∀ lm v, .specifier lm v ∈ ps → ¬ (lm = .l ∧ v = .d) := fun lm v hmem =>
      hno lm v (List.mem_cons_of_mem _ hmem)
    cases piece with
    | literal c hc => exact ih hrest hstrings hsentinel
    | specifier lm v =>
      have hspec := hno lm v List.mem_cons_self
      have hat : own + slots (.specifier lm v :: ps) = own + announced lm v + slots ps := (Nat.add_assoc _ _ _).symm
      rw [hat] at hsentinel
      rw [Aligned, Plain, sameValue_self_iff hspec hstrings.1, ← announced_eq_width hspec, ih hrest hstrings.2 hsentinel]

/-! ## With `%ld` -/

theorem Strings.congr (h : Strings m stack ps own) (heq : ∀ i ≥ own, stack' i = stack i) : Strings m stack' ps own := by
  induction ps generalizing own with
  | nil => trivial
  | cons piece ps ih =>
    cases piece with
    | literal c hc => exact ih h heq
    | specifier lm v =>
      refine ⟨fun hv => ?_, ih h.2 fun i hi => heq i (by omega)⟩
      rw [heq own (Nat.le_refl own)]
      exact h.1 hv

/-- With the argument 2³² of the first `%ld`, at the slot `o`, the run reads another value. The slots of
this argument are none of a string. -/
theorem not_aligned_of_long (hmem : .specifier .l .d ∈ ps) (m : Bytes) (k own : Nat) :
    ∃ o ≥ own, o + 1 < own + slots ps ∧
      (∀ stack, stack o = 0 → stack (o + 1) = 1 → ¬ Aligned m stack k ps own own) ∧
      ∀ stack stack', (∀ i, i ≠ o → i ≠ o + 1 → stack' i = stack i) → Strings m stack ps own → Strings m stack' ps own := by
  induction ps generalizing own with
  | nil => cases hmem
  | cons piece ps ih =>
    cases piece with
    | literal c hc =>
      have hrest : .specifier .l .d ∈ ps := by simpa using hmem
      exact ih hrest own
    | specifier lm v =>
      by_cases hlong : lm = .l ∧ v = .d
      · obtain ⟨rfl, rfl⟩ := hlong
        refine ⟨own, Nat.le_refl own, ?_, fun stack hlow hhigh haligned => ?_, fun stack stack' heq hstrings => ?_⟩
        · show own + 1 < own + (2 + slots ps)
          omega
        · have hread : (stack own).toInt = (stack (own + 1) ++ stack own).toInt := haligned.1.1
          rw [hlow, hhigh] at hread
          exact absurd hread (by decide)
        · have hrest : Strings m stack ps (own + 2) := hstrings.2
          exact ⟨fun hv => absurd hv (by decide), hrest.congr fun i hi => heq i (by omega) (by omega)⟩
      · have hrest : .specifier .l .d ∈ ps := (List.mem_cons.mp hmem).resolve_left fun heq =>
          hlong ⟨(Piece.specifier.inj heq).1.symm, (Piece.specifier.inj heq).2.symm⟩
        have hone : 1 ≤ announced lm v := by cases lm <;> cases v <;> decide
        obtain ⟨o, hle, hlt, hnot, hkeep⟩ := ih hrest (own + announced lm v)
        refine ⟨o, by omega, ?_, fun stack hlow hhigh haligned => hnot stack hlow hhigh ?_,
          fun stack stack' heq hstrings => ⟨fun hv => ?_, hkeep stack stack' heq hstrings.2⟩⟩
        · show o + 1 < own + (announced lm v + slots ps)
          rwa [← Nat.add_assoc]
        · have haligned' := haligned.2
          rwa [← announced_eq_width hlong] at haligned'
        · rw [heq own (by omega) (by omega)]
          exact hstrings.1 hv

/-- A format with `%ld` prints some arguments wrong. -/
theorem exists_not_printsArguments {fmt : Nat} (hm : hasChars m fmt (format ps) = true) (hmem : .specifier .l .d ∈ ps)
    (hsentinel : stack (slots ps + k) = 0) (hstrings : Strings m stack ps 0) :
    ∃ stack', stack' (slots ps + k) = 0 ∧ Strings m stack' ps 0 ∧ ¬ PrintsArguments m stack' fmt ps k := by
  obtain ⟨o, -, hlt, hnot, hkeep⟩ := not_aligned_of_long hmem m k 0
  let stack' : Nat → Slot := fun i => if i = o then 0 else if i = o + 1 then 1 else stack i
  have hrest : ∀ i, i ≠ o → i ≠ o + 1 → stack' i = stack i := fun i h h' => (if_neg h).trans (if_neg h')
  have hsentinel' : stack' (slots ps + k) = 0 := (hrest _ (by omega) (by omega)).trans hsentinel
  have hhigh : stack' (o + 1) = 1 := (if_neg (Nat.succ_ne_self o)).trans (if_pos rfl)
  exact ⟨stack', hsentinel', hkeep stack stack' hrest hstrings,
    fun hprints => hnot stack' (if_pos rfl) hhigh ((printsArguments_iff_aligned hm hsentinel').mp hprints)⟩

/-- A run prints what it should exactly when the slots that it reads for the specifiers hold the values
of their arguments, none a number that is not printed. In a format without `%ld` these are the slots of
the arguments, and that is when the arguments fit and no extra argument is 0; and a format with `%ld` prints
some arguments wrong. -/
theorem printsArguments_iff (m : Bytes) (stack : Nat → Slot) (fmt : Nat) (ps : List Piece) (k : Nat)
    (hm : hasChars m fmt (format ps) = true) (hsentinel : stack (slots ps + k) = 0) (hstrings : Strings m stack ps 0) :
    (PrintsArguments m stack fmt ps k ↔ Aligned m stack k ps 0 0) ∧
      ((∀ lm v, .specifier lm v ∈ ps → ¬ (lm = .l ∧ v = .d)) → (Aligned m stack k ps 0 0 ↔ Plain stack k ps 0)) ∧
      (.specifier .l .d ∈ ps → ∃ stack' : Nat → Slot, stack' (slots ps + k) = 0 ∧ Strings m stack' ps 0 ∧
        ¬ PrintsArguments m stack' fmt ps k) :=
  ⟨printsArguments_iff_aligned hm hsentinel, fun hno => aligned_iff_plain hno hstrings (by rwa [Nat.zero_add]),
    fun hmem => exists_not_printsArguments hm hmem hsentinel hstrings⟩

/-! ## Two formats -/

/-- A stack with these slots, and zeros. -/
def stackOf (args : List Slot) : Nat → Slot := fun i => args.getD i 0

/-- `%hhx,%d` with 0x1ff and 7, and two more arguments. -/
theorem printsArguments_numbers :
    PrintsArguments (textAt (format [.specifier .hh .x, .literal 0x2c (by decide), .specifier .none .d]))
      (stackOf [0x1ff, 7, 5, 6]) 0 [.specifier .hh .x, .literal 0x2c (by decide), .specifier .none .d] 2 := by
  have h := printsArguments_iff (textAt (format [.specifier .hh .x, .literal 0x2c (by decide), .specifier .none .d]))
    (stackOf [0x1ff, 7, 5, 6]) 0 [.specifier .hh .x, .literal 0x2c (by decide), .specifier .none .d] 2
    (hasChars_textAt _) (by decide) ⟨nofun, nofun, trivial⟩
  refine h.1.mpr ((h.2.1 fun lm v hmem => ?_).mpr ?_)
  · simp at hmem
    rcases hmem with ⟨rfl, rfl⟩ | ⟨rfl, rfl⟩
    · decide
    · decide
  · refine ⟨trivial, ?_, ?_⟩
    · show (7 : Slot).toInt ≠ -2 ^ 31
      decide
    · show ∀ j < 2, stackOf [0x1ff, 7, 5, 6] (2 + j) ≠ 0
      decide

/-- `%ld` with 2³² prints 0, and its upper half is taken for an extra argument. -/
theorem printsArguments_fails : ¬ ∀ m stack fmt ps k, hasChars m fmt (format ps) = true → stack (slots ps + k) = 0 →
    Strings m stack ps 0 → PrintsArguments m stack fmt ps k := by
  intro hall
  have hm := hasChars_textAt (format [.specifier .l .d])
  have hsentinel : stackOf [0, 1] (slots [.specifier .l .d] + 0) = 0 := by decide
  have haligned := (printsArguments_iff_aligned hm hsentinel).mp (hall _ _ 0 _ 0 hm hsentinel ⟨nofun, trivial⟩)
  have hzero : stackOf [0, 1] 1 = 0 := haligned.2.2
  exact absurd hzero (by decide)

end OSForReal.Proof.Io
