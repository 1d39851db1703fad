import OSForReal.Proof.TagFS.ParseFlags
import OSForReal.TagFS.Main

/-!
# What the command lines of `tfsfmt` say

`grammar` reads the items of a command line, if it is in the grammar, and they
say which numbers, strings and image name the options hold (`Says`). For a command
line whose flags have values and whose numbers are plain (`PlainLine`), parsing
the options gives what the items say, or exits when there are none
(`parseOptions_cases`).
-/

namespace OSForReal.Proof.TagFS

open Framework
open Framework.CommandLine
open Framework.Decimal
open OSForReal.TagFS

variable {st st' : Flags} {flag : Flag} {args : List CStr} {its : List (Item CStr)} {s : List UInt8} {j : Nat} {n : Int}

/-! ## Numbers -/

instance (v : Int) : Decidable (Fits32 v) := inferInstanceAs (Decidable (_ ∧ _))

instance (v : Int) : Decidable (Fits64 v) := inferInstanceAs (Decidable (_ ∧ _))

/-- The number that a text is, if it is one of 32 bits. -/
def intOf (s : List UInt8) : Option Int :=
  match readNumber s with
  | some (v, []) => if Fits32 v then some v else none
  | _ => none

theorem intOf_eq_some_iff : intOf s = some n ↔ IsInt s n := by
  unfold intOf IsInt
  constructor
  · intro h
    split at h
    · rename_i v hread
      by_cases hv : Fits32 v
      · rw [if_pos hv] at h
        obtain rfl := Option.some.inj h
        exact ⟨numeral_of_read hread, hv⟩
      · rw [if_neg hv] at h
        cases h
    · cases h
  · rintro ⟨hnum, hn⟩
    rw [hnum.read]
    exact if_pos hn

/-- The text is not empty, and not a number of 64 bits that 32 do not hold. -/
def isPlainInt (s : List UInt8) : Bool :=
  s ≠ [] && match readNumber s with
    | some (v, []) => !decide (Fits64 v) || decide (Fits32 v)
    | _ => true

theorem plainInt_of_isPlainInt (h : isPlainInt s = true) : PlainInt s := by
  simp only [isPlainInt, ne_eq, Bool.and_eq_true, decide_eq_true_eq] at h
  refine ⟨by simpa using h.1, fun v hnum h64 => ?_⟩
  have hread := h.2
  rw [hnum.read] at hread
  simpa [h64] using hread

/-! ## The grammar -/

/-- Every flag and its values satisfy `p`. -/
def forFlags (st : Flags) (its : List (Item CStr)) (p : Flag → List (Option CStr) → Bool) : Bool :=
  st.flags.zipIdx.all fun (flag, j) => p flag (valuesOf j its)

theorem forFlags_iff {p : Flag → List (Option CStr) → Bool} :
    forFlags st its p = true ↔ ∀ j flag, st.flags[j]? = some flag → p flag (valuesOf j its) = true := by
  rw [forFlags, List.all_eq_true]
  constructor
  · intro h j flag hflag
    exact h (flag, j) (List.mem_zipIdx_iff_getElem?.mpr hflag)
  · rintro h ⟨flag, j⟩ hmem
    exact h j flag (List.mem_zipIdx_iff_getElem?.mp hmem)

/-- The values that a flag has in a command line of the grammar. -/
def goodValues (flag : Flag) (vs : List (Option CStr)) : Bool :=
  vs.all Option.isSome && (!flag.required || !vs.isEmpty) && match flag.target with
    | .cstrArray _ _ maxLen => vs.length ≤ maxLen
    | .int _ => vs.all fun v => v.all fun s => (intOf s.chars).isSome
    | _ => true

/-- The items of a command line, if it is in the grammar. -/
def grammar (st : Flags) (args : List CStr) : Option (List (Item CStr)) :=
  (read dashed (optionsOf st) args).filter fun its =>
    (operands its).length == st.positionals.length && forFlags st its goodValues

theorem goodValues_iff {vs : List (Option CStr)} : goodValues flag vs = true ↔ none ∉ vs ∧ (flag.required = true → vs ≠ []) ∧
    (∀ old i maxLen, flag.target = .cstrArray old i maxLen → vs.length ≤ maxLen) ∧
      ∀ n s, flag.target = .int n → some s ∈ vs → ∃ v, IsInt s.chars v := by
  have hgiven : vs.all Option.isSome = true ↔ none ∉ vs := by
    rw [List.all_eq_true]
    constructor
    · intro h hmem
      cases h none hmem
    · intro h v hv
      cases v with
      | none => exact absurd hv h
      | some s => rfl
  have hrequired : (!flag.required || !vs.isEmpty) = true ↔ (flag.required = true → vs ≠ []) := by
    cases flag.required <;> simp
  rw [goodValues, Bool.and_eq_true, Bool.and_eq_true, hgiven, hrequired, and_assoc]
  refine and_congr_right fun _ => and_congr_right fun _ => ?_
  cases flag.target with
  | cstr value => simp
  | bool value => simp
  | cstrArray value index maxLen =>
    simp only [decide_eq_true_eq]
    constructor
    · intro h
      exact ⟨fun _ _ _ heq => (Target.cstrArray.inj heq).2.2 ▸ h, fun _ _ heq => by cases heq⟩
    · intro h
      exact h.1 value index maxLen rfl
  | int old =>
    simp only [List.all_eq_true, Option.all_eq_true]
    constructor
    · intro h
      refine ⟨fun _ _ _ heq => by (cases heq), fun _ s _ hs => ?_⟩
      obtain ⟨v, hv⟩ := Option.isSome_iff_exists.mp (h (some s) hs s rfl)
      exact ⟨v, intOf_eq_some_iff.mp hv⟩
    · intro h v hv s hs
      obtain ⟨n, hn⟩ := h.2 old s rfl (hs ▸ hv)
      rw [intOf_eq_some_iff.mpr hn]
      rfl

/-- What is read are the items of the grammar. -/
theorem grammar_eq_some_iff (hreg : Registration st) : grammar st args = some its ↔ InGrammar st args its := by
  rw [grammar, Option.filter_eq_some_iff, Bool.and_eq_true, beq_iff_eq, forFlags_iff,
    ← spells_iff_read hreg.keys.nodup hreg.keys.dashed]
  constructor
  · rintro ⟨hspells, hlen, hgood⟩
    have hvalues := fun j flag hflag => goodValues_iff.mp (hgood j flag hflag)
    refine ⟨hspells, fun j hmem => ?_, fun j flag n s hflag hn hmem => ?_, fun j flag old i maxLen hflag harray => ?_, hlen,
      fun j flag hflag hrequired => ?_⟩
    · have hlt := hspells.lt_length hmem
      rw [optionsOf, List.length_map] at hlt
      exact (hvalues j _ (List.getElem?_eq_getElem hlt)).1 (mem_valuesOf.mpr hmem)
    · exact (hvalues j flag hflag).2.2.2 n s hn (mem_valuesOf.mpr hmem)
    · exact (hvalues j flag hflag).2.2.1 old i maxLen harray
    · exact (hvalues j flag hflag).2.1 hrequired
  · intro h
    refine ⟨h.spells, h.complete.positionals, fun j flag hflag => goodValues_iff.mpr ⟨fun hmem => ?_, ?_, ?_, ?_⟩⟩
    · exact h.given j (mem_valuesOf.mp hmem)
    · exact h.complete.required j flag hflag
    · exact fun old i maxLen harray => h.arrays j flag old i maxLen hflag harray
    · exact fun n s hn hmem => h.valid j flag n s hflag hn (mem_valuesOf.mp hmem)

/-- A command line on which the parser does what the grammar says: the flags have values, and
those of int flags are plain. -/
def PlainLine (st : Flags) (args : List CStr) : Prop := ∀ its ∈ read dashed (optionsOf st) args,
  forFlags st its (fun flag vs => vs.all Option.isSome && match flag.target with
    | .int _ => vs.all fun v => v.all fun s => isPlainInt s.chars
    | _ => true) = true

instance : Decidable (PlainLine st args) := inferInstanceAs (Decidable (∀ its ∈ read dashed (optionsOf st) args, _ = true))

theorem PlainLine.valuesGiven (h : PlainLine st args) (hreg : Registration st) : ValuesGiven st args := by
  intro its hspells hpasses
  have hplain := forFlags_iff.mp (h its ((spells_iff_read hreg.keys.nodup hreg.keys.dashed).mp hspells))
  have hgiven : ∀ j, .keyed j none ∉ its := fun j hmem => by
    have hlt := hspells.lt_length hmem
    rw [optionsOf, List.length_map] at hlt
    have hvalues := (Bool.and_eq_true_iff.mp (hplain j _ (List.getElem?_eq_getElem hlt))).1
    cases List.all_eq_true.mp hvalues none (mem_valuesOf.mpr hmem)
  refine ⟨fun j flag n hmem => absurd hmem (hgiven j), fun _ => ⟨hgiven, fun j flag n s hflag hn hmem => ?_⟩⟩
  have hint := (Bool.and_eq_true_iff.mp (hplain j flag hflag)).2
  rw [hn] at hint
  have hs := List.all_eq_true.mp hint (some s) (mem_valuesOf.mpr hmem)
  obtain ⟨v, hv⟩ := hpasses.ints j flag n s hflag hn hmem
  exact ⟨v, (plainInt_of_isPlainInt hs).isInt hv⟩

/-! ## The options -/

variable {register : Res Flags}

section

variable (hregister : register = .ok st) (hreg : Registration st) (hplain : PlainLine st args)
include hregister hreg hplain

/-- A command line of the grammar leaves in the options what its items say. -/
theorem parseOptions_taken (h : grammar st args = some its) :
    ∃ st', parseOptions register args = .ok (some st') ∧ TargetsHold st its st' := by
  obtain ⟨error, p, hrun, hiff, hholds⟩ := parses_of_valuesGiven hreg (hplain.valuesGiven hreg)
  have hgrammar := (grammar_eq_some_iff hreg).mp h
  have hnone : error = none := hiff.mpr ⟨its, hgrammar⟩
  refine ⟨p.statics, ?_, (hholds its hnone hgrammar).1⟩
  rw [parseOptions, hregister, Res.ok_bind, hrun, hnone]
  rfl

/-- On any other one the program exits. -/
theorem parseOptions_refused (h : grammar st args = none) : parseOptions register args = .ok none := by
  obtain ⟨error, p, hrun, hiff, -⟩ := parses_of_valuesGiven hreg (hplain.valuesGiven hreg)
  have hsome : error.isSome = true := by
    rw [← Option.ne_none_iff_isSome]
    intro hnone
    obtain ⟨its, hgrammar⟩ := hiff.mp hnone
    rw [(grammar_eq_some_iff hreg).mpr hgrammar] at h
    cases h
  rw [parseOptions, hregister, Res.ok_bind, hrun, Res.ok_bind]
  show Res.ok (if error.isSome = true then none else some p.statics) = _
  rw [if_pos hsome]

end

/-- The number of a flag: that of its last value. -/
def numberOf (old : Int) (vs : List (Option CStr)) : Int := (vs.getLast?.join.bind fun s => intOf s.chars).getD old

theorem TargetsHold.int_eq (h : TargetsHold st its st') (hgrammar : InGrammar st args its) {old : Int}
    (hflag : st.flags[j]? = some flag) (hold : flag.target = .int old) : st'.int j = numberOf old (valuesOf j its) := by
  obtain ⟨flag', hflag', htarget⟩ := h.flags j flag hflag
  rw [hold] at htarget
  obtain ⟨n, hn, hnil, hlast⟩ := htarget
  rw [Flags.int, hflag', Option.map_some, hn, numberOf]
  cases hv : (valuesOf j its).getLast? with
  | none => exact hnil (List.getLast?_eq_none_iff.mp hv)
  | some v =>
    cases v with
    | none => exact absurd (mem_valuesOf.mp (List.mem_of_getLast? hv)) (hgrammar.given j)
    | some s =>
      obtain ⟨v, hint⟩ := hgrammar.valid j flag old s hflag hold (mem_valuesOf.mp (List.mem_of_getLast? hv))
      show n = (intOf s.chars).getD old
      rw [intOf_eq_some_iff.mpr hint]
      exact (hlast s hv).unique hint.1

theorem TargetsHold.array_eq (h : TargetsHold st its st') {maxLen : Nat} {old : Nat → Option CStr} {i : Nat}
    (hflag : st.flags[j]? = some flag) (hold : flag.target = .cstrArray old i maxLen) : st'.array j = valuesOf j its := by
  obtain ⟨flag', hflag', htarget⟩ := h.flags j flag hflag
  rw [hold] at htarget
  obtain ⟨value, hvalue, hk⟩ := htarget
  rw [Flags.array, hflag', Option.map_some, hvalue]
  refine List.ext_getElem (by simp) fun k h₁ h₂ => ?_
  rw [List.getElem_map, List.getElem_range, hk k, List.getElem?_eq_getElem h₂, Option.getD_some]

theorem TargetsHold.imageName_eq (h : TargetsHold st its st') {image : CStr} (himage : (operands its)[0]? = some image) :
    st'.imageName = some image := by
  obtain ⟨flag', hflag', htarget⟩ := h.positionals 0 image himage
  rw [Flags.imageName, hflag', Option.map_some, htarget]

end OSForReal.Proof.TagFS
