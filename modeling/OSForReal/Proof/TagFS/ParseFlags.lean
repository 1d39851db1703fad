import OSForReal.Proof.TagFS.FlagsRun

/-!
# The command lines that are accepted

A registration (`Registration`) and a command line that is spelled by items: the run
of `flags_parse_flags` takes them exactly under `Passes` (`passes_iff`), and each
target then holds what its own values leave (`TargetHolds`). So the call accepts exactly
its grammar, and stores what that says, unless a flag is without a value at the
end, or an int flag has a value that `flags_parse_flag` takes for another one
(`parsesGrammar_iff`).
-/

namespace OSForReal.Proof.TagFS

open Framework
open Framework.CommandLine
open Framework.Decimal
open OSForReal.TagFS

variable {st : Flags} {b' : Board Flag} {flag flag' : Flag} {old : Nat → Option CStr} {argv : List CStr}
  {vs : List (Option CStr)} {its : List (Item CStr)} {i j maxLen : Nat} {n : Int}

/-! ## The values of one flag -/

theorem storeArg_cstr {s v : Option CStr} (h : flag.target = .cstr s) :
    storeArg flag v = some { flag with provided := true, target := .cstr v } := by
  simp [storeArg, flagsParseFlag, h]

theorem storeArg_array {v : Option CStr} (h : flag.target = .cstrArray old i maxLen) : storeArg flag v =
    if i < maxLen then some { flag with provided := true, target := .cstrArray (Function.update old i v) (i + 1) maxLen }
    else none := by
  by_cases hfull : i ≥ maxLen
  · simp [storeArg, flagsParseFlag, h, hfull]
  · simp [storeArg, flagsParseFlag, h, hfull]

theorem storeArg_takes {s : CStr} {m : Int} (h : flag.target = .int m) (htakes : Takes s.chars n) :
    storeArg flag (some s) = some { flag with provided := true, target := .int n } := by
  simp [storeArg, flagsParseFlag_takes h htakes]

theorem storeArg_refuses {s : CStr} (h : flag.target = .int n) (hno : ∀ n, ¬ Takes s.chars n) :
    storeArg flag (some s) = none := by
  obtain ⟨error, errno, hrun⟩ := flagsParseFlag_refuses h hno
  simp [storeArg, hrun]

theorem storeArg_missing (h : flag.target = .int n) : storeArg flag none = some { flag with provided := true } := by
  simp [storeArg, flagsParseFlag, h]

theorem foldlM_cons_store {v : Option CStr} {flag₁ : Flag} (h : storeArg flag v = some flag₁) :
    (v :: vs).foldlM storeArg flag = vs.foldlM storeArg flag₁ := by
  rw [List.foldlM_cons, h]
  rfl

/-- A string flag holds its last value. -/
theorem fold_cstr {s : Option CStr} (h : flag.target = .cstr s) :
    ∃ flag', vs.foldlM storeArg flag = some flag' ∧ flag'.target = .cstr (vs.getLast?.getD s) := by
  induction vs generalizing flag s with
  | nil => exact ⟨flag, rfl, h⟩
  | cons v vs ih =>
    rw [foldlM_cons_store (storeArg_cstr h)]
    obtain ⟨flag', hfold, htarget⟩ := @ih { flag with provided := true, target := .cstr v } v rfl
    exact ⟨flag', hfold, by rw [htarget, List.getLast?_cons]; rfl⟩

/-- An array flag holds its values in order, as long as they fit. -/
theorem fold_array (h : flag.target = .cstrArray old i maxLen) (hfits : i + vs.length ≤ maxLen) :
    ∃ flag' value, vs.foldlM storeArg flag = some flag' ∧ flag'.target = .cstrArray value (i + vs.length) maxLen ∧
      ∀ k, value k = if k < i then old k else (vs[k - i]?).getD (old k) := by
  induction vs generalizing flag old i with
  | nil => exact ⟨flag, old, rfl, h, fun k => by simp⟩
  | cons v vs ih =>
    rw [List.length_cons] at hfits
    rw [foldlM_cons_store ((storeArg_array h).trans (if_pos (by omega)))]
    obtain ⟨flag', value, hfold, htarget, hvalue⟩ := @ih
      { flag with provided := true, target := .cstrArray (Function.update old i v) (i + 1) maxLen }
      (Function.update old i v) (i + 1) rfl (by omega)
    refine ⟨flag', value, hfold, ?_, fun k => ?_⟩
    · rw [htarget, List.length_cons, Nat.add_assoc, Nat.add_comm 1]
    · rw [hvalue k]
      rcases Nat.lt_trichotomy k i with hlt | rfl | hgt
      · rw [if_pos (by omega), if_pos hlt, Function.update_of_ne (Nat.ne_of_lt hlt)]
      · rw [if_pos (Nat.lt_succ_self k), if_neg (Nat.lt_irrefl k), Function.update_self, Nat.sub_self]
        rfl
      · rw [if_neg (by omega), if_neg (by omega), Function.update_of_ne (Nat.ne_of_gt hgt),
          show k - i = k - (i + 1) + 1 by omega, List.getElem?_cons_succ]

theorem fold_array_full (h : flag.target = .cstrArray old i maxLen) (hfits : ¬ i + vs.length ≤ maxLen)
    (hi : i ≤ maxLen) : vs.foldlM storeArg flag = none := by
  induction vs generalizing flag old i with
  | nil => exact absurd hi hfits
  | cons v vs ih =>
    rw [List.length_cons] at hfits
    by_cases hlt : i < maxLen
    · rw [foldlM_cons_store ((storeArg_array h).trans (if_pos hlt))]
      exact ih rfl (by omega) hlt
    · rw [List.foldlM_cons, storeArg_array h, if_neg hlt]
      rfl

/-- An int flag holds what it takes from its last value. -/
theorem fold_int {m : Int} (h : flag.target = .int m) (htaken : ∀ s, some s ∈ vs → ∃ n, Takes s.chars n) :
    ∃ flag' n, vs.foldlM storeArg flag = some flag' ∧ flag'.target = .int n ∧ (vs = [] → n = m) ∧
      ∀ s, vs.getLast? = some (some s) → Takes s.chars n := by
  induction vs generalizing flag m with
  | nil => exact ⟨flag, m, rfl, h, fun _ => rfl, nofun⟩
  | cons v vs ih =>
    have hrest : ∀ s, some s ∈ vs → ∃ n, Takes s.chars n := fun s hs => htaken s (List.mem_cons_of_mem _ hs)
    have hlast : ∀ {w}, vs ≠ [] → (v :: vs).getLast? = some w → vs.getLast? = some w := fun hne hw => by
      obtain ⟨x, hx⟩ := Option.ne_none_iff_exists'.mp (mt List.getLast?_eq_none_iff.mp hne)
      rw [List.getLast?_cons, hx] at hw
      rw [hx, ← hw]
      rfl
    cases v with
    | none =>
      rw [foldlM_cons_store (storeArg_missing h)]
      obtain ⟨flag', n, hfold, htarget, hnil, htakes⟩ := @ih { flag with provided := true } m h hrest
      refine ⟨flag', n, hfold, htarget, nofun, fun s hs => ?_⟩
      by_cases hne : vs = []
      · subst hne
        cases hs
      · exact htakes s (hlast hne hs)
    | some s =>
      obtain ⟨k, hk⟩ := htaken s List.mem_cons_self
      rw [foldlM_cons_store (storeArg_takes h hk)]
      obtain ⟨flag', n, hfold, htarget, hnil, htakes⟩ :=
        @ih { flag with provided := true, target := .int k } k rfl hrest
      refine ⟨flag', n, hfold, htarget, nofun, fun s' hs' => ?_⟩
      by_cases hne : vs = []
      · subst hne
        cases hs'
        rw [hnil rfl]
        exact hk
      · exact htakes s' (hlast hne hs')

theorem fold_int_refused {m : Int} {s : CStr} (h : flag.target = .int m) (hmem : some s ∈ vs)
    (hno : ∀ n, ¬ Takes s.chars n) : vs.foldlM storeArg flag = none := by
  induction vs generalizing flag m with
  | nil => cases hmem
  | cons v vs ih =>
    rw [List.foldlM_cons]
    cases v with
    | none =>
      rw [storeArg_missing h]
      exact @ih { flag with provided := true } m h (by simpa using hmem)
    | some s' =>
      by_cases htaken : ∃ n, Takes s'.chars n
      · obtain ⟨k, hk⟩ := htaken
        rw [storeArg_takes h hk]
        refine @ih { flag with provided := true, target := .int k } k rfl ?_
        refine (List.mem_cons.mp hmem).resolve_left fun heq => ?_
        cases heq
        exact hno k hk
      · rw [storeArg_refuses h (not_exists.mp htaken)]
        rfl

/-- A flag is provided by a value. -/
theorem fold_provided (h : vs.foldlM storeArg flag = some flag') :
    flag'.required = flag.required ∧ (flag'.provided = true ↔ flag.provided = true ∨ vs ≠ []) := by
  induction vs generalizing flag with
  | nil =>
    obtain rfl : flag = flag' := by simpa using h
    exact ⟨rfl, by simp⟩
  | cons v vs ih =>
    rw [List.foldlM_cons] at h
    obtain ⟨flag₁, hstore, hfold⟩ := Option.bind_eq_some_iff.mp h
    obtain ⟨-, hrequired, hprovided, -⟩ := storeArg_keeps hstore
    obtain ⟨hrequired', hprovided'⟩ := ih hfold
    exact ⟨hrequired'.trans hrequired, by simp [hprovided', hprovided]⟩

/-! ## Registrations -/

/-- A target of a flag before any argument: there are no bools, and an array is empty. -/
def Registered : Target → Prop
  | .cstr _ => True
  | .cstrArray _ index _ => index = 0
  | .int _ => True
  | .bool _ => False

/-- Flags with different options that start with a dash, and string positionals, none of which is provided. -/
structure Registration (st : Flags) : Prop where
  dashed : ∀ flag ∈ st.flags, dashed flag.option = true
  distinct : (st.flags.map Flag.option).Nodup
  targets : ∀ flag ∈ st.flags, Registered flag.target ∧ flag.provided = false
  positionals : ∀ flag ∈ st.positionals, flag.required = true ∧ flag.provided = false ∧ ∃ s, flag.target = .cstr s

/-- The options of the flags. -/
def optionsOf (st : Flags) : List CStr := st.flags.map Flag.option

theorem Registration.keys (h : Registration st) : Keys (boardOf st) (optionsOf st) := by
  refine ⟨rfl, h.distinct, fun key hkey => ?_⟩
  obtain ⟨flag, hflag, rfl⟩ := List.mem_map.mp hkey
  exact h.dashed flag hflag

/-- A flag is added to a registration. -/
theorem Registration.addFlag (h : Registration st) {st' : Flags} {target : Target} {option : CStr} {required : Bool}
    (hdash : TagFS.dashed option = true) (hnew : option ∉ optionsOf st) (htarget : Registered target)
    (hadd : st.addFlag target option required = .ok st') : Registration st' := by
  obtain ⟨-, -, heq⟩ := Res.bind_eq_ok.mp hadd
  cases heq
  refine ⟨fun flag hflag => ?_, ?_, fun flag hflag => ?_, h.positionals⟩
  · rcases List.mem_append.mp hflag with hold | hmem
    · exact h.dashed flag hold
    · rw [List.mem_singleton.mp hmem]
      exact hdash
  · rw [List.map_append, List.nodup_append]
    refine ⟨h.distinct, List.nodup_singleton _, fun key hkey key' hkey' => ?_⟩
    rw [List.mem_singleton.mp hkey']
    rintro rfl
    exact hnew hkey
  · rcases List.mem_append.mp hflag with hold | hmem
    · exact h.targets flag hold
    · rw [List.mem_singleton.mp hmem]
      exact ⟨htarget, rfl⟩

theorem Registration.addCstrFlag (h : Registration st) {st' : Flags} {value : Option CStr} {option : CStr} {required : Bool}
    (hdash : TagFS.dashed option = true) (hnew : option ∉ optionsOf st)
    (hadd : flagsAddCstrFlag st value option required = .ok st') : Registration st' :=
  h.addFlag hdash hnew (show Registered (.cstr value) from trivial) hadd

theorem Registration.addCstrArrayFlag (h : Registration st) {st' : Flags} {value : Nat → Option CStr} {maxLen : Nat}
    {option : CStr} {required : Bool} (hdash : TagFS.dashed option = true) (hnew : option ∉ optionsOf st)
    (hadd : flagsAddCstrArrayFlag st value 0 maxLen option required = .ok st') : Registration st' :=
  h.addFlag hdash hnew (show Registered (.cstrArray value 0 maxLen) from rfl) hadd

theorem Registration.addIntFlag (h : Registration st) {st' : Flags} {value : Int} {option : CStr} {required : Bool}
    (hdash : TagFS.dashed option = true) (hnew : option ∉ optionsOf st)
    (hadd : flagsAddIntFlag st value option required = .ok st') : Registration st' :=
  h.addFlag hdash hnew (show Registered (.int value) from trivial) hadd

/-- A positional is added to a registration. -/
theorem Registration.addPositional (h : Registration st) {st' : Flags} {s : Option CStr} {name : CStr}
    (hadd : flagsAddCstrPositional st s name = .ok st') : Registration st' := by
  obtain ⟨-, -, heq⟩ := Res.bind_eq_ok.mp hadd
  cases heq
  refine ⟨h.dashed, h.distinct, h.targets, fun flag hflag => ?_⟩
  rcases List.mem_append.mp hflag with hold | hmem
  · exact h.positionals flag hold
  · rw [List.mem_singleton.mp hmem]
    exact ⟨rfl, rfl, s, rfl⟩

theorem registration_empty : Registration ⟨[], []⟩ := ⟨nofun, List.nodup_nil, nofun, nofun⟩

theorem optionsOf_addFlag {st' : Flags} {target : Target} {option : CStr} {required : Bool}
    (hadd : st.addFlag target option required = .ok st') : optionsOf st' = optionsOf st ++ [option] := by
  obtain ⟨-, -, heq⟩ := Res.bind_eq_ok.mp hadd
  cases heq
  exact List.map_append

theorem optionsOf_addPositional {st' : Flags} {s : Option CStr} {name : CStr}
    (hadd : flagsAddCstrPositional st s name = .ok st') : optionsOf st' = optionsOf st := by
  obtain ⟨-, -, heq⟩ := Res.bind_eq_ok.mp hadd
  cases heq
  rfl

/-- The options of `write-files` are a registration. -/
theorem registration_writeFiles (h : writeFilesFlags = .ok st) : Registration st := by
  obtain ⟨st₁, h₁, h⟩ := Res.bind_eq_ok.mp h
  obtain ⟨st₂, h₂, h₃⟩ := Res.bind_eq_ok.mp h
  have hoptions₁ : optionsOf st₁ = [] := optionsOf_addPositional h₁
  have hoptions₂ : optionsOf st₂ = [CStr.ofString "-file"] := by
    rw [optionsOf_addFlag h₂, hoptions₁]
    rfl
  have hreg₁ := registration_empty.addPositional h₁
  have hreg₂ := hreg₁.addCstrArrayFlag (by decide) (by rw [hoptions₁]; decide) h₂
  exact hreg₂.addCstrArrayFlag (by decide) (by rw [hoptions₂]; decide) h₃

/-- So are those of `write-tag`. -/
theorem registration_writeTag (h : writeTagFlags = .ok st) : Registration st := by
  obtain ⟨st₁, h₁, h₂⟩ := Res.bind_eq_ok.mp h
  have hoptions₁ : optionsOf st₁ = [] := optionsOf_addPositional h₁
  exact (registration_empty.addPositional h₁).addCstrFlag (by decide) (by rw [hoptions₁]; decide) h₂

/-- So are those of `format`. -/
theorem registration_format (h : formatFlags = .ok st) : Registration st := by
  obtain ⟨st₁, h₁, h⟩ := Res.bind_eq_ok.mp h
  obtain ⟨st₂, h₂, h⟩ := Res.bind_eq_ok.mp h
  obtain ⟨st₃, h₃, h⟩ := Res.bind_eq_ok.mp h
  obtain ⟨st₄, h₄, h⟩ := Res.bind_eq_ok.mp h
  obtain ⟨st₅, h₅, h⟩ := Res.bind_eq_ok.mp h
  obtain ⟨st₆, h₆, h₇⟩ := Res.bind_eq_ok.mp h
  have hoptions₁ : optionsOf st₁ = [] := optionsOf_addPositional h₁
  have hoptions₂ := (optionsOf_addFlag h₂).trans (congrArg (· ++ _) hoptions₁)
  have hoptions₃ := (optionsOf_addFlag h₃).trans (congrArg (· ++ _) hoptions₂)
  have hoptions₄ := (optionsOf_addFlag h₄).trans (congrArg (· ++ _) hoptions₃)
  have hoptions₅ := (optionsOf_addFlag h₅).trans (congrArg (· ++ _) hoptions₄)
  have hoptions₆ := (optionsOf_addFlag h₆).trans (congrArg (· ++ _) hoptions₅)
  have hreg₁ := registration_empty.addPositional h₁
  have hreg₂ := hreg₁.addIntFlag (by decide) (by rw [hoptions₁]; decide) h₂
  have hreg₃ := hreg₂.addIntFlag (by decide) (by rw [hoptions₂]; decide) h₃
  have hreg₄ := hreg₃.addIntFlag (by decide) (by rw [hoptions₃]; decide) h₄
  have hreg₅ := hreg₄.addIntFlag (by decide) (by rw [hoptions₄]; decide) h₅
  have hreg₆ := hreg₅.addIntFlag (by decide) (by rw [hoptions₅]; decide) h₆
  exact hreg₆.addIntFlag (by decide) (by rw [hoptions₆]; decide) h₇

/-! ## What is taken -/

/-- The items are taken: there are positionals for the operands, arrays are long enough, and int flags take their
values. -/
structure Passes (st : Flags) (its : List (Item CStr)) : Prop where
  positionals : (operands its).length ≤ st.positionals.length
  arrays : ∀ j flag old i maxLen, st.flags[j]? = some flag → flag.target = .cstrArray old i maxLen →
    (valuesOf j its).length ≤ maxLen
  ints : ∀ j flag n s, st.flags[j]? = some flag → flag.target = .int n → .keyed j (some s) ∈ its →
    ∃ n, Takes s.chars n

/-- What the values of a flag leave in its target, where `reads` says what a text is read as. -/
def TargetHolds (reads : List UInt8 → Int → Prop) : Target → List (Option CStr) → Target → Prop
  | .cstr old, vs, target => target = .cstr (vs.getLast?.getD old)
  | .cstrArray old _ maxLen, vs, target =>
    ∃ value, target = .cstrArray value vs.length maxLen ∧ ∀ k, value k = (vs[k]?).getD (old k)
  | .int old, vs, target =>
    ∃ n, target = .int n ∧ (vs = [] → n = old) ∧ ∀ s, vs.getLast? = some (some s) → reads s.chars n
  | .bool old, vs, target => target = .bool (old || !vs.isEmpty)

/-- A flag whose values are taken stores them. -/
theorem exists_stored (h : Registered flag.target)
    (harray : ∀ old i maxLen, flag.target = .cstrArray old i maxLen → vs.length ≤ maxLen)
    (hint : ∀ n s, flag.target = .int n → some s ∈ vs → ∃ n, Takes s.chars n) :
    ∃ flag', vs.foldlM storeArg flag = some flag' ∧ TargetHolds Takes flag.target vs flag'.target := by
  cases htarget : flag.target with
  | cstr s => exact fold_cstr htarget
  | cstrArray old i maxLen =>
    rw [htarget] at h
    obtain rfl : i = 0 := h
    have hlen := harray old 0 maxLen htarget
    obtain ⟨flag', value, hfold, hstored, hvalue⟩ := fold_array htarget (show 0 + vs.length ≤ maxLen by omega)
    refine ⟨flag', hfold, value, by rw [hstored, Nat.zero_add], fun k => ?_⟩
    rw [hvalue k, if_neg (Nat.not_lt_zero k), Nat.sub_zero]
  | int m =>
    obtain ⟨flag', n, hfold, hstored, hnil, htakes⟩ := fold_int htarget fun s hs => hint m s htarget hs
    exact ⟨flag', hfold, n, hstored, hnil, htakes⟩
  | bool s =>
    rw [htarget] at h
    exact h.elim

/-- A run leaves in the slot of a flag what its own values do. -/
theorem flag_of_run (h : Fills storeArg (boardOf st) its b') (hflag : st.flags[j]? = some flag) :
    ∃ flag', (valuesOf j its).foldlM storeArg flag = some flag' ∧ b'.slots[j]? = some flag' :=
  h.slots hflag

/-- It leaves an operand in the place of its positional. -/
theorem positional_of_run {k : Nat} {s : CStr} (h : Fills storeArg (boardOf st) its b')
    (hk : (operands its)[k]? = some s) : ∃ place place', st.positionals[k]? = some place ∧
      storeArg place (some s) = some place' ∧ b'.places[k]? = some place' := by
  have hplaces := h.places hk
  rwa [show (boardOf st).next + k = k from Nat.zero_add k] at hplaces

/-- The other positionals stay as they are. -/
theorem positional_after_run {k : Nat} (h : Fills storeArg (boardOf st) its b') (hk : (operands its).length ≤ k) :
    b'.places[k]? = st.positionals[k]? := by
  refine h.places_after ?_
  rwa [h.next, show (boardOf st).next = 0 from rfl, Nat.zero_add]

/-- Items are taken exactly when they pass. -/
theorem passes_iff (hreg : Registration st) (h : Spells dashed (optionsOf st) argv its) :
    (∃ b', its.foldlM (take storeArg) (boardOf st) = some b') ↔ Passes st its := by
  constructor
  · intro ⟨b', hfold⟩
    have hrun := fills_of_foldlM hfold
    refine ⟨?_, fun j flag old i maxLen hflag htarget => ?_, fun j flag n s hflag htarget hmem => ?_⟩
    · by_contra hmany
      -- The operand after the last positional has no place.
      have hlt : st.positionals.length < (operands its).length := Nat.lt_of_not_le hmany
      obtain ⟨place, _, hplace, -, -⟩ := positional_of_run hrun (List.getElem?_eq_getElem hlt)
      rw [List.getElem?_eq_none (Nat.le_refl _)] at hplace
      cases hplace
    · obtain ⟨flag', hvalues, -⟩ := flag_of_run hrun hflag
      have hzero := (hreg.targets flag (List.mem_of_getElem? hflag)).1
      rw [htarget] at hzero
      obtain rfl : i = 0 := hzero
      by_contra hmany
      rw [fold_array_full htarget (by omega) (Nat.zero_le _)] at hvalues
      cases hvalues
    · obtain ⟨flag', hvalues, -⟩ := flag_of_run hrun hflag
      by_contra hno
      rw [fold_int_refused htarget (mem_valuesOf.mpr hmem) (not_exists.mp hno)] at hvalues
      cases hvalues
  · intro hpasses
    refine exists_foldlM (fun j v hmem => ?_) (fun j slot hslot => ?_) ?_ fun k place a _ hplace => ?_
    · have hlt := h.lt_length hmem
      rwa [optionsOf, List.length_map] at hlt
    · have hslot' : st.flags[j]? = some slot := hslot
      obtain ⟨flag', hfold, -⟩ := @exists_stored slot (valuesOf j its) (hreg.targets slot (List.mem_of_getElem? hslot')).1
        (fun old i maxLen htarget => hpasses.arrays j slot old i maxLen hslot' htarget)
        fun n s htarget hmem => hpasses.ints j slot n s hslot' htarget (mem_valuesOf.mp hmem)
      exact ⟨flag', hfold⟩
    · show 0 + (operands its).length ≤ st.positionals.length
      rw [Nat.zero_add]
      exact hpasses.positionals
    · obtain ⟨-, -, s, hs⟩ := hreg.positionals place (List.mem_of_getElem? hplace)
      exact ⟨_, storeArg_cstr hs⟩

/-! ## The grammar -/

/-- Nothing that is required is missing. -/
structure Complete (st : Flags) (its : List (Item CStr)) : Prop where
  positionals : (operands its).length = st.positionals.length
  required : ∀ j flag, st.flags[j]? = some flag → flag.required = true → valuesOf j its ≠ []

/-- Every int flag has an integer of 32 bits for each of its values. -/
def ValidInts (st : Flags) (its : List (Item CStr)) : Prop :=
  ∀ j flag n s, st.flags[j]? = some flag → flag.target = .int n → .keyed j (some s) ∈ its → ∃ v, IsInt s.chars v

/-- The command line is a sequence of positionals and of flags with a valid value each,
with as many positionals as there are, with no array that is too short and
with every flag that is required. -/
structure InGrammar (st : Flags) (argv : List CStr) (its : List (Item CStr)) : Prop where
  spells : Spells dashed (optionsOf st) argv its
  given : ∀ j, .keyed j none ∉ its
  valid : ValidInts st its
  arrays : ∀ j flag old i maxLen, st.flags[j]? = some flag → flag.target = .cstrArray old i maxLen →
    (valuesOf j its).length ≤ maxLen
  complete : Complete st its

/-- Each positional holds its string, and each flag what its values say. -/
structure TargetsHold (st : Flags) (its : List (Item CStr)) (st' : Flags) : Prop where
  positionals : ∀ (k : Nat) (s : CStr), (operands its)[k]? = some s →
    ∃ flag' : Flag, st'.positionals[k]? = some flag' ∧ flag'.target = .cstr (some s)
  flags : ∀ (j : Nat) (flag : Flag), st.flags[j]? = some flag →
    ∃ flag' : Flag, st'.flags[j]? = some flag' ∧ TargetHolds Numeral flag.target (valuesOf j its) flag'.target

/-- The call returns, it returns true if and only if the command line is in the grammar,
and the targets then hold what that says, and `argv` has been shifted to its NULL. -/
def ParsesGrammar (st : Flags) (argv : List CStr) : Prop :=
  ∃ error p, flagsParseFlags st 0 argv.length (argv.map some ++ [none]) = .ok (error, p) ∧
    (error = none ↔ ∃ its, InGrammar st argv its) ∧
    ∀ its, error = none → InGrammar st argv its → TargetsHold st its p.statics ∧ p.args = ⟨0, [none]⟩

/-- No command line that is taken ends with an int flag without a value, and if nothing
is missing in it, every flag has a value, and an int flag a valid one. -/
def ValuesGiven (st : Flags) (argv : List CStr) : Prop :=
  ∀ its, Spells dashed (optionsOf st) argv its → Passes st its →
    (∀ j flag n, .keyed j none ∈ its → st.flags[j]? = some flag → flag.target ≠ .int n) ∧
    (Complete st its → (∀ j, .keyed j none ∉ its) ∧ ValidInts st its)

theorem InGrammar.passes (h : InGrammar st argv its) : Passes st its := by
  refine ⟨Nat.le_of_eq h.complete.positionals, h.arrays, fun j flag n s hflag htarget hmem => ?_⟩
  obtain ⟨v, hv⟩ := h.valid j flag n s hflag htarget hmem
  exact ⟨v, hv.takes⟩

theorem missesInt_iff : MissesInt (boardOf st) its ↔
    ¬ ∀ j flag n, .keyed j none ∈ its → st.flags[j]? = some flag → flag.target ≠ .int n := by
  constructor
  · intro ⟨j, hmem, flag, hflag, n, hn⟩ hall
    exact hall j flag n hmem hflag hn
  · intro hnot
    by_contra hno
    exact hnot fun j flag n hmem hflag hn => hno ⟨j, hmem, flag, hflag, n, hn⟩

/-- What is left provides all that is required exactly when nothing is missing. -/
theorem provided_iff (hreg : Registration st) (hfold : its.foldlM (take storeArg) (boardOf st) = some b')
    (hle : (operands its).length ≤ st.positionals.length) : Provided b' ↔ Complete st its := by
  have hrun := fills_of_foldlM hfold
  constructor
  · intro hprovided
    refine ⟨Nat.le_antisymm hle (Nat.le_of_not_lt fun hlt => ?_), fun j flag hflag hrequired => ?_⟩
    · -- The first positional without an operand has not been provided.
      have hmem : b'.places[(operands its).length]? = some st.positionals[(operands its).length] :=
        (positional_after_run hrun (Nat.le_refl _)).trans (List.getElem?_eq_getElem hlt)
      obtain ⟨hrequired, hnot, -⟩ := hreg.positionals _ (List.getElem_mem hlt)
      rw [hprovided _ (.inl (List.mem_of_getElem? hmem)) hrequired] at hnot
      cases hnot
    · obtain ⟨flag', hvalues, hflag'⟩ := flag_of_run hrun hflag
      obtain ⟨hrequired', hiff⟩ := fold_provided hvalues
      have hset := hiff.mp (hprovided flag' (.inr (List.mem_of_getElem? hflag')) (hrequired'.trans hrequired))
      exact hset.resolve_left (by simp [(hreg.targets flag (List.mem_of_getElem? hflag)).2])
  · intro hcomplete flag' hflag' hrequired
    rcases hflag' with hmem | hmem
    · obtain ⟨k, hk⟩ := List.mem_iff_getElem?.mp hmem
      by_cases hlt : k < (operands its).length
      · obtain ⟨place, place', -, hstore, hplace'⟩ := positional_of_run hrun (List.getElem?_eq_getElem hlt)
        rw [hk] at hplace'
        rw [Option.some.inj hplace']
        exact (storeArg_keeps hstore).2.2.1
      · have hnone := (positional_after_run hrun (Nat.le_of_not_lt hlt)).symm.trans hk
        rw [List.getElem?_eq_none (by rw [← hcomplete.positionals]; omega)] at hnone
        cases hnone
    · obtain ⟨j, hj⟩ := List.mem_iff_getElem?.mp hmem
      have hlt : j < st.flags.length := by
        have hlt := (List.getElem?_eq_some_iff.mp hj).1
        rwa [hrun.slots_length] at hlt
      have hflag : st.flags[j]? = some st.flags[j] := List.getElem?_eq_getElem hlt
      obtain ⟨flag₁, hvalues, hflag₁⟩ := flag_of_run hrun hflag
      obtain rfl : flag₁ = flag' := Option.some.inj (hflag₁.symm.trans hj)
      obtain ⟨hrequired', hiff⟩ := fold_provided hvalues
      exact hiff.mpr (.inr (hcomplete.required j _ hflag (hrequired'.symm.trans hrequired)))

/-- If the values of an int flag are valid, it holds the number that the last one is. -/
theorem TargetHolds.numeral {t t' : Target} (h : TargetHolds Takes t vs t')
    (hvalid : ∀ n s, t = .int n → some s ∈ vs → ∃ v, IsInt s.chars v) : TargetHolds Numeral t vs t' := by
  cases t with
  | cstr old => exact h
  | cstrArray old i maxLen => exact h
  | bool old => exact h
  | int old =>
    obtain ⟨n, htarget, hnil, htakes⟩ := h
    refine ⟨n, htarget, hnil, fun s hs => ?_⟩
    obtain ⟨v, hv⟩ := hvalid old s rfl (List.mem_of_getLast? hs)
    rw [(htakes s hs).unique hv.takes]
    exact hv.1

/-- What a run that takes a command line of the grammar leaves. -/
theorem targetsHold (hreg : Registration st) (hfold : its.foldlM (take storeArg) (boardOf st) = some b')
    (h : InGrammar st argv its) : TargetsHold st its ⟨b'.slots, b'.places⟩ := by
  have hrun := fills_of_foldlM hfold
  constructor
  · intro k s hk
    obtain ⟨place, place', hplace, hstore, hplace'⟩ := positional_of_run hrun hk
    obtain ⟨-, -, old, hold⟩ := hreg.positionals place (List.mem_of_getElem? hplace)
    rw [storeArg_cstr hold] at hstore
    exact ⟨place', hplace', by rw [← Option.some.inj hstore]⟩
  · intro j flag hflag
    obtain ⟨flag', hvalues, hflag'⟩ := flag_of_run hrun hflag
    obtain ⟨flag₁, hvalues₁, hstored⟩ := @exists_stored flag (valuesOf j its)
      (hreg.targets flag (List.mem_of_getElem? hflag)).1
      (fun old i maxLen htarget => h.passes.arrays j flag old i maxLen hflag htarget)
      fun n s htarget hmem => h.passes.ints j flag n s hflag htarget (mem_valuesOf.mp hmem)
    obtain rfl : flag₁ = flag' := Option.some.inj (hvalues₁.symm.trans hvalues)
    exact ⟨flag₁, hflag', hstored.numeral fun n s htarget hmem => h.valid j flag n s hflag htarget (mem_valuesOf.mp hmem)⟩

theorem valuesGiven_of_parses (hreg : Registration st) (h : ParsesGrammar st argv) : ValuesGiven st argv := by
  obtain ⟨error, p, hrun, hiff, -⟩ := h
  intro its hspells hpasses
  obtain ⟨b', hfold⟩ := (passes_iff hreg hspells).mpr hpasses
  have hgiven : ¬ MissesInt (boardOf st) its := fun hmiss => by
    rw [flagsParseFlags_halts hreg.keys hspells hfold hmiss] at hrun
    cases hrun
  refine ⟨not_not.mp (mt missesInt_iff.mpr hgiven), fun hcomplete => ?_⟩
  obtain ⟨error', args, hrun', hprovided, -⟩ := flagsParseFlags_taken hreg.keys hspells hfold hgiven
  obtain ⟨rfl, -⟩ := Prod.mk.inj (Res.ok.inj (hrun'.symm.trans hrun))
  have hnone := hprovided.mpr ((provided_iff hreg hfold hpasses.positionals).mpr hcomplete)
  obtain ⟨its', hgrammar⟩ := hiff.mp hnone
  obtain rfl := hspells.unique hreg.keys.nodup hreg.keys.dashed hgrammar.spells
  exact ⟨hgrammar.given, hgrammar.valid⟩

theorem parses_of_valuesGiven (hreg : Registration st) (h : ValuesGiven st argv) : ParsesGrammar st argv := by
  by_cases htaken : ∃ its, Spells dashed (optionsOf st) argv its ∧ Passes st its
  · obtain ⟨its, hspells, hpasses⟩ := htaken
    obtain ⟨hints, hvalues⟩ := h its hspells hpasses
    obtain ⟨b', hfold⟩ := (passes_iff hreg hspells).mpr hpasses
    obtain ⟨error, args, hrun, hprovided, hargs⟩ :=
      flagsParseFlags_taken hreg.keys hspells hfold fun hmiss => missesInt_iff.mp hmiss hints
    have hcomplete := hprovided.trans (provided_iff hreg hfold hpasses.positionals)
    refine ⟨error, _, hrun, ⟨fun hnone => ?_, fun hgrammar => ?_⟩, fun its' _ hgrammar => ?_⟩
    · obtain ⟨hgiven, hvalid⟩ := hvalues (hcomplete.mp hnone)
      exact ⟨its, hspells, hgiven, hvalid, hpasses.arrays, hcomplete.mp hnone⟩
    · obtain ⟨its', hgrammar⟩ := hgrammar
      obtain rfl := hspells.unique hreg.keys.nodup hreg.keys.dashed hgrammar.spells
      exact hcomplete.mpr hgrammar.complete
    · obtain rfl := hspells.unique hreg.keys.nodup hreg.keys.dashed hgrammar.spells
      exact ⟨targetsHold hreg hfold hgrammar, hargs hgrammar.given⟩
  · -- No items, or some that are not taken: neither is in the grammar.
    have hnot : ∀ its, ¬ InGrammar st argv its := fun its hgrammar => htaken ⟨its, hgrammar.spells, hgrammar.passes⟩
    obtain ⟨error, p, hrun⟩ := flagsParseFlags_refused hreg.keys fun its hspells => by
      by_contra hsome
      obtain ⟨b', hfold⟩ := Option.ne_none_iff_exists'.mp hsome
      exact htaken ⟨its, hspells, (passes_iff hreg hspells).mp ⟨b', hfold⟩⟩
    exact ⟨some error, p, hrun, ⟨nofun, fun ⟨its, hits⟩ => absurd hits (hnot its)⟩, nofun⟩

/-- `flags_parse_flags` accepts exactly its grammar when every flag has a value, and an int flag a valid one. -/
theorem parsesGrammar_iff (st : Flags) (argv : List CStr) (hreg : Registration st) :
    ParsesGrammar st argv ↔ ValuesGiven st argv :=
  ⟨valuesGiven_of_parses hreg, parses_of_valuesGiven hreg⟩

/-- The flags of `write-files`. -/
def writeFilesOptions : Flags where
  flags :=
    [⟨CStr.ofString "-file", false, true, .cstrArray (fun _ => none) 0 32⟩,
      ⟨CStr.ofString "-tag", false, false, .cstrArray (fun _ => none) 0 32⟩]
  positionals := [⟨CStr.ofString "image_name", false, true, .cstr none⟩]

theorem registration_writeFilesOptions : Registration writeFilesOptions := registration_writeFiles rfl

theorem writeFilesOptions_no_ints (h : writeFilesOptions.flags[j]? = some flag) : flag.target ≠ .int n := by
  rcases j with _ | _ | j
  · cases h
    nofun
  · cases h
    nofun
  · cases h

/-- `write-files disk.img -file a` is accepted, for what it says. -/
theorem parsesGrammar_writeFiles :
    ParsesGrammar writeFilesOptions [CStr.ofString "disk.img", CStr.ofString "-file", CStr.ofString "a"] := by
  refine (parsesGrammar_iff _ _ registration_writeFilesOptions).mpr fun its hspells _ => ?_
  have hspelled : Spells dashed (optionsOf writeFilesOptions)
      [CStr.ofString "disk.img", CStr.ofString "-file", CStr.ofString "a"]
      [.operand (CStr.ofString "disk.img"), .keyed 0 (some (CStr.ofString "a"))] :=
    .operand (by decide) (.keyed rfl .nil)
  obtain rfl := hspells.unique registration_writeFilesOptions.keys.nodup registration_writeFilesOptions.keys.dashed
    hspelled
  exact ⟨fun j flag n _ hflag => writeFilesOptions_no_ints hflag, fun _ => ⟨fun j hmem => by simp at hmem,
    fun j flag n s hflag htarget => absurd htarget (writeFilesOptions_no_ints hflag)⟩⟩

/-- `write-files disk.img -file` is accepted, with a NULL for the value. -/
theorem parsesGrammar_fails : ¬ ∀ st argv, Registration st → ParsesGrammar st argv := by
  intro hall
  have hgiven := valuesGiven_of_parses registration_writeFilesOptions
    (hall _ [CStr.ofString "disk.img", CStr.ofString "-file"] registration_writeFilesOptions)
  have hspelled : Spells dashed (optionsOf writeFilesOptions) [CStr.ofString "disk.img", CStr.ofString "-file"]
      [.operand (CStr.ofString "disk.img"), .keyed 0 none] := .operand (by decide) (.missing rfl)
  have hpasses : Passes writeFilesOptions [.operand (CStr.ofString "disk.img"), .keyed 0 none] := by
    refine ⟨Nat.le_refl 1, fun j flag old i maxLen hflag htarget => ?_, fun j flag n s hflag htarget => ?_⟩
    · rcases j with _ | _ | j
      · cases hflag
        cases htarget
        decide
      · cases hflag
        cases htarget
        decide
      · cases hflag
    · exact absurd htarget (writeFilesOptions_no_ints hflag)
  have hcomplete : Complete writeFilesOptions [.operand (CStr.ofString "disk.img"), .keyed 0 none] := by
    refine ⟨rfl, fun j flag hflag hrequired => ?_⟩
    rcases j with _ | _ | j
    · exact List.cons_ne_nil _ _
    · cases hflag
      cases hrequired
    · cases hflag
  exact ((hgiven _ hspelled hpasses).2 hcomplete).1 0 (by simp)

end OSForReal.Proof.TagFS
