import OSForReal.Std.Io

/-!
# The cursor of `fmt_print`

`parse_specifier` moves the cursor past a specifier without a look at what it skips.
That is right for a whole specifier (`parseSpecifier_whole`), and steps over the NUL
when the string ends inside one (`parseSpecifier_cut`). So the cursor stays
inside the string exactly when the string is made of literal characters and
of whole specifiers (`staysInside_iff`).
-/

namespace OSForReal.Proof.Io

open Framework
open Framework.Bytes
open OSForReal.Io

variable {m : Bytes} {stack : Nat → Slot} {s t u : List UInt8} {c : UInt8} {args fuel p q : Nat}

/-! ## Strings -/

theorem hasChars_nil (h : hasChars m p [] = true) : m p = 0 := by
  simpa [hasChars] using h

theorem hasChars_cons (h : hasChars m p (c :: s) = true) : m p = c ∧ hasChars m (p + 1) s = true := by
  simpa [hasChars] using h

theorem hasChars_drop (h : hasChars m p (u ++ s) = true) : hasChars m (p + u.length) s = true := by
  induction u generalizing p with
  | nil => exact h
  | cons c u ih =>
    have hrest := ih (hasChars_cons h).2
    rwa [Nat.add_assoc, Nat.add_comm 1] at hrest

/-! ## Specifiers -/

/-- The characters of a specifier after its `%`: a length modifier or none, and one more. -/
inductive SpecifierChars : List UInt8 → Prop where
  | plain {c : UInt8} (hh : c ≠ Char.toUInt8 'h') (hl : c ≠ Char.toUInt8 'l') : SpecifierChars [c]
  | afterH {c : UInt8} (hc : c ≠ Char.toUInt8 'h') : SpecifierChars [Char.toUInt8 'h', c]
  | afterHH (c : UInt8) : SpecifierChars [Char.toUInt8 'h', Char.toUInt8 'h', c]
  | afterL (c : UInt8) : SpecifierChars [Char.toUInt8 'l', c]

/-- What a string that ends inside a specifier has after the `%`. -/
inductive CutSpecifier : List UInt8 → Prop where
  | percent : CutSpecifier []
  | afterH : CutSpecifier [Char.toUInt8 'h']
  | afterHH : CutSpecifier [Char.toUInt8 'h', Char.toUInt8 'h']
  | afterL : CutSpecifier [Char.toUInt8 'l']

theorem specifier_or_cut (t : List UInt8) : (∃ u s, t = u ++ s ∧ SpecifierChars u) ∨ CutSpecifier t := by
  cases t with
  | nil => exact .inr .percent
  | cons c t =>
    by_cases hh : c = Char.toUInt8 'h'
    · subst hh
      cases t with
      | nil => exact .inr .afterH
      | cons d t =>
        by_cases hd : d = Char.toUInt8 'h'
        · subst hd
          cases t with
          | nil => exact .inr .afterHH
          | cons e t => exact .inl ⟨[_, _, e], t, rfl, .afterHH e⟩
        · exact .inl ⟨[_, d], t, rfl, .afterH hd⟩
    · by_cases hl : c = Char.toUInt8 'l'
      · subst hl
        cases t with
        | nil => exact .inr .afterL
        | cons d t => exact .inl ⟨[_, d], t, rfl, .afterL d⟩
      · exact .inl ⟨[c], t, rfl, .plain hh hl⟩

/-- Only the cursor moves in `parse_specifier`. -/
def OnlyCursor (n : Nat) (e : PrintEvent) : Prop := ∃ q, e = .cursor q ∧ q ≤ n

/-- A whole specifier is skipped, and nothing after it. -/
theorem parseSpecifier_whole (h : SpecifierChars u) (hm : hasChars m q (u ++ s) = true) :
    (parseSpecifier m q).val.2 = q + u.length ∧ (parseSpecifier m q).All (OnlyCursor (q + u.length)) := by
  cases h with
  | plain hh hl =>
    obtain ⟨h0, -⟩ := hasChars_cons hm
    rw [← h0] at hh hl
    simp [parseSpecifier, parseLengthModifier, hh, hl, moveTo, Traced.all_bind, OnlyCursor]
  | afterH hc =>
    obtain ⟨h0, hm⟩ := hasChars_cons hm
    obtain ⟨h1, -⟩ := hasChars_cons hm
    rw [← h1] at hc
    simp [parseSpecifier, parseLengthModifier, h0, hc, moveTo, Traced.all_bind, OnlyCursor]
  | afterHH c =>
    obtain ⟨h0, hm⟩ := hasChars_cons hm
    obtain ⟨h1, -⟩ := hasChars_cons hm
    simp [parseSpecifier, parseLengthModifier, h0, h1, moveTo, Traced.all_bind, OnlyCursor]
  | afterL c =>
    obtain ⟨h0, -⟩ := hasChars_cons hm
    have hne : Char.toUInt8 'l' ≠ Char.toUInt8 'h' := by decide
    simp [parseSpecifier, parseLengthModifier, h0, hne, moveTo, Traced.all_bind, OnlyCursor]

/-- In a specifier that is cut short, the cursor is moved past the NUL. -/
theorem parseSpecifier_cut (h : CutSpecifier t) (hm : hasChars m q t = true) :
    .cursor (q + t.length + 1) ∈ (parseSpecifier m q).trace := by
  have hh : (0 : UInt8) ≠ Char.toUInt8 'h' := by decide
  have hl : (0 : UInt8) ≠ Char.toUInt8 'l' := by decide
  cases h with
  | percent =>
    have h0 := hasChars_nil hm
    simp [parseSpecifier, parseLengthModifier, h0, hh, hl, moveTo]
  | afterH =>
    obtain ⟨h0, hm⟩ := hasChars_cons hm
    have h1 := hasChars_nil hm
    simp [parseSpecifier, parseLengthModifier, h0, h1, hh, moveTo]
  | afterHH =>
    obtain ⟨h0, hm⟩ := hasChars_cons hm
    obtain ⟨h1, hm⟩ := hasChars_cons hm
    simp [parseSpecifier, parseLengthModifier, h0, h1, moveTo]
  | afterL =>
    obtain ⟨h0, hm⟩ := hasChars_cons hm
    have hne : Char.toUInt8 'l' ≠ Char.toUInt8 'h' := by decide
    simp [parseSpecifier, parseLengthModifier, h0, hne, moveTo]

/-- If the cursor is moved, then not beyond `n`. -/
def CursorLe (n : Nat) (e : PrintEvent) : Prop := ∀ q, e = .cursor q → q ≤ n

theorem OnlyCursor.cursorLe {n : Nat} {e : PrintEvent} (h : OnlyCursor n e) : CursorLe n e := by
  obtain ⟨q, rfl, hq⟩ := h
  intro q' heq
  cases heq
  exact hq

theorem cursorLe_cursor {n : Nat} : CursorLe n (.cursor q) ↔ q ≤ n := by
  constructor
  · intro h
    exact h q rfl
  · intro h q' heq
    cases heq
    exact h

theorem cursorLe_put {n : Nat} (call : Put) : CursorLe n (.put call) := nofun

theorem printArgument_cursor {n : Nat} (specifier : FmtPrintSpecifier) :
    (printArgument stack specifier args).All (CursorLe n) := by
  obtain ⟨dataType, lengthModifier⟩ := specifier
  cases dataType <;> cases lengthModifier <;>
    simp [printArgument, printUnsigned, vaArg32, vaArg64, put, Traced.all_bind, CursorLe]

/-! ## The loop -/

/-- A string of literal characters and whole specifiers. -/
inductive Whole : List UInt8 → Prop where
  | nil : Whole []
  | literal {c : UInt8} {s : List UInt8} (hc : c ≠ Char.toUInt8 '%') (h : Whole s) : Whole (c :: s)
  | specifier {u s : List UInt8} (hu : SpecifierChars u) (h : Whole s) : Whole (Char.toUInt8 '%' :: (u ++ s))

/-- The loop ends at the NUL, and does not move the cursor beyond it. -/
def StaysInside (m : Bytes) (stack : Nat → Slot) (fmt : Nat) (s : CStr) : Prop :=
  ∃ fuel args, (formatLoop m stack fuel fmt 0).val = .ok (fmt + s.strlen, args) ∧
    (formatLoop m stack fuel fmt 0).All (CursorLe (fmt + s.strlen))

theorem formatLoop_end (h : m p = 0) : formatLoop m stack (fuel + 1) p args = pure (.ok (p, args)) := by
  rw [formatLoop, if_neg (by simp [h])]

theorem formatLoop_literal (hp : m p = c) (hc : c ≠ 0) (hpercent : c ≠ Char.toUInt8 '%') :
    formatLoop m stack (fuel + 1) p args = (do
      put (.putChar c)
      let pFmt ← moveTo (p + 1)
      formatLoop m stack fuel pFmt args) := by
  rw [formatLoop, if_pos (by rwa [hp]), if_neg (by rwa [hp]), hp]

theorem formatLoop_specifier (hp : m p = Char.toUInt8 '%') :
    formatLoop m stack (fuel + 1) p args = (do
      let pFmt ← moveTo (p + 1)
      let (specifier, pFmt) ← parseSpecifier m pFmt
      let args ← printArgument stack specifier args
      formatLoop m stack fuel pFmt args) := by
  rw [formatLoop, if_pos (by rw [hp]; decide), if_pos hp]

/-- On a string of whole specifiers the loop ends at the NUL. -/
theorem formatLoop_whole (h : Whole s) (hm : hasChars m p s = true) (h0 : 0 ∉ s) (hfuel : s.length < fuel) :
    (∃ args', (formatLoop m stack fuel p args).val = .ok (p + s.length, args')) ∧
      (formatLoop m stack fuel p args).All (CursorLe (p + s.length)) := by
  induction h generalizing p args fuel with
  | nil =>
    obtain ⟨fuel, rfl, -⟩ := Res.exists_succ_of_lt hfuel
    rw [formatLoop_end (hasChars_nil hm)]
    exact ⟨⟨args, rfl⟩, Traced.all_pure⟩
  | @literal c s hc _ ih =>
    obtain ⟨fuel, rfl, hle⟩ := Res.exists_succ_of_lt hfuel
    obtain ⟨hp, hrest⟩ := hasChars_cons hm
    have hne : c ≠ 0 := fun heq => h0 (heq ▸ List.mem_cons_self)
    have hend : p + 1 + s.length = p + (c :: s).length := by
      rw [List.length_cons]
      omega
    obtain ⟨hval, hcursor⟩ := @ih args fuel (p + 1) hrest (fun hmem => h0 (List.mem_cons_of_mem _ hmem)) hle
    rw [hend] at hval hcursor
    rw [formatLoop_literal hp hne hc]
    refine ⟨hval, Traced.all_bind.mpr ⟨Traced.all_record.mpr (cursorLe_put _), Traced.all_bind.mpr ⟨?_, hcursor⟩⟩⟩
    exact Traced.all_record.mpr (cursorLe_cursor.mpr (by omega))
  | @specifier u s hu _ ih =>
    obtain ⟨fuel, rfl, hle⟩ := Res.exists_succ_of_lt hfuel
    obtain ⟨hp, hm⟩ := hasChars_cons hm
    obtain ⟨hafter, hparse⟩ := parseSpecifier_whole hu hm
    have hend : p + 1 + u.length + s.length = p + (Char.toUInt8 '%' :: (u ++ s)).length := by
      rw [List.length_cons, List.length_append]
      omega
    have hfuel' : s.length < fuel := by
      rw [List.length_cons, List.length_append] at hle
      omega
    obtain ⟨hval, hcursor⟩ := @ih (printArgument stack (parseSpecifier m (p + 1)).val.1 args).val fuel _
      (hasChars_drop hm) (fun hmem => h0 (List.mem_cons_of_mem _ (List.mem_append_right _ hmem))) hfuel'
    rw [hend] at hval hcursor
    rw [formatLoop_specifier hp]
    rw [← hafter] at hval hcursor
    refine ⟨hval, Traced.all_bind.mpr ⟨?_, Traced.all_bind.mpr ⟨?_, Traced.all_bind.mpr ⟨?_, hcursor⟩⟩⟩⟩
    · refine Traced.all_record.mpr (cursorLe_cursor.mpr ?_)
      rw [← hend]
      omega
    · refine hparse.mono fun e he q heq => ?_
      have hle := he.cursorLe q heq
      omega
    · exact printArgument_cursor _

/-- A run that ends, and does not move the cursor beyond the NUL, has read whole specifiers. -/
theorem whole_of_run {r : Nat × Nat} (hval : (formatLoop m stack fuel p args).val = .ok r) (hm : hasChars m p s = true)
    (h0 : 0 ∉ s) (hcursor : (formatLoop m stack fuel p args).All (CursorLe (p + s.length))) : Whole s := by
  induction fuel generalizing p args s with
  | zero => cases hval
  | succ fuel ih =>
    cases s with
    | nil => exact .nil
    | cons c s =>
      obtain ⟨hp, hrest⟩ := hasChars_cons hm
      have hne : c ≠ 0 := fun heq => h0 (heq ▸ List.mem_cons_self)
      have h0' : 0 ∉ s := fun hmem => h0 (List.mem_cons_of_mem _ hmem)
      rw [List.length_cons] at hcursor
      by_cases hc : c = Char.toUInt8 '%'
      · subst hc
        rw [formatLoop_specifier hp] at hval hcursor
        obtain ⟨hpercent, hcursor⟩ := Traced.all_bind.mp hcursor
        obtain ⟨hparse, hcursor⟩ := Traced.all_bind.mp hcursor
        obtain ⟨-, hcursor⟩ := Traced.all_bind.mp hcursor
        rcases specifier_or_cut s with ⟨u, s, rfl, hu⟩ | hcut
        · obtain ⟨hafter, -⟩ := parseSpecifier_whole hu hrest
          refine .specifier hu (ih hval ?_ (fun hmem => h0' (List.mem_append_right _ hmem)) ?_)
          · show hasChars m (parseSpecifier m (p + 1)).val.2 s = true
            rw [hafter]
            exact hasChars_drop hrest
          · have hend : p + ((u ++ s).length + 1) = (parseSpecifier m (p + 1)).val.2 + s.length := by
              rw [hafter, List.length_append]
              omega
            rw [hend] at hcursor
            exact hcursor
        · -- The cursor is moved beyond the NUL.
          have hle : p + 1 + s.length + 1 ≤ p + (s.length + 1) :=
            cursorLe_cursor.mp (hparse _ (parseSpecifier_cut hcut hrest))
          omega
      · rw [formatLoop_literal hp hne hc] at hval hcursor
        obtain ⟨-, hcursor⟩ := Traced.all_bind.mp hcursor
        obtain ⟨-, hcursor⟩ := Traced.all_bind.mp hcursor
        refine .literal hc (ih hval hrest h0' ?_)
        rw [show p + (s.length + 1) = p + 1 + s.length by omega] at hcursor
        exact hcursor

theorem staysInside_of_whole {fmt : Nat} {s : CStr} (hm : hasChars m fmt s.chars = true) (h : Whole s.chars) :
    StaysInside m stack fmt s := by
  obtain ⟨⟨args, hval⟩, hcursor⟩ := @formatLoop_whole m stack s.chars 0 _ fmt h hm s.noNul (Nat.lt_succ_self _)
  exact ⟨_, args, hval, hcursor⟩

theorem whole_of_staysInside {fmt : Nat} {s : CStr} (hm : hasChars m fmt s.chars = true)
    (h : StaysInside m stack fmt s) : Whole s.chars := by
  obtain ⟨fuel, args, hval, hcursor⟩ := h
  exact whole_of_run hval hm s.noNul hcursor

/-- The cursor stays inside the format exactly when that does not end inside a specifier. -/
theorem staysInside_iff (m : Bytes) (stack : Nat → Slot) (fmt : Nat) (s : CStr) (hm : hasChars m fmt s.chars = true) :
    StaysInside m stack fmt s ↔ Whole s.chars :=
  ⟨whole_of_staysInside hm, staysInside_of_whole hm⟩

/-- A memory with a string at 0. -/
def textAt (s : List UInt8) : Bytes := fun a => s.getD a 0

theorem hasChars_textAt (s : List UInt8) : hasChars (textAt s) 0 s = true :=
  hasChars_iff.mpr fun k _ => congrArg (fun a => s.getD a 0) (Nat.zero_add k)

/-- The cursor stays inside `%d!`. -/
theorem staysInside_int : StaysInside (textAt [0x25, 0x64, 0x21]) (fun _ => 7) 0 ⟨[0x25, 0x64, 0x21], by decide⟩ := by
  refine (staysInside_iff (textAt [0x25, 0x64, 0x21]) (fun _ => 7) 0 ⟨[0x25, 0x64, 0x21], by decide⟩
    (hasChars_textAt _)).mpr ?_
  exact .specifier (.plain (c := 0x64) (by decide) (by decide)) (.literal (by decide) .nil)

theorem SpecifierChars.ne_nil (h : SpecifierChars u) : u ≠ [] := by
  cases h <;> simp

theorem not_whole_percent : ¬ Whole [Char.toUInt8 '%'] := by
  intro h
  generalize hs : [Char.toUInt8 '%'] = s at h
  cases h with
  | nil => cases hs
  | literal hc _ =>
    cases hs
    exact hc rfl
  | specifier hu _ =>
    have hnil := (List.cons.inj hs).2
    exact hu.ne_nil (List.append_eq_nil_iff.mp hnil.symm).1

/-- In the format `%` the cursor steps over the NUL. -/
theorem staysInside_fails : ¬ ∀ m stack fmt s, hasChars m fmt s.chars = true → StaysInside m stack fmt s := by
  intro hall
  have hm := hasChars_textAt [Char.toUInt8 '%']
  have hstays := hall (textAt [Char.toUInt8 '%']) (fun _ => 0) 0 ⟨[Char.toUInt8 '%'], by decide⟩ hm
  exact not_whole_percent (whole_of_staysInside hm hstays)

end OSForReal.Proof.Io
