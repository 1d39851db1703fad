import OSForReal.Framework.CommandLine
import OSForReal.Proof.TagFS.IntFlags

/-!
# A run of `flags_parse_flags`

The registered flags are the slots of a board and the positionals its places, and
`storeArg` is what `flags_parse_flag` stores there. One pass of the loop takes the
first item of the command line (`flagsStep_operand`, `flagsStep_flag`), so that a
run takes them all (`loop_taken`), unless one is refused (`loop_refused`) or an int
flag is without a value at the end, which `strtol` does not survive (`loop_halts`).
-/

namespace OSForReal.Proof.TagFS

open Framework
open Framework.CommandLine
open Framework.Decimal
open OSForReal.TagFS

variable {st : Flags} {b b' c : Board Flag} {flag flag' : Flag} {arg : Option CStr} {a key v : CStr}
  {ks argv : List CStr} {its : List (Item CStr)} {fuel j : Nat}

/-! ## One flag -/

/-- The flag after `flags_parse_flag`, unless that refuses the value. -/
def storeArg (flag : Flag) (arg : Option CStr) : Option Flag :=
  match flagsParseFlag flag arg 0 with
  | .ok (none, flag, _) => some flag
  | .ok (some _, _, _) => none
  | _ => some { flag with provided := true }

def IsIntFlag (flag : Flag) : Prop := ∃ n, flag.target = .int n

/-- A value is stored, or refused with a message, or is missing for an int flag. -/
theorem flagsParseFlag_cases (flag : Flag) (arg : Option CStr) :
    (∃ flag', flagsParseFlag flag arg 0 = .ok (none, flag', 0)) ∨
      (∃ error flag' errno, flagsParseFlag flag arg 0 = .ok (some error, flag', errno)) ∨
      flagsParseFlag flag arg 0 = .halt ∧ IsIntFlag flag ∧ arg = none := by
  cases htarget : flag.target with
  | cstr value => exact .inl ⟨_, by simp [flagsParseFlag, htarget]; rfl⟩
  | cstrArray value index maxLen =>
    by_cases hfull : index ≥ maxLen
    · exact .inr (.inl ⟨.tooMany flag.option maxLen, { flag with provided := true }, 0, by
        simp [flagsParseFlag, htarget, hfull]⟩)
    · exact .inl ⟨_, by simp [flagsParseFlag, htarget, hfull]; rfl⟩
  | int old =>
    cases arg with
    | none => exact .inr (.inr ⟨by simp [flagsParseFlag, htarget], ⟨old, htarget⟩, rfl⟩)
    | some s =>
      by_cases htaken : ∃ n, Takes s.chars n
      · obtain ⟨n, hn⟩ := htaken
        exact .inl ⟨_, flagsParseFlag_takes htarget hn⟩
      · obtain ⟨error, errno, hrun⟩ := flagsParseFlag_refuses htarget (not_exists.mp htaken)
        exact .inr (.inl ⟨error, _, errno, hrun⟩)
  | bool value => exact .inl ⟨_, by simp [flagsParseFlag, htarget]; rfl⟩

/-- What is stored is what the call leaves. -/
theorem flagsParseFlag_stored (h : storeArg flag arg = some flag') (hgiven : IsIntFlag flag → arg ≠ none) :
    flagsParseFlag flag arg 0 = .ok (none, flag', 0) := by
  rcases flagsParseFlag_cases flag arg with ⟨flag₁, hrun⟩ | ⟨error, flag₁, errno, hrun⟩ | ⟨-, hint, hnone⟩
  · rw [storeArg, hrun] at h
    rw [hrun, Option.some.inj h]
  · rw [storeArg, hrun] at h
    cases h
  · exact absurd hnone (hgiven hint)

theorem flagsParseFlag_refused (h : storeArg flag arg = none) :
    ∃ error flag' errno, flagsParseFlag flag arg 0 = .ok (some error, flag', errno) := by
  rcases flagsParseFlag_cases flag arg with ⟨flag₁, hrun⟩ | hrefused | ⟨hrun, -, -⟩
  · rw [storeArg, hrun] at h
    cases h
  · exact hrefused
  · rw [storeArg, hrun] at h
    cases h

theorem flagsParseFlag_halts (h : IsIntFlag flag) : flagsParseFlag flag none 0 = .halt := by
  obtain ⟨n, hn⟩ := h
  simp [flagsParseFlag, hn]

/-- The option of a flag and its being an int flag stay, and it is provided. -/
theorem storeArg_keeps (h : storeArg flag arg = some flag') :
    flag'.option = flag.option ∧ flag'.required = flag.required ∧ flag'.provided = true ∧
      (IsIntFlag flag' ↔ IsIntFlag flag) := by
  unfold storeArg at h
  unfold IsIntFlag
  cases htarget : flag.target with
  | cstr value =>
    simp [flagsParseFlag, htarget] at h
    simp [← h]
  | cstrArray value index maxLen =>
    by_cases hfull : index ≥ maxLen
    · simp [flagsParseFlag, htarget, hfull] at h
    · simp [flagsParseFlag, htarget, hfull] at h
      simp [← h]
  | int old =>
    cases arg with
    | none =>
      simp [flagsParseFlag, htarget] at h
      simp [← h]
    | some s =>
      by_cases htaken : ∃ n, Takes s.chars n
      · obtain ⟨n, hn⟩ := htaken
        rw [flagsParseFlag_takes htarget hn] at h
        simp [← Option.some.inj h]
      · obtain ⟨error, errno, hrun⟩ := flagsParseFlag_refuses htarget (not_exists.mp htaken)
        rw [hrun] at h
        cases h
  | bool value =>
    simp [flagsParseFlag, htarget] at h
    simp [← h]

/-! ## One pass -/

/-- The text starts with a dash. -/
def dashed (s : CStr) : Bool := s.chars.head? == some 0x2d

/-- The variables of a run without an error. -/
def parseAt (b : Board Flag) (args : Args) : Parse := ⟨⟨b.slots, b.places⟩, 0, args, b.next⟩

/-- `argc` and `argv` for these arguments. -/
def argsOf (argv : List CStr) : Args := ⟨argv.length, argv.map some ++ [none]⟩

/-- The options of the flags. -/
structure Keys (b : Board Flag) (ks : List CStr) : Prop where
  options : b.slots.map Flag.option = ks
  nodup : ks.Nodup
  dashed : ∀ key ∈ ks, dashed key = true

theorem argsOf_nonneg (a : CStr) (argv : List CStr) : (argsOf (a :: argv)).argc > 0 := by
  show ((argv.length + 1 : Nat) : Int) > 0
  omega

theorem shiftArgs_argsOf (a : CStr) (argv : List CStr) : shiftArgs (argsOf (a :: argv)) = .ok (some a, argsOf argv) := by
  have hargc : (argsOf (a :: argv)).argc - 1 = (argsOf argv).argc := by
    show ((argv.length + 1 : Nat) : Int) - 1 = argv.length
    omega
  show Res.ok (some a, Args.mk ((argsOf (a :: argv)).argc - 1) (argv.map some ++ [none])) = _
  rw [hargc]
  rfl

/-- Shifted past its end, `argv` yields its NULL. -/
theorem shiftArgs_end : shiftArgs (argsOf []) = .ok (none, ⟨-1, []⟩) := rfl

theorem flagsStep_end {args : Args} (h : ¬ args.argc > 0) : flagsStep (parseAt b args) = .ok (.inr (none, parseAt b args)) :=
  if_neg h

theorem Keys.findIdx (hk : Keys b ks) (hkey : ks[j]? = some key) :
    (b.slots.findIdx fun flag => flag.option = key) = j := by
  obtain ⟨hlt, hj⟩ := List.getElem?_eq_some_iff.mp hkey
  have hlength : b.slots.length = ks.length := by rw [← hk.options, List.length_map]
  have hoption : ∀ i (hi : i < b.slots.length), ks[i]? = some b.slots[i].option := fun i hi => by
    rw [← hk.options, List.getElem?_map, List.getElem?_eq_getElem hi]
    rfl
  rw [List.findIdx_eq (by omega)]
  constructor
  · have hopt := (hoption j (by omega)).symm.trans hkey
    simpa using hopt
  · intro i hi
    have hne : b.slots[i].option ≠ key := fun heq => by
      have hsame := index_unique hk.nodup ((hoption i (by omega)).trans (congrArg some heq)) hkey
      omega
    simpa using hne

theorem Keys.not_found (hk : Keys b ks) (hkey : key ∉ ks) :
    b.slots[b.slots.findIdx fun flag => flag.option = key]? = none := by
  rw [List.getElem?_eq_none_iff]
  refine Nat.le_of_eq (List.findIdx_eq_length.mpr fun flag hflag => ?_).symm
  have hne : flag.option ≠ key := fun heq => hkey (by
    rw [← hk.options, ← heq]
    exact List.mem_map_of_mem hflag)
  simpa using hne

/-- A board keeps its keys. -/
theorem Keys.take {it : Item CStr} (hk : Keys b ks) (h : take storeArg b it = some b') : Keys b' ks := by
  refine ⟨?_, hk.nodup, hk.dashed⟩
  cases it with
  | operand a =>
    obtain ⟨_, _, _, _, rfl⟩ := take_operand.mp h
    exact hk.options
  | keyed j v =>
    obtain ⟨slot, slot', hslot, hstore, rfl⟩ := take_keyed.mp h
    rw [← hk.options]
    show (b.slots.set j slot').map Flag.option = _
    refine List.ext_getElem? fun i => ?_
    rw [List.getElem?_map, List.getElem?_map]
    by_cases hij : j = i
    · subst hij
      rw [List.getElem?_set_self (List.getElem?_eq_some_iff.mp hslot).1, hslot, Option.map_some, Option.map_some,
        (storeArg_keeps hstore).1]
    · rw [List.getElem?_set_ne hij]

/-- A pass over a positional argument. -/
theorem flagsStep_operand (ha : dashed a = false) (argv : List CStr) :
    (∀ b', take storeArg b (.operand a) = some b' →
      flagsStep (parseAt b (argsOf (a :: argv))) = .ok (.inl (parseAt b' (argsOf argv)))) ∧
    (take storeArg b (.operand a) = none →
      ∃ error p, flagsStep (parseAt b (argsOf (a :: argv))) = .ok (.inr (some error, p))) := by
  have hpass : a.chars.head? ≠ some 0x2d := by simpa [dashed] using ha
  have hargc : (parseAt b (argsOf (a :: argv))).args.argc > 0 := argsOf_nonneg a argv
  constructor
  · intro b' h
    obtain ⟨place, place', hplace, hstore, rfl⟩ := take_operand.mp h
    have hrun := flagsParseFlag_stored hstore nofun
    rw [flagsStep, if_pos hargc]
    simp only [parseAt, shiftArgs_argsOf, Res.ok_bind, if_pos hpass, hplace, hrun]
  · intro h
    rw [flagsStep, if_pos hargc]
    cases hplace : b.places[b.next]? with
    | none =>
      simp only [parseAt, shiftArgs_argsOf, Res.ok_bind, if_pos hpass, hplace]
      exact ⟨_, _, rfl⟩
    | some place =>
      have hrefused : storeArg place (some a) = none := by
        simpa [take, hplace] using h
      obtain ⟨error, flag', errno, hrun⟩ := flagsParseFlag_refused hrefused
      simp only [parseAt, shiftArgs_argsOf, Res.ok_bind, if_pos hpass, hplace, hrun]
      exact ⟨_, _, rfl⟩

/-- A pass over a flag, after which the value `arg` is shifted out. -/
theorem flagsStep_flag {args : Args} (hk : Keys b ks) (hkey : ks[j]? = some key)
    (hshift : shiftArgs (argsOf argv) = .ok (arg, args)) :
    (∀ b', take storeArg b (.keyed j arg) = some b' → (∀ flag, b.slots[j]? = some flag → IsIntFlag flag → arg ≠ none) →
      flagsStep (parseAt b (argsOf (key :: argv))) = .ok (.inl (parseAt b' args))) ∧
    (take storeArg b (.keyed j arg) = none →
      ∃ error p, flagsStep (parseAt b (argsOf (key :: argv))) = .ok (.inr (some error, p))) ∧
    (∀ flag, b.slots[j]? = some flag → IsIntFlag flag → arg = none →
      flagsStep (parseAt b (argsOf (key :: argv))) = .halt) := by
  have hdash : dashed key = true := dashed_of_index hk.dashed hkey
  have hpass : ¬ key.chars.head? ≠ some 0x2d := by simpa [dashed] using hdash
  have hargc : (parseAt b (argsOf (key :: argv))).args.argc > 0 := argsOf_nonneg key argv
  have hfind := hk.findIdx hkey
  have hlt : j < b.slots.length := by
    have hj := (List.getElem?_eq_some_iff.mp hkey).1
    rwa [← hk.options, List.length_map] at hj
  have hslot : b.slots[j]? = some b.slots[j] := List.getElem?_eq_getElem hlt
  rw [flagsStep, if_pos hargc]
  refine ⟨fun b' h hgiven => ?_, fun h => ?_, fun flag hflag hint harg => ?_⟩
  · obtain ⟨slot, slot', hslot', hstore, rfl⟩ := take_keyed.mp h
    have hrun := flagsParseFlag_stored hstore (hgiven slot hslot')
    simp only [parseAt, shiftArgs_argsOf, Res.ok_bind, if_neg hpass, hfind, hslot', hshift, hrun]
  · have hrefused : storeArg b.slots[j] arg = none := by
      simpa [take, hslot] using h
    obtain ⟨error, flag', errno, hrun⟩ := flagsParseFlag_refused hrefused
    simp only [parseAt, shiftArgs_argsOf, Res.ok_bind, if_neg hpass, hfind, hslot, hshift, hrun]
    exact ⟨_, _, rfl⟩
  · subst harg
    simp only [parseAt, shiftArgs_argsOf, Res.ok_bind, if_neg hpass, hfind, hflag, hshift, flagsParseFlag_halts hint,
      Res.halt_bind]

/-- A pass over an unknown flag. -/
theorem flagsStep_unknown (hk : Keys b ks) (ha : dashed a = true) (hkey : a ∉ ks) (argv : List CStr) :
    ∃ error p, flagsStep (parseAt b (argsOf (a :: argv))) = .ok (.inr (some error, p)) := by
  have hpass : ¬ a.chars.head? ≠ some 0x2d := by simpa [dashed] using ha
  have hargc : (parseAt b (argsOf (a :: argv))).args.argc > 0 := argsOf_nonneg a argv
  rw [flagsStep, if_pos hargc]
  simp only [parseAt, shiftArgs_argsOf, Res.ok_bind, if_neg hpass, hk.not_found hkey]
  exact ⟨_, _, rfl⟩

/-! ## All passes -/

/-- The `j`th slot is that of an int flag. -/
def IntSlot (b : Board Flag) (j : Nat) : Prop := ∃ flag, b.slots[j]? = some flag ∧ IsIntFlag flag

/-- An int flag is without a value. -/
def MissesInt (b : Board Flag) (its : List (Item CStr)) : Prop := ∃ j, .keyed j none ∈ its ∧ IntSlot b j

theorem intSlot_take {it : Item CStr} (h : take storeArg b it = some b') : IntSlot b' j ↔ IntSlot b j := by
  cases it with
  | operand a =>
    obtain ⟨_, _, _, _, rfl⟩ := take_operand.mp h
    exact Iff.rfl
  | keyed k v =>
    obtain ⟨slot, slot', hslot, hstore, rfl⟩ := take_keyed.mp h
    unfold IntSlot
    by_cases hkj : k = j
    · subst hkj
      simp [List.getElem?_set_self (List.getElem?_eq_some_iff.mp hslot).1, hslot, (storeArg_keeps hstore).2.2.2]
    · simp only [List.getElem?_set_ne hkj]

/-- After a pass over an item with a value, an int flag is without one if it was before. -/
theorem missesInt_take {it : Item CStr} (h : take storeArg b it = some b') (hit : ∀ j, it ≠ .keyed j none) :
    MissesInt b' its ↔ MissesInt b (it :: its) := by
  constructor
  · intro ⟨j, hmem, hint⟩
    exact ⟨j, List.mem_cons_of_mem _ hmem, (intSlot_take h).mp hint⟩
  · intro ⟨j, hmem, hint⟩
    exact ⟨j, (List.mem_cons.mp hmem).resolve_left fun heq => hit j heq.symm, (intSlot_take h).mpr hint⟩

/-- A command line whose items can all be taken is read to its end. -/
theorem loop_taken (hk : Keys b ks) (h : Spells dashed ks argv its) (hfold : its.foldlM (take storeArg) b = some b')
    (hgiven : ¬ MissesInt b its) (hfuel : argv.length < fuel) :
    ∃ args, Res.loop flagsStep fuel (parseAt b (argsOf argv)) = .ok (none, parseAt b' args) ∧
      ((∀ j, .keyed j none ∉ its) → args = argsOf []) := by
  induction h generalizing b fuel with
  | nil =>
    obtain rfl : b = b' := by simpa using hfold
    refine ⟨argsOf [], ?_, fun _ => rfl⟩
    obtain ⟨fuel, rfl, -⟩ := Res.exists_succ_of_lt hfuel
    rw [Res.loop_succ, flagsStep_end (by decide)]
    rfl
  | @operand a argv its ha _ ih =>
    obtain ⟨c, htake, hrest⟩ := foldlM_cons_eq_some.mp hfold
    obtain ⟨fuel, rfl, hle⟩ := Res.exists_succ_of_lt hfuel
    obtain ⟨args, hrun, hargs⟩ := ih (hk.take htake) hrest (fun hmiss => hgiven ((missesInt_take htake nofun).mp hmiss)) hle
    refine ⟨args, ?_, fun hno => hargs fun j hmem => hno j (List.mem_cons_of_mem _ hmem)⟩
    rw [Res.loop_continue ((flagsStep_operand ha argv).1 c htake)]
    exact hrun
  | @keyed j key v argv its hkey _ ih =>
    obtain ⟨c, htake, hrest⟩ := foldlM_cons_eq_some.mp hfold
    obtain ⟨fuel, rfl, hle⟩ := Res.exists_succ_of_lt hfuel
    obtain ⟨args, hrun, hargs⟩ := ih (hk.take htake) hrest (fun hmiss => hgiven ((missesInt_take htake nofun).mp hmiss))
      (Nat.lt_of_succ_lt hle)
    refine ⟨args, ?_, fun hno => hargs fun j hmem => hno j (List.mem_cons_of_mem _ hmem)⟩
    rw [Res.loop_continue ((flagsStep_flag hk hkey (shiftArgs_argsOf v argv)).1 c htake fun _ _ _ => nofun)]
    exact hrun
  | @missing j key hkey =>
    obtain ⟨c, htake, hrest⟩ := foldlM_cons_eq_some.mp hfold
    obtain rfl : c = b' := by simpa using hrest
    obtain ⟨fuel, rfl, hle⟩ := Res.exists_succ_of_lt hfuel
    obtain ⟨fuel, rfl, -⟩ := Res.exists_succ_of_lt hle
    refine ⟨⟨-1, []⟩, ?_, fun hno => absurd List.mem_cons_self (hno j)⟩
    rw [Res.loop_continue ((flagsStep_flag hk hkey shiftArgs_end).1 c htake fun flag hflag hint _ =>
      hgiven ⟨j, List.mem_cons_self, flag, hflag, hint⟩), Res.loop_succ, flagsStep_end (by decide)]
    rfl

/-- If an int flag is without a value at the end of such a command line, the run halts. -/
theorem loop_halts (hk : Keys b ks) (h : Spells dashed ks argv its) (hfold : its.foldlM (take storeArg) b = some b')
    (hmiss : MissesInt b its) (hfuel : argv.length < fuel) :
    Res.loop flagsStep fuel (parseAt b (argsOf argv)) = .halt := by
  induction h generalizing b fuel with
  | nil =>
    obtain ⟨j, hmem, -⟩ := hmiss
    cases hmem
  | @operand a argv its ha _ ih =>
    obtain ⟨c, htake, hrest⟩ := foldlM_cons_eq_some.mp hfold
    obtain ⟨fuel, rfl, hle⟩ := Res.exists_succ_of_lt hfuel
    rw [Res.loop_continue ((flagsStep_operand ha argv).1 c htake)]
    exact ih (hk.take htake) hrest ((missesInt_take htake nofun).mpr hmiss) hle
  | @keyed j key v argv its hkey _ ih =>
    obtain ⟨c, htake, hrest⟩ := foldlM_cons_eq_some.mp hfold
    obtain ⟨fuel, rfl, hle⟩ := Res.exists_succ_of_lt hfuel
    rw [Res.loop_continue ((flagsStep_flag hk hkey (shiftArgs_argsOf v argv)).1 c htake fun _ _ _ => nofun)]
    exact ih (hk.take htake) hrest ((missesInt_take htake nofun).mpr hmiss) (Nat.lt_of_succ_lt hle)
  | @missing j key hkey =>
    obtain ⟨k, hmem, flag, hflag, hint⟩ := hmiss
    cases List.mem_singleton.mp hmem
    obtain ⟨fuel, rfl, -⟩ := Res.exists_succ_of_lt hfuel
    rw [Res.loop_succ, (flagsStep_flag hk hkey shiftArgs_end).2.2 flag hflag hint rfl]
    rfl

/-- A command line with an item that cannot be taken, or with an unknown flag, is refused with a message. -/
theorem loop_refused (hk : Keys b ks) (h : ∀ its, Spells dashed ks argv its → its.foldlM (take storeArg) b = none)
    (hfuel : argv.length < fuel) : ∃ error p, Res.loop flagsStep fuel (parseAt b (argsOf argv)) = .ok (some error, p) := by
  induction fuel generalizing b argv with
  | zero => exact absurd hfuel (Nat.not_lt_zero _)
  | succ fuel ih =>
    -- A pass that refuses ends the run, and one that does not leaves such a command line.
    have hstop : (∃ error p, flagsStep (parseAt b (argsOf argv)) = .ok (.inr (some error, p))) →
        ∃ error p, Res.loop flagsStep (fuel + 1) (parseAt b (argsOf argv)) = .ok (some error, p) := by
      intro ⟨error, p, hstep⟩
      exact ⟨error, p, by rw [Res.loop_succ, hstep]; rfl⟩
    have hrest : ∀ {it c rest}, take storeArg b it = some c →
        (∀ its, Spells dashed ks rest its → Spells dashed ks argv (it :: its)) →
        ∀ its, Spells dashed ks rest its → its.foldlM (take storeArg) c = none := by
      intro it c rest htake hspells its hits
      have hnone := h _ (hspells its hits)
      rw [List.foldlM_cons, htake] at hnone
      exact hnone
    cases argv with
    | nil => exact absurd (h [] .nil) (by simp)
    | cons a argv =>
      cases ha : dashed a with
      | false =>
        cases htake : take storeArg b (.operand a) with
        | none => exact hstop ((flagsStep_operand ha argv).2 htake)
        | some c =>
          rw [Res.loop_continue ((flagsStep_operand ha argv).1 c htake)]
          exact ih (hk.take htake) (hrest htake fun its hits => .operand ha hits) (Nat.lt_of_succ_lt_succ hfuel)
      | true =>
        by_cases hmem : a ∈ ks
        · obtain ⟨j, hkey⟩ := List.mem_iff_getElem?.mp hmem
          cases argv with
          | nil =>
            cases htake : take storeArg b (.keyed j none) with
            | none => exact hstop ((flagsStep_flag hk hkey shiftArgs_end).2.1 htake)
            | some c =>
              have hnone := h _ (.missing hkey)
              rw [List.foldlM_cons, htake] at hnone
              cases hnone
          | cons v argv =>
            cases htake : take storeArg b (.keyed j (some v)) with
            | none => exact hstop ((flagsStep_flag hk hkey (shiftArgs_argsOf v argv)).2.1 htake)
            | some c =>
              rw [Res.loop_continue ((flagsStep_flag hk hkey (shiftArgs_argsOf v argv)).1 c htake fun _ _ _ => nofun)]
              exact ih (hk.take htake) (hrest htake fun its hits => .keyed hkey hits)
                (Nat.lt_of_succ_lt (Nat.lt_of_succ_lt_succ hfuel))
        · exact hstop (flagsStep_unknown hk ha hmem argv)

/-! ## The call -/

/-- Every flag and positional that is required has been provided. -/
def Provided (b : Board Flag) : Prop := ∀ flag, flag ∈ b.places ∨ flag ∈ b.slots → flag.required = true → flag.provided = true

theorem find_missing {flags : List Flag} : (flags.find? fun flag => flag.required && !flag.provided) = none ↔
    ∀ flag ∈ flags, flag.required = true → flag.provided = true := by
  rw [List.find?_eq_none]
  refine forall₂_congr fun flag _ => ?_
  cases flag.required <;> cases flag.provided <;> simp

/-- The flags of a call, before any argument. -/
def boardOf (st : Flags) : Board Flag := ⟨st.flags, st.positionals, 0⟩

/-- A call that takes every item returns true if and only if nothing required is missing. -/
theorem flagsParseFlags_taken (hk : Keys (boardOf st) ks) (h : Spells dashed ks argv its)
    (hfold : its.foldlM (take storeArg) (boardOf st) = some b') (hgiven : ¬ MissesInt (boardOf st) its) :
    ∃ error args, flagsParseFlags st 0 argv.length (argv.map some ++ [none]) = .ok (error, parseAt b' args) ∧
      (error = none ↔ Provided b') ∧ ((∀ j, .keyed j none ∉ its) → args = argsOf []) := by
  obtain ⟨args, hloop, hargs⟩ := loop_taken hk h hfold hgiven (Nat.lt_succ_self _)
  simp only [flagsParseFlags, Int.toNat_natCast]
  rw [show Res.loop flagsStep (argv.length + 1) ⟨st, 0, ⟨argv.length, argv.map some ++ [none]⟩, 0⟩ = _ from hloop,
    Res.ok_bind]
  simp only [parseAt]
  cases hplaces : b'.places.find? fun flag => flag.required && !flag.provided with
  | some positional =>
    refine ⟨_, args, rfl, ⟨nofun, fun hall => ?_⟩, hargs⟩
    rw [find_missing.mpr fun flag hflag => hall flag (.inl hflag)] at hplaces
    cases hplaces
  | none =>
    cases hslots : b'.slots.find? fun flag => flag.required && !flag.provided with
    | some flag =>
      refine ⟨_, args, rfl, ⟨nofun, fun hall => ?_⟩, hargs⟩
      rw [find_missing.mpr fun flag hflag => hall flag (.inr hflag)] at hslots
      cases hslots
    | none =>
      refine ⟨_, args, rfl, ⟨fun _ flag hflag => ?_, fun _ => rfl⟩, hargs⟩
      rcases hflag with hflag | hflag
      · exact find_missing.mp hplaces flag hflag
      · exact find_missing.mp hslots flag hflag

theorem flagsParseFlags_halts (hk : Keys (boardOf st) ks) (h : Spells dashed ks argv its)
    (hfold : its.foldlM (take storeArg) (boardOf st) = some b') (hmiss : MissesInt (boardOf st) its) :
    flagsParseFlags st 0 argv.length (argv.map some ++ [none]) = .halt := by
  rw [flagsParseFlags, Int.toNat_natCast]
  exact congrArg (fun r : Res (Option FlagsError × Parse) => r >>= _) (loop_halts hk h hfold hmiss (Nat.lt_succ_self _))

theorem flagsParseFlags_refused (hk : Keys (boardOf st) ks)
    (h : ∀ its, Spells dashed ks argv its → its.foldlM (take storeArg) (boardOf st) = none) :
    ∃ error p, flagsParseFlags st 0 argv.length (argv.map some ++ [none]) = .ok (some error, p) := by
  obtain ⟨error, p, hloop⟩ := loop_refused hk h (Nat.lt_succ_self _)
  refine ⟨error, p, ?_⟩
  rw [flagsParseFlags, Int.toNat_natCast]
  exact congrArg (fun r : Res (Option FlagsError × Parse) => r >>= _) hloop

end OSForReal.Proof.TagFS
