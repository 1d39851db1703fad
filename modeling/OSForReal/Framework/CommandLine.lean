import Mathlib.Data.List.Nodup
import Mathlib.Tactic.Ring

/-!
# Command lines of operands and keyed values

A command line is a sequence of operands and of keys, each key with a value after it
(`Spells`); the value can be missing at the end. Keys and operands are told
apart, so that a command line is spelled in one way (`Spells.unique`), which
`read` finds (`spells_iff_read`). A `Board` has a slot for each key and a place for
each operand, and `take` stores an item in the slot or the place that it is for. What
a whole command line leaves is told slot by slot (`Fills.slots`, `Fills.places`), and
so is when it can be taken (`exists_foldlM`).
-/

namespace Framework.CommandLine

/-- An operand, or the `j`th key with its value. -/
inductive Item (α : Type) where
  | operand (a : α)
  | keyed (j : Nat) (value : Option α)

variable {α β : Type} {dashed : α → Bool} {keys argv : List α} {its its' : List (Item α)} {a : α} {i j k : Nat}

/-- The operands, in order. -/
def operands : List (Item α) → List α
  | [] => []
  | .operand a :: its => a :: operands its
  | .keyed _ _ :: its => operands its

/-- The values of the `j`th key, in order. -/
def valuesOf (j : Nat) : List (Item α) → List (Option α)
  | [] => []
  | .operand _ :: its => valuesOf j its
  | .keyed k v :: its => if k = j then v :: valuesOf j its else valuesOf j its

@[simp] theorem valuesOf_operand : valuesOf j (.operand a :: its) = valuesOf j its := rfl

@[simp] theorem valuesOf_self {v : Option α} : valuesOf j (.keyed j v :: its) = v :: valuesOf j its := if_pos rfl

theorem valuesOf_other {v : Option α} (h : k ≠ j) : valuesOf j (.keyed k v :: its) = valuesOf j its := if_neg h

theorem mem_valuesOf {v : Option α} : v ∈ valuesOf j its ↔ .keyed j v ∈ its := by
  induction its with
  | nil => simp [valuesOf]
  | cons it its ih =>
    cases it with
    | operand a => simp [ih]
    | keyed k w =>
      by_cases h : k = j
      · subst h
        simp [ih]
      · simp [valuesOf_other h, ih, Ne.symm h]

/-! ## Spelling -/

/-- The command line is made of the items: an operand stands for itself, and a key before its value. -/
inductive Spells (dashed : α → Bool) (keys : List α) : List α → List (Item α) → Prop where
  | nil : Spells dashed keys [] []
  | operand {a : α} {argv : List α} {its : List (Item α)} (ha : dashed a = false) (h : Spells dashed keys argv its) :
    Spells dashed keys (a :: argv) (.operand a :: its)
  | keyed {j : Nat} {key v : α} {argv : List α} {its : List (Item α)} (hkey : keys[j]? = some key)
    (h : Spells dashed keys argv its) : Spells dashed keys (key :: v :: argv) (.keyed j (some v) :: its)
  | missing {j : Nat} {key : α} (hkey : keys[j]? = some key) : Spells dashed keys [key] [.keyed j none]

theorem index_unique (hnodup : keys.Nodup) {key : α} (hj : keys[j]? = some key) (hk : keys[k]? = some key) : j = k := by
  obtain ⟨hlt, -⟩ := List.getElem?_eq_some_iff.mp hj
  exact (List.getElem?_inj hlt hnodup).mp (hj.trans hk.symm)

theorem dashed_of_index (hdashed : ∀ key ∈ keys, dashed key = true) {key : α} (hj : keys[j]? = some key) :
    dashed key = true :=
  hdashed key (List.mem_of_getElem? hj)

/-- There is one way to spell a command line. -/
theorem Spells.unique (hnodup : keys.Nodup) (hdashed : ∀ key ∈ keys, dashed key = true)
    (h : Spells dashed keys argv its) (h' : Spells dashed keys argv its') : its = its' := by
  induction h generalizing its' with
  | nil =>
    cases h'
    rfl
  | operand ha _ ih =>
    cases h' with
    | operand _ hrest => rw [ih hrest]
    | keyed hkey => exact absurd (dashed_of_index hdashed hkey) (by simp [ha])
    | missing hkey => exact absurd (dashed_of_index hdashed hkey) (by simp [ha])
  | keyed hkey _ ih =>
    cases h' with
    | operand ha => exact absurd (dashed_of_index hdashed hkey) (by simp [ha])
    | keyed hkey' hrest => rw [ih hrest, index_unique hnodup hkey hkey']
  | missing hkey =>
    cases h' with
    | operand ha => exact absurd (dashed_of_index hdashed hkey) (by simp [ha])
    | missing hkey' => rw [index_unique hnodup hkey hkey']

/-- The keys of the items are among the keys. -/
theorem Spells.lt_length (h : Spells dashed keys argv its) {v : Option α} (hmem : .keyed j v ∈ its) : j < keys.length := by
  induction h with
  | nil => cases hmem
  | operand _ _ ih => exact ih (by simpa using hmem)
  | keyed hkey _ ih =>
    rcases List.mem_cons.mp hmem with heq | hmem
    · cases heq
      exact (List.getElem?_eq_some_iff.mp hkey).1
    · exact ih hmem
  | missing hkey =>
    cases List.mem_singleton.mp hmem
    exact (List.getElem?_eq_some_iff.mp hkey).1

/-! ## Reading -/

/-- The items that a command line is made of. -/
def read [DecidableEq α] (dashed : α → Bool) (keys : List α) : List α → Option (List (Item α))
  | [] => some []
  | [a] =>
    if dashed a = false then some [.operand a] else (keys.findIdx? (· = a)).map fun j => [.keyed j none]
  | a :: v :: argv =>
    if dashed a = false then (read dashed keys (v :: argv)).map (.operand a :: ·)
    else (keys.findIdx? (· = a)).bind fun j => (read dashed keys argv).map (.keyed j (some v) :: ·)

section

variable [DecidableEq α]

theorem findIdx?_key (hnodup : keys.Nodup) {key : α} : keys.findIdx? (· = key) = some j ↔ keys[j]? = some key := by
  rw [List.findIdx?_eq_some_iff_getElem, List.getElem?_eq_some_iff]
  constructor
  · rintro ⟨hj, heq, -⟩
    exact ⟨hj, by simpa using heq⟩
  · rintro ⟨hj, heq⟩
    refine ⟨hj, by simpa using heq, fun i hi hkey => ?_⟩
    have hji : j = i := index_unique hnodup (List.getElem?_eq_some_iff.mpr ⟨hj, heq⟩)
      (List.getElem?_eq_some_iff.mpr ⟨Nat.lt_trans hi hj, by simpa using hkey⟩)
    omega

/-- Reading finds the one way to spell a command line. -/
theorem spells_iff_read (hnodup : keys.Nodup) (hdashed : ∀ key ∈ keys, dashed key = true) :
    Spells dashed keys argv its ↔ read dashed keys argv = some its := by
  constructor
  · intro h
    induction h with
    | nil => rfl
    | @operand a argv its ha hrest ih =>
      cases argv with
      | nil =>
        obtain rfl : [] = its := Option.some.inj ih
        simp [read, ha]
      | cons v argv => simp [read, ha, ih]
    | keyed hkey hrest ih =>
      simp [read, dashed_of_index hdashed hkey, (findIdx?_key hnodup).mpr hkey, ih]
    | missing hkey => simp [read, dashed_of_index hdashed hkey, (findIdx?_key hnodup).mpr hkey]
  · intro h
    induction argv using read.induct dashed generalizing its with
    | case1 =>
      obtain rfl : [] = its := Option.some.inj h
      exact .nil
    | case2 a ha =>
      obtain rfl : [.operand a] = its := by simpa [read, ha] using h
      exact .operand ha .nil
    | case3 a ha =>
      obtain ⟨j, hj, rfl⟩ : ∃ j, keys.findIdx? (· = a) = some j ∧ [.keyed j none] = its := by simpa [read, ha] using h
      exact .missing ((findIdx?_key hnodup).mp hj)
    | case4 a v argv ha ih =>
      obtain ⟨its₁, hread, rfl⟩ : ∃ its₁, read dashed keys (v :: argv) = some its₁ ∧ .operand a :: its₁ = its := by
        simpa [read, ha] using h
      exact .operand ha (ih hread)
    | case5 a v argv ha ih =>
      obtain ⟨j, hj, its₁, hread, rfl⟩ : ∃ j, keys.findIdx? (· = a) = some j ∧
          ∃ its₁, read dashed keys argv = some its₁ ∧ .keyed j (some v) :: its₁ = its := by
        simpa [read, ha, Option.bind_eq_some_iff] using h
      exact .keyed ((findIdx?_key hnodup).mp hj) (ih hread)

end

/-! ## Boards -/

/-- A slot for each key, a place for each operand, and the next place. -/
structure Board (β : Type) where
  slots : List β
  places : List β
  next : Nat

variable {store : β → Option α → Option β} {b b' : Board β} {slot place : β}

/-- Stores an item, if its slot or place takes it. -/
def take (store : β → Option α → Option β) (b : Board β) : Item α → Option (Board β)
  | .operand a =>
    (b.places[b.next]?).bind fun place => (store place (some a)).map fun place =>
      { b with places := b.places.set b.next place, next := b.next + 1 }
  | .keyed j v =>
    (b.slots[j]?).bind fun slot => (store slot v).map fun slot => { b with slots := b.slots.set j slot }

theorem take_operand : take store b (.operand a) = some b' ↔
    ∃ place place', b.places[b.next]? = some place ∧ store place (some a) = some place' ∧
      b' = { b with places := b.places.set b.next place', next := b.next + 1 } := by
  simp only [take, Option.bind_eq_some_iff, Option.map_eq_some_iff]
  constructor
  · rintro ⟨place, hplace, place', hstore, rfl⟩
    exact ⟨place, place', hplace, hstore, rfl⟩
  · rintro ⟨place, place', hplace, hstore, rfl⟩
    exact ⟨place, hplace, place', hstore, rfl⟩

theorem take_keyed {v : Option α} : take store b (.keyed j v) = some b' ↔
    ∃ slot slot', b.slots[j]? = some slot ∧ store slot v = some slot' ∧ b' = { b with slots := b.slots.set j slot' } := by
  simp only [take, Option.bind_eq_some_iff, Option.map_eq_some_iff]
  constructor
  · rintro ⟨slot, hslot, slot', hstore, rfl⟩
    exact ⟨slot, slot', hslot, hstore, rfl⟩
  · rintro ⟨slot, slot', hslot, hstore, rfl⟩
    exact ⟨slot, hslot, slot', hstore, rfl⟩

/-- The run that takes the items one after the other. -/
inductive Fills (store : β → Option α → Option β) : Board β → List (Item α) → Board β → Prop where
  | nil (b : Board β) : Fills store b [] b
  | operand {b b' : Board β} {a : α} {its : List (Item α)} {place place' : β} (hplace : b.places[b.next]? = some place)
    (hstore : store place (some a) = some place')
    (h : Fills store { b with places := b.places.set b.next place', next := b.next + 1 } its b') :
    Fills store b (.operand a :: its) b'
  | keyed {b b' : Board β} {j : Nat} {v : Option α} {its : List (Item α)} {slot slot' : β}
    (hslot : b.slots[j]? = some slot) (hstore : store slot v = some slot')
    (h : Fills store { b with slots := b.slots.set j slot' } its b') : Fills store b (.keyed j v :: its) b'

theorem foldlM_cons_eq_some {it : Item α} : (it :: its).foldlM (take store) b = some b' ↔
    ∃ c, take store b it = some c ∧ its.foldlM (take store) c = some b' := by
  rw [List.foldlM_cons]
  exact Option.bind_eq_some_iff

theorem fills_of_foldlM (h : its.foldlM (take store) b = some b') : Fills store b its b' := by
  induction its generalizing b with
  | nil =>
    obtain rfl : b = b' := by simpa using h
    exact .nil b
  | cons it its ih =>
    obtain ⟨c, htake, hrest⟩ := foldlM_cons_eq_some.mp h
    cases it with
    | operand a =>
      obtain ⟨place, place', hplace, hstore, rfl⟩ := take_operand.mp htake
      exact .operand hplace hstore (ih hrest)
    | keyed j v =>
      obtain ⟨slot, slot', hslot, hstore, rfl⟩ := take_keyed.mp htake
      exact .keyed hslot hstore (ih hrest)

/-- Every slot holds what its own values leave. -/
theorem Fills.slots (h : Fills store b its b') (hslot : b.slots[j]? = some slot) :
    ∃ slot', (valuesOf j its).foldlM store slot = some slot' ∧ b'.slots[j]? = some slot' := by
  induction h generalizing slot with
  | nil b => exact ⟨slot, rfl, hslot⟩
  | operand _ _ _ ih => exact ih hslot
  | @keyed b b' k v its slot₀ slot₁ hslot₀ hstore _ ih =>
    by_cases hjk : k = j
    · subst hjk
      obtain rfl : slot₀ = slot := Option.some.inj (hslot₀.symm.trans hslot)
      have hlt := (List.getElem?_eq_some_iff.mp hslot).1
      obtain ⟨slot', hfold, hslot'⟩ := ih (List.getElem?_set_self hlt)
      refine ⟨slot', ?_, hslot'⟩
      rw [valuesOf_self, List.foldlM_cons, hstore]
      exact hfold
    · rw [valuesOf_other hjk]
      exact ih ((List.getElem?_set_ne hjk).trans hslot)

theorem Fills.slots_length (h : Fills store b its b') : b'.slots.length = b.slots.length := by
  induction h with
  | nil b => rfl
  | operand _ _ _ ih => exact ih
  | keyed _ _ _ ih => exact ih.trans List.length_set

theorem Fills.next (h : Fills store b its b') : b'.next = b.next + (operands its).length := by
  induction h with
  | nil b => rfl
  | operand _ _ _ ih => rw [ih, operands, List.length_cons, Nat.add_assoc, Nat.add_comm 1]
  | keyed _ _ _ ih => exact ih

/-- Places before the next one stay as they are. -/
theorem Fills.places_before (h : Fills store b its b') (hk : k < b.next) : b'.places[k]? = b.places[k]? := by
  induction h with
  | nil b => rfl
  | operand _ _ _ ih =>
    rw [ih (Nat.lt_succ_of_lt hk)]
    exact List.getElem?_set_ne (Nat.ne_of_gt hk)
  | keyed _ _ _ ih => exact ih hk

/-- So do those after the operands. -/
theorem Fills.places_after (h : Fills store b its b') (hk : b'.next ≤ k) : b'.places[k]? = b.places[k]? := by
  induction h with
  | nil b => rfl
  | @operand b b' a its place place' _ _ hrest ih =>
    rw [ih hk]
    refine List.getElem?_set_ne ?_
    have hnext : b'.next = b.next + 1 + (operands its).length := hrest.next
    omega
  | keyed _ _ _ ih => exact ih hk

/-- The operands are in the places from the next one on. -/
theorem Fills.places (h : Fills store b its b') (hk : (operands its)[k]? = some a) :
    ∃ place place', b.places[b.next + k]? = some place ∧ store place (some a) = some place' ∧
      b'.places[b.next + k]? = some place' := by
  induction h generalizing k with
  | nil b => exact absurd hk (by simp [operands])
  | @operand b b' a' its place place' hplace hstore hrest ih =>
    cases k with
    | zero =>
      obtain rfl : a' = a := Option.some.inj hk
      refine ⟨place, place', hplace, hstore, ?_⟩
      rw [Nat.add_zero, hrest.places_before (Nat.lt_succ_self b.next)]
      exact List.getElem?_set_self (List.getElem?_eq_some_iff.mp hplace).1
    | succ k =>
      obtain ⟨p, p', hp, hp', hb'⟩ := ih hk
      have hat : b.next + 1 + k = b.next + (k + 1) := by omega
      rw [hat] at hp hb'
      exact ⟨p, p', (List.getElem?_set_ne (by omega)).symm.trans hp, hp', hb'⟩
  | keyed _ _ _ ih => exact ih hk

/-- A command line can be taken when every slot can take its values, and there are
places for the operands. -/
theorem exists_foldlM (hkeys : ∀ j v, .keyed j v ∈ its → j < b.slots.length)
    (hslots : ∀ j slot, b.slots[j]? = some slot → ∃ slot', (valuesOf j its).foldlM store slot = some slot')
    (hplaces : b.next + (operands its).length ≤ b.places.length)
    (hstore : ∀ k place a, b.next ≤ k → b.places[k]? = some place → ∃ place', store place (some a) = some place') :
    ∃ b', its.foldlM (take store) b = some b' := by
  induction its generalizing b with
  | nil => exact ⟨b, rfl⟩
  | cons it its ih =>
    cases it with
    | operand a =>
      rw [operands, List.length_cons] at hplaces
      have hlt : b.next < b.places.length := by omega
      obtain ⟨place', hplace'⟩ := hstore b.next _ a (Nat.le_refl _) (List.getElem?_eq_getElem hlt)
      obtain ⟨b', hb'⟩ := ih (b := { b with places := b.places.set b.next place', next := b.next + 1 })
        (fun j v hmem => hkeys j v (List.mem_cons_of_mem _ hmem)) hslots
        (by show b.next + 1 + _ ≤ (b.places.set b.next place').length; rw [List.length_set]; omega)
        fun k place a hk hplace => hstore k place a (Nat.le_of_succ_le hk)
          ((List.getElem?_set_ne (Nat.ne_of_lt hk)).symm.trans hplace)
      exact ⟨b', foldlM_cons_eq_some.mpr ⟨_, take_operand.mpr ⟨_, _, List.getElem?_eq_getElem hlt, hplace', rfl⟩, hb'⟩⟩
    | keyed j v =>
      have hlt := hkeys j v List.mem_cons_self
      have hslot : b.slots[j]? = some b.slots[j] := List.getElem?_eq_getElem hlt
      obtain ⟨slot', hfold⟩ := hslots j _ hslot
      rw [valuesOf_self, List.foldlM_cons] at hfold
      obtain ⟨slot₁, hslot₁, hfold⟩ := Option.bind_eq_some_iff.mp hfold
      obtain ⟨b', hb'⟩ := ih (b := { b with slots := b.slots.set j slot₁ })
        (fun k w hmem => by
          show k < (b.slots.set j slot₁).length
          rw [List.length_set]
          exact hkeys k w (List.mem_cons_of_mem _ hmem))
        (fun k slot hk => by
          by_cases hjk : j = k
          · subst hjk
            obtain rfl : slot₁ = slot := Option.some.inj ((List.getElem?_set_self hlt).symm.trans hk)
            exact ⟨slot', hfold⟩
          · have hother := hslots k slot ((List.getElem?_set_ne hjk).symm.trans hk)
            rwa [valuesOf_other hjk] at hother)
        hplaces hstore
      exact ⟨b', foldlM_cons_eq_some.mpr ⟨_, take_keyed.mpr ⟨_, _, hslot, hslot₁, rfl⟩, hb'⟩⟩

end Framework.CommandLine
