import Mathlib.Tactic.Ring
import OSForReal.Framework.Word

/-!
# Two-level page tables

`PageTables` is what a processor with 4 KiB pages and two levels of tables
reads: a page directory, and the tables by their physical addresses. Bit 0 of
an entry says that it is present, and its high 20 bits are an address.
`translate` is the walk, and `translate_of_entries` and the two lemmas after it
say where it ends, from the two entries it reads.
-/

namespace Framework

/-- A page directory, and the page tables by their physical addresses. -/
structure PageTables where
  directory : Nat → Nat
  table : Nat → Option (Nat → Nat)

namespace PageTables

/-- The index of an address in the page directory. -/
def directoryIndex (v : Nat) : Nat := v >>> 22

/-- The index of an address in its page table. -/
def tableIndex (v : Nat) : Nat := (v >>> 12) &&& 0x3FF

/-- The address that a page directory or page table entry holds. -/
def address (entry : Nat) : Nat := entry &&& 0xfffff000

/-- The entry of an address in the table that its directory entry points at. -/
def entryOf (T : PageTables) (v : Nat) : Option Nat :=
  (T.table (address (T.directory (directoryIndex v)))).map fun t => t (tableIndex v)

/-- The physical address of a virtual one, if its page is present. -/
def translate (T : PageTables) (v : Nat) : Option Nat :=
  if T.directory (directoryIndex v) &&& 1 = 0 then none
  else (T.entryOf v).bind fun e => if e &&& 1 = 0 then none else some (address e + v % 4096)

variable {T : PageTables} {v w e x t : Nat} {entries : Nat → Nat}

theorem directoryIndex_eq (v : Nat) : directoryIndex v = v / 4194304 := Nat.shiftRight_eq_div_pow v 22

theorem tableIndex_eq (v : Nat) : tableIndex v = v / 4096 % 1024 := by
  rw [tableIndex, Nat.shiftRight_eq_div_pow, show (0x3FF : Nat) = 2 ^ 10 - 1 by rfl, Nat.and_two_pow_sub_one_eq_mod]

/-- An address and its page have the same walk. -/
theorem directoryIndex_page (v : Nat) : directoryIndex (v - v % 4096) = directoryIndex v := by
  rw [directoryIndex_eq, directoryIndex_eq]
  omega

theorem tableIndex_page (v : Nat) : tableIndex (v - v % 4096) = tableIndex v := by
  rw [tableIndex_eq, tableIndex_eq]
  omega

/-- The flags of an entry lie below the address. -/
theorem address_or {flags : Nat} (hx : x % 4096 = 0) (hlt : x < 2 ^ 32) (hf : flags < 4096) : address (x ||| flags) = x := by
  have hor : x ||| flags = x + flags := by
    have e : x = 2 ^ 12 * (x / 2 ^ 12) := by omega
    rw [e]
    exact (Nat.two_pow_add_eq_or_of_lt hf _).symm
  have hmask : (x + flags) &&& 0xfffff000 = 2 ^ 12 * ((x + flags) / 2 ^ 12) :=
    @Framework.Word.land_clear_low (x + flags) 12 (by omega) (by decide)
  rw [address, hor, hmask]
  omega

/-- Bit 0 of an entry is that of its flags. -/
theorem present_or {flags : Nat} (hx : x % 4096 = 0) (hf : flags < 4096) : (x ||| flags) &&& 1 = flags % 2 := by
  have hor : x ||| flags = x + flags := by
    have e : x = 2 ^ 12 * (x / 2 ^ 12) := by omega
    rw [e]
    exact (Nat.two_pow_add_eq_or_of_lt hf _).symm
  rw [hor, Nat.and_one_is_mod]
  omega

/-- The walk through two entries that are present. -/
theorem translate_of_entries (hd : T.directory (directoryIndex v) &&& 1 = 1)
    (ht : T.table (address (T.directory (directoryIndex v))) = some entries) (he : entries (tableIndex v) &&& 1 = 1) :
    T.translate v = some (address (entries (tableIndex v)) + v % 4096) := by
  rw [translate, entryOf, ht, if_neg (by omega), Option.map_some, Option.bind_some, if_neg (by omega)]

/-- The walk ends at a directory entry that is not present. -/
theorem translate_of_directory (hd : T.directory (directoryIndex v) &&& 1 = 0) : T.translate v = none := if_pos hd

/-- The walk ends at a table entry that is not present. -/
theorem translate_of_table (ht : T.table (address (T.directory (directoryIndex v))) = some entries)
    (he : entries (tableIndex v) &&& 1 = 0) : T.translate v = none := by
  rw [translate, entryOf, ht, Option.map_some, Option.bind_some, if_pos he, ite_self]

/-- The walk through two entries with their flags, which say that both are present. -/
theorem translate_mapped {d f : Nat} (hd : T.directory (directoryIndex v) = t ||| d) (ht : T.table t = some entries)
    (he : entries (tableIndex v) = x ||| f) (htable : t % 4096 = 0 ∧ t < 2 ^ 32) (hpage : x % 4096 = 0 ∧ x < 2 ^ 32)
    (hflags : d < 4096 ∧ d % 2 = 1 ∧ f < 4096 ∧ f % 2 = 1) : T.translate v = some (x + v % 4096) := by
  obtain ⟨hd', hd1, hf', hf1⟩ := hflags
  have haddr : address (T.directory (directoryIndex v)) = t := by rw [hd, address_or htable.1 htable.2 hd']
  rw [@translate_of_entries T v entries (by rw [hd, present_or htable.1 hd', hd1]) (by rw [haddr, ht])
    (by rw [he, present_or hpage.1 hf', hf1]), he, address_or hpage.1 hpage.2 hf']

/-- The walk through a present directory entry to one that is zero. -/
theorem translate_zero {d : Nat} (hd : T.directory (directoryIndex v) = t ||| d) (ht : T.table t = some entries)
    (he : entries (tableIndex v) = 0) (htable : t % 4096 = 0 ∧ t < 2 ^ 32) (hd' : d < 4096) : T.translate v = none := by
  have haddr : address (T.directory (directoryIndex v)) = t := by rw [hd, address_or htable.1 htable.2 hd']
  exact translate_of_table (by rw [haddr, ht]) (by rw [he]; rfl)

end PageTables

end Framework
