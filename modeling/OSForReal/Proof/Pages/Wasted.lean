import Mathlib.Data.List.Chain
import Mathlib.Data.List.Pairwise
import OSForReal.Proof.Pages.Frames

/-!
# General purpose memory that `pfa_init` marks

`isSet_markAll_iff` says exactly which bits are set. The gaps between entries
and the entries below 4 GiB are marked where they are, and meet no page of
general purpose memory; one that begins at 4 GiB or later is marked where its
addresses, truncated to 32 bits, lead (`Aliases`). So no such page is marked
exactly when those ranges, and the empty ones, miss them all
(`pfaInit_wastesNone`).
-/

namespace OSForReal.Proof.Pages

open Framework (Res)
open Framework.Bitmap (Words isSet)

variable {boot : MultibootInfo} {l : List MMapSegment} {r s t : MMapSegment} {b : Words} {last n p : Nat}

/-! ## The bits that are set -/

/-- The page reaches into the addresses from `start` to `stop`, truncated to 32
bits. An address after the last page is rounded to 0. -/
def Aliases (start stop page : Nat) : Prop :=
  start % 2 ^ 32 < page + pageSize ∧ page < stop % 2 ^ 32 ∧ stop % 2 ^ 32 ≤ 2 ^ 32 - pageSize

/-- The pages below an address that is rounded up. -/
theorem lt_alignForward_iff {x : Nat} (hx : x < 2 ^ 32) :
    pageAddr n < alignForward x pageSize ↔ pageAddr n < x ∧ x ≤ 2 ^ 32 - pageSize := by
  have hlt : (x + (pageSize - 1)) % 2 ^ 32 < 2 ^ 32 := Nat.mod_lt _ (by decide)
  have hmask : (x + (pageSize - 1)) % 2 ^ 32 &&& (0xffffffff ^^^ (pageSize - 1)) =
      2 ^ 12 * ((x + (pageSize - 1)) % 2 ^ 32 / 2 ^ 12) :=
    @Framework.Word.land_clear_low ((x + (pageSize - 1)) % 2 ^ 32) 12 hlt (by decide)
  unfold alignForward
  rw [Nat.add_sub_assoc (by decide), hmask]
  simp only [pageAddr, reservedPhys, pageSize]
  omega

/-- The pages that one entry marks. -/
theorem isSet_markSegment_iff (b : Words) (s : MMapSegment) (hlast : last < 2 ^ 32) :
    isSet (markSegment b last s) n = true ↔ isSet b n = true ∨ Aliases last s.baseAddr (pageAddr n) ∨
      s.type ≠ 1 ∧ Aliases s.baseAddr ((s.baseAddr + s.length) % 2 ^ 64) (pageAddr n) := by
  have hgap : isSet (markArea b last (alignForward (s.baseAddr % 2 ^ 32) pageSize)) n = true ↔
      isSet b n = true ∨ Aliases last s.baseAddr (pageAddr n) := by
    rw [isSet_markArea b hlast, lt_alignForward_iff (Nat.mod_lt _ (by decide)), Aliases, Nat.mod_eq_of_lt hlast]
  unfold markSegment
  split
  · rename_i htype
    rw [isSet_markArea _ (Nat.mod_lt _ (by decide)), hgap, lt_alignForward_iff (Nat.mod_lt _ (by decide)), or_assoc]
    simp only [ne_eq, htype, not_false_iff, true_and, Aliases]
  · rename_i htype
    rw [hgap]
    simp only [htype, false_and, or_false]

/-- The pages that are marked after all entries: those that reach into a gap or into
an entry that is not general purpose memory. -/
theorem isSet_markAll_iff (hlast : last < 2 ^ 32) (hl : ∀ s ∈ l, s.baseAddr + s.length < 2 ^ 64) :
    isSet (markAll b last l) n = true ↔ isSet b n = true ∨
      (∃ s, [s] <+: l ∧ Aliases last s.baseAddr (pageAddr n)) ∨
      (∃ r s, [r, s] <:+: l ∧ Aliases (r.baseAddr + r.length) s.baseAddr (pageAddr n)) ∨
      ∃ s ∈ l, s.type ≠ 1 ∧ Aliases s.baseAddr (s.baseAddr + s.length) (pageAddr n) := by
  induction l generalizing b last with
  | nil => simp [markAll]
  | cons t l ih =>
    have ht := hl t List.mem_cons_self
    have hend : (t.baseAddr + t.length) % 2 ^ 64 = t.baseAddr + t.length := Nat.mod_eq_of_lt ht
    rw [markAll, ih (Nat.mod_lt _ (by decide)) fun s hs => hl s (List.mem_cons_of_mem _ hs), isSet_markSegment_iff b t hlast,
      hend]
    have hfirst : (∃ s, [s] <+: t :: l ∧ Aliases last s.baseAddr (pageAddr n)) ↔ Aliases last t.baseAddr (pageAddr n) := by
      simp [List.cons_prefix_cons]
    have hgaps : (∃ r s, [r, s] <:+: t :: l ∧ Aliases (r.baseAddr + r.length) s.baseAddr (pageAddr n)) ↔
        (∃ s, [s] <+: l ∧ Aliases ((t.baseAddr + t.length) % 2 ^ 32) s.baseAddr (pageAddr n)) ∨
          ∃ r s, [r, s] <:+: l ∧ Aliases (r.baseAddr + r.length) s.baseAddr (pageAddr n) := by
      simp only [List.infix_cons_iff, List.cons_prefix_cons, or_and_right, exists_or, and_assoc, exists_and_left,
        exists_eq_left, Aliases, Nat.mod_mod]
    have hself : (∃ s ∈ t :: l, s.type ≠ 1 ∧ Aliases s.baseAddr (s.baseAddr + s.length) (pageAddr n)) ↔
        (t.type ≠ 1 ∧ Aliases t.baseAddr (t.baseAddr + t.length) (pageAddr n)) ∨
          ∃ s ∈ l, s.type ≠ 1 ∧ Aliases s.baseAddr (s.baseAddr + s.length) (pageAddr n) := by
      simp only [List.mem_cons, exists_eq_or_imp]
    rw [hfirst, hgaps, hself]
    simp only [or_assoc, or_left_comm]

/-! ## What is wasted -/

/-- `pfa_init` returns, and leaves every page of general purpose memory unmarked. -/
def WastesNone (boot : MultibootInfo) (l : List MMapSegment) : Prop :=
  ∃ fuel bitmap, pfaInit boot fuel = .ok bitmap ∧ ∀ n, SoundFrame l (pageAddr n) → isSet bitmap n = false

/-- The gaps after entries that are empty or end at 4 GiB or later, and the entries that are not general
purpose memory and are empty or begin there, lead to no page of general purpose memory. -/
structure AliasFree (l : List MMapSegment) : Prop where
  gaps : ∀ r s, [r, s] <:+: l → r.length = 0 ∨ 2 ^ 32 ≤ r.baseAddr + r.length → ∀ n, SoundFrame l (pageAddr n) →
    ¬ Aliases (r.baseAddr + r.length) s.baseAddr (pageAddr n)
  entries : ∀ s ∈ l, s.type ≠ 1 → s.length = 0 ∨ 2 ^ 32 ≤ s.baseAddr → ∀ n, SoundFrame l (pageAddr n) →
    ¬ Aliases s.baseAddr (s.baseAddr + s.length) (pageAddr n)

/-- An entry that is before a non-empty one ends before it. -/
theorem end_le_of_disjoint (hsorted : r.baseAddr ≤ s.baseAddr) (hdisjoint : ∀ a, ¬ (Covers r a ∧ Covers s a))
    (hs : 0 < s.length) : r.baseAddr + r.length ≤ s.baseAddr := by
  by_contra hlt
  exact hdisjoint s.baseAddr ⟨⟨hsorted, by omega⟩, ⟨Nat.le_refl _, by omega⟩⟩

/-- A page in an entry lies below its end. -/
theorem covers_page (h : ∀ a, p ≤ a → a < p + pageSize → Covers t a) :
    t.baseAddr ≤ p ∧ p + pageSize ≤ t.baseAddr + t.length := by
  have hfirst := (h p (Nat.le_refl _) (Nat.lt_add_of_pos_right (by decide))).1
  have hlast := (h (p + (pageSize - 1)) (Nat.le_add_right _ _) (Nat.add_lt_add_left (by decide) p)).2
  simp only [pageSize] at hlast ⊢
  omega

/-- A gap after a non-empty entry below 4 GiB leads to no page of general purpose memory. -/
theorem gap_harmless (h : MemoryMap boot l) (hrs : [r, s] <:+: l) (hr : 0 < r.length) (hlow : r.baseAddr + r.length < 2 ^ 32)
    (hn : SoundFrame l (pageAddr n)) : ¬ Aliases (r.baseAddr + r.length) s.baseAddr (pageAddr n) := by
  rintro ⟨hstart, hstop, -⟩
  obtain ⟨-, -, t, ht, -, hcovers⟩ := hn
  obtain ⟨hbase, hend⟩ := covers_page hcovers
  have hmod : s.baseAddr % 2 ^ 32 ≤ s.baseAddr := Nat.mod_le _ _
  rw [Nat.mod_eq_of_lt hlow] at hstart
  obtain ⟨pre, post, rfl⟩ := hrs
  have hsorted := h.sorted
  have hdisjoint := h.disjoint
  simp only [List.append_assoc, List.pairwise_append, List.cons_append, List.nil_append, List.pairwise_cons,
    List.mem_cons] at hsorted hdisjoint
  simp only [List.append_assoc, List.mem_append, List.mem_cons, List.not_mem_nil, or_false] at ht
  rcases ht with hpre | (rfl | rfl) | hpost
  · have hbefore := end_le_of_disjoint (hsorted.2.2 t hpre r (.inl rfl)) (hdisjoint.2.2 t hpre r (.inl rfl)) hr
    omega
  · omega
  · omega
  · have hafter := hsorted.2.1.2.1 t hpost
    omega

/-- So does the gap before the first entry. -/
theorem first_harmless (h : MemoryMap boot l) (hs : [s] <+: l) (hn : SoundFrame l (pageAddr n)) :
    ¬ Aliases 0 s.baseAddr (pageAddr n) := by
  rintro ⟨-, hstop, -⟩
  obtain ⟨-, -, t, ht, -, hcovers⟩ := hn
  obtain ⟨hbase, -⟩ := covers_page hcovers
  have hmod : s.baseAddr % 2 ^ 32 ≤ s.baseAddr := Nat.mod_le _ _
  obtain ⟨post, rfl⟩ := hs
  have hsorted := h.sorted
  rw [List.singleton_append, List.pairwise_cons] at hsorted
  rcases List.mem_cons.mp ht with rfl | hpost
  · omega
  · have hafter := hsorted.1 t hpost
    omega

/-- And a non-empty entry that begins below 4 GiB and is not general purpose memory. -/
theorem entry_harmless (h : MemoryMap boot l) (hs : s ∈ l) (htype : s.type ≠ 1) (hlen : 0 < s.length)
    (hlow : s.baseAddr < 2 ^ 32) (hn : SoundFrame l (pageAddr n)) :
    ¬ Aliases s.baseAddr (s.baseAddr + s.length) (pageAddr n) := by
  rintro ⟨hstart, hstop, -⟩
  obtain ⟨-, hhi, t, ht, htype', hcovers⟩ := hn
  have hmod : (s.baseAddr + s.length) % 2 ^ 32 ≤ s.baseAddr + s.length := Nat.mod_le _ _
  rw [Nat.mod_eq_of_lt hlow] at hstart
  have hne : t ≠ s := fun heq => htype (heq ▸ htype')
  have hsymm : Std.Symm fun s t : MMapSegment => ∀ a, ¬ (Covers s a ∧ Covers t a) := ⟨fun _ _ hd a ha => hd a ha.symm⟩
  have hapart : ∀ a, ¬ (Covers t a ∧ Covers s a) := h.disjoint.forall ht hs hne
  -- An address of the page that is in the entry.
  refine hapart (max (pageAddr n) s.baseAddr) ⟨hcovers _ (Nat.le_max_left _ _) (by simp only [pageSize] at *; omega), ?_⟩
  exact ⟨Nat.le_max_right _ _, by omega⟩

/-- A range that leads to general purpose memory marks it. -/
theorem aliasFree_of_wastesNone (h : MemoryMap boot l) (hw : WastesNone boot l) : AliasFree l := by
  obtain ⟨fuel, bitmap, hinit, hclear⟩ := hw
  rw [pfaInit_eq h hinit] at hclear
  have hset (n : Nat) := @isSet_markAll_iff l (fun _ => 0) 0 n (by decide) h.addresses
  constructor
  · intro r s hrs _ n hn ha
    have hmarked := (hset n).mpr (.inr (.inr (.inl ⟨r, s, hrs, ha⟩)))
    rw [hclear n hn] at hmarked
    cases hmarked
  · intro s hs htype _ n hn ha
    have hmarked := (hset n).mpr (.inr (.inr (.inr ⟨s, hs, htype, ha⟩)))
    rw [hclear n hn] at hmarked
    cases hmarked

/-- Nothing else marks it. -/
theorem wastesNone_of_aliasFree (h : MemoryMap boot l) (hfree : AliasFree l) : WastesNone boot l := by
  obtain ⟨fuel, hr⟩ := initLoop_returns h.mmapLength h.laidOut (fun _ => 0) 0
  refine ⟨fuel, _, hr, fun n hn => ?_⟩
  by_contra hmarked
  have hset := (@isSet_markAll_iff l (fun _ => 0) 0 n (by decide) h.addresses).mp (by simpa using hmarked)
  rcases hset with h0 | ⟨s, hs, ha⟩ | ⟨r, s, hrs, ha⟩ | ⟨s, hs, htype, ha⟩
  · exact absurd h0 (by simp [isSet])
  · exact first_harmless h hs hn ha
  · by_cases hout : r.length = 0 ∨ 2 ^ 32 ≤ r.baseAddr + r.length
    · exact hfree.gaps r s hrs hout n hn ha
    · exact gap_harmless h hrs (by omega) (by omega) hn ha
  · by_cases hout : s.length = 0 ∨ 2 ^ 32 ≤ s.baseAddr
    · exact hfree.entries s hs htype hout n hn ha
    · exact entry_harmless h hs htype (by omega) (by omega) hn ha

/-- `pfa_init` wastes no general purpose memory if and only if what it marks above
4 GiB, and for empty entries, leads to none. -/
theorem pfaInit_wastesNone (boot : MultibootInfo) (l : List MMapSegment) (h : MemoryMap boot l) :
    WastesNone boot l ↔ AliasFree l :=
  ⟨aliasFree_of_wastesNone h, wastesNone_of_aliasFree h⟩

/-- Memory from 1 MiB up to nearly 128 MiB, and behind gaps the addresses of a device, the firmware below 4 GiB, and
addresses that are reserved up to 1 TiB. -/
def reservedBehindGaps : List MMapSegment :=
  [⟨20, 0x100000, 0x7ee0000, 1⟩, ⟨20, 0x9000000, 0x40000, 2⟩, ⟨20, 0xfffc0000, 0x40000, 2⟩,
    ⟨20, 0xfd00000000, 0x300000000, 2⟩]

def reservedBoot : MultibootInfo where
  mmapLength := 96
  segmentAt offset := reservedBehindGaps.getD (offset / 24) ⟨20, 0, 0, 2⟩

theorem memoryMap_reservedBoot : MemoryMap reservedBoot reservedBehindGaps where
  laidOut := ⟨rfl, rfl, rfl, rfl, rfl⟩
  mmapLength := show 96 < 2 ^ 32 by decide
  addresses := by decide
  sorted := by decide
  disjoint := by
    have hends : reservedBehindGaps.Pairwise fun s t => s.baseAddr + s.length ≤ t.baseAddr := by decide
    refine hends.imp fun {s t} hle a ha => ?_
    have hbelow := ha.1.2
    have habove := ha.2.1
    omega

/-- What lies at 4 GiB and above leads to no address: 1 TiB, 4 GiB and 1012 GiB are 0 modulo 2³². -/
theorem pfaInit_wastesNone_reserved : WastesNone reservedBoot reservedBehindGaps := by
  have hzero : ∀ start stop page, stop % 2 ^ 32 = 0 → ¬ Aliases start stop page := by
    rintro start stop page hstop ⟨-, hlt, -⟩
    omega
  refine (pfaInit_wastesNone reservedBoot _ memoryMap_reservedBoot).mpr ⟨fun r s hrs hout n _ => ?_, fun s hs _ hout n _ => ?_⟩
  · -- Only the entry that ends at 4 GiB is followed by a gap to mark.
    have hchain : reservedBehindGaps.IsChain fun r s =>
        r.length = 0 ∨ 2 ^ 32 ≤ r.baseAddr + r.length → s.baseAddr % 2 ^ 32 = 0 := by decide
    have hpair := List.IsChain.infix hchain hrs
    exact hzero _ _ _ (List.isChain_pair.mp hpair hout)
  · have hmem : ∀ s ∈ reservedBehindGaps, s.length = 0 ∨ 2 ^ 32 ≤ s.baseAddr → (s.baseAddr + s.length) % 2 ^ 32 = 0 := by
      decide
    exact hzero _ _ _ (hmem s hs hout)

/-- Memory from 1 MiB up to 128 MiB, and 16 MiB of reserved addresses 16 MiB above 4 GiB. -/
def twoEntries : MultibootInfo where
  mmapLength := 48
  segmentAt offset := if offset = 0 then ⟨20, 0x100000, 0x7f00000, 1⟩ else ⟨20, 0x101000000, 0x1000000, 2⟩

theorem memoryMap_twoEntries :
    MemoryMap twoEntries [⟨20, 0x100000, 0x7f00000, 1⟩, ⟨20, 0x101000000, 0x1000000, 2⟩] where
  laidOut := ⟨rfl, rfl, rfl⟩
  mmapLength := show 48 < 2 ^ 32 by decide
  addresses := by decide
  sorted := by decide
  disjoint := by
    refine List.pairwise_pair.mpr fun a ⟨h, h'⟩ => ?_
    have hbelow : a < 0x100000 + 0x7f00000 := h.2
    have habove : 0x101000000 ≤ a := h'.1
    omega

/-- The second entry marks the memory 16 MiB above 0. -/
theorem pfaInit_wastesNone_fails : ¬ ∀ (boot : MultibootInfo) (l : List MMapSegment), MemoryMap boot l →
    WastesNone boot l := by
  intro hall
  have hfree := aliasFree_of_wastesNone memoryMap_twoEntries (hall _ _ memoryMap_twoEntries)
  have hsound : SoundFrame [⟨20, 0x100000, 0x7f00000, 1⟩, ⟨20, 0x101000000, 0x1000000, 2⟩] (pageAddr 1536) := by
    refine ⟨by decide, by decide, _, List.mem_cons_self, rfl, fun a ha ha' => ?_⟩
    simp only [pageAddr, reservedPhys, pageSize] at ha ha'
    exact ⟨by simp only; omega, by simp only; omega⟩
  apply hfree.entries ⟨20, 0x101000000, 0x1000000, 2⟩ (by decide) (by decide) (.inr (by decide)) 1536 hsound
  exact ⟨by decide, by decide, by decide⟩

end OSForReal.Proof.Pages
