import Mathlib.Data.Nat.Find
import OSForReal.Proof.TagFS.Format
import OSForReal.Proof.Tfs.Sectors

/-!
# The search for a name in the kernel

`tfs_get_file_metadata_from_name` on any image with sectors of 512 bytes. Its
inner loop ends at an entry with the name, but the outer one goes on, and the
count of entries then lags behind. `Counts` says by how much, `Reached` which
entries are compared because of it, and `sector_cases` what one sector adds. So
the call returns the entry that it reaches last (`searchSectorsCall_none`,
`searchSectorsCall_some`), and finds what the FUSE driver finds exactly under
`FindsFirst` (`lookupAgrees_iff`).
-/

namespace OSForReal.Proof.Tfs

open Framework
open Framework.Bytes
open OSForReal.TagFS
open OSForReal.Proof.TagFS

variable {fs : FSMetadata} {img memory : Bytes} {path : CStr} {result result' : FileMetadataResult × Bytes}
  {c e i k lag s total : Nat}

/-! ## What is looked for -/

/-- The file entry `i` is in use and has the name. -/
structure HasName (fs : FSMetadata) (img : Bytes) (path : CStr) (i : Nat) : Prop where
  lt : i < 16 * fs.fileMetaSectorCount
  strlen : path.strlen < 24
  used : fileMetadataEntryIsFree img (fileMetaAt fs i) = false
  found : strcmpEq img (nameAt (fileMetaAt fs i)) path = true

/-- The first entry with the name. -/
structure FirstNamed (fs : FSMetadata) (img : Bytes) (path : CStr) (i : Nat) : Prop where
  named : HasName fs img path i
  first : ∀ j < i, ¬ HasName fs img path j

/-- The result is the entry `e`: its sector, its offset there, and the bytes that are copied. -/
structure FoundAt (fs : FSMetadata) (img : Bytes) (e : Nat) (result : FileMetadataResult × Bytes) : Prop where
  result_eq : result.1 = ⟨true, 1 + e / 16, 32 * (e % 16)⟩
  copied : ∀ b < 32, result.2 b = img (fileMetaAt fs e + b)

/-- Whatever memory holds, the call returns, it finds a name that an entry in use
has, and what it finds is the first entry with the name, which is the one that
`get_file_id_from_name` returns the id of. -/
def LookupAgrees (fs : FSMetadata) (img : Bytes) (path : CStr) : Prop :=
  ∀ memory fileMeta, ∃ result, tfsGetFileMetadataFromNameCall fs memory img path fileMeta = .ok result ∧
    (result.1.found = true ↔ ∃ i, HasName fs img path i) ∧
    (result.1.found = true → ∃ i, FirstNamed fs img path i ∧ FoundAt fs img i result ∧
      getFileIdFromName fs img path = i + 1)

/-- The bytes from the name of entry `e` on agree with the path, up to the end of its sector. -/
def AgreesInSector (fs : FSMetadata) (img : Bytes) (path : CStr) (e : Nat) : Prop :=
  ∀ k ≤ path.strlen, nameAt (32 * (e % 16)) + k < 512 → img (nameAt (fileMetaAt fs e) + k) = path.chars.getD k 0

/-- A search whose count lags behind compares the entry `e`: it is the first of its sector, or within the count. -/
def Reached (total lag e : Nat) : Prop := e % 16 = 0 ∨ e ≤ total + lag

/-- When the call finds the first entry with the name: no sector is out of the
drive's reach, the id of the entry is that of no other, and no later sector is
compared to an entry that agrees with the path. If no entry has the name,
none that is compared agrees with it. -/
def FindsFirst (fs : FSMetadata) (img : Bytes) (path : CStr) : Prop :=
  fs.fileMetaSectorCount ≤ 0xfffffff ∧
    ((∃ i, FirstNamed fs img path i ∧ i < 65535 ∧ i < countFileMetaEntries fs ∧
        ∀ e < 16 * fs.fileMetaSectorCount, i / 16 < e / 16 → Reached (countFileMetaEntries fs) (16 - i % 16) e →
          ¬ AgreesInSector fs img path e) ∨
      (∀ i, ¬ HasName fs img path i) ∧ ∀ e < 16 * fs.fileMetaSectorCount, Reached (countFileMetaEntries fs) 0 e →
        ¬ AgreesInSector fs img path e)

theorem HasName.exists_first (h : HasName fs img path i) : ∃ j, FirstNamed fs img path j := by
  classical
  exact ⟨Nat.find ⟨i, h⟩, Nat.find_spec ⟨i, h⟩, fun j hj => Nat.find_min ⟨i, h⟩ hj⟩

/-- The name is not empty. -/
theorem HasName.name_ne (h : HasName fs img path i) : path.chars ≠ [] := fun he => by
  have hused := h.used
  rw [fileMetadataEntryIsFree, (strcmpEq_first h.found).mpr he] at hused
  cases hused

/-- Another entry with the bytes of the name has the name. -/
theorem HasName.of_strcmpEq (h : HasName fs img path i) {j : Nat} (hj : j < 16 * fs.fileMetaSectorCount)
    (hfound : strcmpEq img (nameAt (fileMetaAt fs j)) path = true) : HasName fs img path j := by
  refine ⟨hj, h.strlen, ?_, hfound⟩
  have hfirst : img (nameAt (fileMetaAt fs j)) ≠ 0 := fun h0 => h.name_ne ((strcmpEq_first hfound).mp h0)
  simpa [fileMetadataEntryIsFree] using hfirst

/-! ## The comparisons -/

/-- The entry `e` in the buffer of its sector has the name. -/
def entryMatches (memory img : Bytes) (path : CStr) (e : Nat) : Bool :=
  strcmpEq (sectorBuffer memory img (1 + e / 16)) (nameAt (sizeofFileMetadata * (e % 16))) path

theorem fileMetaAt_sector (hsize : fs.sectorSize = 512) (e : Nat) :
    fileMetaAt fs e = 512 * (1 + e / 16) + 32 * (e % 16) := by
  simp only [fileMetaAt, getFileMetadata, sizeofFileMetadata, hsize]
  omega

/-- A byte of the entry in the buffer. -/
theorem sectorBuffer_entry (hsize : fs.sectorSize = 512) {o : Nat} (ho : 32 * (e % 16) + o < 512) :
    sectorBuffer memory img (1 + e / 16) (32 * (e % 16) + o) = img (fileMetaAt fs e + o) := by
  rw [sectorBuffer, copy_in (Nat.zero_le _) (by omega), diskSector, fileMetaAt_sector hsize, Nat.sub_zero, Nat.add_assoc]

theorem agreesInSector_of_matches (hsize : fs.sectorSize = 512) (h : entryMatches memory img path e = true) :
    AgreesInSector fs img path e := by
  intro k hk hin
  have hbyte := strcmpEq_iff.mp h k hk
  have hin' : 32 * (e % 16) + (8 + k) < 512 := by
    simp only [nameAt] at hin
    omega
  simp only [nameAt, Nat.add_assoc] at hbyte ⊢
  rwa [sectorBuffer_entry hsize hin'] at hbyte

/-- With some memory behind the buffer, an entry that agrees with the path matches it. -/
theorem exists_matches (hsize : fs.sectorSize = 512) (h : AgreesInSector fs img path e) :
    ∃ memory, entryMatches memory img path e = true := by
  refine ⟨fun a => path.chars.getD (a - nameAt (32 * (e % 16))) 0, strcmpEq_iff.mpr fun k hk => ?_⟩
  show sectorBuffer _ img (1 + e / 16) (nameAt (32 * (e % 16)) + k) = _
  by_cases hin : nameAt (32 * (e % 16)) + k < 512
  · rw [← h k hk hin]
    simp only [nameAt, Nat.add_assoc] at hin ⊢
    exact sectorBuffer_entry hsize hin
  · rw [sectorBuffer, copy_out (by omega), Nat.add_sub_cancel_left]

/-- A name of an entry lies in its sector. -/
theorem matches_eq (hsize : fs.sectorSize = 512) (hlen : path.strlen < 24) :
    entryMatches memory img path e = strcmpEq img (nameAt (fileMetaAt fs e)) path := by
  rw [Bool.eq_iff_iff, entryMatches, strcmpEq_iff, strcmpEq_iff]
  refine forall₂_congr fun k hk => ?_
  have hmod : e % 16 < 16 := Nat.mod_lt e (by decide)
  have hbyte : sectorBuffer memory img (1 + e / 16) (32 * (e % 16) + (8 + k)) = img (fileMetaAt fs e + (8 + k)) :=
    sectorBuffer_entry hsize (by omega)
  simp only [nameAt, Nat.add_assoc]
  rw [hbyte]

/-! ## One sector -/

/-- The count before sector `s`, if it lags behind; or it has exceeded the
total, as it does `lag` entries late. -/
def Counts (total lag s c : Nat) : Prop := c + lag = 16 * s ∧ c ≤ total ∨ total < c ∧ total + lag < 16 * s

/-- The inner loop compares the first entry, and the others as long as the count allows. -/
theorem searchEntries_cases (p : Nat → Bool) (total k i c : Nat) :
    (∃ j, i ≤ j ∧ j < i + k ∧ p j = true ∧ (j = i ∨ c + (j - i) ≤ total) ∧ (∀ j', i ≤ j' → j' < j → p j' = false) ∧
        searchEntries p total k i c = (some j, c + (j - i))) ∨
      (∀ j, i ≤ j → j < i + k → (j = i ∨ c + (j - i) ≤ total) → p j = false) ∧
        ∃ c', searchEntries p total k i c = (none, c') ∧ (c + k ≤ total ∧ c' = c + k ∨ total < c + k ∧ total < c') := by
  induction k generalizing i c with
  | zero =>
    refine .inr ⟨fun j hj hj' => absurd hj' (by omega), c, rfl, ?_⟩
    omega
  | succ k ih =>
    rw [searchEntries]
    split
    · rename_i hp
      refine .inl ⟨i, Nat.le_refl i, by omega, hp, .inl rfl, fun j hj hj' => absurd hj' (by omega), ?_⟩
      rw [Nat.sub_self, Nat.add_zero]
    · rename_i hp
      have hmiss : p i = false := by simpa using hp
      split
      · rename_i hfull
        refine .inr ⟨fun j hj _ hreach => ?_, c + 1, rfl, by omega⟩
        obtain rfl : j = i := by omega
        exact hmiss
      · rcases ih (i + 1) (c + 1) with ⟨j, hj, hj', hpj, hreach, hbefore, hr⟩ | ⟨hnone, c', hr, hc'⟩
        · refine .inl ⟨j, by omega, by omega, hpj, by omega, fun j' hij hj'j => ?_, ?_⟩
          · rcases Nat.eq_or_lt_of_le hij with rfl | hlt
            · exact hmiss
            · exact hbefore j' hlt hj'j
          · rw [hr]
            congr 1
            omega
        · refine .inr ⟨fun j hj hj' hreach => ?_, c', hr, by omega⟩
          rcases Nat.eq_or_lt_of_le hj with rfl | hlt
          · exact hmiss
          · exact hnone j hlt (by omega) (by omega)

/-- A sector with a match among the entries that are reached puts the count further behind. -/
theorem sector_cases {p q : Nat → Bool} (hcounts : Counts total lag s c) (hp : ∀ j < 16, p j = q (16 * s + j)) :
    (∃ j < 16, q (16 * s + j) = true ∧ Reached total lag (16 * s + j) ∧ (∀ j' < j, q (16 * s + j') = false) ∧
        ∃ c', searchEntries p total 16 0 c = (some j, c') ∧ Counts total (lag + (16 - j)) (s + 1) c') ∨
      (∀ j < 16, Reached total lag (16 * s + j) → q (16 * s + j) = false) ∧
        ∃ c', searchEntries p total 16 0 c = (none, c') ∧ Counts total lag (s + 1) c' := by
  unfold Counts at hcounts
  rcases searchEntries_cases p total 16 0 c with ⟨j, -, hj, hpj, hreach, hbefore, hr⟩ | ⟨hnone, c', hr, hc'⟩
  · have hj' : j < 16 := by omega
    refine .inl ⟨j, hj', (hp j hj').symm.trans hpj, ?_, fun j' hlt => ?_, _, hr, ?_⟩
    · unfold Reached
      omega
    · rw [← hp j' (by omega)]
      exact hbefore j' (Nat.zero_le _) hlt
    · unfold Counts
      omega
  · refine .inr ⟨fun j hj hreach => ?_, c', hr, ?_⟩
    · unfold Reached at hreach
      rw [← hp j hj]
      exact hnone j (Nat.zero_le _) (by omega) (by omega)
    · unfold Counts
      omega

/-! ## All sectors -/

theorem entryMatches_sector {j : Nat} (hj : j < 16) :
    strcmpEq (sectorBuffer memory img (1 + s)) (nameAt (sizeofFileMetadata * j)) path =
      entryMatches memory img path (16 * s + j) := by
  rw [entryMatches, show (16 * s + j) / 16 = s by omega, show (16 * s + j) % 16 = j by omega]

/-- The entry that is copied from a sector. -/
theorem foundAt_sector (hsize : fs.sectorSize = 512) {j : Nat} (hj : j < 16) (fileMeta : Bytes) :
    FoundAt fs img (16 * s + j) (⟨true, 1 + s, sizeofFileMetadata * j⟩,
      copy fileMeta 0 sizeofFileMetadata fun b => sectorBuffer memory img (1 + s) (sizeofFileMetadata * j + b)) := by
  have hdiv : (16 * s + j) / 16 = s := by omega
  have hmod : (16 * s + j) % 16 = j := by omega
  refine ⟨by rw [hdiv, hmod], fun b hb => ?_⟩
  have hbyte := @sectorBuffer_entry fs img memory (16 * s + j) hsize b (by omega)
  rw [hdiv, hmod] at hbyte
  dsimp only
  rw [copy_in (Nat.zero_le b) (by omega), Nat.sub_zero]
  exact hbyte

/-- Each sector is in the drive's reach, or the search stops the machine. -/
theorem sectors_le_of_ok (h : searchSectorsCall fs memory img path k (1 + s) c result = .ok result') (hk : 0 < k) :
    s + k ≤ 0xfffffff := by
  induction k generalizing s c result with
  | zero => exact absurd hk (Nat.lt_irrefl 0)
  | succ k ih =>
    obtain ⟨result, fileMeta⟩ := result
    rw [searchSectorsCall] at h
    obtain ⟨u, hassert, h⟩ := Res.bind_eq_ok.mp h
    have hlba := Res.assert_eq_ok.mp hassert
    rcases Nat.eq_zero_or_pos k with rfl | hpos
    · omega
    · have hrest := ih (s := s + 1) h hpos
      omega

/-- A match that is reached is behind a sector without one. -/
theorem next_sector_of_none {n : Nat} (hnone : ∀ j < 16, Reached n lag (16 * s + j) →
    entryMatches memory img path (16 * s + j) = false) (he : 16 * s ≤ e) (hreach : Reached n lag e)
    (hmatch : entryMatches memory img path e = true) : 16 * (s + 1) ≤ e := by
  by_contra hin
  have hmiss := hnone (e - 16 * s) (by omega) (by rwa [Nat.add_sub_of_le he])
  rw [Nat.add_sub_of_le he, hmatch] at hmiss
  cases hmiss

section

variable (hsize : fs.sectorSize = 512) (hlba : s + k ≤ 0xfffffff)
  (hcounts : Counts (countFileMetaEntries fs) lag s c)

include hsize hlba hcounts

/-- The pass over sector `s`: the result is an entry of the sector, or no entry that is reached there matches. -/
theorem searchSectorsCall_step {n : Nat} (hn : n + 1 = k) :
    (∃ j < 16, ∃ result' c', entryMatches memory img path (16 * s + j) = true ∧
        Reached (countFileMetaEntries fs) lag (16 * s + j) ∧
        (∀ j' < j, entryMatches memory img path (16 * s + j') = false) ∧ FoundAt fs img (16 * s + j) result' ∧
        Counts (countFileMetaEntries fs) (lag + (16 - j)) (s + 1) c' ∧
        searchSectorsCall fs memory img path k (1 + s) c result =
          searchSectorsCall fs memory img path n (1 + (s + 1)) c' result') ∨
      (∀ j < 16, Reached (countFileMetaEntries fs) lag (16 * s + j) →
          entryMatches memory img path (16 * s + j) = false) ∧
        ∃ c', Counts (countFileMetaEntries fs) lag (s + 1) c' ∧
          searchSectorsCall fs memory img path k (1 + s) c result =
            searchSectorsCall fs memory img path n (1 + (s + 1)) c' result := by
  have hperSector : fs.sectorSize / sizeofFileMetadata = 16 := by
    rw [hsize]
    rfl
  subst hn
  obtain ⟨result, fileMeta⟩ := result
  rw [searchSectorsCall, Res.assert_bind (by omega), hperSector]
  dsimp only
  rcases sector_cases (p := fun j => strcmpEq (sectorBuffer memory img (1 + s)) (nameAt (sizeofFileMetadata * j)) path)
      (q := entryMatches memory img path) hcounts (fun j hj => entryMatches_sector hj) with
    ⟨j, hj, hmatch, hreach, hbefore, c', hr, hc'⟩ | ⟨hnone, c', hr, hc'⟩
  · exact .inl ⟨j, hj, _, c', hmatch, hreach, hbefore, foundAt_sector hsize hj fileMeta, hc', by
      rw [show tfsCountFileMetaEntries fs = countFileMetaEntries fs from rfl, hr, Nat.add_assoc]⟩
  · exact .inr ⟨hnone, c', hc', by
      rw [show tfsCountFileMetaEntries fs = countFileMetaEntries fs from rfl, hr, Nat.add_assoc]⟩

/-- No entry that is reached matches: the result stays. -/
theorem searchSectorsCall_none (h : ∀ e, 16 * s ≤ e → e < 16 * (s + k) → Reached (countFileMetaEntries fs) lag e →
      entryMatches memory img path e = false) :
    searchSectorsCall fs memory img path k (1 + s) c result = .ok result := by
  induction k generalizing s c with
  | zero => rfl
  | succ k ih =>
    rcases @searchSectorsCall_step fs img memory path result c (k + 1) lag s hsize hlba hcounts k rfl with
      ⟨j, hj, _, _, hmatch, hreach, -⟩ | ⟨-, c', hc', hr⟩
    · rw [h _ (by omega) (by omega) hreach] at hmatch
      cases hmatch
    · rw [hr]
      exact ih (by omega) hc' fun e he hlt => h e (by omega) (by omega)

/-- An entry that is reached matches: the result is such an entry, whatever it was. -/
theorem searchSectorsCall_some (he : 16 * s ≤ e) (hlt : e < 16 * (s + k)) (hreach : Reached (countFileMetaEntries fs) lag e)
    (hmatch : entryMatches memory img path e = true) : ∃ e' result', 16 * s ≤ e' ∧ FoundAt fs img e' result' ∧
      searchSectorsCall fs memory img path k (1 + s) c result = .ok result' := by
  induction k generalizing s c lag result e with
  | zero => omega
  | succ k ih =>
    rcases @searchSectorsCall_step fs img memory path result c (k + 1) lag s hsize hlba hcounts k rfl with
      ⟨j, hj, result', c', -, -, -, hfound, hc', hr⟩ | ⟨hnone, c', hc', hr⟩
    · -- The sectors that follow may have one more.
      by_cases hlater : ∃ e, 16 * (s + 1) ≤ e ∧ e < 16 * (s + 1 + k) ∧
          Reached (countFileMetaEntries fs) (lag + (16 - j)) e ∧ entryMatches memory img path e = true
      · obtain ⟨e, he, hlt, hreach, hmatch⟩ := hlater
        obtain ⟨e', result'', he', hfound', hr'⟩ := ih (by omega) hc' he hlt hreach hmatch
        exact ⟨e', result'', by omega, hfound', hr.trans hr'⟩
      · refine ⟨16 * s + j, result', by omega, hfound, hr.trans ?_⟩
        refine searchSectorsCall_none hsize (by omega) hc' fun e he hlt hreach => ?_
        by_contra hmatch
        exact hlater ⟨e, he, hlt, hreach, by simpa using hmatch⟩
    · have hsector : 16 * (s + 1) ≤ e := next_sector_of_none hnone he hreach hmatch
      obtain ⟨e', result', he', hfound, hr'⟩ := ih (by omega) hc' hsector (by omega) hreach hmatch
      exact ⟨e', result', by omega, hfound, hr.trans hr'⟩

/-- Where the first match is reached, the search goes on behind its sector, with a count that lags behind. -/
theorem searchSectorsCall_first (he : 16 * s ≤ e) (hlt : e < 16 * (s + k))
    (hreach : Reached (countFileMetaEntries fs) lag e) (hmatch : entryMatches memory img path e = true)
    (hfirst : ∀ e', 16 * s ≤ e' → e' < e → entryMatches memory img path e' = false) :
    ∃ c' result', FoundAt fs img e result' ∧
      Counts (countFileMetaEntries fs) (lag + (16 - e % 16)) (e / 16 + 1) c' ∧
      searchSectorsCall fs memory img path k (1 + s) c result =
        searchSectorsCall fs memory img path (s + k - (e / 16 + 1)) (1 + (e / 16 + 1)) c' result' := by
  induction k generalizing s c with
  | zero => omega
  | succ k ih =>
    rcases @searchSectorsCall_step fs img memory path result c (k + 1) lag s hsize hlba hcounts k rfl with
      ⟨j, hj, result', c', hmatch', hreach', hbefore, hfound, hc', hr⟩ | ⟨hnone, c', hc', hr⟩
    · -- The match of the sector is the first one.
      obtain rfl : 16 * s + j = e := by
        rcases Nat.lt_trichotomy (16 * s + j) e with hlow | heq | hhigh
        · rw [hfirst _ (by omega) hlow] at hmatch'
          cases hmatch'
        · exact heq
        · have hmiss := hbefore (e - 16 * s) (by omega)
          rw [Nat.add_sub_of_le he, hmatch] at hmiss
          cases hmiss
      refine ⟨c', result', hfound, ?_, ?_⟩
      · rwa [show (16 * s + j) % 16 = j by omega, show (16 * s + j) / 16 = s by omega]
      · rw [hr, show (16 * s + j) / 16 = s by omega, show s + (k + 1) - (s + 1) = k by omega]
    · have hsector : 16 * (s + 1) ≤ e := next_sector_of_none hnone he hreach hmatch
      obtain ⟨c'', result', hfound, hc'', hr'⟩ := ih (by omega) hc' hsector (by omega) fun e' he' => hfirst e' (by omega)
      refine ⟨c'', result', hfound, hc'', ?_⟩
      rw [hr, hr', show s + 1 + k = s + (k + 1) by omega]

end

/-! ## The entry that is found -/

theorem FoundAt.found (h : FoundAt fs img e result) : result.1.found = true := by rw [h.result_eq]

theorem FoundAt.unique (h : FoundAt fs img e result) (h' : FoundAt fs img i result) : e = i := by
  have hsame := h.result_eq.symm.trans h'.result_eq
  rw [FileMetadataResult.mk.injEq] at hsame
  omega

theorem FirstNamed.unique {j : Nat} (h : FirstNamed fs img path i) (h' : FirstNamed fs img path j) : i = j := by
  rcases Nat.lt_trichotomy i j with hlt | heq | hgt
  · exact absurd h.named (h'.first i hlt)
  · exact heq
  · exact absurd h'.named (h.first j hgt)

theorem countFileMetaEntries_le (hsize : fs.sectorSize = 512) : countFileMetaEntries fs ≤ 16 * fs.fileMetaSectorCount := by
  simp only [countFileMetaEntries, sizeofFileMetadata, hsize]
  omega

/-- The FUSE driver's search finds the first entry with the name, if it gets there and the id does not wrap. -/
theorem FirstNamed.fileId_iff (hsize : fs.sectorSize = 512) (h : FirstNamed fs img path i) :
    getFileIdFromName fs img path = i + 1 ↔ i < 65535 ∧ i < countFileMetaEntries fs := by
  have hcount := countFileMetaEntries_le hsize
  have hlt := h.named.lt
  have hmiss : ∀ j < i, strcmpEq img (nameAt (fileMetaAt fs j)) path = false := fun j hj => by
    by_contra hfound
    exact h.first j hj (h.named.of_strcmpEq (by omega) (by simpa using hfound))
  by_cases hin : i < countFileMetaEntries fs
  · have hscan : scan (fun i => strcmpEq img (nameAt (fileMetaAt fs i)) path) (countFileMetaEntries fs) 0 = i :=
      (scan_eq_iff (Nat.zero_le _) hin (Nat.zero_le _)).mpr ⟨h.named.found, fun j _ hj => hmiss j hj⟩
    simp only [getFileIdFromName, hscan, if_pos hin]
    omega
  · have hscan : ¬ scan (fun i => strcmpEq img (nameAt (fileMetaAt fs i)) path) (countFileMetaEntries fs) 0 <
        countFileMetaEntries fs := fun hscan => by
      have hfound := scan_spec (p := fun i => strcmpEq img (nameAt (fileMetaAt fs i)) path) hscan
      rw [hmiss _ (by omega)] at hfound
      cases hfound
    simp only [getFileIdFromName, if_neg hscan]
    omega

/-- The search from the first sector on. -/
theorem counts_start (fs : FSMetadata) : Counts (countFileMetaEntries fs) 0 0 0 := .inl ⟨rfl, Nat.zero_le _⟩

/-- When it gets to the first entry with the name, the search goes on behind its sector. -/
theorem FirstNamed.search (hsize : fs.sectorSize = 512) (hlba : fs.fileMetaSectorCount ≤ 0xfffffff)
    (h : FirstNamed fs img path i) (hin : i < countFileMetaEntries fs) (memory fileMeta : Bytes) :
    ∃ c result, FoundAt fs img i result ∧ Counts (countFileMetaEntries fs) (16 - i % 16) (i / 16 + 1) c ∧
      tfsGetFileMetadataFromNameCall fs memory img path fileMeta = searchSectorsCall fs memory img path
        (fs.fileMetaSectorCount - (i / 16 + 1)) (1 + (i / 16 + 1)) c result := by
  have hlt := h.named.lt
  have hmatch : entryMatches memory img path i = true := (matches_eq hsize h.named.strlen).trans h.named.found
  obtain ⟨c, result, hfound, hcounts, hr⟩ := @searchSectorsCall_first fs img memory path (⟨false, 0, 0⟩, fileMeta) 0 i
    fs.fileMetaSectorCount 0 0 hsize (by omega) (counts_start fs) (Nat.zero_le i) (by omega) (.inr (by omega)) hmatch fun j _ hj => by
      rw [matches_eq hsize h.named.strlen]
      by_contra hsame
      exact h.first j hj (h.named.of_strcmpEq (by omega) (by simpa using hsame))
  rw [Nat.zero_add] at hcounts
  rw [Nat.zero_add] at hr
  exact ⟨c, result, hfound, hcounts, hr⟩

/-! ## When both drivers find the same -/

theorem findsFirst_of_agrees (hsize : fs.sectorSize = 512) (h : LookupAgrees fs img path) : FindsFirst fs img path := by
  have hlba : fs.fileMetaSectorCount ≤ 0xfffffff := by
    obtain ⟨result, hr, -⟩ := h (fun _ => 0) fun _ => 0
    rcases Nat.eq_zero_or_pos fs.fileMetaSectorCount with h0 | hpos
    · omega
    · have hle := sectors_le_of_ok (s := 0) hr hpos
      omega
  refine ⟨hlba, ?_⟩
  by_cases hex : ∃ i, HasName fs img path i
  · obtain ⟨i, hi⟩ : ∃ i, FirstNamed fs img path i := hex.elim fun _ hname => hname.exists_first
    obtain ⟨result, hr, hfound_iff, hfound⟩ := h (fun _ => 0) fun _ => 0
    obtain ⟨j, hj, hat, hid⟩ := hfound (hfound_iff.mpr hex)
    obtain rfl := hi.unique hj
    obtain ⟨hlt, hin⟩ := (hi.fileId_iff hsize).mp hid
    refine .inl ⟨i, hi, hlt, hin, fun e he hsector hreach hagree => ?_⟩
    obtain ⟨memory, hmatch⟩ := exists_matches hsize hagree
    rw [matches_eq hsize hi.named.strlen] at hmatch
    obtain ⟨c, result', -, hcounts, hr'⟩ := hi.search hsize hlba hin (fun _ => 0) fun _ => 0
    -- A later sector has an entry with the name, and the search returns one of those.
    obtain ⟨e', result'', he', hat', hr''⟩ := @searchSectorsCall_some fs img (fun _ => 0) path result' c e
      (fs.fileMetaSectorCount - (i / 16 + 1)) _ _ hsize (by omega) hcounts (by omega) (by omega) hreach
      ((matches_eq hsize hi.named.strlen).trans hmatch)
    obtain rfl : result = result'' := Res.ok.inj (hr.symm.trans (hr'.trans hr''))
    have hsame := hat.unique hat'
    omega
  · refine .inr ⟨fun i hi => hex ⟨i, hi⟩, fun e he hreach hagree => ?_⟩
    obtain ⟨memory, hmatch⟩ := exists_matches hsize hagree
    obtain ⟨result, hr, hfound_iff, -⟩ := h memory fun _ => 0
    obtain ⟨e', result', -, hat, hr'⟩ := @searchSectorsCall_some fs img memory path (⟨false, 0, 0⟩, fun _ => 0) 0 e
      fs.fileMetaSectorCount 0 0 hsize (by omega) (counts_start fs) (Nat.zero_le e) (by omega) hreach hmatch
    obtain rfl : result = result' := Res.ok.inj (hr.symm.trans hr')
    exact hex (hfound_iff.mp hat.found)

theorem agrees_of_findsFirst (hsize : fs.sectorSize = 512) (h : FindsFirst fs img path) : LookupAgrees fs img path := by
  intro memory fileMeta
  obtain ⟨hlba, ⟨i, hi, hlt, hin, hlater⟩ | ⟨hnone, hmiss⟩⟩ := h
  · obtain ⟨c, result, hat, hcounts, hr⟩ := hi.search hsize hlba hin memory fileMeta
    have hname := hi.named.lt
    have hrest := @searchSectorsCall_none fs img memory path result c (fs.fileMetaSectorCount - (i / 16 + 1)) _ _ hsize
      (by omega) hcounts fun e he hlt hreach => by
        by_contra hmatch
        exact hlater e (by omega) (by omega) hreach (agreesInSector_of_matches hsize (by simpa using hmatch))
    exact ⟨result, hr.trans hrest, iff_of_true hat.found ⟨i, hi.named⟩,
      fun _ => ⟨i, hi, hat, (hi.fileId_iff hsize).mpr ⟨hlt, hin⟩⟩⟩
  · have hr := @searchSectorsCall_none fs img memory path (⟨false, 0, 0⟩, fileMeta) 0 fs.fileMetaSectorCount 0 0 hsize
      (by omega) (counts_start fs) fun e _ hlt hreach => by
        by_contra hmatch
        exact hmiss e (by omega) hreach (agreesInSector_of_matches hsize (by simpa using hmatch))
    refine ⟨_, hr, iff_of_false nofun fun ⟨i, hi⟩ => hnone i hi, nofun⟩

/-- The kernel finds what the FUSE driver finds exactly when no later sector has an
entry that is compared and has the same name, and no free slot is compared to the empty path. -/
theorem lookupAgrees_iff (img : Bytes) (path : CStr) (hsize : (fsMeta img).sectorSize = 512) :
    LookupAgrees (fsMeta img) img path ↔ FindsFirst (fsMeta img) img path :=
  ⟨findsFirst_of_agrees hsize, agrees_of_findsFirst hsize⟩

/-! ## Short names -/

/-- What `viewMetadata` finds, as the call returns it. -/
def resultOf : Option (Nat × Nat) → FileMetadataResult
  | none => ⟨false, 0, 0⟩
  | some (lba, offset) => ⟨true, lba, offset⟩

theorem searchSectorsCall_short (hsize : fs.sectorSize = 512) (hlba : s + k ≤ 0xfffffff) (hlen : path.strlen < 24)
    (found : Option (Nat × Nat)) (fileMeta : Bytes) : ∃ fileMeta',
      searchSectorsCall fs memory img path k (1 + s) c (resultOf found, fileMeta) =
        .ok (resultOf (viewSearch fs img path k (1 + s) c found), fileMeta') := by
  have hperSector : fs.sectorSize / sizeofFileMetadata = 16 := by
    rw [hsize]
    rfl
  induction k generalizing s c found fileMeta with
  | zero => exact ⟨fileMeta, rfl⟩
  | succ k ih =>
    have hsame : searchEntries (fun j => strcmpEq (sectorBuffer memory img (1 + s)) (nameAt (sizeofFileMetadata * j)) path)
        (tfsCountFileMetaEntries fs) 16 0 c =
      searchEntries (fun j => strcmpEq (diskSector img (1 + s)) (nameAt (sizeofFileMetadata * j)) path)
        (tfsCountFileMetaEntries fs) 16 0 c := searchEntries_congr fun j _ hj => by
      refine strcmpEq_congr fun a _ ha' => ?_
      rw [sectorBuffer, copy_in (Nat.zero_le a) (by simp only [nameAt, sizeofFileMetadata] at ha'; omega), Nat.sub_zero]
    rw [searchSectorsCall, viewSearch, Res.assert_bind (by omega), hperSector]
    dsimp only
    rw [hsame]
    generalize searchEntries _ _ _ _ _ = r
    obtain ⟨_ | j, c'⟩ := r
    · exact ih (s := s + 1) (c := c') (by omega) found fileMeta
    · exact ih (s := s + 1) (c := c') (by omega) (some (1 + s, sizeofFileMetadata * j)) _

/-- For a name shorter than 24 bytes, the call finds what `viewMetadata` does. -/
theorem tfsGetFileMetadataFromNameCall_short (hsize : fs.sectorSize = 512) (hlba : fs.fileMetaSectorCount ≤ 0xfffffff)
    (hlen : path.strlen < 24) (memory img fileMeta : Bytes) : ∃ fileMeta',
      tfsGetFileMetadataFromNameCall fs memory img path fileMeta =
        .ok (resultOf (viewMetadata fs img path), fileMeta') :=
  searchSectorsCall_short (s := 0) hsize (by omega) hlen none fileMeta

/-! ## One and two files of a name -/

/-- A default image with the byte `a` at the addresses `l`. -/
def withNames (l : List Nat) : Bytes := fun a => if a ∈ l then 0x61 else formatImage {} (fun _ => 0) a

theorem fsMeta_withNames {l : List Nat} (hl : ∀ a ∈ l, 32 ≤ a) : fsMeta (withNames l) = headerOf {} := by
  have hheader : fsMeta (withNames l) = fsMeta (formatImage {} fun _ => 0) :=
    fsMeta_congr fun a _ => if_neg fun hmem => by
      have hle := hl a hmem
      omega
  rw [hheader]
  exact fsMeta_formatImage geometry_default

theorem withNames_zero {l : List Nat} {a : Nat} (ha : a ∉ l) (h : 32 ≤ a) (h' : a < 512000) : withNames l a = 0 := by
  rw [withNames, if_neg ha]
  exact formatImage_zero geometry_default h h'

/-- An entry with the name `a`. -/
theorem hasName_withNames {l : List Nat} {i : Nat} (hi : i < 160) (hl : 520 + 32 * i ∈ l) (hl' : 521 + 32 * i ∉ l) :
    HasName (headerOf {}) (withNames l) ⟨[0x61], by decide⟩ i := by
  have hname : withNames l (nameAt (fileMetaAt (headerOf {}) i)) = 0x61 := by
    rw [show nameAt (fileMetaAt (headerOf {}) i) = 520 + 32 * i from Nat.add_right_comm 512 (32 * i) 8]
    exact if_pos hl
  have hend : withNames l (nameAt (fileMetaAt (headerOf {}) i) + 1) = 0 := by
    rw [show nameAt (fileMetaAt (headerOf {}) i) + 1 = 521 + 32 * i by
      show 512 + 32 * i + 8 + 1 = _
      omega]
    exact withNames_zero hl' (by omega) (by omega)
  refine ⟨hi, by decide, ?_, ?_⟩
  · rw [fileMetadataEntryIsFree, hname]
    rfl
  · simp [strcmpEq, hasChars, hname, hend]

/-- The one file of a name is found by both drivers. -/
theorem lookupAgrees_oneName : LookupAgrees (fsMeta (withNames [520])) (withNames [520]) ⟨[0x61], by decide⟩ := by
  have hheader : fsMeta (withNames [520]) = headerOf {} := fsMeta_withNames (by decide)
  refine (lookupAgrees_iff (withNames [520]) ⟨[0x61], by decide⟩ (by rw [hheader]; rfl)).mpr ?_
  rw [hheader]
  refine ⟨by decide, .inl ⟨0, ⟨hasName_withNames (by decide) (by decide) (by decide), fun j hj => absurd hj (Nat.not_lt_zero j)⟩,
    by decide, by decide, fun e he hsector _ hagree => ?_⟩⟩
  -- The other entries are free.
  have he' : e < 160 := he
  have hbyte := hagree 0 (Nat.zero_le _) (by simp only [nameAt]; omega)
  have hzero : withNames [520] (nameAt (fileMetaAt (headerOf {}) e) + 0) = 0 := by
    have hat : nameAt (fileMetaAt (headerOf {}) e) = 512 + 32 * e + 8 := rfl
    exact withNames_zero (by simp; omega) (by omega) (by omega)
  rw [hzero] at hbyte
  cases hbyte

/-- Of two files with one name, in two sectors, the kernel finds the later one. -/
theorem lookupAgrees_fails : ¬ ∀ img path, (fsMeta img).sectorSize = 512 → LookupAgrees (fsMeta img) img path := by
  intro hall
  have hheader : fsMeta (withNames [520, 1032]) = headerOf {} := fsMeta_withNames (by decide)
  have hsize : (fsMeta (withNames [520, 1032])).sectorSize = 512 := by rw [hheader]; rfl
  have h := findsFirst_of_agrees hsize (hall (withNames [520, 1032]) ⟨[0x61], by decide⟩ hsize)
  rw [hheader] at h
  have hfirst : HasName (headerOf {}) (withNames [520, 1032]) ⟨[0x61], by decide⟩ 0 :=
    hasName_withNames (by decide) (by decide) (by decide)
  have hsecond : HasName (headerOf {}) (withNames [520, 1032]) ⟨[0x61], by decide⟩ 16 :=
    hasName_withNames (by decide) (by decide) (by decide)
  obtain ⟨-, ⟨i, hi, -, -, hlater⟩ | ⟨hnone, -⟩⟩ := h
  · have hzero : i = 0 := by
      by_contra hne
      exact hi.first 0 (Nat.pos_of_ne_zero hne) hfirst
    rw [hzero] at hlater
    exact hlater 16 (by decide) (by decide) (.inl rfl) fun k hk _ => strcmpEq_iff.mp hsecond.found k hk
  · exact hnone 0 hfirst

end OSForReal.Proof.Tfs
