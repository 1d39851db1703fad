import OSForReal.Proof.TagFS.Indices

/-!
# Writing a tag

What `write_tag` is to do (`WritesTag`). Its search goes on while the entry is
free and stops at the first one in use (`tagMetaSearch_ok_iff`), which the name
overwrites. So nothing is right where an entry is free (`not_writesTag`), and
where none is the image stays as it is only if the name is already where the
search ends (`HasTag`).
-/

namespace OSForReal.Proof.TagFS

open Framework
open Framework.Bytes
open OSForReal.TagFS

variable {fs : FSMetadata} {img img' : Bytes} {name : CStr} {pages fuel e e' i j : Nat}

/-- What writing the tag `name` is to make of an image: the first free entry
holds the name, the others and all bytes outside the section are kept. An image
without a free entry is left as it is. -/
structure WritesTag (fs : FSMetadata) (name : CStr) (img img' : Bytes) : Prop where
  stored : findFreeTag fs img < tagMetaEntryCount fs → strcmpEq img' (tagMetaAt fs (findFreeTag fs img)) name = true
  kept : ∀ i < tagMetaEntryCount fs, tagMetadataEntryIsFree img (tagMetaAt fs i) = false →
    ∀ k < sizeofTagMetadata, img' (tagMetaAt fs i + k) = img (tagMetaAt fs i + k)
  outside : ∀ a < imageSize fs, a < getTagMetadata fs ∨ getTagFileArray fs ≤ a → img' a = img a
  full : (∀ i < tagMetaEntryCount fs, tagMetadataEntryIsFree img (tagMetaAt fs i) = false) →
    ∀ a < imageSize fs, img' a = img a

/-- The entry `j`, counted from the tag section on, is the first in use. -/
structure FirstInUse (fs : FSMetadata) (img : Bytes) (j : Nat) : Prop where
  lt : tagMetaAt fs j < imageSize fs
  used : tagMetadataEntryIsFree img (tagMetaAt fs j) = false
  before : ∀ k < j, tagMetadataEntryIsFree img (tagMetaAt fs k) = true

/-- No tag entry is free, and the name is in the first entry in use. -/
def HasTag (pages : Nat) (fs : FSMetadata) (name : CStr) (img : Bytes) : Prop :=
  (∀ i < tagMetaEntryCount fs, tagMetadataEntryIsFree img (tagMetaAt fs i) = false) ∧
    ∃ j, FirstInUse fs img j ∧ tagMetaAt fs j + name.strlen < pages ∧
      ∀ k ≤ name.strlen, tagMetaAt fs j + k < imageSize fs → img (tagMetaAt fs j + k) = name.chars.getD k 0

/-! ## The search -/

theorem tagMetaStep_free (he : e < pages) (hfree : tagMetadataEntryIsFree img e = true) :
    tagMetaStep pages img e = .ok (.inl (e + 32)) := by
  rw [tagMetaStep, Res.assert_bind he, if_pos hfree]

theorem tagMetaStep_used (he : e < pages) (hused : tagMetadataEntryIsFree img e = false) :
    tagMetaStep pages img e = .ok (.inr e) := by
  rw [tagMetaStep, Res.assert_bind he, hused, if_neg (by decide)]

/-- The search ends at the first entry in use. -/
theorem tagMetaSearch_ok_iff : Res.loop (tagMetaStep pages img) fuel e = .ok e' ↔
    ∃ j < fuel, e' = e + 32 * j ∧ e' < pages ∧ tagMetadataEntryIsFree img e' = false ∧
      ∀ k < j, tagMetadataEntryIsFree img (e + 32 * k) = true := by
  induction fuel generalizing e with
  | zero =>
    constructor
    · intro h
      cases h
    · rintro ⟨j, hj, -⟩
      exact absurd hj (Nat.not_lt_zero j)
  | succ fuel ih =>
    by_cases he : e < pages
    · cases hfree : tagMetadataEntryIsFree img e with
      | false =>
        rw [Res.loop_leave (tagMetaStep_used he hfree)]
        constructor
        · intro h
          obtain rfl := Res.ok.inj h
          exact ⟨0, Nat.succ_pos fuel, rfl, he, hfree, fun k hk => absurd hk (Nat.not_lt_zero k)⟩
        · rintro ⟨j, -, hj, -, -, hbefore⟩
          -- An entry in use ends the search, so that it is the first.
          cases j with
          | zero => rw [hj, Nat.mul_zero, Nat.add_zero]
          | succ j =>
            have h0 := hbefore 0 (Nat.succ_pos j)
            rw [Nat.mul_zero, Nat.add_zero, hfree] at h0
            cases h0
      | true =>
        rw [Res.loop_continue (tagMetaStep_free he hfree), ih]
        constructor
        · rintro ⟨j, hj, he', hlt, hused, hbefore⟩
          refine ⟨j + 1, by omega, by omega, hlt, hused, fun k hk => ?_⟩
          cases k with
          | zero => exact hfree
          | succ k =>
            have hk' := hbefore k (by omega)
            rwa [show e + 32 + 32 * k = e + 32 * (k + 1) by omega] at hk'
        · rintro ⟨j, hj, he', hlt, hused, hbefore⟩
          cases j with
          | zero =>
            rw [he', Nat.mul_zero, Nat.add_zero, hfree] at hused
            cases hused
          | succ j =>
            refine ⟨j, by omega, by omega, hlt, hused, fun k hk => ?_⟩
            rw [show e + 32 + 32 * k = e + 32 * (k + 1) by omega]
            exact hbefore (k + 1) (by omega)
    · have hstop : Res.loop (tagMetaStep pages img) (fuel + 1) e = .halt := by
        rw [Res.loop_succ, tagMetaStep, Res.assert, if_neg he]
        rfl
      rw [hstop]
      constructor
      · intro h
        cases h
      · rintro ⟨j, -, he', hlt, -⟩
        omega

/-! ## The command -/

theorem mappedImg_of_lt {a : Nat} (h : a < imageSize fs) : mappedImg fs img a = img a := if_pos h

/-- The mapping has an entry in use where the image has one. -/
theorem mappedImg_used : tagMetadataEntryIsFree (mappedImg fs img) e = false ↔
    e < imageSize fs ∧ tagMetadataEntryIsFree img e = false := by
  unfold tagMetadataEntryIsFree mappedImg
  by_cases he : e < imageSize fs <;> simp [he]

/-- The command stores the name in the first entry in use. -/
theorem writeTag_ok_iff (hpages : imageSize (fsMeta img) ≤ pages) (hname : name.strlen < 28) :
    writeTag pages name img = .ok img' ↔ ∃ j, FirstInUse (fsMeta img) img j ∧
      tagMetaAt (fsMeta img) j + name.strlen < pages ∧
      img' = strcpy (mappedImg (fsMeta img) img) (tagMetaAt (fsMeta img) j) name := by
  have hfree : ∀ {e}, e < imageSize (fsMeta img) →
      (tagMetadataEntryIsFree (mappedImg (fsMeta img) img) e = true ↔ tagMetadataEntryIsFree img e = true) := by
    intro e he
    rw [tagMetadataEntryIsFree, tagMetadataEntryIsFree, mappedImg_of_lt he]
  simp only [writeTag, Res.assert_bind hname, Res.bind_eq_ok, tagMetaSearch_ok_iff, Res.assert_eq_ok]
  constructor
  · rintro ⟨e, ⟨j, hj, he, hlt, hused, hbefore⟩, _, hfits, hr⟩
    obtain rfl : e = tagMetaAt (fsMeta img) j := he
    obtain ⟨hin, hused⟩ := mappedImg_used.mp hused
    refine ⟨j, ⟨hin, hused, fun k hk => ?_⟩, hfits, (Res.ok.inj hr).symm⟩
    have hkin : tagMetaAt (fsMeta img) k < imageSize (fsMeta img) := by
      simp only [tagMetaAt, sizeofTagMetadata] at hin ⊢
      omega
    exact (hfree hkin).mp (hbefore k hk)
  · rintro ⟨j, ⟨hin, hused, hbefore⟩, hfits, hr⟩
    have hj : j ≤ tagMetaAt (fsMeta img) j := by
      simp only [tagMetaAt, sizeofTagMetadata]
      omega
    refine ⟨tagMetaAt (fsMeta img) j, ⟨j, by omega, rfl, by omega, mappedImg_used.mpr ⟨hin, hused⟩, fun k hk => ?_⟩, (),
      hfits, congrArg Res.ok hr.symm⟩
    have hkin : tagMetaAt (fsMeta img) k < imageSize (fsMeta img) := by
      simp only [tagMetaAt, sizeofTagMetadata] at hin ⊢
      omega
    exact (hfree hkin).mpr (hbefore k hk)

/-- The tag section lies in the image. -/
theorem Geometry.tags_within (G : Geometry fs) : getTagMetadata fs + 32 * tagMetaEntryCount fs ≤ imageSize fs := by
  have L := G.layout
  have hfiles := L.files; have htags := L.tags; have hlinks := L.links; have hfats := L.fats
  have hdata : getData fs ≤ imageSize fs := by
    have htotal := G.total
    have hsections := Nat.mul_le_mul_right fs.sectorSize (Nat.le_trans (Nat.le_add_right _ (fatCount fs)) G.data)
    rw [getData, imageSize, Nat.mod_eq_of_lt (by omega), Nat.mod_eq_of_lt (by omega)]
    exact hsections
  omega

/-- Where an entry is free, the name is not stored in one. -/
theorem not_writesTag (G : Geometry fs) (hname : 1 ≤ name.strlen) (hname' : name.strlen < 28)
    (hfree : findFreeTag fs img < tagMetaEntryCount fs) (hj : FirstInUse fs img j) :
    ¬ WritesTag fs name img (strcpy (mappedImg fs img) (tagMetaAt fs j) name) := by
  intro h
  have hin := G.tags_within
  have hnul : tagMetadataEntryIsFree img (tagMetaAt fs (findFreeTag fs img)) = true := findFreeTag_free hfree
  have hne : findFreeTag fs img ≠ j := fun he => by
    rw [he, hj.used] at hnul
    cases hnul
  -- The free entry is not the one that is written to.
  have hsame : strcpy (mappedImg fs img) (tagMetaAt fs j) name (tagMetaAt fs (findFreeTag fs img)) =
      img (tagMetaAt fs (findFreeTag fs img)) := by
    rw [strcpy, copy_out ?_, mappedImg_of_lt ?_]
    · simp only [tagMetaAt, sizeofTagMetadata]
      omega
    · simp only [tagMetaAt, sizeofTagMetadata]
      omega
  have h0 : strcpy (mappedImg fs img) (tagMetaAt fs j) name (tagMetaAt fs (findFreeTag fs img)) = 0 := by
    rw [hsame]
    simpa [tagMetadataEntryIsFree] using hnul
  have hempty : name.chars = [] := (strcmpEq_first (h.stored hfree)).mp h0
  rw [CStr.strlen, hempty] at hname
  exact absurd hname (by decide)

theorem findFreeTag_lt_of_free (hi : i < tagMetaEntryCount fs) (hfree : tagMetadataEntryIsFree img (tagMetaAt fs i) = true) :
    findFreeTag fs img < tagMetaEntryCount fs := by
  by_contra hle
  have hused := findFreeTag_before (Nat.lt_of_lt_of_le hi (Nat.le_of_not_lt hle))
  rw [hfree] at hused
  cases hused

/-- Writing the name where it is already leaves the image. -/
theorem writesTag_of_same (L : getTagMetadata fs + 32 * tagMetaEntryCount fs ≤ imageSize fs)
    (hfull : ∀ i < tagMetaEntryCount fs, tagMetadataEntryIsFree img (tagMetaAt fs i) = false)
    (hsame : ∀ a < imageSize fs, img' a = img a) : WritesTag fs name img img' := by
  refine ⟨fun hlt => ?_, fun i hi _ k hk => hsame _ ?_, fun a ha _ => hsame a ha, fun _ => hsame⟩
  · have hfree := findFreeTag_free hlt
    rw [hfull _ hlt] at hfree
    cases hfree
  · simp only [tagMetaAt, sizeofTagMetadata] at hk ⊢
    omega

/-- `write_tag` does what it is to do only for a tag that is there already, in an image without a free tag entry. -/
theorem writeTag_writesTag_iff (G : Geometry (fsMeta img)) (hpages : imageSize (fsMeta img) ≤ pages)
    (hname : 1 ≤ name.strlen) (hname' : name.strlen < 28) :
    (∃ img', writeTag pages name img = .ok img' ∧ WritesTag (fsMeta img) name img img') ↔
      HasTag pages (fsMeta img) name img := by
  constructor
  · rintro ⟨img', hr, hwrites⟩
    obtain ⟨j, hj, hfits, rfl⟩ := (writeTag_ok_iff hpages hname').mp hr
    have hfull : ∀ i < tagMetaEntryCount (fsMeta img),
        tagMetadataEntryIsFree img (tagMetaAt (fsMeta img) i) = false := by
      intro i hi
      by_contra hfree
      exact not_writesTag G hname hname' (findFreeTag_lt_of_free hi (by simpa using hfree)) hj hwrites
    refine ⟨hfull, j, hj, hfits, fun k hk hin => ?_⟩
    have hkeep := hwrites.full hfull _ hin
    rw [strcpy, copy_in (by omega) (by omega), Nat.add_sub_cancel_left] at hkeep
    exact hkeep.symm
  · rintro ⟨hfull, j, hj, hfits, hsame⟩
    refine ⟨_, (writeTag_ok_iff hpages hname').mpr ⟨j, hj, hfits, rfl⟩,
      writesTag_of_same G.tags_within hfull fun a ha => ?_⟩
    by_cases hin : tagMetaAt (fsMeta img) j ≤ a ∧ a < tagMetaAt (fsMeta img) j + (name.strlen + 1)
    · have hbyte := hsame (a - tagMetaAt (fsMeta img) j) (by omega) (by omega)
      rw [show tagMetaAt (fsMeta img) j + (a - tagMetaAt (fsMeta img) j) = a by omega] at hbyte
      rw [strcpy, copy_in hin.1 hin.2, hbyte]
    · rw [strcpy, copy_out (by omega), mappedImg_of_lt ha]

/-! ## Two images -/

/-- A default image in which every tag entry has the name `a`. -/
def fullTags : Bytes := fun a =>
  if 5632 ≤ a ∧ a < 10752 then if a % 32 = 0 then 0x61 else 0 else formatImage {} (fun _ => 0) a

theorem fsMeta_fullTags : fsMeta fullTags = headerOf {} := by
  have hheader : fsMeta fullTags = fsMeta (formatImage {} fun _ => 0) := by
    unfold fsMeta
    congr 1
  rw [hheader]
  exact fsMeta_formatImage geometry_default

/-- Writing `a` to it leaves it as it is. -/
theorem writeTag_fullTags : Geometry (fsMeta fullTags) ∧ imageSize (fsMeta fullTags) ≤ 512000 ∧
    ∃ img', writeTag 512000 ⟨[0x61], by decide⟩ fullTags = .ok img' ∧
      WritesTag (fsMeta fullTags) ⟨[0x61], by decide⟩ fullTags img' := by
  have hG : Geometry (fsMeta fullTags) := fsMeta_fullTags ▸ geometry_default
  have hsize : imageSize (fsMeta fullTags) ≤ 512000 := by
    rw [fsMeta_fullTags]
    decide
  refine ⟨hG, hsize, (writeTag_writesTag_iff hG hsize (by decide) (by decide)).mpr ?_⟩
  rw [fsMeta_fullTags]
  refine ⟨fun i hi => ?_, 0, ⟨by decide, by decide, fun k hk => absurd hk (Nat.not_lt_zero k)⟩, by decide, ?_⟩
  · have hi' : i < 160 := hi
    have hname : fullTags (tagMetaAt (headerOf {}) i) = 0x61 := by
      show fullTags (5632 + 32 * i) = 0x61
      rw [fullTags, if_pos (by omega), if_pos (by omega)]
    rw [tagMetadataEntryIsFree, hname]
    rfl
  · decide

/-- A default image with the tag `a`. -/
def oneTag : Bytes := fun a => if a = 5632 then 0x61 else formatImage {} (fun _ => 0) a

theorem fsMeta_oneTag : fsMeta oneTag = headerOf {} := by
  have hheader : fsMeta oneTag = fsMeta (formatImage {} fun _ => 0) := by
    unfold fsMeta
    congr 1
  rw [hheader]
  exact fsMeta_formatImage geometry_default

/-- Writing the tag `b` to it does not do what it is to do. -/
theorem writeTag_writesTag_fails : ¬ ∀ pages name img, Geometry (fsMeta img) → imageSize (fsMeta img) ≤ pages →
    1 ≤ name.strlen → name.strlen < 28 →
    ∃ img', writeTag pages name img = .ok img' ∧ WritesTag (fsMeta img) name img img' := by
  intro hall
  have hG : Geometry (fsMeta oneTag) := fsMeta_oneTag ▸ geometry_default
  have hsize : imageSize (fsMeta oneTag) ≤ 512000 := by
    rw [fsMeta_oneTag]
    decide
  obtain ⟨img', hr, hwrites⟩ := hall 512000 ⟨[0x62], by decide⟩ oneTag hG hsize (by decide) (by decide)
  obtain ⟨j, hj, -, rfl⟩ := (writeTag_ok_iff hsize (by decide)).mp hr
  -- The entry after that of the tag is free.
  have hfree : tagMetadataEntryIsFree oneTag (tagMetaAt (fsMeta oneTag) 1) = true := by
    rw [fsMeta_oneTag]
    show oneTag 5664 == 0
    rw [oneTag, if_neg (by decide), formatImage_zero geometry_default (by decide) (by decide)]
    rfl
  have hcount : 1 < tagMetaEntryCount (fsMeta oneTag) := by
    rw [fsMeta_oneTag]
    decide
  exact not_writesTag hG (by decide) (by decide) (findFreeTag_lt_of_free hcount hfree) hj hwrites

end OSForReal.Proof.TagFS
