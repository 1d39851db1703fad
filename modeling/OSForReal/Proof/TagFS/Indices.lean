import OSForReal.Proof.TagFS.FuseRuns
import OSForReal.Proof.TagFS.Usable
import OSForReal.TagFS.Indices

/-!
# The 16-bit indices of `write_files`

What a use of a 16-bit index is for (`NoWrap`), and when it is that
(`InRange`): the entry that is found or linked is below 65535, or the table has
no more than 65535 entries by the header as it is then. In a command whose every
use is in range no index wraps and every loop ends, and in no other
(`writeFiles_noWrap_iff`). On an image whose sections begin behind its header
(`HeaderApart`), with tables of at most 65535 entries, the header stays as it is
and the command is that of `TagFS.Tfsfmt` (`writeFiles16_val`).
-/

namespace OSForReal.Proof.TagFS

open Framework
open Framework.Bytes
open OSForReal.TagFS

variable {α β : Type} {fs : FSMetadata} {img : Bytes} {src : List UInt8} {name dst spec : CStr} {tags specs : List CStr}
  {files : CStr → Option (List UInt8)} {P : IndexEvent → Prop} {fuel f g c n : Nat}

/-! ## The tag table -/

/-- The tag entry of a name: the first one, or the number of entries if there is none. -/
def findTag (fs : FSMetadata) (img : Bytes) (name : CStr) : Nat :=
  scan (fun i => strcmpEq img (tagMetaAt fs i) name) (tagMetaEntryCount fs) 0

/-- The entry for a new tag: the first one that is free, or the number of entries if none is. -/
def findFreeTag (fs : FSMetadata) (img : Bytes) : Nat :=
  scan (fun i => tagMetadataEntryIsFree img (tagMetaAt fs i)) (tagMetaEntryCount fs) 0

theorem findFreeFileMeta_le : findFreeFileMeta fs img ≤ countFileMetaEntries fs := scan_le (Nat.zero_le _)

theorem findTag_before {k : Nat} (h : k < findTag fs img name) : strcmpEq img (tagMetaAt fs k) name = false :=
  scan_before (p := fun i => strcmpEq img (tagMetaAt fs i) name) (Nat.zero_le k) h

theorem findFreeTag_free (h : findFreeTag fs img < tagMetaEntryCount fs) :
    tagMetadataEntryIsFree img (tagMetaAt fs (findFreeTag fs img)) = true :=
  scan_spec (p := fun i => tagMetadataEntryIsFree img (tagMetaAt fs i)) h

theorem findFreeTag_before {k : Nat} (h : k < findFreeTag fs img) : tagMetadataEntryIsFree img (tagMetaAt fs k) = false :=
  scan_before (p := fun i => tagMetadataEntryIsFree img (tagMetaAt fs i)) (Nat.zero_le k) h

/-- What `find_or_create_tag` returns, and the image it leaves. -/
theorem findOrCreateTag_eq (fs : FSMetadata) (img : Bytes) (name : CStr) :
    findOrCreateTag fs img name =
      if findTag fs img name < tagMetaEntryCount fs then (findTag fs img name + 1, img)
      else if findFreeTag fs img < tagMetaEntryCount fs then
        (findFreeTag fs img + 1, strcpy img (tagMetaAt fs (findFreeTag fs img)) name)
      else (0, img) := rfl

/-- The id of a tag is no more than the number of entries. -/
theorem findOrCreateTag_le : (findOrCreateTag fs img name).1 ≤ tagMetaEntryCount fs := by
  rw [findOrCreateTag_eq]
  split
  · rename_i hlt
    exact hlt
  · split
    · rename_i hlt
      exact hlt
    · exact Nat.zero_le _

/-! ## Uses of an index -/

/-- Where the search for a free file entry ends, in a table as long as the header says. -/
def freeFileSearch (fs : FSMetadata) (img : Bytes) : Nat :=
  scan (fun i => fileMetadataEntryIsFree img (fileMetaAt fs i)) (countFileMetaEntries (fsMeta img)) 0

/-- Where the search for a tag ends. -/
def tagSearch (fs : FSMetadata) (img : Bytes) (name : CStr) : Nat :=
  scan (fun i => strcmpEq img (tagMetaAt fs i) name) (tagMetaEntryCount (fsMeta img)) 0

/-- Where the search for an entry for a new tag ends. -/
def freeTagSearch (fs : FSMetadata) (img : Bytes) : Nat :=
  scan (fun i => tagMetadataEntryIsFree img (tagMetaAt fs i)) (tagMetaEntryCount (fsMeta img)) 0

/-- The index serves its purpose. The search for a file entry ends, and the id
is that of the entry found plus one. `find_or_create_tag` returns, and 0 only if
there is no tag of the name and no entry for it. A link is that to the next sector. -/
def NoWrap (fs : FSMetadata) : IndexEvent → Prop
  | .fileSearch img => ∃ fuel i, findFreeFileMeta16 fuel fs img = .ok i ∧
      (i < countFileMetaEntries (fsMeta img) → (i + 1) % 2 ^ 16 = i + 1)
  | .tagSearch img name => ∃ fuel id img', findOrCreateTag16 fuel fs img name = .ok (id, img') ∧
      (id = 0 → (∀ k < tagMetaEntryCount (fsMeta img), strcmpEq img (tagMetaAt fs k) name = false) ∧
        ∀ k < tagMetaEntryCount (fsMeta img), tagMetadataEntryIsFree img (tagMetaAt fs k) = false)
  | .link fatIndex stored => stored = fatIndex ∧ stored ≠ 0 ∧ stored ≠ 0xffff

/-- The entry is below 65535, or the table has no more than 65535 entries. -/
def InRange (fs : FSMetadata) : IndexEvent → Prop
  | .fileSearch img => freeFileSearch fs img < 65535 ∨ countFileMetaEntries (fsMeta img) ≤ 65535
  | .tagSearch img name => tagSearch fs img name < 65535 ∨ tagMetaEntryCount (fsMeta img) ≤ 65535
  | .link fatIndex _ => fatIndex < 65535

/-- The searches of `InRange`, whatever is linked. -/
def SearchInRange (fs : FSMetadata) : IndexEvent → Prop
  | .link _ _ => True
  | e => InRange fs e

/-- A link is to a later sector, and what is stored is its index in 16 bits. -/
def Stores : IndexEvent → Prop
  | .link fatIndex stored => 0 < fatIndex ∧ stored = fatIndex % 2 ^ 16
  | _ => True

theorem freeFileSearch_le : freeFileSearch fs img ≤ countFileMetaEntries (fsMeta img) := scan_le (Nat.zero_le _)

theorem tagSearch_le : tagSearch fs img name ≤ tagMetaEntryCount (fsMeta img) := scan_le (Nat.zero_le _)

theorem freeTagSearch_le : freeTagSearch fs img ≤ tagMetaEntryCount (fsMeta img) := scan_le (Nat.zero_le _)

/-- The search for a file entry, when it ends. -/
theorem findFreeFileMeta16_eq (hfuel : 2 ^ 16 ≤ fuel) (h : InRange fs (.fileSearch img)) :
    findFreeFileMeta16 fuel fs img = .ok (freeFileSearch fs img) := by
  have hle := @freeFileSearch_le fs img
  have hrange : freeFileSearch fs img < 65535 ∨ countFileMetaEntries (fsMeta img) ≤ 65535 := h
  exact wrapScan_eq (show freeFileSearch fs img < 2 ^ 16 by omega) hfuel

theorem noWrap_fileSearch_iff : NoWrap fs (.fileSearch img) ↔ InRange fs (.fileSearch img) := by
  have hle := @freeFileSearch_le fs img
  constructor
  · intro ⟨fuel, i, hr, hid⟩
    obtain ⟨hlt, rfl⟩ := (wrapScan_ok_iff (by decide)).mp ⟨fuel, hr⟩
    show freeFileSearch fs img < 65535 ∨ countFileMetaEntries (fsMeta img) ≤ 65535
    have hlt' : freeFileSearch fs img < 2 ^ 16 := hlt
    have hid' : freeFileSearch fs img < countFileMetaEntries (fsMeta img) →
        (freeFileSearch fs img + 1) % 2 ^ 16 = freeFileSearch fs img + 1 := hid
    omega
  · intro h
    have h' : freeFileSearch fs img < 65535 ∨ countFileMetaEntries (fsMeta img) ≤ 65535 := h
    exact ⟨2 ^ 16, freeFileSearch fs img, findFreeFileMeta16_eq (Nat.le_refl _) h, fun hlt => by omega⟩

/-- What `find_or_create_tag` does, when its loops end and the id does not wrap. -/
theorem findOrCreateTag16_eq (hfuel : 2 ^ 16 ≤ fuel) (h : InRange fs (.tagSearch img name)) :
    findOrCreateTag16 fuel fs img name =
      .ok (if tagSearch fs img name < tagMetaEntryCount (fsMeta img) then (tagSearch fs img name + 1, img)
        else if freeTagSearch fs img < tagMetaEntryCount (fsMeta img) then
          (freeTagSearch fs img + 1, strcpy img (tagMetaAt fs (freeTagSearch fs img)) name)
        else (0, img)) := by
  have hle := @tagSearch_le fs img name
  have hle' := @freeTagSearch_le fs img
  have hrange : tagSearch fs img name < 65535 ∨ tagMetaEntryCount (fsMeta img) ≤ 65535 := h
  have hsearch : wrapScan (2 ^ 16) (fun i => strcmpEq img (tagMetaAt fs i) name) (tagMetaEntryCount (fsMeta img)) fuel =
      .ok (tagSearch fs img name) :=
    wrapScan_eq (show tagSearch fs img name < 2 ^ 16 by omega) hfuel
  simp only [findOrCreateTag16, hsearch, Res.ok_bind]
  by_cases hfound : tagSearch fs img name < tagMetaEntryCount (fsMeta img)
  · rw [if_pos hfound, if_pos hfound, Nat.mod_eq_of_lt (by omega)]
  · -- The name is in no entry, and the table has no more than 65535.
    have hfree : wrapScan (2 ^ 16) (fun i => tagMetadataEntryIsFree img (tagMetaAt fs i)) (tagMetaEntryCount (fsMeta img))
        fuel = .ok (freeTagSearch fs img) :=
      wrapScan_eq (show freeTagSearch fs img < 2 ^ 16 by omega) hfuel
    rw [if_neg hfound, if_neg hfound, hfree, Res.ok_bind]
    split
    · rw [Nat.mod_eq_of_lt (by omega)]
    · rfl

theorem noWrap_tagSearch_iff : NoWrap fs (.tagSearch img name) ↔ InRange fs (.tagSearch img name) := by
  have hle := @tagSearch_le fs img name
  constructor
  · intro ⟨fuel, id, img', hr, hid⟩
    show tagSearch fs img name < 65535 ∨ tagMetaEntryCount (fsMeta img) ≤ 65535
    obtain ⟨i, hi, hr⟩ := Res.bind_eq_ok.mp hr
    obtain ⟨hlt, hi⟩ := (wrapScan_ok_iff (by decide)).mp ⟨fuel, hi⟩
    have hlt' : tagSearch fs img name < 2 ^ 16 := hlt
    obtain rfl : i = tagSearch fs img name := hi
    by_contra hout
    -- The entry of the name is 65535, and its id wraps to 0.
    have hfound : tagSearch fs img name < tagMetaEntryCount (fsMeta img) := by omega
    rw [if_pos hfound] at hr
    obtain ⟨h0, -⟩ := Prod.mk.inj (Res.ok.inj hr)
    have h0' : (tagSearch fs img name + 1) % 2 ^ 16 = id := h0
    obtain ⟨habsent, -⟩ := hid (by omega)
    have hname : strcmpEq img (tagMetaAt fs (tagSearch fs img name)) name = true :=
      scan_spec (p := fun i => strcmpEq img (tagMetaAt fs i) name) hfound
    rw [habsent _ hfound] at hname
    cases hname
  · intro h
    have hr := findOrCreateTag16_eq (Nat.le_refl _) h
    by_cases hfound : tagSearch fs img name < tagMetaEntryCount (fsMeta img)
    · rw [if_pos hfound] at hr
      exact ⟨2 ^ 16, _, _, hr, fun h0 => absurd h0 (Nat.succ_ne_zero _)⟩
    · by_cases hfree : freeTagSearch fs img < tagMetaEntryCount (fsMeta img)
      · rw [if_neg hfound, if_pos hfree] at hr
        exact ⟨2 ^ 16, _, _, hr, fun h0 => absurd h0 (Nat.succ_ne_zero _)⟩
      · rw [if_neg hfound, if_neg hfree] at hr
        exact ⟨2 ^ 16, _, _, hr, fun _ =>
          ⟨fun k hk => scan_before (p := fun i => strcmpEq img (tagMetaAt fs i) name) (Nat.zero_le k)
              (Nat.lt_of_lt_of_le hk (Nat.le_of_not_lt hfound)),
            fun k hk => scan_before (p := fun i => tagMetadataEntryIsFree img (tagMetaAt fs i)) (Nat.zero_le k)
              (Nat.lt_of_lt_of_le hk (Nat.le_of_not_lt hfree))⟩⟩

/-- A use is what it is for when it is in range. -/
theorem noWrap_iff {e : IndexEvent} (h : Stores e) : NoWrap fs e ↔ InRange fs e := by
  cases e with
  | fileSearch img => exact noWrap_fileSearch_iff
  | tagSearch img name => exact noWrap_tagSearch_iff
  | link fatIndex stored =>
    obtain ⟨hpos, hstored⟩ := h
    show stored = fatIndex ∧ stored ≠ 0 ∧ stored ≠ 0xffff ↔ fatIndex < 65535
    omega

/-! ## What is stored -/

theorem copyLoop16_stores {passes : Nat} : (copyLoop16 fs n src passes img g c).All Stores := by
  induction passes generalizing img g c with
  | zero => exact Traced.all_pure
  | succ passes ih =>
    simp only [copyLoop16]
    split
    · exact Traced.all_pure
    · split
      · exact Traced.all_pure
      · rw [Traced.all_bind, Traced.all_record]
        exact ⟨⟨Nat.lt_of_lt_of_le (Nat.succ_pos g) (le_scan _ _ _), u16_copy_byte (Nat.le_refl 2)⟩, ih⟩

theorem linkTags16_stores : (linkTags16 fuel fs f tags img).All Stores := by
  induction tags generalizing img with
  | nil => exact Traced.all_pure
  | cons tag tags ih =>
    rw [linkTags16, Traced.all_bind, Traced.all_record, Traced.all_after]
    exact ⟨trivial, fun _ _ => ih⟩

theorem writeFile16_stores : (writeFile16 fuel fs tags src dst img).All Stores := by
  rw [writeFile16]
  split
  · exact Traced.all_pure
  · rw [Traced.all_bind, Traced.all_record, Traced.all_after]
    refine ⟨trivial, fun i _ => ?_⟩
    split
    · exact Traced.all_pure
    · dsimp only
      split
      · exact Traced.all_pure
      · rw [Traced.all_bind, Traced.all_after]
        exact ⟨copyLoop16_stores, fun _ _ => linkTags16_stores⟩

theorem writeFileSpecs16_stores : (writeFileSpecs16 fuel fs files tags specs img).All Stores := by
  induction specs generalizing img with
  | nil => exact Traced.all_pure
  | cons spec specs ih =>
    rw [writeFileSpecs16, Traced.all_bind, Traced.all_after]
    refine ⟨?_, fun _ _ => ih⟩
    unfold writeFileSpec16
    split
    · exact Traced.all_pure
    · split
      · exact Traced.all_pure
      · exact writeFile16_stores

/-! ## The end of a run -/

/-- The copy loop ends: each pass takes a later entry. -/
theorem copyLoop16_ne_timeout {passes : Nat} (hg : g < n) (hpasses : n - g ≤ passes) :
    (copyLoop16 fs n src passes img g c).val ≠ .timeout := by
  induction passes generalizing img g c with
  | zero => omega
  | succ passes ih =>
    simp only [copyLoop16]
    split
    · exact nofun
    · split
      · exact nofun
      · rename_i hnext
        rw [Traced.val_bind]
        generalize hg' : freeFatFrom fs n _ (g + 1) = g' at hnext
        have hle : g' ≤ n := hg' ▸ scan_le hg
        have hlt : g + 1 ≤ g' := hg' ▸ le_scan _ _ _
        exact ih (by omega) (by omega)

theorem linkTags16_ne_timeout (hfuel : 2 ^ 16 ≤ fuel) (h : (linkTags16 fuel fs f tags img).All (SearchInRange fs)) :
    (linkTags16 fuel fs f tags img).val ≠ .timeout := by
  induction tags generalizing img with
  | nil => exact nofun
  | cons tag tags ih =>
    rw [linkTags16, Traced.all_bind, Traced.all_record, Traced.all_after] at h
    obtain ⟨hsearch, hrest⟩ := h
    rw [linkTags16, Traced.val_bind, Traced.val_record, Traced.val_after]
    refine Res.bind_ne_timeout ?_ fun r hr => ih (hrest r hr)
    rw [findOrCreateTag16_eq hfuel hsearch]
    exact nofun

theorem writeFile16_ne_timeout (hfuel : 2 ^ 16 ≤ fuel) (h : (writeFile16 fuel fs tags src dst img).All (SearchInRange fs)) :
    (writeFile16 fuel fs tags src dst img).val ≠ .timeout := by
  rw [writeFile16] at h ⊢
  split
  · exact nofun
  · rename_i htagfs
    rw [if_neg htagfs, Traced.all_bind, Traced.all_record, Traced.all_after] at h
    obtain ⟨hsearch, hrest⟩ := h
    rw [Traced.val_bind, Traced.val_record, Traced.val_after]
    refine Res.bind_ne_timeout ?_ fun i hi => ?_
    · rw [findFreeFileMeta16_eq hfuel hsearch]
      exact nofun
    · have hrest := hrest i hi
      split
      · exact nofun
      · rename_i hfull
        rw [if_neg hfull] at hrest
        dsimp only at hrest ⊢
        split
        · exact nofun
        · rename_i hspace
          have hle : freeFatFrom fs (fatCount (fsMeta img)) img 0 ≤ fatCount (fsMeta img) := scan_le (Nat.zero_le _)
          rw [if_neg hspace, Traced.all_bind, Traced.all_after] at hrest
          rw [Traced.val_bind, Traced.val_after]
          exact Res.bind_ne_timeout (copyLoop16_ne_timeout (by omega) (Nat.sub_le _ _)) fun r hr =>
            linkTags16_ne_timeout hfuel (hrest.2 r hr)

theorem writeFileSpecs16_ne_timeout (hfuel : 2 ^ 16 ≤ fuel)
    (h : (writeFileSpecs16 fuel fs files tags specs img).All (SearchInRange fs)) :
    (writeFileSpecs16 fuel fs files tags specs img).val ≠ .timeout := by
  induction specs generalizing img with
  | nil => exact nofun
  | cons spec specs ih =>
    rw [writeFileSpecs16, Traced.all_bind, Traced.all_after] at h
    obtain ⟨hspec, hspecs⟩ := h
    rw [writeFileSpecs16, Traced.val_bind, Traced.val_after]
    refine Res.bind_ne_timeout ?_ fun img' hr => ih (hspecs img' hr)
    revert hspec
    unfold writeFileSpec16
    cases parseFileSpec spec with
    | none => exact fun _ => nofun
    | some p =>
      obtain ⟨path, dst⟩ := p
      dsimp only
      cases files path with
      | none => exact fun _ => nofun
      | some src => exact writeFile16_ne_timeout hfuel

/-! ## Commands -/

/-- No index of the command wraps, and the command does not run on. -/
structure IndicesOk (options : WriteFilesOptions) (img : Bytes) : Prop where
  noWrap : ∀ fuel, (writeFiles16 fuel options img).All (NoWrap (fsMeta img))
  ends : ∃ fuel, (writeFiles16 fuel options img).val ≠ .timeout

theorem InRange.search {e : IndexEvent} (h : InRange fs e) : SearchInRange fs e := by
  cases e with
  | fileSearch img => exact h
  | tagSearch img name => exact h
  | link fatIndex stored => trivial

/-- The indices of a command serve their purpose when every use of one is in range. -/
theorem writeFiles_noWrap_iff (options : WriteFilesOptions) (img : Bytes) :
    IndicesOk options img ↔ ∀ fuel, (writeFiles16 fuel options img).All (InRange (fsMeta img)) := by
  have huse : ∀ fuel, (writeFiles16 fuel options img).All (NoWrap (fsMeta img)) ↔
      (writeFiles16 fuel options img).All (InRange (fsMeta img)) := fun fuel =>
    forall₂_congr fun e he => noWrap_iff (writeFileSpecs16_stores e he)
  constructor
  · intro h fuel
    exact (huse fuel).mp (h.noWrap fuel)
  · intro h
    exact ⟨fun fuel => (huse fuel).mpr (h fuel), 2 ^ 16,
      writeFileSpecs16_ne_timeout (Nat.le_refl _) ((h (2 ^ 16)).mono fun e he => he.search)⟩

/-! ## The header -/

/-- The sections begin behind the bytes of the header that are read. -/
structure HeaderApart (fs : FSMetadata) : Prop where
  files : 32 ≤ getFileMetadata fs
  tags : 32 ≤ getTagMetadata fs
  links : 32 ≤ getTagFileArray fs
  fats : 32 ≤ getFat fs
  data : 32 ≤ getData fs

theorem Layout.headerApart (L : Layout fs) : HeaderApart fs := by
  have hs := L.sectorSize; have hfiles := L.files; have htags := L.tags; have hlinks := L.links; have hfats := L.fats
  exact ⟨show 32 ≤ fs.sectorSize by omega, by omega, by omega, by omega, by omega⟩

/-- The header is `fs` where an index is used, and a link is to an entry of the FAT. -/
def Within (fs : FSMetadata) : IndexEvent → Prop
  | .fileSearch img => fsMeta img = fs
  | .tagSearch img _ => fsMeta img = fs
  | .link fatIndex _ => fatIndex < fatCount fs

/-- With tables of at most 65535 entries, every search is then in range. -/
theorem Within.search {e : IndexEvent} (h : Within fs e) (hfiles : countFileMetaEntries fs ≤ 65535)
    (htags : tagMetaEntryCount fs ≤ 65535) : SearchInRange fs e := by
  cases e with
  | fileSearch img => exact .inr (by rwa [show fsMeta img = fs from h])
  | tagSearch img name => exact .inr (by rwa [show fsMeta img = fs from h])
  | link fatIndex stored => trivial

/-- The run returns `r`, the header is `fs` wherever it is read, and in the image that `r` leaves. -/
structure Follows (fs : FSMetadata) (image : α → Bytes) (x : Traced IndexEvent (Res α)) (r : Res α) : Prop where
  val : x.val = r
  within : x.All (Within fs)
  header : ∀ a, r = .ok a → fsMeta (image a) = fs

namespace Follows

variable {image : α → Bytes} {image' : β → Bytes} {x : Traced IndexEvent (Res α)} {r : Res α}

theorem pure (h : ∀ a, r = .ok a → fsMeta (image a) = fs) : Follows fs image (pure r) r := ⟨rfl, Traced.all_pure, h⟩

/-- One run after the other. -/
theorem after {f : α → Traced IndexEvent (Res β)} {k : α → Res β} (h : Follows fs image x r)
    (hf : ∀ a, fsMeta (image a) = fs → Follows fs image' (f a) (k a)) :
    Follows fs image' (x >>= fun y => .after y f) (r >>= k) := by
  have hnext : ∀ a, x.val = .ok a → Follows fs image' (f a) (k a) := fun a ha => hf a (h.header a (h.val ▸ ha))
  refine ⟨?_, ?_, fun b hb => ?_⟩
  · rw [Traced.val_bind, Traced.val_after, ← h.val]
    exact Res.bind_congr_ok fun a ha => (hnext a ha).val
  · rw [Traced.all_bind, Traced.all_after]
    exact ⟨h.within, fun a ha => (hnext a ha).within⟩
  · obtain ⟨a, ha, hb⟩ := Res.bind_eq_ok.mp hb
    exact (hf a (h.header a ha)).header b hb

/-- A search, with the header as it is. -/
theorem record {e : IndexEvent} {y : Res α} {f : α → Traced IndexEvent (Res β)} {k : α → Res β} (he : Within fs e)
    (hy : y = r) (hf : ∀ a, r = .ok a → Follows fs image' (f a) (k a)) :
    Follows fs image' (Traced.record e y >>= fun z => .after z f) (r >>= k) := by
  subst hy
  refine ⟨?_, ?_, fun b hb => ?_⟩
  · rw [Traced.val_bind, Traced.val_record, Traced.val_after]
    exact Res.bind_congr_ok fun a ha => (hf a ha).val
  · rw [Traced.all_bind, Traced.all_record, Traced.all_after]
    exact ⟨he, fun a ha => (hf a ha).within⟩
  · obtain ⟨a, ha, hb⟩ := Res.bind_eq_ok.mp hb
    exact (hf a ha).header b hb

end Follows

/-- A store behind the header leaves it. -/
theorem fsMeta_copy {a k : Nat} {m : Nat → UInt8} (ha : 32 ≤ a) : fsMeta (copy img a k m) = fsMeta img :=
  fsMeta_congr fun _ _ => copy_out (by omega)

/-- The search of a FAT that is as long as the header says. -/
theorem freeFatFrom_fatCount : freeFatFrom fs (fatCount fs) img g = nextFreeFat fs img g := rfl

section

variable (H : HeaderApart fs)
include H

theorem copyLoop16_follows {passes : Nat} (h : fsMeta img = fs) (hg : g < fatCount fs) :
    Follows fs Prod.fst (copyLoop16 fs (fatCount fs) src passes img g c) (copyLoop fs src passes img g c) := by
  have hdata := H.data
  have hfats : ∀ i, 32 ≤ fatAt fs i := fun i => Nat.le_add_right_of_le H.fats
  induction passes generalizing img g c with
  | zero => exact .pure (fun _ => nofun)
  | succ passes ih =>
    have hat : dataAt fs img g = sectorAt fs g := by
      unfold dataAt sectorAt
      rw [h]
    simp only [copyLoop16, copyLoop, hat, h, freeFatFrom_fatCount]
    have hcopy : fsMeta (copy img (sectorAt fs g) (min fs.sectorSize (src.length - c)) fun k => src.getD (c + k) 0) = fs :=
      (fsMeta_copy (Nat.le_add_right_of_le hdata)).trans h
    split
    · refine .pure fun a ha => ?_
      obtain rfl := Res.ok.inj ha
      exact (fsMeta_copy (hfats g)).trans hcopy
    · split
      · refine .pure fun a ha => ?_
        obtain rfl := Res.ok.inj ha
        exact (fsMeta_copy (hfats g)).trans hcopy
      · rename_i hnext
        have hlt : nextFreeFat fs (copy img (sectorAt fs g) (min fs.sectorSize (src.length - c)) fun k => src.getD (c + k) 0)
            (g + 1) < fatCount fs := Nat.lt_of_le_of_ne (scan_le hg) hnext
        obtain ⟨hval, hwithin, hheader⟩ := ih (c := c + min fs.sectorSize (src.length - c))
          ((fsMeta_copy (hfats g)).trans hcopy : fsMeta (setFat fs _ g _) = fs) hlt
        refine ⟨?_, ?_, hheader⟩
        · rw [Traced.val_bind]
          exact hval
        · rw [Traced.all_bind, Traced.all_record]
          exact ⟨hlt, hwithin⟩

theorem linkTagToFile16_eq {t : Nat} (h : fsMeta img = fs) :
    linkTagToFile16 fs img t f = linkTagToFile fs img t f ∧ fsMeta (linkTagToFile fs img t f) = fs := by
  constructor
  · unfold linkTagToFile16 linkTagToFile
    rw [h]
  · have hat : ∀ i, 32 ≤ tagFileAt fs i := fun i => Nat.le_add_right_of_le H.links
    unfold linkTagToFile
    dsimp only
    split
    · exact h
    · split
      · exact (fsMeta_copy (Nat.le_add_right_of_le (hat _))).trans ((fsMeta_copy (hat _)).trans h)
      · exact h

section

variable (htags : tagMetaEntryCount fs ≤ 65535)
include htags

theorem linkTags16_follows (hfuel : 2 ^ 16 ≤ fuel) (h : fsMeta img = fs) :
    Follows fs id (linkTags16 fuel fs f tags img) (.ok (linkTags fs f tags img)) := by
  induction tags generalizing img with
  | nil =>
    refine .pure fun a ha => ?_
    obtain rfl := Res.ok.inj ha
    exact h
  | cons tag tags ih =>
    have hfound : findOrCreateTag16 fuel fs img tag = .ok (findOrCreateTag fs img tag) := by
      rw [findOrCreateTag16_eq hfuel (.inr (by rwa [h])), tagSearch, freeTagSearch, h]
      rfl
    have hheader : fsMeta (findOrCreateTag fs img tag).2 = fs := by
      rw [findOrCreateTag_eq]
      split
      · exact h
      · split
        · exact (fsMeta_copy (Nat.le_add_right_of_le H.tags)).trans h
        · exact h
    rw [linkTags16]
    refine .record (k := fun found => .ok (linkTags fs f tags
      (if found.1 > 0 then linkTagToFile fs found.2 found.1 f else found.2))) (show Within fs (.tagSearch img tag) from h)
      hfound fun found hr => ?_
    obtain rfl := Res.ok.inj hr
    obtain ⟨hlink, hlinked⟩ := @linkTagToFile16_eq fs (findOrCreateTag fs img tag).2 f H (findOrCreateTag fs img tag).1 hheader
    dsimp only
    rw [hlink]
    refine ih ?_
    split
    · exact hlinked
    · exact hheader

variable (hfiles : countFileMetaEntries fs ≤ 65535)
include hfiles

theorem writeFile16_follows (hfuel : 2 ^ 16 ≤ fuel) (h : fsMeta img = fs) :
    Follows fs id (writeFile16 fuel fs tags src dst img) (writeFile fs tags src dst img) := by
  have hkeep : Follows fs id (pure (.ok img)) (.ok img) := .pure fun a ha => by
    obtain rfl := Res.ok.inj ha
    exact h
  have hat : ∀ i, 32 ≤ fileMetaAt fs i := fun i => Nat.le_add_right_of_le H.files
  have hfound : findFreeFileMeta16 fuel fs img = .ok (findFreeFileMeta fs img) := by
    rw [findFreeFileMeta16_eq hfuel (.inr (by rwa [h])), freeFileSearch, h]
    rfl
  rw [writeFile16, writeFile]
  split
  · exact hkeep
  · refine .record (r := .ok (findFreeFileMeta fs img)) (k := fun fileId => if fileId = countFileMetaEntries fs then _ else _)
      (show Within fs (.fileSearch img) from h) hfound fun i hi => ?_
    obtain rfl := Res.ok.inj hi
    rw [h]
    split
    · exact hkeep
    · rename_i hfull
      have hle : findFreeFileMeta fs img ≤ countFileMetaEntries fs := findFreeFileMeta_le
      -- The id is that of the entry, plus one.
      have hid : (findFreeFileMeta fs img + 1) % 2 ^ 16 = findFreeFileMeta fs img + 1 := by omega
      have hentry : fileMetaAt fs (findFreeFileMeta fs img + 1) - sizeofFileMetadata =
        fileMetaAt fs (findFreeFileMeta fs img) := fileMetaAt_succ_sub _ _
      simp only [hid, hentry, freeFatFrom_fatCount]
      split
      · exact hkeep
      · rename_i hspace
        have hlt : nextFreeFat fs img 0 < fatCount fs := Nat.lt_of_le_of_ne (scan_le (Nat.zero_le _)) hspace
        refine (copyLoop16_follows H ((fsMeta_copy (hat _)).trans h : fsMeta (setFirstDataSector img _ _) = fs) hlt).after
          fun a ha => linkTags16_follows H htags hfuel ?_
        exact (fsMeta_copy (Nat.le_add_right_of_le (hat _))).trans ((fsMeta_copy (Nat.le_add_right_of_le (hat _))).trans ha)

theorem writeFileSpec16_follows (hfuel : 2 ^ 16 ≤ fuel) (h : fsMeta img = fs) :
    Follows fs id (writeFileSpec16 fuel fs files tags img spec) (writeFileSpec fs files tags img spec) := by
  unfold writeFileSpec16 writeFileSpec
  cases parseFileSpec spec with
  | none => exact .pure fun _ => nofun
  | some p =>
    obtain ⟨path, dst⟩ := p
    dsimp only
    cases files path with
    | none =>
      refine .pure fun a ha => ?_
      obtain rfl := Res.ok.inj ha
      exact h
    | some src => exact writeFile16_follows H htags hfiles hfuel h

theorem writeFileSpecs16_follows (hfuel : 2 ^ 16 ≤ fuel) (h : fsMeta img = fs) :
    Follows fs id (writeFileSpecs16 fuel fs files tags specs img) (specs.foldlM (writeFileSpec fs files tags) img) := by
  induction specs generalizing img with
  | nil =>
    refine .pure fun a ha => ?_
    obtain rfl := Res.ok.inj ha
    exact h
  | cons spec specs ih =>
    rw [writeFileSpecs16, List.foldlM_cons]
    exact (writeFileSpec16_follows H htags hfiles hfuel h).after fun a ha => ih ha

end

end

section

variable {options : WriteFilesOptions} (H : HeaderApart (fsMeta img)) (hfiles : countFileMetaEntries (fsMeta img) ≤ 65535)
  (htags : tagMetaEntryCount (fsMeta img) ≤ 65535) (hfuel : 2 ^ 16 ≤ fuel)

include H hfiles htags hfuel

/-- The command, on an image whose sections do not reach its header, is the one that reads the header once. -/
theorem writeFiles16_val : (writeFiles16 fuel options img).val = writeFiles options img :=
  (writeFileSpecs16_follows H htags hfiles hfuel rfl).val

/-- It does not run on. -/
theorem writeFiles16_ne_timeout : (writeFiles16 fuel options img).val ≠ .timeout :=
  writeFileSpecs16_ne_timeout hfuel
    ((writeFileSpecs16_follows H htags hfiles hfuel rfl).within.mono fun _ he => he.search hfiles htags)

/-- With a FAT of at most 65535 entries too, every use of an index is in range. -/
theorem inRange_of_counts (hfats : fatCount (fsMeta img) ≤ 65535) :
    (writeFiles16 fuel options img).All (InRange (fsMeta img)) := by
  refine (writeFileSpecs16_follows H htags hfiles hfuel rfl).within.mono fun e he => ?_
  have hsearch := he.search hfiles htags
  cases e with
  | fileSearch img' => exact hsearch
  | tagSearch img' name => exact hsearch
  | link fatIndex stored => exact Nat.lt_of_lt_of_le he hfats

end

/-! ## A full table of 65536 entries -/

/-- The options of an image with 65536 file entries. -/
def manyFilesOptions : FormatOptions where
  sectorCount := 10000
  fileMetaSectorCount := 4096

/-- Such an image, in which every entry has the name `a`. -/
def manyFiles : Bytes := fun a =>
  if a < 512 then formatImage manyFilesOptions (fun _ => 0) a else if a % 32 = 8 then 0x61 else 0

theorem fsMeta_manyFiles : fsMeta manyFiles = headerOf manyFilesOptions := by
  have hheader : fsMeta manyFiles = fsMeta (formatImage manyFilesOptions fun _ => 0) := by
    unfold fsMeta
    congr 1
  rw [hheader]
  exact fsMeta_formatImage_of_lt (by decide) (by decide) (by decide) (by decide) (by decide) (by decide)

/-- No entry of the image is free. -/
theorem findFreeFileMeta_manyFiles : findFreeFileMeta (headerOf manyFilesOptions) manyFiles = 65536 := by
  have hcount : countFileMetaEntries (headerOf manyFilesOptions) = 65536 := by decide
  have hused : ∀ i, fileMetadataEntryIsFree manyFiles (fileMetaAt (headerOf manyFilesOptions) i) = false := fun i => by
    have hname : manyFiles (nameAt (fileMetaAt (headerOf manyFilesOptions) i)) = 0x61 := by
      show manyFiles (512 + 32 * i + 8) = 0x61
      rw [manyFiles, if_neg (by omega), if_pos (by omega)]
    rw [fileMetadataEntryIsFree, hname]
    rfl
  by_contra hne
  have hle := @findFreeFileMeta_le (headerOf manyFilesOptions) manyFiles
  have hfree : fileMetadataEntryIsFree manyFiles
      (fileMetaAt (headerOf manyFilesOptions) (findFreeFileMeta (headerOf manyFilesOptions) manyFiles)) = true :=
    scan_spec (p := fun i => fileMetadataEntryIsFree manyFiles (fileMetaAt (headerOf manyFilesOptions) i))
      (show findFreeFileMeta (headerOf manyFilesOptions) manyFiles < countFileMetaEntries (headerOf manyFilesOptions) by
        omega)
  rw [hused] at hfree
  cases hfree

/-- A file that may be stored is given a search. -/
theorem writeFile16_search (src : List UInt8) (htagfs : isTagfsFile dst src.length = true)
    (h : (writeFile16 fuel fs tags src dst img).All P) : P (.fileSearch img) := by
  rw [writeFile16, htagfs, if_neg (by decide), Traced.all_bind, Traced.all_record] at h
  exact h.1

/-- Writing a file to the full table of 65536 entries searches for a free entry forever. -/
theorem writeFiles_noWrap_fails : ¬ ∀ options, Formats options → ∀ img, fsMeta img = headerOf options →
    ∀ command, IndicesOk command img := by
  intro hall
  have hok := hall manyFilesOptions (by constructor <;> decide) manyFiles fsMeta_manyFiles writeOneFile
  have h : (writeFileSpec16 0 (fsMeta manyFiles) writeOneFile.files (filterValidTagNames writeOneFile.tags) manyFiles
      ⟨[0x61, 0x3a, 0x62], by decide⟩).All (NoWrap (fsMeta manyFiles)) :=
    (Traced.all_bind.mp (hok.noWrap 0)).1
  have hparse : parseFileSpec ⟨[0x61, 0x3a, 0x62], by decide⟩ = some (⟨[0x61], by decide⟩, ⟨[0x62], by decide⟩) := by
    decide
  unfold writeFileSpec16 at h
  rw [hparse, fsMeta_manyFiles] at h
  have hrange := noWrap_fileSearch_iff.mp (writeFile16_search [1, 2, 3] (by decide) h)
  have hrange' : findFreeFileMeta (headerOf manyFilesOptions) manyFiles < 65535 ∨
    countFileMetaEntries (headerOf manyFilesOptions) ≤ 65535 := hrange
  have hcount : countFileMetaEntries (headerOf manyFilesOptions) = 65536 := by decide
  rw [findFreeFileMeta_manyFiles, hcount] at hrange'
  omega

end OSForReal.Proof.TagFS
