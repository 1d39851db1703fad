import OSForReal.Proof.TagFS.FatWellFormed

/-!
# Tags and the tag file map

What linking the tags of a command to a file makes of the tags and of the map:
tags keep their names, links stay, and the new links are those of the file and
the tags (`LinksAdded`), all of them unless the loop warns (`linkTags_spec`).
Ids are indices plus one, so that an id of 0 is no tag.
-/

namespace OSForReal.Proof.TagFS

open Framework
open Framework.Bytes
open OSForReal.TagFS

variable {fs : FSMetadata} {img img' img'' : Bytes} {tag t : CStr} {tags tags' : List CStr} {k id f g : Nat}

/-- The tag entry of index `k` is in use and has the name `tag`. -/
def TagNamed (fs : FSMetadata) (img : Bytes) (k : Nat) (tag : CStr) : Prop :=
  k < tagMetaEntryCount fs ∧ tagMetadataEntryIsFree img (tagMetaAt fs k) = false ∧ strcmpEq img (tagMetaAt fs k) tag = true

/-- An entry of the tag file map links the tag `id` and the file `f`. -/
def Linked (fs : FSMetadata) (img : Bytes) (id f : Nat) : Prop :=
  id ≠ 0 ∧ ∃ x < tagFileEntryCount fs, u16 img (tagFileAt fs x) = id ∧ u16 img (tagFileAt fs x + 2) = f

/-- The tags that a command links: short enough for a tag entry, and not empty. -/
structure TagNames (tags : List CStr) : Prop where
  strlen : ∀ tag ∈ tags, tag.strlen < 28
  nonempty : ∀ tag ∈ tags, tag.chars ≠ []

/-- A tag entry has at most one name. -/
theorem TagNamed.unique (h : TagNamed fs img k tag) (h' : TagNamed fs img k t) : tag = t :=
  strcmpEq_unique h.2.2 h'.2.2

/-- The entry of a name that is not empty is in use. -/
theorem tagNamed_of_strcmpEq (hk : k < tagMetaEntryCount fs) (hne : tag.chars ≠ [])
    (h : strcmpEq img (tagMetaAt fs k) tag = true) : TagNamed fs img k tag := by
  refine ⟨hk, ?_, h⟩
  have hfirst : img (tagMetaAt fs k) ≠ 0 := fun h0 => hne ((strcmpEq_first h).mp h0)
  simpa [tagMetadataEntryIsFree] using hfirst

/-- A tag entry whose bytes do not change keeps its name. -/
theorem TagNamed.congr (h : TagNamed fs img k tag) (hlen : tag.strlen < 28)
    (hkeep : ∀ a, tagMetaAt fs k ≤ a → a < tagMetaAt fs k + 32 → img' a = img a) : TagNamed fs img' k tag := by
  refine ⟨h.1, ?_, ?_⟩
  · have hfirst := hkeep (tagMetaAt fs k) (Nat.le_refl _) (by omega)
    rw [tagMetadataEntryIsFree, hfirst]
    exact h.2.1
  · rw [strcmpEq_congr fun a ha ha' => hkeep a ha (by omega)]
    exact h.2.2

/-- The links are those of the bytes of the map. -/
theorem linked_congr (hkeep : ∀ a, getTagFileArray fs ≤ a → a < getTagFileArray fs + 4 * tagFileEntryCount fs →
    img' a = img a) : Linked fs img' id f ↔ Linked fs img id f := by
  refine and_congr_right fun _ => exists_congr fun x => and_congr_right fun hx => ?_
  have hat : tagFileAt fs x = getTagFileArray fs + 4 * x := rfl
  rw [u16_congr fun a ha ha' => hkeep a (by omega) (by omega), u16_congr fun a ha ha' => hkeep a (by omega) (by omega)]

/-! ## Links that are added -/

/-- From `img` to `img'`, tags keep their names and links stay, and a new link
is one of the file `f` and a tag named in `tags`. -/
structure LinksAdded (fs : FSMetadata) (f : Nat) (tags : List CStr) (img img' : Bytes) : Prop where
  names : ∀ k t, t.strlen < 28 → TagNamed fs img k t → TagNamed fs img' k t
  keeps : ∀ id g, Linked fs img id g → Linked fs img' id g
  only : ∀ id g, Linked fs img' id g → Linked fs img id g ∨
    g = f ∧ ∃ k, id = k + 1 ∧ ∃ t ∈ tags, t.strlen < 28 ∧ TagNamed fs img' k t

namespace LinksAdded

theorem refl (fs : FSMetadata) (f : Nat) (img : Bytes) : LinksAdded fs f [] img img :=
  ⟨fun _ _ _ h => h, fun _ _ h => h, fun _ _ h => .inl h⟩

theorem trans (h : LinksAdded fs f tags img img') (h' : LinksAdded fs f tags' img' img'') :
    LinksAdded fs f (tags ++ tags') img img'' := by
  refine ⟨fun k t ht hk => h'.names k t ht (h.names k t ht hk), fun id g hg => h'.keeps id g (h.keeps id g hg),
    fun id g hg => ?_⟩
  rcases h'.only id g hg with hg | ⟨rfl, k, rfl, t, ht, hlen, hk⟩
  · rcases h.only id g hg with hg | ⟨rfl, k, rfl, t, ht, hlen, hk⟩
    · exact .inl hg
    · exact .inr ⟨rfl, k, rfl, t, List.mem_append_left _ ht, hlen, h'.names k t hlen hk⟩
  · exact .inr ⟨rfl, k, rfl, t, List.mem_append_right _ ht, hlen, hk⟩

end LinksAdded

/-- What `find_or_create_tag` can do: find an entry of the name, take a free one, or fail. -/
theorem findOrCreateTag_cases (fs : FSMetadata) (img : Bytes) (tag : CStr) :
    (∃ k < tagMetaEntryCount fs, strcmpEq img (tagMetaAt fs k) tag = true ∧ findOrCreateTag fs img tag = (k + 1, img)) ∨
      (∃ k < tagMetaEntryCount fs, tagMetadataEntryIsFree img (tagMetaAt fs k) = true ∧
        findOrCreateTag fs img tag = (k + 1, strcpy img (tagMetaAt fs k) tag)) ∨
      findOrCreateTag fs img tag = (0, img) := by
  simp only [findOrCreateTag]
  split
  · rename_i hk
    exact .inl ⟨_, hk, scan_spec (p := fun i => strcmpEq img (tagMetaAt fs i) tag) hk, rfl⟩
  · split
    · rename_i hk
      exact .inr (.inl ⟨_, hk, scan_spec (p := fun i => tagMetadataEntryIsFree img (tagMetaAt fs i)) hk, rfl⟩)
    · exact .inr (.inr rfl)

/-- `find_or_create_tag` adds no link, and returns the id of an entry of the name unless it fails. -/
theorem findOrCreateTag_spec (img : Bytes) (f : Nat) (L : Layout fs) (hlen : tag.strlen < 28) (hne : tag.chars ≠ []) :
    LinksAdded fs f [] img (findOrCreateTag fs img tag).2 ∧ ((findOrCreateTag fs img tag).1 = 0 ∨
      ∃ k, (findOrCreateTag fs img tag).1 = k + 1 ∧ TagNamed fs (findOrCreateTag fs img tag).2 k tag) := by
  have htags := L.tags
  rcases findOrCreateTag_cases fs img tag with ⟨k, hk, hfound, hr⟩ | ⟨k, hk, hfree, hr⟩ | hr
  · rw [hr]
    exact ⟨.refl fs f img, .inr ⟨k, rfl, tagNamed_of_strcmpEq hk hne hfound⟩⟩
  · rw [hr]
    have hat : ∀ j, tagMetaAt fs j = getTagMetadata fs + 32 * j := fun _ => rfl
    have hout : ∀ a, a < tagMetaAt fs k ∨ tagMetaAt fs k + 32 ≤ a → strcpy img (tagMetaAt fs k) tag a = img a :=
      fun a ha => copy_out (by omega)
    have hlinks : ∀ id g, Linked fs (strcpy img (tagMetaAt fs k) tag) id g ↔ Linked fs img id g := fun id g =>
      linked_congr fun a ha _ => hout a (by have := hat k; omega)
    refine ⟨⟨fun j t ht hj => hj.congr ht fun a ha ha' => hout a ?_, fun id g hg => (hlinks id g).mpr hg,
      fun id g hg => .inl ((hlinks id g).mp hg)⟩, .inr ⟨k, rfl, tagNamed_of_strcmpEq hk hne strcmpEq_strcpy⟩⟩
    -- The entry that is taken was free.
    have hjk : j ≠ k := fun h => by
      have hused := hj.2.1
      rw [h, hfree] at hused
      cases hused
    rw [hat] at ha ha' ⊢
    omega
  · rw [hr]
    exact ⟨.refl fs f img, .inl rfl⟩

/-- What `link_tag_to_file` can do: find the link, take a free entry, or fail. -/
theorem linkTagToFile_cases (fs : FSMetadata) (img : Bytes) (tagId fileId : Nat) :
    (∃ x < tagFileEntryCount fs, u16 img (tagFileAt fs x) = tagId ∧ u16 img (tagFileAt fs x + 2) = fileId ∧
        linkTagToFile fs img tagId fileId = img) ∨
      (∃ x < tagFileEntryCount fs, u16 img (tagFileAt fs x) = 0 ∧
        linkTagToFile fs img tagId fileId = setU16 (setU16 img (tagFileAt fs x) tagId) (tagFileAt fs x + 2) fileId) ∨
      linkFails fs img tagId fileId = true ∧ linkTagToFile fs img tagId fileId = img := by
  have hlinked_le : scan (fun i => u16 img (tagFileAt fs i) == tagId && u16 img (tagFileAt fs i + 2) == fileId)
      (tagFileEntryCount fs) 0 ≤ tagFileEntryCount fs := scan_le (Nat.zero_le _)
  have hfree_le : scan (fun i => u16 img (tagFileAt fs i) == 0) (tagFileEntryCount fs) 0 ≤ tagFileEntryCount fs :=
    scan_le (Nat.zero_le _)
  simp only [linkTagToFile]
  split
  · rename_i hx
    have hfound := scan_spec (p := fun i => u16 img (tagFileAt fs i) == tagId && u16 img (tagFileAt fs i + 2) == fileId) hx
    rw [Bool.and_eq_true, beq_iff_eq, beq_iff_eq] at hfound
    exact .inl ⟨_, hx, hfound.1, hfound.2, rfl⟩
  · rename_i hlinked
    split
    · rename_i hx
      have hfree := scan_spec (p := fun i => u16 img (tagFileAt fs i) == 0) hx
      exact .inr (.inl ⟨_, hx, beq_iff_eq.mp hfree, rfl⟩)
    · rename_i hfull
      refine .inr (.inr ⟨?_, rfl⟩)
      rw [linkFails, Bool.and_eq_true, beq_iff_eq, beq_iff_eq]
      omega

/-- `link_tag_to_file` links the tag and the file unless it fails. -/
theorem linkTagToFile_spec (L : Layout fs) (hlen : tag.strlen < 28) (hk : TagNamed fs img k tag)
    (hid : k + 1 < 2 ^ 16) (hf : f < 2 ^ 16) : LinksAdded fs f [tag] img (linkTagToFile fs img (k + 1) f) ∧
      (linkFails fs img (k + 1) f = false → Linked fs (linkTagToFile fs img (k + 1) f) (k + 1) f) := by
  have htags := L.tags
  rcases linkTagToFile_cases fs img (k + 1) f with ⟨x, hx, hid', hf', hr⟩ | ⟨x, hx, hfree, hr⟩ | ⟨hfail, hr⟩
  · rw [hr]
    exact ⟨⟨fun _ _ _ h => h, fun _ _ h => h, fun _ _ h => .inl h⟩, fun _ => ⟨Nat.succ_ne_zero k, x, hx, hid', hf'⟩⟩
  · rw [hr]
    have hat : ∀ y, tagFileAt fs y = getTagFileArray fs + 4 * y := fun _ => rfl
    have hout : ∀ a, a < tagFileAt fs x ∨ tagFileAt fs x + 4 ≤ a →
        setU16 (setU16 img (tagFileAt fs x) (k + 1)) (tagFileAt fs x + 2) f a = img a := fun a ha => by
      rw [setU16_out (by omega), setU16_out (by omega)]
    have hself : u16 (setU16 (setU16 img (tagFileAt fs x) (k + 1)) (tagFileAt fs x + 2) f) (tagFileAt fs x) = k + 1 := by
      rw [setU16, u16_copy_out (by omega)]
      exact u16_setU16 hid
    have hself' : u16 (setU16 (setU16 img (tagFileAt fs x) (k + 1)) (tagFileAt fs x + 2) f) (tagFileAt fs x + 2) = f :=
      u16_setU16 hf
    generalize setU16 (setU16 img (tagFileAt fs x) (k + 1)) (tagFileAt fs x + 2) f = img' at hout hself hself'
    have hother : ∀ y, y ≠ x → u16 img' (tagFileAt fs y) = u16 img (tagFileAt fs y) ∧
        u16 img' (tagFileAt fs y + 2) = u16 img (tagFileAt fs y + 2) := fun y hy => by
      have hx := hat x; have hy' := hat y
      exact ⟨u16_congr fun a _ _ => hout a (by omega), u16_congr fun a _ _ => hout a (by omega)⟩
    have hnames : ∀ j t, t.strlen < 28 → TagNamed fs img j t → TagNamed fs img' j t := fun j t ht hj =>
      hj.congr ht fun a _ ha => hout a (by
        have hx := hat x; have hj' : tagMetaAt fs j = getTagMetadata fs + 32 * j := rfl
        have := hj.1
        omega)
    refine ⟨⟨hnames, fun id g hg => ?_, fun id g hg => ?_⟩, fun _ => ⟨Nat.succ_ne_zero k, x, hx, hself, hself'⟩⟩
    · obtain ⟨h0, y, hy, hid', hg'⟩ := hg
      have hyx : y ≠ x := fun h => h0 (by rw [← hid', h, hfree])
      exact ⟨h0, y, hy, (hother y hyx).1.trans hid', (hother y hyx).2.trans hg'⟩
    · obtain ⟨h0, y, hy, hid', hg'⟩ := hg
      by_cases hyx : y = x
      · refine .inr ⟨?_, k, ?_, tag, List.mem_singleton_self tag, hlen, hnames k tag hlen hk⟩
        · rw [← hg', hyx, hself']
        · rw [← hid', hyx, hself]
      · exact .inl ⟨h0, y, hy, (hother y hyx).1.symm.trans hid', (hother y hyx).2.symm.trans hg'⟩
  · rw [hr, hfail]
    exact ⟨⟨fun _ _ _ h => h, fun _ _ h => h, fun _ _ h => .inl h⟩, fun h => Bool.noConfusion h⟩

/-- The loop that links the tags to a file adds links of the tags and the file, all of them unless it warns. -/
theorem linkTags_spec (img : Bytes) (L : Layout fs) (hcount : tagMetaEntryCount fs < 2 ^ 16) (htags : TagNames tags)
    (hf : f < 2 ^ 16) : LinksAdded fs f tags img (linkTags fs f tags img) ∧ (linkWarns fs f tags img = false →
      ∀ t ∈ tags, ∃ k, TagNamed fs (linkTags fs f tags img) k t ∧ Linked fs (linkTags fs f tags img) (k + 1) f) := by
  induction tags generalizing img with
  | nil => exact ⟨.refl fs f img, fun _ t ht => absurd ht List.not_mem_nil⟩
  | cons tag tags ih =>
    have hlen := htags.strlen tag List.mem_cons_self
    have hrest : TagNames tags := ⟨fun t ht => htags.strlen t (List.mem_cons_of_mem _ ht),
      fun t ht => htags.nonempty t (List.mem_cons_of_mem _ ht)⟩
    obtain ⟨hadd, hfound⟩ := findOrCreateTag_spec img f L hlen (htags.nonempty tag List.mem_cons_self)
    simp only [linkTags, linkWarns, List.foldl_cons] at ih ⊢
    generalize findOrCreateTag fs img tag = r at hadd hfound
    obtain ⟨tagId, img₁⟩ := r
    rcases hfound with h0 | ⟨k, hk, hnamed⟩
    · -- No entry is left for the tag.
      obtain rfl : tagId = 0 := h0
      obtain ⟨hadd', -⟩ := ih img₁ hrest
      rw [if_neg (Nat.lt_irrefl 0), if_neg (Nat.lt_irrefl 0)]
      refine ⟨?_, fun h => Bool.noConfusion h⟩
      obtain ⟨hnames, hkeeps, honly⟩ := hadd.trans hadd'
      refine ⟨hnames, hkeeps, fun id g hg => (honly id g hg).imp_right ?_⟩
      rintro ⟨hg, j, hj, t, ht, h⟩
      exact ⟨hg, j, hj, t, List.mem_cons_of_mem _ ht, h⟩
    · obtain rfl : tagId = k + 1 := hk
      obtain ⟨hadd', hlinked⟩ := linkTagToFile_spec L hlen hnamed (by have := hnamed.1; omega) hf
      obtain ⟨hadd'', hcomplete⟩ := ih (linkTagToFile fs img₁ (k + 1) f) hrest
      rw [if_pos (Nat.succ_pos k), if_pos (Nat.succ_pos k)]
      refine ⟨(hadd.trans hadd').trans hadd'', fun hwarn t ht => ?_⟩
      rw [Bool.or_eq_false_iff] at hwarn
      rcases List.mem_cons.mp ht with rfl | ht
      · exact ⟨k, hadd''.names k t hlen (hadd'.names k t hlen hnamed), hadd''.keeps _ _ (hlinked hwarn.1)⟩
      · exact hcomplete hwarn.2 t ht

end OSForReal.Proof.TagFS
