import OSForReal.Framework.FirstFit
import OSForReal.Proof.TagFS.Indices
import OSForReal.Proof.TagFS.Tags

/-!
# The tag tables over runs

The tag metadata and the tag file map as tables that are filled by first fit
(`tagTable`, `linkTable`). `find_or_create_tag` and `link_tag_to_file` insert
in them, so that after any commands they list tags and links once each
(`TablesList`), and what is in use is kept byte by byte (`EntriesKept`). An
empty tag has the name of a free entry: it is found there, and not created.
-/

namespace OSForReal.Proof.TagFS

open Framework
open Framework.Bytes
open OSForReal.TagFS

variable {fs : FSMetadata} {img img' img'' : Bytes} {src : List UInt8} {tag dst : CStr} {tags : List CStr} {k x f id : Nat}

/-! ## What holds of the tables -/

/-- The tables are in order: what is in use comes first, tags have names and no
two the same one, and no two entries of the map link the same tag and file. -/
structure TagTablesOk (fs : FSMetadata) (img : Bytes) : Prop where
  tags_first : ∀ i j, i < j → j < tagMetaEntryCount fs → tagMetadataEntryIsFree img (tagMetaAt fs j) = false →
    tagMetadataEntryIsFree img (tagMetaAt fs i) = false
  named : ∀ i < tagMetaEntryCount fs, tagMetadataEntryIsFree img (tagMetaAt fs i) = false →
    ∃ tag, tag.strlen < 28 ∧ strcmpEq img (tagMetaAt fs i) tag = true
  distinct : ∀ i j tag, TagNamed fs img i tag → TagNamed fs img j tag → i = j
  links_first : ∀ x y, x < y → y < tagFileEntryCount fs → u16 img (tagFileAt fs y) ≠ 0 → u16 img (tagFileAt fs x) ≠ 0
  once : ∀ x y, x < tagFileEntryCount fs → y < tagFileEntryCount fs → u16 img (tagFileAt fs x) ≠ 0 →
    u16 img (tagFileAt fs y) = u16 img (tagFileAt fs x) → u16 img (tagFileAt fs y + 2) = u16 img (tagFileAt fs x + 2) →
    x = y

/-- From `img` to `img'`, the tag entries and links in use keep their bytes. -/
structure EntriesKept (fs : FSMetadata) (img img' : Bytes) : Prop where
  tags : ∀ k < tagMetaEntryCount fs, tagMetadataEntryIsFree img (tagMetaAt fs k) = false →
    ∀ a, tagMetaAt fs k ≤ a → a < tagMetaAt fs k + 32 → img' a = img a
  links : ∀ x < tagFileEntryCount fs, u16 img (tagFileAt fs x) ≠ 0 →
    ∀ a, tagFileAt fs x ≤ a → a < tagFileAt fs x + 4 → img' a = img a

namespace EntriesKept

theorem refl (fs : FSMetadata) (img : Bytes) : EntriesKept fs img img :=
  ⟨fun _ _ _ _ _ _ => rfl, fun _ _ _ _ _ _ => rfl⟩

theorem trans (h : EntriesKept fs img img') (h' : EntriesKept fs img' img'') : EntriesKept fs img img'' := by
  refine ⟨fun k hk hused a ha ha' => ?_, fun x hx hused a ha ha' => ?_⟩
  · have hkeep := h.tags k hk hused
    have hused' : tagMetadataEntryIsFree img' (tagMetaAt fs k) = false := by
      rw [tagMetadataEntryIsFree, hkeep _ (Nat.le_refl _) (by omega)]
      exact hused
    rw [h'.tags k hk hused' a ha ha', hkeep a ha ha']
  · have hkeep := h.links x hx hused
    have hused' : u16 img' (tagFileAt fs x) ≠ 0 := by
      rw [u16_congr fun a ha ha' => hkeep a ha (by omega)]
      exact hused
    rw [h'.links x hx hused' a ha ha', hkeep a ha ha']

theorem of_sameTags (L : Layout fs) (h : SameTags fs img img') : EntriesKept fs img img' := by
  refine ⟨fun k hk _ a ha ha' => ?_, fun x hx _ a ha ha' => ?_⟩
  · have hin := tagMetaAt_within L hk
    exact h a ⟨by omega, by omega⟩
  · have hin := tagFileAt_within L hx
    exact h a ⟨by omega, by omega⟩

end EntriesKept

/-! ## The tables of an image -/

/-- The name of a tag entry in use. -/
abbrev TagName : Type := { name : CStr // name.chars ≠ [] ∧ name.strlen < 28 }

/-- A tag id that is not 0, and a file id. -/
abbrev Link : Type := { link : Nat × Nat // link.1 ≠ 0 }

/-- The tag metadata. -/
def tagTable (fs : FSMetadata) (img : Bytes) : Table TagName where
  size := tagMetaEntryCount fs
  free i := tagMetadataEntryIsFree img (tagMetaAt fs i)
  holds i tag := strcmpEq img (tagMetaAt fs i) tag.1
  unique h h' := Subtype.ext (strcmpEq_unique h h')
  used {_ tag} h := by
    have hne : img _ ≠ 0 := fun h0 => tag.2.1 ((strcmpEq_first h).mp h0)
    simpa [tagMetadataEntryIsFree] using hne

/-- The tag file map. -/
def linkTable (fs : FSMetadata) (img : Bytes) : Table Link where
  size := tagFileEntryCount fs
  free x := u16 img (tagFileAt fs x) == 0
  holds x link := u16 img (tagFileAt fs x) == link.1.1 && u16 img (tagFileAt fs x + 2) == link.1.2
  unique h h' := by
    rw [Bool.and_eq_true, beq_iff_eq, beq_iff_eq] at h h'
    exact Subtype.ext (Prod.ext (h.1.symm.trans h'.1) (h.2.symm.trans h'.2))
  used {_ link} h := by
    rw [Bool.and_eq_true, beq_iff_eq, beq_iff_eq] at h
    rw [h.1]
    simpa using link.2

/-- The tables list tags and links, each once. -/
structure TablesList (fs : FSMetadata) (names : List TagName) (links : List Link) (img : Bytes) : Prop where
  tagList : (tagTable fs img).Lists names
  linkList : (linkTable fs img).Lists links
  names_nodup : names.Nodup
  links_nodup : links.Nodup

theorem TablesList.ok {names : List TagName} {links : List Link} (h : TablesList fs names links img) :
    TagTablesOk fs img := by
  refine ⟨fun i j hij hj hused => h.tagList.used_of_lt hij hj hused, fun i hi hused => ?_, fun i j tag hi hj => ?_,
    fun x y hxy hy hused => ?_, fun x y hx hy hused hid hfile => ?_⟩
  · obtain ⟨tag, -, hholds⟩ := h.tagList.exists_holds hi hused
    exact ⟨tag.1, tag.2.2, hholds⟩
  · -- The name of an entry is that which is listed.
    obtain ⟨t, -, ht⟩ := h.tagList.exists_holds hi.1 hi.2.1
    obtain rfl : tag = t.1 := strcmpEq_unique hi.2.2 ht
    exact h.tagList.slot_unique h.names_nodup hi.1 hj.1 hi.2.2 hj.2.2
  · have hfirst : (linkTable fs img).free x = false := h.linkList.used_of_lt hxy hy (by simpa [linkTable] using hused)
    simpa [linkTable] using hfirst
  · exact h.linkList.slot_unique (a := ⟨(u16 img (tagFileAt fs x), u16 img (tagFileAt fs x + 2)), hused⟩) h.links_nodup hx hy
      (by simp [linkTable]) (by simp [linkTable, hid, hfile])

/-- What leaves the bytes of the tag metadata leaves its table. -/
theorem tagTable_congr {names : List TagName} (h : (tagTable fs img).Lists names)
    (hsame : ∀ k < tagMetaEntryCount fs, ∀ a, tagMetaAt fs k ≤ a → a < tagMetaAt fs k + 32 → img' a = img a) :
    (tagTable fs img').Lists names := by
  refine h.congr rfl (fun k hk => ?_) fun k hk tag hholds => ?_
  · have hfirst := hsame k hk _ (Nat.le_refl _) (by omega)
    show (img' (tagMetaAt fs k) == 0) = (img (tagMetaAt fs k) == 0)
    rw [hfirst]
  · have hlen := tag.2.2
    show strcmpEq img' (tagMetaAt fs k) tag.1 = true
    rw [strcmpEq_congr fun a ha ha' => hsame k hk a ha (by omega)]
    exact hholds

/-- What leaves the bytes of the map leaves its table. -/
theorem linkTable_congr {links : List Link} (h : (linkTable fs img).Lists links)
    (hsame : ∀ x < tagFileEntryCount fs, ∀ a, tagFileAt fs x ≤ a → a < tagFileAt fs x + 4 → img' a = img a) :
    (linkTable fs img').Lists links := by
  have hid : ∀ x < tagFileEntryCount fs, u16 img' (tagFileAt fs x) = u16 img (tagFileAt fs x) := fun x hx =>
    u16_congr fun a ha ha' => hsame x hx a ha (by omega)
  have hfile : ∀ x < tagFileEntryCount fs, u16 img' (tagFileAt fs x + 2) = u16 img (tagFileAt fs x + 2) := fun x hx =>
    u16_congr fun a ha ha' => hsame x hx a (by omega) (by omega)
  refine h.congr rfl (fun x hx => ?_) fun x hx link hholds => ?_
  · show (u16 img' (tagFileAt fs x) == 0) = (u16 img (tagFileAt fs x) == 0)
    rw [hid x hx]
  · show (u16 img' (tagFileAt fs x) == link.1.1 && u16 img' (tagFileAt fs x + 2) == link.1.2) = true
    rw [hid x hx, hfile x hx]
    exact hholds

/-! ## `find_or_create_tag` -/

/-- `find_or_create_tag` inserts a name. -/
theorem findOrCreateTag_inserts (img : Bytes) (tag : TagName) :
    (tagTable fs img).Inserts tag (tagTable fs (findOrCreateTag fs img tag.1).2) := by
  have hlen := tag.2.2
  show if findTag fs img tag.1 < tagMetaEntryCount fs then _ else if findFreeTag fs img < tagMetaEntryCount fs then _ else _
  rw [findOrCreateTag_eq]
  split
  · rfl
  · split
    · rename_i hfree
      have hat : ∀ i, tagMetaAt fs i = getTagMetadata fs + 32 * i := fun _ => rfl
      have hout : ∀ i, i ≠ findFreeTag fs img → ∀ a, tagMetaAt fs i ≤ a → a < tagMetaAt fs i + 32 →
          strcpy img (tagMetaAt fs (findFreeTag fs img)) tag.1 a = img a := fun i hi a ha ha' => by
        rw [hat] at ha ha'
        rw [strcpy, copy_out (by rw [hat]; omega)]
      refine ⟨rfl, strcmpEq_strcpy, fun i hi _ => ?_, fun i hi _ t ht => ?_⟩
      · show (strcpy img (tagMetaAt fs (findFreeTag fs img)) tag.1 (tagMetaAt fs i) == 0) = (img (tagMetaAt fs i) == 0)
        rw [hout i hi _ (Nat.le_refl _) (by omega)]
      · have htlen := t.2.2
        show strcmpEq (strcpy img (tagMetaAt fs (findFreeTag fs img)) tag.1) (tagMetaAt fs i) t.1 = true
        rw [strcmpEq_congr fun a ha ha' => hout i hi a ha (by omega)]
        exact ht
    · rfl

/-- An empty tag is not created. -/
theorem findOrCreateTag_empty (h : tag.chars = []) : (findOrCreateTag fs img tag).2 = img := by
  rw [findOrCreateTag_eq]
  split
  · rfl
  · rename_i habsent
    split
    · rename_i hfull
      have hnul : tagMetadataEntryIsFree img (tagMetaAt fs (findFreeTag fs img)) = true := findFreeTag_free hfull
      have hfound : strcmpEq img (tagMetaAt fs (findFreeTag fs img)) tag = true := by
        rw [strcmpEq, h]
        exact hnul
      rw [findTag_before (by omega)] at hfound
      cases hfound
    · rfl

/-- `find_or_create_tag` keeps the entries in use. -/
theorem findOrCreateTag_kept (L : Layout fs) (hlen : tag.strlen < 28) :
    EntriesKept fs img (findOrCreateTag fs img tag).2 := by
  have htags := L.tags
  have hat : ∀ i, tagMetaAt fs i = getTagMetadata fs + 32 * i := fun _ => rfl
  have hfileAt : ∀ x, tagFileAt fs x = getTagFileArray fs + 4 * x := fun _ => rfl
  rcases findOrCreateTag_cases fs img tag with ⟨k, hk, -, hr⟩ | ⟨k, hk, hfree, hr⟩ | hr
  · rw [hr]
    exact .refl fs img
  · rw [hr]
    have hout : ∀ a, a < tagMetaAt fs k ∨ tagMetaAt fs k + 32 ≤ a → strcpy img (tagMetaAt fs k) tag a = img a :=
      fun a ha => copy_out (by omega)
    rw [hat] at hout
    refine ⟨fun j hj hused a ha ha' => hout a ?_, fun x hx _ a ha _ => hout a ?_⟩
    · have hjk : j ≠ k := by
        rintro rfl
        rw [hfree] at hused
        cases hused
      rw [hat] at ha ha'
      omega
    · rw [hfileAt] at ha
      omega
  · rw [hr]
    exact .refl fs img

/-- `find_or_create_tag` leaves the map. -/
theorem findOrCreateTag_map (L : Layout fs) (hlen : tag.strlen < 28) {a : Nat} (ha : getTagFileArray fs ≤ a) :
    (findOrCreateTag fs img tag).2 a = img a := by
  have htags := L.tags
  rcases findOrCreateTag_cases fs img tag with ⟨j, hj, -, hr⟩ | ⟨j, hj, -, hr⟩ | hr
  · rw [hr]
  · rw [hr]
    have hat : tagMetaAt fs j = getTagMetadata fs + 32 * j := rfl
    dsimp only
    rw [strcpy, copy_out (by omega)]
  · rw [hr]

/-- `find_or_create_tag` keeps the tables in order. -/
theorem TablesList.create {names : List TagName} {links : List Link} (h : TablesList fs names links img)
    (L : Layout fs) (hlen : tag.strlen < 28) : ∃ names, TablesList fs names links (findOrCreateTag fs img tag).2 := by
  have hlinks : (linkTable fs (findOrCreateTag fs img tag).2).Lists links :=
    linkTable_congr h.linkList fun x _ a ha _ => findOrCreateTag_map L hlen (Nat.le_trans (Nat.le_add_right _ _) ha)
  by_cases hempty : tag.chars = []
  · refine ⟨names, ?_⟩
    rw [findOrCreateTag_empty hempty]
    exact h
  · exact ⟨_, h.tagList.insert (findOrCreateTag_inserts img ⟨tag, hempty, hlen⟩), hlinks, insertNew_nodup h.names_nodup,
      h.links_nodup⟩

/-! ## `link_tag_to_file` -/

/-- A link is written to its own entry. -/
theorem setLink_out {a : Nat} (h : a < tagFileAt fs x ∨ tagFileAt fs x + 4 ≤ a) :
    setU16 (setU16 img (tagFileAt fs x) id) (tagFileAt fs x + 2) f a = img a := by
  rw [setU16_out (by omega), setU16_out (by omega)]

theorem setLink_put (img : Bytes) (x : Nat) (hid : id ≠ 0) (hid' : id < 2 ^ 16) (hf : f < 2 ^ 16) :
    (linkTable fs img).Put (linkTable fs (setU16 (setU16 img (tagFileAt fs x) id) (tagFileAt fs x + 2) f)) x
      ⟨(id, f), hid⟩ := by
  have hat : ∀ y, tagFileAt fs y = getTagFileArray fs + 4 * y := fun _ => rfl
  have hself : u16 (setU16 (setU16 img (tagFileAt fs x) id) (tagFileAt fs x + 2) f) (tagFileAt fs x) = id := by
    rw [setU16, u16_copy_out (by omega)]
    exact u16_setU16 hid'
  have hself' : u16 (setU16 (setU16 img (tagFileAt fs x) id) (tagFileAt fs x + 2) f) (tagFileAt fs x + 2) = f :=
    u16_setU16 hf
  have hother : ∀ y, y ≠ x →
      u16 (setU16 (setU16 img (tagFileAt fs x) id) (tagFileAt fs x + 2) f) (tagFileAt fs y) = u16 img (tagFileAt fs y) ∧
        u16 (setU16 (setU16 img (tagFileAt fs x) id) (tagFileAt fs x + 2) f) (tagFileAt fs y + 2) =
          u16 img (tagFileAt fs y + 2) := by
    intro y hy
    have hx' := hat x; have hy' := hat y
    exact ⟨u16_congr fun a _ _ => setLink_out (by omega), u16_congr fun a _ _ => setLink_out (by omega)⟩
  refine ⟨rfl, ?_, fun y hy _ => ?_, fun y hy _ link hholds => ?_⟩
  · simp [linkTable, hself, hself']
  · simp only [linkTable, hother y hy]
  · simp only [linkTable, hother y hy] at hholds ⊢
    exact hholds

/-- `link_tag_to_file` inserts a link. -/
theorem linkTagToFile_inserts (img : Bytes) (hid : id ≠ 0) (hid' : id < 2 ^ 16) (hf : f < 2 ^ 16) :
    (linkTable fs img).Inserts ⟨(id, f), hid⟩ (linkTable fs (linkTagToFile fs img id f)) := by
  unfold Table.Inserts linkTagToFile
  dsimp only [linkTable]
  split
  · rfl
  · split
    · exact setLink_put img _ hid hid' hf
    · rfl

/-- `link_tag_to_file` keeps the entries in use, and leaves the tag metadata. -/
theorem linkTagToFile_kept (L : Layout fs) : EntriesKept fs img (linkTagToFile fs img id f) ∧
    ∀ k < tagMetaEntryCount fs, ∀ a, tagMetaAt fs k ≤ a → a < tagMetaAt fs k + 32 →
      linkTagToFile fs img id f a = img a := by
  have htags := L.tags
  have hat : ∀ i, tagMetaAt fs i = getTagMetadata fs + 32 * i := fun _ => rfl
  have hfileAt : ∀ x, tagFileAt fs x = getTagFileArray fs + 4 * x := fun _ => rfl
  rcases linkTagToFile_cases fs img id f with ⟨x, hx, -, -, hr⟩ | ⟨x, hx, hfree, hr⟩ | ⟨-, hr⟩
  · rw [hr]
    exact ⟨.refl fs img, fun _ _ _ _ _ => rfl⟩
  · rw [hr]
    have hmeta : ∀ k < tagMetaEntryCount fs, ∀ a, tagMetaAt fs k ≤ a → a < tagMetaAt fs k + 32 →
        setU16 (setU16 img (tagFileAt fs x) id) (tagFileAt fs x + 2) f a = img a := fun k hk a ha ha' =>
      setLink_out (by rw [hat] at ha'; rw [hfileAt]; omega)
    refine ⟨⟨fun k hk _ => hmeta k hk, fun y hy hused a ha ha' => setLink_out ?_⟩, hmeta⟩
    have hyx : y ≠ x := by
      rintro rfl
      exact hused hfree
    rw [hfileAt] at ha ha' ⊢
    omega
  · rw [hr]
    exact ⟨.refl fs img, fun _ _ _ _ _ => rfl⟩

/-- `link_tag_to_file` keeps the tables in order. -/
theorem TablesList.link {names : List TagName} {links : List Link} (h : TablesList fs names links img)
    (L : Layout fs) (hid : id ≠ 0) (hid' : id < 2 ^ 16) (hf : f < 2 ^ 16) :
    ∃ links, TablesList fs names links (linkTagToFile fs img id f) :=
  ⟨_, tagTable_congr h.tagList (linkTagToFile_kept L).2, h.linkList.insert (linkTagToFile_inserts img hid hid' hf),
    h.names_nodup, insertNew_nodup h.links_nodup⟩

/-! ## Commands -/

/-- What commands keep of the tables, from the image `img₀` on. -/
structure TablesInv (fs : FSMetadata) (img₀ img : Bytes) : Prop where
  header : fsMeta img = fs
  lists : ∃ names links, TablesList fs names links img
  kept : EntriesKept fs img₀ img

namespace TablesInv

variable {img₀ : Bytes}

/-- One tag of a file. -/
theorem oneTag (h : TablesInv fs img₀ img) (L : Layout fs) (hcount : tagMetaEntryCount fs < 65536)
    (hlen : tag.strlen < 28) (hf : f < 2 ^ 16) : TablesInv fs img₀
      (if (findOrCreateTag fs img tag).1 > 0 then
        linkTagToFile fs (findOrCreateTag fs img tag).2 (findOrCreateTag fs img tag).1 f
      else (findOrCreateTag fs img tag).2) := by
  obtain ⟨names, links, hlists⟩ := h.lists
  obtain ⟨names, hlists⟩ := hlists.create L hlen
  have hch : ChangesOnly fs [] [] [] img (findOrCreateTag fs img tag).2 := findOrCreateTag_changes L hlen
  have hheader := (hch.fsMeta_eq L).trans h.header
  have hkept := h.kept.trans (findOrCreateTag_kept L hlen)
  have hle := @findOrCreateTag_le fs img tag
  split
  · rename_i hpos
    obtain ⟨links, hlists⟩ := hlists.link L (Nat.ne_of_gt hpos) (by omega) hf
    exact ⟨((linkTagToFile_changes L _ f).fsMeta_eq L).trans hheader, ⟨names, links, hlists⟩,
      hkept.trans (linkTagToFile_kept L).1⟩
  · exact ⟨hheader, ⟨names, links, hlists⟩, hkept⟩

/-- The tags of a file. -/
theorem allTags (h : TablesInv fs img₀ img) (L : Layout fs) (hcount : tagMetaEntryCount fs < 65536)
    (htags : ∀ tag ∈ tags, tag.strlen < 28) (hf : f < 2 ^ 16) : TablesInv fs img₀ (linkTags fs f tags img) := by
  induction tags generalizing img with
  | nil => exact h
  | cons tag tags ih =>
    have hlen := htags tag List.mem_cons_self
    exact ih (h.oneTag L hcount hlen hf) fun t ht => htags t (List.mem_cons_of_mem _ ht)

/-- What leaves the tag sections. -/
theorem sameTags (h : TablesInv fs img₀ img) (L : Layout fs) (hheader : fsMeta img' = fsMeta img)
    (hsame : SameTags fs img img') : TablesInv fs img₀ img' := by
  obtain ⟨names, links, hlists⟩ := h.lists
  refine ⟨hheader.trans h.header, ⟨names, links, ?_, ?_, hlists.names_nodup, hlists.links_nodup⟩,
    h.kept.trans (.of_sameTags L hsame)⟩
  · refine tagTable_congr hlists.tagList fun k hk a ha ha' => ?_
    have hin := tagMetaAt_within L hk
    exact hsame a ⟨by omega, by omega⟩
  · refine linkTable_congr hlists.linkList fun x hx a ha ha' => ?_
    have hin := tagFileAt_within L hx
    exact hsame a ⟨by omega, by omega⟩

/-- One file. -/
theorem store (h : TablesInv fs img₀ img) (L : Layout fs) (hcount : tagMetaEntryCount fs < 65536)
    (htags : ∀ tag ∈ tags, tag.strlen < 28) (hr : writeFile fs tags src dst img = .ok img') :
    TablesInv fs img₀ img' := by
  rw [writeFile_eq] at hr
  obtain ⟨unlinked, hunlinked, hr⟩ := Res.bind_eq_ok.mp hr
  obtain rfl := Res.ok.inj hr
  have hheader : fsMeta unlinked = fsMeta img := by
    rcases @writeFile_cases fs [] img src dst L (fun _ ht => absurd ht List.not_mem_nil) with
      ⟨-, hskip⟩ | ⟨-, i, l, c, img₁, hstored, hS⟩
    · rw [hskip] at hunlinked
      rw [Res.ok.inj hunlinked]
    · rw [hstored] at hunlinked
      rw [← Res.ok.inj hunlinked]
      exact hS.changes.fsMeta_eq L
  have hstored := h.sameTags L hheader (writeFile_sameTags L hunlinked)
  split
  · rename_i hacc
    have hfiles := L.fileMetas; have hi := hacc.2.1
    exact hstored.allTags L hcount htags (by omega)
  · exact hstored

/-- A command. -/
theorem command {command : WriteFilesOptions} (h : TablesInv fs img₀ img) (L : Layout fs)
    (hcount : tagMetaEntryCount fs < 65536) (hr : writeFiles command img = .ok img') : TablesInv fs img₀ img' := by
  unfold writeFiles at hr
  rw [h.header] at hr
  refine Res.foldlM_invariant h (fun img spec _ img' h hstep => ?_) hr
  unfold writeFileSpec at hstep
  split at hstep
  · cases hstep
  · split at hstep
    · rw [← Res.ok.inj hstep]
      exact h
    · exact h.store L hcount (fun _ => filterValidTagNames_lt) hstep

end TablesInv

/-- A formatted image has no tags and no links. -/
theorem tablesList_formatImage {options : FormatOptions} (G : Geometry (headerOf options)) (img : Bytes) :
    TablesList (headerOf options) [] [] (formatImage options img) := by
  have L := G.layout
  have hs := L.sectorSize; have hfiles := L.files; have htags := L.tags; have hlinks := L.links; have hfats := L.fats
  have htotal : getData (headerOf options) ≤ options.sectorCount * options.sectorSize := getData_le_total G
  refine ⟨.empty fun i hi => ?_, .empty fun x hx => ?_, List.nodup_nil, List.nodup_nil⟩
  · have hin := tagMetaAt_within L hi
    show (formatImage options img (tagMetaAt (headerOf options) i) == 0) = true
    rw [formatImage_zero G (by omega) (by omega)]
    rfl
  · have hin := tagFileAt_within L hx
    show (u16 (formatImage options img) (tagFileAt (headerOf options) x) == 0) = true
    unfold u16
    rw [formatImage_zero G (by omega) (by omega), formatImage_zero G (by omega) (by omega)]
    rfl

/-- The tables of every image that a run of commands makes of a formatted one
are in order, and later commands keep what is in use. (A command that fails
midway has made the image of the one with the file specs before.) -/
theorem tagTablesOk_of_reachable (options : FormatOptions) (G : Geometry (headerOf options)) (img : Bytes)
    (h : (tfsfmtSystem options).Reachable (fun _ _ => True) img) :
    TagTablesOk (headerOf options) img ∧ ∀ (commands : List WriteFilesOptions) (img' : Bytes),
      commands.foldlM (fun img command => writeFiles command img) img = .ok img' →
      EntriesKept (headerOf options) img img' := by
  have hI : ∃ img₀, TablesInv (headerOf options) img₀ img := by
    refine h.invariant (I := fun img => ∃ img₀, TablesInv (headerOf options) img₀ img) ?_
      fun img command img' hI _ hstep => ?_
    · rintro img ⟨img₀, rfl⟩
      exact ⟨_, fsMeta_formatImage G, ⟨[], [], tablesList_formatImage G img₀⟩, .refl _ _⟩
    · obtain ⟨img₀, hI⟩ := hI
      exact ⟨img₀, hI.command G.layout G.tagMetas hstep⟩
  obtain ⟨img₀, hI⟩ := hI
  obtain ⟨names, links, hlists⟩ := hI.lists
  refine ⟨hlists.ok, fun commands img' hrun => ?_⟩
  have hself : TablesInv (headerOf options) img img := ⟨hI.header, hI.lists, .refl _ _⟩
  have hlater : TablesInv (headerOf options) img img' :=
    Res.foldlM_invariant hself (fun img command _ img' h hstep => h.command G.layout G.tagMetas hstep) hrun
  exact hlater.kept

/-- A command with a tag on a formatted image. -/
theorem tagTablesOk_of_reachable_first : ∃ img, writeFiles (tagOneFile nameA) (formatImage {} fun _ => 0) = .ok img ∧
    TagTablesOk (headerOf {}) img := by
  have hparse : ∀ spec ∈ (tagOneFile nameA).fileSpecs, parseFileSpec spec ≠ none := by decide
  obtain ⟨img, h⟩ := writeFileSpecs_return (formatImage {} fun _ => 0) (tagOneFile nameA).files geometry_default.layout
    (fun _ => filterValidTagNames_lt) hparse
  have hwrite : writeFiles (tagOneFile nameA) (formatImage {} fun _ => 0) = .ok img := by
    unfold writeFiles
    rw [fsMeta_formatImage geometry_default]
    exact h
  exact ⟨img, hwrite, (tagTablesOk_of_reachable {} geometry_default img (.step (.init ⟨_, rfl⟩) trivial hwrite)).1⟩

end OSForReal.Proof.TagFS
