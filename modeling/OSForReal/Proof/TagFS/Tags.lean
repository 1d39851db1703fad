import OSForReal.Proof.TagFS.Names
import OSForReal.Proof.TagFS.TagMap

/-!
# The tag file map over runs

`Tagged` is an image with what was asked of it: for each file entry, the tags of
the command that wrote it. In the runs of `write_files` commands whose tags are
not empty and that warn of no tag, the map links exactly those
(`tagMapOk_of_reachable`), and an empty tag breaks it (`tagMapOk_fails`).
`tagfs_unlink` does not clear links: they name files in use in the runs that
unlink files without tags (`noStaleTags_of_reachable`), and in no others
(`noStaleTags_fails`).
-/

namespace OSForReal.Proof.TagFS

open Framework
open Framework.Bytes
open OSForReal.TagFS

variable {fs : FSMetadata} {img img' buf : Bytes} {src : List UInt8} {name dst : CStr} {tags : List CStr}
  {asked asked' : Nat → List CStr} {warned : Bool} {i x c size offset : Nat}

/-! ## What was asked -/

/-- An image, the valid tags of the command that wrote each of its file entries
(none for `tagfs_mknod`), and whether a command has warned that it could not
link a tag. -/
structure Tagged where
  img : Bytes
  asked : Nat → List CStr
  warned : Bool

/-- The body of the loop over the file specs, with what it is asked. The image
in which it links the tags is the one that it makes without tags. -/
def storeTagged (fs : FSMetadata) (files : CStr → Option (List UInt8)) (tags : List CStr) (s : Tagged)
    (spec : CStr) : Res Tagged :=
  match parseFileSpec spec with
  | none => .halt
  | some (srcFilePath, dstFileName) =>
    match files srcFilePath with
    | none => .ok s
    | some src => do
      let img ← writeFile fs tags src dstFileName s.img
      let unlinked ← writeFile fs [] src dstFileName s.img
      let i := findFreeFileMeta fs s.img
      if Accepted fs s.img src dstFileName then
        .ok ⟨img, Function.update s.asked i tags, s.warned || linkWarns fs (i + 1) tags unlinked⟩
      else .ok ⟨img, s.asked, s.warned⟩

/-- `write_files`, with what it is asked. -/
def writeFilesTagged (options : WriteFilesOptions) (s : Tagged) : Res Tagged :=
  options.fileSpecs.foldlM (storeTagged (fsMeta s.img) options.files (filterValidTagNames options.tags)) s

/-- The map means what was asked: the tags of a file are those of its command,
and links name entries in use. -/
structure TagMapOk (fs : FSMetadata) (s : Tagged) : Prop where
  linked_iff : ∀ i, Used fs s.img i → ∀ t,
    (∃ k, TagNamed fs s.img k t ∧ Linked fs s.img (k + 1) (i + 1)) ↔ t ∈ s.asked i
  inUse : ∀ id f, Linked fs s.img id f →
    (∃ k, id = k + 1 ∧ k < tagMetaEntryCount fs ∧ tagMetadataEntryIsFree s.img (tagMetaAt fs k) = false) ∧
      ∃ i, f = i + 1 ∧ Used fs s.img i

/-- A formatted image, and the commands `write_files` on it. -/
def tagSystem : System Tagged WriteFilesOptions where
  init s := ∃ img, s = ⟨formatImage {} img, fun _ => [], false⟩
  step s options s' := writeFilesTagged options s = .ok s'

/-- A command with no empty tag that, if it has tags, gives the files names. -/
structure TagsGiven (options : WriteFilesOptions) : Prop where
  nonempty : ∀ tag ∈ filterValidTagNames options.tags, tag.chars ≠ []
  names : filterValidTagNames options.tags ≠ [] → NamesGiven options

/-- What was asked does not change what a command does. -/
theorem writeFilesTagged_img (options : WriteFilesOptions) (s : Tagged) :
    (writeFilesTagged options s >>= fun s' => .ok s'.img) = writeFiles options s.img := by
  refine Res.foldlM_map Tagged.img (fun s₁ spec => ?_) options.fileSpecs s
  unfold storeTagged writeFileSpec
  cases parseFileSpec spec with
  | none => rfl
  | some p =>
    obtain ⟨path, dst⟩ := p
    cases hsrc : options.files path with
    | none => simp only [hsrc]; rfl
    | some src =>
      simp only [hsrc]
      rw [writeFile_eq _ (filterValidTagNames options.tags) src dst s₁.img]
      cases writeFile (fsMeta s.img) [] src dst s₁.img with
      | ok unlinked =>
        simp only [Res.ok_bind]
        split <;> rfl
      | halt => rfl
      | timeout => rfl

/-! ## The tag sections -/

/-- The tag sections do not change. -/
def SameTags (fs : FSMetadata) (img img' : Bytes) : Prop := ∀ a, InTags fs a → img' a = img a

namespace SameTags

theorem trans {img'' : Bytes} (h : SameTags fs img img') (h' : SameTags fs img' img'') : SameTags fs img img'' :=
  fun a ha => (h' a ha).trans (h a ha)

/-- A write before or after the tag sections. -/
theorem of_copy {b n : Nat} {src : Nat → UInt8} (h : b + n ≤ getTagMetadata fs ∨ getFat fs ≤ b) :
    SameTags fs img (copy img b n src) := fun a ha => copy_out (by unfold InTags at ha; omega)

theorem of_file {b n : Nat} {src : Nat → UInt8} (L : Layout fs) (hi : i < countFileMetaEntries fs)
    (hn : b + n ≤ fileMetaAt fs i + 32) : SameTags fs img (copy img b n src) :=
  of_copy (.inl (by have := L.files; rw [Layout.fileMetaAt_eq] at hn; omega))

theorem of_fat {v : Nat} : SameTags fs img (setFat fs img x v) :=
  of_copy (.inr (by rw [Layout.fatAt_eq]; omega))

theorem of_sector {o n : Nat} {src : Nat → UInt8} (L : Layout fs) : SameTags fs img (copy img (sectorAt fs x + o) n src) :=
  of_copy (.inr (by have := L.fats; have := Layout.getData_le fs x; omega))

theorem linked_iff (h : SameTags fs img img') (L : Layout fs) {id f : Nat} : Linked fs img' id f ↔ Linked fs img id f :=
  linked_congr fun a ha ha' => h a ⟨by have := L.tags; omega, by have := L.links; omega⟩

theorem tagNamed {k : Nat} {t : CStr} (h : SameTags fs img img') (L : Layout fs) (hlen : t.strlen < 28)
    (hk : TagNamed fs img k t) : TagNamed fs img' k t :=
  hk.congr hlen fun a ha ha' => by
    have hin := tagMetaAt_within L hk.1
    exact h a ⟨by omega, by omega⟩

end SameTags

/-- The writes of the calls keep the tag sections. -/
theorem keptByWrites_tags (L : Layout fs) (img₀ : Bytes) : KeptByWrites fs fun img =>
    IndicesInRange fs img ∧ (∀ j < countFileMetaEntries fs, SameName fs j img₀ img) ∧ SameTags fs img₀ img where
  inRange _ h := h.1
  first img h i hi v hv :=
    have hkept := (keptByWrites_names L img₀).first img ⟨h.1, h.2.1⟩ i hi v hv
    ⟨hkept.1, hkept.2, h.2.2.trans (.of_file L hi (by omega))⟩
  size img h i hi v :=
    have hkept := (keptByWrites_names L img₀).size img ⟨h.1, h.2.1⟩ i hi v
    ⟨hkept.1, hkept.2, h.2.2.trans (.of_file L hi (by omega))⟩
  fat img h x hx v hv :=
    have hkept := (keptByWrites_names L img₀).fat img ⟨h.1, h.2.1⟩ x hx v hv
    ⟨hkept.1, hkept.2, h.2.2.trans .of_fat⟩
  data img h x hx o n src hn :=
    have hkept := (keptByWrites_names L img₀).data img ⟨h.1, h.2.1⟩ x hx o n src hn
    ⟨hkept.1, hkept.2, h.2.2.trans (.of_sector L)⟩

theorem copyLoop_sameTags {fuel g : Nat} (L : Layout fs) (h : copyLoop fs src fuel img g c = .ok (img', x)) :
    SameTags fs img img' := by
  induction fuel generalizing img g c with
  | zero => cases h
  | succ fuel ih =>
    have hcopy : SameTags fs img (copy img (sectorAt fs g) (min fs.sectorSize (src.length - c)) fun k =>
      src.getD (c + k) 0) := SameTags.of_sector (o := 0) L
    simp only [copyLoop] at h
    split at h
    · obtain ⟨rfl, -⟩ := Prod.mk.inj (Res.ok.inj h)
      exact hcopy.trans .of_fat
    · split at h
      · obtain ⟨rfl, -⟩ := Prod.mk.inj (Res.ok.inj h)
        exact hcopy.trans .of_fat
      · exact (hcopy.trans .of_fat).trans (ih h)

/-- Storing a file without tags keeps the tag sections. -/
theorem writeFile_sameTags (L : Layout fs) (h : writeFile fs [] src dst img = .ok img') : SameTags fs img img' := by
  by_cases hacc : Accepted fs img src dst
  · have hi := hacc.2.1
    have hname := (isTagfsFile_iff.mp hacc.1).2
    simp only [writeFile, hacc.1, Bool.not_true, Bool.false_eq_true, if_false, if_neg (Nat.ne_of_lt hi),
      if_neg (Nat.ne_of_lt hacc.2.2)] at h
    obtain ⟨⟨img₁, c⟩, hloop, h⟩ := Res.bind_eq_ok.mp h
    obtain rfl := Res.ok.inj h
    have hfirst : SameTags fs img (setFirstDataSector img (fileMetaAt fs (findFreeFileMeta fs img)) (nextFreeFat fs img 0)) :=
      .of_file L hi (by omega)
    have hsize : SameTags fs img₁ (setFileSize img₁ (fileMetaAt fs (findFreeFileMeta fs img)) c) :=
      .of_file L hi (by omega)
    refine ((hfirst.trans (copyLoop_sameTags L hloop)).trans hsize).trans ?_
    show SameTags fs _ (setName _ _ dst)
    unfold setName strcpy nameAt
    exact .of_file L hi (by omega)
  · rw [writeFile_skipped [] hacc] at h
    obtain rfl := Res.ok.inj h
    exact fun _ _ => rfl

/-- `tagfs_mknod` keeps the tag sections. -/
theorem tagfsMknod_sameTags {regular : Bool} (L : Layout fs) (hfs : fsMeta img = fs) :
    SameTags fs img (tagfsMknod img name regular).2 := by
  have hle : findFreeFileMeta fs img ≤ countFileMetaEntries fs := scan_le (Nat.zero_le _)
  unfold tagfsMknod
  simp only [hfs]
  split
  · split
    · exact fun _ _ => rfl
    · split
      · exact fun _ _ => rfl
      · have hi : findFreeFileMeta fs img < countFileMetaEntries fs := by omega
        have hfirst : SameTags fs img (setFirstDataSector img (fileMetaAt fs (findFreeFileMeta fs img)) 0xffff) :=
          .of_file L hi (by omega)
        have hsize : ∀ img₁ : Bytes, SameTags fs img₁ (setFileSize img₁ (fileMetaAt fs (findFreeFileMeta fs img)) 0) :=
          fun _ => .of_file L hi (by omega)
        refine (hfirst.trans (hsize _)).trans ?_
        show SameTags fs _ (setName _ _ name)
        unfold setName strcpy nameAt
        exact .of_file L hi (by omega)
  · exact fun _ _ => rfl

/-! ## The invariant -/

/-- Links are those that were asked for, and all of them unless a command has warned. -/
structure TagInv (fs : FSMetadata) (s : Tagged) : Prop where
  inRange : IndicesInRange fs s.img
  linked : ∀ id f, Linked fs s.img id f → ∃ k i, id = k + 1 ∧ f = i + 1 ∧ Used fs s.img i ∧
    ∃ t ∈ s.asked i, t.strlen < 28 ∧ TagNamed fs s.img k t
  complete : s.warned = false → ∀ i, Used fs s.img i → ∀ t ∈ s.asked i,
    t.strlen < 28 ∧ ∃ k, TagNamed fs s.img k t ∧ Linked fs s.img (k + 1) (i + 1)

namespace TagInv

theorem tagMapOk {s : Tagged} (h : TagInv fs s) (hwarned : s.warned = false) : TagMapOk fs s := by
  refine ⟨fun i hi t => ⟨?_, fun ht => (h.complete hwarned i hi t ht).2⟩, fun id f hlink => ?_⟩
  · rintro ⟨k, hk, hlink⟩
    obtain ⟨k', i', hk', hi', -, t', ht', -, hnamed⟩ := h.linked _ _ hlink
    obtain rfl : k = k' := Nat.succ.inj hk'
    obtain rfl : i = i' := Nat.succ.inj hi'
    rw [hk.unique hnamed]
    exact ht'
  · obtain ⟨k, i, rfl, rfl, hi, t, -, -, hnamed⟩ := h.linked id f hlink
    exact ⟨⟨k, rfl, hnamed.1, hnamed.2.1⟩, i, rfl, hi⟩

/-- A formatted image has no links. -/
theorem init (img : Bytes) : TagInv (headerOf {}) ⟨formatImage {} img, fun _ => [], false⟩ := by
  have hI := namesInv_formatImage img
  refine ⟨hI.inRange, fun id f hlink => ?_, fun _ i _ t ht => absurd ht List.not_mem_nil⟩
  obtain ⟨h0, x, hx, hid, -⟩ := hlink
  have L := (geometry_default).layout
  have htotal : getData (headerOf {}) ≤ 1000 * 512 := getData_le_total geometry_default
  have hin := tagFileAt_within L hx
  have hs := L.sectorSize; have hfiles := L.files; have hfats := L.fats
  have hzero : u16 (formatImage {} img) (tagFileAt (headerOf {}) x) = 0 := by
    unfold u16
    rw [formatImage_zero geometry_default (by omega) (by show _ < 1000 * 512; omega),
      formatImage_zero geometry_default (by omega) (by show _ < 1000 * 512; omega)]
    rfl
  exact absurd (hid.symm.trans hzero) h0

/-- The tag sections stay, and at most one entry, without links, is taken or freed. -/
theorem change (h : TagInv fs ⟨img, asked, warned⟩) (L : Layout fs) (hin : IndicesInRange fs img')
    (htags : SameTags fs img img') (hused : ∀ j, j ≠ i → (Used fs img' j ↔ Used fs img j))
    (hasked : ∀ j, j ≠ i → asked' j = asked j) (hnew : Used fs img' i → asked' i = [])
    (hlink : ∀ id, ¬ Linked fs img id (i + 1)) : TagInv fs ⟨img', asked', warned⟩ := by
  refine ⟨hin, fun id f hid => ?_, fun hw j hj t ht => ?_⟩
  · obtain ⟨k, j, rfl, rfl, hj, t, ht, hlen, hk⟩ := h.linked id f ((htags.linked_iff L).mp hid)
    have hji : j ≠ i := fun e => hlink (k + 1) (e ▸ (htags.linked_iff L).mp hid)
    refine ⟨k, j, rfl, rfl, (hused j hji).mpr hj, t, ?_, hlen, htags.tagNamed L hlen hk⟩
    show t ∈ asked' j
    rw [hasked j hji]
    exact ht
  · have hji : j ≠ i := by
      rintro rfl
      have ht' : t ∈ asked' j := ht
      rw [hnew hj] at ht'
      cases ht'
    have ht' : t ∈ asked' j := ht
    rw [hasked j hji] at ht'
    obtain ⟨hlen, k, hk, hl⟩ := h.complete hw j ((hused j hji).mp hj) t ht'
    exact ⟨hlen, k, htags.tagNamed L hlen hk, (htags.linked_iff L).mpr hl⟩

/-- An entry that is not in use has no links. -/
theorem not_linked {s : Tagged} (h : TagInv fs s) (hi : ¬ Used fs s.img i) (id : Nat) : ¬ Linked fs s.img id (i + 1) := by
  intro hlink
  obtain ⟨k, j, -, hj, hused, -⟩ := h.linked id (i + 1) hlink
  obtain rfl : i = j := Nat.succ.inj hj
  exact hi hused

/-- Linking tags to a file that has none. -/
theorem link (h : TagInv fs ⟨img, asked, warned⟩) (L : Layout fs) (hcount : tagMetaEntryCount fs < 65536)
    (hi : i < countFileMetaEntries fs) (hasked : asked i = []) (htags : TagNames tags)
    (hused : tags ≠ [] → Used fs img i) :
    TagInv fs ⟨linkTags fs (i + 1) tags img, Function.update asked i tags, warned || linkWarns fs (i + 1) tags img⟩ := by
  have hch : ChangesOnly fs [] [] [] img (linkTags fs (i + 1) tags img) := linkTags_changes L (i + 1) htags.strlen
  have hiff : ∀ j, Used fs (linkTags fs (i + 1) tags img) j ↔ Used fs img j := fun j => by
    refine and_congr_right fun hj => ?_
    rw [hch.isFree_eq L hj List.not_mem_nil]
  obtain ⟨hadd, hcomplete⟩ := linkTags_spec img L hcount htags (f := i + 1) (by have := L.fileMetas; omega)
  refine ⟨h.inRange.congr L hch (fun _ hj => absurd hj List.not_mem_nil) fun _ hx => absurd hx List.not_mem_nil,
    fun id f hlink => ?_, fun hw j hj t ht => ?_⟩
  · rcases hadd.only id f hlink with hold | ⟨rfl, k, rfl, t, ht, hlen, hk⟩
    · obtain ⟨k, j, rfl, rfl, hj, t, ht, hlen, hk⟩ := h.linked id f hold
      have hji : j ≠ i := by
        rintro rfl
        have ht' : t ∈ asked j := ht
        rw [hasked] at ht'
        cases ht'
      refine ⟨k, j, rfl, rfl, (hiff j).mpr hj, t, ?_, hlen, hadd.names k t hlen hk⟩
      show t ∈ Function.update asked i tags j
      rw [Function.update_of_ne hji]
      exact ht
    · refine ⟨k, i, rfl, rfl, (hiff i).mpr (hused (List.ne_nil_of_mem ht)), t, ?_, hlen, hk⟩
      show t ∈ Function.update asked i tags i
      rw [Function.update_self]
      exact ht
  · obtain ⟨hw, hlw⟩ := Bool.or_eq_false_iff.mp hw
    have ht' : t ∈ Function.update asked i tags j := ht
    by_cases hji : j = i
    · rw [hji, Function.update_self] at ht'
      rw [hji]
      exact ⟨htags.strlen t ht', hcomplete hlw t ht'⟩
    · rw [Function.update_of_ne hji] at ht'
      obtain ⟨hlen, k, hk, hl⟩ := h.complete hw j ((hiff j).mp hj) t ht'
      exact ⟨hlen, k, hadd.names k t hlen hk, hadd.keeps _ _ hl⟩

end TagInv

/-- Storing a file keeps indices in range. -/
theorem Stored.inRange {l : List Nat} (hS : Stored fs src dst img i l c img') (L : Layout fs)
    (h : IndicesInRange fs img) : IndicesInRange fs img' := by
  have hlt := hS.changes.fats_lt
  refine h.congr L hS.changes (fun j hj => ?_) fun x hx => ?_
  · rw [List.mem_singleton.mp hj, hS.chain.head_eq]
    cases l with
    | nil => exact .inl rfl
    | cons y l => exact .inr (hlt y List.mem_cons_self)
  · obtain ⟨l₁, l₂, rfl⟩ := List.append_of_mem hx
    obtain ⟨y, -, rfl, hnext⟩ := Chain.append_iff.mp hS.chain
    rw [hnext.head_eq]
    cases l₂ with
    | nil => exact .inl rfl
    | cons z l₂ => exact .inr (hlt z (List.mem_append_right _ (List.mem_cons_of_mem _ List.mem_cons_self)))

/-- A pass of the loop over the file specs keeps the invariant. -/
theorem TagInv.store {s s' : Tagged} {files : CStr → Option (List UInt8)} {spec : CStr} (h : TagInv fs s) (L : Layout fs)
    (hcount : tagMetaEntryCount fs < 65536) (htags : TagNames tags)
    (hdst : tags ≠ [] → ∀ path dst, parseFileSpec spec = some (path, dst) → dst.chars ≠ [])
    (hr : storeTagged fs files tags s spec = .ok s') : TagInv fs s' := by
  obtain ⟨img, asked, warned⟩ := s
  unfold storeTagged at hr
  split at hr
  · cases hr
  · rename_i path dst hspec
    split at hr
    · obtain rfl := Res.ok.inj hr
      exact h
    · rename_i src hsrc
      obtain ⟨img', hwrite, hr⟩ := Res.bind_eq_ok.mp hr
      obtain ⟨img₁, hunlinked, hr⟩ := Res.bind_eq_ok.mp hr
      rw [writeFile_eq, hunlinked, Res.ok_bind] at hwrite
      by_cases hacc : Accepted fs img src dst
      · simp only [if_pos hacc] at hwrite hr
        obtain rfl := Res.ok.inj hwrite
        obtain rfl := Res.ok.inj hr
        have hi := hacc.2.1
        rcases @writeFile_cases _ [] img src dst L (by simp) with ⟨hno, -⟩ | ⟨-, i, l, c, img₂, hw, hS⟩
        · exact absurd hacc hno
        · obtain rfl := Res.ok.inj (hunlinked.symm.trans hw)
          obtain rfl := hS.index
          -- The file is stored in an entry without links, and then its tags are linked.
          have hstored : TagInv fs ⟨img₁, Function.update asked (findFreeFileMeta fs img) [], warned⟩ := by
            refine h.change L (hS.inRange L h.inRange) (writeFile_sameTags L hunlinked)
              (fun j hj => used_iff L hS.changes hj) (fun j hj => Function.update_of_ne hj _ _)
              (fun _ => Function.update_self _ _ _) (h.not_linked hS.not_used)
          have hlinked := hstored.link L hcount hi (Function.update_self _ _ _) htags
            fun hne => hS.used (hdst hne path dst hspec)
          rwa [Function.update_idem] at hlinked
      · simp only [if_neg hacc] at hwrite hr
        obtain rfl := Res.ok.inj hwrite
        obtain rfl := Res.ok.inj hr
        rw [writeFile_skipped [] hacc] at hunlinked
        obtain rfl := Res.ok.inj hunlinked
        exact h

/-- A command keeps the invariant. -/
theorem TagInv.command {s s' : Tagged} {options : WriteFilesOptions} (h : TagInv fs s) (L : Layout fs)
    (hcount : tagMetaEntryCount fs < 65536) (hgiven : TagsGiven options) (hr : writeFilesTagged options s = .ok s') :
    TagInv fs s' := by
  unfold writeFilesTagged at hr
  rw [h.inRange.header] at hr
  exact Res.foldlM_invariant (I := TagInv fs) h (fun s₁ spec hspec s₂ h₁ hstep => h₁.store L hcount
    ⟨fun _ => filterValidTagNames_lt, hgiven.nonempty⟩ (fun hne => hgiven.names hne spec hspec) hstep) hr

/-! ## Commands -/

/-- In the runs of commands whose tags are not empty, the map means what was asked. -/
theorem tagMapOk_of_reachable (s : Tagged) (h : tagSystem.Reachable (fun _ options => TagsGiven options) s)
    (hwarned : s.warned = false) : TagMapOk (headerOf {}) s := by
  have hI : TagInv (headerOf {}) s := by
    refine h.invariant ?_ fun s options s' hI hgiven hstep =>
      hI.command geometry_default.layout geometry_default.tagMetas hgiven hstep
    rintro s ⟨img, rfl⟩
    exact .init img
  exact hI.tagMapOk hwarned

/-- The host file `a`, and the command that writes it as `b` with one tag. -/
def tagOneFile (tag : CStr) : WriteFilesOptions where
  files := writeOneFile.files
  fileSpecs := writeOneFile.fileSpecs
  tags := [tag]

/-- A formatted image, of which nothing was asked. -/
def formatted : Tagged := ⟨formatImage {} fun _ => 0, fun _ => [], false⟩

theorem namesGiven_tagOneFile (tag : CStr) : NamesGiven (tagOneFile tag) := by
  have hparse : ∀ spec ∈ writeOneFile.fileSpecs, parseFileSpec spec = some (⟨[0x61], by decide⟩, ⟨[0x62], by decide⟩) := by
    decide
  intro spec hspec src dst h
  rw [hparse spec hspec] at h
  obtain ⟨-, rfl⟩ := Prod.mk.inj (Option.some.inj h)
  decide

theorem tagsGiven_tagOneFile : TagsGiven (tagOneFile nameA) :=
  ⟨by decide, fun _ => namesGiven_tagOneFile nameA⟩

/-- The command with one tag, and `tagfs_unlink` of the file after it. -/
theorem tagOneFile_run : ∃ s img, writeFilesTagged (tagOneFile nameA) formatted = .ok s ∧ s.warned = false ∧
    Named (fsMeta s.img) s.img nameB 0 ∧ tagfsUnlink 1 s.img nameB = .ok img ∧ Linked (headerOf {}) img 1 1 ∧
    ¬ Used (headerOf {}) img 0 := by
  have hrun : (writeFilesTagged (tagOneFile nameA) formatted >>= fun s => tagfsUnlink 1 s.img nameB >>= fun img =>
      .ok (s.warned, fsMeta s.img, strcmpEq s.img (nameAt (fileMetaAt (headerOf {}) 0)) nameB,
        u16 img (tagFileAt (headerOf {}) 0), u16 img (tagFileAt (headerOf {}) 0 + 2),
        fileMetadataEntryIsFree img (fileMetaAt (headerOf {}) 0))) = .ok (false, headerOf {}, true, 1, 1, true) := by
    decide +kernel
  obtain ⟨s, hs, hrun⟩ := Res.bind_eq_ok.mp hrun
  obtain ⟨img, hunlink, hrun⟩ := Res.bind_eq_ok.mp hrun
  simp only [Res.ok.injEq, Prod.mk.injEq] at hrun
  obtain ⟨hwarned, hheader, hname, hid, hfile, hfree⟩ := hrun
  refine ⟨s, img, hs, hwarned, ?_, hunlink, ⟨by decide, 0, by decide, hid, hfile⟩, fun ⟨_, hused⟩ => ?_⟩
  · rw [hheader]
    exact ⟨by decide, hname, fun j hj => absurd hj (Nat.not_lt_zero j)⟩
  · rw [hfree] at hused
    cases hused

/-- A formatted image, and a file with one tag. -/
theorem tagMapOk_of_reachable_first : ∃ s, writeFilesTagged (tagOneFile nameA) formatted = .ok s ∧
    s.warned = false ∧ TagMapOk (headerOf {}) s := by
  obtain ⟨s, -, hs, hwarned, -⟩ := tagOneFile_run
  exact ⟨s, hs, hwarned, tagMapOk_of_reachable s (.step (.init ⟨_, rfl⟩) tagsGiven_tagOneFile hs) hwarned⟩

/-- The empty tag is taken for the first free tag entry, and a file is linked to that. -/
theorem tagMapOk_fails : ¬ ∀ s, tagSystem.Reachable (fun _ _ => True) s → s.warned = false → TagMapOk (headerOf {}) s := by
  intro hall
  have hrun : (writeFilesTagged (tagOneFile default) formatted >>= fun s =>
      .ok (s.warned, u16 s.img (tagFileAt (headerOf {}) 0), s.img (tagMetaAt (headerOf {}) 0))) = .ok (false, 1, 0) := by
    decide +kernel
  obtain ⟨s, hs, hend⟩ := Res.bind_eq_ok.mp hrun
  obtain ⟨hwarned, hend⟩ := Prod.mk.inj (Res.ok.inj hend)
  obtain ⟨hid, hfree⟩ := Prod.mk.inj hend
  have hok := hall s (.step (.init ⟨_, rfl⟩) trivial hs) hwarned
  obtain ⟨⟨k, hk, -, hused⟩, -⟩ := hok.inUse 1 _ ⟨by decide, 0, by decide, hid, rfl⟩
  obtain rfl : 0 = k := Nat.succ.inj hk
  rw [tagMetadataEntryIsFree, hfree] at hused
  cases hused

/-! ## Commands and calls -/

/-- What happens to an image: a command, or a call of the FUSE driver. -/
inductive TagEvent where
  | command (options : WriteFilesOptions)
  | call (e : FuseEvent)

/-- Commands without empty tags, and calls. A new file is asked for without
tags; files that are unlinked exist. -/
def TagStep (s : Tagged) : TagEvent → Tagged → Prop
  | .command options, s' => (∀ tag ∈ options.tags, tag.chars ≠ []) ∧ writeFilesTagged options s = .ok s'
  | .call (.mknod name regular), s' => s' = ⟨(tagfsMknod s.img name regular).2,
      if (tagfsMknod s.img name regular).1 = 0 then
        Function.update s.asked (findFreeFileMeta (fsMeta s.img) s.img) []
      else s.asked, s.warned⟩
  | .call (.write name buf size offset), s' => s' = ⟨(tagfsWrite s.img name buf size offset).2, s.asked, s.warned⟩
  | .call (.unlink name), s' => (∃ i, Named (fsMeta s.img) s.img name i ∧ Used (fsMeta s.img) s.img i) ∧
      ∃ fuel img', tagfsUnlink fuel s.img name = .ok img' ∧ s' = ⟨img', s.asked, s.warned⟩

/-- A formatted image, and commands and calls on it. -/
def tagCallSystem : System Tagged TagEvent where
  init s := ∃ img, s = ⟨formatImage {} img, fun _ => [], false⟩
  step := TagStep

/-- Links name files in use, and a file that was asked for without tags has none. -/
structure NoStaleTags (fs : FSMetadata) (s : Tagged) : Prop where
  inUse : ∀ id f, Linked fs s.img id f → ∃ i, f = i + 1 ∧ Used fs s.img i
  untagged : ∀ i, Used fs s.img i → s.asked i = [] → ∀ id, ¬ Linked fs s.img id (i + 1)

/-- A file that is unlinked has no links, and a command with tags gives the files names. -/
def LinksCleared (s : Tagged) : TagEvent → Prop
  | .command options => filterValidTagNames options.tags ≠ [] → NamesGiven options
  | .call (.unlink name) => ∀ i, Named (fsMeta s.img) s.img name i → ∀ id, ¬ Linked (fsMeta s.img) s.img id (i + 1)
  | .call _ => True

namespace TagInv

theorem noStaleTags {s : Tagged} (h : TagInv fs s) : NoStaleTags fs s := by
  refine ⟨fun id f hlink => ?_, fun i _ hasked id hlink => ?_⟩
  · obtain ⟨-, i, -, rfl, hi, -⟩ := h.linked id f hlink
    exact ⟨i, rfl, hi⟩
  · obtain ⟨-, j, -, hj, -, t, ht, -⟩ := h.linked id (i + 1) hlink
    obtain rfl : i = j := Nat.succ.inj hj
    rw [hasked] at ht
    cases ht

theorem mknod {regular : Bool} (h : TagInv fs ⟨img, asked, warned⟩) (L : Layout fs) :
    TagInv fs ⟨(tagfsMknod img name regular).2, if (tagfsMknod img name regular).1 = 0 then
      Function.update asked (findFreeFileMeta fs img) [] else asked, warned⟩ := by
  have hkept := h.inRange
  rcases tagfsMknod_cases hkept.header name regular with ⟨e, he, hr⟩ | ⟨-, img', hr, hnew⟩
  · rw [hr, if_neg he]
    exact h
  · rw [hr, if_pos rfl]
    refine h.change L (hkept.congr L hnew.changes (fun j hj => ?_) fun _ hx => absurd hx List.not_mem_nil) ?_
      (fun j hj => used_iff L hnew.changes hj) (fun j hj => Function.update_of_ne hj _ _)
      (fun _ => Function.update_self _ _ _) (h.not_linked hnew.unused)
    · rw [List.mem_singleton.mp hj]
      exact .inl hnew.first
    · have htags : SameTags fs img (tagfsMknod img name regular).2 := tagfsMknod_sameTags L hkept.header
      rwa [hr] at htags

theorem write (h : TagInv fs ⟨img, asked, warned⟩) (L : Layout fs) :
    TagInv fs ⟨(tagfsWrite img name buf size offset).2, asked, warned⟩ := by
  obtain ⟨hin, hsame, htags⟩ := @KeptByWrites.tagfsWrite _ _ buf name size offset _ (keptByWrites_tags L img)
    ⟨h.inRange, fun _ _ _ _ => rfl, fun _ _ => rfl⟩ L
  refine h.change (i := countFileMetaEntries fs) L hin htags (fun j _ => ?_) (fun _ _ => rfl)
    (fun hu => absurd hu.1 (Nat.lt_irrefl _)) (h.not_linked fun hu => absurd hu.1 (Nat.lt_irrefl _))
  by_cases hj : j < countFileMetaEntries fs
  · exact (hsame j hj).used_iff
  · exact iff_of_false (fun hu => hj hu.1) fun hu => hj hu.1

theorem unlink {fuel : Nat} (h : TagInv fs ⟨img, asked, warned⟩) (L : Layout fs) (hname : Named fs img name i)
    (hlink : ∀ id, ¬ Linked fs img id (i + 1)) (hr : tagfsUnlink fuel img name = .ok img') :
    TagInv fs ⟨img', asked, warned⟩ := by
  obtain ⟨hin, hsame, htags⟩ := (keptByWrites_tags L _).unlink_named h.inRange.header L hname
    ⟨h.inRange.clearName L hname.lt, fun _ _ _ _ => rfl, fun _ _ => rfl⟩ hr
  have hclear : SameTags fs img (copy img (nameAt (fileMetaAt fs i)) 1 fun _ => 0) := by
    unfold nameAt
    exact .of_file L hname.lt (by omega)
  refine h.change L hin (hclear.trans htags) (fun j hji => ?_) (fun _ _ => rfl) (fun hu => ?_) hlink
  · by_cases hj : j < countFileMetaEntries fs
    · exact (hsame j hj).used_iff.trans (used_iff L (changes_clearName hname.lt) hji)
    · exact iff_of_false (fun hu => hj hu.1) fun hu => hj hu.1
  · exact absurd ((hsame i hname.lt).used_iff.mp hu) not_used_clearName

/-- A command or a call keeps the invariant. -/
theorem step {s s' : Tagged} {e : TagEvent} (h : TagInv fs s) (L : Layout fs) (hcount : tagMetaEntryCount fs < 65536)
    (hok : LinksCleared s e) (hs : TagStep s e s') : TagInv fs s' := by
  obtain ⟨img, asked, warned⟩ := s
  have hheader : fsMeta img = fs := h.inRange.header
  cases e with
  | command options =>
    obtain ⟨htags, hr⟩ := hs
    exact h.command L hcount ⟨fun t ht => htags t (List.mem_filter.mp ht).1, hok⟩ hr
  | call e =>
    cases e with
    | mknod name regular =>
      obtain rfl := hs
      simp only [hheader]
      exact h.mknod L
    | write name buf size offset =>
      obtain rfl := hs
      exact h.write L
    | unlink name =>
      obtain ⟨⟨i, hname, -⟩, fuel, img', hr, rfl⟩ := hs
      simp only [LinksCleared, hheader] at hname hok
      exact h.unlink L hname (hok i hname) hr

end TagInv

/-- In the runs that unlink files without links, no link is stale. -/
theorem noStaleTags_of_reachable (s : Tagged) (h : tagCallSystem.Reachable LinksCleared s) :
    NoStaleTags (headerOf {}) s := by
  have hI : TagInv (headerOf {}) s := by
    refine h.invariant ?_ fun s e s' hI hok hs => hI.step geometry_default.layout geometry_default.tagMetas hok hs
    rintro s ⟨img, rfl⟩
    exact .init img
  exact hI.noStaleTags

/-- The file `a` is created, and written to. -/
def withFileA (img : Bytes) : Bytes := (tagfsWrite (tagfsMknod img nameA true).2 nameA (fun _ => 7) 9 0).2

theorem reachable_withFileA {s : Tagged} {i : Nat} (h : tagCallSystem.Reachable LinksCleared s)
    (hmade : (tagfsMknod s.img nameA true).1 = 0) (hentry : findFreeFileMeta (fsMeta s.img) s.img = i) :
    tagCallSystem.Reachable LinksCleared ⟨withFileA s.img, Function.update s.asked i [], s.warned⟩ := by
  have hmknod : TagStep s (.call (.mknod nameA true))
      ⟨(tagfsMknod s.img nameA true).2, Function.update s.asked i [], s.warned⟩ := by
    rw [TagStep, if_pos hmade, hentry]
  have hmade : tagCallSystem.Reachable LinksCleared
      ⟨(tagfsMknod s.img nameA true).2, Function.update s.asked i [], s.warned⟩ :=
    .step (i := .call (.mknod nameA true)) h trivial hmknod
  exact .step (i := .call (.write nameA (fun _ => 7) 9 0)) hmade trivial rfl

/-- A file with one tag, and another one that is created, written to and removed. -/
theorem noStaleTags_of_reachable_removed : ∃ s img, writeFilesTagged (tagOneFile nameA) formatted = .ok s ∧
    tagfsUnlink 1 (withFileA s.img) nameA = .ok img ∧ Linked (headerOf {}) img 1 1 ∧
      NoStaleTags (headerOf {}) ⟨img, Function.update s.asked 1 [], s.warned⟩ := by
  have hrun : (writeFilesTagged (tagOneFile nameA) formatted >>= fun s => tagfsUnlink 1 (withFileA s.img) nameA >>= fun img =>
      .ok ((tagfsMknod s.img nameA true).1, findFreeFileMeta (fsMeta s.img) s.img, fsMeta (withFileA s.img),
        [strcmpEq (withFileA s.img) (nameAt (fileMetaAt (headerOf {}) 1)) nameA,
          strcmpEq (withFileA s.img) (nameAt (fileMetaAt (headerOf {}) 0)) nameA,
          fileMetadataEntryIsFree (withFileA s.img) (fileMetaAt (headerOf {}) 1)],
        u16 img (tagFileAt (headerOf {}) 0), u16 img (tagFileAt (headerOf {}) 0 + 2))) =
      .ok (0, 1, headerOf {}, [true, false, false], 1, 1) := by decide +kernel
  obtain ⟨s, hs, hrun⟩ := Res.bind_eq_ok.mp hrun
  obtain ⟨img, hunlink, hrun⟩ := Res.bind_eq_ok.mp hrun
  simp only [Res.ok.injEq, Prod.mk.injEq, List.cons.injEq, and_true] at hrun
  obtain ⟨hmade, hentry, hheader, ⟨hname, hother, hused⟩, hid, hfile⟩ := hrun
  have hnamed : Named (headerOf {}) (withFileA s.img) nameA 1 :=
    ⟨by decide, hname, fun j hj => by rwa [Nat.lt_one_iff.mp hj]⟩
  have hcommand : tagCallSystem.Reachable LinksCleared s :=
    .step (i := .command (tagOneFile nameA)) (.init ⟨_, rfl⟩) (fun _ => namesGiven_tagOneFile nameA) ⟨by decide, hs⟩
  have hcalls := reachable_withFileA hcommand hmade hentry
  refine ⟨s, img, hs, hunlink, ⟨by decide, 0, by decide, hid, hfile⟩, noStaleTags_of_reachable _
    (.step hcalls (i := .call (.unlink nameA)) (fun i hi id hlink => ?_) ⟨⟨1, ?_, ?_⟩, 1, img, hunlink, rfl⟩)⟩
  · simp only [hheader] at hi hlink
    obtain rfl : i = 1 := hi.scan_eq.symm.trans hnamed.scan_eq
    have hasked : Function.update s.asked 1 [] 1 = [] := Function.update_self ..
    exact (noStaleTags_of_reachable _ hcalls).untagged 1 ⟨by decide, hused⟩ hasked id hlink
  · simp only [hheader]
    exact hnamed
  · simp only [hheader]
    exact ⟨by decide, hused⟩

/-- A file with a tag that is unlinked leaves its link, to an entry that is free. -/
theorem noStaleTags_fails : ¬ ∀ s, tagCallSystem.Reachable (fun _ _ => True) s → NoStaleTags (headerOf {}) s := by
  intro hall
  obtain ⟨s, img, hs, -, hnamed, hunlink, hlinked, hfree⟩ := tagOneFile_run
  have hok := hall ⟨img, s.asked, s.warned⟩ (.step (.step (.init ⟨_, rfl⟩) (i := .command (tagOneFile nameA)) trivial
    ⟨by decide, hs⟩) (i := .call (.unlink nameB)) trivial ⟨⟨0, hnamed, hnamed.used (by decide)⟩, 1, img, hunlink, rfl⟩)
  obtain ⟨i, hi, hused⟩ := hok.inUse 1 1 hlinked
  obtain rfl : 0 = i := Nat.succ.inj hi
  exact hfree hused

end OSForReal.Proof.TagFS
