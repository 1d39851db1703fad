import OSForReal.Proof.Tfs.WriteRead

/-!
# `tfs_write` and `tagfs_write`

The two drivers write the same image, and fail alike, on the calls that
`SameRoute` describes (`sameWrite_iff`). They part where the FUSE driver marks a
sector, which the kernel does in its copy of the FAT only, and where the kernel
follows or searches the part of the FAT that it does not read: there what it
does depends on what the heap held.
-/

namespace OSForReal.Proof.Tfs

open Framework
open Framework.Bytes
open OSForReal.TagFS
open OSForReal.Proof.TagFS
open OSForReal.Proof.Heap

variable {σ : Type} {S : PageSupply σ} {fs : FSMetadata} {img view buf fats : Bytes} {name : CStr} {l : List Nat}
  {e g i v x size offset sb : Nat}

/-- `tfs_write` returns `b`: it leaves the image that `tagfs_write` does, and `b` is false
exactly when `tagfs_write` returns an error or stores nothing of a buffer that is not empty. -/
def SameResult (img : Bytes) (name : CStr) (buffer : Bytes) (size offset : Nat) (b : Bool) (img' : Bytes) : Prop :=
  img' = (tagfsWrite img name buffer size offset).2 ∧
    (b = false ↔ (tagfsWrite img name buffer size offset).1 < 0 ∨
      (tagfsWrite img name buffer size offset).1 = 0 ∧ 0 < size)

/-- From every heap with room for its blocks, `tfs_write` returns, and what `tagfs_write` does. -/
def SameWrite (S : PageSupply σ) (sb : Nat) (fs : FSMetadata) (img : Bytes) (name : CStr) (size offset : Nat) : Prop :=
  ∀ (h : Heap σ) (buffer : Bytes), FatFits S fs img sb h → ∃ b img' h',
    Res.Returns (fun fuel => tfsWrite S fs sb fuel h img name buffer size offset) (b, img', h') ∧
      SameResult img name buffer size offset b img'

/-- It does so where the memory shows `view`. -/
def SameAt (fs : FSMetadata) (img view : Bytes) (name : CStr) (buffer : Bytes) (size offset : Nat) : Prop :=
  SameResult img name buffer size offset (viewWrite fs img view name buffer size offset).1
    (viewWrite fs img view name buffer size offset).2

/-- The calls on a file in the sectors `l` on which the drivers do the same. A
file without data is written across sectors, with a free entry in the first FAT
sector. Of another file, the entries before the write are in the first FAT
sector; the write begins after the last sector, or ends in the sector where it
begins, or goes on where the first FAT sector has a free entry. -/
def SameRoute (fs : FSMetadata) (img : Bytes) (fileLength : Nat) (l : List Nat) (size offset : Nat) : Prop :=
  if l = [] then 512 < size ∧ nextFreeFat fs img 0 < 256
  else (∀ j < min offset fileLength / 512, l.getD j 0 < 256) ∧
    (min offset fileLength / 512 < l.length → size ≤ 512 - min offset fileLength % 512 ∨ nextFreeFat fs img 0 < 256)

theorem sameAt_of_eq {b : Bool} (hr : viewWrite fs img view name buf size offset = (b, (tagfsWrite img name buf size offset).2))
    (hb : b = false ↔ (tagfsWrite img name buf size offset).1 < 0 ∨ (tagfsWrite img name buf size offset).1 = 0 ∧ 0 < size) :
    SameAt fs img view name buf size offset := by
  rw [SameAt, hr]
  exact ⟨rfl, hb⟩

/-! ## The loops -/

theorem findFreeFat_low (K : KernelImage fs) (h : nextFreeFat fs img 0 < 256) :
    findFreeFat fs img = some (nextFreeFat fs img 0) := by
  have hcount := K.fatCount_eq
  simp only [findFreeFat]
  rw [if_pos (by omega)]

/-- With the same free entry, the loops write the same. -/
theorem writeRest_eq (K : KernelImage fs) {fuel bufIndex : Nat} (hfree : findFreeFat fs img = some g)
    (hfree' : tfsFindFreeFat fs fats = some g) :
    (writeRest fs buf size fuel img bufIndex).2 = viewWriteRest fs fats buf size fuel img bufIndex := by
  induction fuel generalizing img bufIndex with
  | zero => rfl
  | succ fuel ih =>
    by_cases hlt : bufIndex < size
    · have hch := changes_chunk img size bufIndex (fun k => buf (bufIndex + k)) (findFreeFat_some hfree).1
      rw [writeRest_step hfree hlt, viewWriteRest_step K hfree' hlt]
      exact ih ((findFreeFat_congr fun x hx => hch.fat_eq K.layout hx (by simp)).trans hfree)
    · rw [writeRest, viewWriteRest, if_neg hlt, if_neg hlt]

/-- The first sector of an entry may be set before the loop or after it. -/
theorem viewWriteRest_setFirstDataSector (K : KernelImage fs) {fuel bufIndex : Nat} (hi : i < countFileMetaEntries fs)
    (hfree : tfsFindFreeFat fs fats = some g) :
    viewWriteRest fs fats buf size fuel (setFirstDataSector img (fileMetaAt fs i) v) bufIndex =
      (setFirstDataSector (viewWriteRest fs fats buf size fuel img bufIndex).1 (fileMetaAt fs i) v,
        (viewWriteRest fs fats buf size fuel img bufIndex).2) := by
  have hge := Layout.getData_le fs g
  have L := K.layout
  have hfiles := L.files; have htags := L.tags; have hlinks := L.links; have hfats := L.fats
  induction fuel generalizing img bufIndex with
  | zero => rfl
  | succ fuel ih =>
    by_cases hlt : bufIndex < size
    · rw [viewWriteRest_step K hfree hlt, viewWriteRest_step K hfree hlt, ← ih]
      congr 1
      exact copy_comm (.inl (by rw [Layout.fileMetaAt_eq]; omega))
    · rw [viewWriteRest, viewWriteRest, if_neg hlt, if_neg hlt]

/-- The byte at the start of the sector `g` after a write that finds no free
entry: before the rest of the buffer, it holds what it held. -/
theorem viewData_full {r : Nat} (hfree : tfsFindFreeFat fs fats = none) (hr : 512 - r < size)
    (hbuf : ∀ k < 512 - r, buf k = img (sectorAt fs g)) :
    (viewData fs fats img buf size x r).1 (sectorAt fs g) = img (sectorAt fs g) := by
  rw [viewData, if_neg (by omega), viewWriteRest_none hfree]
  show copy img (sectorAt fs x + r) (512 - r) buf (sectorAt fs g) = img (sectorAt fs g)
  by_cases hin : sectorAt fs x + r ≤ sectorAt fs g ∧ sectorAt fs g < sectorAt fs x + r + (512 - r)
  · rw [copy_in hin.1 hin.2]
    exact hbuf _ (by omega)
  · exact copy_out (by omega)

/-! ## What calls that do the same have in common -/

/-- For any contents of the memory, they do the same with a view that shows them. -/
def ViewsSame (fs : FSMetadata) (img : Bytes) (name : CStr) (size offset : Nat) : Prop :=
  ∀ p : Bytes, ∃ view, Shows view p ∧ ∀ buffer, (∀ x, Arrives fs img view name offset x → x < 512) →
    SameAt fs img view name buffer size offset

/-- The calls that do the same whatever they see do so on the heap. -/
theorem sameWrite_of_views (K : KernelImage fs) (hlen : name.strlen < 24) (hfirst : FirstIsIndex fs img name)
    (harrive : ∀ view x, Arrives fs img view name offset x → x < 512)
    (hviews : ∀ view buffer, SameAt fs img view name buffer size offset) : SameWrite S sb fs img name size offset := by
  intro h buffer hfits
  obtain ⟨pre, s, hroom⟩ := hfits
  obtain ⟨view, -, hwrite⟩ := hroom.writesView K hlen hfirst
  obtain ⟨h', hr⟩ := hwrite buffer size offset (harrive view)
  exact ⟨_, _, h', hr, hviews view buffer⟩

/-- And the calls that do the same on the heap do so for what some heap shows. -/
theorem SameWrite.views (h : SameWrite S sb fs img name size offset) (K : KernelImage fs) (hlen : name.strlen < 24)
    (hfirst : FirstIsIndex fs img name) (hheap : ∃ h, FatFits S fs img sb h) : ViewsSame fs img name size offset := by
  intro p
  obtain ⟨heap, view, hfits, hview, hwrite⟩ := exists_writesView K hlen hfirst hheap p
  refine ⟨view, hview, fun buffer harrive => ?_⟩
  obtain ⟨h', hr⟩ := hwrite buffer size offset harrive
  obtain ⟨b, img', h'', hr', hsame⟩ := h heap buffer hfits
  obtain ⟨hb, himg⟩ := Prod.mk.inj (hr.unique hr')
  obtain ⟨himg, -⟩ := Prod.mk.inj himg
  rwa [SameAt, hb, himg]

/-- What the memory held does not matter. -/
theorem ViewsSame.heap_eq (h : ViewsSame fs img name size offset) (p p' : Bytes) : ∃ view view', Shows view p ∧ Shows view' p' ∧
    ∀ buf, (∀ x, Arrives fs img view name offset x → x < 512) → (∀ x, Arrives fs img view' name offset x → x < 512) →
      viewWrite fs img view name buf size offset = viewWrite fs img view' name buf size offset := by
  obtain ⟨view, hview, hsame⟩ := h p
  obtain ⟨view', hview', hsame'⟩ := h p'
  refine ⟨view, view', hview, hview', fun buf harrive harrive' => ?_⟩
  obtain ⟨himg, hb⟩ := hsame buf harrive
  obtain ⟨himg', hb'⟩ := hsame' buf harrive'
  refine Prod.ext ?_ (himg.trans himg'.symm)
  rw [Bool.eq_iff_iff, ← Bool.not_eq_false, ← Bool.not_eq_false, hb, hb']

/-- The FUSE driver marks no entry of the FAT. -/
theorem ViewsSame.fat_eq (h : ViewsSame fs img name size offset) (K : KernelImage fs) (hname : OnlyNamed fs img name i)
    (hfirst : firstDataSector img (fileMetaAt fs i) < 2 ^ 16)
    (harrive : ∀ view x, Arrives fs img view name offset x → x < 512) (hx : x < fatCount fs) :
    fat fs (tagfsWrite img name buf size offset).2 x = fat fs img x := by
  obtain ⟨view, -, hsame⟩ := h fun _ => 0
  obtain ⟨himg, -⟩ := hsame buf (harrive view)
  rw [← himg]
  exact (viewWrite_fileOnly K hname hfirst rfl).fat_eq K.layout hname.lt hx

section

variable (K : KernelImage fs) (hfs : fsMeta img = fs) (hname : OnlyNamed fs img name i)

include K hname

/-! ## A file without data -/

section

variable (hfirst : firstDataSector img (fileMetaAt fs i) = 0xffff) (hempty : fileSize img (fileMetaAt fs i) = 0)

include hfirst hempty

include hfs in
theorem new_of_viewsSame (h : ViewsSame fs img name size offset) : 512 < size ∧ nextFreeFat fs img 0 < 256 := by
  have L := K.layout
  have harrive : ∀ view x, Arrives fs img view name offset x → x < 512 := fun view x hx => hx.lt_of_new K hname hfirst hempty
  have hlow : nextFreeFat fs img 0 < 256 := by
    by_contra hge
    obtain ⟨view, view', hview, hview', hheap⟩ := h.heap_eq endsOnly fun _ => 0
    obtain ⟨g, hfree⟩ := @tfsFindFreeFat_zeroes fs img view' K hview'
    have hheap := hheap (fun _ => 0) (harrive view) (harrive view')
    rw [viewWrite_new K hname hfirst hempty, viewWrite_new K hname hfirst hempty, hfree,
      tfsFindFreeFat_endsOnly K hview (by omega)] at hheap
    exact absurd (Prod.mk.inj hheap).1 Bool.false_ne_true
  refine ⟨?_, hlow⟩
  by_contra hone
  have hfree := findFreeFat_low K hlow
  obtain ⟨hg, h0⟩ := findFreeFat_some hfree
  have hmark := @ViewsSame.fat_eq fs img (fun _ => 0) name i _ size offset h K hname (by omega) harrive hg
  rw [tagfsWrite_fresh hfs (hname.named.fileId L) L hname.lt hfirst hempty hfree (by rw [K.sectorSize_eq]; omega),
    (changes_growFile hname.lt).fat_eq L hg (by simp), fat_setFat_self (by decide), h0] at hmark
  exact absurd hmark (by decide)

include hfs in
theorem sameAt_of_new (hend : offset + size < 2 ^ 31) (hsize : 512 < size) (hlow : nextFreeFat fs img 0 < 256) (view buf : Bytes) :
    SameAt fs img view name buf size offset := by
  have L := K.layout
  have hi := hname.lt
  have hfree := findFreeFat_low K hlow
  obtain ⟨hg, -⟩ := findFreeFat_some hfree
  have hfree' := @tfsFindFreeFat_low fs img view K hlow
  obtain ⟨img', hrest, hfuse⟩ := @tagfsWrite_freshAcross fs img buf name i _ size offset hfs (hname.named.fileId L) L hi
    hfirst hempty hfree (by rwa [K.sectorSize_eq])
  -- The loop of the kernel writes the same, and the first sector of the entry after it.
  have hch : ChangesOnly fs [i] [] [nextFreeFat fs img 0] img (copy (setFirstDataSector img (fileMetaAt fs i)
      (nextFreeFat fs img 0)) (sectorAt fs (nextFreeFat fs img 0)) 512 buf) :=
    (changes_setFirstDataSector hi).trans (changes_sector (o := 0) hg (by rw [K.sectorSize_eq]))
  have hsame := @writeRest_eq fs _ buf (viewFats fs img view) _ size K size 512
    ((findFreeFat_congr fun x hx => hch.fat_eq L hx (by simp)).trans hfree) hfree'
  have hcomm : copy (setFirstDataSector img (fileMetaAt fs i) (nextFreeFat fs img 0)) (sectorAt fs (nextFreeFat fs img 0))
      512 buf = setFirstDataSector (copy img (sectorAt fs (nextFreeFat fs img 0)) 512 buf) (fileMetaAt fs i)
        (nextFreeFat fs img 0) := by
    have hge := Layout.getData_le fs (nextFreeFat fs img 0)
    have hfiles := L.files; have htags := L.tags; have hlinks := L.links; have hfats := L.fats
    exact copy_comm (.inl (by rw [Layout.fileMetaAt_eq]; omega))
  rw [K.sectorSize_eq] at hrest
  rw [hrest, hcomm, viewWriteRest_setFirstDataSector K hi hfree'] at hsame
  obtain ⟨himg, hwritten⟩ := Prod.mk.inj hsame
  refine sameAt_of_eq (b := true) ?_ ?_
  · rw [viewWrite_new K hname hfirst hempty, hfree', hfuse, himg]
    simp only [viewData, if_neg (Nat.not_le_of_lt hsize), Nat.sub_zero, Nat.add_zero, ← hwritten]
    rw [@Nat.mod_eq_of_lt (offset + size) (2 ^ 32) (by omega)]
  · rw [hfuse, toInt_eq (by omega)]
    simp only [Bool.true_eq_false, false_iff]
    omega

end

/-! ## A file with data -/

section

variable (hchain : FatChain fs img (firstDataSector img (fileMetaAt fs i)) l) (hne : l ≠ [])

include hchain hne

/-- The entries before the write are in the first FAT sector. -/
theorem low_of_viewsSame (h : ViewsSame fs img name size offset)
    (hq : writeStart img (fileMetaAt fs i) offset / 512 ≤ l.length) :
    ∀ j < writeStart img (fileMetaAt fs i) offset / 512, l.getD j 0 < 256 := by
  intro j hj
  by_contra hbad
  have hbad : ∃ x ∈ l.take (writeStart img (fileMetaAt fs i) offset / 512), 256 ≤ x := by
    refine ⟨l.getD j 0, ?_, by omega⟩
    rw [List.getD_eq_getElem _ _ (by omega)]
    exact List.mem_take_iff_getElem.mpr ⟨j, by omega, rfl⟩
  obtain ⟨view, view', hview, hview', hheap⟩ := h.heap_eq endsOnly selfLoops
  obtain ⟨x, hx512, hx⟩ := skipFats_selfLoops K hview' hchain hq hbad
  have hnone := skipFats_endsOnly K hview hchain hq hbad
  have hheap := hheap (fun _ => 0)
    (fun y hy => by
      have hskip := hy.of_chain K hname hchain hne
      rw [hnone] at hskip
      cases hskip)
    fun y hy => by
      have hskip := hy.of_chain K hname hchain hne
      rw [hx] at hskip
      rwa [← Option.some.inj hskip]
  rw [viewWrite_chain K hname hchain hne, viewWrite_chain K hname hchain hne, hx, hnone] at hheap
  exact absurd (Prod.mk.inj hheap).1 Bool.false_ne_true

/-- A write that goes on after its first sector finds a free entry in the first FAT sector. -/
theorem free_of_viewsSame (h : ViewsSame fs img name size offset)
    (hq : writeStart img (fileMetaAt fs i) offset / 512 < l.length)
    (hlow : ∀ j < writeStart img (fileMetaAt fs i) offset / 512, l.getD j 0 < 256)
    (hmany : 512 - writeStart img (fileMetaAt fs i) offset % 512 < size) : nextFreeFat fs img 0 < 256 := by
  by_contra hge
  have L := K.layout
  have hi := hname.lt
  obtain ⟨view, view', hview, hview', hheap⟩ := h.heap_eq endsOnly fun _ => 0
  obtain ⟨g, hfree⟩ := @tfsFindFreeFat_zeroes fs img view' K hview'
  obtain ⟨c, hc⟩ := exists_byte_ne (img (sectorAt fs g))
  have harrive : ∀ view x, Arrives fs img view name offset x → x < 512 := fun view x hx =>
    hx.lt_of_low K hname hchain hne (Nat.le_of_lt hq) hlow
  have hheap := hheap (fun k => if k < 512 - writeStart img (fileMetaAt fs i) offset % 512 then img (sectorAt fs g) else c)
    (harrive view) (harrive view')
  rw [viewWrite_chain_some K hname hchain hne (skipFats_low K hchain hq hlow),
    viewWrite_chain_some K hname hchain hne (skipFats_low K hchain hq hlow)] at hheap
  have himg := congrFun (Prod.mk.inj hheap).2 (sectorAt fs g)
  have hge' := Layout.getData_le fs g
  have hfiles := L.files; have htags := L.tags; have hlinks := L.links; have hfats := L.fats
  rw [growFile_out (.inr (by rw [Layout.fileMetaAt_eq]; omega)), growFile_out (.inr (by rw [Layout.fileMetaAt_eq]; omega)),
    viewData_full (tfsFindFreeFat_endsOnly K hview (by omega)) hmany fun k hk => if_pos hk, viewData, if_neg (by omega),
    @viewWriteRest_first fs _ _ _ _ _ K c _ _ hfree (fun k hk => if_neg (by omega)) hmany (by omega)] at himg
  exact hc himg.symm

variable (hl : fileSize img (fileMetaAt fs i) ≤ 512 * l.length)

include hl

theorem route_of_viewsSame (h : ViewsSame fs img name size offset) :
    (∀ j < writeStart img (fileMetaAt fs i) offset / 512, l.getD j 0 < 256) ∧
      (writeStart img (fileMetaAt fs i) offset / 512 < l.length →
        size ≤ 512 - writeStart img (fileMetaAt fs i) offset % 512 ∨ nextFreeFat fs img 0 < 256) := by
  have hstart := writeStart_eq img (fileMetaAt fs i) offset
  have hlow := low_of_viewsSame K hname hchain hne h (by omega)
  refine ⟨hlow, fun hq => ?_⟩
  rcases Nat.lt_or_ge (512 - writeStart img (fileMetaAt fs i) offset % 512) size with hmany | hone
  · exact .inr (free_of_viewsSame K hname hchain hne h hq hlow hmany)
  · exact .inl hone

include hfs in
theorem sameAt_of_route (hmarked : ∀ x ∈ l, fat fs img x ≠ 0) (hend : offset + size < 2 ^ 31)
    (hlow : ∀ j < writeStart img (fileMetaAt fs i) offset / 512, l.getD j 0 < 256)
    (hroute : writeStart img (fileMetaAt fs i) offset / 512 < l.length →
      size ≤ 512 - writeStart img (fileMetaAt fs i) offset % 512 ∨ nextFreeFat fs img 0 < 256) (view buf : Bytes) :
    SameAt fs img view name buf size offset := by
  have L := K.layout
  have hs := K.sectorSize_eq
  have hid := hname.named.fileId L
  have hfirst := first_lt K hchain hne
  have hstart := writeStart_eq img (fileMetaAt fs i) offset
  have hmod : writeStart img (fileMetaAt fs i) offset % 512 < 512 := Nat.mod_lt _ (by decide)
  rcases Nat.lt_or_ge (writeStart img (fileMetaAt fs i) offset / 512) l.length with hq | hq
  · obtain ⟨x, hskip, hx, hdrop⟩ := skipSectors_spec L hchain hq
    have hxq := getD_of_drop hq hdrop
    rw [hdrop] at hx
    have hxlt := hx.2 x List.mem_cons_self
    have hkernel := @viewWrite_chain_some fs img view buf name l i x size offset K hname hchain hne
      (by rw [skipFats_low K hchain hq hlow, hxq])
    rcases Nat.lt_or_ge (512 - writeStart img (fileMetaAt fs i) offset % 512) size with hmany | hone
    · have hfree := (hroute hq).resolve_left (by omega)
      have hfree' := findFreeFat_low K hfree
      obtain ⟨img', hrest, hfuse⟩ := @tagfsWrite_across fs img buf name i _ x size offset hfs hid (by omega)
        (by rw [hs]; exact hskip) L hxlt hfree' (by rw [hs]; exact hmany)
      have hdata : DataOnly fs img (copy img (sectorAt fs x + writeStart img (fileMetaAt fs i) offset % 512)
        (512 - writeStart img (fileMetaAt fs i) offset % 512) buf) := .of_copy
      have hsame := @writeRest_eq fs _ buf (viewFats fs img view) _ size K size
        (512 - writeStart img (fileMetaAt fs i) offset % 512)
        ((findFreeFat_congr fun x hx => hdata.fat_eq L hx).trans hfree') (tfsFindFreeFat_low K hfree)
      rw [hs] at hrest
      rw [hrest] at hsame
      refine sameAt_of_eq (b := true) ?_ ?_
      · simp only [hkernel, hfuse, viewData, if_neg (Nat.not_le_of_lt hmany), ← hsame]
        rw [@Nat.mod_eq_of_lt (offset + size) (2 ^ 32) (by omega)]
      · rw [hfuse, toInt_eq (by omega)]
        simp only [Bool.true_eq_false, false_iff]
        omega
    · have hfat : fat fs img x ≠ 0 := by
        rw [← hxq]
        exact hmarked _ (getD_mem_of_lt hq)
      have hfuse := @tagfsWrite_within fs img buf name i x size offset hfs hid (by omega) (by rw [hs]; exact hskip) L hxlt
        hfat (by rw [hs]; exact hone)
      rw [hs] at hfuse
      refine sameAt_of_eq (b := true) ?_ ?_
      · simp only [hkernel, hfuse, viewData, if_pos hone]
        rw [@Nat.mod_eq_of_lt (offset + size) (2 ^ 32) (by omega)]
      · rw [hfuse, toInt_eq (by omega)]
        simp only [Bool.true_eq_false, false_iff]
        omega
  · obtain hq : writeStart img (fileMetaAt fs i) offset / 512 = l.length := by omega
    have hfuse := @tagfsWrite_bad fs img buf name i size offset hfs hid (by omega)
      (by rw [hs, hq]; exact skipSectors_length hchain hne)
    rw [hq] at hlow
    refine sameAt_of_eq (b := false) ?_ ?_
    · rw [viewWrite_chain K hname hchain hne, hq, skipFats_length K hchain hne hlow, hfuse]
    · rw [hfuse]
      exact iff_of_true rfl (.inl (show (-ebadfd : Int) < 0 by decide))

end

/-- The calls on a file on which the drivers do the same. -/
theorem sameWrite_iff_route (hfs : fsMeta img = fs) (hlen : name.strlen < 24) (hheap : ∃ h, FatFits S fs img sb h)
    (hend : offset + size < 2 ^ 31) (hmarked : ∀ x ∈ l, fat fs img x ≠ 0)
    (hchain : FatChain fs img (firstDataSector img (fileMetaAt fs i)) l)
    (hl : fileSize img (fileMetaAt fs i) ≤ 512 * l.length) :
    SameWrite S sb fs img name size offset ↔ SameRoute fs img (fileSize img (fileMetaAt fs i)) l size offset := by
  have hstart := writeStart_eq img (fileMetaAt fs i) offset
  have hfirst := firstIsIndex_of_lt K hname (first_index_lt K hchain)
  unfold SameRoute
  by_cases hnil : l = []
  · subst hnil
    rw [List.length_nil] at hl
    rw [if_pos rfl]
    constructor
    · exact fun h => new_of_viewsSame K hfs hname hchain.1 (by omega) (h.views K hlen hfirst hheap)
    · intro h
      exact sameWrite_of_views K hlen hfirst (fun view x hx => hx.lt_of_new K hname hchain.1 (by omega))
        (sameAt_of_new K hfs hname hchain.1 (by omega) hend h.1 h.2)
  · rw [if_neg hnil, ← hstart]
    constructor
    · exact fun h => route_of_viewsSame K hname hchain hnil hl (h.views K hlen hfirst hheap)
    · intro h
      exact sameWrite_of_views K hlen hfirst (fun view x hx => hx.lt_of_low K hname hchain hnil (by omega) h.1)
        (sameAt_of_route K hfs hname hchain hnil hl hmarked hend h.1 h.2)

end

/-! ## The drivers -/

/-- A name that is not found. -/
theorem sameWrite_of_absent (K : KernelImage fs) (hfs : fsMeta img = fs) (hlen : name.strlen < 24)
    (habsent : ∀ j < countFileMetaEntries fs, strcmpEq img (nameAt (fileMetaAt fs j)) name = false) :
    SameWrite S sb fs img name size offset := by
  have hnone := metadata_absent K habsent
  have hid : getFileIdFromName fs img name = 0 := by
    refine (named_or_absent fs img name).resolve_left fun ⟨i, hnamed⟩ => ?_
    have hfound := hnamed.found
    rw [habsent i hnamed.lt] at hfound
    cases hfound
  refine sameWrite_of_views K hlen (fun e he => ?_) (fun view x hx => absurd hx (not_arrives hnone)) fun view buf => ?_
  · rw [hnone] at he
    cases he
  · have hfuse : tagfsWrite img name buf size offset = (-enoent, img) := by
      simp only [tagfsWrite, hfs, hid, if_pos]
    refine sameAt_of_eq (b := false) ?_ ?_
    · simp only [viewWrite, hnone, hfuse]
    · rw [hfuse]
      exact iff_of_true rfl (.inl (show (-enoent : Int) < 0 by decide))

end OSForReal.Proof.Tfs
