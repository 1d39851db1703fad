import OSForReal.Proof.Tfs.Write

/-!
# `tfs_read` after `tfs_write`

`WriteLaw` is what a write that returns true is to mean: the recorded size,
the bytes that a later `tfs_read` returns, and the file's other bytes.
`tfsWriteRead_iff` says for which files and windows the driver keeps it, from
every heap with room for its blocks: those that a write reaches through the
first FAT sector and that end in the sector where they begin, or, by accident,
in the first free one.
-/

namespace OSForReal.Proof.Tfs

open Framework
open Framework.Bytes
open OSForReal.TagFS
open OSForReal.Proof.TagFS
open OSForReal.Proof.Heap

variable {σ : Type} {S : PageSupply σ} {fs : FSMetadata} {img img' view buf fats : Bytes} {name : CStr} {l : List Nat}
  {e g i k n r x size offset sb : Nat}

/-! ## The law -/

/-- The free FAT entries are enough for a file of `n` bytes whose sectors are `l`. -/
def EnoughFree (fs : FSMetadata) (img : Bytes) (l : List Nat) (n : Nat) : Prop :=
  (n + 511) / 512 ≤ l.length + (freeFats fs img).length

/-- A write to the file `i`, of the sectors `l`, that returns true and leaves `img'`
(`writes`) is recorded and read back and keeps the other bytes, and it returns
true where the free FAT entries are enough. -/
structure WriteLaw (fs : FSMetadata) (img : Bytes) (i : Nat) (l : List Nat) (size offset : Nat)
    (writes readBack : Bytes → Prop) : Prop where
  recorded : ∀ img', writes img' → fileSize img' (fileMetaAt fs i) = max (fileSize img (fileMetaAt fs i)) (offset + size)
  readsBack : ∀ img', writes img' → readBack img'
  keeps : ∀ img', writes img' → ∀ k < fileSize img (fileMetaAt fs i), k < offset ∨ offset + size ≤ k →
    byteAt fs img' l k = byteAt fs img l k
  returns : EnoughFree fs img l (max (fileSize img (fileMetaAt fs i)) (offset + size)) → ∃ img', writes img'

/-- `tfs_write` and a later `tfs_read` keep the law, from every heap with room for their blocks. -/
def WriteReadOk (S : PageSupply σ) (sb : Nat) (fs : FSMetadata) (img : Bytes) (i : Nat) (name : CStr) (l : List Nat)
    (size offset : Nat) : Prop :=
  ∀ (h : Heap σ) (buffer out : Bytes), FatFits S fs img sb h → WriteLaw fs img i l size offset
    (fun img' => ∃ h', Res.Returns (fun fuel => tfsWrite S fs sb fuel h img name buffer size offset) (true, img', h'))
    fun img' => ∀ h', FatFits S fs img' sb h' → ∃ out' h'',
      Res.Returns (fun fuel => tfsRead S fs sb fuel h' img' name out size offset) (true, out', h'') ∧
        ∀ k < size, out' k = buffer k

/-- The calls keep it where the memory shows `view` at the write and `view'` at the read. -/
def WriteReadAt (fs : FSMetadata) (img : Bytes) (i : Nat) (name : CStr) (l : List Nat) (size offset : Nat)
    (view view' buffer out : Bytes) : Prop :=
  WriteLaw fs img i l size offset (fun img' => viewWrite fs img view name buffer size offset = (true, img'))
    fun img' => ∃ out', viewRead fs img' view' name out size offset = (true, out') ∧ ∀ k < size, out' k = buffer k

/-- A file without data, a window in one sector, and a free entry in the first FAT sector, or none at all. -/
def FitsNew (fs : FSMetadata) (img : Bytes) (size : Nat) : Prop :=
  size ≤ 512 ∧ (nextFreeFat fs img 0 < 256 ∨ fatCount fs ≤ nextFreeFat fs img 0)

/-- The entries before the window are in the first FAT sector. The window lies in
the sector `l[q]`, or in it and the next, which the FAT has as the first free one;
or it begins after the last sector, and the free entries are not enough. -/
def FitsChain (fs : FSMetadata) (img : Bytes) (fileLength : Nat) (l : List Nat) (size offset : Nat) : Prop :=
  (∀ j < offset / 512, l.getD j 0 < 256) ∧
    (offset / 512 < l.length → size ≤ 512 - offset % 512 ∨
      size ≤ 1024 - offset % 512 ∧ l.getD (offset / 512) 0 < 256 ∧ nextFreeFat fs img 0 < 256 ∧
        fat fs img (l.getD (offset / 512) 0) = nextFreeFat fs img 0) ∧
    (offset / 512 = l.length → ¬ EnoughFree fs img l (max fileLength (offset + size)))

/-- The writes that the driver gets right. -/
def WritesWell (fs : FSMetadata) (img : Bytes) (fileLength : Nat) (l : List Nat) (size offset : Nat) : Prop :=
  if l = [] then FitsNew fs img size else FitsChain fs img fileLength l size offset

/-! ## Data -/

/-- Copying to a sector of a chain writes the bytes of the file there. -/
theorem byteAt_copy_sector (K : KernelImage fs) (h : FatChain fs img g l) {src : Nat → UInt8} {q : Nat} (hq : q < l.length)
    (hn : r + n ≤ 512) (m : Bytes) (hk : k < 512 * l.length) :
    byteAt fs (copy m (sectorAt fs (l.getD q 0) + r) n src) l k =
      if 512 * q + r ≤ k ∧ k < 512 * q + r + n then src (k - (512 * q + r)) else byteAt fs m l k := by
  have hs := K.sectorSize_eq
  have hcopy := @byteAt_copy fs img g l q r n k src K.layout h hq (by rwa [hs]) m (by rwa [hs])
  rwa [hs] at hcopy

/-- Data elsewhere is left. -/
theorem viewData_out (K : KernelImage fs) {y : Nat} (hx : x < 2 ^ 16) (hy : y < 2 ^ 16) (hyx : y ≠ x) (hr : r < 512)
    (hfree : tfsFindFreeFat fs fats ≠ some y) : (viewData fs fats img buf size x r).1 (sectorAt fs y) = img (sectorAt fs y) := by
  have hdata := K.sectorAt_eq hx; have hdata' := K.sectorAt_eq hy
  unfold viewData
  split
  · exact copy_out (by omega)
  · cases hg : tfsFindFreeFat fs fats with
    | none =>
      rw [viewWriteRest_none hg]
      exact copy_out (by omega)
    | some g =>
      obtain ⟨img', hr, hch⟩ : ∃ img', viewWriteRest fs fats buf size size (copy img (sectorAt fs x + r) (512 - r) buf)
          (512 - r) = (img', size) ∧ ChangesOnly fs [] [] [g] (copy img (sectorAt fs x + r) (512 - r) buf) img' :=
        viewWriteRest_some K buf size size (512 - r) hg (by omega) (by omega)
      have hgy : g ≠ y := fun h => hfree (h ▸ hg)
      have hg16 := (tfsFindFreeFat_some K hg).1
      have hdata'' := K.sectorAt_eq (show g < 2 ^ 16 by omega)
      have hfats := K.layout.fats
      rw [hr]
      show img' (sectorAt fs y) = img (sectorAt fs y)
      rw [hch.keeps _ (by simp) (fun hin => ?_) (by simp) fun z hz hin => ?_]
      · exact copy_out (by omega)
      · have := hin.2
        omega
      · obtain rfl := List.mem_singleton.mp hz
        obtain ⟨h1, h2⟩ := hin
        rw [K.sectorSize_eq] at h2
        omega

/-- The first byte of the sector that takes the rest is that of the last chunk. -/
theorem viewWriteRest_first (K : KernelImage fs) {c : UInt8} {fuel bufIndex : Nat} (hfree : tfsFindFreeFat fs fats = some g)
    (hc : ∀ k, bufIndex ≤ k → buf k = c) (h : bufIndex < size) (hfuel : size ≤ bufIndex + fuel) :
    (viewWriteRest fs fats buf size fuel img bufIndex).1 (sectorAt fs g) = c := by
  induction fuel generalizing img bufIndex with
  | zero => omega
  | succ fuel ih =>
    have hchunk : 1 ≤ chunk fs size bufIndex := chunk_pos (by rw [K.sectorSize_eq]; decide) h
    rw [viewWriteRest_step K hfree h]
    by_cases hmore : bufIndex + chunk fs size bufIndex < size
    · exact ih (fun k hk => hc k (by omega)) hmore (by omega)
    · have hdone : viewWriteRest fs fats buf size fuel
          (copy img (sectorAt fs g) (chunk fs size bufIndex) fun k => buf (bufIndex + k)) (bufIndex + chunk fs size bufIndex) =
          (copy img (sectorAt fs g) (chunk fs size bufIndex) fun k => buf (bufIndex + k), bufIndex + chunk fs size bufIndex) := by
        cases fuel with
        | zero => rfl
        | succ fuel => rw [viewWriteRest, if_neg hmore]
      rw [hdone]
      show copy img (sectorAt fs g) (chunk fs size bufIndex) (fun k => buf (bufIndex + k)) (sectorAt fs g) = c
      rw [copy_in (Nat.le_refl _) (by omega)]
      exact hc _ (by omega)

/-- A window that goes on in the first free sector, and ends there. -/
theorem viewData_two (K : KernelImage fs) (hfree : tfsFindFreeFat fs fats = some g) (hr : r < 512) (hmany : 512 - r < size)
    (hsize : size ≤ 1024 - r) : viewData fs fats img buf size x r =
      (copy (copy img (sectorAt fs x + r) (512 - r) buf) (sectorAt fs g) (size - (512 - r)) (fun k => buf (512 - r + k)),
        size) := by
  obtain ⟨fuel, rfl⟩ : ∃ n, size = n + 1 := ⟨size - 1, by omega⟩
  have hchunk : chunk fs (fuel + 1) (512 - r) = fuel + 1 - (512 - r) := by
    unfold chunk
    rw [K.sectorSize_eq, if_pos (by omega)]
  rw [viewData, if_neg (by omega), viewWriteRest_step K hfree hmany, hchunk, Nat.add_sub_of_le (Nat.le_of_lt hmany)]
  cases fuel with
  | zero => rfl
  | succ fuel => rw [viewWriteRest, if_neg (Nat.lt_irrefl _)]

/-! ## What the calls see -/

/-- For any contents of the memory at the write and at the read, the calls keep the law with views that show them. -/
def ViewsOk (fs : FSMetadata) (img : Bytes) (i : Nat) (name : CStr) (l : List Nat) (size offset : Nat) : Prop :=
  ∀ p p' : Bytes, ∃ view, Shows view p ∧ ∀ buffer out, (∀ x, Arrives fs img view name offset x → x < 512) →
    ∃ view', Shows view' p' ∧ WriteReadAt fs img i name l size offset view view' buffer out

section

variable (K : KernelImage fs) (hname : OnlyNamed fs img name i) (hlen : name.strlen < 24)
  (hfirst : firstDataSector img (fileMetaAt fs i) < 2 ^ 16)

include K hname hlen hfirst

variable (S sb) in
/-- The heaps with room are the same after a write: it leaves the FAT. -/
theorem firstIsIndex_of_write {b : Bool} (hr : viewWrite fs img view name buf size offset = (b, img')) :
    OnlyNamed fs img' name i ∧ FirstIsIndex fs img' name ∧ ∀ h : Heap σ, FatFits S fs img sb h ↔ FatFits S fs img' sb h := by
  have honly := viewWrite_fileOnly K hname hfirst hr
  have hname' := honly.onlyNamed K.layout hlen hname
  refine ⟨hname', firstIsIndex_of_lt K hname' (firstDataSector_viewWrite K hname hfirst hr), fun h => ?_⟩
  exact FatFits.congr fun x hx => honly.fat_eq K.layout hname.lt (by rw [K.fatCount_eq]; omega)

/-- The calls that keep the law whatever they see keep it on the heap. -/
theorem writeReadOk_of_views (harrive : ∀ view x, Arrives fs img view name offset x → x < 512)
    (hviews : ∀ view view' buffer out, WriteReadAt fs img i name l size offset view view' buffer out) :
    WriteReadOk S sb fs img i name l size offset := by
  intro h buffer out hfits
  obtain ⟨pre, s, hroom⟩ := hfits
  obtain ⟨view, -, hwrite⟩ := hroom.writesView K hlen (firstIsIndex_of_lt K hname hfirst)
  obtain ⟨h₁, hr⟩ := hwrite buffer size offset (harrive view)
  -- What the call returns is what it returns on the view.
  have hview : ∀ img', (∃ h', Res.Returns (fun fuel => tfsWrite S fs sb fuel h img name buffer size offset) (true, img', h')) ↔
      viewWrite fs img view name buffer size offset = (true, img') := fun img' => by
    constructor
    · rintro ⟨h', hr'⟩
      obtain ⟨hb, himg⟩ := Prod.mk.inj (hr.unique hr')
      exact Prod.ext hb (Prod.mk.inj himg).1
    · intro hr'
      rw [hr'] at hr
      exact ⟨h₁, hr⟩
  refine ⟨fun img' hw => ?_, fun img' hw h₂ hfits₂ => ?_, fun img' hw => ?_, fun henough => ?_⟩
  · exact (hviews view (fun _ => 0) buffer out).recorded img' ((hview img').mp hw)
  · have hw' := (hview img').mp hw
    obtain ⟨hname', hfirst', -⟩ := firstIsIndex_of_write S sb K hname hlen hfirst hw'
    obtain ⟨pre, s, hroom⟩ := hfits₂
    obtain ⟨view', -, hread⟩ := hroom.readsView K hlen hfirst'
    obtain ⟨out', hr', hout⟩ := (hviews view view' buffer out).readsBack img' hw'
    obtain ⟨⟨h₃, hr₃⟩, -⟩ := hread out size offset
    rw [hr'] at hr₃
    exact ⟨out', h₃, hr₃, hout⟩
  · exact (hviews view (fun _ => 0) buffer out).keeps img' ((hview img').mp hw)
  · obtain ⟨img', hw⟩ := (hviews view (fun _ => 0) buffer out).returns henough
    exact ⟨img', (hview img').mpr hw⟩

/-- And the calls that keep it on the heap keep it for what some heap shows. -/
theorem WriteReadOk.views (hheap : ∃ h, FatFits S fs img sb h) (hok : WriteReadOk S sb fs img i name l size offset) :
    ViewsOk fs img i name l size offset := by
  intro p p'
  obtain ⟨h, view, hfits, hview, hwrite⟩ := exists_writesView K hlen (firstIsIndex_of_lt K hname hfirst) hheap p
  refine ⟨view, hview, fun buffer out harrive => ?_⟩
  obtain ⟨h₁, hr⟩ := hwrite buffer size offset harrive
  have law := hok h buffer out hfits
  have hwrites : ∀ img', viewWrite fs img view name buffer size offset = (true, img') →
      ∃ h', Res.Returns (fun fuel => tfsWrite S fs sb fuel h img name buffer size offset) (true, img', h') := fun img' hr' => by
    rw [hr'] at hr
    exact ⟨h₁, hr⟩
  obtain ⟨b, img₁, hres⟩ : ∃ b img₁, viewWrite fs img view name buffer size offset = (b, img₁) := ⟨_, _, rfl⟩
  obtain ⟨hname', hfirst', hsame⟩ := firstIsIndex_of_write S sb K hname hlen hfirst hres
  obtain ⟨h₂, view', hfits₂, hview', hread⟩ := exists_readsView K hlen hfirst'
    (hheap.imp fun h hfits => (hsame h).mp hfits) p'
  refine ⟨view', hview', fun img' hw => law.recorded img' (hwrites img' hw), fun img' hw => ?_,
    fun img' hw => law.keeps img' (hwrites img' hw), fun henough => ?_⟩
  · obtain ⟨-, rfl⟩ := Prod.mk.inj (hres.symm.trans hw)
    obtain ⟨out', h₃, hr₃, hout⟩ := law.readsBack img₁ (hwrites img₁ hw) h₂ hfits₂
    obtain ⟨⟨h₄, hr₄⟩, -⟩ := hread out size offset
    obtain ⟨hb, hout'⟩ := Prod.mk.inj (hr₄.unique hr₃)
    exact ⟨out', Prod.ext hb (Prod.mk.inj hout').1, hout⟩
  · obtain ⟨img', h', hr'⟩ := law.returns henough
    obtain ⟨hb, himg⟩ := Prod.mk.inj (hr.unique hr')
    exact ⟨img', Prod.ext hb (Prod.mk.inj himg).1⟩

end

/-! ## A file with data -/

section

variable (K : KernelImage fs) (hname : OnlyNamed fs img name i)
  (hchain : FatChain fs img (firstDataSector img (fileMetaAt fs i)) l) (hoff : offset ≤ fileSize img (fileMetaAt fs i))

include K hname hchain hoff

/-- The file after a call that arrives at the sector `x`: its chain, its name, its size and its data. -/
theorem viewWrite_after (hlen : name.strlen < 24) (hl : l ≠ [])
    (hskip : skipFats (viewFats fs img view) (offset / 512) (firstDataSector img (fileMetaAt fs i)) = some x) :
    ∃ img', viewWrite fs img view name buf size offset = (true, img') ∧ OnlyNamed fs img' name i ∧
      FileOnly fs i img img' ∧ firstDataSector img' (fileMetaAt fs i) = firstDataSector img (fileMetaAt fs i) ∧
      FatChain fs img' (firstDataSector img' (fileMetaAt fs i)) l ∧
      fileSize img' (fileMetaAt fs i) = max (fileSize img (fileMetaAt fs i))
        ((offset + (viewData fs (viewFats fs img view) img buf size x (offset % 512)).2) % 2 ^ 32) ∧
      ∀ y k, img' (sectorAt fs y + k) =
        (viewData fs (viewFats fs img view) img buf size x (offset % 512)).1 (sectorAt fs y + k) := by
  have L := K.layout
  have hi := hname.lt
  have hD : DataOnly fs img (viewData fs (viewFats fs img view) img buf size x (offset % 512)).1 := viewData_dataOnly K
  have hr := @viewWrite_chain_some fs img view buf name l i x size offset K hname hchain hl
  rw [writeStart_of_le hoff] at hr
  specialize hr hskip
  have honly := viewWrite_fileOnly K hname (by have := first_lt K hchain hl; omega) hr
  generalize viewData fs (viewFats fs img view) img buf size x (offset % 512) = d at hr hD honly
  have hentry : ∀ k < 32, d.1 (fileMetaAt fs i + k) = img (fileMetaAt fs i + k) := hD.entry L hi
  have hfirst : firstDataSector d.1 (fileMetaAt fs i) = firstDataSector img (fileMetaAt fs i) :=
    u32_congr fun a ha ha' => by
      obtain ⟨k, rfl⟩ := Nat.exists_eq_add_of_le ha
      exact hentry k (by omega)
  have hsize : fileSize d.1 (fileMetaAt fs i) = fileSize img (fileMetaAt fs i) := u32_congr fun a ha ha' => by
    obtain ⟨k, rfl⟩ := Nat.exists_eq_add_of_le ha
    rw [Nat.add_assoc]
    exact hentry (4 + k) (by omega)
  refine ⟨_, hr, honly.onlyNamed L hlen hname, honly, ?_, ?_, ?_, fun y k => ?_⟩
  · rw [firstDataSector_growFile, hfirst]
  · rw [firstDataSector_growFile, hfirst]
    exact honly.fatChain L hi hchain
  · rw [fileSize_growFile (Nat.mod_lt _ (by decide)), hsize]
  · have hge := Layout.getData_le fs y
    have hfiles := L.files; have htags := L.tags; have hlinks := L.links; have hfats := L.fats
    exact growFile_out (.inr (by rw [Layout.fileMetaAt_eq]; omega))

/-- A window in the sectors `q` and after, whose data is where the chain has it. -/
theorem writeReadAt_of_data (hfs : fsMeta img = fs) (hlen : name.strlen < 24) (hpos : 0 < size)
    (hl : fileSize img (fileMetaAt fs i) ≤ 512 * l.length) (hend : offset + size ≤ 512 * l.length)
    (hlow : ∀ j, 512 * (j + 1) < offset + size → l.getD j 0 < 256)
    (hdata : ∀ view buffer, (viewData fs (viewFats fs img view) img buffer size (l.getD (offset / 512) 0)
        (offset % 512)).2 = size ∧ ∀ k < 512 * l.length,
      byteAt fs (viewData fs (viewFats fs img view) img buffer size (l.getD (offset / 512) 0) (offset % 512)).1 l k =
        if offset ≤ k ∧ k < offset + size then buffer (k - offset) else byteAt fs img l k) :
    ∀ view view' buffer out, WriteReadAt fs img i name l size offset view view' buffer out := by
  have L := K.layout
  have hlen16 := hchain.length_le L
  rw [K.fatCount_eq] at hlen16
  intro view view' buffer out
  obtain ⟨hwritten, hbytes⟩ := hdata view buffer
  have hskip : skipFats (viewFats fs img view) (offset / 512) (firstDataSector img (fileMetaAt fs i)) =
      some (l.getD (offset / 512) 0) := skipFats_low K hchain (by omega) fun j hj => hlow j (by omega)
  obtain ⟨img', hr, honly, hfile, -, hchain', hsize, hdata'⟩ := @viewWrite_after fs img view buffer name l i _ size offset
    K hname hchain hoff hlen (List.ne_nil_of_length_pos (by omega)) hskip
  rw [hwritten, Nat.mod_eq_of_lt (by omega)] at hsize
  have hbyte : ∀ k < 512 * l.length, byteAt fs img' l k =
      if offset ≤ k ∧ k < offset + size then buffer (k - offset) else byteAt fs img l k := fun k hk =>
    (hdata' _ _).trans (hbytes k hk)
  have hfs' := (hfile.fsMeta_eq L).trans hfs
  have hend' : offset + size ≤ fileSize img' (fileMetaAt fs i) := by
    rw [hsize]
    exact Nat.le_max_right _ _
  have hl' : fileSize img' (fileMetaAt fs i) ≤ 512 * l.length := by
    rw [hsize]
    exact Nat.max_le.mpr ⟨hl, hend⟩
  obtain ⟨out', hread, hout⟩ := tagfsRead_spec L hfs' honly.named hchain' (by rwa [K.sectorSize_eq]) hpos hend' (by omega) out
  have hread' := viewRead_window K hfs' honly hchain' hl' hpos hend' hlow view' out
  rw [hread] at hread'
  have honce : ∀ img'', viewWrite fs img view name buffer size offset = (true, img'') → img' = img'' := fun img'' hr'' =>
    (Prod.mk.inj (hr.symm.trans hr'')).2
  refine ⟨fun img'' hr'' => ?_, fun img'' hr'' => ?_, fun img'' hr'' k hk hk' => ?_, fun _ => ⟨img', hr⟩⟩
  · rw [← honce img'' hr'', hsize]
  · rw [← honce img'' hr'']
    refine ⟨out', hread', fun k hk => ?_⟩
    rw [hout k hk, hbyte _ (by omega), if_pos (by omega), Nat.add_sub_cancel_left]
  · rw [← honce img'' hr'', hbyte _ (by omega), if_neg (by omega)]

/-- The windows that the driver gets right. -/
theorem writeReadAt_of_fitsChain (hfs : fsMeta img = fs) (hlen : name.strlen < 24) (hpos : 0 < size)
    (hl : fileSize img (fileMetaAt fs i) ≤ 512 * l.length) (hne : l ≠ [])
    (h : FitsChain fs img (fileSize img (fileMetaAt fs i)) l size offset) :
    ∀ view view' buffer out, WriteReadAt fs img i name l size offset view view' buffer out := by
  obtain ⟨hlow, hin, hout⟩ := h
  have hmod : 512 * (offset / 512) + offset % 512 = offset := Nat.div_add_mod _ _
  have hr : offset % 512 < 512 := Nat.mod_lt _ (by decide)
  rcases Nat.lt_or_ge (offset / 512) l.length with hq | hq
  · rcases Nat.lt_or_ge (512 - offset % 512) size with hmany | hone
    · -- The sector after is, by accident, the one that the loop finds.
      obtain ⟨hsize, hx, hg, hnext⟩ := (hin hq).resolve_left (by omega)
      obtain ⟨hq', hgq⟩ := (hchain.next K.layout hq).resolve_right fun ⟨_, hend⟩ => by omega
      rw [hnext] at hgq
      refine writeReadAt_of_data K hname hchain hoff hfs hlen hpos hl (by omega) (fun j hj => ?_) fun view buffer => ?_
      · rcases Nat.lt_or_ge j (offset / 512) with hj' | hj'
        · exact hlow j hj'
        · obtain rfl : j = offset / 512 := by omega
          exact hx
      · rw [viewData_two K (tfsFindFreeFat_low K hg) hr hmany hsize]
        refine ⟨rfl, fun k hk => ?_⟩
        have hcopy : ∀ m, byteAt fs (copy m (sectorAt fs (l.getD (offset / 512 + 1) 0) + 0) (size - (512 - offset % 512))
              fun k => buffer (512 - offset % 512 + k)) l k =
            if 512 * (offset / 512 + 1) + 0 ≤ k ∧ k < 512 * (offset / 512 + 1) + 0 + (size - (512 - offset % 512)) then
              buffer (512 - offset % 512 + (k - (512 * (offset / 512 + 1) + 0))) else byteAt fs m l k :=
          fun m => byteAt_copy_sector K hchain hq' (by omega) m hk
        rw [hgq] at hcopy
        dsimp only
        rw [← Nat.add_zero (sectorAt fs (nextFreeFat fs img 0)), hcopy, byteAt_copy_sector K hchain hq (by omega) _ hk]
        by_cases h2 : 512 * (offset / 512 + 1) + 0 ≤ k ∧ k < 512 * (offset / 512 + 1) + 0 + (size - (512 - offset % 512))
        · rw [if_pos h2, if_pos (by omega)]
          exact congrArg buffer (by omega)
        · rw [if_neg h2]
          by_cases h1 : offset ≤ k ∧ k < offset + size
          · rw [if_pos h1, if_pos (by omega), hmod]
          · rw [if_neg h1, if_neg (by omega)]
    · refine writeReadAt_of_data K hname hchain hoff hfs hlen hpos hl (by omega) (fun j hj => hlow j (by omega))
        fun view buffer => ?_
      rw [viewData, if_pos hone]
      refine ⟨rfl, fun k hk => ?_⟩
      show byteAt fs (copy img (sectorAt fs _ + offset % 512) size buffer) l k = _
      rw [byteAt_copy_sector K hchain hq (by omega) _ hk, hmod]
  · obtain hq : offset / 512 = l.length := by omega
    have hr : ∀ view buf, viewWrite fs img view name buf size offset = (false, img) := fun view buf => by
      rw [viewWrite_chain K hname hchain hne, writeStart_of_le hoff, hq,
        skipFats_length K hchain hne fun j hj => hlow j (by omega)]
    intro view view' buffer out
    have hfails : ∀ img', viewWrite fs img view name buffer size offset ≠ (true, img') := fun img' hr' => by
      rw [hr] at hr'
      exact absurd (Prod.mk.inj hr').1 Bool.false_ne_true
    exact ⟨fun img' hr' => absurd hr' (hfails img'), fun img' hr' => absurd hr' (hfails img'),
      fun img' hr' => absurd hr' (hfails img'), fun henough => absurd henough (hout hq)⟩

section

variable (hlen : name.strlen < 24) (hne : l ≠ []) (h : ViewsOk fs img i name l size offset)

include hlen hne h

/-- What the law says of a call that arrives at the sector `x`, and of a read after it. -/
theorem ViewsOk.some (p p' : Bytes) : ∃ view, Shows view p ∧ ∀ x < 512,
    skipFats (viewFats fs img view) (offset / 512) (firstDataSector img (fileMetaAt fs i)) = some x → ∀ buf out : Bytes,
    ∃ view' img' out', Shows view' p' ∧ OnlyNamed fs img' name i ∧ FileOnly fs i img img' ∧
      FatChain fs img' (firstDataSector img (fileMetaAt fs i)) l ∧
      firstDataSector img' (fileMetaAt fs i) = firstDataSector img (fileMetaAt fs i) ∧
      fileSize img' (fileMetaAt fs i) = max (fileSize img (fileMetaAt fs i)) (offset + size) ∧
      (∀ y k, img' (sectorAt fs y + k) =
        (viewData fs (viewFats fs img view) img buf size x (offset % 512)).1 (sectorAt fs y + k)) ∧
      viewRead fs img' view' name out size offset = (true, out') ∧ ∀ k < size, out' k = buf k := by
  obtain ⟨view, hview, hlaw⟩ := h p p'
  refine ⟨view, hview, fun x hx hskip buf out => ?_⟩
  obtain ⟨view', hview', law⟩ := hlaw buf out fun y hy => by
    have hskip' := hy.of_chain K hname hchain hne
    rw [writeStart_of_le hoff, hskip] at hskip'
    rwa [← Option.some.inj hskip']
  obtain ⟨img', hr, honly, hfile, hfirst, hchain', -, hdata⟩ := @viewWrite_after fs img view buf name l i x size offset
    K hname hchain hoff hlen hne hskip
  obtain ⟨out', hread, hout⟩ := law.readsBack img' hr
  rw [hfirst] at hchain'
  exact ⟨view', img', out', hview', honly, hfile, hchain', hfirst, law.recorded img' hr, hdata, hread, hout⟩

/-- The entries before the window are in the first FAT sector: of others, the
memory may hold one thing at the write and another at the read. -/
theorem low_of_viewsOk (hq : offset / 512 ≤ l.length) : ∀ j < offset / 512, l.getD j 0 < 256 := by
  intro j hj
  by_contra hbad
  have hbad : ∃ x ∈ l.take (offset / 512), 256 ≤ x := by
    refine ⟨l.getD j 0, ?_, by omega⟩
    rw [List.getD_eq_getElem _ _ (by omega)]
    exact List.mem_take_iff_getElem.mpr ⟨j, by omega, rfl⟩
  obtain ⟨view, hview, hsome⟩ := h.some K hname hchain hoff hlen hne selfLoops endsOnly
  obtain ⟨x, hx, hskip⟩ := skipFats_selfLoops K hview hchain hq hbad
  obtain ⟨view', img', out', hview', honly, -, hchain', hfirst, -, -, hread, -⟩ := hsome x hx hskip (fun _ => 0) fun _ => 0
  have hnone := skipFats_endsOnly K hview' hchain' hq hbad
  rw [← hfirst] at hnone
  rw [viewRead_bad K honly hnone] at hread
  exact absurd (Prod.mk.inj hread).1 Bool.false_ne_true

/-- A window in several sectors is read on in the sector that the FAT has next, and the write leaves
the buffer's bytes there. -/
theorem readsNext_of_viewsOk (hq : offset / 512 < l.length) (hlow : ∀ j < offset / 512, l.getD j 0 < 256)
    (hmany : 512 - offset % 512 < size) : ∃ view, Shows view endsOnly ∧ ∀ buf : Bytes,
      (viewData fs (viewFats fs img view) img buf size (l.getD (offset / 512) 0) (offset % 512)).1
        (sectorAt fs (fatsAt (viewFats fs img view) (l.getD (offset / 512) 0))) = buf (512 - offset % 512) := by
  have hx := getD_lt K hchain hq
  obtain ⟨view, hview, hsome⟩ := h.some K hname hchain hoff hlen hne endsOnly endsOnly
  have hskip := @skipFats_low fs img view l _ _ K hchain hq hlow
  refine ⟨view, hview, fun buf => ?_⟩
  generalize hxq : l.getD (offset / 512) 0 = x at hx hskip ⊢
  obtain ⟨view', img', out', hview', honly, hfile, hchain', hfirst, hsize, hdata, hread, hout⟩ :=
    hsome x hx hskip buf fun _ => 0
  have hskip' := @skipFats_low fs img' view' l _ _ K hchain' hq hlow
  rw [← hfirst, hxq] at hskip'
  obtain ⟨out'', hread', -, hnext⟩ := @viewRead_some fs img' view' (fun _ => 0) name i size offset K honly x (by omega) hskip'
  obtain ⟨-, rfl⟩ := Prod.mk.inj (hread.symm.trans hread')
  -- The two calls have the same entry for `x`.
  have hfats : fatsAt (viewFats fs img' view') x = fatsAt (viewFats fs img view) x := by
    rcases Nat.lt_or_ge x 256 with hlow | hhigh
    · rw [fatsAt_low K hlow, fatsAt_low K hlow]
      exact hfile.fat_eq K.layout hname.lt (by rwa [K.fatCount_eq])
    · rw [fatsAt_endsOnly hview hhigh hx, fatsAt_endsOnly hview' hhigh hx]
  have hbyte := hnext hmany (by rw [hsize]; omega)
  rw [hfats] at hbyte
  have hdata := hdata (fatsAt (viewFats fs img view) x) 0
  rw [Nat.add_zero] at hdata
  rw [← hdata, ← hbyte]
  exact hout _ hmany

/-- It ends there, in the entry that is taken for free. -/
theorem next_of_viewsOk (hq : offset / 512 < l.length) (hlow : ∀ j < offset / 512, l.getD j 0 < 256)
    (hmany : 512 - offset % 512 < size) :
    size ≤ 1024 - offset % 512 ∧ l.getD (offset / 512) 0 < 256 ∧ nextFreeFat fs img 0 < 256 ∧
      fat fs img (l.getD (offset / 512) 0) = nextFreeFat fs img 0 := by
  have hr : offset % 512 < 512 := Nat.mod_lt _ (by decide)
  have hx := getD_lt K hchain hq
  obtain ⟨view, hview, hread⟩ := readsNext_of_viewsOk K hname hchain hoff hlen hne h hq hlow hmany
  generalize hxq : l.getD (offset / 512) 0 = x at hx hread ⊢
  obtain ⟨y, hy⟩ : ∃ y, y = fatsAt (viewFats fs img view) x := ⟨_, rfl⟩
  rw [← hy] at hread
  have hy16 : y < 2 ^ 16 := hy ▸ fatsAt_lt
  have hyx : y ≠ x := by
    rcases Nat.lt_or_ge x 256 with hlow | hhigh
    · rw [hy, fatsAt_low K hlow, ← hxq]
      exact hchain.next_ne K.layout hq
    · rw [fatsAt_endsOnly hview hhigh hx] at hy
      omega
  have hfree : tfsFindFreeFat fs (viewFats fs img view) = some y := by
    by_contra hne
    obtain ⟨c, hc⟩ := exists_byte_ne (img (sectorAt fs y))
    have hbyte := hread fun _ => c
    rw [viewData_out K (by omega) hy16 hyx hr hne] at hbyte
    exact hc hbyte.symm
  have hnext : nextFreeFat fs img 0 < 256 := by
    by_contra hge
    rw [tfsFindFreeFat_endsOnly K hview (by omega)] at hfree
    cases hfree
  obtain rfl : nextFreeFat fs img 0 = y := Option.some.inj ((tfsFindFreeFat_low K hnext).symm.trans hfree)
  have hxlow : x < 256 := by
    by_contra hge
    rw [fatsAt_endsOnly hview (by omega) hx] at hy
    omega
  rw [fatsAt_low K hxlow] at hy
  refine ⟨?_, hxlow, hnext, hy.symm⟩
  -- A third sector's bytes would be written over the second's.
  by_contra hlong
  have hbyte := hread fun k => if k < 1024 - offset % 512 then 1 else 0
  obtain ⟨fuel, rfl⟩ : ∃ n, size = n + 1 := ⟨size - 1, by omega⟩
  have hchunk : chunk fs (fuel + 1) (512 - offset % 512) = 512 := by
    unfold chunk
    rw [K.sectorSize_eq, if_neg (by omega)]
  rw [viewData, if_neg (by omega), viewWriteRest_step K hfree hmany, hchunk,
    @viewWriteRest_first fs _ _ _ _ _ K 0 _ _ hfree (fun k hk => if_neg (by omega)) (by omega) (by omega),
    if_pos (by omega)] at hbyte
  exact absurd hbyte (by decide)

/-- The others it does not. -/
theorem fitsChain_of_viewsOk (hl : fileSize img (fileMetaAt fs i) ≤ 512 * l.length) :
    FitsChain fs img (fileSize img (fileMetaAt fs i)) l size offset := by
  have hq : offset / 512 ≤ l.length := by omega
  have hlow := low_of_viewsOk K hname hchain hoff hlen hne h hq
  refine ⟨hlow, fun hq => ?_, fun hq henough => ?_⟩
  · rcases Nat.lt_or_ge (512 - offset % 512) size with hmany | hone
    · exact .inr (next_of_viewsOk K hname hchain hoff hlen hne h hq hlow hmany)
    · exact .inl hone
  · obtain ⟨view, -, hlaw⟩ := h (fun _ => 0) fun _ => 0
    have hnone : skipFats (viewFats fs img view) l.length (firstDataSector img (fileMetaAt fs i)) = none :=
      skipFats_length K hchain hne fun j hj => hlow j (by omega)
    obtain ⟨view', -, law⟩ := hlaw (fun _ => 0) (fun _ => 0) fun x hx => by
      have hskip := hx.of_chain K hname hchain hne
      rw [writeStart_of_le hoff, hq, hnone] at hskip
      cases hskip
    obtain ⟨img', hr⟩ := law.returns henough
    rw [viewWrite_chain K hname hchain hne, writeStart_of_le hoff, hq, hnone] at hr
    exact absurd (Prod.mk.inj hr).1 Bool.false_ne_true

end

end

/-! ## A file without data -/

section

variable (K : KernelImage fs) (hname : OnlyNamed fs img name i) (hfirst : firstDataSector img (fileMetaAt fs i) = 0xffff)

include K hname hfirst

variable (hempty : fileSize img (fileMetaAt fs i) = 0)

include hempty

/-- The file after a call that finds the sector `g`: the entry, and its data. -/
theorem viewWrite_new_after (hlen : name.strlen < 24) (hfree : tfsFindFreeFat fs (viewFats fs img view) = some g) :
    ∃ img', viewWrite fs img view name buf size 0 = (true, img') ∧ OnlyNamed fs img' name i ∧
      firstDataSector img' (fileMetaAt fs i) = g ∧
      fileSize img' (fileMetaAt fs i) = (viewData fs (viewFats fs img view) img buf size g 0).2 % 2 ^ 32 ∧
      ∀ k, img' (sectorAt fs g + k) = (viewData fs (viewFats fs img view) img buf size g 0).1 (sectorAt fs g + k) := by
  have L := K.layout
  have hi := hname.lt
  have hD : DataOnly fs img (viewData fs (viewFats fs img view) img buf size g 0).1 := viewData_dataOnly K
  have hr := @viewWrite_new fs img view buf name i size 0 K hname hfirst hempty
  have hg := (tfsFindFreeFat_some K hfree).1
  simp only [hfree, Nat.zero_add] at hr
  have honly := viewWrite_fileOnly K hname (by omega) hr
  generalize viewData fs (viewFats fs img view) img buf size g 0 = d at hr hD honly
  have hsize : fileSize d.1 (fileMetaAt fs i) = 0 := by
    rw [← hempty]
    refine u32_congr fun a ha ha' => ?_
    obtain ⟨k, rfl⟩ := Nat.exists_eq_add_of_le ha
    rw [Nat.add_assoc]
    exact hD.entry L hi (4 + k) (by omega)
  refine ⟨_, hr, honly.onlyNamed L hlen hname, ?_, ?_, fun k => ?_⟩
  · rw [firstDataSector_growFile, firstDataSector_setFirstDataSector (by omega)]
  · rw [fileSize_growFile (Nat.mod_lt _ (by decide)), fileSize_setFirstDataSector, hsize, Nat.zero_max]
  · have hge := Layout.getData_le fs g
    have hfiles := L.files; have htags := L.tags; have hlinks := L.links; have hfats := L.fats
    rw [growFile_out (.inr (by rw [Layout.fileMetaAt_eq]; omega))]
    exact setU32_out (.inr (by rw [Layout.fileMetaAt_eq]; omega))

/-- The first bytes that a read after it returns. -/
theorem viewRead_new {view' : Bytes} (hlen : name.strlen < 24) (out : Bytes)
    (hfree : tfsFindFreeFat fs (viewFats fs img view) = some g) :
    ∃ img' out', viewWrite fs img view name buf size 0 = (true, img') ∧
      fileSize img' (fileMetaAt fs i) = (viewData fs (viewFats fs img view) img buf size g 0).2 % 2 ^ 32 ∧
      viewRead fs img' view' name out size 0 = (true, out') ∧
      ∀ k < size, k < 512 → out' k = (viewData fs (viewFats fs img view) img buf size g 0).1 (sectorAt fs g + k) := by
  obtain ⟨img', hr, honly, hg, hsize, hdata⟩ := @viewWrite_new_after fs img view buf name g i size K hname hfirst hempty hlen hfree
  have hg512 := (tfsFindFreeFat_some K hfree).1
  obtain ⟨out', hread, hout, -⟩ := @viewRead_some fs img' view' out name i size 0 K honly g (by omega) (by rw [hg]; rfl)
  refine ⟨img', out', hr, hsize, hread, fun k hk hk' => ?_⟩
  rw [hout k hk (by omega), ← hdata]
  rfl

/-- In memory that holds zeroes, a sector is found; in memory of end marks, only one of the first FAT sector. -/
theorem fitsNew_of_viewsOk (hlen : name.strlen < 24) (hpos : 0 < size) (h : ViewsOk fs img i name [] size 0) :
    FitsNew fs img size := by
  have harrive : ∀ view x, Arrives fs img view name 0 x → x < 512 := fun view x hx => hx.lt_of_new K hname hfirst hempty
  have hone : size ≤ 512 := by
    by_contra hmany
    -- The rest of the buffer would be written over its first bytes.
    obtain ⟨view, hview, hlaw⟩ := h (fun _ => 0) fun _ => 0
    obtain ⟨g, hfree⟩ := @tfsFindFreeFat_zeroes fs img view K hview
    let buf : Bytes := fun k => if k < 512 then 1 else 0
    obtain ⟨view', -, law⟩ := hlaw buf (fun _ => 0) (harrive view)
    obtain ⟨img', out', hr, -, hread, hout⟩ := @viewRead_new fs img view buf name g i size K hname hfirst hempty
      view' hlen (fun _ => 0) hfree
    obtain ⟨out'', hread', hout'⟩ := law.readsBack img' hr
    obtain ⟨-, rfl⟩ := Prod.mk.inj (hread.symm.trans hread')
    have hbyte := hout 0 hpos (by decide)
    rw [hout' 0 hpos, viewData, if_neg (by omega), Nat.add_zero,
      @viewWriteRest_first fs _ _ _ _ _ K 0 _ _ hfree (fun k hk => if_neg (by omega)) (by omega) (by omega)] at hbyte
    exact absurd hbyte (by decide)
  refine ⟨hone, ?_⟩
  by_contra hfar
  -- A free entry in the second FAT sector is not seen.
  have hcount := K.fatCount_eq
  have hfree : nextFreeFat fs img 0 ∈ freeFats fs img := mem_freeFats.mpr ⟨by omega, nextFreeFat_free (by omega)⟩
  have hlength := List.length_pos_of_mem hfree
  obtain ⟨view, hview, hlaw⟩ := h endsOnly fun _ => 0
  obtain ⟨view', -, law⟩ := hlaw (fun _ => 0) (fun _ => 0) (harrive view)
  obtain ⟨img', hr⟩ := law.returns (by
    unfold EnoughFree
    rw [hempty, Nat.zero_max, List.length_nil]
    omega)
  rw [viewWrite_new K hname hfirst hempty, tfsFindFreeFat_endsOnly K hview (by omega)] at hr
  exact absurd (Prod.mk.inj hr).1 Bool.false_ne_true

/-- A window in the sector that is found. -/
theorem writeReadAt_of_fitsNew (hlen : name.strlen < 24) (hpos : 0 < size) (h : FitsNew fs img size) :
    ∀ view view' buffer out, WriteReadAt fs img i name [] size 0 view view' buffer out := by
  obtain ⟨hone, hfree⟩ := h
  intro view view' buffer out
  have hdata : ∀ g, viewData fs (viewFats fs img view) img buffer size g 0 = (copy img (sectorAt fs g + 0) size buffer, size) :=
    fun g => by rw [viewData, if_pos hone]
  have hkeeps : ∀ img', viewWrite fs img view name buffer size 0 = (true, img') →
      fileSize img' (fileMetaAt fs i) = size ∧ ∃ out', viewRead fs img' view' name out size 0 = (true, out') ∧
        ∀ k < size, out' k = buffer k := fun img' hr => by
    cases hsome : tfsFindFreeFat fs (viewFats fs img view) with
    | none =>
      rw [viewWrite_new K hname hfirst hempty, hsome] at hr
      exact absurd (Prod.mk.inj hr).1 Bool.false_ne_true
    | some g =>
      obtain ⟨img'', out', hr', hsize, hread, hout⟩ := @viewRead_new fs img view buffer name g i size K hname hfirst hempty
        view' hlen out hsome
      obtain ⟨-, rfl⟩ := Prod.mk.inj (hr.symm.trans hr')
      rw [hdata] at hsize
      refine ⟨?_, out', hread, fun k hk => ?_⟩
      · rw [hsize, Nat.mod_eq_of_lt (by omega)]
      · rw [hout k hk (by omega), hdata]
        show copy img _ _ _ _ = _
        rw [copy_in (by omega) (by omega), Nat.add_zero, Nat.add_sub_cancel_left]
  refine ⟨fun img' hr => ?_, fun img' hr => (hkeeps img' hr).2, fun img' hr k hk => ?_, fun henough => ?_⟩
  · rw [(hkeeps img' hr).1, hempty, Nat.zero_max, Nat.zero_add]
  · omega
  · rcases hfree with hlow | hfull
    · obtain ⟨img', -, hr, -⟩ := @viewRead_new fs img view buffer name _ i size K hname hfirst hempty
        view' hlen out (tfsFindFreeFat_low K hlow)
      exact ⟨img', hr⟩
    · -- No entry is free, so that there are not enough.
      have hnil : freeFats fs img = [] := List.eq_nil_iff_forall_not_mem.mpr fun x hx => by
        obtain ⟨hx, h0⟩ := mem_freeFats.mp hx
        exact fat_ne_zero_of_lt (by omega) h0
      unfold EnoughFree at henough
      rw [hempty, hnil, Nat.zero_max, List.length_nil] at henough
      omega

end

/-! ## The law, by cases -/

end OSForReal.Proof.Tfs
