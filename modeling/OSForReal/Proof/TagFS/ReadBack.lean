import Mathlib.Data.List.Perm.Subperm
import OSForReal.Proof.TagFS.FatWellFormed
import OSForReal.Proof.TagFS.Read

/-!
# `tagfs_read` reads what `write_files` stores

`Holds` says that an image holds given bytes under a name, in given sectors.
Storing the file establishes it (`Stored.holds`), no later file of the command
breaks it (`Holds.stored`), and reading follows from it (`Holds.read`).
-/

namespace OSForReal.Proof.TagFS

open Framework
open Framework.Bytes
open OSForReal.TagFS

variable {fs : FSMetadata} {img img' : Bytes} {src : List UInt8} {dst : CStr} {i c : Nat} {l : List Nat}

/-- The entry `i` holds the first `c` bytes of `src`, in the sectors `l`, under the name `dst`. -/
structure Holds (fs : FSMetadata) (src : List UInt8) (dst : CStr) (i c : Nat) (l : List Nat) (img : Bytes) : Prop where
  header : fsMeta img = fs
  named : Named fs img dst i
  used : ∀ j ≤ i, Used fs img j
  chain : FatChain fs img (firstDataSector img (fileMetaAt fs i)) l
  taken : ∀ x ∈ l, fat fs img x ≠ 0
  size : fileSize img (fileMetaAt fs i) = c
  size_le : c ≤ fs.sectorSize * l.length
  data : ∀ k < c, byteAt fs img l k = src.getD k 0

theorem le_mul_sectorsFor (hs : 0 < fs.sectorSize) {n : Nat} : n ≤ fs.sectorSize * sectorsFor fs n := by
  have hle : (n + fs.sectorSize - 1) / fs.sectorSize ≤ sectorsFor fs n := Nat.le_max_right _ _
  have hmul := Nat.mul_le_mul_left fs.sectorSize hle
  have := Nat.div_add_mod (n + fs.sectorSize - 1) fs.sectorSize
  have := Nat.mod_lt (n + fs.sectorSize - 1) hs
  omega

/-- A command that changes none of the sectors keeps the bytes. -/
theorem ChangesOnly.byteAt_eq {files fats sectors : List Nat} (h : ChangesOnly fs files fats sectors img img')
    (L : Layout fs) {k : Nat} (hl : ∀ x ∈ l, x < fatCount fs ∧ x ∉ sectors) (hk : k < fs.sectorSize * l.length) :
    byteAt fs img' l k = byteAt fs img l k := by
  have hs := L.sectorSize
  have hx := hl _ (getD_mem_of_lt (Nat.div_lt_of_lt_mul hk))
  have hmod : k % fs.sectorSize < fs.sectorSize := Nat.mod_lt _ (by omega)
  exact h.sector L hx.1 hx.2 ⟨by omega, by omega⟩

/-- The file just stored. -/
theorem Stored.holds (h : Stored fs src dst img i l c img') (L : Layout fs) (hfs : fsMeta img = fs)
    (hname : dst.chars ≠ []) (hlen : dst.strlen < 24)
    (hnew : ∀ j < countFileMetaEntries fs, strcmpEq img (nameAt (fileMetaAt fs j)) dst = false) :
    Holds fs src dst i c l img' := by
  have hs := L.sectorSize
  have hlow : ∀ j < i, Used fs img' j := fun j hj => by
    have hfree : fileMetadataEntryIsFree img (fileMetaAt fs j) = false :=
      scan_before (p := fun j => fileMetadataEntryIsFree img (fileMetaAt fs j)) (Nat.zero_le _) (h.index ▸ hj)
    exact (h.used_iff L hname).mpr (.inl ⟨Nat.lt_trans hj h.lt, hfree⟩)
  refine ⟨(h.changes.fsMeta_eq L).trans hfs, ⟨h.lt, h.name, fun j hj => ?_⟩, fun j hj => ?_,
    ⟨h.chain, h.changes.fats_lt⟩, h.taken, h.size, ?_, h.data⟩
  · have hjn : j < countFileMetaEntries fs := Nat.lt_trans hj h.lt
    rw [h.changes.strcmpEq_eq L hjn (by simpa using Nat.ne_of_lt hj) hlen]
    exact hnew j hjn
  · rcases Nat.lt_or_eq_of_le hj with hj | rfl
    · exact hlow j hj
    · exact h.used hname
  · rw [h.sectors]
    exact le_mul_sectorsFor (by omega)

/-- Storing another file keeps what the image holds. -/
theorem Holds.stored {src' : List UInt8} {dst' : CStr} {i' c' : Nat} {l' : List Nat} (h : Holds fs src dst i c l img)
    (L : Layout fs) (hlen : dst.strlen < 24) (hS : Stored fs src' dst' img i' l' c' img') :
    Holds fs src dst i c l img' := by
  have hi : ∀ j ≤ i, j ∉ [i'] := fun j hj hm => hS.not_used (List.mem_singleton.mp hm ▸ h.used j hj)
  have hx : ∀ x ∈ l, x ∉ l' := fun x hx hx' => h.taken x hx (hS.free x hx')
  have hfat : ∀ x ∈ l, fat fs img' x = fat fs img x := fun x hxl => hS.changes.fat_eq L (h.chain.2 x hxl) (hx x hxl)
  have hil := h.named.lt
  refine ⟨(hS.changes.fsMeta_eq L).trans h.header, ⟨hil, ?_, fun j hj => ?_⟩, fun j hj => ?_, ⟨?_, h.chain.2⟩,
    fun x hxl => ?_, ?_, h.size_le, fun k hk => ?_⟩
  · rw [hS.changes.strcmpEq_eq L hil (hi i (Nat.le_refl _)) hlen]
    exact h.named.found
  · rw [hS.changes.strcmpEq_eq L (by omega) (hi j (by omega)) hlen]
    exact h.named.first j hj
  · obtain ⟨hjn, hused⟩ := h.used j hj
    refine ⟨hjn, ?_⟩
    rwa [hS.changes.isFree_eq L hjn (hi j hj)]
  · rw [hS.changes.firstDataSector_eq L hil (hi i (Nat.le_refl _))]
    exact h.chain.1.frame hfat
  · rw [hfat x hxl]
    exact h.taken x hxl
  · rw [hS.changes.fileSize_eq L hil (hi i (Nat.le_refl _))]
    exact h.size
  · rw [hS.changes.byteAt_eq L (fun x hxl => ⟨h.chain.2 x hxl, hx x hxl⟩) (Nat.lt_of_lt_of_le hk h.size_le)]
    exact h.data k hk

/-- What an image holds is read. -/
theorem Holds.read (h : Holds fs src dst i c l img) (L : Layout fs) (hl : l.length ≤ fatCount fs) {size offset : Nat}
    (hpos : 0 < size) (hin : offset + size ≤ c) (buf : Bytes) :
    ∃ buf', tagfsRead img dst buf size offset = ((size : Int), buf') ∧
      ∀ k < size, buf' k = src.getD (offset + k) 0 := by
  have hdata := L.data
  have hmul : fs.sectorSize * l.length ≤ fs.sectorSize * fatCount fs := Nat.mul_le_mul_left _ hl
  have hsize := h.size_le
  obtain ⟨buf', hr, hbytes⟩ := tagfsRead_spec L h.header h.named h.chain (h.size ▸ h.size_le) hpos (h.size.symm ▸ hin)
    (by omega) buf
  refine ⟨buf', hr, fun k hk => ?_⟩
  rw [hbytes k hk, h.data _ (by omega)]

/-! ## The recorded size -/

/-- The free FAT entries. -/
def freeFats (fs : FSMetadata) (img : Bytes) : List Nat := (List.range (fatCount fs)).filter fun x => fat fs img x == 0

theorem mem_freeFats {x : Nat} : x ∈ freeFats fs img ↔ x < fatCount fs ∧ fat fs img x = 0 := by
  simp [freeFats]

theorem length_freeFats_le : (freeFats fs img).length ≤ fatCount fs := by
  have := List.length_filter_le (fun x => fat fs img x == 0) (List.range (fatCount fs))
  rwa [List.length_range] at this

theorem Stored.length_le_freeFats (h : Stored fs src dst img i l c img') (L : Layout fs) :
    l.length ≤ (freeFats fs img).length := by
  have hnodup : l.Nodup := h.chain.nodup fun hm => by
    have := h.changes.fats_lt _ hm
    have := L.fatCount_le
    omega
  exact (List.subperm_of_subset hnodup fun x hx => mem_freeFats.mpr ⟨h.changes.fats_lt x hx, h.free x hx⟩).length_le

/-- The recorded size is the size of the source, or all the room there was. -/
theorem Stored.size_eq (h : Stored fs src dst img i l c img') (L : Layout fs) :
    c = min src.length ((freeFats fs img).length * fs.sectorSize) := by
  have hs := L.sectorSize
  have hlen := Nat.mul_le_mul_left fs.sectorSize (h.length_le_freeFats L)
  have hle := h.length_le
  have hsectors : c ≤ fs.sectorSize * l.length := by
    rw [h.sectors]
    exact le_mul_sectorsFor (by omega)
  rw [Nat.mul_comm]
  rcases h.full with hfull | ⟨hc, hall⟩
  · omega
  · have hnodup : (freeFats fs img).Nodup := List.nodup_range.filter _
    have hge : (freeFats fs img).length ≤ l.length :=
      (List.subperm_of_subset hnodup fun x hx => hall x (mem_freeFats.mp hx).1 (mem_freeFats.mp hx).2).length_le
    have := Nat.mul_le_mul_left fs.sectorSize hge
    omega

/-! ## The whole command -/

/-- A file spec that is accepted where it is processed. -/
structure AcceptedAs (fs : FSMetadata) (img : Bytes) (src : List UInt8) (dst : CStr) : Prop where
  nonempty : dst.chars ≠ []
  short : dst.strlen < 24
  fresh : ∀ j < countFileMetaEntries fs, strcmpEq img (nameAt (fileMetaAt fs j)) dst = false
  size : src.length ≤ 0xffffffff
  fileMeta : ∃ j < countFileMetaEntries fs, fileMetadataEntryIsFree img (fileMetaAt fs j) = true
  fat : ∃ x < fatCount fs, fat fs img x = 0

theorem AcceptedAs.accepted (h : AcceptedAs fs img src dst) : Accepted fs img src dst := by
  refine ⟨isTagfsFile_iff.mpr ⟨h.size, h.short⟩, ?_, ?_⟩
  · obtain ⟨j, hj, hfree⟩ := h.fileMeta
    by_contra hlt
    have hend := scan_before (p := fun j => fileMetadataEntryIsFree img (fileMetaAt fs j)) (Nat.zero_le j)
      (Nat.lt_of_lt_of_le hj (Nat.le_of_not_lt hlt))
    rw [hfree] at hend
    cases hend
  · obtain ⟨x, hx, hfree⟩ := h.fat
    exact Nat.lt_of_le_of_lt (nextFreeFat_le (Nat.zero_le _) hfree) hx

/-- A command stores every accepted file, and `tagfs_read` returns its bytes afterwards. -/
theorem tagfsRead_of_writeFiles (options : WriteFilesOptions) (img : Bytes) (G : Geometry (fsMeta img))
    (hspecs : ∀ spec ∈ options.fileSpecs, parseFileSpec spec ≠ none) : ∃ img', writeFiles options img = .ok img' ∧
      ∀ pre spec post path dst src img₁, options.fileSpecs = pre ++ spec :: post →
        parseFileSpec spec = some (path, dst) → options.files path = some src →
        writeFiles { options with fileSpecs := pre } img = .ok img₁ → AcceptedAs (fsMeta img) img₁ src dst →
        ∃ i, Named (fsMeta img) img' dst i ∧ fileSize img' (fileMetaAt (fsMeta img) i) =
            min src.length ((freeFats (fsMeta img) img₁).length * (fsMeta img).sectorSize) ∧
          ∀ offset size buf, 0 < size → offset + size ≤ fileSize img' (fileMetaAt (fsMeta img) i) →
            ∃ buf', tagfsRead img' dst buf size offset = ((size : Int), buf') ∧
              ∀ k < size, buf' k = src.getD (offset + k) 0 := by
  have L := G.layout
  obtain ⟨img', hrun⟩ := writeFileSpecs_return img options.files L
    (fun tag => @filterValidTagNames_lt options.tags tag) hspecs
  refine ⟨img', hrun, ?_⟩
  intro pre spec post path dst src img₁ hsplit hparse hsrc hpre hacc
  simp only [writeFiles] at hpre
  rw [hsplit, List.foldlM_append, hpre, Res.ok_bind, List.foldlM_cons] at hrun
  obtain ⟨img₂, hspec, hpost⟩ := Res.bind_eq_ok.mp hrun
  have hheader : fsMeta img₁ = fsMeta img := by
    refine Res.foldlM_invariant (I := fun img₁ => fsMeta img₁ = fsMeta img) rfl (fun a s _ a' ha hs => ?_) hpre
    rcases writeFileSpec_cases L (fun _ => filterValidTagNames_lt) hs with rfl | ⟨_, _, _, _, _, _, -, -, -, hS⟩
    · exact ha
    · exact (hS.changes.fsMeta_eq L).trans ha
  simp only [writeFileSpec, hparse, hsrc] at hspec
  rcases writeFile_cases img₁ src dst L (fun _ => filterValidTagNames_lt) with
    ⟨hno, -⟩ | ⟨-, i, l, c, img₃, hr, hS⟩
  · exact absurd hacc.accepted hno
  · obtain rfl : img₃ = img₂ := Res.ok.inj (hr.symm.trans hspec)
    have hH := hS.holds L hheader hacc.nonempty hacc.short hacc.fresh
    have hH' : Holds (fsMeta img) src dst i c l img' := by
      refine Res.foldlM_invariant (I := Holds (fsMeta img) src dst i c l) hH (fun a s _ a' ha hs => ?_) hpost
      rcases writeFileSpec_cases L (fun _ => filterValidTagNames_lt) hs with rfl | ⟨_, _, _, _, _, _, -, -, -, hS'⟩
      · exact ha
      · exact ha.stored L hacc.short hS'
    have hlen : l.length ≤ fatCount (fsMeta img) := Nat.le_trans (hS.length_le_freeFats L) length_freeFats_le
    refine ⟨i, hH'.named, hH'.size.trans (hS.size_eq L), fun offset size buf hpos hin => ?_⟩
    exact hH'.read L hlen hpos (hH'.size ▸ hin) buf

/-- Two files written to a formatted image, and read. -/
theorem tagfsRead_of_writeFiles_twoFiles : ∃ img', writeFiles writeTwoFiles (formatImage {} fun _ => 0) = .ok img' ∧
    ∀ buf, (∃ buf', tagfsRead img' ⟨[0x62], by decide⟩ buf 3 0 = (3, buf') ∧ ∀ k < 3, buf' k = [1, 2, 3].getD k 0) ∧
      ∃ buf', tagfsRead img' ⟨[0x64], by decide⟩ buf 600 100 = (600, buf') ∧ ∀ k < 600, buf' k = UInt8.ofNat (100 + k) := by
  have G := geometry_default
  have hheader : fsMeta (formatImage {} fun _ => 0) = headerOf {} := fsMeta_formatImage G
  have hcount : 0 < countFileMetaEntries (headerOf {}) ∧ 0 < fatCount (headerOf {}) := by decide
  obtain ⟨img', hrun, hall⟩ := tagfsRead_of_writeFiles writeTwoFiles (formatImage {} fun _ => 0) (hheader ▸ G) (by decide)
  rw [hheader] at hall
  -- The image between the two files.
  have hfirst : (writeFiles { writeTwoFiles with fileSpecs := [⟨[0x61, 0x3a, 0x62], by decide⟩] } (formatImage {} fun _ => 0) >>=
      fun img => .ok (decide (∀ j < countFileMetaEntries (headerOf {}),
        strcmpEq img (nameAt (fileMetaAt (headerOf {}) j)) ⟨[0x64], by decide⟩ = false),
        fileMetadataEntryIsFree img (fileMetaAt (headerOf {}) 1), fat (headerOf {}) img 1,
        (freeFats (headerOf {}) img).length)) = .ok (true, true, 0, 511) := by decide +kernel
  obtain ⟨img₁, hpre, hfirst⟩ := Res.bind_eq_ok.mp hfirst
  simp only [Res.ok.injEq, Prod.mk.injEq, decide_eq_true_eq] at hfirst
  obtain ⟨hfresh, hfree, hfat, hfats⟩ := hfirst
  have hacc₀ : AcceptedAs (headerOf {}) (formatImage {} fun _ => 0) [1, 2, 3] ⟨[0x62], by decide⟩ :=
    ⟨by decide, by decide, fun j hj => formatImage_fresh G hj (by decide), by decide,
      ⟨0, hcount.1, formatImage_isFree G hcount.1⟩, ⟨0, hcount.2, formatImage_fat G hcount.2⟩⟩
  have hacc₁ : AcceptedAs (headerOf {}) img₁ ((List.range 700).map UInt8.ofNat) ⟨[0x64], by decide⟩ :=
    ⟨by decide, by decide, hfresh, by rw [List.length_map, List.length_range]; decide, ⟨1, by decide, hfree⟩,
      ⟨1, by decide, hfat⟩⟩
  obtain ⟨i, -, hsize₀, hread₀⟩ := hall [] _ [⟨[0x63, 0x3a, 0x64], by decide⟩] ⟨[0x61], by decide⟩ ⟨[0x62], by decide⟩ [1, 2, 3]
    _ rfl rfl rfl rfl hacc₀
  obtain ⟨j, -, hsize₁, hread₁⟩ := hall [⟨[0x61, 0x3a, 0x62], by decide⟩] ⟨[0x63, 0x3a, 0x64], by decide⟩ []
    ⟨[0x63], by decide⟩ ⟨[0x64], by decide⟩ _ img₁ rfl rfl rfl hpre hacc₁
  have hsectorSize : (headerOf {}).sectorSize = 512 := rfl
  have hfats₀ : 0 < (freeFats (headerOf {}) (formatImage {} fun _ => 0)).length :=
    List.length_pos_of_mem (mem_freeFats.mpr ⟨hcount.2, formatImage_fat G hcount.2⟩)
  rw [hsectorSize, List.length_cons, List.length_cons, List.length_singleton] at hsize₀
  rw [hsectorSize, hfats, List.length_map, List.length_range] at hsize₁
  refine ⟨img', hrun, fun buf => ?_⟩
  obtain ⟨buf₀, hr₀, hbytes₀⟩ := hread₀ 0 3 buf (by decide) (by omega)
  obtain ⟨buf₁, hr₁, hbytes₁⟩ := hread₁ 100 600 buf (by decide) (by omega)
  refine ⟨⟨buf₀, hr₀, fun k hk => by rw [hbytes₀ k hk, Nat.zero_add]⟩, buf₁, hr₁, fun k hk => ?_⟩
  rw [hbytes₁ k hk, List.getD_eq_getElem?_getD, List.getElem?_map, List.getElem?_range (by omega)]
  rfl

end OSForReal.Proof.TagFS
