import OSForReal.Proof.TagFS.Format
import OSForReal.Proof.TagFS.WriteFiles

/-!
# The FAT under `tfsfmt`

Files own the chains of FAT entries that begin at their first sectors, and
together they own all that is taken (`OwnedChains`). Storing a file gives it a
chain of free entries (`Stored.owned`), so a formatted image and every image
that commands make of it has a well-formed FAT (`fatWellFormed_of_reachable`).
-/

namespace OSForReal.Proof.TagFS

open Framework
open Framework.Bytes
open OSForReal.TagFS

variable {fs : FSMetadata} {img img' : Bytes} {src : List UInt8} {dst : CStr} {chain : Nat → List Nat}

/-- A FAT entry that is not free. -/
def Taken (fs : FSMetadata) (img : Bytes) (x : Nat) : Prop := x < fatCount fs ∧ fat fs img x ≠ 0

/-- The files own the chains, and all the FAT entries taken. -/
abbrev OwnedChains (fs : FSMetadata) (img : Bytes) (chain : Nat → List Nat) : Prop :=
  Owned (fat fs img) 0xffff (Taken fs img) (Used fs img) (fun i => firstDataSector img (fileMetaAt fs i)) chain

/-- A well-formed FAT, where the file entry of index `i` has the chain `chain i`. -/
structure FatWellFormed (fs : FSMetadata) (img : Bytes) (chain : Nat → List Nat) : Prop where
  isChain : ∀ i, Used fs img i → Chain (fat fs img) (firstDataSector img (fileMetaAt fs i)) (chain i) 0xffff
  inRange : ∀ i, Used fs img i → ∀ x ∈ chain i, x < fatCount fs
  nodup : ∀ i, Used fs img i → (chain i).Nodup
  length_eq : ∀ i, Used fs img i → (chain i).length = sectorsFor fs (fileSize img (fileMetaAt fs i))
  disjoint : ∀ i j, Used fs img i → Used fs img j → i ≠ j → (chain i).Disjoint (chain j)
  existsUnique : ∀ x, x < fatCount fs → fat fs img x ≠ 0 → ∃! i, Used fs img i ∧ x ∈ chain i

theorem findFreeFileMeta_not_used : ¬ Used fs img (findFreeFileMeta fs img) := by
  rintro ⟨hlt, hused⟩
  have hfree : fileMetadataEntryIsFree img (fileMetaAt fs (findFreeFileMeta fs img)) = true :=
    scan_spec (p := fun i => fileMetadataEntryIsFree img (fileMetaAt fs i)) hlt
  rw [hused] at hfree
  cases hfree

/-- A changed entry counts as used or not; the others as before. -/
theorem used_iff {i : Nat} {fats sectors : List Nat} (L : Layout fs)
    (h : ChangesOnly fs [i] fats sectors img img') {j : Nat} (hj : j ≠ i) : Used fs img' j ↔ Used fs img j := by
  unfold Used
  constructor <;> rintro ⟨hlt, hused⟩ <;> refine ⟨hlt, ?_⟩
  · rwa [h.isFree_eq L hlt (by simpa using hj)] at hused
  · rwa [h.isFree_eq L hlt (by simpa using hj)]

namespace Stored

variable {i c : Nat} {l : List Nat}

theorem not_used (h : Stored fs src dst img i l c img') : ¬ Used fs img i := h.index ▸ findFreeFileMeta_not_used

/-- A file with a name has its entry in use. -/
theorem used (h : Stored fs src dst img i l c img') (hdst : dst.chars ≠ []) : Used fs img' i :=
  used_of_name h.lt h.name hdst

theorem used_iff (h : Stored fs src dst img i l c img') (L : Layout fs) (hdst : dst.chars ≠ []) {j : Nat} :
    Used fs img' j ↔ Used fs img j ∨ j = i := by
  by_cases hj : j = i
  · rw [hj]
    simp [h.used hdst]
  · rw [TagFS.used_iff L h.changes hj]
    simp [hj]

theorem fat_eq (h : Stored fs src dst img i l c img') (L : Layout fs) {x : Nat} (hx : Taken fs img x) :
    fat fs img' x = fat fs img x :=
  h.changes.fat_eq L hx.1 fun hm => hx.2 (h.free x hm)

theorem taken_iff (h : Stored fs src dst img i l c img') (L : Layout fs) {x : Nat} :
    Taken fs img' x ↔ Taken fs img x ∨ x ∈ l := by
  by_cases hx : x ∈ l
  · have hlt := h.changes.fats_lt x hx
    have htaken := h.taken x hx
    simp [Taken, hlt, htaken, hx]
  · unfold Taken
    constructor
    · rintro ⟨hlt, h0⟩
      exact .inl ⟨hlt, by rwa [← h.changes.fat_eq L hlt hx]⟩
    · rintro (⟨hlt, h0⟩ | hm)
      · exact ⟨hlt, by rwa [h.changes.fat_eq L hlt hx]⟩
      · exact absurd hm hx

/-- Storing a file keeps the chains, and adds one. -/
theorem owned (h : Stored fs src dst img i l c img') (L : Layout fs) (hdst : dst.chars ≠ [])
    (hO : OwnedChains fs img chain) : OwnedChains fs img' (Function.update chain i l) := by
  have hcount := L.fatCount_le
  refine hO.take (fun x hx hx' => hx'.2 (h.free x hx)) (fun hi => absurd hi h.not_used) (fun hx => ?_) h.chain
    (fun x hx => h.fat_eq L hx) (fun x => h.taken_iff L) (fun j => h.used_iff L hdst) fun j hj hji => ?_
  · have := h.changes.fats_lt _ hx
    omega
  · exact h.changes.firstDataSector_eq L hj.1 (by simpa using hji)

end Stored

/-- What commands keep: the header, the chains, and their lengths. -/
structure FatInv (fs : FSMetadata) (chain : Nat → List Nat) (img : Bytes) : Prop where
  header : fsMeta img = fs
  owned : OwnedChains fs img chain
  length_eq : ∀ i, Used fs img i → (chain i).length = sectorsFor fs (fileSize img (fileMetaAt fs i))

theorem FatInv.wellFormed (h : FatInv fs chain img) : FatWellFormed fs img chain where
  isChain := h.owned.isChain
  inRange _ hi _ hx := (h.owned.taken_of_mem hi hx).1
  nodup _ hi := h.owned.nodup hi
  length_eq := h.length_eq
  disjoint := h.owned.disjoint
  existsUnique _ hx h0 := h.owned.existsUnique ⟨hx, h0⟩

/-- A formatted image has no files. -/
theorem not_used_formatImage {options : FormatOptions} (G : Geometry (headerOf options)) (img : Bytes) (i : Nat) :
    ¬ Used (headerOf options) (formatImage options img) i := by
  intro ⟨hi, hused⟩
  rw [formatImage_isFree G hi] at hused
  cases hused

theorem fatInv_formatImage {options : FormatOptions} (G : Geometry (headerOf options)) :
    FatInv (headerOf options) (fun _ => []) (formatImage options img) :=
  ⟨fsMeta_formatImage G, .empty (not_used_formatImage G img) fun _ hx => hx.2 (formatImage_fat G hx.1),
    fun i hi => absurd hi (not_used_formatImage G img i)⟩

theorem FatInv.stored {i c : Nat} {l : List Nat} (hI : FatInv fs chain img) (L : Layout fs) (hdst : dst.chars ≠ [])
    (h : Stored fs src dst img i l c img') : FatInv fs (Function.update chain i l) img' := by
  refine ⟨(h.changes.fsMeta_eq L).trans hI.header, h.owned L hdst hI.owned, fun j hj => ?_⟩
  by_cases hji : j = i
  · rw [hji, Function.update_self, h.size]
    exact h.sectors
  · rw [Function.update_of_ne hji, h.changes.fileSize_eq L hj.1 (by simpa using hji)]
    exact hI.length_eq j (((h.used_iff L hdst).mp hj).resolve_right hji)

/-! ## Runs -/

/-- Every file of the command has a destination name. -/
def NamesGiven (options : WriteFilesOptions) : Prop :=
  ∀ spec ∈ options.fileSpecs, ∀ src dst, parseFileSpec spec = some (src, dst) → dst.chars ≠ []

/-- A formatted image, and the commands `write_files` on it. -/
def tfsfmtSystem (options : FormatOptions) : System Bytes WriteFilesOptions where
  init img := ∃ img₀, img = formatImage options img₀
  step img command img' := writeFiles command img = .ok img'

/-- A command keeps the invariant. -/
theorem writeFiles_inv {command : WriteFilesOptions} (L : Layout fs) (hnames : NamesGiven command)
    (hI : ∃ chain, FatInv fs chain img) (h : writeFiles command img = .ok img') : ∃ chain, FatInv fs chain img' := by
  obtain ⟨chain, hI⟩ := hI
  unfold writeFiles at h
  rw [hI.header] at h
  refine Res.foldlM_invariant (I := fun img => ∃ chain, FatInv fs chain img) ⟨chain, hI⟩ ?_ h
  rintro img₁ spec hspec img₂ ⟨chain, hI⟩ hstep
  rcases writeFileSpec_cases L (fun _ => filterValidTagNames_lt) hstep with
    rfl | ⟨path, dst, src, i, l, c, hparse, -, -, hS⟩
  · exact ⟨chain, hI⟩
  · exact ⟨_, hI.stored L (hnames spec hspec path dst hparse) hS⟩

/-- The FAT of every image that a run of commands makes of a formatted one is well formed. -/
theorem fatWellFormed_of_reachable (options : FormatOptions) (G : Geometry (headerOf options)) (img : Bytes)
    (h : (tfsfmtSystem options).Reachable (fun _ command => NamesGiven command) img) :
    ∃ chain, FatWellFormed (headerOf options) img chain := by
  have hI : ∃ chain, FatInv (headerOf options) chain img := by
    refine h.invariant ?_ fun img command img' hI hnames hstep => writeFiles_inv G.layout hnames hI hstep
    rintro img ⟨img₀, rfl⟩
    exact ⟨_, fatInv_formatImage G⟩
  obtain ⟨chain, hI⟩ := hI
  exact ⟨chain, hI.wellFormed⟩

/-- The host file `a`, and the command that writes it as `b`. -/
def writeOneFile : WriteFilesOptions where
  files path := if path.chars = [0x61] then some [1, 2, 3] else none
  fileSpecs := [⟨[0x61, 0x3a, 0x62], by decide⟩]
  tags := []

/-- The host files `a` and `c`, of 3 and 700 bytes, and the command that writes them as `b` and `d`. -/
def writeTwoFiles : WriteFilesOptions where
  files path := if path.chars = [0x61] then some [1, 2, 3]
    else if path.chars = [0x63] then some ((List.range 700).map UInt8.ofNat)
    else none
  fileSpecs := [⟨[0x61, 0x3a, 0x62], by decide⟩, ⟨[0x63, 0x3a, 0x64], by decide⟩]
  tags := []

/-- The command on a formatted image: the files have a sector, and two. -/
theorem fatWellFormed_of_reachable_twoFiles : ∃ img chain, writeFiles writeTwoFiles (formatImage {} fun _ => 0) = .ok img ∧
    FatWellFormed (headerOf {}) img chain ∧ (chain 0).length = 1 ∧ (chain 1).length = 2 := by
  have hrun : (writeFiles writeTwoFiles (formatImage {} fun _ => 0) >>= fun img => .ok
      ((List.range 2).map fun i => (fileMetadataEntryIsFree img (fileMetaAt (headerOf {}) i),
        fileSize img (fileMetaAt (headerOf {}) i)))) = .ok [(false, 3), (false, 700)] := by decide +kernel
  obtain ⟨img, hwrite, hrun⟩ := Res.bind_eq_ok.mp hrun
  simp only [List.range_succ, List.range_zero, List.nil_append, List.cons_append, List.map_cons, List.map_nil, Res.ok.injEq,
    List.cons.injEq, Prod.mk.injEq, and_true] at hrun
  obtain ⟨⟨hused₀, hsize₀⟩, hused₁, hsize₁⟩ := hrun
  have hnames : NamesGiven writeTwoFiles := by
    have hparse : ∀ spec ∈ writeTwoFiles.fileSpecs, (parseFileSpec spec).all (fun p => p.2.chars ≠ []) = true := by decide
    intro spec hspec src dst h
    have hall := hparse spec hspec
    rw [h] at hall
    exact of_decide_eq_true hall
  obtain ⟨chain, hchain⟩ := fatWellFormed_of_reachable {} geometry_default img (.step (.init ⟨_, rfl⟩) hnames hwrite)
  have hlen₀ := hchain.length_eq 0 ⟨by decide, hused₀⟩
  have hlen₁ := hchain.length_eq 1 ⟨by decide, hused₁⟩
  rw [hsize₀] at hlen₀
  rw [hsize₁] at hlen₁
  exact ⟨img, chain, hwrite, hchain, hlen₀, hlen₁⟩

end OSForReal.Proof.TagFS
