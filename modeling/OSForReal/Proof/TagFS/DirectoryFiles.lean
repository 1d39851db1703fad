import OSForReal.Proof.TagFS.DirectoryRuns

/-!
# `tfsfmt` and the FUSE driver on one directory

`write_files` adds files to the directory that an image shows
(`IsDirectory.writeFiles`), so that the driver finds what `tfsfmt` wrote and
`tfsfmt` keeps what the driver did: commands and calls in any order are those
of one directory (`tools_refine_directory`).
-/

namespace OSForReal.Proof.TagFS

open Framework
open Framework.Bytes
open OSForReal.TagFS

variable {fs : FSMetadata} {img img' : Bytes} {src : List UInt8} {dst : CStr} {tags : List CStr} {chain : Nat → List Nat}
  {d : Directory} {i c : Nat} {l : List Nat}

/-! ## Commands -/

/-- A command of `tfsfmt`, or a call of the driver. -/
inductive ToolCall where
  | writeFiles (options : WriteFilesOptions)
  | fuse (call : FuseCall)

/-- The tools, on an image. Only the driver's calls have results. -/
def tools : Object Bytes ToolCall (Option FuseResult) where
  call img c r img' := match c with
    | .writeFiles options => r = none ∧ writeFiles options img = .ok img'
    | .fuse call => ∃ result, r = some result ∧ fuseDriver.call img call result img'

namespace Directory

variable (V : Volume) (d : Directory)

/-- A file is stored in the first free slot, if its name fits and a sector is left. -/
def store (src : List UInt8) (dst : CStr) : Directory :=
  if dst.strlen < 24 ∧ freeSlot V d < V.entries ∧ ¬ Full V d then
    Function.update d (freeSlot V d) (some { name := dst, bytes := src, placed := true })
  else d

/-- A file spec: a file of the host that is found is stored. -/
def storeSpec (files : CStr → Option (List UInt8)) (d : Directory) (spec : CStr) : Directory :=
  match parseFileSpec spec with
  | none => d
  | some (path, dst) =>
    match files path with
    | none => d
    | some src => store V d src dst

/-- What a command or a call returns and leaves. -/
def tool : ToolCall → Option FuseResult × Directory
  | .writeFiles options => (none, options.fileSpecs.foldl (storeSpec V options.files) d)
  | .fuse c => (some (call V d c).1, (call V d c).2)

/-- The file spec has a source path, and the file there has a name in the image and fits a sector. -/
def SmallSpec (files : CStr → Option (List UInt8)) (spec : CStr) : Bool :=
  match parseFileSpec spec with
  | none => false
  | some (path, dst) =>
    match files path with
    | none => true
    | some src => dst.chars ≠ [] && src.length ≤ V.sectorSize

/-- The contract of the tools. -/
def ToolOk : ToolCall → Prop
  | .writeFiles options => ∀ spec ∈ options.fileSpecs, SmallSpec V options.files spec = true
  | .fuse c => Ok V d c

instance : ∀ c, Decidable (ToolOk V d c)
  | .writeFiles options => inferInstanceAs (Decidable (∀ spec ∈ options.fileSpecs, _ = true))
  | .fuse c => inferInstanceAs (Decidable (Ok V d c))

end Directory

/-! ## One file -/

/-- A file that fits a sector is stored whole, in one sector. -/
theorem Stored.small (h : Stored fs src dst img i l c img') (L : Layout fs) (hsrc : src.length ≤ fs.sectorSize) :
    c = src.length ∧ l = [firstDataSector img' (fileMetaAt fs i)] := by
  have hs := L.sectorSize
  have hle := h.length_le
  have hone : l.length = 1 := by
    rw [h.sectors, sectorsFor]
    have hdiv : (c + fs.sectorSize - 1) / fs.sectorSize < 2 := Nat.div_lt_of_lt_mul (by omega)
    omega
  obtain ⟨x, rfl⟩ := List.length_eq_one_iff.mp hone
  obtain ⟨hx, -⟩ := h.chain
  refine ⟨?_, by rw [hx]⟩
  rcases h.full with hc | ⟨hc, -⟩
  · exact hc
  · rw [List.length_singleton, Nat.mul_one] at hc
    omega

theorem Stored.fileAt (h : Stored fs src dst img i l c img') (L : Layout fs) (hsrc : src.length ≤ fs.sectorSize)
    (hdst : dst.chars ≠ []) (hlen : dst.strlen < 24) :
    FileAt fs img' i { name := dst, bytes := src, placed := true } := by
  obtain ⟨hc, hl⟩ := h.small L hsrc
  have hcount := L.fatCount_le
  refine ⟨h.used hdst, h.name, hlen, h.size.trans hc, fun k hk => ?_, ?_⟩
  · have hk' : k < src.length := hk
    have hdata := h.data k (by omega)
    rw [Nat.div_eq_of_lt (by omega), Nat.mod_eq_of_lt (by omega), hl] at hdata
    exact hdata
  · have hlt := h.changes.fats_lt _ (hl ▸ List.mem_singleton_self _)
    simp only [true_iff]
    omega

theorem OneSector.stored (hO : OneSector fs chain img) (h : Stored fs src dst img i l c img') (L : Layout fs)
    (hsrc : src.length ≤ fs.sectorSize) (hdst : dst.chars ≠ []) :
    OneSector fs (Function.update chain i l) img' := by
  obtain ⟨hc, hl⟩ := h.small L hsrc
  refine ⟨(h.changes.fsMeta_eq L).trans hO.header, h.owned L hdst hO.owned, fun j hj => ?_, fun x hx => ?_, fun j hj => ?_⟩
  · by_cases hji : j = i
    · rw [hji, Function.update_self, hl, List.length_singleton]
    · rw [Function.update_of_ne hji]
      exact hO.length_le j (((h.used_iff L hdst).mp hj).resolve_right hji)
  · by_cases hxl : x ∈ l
    · rw [hl, h.first, List.mem_singleton] at hxl
      rw [hxl]
      exact hO.lt_entries h.lt (fun hi => absurd hi h.not_used) fun y hy => taken_of_lt_free hy
    · refine hO.low x ⟨hx.1, ?_⟩
      rw [← h.changes.fat_eq L hx.1 hxl]
      exact hx.2
  · by_cases hji : j = i
    · rw [hji, Function.update_self, h.size, hl, List.length_singleton, Nat.mul_one]
      omega
    · have hj' := ((h.used_iff L hdst).mp hj).resolve_right hji
      rw [Function.update_of_ne hji, h.changes.fileSize_eq L hj'.1 (by simpa using hji)]
      exact hO.size_le j hj'

namespace IsDirectory

variable (h : IsDirectory fs img d) (L : Layout fs)
include h L

/-- A file is stored in the image when it is stored in the directory. -/
theorem accepted_iff (hsrc : src.length ≤ fs.sectorSize) : Accepted fs img src dst ↔
    dst.strlen < 24 ∧ Directory.freeSlot (volumeOf fs) d < (volumeOf fs).entries ∧
      ¬ Directory.Full (volumeOf fs) d := by
  rw [Accepted, isTagfsFile_iff, h.freeSlot_eq, h.full_iff L]
  have hfree : nextFreeFat fs img 0 < fatCount fs ↔ findFreeFat fs img ≠ none := by
    constructor
    · intro hlt hnone
      exact findFreeFat_none hnone hlt (nextFreeFat_free hlt)
    · intro hne
      obtain ⟨g, hg⟩ := Option.ne_none_iff_exists'.mp hne
      obtain ⟨hlt, h0⟩ := findFreeFat_some hg
      exact Nat.lt_of_le_of_lt (nextFreeFat_le (Nat.zero_le g) h0) hlt
  rw [hfree]
  constructor
  · intro hacc
    exact ⟨hacc.1.2, hacc.2⟩
  · intro hacc
    obtain ⟨g, hg⟩ := Option.ne_none_iff_exists'.mp hacc.2.2
    have hlt := L.sectorSize_lt (findFreeFat_some hg).1
    exact ⟨⟨by omega, hacc.1⟩, hacc.2⟩

theorem writeFile (htags : ∀ tag ∈ tags, tag.strlen < 28) (hsrc : src.length ≤ fs.sectorSize) (hdst : dst.chars ≠ []) :
    ∃ img', writeFile fs tags src dst img = .ok img' ∧ IsDirectory fs img' (Directory.store (volumeOf fs) d src dst) := by
  have hacc := @accepted_iff _ _ src dst _ h L hsrc
  rcases writeFile_cases img src dst L htags with ⟨hnot, hr⟩ | ⟨hstore, i, l, c, img₁, hr, hS⟩
  · refine ⟨img, hr, ?_⟩
    rw [Directory.store, if_neg fun hd => hnot (hacc.mpr hd)]
    exact h
  · obtain ⟨chain, hO⟩ := h.oneSector
    refine ⟨img₁, hr, ?_⟩
    rw [Directory.store, if_pos (hacc.mp hstore), ← h.freeSlot_eq, ← hS.index]
    refine h.update hO (hO.stored hS L hsrc hdst) L hS.changes (fun j hj _ x hx hxl => ?_)
      (hS.fileAt L hsrc hdst (hacc.mp hstore).1)
    exact (hO.owned.taken_of_mem hj hx).2 (hS.free x hxl)

theorem writeFileSpec {files : CStr → Option (List UInt8)} {spec : CStr} (htags : ∀ tag ∈ tags, tag.strlen < 28)
    (hspec : Directory.SmallSpec (volumeOf fs) files spec = true) : ∃ img', writeFileSpec fs files tags img spec = .ok img' ∧
      IsDirectory fs img' (Directory.storeSpec (volumeOf fs) files d spec) := by
  unfold Directory.SmallSpec at hspec
  unfold OSForReal.TagFS.writeFileSpec Directory.storeSpec
  cases hparse : parseFileSpec spec with
  | none =>
    rw [hparse] at hspec
    cases hspec
  | some p =>
    obtain ⟨path, dst⟩ := p
    rw [hparse] at hspec
    simp only at hspec ⊢
    cases hfile : files path with
    | none => exact ⟨img, rfl, h⟩
    | some src =>
      rw [hfile] at hspec
      simp only [ne_eq, Bool.and_eq_true, decide_eq_true_eq] at hspec
      exact h.writeFile L htags hspec.2 (by simpa using hspec.1)

omit h in
theorem writeFileSpecs {files : CStr → Option (List UInt8)} {specs : List CStr} (htags : ∀ tag ∈ tags, tag.strlen < 28)
    (hspecs : ∀ spec ∈ specs, Directory.SmallSpec (volumeOf fs) files spec = true) (h : IsDirectory fs img d) :
    ∃ img', specs.foldlM (OSForReal.TagFS.writeFileSpec fs files tags) img = .ok img' ∧
      IsDirectory fs img' (specs.foldl (Directory.storeSpec (volumeOf fs) files) d) := by
  induction specs generalizing img d with
  | nil => exact ⟨img, rfl, h⟩
  | cons spec specs ih =>
    obtain ⟨img₁, hr, hd⟩ := h.writeFileSpec L htags (hspecs spec List.mem_cons_self)
    obtain ⟨img', hr', hd'⟩ := ih (fun s hs => hspecs s (List.mem_cons_of_mem _ hs)) hd
    refine ⟨img', ?_, hd'⟩
    rw [List.foldlM_cons, hr]
    exact hr'

/-- A command that keeps the contract returns, with its files in the directory. -/
theorem writeFiles (options : WriteFilesOptions) (hok : Directory.ToolOk (volumeOf fs) d (.writeFiles options)) :
    ∃ img', writeFiles options img = .ok img' ∧
      IsDirectory fs img' (Directory.tool (volumeOf fs) d (.writeFiles options)).2 := by
  unfold OSForReal.TagFS.writeFiles
  rw [h.header]
  exact writeFileSpecs L (fun tag => filterValidTagNames_lt) hok h

end IsDirectory

/-! ## Runs -/

/-- The tools on images with the header `fs` are a directory, as long as the contract is kept. -/
theorem tools_simulate (L : Layout fs) :
    Simulation tools (Directory.tool (volumeOf fs)) (Directory.ToolOk (volumeOf fs)) (IsDirectory fs) where
  returns img d c h hok := by
    cases c with
    | writeFiles options =>
      obtain ⟨img', hr, -⟩ := h.writeFiles L options hok
      exact ⟨none, img', rfl, hr⟩
    | fuse call =>
      obtain ⟨r, img', hr⟩ := (fuseDriver_simulates L).returns img d call h hok
      exact ⟨some r, img', r, rfl, hr⟩
  agrees img d c r img' h hok hr := by
    cases c with
    | writeFiles options =>
      obtain ⟨img₁, hr₁, hd⟩ := h.writeFiles L options hok
      obtain ⟨rfl, hr⟩ := hr
      rw [hr₁] at hr
      obtain rfl := Res.ok.inj hr
      exact ⟨rfl, hd⟩
    | fuse call =>
      obtain ⟨result, rfl, hr⟩ := hr
      obtain ⟨rfl, hd⟩ := (fuseDriver_simulates L).agrees img d call result img' h hok hr
      exact ⟨rfl, hd⟩

/-- Commands of `tfsfmt` and calls of the driver in any order, on an image that `tfsfmt`
formatted, return, the calls return what one directory returns that holds the files of both,
and the image is that directory in the end. -/
theorem tools_refine_directory (options : FormatOptions) (G : Geometry (headerOf options)) (img : Bytes) (l : List ToolCall)
    (hl : Keeps (Directory.ToolOk (volumeOf (headerOf options))) (Directory.tool (volumeOf (headerOf options)))
      Directory.empty l) (rs : List (Option FuseResult)) :
    ((∃ img', tools.Run (formatImage options img) l rs img') ↔
      rs = outputs (Directory.tool (volumeOf (headerOf options))) Directory.empty l) ∧
      ∀ img', tools.Run (formatImage options img) l rs img' → IsDirectory (headerOf options) img'
        (after (Directory.tool (volumeOf (headerOf options))) Directory.empty l) :=
  ⟨(tools_simulate G.layout).run_iff (isDirectory_formatImage G img) hl, fun _ hr =>
    ((tools_simulate G.layout).run (isDirectory_formatImage G img) hl hr).2⟩

theorem noNul_rootName : (0 : UInt8) ∉ ([] : List UInt8) := List.not_mem_nil

/-- The root. -/
def rootName : CStr := ⟨[], noNul_rootName⟩

theorem noNul_storedName : (0 : UInt8) ∉ [(0x62 : UInt8)] := by decide

/-- The name that the command gives its file. -/
def storedName : CStr := ⟨[0x62], noNul_storedName⟩

/-- A file that `tfsfmt` wrote is listed and overwritten, another one is created, written to and
removed, and the command is given again. -/
theorem tools_refine_directory_first : ∃ img', tools.Run (formatImage {} fun _ => 0)
    [.writeFiles writeOneFile, .fuse (.readdir rootName), .fuse (.write storedName [9] 1), .fuse (.mknod nameA true),
      .fuse (.write nameA [1, 2, 3] 0), .fuse (.write nameA [4, 5] 2), .fuse (.read nameA 3 1), .fuse (.unlink nameA),
      .writeFiles writeOneFile, .fuse (.read nameA 1 0), .fuse (.read storedName 3 0)]
    [none, some (.listing [(some storedName, { ino := 1, size := 3, mode := fileMode })]), some (.status 1),
      some (.status 0), some (.status 3), some (.status 2), some (.bytes 3 [2, 4, 5]), some (.status 0), none,
      some (.bytes (-enoent) []), some (.bytes 3 [1, 9, 3])] img' :=
  (tools_refine_directory {} geometry_default _ _ (by decide +kernel) _).1.mpr (by decide +kernel)

end OSForReal.Proof.TagFS
