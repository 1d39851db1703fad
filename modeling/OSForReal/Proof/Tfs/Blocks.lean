import OSForReal.Proof.Heap.Front
import OSForReal.Proof.Heap.System
import OSForReal.Proof.Tfs.Sectors

/-!
# The heap blocks of `tfs_read` and `tfs_write`

A call takes a block for the FAT and one for the file's entry, and gives them
back. The second FAT sector is stored behind the first block, over the header of
the free segment there: what the entries 256 to 259 make of the header is where
the allocator goes on. `FatRoom` says on which heaps the second block lies apart
from the other buffers all the same and both are given back, and `Placed` is
what the rest of a call needs of that (`FatRoom.placed`).
-/

namespace OSForReal.Proof.Tfs

open Framework
open Framework.Bytes
open OSForReal.Heap
open OSForReal.TagFS
open OSForReal.Proof.TagFS
open OSForReal.Proof.Heap

variable {σ : Type} {S : PageSupply σ} {fs : FSMetadata} {img : Bytes} {sb : Nat} {h h₁ h₂ h' : Heap σ} {pre : List Seg}
  {fats m s w x : Nat} {Q : Heap σ → Prop}

/-- The `next` that the second FAT sector leaves in the header it is stored over. -/
def strayNext (fs : FSMetadata) (img : Bytes) : Nat := fat fs img 256 + 2 ^ 16 * fat fs img 257

/-- The `length` that it leaves there. -/
def strayLength (fs : FSMetadata) (img : Bytes) : Nat := fat fs img 258 + 2 ^ 16 * fat fs img 259

/-- The free list begins with segments too short for the FAT and a segment `s`
that has room for it and for the sector behind it, above `tfs_sector_buffer`.
Then the entry fits in a segment before `s`, or in what the FAT makes of the one
after the block, or that is the last one and can grow. -/
structure FatRoom (S : PageSupply σ) (fs : FSMetadata) (img : Bytes) (sb : Nat) (h : Heap σ) (pre : List Seg) (s : Nat) :
    Prop where
  front : Front h pre s s
  short : ∀ r ∈ pre, r.len < 1028
  room : 1540 ≤ h.length s
  fits : s + h.length s ≤ 2 ^ 32
  aligned : s % 4 = 0
  below : sb + 512 ≤ s
  high : s + 2 ^ 18 ≤ 2 ^ 32
  buffer : ∀ r ∈ pre, r.fin ≤ sb ∨ sb + 512 ≤ r.addr
  entry : (∃ r ∈ pre, 36 ≤ r.len) ∨ 44 ≤ strayLength fs img ∨
    strayLength fs img < 36 ∧ strayNext fs img = 0 ∧ ∃ supply, S.commit h.supply h.nextPageVirtAddr = .ok (true, supply)

/-- A heap on which the calls of the file system find room for their blocks. -/
def FatFits (S : PageSupply σ) (fs : FSMetadata) (img : Bytes) (sb : Nat) (h : Heap σ) : Prop :=
  ∃ pre s, FatRoom S fs img sb h pre s

theorem FatFits.congr {img' : Bytes} (hfat : ∀ x < 260, fat fs img' x = fat fs img x) :
    FatFits S fs img sb h ↔ FatFits S fs img' sb h := by
  have hnext : strayNext fs img' = strayNext fs img := by
    unfold strayNext
    rw [hfat 256 (by decide), hfat 257 (by decide)]
  have hlength : strayLength fs img' = strayLength fs img := by
    unfold strayLength
    rw [hfat 258 (by decide), hfat 259 (by decide)]
  constructor
  · rintro ⟨pre, s, F⟩
    exact ⟨pre, s, { F with entry := by rw [hnext, hlength]; exact F.entry }⟩
  · rintro ⟨pre, s, F⟩
    exact ⟨pre, s, { F with entry := by rw [← hnext, ← hlength]; exact F.entry }⟩

/-! ## Heaps that differ in the blocks of a call -/

/-- The bytes of the three buffers. -/
def InBlocks (sb fats m x : Nat) : Prop := InBuffer sb 512 x ∨ InBuffer fats 1024 x ∨ InBuffer m 32 x

/-- A word that is in none of them. -/
structure OffBlocks (sb fats m w : Nat) : Prop where
  buffer : w + 4 ≤ sb ∨ sb + 512 ≤ w
  fats : w + 4 ≤ fats ∨ fats + 1024 ≤ w
  entry : w + 4 ≤ m ∨ m + 32 ≤ w

theorem OffBlocks.mem_eq (hw : OffBlocks sb fats m w) (h₁ : OnlyIn (InBlocks sb fats m) h h') : h'.mem w = h.mem w := by
  have hbuffer := hw.buffer; have hfats := hw.fats; have hentry := hw.entry
  refine h₁.mem w fun k hk hin => ?_
  rcases hin with hin | hin | hin <;>
  · have := hin.1
    have := hin.2
    omega

/-- The buffers do not overlap, and every entry of the FAT, in the block or not, is below 2³². -/
structure BlocksApart (sb fats m : Nat) : Prop where
  below : sb + 512 ≤ fats
  high : fats + 2 ^ 17 ≤ 2 ^ 32
  offBuffer : m + 32 ≤ sb ∨ sb + 512 ≤ m
  offFats : m + 32 ≤ fats ∨ fats + 1024 ≤ m
  fits : m + 32 ≤ 2 ^ 32

/-- What a call has once both blocks are allocated: the FAT as it is loaded in
`h₂`, the two blocks apart from `tfs_sector_buffer` and each other, and that they
can be given back, which leads to `Q`. -/
structure Placed (S : PageSupply σ) (fs : FSMetadata) (img : Bytes) (sb : Nat) (h : Heap σ) (fats m : Nat) (h₂ : Heap σ)
    (Q : Heap σ → Prop) : Prop extends BlocksApart sb fats m where
  allocated : ∃ h₁, Res.Returns (fun fuel => tfsLoadFats S fs fuel h img) (fats, h₁) ∧
    Res.Returns (fun fuel => memoryAllocate S fuel h₁ sizeofFileMetadata) (m, h₂)
  first : ∀ k < 512, h₂.bytes (fats + k) = diskSector img (tfsGetFatLba fs) k
  second : ∀ k, 512 ≤ k → k < 1024 → h₂.bytes (fats + k) = h.bytes (fats + k)
  freed : ∀ h', OnlyIn (InBlocks sb fats m) h₂ h' →
    ∃ h'', Res.Returns (fun fuel => memoryFree fuel h' m >>= fun h => memoryFree fuel h fats) h'' ∧ Q h''

/-! ## The block for the FAT -/

theorem strayNext_eq (K : KernelImage fs) : u32 (diskSector img (tfsGetFatLba fs + 1)) 0 = strayNext fs img := by
  have hlba := K.fatLba
  unfold u32 u16 strayNext fat fatAt u16 diskSector
  rw [Nat.mul_add, hlba]

theorem strayLength_eq (K : KernelImage fs) : u32 (diskSector img (tfsGetFatLba fs + 1)) 4 = strayLength fs img := by
  have hlba := K.fatLba
  unfold u32 u16 strayLength fat fatAt u16 diskSector
  rw [Nat.mul_add, hlba]

theorem stray_lt (fs : FSMetadata) (img : Bytes) : strayNext fs img < 2 ^ 32 ∧ strayLength fs img < 2 ^ 32 := by
  have h256 : fat fs img 256 < 2 ^ 16 := u16_lt
  have h257 : fat fs img 257 < 2 ^ 16 := u16_lt
  have h258 : fat fs img 258 < 2 ^ 16 := u16_lt
  have h259 : fat fs img 259 < 2 ^ 16 := u16_lt
  unfold strayNext strayLength
  omega

/-- A sector that the drive has. -/
theorem readSector_eq {lba a : Nat} (hlba : lba ≤ 0xfffffff) :
    readSector h img lba a = .ok (h.copyTo a 512 (diskSector img lba)) := Res.assert_bind hlba _

namespace FatRoom

variable (F : FatRoom S fs img sb h pre s) (K : KernelImage fs)

include F K

/-- The heap once the FAT is loaded: the block is taken off `s`, and the header behind it is overwritten. -/
theorem load : ∃ h₁, Res.Returns (fun fuel => tfsLoadFats S fs fuel h img) (s + 4, h₁) ∧ Front h₁ pre (s + 1028) s ∧
    SameSupply h h₁ ∧ h₁.mem s = 1028 ∧ h₁.next (s + 1028) = strayNext fs img ∧
    h₁.length (s + 1028) = strayLength fs img ∧
    (∀ k < 512, h₁.bytes (s + 4 + k) = diskSector img (tfsGetFatLba fs) k) ∧
    ∀ k, 512 ≤ k → k < 1024 → h₁.bytes (s + 4 + k) = h.bytes (s + 4 + k) := by
  have hroom := F.room; have hfits := F.fits; have halign := F.aligned; have hbelow := F.below; have hhigh := F.high
  have hlt := K.sections_lt
  have hlba : tfsGetFatLba fs + 1 ≤ 0xfffffff := by
    have := K.fatLba
    simp only [getFat, K.sectorSize_eq] at this
    omega
  -- The block.
  have hsize : pad (1024 + 4) = 1028 := rfl
  have hfit := F.front.allocate_fit S 1024 (by omega) (fun r hr => F.short r hr) (by omega) (by omega)
  obtain ⟨h', hcarve, hfront, hsupply, hblock, -, -, hother⟩ := F.front.carve_front 1024 1028 (by omega)
    (by omega) (by omega) (by omega)
  rw [hsize, decide_eq_true (by omega : 1028 + 8 ≤ h.length s), hcarve] at hfit
  refine ⟨(h'.copyTo (s + 4) 512 (diskSector img (tfsGetFatLba fs))).copyTo (s + 1028) 512
    (diskSector img (tfsGetFatLba fs + 1)), ?_, hfront.congr ?_ fun r hr => ?_, ⟨hsupply.supply, hsupply.nextPage⟩,
    ?_, ?_, ?_, fun k hk => ?_, fun k hk hk' => ?_⟩
  · have hmod : fs.sectorSize * fs.fatSectorCount % 2 ^ 32 = 1024 := by
      rw [K.sectorSize_eq, K.fats_eq]
      rfl
    have hbehind : (s + 4 + 2 * 512) % 2 ^ 32 = s + 1028 := by omega
    simp only [tfsLoadFats, hmod]
    refine hfit.bind ?_
    simp only [K.sectorSize_eq, hbehind, Nat.mod_eq_of_lt (show tfsGetFatLba fs + 1 < 2 ^ 32 by omega),
      readSector_eq (show tfsGetFatLba fs ≤ 0xfffffff by omega), readSector_eq hlba, Res.ok_bind]
    exact Res.Returns.ok _
  · refine hfront.chain.frame fun a ha => ?_
    obtain ⟨r, hr, rfl⟩ := List.mem_map.mp ha
    have := hfront.below r hr
    rw [copyTo_mem_out (by omega), copyTo_mem_out (by omega)]
  · have := hfront.below r hr
    rw [copyTo_mem_out (by omega), copyTo_mem_out (by omega)]
  · rw [copyTo_mem_out (by omega), copyTo_mem_out (by omega), hblock]
    rfl
  · rw [next, copyTo_mem_in (by omega) (by omega), Nat.sub_self]
    exact strayNext_eq K
  · rw [length, copyTo_mem_in (by omega) (by omega), Nat.add_sub_cancel_left]
    exact strayLength_eq K
  · rw [bytes_copyTo, copy_out (by omega), bytes_copyTo, copy_in (by omega) (by omega), Nat.add_sub_cancel_left]
  · rw [bytes_copyTo, copy_out (by omega), bytes_copyTo, copy_out (by omega)]
    refine bytes_congr (hother _ (fun r hr => ?_) (by omega) (by omega) (by omega))
    have := F.front.below r hr
    omega

omit K in
/-- The memory where the second FAT sector should be may hold anything. -/
theorem fill (p : Bytes) : ∃ h', FatRoom S fs img sb h' pre s ∧ SameSupply h h' ∧
    ∀ k, 512 ≤ k → k < 1024 → h'.bytes (s + 4 + k) = p k := by
  have hroom := F.room
  have hpre := F.front.below
  have hkeep : ∀ w, w + 4 ≤ s + 516 → (h.copyTo (s + 516) 512 fun k => p (512 + k)).mem w = h.mem w :=
    fun w hw => copyTo_mem_out (.inl hw)
  refine ⟨h.copyTo (s + 516) 512 fun k => p (512 + k), ?_, ⟨rfl, rfl⟩, fun k hk hk' => ?_⟩
  · have hlen : (h.copyTo (s + 516) 512 fun k => p (512 + k)).length s = h.length s := hkeep _ (by omega)
    refine { F with front := F.front.congr ?_ fun r hr => ?_, room := by rwa [hlen], fits := by rw [hlen]; exact F.fits }
    · refine F.front.chain.frame fun a ha => ?_
      obtain ⟨r, hr, rfl⟩ := List.mem_map.mp ha
      have := hpre r hr
      exact hkeep _ (by omega)
    · have := hpre r hr
      exact hkeep _ (by omega)
  · rw [bytes_copyTo, copy_in (by omega) (by omega)]
    exact congrArg p (by omega)

end FatRoom

/-! ## An entry behind the FAT -/

/-- Freeing the entry and the FAT, where the entry's block follows that of the FAT. -/
theorem frees_behind {L n : Nat} (hF : Front h pre (s + 1064) s) (hs : 0 < s) (hend : s + 2 ^ 18 ≤ 2 ^ 32)
    (hblock : h.mem s = 1028) (hentry : h.mem (s + 1028) = 36) (hnext : h.next (s + 1064) = n)
    (hlen : h.length (s + 1064) = L - 36) (hL : 36 ≤ L) :
    ∃ h', Res.Returns (fun fuel => memoryFree fuel h (s + 1032) >>= fun h => memoryFree fuel h (s + 4)) h' ∧
      (pre = [] → Chain h'.mem h'.freeSegmentsHead [s] n ∧ h'.length s = (1028 + L % 2 ^ 32) % 2 ^ 32) := by
  have hbelow : ∀ r ∈ pre, r.addr + 8 ≤ s := hF.below
  have hsorted : (pre.map Seg.addr).Pairwise (· < ·) := List.pairwise_map.mpr hF.addr_sorted
  have haddr : ∀ y ∈ pre.map Seg.addr, y ≠ 0 ∧ y < s := fun y hy => by
    obtain ⟨r, hr, rfl⟩ := List.mem_map.mp hy
    have := hbelow r hr
    exact ⟨hF.addr_pos r hr, by omega⟩
  -- The entry's block joins the segment behind it, and none before.
  obtain ⟨h', l, hfirst, hchain, hmem, hl⟩ := Front.free_list (a := s + 1028) hF.chain hsorted
    (fun y hy => ⟨(haddr y hy).1, by have := (haddr y hy).2; omega⟩) (by omega) (by omega) (by omega)
  have htouch : (s + 1028 + h.mem (s + 1028)) % 2 ^ 32 = s + 1064 := by
    rw [hentry]
    omega
  rw [if_pos htouch, hnext] at hchain
  rw [if_pos htouch, hentry, hlen] at hl
  obtain ⟨rfl, hlen'⟩ : l = pre.map Seg.addr ++ [s + 1028] ∧ h'.length (s + 1028) = (36 + (L - 36)) % 2 ^ 32 := by
    refine hl.resolve_right fun hjoined => ?_
    obtain ⟨-, y, hy, hjoin⟩ := hjoined
    obtain ⟨r, hr, rfl⟩ := List.mem_map.mp hy
    have hfin := (hF.within r hr).hi
    have hpad := le_pad r.len
    rw [hF.lens r hr] at hjoin
    simp only [Seg.fin] at hfin
    omega
  obtain ⟨c, hpre, hc, hn⟩ := Chain.append_iff.mp hchain
  obtain rfl : c = s + 1028 := hc
  have hblock' : h'.mem s = 1028 := by
    rw [hmem s (by omega) (by omega) (by omega) fun y hy => ?_, hblock]
    obtain ⟨r, hr, rfl⟩ := List.mem_map.mp hy
    have := hbelow r hr
    omega
  -- The FAT's block joins that one.
  obtain ⟨h'', l', hsecond, hchain', -, hl'⟩ := Front.free_list (a := s) hpre hsorted haddr hs (by omega) (by omega)
  have htouch' : (s + h'.mem s) % 2 ^ 32 = s + 1028 := by
    rw [hblock']
    omega
  refine ⟨h'', hfirst.bind hsecond, fun hnil => ?_⟩
  rw [if_pos htouch', show h'.next (s + 1028) = n from hn] at hchain'
  rw [if_pos htouch', hblock', hlen', Nat.add_sub_of_le hL] at hl'
  subst hnil
  obtain ⟨rfl, hlen''⟩ := hl'.resolve_right (by simp)
  exact ⟨hchain', hlen''⟩

namespace FatRoom

variable (F : FatRoom S fs img sb h pre s) (K : KernelImage fs)

include F

/-- The entry in the segment behind the FAT, when that has `L` bytes. -/
theorem placed_behind {L n : Nat} {g : Heap σ}
    (hload : ∃ h₁, Res.Returns (fun fuel => tfsLoadFats S fs fuel h img) (s + 4, h₁) ∧
      Res.Returns (fun fuel => memoryAllocate S fuel h₁ sizeofFileMetadata)
        (g.carve 32 36 (lastTwo (0, 0) pre).2 (s + 1028) true))
    (hfront : Front g pre (s + 1028) s) (hblock : g.mem s = 1028) (hnext : g.next (s + 1028) = n)
    (hlen : g.length (s + 1028) = L) (hL : 44 ≤ L) (hL' : L < 2 ^ 32)
    (hfirst : ∀ k < 512, g.bytes (s + 4 + k) = diskSector img (tfsGetFatLba fs) k)
    (hsecond : ∀ k, 512 ≤ k → k < 1024 → g.bytes (s + 4 + k) = h.bytes (s + 4 + k)) :
    ∃ h₂, Placed S fs img sb h (s + 4) (s + 1032) h₂ fun h' =>
      pre = [] → SameSupply g h' ∧ Chain h'.mem h'.freeSegmentsHead [s] n ∧ h'.length s = (1028 + L) % 2 ^ 32 := by
  have halign := F.aligned; have hbelow := F.below; have hhigh := F.high
  obtain ⟨h₁, hloads, halloc⟩ := hload
  obtain ⟨h₂, hcarve, hfront₂, hsupply, hentry, hnext₂, hlen₂, hother⟩ := (hfront.mono (show s ≤ s + 1028 by omega)).carve_front
    32 36 (by omega) (by omega) (by omega) (by omega)
  rw [hcarve] at halloc
  have hpre : ∀ r ∈ pre, r.addr + 8 ≤ s := hfront.below
  have hword : ∀ w, s ≤ w → w < s + 1028 → h₂.mem w = g.mem w := fun w hw hw' => by
    refine hother w (fun r hr => ?_) (by omega) (by omega) (by omega)
    have := hpre r hr
    omega
  have hbytes : ∀ k < 1024, h₂.bytes (s + 4 + k) = g.bytes (s + 4 + k) := fun k hk =>
    bytes_congr (hword _ (by omega) (by omega))
  refine ⟨h₂, ⟨by omega, by omega, .inr (by omega), .inr (by omega), by omega⟩, ⟨h₁, hloads, halloc⟩,
    fun k hk => (hbytes k (by omega)).trans (hfirst k hk), fun k hk hk' => (hbytes k hk').trans (hsecond k hk hk'),
    fun h' hin => ?_⟩
  -- The headers are in no block.
  have hheader : ∀ r ∈ pre, h'.mem r.addr = h₂.mem r.addr ∧ h'.mem (r.addr + 4) = h₂.mem (r.addr + 4) := fun r hr => by
    have hlt := hpre r hr
    have hw := (F.front.within r hr).words
    have hbuf := F.buffer r hr
    exact ⟨OffBlocks.mem_eq ⟨by omega, by omega, by omega⟩ hin, OffBlocks.mem_eq ⟨by omega, by omega, by omega⟩ hin⟩
  have hkeep : ∀ w, (w = s ∨ w = s + 1028 ∨ w = s + 1064 ∨ w = s + 1068) → h'.mem w = h₂.mem w := fun w hw =>
    OffBlocks.mem_eq ⟨by omega, by omega, by omega⟩ hin
  have hfront' : Front h' pre (s + 1064) s := by
    have hfront₂' : Front h₂ pre (s + 1064) s := ⟨hfront₂.chain, hfront₂.lens, F.front.within, F.front.sorted⟩
    refine hfront₂'.congr ?_ fun r hr => (hheader r hr).2
    rw [hin.head]
    refine hfront₂'.chain.frame fun a ha => ?_
    obtain ⟨r, hr, rfl⟩ := List.mem_map.mp ha
    exact (hheader r hr).1
  obtain ⟨h'', hfree, hend⟩ := frees_behind (L := L) (n := n) hfront' (by omega) hhigh
    (by rw [hkeep s (by omega), hword s (by omega) (by omega), hblock])
    (by rw [hkeep _ (by omega), hentry]; rfl)
    (by rw [next, hkeep _ (by omega)]; exact hnext₂.trans hnext)
    (by rw [length, hkeep _ (by omega)]; exact hlen₂.trans (by rw [hlen])) (by omega)
  refine ⟨h'', hfree, fun hnil => ?_⟩
  obtain ⟨hchain, hlength⟩ := hend hnil
  obtain ⟨n, hn⟩ := hfree.enough
  obtain ⟨h₃, hfree₁, hfree₂⟩ := Res.bind_eq_ok.mp (hn n (Nat.le_refl n))
  have hs₁ := sameSupply_memoryFree hfree₁
  have hs₂ := sameSupply_memoryFree hfree₂
  refine ⟨⟨?_, ?_⟩, hchain, by rw [hlength, Nat.mod_eq_of_lt hL']⟩
  · rw [hs₂.supply, hs₁.supply, hin.supply, hsupply.supply]
  · rw [hs₂.nextPage, hs₁.nextPage, hin.nextPage, hsupply.nextPage]

end FatRoom

/-! ## An entry before the FAT -/

/-- The list past the segment `r` of a front. -/
theorem chain_after {l₁ l₂ : List Seg} {r : Seg} {top : Nat} (hF : Front h (l₁ ++ r :: l₂) x top) :
    Chain h.mem (h.next r.addr) (l₂.map Seg.addr) x := by
  have hchain := hF.chain
  rw [List.map_append, List.map_cons, Chain.append_iff] at hchain
  obtain ⟨c, -, rfl, hrest⟩ := hchain
  exact hrest

/-- The segments past `r` lie behind it, in ascending order. -/
theorem sorted_after {l₁ l₂ : List Seg} {r : Seg} {top : Nat} (hF : Front h (l₁ ++ r :: l₂) x top) :
    (l₂.map Seg.addr).Pairwise (· < ·) ∧ ∀ q ∈ l₂, r.fin ≤ q.addr :=
  ⟨List.pairwise_map.mpr (List.pairwise_cons.mp (List.pairwise_append.mp hF.addr_sorted).2.1).2,
    (List.pairwise_cons.mp (List.pairwise_append.mp hF.sorted).2.1).1⟩

/-- The list `u` that takes the place of the segments from `r` on: it ascends behind the
entry's block, and each of its headers lies in one of the segments. -/
structure TakenFrom (l₁ l₂ : List Seg) (r : Seg) (u : List Nat) : Prop where
  sorted : u.Pairwise (· < ·)
  behind : ∀ y ∈ u, r.addr + 36 ≤ y
  within : ∀ y ∈ u, ∃ q ∈ l₁ ++ r :: l₂, q.addr ≤ y ∧ y + 8 ≤ q.fin

theorem takenFrom_after {l₁ l₂ : List Seg} {r : Seg} {top : Nat} (hF : Front h (l₁ ++ r :: l₂) x top) (hr : 36 ≤ r.len) :
    TakenFrom l₁ l₂ r (l₂.map Seg.addr) where
  sorted := (sorted_after hF).1
  behind y hy := by
    obtain ⟨q, hq, rfl⟩ := List.mem_map.mp hy
    have hfin : r.addr + r.len ≤ r.fin := Nat.add_le_add_left (le_pad r.len) _
    have := (sorted_after hF).2 q hq
    omega
  within y hy := by
    obtain ⟨q, hq, rfl⟩ := List.mem_map.mp hy
    exact ⟨q, by simp [hq], Nat.le_refl _, (hF.within q (by simp [hq])).words⟩

theorem TakenFrom.append_sorted {l₁ l₂ : List Seg} {r : Seg} {u : List Nat} (hu : TakenFrom l₁ l₂ r u)
    (hF : Front h l₁ r.addr r.addr) : (l₁.map Seg.addr ++ u).Pairwise (· < ·) := by
  refine List.pairwise_append.mpr ⟨List.pairwise_map.mpr hF.addr_sorted, hu.sorted, fun y hy z hz => ?_⟩
  obtain ⟨q, hq, rfl⟩ := List.mem_map.mp hy
  have hlt := hF.below q hq
  have := hu.behind z hz
  omega

/-- The entry's block is taken off a segment, and the rest of it stays on the list. -/
theorem carve_before_split {l₁ l₂ : List Seg} {r : Seg} {top : Nat} (hF : Front h (l₁ ++ r :: l₂) x top) (hr : 44 ≤ r.len)
    (htop : top ≤ 2 ^ 32) :
    ∃ h', h.carve 32 36 (lastTwo (0, 0) l₁).2 r.addr true = (r.addr + 4, h') ∧ h'.mem r.addr = 36 ∧
      Chain h'.mem h'.freeSegmentsHead (l₁.map Seg.addr ++ (r.addr + 36) :: l₂.map Seg.addr) x ∧
      TakenFrom l₁ l₂ r ((r.addr + 36) :: l₂.map Seg.addr) ∧ ∀ w, top ≤ w → h'.mem w = h.mem w := by
  have hlen := hF.lens r (by simp)
  have hin := hF.within r (by simp)
  have hhi := hin.hi; have hpos := hin.pos
  have hfin : r.addr + r.len ≤ r.fin := Nat.add_le_add_left (le_pad r.len) _
  have hlt : ∀ q ∈ l₁, q.addr + 8 ≤ r.addr := hF.before.below
  have hafter := (sorted_after hF).2
  obtain ⟨h', hcarve, hfront, -, hblock, hnext, -, hother⟩ := hF.before.carve_front 32 36 (by omega) (by omega)
    (by omega) (by omega)
  have hkeep : ∀ w, r.addr + 44 ≤ w → h'.mem w = h.mem w := fun w hw => by
    refine hother w (fun q hq => ?_) (by omega) (by omega) (by omega)
    have := hlt q hq
    omega
  have hrest : Chain h'.mem (h.next r.addr) (l₂.map Seg.addr) x := by
    refine (chain_after hF).frame fun a ha => ?_
    obtain ⟨q, hq, rfl⟩ := List.mem_map.mp ha
    have := hafter q hq
    exact hkeep _ (by omega)
  refine ⟨h', hcarve, hblock, ?_, ⟨?_, fun y hy => ?_, fun y hy => ?_⟩, fun w hw => hkeep w (by omega)⟩
  · rw [← show h'.mem (r.addr + 36) = h.next r.addr from hnext] at hrest
    exact Chain.append_iff.mpr ⟨_, hfront.chain, rfl, hrest⟩
  · refine List.pairwise_cons.mpr ⟨fun y hy => ?_, (sorted_after hF).1⟩
    obtain ⟨q, hq, rfl⟩ := List.mem_map.mp hy
    have := hafter q hq
    omega
  · rcases List.mem_cons.mp hy with rfl | hy
    · exact Nat.le_refl _
    · exact (takenFrom_after hF (by omega)).behind y hy
  · rcases List.mem_cons.mp hy with rfl | hy
    · exact ⟨r, by simp, by omega, by omega⟩
    · exact (takenFrom_after hF (by omega)).within y hy

/-- The entry's block is all of a segment. -/
theorem carve_before_whole {l₁ l₂ : List Seg} {r : Seg} {top : Nat} (hF : Front h (l₁ ++ r :: l₂) x top) (hr : 36 ≤ r.len)
    (htop : top ≤ 2 ^ 32) :
    ∃ h', h.carve 32 36 (lastTwo (0, 0) l₁).2 r.addr false = (r.addr + 4, h') ∧ h'.mem r.addr = 36 ∧
      Chain h'.mem h'.freeSegmentsHead (l₁.map Seg.addr ++ l₂.map Seg.addr) x ∧
      ∀ w, top ≤ w → h'.mem w = h.mem w := by
  have hin := hF.within r (by simp)
  have hhi := hin.hi; have hpos := hin.pos
  have hfin : r.addr + r.len ≤ r.fin := Nat.add_le_add_left (le_pad r.len) _
  have hlt : ∀ q ∈ l₁, q.addr + 8 ≤ r.addr := hF.before.below
  obtain ⟨h', hcarve, hfront, hblock, hother⟩ := hF.before.carve_front_whole 32 36 (by omega) (by omega)
  have hkeep : ∀ w, r.addr < w → h'.mem w = h.mem w := fun w hw => by
    refine hother w (fun q hq => ?_) (by omega)
    have := hlt q hq
    omega
  have hrest : Chain h'.mem (h.next r.addr) (l₂.map Seg.addr) x := by
    refine (chain_after hF).frame fun a ha => ?_
    obtain ⟨q, hq, rfl⟩ := List.mem_map.mp ha
    have := (sorted_after hF).2 q hq
    exact hkeep _ (by omega)
  exact ⟨h', hcarve, hblock, Chain.append_iff.mpr ⟨_, hfront.chain, hrest⟩, fun w hw => hkeep w (by omega)⟩

/-- The list once the entry's block is taken off one of its segments. -/
theorem carve_before {l₁ l₂ : List Seg} {r : Seg} {top : Nat} (hF : Front h (l₁ ++ r :: l₂) x top) (hr : 36 ≤ r.len)
    (htop : top ≤ 2 ^ 32) :
    ∃ h' u, h.carve 32 36 (lastTwo (0, 0) l₁).2 r.addr (36 + 8 ≤ h.length r.addr) = (r.addr + 4, h') ∧
      h'.mem r.addr = 36 ∧ Chain h'.mem h'.freeSegmentsHead (l₁.map Seg.addr ++ u) x ∧ TakenFrom l₁ l₂ r u ∧
      ∀ w, top ≤ w → h'.mem w = h.mem w := by
  have hlen := hF.lens r (by simp)
  by_cases h44 : 44 ≤ r.len
  · obtain ⟨h', hcarve, hrest⟩ := carve_before_split hF h44 htop
    refine ⟨h', _, ?_, hrest⟩
    rw [decide_eq_true (by omega)]
    exact hcarve
  · obtain ⟨h', hcarve, hblock, hchain, hsame⟩ := carve_before_whole hF hr htop
    refine ⟨h', _, ?_, hblock, hchain, takenFrom_after hF hr, hsame⟩
    rw [decide_eq_false (by omega)]
    exact hcarve

/-- Freeing the entry and the FAT, where the entry's block lies before that of the FAT. -/
theorem frees_before {l u : List Nat} {a : Nat} (hc : Chain h.mem h.freeSegmentsHead (l ++ u) (s + 1028))
    (hsorted : (l ++ u).Pairwise (· < ·)) (hl : ∀ y ∈ l, y ≠ 0 ∧ y + 8 ≤ a) (hu : ∀ y ∈ u, a + 8 ≤ y ∧ y + 8 ≤ s) (ha : 0 < a)
    (has : a + 36 ≤ s) (hend : s + 2 ^ 18 ≤ 2 ^ 32) (hentry : h.mem a = 36) (hblock : h.mem s = 1028) :
    ∃ h', Res.Returns (fun fuel => memoryFree fuel h (a + 4) >>= fun h => memoryFree fuel h (s + 4)) h' := by
  obtain ⟨h', l', hfirst, hchain, hsorted', hin, hmem⟩ := Front.free_into hc hsorted
    (fun y hy => ⟨(hl y hy).1, by have := (hl y hy).2; omega⟩) (fun y hy => (hu y hy).1) ha (by omega) (by omega)
    (fun _ => by omega)
  have hblock' : h'.mem s = 1028 := by
    rw [hmem s (by omega) (by omega) (by omega) fun y hy => ?_, hblock]
    have := (hl y hy).2
    omega
  have hl' : ∀ y ∈ l', y ≠ 0 ∧ y < s := fun y hy => by
    rcases hin y hy with hy | rfl | hy
    · have := hl y hy
      exact ⟨this.1, by omega⟩
    · exact ⟨by omega, by omega⟩
    · have := hu y hy
      exact ⟨by omega, by omega⟩
  obtain ⟨h'', -, hsecond, -⟩ := Front.free_list (a := s) hchain hsorted' hl' (by omega) (by omega) (by omega)
  exact ⟨h'', hfirst.bind hsecond⟩

namespace FatRoom

variable (F : FatRoom S fs img sb h pre s) (K : KernelImage fs)

include F K

/-- The entry in a segment before the FAT. -/
theorem placed_before (hentry : ∃ r ∈ pre, 36 ≤ r.len) : ∃ m h₂, Placed S fs img sb h (s + 4) m h₂ fun _ => True := by
  have hbelow := F.below; have hhigh := F.high
  obtain ⟨h₁, hloads, hfront, -, hblock, -, -, hfirst, hsecond⟩ := F.load K
  -- The first that is long enough.
  obtain ⟨r, l₁, l₂, rfl, hr, hshort⟩ : ∃ r l₁ l₂, pre = l₁ ++ r :: l₂ ∧ 36 ≤ r.len ∧ ∀ q ∈ l₁, q.len < 36 := by
    obtain ⟨r, hr⟩ := Option.isSome_iff_exists.mp
      (List.find?_isSome (p := fun r : Seg => decide (36 ≤ r.len)).mpr (by simpa using hentry))
    obtain ⟨hlong, l₁, l₂, hpre, hl₁⟩ := List.find?_eq_some_iff_append.mp hr
    exact ⟨r, l₁, l₂, hpre, of_decide_eq_true hlong, fun q hq => by simpa using hl₁ q hq⟩
  have hin := hfront.within r (by simp)
  have hlo := hin.pos
  have hpad := le_pad r.len
  have hhi : r.addr + 36 ≤ s := by
    have := hin.hi
    simp only [Seg.fin] at this
    omega
  obtain ⟨h₂, u, hcarve, hblock₂, hchain, hu, hother⟩ := carve_before hfront hr (by omega)
  have halloc := hfront.before.allocate_fit S 32 (show pad 36 + 8 < 2 ^ 32 by decide) hshort hlo.ne'
    (by rw [hfront.lens r (by simp)]; exact hr)
  rw [show pad (32 + 4) = 36 from rfl, hcarve] at halloc
  have hbytes : ∀ k, h₂.bytes (s + 4 + k) = h₁.bytes (s + 4 + k) := fun k => bytes_congr (hother _ (by have := F.aligned; omega))
  have hbuf := F.buffer r (by simp)
  have hwithin : ∀ q ∈ l₁ ++ r :: l₂, q.fin ≤ s := fun q hq => (F.front.within q hq).hi
  have hlt₁ : ∀ q ∈ l₁, q.addr + 8 ≤ r.addr := hfront.before.below
  refine ⟨r.addr + 4, h₂, ⟨by omega, by omega, ?_, .inl (by omega), by omega⟩, ⟨h₁, hloads, halloc⟩,
    fun k hk => (hbytes k).trans (hfirst k hk), fun k hk hk' => (hbytes k).trans (hsecond k hk hk'), fun h' hk => ?_⟩
  · simp only [Seg.fin] at hbuf
    omega
  · have hl₁ : ∀ y ∈ l₁.map Seg.addr, y ≠ 0 ∧ y + 8 ≤ r.addr := fun y hy => by
      obtain ⟨q, hq, rfl⟩ := List.mem_map.mp hy
      exact ⟨hfront.addr_pos q (by simp [hq]), hlt₁ q hq⟩
    suffices hfree : ∃ h'',
        Res.Returns (fun fuel => memoryFree fuel h' (r.addr + 4) >>= fun h => memoryFree fuel h (s + 4)) h'' from
      hfree.imp fun h'' hr => ⟨hr, trivial⟩
    refine frees_before ?_ (hu.append_sorted hfront.before) hl₁ (fun y hy => ?_) hlo hhi hhigh ?_ ?_
    · rw [hk.head]
      refine hchain.frame fun y hy => (show OffBlocks sb (s + 4) (r.addr + 4) y from ?_).mem_eq hk
      obtain ⟨q, hq, hq', hq''⟩ : ∃ q ∈ l₁ ++ r :: l₂, q.addr ≤ y ∧ y + 8 ≤ q.fin := by
        rcases List.mem_append.mp hy with hy | hy
        · obtain ⟨q, hq, rfl⟩ := List.mem_map.mp hy
          exact ⟨q, by simp [hq], Nat.le_refl _, (F.front.within q (by simp [hq])).words⟩
        · exact hu.within y hy
      have hqs := hwithin q hq
      have hqb := F.buffer q hq
      refine ⟨by omega, by omega, ?_⟩
      rcases List.mem_append.mp hy with hy | hy
      · have := (hl₁ y hy).2
        omega
      · have := hu.behind y hy
        omega
    · obtain ⟨q, hq, -, hq'⟩ := hu.within y hy
      have := hu.behind y hy
      have := hwithin q hq
      exact ⟨by omega, by omega⟩
    · rw [OffBlocks.mem_eq ⟨by simp only [Seg.fin] at hbuf; omega, by omega, by omega⟩ hk, hblock₂]
    · rw [OffBlocks.mem_eq ⟨by omega, by omega, by omega⟩ hk, hother s (Nat.le_refl _), hblock]

/-- The entry in the segment behind the FAT, as the second sector leaves it. -/
theorem placed_stray (hpre : ∀ r ∈ pre, r.len < 36) (hL : 44 ≤ strayLength fs img) :
    ∃ m h₂, Placed S fs img sb h (s + 4) m h₂ fun _ => True := by
  have hlt := (stray_lt fs img).2
  obtain ⟨h₁, hloads, hfront, -, hblock, hnext, hlen, hfirst, hsecond⟩ := F.load K
  have halloc := hfront.allocate_fit S 32 (show pad 36 + 8 < 2 ^ 32 by decide) hpre (by omega)
    (by rw [hlen]; exact Nat.le_trans (by decide) hL)
  rw [hlen, decide_eq_true (show pad (32 + 4) + 8 ≤ strayLength fs img from hL)] at halloc
  obtain ⟨h₂, P⟩ := F.placed_behind ⟨h₁, hloads, halloc⟩ hfront hblock hnext hlen hL hlt hfirst hsecond
  exact ⟨_, h₂, { P with freed := fun h' hk => (P.freed h' hk).imp fun _ hr => ⟨hr.1, trivial⟩ }⟩

/-- The entry in the segment behind the FAT, grown by a page. -/
theorem placed_grown {supply : σ} (hpre : ∀ r ∈ pre, r.len < 36) (hL : strayLength fs img < 36) (hN : strayNext fs img = 0)
    (hpage : S.commit h.supply h.nextPageVirtAddr = .ok (true, supply)) :
    ∃ m h₂, Placed S fs img sb h (s + 4) m h₂ fun h' => pre = [] →
      h'.supply = supply ∧ h'.nextPageVirtAddr = (advancePage h).nextPageVirtAddr ∧
      Chain h'.mem h'.freeSegmentsHead [s] 0 ∧ h'.length s = 1028 + strayLength fs img + pageSize := by
  have hhigh := F.high; have halign := F.aligned
  obtain ⟨h₁, hloads, hfront, hsupply, hblock, hnext, hlen, hfirst, hsecond⟩ := F.load K
  have hpage' : S.commit h₁.supply h₁.nextPageVirtAddr = .ok (true, supply) := by
    rw [hsupply.supply, hsupply.nextPage]
    exact hpage
  have hps : pageSize = 4096 := rfl
  have halloc := hfront.allocate_grown S 32 (show pad 36 + 8 < 2 ^ 32 by decide) hpre (by omega) (hnext.trans hN)
    (by rw [hlen]; exact hL) (by rw [hlen, show pad (32 + 4) = 36 from rfl]; omega) (by omega) hpage'
  rw [hlen, decide_eq_true (show pad (32 + 4) + 8 ≤ strayLength fs img + pageSize from Nat.le_add_left_of_le (by decide))]
    at halloc
  generalize hg : (advancePage { h₁ with supply }).setLength (s + 1028) (strayLength fs img + pageSize) = g at halloc
  have hmem : ∀ w, w ≠ s + 1032 → g.mem w = h₁.mem w := fun w hw => by
    rw [← hg, setLength_mem hw]
    rfl
  have hglen : g.length (s + 1028) = strayLength fs img + pageSize := by rw [← hg, setLength_length]
  have hpre8 : ∀ r ∈ pre, r.addr + 8 ≤ s := hfront.below
  have hgfront : Front g pre (s + 1028) s := by
    refine hfront.congr ?_ fun r hr => ?_
    · rw [show g.freeSegmentsHead = h₁.freeSegmentsHead by
        rw [← hg, setLength, store, advancePage]]
      refine hfront.chain.frame fun a ha => ?_
      obtain ⟨r, hr, rfl⟩ := List.mem_map.mp ha
      have := hpre8 r hr
      exact hmem _ (by omega)
    · have := hpre8 r hr
      exact hmem _ (by omega)
  have hgbytes : ∀ k < 1024, g.bytes (s + 4 + k) = h₁.bytes (s + 4 + k) := fun k hk => bytes_congr (hmem _ (by omega))
  obtain ⟨h₂, P⟩ := F.placed_behind ⟨h₁, hloads, halloc⟩ hgfront ((hmem _ (by omega)).trans hblock)
    ((hmem _ (by omega)).trans (hnext.trans hN)) hglen (by omega) (by omega)
    (fun k hk => (hgbytes k (by omega)).trans (hfirst k hk)) (fun k hk hk' => (hgbytes k hk').trans (hsecond k hk hk'))
  refine ⟨_, h₂, { P with freed := fun h' hk => (P.freed h' hk).imp fun h'' hr => ⟨hr.1, fun hnil => ?_⟩ }⟩
  obtain ⟨hs, hchain, hlength⟩ := hr.2 hnil
  refine ⟨?_, ?_, hchain, ?_⟩
  · rw [hs.supply, ← hg]
    rfl
  · rw [hs.nextPage, ← hg]
    show (h₁.nextPageVirtAddr + pageSize) % 2 ^ 32 = (h.nextPageVirtAddr + pageSize) % 2 ^ 32
    rw [hsupply.nextPage]
  · rw [hlength]
    omega

/-- On such a heap a call has its blocks. -/
theorem placed : ∃ m h₂, Placed S fs img sb h (s + 4) m h₂ fun _ => True := by
  by_cases hbefore : ∃ r ∈ pre, 36 ≤ r.len
  · exact F.placed_before K hbefore
  · have hpre : ∀ r ∈ pre, r.len < 36 := fun r hr => Nat.lt_of_not_le fun hle => hbefore ⟨r, hr, hle⟩
    rcases F.entry.resolve_left hbefore with hL | ⟨hL, hN, supply, hpage⟩
    · exact F.placed_stray K hpre hL
    · obtain ⟨m, h₂, P⟩ := F.placed_grown K hpre hL hN hpage
      exact ⟨m, h₂, { P with freed := fun h' hk => (P.freed h' hk).imp fun _ hr => ⟨hr.1, trivial⟩ }⟩

end FatRoom

/-- Some heap has room, whatever is in the FAT: the entry is put before it. -/
theorem exists_fatFits [Nonempty σ] (S : PageSupply σ) (fs : FSMetadata) (img : Bytes) (hsb : sb + 2 ^ 19 ≤ 2 ^ 32) :
    ∃ h, FatFits S fs img sb h := by
  have hstart : heapStart = 0xC0800000 := rfl
  obtain ⟨a, ha, hlo, hsb', hhi⟩ : ∃ a, a % 4 = 0 ∧ heapStart ≤ a ∧ sb + 512 ≤ a ∧ a + 2 ^ 19 ≤ 2 ^ 32 + 515 :=
    ⟨max heapStart ((sb + 515) / 4 * 4), by omega, by omega, by omega, by omega⟩
  let mem : Nat → Nat := fun w => if w = a then a + 36 else if w = a + 4 then 36 else if w = a + 40 then 1540 else 0
  obtain ⟨supply⟩ := ‹Nonempty σ›
  have hlength : (⟨mem, a, 0, supply⟩ : Heap σ).length (a + 36) = 1540 := by
    simp only [length, mem]
    rw [if_neg (show a + 36 + 4 ≠ a by omega), if_neg (show a + 36 + 4 ≠ a + 4 by omega), if_pos trivial]
  refine ⟨⟨mem, a, 0, supply⟩, [⟨a, 36⟩], a + 36, ⟨⟨⟨rfl, ?_⟩, ?_, ?_, List.pairwise_singleton _ _⟩, ?_, by rw [hlength], ?_,
    by omega, by omega, by omega, ?_, .inl ⟨_, List.mem_singleton_self _, Nat.le_refl _⟩⟩⟩
  · simp [mem]
  · simp [mem, length]
  · simp only [List.mem_singleton, forall_eq]
    exact ⟨hlo, Nat.le_of_eq (congrArg (a + ·) (show pad 36 = 36 by decide)), ha, show 5 ≤ 36 by decide⟩
  · simp
  · rw [hlength]
    omega
  · simp only [List.mem_singleton, forall_eq]
    exact .inr hsb'

/-! ## The kernel's first heap -/

/-- One free segment, the last of the list. -/
structure OneSegment (h : Heap σ) (s n : Nat) : Prop where
  chain : Chain h.mem h.freeSegmentsHead [s] 0
  length : h.length s = n

/-- Such a heap has room when the segment does, and the header stored behind the FAT can be used or the segment grown. -/
theorem OneSegment.fatRoom {n : Nat} (hone : OneSegment h s n) (hroom : 1540 ≤ n) (hfits : s + n ≤ 2 ^ 32) (haligned : s % 4 = 0)
    (hbelow : sb + 512 ≤ s) (hhigh : s + 2 ^ 18 ≤ 2 ^ 32) (hentry : 44 ≤ strayLength fs img ∨
      strayLength fs img < 36 ∧ strayNext fs img = 0 ∧ ∃ supply, S.commit h.supply h.nextPageVirtAddr = .ok (true, supply)) :
    FatRoom S fs img sb h [] s where
  front := ⟨hone.chain.1, by simp, by simp, List.Pairwise.nil⟩
  short := by simp
  room := by rwa [hone.length]
  fits := by rwa [hone.length]
  aligned := haligned
  below := hbelow
  high := hhigh
  buffer := by simp
  entry := .inr hentry

/-- The heap that `tfs_init` leaves, after `memory_init`. -/
theorem tfsInit_oneSegment (S : PageSupply σ) (mem : Nat → Nat) {supply supply' : σ}
    (hpage : S.commit supply heapStart = .ok (true, supply')) (img : Bytes) : ∃ h,
      Res.Returns (fun fuel => tfsInit S fuel (memoryInit mem supply) img) (fsMeta img, heapStart + 4, h) ∧
      OneSegment h (heapStart + 516) 3580 ∧ h.supply = supply' ∧ h.nextPageVirtAddr = heapStart + pageSize := by
  have hps : pageSize = 4096 := rfl
  have hstart : heapStart = 0xC0800000 := rfl
  -- The first page, and a block off it.
  have hcommit := commitFirstPage_empty (S := S) (h := memoryInit mem supply) rfl hpage
  rw [if_pos rfl] at hcommit
  generalize hh : firstPageHeap { memoryInit mem supply with supply := supply' } = h₁ at hcommit
  have hhead : h₁.freeSegmentsHead = heapStart := by
    rw [← hh]
    rfl
  have hlen : h₁.length heapStart = pageSize := by
    rw [← hh]
    exact firstPageHeap_length _
  have hnext : h₁.next heapStart = 0 := by
    rw [← hh]
    exact firstPageHeap_next _
  have hfront : Front h₁ [] heapStart heapStart := ⟨hhead, by simp, by simp, List.Pairwise.nil⟩
  obtain ⟨h', hcarve, hfront', hsupply, -, hnext', hlen', -⟩ := hfront.carve_front 512 516 (by decide)
    (by decide) (by rw [hlen]; decide) (by rw [hlen]; decide)
  have halloc := hfront.allocate_fit S 512 (by decide) (by simp) (by decide) (by rw [hlen]; decide)
  rw [show pad (512 + 4) = 516 from rfl, hlen, decide_eq_true (by decide), hcarve] at halloc
  refine ⟨h'.copyTo (heapStart + 4) 512 (diskSector img 0), ?_, ⟨?_, ?_⟩, ?_, ?_⟩
  · have hread : fsMeta ((h'.copyTo (heapStart + 4) 512 (diskSector img 0)).bytesFrom (heapStart + 4)) = fsMeta img :=
      fsMeta_congr fun k hk => by
        rw [bytesFrom_eq (by omega), bytes_copyTo, copy_in (by omega) (by omega), Nat.add_sub_cancel_left, diskSector,
          Nat.mul_zero, Nat.zero_add]
    simp only [tfsInit, Front.allocate_commit hcommit (by rw [hhead]; decide)]
    refine halloc.bind ?_
    simp only [readSector_eq (show 0 ≤ 0xfffffff by decide), Res.ok_bind, hread]
    exact Res.Returns.ok _
  · refine ⟨hfront'.chain, ?_⟩
    rw [copyTo_mem_out (.inr (by omega))]
    exact hnext'.trans hnext
  · rw [length, copyTo_mem_out (.inr (by omega))]
    exact hlen'.trans (by rw [hlen, hps])
  · rw [copyTo_supply, hsupply.supply, ← hh, firstPageHeap, advancePage]
    rfl
  · rw [copyTo_nextPage, hsupply.nextPage, ← hh, firstPageHeap, advancePage_nextPage]
    exact Nat.mod_eq_of_lt (show heapStart + pageSize < 2 ^ 32 by decide)

/-- On an image whose second FAT sector begins with free entries, that heap has room, when another page can be committed. -/
theorem fatFits_everyPage (h256 : strayNext fs img = 0) (h258 : strayLength fs img = 0) :
    ∃ h, FatFits everyPage fs img (heapStart + 4) h := by
  have hps : pageSize = 4096 := rfl
  have hstart : heapStart = 0xC0800000 := rfl
  obtain ⟨h, -, hone, -, hpage⟩ := tfsInit_oneSegment everyPage (fun _ => 0)
    (show everyPage.commit () heapStart = .ok (true, ()) from rfl) img
  refine ⟨h, [], _, hone.fatRoom (by decide) (by decide) (by decide) (by omega) (by omega) (.inr ⟨by omega, h256, (), ?_⟩)⟩
  rw [hpage]
  rfl

end OSForReal.Proof.Tfs
