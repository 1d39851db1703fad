import OSForReal.Proof.Tfs.Memory

/-!
# `tfs_read` on the sectors of a file

`tfs_read` does not look at the size of the file before the first sector, and
its loop compares the bytes read with the size of the file, not with what is
left of it after `offset`. Besides, an entry of the second FAT sector is what
the heap held. So it stays on the chain of a file, from every heap with room for
its blocks, exactly when all entries are read in the first FAT sector and the skipping ends with the
chain, or the window ends before it (`tfsRead_confined`). On a file without data
it never does (`tfsRead_confined_fails`).
-/

namespace OSForReal.Proof.Tfs

open Framework
open Framework.Bytes
open OSForReal.TagFS
open OSForReal.Proof.TagFS
open OSForReal.Proof.Heap

variable {σ : Type} {S : PageSupply σ} {fs : FSMetadata} {img view buf : Bytes} {name : CStr} {next next' : Nat → Nat}
  {data : Nat → Bytes} {chain l : List Nat} {g i k sb size fileLength offset sectorSize : Nat}

/-! ## Walks along a chain -/

/-- Skipping fewer sectors than a chain has stays on it and arrives at its entry `k`. -/
theorem skipTraced_chain {b : Nat} (h : Chain next g l b) (hk : k < l.length) (hend : 0xffff ∉ l) :
    ∃ x, (skipTraced next k g).val = some x ∧ (skipTraced next k g).All (OnChain l) ∧ Chain next x (l.drop k) b ∧
      l.drop k = x :: l.drop (k + 1) := by
  induction k generalizing g l with
  | zero =>
    obtain ⟨x, l, rfl⟩ := List.exists_cons_of_length_pos hk
    obtain rfl := h.1
    exact ⟨g, rfl, Traced.all_pure, h, rfl⟩
  | succ k ih =>
    obtain ⟨x, l, rfl⟩ := List.exists_cons_of_length_pos (Nat.zero_lt_of_lt hk)
    obtain ⟨rfl, htail⟩ := h
    have hk : k < l.length := by simpa using hk
    have hend : 0xffff ∉ l := fun hm => hend (List.mem_cons_of_mem _ hm)
    obtain ⟨y, hval, hall, hchain, hdrop⟩ := ih htail hk hend
    have hne : next g ≠ 0xffff := fun h0 => by
      have hhead := htail.head_eq
      obtain ⟨z, l, rfl⟩ := List.exists_cons_of_length_pos (Nat.zero_lt_of_lt hk)
      rw [h0] at hhead
      exact hend (hhead ▸ List.mem_cons_self)
    refine ⟨y, ?_, ?_, hchain, hdrop⟩
    · rw [skipTraced_succ_val, if_neg hne, hval]
    · exact skipTraced_succ_all.mpr ⟨List.mem_cons_self, fun _ => hall.mono fun _ => OnChain.cons⟩

/-- Skipping all of a chain fails. -/
theorem skipTraced_none (h : Chain next g l 0xffff) (hl : l ≠ []) (hk : l.length ≤ k) : (skipTraced next k g).val = none := by
  induction k generalizing g l with
  | zero => exact absurd (List.eq_nil_of_length_eq_zero (Nat.le_zero.mp hk)) hl
  | succ k ih =>
    obtain ⟨x, l, rfl⟩ := List.exists_cons_of_ne_nil hl
    obtain ⟨rfl, htail⟩ := h
    rw [skipTraced_succ_val]
    split
    · rfl
    · rename_i hne
      apply ih htail
      · rintro rfl
        exact hne htail
      · exact Nat.le_of_succ_le_succ hk

/-! ## Walks that leave it -/

/-- Every entry on the chain that is not followed as the chain is leads elsewhere. -/
def Strays (next' next : Nat → Nat) (chain : List Nat) : Prop :=
  ∀ i ∈ chain, next' i = next i ∨ next' i ∉ chain ∧ next' i ≠ 0xffff

/-- The skipping stays on the chain, and so does the sector that it arrives at. -/
def SkipsWithin (chain : List Nat) (r : Traced Access (Option Nat)) : Prop :=
  r.All (OnChain chain) ∧ ∀ x, r.val = some x → x ∈ chain

theorem SkipsWithin.start (h : SkipsWithin chain (skipTraced next k g)) : g ∈ chain := by
  cases k with
  | zero => exact h.2 g rfl
  | succ k => exact (skipTraced_succ_all.mp h.1).1

theorem SkipsWithin.step (h : SkipsWithin chain (skipTraced next (k + 1) g)) (hne : next g ≠ 0xffff) :
    SkipsWithin chain (skipTraced next k (next g)) := by
  refine ⟨(skipTraced_succ_all.mp h.1).2 hne, fun x hx => h.2 x ?_⟩
  rw [skipTraced_succ_val, if_neg hne, hx]

/-- Skipping that stays on the chain follows it. -/
theorem SkipsWithin.follows (h : SkipsWithin chain (skipTraced next' k g)) (hstray : Strays next' next chain)
    (hend : 0xffff ∉ chain) (hl : Chain next g l 0xffff) (hsub : ∀ x ∈ l, x ∈ chain) :
    l ≠ [] ∧ ∀ j < k, j < l.length → next' (l.getD j 0) = next (l.getD j 0) := by
  have hne : l ≠ [] := by
    rintro rfl
    exact hend (hl ▸ h.start)
  refine ⟨hne, ?_⟩
  induction k generalizing g l with
  | zero => exact fun j hj => absurd hj (Nat.not_lt_zero j)
  | succ k ih =>
    obtain ⟨x, l, rfl⟩ := List.exists_cons_of_ne_nil hne
    obtain ⟨rfl, htail⟩ := hl
    have heq : next' g = next g := (hstray g h.start).resolve_right fun hout => hout.1 (h.step hout.2).start
    intro j hj hjl
    cases j with
    | zero => exact heq
    | succ j =>
      have hjl : j < l.length := Nat.lt_of_succ_lt_succ hjl
      have hsub : ∀ x ∈ l, x ∈ chain := fun x hx => hsub x (List.mem_cons_of_mem _ hx)
      obtain ⟨y, l, rfl⟩ := List.exists_cons_of_length_pos (Nat.zero_lt_of_lt hjl)
      have hmore : next' g ≠ 0xffff := fun h0 => by
        rw [← heq, h0] at htail
        exact hend (htail.1 ▸ hsub y List.mem_cons_self)
      have hrest := h.step hmore
      rw [heq] at hrest
      exact ih hrest htail hsub (List.cons_ne_nil _ _) j (Nat.lt_of_succ_lt_succ hj) hjl

/-- A loop that stays on the chain follows it, and ends before it. -/
theorem restTraced_follows (hs : 0 < sectorSize) (hstray : Strays next' next chain) (hend : 0xffff ∉ chain) (fuel : Nat)
    (buf : Bytes) (bufIndex : Nat) (hl : Chain next g (g :: l) 0xffff) (hsub : ∀ x ∈ l, x ∈ chain)
    (hfuel : size ≤ bufIndex + fuel)
    (h : (restTraced next' data sectorSize size fileLength fuel buf bufIndex g).All (OnChain chain)) (j : Nat)
    (hj : bufIndex + sectorSize * j < min size fileLength) :
    j < l.length ∧ next' ((g :: l).getD j 0) = next ((g :: l).getD j 0) := by
  induction fuel generalizing g l buf bufIndex j with
  | zero => omega
  | succ fuel ih =>
    obtain ⟨hg, hx, hrest⟩ := (restTraced_pass_all (by omega) (by omega) fuel).mp h
    have heq : next' g = next g := (hstray g hg).resolve_right fun hout => hout.1 hx
    have hne : l ≠ [] := by
      rintro rfl
      exact hend (hl.2 ▸ heq ▸ hx)
    obtain ⟨x, l, rfl⟩ := List.exists_cons_of_ne_nil hne
    obtain ⟨-, rfl, htail⟩ := hl
    cases j with
    | zero => exact ⟨Nat.zero_lt_succ _, heq⟩
    | succ j =>
      rw [Nat.mul_succ] at hj
      rw [heq, Nat.min_eq_right (by omega)] at hrest
      obtain ⟨hlt, hnext⟩ := ih _ _ ⟨rfl, htail⟩ (fun y hy => hsub y (List.mem_cons_of_mem _ hy)) (by omega) hrest j (by omega)
      exact ⟨Nat.succ_lt_succ hlt, hnext⟩

/-! ## The call -/

/-- The accesses of a call for a file. -/
theorem viewReadTraced_found (K : KernelImage fs) (hname : OnlyNamed fs img name i) (view buf : Bytes) :
    ∃ buf' data : Nat → Bytes, ∀ P : Access → Prop, (viewReadTraced fs img view name buf size offset).All P ↔
      (skipTraced (fatsAt (viewFats fs img view)) (offset / 512) (firstDataSector img (fileMetaAt fs i))).All P ∧
      ∀ x, (skipTraced (fatsAt (viewFats fs img view)) (offset / 512) (firstDataSector img (fileMetaAt fs i))).val = some x →
        P (.dataSector x) ∧ (512 - offset % 512 < size →
          (restTraced (fatsAt (viewFats fs img view)) data 512 size (fileSize img (fileMetaAt fs i)) size (buf' x)
            (512 - offset % 512) x).All P) := by
  refine ⟨fun x => copy buf 0 (512 - offset % 512) fun k =>
    (readData (fun i => diskSector img (tfsSectorLba fs i)) x).val (offset % 512 + k),
    fun i => diskSector img (tfsSectorLba fs i), fun P => ?_⟩
  simp only [viewReadTraced, metadata_found K hname, K.metaAt, K.sectorSize_eq, viewReadSectors]
  rw [Traced.all_bind]
  apply and_congr_right
  intro _
  cases (skipTraced (fatsAt (viewFats fs img view)) (offset / 512) (firstDataSector img (fileMetaAt fs i))).val with
  | none => exact ⟨fun _ x hx => (by cases hx), fun _ => Traced.all_pure⟩
  | some x =>
    simp only [Traced.all_bind, Option.some.injEq, forall_eq', readData, Traced.all_record]
    apply and_congr_right
    intro _
    split
    · rename_i hone
      exact ⟨fun _ hmany => absurd hone (Nat.not_le_of_lt hmany), fun _ => Traced.all_pure⟩
    · rename_i hmany
      rw [Traced.all_bind]
      exact ⟨fun h _ => h.1, fun h => ⟨h (Nat.lt_of_not_le hmany), Traced.all_pure⟩⟩

/-- An entry of the FAT on the chain, or a data sector on it. -/
def Confined (l : List Nat) : Access → Prop
  | .fatEntry i => i ∈ l ∧ i ≠ 0xffff ∧ i < 512
  | .dataSector i => i ∈ l

/-- From every heap with room for its blocks, `tfs_read` returns, and accesses only what is on the chain. -/
def StaysOnFile (S : PageSupply σ) (sb : Nat) (fs : FSMetadata) (img : Bytes) (name : CStr) (l : List Nat)
    (size offset : Nat) : Prop :=
  ∀ (h : Heap σ) (buffer : Bytes), FatFits S fs img sb h →
    (∃ r, Res.Returns (fun fuel => tfsRead S fs sb fuel h img name buffer size offset) r) ∧
      ∀ fuel, (tfsReadTraced S fs sb fuel h img name buffer size offset).All (Confined l)

/-- The sector with the last byte of the window, a window that is cut to the length of the file. -/
def lastSector (fileLength size offset : Nat) : Nat := (offset + (min size fileLength - 1)) / 512

/-- The skipping ends with the chain, or the window before it, by entries of the first FAT sector. -/
def EndsOnChain (l : List Nat) (fileLength size offset : Nat) : Prop :=
  l ≠ [] ∧ l.length ≤ offset / 512 ∧ (∀ j < l.length, l.getD j 0 < 256) ∨
    lastSector fileLength size offset < l.length ∧ ∀ j < lastSector fileLength size offset, l.getD j 0 < 256

theorem confined_of_onChain {m : List Nat} (K : KernelImage fs) (hchain : FatChain fs img g l) (hm : ∀ x ∈ m, x ∈ l)
    {a : Access} (h : OnChain m a) : Confined l a := by
  cases a with
  | fatEntry x =>
    have hlt := hchain.2 x (hm x h)
    rw [K.fatCount_eq] at hlt
    exact ⟨hm x h, by omega, hlt⟩
  | dataSector x => exact hm x h

theorem onChain_of_confined {a : Access} (h : Confined l a) : OnChain l a := by
  cases a with
  | fatEntry x => exact h.1
  | dataSector x => exact h

theorem not_mem_chain (K : KernelImage fs) (hchain : FatChain fs img g l) : 0xffff ∉ l := fun hm => by
  have hlt := hchain.2 _ hm
  rw [K.fatCount_eq] at hlt
  omega

/-- Entries that are read as they are on the disk. -/
theorem fatsAt_take (K : KernelImage fs) {n : Nat} (hn : n ≤ l.length) (hlow : ∀ j < n, l.getD j 0 < 256) :
    ∀ x ∈ l.take n, fatsAt (viewFats fs img view) x = fat fs img x := fun x hx => by
  obtain ⟨j, hj, rfl⟩ := mem_take_of_getD hn hx
  exact fatsAt_low K (hlow j hj)

/-- The windows for which the call stays on the chain. -/
theorem confined_of_endsOnChain (K : KernelImage fs) (hname : OnlyNamed fs img name i)
    (hchain : FatChain fs img (firstDataSector img (fileMetaAt fs i)) l)
    (h : EndsOnChain l (fileSize img (fileMetaAt fs i)) size offset) (view buf : Bytes) :
    (viewReadTraced fs img view name buf size offset).All (Confined l) := by
  obtain ⟨buf', data, hall⟩ := @viewReadTraced_found fs img name i size offset K hname view buf
  refine (hall _).mpr ?_
  rcases h with ⟨hne, hpast, hlow⟩ | ⟨hlast, hlow⟩
  · have hfats := @fatsAt_take fs img view l K _ (Nat.le_refl _) hlow
    rw [List.take_length] at hfats
    have hchain' := hchain.1.frame hfats
    refine ⟨(skipTraced_all hchain' hne _).mono fun _ => confined_of_onChain K hchain fun _ => id, fun x hx => ?_⟩
    rw [skipTraced_none hchain' hne hpast] at hx
    cases hx
  · -- The chain up to the last sector, under what is read of the FAT.
    have hoffset : 512 * (offset / 512) + offset % 512 = offset := Nat.div_add_mod _ _
    have hchain' := hchain.1.take_succ (d := 0) hlast (@fatsAt_take fs img view l K _ (Nat.le_of_lt hlast) hlow)
    have hsub : ∀ x ∈ l.take (lastSector (fileSize img (fileMetaAt fs i)) size offset + 1), x ∈ l :=
      fun x hx => List.mem_of_mem_take hx
    have hlen : (l.take (lastSector (fileSize img (fileMetaAt fs i)) size offset + 1)).length =
        lastSector (fileSize img (fileMetaAt fs i)) size offset + 1 := List.length_take_of_le hlast
    have hq : offset / 512 ≤ lastSector (fileSize img (fileMetaAt fs i)) size offset :=
      Nat.div_le_div_right (Nat.le_add_right _ _)
    obtain ⟨x, hval, hskip, hrest, hdrop⟩ := skipTraced_chain hchain' (k := offset / 512) (by omega)
      fun hm => not_mem_chain K hchain (hsub _ hm)
    have hdropsub : ∀ y ∈ x :: (l.take (lastSector (fileSize img (fileMetaAt fs i)) size offset + 1)).drop (offset / 512 + 1),
        y ∈ l := fun y hy => hsub y (List.mem_of_mem_drop (hdrop ▸ hy))
    refine ⟨hskip.mono fun _ => confined_of_onChain K hchain hsub, fun y hy => ?_⟩
    obtain rfl : x = y := Option.some.inj (hval.symm.trans hy)
    refine ⟨hdropsub x List.mem_cons_self, fun _ => ?_⟩
    rw [hdrop] at hrest
    refine Traced.All.mono (restTraced_all hrest _ _ _ ?_) fun _ => confined_of_onChain K hchain hdropsub
    rw [List.length_drop, hlen]
    unfold lastSector
    omega

/-- Memory whose entries lead out of the FAT. -/
def outOfRange : Bytes := fun _ => 0xfe

theorem fatsAt_outOfRange (hview : Shows view outOfRange) (hi : 256 ≤ i) (hi' : i < 512) :
    fatsAt (viewFats fs img view) i = 0xfefe := by
  rw [fatsAt_shows hview hi hi']
  show (0xfe : UInt8).toNat + 2 ^ 8 * (0xfe : UInt8).toNat = 0xfefe
  decide

theorem strays_outOfRange (K : KernelImage fs) (hview : Shows view outOfRange) (hchain : FatChain fs img g l) :
    Strays (fatsAt (viewFats fs img view)) (fat fs img) l := by
  intro x hx
  have hlt := hchain.2 x hx
  rw [K.fatCount_eq] at hlt
  rcases Nat.lt_or_ge x 256 with hlow | hhigh
  · exact .inl (fatsAt_low K hlow)
  · rw [fatsAt_outOfRange hview hhigh hlt]
    refine .inr ⟨fun hm => ?_, by decide⟩
    have := hchain.2 _ hm
    rw [K.fatCount_eq] at this
    omega

/-- With such memory, an entry that is followed as on the disk is in the first FAT sector. -/
theorem low_of_followed (K : KernelImage fs) (hview : Shows view outOfRange) (hchain : FatChain fs img g l) (hk : k < l.length)
    (h : fatsAt (viewFats fs img view) (l.getD k 0) = fat fs img (l.getD k 0)) : l.getD k 0 < 256 := by
  by_contra hhigh
  rw [fatsAt_outOfRange hview (Nat.le_of_not_lt hhigh) (getD_lt K hchain hk)] at h
  rcases hchain.next K.layout hk with ⟨hlt, hnext⟩ | ⟨-, hend⟩
  · have := getD_lt K hchain hlt
    omega
  · rw [hend] at h
    exact absurd h (by decide)

/-- With such memory, the call stays on the chain only for such windows. -/
theorem endsOnChain_of_confined (K : KernelImage fs) (hname : OnlyNamed fs img name i)
    (hchain : FatChain fs img (firstDataSector img (fileMetaAt fs i)) l) (hview : Shows view outOfRange)
    (h : (viewReadTraced fs img view name buf size offset).All (Confined l)) :
    EndsOnChain l (fileSize img (fileMetaAt fs i)) size offset := by
  have hoffset : 512 * (offset / 512) + offset % 512 = offset := Nat.div_add_mod _ _
  have hmark := not_mem_chain K hchain
  have hstray := strays_outOfRange K hview hchain
  obtain ⟨buf', data, hiff⟩ := @viewReadTraced_found fs img name i size offset K hname view buf
  obtain ⟨hskip, hrest⟩ := (hiff _).mp (h.mono fun _ => onChain_of_confined)
  obtain ⟨hne, hfollows⟩ := SkipsWithin.follows ⟨hskip, fun x hx => (hrest x hx).1⟩ hstray hmark hchain.1 fun _ => id
  have hlow : ∀ j < offset / 512, j < l.length → l.getD j 0 < 256 := fun j hj hjl =>
    low_of_followed K hview hchain hjl (hfollows j hj hjl)
  rcases Nat.lt_or_ge (offset / 512) l.length with hq | hpast
  · right
    obtain ⟨x, -, hx, hdrop⟩ := skipSectors_spec K.layout hchain hq
    have hval : (skipTraced (fatsAt (viewFats fs img view)) (offset / 512)
        (firstDataSector img (fileMetaAt fs i))).val = some x := by
      rw [skipTraced_fats, skipFats_low K hchain hq fun j hj => hlow j hj (by omega), getD_of_drop hq hdrop]
    rw [hdrop] at hx
    -- Each pass of the loop follows an entry that is read, and is not the last one.
    have hpass (k : Nat) (hk : 512 - offset % 512 + 512 * k < min size (fileSize img (fileMetaAt fs i))) :
        offset / 512 + k + 1 < l.length ∧ l.getD (offset / 512 + k) 0 < 256 := by
      obtain ⟨hlt, hnext⟩ := restTraced_follows (by decide) hstray hmark size _ _ hx.1
        (fun y hy => List.mem_of_mem_drop hy) (by omega) ((hrest x hval).2 (by omega)) k hk
      rw [List.length_drop] at hlt
      rw [← hdrop, List.getD_eq_getElem?_getD, List.getElem?_drop, ← List.getD_eq_getElem?_getD] at hnext
      exact ⟨by omega, low_of_followed K hview hchain (by omega) hnext⟩
    unfold lastSector
    refine ⟨?_, fun j hj => ?_⟩
    · rcases Nat.eq_or_lt_of_le (Nat.div_le_div_right (c := 512) (Nat.le_add_right offset
        (min size (fileSize img (fileMetaAt fs i)) - 1))) with heq | hlt
      · rwa [← heq]
      · obtain ⟨hlast, -⟩ := hpass ((offset + (min size (fileSize img (fileMetaAt fs i)) - 1)) / 512 - offset / 512 - 1)
          (by omega)
        omega
    · rcases Nat.lt_or_ge j (offset / 512) with hbefore | hafter
      · exact hlow j hbefore (by omega)
      · obtain ⟨-, hlast⟩ := hpass (j - offset / 512) (by omega)
        rwa [Nat.add_sub_of_le hafter] at hlast
  · exact .inl ⟨hne, hpast, fun j hj => hlow j (by omega) hj⟩

end OSForReal.Proof.Tfs
