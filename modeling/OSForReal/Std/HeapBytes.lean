import OSForReal.Framework.ByteCopy
import OSForReal.Std.Memory

/-!
# The bytes of the heap's memory

`memory.c` works on the words of the memory; the blocks that it hands out are
arrays of bytes. `bytes` is the memory byte by byte, `bytesFrom p` what a pointer
`p` points at, and `copyTo` a `memory_copy` to the memory: it changes the bytes
that are copied (`bytes_copyTo`) and no word without one of them
(`copyTo_mem_out`). `copyWithin` is one from the memory itself, byte by byte,
which comes to the same where the two places lie apart (`copyWithin_eq`). `OnlyIn R` says that a heap differs from another one in
bytes of the region `R` only.
-/

namespace OSForReal.Heap

open Framework
open Framework.Bytes

variable {σ : Type} {h : Heap σ} {a n w x : Nat} {src : Nat → UInt8}

/-- The bytes of the memory. -/
def bytes (h : Heap σ) : Bytes := fun x => byte (h.mem (x / 4 * 4)) (x % 4)

/-- The bytes from the address `p` on. -/
def bytesFrom (h : Heap σ) (p : Nat) : Bytes := fun k => h.bytes ((p + k) % 2 ^ 32)

/-- Copies `n` bytes to the address `a`. -/
def copyTo (h : Heap σ) (a n : Nat) (src : Nat → UInt8) : Heap σ :=
  { h with mem := fun w => if w + 4 ≤ a ∨ a + n ≤ w then h.mem w else u32 (copy h.bytes a n src) w }

/-- `memory_copy`, from the memory. -/
def copyWithin (h : Heap σ) (dst src n : Nat) : Heap σ := h.copyTo dst n fun k => forward h.bytes dst src n (dst + k)

@[simp] theorem copyTo_head : (h.copyTo a n src).freeSegmentsHead = h.freeSegmentsHead := rfl
@[simp] theorem copyTo_nextPage : (h.copyTo a n src).nextPageVirtAddr = h.nextPageVirtAddr := rfl
@[simp] theorem copyTo_supply : (h.copyTo a n src).supply = h.supply := rfl

/-- A word none of whose bytes is copied. -/
theorem copyTo_mem_out (hw : w + 4 ≤ a ∨ a + n ≤ w) : (h.copyTo a n src).mem w = h.mem w := if_pos hw

/-- The bytes of a word are its bytes in memory. -/
theorem byte_u32 {m : Bytes} {k : Nat} (hk : k < 4) : byte (u32 m w) k = m (w + k) := by
  have h0 := (m w).toNat_lt; have h1 := (m (w + 1)).toNat_lt
  have h2 := (m (w + 2)).toNat_lt; have h3 := (m (w + 2 + 1)).toNat_lt
  refine UInt8.toNat_inj.mp ?_
  rw [byte_toNat, u32, u16, u16]
  obtain rfl | rfl | rfl | rfl : k = 0 ∨ k = 1 ∨ k = 2 ∨ k = 3 := by omega
  · simp only [Nat.add_zero, Nat.mul_zero, Nat.pow_zero, Nat.div_one]
    omega
  · omega
  · omega
  · rw [show w + 3 = w + 2 + 1 by omega]
    omega

@[simp] theorem bytes_copyTo : (h.copyTo a n src).bytes = copy h.bytes a n src := by
  funext x
  show byte (if x / 4 * 4 + 4 ≤ a ∨ a + n ≤ x / 4 * 4 then h.mem (x / 4 * 4)
    else u32 (copy h.bytes a n src) (x / 4 * 4)) (x % 4) = _
  split
  · exact (copy_out (m := h.bytes) (by omega)).symm
  · rw [byte_u32 (Nat.mod_lt _ (by decide)), Nat.div_add_mod']

theorem copyTo_congr {src' : Nat → UInt8} (hsrc : ∀ k < n, src k = src' k) : h.copyTo a n src = h.copyTo a n src' := by
  unfold copyTo
  rw [copy_congr_src hsrc]

/-- Between places that lie apart the bytes copied are those that were there before. -/
theorem copyWithin_eq {dst s : Nat} (hap : dst + n ≤ s ∨ s + n ≤ dst) :
    h.copyWithin dst s n = h.copyTo dst n fun k => h.bytes (s + k) := by
  refine copyTo_congr fun k hk => ?_
  rw [forward_eq_copy (by omega), copy_in (by omega) (by omega), Nat.add_sub_cancel_left]

/-- A word all of whose bytes are copied. -/
theorem copyTo_mem_in (hw : a ≤ w) (hw' : w + 4 ≤ a + n) :
    (h.copyTo a n src).mem w = u32 (fun k => src k) (w - a) := by
  have hin : ∀ k < 4, copy h.bytes a n src (w + k) = src (w - a + k) := fun k hk => by
    rw [copy_in (by omega) (by omega), Nat.sub_add_comm hw]
  refine (if_neg (by omega)).trans ?_
  have h0 := hin 0 (by decide)
  rw [Nat.add_zero, Nat.add_zero] at h0
  rw [u32, u16, u16, h0, hin 1 (by decide), hin 2 (by decide), Nat.add_assoc w 2 1, hin 3 (by decide), u32, u16, u16,
    Nat.add_assoc (w - a) 2 1]

/-- A byte of a word that is the same. -/
theorem bytes_congr {h' : Heap σ} (hw : h'.mem (x / 4 * 4) = h.mem (x / 4 * 4)) : h'.bytes x = h.bytes x := by
  unfold bytes
  rw [hw]

/-- Below 2³² the bytes that a pointer points at are those from its address on. -/
theorem bytesFrom_eq {p k : Nat} (hk : p + k < 2 ^ 32) : h.bytesFrom p k = h.bytes (p + k) := by
  rw [bytesFrom, Nat.mod_eq_of_lt hk]

/-! ## Regions -/

/-- The `n` bytes at `a`. -/
def InBuffer (a n x : Nat) : Prop := a ≤ x ∧ x < a + n

/-- Only bytes of the region `R` differ. -/
structure OnlyIn (R : Nat → Prop) (h h' : Heap σ) : Prop where
  head : h'.freeSegmentsHead = h.freeSegmentsHead
  nextPage : h'.nextPageVirtAddr = h.nextPageVirtAddr
  supply : h'.supply = h.supply
  mem : ∀ w, (∀ k < 4, ¬ R (w + k)) → h'.mem w = h.mem w
  bytes : ∀ x, ¬ R x → h'.bytes x = h.bytes x

namespace OnlyIn

variable {R R' : Nat → Prop} {h' h'' : Heap σ}

theorem refl (R : Nat → Prop) (h : Heap σ) : OnlyIn R h h := ⟨rfl, rfl, rfl, fun _ _ => rfl, fun _ _ => rfl⟩

theorem trans (h₁ : OnlyIn R h h') (h₂ : OnlyIn R h' h'') : OnlyIn R h h'' :=
  ⟨h₂.head.trans h₁.head, h₂.nextPage.trans h₁.nextPage, h₂.supply.trans h₁.supply,
    fun w hw => (h₂.mem w hw).trans (h₁.mem w hw), fun x hx => (h₂.bytes x hx).trans (h₁.bytes x hx)⟩

theorem mono (h₁ : OnlyIn R h h') (hR : ∀ x, R x → R' x) : OnlyIn R' h h' :=
  ⟨h₁.head, h₁.nextPage, h₁.supply, fun w hw => h₁.mem w fun k hk hr => hw k hk (hR _ hr),
    fun x hx => h₁.bytes x fun hr => hx (hR x hr)⟩

/-- A copy to the region. -/
theorem copyTo (ha : R a) (hR : ∀ x, a ≤ x → x < a + n → R x) : OnlyIn R h (h.copyTo a n src) := by
  refine ⟨rfl, rfl, rfl, fun w hw => copyTo_mem_out ?_, fun x hx => ?_⟩
  · by_contra hin
    rcases Nat.lt_or_ge a w with hlt | hge
    · exact hw 0 (by decide) (hR _ (by omega) (by omega))
    · refine hw (a - w) (by omega) ?_
      rwa [Nat.add_sub_of_le hge]
  · rw [bytes_copyTo]
    refine copy_out ?_
    by_contra hin
    exact hx (hR x (by omega) (by omega))

end OnlyIn

end OSForReal.Heap
