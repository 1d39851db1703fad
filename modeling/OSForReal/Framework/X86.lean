import Mathlib.Data.BitVec
import Mathlib.Data.List.Nodup
import Mathlib.Tactic.Ring

/-!
# Stack code of the 32-bit x86

The instructions that move words between registers and the stack (`Instr`), on a memory
of bytes under addresses that wrap. `State.stack s n` is the `n` words on top of
the stack; a push puts one in front (`stack_push`), and `stack_pushRegs` and
`map_popRegs` say the same of the pushes and pops of several registers.
A run of code (`run`) goes on to the next call, and ends at the entry of its callee, or to
an `iret`.

An interrupt (`Interrupted.deliver`) pushes what `iret` pops (`resume_eq`), and
for some vectors an error code that `iret` does not pop.
-/

namespace Framework.X86

abbrev Word := BitVec 32

abbrev Memory := Word → BitVec 8

/-! ## Memory -/

def loadHalf (m : Memory) (a : Word) : BitVec 16 := m (a + 1) ++ m a

/-- The word at `a`, the lowest byte first. -/
def load (m : Memory) (a : Word) : Word := loadHalf m (a + 2) ++ loadHalf m a

def store (m : Memory) (a v : Word) : Memory :=
  fun x => if (x - a).toNat < 4 then v.extractLsb' (8 * (x - a).toNat) 8 else m x

/-- The `n` words from `a` on. -/
def words (m : Memory) : Word → Nat → List Word
  | _, 0 => []
  | a, n + 1 => load m a :: words m (a + 4) n

section

variable {m : Memory} {a b v : Word} {n : Nat}

theorem store_inside (m : Memory) (a v : Word) {k : Word} (hk : k.toNat < 4) :
    store m a v (a + k) = v.extractLsb' (8 * k.toNat) 8 := by
  have hdist : a + k - a = k := by ring
  rw [store, hdist, if_pos hk]

theorem store_outside {x : Word} (h : 4 ≤ (x - a).toNat) : store m a v x = m x := if_neg (Nat.not_lt.mpr h)

theorem load_store_self (m : Memory) (a v : Word) : load (store m a v) a = v := by
  have h0 : store m a v a = v.extractLsb' 0 8 := by simpa using store_inside m a v (k := 0) (by decide)
  have h3 : a + 2 + 1 = a + 3 := by ring
  have hhigh : v.extractLsb' 24 8 ++ v.extractLsb' 16 8 = v.extractLsb' 16 16 :=
    BitVec.extractLsb'_append_extractLsb'_eq_extractLsb' rfl
  have hlow : v.extractLsb' 8 8 ++ v.extractLsb' 0 8 = v.extractLsb' 0 16 :=
    BitVec.extractLsb'_append_extractLsb'_eq_extractLsb' rfl
  calc load (store m a v) a
    _ = (v.extractLsb' 24 8 ++ v.extractLsb' 16 8) ++ (v.extractLsb' 8 8 ++ v.extractLsb' 0 8) := by
      rw [load, loadHalf, loadHalf, h3, store_inside m a v (by decide), store_inside m a v (by decide),
        store_inside m a v (by decide), h0]
      rfl
    _ = v := by
      rw [hhigh, hlow]
      exact BitVec.extractLsb'_append_extractLsb'

/-- A word that does not overlap with the stored one is kept. -/
theorem load_store_of_le (hlow : 4 ≤ (b - a).toNat) (hhigh : (b - a).toNat + 4 ≤ 2 ^ 32) :
    load (store m a v) b = load m b := by
  have hbyte : ∀ k : Word, k.toNat < 4 → store m a v (b + k) = m (b + k) := by
    intro k hk
    refine store_outside ?_
    bv_omega
  have h0 : store m a v b = m b := store_outside hlow
  have h3 : b + 2 + 1 = b + 3 := by ring
  simp only [load, loadHalf, h3, hbyte 3 (by decide), hbyte 2 (by decide), hbyte 1 (by decide), h0]

@[simp] theorem length_words (m : Memory) (a : Word) (n : Nat) : (words m a n).length = n := by
  induction n generalizing a with
  | zero => rfl
  | succ n ih => rw [words, List.length_cons, ih]

/-- The address behind one word more. -/
theorem ofNat_four_mul_succ (n : Nat) : BitVec.ofNat 32 (4 * (n + 1)) = 4 + BitVec.ofNat 32 (4 * n) := by
  rw [Nat.mul_succ, Nat.add_comm, BitVec.ofNat_add]
  rfl

theorem words_append (m : Memory) (a : Word) (k n : Nat) :
    words m a (k + n) = words m a k ++ words m (a + BitVec.ofNat 32 (4 * k)) n := by
  induction k generalizing a with
  | zero => simp [words]
  | succ k ih =>
    rw [Nat.add_right_comm, words, ih, add_assoc, ← ofNat_four_mul_succ]
    rfl

theorem words_store (hlow : 4 ≤ (b - a).toNat) (hhigh : (b - a).toNat + 4 * n ≤ 2 ^ 32) :
    words (store m a v) b n = words m b n := by
  induction n generalizing b with
  | zero => rfl
  | succ n ih =>
    rw [words, words, load_store_of_le hlow (by omega)]
    cases n with
    | zero => rfl
    | succ n =>
      -- One word more is read, so that the next address does not reach `a` again.
      have hnext : (b + 4 - a).toNat = (b - a).toNat + 4 := by bv_omega
      rw [ih (by omega) (by omega)]

end

/-! ## Registers and the stack -/

inductive Reg where
  | eax | ecx | edx | ebx | esp | ebp | esi | edi
deriving DecidableEq, Repr

structure State where
  regs : Reg → Word
  mem : Memory

namespace State

def setReg (s : State) (r : Reg) (v : Word) : State := { s with regs := Function.update s.regs r v }

def push (s : State) (v : Word) : State :=
  ⟨Function.update s.regs .esp (s.regs .esp - 4), store s.mem (s.regs .esp - 4) v⟩

def pop (s : State) (r : Reg) : State :=
  { s with regs := Function.update (Function.update s.regs .esp (s.regs .esp + 4)) r (load s.mem (s.regs .esp)) }

/-- The `n` words on top of the stack. -/
def stack (s : State) (n : Nat) : List Word := words s.mem (s.regs .esp) n

/-- The registers are pushed one after the other. -/
def pushRegs (s : State) (rs : List Reg) : State := rs.foldl (fun s r => s.push (s.regs r)) s

/-- The registers are popped one after the other. -/
def popRegs (s : State) (rs : List Reg) : State := rs.foldl pop s

variable {s : State} {v : Word} {r : Reg} {rs : List Reg} {n : Nat}

@[simp] theorem push_esp : (s.push v).regs .esp = s.regs .esp - 4 := by
  simp [push]

theorem push_regs (hr : r ≠ .esp) : (s.push v).regs r = s.regs r := by
  simp [push, hr]

@[simp] theorem setReg_esp : (s.setReg .esp v).regs .esp = v := by
  simp [setReg]

theorem setReg_regs (hr : r ≠ .esp) : (s.setReg .esp v).regs r = s.regs r := by
  simp [setReg, hr]

@[simp] theorem setReg_mem : (s.setReg r v).mem = s.mem := rfl

theorem take_stack (s : State) (k n : Nat) : (s.stack (k + n)).take k = s.stack k := by
  rw [stack, words_append, List.take_left' (length_words ..)]
  rfl

theorem stack_push (hn : 4 * (n + 1) ≤ 2 ^ 32) : (s.push v).stack (n + 1) = v :: s.stack n := by
  have hself : s.regs .esp - 4 + 4 = s.regs .esp := by ring
  have hdist : (s.regs .esp - (s.regs .esp - 4)).toNat = 4 := by
    have heq : s.regs .esp - (s.regs .esp - 4) = 4 := by ring
    rw [heq]
    rfl
  rw [stack, push_esp, words, hself]
  show load (store s.mem (s.regs .esp - 4) v) (s.regs .esp - 4) :: words (store s.mem (s.regs .esp - 4) v) _ _ = _
  rw [load_store_self, words_store (by omega) (by omega)]
  rfl

theorem pushRegs_esp : (s.pushRegs rs).regs .esp = s.regs .esp - BitVec.ofNat 32 (4 * rs.length) := by
  induction rs generalizing s with
  | nil => simp [pushRegs]
  | cons r rs ih =>
    rw [List.length_cons, ofNat_four_mul_succ, ← sub_sub, ← push_esp (v := s.regs r)]
    exact ih

theorem stack_pushRegs (hesp : .esp ∉ rs) (hn : 4 * (rs.length + n) ≤ 2 ^ 32) :
    (s.pushRegs rs).stack (rs.length + n) = (rs.map s.regs).reverse ++ s.stack n := by
  induction rs generalizing s n with
  | nil => simp [pushRegs]
  | cons r rs ih =>
    have hrest : .esp ∉ rs := fun h => hesp (List.mem_cons_of_mem _ h)
    have hregs : rs.map (s.push (s.regs r)).regs = rs.map s.regs :=
      List.map_congr_left fun r' hr' => push_regs fun heq => hrest (heq ▸ hr')
    rw [List.length_cons] at hn ⊢
    have hlater := ih (s := s.push (s.regs r)) (n := n + 1) hrest (by omega)
    rw [hregs, stack_push (by omega)] at hlater
    rw [Nat.add_right_comm, Nat.add_assoc, List.map_cons, List.reverse_cons, List.append_assoc]
    exact hlater

theorem popRegs_mem : (s.popRegs rs).mem = s.mem := by
  induction rs generalizing s with
  | nil => rfl
  | cons r rs ih => exact ih

theorem pop_esp (hr : r ≠ .esp) : (s.pop r).regs .esp = s.regs .esp + 4 := by
  simp [pop, Ne.symm hr]

theorem pop_regs (hr : r ≠ .esp) {r' : Reg} (hne : r ≠ r') : (s.pop r').regs r = s.regs r := by
  simp [pop, hr, hne]

/-- A register that is not popped, other than `esp`, is kept. -/
theorem popRegs_regs (hr : r ≠ .esp) (hmem : r ∉ rs) : (s.popRegs rs).regs r = s.regs r := by
  induction rs generalizing s with
  | nil => rfl
  | cons r' rs ih =>
    obtain ⟨hne, hrest⟩ := not_or.mp (List.mem_cons.not.mp hmem)
    exact (ih hrest).trans (pop_regs hr hne)

theorem popRegs_esp (hesp : .esp ∉ rs) : (s.popRegs rs).regs .esp = s.regs .esp + BitVec.ofNat 32 (4 * rs.length) := by
  induction rs generalizing s with
  | nil => simp [popRegs]
  | cons r rs ih =>
    have hr : r ≠ .esp := fun heq => hesp (heq ▸ List.mem_cons_self)
    rw [List.length_cons, ofNat_four_mul_succ, ← add_assoc, ← pop_esp hr]
    exact ih fun h => hesp (List.mem_cons_of_mem _ h)

/-- The registers get the words on top of the stack. -/
theorem map_popRegs (hesp : .esp ∉ rs) (hnodup : rs.Nodup) : rs.map (s.popRegs rs).regs = s.stack rs.length := by
  induction rs generalizing s with
  | nil => rfl
  | cons r rs ih =>
    obtain ⟨hfresh, hrest⟩ := List.nodup_cons.mp hnodup
    have hr : r ≠ .esp := fun heq => hesp (heq ▸ List.mem_cons_self)
    have htop : ((s.pop r).popRegs rs).regs r = load s.mem (s.regs .esp) := by
      rw [popRegs_regs hr hfresh]
      simp [pop]
    have hlater := ih (s := s.pop r) (fun h => hesp (List.mem_cons_of_mem _ h)) hrest
    rw [stack, pop_esp hr] at hlater
    show ((s.pop r).popRegs rs).regs r :: rs.map ((s.pop r).popRegs rs).regs = _
    rw [htop, hlater]
    rfl

end State

/-! ## Code -/

/-- An instruction, of code that calls the functions `F`. The flags are not modelled, which only `add` sets. -/
inductive Instr (F : Type) where
  | push (r : Reg)
  | pushImm (v : Word)
  | pop (r : Reg)
  | add (v : Word) (r : Reg)
  | call (f : F)
  | iret
deriving Repr

/-- Where a run stops: at the entry of a function, before an `iret`, or behind the code. -/
inductive Stop (F : Type) where
  | call (f : F) (rest : List (Instr F))
  | iret
  | done

section

variable {F : Type} (next : List (Instr F) → Word)

/-- Runs code, where `next` is the address of what is left of it. -/
def run : List (Instr F) → State → Stop F × State
  | [], s => (.done, s)
  | .push r :: c, s => run c (s.push (s.regs r))
  | .pushImm v :: c, s => run c (s.push v)
  | .pop r :: c, s => run c (s.pop r)
  | .add v r :: c, s => run c (s.setReg r (s.regs r + v))
  | .call f :: c, s => (.call f c, s.push (next c))
  | .iret :: _, s => (.iret, s)

theorem run_pushes (rs : List Reg) (c : List (Instr F)) (s : State) :
    run next (rs.map .push ++ c) s = run next c (s.pushRegs rs) := by
  induction rs generalizing s with
  | nil => rfl
  | cons r rs ih => exact ih (s.push (s.regs r))

theorem run_pops (rs : List Reg) (c : List (Instr F)) (s : State) :
    run next (rs.map .pop ++ c) s = run next c (s.popRegs rs) := by
  induction rs generalizing s with
  | nil => rfl
  | cons r rs ih => exact ih (s.pop r)

end

/-! ## Interrupts -/

/-- The vectors for which the CPU pushes an error code. -/
def errorCodeVectors : List Nat := [8, 10, 11, 12, 13, 14, 17, 21, 29, 30]

/-- What is interrupted. A selector is the lower half of the word that is pushed for it, and what the upper
half holds is not defined. -/
structure Interrupted where
  state : State
  eip : Word
  cs : Word
  eflags : Word
  ss : Word
  /-- The stack to change to, if the privilege changes. -/
  kernelStack : Option Word

/-- What `iret` returns to, with `ss` if it changes the privilege. -/
structure Context where
  regs : Reg → Word
  eip : Word
  cs : Word
  eflags : Word
  ss : Option Word

namespace Interrupted

/-- The stack is changed, with `ss` and `esp` on the new one, if the privilege changes. -/
def base (i : Interrupted) : State :=
  match i.kernelStack with
  | none => i.state
  | some esp0 => ((i.state.setReg .esp esp0).push i.ss).push (i.state.regs .esp)

/-- The state once `eip` is pushed. -/
def saved (i : Interrupted) : State := ((i.base.push i.eflags).push i.cs).push i.eip

/-- The state at the first instruction of the code for the vector. -/
def deliver (i : Interrupted) (vector : Nat) (code : Word) : State :=
  if vector ∈ errorCodeVectors then i.saved.push code else i.saved

def context (i : Interrupted) : Context := ⟨i.state.regs, i.eip, i.cs, i.eflags, i.kernelStack.map fun _ => i.ss⟩

end Interrupted

/-- `iret` -/
def State.resume (s : State) (change : Bool) : Context :=
  let esp := s.regs .esp
  { regs := Function.update s.regs .esp (if change then load s.mem (esp + 12) else esp + 12)
    eip := load s.mem esp
    cs := load s.mem (esp + 4)
    eflags := load s.mem (esp + 8)
    ss := if change then some (load s.mem (esp + 16)) else none }

variable {i : Interrupted} {s : State} {r : Reg} {n : Nat}

theorem Interrupted.base_regs (hr : r ≠ .esp) : i.base.regs r = i.state.regs r := by
  rw [base]
  split
  · rfl
  · rw [State.push_regs hr, State.push_regs hr, State.setReg_regs hr]

theorem Interrupted.saved_regs (hr : r ≠ .esp) : i.saved.regs r = i.state.regs r := by
  rw [saved, State.push_regs hr, State.push_regs hr, State.push_regs hr, base_regs hr]

theorem Interrupted.deliver_regs {vector : Nat} {code : Word} (hr : r ≠ .esp) :
    (i.deliver vector code).regs r = i.state.regs r := by
  rw [deliver]
  split
  · rw [State.push_regs hr, saved_regs hr]
  · exact saved_regs hr

theorem Interrupted.stack_saved (hn : 4 * (n + 3) ≤ 2 ^ 32) :
    i.saved.stack (n + 3) = i.eip :: i.cs :: i.eflags :: i.base.stack n := by
  rw [saved, State.stack_push (by omega), State.stack_push (by omega), State.stack_push (by omega)]

theorem Interrupted.saved_esp : i.saved.regs .esp = i.base.regs .esp - 12 := by
  rw [saved, State.push_esp, State.push_esp, State.push_esp]
  ring

/-- An error code is between the stack that `iret` pops and the code for the vector. -/
theorem Interrupted.deliver_esp_eq_iff {vector : Nat} {code : Word} :
    (i.deliver vector code).regs .esp = i.saved.regs .esp ↔ vector ∉ errorCodeVectors := by
  rw [deliver]
  split
  case isTrue h =>
    rw [State.push_esp]
    exact iff_of_false (by bv_omega) fun hnot => hnot h
  case isFalse h => exact iff_of_true rfl h

theorem Interrupted.base_none (h : i.kernelStack = none) : i.base = i.state := by
  rw [base, h]

theorem Interrupted.stack_base {esp0 : Word} (h : i.kernelStack = some esp0) :
    i.base.stack 2 = [i.state.regs .esp, i.ss] := by
  rw [base, h]
  exact (State.stack_push (by decide)).trans (congrArg _ (State.stack_push (by decide)))

/-- The words on top of the stack, by their addresses. -/
theorem State.stack_five (s : State) : s.stack 5 = [load s.mem (s.regs .esp), load s.mem (s.regs .esp + 4),
    load s.mem (s.regs .esp + 8), load s.mem (s.regs .esp + 12), load s.mem (s.regs .esp + 16)] := by
  simp only [stack, words, add_assoc]
  rfl

/-- `iret` returns to what was interrupted if the words that were pushed are on top of the stack, and the other
registers have their values. -/
theorem resume_eq (hesp : s.regs .esp = i.saved.regs .esp) (hregs : ∀ r ≠ .esp, s.regs r = i.state.regs r)
    (hstack : s.stack 5 = i.saved.stack 5) : s.resume i.kernelStack.isSome = i.context := by
  have hother : ∀ v, Function.update s.regs .esp v = Function.update i.state.regs .esp v := by
    intro v
    funext r
    by_cases hr : r = .esp
    · rw [hr, Function.update_self, Function.update_self]
    · rw [Function.update_of_ne hr, Function.update_of_ne hr, hregs r hr]
  rw [Interrupted.stack_saved (by decide), State.stack_five] at hstack
  simp only [List.cons.injEq] at hstack
  obtain ⟨heip, hcs, heflags, hrest⟩ := hstack
  simp only [State.resume, Interrupted.context, hother, heip, hcs, heflags]
  cases hkernel : i.kernelStack with
  | none =>
    have hback : s.regs .esp + 12 = i.state.regs .esp := by
      rw [hesp, Interrupted.saved_esp, Interrupted.base_none hkernel]
      ring
    show Context.mk (Function.update i.state.regs .esp (s.regs .esp + 12)) i.eip i.cs i.eflags none = _
    rw [hback, Function.update_eq_self]
    rfl
  | some esp0 =>
    rw [Interrupted.stack_base hkernel] at hrest
    simp only [List.cons.injEq] at hrest
    show Context.mk (Function.update i.state.regs .esp (load s.mem (s.regs .esp + 12))) i.eip i.cs i.eflags
      (some (load s.mem (s.regs .esp + 16))) = _
    rw [hrest.1, hrest.2.1, Function.update_eq_self]
    rfl

end Framework.X86
