import OSForReal.Framework.Pic
import OSForReal.Framework.Refinement
import OSForReal.Proof.Arch.Descriptors
import OSForReal.Proof.Arch.Interrupts

/-!
# From an interrupt to its handler and back

The machine is memory, the registers of the descriptor tables and the interrupt
controllers (`Machine`). An interrupt goes through the gate of its vector to a
stub, to `c_interrupt_dispatch`, to the handler that is registered, and back to
what was interrupted (`Serviced`). What the tables say stays true as long as the
handlers and the rest of the kernel leave their bytes alone, so from
`interrupts_init` on, in any order of interrupts and of calls of
`interrupts_register_handler`, the handler that gets an interrupt is the last
one registered for its vector (`machine_refines_handlers`).
-/

namespace OSForReal.Proof.Interrupts

open Framework Framework.X86
open OSForReal.Interrupts

/-! ## The machine -/

/-- The code that is interrupted: its registers, and what the CPU saves of it. -/
structure Point where
  regs : Reg → Word
  eip : Word
  cs : Word
  eflags : Word

/-- The privilege level. -/
def Point.cpl (p : Point) : BitVec 2 := p.cs.extractLsb' 0 2

/-- The interrupt, if the handler stays at the privilege level. -/
def Point.interrupted (p : Point) (m : Memory) : Interrupted where
  state := ⟨p.regs, m⟩
  eip := p.eip
  cs := p.cs
  eflags := p.eflags
  ss := 0
  kernelStack := none

structure Machine where
  mem : Memory
  gdtr : TableRegister
  idtr : TableRegister
  pics : Pics

/-- The arguments of `interrupts_register_handler`. -/
structure Registration where
  vector : Nat
  handler : Word

/-- What happens: the kernel runs, or registers a handler, or there is an interrupt, by `int` or from a line of the
master controller, whose handler registers others. -/
inductive MachineCall where
  | work
  | registerHandler (r : Registration)
  | int (vector : Nat) (p : Point) (rs : List Registration)
  | irq (line : Fin 8) (p : Point) (rs : List Registration)

/-- What an interrupt led to: the handler, the state it runs in, the general registers in its frame, and what goes on
after it. -/
structure Handled where
  handler : Word
  cpl : BitVec 2
  masked : Bool
  registers : List Word
  context : Context

/-- The calls of a handler, on memory. -/
def registerAll (L : Layout) (rs : List Registration) (m : Memory) : Memory :=
  rs.foldl (fun m r => interruptsRegisterHandler L (BitVec.ofNat 32 r.vector) r.handler m) m

section

variable (L : Layout) (code : Word → Option Code) (next : Code → Word)

/-- An interrupt, through the code at the address where the CPU goes. The handler returns, and leaves the frame as it
is, and of the tables all but what it registers. -/
def Serviced (s : Machine) (vector : Nat) (software : Bool) (p : Point) (rs : List Registration) (r : Handled)
    (m' : Memory) : Prop :=
  ∃ e c rest st st' t, enter s.gdtr s.idtr s.mem vector p.cpl software = some e ∧ e.wide = true ∧ e.cpl = p.cpl ∧
    code e.address = some c ∧
    run next c ((p.interrupted s.mem).deliver vector 0) = (.call .cInterruptDispatch rest, st) ∧
    Returns st st' ∧ (∀ x, InTables L x → st'.mem x = registerAll L rs st.mem x) ∧
    run next rest st' = (.iret, t) ∧ m' = t.mem ∧
    r = {
      handler := (cInterruptDispatch L st).1
      cpl := e.cpl
      masked := e.masked
      registers := (frameWords (frameAt st.mem (cInterruptDispatch L st).2)).take 7
      context := t.resume false }

/-- The machine. The rest of the kernel leaves the tables alone. -/
def machine : Object Machine MachineCall (Option Handled) where
  call s c r s' := match c with
    | .work => r = none ∧ ∃ m, (∀ x, InTables L x → m x = s.mem x) ∧ s' = { s with mem := m }
    | .registerHandler x =>
      r = none ∧ s' = { s with mem := interruptsRegisterHandler L (BitVec.ofNat 32 x.vector) x.handler s.mem }
    | .int vector p rs => ∃ handled m, r = some handled ∧ Serviced L code next s vector true p rs handled m ∧
      s' = { s with mem := m }
    | .irq line p rs => match s.pics.master.acknowledge line with
      | none => r = none ∧ s' = s
      | some (vector, master) => ∃ handled m, r = some handled ∧
        Serviced L code next s vector.toNat false p rs handled m ∧
        s' = { s with mem := m, pics := { s.pics with master } }

/-! ## What it is for -/

/-- What an interrupt is to lead to, with the handlers `t`. -/
def handled (t : Nat → Word) (vector : Nat) (p : Point) : Handled where
  handler := t vector
  cpl := p.cpl
  masked := true
  registers := savedRegs.reverse.map p.regs
  context := ⟨p.regs, p.eip, p.cs, p.eflags, none⟩

/-- The handlers after calls of `interrupts_register_handler`. -/
def registered (t : Nat → Word) (rs : List Registration) : Nat → Word :=
  rs.foldl (fun t r => Function.update t r.vector r.handler) t

/-- The handlers of the vectors: what a call leads to, and leaves. -/
def handlers (t : Nat → Word) : MachineCall → Option Handled × (Nat → Word)
  | .work => (none, t)
  | .registerHandler r => (none, registered t [r])
  | .int vector p rs => (some (handled t vector p), registered t rs)
  | .irq line p rs => (some (handled t (32 + line) p), registered t rs)

/-- Drivers may register the vector. -/
def Registration.Ok (r : Registration) : Prop := 32 ≤ r.vector ∧ r.vector < 256

/-- The stack where an interrupt pushes its 13 words, with the three above that are in the frame, is not in the tables. -/
def StackOk (p : Point) : Prop := ∀ x, InArray (p.regs .esp - 52) 16 x → ¬ InTables L x

/-- The kernel is interrupted, at its privilege level. -/
def Point.Ok (p : Point) : Prop := p.cpl = 0 ∧ StackOk L p

/-- The contract. The exceptions are not returned from, and line 2 is that of the slave. -/
def MachineOk (_ : Nat → Word) : MachineCall → Prop
  | .work => True
  | .registerHandler r => r.Ok
  | .int vector p rs => 32 ≤ vector ∧ vector < 256 ∧ p.Ok L ∧ ∀ r ∈ rs, r.Ok
  | .irq line p rs => line ≠ 2 ∧ p.Ok L ∧ ∀ r ∈ rs, r.Ok

end

variable {L : Layout} {code : Word → Option Code} {next : Code → Word} {s : Machine} {t : Nat → Word} {m m' : Memory}
  {p : Point} {rs : List Registration} {vector : Nat} {software : Bool}

/-! ## The tables -/

theorem Tables.registerAll (h : Tables L t m) (P : Placed L) (hrs : ∀ r ∈ rs, r.Ok) :
    Tables L (registered t rs) (registerAll L rs m) := by
  induction rs generalizing t m with
  | nil => exact h
  | cons r rs ih =>
    obtain ⟨hlow, hhigh⟩ := hrs r List.mem_cons_self
    exact ih (h.register P hlow hhigh r.handler) fun r' hr' => hrs r' (List.mem_cons_of_mem _ hr')

/-- A registered handler is stored in the tables. -/
theorem registerAll_outside {x : Word} (hrs : ∀ r ∈ rs, r.Ok) (hx : ¬ InTables L x) : registerAll L rs m x = m x := by
  induction rs generalizing m with
  | nil => rfl
  | cons r rs ih =>
    obtain ⟨hlow, hhigh⟩ := hrs r List.mem_cons_self
    show registerAll L rs (interruptsRegisterHandler L (BitVec.ofNat 32 r.vector) r.handler m) x = m x
    rw [ih fun r' hr' => hrs r' (List.mem_cons_of_mem _ hr'), interruptsRegisterHandler, registeredHandler_eq hlow hhigh]
    exact store_outside_array (n := 224) (by decide) (by omega) fun hin => hx (.inr (.inr hin))

/-- Where the CPU goes for a vector. -/
theorem enter_eq (h : Tables L t m) (hv : vector < 256) (cpl : BitVec 2) :
    enter { size := 39, offset := L.gdt } { size := 2047, offset := L.idt } m vector cpl software =
      some { address := L.stubAddress vector, cpl := cpl, masked := true, wide := true } := by
  have hindex : ((kernelGate (L.stubAddress vector)).selector.extractLsb' 3 13).toNat = 1 := by
    show ((8 : BitVec 16).extractLsb' 3 13).toNat = 1
    decide
  have hgdt : (kernelGate (L.stubAddress vector)).selector.getLsbD 2 = false := by
    show (8 : BitVec 16).getLsbD 2 = false
    decide
  have hcode : kernelCode.isCode = true := by decide
  have hlast : (L.stubAddress vector).toNat ≤ kernelCode.lastByte := Nat.le_of_lt_succ (L.stubAddress vector).isLt
  have hdpl : cpl ≤ (3 : BitVec 2) := Nat.le_of_lt_succ cpl.isLt
  have hzero : (0 : BitVec 2) ≤ cpl := Nat.zero_le _
  have hsize : 8 * vector + 7 ≤ (2047 : BitVec 16).toNat := by
    show 8 * vector + 7 ≤ 2047
    omega
  unfold enter
  dsimp only
  rw [h.gates vector hv, hindex, h.code,
    if_pos ⟨hsize, .inl rfl, fun _ => hdpl, rfl, hgdt, by decide, by decide, hcode, hzero, rfl, hlast⟩]
  show some (Entry.mk (0 + L.stubAddress vector) cpl true true) = _
  rw [zero_add]

/-! ## The stack -/

/-- What an interrupt and its stub push. -/
theorem grows_entered (p : Point) (m : Memory) (v ret : Word) :
    Grows ⟨p.regs, m⟩ (entered (p.interrupted m).saved v ret) 13 := by
  have hpushRegs : ∀ (rs : List Reg) (s : State), Grows s (s.pushRegs rs) rs.length := by
    intro rs
    induction rs with
    | nil => exact fun s => ⟨by simp [State.pushRegs], fun x _ => rfl⟩
    | cons r rs ih =>
      intro s
      rw [List.length_cons, Nat.add_comm]
      exact (Grows.push s (s.regs r)).trans (ih (s.push (s.regs r)))
  have hsaved : Grows ⟨p.regs, m⟩ (p.interrupted m).saved 3 := ((Grows.push _ _).trans (Grows.push _ _)).trans (Grows.push _ _)
  exact hsaved.trans ((((hpushRegs savedRegs _).trans (Grows.push _ _)).trans (Grows.push _ _)).trans (Grows.push _ _))

/-- The words of a frame determine it. -/
theorem frameWords_inj {f g : InterruptFrame} (h : frameWords f = frameWords g) : f = g := by
  have happend : ∀ {a a' b b' : BitVec 16}, a ++ b = a' ++ b' → a = a' ∧ b = b' := by
    intro a a' b b' hab
    refine ⟨?_, ?_⟩
    · rw [← BitVec.extractLsb'_append_eq_left (a := a) (b := b), hab, BitVec.extractLsb'_append_eq_left]
    · rw [← BitVec.extractLsb'_append_eq_right (a := a) (b := b), hab, BitVec.extractLsb'_append_eq_right]
  cases f
  cases g
  simp only [frameWords, List.cons.injEq] at h
  obtain ⟨hedi, hesi, hebp, hebx, hedx, hecx, heax, herror, heip, hcs, heflags, hesp, hss, -⟩ := h
  obtain ⟨herrorHigh, herror⟩ := happend herror
  obtain ⟨hcsHigh, hcs⟩ := happend hcs
  obtain ⟨hssHigh, hss⟩ := happend hss
  rw [hedi, hesi, hebp, hebx, hedx, hecx, heax, herrorHigh, herror, heip, hcsHigh, hcs, heflags, hesp, hssHigh, hss]

/-- A frame stays as long as its bytes do. -/
theorem frameAt_congr {q : Word} (h : ∀ x, InArray q 13 x → m' x = m x) : frameAt m' q = frameAt m q := by
  refine frameWords_inj ?_
  rw [← words_frame, ← words_frame]
  exact words_congr (by decide) h

/-! ## One interrupt -/

/-- What is left of the stub when the handler returns. -/
def restores : Code := .add 8 .esp :: (savedRegs.reverse.map .pop ++ [.iret])

theorem stub_eq (hv : 32 ≤ vector) : stub vector = body .cInterruptDispatch vector [.iret] := by
  have hcode : vector ∉ vectorsWithErrCode := fun h => absurd (lt_of_mem h) (Nat.not_lt.mpr hv)
  rw [stub, if_neg hcode, if_neg (Nat.not_lt.mpr hv), intStart_eq]

theorem deliver_eq (hv : 32 ≤ vector) : (p.interrupted m).deliver vector 0 = (p.interrupted m).saved :=
  if_neg fun h => absurd (lt_of_errorCode h) (Nat.not_lt.mpr hv)

/-- The stub calls `c_interrupt_dispatch`. -/
theorem run_stub_eq (hv : 32 ≤ vector) : run next (stub vector) ((p.interrupted m).deliver vector 0) =
    (.call .cInterruptDispatch restores, entered (p.interrupted m).saved (BitVec.ofNat 32 vector) (next restores)) := by
  rw [stub_eq hv, deliver_eq hv, run_body]
  rfl

/-- Memory outside of the pushed words, when `c_interrupt_dispatch` is entered. -/
theorem tables_entered (h : Tables L t m) (hstack : StackOk L p) (v ret : Word) :
    Tables L t (entered (p.interrupted m).saved v ret).mem := by
  refine h.congr fun x hx => (grows_entered p m v ret).mem x fun hin => ?_
  refine hstack x ?_ hx
  exact Nat.lt_trans hin (by decide)

/-- `c_interrupt_dispatch` calls the handler of the vector, with a frame of the general registers. -/
theorem dispatch_eq (h : Tables L t m) (hstack : StackOk L p) (hv : 32 ≤ vector) (hv' : vector < 256) (ret : Word) :
    let st := entered (p.interrupted m).saved (BitVec.ofNat 32 vector) ret
    (cInterruptDispatch L st).1 = t vector ∧
      (frameWords (frameAt st.mem (cInterruptDispatch L st).2)).take 7 = savedRegs.reverse.map p.regs := by
  intro st
  obtain ⟨hvector, hframe, hwords⟩ := entered_frame (p.interrupted m).saved (BitVec.ofNat 32 vector) ret
  refine ⟨?_, ?_⟩
  · show load st.mem (registeredHandler L (vectorArgument st)) = t vector
    rw [hvector, registeredHandler_eq hv hv']
    exact (tables_entered h hstack _ _).handlers vector hv hv'
  · show (frameWords (frameAt st.mem (frameArgument st))).take 7 = _
    rw [hframe, ← words_frame, hwords, List.take_left' (by rfl)]
    refine List.map_congr_left fun r hr => ?_
    have hesp : r ≠ .esp := fun heq => absurd (heq ▸ hr) (by decide)
    exact Interrupted.saved_regs hesp

variable (next) in
/-- After the handler, the stub returns to what was interrupted, and leaves memory as the handler left it. -/
theorem restores_eq {v ret : Word} {s' : State} (hreturns : Returns (entered (p.interrupted m).saved v ret) s') :
    ∃ u, run next restores s' = (.iret, u) ∧ u.mem = s'.mem ∧ u.resume false = ⟨p.regs, p.eip, p.cs, p.eflags, none⟩ := by
  obtain ⟨u, hrun, hesp, hregs, hstack⟩ := @run_unfilled next _ _ _ _ hreturns
  refine ⟨u, hrun, ?_, ?_⟩
  · have hmem := @run_mem _ next restores s' (by simp [restores, savedRegs])
    rw [show run next restores s' = (.iret, u) from hrun] at hmem
    exact hmem
  · exact resume_eq (i := p.interrupted m) hesp (fun r hr => (hregs r hr).trans (Interrupted.saved_regs hr)) hstack

/-! ## Runs -/

/-- The master controller after `pic_init`: its lines have the vectors from 32 on, none is masked, and none is in
service, now and after an interrupt. -/
def started : Pic where
  expects := .mask
  base := 0x20
  mask := 0
  autoEoi := true
  service := 0

/-- `pic_init` starts the master controller, whatever it did before. -/
theorem picInit_master (p : Pics) : (picInit Pics.out8 p).master = started := rfl

theorem acknowledge_started (line : Fin 8) : started.acknowledge line = some (BitVec.ofNat 8 (32 + line), started) := by
  have hall : ∀ line : Fin 8, started.acknowledge line = some (BitVec.ofNat 8 (32 + line), started) := by decide
  exact hall line

/-- The machine has its tables in place, with the handlers `t`. -/
structure Serves (L : Layout) (s : Machine) (t : Nat → Word) : Prop where
  gdtr : s.gdtr = { size := 39, offset := L.gdt }
  idtr : s.idtr = { size := 2047, offset := L.idt }
  tables : Tables L t s.mem
  master : s.pics.master = started

/-- What the linker is to do: the tables have no byte in common, and a stub is at its address. -/
structure Linked (L : Layout) (code : Word → Option Code) : Prop extends Placed L where
  stubs : ∀ v < 256, code (L.stubAddress v) = some (stub v)

section

variable (P : Linked L code) (h : Serves L s t) (hv : 32 ≤ vector) (hv' : vector < 256) (hstack : StackOk L p)
  (hrs : ∀ r ∈ rs, r.Ok)
include P h hv hv' hstack

/-- What an interrupt leads to, for any handler that returns. -/
theorem serviced_eq (hrs : ∀ r ∈ rs, r.Ok) {r : Handled} (hr : Serviced L code next s vector software p rs r m') :
    r = handled t vector p ∧ Tables L (registered t rs) m' := by
  obtain ⟨e, c, rest, st, st', u, henter, -, -, hcode, hrun, hreturns, hkeep, hrest, rfl, rfl⟩ := hr
  rw [h.gdtr, h.idtr, enter_eq h.tables hv'] at henter
  obtain rfl := Option.some.inj henter
  obtain rfl := Option.some.inj ((P.stubs vector hv').symm.trans hcode)
  obtain ⟨hstop, rfl⟩ := Prod.mk.inj ((run_stub_eq hv).symm.trans hrun)
  obtain ⟨-, rfl⟩ := Stop.call.inj hstop
  obtain ⟨hhandler, hframe⟩ := dispatch_eq (m := s.mem) h.tables hstack hv hv' (next restores)
  obtain ⟨u', hrun', hmem, hresume⟩ := restores_eq next hreturns
  obtain ⟨-, rfl⟩ := Prod.mk.inj (hrun'.symm.trans hrest)
  refine ⟨?_, ?_⟩
  · rw [handled, hhandler, hframe, hresume]
  · rw [hmem]
    exact ((tables_entered h.tables hstack _ _).registerAll P.toPlaced hrs).congr hkeep

variable (next software) in
/-- An interrupt is serviced. -/
theorem exists_serviced (hrs : ∀ r ∈ rs, r.Ok) : ∃ r m', Serviced L code next s vector software p rs r m' := by
  let st := entered (p.interrupted s.mem).saved (BitVec.ofNat 32 vector) (next restores)
  -- A handler that registers what it is to register, and returns.
  let st' : State := ⟨Function.update st.regs .esp (st.regs .esp + 4), registerAll L rs st.mem⟩
  have hreturns : Returns st st' := by
    refine ⟨by simp [st'], frameAt_congr fun x hx => registerAll_outside hrs fun hin => hstack x ?_ hin⟩
    -- The frame is above the last three words that are pushed.
    obtain ⟨-, hframe, -⟩ := entered_frame (p.interrupted s.mem).saved (BitVec.ofNat 32 vector) (next restores)
    have hesp : (p.interrupted s.mem).saved.regs .esp = p.regs .esp - 12 := Interrupted.saved_esp
    have hdist : x - (p.regs .esp - 52) = x - (p.regs .esp - 12 - 28) + 12 := by ring
    rw [show frameArgument st = _ from hframe, hesp, InArray] at hx
    rw [InArray, hdist, BitVec.toNat_add]
    refine Nat.lt_of_le_of_lt (Nat.mod_le _ _) ?_
    have h12 : (12 : Word).toNat = 12 := by decide
    omega
  obtain ⟨u, hrun, -, -⟩ := restores_eq next hreturns
  refine ⟨_, _, { address := L.stubAddress vector, cpl := p.cpl, masked := true, wide := true }, _, restores, st, st', u,
    ?_, rfl, rfl, P.stubs vector hv', run_stub_eq hv, hreturns, fun _ _ => rfl,
    hrun, rfl, rfl⟩
  rw [h.gdtr, h.idtr]
  exact enter_eq h.tables hv' _

end

/-- An interrupt from a line of the started controller. -/
theorem machine_irq {line : Fin 8} {r : Option Handled} {s' : Machine} (h : s.pics.master = started) :
    (machine L code next).call s (.irq line p rs) r s' ↔ ∃ handled m, r = some handled ∧
      Serviced L code next s (32 + line) false p rs handled m ∧ s' = { s with mem := m } := by
  have hvector : (BitVec.ofNat 8 (32 + line)).toNat = 32 + line := by
    rw [BitVec.toNat_ofNat]
    omega
  have hpics : { s.pics with master := started } = s.pics := by rw [← h]
  simp only [machine, h, acknowledge_started, hvector, hpics]

/-- The machine is a table of handlers, as long as the contract is kept. -/
theorem machine_simulates (next : Code → Word) (P : Linked L code) :
    Simulation (machine L code next) handlers (MachineOk L) (Serves L) where
  returns s t c h hok := by
    cases c with
    | work => exact ⟨none, _, rfl, s.mem, fun _ _ => rfl, rfl⟩
    | registerHandler r => exact ⟨none, _, rfl, rfl⟩
    | int vector p rs =>
      obtain ⟨hv, hv', ⟨-, hstack⟩, hrs⟩ := hok
      obtain ⟨r, m', hr⟩ := exists_serviced next true P h hv hv' hstack hrs
      exact ⟨some r, _, r, m', rfl, hr, rfl⟩
    | irq line p rs =>
      obtain ⟨-, ⟨-, hstack⟩, hrs⟩ := hok
      obtain ⟨r, m', hr⟩ := exists_serviced next false P h (Nat.le_add_right 32 line) (by omega) hstack hrs
      exact ⟨some r, _, (machine_irq h.master).mpr ⟨r, m', rfl, hr, rfl⟩⟩
  agrees s t c r s' h hok hr := by
    cases c with
    | work =>
      obtain ⟨rfl, m, hm, rfl⟩ := hr
      exact ⟨rfl, h.gdtr, h.idtr, h.tables.congr hm, h.master⟩
    | registerHandler r =>
      obtain ⟨rfl, rfl⟩ := hr
      exact ⟨rfl, h.gdtr, h.idtr, h.tables.register P.toPlaced hok.1 hok.2 r.handler, h.master⟩
    | int vector p rs =>
      obtain ⟨hv, hv', ⟨-, hstack⟩, hrs⟩ := hok
      obtain ⟨r, m', rfl, hr, rfl⟩ := hr
      obtain ⟨rfl, htables⟩ := serviced_eq P h hv hv' hstack hrs hr
      exact ⟨rfl, h.gdtr, h.idtr, htables, h.master⟩
    | irq line p rs =>
      obtain ⟨-, ⟨-, hstack⟩, hrs⟩ := hok
      obtain ⟨r, m', rfl, hserved, rfl⟩ := (machine_irq h.master).mp hr
      obtain ⟨rfl, htables⟩ := serviced_eq P h (Nat.le_add_right 32 line) (by omega) hstack hrs hserved
      exact ⟨rfl, h.gdtr, h.idtr, htables, h.master⟩

/-- The machine once `interrupts_init` has run, on the memory `m`, after `gdt_init`. -/
def booted (L : Layout) (m : Memory) (pics : Pics) : Machine where
  mem := (interruptsInit Pics.out8 L m pics).1
  gdtr := (gdtInit L m).2
  idtr := (interruptsInit Pics.out8 L m pics).2.1
  pics := (interruptsInit Pics.out8 L m pics).2.2

/-- The machine serves from then on, if the GDT is still there when `interrupts_init` runs. -/
theorem booted_serves {m₀ : Memory} (P : Placed L) (hm : ∀ x, InArray L.gdt 10 x → m x = (gdtInit L m₀).1 x)
    (pics : Pics) : Serves L (booted L m pics) fun _ => L.defaultRegisteredHandler where
  gdtr := by rw [booted, gdtInit_gdtr]
  idtr := by rw [booted, interruptsInit_idtr]
  tables := by
    have hcode : Segment.ofWords (loadPair m (entry L.gdt (2 * 1))) = kernelCode := by
      rw [loadPair_congr_array (n := 5) (by decide) (by decide) hm]
      exact gdtInit_code L m₀
    have htables := interruptsInit_tables Pics.out8 pics P hcode
    simp only [booted]
    exact htables
  master := by
    rw [booted, interruptsInit_devices]
    exact picInit_master pics

/-- From `interrupts_init` on, whatever the controllers did before, in any order of interrupts and registrations, an
interrupt for drivers gets to the handler that was last registered for its vector, and back to what was interrupted. -/
theorem machine_refines_handlers (L : Layout) (code : Word → Option Code) (next : Code → Word) (P : Linked L code)
    (m₀ m : Memory) (hm : ∀ x, InArray L.gdt 10 x → m x = (gdtInit L m₀).1 x) (pics : Pics) (l : List MachineCall)
    (hl : Keeps (MachineOk L) handlers (fun _ => L.defaultRegisteredHandler) l) (rs : List (Option Handled)) :
    (∃ s', (machine L code next).Run (booted L m pics) l rs s') ↔
      rs = outputs handlers (fun _ => L.defaultRegisteredHandler) l :=
  (machine_simulates next P).run_iff (booted_serves P.toPlaced hm pics) hl

/-- Three tables, and the stubs 64 bytes apart. -/
def exampleLayout : Layout where
  gdt := 0x1000
  idt := 0x2000
  registeredHandlers := 0x3000
  defaultRegisteredHandler := 0x4000
  stubAddress v := BitVec.ofNat 32 (0x100000 + 64 * v)

def exampleCode (a : Word) : Option Code := some (stub ((a.toNat - 0x100000) / 64))

theorem linked_example : Linked exampleLayout exampleCode where
  gdt_idt x hx hx' := by
    simp only [InArray, exampleLayout] at hx hx'
    bv_omega
  gdt_handlers x hx hx' := by
    simp only [InArray, exampleLayout] at hx hx'
    bv_omega
  idt_handlers x hx hx' := by
    simp only [InArray, exampleLayout] at hx hx'
    bv_omega
  stubs v hv := by
    have hindex : ((BitVec.ofNat 32 (0x100000 + 64 * v)).toNat - 0x100000) / 64 = v := by
      rw [BitVec.toNat_ofNat]
      omega
    exact congrArg (fun v => some (stub v)) hindex

/-- The kernel, with interrupts enabled, and its stack below `0x9000`. -/
def kernelPoint : Point where
  regs r := if r = .esp then 0x9000 else 7
  eip := 0x100000
  cs := 0x08
  eflags := 0x202

theorem kernelPoint_ok : kernelPoint.Ok exampleLayout := by
  refine ⟨by decide, fun x hx htable => ?_⟩
  have hesp : kernelPoint.regs .esp = 0x9000 := rfl
  rw [InArray, hesp] at hx
  obtain hx' | hx' | hx' := htable <;>
  · simp only [InArray, exampleLayout] at hx'
    bv_omega

/-- A key before and after there is a handler for keys, which registers another one for `int 128`. -/
def exampleCalls : List MachineCall := [.irq 1 kernelPoint [], .registerHandler ⟨33, 0x5000⟩,
  .irq 1 kernelPoint [⟨128, 0x6000⟩], .work, .int 128 kernelPoint []]

theorem keeps_exampleCalls : Keeps (MachineOk exampleLayout) handlers (fun _ => 0x4000) exampleCalls :=
  ⟨⟨by decide, kernelPoint_ok, by simp⟩, ⟨by decide, by decide⟩,
    ⟨by decide, kernelPoint_ok, by simp [Registration.Ok]⟩, trivial,
    ⟨by decide, by decide, kernelPoint_ok, by simp⟩, trivial⟩

theorem machine_refines_handlers_first : ∃ s', (machine exampleLayout exampleCode fun _ => 0).Run
    (booted exampleLayout (gdtInit exampleLayout fun _ => 0).1
      ⟨⟨.mask, 8, 0xFF, false, 0⟩, ⟨.mask, 0x70, 0xFF, false, 0⟩⟩) exampleCalls
    [some (handled (fun _ => 0x4000) 33 kernelPoint), none, some (handled (fun _ => 0x5000) 33 kernelPoint), none,
      some (handled (fun _ => 0x6000) 128 kernelPoint)] s' :=
  (machine_refines_handlers exampleLayout exampleCode (fun _ => 0) linked_example _ _ (fun _ _ => rfl) _ _
    keeps_exampleCalls _).mpr rfl

end OSForReal.Proof.Interrupts
