import OSForReal.Arch.Interrupts

/-!
# The frame and the registers of the interrupt stubs

The three stubs save the registers, call a handler with a pointer to them and restore them
(`body`). At the entry of the handler the registers are below the words that were on top of the
stack when the body was entered (`entered_frame`), and once the handler has returned they are
restored and the stack is as it was (`body_returns`, `run_stub`). So the frame is right where
these words are an error code, `eip`, `cs` and `eflags`, and `iret` is right where they begin
with `eip` (`stub_iff`). `eflags` is never 0, so only the exceptions without an error code have
both (`stub_iff_of_eflags`).
-/

namespace OSForReal.Proof.Interrupts

open Framework.X86
open OSForReal.Interrupts

variable {next : Code → Word} {i : Interrupted} {s s' s₀ : State} {h : Handler} {rest c : Code}
  {code ret v : Word} {vector : Nat}

/-! ## Frames -/

/-- The words of a frame. -/
def frameWords (f : InterruptFrame) : List Word := [f.edi, f.esi, f.ebp, f.ebx, f.edx, f.ecx, f.eax,
  f.errorCodeHigh ++ f.errorCode, f.eip, f.csHigh ++ f.cs, f.eflags, f.esp, f.ssHigh ++ f.ss]

theorem words_frame (m : Memory) (p : Word) : words m p 13 = frameWords (frameAt m p) := by
  simp [words, frameWords, frameAt, load, BitVec.add_assoc]

/-! ## The common body -/

/-- The registers in the order in which they are pushed. -/
def savedRegs : List Reg := [.eax, .ecx, .edx, .ebx, .ebp, .esi, .edi]

/-- What the stubs have in common, before `c`. -/
def body (h : Handler) (iv : Nat) (c : Code) : Code :=
  savedRegs.map .push ++ .push .esp :: .pushImm (BitVec.ofNat 32 iv) :: .call h ::
    .add 8 .esp :: (savedRegs.reverse.map .pop ++ c)

theorem excStartWithErrCode_eq (iv : Nat) : excStartWithErrCode iv = body .cExceptionHandler iv [.iret] := rfl

theorem excStart_eq (iv : Nat) : excStart iv = .pushImm 0 :: body .cExceptionHandler iv [.add 4 .esp, .iret] := rfl

theorem intStart_eq (iv : Nat) : intStart iv = body .cInterruptDispatch iv [.iret] := rfl

/-- The state at the entry of the handler. -/
def entered (s₀ : State) (v ret : Word) : State :=
  (((s₀.pushRegs savedRegs).push ((s₀.pushRegs savedRegs).regs .esp)).push v).push ret

theorem run_body (h : Handler) (iv : Nat) (c : Code) (s₀ : State) : run next (body h iv c) s₀ =
    (.call h (.add 8 .esp :: (savedRegs.reverse.map .pop ++ c)),
      entered s₀ (BitVec.ofNat 32 iv) (next (.add 8 .esp :: (savedRegs.reverse.map .pop ++ c)))) := by
  rw [body, run_pushes]
  rfl

theorem entered_esp (s₀ : State) (v ret : Word) : (entered s₀ v ret).regs .esp = s₀.regs .esp - 40 := by
  rw [entered, State.push_esp, State.push_esp, State.push_esp, State.pushRegs_esp]
  show s₀.regs .esp - 28 - 4 - 4 - 4 = _
  ring

/-- The stack at the entry: the return address, the arguments, the registers, and what was there before. -/
theorem entered_stack (s₀ : State) (v ret : Word) : (entered s₀ v ret).stack 16 =
    ret :: v :: (s₀.regs .esp - 28) :: (savedRegs.reverse.map s₀.regs ++ s₀.stack 6) := by
  have hregs : (s₀.pushRegs savedRegs).stack 13 = (savedRegs.map s₀.regs).reverse ++ s₀.stack 6 :=
    @State.stack_pushRegs s₀ savedRegs 6 (by decide) (by decide)
  rw [entered, State.stack_push (by decide), State.stack_push (by decide), State.stack_push (by decide), hregs,
    State.pushRegs_esp, List.map_reverse]
  rfl

/-- The arguments, and from the second on the frame: the registers, and the words that were on top of the stack. -/
theorem entered_frame (s₀ : State) (v ret : Word) : vectorArgument (entered s₀ v ret) = v ∧
    frameArgument (entered s₀ v ret) = s₀.regs .esp - 28 ∧
    words (entered s₀ v ret).mem (s₀.regs .esp - 28) 13 = savedRegs.reverse.map s₀.regs ++ s₀.stack 6 := by
  have hstack := entered_stack s₀ v ret
  have hframe : s₀.regs .esp - 40 + BitVec.ofNat 32 (4 * 3) = s₀.regs .esp - 28 := by
    show s₀.regs .esp - 40 + 12 = _
    ring
  rw [State.stack, words_append _ _ 3 13, entered_esp, hframe] at hstack
  have hlength : (words (entered s₀ v ret).mem (s₀.regs .esp - 40) 3).length = [ret, v, s₀.regs .esp - 28].length :=
    length_words ..
  obtain ⟨harguments, hwords⟩ := List.append_inj hstack hlength
  have h8 : s₀.regs .esp - 40 + 4 + 4 = s₀.regs .esp - 40 + 8 := by ring
  simp only [words, h8, List.cons.injEq] at harguments
  rw [vectorArgument, frameArgument, entered_esp]
  exact ⟨harguments.2.1, harguments.2.2.1, hwords⟩

/-! ## The return of the handler -/

/-- The handler returns, and leaves the frame unchanged. -/
structure Returns (s s' : State) : Prop where
  esp : s'.regs .esp = s.regs .esp + 4
  frame : frameAt s'.mem (frameArgument s) = frameAt s.mem (frameArgument s)

/-- The registers are restored, and the stack is as it was. -/
theorem body_returns (hreturns : Returns (entered s₀ v ret) s') :
    ∃ t, run next (.add 8 .esp :: (savedRegs.reverse.map .pop ++ c)) s' = run next c t ∧
      t.regs .esp = s₀.regs .esp ∧ (∀ r ≠ .esp, t.regs r = s₀.regs r) ∧ t.stack 6 = s₀.stack 6 := by
  obtain ⟨-, hframe, hwords⟩ := entered_frame s₀ v ret
  have hmem : words s'.mem (s₀.regs .esp - 28) 13 = savedRegs.reverse.map s₀.regs ++ s₀.stack 6 := by
    rw [← hwords, words_frame, words_frame, ← hframe, hreturns.frame]
  have htop : s'.regs .esp + 8 = s₀.regs .esp - 28 := by
    rw [hreturns.esp, entered_esp]
    ring
  have hback : s₀.regs .esp - 28 + BitVec.ofNat 32 (4 * 7) = s₀.regs .esp := by
    show s₀.regs .esp - 28 + 28 = _
    ring
  rw [words_append _ _ 7 6, hback] at hmem
  obtain ⟨hregs, hstack⟩ := List.append_inj hmem (length_words ..)
  have hlength : savedRegs.reverse.length = 7 := rfl
  have hpops := @State.map_popRegs (s'.setReg .esp (s₀.regs .esp - 28)) savedRegs.reverse (by decide) (by decide)
  rw [State.stack, State.setReg_esp, State.setReg_mem, hlength] at hpops
  have hesp : ((s'.setReg .esp (s₀.regs .esp - 28)).popRegs savedRegs.reverse).regs .esp = s₀.regs .esp := by
    rw [State.popRegs_esp (by decide), State.setReg_esp, hlength, hback]
  refine ⟨(s'.setReg .esp (s₀.regs .esp - 28)).popRegs savedRegs.reverse, ?_, hesp, fun r hr => ?_, ?_⟩
  · rw [run, htop]
    exact run_pops ..
  · refine List.map_inj_left.mp (hpops.trans hregs) r ?_
    cases r <;> first | decide | exact absurd rfl hr
  · rw [State.stack, hesp, State.popRegs_mem, State.setReg_mem, hstack]

/-! ## The stubs -/

/-- The state in which the body is entered: an `exc_start` has filled the slot of the error code. -/
def bodyEntry (vector : Nat) (s : State) : State :=
  if vector ∉ vectorsWithErrCode ∧ vector < 32 then s.push 0 else s

theorem bodyEntry_regs {r : Reg} (hr : r ≠ .esp) : (bodyEntry vector s).regs r = s.regs r := by
  rw [bodyEntry]
  split
  · exact State.push_regs hr
  · rfl

/-- A stub without the slot is a body before `iret`. -/
theorem run_unfilled (hreturns : Returns (entered s₀ v ret) s') :
    ∃ t, run next (.add 8 .esp :: (savedRegs.reverse.map .pop ++ [.iret])) s' = (.iret, t) ∧
      t.regs .esp = s₀.regs .esp ∧ (∀ r ≠ .esp, t.regs r = s₀.regs r) ∧ t.stack 5 = s₀.stack 5 := by
  obtain ⟨t, hrun, hesp, hregs, hstack⟩ := @body_returns next s' s₀ [.iret] ret v hreturns
  refine ⟨t, hrun, hesp, hregs, ?_⟩
  rw [← State.take_stack t 5 1, hstack, ← State.take_stack s₀ 5 1]

/-- With the slot, it drops the 0 again. -/
theorem run_filled (hreturns : Returns (entered (s₀.push 0) v ret) s') :
    ∃ t, run next (.add 8 .esp :: (savedRegs.reverse.map .pop ++ [.add 4 .esp, .iret])) s' = (.iret, t) ∧
      t.regs .esp = s₀.regs .esp ∧ (∀ r ≠ .esp, t.regs r = s₀.regs r) ∧ t.stack 5 = s₀.stack 5 := by
  obtain ⟨t, hrun, hesp, hregs, hstack⟩ := @body_returns next s' (s₀.push 0) [.add 4 .esp, .iret] ret v hreturns
  rw [State.push_esp] at hesp
  have hback : t.regs .esp + 4 = s₀.regs .esp := by
    rw [hesp]
    ring
  refine ⟨t.setReg .esp (t.regs .esp + 4), hrun, ?_, fun r hr => ?_, ?_⟩
  · rw [State.setReg_esp, hback]
  · rw [State.setReg_regs hr, hregs r hr, State.push_regs hr]
  · rw [State.stack_push (by decide)] at hstack
    have htail := congrArg List.tail hstack
    rw [State.stack, State.setReg_esp, State.setReg_mem]
    exact htail

theorem lt_of_mem (h : vector ∈ vectorsWithErrCode) : vector < 32 := by
  have hall : ∀ v ∈ vectorsWithErrCode, v < 32 := by decide
  exact hall vector h

theorem bodyEntry_filled (hcode : vector ∉ vectorsWithErrCode) (hexc : vector < 32) : bodyEntry vector s = s.push 0 :=
  if_pos ⟨hcode, hexc⟩

theorem bodyEntry_unfilled (h : vector ∈ vectorsWithErrCode ∨ 32 ≤ vector) : bodyEntry vector s = s := by
  refine if_neg fun hboth => ?_
  obtain hcode | hint := h
  · exact hboth.1 hcode
  · exact Nat.not_lt.mpr hint hboth.2

/-- The handler of a vector. -/
def handler (vector : Nat) : Handler := if vector < 32 then .cExceptionHandler else .cInterruptDispatch

/-- A stub enters a handler, and once that has returned, it executes `iret` with the registers and the
stack that it was entered with. -/
theorem run_stub (next : Code → Word) (vector : Nat) (s₀ : State) : ∃ rest ret,
    run next (stub vector) s₀ =
      (.call (handler vector) rest, entered (bodyEntry vector s₀) (BitVec.ofNat 32 vector) ret) ∧
    ∀ s', Returns (entered (bodyEntry vector s₀) (BitVec.ofNat 32 vector) ret) s' →
      ∃ t, run next rest s' = (.iret, t) ∧
        t.regs .esp = s₀.regs .esp ∧ (∀ r ≠ .esp, t.regs r = s₀.regs r) ∧ t.stack 5 = s₀.stack 5 := by
  by_cases hcode : vector ∈ vectorsWithErrCode
  · rw [stub, if_pos hcode, bodyEntry_unfilled (Or.inl hcode), handler, if_pos (lt_of_mem hcode), excStartWithErrCode_eq,
      run_body]
    exact ⟨_, _, rfl, fun s' => run_unfilled⟩
  · by_cases hexc : vector < 32
    · rw [stub, if_neg hcode, if_pos hexc, bodyEntry_filled hcode hexc, handler, if_pos hexc, excStart_eq, run, run_body]
      exact ⟨_, _, rfl, fun s' => run_filled⟩
    · rw [stub, if_neg hcode, if_neg hexc, bodyEntry_unfilled (Or.inr (Nat.not_lt.mp hexc)), handler, if_neg hexc,
        intStart_eq, run_body]
      exact ⟨_, _, rfl, fun s' => run_unfilled⟩

/-- The handler gets the vector, and the address of the last register that was pushed. -/
theorem stub_calls (hrun : run next (stub vector) s₀ = (.call h rest, s)) :
    h = handler vector ∧ vectorArgument s = BitVec.ofNat 32 vector ∧
      frameArgument s = (bodyEntry vector s₀).regs .esp - 28 := by
  obtain ⟨rest', ret, hrun', -⟩ := run_stub next vector s₀
  obtain ⟨hstop, rfl⟩ := Prod.mk.inj (hrun.symm.trans hrun')
  obtain ⟨hvector, hframe, -⟩ := entered_frame (bodyEntry vector s₀) (BitVec.ofNat 32 vector) ret
  exact ⟨(Stop.call.inj hstop).1, hvector, hframe⟩

/-! ## The frame -/

/-- The frame of a handler holds the registers, `eip`, `cs` and `eflags` of what was interrupted, and the error
code, or 0. -/
structure Presents (i : Interrupted) (vector : Nat) (code : Word) (f : InterruptFrame) : Prop where
  edi : f.edi = i.state.regs .edi
  esi : f.esi = i.state.regs .esi
  ebp : f.ebp = i.state.regs .ebp
  ebx : f.ebx = i.state.regs .ebx
  edx : f.edx = i.state.regs .edx
  ecx : f.ecx = i.state.regs .ecx
  eax : f.eax = i.state.regs .eax
  errorCode : f.errorCode = if vector ∈ errorCodeVectors then code.setWidth 16 else 0
  eip : f.eip = i.eip
  cs : f.cs = i.cs.setWidth 16
  eflags : f.eflags = i.eflags

/-- At the entry of the handler, its second argument points to such a frame. -/
def PresentsFrame (next : Code → Word) (i : Interrupted) (vector : Nat) (code : Word) : Prop :=
  ∃ h rest s, run next (stub vector) (i.deliver vector code) = (.call h rest, s) ∧
    Presents i vector code (frameAt s.mem (frameArgument s))

/-- Four words are read as the error code, `eip`, `cs` and `eflags`. -/
def ReadsAs (i : Interrupted) (error : BitVec 16) (w₀ w₁ w₂ w₃ : Word) : Prop :=
  w₀.setWidth 16 = error ∧ w₁ = i.eip ∧ w₂.setWidth 16 = i.cs.setWidth 16 ∧ w₃ = i.eflags

/-- The word above what the CPU pushes for any interrupt: the stack pointer if the stack was changed, or else
the word that was on top of the stack. -/
def above (i : Interrupted) : Word := load i.base.mem (i.base.regs .esp)

/-- `exc_start_10` pushes a 0 below the error code, and an `int_start` nothing in its place. -/
def FrameCondition (i : Interrupted) (vector : Nat) (code : Word) : Prop :=
  if vector = 10 then ReadsAs i (code.setWidth 16) 0 code i.eip i.cs
  else 32 ≤ vector → ReadsAs i 0 i.eip i.cs i.eflags (above i)

theorem mem_errorCodeVectors : vector ∈ errorCodeVectors ↔ vector = 10 ∨ vector ∈ vectorsWithErrCode := by
  simp only [errorCodeVectors, vectorsWithErrCode, List.mem_cons, List.not_mem_nil, or_false]
  omega

theorem lt_of_errorCode (h : vector ∈ errorCodeVectors) : vector < 32 := by
  obtain rfl | hcode := mem_errorCodeVectors.mp h
  · decide
  · exact lt_of_mem hcode

/-- The frame is read off the words on top of the stack, where the body is entered. -/
theorem presents_iff {f : InterruptFrame} {w₀ w₁ w₂ w₃ : Word} {l : List Word}
    (hwords : frameWords f = savedRegs.reverse.map i.state.regs ++ w₀ :: w₁ :: w₂ :: w₃ :: l) :
    Presents i vector code f ↔
      ReadsAs i (if vector ∈ errorCodeVectors then code.setWidth 16 else 0) w₀ w₁ w₂ w₃ := by
  have hlow : ∀ high low : BitVec 16, (high ++ low).setWidth 16 = low := by
    intro high low
    rw [BitVec.setWidth_append]
    simp
  simp only [frameWords, savedRegs, List.reverse_cons, List.reverse_nil, List.nil_append, List.cons_append, List.map_cons,
    List.map_nil, List.cons.injEq] at hwords
  obtain ⟨hedi, hesi, hebp, hebx, hedx, hecx, heax, rfl, rfl, rfl, rfl, -⟩ := hwords
  rw [ReadsAs, hlow, hlow]
  constructor
  · intro hframe
    exact ⟨hframe.errorCode, hframe.eip, hframe.cs, hframe.eflags⟩
  · intro hread
    obtain ⟨herror, heip, hcs, heflags⟩ := hread
    exact ⟨hedi, hesi, hebp, hebx, hedx, hecx, heax, herror, heip, hcs, heflags⟩

theorem presentsFrame_iff {w₀ w₁ w₂ w₃ : Word}
    (hstack : (bodyEntry vector (i.deliver vector code)).stack 4 = [w₀, w₁, w₂, w₃]) :
    PresentsFrame next i vector code ↔
      ReadsAs i (if vector ∈ errorCodeVectors then code.setWidth 16 else 0) w₀ w₁ w₂ w₃ := by
  obtain ⟨rest, ret, hrun, -⟩ := run_stub next vector (i.deliver vector code)
  obtain ⟨-, hframe, hwords⟩ := entered_frame (bodyEntry vector (i.deliver vector code)) (BitVec.ofNat 32 vector) ret
  have hregs : savedRegs.reverse.map (bodyEntry vector (i.deliver vector code)).regs =
      savedRegs.reverse.map i.state.regs := by
    refine List.map_congr_left fun r hr => ?_
    have hesp : r ≠ .esp := fun heq => absurd (heq ▸ hr) (by decide)
    rw [bodyEntry_regs hesp, Interrupted.deliver_regs hesp]
  rw [words_frame, hregs, State.stack, words_append _ _ 4 2, ← State.stack, hstack, ← hframe] at hwords
  refine Iff.trans ?_ (presents_iff hwords)
  constructor
  · rintro ⟨h', rest', s, hrun', hpresents⟩
    obtain ⟨-, rfl⟩ := Prod.mk.inj (hrun.symm.trans hrun')
    exact hpresents
  · exact fun hpresents => ⟨handler vector, rest, _, hrun, hpresents⟩

/-- The words that the CPU pushes for any interrupt, and the one above them. -/
theorem saved_stack (i : Interrupted) : i.saved.stack 4 = [i.eip, i.cs, i.eflags, above i] :=
  Interrupted.stack_saved (by decide)

/-- The words that are read as the error code, `eip`, `cs` and `eflags`. -/
theorem presentsFrame_iff_condition : PresentsFrame next i vector code ↔ FrameCondition i vector code := by
  have hsaved : i.saved.stack 3 = [i.eip, i.cs, i.eflags] := by rw [← State.take_stack i.saved 3 1, saved_stack]; rfl
  have hpair : i.saved.stack 2 = [i.eip, i.cs] := by rw [← State.take_stack i.saved 2 2, saved_stack]; rfl
  by_cases hmem : vector ∈ errorCodeVectors
  · have hdeliver : i.deliver vector code = i.saved.push code := if_pos hmem
    by_cases hten : vector = 10
    · have hstack : (bodyEntry vector (i.deliver vector code)).stack 4 = [0, code, i.eip, i.cs] := by
        rw [bodyEntry_filled (by rw [hten]; decide) (lt_of_errorCode hmem), hdeliver, State.stack_push (by decide),
          State.stack_push (by decide), hpair]
      rw [presentsFrame_iff hstack, if_pos hmem, FrameCondition, if_pos hten]
    · have hcode : vector ∈ vectorsWithErrCode := (mem_errorCodeVectors.mp hmem).resolve_left hten
      have hstack : (bodyEntry vector (i.deliver vector code)).stack 4 = [code, i.eip, i.cs, i.eflags] := by
        rw [bodyEntry_unfilled (Or.inl hcode), hdeliver, State.stack_push (by decide), hsaved]
      rw [presentsFrame_iff hstack, if_pos hmem, FrameCondition, if_neg hten]
      exact iff_of_true ⟨rfl, rfl, rfl, rfl⟩ fun hint => absurd (lt_of_errorCode hmem) (Nat.not_lt.mpr hint)
  · have hdeliver : i.deliver vector code = i.saved := if_neg hmem
    have hten : vector ≠ 10 := fun heq => hmem (mem_errorCodeVectors.mpr (Or.inl heq))
    have hcode : vector ∉ vectorsWithErrCode := fun h => hmem (mem_errorCodeVectors.mpr (Or.inr h))
    by_cases hexc : vector < 32
    · have hstack : (bodyEntry vector (i.deliver vector code)).stack 4 = [0, i.eip, i.cs, i.eflags] := by
        rw [bodyEntry_filled hcode hexc, hdeliver, State.stack_push (by decide), hsaved]
      rw [presentsFrame_iff hstack, if_neg hmem, FrameCondition, if_neg hten]
      exact iff_of_true ⟨rfl, rfl, rfl, rfl⟩ fun hint => absurd hexc (Nat.not_lt.mpr hint)
    · have hint : 32 ≤ vector := Nat.not_lt.mp hexc
      have hstack : (bodyEntry vector (i.deliver vector code)).stack 4 = [i.eip, i.cs, i.eflags, above i] := by
        rw [bodyEntry_unfilled (Or.inr hint), hdeliver, saved_stack]
      rw [presentsFrame_iff hstack, if_neg hmem, FrameCondition, if_neg hten]
      exact (imp_iff_right hint).symm

/-! ## The registers and the stack at `iret` -/

/-- If the handler returns and leaves the frame unchanged, `iret` is executed with `esp` at the saved `eip`, and with
the other registers of what was interrupted. -/
def RestoresState (next : Code → Word) (i : Interrupted) (vector : Nat) (code : Word) : Prop :=
  ∀ h rest s s', run next (stub vector) (i.deliver vector code) = (.call h rest, s) → Returns s s' →
    ∃ t, run next rest s' = (.iret, t) ∧ t.regs .esp = i.saved.regs .esp ∧ ∀ r ≠ .esp, t.regs r = i.state.regs r

/-- No stub drops the error code. -/
theorem restoresState_iff : RestoresState next i vector code ↔ vector ∉ errorCodeVectors := by
  obtain ⟨rest, ret, hrun, hreturn⟩ := run_stub next vector (i.deliver vector code)
  constructor
  · intro hrestores
    -- A handler that only returns.
    let s := entered (bodyEntry vector (i.deliver vector code)) (BitVec.ofNat 32 vector) ret
    have hreturns : Returns s (s.setReg .esp (s.regs .esp + 4)) := ⟨State.setReg_esp, rfl⟩
    obtain ⟨t, ht, hesp, -⟩ := hrestores (handler vector) rest s _ hrun hreturns
    obtain ⟨t', ht', hesp', -⟩ := hreturn _ hreturns
    obtain ⟨-, rfl⟩ := Prod.mk.inj (ht.symm.trans ht')
    exact Interrupted.deliver_esp_eq_iff.mp (hesp'.symm.trans hesp)
  · intro hcode h' rest' s s' hrun' hreturns
    obtain ⟨hstop, rfl⟩ := Prod.mk.inj (hrun.symm.trans hrun')
    obtain ⟨-, rfl⟩ := Stop.call.inj hstop
    obtain ⟨t, ht, hesp, hregs, -⟩ := hreturn s' hreturns
    refine ⟨t, ht, hesp.trans (Interrupted.deliver_esp_eq_iff.mpr hcode), fun r hr => ?_⟩
    rw [hregs r hr, Interrupted.deliver_regs hr]

/-- Without an error code, what was interrupted goes on where it was. -/
theorem stub_resumes (next : Code → Word) (i : Interrupted) (code : Word) (hcode : vector ∉ errorCodeVectors) :
    ∃ h rest s, run next (stub vector) (i.deliver vector code) = (.call h rest, s) ∧
      ∀ s', Returns s s' → ∃ t, run next rest s' = (.iret, t) ∧ t.resume i.kernelStack.isSome = i.context := by
  obtain ⟨rest, ret, hrun, hreturn⟩ := run_stub next vector (i.deliver vector code)
  have hdeliver : i.deliver vector code = i.saved := if_neg hcode
  refine ⟨handler vector, rest, _, hrun, fun s' hreturns => ?_⟩
  obtain ⟨t, ht, hesp, hregs, hstack⟩ := hreturn s' hreturns
  rw [hdeliver] at hesp hregs hstack
  exact ⟨t, ht, resume_eq hesp (fun r hr => (hregs r hr).trans (Interrupted.saved_regs hr)) hstack⟩

/-! ## When a stub does both -/

/-- Bit 1 of `eflags` is always set. So where a frame is shifted, some field of it is wrong. -/
theorem condition_iff_of_eflags (hflags : i.eflags.getLsbD 1 = true) :
    FrameCondition i vector code ↔ vector ≠ 10 ∧ vector < 32 := by
  have hset : ∀ w : Word, w.setWidth 16 = 0 → w.getLsbD 1 = false := by
    intro w hw
    simpa using congrArg (fun x : BitVec 16 => x.getLsbD 1) hw
  rw [FrameCondition]
  split
  case isTrue hten =>
    refine iff_of_false ?_ fun hboth => hboth.1 hten
    rintro ⟨hcode, heip, hcs, heflags⟩
    -- The halves are equal from the 0 up to `eflags`.
    have hzero : i.eflags.setWidth 16 = 0 := by rw [← heflags, ← hcs, ← heip, ← hcode]; rfl
    exact Bool.false_ne_true ((hset _ hzero).symm.trans hflags)
  case isFalse hten =>
    constructor
    · intro hread
      refine ⟨hten, Nat.not_le.mp fun hint => ?_⟩
      obtain ⟨heip, hcs, heflags, -⟩ := hread hint
      have hzero : i.eflags.setWidth 16 = 0 := by rw [heflags, hcs, heip]
      exact Bool.false_ne_true ((hset _ hzero).symm.trans hflags)
    · exact fun hboth hint => absurd hint (Nat.not_le.mpr hboth.2)

/-- On a CPU, the stubs do both for the exceptions without an error code, and for no other vector. -/
theorem stub_iff_of_eflags (hflags : i.eflags.getLsbD 1 = true) :
    PresentsFrame next i vector code ∧ RestoresState next i vector code ↔
      vector < 32 ∧ vector ∉ errorCodeVectors := by
  rw [presentsFrame_iff_condition, restoresState_iff, condition_iff_of_eflags hflags]
  constructor
  · rintro ⟨⟨-, hexc⟩, hcode⟩
    exact ⟨hexc, hcode⟩
  · rintro ⟨hexc, hcode⟩
    exact ⟨⟨fun heq => hcode (mem_errorCodeVectors.mpr (Or.inl heq)), hexc⟩, hcode⟩

/-- An `int_start` leaves the slot of the error code to `eip`, and a vector with an error code is not returned from. -/
theorem stub_iff (next : Code → Word) (i : Interrupted) (vector : Fin 256) (code : Word) :
    (PresentsFrame next i vector code ↔ FrameCondition i vector code) ∧
    (RestoresState next i vector code ↔ vector.val ∉ errorCodeVectors) ∧
    (PresentsFrame next i vector code ∧ RestoresState next i vector code ↔
      vector.val ∉ errorCodeVectors ∧ (32 ≤ vector.val → ReadsAs i 0 i.eip i.cs i.eflags (above i))) := by
  refine ⟨presentsFrame_iff_condition, restoresState_iff, ?_⟩
  rw [presentsFrame_iff_condition, restoresState_iff, and_comm]
  refine and_congr_right fun hcode => ?_
  have hten : vector.val ≠ 10 := fun heq => hcode (mem_errorCodeVectors.mpr (Or.inl heq))
  rw [FrameCondition, if_neg hten]

/-- The kernel at `0x100000`, with interrupts enabled. -/
def kernelInterrupted : Interrupted where
  state := ⟨fun r => if r = .esp then 0x9000 else 0, fun _ => 0⟩
  eip := 0x100000
  cs := 0x08
  eflags := 0x202
  ss := 0x10
  kernelStack := none

/-- The frame of the timer and that of an invalid TSS are shifted, and the return from a page fault is to the error
code. -/
theorem stub_fails :
    ¬ PresentsFrame (fun _ => 0) kernelInterrupted 32 0 ∧
    ¬ PresentsFrame (fun _ => 0) kernelInterrupted 10 0x28 ∧
    ¬ RestoresState (fun _ => 0) kernelInterrupted 14 0 := by
  refine ⟨?_, ?_, ?_⟩
  · rw [presentsFrame_iff_condition, condition_iff_of_eflags (by decide)]
    decide
  · rw [presentsFrame_iff_condition, condition_iff_of_eflags (by decide)]
    decide
  · rw [restoresState_iff]
    decide

end OSForReal.Proof.Interrupts
