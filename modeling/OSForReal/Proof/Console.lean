import OSForReal.Framework.Uart
import OSForReal.Proof.Io.Arguments
import OSForReal.Proof.Terminal
import OSForReal.Std.Console

/-!
# What the kernel prints is on the screen and on the serial line

The serial port is a 16550 that takes its time for every byte that it sends to the line
(in loopback it echoes at once, which the test of `serial_init` relies on). `serial_init` finds
it working and sets it up (`serialInit_spec`), and from then on `put_char` waits for it
(`ConsoleShows.putChar`), so that no character is lost: the line has the texts of all calls
of `fmt_print`, in order, and the screen shows the end of them (`console_prints`).
-/

namespace OSForReal.Proof

open Framework
open Framework.Bytes (hasChars)
open Framework.Res (Reaches Returns)
open Framework.Rows (Layout layout cell)
open OSForReal.Proof.Io (PrintsArguments Prints Piece Conversion Texts Aligned Renders format slots extraText puts
  prints_string printsArguments_iff_aligned)
open OSForReal.Io (PrintEvent Put Slot FmtPrintLengthModifier fmtPrintImpl)

/-- The port at `PORT`. -/
def uartIo (B : UartBehaviour) : PortIo Uart where
  in8 p u := u.in8 B (p - port).toNat
  out8 p v u := u.out8 B (p - port).toNat v

variable {B : UartBehaviour} {u : Uart} {c : UInt8}

/-! ## The port -/

/-- 8 bits, no parity and one stop bit, with the divisor 3. -/
def serialFrame (c : UInt8) : UartFrame := ⟨0x03, 0x00, 0x03, c⟩

/-- The port sends what is written, as `serial_init` sets it up. -/
structure SerialReady (u : Uart) : Prop where
  frame : u.frame = serialFrame
  dlab : u.dlab = false
  loopback : u.loopback = false

theorem SerialReady.of_settings {u' : Uart} (h : SerialReady u) (hsame : u'.toUartSettings = u.toUartSettings) :
    SerialReady u' :=
  ⟨hsame ▸ h.frame, hsame ▸ h.dlab, hsame ▸ h.loopback⟩

/-- The settings before the loopback test. -/
def testSettings (u : Uart) : UartSettings :=
  (((((((u.toUartSettings.write 1 0x00).write 3 0x80).write 0 0x03).write 1 0x00).write 3 0x03).write 2 0xC7).write 4
    0x0B).write 4 0x1E

/-- The settings do not depend on what the port was set to before. -/
theorem testSettings_spec (u : Uart) : (testSettings u).dlab = false ∧ (testSettings u).loopback = true ∧
    ((testSettings u).write 4 0x0F).frame = serialFrame ∧ ((testSettings u).write 4 0x0F).dlab = false ∧
      ((testSettings u).write 4 0x0F).loopback = false := by
  have hsettings : ∃ v, testSettings u = ⟨0x03, 0x00, v, 0x03, 0x1E, true⟩ := by
    unfold testSettings
    generalize u.toUartSettings.write 1 0x00 = s
    have hfifo : ((0xC7 : UInt8) &&& 1 != 0) = true := by decide
    exact ⟨s.interruptEnable, by simp [UartSettings.write, UartSettings.dlab, hfifo]⟩
  obtain ⟨v, hv⟩ := hsettings
  have hnormal : (UartSettings.mk 0x03 0x00 v 0x03 0x1E true).write 4 0x0F = ⟨0x03, 0x00, v, 0x03, 0x0F, true⟩ := rfl
  have hdlab : ((0x03 : UInt8) &&& 0x80 != 0) = false := by decide
  have htest : ((0x1E : UInt8) &&& 0x10 != 0) = true := by decide
  have hloopback : ((0x0F : UInt8) &&& 0x10 != 0) = false := by decide
  rw [hv, hnormal]
  exact ⟨hdlab, htest, rfl, hdlab, hloopback⟩

/-- The loopback test succeeds, and the port has nothing left to send. -/
theorem serialInit_spec (B : UartBehaviour) (u : Uart) :
    (serialInit (uartIo B) u).1 = true ∧ SerialReady (serialInit (uartIo B) u).2 ∧
      (serialInit (uartIo B) u).2.holding = [] := by
  let u₁ := ((((u.out8 B 1 0x00).out8 B 3 0x80).out8 B 0 0x03).out8 B 1 0x00).out8 B 3 0x03
  let u₂ := ((u₁.out8 B 2 0xC7).out8 B 4 0x0B).out8 B 4 0x1E
  have hidle : u₂.Idle :=
    ((Uart.idle_out8_fifo B u₁ (by decide)).out8 B (by decide) 0x0B).out8 B (by decide) 0x1E
  have hsettings : u₂.toUartSettings = testSettings u := by simp [u₂, u₁, testSettings]
  obtain ⟨hdlab, hloopback, hframe, hdlab', hloopback'⟩ := testSettings_spec u
  obtain ⟨hecho, hidle'⟩ := hidle.echo B (hsettings ▸ hdlab) (hsettings ▸ hloopback) 0xAE
  let u₃ := ((u₂.out8 B 0 0xAE).in8 B 0).2.out8 B 4 0x0F
  have hinit : serialInit (uartIo B) u = (true, u₃) := by
    show (if ((u₂.out8 B 0 0xAE).in8 B 0).1 ≠ 0xAE then _ else (true, u₃)) = _
    rw [hecho]
    rfl
  have hsettings' : u₃.toUartSettings = (testSettings u).write 4 0x0F := by
    have hsame : (testSettings u).write 0 0xAE = testSettings u := by
      rw [UartSettings.write, if_pos rfl, hdlab]
      rfl
    rw [Uart.settings_out8, Uart.settings_in8, Uart.settings_out8, hsettings, hsame]
  rw [hinit]
  exact ⟨rfl, ⟨hsettings' ▸ hframe, hsettings' ▸ hdlab', hsettings' ▸ hloopback'⟩, (hidle'.out8 B (by decide) 0x0F).2⟩

/-- `serial_write` waits until everything is sent, and the byte is sent after it. -/
theorem serialWrite_spec (h : SerialReady u) (c : UInt8) :
    ∃ u', Returns (fun n => serialWrite (uartIo B) n c u) u' ∧ SerialReady u' ∧ u'.output = u.output ++ [serialFrame c] := by
  have hbody : ∀ u : Uart, (let (empty, u) := serialIsTransmitEmpty (uartIo B) u
      Res.ok (if empty = false then Sum.inl u else Sum.inr u)) =
        .ok (if (u.elapse B).holding = [] then .inr (u.elapse B) else .inl (u.elapse B)) := by
    intro u
    obtain ⟨hbit, hafter⟩ := Uart.in8_status B u
    show Res.ok (if decide ((u.in8 B 5).1 &&& 0x20 ≠ 0) = false then Sum.inl (u.in8 B 5).2 else .inr (u.in8 B 5).2) = _
    rw [hafter]
    by_cases hempty : (u.elapse B).holding = []
    · rw [if_pos hempty, decide_eq_true (hbit.mpr hempty)]
      rfl
    · rw [if_neg hempty, decide_eq_false fun hset => hempty (hbit.mp hset)]
      rfl
  obtain ⟨j, hj⟩ := Uart.exists_holding_eq_nil B h.loopback
  obtain ⟨k, hempty, hpoll⟩ := Returns.poll (P := fun u : Uart => u.holding = []) hbody hj
  obtain ⟨hsame, houtput, -, -⟩ := @Uart.iterate_spec B u h.loopback (k + 1)
  have hready := h.of_settings hsame
  generalize (Uart.elapse B)^[k + 1] u = u₁ at hpoll hempty hsame houtput hready
  -- The byte is written to an empty port.
  have hready' := hready.of_settings (Uart.settings_elapse B u₁)
  have hempty' : (u₁.elapse B).holding = [] := by
    rw [Uart.elapse_holding hready.loopback, hempty, List.drop_nil]
  have hsend : (uartIo B).out8 port c u₁ = (u₁.elapse B).send c := Uart.out8_transmit hready.dlab
  refine ⟨(u₁.elapse B).send c, ?_, hready'.of_settings (Uart.settings_send c _), ?_⟩
  · exact hpoll.bind (hsend ▸ Returns.ok _)
  · rw [Uart.output_send hempty', Uart.output_elapse hready.loopback, houtput, hready'.frame]

/-! ## Characters -/

/-- The screen shows the text, and the line has it after what was there before, or will. -/
structure ConsoleShows (before : List UartFrame) (text : List UInt8) (s : Console Uart) : Prop where
  terminal : Shows (layout vgaWidth newline text) s.terminal
  ready : SerialReady s.machine
  output : s.machine.output = before ++ text.map serialFrame

section Characters

variable {before : List UartFrame} {text : List UInt8} {s : Console Uart}

/-- `put_char` adds a character to both. -/
theorem ConsoleShows.putChar (h : ConsoleShows before text s) (c : UInt8) :
    ∃ s', Reaches (fun n => putChar (uartIo B) n s c) s' ∧ ConsoleShows before (text ++ [c]) s' := by
  obtain ⟨terminal, hterminal, hshows⟩ := h.terminal.putChar c
  obtain ⟨machine, hmachine, hready, houtput⟩ := @serialWrite_spec B _ h.ready c
  refine ⟨⟨terminal, machine⟩, ?_, ?_, hready, ?_⟩
  · simp only [OSForReal.putChar, hterminal]
    exact hmachine.reaches.bind (Reaches.ok _)
  · rw [layout, List.foldl_append]
    exact hshows
  · rw [houtput, h.output, List.map_append, List.append_assoc]
    rfl

/-- A text. -/
theorem ConsoleShows.putChars (h : ConsoleShows before text s) (chars : List UInt8) :
    ∃ s', Reaches (fun n => chars.foldlM (OSForReal.putChar (uartIo B) n) s) s' ∧ ConsoleShows before (text ++ chars) s' :=
  Reaches.foldlM (f := OSForReal.putChar (uartIo B)) (I := fun text s => ConsoleShows before text s) h
    (fun _ _ c hs => hs.putChar c) chars

end Characters

/-! ## Calls of `fmt_print` -/

/-- A call of `fmt_print` whose arguments are read as they are meant, and the texts of its pieces. -/
structure PrintCall where
  m : Bytes
  stack : Nat → Slot
  fmt : Nat
  pieces : List Piece
  /-- The number of extra arguments. -/
  extra : Nat
  texts : List (List UInt8)
  format_at : hasChars m fmt (format pieces) = true
  sentinel : stack (slots pieces + extra) = 0
  aligned : Aligned m stack extra pieces 0 0
  renders : Texts m stack pieces 0 texts

/-- What the call should print. -/
def PrintCall.text (call : PrintCall) : List UInt8 := (call.texts ++ List.replicate call.extra extraText).flatten

/-- The call. -/
def PrintCall.run (B : UartBehaviour) (call : PrintCall) (fuel : Nat) (s : Console Uart) : Res (Console Uart) :=
  fmtPrint (uartIo B) call.m call.stack call.fmt fuel s

variable {m : Bytes} {stack : Nat → Slot}

theorem prints_unique {call : Put} {t t' : List UInt8} (h : Prints m call t) (h' : Prints m call t') : t = t' := by
  obtain ⟨n, hn⟩ := h
  obtain ⟨n', hn'⟩ := h'
  exact Res.ok.inj ((hn (max n n') (Nat.le_max_left _ _)).symm.trans (hn' (max n n') (Nat.le_max_right _ _)))

/-- An argument has one text. -/
theorem renders_unique {lm : FmtPrintLengthModifier} {v : Conversion} {arg : Nat → Slot} {t t' : List UInt8}
    (h : Renders m lm v arg t) (h' : Renders m lm v arg t') : t = t' := by
  cases v with
  | c => exact h.trans h'.symm
  | u => exact h.trans h'.symm
  | d => exact h.trans h'.symm
  | x => exact h.trans h'.symm
  | s => exact prints_unique (prints_string.mpr h) (prints_string.mpr h')

theorem texts_unique {ps : List Piece} {own : Nat} {ts ts' : List (List UInt8)} (h : Texts m stack ps own ts)
    (h' : Texts m stack ps own ts') : ts = ts' := by
  induction h generalizing ts' with
  | nil =>
    cases h'
    rfl
  | literal _ ih =>
    cases h' with
    | literal h' => rw [ih h']
  | specifier harg _ ih =>
    cases h' with
    | specifier harg' h' => rw [ih h', renders_unique harg harg']

/-- A run makes the calls that it has recorded. -/
theorem performEvents_eq (P : PortIo Uart) (fuel : Nat) (es : List PrintEvent) (s : Console Uart) :
    es.foldlM (performEvent P m fuel) s = (puts es).foldlM (fun s call => performEvent P m fuel s (.put call)) s := by
  induction es generalizing s with
  | nil => rfl
  | cons e es ih =>
    cases e with
    | cursor p => exact ih s
    | fetch i => exact ih s
    | put call =>
      rw [puts, List.foldlM_cons, List.foldlM_cons]
      exact Res.bind_congr_ok fun s' _ => ih s'

/-- The calls print their characters one after the other. -/
theorem performPuts_eq (P : PortIo Uart) {fuel : Nat} {calls : List Put} {ts : List (List UInt8)}
    (h : calls.mapM (Put.chars m fuel) = .ok ts) (s : Console Uart) :
    calls.foldlM (fun s call => performEvent P m fuel s (.put call)) s = ts.flatten.foldlM (putChar P fuel) s := by
  induction calls generalizing ts s with
  | nil =>
    obtain rfl : [] = ts := Res.ok.inj h
    rfl
  | cons call calls ih =>
    rw [List.mapM_cons] at h
    obtain ⟨chars, hchars, h⟩ := Res.bind_eq_ok.mp h
    obtain ⟨rest, hrest, h⟩ := Res.bind_eq_ok.mp h
    obtain rfl : chars :: rest = ts := Res.ok.inj h
    have hcall : ∀ s, performEvent P m fuel s (.put call) = chars.foldlM (putChar P fuel) s := fun s => by
      simp only [performEvent, hchars, Res.ok_bind]
    rw [List.foldlM_cons, hcall, List.flatten_cons, List.foldlM_append]
    exact Res.bind_congr_ok fun s' _ => ih hrest s'

variable {before : List UartFrame} {text : List UInt8} {s : Console Uart}

/-- A call prints its text. -/
theorem ConsoleShows.print (h : ConsoleShows before text s) (call : PrintCall) :
    ∃ s', Reaches (fun n => call.run B n s) s' ∧ ConsoleShows before (text ++ call.text) s' := by
  obtain ⟨ts, hts, n, hn⟩ := (printsArguments_iff_aligned call.format_at call.sentinel).mpr call.aligned
  obtain rfl := texts_unique hts call.renders
  obtain ⟨s', ⟨n', hn'⟩, hshows⟩ := @ConsoleShows.putChars B _ _ _ h call.text
  refine ⟨s', ⟨max n n', fun fuel hfuel => ?_⟩, hshows⟩
  obtain ⟨hval, hputs, -⟩ := hn fuel (by omega)
  simp only [PrintCall.run, fmtPrint, performEvents_eq, performPuts_eq _ hputs, hval]
  have hchars : call.text.foldlM (OSForReal.putChar (uartIo B) fuel) s = .ok s' := hn' fuel (by omega)
  rw [PrintCall.text] at hchars
  rw [hchars]
  rfl

/-! ## Everything -/

/-- The console is ready: the screen is empty, and on the line there is a newline. -/
theorem kernelInitConsole_spec (B : UartBehaviour) (s : Console Uart) :
    ∃ s', Reaches (fun n => kernelInitConsole (uartIo B) n s) s' ∧
      ConsoleShows ((serialInit (uartIo B) s.machine).2.line ++ [serialFrame newline]) [] s' := by
  obtain ⟨terminal, hterminal, hshows⟩ := shows_init s.terminal
  obtain ⟨hinitted, hready, hempty⟩ := serialInit_spec B s.machine
  obtain ⟨machine, hmachine, hready', houtput⟩ := @serialWrite_spec B _ hready newline
  have hline : (serialInit (uartIo B) s.machine).2.output = (serialInit (uartIo B) s.machine).2.line := by
    rw [Uart.output, hempty]
    exact List.append_nil _
  refine ⟨⟨terminal, machine⟩, ?_, hshows, hready', ?_⟩
  · simp only [kernelInitConsole, hterminal, hinitted]
    exact (hmachine.reaches.bind (Reaches.ok _))
  · rw [houtput, hline]
    exact (List.append_nil _).symm

/-- `kernel_init` has the console ready, and any calls of `fmt_print` after it return. Then the serial line
gets a newline and the texts of all calls, in order and with nothing lost, and the screen shows the last 25
rows of the texts. -/
theorem console_prints (B : UartBehaviour) (s₀ : Console Uart) (calls : List PrintCall) :
    ∃ s, Reaches (fun n => kernelInitConsole (uartIo B) n s₀ >>= calls.foldlM fun s call => call.run B n s) s ∧
      (∃ j, ((Uart.elapse B)^[j] s.machine).line = (serialInit (uartIo B) s₀.machine).2.line ++
        (newline :: calls.flatMap PrintCall.text).map serialFrame) ∧
      ∀ y < vgaHeight, ∀ x < vgaWidth, s.terminal.buffer (y * vgaWidth + x) =
        vgaEntry (cell space ((layout vgaWidth newline (calls.flatMap PrintCall.text)).rows.rtake vgaHeight) y x)
          (vgaEntryColor vgaColorLightGrey vgaColorBlack) := by
  obtain ⟨s₁, hinit, hshows⟩ := kernelInitConsole_spec B s₀
  obtain ⟨s, hcalls, h⟩ := Reaches.foldlM (f := fun n s (call : PrintCall) => call.run B n s) (d := [])
    (I := fun done s => ConsoleShows ((serialInit (uartIo B) s₀.machine).2.line ++ [serialFrame newline])
      (done.flatMap PrintCall.text) s) hshows (fun done s call hs => by
        rw [List.flatMap_append, List.flatMap_singleton]
        exact hs.print call) calls
  rw [List.nil_append] at h
  refine ⟨s, hinit.bind hcalls, ?_, fun y hy x hx => ?_⟩
  · -- What is still to be sent is on the line in the end.
    obtain ⟨j, hj⟩ := Uart.exists_holding_eq_nil B h.ready.loopback
    have houtput := (@Uart.iterate_spec B _ h.ready.loopback (j + 1)).2.1
    refine ⟨j + 1, ?_⟩
    rw [Uart.output, hj, List.map_nil, List.append_nil, h.output, List.append_assoc] at houtput
    exact houtput
  · rw [← h.terminal.color]
    exact h.terminal.cells y hy x hx

/-- A port that sends a byte before every third access. -/
def everyThird : UartBehaviour where
  sends n := if n % 3 = 0 then 1 else 0
  sends_again n := ⟨3 * n, by omega, by rw [if_pos (Nat.mul_mod_right 3 n)]; decide⟩
  other _ := 0x41

/-- `fmt_print("%d", 7)` -/
def printSeven : PrintCall where
  m := Io.textAt (format [.specifier .none .d])
  stack := Io.stackOf [7]
  fmt := 0
  pieces := [.specifier .none .d]
  extra := 0
  texts := [[0x37]]
  format_at := Io.hasChars_textAt _
  sentinel := by decide
  aligned := ⟨⟨rfl, (by decide : (7 : Slot).toInt ≠ -2 ^ 31)⟩, fun j hj => absurd hj (Nat.not_lt_zero j), rfl⟩
  renders := .specifier (by decide : [0x37] = Io.signedText 7) .nil

/-- `fmt_print("!%x", 10)` -/
def printBang : PrintCall where
  m := Io.textAt (format [.literal 0x21 (by decide), .specifier .none .x])
  stack := Io.stackOf [10]
  fmt := 0
  pieces := [.literal 0x21 (by decide), .specifier .none .x]
  extra := 0
  texts := [[0x21], [0x41]]
  format_at := Io.hasChars_textAt _
  sentinel := by decide
  aligned := ⟨rfl, fun j hj => absurd hj (Nat.not_lt_zero j), rfl⟩
  renders := .literal (.specifier (by decide : [0x41] = Io.hexText 10) .nil)

/-- A port with another divisor, in 7 bits and without FIFOs, and a screen with characters on it. -/
def usedConsole : Console Uart :=
  ⟨⟨7, 70, 0x0F, fun _ => 0x1F58⟩, ⟨⟨0x0C, 0, 0x01, 0x02, 0, false⟩, [], [], [], 5⟩⟩

/-- Both calls on that console. -/
theorem console_prints_first : ∃ s, Reaches (fun n => kernelInitConsole (uartIo everyThird) n usedConsole >>=
      [printSeven, printBang].foldlM fun s call => call.run everyThird n s) s ∧
    (∃ j, ((Uart.elapse everyThird)^[j] s.machine).line = [newline, 0x37, 0x21, 0x41].map serialFrame) ∧
    [0, 1, 2, 3].map s.terminal.buffer = [0x37, 0x21, 0x41, space].map
      fun c => vgaEntry c (vgaEntryColor vgaColorLightGrey vgaColorBlack) := by
  obtain ⟨s, hreaches, ⟨j, hj⟩, hcells⟩ := console_prints everyThird usedConsole [printSeven, printBang]
  have hnothing : (serialInit (uartIo everyThird) usedConsole.machine).2.line = [] := by decide +kernel
  refine ⟨s, hreaches, ⟨j, ?_⟩, ?_⟩
  · rw [hj, hnothing]
    rfl
  · have hrow : ∀ x < 4, cell space ((layout vgaWidth newline ([printSeven, printBang].flatMap PrintCall.text)).rows.rtake
        vgaHeight) 0 x = [0x37, 0x21, 0x41, space].getD x 0 := by decide +kernel
    have hcell : ∀ x < 4, s.terminal.buffer x = vgaEntry ([0x37, 0x21, 0x41, space].getD x 0)
        (vgaEntryColor vgaColorLightGrey vgaColorBlack) := fun x hx => by
      rw [← hrow x hx, ← hcells 0 (by decide) x (Nat.lt_trans hx (by decide)), Nat.zero_mul, Nat.zero_add]
    simp only [List.map_cons, List.map_nil, hcell _ (by decide : 0 < 4), hcell _ (by decide : 1 < 4),
      hcell _ (by decide : 2 < 4), hcell _ (by decide : 3 < 4)]
    rfl

end OSForReal.Proof
