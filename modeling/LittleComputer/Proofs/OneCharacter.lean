import LittleComputer.Proofs.ScriptedKeyboard
import LittleComputer.Proofs.ServiceCall

/-!
# One character for each call

A call for a character takes exactly one key from the script of its console, or it takes none and
tells why: the machine was interrupted, or the terminal is at the end of its input. The call with a
prompt does the same, and echoes what it got.
-/

namespace LittleComputer

open InstructionSet (Trapped)
open Terminal (keyboardData displayData noCharacter)

/-! ## Characters of a terminal -/

namespace Terminal

/-- A terminal on a script gives a character: the one that it holds, or else the next key, with a
line feed for a carriage return. -/
structure Gives (t : Terminal) (c : Script) (skipped : List ScriptEntry) (b : Byte) (t' : Terminal)
    (c' : Script) : Prop where
  character :
    (t.ready = true ∧ b = t.buffer ∧ skipped = [] ∧ c'.entries = c.entries) ∨
      (t.ready = false ∧ ∃ key, c.entries = skipped ++ .key key :: c'.entries ∧
        b = if key = Byte.carriageReturn then Byte.newline else key)
  passed : ∀ e ∈ skipped, e = .pause ∨ e = .interrupt
  idle : c'.idle = c.idle
  terminal : t' = { t with buffer := b, ready := false }

/-- A terminal on a script gives nothing, because there was an interruption or because it is at the
end of its input. -/
structure Refuses (t : Terminal) (c : Script) (skipped : List ScriptEntry) (t' : Terminal)
    (c' : Script) : Prop where
  empty : t.ready = false
  entries : c.entries = skipped ++ c'.entries
  noKey : ∀ b, .key b ∉ skipped
  idle : c'.idle ≤ c.idle
  terminal : t' = { t with ended := t'.ended }
  cause : ScriptEntry.interrupt ∈ skipped ∨ t'.ended = true
  ended : t'.ended = true → t.ended = true ∨ .ended ∈ skipped ∨ (c'.entries = [] ∧ c'.idle = 0)

/-- What a terminal gives, if anything. Besides, there is nothing but messages when it gives
nothing. -/
inductive Answers (t : Terminal) (h : Host Script) (skipped : List ScriptEntry) :
    Option Byte → Terminal → Host Script → Prop where
  | gives {b : Byte} {t' : Terminal} {h' : Host Script}
    (hgives : t.Gives h.console skipped b t' h'.console)
    (houtput : h'.console.output = h.console.output) : Answers t h skipped (some b) t' h'
  | refuses {t' : Terminal} {h' : Host Script}
    (hrefuses : t.Refuses h.console skipped t' h'.console) (htold : h.Says h') :
    Answers t h skipped none t' h'

/-- A message more makes no difference to a terminal that gives nothing. -/
theorem Answers.report {t t' : Terminal} {h h' : Host Script} {skipped : List ScriptEntry}
    (ha : t.Answers h skipped none t' h') (hlog : h'.log = h.log) (s : Severity) (text : Text) :
    t.Answers h skipped none t' (h'.report s text) := by
  cases ha with
  | refuses hrefuses htold =>
    obtain ⟨hconsole, hmore⟩ := h'.report_script s text
    refine .refuses ?_ (htold.trans hlog hmore)
    rw [hconsole]
    exact { hrefuses with }

namespace Session

variable {s s' : Session Script}

/-- A session in which waiting came to an end. -/
theorem Settles.answers (h : s.Settles s') (hready : s.terminal.ready = false)
    (hrun : s.stop = .running) :
    ∃ skipped answer, s'.delivered.1 = Option.elim answer noCharacter Word.ofByte ∧
      s'.delivered.2.stop =
        (if ScriptEntry.interrupt ∈ skipped then .interrupted else .running) ∧
      s.terminal.Answers s.host skipped answer s'.delivered.2.terminal s'.delivered.2.host ∧
      s'.delivered.2.host.log = s.host.log := by
  rw [← hrun]
  rcases h with ⟨skipped, b, hfinds⟩ | ⟨skipped, hskips, hover⟩
  · have hready' : s'.terminal.ready = true := by rw [hfinds.terminal]
    obtain ⟨key, hkey, hb⟩ := hfinds.key
    rw [delivered, if_pos hready', hfinds.host]
    refine ⟨skipped, some b, by rw [hfinds.terminal]; rfl, hfinds.stop, .gives ?_ rfl, rfl⟩
    exact ⟨.inr ⟨hready, key, hkey, hb⟩, hfinds.passed, rfl, by rw [hfinds.terminal]⟩
  · have hready' : s'.terminal.ready = false := by rw [hskips.terminal, hready]
    rw [delivered, hready', if_neg Bool.false_ne_true]
    exact ⟨skipped, none, rfl, hskips.stop, .refuses
      ⟨hready, hskips.entries, hskips.noKey, hskips.idle, hskips.terminal, hover.symm, hskips.ended⟩
      hskips.told, hskips.log⟩

/-- Reading the data register of an attached terminal on a script does not fail. -/
theorem readRegister_script (name : Text) (hattached : s.terminal.attached = true)
    (hrun : s.stop = .running) :
    ∃ skipped answer s', s.readRegister name keyboardData =
        .ok (Option.elim answer noCharacter Word.ofByte, s') ∧
      s'.stop = (if ScriptEntry.interrupt ∈ skipped then .interrupted else .running) ∧
      s.terminal.Answers s.host skipped answer s'.terminal s'.host ∧
      s'.host.log = s.host.log := by
  cases hready : s.terminal.ready with
  | true =>
    refine ⟨[], some s.terminal.buffer, _, readRegister_data_of_ready hready name, hrun, ?_, rfl⟩
    exact .gives ⟨.inl ⟨hready, rfl, rfl, rfl⟩, by simp, rfl, rfl⟩ rfl
  | false =>
    have hsettled : ∃ s', s.Settles s' ∧ s.readRegister name keyboardData = .ok s'.delivered := by
      rw [readRegister_data]
      cases hended : s.terminal.ended with
      | true =>
        have hover : s.Settles s := .inr ⟨[], .refl s, .inl hended⟩
        exact ⟨s, hover, await_eq_delivered (hover.not_waiting hattached) name _⟩
      | false => exact await_script name hready hended hattached hrun (Nat.lt_succ_self _)
    obtain ⟨s', hsettles, hread⟩ := hsettled
    obtain ⟨skipped, answer, hword, hrest⟩ := hsettles.answers hready hrun
    exact ⟨skipped, answer, s'.delivered.2, by rw [hread, ← hword], hrest⟩

end Session

end Terminal

/-! ## Reading a character -/

namespace Machine

/-- The machine asked its terminal `d` for a character, and stops if there is none. -/
structure AskedFor (m : Machine Script) (d : DeviceId) (device : Device) (t : Terminal)
    (skipped : List ScriptEntry) (answer : Option Byte) (m' : Machine Script) : Prop where
  cpu : m'.cpu = { m.cpu with
    stop := if ScriptEntry.interrupt ∈ skipped then .interrupted
      else if answer.isSome then .running else .endOfInput }
  memory : m'.memory = m.memory
  map : m'.map = m.map
  terminal : ∃ t', m'.device? d = some { device with kind := .terminal t' } ∧
    t.Answers m.host skipped answer t' m'.host

variable {m : Machine Script} {d : DeviceId} {device : Device} {t : Terminal}

theorem readChar_script (hdata : m.Reaches keyboardData d) (hdevice : m.device? d = some device)
    (hkind : device.kind = .terminal t) (hattached : t.attached = true)
    (hrun : m.cpu.stop = .running) :
    ∃ skipped answer m', Routine.readChar.run m = .ok (answer, m') ∧
      m.AskedFor d device t skipped answer m' := by
  obtain ⟨skipped, answer, s', hread, hstop, hanswers, hlog⟩ :=
    Terminal.Session.readRegister_script (s := ⟨t, m.cpu.stop, m.host⟩) device.name hattached hrun
  have hterminal := afterSession_device? hdevice s'
  refine ⟨skipped, answer, ?_⟩
  rw [Routine.readChar, Routine.run_bind, Routine.run_load, load_terminal hdata hdevice hkind hread]
  cases answer with
  | some b =>
    dsimp only [Option.elim]
    rw [if_neg (show Word.ofByte b ≠ Word.allOnes from Terminal.ofByte_ne_noCharacter b)]
    refine ⟨m.afterSession d device s', by rw [Routine.run_pure, Word.lowByte_ofByte],
      ?_, rfl, rfl, _, hterminal, hanswers⟩
    show { m.cpu with stop := s'.stop } = _
    rw [hstop]
    rfl
  | none =>
    dsimp only [Option.elim]
    rw [if_pos (show noCharacter = Word.allOnes from rfl), Routine.run_bind, Routine.run_look]
    dsimp only
    rw [show (m.afterSession d device s').cpu.stop = s'.stop from rfl, hstop]
    by_cases hinterrupt : ScriptEntry.interrupt ∈ skipped
    · rw [if_pos hinterrupt] at hstop ⊢
      refine ⟨m.afterSession d device s', rfl, ?_, rfl, rfl, _, hterminal, hanswers⟩
      show { m.cpu with stop := s'.stop } = _
      rw [hstop, if_pos hinterrupt]
    · rw [if_neg hinterrupt, if_pos rfl, Routine.run_bind, Routine.run_warn]
      refine ⟨_, rfl, ?_, rfl, rfl, _, hterminal, hanswers.report hlog .warning _⟩
      rw [if_neg hinterrupt]
      rfl

/-! ## Calls for a character -/

/-- How a call for a character ends that writes `prompt` in front, and `echo b` once it has `b`. -/
structure Answered (m : Machine Script) (d : DeviceId) (device : Device) (t : Terminal)
    (prompt : List Byte) (echo : Byte → List Byte) (m' : Machine Script) : Prop where
  trapped : Trapped m m'
  memory : m'.memory = m.memory
  outcome :
    (∃ skipped b t', t.Gives m.host.console skipped b t' m'.host.console ∧
      m'.device? d = some { device with kind := .terminal t' } ∧
      m'.cpu.register 0 = Word.ofByte b ∧
      m'.cpu.stop = (if ScriptEntry.interrupt ∈ skipped then .interrupted else .running) ∧
      m'.host.console.output = m.host.console.output ++ (prompt ++ echo b)) ∨
    ∃ skipped t', t.Refuses m.host.console skipped t' m'.host.console ∧
      m'.device? d = some { device with kind := .terminal t' } ∧
      m'.cpu.register 0 = m.cpu.register 0 ∧
      m'.cpu.stop = (if ScriptEntry.interrupt ∈ skipped then .interrupted else .endOfInput) ∧
      ∃ messages : List Byte,
        m'.host.console.output = m.host.console.output ++ (prompt ++ messages) ∧
          (m.host.Quiet → messages = [])

theorem trapped_of_serves {m m' : Machine Script} (h : m.called.cpu.Serves m'.cpu) :
    Trapped m m' where
  link := (h.registers 7 (by decide)).trans (Table.get_set_self _ _ _)
  registers r h0 h7 := (h.registers r h0).trans (m.called_register h7)
  pc := h.pc
  condition := h.condition
  lastPc := h.lastPc
  executed := h.executed
  stopOnIllegal := h.stopOnIllegal

variable {skipped : List ScriptEntry} {b : Byte} {m₁ m₂ m₃ : Machine Script} {prompt : List Byte}
  {echo : Byte → List Byte}

theorem Displays.script {m m' : Machine Script} {bytes : List Byte} (h : m.Displays bytes m') :
    m'.host = { m.host with console :=
      { m.host.console with output := m.host.console.output ++ bytes } } := by
  rw [h.host, Script.shown]

theorem answered_none (hprompt : m.called.Displays prompt m₁)
    (hasked : m₁.AskedFor d device t skipped none m₂) : m.Answered d device t prompt echo m₂ := by
  have hhost : m₁.host = { m.host with console :=
      { m.host.console with output := m.host.console.output ++ prompt } } := hprompt.script
  have hcpu : m₂.cpu = m.called.cpu.breakWith
      (if ScriptEntry.interrupt ∈ skipped then .interrupted else .endOfInput) := by
    rw [hasked.cpu, hprompt.cpu]
    rfl
  have hserves : m.called.cpu.Serves m₂.cpu := by
    rw [hcpu]
    exact Cpu.serves_breakWith _ _
  obtain ⟨t', hterminal, hanswers⟩ := hasked.terminal
  refine ⟨trapped_of_serves hserves, hasked.memory.trans hprompt.memory, .inr ⟨skipped, t', ?_⟩⟩
  cases hanswers with
  | refuses hrefuses htold =>
    obtain ⟨messages, houtput, hquiet⟩ := htold
    rw [hhost] at hrefuses houtput
    refine ⟨{ hrefuses with }, hterminal, ?_, ?_, messages, ?_, fun hq => hquiet ?_⟩
    · rw [hcpu]
      exact m.called_register (by decide)
    · rw [hcpu]
      rfl
    · rw [houtput, ← Script.output_append]
    · rwa [hhost]

theorem answered_some (hprompt : m.called.Displays prompt m₁)
    (hasked : m₁.AskedFor d device t skipped (some b) m₂) (hecho : m₂.Displays (echo b) m₃) :
    m.Answered d device t prompt echo
      { m₃ with cpu := m₃.cpu.setRegister 0 (Word.ofByte b) } := by
  have hhost : m₁.host = { m.host with console :=
      { m.host.console with output := m.host.console.output ++ prompt } } := hprompt.script
  have hcpu : m₃.cpu = m.called.cpu.breakWith
      (if ScriptEntry.interrupt ∈ skipped then .interrupted else .running) := by
    rw [hecho.cpu, hasked.cpu, hprompt.cpu]
    rfl
  have hserves : m.called.cpu.Serves (m₃.cpu.setRegister 0 (Word.ofByte b)) := by
    rw [hcpu]
    exact (Cpu.serves_breakWith _ _).trans (Cpu.serves_setRegister _ _)
  obtain ⟨t', hterminal, hanswers⟩ := hasked.terminal
  refine ⟨trapped_of_serves hserves, ?_, .inl ⟨skipped, b, t', ?_⟩⟩
  · exact hecho.memory.trans (hasked.memory.trans hprompt.memory)
  cases hanswers with
  | gives hgives houtput =>
    rw [hhost] at hgives houtput
    refine ⟨?_, (hecho.devices d).trans hterminal, Table.get_set_self _ _ _, ?_, ?_⟩
    · show t.Gives _ _ _ _ m₃.host.console
      rw [hecho.script]
      exact { hgives with }
    · show m₃.cpu.stop = _
      rw [hcpu]
      rfl
    · show m₃.host.console.output = _
      rw [hecho.script, ← Script.output_append, houtput]

/-- A call for a character takes exactly one, or fails and takes none. The register for the result,
the stop code and the console tell which, and nothing else changes. -/
theorem character_answered (hdata : m.Reaches keyboardData d) (hdisplay : m.Reaches displayData d)
    (hdevice : m.device? d = some device) (hkind : device.kind = .terminal t)
    (hattached : t.attached = true) :
    (∀ w : Word, w.Calls .readChar → ∃ m', execute w m = .ok (m'.cpu.stop, m') ∧
      m.Answered d device t [] (fun _ => []) m') ∧
    ∀ w : Word, w.Calls .promptChar → ∃ m', execute w m = .ok (m'.cpu.stop, m') ∧
      m.Answered d device t Routine.prompt (fun b => [b]) m' := by
  refine ⟨fun w hw => ?_, fun w hw => ?_⟩
  · obtain ⟨skipped, answer, m₂, hread, hasked⟩ :=
      readChar_script (m := m.called) hdata hdevice hkind hattached rfl
    rw [execute_service hw, Routine.serve, Routine.run_bind, hread]
    cases answer with
    | none => exact ⟨m₂, rfl, answered_none (.refl _) hasked⟩
    | some b => exact ⟨_, rfl, answered_some (.refl _) hasked (.refl _)⟩
  · have hshows : m.called.HasDisplay d := ⟨hdisplay, device, t, hdevice, hkind⟩
    obtain ⟨m₁, hprompt, hshown⟩ := hshows.writeChars Routine.prompt
    have hdata₁ : m₁.Reaches keyboardData d := by
      rw [Reaches, hshown.memory, hshown.map]
      exact hdata
    obtain ⟨skipped, answer, m₂, hread, hasked⟩ := readChar_script hdata₁
      ((hshown.devices d).trans hdevice) hkind hattached (by rw [hshown.cpu]; rfl)
    rw [execute_service hw, Routine.serve, Routine.run_bind, hprompt]
    dsimp only
    rw [Routine.run_bind, hread]
    cases answer with
    | none => exact ⟨m₂, rfl, answered_none hshown hasked⟩
    | some b =>
      have hshows₂ : m₂.HasDisplay d := by
        obtain ⟨t', hterminal, -⟩ := hasked.terminal
        refine ⟨?_, _, t', hterminal, rfl⟩
        rw [Reaches, hasked.memory, hasked.map, hshown.memory, hshown.map]
        exact hdisplay
      obtain ⟨m₃, hecho, hechoed⟩ := hshows₂.writeChar b
      dsimp only
      rw [Routine.run_bind, hecho]
      exact ⟨_, rfl, answered_some hshown hasked hechoed⟩

/-- A call for a character that finds an interruption and all ones behind it, and a call with a
prompt that finds the end of the input behind a pause. -/
theorem character_answered_interrupt :
    ∃ m m' n n' : Machine Script,
      m.host.console.entries = [.pause, .interrupt, .key 0xFF, .key 0x0D] ∧
      execute 0xF020 m = .ok (.interrupted, m') ∧ m'.cpu.register 0 = 0x00FF ∧
      m.Answered 0 (.newTerminal "CON" true) (.new true) [] (fun _ => []) m' ∧
      n.host.console.entries = [.pause] ∧
      execute 0xF023 n = .ok (.endOfInput, n') ∧
      n'.host.console.output = (Routine.prompt : List Byte).toArray ∧
      n.Answered 0 (.newTerminal "CON" true) (.new true) Routine.prompt (fun b => [b]) n' := by
  let m := sample [] [.pause, .interrupt, .key 0xFF, .key 0x0D]
  let n := sample [] [.pause]
  obtain ⟨m', hm, hmends⟩ := (character_answered (m := m) (d := 0) ⟨by decide, by decide, by decide⟩
    ⟨by decide, by decide, by decide⟩ rfl rfl rfl).1 0xF020 (by decide)
  obtain ⟨n', hn, hnends⟩ := (character_answered (m := n) (d := 0) ⟨by decide, by decide, by decide⟩
    ⟨by decide, by decide, by decide⟩ rfl rfl rfl).2 0xF023 (by decide)
  have hmresult : (execute 0xF020 m).toOption.map (fun x => (x.1, x.2.cpu.register 0)) =
      some (.interrupted, 0x00FF) := by
    decide +kernel
  have hnresult : (execute 0xF023 n).toOption.map (fun x => (x.1, x.2.host.console.output)) =
      some (.endOfInput, (Routine.prompt : List Byte).toArray) := by
    decide +kernel
  rw [hm] at hmresult
  rw [hn] at hnresult
  obtain ⟨hmstop, hmregister⟩ := Prod.mk.inj (Option.some.inj hmresult)
  obtain ⟨hnstop, hnoutput⟩ := Prod.mk.inj (Option.some.inj hnresult)
  rw [show m'.cpu.stop = _ from hmstop] at hm
  rw [show n'.cpu.stop = _ from hnstop] at hn
  exact ⟨m, m', n, n', rfl, hm, hmregister, hmends, rfl, hn, hnoutput, hnends⟩

end Machine

end LittleComputer
