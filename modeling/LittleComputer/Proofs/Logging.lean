import LittleComputer.Proofs.Bisimulation
import LittleComputer.Proofs.Messages
import LittleComputer.Proofs.Sample
import LittleComputer.Proofs.Trail

/-!
# Logging

A log that does not use the console gets messages and gives nothing back. Whatever is done with two
machines that differ only in such logs, the answers are the same, and so is everything but the text
in the log files and in the standard error output. The one thing that is left out here is loading an
image, because an image can be a log file.
-/

namespace LittleComputer

variable {κ : Type}

/-! ## Logs apart from the console -/

namespace Host

/-- No message comes to the console. -/
def Quiet (h : Host κ) : Prop := ∀ l, h.log = some l → l.toConsole = false

/-- Equal consoles that no message comes to. Logs and files do not matter. -/
structure SameConsole (h h' : Host κ) : Prop where
  console : h'.console = h.console
  left : h.Quiet
  right : h'.Quiet

theorem SameConsole.of_console {h h' : Host κ} (hs : h.SameConsole h') {c c' : κ} (hc : c' = c) :
    SameConsole { h with console := c } { h' with console := c' } :=
  ⟨hc, hs.left, hs.right⟩

variable [Console κ] {h : Host κ}

theorem Quiet.report (hq : h.Quiet) (s : Severity) (text : Text) : (h.report s text).Quiet := by
  intro l hl
  rw [report_log] at hl
  exact hq l hl

/-- Where no message comes to the console, a report leaves the console as it is. -/
theorem Quiet.report_console (hq : h.Quiet) (s : Severity) (text : Text) :
    (h.report s text).console = h.console := by
  rw [report_shown]
  split
  · rename_i l hl
    rw [hq l hl, Bool.and_false]
    rfl
  · rfl

/-- Hosts with equal consoles that no message comes to cannot be told apart, whatever their logs. -/
theorem bisimulation_sameConsole : Bisimulation (SameConsole : Host κ → Host κ → Prop) where
  takeBreak {h h'} hs := by
    rw [hs.console]
    exact ⟨rfl, hs.of_console rfl⟩
  read {h h'} timeout hs := by
    rw [hs.console]
    exact ⟨rfl, hs.of_console rfl⟩
  write {h h'} bytes hs := by
    rw [hs.console]
    exact hs.of_console rfl
  report {h h'} s text hs := by
    refine ⟨?_, hs.left.report s text, hs.right.report s text⟩
    rw [hs.left.report_console, hs.right.report_console, hs.console]
  patience {h h'} hs := by rw [hs.console]

end Host

/-! ## Runs of related machines -/

theorem Cpu.bisimulation_eq : Bisimulation Eq where
  stop h := congrArg Cpu.stop h.symm
  stopWith reason h := congrArg (fun c : Cpu => { c with stop := reason }) h

namespace Machine

variable [Console κ] {H : Host κ → Host κ → Prop} {m m' : Machine κ}

namespace Related

omit [Console κ] in
theorem stopWith (hr : m.Related Eq H m') (c : StopCode) :
    (m.stopWith c).Related Eq H (m'.stopWith c) :=
  ⟨congrArg (·.breakWith c) hr.cpu, hr.memory, hr.map, hr.devices, hr.host⟩

theorem routine {α : Type} (hr : m.Related Eq H m') (hH : Host.Bisimulation H) (r : Routine α) :
    AgreeRelated Eq H (r.run m) (r.run m') :=
  r.respects_eq.run Cpu.bisimulation_eq hH hr

theorem steps (hr : m.Related Eq H m') (hH : Host.Bisimulation H) (n : Nat) (first : Bool) :
    AgreeRelated Eq H (steps n first m) (steps n first m') := by
  induction n generalizing first m m' with
  | zero => exact .ok ⟨rfl, hr⟩
  | succ n ih =>
    rw [steps_succ, steps_succ, hr.memory, ← hr.cpu]
    split
    · exact .error _
    · exact .ok ⟨rfl, hr.stopWith .breakpoint⟩
    · rcases (hr.routine hH Routine.step).inv with ⟨e, hx, hy⟩ | ⟨x, y, hx, hy, -, hr₁⟩
      · rw [step, hx, hy]
        exact .error e
      · rw [step, hx, hy]
        dsimp only
        rw [← hr₁.cpu]
        split
        · exact ih hr₁ false
        · exact .ok ⟨rfl, hr₁⟩

/-- Runs of related machines end with the same stop code or fault, and leave related machines. -/
theorem run (hr : m.Related Eq H m') (hH : Host.Bisimulation H) (limit : BitVec 32)
    (budget : Nat) : AgreeRelated Eq H (run limit budget m) (run limit budget m') := by
  rw [run_eq, run_eq]
  rcases ((hr.stopWith .running).steps hH _ true).inv with
    ⟨e, hx, hy⟩ | ⟨⟨answer, m₁⟩, ⟨answer', m₁'⟩, hx, hy, hanswer, hr₁⟩
  · rw [hx, hy]
    exact .error e
  · obtain rfl : answer = answer' := hanswer
    rw [hx, hy]
    cases answer with
    | some c => exact .ok ⟨rfl, hr₁⟩
    | none =>
      dsimp only
      split
      · exact .error _
      · exact .ok ⟨rfl, hr₁.stopWith .finished⟩

end Related

end Machine

/-! ## Clients -/

/-- One use of a machine from outside, with the type of its answer. -/
inductive Call : Type → Type 1 where
  | execute (w : Word) : Call StopCode
  | run (limit : BitVec 32) (budget : Nat) : Call StopCode
  | load (a : Word) : Call Word
  | store (a w : Word) : Call Unit
  | installDevice (d : DeviceId) : Call Bool
  | removeDevice (d : DeviceId) : Call Bool
  | addDevice (d : DeviceId) (device : Device) : Call Unit
  | clearDevice (d : DeviceId) : Call Unit
  /-- Read a register of a device, installed or not. -/
  | readDevice (d : DeviceId) (a : Word) : Call Word
  | writeDevice (d : DeviceId) (a w : Word) : Call Unit
  | modifyCpu (f : Cpu → Cpu) : Call Unit
  | modifyMemory (f : Memory → Except Fault Memory) : Call Unit
  /-- Look at the whole machine, apart from the world around it. -/
  | inspect : Call (Cpu × Memory × DeviceMap × List (DeviceId × Device))

/-- Calls one after the other, in which the answers decide how to go on, and a result. -/
inductive Client (α : Type) : Type 1 where
  | done (a : α)
  | call {β : Type} (c : Call β) (next : β → Client α)

namespace Machine

/-- The same machine with the same console. Logs, files and the standard error output may differ. -/
structure SameButLog (m m' : Machine κ) : Prop where
  cpu : m'.cpu = m.cpu
  memory : m'.memory = m.memory
  map : m'.map = m.map
  devices : m'.devices = m.devices
  console : m'.host.console = m.host.console

theorem SameButLog.related {m m' : Machine κ} (h : m.SameButLog m') (hm : m.host.Quiet)
    (hm' : m'.host.Quiet) : m.Related Eq Host.SameConsole m' :=
  ⟨h.cpu.symm, h.memory, h.map, h.devices, h.console, hm, hm'⟩

theorem Related.sameButLog {m m' : Machine κ} (h : m.Related Eq Host.SameConsole m') :
    m.SameButLog m' :=
  ⟨h.cpu.symm, h.memory, h.map, h.devices, h.host.console⟩

end Machine

variable [Console κ] {α β : Type}

def Call.perform : Call β → Action κ β
  | execute w => Machine.execute w
  | run limit budget => Machine.run limit budget
  | load a => Machine.load a
  | store a w => Machine.store a w
  | installDevice d => Machine.installDevice d
  | removeDevice d => Machine.removeDevice d
  | addDevice d device => fun m => .ok ((), m.addDevice d device)
  | clearDevice d => Machine.clearDevice d
  | readDevice d a => Machine.readDevice d a
  | writeDevice d a w => Machine.writeDevice d a w
  | modifyCpu f => Machine.modifyCpu f
  | modifyMemory f => Machine.modifyMemory f
  | inspect => fun m => .ok ((m.cpu, m.memory, m.map, m.devices), m)

def Client.run : Client α → Action κ α
  | done a => fun m => .ok (a, m)
  | call c next => fun m =>
    match c.perform m with
    | .ok (b, m) => (next b).run m
    | .error e => .error e

namespace Machine.Related

variable {H : Host κ → Host κ → Prop} {m m' : Machine κ}

omit [Console κ] in
theorem installDevice (hr : m.Related Eq H m') (d : DeviceId) :
    AgreeRelated Eq H (installDevice d m) (installDevice d m') := by
  unfold Machine.installDevice
  rw [device?_of_devices hr.devices, hr.map, hr.memory]
  split
  · exact .error _
  · split
    · exact .error _
    · exact .ok ⟨rfl, hr⟩
    · split
      · exact .error _
      · exact .ok ⟨rfl, hr.cpu, rfl, rfl, hr.devices, hr.host⟩

omit [Console κ] in
theorem removeDevice (hr : m.Related Eq H m') (d : DeviceId) :
    AgreeRelated Eq H (removeDevice d m) (removeDevice d m') := by
  unfold Machine.removeDevice
  rw [device?_of_devices hr.devices, hr.map, hr.memory]
  split
  · exact .error _
  · split
    · exact .ok ⟨rfl, hr⟩
    · split
      · exact .error _
      · exact .ok ⟨rfl, hr.cpu, rfl, rfl, hr.devices, hr.host⟩

omit [Console κ] in
theorem clearDevice (hr : m.Related Eq H m') (d : DeviceId) :
    AgreeRelated Eq H (clearDevice d m) (clearDevice d m') := by
  rw [Machine.clearDevice, action_bind, action_bind, getDevice, getDevice,
    device?_of_devices hr.devices]
  cases m.device? d with
  | none => exact .error _
  | some device =>
    refine .ok ⟨rfl, hr.cpu, hr.memory, hr.map, ?_, hr.host⟩
    show List.map _ m'.devices = List.map _ m.devices
    rw [hr.devices]

/-- Related machines answer every call in the same way. -/
theorem call (hr : m.Related Eq H m') (hH : Host.Bisimulation H) (c : Call β) :
    AgreeRelated Eq H (c.perform m) (c.perform m') := by
  cases c with
  | execute w => exact hr.routine hH (Routine.execute w)
  | run limit budget => exact hr.run hH limit budget
  | load a => exact hr.load Cpu.bisimulation_eq hH a
  | store a w => exact hr.store hH a w
  | installDevice d => exact hr.installDevice d
  | removeDevice d => exact hr.removeDevice d
  | addDevice d device =>
    refine .ok ⟨rfl, hr.cpu, hr.memory, hr.map, ?_, hr.host⟩
    show _ :: List.filter _ m'.devices = _ :: List.filter _ m.devices
    rw [hr.devices]
  | clearDevice d => exact hr.clearDevice d
  | readDevice d a => exact hr.readDevice Cpu.bisimulation_eq hH d a
  | writeDevice d a w => exact hr.writeDevice hH d a w
  | modifyCpu f => exact .ok ⟨rfl, congrArg f hr.cpu, hr.memory, hr.map, hr.devices, hr.host⟩
  | modifyMemory f =>
    show AgreeRelated Eq H (Machine.modifyMemory f m) (Machine.modifyMemory f m')
    rw [Machine.modifyMemory, Machine.modifyMemory, hr.memory]
    cases f m.memory with
    | error e => exact .error e
    | ok memory => exact .ok ⟨rfl, hr.cpu, rfl, hr.map, hr.devices, hr.host⟩
  | inspect =>
    refine .ok ⟨?_, hr⟩
    rw [hr.cpu, hr.memory, hr.map, hr.devices]

/-- An adaptive client sees the same answers, and so makes the same calls, by induction on it. -/
theorem client (hr : m.Related Eq H m') (hH : Host.Bisimulation H) (p : Client α) :
    AgreeRelated Eq H (p.run m) (p.run m') := by
  induction p generalizing m m' with
  | done a => exact .ok ⟨rfl, hr⟩
  | call c next ih =>
    rw [Client.run]
    dsimp only
    rcases (hr.call hH c).inv with ⟨e, hx, hy⟩ | ⟨⟨b, m₁⟩, ⟨b', m₁'⟩, hx, hy, hb, hr₁⟩
    · rw [hx, hy]
      exact .error e
    · obtain rfl : b = b' := hb
      rw [hx, hy]
      exact ih b hr₁

end Machine.Related

/-- Logging changes nothing but log text. Two machines that are the same apart from their logs
answer all calls in the same way, fail in the same way, and are the same apart from their logs
afterwards, whether or not they have logs, and whatever severities these log. -/
theorem Client.run_sameButLog (p : Client α) {m m' : Machine κ} (hsame : m.SameButLog m')
    (hm : m.host.Quiet) (hm' : m'.host.Quiet) :
    Agree (fun x y => x.1 = y.1 ∧ x.2.SameButLog y.2) (p.run m) (p.run m') :=
  ((hsame.related hm hm').client Host.bisimulation_sameConsole p).mono fun h =>
    ⟨h.1, h.2.sameButLog⟩

/-- A program that echoes a character and comes to a reserved instruction, without a log and with
one that takes every message. Afterwards another character is waiting. -/
theorem Client.run_sameButLog_traced :
    ∃ (p : Client (StopCode × Word)) (m m' : Machine Script) (l : Log),
      p = .call (.run 0 9) (fun c => .call (.load 0xFE00) fun w => .done (c, w)) ∧
      m.host.log = none ∧ m'.host.log = some l ∧ l.level = .trace ∧ l.file.isSome ∧
      ∃ x y, p.run m = .ok x ∧ p.run m' = .ok y ∧ x.1 = (.illegalOpcode, 0x8000) ∧ x.1 = y.1 ∧
        x.2.SameButLog y.2 ∧ x.2.host.console.output = #[0x41] ∧
        x.2.host.errors.size = 0 ∧ y.2.host.errors.size ≠ 0 := by
  let p : Client (StopCode × Word) :=
    .call (.run 0 9) fun c => .call (.load 0xFE00) fun w => .done (c, w)
  let m := Machine.sample [0xF020, 0xF021, 0xD000] [.key 0x41, .key 0x42]
  let file : LogFile := { path := ["log"], name := "log", level := .debug }
  let l : Log := { program := "LC3", toConsole := false, level := .trace, file := some file }
  let files := (FileStore.empty []).addFile "log" ⟨#[], none⟩
  let m' := { m with host := { m.host with log := some l, files } }
  have hx := Machine.eq_ok_of_result (x := p.run m) (a := (.illegalOpcode, 0x8000)) m
    (by decide +kernel)
  have hy := Machine.eq_ok_of_result (x := p.run m') (a := (.illegalOpcode, 0x8000)) m'
    (by decide +kernel)
  have hquiet : m'.host.Quiet := by
    intro l' hl
    obtain rfl : l = l' := Option.some.inj hl
    rfl
  have hstart : m.SameButLog m' := ⟨rfl, rfl, rfl, rfl, rfl⟩
  have hagree := p.run_sameButLog hstart nofun hquiet
  rw [hx, hy] at hagree
  rcases hagree.inv with ⟨e, he, -⟩ | ⟨x, y, hx', hy', hanswer, hsame⟩
  · cases he
  · cases hx'
    cases hy'
    refine ⟨p, m, m', l, rfl, rfl, rfl, rfl, rfl, _, _, hx, hy, rfl, rfl, hsame, ?_, ?_, ?_⟩
    · decide +kernel
    · decide +kernel
    · decide +kernel

end LittleComputer
