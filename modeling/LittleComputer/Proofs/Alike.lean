import LittleComputer.Proofs.Masking
import LittleComputer.Proofs.Messages

/-!
# Machines that look alike

Two machines look alike if no instruction can tell them apart. They may differ in how many
instructions they have executed, in their files and in what was written to the standard error
output, and their consoles need only answer alike. Whatever one of them does the other one does
too, and afterwards they look alike again.
-/

namespace LittleComputer

variable {κ : Type} [Console κ]

/-! ## Consoles -/

/-- Related consoles give the same answers, and stay related whatever is done to both. -/
structure Console.Bisimulation (S : κ → κ → Prop) : Prop where
  takeBreak : ∀ {c c'}, S c c' → (takeBreak c).1 = (takeBreak c').1 ∧
    S (takeBreak c).2 (takeBreak c').2
  read : ∀ {c c'} timeout, S c c' → (read c timeout).1 = (read c' timeout).1 ∧
    S (read c timeout).2 (read c' timeout).2
  write : ∀ {c c'} bytes, S c c' → S (write c bytes) (write c' bytes)
  message : ∀ {c c'} text, S c c' → S (message c text) (message c' text)
  patience : ∀ {c c'}, S c c' → patience c = patience c'

theorem Console.bisimulation_eq : Bisimulation (Eq : κ → κ → Prop) where
  takeBreak := by
    rintro c c' rfl
    exact ⟨rfl, rfl⟩
  read := by
    rintro c c' timeout rfl
    exact ⟨rfl, rfl⟩
  write := by
    rintro c c' bytes rfl
    rfl
  message := by
    rintro c c' text rfl
    rfl
  patience := by
    rintro c c' rfl
    rfl

/-! ## Hosts -/

namespace Host

/-- The same log, and related consoles. -/
structure Alike (S : κ → κ → Prop) (log : Option Log) (h h' : Host κ) : Prop where
  console : S h.console h'.console
  left : h.log = log
  right : h'.log = log

namespace Alike

variable {S : κ → κ → Prop} {log : Option Log} {h h' : Host κ}

theorem report (ha : Alike S log h h') (hS : Console.Bisimulation S) (s : Severity) (text : Text) :
    Alike S log (h.report s text) (h'.report s text) := by
  refine ⟨?_, (h.report_log s text).trans ha.left, (h'.report_log s text).trans ha.right⟩
  rw [h.report_shown s text, h'.report_shown s text, ha.left, ha.right]
  split
  · split
    · exact hS.message _ ha.console
    · exact ha.console
  · exact ha.console

/-- A hidden message to one of the hosts makes no difference. -/
theorem report_hidden (ha : Alike S log h h') {s : Severity} (hs : h.Hides s S) (text : Text) :
    Alike S log (h.report s text) h' :=
  ⟨hs.report ha.console text, (h.report_log s text).trans ha.left, ha.right⟩

omit [Console κ] in
theorem of_console (ha : Alike S log h h') {c c' : κ} (hc : S c c') :
    Alike S log { h with console := c } { h' with console := c' } :=
  ⟨hc, ha.left, ha.right⟩

end Alike

theorem bisimulation_alike {S : κ → κ → Prop} (hS : Console.Bisimulation S) (log : Option Log) :
    Bisimulation (Alike S log) where
  takeBreak ha := ⟨(hS.takeBreak ha.console).1, ha.of_console (hS.takeBreak ha.console).2⟩
  read timeout ha :=
    ⟨(hS.read timeout ha.console).1, ha.of_console (hS.read timeout ha.console).2⟩
  write bytes ha := ha.of_console (hS.write bytes ha.console)
  report s text ha := ha.report hS s text
  patience ha := hS.patience ha.console

end Host

/-! ## Machines -/

/-- The same processor apart from the number of instructions executed. -/
def Cpu.SameButCount (c c' : Cpu) : Prop := c' = { c with executed := c'.executed }

theorem Cpu.masks_sameButCount : Masks SameButCount where
  same {c c'} h := by
    have hflag : c'.stopOnIllegal = c.stopOnIllegal := by rw [h]
    rw [hflag]
    exact h
  changed {c c' f} hf h := by
    have hc : f c' = { f c with executed := c'.executed, stopOnIllegal := c.stopOnIllegal } := by
      rw [h]
      exact hf c c'.executed c.stopOnIllegal
    rw [SameButCount, hf.executed c', hc, ← hf.stopOnIllegal c]

namespace Machine

/-- The same machine apart from the number of instructions executed and from the host. -/
structure Alike (S : κ → κ → Prop) (log : Option Log) (m m' : Machine κ) : Prop where
  cpu : m'.cpu = { m.cpu with executed := m'.cpu.executed }
  memory : m'.memory = m.memory
  map : m'.map = m.map
  devices : m'.devices = m.devices
  host : m.host.Alike S log m'.host

/-- Both have a result, the results are equal, and the machines look alike. -/
abbrev AgreeAlike {α : Type} (S : κ → κ → Prop) (log : Option Log)
    (x y : Except Fault (α × Machine κ)) : Prop :=
  Agree (fun p q => p.1 = q.1 ∧ p.2.Alike S log q.2) x y

namespace Alike

variable {S : κ → κ → Prop} {log : Option Log} {m m' : Machine κ}

omit [Console κ] in
theorem pc (ha : m.Alike S log m') : m'.cpu.pc = m.cpu.pc := by rw [ha.cpu]

omit [Console κ] in
theorem stop (ha : m.Alike S log m') : m'.cpu.stop = m.cpu.stop := by rw [ha.cpu]

omit [Console κ] in
theorem iff_related :
    m.Alike S log m' ↔ m.Related Cpu.SameButCount (Host.Alike S log) m' :=
  ⟨fun h => ⟨h.cpu, h.memory, h.map, h.devices, h.host⟩,
    fun h => ⟨h.cpu, h.memory, h.map, h.devices, h.host⟩⟩

end Alike

end Machine

/-! ## Instructions -/

/-- No instruction can tell machines apart that look alike. -/
theorem Routine.perform_alike {S : κ → κ → Prop} {log : Option Log} (hS : Console.Bisimulation S)
    (i : Instruction) {m m' : Machine κ} (ha : m.Alike S log m') :
    Machine.AgreeAlike S log ((perform i).run m) ((perform i).run m') := by
  have hflag : ∀ c c', Cpu.SameButCount c c' → c'.stopOnIllegal = c.stopOnIllegal := by
    intro c c' hc
    rw [hc]
  have hrespects := perform_respects Cpu.masks_sameButCount (i := i) (.inr hflag)
  have hagree := hrespects.run Cpu.masks_sameButCount.bisimulation
    (Host.bisimulation_alike hS log) (Machine.Alike.iff_related.mp ha)
  exact hagree.mono fun h => ⟨h.1, Machine.Alike.iff_related.mpr h.2⟩

end LittleComputer
