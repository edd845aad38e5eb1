import LittleComputer.Proofs.CharacterCalls
import LittleComputer.Proofs.DeviceAccess

/-!
# Calls of services

A trap keeps its return address and then carries out a service. The services reach the display by
its data register in memory, and what they write there goes to the console of the terminal, one byte
at a time. Nothing else is changed by that, so what was written adds up.
-/

namespace LittleComputer

open InstructionSet (bits entered)
open Terminal (displayData)

variable {κ : Type} [Console κ]

/-! ## Traps -/

/-- The word of a trap for a service. -/
def Word.Calls (w : Word) (s : Service) : Prop :=
  bits w 12 4 = 15 ∧ bits w 0 8 = s.vector.toNat

instance (w : Word) (s : Service) : Decidable (w.Calls s) := inferInstanceAs (Decidable (_ ∧ _))

/-- A word calls a service exactly if it decodes to a trap with the vector of the service. -/
theorem Word.calls_iff {w : Word} {s : Service} :
    w.Calls s ↔ Instruction.decode w = .trap s.vector := by
  constructor
  · intro hw
    rw [InstructionSet.decode_eq_trap hw.1]
    refine congrArg Instruction.trap (BitVec.eq_of_toNat_eq ?_)
    rw [InstructionSet.vector_eq, hw.2]
  · intro h
    have hw : bits w 12 4 = 15 := by
      by_contra hw
      exact InstructionSet.decode_ne_trap hw _ h
    rw [InstructionSet.decode_eq_trap hw] at h
    injection h with hvector
    exact ⟨hw, by rw [← InstructionSet.vector_eq, hvector]⟩

namespace Machine

/-- The machine as it is when a service that was called on its own begins. -/
def called (m : Machine κ) : Machine κ :=
  { m with cpu := { m.cpu.setRegister 7 m.cpu.pc with stop := .running, lastPc := m.cpu.pc - 1 } }

omit [Console κ] in
theorem called_register (m : Machine κ) {r : RegisterNumber} (hr : r ≠ 7) :
    m.called.cpu.register r = m.cpu.register r :=
  Table.get_set_of_ne _ (Ne.symm hr) _

theorem execute_service {w : Word} {s : Service} (hw : w.Calls s) (m : Machine κ) :
    execute w m =
      match (Routine.serve s).run m.called with
      | .ok (_, m') => .ok (m'.cpu.stop, m')
      | .error e => .error e := by
  rw [InstructionSet.execute_run, Word.calls_iff.mp hw, Routine.perform_trap_run,
    Service.ofVector?_vector]
  rfl

end Machine

/-! ## Writing to the display -/

/-- A console that was given some bytes, each of them on its own. -/
def Console.shown (c : κ) (bytes : List Byte) : κ :=
  bytes.foldl (fun c b => Console.write c [b]) c

theorem Console.shown_append (c : κ) (bytes bytes' : List Byte) :
    shown c (bytes ++ bytes') = shown (shown c bytes) bytes' := List.foldl_append

/-- What writing leaves alone is the same after any number of bytes. -/
theorem Console.shown_keeps {α : Type} {f : κ → α} (hf : ∀ c bytes, f (Console.write c bytes) = f c)
    (bytes : List Byte) (c : κ) : f (shown c bytes) = f c := by
  induction bytes generalizing c with
  | nil => rfl
  | cons b rest ih => exact (ih (Console.write c [b])).trans (hf c [b])

theorem Script.shown (s : Script) (bytes : List Byte) :
    Console.shown s bytes = { s with output := s.output ++ bytes } := by
  induction bytes generalizing s with
  | nil => simp [Console.shown]
  | cons b rest ih =>
    show Console.shown (s.write [b]) rest = _
    rw [ih, Script.write]
    simp

namespace Machine

/-- The machine after some bytes went to its console, and nothing else happened. -/
structure Displays (m : Machine κ) (bytes : List Byte) (m' : Machine κ) : Prop where
  cpu : m'.cpu = m.cpu
  memory : m'.memory = m.memory
  map : m'.map = m.map
  devices : ∀ e, m'.device? e = m.device? e
  host : m'.host = { m.host with console := Console.shown m.host.console bytes }

/-- The display of the machine is the terminal `d`. -/
structure HasDisplay (m : Machine κ) (d : DeviceId) : Prop where
  reaches : m.Reaches displayData d
  terminal : ∃ device t, m.device? d = some device ∧ device.kind = .terminal t

variable {m m₁ m' : Machine κ} {d : DeviceId} {bytes bytes' : List Byte}

theorem Displays.refl (m : Machine κ) : m.Displays [] m := ⟨rfl, rfl, rfl, fun _ => rfl, rfl⟩

theorem Displays.trans (h : m.Displays bytes m₁) (h' : m₁.Displays bytes' m') :
    m.Displays (bytes ++ bytes') m' where
  cpu := h'.cpu.trans h.cpu
  memory := h'.memory.trans h.memory
  map := h'.map.trans h.map
  devices e := (h'.devices e).trans (h.devices e)
  host := by rw [h'.host, h.host, Console.shown_append]

theorem HasDisplay.of_displays (h : m.HasDisplay d) (hd : m.Displays bytes m') :
    m'.HasDisplay d := by
  refine ⟨?_, ?_⟩
  · rw [Reaches, hd.memory, hd.map]
    exact h.reaches
  · rw [hd.devices]
    exact h.terminal

/-- A word that is stored in the data register is written by the terminal. -/
theorem HasDisplay.store_display (h : m.HasDisplay d) (v : Word) :
    ∃ device, m.device? d = some device ∧
      store displayData v m =
        .ok ((), { m with host := Device.shownOn v m.host }.setDevice d device) := by
  obtain ⟨hvalid, hio, howner⟩ := h.reaches
  obtain ⟨device, t, hdevice, hkind⟩ := h.terminal
  have hwrite := Device.write_display hkind v m.host
  refine ⟨device, hdevice, ?_⟩
  simp only [store, hvalid, hio, if_true, writeMapped, howner, writeDevice, hdevice, hwrite]

theorem HasDisplay.writeChar (h : m.HasDisplay d) (b : Byte) :
    ∃ m', (Routine.writeChar b).run m = .ok ((), m') ∧ m.Displays [b] m' := by
  obtain ⟨device, hdevice, hstore⟩ := h.store_display (Word.ofByte b)
  rw [Device.shownOn, Word.lowByte_ofByte] at hstore
  refine ⟨_, (Routine.run_store _ _ m).trans hstore, rfl, rfl, rfl, fun e => ?_, rfl⟩
  rw [device?_setDevice_same (by exact hdevice)]
  rfl

theorem HasDisplay.writeChars (h : m.HasDisplay d) (bytes : List Byte) :
    ∃ m', (Routine.writeChars bytes).run m = .ok ((), m') ∧ m.Displays bytes m' := by
  induction bytes generalizing m with
  | nil => exact ⟨m, rfl, .refl m⟩
  | cons b rest ih =>
    obtain ⟨m₁, hfirst, hshown⟩ := h.writeChar b
    obtain ⟨m', hrest, hmore⟩ := ih (h.of_displays hshown)
    refine ⟨m', ?_, hshown.trans hmore⟩
    rw [Routine.writeChars, Routine.run_bind, hfirst]
    exact hrest

end Machine

end LittleComputer
