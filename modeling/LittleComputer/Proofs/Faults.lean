import Mathlib
import LittleComputer.Proofs.InstructionSet
import LittleComputer.Proofs.MemoryMap
import LittleComputer.Proofs.Sample
import LittleComputer.Proofs.Trail

/-!
# Faults of programs

A program cannot break a rule. The addresses that it makes up are words, so all of them lie inside a
memory of full size, and a terminal is only asked for addresses in its own block, because a marked
address belongs to the device whose block it lies in. What is left is an execution without an end.
-/

namespace LittleComputer

variable {κ : Type} [Console κ]

/-! ## Terminals -/

namespace Terminal.Session

/-- Waiting for a character fails only if none will ever come. -/
theorem await_error {name : Text} {tries : Nat} {s : Session κ} {e : Fault}
    (h : s.await name tries = .error e) : e = .stalled := by
  induction tries generalizing s with
  | zero =>
    cases hs : s.isWaiting with
    | true =>
      rw [await_zero_of_waiting hs] at h
      cases h
      rfl
    | false =>
      rw [await_eq_delivered hs] at h
      cases h
  | succ tries ih =>
    cases hs : s.isWaiting with
    | true =>
      rw [await_of_waiting hs] at h
      exact ih h
    | false =>
      rw [await_eq_delivered hs] at h
      cases h

theorem readRegister_error {name : Text} {a : Word} {s : Session κ} {e : Fault}
    (ha : ¬ a < keyboardStatus) (h : s.readRegister name a = .error e) : e = .stalled := by
  rw [readRegister, if_neg ha] at h
  split at h
  · cases h
  · split at h
    · exact await_error h
    · split at h
      · cases h
      · cases h

/-- A terminal takes every word that is written into its block. -/
theorem writeRegister_ne_error {a w : Word} {s : Session κ} (ha : ¬ a < keyboardStatus)
    (e : Fault) : s.writeRegister a w ≠ .error e := by
  rw [writeRegister, if_neg ha]
  split
  · exact fun h => by cases h
  · exact fun h => by cases h

end Terminal.Session

/-! ## Devices -/

namespace Device

/-- If the device is a terminal, then it is at the usual place. -/
def IsPlaced (d : Device) : Prop := ∀ t, d.kind = .terminal t → d.base = Terminal.keyboardStatus

/-- Terminals are made in one way only. -/
inductive Made : Device → Prop where
  | terminal (name : Text) (attached : Bool) : Made (newTerminal name attached)
  | other {name : Text} {kind : DeviceKind} {input output : Bool} {base count : Word} {d : Device}
      (hkind : ∀ t, kind ≠ .terminal t) (hnew : new? name kind input output base count = .ok d) :
      Made d

/-- Terminals are made at one place only, and other devices are none. -/
theorem Made.isPlaced {d : Device} (h : d.Made) : d.IsPlaced := by
  intro t ht
  cases h with
  | terminal name attached => rfl
  | other hkind hnew =>
    unfold new? at hnew
    split at hnew
    · cases hnew
    · cases hnew
      exact absurd ht (hkind t)

theorem Covers.not_lt {d : Device} {a : Word} (h : d.Covers a)
    (hbase : d.base = Terminal.keyboardStatus) : ¬ a < Terminal.keyboardStatus := by
  rw [← hbase, BitVec.lt_def]
  exact Nat.not_lt.mpr h.1

theorem IsPlaced.read {d d' : Device} (hd : d.IsPlaced) {a w : Word} {stop stop' : StopCode}
    {host host' : Host κ} (h : d.read a stop host = .ok (w, d', stop', host')) : d'.IsPlaced := by
  unfold Device.read at h
  split at h
  · cases h
    exact hd
  · cases h
    exact hd
  · rename_i t ht
    split at h
    · cases h
      exact fun _ _ => hd t ht
    · cases h

theorem IsPlaced.write {d d' : Device} (hd : d.IsPlaced) {a w : Word} {host host' : Host κ}
    (h : d.write a w host = .ok (d', host')) : d'.IsPlaced := by
  unfold Device.write at h
  split at h
  · cases h
    exact hd
  · cases h
    intro t ht
    cases ht
  · split at h
    · cases h
      exact hd
    · cases h

/-- Inside its block a device can be read, unless it waits forever. -/
theorem IsPlaced.read_error {d : Device} (hd : d.IsPlaced) {a : Word} (ha : d.Covers a)
    {stop : StopCode} {host : Host κ} {e : Fault} (h : d.read a stop host = .error e) :
    e = .stalled := by
  unfold Device.read at h
  split at h
  · cases h
  · cases h
  · rename_i t ht
    split at h
    · cases h
    · rename_i hr
      cases h
      exact Terminal.Session.readRegister_error (ha.not_lt (hd t ht)) hr

/-- Inside its block a device can be written. -/
theorem IsPlaced.write_ne_error {d : Device} (hd : d.IsPlaced) {a : Word} (ha : d.Covers a)
    (w : Word) (host : Host κ) (e : Fault) : d.write a w host ≠ .error e := by
  intro h
  unfold Device.write at h
  split at h
  · cases h
  · cases h
  · rename_i t ht
    split at h
    · cases h
    · rename_i hw
      exact Terminal.Session.writeRegister_ne_error (ha.not_lt (hd t ht)) _ hw

end Device

/-! ## Sound machines -/

namespace Machine

/-- What keeps programs from breaking rules. -/
structure Sound (m : Machine κ) : Prop where
  full : m.memory.size = 65536
  consistent : m.Consistent
  placed : ∀ d device, m.device? d = some device → device.IsPlaced

/-- There is a result on a sound machine, or a key is waited for forever. -/
inductive Safe {α : Type} : Except Fault (α × Machine κ) → Prop where
  | ok {a : α} {m : Machine κ} (hm : m.Sound) : Safe (.ok (a, m))
  | stalled : Safe (.error .stalled)

omit [Console κ] in
theorem Safe.inv {α : Type} {x : Except Fault (α × Machine κ)} (h : Safe x) :
    x = .error .stalled ∨ ∃ a m, x = .ok (a, m) ∧ m.Sound := by
  cases h with
  | ok hm => exact .inr ⟨_, _, rfl, hm⟩
  | stalled => exact .inl rfl

omit [Console κ] in
theorem Safe.sound {α : Type} {x : Except Fault (α × Machine κ)} (h : Safe x) {a : α}
    {m : Machine κ} (hx : x = .ok (a, m)) : m.Sound := by
  subst hx
  cases h with
  | ok hm => exact hm

namespace Sound

variable {m : Machine κ}

omit [Console κ] in
/-- Registers, words and the host have no part in what keeps programs from breaking rules. -/
theorem elsewhere (hm : m.Sound) (cpu : Cpu) (words : Table Word 16) (host : Host κ) :
    Sound { m with cpu, host, memory := { m.memory with words } } where
  full := hm.full
  consistent :=
    hm.consistent.of_sameLayout ⟨rfl, rfl, keepsBlocks_of_devices rfl⟩ fun _ ha => ha
  placed := hm.placed

omit [Console κ] in
/-- A device may be replaced by one with the same block. -/
theorem setDevice (hm : m.Sound) {d : DeviceId} {old new : Device} (hd : m.device? d = some old)
    (hblock : old.SameBlock new) (hnew : new.IsPlaced) : (m.setDevice d new).Sound where
  full := hm.full
  consistent := by
    refine hm.consistent.of_sameLayout ⟨rfl, rfl, ?_⟩ fun _ ha => ha
    exact keepsBlocks_setDevice hd hblock
  placed := by
    intro e device he
    rw [device?_setDevice, hd] at he
    split at he
    · cases he
      exact hnew
    · exact hm.placed e device he

omit [Console κ] in
/-- Where a device answers, it is asked inside its block. -/
theorem owner (hm : m.Sound) {a : Word} (hio : m.memory.io.get a = true) :
    ∃ d device, m.map.owner? a = some d ∧ m.device? d = some device ∧ device.Covers a := by
  obtain ⟨d, hd⟩ := hm.consistent.io a hio
  obtain ⟨device, hdev, -, hblock⟩ := hm.consistent.blocks a d hd
  exact ⟨d, device, hd, hdev, (hblock a).mp hd⟩

/-- A load on a sound machine leaves it sound, or waits forever. -/
theorem load (hm : m.Sound) (a : Word) : Safe (load a m) := by
  rw [Machine.load, if_pos (InstructionSet.isValid_of_full hm.full a)]
  split
  · rename_i hio
    obtain ⟨d, device, hd, hdev, hcovers⟩ := hm.owner hio
    rw [readMapped, hd]
    dsimp only
    rw [readDevice, hdev]
    dsimp only
    split
    · rename_i e he
      rw [(hm.placed d device hdev).read_error hcovers he]
      exact .stalled
    · rename_i w device' stop host hr
      refine .ok ?_
      have hplaced := (hm.placed d device hdev).read hr
      exact (hm.elsewhere { m.cpu with stop } m.memory.words host).setDevice hdev
        (Device.read_sameBlock hr) hplaced
  · exact .ok hm

/-- A store on a sound machine leaves it sound. -/
theorem store (hm : m.Sound) (a w : Word) : Safe (store a w m) := by
  rw [Machine.store, if_pos (InstructionSet.isValid_of_full hm.full a)]
  split
  · rename_i hio
    obtain ⟨d, device, hd, hdev, hcovers⟩ := hm.owner hio
    rw [writeMapped, hd]
    dsimp only
    rw [writeDevice, hdev]
    dsimp only
    split
    · rename_i e he
      exact absurd he ((hm.placed d device hdev).write_ne_error hcovers w m.host e)
    · rename_i device' host hw
      refine .ok ?_
      have hplaced := (hm.placed d device hdev).write hw
      exact (hm.elsewhere m.cpu m.memory.words host).setDevice hdev
        (Device.write_sameBlock hw) hplaced
  · split
    · exact .ok (hm.elsewhere m.cpu _ m.host)
    · exact .ok (hm.elsewhere m.cpu m.memory.words _)

theorem operation (hm : m.Sound) {β : Type} (o : Operation β) : Safe (o.run m) := by
  cases o with
  | look => exact .ok hm
  | change f => exact .ok (hm.elsewhere (f m.cpu) m.memory.words m.host)
  | load a => exact hm.load a
  | store a w => exact hm.store a w
  | warn | trace => exact .ok (hm.elsewhere m.cpu m.memory.words _)

/-- No routine breaks a rule. -/
theorem routine (hm : m.Sound) {α : Type} (r : Routine α) : Safe (r.run m) := by
  induction r generalizing m with
  | done a => exact .ok hm
  | act o next ih =>
    rw [Routine.run_act]
    rcases (hm.operation o).inv with ho | ⟨b, m₁, ho, hm₁⟩
    · rw [ho]
      exact .stalled
    · rw [ho]
      exact ih b hm₁

/-- A number of steps leaves a sound machine sound, by induction over the steps. -/
theorem steps (hm : m.Sound) (n : Nat) (first : Bool) : Safe (steps n first m) := by
  induction n generalizing m first with
  | zero => exact .ok hm
  | succ n ih =>
    have hbreak : (if first then .ok false else m.memory.isBreak m.cpu.pc : Except Fault Bool) =
        .ok (!first && m.memory.breaks.get m.cpu.pc) := by
      cases first with
      | true => rfl
      | false =>
        rw [if_neg (by decide), Memory.isBreak, Memory.check,
          if_pos (InstructionSet.isValid_of_full hm.full _)]
        rfl
    rw [steps_succ, hbreak]
    split
    · rename_i he
      cases he
    · exact .ok (hm.elsewhere _ m.memory.words m.host)
    · rcases (hm.routine Routine.step).inv with hs | ⟨u, m₁, hs, hm₁⟩
      · rw [step, hs]
        exact .stalled
      · rw [step, hs]
        dsimp only
        split
        · exact ih hm₁ false
        · exact .ok hm₁

/-- A run leaves a sound machine sound, unless it waits forever or has no limit. -/
theorem run (hm : m.Sound) (limit : BitVec 32) (budget : Nat) :
    Safe (run limit budget m) ∨ limit = 0 ∧ run limit budget m = .error .outOfSteps := by
  have hstart : (m.stopWith .running).Sound := hm.elsewhere _ m.memory.words m.host
  rw [run_eq]
  rcases (hstart.steps (if limit = 0 then budget else limit.toNat) true).inv with
    hs | ⟨answer, m₁, hs, hm₁⟩
  · rw [hs]
    exact .inl .stalled
  · rw [hs]
    cases answer with
    | some c => exact .inl (.ok hm₁)
    | none =>
      by_cases hlimit : limit = 0
      · exact .inr ⟨hlimit, if_pos hlimit⟩
      · dsimp only
        rw [if_neg hlimit]
        exact .inl (.ok (hm₁.elsewhere _ m₁.memory.words m₁.host))

end Sound

/-! ## Requests -/

omit [Console κ] in
theorem installDevice_devices {m m' : Machine κ} {d : DeviceId} {answer : Bool}
    (h : installDevice d m = .ok (answer, m')) : m'.devices = m.devices := by
  unfold installDevice at h
  split at h
  · cases h
  · split at h
    · cases h
    · cases h
      rfl
    · split at h
      · cases h
      · cases h
        rfl

omit [Console κ] in
theorem removeDevice_devices {m m' : Machine κ} {d : DeviceId} {answer : Bool}
    (h : removeDevice d m = .ok (answer, m')) : m'.devices = m.devices := by
  unfold removeDevice at h
  split at h
  · cases h
  · split at h
    · cases h
      rfl
    · split at h
      · cases h
      · cases h
        rfl

/-- Only reading and writing changes devices. -/
theorem devices_of_does {r : Request} {m m' : Machine κ} (h : r.Does m m') :
    m'.devices = m.devices ∨ (∃ a w, load a m = .ok (w, m')) ∨
      ∃ a w, store a w m = .ok ((), m') := by
  cases r with
  | setRam | setNonexistent | setBreak | poke =>
    obtain ⟨memory, -, rfl⟩ := h
    exact .inl rfl
  | clearBreaks | clearWords =>
    obtain rfl := h
    exact .inl rfl
  | loadImage name =>
    obtain ⟨result, hload⟩ := h
    exact .inl (loadImage_keepsMarks name m result m' hload).devices
  | install d =>
    obtain ⟨answer, hinstall⟩ := h
    exact .inl (installDevice_devices hinstall)
  | remove d =>
    obtain ⟨answer, hremove⟩ := h
    exact .inl (removeDevice_devices hremove)
  | read a =>
    obtain ⟨w, hload⟩ := h
    exact .inr (.inl ⟨a, w, hload⟩)
  | write a w => exact .inr (.inr ⟨a, w, h⟩)

omit [Console κ] in
theorem Change.size {r : Request} {m m' : Machine κ} (h : Change r m m') :
    m'.memory.size = m.memory.size := by
  cases h with
  | quiet layout _ => exact layout.size
  | cleared layout _ _ => exact layout.size
  | installed _ _ size => exact size
  | removed _ _ size => exact size

/-- Requests leave a sound machine sound. -/
theorem Sound.request {m m' : Machine κ} (hm : m.Sound) {r : Request} (h : r.Does m m') :
    m'.Sound := by
  rcases devices_of_does h with hdevices | ⟨a, w, hload⟩ | ⟨a, w, hstore⟩
  · have hchange := change_of_does hm.consistent h
    refine ⟨hchange.size.trans hm.full, hm.consistent.change hchange, ?_⟩
    intro d device hd
    rw [device?_of_devices hdevices] at hd
    exact hm.placed d device hd
  · exact (hm.load a).sound hload
  · exact (hm.store a w).sound hstore

/-! ## Configurations -/

/-- The machines that devices were added to, that requests were made of and that programs were
executed on, from a new machine with a memory of full size on. The registers, the words in memory
and everything outside of the machine are arbitrary at every time. -/
inductive Configured : Machine κ → Prop where
  | new {memory : Memory} (hnew : Memory.new? 65536 = .ok memory) (host : Host κ) :
    Configured (Machine.new memory host)
  | add {m : Machine κ} {d : DeviceId} {device : Device} (h : Configured m)
      (hfree : m.device? d = none) (hmade : device.Made) : Configured (m.addDevice d device)
  | request {m m' : Machine κ} {r : Request} (h : Configured m) (hdoes : r.Does m m') :
    Configured m'
  | elsewhere {m : Machine κ} (h : Configured m) (cpu : Cpu) (words : Table Word 16)
      (host : Host κ) : Configured { m with cpu, host, memory := { m.memory with words } }
  | execute {m m' : Machine κ} {w : Word} {c : StopCode} (h : Configured m)
      (hexecute : execute w m = .ok (c, m')) : Configured m'
  | run {m m' : Machine κ} {limit : BitVec 32} {budget : Nat} {c : StopCode} (h : Configured m)
      (hrun : run limit budget m = .ok (c, m')) : Configured m'

/-- Every machine is sound, however it was configured. -/
theorem Configured.sound {m : Machine κ} (h : m.Configured) : m.Sound := by
  induction h with
  | new hnew host =>
    refine ⟨Memory.new_size hnew, (Reached.new hnew rfl).consistent, ?_⟩
    intro d device hd
    cases hd
  | add h hfree hmade ih =>
    rename_i m d device
    constructor
    · exact ih.full
    · refine ih.consistent.of_sameLayout ⟨rfl, rfl, ?_⟩ fun _ ha => ha
      intro e other he
      have hne : e ≠ d := by
        rintro rfl
        rw [hfree] at he
        cases he
      exact ⟨other, by rw [device?_addDevice, if_neg hne, he], rfl, rfl⟩
    · intro e other he
      rw [device?_addDevice] at he
      split at he
      · cases he
        exact hmade.isPlaced
      · exact ih.placed e other he
  | request h hdoes ih => exact ih.request hdoes
  | elsewhere h cpu words host ih => exact ih.elsewhere cpu words host
  | execute h hexecute ih => exact (ih.routine (Routine.execute _)).sound hexecute
  | run h hrun ih =>
    rename_i limit budget _
    rcases ih.run limit budget with hsafe | ⟨-, he⟩
    · exact hsafe.sound hrun
    · cases he.symm.trans hrun

/-- A program breaks no rule, whatever is in memory and whatever is typed: executing an instruction
has a result or waits forever for a key, and a run can only be endless besides. -/
theorem configured_violatesNothing {m : Machine κ} (h : m.Configured) :
    (∀ w, (∃ c m', execute w m = .ok (c, m')) ∨ execute w m = .error .stalled) ∧
      ∀ limit budget, (∃ c m', run limit budget m = .ok (c, m')) ∨
        run limit budget m = .error .stalled ∨
          limit = 0 ∧ run limit budget m = .error .outOfSteps := by
  constructor
  · intro w
    rcases (h.sound.routine (Routine.execute w)).inv with he | ⟨c, m', he, -⟩
    · exact .inr he
    · exact .inl ⟨c, m', he⟩
  · intro limit budget
    rcases h.sound.run limit budget with hsafe | hend
    · rcases hsafe.inv with he | ⟨c, m', he, -⟩
      · exact .inr (.inl he)
      · exact .inl ⟨c, m', he⟩
    · exact .inr (.inr hend)

/-- A terminal above ordinary memory, and `LDI R1, #0` with the address of the keyboard in front of
it. -/
theorem configured_violatesNothing_keyboard :
    ∃ m : Machine Script, m.Configured ∧ m.memory.isIo 0xFE02 = .ok true ∧
      m.memory.peek m.cpu.pc = .ok 0xFE02 ∧
        ((∃ c m', execute 0xA200 m = .ok (c, m')) ∨ execute 0xA200 m = .error .stalled) := by
  let blank : Memory := { Memory.full with ram := .fill false }
  let low : Memory := { blank with
    ram := blank.ram.fillRange 0 0xFDFF true, io := blank.io.fillRange 0 0xFDFF false }
  let host : Host Script := .new (.ofEntries [] 0) (.empty []) default
  let m₀ := (Machine.new blank host).addDevice 0 (.newTerminal [] true)
  let m₁ := { m₀ with memory := low }
  have hnew : Memory.new? 65536 = .ok blank := rfl
  have hram : m₀.memory.setRam 0 0xFDFF = .ok low := rfl
  have hinstall := eq_ok_of_result (x := installDevice 0 m₁) (a := true) m₁ (by decide +kernel)
  have hadded : m₀.Configured := .add (.new hnew host) rfl (.terminal [] true)
  have hinstalled : (after (installDevice 0 m₁) m₁).Configured :=
    .request (r := .install 0) (.request (r := .setRam 0 0xFDFF) hadded ⟨low, hram, rfl⟩)
      ⟨true, hinstall⟩
  let words : Table Word 16 := (Table.fill 0).set Cpu.userStart 0xFE02
  have h := hinstalled.elsewhere m₁.cpu words host
  exact ⟨_, h, by decide +kernel, by decide +kernel, (configured_violatesNothing h).1 0xA200⟩

end Machine

end LittleComputer
