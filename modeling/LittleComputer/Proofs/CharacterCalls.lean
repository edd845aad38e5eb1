import LittleComputer.Proofs.InstructionSet
import LittleComputer.Proofs.PipedInput
import LittleComputer.Proofs.Trail

/-!
# Calls for a character

The services of the machine read the keyboard like any program, by its data register. Everything
else that a machine does leaves alone what the keyboard will give. So the calls for a character get
those of a piped input one after the other, whatever is executed in between, and then its end.
-/

namespace LittleComputer

open InstructionSet (bits)
open Terminal (received)

/-! ## The keyboard of a machine -/

namespace Device

open Terminal

variable {d d' : Device} {a w : Word} {stop stop' : StopCode} {host host' : Host Window}

/-- Apart from the keyboard, nothing that is read has to do with the input. -/
theorem read_elsewhere (hstatus : a ≠ keyboardStatus) (hdata : a ≠ keyboardData)
    (h : d.read a stop host = .ok (w, d', stop', host')) :
    d' = d ∧ stop' = stop ∧ host' = host := by
  unfold read at h
  split at h
  · cases h
    exact ⟨rfl, rfl, rfl⟩
  · cases h
    exact ⟨rfl, rfl, rfl⟩
  · rename_i t hkind
    have hsame : ∀ v s, Session.readRegister d.name a ⟨t, stop, host⟩ = .ok (v, s) →
        s = ⟨t, stop, host⟩ := by
      intro v s hs
      rw [Session.readRegister, if_neg hstatus, if_neg hdata] at hs
      split at hs
      · cases hs
      · split at hs
        · cases hs
          rfl
        · cases hs
          rfl
    split at h
    · rename_i hs
      rw [hsame _ _ hs] at h
      cases h
      exact ⟨by rw [← hkind], rfl, rfl⟩
    · cases h

theorem write_elsewhere (h : d.write a w host = .ok (d', host')) :
    Window.SameInput host.console host'.console ∧ ∀ t, d.kind = .terminal t → d' = d := by
  cases hkind : d.kind with
  | terminal t =>
    obtain ⟨hsame, htold⟩ := terminal_of_write hkind h
    exact ⟨htold.sameInput, fun _ _ => hsame⟩
  | plain | echo last =>
    rw [write, hkind] at h
    cases h
    exact ⟨.refl _, fun t ht => by cases ht⟩

end Device

namespace Machine

open Terminal

/-- A program that accesses the address reaches the device `d`. -/
def Reaches {κ : Type} (m : Machine κ) (a : Word) (d : DeviceId) : Prop :=
  m.memory.isValid a = true ∧ m.memory.io.get a = true ∧ m.map.owner? a = some d

section
variable {κ : Type} [Console κ] {m : Machine κ} {d : DeviceId} {device : Device} {t : Terminal}
  {a w : Word}

/-- The machine after a register of its terminal `d` was read, which is a session by itself. -/
def afterSession (m : Machine κ) (d : DeviceId) (device : Device) (s : Session κ) : Machine κ :=
  { m with cpu := { m.cpu with stop := s.stop }, host := s.host }.setDevice d
    { device with kind := .terminal s.terminal }

/-- A load from an address that reaches a terminal is one session with that terminal, put back into
the machine. -/
theorem load_terminal {s : Session κ} (ha : m.Reaches a d) (hdevice : m.device? d = some device)
    (hkind : device.kind = .terminal t)
    (hread : Session.readRegister device.name a ⟨t, m.cpu.stop, m.host⟩ = .ok (w, s)) :
    load a m = .ok (w, m.afterSession d device s) := by
  obtain ⟨hvalid, hio, howner⟩ := ha
  simp only [load, hvalid, hio, if_true, readMapped, howner, readDevice, hdevice,
    Device.read_terminal hkind hread, afterSession]

omit [Console κ] in
theorem afterSession_device? (hdevice : m.device? d = some device) (s : Session κ) :
    (m.afterSession d device s).device? d = some { device with kind := .terminal s.terminal } := by
  rw [afterSession, device?_setDevice, if_pos rfl]
  show (m.device? d).map _ = _
  rw [hdevice]
  rfl

end

/-- The keyboard of the machine is the terminal `d`, and will give the characters `bs` before the
end of the input. -/
structure Feeds (m : Machine Window) (d : DeviceId) (bs : List Byte) : Prop where
  status : m.Reaches keyboardStatus d
  data : m.Reaches keyboardData d
  supplies : ∃ device t, m.device? d = some device ∧ device.kind = .terminal t ∧
    Supplies t m.host.console bs

variable {m m' : Machine Window} {d : DeviceId} {bs : List Byte} {a w : Word}

theorem Reaches.of_load (h : m.Reaches a d) {b : Word} (hload : load b m = .ok (w, m')) :
    m'.Reaches a d := by
  have hsame := load_untouched hload
  rw [Reaches, hsame.memory, hsame.map]
  exact h

theorem Reaches.of_store (h : m.Reaches a d) {b : Word} (hstore : store b w m = .ok ((), m')) :
    m'.Reaches a d := by
  have hsame := store_stored hstore
  rw [Reaches, hsame.memory, hsame.map]
  exact h

/-- What does not touch the terminal or the input keeps what the keyboard will give. -/
theorem Feeds.elsewhere (h : m.Feeds d bs) (hreaches : ∀ a, m.Reaches a d → m'.Reaches a d)
    (hdevice : ∀ device t, m.device? d = some device → device.kind = .terminal t →
      m'.device? d = some device)
    (hinput : Window.SameInput m.host.console m'.host.console) : m'.Feeds d bs := by
  obtain ⟨device, t, hd, hkind, hsupplies⟩ := h.supplies
  exact ⟨hreaches _ h.status, hreaches _ h.data, device, t, hdevice device t hd hkind, hkind,
    hsupplies.of_sameInput hinput⟩

theorem Feeds.with_cpu (h : m.Feeds d bs) (cpu : Cpu) : Feeds { m with cpu } d bs :=
  h.elsewhere (fun _ ha => ha) (fun _ _ hd _ => hd) (.refl _)

theorem Feeds.with_report (h : m.Feeds d bs) (s : Severity) (text : Text) :
    Feeds { m with host := m.host.report s text } d bs :=
  h.elsewhere (fun _ ha => ha) (fun _ _ hd _ => hd) (m.host.report_console s text).sameInput

/-- A register read through which the terminal ends up supplying `bs'` leaves the machine fed with
`bs'`. -/
theorem Feeds.of_read {s' : Session Window} {device : Device} {t : Terminal} {bs' : List Byte}
    (h : m.Feeds d bs) (ha : m.Reaches a d) (hdevice : m.device? d = some device)
    (hkind : device.kind = .terminal t)
    (hread : Session.readRegister device.name a ⟨t, m.cpu.stop, m.host⟩ = .ok (w, s'))
    (hsupplies : Supplies s'.terminal s'.host.console bs') (hstop : s'.stop = m.cpu.stop) :
    ∃ m', load a m = .ok (w, m') ∧ m'.Feeds d bs' ∧ m'.cpu = m.cpu := by
  have hload := load_terminal ha hdevice hkind hread
  refine ⟨_, hload, ⟨h.status.of_load hload, h.data.of_load hload, ?_⟩, ?_⟩
  · exact ⟨_, s'.terminal, afterSession_device? hdevice s', rfl, hsupplies⟩
  · show { m.cpu with stop := s'.stop } = m.cpu
    rw [hstop]

/-- A look at the status register does not fail, and takes nothing away. -/
theorem Feeds.load_status (h : m.Feeds d bs) :
    ∃ w m', load keyboardStatus m = .ok (w, m') ∧ m'.Feeds d bs ∧ m'.cpu = m.cpu := by
  obtain ⟨device, t, hdevice, hkind, hsupplies⟩ := h.supplies
  have hread := Session.readRegister_status device.name ⟨t, m.cpu.stop, m.host⟩
  have hpoll : Supplies ((⟨t, m.cpu.stop, m.host⟩ : Session Window).poll device.name 0).terminal
    _ bs := (Session.poll_supplies hsupplies device.name 0).1
  have hstop := Session.poll_stop_of_piped (s := ⟨t, m.cpu.stop, m.host⟩) hsupplies.piped
    device.name 0
  exact ⟨_, h.of_read h.status hdevice hkind hread hpoll hstop⟩

/-- A running machine gets the next character out of the data register. -/
theorem Feeds.load_data (h : m.Feeds d bs) (hrun : m.cpu.stop = .running) :
    ∃ m', load keyboardData m = .ok (Session.firstWord bs, m') ∧ m'.Feeds d bs.tail ∧
      m'.cpu = m.cpu := by
  obtain ⟨device, t, hdevice, hkind, hsupplies⟩ := h.supplies
  obtain ⟨s', hawait, htail, hstop⟩ := Session.await_supplies (s := ⟨t, m.cpu.stop, m.host⟩)
    device.name hsupplies hrun (fun _ => Nat.lt_succ_self _)
  have hread := (Session.readRegister_data device.name ⟨t, m.cpu.stop, m.host⟩).trans hawait
  exact h.of_read h.data hdevice hkind hread htail (hstop.trans hrun.symm)

/-- Only the data register gives characters away. -/
theorem Feeds.of_load (h : m.Feeds d bs) (hdata : a ≠ keyboardData)
    (hload : load a m = .ok (w, m')) : m'.Feeds d bs ∧ m'.cpu = m.cpu := by
  by_cases hstatus : a = keyboardStatus
  · obtain ⟨w', m₁, hlook, hfeeds⟩ := h.load_status
    rw [hstatus] at hload
    obtain rfl : m₁ = m' := (Prod.mk.inj (Except.ok.inj (hlook.symm.trans hload))).2
    exact hfeeds
  · have hreaches : ∀ b, m.Reaches b d → m'.Reaches b d := fun b hb => hb.of_load hload
    cases load_inv hload with
    | device _ _ hold hread =>
      obtain ⟨rfl, rfl, rfl⟩ := Device.read_elsewhere hstatus hdata hread
      refine ⟨h.elsewhere hreaches (fun device t hd _ => ?_) (.refl _), rfl⟩
      rw [device?_setDevice_same (by exact hold)]
      exact hd
    | unowned | memory => exact ⟨h, rfl⟩

/-- A store takes nothing from the console, so what is still to come stays the same. -/
theorem Feeds.of_store (h : m.Feeds d bs) (hstore : store a w m = .ok ((), m')) :
    m'.Feeds d bs := by
  have hreaches : ∀ b, m.Reaches b d → m'.Reaches b d := fun b hb => hb.of_store hstore
  cases store_inv hstore with
  | @device e old _ _ _ _ hold hwrite =>
    obtain ⟨hinput, hterminal⟩ := Device.write_elsewhere hwrite
    refine h.elsewhere hreaches (fun device t hd hkind => ?_) hinput
    rw [device?_setDevice]
    split
    · rename_i hde
      obtain rfl : device = old := by
        rw [hde] at hd
        exact Option.some.inj (hd.symm.trans hold)
      rw [hterminal t hkind]
      show (m.device? e).map _ = _
      rw [hold]
      rfl
    · exact hd
  | unowned => exact h
  | memory => exact h.elsewhere hreaches (fun _ _ hd _ => hd) (.refl _)
  | nowhere => exact h.with_report _ _

/-- The one operation that takes a byte is a load of the keyboard data register. -/
theorem Feeds.operation {β : Type} {o : Operation β} {b : β} (h : m.Feeds d bs)
    (ho : o.loaded? ≠ some keyboardData) (hrun : o.run m = .ok (b, m')) : m'.Feeds d bs := by
  cases o with
  | look =>
    cases hrun
    exact h
  | change f =>
    cases hrun
    exact h.with_cpu (f m.cpu)
  | load a => exact (h.of_load (fun hdata => ho (by rw [hdata]; rfl)) hrun).1
  | store a w => exact h.of_store hrun
  | warn text =>
    cases hrun
    exact h.with_report _ _
  | trace a w =>
    cases hrun
    dsimp only
    split
    · exact h.with_report _ _
    · exact h

end Machine

/-! ## One call -/

/-- What the program notices of a call for a character, if `next` is the one that it gets. -/
def Cpu.Gets (c : Cpu) (next : Option Byte) (c' : Cpu) : Prop :=
  match next with
  | some b => c'.stop = .running ∧ c'.register 0 = Word.ofByte b
  | none => c'.stop = .endOfInput ∧ c'.register 0 = c.register 0

/-- The word of a trap for the service that reads a character without an echo. -/
def Word.IsGetc (w : Word) : Prop := bits w 12 4 = 15 ∧ bits w 0 8 = 0x20

instance (w : Word) : Decidable w.IsGetc := inferInstanceAs (Decidable (_ ∧ _))

theorem Word.IsGetc.decode {w : Word} (hw : w.IsGetc) :
    Instruction.decode w = .trap Service.readChar.vector := by
  rw [InstructionSet.decode_eq_trap hw.1]
  refine congrArg Instruction.trap (BitVec.eq_of_toNat_eq ?_)
  rw [InstructionSet.vector_eq, hw.2]
  rfl

theorem Word.lowByte_ofByte (b : Byte) : Word.lowByte (Word.ofByte b) = b := by
  revert b
  decide

namespace Machine

open Terminal
open Routine (run_bind run_load run_look run_change run_warn run_pure)

variable {m m' : Machine Window} {d : DeviceId} {bs : List Byte}

/-- Reading a character gives the next byte to come, and at the end of the input stops the
processor. -/
theorem Feeds.readChar (h : m.Feeds d bs) (hrun : m.cpu.stop = .running) :
    ∃ m', Routine.readChar.run m = .ok (bs.head?, m') ∧ m'.Feeds d bs.tail ∧
      m'.cpu = if bs = [] then m.cpu.breakWith .endOfInput else m.cpu := by
  obtain ⟨m₁, hload, hfeeds, hcpu⟩ := h.load_data hrun
  rw [Routine.readChar, run_bind, run_load, hload]
  cases bs with
  | nil =>
    dsimp only
    rw [if_pos (show Session.firstWord [] = Word.allOnes from rfl), run_bind, run_look]
    dsimp only
    rw [if_pos (by rw [hcpu, hrun])]
    refine ⟨_, rfl, ?_, ?_⟩
    · exact (hfeeds.with_report _ _).with_cpu _
    · rw [if_pos rfl, ← hcpu]
  | cons b rest =>
    dsimp only
    rw [if_neg (show Session.firstWord (b :: rest) ≠ Word.allOnes from ofByte_ne_noCharacter b)]
    refine ⟨m₁, ?_, hfeeds, ?_⟩
    · rw [run_pure, List.head?_cons, show Session.firstWord (b :: rest) = Word.ofByte b from rfl,
        Word.lowByte_ofByte]
    · rw [if_neg (List.cons_ne_nil b rest), hcpu]

/-- A trap for a character returns, with the next one or with the end of the input. -/
theorem Feeds.perform (h : m.Feeds d bs) (hrun : m.cpu.stop = .running) :
    ∃ m', (Routine.perform (.trap Service.readChar.vector)).run m = .ok ((), m') ∧
      m'.Feeds d bs.tail ∧ m.cpu.Gets bs.head? m'.cpu := by
  have hlinked := h.with_cpu (m.cpu.setRegister 7 m.cpu.pc)
  have hsame : (m.cpu.setRegister 7 m.cpu.pc).register 0 = m.cpu.register 0 :=
    Table.get_set_of_ne _ (by decide) _
  obtain ⟨m', hread, hfeeds, hcpu⟩ := hlinked.readChar hrun
  rw [Routine.perform_trap_run, Service.ofVector?_vector]
  dsimp only
  rw [Routine.serve, run_bind, hread]
  cases bs with
  | nil =>
    refine ⟨m', rfl, hfeeds, ?_⟩
    rw [hcpu, if_pos rfl]
    exact ⟨rfl, hsame⟩
  | cons b rest =>
    rw [if_neg (List.cons_ne_nil b rest)] at hcpu
    refine ⟨_, rfl, ?_, ?_, ?_⟩
    · exact hfeeds.with_cpu _
    · show m'.cpu.stop = .running
      rw [hcpu]
      exact hrun
    · exact Table.get_set_self _ _ _

/-- A routine that never loads the keyboard data register leaves all the bytes to come. -/
theorem Feeds.routine {α : Type} {r : Routine α} {a : α} (h : m.Feeds d bs)
    (hr : ∀ y, ¬ r.Loads m keyboardData y) (hrun : r.run m = .ok (a, m')) : m'.Feeds d bs := by
  induction r generalizing m with
  | done a =>
    cases hrun
    exact h
  | act o next ih =>
    obtain ⟨b, m₁, ho, hnext⟩ := Routine.run_act_eq_ok.mp hrun
    have hfeeds := h.operation (fun hload => hr m (.inl ⟨hload, rfl⟩)) ho
    exact ih b hfeeds (fun y hy => hr y (.inr ⟨b, m₁, ho, hy⟩)) hnext

/-- A fetch reads nothing but the word that is fetched. -/
theorem fetch_loads {m y : Machine Window} (hpc : m.cpu.pc ≠ keyboardData) :
    ¬ Routine.fetch.Loads m keyboardData y := by
  rintro (⟨hlook, -⟩ | ⟨c, m₁, hlook, hrest⟩)
  · cases hlook
  · cases hlook
    rcases hrest with ⟨hchange, -⟩ | ⟨u, m₂, hchange, hrest⟩
    · cases hchange
    · cases hchange
      rcases hrest with ⟨hload, -⟩ | ⟨v, m₃, -, hrest⟩
      · exact hpc (Option.some.inj hload)
      · rcases hrest with ⟨htrace, -⟩ | ⟨u, m₄, -, hrest⟩
        · cases htrace
        · rcases hrest with ⟨hchange, -⟩ | ⟨u, m₅, -, hrest⟩
          · cases hchange
          · exact hrest

/-! ## Any number of calls -/

/-- What can become of a machine while `calls` traps read a character each, on their own or in a
run. In between there is anything that does not read the data register of the keyboard. -/
inductive Typed (start : Machine Window) : Nat → Machine Window → Prop where
  | start : Typed start 0 start
  | routine {calls : Nat} {m m' : Machine Window} {α : Type} {r : Routine α} {a : α}
      (hpast : Typed start calls m) (hquiet : ∀ y, ¬ r.Loads m keyboardData y)
      (hrun : r.run m = .ok (a, m')) : Typed start calls m'
  | getc {calls : Nat} {m m' : Machine Window} {w : Word} {stop : StopCode}
      (hpast : Typed start calls m) (hw : w.IsGetc) (hexecute : execute w m = .ok (stop, m')) :
      Typed start (calls + 1) m'
  | step {calls : Nat} {m m₁ m' : Machine Window} {w : Word} (hpast : Typed start calls m)
      (hrun : m.cpu.stop = .running) (hpc : m.cpu.pc ≠ keyboardData)
      (hfetch : Routine.fetch.run m = .ok (w, m₁)) (hw : w.IsGetc)
      (hstep : step m = .ok ((), m')) : Typed start (calls + 1) m'

/-- The machine has an unused terminal as its keyboard, and the window of the terminal an input that
is no terminal either, of which nothing was read yet. -/
structure StartsPiped (m : Machine Window) (d : DeviceId) : Prop where
  status : m.Reaches keyboardStatus d
  data : m.Reaches keyboardData d
  unused : ∃ device attached, m.device? d = some device ∧ device.kind = .terminal (.new attached)
  unread : m.host.console.Unread

/-- What the next call for a character comes to. -/
structure Answers (next : Option Byte) (m : Machine Window) : Prop where
  execute : ∀ w, w.IsGetc → ∃ m', execute w m = .ok (m'.cpu.stop, m') ∧ m.cpu.Gets next m'.cpu
  /-- The same in a run, which fetches the word first. -/
  step : ∀ w m₁, m.cpu.stop = .running → m.cpu.pc ≠ keyboardData →
    Routine.fetch.run m = .ok (w, m₁) → w.IsGetc →
    ∃ m', step m = .ok ((), m') ∧ m.cpu.Gets next m'.cpu
  /-- A look at the status register does not fail either. -/
  look : ∃ w m', load keyboardStatus m = .ok (w, m')

variable {start : Machine Window} {calls : Nat}

/-- Before the first call every byte of the input is still to come, each as the terminal hands it
over. -/
theorem StartsPiped.feeds (h : start.StartsPiped d) :
    start.Feeds d (start.host.console.input.map received) := by
  obtain ⟨device, attached, hdevice, hkind⟩ := h.unused
  have hunread := h.unread
  refine ⟨h.status, h.data, device, .new attached, hdevice, hkind, ?_, ?_, ?_⟩
  · exact ⟨hunread.isTerminal, hunread.breakSeen, fun _ => hunread.harmless⟩
  · rw [Window.pending, hunread.keys, Window.upcoming, hunread.ended]
    rfl
  · exact fun hended => by cases hended

/-- One executed GETC uses up one byte and answers with it. -/
theorem Feeds.execute (h : m.Feeds d bs) {w : Word} (hw : w.IsGetc) :
    ∃ m', execute w m = .ok (m'.cpu.stop, m') ∧ m'.Feeds d bs.tail ∧
      m.cpu.Gets bs.head? m'.cpu := by
  have hentered : (InstructionSet.entered m).Feeds d bs := h.with_cpu _
  obtain ⟨m', hperform, hfeeds, hgets⟩ := hentered.perform rfl
  refine ⟨m', ?_, hfeeds, hgets⟩
  rw [InstructionSet.execute_run, hw.decode, hperform]

theorem Feeds.fetch (h : m.Feeds d bs) (hpc : m.cpu.pc ≠ keyboardData) {w : Word}
    (hfetch : Routine.fetch.run m = .ok (w, m')) :
    m'.Feeds d bs ∧ m'.cpu.stop = m.cpu.stop := by
  obtain ⟨m₁, hload, hcpu⟩ := Routine.fetch_inv hfetch
  have hready := h.with_cpu { m.cpu with lastPc := m.cpu.pc }
  refine ⟨h.routine (fun _ => fetch_loads hpc) hfetch, ?_⟩
  rw [hcpu, (hready.of_load hpc hload).2]

/-- A step that fetches a GETC does the same, as the fetch takes no byte of its own. -/
theorem Feeds.step (h : m.Feeds d bs) (hrun : m.cpu.stop = .running)
    (hpc : m.cpu.pc ≠ keyboardData) {w : Word} {m₁ : Machine Window}
    (hfetch : Routine.fetch.run m = .ok (w, m₁)) (hw : w.IsGetc) :
    ∃ m', step m = .ok ((), m') ∧ m'.Feeds d bs.tail ∧ m.cpu.Gets bs.head? m'.cpu := by
  obtain ⟨hfeeds, hstop⟩ := h.fetch hpc hfetch
  obtain ⟨m₂, hperform, hrest, hgets⟩ := hfeeds.perform (hstop.trans hrun)
  have hregister : m₁.cpu.register 0 = m.cpu.register 0 := by rw [Routine.fetch_cpu hfetch]; rfl
  refine ⟨{ m₂ with cpu := { m₂.cpu with executed := m₂.cpu.executed + 1 } }, ?_,
    hrest.with_cpu _, ?_⟩
  · rw [Machine.step, Routine.step, run_bind, hfetch]
    dsimp only
    rw [run_bind, hw.decode, hperform]
    rfl
  · cases bs with
    | nil => exact ⟨hgets.1, hgets.2.trans hregister⟩
    | cons b rest => exact hgets

/-- After so many calls exactly that many bytes are used up, by induction on the calls. -/
theorem Typed.feeds (h : Typed start calls m) (hstart : start.Feeds d bs) :
    m.Feeds d (bs.drop calls) := by
  induction h with
  | start => exact hstart
  | routine _ hquiet hrun ih => exact ih.routine hquiet hrun
  | getc _ hw hexecute ih =>
    obtain ⟨m', hexecute', hfeeds, -⟩ := ih.execute hw
    obtain rfl : m' = _ := (Prod.mk.inj (Except.ok.inj (hexecute'.symm.trans hexecute))).2
    rwa [List.tail_drop] at hfeeds
  | step _ hrun hpc hfetch hw hstep ih =>
    obtain ⟨m', hstep', hfeeds, -⟩ := ih.step hrun hpc hfetch hw
    obtain rfl : m' = _ := (Prod.mk.inj (Except.ok.inj (hstep'.symm.trans hstep))).2
    rwa [List.tail_drop] at hfeeds

/-- What the next call comes to where `calls` characters of an input are gone. -/
theorem Feeds.answers {input : List Byte} (h : m.Feeds d ((input.map received).drop calls)) :
    m.Answers (input[calls]?.map received) := by
  rw [← List.getElem?_map, ← List.head?_drop]
  exact {
    execute := by
      intro w hw
      obtain ⟨m', hexecute, -, hgets⟩ := h.execute hw
      exact ⟨m', hexecute, hgets⟩
    step := by
      intro w m₁ hrun hpc hfetch hw
      obtain ⟨m', hstep, -, hgets⟩ := h.step hrun hpc hfetch hw
      exact ⟨m', hstep, hgets⟩
    look := by
      obtain ⟨w, m', hlook, -⟩ := h.load_status
      exact ⟨w, m', hlook⟩ }

/-- Piped input reaches the program complete and in order, and its end comes last: each call for a
character gets the next one that was typed, and every later one finds the end of the input. -/
theorem typed_answers (hstart : start.StartsPiped d) (h : Typed start calls m) :
    m.Answers (start.host.console.input[calls]?.map received) := by
  have hfeeds := h.feeds hstart.feeds
  exact hfeeds.answers

/-- Two characters with an interrupted wait and a zero byte between them: both are read, the second
one as the end of a line after a look at the status, and the third call finds the end of the
input. -/
theorem typed_answers_twice :
    ∃ start m₁ m₂ m₃ m₄ : Machine Window, start.StartsPiped 0 ∧
      start.host.console.events =
        [.byte 0x61, .waitInterrupted, .byte 0, .byte Byte.carriageReturn] ∧
      execute 0xF020 start = .ok (.running, m₁) ∧ m₁.cpu.register 0 = 0x61 ∧
      (∃ status, load keyboardStatus m₁ = .ok (status, m₂)) ∧
      execute 0xF020 m₂ = .ok (.running, m₃) ∧ m₃.cpu.register 0 = 0x0A ∧ Typed start 2 m₃ ∧
      execute 0xF020 m₃ = .ok (.endOfInput, m₄) ∧ m₄.cpu.register 0 = 0x0A := by
  let window : Window :=
    .new false [.byte 0x61, .waitInterrupted, .byte 0, .byte Byte.carriageReturn] []
  let start : Machine Window :=
    { cpu := .initial
      memory := { Memory.full with io := (Table.fill false).fillRange 0xFE00 0xFE06 true }
      map := ⟨(Table.fill none).fillRange 0xFE00 0xFE06 (some 0)⟩
      devices := [(0, .newTerminal (Text.ofString "CON") true)]
      host := .new window (.empty []) default }
  have hstart : start.StartsPiped 0 :=
    { status := ⟨by decide, by decide, by decide⟩
      data := ⟨by decide, by decide, by decide⟩
      unused := ⟨_, true, rfl, rfl⟩
      unread := ⟨rfl, rfl, rfl, rfl, by decide⟩ }
  have hw : Word.IsGetc 0xF020 := by decide
  obtain ⟨m₁, hfirst, hstop₁, hkey₁⟩ := (typed_answers hstart .start).execute _ hw
  have h₁ : Typed start 1 m₁ := .getc .start hw hfirst
  obtain ⟨status, m₂, hlook⟩ := (typed_answers hstart h₁).look
  have h₂ : Typed start 1 m₂ := by
    refine .routine h₁ ?_ ((run_load keyboardStatus m₁).trans hlook)
    rintro y (⟨hload, -⟩ | ⟨w, m', -, hrest⟩)
    · exact absurd (Option.some.inj hload) (by decide)
    · exact hrest
  obtain ⟨m₃, hsecond, hstop₃, hkey₃⟩ := (typed_answers hstart h₂).execute _ hw
  have h₃ : Typed start 2 m₃ := .getc h₂ hw hsecond
  obtain ⟨m₄, hthird, hstop₄, hkey₄⟩ := (typed_answers hstart h₃).execute _ hw
  rw [hstop₁] at hfirst
  rw [hstop₃] at hsecond
  rw [hstop₄] at hthird
  exact ⟨start, m₁, m₂, m₃, m₄, hstart, rfl, hfirst, hkey₁, ⟨status, hlook⟩, hsecond, hkey₃, h₃,
    hthird, hkey₄.trans hkey₃⟩

end Machine

end LittleComputer
