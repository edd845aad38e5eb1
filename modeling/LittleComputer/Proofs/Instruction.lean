import LittleComputer.Proofs.Routine

/-!
# What instructions change in the processor

Of the processor itself, no instruction changes the count of instructions, the address of the last
one or what to do about illegal ones. A service changes, besides the stop code, only the register
for its result. Every instruction has at most one stop code of its own.
-/

namespace LittleComputer

/-! ## Stop codes -/

/-- The stop code that a service may stop with. -/
def Service.ownStop : Service → Option StopCode
  | .readChar | .promptChar => some .endOfInput
  | .writeChar | .writeString | .writePacked => none
  | .halt => some .halt

/-- The services that write to the display. -/
def Service.Writes : Service → Prop
  | .writeChar | .writeString | .promptChar | .writePacked => True
  | .readChar | .halt => False

def Instruction.ownStop : Instruction → Option StopCode
  | .trap vector =>
    match Service.ofVector? vector with
    | some service => service.ownStop
    | none => some .illegalOpcode
  | .rti _ | .res _ => some .illegalOpcode
  | _ => none

/-- An instruction with a stop code of its own calls a service, or it has no meaning. -/
theorem Instruction.ownStop_inv {i : Instruction} {c : StopCode} (h : i.ownStop = some c) :
    (∃ v s, i = .trap v ∧ Service.ofVector? v = some s ∧ s.ownStop = some c) ∨
      (c = .illegalOpcode ∧
        ((∃ v, i = .trap v ∧ Service.ofVector? v = none) ∨ ∃ w, i = .rti w ∨ i = .res w)) := by
  cases i with
  | trap v =>
    rw [ownStop] at h
    split at h
    · rename_i s hs
      exact .inl ⟨v, s, rfl, hs, h⟩
    · rename_i hs
      cases h
      exact .inr ⟨rfl, .inl ⟨v, rfl, hs⟩⟩
  | rti w =>
    cases h
    exact .inr ⟨rfl, .inr ⟨w, .inl rfl⟩⟩
  | res w =>
    cases h
    exact .inr ⟨rfl, .inr ⟨w, .inr rfl⟩⟩
  | _ => cases h

/-- Only the services for a character find the end of the input, and only one service halts. -/
theorem Service.ownStop_mem {s : Service} {c : StopCode} (h : s.ownStop = some c) :
    c = .endOfInput ∧ (s = .readChar ∨ s = .promptChar) ∨ c = .halt ∧ s = .halt := by
  cases s with
  | readChar =>
    cases h
    exact .inl ⟨rfl, .inl rfl⟩
  | promptChar =>
    cases h
    exact .inl ⟨rfl, .inr rfl⟩
  | halt =>
    cases h
    exact .inr ⟨rfl, rfl⟩
  | writeChar | writeString | writePacked => cases h

theorem Instruction.ownStop_mem {i : Instruction} {c : StopCode} (h : i.ownStop = some c) :
    c = .endOfInput ∨ c = .illegalOpcode ∨ c = .halt := by
  rcases ownStop_inv h with ⟨v, s, -, -, hs⟩ | ⟨hc, -⟩
  · rcases Service.ownStop_mem hs with ⟨hc, -⟩ | ⟨hc, -⟩
    · exact .inl hc
    · exact .inr (.inr hc)
  · exact .inr (.inl hc)

namespace Cpu

/-- What no instruction changes. -/
structure Continues (c c' : Cpu) : Prop where
  lastPc : c'.lastPc = c.lastPc
  executed : c'.executed = c.executed
  stopOnIllegal : c'.stopOnIllegal = c.stopOnIllegal

/-- What no service changes. -/
structure Serves (c c' : Cpu) : Prop extends Continues c c' where
  pc : c'.pc = c.pc
  condition : c'.condition = c.condition
  registers : ∀ r, r ≠ 0 → c'.register r = c.register r

theorem Continues.refl (c : Cpu) : c.Continues c := ⟨rfl, rfl, rfl⟩

theorem Continues.trans {c₁ c₂ c₃ : Cpu} (h : c₁.Continues c₂) (h' : c₂.Continues c₃) :
    c₁.Continues c₃ where
  lastPc := h'.lastPc.trans h.lastPc
  executed := h'.executed.trans h.executed
  stopOnIllegal := h'.stopOnIllegal.trans h.stopOnIllegal

theorem Serves.refl (c : Cpu) : c.Serves c := ⟨.refl c, rfl, rfl, fun _ _ => rfl⟩

theorem Serves.trans {c₁ c₂ c₃ : Cpu} (h : c₁.Serves c₂) (h' : c₂.Serves c₃) : c₁.Serves c₃ where
  toContinues := h.toContinues.trans h'.toContinues
  pc := h'.pc.trans h.pc
  condition := h'.condition.trans h.condition
  registers := fun r hr => (h'.registers r hr).trans (h.registers r hr)

theorem serves_setRegister (c : Cpu) (v : Word) : c.Serves (c.setRegister 0 v) :=
  ⟨⟨rfl, rfl, rfl⟩, rfl, rfl, fun _ hr => Table.get_set_of_ne _ (Ne.symm hr) v⟩

theorem serves_breakWith (c : Cpu) (reason : StopCode) : c.Serves (c.breakWith reason) :=
  ⟨⟨rfl, rfl, rfl⟩, rfl, rfl, fun _ _ => rfl⟩

theorem serves_illegal (c : Cpu) : c.Serves c.illegal := by
  unfold illegal
  split
  · exact c.serves_breakWith .illegalOpcode
  · exact .refl c

/-- The stop code changes to `own` if at all. -/
def StopsWith (own : Option StopCode) (c c' : Cpu) : Prop :=
  c'.stop = c.stop ∨ own = some c'.stop

end Cpu

namespace Routine

open Operation (Changes Does StoresIn)
open Terminal (displayData)

/-! ## Services -/

abbrev Serving (own : Option StopCode) (c c' : Cpu) : Prop := c.Serves c' ∧ c.StopsWith own c'

variable {p : Word → Prop}

theorem look_does {P : Cpu → Cpu → Prop} : look.All (Does P p) := .one ⟨trivial, trivial⟩

theorem load_does {P : Cpu → Cpu → Prop} (a : Word) : (load a).All (Does P p) :=
  .one ⟨trivial, trivial⟩

theorem warn_does {P : Cpu → Cpu → Prop} (text : Text) : (warn text).All (Does P p) :=
  .one ⟨trivial, trivial⟩

theorem change_does {P : Cpu → Cpu → Prop} {f : Cpu → Cpu} (hf : ∀ c, P c (f c)) :
    (change f).All (Does P p) :=
  .one ⟨hf, trivial⟩

/-- To read a character sets the first register or notices the end of the input. -/
theorem readChar_does : readChar.All (Does (Serving (some .endOfInput)) p) := by
  refine .bind (load_does _) fun w => ?_
  split
  · refine .bind look_does fun c => ?_
    dsimp only
    split
    · refine .bind (warn_does _) fun _ => .bind (change_does fun c => ?_) fun _ => .pure none
      exact ⟨c.serves_breakWith .endOfInput, .inr rfl⟩
    · exact .pure none
  · exact .pure _

theorem writeChar_does (own : Option StopCode) (b : Byte) (hp : p displayData) :
    (writeChar b).All (Does (Serving own) p) := .one ⟨trivial, hp⟩

theorem writeChars_does (own : Option StopCode) (bs : List Byte) (hp : p displayData) :
    (writeChars bs).All (Does (Serving own) p) := by
  induction bs with
  | nil => exact .pure ()
  | cons b rest ih => exact .bind (writeChar_does own b hp) fun _ => ih

/-- To write a string changes nothing in the processor, and stores at the display only. -/
theorem writeString_does (own : Option StopCode) (chars : Word → List Byte) (n : Nat) (a : Word)
    (hp : p displayData) : (writeString chars n a).All (Does (Serving own) p) := by
  induction n generalizing a with
  | zero => exact .pure ()
  | succ n ih =>
    refine .bind (load_does a) fun w => ?_
    split
    · exact .pure ()
    · exact .bind (writeChars_does own (chars w) hp) fun _ => ih (a + 1)

theorem change_result_does (own : Option StopCode) (v : Word) :
    (change (·.setRegister 0 v)).All (Does (Serving own) p) :=
  change_does fun c => ⟨c.serves_setRegister v, .inl rfl⟩

/-- Everything that a service changes in the processor, and where it stores. -/
theorem serve_does (s : Service) (hp : s.Writes → p displayData) :
    (serve s).All (Does (Serving s.ownStop) p) := by
  cases s with
  | readChar =>
    refine .bind readChar_does fun answer => ?_
    cases answer with
    | none => exact .pure ()
    | some b => exact change_result_does _ (Word.ofByte b)
  | writeChar => exact .bind look_does fun c => writeChar_does _ _ (hp trivial)
  | writeString => exact .bind look_does fun c => writeString_does _ plainChars _ _ (hp trivial)
  | promptChar =>
    refine .bind (writeChars_does _ prompt (hp trivial)) fun _ =>
      .bind readChar_does fun answer => ?_
    cases answer with
    | none => exact .pure ()
    | some b =>
      exact .bind (writeChar_does _ b (hp trivial)) fun _ => change_result_does _ (Word.ofByte b)
  | writePacked => exact .bind look_does fun c => writeString_does _ packedChars _ _ (hp trivial)
  | halt => exact change_does fun c => ⟨c.serves_breakWith .halt, .inr rfl⟩

theorem serve_all (s : Service) : (serve s).All (Changes (Serving s.ownStop)) :=
  (serve_does (p := fun _ => True) s fun _ => trivial).changes

/-- An illegal instruction complains and stops the machine, or does nothing if it is ignored. -/
theorem illegal_run {κ : Type} [Console κ] (what : Text) (m : Machine κ) :
    (illegal what).run m =
      .ok ((), { m with
        cpu := m.cpu.illegal
        host := if m.cpu.stopOnIllegal then
            m.host.reportFormatted .warning (what ++ " at " ++ Text.address m.cpu.lastPc)
          else m.host }) := by
  rw [illegal, run_bind, run_look]
  dsimp only
  cases m.cpu.stopOnIllegal with
  | true =>
    rw [if_pos rfl, run_bind, run_warn]
    rfl
  | false => rfl

theorem illegal_does (what : Text) :
    (illegal what).All (Does (Serving (some .illegalOpcode)) p) := by
  have hstop : ∀ c : Cpu, c.StopsWith (some .illegalOpcode) c.illegal := by
    intro c
    unfold Cpu.illegal
    split
    · exact .inr rfl
    · exact .inl rfl
  have hchange : (change (·.illegal)).All (Does (Serving (some .illegalOpcode)) p) :=
    change_does fun c => ⟨c.serves_illegal, hstop c⟩
  refine .bind look_does fun c => ?_
  dsimp only
  split
  · exact .bind (warn_does _) fun _ => hchange
  · exact hchange

theorem illegal_all (what : Text) :
    (illegal what).All (Changes (Serving (some .illegalOpcode))) :=
  (illegal_does (p := fun _ => True) what).changes

/-! ## Instructions -/

abbrev Performing (own : Option StopCode) (c c' : Cpu) : Prop :=
  c.Continues c' ∧ c.StopsWith own c'

theorem Serving.performing {own : Option StopCode} (c c' : Cpu) (h : Serving own c c') :
    Performing own c c' := ⟨h.1.toContinues, h.2⟩

/-- A change by an instruction keeps what every instruction keeps. -/
theorem change_all {own : Option StopCode} {f : Cpu → Cpu}
    (h : ∀ c, c.Continues (f c) ∧ (f c).stop = c.stop) :
    (change f).All (Changes (Performing own)) :=
  .one fun c => ⟨(h c).1, .inl (h c).2⟩

/-- Everything that an instruction changes in the processor. -/
theorem perform_all (i : Instruction) : (perform i).All (Changes (Performing i.ownStop)) := by
  have hillegal : ∀ what, (illegal what).All (Changes (Performing (some .illegalOpcode))) :=
    fun what => (illegal_all what).mono fun _ ho => ho.mono Serving.performing
  refine .bind (.one trivial) fun c => ?_
  cases i with
  | add | and | not | jmp | lea => exact change_all fun _ => ⟨⟨rfl, rfl, rfl⟩, rfl⟩
  | jsr | jsrr => exact change_all fun _ => ⟨⟨rfl, rfl, rfl⟩, rfl⟩
  | br conditions offset =>
    dsimp only
    split
    · exact change_all fun _ => ⟨⟨rfl, rfl, rfl⟩, rfl⟩
    · exact .pure ()
  | ld | ldr => exact .bind (.one trivial) fun _ => change_all fun _ => ⟨⟨rfl, rfl, rfl⟩, rfl⟩
  | ldi =>
    exact .bind (.one trivial) fun _ => .bind (.one trivial) fun _ =>
      change_all fun _ => ⟨⟨rfl, rfl, rfl⟩, rfl⟩
  | st | str => exact .one trivial
  | sti => exact .bind (.one trivial) fun _ => .one trivial
  | trap vector =>
    -- The return address is no part of the service, which leaves all registers but its own alone.
    refine .bind (change_all fun _ => ⟨⟨rfl, rfl, rfl⟩, rfl⟩) fun _ => ?_
    rw [Instruction.ownStop]
    cases Service.ofVector? vector with
    | some service => exact (serve_all service).mono fun _ ho => ho.mono Serving.performing
    | none => exact hillegal _
  | rti w => exact hillegal _
  | res w => exact hillegal _

/-- Of a trap only the service stores. -/
theorem trap_storesIn (vector : Byte)
    (hp : ∀ s, Service.ofVector? vector = some s → s.Writes → p displayData) :
    (perform (.trap vector)).All (StoresIn p) := by
  refine .bind (.one trivial) fun c => .bind (.one trivial) fun _ => ?_
  cases hs : Service.ofVector? vector with
  | some s => exact (serve_does s (hp s hs)).storesIn
  | none => exact (illegal_does _).storesIn

section
variable {κ : Type} [Console κ] {α : Type} {r : Routine α} {own : Option StopCode}
  {m m' : Machine κ} {a : α}

theorem All.continues (hr : r.All (Changes (Performing own))) (h : r.run m = .ok (a, m')) :
    m.cpu.Continues m'.cpu := by
  have hkept : r.All (Changes Cpu.Continues) :=
    hr.mono fun _ ho => ho.mono fun _ _ hp => hp.1
  exact hkept.keeps_cpu Cpu.Continues.refl .trans (fun _ _ => ⟨rfl, rfl, rfl⟩) h

theorem All.serves (hr : r.All (Changes (Serving own))) (h : r.run m = .ok (a, m')) :
    m.cpu.Serves m'.cpu := by
  have hkept : r.All (Changes Cpu.Serves) :=
    hr.mono fun _ ho => ho.mono fun _ _ hp => hp.1
  exact hkept.keeps_cpu Cpu.Serves.refl .trans Cpu.serves_breakWith h

/-- An instruction keeps the counters and the flag of the processor. -/
theorem perform_continues {i : Instruction} (h : (perform i).run m = .ok ((), m')) :
    m.cpu.Continues m'.cpu :=
  (perform_all i).continues h

/-- A trap puts the return address into a register and serves its vector. -/
theorem perform_trap_run (vector : Byte) (m : Machine κ) :
    (perform (.trap vector)).run m =
      (match Service.ofVector? vector with
        | some service => serve service
        | none => illegal ("unknown trap vector 0x" ++ Text.ofByte vector)).run
        { m with cpu := m.cpu.setRegister 7 m.cpu.pc } := by
  rw [perform, run_bind, run_look]
  exact run_bind (change (·.setRegister 7 m.cpu.pc)) _ m

/-- A trap keeps its return address before the service starts, so the service finds it there. -/
theorem perform_trap {vector : Byte} (h : (perform (.trap vector)).run m = .ok ((), m')) :
    (m.cpu.setRegister 7 m.cpu.pc).Serves m'.cpu := by
  rw [perform_trap_run] at h
  split at h
  · rename_i service _
    exact (serve_all service).serves h
  · exact (illegal_all _).serves h

end

end Routine

end LittleComputer
