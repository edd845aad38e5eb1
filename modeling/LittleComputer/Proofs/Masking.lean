import LittleComputer.Proofs.Bisimulation
import LittleComputer.Proofs.Instruction

/-!
# What instructions do not look at

No instruction has anything to do with the number of instructions executed, and only an instruction
without a meaning looks at what to do about it. So instructions do the same on processors that
differ in the number alone, and on processors that differ in both they do the same as long as they
have a meaning.
-/

namespace LittleComputer

namespace Cpu

/-- The change neither makes nor depends on a difference in the two fields. -/
def Blind (f : Cpu → Cpu) : Prop :=
  ∀ c n b, f { c with executed := n, stopOnIllegal := b } =
    { f c with executed := n, stopOnIllegal := b }

theorem Blind.executed {f : Cpu → Cpu} (hf : Blind f) (c : Cpu) :
    (f c).executed = c.executed := by
  have h := congrArg Cpu.executed (hf c c.executed c.stopOnIllegal)
  exact h

theorem Blind.stopOnIllegal {f : Cpu → Cpu} (hf : Blind f) (c : Cpu) :
    (f c).stopOnIllegal = c.stopOnIllegal := by
  have h := congrArg Cpu.stopOnIllegal (hf c c.executed c.stopOnIllegal)
  exact h

/-- Related processors differ at most in the two fields, and only those matter to the relation. -/
structure Masks (C : Cpu → Cpu → Prop) : Prop where
  same : ∀ {c c'}, C c c' →
    c' = { c with executed := c'.executed, stopOnIllegal := c'.stopOnIllegal }
  changed : ∀ {c c'} {f : Cpu → Cpu}, Blind f → C c c' → C (f c) (f c')

/-- A relation that only hides fields the routines leave alone is a bisimulation of processors. -/
theorem Masks.bisimulation {C : Cpu → Cpu → Prop} (hC : Masks C) : Bisimulation C where
  stop h := by rw [hC.same h]
  stopWith reason h := hC.changed (f := fun c => { c with stop := reason }) (fun _ _ _ => rfl) h

end Cpu

namespace Routine

variable {α β : Type} {C : Cpu → Cpu → Prop}

namespace Respects

theorem pure (a : α) : (Pure.pure a : Routine α).Respects C := trivial

theorem load (a : Word) : (load a).Respects C := ⟨trivial, fun _ => trivial⟩

theorem store (a w : Word) : (store a w).Respects C := ⟨trivial, fun _ => trivial⟩

theorem warn (text : Text) : (warn text).Respects C := ⟨trivial, fun _ => trivial⟩

theorem trace (address word : Word) : (trace address word).Respects C :=
  ⟨trivial, fun _ => trivial⟩

theorem bind {r : Routine α} {f : α → Routine β} (hr : r.Respects C) (hf : ∀ a, (f a).Respects C) :
    (r >>= f).Respects C := by
  change (r.bind f).Respects C
  induction r with
  | done a => exact hf a
  | act o next ih =>
    refine ⟨?_, fun b => ih b (hr.2 b)⟩
    have ho := hr.1
    cases o with
    | look => exact fun c c' hc => congrArg (fun r : Routine α => r.bind f) (ho c c' hc)
    | change g => exact ho
    | _ => trivial

theorem change (hC : Cpu.Masks C) {f : Cpu → Cpu} (hf : Cpu.Blind f) : (change f).Respects C :=
  ⟨fun _ _ hc => hC.changed hf hc, fun _ => trivial⟩

/-- What follows a look at the processor must not depend on which of two related ones it was. -/
theorem look_of {f : Cpu → Routine α} (hf : ∀ c c', C c c' → f c' = f c)
    (hn : ∀ c, (f c).Respects C) : (look >>= f).Respects C := ⟨hf, hn⟩

theorem look (hC : Cpu.Masks C) {f : Cpu → Routine α}
    (hf : ∀ c n b, f { c with executed := n, stopOnIllegal := b } = f c)
    (hn : ∀ c, (f c).Respects C) : (look >>= f).Respects C := by
  refine .look_of (fun c c' hc => ?_) hn
  rw [hC.same hc]
  exact hf c _ _

end Respects

/-! ## Instructions -/

/-- Reading a character looks at nothing but the stop code, which related processors share. -/
theorem readChar_respects (hC : Cpu.Masks C) : readChar.Respects C := by
  refine .bind (.load _) fun w => ?_
  split
  · refine .look hC (fun _ _ _ => rfl) fun c => ?_
    dsimp only
    split
    · exact .bind (.warn _) fun _ => .bind (.change hC fun _ _ _ => rfl) fun _ => .pure none
    · exact .pure none
  · exact .pure _

theorem writeChars_respects (bs : List Byte) : (writeChars bs).Respects C := by
  induction bs with
  | nil => exact .pure ()
  | cons b rest ih => exact .bind (.store _ _) fun _ => ih

theorem writeString_respects (chars : Word → List Byte) (n : Nat) (a : Word) :
    (writeString chars n a).Respects C := by
  induction n generalizing a with
  | zero => exact .pure ()
  | succ n ih =>
    refine .bind (.load a) fun w => ?_
    split
    · exact .pure ()
    · exact .bind (writeChars_respects _) fun _ => ih (a + 1)

theorem serve_respects (hC : Cpu.Masks C) (s : Service) : (serve s).Respects C := by
  cases s with
  | readChar =>
    refine .bind (readChar_respects hC) fun answer => ?_
    cases answer with
    | none => exact .pure ()
    | some b => exact .change hC fun _ _ _ => rfl
  | writeChar => exact .look hC (fun _ _ _ => rfl) fun c => .store _ _
  | writeString => exact .look hC (fun _ _ _ => rfl) fun c => writeString_respects _ _ _
  | promptChar =>
    refine .bind (writeChars_respects _) fun _ => .bind (readChar_respects hC) fun answer => ?_
    cases answer with
    | none => exact .pure ()
    | some b => exact .bind (.store _ _) fun _ => .change hC fun _ _ _ => rfl
  | writePacked => exact .look hC (fun _ _ _ => rfl) fun c => writeString_respects _ _ _
  | halt => exact .change hC fun _ _ _ => rfl

/-- An illegal instruction is the one place where the stop-on-illegal flag is looked at. -/
theorem illegal_respects (hC : Cpu.Masks C)
    (hflag : ∀ c c', C c c' → c'.stopOnIllegal = c.stopOnIllegal) (what : Text) :
    (illegal what).Respects C := by
  have hstop : (Routine.change (·.illegal)).Respects C := by
    refine ⟨fun c c' hc => ?_, fun _ => trivial⟩
    have hstopped := hC.changed (f := (·.breakWith .illegalOpcode)) (fun _ _ _ => rfl) hc
    show C c.illegal c'.illegal
    rw [Cpu.illegal, Cpu.illegal, hflag c c' hc]
    split
    · exact hstopped
    · exact hc
  refine .look_of (fun c c' hc => ?_) fun c => ?_
  · rw [hC.same hc, hflag c c' hc]
  · dsimp only
    split
    · exact .bind (.warn _) fun _ => hstop
    · exact hstop

/-- Instructions do the same on related processors, unless they have no meaning and the processors
differ in what to do about that. -/
theorem perform_respects (hC : Cpu.Masks C) {i : Instruction}
    (hi : i.ownStop ≠ some .illegalOpcode ∨
      ∀ c c', C c c' → c'.stopOnIllegal = c.stopOnIllegal) : (perform i).Respects C := by
  have hillegal (what : Text) (h : i.ownStop = some .illegalOpcode) :
      (illegal what).Respects C :=
    illegal_respects hC (hi.resolve_left fun hne => hne h) what
  refine .look hC (fun _ _ _ => by cases i <;> rfl) fun c => ?_
  cases i with
  | add | and | not | jmp | lea | jsr | jsrr => exact .change hC fun _ _ _ => rfl
  | br conditions offset =>
    dsimp only
    split
    · exact .change hC fun _ _ _ => rfl
    · exact .pure ()
  | ld | ldr => exact .bind (.load _) fun _ => .change hC fun _ _ _ => rfl
  | ldi => exact .bind (.load _) fun _ => .bind (.load _) fun _ => .change hC fun _ _ _ => rfl
  | st | str => exact .store _ _
  | sti => exact .bind (.load _) fun _ => .store _ _
  | trap vector =>
    refine .bind (.change hC fun _ _ _ => rfl) fun _ => ?_
    cases hs : Service.ofVector? vector with
    | some service => exact serve_respects hC service
    | none => exact hillegal _ (by rw [Instruction.ownStop, hs])
  | rti w | res w => exact hillegal _ rfl

theorem fetch_respects (hC : Cpu.Masks C) : fetch.Respects C := by
  refine .look hC (fun _ _ _ => rfl) fun c => .bind (.change hC fun _ _ _ => rfl) fun _ => ?_
  refine .bind (.load _) fun w => .bind (.trace _ _) fun _ => ?_
  exact .bind (.change hC fun _ _ _ => rfl) fun _ => .pure w

end Routine

end LittleComputer
