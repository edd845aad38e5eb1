import LittleComputer.Proofs.InstructionSet
import LittleComputer.Proofs.Sample
import LittleComputer.Proofs.Trail

/-!
# What stop codes tell

The stop code of a run tells why it ended. It is written by the run itself, by instructions, by
services and by terminals, and a later one can replace an earlier one. Here is proved what the code
that is left tells about the last instruction of the run.
-/

namespace LittleComputer

open InstructionSet (bits)

/-! ## Stop codes and words -/

namespace Instruction

/-- The stop code that a trap can set follows from its vector alone. -/
theorem ownStop_trap (v : Byte) :
    (trap v).ownStop =
      if v.toNat = 0x25 then some .halt
      else if v.toNat = 0x20 ∨ v.toNat = 0x23 then some .endOfInput
      else if 0x20 ≤ v.toNat ∧ v.toNat ≤ 0x25 then none
      else some .illegalOpcode := by
  revert v
  decide +kernel

/-- The stop code that the instruction in a word may stop with, from the bits of the word. -/
theorem ownStop_decode (w : Word) :
    (decode w).ownStop =
      if bits w 12 4 = 15 then
        if bits w 0 8 = 0x25 then some .halt
        else if bits w 0 8 = 0x20 ∨ bits w 0 8 = 0x23 then some .endOfInput
        else if 0x20 ≤ bits w 0 8 ∧ bits w 0 8 ≤ 0x25 then none
        else some .illegalOpcode
      else if bits w 12 4 = 8 ∨ bits w 12 4 = 13 then some .illegalOpcode
      else none := by
  by_cases hw : bits w 12 4 = 15
  · rw [if_pos hw, InstructionSet.decode_eq_trap hw, ownStop_trap, InstructionSet.vector_eq]
  · rw [if_neg hw]
    rw [InstructionSet.opcode_eq] at hw ⊢
    rw [decode]
    generalize Opcode.ofBits (Field.opcode w) = o at hw ⊢
    cases o with
    | trap => exact absurd rfl hw
    | jsr =>
      cases Field.hasOffset w with
      | true => rfl
      | false => rfl
    | _ => rfl

end Instruction

/-- The word of a call for the service that stops the machine. -/
def Word.IsHalt (w : Word) : Prop := bits w 12 4 = 15 ∧ bits w 0 8 = 0x25

/-- The word of a call for a service that reads a character. -/
def Word.ReadsChar (w : Word) : Prop :=
  bits w 12 4 = 15 ∧ (bits w 0 8 = 0x20 ∨ bits w 0 8 = 0x23)

/-- A word without a meaning. -/
def Word.IsIllegal (w : Word) : Prop :=
  bits w 12 4 = 8 ∨ bits w 12 4 = 13 ∨
    (bits w 12 4 = 15 ∧ ¬ (0x20 ≤ bits w 0 8 ∧ bits w 0 8 ≤ 0x25))

namespace Instruction

theorem ownStop_halt (w : Word) : (decode w).ownStop = some .halt ↔ w.IsHalt := by
  rw [ownStop_decode, Word.IsHalt]
  grind

theorem ownStop_endOfInput (w : Word) : (decode w).ownStop = some .endOfInput ↔ w.ReadsChar := by
  rw [ownStop_decode, Word.ReadsChar]
  grind

theorem ownStop_illegal (w : Word) :
    (decode w).ownStop = some .illegalOpcode ↔ w.IsIllegal := by
  rw [ownStop_decode, Word.IsIllegal]
  grind

end Instruction

/-! ## Stop codes and instructions -/

namespace Routine

open Operation (Changes)

variable {κ : Type} [Console κ] {α : Type} {m m' : Machine κ}

/-- The stop code after a routine that has at most one of its own. -/
theorem All.own_stop {own : Option StopCode} {P : Cpu → Cpu → Prop} {r : Routine α} {a : α}
    (hr : r.All (Changes fun c c' => P c c' ∧ c.StopsWith own c')) (h : r.run m = .ok (a, m')) :
    m'.cpu.stop = m.cpu.stop ∨ own = some m'.cpu.stop ∨ m'.cpu.stop = .interrupted := by
  have hS : r.All (Changes fun c c' => c'.stop = c.stop ∨ own = some c'.stop) :=
    hr.mono fun _ ho => ho.mono fun _ _ hp => hp.2
  rcases hS.stop (S := fun c => own = some c) h with hc | hc | ⟨hc, -⟩
  · exact .inl hc
  · exact .inr (.inl hc)
  · exact .inr (.inr hc)

/-- A new stop code that is no interruption is the routine's own. -/
theorem All.own_of_stop {own : Option StopCode} {P : Cpu → Cpu → Prop} {r : Routine α} {a : α}
    {c : StopCode} (hr : r.All (Changes fun c c' => P c c' ∧ c.StopsWith own c'))
    (h : r.run m = .ok (a, m')) (hm : m.cpu.stop ≠ c) (hm' : m'.cpu.stop = c)
    (hc : c ≠ .interrupted) : own = some c := by
  rcases hr.own_stop h with hs | hs | hs
  · exact absurd (hs.symm.trans hm') hm
  · rw [hs, hm']
  · exact absurd (hm'.symm.trans hs) hc

theorem perform_halt {i : Instruction} (hi : i.ownStop = some .halt)
    (h : (perform i).run m = .ok ((), m')) : m'.cpu.stop = .halt := by
  rcases Instruction.ownStop_inv hi with ⟨v, s, rfl, hv, hs⟩ | ⟨hc, -⟩
  · rcases Service.ownStop_mem hs with ⟨hc, -⟩ | ⟨-, rfl⟩
    · cases hc
    · rw [perform_trap_run, hv] at h
      cases h
      rfl
  · cases hc

theorem illegal_stop {what : Text} (h : (illegal what).run m = .ok ((), m')) :
    m'.cpu.stop = if m.cpu.stopOnIllegal then .illegalOpcode else m.cpu.stop := by
  rw [illegal_run] at h
  cases h
  show m.cpu.illegal.stop = _
  unfold Cpu.illegal
  split
  · rfl
  · rfl

theorem perform_illegal {i : Instruction} (hi : i.ownStop = some .illegalOpcode)
    (h : (perform i).run m = .ok ((), m')) :
    m'.cpu.stop = if m.cpu.stopOnIllegal then .illegalOpcode else m.cpu.stop := by
  rcases Instruction.ownStop_inv hi with ⟨v, s, -, -, hs⟩ | ⟨-, ⟨v, rfl, hv⟩ | ⟨w, rfl | rfl⟩⟩
  · rcases Service.ownStop_mem hs with ⟨hc, -⟩ | ⟨hc, -⟩
    · cases hc
    · cases hc
  · rw [perform_trap_run, hv] at h
    exact illegal_stop (m := { m with cpu := m.cpu.setRegister 7 m.cpu.pc }) h
  · rw [perform, run_bind, run_look] at h
    exact illegal_stop h
  · rw [perform, run_bind, run_look] at h
    exact illegal_stop h

/-- The read that finds the end of the input while the machine is still running. -/
def FindsEnd (r : Routine α) (m : Machine κ) : Prop :=
  ∃ y y', r.Loads m Terminal.keyboardData y ∧
    Machine.load Terminal.keyboardData y = .ok (Word.allOnes, y') ∧ y'.cpu.stop = .running

/-- Reading a character stops with the end of the input only if the keyboard reported it. -/
theorem readChar_endOfInput {answer : Option Byte} (hm : m.cpu.stop ≠ .endOfInput)
    (h : readChar.run m = .ok (answer, m')) (hm' : m'.cpu.stop = .endOfInput) :
    readChar.FindsEnd m := by
  obtain ⟨w, m₁, hl, h⟩ := run_bind_eq_ok.mp h
  rw [run_load] at hl
  have hm₁ : m₁.cpu.stop ≠ .endOfInput := by
    rcases Machine.load_after hl with ⟨-, hc⟩ | ⟨-, hc⟩
    · rw [hc]
      decide
    · rw [hc]
      exact hm
  split at h
  · rename_i hw
    rw [run_bind, run_look] at h
    dsimp only at h
    split at h
    · rename_i hrun
      subst hw
      exact ⟨m, m₁, .inl ⟨rfl, rfl⟩, hl, hrun⟩
    · cases h
      exact absurd hm' hm₁
  · cases h
    exact absurd hm' hm₁

theorem FindsEnd.bind {β : Type} {r : Routine β} {f : β → Routine α} (h : r.FindsEnd m) :
    (r >>= f).FindsEnd m := by
  obtain ⟨y, y', hl, hload, hrun⟩ := h
  exact ⟨y, y', hl.bind, hload, hrun⟩

theorem FindsEnd.bind_of_run {β : Type} {r : Routine β} {f : β → Routine α} {b : β}
    (hr : r.run m = .ok (b, m')) (h : (f b).FindsEnd m') : (r >>= f).FindsEnd m := by
  obtain ⟨y, y', hl, hload, hrun⟩ := h
  exact ⟨y, y', .bind_of_run hr hl, hload, hrun⟩

/-- Without a stop code of its own a routine does not come to the end of the input. -/
theorem stop_ne_endOfInput {r : Routine α} {a : α} (hr : r.All (Changes (Serving none)))
    (h : r.run m = .ok (a, m')) (hm : m.cpu.stop ≠ .endOfInput) : m'.cpu.stop ≠ .endOfInput := by
  intro hm'
  have hnone := hr.own_of_stop h hm hm' (by decide)
  cases hnone

/-- Reading a character is all that a service which comes to the end of the input does about it. -/
theorem findsEnd_of_readChar {f : Option Byte → Routine Unit} (hm : m.cpu.stop ≠ .endOfInput)
    (hf : ∀ answer, (f answer).All (Changes (Serving none)))
    (h : (readChar >>= f).run m = .ok ((), m')) (hm' : m'.cpu.stop = .endOfInput) :
    (readChar >>= f).FindsEnd m := by
  obtain ⟨answer, m₁, hr, h⟩ := run_bind_eq_ok.mp h
  by_cases hm₁ : m₁.cpu.stop = .endOfInput
  · exact (readChar_endOfInput hm hr hm₁).bind
  · exact absurd hm' (stop_ne_endOfInput (hf answer) h hm₁)

theorem serve_endOfInput {s : Service} (hm : m.cpu.stop ≠ .endOfInput)
    (h : (serve s).run m = .ok ((), m')) (hm' : m'.cpu.stop = .endOfInput) :
    (serve s).FindsEnd m := by
  have hown : s.ownStop = some .endOfInput := (serve_all s).own_of_stop h hm hm' (by decide)
  rcases Service.ownStop_mem hown with ⟨-, rfl | rfl⟩ | ⟨hc, -⟩
  · refine findsEnd_of_readChar hm (fun answer => ?_) h hm'
    cases answer with
    | none => exact .pure ()
    | some b => exact (change_result_does (p := fun _ => True) none _).changes
  · obtain ⟨u, m₁, hp, h₁⟩ := run_bind_eq_ok.mp h
    refine .bind_of_run hp ?_
    have hprompt : (writeChars prompt).All (Changes (Serving none)) :=
      (writeChars_does (p := fun _ => True) none prompt trivial).changes
    have hm₁ := stop_ne_endOfInput hprompt hp hm
    refine findsEnd_of_readChar hm₁ (fun answer => ?_) h₁ hm'
    cases answer with
    | none => exact .pure ()
    | some b =>
      have hchar := writeChar_does (p := fun _ => True) none b trivial
      exact (hchar.bind fun _ => change_result_does none _).changes
  · cases hc

/-- An instruction that ends with the end of the input reads a character and found the end. -/
theorem perform_endOfInput {i : Instruction} (hm : m.cpu.stop ≠ .endOfInput)
    (h : (perform i).run m = .ok ((), m')) (hm' : m'.cpu.stop = .endOfInput) :
    i.ownStop = some .endOfInput ∧ (perform i).FindsEnd m := by
  have hown : i.ownStop = some .endOfInput := (perform_all i).own_of_stop h hm hm' (by decide)
  refine ⟨hown, ?_⟩
  rcases Instruction.ownStop_inv hown with ⟨v, s, rfl, hv, -⟩ | ⟨hc, -⟩
  · rw [perform_trap_run, hv] at h
    have hs := serve_endOfInput (m := { m with cpu := m.cpu.setRegister 7 m.cpu.pc }) hm h hm'
    refine .bind_of_run (run_look m) (.bind_of_run (run_change _ m) ?_)
    rw [hv]
    exact hs
  · cases hc

/-! ## Stop codes and steps -/

/-- A fetch that stops the machine was made from a device and noticed an interruption. -/
theorem fetch_stop {w : Word} (hrun : m.cpu.stop = .running) (h : fetch.run m = .ok (w, m')) :
    m'.cpu.stop = .running ∨ m'.cpu.stop = .interrupted := by
  obtain ⟨m₁, hl, hc⟩ := fetch_inv h
  rw [hc]
  rcases Machine.load_after hl with ⟨-, hstop⟩ | ⟨-, hstop⟩
  · exact .inr hstop
  · exact .inl (hstop.trans hrun)

/-- What the stop code after a step tells about the word `w` that was fetched for it. -/
structure StepTells (m : Machine κ) (w : Word) (fetched m' : Machine κ) : Prop where
  halt : m'.cpu.stop = .halt ↔ w.IsHalt
  illegal : m'.cpu.stop = .illegalOpcode ↔ m.cpu.stopOnIllegal = true ∧ w.IsIllegal
  endOfInput : m'.cpu.stop = .endOfInput →
    w.ReadsChar ∧ (perform (Instruction.decode w)).FindsEnd fetched
  interrupted : m'.cpu.stop = .interrupted → step.TakesBreak m

/-- The stop code after one step tells which word was fetched, in the ways `StepTells` lists. -/
theorem step_tells (hrun : m.cpu.stop = .running) (h : step.run m = .ok ((), m')) :
    ∃ w fetched, fetch.run m = .ok (w, fetched) ∧ StepTells m w fetched m' := by
  have hstep := step_stop hrun h
  obtain ⟨w, m₁, m₂, hf, hp, hm'⟩ := step_inv h
  have hsame : m'.cpu.stop = m₂.cpu.stop := by rw [hm']
  rw [hsame] at hstep
  have hillegal : m₁.cpu.stopOnIllegal = m.cpu.stopOnIllegal := by rw [fetch_cpu hf]
  have hstop := fetch_stop hrun hf
  -- The fetch leaves the machine running or interrupted, so any other code is the instruction's.
  have hne : ∀ c : StopCode, c ≠ .running → c ≠ .interrupted → m₁.cpu.stop ≠ c := by
    intro c hc hc' hm₁
    rcases hstop with hs | hs
    · exact hc (hm₁ ▸ hs)
    · exact hc' (hm₁ ▸ hs)
  have hown : ∀ c : StopCode, c ≠ .running → c ≠ .interrupted → m₂.cpu.stop = c →
      (Instruction.decode w).ownStop = some c := by
    intro c hc hc' hm₂
    exact (perform_all (Instruction.decode w)).own_of_stop hp (hne c hc hc') hm₂ hc'
  refine ⟨w, m₁, hf, ?_⟩
  constructor
  · rw [hsame]
    constructor
    · intro hc
      exact (Instruction.ownStop_halt w).mp (hown .halt (by decide) (by decide) hc)
    · intro hw
      exact perform_halt ((Instruction.ownStop_halt w).mpr hw) hp
  · rw [hsame]
    constructor
    · intro hc
      have hi := hown .illegalOpcode (by decide) (by decide) hc
      have hflag := perform_illegal hi hp
      rw [hillegal] at hflag
      refine ⟨?_, (Instruction.ownStop_illegal w).mp hi⟩
      cases hs : m.cpu.stopOnIllegal with
      | true => rfl
      | false =>
        rw [hs] at hflag
        exact absurd (hflag.symm.trans hc) (hne .illegalOpcode (by decide) (by decide))
    · rintro ⟨hflag, hw⟩
      have hc := perform_illegal ((Instruction.ownStop_illegal w).mpr hw) hp
      rw [hillegal, hflag] at hc
      exact hc
  · rw [hsame]
    intro hc
    have hm₁ := hne .endOfInput (by decide) (by decide)
    obtain ⟨hi, hfinds⟩ := perform_endOfInput hm₁ hp hc
    exact ⟨(Instruction.ownStop_endOfInput w).mp hi, hfinds⟩
  · rw [hsame]
    intro hc
    rcases hstep with hs | (hs | hs | hs) | ⟨-, hbreak⟩
    · exact absurd (hs.symm.trans hc) (by decide)
    · exact absurd (hs.symm.trans hc) (by decide)
    · exact absurd (hs.symm.trans hc) (by decide)
    · exact absurd (hs.symm.trans hc) (by decide)
    · exact hbreak

end Routine

/-! ## Stop codes and runs -/

namespace Machine

variable {κ : Type} [Console κ]

namespace Executes

variable {m m' : Machine κ} {trail : List (Machine κ)}

theorem stopOnIllegal (h : Executes m trail m') :
    m'.cpu.stopOnIllegal = m.cpu.stopOnIllegal := by
  induction h with
  | nil m => rfl
  | cons _ hstep _ ih =>
    obtain ⟨w, m₁, m₂, hf, hp, rfl⟩ := Routine.step_inv hstep
    rw [ih]
    show m₂.cpu.stopOnIllegal = _
    rw [(Routine.perform_continues hp).stopOnIllegal, Routine.fetch_cpu hf]

/-- Only the last instruction of a trail can be interrupted. -/
theorem not_takesBreak {last : Machine κ} (h : Executes m (trail ++ [last]) m') :
    ∀ x ∈ trail, ¬ Routine.step.TakesBreak x := by
  induction trail generalizing m with
  | nil =>
    intro x hx
    cases hx
  | cons y trail ih =>
    cases h with
    | cons hrun hstep hrest =>
      intro x hx hbreak
      rcases List.mem_cons.mp hx with rfl | hx
      · have hrun' := hrest.running (by simp)
        exact Routine.step_stopped hbreak hstep hrun'
      · exact ih hrest x hx hbreak

end Executes

omit [Console κ] in
/-- The run itself never stops with a code of an instruction or of a terminal. -/
theorem RunEnd.code_iff {limit : BitVec 32} {m₁ m' : Machine κ} {used : Nat} {c d : StopCode}
    (h : RunEnd limit m₁ used c m')
    (hd : d = .halt ∨ d = .illegalOpcode ∨ d = .endOfInput ∨ d = .interrupted) :
    c = d ↔ m₁.cpu.stop = d := by
  cases h with
  | finished hrun | breakpoint hrun =>
    rw [hrun]
    rcases hd with rfl | rfl | rfl | rfl <;> decide
  | stopped => exact Iff.rfl

/-- What the stop code of a run tells, if `before` and then `last` are the machines that it executed
an instruction on, and `w` is the word that it fetched for the last of them. -/
structure RunTells (m : Machine κ) (limit : BitVec 32) (before : List (Machine κ))
    (last : Machine κ) (w : Word) (fetched : Machine κ) (c : StopCode) (m' : Machine κ) :
    Prop where
  counted : m'.cpu.executed = m.cpu.executed + (before.length + 1)
  bounded : limit ≠ 0 → before.length + 1 ≤ limit.toNat
  stopped : c ≠ .running ∧ c ≠ .endlessLoop
  halt : c = .halt ↔ w.IsHalt
  illegal : c = .illegalOpcode ↔ m.cpu.stopOnIllegal = true ∧ w.IsIllegal
  endOfInput : c = .endOfInput →
    w.ReadsChar ∧ (Routine.perform (Instruction.decode w)).FindsEnd fetched
  finished : c = .finished → limit ≠ 0 ∧ before.length + 1 = limit.toNat
  breakpoint : c = .breakpoint → m'.memory.isBreak m'.cpu.pc = .ok true
  interrupted : c = .interrupted → Routine.step.TakesBreak last
  uninterrupted : ∀ x ∈ before, ¬ Routine.step.TakesBreak x

/-- Every run executes at least one instruction, and its stop code tells the truth about it. -/
theorem run_tells {m m' : Machine κ} {limit : BitVec 32} {budget : Nat} {c : StopCode}
    (h : run limit budget m = .ok (c, m')) :
    ∃ before last w fetched after,
      Executes (m.stopWith .running) (before ++ [last]) after ∧ m' = after.stopWith c ∧
        Routine.fetch.run last = .ok (w, fetched) ∧
        RunTells m limit before last w fetched c m' := by
  obtain ⟨trail, after, htrail, hne, hlen, hend⟩ := run_trail h
  obtain ⟨before, last, rfl⟩ : ∃ before last, trail = before ++ [last] :=
    ⟨trail.dropLast, trail.getLast hne, (List.dropLast_concat_getLast hne).symm⟩
  obtain ⟨m₁, hbefore, hlast⟩ := htrail.split
  cases hlast with
  | cons hrun hstep hnil =>
    cases hnil
    obtain ⟨w, fetched, hfetch, htells⟩ := Routine.step_tells hrun hstep
    have hcount : after.cpu.executed = m.cpu.executed + (before.length + 1) := by
      rw [htrail.executed, List.length_append]
      rfl
    have hlimit : limit ≠ 0 → before.length + 1 ≤ limit.toNat := by
      rw [List.length_append] at hlen
      exact hlen
    have hillegal : last.cpu.stopOnIllegal = m.cpu.stopOnIllegal := hbefore.stopOnIllegal
    have hm' := hend.eq_stopWith
    have hcode {d : StopCode} := hend.code_iff (d := d)
    refine ⟨before, last, w, fetched, after, htrail, hm', hfetch, ?_⟩
    exact {
      counted := by
        rw [hm']
        exact hcount
      bounded := hlimit
      stopped := by
        cases hend with
        | finished | breakpoint => decide
        | stopped hstop => exact ⟨hstop, htrail.stop_ne hne (.inr (.inr rfl))⟩
      halt := (hcode (.inl rfl)).trans htells.halt
      illegal := by
        rw [← hillegal]
        exact (hcode (.inr (.inl rfl))).trans htells.illegal
      endOfInput := fun hc => htells.endOfInput ((hcode (.inr (.inr (.inl rfl)))).mp hc)
      finished := by
        intro hc
        cases hend with
        | finished _ hpos hused =>
          rw [List.length_append] at hused
          exact ⟨hpos, hused⟩
        | breakpoint => cases hc
        | stopped => exact absurd hc (htrail.stop_ne hne (.inl rfl))
      breakpoint := by
        intro hc
        cases hend with
        | finished => cases hc
        | breakpoint _ hb => exact hb
        | stopped => exact absurd hc (htrail.stop_ne hne (.inr (.inl rfl)))
      interrupted := fun hc => htells.interrupted ((hcode (.inr (.inr (.inr rfl)))).mp hc)
      uninterrupted := htrail.not_takesBreak }

/-- `ADD R0, R0, #1`, and then `GETC`, which waits until the operator asks for an interruption. -/
theorem run_tells_interrupted :
    ∃ m', run 0 5 (sample [0x1021, 0xF020] [.pause, .interrupt]) = .ok (.interrupted, m') ∧
      ∃ before last after,
        Executes ((sample [0x1021, 0xF020] [.pause, .interrupt]).stopWith .running)
          (before ++ [last]) after ∧ Routine.step.TakesBreak last := by
  let m := sample [0x1021, 0xF020] [.pause, .interrupt]
  have hrun := eq_ok_of_result (x := run 0 5 m) (a := .interrupted) m (by decide +kernel)
  obtain ⟨before, last, w, fetched, after, htrail, -, -, htells⟩ := run_tells hrun
  exact ⟨_, hrun, before, last, after, htrail, htells.interrupted rfl⟩

end Machine

end LittleComputer
