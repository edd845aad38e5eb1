import LittleComputer.Console.Window
import LittleComputer.Proofs.Masking
import LittleComputer.Proofs.Sample
import LittleComputer.Proofs.StopCodes

/-!
# Ignoring illegal instructions

A machine can be told to ignore instructions without a meaning. Until it meets one, that makes no
difference to a run. Where it meets one, the other machine complains and stops, and nothing else
tells the two apart.
-/

namespace LittleComputer

open InstructionSet (bits)

variable {κ : Type}

/-! ## Machines that ignore -/

/-- The processor `c'` is `c`, told to ignore illegal instructions. -/
def Cpu.Ignoring (c c' : Cpu) : Prop := c' = { c with stopOnIllegal := false }

/-- Ignoring illegal instructions hides nothing of a processor but the flag. -/
theorem Cpu.masks_ignoring : Masks Ignoring where
  same h := by rw [h]
  changed {c c' f} hf h := by
    have hsame : f c' = { f c with executed := c.executed, stopOnIllegal := false } := by
      rw [h]
      exact hf c c.executed false
    rw [Ignoring, hsame, ← hf.executed c]

/-- What is logged about a word without a meaning. -/
def Word.complaint (w : Word) : Text :=
  if bits w 12 4 = 15 then "unknown trap vector 0x" ++ Text.ofByte (Field.vector w)
  else "illegal opcode " ++ Text.address w

namespace Machine

/-- The machine, told to ignore illegal instructions. -/
def ignoring (m : Machine κ) : Machine κ := { m with cpu := { m.cpu with stopOnIllegal := false } }

theorem related_ignoring {m m' : Machine κ} : m.Related Cpu.Ignoring Eq m' ↔ m' = m.ignoring := by
  constructor
  · intro h
    obtain ⟨cpu, memory, map, devices, host⟩ := m'
    obtain ⟨rfl, rfl, rfl, rfl, rfl⟩ := h
    rfl
  · rintro rfl
    exact ⟨rfl, rfl, rfl, rfl, rfl⟩

variable [Console κ]

/-- The machine as it is, told to stop at illegal instructions and stopped by one in the word. -/
def complained (w : Word) (m : Machine κ) : Machine κ :=
  { m with
    cpu := { m.cpu with stop := .illegalOpcode, stopOnIllegal := true }
    host := m.host.reportFormatted .warning
      (w.complaint ++ " at " ++ Text.address m.cpu.lastPc) }

end Machine

variable [Console κ]

theorem Host.bisimulation_eq : Bisimulation (Eq : Host κ → Host κ → Prop) where
  takeBreak := by
    rintro h h' rfl
    exact ⟨rfl, rfl⟩
  read := by
    rintro h h' timeout rfl
    exact ⟨rfl, rfl⟩
  write := by
    rintro h h' bytes rfl
    rfl
  report := by
    rintro h h' severity text rfl
    rfl
  patience := by
    rintro h h' rfl
    rfl

namespace Routine

variable {α : Type} {m : Machine κ}

theorem Respects.run_ignoring {r : Routine α} (hr : r.Respects Cpu.Ignoring) (m : Machine κ) :
    r.run m.ignoring = (r.run m).map (Prod.map id Machine.ignoring) := by
  have hagree := hr.run Cpu.masks_ignoring.bisimulation Host.bisimulation_eq
    (Machine.related_ignoring.mpr (rfl : m.ignoring = m.ignoring))
  rcases hagree.inv with ⟨e, hx, hy⟩ | ⟨⟨a, m₁⟩, ⟨b, m₂⟩, hx, hy, hab, hm⟩
  · rw [hx, hy]
    rfl
  · obtain rfl : a = b := hab
    obtain rfl := Machine.related_ignoring.mp hm
    rw [hx, hy]
    rfl

/-- A word without a meaning complains and stops, or does nothing at all. As a trap it keeps its
return address first. -/
theorem perform_complains {w : Word} (hw : w.IsIllegal) :
    ∃ f, Cpu.Blind f ∧ ∀ m : Machine κ, (perform (Instruction.decode w)).run m =
      (illegal w.complaint).run { m with cpu := f m.cpu } := by
  rcases Instruction.ownStop_inv ((Instruction.ownStop_illegal w).mpr hw) with
    ⟨v, s, -, -, hs⟩ | ⟨-, ⟨v, hd, hv⟩ | ⟨v, hd⟩⟩
  · rcases Service.ownStop_mem hs with ⟨hc, -⟩ | ⟨hc, -⟩
    · cases hc
    · cases hc
  · have htrap : bits w 12 4 = 15 := by
      by_contra hne
      exact InstructionSet.decode_ne_trap hne v hd
    obtain rfl : v = Field.vector w :=
      Instruction.trap.inj (hd.symm.trans (InstructionSet.decode_eq_trap htrap))
    refine ⟨fun c => c.setRegister 7 c.pc, fun _ _ _ => rfl, fun m => ?_⟩
    rw [hd, perform_trap_run, hv, Word.complaint, if_pos htrap]
  · obtain rfl := InstructionSet.decode_reserved hd
    have htrap : bits v 12 4 ≠ 15 := by
      intro h
      rw [InstructionSet.decode_eq_trap h] at hd
      rcases hd with hd | hd
      · cases hd
      · cases hd
    refine ⟨id, fun _ _ _ => rfl, fun m => ?_⟩
    rw [Word.complaint, if_neg htrap]
    rcases hd with hd | hd
    · rw [hd, perform, run_bind, run_look]
      rfl
    · rw [hd, perform, run_bind, run_look]
      rfl

/-- An illegal word does the same with and without the flag, but for the complaint and the stop. -/
theorem perform_illegal_ignoring {w : Word} (hw : w.IsIllegal)
    (hflag : m.cpu.stopOnIllegal = true) :
    ∃ x, (perform (Instruction.decode w)).run m.ignoring = .ok ((), x) ∧
      (perform (Instruction.decode w)).run m = .ok ((), x.complained w) := by
  obtain ⟨f, hf, hrun⟩ := perform_complains (κ := κ) hw
  have hcpu : f m.ignoring.cpu = { f m.cpu with stopOnIllegal := false } := by
    have h : f m.ignoring.cpu =
        { f m.cpu with executed := m.cpu.executed, stopOnIllegal := false } :=
      hf m.cpu m.cpu.executed false
    rw [h, ← hf.executed m.cpu]
  have hstops : (f m.cpu).stopOnIllegal = true := (hf.stopOnIllegal m.cpu).trans hflag
  refine ⟨Machine.ignoring { m with cpu := f m.cpu }, ?_, ?_⟩
  · rw [hrun, illegal_run, hcpu]
    rfl
  · rw [hrun, illegal_run]
    simp only [Cpu.illegal, hstops, if_true]
    simp only [Machine.complained, Machine.ignoring, Cpu.breakWith, hstops]

/-! ## One step -/

theorem fetch_ignoring (m : Machine κ) :
    fetch.run m.ignoring = (fetch.run m).map (Prod.map id Machine.ignoring) :=
  (fetch_respects Cpu.masks_ignoring).run_ignoring m

/-- A legal word does the same with and without the flag. -/
theorem perform_ignoring {w : Word} (hw : ¬ w.IsIllegal) (m : Machine κ) :
    (perform (Instruction.decode w)).run m.ignoring =
      ((perform (Instruction.decode w)).run m).map (Prod.map id Machine.ignoring) := by
  have hi : (Instruction.decode w).ownStop ≠ some .illegalOpcode :=
    fun h => hw ((Instruction.ownStop_illegal w).mp h)
  exact (perform_respects Cpu.masks_ignoring (.inl hi)).run_ignoring m

theorem step_run (m : Machine κ) :
    step.run m =
      match fetch.run m with
      | .error e => .error e
      | .ok (w, m₁) =>
        match (perform (Instruction.decode w)).run m₁ with
        | .error e => .error e
        | .ok (_, m₂) =>
          .ok ((), { m₂ with cpu := { m₂.cpu with executed := m₂.cpu.executed + 1 } }) := by
  rw [step, run_bind]
  cases fetch.run m with
  | error e => rfl
  | ok x =>
    dsimp only
    rw [run_bind]
    cases (perform (Instruction.decode x.1)).run x.2 with
    | error e => rfl
    | ok y => rfl

end Routine

namespace Machine

variable {m m' : Machine κ}

/-- A step that does not end at an illegal instruction is the same on a machine that ignores
them. -/
theorem step_ignoring (hflag : m.cpu.stopOnIllegal = true)
    (hlegal : ∀ m', step m = .ok ((), m') → m'.cpu.stop ≠ .illegalOpcode) :
    step m.ignoring = (step m).map (Prod.map id ignoring) := by
  rw [step, Routine.step_run m] at hlegal
  rw [step, Routine.step_run, Routine.step_run m, Routine.fetch_ignoring]
  cases hf : Routine.fetch.run m with
  | error e => rfl
  | ok x =>
    obtain ⟨w, m₁⟩ := x
    have hflag₁ : m₁.cpu.stopOnIllegal = true := by rw [Routine.fetch_cpu hf, hflag]
    by_cases hw : w.IsIllegal
    · obtain ⟨y, -, hy⟩ := Routine.perform_illegal_ignoring hw hflag₁
      simp only [hf, hy] at hlegal
      exact absurd rfl (hlegal _ rfl)
    · dsimp only [Except.map, Prod.map, id]
      rw [Routine.perform_ignoring hw]
      cases (Routine.perform (Instruction.decode w)).run m₁ with
      | error e => rfl
      | ok y => rfl

/-- A step that ends at an illegal instruction, and the same step on a machine that ignores it. -/
theorem step_complained (hrun : m.cpu.stop = .running) (hflag : m.cpu.stopOnIllegal = true)
    (h : step m = .ok ((), m')) (hc : m'.cpu.stop = .illegalOpcode) :
    ∃ w x, w.IsIllegal ∧ step m.ignoring = .ok ((), x) ∧ m' = x.complained w := by
  obtain ⟨w, m₁, hf, htells⟩ := Routine.step_tells hrun h
  have hw := (htells.illegal.mp hc).2
  have hflag₁ : m₁.cpu.stopOnIllegal = true := by rw [Routine.fetch_cpu hf, hflag]
  obtain ⟨y, hy, hy'⟩ := Routine.perform_illegal_ignoring hw hflag₁
  rw [step, Routine.step_run, hf] at h
  dsimp only at h
  rw [hy'] at h
  cases h
  refine ⟨w, { y with cpu := { y.cpu with executed := y.cpu.executed + 1 } }, hw, ?_, rfl⟩
  rw [step, Routine.step_run, Routine.fetch_ignoring, hf]
  dsimp only [Except.map, Prod.map, id]
  rw [hy]

theorem step_flag (hrun : m.cpu.stop = .running) (h : step m = .ok ((), m')) :
    m'.cpu.stopOnIllegal = m.cpu.stopOnIllegal :=
  (Executes.cons hrun h (.nil m')).stopOnIllegal

/-! ## Runs -/

/-- As long as no illegal instruction stops the machine, ignoring them makes no difference. -/
theorem steps_ignoring (n : Nat) (first : Bool) (hrun : m.cpu.stop = .running)
    (hflag : m.cpu.stopOnIllegal = true)
    (hlegal : ∀ m', steps n first m ≠ .ok (some .illegalOpcode, m')) :
    steps n first m.ignoring = (steps n first m).map (Prod.map id ignoring) := by
  induction n generalizing first m with
  | zero => rfl
  | succ n ih =>
    have hbreak : m.ignoring.memory.isBreak m.ignoring.cpu.pc = m.memory.isBreak m.cpu.pc := rfl
    rw [steps_succ] at hlegal
    rw [steps_succ, steps_succ, hbreak]
    cases hb : (if first then .ok false else m.memory.isBreak m.cpu.pc : Except Fault Bool) with
    | error e => rfl
    | ok b =>
      rw [hb] at hlegal
      cases b with
      | true => rfl
      | false =>
        dsimp only at hlegal ⊢
        have hstep : step m.ignoring = (step m).map (Prod.map id ignoring) := by
          refine step_ignoring hflag fun m' h hc => hlegal m' ?_
          rw [h]
          simp [hc]
        rw [hstep]
        cases hm : step m with
        | error e => rfl
        | ok x =>
          rw [hm] at hlegal
          dsimp only [Except.map, Prod.map, id] at hlegal ⊢
          show (if x.2.cpu.stop = .running then _ else _) = _
          split
          · rename_i hrun₁
            rw [if_pos hrun₁] at hlegal
            exact ih false hrun₁ ((step_flag hrun hm).trans hflag) hlegal
          · rfl

/-- A number of steps that ends at an illegal instruction, and as many of them as were made on a
machine that ignores it. -/
theorem steps_complained (n : Nat) (first : Bool) (hrun : m.cpu.stop = .running)
    (hflag : m.cpu.stopOnIllegal = true) (h : steps n first m = .ok (some .illegalOpcode, m')) :
    ∃ k w x, m'.cpu.executed = m.cpu.executed + (k + 1) ∧ w.IsIllegal ∧ m' = x.complained w ∧
      steps (k + 1) first m.ignoring =
        .ok (if x.cpu.stop = .running then none else some x.cpu.stop, x) := by
  induction n generalizing first m with
  | zero => cases h
  | succ n ih =>
    have hbreak : m.ignoring.memory.isBreak m.ignoring.cpu.pc = m.memory.isBreak m.cpu.pc := rfl
    rw [steps_succ] at h
    split at h
    · cases h
    · cases h
    · rename_i hb
      split at h
      · cases h
      · rename_i m₁ hstep
        have hcount := Routine.step_executed hstep
        split at h
        · -- The machine goes on, so this instruction was none of the illegal ones.
          rename_i hrun₁
          have hflag₁ := (step_flag hrun hstep).trans hflag
          obtain ⟨k, w, x, hk, hw, hx, hsteps⟩ := ih false hrun₁ hflag₁ h
          have hsame : step m.ignoring = .ok ((), m₁.ignoring) := by
            rw [step_ignoring hflag, hstep]
            · rfl
            · intro m₂ h₂ hc
              cases hstep.symm.trans h₂
              exact absurd (hrun₁.symm.trans hc) (by decide)
          refine ⟨k + 1, w, x, by omega, hw, hx, ?_⟩
          rw [steps_succ, hbreak, hb, hsame]
          exact (if_pos hrun₁).trans hsteps
        · rename_i hstop
          simp only [Except.ok.injEq, Prod.mk.injEq, Option.some.injEq] at h
          obtain ⟨hcode, rfl⟩ := h
          obtain ⟨w, x, hw, hx, hm⟩ := step_complained hrun hflag hstep hcode
          refine ⟨0, w, x, hcount, hw, hm, ?_⟩
          rw [steps_succ, hbreak, hb, hx]
          dsimp only
          split
          · rfl
          · rfl

/-- A run that meets no illegal instruction is the same run without the flag. -/
theorem run_ignoring (hflag : m.cpu.stopOnIllegal = true) (limit : BitVec 32) (budget : Nat)
    (hlegal : ∀ m', run limit budget m ≠ .ok (.illegalOpcode, m')) :
    run limit budget m.ignoring = (run limit budget m).map (Prod.map id ignoring) := by
  have hstart : m.ignoring.stopWith .running = (m.stopWith .running).ignoring := rfl
  rw [run_eq] at hlegal
  rw [run_eq, run_eq, hstart, steps_ignoring (m := m.stopWith .running) _ true rfl hflag]
  · cases steps (if limit = 0 then budget else limit.toNat) true (m.stopWith .running) with
    | error e => rfl
    | ok x =>
      obtain ⟨answer, m₁⟩ := x
      dsimp only [Except.map, Prod.map, id]
      cases answer with
      | some c => rfl
      | none =>
        dsimp only
        split
        · rfl
        · rfl
  · intro m₁ h
    rw [h] at hlegal
    exact hlegal m₁ rfl

/-- As many instructions as a run made up to an illegal one can be made by a machine that ignores
it, whatever that machine does then. -/
theorem run_complained (hflag : m.cpu.stopOnIllegal = true) {limit : BitVec 32} {budget : Nat}
    (h : run limit budget m = .ok (.illegalOpcode, m')) {limit' : BitVec 32}
    (hlimit : limit'.toNat = m'.cpu.executed - m.cpu.executed) (budget' : Nat) :
    ∃ c w x, run limit' budget' m.ignoring = .ok (c, x) ∧ w.IsIllegal ∧ m' = x.complained w := by
  have hsteps : ∃ n, steps n true (m.stopWith .running) = .ok (some .illegalOpcode, m') := by
    rw [run_eq] at h
    split at h
    · cases h
    · rename_i hs
      cases h
      exact ⟨_, hs⟩
    · split at h
      · cases h
      · cases h
  obtain ⟨n, hsteps⟩ := hsteps
  obtain ⟨k, w, x, hk, hw, hx, hsame⟩ :=
    steps_complained (m := m.stopWith .running) n true rfl hflag hsteps
  have hcount : limit'.toNat = k + 1 := by
    have hstart : (m.stopWith .running).cpu.executed = m.cpu.executed := rfl
    omega
  have hpos : limit' ≠ 0 := by
    rintro rfl
    cases hcount
  have hstart : m.ignoring.stopWith .running = (m.stopWith .running).ignoring := rfl
  rw [run_eq, if_neg hpos, hcount, hstart, hsame]
  by_cases hrun : x.cpu.stop = .running
  · rw [if_pos hrun]
    exact ⟨.finished, w, x.stopWith .finished, if_neg hpos, hw, hx⟩
  · rw [if_neg hrun]
    exact ⟨_, w, x, rfl, hw, hx⟩

theorem Executes.stop_legal {trail : List (Machine κ)} (h : Executes m trail m')
    (hflag : m.cpu.stopOnIllegal = false) (hne : trail ≠ []) : m'.cpu.stop ≠ .illegalOpcode := by
  induction h with
  | nil m => exact absurd rfl hne
  | cons hrun hstep hrest ih =>
    cases hrest with
    | nil =>
      obtain ⟨w, m₁, -, htells⟩ := Routine.step_tells hrun hstep
      intro hc
      have hset := (htells.illegal.mp hc).1
      rw [hflag] at hset
      cases hset
    | cons hrun₁ hstep₁ hrest₁ =>
      exact ih ((step_flag hrun hstep).trans hflag) (List.cons_ne_nil _ _)

/-- Without the flag no run stops for an illegal instruction. -/
theorem run_legal (hflag : m.cpu.stopOnIllegal = false) {limit : BitVec 32} {budget : Nat}
    {c : StopCode} (h : run limit budget m = .ok (c, m')) : c ≠ .illegalOpcode := by
  obtain ⟨trail, m₁, htrail, hne, -, hend⟩ := run_trail h
  cases hend with
  | finished | breakpoint => decide
  | stopped => exact htrail.stop_legal hflag hne

/-- Ignoring illegal instructions makes a difference only to a run that meets one, and then only to
what is done about it: the other run complains and stops. -/
theorem run_ignores_illegal (m : Machine κ) (hflag : m.cpu.stopOnIllegal = true)
    (limit : BitVec 32) (budget : Nat) :
    ((∀ m', run limit budget m ≠ .ok (.illegalOpcode, m')) →
      run limit budget m.ignoring = (run limit budget m).map (Prod.map id ignoring)) ∧
    (∀ m', run limit budget m = .ok (.illegalOpcode, m') → ∀ limit' : BitVec 32,
      limit'.toNat = m'.cpu.executed - m.cpu.executed → ∀ budget', ∃ c w x,
        run limit' budget' m.ignoring = .ok (c, x) ∧ w.IsIllegal ∧ m' = x.complained w) ∧
    (∀ m', run limit budget m.ignoring ≠ .ok (.illegalOpcode, m')) :=
  ⟨run_ignoring hflag limit budget, fun _ h _ hlimit => run_complained hflag h hlimit,
    fun _ h => run_legal (m := m.ignoring) rfl h rfl⟩

/-- The opcode without a meaning, and then `HALT`: one machine stops at once, and the other one is
where the first one would be. -/
theorem run_ignores_illegal_reserved :
    (sample [0xD000, 0xF025] []).cpu.stopOnIllegal = true ∧
    ∃ m' x : Machine Script, run 0 5 (sample [0xD000, 0xF025] []) = .ok (.illegalOpcode, m') ∧
      run 1 0 (sample [0xD000, 0xF025] []).ignoring = .ok (.finished, x) ∧
        ∃ w : Word, w.IsIllegal ∧ m' = x.complained w := by
  let m := sample [0xD000, 0xF025] []
  have hrun := eq_ok_of_result (x := run 0 5 m) (a := .illegalOpcode) m (by decide +kernel)
  have hignored := eq_ok_of_result (x := run 1 0 m.ignoring) (a := .finished) m (by decide +kernel)
  obtain ⟨-, hillegal, -⟩ := run_ignores_illegal m rfl 0 5
  obtain ⟨c, w, x, hx, hw, hsame⟩ := hillegal _ hrun 1 (by decide +kernel) 0
  cases hx.symm.trans hignored
  exact ⟨rfl, _, _, hrun, hignored, w, hw, hsame⟩

/-- With a log that shows warnings on the window, the complaint is seen there, and the windows of
the two machines differ. -/
theorem run_complains_on_console :
    ∃ m m₁ m₂ : Machine Window, m.cpu.stopOnIllegal = true ∧
      run 0 5 m = .ok (.illegalOpcode, m₁) ∧ m₁.cpu.executed = m.cpu.executed + 1 ∧
      run 1 0 m.ignoring = .ok (.finished, m₂) ∧ m₂.host.console.output = #[] ∧
      m₁.host.console.output.toList =
        Text.ofString "LC3SIM: illegal opcode 0xD000 at 0x3000\n" := by
  let m : Machine Window := { sample [0xD000] [] with
    host := { Host.new (.new false [] []) (.empty []) default with
      log := some (Log.new (Text.ofString "LC3SIM") true) } }
  have hrun := eq_ok_of_result (x := run 0 5 m) (a := .illegalOpcode) m (by decide +kernel)
  have hignored := eq_ok_of_result (x := run 1 0 m.ignoring) (a := .finished) m (by decide +kernel)
  exact ⟨m, _, _, rfl, hrun, by decide +kernel, hignored, by decide +kernel, by decide +kernel⟩

end Machine

end LittleComputer
