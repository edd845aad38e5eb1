import Mathlib
import LittleComputer.Proofs.Alike
import LittleComputer.Proofs.InstructionSet
import LittleComputer.Proofs.Sample
import LittleComputer.Proofs.Trail

/-!
# Runs as repetitions

A run can be taken for a loop around instructions that are executed on their own: fetch a word,
move the program counter behind it, and execute it. The two keep their books differently. A run sets
the stop code once and counts its instructions, an instruction on its own sets the stop code every
time, counts nothing, and finds its address by counting back from the program counter. Only a run
traces.
-/

namespace LittleComputer

variable {κ : Type} [Console κ]

namespace Machine

/-! ## Repetitions -/

/-- Fetches the next word and executes it on its own. -/
def executeNext : Action κ StopCode := do
  let w ← load (← get).cpu.pc
  modifyCpu fun c => { c with pc := c.pc + 1 }
  execute w

/-- Executes words on their own, `n` of them or until one stops the machine, and tells the last stop
code and how many they were. -/
def repeatExecute : Nat → Action κ (StopCode × Nat)
  | 0 => return (.running, 0)
  | n + 1 => do
    let c ← executeNext
    if c = .running then
      let (c, k) ← repeatExecute n
      return (c, k + 1)
    else return (c, 1)

theorem repeatExecute_succ (n : Nat) (m : Machine κ) :
    repeatExecute (n + 1) m =
      match executeNext m with
      | .error e => .error e
      | .ok (c, m₁) =>
        if c = .running then (repeatExecute n m₁).map fun x => ((x.1.1, x.1.2 + 1), x.2)
        else .ok ((c, 1), m₁) := by
  rw [repeatExecute, action_bind]
  cases executeNext m with
  | error e => rfl
  | ok x =>
    dsimp only
    split
    · rw [action_bind]
      cases repeatExecute n x.2 with
      | error e => rfl
      | ok y => rfl
    · rfl

/-! ## Fetching from memory -/

/-- What a word of memory is fetched as, where no device answers. -/
def plainWord (m : Machine κ) (a : Word) : Word :=
  if m.memory.ram.get a then m.memory.words.get a else Word.allOnes

theorem load_plain {m : Machine κ} {a : Word} (hio : m.memory.io.get a = false) :
    load a m = if m.memory.isValid a then .ok (m.plainWord a, m) else .error (.address a) := by
  rw [load, hio]
  rfl

/-- The machine before its next instruction, whose word was fetched by itself. -/
def fetched (m : Machine κ) : Machine κ :=
  { m with cpu := { m.cpu with stop := .running, lastPc := m.cpu.pc, pc := m.cpu.pc + 1 } }

/-- Away from the devices, fetching and executing a word is the word's effect on a fetched
machine. -/
theorem executeNext_plain {m : Machine κ} (hio : m.memory.io.get m.cpu.pc = false) :
    executeNext m =
      if m.memory.isValid m.cpu.pc then
        match (Routine.perform (Instruction.decode (m.plainWord m.cpu.pc))).run m.fetched with
        | .ok (_, m') => .ok (m'.cpu.stop, m')
        | .error e => .error e
      else .error (.address m.cpu.pc) := by
  have hentered : InstructionSet.entered { m with cpu := { m.cpu with pc := m.cpu.pc + 1 } } =
      m.fetched := by
    -- Counting back from the program counter gives the address of the instruction.
    have hback : m.cpu.pc + 1 - 1 = m.cpu.pc := BitVec.add_sub_cancel _ _
    simp only [InstructionSet.entered, fetched, hback]
  rw [executeNext, get_bind, action_bind, load_plain hio]
  by_cases hvalid : m.memory.isValid m.cpu.pc = true
  · rw [if_pos hvalid, if_pos hvalid, ← hentered]
    exact InstructionSet.execute_run (m.plainWord m.cpu.pc) _
  · rw [if_neg hvalid, if_neg hvalid]

/-- The machine before its next instruction in a run. -/
def traced (m : Machine κ) : Machine κ :=
  { m.fetched with
    host := m.host.reportFormatted .trace
      (Operation.traceText m.cpu.pc (m.plainWord m.cpu.pc)) }

theorem step_plain {m : Machine κ} (hrun : m.cpu.stop = .running)
    (hio : m.memory.io.get m.cpu.pc = false) :
    step m =
      if m.memory.isValid m.cpu.pc then
        match (Routine.perform (Instruction.decode (m.plainWord m.cpu.pc))).run m.traced with
        | .ok (_, m') =>
          .ok ((), { m' with cpu := { m'.cpu with executed := m'.cpu.executed + 1 } })
        | .error e => .error e
      else .error (.address m.cpu.pc) := by
  have hfetch : Routine.fetch.run m =
      if m.memory.isValid m.cpu.pc then .ok (m.plainWord m.cpu.pc, m.traced)
      else .error (.address m.cpu.pc) := by
    rw [Routine.fetch, Routine.run_bind, Routine.run_look]
    dsimp only
    rw [Routine.run_bind, Routine.run_change]
    dsimp only
    have hload : ({ m with cpu := { m.cpu with lastPc := m.cpu.pc } } : Machine κ).memory.io.get
        m.cpu.pc = false := hio
    rw [Routine.run_bind, Routine.run_load, load_plain hload]
    by_cases hvalid : m.memory.isValid m.cpu.pc = true
    · rw [if_pos hvalid, if_pos hvalid]
      dsimp only
      rw [Routine.run_bind, Routine.trace, Routine.run_one, Operation.run_trace]
      simp only [Routine.run_bind, Routine.run_change, Routine.run_pure, traced, fetched, ← hrun]
      rfl
    · rw [if_neg hvalid, if_neg hvalid]
  rw [step, Routine.step, Routine.run_bind, hfetch]
  by_cases hvalid : m.memory.isValid m.cpu.pc = true
  · rw [if_pos hvalid, if_pos hvalid]
    dsimp only
    rw [Routine.run_bind]
    cases (Routine.perform (Instruction.decode (m.plainWord m.cpu.pc))).run m.traced with
    | error e => rfl
    | ok x => rfl
  · rw [if_neg hvalid, if_neg hvalid]

/-! ## One instruction -/

variable {S : κ → κ → Prop} {log : Option Log}

/-- One step and one fetched execution agree on all but the count, the log and the stop code. -/
theorem step_executeNext (hS : Console.Bisimulation S) {m y : Machine κ}
    (ha : m.Alike S log (y.stopWith .running)) (hrun : m.cpu.stop = .running)
    (hio : m.memory.io.get m.cpu.pc = false) (hhides : m.host.Hides .trace S) :
    Agree (fun x z => x.2.cpu.stop = z.1 ∧ x.2.Alike S log (z.2.stopWith z.1) ∧
      x.2.cpu.executed = m.cpu.executed + 1 ∧ z.2.cpu.executed = y.cpu.executed)
      (step m) (executeNext y) := by
  have hpc : y.cpu.pc = m.cpu.pc := ha.pc
  have hmemory : y.memory = m.memory := ha.memory
  have hword : y.plainWord y.cpu.pc = m.plainWord m.cpu.pc := by
    rw [plainWord, plainWord, hpc, hmemory]
  have hstart : m.traced.Alike S log y.fetched := by
    refine ⟨?_, ha.memory, ha.map, ha.devices, ha.host.report_hidden hhides _⟩
    have hcpu := congrArg
      (fun c : Cpu => { c with stop := .running, lastPc := c.pc, pc := c.pc + 1 }) ha.cpu
    exact hcpu
  rw [step_plain hrun hio, executeNext_plain (by rw [hmemory, hpc, hio]), hword, hmemory, hpc]
  by_cases hvalid : m.memory.isValid m.cpu.pc = true
  · rw [if_pos hvalid, if_pos hvalid]
    have hagree := Routine.perform_alike hS (Instruction.decode (m.plainWord m.cpu.pc)) hstart
    rcases hagree.inv with ⟨e, hx, hz⟩ | ⟨⟨u, m₁⟩, ⟨u', y₁⟩, hx, hz, -, ha₁⟩
    · rw [hx, hz]
      exact .error e
    · rw [hx, hz]
      refine .ok ⟨ha₁.stop.symm, ?_, ?_, ?_⟩
      · exact ⟨ha₁.cpu, ha₁.memory, ha₁.map, ha₁.devices, ha₁.host⟩
      · show m₁.cpu.executed + 1 = _
        rw [(Routine.perform_continues hx).executed]
        rfl
      · show y₁.cpu.executed = _
        rw [(Routine.perform_continues hz).executed]
        rfl
  · rw [if_neg hvalid, if_neg hvalid]
    exact .error _

theorem step_breaks {m m' : Machine κ} (hbreaks : ∀ a, m.memory.breaks.get a = false)
    (h : step m = .ok ((), m')) : ∀ a, m'.memory.breaks.get a = false := by
  rw [Routine.run_memory h]
  exact hbreaks

/-! ## Runs -/

/-- None of the next `n` instructions is fetched from a device. -/
def FetchesPlain (n : Nat) (m : Machine κ) : Prop :=
  ∀ trail x, Executes m trail x → trail.length < n → x.cpu.stop = .running →
    x.memory.io.get x.cpu.pc = false

/-- What holds of all the fetches of a run holds of those after its first step. -/
theorem FetchesPlain.step {n : Nat} {m m₁ : Machine κ} (h : FetchesPlain (n + 1) m)
    (hrun : m.cpu.stop = .running) (hstep : Machine.step m = .ok ((), m₁)) : FetchesPlain n m₁ := by
  intro trail x hx hlen
  exact h (m :: trail) x (.cons hrun hstep hx) (Nat.succ_lt_succ hlen)

theorem FetchesPlain.two {m m₁ : Machine κ} (hstep : Machine.step m = .ok ((), m₁))
    (hio : m.memory.io.get m.cpu.pc = false) (hio₁ : m₁.memory.io.get m₁.cpu.pc = false) :
    FetchesPlain 2 m := by
  intro trail x hx hlen _
  cases hx with
  | nil => exact hio
  | cons _ hstep₀ hrest =>
    cases hrest with
    | nil =>
      cases hstep.symm.trans hstep₀
      exact hio₁
    | cons => exact absurd hlen (by simp)

/-- Without breakpoints every step is made. -/
theorem steps_succ_of_clear {m : Machine κ} (hrun : m.cpu.stop = .running)
    (hio : m.memory.io.get m.cpu.pc = false) (hbreaks : ∀ a, m.memory.breaks.get a = false)
    (n : Nat) (first : Bool) :
    steps (n + 1) first m =
      match step m with
      | .error e => .error e
      | .ok (_, m₁) =>
        if m₁.cpu.stop = .running then steps n false m₁ else .ok (some m₁.cpu.stop, m₁) := by
  rw [steps_succ]
  cases first with
  | true => rfl
  | false =>
    rw [if_neg (by decide), Memory.isBreak, Memory.check, hbreaks]
    by_cases hvalid : m.memory.isValid m.cpu.pc = true
    · rw [if_pos hvalid]
      rfl
    · -- Asking for a breakpoint fails beyond the memory, and so does the fetch.
      rw [step_plain hrun hio, if_neg hvalid, if_neg hvalid]
      rfl

/-- Steps agree with as many executions, by induction on their number. -/
theorem steps_repeatExecute (hS : Console.Bisimulation S) (n : Nat) (first : Bool)
    {m y : Machine κ} (ha : m.Alike S log (y.stopWith .running)) (hrun : m.cpu.stop = .running)
    (hbreaks : ∀ a, m.memory.breaks.get a = false) (hplain : FetchesPlain n m)
    (hhides : m.host.Hides .trace S) :
    Agree (fun x z => x.1 = (if z.1.1 = .running then none else some z.1.1) ∧
      x.2.Alike S log (z.2.stopWith z.1.1) ∧ x.2.cpu.executed = m.cpu.executed + z.1.2 ∧
        z.2.cpu.executed = y.cpu.executed) (steps n first m) (repeatExecute n y) := by
  induction n generalizing m y first with
  | zero => exact .ok ⟨rfl, ha, rfl, rfl⟩
  | succ n ih =>
    have hio := hplain [] m (.nil m) (Nat.succ_pos n) hrun
    rw [steps_succ_of_clear hrun hio hbreaks, repeatExecute_succ]
    rcases (step_executeNext hS ha hrun hio hhides).inv with
      ⟨e, hx, hz⟩ | ⟨⟨u, m₁⟩, ⟨c, y₁⟩, hx, hz, hstop, ha₁, hm₁, hy₁⟩
    · rw [hx, hz]
      exact .error e
    · rw [hx, hz]
      dsimp only at hstop ha₁ hm₁ hy₁ ⊢
      rw [hstop]
      by_cases hc : c = .running
      · rw [if_pos hc, if_pos hc]
        have hrun₁ : m₁.cpu.stop = .running := hstop.trans hc
        have hhides₁ : m₁.host.Hides .trace S := by
          intro l hl
          exact hhides l (by rw [ha.host.left, ← ha₁.host.left, hl])
        rw [hc] at ha₁
        have hrest := ih false ha₁ hrun₁ (step_breaks hbreaks hx) (hplain.step hrun hx) hhides₁
        rcases hrest.inv with ⟨e, hx₂, hz₂⟩ | ⟨x, z, hx₂, hz₂, hcode, ha₂, hcount, hkept⟩
        · rw [hx₂, hz₂]
          exact .error e
        · rw [hx₂, hz₂]
          refine .ok ⟨hcode, ha₂, ?_, hkept.trans hy₁⟩
          rw [hcount, hm₁, Nat.add_assoc, Nat.add_comm 1]
      · rw [if_neg hc, if_neg hc]
        exact .ok ⟨(if_neg hc).symm, ha₁, hm₁, hy₁⟩

/-- What a run leaves, compared to the repetition of its instructions. -/
structure SameAsRepeated (S : κ → κ → Prop) (m : Machine κ) (x : StopCode × Machine κ)
    (z : (StopCode × Nat) × Machine κ) : Prop where
  code : x.1 = if z.1.1 = .running then .finished else z.1.1
  cpu : x.2.cpu = { z.2.cpu with stop := x.1, executed := m.cpu.executed + z.1.2 }
  memory : x.2.memory = z.2.memory
  map : x.2.map = z.2.map
  devices : x.2.devices = z.2.devices
  console : S x.2.host.console z.2.host.console
  /-- Instructions on their own are not counted. -/
  executed : z.2.cpu.executed = m.cpu.executed

/-- A run with a limit and without breakpoints is the repetition of instructions executed on their
own, on every machine and for every relation of consoles that traces cannot disturb, as long as no
instruction is fetched from a device. -/
theorem run_repeats (hS : Console.Bisimulation S) (hrefl : ∀ c, S c c) {m : Machine κ}
    {limit : BitVec 32} (hlimit : limit ≠ 0) (hbreaks : ∀ a, m.memory.breaks.get a = false)
    (hplain : FetchesPlain limit.toNat (m.stopWith .running)) (hhides : m.host.Hides .trace S)
    (budget : Nat) :
    Agree (SameAsRepeated S m) (run limit budget m) (repeatExecute limit.toNat m) := by
  have hstart : (m.stopWith .running).Alike S m.host.log (m.stopWith .running) :=
    ⟨rfl, rfl, rfl, rfl, hrefl _, rfl, rfl⟩
  have hsteps := steps_repeatExecute hS limit.toNat true hstart rfl hbreaks hplain hhides
  rw [run_eq, if_neg hlimit]
  rcases hsteps.inv with ⟨e, hx, hz⟩ | ⟨⟨answer, m₁⟩, ⟨⟨c, k⟩, y₁⟩, hx, hz, hcode, ha, hm, hy⟩
  · rw [hx, hz]
    exact .error e
  · have hsame : ∀ d, d = (if c = .running then .finished else c) →
        SameAsRepeated S m (d, m₁.stopWith d) ((c, k), y₁) := by
      intro d hd
      refine ⟨hd, ?_, ha.memory.symm, ha.map.symm, ha.devices.symm, ha.host.console, hy⟩
      have hcpu : m₁.cpu = { y₁.cpu with stop := c, executed := m₁.cpu.executed } :=
        congrArg (fun cpu : Cpu => { cpu with executed := m₁.cpu.executed }) ha.cpu.symm
      show { m₁.cpu with stop := d } = _
      rw [hcpu, hm]
      rfl
    rw [hx, hz]
    by_cases hc : c = .running
    · rw [if_pos hc] at hcode
      obtain rfl : answer = none := hcode
      rw [if_pos hc] at hsame
      dsimp only
      rw [if_neg hlimit]
      exact .ok (hsame .finished rfl)
    · rw [if_neg hc] at hcode
      obtain rfl : answer = some c := hcode
      rw [if_neg hc] at hsame
      have hstop : m₁.cpu.stop = c := ha.stop.symm
      have hstopped := hsame c rfl
      rw [stopWith_of_stop hstop] at hstopped
      exact .ok hstopped

end Machine

/-! ## Consoles that show traces -/

namespace Script

/-- The same is left to read, and the first console has shown all that the second one has, in the
same order. -/
def ShowsMore (s s' : Script) : Prop :=
  s.entries = s'.entries ∧ s.idle = s'.idle ∧ s'.output.toList.Sublist s.output.toList

theorem ShowsMore.refl (s : Script) : s.ShowsMore s := ⟨rfl, rfl, .refl _⟩

theorem ShowsMore.write {s s' : Script} (h : s.ShowsMore s') (bytes : List Byte) :
    (s.write bytes).ShowsMore (s'.write bytes) := by
  refine ⟨h.1, h.2.1, ?_⟩
  simp only [Script.write, Array.toList_appendList]
  exact h.2.2.append (.refl bytes)

theorem bisimulation_showsMore : Console.Bisimulation ShowsMore where
  takeBreak := by
    rintro ⟨entries, idle, output⟩ ⟨_, _, output'⟩ ⟨rfl, rfl, hout⟩
    cases entries with
    | nil => exact ⟨rfl, rfl, rfl, hout⟩
    | cons entry rest => cases entry <;> exact ⟨rfl, rfl, rfl, hout⟩
  read := by
    rintro ⟨entries, idle, output⟩ ⟨_, _, output'⟩ timeout ⟨rfl, rfl, hout⟩
    cases entries with
    | nil => cases idle <;> exact ⟨rfl, rfl, rfl, hout⟩
    | cons entry rest => cases entry <;> exact ⟨rfl, rfl, rfl, hout⟩
  write bytes h := h.write bytes
  message text h := h.write text
  patience := by
    rintro ⟨entries, idle, output⟩ ⟨_, _, output'⟩ ⟨rfl, rfl, -⟩
    rfl

theorem hides_showsMore (h : Host Script) (s : Severity) : h.Hides s ShowsMore := by
  rintro l - - - c c' text ⟨hentries, hidle, hout⟩
  refine ⟨hentries, hidle, ?_⟩
  show c'.output.toList.Sublist (c.output ++ text).toList
  rw [Array.toList_appendList]
  exact hout.trans (List.sublist_append_left _ _)

end Script

namespace Machine

/-- A sample machine that traces on its console. -/
def tracedSample (program : List Word) : Machine Script :=
  { sample program [] with
    host := { (sample program []).host with
      log := some { Log.new [] true with level := .trace } } }

/-- `OUT` and `HALT`, without traces and with them. -/
theorem run_repeats_halt :
    (∃ m' y, run 2 0 (sample [0xF021, 0xF025] []) = .ok (.halt, m') ∧
      repeatExecute 2 (sample [0xF021, 0xF025] []) = .ok ((.halt, 2), y) ∧
        m'.cpu.executed = 2 ∧ m'.host.console = y.host.console) ∧
    ∃ m' y, run 2 0 (tracedSample [0xF021, 0xF025]) = .ok (.halt, m') ∧
      repeatExecute 2 (tracedSample [0xF021, 0xF025]) = .ok ((.halt, 2), y) ∧
        m'.cpu.executed = 2 ∧ m'.host.console.ShowsMore y.host.console := by
  have hlimit : (2 : BitVec 32) ≠ 0 := by decide
  constructor
  · let m := sample [0xF021, 0xF025] []
    have hrun := eq_ok_of_result (x := run 2 0 m) (a := .halt) m (by decide +kernel)
    have hrepeat := eq_ok_of_result (x := repeatExecute 2 m) (a := (.halt, 2)) m
      (by decide +kernel)
    have hstep := eq_ok_of_result (x := step m) (a := ()) m (by decide +kernel)
    have hplain : FetchesPlain 2 (m.stopWith .running) :=
      .two hstep (by decide +kernel) (by decide +kernel)
    have hhides : m.host.Hides .trace Eq := by
      intro l hl
      cases hl
    have h := run_repeats Console.bisimulation_eq (fun _ => rfl) hlimit (Table.get_fill false)
      hplain hhides 0
    rw [hrun] at h
    obtain ⟨e, hx, -⟩ | ⟨x, z, hx, hz, hsame⟩ := h.inv
    · cases hx
    · cases hx
      cases hz.symm.trans hrepeat
      exact ⟨_, _, hrun, hrepeat, by rw [hsame.cpu]; rfl, hsame.console⟩
  · let m := tracedSample [0xF021, 0xF025]
    have hrun := eq_ok_of_result (x := run 2 0 m) (a := .halt) m (by decide +kernel)
    have hrepeat := eq_ok_of_result (x := repeatExecute 2 m) (a := (.halt, 2)) m
      (by decide +kernel)
    have hstep := eq_ok_of_result (x := step m) (a := ()) m (by decide +kernel)
    have hplain : FetchesPlain 2 (m.stopWith .running) :=
      .two hstep (by decide +kernel) (by decide +kernel)
    have h := run_repeats Script.bisimulation_showsMore Script.ShowsMore.refl hlimit
      (Table.get_fill false) hplain (Script.hides_showsMore m.host .trace) 0
    rw [hrun] at h
    obtain ⟨e, hx, -⟩ | ⟨x, z, hx, hz, hsame⟩ := h.inv
    · cases hx
    · cases hx
      cases hz.symm.trans hrepeat
      exact ⟨_, _, hrun, hrepeat, by rw [hsame.cpu]; rfl, hsame.console⟩

end Machine

end LittleComputer
