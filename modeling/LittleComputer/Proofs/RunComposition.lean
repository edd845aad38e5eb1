import Mathlib
import LittleComputer.Proofs.Sample
import LittleComputer.Proofs.Trail

/-!
# Composition of runs

Instructions do not notice breakpoints. So a run can be cut into pieces, by limits or by
breakpoints, without a difference to what is executed: the pieces together leave the machine as one
run without breakpoints leaves it that is as long as all of them.
-/

namespace LittleComputer

variable {κ : Type}

def Machine.clearBreaks (m : Machine κ) : Machine κ := { m with memory := m.memory.clearBreaks }

/-- The run stopped before an instruction, and not because of one. -/
def StopCode.IsPause (c : StopCode) : Prop := c = .finished ∨ c = .breakpoint

variable [Console κ]

/-! ## Instructions do not notice breakpoints -/

namespace Machine

theorem readDevice_clearBreaks (d : DeviceId) (a : Word) (m : Machine κ) :
    readDevice d a m.clearBreaks = (readDevice d a m).map (Prod.map id clearBreaks) := by
  have hd : m.clearBreaks.device? d = m.device? d := rfl
  have hc : m.clearBreaks.cpu = m.cpu := rfl
  have hh : m.clearBreaks.host = m.host := rfl
  rw [readDevice, readDevice, hd, hc, hh]
  cases m.device? d with
  | none => rfl
  | some device =>
    dsimp only
    cases device.read a m.cpu.stop m.host with
    | error e => rfl
    | ok x => rfl

theorem load_clearBreaks (a : Word) (m : Machine κ) :
    load a m.clearBreaks = (load a m).map (Prod.map id clearBreaks) := by
  have hv : m.clearBreaks.memory.isValid a = m.memory.isValid a := rfl
  have hi : m.clearBreaks.memory.io = m.memory.io := rfl
  have hm : m.clearBreaks.map = m.map := rfl
  rw [load, load, hv, hi, readMapped, readMapped, hm]
  cases m.memory.isValid a with
  | false => rfl
  | true =>
    cases m.memory.io.get a with
    | false => rfl
    | true =>
      cases m.map.owner? a with
      | none => rfl
      | some d => exact readDevice_clearBreaks d a m

theorem writeDevice_clearBreaks (d : DeviceId) (a w : Word) (m : Machine κ) :
    writeDevice d a w m.clearBreaks = (writeDevice d a w m).map (Prod.map id clearBreaks) := by
  have hd : m.clearBreaks.device? d = m.device? d := rfl
  have hh : m.clearBreaks.host = m.host := rfl
  rw [writeDevice, writeDevice, hd, hh]
  cases m.device? d with
  | none => rfl
  | some device =>
    dsimp only
    cases device.write a w m.host with
    | error e => rfl
    | ok x => rfl

theorem store_clearBreaks (a w : Word) (m : Machine κ) :
    store a w m.clearBreaks = (store a w m).map (Prod.map id clearBreaks) := by
  have hv : m.clearBreaks.memory.isValid a = m.memory.isValid a := rfl
  have hi : m.clearBreaks.memory.io = m.memory.io := rfl
  have hr : m.clearBreaks.memory.ram = m.memory.ram := rfl
  have hm : m.clearBreaks.map = m.map := rfl
  rw [store, store, hv, hi, hr, writeMapped, writeMapped, hm]
  cases m.memory.isValid a with
  | false => rfl
  | true =>
    cases m.memory.io.get a with
    | true =>
      cases m.map.owner? a with
      | none => rfl
      | some d => exact writeDevice_clearBreaks d a w m
    | false =>
      cases m.memory.ram.get a with
      | true => rfl
      | false => rfl

end Machine

theorem Operation.run_clearBreaks {β : Type} (o : Operation β) (m : Machine κ) :
    o.run m.clearBreaks = (o.run m).map (Prod.map id Machine.clearBreaks) := by
  cases o with
  | load a => exact Machine.load_clearBreaks a m
  | store a w => exact Machine.store_clearBreaks a w m
  | look | change | warn | trace => rfl

namespace Machine

theorem step_clearBreaks {m m₁ : Machine κ} (h : step m = .ok ((), m₁)) :
    step m.clearBreaks = .ok ((), m₁.clearBreaks) := by
  rw [step, Routine.run_comm Operation.run_clearBreaks]
  rw [step] at h
  rw [h]
  rfl

namespace Executes

variable {m m₁ : Machine κ} {trail : List (Machine κ)}

theorem clearBreaks (h : Executes m trail m₁) :
    Executes m.clearBreaks (trail.map Machine.clearBreaks) m₁.clearBreaks := by
  induction h with
  | nil m => exact .nil _
  | cons hrun hstep _ ih => exact .cons hrun (step_clearBreaks hstep) ih

theorem isValid (h : Executes m trail m₁) {x : Machine κ} (hx : x ∈ trail) :
    x.memory.isValid x.cpu.pc = true := by
  induction h with
  | nil m => cases hx
  | cons _ hstep _ ih =>
    rcases List.mem_cons.mp hx with rfl | hx
    · exact Routine.step_isValid hstep
    · exact ih hx

end Executes

/-- A run without breakpoints that is as long as a trail follows it to its end. -/
theorem run_of_trail {m m₁ : Machine κ} {trail : List (Machine κ)}
    (htrail : Executes (m.stopWith .running) trail m₁) (hne : trail ≠ [])
    (hlt : trail.length < 2 ^ 32) (budget : Nat) :
    run (BitVec.ofNat 32 trail.length) budget m.clearBreaks =
      if m₁.cpu.stop = .running then .ok (.finished, m₁.clearBreaks.stopWith .finished)
      else .ok (m₁.cpu.stop, m₁.clearBreaks) := by
  have hlen : (BitVec.ofNat 32 trail.length).toNat = trail.length := by
    rw [BitVec.toNat_ofNat, Nat.mod_eq_of_lt hlt]
  have hpos : 0 < trail.length := List.length_pos_iff.mpr hne
  have hlimit : BitVec.ofNat 32 trail.length ≠ 0 := by
    intro h0
    rw [h0] at hlen
    exact absurd hlen (by simp; omega)
  -- Asking for a breakpoint fails beyond the memory, but there no instruction was fetched either.
  have hclear : ∀ x ∈ trail.map Machine.clearBreaks, x.memory.isBreak x.cpu.pc = .ok false := by
    intro x hx
    obtain ⟨y, hy, rfl⟩ := List.mem_map.mp hx
    have hvalid : y.memory.isValid y.cpu.pc = true := htrail.isValid hy
    have hcheck : y.clearBreaks.memory.check y.cpu.pc = .ok () := if_pos hvalid
    show (y.clearBreaks.memory.check y.cpu.pc >>= fun _ => _) = _
    rw [hcheck]
    exact congrArg Except.ok (Table.get_fill false y.cpu.pc)
  have hsteps := steps_of_trail true htrail.clearBreaks rfl hclear
  rw [List.length_map] at hsteps
  have hstart : m.clearBreaks.stopWith .running = (m.stopWith .running).clearBreaks := rfl
  have hstop : m₁.clearBreaks.cpu.stop = m₁.cpu.stop := rfl
  rw [run_eq, if_neg hlimit, hlen, hstart, hsteps, hstop]
  by_cases hrun : m₁.cpu.stop = .running
  · rw [if_pos hrun, if_pos hrun]
    exact if_neg hlimit
  · rw [if_neg hrun, if_neg hrun]

/-! ## Calls -/

/-- Runs one after the other, each with its stop code and the number of instructions that it
executed. Their limits do not matter. -/
inductive Calls : Machine κ → List (StopCode × Nat) → Machine κ → Prop where
  | nil (m : Machine κ) : Calls m [] m
  | cons {m m₁ m' : Machine κ} {limit : BitVec 32} {budget : Nat} {c : StopCode}
      {calls : List (StopCode × Nat)} (hrun : run limit budget m = .ok (c, m₁))
      (hrest : Calls m₁ calls m') :
      Calls m ((c, m₁.cpu.executed - m.cpu.executed) :: calls) m'

/-- What one call does: it follows a trail, and either only pauses at its end, or the last
instruction stopped the machine. -/
theorem run_call {limit : BitVec 32} {budget : Nat} {m m' : Machine κ} {c : StopCode}
    (h : run limit budget m = .ok (c, m')) :
    ∃ trail m₁, Executes (m.stopWith .running) trail m₁ ∧ trail ≠ [] ∧
      m'.cpu.executed - m.cpu.executed = trail.length ∧ m' = m₁.stopWith c ∧
      (c.IsPause ∧ m₁.cpu.stop = .running ∨
        ¬ c.IsPause ∧ m₁.cpu.stop = c ∧ m₁.cpu.stop ≠ .running) := by
  obtain ⟨trail, m₁, htrail, hne, -, hend⟩ := run_trail h
  have hm' := hend.eq_stopWith
  have hexec : m₁.cpu.executed = m.cpu.executed + trail.length := htrail.executed
  refine ⟨trail, m₁, htrail, hne, ?_, hm', ?_⟩
  · rw [hm']
    show m₁.cpu.executed - m.cpu.executed = trail.length
    omega
  · cases hend with
    | finished hrun => exact .inl ⟨.inl rfl, hrun⟩
    | breakpoint hrun => exact .inl ⟨.inr rfl, hrun⟩
    | stopped hstop =>
      refine .inr ⟨?_, rfl, hstop⟩
      rintro (hc | hc)
      · exact htrail.stop_ne hne (.inl rfl) hc
      · exact htrail.stop_ne hne (.inr (.inl rfl)) hc

/-- The trails of calls that only pause join to one. -/
theorem Calls.trail {m m' : Machine κ} {before : List (StopCode × Nat)} {c : StopCode} {k : Nat}
    (h : Calls m (before ++ [(c, k)]) m') (hpause : ∀ x ∈ before, x.1.IsPause) :
    ∃ trail m₁, Executes (m.stopWith .running) trail m₁ ∧ trail ≠ [] ∧
      trail.length = ((before ++ [(c, k)]).map (·.2)).sum ∧
      (∀ x ∈ before ++ [(c, k)], 0 < x.2) ∧ m' = m₁.stopWith c ∧
      (c.IsPause ∧ m₁.cpu.stop = .running ∨
        ¬ c.IsPause ∧ m₁.cpu.stop = c ∧ m₁.cpu.stop ≠ .running) := by
  induction before generalizing m with
  | nil =>
    cases h with
    | cons hrun hrest =>
      cases hrest
      obtain ⟨trail, m₁, htrail, hne, hcount, hm', hc⟩ := run_call hrun
      refine ⟨trail, m₁, htrail, hne, ?_, ?_, hm', hc⟩
      · simpa using hcount.symm
      · intro x hx
        rw [List.nil_append, List.mem_singleton] at hx
        subst hx
        rw [hcount]
        exact List.length_pos_iff.mpr hne
  | cons call before ih =>
    cases h with
    | cons hrun hrest =>
      rename_i m₂ limit budget c₂
      obtain ⟨trail₁, m₁, htrail₁, hne, hcount, hm₂, hc⟩ := run_call hrun
      obtain ⟨trail₂, m₃, htrail₂, -, hlen, hpos, hend⟩ :=
        ih hrest fun x hx => hpause x (List.mem_cons_of_mem _ hx)
      have hrunning : m₁.cpu.stop = .running := by
        rcases hc with ⟨-, hc⟩ | ⟨hc, -⟩
        · exact hc
        · exact absurd (hpause _ List.mem_cons_self) hc
      -- The next call starts on the machine that this one paused on, apart from its stop code.
      have hjoin : m₂.stopWith .running = m₁ := by
        rw [hm₂]
        exact stopWith_of_stop hrunning
      rw [hjoin] at htrail₂
      refine ⟨trail₁ ++ trail₂, m₃, htrail₁.append htrail₂, List.append_ne_nil_of_left_ne_nil hne _,
        ?_, ?_, hend⟩
      · rw [List.length_append, hlen, ← hcount]
        rfl
      · intro x hx
        rcases List.mem_cons.mp hx with rfl | hx
        · show 0 < m₂.cpu.executed - m.cpu.executed
          rw [hcount]
          exact List.length_pos_iff.mpr hne
        · exact hpos x hx

/-- Cutting a run into pieces does not change it. If all calls but the last only pause, each of them
executes something, and one run without breakpoints that executes as much leaves the same machine
and stops for the reason of the last call, unless that only pauses too. -/
theorem run_calls {m m' : Machine κ} {before : List (StopCode × Nat)} {c : StopCode} {k : Nat}
    (h : Calls m (before ++ [(c, k)]) m') (hpause : ∀ x ∈ before, x.1.IsPause) :
    (∀ x ∈ before ++ [(c, k)], 0 < x.2) ∧
      ∀ n, n = ((before ++ [(c, k)]).map (·.2)).sum → n < 2 ^ 32 → ∀ budget, ∃ c',
        run (BitVec.ofNat 32 n) budget m.clearBreaks = .ok (c', m'.clearBreaks.stopWith c') ∧
          (c.IsPause → c' = .finished) ∧ (¬ c.IsPause → c' = c) := by
  obtain ⟨trail, m₁, htrail, hne, hlen, hpos, hm', hc⟩ := h.trail hpause
  refine ⟨hpos, ?_⟩
  intro n hn hlt budget
  rw [← hlen] at hn
  subst hn
  rw [run_of_trail htrail hne hlt budget, hm']
  rcases hc with ⟨hpause', hrun⟩ | ⟨hpause', hcode, hrun⟩
  · rw [if_pos hrun]
    exact ⟨.finished, rfl, fun _ => rfl, fun hn => absurd hpause' hn⟩
  · rw [if_neg hrun, hcode]
    refine ⟨c, ?_, fun hp => absurd hp hpause', fun _ => rfl⟩
    have hsame : (m₁.stopWith c).clearBreaks.stopWith c = (m₁.stopWith c).clearBreaks := rfl
    rw [hsame, stopWith_of_stop hcode]

/-- `ADD R0, R0, #1` in a call of its own, and a call without a limit that comes to `HALT`. -/
theorem run_calls_twice :
    ∃ m', Calls (sample [0x1021, 0xF025] []) ([(.finished, 1)] ++ [(.halt, 1)]) m' ∧
      run 2 0 (sample [0x1021, 0xF025] []).clearBreaks =
        .ok (.halt, m'.clearBreaks.stopWith .halt) := by
  let m := sample [0x1021, 0xF025] []
  let m₁ := after (run 1 0 m) m
  let m₂ := after (run 0 5 m₁) m₁
  have h₁ : run 1 0 m = .ok (.finished, m₁) := eq_ok_of_result m (by decide +kernel)
  have h₂ : run 0 5 m₁ = .ok (.halt, m₂) := eq_ok_of_result m₁ (by decide +kernel)
  have hcount : m₁.cpu.executed - m.cpu.executed = 1 ∧ m₂.cpu.executed - m₁.cpu.executed = 1 := by
    decide +kernel
  have hcalls : Calls m ([(.finished, 1)] ++ [(.halt, 1)]) m₂ := by
    have hall := Calls.cons h₁ (.cons h₂ (.nil m₂))
    rw [hcount.1, hcount.2] at hall
    exact hall
  have hpause : ∀ x ∈ [(StopCode.finished, 1)], x.1.IsPause := by
    intro x hx
    rw [List.mem_singleton.mp hx]
    exact .inl rfl
  obtain ⟨-, hrun⟩ := run_calls hcalls hpause
  obtain ⟨c, hrun, -, hc⟩ := hrun 2 rfl (by decide) 0
  have hhalt : c = .halt := hc (by rintro (h | h) <;> cases h)
  subst hhalt
  exact ⟨m₂, hcalls, hrun⟩

end Machine

end LittleComputer
