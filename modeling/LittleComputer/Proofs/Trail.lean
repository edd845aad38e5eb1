import LittleComputer.Proofs.Instruction
import LittleComputer.Proofs.Interruption

/-!
# Trails

The trail of a run lists the machines that the run executes an instruction on, in order. The
machine is running on every one of them, and only the instruction on the last one may stop it.
`run_trail` takes a run apart into its trail and its end, and `steps_of_trail` puts one together.
-/

namespace LittleComputer

variable {κ : Type}

def Machine.stopWith (reason : StopCode) (m : Machine κ) : Machine κ :=
  { m with cpu := m.cpu.breakWith reason }

theorem Machine.stopWith_of_stop {m : Machine κ} {c : StopCode} (h : m.cpu.stop = c) :
    m.stopWith c = m := by
  subst h
  rfl

variable [Console κ]

/-! ## One instruction -/

namespace Routine

/-- A fetch is a load from the program counter, after which the counter moves on by one. -/
theorem fetch_inv {m m' : Machine κ} {w : Word} (h : fetch.run m = .ok (w, m')) :
    ∃ m₁, Machine.load m.cpu.pc { m with cpu := { m.cpu with lastPc := m.cpu.pc } } = .ok (w, m₁) ∧
      m'.cpu = { m₁.cpu with pc := m₁.cpu.pc + 1 } := by
  rw [fetch, run_bind, run_look] at h
  dsimp only at h
  rw [run_bind, run_change] at h
  obtain ⟨v, m₁, hl, h⟩ := run_bind_eq_ok.mp h
  rw [run_load] at hl
  obtain ⟨u, m₂, ht, h⟩ := run_bind_eq_ok.mp h
  cases ht
  rw [run_bind, run_change] at h
  cases h
  exact ⟨m₁, hl, rfl⟩

/-- The processor after a word was fetched. Only the stop code depends on the memory. -/
theorem fetch_cpu {m m' : Machine κ} {w : Word} (h : fetch.run m = .ok (w, m')) :
    m'.cpu = { m.cpu with
      lastPc := m.cpu.pc, pc := m.cpu.pc + 1, stop := m'.cpu.stop } := by
  obtain ⟨m₁, hl, hc⟩ := fetch_inv h
  rw [hc, (Machine.load_untouched hl).cpu]

/-- A step is a fetch, the fetched instruction's effect, and one more on the count. -/
theorem step_inv {m m' : Machine κ} (h : step.run m = .ok ((), m')) :
    ∃ w m₁ m₂, fetch.run m = .ok (w, m₁) ∧
      (perform (Instruction.decode w)).run m₁ = .ok ((), m₂) ∧
      m' = { m₂ with cpu := { m₂.cpu with executed := m₂.cpu.executed + 1 } } := by
  obtain ⟨w, m₁, hf, h⟩ := run_bind_eq_ok.mp h
  obtain ⟨u, m₂, hp, h⟩ := run_bind_eq_ok.mp h
  rw [run_change] at h
  cases h
  exact ⟨w, m₁, m₂, hf, hp, rfl⟩

theorem step_executed {m m' : Machine κ} (h : step.run m = .ok ((), m')) :
    m'.cpu.executed = m.cpu.executed + 1 := by
  obtain ⟨w, m₁, m₂, hf, hp, rfl⟩ := step_inv h
  show m₂.cpu.executed + 1 = _
  rw [(perform_continues hp).executed, fetch_cpu hf]

theorem step_isValid {m m' : Machine κ} (h : step.run m = .ok ((), m')) :
    m.memory.isValid m.cpu.pc = true := by
  obtain ⟨w, m₁, m₂, hf, -, -⟩ := step_inv h
  obtain ⟨m₃, hl, -⟩ := fetch_inv hf
  cases hv : m.memory.isValid m.cpu.pc with
  | true => rfl
  | false =>
    rw [Machine.load, if_neg (by rw [hv]; decide)] at hl
    cases hl

end Routine

namespace Machine

/-! ## Trails -/

/-- From the first machine, executing one instruction on each machine of the trail leads to the last
machine. -/
inductive Executes : Machine κ → List (Machine κ) → Machine κ → Prop where
  | nil (m : Machine κ) : Executes m [] m
  | cons {m m₁ m' : Machine κ} {trail : List (Machine κ)} (hrun : m.cpu.stop = .running)
      (hstep : step m = .ok ((), m₁)) (hrest : Executes m₁ trail m') : Executes m (m :: trail) m'

namespace Executes

variable {m m₁ m₂ : Machine κ} {trail trail' : List (Machine κ)}

theorem append (h : Executes m trail m₁) (h' : Executes m₁ trail' m₂) :
    Executes m (trail ++ trail') m₂ := by
  induction h with
  | nil m => exact h'
  | cons hrun hstep _ ih => exact .cons hrun hstep (ih h')

/-- A trail may be cut anywhere: both pieces are trails, and they meet in one machine. -/
theorem split (h : Executes m (trail ++ trail') m₂) :
    ∃ m₁, Executes m trail m₁ ∧ Executes m₁ trail' m₂ := by
  induction trail generalizing m with
  | nil => exact ⟨m, .nil m, h⟩
  | cons x trail ih =>
    cases h with
    | cons hrun hstep hrest =>
      obtain ⟨m₁, h₁, h₂⟩ := ih hrest
      exact ⟨m₁, .cons hrun hstep h₁, h₂⟩

theorem running (h : Executes m trail m₁) (hne : trail ≠ []) : m.cpu.stop = .running := by
  cases h with
  | nil => exact absurd rfl hne
  | cons hrun _ _ => exact hrun

/-- The count of executed instructions grows by the length of the trail. -/
theorem executed (h : Executes m trail m₁) :
    m₁.cpu.executed = m.cpu.executed + trail.length := by
  induction h with
  | nil m => rfl
  | cons _ hstep _ ih =>
    rw [ih, Routine.step_executed hstep, List.length_cons]
    omega

/-- Trails of one length from one machine are the same. -/
theorem unique (h : Executes m trail m₁) (h' : Executes m trail' m₂)
    (hlen : trail.length = trail'.length) : trail = trail' ∧ m₁ = m₂ := by
  induction h generalizing trail' with
  | nil m =>
    cases h' with
    | nil => exact ⟨rfl, rfl⟩
    | cons => cases hlen
  | cons hrun hstep _ ih =>
    cases h' with
    | nil => cases hlen
    | cons _ hstep' hrest' =>
      cases hstep.symm.trans hstep'
      obtain ⟨rfl, hm⟩ := ih hrest' (Nat.succ.inj hlen)
      exact ⟨rfl, hm⟩

end Executes

/-! ## Runs -/

/-- What is done with the stop code after an instruction. -/
private theorem step_then (n : Nat) (m : Machine κ) :
    (do
      step
      let stop := (← get).cpu.stop
      if stop = .running then steps n false else return some stop : Action κ _) m =
    match step m with
    | .error e => .error e
    | .ok (_, m₁) =>
      if m₁.cpu.stop = .running then steps n false m₁ else .ok (some m₁.cpu.stop, m₁) := by
  rw [action_bind]
  cases step m with
  | error e => rfl
  | ok x =>
    obtain ⟨u, m₁⟩ := x
    show (if m₁.cpu.stop = .running then steps n false else pure (some m₁.cpu.stop) :
      Action κ _) m₁ = if m₁.cpu.stop = .running then _ else _
    split
    · rfl
    · rfl

theorem steps_succ (n : Nat) (first : Bool) (m : Machine κ) :
    steps (n + 1) first m =
      match (if first then .ok false else m.memory.isBreak m.cpu.pc : Except Fault Bool) with
      | .error e => .error e
      | .ok true => .ok (some .breakpoint, m.stopWith .breakpoint)
      | .ok false =>
        match step m with
        | .error e => .error e
        | .ok (_, m₁) =>
          if m₁.cpu.stop = .running then steps n false m₁ else .ok (some m₁.cpu.stop, m₁) := by
  rw [steps, action_bind]
  cases first with
  | true => exact step_then n m
  | false =>
    refine (action_bind (askMemory (·.isBreak m.cpu.pc)) _ m).trans ?_
    rw [askMemory, if_neg (by decide)]
    cases m.memory.isBreak m.cpu.pc with
    | error e => rfl
    | ok b =>
      cases b with
      | true => rfl
      | false => exact step_then n m

/-- How a number of steps can end: the steps are used up, a breakpoint is reached, or the last
instruction stopped the machine. -/
inductive StepsEnd (n : Nat) (m₁ : Machine κ) (used : Nat) :
    Option StopCode → Machine κ → Prop where
  | used (hrun : m₁.cpu.stop = .running) (hn : used = n) : StepsEnd n m₁ used none m₁
  | breakpoint (hrun : m₁.cpu.stop = .running) (hb : m₁.memory.isBreak m₁.cpu.pc = .ok true) :
    StepsEnd n m₁ used (some .breakpoint) (m₁.stopWith .breakpoint)
  | stopped (hstop : m₁.cpu.stop ≠ .running) : StepsEnd n m₁ used (some m₁.cpu.stop) m₁

/-- Stepping leaves a trail of whole instructions and ends for one of the reasons of `StepsEnd`. -/
theorem steps_trail {n : Nat} {first : Bool} {m m' : Machine κ} {answer : Option StopCode}
    (hrun : m.cpu.stop = .running) (h : steps n first m = .ok (answer, m')) :
    ∃ trail m₁, Executes m trail m₁ ∧ trail.length ≤ n ∧ (first = true → n ≠ 0 → trail ≠ []) ∧
      StepsEnd n m₁ trail.length answer m' := by
  -- Only the first step ignores a breakpoint, so the rest of a trail can be empty, the whole not.
  induction n generalizing first m with
  | zero =>
    cases h
    exact ⟨[], m', .nil m', Nat.le_refl 0, fun _ h0 => absurd rfl h0, .used hrun rfl⟩
  | succ n ih =>
    rw [steps_succ] at h
    split at h
    · cases h
    · rename_i hb
      cases h
      cases first with
      | true => cases hb
      | false =>
        exact ⟨[], m, .nil m, Nat.zero_le _, fun hf => absurd hf (by decide), .breakpoint hrun hb⟩
    · split at h
      · cases h
      · rename_i m₁ hstep
        split at h
        · rename_i hrun₁
          obtain ⟨trail, m₂, htrail, hlen, -, hend⟩ := ih hrun₁ h
          refine ⟨m :: trail, m₂, .cons hrun hstep htrail, Nat.succ_le_succ hlen,
            fun _ _ => List.cons_ne_nil m trail, ?_⟩
          cases hend with
          | used hrun₂ hn => exact .used hrun₂ (by rw [List.length_cons, hn])
          | breakpoint hrun₂ hb => exact .breakpoint hrun₂ hb
          | stopped hstop => exact .stopped hstop
        · rename_i hstop
          cases h
          exact ⟨[m], m', .cons hrun hstep (.nil m'), Nat.succ_le_succ (Nat.zero_le n),
            fun _ _ => List.cons_ne_nil m [], .stopped hstop⟩

/-- A run sets the stop code to running, steps within its bound and records why it ended. -/
theorem run_eq (limit : BitVec 32) (budget : Nat) (m : Machine κ) :
    run limit budget m =
      match steps (if limit = 0 then budget else limit.toNat) true (m.stopWith .running) with
      | .error e => .error e
      | .ok (some c, m₁) => .ok (c, m₁)
      | .ok (none, m₁) =>
        if limit = 0 then .error .outOfSteps else .ok (.finished, m₁.stopWith .finished) := by
  refine (action_bind (modifyCpu (·.breakWith .running)) _ m).trans ?_
  show (if limit = 0 then _ else _ : Action κ StopCode) (m.stopWith .running) = _
  split
  · refine (action_bind (steps budget true) _ _).trans ?_
    cases steps budget true (m.stopWith .running) with
    | error e => rfl
    | ok x =>
      obtain ⟨answer, m₁⟩ := x
      cases answer with
      | none => rfl
      | some c => rfl
  · refine (action_bind (steps limit.toNat true) _ _).trans ?_
    cases steps limit.toNat true (m.stopWith .running) with
    | error e => rfl
    | ok x =>
      obtain ⟨answer, m₁⟩ := x
      cases answer with
      | none => rfl
      | some c => rfl

/-- How a run can end after its last instruction. -/
inductive RunEnd (limit : BitVec 32) (m₁ : Machine κ) (used : Nat) :
    StopCode → Machine κ → Prop where
  | finished (hrun : m₁.cpu.stop = .running) (hlimit : limit ≠ 0) (hused : used = limit.toNat) :
    RunEnd limit m₁ used .finished (m₁.stopWith .finished)
  | breakpoint (hrun : m₁.cpu.stop = .running) (hb : m₁.memory.isBreak m₁.cpu.pc = .ok true) :
    RunEnd limit m₁ used .breakpoint (m₁.stopWith .breakpoint)
  | stopped (hstop : m₁.cpu.stop ≠ .running) : RunEnd limit m₁ used m₁.cpu.stop m₁

omit [Console κ] in
/-- However a run ends, the end changes nothing of the machine but its stop code. -/
theorem RunEnd.eq_stopWith {limit : BitVec 32} {m₁ m' : Machine κ} {used : Nat} {c : StopCode}
    (h : RunEnd limit m₁ used c m') : m' = m₁.stopWith c := by
  cases h with
  | finished | breakpoint => rfl
  | stopped => exact (stopWith_of_stop rfl).symm

/-- Every run that returns has a trail, and ends where the trail does. -/
theorem run_trail {limit : BitVec 32} {budget : Nat} {m m' : Machine κ} {c : StopCode}
    (h : run limit budget m = .ok (c, m')) :
    ∃ trail m₁, Executes (m.stopWith .running) trail m₁ ∧ trail ≠ [] ∧
      (limit ≠ 0 → trail.length ≤ limit.toNat) ∧ RunEnd limit m₁ trail.length c m' := by
  rw [run_eq] at h
  split at h
  · cases h
  · rename_i c' m₂ hs
    cases h
    obtain ⟨trail, m₁, htrail, hlen, hne, hend⟩ := steps_trail rfl hs
    refine ⟨trail, m₁, htrail, ?_, ?_, ?_⟩
    · refine hne rfl fun h0 => ?_
      rw [h0] at hs
      cases hs
    · intro hlimit
      rwa [if_neg hlimit] at hlen
    · cases hend with
      | breakpoint hrun hb => exact .breakpoint hrun hb
      | stopped hstop => exact .stopped hstop
  · rename_i m₂ hs
    split at h
    · cases h
    · rename_i hlimit
      cases h
      rw [if_neg hlimit] at hs
      obtain ⟨trail, m₁, htrail, hlen, hne, hend⟩ := steps_trail rfl hs
      have hpos : limit.toNat ≠ 0 := fun h0 => hlimit (BitVec.eq_of_toNat_eq h0)
      cases hend with
      | used hrun hn =>
        exact ⟨trail, m₂, htrail, hne rfl hpos, fun _ => hlen, .finished hrun hlimit hn⟩

/-- Without breakpoints in its way, a number of steps follows a trail of that length. -/
theorem steps_of_trail (first : Bool) {trail : List (Machine κ)} {m m₁ : Machine κ}
    (htrail : Executes m trail m₁) (hrun : m.cpu.stop = .running)
    (hclear : ∀ x ∈ trail, x.memory.isBreak x.cpu.pc = .ok false) :
    steps trail.length first m =
      .ok (if m₁.cpu.stop = .running then none else some m₁.cpu.stop, m₁) := by
  induction htrail generalizing first with
  | nil m =>
    rw [if_pos hrun]
    rfl
  | cons hrun₀ hstep hrest ih =>
    rename_i m m₂ m₃ trail
    have hb : (if first then .ok false else m.memory.isBreak m.cpu.pc : Except Fault Bool) =
        .ok false := by
      rw [hclear m List.mem_cons_self, ite_self]
    rw [List.length_cons, steps_succ, hb, hstep]
    dsimp only
    split
    · rename_i hrun₂
      exact ih false hrun₂ fun x hx => hclear x (List.mem_cons_of_mem m hx)
    · rename_i hstop
      cases hrest with
      | nil => rw [if_neg hstop]
      | cons hrun₂ => exact absurd hrun₂ hstop

end Machine

/-! ## Stop codes of steps -/

/-- A program stops the machine by itself with one of these. -/
def StopCode.IsOwn (c : StopCode) : Prop := c = .endOfInput ∨ c = .illegalOpcode ∨ c = .halt

namespace Routine

open Operation (Changes)

/-- What a step does to the stop code, apart from interruptions. -/
theorem step_all : step.All (Changes fun c c' => c'.stop = c.stop ∨ c'.stop.IsOwn) := by
  have hfetch : fetch.All (Changes fun c c' => c'.stop = c.stop ∨ c'.stop.IsOwn) := by
    refine .bind (.one trivial) fun c => .bind (.one fun _ => .inl rfl) fun _ => ?_
    refine .bind (.one trivial) fun w => .bind (.one trivial) fun _ => ?_
    exact .bind (.one fun _ => .inl rfl) fun _ => .pure w
  refine .bind hfetch fun w => .bind ?_ fun _ => .one fun _ => .inl rfl
  refine (perform_all (Instruction.decode w)).mono fun _ ho => ho.mono fun c c' hp => ?_
  rcases hp.2 with hstop | hown
  · exact .inl hstop
  · exact .inr (Instruction.ownStop_mem hown)

variable {m m' : Machine κ}

/-- A step stops the processor only by its own instruction or by a console break it noticed. -/
theorem step_stop (hrun : m.cpu.stop = .running) (h : step.run m = .ok ((), m')) :
    m'.cpu.stop = .running ∨ m'.cpu.stop.IsOwn ∨
      (m'.cpu.stop = .interrupted ∧ step.TakesBreak m) := by
  rw [← hrun]
  exact step_all.stop h

theorem step_stopped (hbreak : step.TakesBreak m) (h : step.run m = .ok ((), m')) :
    m'.cpu.stop ≠ .running := by
  refine step_all.stopped ?_ h (.inr hbreak)
  rintro (h | h | h)
  · cases h
  · cases h
  · cases h

end Routine

namespace Machine

theorem Executes.stop {m m₁ : Machine κ} {trail : List (Machine κ)} (h : Executes m trail m₁)
    (hne : trail ≠ []) :
    m₁.cpu.stop = .running ∨ m₁.cpu.stop.IsOwn ∨ m₁.cpu.stop = .interrupted := by
  induction h with
  | nil m => exact absurd rfl hne
  | cons hrun hstep hrest ih =>
    cases hrest with
    | nil =>
      rcases Routine.step_stop hrun hstep with hc | hc | ⟨hc, -⟩
      · exact .inl hc
      · exact .inr (.inl hc)
      · exact .inr (.inr hc)
    | cons hrun₂ hstep₂ hrest₂ => exact ih (List.cons_ne_nil _ _)

/-- These codes come from the run and not from an instruction, or from nowhere. -/
theorem Executes.stop_ne {m m₁ : Machine κ} {trail : List (Machine κ)} (h : Executes m trail m₁)
    (hne : trail ≠ []) {c : StopCode}
    (hc : c = .finished ∨ c = .breakpoint ∨ c = .endlessLoop) : m₁.cpu.stop ≠ c := by
  rcases h.stop hne with hs | (hs | hs | hs) | hs
  all_goals
    rw [hs]
    rcases hc with rfl | rfl | rfl <;> decide

end Machine

end LittleComputer
