import Mathlib
import LittleComputer.Proofs.InstructionSet
import LittleComputer.Proofs.Trail

/-!
# The condition code

The condition is always exactly one of positive, zero and negative. The instructions that compute or
load a word for a register set it to the sign of that word, and no other instruction changes it, no
service that a trap calls included. So whatever calls are made of a processor, the condition is what
the last of them came to that had to do with it.
-/

namespace LittleComputer

/-! ## Registers of the operator -/

theorem Register.ofCode?_eq_condition {code : Nat} :
    Register.ofCode? code = some .condition ↔ code = 9 := by
  constructor
  · intro h
    obtain ⟨hlt, hget⟩ := List.getElem?_eq_some_iff.mp h
    have hall : ∀ i : Fin 10, Register.all[i] = .condition → i.val = 9 := by decide
    exact hall ⟨code, hlt⟩ hget
  · rintro rfl
    rfl

namespace Condition

/-- As a number, a condition is exactly one bit. -/
theorem bits_oneHot (c : Condition) :
    (c.bits.setWidth 16 : Word) = 1 ∨ (c.bits.setWidth 16 : Word) = 2 ∨
      (c.bits.setWidth 16 : Word) = 4 := by
  cases c with
  | positive => exact .inl rfl
  | zero => exact .inr (.inl rfl)
  | negative => exact .inr (.inr rfl)

/-- No other bits than the three stand for a condition, however many bits there are. -/
theorem ofNat?_eq_none {n : Nat} {v : BitVec n} (hv : ¬ (v = 1 ∨ v = 2 ∨ v = 4)) :
    ofNat? v.toNat = none := by
  have heq : ∀ k, v.toNat = k → v = BitVec.ofNat n k := by
    intro k hk
    rw [← hk, BitVec.ofNat_toNat, BitVec.setWidth_eq]
  unfold ofNat?
  split
  · rename_i h
    exact absurd (.inl (heq 1 h)) hv
  · rename_i h
    exact absurd (.inr (.inl (heq 2 h))) hv
  · rename_i h
    exact absurd (.inr (.inr (heq 4 h))) hv
  · rfl

/-- A word is a condition exactly if it is one of the three one-hot values, and then it is its
bits. -/
theorem ofNat?_toNat (v : Word) :
    (∃ c, ofNat? v.toNat = some c ∧ c.bits.setWidth 16 = v) ∧ (v = 1 ∨ v = 2 ∨ v = 4) ∨
      ofNat? v.toNat = none ∧ ¬ (v = 1 ∨ v = 2 ∨ v = 4) := by
  by_cases hv : v = 1 ∨ v = 2 ∨ v = 4
  · refine .inl ⟨?_, hv⟩
    rcases hv with rfl | rfl | rfl
    · exact ⟨.positive, rfl, rfl⟩
    · exact ⟨.zero, rfl, rfl⟩
    · exact ⟨.negative, rfl, rfl⟩
  · exact .inr ⟨ofNat?_eq_none hv, hv⟩

end Condition

/-- The operator can change the condition only to one of the three. -/
theorem Cpu.inspect_deposit_condition (c : Cpu) (code : Nat) (v : Word) :
    (c.deposit code v).inspect 9 =
      if code = 9 ∧ (v = 1 ∨ v = 2 ∨ v = 4) then v else c.inspect 9 := by
  have hinspect : ∀ c : Cpu, c.inspect 9 = c.condition.bits.setWidth 16 := fun _ => rfl
  rw [hinspect, hinspect]
  by_cases hcode : code = 9
  · rw [deposit, Register.ofCode?_eq_condition.mpr hcode]
    dsimp only
    rcases Condition.ofNat?_toNat v with ⟨⟨d, hd, hbits⟩, hv⟩ | ⟨hnone, hv⟩
    · rw [hd, if_pos ⟨hcode, hv⟩]
      exact hbits
    · rw [hnone, if_neg (fun h => hv h.2)]
  · rw [if_neg (fun h => hcode h.1)]
    cases hr : Register.ofCode? code with
    | none => rw [deposit, hr]
    | some r =>
      cases r with
      | condition => exact absurd (Register.ofCode?_eq_condition.mp hr) hcode
      | general r =>
        rw [deposit, hr]
        rfl
      | pc =>
        rw [deposit, hr]
        rfl

/-- A program that runs the machine can set the condition to one of the three, and breaks a rule
with anything else. -/
theorem Cpu.inspect_setCondition (c : Cpu) (bits : Byte) :
    if bits = 1 ∨ bits = 2 ∨ bits = 4 then
      ∃ c', c.setCondition bits = .ok c' ∧ c'.inspect 9 = bits.setWidth 16
    else c.setCondition bits = .error (.condition bits) := by
  split
  · rename_i hbits
    rcases hbits with rfl | rfl | rfl
    · exact ⟨_, rfl, rfl⟩
    · exact ⟨_, rfl, rfl⟩
    · exact ⟨_, rfl, rfl⟩
  · rename_i hbits
    rw [setCondition, Condition.ofNat?_eq_none hbits]

theorem Cpu.setCondition_inv {c c' : Cpu} {bits : Byte} (h : c.setCondition bits = .ok c') :
    Condition.ofNat? bits.toNat = some c'.condition := by
  unfold setCondition at h
  split at h
  · rename_i d hd
    cases h
    exact hd
  · cases h

/-- What a value for a register of the operator comes to for the condition. -/
theorem Cpu.deposit_condition (c : Cpu) (code : Nat) (v : Word) :
    (c.deposit code v).condition =
      if code = 9 then (Condition.ofNat? v.toNat).getD c.condition else c.condition := by
  by_cases hcode : code = 9
  · rw [if_pos hcode, deposit, Register.ofCode?_eq_condition.mpr hcode]
    dsimp only
    cases Condition.ofNat? v.toNat with
    | none => rfl
    | some d => rfl
  · rw [if_neg hcode]
    unfold deposit
    split
    · rfl
    · rfl
    · rename_i hr
      exact absurd (Register.ofCode?_eq_condition.mp hr) hcode
    · rfl

namespace InstructionSet

/-! ## Results -/

/-- The register for the result that sets the condition, if there is one. -/
def resultRegister? : Instruction → Option RegisterNumber
  | .add d _ _ | .and d _ _ | .not d _ | .ld d _ | .ldi d _ | .ldr d _ _ | .lea d _ => some d
  | _ => none

/-- Additions, conjunctions, complements, the three ways to load a word, and the loading of an
address. -/
def setsCondition (w : Word) : Bool := bits w 12 4 ∈ [1, 2, 5, 6, 9, 10, 14]

theorem resultRegister?_decode (w : Word) :
    resultRegister? (Instruction.decode w) =
      if setsCondition w then some (registerAt w 9) else none := by
  rw [setsCondition, opcode_eq, Instruction.decode, registerAt_eq]
  cases Opcode.ofBits (Field.opcode w) with
  | jsr => cases Field.hasOffset w <;> rfl
  | _ => rfl

/-- All effects of the accesses set the condition from the word for the given register, or none of
them does anything to it. -/
def Accesses.Sets (d : Option RegisterNumber) : Accesses → Prop
  | none effect =>
    match d with
    | some d => ∃ v, effect.result = some (d, v) ∧ effect.condition = some (.ofWord v)
    | Option.none => effect.condition = Option.none
  | read _ next => ∀ w, (next w).Sets d
  | write _ _ next => next.Sets d

theorem meaningOf_sets (c : Cpu) (i : Instruction) : (meaningOf c i).Sets (resultRegister? i) := by
  cases i with
  | add | and | not | lea => exact ⟨_, rfl, rfl⟩
  | ld | ldr => exact fun v => ⟨v, rfl, rfl⟩
  | ldi => exact fun _ v => ⟨v, rfl, rfl⟩
  | sti => exact fun _ => rfl
  | _ => rfl

/-- The condition after an instruction with the given register for its result, where `before` was
the condition before it. -/
def conditionAfter (before : Condition) (c : Cpu) : Option RegisterNumber → Condition
  | some d => .ofWord (c.register d)
  | none => before

variable {κ : Type} [Console κ]

theorem outcome_write (w a v : Word) (next : Accesses) (m : Machine κ) :
    outcome w (.write a v next) m =
      match Machine.store a v m with
      | .ok (_, m₁) => outcome w next m₁
      | .error e => .error e := by
  rw [outcome, Accesses.perform]
  cases Machine.store a v m with
  | error e => rfl
  | ok x => rfl

/-- If the meaning of a word settles the condition, so does the outcome of its accesses. -/
theorem outcome_condition {w : Word} {accesses : Accesses} {d : Option RegisterNumber}
    (hsets : accesses.Sets d) {m m' : Machine κ} (h : outcome w accesses m = .ok ((), m')) :
    m'.cpu.condition = conditionAfter m.cpu.condition m'.cpu d := by
  induction accesses generalizing m with
  | none e =>
    cases h
    cases d with
    | some d =>
      obtain ⟨v, hresult, hcondition⟩ := hsets
      show e.condition.getD m.cpu.condition = _
      have hregister : (e.apply (complaint w m.cpu.lastPc) m).cpu.register d = v := by
        simp only [Effect.apply, Cpu.register, hresult, Table.get_set_self]
      rw [hcondition, conditionAfter, hregister]
      rfl
    | none =>
      show e.condition.getD m.cpu.condition = _
      rw [show e.condition = Option.none from hsets]
      rfl
  | read a next ih =>
    rw [outcome_read] at h
    split at h
    · rename_i v m₁ hl
      have hkept : m₁.cpu.condition = m.cpu.condition := by rw [(Machine.load_untouched hl).cpu]
      rw [ih v (hsets v) h]
      cases d with
      | some d => rfl
      | none => exact hkept
    · cases h
  | write a v next ih =>
    rw [outcome_write] at h
    split at h
    · rename_i m₁ hs
      rw [ih hsets h]
      cases d with
      | some d => rfl
      | none => exact congrArg Cpu.condition (Machine.store_stored hs).cpu
    · cases h

/-- The condition after the instruction in a word, if it was `before` ahead of it and `c` is the
processor after it. -/
def settled (before : Condition) (w : Word) (c : Cpu) : Condition :=
  if bits w 12 4 ∈ [1, 2, 5, 6, 9, 10, 14] then sign (c.register (registerAt w 9)).toInt
  else before

theorem conditionAfter_eq_settled (before : Condition) (w : Word) (c : Cpu) :
    conditionAfter before c (if setsCondition w then some (registerAt w 9) else none) =
      settled before w c := by
  rw [setsCondition, settled]
  by_cases hw : bits w 12 4 ∈ [1, 2, 5, 6, 9, 10, 14]
  · rw [if_pos (decide_eq_true hw), if_pos hw, sign_eq]
    rfl
  · rw [if_neg (by simpa using hw), if_neg hw]
    rfl

/-- An instruction settles the condition, whether it is executed on its own or in a run. -/
theorem perform_settles {w : Word} {m m' : Machine κ}
    (h : (Routine.perform (Instruction.decode w)).run m = .ok ((), m')) :
    m'.cpu.condition = settled m.cpu.condition w m'.cpu := by
  rw [← conditionAfter_eq_settled]
  by_cases htrap : bits w 12 4 = 15
  · rw [decode_eq_trap htrap] at h
    have hnot : setsCondition w = false := by
      rw [setsCondition, htrap]
      rfl
    rw [hnot]
    exact (Routine.perform_trap h).condition
  · rw [perform_eq (decode_ne_trap htrap) (fun _ => decode_reserved)] at h
    rw [← resultRegister?_decode]
    exact outcome_condition (meaningOf_sets _ _) h

/-- Executing any word leaves the condition settled by the result register, if it has one. -/
theorem execute_settles {w : Word} {m m' : Machine κ} {c : StopCode}
    (h : Machine.execute w m = .ok (c, m')) :
    m'.cpu.condition = settled m.cpu.condition w m'.cpu := by
  rw [execute_run] at h
  split at h
  · rename_i u m₁ hp
    cases h
    have hsettles := perform_settles hp
    exact hsettles
  · cases h

/-- A step leaves the condition as the word that it fetched settles it. -/
theorem step_settles {w : Word} {m m₁ m' : Machine κ} (hfetch : Routine.fetch.run m = .ok (w, m₁))
    (hstep : Machine.step m = .ok ((), m')) :
    m'.cpu.condition = settled m.cpu.condition w m'.cpu := by
  obtain ⟨w', m₂, m₃, hf, hp, rfl⟩ := Routine.step_inv hstep
  cases hfetch.symm.trans hf
  have hsettles := perform_settles hp
  rwa [Routine.fetch_cpu hfetch] at hsettles

/-! ## Branches -/

/-- A branch never waits and never stops. -/
theorem execute_branch {w : Word} (hw : bits w 12 4 = 0) (m : Machine κ) :
    ∃ m', Machine.execute w m = .ok (.running, m') ∧
      m'.cpu.pc = if branches w m.cpu then nearby w m.cpu else m.cpu.pc := by
  have hne : bits w 12 4 ≠ 15 := by
    rw [hw]
    decide
  have hmeaning : meaningOf (entered m).cpu (Instruction.decode w) =
      .none { pc := if branches w m.cpu then nearby w m.cpu else m.cpu.pc } := by
    rw [← meaning_eq, meaning, hw]
    rfl
  rw [execute_run, perform_eq (decode_ne_trap hne) (fun _ => decode_reserved), hmeaning]
  exact ⟨_, rfl, rfl⟩

theorem branches_of_all {w : Word} (hw : bits w 9 3 = 7) (c : Cpu) : branches w c = true := by
  have hbits : bits w 9 1 = 1 ∧ bits w 10 1 = 1 ∧ bits w 11 1 = 1 := by
    simp only [bits] at hw ⊢
    omega
  rw [branches]
  cases c.condition with
  | positive => exact decide_eq_true hbits.1
  | zero => exact decide_eq_true hbits.2.1
  | negative => exact decide_eq_true hbits.2.2

theorem branches_of_none {w : Word} (hw : bits w 9 3 = 0) (c : Cpu) : branches w c = false := by
  have hbits : bits w 9 1 ≠ 1 ∧ bits w 10 1 ≠ 1 ∧ bits w 11 1 ≠ 1 := by
    simp only [bits] at hw ⊢
    omega
  rw [branches]
  cases c.condition with
  | positive => exact decide_eq_false hbits.1
  | zero => exact decide_eq_false hbits.2.1
  | negative => exact decide_eq_false hbits.2.2

end InstructionSet

/-! ## Histories -/

namespace Machine

open InstructionSet (settled step_settles execute_settles)

variable {κ : Type} [Console κ]

/-- The condition that the instructions of a trail come to one after the other. -/
inductive ComesTo : Condition → List (Machine κ) → Condition → Prop where
  | nil (d : Condition) : ComesTo d [] d
  | cons {d d' : Condition} {x x₁ x' : Machine κ} {w : Word} {trail : List (Machine κ)}
      (hfetch : Routine.fetch.run x = .ok (w, x₁)) (hstep : step x = .ok ((), x'))
      (hrest : ComesTo (settled d w x'.cpu) trail d') : ComesTo d (x :: trail) d'

/-- A trail comes to one condition only, since every step of it is determined. -/
theorem ComesTo.unique {d d₁ d₂ : Condition} {trail : List (Machine κ)}
    (h : ComesTo d trail d₁) (h' : ComesTo d trail d₂) : d₁ = d₂ := by
  induction h with
  | nil d =>
    cases h'
    rfl
  | cons hfetch hstep _ ih =>
    cases h' with
    | cons hfetch' hstep' hrest' =>
      cases hfetch.symm.trans hfetch'
      cases hstep.symm.trans hstep'
      exact ih hrest'

/-- The instructions of a trail settle the condition of the machine behind it. -/
theorem Executes.comesTo {m m' : Machine κ} {trail : List (Machine κ)}
    (h : Executes m trail m') : ComesTo m.cpu.condition trail m'.cpu.condition := by
  induction h with
  | nil m => exact .nil _
  | cons _ hstep _ ih =>
    obtain ⟨w, m₁, m₂, hfetch, -, -⟩ := Routine.step_inv hstep
    rw [step_settles hfetch hstep] at ih
    exact .cons hfetch hstep ih

/-- The condition after a run is the one that the instructions of its trail come to. -/
theorem run_comesTo {limit : BitVec 32} {budget : Nat} {m m' : Machine κ} {c : StopCode}
    (h : run limit budget m = .ok (c, m')) :
    ∃ trail after, Executes (m.stopWith .running) trail after ∧ m' = after.stopWith c ∧
      ComesTo m.cpu.condition trail m'.cpu.condition := by
  obtain ⟨trail, after, htrail, -, -, hend⟩ := run_trail h
  refine ⟨trail, after, htrail, hend.eq_stopWith, ?_⟩
  rw [hend.eq_stopWith]
  exact htrail.comesTo

/-- The machines that the calls of a processor lead to from power on, each with the condition that
the calls so far come to. The memory, the devices and everything outside of the machine are
arbitrary at every time. -/
inductive Operated : Condition → Machine κ → Prop where
  | new (memory : Memory) (host : Host κ) : Operated .zero (Machine.new memory host)
  | reset {d : Condition} {m : Machine κ} (h : Operated d m) :
    Operated .zero { m with cpu := m.cpu.reset }
  | deposit {d : Condition} {m : Machine κ} (h : Operated d m) (code : Nat) (v : Word) :
    Operated (if code = 9 then (Condition.ofNat? v.toNat).getD d else d)
      { m with cpu := m.cpu.deposit code v }
  | setPc {d : Condition} {m : Machine κ} (h : Operated d m) (a : Word) :
    Operated d { m with cpu := m.cpu.setPc a }
  | setCondition {d : Condition} {m : Machine κ} {bits : Byte} {cpu : Cpu} (h : Operated d m)
      (hset : m.cpu.setCondition bits = .ok cpu) :
    Operated ((Condition.ofNat? bits.toNat).getD d) { m with cpu }
  | execute {d : Condition} {m m' : Machine κ} {w : Word} {c : StopCode} (h : Operated d m)
      (hexecute : execute w m = .ok (c, m')) : Operated (settled d w m'.cpu) m'
  | run {d d' : Condition} {m m' after : Machine κ} {limit : BitVec 32} {budget : Nat}
      {c : StopCode} {trail : List (Machine κ)} (h : Operated d m)
      (hrun : run limit budget m = .ok (c, m'))
      (htrail : Executes (m.stopWith .running) trail after) (hend : m' = after.stopWith c)
      (hcomes : ComesTo d trail d') : Operated d' m'
  | elsewhere {d : Condition} {m m' : Machine κ} (h : Operated d m) (hcpu : m'.cpu = m.cpu) :
    Operated d m'

/-- The condition is the one the calls come to, by induction on the history. -/
theorem Operated.condition {d : Condition} {m : Machine κ} (h : Operated d m) :
    m.cpu.condition = d := by
  induction h with
  | new | reset => rfl
  | deposit _ code v ih => rw [← ih]; exact Cpu.deposit_condition _ code v
  | setPc _ a ih => exact ih
  | setCondition _ hset _ => rw [Cpu.setCondition_inv hset]; rfl
  | execute _ hexecute ih => rw [← ih]; exact execute_settles hexecute
  | run _ _ htrail hend hcomes ih =>
    rw [hend]
    rw [← ih] at hcomes
    exact htrail.comesTo.unique hcomes
  | elsewhere _ hcpu ih => rw [hcpu]; exact ih

end Machine

namespace InstructionSet

open Machine (Operated Executes ComesTo)

variable {κ : Type} [Console κ]

/-- On every machine the condition is one bit, and those who may set it can only exchange it for
another one. So a branch on all conditions is taken and a branch on none is not. After an
instruction the condition is the sign of its result, if it has one of the opcodes that set it, and
otherwise what it was before. After a run it is what the instructions of the run came to in turn,
and after any calls from power on it is what the calls came to. -/
theorem condition_right (m : Machine κ) :
    (m.cpu.inspect 9 = 1 ∨ m.cpu.inspect 9 = 2 ∨ m.cpu.inspect 9 = 4) ∧
      (∀ code v, (m.cpu.deposit code v).inspect 9 =
        if code = 9 ∧ (v = 1 ∨ v = 2 ∨ v = 4) then v else m.cpu.inspect 9) ∧
      (∀ w, bits w 12 4 = 0 → ∃ m', Machine.execute w m = .ok (.running, m') ∧
        (bits w 9 3 = 7 → m'.cpu.pc = nearby w m.cpu) ∧
        (bits w 9 3 = 0 → m'.cpu.pc = m.cpu.pc)) ∧
      (∀ w c m', Machine.execute w m = .ok (c, m') →
        m'.cpu.condition =
          if bits w 12 4 ∈ [1, 2, 5, 6, 9, 10, 14] then
            sign (m'.cpu.register (registerAt w 9)).toInt
          else m.cpu.condition) ∧
      (m.cpu.reset.inspect 9 = 2 ∧ ∀ a, (m.cpu.setPc a).inspect 9 = m.cpu.inspect 9) ∧
      (∀ bits, if bits = 1 ∨ bits = 2 ∨ bits = 4 then
          ∃ c, m.cpu.setCondition bits = .ok c ∧ c.inspect 9 = bits.setWidth 16
        else m.cpu.setCondition bits = .error (.condition bits)) ∧
      (∀ limit budget c m', Machine.run limit budget m = .ok (c, m') →
        ∃ trail after, Executes (m.stopWith .running) trail after ∧ m' = after.stopWith c ∧
          ComesTo m.cpu.condition trail m'.cpu.condition) ∧
      ∀ d, Operated d m → m.cpu.condition = d ∧
        (m.cpu.inspect 9 = 1 ∨ m.cpu.inspect 9 = 2 ∨ m.cpu.inspect 9 = 4) := by
  refine ⟨m.cpu.condition.bits_oneHot, m.cpu.inspect_deposit_condition, ?_, ?_, ⟨rfl, fun _ => rfl⟩,
    m.cpu.inspect_setCondition, ?_, ?_⟩
  · intro w hw
    obtain ⟨m', hrun, hpc⟩ := execute_branch hw m
    refine ⟨m', hrun, ?_, ?_⟩
    · intro hall
      rw [hpc, branches_of_all hall, if_pos rfl]
    · intro hnone
      rw [hpc, branches_of_none hnone, if_neg Bool.false_ne_true]
  · intro w c m' h
    exact execute_settles h
  · intro limit budget c m' h
    exact Machine.run_comesTo h
  · intro d h
    exact ⟨h.condition, m.cpu.condition.bits_oneHot⟩

/-- `LDI R1, #0` with the address of the keyboard status in front of it and `A` typed, which is the
only call since power on, and two branches, one on all conditions and one on none. -/
theorem condition_right_keyboard :
    (∃ m', Machine.execute 0xA200 (Machine.sample [0xFE00] [.key 0x41]) = .ok (.running, m') ∧
      m'.cpu.register 1 = 0x8000 ∧ m'.cpu.condition = .negative ∧ Operated .negative m') ∧
    (∃ m', Machine.execute 0x0E01 (Machine.sample [] []) = .ok (.running, m') ∧
      m'.cpu.pc = 0x3001) ∧
    ∃ m', Machine.execute 0x0001 (Machine.sample [] []) = .ok (.running, m') ∧
      m'.cpu.pc = 0x3000 := by
  let m := Machine.sample [0xFE00] [.key 0x41]
  have hrun := Machine.eq_ok_of_result (x := Machine.execute 0xA200 m) (a := .running) m
    (by decide +kernel)
  have hregister : (Machine.after (Machine.execute 0xA200 m) m).cpu.register 1 = 0x8000 := by
    decide +kernel
  have hcondition := (condition_right m).2.2.2.1 _ _ _ hrun
  rw [if_pos (by decide), show registerAt 0xA200 9 = 1 from rfl, hregister] at hcondition
  have hstart : Operated .zero m := (Operated.new Memory.full m.host).elsewhere rfl
  have hcalls := hstart.execute hrun
  rw [← ((condition_right _).2.2.2.2.2.2.2 _ hcalls).1, hcondition] at hcalls
  obtain ⟨m₁, hrun₁, htaken, -⟩ := (condition_right (Machine.sample [] [])).2.2.1 0x0E01 (by decide)
  obtain ⟨m₂, hrun₂, -, hkept⟩ := (condition_right (Machine.sample [] [])).2.2.1 0x0001 (by decide)
  exact ⟨⟨_, hrun, hregister, hcondition, hcalls⟩, ⟨m₁, hrun₁, htaken (by decide)⟩,
    ⟨m₂, hrun₂, hkept (by decide)⟩⟩

end InstructionSet

end LittleComputer
