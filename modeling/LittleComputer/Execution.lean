import LittleComputer.Routine

/-!
# Execution

What each instruction does, one step of a run, and whole runs. An instruction is executed with the
program counter already behind it, so offsets count from there.

`Routine.perform` is what an instruction does, `Machine.execute` executes one instruction,
`Machine.step` fetches one first, and `Machine.run` steps until something stops it. The services
that traps call are carried out here and not by a program in memory, but they reach the keyboard
and the display through memory like any program.
-/

namespace LittleComputer

namespace Routine

/-! ## Services -/

def prompt : Text := "Enter a character: "

/-- Reads a character from the keyboard. There is none if the input has ended, which stops the
machine, or if the machine was stopped while waiting. -/
def readChar : Routine (Option Byte) := do
  let w ← load Terminal.keyboardData
  if w = Word.allOnes then
    let c ← look
    if c.stop = .running then
      warn ("end of file on console input at " ++ Text.address c.lastPc)
      change (·.breakWith .endOfInput)
    return none
  else return some (Word.lowByte w)

def writeChar (b : Byte) : Routine Unit := store Terminal.displayData (Word.ofByte b)

def writeChars : List Byte → Routine Unit
  | [] => return ()
  | b :: rest => do
    writeChar b
    writeChars rest

/-- The character in a word of an ordinary string. -/
def plainChars (w : Word) : List Byte := [Word.lowByte w]

/-- The characters in a word of a packed string: the low byte, and the high byte unless it is
zero. -/
def packedChars (w : Word) : List Byte :=
  if Word.highByte w = 0 then [Word.lowByte w] else [Word.lowByte w, Word.highByte w]

/-- Writes the string at an address, up to a zero word or for `n` words. -/
def writeString (chars : Word → List Byte) : Nat → Word → Routine Unit
  | 0, _ => return ()
  | n + 1, a => do
    let w ← load a
    if w = 0 then return ()
    else
      writeChars (chars w)
      writeString chars n (a + 1)

/-- No string is longer than the address space. -/
def longestString : Nat := 65536

def serve : Service → Routine Unit
  | .readChar => do
    match ← readChar with
    | some b => change (·.setRegister 0 (Word.ofByte b))
    | none => return ()
  | .writeChar => do writeChar (Word.lowByte ((← look).register 0))
  | .writeString => do writeString plainChars longestString ((← look).register 0)
  | .promptChar => do
    writeChars prompt
    match ← readChar with
    | some b =>
      writeChar b
      change (·.setRegister 0 (Word.ofByte b))
    | none => return ()
  | .writePacked => do writeString packedChars longestString ((← look).register 0)
  | .halt => change (·.breakWith .halt)

/-! ## Instructions -/

/-- An instruction without a meaning: a warning and a stop, or nothing at all if the machine goes on
after illegal instructions. -/
def illegal (what : Text) : Routine Unit := do
  let c ← look
  if c.stopOnIllegal then warn (what ++ " at " ++ Text.address c.lastPc)
  change (·.illegal)

/-- Executes an instruction. The program counter is already behind it. -/
def perform (i : Instruction) : Routine Unit := do
  let c ← look
  match i with
  | .add d r o => change (·.setResult d (c.register r + c.operand o))
  | .and d r o => change (·.setResult d (c.register r &&& c.operand o))
  | .not d r => change (·.setResult d (~~~c.register r))
  | .br conditions offset =>
    if Word.meets conditions c.condition.bits then
      change fun c => { c with pc := c.pc + offset }
  | .jmp base => change fun c => { c with pc := c.register base }
  | .jsr offset => change fun c => { c.setRegister 7 c.pc with pc := c.pc + offset }
  | .jsrr base => change fun c => { c.setRegister 7 c.pc with pc := c.register base }
  | .ld d offset =>
    let w ← load (c.pc + offset)
    change (·.setResult d w)
  | .ldi d offset =>
    let a ← load (c.pc + offset)
    let w ← load a
    change (·.setResult d w)
  | .ldr d base offset =>
    let w ← load (c.register base + offset)
    change (·.setResult d w)
  | .lea d offset => change (·.setResult d (c.pc + offset))
  | .st r offset => store (c.pc + offset) (c.register r)
  | .sti r offset =>
    let a ← load (c.pc + offset)
    store a (c.register r)
  | .str r base offset => store (c.register base + offset) (c.register r)
  | .trap vector =>
    change (·.setRegister 7 c.pc)
    match Service.ofVector? vector with
    | some service => serve service
    | none => illegal ("unknown trap vector 0x" ++ Text.ofByte vector)
  | .rti w | .res w => illegal ("illegal opcode " ++ Text.address w)

/-- Executes the instruction in a word. The program counter is already behind it. Breakpoints are
not looked at and the instruction is not counted. -/
def execute (w : Word) : Routine StopCode := do
  change fun c => { c with stop := .running, lastPc := c.pc - 1 }
  perform (Instruction.decode w)
  return (← look).stop

/-- Fetches the word of the next instruction, traces it, and moves the program counter behind it. -/
def fetch : Routine Word := do
  let pc := (← look).pc
  change fun c => { c with lastPc := pc }
  let w ← load pc
  trace pc w
  change fun c => { c with pc := c.pc + 1 }
  return w

def step : Routine Unit := do
  let w ← fetch
  perform (Instruction.decode w)
  change fun c => { c with executed := c.executed + 1 }

end Routine

/-! ## Runs -/

namespace Machine

variable {κ : Type} [Console κ]

def execute (w : Word) : Action κ StopCode := (Routine.execute w).run

def step : Action κ Unit := Routine.step.run

/-- Steps at most `n` times, until something stops the machine. A breakpoint stops it before the
instruction there, except before the `first` instruction. There is no result if nothing stopped the
machine. -/
def steps : Nat → (first : Bool) → Action κ (Option StopCode)
  | 0, _ => return none
  | n + 1, first => do
    let pc := (← get).cpu.pc
    let stopHere ← if first then pure false else askMemory (·.isBreak pc)
    if stopHere then
      modifyCpu (·.breakWith .breakpoint)
      return some .breakpoint
    else
      step
      let stop := (← get).cpu.stop
      if stop = .running then steps n false else return some stop

/-- Runs until something stops the machine or, if `limit` is not zero, until that many instructions
were executed. A run without a limit is given a number of steps after which it counts as endless. -/
def run (limit : BitVec 32) (budget : Nat) : Action κ StopCode := do
  modifyCpu (·.breakWith .running)
  if limit = 0 then
    match ← steps budget true with
    | some stop => return stop
    | none => throw .outOfSteps
  else
    match ← steps limit.toNat true with
    | some stop => return stop
    | none =>
      modifyCpu (·.breakWith .finished)
      return .finished

end Machine

end LittleComputer
