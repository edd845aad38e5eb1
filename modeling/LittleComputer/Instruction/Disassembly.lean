import LittleComputer.Instruction

/-!
# Disassembly

The assembler text of an instruction. Addresses are shown as addresses and not as offsets, which
count from the location after the instruction; immediate numbers are shown in decimal after a
number sign.
-/

namespace LittleComputer.Instruction

def registerText (r : RegisterNumber) : Text := "R" ++ Text.decimal r.toNat

def immediateText (value : Word) : Text := "#" ++ Text.integer value.toInt

/-- The location that an offset in the instruction at `address` refers to. -/
def relativeText (address offset : Word) : Text := Text.address (address + 1 + offset)

/-- The letters of the conditions of a branch. -/
def conditionsText (conditions : BitVec 3) : Text :=
  (if conditions.getLsbD 2 then Text.ofString "N" else []) ++
    (if conditions.getLsbD 1 then Text.ofString "Z" else []) ++
    (if conditions.getLsbD 0 then Text.ofString "P" else [])

def operandText : Operand → Text
  | .register r => registerText r
  | .immediate value => immediateText value

/-- A mnemonic and its operands, which are separated by commas. -/
def statement (mnemonic : Text) (operands : List Text) : Text :=
  mnemonic ++ " " ++ List.intercalate "," operands

/-- The assembler text of the instruction at an address. Common special cases have names of their
own, and the opcode without a meaning is shown as a data word. -/
def text (i : Instruction) (address : Word) : Text :=
  match i with
  | br conditions offset =>
    if conditions = 0 then "NOP"
    else statement (i.opcode.mnemonic ++ conditionsText conditions) [relativeText address offset]
  | add destination first second | .and destination first second =>
    statement i.opcode.mnemonic [registerText destination, registerText first, operandText second]
  | .not destination source =>
    statement i.opcode.mnemonic [registerText destination, registerText source]
  | ld register offset | ldi register offset | lea register offset
  | st register offset | sti register offset =>
    statement i.opcode.mnemonic [registerText register, relativeText address offset]
  | ldr register base offset | str register base offset =>
    statement i.opcode.mnemonic [registerText register, registerText base, immediateText offset]
  | jmp base => if base = 7 then "RET" else statement i.opcode.mnemonic [registerText base]
  | jsr offset => statement i.opcode.mnemonic [relativeText address offset]
  | jsrr base => statement "JSRR" [registerText base]
  | trap vector =>
    match Service.ofVector? vector with
    | some service => service.name
    | none => statement i.opcode.mnemonic ["x" ++ Text.ofByte vector]
  | rti _ => i.opcode.mnemonic
  | res word => statement ".FILL" [Text.address word]

end LittleComputer.Instruction

namespace LittleComputer

def disassemble (word address : Word) : Text := (Instruction.decode word).text address

/-- The assembler texts of consecutive words, the first of them at `address`. -/
def disassembleAll (address : Word) : List Word → List Text
  | [] => []
  | word :: rest => disassemble word address :: disassembleAll (address + 1) rest

end LittleComputer
