import LittleComputer.Instruction.Disassembly
import LittleComputer.Proofs.Numeral

/-!
# Lines of assembler text

The text of an instruction is a line: a heading, and arguments after a space and with commas in
between. A line can be read back from its text (`Line.read?_text`), and from a line and its address
the instruction can be assembled again (`Line.assemble_line`). Two things are lost on the way, the
offset of a branch that is never taken and the word of a return from an interrupt.
-/

namespace LittleComputer

/-- What stands behind the heading of a line. -/
inductive Argument where
  | register (r : RegisterNumber)
  | number (value : Word)
  | address (a : Word)
  | vector (v : Byte)
  deriving DecidableEq

/-- What a line begins with. -/
inductive Heading where
  | opcode (o : Opcode)
  | branch (conditions : BitVec 3)
  | jsrr
  | ret
  | data
  | service (s : Service)
  deriving DecidableEq

structure Line where
  heading : Heading
  arguments : List Argument

/-! ## Arguments -/

namespace Argument

def text : Argument → Text
  | register r => Instruction.registerText r
  | number value => Instruction.immediateText value
  | address a => Text.address a
  | vector v => "x" ++ Text.ofByte v

def ofOperand : Operand → Argument
  | .register r => register r
  | .immediate value => number value

def operand? : Argument → Option Operand
  | register r => some (.register r)
  | number value => some (.immediate value)
  | _ => none

theorem operand?_ofOperand (o : Operand) : (ofOperand o).operand? = some o := by
  cases o <;> rfl

theorem text_ofOperand (o : Operand) : (ofOperand o).text = Instruction.operandText o := by
  cases o <;> rfl

/-- Reads an argument. Its first byte tells its kind, and a numeral follows. -/
def read? : Text → Option Argument
  | 0x52 :: digits => (Numeral.decimal? digits).map fun n => register (BitVec.ofNat 3 n)
  | 0x23 :: digits => (Numeral.integer? digits).map fun x => number (BitVec.ofInt 16 x)
  | 0x30 :: 0x78 :: digits =>
    (Numeral.ofHexDigits? 0 digits).map fun n => address (BitVec.ofNat 16 n)
  | 0x78 :: digits => (Numeral.ofHexDigits? 0 digits).map fun n => vector (BitVec.ofNat 8 n)
  | _ => none

/-- An argument is read back from its text. -/
theorem read?_text (a : Argument) : read? a.text = some a := by
  cases a with
  | register r =>
    show (Numeral.decimal? (Text.decimal r.toNat)).map _ = _
    rw [Numeral.decimal?_decimal, Option.map_some, BitVec.ofNat_toNat, BitVec.setWidth_eq]
  | number v =>
    show (Numeral.integer? (Text.integer v.toInt)).map _ = _
    rw [Numeral.integer?_integer, Option.map_some, BitVec.ofInt_toInt]
  | address a =>
    show (Numeral.ofHexDigits? 0 (Text.ofWord a)).map _ = _
    rw [Numeral.ofHexDigits?_ofWord, Option.map_some, BitVec.ofNat_toNat, BitVec.setWidth_eq]
  | vector v =>
    show (Numeral.ofHexDigits? 0 (Text.ofByte v)).map _ = _
    rw [Numeral.ofHexDigits?_ofByte, Option.map_some, BitVec.ofNat_toNat, BitVec.setWidth_eq]

end Argument

/-! ## Headings -/

namespace Heading

/-- A branch on no condition is never taken, and has a name of its own. -/
def name : Heading → Text
  | opcode o => o.mnemonic
  | branch c => if c = 0 then "NOP" else "BR" ++ Instruction.conditionsText c
  | jsrr => "JSRR"
  | ret => "RET"
  | data => ".FILL"
  | service s => s.name

def all : List Heading :=
  Opcode.all.map opcode ++ (List.range 8).map (fun n => branch (BitVec.ofNat 3 n)) ++
    [jsrr, ret, data] ++
    [Service.readChar, .writeChar, .writeString, .promptChar, .writePacked, .halt].map service

theorem mem_all (h : Heading) : h ∈ all := by
  cases h with
  | opcode o => cases o <;> decide
  | branch c =>
    have hall : ∀ c, branch c ∈ all := by decide
    exact hall c
  | service s => cases s <;> decide
  | jsrr | ret | data => decide

/-- Reads a heading. No two of them have one name. -/
def read? (t : Text) : Option Heading := all.find? (·.name = t)

theorem read?_name (h : Heading) : read? h.name = some h := by
  have hall : ∀ h ∈ all, read? h.name = some h := by decide +kernel
  exact hall h h.mem_all

theorem space_notMem_name (h : Heading) : Byte.space ∉ h.name := by
  have hall : ∀ h ∈ all, Byte.space ∉ h.name := by decide +kernel
  exact hall h h.mem_all

end Heading

/-! ## Lines -/

def Byte.comma : Byte := 0x2C

theorem Argument.comma_notMem_text (a : Argument) : Byte.comma ∉ a.text := by
  have hdecimal : ∀ n, Byte.comma ∉ Text.decimal n := Text.notMem_decimal (by decide)
  have hdigits : ∀ ds : List (BitVec 4), Byte.comma ∉ ds.map Text.upperDigit := by
    have hall : ∀ d, Text.upperDigit d ≠ Byte.comma := by decide
    intro ds h
    obtain ⟨d, -, hd⟩ := List.mem_map.mp h
    exact hall d hd
  cases a with
  | register r => exact List.not_mem_cons_of_ne_of_not_mem (by decide) (hdecimal _)
  | number v =>
    refine List.not_mem_cons_of_ne_of_not_mem (by decide) ?_
    show Byte.comma ∉ Text.integer v.toInt
    cases v.toInt with
    | ofNat n => exact hdecimal n
    | negSucc n => exact List.not_mem_cons_of_ne_of_not_mem (by decide) (hdecimal (n + 1))
  | address a =>
    refine List.not_mem_cons_of_ne_of_not_mem (by decide) ?_
    exact List.not_mem_cons_of_ne_of_not_mem (by decide) (hdigits _)
  | vector v => exact List.not_mem_cons_of_ne_of_not_mem (by decide) (hdigits _)

namespace Line

/-- What follows the heading. -/
def tail (l : Line) : Text :=
  if l.arguments = [] then []
  else Byte.space :: List.intercalate [Byte.comma] (l.arguments.map Argument.text)

def text (l : Line) : Text := l.heading.name ++ l.tail

theorem text_bare (h : Heading) : (⟨h, []⟩ : Line).text = h.name := List.append_nil h.name

theorem text_statement (h : Heading) (a : Argument) (more : List Argument) :
    (⟨h, a :: more⟩ : Line).text =
      Instruction.statement h.name ((a :: more).map Argument.text) := by
  rw [text, tail, if_neg (List.cons_ne_nil a more), Instruction.statement, List.append_assoc]
  rfl

/-- Reads what follows the heading. -/
def readTail? : Text → Option (List Argument)
  | [] => some []
  | _ :: rest => (rest.splitOn Byte.comma).mapM Argument.read?

theorem readTail?_tail (l : Line) : readTail? l.tail = some l.arguments := by
  have hread : ∀ as : List Argument, (as.map Argument.text).mapM Argument.read? = some as := by
    intro as
    induction as with
    | nil => rfl
    | cons a rest ih =>
      rw [List.map_cons, List.mapM_cons, Argument.read?_text, ih]
      rfl
  rw [tail]
  split
  · rename_i hnone
    rw [hnone]
    rfl
  · rename_i hne
    rw [readTail?, List.splitOn_intercalate Byte.comma ?_ fun h => hne (List.map_eq_nil_iff.mp h)]
    · exact hread l.arguments
    · intro t ht
      obtain ⟨a, -, rfl⟩ := List.mem_map.mp ht
      exact a.comma_notMem_text

/-- The heading ends at the first space. -/
theorem span_text (l : Line) :
    l.text.takeWhile (· != Byte.space) = l.heading.name ∧
      l.text.dropWhile (· != Byte.space) = l.tail := by
  have hname : ∀ b ∈ l.heading.name, (b != Byte.space) = true := by
    intro b hb
    exact bne_iff_ne.mpr fun h => l.heading.space_notMem_name (h ▸ hb)
  have htail : l.tail.takeWhile (· != Byte.space) = [] ∧
      l.tail.dropWhile (· != Byte.space) = l.tail := by
    unfold tail
    split
    · exact ⟨rfl, rfl⟩
    · exact ⟨List.takeWhile_cons_of_neg (by decide), List.dropWhile_cons_of_neg (by decide)⟩
  rw [text, List.takeWhile_append_of_pos hname, List.dropWhile_append_of_pos hname, htail.1,
    htail.2, List.append_nil]
  exact ⟨rfl, rfl⟩

/-- Reads a line. -/
def read? (t : Text) : Option Line := do
  let heading ← Heading.read? (t.takeWhile (· != Byte.space))
  let arguments ← readTail? (t.dropWhile (· != Byte.space))
  return ⟨heading, arguments⟩

/-- A line can be read back from its text. -/
theorem read?_text (l : Line) : read? l.text = some l := by
  rw [read?, l.span_text.1, l.span_text.2, Heading.read?_name, readTail?_tail]
  rfl

end Line

/-! ## Instructions as lines -/

namespace Instruction

/-- The line that shows the instruction at an address. -/
def line (address : Word) : Instruction → Line
  | br c offset => ⟨.branch c, if c = 0 then [] else [.address (address + 1 + offset)]⟩
  | add d r o => ⟨.opcode .add, [.register d, .register r, .ofOperand o]⟩
  | and d r o => ⟨.opcode .and, [.register d, .register r, .ofOperand o]⟩
  | not d r => ⟨.opcode .not, [.register d, .register r]⟩
  | ld r offset => ⟨.opcode .ld, [.register r, .address (address + 1 + offset)]⟩
  | ldi r offset => ⟨.opcode .ldi, [.register r, .address (address + 1 + offset)]⟩
  | lea r offset => ⟨.opcode .lea, [.register r, .address (address + 1 + offset)]⟩
  | st r offset => ⟨.opcode .st, [.register r, .address (address + 1 + offset)]⟩
  | sti r offset => ⟨.opcode .sti, [.register r, .address (address + 1 + offset)]⟩
  | ldr r base offset => ⟨.opcode .ldr, [.register r, .register base, .number offset]⟩
  | str r base offset => ⟨.opcode .str, [.register r, .register base, .number offset]⟩
  | jmp base => if base = 7 then ⟨.ret, []⟩ else ⟨.opcode .jmp, [.register base]⟩
  | jsr offset => ⟨.opcode .jsr, [.address (address + 1 + offset)]⟩
  | jsrr base => ⟨.jsrr, [.register base]⟩
  | trap v =>
    match Service.ofVector? v with
    | some s => ⟨.service s, []⟩
    | none => ⟨.opcode .trap, [.vector v]⟩
  | rti _ => ⟨.opcode .rti, []⟩
  | res w => ⟨.data, [.address w]⟩

/-- The text of an instruction is the text of its line. -/
theorem text_line (i : Instruction) (address : Word) : i.text address = (i.line address).text := by
  cases i with
  | br c offset =>
    rw [text, line]
    split
    · rename_i hc
      rw [Line.text_bare, Heading.name, if_pos hc]
    · rename_i hc
      rw [Line.text_statement, Heading.name, if_neg hc]
      rfl
  | jmp base =>
    rw [text, line]
    split
    · rw [Line.text_bare]
      rfl
    · rw [Line.text_statement]
      rfl
  | trap v =>
    rw [text, line]
    cases Service.ofVector? v with
    | some s => exact (Line.text_bare (.service s)).symm
    | none => exact (Line.text_statement (.opcode .trap) (.vector v) []).symm
  | rti w => exact (Line.text_bare (.opcode .rti)).symm
  | add d r o | and d r o =>
    rw [text, line, Line.text_statement, ← Argument.text_ofOperand]
    rfl
  | _ =>
    rw [line, Line.text_statement]
    rfl

/-- The instruction as far as its text shows it. -/
def shown : Instruction → Instruction
  | br c offset => if c = 0 then br 0 0 else br c offset
  | rti _ => rti 0
  | i => i

end Instruction

theorem Service.vector_of_ofVector? {v : Byte} {s : Service} (h : ofVector? v = some s) :
    s.vector = v := by
  unfold ofVector? at h
  split at h <;> cases h <;> rfl

namespace Line

/-- The instruction that the line at an address shows. -/
def assemble (address : Word) : Line → Option Instruction
  | ⟨.branch _, []⟩ => some (.br 0 0)
  | ⟨.branch c, [.address a]⟩ => some (.br c (a - (address + 1)))
  | ⟨.opcode .add, [.register d, .register r, o]⟩ => o.operand?.map (.add d r)
  | ⟨.opcode .and, [.register d, .register r, o]⟩ => o.operand?.map (.and d r)
  | ⟨.opcode .not, [.register d, .register r]⟩ => some (.not d r)
  | ⟨.opcode .ld, [.register r, .address a]⟩ => some (.ld r (a - (address + 1)))
  | ⟨.opcode .ldi, [.register r, .address a]⟩ => some (.ldi r (a - (address + 1)))
  | ⟨.opcode .lea, [.register r, .address a]⟩ => some (.lea r (a - (address + 1)))
  | ⟨.opcode .st, [.register r, .address a]⟩ => some (.st r (a - (address + 1)))
  | ⟨.opcode .sti, [.register r, .address a]⟩ => some (.sti r (a - (address + 1)))
  | ⟨.opcode .ldr, [.register r, .register base, .number offset]⟩ => some (.ldr r base offset)
  | ⟨.opcode .str, [.register r, .register base, .number offset]⟩ => some (.str r base offset)
  | ⟨.opcode .jmp, [.register base]⟩ => some (.jmp base)
  | ⟨.ret, []⟩ => some (.jmp 7)
  | ⟨.opcode .jsr, [.address a]⟩ => some (.jsr (a - (address + 1)))
  | ⟨.jsrr, [.register base]⟩ => some (.jsrr base)
  | ⟨.service s, []⟩ => some (.trap s.vector)
  | ⟨.opcode .trap, [.vector v]⟩ => some (.trap v)
  | ⟨.opcode .rti, []⟩ => some (.rti 0)
  | ⟨.data, [.address w]⟩ => some (.res w)
  | _ => none

/-- Assembling the line of an instruction gives the instruction that the line shows. -/
theorem assemble_line (i : Instruction) (address : Word) :
    (i.line address).assemble address = some i.shown := by
  have hoffset : ∀ offset : Word, address + 1 + offset - (address + 1) = offset :=
    fun offset => by rw [BitVec.add_comm, BitVec.add_sub_cancel]
  cases i with
  | br c offset =>
    rw [Instruction.line, Instruction.shown]
    split
    · rfl
    · rw [assemble, hoffset]
  | jmp base =>
    rw [Instruction.line]
    split
    · rename_i hbase
      rw [hbase]
      rfl
    · rfl
  | trap v =>
    rw [Instruction.line]
    cases hv : Service.ofVector? v with
    | some s =>
      rw [← Service.vector_of_ofVector? hv]
      rfl
    | none => rfl
  | add d r o | and d r o =>
    rw [Instruction.line, assemble, Argument.operand?_ofOperand]
    rfl
  | ld | ldi | lea | st | sti | jsr =>
    rw [Instruction.line, assemble, hoffset]
    rfl
  | _ => rfl

end Line

/-- Instructions with one text at one address are the same as far as it shows them. -/
theorem Instruction.shown_eq_of_text {i j : Instruction} {address : Word}
    (h : i.text address = j.text address) : i.shown = j.shown := by
  rw [text_line, text_line] at h
  have hline : i.line address = j.line address := by
    apply Option.some.inj
    rw [← Line.read?_text, h, Line.read?_text]
  apply Option.some.inj
  rw [← Line.assemble_line i address, ← Line.assemble_line j address, hline]

end LittleComputer
