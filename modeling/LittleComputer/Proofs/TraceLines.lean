import LittleComputer.Proofs.AssemblyLine
import LittleComputer.Proofs.LogLines
import LittleComputer.Routine
import Mathlib.Data.List.TakeWhile

/-!
# Lines of an instruction trace

The trace of an instruction is short and has no line end in it, so nothing of it is cut and it takes
one line of a log file. The lines of traces are told from all others by the severity that stands in
front of them (`Message.traces_lines`), and the address and the word are read back from their places
in the line.
-/

namespace LittleComputer

/-! ## Texts on one line -/

namespace Text

/-- At most `n` characters, without a zero byte or a newline among them. -/
structure Fits (n : Nat) (t : Text) : Prop where
  length : t.length ≤ n
  plain : ∀ b ∈ t, b ≠ 0 ∧ b ≠ Byte.newline

instance (n : Nat) (t : Text) : Decidable (Fits n t) :=
  decidable_of_iff (t.length ≤ n ∧ t.all (fun b => b != 0 && b != Byte.newline) = true)
    ⟨fun h => ⟨h.1, fun b hb => by simpa using List.all_eq_true.mp h.2 b hb⟩,
      fun h => ⟨h.length, List.all_eq_true.mpr fun b hb => by simpa using h.plain b hb⟩⟩

namespace Fits

variable {m n : Nat} {s t : Text}

theorem append (hs : Fits m s) (ht : Fits n t) : Fits (m + n) (s ++ t) where
  length := by
    rw [List.length_append]
    exact Nat.add_le_add hs.length ht.length
  plain b hb := (List.mem_append.mp hb).elim (hs.plain b) (ht.plain b)

theorem mono (ht : Fits m t) (hmn : m ≤ n) : Fits n t := ⟨Nat.le_trans ht.length hmn, ht.plain⟩

theorem formatted (ht : Fits Log.messageLimit t) : Log.formatted t = t :=
  Log.formatted_of_fits (fun hzero => (ht.plain 0 hzero).1 rfl) ht.length

theorem newline_notMem (ht : Fits n t) : Byte.newline ∉ t := fun h => (ht.plain _ h).2 rfl

end Fits

theorem splitOn_of_notMem {separator : Byte} {t : Text} (h : separator ∉ t) :
    t.splitOn separator = [t] :=
  List.splitOnP_eq_singleton fun _ hb => beq_false_of_ne fun heq => h (heq ▸ hb)

theorem fits_digits (ds : List (BitVec 4)) : Fits ds.length (ds.map upperDigit) := by
  refine ⟨Nat.le_of_eq (List.length_map _), fun b hb => ?_⟩
  have hall : ∀ d, upperDigit d ≠ 0 ∧ upperDigit d ≠ Byte.newline := by decide
  obtain ⟨d, -, rfl⟩ := List.mem_map.mp hb
  exact hall d

theorem fits_ofWord (w : Word) : Fits 4 (ofWord w) :=
  fits_digits [w.extractLsb' 12 4, w.extractLsb' 8 4, w.extractLsb' 4 4, w.extractLsb' 0 4]

theorem fits_ofByte (b : Byte) : Fits 2 (ofByte b) :=
  fits_digits [b.extractLsb' 4 4, b.extractLsb' 0 4]

theorem length_decimal_le {k n : Nat} (h : n < 10 ^ (k + 1)) : (decimal n).length ≤ k + 1 := by
  induction k generalizing n with
  | zero =>
    have hdigit : n < 10 := by simpa using h
    rw [decimal, if_pos hdigit]
    exact Nat.le_refl 1
  | succ k ih =>
    rw [decimal]
    split
    · exact Nat.succ_le_succ (Nat.zero_le _)
    · have hrest := ih (n := n / 10) (by omega)
      rw [List.length_append, List.length_singleton]
      exact Nat.succ_le_succ hrest

theorem fits_decimal {k n : Nat} (h : n < 10 ^ (k + 1)) : Fits (k + 1) (decimal n) where
  length := length_decimal_le h
  plain b hb := by
    constructor
    · rintro rfl
      exact notMem_decimal (by decide) n hb
    · rintro rfl
      exact notMem_decimal (by decide) n hb

end Text

open Text (Fits)

/-! ## Assembler text -/

theorem Argument.fits_text (a : Argument) : Fits 7 a.text := by
  cases a with
  | register r =>
    have hnumber : Fits 1 (Text.decimal r.toNat) := Text.fits_decimal (k := 0) (by omega)
    exact ((by decide : Fits 1 (Text.ofString "R")).append hnumber).mono (by decide)
  | number v =>
    have hsign : Fits 1 (Text.ofString "#") := by decide
    suffices hnumber : Fits 6 (Text.integer v.toInt) from hsign.append hnumber
    have hlow : -2 ^ 15 ≤ v.toInt := v.le_toInt
    have hhigh : v.toInt < 2 ^ 15 := v.toInt_lt
    cases hv : v.toInt with
    | ofNat n =>
      rw [hv, Int.ofNat_eq_natCast] at hhigh
      exact (Text.fits_decimal (k := 4) (by omega)).mono (by decide)
    | negSucc n =>
      rw [hv] at hlow
      have hminus : Fits 1 [Byte.minus] := by decide
      exact hminus.append (Text.fits_decimal (k := 4) (by omega))
  | address a =>
    exact ((by decide : Fits 2 (Text.ofString "0x")).append (Text.fits_ofWord a)).mono (by decide)
  | vector v =>
    exact ((by decide : Fits 1 (Text.ofString "x")).append (Text.fits_ofByte v)).mono (by decide)

theorem Heading.fits_name (h : Heading) : Fits 5 h.name := by
  have hall : ∀ h ∈ Heading.all, Fits 5 h.name := by decide +kernel
  exact hall h h.mem_all

theorem Line.fits_tail (l : Line) : Fits (8 * l.arguments.length) l.tail := by
  rw [tail]
  -- Every argument has one character in front: the first one a space, the others a comma.
  have harguments : ∀ (b : Byte) (a : Argument) (rest : List Argument), Fits 1 [b] →
      Fits (8 * (a :: rest).length)
        (b :: List.intercalate [Byte.comma] ((a :: rest).map Argument.text)) := by
    intro b a rest hb
    induction rest generalizing b a with
    | nil =>
      simp only [List.map_cons, List.map_nil, List.intercalate_singleton]
      exact hb.append a.fits_text
    | cons a' rest ih =>
      have hrest := ih Byte.comma a' (by decide)
      have hfirst := (hb.append a.fits_text).append hrest
      rw [List.map_cons, List.map_cons, List.intercalate_cons_cons]
      simp only [List.map_cons, List.cons_append, List.append_assoc] at hfirst ⊢
      exact hfirst.mono (by simp only [List.length_cons]; omega)
  split
  · exact ⟨Nat.zero_le _, List.forall_mem_nil _⟩
  · rename_i hne
    obtain ⟨a, rest, hl⟩ := List.exists_cons_of_ne_nil hne
    rw [hl]
    exact harguments Byte.space a rest (by decide)

theorem Instruction.length_arguments_le (i : Instruction) (address : Word) :
    (i.line address).arguments.length ≤ 3 := by
  cases i with
  | br | jmp | trap =>
    unfold line
    dsimp only
    split <;> simp
  | _ => simp [line]

/-- A disassembled instruction is one line of at most 29 bytes: a heading of five and three
arguments of eight. -/
theorem fits_disassemble (w address : Word) : Fits 29 (disassemble w address) := by
  have hcount := (Instruction.decode w).length_arguments_le address
  rw [disassemble, Instruction.text_line, Line.text]
  exact ((Heading.fits_name _).append (Line.fits_tail _)).mono (by omega)

/-! ## Traces -/

namespace Operation

/-- A trace therefore stays far below the limit on a message, and the limit never cuts one. -/
theorem fits_traceText (address w : Word) : Fits 40 (traceText address w) :=
  ((((Text.fits_ofWord address).append (by decide : Fits 2 (Text.ofString "/ "))).append
    (Text.fits_ofWord w)).append (by decide : Fits 1 (Text.ofString "\t"))).append
      (fits_disassemble w address)

theorem formatted_traceText (address w : Word) :
    Log.formatted (traceText address w) = traceText address w :=
  ((fits_traceText address w).mono (by decide)).formatted

/-- The address in a line of a trace. -/
def addressIn? (line : Text) : Option Word :=
  (Numeral.ofHexDigits? 0 (line.take 4)).map (BitVec.ofNat 16)

/-- The address a trace begins with can be read back from its four hexadecimal digits. -/
theorem addressIn?_traceText (address w : Word) :
    addressIn? (traceText address w) = some address := by
  show (Numeral.ofHexDigits? 0 (Text.ofWord address)).map _ = _
  rw [Numeral.ofHexDigits?_ofWord, Option.map_some, BitVec.ofNat_toNat, BitVec.setWidth_eq]

end Operation

namespace Message

/-- What a line calls its severity: everything between the first space and the first tab. -/
def label (line : Text) : Text :=
  ((line.dropWhile (· != Byte.space)).tail).takeWhile (· != Byte.tab)

theorem label_append (m : Message) (piece : Text) : label (m.stamp ++ piece) = m.severity.name := by
  have hspace : ∀ b ∈ m.moment.timeOfDay, (b != Byte.space) = true := by
    intro b hb
    refine bne_iff_ne.mpr fun h => ?_
    subst h
    exact Moment.notMem_timeOfDay (by decide) (by decide) _ hb
  have htab : ∀ b ∈ m.severity.name, (b != Byte.tab) = true := by
    have hall : ∀ s : Severity, s.name.all (· != Byte.tab) = true := by decide
    exact List.all_eq_true.mp (hall m.severity)
  have hstamp : m.stamp ++ piece =
      m.moment.timeOfDay ++ Byte.space :: (m.severity.name ++ Byte.tab :: piece) := by
    simp only [stamp, List.append_assoc]
    rfl
  rw [label, hstamp, List.dropWhile_append_of_pos hspace, List.dropWhile_cons_of_neg (by decide),
    List.tail_cons, List.takeWhile_append_of_pos htab, List.takeWhile_cons_of_neg (by decide),
    List.append_nil]

def isTrace (m : Message) : Bool := m.severity = .trace

/-- The lines of a text that show traces, without what stands in front. -/
def traces (t : Text) : List Text :=
  ((t.splitOn Byte.newline).dropLast.filter fun line => label line = Severity.trace.name).map
    unstamp

theorem name_eq_trace_iff (s : Severity) : s.name = Severity.trace.name ↔ s = .trace := by
  revert s
  decide

/-- Of the lines of some messages, the traces are the lines of those that are traces. -/
theorem traces_lines (messages : List Message) :
    traces (messages.flatMap lines) =
      (messages.filter isTrace).flatMap (·.text.splitOn Byte.newline) := by
  rw [traces, splitOn_lines]
  induction messages with
  | nil => rfl
  | cons m rest ih =>
    have hlabel : ∀ line ∈ m.stamped,
        (label line = Severity.trace.name) = (m.severity = .trace) := by
      intro line hline
      obtain ⟨piece, -, rfl⟩ := List.mem_map.mp hline
      rw [label_append, name_eq_trace_iff]
    have hunstamp : m.stamped.map unstamp = m.text.splitOn Byte.newline := by
      simp only [stamped, List.map_map, Function.comp_def, unstamp_append, List.map_id']
    rw [List.flatMap_cons, List.filter_append, List.map_append, ih]
    by_cases hm : m.severity = .trace
    · rw [List.filter_cons_of_pos (by simpa [isTrace] using hm), List.flatMap_cons,
        List.filter_eq_self.mpr fun line hline => by simpa [hlabel line hline] using hm, hunstamp]
    · rw [List.filter_cons_of_neg (by simpa [isTrace] using hm),
        List.filter_eq_nil_iff.mpr fun line hline => by simpa [hlabel line hline] using hm]
      rfl

end Message

end LittleComputer
