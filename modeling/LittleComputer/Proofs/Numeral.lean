import LittleComputer.CommandLine
import Mathlib.Algebra.Group.Nat.Defs
import Mathlib.Data.List.TakeWhile

/-!
# Numerals

Numerals are read back digit by digit. The integers among them begin with a minus sign if they are
negative, and the hexadecimal ones of bytes and words have one digit for every four bits. Which
texts count as numbers of 64 bits, and as which, is said by `Numeral.Reads64`.
-/

namespace LittleComputer

/-! ## Decimal numerals -/

namespace Numeral

theorem digit?_decimalDigit {d : Nat} (hd : d < 10) : digit? (Text.decimalDigit d) = some d := by
  have hall : ∀ d < 10, digit? (Text.decimalDigit d) = some d := by decide
  exact hall d hd

/-- Reading digits goes on from the number read so far, so a text can be read in two pieces. -/
theorem ofDigits?_append (n : Nat) (digits more : Text) :
    ofDigits? n (digits ++ more) = (ofDigits? n digits).bind (ofDigits? · more) := by
  induction digits generalizing n with
  | nil => rfl
  | cons b rest ih =>
    rw [List.cons_append, ofDigits?, ofDigits?]
    cases digit? b with
    | none => rfl
    | some d => exact ih (10 * n + d)

theorem ofDigits?_decimal (n : Nat) : ofDigits? 0 (Text.decimal n) = some n := by
  induction n using Nat.strongRecOn with
  | ind n ih =>
    rw [Text.decimal]
    split
    · rename_i hn
      rw [ofDigits?, digit?_decimalDigit hn]
      exact congrArg some (by omega)
    · have hlast : n % 10 < 10 := Nat.mod_lt _ (by decide)
      rw [ofDigits?_append, ih (n / 10) (by omega), Option.bind_some, ofDigits?,
        digit?_decimalDigit hlast]
      exact congrArg some (Nat.div_add_mod n 10)

end Numeral

namespace Text

theorem decimal_ne_nil (n : Nat) : decimal n ≠ [] := by
  rw [decimal]
  split
  · exact List.cons_ne_nil _ _
  · exact List.append_ne_nil_of_right_ne_nil _ (List.cons_ne_nil _ _)

theorem notMem_decimal {b : Byte} (hb : ∀ d < 10, b ≠ decimalDigit d) (n : Nat) :
    b ∉ decimal n := by
  induction n using Nat.strongRecOn with
  | ind n ih =>
    rw [decimal]
    split
    · rename_i hn
      exact fun h => hb n hn (List.mem_singleton.mp h)
    · intro h
      rcases List.mem_append.mp h with h | h
      · exact ih (n / 10) (by omega) h
      · exact hb (n % 10) (Nat.mod_lt _ (by decide)) (List.mem_singleton.mp h)

end Text

namespace Numeral

theorem decimal?_decimal (n : Nat) : decimal? (Text.decimal n) = some n := by
  rw [decimal?, if_neg (Text.decimal_ne_nil n), ofDigits?_decimal]

/-! ## Digits and their value -/

/-- The decimal digits. -/
def IsDigit (b : Byte) : Prop := 0x30 ≤ b ∧ b ≤ 0x39

instance (b : Byte) : Decidable (IsDigit b) := inferInstanceAs (Decidable (_ ∧ _))

/-- The number that decimal digits stand for, after digits that stand for `n`. -/
def valueFrom (n : Nat) (digits : Text) : Nat :=
  digits.foldl (fun n b => 10 * n + (b.toNat - 0x30)) n

theorem digit?_eq_some_iff {b : Byte} {d : Nat} :
    digit? b = some d ↔ IsDigit b ∧ d = b.toNat - 0x30 := by
  have hdigit : (Byte.zeroDigit ≤ b && b ≤ Byte.zeroDigit + 9) = true ↔ IsDigit b := by
    rw [Bool.and_eq_true, decide_eq_true_iff, decide_eq_true_iff]
    rfl
  rw [digit?]
  split
  · rename_i h
    rw [Option.some.injEq, eq_comm]
    exact (and_iff_right (hdigit.mp h)).symm
  · rename_i h
    exact ⟨nofun, fun hd => absurd (hdigit.mpr hd.1) h⟩

/-- Digits read as a number exactly when each is a digit, and the number is their value. -/
theorem ofDigits?_eq_some_iff {digits : Text} {n k : Nat} :
    ofDigits? n digits = some k ↔ (∀ b ∈ digits, IsDigit b) ∧ k = valueFrom n digits := by
  induction digits generalizing n with
  | nil =>
    rw [ofDigits?, Option.some.injEq, eq_comm]
    exact (and_iff_right nofun).symm
  | cons b rest ih =>
    rw [ofDigits?, List.forall_mem_cons, and_assoc]
    cases hd : digit? b with
    | none =>
      refine ⟨nofun, fun h => ?_⟩
      rw [digit?_eq_some_iff.mpr ⟨h.1, rfl⟩] at hd
      cases hd
    | some d =>
      obtain ⟨hb, rfl⟩ := digit?_eq_some_iff.mp hd
      exact ih.trans (and_iff_right hb).symm

theorem decimal?_eq_some_iff {digits : Text} {n : Nat} :
    decimal? digits = some n ↔
      digits ≠ [] ∧ (∀ b ∈ digits, IsDigit b) ∧ n = valueFrom 0 digits := by
  rw [decimal?]
  split
  · rename_i hnone
    exact ⟨nofun, fun h => absurd hnone h.1⟩
  · rename_i hsome
    exact ofDigits?_eq_some_iff.trans (and_iff_right hsome).symm

/-! ## Numbers of 64 bits -/

/-- The whole text is read as a number of 64 bits: blanks, perhaps a sign, and at least one digit.
A number that is too large counts as the largest one, and a minus sign negates a number that is
not. -/
inductive Reads64 : Text → BitVec 64 → Prop where
  | intro {blanks sign digits : Text} (hblanks : ∀ b ∈ blanks, b = 0x20 ∨ 9 ≤ b ∧ b ≤ 13)
    (hsign : sign = [] ∨ sign = [Byte.plus] ∨ sign = [Byte.minus]) (hne : digits ≠ [])
    (hdigits : ∀ b ∈ digits, IsDigit b) :
    Reads64 (blanks ++ sign ++ digits)
      (if 2 ^ 64 ≤ valueFrom 0 digits then BitVec.allOnes 64
        else if sign = [Byte.minus] then -BitVec.ofNat 64 (valueFrom 0 digits)
        else BitVec.ofNat 64 (valueFrom 0 digits))

theorem isBlank_iff {b : Byte} : isBlank b = true ↔ b = 0x20 ∨ 9 ≤ b ∧ b ≤ 13 := by
  rw [isBlank, Bool.or_eq_true, Bool.and_eq_true, beq_iff_eq, decide_eq_true_iff,
    decide_eq_true_iff]
  rfl

/-- A text without blanks in front is divided after its sign, if it has one. -/
theorem sign_append {sign digits : Text}
    (hsign : sign = [] ∨ sign = [Byte.plus] ∨ sign = [Byte.minus]) (hne : digits ≠ [])
    (hdigits : ∀ b ∈ digits, IsDigit b) :
    (sign ++ digits).dropWhile isBlank = sign ++ digits ∧
      ((sign ++ digits).head? = some Byte.minus ↔ sign = [Byte.minus]) ∧
      (if (sign ++ digits).head? == some Byte.minus || (sign ++ digits).head? == some Byte.plus then
        (sign ++ digits).tail else sign ++ digits) = digits := by
  rcases hsign with rfl | rfl | rfl
  · obtain ⟨b, rest, rfl⟩ := List.exists_cons_of_ne_nil hne
    have hb := hdigits b List.mem_cons_self
    have hdigit : ∀ b, IsDigit b → isBlank b = false ∧ b ≠ Byte.minus ∧ b ≠ Byte.plus := by decide
    obtain ⟨hblank, hminus, hplus⟩ := hdigit b hb
    refine ⟨List.dropWhile_cons_of_neg (by rw [hblank]; decide), ?_, ?_⟩
    · simp [hminus]
    · simp [hminus, hplus]
  · exact ⟨rfl, by simp [Byte.plus, Byte.minus], rfl⟩
  · exact ⟨rfl, by simp, rfl⟩

/-- What is left of a text behind its blanks is a sign, or nothing, and then the rest. -/
theorem exists_sign (t : Text) :
    ∃ sign, (sign = [] ∨ sign = [Byte.plus] ∨ sign = [Byte.minus]) ∧
      t = sign ++ (if t.head? == some Byte.minus || t.head? == some Byte.plus then t.tail else t) ∧
      (t.head? = some Byte.minus ↔ sign = [Byte.minus]) := by
  cases t with
  | nil => exact ⟨[], .inl rfl, rfl, by simp⟩
  | cons b rest =>
    by_cases hminus : b = Byte.minus
    · subst hminus
      exact ⟨[Byte.minus], .inr (.inr rfl), rfl, by simp⟩
    · by_cases hplus : b = Byte.plus
      · subst hplus
        exact ⟨[Byte.plus], .inr (.inl rfl), rfl, by simp [hminus]⟩
      · exact ⟨[], .inl rfl, by simp [hminus, hplus], by simp [hminus]⟩

/-- The reader accepts exactly the texts with blanks, a sign and digits, and wraps as `Reads64`
says. -/
theorem read64?_eq_some_iff {t : Text} {v : BitVec 64} : read64? t = some v ↔ Reads64 t v := by
  have hvalue (n : Nat) (negative : Prop) [Decidable negative] (isNegative : Bool)
      (hsame : isNegative = true ↔ negative) :
      (if largest < n then BitVec.ofNat 64 largest
        else if isNegative then -BitVec.ofNat 64 n else BitVec.ofNat 64 n) =
      if 2 ^ 64 ≤ n then BitVec.allOnes 64
        else if negative then -BitVec.ofNat 64 n else BitVec.ofNat 64 n := by
    have hlarge : largest < n ↔ 2 ^ 64 ≤ n := by
      rw [largest]
      omega
    simp only [hlarge, hsame]
    rfl
  constructor
  · intro h
    obtain ⟨n, hn, hv⟩ := Option.map_eq_some_iff.mp h
    obtain ⟨hne, hdigits, rfl⟩ := decimal?_eq_some_iff.mp hn
    obtain ⟨sign, hsign, hrest, hnegative⟩ := exists_sign (t.dropWhile isBlank)
    rw [hvalue _ (sign = [Byte.minus]) _ (beq_iff_eq.trans hnegative)] at hv
    rw [← hv]
    have hblanks : ∀ b ∈ t.takeWhile isBlank, b = 0x20 ∨ 9 ≤ b ∧ b ≤ 13 := fun b hb =>
      isBlank_iff.mp (List.mem_takeWhile_imp hb)
    have hread := Reads64.intro hblanks hsign hne hdigits
    rw [List.append_assoc, ← hrest, List.takeWhile_append_dropWhile] at hread
    exact hread
  · rintro ⟨hblanks, hsign, hne, hdigits⟩
    rename_i blanks sign digits
    obtain ⟨hdrop, hnegative, hrest⟩ := sign_append hsign hne hdigits
    have hbehind : (blanks ++ sign ++ digits).dropWhile isBlank = sign ++ digits := by
      rw [List.append_assoc,
        List.dropWhile_append_of_pos fun b hb => isBlank_iff.mpr (hblanks b hb), hdrop]
    rw [read64?, hbehind, hrest, decimal?_eq_some_iff.mpr ⟨hne, hdigits, rfl⟩, Option.map_some,
      hvalue _ (sign = [Byte.minus]) _ (beq_iff_eq.trans hnegative)]

/-! ## Integers -/

/-- The integer that decimal digits stand for, with or without a minus sign in front. -/
def integer? (t : Text) : Option Int :=
  if t.head? = some Byte.minus then (decimal? t.tail).map Int.negOfNat
  else (decimal? t).map Int.ofNat

theorem integer?_integer (x : Int) : integer? (Text.integer x) = some x := by
  cases x with
  | ofNat n =>
    have hdigits : (Text.decimal n).head? ≠ some Byte.minus := fun h =>
      Text.notMem_decimal (by decide) n (List.mem_of_mem_head? h)
    rw [Text.integer, integer?, if_neg hdigits, decimal?_decimal]
    rfl
  | negSucc n =>
    rw [Text.integer, integer?, if_pos List.head?_cons, List.tail_cons, decimal?_decimal]
    rfl

/-! ## Hexadecimal numerals -/

/-- The value of a hexadecimal digit, with the letters in upper case. -/
def hexDigit? (b : Byte) : Option Nat :=
  if 0x30 ≤ b && b ≤ 0x39 then some (b.toNat - 0x30)
  else if 0x41 ≤ b && b ≤ 0x46 then some (b.toNat - 0x41 + 10)
  else none

/-- The number that hexadecimal digits stand for, after digits that stand for `n`. -/
def ofHexDigits? (n : Nat) : Text → Option Nat
  | [] => some n
  | b :: rest => (hexDigit? b).bind fun d => ofHexDigits? (16 * n + d) rest

theorem hexDigit?_upperDigit (d : BitVec 4) : hexDigit? (Text.upperDigit d) = some d.toNat := by
  revert d
  decide

theorem ofHexDigits?_digits (n : Nat) (digits : List (BitVec 4)) :
    ofHexDigits? n (digits.map Text.upperDigit) =
      some (digits.foldl (fun n d => 16 * n + d.toNat) n) := by
  induction digits generalizing n with
  | nil => rfl
  | cons d rest ih =>
    rw [List.map_cons, ofHexDigits?, hexDigit?_upperDigit, Option.bind_some, ih, List.foldl_cons]

theorem ofHexDigits?_ofByte (b : Byte) : ofHexDigits? 0 (Text.ofByte b) = some b.toNat := by
  have hb := b.isLt
  rw [Text.ofByte, ofHexDigits?_digits]
  simp only [List.foldl_cons, List.foldl_nil, BitVec.extractLsb'_toNat, Nat.shiftRight_eq_div_pow]
  exact congrArg some (by omega)

theorem ofHexDigits?_ofWord (w : Word) : ofHexDigits? 0 (Text.ofWord w) = some w.toNat := by
  have hw := w.isLt
  rw [Text.ofWord, ofHexDigits?_digits]
  simp only [List.foldl_cons, List.foldl_nil, BitVec.extractLsb'_toNat, Nat.shiftRight_eq_div_pow]
  exact congrArg some (by omega)

end Numeral

end LittleComputer
