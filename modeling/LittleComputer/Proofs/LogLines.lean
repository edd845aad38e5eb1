import LittleComputer.Log
import LittleComputer.Proofs.Numeral
import Mathlib.Data.List.TakeWhile

/-!
# Lines of a log file

A message takes one line of a log file for each of its own lines. In front of each stand the time
and the severity of the message, and neither of them has a tab or a newline in it. So the messages
can be read back from the lines (`Message.unstamped_lines`).
-/

namespace LittleComputer

/-! ## Time and severity -/

namespace Text

/-- The pieces of a text with one byte more in front. -/
theorem splitOn_cons (separator b : Byte) (rest : Text) :
    ∃ piece pieces, rest.splitOn separator = piece :: pieces ∧
      List.splitOn separator (b :: rest) =
        if b = separator then [] :: piece :: pieces else (b :: piece) :: pieces := by
  obtain ⟨piece, pieces, hrest⟩ := List.exists_cons_of_ne_nil (rest.splitOn_ne_nil separator)
  refine ⟨piece, pieces, hrest, ?_⟩
  rw [List.splitOn, List.splitOnP_cons_eq_if_modifyHead, ← List.splitOn, hrest]
  simp only [beq_iff_eq, List.modifyHead_cons]

theorem splitAt_eq_splitOn (separator : Byte) (t : Text) :
    splitAt separator t = t.splitOn separator := by
  induction t with
  | nil => rfl
  | cons b rest ih =>
    obtain ⟨piece, pieces, hrest, hsplit⟩ := splitOn_cons separator b rest
    rw [splitAt, ih, hsplit, hrest]

theorem notMem_of_mem_splitOn {separator : Byte} {t piece : Text}
    (h : piece ∈ t.splitOn separator) : separator ∉ piece := by
  induction t generalizing piece with
  | nil =>
    rw [List.splitOn_nil, List.mem_singleton] at h
    rw [h]
    exact List.not_mem_nil
  | cons b rest ih =>
    obtain ⟨first, pieces, hrest, hsplit⟩ := splitOn_cons separator b rest
    rw [hrest] at ih
    rw [hsplit] at h
    split at h
    · rcases List.mem_cons.mp h with rfl | h
      · exact List.not_mem_nil
      · exact ih h
    · rename_i hb
      rcases List.mem_cons.mp h with rfl | h
      · exact List.not_mem_cons_of_ne_of_not_mem (Ne.symm hb) (ih List.mem_cons_self)
      · exact ih (List.mem_cons_of_mem _ h)

/-- A text is its pieces, with a separator behind each but the last. -/
theorem flatMap_splitOn (separator : Byte) (t : Text) :
    (t.splitOn separator).flatMap (· ++ [separator]) = t ++ [separator] := by
  induction t with
  | nil => rfl
  | cons b rest ih =>
    obtain ⟨piece, pieces, hrest, hsplit⟩ := splitOn_cons separator b rest
    rw [hrest] at ih
    rw [hsplit, List.cons_append, ← ih]
    split
    · rename_i hb
      rw [hb]
      rfl
    · rfl

/-- Pieces with a separator behind each can be told apart. -/
theorem splitOn_flatMap {separator : Byte} {pieces : List Text}
    (h : ∀ piece ∈ pieces, separator ∉ piece) :
    (pieces.flatMap (· ++ [separator])).splitOn separator = pieces ++ [[]] := by
  have hjoin : pieces.flatMap (· ++ [separator]) =
      List.intercalate [separator] (pieces ++ [[]]) := by
    clear h
    induction pieces with
    | nil => rfl
    | cons piece rest ih =>
      rw [List.flatMap_cons, ih]
      cases rest with
      | nil | cons => exact List.intercalate_cons_cons.symm
  rw [hjoin]
  refine List.splitOn_intercalate separator ?_ (by simp)
  intro piece hpiece
  rcases List.mem_append.mp hpiece with hp | hp
  · exact h piece hp
  · rw [List.mem_singleton.mp hp]
    exact List.not_mem_nil

theorem notMem_leftpad {b c : Byte} {t : Text} (hc : b ≠ c) (ht : b ∉ t) (width : Nat) :
    b ∉ t.leftpad width c := by
  intro h
  rcases List.mem_append.mp h with h | h
  · exact hc (List.eq_of_mem_replicate h)
  · exact ht h

theorem untilNul_of_notMem {t : Text} (h : 0 ∉ t) : untilNul t = t := by
  rw [untilNul, List.takeWhile_eq_self_iff]
  intro b hb
  exact bne_iff_ne.mpr (ne_of_mem_of_not_mem hb h)

end Text

/-- A message within the limit is not changed by formatting. -/
theorem Log.formatted_of_fits {text : Text} (htext : 0 ∉ text)
    (hlength : text.length ≤ messageLimit) : formatted text = text := by
  rw [formatted, Text.untilNul_of_notMem htext, List.take_of_length_le hlength]

/-- The bytes that a time of day does not contain: all but digits and three marks. -/
theorem Moment.notMem_timeOfDay {b : Byte} (hdigit : ∀ d < 10, b ≠ Text.decimalDigit d)
    (hmark : b ∉ Text.ofString ":.-") (m : Moment) : b ∉ m.timeOfDay := by
  have hzero : b ≠ Byte.zeroDigit := hdigit 0 (by decide)
  have hdecimal : ∀ width n, b ∉ (Text.decimal n).leftpad width Byte.zeroDigit := fun width n =>
    Text.notMem_leftpad hzero (Text.notMem_decimal hdigit n) width
  have hfilled : ∀ x, b ∉ Text.integerFilled 3 x := by
    intro x
    cases x with
    | ofNat n => exact hdecimal 3 n
    | negSucc n =>
      refine List.not_mem_cons_of_ne_of_not_mem (fun h => hmark ?_) (hdecimal 2 (n + 1))
      rw [h]
      decide
  have hcolon : b ∉ Text.ofString ":" := fun h => hmark (List.mem_of_mem_take (i := 1) h)
  have hdot : b ∉ Text.ofString "." := by
    intro h
    rw [List.mem_singleton.mp h] at hmark
    exact hmark (by decide)
  simp only [timeOfDay, List.mem_append, not_or]
  exact ⟨⟨⟨⟨⟨⟨hdecimal 2 _, hcolon⟩, hdecimal 2 _⟩, hcolon⟩, hdecimal 2 _⟩, hdot⟩, hfilled _⟩

/-! ## Messages -/

/-- A message, with the moment at which it was sent. -/
structure Message where
  moment : Moment
  severity : Severity
  text : Text

namespace Message

/-- What stands in front of each line of a message. -/
def stamp (m : Message) : Text := m.moment.timeOfDay ++ " " ++ m.severity.name ++ "\t"

/-- What a message adds to a log file: a line for each of its newline separated pieces, empty ones
too. -/
def lines (m : Message) : Text :=
  (m.text.splitOn Byte.newline).flatMap fun piece => m.stamp ++ piece ++ [Byte.newline]

theorem filedLines_eq (now : Moment) (s : Severity) (text : Text) :
    Log.filedLines now s text = (⟨now, s, text⟩ : Message).lines := by
  rw [Log.filedLines, Text.splitAt_eq_splitOn]
  rfl

/-- The lines of a message, without the newlines at their ends. -/
def stamped (m : Message) : List Text := (m.text.splitOn Byte.newline).map (m.stamp ++ ·)

theorem lines_eq (m : Message) : m.lines = m.stamped.flatMap (· ++ [Byte.newline]) := by
  rw [lines, stamped, List.flatMap_map]

/-- A line without what stands before and at its first tab. -/
def unstamp (line : Text) : Text := (line.dropWhile (· != Byte.tab)).tail

/-- The lines of a text, each without its stamp. -/
def unstamped (t : Text) : Text :=
  (t.splitOn Byte.newline).dropLast.flatMap fun line => unstamp line ++ [Byte.newline]

theorem tab_notMem_head (m : Message) :
    Byte.tab ∉ m.moment.timeOfDay ++ Text.ofString " " ++ m.severity.name := by
  have hname : ∀ s : Severity, Byte.tab ∉ s.name := by decide
  simp only [List.mem_append, not_or]
  exact ⟨⟨Moment.notMem_timeOfDay (by decide) (by decide) _, by decide⟩, hname _⟩

theorem newline_notMem_stamp (m : Message) : Byte.newline ∉ m.stamp := by
  have hname : ∀ s : Severity, Byte.newline ∉ s.name := by decide
  simp only [stamp, List.mem_append, not_or]
  exact ⟨⟨⟨Moment.notMem_timeOfDay (by decide) (by decide) _, by decide⟩, hname _⟩, by decide⟩

/-- The stamp of a line ends at its first tab. -/
theorem unstamp_append (m : Message) (piece : Text) : unstamp (m.stamp ++ piece) = piece := by
  have hhead : ∀ b ∈ m.moment.timeOfDay ++ Text.ofString " " ++ m.severity.name,
      (b != Byte.tab) = true := by
    intro b hb
    exact bne_iff_ne.mpr fun h => m.tab_notMem_head (h ▸ hb)
  rw [unstamp, stamp, List.append_assoc, List.dropWhile_append_of_pos hhead]
  rfl

theorem newline_notMem_stamped {m : Message} {line : Text} (h : line ∈ m.stamped) :
    Byte.newline ∉ line := by
  obtain ⟨piece, hpiece, rfl⟩ := List.mem_map.mp h
  rw [List.mem_append, not_or]
  exact ⟨m.newline_notMem_stamp, Text.notMem_of_mem_splitOn hpiece⟩

theorem unstamp_stamped (m : Message) :
    (m.stamped.flatMap fun line => unstamp line ++ [Byte.newline]) =
      m.text ++ [Byte.newline] := by
  rw [stamped, List.flatMap_map, ← Text.flatMap_splitOn]
  simp only [unstamp_append]

/-- What messages add to a log file is divided at its newlines into the lines of the messages. -/
theorem splitOn_lines (messages : List Message) :
    ((messages.flatMap lines).splitOn Byte.newline).dropLast = messages.flatMap stamped := by
  have hlines : messages.flatMap lines =
      (messages.flatMap stamped).flatMap (· ++ [Byte.newline]) := by
    simp only [List.flatMap_assoc, ← lines_eq]
  have hpieces : ∀ line ∈ messages.flatMap stamped, Byte.newline ∉ line := by
    intro line hline
    obtain ⟨m, -, hm⟩ := List.mem_flatMap.mp hline
    exact newline_notMem_stamped hm
  rw [hlines, Text.splitOn_flatMap hpieces, List.dropLast_concat]

/-- The lines of messages without their stamps are the messages. -/
theorem unstamped_lines (messages : List Message) :
    unstamped (messages.flatMap lines) = messages.flatMap fun m => m.text ++ [Byte.newline] := by
  rw [unstamped, splitOn_lines, List.flatMap_assoc]
  simp only [unstamp_stamped]

end Message

end LittleComputer
