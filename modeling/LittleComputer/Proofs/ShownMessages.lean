import LittleComputer.Proofs.LogHistory
import LittleComputer.Proofs.Outcome

/-!
# Whole messages

A message goes to the log file and to the place where messages are shown, each of which takes it or
not by its own level. A formatted message is cut to its limit, and there is room for all of it in a
line that is shown. Any other message is never cut in the file, but what is shown of it ends where
the room does. So a message within the limit is the same either way (`Host.report_whole`), and a
long one can lose the end of its line (`Host.report_line`).
-/

namespace LittleComputer

/-! ## Texts and lines -/

namespace Text

variable {t : Text}

/-- The text ends with the end of a line. -/
def EndsLine (t : Text) : Prop := t.getLast? = some Byte.newline

instance (t : Text) : Decidable t.EndsLine := inferInstanceAs (Decidable (_ = _))

theorem endsLine_append (t : Text) : EndsLine (t ++ [Byte.newline]) := List.getLast?_concat

/-- What is left when the end of a line is cut. -/
theorem endsLine_take_iff (h : t.EndsLine) (n : Nat) :
    EndsLine (t.take (n + 1)) ↔ t.length ≤ n + 1 ∨ t[n]? = some Byte.newline := by
  have hlast : t[t.length - 1]? = some Byte.newline := by rwa [← List.getLast?_eq_getElem?]
  have htake : (t.take (n + 1)).getLast? = t[n]?.or t.getLast? := by
    rw [List.getLast?_take, if_neg (Nat.succ_ne_zero n), Nat.add_sub_cancel]
  rw [EndsLine, htake]
  by_cases hn : n < t.length
  · rw [List.getElem?_eq_getElem hn, Option.some_or]
    constructor
    · exact .inr
    · rintro (hshort | hnewline)
      · obtain rfl : n = t.length - 1 := by omega
        rwa [← List.getElem?_eq_getElem hn]
      · exact hnewline
  · rw [List.getElem?_eq_none (by omega), Option.none_or]
    constructor
    · intro _
      exact .inl (by omega)
    · exact fun _ => h

end Text

namespace Log

/-- The line that shows a message, however long it is. -/
def wholeLine (l : Log) (s : Severity) (text : Text) : Text :=
  if s = .trace then "-- " ++ text ++ "\n"
  else if s = .debug then "[" ++ text ++ "]\n"
  else l.program ++ ": " ++ text ++ "\n"

/-- How many bytes of the line are not the text. -/
def decoration (l : Log) (s : Severity) : Nat :=
  if s = .trace then 4 else if s = .debug then 3 else l.program.length + 3

section

variable (l : Log) (s : Severity) (text : Text)

theorem shownLine_eq : l.shownLine s text = (l.wholeLine s text).take shownLimit := rfl

theorem length_wholeLine : (l.wholeLine s text).length = text.length + l.decoration s := by
  unfold wholeLine decoration
  split
  · simp [Text.ofString]
  · split
    · simp [Text.ofString]
    · simp [Text.ofString]
      omega

theorem endsLine_wholeLine : (l.wholeLine s text).EndsLine := by
  unfold wholeLine
  split
  · exact Text.endsLine_append _
  · split
    · have hend := Text.endsLine_append (Text.ofString "[" ++ text ++ "]")
      rwa [List.append_assoc] at hend
    · exact Text.endsLine_append _

end

variable {l : Log} {s : Severity} {text : Text}

theorem notMem_wholeLine (hprogram : 0 ∉ l.program) (htext : 0 ∉ text) :
    0 ∉ l.wholeLine s text := by
  unfold wholeLine
  split
  · simp only [List.mem_append, not_or]
    exact ⟨⟨by decide, htext⟩, by decide⟩
  · split
    · simp only [List.mem_append, not_or]
      exact ⟨⟨by decide, htext⟩, by decide⟩
    · simp only [List.mem_append, not_or]
      exact ⟨⟨⟨hprogram, by decide⟩, htext⟩, by decide⟩

/-- A message is shown whole exactly if it fits. -/
theorem shownLine_eq_iff :
    l.shownLine s text = l.wholeLine s text ↔ text.length + l.decoration s ≤ shownLimit := by
  rw [shownLine_eq, List.take_eq_self_iff, length_wholeLine]

/-- There is room for every message within the limit. -/
theorem shownLine_of_limit (hshort : l.program.length ≤ 7) (hlength : text.length ≤ messageLimit) :
    l.shownLine s text = l.wholeLine s text := by
  have hdecoration : l.decoration s ≤ 10 := by
    unfold decoration
    split
    · decide
    · split
      · decide
      · omega
  apply shownLine_eq_iff.mpr
  simp only [shownLimit, messageLimit] at hlength ⊢
  omega

end Log

/-! ## Where messages are shown -/

theorem Window.cookedMode_output (w : Window) : w.cookedMode.output = w.output := by
  unfold cookedMode
  split
  · rfl
  · rfl

theorem Window.message_output {text : Text} (htext : 0 ∉ text) (w : Window) :
    (w.message text).output.toList = w.output.toList ++ text := by
  rw [message, Text.untilNul_of_notMem htext, tell, cookedMode_output]
  exact Array.toList_appendList

namespace Host

variable {h : Host Window} {l : Log} {text : Text}

theorem report_console_output (hl : h.log = some l) (hprogram : 0 ∉ l.program)
    (htext : 0 ∉ text) (s : Severity) :
    (h.report s text).console.output.toList =
      h.console.output.toList ++
        if l.level ≤ s ∧ l.toConsole = true then l.shownLine s text else [] := by
  have hline : 0 ∉ l.shownLine s text := by
    intro hzero
    rw [Log.shownLine_eq] at hzero
    exact Log.notMem_wholeLine hprogram htext (List.mem_of_mem_take hzero)
  rw [report_shown, hl]
  dsimp only
  rw [Text.untilNul_of_notMem htext, Log.isShown]
  simp only [Bool.and_eq_true, decide_eq_true_eq]
  split
  · exact Window.message_output hline h.console
  · rw [List.append_nil]

theorem report_errors_output (hl : h.log = some l) (htext : 0 ∉ text) (s : Severity) :
    (h.report s text).errors.toList =
      h.errors.toList ++
        if l.level ≤ s ∧ l.toConsole = false then l.shownLine s text else [] := by
  rw [report_errors, hl]
  dsimp only
  rw [Text.untilNul_of_notMem htext, Log.isShown]
  simp only [Bool.and_eq_true, Bool.not_eq_true', decide_eq_true_eq]
  split
  · exact Array.toList_appendList
  · rw [List.append_nil]

/-! ## Messages within the limit -/

/-- What a whole message adds in each place. Each place takes the message by its own level. -/
structure Receives (h : Host Window) (l : Log) (s : Severity) (text : Text) (h' : Host Window) :
    Prop where
  /-- The open file gets the lines of the message, with nothing cut. -/
  filed : ∀ file, l.file = some file →
    h'.files.bytesAt? file.path =
      if file.level ≤ s then
        (h.files.bytesAt? file.path).map (· ++ (⟨h.now, s, text⟩ : Message).lines)
      else h.files.bytesAt? file.path
  unfiled : ∀ path, (∀ file, l.file = some file → file.path ≠ path) →
    h'.files.bytesAt? path = h.files.bytesAt? path
  console : h'.console.output.toList =
    h.console.output.toList ++ if l.level ≤ s ∧ l.toConsole = true then l.wholeLine s text else []
  errors : h'.errors.toList =
    h.errors.toList ++ if l.level ≤ s ∧ l.toConsole = false then l.wholeLine s text else []

/-- A message within the limit is the same whether it is formatted or not. It is never cut, and the
log file and the place where messages are shown each get it exactly if they want it, the one
whatever the other does. -/
theorem report_whole (htext : 0 ∉ text) (hlength : text.length ≤ 1023) (h : Host Window)
    (s : Severity) :
    h.report s text = h.reportFormatted s text ∧
      ∀ l, h.log = some l → 0 ∉ l.program → l.program.length ≤ 7 →
        h.Receives l s text (h.report s text) := by
  constructor
  · rw [reportFormatted, Log.formatted_of_fits htext hlength]
  · intro l hl hprogram hshort
    have hline : l.shownLine s text = l.wholeLine s text := Log.shownLine_of_limit hshort hlength
    have hopen : h.openFile? = l.file := by
      rw [openFile?, hl]
      rfl
    have hbytes (path : Path) := h.send_bytesAt? s text path
    constructor
    · intro file hfile
      rw [report_eq_send, hbytes, hopen, hfile, Text.untilNul_of_notMem htext]
      dsimp only
      simp only [true_and]
    · intro path hother
      rw [report_eq_send, hbytes, hopen]
      split
      · rename_i file hfile
        rw [if_neg]
        rintro ⟨rfl, -⟩
        exact hother file hfile rfl
      · rfl
    · rw [report_console_output hl hprogram htext, hline]
    · rw [report_errors_output hl htext, hline]

/-- A warning with percent signs and two lines. The log shows warnings and files everything. -/
theorem report_whole_percent :
    ∃ (h : Host Window) (l : Log) (text : Text), h.log = some l ∧
      text = Text.ofString "100%\n%s %d" ∧ 0 ∉ text ∧ text.length ≤ 1023 ∧ 0 ∉ l.program ∧
      l.program.length ≤ 7 ∧
      (h.reportFormatted .warning text).console.output.toList =
        Text.ofString "LC3SIM: 100%\n%s %d\n" ∧
      (h.reportFormatted .warning text).files.bytesAt? ["log"] =
        some (Text.ofString "00:00:00.000 WARN\t100%\n00:00:00.000 WARN\t%s %d\n") ∧
      h.report .warning text = h.reportFormatted .warning text ∧
      h.Receives l .warning text (h.report .warning text) := by
  let file : LogFile := { path := ["log"], name := "log", level := .trace }
  let l : Log := { Log.new "LC3SIM" true with file := some file }
  let h : Host Window := { Host.new (.new false [] [])
    ((FileStore.empty []).addFile "log" ⟨#[], none⟩) default with log := some l }
  have htext : 0 ∉ Text.ofString "100%\n%s %d" := by decide
  have hprogram : 0 ∉ l.program := by decide
  have hwhole := report_whole htext (by decide) h .warning
  exact ⟨h, l, _, rfl, rfl, htext, by decide, hprogram, by decide, by decide +kernel,
    by decide +kernel, hwhole.1, hwhole.2 l rfl hprogram (by decide)⟩

/-! ## Long messages -/

/-- What stands in the place where the messages of a log are shown. -/
def shown (h : Host Window) (l : Log) : Text :=
  if l.toConsole then h.console.output.toList else h.errors.toList

theorem report_shown_line (hl : h.log = some l) (hprogram : 0 ∉ l.program) (htext : 0 ∉ text)
    {s : Severity} (hlevel : l.level ≤ s) :
    (h.report s text).shown l = h.shown l ++ l.shownLine s text := by
  unfold shown
  cases hconsole : l.toConsole with
  | true =>
    rw [if_pos rfl, if_pos rfl, report_console_output hl hprogram htext,
      if_pos ⟨hlevel, hconsole⟩]
  | false =>
    rw [if_neg (by decide), if_neg (by decide), report_errors_output hl htext,
      if_pos ⟨hlevel, hconsole⟩]

/-- Every formatted message is shown as a whole line. Any other message is shown as far as there is
room for 1087 bytes: as a whole line exactly if it fits. A line that is cut ends by chance at best,
where the text has a newline at this very place. -/
theorem report_line (hl : h.log = some l) (hprogram : 0 ∉ l.program)
    (hshort : l.program.length ≤ 7) {s : Severity} (hlevel : l.level ≤ s) (htext : 0 ∉ text) :
    (∃ line, (h.report s text).shown l = h.shown l ++ line ∧
      line = (l.wholeLine s text).take 1087 ∧
      (line = l.wholeLine s text ↔ text.length + l.decoration s ≤ 1087) ∧
      (line.EndsLine ↔ text.length + l.decoration s ≤ 1087 ∨
        (l.wholeLine s text)[1086]? = some Byte.newline)) ∧
      ∃ line, (h.reportFormatted s text).shown l = h.shown l ++ line ∧
        line = l.wholeLine s (text.take 1023) ∧ line.EndsLine := by
  constructor
  · refine ⟨_, report_shown_line hl hprogram htext hlevel, l.shownLine_eq s text,
      Log.shownLine_eq_iff, ?_⟩
    rw [Log.shownLine_eq, ← Log.length_wholeLine]
    exact Text.endsLine_take_iff (l.endsLine_wholeLine s text) 1086
  · have hformatted : Log.formatted text = text.take 1023 := by
      rw [Log.formatted, Text.untilNul_of_notMem htext]
      rfl
    have hcut : 0 ∉ text.take 1023 := fun hzero => htext (List.mem_of_mem_take hzero)
    refine ⟨_, ?_, rfl, l.endsLine_wholeLine s _⟩
    rw [reportFormatted, hformatted, report_shown_line hl hprogram hcut hlevel,
      Log.shownLine_of_limit hshort (List.length_take_le 1023 text)]

/-- A message of 2000 bytes on the standard error output. -/
theorem report_line_long :
    ∃ (h : Host Window) (l : Log) (text line line' : Text), h.log = some l ∧
      0 ∉ l.program ∧ l.program.length ≤ 7 ∧ l.level ≤ .error ∧ text = List.replicate 2000 0x78 ∧
      0 ∉ text ∧ (h.report .error text).shown l = h.shown l ++ line ∧ line.length = 1087 ∧
      ¬ line.EndsLine ∧ (h.reportFormatted .error text).shown l = h.shown l ++ line' ∧
      line'.length = 1029 ∧ line'.EndsLine := by
  let l := Log.new "LC3" false
  let h : Host Window := { Host.new (.new false [] []) (.empty []) default with log := some l }
  let text : Text := List.replicate 2000 0x78
  have hprogram : 0 ∉ l.program := by decide
  have htext : 0 ∉ text := by
    intro hzero
    exact absurd (List.eq_of_mem_replicate hzero) (by decide)
  obtain ⟨⟨line, hline, hcut, -, hends⟩, line', hline', hwhole, hends'⟩ :=
    report_line (h := h) (l := l) rfl hprogram (by decide) (s := .error) (by decide) htext
  have hshort : ¬ (text.length + l.decoration .error ≤ 1087) := by decide +kernel
  have hother : (l.wholeLine .error text)[1086]? ≠ some Byte.newline := by decide +kernel
  refine ⟨h, l, text, line, line', rfl, hprogram, by decide, by decide, rfl, htext, hline, ?_, ?_,
    hline', ?_, hends'⟩
  · rw [hcut]
    decide +kernel
  · rw [hends]
    exact not_or.mpr ⟨hshort, hother⟩
  · rw [hwhole]
    decide +kernel

end Host

namespace Simulator

/-- An option that the program does not know. -/
def longOption : Text := Byte.minus :: List.replicate 1061 0x78

/-- The end of the program shows nothing if no log file is open. -/
theorem shutDown_output {host : Host Window} {l : Log} (hl : host.log = some l)
    (hfile : l.file = none) (succeeded : Bool) :
    (shutDown succeeded host).host.console.output = host.console.output := by
  show host.closeLog.console.cookedMode.output = _
  rw [Host.closeLog_of_no_file hl hfile, Window.cookedMode_output]

/-- The message about a long option loses the end of its line, so the next message follows on the
same line. -/
theorem report_unended :
    ∃ (h : Host Window) (l : Log) (text line : Text), h.log = some l ∧ 0 ∉ l.program ∧
      l.program.length ≤ 7 ∧ l.level ≤ .command ∧ 0 ∉ text ∧
      (CommandLineError.unknownOption longOption).messages = [text, usage] ∧
      (h.report .command text).shown l = h.shown l ++ line ∧ ¬ line.EndsLine ∧
      ∃ outcome, simulate [longOption] (.new (.new false [] []) (.empty []) default) 0 =
          .ok outcome ∧
        outcome.host.console.output.toList =
          line ++ (Text.ofString "LC3SIM: " ++ usage ++ Text.ofString "\n") := by
  let l := Log.new programName true
  let start : Host Window := .new (.new false [] []) (.empty []) default
  let h := logged start
  let text : Text := Text.ofString "unknown option \"" ++ longOption ++ Text.ofString "\""
  have hprogram : 0 ∉ l.program := by decide
  have htext : 0 ∉ text := by decide +kernel
  have husage : 0 ∉ usage := by decide +kernel
  have hread : Options.read [longOption] = .error (.unknownOption longOption) := by
    decide +kernel
  have hsimulate : simulate [longOption] start 0 =
      .ok (refused (.unknownOption longOption) start) := by
    rw [simulate, prepare_of_refused rfl hread]
    rfl
  -- The two messages are shown one after the other.
  have hlog : (h.report .command text).log = some l := h.report_log .command text
  have hlog' : ((h.report .command text).report .command usage).log = some l :=
    (Host.report_log _ _ _).trans hlog
  have hfirst := Host.report_console_output (h := h) rfl hprogram htext .command
  have hsecond := Host.report_console_output hlog hprogram husage .command
  rw [if_pos (by decide)] at hfirst hsecond
  have hline : l.shownLine .command usage =
      Text.ofString "LC3SIM: " ++ usage ++ Text.ofString "\n" := by decide +kernel
  refine ⟨h, l, text, l.shownLine .command text, rfl, hprogram, by decide, by decide, htext, rfl,
    Host.report_shown_line rfl hprogram htext (by decide), by decide +kernel, _, hsimulate, ?_⟩
  show (shutDown false
    ((h.report .command text).report .command usage)).host.console.output.toList = _
  rw [shutDown_output hlog' rfl, hsecond, hfirst, hline]
  rfl

end Simulator

end LittleComputer
