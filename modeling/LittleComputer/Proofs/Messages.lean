import LittleComputer.Host

/-!
# What a message changes

A message goes to the log file and to the console, as far as the log wants it there. It never
changes the log, and of the console it changes nothing unless it is shown there.
-/

namespace LittleComputer

namespace Host

variable {κ : Type}

theorem fileMessage_log (h : Host κ) (l : Log) (s : Severity) (text : Text) :
    (h.fileMessage l s text).log = h.log := by
  unfold fileMessage
  split
  · split <;> rfl
  · rfl

theorem fileMessage_console (h : Host κ) (l : Log) (s : Severity) (text : Text) :
    (h.fileMessage l s text).console = h.console := by
  unfold fileMessage
  split
  · split <;> rfl
  · rfl

theorem fileMessage_errors (h : Host κ) (l : Log) (s : Severity) (text : Text) :
    (h.fileMessage l s text).errors = h.errors := by
  unfold fileMessage
  split
  · split <;> rfl
  · rfl

variable [Console κ]

theorem showMessage_log (h : Host κ) (l : Log) (s : Severity) (text : Text) :
    (h.showMessage l s text).log = h.log := by
  unfold showMessage
  split
  · split <;> rfl
  · rfl

theorem showMessage_console (h : Host κ) (l : Log) (s : Severity) (text : Text) :
    (h.showMessage l s text).console =
      if l.isShown s && l.toConsole then Console.message h.console (l.shownLine s text)
      else h.console := by
  unfold showMessage
  cases l.isShown s with
  | false => rfl
  | true => cases l.toConsole <;> rfl

theorem showMessage_errors (h : Host κ) (l : Log) (s : Severity) (text : Text) :
    (h.showMessage l s text).errors =
      if l.isShown s && !l.toConsole then h.errors ++ l.shownLine s text else h.errors := by
  unfold showMessage
  cases l.isShown s with
  | false => rfl
  | true => cases l.toConsole <;> rfl

theorem report_log (h : Host κ) (s : Severity) (text : Text) :
    (h.report s text).log = h.log := by
  unfold report send
  split
  · split
    · rw [showMessage_log, fileMessage_log]
    · rfl
  · rfl

theorem closeLog_of_no_file {h : Host κ} {l : Log} (hl : h.log = some l) (hfile : l.file = none) :
    h.closeLog = h := by
  rw [closeLog, hl, Option.bind_some, hfile]

/-- What a report changes of the console. -/
theorem report_shown (h : Host κ) (s : Severity) (text : Text) :
    (h.report s text).console =
      match h.log with
      | some l =>
        if l.isShown s && l.toConsole then
          Console.message h.console (l.shownLine s (Text.untilNul text))
        else h.console
      | none => h.console := by
  unfold report isLogged send
  cases h.log with
  | none => rfl
  | some l =>
    dsimp only
    split
    · rw [showMessage_console, fileMessage_console]
    · rename_i hn
      rw [Log.isLogged, Bool.or_eq_true, not_or, Bool.not_eq_true] at hn
      rw [hn.1, Bool.false_and]
      rfl

/-- What a report changes of the standard error output. -/
theorem report_errors (h : Host κ) (s : Severity) (text : Text) :
    (h.report s text).errors =
      match h.log with
      | some l =>
        if l.isShown s && !l.toConsole then h.errors ++ l.shownLine s (Text.untilNul text)
        else h.errors
      | none => h.errors := by
  unfold report isLogged send
  cases h.log with
  | none => rfl
  | some l =>
    dsimp only
    split
    · rw [showMessage_errors, fileMessage_errors]
    · rename_i hn
      rw [Log.isLogged, Bool.or_eq_true, not_or, Bool.not_eq_true] at hn
      rw [hn.1, Bool.false_and]
      rfl

/-- Messages of a severity are not shown on the console, or make no difference to what is related
to it. -/
def Hides (h : Host κ) (s : Severity) (S : κ → κ → Prop) : Prop :=
  ∀ l, h.log = some l → l.isShown s → l.toConsole →
    ∀ c c' text, S c c' → S (Console.message c text) c'

theorem Hides.report {h : Host κ} {s : Severity} {S : κ → κ → Prop} (hs : h.Hides s S) {c : κ}
    (hc : S h.console c) (text : Text) : S (h.report s text).console c := by
  rw [h.report_shown s text]
  split
  · rename_i l hl
    split
    · rename_i hshown
      rw [Bool.and_eq_true] at hshown
      exact hs l hl hshown.1 hshown.2 _ _ _ hc
    · exact hc
  · exact hc

end Host

end LittleComputer
