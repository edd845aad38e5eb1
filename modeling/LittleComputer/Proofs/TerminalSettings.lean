import Mathlib.Logic.Relation
import LittleComputer.Proofs.Messages
import LittleComputer.Proofs.ReadAhead
import LittleComputer.Simulator

/-!
# The settings of the terminal

A window gives the terminal raw settings before it waits for a key or writes for the simulated
machine, and the settings that it found before it writes a text of the program itself. Whatever is
asked of a window and of a log that uses it, every deed comes under its own settings, and in the end
the terminal has the settings that it had in the beginning. Other input is left alone.
-/

namespace LittleComputer

namespace Window

/-! ## Records -/

def settingsIn (deeds : List Deed) : List TerminalMode :=
  deeds.filterMap fun
    | .set mode => some mode
    | _ => none

def waitsIn (deeds : List Deed) : List Nat :=
  deeds.filterMap fun
    | .wait microseconds => some microseconds
    | _ => none

def outputIn (deeds : List Deed) : List Byte :=
  deeds.flatMap fun
    | .put b => [b]
    | .tell text => text
    | _ => []

/-- The record of deeds holds everything that is recorded about settings, waits and output. -/
structure Recorded (w : Window) : Prop where
  settings : w.settings.toList = settingsIn w.deeds.toList
  waits : w.waits.toList = waitsIn w.deeds.toList
  output : w.output.toList = outputIn w.deeds.toList

/-- The raw settings, those that were found, the raw settings again and so on, `n` in all. -/
def alternating (found : TerminalMode) (n : Nat) : List TerminalMode :=
  (List.range n).map fun i => if i % 2 = 0 then found.raw else found

theorem alternating_succ (found : TerminalMode) (n : Nat) :
    alternating found (n + 1) =
      alternating found n ++ [if n % 2 = 0 then found.raw else found] := by
  simp [alternating, List.range_succ]

/-- After these deeds, the raw settings were given last, or else the settings that were found were
given last or none at all. -/
def SetLast (found : TerminalMode) (raw : Bool) (deeds : List Deed) : Prop :=
  ∃ n, settingsIn deeds = alternating found (2 * n + raw.toNat)

/-- Whether a deed needs the raw settings. To give settings needs neither. -/
def needsRaw? : Deed → Option Bool
  | .wait _ | .put _ => some true
  | .tell _ => some false
  | .set _ => none

/-- Raw and found settings take turns, and every other deed comes under the settings that it
needs. -/
structure Orderly (found : TerminalMode) (deeds : List Deed) : Prop where
  alternates : ∃ n, settingsIn deeds = alternating found n
  under : ∀ (i : Nat) (d : Deed) (raw : Bool), deeds[i]? = some d → needsRaw? d = some raw →
    SetLast found raw (deeds.take i)

/-! ## One deed more -/

section

variable {found : TerminalMode} {raw : Bool} {deeds : List Deed} {d : Deed}

theorem settingsIn_concat (deeds : List Deed) (d : Deed) :
    settingsIn (deeds ++ [d]) = settingsIn deeds ++ settingsIn [d] := List.filterMap_append

theorem settingsIn_of_needsRaw? (hneeds : needsRaw? d = some raw) : settingsIn [d] = [] := by
  cases d with
  | set mode => cases hneeds
  | wait | put | tell => rfl

theorem SetLast.concat (h : SetLast found raw deeds) (hd : settingsIn [d] = []) :
    SetLast found raw (deeds ++ [d]) := by
  rwa [SetLast, settingsIn_concat, hd, List.append_nil]

/-- One more change of the settings gives the ones that were not given last. -/
theorem SetLast.turn (h : SetLast found raw deeds) :
    SetLast found (!raw) (deeds ++ [.set (if raw then found else found.raw)]) := by
  obtain ⟨n, hn⟩ := h
  have hnext := alternating_succ found (2 * n + raw.toNat)
  rw [← hn] at hnext
  cases raw with
  | false =>
    refine ⟨n, ?_⟩
    rw [settingsIn_concat]
    exact (hnext.trans (by rw [if_pos (by simp)]; rfl)).symm
  | true =>
    refine ⟨n + 1, ?_⟩
    rw [settingsIn_concat]
    exact (hnext.trans (by rw [if_neg (by simp)]; rfl)).symm

/-- The deeds before one of the deeds, when there is one more. -/
theorem take_of_concat {i : Nat} {x : Deed} (h : (deeds ++ [d])[i]? = some x) :
    (deeds[i]? = some x ∧ (deeds ++ [d]).take i = deeds.take i) ∨
      (x = d ∧ (deeds ++ [d]).take i = deeds) := by
  rcases Nat.lt_trichotomy i deeds.length with hi | rfl | hi
  · rw [List.getElem?_append_left hi] at h
    exact .inl ⟨h, List.take_append_of_le_length (Nat.le_of_lt hi)⟩
  · rw [List.getElem?_concat_length] at h
    exact .inr ⟨(Option.some.inj h).symm, List.take_left⟩
  · rw [List.getElem?_eq_none (by rw [List.length_append, List.length_singleton]; omega)] at h
    cases h

/-- A record stays in order with one deed more, if the deed comes under the settings that it
needs. -/
theorem Orderly.concat (h : Orderly found deeds)
    (halternates : ∃ n, settingsIn (deeds ++ [d]) = alternating found n)
    (hd : ∀ raw, needsRaw? d = some raw → SetLast found raw deeds) :
    Orderly found (deeds ++ [d]) where
  alternates := halternates
  under := by
    intro i x raw hi hneeds
    rcases take_of_concat hi with ⟨hi, htake⟩ | ⟨rfl, htake⟩
    · rw [htake]
      exact h.under i x raw hi hneeds
    · rw [htake]
      exact hd raw hneeds

end

/-! ## Steps of a window -/

def perform (w : Window) : Deed → Window
  | .set mode => w.set mode
  | .wait microseconds => w.wait microseconds
  | .put b => w.put b
  | .tell text => w.tell text

theorem perform_deeds (w : Window) (d : Deed) :
    (w.perform d).deeds.toList = w.deeds.toList ++ [d] := by
  cases d with
  | set | wait | put | tell => exact Array.toList_push

theorem perform_setting (w : Window) (d : Deed) :
    (w.perform d).isTerminal = w.isTerminal ∧ (w.perform d).found = w.found ∧
      (w.perform d).inRawMode = w.inRawMode := by
  cases d with
  | set | wait | put | tell => exact ⟨rfl, rfl, rfl⟩

/-- Every deed is recorded as it is done. -/
theorem Recorded.perform {w : Window} (h : w.Recorded) (d : Deed) : (w.perform d).Recorded where
  settings := by
    rw [perform_deeds, settingsIn_concat, ← h.settings]
    cases d with
    | set mode => exact Array.toList_push
    | wait | put | tell => exact (List.append_nil _).symm
  waits := by
    rw [perform_deeds, waitsIn, List.filterMap_append, ← waitsIn, ← h.waits]
    cases d with
    | wait microseconds => exact Array.toList_push
    | set | put | tell => exact (List.append_nil _).symm
  output := by
    rw [perform_deeds, outputIn, List.flatMap_append, ← outputIn, ← h.output]
    cases d with
    | put b => exact Array.toList_push
    | tell text => simp [Window.perform, tell]
    | set | wait => exact (List.append_nil _).symm

/-- The windows differ at most in what they have read and what they are going to be answered. -/
structure SameRecord (w w' : Window) : Prop where
  isTerminal : w'.isTerminal = w.isTerminal
  found : w'.found = w.found
  inRawMode : w'.inRawMode = w.inRawMode
  settings : w'.settings = w.settings
  waits : w'.waits = w.waits
  output : w'.output = w.output
  deeds : w'.deeds = w.deeds

/-- Other settings, another deed under the settings that it needs, or no deed at all. -/
inductive Step : Window → Window → Prop where
  | turn {w : Window} (hmode : w.inRawMode = true ∨ w.isTerminal = true) :
    Step w { w.perform (.set (if w.inRawMode then w.found else w.found.raw)) with
      inRawMode := !w.inRawMode }
  | perform {w : Window} {d : Deed} {raw : Bool} (hneeds : needsRaw? d = some raw)
    (hmode : w.isTerminal = true → w.inRawMode = raw) : Step w (w.perform d)
  | other {w w' : Window} (hsame : SameRecord w w') : Step w w'

/-- The record of a window is in order, and the window knows which settings were given last. -/
structure InOrder (w : Window) : Prop where
  recorded : w.Recorded
  orderly : w.isTerminal = true → Orderly w.found w.deeds.toList
  mode : w.isTerminal = true → SetLast w.found w.inRawMode w.deeds.toList
  alone : w.isTerminal = false → w.settings = #[] ∧ w.inRawMode = false

namespace InOrder

variable {w w' : Window}

/-- Changing the settings keeps the record in order, as the window knows which were given last. -/
theorem turn (h : w.InOrder) (hterminal : w.isTerminal = true) :
    InOrder { w.perform (.set (if w.inRawMode then w.found else w.found.raw)) with
      inRawMode := !w.inRawMode } := by
  have hturn := (h.mode hterminal).turn
  have hdeeds := w.perform_deeds (.set (if w.inRawMode then w.found else w.found.raw))
  have hr := h.recorded.perform (.set (if w.inRawMode then w.found else w.found.raw))
  refine ⟨⟨hr.settings, hr.waits, hr.output⟩, fun _ => ?_, fun _ => ?_, ?_⟩
  · show Orderly w.found (w.perform _).deeds.toList
    rw [hdeeds]
    refine (h.orderly hterminal).concat ?_ nofun
    obtain ⟨n, hn⟩ := hturn
    exact ⟨_, hn⟩
  · show SetLast w.found (!w.inRawMode) (w.perform _).deeds.toList
    rw [hdeeds]
    exact hturn
  · intro hinput
    exact absurd (hterminal.symm.trans hinput) (by decide)

/-- A deed under the settings that it needs keeps the record in order. -/
theorem perform (h : w.InOrder) {d : Deed} {raw : Bool} (hneeds : needsRaw? d = some raw)
    (hmode : w.isTerminal = true → w.inRawMode = raw) : (w.perform d).InOrder := by
  obtain ⟨hterminal, hfound, hraw⟩ := w.perform_setting d
  have hsettings := settingsIn_of_needsRaw? hneeds
  have hr := h.recorded.perform d
  refine ⟨hr, ?_, ?_, ?_⟩
  · rw [hterminal, hfound, perform_deeds]
    intro hinput
    refine (h.orderly hinput).concat ?_ ?_
    · rw [settingsIn_concat, hsettings, List.append_nil]
      exact (h.orderly hinput).alternates
    · intro raw' hneeds'
      obtain rfl : raw = raw' := Option.some.inj (hneeds.symm.trans hneeds')
      rw [← hmode hinput]
      exact h.mode hinput
  · rw [hterminal, hfound, hraw, perform_deeds]
    exact fun hinput => (h.mode hinput).concat hsettings
  · rw [hterminal, hraw]
    refine fun hinput => ⟨?_, (h.alone hinput).2⟩
    have hempty : (w.perform d).settings.toList = [] := by
      rw [hr.settings, perform_deeds, settingsIn_concat, hsettings, ← h.recorded.settings,
        (h.alone hinput).1]
      rfl
    exact Array.toList_eq_nil_iff.mp hempty

theorem of_sameRecord (h : w.InOrder) (hsame : SameRecord w w') : w'.InOrder := by
  obtain ⟨hterminal, hfound, hraw, hsettings, hwaits, houtput, hdeeds⟩ := hsame
  obtain ⟨⟨hs, hw, ho⟩, horderly, hmode, halone⟩ := h
  refine ⟨⟨?_, ?_, ?_⟩, ?_, ?_, ?_⟩
  · rwa [hsettings, hdeeds]
  · rwa [hwaits, hdeeds]
  · rwa [houtput, hdeeds]
  · rwa [hterminal, hfound, hdeeds]
  · rwa [hterminal, hfound, hraw, hdeeds]
  · rwa [hterminal, hsettings, hraw]

/-- Every step of a window keeps its record in order. -/
theorem step (h : w.InOrder) (hstep : Step w w') : w'.InOrder := by
  cases hstep with
  | turn hmode =>
    refine h.turn ?_
    rcases hmode with hraw | hterminal
    · cases hinput : w.isTerminal with
      | true => rfl
      | false => exact absurd (hraw.symm.trans (h.alone hinput).2) (by decide)
    · exact hterminal
  | perform hneeds hmode => exact h.perform hneeds hmode
  | other hsame => exact h.of_sameRecord hsame

end InOrder

/-- Any number of steps. -/
abbrev Steps : Window → Window → Prop := Relation.ReflTransGen Step

/-- By induction over the steps, whichever they are. -/
theorem InOrder.steps {w w' : Window} (h : w.InOrder) (hsteps : Steps w w') : w'.InOrder := by
  induction hsteps with
  | refl => exact h
  | tail _ hstep ih => exact ih.step hstep

theorem Step.setting {w w' : Window} (hstep : Step w w') :
    w'.isTerminal = w.isTerminal ∧ w'.found = w.found := by
  cases hstep with
  | turn => exact ⟨rfl, rfl⟩
  | @perform d => exact ⟨(w.perform_setting d).1, (w.perform_setting d).2.1⟩
  | other hsame => exact ⟨hsame.isTerminal, hsame.found⟩

theorem Steps.setting {w w' : Window} (hsteps : Steps w w') :
    w'.isTerminal = w.isTerminal ∧ w'.found = w.found := by
  induction hsteps with
  | refl => exact ⟨rfl, rfl⟩
  | tail _ hstep ih => exact ⟨hstep.setting.1.trans ih.1, hstep.setting.2.trans ih.2⟩

theorem new_inOrder (isTerminal : Bool) (found : TerminalMode) (events : List KeyEvent)
    (writes : List WriteEvent) :
    InOrder { new isTerminal events writes with found } where
  recorded := ⟨rfl, rfl, rfl⟩
  orderly _ := ⟨⟨0, rfl⟩, nofun⟩
  mode _ := ⟨0, rfl⟩
  alone _ := ⟨rfl, rfl⟩

/-- The record holds everything that was done. On a terminal everything was done under its own
settings, and no other input was given any. -/
structure SettingsFit (isTerminal : Bool) (found : TerminalMode) (w : Window) : Prop where
  recorded : w.Recorded
  orderly : isTerminal = true → Orderly found w.deeds.toList
  alone : isTerminal = false → w.settings = #[]

/-- What a record in order says about the settings, whatever the terminal had at first. -/
theorem InOrder.settingsFit {w : Window} (h : w.InOrder) {isTerminal : Bool} {found : TerminalMode}
    (hsetting : w.isTerminal = isTerminal ∧ w.found = found) : w.SettingsFit isTerminal found := by
  obtain ⟨rfl, rfl⟩ := hsetting
  exact ⟨h.recorded, h.orderly, fun hinput => (h.alone hinput).1⟩

/-! ## Requests -/

theorem Steps.other {w w' : Window} (h : SameRecord w w') : Steps w w' := .single (.other h)

/-- Raw mode is one step or none, and afterwards a terminal is in it. -/
theorem rawMode_steps (w : Window) :
    Steps w w.rawMode ∧ (w.rawMode.isTerminal = true → w.rawMode.inRawMode = true) := by
  unfold rawMode
  split
  · rename_i h
    refine ⟨.refl, fun hterminal => ?_⟩
    simpa [hterminal] using h
  · rename_i h
    simp only [Bool.or_eq_true, Bool.not_eq_true', not_or, Bool.not_eq_true,
      Bool.not_eq_false] at h
    have hturn := Step.turn (w := w) (.inr h.2)
    rw [h.1] at hturn
    exact ⟨.single hturn, fun _ => rfl⟩

/-- The settings that were found are given back in one step or none. -/
theorem cookedMode_steps (w : Window) :
    Steps w w.cookedMode ∧ w.cookedMode.inRawMode = false := by
  unfold cookedMode
  split
  · rename_i hraw
    have hturn := Step.turn (.inl hraw)
    rw [hraw] at hturn
    exact ⟨.single hturn, rfl⟩
  · rename_i hraw
    exact ⟨.refl, Bool.eq_false_iff.mpr hraw⟩

theorem message_steps (text : Text) (w : Window) : Steps w (w.message text) :=
  have hcooked := w.cookedMode_steps
  hcooked.1.tail (.perform (d := .tell (Text.untilNul text)) rfl fun _ => hcooked.2)

theorem writeAll_steps (bytes : List Byte) {w : Window}
    (hraw : w.isTerminal = true → w.inRawMode = true) : Steps w (writeAll bytes w) := by
  induction bytes generalizing w with
  | nil => exact .refl
  | cons b rest ih =>
    rw [writeAll]
    split
    · exact ih hraw
    · split
      · rename_i writes _
        have hsame : SameRecord w { w with writes } := ⟨rfl, rfl, rfl, rfl, rfl, rfl, rfl⟩
        have hput := Step.perform (w := { w with writes }) (d := .put (b &&& 0x7F)) rfl hraw
        exact ((Steps.other hsame).tail hput).trans (ih hraw)
      · exact .other ⟨rfl, rfl, rfl, rfl, rfl, rfl, rfl⟩

/-- A key is waited for in raw mode. -/
theorem readKey_steps (timeout : Nat) (w : Window) : Steps w (w.readKey timeout).2 := by
  cases hended : w.ended with
  | true => rw [readKey_of_ended hended]
  | false =>
    rw [readKey_of_open hended]
    have hraw := w.rawMode_steps
    have hwait := Step.perform (d := .wait (timeout * 1000)) rfl hraw.2
    exact (hraw.1.tail hwait).tail (.other ⟨rfl, rfl, rfl, rfl, rfl, rfl, rfl⟩)

theorem readKeys_steps (timeout n : Nat) (w : Window) :
    Steps w (readKeys timeout n w).2.2 :=
  readKeys_keeps (fun _ => .refl) .trans readKey_steps timeout n w

theorem takeBreak_steps (timeout : Nat) (w : Window) : Steps w (w.takeBreak timeout).2 := by
  have hkeys := readKeys_steps timeout (w.events.length + 1) w
  rw [takeBreak, readAhead_eq]
  exact hkeys.tail (.other ⟨rfl, rfl, rfl, rfl, rfl, rfl, rfl⟩)

theorem rawRead_steps (n timeout : Nat) (w : Window) : Steps w (w.rawRead n timeout).2 := by
  have hsame : SameRecord w { w with keys := w.keys.drop n } :=
    ⟨rfl, rfl, rfl, rfl, rfl, rfl, rfl⟩
  exact (Steps.other hsame).trans (readKeys_steps timeout _ _)

/-- Whatever is asked of a window, it takes only steps of its own. -/
theorem serve_steps (r : Request) (w : Window) : Steps w (w.serve r).2 := by
  cases r with
  | read n timeout => exact w.rawRead_steps n timeout
  | takeBreak timeout => exact w.takeBreak_steps timeout
  | write bytes =>
    have hraw := w.rawMode_steps
    exact hraw.1.trans (writeAll_steps bytes hraw.2)
  | message text => exact w.message_steps text
  | rawMode => exact w.rawMode_steps.1
  | cookedMode => exact w.cookedMode_steps.1

end Window

/-! ## Logs that use the window -/

namespace Host

open Window (Steps)

/-- A message is shown under the settings that were found. -/
theorem report_steps (h : Host Window) (s : Severity) (text : Text) :
    Steps h.console (h.report s text).console := by
  rw [report_shown]
  split
  · split
    · exact h.console.message_steps _
    · exact .refl
  · exact .refl

theorem closeLog_steps (h : Host Window) : Steps h.console h.closeLog.console := by
  unfold closeLog
  split
  · exact h.report_steps _ _
  · exact .refl

theorem openLog_steps {h h' : Host Window} {name : Text} {level : Severity} {keep opened : Bool}
    (hopen : h.openLog name level keep = .ok (opened, h')) : Steps h.console h'.console := by
  unfold openLog at hopen
  split at hopen
  · cases hopen
    exact .refl
  · split at hopen
    · cases hopen
    · have hclose := h.closeLog_steps
      dsimp only at hopen
      split at hopen
      · cases hopen
        exact hclose.trans (report_steps _ _ _)
      · rename_i path files _
        cases hopen
        exact hclose.trans (report_steps (modifyLog { h.closeLog with files } _) _ _)

end Host

/-- What can be asked of a window and of a log beside it. -/
inductive Use where
  | window (r : Window.Request)
  | attachLog (l : Log)
  | detachLog
  | setLevel (level : Severity)
  | openLog (name : Text) (level : Severity) (keep : Bool)
  | closeLog
  | report (s : Severity) (text : Text)
  | reportFormatted (s : Severity) (text : Text)

namespace Use

open Simulator (shutDown)
open Window (SetLast)

def perform : Use → Host Window → Except Fault (Host Window)
  | window r, h => .ok { h with console := (h.console.serve r).2 }
  | attachLog l, h => h.attachLog l
  | detachLog, h => .ok h.detachLog
  | setLevel level, h => .ok (h.modifyLog fun l => { l with level })
  | openLog name level keep, h => (h.openLog name level keep).map (·.2)
  | closeLog, h => .ok h.closeLog
  | report s text, h => .ok (h.report s text)
  | reportFormatted s text, h => .ok (h.reportFormatted s text)

def performAll : List Use → Host Window → Except Fault (Host Window)
  | [], h => .ok h
  | u :: rest, h =>
    match u.perform h with
    | .ok h => performAll rest h
    | .error e => .error e

/-- Every use of the window or of its log consists of steps. -/
theorem perform_steps {u : Use} {h h' : Host Window} (hu : u.perform h = .ok h') :
    Window.Steps h.console h'.console := by
  cases u with
  | window r =>
    cases hu
    exact h.console.serve_steps r
  | attachLog l =>
    rw [perform, Host.attachLog] at hu
    split at hu
    · cases hu
    · cases hu
      exact .refl
  | detachLog | closeLog =>
    cases hu
    exact h.closeLog_steps
  | setLevel level =>
    cases hu
    exact .refl
  | openLog name level keep =>
    rw [perform] at hu
    cases hopen : h.openLog name level keep with
    | error e =>
      rw [hopen] at hu
      cases hu
    | ok x =>
      rw [hopen] at hu
      cases hu
      exact Host.openLog_steps hopen
  | report s text | reportFormatted s text =>
    cases hu
    exact h.report_steps _ _

theorem performAll_steps {uses : List Use} {h h' : Host Window}
    (huses : performAll uses h = .ok h') : Window.Steps h.console h'.console := by
  induction uses generalizing h with
  | nil =>
    cases huses
    exact .refl
  | cons u rest ih =>
    rw [performAll] at huses
    split at huses
    · rename_i h₁ hu
      exact (perform_steps hu).trans (ih huses)
    · cases huses

/-- The settings of the terminal always fit what is done, and after the end of the log and of the
window they are those that were found. Without a terminal no settings are ever given. -/
theorem performAll_settingsFit {isTerminal : Bool} {found : TerminalMode} {events : List KeyEvent}
    {writes : List WriteEvent} {files : FileStore} {now : Moment} {uses : List Use}
    {h : Host Window}
    (huses : performAll uses (.new { Window.new isTerminal events writes with found } files now) =
      .ok h) (succeeded : Bool) :
    h.console.SettingsFit isTerminal found ∧
      (shutDown succeeded h).host.console.SettingsFit isTerminal found ∧
      (isTerminal = true →
        SetLast found false (shutDown succeeded h).host.console.deeds.toList) := by
  have hnew := Window.new_inOrder isTerminal found events writes
  have hsteps := performAll_steps huses
  have hcooked := (h.detachLog.console).cookedMode_steps
  have hend : Window.Steps { Window.new isTerminal events writes with found }
      (shutDown succeeded h).host.console :=
    (hsteps.trans h.closeLog_steps).trans hcooked.1
  refine ⟨(hnew.steps hsteps).settingsFit hsteps.setting,
    (hnew.steps hend).settingsFit hend.setting, ?_⟩
  intro hterminal
  have hmode := (hnew.steps hend).mode (hend.setting.1.trans hterminal)
  rw [hend.setting.2] at hmode
  have hraw : (shutDown succeeded h).host.console.inRawMode = false := hcooked.2
  rwa [hraw] at hmode

/-- A key is read, a message interrupts the output of the simulated machine, and a break is looked
for. The settings change four times, and the last change is made only in the end. -/
theorem performAll_settingsFit_message :
    ∃ (found : TerminalMode) (h : Host Window),
      performAll [.attachLog (.new "LC3SIM" true), .window (.read 1 100), .window (.write [0x41]),
          .report .warning "break", .closeLog, .window (.takeBreak 0)]
        (.new { Window.new true [.byte 0x42] [] with found } (.empty []) default) = .ok h ∧
      h.console.settings = #[found.raw, found, found.raw] ∧
      (shutDown true h).host.console.settings = #[found.raw, found, found.raw, found] ∧
      (shutDown true h).host.console.SettingsFit true found := by
  let found : TerminalMode := { TerminalMode.cooked with echoes := false }
  let uses : List Use :=
    [.attachLog (.new "LC3SIM" true), .window (.read 1 100), .window (.write [0x41]),
      .report .warning "break", .closeLog, .window (.takeBreak 0)]
  let start : Host Window :=
    .new { Window.new true [.byte 0x42] [] with found } (.empty []) default
  let h := (performAll uses start).toOption.getD start
  have huses : performAll uses start = .ok h := rfl
  obtain ⟨-, hend, -⟩ := performAll_settingsFit huses true
  exact ⟨found, h, huses, by decide +kernel, by decide +kernel, hend⟩

end Use

end LittleComputer
