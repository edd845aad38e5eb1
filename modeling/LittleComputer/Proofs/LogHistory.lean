import LittleComputer.Console.Script
import LittleComputer.Proofs.LogFiles
import Mathlib.Data.List.TakeWhile

/-!
# Log files lose nothing

Whatever is asked of a log, each log file holds exactly the messages that it should, in order. A
request makes some things happen (`LogRequest.happenings`), and so what was asked of a log gives the
history by which `Host.Trail` says what is in the files.
-/

namespace LittleComputer

/-! ## Requests -/

/-- What can be asked of a log. Between requests time passes. -/
inductive LogRequest where
  | openLog (name : Text) (level : Severity) (keep : Bool) (named : name ≠ [])
  | closeLog
  | setLevel (level : Severity)
  /-- Log a message if it is wanted anywhere. -/
  | report (s : Severity) (text : Text)
  | reportFormatted (s : Severity) (text : Text)
  /-- Print a message without asking whether it is wanted. -/
  | print (s : Severity) (text : Text)
  | printFormatted (s : Severity) (text : Text)
  | wait (now : Moment)

variable {κ : Type} [Console κ]

def LogRequest.perform (h : Host κ) : LogRequest → Except Fault (Host κ)
  | openLog name level keep _ =>
    match h.openLog name level keep with
    | .ok (_, h) => .ok h
    | .error e => .error e
  | closeLog => .ok h.closeLog
  | setLevel level => .ok (h.modifyLog fun l => { l with level })
  | report s text => .ok (h.report s text)
  | reportFormatted s text => .ok (h.reportFormatted s text)
  | print s text => .ok (h.send s text)
  | printFormatted s text => .ok (h.send s (Log.formatted text))
  | wait now => .ok { h with now }

namespace Host

/-- What happens when the log file is closed, if there is one. -/
def closing (h : Host κ) : List Happening :=
  match h.openFile? with
  | some file => [.sent ⟨h.now, .debug, Text.untilNul ("log " ++ file.name ++ " closed")⟩, .closed]
  | none => []

/-- What happens when a log file is opened after the previous one was closed. -/
def opening (h : Host κ) (name : Text) (level : Severity) (keep : Bool) : List Happening :=
  match h.files.create name keep with
  | .ok (path, _) =>
    [.opened ⟨path, name, level⟩ keep,
      .sent ⟨h.now, .debug, Text.untilNul ("log " ++ name ++ " opened")⟩]
  | .error e =>
    [.sent ⟨h.now, .command,
      Text.untilNul ("unable to open log " ++ name ++ " - " ++ e.message)⟩]

end Host

/-- What a request makes happen. A message happens whether or not it is wanted anywhere. -/
def LogRequest.happenings (h : Host κ) : LogRequest → List Happening
  | openLog name level keep _ =>
    h.closing ++ h.closeLog.opening (withDefaultExtension name ".log") level keep
  | closeLog => h.closing
  | report s text | print s text => [.sent ⟨h.now, s, Text.untilNul text⟩]
  | reportFormatted s text | printFormatted s text => [.sent ⟨h.now, s, Log.formatted text⟩]
  | setLevel _ | wait _ => []

namespace Host

/-- The world after some requests, the first one first. -/
def after (h : Host κ) : List LogRequest → Except Fault (Host κ)
  | [] => .ok h
  | r :: rest =>
    match r.perform h with
    | .ok h => h.after rest
    | .error e => .error e

/-- What some requests make happen. -/
def history (h : Host κ) : List LogRequest → List Happening
  | [] => []
  | r :: rest =>
    r.happenings h ++
      match r.perform h with
      | .ok h => h.history rest
      | .error _ => []

/-- A log is attached, and its file has a name if it is open. -/
structure Logs (h : Host κ) : Prop where
  attached : h.log.isSome = true
  named : ∀ file, h.openFile? = some file → file.name ≠ []

variable {h h₁ h' : Host κ}

/-! ## What a request does -/

/-- The levels are tested when a message is reported and again when it is sent, with the same
result. -/
theorem report_eq_send (h : Host κ) (s : Severity) (text : Text) :
    h.report s text = h.send s text := by
  unfold report isLogged send
  cases h.log with
  | none => rfl
  | some l =>
    dsimp only
    split
    · rfl
    · rename_i hn
      rw [Log.isLogged, Bool.or_eq_true, not_or, Bool.not_eq_true, Bool.not_eq_true] at hn
      obtain ⟨hshown, hfiled⟩ := hn
      have hfile : h.fileMessage l s (Text.untilNul text) = h := by
        unfold fileMessage
        unfold Log.isFiled at hfiled
        cases hl : l.file with
        | none => rfl
        | some file =>
          rw [hl] at hfiled
          exact if_neg (of_decide_eq_false hfiled)
      rw [hfile, showMessage, hshown]
      rfl

theorem send_log (h : Host κ) (s : Severity) (text : Text) : (h.send s text).log = h.log := by
  rw [← report_eq_send, report_log]

theorem Trail.of_sent (h : Host κ) (s : Severity) (text : Text) :
    Trail h [.sent ⟨h.now, s, Text.untilNul text⟩] (h.send s text) :=
  .cons (.sent h s text) (.nil _)

/-- A formatted message has no zero byte, so nothing but its length is cut. -/
theorem untilNul_formatted (text : Text) :
    Text.untilNul (Log.formatted text) = Log.formatted text := by
  apply Text.untilNul_of_notMem
  intro hzero
  rw [Log.formatted, Text.untilNul] at hzero
  have hbefore := List.mem_takeWhile_imp (List.mem_of_mem_take hzero)
  cases hbefore

/-- A message that was formatted first is one message sent, as formatting leaves no zero byte. -/
theorem Trail.of_formatted (h : Host κ) (s : Severity) (text : Text) :
    Trail h [.sent ⟨h.now, s, Log.formatted text⟩] (h.send s (Log.formatted text)) := by
  have hsent := Trail.of_sent h s (Log.formatted text)
  rwa [untilNul_formatted] at hsent

theorem closeLog_trail (h : Host κ) : Trail h h.closing h.closeLog := by
  unfold closing closeLog
  change Trail h _ (match h.openFile? with | some file => _ | none => _)
  split
  · rw [report_eq_send]
    exact (Trail.of_sent h _ _).append (.cons (.closed _) (.nil _))
  · exact .nil h

theorem closeLog_openFile? (h : Host κ) : h.closeLog.openFile? = none := by
  unfold closeLog
  split
  · exact (Happens.closed _).openFile?
  · assumption

theorem closeLog_log (h : Host κ) : h.closeLog.log.isSome = h.log.isSome := by
  unfold closeLog
  split
  · rw [modifyLog, report_log, Option.isSome_map]
  · rfl

/-- The world right after a file was opened for the log, and before the message that says so. -/
def withFile (h : Host κ) (files : FileStore) (file : LogFile) : Host κ :=
  { h with files }.modifyLog fun l => { l with file := some file }

/-- The two ways in which a log file is opened. -/
theorem openLog_cases (hlog : h.log.isSome = true) {name : Text} (hname : name ≠ [])
    (level : Severity) (keep : Bool) :
    let full := withDefaultExtension name ".log"
    (∃ path files, h.closeLog.files.create full keep = .ok (path, files) ∧
      h.openLog name level keep =
        .ok (true, (h.closeLog.withFile files ⟨path, full, level⟩).send .debug
          ("log " ++ full ++ " opened"))) ∨
    (∃ e, h.closeLog.files.create full keep = .error e ∧
      h.openLog name level keep =
        .ok (false, h.closeLog.send .command
          ("unable to open log " ++ full ++ " - " ++ e.message))) := by
  intro full
  unfold openLog
  rw [if_neg (by rw [Option.isNone_iff_eq_none]; exact Option.isSome_iff_ne_none.mp hlog),
    if_neg hname]
  dsimp only
  cases hcreate : h.closeLog.files.create full keep with
  | ok created =>
    obtain ⟨path, files⟩ := created
    exact .inl ⟨path, files, rfl, by rw [← report_eq_send]; rfl⟩
  | error e => exact .inr ⟨e, rfl, by rw [← report_eq_send]⟩

omit [Console κ] in
theorem withFile_openFile? (hlog : h.log.isSome = true) (files : FileStore) (file : LogFile) :
    (h.withFile files file).openFile? = some file := by
  obtain ⟨l, hl⟩ := Option.isSome_iff_exists.mp hlog
  simp [withFile, openFile?, modifyLog, hl]

theorem withDefaultExtension_ne_nil {name : Text} (h : name ≠ []) :
    withDefaultExtension name ".log" ≠ [] := by
  unfold withDefaultExtension
  split
  · exact h
  · exact List.append_ne_nil_of_left_ne_nil h _

omit [Console κ] in
/-- A log that has a file still has its name after a request. -/
theorem Logs.of_openFile? (hh : h.Logs) (hlog : h'.log.isSome = true)
    (hfile : ∀ file, h'.openFile? = some file → h.openFile? = some file ∨ file.name ≠ []) :
    h'.Logs := by
  refine ⟨hlog, fun file hopen => ?_⟩
  rcases hfile file hopen with hold | hname
  · exact hh.named file hold
  · exact hname

theorem Logs.send (hh : h.Logs) (s : Severity) (text : Text) : (h.send s text).Logs :=
  hh.of_openFile? (by rw [send_log]; exact hh.attached) fun file hopen =>
    .inl (by rwa [send_openFile?] at hopen)

theorem Logs.closeLog (hh : h.Logs) : h.closeLog.Logs :=
  hh.of_openFile? (by rw [closeLog_log]; exact hh.attached) fun file hopen => by
    rw [closeLog_openFile?] at hopen
    cases hopen

omit [Console κ] in
theorem Logs.withFile (hh : h.Logs) (files : FileStore) {file : LogFile} (hname : file.name ≠ []) :
    (h.withFile files file).Logs :=
  hh.of_openFile? (by rw [Host.withFile, modifyLog, Option.isSome_map]; exact hh.attached)
    fun other hopen => by
      rw [withFile_openFile? hh.attached] at hopen
      cases hopen
      exact .inr hname

/-- Every request is answered, makes its happenings happen and leaves a named log file or none. -/
theorem Logs.perform (hh : h.Logs) (r : LogRequest) :
    ∃ h', r.perform h = .ok h' ∧ Trail h (r.happenings h) h' ∧ h'.Logs := by
  cases r with
  | openLog name level keep named =>
    have hfull := withDefaultExtension_ne_nil named
    rw [LogRequest.perform, LogRequest.happenings, opening]
    rcases openLog_cases hh.attached named level keep with
      ⟨path, files, hcreate, hopen⟩ | ⟨e, hcreate, hopen⟩
    · rw [hopen, hcreate]
      refine ⟨_, rfl, (closeLog_trail h).append ?_, (hh.closeLog.withFile files hfull).send _ _⟩
      exact .cons (.opened hh.closeLog.attached hcreate) (Trail.of_sent _ _ _)
    · rw [hopen, hcreate]
      exact ⟨_, rfl, (closeLog_trail h).append (Trail.of_sent _ _ _), hh.closeLog.send _ _⟩
  | closeLog => exact ⟨_, rfl, closeLog_trail h, hh.closeLog⟩
  | setLevel level =>
    have hopen : (h.modifyLog fun l => { l with level }).openFile? = h.openFile? := by
      unfold openFile? modifyLog
      cases h.log <;> rfl
    refine ⟨_, rfl, .quiet rfl hopen, hh.of_openFile? ?_ ?_⟩
    · rw [modifyLog, Option.isSome_map]
      exact hh.attached
    · exact fun file hfile => .inl (hopen.symm.trans hfile)
  | report s text =>
    rw [LogRequest.perform, report_eq_send]
    exact ⟨_, rfl, Trail.of_sent h s text, hh.send s text⟩
  | print s text => exact ⟨_, rfl, Trail.of_sent h s text, hh.send s text⟩
  | reportFormatted s text =>
    rw [LogRequest.perform, reportFormatted, report_eq_send]
    exact ⟨_, rfl, Trail.of_formatted h s text, hh.send s _⟩
  | printFormatted s text => exact ⟨_, rfl, Trail.of_formatted h s text, hh.send s _⟩
  | wait now =>
    exact ⟨_, rfl, .quiet rfl rfl, hh.attached, hh.named⟩

/-- Any requests succeed, their effect is the trail of their history, and the log stays well
formed. -/
theorem Logs.after (hh : h.Logs) (requests : List LogRequest) :
    ∃ h', h.after requests = .ok h' ∧ Trail h (h.history requests) h' ∧ h'.Logs := by
  induction requests generalizing h with
  | nil => exact ⟨h, rfl, .nil h, hh⟩
  | cons r rest ih =>
    obtain ⟨h₁, hfirst, htrail, hh₁⟩ := hh.perform r
    obtain ⟨h', hrest, hmore, hh'⟩ := ih hh₁
    rw [Host.after, history, hfirst]
    exact ⟨h', hrest, htrail.append hmore, hh'⟩

theorem after_append {before rest : List LogRequest} (hbefore : h.after before = .ok h₁) :
    h.after (before ++ rest) = h₁.after rest := by
  induction before generalizing h with
  | nil =>
    cases hbefore
    rfl
  | cons r before ih =>
    rw [List.cons_append, Host.after]
    rw [Host.after] at hbefore
    cases hr : r.perform h with
    | ok h₂ =>
      rw [hr] at hbefore
      exact ih hbefore
    | error e =>
      rw [hr] at hbefore
      cases hbefore

/-! ## What holds after any requests -/

omit [Console κ] in
/-- The log has a file name exactly if it has an open file, and without one its level is silence. -/
theorem Logs.fileName_iff (hh : h.Logs) :
    ∃ l, h.log = some l ∧ (l.file.isSome = true ↔ l.fileName ≠ []) ∧
      (l.file = none → l.fileLevel = .silent) := by
  obtain ⟨l, hl⟩ := Option.isSome_iff_exists.mp hh.attached
  have hnamed := hh.named
  rw [openFile?, hl, Option.bind_some] at hnamed
  refine ⟨l, hl, ?_, fun hnone => by rw [Log.fileLevel, hnone]; rfl⟩
  rw [Log.fileName]
  cases hfile : l.file with
  | none => exact ⟨fun hsome => absurd hsome Bool.false_ne_true, fun hname => absurd rfl hname⟩
  | some file => exact ⟨fun _ => hnamed file hfile, fun _ => rfl⟩

/-- Without a log file a message changes no file. -/
theorem send_files (hnone : h.openFile? = none) (s : Severity) (text : Text) :
    (h.send s text).files = h.files := by
  unfold send
  split
  · rename_i l hl
    rw [openFile?, hl, Option.bind_some] at hnone
    rw [showMessage_files, fileMessage, hnone]
  · rfl

/-- A request for a file says whether it opened one, and if not leaves only the old one closed. -/
theorem Logs.opening (hh : h.Logs) {name : Text} (hname : name ≠ []) (level : Severity)
    (keep : Bool) :
    ∃ opened h', h.openLog name level keep = .ok (opened, h') ∧
      opened = (h.closeLog.files.create (withDefaultExtension name ".log") keep).isOk ∧
      (opened = true →
        ∃ path, h'.openFile? = some ⟨path, withDefaultExtension name ".log", level⟩) ∧
      (opened = false → h'.openFile? = none ∧ h'.files = h.closeLog.files) := by
  rcases openLog_cases hh.attached hname level keep with
    ⟨path, files, hcreate, hopen⟩ | ⟨e, hcreate, hopen⟩
  · have hfile := withFile_openFile? hh.closeLog.attached files
      ⟨path, withDefaultExtension name ".log", level⟩
    refine ⟨true, _, hopen, by rw [hcreate]; rfl, fun _ => ⟨path, ?_⟩, nofun⟩
    rwa [send_openFile?]
  · refine ⟨false, _, hopen, by rw [hcreate]; rfl, nofun, fun _ => ⟨?_, ?_⟩⟩
    · rw [send_openFile?, closeLog_openFile?]
    · exact send_files (closeLog_openFile? h) _ _

theorem closeLog_now (h : Host κ) : h.closeLog.now = h.now := by
  unfold closeLog
  split
  · rename_i file _
    show (h.report .debug _).now = h.now
    unfold report send showMessage fileMessage
    repeat' split
    all_goals rfl
  · rfl

/-- A file that was opened holds what was kept of it and the messages that came after. -/
theorem Logs.filed (hh : h₁.Logs) {name : Text} (hname : name ≠ []) {level : Severity}
    {keep : Bool} {h₂ : Host κ} {file : LogFile}
    (hopening : h₁.openLog name level keep = .ok (true, h₂)) (hopen : h₂.openFile? = some file)
    (hrest : Trail h₂ rest h') (hnone : ∀ e ∈ rest, ¬ e.Opens file.path) :
    h'.files.bytesAt? file.path =
      some ((if keep then (h₁.closeLog.files.bytesAt? file.path).getD [] else []) ++
        (Happening.messagesFor level
          (.sent ⟨h₁.now, .debug, Text.untilNul ("log " ++ file.name ++ " opened")⟩ ::
            rest)).flatMap Message.lines) := by
  rcases openLog_cases hh.attached hname level keep with ⟨path, files, hcreate, h₂eq⟩ | ⟨e, -, h₂eq⟩
  · obtain rfl := (Prod.mk.inj (Except.ok.inj (hopening.symm.trans h₂eq))).2
    have hafter := withFile_openFile? hh.closeLog.attached files
      ⟨path, withDefaultExtension name ".log", level⟩
    rw [send_openFile?, hafter] at hopen
    obtain rfl := Option.some.inj hopen
    have hbytes := FileStore.bytesAt?_create hcreate path
    rw [if_pos rfl] at hbytes
    have hall := (Trail.of_sent _ _ _).append hrest
    rw [← closeLog_now]
    exact hall.filed (List.forall_mem_cons.mpr ⟨id, hnone⟩) hafter hbytes
  · cases hopening.symm.trans h₂eq

/-- What holds of a log and its files after some requests, whatever they are. -/
structure LogFilesComplete (start : Host κ) (requests : List LogRequest) (h : Host κ) : Prop where
  /-- A file is open if and only if the log tells its name, and without one nothing is filed. -/
  named : ∃ l, h.log = some l ∧ (l.file.isSome = true ↔ l.fileName ≠ []) ∧
    (l.file = none → l.fileLevel = .silent)
  /-- A file is open after it could be opened, and otherwise the last one is closed. -/
  opening : ∀ name level keep, name ≠ [] →
    ∃ opened h', h.openLog name level keep = .ok (opened, h') ∧
      opened = (h.closeLog.files.create (withDefaultExtension name ".log") keep).isOk ∧
      (opened = true →
        ∃ path, h'.openFile? = some ⟨path, withDefaultExtension name ".log", level⟩) ∧
      (opened = false → h'.openFile? = none ∧ h'.files = h.closeLog.files)
  /-- What was never opened is as it was. -/
  unopened : ∀ path, (∀ e ∈ start.history requests, ¬ e.Opens path) →
    h.files.bytesAt? path = start.files.bytesAt? path
  /-- What was opened holds the messages from then on, until it was closed, after what it held
  before. -/
  filed : ∀ before name level keep named rest h₁ h₂ file,
    requests = before ++ .openLog name level keep named :: rest →
    start.after before = .ok h₁ → h₁.openLog name level keep = .ok (true, h₂) →
    h₂.openFile? = some file → (∀ e ∈ h₂.history rest, ¬ e.Opens file.path) →
    let old := if keep then (h₁.closeLog.files.bytesAt? file.path).getD [] else []
    let messages := Happening.messagesFor level
      (.sent ⟨h₁.now, .debug, Text.untilNul ("log " ++ file.name ++ " opened")⟩ :: h₂.history rest)
    h.files.bytesAt? file.path = some (old ++ messages.flatMap Message.lines) ∧
      Message.unstamped (messages.flatMap Message.lines) =
        messages.flatMap fun m => m.text ++ [Byte.newline]

/-- Log files lose, repeat and reorder nothing. Every sequence of requests to a new log is answered,
and each file holds the lines of the messages that were sent while it was open. -/
theorem logFiles_complete (start : Host κ) (program : Text) (toConsole : Bool)
    (hstart : start.log = some (Log.new program toConsole)) (requests : List LogRequest) :
    ∃ h, start.after requests = .ok h ∧ start.LogFilesComplete requests h := by
  have hclosed : start.openFile? = none := by
    rw [openFile?, hstart]
    rfl
  have hnone : ∀ {p : LogFile → Prop} file, start.openFile? = some file → p file := by
    intro p file hopen
    rw [hclosed] at hopen
    cases hopen
  have hlogs : start.Logs := ⟨by rw [hstart]; rfl, hnone⟩
  obtain ⟨h, hafter, htrail, hh⟩ := hlogs.after requests
  refine ⟨h, hafter, hh.fileName_iff, fun name level keep hname => hh.opening hname level keep,
    fun path hunopened => (htrail.unopened hunopened hnone).1, ?_⟩
  intro before name level keep named rest h₁ h₂ file hrequests hbefore hopening hopen honce
  obtain ⟨h₁', hbefore', -, hh₁⟩ := hlogs.after before
  obtain rfl := Except.ok.inj (hbefore'.symm.trans hbefore)
  rw [hrequests, after_append hbefore, Host.after, LogRequest.perform, hopening] at hafter
  obtain ⟨h₃, hopened, -, hh₂⟩ := hh₁.perform (.openLog name level keep named)
  rw [LogRequest.perform, hopening] at hopened
  obtain rfl := Except.ok.inj hopened
  obtain ⟨h'', hrest, hmore, -⟩ := hh₂.after rest
  obtain rfl := Except.ok.inj (hrest.symm.trans hafter)
  exact ⟨hh₁.filed named hopening hopen hmore honce, Message.unstamped_lines _⟩

/-- A log that is opened twice. The second time only errors are filed. -/
theorem logFiles_complete_reopened :
    ∃ (start : Host Script) (requests : List LogRequest) (text : Text),
      start.log = some (Log.new "LC3" false) ∧ requests.length = 6 ∧
      text = Text.ofString (
        "12:34:56.789 DEBUG\tlog run.log opened\n" ++
        "12:34:56.789 WARN\tone\n12:34:56.789 WARN\t\n12:34:56.789 WARN\ttwo\n" ++
        "12:34:56.789 DEBUG\tlog run.log closed\n12:34:56.789 ERROR\tthree\n") ∧
      ∃ h, start.after requests = .ok h ∧ start.LogFilesComplete requests h ∧
        h.files.bytesAt? ["run.log"] = some text := by
  let start : Host Script :=
    { Host.new (Script.ofEntries [] 0) (FileStore.empty []) ⟨45296, 789000⟩ with
      log := some (Log.new "LC3" false) }
  let requests : List LogRequest :=
    [.openLog "run" .debug false (by decide), .report .warning "one\n\ntwo",
      .setLevel .silent, .openLog "run.log" .error true (by decide),
      .print .warning "lost", .printFormatted .error "three"]
  obtain ⟨h, hafter, hcomplete⟩ := logFiles_complete start "LC3" false rfl requests
  refine ⟨start, requests, _, rfl, rfl, rfl, h, hafter, hcomplete, ?_⟩
  suffices hresult : (start.after requests).toOption.bind (·.files.bytesAt? ["run.log"]) = some _ by
    rwa [hafter] at hresult
  decide +kernel

end Host

end LittleComputer
