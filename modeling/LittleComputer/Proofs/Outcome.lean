import LittleComputer.Proofs.CommandLine
import LittleComputer.Proofs.Faults
import LittleComputer.Proofs.ImageLoading
import LittleComputer.Proofs.Preparation
import LittleComputer.Proofs.StopCodes

/-!
# How the program ends

The program succeeds if its command line is accepted, the log file can be opened, every image is
loaded and the run ends with a call to halt, and it fails in every other case. If it fails before
the run, it has done nothing but show messages.
-/

namespace LittleComputer

open Window (SameInput)

/-! ## Messages alone -/

namespace Window

def tellAll (lines : List Text) (w : Window) : Window := lines.foldl tell w

theorem tellAll_sameInput (lines : List Text) (w : Window) : SameInput w (tellAll lines w) := by
  induction lines generalizing w with
  | nil => exact .refl w
  | cons line rest ih =>
    have htell : SameInput w (w.tell line) := ⟨rfl, rfl, rfl, rfl, rfl, rfl⟩
    exact htell.trans (ih (w.tell line))

theorem tellAll_inRawMode (lines : List Text) (w : Window) :
    (tellAll lines w).inRawMode = w.inRawMode := by
  induction lines generalizing w with
  | nil => rfl
  | cons line rest ih => exact ih (w.tell line)

theorem cookedMode_of_cooked {w : Window} (hraw : w.inRawMode = false) : w.cookedMode = w :=
  if_neg (by rw [hraw]; decide)

end Window

namespace Simulator

/-- The line that the window shows for a message of the program. -/
def messageLine (message : Severity × Text) : Text :=
  Text.untilNul ((Log.new programName true).shownLine message.1 (Text.untilNul message.2))

/-- All that was done with the window since it was `start` is to show messages of the program, and
nothing went to the standard error output. -/
structure OnlyMessages (start : Window) (host : Host Window) : Prop where
  console : ∃ messages : List (Severity × Text),
    host.console = Window.tellAll (messages.map messageLine) start
  errors : host.errors = #[]

/-- Messages touch nothing of the input. -/
theorem OnlyMessages.sameInput {start : Window} {host : Host Window}
    (h : OnlyMessages start host) : SameInput start host.console := by
  obtain ⟨messages, hm⟩ := h.console
  rw [hm]
  exact Window.tellAll_sameInput _ _

/-- Besides, the log of the program is there. -/
structure Logging (start : Window) (host : Host Window) : Prop
    extends OnlyMessages start host where
  cooked : start.inRawMode = false
  log : ∃ l, host.log = some l ∧ l.toConsole = true ∧ l.program = programName

namespace Logging

variable {start : Window} {host : Host Window}

/-- One more message is shown or not, and nothing else happens to the window. -/
theorem report (h : Logging start host) (s : Severity) (text : Text) :
    Logging start (host.report s text) := by
  obtain ⟨l, hl, hconsole, hprogram⟩ := h.log
  obtain ⟨messages, hm⟩ := h.console
  refine ⟨⟨?_, ?_⟩, h.cooked, l, (host.report_log s text).trans hl, hconsole, hprogram⟩
  · rw [Host.report_shown, hl]
    dsimp only
    rw [hconsole, Bool.and_true]
    split
    · refine ⟨messages ++ [(s, text)], ?_⟩
      have hline : Text.untilNul (l.shownLine s (Text.untilNul text)) = messageLine (s, text) := by
        rw [messageLine, Log.shownLine, hprogram]
        rfl
      have hraw : host.console.inRawMode = false := by
        rw [hm, Window.tellAll_inRawMode, h.cooked]
      show (host.console.cookedMode.tell _) = _
      rw [Window.cookedMode_of_cooked hraw, hline, hm, List.map_append, Window.tellAll,
        Window.tellAll, List.foldl_append]
      rfl
    · exact ⟨messages, hm⟩
  · rw [Host.report_errors, hl]
    dsimp only
    rw [hconsole, Bool.not_true, Bool.and_false, if_neg (by decide), h.errors]

theorem reportAll (h : Logging start host) (s : Severity) (texts : List Text) :
    Logging start (texts.foldl (·.report s ·) host) := by
  induction texts generalizing host with
  | nil => exact h
  | cons text rest ih => exact ih (h.report s text)

theorem modifyLog (h : Logging start host) {f : Log → Log}
    (hf : ∀ l, (f l).toConsole = l.toConsole ∧ (f l).program = l.program) :
    Logging start (host.modifyLog f) := by
  obtain ⟨l, hl, hconsole, hprogram⟩ := h.log
  refine ⟨⟨h.console, h.errors⟩, h.cooked, f l, ?_, (hf l).1.trans hconsole,
    (hf l).2.trans hprogram⟩
  rw [Host.modifyLog, hl]
  rfl

/-- Closing the log sends a message at most. -/
theorem closeLog (h : Logging start host) : Logging start host.closeLog := by
  unfold Host.closeLog
  split
  · exact (h.report _ _).modifyLog fun _ => ⟨rfl, rfl⟩
  · exact h

theorem with_files (h : Logging start host) (files : FileStore) :
    Logging start { host with files } :=
  ⟨⟨h.console, h.errors⟩, h.cooked, h.log⟩

/-- The end of the program gives the window back as it is. -/
theorem shutDown (h : Logging start host) (succeeded : Bool) :
    OnlyMessages start (shutDown succeeded host).host := by
  have hclosed := h.closeLog
  obtain ⟨messages, hm⟩ := hclosed.console
  refine ⟨⟨messages, ?_⟩, hclosed.errors⟩
  have hraw : host.closeLog.console.inRawMode = false := by
    rw [hm, Window.tellAll_inRawMode, h.cooked]
  exact (Window.cookedMode_of_cooked hraw).trans hm

end Logging

/-! ## The log file -/

/-- The host with the log of the program. -/
def logged (host : Host Window) : Host Window :=
  { host with log := some (.new programName true) }

theorem logging_logged {start : Window} (hcooked : start.inRawMode = false) (files : FileStore)
    (now : Moment) : Logging start (logged (.new start files now)) :=
  ⟨⟨⟨[], rfl⟩, rfl⟩, hcooked, _, rfl, rfl, rfl⟩

/-- The log file that the options ask for can be made. -/
def LogOpens (o : Options) (files : FileStore) : Prop :=
  o.logFile = [] ∨
    ∃ made, files.create (withDefaultExtension o.logFile ".log") false = .ok made

/-- There is nothing to close before a log gets its first file. -/
theorem openLog_first {host : Host Window} {l : Log} (hl : host.log = some l)
    (hfile : l.file = none) {name : Text} (hname : name ≠ []) (level : Severity) (keep : Bool) :
    host.openLog name level keep =
      match host.files.create (withDefaultExtension name ".log") keep with
      | .error e =>
        .ok (false, host.report .command
          ("unable to open log " ++ withDefaultExtension name ".log" ++ " - " ++ e.message))
      | .ok (path, files) =>
        .ok (true, (({ host with files } : Host Window).modifyLog fun l =>
          { l with file := some { path, name := withDefaultExtension name ".log", level } }).report
            .debug ("log " ++ withDefaultExtension name ".log" ++ " opened")) := by
  rw [Host.openLog, Host.closeLog_of_no_file hl hfile, if_neg (by simp [hl])]
  exact if_neg hname

/-- Setting up the log of the program always comes to an end. -/
theorem configureLog_opens (o : Options) (host : Host Window) :
    ∃ opened host', configureLog o (logged host) = .ok (opened, host') ∧
      (opened = true ↔ LogOpens o host.files) ∧
      ∀ start, Logging start (logged host) → Logging start host' := by
  obtain ⟨levelled, l, hlevelled, hl, hfile, hfiles, hkept⟩ : ∃ levelled l, (if o.debug then
      (logged host).modifyLog fun l =>
        { l with level := if o.trace then Severity.trace else Severity.debug }
      else logged host) = levelled ∧ levelled.log = some l ∧ l.file = none ∧
        levelled.files = host.files ∧
        ∀ start, Logging start (logged host) → Logging start levelled := by
    split
    · exact ⟨_, _, rfl, rfl, rfl, rfl, fun start h => h.modifyLog fun _ => ⟨rfl, rfl⟩⟩
    · exact ⟨_, _, rfl, rfl, rfl, rfl, fun start h => h⟩
  unfold configureLog
  dsimp only
  rw [hlevelled]
  by_cases hname : o.logFile = []
  · rw [if_pos hname]
    exact ⟨true, _, rfl, ⟨fun _ => .inl hname, fun _ => rfl⟩, hkept⟩
  · rw [if_neg hname, openLog_first hl hfile hname, hfiles]
    cases hcreate : host.files.create (withDefaultExtension o.logFile ".log") false with
    | error e =>
      refine ⟨false, _, rfl, ⟨nofun, ?_⟩, fun start h => (hkept start h).report _ _⟩
      rintro (hempty | ⟨made, hmade⟩)
      · exact absurd hempty hname
      · cases hcreate.symm.trans hmade
    | ok made =>
      refine ⟨true, _, rfl, ⟨fun _ => .inr ⟨made, hcreate⟩, fun _ => rfl⟩, ?_⟩
      intro start h
      refine Logging.report (Logging.modifyLog ((hkept start h).with_files made.2) ?_) _ _
      exact fun _ => ⟨rfl, rfl⟩

/-! ## The images -/

/-- Loading the images one after the other leads from one machine to the other, and every one of
them is loaded. -/
inductive Loads : List Text → Machine Window → Machine Window → Prop where
  | nil (m : Machine Window) : Loads [] m m
  | cons {name : Text} {rest : List Text} {m m₁ m' : Machine Window} {n : Nat}
      {origin : Option Word} (hload : Machine.loadImage name m = .ok (⟨some n, origin⟩, m₁))
      (hrest : Loads rest m₁ m') : Loads (name :: rest) m m'

/-- All images are loaded, of which there is one at least. After the first one the program counter
is moved to its origin. -/
inductive LoadsAll : List Text → Machine Window → Machine Window → Prop where
  | intro {name : Text} {rest : List Text} {m m₁ m' : Machine Window} {n : Nat} {origin : Word}
      (hload : Machine.loadImage name m = .ok (⟨some n, some origin⟩, m₁))
      (hrest : Loads rest { m₁ with cpu := { m₁.cpu with pc := origin } } m') :
      LoadsAll (name :: rest) m m'

end Simulator

namespace Machine

open Simulator (Logging Loads LoadsAll)

/-- Nothing changes but words and the host, and to the host nothing is done but to show messages. -/
structure OnlyLoads (m m' : Machine Window) : Prop extends SameMarks m m' where
  cpu : m'.cpu = m.cpu
  logging : ∀ start, Logging start m.host → Logging start m'.host

/-- Whatever a loader does, it only places words and reports. -/
theorem kept_onlyLoads : Kept OnlyLoads where
  refl m := ⟨.refl m, rfl, fun _ h => h⟩
  trans h h' :=
    ⟨h.toSameMarks.trans h'.toSameMarks, h'.cpu.trans h.cpu,
      fun start hm => h'.logging start (h.logging start hm)⟩
  report _ s text := ⟨⟨rfl, rfl, rfl⟩, rfl, fun _ h => h.report s text⟩
  place _ _ _ := ⟨⟨rfl, rfl, rfl⟩, rfl, fun _ h => h⟩

/-- Loading an image always comes to an end, and an image that is loaded has the origin that its
file begins with. -/
theorem loadImage_total (name : Text) (m : Machine Window) :
    ∃ result m', loadImage name m = .ok (result, m') ∧
      ∀ n, result.stored = some n → ∃ contents image,
        m.host.files.read name = .ok contents ∧
        Image.ofBytes? contents.bytes.toList = some image ∧ result.origin = some image.origin := by
  rw [loadImage, get_bind]
  cases hread : m.host.files.read name with
  | error e => exact ⟨_, _, rfl, fun _ hn => absurd hn.symm (Option.some_ne_none _)⟩
  | ok contents =>
    dsimp only
    cases himage : Image.ofBytes? contents.bytes.toList with
    | none => exact ⟨_, _, rfl, fun _ hn => absurd hn.symm (Option.some_ne_none _)⟩
    | some image =>
      obtain ⟨host, hplace⟩ := placeImage_run name image contents.failure m rfl
      exact ⟨_, _, hplace, fun _ _ => ⟨contents, image, rfl, himage, rfl⟩⟩

end Machine

namespace Simulator

open Machine (OnlyLoads kept_onlyLoads loadImage_total)

theorem Loads.onlyLoads {names : List Text} {m m' : Machine Window} (h : Loads names m m') :
    OnlyLoads m m' := by
  induction h with
  | nil m => exact kept_onlyLoads.refl m
  | cons hload _ ih => exact kept_onlyLoads.trans (kept_onlyLoads.loadImage _ _ _ _ hload) ih

/-- What comes after an image is done only if the image was loaded. -/
theorem loadImage_bind (name : Text) (next : LoadResult → Action Window Bool)
    (m : Machine Window) :
    (do
      let result ← Machine.loadImage name
      if result.stored.isNone then return false else next result : Action Window Bool) m =
      match Machine.loadImage name m with
      | .error e => .error e
      | .ok (result, m₁) => if result.stored.isNone then .ok (false, m₁) else next result m₁ := by
  rw [Machine.action_bind]
  cases Machine.loadImage name m with
  | error e => rfl
  | ok x =>
    dsimp only
    split
    · rfl
    · rfl

theorem loadRest_cons (name : Text) (rest : List Text) (m : Machine Window) :
    loadImages.loadRest (name :: rest) m =
      match Machine.loadImage name m with
      | .error e => .error e
      | .ok (result, m₁) =>
        if result.stored.isNone then .ok (false, m₁) else loadImages.loadRest rest m₁ :=
  loadImage_bind name (fun _ => loadImages.loadRest rest) m

theorem Loads.loadRest {names : List Text} {m m' : Machine Window} (h : Loads names m m') :
    loadImages.loadRest names m = .ok (true, m') := by
  induction h with
  | nil m => rfl
  | cons hload _ ih => rw [loadRest_cons, hload, ← ih]; rfl

/-- The images after the first one come to an end, and if they succeed, every one was loaded. -/
theorem loadRest_loads (names : List Text) (m : Machine Window) :
    ∃ answer m', loadImages.loadRest names m = .ok (answer, m') ∧
      (answer = true → Loads names m m') := by
  induction names generalizing m with
  | nil => exact ⟨true, m, rfl, fun _ => .nil m⟩
  | cons name rest ih =>
    obtain ⟨⟨stored, origin⟩, m₁, hload, -⟩ := loadImage_total name m
    rw [loadRest_cons, hload]
    cases stored with
    | none => exact ⟨false, m₁, rfl, nofun⟩
    | some n =>
      obtain ⟨answer, m', hrest, hloads⟩ := ih m₁
      exact ⟨answer, m', hrest, fun hanswer => .cons hload (hloads hanswer)⟩

theorem loadImages_cons (name : Text) (rest : List Text) (m : Machine Window) :
    loadImages (name :: rest) m =
      match Machine.loadImage name m with
      | .error e => .error e
      | .ok (result, m₁) =>
        if result.stored.isNone then .ok (false, m₁)
        else loadImages.loadRest rest
          { m₁ with cpu := { m₁.cpu with pc := result.origin.getD 0 } } :=
  loadImage_bind name (fun result m₁ => loadImages.loadRest rest
    { m₁ with cpu := { m₁.cpu with pc := result.origin.getD 0 } }) m

/-- Images that can all be loaded are loaded by the program. -/
theorem LoadsAll.loadImages {names : List Text} {m m' : Machine Window}
    (h : LoadsAll names m m') : loadImages names m = .ok (true, m') := by
  cases h with
  | intro hload hrest =>
    rw [loadImages_cons, hload]
    exact hrest.loadRest

/-- Loading images comes to an end, and it works if it works for every one of them. -/
theorem loadImages_loads {names : List Text} (hne : names ≠ []) (m : Machine Window) :
    ∃ answer m', loadImages names m = .ok (answer, m') ∧
      (∀ start, Logging start m.host → Logging start m'.host) ∧
      (answer = true → LoadsAll names m m') := by
  obtain ⟨name, rest, rfl⟩ := List.exists_cons_of_ne_nil hne
  obtain ⟨⟨stored, origin⟩, m₁, hload, hfile⟩ := loadImage_total name m
  have hfirst := kept_onlyLoads.loadImage _ _ _ _ hload
  rw [loadImages_cons, hload]
  cases stored with
  | none => exact ⟨false, m₁, rfl, hfirst.logging, nofun⟩
  | some n =>
    obtain ⟨contents, image, -, -, horigin⟩ := hfile n rfl
    obtain rfl : origin = some image.origin := horigin
    obtain ⟨answer, m', hrest, hloads⟩ :=
      loadRest_loads rest { m₁ with cpu := { m₁.cpu with pc := image.origin } }
    refine ⟨answer, m', hrest, ?_, fun hanswer => .intro hload (hloads hanswer)⟩
    intro start h
    exact (loadRest_keeps kept_onlyLoads rest _ _ _ hrest).logging start (hfirst.logging start h)

/-! ## The preparation -/

/-- What the program calls itself. -/
def banner : Text :=
  "LC-3 Simulator v" ++ Text.decimal version ++ " emulator Library v" ++
    Text.decimal libraryVersion

/-- The host once the log is set up. -/
def opened (o : Options) (host : Host Window) : Host Window :=
  match configureLog o (logged host) with
  | .ok (_, host) => host.reportFormatted .debug banner
  | .error _ => host

/-- Everything goes well before the run: the arguments are accepted, the log file can be made and
all images are loaded. The machine `m` is what is run then. -/
structure Starts (arguments : List Text) (host : Host Window) (o : Options)
    (m : Machine Window) : Prop where
  accepted : Options.read arguments = .ok o
  opens : LogOpens o host.files
  loaded : ∃ m₁, LoadsAll o.images (assembled o (opened o host)) m₁ ∧
    m = { m₁ with
      host := m₁.host.reportFormatted .debug ("starting at " ++ Text.address m₁.cpu.pc) }

/-- The end of a command line that is not accepted. -/
def refused (e : CommandLineError) (host : Host Window) : Outcome :=
  shutDown false (e.messages.foldl (·.report .command ·) (logged host))

theorem memory_new : ∃ memory, Memory.new? 65536 = .ok memory := ⟨_, rfl⟩

theorem prepare_of_refused {arguments : List Text} {host : Host Window} {e : CommandLineError}
    (hlog : host.log = none) (hread : Options.read arguments = .error e) :
    prepare arguments host = .ok (.ended (refused e host)) := by
  simp only [prepare, Host.attachLog, hlog, hread]
  rfl

/-- With an accepted command line the preparation comes down to the log file and the images. -/
theorem prepare_of_accepted {arguments : List Text} {host configured : Host Window} {o : Options}
    {open? : Bool} (hlog : host.log = none) (hread : Options.read arguments = .ok o)
    (hconfigure : configureLog o (logged host) = .ok (open?, configured)) :
    prepare arguments host =
      if open? then
        match loadImages o.images (assembled o (opened o host)) with
        | .error e => .error e
        | .ok (true, m) => .ok (.ready o { m with
            host := m.host.reportFormatted .debug ("starting at " ++ Text.address m.cpu.pc) })
        | .ok (false, m) => .ok (.ended (shutDown false m.host))
      else .ok (.ended (shutDown false configured)) := by
  obtain ⟨memory, hmemory⟩ := memory_new
  have hopened : opened o host = configured.reportFormatted .debug banner := by
    rw [opened, hconfigure]
  have hsetUp := setUp_eq o (configured.reportFormatted .debug banner) hmemory
  rw [Machine.action_bind] at hsetUp
  rw [hopened]
  unfold prepare Host.attachLog
  rw [hlog, hread]
  show (configureLog o (logged host) >>= _) = _
  rw [hconfigure]
  cases open? with
  | false => rfl
  | true =>
    dsimp only [bind, Except.bind]
    rw [if_pos rfl, if_pos rfl, hmemory]
    dsimp only
    rw [← banner, hsetUp]
    cases loadImages o.images (assembled o (configured.reportFormatted .debug banner)) with
    | error e => rfl
    | ok x =>
      obtain ⟨answer, m⟩ := x
      cases answer with
      | true => rfl
      | false => rfl

/-- If all goes well, the preparation is ready with the machine that is run. -/
theorem Starts.prepare {arguments : List Text} {host : Host Window} {o : Options}
    {m : Machine Window} (h : Starts arguments host o m) (hlog : host.log = none) :
    prepare arguments host = .ok (.ready o m) := by
  obtain ⟨open?, configured, hconfigure, hopens, -⟩ := configureLog_opens o host
  obtain ⟨m₁, hloads, rfl⟩ := h.loaded
  obtain rfl : open? = true := hopens.mpr h.opens
  rw [prepare_of_accepted hlog h.accepted hconfigure, if_pos rfl, hloads.loadImages]

/-- The preparation always comes to an end. Either the machine is ready because all went well, or
something did not, and then there were only messages. -/
theorem prepare_cases (arguments : List Text) {start : Window} {host : Host Window}
    (hlog : host.log = none) (hlogged : Logging start (logged host)) :
    (∃ o m, prepare arguments host = .ok (.ready o m) ∧ Starts arguments host o m) ∨
      ∃ outcome, prepare arguments host = .ok (.ended outcome) ∧ outcome.succeeded = false ∧
        OnlyMessages start outcome.host := by
  cases hread : Options.read arguments with
  | error e =>
    exact .inr ⟨_, prepare_of_refused hlog hread, rfl,
      (hlogged.reportAll .command e.messages).shutDown false⟩
  | ok o =>
    obtain ⟨open?, configured, hconfigure, hopens, hlogging⟩ := configureLog_opens o host
    have hprepare := prepare_of_accepted hlog hread hconfigure
    have hready : opened o host = configured.reportFormatted .debug banner := by
      rw [opened, hconfigure]
    have hbegin : Logging start (opened o host) := by
      rw [hready]
      exact (hlogging start hlogged).report _ _
    have himages := (Options.read_eq_ok.mp hread).2
    obtain ⟨answer, m, hload, hkept, hloads⟩ :=
      loadImages_loads himages (assembled o (opened o host))
    rw [hload] at hprepare
    cases open? with
    | false =>
      rw [if_neg (by decide)] at hprepare
      exact .inr ⟨_, hprepare, rfl, (hlogging start hlogged).shutDown false⟩
    | true =>
      rw [if_pos rfl] at hprepare
      cases answer with
      | true => exact .inl ⟨_, _, hprepare, hread, hopens.mp rfl, m, hloads rfl, rfl⟩
      | false => exact .inr ⟨_, hprepare, rfl, (hkept start hbegin).shutDown false⟩

/-! ## The machine that is run -/

/-- The machine of the program is made by the requests that any machine is made by. -/
theorem assembled_sound (o : Options) (host : Host Window) : (assembled o host).Sound := by
  let blank : Memory := { Memory.full with ram := .fill false }
  let ordinary : Memory := { blank with
    ram := blank.ram.fillRange 0 0xFFFF true, io := blank.io.fillRange 0 0xFFFF false }
  have hnew : Memory.new? 65536 = .ok blank := rfl
  have hram : (Machine.new blank host).memory.setRam 0 0xFFFF = .ok ordinary := rfl
  let m₀ : Machine Window := { Machine.new ordinary host with
    cpu := { Cpu.initial with stopOnIllegal := !o.ignoreIllegal } }
  have hconfigured : m₀.Configured :=
    (Machine.Configured.request (r := .setRam 0 0xFFFF) (.new hnew host)
      ⟨ordinary, hram, rfl⟩).elsewhere _ ordinary.words host
  have hadded := hconfigured.add (d := terminalId) rfl (.terminal terminalName true)
  have hinstall : Machine.installDevice terminalId
      (m₀.addDevice terminalId (.newTerminal terminalName true)) =
        .ok (true, assembled o host) := rfl
  exact (hadded.request (r := .install terminalId) ⟨true, hinstall⟩).sound

end Simulator

namespace Machine

theorem Sound.of_sameMarks {κ : Type} {m m' : Machine κ} (hm : m.Sound) (h : SameMarks m m') :
    m'.Sound := by
  have heq : m' = { m with
      cpu := m'.cpu, host := m'.host, memory := { m.memory with words := m'.memory.words } } := by
    rw [← h.memory, ← h.map, ← h.devices]
  rw [heq]
  exact hm.elsewhere _ _ _

variable {κ : Type} [Console κ]

/-- The run ends, and the last instruction that it executes is a call to halt. -/
def RunHalts (limit : BitVec 32) (budget : Nat) (m : Machine κ) : Prop :=
  ∃ c m' before last w fetched after, run limit budget m = .ok (c, m') ∧
    Executes (m.stopWith .running) (before ++ [last]) after ∧ m' = after.stopWith c ∧
    Routine.fetch.run last = .ok (w, fetched) ∧ w.IsHalt

end Machine

namespace Simulator

open Machine (kept_onlyLoads loadImage_total)

variable {arguments : List Text} {host : Host Window} {o : Options} {m : Machine Window}

/-- The images bring words and nothing else, and the first one says where the program begins. -/
theorem LoadsAll.inv {names : List Text} {m m' : Machine Window} (h : LoadsAll names m m') :
    ∃ name rest contents image, names = name :: rest ∧
      m.host.files.read name = .ok contents ∧
      Image.ofBytes? contents.bytes.toList = some image ∧
      m.SameMarks m' ∧ m'.cpu = { m.cpu with pc := image.origin } := by
  cases h with
  | @intro name rest m m₁ m' n origin hload hrest =>
    have hfirst := kept_onlyLoads.loadImage _ _ _ _ hload
    have hothers := hrest.onlyLoads
    obtain ⟨result, m₂, hload', hfile⟩ := loadImage_total name m
    cases hload.symm.trans hload'
    obtain ⟨contents, image, hread, himage, horigin⟩ := hfile n rfl
    obtain rfl : origin = image.origin := Option.some.inj horigin
    refine ⟨name, rest, contents, image, rfl, hread, himage, ?_, ?_⟩
    · exact hfirst.toSameMarks.trans ⟨hothers.memory, hothers.map, hothers.devices⟩
    · rw [hothers.cpu, hfirst.cpu]

/-- What is run can break no rule. -/
theorem Starts.sound (h : Starts arguments host o m) : m.Sound := by
  obtain ⟨m₁, hloads, rfl⟩ := h.loaded
  obtain ⟨-, -, -, -, -, -, -, hmarks, -⟩ := hloads.inv
  exact (assembled_sound o (opened o host)).of_sameMarks
    ⟨hmarks.memory, hmarks.map, hmarks.devices⟩

/-- What is run begins with the first image, and does what the arguments ask for. -/
structure Begins (arguments : List Text) (host : Host Window) (o : Options)
    (m : Machine Window) (items : List Options.Item) (image : Image) : Prop where
  valid : ∀ i ∈ items, i.IsValid
  divided : arguments = items.flatMap Options.Item.arguments
  first : ∃ name rest contents, items.filterMap Options.Item.image? = name :: rest ∧
    (opened o host).files.read name = .ok contents ∧
    Image.ofBytes? contents.bytes.toList = some image
  limit : o.limit = (items.filterMap Options.Item.limit?).getLast?.getD 0
  cpu : m.cpu = { Cpu.initial with
    pc := image.origin, stopOnIllegal := decide (.ignoreIllegal ∉ items) }

/-- The command line is divided into its items, and the run begins as they say. -/
theorem Starts.begins (h : Starts arguments host o m) :
    ∃ items image, Begins arguments host o m items image := by
  obtain ⟨m₁, hloads, rfl⟩ := h.loaded
  obtain ⟨name, rest, contents, image, himages, hread, himage, -, hcpu⟩ := hloads.inv
  obtain ⟨items, hvalid, hdivided, hasks⟩ := (Options.read_eq_ok.mp h.accepted).1.asks
  refine ⟨items, image, hvalid, hdivided, ?_, hasks.limit, ?_⟩
  · exact ⟨name, rest, contents, hasks.images.symm.trans himages, hread, himage⟩
  · have hstop : (!o.ignoreIllegal) = decide (.ignoreIllegal ∉ items) := by
      rw [Bool.eq_iff_iff, Bool.not_eq_true', decide_eq_true_iff, ← hasks.ignoreIllegal,
        Bool.not_eq_true]
    show m₁.cpu = _
    rw [hcpu, ← hstop]
    rfl

/-! ## Outcomes -/

/-- How the program ends, in a window that it finds as `start`. -/
structure Follows (arguments : List Text) (start : Window) (host : Host Window) (budget : Nat)
    (outcome : Outcome) : Prop where
  status : outcome.status = 0 ∨ outcome.status = 1
  halted : outcome.status = 0 ↔
    ∃ o m, Starts arguments host o m ∧ m.RunHalts o.limit budget
  /-- The program ends in its preparation. -/
  failed : (¬ ∃ o m, Starts arguments host o m) →
    prepare arguments host = .ok (.ended outcome) ∧ OnlyMessages start outcome.host ∧
      SameInput start outcome.host.console
  ran : ∀ o m, Starts arguments host o m →
    (∃ items image, Begins arguments host o m items image) ∧
      ∃ c m', Machine.run o.limit budget m = .ok (c, m') ∧ outcome = finish c m'

/-- There is one way in which all goes well, because the preparation is a function. -/
theorem Starts.unique (h : Starts arguments host o m) {o' : Options} {m' : Machine Window}
    (h' : Starts arguments host o' m') (hlog : host.log = none) : o = o' ∧ m = m' := by
  cases (h.prepare hlog).symm.trans (h'.prepare hlog)
  exact ⟨rfl, rfl⟩

/-- Once all went well, the program is the run and its end. -/
theorem Starts.simulate (h : Starts arguments host o m) (hlog : host.log = none) (budget : Nat) :
    simulate arguments host budget =
      match Machine.run o.limit budget m with
      | .ok (c, m') => .ok (finish c m')
      | .error e => .error e := by
  rw [Simulator.simulate, h.prepare hlog]
  show (Machine.run o.limit budget m >>= _) = _
  cases Machine.run o.limit budget m with
  | error e => rfl
  | ok x => rfl

end Simulator

end LittleComputer
