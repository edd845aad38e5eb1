import LittleComputer.Proofs.InstructionLimit
import LittleComputer.Proofs.ServiceCall
import LittleComputer.Proofs.WindowOutput

/-!
# The output of a program

A program writes to the display by storing words in its data register. Every such word is one call
of the window to write a byte, and nothing else makes the window write for the simulated machine. So
the words that a run stores there and the bytes that come out belong together, one by one.
-/

namespace LittleComputer

open Terminal (displayData)
open Window (Delivery Delivers Sends)

/-! ## What a routine stores -/

/-- The words that an operation stores in the data register of the display. -/
def Operation.displayed : {β : Type} → Operation β → List Word
  | _, store a w => if a = displayData then [w] else []
  | _, _ => []

/-- The words that a routine stores in the data register of the display when it is carried out on a
machine, in order. -/
def Routine.displayed {κ α : Type} [Console κ] : Routine α → Machine κ → List Word
  | done _, _ => []
  | act o next, m =>
    o.displayed ++
      match o.run m with
      | .ok (b, m) => (next b).displayed m
      | .error _ => []

/-- The words that the instructions of a trail store there. -/
def Machine.displayed {κ : Type} [Console κ] (trail : List (Machine κ)) : List Word :=
  trail.flatMap Routine.step.displayed

/-! ## The display stays -/

namespace Machine.HasDisplay

variable {m m' : Machine Window} {d : DeviceId}

/-- Only what happens to the map and to the terminal could take the display away. -/
theorem elsewhere (h : m.HasDisplay d) (hreaches : m'.Reaches displayData d)
    (hdevices : m'.devices = m.devices) : m'.HasDisplay d := by
  obtain ⟨device, t, hdevice, hkind⟩ := h.terminal
  exact ⟨hreaches, device, t, (device?_of_devices hdevices d).trans hdevice, hkind⟩

/-- Changing the state of a device keeps the display, as long as a terminal stays a terminal. -/
theorem setDevice (h : m.HasDisplay d) {cpu : Cpu} {host : Host Window} {e : DeviceId}
    {old new : Device} (hold : m.device? e = some old)
    (hnew : ∀ t, old.kind = .terminal t → ∃ t', new.kind = .terminal t') :
    ({ m with cpu, host }.setDevice e new).HasDisplay d := by
  refine ⟨h.reaches, ?_⟩
  obtain ⟨device, t, hdevice, hkind⟩ := h.terminal
  rw [device?_setDevice]
  by_cases hde : d = e
  · subst hde
    cases hold.symm.trans hdevice
    obtain ⟨t', ht'⟩ := hnew t hkind
    refine ⟨new, t', ?_, ht'⟩
    rw [if_pos rfl]
    exact congrArg (Option.map fun _ => new) hold
  · refine ⟨device, t, ?_, hkind⟩
    rw [if_neg hde]
    exact hdevice

theorem load (h : m.HasDisplay d) {a w : Word} (hload : Machine.load a m = .ok (w, m')) :
    m'.HasDisplay d := by
  cases load_inv hload with
  | device _ _ hold hread =>
    refine h.setDevice hold fun t hkind => ?_
    obtain ⟨s, -, rfl, -⟩ := Device.terminal_of_read hkind hread
    exact ⟨s.terminal, rfl⟩
  | unowned | memory => exact h

theorem store (h : m.HasDisplay d) {a v : Word} (hstore : Machine.store a v m = .ok ((), m')) :
    m'.HasDisplay d := by
  have hreaches := h.reaches.of_store hstore
  cases store_inv hstore with
  | device _ _ hold hwrite =>
    refine h.setDevice hold fun t hkind => ?_
    obtain ⟨rfl, -⟩ := Device.terminal_of_write hkind hwrite
    exact ⟨t, hkind⟩
  | unowned | memory | nowhere => exact h.elsewhere hreaches rfl

theorem operation (h : m.HasDisplay d) {β : Type} {o : Operation β} {b : β}
    (hrun : o.run m = .ok (b, m')) : m'.HasDisplay d := by
  cases o with
  | load => exact h.load hrun
  | store => exact h.store hrun
  | look | change | warn | trace =>
    cases hrun
    exact h.elsewhere h.reaches rfl

end Machine.HasDisplay

/-! ## What the window delivers -/

namespace Host

/-- A message is not written for the simulated machine. -/
theorem report_sends (h : Host Window) (s : Severity) (text : Text) :
    Sends h.console [] [] (h.report s text).console := by
  rw [report_shown]
  split
  · split
    · exact h.console.message_sends _
    · exact .refl h.console
  · exact .refl h.console

/-- Nothing is written while the processor reads. -/
theorem keptByReads_sends :
    KeptByReads fun h h' : Host Window => Sends h.console [] [] h'.console where
  refl h := .refl h.console
  trans h h' := h.trans h'
  takeBreak h := h.console.takeBreak_sends 0
  read h timeout := h.console.read_sends timeout
  ended h _ := h.report_sends .debug _

theorem closeLog_sends (h : Host Window) : Sends h.console [] [] h.closeLog.console := by
  unfold closeLog
  split
  · exact h.report_sends _ _
  · exact .refl h.console

end Host

namespace Window

variable {w w₁ w' : Window} {words words' : List Word}

/-- The words stood in the data register of the display one after the other, and the window wrote
them for the simulated machine, and nothing else. -/
structure Shows (w : Window) (words : List Word) (w' : Window) : Prop where
  /-- Each word is a call to write one byte. -/
  calls : ∃ calls : List Delivery,
    calls.map (·.bytes) = words.map (fun word => [Word.lowByte word]) ∧ Delivers w calls w'
  /-- If no attempt to write fails, the last seven bits of every word come out, as far as they can
  be seen. -/
  complete : .failed ∉ w.writes → ∃ deeds, w'.deeds.toList = w.deeds.toList ++ deeds ∧
    w'.output.toList = w.output.toList ++ outputIn deeds ∧
    putsIn deeds = visible (words.map Word.lowByte)

namespace Shows

theorem of_calls (calls : List Delivery)
    (hcalls : calls.map (·.bytes) = words.map (fun word => [Word.lowByte word]))
    (h : Delivers w calls w') : w.Shows words w' := by
  refine ⟨⟨calls, hcalls, h⟩, fun hwrites => ?_⟩
  obtain ⟨deeds, hdeeds, houtput, hputs⟩ := h.record
  have hbytes : calls.flatMap (·.bytes) = words.map Word.lowByte := by
    rw [List.flatMap_def, hcalls, ← List.flatMap_def, List.map_eq_flatMap]
  refine ⟨deeds, hdeeds, houtput, ?_⟩
  rw [hputs, h.sent_eq_visible hwrites, hbytes]

theorem of_sends (h : Sends w [] [] w') : w.Shows [] w' := .of_calls [] rfl h

theorem refl (w : Window) : w.Shows [] w := .of_sends (.refl w)

theorem trans (h : w.Shows words w₁) (h' : w₁.Shows words' w') :
    w.Shows (words ++ words') w' := by
  obtain ⟨calls, hcalls, hdelivers⟩ := h.calls
  obtain ⟨calls', hcalls', hdelivers'⟩ := h'.calls
  apply of_calls (calls ++ calls')
  · rw [List.map_append, List.map_append, hcalls, hcalls']
  · exact hdelivers.trans hdelivers'

theorem trans_sends (h : w.Shows words w₁) (h' : Sends w₁ [] [] w') : w.Shows words w' := by
  have hall := h.trans (.of_sends h')
  rwa [List.append_nil] at hall

end Shows

end Window

namespace Machine

variable {m m' : Machine Window} {d : DeviceId}

/-- A word that is stored in the data register is given to the window. -/
theorem HasDisplay.store_shows (h : m.HasDisplay d) {a v : Word}
    (hstore : Machine.store a v m = .ok ((), m')) :
    m.host.console.Shows (Operation.store a v).displayed m'.host.console := by
  rw [Operation.displayed]
  by_cases ha : a = displayData
  · subst ha
    obtain ⟨device, -, hdisplay⟩ := h.store_display v
    rw [hdisplay] at hstore
    cases hstore
    obtain ⟨call, hcall, hsends, -⟩ := m.host.console.rawWrite_sends [Word.lowByte v]
    have hcalls : [call].map (·.bytes) = [v].map (fun word => [Word.lowByte word]) := by
      rw [List.map_singleton, hcall, List.map_singleton]
    rw [if_pos rfl]
    exact .of_calls [call] hcalls (.one hsends)
  · rw [if_neg ha]
    apply Window.Shows.of_sends
    cases store_inv hstore with
    | device _ _ _ hwrite =>
      rcases Device.write_host hwrite with rfl | ⟨hdisplay, -⟩
      · exact .refl _
      · exact absurd hdisplay ha
    | unowned | memory => exact .refl _
    | nowhere => exact m.host.report_sends _ _

/-- One operation shows the word it stores to the display, if it stores one, and nothing else. -/
theorem HasDisplay.operation_shows (h : m.HasDisplay d) {β : Type} {o : Operation β} {b : β}
    (hrun : o.run m = .ok (b, m')) : m.host.console.Shows o.displayed m'.host.console := by
  cases o with
  | load => exact .of_sends (Host.keptByReads_sends.load hrun)
  | store => exact h.store_shows hrun
  | look | change =>
    cases hrun
    exact .refl _
  | warn text =>
    cases hrun
    exact .of_sends (m.host.report_sends _ _)
  | trace =>
    cases hrun
    apply Window.Shows.of_sends
    dsimp only
    split
    · exact m.host.report_sends _ _
    · exact .refl _

/-- By induction on the routine, what the window shows is what the routine stored, in order. -/
theorem HasDisplay.routine_shows (h : m.HasDisplay d) {α : Type} {r : Routine α} {a : α}
    (hrun : r.run m = .ok (a, m')) :
    m.host.console.Shows (r.displayed m) m'.host.console ∧ m'.HasDisplay d := by
  induction r generalizing m with
  | done a =>
    cases hrun
    exact ⟨.refl _, h⟩
  | act o next ih =>
    obtain ⟨b, m₁, ho, hnext⟩ := Routine.run_act_eq_ok.mp hrun
    obtain ⟨hrest, hkept⟩ := ih b (h.operation ho) hnext
    rw [Routine.displayed, ho]
    exact ⟨(h.operation_shows ho).trans hrest, hkept⟩

/-- While instructions are executed, the window writes what they store in the data register. -/
theorem Executes.shows {trail : List (Machine Window)} (htrail : Executes m trail m')
    (h : m.HasDisplay d) : m.host.console.Shows (displayed trail) m'.host.console := by
  induction htrail with
  | nil => exact .refl _
  | cons _ hstep _ ih =>
    -- The instructions that follow can only be shown because the display is still there.
    obtain ⟨hfirst, hkept⟩ := h.routine_shows hstep
    exact hfirst.trans (ih hkept)

end Machine

/-! ## The program -/

theorem Window.tellAll_sends (lines : List Text) (w : Window) :
    Sends w [] [] (tellAll lines w) := by
  induction lines generalizing w with
  | nil => exact .refl w
  | cons line rest ih => exact (w.tell_sends line).trans (ih (w.tell line))

namespace Simulator

open Machine (Executes displayed)

variable {arguments : List Text} {start : Window} {host : Host Window} {o : Options}
  {m : Machine Window}

theorem Starts.hasDisplay (h : Starts arguments host o m) : m.HasDisplay terminalId := by
  obtain ⟨m₁, hloads, rfl⟩ := h.loaded
  obtain ⟨-, -, -, -, -, -, -, hmarks, -⟩ := hloads.inv
  have hassembled : (assembled o (opened o host)).HasDisplay terminalId :=
    ⟨⟨rfl, rfl, rfl⟩, _, .new true, rfl, rfl⟩
  refine hassembled.elsewhere (hassembled.reaches.of_sameMarks ?_) hmarks.devices
  exact ⟨hmarks.memory, hmarks.map, hmarks.devices⟩

theorem LoadsAll.logging {names : List Text} {m' : Machine Window} (h : LoadsAll names m m')
    (hlogging : Logging start m.host) : Logging start m'.host := by
  cases h with
  | intro hload hrest =>
    have hfirst := (Machine.kept_onlyLoads.loadImage _ _ _ _ hload).logging start hlogging
    exact hrest.onlyLoads.logging start hfirst

/-- Before the run there are only messages. -/
theorem Starts.logging (h : Starts arguments host o m) (hlogged : Logging start (logged host)) :
    Logging start m.host := by
  obtain ⟨m₁, hloads, rfl⟩ := h.loaded
  obtain ⟨made, configured, hconfigure, -, hkept⟩ := configureLog_opens o host
  have hopened : Logging start (opened o host) := by
    rw [opened, hconfigure]
    exact (hkept start hlogged).report _ _
  exact (hloads.logging hopened).report _ _

/-- Preparing the machine delivers nothing for the display: all it sends are messages. -/
theorem Starts.sends (h : Starts arguments host o m) (hlogged : Logging start (logged host)) :
    Sends start [] [] m.host.console := by
  obtain ⟨messages, hm⟩ := (h.logging hlogged).console
  rw [hm]
  exact Window.tellAll_sends _ start

/-- After the run there are only messages. -/
theorem finish_sends (c : StopCode) (m : Machine Window) :
    Sends m.host.console [] [] (finish c m).host.console := by
  have hshutDown (host : Host Window) :
      Sends host.console [] [] (shutDown (c = .halt) host).host.console :=
    host.closeLog_sends.trans (Window.cookedMode_sends _)
  have hreport (host : Host Window) (hhost : Sends m.host.console [] [] host.console)
      (s : Severity) (text : Text) :
      Sends m.host.console [] [] (host.reportFormatted s text).console :=
    hhost.trans (host.report_sends s _)
  have hcooked := m.host.console.cookedMode_sends
  unfold finish
  dsimp only
  refine Sends.trans_quiet ?_ (hshutDown _)
  split
  · exact hreport _ hcooked _ _
  · exact hreport _ (hreport _ hcooked _ _) _ _

/-- What the simulated machine writes comes out in order, and each byte once. Of every call to write
bytes a first part of what can be seen of them is sent, and only a failure in this very call loses
the rest. In a run of the program the calls are the words that the instructions store in the data
register of the display, one by one, however far the run has come. -/
theorem simulate_shows :
    (∀ (w : Window) (buffers : List (List Byte)),
      ∃ calls : List Delivery, calls.map (·.bytes) = buffers ∧
        Delivers w calls (w.after (buffers.map .write)) ∧
        (w.after (buffers.map .write)).output.toList =
          w.output.toList ++ calls.flatMap (·.sent)) ∧
      ∀ (isTerminal : Bool) (found : TerminalMode) (events : List KeyEvent)
        (writes : List WriteEvent) (files : FileStore) (now : Moment) (arguments : List Text)
        (o : Options) (m : Machine Window),
        let start := { Window.new isTerminal events writes with found }
        let host := Host.new start files now
        Starts arguments host o m →
          (∀ trail after, Executes (m.stopWith .running) trail after →
            start.Shows (displayed trail) after.host.console) ∧
          ∀ budget c m', Machine.run o.limit budget m = .ok (c, m') →
            ∃ trail after, Executes (m.stopWith .running) trail after ∧ m' = after.stopWith c ∧
              simulate arguments host budget = .ok (finish c m') ∧
              start.Shows (displayed trail) (finish c m').host.console := by
  refine ⟨Window.after_write_delivers, ?_⟩
  intro isTerminal found events writes files now arguments o m start host hstarts
  have hlogged : Logging start (logged host) := logging_logged rfl files now
  have hdisplay : (m.stopWith .running).HasDisplay terminalId :=
    hstarts.hasDisplay.elsewhere hstarts.hasDisplay.reaches rfl
  have hfrom : ∀ trail after, Executes (m.stopWith .running) trail after →
      start.Shows (displayed trail) after.host.console := by
    intro trail after htrail
    have hbefore : start.Shows [] m.host.console := .of_sends (hstarts.sends hlogged)
    exact hbefore.trans (htrail.shows hdisplay)
  refine ⟨hfrom, ?_⟩
  intro budget c m' hrun
  obtain ⟨trail, after, htrail, -, -, hend⟩ := Machine.run_trail hrun
  have hsimulate := hstarts.simulate rfl budget
  rw [hrun] at hsimulate
  refine ⟨trail, after, htrail, hend.eq_stopWith, hsimulate, ?_⟩
  obtain rfl := hend.eq_stopWith
  exact (hfrom trail after htrail).trans_sends (finish_sends c (after.stopWith c))

/-- A program that says "Hi" to a window in which the first attempts are interrupted. -/
theorem simulate_shows_greeting :
    ∃ (writes : List WriteEvent) (host : Host Window) (o : Options) (m m' : Machine Window)
      (trail : List (Machine Window)) (after : Machine Window),
      writes = [.interrupted, .interrupted, .written, .interrupted] ∧
        host.console = { Window.new true [] writes with found := .cooked } ∧
        Starts ["p.obj"] host o m ∧ Machine.run o.limit 3 m = .ok (.halt, m') ∧
        Executes (m.stopWith .running) trail after ∧
        simulate ["p.obj"] host 3 = .ok (finish .halt m') ∧
        host.console.Shows (displayed trail) (finish .halt m').host.console ∧
        Window.putsIn (finish .halt m').host.console.deeds.toList = [0x48, 0x69] := by
  let writes : List WriteEvent := [.interrupted, .interrupted, .written, .interrupted]
  let host : Host Window :=
    .new { Window.new true [] writes with found := .cooked } greetingHost.files default
  have hran : ranFor ["p.obj"] host 3 = some (.halt, 3) := by decide +kernel
  obtain ⟨o, m, m', hstarts, hrun, -⟩ := starts_of_ranFor rfl (logging_logged rfl _ _) hran
  have hall := simulate_shows.2 true .cooked [] writes greetingHost.files default _ o m hstarts
  obtain ⟨trail, after, htrail, -, hsimulate, hshows⟩ := hall.2 3 .halt m' hrun
  have hputs : (simulate ["p.obj"] host 3).toOption.map
      (fun x => Window.putsIn x.host.console.deeds.toList) = some [0x48, 0x69] := by
    decide +kernel
  have hsimulate' : simulate ["p.obj"] host 3 = .ok (finish .halt m') := hsimulate
  rw [hsimulate'] at hputs
  exact ⟨writes, host, o, m, m', trail, after, rfl, rfl, hstarts, hrun, htrail, hsimulate, hshows,
    Option.some.inj hputs⟩

end Simulator

end LittleComputer
