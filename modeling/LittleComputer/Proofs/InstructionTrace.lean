import LittleComputer.Proofs.Bisimulation
import LittleComputer.Proofs.DeviceAccess
import LittleComputer.Proofs.LogHistory
import LittleComputer.Proofs.Sample
import LittleComputer.Proofs.Trail
import LittleComputer.Proofs.TraceLines
import Mathlib.Data.List.Forall2

/-!
# The instruction trace

Every step sends one trace, between fetching its instruction and executing it, and nothing else in a
step does. So when a log file takes traces, the lines that a run adds to it tell which instructions
were executed (`Machine.run_traced`): where they were fetched, and which words they were at that
moment.
-/

namespace LittleComputer

variable {κ : Type} [Console κ]

/-! ## Traces among the messages -/

namespace Host

/-- From the one world to the other messages were sent, and these are the texts of the traces among
them. Apart from that nothing happened to the files, or to which of them is open. -/
def Traces (h : Host κ) (texts : List Text) (h' : Host κ) : Prop :=
  ∃ messages : List Message, (messages.filter Message.isTrace).map (·.text) = texts ∧
    Trail h (messages.map .sent) h'

variable {h h₁ h' : Host κ} {texts more : List Text}

theorem Traces.refl (h : Host κ) : h.Traces [] h := ⟨[], rfl, .nil h⟩

theorem Traces.append (hfirst : h.Traces texts h₁) (hrest : h₁.Traces more h') :
    h.Traces (texts ++ more) h' := by
  obtain ⟨messages, rfl, htrail⟩ := hfirst
  obtain ⟨messages', rfl, htrail'⟩ := hrest
  refine ⟨messages ++ messages', ?_, ?_⟩
  · rw [List.filter_append, List.map_append]
  · rw [List.map_append]
    exact htrail.append htrail'

/-- What the console does is no trace. -/
theorem traces_console (h : Host κ) (c : κ) : h.Traces [] { h with console := c } :=
  ⟨[], rfl, .quiet rfl rfl⟩

/-- A message of another severity is no trace. -/
theorem traces_report (h : Host κ) {s : Severity} (hs : s ≠ .trace) (text : Text) :
    h.Traces [] (h.report s text) := by
  rw [report_eq_send]
  refine ⟨[⟨h.now, s, Text.untilNul text⟩], ?_, Trail.of_sent h s text⟩
  rw [List.filter_cons_of_neg (by simpa [Message.isTrace] using hs)]
  rfl

/-- The trace of an instruction is sent as it is. -/
theorem traces_trace (h : Host κ) (address w : Word) :
    h.Traces [Operation.traceText address w]
      (h.reportFormatted .trace (Operation.traceText address w)) := by
  have htrail := Trail.of_formatted h .trace (Operation.traceText address w)
  rw [Operation.formatted_traceText] at htrail
  rw [reportFormatted, report_eq_send, Operation.formatted_traceText]
  exact ⟨[⟨h.now, .trace, Operation.traceText address w⟩], rfl, htrail⟩

end Host

/-! ## Accesses -/

/-- No look at the console is a trace. -/
theorem Host.keptByReads_traces :
    Host.KeptByReads fun h h' : Host κ => h.Traces [] h' where
  refl := .refl
  trans hfirst hrest := hfirst.append hrest
  takeBreak h := h.traces_console _
  read h _ := h.traces_console _
  ended h _ := h.traces_report (by decide) _

namespace Machine

/-- A load may report the end of the input, but no trace. -/
theorem load_traces {m m' : Machine κ} {a w : Word} (h : load a m = .ok (w, m')) :
    m.host.Traces [] m'.host :=
  Host.keptByReads_traces.load h

theorem store_traces {m m' : Machine κ} {a v : Word} (h : store a v m = .ok ((), m')) :
    m.host.Traces [] m'.host := by
  cases store_inv h with
  | device _ _ _ hwrite =>
    rcases Device.write_host hwrite with rfl | ⟨-, rfl⟩
    · exact .refl m.host
    · exact m.host.traces_console _
  | unowned | memory => exact .refl m.host
  | nowhere => exact m.host.traces_report (by decide) _

/-- In ordinary memory the processor reads the word that stands there. -/
theorem word_of_load_plain {m m' : Machine κ} {a w : Word} (h : load a m = .ok (w, m'))
    (hplain : m.isPlain a = true) : w = m.memory.words.get a := by
  rw [isPlain, Bool.and_eq_true, Bool.not_eq_true'] at hplain
  cases load_inv h with
  | device hio | unowned hio => cases hplain.2.symm.trans hio
  | memory => exact if_pos hplain.1

end Machine

/-! ## Instructions -/

/-- The operation does not trace an instruction. -/
def Operation.IsNoTrace : {β : Type} → Operation β → Prop
  | _, trace .. => False
  | _, _ => True

/-- Every operation but a trace adds no trace. -/
theorem Operation.run_traces {β : Type} {o : Operation β} (ho : o.IsNoTrace) {m m' : Machine κ}
    {b : β} (h : o.run m = .ok (b, m')) : m.host.Traces [] m'.host := by
  cases o with
  | look | change =>
    cases h
    exact .refl m.host
  | load a => exact Machine.load_traces h
  | store a w => exact Machine.store_traces h
  | warn text =>
    cases h
    exact m.host.traces_report (by decide) _
  | trace => exact ho.elim

namespace Routine

open Operation (IsNoTrace)

theorem readChar_noTrace : readChar.All IsNoTrace := by
  refine .bind (.one trivial) fun w => ?_
  split
  · refine .bind (.one trivial) fun c => ?_
    dsimp only
    split
    · exact .bind (.one trivial) fun _ => .bind (.one trivial) fun _ => .pure none
    · exact .pure none
  · exact .pure _

theorem writeChars_noTrace (bs : List Byte) : (writeChars bs).All IsNoTrace := by
  induction bs with
  | nil => exact .pure ()
  | cons b rest ih => exact .bind (.one trivial) fun _ => ih

theorem writeString_noTrace (chars : Word → List Byte) (n : Nat) (a : Word) :
    (writeString chars n a).All IsNoTrace := by
  induction n generalizing a with
  | zero => exact .pure ()
  | succ n ih =>
    refine .bind (.one trivial) fun w => ?_
    split
    · exact .pure ()
    · exact .bind (writeChars_noTrace _) fun _ => ih (a + 1)

theorem serve_noTrace (s : Service) : (serve s).All IsNoTrace := by
  cases s with
  | readChar =>
    refine .bind readChar_noTrace fun answer => ?_
    cases answer with
    | none => exact .pure ()
    | some b => exact .one trivial
  | promptChar =>
    refine .bind (writeChars_noTrace _) fun _ => .bind readChar_noTrace fun answer => ?_
    cases answer with
    | none => exact .pure ()
    | some b => exact .bind (.one trivial) fun _ => .one trivial
  | writeChar => exact .bind (.one trivial) fun _ => .one trivial
  | writeString | writePacked => exact .bind (.one trivial) fun _ => writeString_noTrace _ _ _
  | halt => exact .one trivial

theorem illegal_noTrace (what : Text) : (illegal what).All IsNoTrace := by
  refine .bind (.one trivial) fun c => ?_
  dsimp only
  split
  · exact .bind (.one trivial) fun _ => .one trivial
  · exact .one trivial

/-- No instruction is a trace, whatever it does. -/
theorem perform_noTrace (i : Instruction) : (perform i).All IsNoTrace := by
  refine .bind (.one trivial) fun c => ?_
  cases i with
  | add | and | not | jmp | lea | jsr | jsrr => exact .one trivial
  | br conditions offset =>
    dsimp only
    split
    · exact .one trivial
    · exact .pure ()
  | ld | ldr => exact .bind (.one trivial) fun _ => .one trivial
  | ldi => exact .bind (.one trivial) fun _ => .bind (.one trivial) fun _ => .one trivial
  | st | str => exact .one trivial
  | sti => exact .bind (.one trivial) fun _ => .one trivial
  | trap vector =>
    refine .bind (.one trivial) fun _ => ?_
    cases Service.ofVector? vector with
    | some service => exact serve_noTrace service
    | none => exact illegal_noTrace _
  | rti w | res w => exact illegal_noTrace _

/-- What an instruction does adds no trace, so the one trace of a step is the one of its fetch. -/
theorem perform_traces {i : Instruction} {m m' : Machine κ}
    (h : (perform i).run m = .ok ((), m')) : m.host.Traces [] m'.host :=
  (perform_noTrace i).keeps (R := fun m m' => m.host.Traces [] m'.host) (fun m => .refl m.host)
    (fun hfirst hrest => hfirst.append hrest) (fun ho hrun => Operation.run_traces ho hrun) h

/-- A word is fetched by reading it once and tracing it. -/
theorem fetch_run {m m' : Machine κ} {w : Word} (h : fetch.run m = .ok (w, m')) :
    ∃ m₁, Machine.load m.cpu.pc { m with cpu := { m.cpu with lastPc := m.cpu.pc } } = .ok (w, m₁) ∧
      m' = { m₁ with
        cpu := { m₁.cpu with pc := m₁.cpu.pc + 1 }
        host := m₁.host.reportFormatted .trace (Operation.traceText m.cpu.pc w) } := by
  rw [fetch, run_bind, run_look] at h
  dsimp only at h
  rw [run_bind, run_change] at h
  obtain ⟨v, m₁, hload, h⟩ := run_bind_eq_ok.mp h
  rw [run_load] at hload
  obtain ⟨u, m₂, htrace, h⟩ := run_bind_eq_ok.mp h
  rw [trace, run_one, Operation.run_trace] at htrace
  cases htrace
  cases h
  exact ⟨m₁, hload, rfl⟩

end Routine

/-! ## Steps and runs -/

namespace Machine

/-- An instruction is executed on a machine, and the word is what was fetched for it. -/
structure Fetches (m : Machine κ) (w : Word) : Prop where
  /-- The processor reads at the program counter, once, and executes what it got. -/
  executed : ∃ m₁ m₂,
    load m.cpu.pc { m with cpu := { m.cpu with lastPc := m.cpu.pc } } = .ok (w, m₁) ∧
      (Routine.perform (Instruction.decode w)).run { m₁ with
        cpu := { m₁.cpu with pc := m₁.cpu.pc + 1 }
        host := m₁.host.reportFormatted .trace (Operation.traceText m.cpu.pc w) } = .ok ((), m₂) ∧
      step m = .ok ((), { m₂ with cpu := { m₂.cpu with executed := m₂.cpu.executed + 1 } })
  /-- In ordinary memory it gets what stands there, whatever will stand there later. -/
  plain : m.isPlain m.cpu.pc = true → w = m.memory.words.get m.cpu.pc

/-- The line of the trace for the next instruction of a machine. -/
def ShownBy (m : Machine κ) (line : Text) : Prop :=
  ∃ w, m.Fetches w ∧ line =
    Text.ofWord m.cpu.pc ++ "/ " ++ Text.ofWord w ++ "\t" ++ disassemble w m.cpu.pc

theorem ShownBy.addressIn? {m : Machine κ} {line : Text} (h : m.ShownBy line) :
    Operation.addressIn? line = some m.cpu.pc := by
  obtain ⟨w, -, rfl⟩ := h
  exact Operation.addressIn?_traceText m.cpu.pc w

theorem newline_notMem_of_shown {trail : List (Machine κ)} {lines : List Text}
    (h : List.Forall₂ ShownBy trail lines) : ∀ line ∈ lines, Byte.newline ∉ line := by
  induction h with
  | nil => exact nofun
  | @cons m _ _ _ hfirst _ ih =>
    obtain ⟨w, -, rfl⟩ := hfirst
    exact List.forall_mem_cons.mpr
      ⟨(Operation.fits_traceText m.cpu.pc w).newline_notMem, ih⟩

/-- A step sends one trace, which shows its instruction. -/
theorem step_traces {m m' : Machine κ} (h : step m = .ok ((), m')) :
    ∃ line, m.ShownBy line ∧ m.host.Traces [line] m'.host := by
  obtain ⟨w, m₁, m₂, hfetch, hperform, hm'⟩ := Routine.step_inv h
  obtain ⟨m₀, hload, rfl⟩ := Routine.fetch_run hfetch
  have hfetched : m.host.Traces [Operation.traceText m.cpu.pc w]
      (m₀.host.reportFormatted .trace (Operation.traceText m.cpu.pc w)) :=
    (load_traces hload).append (m₀.host.traces_trace m.cpu.pc w)
  have hall := hfetched.append (Routine.perform_traces hperform)
  have hplain := word_of_load_plain hload
  rw [hm'] at h ⊢
  exact ⟨_, ⟨w, ⟨⟨m₀, m₂, hload, hperform, h⟩, hplain⟩, rfl⟩, hall⟩

theorem step_lastPc {m m' : Machine κ} (h : step m = .ok ((), m')) :
    m'.cpu.lastPc = m.cpu.pc := by
  obtain ⟨w, m₁, m₂, hfetch, hperform, rfl⟩ := Routine.step_inv h
  show m₂.cpu.lastPc = _
  rw [(Routine.perform_continues hperform).lastPc, Routine.fetch_cpu hfetch]

namespace Executes

variable {m m' : Machine κ} {trail : List (Machine κ)}

/-- Some instructions send a trace each, in order. -/
theorem traces (h : Executes m trail m') :
    ∃ lines, List.Forall₂ ShownBy trail lines ∧ m.host.Traces lines m'.host := by
  induction h with
  | nil m => exact ⟨[], .nil, .refl m.host⟩
  | cons _ hstep _ ih =>
    obtain ⟨line, hshown, hfirst⟩ := step_traces hstep
    obtain ⟨lines, hall, hrest⟩ := ih
    exact ⟨line :: lines, .cons hshown hall, hfirst.append hrest⟩

theorem lastPc (h : Executes m trail m') (hne : trail ≠ []) :
    trail.getLast?.map (·.cpu.pc) = some m'.cpu.lastPc := by
  induction h with
  | nil m => exact absurd rfl hne
  | cons _ hstep hrest ih =>
    cases hrest with
    | nil =>
      rw [step_lastPc hstep]
      rfl
    | cons hrun hstep' hrest' =>
      rw [List.getLast?_cons_cons]
      exact ih (List.cons_ne_nil _ _)

end Executes

end Machine

/-- A log file that takes traces gets all of them, each on a line of its own. -/
theorem Host.Traces.filed {h h' : Host κ} {texts : List Text} {file : LogFile} {old : Text}
    (htraces : h.Traces texts h') (hopen : h.openFile? = some file) (hlevel : file.level ≤ .trace)
    (hlines : ∀ text ∈ texts, Byte.newline ∉ text)
    (hold : h.files.bytesAt? file.path = some old) :
    ∃ new, h'.files.bytesAt? file.path = some (old ++ new) ∧ Message.traces new = texts := by
  obtain ⟨messages, rfl, htrail⟩ := htraces
  have hnone : ∀ e ∈ messages.map Happening.sent, ¬ e.Opens file.path := by
    intro e he
    obtain ⟨message, -, rfl⟩ := List.mem_map.mp he
    exact id
  have hfiled : Happening.messagesFor file.level (messages.map .sent) =
      messages.filter (file.level ≤ ·.severity) := by
    clear hnone hlines htrail
    induction messages with
    | nil => rfl
    | cons message rest ih =>
      rw [List.map_cons, Happening.messagesFor, ih, List.filter_cons]
      simp only [decide_eq_true_eq]
  have hkept : (messages.filter (file.level ≤ ·.severity)).filter Message.isTrace =
      messages.filter Message.isTrace := by
    rw [List.filter_filter]
    refine List.filter_congr fun message _ => ?_
    cases htrace : message.isTrace with
    | false => rfl
    | true =>
      rw [of_decide_eq_true htrace]
      exact decide_eq_true hlevel
  refine ⟨_, htrail.filed hnone hopen hold, ?_⟩
  rw [hfiled, Message.traces_lines, hkept, List.map_eq_flatMap]
  refine List.flatMap_congr fun message hmessage => ?_
  exact Text.splitOn_of_notMem (hlines _ (List.mem_map_of_mem hmessage))

namespace Machine

/-- What the lines of a trace say about a run from `m` to `m'` that executed an instruction on each
machine of the trail. -/
structure Traced (m : Machine κ) (trail : List (Machine κ)) (m' : Machine κ) (lines : List Text) :
    Prop where
  /-- There is one line for each instruction. -/
  counted : m'.cpu.executed = m.cpu.executed + lines.length
  /-- The lines show the instructions in the order in which they were executed. -/
  shown : List.Forall₂ ShownBy trail lines
  /-- The addresses can be read back. -/
  addresses : lines.map Operation.addressIn? = trail.map fun x => some x.cpu.pc
  /-- The last of them is the address that the processor keeps. -/
  last : lines.getLast?.map Operation.addressIn? = some (some m'.cpu.lastPc)

/-- A trail whose machines are shown by the lines carries all that is claimed of a traced run. -/
theorem Executes.traced {m m' : Machine κ} {trail : List (Machine κ)} {lines : List Text}
    (h : Executes m trail m') (hne : trail ≠ []) (hshown : List.Forall₂ ShownBy trail lines) :
    Traced m trail m' lines := by
  have haddresses : lines.map Operation.addressIn? = trail.map fun x => some x.cpu.pc := by
    clear h hne
    induction hshown with
    | nil => rfl
    | cons hfirst _ ih => rw [List.map_cons, List.map_cons, hfirst.addressIn?, ih]
  refine ⟨by rw [h.executed, hshown.length_eq], hshown, haddresses, ?_⟩
  rw [← List.getLast?_map, haddresses, List.getLast?_map]
  have hlast := congrArg (Option.map some) (h.lastPc hne)
  rwa [Option.map_map] at hlast

/-- The trace of a run is a faithful record. A log file that takes traces gets exactly one line for
each instruction that the run executes, in order, and the line shows the address of the instruction,
the word that was fetched there, and what that word is called there, all as of the moment of that
fetch. So the addresses can be read back from the file, and the last one is the address that the
processor keeps as that of its last instruction. -/
theorem run_traced {m m' : Machine κ} {limit : BitVec 32} {budget : Nat} {c : StopCode}
    {file : LogFile} {old : Text} (h : run limit budget m = .ok (c, m'))
    (hopen : m.host.openFile? = some file) (hlevel : file.level ≤ .trace)
    (hold : m.host.files.bytesAt? file.path = some old) :
    ∃ trail after new, Executes (m.stopWith .running) trail after ∧ m' = after.stopWith c ∧
      m'.host.files.bytesAt? file.path = some (old ++ new) ∧
      Traced m trail m' (Message.traces new) := by
  obtain ⟨trail, after, htrail, hne, -, hend⟩ := run_trail h
  obtain ⟨lines, hshown, htraces⟩ := htrail.traces
  obtain ⟨new, hnew, rfl⟩ := htraces.filed hopen hlevel (newline_notMem_of_shown hshown) hold
  obtain rfl := hend.eq_stopWith
  have htraced := htrail.traced hne hshown
  exact ⟨trail, after, new, htrail, rfl, hnew, htraced.counted, htraced.shown, htraced.addresses,
    htraced.last⟩

/-- A program that writes over one of its instructions after executing it. The trace shows what was
executed. -/
theorem run_traced_overwritten :
    ∃ (m m' : Machine Script) (file : LogFile) (text : Text),
      text = Text.ofString (
        "00:00:00.000 TRACE\t3000/ 2002\tLD R0,0x3003\n" ++
        "00:00:00.000 TRACE\t3001/ 31FF\tST R0,0x3001\n" ++
        "00:00:00.000 TRACE\t3002/ F025\tHALT\n") ∧
      run 0 9 m = .ok (.halt, m') ∧ m.host.openFile? = some file ∧ file.level ≤ .trace ∧
      m.host.files.bytesAt? file.path = some [] ∧ m'.memory.words.get 0x3001 = 0x1021 ∧
      m'.host.files.bytesAt? file.path = some text ∧
      ∃ trail after new, Executes (m.stopWith .running) trail after ∧ m' = after.stopWith .halt ∧
        m'.host.files.bytesAt? file.path = some ([] ++ new) ∧
        Traced m trail m' (Message.traces new) := by
  let sample := Machine.sample [0x2002, 0x31FF, 0xF025, 0x1021] []
  let file : LogFile := { path := ["log"], name := "log", level := .trace }
  let l : Log := { program := "LC3", toConsole := false, level := .silent, file := some file }
  let files := (FileStore.empty []).addFile "log" ⟨#[], none⟩
  let m := { sample with host := { sample.host with log := some l, files } }
  have hrun := Machine.eq_ok_of_result (x := run 0 9 m) (a := .halt) m (by decide +kernel)
  exact ⟨m, _, file, _, rfl, hrun, rfl, by decide, rfl, by decide +kernel, by decide +kernel,
    run_traced hrun rfl (by decide) rfl⟩

end Machine

end LittleComputer
