import LittleComputer.Simulator
import LittleComputer.Proofs.CharacterCalls
import LittleComputer.Proofs.MemoryMap
import LittleComputer.Proofs.Sample

/-!
# The machine that is prepared

Up to the run the program does nothing to its console but write to it. So the machine that it
prepares has a terminal that nobody has used as its keyboard, and a window that has not read
anything yet. What is piped in reaches the simulated program as a whole.
-/

namespace LittleComputer

open Terminal (keyboardStatus keyboardData)
open Window (SameInput)

namespace Machine

variable {m m' m'' : Machine Window} {d : DeviceId}

/-- The marks of the memory, the devices and what is left of the input are the same. -/
structure SameSetting (m m' : Machine Window) : Prop extends SameMarks m m' where
  input : SameInput m.host.console m'.host.console

theorem SameSetting.trans (h : SameSetting m m') (h' : SameSetting m' m'') :
    SameSetting m m'' :=
  ⟨h.toSameMarks.trans h'.toSameMarks, h.input.trans h'.input⟩

theorem SameSetting.report (m : Machine Window) (s : Severity) (text : Text) :
    SameSetting m { m with host := m.host.report s text } :=
  ⟨⟨rfl, rfl, rfl⟩, (m.host.report_console s text).sameInput⟩

/-- The setting of a machine is kept by everything that loading an image does. -/
theorem kept_sameSetting : Kept SameSetting where
  refl _ := ⟨.refl _, .refl _⟩
  trans := .trans
  report := .report
  place _ _ _ := ⟨⟨rfl, rfl, rfl⟩, .refl _⟩

theorem Reaches.of_sameMarks {a : Word} (h : m.Reaches a d) (hsame : SameMarks m m') :
    m'.Reaches a d := by
  rw [Reaches, hsame.memory, hsame.map]
  exact h

theorem StartsPiped.of_sameSetting (h : m.StartsPiped d) (hsame : SameSetting m m') :
    m'.StartsPiped d where
  status := h.status.of_sameMarks hsame.toSameMarks
  data := h.data.of_sameMarks hsame.toSameMarks
  unused := by
    obtain ⟨device, attached, hdevice, hkind⟩ := h.unused
    exact ⟨device, attached, (device?_of_devices hsame.devices d).trans hdevice, hkind⟩
  unread := h.unread.of_sameInput hsame.input

end Machine

namespace Simulator

open Machine (Kept Keeps SameSetting)

theorem loadRest_keeps {R : Machine Window → Machine Window → Prop} (hR : Kept R)
    (names : List Text) : Keeps R (loadImages.loadRest names) := by
  induction names with
  | nil => exact hR.pure true
  | cons name rest ih =>
    exact .bind hR.trans (hR.loadImage name) fun result => .ite (hR.pure false) ih

/-- Loading any images, also in vain, keeps the setting. -/
theorem loadImages_keeps (names : List Text) : Keeps SameSetting (loadImages names) := by
  have hR := Machine.kept_sameSetting
  cases names with
  | nil => exact hR.pure true
  | cons name rest =>
    refine .bind hR.trans (hR.loadImage name) fun result => .ite (hR.pure false) ?_
    refine .bind hR.trans (fun m a m' h => ?_) fun _ => loadRest_keeps hR rest
    cases h
    exact ⟨⟨rfl, rfl, rfl⟩, .refl _⟩

/-- The machine that the images are loaded into: all of its memory is ordinary, and a terminal lies
above. -/
def assembled (o : Options) (host : Host Window) : Machine Window :=
  { cpu := { Cpu.initial with stopOnIllegal := !o.ignoreIllegal }
    memory := { Memory.full with
      ram := (Table.fill false).fillRange 0 0xFFFF true
      io := ((Table.fill false).fillRange 0 0xFFFF false).fillRange 0xFE00 0xFE06 true }
    map := (DeviceMap.block keyboardStatus Terminal.registerCount).foldl
      (DeviceMap.assign terminalId) .empty
    devices := [(terminalId, .newTerminal terminalName true)]
    host }

theorem setUp_eq (o : Options) (host : Host Window) {memory : Memory}
    (hmemory : Memory.new? 65536 = .ok memory) :
    setUp o (.new memory host) = (do
      if ← loadImages o.images then
        let pc := (← get).cpu.pc
        Machine.modifyHost (·.reportFormatted .debug ("starting at " ++ Text.address pc))
        return true
      else return false) (assembled o host) := by
  cases hmemory
  rfl

/-- The machine is loaded without touching its terminal or the input. -/
theorem setUp_startsPiped {o : Options} {host : Host Window} {memory : Memory}
    {ok : Bool} {m : Machine Window} (hmemory : Memory.new? 65536 = .ok memory)
    (hunread : host.console.Unread) (h : setUp o (.new memory host) = .ok (ok, m)) :
    m.StartsPiped terminalId ∧ m.host.console.events = host.console.events := by
  have hR := Machine.kept_sameSetting
  have hload : SameSetting (assembled o host) m := by
    rw [setUp_eq o host hmemory] at h
    refine Keeps.bind (R := SameSetting) hR.trans (loadImages_keeps o.images) ?_ _ ok m h
    intro loaded
    refine .ite ?_ (hR.pure false)
    exact .bind hR.trans hR.get fun _ => hR.reported _ _ (hR.pure true)
  have hstart : (assembled o host).StartsPiped terminalId :=
    ⟨⟨rfl, rfl, rfl⟩, ⟨rfl, rfl, rfl⟩, ⟨_, true, rfl, rfl⟩, hunread⟩
  exact ⟨hstart.of_sameSetting hload, hload.input.events⟩

/-! ## The log -/

theorem closeLog_sameInput (host : Host Window) :
    SameInput host.console host.closeLog.console := by
  unfold Host.closeLog
  split
  · exact (host.report_console _ _).sameInput
  · exact .refl _

theorem openLog_sameInput {host host' : Host Window} {name : Text} {level : Severity}
    {keep opened : Bool} (h : host.openLog name level keep = .ok (opened, host')) :
    SameInput host.console host'.console := by
  unfold Host.openLog at h
  split at h
  · cases h
    exact .refl _
  · split at h
    · cases h
    · dsimp only at h
      split at h
      · cases h
        refine .trans ?_ (Host.report_console _ _ _).sameInput
        exact closeLog_sameInput host
      · cases h
        refine .trans ?_ (Host.report_console _ _ _).sameInput
        exact closeLog_sameInput host

/-- Configuring the log takes nothing of the input. -/
theorem configureLog_sameInput {o : Options} {host host' : Host Window} {opened : Bool}
    (h : configureLog o host = .ok (opened, host')) : SameInput host.console host'.console := by
  have hlevel (level : Severity) : (if o.debug then host.modifyLog fun l => { l with level }
      else host).console = host.console := by
    split
    · rfl
    · rfl
  unfold configureLog at h
  dsimp only at h
  split at h
  · cases h
    rw [hlevel]
    exact .refl _
  · have hopen := openLog_sameInput h
    rwa [hlevel] at hopen

theorem bind_eq_ok {α β : Type} {x : Except Fault α} {f : α → Except Fault β} {b : β} :
    (x >>= f) = .ok b ↔ ∃ a, x = .ok a ∧ f a = .ok b := by
  cases x with
  | error e =>
    constructor
    · intro h
      cases h
    · rintro ⟨a, ha, -⟩
      cases ha
  | ok a =>
    constructor
    · intro h
      exact ⟨a, rfl, h⟩
    · rintro ⟨a', ha, h⟩
      cases ha
      exact h

/-- Whatever is on the command line, the machine that is run has not touched its input before. -/
theorem prepare_startsPiped {arguments : List Text} {host : Host Window} {o : Options}
    {m : Machine Window} (hunread : host.console.Unread)
    (h : prepare arguments host = .ok (.ready o m)) :
    m.StartsPiped terminalId ∧ m.host.console.events = host.console.events := by
  obtain ⟨logged, hlog, h⟩ := bind_eq_ok.mp h
  have hlogged : logged.console = host.console := by
    unfold Host.attachLog at hlog
    split at hlog
    · cases hlog
    · cases hlog
      rfl
  split at h
  · cases h
  · rename_i o' _
    obtain ⟨⟨opened, configured⟩, hconfigure, h⟩ := bind_eq_ok.mp h
    have hsame := configureLog_sameInput hconfigure
    rw [hlogged] at hsame
    dsimp only at h
    split at h
    · obtain ⟨memory, hmemory, h⟩ := bind_eq_ok.mp h
      obtain ⟨⟨ready, m'⟩, hsetUp, h⟩ := bind_eq_ok.mp h
      obtain rfl : m' = m := by
        dsimp only at h
        split at h
        · cases h
          rfl
        · cases h
      have hreport := fun s text => hsame.trans (configured.report_console s text).sameInput
      obtain ⟨hstarts, hevents⟩ := setUp_startsPiped hmemory
        (hunread.of_sameInput (hreport _ _)) hsetUp
      exact ⟨hstarts, hevents.trans (hreport _ _).events⟩
    · cases h

/-- Whatever is on the command line, the program that is run gets what was piped into the simulator,
complete and in order: after any number of calls for a character, the next one comes to the next
character of the input, or to its end. -/
theorem prepare_answers {arguments : List Text} {host : Host Window} {o : Options}
    {m m' : Machine Window} {calls : Nat} (hunread : host.console.Unread)
    (hprepare : prepare arguments host = .ok (.ready o m)) (htyped : Machine.Typed m calls m') :
    m'.Answers (host.console.input[calls]?.map Terminal.received) := by
  obtain ⟨hstarts, hevents⟩ := prepare_startsPiped hunread hprepare
  have hinput : m.host.console.input = host.console.input := by
    rw [Window.input, hevents, Window.input]
  have hfeeds := htyped.feeds hstarts.feeds
  rw [hinput] at hfeeds
  exact hfeeds.answers

end Simulator

end LittleComputer
