import LittleComputer.Proofs.Keyboard
import LittleComputer.Proofs.Logging

/-!
# Keys from a script

What a program gets from an attached terminal whose console plays a script. Reading the data
register passes over pauses up to the next key, and gives up at an interruption or at the end of the
input. An interruption and the key behind it come with one look at the console, so the key is not
lost.
-/

namespace LittleComputer

/-! ## Messages -/

/-- Nothing but messages was written, and none if they do not come to the console. -/
def Host.Says (h h' : Host Script) : Prop :=
  ∃ messages : List Byte, h'.console.output = h.console.output ++ messages ∧
    (h.Quiet → messages = [])

theorem Script.output_append (output : Array Byte) (bytes bytes' : List Byte) :
    output ++ bytes ++ bytes' = output ++ (bytes ++ bytes') := by
  apply Array.ext'
  simp

theorem Host.Says.of_output {h h' : Host Script} (hsame : h'.console.output = h.console.output) :
    h.Says h' :=
  ⟨[], by rw [hsame]; simp, fun _ => rfl⟩

theorem Host.Says.trans {h h₁ h' : Host Script} (hfirst : h.Says h₁) (hlog : h₁.log = h.log)
    (hrest : h₁.Says h') : h.Says h' := by
  obtain ⟨messages, houtput, hquiet⟩ := hfirst
  obtain ⟨messages', houtput', hquiet'⟩ := hrest
  refine ⟨messages ++ messages', ?_, fun hq => ?_⟩
  · rw [houtput', houtput, Script.output_append]
  have hq₁ : h₁.Quiet := fun l hl => hq l (hlog.symm.trans hl)
  rw [hquiet hq, hquiet' hq₁]
  rfl

/-- A report says what it has to say, and takes nothing from the script. -/
theorem Host.report_script (h : Host Script) (s : Severity) (text : Text) :
    (h.report s text).console =
        { h.console with output := (h.report s text).console.output } ∧
      h.Says (h.report s text) := by
  unfold Says
  rw [report_shown]
  split
  · rename_i l hl
    split
    · rename_i hshown
      refine ⟨rfl, _, rfl, fun hq => ?_⟩
      rw [hq l hl, Bool.and_false] at hshown
      cases hshown
    · exact ⟨rfl, [], by simp, fun _ => rfl⟩
  · exact ⟨rfl, [], by simp, fun _ => rfl⟩

namespace Terminal

namespace Session

/-! ## Ways through a script -/

/-- The session after the script was played up to `rest`. -/
def played (s : Session Script) (rest : List ScriptEntry) : Session Script :=
  { s with host := { s.host with console := { s.host.console with entries := rest } } }

/-- The session after the end of the input was noticed. -/
def finished (name : Text) (s : Session Script) : Session Script :=
  { s with
    host := s.host.report .debug ("end of file on " ++ name)
    terminal := { s.terminal with ended := true } }

/-- A look at the console passes over one entry of the script that is no key and not the end. -/
inductive Passes (s : Session Script) : ScriptEntry → Session Script → Prop where
  | pause {rest : List ScriptEntry} (h : s.host.console.entries = .pause :: rest) :
    Passes s .pause (s.played rest)
  | interrupt {rest : List ScriptEntry} (h : s.host.console.entries = .interrupt :: rest) :
    Passes s .interrupt { s.played rest with stop := .interrupted }

/-- Asking for a key takes a pause of the script, or one of those that follow the script. -/
inductive Lingers (s : Session Script) : Session Script → Prop where
  | pause {rest : List ScriptEntry} (h : s.host.console.entries = .pause :: rest) :
    Lingers s (s.played rest)
  | idle {n : Nat} (h : s.host.console.entries = []) (hidle : s.host.console.idle = n + 1) :
    Lingers s { s with host := { s.host with console := { s.host.console with idle := n } } }

/-- Behind some entries there is a key, and nothing but the two was taken. -/
structure Finds (s : Session Script) (skipped : List ScriptEntry) (b : Byte) (s' : Session Script) :
    Prop where
  key : ∃ key, s.host.console.entries = skipped ++ .key key :: s'.host.console.entries ∧
    b = received key
  passed : ∀ e ∈ skipped, e = .pause ∨ e = .interrupt
  stop : s'.stop = if ScriptEntry.interrupt ∈ skipped then .interrupted else s.stop
  host : s'.host =
    { s.host with console := { s.host.console with entries := s'.host.console.entries } }
  terminal : s'.terminal = { s.terminal with buffer := b, ready := true }

/-- Some entries were taken and none of them was a key. -/
structure Skips (s : Session Script) (skipped : List ScriptEntry) (s' : Session Script) : Prop where
  entries : s.host.console.entries = skipped ++ s'.host.console.entries
  noKey : ∀ b, .key b ∉ skipped
  stop : s'.stop = if ScriptEntry.interrupt ∈ skipped then .interrupted else s.stop
  idle : s'.host.console.idle ≤ s.host.console.idle
  terminal : s'.terminal = { s.terminal with ended := s'.terminal.ended }
  /-- The terminal is not at the end of its input without a reason. -/
  ended : s'.terminal.ended = true → s.terminal.ended = true ∨ .ended ∈ skipped ∨
    (s'.host.console.entries = [] ∧ s'.host.console.idle = 0)
  told : s.host.Says s'.host
  log : s'.host.log = s.host.log

variable {s s₁ s' : Session Script} {e : ScriptEntry} {skipped : List ScriptEntry} {b : Byte}

theorem Passes.keeps (h : s.Passes e s₁) :
    s.host.console.entries = e :: s₁.host.console.entries ∧ (e = .pause ∨ e = .interrupt) ∧
      s₁.stop = (if e = .interrupt then .interrupted else s.stop) ∧
      s₁.host = { s.host with console := { s.host.console with
        entries := s₁.host.console.entries } } ∧ s₁.terminal = s.terminal := by
  cases h with
  | pause h => exact ⟨h, .inl rfl, rfl, rfl, rfl⟩
  | interrupt h => exact ⟨h, .inr rfl, rfl, rfl, rfl⟩

theorem stop_cons (hfirst : s₁.stop = if e = .interrupt then .interrupted else s.stop)
    (hrest : s'.stop = if ScriptEntry.interrupt ∈ skipped then .interrupted else s₁.stop) :
    s'.stop = if ScriptEntry.interrupt ∈ e :: skipped then .interrupted else s.stop := by
  rw [hrest, hfirst]
  by_cases hskipped : ScriptEntry.interrupt ∈ skipped
  · rw [if_pos hskipped, if_pos (List.mem_cons_of_mem e hskipped)]
  · rw [if_neg hskipped]
    by_cases he : e = .interrupt
    · rw [if_pos he, he, if_pos List.mem_cons_self]
    · rw [if_neg he, if_neg (List.not_mem_cons_of_ne_of_not_mem (Ne.symm he) hskipped)]

theorem Finds.cons (hfirst : s.Passes e s₁) (h : s₁.Finds skipped b s') :
    s.Finds (e :: skipped) b s' := by
  obtain ⟨hentries, he, hstop, hhost, hterminal⟩ := hfirst.keeps
  obtain ⟨key, hkey, hb⟩ := h.key
  constructor
  · exact ⟨key, by rw [hentries, hkey]; rfl, hb⟩
  · exact List.forall_mem_cons.mpr ⟨he, h.passed⟩
  · exact stop_cons hstop h.stop
  · rw [h.host, hhost]
  · rw [h.terminal, hterminal]

theorem Skips.cons (hfirst : s.Passes e s₁) (h : s₁.Skips skipped s') :
    s.Skips (e :: skipped) s' := by
  obtain ⟨hentries, he, hstop, hhost, hterminal⟩ := hfirst.keeps
  have hidle : s₁.host.console.idle = s.host.console.idle := by rw [hhost]
  have houtput : s₁.host.console.output = s.host.console.output := by rw [hhost]
  have hlog : s₁.host.log = s.host.log := by rw [hhost]
  constructor
  · rw [hentries, h.entries]
    rfl
  · intro b hb
    rcases List.mem_cons.mp hb with hb | hb
    · rw [← hb] at he
      rcases he with he | he <;> cases he
    · exact h.noKey b hb
  · exact stop_cons hstop h.stop
  · rw [← hidle]
    exact h.idle
  · rw [h.terminal, hterminal]
  · intro hended
    rcases h.ended hended with hs | hs | hs
    · exact .inl (by rwa [← hterminal])
    · exact .inr (.inl (List.mem_cons_of_mem e hs))
    · exact .inr (.inr hs)
  · exact (Host.Says.of_output houtput).trans hlog h.told
  · rw [h.log, hlog]

theorem Skips.refl (s : Session Script) : s.Skips [] s where
  entries := rfl
  noKey _ := List.not_mem_nil
  stop := rfl
  idle := Nat.le_refl _
  terminal := rfl
  ended := .inl
  told := .of_output rfl
  log := rfl

/-! ## One look -/

theorem finished_skips (name : Text) {rest : List ScriptEntry}
    (hentries : s.host.console.entries = skipped ++ rest)
    (hend : skipped = [.ended] ∨ skipped = [] ∧ rest = [] ∧ s.host.console.idle = 0) :
    s.Skips skipped ((s.played rest).finished name) := by
  obtain ⟨hconsole, htold⟩ :=
    (s.played rest).host.report_script .debug ("end of file on " ++ name)
  have hidle : ((s.played rest).finished name).host.console.idle = s.host.console.idle := by
    rw [finished, hconsole]
    rfl
  have hrest : ((s.played rest).finished name).host.console.entries = rest := by
    rw [finished, hconsole]
    rfl
  constructor
  · rw [hrest, hentries]
  · rcases hend with rfl | ⟨rfl, -, -⟩ <;> simp
  · rcases hend with rfl | ⟨rfl, -, -⟩ <;> simp [finished, played]
  · exact Nat.le_of_eq hidle
  · rfl
  · rintro -
    rcases hend with rfl | ⟨rfl, hnone, hover⟩
    · exact .inr (.inl List.mem_cons_self)
    · exact .inr (.inr ⟨hrest.trans hnone, hidle.trans hover⟩)
  · exact htold
  · exact Host.report_log _ _ _

/-- What asking for a key comes to, by the next entry of the script. -/
theorem receive_script (s : Session Script) (name : Text) (timeout : Nat) :
    s.receive name timeout =
      match s.host.console.entries with
      | .key b :: rest =>
        { s.played rest with terminal := { s.terminal with buffer := received b, ready := true } }
      | .ended :: rest => (s.played rest).finished name
      | .pause :: rest => s.played rest
      | .interrupt :: _ => s
      | [] =>
        if s.host.console.idle = 0 then s.finished name
        else { s with host := { s.host with
          console := { s.host.console with idle := s.host.console.idle - 1 } } } := by
  obtain ⟨t, stop, ⟨entries, idle, output⟩, files, log, errors, now⟩ := s
  cases entries with
  | nil => cases idle <;> rfl
  | cons e rest => cases e <;> rfl

/-! ## Waiting -/

/-- Waiting for a character is over: there is a key, or there will be none. -/
def Settles (s s' : Session Script) : Prop :=
  (∃ skipped b, s.Finds skipped b s') ∨
    ∃ skipped, s.Skips skipped s' ∧
      (s'.terminal.ended = true ∨ ScriptEntry.interrupt ∈ skipped)

theorem Settles.cons (hfirst : s.Passes e s₁) (h : s₁.Settles s') : s.Settles s' := by
  rcases h with ⟨skipped, b, hfinds⟩ | ⟨skipped, hskips, hover⟩
  · exact .inl ⟨_, b, hfinds.cons hfirst⟩
  · exact .inr ⟨_, hskips.cons hfirst, hover.imp_right (List.mem_cons_of_mem e)⟩

theorem Settles.not_waiting (h : s.Settles s') (hattached : s.terminal.attached = true) :
    s'.isWaiting = false := by
  rcases h with ⟨skipped, b, hfinds⟩ | ⟨skipped, hskips, hended | hinterrupt⟩
  · rw [isWaiting, hfinds.terminal]
    rfl
  · simp [isWaiting, hended]
  · have hstop := hskips.stop
    rw [if_pos hinterrupt] at hstop
    rw [isWaiting, hskips.terminal, hstop, hattached]
    simp

theorem noticeBreak_of_interrupt {rest : List ScriptEntry}
    (h : s.host.console.entries = .interrupt :: rest) (hattached : s.terminal.attached = true) :
    s.noticeBreak = { s.played rest with stop := .interrupted } := by
  obtain ⟨t, stop, ⟨entries, idle, output⟩, files, log, errors, now⟩ := s
  obtain rfl : entries = _ := h
  have ha : t.attached = true := hattached
  simp [noticeBreak, Console.takeBreak, Script.takeBreak, played, ha]

theorem noticeBreak_of_ne (h : ∀ rest, s.host.console.entries ≠ .interrupt :: rest) :
    s.noticeBreak = s := by
  obtain ⟨t, stop, ⟨entries, idle, output⟩, files, log, errors, now⟩ := s
  cases entries with
  | nil => rfl
  | cons e rest =>
    cases e with
    | interrupt => exact absurd rfl (h rest)
    | _ => rfl

theorem Lingers.skips (h : s.Lingers s') : ∃ skipped, s.Skips skipped s' := by
  cases h with
  | pause h => exact ⟨_, (Skips.refl _).cons (.pause h)⟩
  | idle h hidle =>
    refine ⟨[], { Skips.refl s with idle := ?_, ended := .inl }⟩
    rw [hidle]
    exact Nat.le_succ _

/-- What comes of waiting is not changed by a pause in front. -/
theorem Settles.of_lingers (hfirst : s.Lingers s₁) (h : s₁.Settles s') : s.Settles s' := by
  cases hfirst with
  | pause hentries => exact h.cons (.pause hentries)
  | @idle n hentries hidle =>
    rcases h with ⟨skipped, b, hfinds⟩ | ⟨skipped, hskips, hover⟩
    · obtain ⟨key, hkey, -⟩ := hfinds.key
      rw [show s.host.console.entries = _ from hkey] at hentries
      exact absurd hentries (by simp)
    · have hle : s'.host.console.idle ≤ n := hskips.idle
      exact .inr ⟨skipped, { hskips with idle := by omega }, hover⟩

/-- Asking for a key finds one or comes to the end of the input, unless it takes a pause or does not
get past an interruption. -/
theorem receive_cases (s : Session Script) (name : Text) (timeout : Nat) :
    (∃ b, s.Finds [] b (s.receive name timeout)) ∨
      (∃ skipped, s.Skips skipped (s.receive name timeout) ∧
        (s.receive name timeout).terminal.ended = true) ∨
      s.Lingers (s.receive name timeout) ∨
      (∃ rest, s.host.console.entries = .interrupt :: rest) ∧ s.receive name timeout = s := by
  rw [receive_script]
  split
  · rename_i key rest h
    exact .inl ⟨received key, ⟨key, h, rfl⟩, by simp, rfl, rfl, rfl⟩
  · rename_i rest h
    exact .inr (.inl ⟨[.ended], finished_skips name h (.inl rfl), rfl⟩)
  · rename_i rest h
    exact .inr (.inr (.inl (.pause h)))
  · rename_i rest h
    exact .inr (.inr (.inr ⟨⟨rest, h⟩, rfl⟩))
  · rename_i h
    split
    · rename_i hidle
      have hskips : s.Skips [] ((s.played []).finished name) :=
        finished_skips name h (.inr ⟨rfl, rfl, hidle⟩)
      rw [show s.played [] = s by rw [played, ← h]] at hskips
      exact .inr (.inl ⟨[], hskips, rfl⟩)
    · rename_i hidle
      exact .inr (.inr (.inl (.idle h (Nat.succ_pred hidle).symm)))

/-- A look at the console settles the matter, or takes one pause. -/
theorem poll_script (name : Text) (timeout : Nat) (hready : s.terminal.ready = false)
    (hended : s.terminal.ended = false) (hattached : s.terminal.attached = true) :
    s.Settles (s.poll name timeout) ∨ s.Lingers (s.poll name timeout) := by
  have hpoll : s.poll name timeout = s.noticeBreak.receive name timeout := by
    rw [poll, if_neg]
    rw [show s.noticeBreak.terminal = s.terminal from rfl, hready, hended]
    decide
  rw [hpoll]
  by_cases hbreak : ∃ rest, s.host.console.entries = .interrupt :: rest
  · obtain ⟨rest, hentries⟩ := hbreak
    rw [noticeBreak_of_interrupt hentries hattached]
    -- The machine is stopped, so it does not matter whether what is behind the interruption ends
    -- the input or is a pause.
    suffices h : ∀ skipped s', Skips { s.played rest with stop := .interrupted } skipped s' →
        s.Settles s' by
      rcases receive_cases { s.played rest with stop := .interrupted } name timeout with
        ⟨b, hfinds⟩ | ⟨skipped, hskips, -⟩ | hlingers | ⟨-, hsame⟩
      · exact .inl (.inl ⟨_, b, hfinds.cons (.interrupt hentries)⟩)
      · exact .inl (h _ _ hskips)
      · obtain ⟨skipped, hskips⟩ := hlingers.skips
        exact .inl (h _ _ hskips)
      · rw [hsame]
        exact .inl (h _ _ (.refl _))
    intro skipped s' hskips
    exact .inr ⟨_, hskips.cons (.interrupt hentries), .inr List.mem_cons_self⟩
  · rw [noticeBreak_of_ne fun rest h => hbreak ⟨rest, h⟩]
    rcases receive_cases s name timeout with
      ⟨b, hfinds⟩ | ⟨skipped, hskips, hover⟩ | hlingers | ⟨hagain, -⟩
    · exact .inl (.inl ⟨[], b, hfinds⟩)
    · exact .inl (.inr ⟨skipped, hskips, .inl hover⟩)
    · exact .inr hlingers
    · exact absurd hagain hbreak

/-- Waiting at an attached terminal comes to an end before its tries are used up, at a key, an
interruption or the end of the input. -/
theorem await_script (name : Text) (hready : s.terminal.ready = false)
    (hended : s.terminal.ended = false) (hattached : s.terminal.attached = true)
    (hrun : s.stop = .running) {tries : Nat}
    (htries : s.host.console.entries.length + s.host.console.idle < tries) :
    ∃ s', s.Settles s' ∧ s.await name tries = .ok s'.delivered := by
  induction tries generalizing s with
  | zero => exact absurd htries (Nat.not_lt_zero _)
  | succ tries ih =>
    have hwaiting : s.isWaiting = true := by
      rw [isWaiting, hready, hended, hattached, hrun]
      rfl
    rw [await_of_waiting hwaiting]
    rcases poll_script name pollTimeout hready hended hattached with hsettles | hlingers
    · exact ⟨_, hsettles, await_eq_delivered (hsettles.not_waiting hattached) name tries⟩
    · generalize s.poll name pollTimeout = s₁ at hlingers
      have hrest : ∃ s', s₁.Settles s' ∧ s₁.await name tries = .ok s'.delivered := by
        cases hlingers with
        | pause hentries =>
          rename_i rest
          have hless : rest.length + s.host.console.idle < tries := by
            rw [hentries, List.length_cons] at htries
            omega
          exact ih hready hended hattached hrun hless
        | idle hentries hidle =>
          rw [hidle] at htries
          exact ih hready hended hattached hrun (Nat.lt_of_succ_lt_succ htries)
      obtain ⟨s', hsettles, hawait⟩ := hrest
      exact ⟨s', hsettles.of_lingers hlingers, hawait⟩

end Session

end Terminal

end LittleComputer
