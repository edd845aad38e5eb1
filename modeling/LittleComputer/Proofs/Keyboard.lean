import LittleComputer.Console.Script
import LittleComputer.Proofs.Interruption
import LittleComputer.Proofs.Messages

/-!
# Keys on their way through the terminal

A terminal holds at most one character, and asks its console for another one only when it holds
none and the input has not ended. So the characters that it was given by the console are those that
were read from its data register, together with those that were cleared away, and the one it holds,
in this order. The console is arbitrary, and a list of its answers is kept beside it.
-/

namespace LittleComputer

variable {κ : Type} [Console κ]

/-! ## Messages -/

/-- A console that is left alone, shown a message or written to, and asked nothing. -/
inductive Console.Told (c : κ) : κ → Prop where
  | nothing : Told c c
  | message (text : Text) : Told c (Console.message c text)
  | write (bytes : List Byte) : Told c (Console.write c bytes)

namespace Host

/-- A message may be shown on the console, and nothing else happens to it. -/
theorem report_console (h : Host κ) (s : Severity) (text : Text) :
    Console.Told h.console (h.report s text).console := by
  rw [report_shown]
  split
  · split
    · exact .message _
    · exact .nothing
  · exact .nothing

end Host

/-! ## Answers -/

/-- A console with the list of its answers so far to requests for a key. -/
structure Recorded (κ : Type) where
  console : κ
  answers : List KeyRead

namespace Recorded

instance : Console (Recorded κ) where
  takeBreak r :=
    let (asked, console) := Console.takeBreak r.console
    (asked, { r with console })
  read r timeout :=
    let (answer, console) := Console.read r.console timeout
    (answer, ⟨console, r.answers ++ [answer]⟩)
  write r bytes := { r with console := Console.write r.console bytes }
  message r text := { r with console := Console.message r.console text }
  patience r := Console.patience r.console

end Recorded

theorem Console.Told.answers {r r' : Recorded κ} (h : Console.Told r r') :
    r'.answers = r.answers := by
  cases h with
  | nothing => rfl
  | message text => rfl
  | write bytes => rfl

namespace Terminal

def held (t : Terminal) : List Byte := if t.ready then [t.buffer] else []

/-- The terminal after an answer of its console. -/
def hear (t : Terminal) : KeyRead → Terminal
  | .key b => { t with buffer := received b, ready := true }
  | .nothing => t
  | .ended => { t with ended := true }

/-- The terminal after some answers, none of which it asks for while it holds a character or after
the end of the input. -/
inductive Hears : Terminal → List KeyRead → Terminal → Prop where
  | nil (t : Terminal) : Hears t [] t
  | cons {t t' : Terminal} {answer : KeyRead} {answers : List KeyRead} (hfree : t.ready = false)
      (hopen : t.ended = false) (hrest : Hears (t.hear answer) answers t') :
      Hears t (answer :: answers) t'

/-- The value that the data register reads as once there is nothing to wait for. -/
def Delivers (t : Terminal) (w : Word) (t' : Terminal) : Prop :=
  (t.ready = true ∧ w = Word.ofByte t.buffer ∧ t' = { t with ready := false }) ∨
    (t.ready = false ∧ w = noCharacter ∧ t' = t)

theorem Hears.append {t t' t'' : Terminal} {answers answers' : List KeyRead}
    (h : Hears t answers t') (h' : Hears t' answers' t'') : Hears t (answers ++ answers') t'' := by
  induction h with
  | nil t => exact h'
  | cons hfree hopen _ ih => exact .cons hfree hopen (ih h')

namespace Session

theorem receive_terminal (name : Text) (timeout : Nat) (s : Session κ) :
    (s.receive name timeout).terminal =
      s.terminal.hear (Console.read s.host.console timeout).1 := by
  unfold receive
  cases Console.read s.host.console timeout with
  | mk answer console => cases answer <;> rfl

/-- Of the console nothing is asked but a key. -/
theorem receive_console (name : Text) (timeout : Nat) (s : Session κ) :
    Console.Told (Console.read s.host.console timeout).2
      (s.receive name timeout).host.console := by
  unfold receive
  cases Console.read s.host.console timeout with
  | mk answer console =>
    cases answer with
    | key b => exact .nothing
    | nothing => exact .nothing
    | ended => exact Host.report_console { s.host with console } _ _

/-- Without anything to wait for, the data register is read at once. -/
theorem await_delivers {name : Text} {s s' : Session κ} {w : Word} {tries : Nat}
    (hs : s.isWaiting = false) (h : s.await name tries = .ok (w, s')) :
    Delivers s.terminal w s'.terminal ∧ s'.host = s.host := by
  rw [await_eq_delivered hs, delivered] at h
  split at h
  · rename_i hready
    cases h
    exact ⟨.inl ⟨hready, rfl, rfl⟩, rfl⟩
  · rename_i hready
    cases h
    exact ⟨.inr ⟨Bool.eq_false_iff.mpr hready, rfl, rfl⟩, rfl⟩

/-- The status register looks at the console once, and says whether a character is held. -/
theorem readRegister_status (name : Text) (s : Session κ) :
    s.readRegister name keyboardStatus =
      .ok (if (s.poll name 0).terminal.ready then readyBit else 0, s.poll name 0) := by
  rw [readRegister, if_neg (by decide), if_pos rfl]

/-- The data register waits for a character. -/
theorem readRegister_data (name : Text) (s : Session κ) :
    s.readRegister name keyboardData =
      s.await name (Console.patience s.host.console + 1) := by
  rw [readRegister, if_neg (by decide), if_neg (by decide), if_pos rfl]

/-- A character that is held is given without a look at the console. -/
theorem readRegister_data_of_ready {s : Session κ} (hready : s.terminal.ready = true)
    (name : Text) : s.readRegister name keyboardData =
      .ok (Word.ofByte s.terminal.buffer,
        { s with terminal := { s.terminal with ready := false } }) := by
  rw [readRegister_data, await, if_pos hready]

theorem readRegister_data_of_ended {s : Session κ} (hready : s.terminal.ready = false)
    (hended : s.terminal.ended = true) (name : Text) :
    s.readRegister name keyboardData = .ok (noCharacter, s) := by
  rw [readRegister_data, await, hready, if_neg Bool.false_ne_true, if_pos hended]

theorem readRegister_other (name : Text) {a : Word} (s : Session κ) (ha : keyboardStatus ≤ a)
    (hstatus : a ≠ keyboardStatus) (hdata : a ≠ keyboardData) :
    ∃ w, s.readRegister name a = .ok (w, s) := by
  rw [readRegister, if_neg (BitVec.not_lt.mpr ha), if_neg hstatus, if_neg hdata]
  split
  · exact ⟨_, rfl⟩
  · exact ⟨_, rfl⟩

/-- Once the input has ended, a look at the console can only find an interruption. -/
theorem readRegister_status_of_ended {s : Session κ} (hready : s.terminal.ready = false)
    (hended : s.terminal.ended = true) (name : Text) :
    s.readRegister name keyboardStatus = .ok (0, s.noticeBreak) := by
  have hsame : s.noticeBreak.terminal = s.terminal := rfl
  have hpoll : s.poll name 0 = s.noticeBreak := by
    rw [poll, if_pos (by rw [hsame, hended, Bool.or_true])]
  rw [readRegister_status, hpoll, hsame, hready, if_neg Bool.false_ne_true]

variable {name : Text} {s s' : Session (Recorded κ)} {w : Word}

theorem receive_answers (name : Text) (timeout : Nat) (s : Session (Recorded κ)) :
    (s.receive name timeout).host.console.answers =
      s.host.console.answers ++ [(Console.read s.host.console timeout).1] := by
  rw [(s.receive_console name timeout).answers]
  rfl

/-- A look asks the console for a key only if the terminal holds none and the input is not at its
end. -/
theorem poll_hears (name : Text) (timeout : Nat) (s : Session (Recorded κ)) :
    ∃ answers, (s.poll name timeout).host.console.answers = s.host.console.answers ++ answers ∧
      Hears s.terminal answers (s.poll name timeout).terminal := by
  simp only [poll]
  split
  · exact ⟨[], (List.append_nil _).symm, .nil _⟩
  · rename_i hfree
    rw [Bool.or_eq_true, not_or, Bool.not_eq_true, Bool.not_eq_true] at hfree
    refine ⟨_, s.noticeBreak.receive_answers name timeout, ?_⟩
    rw [receive_terminal]
    exact .cons hfree.1 hfree.2 (.nil _)

/-- While it waits the terminal hears some answers, and then it delivers what it holds. -/
theorem await_hears {tries : Nat} (h : s.await name tries = .ok (w, s')) :
    ∃ answers t, s'.host.console.answers = s.host.console.answers ++ answers ∧
      Hears s.terminal answers t ∧ Delivers t w s'.terminal := by
  have of_not_waiting {s : Session (Recorded κ)} {tries : Nat} (hs : s.isWaiting = false)
      (h : s.await name tries = .ok (w, s')) : ∃ answers t,
        s'.host.console.answers = s.host.console.answers ++ answers ∧
          Hears s.terminal answers t ∧ Delivers t w s'.terminal := by
    obtain ⟨hdelivers, hhost⟩ := await_delivers hs h
    exact ⟨[], s.terminal, by rw [hhost, List.append_nil], .nil _, hdelivers⟩
  induction tries generalizing s with
  | zero =>
    cases hs : s.isWaiting with
    | true =>
      rw [await_zero_of_waiting hs] at h
      cases h
    | false => exact of_not_waiting hs h
  | succ tries ih =>
    cases hs : s.isWaiting with
    | true =>
      rw [await_of_waiting hs] at h
      obtain ⟨answers, hanswers, hhears⟩ := s.poll_hears name pollTimeout
      obtain ⟨answers', t, hanswers', hhears', hdelivers⟩ := ih h
      refine ⟨answers ++ answers', t, ?_, hhears.append hhears', hdelivers⟩
      rw [hanswers', hanswers, List.append_assoc]
    | false => exact of_not_waiting hs h

/-- Only the data register takes the character away that a terminal holds. -/
theorem readRegister_hears {a : Word} (h : s.readRegister name a = .ok (w, s')) :
    ∃ answers t, s'.host.console.answers = s.host.console.answers ++ answers ∧
      Hears s.terminal answers t ∧
      (a = keyboardData ∧ Delivers t w s'.terminal ∨ a ≠ keyboardData ∧ s'.terminal = t) := by
  simp only [readRegister] at h
  split at h
  · cases h
  · split at h
    · rename_i hstatus
      cases h
      obtain ⟨answers, hanswers, hhears⟩ := s.poll_hears name 0
      refine ⟨answers, _, hanswers, hhears, .inr ⟨?_, rfl⟩⟩
      rw [hstatus]
      decide
    · split at h
      · rename_i hdata
        obtain ⟨answers, t, hanswers, hhears, hdelivers⟩ := await_hears h
        exact ⟨answers, t, hanswers, hhears, .inl ⟨hdata, hdelivers⟩⟩
      · rename_i hdata
        have hs : s' = s := by
          split at h
          · cases h
            rfl
          · cases h
            rfl
        rw [hs]
        exact ⟨[], s.terminal, (List.append_nil _).symm, .nil _, .inr ⟨hdata, rfl⟩⟩

end Session

end Terminal

/-! ## Accounts -/

def KeyRead.received? : KeyRead → Option Byte
  | .key b => some (Terminal.received b)
  | .nothing | .ended => none

namespace Terminal

/-- What is done with a terminal. -/
inductive Access where
  /-- Reading a register, with its value. -/
  | read (a value : Word)
  | write (a value : Word)
  /-- Forgetting the character that is held, if there is one. -/
  | clear (held : List Byte)

/-- The characters that an access takes from the terminal. -/
def Access.taken : Access → List Word
  | .read a w => if a = keyboardData ∧ w ≠ noCharacter then [w] else []
  | .write _ _ => []
  | .clear held => held.map Word.ofByte

/-- No character is read as the word that says there is none. -/
theorem ofByte_ne_noCharacter (b : Byte) : Word.ofByte b ≠ noCharacter := by
  revert b
  decide

theorem received_ne (b : Byte) : received b ≠ Byte.carriageReturn := by
  revert b
  decide

/-- What the answers of the console, the words given to the program and the terminal have to do with
each other. -/
structure Accounted (answers : List KeyRead) (given : List Word) (t : Terminal) : Prop where
  keys : (answers.filterMap KeyRead.received?).map Word.ofByte =
    given ++ t.held.map Word.ofByte
  ended : t.ended = true ↔ KeyRead.ended ∈ answers
  exclusive : ¬ (t.ready = true ∧ t.ended = true)

namespace Accounted

variable {answers : List KeyRead} {given : List Word} {t t' : Terminal}

/-- One more answer keeps the account: a key is held, and the end is remembered. -/
theorem hear (h : Accounted answers given t) (hfree : t.ready = false) (hopen : t.ended = false)
    (answer : KeyRead) : Accounted (answers ++ [answer]) given (t.hear answer) := by
  have hkeys := h.keys
  have hended : KeyRead.ended ∉ answers := fun hmem => by simp [h.ended.mpr hmem] at hopen
  rw [held, hfree, if_neg Bool.false_ne_true, List.map_nil, List.append_nil] at hkeys
  cases answer with
  | key b =>
    refine ⟨?_, ?_, ?_⟩
    · simp [hkeys, KeyRead.received?, Terminal.hear, held]
    · simp [Terminal.hear, hopen, hended]
    · simp [Terminal.hear, hopen]
  | nothing =>
    refine ⟨?_, ?_, ?_⟩
    · simp [hkeys, KeyRead.received?, Terminal.hear, held, hfree]
    · simp [Terminal.hear, hopen, hended]
    · simp [Terminal.hear, hopen]
  | ended =>
    refine ⟨?_, ?_, ?_⟩
    · simp [hkeys, KeyRead.received?, Terminal.hear, held, hfree]
    · simp [Terminal.hear]
    · simp [Terminal.hear, hfree]

theorem hears (h : Accounted answers given t) {new : List KeyRead} (hnew : Hears t new t') :
    Accounted (answers ++ new) given t' := by
  induction hnew generalizing answers with
  | nil t => rwa [List.append_nil]
  | cons hfree hopen _ ih =>
    rename_i answer rest _
    have hrest := ih (h.hear hfree hopen answer)
    rwa [List.append_assoc] at hrest

/-- The character that the data register gives is no longer held. -/
theorem delivers (h : Accounted answers given t) {w : Word} (hw : Delivers t w t') :
    Accounted answers (given ++ (Access.read keyboardData w).taken) t' := by
  rw [Access.taken]
  rcases hw with ⟨hready, rfl, rfl⟩ | ⟨hready, rfl, rfl⟩
  · rw [if_pos ⟨rfl, ofByte_ne_noCharacter _⟩]
    refine ⟨?_, h.ended, fun hboth => Bool.false_ne_true hboth.1⟩
    simp [h.keys, held, hready]
  · rw [if_neg fun hw => hw.2 rfl, List.append_nil]
    exact h

/-- Whatever was held is gone, and counts as given. -/
theorem cleared (h : Accounted answers given t) :
    Accounted answers (given ++ t.held.map Word.ofByte) t.clear := by
  refine ⟨?_, h.ended, fun hboth => Bool.false_ne_true hboth.1⟩
  rw [h.keys, show t.clear.held = [] from rfl, List.map_nil, List.append_nil]

/-- A word that was given to the program is a character, and not an end of line as it is typed. -/
theorem of_mem (h : Accounted answers given t) {w : Word} (hw : w ∈ given) :
    w.toNat < 0x100 ∧ w ≠ Word.ofByte Byte.carriageReturn := by
  have hmem : w ∈ (answers.filterMap KeyRead.received?).map Word.ofByte := by
    rw [h.keys]
    exact List.mem_append_left _ hw
  obtain ⟨b, hb, rfl⟩ := List.mem_map.mp hmem
  obtain ⟨answer, -, ha⟩ := List.mem_filterMap.mp hb
  cases answer with
  | key c =>
    cases ha
    have hc := received_ne c
    generalize received c = b at hc
    revert b
    decide
  | nothing => cases ha
  | ended => cases ha

end Accounted

/-! ## Histories -/

/-- What accesses can make of a new terminal, the latest access last. Between two of them anything
may happen to the processor and the host but that the console is asked for a key. -/
inductive Used : List Access → Device → StopCode → Host (Recorded κ) → Prop where
  | new (name : Text) (attached : Bool) (stop : StopCode) {host : Host (Recorded κ)}
      (hnew : host.console.answers = []) : Used [] (.newTerminal name attached) stop host
  | read {past : List Access} {d d' : Device} {stop stop' : StopCode}
      {host host' : Host (Recorded κ)} {a w : Word} (hpast : Used past d stop host)
      (hread : d.read a stop host = .ok (w, d', stop', host')) :
      Used (past ++ [.read a w]) d' stop' host'
  | write {past : List Access} {d d' : Device} {stop : StopCode} {host host' : Host (Recorded κ)}
      {a w : Word} (hpast : Used past d stop host) (hwrite : d.write a w host = .ok (d', host')) :
      Used (past ++ [.write a w]) d' stop host'
  | clear {past : List Access} {d : Device} {stop : StopCode} {host : Host (Recorded κ)}
      {t : Terminal} (hpast : Used past d stop host) (hkind : d.kind = .terminal t) :
      Used (past ++ [.clear t.held]) d.clear stop host
  | elsewhere {past : List Access} {d : Device} {stop : StopCode} {host : Host (Recorded κ)}
      (hpast : Used past d stop host) (stop' : StopCode) {host' : Host (Recorded κ)}
      (hanswers : host'.console.answers = host.console.answers) : Used past d stop' host'

end Terminal

/-! ## Terminals as devices -/

namespace Device

open Terminal

theorem read_terminal {d : Device} {t : Terminal} {stop : StopCode} {host : Host κ} {a w : Word}
    {s : Session κ} (hkind : d.kind = .terminal t)
    (h : Session.readRegister d.name a ⟨t, stop, host⟩ = .ok (w, s)) :
    d.read a stop host = .ok (w, { d with kind := .terminal s.terminal }, s.stop, s.host) := by
  rw [read, hkind]
  dsimp only
  rw [h]

/-- A terminal that was read is the same device with what reading made of its terminal. -/
theorem terminal_of_read {d d' : Device} {t : Terminal} {stop stop' : StopCode}
    {host host' : Host κ} {a w : Word} (hkind : d.kind = .terminal t)
    (h : d.read a stop host = .ok (w, d', stop', host')) :
    ∃ s, Session.readRegister d.name a ⟨t, stop, host⟩ = .ok (w, s) ∧
      d' = { d with kind := .terminal s.terminal } ∧ host' = s.host := by
  rw [read, hkind] at h
  dsimp only at h
  split at h
  · rename_i hs
    cases h
    exact ⟨_, hs, rfl, rfl⟩
  · cases h

theorem read_terminal_of_same {d : Device} {t : Terminal} {stop : StopCode} {host : Host κ}
    {a w : Word} {s : Session κ} (hkind : d.kind = .terminal t)
    (h : Session.readRegister d.name a ⟨t, stop, host⟩ = .ok (w, s)) (hsame : s.terminal = t) :
    d.read a stop host = .ok (w, d, s.stop, s.host) := by
  rw [read_terminal hkind h, hsame, ← hkind]

theorem write_terminal {d : Device} {t : Terminal} {a : Word} (hkind : d.kind = .terminal t)
    (ha : keyboardStatus ≤ a) (w : Word) (host : Host κ) :
    ∃ host', d.write a w host = .ok (d, host') ∧ Console.Told host.console host'.console := by
  rw [write, hkind]
  simp only [Session.writeRegister, if_neg (BitVec.not_lt.mpr ha)]
  by_cases hdisplay : a = displayData
  · rw [if_pos hdisplay]
    exact ⟨_, rfl, .write _⟩
  · rw [if_neg hdisplay]
    exact ⟨_, rfl, .nothing⟩

theorem terminal_of_write {d d' : Device} {t : Terminal} {a w : Word} {host host' : Host κ}
    (hkind : d.kind = .terminal t) (h : d.write a w host = .ok (d', host')) :
    d' = d ∧ Console.Told host.console host'.console := by
  by_cases ha : keyboardStatus ≤ a
  · obtain ⟨host'', hwrite, htold⟩ := write_terminal hkind ha w host
    rw [hwrite] at h
    cases h
    exact ⟨rfl, htold⟩
  · rw [write, hkind] at h
    simp only [Session.writeRegister, if_pos (BitVec.not_le.mp ha)] at h
    cases h

end Device

namespace Terminal

variable {past : List Access} {d : Device} {stop : StopCode} {host : Host (Recorded κ)}

/-- The account is kept by every access, by induction over the history. -/
theorem Used.accounted (h : Used past d stop host) :
    ∃ t, d.kind = .terminal t ∧
      Accounted host.console.answers (past.flatMap Access.taken) t := by
  induction h with
  | new name attached stop hnew =>
    refine ⟨_, rfl, ?_, ?_, ?_⟩
    · rw [hnew]
      rfl
    · rw [hnew]
      simp [Terminal.new]
    · simp [Terminal.new]
  | @read _ _ _ _ _ _ _ a w _ hread ih =>
    obtain ⟨t, hkind, haccounts⟩ := ih
    obtain ⟨s, hs, rfl, rfl⟩ := Device.terminal_of_read hkind hread
    obtain ⟨answers, heard, hanswers, hhears, hend⟩ := Session.readRegister_hears hs
    have hheard := haccounts.hears hhears
    refine ⟨_, rfl, ?_⟩
    rw [hanswers, List.flatMap_append, List.flatMap_singleton]
    rcases hend with ⟨rfl, hdelivers⟩ | ⟨hdata, hterminal⟩
    · exact hheard.delivers hdelivers
    · have hnone : (Access.read a w).taken = [] := if_neg fun hd => hdata hd.1
      rw [hterminal, hnone, List.append_nil]
      exact hheard
  | @write _ _ _ _ _ _ a w _ hwrite ih =>
    obtain ⟨t, hkind, haccounts⟩ := ih
    obtain ⟨rfl, htold⟩ := Device.terminal_of_write hkind hwrite
    refine ⟨t, hkind, ?_⟩
    rw [htold.answers, List.flatMap_append, List.flatMap_singleton]
    show Accounted _ (_ ++ []) t
    rwa [List.append_nil]
  | @clear _ d _ _ t _ hkind ih =>
    obtain ⟨t', hkind', haccounts⟩ := ih
    obtain rfl : t = t' := DeviceKind.terminal.inj (hkind.symm.trans hkind')
    refine ⟨t.clear, ?_, ?_⟩
    · rw [Device.clear, hkind]
    · rw [List.flatMap_append, List.flatMap_singleton]
      exact haccounts.cleared
  | elsewhere _ _ hanswers ih =>
    obtain ⟨t, hkind, haccounts⟩ := ih
    exact ⟨t, hkind, by rwa [hanswers]⟩

/-- What holds of a terminal `t` at every point of its use. -/
structure KeepsKeys (past : List Access) (d : Device) (stop : StopCode) (host : Host (Recorded κ))
    (t : Terminal) : Prop where
  /-- The characters from the console, in their order, are those that were taken and the one that is
  held. -/
  keys : (host.console.answers.filterMap KeyRead.received?).map Word.ofByte =
    past.flatMap Access.taken ++ t.held.map Word.ofByte
  values : ∀ w, .read keyboardData w ∈ past → w ≠ noCharacter →
    w.toNat < 0x100 ∧ w ≠ Word.ofByte Byte.carriageReturn
  exclusive : ¬ (t.ready = true ∧ t.ended = true)
  ended : t.ended = true ↔ KeyRead.ended ∈ host.console.answers
  /-- No read asks for a key while a character is held or after the end of the input. -/
  asks : ∀ a w d' stop' host', d.read a stop host = .ok (w, d', stop', host') →
    ∃ answers t', host'.console.answers = host.console.answers ++ answers ∧ Hears t answers t'
  holding : t.ready = true → d.read keyboardData stop host =
    .ok (Word.ofByte t.buffer, { d with kind := .terminal { t with ready := false } }, stop, host)
  statusEnded : t.ended = true → ∃ stop' host',
    d.read keyboardStatus stop host = .ok (0, d, stop', host') ∧
      host'.console.answers = host.console.answers
  dataEnded : t.ended = true → d.read keyboardData stop host = .ok (noCharacter, d, stop, host)
  others : ∀ a, keyboardStatus ≤ a → a ≠ keyboardStatus → a ≠ keyboardData →
    ∃ w, d.read a stop host = .ok (w, d, stop, host)
  writes : ∀ a, keyboardStatus ≤ a → ∀ w, ∃ host', d.write a w host = .ok (d, host') ∧
    host'.console.answers = host.console.answers

/-- A terminal neither loses nor repeats a character nor changes their order, whatever its console
answers and however it is used. -/
theorem used_keepsKeys (h : Used past d stop host) :
    ∃ t, d.kind = .terminal t ∧ KeepsKeys past d stop host t := by
  obtain ⟨t, hkind, haccounts⟩ := h.accounted
  have hfree (hended : t.ended = true) : t.ready = false :=
    Bool.eq_false_iff.mpr fun hready => haccounts.exclusive ⟨hready, hended⟩
  refine ⟨t, hkind, ?_⟩
  exact {
    keys := haccounts.keys
    values := by
      intro w hw hne
      refine haccounts.of_mem (List.mem_flatMap.mpr ⟨_, hw, ?_⟩)
      rw [Access.taken, if_pos ⟨rfl, hne⟩]
      exact List.mem_singleton_self w
    exclusive := haccounts.exclusive
    ended := haccounts.ended
    asks := by
      intro a w d' stop' host' hread
      obtain ⟨s, hs, -, rfl⟩ := Device.terminal_of_read hkind hread
      obtain ⟨answers, heard, hanswers, hhears, -⟩ := Session.readRegister_hears hs
      exact ⟨answers, heard, hanswers, hhears⟩
    holding := fun hready =>
      Device.read_terminal hkind (Session.readRegister_data_of_ready hready d.name)
    statusEnded := by
      intro hended
      have hs := Session.readRegister_status_of_ended (s := ⟨t, stop, host⟩) (hfree hended) hended
        d.name
      exact ⟨_, _, Device.read_terminal_of_same hkind hs rfl, rfl⟩
    dataEnded := by
      intro hended
      have hs := Session.readRegister_data_of_ended (s := ⟨t, stop, host⟩) (hfree hended) hended
        d.name
      exact Device.read_terminal_of_same hkind hs rfl
    others := by
      intro a ha hstatus hdata
      obtain ⟨w, hs⟩ := Session.readRegister_other d.name (⟨t, stop, host⟩ : Session (Recorded κ))
        ha hstatus hdata
      exact ⟨w, Device.read_terminal_of_same hkind hs rfl⟩
    writes := by
      intro a ha w
      obtain ⟨host', hwrite, htold⟩ := Device.write_terminal hkind ha w host
      exact ⟨host', hwrite, htold.answers⟩ }

/-- Of two typed characters the first is read and the end of the line is cleared away. Then there is
a pause, and the input ends. -/
theorem used_keepsKeys_typed :
    ∃ (d : Device) (host : Host (Recorded Script)) (t : Terminal),
      let past : List Access := [.read keyboardStatus readyBit, .read keyboardData 0x61,
        .read keyboardStatus readyBit, .clear [Byte.newline], .read keyboardData noCharacter]
      Used past d .running host ∧ KeepsKeys past d .running host t ∧
        host.console.answers = [.key 0x61, .key Byte.carriageReturn, .nothing, .ended] := by
  let device (buffer : Byte) (ready ended : Bool) : Device :=
    { Device.newTerminal [] true with kind := .terminal ⟨buffer, ready, ended, true⟩ }
  let host (left : List ScriptEntry) (answers : List KeyRead) : Host (Recorded Script) :=
    .new ⟨.ofEntries left 0, answers⟩ (.empty []) default
  have h₀ : Used [] (device 0 false false) .running
      (host [.key 0x61, .key Byte.carriageReturn, .pause, .ended] []) :=
    .new [] true .running rfl
  have h₁ : Used [.read keyboardStatus readyBit] (device 0x61 true false) .running
      (host [.key Byte.carriageReturn, .pause, .ended] [.key 0x61]) := .read h₀ rfl
  have h₂ : Used [.read keyboardStatus readyBit, .read keyboardData 0x61]
      (device 0x61 false false) .running
      (host [.key Byte.carriageReturn, .pause, .ended] [.key 0x61]) := .read h₁ rfl
  have h₃ : Used [.read keyboardStatus readyBit, .read keyboardData 0x61,
        .read keyboardStatus readyBit] (device Byte.newline true false) .running
      (host [.pause, .ended] [.key 0x61, .key Byte.carriageReturn]) := .read h₂ rfl
  have h₄ : Used [.read keyboardStatus readyBit, .read keyboardData 0x61,
        .read keyboardStatus readyBit, .clear [Byte.newline]] (device 0 false false) .running
      (host [.pause, .ended] [.key 0x61, .key Byte.carriageReturn]) := .clear h₃ rfl
  have h₅ : Used [.read keyboardStatus readyBit, .read keyboardData 0x61,
        .read keyboardStatus readyBit, .clear [Byte.newline], .read keyboardData noCharacter]
      (device 0 false true) .running
      (host [] [.key 0x61, .key Byte.carriageReturn, .nothing, .ended]) := .read h₄ rfl
  obtain ⟨t, -, hkeeps⟩ := used_keepsKeys h₅
  exact ⟨_, _, t, h₅, hkeeps, rfl⟩

end Terminal

end LittleComputer
