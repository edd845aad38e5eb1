import LittleComputer.Proofs.Keyboard
import LittleComputer.Proofs.ReadAhead

/-!
# Piped input

A character of an input that is no terminal is held by the window and then by the terminal, and both
remember the end of the input. What is still to come is in the terminal first, then among the keys
that the window read ahead, then in the input itself; every look at the keyboard moves characters
along and keeps them in this order, and neither part takes the input for ended while there is
something left behind it.
-/

namespace LittleComputer

open Terminal (received)

/-- No break character, and no failure that would pass for the end of the input. -/
def KeyEvent.isHarmless : KeyEvent → Bool
  | .byte b => b != Window.breakCharacter
  | .silence | .waitInterrupted | .readInterrupted => true
  | .waitFailed | .readFailed | .endOfFile => false

namespace Window

/-! ## The window -/

/-- What happens on an input up to its end. -/
def beforeEnd (events : List KeyEvent) : List KeyEvent := events.takeWhile (· ≠ .endOfFile)

/-- The keys of an input up to its end. -/
def input (w : Window) : List Byte := keysOf (beforeEnd w.events)

/-- The keys that the input itself will still give. -/
def upcoming (w : Window) : List Byte := if w.ended then [] else w.input

/-- The keys that the window will still give. -/
def pending (w : Window) : List Byte := w.keys ++ w.upcoming

/-- The input is no terminal, nothing disturbs it and nobody asks for an interruption. -/
structure Piped (w : Window) : Prop where
  isTerminal : w.isTerminal = false
  breakSeen : w.breakSeen = false
  harmless : w.ended = false → ∀ e ∈ beforeEnd w.events, e.isHarmless = true

/-- Nothing of a piped input was read yet. -/
structure Unread (w : Window) : Prop where
  isTerminal : w.isTerminal = false
  breakSeen : w.breakSeen = false
  ended : w.ended = false
  keys : w.keys = []
  harmless : ∀ e ∈ beforeEnd w.events, e.isHarmless = true

/-- A window whose input is untouched is still unread. -/
theorem Unread.of_sameInput {w w' : Window} (h : w.Unread) (hsame : SameInput w w') :
    w'.Unread where
  isTerminal := hsame.isTerminal.trans h.isTerminal
  breakSeen := hsame.breakSeen.trans h.breakSeen
  ended := hsame.ended.trans h.ended
  keys := hsame.keys.trans h.keys
  harmless := by
    rw [hsame.events]
    exact h.harmless

/-- What an answer to a request for a key says about the keys still to come. -/
def Gives (w : Window) : KeyRead → Window → Prop
  | .key b, w' => w.pending = b :: w'.pending
  | .nothing, w' => w'.pending = w.pending ∧ w'.events.length < w.events.length
  | .ended, w' => w.pending = [] ∧ w'.pending = []

theorem upcoming_of_ended {w : Window} (hended : w.ended = true) : w.upcoming = [] := if_pos hended

theorem meaning_ne_ended {e : KeyEvent} (he : e.isHarmless = true) (isTerminal : Bool) :
    meaning isTerminal e ≠ .ended := by
  cases e with
  | byte b =>
    rw [meaning]
    split
    · decide
    · exact KeyRead.noConfusion
  | silence | waitInterrupted | readInterrupted => exact KeyRead.noConfusion
  | waitFailed | readFailed | endOfFile => cases he

/-- The terminal is given the keys that were read ahead, and only after them a new one. -/
theorem console_read_eq (w : Window) (timeout : Nat) :
    Console.read w timeout = match w.keys with
      | b :: rest => (.key b, { w with keys := rest })
      | [] => w.readKey timeout := by
  cases hkeys : w.keys with
  | cons b rest =>
    have hread : w.rawRead 1 timeout = (some [b], { w with keys := rest }) := by
      simp [rawRead, hkeys, readKeys]
    simp [Console.read, hread]
  | nil =>
    have hw : ({ w with keys := [] } : Window) = w := by rw [← hkeys]
    simp only [Console.read, rawRead, hkeys, List.take_nil, List.drop_nil, List.length_nil, hw,
      Nat.sub_zero, readKeys]
    cases w.readKey timeout with
    | mk answer w' => cases answer <;> rfl

namespace Piped

variable {w : Window}

theorem hear_of_end (h : w.Piped) (hopen : w.ended = false) (hnext : w.next = .endOfFile)
    (timeout : Nat) : (w.hear timeout).ended = true ∧ w.upcoming = [] := by
  refine ⟨by simp [hear, h.isTerminal, hnext], ?_⟩
  rw [upcoming, hopen, if_neg Bool.false_ne_true, input]
  cases hevents : w.events with
  | nil => rfl
  | cons e rest =>
    have he : e = .endOfFile := by simpa [next, hevents] using hnext
    rw [he]
    rfl

theorem hear_of_event (h : w.Piped) (hopen : w.ended = false) (hnext : w.next ≠ .endOfFile)
    (timeout : Nat) : w.next.isHarmless = true ∧ (w.hear timeout).ended = false ∧
      beforeEnd w.events = w.next :: beforeEnd (w.hear timeout).events ∧
      (w.hear timeout).events.length < w.events.length := by
  cases hevents : w.events with
  | nil => exact absurd (by simp [next, hevents, h.isTerminal]) hnext
  | cons e rest =>
    have he : w.next = e := by rw [next, hevents, List.headD_cons]
    have hrest : (w.hear timeout).events = rest := by rw [hear, hevents, List.tail_cons]
    have hbefore : beforeEnd (e :: rest) = e :: beforeEnd rest :=
      List.takeWhile_cons_of_pos (by simpa [← he] using hnext)
    refine ⟨?_, by simp [hear, hnext], by rw [hbefore, he, hrest], by simp [hrest]⟩
    refine h.harmless hopen _ ?_
    rw [hevents, hbefore, he]
    exact List.mem_cons_self

/-- Hearing once takes the next event's key, if it has one, from the front of those upcoming. -/
theorem hear (h : w.Piped) (hopen : w.ended = false) (timeout : Nat) :
    (w.hear timeout).Piped ∧ w.upcoming = keysOf [w.next] ++ (w.hear timeout).upcoming := by
  by_cases hnext : w.next = .endOfFile
  · obtain ⟨hended, hnone⟩ := h.hear_of_end hopen hnext timeout
    refine ⟨⟨?_, ?_, fun hopen' => by simp [hended] at hopen'⟩, ?_⟩
    · rw [(Took.one hopen timeout).isTerminal, h.isTerminal]
    · simp [Window.hear, hnext, h.breakSeen]
    · rw [hnone, upcoming_of_ended hended, hnext]
      rfl
  · obtain ⟨hharmless, hopen', hbefore, -⟩ := h.hear_of_event hopen hnext timeout
    refine ⟨⟨?_, ?_, ?_⟩, ?_⟩
    · rw [(Took.one hopen timeout).isTerminal, h.isTerminal]
    · have hbreak : w.next ≠ .byte breakCharacter := fun hn => by
        rw [hn] at hharmless
        exact absurd hharmless (by decide)
      simp [Window.hear, hbreak, h.breakSeen]
    · intro _ e he
      refine h.harmless hopen e ?_
      rw [hbefore]
      exact List.mem_cons_of_mem _ he
    · rw [upcoming, upcoming, hopen, hopen', if_neg Bool.false_ne_true, if_neg Bool.false_ne_true,
        input, input, hbefore, ← List.singleton_append, keysOf_append]

/-- An answer that is no key means the end of the input, or that something else has happened on
it. -/
theorem readKey_gives (h : w.Piped) (hkeys : w.keys = []) (timeout : Nat) :
    (w.readKey timeout).2.Piped ∧ w.Gives (w.readKey timeout).1 (w.readKey timeout).2 := by
  cases hw : w.ended with
  | true =>
    rw [readKey_of_ended hw]
    have hnone : w.pending = [] := by rw [pending, hkeys, upcoming_of_ended hw, List.append_nil]
    exact ⟨h, hnone, hnone⟩
  | false =>
    obtain ⟨hpiped, hupcoming⟩ := h.hear hw timeout
    have hkept : (w.hear timeout).keys = [] := (Drew.one hw timeout).kept.trans hkeys
    rw [readKey_of_open hw]
    refine ⟨hpiped, ?_⟩
    -- Keys and waits in vain are events before the end, and only the end itself counts as the end.
    by_cases hnext : w.next = .endOfFile
    · obtain ⟨hended, hnone⟩ := h.hear_of_end hw hnext timeout
      rw [hnext, h.isTerminal]
      refine ⟨by rw [pending, hkeys, hnone, List.append_nil], ?_⟩
      rw [pending, hkept, upcoming_of_ended hended, List.append_nil]
    · obtain ⟨hharmless, -, -, hless⟩ := h.hear_of_event hw hnext timeout
      rw [keysOf_meaning w.isTerminal] at hupcoming
      cases hmeaning : meaning w.isTerminal w.next with
      | key b =>
        rw [hmeaning] at hupcoming
        show w.pending = b :: (w.hear timeout).pending
        rw [pending, pending, hkeys, hkept, hupcoming]
        rfl
      | nothing =>
        rw [hmeaning] at hupcoming
        refine ⟨?_, hless⟩
        rw [pending, pending, hkeys, hkept, hupcoming]
        rfl
      | ended => exact absurd hmeaning (meaning_ne_ended hharmless _)

/-- What has been read and what is still upcoming together stay the same. -/
theorem readKeys_upcoming (h : w.Piped) (timeout n : Nat) :
    (readKeys timeout n w).2.2.Piped ∧
      w.upcoming = (readKeys timeout n w).1 ++ (readKeys timeout n w).2.2.upcoming ∧
      (readKeys timeout n w).2.2.events.length ≤ w.events.length := by
  induction n generalizing w with
  | zero => exact ⟨h, rfl, Nat.le_refl _⟩
  | succ n ih =>
    cases hw : w.ended with
    | true =>
      obtain ⟨hnone, hsame⟩ := readKeys_of_ended hw timeout (n + 1)
      rw [hnone, hsame]
      exact ⟨h, rfl, Nat.le_refl _⟩
    | false =>
      obtain ⟨hpiped, hupcoming⟩ := h.hear hw timeout
      have hless : (w.hear timeout).events.length ≤ w.events.length := by
        rw [Window.hear, List.length_tail]
        exact Nat.sub_le _ _
      rw [keysOf_meaning w.isTerminal] at hupcoming
      rw [readKeys, readKey_of_open hw]
      cases hmeaning : meaning w.isTerminal w.next with
      | key b =>
        obtain ⟨hrest, hkeys, hlessrest⟩ := ih hpiped
        rw [hmeaning] at hupcoming
        refine ⟨hrest, ?_, Nat.le_trans hlessrest hless⟩
        rw [hupcoming, hkeys]
        rfl
      | nothing | ended =>
        rw [hmeaning] at hupcoming
        exact ⟨hpiped, hupcoming, hless⟩

/-- Looking for the break character moves keys, and finds none. -/
theorem takeBreak (h : w.Piped) (timeout : Nat) :
    (w.takeBreak timeout).1 = false ∧ (w.takeBreak timeout).2.Piped ∧
      (w.takeBreak timeout).2.pending = w.pending ∧
      (w.takeBreak timeout).2.events.length ≤ w.events.length := by
  obtain ⟨hpiped, hupcoming, hless⟩ := h.readKeys_upcoming timeout (w.events.length + 1)
  rw [Window.takeBreak, readAhead_eq]
  refine ⟨hpiped.breakSeen, ⟨hpiped.isTerminal, rfl, hpiped.harmless⟩, ?_, hless⟩
  show (w.keys ++ _) ++ (readKeys _ _ _).2.2.upcoming = w.keys ++ w.upcoming
  rw [hupcoming, List.append_assoc]

theorem read (h : w.Piped) (timeout : Nat) :
    (Console.read w timeout).2.Piped ∧
      w.Gives (Console.read w timeout).1 (Console.read w timeout).2 := by
  rw [console_read_eq]
  cases hkeys : w.keys with
  | nil => exact h.readKey_gives hkeys timeout
  | cons b rest =>
    refine ⟨⟨h.isTerminal, h.breakSeen, h.harmless⟩, ?_⟩
    show w.keys ++ w.upcoming = _
    rw [hkeys]
    rfl

theorem of_sameInput {w' : Window} (h : w.Piped) (hsame : SameInput w w') :
    w'.Piped ∧ w'.pending = w.pending := by
  refine ⟨⟨?_, ?_, ?_⟩, ?_⟩
  · rw [hsame.isTerminal, h.isTerminal]
  · rw [hsame.breakSeen, h.breakSeen]
  · rw [hsame.ended, hsame.events]
    exact h.harmless
  · rw [pending, pending, upcoming, upcoming, input, input, hsame.keys, hsame.ended, hsame.events]

end Piped

end Window

/-- Neither messages nor what is written to the display matter to the input. -/
theorem Console.Told.sameInput {w w' : Window} (h : Console.Told w w') : w.SameInput w' := by
  cases h with
  | nothing => exact .refl _
  | message text => exact w.message_sameInput text
  | write bytes => exact w.rawWrite_sameInput bytes

/-! ## The terminal -/

namespace Terminal

/-- A program that reads the keyboard will get the characters `bs` and then the end of the input. -/
structure Supplies (t : Terminal) (w : Window) (bs : List Byte) : Prop where
  piped : w.Piped
  bytes : t.held ++ w.pending.map received = bs
  ended : t.ended = true → w.pending = []

variable {t : Terminal} {w w' : Window} {bs : List Byte}

theorem Supplies.of_sameInput (h : Supplies t w bs) (hsame : Window.SameInput w w') :
    Supplies t w' bs := by
  obtain ⟨hpiped, hpending⟩ := h.piped.of_sameInput hsame
  exact ⟨hpiped, by rw [hpending, h.bytes], by rw [hpending]; exact h.ended⟩

/-- Looking for an interruption takes nothing of what the terminal will supply. -/
theorem Supplies.takeBreak (h : Supplies t w bs) : Supplies t (w.takeBreak 0).2 bs := by
  obtain ⟨-, hpiped, hpending, -⟩ := h.piped.takeBreak 0
  exact ⟨hpiped, by rw [hpending, h.bytes], by rw [hpending]; exact h.ended⟩

/-- A terminal without a character asks its window for one. -/
theorem Supplies.hear (h : Supplies t w bs) (hfree : t.ready = false) {answer : KeyRead}
    (hpiped : w'.Piped) (hgives : w.Gives answer w') (hopen : t.ended = false) :
    Supplies (t.hear answer) w' bs := by
  have hbytes := h.bytes
  rw [held, hfree, if_neg Bool.false_ne_true, List.nil_append] at hbytes
  cases answer with
  | key b =>
    refine ⟨hpiped, ?_, fun hended => ?_⟩
    · rw [← hbytes, show w.pending = b :: w'.pending from hgives]
      rfl
    · exact absurd (hopen.symm.trans hended) Bool.false_ne_true
  | nothing =>
    refine ⟨hpiped, ?_, fun hended => ?_⟩
    · rw [held, Terminal.hear, hfree, hgives.1]
      exact hbytes
    · exact absurd (hopen.symm.trans hended) Bool.false_ne_true
  | ended =>
    refine ⟨hpiped, ?_, fun _ => hgives.2⟩
    rw [← hbytes, hgives.1, hgives.2, held, Terminal.hear, hfree]
    rfl

namespace Session

variable {s : Session Window}

/-- A poll of piped input never stops the processor. -/
theorem poll_stop_of_piped (h : s.host.console.Piped) (name : Text) (timeout : Nat) :
    (s.poll name timeout).stop = s.stop := by
  rw [poll_stop, show (Console.takeBreak s.host.console).1 = false from (h.takeBreak 0).1]
  rfl

/-- A look at the keyboard moves characters along. If the terminal is without one before and after,
something has happened on the input. -/
theorem poll_supplies (h : Supplies s.terminal s.host.console bs) (name : Text) (timeout : Nat) :
    Supplies (s.poll name timeout).terminal (s.poll name timeout).host.console bs ∧
      (s.isWaiting = true → (s.poll name timeout).isWaiting = true →
        (s.poll name timeout).host.console.events.length < s.host.console.events.length) := by
  have hnotice : Supplies s.terminal s.noticeBreak.host.console bs := h.takeBreak
  have hless : s.noticeBreak.host.console.events.length ≤ s.host.console.events.length :=
    (h.piped.takeBreak 0).2.2.2
  simp only [poll]
  split
  · rename_i hfull
    refine ⟨hnotice, fun hwaiting => ?_⟩
    have hfull : (s.terminal.ready || s.terminal.ended) = true := hfull
    simp_all [isWaiting]
  · rename_i hfree
    have hfree : s.terminal.ready = false ∧ s.terminal.ended = false := by
      rwa [Bool.or_eq_true, not_or, Bool.not_eq_true, Bool.not_eq_true] at hfree
    obtain ⟨hpiped, hgives⟩ := hnotice.piped.read timeout
    have hsame := (receive_console name timeout s.noticeBreak).sameInput
    rw [receive_terminal]
    refine ⟨(hnotice.hear hfree.1 hpiped hgives hfree.2).of_sameInput hsame, ?_⟩
    intro _ hwaiting
    rw [isWaiting, receive_terminal] at hwaiting
    rw [hsame.events]
    generalize Console.read s.noticeBreak.host.console timeout = given at hgives hwaiting ⊢
    obtain ⟨answer, console⟩ := given
    cases answer with
    | key b => simp [Terminal.hear] at hwaiting
    | nothing => exact Nat.lt_of_lt_of_le hgives.2 hless
    | ended => simp [Terminal.hear] at hwaiting

/-- What the data register reads as when the characters `bs` are to come. -/
def firstWord (bs : List Byte) : Word := (bs.head?.map Word.ofByte).getD noCharacter

theorem await_supplies_of_not_waiting (name : Text) (tries : Nat)
    (h : Supplies s.terminal s.host.console bs) (hrun : s.stop = .running)
    (hs : s.isWaiting = false) :
    ∃ s', s.await name tries = .ok (firstWord bs, s') ∧
      Supplies s'.terminal s'.host.console bs.tail ∧ s'.stop = .running := by
  have hbytes := h.bytes
  cases hready : s.terminal.ready with
  | true =>
    rw [held, hready, if_pos rfl, List.singleton_append] at hbytes
    unfold await
    rw [if_pos hready, ← hbytes]
    exact ⟨_, rfl, ⟨h.piped, rfl, h.ended⟩, hrun⟩
  | false =>
    have hended : s.terminal.ended = true := by simpa [isWaiting, hready, hrun] using hs
    rw [held, hready, h.ended hended, if_neg Bool.false_ne_true] at hbytes
    unfold await
    rw [hready, if_neg Bool.false_ne_true, if_pos hended, ← hbytes]
    refine ⟨s, rfl, ⟨h.piped, ?_, h.ended⟩, hrun⟩
    rw [held, hready, h.ended hended]
    rfl

/-- Waiting for a character comes to an end, because the input does. -/
theorem await_supplies (name : Text) {tries : Nat} (h : Supplies s.terminal s.host.console bs)
    (hrun : s.stop = .running)
    (htries : s.isWaiting = true → s.host.console.events.length < tries) :
    ∃ s', s.await name tries = .ok (firstWord bs, s') ∧
      Supplies s'.terminal s'.host.console bs.tail ∧ s'.stop = .running := by
  induction tries generalizing s with
  | zero =>
    cases hs : s.isWaiting with
    | true => exact absurd (htries hs) (Nat.not_lt_zero _)
    | false => exact await_supplies_of_not_waiting name 0 h hrun hs
  | succ tries ih =>
    cases hs : s.isWaiting with
    | true =>
      obtain ⟨hpoll, hless⟩ := poll_supplies h name pollTimeout
      rw [await_of_waiting hs]
      refine ih hpoll ((poll_stop_of_piped h.piped name pollTimeout).trans hrun) ?_
      intro hs'
      have hlast := htries hs
      have hnext := hless hs hs'
      omega
    | false => exact await_supplies_of_not_waiting name (tries + 1) h hrun hs

end Session

end Terminal

end LittleComputer
