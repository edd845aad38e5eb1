import LittleComputer.Console.Window

/-!
# Keys read ahead

Two requests take keys from the same input: reading, and looking for the break character. The second
one keeps the keys it meets for the first one. Both do it by `readKey`, whose effect depends on the
next answer of the input alone; so each request is followed by the list of the answers that it took,
and a sequence of requests by their concatenation.
-/

namespace LittleComputer

namespace Window

/-! ## The input -/

/-- The first `n` answers of an input: what will happen on it, and then silence or its end. -/
def answers (isTerminal : Bool) : Nat → List KeyEvent → List KeyEvent
  | 0, _ => []
  | n + 1, events =>
    events.headD (if isTerminal then .silence else .endOfFile) :: answers isTerminal n events.tail

/-- A byte that counts as a key, which zero and the break character do not. -/
def key? : KeyEvent → Option Byte
  | .byte b => if b = breakCharacter ∨ b = 0 then none else some b
  | _ => none

/-- The keys among some answers. -/
def keysOf (heard : List KeyEvent) : List Byte := heard.filterMap key?

/-- What is answered to some requests and then to others is answered to all of them together. -/
theorem answers_add (isTerminal : Bool) (m n : Nat) (events : List KeyEvent) :
    answers isTerminal (m + n) events =
      answers isTerminal m events ++ answers isTerminal n (events.drop m) := by
  induction m generalizing events with
  | zero => rw [Nat.zero_add, answers, List.nil_append, List.drop_zero]
  | succ m ih =>
    rw [Nat.add_right_comm, answers, answers, ih, List.drop_tail, List.cons_append]

@[simp]
theorem keysOf_nil : keysOf [] = [] := rfl

@[simp]
theorem keysOf_append (heard heard' : List KeyEvent) :
    keysOf (heard ++ heard') = keysOf heard ++ keysOf heard' := List.filterMap_append

/-! ## One key -/

/-- What is made of an answer of the input. -/
def meaning (isTerminal : Bool) : KeyEvent → KeyRead
  | .byte b => if b = breakCharacter ∨ b = 0 then .nothing else .key b
  | .silence | .waitInterrupted | .readInterrupted => .nothing
  | .waitFailed | .readFailed => .ended
  | .endOfFile => if isTerminal then .nothing else .ended

/-- The next answer of the input. -/
def next (w : Window) : KeyEvent := w.events.headD (if w.isTerminal then .silence else .endOfFile)

/-- The window once the input has answered. -/
def hear (w : Window) (timeout : Nat) : Window :=
  { w.rawMode.wait (timeout * 1000) with
    events := w.events.tail
    breakSeen := w.breakSeen || w.next = .byte breakCharacter
    ended := !w.isTerminal && w.next = .endOfFile }

theorem readKey_of_ended {w : Window} (hended : w.ended = true) (timeout : Nat) :
    w.readKey timeout = (.ended, w) := by
  rw [readKey, if_pos hended]

theorem rawMode_eq (w : Window) : w.rawMode =
    { w with
      inRawMode := w.rawMode.inRawMode, settings := w.rawMode.settings
      deeds := w.rawMode.deeds } := by
  unfold rawMode
  split <;> rfl

theorem nextEvent_eq (w : Window) :
    w.nextEvent = (w.next, { w with events := w.events.tail }) := by
  obtain ⟨_, _, _, _, _, _, events, _, _, _, _, _⟩ := w
  cases events <;> rfl

/-- An input that has not ended answers once, and its answer decides on everything. -/
theorem readKey_of_open {w : Window} (hopen : w.ended = false) (timeout : Nat) :
    w.readKey timeout = (meaning w.isTerminal w.next, w.hear timeout) := by
  have hnext : (w.rawMode.wait (timeout * 1000)).next = w.next := by
    rw [rawMode_eq]
    rfl
  rw [readKey, if_neg (by simp [hopen])]
  simp only [nextEvent_eq, hnext]
  rw [hear, wait, rawMode_eq]
  cases w.next with
  | byte b =>
    by_cases hb : b = breakCharacter
    · simp [meaning, hb, hopen]
    · by_cases hz : b = 0
      · simp only [meaning, if_neg hb, if_pos hz, if_pos (Or.inr hz : b = breakCharacter ∨ b = 0)]
        simp [hb, hopen]
      · simp only [meaning, if_neg hb, if_neg hz, if_neg (not_or.mpr ⟨hb, hz⟩)]
        simp [hb, hopen]
  | endOfFile => cases w.isTerminal <;> simp [meaning, hopen]
  | _ => simp [meaning, hopen]

/-! ## Several keys -/

/-- The window `w` has taken some answers from the input and become `w'`. -/
structure Took (w : Window) (heard : List KeyEvent) (w' : Window) : Prop where
  isTerminal : w'.isTerminal = w.isTerminal
  order : heard = answers w.isTerminal heard.length w.events
  events : w'.events = w.events.drop heard.length
  waits : w'.waits.size = w.waits.size + heard.length
  ended : w'.ended = (w.ended || !w.isTerminal && KeyEvent.endOfFile ∈ heard)
  closed : w.ended = true → heard = [] ∧ w'.waits = w.waits

namespace Took

variable {w w' w'' : Window} {heard heard' : List KeyEvent}

theorem of_same (hterminal : w'.isTerminal = w.isTerminal) (hevents : w'.events = w.events)
    (hwaits : w'.waits = w.waits) (hended : w'.ended = w.ended) : Took w [] w' where
  isTerminal := hterminal
  order := rfl
  events := hevents
  waits := by rw [hwaits, List.length_nil, Nat.add_zero]
  ended := by simp [hended]
  closed := fun _ => ⟨rfl, hwaits⟩

theorem one (hopen : w.ended = false) (timeout : Nat) : Took w [w.next] (w.hear timeout) where
  isTerminal := by rw [hear, wait, rawMode_eq]
  order := rfl
  events := by rw [hear, List.length_singleton, List.drop_one]
  waits := by rw [hear, wait, rawMode_eq, Array.size_push, List.length_singleton]
  ended := by simp [hear, hopen, eq_comm]
  closed := fun hended => by simp [hopen] at hended

/-- What is taken from the input in two parts is taken in one, in the same order. -/
theorem trans (h : Took w heard w') (h' : Took w' heard' w'') : Took w (heard ++ heard') w'' where
  isTerminal := h'.isTerminal.trans h.isTerminal
  order := by
    rw [List.length_append, answers_add, ← h.order, ← h.events, ← h.isTerminal, ← h'.order]
  events := by rw [h'.events, h.events, List.drop_drop, List.length_append]
  waits := by rw [h'.waits, h.waits, List.length_append, Nat.add_assoc]
  ended := by
    rw [h'.ended, h.ended, h.isTerminal]
    simp [Bool.and_or_distrib_left, Bool.or_assoc]
  closed := by
    intro hended
    obtain ⟨hheard, hwaits⟩ := h.closed hended
    obtain ⟨hheard', hwaits'⟩ := h'.closed (by rw [h.ended, hended, Bool.true_or])
    exact ⟨by rw [hheard, hheard', List.append_nil], hwaits'.trans hwaits⟩

theorem then_same (h : Took w heard w') (hterminal : w''.isTerminal = w'.isTerminal)
    (hevents : w''.events = w'.events) (hwaits : w''.waits = w'.waits)
    (hended : w''.ended = w'.ended) : Took w heard w'' := by
  have h' := h.trans (.of_same hterminal hevents hwaits hended)
  rwa [List.append_nil] at h'

end Took

/-- The answers that were taken hold just `keys`, and the keys that the window has are those that it
had. -/
structure Drew (w : Window) (heard : List KeyEvent) (keys : List Byte) (w' : Window) : Prop
    extends Took w heard w' where
  drawn : keys = keysOf heard
  kept : w'.keys = w.keys
  breakSeen : w'.breakSeen = (w.breakSeen || KeyEvent.byte breakCharacter ∈ heard)

theorem readKeys_of_ended {w : Window} (hended : w.ended = true) (timeout n : Nat) :
    (readKeys timeout n w).1 = [] ∧ (readKeys timeout n w).2.2 = w := by
  cases n with
  | zero => exact ⟨rfl, rfl⟩
  | succ n =>
    rw [readKeys, readKey_of_ended hended]
    exact ⟨rfl, rfl⟩

theorem Drew.one {w : Window} (hopen : w.ended = false) (timeout : Nat) :
    Drew w [w.next] (keysOf [w.next]) (w.hear timeout) where
  toTook := .one hopen timeout
  drawn := rfl
  kept := by rw [hear, wait, rawMode_eq]
  breakSeen := by simp [hear, eq_comm]

theorem keysOf_meaning (isTerminal : Bool) (e : KeyEvent) :
    keysOf [e] = match meaning isTerminal e with
      | .key b => [b]
      | .nothing | .ended => [] := by
  cases e with
  | byte b =>
    by_cases hb : b = breakCharacter ∨ b = 0
    · simp only [keysOf, List.filterMap_cons, List.filterMap_nil, key?, meaning, if_pos hb]
    · simp only [keysOf, List.filterMap_cons, List.filterMap_nil, key?, meaning, if_neg hb]
  | endOfFile => cases isTerminal <;> rfl
  | _ => rfl

/-- Reading some keys takes a part of the input, and the keys that it gives are those of this
part. -/
theorem readKeys_drew (timeout n : Nat) (w : Window) :
    ∃ heard, Drew w heard (readKeys timeout n w).1 (readKeys timeout n w).2.2 := by
  have same (w : Window) : Drew w [] [] w :=
    ⟨.of_same rfl rfl rfl rfl, rfl, rfl, by simp⟩
  induction n generalizing w with
  | zero => exact ⟨[], same w⟩
  | succ n ih =>
    cases hw : w.ended with
    | true =>
      obtain ⟨hkeys, hsame⟩ := readKeys_of_ended hw timeout (n + 1)
      rw [hkeys, hsame]
      exact ⟨[], same w⟩
    | false =>
      have hone := Drew.one hw timeout
      rw [keysOf_meaning w.isTerminal] at hone
      rw [readKeys, readKey_of_open hw]
      cases hmeaning : meaning w.isTerminal w.next with
      | key b =>
        rw [hmeaning] at hone
        obtain ⟨heard, hrest⟩ := ih (w.hear timeout)
        refine ⟨[w.next] ++ heard, hone.toTook.trans hrest.toTook, ?_, ?_, ?_⟩
        · rw [keysOf_append, ← hone.drawn, ← hrest.drawn]
          rfl
        · exact hrest.kept.trans hone.kept
        · rw [hrest.breakSeen, hone.breakSeen]
          simp [Bool.or_assoc]
      | nothing =>
        rw [hmeaning] at hone
        exact ⟨_, hone⟩
      | ended =>
        rw [hmeaning] at hone
        exact ⟨_, hone⟩

/-- What reading one key keeps, reading several keys keeps. -/
theorem readKeys_keeps {R : Window → Window → Prop} (hrefl : ∀ w, R w w)
    (htrans : ∀ {w₁ w₂ w₃ : Window}, R w₁ w₂ → R w₂ w₃ → R w₁ w₃)
    (hkey : ∀ (timeout : Nat) (w : Window), R w (w.readKey timeout).2) (timeout n : Nat)
    (w : Window) : R w (readKeys timeout n w).2.2 := by
  induction n generalizing w with
  | zero => exact hrefl w
  | succ n ih =>
    have hfirst := hkey timeout w
    rw [readKeys]
    split
    · rename_i b w₁ hread
      rw [hread] at hfirst
      exact htrans hfirst (ih w₁)
    · rename_i hread
      rw [hread] at hfirst
      exact hfirst

theorem length_readKeys (timeout n : Nat) (w : Window) : (readKeys timeout n w).1.length ≤ n := by
  induction n generalizing w with
  | zero => exact Nat.le_refl 0
  | succ n ih =>
    rw [readKeys]
    split
    · exact Nat.succ_le_succ (ih _)
    · exact Nat.zero_le _

/-! ## Requests -/

/-- What can be asked of a window. -/
inductive Request where
  | read (n timeout : Nat)
  | takeBreak (timeout : Nat)
  | write (bytes : List Byte)
  | message (text : Text)
  | rawMode
  | cookedMode

inductive Reply where
  | read (bytes : Option (List Byte))
  | takeBreak (asked : Bool)
  | done

def Request.isTakeBreak : Request → Bool
  | .takeBreak _ => true
  | _ => false

/-- The bytes that a reply gives away. -/
def Reply.bytes : Reply → List Byte
  | .read bytes => bytes.getD []
  | _ => []

def serve (w : Window) : Request → Reply × Window
  | .read n timeout => (w.rawRead n timeout).map .read id
  | .takeBreak timeout => (w.takeBreak timeout).map .takeBreak id
  | .write bytes => (.done, w.rawWrite bytes)
  | .message text => (.done, w.message text)
  | .rawMode => (.done, w.rawMode)
  | .cookedMode => (.done, w.cookedMode)

/-- Serves requests in their order. -/
def serveAll : List Request → Window → List Reply × Window
  | [], w => ([], w)
  | r :: rest, w =>
    let (reply, w) := w.serve r
    let (replies, w) := serveAll rest w
    (reply :: replies, w)

theorem serveAll_cons (r : Request) (rest : List Request) (w : Window) :
    serveAll (r :: rest) w =
      ((w.serve r).1 :: (serveAll rest (w.serve r).2).1, (serveAll rest (w.serve r).2).2) := rfl

theorem serveAll_append (past later : List Request) (w : Window) :
    serveAll (past ++ later) w =
      ((serveAll past w).1 ++ (serveAll later (serveAll past w).2).1,
        (serveAll later (serveAll past w).2).2) := by
  induction past generalizing w with
  | nil => rfl
  | cons r rest ih =>
    rw [List.cons_append, serveAll_cons, ih, serveAll_cons, List.cons_append]

/-- What some requests that were given `replies` have to do with the input. -/
structure Served (requests : List Request) (w : Window) (heard : List KeyEvent)
    (replies : List Reply) (w' : Window) : Prop extends Took w heard w' where
  keys : replies.flatMap Reply.bytes ++ w'.keys = w.keys ++ keysOf heard
  breakSeen : requests.any Request.isTakeBreak = false →
    w'.breakSeen = (w.breakSeen || KeyEvent.byte breakCharacter ∈ heard)

theorem readAhead_eq (timeout : Nat) (w : Window) :
    w.readAhead timeout =
      { (readKeys timeout (w.events.length + 1) w).2.2 with
        keys := w.keys ++ (readKeys timeout (w.events.length + 1) w).1 } := by
  obtain ⟨heard, hdrew⟩ := readKeys_drew timeout (w.events.length + 1) w
  rw [← hdrew.kept, readAhead]
  dsimp only
  split
  · rename_i hnone
    rw [List.isEmpty_iff] at hnone
    rw [hnone, List.append_nil]
  · rfl

/-- Reading ahead keeps the keys that were there and adds those that it takes from the input. It has
seen the break character if that is among what it took. -/
theorem readAhead_drew (timeout : Nat) (w : Window) :
    ∃ heard, Took w heard (w.readAhead timeout) ∧
      (w.readAhead timeout).keys = w.keys ++ keysOf heard ∧
      (w.readAhead timeout).breakSeen = (w.breakSeen || KeyEvent.byte breakCharacter ∈ heard) := by
  obtain ⟨heard, hdrew⟩ := readKeys_drew timeout (w.events.length + 1) w
  rw [readAhead_eq]
  exact ⟨heard, hdrew.toTook.then_same rfl rfl rfl rfl, by rw [hdrew.drawn], hdrew.breakSeen⟩

/-- A read gives first what was read ahead, and then what it reads itself. -/
theorem rawRead_fst (n timeout : Nat) (w : Window) :
    (w.rawRead n timeout).1.getD [] = w.keys.take n ++
      (readKeys timeout (n - (w.keys.take n).length) { w with keys := w.keys.drop n }).1 := by
  rw [rawRead]
  dsimp only
  split
  · rename_i hnone
    rw [Bool.and_eq_true, List.isEmpty_iff] at hnone
    rw [hnone.2]
    rfl
  · rfl

theorem rawRead_snd_keys (n timeout : Nat) (w : Window) :
    (w.rawRead n timeout).2.keys = w.keys.drop n := by
  obtain ⟨heard, hdrew⟩ := readKeys_drew timeout (n - (w.keys.take n).length)
    { w with keys := w.keys.drop n }
  exact hdrew.kept

/-- The keys that were read ahead are given away first, and the input is only asked once there are
none left. -/
theorem rawRead_keys (n timeout : Nat) (w : Window) :
    ∃ heard, Took w heard (w.rawRead n timeout).2 ∧
      (w.rawRead n timeout).1.getD [] ++ (w.rawRead n timeout).2.keys = w.keys ++ keysOf heard ∧
      (w.rawRead n timeout).2.breakSeen =
        (w.breakSeen || KeyEvent.byte breakCharacter ∈ heard) := by
  obtain ⟨heard, hdrew⟩ := readKeys_drew timeout (n - (w.keys.take n).length)
    { w with keys := w.keys.drop n }
  have hleft : Took w [] { w with keys := w.keys.drop n } := .of_same rfl rfl rfl rfl
  refine ⟨heard, hleft.trans hdrew.toTook, ?_, hdrew.breakSeen⟩
  rw [← hdrew.drawn, rawRead_fst, rawRead_snd_keys]
  rcases Nat.le_total n w.keys.length with hn | hn
  · have hnone : n - (w.keys.take n).length = 0 := by
      rw [List.length_take_of_le hn, Nat.sub_self]
    rw [hnone]
    simp [readKeys]
  · simp [List.take_of_length_le hn, List.drop_of_length_le hn]

/-- What is left of the input, and of the keys read ahead, is the same. -/
structure SameInput (w w' : Window) : Prop where
  isTerminal : w'.isTerminal = w.isTerminal
  breakSeen : w'.breakSeen = w.breakSeen
  ended : w'.ended = w.ended
  keys : w'.keys = w.keys
  events : w'.events = w.events
  waits : w'.waits = w.waits

theorem SameInput.refl (w : Window) : SameInput w w := ⟨rfl, rfl, rfl, rfl, rfl, rfl⟩

theorem SameInput.trans {w w' w'' : Window} (h : SameInput w w') (h' : SameInput w' w'') :
    SameInput w w'' where
  isTerminal := h'.isTerminal.trans h.isTerminal
  breakSeen := h'.breakSeen.trans h.breakSeen
  ended := h'.ended.trans h.ended
  keys := h'.keys.trans h.keys
  events := h'.events.trans h.events
  waits := h'.waits.trans h.waits

theorem rawMode_sameInput (w : Window) : SameInput w w.rawMode := by
  rw [rawMode_eq]
  exact ⟨rfl, rfl, rfl, rfl, rfl, rfl⟩

theorem cookedMode_sameInput (w : Window) : SameInput w w.cookedMode := by
  unfold cookedMode
  split
  · exact ⟨rfl, rfl, rfl, rfl, rfl, rfl⟩
  · exact ⟨rfl, rfl, rfl, rfl, rfl, rfl⟩

theorem message_sameInput (text : Text) (w : Window) : SameInput w (w.message text) :=
  w.cookedMode_sameInput.trans ⟨rfl, rfl, rfl, rfl, rfl, rfl⟩

theorem writeAll_sameInput (bytes : List Byte) (w : Window) : SameInput w (writeAll bytes w) := by
  induction bytes generalizing w with
  | nil => exact .refl w
  | cons b rest ih =>
    simp only [writeAll]
    split
    · exact ih w
    · split
      · refine .trans ?_ (ih _)
        exact ⟨rfl, rfl, rfl, rfl, rfl, rfl⟩
      · exact ⟨rfl, rfl, rfl, rfl, rfl, rfl⟩

theorem rawWrite_sameInput (bytes : List Byte) (w : Window) : SameInput w (w.rawWrite bytes) :=
  w.rawMode_sameInput.trans (writeAll_sameInput bytes _)

namespace Served

variable {w w' w'' : Window} {heard heard' : List KeyEvent} {requests requests' : List Request}
  {replies replies' : List Reply}

theorem nil (w : Window) : Served [] w [] [] w where
  toTook := .of_same rfl rfl rfl rfl
  keys := (List.append_nil _).symm
  breakSeen := fun _ => by simp

theorem append (h : Served requests w heard replies w')
    (h' : Served requests' w' heard' replies' w'') :
    Served (requests ++ requests') w (heard ++ heard') (replies ++ replies') w'' where
  toTook := h.toTook.trans h'.toTook
  keys := by
    rw [List.flatMap_append, List.append_assoc, h'.keys, ← List.append_assoc, h.keys,
      keysOf_append, List.append_assoc]
  breakSeen := by
    intro hnone
    rw [List.any_append, Bool.or_eq_false_iff] at hnone
    rw [h'.breakSeen hnone.2, h.breakSeen hnone.1]
    simp [Bool.or_assoc]

/-- A request that neither asks the input nor touches the keys. -/
theorem quiet {r : Request} (hsame : SameInput w w') : Served [r] w [] [.done] w' where
  toTook := .of_same hsame.isTerminal hsame.events hsame.waits hsame.ended
  keys := by
    rw [hsame.keys, keysOf_nil, List.append_nil]
    rfl
  breakSeen := fun _ => by simp [hsame.breakSeen]

end Served

/-- No request loses a key: what one request takes from the input, it gives or keeps. -/
theorem serve_served (r : Request) (w : Window) :
    ∃ heard, Served [r] w heard [(w.serve r).1] (w.serve r).2 := by
  cases r with
  | read n timeout =>
    obtain ⟨heard, htook, hkeys, hbreak⟩ := w.rawRead_keys n timeout
    refine ⟨heard, htook, ?_, fun _ => hbreak⟩
    rw [List.flatMap_singleton]
    exact hkeys
  | takeBreak timeout =>
    obtain ⟨heard, htook, hkeys, -⟩ := w.readAhead_drew timeout
    exact ⟨heard, htook.then_same rfl rfl rfl rfl, hkeys, fun hnone => by cases hnone⟩
  | write bytes => exact ⟨[], .quiet (w.rawWrite_sameInput bytes)⟩
  | message text => exact ⟨[], .quiet (w.message_sameInput text)⟩
  | rawMode => exact ⟨[], .quiet w.rawMode_sameInput⟩
  | cookedMode => exact ⟨[], .quiet w.cookedMode_sameInput⟩

/-- Any number of requests loses nothing, by induction over the requests. -/
theorem serveAll_served (requests : List Request) (w : Window) :
    ∃ heard, Served requests w heard (serveAll requests w).1 (serveAll requests w).2 := by
  induction requests generalizing w with
  | nil => exact ⟨[], .nil w⟩
  | cons r rest ih =>
    obtain ⟨heard, hfirst⟩ := w.serve_served r
    obtain ⟨heard', hrest⟩ := ih (w.serve r).2
    exact ⟨heard ++ heard', hfirst.append hrest⟩

/-! ## A window from its beginning on -/

def after (start : Window) (requests : List Request) : Window := (serveAll requests start).2

def replies (start : Window) (requests : List Request) : List Reply := (serveAll requests start).1

/-- What the input has answered to a window by the end of some requests. There was one wait for each
answer. -/
def heard (start : Window) (requests : List Request) : List KeyEvent :=
  answers start.isTerminal (start.after requests).waits.size start.events

theorem after_append (start : Window) (past later : List Request) :
    start.after (past ++ later) = (start.after past).after later := by
  rw [after, serveAll_append]
  rfl

theorem heard_eq {start : Window} (hnew : start.waits = #[]) {requests : List Request}
    {taken : List KeyEvent} (h : Took start taken (start.after requests)) :
    start.heard requests = taken := by
  rw [heard, h.waits, hnew, Array.size_empty, Nat.zero_add]
  exact h.order.symm

/-- Nothing remains of an earlier break character once somebody has asked for it. -/
theorem breakSeen_after_takeBreak (start : Window) (past : List Request) (timeout : Nat) :
    (start.after (past ++ [.takeBreak timeout])).breakSeen = false := by
  rw [after_append]
  rfl

/-- A question for the break character is answered with yes exactly if one was read since the
question before. -/
theorem takeBreak_iff {start : Window} (hnew : start.waits = #[])
    (hclear : start.breakSeen = false) {before between : List Request}
    (hbefore : before = [] ∨ ∃ t, before.getLast? = some (.takeBreak t))
    (hbetween : between.any Request.isTakeBreak = false) (timeout : Nat) :
    ((start.after (before ++ between)).takeBreak timeout).1 = true ↔ .byte breakCharacter ∈
      (start.heard (before ++ between ++ [.takeBreak timeout])).drop
        (start.heard before).length := by
  obtain ⟨earlier, hearlier⟩ := start.serveAll_served before
  obtain ⟨since, hsince⟩ := (start.after before).serveAll_served between
  obtain ⟨now, hnow, -, hseen⟩ := ((start.after before).after between).readAhead_drew timeout
  have hall : Took start (earlier ++ (since ++ now))
      (start.after (before ++ between ++ [.takeBreak timeout])) := by
    rw [after_append, after_append]
    exact hearlier.toTook.trans (hsince.toTook.trans (hnow.then_same rfl rfl rfl rfl))
  have hbefore : (start.after before).breakSeen = false := by
    rcases hbefore with rfl | ⟨t, hlast⟩
    · exact hclear
    · obtain ⟨init, rfl⟩ := List.getLast?_eq_some_iff.mp hlast
      exact start.breakSeen_after_takeBreak init t
  have hkept := hsince.breakSeen hbetween
  rw [hbefore, Bool.false_or] at hkept
  rw [heard_eq hnew hearlier.toTook, heard_eq hnew hall, List.drop_left, after_append]
  show (((start.after before).after between).readAhead timeout).breakSeen = true ↔ _
  rw [hseen, show ((start.after before).after between).breakSeen = _ from hkept]
  simp

/-- Once the input has ended, only keys that were read ahead are left to give away. -/
theorem rawRead_of_ended {w : Window} (hended : w.ended = true) {n : Nat} (hn : 0 < n)
    (timeout : Nat) :
    (w.rawRead n timeout).1 = if w.keys = [] then none else some (w.keys.take n) := by
  have hleft : ({ w with keys := w.keys.drop n } : Window).ended = true := hended
  by_cases hkeys : w.keys = []
  · obtain ⟨m, rfl⟩ : ∃ m, n = m + 1 := ⟨n - 1, by omega⟩
    rw [if_pos hkeys, rawRead, hkeys, List.take_nil, List.length_nil, Nat.sub_zero, readKeys,
      readKey_of_ended (by rw [← hkeys]; exact hleft)]
    rfl
  · have hahead : w.keys.take n ≠ [] := by
      rw [ne_eq, List.take_eq_nil_iff, not_or]
      exact ⟨by omega, hkeys⟩
    have hnone := (readKeys_of_ended hleft timeout (n - (w.keys.take n).length)).1
    rw [if_neg hkeys, rawRead]
    simp only [hnone, List.append_nil]
    rw [if_neg (by simp [hahead])]

theorem length_of_rawRead {w : Window} {n timeout : Nat} {bytes : List Byte}
    (h : (w.rawRead n timeout).1 = some bytes) : bytes.length ≤ n := by
  have hbytes : bytes = (w.rawRead n timeout).1.getD [] := by rw [h, Option.getD_some]
  have hrest := length_readKeys timeout (n - (w.keys.take n).length)
    { w with keys := w.keys.drop n }
  have hahead : (w.keys.take n).length ≤ n := List.length_take_le n w.keys
  rw [hbytes, rawRead_fst, List.length_append]
  omega

/-- The end of the input is told only when no key is left. -/
theorem keys_of_rawRead_none {w : Window} {n timeout : Nat} (hn : 0 < n)
    (h : (w.rawRead n timeout).1 = none) :
    w.keys = [] ∧ (w.rawRead n timeout).2.keys = [] := by
  have hbytes := rawRead_fst n timeout w
  rw [h, Option.getD_none] at hbytes
  have hnone : w.keys = [] :=
    (List.take_eq_nil_iff.mp (List.append_eq_nil_iff.mp hbytes.symm).1).resolve_left (by omega)
  refine ⟨hnone, ?_⟩
  rw [rawRead_snd_keys, hnone, List.drop_nil]

/-- After the end of the input nothing is waited for or taken from it any more, and what was read
ahead is given out in order. -/
theorem after_of_ended {start : Window} {past : List Request}
    (hended : (start.after past).ended = true) (later : List Request) :
    (start.after (past ++ later)).waits = (start.after past).waits ∧
    (start.after (past ++ later)).events = (start.after past).events ∧
    ((start.after past).replies later).flatMap Reply.bytes ++ (start.after (past ++ later)).keys =
      (start.after past).keys ∧
    ∀ n timeout, 0 < n → ((start.after (past ++ later)).rawRead n timeout).1 =
      if (start.after (past ++ later)).keys = [] then none
      else some ((start.after (past ++ later)).keys.take n) := by
  obtain ⟨none, hlater⟩ := (start.after past).serveAll_served later
  obtain ⟨rfl, hwaits⟩ := hlater.closed hended
  have hstill := hlater.ended
  have hkeys := hlater.keys
  rw [hended, Bool.true_or] at hstill
  rw [keysOf_nil, List.append_nil] at hkeys
  rw [after_append]
  exact ⟨hwaits, hlater.events, hkeys, fun n timeout hn => rawRead_of_ended hstill hn timeout⟩

/-- What holds of a window `start` at every point of its use, after the requests `past`. -/
structure LosesNothing (start : Window) (past : List Request) : Prop where
  events : (start.after past).events = start.events.drop (start.after past).waits.size
  /-- The bytes given away, in their order, and the keys read ahead are the keys that were heard. -/
  keys : (start.replies past).flatMap Reply.bytes ++ (start.after past).keys =
    keysOf (start.heard past)
  atMost : ∀ n timeout bytes, ((start.after past).rawRead n timeout).1 = some bytes →
    bytes.length ≤ n
  nothingKept : ∀ n timeout, 0 < n → ((start.after past).rawRead n timeout).1 = none →
    (start.after past).keys = [] ∧ ((start.after past).rawRead n timeout).2.keys = []
  /-- A question about the break character counts those heard since the last such question. -/
  asked : ∀ before between timeout, past = before ++ between →
    (before = [] ∨ ∃ t, before.getLast? = some (.takeBreak t)) →
    between.any Request.isTakeBreak = false →
    (((start.after past).takeBreak timeout).1 = true ↔ .byte breakCharacter ∈
      (start.heard (past ++ [.takeBreak timeout])).drop (start.heard before).length)
  /-- After the end of an input that is no terminal, nothing is asked of it any more. -/
  ended : start.isTerminal = false → .endOfFile ∈ start.heard past → ∀ later,
    (start.after (past ++ later)).waits = (start.after past).waits ∧
    (start.after (past ++ later)).events = (start.after past).events ∧
    ((start.after past).replies later).flatMap Reply.bytes ++ (start.after (past ++ later)).keys =
      (start.after past).keys ∧
    ∀ n timeout, 0 < n → ((start.after (past ++ later)).rawRead n timeout).1 =
      if (start.after (past ++ later)).keys = [] then none
      else some ((start.after (past ++ later)).keys.take n)

/-- Whatever happens on the input and whatever is asked of the window, no key is lost, repeated or
moved by reading ahead. -/
theorem new_losesNothing (isTerminal : Bool) (events : List KeyEvent) (writes : List WriteEvent)
    (past : List Request) : LosesNothing (new isTerminal events writes) past := by
  generalize hstart : new isTerminal events writes = start
  have hwaits : start.waits = #[] := by rw [← hstart, new]
  have hkeys : start.keys = [] := by rw [← hstart, new]
  have hbreak : start.breakSeen = false := by rw [← hstart, new]
  obtain ⟨heard, hserved⟩ := start.serveAll_served past
  have hheard : start.heard past = heard := heard_eq hwaits hserved.toTook
  exact {
    events := by
      rw [after, hserved.events, hserved.waits, hwaits, Array.size_empty, Nat.zero_add]
    keys := by
      rw [hheard, replies, after, hserved.keys, hkeys, List.nil_append]
    atMost := fun n timeout bytes => length_of_rawRead
    nothingKept := fun n timeout => keys_of_rawRead_none
    asked := by
      rintro before between timeout rfl hbefore hbetween
      exact takeBreak_iff hwaits hbreak hbefore hbetween timeout
    ended := by
      intro hfile hend later
      refine after_of_ended ?_ later
      rw [after, hserved.ended, ← hheard, hfile]
      simp [hend] }

end Window

end LittleComputer
