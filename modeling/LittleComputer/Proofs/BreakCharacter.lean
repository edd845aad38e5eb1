import LittleComputer.Proofs.ReadAhead

/-!
# Looking for the break character

Whoever looks for the break character reads ahead until the input gives something that is no key.
That can be the break character itself or silence, but a zero byte is no key either. So a look goes
no further than the next zero byte, and a break character is noticed once there were as many looks
before as zero bytes in front of it (`Window.takeBreak_notices`).
-/

namespace LittleComputer

namespace Window

/-! ## Reading ahead up to a byte that is no key -/

/-- The window has read some bytes, of which the last one is no key. -/
structure StoppedAt (w : Window) (keys : List Byte) (stop : Byte) (rest : List KeyEvent)
    (w' : Window) : Prop where
  ended : w'.ended = false
  events : w'.events = rest
  keys : w'.keys = w.keys ++ keys
  breakSeen : w'.breakSeen = (w.breakSeen || stop = breakCharacter)

theorem meaning_of_key {b : Byte} (hb : b ≠ 0 ∧ b ≠ breakCharacter) (isTerminal : Bool) :
    meaning isTerminal (.byte b) = .key b := by
  rw [meaning, if_neg]
  rintro (h | h)
  · exact hb.2 h
  · exact hb.1 h

theorem meaning_of_stop {b : Byte} (hb : b = 0 ∨ b = breakCharacter) (isTerminal : Bool) :
    meaning isTerminal (.byte b) = .nothing := by
  rw [meaning, if_pos]
  exact hb.symm

/-- What hearing a byte changes of the input. -/
theorem hear_of_byte {w : Window} {b : Byte} {rest : List KeyEvent}
    (hevents : w.events = .byte b :: rest) (timeout : Nat) :
    (w.hear timeout).ended = false ∧ (w.hear timeout).events = rest ∧
      (w.hear timeout).keys = w.keys ∧
      (w.hear timeout).breakSeen = (w.breakSeen || b = breakCharacter) := by
  have hnext : w.next = .byte b := by rw [next, hevents, List.headD_cons]
  rw [hear, hnext, hevents, wait, rawMode_eq]
  simp

theorem readKeys_stops {w : Window} (hopen : w.ended = false) {keys : List Byte} {stop : Byte}
    {rest : List KeyEvent} (hkeys : ∀ b ∈ keys, b ≠ 0 ∧ b ≠ breakCharacter)
    (hstop : stop = 0 ∨ stop = breakCharacter)
    (hevents : w.events = keys.map .byte ++ .byte stop :: rest) {n : Nat} (hn : keys.length < n)
    (timeout : Nat) :
    (readKeys timeout n w).1 = keys ∧
      StoppedAt w [] stop rest (readKeys timeout n w).2.2 := by
  induction keys generalizing w n with
  | nil =>
    obtain ⟨m, rfl⟩ : ∃ m, n = m + 1 := ⟨n - 1, by simp at hn; omega⟩
    have hnext : w.next = .byte stop := by rw [next, hevents]; rfl
    obtain ⟨hended, hleft, hkept, hseen⟩ := hear_of_byte hevents timeout
    rw [readKeys, readKey_of_open hopen, hnext, meaning_of_stop hstop]
    exact ⟨rfl, hended, hleft, by rw [hkept, List.append_nil], hseen⟩
  | cons b keys ih =>
    obtain ⟨m, rfl⟩ : ∃ m, n = m + 1 := ⟨n - 1, by simp at hn; omega⟩
    obtain ⟨hb, hkeys⟩ := List.forall_mem_cons.mp hkeys
    have hnext : w.next = .byte b := by rw [next, hevents]; rfl
    obtain ⟨hended, hleft, hkept, hseen⟩ := hear_of_byte hevents timeout
    obtain ⟨hrest, hstopped⟩ := ih hended hkeys hleft (n := m) (by simp at hn; omega)
    rw [readKeys, readKey_of_open hopen, hnext, meaning_of_key hb]
    refine ⟨congrArg (b :: ·) hrest, hstopped.ended, hstopped.events, ?_, ?_⟩
    · exact hstopped.keys.trans (by rw [hkept])
    · rw [hstopped.breakSeen, hseen]
      simp [hb.2]

/-- A look reads everything in front of the next byte that is no key, and that byte. -/
theorem takeBreak_stops {w : Window} (hopen : w.ended = false) {keys : List Byte} {stop : Byte}
    {rest : List KeyEvent} (hzero : 0 ∉ keys) (hbreak : breakCharacter ∉ keys)
    (hstop : stop = 0 ∨ stop = breakCharacter)
    (hevents : w.events = keys.map .byte ++ .byte stop :: rest) (timeout : Nat) :
    (w.takeBreak timeout).1 = (w.breakSeen || stop = breakCharacter) ∧
      (w.takeBreak timeout).2.ended = false ∧ (w.takeBreak timeout).2.events = rest ∧
      (w.takeBreak timeout).2.keys = w.keys ++ keys ∧
      (w.takeBreak timeout).2.breakSeen = false := by
  have hkeys : ∀ b ∈ keys, b ≠ 0 ∧ b ≠ breakCharacter := fun b hb =>
    ⟨ne_of_mem_of_not_mem hb hzero, ne_of_mem_of_not_mem hb hbreak⟩
  have hn : keys.length < w.events.length + 1 := by
    rw [hevents, List.length_append, List.length_map]
    omega
  obtain ⟨hread, hstopped⟩ := readKeys_stops hopen hkeys hstop hevents hn timeout
  rw [takeBreak, readAhead_eq, hread]
  exact ⟨hstopped.breakSeen, hstopped.ended, hstopped.events, rfl, rfl⟩

/-! ## Looking again -/

/-- The window after a number of looks for the break character. -/
def afterLooks (w : Window) (timeout n : Nat) : Window :=
  w.after (List.replicate n (.takeBreak timeout))

theorem afterLooks_succ (w : Window) (timeout n : Nat) :
    w.afterLooks timeout (n + 1) = (w.takeBreak timeout).2.afterLooks timeout n := rfl

/-- What comes of looking for the break character again and again when the bytes `before` stand in
front of it, none of which is one. -/
structure Notices (w : Window) (timeout : Nat) (before : List Byte) (rest : List KeyEvent) :
    Prop where
  /-- A single look is enough if and only if no zero byte is in the way. -/
  atOnce : (w.takeBreak timeout).1 = true ↔ w.breakSeen = true ∨ 0 ∉ before
  /-- Every zero byte costs a look, which can only find a break character of earlier times. -/
  inVain : ∀ n < before.count 0,
    ((w.afterLooks timeout n).takeBreak timeout).1 = (n = 0 && w.breakSeen)
  inTheEnd : ((w.afterLooks timeout (before.count 0)).takeBreak timeout).1 = true
  /-- By then all keys are kept, and what follows the break character is still to be read. -/
  keys : (w.afterLooks timeout (before.count 0 + 1)).keys = w.keys ++ before.filter (· ≠ 0)
  events : (w.afterLooks timeout (before.count 0 + 1)).events = rest

theorem filter_of_notMem {keys : List Byte} (hzero : 0 ∉ keys) :
    keys.filter (· ≠ 0) = keys := by
  apply List.filter_eq_self.mpr
  intro b hb
  exact decide_eq_true (ne_of_mem_of_not_mem hb hzero)

/-- The look that comes to the break character. -/
theorem notices_of_keys {w : Window} (hopen : w.ended = false) {before : List Byte}
    {rest : List KeyEvent} (hbefore : breakCharacter ∉ before) (hzero : 0 ∉ before)
    (hevents : w.events = before.map .byte ++ .byte breakCharacter :: rest) (timeout : Nat) :
    Notices w timeout before rest := by
  have hcount : before.count 0 = 0 := List.count_eq_zero.mpr hzero
  obtain ⟨hanswer, -, hleft, hkept, -⟩ :=
    takeBreak_stops hopen hzero hbefore (.inr rfl) hevents timeout
  have hfound : (w.takeBreak timeout).1 = true := by
    rw [hanswer]
    simp
  constructor
  · exact ⟨fun _ => .inr hzero, fun _ => hfound⟩
  · intro n hn
    omega
  · rw [hcount]
    exact hfound
  · rw [hcount, filter_of_notMem hzero]
    exact hkept
  · rw [hcount]
    exact hleft

/-- A look that comes to a zero byte leaves the break character to the looks after it. -/
theorem Notices.behind_zero {w w₁ : Window} {timeout : Nat} {keys more : List Byte}
    {rest : List KeyEvent} (h : Notices w₁ timeout more rest) (hzero : 0 ∉ keys)
    (hlook : w.takeBreak timeout = (w.breakSeen, w₁)) (hclear : w₁.breakSeen = false)
    (hkept : w₁.keys = w.keys ++ keys) : Notices w timeout (keys ++ 0 :: more) rest := by
  have hcount : (keys ++ 0 :: more).count 0 = more.count 0 + 1 := by
    rw [List.count_append, List.count_eq_zero.mpr hzero, List.count_cons_self, Nat.zero_add]
  have hlater : ∀ n, w.afterLooks timeout (n + 1) = w₁.afterLooks timeout n := by
    intro n
    rw [afterLooks_succ, hlook]
  constructor
  · rw [hlook]
    simp
  · intro n hn
    cases n with
    | zero =>
      show (w.takeBreak timeout).1 = _
      rw [hlook]
      simp
    | succ n =>
      rw [hlater, h.inVain n (by omega), hclear]
      simp
  · rw [hcount, hlater]
    exact h.inTheEnd
  · rw [hcount, hlater, h.keys, hkept, List.filter_append, filter_of_notMem hzero]
    simp
  · rw [hcount, hlater]
    exact h.events

theorem notices_of_typed {w : Window} (hopen : w.ended = false) {before : List Byte}
    {rest : List KeyEvent} (hbefore : breakCharacter ∉ before)
    (hevents : w.events = before.map .byte ++ .byte breakCharacter :: rest) (timeout : Nat) :
    Notices w timeout before rest := by
  -- The induction is on the number of zero bytes: one look takes the first of them away.
  induction hcount : before.count 0 generalizing w before with
  | zero => exact notices_of_keys hopen hbefore (List.count_eq_zero.mp hcount) hevents timeout
  | succ k ih =>
    have hmem : 0 ∈ before := List.count_pos_iff.mp (by omega)
    obtain ⟨keys, more, rfl, hzero⟩ := List.eq_append_cons_of_mem hmem
    simp only [List.mem_append, List.mem_cons, not_or] at hbefore
    obtain ⟨hkeys, -, hmore⟩ := hbefore
    rw [List.count_append, List.count_eq_zero.mpr hzero, List.count_cons_self] at hcount
    rw [List.map_append, List.map_cons, List.append_assoc, List.cons_append] at hevents
    obtain ⟨hanswer, hended, hleft, hkept, hclear⟩ :=
      takeBreak_stops hopen hzero hkeys (.inl rfl) hevents timeout
    have hlook : w.takeBreak timeout = (w.breakSeen, (w.takeBreak timeout).2) := by
      apply Prod.ext
      · rw [hanswer]
        simp [breakCharacter]
      · rfl
    exact (ih hended hmore hleft (by omega)).behind_zero hzero hlook hclear hkept

/-- A break character that has been typed is noticed by the first look that no zero byte keeps from
reading so far. That is the very next look if none was typed in front of it, and otherwise one look
more for each zero byte. In the meantime no key is lost, and nothing behind the break character is
read. -/
theorem takeBreak_notices {w : Window} (hopen : w.ended = false) {typed : List Byte}
    {rest : List KeyEvent} (hevents : w.events = typed.map .byte ++ rest)
    (hbreak : breakCharacter ∈ typed) (timeout : Nat) :
    ∃ before after, typed = before ++ breakCharacter :: after ∧ breakCharacter ∉ before ∧
      Notices w timeout before (after.map .byte ++ rest) := by
  obtain ⟨before, after, rfl, hbefore⟩ := List.eq_append_cons_of_mem hbreak
  rw [List.map_append, List.map_cons, List.append_assoc, List.cons_append] at hevents
  exact ⟨before, after, rfl, hbefore, notices_of_typed hopen hbefore hevents timeout⟩

/-- Two zero bytes keep the break character from being noticed by the first two looks. -/
theorem takeBreak_notices_third :
    ∃ (w : Window) (typed : List Byte), typed = [0x61, 0, 0x62, 0, breakCharacter, 0x63] ∧
      w.ended = false ∧ w.events = typed.map .byte ++ [.silence] ∧ breakCharacter ∈ typed ∧
      (w.takeBreak 0).1 = false ∧ ((w.afterLooks 0 1).takeBreak 0).1 = false ∧
      ((w.afterLooks 0 2).takeBreak 0).1 = true ∧
      ∃ before after, typed = before ++ breakCharacter :: after ∧ breakCharacter ∉ before ∧
        Notices w 0 before (after.map .byte ++ [.silence]) := by
  let typed : List Byte := [0x61, 0, 0x62, 0, breakCharacter, 0x63]
  let w := new true (typed.map .byte ++ [.silence]) []
  have hbreak : breakCharacter ∈ typed := by decide
  exact ⟨w, typed, rfl, rfl, rfl, hbreak, by decide, by decide, by decide,
    takeBreak_notices (w := w) rfl rfl hbreak 0⟩

/-- A zero byte hides the break character from a look, although both have been typed. -/
theorem takeBreak_hidden :
    ∃ (w : Window) (typed : List Byte), w.ended = false ∧ w.events = typed.map .byte ∧
      breakCharacter ∈ typed ∧ (w.takeBreak 0).1 = false :=
  ⟨new false [.byte 0, .byte breakCharacter] [], [0, breakCharacter], rfl, rfl, by decide,
    by decide⟩

end Window

end LittleComputer
