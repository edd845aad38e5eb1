import LittleComputer.Proofs.TerminalSettings

/-!
# What the window writes

Bytes of the simulated machine are written one at a time, with their first bit cleared and without
those that are zero then. An attempt that is interrupted is made again, and one that fails loses the
rest of its call. So every call sends a first part of what can be seen of its bytes, each byte once
and in order, and what several calls send adds up, whatever else is asked of the window.
-/

namespace LittleComputer

namespace Window

/-- What can be seen of some bytes: they have seven bits, and zero cannot be seen. -/
def visible (bytes : List Byte) : List Byte := (bytes.map (· &&& 0x7F)).filter (· ≠ 0)

/-- The answers to the next `n` attempts to write: what is going to happen, and then success. -/
def attempts : Nat → List WriteEvent → List WriteEvent
  | 0, _ => []
  | n + 1, writes => writes.headD .written :: attempts n writes.tail

/-- The bytes of the simulated machine among the output. -/
def putsIn (deeds : List Deed) : List Byte :=
  deeds.filterMap fun
    | .put b => some b
    | _ => none

theorem visible_append (bytes bytes' : List Byte) :
    visible (bytes ++ bytes') = visible bytes ++ visible bytes' := by
  rw [visible, List.map_append, List.filter_append]
  rfl

theorem visible_cons_of_zero {b : Byte} (hb : b &&& 0x7F = 0) (bytes : List Byte) :
    visible (b :: bytes) = visible bytes := by
  rw [visible, List.map_cons, List.filter_cons_of_neg (by simpa using hb)]
  rfl

theorem visible_cons {b : Byte} (hb : b &&& 0x7F ≠ 0) (bytes : List Byte) :
    visible (b :: bytes) = (b &&& 0x7F) :: visible bytes := by
  rw [visible, List.map_cons, List.filter_cons_of_pos (by simpa using hb)]
  rfl

theorem attempts_add (m n : Nat) (writes : List WriteEvent) :
    attempts (m + n) writes = attempts m writes ++ attempts n (writes.drop m) := by
  induction m generalizing writes with
  | zero => rw [Nat.zero_add, attempts, List.nil_append, List.drop_zero]
  | succ m ih =>
    rw [Nat.add_right_comm, attempts, attempts, ih, List.drop_tail, List.cons_append]

/-- An attempt is answered as the system was going to, or else it succeeds. -/
theorem mem_of_mem_attempts {e : WriteEvent} {n : Nat} {writes : List WriteEvent}
    (h : e ∈ attempts n writes) : e ∈ writes ∨ e = .written := by
  induction n generalizing writes with
  | zero => cases h
  | succ n ih =>
    cases writes with
    | nil =>
      rcases List.mem_cons.mp h with rfl | h
      · exact .inr rfl
      · exact ih h
    | cons first rest =>
      rcases List.mem_cons.mp h with rfl | h
      · exact .inl List.mem_cons_self
      · rcases ih h with h | h
        · exact .inl (List.mem_cons_of_mem _ h)
        · exact .inr h

/-! ## One byte -/

/-- A byte is tried until an attempt is not interrupted, and that one decides. -/
theorem tryWrite_eq (writes : List WriteEvent) :
    ∃ k e, attempts (k + 1) writes = List.replicate k .interrupted ++ [e] ∧
      e ≠ .interrupted ∧ tryWrite writes = (e == .written, writes.drop (k + 1)) := by
  induction writes with
  | nil => exact ⟨0, .written, rfl, by decide, rfl⟩
  | cons first rest ih =>
    cases first with
    | written => exact ⟨0, .written, rfl, by decide, rfl⟩
    | failed => exact ⟨0, .failed, rfl, by decide, rfl⟩
    | interrupted =>
      obtain ⟨k, e, htries, he, htry⟩ := ih
      refine ⟨k + 1, e, ?_, he, ?_⟩
      · rw [attempts, List.replicate_succ, List.cons_append, ← htries]
        rfl
      · rw [List.drop_succ_cons, ← htry]
        rfl

/-! ## One call -/

/-- A call to write bytes. What can be seen of them is sent up to some place, and lost from there
on. -/
structure Delivery where
  bytes : List Byte
  sent : List Byte
  lost : List Byte
  /-- The answers to the attempts to write. -/
  tries : List WriteEvent
  divided : visible bytes = sent ++ lost
  /-- An attempt that succeeds sends one byte, and no other attempt does. -/
  counted : tries.count .written = sent.length
  /-- After an interruption there is another attempt. -/
  retried : tries.getLast? ≠ some .interrupted
  /-- Bytes are only lost if an attempt fails. -/
  failed : .failed ∈ tries ↔ lost ≠ []
  /-- After a failure there is no other attempt. -/
  givenUp : .failed ∉ tries.dropLast

namespace Delivery

def nothing : Delivery where
  bytes := []
  sent := []
  lost := []
  tries := []
  divided := rfl
  counted := rfl
  retried := nofun
  failed := by simp
  givenUp := List.not_mem_nil

/-- There is a byte in front that cannot be seen. -/
def skip (b : Byte) (hb : b &&& 0x7F = 0) (d : Delivery) : Delivery :=
  { d with bytes := b :: d.bytes, divided := (visible_cons_of_zero hb d.bytes).trans d.divided }

/-- There is a byte in front that is sent after some interruptions. -/
def send (b : Byte) (hb : b &&& 0x7F ≠ 0) (k : Nat) (d : Delivery) : Delivery where
  bytes := b :: d.bytes
  sent := (b &&& 0x7F) :: d.sent
  lost := d.lost
  tries := List.replicate k .interrupted ++ .written :: d.tries
  divided := by rw [visible_cons hb, d.divided, List.cons_append]
  counted := by
    rw [List.count_append, List.count_replicate, List.count_cons_self, d.counted]
    simp
  retried := by
    rw [List.getLast?_append, List.getLast?_cons]
    cases hlast : d.tries.getLast? with
    | none => simp
    | some e => simpa [hlast] using d.retried
  failed := by
    rw [← d.failed]
    simp
  givenUp := by
    rw [List.dropLast_append_cons]
    have hrest := d.givenUp
    cases htries : d.tries with
    | nil => simp
    | cons e rest =>
      rw [htries] at hrest
      simpa using hrest

/-- After some interruptions everything is lost. -/
def fail (bytes : List Byte) (hbytes : visible bytes ≠ []) (k : Nat) : Delivery where
  bytes := bytes
  sent := []
  lost := visible bytes
  tries := List.replicate k .interrupted ++ [.failed]
  divided := rfl
  counted := by simp [List.count_replicate]
  retried := by simp
  failed := by simpa using hbytes
  givenUp := by simp

/-- Without a failing attempt nothing is lost. -/
theorem sent_eq_visible {d : Delivery} (h : .failed ∉ d.tries) : d.sent = visible d.bytes := by
  have hlost : d.lost = [] := Decidable.of_not_not fun hlost => h (d.failed.mpr hlost)
  rw [d.divided, hlost, List.append_nil]

end Delivery

/-- The window has made some attempts to write and has sent some bytes, whatever else it did. -/
structure Sends (w : Window) (tries : List WriteEvent) (sent : List Byte) (w' : Window) :
    Prop where
  answers : tries = attempts tries.length w.writes
  writes : w'.writes = w.writes.drop tries.length
  record : ∃ deeds, w'.deeds.toList = w.deeds.toList ++ deeds ∧
    w'.output.toList = w.output.toList ++ outputIn deeds ∧ putsIn deeds = sent

namespace Sends

variable {w w₁ w' : Window} {tries tries' : List WriteEvent} {sent sent' : List Byte}

/-- Something was done, but nothing was written for the simulated machine. -/
theorem of_deeds (deeds : List Deed) (hwrites : w'.writes = w.writes)
    (hdeeds : w'.deeds.toList = w.deeds.toList ++ deeds)
    (houtput : w'.output.toList = w.output.toList ++ outputIn deeds) (hputs : putsIn deeds = []) :
    Sends w [] [] w' :=
  ⟨rfl, hwrites, deeds, hdeeds, houtput, hputs⟩

theorem of_same (hwrites : w'.writes = w.writes) (hdeeds : w'.deeds = w.deeds)
    (houtput : w'.output = w.output) : Sends w [] [] w' :=
  .of_deeds [] hwrites (by rw [hdeeds, List.append_nil])
    (by rw [houtput]; exact (List.append_nil _).symm) rfl

theorem refl (w : Window) : Sends w [] [] w := .of_same rfl rfl rfl

/-- What was sent in two parts was sent in one, in the same order. -/
theorem trans (h : Sends w tries sent w₁) (h' : Sends w₁ tries' sent' w') :
    Sends w (tries ++ tries') (sent ++ sent') w' := by
  obtain ⟨deeds, hdeeds, houtput, hputs⟩ := h.record
  obtain ⟨deeds', hdeeds', houtput', hputs'⟩ := h'.record
  constructor
  · have hrest := h'.answers
    rw [h.writes] at hrest
    rw [List.length_append, attempts_add, ← h.answers, ← hrest]
  · rw [h'.writes, h.writes, List.drop_drop, List.length_append]
  · refine ⟨deeds ++ deeds', ?_, ?_, ?_⟩
    · rw [hdeeds', hdeeds, List.append_assoc]
    · rw [houtput', houtput, List.append_assoc, outputIn, outputIn, outputIn, List.flatMap_append]
    · rw [← hputs, ← hputs', putsIn, List.filterMap_append]
      rfl

theorem trans_quiet (h : Sends w tries sent w₁) (h' : Sends w₁ [] [] w') :
    Sends w tries sent w' := by
  have hall := h.trans h'
  rwa [List.append_nil, List.append_nil] at hall

end Sends

theorem rawMode_sends (w : Window) : Sends w [] [] w.rawMode := by
  unfold rawMode
  split
  · exact .refl w
  · exact .of_deeds [.set w.found.raw] rfl Array.toList_push (List.append_nil _).symm rfl

theorem cookedMode_sends (w : Window) : Sends w [] [] w.cookedMode := by
  unfold cookedMode
  split
  · exact .of_deeds [.set w.found] rfl Array.toList_push (List.append_nil _).symm rfl
  · exact .refl w

theorem tell_sends (text : Text) (w : Window) : Sends w [] [] (w.tell text) := by
  have houtput : (w.tell text).output.toList = w.output.toList ++ outputIn [.tell text] := by
    simp [tell, outputIn]
  exact .of_deeds [.tell text] rfl Array.toList_push houtput rfl

/-- A message is written for the operator, and not for the simulated machine. -/
theorem message_sends (text : Text) (w : Window) : Sends w [] [] (w.message text) :=
  w.cookedMode_sends.trans (tell_sends _ _)

/-- To wait for a key writes nothing. -/
theorem readKey_sends (timeout : Nat) (w : Window) : Sends w [] [] (w.readKey timeout).2 := by
  cases hended : w.ended with
  | true =>
    rw [readKey_of_ended hended]
    exact .refl w
  | false =>
    rw [readKey_of_open hended]
    have hwait : Sends w.rawMode [] [] (w.hear timeout) :=
      .of_deeds [.wait (timeout * 1000)] rfl Array.toList_push (List.append_nil _).symm rfl
    exact w.rawMode_sends.trans hwait

theorem readKeys_sends (timeout n : Nat) (w : Window) :
    Sends w [] [] (readKeys timeout n w).2.2 :=
  readKeys_keeps .refl .trans readKey_sends timeout n w

theorem takeBreak_sends (timeout : Nat) (w : Window) : Sends w [] [] (w.takeBreak timeout).2 := by
  have hkeys := readKeys_sends timeout (w.events.length + 1) w
  rw [takeBreak, readAhead_eq]
  exact hkeys.trans (.of_same rfl rfl rfl)

theorem rawRead_sends (n timeout : Nat) (w : Window) :
    Sends w [] [] (w.rawRead n timeout).2 := by
  have hsame : Sends w [] [] { w with keys := w.keys.drop n } := .of_same rfl rfl rfl
  exact hsame.trans (readKeys_sends timeout _ _)

theorem read_sends (timeout : Nat) (w : Window) : Sends w [] [] (Console.read w timeout).2 := by
  have hread := w.rawRead_sends 1 timeout
  simp only [Console.read]
  split
  all_goals
    rename_i hraw
    rw [hraw] at hread
    exact hread

/-! ## Bytes of the simulated machine -/

/-- An attempt that is not interrupted at last takes its answers away. -/
theorem tried_sends {w : Window} {k : Nat} {e : WriteEvent}
    (htries : attempts (k + 1) w.writes = List.replicate k .interrupted ++ [e]) :
    Sends w (List.replicate k .interrupted ++ [e]) []
      { w with writes := w.writes.drop (k + 1) } := by
  have hlength : (List.replicate k WriteEvent.interrupted ++ [e]).length = k + 1 := by simp
  constructor
  · rw [hlength, htries]
  · rw [hlength]
  · exact ⟨[], (List.append_nil _).symm, (List.append_nil _).symm, rfl⟩

theorem put_sends (b : Byte) (w : Window) : Sends w [] [b] (w.put b) :=
  ⟨rfl, rfl, [.put b], Array.toList_push, Array.toList_push, rfl⟩

/-- Nothing but what is sent is put out meanwhile. -/
theorem writeAll_sends (bytes : List Byte) (w : Window) :
    ∃ d : Delivery, d.bytes = bytes ∧ Sends w d.tries d.sent (writeAll bytes w) ∧
      (writeAll bytes w).output.toList = w.output.toList ++ d.sent := by
  induction bytes generalizing w with
  | nil => exact ⟨.nothing, rfl, .refl w, (List.append_nil _).symm⟩
  | cons b rest ih =>
    rw [writeAll]
    by_cases hb : b &&& 0x7F = 0
    · obtain ⟨d, rfl, hsends, houtput⟩ := ih w
      rw [if_pos hb]
      exact ⟨d.skip b hb, rfl, hsends, houtput⟩
    · obtain ⟨k, e, htries, he, htry⟩ := tryWrite_eq w.writes
      have htried := tried_sends htries
      rw [if_neg hb, htry]
      cases e with
      | interrupted => exact absurd rfl he
      | failed =>
        have hvisible : visible (b :: rest) ≠ [] := by
          rw [visible_cons hb]
          exact List.cons_ne_nil _ _
        exact ⟨.fail (b :: rest) hvisible k, rfl, htried, (List.append_nil _).symm⟩
      | written =>
        -- The rest is written by the window that the first byte leaves behind.
        let w₁ : Window := { w with writes := w.writes.drop (k + 1) }
        obtain ⟨d, rfl, hsends, houtput⟩ := ih (w₁.put (b &&& 0x7F))
        have hall := (htried.trans (put_sends (b &&& 0x7F) w₁)).trans hsends
        refine ⟨d.send b hb k, rfl, ?_, ?_⟩
        · simpa [Delivery.send] using hall
        · refine houtput.trans ?_
          simp [put, w₁, Delivery.send]

/-- Every call to write bytes is a delivery, and what it sends is what comes out. -/
theorem rawWrite_sends (bytes : List Byte) (w : Window) :
    ∃ d : Delivery, d.bytes = bytes ∧ Sends w d.tries d.sent (w.rawWrite bytes) ∧
      (w.rawWrite bytes).output.toList = w.output.toList ++ d.sent := by
  obtain ⟨d, hbytes, hsends, houtput⟩ := writeAll_sends bytes w.rawMode
  have hsame : w.rawMode.output = w.output := by rw [rawMode_eq]
  exact ⟨d, hbytes, w.rawMode_sends.trans hsends, houtput.trans (by rw [hsame])⟩

/-! ## Several calls -/

/-- The calls to write bytes that were made between two windows. Otherwise nothing was written for
the simulated machine there. -/
def Delivers (w : Window) (calls : List Delivery) (w' : Window) : Prop :=
  Sends w (calls.flatMap (·.tries)) (calls.flatMap (·.sent)) w'

namespace Delivers

variable {w w₁ w' : Window} {calls calls' : List Delivery}

theorem one {d : Delivery} (h : Sends w d.tries d.sent w') : Delivers w [d] w' := by
  rw [Delivers, List.flatMap_singleton, List.flatMap_singleton]
  exact h

theorem trans (h : Delivers w calls w₁) (h' : Delivers w₁ calls' w') :
    Delivers w (calls ++ calls') w' := by
  rw [Delivers, List.flatMap_append, List.flatMap_append]
  exact Sends.trans h h'

/-- Calls of which none meets a failure send everything that can be seen. -/
theorem sent_eq_visible (h : Delivers w calls w') (hwrites : .failed ∉ w.writes) :
    calls.flatMap (·.sent) = visible (calls.flatMap (·.bytes)) := by
  have hnone : ∀ d ∈ calls, .failed ∉ d.tries := by
    intro d hd hfailed
    have hall : .failed ∈ calls.flatMap (·.tries) := List.mem_flatMap.mpr ⟨d, hd, hfailed⟩
    rw [h.answers] at hall
    rcases mem_of_mem_attempts hall with hmem | hwritten
    · exact hwrites hmem
    · cases hwritten
  clear h
  induction calls with
  | nil => rfl
  | cons d rest ih =>
    obtain ⟨hd, hrest⟩ := List.forall_mem_cons.mp hnone
    rw [List.flatMap_cons, List.flatMap_cons, visible_append, ih hrest, d.sent_eq_visible hd]

end Delivers

/-- The bytes that can be seen come out in order, each of them once, up to the first failure of
their own call. -/
theorem after_write_delivers (w : Window) (buffers : List (List Byte)) :
    ∃ calls : List Delivery, calls.map (·.bytes) = buffers ∧
      Delivers w calls (w.after (buffers.map .write)) ∧
      (w.after (buffers.map .write)).output.toList =
        w.output.toList ++ calls.flatMap (·.sent) := by
  induction buffers generalizing w with
  | nil => exact ⟨[], rfl, .refl w, (List.append_nil _).symm⟩
  | cons buffer rest ih =>
    obtain ⟨d, rfl, hfirst, houtput⟩ := w.rawWrite_sends buffer
    obtain ⟨calls, rfl, hrest, houtput'⟩ := ih (w.rawWrite d.bytes)
    refine ⟨d :: calls, rfl, (Delivers.one hfirst).trans hrest, ?_⟩
    refine houtput'.trans ?_
    rw [houtput, List.flatMap_cons, List.append_assoc]

/-- The first byte cannot be seen. The failure meets the third one, and the call after it is not
concerned. -/
example :
    ((new true [] [.interrupted, .written, .interrupted, .failed]).after
      [.write [0x80, 0xC1, 0x42, 0x43], .write [0x44]]).output = #[0x41, 0x44] := by
  decide

end Window

end LittleComputer
