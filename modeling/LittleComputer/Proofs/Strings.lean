import LittleComputer.Proofs.Repetition
import LittleComputer.Proofs.ServiceCall

/-!
# Strings in memory

The two services that write a string read it from memory, word by word, up to a zero word. The
addresses wrap around at the top of memory, so no string is longer than the address space, and the
services write all of it and change nothing else.
-/

namespace LittleComputer

variable {κ : Type} [Console κ]

namespace Machine

/-! ## Words in memory -/

/-- The processor reads these words from an address on, and no device is in the way. -/
def Holds (m : Machine κ) (a : Word) (words : List Word) : Prop :=
  ∀ i w, words[i]? = some w →
    m.memory.io.get (a + BitVec.ofNat 16 i) = false ∧
      load (a + BitVec.ofNat 16 i) m = .ok (w, m)

variable {m m' : Machine κ} {a w : Word} {words : List Word} {d : DeviceId}

/-- Where no device answers, it is the memory alone that decides what is read. -/
theorem load_of_memory (hio : m.memory.io.get a = false) (hload : load a m = .ok (w, m))
    (hmemory : m'.memory = m.memory) : load a m' = .ok (w, m') := by
  rw [load_plain hio] at hload
  rw [load_plain (by rwa [hmemory]), hmemory]
  split at hload
  · rename_i hvalid
    rw [if_pos hvalid, plainWord, hmemory]
    obtain ⟨rfl, -⟩ := Prod.mk.inj (Except.ok.inj hload)
    rfl
  · cases hload

theorem Holds.of_memory (h : m.Holds a words) (hmemory : m'.memory = m.memory) :
    m'.Holds a words := by
  intro i w hw
  obtain ⟨hio, hload⟩ := h i w hw
  exact ⟨by rwa [hmemory], load_of_memory hio hload hmemory⟩

theorem Holds.head (h : m.Holds a (w :: words)) : load a m = .ok (w, m) := by
  have hfirst := (h 0 w rfl).2
  rwa [BitVec.add_zero] at hfirst

theorem Holds.tail (h : m.Holds a (w :: words)) : m.Holds (a + 1) words := by
  intro i v hv
  have hrest := h (i + 1) v hv
  have ha : a + BitVec.ofNat 16 (i + 1) = a + 1 + BitVec.ofNat 16 i := by
    rw [BitVec.ofNat_add, BitVec.add_comm (BitVec.ofNat 16 i), ← BitVec.add_assoc]
    rfl
  rwa [ha] at hrest

/-- A string that ends is shorter than the address space. Otherwise its end would be one of its
own words. -/
theorem Holds.length_lt (h : m.Holds a (words ++ [0])) (hne : ∀ w ∈ words, w ≠ 0) :
    words.length < 65536 := by
  by_contra hlong
  have hlt : words.length - 65536 < words.length := by omega
  have hend := (h words.length 0 List.getElem?_concat_length).2
  have hword := (h (words.length - 65536) words[words.length - 65536] (by
    rw [List.getElem?_append_left hlt, List.getElem?_eq_getElem hlt])).2
  have ha : BitVec.ofNat 16 words.length = BitVec.ofNat 16 (words.length - 65536) := by
    apply BitVec.eq_of_toNat_eq
    rw [BitVec.toNat_ofNat, BitVec.toNat_ofNat]
    omega
  rw [ha] at hend
  exact hne _ (List.getElem_mem hlt) (Prod.mk.inj (Except.ok.inj (hword.symm.trans hend))).1

/-! ## Writing strings -/

/-- A string is written up to its end, if the service looks at enough words. -/
theorem HasDisplay.writeString (h : m.HasDisplay d) (chars : Word → List Byte)
    (hholds : m.Holds a (words ++ [0])) (hne : ∀ w ∈ words, w ≠ 0) {n : Nat}
    (hn : words.length < n) :
    ∃ m', (Routine.writeString chars n a).run m = .ok ((), m') ∧
      m.Displays (words.flatMap chars) m' := by
  induction words generalizing m a n with
  | nil =>
    obtain ⟨n, rfl⟩ := Nat.exists_eq_succ_of_ne_zero (Nat.ne_of_gt hn)
    refine ⟨m, ?_, .refl m⟩
    rw [Routine.writeString, Routine.run_bind, Routine.run_load, hholds.head]
    rfl
  | cons w rest ih =>
    obtain ⟨n, rfl⟩ := Nat.exists_eq_succ_of_ne_zero (Nat.ne_of_gt (Nat.zero_lt_of_lt hn))
    obtain ⟨m₁, hchars, hshown⟩ := h.writeChars (chars w)
    obtain ⟨m', hrest, hmore⟩ := ih (h.of_displays hshown) (hholds.tail.of_memory hshown.memory)
      (fun v hv => hne v (List.mem_cons_of_mem w hv)) (Nat.lt_of_succ_lt_succ hn)
    refine ⟨m', ?_, hshown.trans hmore⟩
    rw [Routine.writeString, Routine.run_bind, Routine.run_load, hholds.head]
    dsimp only
    rw [if_neg (hne w List.mem_cons_self), Routine.run_bind, hchars]
    exact hrest

/-- What is left of a call that wrote some bytes, and did nothing else. -/
structure Printed (m : Machine κ) (bytes : List Byte) (m' : Machine κ) : Prop where
  /-- Register 7 has the return address. The other registers, the program counter and the condition
  are as they were. -/
  cpu : m'.cpu =
    { m.cpu.setRegister 7 m.cpu.pc with stop := .running, lastPc := m.cpu.pc - 1 }
  memory : m'.memory = m.memory
  map : m'.map = m.map
  devices : ∀ e, m'.device? e = m.device? e
  host : m'.host = { m.host with console := Console.shown m.host.console bytes }
  /-- What writing leaves alone, such as the input of the console, is as it was. -/
  input : ∀ {α : Type} (f : κ → α), (∀ c bytes, f (Console.write c bytes) = f c) →
    f m'.host.console = f m.host.console

/-- Every trap for the service writes the bytes and does nothing else. -/
def Prints (m : Machine κ) (s : Service) (bytes : List Byte) : Prop :=
  ∀ w : Word, w.Calls s → ∃ m', execute w m = .ok (.running, m') ∧ m.Printed bytes m'

theorem Displays.printed {bytes : List Byte} (h : m.called.Displays bytes m') :
    m.Printed bytes m' where
  cpu := h.cpu
  memory := h.memory
  map := h.map
  devices := h.devices
  host := h.host
  input f hf := by
    rw [h.host]
    exact Console.shown_keeps hf bytes _

/-- The services that write a string do so for the string at the address in register 0. -/
theorem HasDisplay.prints (h : m.HasDisplay d) {s : Service} {chars : Word → List Byte}
    (hserve : Routine.serve s = do
      Routine.writeString chars Routine.longestString ((← Routine.look).register 0))
    (hholds : m.Holds (m.cpu.register 0) (words ++ [0])) (hne : ∀ w ∈ words, w ≠ 0) :
    m.Prints s (words.flatMap chars) := by
  intro w hw
  have hcalled : m.called.HasDisplay d := ⟨h.reaches, h.terminal⟩
  have hstart : m.called.Holds (m.cpu.register 0) (words ++ [0]) := hholds.of_memory rfl
  obtain ⟨m', hrun, hshown⟩ := hcalled.writeString chars hstart hne (hholds.length_lt hne)
  refine ⟨m', ?_, hshown.printed⟩
  rw [execute_service hw, hserve, Routine.run_bind, Routine.run_look]
  dsimp only
  rw [called_register m (by decide), Routine.longestString, hrun]
  dsimp only
  rw [hshown.cpu]
  rfl

end Machine

/-! ## Forms of a string -/

/-- A string with one character in each word. -/
def plainForm (s : List Byte) : List Word := s.map Word.ofByte ++ [0]

/-- Two characters in each word, the first one in the low byte. An odd one is filled with zero. -/
def packedWords : List Byte → List Word
  | [] => []
  | [b] => [Word.ofByte b]
  | b :: c :: rest => Word.ofBytes c b :: packedWords rest

/-- A string with two characters in each word. -/
def packedForm (s : List Byte) : List Word := packedWords s ++ [0]

namespace Word

theorem lowByte_ofBytes (high low : Byte) : lowByte (ofBytes high low) = low :=
  BitVec.setWidth_append_eq_right

theorem highByte_ofBytes (high low : Byte) : highByte (ofBytes high low) = high :=
  BitVec.extractLsb'_append_eq_left

theorem highByte_ofByte (b : Byte) : highByte (ofByte b) = 0 := by
  revert b
  decide

theorem ne_zero_of_lowByte {w : Word} (h : lowByte w ≠ 0) : w ≠ 0 := by
  rintro rfl
  exact h rfl

end Word

theorem plainForm_chars (s : List Byte) : (s.map Word.ofByte).flatMap Routine.plainChars = s := by
  induction s with
  | nil => rfl
  | cons b rest ih =>
    rw [List.map_cons, List.flatMap_cons, ih, Routine.plainChars, Word.lowByte_ofByte]
    rfl

theorem packedWords_chars {s : List Byte} (hs : 0 ∉ s) :
    (packedWords s).flatMap Routine.packedChars = s ∧ ∀ w ∈ packedWords s, w ≠ 0 := by
  induction s using packedWords.induct with
  | case1 => exact ⟨rfl, nofun⟩
  | case2 b =>
    have hb : b ≠ 0 := fun h => hs (h ▸ List.mem_cons_self)
    refine ⟨?_, fun w hw => ?_⟩
    · rw [packedWords, List.flatMap_singleton, Routine.packedChars, Word.highByte_ofByte,
        if_pos rfl, Word.lowByte_ofByte]
    · rw [List.mem_singleton.mp hw]
      exact Word.ne_zero_of_lowByte (by rwa [Word.lowByte_ofByte])
  | case3 b c rest ih =>
    rw [List.mem_cons, List.mem_cons, not_or, not_or] at hs
    obtain ⟨hb, hc, hrest⟩ := hs
    obtain ⟨hchars, hne⟩ := ih hrest
    refine ⟨?_, fun w hw => ?_⟩
    · rw [packedWords, List.flatMap_cons, hchars, Routine.packedChars, Word.highByte_ofBytes,
        Word.lowByte_ofBytes, if_neg (Ne.symm hc)]
      rfl
    · rcases List.mem_cons.mp hw with rfl | hw
      · exact Word.ne_zero_of_lowByte (by rw [Word.lowByte_ofBytes]; exact Ne.symm hb)
      · exact hne w hw

namespace Machine

variable {m : Machine κ} {d : DeviceId}

/-- The words before the first zero word are a string. -/
theorem holds_of_least (hsize : m.memory.size = 65536) {a : Word} {k : Nat}
    (hplain : ∀ i ≤ k, m.memory.io.get (a + BitVec.ofNat 16 i) = false)
    (hend : load (a + BitVec.ofNat 16 k) m = .ok (0, m)) :
    m.Holds a ((List.range k).map (fun i => m.plainWord (a + BitVec.ofNat 16 i)) ++ [0]) := by
  intro i w hw
  have hlength : ((List.range k).map fun i => m.plainWord (a + BitVec.ofNat 16 i)).length = k := by
    rw [List.length_map, List.length_range]
  rcases Nat.lt_trichotomy i k with hi | rfl | hi
  · rw [List.getElem?_append_left (by rwa [hlength]), List.getElem?_map,
      List.getElem?_range hi] at hw
    obtain rfl := Option.some.inj hw
    have hio := hplain i (Nat.le_of_lt hi)
    exact ⟨hio, by rw [load_plain hio, if_pos (InstructionSet.isValid_of_full hsize _)]⟩
  · rw [List.getElem?_append_right (by rw [hlength]), hlength, Nat.sub_self] at hw
    obtain rfl : 0 = w := Option.some.inj hw
    exact ⟨hplain i (Nat.le_refl i), hend⟩
  · rw [List.getElem?_eq_none (by rw [List.length_append, hlength]; exact hi)] at hw
    cases hw

/-- The services that write a string write exactly the string and touch nothing else. In an ordinary
string each word gives its low byte, and in a packed one also its high byte unless that is zero.
Both forms of a string print the string. -/
theorem strings_printed (hsize : m.memory.size = 65536) (hdisplay : m.HasDisplay d) :
    (∀ k, (∀ i ≤ k, m.memory.io.get (m.cpu.register 0 + BitVec.ofNat 16 i) = false) →
      load (m.cpu.register 0 + BitVec.ofNat 16 k) m = .ok (0, m) →
      (∀ i < k, load (m.cpu.register 0 + BitVec.ofNat 16 i) m ≠ .ok (0, m)) →
      let words := (List.range k).map fun i => m.plainWord (m.cpu.register 0 + BitVec.ofNat 16 i)
      m.Prints .writeString (words.map Word.lowByte) ∧
        m.Prints .writePacked (words.flatMap fun w =>
          if Word.highByte w = 0 then [Word.lowByte w] else [Word.lowByte w, Word.highByte w])) ∧
    ∀ s : List Byte, 0 ∉ s →
      (m.Holds (m.cpu.register 0) (plainForm s) → m.Prints .writeString s) ∧
        (m.Holds (m.cpu.register 0) (packedForm s) → m.Prints .writePacked s) := by
  refine ⟨fun k hplain hend hleast => ?_, fun s hs => ⟨fun hholds => ?_, fun hholds => ?_⟩⟩
  · have hholds := holds_of_least hsize hplain hend
    have hne : ∀ w ∈ (List.range k).map
        (fun i => m.plainWord (m.cpu.register 0 + BitVec.ofNat 16 i)), w ≠ 0 := by
      intro w hw hzero
      obtain ⟨i, hi, rfl⟩ := List.mem_map.mp hw
      have hik := List.mem_range.mp hi
      refine hleast i hik ?_
      rw [load_plain (hplain i (Nat.le_of_lt hik)),
        if_pos (InstructionSet.isValid_of_full hsize _), hzero]
    refine ⟨?_, hdisplay.prints rfl hholds hne⟩
    rw [List.map_eq_flatMap]
    exact hdisplay.prints rfl hholds hne
  · have hprints := hdisplay.prints (s := .writeString) rfl hholds fun w hw => ?_
    · rwa [plainForm_chars] at hprints
    · obtain ⟨b, hb, rfl⟩ := List.mem_map.mp hw
      exact Word.ne_zero_of_lowByte fun hzero => hs (by rwa [← hzero, Word.lowByte_ofByte])
  · obtain ⟨hchars, hne⟩ := packedWords_chars hs
    have hprints := hdisplay.prints (s := .writePacked) rfl hholds hne
    rwa [hchars] at hprints

/-- A string of three words at the start of a program. The second word has no high byte, and the
third one no low byte. -/
theorem strings_printed_three :
    ∃ m : Machine Script, m.memory.size = 65536 ∧ m.HasDisplay 0 ∧
      (∃ m', execute 0xF022 m = .ok (.running, m') ∧
        m'.host.console.output = #[0x41, 0x43, 0x00]) ∧
      ∃ m', execute 0xF024 m = .ok (.running, m') ∧
        m'.host.console.output = #[0x41, 0x42, 0x43, 0x00, 0x45] := by
  let m : Machine Script :=
    { sample [0x4241, 0x0043, 0x4500, 0x0000] [] with
      cpu := Cpu.initial.setRegister 0 Cpu.userStart }
  have hdisplay : m.HasDisplay 0 := ⟨⟨by decide, by decide, by decide⟩, _, _, rfl, rfl⟩
  have hplain : ∀ i ≤ 3, m.memory.io.get (m.cpu.register 0 + BitVec.ofNat 16 i) = false := by decide
  have hread : ∀ i ≤ 3, load (m.cpu.register 0 + BitVec.ofNat 16 i) m =
      .ok (m.plainWord (m.cpu.register 0 + BitVec.ofNat 16 i), m) := by
    intro i hi
    rw [load_plain (hplain i hi), if_pos (InstructionSet.isValid_of_full rfl _)]
  have hwords : ∀ i < 3, m.plainWord (m.cpu.register 0 + BitVec.ofNat 16 i) ≠ 0 := by decide
  have hend : m.plainWord (m.cpu.register 0 + BitVec.ofNat 16 3) = 0 := by decide
  obtain ⟨hputs, hpacked⟩ := (strings_printed rfl hdisplay).1 3 hplain
    (by rw [hread 3 (Nat.le_refl 3), hend]) fun i hi hzero => by
      rw [hread i (Nat.le_of_lt hi)] at hzero
      exact hwords i hi (Prod.mk.inj (Except.ok.inj hzero)).1
  obtain ⟨m₁, hplainRun, hplainEnd⟩ := hputs 0xF022 (by decide)
  obtain ⟨m₂, hpackedRun, hpackedEnd⟩ := hpacked 0xF024 (by decide)
  refine ⟨m, rfl, hdisplay, ⟨m₁, hplainRun, ?_⟩, m₂, hpackedRun, ?_⟩
  · rw [hplainEnd.host]
    decide +kernel
  · rw [hpackedEnd.host]
    decide +kernel

end Machine

end LittleComputer
