import LittleComputer.Proofs.CommandLineGrammar
import LittleComputer.Proofs.Outcome

/-!
# The limit on the number of instructions

The number that is typed behind `-n` is read with 64 bits, and then only 32 bits of it are kept. So
it is the limit of the run if it fits into 32 bits. Of any other number something else is made: a
limit that is less, or a command line that is not accepted (`Simulator.simulate_limited`).
-/

namespace LittleComputer

/-! ## Typed numbers -/

namespace Options

/-- The limit that a number is taken for. More than 64 bits can hold counts as the most that they
can hold, and of that the last 32 bits are left. -/
def typedLimit (n : Nat) : BitVec 32 := BitVec.ofNat 32 (min n (2 ^ 64 - 1))

theorem toNat_typedLimit (n : Nat) : (typedLimit n).toNat = min n (2 ^ 64 - 1) % 2 ^ 32 :=
  BitVec.toNat_ofNat _ _

/-- Only what fits into 32 bits is taken for itself. -/
theorem toNat_typedLimit_eq_iff {n : Nat} : (typedLimit n).toNat = n ↔ n < 2 ^ 32 := by
  rw [toNat_typedLimit]
  omega

variable {typed image : Text}

/-- Digits alone are read as their value, as far as 64 bits can hold it. -/
theorem reads64_digits (hne : typed ≠ []) (hdigits : ∀ b ∈ typed, Numeral.IsDigit b) :
    Numeral.Reads64 typed (BitVec.ofNat 64 (min (Numeral.valueFrom 0 typed) (2 ^ 64 - 1))) := by
  have hread := Numeral.Reads64.intro (List.forall_mem_nil _) (.inl rfl) hne hdigits
  rw [if_neg (List.cons_ne_nil _ _).symm] at hread
  have hvalue : (if 2 ^ 64 ≤ Numeral.valueFrom 0 typed then BitVec.allOnes 64
      else BitVec.ofNat 64 (Numeral.valueFrom 0 typed)) =
      BitVec.ofNat 64 (min (Numeral.valueFrom 0 typed) (2 ^ 64 - 1)) := by
    split
    · rename_i hlarge
      rw [Nat.min_eq_right (by omega)]
      rfl
    · rw [Nat.min_eq_left (by omega)]
  rwa [hvalue] at hread

theorem count?_digits (hne : typed ≠ []) (hdigits : ∀ b ∈ typed, Numeral.IsDigit b) :
    count? typed = if typedLimit (Numeral.valueFrom 0 typed) = 0 then .none
      else some (typedLimit (Numeral.valueFrom 0 typed)) := by
  have hread := Numeral.read64?_eq_some_iff.mpr (reads64_digits hne hdigits)
  have hlast : (BitVec.ofNat 64 (min (Numeral.valueFrom 0 typed) (2 ^ 64 - 1))).setWidth 32 =
      typedLimit (Numeral.valueFrom 0 typed) := by
    rw [typedLimit, BitVec.setWidth_ofNat_of_le (by decide)]
  rw [count?, hread]
  dsimp only
  rw [hlast]

/-- A command line with a count and an image is accepted unless nothing is left of the count. -/
theorem read_limited (hne : typed ≠ []) (hdigits : ∀ b ∈ typed, Numeral.IsDigit b)
    (himage : image.head? ≠ some Byte.minus) :
    read ["-n", typed, image] =
      if typedLimit (Numeral.valueFrom 0 typed) = 0 then .error .missingCount
      else .ok { none with
        limit := typedLimit (Numeral.valueFrom 0 typed), images := [image] } := by
  have hcount := count?_digits hne hdigits
  by_cases hzero : typedLimit (Numeral.valueFrom 0 typed) = 0
  · rw [if_pos hzero] at hcount ⊢
    rw [read, readFrom, if_neg (by decide), if_neg (by decide), if_neg (by decide),
      if_neg (by decide), if_neg (by decide), if_pos rfl, hcount]
  · rw [if_neg hzero] at hcount ⊢
    have hvalid : ∀ i ∈ [Item.limit typed, .image image], i.IsValid := by
      simp only [List.forall_mem_cons, Item.IsValid, hcount]
      exact ⟨rfl, himage, List.forall_mem_nil _⟩
    refine read_eq_ok.mpr ⟨⟨_, hvalid, rfl, ?_⟩, List.cons_ne_nil _ _⟩
    simp only [List.foldl_cons, List.foldl_nil, Item.apply, hcount]
    rfl

end Options

/-! ## Runs with a limit -/

namespace Machine

variable {κ : Type} [Console κ]

/-- A run stops because it has executed `n` instructions, or before that for another reason. -/
structure KeepsLimit (m : Machine κ) (n : Nat) (c : StopCode) (m' : Machine κ) : Prop where
  bounded : m'.cpu.executed ≤ m.cpu.executed + n
  finished : c = .finished → m'.cpu.executed = m.cpu.executed + n
  /-- The instruction executed last stopped the machine, or an interruption or a breakpoint did. -/
  otherwise : c ≠ .finished → c.IsOwn ∨ c = .interrupted ∨ c = .breakpoint

theorem run_keepsLimit {m m' : Machine κ} {limit : BitVec 32} {budget : Nat} {c : StopCode}
    (hlimit : limit ≠ 0) (h : run limit budget m = .ok (c, m')) :
    KeepsLimit m limit.toNat c m' := by
  obtain ⟨trail, m₁, htrail, hne, hbound, hend⟩ := run_trail h
  have hcount : m'.cpu.executed = m.cpu.executed + trail.length := by
    rw [hend.eq_stopWith]
    exact htrail.executed
  refine ⟨?_, fun hc => ?_, fun hc => ?_⟩
  · rw [hcount]
    exact Nat.add_le_add_left (hbound hlimit) _
  · rw [hcount]
    cases hend with
    | finished _ _ hused => rw [hused]
    | breakpoint => cases hc
    | stopped => exact absurd hc (htrail.stop_ne hne (.inl rfl))
  · cases hend with
    | finished => exact absurd rfl hc
    | breakpoint => exact .inr (.inr rfl)
    | stopped hstop =>
      rcases htrail.stop hne with hrunning | hown | hinterrupted
      · exact absurd hrunning hstop
      · exact .inl hown
      · exact .inr (.inl hinterrupted)

end Machine

/-! ## The program with a limit -/

namespace Simulator

variable {arguments : List Text} {host : Host Window} {o : Options} {m : Machine Window}

theorem Starts.executed (h : Starts arguments host o m) : m.cpu.executed = 0 := by
  obtain ⟨items, image, hbegins⟩ := h.begins
  rw [hbegins.cpu]
  rfl

/-- The stop code and the number of instructions executed, if the program comes to its run. -/
def ranFor (arguments : List Text) (host : Host Window) (budget : Nat) :
    Option (StopCode × Nat) :=
  match prepare arguments host with
  | .ok (.ready o m) =>
    (Machine.run o.limit budget m).toOption.map fun x => (x.1, x.2.cpu.executed)
  | _ => none

/-- To know that everything goes well before the run it is enough to compute how it ends. -/
theorem starts_of_ranFor {start : Window} (hlog : host.log = none)
    (hlogged : Logging start (logged host)) {budget k : Nat} {c : StopCode}
    (h : ranFor arguments host budget = some (c, k)) :
    ∃ o m m', Starts arguments host o m ∧ Machine.run o.limit budget m = .ok (c, m') ∧
      m'.cpu.executed = k := by
  unfold ranFor at h
  rcases prepare_cases arguments hlog hlogged with
    ⟨o, m, hprepare, hstarts⟩ | ⟨outcome, hprepare, -, -⟩
  · rw [hprepare] at h
    dsimp only at h
    cases hrun : Machine.run o.limit budget m with
    | error e =>
      rw [hrun] at h
      cases h
    | ok x =>
      rw [hrun] at h
      cases h
      exact ⟨o, m, x.2, hstarts, hrun, rfl⟩
  · rw [hprepare] at h
    cases h

/-- What a count behind `-n` does. It limits the run to the number that is left of it: the number
itself if that is less than 2 ^ 32, and another one if it is not. If nothing is left of it, the
command line is not accepted and nothing is executed. Otherwise, and if the image can be loaded, the
run stops after exactly as many instructions as are left, unless it stops before that for another
reason, or waits for a key that is never typed. -/
theorem simulate_limited (isTerminal : Bool) (found : TerminalMode) (events : List KeyEvent)
    (writes : List WriteEvent) (files : FileStore) (now : Moment) (budget : Nat)
    {typed image : Text} (hne : typed ≠ []) (hdigits : ∀ b ∈ typed, Numeral.IsDigit b)
    (himage : image.head? ≠ some Byte.minus) :
    let start := { Window.new isTerminal events writes with found }
    let host := Host.new start files now
    let arguments : List Text := ["-n", typed, image]
    let n := Numeral.valueFrom 0 typed
    let limit := Options.typedLimit n
    (limit.toNat = n ↔ n < 2 ^ 32) ∧
      (limit = 0 → ∃ outcome, simulate arguments host budget = .ok outcome ∧
        prepare arguments host = .ok (.ended outcome) ∧ outcome.status = 1 ∧
        OnlyMessages start outcome.host) ∧
      ∀ o m, Starts arguments host o m → limit ≠ 0 ∧ o.limit = limit ∧ m.cpu.executed = 0 ∧
        (simulate arguments host budget = .error .stalled ∨
          ∃ c m', Machine.run limit budget m = .ok (c, m') ∧
            Machine.KeepsLimit m limit.toNat c m' ∧
            simulate arguments host budget = .ok (finish c m')) := by
  intro start host arguments n limit
  have hlog : host.log = none := rfl
  have hread : Options.read arguments = _ := Options.read_limited hne hdigits himage
  refine ⟨Options.toNat_typedLimit_eq_iff, fun hzero => ?_, fun o m hstarts => ?_⟩
  · rw [if_pos hzero] at hread
    have hprepare := prepare_of_refused hlog hread
    have hlogged : Logging start (logged host) := logging_logged rfl files now
    refine ⟨_, ?_, hprepare, rfl, (hlogged.reportAll .command _).shutDown false⟩
    rw [simulate, hprepare]
    rfl
  · have haccepted := hstarts.accepted
    have hlimit : limit ≠ 0 := by
      intro hzero
      rw [hread, if_pos hzero] at haccepted
      cases haccepted
    rw [hread, if_neg hlimit] at haccepted
    obtain rfl := Except.ok.inj haccepted
    refine ⟨hlimit, rfl, hstarts.executed, ?_⟩
    rw [hstarts.simulate hlog]
    rcases hstarts.sound.run limit budget with hsafe | ⟨hzero, -⟩
    · rcases hsafe.inv with hstalled | ⟨c, m', hrun, -⟩
      · exact .inl (by rw [hstalled])
      · exact .inr ⟨c, m', hrun, Machine.run_keepsLimit hlimit hrun, by rw [hrun]⟩
    · exact absurd hzero hlimit

/-- A window that nobody types in, and a file with a program that says "Hi" in two instructions and
halts in a third one. -/
def greetingHost : Host Window :=
  .new { Window.new true [] [] with found := .cooked }
    { FileStore.empty [] with
      files := [([Text.ofString "p.obj"], ⟨#[0x30, 0x00, 0xE0, 0x02, 0xF0, 0x22, 0xF0, 0x25, 0x00,
        0x48, 0x00, 0x69, 0x00, 0x00], none⟩)] } default

theorem logging_greetingHost :
    Logging { Window.new true [] [] with found := .cooked } (logged greetingHost) :=
  logging_logged rfl _ _

/-- With a limit of two the program is stopped before it halts. -/
theorem simulate_limited_two :
    ∃ (typed image : Text) (o : Options) (m m' : Machine Window),
      typed ≠ [] ∧ (∀ b ∈ typed, Numeral.IsDigit b) ∧ image.head? ≠ some Byte.minus ∧
        Numeral.valueFrom 0 typed = 2 ∧ Starts ["-n", typed, image] greetingHost o m ∧
        o.limit = 2 ∧ Machine.run o.limit 0 m = .ok (.finished, m') ∧ m'.cpu.executed = 2 ∧
        simulate ["-n", typed, image] greetingHost 0 = .ok (finish .finished m') := by
  have hne : Text.ofString "2" ≠ [] := by decide
  have hdigits : ∀ b ∈ Text.ofString "2", Numeral.IsDigit b := by decide
  have himage : (Text.ofString "p.obj").head? ≠ some Byte.minus := by decide
  have hran : ranFor ["-n", "2", "p.obj"] greetingHost 0 = some (.finished, 2) := by
    decide +kernel
  obtain ⟨o, m, m', hstarts, hrun, hcount⟩ := starts_of_ranFor rfl logging_greetingHost hran
  have hlimited :=
    simulate_limited true .cooked [] [] greetingHost.files default 0 hne hdigits himage
  obtain ⟨-, hlimit, -, hends⟩ := hlimited.2.2 o m hstarts
  have hsimulate := hstarts.simulate rfl 0
  rw [hrun] at hsimulate
  rcases hends with hstalled | ⟨c, m'', hrun', -, hsimulate'⟩
  · cases hsimulate.symm.trans hstalled
  · rw [← hlimit] at hrun'
    cases hrun.symm.trans hrun'
    exact ⟨_, _, o, m, m', hne, hdigits, himage, by decide, hstarts, hlimit.trans (by decide), hrun,
      hcount, hsimulate'⟩

/-- Of 2 ^ 32 + 2 a limit of two is left, too. So the program is stopped before it halts, with the
code of a limit that is reached, although the number is nowhere near. -/
theorem simulate_wraps :
    ∃ (typed : Text) (o : Options) (m m' : Machine Window),
      typed = Text.ofString "4294967298" ∧ Numeral.valueFrom 0 typed = 4294967298 ∧
        Starts ["-n", typed, "p.obj"] greetingHost o m ∧ m.cpu.executed = 0 ∧
        Machine.run o.limit 0 m = .ok (.finished, m') ∧ m'.cpu.executed = 2 ∧
        simulate ["-n", typed, "p.obj"] greetingHost 0 = .ok (finish .finished m') := by
  have hran : ranFor ["-n", "4294967298", "p.obj"] greetingHost 0 = some (.finished, 2) := by
    decide +kernel
  obtain ⟨o, m, m', hstarts, hrun, hcount⟩ := starts_of_ranFor rfl logging_greetingHost hran
  refine ⟨_, o, m, m', rfl, by decide, hstarts, hstarts.executed, hrun, hcount, ?_⟩
  rw [hstarts.simulate rfl, hrun]

end Simulator

end LittleComputer
