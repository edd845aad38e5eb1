import LittleComputer.Proofs.Routine

/-!
# Interruptions by the operator

Only a terminal looks at the console, and only while one of its two keyboard registers is read. If
the operator asked for an interruption by then, a terminal that is attached to the processor stops
it. A read of memory changes the stop code in this way or not at all, and a routine keeps the stop
code from one of its reads, or from an earlier one, up to a change of its own.
-/

namespace LittleComputer

variable {κ : Type} [Console κ]

/-- The stop code after an access that stops the machine if it is `interrupted` and changes nothing
otherwise. -/
def StopCode.After (interrupted : Prop) (before after : StopCode) : Prop :=
  (interrupted ∧ after = .interrupted) ∨ (¬ interrupted ∧ after = before)

/-- Two accesses stop the machine if one of them is interrupted. -/
theorem StopCode.After.trans {p q : Prop} {c₁ c₂ c₃ : StopCode} (h : After p c₁ c₂)
    (h' : After q c₂ c₃) : After (p ∨ q) c₁ c₃ := by
  rcases h' with ⟨hq, rfl⟩ | ⟨hq, rfl⟩
  · exact .inl ⟨.inr hq, rfl⟩
  · rcases h with ⟨hp, rfl⟩ | ⟨hp, rfl⟩
    · exact .inl ⟨.inl hp, rfl⟩
    · exact .inr ⟨fun hpq => hpq.elim hp hq, rfl⟩

theorem StopCode.After.congr {p q : Prop} {before after : StopCode} (hpq : p ↔ q)
    (h : After p before after) : After q before after := by
  rcases h with ⟨hp, hc⟩ | ⟨hp, hc⟩
  · exact .inl ⟨hpq.mp hp, hc⟩
  · exact .inr ⟨fun hq => hp (hpq.mpr hq), hc⟩

/-! ## Looks at the console -/

namespace Terminal

namespace Session

def isWaiting (s : Session κ) : Bool :=
  !s.terminal.ready && !s.terminal.ended && !(s.terminal.attached && s.stop != .running)

/-- The sessions in which waiting for a character looks at the console, at most `tries`. -/
def waitingLooks (name : Text) : Nat → Session κ → List (Session κ)
  | 0, _ => []
  | tries + 1, s =>
    if s.isWaiting then s :: waitingLooks name tries (s.poll name pollTimeout) else []

/-- The sessions in which reading a register looks at the console. -/
def looks (name : Text) (address : Word) (s : Session κ) : List (Session κ) :=
  if address = keyboardStatus then [s]
  else if address = keyboardData then s.waitingLooks name (Console.patience s.host.console + 1)
  else []

/-- A look at the console would find that the operator asked for an interruption. -/
def FindsBreak (s : Session κ) : Prop := (Console.takeBreak s.host.console).1 = true

end Session

/-- One of the looks at the console stops the machine. -/
def Interrupts (attached : Bool) (looks : List (Session κ)) : Prop :=
  attached = true ∧ ∃ s ∈ looks, s.FindsBreak

theorem interrupts_nil (attached : Bool) : ¬ Interrupts attached ([] : List (Session κ)) := by
  rintro ⟨-, s, hs, -⟩
  cases hs

/-- One of several looks finds the interruption if the first one does or one of the others. -/
theorem interrupts_cons (attached : Bool) (s : Session κ) (looks : List (Session κ)) :
    Interrupts attached (s :: looks) ↔ Interrupts attached [s] ∨ Interrupts attached looks := by
  simp [Interrupts, and_or_left]

namespace Session

private theorem receive_keeps (name : Text) (timeout : Nat) (s : Session κ) :
    (s.receive name timeout).stop = s.stop ∧
      (s.receive name timeout).terminal.attached = s.terminal.attached := by
  unfold receive
  split
  · split <;> exact ⟨rfl, rfl⟩

theorem poll_attached (name : Text) (timeout : Nat) (s : Session κ) :
    (s.poll name timeout).terminal.attached = s.terminal.attached := by
  simp only [poll]
  split
  · rfl
  · exact (s.noticeBreak.receive_keeps name timeout).2

/-- A look at the console stops an attached processor exactly if the operator asked for it. -/
theorem poll_stop (name : Text) (timeout : Nat) (s : Session κ) :
    (s.poll name timeout).stop =
      if (Console.takeBreak s.host.console).1 && s.terminal.attached then .interrupted
      else s.stop := by
  simp only [poll]
  split
  · rfl
  · exact (s.noticeBreak.receive_keeps name timeout).1

theorem poll_after (name : Text) (timeout : Nat) (s : Session κ) :
    StopCode.After (Interrupts s.terminal.attached [s]) s.stop (s.poll name timeout).stop := by
  rw [StopCode.After, s.poll_stop]
  cases hb : (Console.takeBreak s.host.console).1 with
  | false => exact .inr ⟨by simp [Interrupts, FindsBreak, hb], rfl⟩
  | true =>
    cases ha : s.terminal.attached with
    | false => exact .inr ⟨by simp [Interrupts], rfl⟩
    | true => exact .inl ⟨by simp [Interrupts, FindsBreak, hb], rfl⟩

theorem await_of_waiting {s : Session κ} (hs : s.isWaiting = true) (name : Text)
    (tries : Nat) : s.await name (tries + 1) = (s.poll name pollTimeout).await name tries := by
  simp only [isWaiting, Bool.and_eq_true, Bool.not_eq_true'] at hs
  rw [await, hs.1.1, hs.1.2, hs.2]
  rfl

theorem await_zero_of_waiting {s : Session κ} (hs : s.isWaiting = true) (name : Text) :
    s.await name 0 = .error .stalled := by
  simp only [isWaiting, Bool.and_eq_true, Bool.not_eq_true'] at hs
  rw [await, hs.1.1, hs.1.2, hs.2]
  rfl

/-- What the data register gives when there is nothing to wait for. -/
def delivered (s : Session κ) : Word × Session κ :=
  if s.terminal.ready then
    (Word.ofByte s.terminal.buffer, { s with terminal := { s.terminal with ready := false } })
  else (noCharacter, s)

/-- A session that has nothing to wait for delivers at once. -/
theorem await_eq_delivered {s : Session κ} (hs : s.isWaiting = false) (name : Text)
    (tries : Nat) : s.await name tries = .ok s.delivered := by
  unfold await delivered
  split
  · rfl
  · split
    · rfl
    · split
      · rfl
      · simp_all [isWaiting]

theorem await_of_not_waiting {s s' : Session κ} {name : Text} {tries : Nat} {w : Word}
    (hs : s.isWaiting = false) (h : s.await name tries = .ok (w, s')) : s'.stop = s.stop := by
  rw [await_eq_delivered hs, delivered] at h
  split at h
  · cases h
    rfl
  · cases h
    rfl

/-- Waiting for a character stops the processor exactly if one of its looks at the console finds an
interruption. The induction is on the number of looks. -/
theorem await_after {name : Text} {tries : Nat} {s s' : Session κ} {w : Word}
    (h : s.await name tries = .ok (w, s')) :
    StopCode.After (Interrupts s.terminal.attached (s.waitingLooks name tries)) s.stop s'.stop := by
  -- One look and the rest of them compose, because no look attaches or detaches the terminal.
  induction tries generalizing s with
  | zero =>
    cases hs : s.isWaiting with
    | true =>
      rw [await_zero_of_waiting hs] at h
      cases h
    | false => exact .inr ⟨interrupts_nil _, await_of_not_waiting hs h⟩
  | succ tries ih =>
    cases hs : s.isWaiting with
    | true =>
      rw [await_of_waiting hs] at h
      have hrest := ih h
      rw [s.poll_attached] at hrest
      rw [waitingLooks, if_pos hs, interrupts_cons]
      exact (s.poll_after name pollTimeout).trans hrest
    | false =>
      rw [waitingLooks, hs]
      exact .inr ⟨interrupts_nil _, await_of_not_waiting hs h⟩

/-- Reading a register stops the processor exactly if one of its looks finds an interruption. -/
theorem readRegister_after {name : Text} {address : Word} {s s' : Session κ} {w : Word}
    (h : s.readRegister name address = .ok (w, s')) :
    StopCode.After (Interrupts s.terminal.attached (s.looks name address)) s.stop s'.stop := by
  simp only [readRegister] at h
  unfold looks
  split at h
  · cases h
  · split at h
    · rename_i hk
      rw [if_pos hk]
      cases h
      exact s.poll_after name 0
    · rename_i hk
      rw [if_neg hk]
      split at h
      · rename_i hd
        rw [if_pos hd]
        exact await_after h
      · rename_i hd
        rw [if_neg hd]
        have hs : s' = s := by
          split at h
          · cases h
            rfl
          · cases h
            rfl
        exact .inr ⟨interrupts_nil _, by rw [hs]⟩

end Session

end Terminal

/-! ## Interrupted reads -/

/-- Reading the device at an address finds an interruption that stops the processor: the device is
a terminal attached to it, and one of its looks at the console meanwhile finds the interruption. -/
def Device.Interrupts (d : Device) (a : Word) (stop : StopCode) (host : Host κ) : Prop :=
  ∃ t, d.kind = .terminal t ∧
    Terminal.Interrupts t.attached (Terminal.Session.looks d.name a ⟨t, stop, host⟩)

theorem Device.interrupts_terminal {d : Device} {t : Terminal} (hk : d.kind = .terminal t)
    (a : Word) (stop : StopCode) (host : Host κ) :
    d.Interrupts a stop host ↔
      Terminal.Interrupts t.attached (Terminal.Session.looks d.name a ⟨t, stop, host⟩) := by
  constructor
  · rintro ⟨t', ht', hi⟩
    rw [hk] at ht'
    cases ht'
    exact hi
  · intro hi
    exact ⟨t, hk, hi⟩

theorem Device.not_interrupts {d : Device} (hk : ∀ t, d.kind ≠ .terminal t) (a : Word)
    (stop : StopCode) (host : Host κ) : ¬ d.Interrupts a stop host := by
  rintro ⟨t, ht, -⟩
  exact hk t ht

/-- Nothing but a terminal can stop the processor while it is read. -/
theorem Device.read_after {d d' : Device} {a w : Word} {stop stop' : StopCode}
    {host host' : Host κ} (h : d.read a stop host = .ok (w, d', stop', host')) :
    StopCode.After (d.Interrupts a stop host) stop stop' := by
  unfold read at h
  split at h
  · rename_i hk
    cases h
    exact .inr ⟨d.not_interrupts (by simp [hk]) a stop host, rfl⟩
  · rename_i last hk
    cases h
    exact .inr ⟨d.not_interrupts (by simp [hk]) a stop host, rfl⟩
  · rename_i t hk
    split at h
    · rename_i hs
      cases h
      have hafter := Terminal.Session.readRegister_after hs
      exact hafter.congr (interrupts_terminal hk a stop host).symm
    · cases h

namespace Machine

def InterruptedAt (m : Machine κ) (a : Word) : Prop :=
  m.memory.io.get a = true ∧ ∃ d device, m.map.owner? a = some d ∧ m.device? d = some device ∧
    device.Interrupts a m.cpu.stop m.host

theorem interruptedAt_of_device {m : Machine κ} {a : Word} {d : DeviceId} {device : Device}
    (hio : m.memory.io.get a = true) (hd : m.map.owner? a = some d)
    (hdev : m.device? d = some device) :
    m.InterruptedAt a ↔ device.Interrupts a m.cpu.stop m.host := by
  constructor
  · rintro ⟨-, e, device', he, hdev', hi⟩
    obtain rfl : d = e := Option.some.inj (hd.symm.trans he)
    obtain rfl : device = device' := Option.some.inj (hdev.symm.trans hdev')
    exact hi
  · intro hi
    exact ⟨hio, d, device, hd, hdev, hi⟩

/-- A load stops the machine exactly if the device at its address is interrupted. -/
theorem load_after {m m' : Machine κ} {a w : Word} (h : load a m = .ok (w, m')) :
    StopCode.After (m.InterruptedAt a) m.cpu.stop m'.cpu.stop := by
  cases load_inv h with
  | device hio howner hold hread =>
    exact (Device.read_after hread).congr (interruptedAt_of_device hio howner hold).symm
  | unowned _ howner =>
    refine .inr ⟨?_, rfl⟩
    rintro ⟨-, d, device, howner', -⟩
    cases howner.symm.trans howner'
  | memory hio => exact .inr ⟨fun hi => Bool.false_ne_true (hio.symm.trans hi.1), rfl⟩

end Machine

/-! ## Interrupted routines -/

namespace Operation

variable {β : Type}

def loaded? : {β : Type} → Operation β → Option Word
  | _, load a => some a
  | _, _ => none

/-- The operation is a read that finds an interruption. -/
def Interrupted (o : Operation β) (m : Machine κ) : Prop :=
  ∃ a, o.loaded? = some a ∧ m.InterruptedAt a

theorem interrupted_load (a : Word) (m : Machine κ) :
    (load a).Interrupted m ↔ m.InterruptedAt a := by
  constructor
  · rintro ⟨b, hb, hi⟩
    cases hb
    exact hi
  · intro hi
    exact ⟨a, rfl, hi⟩

theorem not_interrupted {o : Operation β} (ho : o.loaded? = none) (m : Machine κ) :
    ¬ o.Interrupted m := by
  rintro ⟨a, ha, -⟩
  rw [ho] at ha
  cases ha

/-- The stop code after an operation that stops with a code of `S` if at all. -/
theorem Changes.stop {S : StopCode → Prop} {o : Operation β}
    (ho : o.Changes fun c c' => c'.stop = c.stop ∨ S c'.stop) {m m' : Machine κ} {b : β}
    (h : o.run m = .ok (b, m')) :
    (m'.cpu.stop = .interrupted ∧ o.Interrupted m) ∨
      ((m'.cpu.stop = m.cpu.stop ∨ S m'.cpu.stop) ∧ ¬ o.Interrupted m) := by
  cases o with
  | load a =>
    rw [interrupted_load]
    rcases Machine.load_after h with ⟨hi, hc⟩ | ⟨hi, hc⟩
    · exact .inl ⟨hc, hi⟩
    · exact .inr ⟨.inl hc, hi⟩
  | store a w => exact .inr ⟨.inl (by rw [(Machine.store_stored h).cpu]), not_interrupted rfl m⟩
  | change f =>
    cases h
    exact .inr ⟨ho m.cpu, not_interrupted rfl m⟩
  | look | warn | trace =>
    cases h
    exact .inr ⟨.inl rfl, not_interrupted rfl m⟩

end Operation

namespace Routine

variable {α : Type}

/-- Carrying out the routine on `m` comes to a read of `a` when the machine is `m'`. -/
def Loads : Routine α → Machine κ → Word → Machine κ → Prop
  | done _, _, _, _ => False
  | act o next, m, a, m' =>
    (o.loaded? = some a ∧ m' = m) ∨ ∃ b m₁, o.run m = .ok (b, m₁) ∧ (next b).Loads m₁ a m'

theorem Loads.bind {β : Type} {r : Routine β} {f : β → Routine α} {m m' : Machine κ} {a : Word}
    (h : r.Loads m a m') : (r >>= f).Loads m a m' := by
  change (r.bind f).Loads m a m'
  induction r generalizing m with
  | done b => exact h.elim
  | act o next ih =>
    rcases h with ⟨ha, rfl⟩ | ⟨b, m₁, ho, hl⟩
    · exact .inl ⟨ha, rfl⟩
    · exact .inr ⟨b, m₁, ho, ih b hl⟩

theorem Loads.bind_of_run {β : Type} {r : Routine β} {f : β → Routine α} {m m₁ m' : Machine κ}
    {b : β} {a : Word} (hr : r.run m = .ok (b, m₁)) (h : (f b).Loads m₁ a m') :
    (r >>= f).Loads m a m' := by
  change (r.bind f).Loads m a m'
  induction r generalizing m with
  | done c =>
    cases hr
    exact h
  | act o next ih =>
    obtain ⟨c, m₂, ho, hn⟩ := run_act_eq_ok.mp hr
    exact .inr ⟨c, m₂, ho, ih c hn⟩

/-- A terminal attached to the processor takes notice of an interruption by the operator while the
routine is carried out. -/
def TakesBreak (r : Routine α) (m : Machine κ) : Prop :=
  ∃ a m', r.Loads m a m' ∧ m'.InterruptedAt a

theorem takesBreak_done (a : α) (m : Machine κ) : ¬ (done a).TakesBreak m := by
  rintro ⟨b, m', hl, -⟩
  exact hl

/-- A routine is interrupted in its first operation or in the rest of it. -/
theorem takesBreak_act {β : Type} {o : Operation β} {next : β → Routine α} {m m₁ : Machine κ}
    {b : β} (ho : o.run m = .ok (b, m₁)) :
    (act o next).TakesBreak m ↔
      o.Interrupted m ∨ (next b).TakesBreak m₁ := by
  constructor
  · rintro ⟨a, m', ⟨ha, rfl⟩ | ⟨b', m₂, ho', hl⟩, hi⟩
    · exact .inl ⟨a, ha, hi⟩
    · obtain ⟨rfl, rfl⟩ : b = b' ∧ m₁ = m₂ := by simpa [ho] using ho'
      exact .inr ⟨a, m', hl, hi⟩
  · rintro (⟨a, ha, hi⟩ | ⟨a, m', hl, hi⟩)
    · exact ⟨a, m, .inl ⟨ha, rfl⟩, hi⟩
    · exact ⟨a, m', .inr ⟨b, m₁, ho, hl⟩, hi⟩

variable {S : StopCode → Prop} {r : Routine α} {m m' : Machine κ} {a : α}

/-- A routine that stops with a code of `S` if at all leaves the stop code it found, one of `S`, or
an interruption that one of its reads found. -/
theorem All.stop (hr : r.All (Operation.Changes fun c c' => c'.stop = c.stop ∨ S c'.stop))
    (h : r.run m = .ok (a, m')) :
    m'.cpu.stop = m.cpu.stop ∨ S m'.cpu.stop ∨
      (m'.cpu.stop = .interrupted ∧ r.TakesBreak m) := by
  induction r generalizing m with
  | done a =>
    cases h
    exact .inl rfl
  | act o next ih =>
    obtain ⟨b, m₁, ho, hn⟩ := run_act_eq_ok.mp h
    rw [takesBreak_act ho]
    rcases ih b (hr.2 b) hn with hc | hS | ⟨hc, ht⟩
    · rcases hr.1.stop ho with ⟨hc₁, hi⟩ | ⟨hc₁ | hS, -⟩
      · exact .inr (.inr ⟨hc.trans hc₁, .inl hi⟩)
      · exact .inl (hc.trans hc₁)
      · exact .inr (.inl (hc ▸ hS))
    · exact .inr (.inl hS)
    · exact .inr (.inr ⟨hc, .inr ht⟩)

/-- Once a machine was stopped, before a routine or by an interruption during it, the routine leaves
it stopped. -/
theorem All.stopped (hr : r.All (Operation.Changes fun c c' => c'.stop = c.stop ∨ S c'.stop))
    (hS : ¬ S .running) (h : r.run m = .ok (a, m'))
    (hm : m.cpu.stop ≠ .running ∨ r.TakesBreak m) : m'.cpu.stop ≠ .running := by
  -- The invariant is `hm` as it stands: stopped by now, or still to be interrupted.
  induction r generalizing m with
  | done a =>
    cases h
    exact hm.resolve_right (takesBreak_done a _)
  | act o next ih =>
    obtain ⟨b, m₁, ho, hn⟩ := run_act_eq_ok.mp h
    rw [takesBreak_act ho] at hm
    refine ih b (hr.2 b) hn ?_
    rcases hr.1.stop ho with ⟨hc, -⟩ | ⟨hc, hi⟩
    · exact .inl (by simp [hc])
    · rcases hm with hm | hi' | ht
      · refine .inl fun hrun => ?_
        rcases hc with hc | hc
        · exact hm (hc ▸ hrun)
        · exact hS (hrun ▸ hc)
      · exact absurd hi' hi
      · exact .inr ht

end Routine

end LittleComputer
