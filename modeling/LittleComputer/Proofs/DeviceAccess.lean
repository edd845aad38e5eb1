import LittleComputer.Proofs.Interruption

/-!
# What devices do to the host

When a register is read, the only thing that can happen to the host is that a terminal looks at its
console: it asks for an interruption and for a key, and it reports the end of the input. So a
relation between hosts that allows these three holds for every read. When a register is written,
the only thing that can happen is that a terminal writes one byte to its console.
-/

namespace LittleComputer

variable {κ : Type} [Console κ]

open Terminal (Session displayData)

/-! ## Reads -/

/-- The relation holds between hosts if no more happens from one to the other than looks at the
console. -/
structure Host.KeptByReads (R : Host κ → Host κ → Prop) : Prop where
  refl (h : Host κ) : R h h
  trans {h h₁ h' : Host κ} : R h h₁ → R h₁ h' → R h h'
  takeBreak (h : Host κ) : R h { h with console := (Console.takeBreak h.console).2 }
  read (h : Host κ) (timeout : Nat) :
    R h { h with console := (Console.read h.console timeout).2 }
  ended (h : Host κ) (name : Text) : R h (h.report .debug ("end of file on " ++ name))

namespace Host.KeptByReads

variable {R : Host κ → Host κ → Prop} (hR : KeptByReads R) {name : Text}

include hR

theorem receive (timeout : Nat) (s : Session κ) : R s.host (s.receive name timeout).host := by
  have hread := hR.read s.host timeout
  unfold Session.receive
  dsimp only
  split
  · exact hread
  · exact hread
  · exact hR.trans hread (hR.ended _ name)

theorem poll (timeout : Nat) (s : Session κ) : R s.host (s.poll name timeout).host := by
  have hnotice : R s.host s.noticeBreak.host := hR.takeBreak s.host
  unfold Session.poll
  dsimp only
  split
  · exact hnotice
  · exact hR.trans hnotice (hR.receive timeout s.noticeBreak)

theorem delivered (s : Session κ) : R s.host s.delivered.2.host := by
  unfold Session.delivered
  split
  · exact hR.refl s.host
  · exact hR.refl s.host

theorem await {tries : Nat} {s s' : Session κ} {w : Word}
    (h : s.await name tries = .ok (w, s')) : R s.host s'.host := by
  have hdelivered {s : Session κ} {tries : Nat} (hs : s.isWaiting = false)
      (h : s.await name tries = .ok (w, s')) : R s.host s'.host := by
    rw [Session.await_eq_delivered hs] at h
    obtain rfl : s.delivered.2 = s' := congrArg Prod.snd (Except.ok.inj h)
    exact hR.delivered s
  induction tries generalizing s with
  | zero =>
    cases hs : s.isWaiting with
    | true =>
      rw [Session.await_zero_of_waiting hs] at h
      cases h
    | false => exact hdelivered hs h
  | succ tries ih =>
    cases hs : s.isWaiting with
    | true =>
      rw [Session.await_of_waiting hs] at h
      exact hR.trans (hR.poll Terminal.pollTimeout s) (ih h)
    | false => exact hdelivered hs h

theorem readRegister {a : Word} {s s' : Session κ} {w : Word}
    (h : s.readRegister name a = .ok (w, s')) : R s.host s'.host := by
  simp only [Session.readRegister] at h
  split at h
  · cases h
  · split at h
    · cases h
      exact hR.poll 0 s
    · split at h
      · exact hR.await h
      · split at h
        all_goals
          cases h
          exact hR.refl s.host

/-- Every relation that the parts of a read keep holds over the read of a whole device. -/
theorem deviceRead {d d' : Device} {a w : Word} {stop stop' : StopCode} {host host' : Host κ}
    (h : d.read a stop host = .ok (w, d', stop', host')) : R host host' := by
  unfold Device.read at h
  split at h
  · cases h
    exact hR.refl host
  · cases h
    exact hR.refl host
  · split at h
    · rename_i hs
      cases h
      exact hR.readRegister hs
    · cases h

theorem load {m m' : Machine κ} {a w : Word} (h : Machine.load a m = .ok (w, m')) :
    R m.host m'.host := by
  cases Machine.load_inv h with
  | device _ _ _ hread => exact hR.deviceRead hread
  | unowned | memory => exact hR.refl m.host

end Host.KeptByReads

/-! ## Writes -/

namespace Device

variable {d d' : Device} {a v : Word} {host host' : Host κ}

/-- The host after a word was written to the display. -/
def shownOn (v : Word) (host : Host κ) : Host κ :=
  { host with console := Console.write host.console [Word.lowByte v] }

/-- The one write that reaches the host is a write to the display data register. -/
theorem write_host (h : d.write a v host = .ok (d', host')) :
    host' = host ∨ a = displayData ∧ host' = shownOn v host := by
  unfold write at h
  split at h
  · cases h
    exact .inl rfl
  · cases h
    exact .inl rfl
  · simp only [Session.writeRegister] at h
    by_cases hlow : a < Terminal.keyboardStatus
    · rw [if_pos hlow] at h
      cases h
    · rw [if_neg hlow] at h
      by_cases ha : a = displayData
      · rw [if_pos ha] at h
        cases h
        exact .inr ⟨ha, rfl⟩
      · rw [if_neg ha] at h
        cases h
        exact .inl rfl

theorem write_display {t : Terminal} (hterminal : d.kind = .terminal t) (v : Word)
    (host : Host κ) : d.write displayData v host = .ok (d, shownOn v host) := by
  rw [write, hterminal]
  rfl

end Device

end LittleComputer
