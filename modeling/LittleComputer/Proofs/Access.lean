import LittleComputer.Machine

/-!
# What an access leaves alone

The processor reads and writes words, and either access may reach a device. A device can change
itself, the host and, when it is read, the stop code. The memory, the map and the blocks of the
devices stay as they are, except for the one word that a store puts into ordinary memory.
-/

namespace LittleComputer

variable {κ : Type}

namespace Device

/-- The address lies in the block of the device. -/
def Covers (d : Device) (a : Word) : Prop :=
  d.base.toNat ≤ a.toNat ∧ a.toNat < d.base.toNat + d.count.toNat

instance (d : Device) (a : Word) : Decidable (d.Covers a) := inferInstanceAs (Decidable (_ ∧ _))

def SameBlock (d e : Device) : Prop := e.base = d.base ∧ e.count = d.count

/-- Reading a device never moves it, whatever state the read leaves it in. -/
theorem read_sameBlock [Console κ] {d d' : Device} {a w : Word} {stop stop' : StopCode}
    {host host' : Host κ} (h : d.read a stop host = .ok (w, d', stop', host')) :
    d.SameBlock d' := by
  unfold read at h
  split at h
  · cases h
    exact ⟨rfl, rfl⟩
  · cases h
    exact ⟨rfl, rfl⟩
  · split at h
    · cases h
      exact ⟨rfl, rfl⟩
    · cases h

theorem write_sameBlock [Console κ] {d d' : Device} {a v : Word} {host host' : Host κ}
    (h : d.write a v host = .ok (d', host')) : d.SameBlock d' := by
  unfold write at h
  split at h
  · cases h
    exact ⟨rfl, rfl⟩
  · cases h
    exact ⟨rfl, rfl⟩
  · split at h
    · cases h
      exact ⟨rfl, rfl⟩
    · cases h

end Device

namespace Machine

theorem action_bind {α β : Type} (x : Action κ α) (f : α → Action κ β) (m : Machine κ) :
    (x >>= f) m =
      match x m with
      | .error e => .error e
      | .ok (a, m₁) => f a m₁ := by
  simp only [bind, StateT.bind, Except.bind]
  cases x m with
  | error e => rfl
  | ok x => rfl

theorem get_bind {α : Type} (f : Machine κ → Action κ α) (m : Machine κ) :
    (get >>= f : Action κ α) m = f m m := rfl

theorem modify_bind {α : Type} (g : Machine κ → Machine κ) (f : PUnit → Action κ α)
    (m : Machine κ) : (modify g >>= f : Action κ α) m = f ⟨⟩ (g m) := rfl

/-! ## The devices of a machine -/

theorem device?_setDevice (m : Machine κ) (d e : DeviceId) (device : Device) :
    (m.setDevice d device).device? e =
      if e = d then (m.device? d).map fun _ => device else m.device? e := by
  simp only [device?, setDevice]
  -- Several entries can have one number. All of them are replaced, and the first one is found.
  induction m.devices with
  | nil => simp
  | cons entry rest ih =>
    obtain ⟨i, old⟩ := entry
    by_cases hi : i = d
    · subst hi
      by_cases he : e = i
      · subst he
        simp
      · have hb : (e == i) = false := by simpa using he
        simp only [List.map_cons, ↓reduceIte, List.lookup_cons, hb, he] at ih ⊢
        exact ih
    · by_cases he : e = i
      · subst he
        simp [hi]
      · have hb : (e == i) = false := by simpa using he
        have hd : (d == i) = false := by simpa using Ne.symm hi
        simp only [List.map_cons, if_neg hi, List.lookup_cons, hb, hd] at ih ⊢
        exact ih

theorem device?_addDevice (m : Machine κ) (d e : DeviceId) (device : Device) :
    (m.addDevice d device).device? e = if e = d then some device else m.device? e := by
  have hrest (rest : List (DeviceId × Device)) (he : e ≠ d) :
      (rest.filter (·.1 ≠ d)).lookup e = rest.lookup e := by
    induction rest with
    | nil => rfl
    | cons entry rest ih =>
      rw [List.filter_cons, List.lookup_cons]
      split
      · rw [List.lookup_cons, ih]
      · rename_i hd
        have hentry : entry.1 = d := by simpa using hd
        have hne : (e == entry.1) = false := by simpa [hentry] using he
        rw [ih, hne]
  rw [device?, addDevice, List.lookup_cons]
  by_cases he : e = d
  · simp [he]
  · have hne : (e == d) = false := by simpa using he
    rw [hne, if_neg he]
    exact hrest m.devices he

theorem device?_setDevice_same {m : Machine κ} {e : DeviceId} {device : Device}
    (h : m.device? e = some device) (d : DeviceId) :
    (m.setDevice e device).device? d = m.device? d := by
  rw [device?_setDevice]
  split
  · rename_i hd
    rw [hd, h]
    rfl
  · rfl

/-- Every device of `m` is in `m'`, with the same block. -/
def KeepsBlocks (m m' : Machine κ) : Prop :=
  ∀ d device, m.device? d = some device →
    ∃ device', m'.device? d = some device' ∧ device.SameBlock device'

theorem device?_of_devices {m m' : Machine κ} (h : m'.devices = m.devices) (d : DeviceId) :
    m'.device? d = m.device? d := by
  rw [device?, h]
  rfl

theorem keepsBlocks_of_devices {m m' : Machine κ} (h : m'.devices = m.devices) :
    m.KeepsBlocks m' := by
  intro d device hd
  exact ⟨device, (device?_of_devices h d).trans hd, rfl, rfl⟩

theorem keepsBlocks_setDevice {m : Machine κ} {d : DeviceId} {old new : Device}
    (h : m.device? d = some old) (hb : old.SameBlock new) : m.KeepsBlocks (m.setDevice d new) := by
  intro e device he
  rw [device?_setDevice]
  by_cases hed : e = d
  · subst hed
    obtain rfl : old = device := Option.some.inj (h.symm.trans he)
    exact ⟨new, by simp [h], hb⟩
  · exact ⟨device, by rw [if_neg hed, he], rfl, rfl⟩

/-! ## Accesses -/

/-- What a read leaves alone. -/
structure Untouched (m m' : Machine κ) : Prop where
  memory : m'.memory = m.memory
  map : m'.map = m.map
  cpu : m'.cpu = { m.cpu with stop := m'.cpu.stop }
  blocks : m.KeepsBlocks m'

theorem Untouched.refl (m : Machine κ) : m.Untouched m :=
  ⟨rfl, rfl, rfl, keepsBlocks_of_devices rfl⟩

/-- There is ordinary memory at an address, and no device in front of it. -/
def isPlain (m : Machine κ) (a : Word) : Bool := m.memory.ram.get a && !m.memory.io.get a

/-- What a write of `v` at `a` changes. -/
structure Stored (m : Machine κ) (a v : Word) (m' : Machine κ) : Prop where
  cpu : m'.cpu = m.cpu
  map : m'.map = m.map
  blocks : m.KeepsBlocks m'
  memory : m'.memory = { m.memory with
    words := if m.isPlain a then m.memory.words.set a v else m.memory.words }

variable [Console κ]

/-- Where a word comes from that is read at an address, and what reading it changes. -/
inductive Reads (m : Machine κ) (a : Word) : Word → Machine κ → Prop where
  | device {d : DeviceId} {old new : Device} {w : Word} {stop : StopCode} {host : Host κ}
      (hio : m.memory.io.get a = true) (howner : m.map.owner? a = some d)
      (hold : m.device? d = some old)
      (hread : old.read a m.cpu.stop m.host = .ok (w, new, stop, host)) :
      Reads m a w ({ m with cpu := { m.cpu with stop }, host }.setDevice d new)
  | unowned (hio : m.memory.io.get a = true) (howner : m.map.owner? a = none) :
      Reads m a Word.allOnes m
  | memory (hio : m.memory.io.get a = false) :
      Reads m a (if m.memory.ram.get a then m.memory.words.get a else Word.allOnes) m

/-- A load that succeeds is one of the cases of `Reads`: memory, a device, or nothing behind the
address. -/
theorem load_inv {m m' : Machine κ} {a w : Word} (h : load a m = .ok (w, m')) :
    m.Reads a w m' := by
  unfold load at h
  split at h
  · split at h
    · rename_i hio
      unfold readMapped at h
      split at h
      · rename_i howner
        unfold readDevice at h
        split at h
        · cases h
        · rename_i hold
          split at h
          · cases h
          · rename_i hread
            cases h
            exact .device hio howner hold hread
      · rename_i howner
        cases h
        exact .unowned hio howner
    · rename_i hio
      cases h
      exact .memory (Bool.of_not_eq_true hio)
  · cases h

/-- Where a word goes that is written at an address. -/
inductive Writes (m : Machine κ) (a v : Word) : Machine κ → Prop where
  | device {d : DeviceId} {old new : Device} {host : Host κ}
      (hio : m.memory.io.get a = true) (howner : m.map.owner? a = some d)
      (hold : m.device? d = some old) (hwrite : old.write a v m.host = .ok (new, host)) :
      Writes m a v ({ m with host }.setDevice d new)
  | unowned (hio : m.memory.io.get a = true) (howner : m.map.owner? a = none) : Writes m a v m
  | memory (hplain : m.isPlain a = true) :
      Writes m a v { m with memory := { m.memory with words := m.memory.words.set a v } }
  | nowhere (hio : m.memory.io.get a = false) (hram : m.memory.ram.get a = false) :
      Writes m a v { m with
        host := m.host.reportFormatted .warning
          ("write to nonexistent memory at " ++ Text.address a) }

/-- A store that succeeds is one of the cases of `Writes`. -/
theorem store_inv {m m' : Machine κ} {a v : Word} (h : store a v m = .ok ((), m')) :
    m.Writes a v m' := by
  unfold store at h
  split at h
  · split at h
    · rename_i hio
      unfold writeMapped at h
      split at h
      · rename_i howner
        unfold writeDevice at h
        split at h
        · cases h
        · rename_i hold
          split at h
          · cases h
          · rename_i hwrite
            cases h
            exact .device hio howner hold hwrite
      · rename_i howner
        cases h
        exact .unowned hio howner
    · rename_i hio
      split at h
      · rename_i hram
        cases h
        exact .memory (by simp [isPlain, hio, hram])
      · rename_i hram
        cases h
        exact .nowhere (Bool.of_not_eq_true hio) (Bool.of_not_eq_true hram)
  · cases h

/-- A read never changes the memory, whether it reaches a device or not. -/
theorem load_untouched {m m' : Machine κ} {a w : Word} (h : load a m = .ok (w, m')) :
    m.Untouched m' := by
  cases load_inv h with
  | device _ _ hold hread =>
    exact ⟨rfl, rfl, rfl, keepsBlocks_setDevice hold (Device.read_sameBlock hread)⟩
  | unowned | memory => exact .refl m

/-- A write changes at most the word at its own address, and that only in ordinary memory. -/
theorem store_stored {m m' : Machine κ} {a v : Word} (h : store a v m = .ok ((), m')) :
    m.Stored a v m' := by
  cases store_inv h with
  | device hio _ hold hwrite =>
    exact ⟨rfl, rfl, keepsBlocks_setDevice hold (Device.write_sameBlock hwrite),
      by simp [isPlain, hio, setDevice]⟩
  | unowned hio => exact ⟨rfl, rfl, keepsBlocks_of_devices rfl, by simp [isPlain, hio]⟩
  | memory hplain => exact ⟨rfl, rfl, keepsBlocks_of_devices rfl, by simp [hplain]⟩
  | nowhere _ hram => exact ⟨rfl, rfl, keepsBlocks_of_devices rfl, by simp [isPlain, hram]⟩

end Machine

end LittleComputer
