import LittleComputer.Image
import LittleComputer.Proofs.Access
import LittleComputer.Proofs.Sample

/-!
# Marks and the map of devices

Which device answers at an address is written down twice: the map tells the device, and a mark of
the memory tells that there is one. Installing and removing devices changes both, and making memory
ordinary or nonexistent changes only the marks. The two agree in so far as a marked address always
has a device, and every device has all of its block or nothing.
-/

namespace LittleComputer

/-! ## The map -/

namespace DeviceMap

/-- A block that does not wrap around is the range of its addresses. -/
theorem mem_block {first count a : Word} (hfit : first.toNat + count.toNat ≤ 65536) :
    a ∈ block first count ↔ first.toNat ≤ a.toNat ∧ a.toNat < first.toNat + count.toNat := by
  rw [block, List.mem_map]
  constructor
  · rintro ⟨i, hi, rfl⟩
    have hlt := List.mem_range.mp hi
    rw [BitVec.toNat_add, BitVec.toNat_ofNat, Nat.mod_eq_of_lt (show i < 2 ^ 16 by omega),
      Nat.mod_eq_of_lt (by omega)]
    omega
  · rintro ⟨hlow, hhigh⟩
    refine ⟨a.toNat - first.toNat, List.mem_range.mpr (by omega), ?_⟩
    apply BitVec.eq_of_toNat_eq
    have ha := a.isLt
    rw [BitVec.toNat_add, BitVec.toNat_ofNat, Nat.mod_eq_of_lt (show _ < 2 ^ 16 by omega),
      Nat.mod_eq_of_lt (by omega)]
    omega

theorem owner?_assign (d : DeviceId) (m : DeviceMap) (a b : Word) :
    (m.assign d a).owner? b = if a = b then some d else m.owner? b :=
  Table.get_set _ _ _ _

theorem owner?_foldl_assign (d : DeviceId) (addresses : List Word) (m : DeviceMap) (b : Word) :
    (addresses.foldl (assign d) m).owner? b =
      if b ∈ addresses then some d else m.owner? b := by
  induction addresses generalizing m with
  | nil => rfl
  | cons a rest ih =>
    rw [List.foldl_cons, ih, owner?_assign]
    by_cases hrest : b ∈ rest
    · rw [if_pos hrest, if_pos (List.mem_cons_of_mem a hrest)]
    · by_cases hab : a = b
      · rw [if_neg hrest, if_pos hab, if_pos (by rw [hab]; exact List.mem_cons_self)]
      · rw [if_neg hrest, if_neg hab, if_neg]
        intro hmem
        rcases List.mem_cons.mp hmem with hb | hb
        · exact hab hb.symm
        · exact hrest hb

theorem isTaken_eq_false {m : DeviceMap} {first count : Word} (h : m.isTaken first count = false) :
    ∀ a ∈ block first count, m.owner? a = none := by
  intro a ha
  rw [isTaken, List.any_eq_false] at h
  exact Option.not_isSome_iff_eq_none.mp (h a ha)

/-- A block is given only if it is not empty and all of it was free, and then nothing else changes
hands. -/
theorem install_inv {m m' : DeviceMap} {d : DeviceId} {first count : Word}
    (h : m.install d first count = .ok (true, m')) :
    count ≠ 0 ∧ (∀ a ∈ block first count, m.owner? a = none) ∧
      ∀ a, m'.owner? a = if a ∈ block first count then some d else m.owner? a := by
  unfold install at h
  split at h
  · cases h
  · rename_i hcount
    split at h
    · cases h
    · rename_i htaken
      cases h
      exact ⟨hcount, isTaken_eq_false (Bool.eq_false_iff.mpr htaken),
        owner?_foldl_assign d (block first count) m⟩

theorem owner?_remove (m : DeviceMap) (d : DeviceId) (a : Word) :
    (m.remove d).2.owner? a = if m.owner? a = some d then none else m.owner? a :=
  Table.get_map _ _ _

/-- The lowest address of a device is one of its own, and the least of them. -/
theorem lowest?_inv {m : DeviceMap} {d : DeviceId} {first : Word} (h : m.lowest? d = some first) :
    m.owner? first = some d ∧ ∀ a, m.owner? a = some d → first.toNat ≤ a.toNat := by
  rw [lowest?, Option.map_eq_some_iff] at h
  obtain ⟨i, hi, rfl⟩ := h
  obtain ⟨hfirst, hp, hmin⟩ := Table.get_of_first? hi
  refine ⟨of_decide_eq_true hp, ?_⟩
  intro a ha
  rw [hfirst]
  apply Nat.le_of_not_lt
  intro hai
  exact of_decide_eq_false (hmin a hai) ha

theorem lowest?_none {m : DeviceMap} {d : DeviceId} (h : m.lowest? d = none) (a : Word) :
    m.owner? a ≠ some d :=
  of_decide_eq_false (Table.get_of_first?_none (Option.map_eq_none_iff.mp h) a)

end DeviceMap

/-! ## Marks -/

namespace Memory

theorem new_size {size : Nat} {m : Memory} (h : Memory.new? size = .ok m) :
    m.size = size := by
  unfold new? at h
  split at h
  · cases h
    rfl
  · cases h

theorem new_io {size : Nat} {m : Memory} (h : new? size = .ok m) (a : Word) :
    m.io.get a = false := by
  unfold new? at h
  split at h
  · cases h
    exact Table.get_fill false a
  · cases h

theorem isIo_iff {m : Memory} {a : Word} :
    m.isIo a = .ok true ↔ m.isValid a = true ∧ m.io.get a = true := by
  unfold isIo check
  cases m.isValid a with
  | false =>
    constructor
    · intro h
      cases h
    · rintro ⟨h, -⟩
      cases h
  | true =>
    constructor
    · intro h
      exact ⟨rfl, Except.ok.inj h⟩
    · rintro ⟨-, h⟩
      exact congrArg Except.ok h

theorem guarded_inv {c : Except Fault Unit} {m m' : Memory}
    (h : (do c; return m : Except Fault Memory) = .ok m') : c = .ok () ∧ m' = m := by
  cases c with
  | error e => cases h
  | ok u =>
    cases h
    exact ⟨rfl, rfl⟩

theorem checkRange_inv {m : Memory} {first last : Word} (h : m.checkRange first last = .ok ()) :
    m.isValid last = true ∧ first ≤ last := by
  unfold checkRange at h
  split at h
  · rename_i hc
    simp only [Bool.and_eq_true, decide_eq_true_eq] at hc
    exact ⟨hc.1.2, hc.2⟩
  · cases h

/-- Marking fails on everything but a range of addresses that exist. -/
theorem setIo_inv {m m' : Memory} {first last : Word} {on : Bool}
    (h : m.setIo first last on = .ok m') :
    m.isValid last = true ∧ first ≤ last ∧ m' = { m with io := m.io.fillRange first last on } := by
  obtain ⟨hc, hm'⟩ := guarded_inv h
  exact ⟨(checkRange_inv hc).1, (checkRange_inv hc).2, hm'⟩

theorem setRam_inv {m m' : Memory} {first last : Word} (h : m.setRam first last = .ok m') :
    m'.size = m.size ∧ m'.io = m.io.fillRange first last false := by
  obtain ⟨-, rfl⟩ := guarded_inv h
  exact ⟨rfl, rfl⟩

theorem setNonexistent_inv {m m' : Memory} {first last : Word}
    (h : m.setNonexistent first last = .ok m') :
    m'.size = m.size ∧ m'.io = m.io.fillRange first last false := by
  obtain ⟨-, rfl⟩ := guarded_inv h
  exact ⟨rfl, rfl⟩

end Memory

/-! ## Requests -/

/-- What can be asked of a memory and its devices. -/
inductive Request where
  | setRam (first last : Word)
  | setNonexistent (first last : Word)
  | setBreak (a : Word) (on : Bool)
  | clearBreaks
  | clearWords
  | loadImage (name : Text)
  | poke (a w : Word)
  | install (d : DeviceId)
  | remove (d : DeviceId)
  | read (a : Word)
  | write (a w : Word)

namespace Request

/-- The addresses whose marks a request replaces. -/
def Marks : Request → Word → Prop
  | setRam first last, a | setNonexistent first last, a => first ≤ a ∧ a ≤ last
  | _, _ => False

variable {κ : Type}

/-- A request replaces marks in the block of a device that is installed. -/
def Meets (r : Request) (m : Machine κ) : Prop :=
  ∃ d device a b, m.map.owner? b = some d ∧ m.device? d = some device ∧ device.Covers a ∧ r.Marks a

variable [Console κ]

def Does : Request → Machine κ → Machine κ → Prop
  | setRam first last, m, m' =>
    ∃ memory, m.memory.setRam first last = .ok memory ∧ m' = { m with memory }
  | setNonexistent first last, m, m' =>
    ∃ memory, m.memory.setNonexistent first last = .ok memory ∧ m' = { m with memory }
  | setBreak a on, m, m' => ∃ memory, m.memory.setBreak a on = .ok memory ∧ m' = { m with memory }
  | clearBreaks, m, m' => m' = { m with memory := m.memory.clearBreaks }
  | clearWords, m, m' => m' = { m with memory := m.memory.clear }
  | loadImage name, m, m' => ∃ result, Machine.loadImage name m = .ok (result, m')
  | poke a w, m, m' => ∃ memory, m.memory.poke a w = .ok memory ∧ m' = { m with memory }
  | install d, m, m' => ∃ answer, Machine.installDevice d m = .ok (answer, m')
  | remove d, m, m' => ∃ answer, Machine.removeDevice d m = .ok (answer, m')
  | read a, m, m' => ∃ w, Machine.load a m = .ok (w, m')
  | write a w, m, m' => Machine.store a w m = .ok ((), m')

end Request

namespace Machine

variable {κ : Type}

/-- Nothing changes but words, the processor and the host. -/
structure SameMarks (m m' : Machine κ) : Prop where
  memory : m'.memory = { m.memory with words := m'.memory.words }
  map : m'.map = m.map
  devices : m'.devices = m.devices

def KeepsMarks {α : Type} (x : Action κ α) : Prop :=
  ∀ m a m', x m = .ok (a, m') → SameMarks m m'

theorem SameMarks.refl (m : Machine κ) : SameMarks m m := ⟨rfl, rfl, rfl⟩

theorem SameMarks.trans {m₁ m₂ m₃ : Machine κ} (h : SameMarks m₁ m₂) (h' : SameMarks m₂ m₃) :
    SameMarks m₁ m₃ := by
  constructor
  · rw [h'.memory, h.memory]
  · rw [h'.map, h.map]
  · rw [h'.devices, h.devices]

section
variable {α β : Type} {R : Machine κ → Machine κ → Prop}

/-- The machines before and after the action are related by `R`. -/
def Keeps (R : Machine κ → Machine κ → Prop) (x : Action κ α) : Prop :=
  ∀ m a m', x m = .ok (a, m') → R m m'

/-- What two actions keep, one after the other keeps too. -/
theorem Keeps.bind {x : Action κ α} {f : α → Action κ β}
    (htrans : ∀ {m₁ m₂ m₃ : Machine κ}, R m₁ m₂ → R m₂ m₃ → R m₁ m₃) (hx : Keeps R x)
    (hf : ∀ a, Keeps R (f a)) : Keeps R (x >>= f) := by
  intro m b m₂ h
  rw [action_bind] at h
  split at h
  · cases h
  · rename_i a m₁ hxm
    exact htrans (hx m a m₁ hxm) (hf a m₁ b m₂ h)

theorem Keeps.ite {c : Prop} [Decidable c] {x y : Action κ α} (hx : Keeps R x) (hy : Keeps R y) :
    Keeps R (if c then x else y) := by
  split
  · exact hx
  · exact hy

end

/-- A relation between machines that holds wherever nothing happens but that something is reported
or that words are placed. -/
structure Kept [Console κ] (R : Machine κ → Machine κ → Prop) : Prop where
  refl : ∀ m, R m m
  trans : ∀ {m₁ m₂ m₃}, R m₁ m₂ → R m₂ m₃ → R m₁ m₃
  report : ∀ m s text, R m { m with host := m.host.report s text }
  place : ∀ m a words, R m { m with memory := m.memory.place a words }

namespace Kept

variable [Console κ] {R : Machine κ → Machine κ → Prop}

theorem pure {α : Type} (hR : Kept R) (a : α) : Keeps R (Pure.pure a : Action κ α) := by
  intro m b m' h
  cases h
  exact hR.refl m

theorem get (hR : Kept R) : Keeps R (MonadState.get : Action κ (Machine κ)) := by
  intro m a m' h
  cases h
  exact hR.refl m

theorem reported {α : Type} (hR : Kept R) (s : Severity) (text : Text) {x : Action κ α}
    (hx : Keeps R x) : Keeps R (do modifyHost (·.report s text); x) := by
  refine .bind hR.trans (fun m a m' h => ?_) fun _ => hx
  cases h
  exact hR.report m s text

theorem placeImage (hR : Kept R) (name : Text) (image : Image) (failure : Option FileError) :
    Keeps R (placeImage name image failure : Action κ LoadResult) := by
  refine .bind hR.trans hR.get fun m => .bind hR.trans (fun m a m' h => ?_) fun _ => ?_
  · cases h
    exact hR.place m _ _
  · -- The words are placed by now. All that follows is a choice between messages.
    have reported (s : Severity) (text : Text) (a : LoadResult) :
        Keeps R (do modifyHost (·.report s text); return a : Action κ LoadResult) :=
      hR.reported s text (hR.pure a)
    dsimp only
    split
    · refine .bind hR.trans hR.get fun m => hR.reported _ _ ?_
      exact .ite (reported _ _ _) (reported _ _ _)
    · cases failure with
      | some e => exact .ite (hR.reported _ _ (reported _ _ _)) (reported _ _ _)
      | none =>
        refine .ite (hR.reported _ _ ?_) ?_
        · exact .ite (reported _ _ _) (reported _ _ _)
        · exact .ite (reported _ _ _) (reported _ _ _)

/-- Loading an image reports something or places words, whatever becomes of it. -/
theorem loadImage (hR : Kept R) (name : Text) :
    Keeps R (loadImage name : Action κ LoadResult) := by
  refine .bind hR.trans hR.get fun m => ?_
  split
  · exact hR.reported _ _ (hR.pure _)
  · split
    · exact hR.reported _ _ (hR.pure _)
    · exact hR.placeImage name _ _

end Kept

/-- An image can bring words, but no marks. -/
theorem loadImage_keepsMarks [Console κ] (name : Text) :
    KeepsMarks (loadImage name : Action κ LoadResult) :=
  Kept.loadImage ⟨.refl, .trans, fun _ _ _ => ⟨rfl, rfl, rfl⟩, fun _ _ _ => ⟨rfl, rfl, rfl⟩⟩ name

/-- What the map and the marks agree in. -/
structure Consistent (m : Machine κ) : Prop where
  blocks : ∀ a d, m.map.owner? a = some d → ∃ device, m.device? d = some device ∧
    device.base.toNat + device.count.toNat ≤ m.memory.size ∧
      ∀ b, m.map.owner? b = some d ↔ device.Covers b
  io : ∀ a, m.memory.io.get a = true → ∃ d, m.map.owner? a = some d

/-- Every address of a device is marked. -/
def Marked (m : Machine κ) : Prop := ∀ a d, m.map.owner? a = some d → m.memory.io.get a = true

/-- Neither the size of the memory, nor the map, nor the blocks of the devices change. -/
structure SameLayout (m m' : Machine κ) : Prop where
  size : m'.memory.size = m.memory.size
  map : m'.map = m.map
  blocks : m.KeepsBlocks m'

/-- Marks that disappear do no harm, because the map can have more than what is marked. -/
theorem Consistent.of_sameLayout {m m' : Machine κ} (h : m.Consistent) (hl : m.SameLayout m')
    (hio : ∀ a, m'.memory.io.get a = true → m.memory.io.get a = true) : m'.Consistent := by
  constructor
  · intro a d hd
    rw [hl.map] at hd ⊢
    obtain ⟨device, hdev, hfit, hblock⟩ := h.blocks a d hd
    obtain ⟨device', hdev', hbase, hcount⟩ := hl.blocks d device hdev
    refine ⟨device', hdev', ?_, ?_⟩
    · rw [hbase, hcount, hl.size]
      exact hfit
    · intro b
      rw [hblock b, Device.Covers, Device.Covers, hbase, hcount]
  · intro a ha
    rw [hl.map]
    exact h.io a (hio a ha)

theorem Marked.of_sameLayout {m m' : Machine κ} (h : m.Marked) (hl : m.SameLayout m')
    (hio : ∀ a d, m.map.owner? a = some d → m.memory.io.get a = true →
      m'.memory.io.get a = true) : m'.Marked := by
  intro a d hd
  rw [hl.map] at hd
  exact hio a d hd (h a d hd)

/-! ## Consistency -/

/-- What a request does to the map and to the marks of devices. -/
inductive Change (r : Request) (m m' : Machine κ) : Prop where
  | quiet (layout : m.SameLayout m') (io : m'.memory.io = m.memory.io)
  | cleared (layout : m.SameLayout m')
      (io : ∀ a, m'.memory.io.get a = true → m.memory.io.get a = true)
      (kept : ∀ a, m.memory.io.get a = true → ¬ r.Marks a → m'.memory.io.get a = true)
  | installed {d : DeviceId} {device : Device} (found : m.device? d = some device)
      (devices : m'.devices = m.devices) (size : m'.memory.size = m.memory.size)
      (count : 0 < device.count.toNat)
      (fit : device.base.toNat + device.count.toNat ≤ m.memory.size)
      (free : ∀ a, device.Covers a → m.map.owner? a = none)
      (map : ∀ a, m'.map.owner? a = if device.Covers a then some d else m.map.owner? a)
      (io : ∀ a, m'.memory.io.get a = if device.Covers a then true else m.memory.io.get a)
  | removed {d : DeviceId} {device : Device}
      (block : ∀ a, m.map.owner? a = some d ↔ device.Covers a)
      (devices : m'.devices = m.devices) (size : m'.memory.size = m.memory.size)
      (map : ∀ a, m'.map.owner? a = if m.map.owner? a = some d then none else m.map.owner? a)
      (io : ∀ a, m'.memory.io.get a = if device.Covers a then false else m.memory.io.get a)

/-- A device without its first address has none. -/
theorem Consistent.owner_ne {m : Machine κ} (hm : m.Consistent) {d : DeviceId} {device : Device}
    (found : m.device? d = some device) (count : 0 < device.count.toNat)
    (free : ∀ a, device.Covers a → m.map.owner? a = none) (a : Word) :
    m.map.owner? a ≠ some d := by
  intro ha
  obtain ⟨device', hd', -, hblock⟩ := hm.blocks a d ha
  obtain rfl : device = device' := Option.some.inj (found.symm.trans hd')
  have hfirst : device.Covers device.base := ⟨Nat.le_refl _, by omega⟩
  have howner := (hblock _).mpr hfirst
  rw [free _ hfirst] at howner
  cases howner

/-- A device whose addresses stay the same keeps its block. -/
theorem Consistent.block_of_same {m m' : Machine κ} (hm : m.Consistent)
    (devices : m'.devices = m.devices) (size : m'.memory.size = m.memory.size) {d : DeviceId}
    (same : ∀ a, m'.map.owner? a = some d ↔ m.map.owner? a = some d) {a : Word}
    (ha : m'.map.owner? a = some d) :
    ∃ device, m'.device? d = some device ∧
      device.base.toNat + device.count.toNat ≤ m'.memory.size ∧
        ∀ b, m'.map.owner? b = some d ↔ device.Covers b := by
  obtain ⟨device, hd, hfit, hblock⟩ := hm.blocks a d ((same a).mp ha)
  refine ⟨device, (device?_of_devices devices d).trans hd, by rw [size]; exact hfit, ?_⟩
  intro b
  rw [same b, hblock b]

/-- A new device has the whole of its block, and every other one keeps what it had, because the
block was free. -/
theorem Consistent.installed {m m' : Machine κ} (hm : m.Consistent) {d : DeviceId}
    {device : Device} (found : m.device? d = some device) (devices : m'.devices = m.devices)
    (size : m'.memory.size = m.memory.size) (count : 0 < device.count.toNat)
    (fit : device.base.toNat + device.count.toNat ≤ m.memory.size)
    (free : ∀ a, device.Covers a → m.map.owner? a = none)
    (map : ∀ a, m'.map.owner? a = if device.Covers a then some d else m.map.owner? a)
    (io : ∀ a, m'.memory.io.get a = if device.Covers a then true else m.memory.io.get a) :
    m'.Consistent := by
  have hnew := hm.owner_ne found count free
  have hown : ∀ a, m'.map.owner? a = some d ↔ device.Covers a := by
    intro a
    rw [map a]
    split
    · rename_i ha
      exact ⟨fun _ => ha, fun _ => rfl⟩
    · rename_i ha
      exact ⟨fun ho => absurd ho (hnew a), fun hc => absurd hc ha⟩
  -- The block was free, so nothing is taken from another device.
  have hother : ∀ e, e ≠ d → ∀ a, m'.map.owner? a = some e ↔ m.map.owner? a = some e := by
    intro e he a
    rw [map a]
    split
    · rename_i ha
      rw [free a ha]
      simp [Ne.symm he]
    · exact Iff.rfl
  constructor
  · intro a e ha
    by_cases he : e = d
    · subst he
      exact ⟨device, (device?_of_devices devices e).trans found, by rw [size]; exact fit, hown⟩
    · exact hm.block_of_same devices size (hother e he) ha
  · intro a ha
    rw [io a] at ha
    rw [map a]
    split
    · exact ⟨d, rfl⟩
    · rename_i hc
      rw [if_neg hc] at ha
      exact hm.io a ha

/-- A device that is removed loses the whole of its block, and no mark is left behind on it. -/
theorem Consistent.removed {m m' : Machine κ} (hm : m.Consistent) {d : DeviceId}
    {device : Device} (block : ∀ a, m.map.owner? a = some d ↔ device.Covers a)
    (devices : m'.devices = m.devices) (size : m'.memory.size = m.memory.size)
    (map : ∀ a, m'.map.owner? a = if m.map.owner? a = some d then none else m.map.owner? a)
    (io : ∀ a, m'.memory.io.get a = if device.Covers a then false else m.memory.io.get a) :
    m'.Consistent := by
  have hnone : ∀ a, m'.map.owner? a ≠ some d := by
    intro a ha
    rw [map a] at ha
    split at ha
    · cases ha
    · rename_i hn
      exact hn ha
  have hother : ∀ e, e ≠ d → ∀ a, m'.map.owner? a = some e ↔ m.map.owner? a = some e := by
    intro e he a
    rw [map a]
    split
    · rename_i ha
      rw [ha]
      simp [Ne.symm he]
    · exact Iff.rfl
  constructor
  · intro a e ha
    have he : e ≠ d := by
      rintro rfl
      exact hnone a ha
    exact hm.block_of_same devices size (hother e he) ha
  · intro a ha
    rw [io a] at ha
    split at ha
    · cases ha
    · rename_i hc
      rw [map a, if_neg (fun ho => hc ((block a).mp ho))]
      exact hm.io a ha

/-- Map and marks agree after every request, if they did before it. -/
theorem Consistent.change {r : Request} {m m' : Machine κ} (hm : m.Consistent)
    (h : Change r m m') : m'.Consistent := by
  cases h with
  | quiet layout io => exact hm.of_sameLayout layout fun a ha => io ▸ ha
  | cleared layout io => exact hm.of_sameLayout layout io
  | installed found devices size count fit free map io =>
    exact hm.installed found devices size count fit free map io
  | removed block devices size map io => exact hm.removed block devices size map io

/-- Only a request that replaces marks of a device can leave one of its addresses without. -/
theorem Marked.change {r : Request} {m m' : Machine κ} (hm : m.Consistent) (hk : m.Marked)
    (h : Change r m m') (hr : ¬ r.Meets m) : m'.Marked := by
  cases h with
  | quiet layout io => exact hk.of_sameLayout layout fun a d _ ha => io ▸ ha
  | cleared layout _ kept =>
    refine hk.of_sameLayout layout fun a d hd ha => kept a ha fun hmarks => hr ?_
    obtain ⟨device, hdev, -, hblock⟩ := hm.blocks a d hd
    exact ⟨d, device, a, a, hd, hdev, (hblock a).mp hd, hmarks⟩
  | installed _ _ _ _ _ _ map io =>
    intro a e he
    rw [map a] at he
    rw [io a]
    split
    · rfl
    · rename_i hc
      rw [if_neg hc] at he
      exact hk a e he
  | removed block _ _ map io =>
    intro a e he
    rw [map a] at he
    split at he
    · cases he
    · rename_i hn
      rw [io a, if_neg (fun hc => hn ((block a).mpr hc))]
      exact hk a e he

/-! ## Requests change the map -/

theorem SameLayout.of_memory {m : Machine κ} {memory : Memory}
    (h : memory.size = m.memory.size) : m.SameLayout { m with memory } :=
  ⟨h, rfl, keepsBlocks_of_devices rfl⟩

theorem change_of_memory {r : Request} {m : Machine κ} {memory : Memory}
    (hsize : memory.size = m.memory.size) (hio : memory.io = m.memory.io) :
    Change r m { m with memory } :=
  .quiet (.of_memory hsize) hio

/-- Other kinds of memory take away the marks of devices in their range, and no others. -/
theorem change_of_fill {r : Request} {m : Machine κ} {memory : Memory} {first last : Word}
    (hr : ∀ a, first ≤ a ∧ a ≤ last → r.Marks a) (hsize : memory.size = m.memory.size)
    (hio : memory.io = m.memory.io.fillRange first last false) : Change r m { m with memory } := by
  refine .cleared (.of_memory hsize) ?_ ?_
  · intro a ha
    rw [show ({ m with memory } : Machine κ).memory.io = _ from hio, Table.get_fillRange] at ha
    split at ha
    · cases ha
    · exact ha
  · intro a ha hmarks
    rw [show ({ m with memory } : Machine κ).memory.io = _ from hio, Table.get_fillRange,
      if_neg (fun h => hmarks (hr a h))]
    exact ha

/-- The last address of a block inside a memory does not wrap around. -/
theorem block_of_range {m : Memory} {first count : Word} (hcount : count ≠ 0)
    (hvalid : m.isValid (first + count - 1) = true) (hle : first ≤ first + count - 1) :
    0 < count.toNat ∧ (first + count - 1).toNat + 1 = first.toNat + count.toNat ∧
      first.toNat + count.toNat ≤ m.size := by
  have hpos : 0 < count.toNat := by
    apply Nat.pos_of_ne_zero
    intro h0
    exact hcount (BitVec.eq_of_toNat_eq h0)
  have hlt : (first + count - 1).toNat < m.size := of_decide_eq_true hvalid
  have hfirst := first.isLt
  have hcount' := count.isLt
  have hlast : (first + count - 1).toNat + 1 = first.toNat + count.toNat := by
    rw [BitVec.le_def] at hle
    bv_omega
  exact ⟨hpos, hlast, by omega⟩

theorem range_iff_covers {device : Device}
    (hlast : (device.base + device.count - 1).toNat + 1 =
      device.base.toNat + device.count.toNat) (a : Word) :
    (device.base ≤ a ∧ a ≤ device.base + device.count - 1) ↔ device.Covers a := by
  rw [BitVec.le_def, BitVec.le_def, Device.Covers]
  omega

/-- `d` was given its block, which was free, and nothing else happened. -/
structure Installs (d : DeviceId) (device : Device) (m m' : Machine κ) : Prop where
  found : m.device? d = some device
  same : m' = { m with map := m'.map, memory := { m.memory with io := m'.memory.io } }
  count : 0 < device.count.toNat
  fit : device.base.toNat + device.count.toNat ≤ m.memory.size
  free : ∀ a, device.Covers a → m.map.owner? a = none
  map : ∀ a, m'.map.owner? a = if device.Covers a then some d else m.map.owner? a
  io : ∀ a, m'.memory.io.get a = if device.Covers a then true else m.memory.io.get a

/-- Its block was taken from `d`, and nothing else happened. -/
structure Removes (d : DeviceId) (device : Device) (m m' : Machine κ) : Prop where
  found : m.device? d = some device
  same : m' = { m with map := m'.map, memory := { m.memory with io := m'.memory.io } }
  block : ∀ a, m.map.owner? a = some d ↔ device.Covers a
  map : ∀ a, m'.map.owner? a = if m.map.owner? a = some d then none else m.map.owner? a
  io : ∀ a, m'.memory.io.get a = if device.Covers a then false else m.memory.io.get a

/-- Installing a device is refused, and then nothing happens, or the device is given its block. -/
theorem installDevice_inv {d : DeviceId} {m m' : Machine κ} {answer : Bool}
    (h : installDevice d m = .ok (answer, m')) :
    (answer = false ∧ m' = m) ∨ (answer = true ∧ ∃ device, Installs d device m m') := by
  unfold installDevice at h
  split at h
  · cases h
  · rename_i device hd
    split at h
    · cases h
    · cases h
      exact .inl ⟨rfl, rfl⟩
    · rename_i map hmap
      split at h
      · cases h
      · rename_i memory hio
        cases h
        obtain ⟨hvalid, hle, rfl⟩ := Memory.setIo_inv hio
        obtain ⟨hcount, hfree, howner⟩ := DeviceMap.install_inv hmap
        obtain ⟨hpos, hlast, hfit⟩ := block_of_range hcount hvalid hle
        have hsize := m.memory.size_le
        have hblock : ∀ a, a ∈ DeviceMap.block device.base device.count ↔ device.Covers a :=
          fun a => DeviceMap.mem_block (by omega)
        have hrange := range_iff_covers hlast
        refine .inr ⟨rfl, device, hd, rfl, hpos, hfit, ?_, ?_, ?_⟩
        · intro a ha
          exact hfree a ((hblock a).mpr ha)
        · intro a
          simp only [howner a, hblock a]
        · intro a
          show (m.memory.io.fillRange _ _ true).get a = _
          simp only [Table.get_fillRange, hrange a]

/-- The lowest address of a device is its first one, because it has its whole block. -/
theorem Consistent.lowest? {m : Machine κ} (hm : m.Consistent) {d : DeviceId} {device : Device}
    {a : Word} (ha : m.map.owner? a = some d) (hd : m.device? d = some device) :
    m.map.lowest? d = some device.base := by
  obtain ⟨device', hd', -, hblock⟩ := hm.blocks a d ha
  obtain rfl : device = device' := Option.some.inj (hd.symm.trans hd')
  cases hfirst : m.map.lowest? d with
  | none => exact absurd ha (DeviceMap.lowest?_none hfirst a)
  | some first =>
    obtain ⟨howner, hmin⟩ := DeviceMap.lowest?_inv hfirst
    have hcovers := (hblock first).mp howner
    have hlow : device.Covers device.base := by
      unfold Device.Covers at hcovers ⊢
      omega
    have hle := hmin device.base ((hblock _).mpr hlow)
    exact congrArg some (BitVec.eq_of_toNat_eq (Nat.le_antisymm hle hcovers.1))

/-- In a consistent memory, removing a device takes the whole of its block, or there was nothing to
remove. -/
theorem removeDevice_inv {d : DeviceId} {m m' : Machine κ} {answer : Bool} (hm : m.Consistent)
    (h : removeDevice d m = .ok (answer, m')) :
    (answer = false ∧ m' = m) ∨ (answer = true ∧ ∃ device, Removes d device m m') := by
  unfold removeDevice at h
  split at h
  · cases h
  · rename_i device hd
    split at h
    · cases h
      exact .inl ⟨rfl, rfl⟩
    · rename_i first hfirst
      obtain ⟨howner, -⟩ := DeviceMap.lowest?_inv hfirst
      obtain rfl : first = device.base :=
        Option.some.inj (hfirst.symm.trans (hm.lowest? howner hd))
      obtain ⟨device', hd', -, hblock⟩ := hm.blocks _ d howner
      obtain rfl : device = device' := Option.some.inj (hd.symm.trans hd')
      have hcovers := (hblock _).mp howner
      split at h
      · cases h
      · rename_i memory hio
        cases h
        obtain ⟨hvalid, hle, rfl⟩ := Memory.setIo_inv hio
        have hcount : device.count ≠ 0 := by
          intro h0
          have hzero : device.count.toNat = 0 := by rw [h0]; rfl
          unfold Device.Covers at hcovers
          omega
        obtain ⟨-, hlast, -⟩ := block_of_range hcount hvalid hle
        refine .inr ⟨rfl, device, hd, rfl, hblock, DeviceMap.owner?_remove m.map d, ?_⟩
        intro a
        show (m.memory.io.fillRange _ _ false).get a = _
        simp only [Table.get_fillRange, range_iff_covers hlast a]

theorem installDevice_change {d : DeviceId} {m m' : Machine κ} {answer : Bool}
    (h : installDevice d m = .ok (answer, m')) : Change (.install d) m m' := by
  rcases installDevice_inv h with ⟨-, rfl⟩ | ⟨-, device, hi⟩
  · exact .quiet (.of_memory rfl) rfl
  · exact .installed hi.found (by rw [hi.same]) (by rw [hi.same]) hi.count hi.fit hi.free hi.map
      hi.io

theorem removeDevice_change {d : DeviceId} {m m' : Machine κ} {answer : Bool} (hm : m.Consistent)
    (h : removeDevice d m = .ok (answer, m')) : Change (.remove d) m m' := by
  rcases removeDevice_inv hm h with ⟨-, rfl⟩ | ⟨-, device, hr⟩
  · exact .quiet (.of_memory rfl) rfl
  · exact .removed hr.block (by rw [hr.same]) (by rw [hr.same]) hr.map hr.io

variable [Console κ]

/-- The step of the argument: what each request of the operator does to the map and to the marks. -/
theorem change_of_does {r : Request} {m m' : Machine κ} (hm : m.Consistent) (h : r.Does m m') :
    Change r m m' := by
  cases r with
  | setRam first last =>
    obtain ⟨memory, hmemory, rfl⟩ := h
    obtain ⟨hsize, hio⟩ := Memory.setRam_inv hmemory
    exact change_of_fill (fun _ ha => ha) hsize hio
  | setNonexistent first last =>
    obtain ⟨memory, hmemory, rfl⟩ := h
    obtain ⟨hsize, hio⟩ := Memory.setNonexistent_inv hmemory
    exact change_of_fill (fun _ ha => ha) hsize hio
  | setBreak a on =>
    obtain ⟨memory, hmemory, rfl⟩ := h
    obtain ⟨-, rfl⟩ := Memory.guarded_inv hmemory
    exact change_of_memory rfl rfl
  | clearBreaks =>
    obtain rfl := h
    exact change_of_memory rfl rfl
  | clearWords =>
    obtain rfl := h
    exact change_of_memory rfl rfl
  | loadImage name =>
    obtain ⟨result, hload⟩ := h
    have hs := loadImage_keepsMarks name m result m' hload
    exact .quiet ⟨by rw [hs.memory], hs.map, keepsBlocks_of_devices hs.devices⟩ (by rw [hs.memory])
  | poke a w =>
    obtain ⟨memory, hmemory, rfl⟩ := h
    obtain ⟨-, rfl⟩ := Memory.guarded_inv hmemory
    exact change_of_memory rfl rfl
  | install d =>
    obtain ⟨answer, hinstall⟩ := h
    exact installDevice_change hinstall
  | remove d =>
    obtain ⟨answer, hremove⟩ := h
    exact removeDevice_change hm hremove
  | read a =>
    obtain ⟨w, hload⟩ := h
    have hu := load_untouched hload
    exact .quiet ⟨by rw [hu.memory], hu.map, hu.blocks⟩ (by rw [hu.memory])
  | write a w =>
    have hs := store_stored h
    exact .quiet ⟨by rw [hs.memory], hs.map, hs.blocks⟩ (by rw [hs.memory])

/-! ## Histories -/

/-- The machines that requests lead to from a new memory without devices in it, each with the
requests so far and the machines they were made on, the latest first. In between anything may happen
that leaves the memory, the map and the blocks of the devices as they are. -/
inductive Reached : List (Machine κ × Request) → Machine κ → Prop where
  | new {size : Nat} {m : Machine κ} (hnew : Memory.new? size = .ok m.memory)
      (hmap : m.map = .empty) : Reached [] m
  | request {past : List (Machine κ × Request)} {m m' : Machine κ} {r : Request}
      (hpast : Reached past m) (hdoes : r.Does m m') : Reached ((m, r) :: past) m'
  | elsewhere {past : List (Machine κ × Request)} {m m' : Machine κ} (hpast : Reached past m)
      (hmemory : m'.memory = m.memory) (hmap : m'.map = m.map) (hblocks : m.KeepsBlocks m') :
      Reached past m'

/-- By induction over the requests, since each one keeps the agreement of map and marks. -/
theorem Reached.consistent {past : List (Machine κ × Request)} {m : Machine κ}
    (h : Reached past m) : m.Consistent := by
  induction h with
  | new hnew hmap =>
    constructor
    · intro a d hd
      rw [hmap, DeviceMap.owner?, DeviceMap.empty, Table.get_fill] at hd
      cases hd
    · intro a ha
      rw [Memory.new_io hnew a] at ha
      cases ha
  | request _ hdoes ih => exact ih.change (change_of_does ih hdoes)
  | elsewhere _ hmemory hmap hblocks ih =>
    exact ih.of_sameLayout ⟨by rw [hmemory], hmap, hblocks⟩ fun a ha => hmemory ▸ ha

/-- The addresses of devices are marked as long as no request replaced the marks of one. -/
theorem Reached.marked {past : List (Machine κ × Request)} {m : Machine κ}
    (h : Reached past m) (hclear : ∀ x ∈ past, ¬ x.2.Meets x.1) : m.Marked := by
  induction h with
  | new hnew hmap =>
    intro a d hd
    rw [hmap, DeviceMap.owner?, DeviceMap.empty, Table.get_fill] at hd
    cases hd
  | request hpast hdoes ih =>
    have hm := hpast.consistent
    have hk := ih fun x hx => hclear x (List.mem_cons_of_mem _ hx)
    exact hk.change hm (change_of_does hm hdoes) (hclear _ List.mem_cons_self)
  | elsewhere _ hmemory hmap hblocks ih =>
    have hk := ih hclear
    exact hk.of_sameLayout ⟨by rw [hmemory], hmap, hblocks⟩ fun a _ _ ha => hmemory ▸ ha

/-- In every memory that requests lead to, a device has all of its block or nothing, blocks do not
wrap around or overlap, and the processor reaches the owner of every address that is marked. If no
request replaced marks of an installed device, all addresses of devices are marked. -/
theorem reached_consistent {past : List (Machine κ × Request)} {m : Machine κ}
    (h : Reached past m) :
    (∀ d, (∀ a, m.map.owner? a ≠ some d) ∨
      ∃ device, m.device? d = some device ∧
        device.base.toNat + device.count.toNat ≤ m.memory.size ∧
        ∀ a, m.map.owner? a = some d ↔ device.Covers a) ∧
    (∀ d e a b, m.map.owner? a = some d → m.map.owner? b = some e → d ≠ e →
      ∀ device device', m.device? d = some device → m.device? e = some device' →
        ∀ c, ¬ (device.Covers c ∧ device'.Covers c)) ∧
    (∀ a, m.memory.isIo a = .ok true →
      ∃ d device, m.map.owner? a = some d ∧ m.device? d = some device ∧ device.Covers a ∧
        load a m = readDevice d a m ∧ ∀ w, store a w m = writeDevice d a w m) ∧
    ((∀ x ∈ past, ¬ x.2.Meets x.1) →
      ∀ a d, m.map.owner? a = some d → m.memory.isIo a = .ok true) := by
  have hm := h.consistent
  refine ⟨?_, ?_, ?_, ?_⟩
  · intro d
    by_cases hd : ∃ a, m.map.owner? a = some d
    · obtain ⟨a, ha⟩ := hd
      exact .inr (hm.blocks a d ha)
    · exact .inl fun a ha => hd ⟨a, ha⟩
  · intro d e a b hd he hne device device' hdev hdev' c hc
    obtain ⟨_, hdev₁, -, hblock⟩ := hm.blocks a d hd
    obtain ⟨_, hdev₂, -, hblock'⟩ := hm.blocks b e he
    obtain rfl := Option.some.inj (hdev.symm.trans hdev₁)
    obtain rfl := Option.some.inj (hdev'.symm.trans hdev₂)
    have howner := (hblock c).mpr hc.1
    rw [(hblock' c).mpr hc.2] at howner
    exact hne (Option.some.inj howner).symm
  · intro a ha
    obtain ⟨hvalid, hio⟩ := Memory.isIo_iff.mp ha
    obtain ⟨d, hd⟩ := hm.io a hio
    obtain ⟨device, hdev, -, hblock⟩ := hm.blocks a d hd
    refine ⟨d, device, hd, hdev, (hblock a).mp hd, ?_, ?_⟩
    · rw [load, if_pos hvalid, if_pos hio, readMapped, hd]
    · intro w
      rw [store, if_pos hvalid, if_pos hio, writeMapped, hd]
  · intro hclear a d hd
    obtain ⟨device, -, hfit, hblock⟩ := hm.blocks a d hd
    have hcovers := (hblock a).mp hd
    refine Memory.isIo_iff.mpr ⟨decide_eq_true ?_, h.marked hclear a d hd⟩
    exact Nat.lt_of_lt_of_le hcovers.2 hfit

/-- Ordinary memory below the terminal, and the terminal installed above it. -/
theorem reached_consistent_terminal :
    ∃ (past : List (Machine Script × Request)) (m : Machine Script), Reached past m ∧
      past.map (·.2) = [.install 0, .setRam 0 0xFDFF] ∧ m.memory.isIo 0xFE02 = .ok true ∧
        load 0xFE02 m = readDevice 0 0xFE02 m := by
  let blank : Memory := { Memory.full with ram := .fill false }
  let low : Memory := { blank with
    ram := blank.ram.fillRange 0 0xFDFF true, io := blank.io.fillRange 0 0xFDFF false }
  let m₀ : Machine Script := { sample [] [] with memory := blank, map := .empty }
  let m₁ : Machine Script := { m₀ with memory := low }
  have hnew : Memory.new? 65536 = .ok blank := rfl
  have hram : m₀.memory.setRam 0 0xFDFF = .ok low := rfl
  have hinstall := eq_ok_of_result (x := installDevice 0 m₁) (a := true) m₁ (by decide +kernel)
  let m₂ := after (installDevice 0 m₁) m₁
  have hreached : Reached [(m₁, .install 0), (m₀, .setRam 0 0xFDFF)] m₂ := by
    refine .request (.request (.new hnew rfl) ?_) ⟨true, hinstall⟩
    exact ⟨low, hram, rfl⟩
  obtain ⟨-, -, hio, hmarked⟩ := reached_consistent hreached
  have hclear : ∀ x ∈ [(m₁, Request.install 0), (m₀, .setRam 0 0xFDFF)], ¬ x.2.Meets x.1 := by
    intro x hx
    rintro ⟨d, device, a, b, howner, -, -, hmarks⟩
    rcases List.mem_cons.mp hx with rfl | hx
    · exact hmarks
    · rw [List.mem_singleton.mp hx] at howner
      rw [show m₀.map.owner? b = none from Table.get_fill none b] at howner
      cases howner
  have howner : m₂.map.owner? 0xFE02 = some 0 := by decide +kernel
  have hmark := hmarked hclear 0xFE02 0 howner
  obtain ⟨d, device, hd, -, -, hload, -⟩ := hio 0xFE02 hmark
  obtain rfl : 0 = d := Option.some.inj (howner.symm.trans hd)
  exact ⟨_, m₂, hreached, rfl, hmark, hload⟩

end Machine

end LittleComputer
