import LittleComputer.Proofs.Confinement

/-!
# The history of the map

The marks of an address were made by the last requests that reached it, and every kind of mark has
its own. What happened before them makes no difference, and neither does what programs do. So the
map of a memory can be read off the requests alone, and it says what the processor reads.
-/

namespace LittleComputer

variable {κ : Type}

/-! ## Marks that requests make -/

namespace Request

/-- Whether the request makes the address ordinary memory, if it decides that. -/
def ramMark (a : Word) : Request → Option Bool
  | setRam first last => if first ≤ a ∧ a ≤ last then some true else none
  | setNonexistent first last => if first ≤ a ∧ a ≤ last then some false else none
  | _ => none

/-- Whether the request makes runs stop at the address, if it decides that. -/
def breakMark (a : Word) : Request → Option Bool
  | setBreak b on => if b = a then some on else none
  | clearBreaks => some false
  | _ => none

/-- Whether the request, if it is granted, makes a device answer at an address of its block, if the
request decides that. -/
def ioMark (d : DeviceId) (a : Word) : Request × Bool → Option Bool
  | (setRam first last, _) | (setNonexistent first last, _) =>
    if first ≤ a ∧ a ≤ last then some false else none
  | (install e, granted) => if granted ∧ e = d then some true else none
  | (remove e, granted) => if granted ∧ e = d then some false else none
  | _ => none

variable [Console κ]

/-- A request is made, and granted or refused. Only devices can be refused. -/
def Answers (r : Request) (granted : Bool) (m m' : Machine κ) : Prop :=
  match r with
  | install d => Machine.installDevice d m = .ok (granted, m')
  | remove d => Machine.removeDevice d m = .ok (granted, m')
  | r => granted = true ∧ r.Does m m'

/-- A request that is granted or refused still does what it may do. -/
theorem Answers.does {r : Request} {granted : Bool} {m m' : Machine κ}
    (h : r.Answers granted m m') : r.Does m m' := by
  cases r with
  | install d | remove d => exact ⟨granted, h⟩
  | _ => exact h.2

end Request

namespace Memory

theorem new_marks {size : Nat} {m : Memory} (h : Memory.new? size = .ok m) (a : Word) :
    m.ram.get a = false ∧ m.io.get a = false ∧ m.breaks.get a = false := by
  unfold new? at h
  split at h
  · cases h
    exact ⟨Table.get_fill false a, Table.get_fill false a, Table.get_fill false a⟩
  · cases h

end Memory

namespace Machine

/-! ## Devices -/

variable {m m' : Machine κ}

/-- The last request that decides whether `d` answers at the address installed it. -/
def LastInstalled (past : List (Request × Bool)) (d : DeviceId) (a : Word) : Prop :=
  past.findSome? (Request.ioMark d a) = some true

theorem lastInstalled_cons {x : Request × Bool} {past : List (Request × Bool)} {d : DeviceId}
    {a : Word} : LastInstalled (x :: past) d a ↔
      Request.ioMark d a x = some true ∨ Request.ioMark d a x = none ∧ LastInstalled past d a := by
  rw [LastInstalled, LastInstalled, List.findSome?_cons]
  cases Request.ioMark d a x with
  | none => simp
  | some b => simp

theorem lastInstalled_of_none {x : Request × Bool} {past : List (Request × Bool)} {d : DeviceId}
    {a : Word} (hx : Request.ioMark d a x = none) :
    LastInstalled (x :: past) d a ↔ LastInstalled past d a := by
  simp [lastInstalled_cons, hx]

/-- The device covers the address. -/
def HasBlock (m : Machine κ) (d : DeviceId) (a : Word) : Prop :=
  ∃ device, m.device? d = some device ∧ device.Covers a

/-- A device answers at an address of its block exactly if the requests so far say so. -/
structure Tracked (past : List (Request × Bool)) (m : Machine κ) : Prop where
  known : ∀ d a, LastInstalled past d a → ∃ device, m.device? d = some device
  answers : ∀ d a, m.map.owner? a = some d ∧ m.memory.io.get a = true ↔
    m.HasBlock d a ∧ LastInstalled past d a

namespace Tracked

variable {past : List (Request × Bool)} {x : Request × Bool}

/-- Devices that change inside, as they do in a run, stay where the requests put them. -/
theorem of_keepsBlocks (ht : Tracked past m) (hmap : m'.map = m.map)
    (hio : m'.memory.io = m.memory.io) (hblocks : m.KeepsBlocks m') : Tracked past m' := by
  constructor
  · intro d a hlast
    obtain ⟨device, hd⟩ := ht.known d a hlast
    obtain ⟨device', hd', -⟩ := hblocks d device hd
    exact ⟨device', hd'⟩
  · intro d a
    rw [hmap, hio, ht.answers d a, and_congr_left_iff]
    intro hlast
    obtain ⟨device, hd⟩ := ht.known d a hlast
    obtain ⟨device', hd', hbase, hcount⟩ := hblocks d device hd
    simp [HasBlock, hd, hd', Device.Covers, hbase, hcount]

/-- A request that decides nothing about devices leaves what was decided. -/
theorem undecided (ht : Tracked past m) (hx : ∀ d a, Request.ioMark d a x = none) :
    Tracked (x :: past) m := by
  constructor
  · intro d a hlast
    exact ht.known d a ((lastInstalled_of_none (hx d a)).mp hlast)
  · intro d a
    rw [ht.answers d a, lastInstalled_of_none (hx d a)]

/-- A range that becomes ordinary or nonexistent memory is taken from all devices. -/
theorem filled (ht : Tracked past m) {first last : Word}
    (hx : ∀ d a, Request.ioMark d a x = if first ≤ a ∧ a ≤ last then some false else none)
    {memory : Memory} (hio : memory.io = m.memory.io.fillRange first last false) :
    Tracked (x :: past) { m with memory } := by
  constructor
  · intro d a hlast
    rw [lastInstalled_cons, hx d a] at hlast
    split at hlast
    · simp at hlast
    · exact ht.known d a (by simpa using hlast)
  · intro d a
    show m.map.owner? a = some d ∧ memory.io.get a = true ↔ m.HasBlock d a ∧ _
    rw [hio, Table.get_fillRange, lastInstalled_cons, hx d a]
    split
    · simp
    · simpa using ht.answers d a

theorem installed (ht : Tracked past m) (hm : m.Consistent) {e : DeviceId} {device : Device}
    (hi : Installs e device m m') : Tracked ((.install e, true) :: past) m' := by
  have hdevices : m'.devices = m.devices := by rw [hi.same]
  have hfound (d : DeviceId) : m'.device? d = m.device? d := device?_of_devices hdevices d
  constructor
  · intro d a hlast
    rw [hfound d]
    by_cases he : e = d
    · exact ⟨device, he ▸ hi.found⟩
    · exact ht.known d a ((lastInstalled_of_none (by simp [Request.ioMark, he])).mp hlast)
  · intro d a
    rw [hi.map a, hi.io a, HasBlock, hfound d]
    by_cases he : e = d
    · subst he
      have hnot := hm.owner_ne hi.found hi.count hi.free a
      by_cases ha : device.Covers a
      · simp [lastInstalled_cons, Request.ioMark, hi.found, ha]
      · simp [lastInstalled_cons, Request.ioMark, hi.found, ha, hnot]
    · rw [lastInstalled_of_none (by simp [Request.ioMark, he])]
      have hold := ht.answers d a
      rw [HasBlock] at hold
      split
      · rename_i ha
        rw [← hold, hi.free a ha]
        simp [he]
      · exact hold

theorem removed (ht : Tracked past m) {e : DeviceId} {device : Device}
    (hr : Removes e device m m') : Tracked ((.remove e, true) :: past) m' := by
  have hdevices : m'.devices = m.devices := by rw [hr.same]
  have hfound (d : DeviceId) : m'.device? d = m.device? d := device?_of_devices hdevices d
  constructor
  · intro d a hlast
    rw [hfound d]
    by_cases he : e = d
    · simp [lastInstalled_cons, Request.ioMark, he] at hlast
    · exact ht.known d a ((lastInstalled_of_none (by simp [Request.ioMark, he])).mp hlast)
  · intro d a
    have hold := ht.answers d a
    rw [HasBlock] at hold
    rw [hr.map a, hr.io a, HasBlock, hfound d]
    by_cases he : e = d
    · subst he
      simp [lastInstalled_cons, Request.ioMark]
    · rw [lastInstalled_of_none (by simp [Request.ioMark, he]), ← hold]
      by_cases ha : device.Covers a
      · simp [(hr.block a).mpr ha, he]
      · have hne : m.map.owner? a ≠ some e := fun ho => ha ((hr.block a).mp ho)
        simp [hne, ha]

end Tracked

/-! ## One request -/

variable [Console κ]

/-- A request puts its marks for ordinary memory and for breakpoints where it decides them, and
leaves all others. -/
structure Marks (r : Request) (m m' : Machine κ) : Prop where
  ram : ∀ a, m'.memory.ram.get a = (r.ramMark a).getD (m.memory.ram.get a)
  breaks : ∀ a, m'.memory.breaks.get a = (r.breakMark a).getD (m.memory.breaks.get a)

/-- One request sets the marks that it decides, and leaves all others as they are. -/
theorem marks_of_does {r : Request} (hm : m.Consistent) (h : r.Does m m') : Marks r m m' := by
  have hquiet (hram : m'.memory.ram = m.memory.ram) (hbreaks : m'.memory.breaks = m.memory.breaks)
      (hx : ∀ a, r.ramMark a = none ∧ r.breakMark a = none) : Marks r m m' :=
    ⟨fun a => by rw [hram, (hx a).1]; rfl, fun a => by rw [hbreaks, (hx a).2]; rfl⟩
  cases r with
  | setRam first last | setNonexistent first last =>
    obtain ⟨memory, hmemory, rfl⟩ := h
    obtain ⟨-, rfl⟩ := Memory.guarded_inv hmemory
    refine ⟨fun a => ?_, fun a => rfl⟩
    simp only [Table.get_fillRange, Request.ramMark]
    split
    · rfl
    · rfl
  | setBreak b on =>
    obtain ⟨memory, hmemory, rfl⟩ := h
    obtain ⟨-, rfl⟩ := Memory.guarded_inv hmemory
    refine ⟨fun a => rfl, fun a => ?_⟩
    simp only [Table.get_set, Request.breakMark]
    split
    · rfl
    · rfl
  | clearBreaks =>
    obtain rfl := h
    exact ⟨fun a => rfl, fun a => Table.get_fill false a⟩
  | clearWords =>
    obtain rfl := h
    exact hquiet rfl rfl fun _ => ⟨rfl, rfl⟩
  | loadImage name =>
    obtain ⟨result, hload⟩ := h
    have hs := loadImage_keepsMarks name m result m' hload
    exact hquiet (by rw [hs.memory]) (by rw [hs.memory]) fun _ => ⟨rfl, rfl⟩
  | poke b w =>
    obtain ⟨memory, hmemory, rfl⟩ := h
    obtain ⟨-, rfl⟩ := Memory.guarded_inv hmemory
    exact hquiet rfl rfl fun _ => ⟨rfl, rfl⟩
  | install d =>
    obtain ⟨answer, hinstall⟩ := h
    rcases installDevice_inv hinstall with ⟨-, rfl⟩ | ⟨-, device, hi⟩
    · exact hquiet rfl rfl fun _ => ⟨rfl, rfl⟩
    · exact hquiet (by rw [hi.same]) (by rw [hi.same]) fun _ => ⟨rfl, rfl⟩
  | remove d =>
    obtain ⟨answer, hremove⟩ := h
    rcases removeDevice_inv hm hremove with ⟨-, rfl⟩ | ⟨-, device, hr⟩
    · exact hquiet rfl rfl fun _ => ⟨rfl, rfl⟩
    · exact hquiet (by rw [hr.same]) (by rw [hr.same]) fun _ => ⟨rfl, rfl⟩
  | read b =>
    obtain ⟨w, hload⟩ := h
    have hu := load_untouched hload
    exact hquiet (by rw [hu.memory]) (by rw [hu.memory]) fun _ => ⟨rfl, rfl⟩
  | write b w =>
    have hs := store_stored h
    exact hquiet (by rw [hs.memory]) (by rw [hs.memory]) fun _ => ⟨rfl, rfl⟩

/-- Every answered request keeps the record of devices in step with the history. -/
theorem Tracked.request {past : List (Request × Bool)} (ht : Tracked past m) (hm : m.Consistent)
    {r : Request} {granted : Bool} (h : r.Answers granted m m') :
    Tracked ((r, granted) :: past) m' := by
  have hquiet (hmap : m'.map = m.map) (hio : m'.memory.io = m.memory.io)
      (hblocks : m.KeepsBlocks m') (hx : ∀ d a, Request.ioMark d a (r, granted) = none) :
      Tracked ((r, granted) :: past) m' := (ht.of_keepsBlocks hmap hio hblocks).undecided hx
  cases r with
  | setRam first last =>
    obtain ⟨-, memory, hset, rfl⟩ := h
    exact ht.filled (fun _ _ => rfl) (Memory.setRam_inv hset).2
  | setNonexistent first last =>
    obtain ⟨-, memory, hset, rfl⟩ := h
    exact ht.filled (fun _ _ => rfl) (Memory.setNonexistent_inv hset).2
  | setBreak | poke =>
    obtain ⟨-, memory, hset, rfl⟩ := h
    obtain ⟨-, rfl⟩ := Memory.guarded_inv hset
    exact hquiet rfl rfl (keepsBlocks_of_devices rfl) fun _ _ => rfl
  | clearBreaks | clearWords =>
    obtain ⟨-, rfl⟩ := h
    exact hquiet rfl rfl (keepsBlocks_of_devices rfl) fun _ _ => rfl
  | loadImage name =>
    obtain ⟨-, result, hload⟩ := h
    have hs := loadImage_keepsMarks name m result m' hload
    exact hquiet hs.map (by rw [hs.memory]) (keepsBlocks_of_devices hs.devices) fun _ _ => rfl
  | install d =>
    rcases installDevice_inv h with ⟨rfl, rfl⟩ | ⟨rfl, device, hi⟩
    · exact ht.undecided fun _ _ => by simp [Request.ioMark]
    · exact ht.installed hm hi
  | remove d =>
    rcases removeDevice_inv hm h with ⟨rfl, rfl⟩ | ⟨rfl, device, hr⟩
    · exact ht.undecided fun _ _ => by simp [Request.ioMark]
    · exact ht.removed hr
  | read b =>
    obtain ⟨-, w, hload⟩ := h
    have hu := load_untouched hload
    exact hquiet hu.map (by rw [hu.memory]) hu.blocks fun _ _ => rfl
  | write b w =>
    have hs := store_stored h.2
    exact hquiet hs.map (by rw [hs.memory]) hs.blocks fun _ _ => rfl

/-! ## Histories -/

/-- The machines that requests and programs lead to from a new memory without devices in it, each
with the requests so far and whether they were granted, the latest first. -/
inductive History : List (Request × Bool) → Machine κ → Prop where
  | new {size : Nat} {m : Machine κ} (hnew : Memory.new? size = .ok m.memory)
      (hmap : m.map = .empty) : History [] m
  | request {past : List (Request × Bool)} {m m' : Machine κ} {r : Request} {granted : Bool}
      (hpast : History past m) (h : r.Answers granted m m') : History ((r, granted) :: past) m'
  | other {past : List (Request × Bool)} {m m' : Machine κ} (hpast : History past m)
      (h : Happens (fun _ => False) m m') : History past m'

namespace History

variable {past : List (Request × Bool)}

theorem consistent (h : History past m) : m.Consistent := by
  induction h with
  | new hnew hmap => exact (Reached.new hnew hmap).consistent
  | request _ h ih => exact ih.change (change_of_does ih h.does)
  | other _ h ih => exact ih.happens h

theorem tracked (h : History past m) : Tracked past m := by
  induction h with
  | new hnew hmap =>
    constructor
    · intro d a hlast
      cases hlast
    · intro d a
      simp [hmap, DeviceMap.owner?, DeviceMap.empty, LastInstalled]
  | request hpast h ih => exact ih.request hpast.consistent h
  | other _ h ih =>
    have hc := Confined.of_happens h
    exact ih.of_keepsBlocks hc.map (by rw [hc.memory]) hc.blocks

theorem ram (h : History past m) (a : Word) :
    m.memory.ram.get a = (past.findSome? (·.1.ramMark a)).getD false := by
  induction h with
  | new hnew => exact (Memory.new_marks hnew a).1
  | request hpast h ih =>
    rw [(marks_of_does hpast.consistent h.does).ram a, ih, List.findSome?_cons]
    cases Request.ramMark a _ with
    | none => rfl
    | some b => rfl
  | other _ h ih => rw [(Confined.of_happens h).memory, ← ih]

theorem breaks (h : History past m) (a : Word) :
    m.memory.breaks.get a = (past.findSome? (·.1.breakMark a)).getD false := by
  induction h with
  | new hnew => exact (Memory.new_marks hnew a).2.2
  | request hpast h ih =>
    rw [(marks_of_does hpast.consistent h.does).breaks a, ih, List.findSome?_cons]
    cases Request.breakMark a _ with
    | none => rfl
    | some b => rfl
  | other _ h ih => rw [(Confined.of_happens h).memory, ← ih]

/-- An address is mapped exactly if a device covers it that the last deciding request installed. -/
theorem io (h : History past m) (a : Word) :
    m.memory.io.get a = true ↔ ∃ d, m.HasBlock d a ∧ LastInstalled past d a := by
  constructor
  · intro ha
    obtain ⟨d, hd⟩ := h.consistent.io a ha
    exact ⟨d, (h.tracked.answers d a).mp ⟨hd, ha⟩⟩
  · rintro ⟨d, hd⟩
    exact ((h.tracked.answers d a).mpr hd).2

end History

/-- The marks of an address are what the last requests made them that decided about them, each kind
of mark for itself. A device answers at an address of its block if it was installed there since the
address was last made ordinary or nonexistent, and not removed, and the processor reads
accordingly. -/
theorem marks_of_history {past : List (Request × Bool)} {m : Machine κ} (h : History past m)
    (a : Word) (ha : m.memory.isValid a = true) :
    (m.memory.ram.get a = true ↔ past.findSome? (·.1.ramMark a) = some true) ∧
    (m.memory.io.get a = true ↔ ∃ d, m.HasBlock d a ∧ LastInstalled past d a) ∧
    (m.memory.breaks.get a = true ↔ past.findSome? (·.1.breakMark a) = some true) ∧
    (∀ d, m.HasBlock d a → LastInstalled past d a → load a m = readDevice d a m) ∧
    (m.memory.io.get a = false → load a m =
      .ok (if m.memory.ram.get a then m.memory.words.get a else Word.allOnes, m)) := by
  have hgetD (o : Option Bool) : o.getD false = true ↔ o = some true := by cases o <;> simp
  refine ⟨by rw [h.ram a, hgetD], h.io a, by rw [h.breaks a, hgetD], ?_, ?_⟩
  · intro d hblock hlast
    obtain ⟨howner, hio⟩ := (h.tracked.answers d a).mpr ⟨hblock, hlast⟩
    rw [load, if_pos ha, if_pos hio, readMapped, howner]
  · intro hio
    rw [load, if_pos ha, if_neg (by rw [hio]; decide)]

/-- A terminal whose display was made nonexistent memory: the terminal still has the address, but
the processor does not reach it. -/
theorem marks_of_history_display :
    ∃ (past : List (Request × Bool)) (m : Machine Script), History past m ∧
      past.map (·.1) = [.setNonexistent 0xFE06 0xFFFF, .install 0, .setRam 0 0xFFFF] ∧
      m.memory.isValid 0xFE06 = true ∧ m.map.owner? 0xFE06 = some 0 ∧
      load 0xFE06 m = .ok (Word.allOnes, m) ∧ load 0xFE02 m = readDevice 0 0xFE02 m := by
  let blank : Memory := { Memory.full with ram := .fill false }
  let ordinary : Memory := { blank with
    ram := blank.ram.fillRange 0 0xFFFF true, io := blank.io.fillRange 0 0xFFFF false }
  let m₀ : Machine Script := { sample [] [] with memory := blank, map := .empty }
  let m₁ : Machine Script := { m₀ with memory := ordinary }
  have hinstall := eq_ok_of_result (x := installDevice 0 m₁) (a := true) m₁ (by decide +kernel)
  let m₂ := after (installDevice 0 m₁) m₁
  let covered : Memory := { m₂.memory with
    ram := m₂.memory.ram.fillRange 0xFE06 0xFFFF false
    io := m₂.memory.io.fillRange 0xFE06 0xFFFF false }
  let m₃ : Machine Script := { m₂ with memory := covered }
  have hnew : Memory.new? 65536 = .ok blank := rfl
  have hram : m₀.memory.setRam 0 0xFFFF = .ok ordinary := rfl
  have hcover : m₂.memory.setNonexistent 0xFE06 0xFFFF = .ok covered := by
    have hrange : m₂.memory.checkRange 0xFE06 0xFFFF = .ok () := by decide +kernel
    rw [Memory.setNonexistent, hrange]
    rfl
  have h₀ : History [] m₀ := .new hnew rfl
  have h₁ : History _ m₁ := h₀.request (r := .setRam 0 0xFFFF) ⟨rfl, ordinary, hram, rfl⟩
  have h₂ : History _ m₂ := h₁.request (r := .install 0) hinstall
  have h₃ : History _ m₃ :=
    h₂.request (r := .setNonexistent 0xFE06 0xFFFF) ⟨rfl, covered, hcover, rfl⟩
  have hvalid : m₃.memory.isValid 0xFE06 = true := by decide +kernel
  obtain ⟨hplain, hio, -, -, hload⟩ := marks_of_history h₃ 0xFE06 hvalid
  obtain ⟨-, -, -, hasked, -⟩ := marks_of_history h₃ 0xFE02 (by decide +kernel)
  have hnone : m₃.memory.io.get 0xFE06 = false := by
    rw [Bool.eq_false_iff, ne_eq, hio]
    rintro ⟨d, -, hlast⟩
    simp [LastInstalled, Request.ioMark] at hlast
  have hunread : m₃.memory.ram.get 0xFE06 ≠ true := by
    rw [ne_eq, hplain]
    simp [Request.ramMark]
  refine ⟨_, m₃, h₃, rfl, hvalid, by decide +kernel, ?_, ?_⟩
  · rw [hload hnone, if_neg hunread]
  · refine hasked 0 ⟨.newTerminal (Text.ofString "CON") true, rfl, by decide⟩ ?_
    simp [LastInstalled, Request.ioMark]

end Machine

end LittleComputer
