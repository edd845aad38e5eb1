import Mathlib.Logic.Relation
import LittleComputer.Proofs.MemoryMap
import LittleComputer.Proofs.Sample
import LittleComputer.Proofs.Trail

/-!
# What lies under a device

A device hides the memory that its block lies on. While it is installed, no access reaches the words
there, and no other device comes to have any of its addresses. So it can be removed at any time, and
the memory under it is found as it was.
-/

namespace LittleComputer

/-- The request moves other devices at most, and replaces neither words nor marks of devices. -/
def Request.Spares (d : DeviceId) : Request → Prop
  | .read _ | .write _ _ | .setBreak _ _ | .clearBreaks => True
  | .install e | .remove e => e ≠ d
  | _ => False

theorem Memory.guarded_of_valid {α : Type} {m : Memory} {a : Word} (h : m.isValid a = true)
    (x : α) : (do m.check a; return x : Except Fault α) = .ok x := by
  rw [check, if_pos h]
  rfl

namespace Machine

variable {κ : Type} {m m' : Machine κ}

/-! ## Programs and hidden memory -/

/-- Of the memory only breakpoints and words of ordinary memory change, and the devices keep their
places. -/
structure OnlyPlain (m m' : Machine κ) : Prop where
  memory : m'.memory =
    { m.memory with words := m'.memory.words, breaks := m'.memory.breaks }
  map : m'.map = m.map
  blocks : m.KeepsBlocks m'
  words : ∀ a, m.isPlain a = false → m'.memory.words.get a = m.memory.words.get a

theorem KeepsBlocks.trans {m₁ m₂ : Machine κ} (h : m.KeepsBlocks m₁) (h' : m₁.KeepsBlocks m₂) :
    m.KeepsBlocks m₂ := by
  intro d device hd
  obtain ⟨device₁, hd₁, hbase₁, hcount₁⟩ := h d device hd
  obtain ⟨device₂, hd₂, hbase₂, hcount₂⟩ := h' d device₁ hd₁
  exact ⟨device₂, hd₂, hbase₂.trans hbase₁, hcount₂.trans hcount₁⟩

namespace OnlyPlain

variable {m₁ m₂ : Machine κ}

theorem of_memory (hmemory : m₁.memory = m.memory) (hmap : m₁.map = m.map)
    (hblocks : m.KeepsBlocks m₁) : m.OnlyPlain m₁ :=
  ⟨by rw [hmemory], hmap, hblocks, fun a _ => by rw [hmemory]⟩

theorem refl (m : Machine κ) : m.OnlyPlain m := of_memory rfl rfl (keepsBlocks_of_devices rfl)

theorem io (h : m.OnlyPlain m₁) : m₁.memory.io = m.memory.io := by rw [h.memory]

theorem ram (h : m.OnlyPlain m₁) : m₁.memory.ram = m.memory.ram := by rw [h.memory]

theorem layout (h : m.OnlyPlain m₁) : m.SameLayout m₁ := ⟨by rw [h.memory], h.map, h.blocks⟩

theorem trans (h : m.OnlyPlain m₁) (h' : m₁.OnlyPlain m₂) : m.OnlyPlain m₂ where
  memory := by rw [h'.memory, h.memory]
  map := h'.map.trans h.map
  blocks := h.blocks.trans h'.blocks
  words := by
    intro a ha
    have ha₁ : m₁.isPlain a = false := by rwa [isPlain, h.io, h.ram]
    rw [h'.words a ha₁, h.words a ha]

end OnlyPlain

theorem Consistent.of_onlyPlain (hm : m.Consistent) (h : m.OnlyPlain m') : m'.Consistent :=
  hm.of_sameLayout h.layout fun _ ha => h.io ▸ ha

variable [Console κ]

theorem load_onlyPlain {a w : Word} (h : load a m = .ok (w, m')) : m.OnlyPlain m' :=
  have hu := load_untouched h
  .of_memory hu.memory hu.map hu.blocks

/-- A store changes a word of ordinary memory or asks a device, and nothing else. -/
theorem store_onlyPlain {a v : Word} (h : store a v m = .ok ((), m')) : m.OnlyPlain m' := by
  have hs := store_stored h
  refine ⟨by rw [hs.memory], hs.map, hs.blocks, ?_⟩
  intro b hb
  rw [hs.memory]
  dsimp only
  split
  · rename_i ha
    refine Table.get_set_of_ne _ ?_ v
    rintro rfl
    rw [ha] at hb
    cases hb
  · rfl

/-- A program reaches ordinary memory only. -/
theorem routine_onlyPlain {α : Type} {r : Routine α} {x : α} (h : r.run m = .ok (x, m')) :
    m.OnlyPlain m' := by
  induction r generalizing m with
  | done x =>
    cases h
    exact .refl _
  | act o next ih =>
    obtain ⟨b, m₁, ho, hn⟩ := Routine.run_act_eq_ok.mp h
    refine .trans ?_ (ih b hn)
    cases o with
    | load a => exact load_onlyPlain ho
    | store a w => exact store_onlyPlain ho
    | look | change | warn | trace =>
      cases ho
      exact .of_memory rfl rfl (keepsBlocks_of_devices rfl)

theorem Executes.onlyPlain {trail : List (Machine κ)} (h : Executes m trail m') :
    m.OnlyPlain m' := by
  induction h with
  | nil m => exact .refl m
  | cons _ hstep _ ih => exact (routine_onlyPlain hstep).trans ih

/-- A run reaches what its instructions reach. -/
theorem run_onlyPlain {limit : BitVec 32} {budget : Nat} {c : StopCode}
    (h : run limit budget m = .ok (c, m')) : m.OnlyPlain m' := by
  obtain ⟨trail, m₁, htrail, -, -, hend⟩ := run_trail h
  rw [hend.eq_stopWith]
  have hstart : m.OnlyPlain (m.stopWith .running) :=
    .of_memory rfl rfl (keepsBlocks_of_devices rfl)
  exact (hstart.trans htrail.onlyPlain).trans (.of_memory rfl rfl (keepsBlocks_of_devices rfl))

/-! ## Histories with programs -/

/-- One thing that can happen to a machine: a request that is allowed, an instruction, a run, or
anything that leaves the memory, the map and the blocks of the devices as they are. -/
inductive Happens (allowed : Request → Prop) : Machine κ → Machine κ → Prop where
  | request {m m' : Machine κ} {r : Request} (hr : allowed r) (hdoes : r.Does m m') :
    Happens allowed m m'
  | execute {m m' : Machine κ} {w : Word} {c : StopCode} (h : execute w m = .ok (c, m')) :
    Happens allowed m m'
  | run {m m' : Machine κ} {limit : BitVec 32} {budget : Nat} {c : StopCode}
    (h : run limit budget m = .ok (c, m')) : Happens allowed m m'
  | elsewhere {m m' : Machine κ} (hmemory : m'.memory = m.memory) (hmap : m'.map = m.map)
    (hblocks : m.KeepsBlocks m') : Happens allowed m m'

/-- What happens to a machine from one moment to another. -/
abbrev Leads (allowed : Request → Prop) : Machine κ → Machine κ → Prop :=
  Relation.ReflTransGen (Happens allowed)

theorem Consistent.happens {allowed : Request → Prop} (hm : m.Consistent)
    (h : Happens allowed m m') : m'.Consistent := by
  cases h with
  | request _ hdoes => exact hm.change (change_of_does hm hdoes)
  | execute h => exact hm.of_onlyPlain (routine_onlyPlain h)
  | run h => exact hm.of_onlyPlain (run_onlyPlain h)
  | elsewhere hmemory hmap hblocks => exact hm.of_onlyPlain (.of_memory hmemory hmap hblocks)

/-- Whatever happens, the map and the marks agree. -/
theorem Consistent.leads {allowed : Request → Prop} (hm : m.Consistent)
    (h : Leads allowed m m') : m'.Consistent := by
  induction h with
  | refl => exact hm
  | tail _ hstep ih => exact ih.happens hstep

/-! ## While a device is installed -/

/-- `device` is installed as `d`, and under it is what was there in the machine `under`. -/
structure Sits (d : DeviceId) (device : Device) (under m : Machine κ) : Prop where
  consistent : m.Consistent
  size : m.memory.size = under.memory.size
  found : ∃ device', m.device? d = some device' ∧ device.SameBlock device'
  owner : ∀ a, m.map.owner? a = some d ↔ device.Covers a
  io : ∀ a, device.Covers a → m.memory.io.get a = true
  ram : ∀ a, device.Covers a → m.memory.ram.get a = under.memory.ram.get a
  words : ∀ a, device.Covers a → m.memory.words.get a = under.memory.words.get a

namespace Sits

variable {d : DeviceId} {device : Device} {under : Machine κ}

omit [Console κ]

/-- Right after it was installed, a device sits on what was there before. -/
theorem of_installs (hunder : under.Consistent) (h : Installs d device under m) :
    Sits d device under m where
  consistent := hunder.installed h.found (by rw [h.same]) (by rw [h.same]) h.count h.fit h.free
    h.map h.io
  size := by rw [h.same]
  found := by
    rw [h.same]
    exact ⟨device, h.found, rfl, rfl⟩
  owner := by
    intro a
    rw [h.map a]
    split
    · rename_i ha
      exact ⟨fun _ => ha, fun _ => rfl⟩
    · rename_i ha
      exact ⟨fun ho => absurd ho (hunder.owner_ne h.found h.count h.free a),
        fun hc => absurd hc ha⟩
  io := by
    intro a ha
    rw [h.io a, if_pos ha]
  ram := by
    intro a _
    rw [h.same]
  words := by
    intro a _
    rw [h.same]

/-- A program cannot reach what lies under a device. -/
theorem onlyPlain (hs : Sits d device under m) (h : m.OnlyPlain m') :
    Sits d device under m' where
  consistent := hs.consistent.of_onlyPlain h
  size := h.layout.size.trans hs.size
  found := by
    obtain ⟨device₁, hd₁, hbase, hcount⟩ := hs.found
    obtain ⟨device₂, hd₂, hbase', hcount'⟩ := h.blocks d device₁ hd₁
    exact ⟨device₂, hd₂, hbase'.trans hbase, hcount'.trans hcount⟩
  owner := by
    rw [h.map]
    exact hs.owner
  io := by
    rw [h.io]
    exact hs.io
  ram := by
    rw [h.ram]
    exact hs.ram
  words := by
    intro a ha
    have hio := hs.io a ha
    rw [h.words a (by rw [isPlain, hio, Bool.not_true, Bool.and_false]), hs.words a ha]

/-- Another device is not installed at any address of this one. -/
theorem install (hs : Sits d device under m) {e : DeviceId} {answer : Bool} (he : e ≠ d)
    (h : installDevice e m = .ok (answer, m')) : Sits d device under m' := by
  have hchange := hs.consistent.change (installDevice_change h)
  rcases installDevice_inv h with ⟨-, rfl⟩ | ⟨-, other, hi⟩
  · exact hs
  · have hapart : ∀ a, device.Covers a → ¬ other.Covers a := by
      intro a ha ho
      have howner := (hs.owner a).mpr ha
      rw [hi.free a ho] at howner
      cases howner
    rw [hi.same] at hchange ⊢
    refine ⟨hchange, hs.size, hs.found, ?_, ?_, hs.ram, hs.words⟩
    · intro a
      show m'.map.owner? a = some d ↔ _
      rw [hi.map a, ← hs.owner a]
      split
      · rename_i ho
        rw [hi.free a ho]
        simp [he]
      · exact Iff.rfl
    · intro a ha
      show m'.memory.io.get a = true
      rw [hi.io a, if_neg (hapart a ha), hs.io a ha]

/-- When another device is removed, nothing is taken from this one. -/
theorem remove (hs : Sits d device under m) {e : DeviceId} {answer : Bool} (he : e ≠ d)
    (h : removeDevice e m = .ok (answer, m')) : Sits d device under m' := by
  have hchange := hs.consistent.change (removeDevice_change hs.consistent h)
  rcases removeDevice_inv hs.consistent h with ⟨-, rfl⟩ | ⟨-, other, hr⟩
  · exact hs
  · have hne : ∀ a, device.Covers a → m.map.owner? a ≠ some e := by
      intro a ha ho
      rw [(hs.owner a).mpr ha] at ho
      exact he (Option.some.inj ho).symm
    rw [hr.same] at hchange ⊢
    refine ⟨hchange, hs.size, hs.found, ?_, ?_, hs.ram, hs.words⟩
    · intro a
      show m'.map.owner? a = some d ↔ _
      rw [hr.map a, ← hs.owner a]
      split
      · rename_i ho
        rw [ho]
        simp [he]
      · exact Iff.rfl
    · intro a ha
      show m'.memory.io.get a = true
      rw [hr.io a, if_neg (fun hc => hne a ha ((hr.block a).mpr hc)), hs.io a ha]

variable [Console κ]

/-- No request that spares the device can reach what lies under it. -/
theorem request (hs : Sits d device under m) {r : Request} (hr : r.Spares d)
    (h : r.Does m m') : Sits d device under m' := by
  cases r with
  | read a =>
    obtain ⟨w, hload⟩ := h
    exact hs.onlyPlain (load_onlyPlain hload)
  | write a w => exact hs.onlyPlain (store_onlyPlain h)
  | setBreak a on =>
    obtain ⟨memory, hmemory, rfl⟩ := h
    obtain ⟨-, rfl⟩ := Memory.guarded_inv hmemory
    exact hs.onlyPlain ⟨rfl, rfl, keepsBlocks_of_devices rfl, fun _ _ => rfl⟩
  | clearBreaks =>
    obtain rfl := h
    exact hs.onlyPlain ⟨rfl, rfl, keepsBlocks_of_devices rfl, fun _ _ => rfl⟩
  | install e =>
    obtain ⟨answer, hinstall⟩ := h
    exact hs.install hr hinstall
  | remove e =>
    obtain ⟨answer, hremove⟩ := h
    exact hs.remove hr hremove
  | setRam | setNonexistent | clearWords | loadImage | poke => cases hr

/-- The device sits where it was put for as long as it is spared. -/
theorem leads (hs : Sits d device under m) (h : Leads (Request.Spares d) m m') :
    Sits d device under m' := by
  induction h with
  | refl => exact hs
  | tail _ hstep ih =>
    cases hstep with
    | request hr hdoes => exact ih.request hr hdoes
    | execute h => exact ih.onlyPlain (routine_onlyPlain h)
    | run h => exact ih.onlyPlain (run_onlyPlain h)
    | elsewhere hmemory hmap hblocks => exact ih.onlyPlain (.of_memory hmemory hmap hblocks)

end Sits

/-! ## Removing it -/

omit [Console κ] in
theorem removeDevice_of_free {d : DeviceId} {device : Device} (hd : m.device? d = some device)
    (hfree : ∀ a, m.map.owner? a ≠ some d) : removeDevice d m = .ok (false, m) := by
  have hnone : m.map.lowest? d = none := by
    cases hfirst : m.map.lowest? d with
    | none => rfl
    | some first => exact absurd (DeviceMap.lowest?_inv hfirst).1 (hfree first)
  simp only [removeDevice, hd, hnone]

omit [Console κ] in
/-- The block of an installed device lies inside memory, so nothing is in the way of removing it. -/
theorem removeDevice_of_owner (hm : m.Consistent) {d : DeviceId} {a : Word}
    (ha : m.map.owner? a = some d) : ∃ m', removeDevice d m = .ok (true, m') := by
  obtain ⟨device, hd, hfit, hblock⟩ := hm.blocks a d ha
  obtain ⟨hlow, hhigh⟩ := (hblock a).mp ha
  have hsize := m.memory.size_le
  have hlast : (device.base + device.count - 1).toNat + 1 =
      device.base.toNat + device.count.toNat := by bv_omega
  have hrange : m.memory.checkRange device.base (device.base + device.count - 1) = .ok () := by
    refine if_pos ?_
    simp only [Memory.isValid, Bool.and_eq_true, decide_eq_true_eq, BitVec.le_def]
    omega
  simp only [removeDevice, hd, hm.lowest? ha hd, Memory.setIo, hrange]
  exact ⟨_, rfl⟩

/-- At the address, memory is as it was in the machine `before`, and no device has it. -/
structure Restored (before after : Machine κ) (a : Word) : Prop where
  isRam : ∃ ram, before.memory.isRam a = .ok ram ∧ after.memory.isRam a = .ok ram
  isIo : before.memory.isIo a = .ok false ∧ after.memory.isIo a = .ok false
  word : ∃ w, before.memory.peek a = .ok w ∧ after.memory.peek a = .ok w
  owner : after.map.owner? a = none

omit [Console κ] in
/-- Under a device that is removed, memory is found as it was before the device was installed. -/
theorem Sits.restored {d : DeviceId} {device : Device} {under : Machine κ}
    (hs : Sits d device under m) (hunder : under.Consistent)
    (hfit : device.base.toNat + device.count.toNat ≤ under.memory.size)
    (hfree : ∀ a, device.Covers a → under.map.owner? a = none) {device' : Device}
    (hr : Removes d device' m m') {a : Word} (ha : device.Covers a) : Restored under m' a := by
  have howner := (hs.owner a).mpr ha
  have hvalid : under.memory.isValid a = true := decide_eq_true (Nat.lt_of_lt_of_le ha.2 hfit)
  have hvalid' : m'.memory.isValid a = true := by
    rw [hr.same, ← hvalid]
    exact congrArg (fun n => decide (a.toNat < n)) hs.size
  have hio : under.memory.io.get a = false := by
    rw [Bool.eq_false_iff]
    intro hmarked
    obtain ⟨e, he⟩ := hunder.io a hmarked
    rw [hfree a ha] at he
    cases he
  have hio' : m'.memory.io.get a = false := by
    rw [hr.io a, if_pos ((hr.block a).mp howner)]
  have hram : m'.memory.ram.get a = under.memory.ram.get a := by
    rw [hr.same]
    exact hs.ram a ha
  have hword : m'.memory.words.get a = under.memory.words.get a := by
    rw [hr.same]
    exact hs.words a ha
  refine ⟨⟨under.memory.ram.get a, ?_, ?_⟩, ⟨?_, ?_⟩, ⟨under.memory.words.get a, ?_, ?_⟩, ?_⟩
  · rw [Memory.isRam, Memory.guarded_of_valid hvalid, hio, Bool.not_false, Bool.and_true]
  · rw [Memory.isRam, Memory.guarded_of_valid hvalid', hio', hram, Bool.not_false, Bool.and_true]
  · rw [Memory.isIo, Memory.guarded_of_valid hvalid, hio]
  · rw [Memory.isIo, Memory.guarded_of_valid hvalid', hio']
  · rw [Memory.peek, Memory.guarded_of_valid hvalid]
  · rw [Memory.peek, Memory.guarded_of_valid hvalid', hword]
  · rw [hr.map a, if_pos howner]

/-- A device can be installed, used in any way together with others, and removed again: the memory
under it is then as it was. If it cannot be installed, nothing changes. -/
theorem removeDevice_restores {size : Nat} {m₀ m m₁ : Machine κ} {d : DeviceId} {answer : Bool}
    (hnew : Memory.new? size = .ok m₀.memory) (hmap : m₀.map = .empty)
    (hreached : Leads (fun _ => True) m₀ m)
    (hinstall : installDevice d m = .ok (answer, m₁)) :
    (answer = false → m₁ = m) ∧
    (answer = true → ∃ device, m.device? d = some device ∧ 0 < device.count.toNat ∧
      device.base.toNat + device.count.toNat ≤ m.memory.size ∧
      ∀ m₂, Leads (Request.Spares d) m₁ m₂ → ∃ m₃, removeDevice d m₂ = .ok (true, m₃) ∧
        (∀ a, device.Covers a → Restored m m₃ a) ∧ removeDevice d m₃ = .ok (false, m₃)) := by
  have hm : m.Consistent := (Reached.new hnew hmap).consistent.leads hreached
  rcases installDevice_inv hinstall with ⟨rfl, hsame⟩ | ⟨rfl, device, hi⟩
  · exact ⟨fun _ => hsame, nofun⟩
  · refine ⟨nofun, fun _ => ⟨device, hi.found, hi.count, hi.fit, ?_⟩⟩
    intro m₂ hused
    have hs := (Sits.of_installs hm hi).leads hused
    have hcount := hi.count
    have hfirst : device.Covers device.base := ⟨Nat.le_refl _, by omega⟩
    obtain ⟨m₃, hremove⟩ := removeDevice_of_owner hs.consistent ((hs.owner _).mpr hfirst)
    rcases removeDevice_inv hs.consistent hremove with ⟨h, -⟩ | ⟨-, device', hr⟩
    · cases h
    · refine ⟨m₃, hremove, fun a ha => hs.restored hm hi.fit hi.free hr ha, ?_⟩
      have hfound : m₃.device? d = some device' := by
        rw [hr.same]
        exact hr.found
      refine removeDevice_of_free hfound fun a ha => ?_
      rw [hr.map a] at ha
      split at ha
      · cases ha
      · rename_i hother
        exact hother ha

/-- A terminal on top of ordinary memory with a word at the address of its display: a character is
shown, and then the word is there again. -/
theorem removeDevice_restores_display :
    ∃ m m₁ m₂ m₃ : Machine Script, m.memory.peek 0xFE06 = .ok 0xBEEF ∧
      installDevice 0 m = .ok (true, m₁) ∧ store 0xFE06 0x41 m₁ = .ok ((), m₂) ∧
      removeDevice 0 m₂ = .ok (true, m₃) ∧ m₂.host.console.output = #[0x41] ∧
      m₃.memory.isRam 0xFE06 = .ok true ∧ m₃.memory.peek 0xFE06 = .ok 0xBEEF := by
  let blank : Memory := { Memory.full with ram := .fill false }
  let ordinary : Memory := { blank with
    ram := blank.ram.fillRange 0 0xFFFF true, io := blank.io.fillRange 0 0xFFFF false }
  let marked : Memory := { ordinary with words := ordinary.words.set 0xFE06 0xBEEF }
  let m₀ : Machine Script := { sample [] [] with memory := blank, map := .empty }
  let m : Machine Script := { m₀ with memory := marked }
  have hnew : Memory.new? 65536 = .ok blank := rfl
  have hram : m₀.memory.setRam 0 0xFFFF = .ok ordinary := rfl
  have hpoke : ordinary.poke 0xFE06 0xBEEF = .ok marked := rfl
  have hreached : Leads (fun _ => True) m₀ m := by
    refine .tail (.single (.request (r := .setRam 0 0xFFFF) trivial ⟨ordinary, hram, rfl⟩)) ?_
    exact .request (r := .poke 0xFE06 0xBEEF) trivial ⟨marked, hpoke, rfl⟩
  have hinstall := eq_ok_of_result (x := installDevice 0 m) (a := true) m (by decide +kernel)
  let m₁ := after (installDevice 0 m) m
  have hstore := eq_ok_of_result (x := store 0xFE06 0x41 m₁) (a := ()) m₁ (by decide +kernel)
  let m₂ := after (store 0xFE06 0x41 m₁) m₁
  obtain ⟨device, hd, -, -, hremoved⟩ :=
    (removeDevice_restores hnew rfl hreached hinstall).2 rfl
  obtain ⟨m₃, hremove, hrestored, -⟩ :=
    hremoved m₂ (.single (.request (r := .write 0xFE06 0x41) trivial hstore))
  have hcovers : device.Covers 0xFE06 := by
    obtain rfl : device = .newTerminal (Text.ofString "CON") true := (Option.some.inj hd).symm
    decide
  obtain ⟨⟨ram, hbefore, hafter⟩, -, ⟨w, hw, hw'⟩, -⟩ := hrestored 0xFE06 hcovers
  have hword : m.memory.peek 0xFE06 = .ok 0xBEEF := by cbv
  have hplain : m.memory.isRam 0xFE06 = .ok true := by cbv
  refine ⟨m, m₁, m₂, m₃, hword, hinstall, hstore, hremove, by decide +kernel, ?_, ?_⟩
  · rw [hafter, ← hbefore, hplain]
  · rw [hw', ← hw, hword]

end Machine

end LittleComputer
