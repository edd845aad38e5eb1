import Mathlib.Data.List.Nodup
import LittleComputer.Proofs.MemoryMap

/-!
# Blocks of devices

The map of devices is a partial function from addresses to devices. A block is given as a whole or
not at all, also one that runs past the top of the address space, and a device may be given several.
What it is given is taken from it all at once.
-/

namespace LittleComputer

namespace DeviceMap

/-! ## Blocks -/

theorem mem_block_iff {first count a : Word} :
    a ∈ block first count ↔ ∃ i < count.toNat, first + BitVec.ofNat 16 i = a := by
  simp [block]

theorem length_block (first count : Word) : (block first count).length = count.toNat := by
  simp [block]

/-- A block is shorter than the address space, so that it does not meet itself. -/
theorem offset_injective (first : Word) {i j : Nat} (hi : i < 65536) (hj : j < 65536)
    (h : first + BitVec.ofNat 16 i = first + BitVec.ofNat 16 j) : i = j := by
  have hnat := congrArg BitVec.toNat (BitVec.add_right_inj first |>.mp h)
  simp only [BitVec.toNat_ofNat] at hnat
  omega

/-- A block counts no address twice, although it may wrap around. -/
theorem nodup_block (first count : Word) : (block first count).Nodup := by
  refine List.Nodup.map_on ?_ List.nodup_range
  intro i hi j hj h
  have hcount := count.isLt
  rw [List.mem_range] at hi hj
  exact offset_injective first (by omega) (by omega) h

/-! ## Counting -/

/-- The whole address space. -/
def addresses : List Word := (List.range 65536).map (BitVec.ofNat 16)

theorem mem_addresses (a : Word) : a ∈ addresses := by
  refine List.mem_map.mpr ⟨a.toNat, List.mem_range.mpr a.isLt, ?_⟩
  simp

theorem nodup_addresses : addresses.Nodup := by
  refine List.Nodup.map_on ?_ List.nodup_range
  intro i hi j hj h
  rw [List.mem_range] at hi hj
  exact offset_injective 0 hi hj (congrArg (0 + ·) h)

/-- The count of a map is the number of its addresses that have an owner. -/
theorem count_eq (m : DeviceMap) :
    m.count = addresses.countP fun a => (m.owner? a).isSome := by
  rw [count, Table.count_eq_countP, addresses, List.countP_map]
  refine List.countP_congr fun i hi => ?_
  have hmod : i % 65536 = i := Nat.mod_eq_of_lt (List.mem_range.mp hi)
  simp [owner?, Table.get, hmod]

theorem count_congr {m m' : DeviceMap} (h : ∀ a, m'.owner? a = m.owner? a) :
    m'.count = m.count := by
  simp only [count_eq, h]

/-- The addresses of a block that was free add to those that had an owner. -/
theorem count_of_given {m m' : DeviceMap} {d : DeviceId} {first count : Word}
    (hfree : ∀ a ∈ block first count, m.owner? a = none)
    (howner : ∀ a, m'.owner? a = if a ∈ block first count then some d else m.owner? a) :
    m'.count = m.count + count.toNat := by
  have hblock : (addresses.countP fun a => decide (a ∈ block first count)) = count.toNat := by
    rw [List.countP_eq_length_filter, ← length_block first count]
    refine List.Perm.length_eq ?_
    rw [List.perm_ext_iff_of_nodup (nodup_addresses.filter _) (nodup_block first count)]
    intro a
    simp [mem_addresses]
  rw [← hblock, count_eq, count_eq]
  generalize addresses = l
  induction l with
  | nil => rfl
  | cons a rest ih =>
    simp only [List.countP_cons, howner a, ih]
    by_cases ha : a ∈ block first count
    · simp [ha, hfree a ha]
      omega
    · simp [ha]
      omega

/-! ## Installing and removing -/

theorem isTaken_iff {m : DeviceMap} {first count : Word} :
    m.isTaken first count = true ↔
      ∃ i < count.toNat, ∃ e, m.owner? (first + BitVec.ofNat 16 i) = some e := by
  simp [isTaken, block, Option.isSome_iff_exists]

theorem lowest?_eq_none_iff {m : DeviceMap} {d : DeviceId} :
    m.lowest? d = none ↔ ∀ a, m.owner? a ≠ some d := by
  refine ⟨lowest?_none, fun h => ?_⟩
  cases hfirst : m.lowest? d with
  | none => rfl
  | some a => exact absurd (lowest?_inv hfirst).1 (h a)

theorem lowest?_eq_some_iff {m : DeviceMap} {d : DeviceId} {a : Word} :
    m.lowest? d = some a ↔ m.owner? a = some d ∧ ∀ b, m.owner? b = some d → a ≤ b := by
  refine ⟨lowest?_inv, fun ⟨ha, hmin⟩ => ?_⟩
  cases hfirst : m.lowest? d with
  | none => exact absurd ha (lowest?_none hfirst a)
  | some b =>
    obtain ⟨hb, hb'⟩ := lowest?_inv hfirst
    exact congrArg some (BitVec.le_antisymm (hb' a ha) (hmin b hb))

/-- `m'` is `m` and a block of `count` addresses for `d`, which can be taken from it again. -/
structure Gives (m : DeviceMap) (d : DeviceId) (first count : Word) (m' : DeviceMap) : Prop where
  given : ∀ i < count.toNat, m'.owner? (first + BitVec.ofNat 16 i) = some d
  kept : ∀ a, (∀ i < count.toNat, first + BitVec.ofNat 16 i ≠ a) → m'.owner? a = m.owner? a
  distinct : ∀ i < count.toNat, ∀ j < count.toNat,
    first + BitVec.ofNat 16 i = first + BitVec.ofNat 16 j → i = j
  count : m'.count = m.count + count.toNat
  undone : (∀ a, m.owner? a ≠ some d) →
    (∀ a, (m'.remove d).2.owner? a = m.owner? a) ∧ (m'.remove d).2.count = m.count

/-- An installation that succeeds gives the whole range to the device and touches nothing else. -/
theorem install_gives {m m' : DeviceMap} {d : DeviceId} {first count : Word}
    (h : m.install d first count = .ok (true, m')) : m.Gives d first count m' := by
  obtain ⟨-, hfree, howner⟩ := install_inv h
  have hundone (hnew : ∀ a, m.owner? a ≠ some d) (a : Word) :
      (m'.remove d).2.owner? a = m.owner? a := by
    rw [owner?_remove, howner]
    by_cases ha : a ∈ block first count
    · simp [ha, hfree a ha]
    · simp [ha, hnew a]
  refine ⟨?_, ?_, ?_, count_of_given hfree howner,
    fun hnew => ⟨hundone hnew, count_congr (hundone hnew)⟩⟩
  · intro i hi
    rw [howner, if_pos (mem_block_iff.mpr ⟨i, hi, rfl⟩)]
  · intro a ha
    rw [howner, if_neg]
    intro hmem
    obtain ⟨i, hi, rfl⟩ := mem_block_iff.mp hmem
    exact ha i hi rfl
  · intro i hi j hj
    have hcount := count.isLt
    exact offset_injective first (by omega) (by omega)

/-- What `d` had in `m` is gone in `m'`, and `answer` says whether there was any. -/
structure Takes (m : DeviceMap) (d : DeviceId) (answer : Bool) (m' : DeviceMap) : Prop where
  taken : ∀ a, m.owner? a = some d → m'.owner? a = none
  kept : ∀ a, m.owner? a ≠ some d → m'.owner? a = m.owner? a
  answer : answer = true ↔ ∃ a, m.owner? a = some d

/-- A removal takes every address of the device away, and nothing else. -/
theorem remove_takes (m : DeviceMap) (d : DeviceId) :
    m.Takes d (m.remove d).1 (m.remove d).2 := by
  refine ⟨?_, ?_, ?_⟩
  · intro a ha
    rw [owner?_remove, if_pos ha]
  · intro a ha
    rw [owner?_remove, if_neg ha]
  · show (m.lowest? d).isSome = true ↔ _
    rw [← Option.ne_none_iff_isSome, ne_eq, lowest?_eq_none_iff]
    simp

/-- A block is taken if one of its addresses is. A block that is taken is refused and nothing
changes; any other is given to the device, address for address, whether it wraps around or not.
Removing a device takes from it all that it was given, and the lowest address of a device is the
lowest that it owns. -/
theorem install_or_refuse (m : DeviceMap) (d : DeviceId) (first count : Word) (hcount : count ≠ 0) :
    (m.isTaken first count = true ↔
      ∃ i < count.toNat, ∃ e, m.owner? (first + BitVec.ofNat 16 i) = some e) ∧
    (m.isTaken first count = true → m.install d first count = .ok (false, m)) ∧
    (m.isTaken first count = false →
      ∃ m', m.install d first count = .ok (true, m') ∧ m.Gives d first count m') ∧
    m.Takes d (m.remove d).1 (m.remove d).2 ∧
    (m.lowest? d = none ↔ ∀ a, m.owner? a ≠ some d) ∧
    (∀ a, m.lowest? d = some a ↔ m.owner? a = some d ∧ ∀ b, m.owner? b = some d → a ≤ b) := by
  refine ⟨isTaken_iff, ?_, ?_, remove_takes m d, lowest?_eq_none_iff, fun a => lowest?_eq_some_iff⟩
  · intro htaken
    rw [install, if_neg hcount, if_pos htaken]
  · intro hfree
    have hinstall : m.install d first count =
        .ok (true, (block first count).foldl (assign d) m) := by
      rw [install, if_neg hcount, if_neg (by simp [hfree])]
    exact ⟨_, hinstall, install_gives hinstall⟩

/-- Two addresses at the top of the address space and at its bottom. -/
theorem install_or_refuse_wrapping :
    (2 : Word) ≠ 0 ∧ ∃ m', empty.install 7 0xFFFF 2 = .ok (true, m') ∧ m'.owner? 0 = some 7 ∧
      m'.count = 2 ∧ ∀ a, (m'.remove 7).2.owner? a = none := by
  have hcount : (2 : Word) ≠ 0 := by decide
  obtain ⟨-, -, hfree, -⟩ := install_or_refuse empty 7 0xFFFF 2 hcount
  obtain ⟨m', hinstall, hgives⟩ := hfree (by decide)
  have hempty (a : Word) : empty.owner? a = none := Table.get_fill none a
  have hgone := (hgives.undone fun a => by simp [hempty a]).1
  exact ⟨hcount, m', hinstall, hgives.given 1 (by decide), hgives.count,
    fun a => (hgone a).trans (hempty a)⟩

end DeviceMap

end LittleComputer
