import Mathlib.Logic.Basic
import LittleComputer.Proofs.Access
import LittleComputer.Proofs.Sample

/-!
# What loading an image stores

An image is read from a file byte by byte, but what it stores can be told from the bytes as a whole:
the word at the origin is the one in the third and fourth byte, and so on, up to the last complete
word or the end of memory. No other word changes, and nothing else in the memory does.
-/

namespace LittleComputer

/-! ## Words in bytes -/

theorem Word.toNat_ofBytes (high low : Byte) :
    (Word.ofBytes high low).toNat = 256 * high.toNat + low.toNat := by
  have hlow : low.toNat < 2 ^ 8 := low.isLt
  rw [Word.ofBytes, BitVec.toNat_append, ← Nat.shiftLeft_add_eq_or_of_lt hlow,
    Nat.shiftLeft_eq, Nat.mul_comm]

namespace Image

/-- The number in two consecutive bytes, the first of them at the given index. -/
def bigEndian (bytes : List Byte) (i : Nat) : Nat :=
  256 * (bytes.getD i 0).toNat + (bytes.getD (i + 1) 0).toNat

theorem length_wordsOf (bytes : List Byte) : (wordsOf bytes).1.length = bytes.length / 2 := by
  fun_induction wordsOf bytes with
  | case1 high low rest words odd hrest ih =>
    rw [hrest] at ih
    simp only [List.length_cons] at ih ⊢
    omega
  | case2 b => simp
  | case3 => rfl

theorem getElem?_wordsOf (bytes : List Byte) {i : Nat} (hi : i < bytes.length / 2) :
    ∃ w, (wordsOf bytes).1[i]? = some w ∧ w.toNat = bigEndian bytes (2 * i) := by
  fun_induction wordsOf bytes generalizing i with
  | case1 high low rest words odd hrest ih =>
    rw [hrest] at ih
    cases i with
    | zero => exact ⟨_, rfl, Word.toNat_ofBytes high low⟩
    | succ i =>
      obtain ⟨w, hw, hn⟩ := ih (i := i) (by simp only [List.length_cons] at hi; omega)
      exact ⟨w, hw, hn⟩
  | case2 b => simp at hi
  | case3 => simp at hi

theorem ofBytes?_of_short {bytes : List Byte} (h : bytes.length < 2) : ofBytes? bytes = none := by
  rcases bytes with _ | ⟨high, _ | ⟨low, rest⟩⟩
  · rfl
  · rfl
  · rw [List.length_cons, List.length_cons] at h
    omega

/-- The words of an image by their place in the bytes it is read from. -/
theorem ofBytes?_of_long {bytes : List Byte} (h : 2 ≤ bytes.length) :
    ∃ image, ofBytes? bytes = some image ∧ image.origin.toNat = bigEndian bytes 0 ∧
      image.words.length = (bytes.length - 2) / 2 ∧
      ∀ i < image.words.length, ∃ w, image.words[i]? = some w ∧
        w.toNat = bigEndian bytes (2 * (i + 1)) := by
  rcases bytes with _ | ⟨high, _ | ⟨low, rest⟩⟩
  · simp at h
  · simp at h
  · refine ⟨_, rfl, Word.toNat_ofBytes high low, length_wordsOf rest, ?_⟩
    intro i hi
    rw [length_wordsOf] at hi
    exact getElem?_wordsOf rest hi

end Image

/-! ## Words in memory -/

/-- After words were stored from `a` on, each of them is at its distance from `a`. -/
theorem Memory.get_place (m : Memory) (a : Word) {words : List Word}
    (hlen : words.length ≤ 65536) (b : Word) :
    (m.place a words).words.get b = (words[(b - a).toNat]?).getD (m.words.get b) := by
  show (place.go m.words a words).get b = _
  generalize m.words = table
  induction words generalizing table a with
  | nil => rfl
  | cons w rest ih =>
    rw [List.length_cons] at hlen
    rw [place.go, ih (a + 1) (by omega) (table.set a w), Table.get_set]
    by_cases hb : a = b
    · -- The rest has gone all around the address space, but is too short to come back to `a`.
      subst hb
      have hfar : (a - (a + 1)).toNat = 65535 := by bv_omega
      have hzero : (a - a).toNat = 0 := by bv_omega
      rw [hfar, hzero, List.getElem?_eq_none (by omega), if_pos rfl]
      rfl
    · have hnext : (b - a).toNat = (b - (a + 1)).toNat + 1 := by bv_omega
      rw [hnext, List.getElem?_cons_succ, if_neg hb]

theorem Memory.get_place_at (m : Memory) (a : Word) {words : List Word} {i : Nat} {w : Word}
    (hlen : a.toNat + words.length ≤ 65536) (hw : words[i]? = some w) :
    (m.place a words).words.get (BitVec.ofNat 16 (a.toNat + i)) = w := by
  obtain ⟨hi, -⟩ := List.getElem?_eq_some_iff.mp hw
  have hplace : (BitVec.ofNat 16 (a.toNat + i) - a).toNat = i := by bv_omega
  rw [m.get_place a (by omega), hplace, hw, Option.getD_some]

theorem Memory.get_place_of_ne (m : Memory) (a : Word) {words : List Word} {b : Word}
    (hlen : a.toNat + words.length ≤ 65536) (hb : ∀ i < words.length, b.toNat ≠ a.toNat + i) :
    (m.place a words).words.get b = m.words.get b := by
  -- Counted from `a`, an address below it lies behind the end of the address space.
  have hfar : words.length ≤ (b - a).toNat := by
    apply Nat.le_of_not_lt
    intro hnear
    refine hb (b - a).toNat hnear ?_
    bv_omega
  rw [m.get_place a (by omega), List.getElem?_eq_none hfar, Option.getD_none]

/-! ## Loading -/

namespace Machine

variable {κ : Type} [Console κ]

section
variable {α : Type}

/-- The action gives the answer `a` and does nothing but report. -/
def Reports (x : Action κ α) (a : α) : Prop := ∀ m, ∃ host, x m = .ok (a, { m with host })

omit [Console κ]

theorem reports_pure (a : α) : Reports (pure a : Action κ α) a := fun m => ⟨m.host, rfl⟩

theorem Reports.first {x : Action κ α} {a : α} (h : Reports x a) (f : Host κ → Host κ) :
    Reports (do modifyHost f; x) a := by
  intro m
  obtain ⟨host, hx⟩ := h { m with host := f m.host }
  exact ⟨host, hx⟩

/-- One of two messages, or none, can come first. -/
theorem Reports.warned {x : Action κ α} {a : α} (h : Reports x a) (c d : Prop) [Decidable c]
    [Decidable d] (f : Machine κ → Host κ → Host κ) (g : Host κ → Host κ) :
    Reports (if c then do modifyHost (f (← get)); x
      else if d then do modifyHost g; x else x) a := by
  split
  · exact fun m => h.first (f m) m
  · split
    · exact h.first g
    · exact h

end

/-- Whatever is logged about it, an image is stored, and the answer counts its words unless there
are none or the file ended in a failure. -/
theorem placeImage_run (name : Text) (image : Image) (failure : Option FileError) (m : Machine κ)
    {stored : Nat} (hstored : image.fitting m.memory.size = stored) :
    ∃ host, placeImage name image failure m =
      .ok (⟨if stored = 0 ∨ (failure ≠ none ∧ image.words.length ≤ stored) then none
          else some stored, some image.origin⟩,
        { m with
          memory := m.memory.place image.origin (image.words.take stored)
          host }) := by
  simp only [placeImage, get_bind, modify_bind, hstored]
  -- The words are stored by now. All that follows is a choice between messages.
  refine (?_ : @Reports κ LoadResult _ _) { m with
    memory := m.memory.place image.origin (image.words.take stored) }
  refine Reports.warned ?_ _ _ _ _
  by_cases htrunc : stored < image.words.length
  · rw [if_pos htrunc]
    dsimp only
    by_cases hzero : stored = 0
    · rw [if_pos hzero, if_pos (.inl hzero)]
      exact (reports_pure _).first _
    · rw [if_neg hzero, if_neg (by omega)]
      exact (reports_pure _).first _
  · rw [if_neg htrunc]
    cases failure with
    | some e =>
      dsimp only
      rw [if_pos (Or.inr ⟨Option.some_ne_none e, Nat.le_of_not_lt htrunc⟩)]
      exact (reports_pure _).first _
    | none =>
      dsimp only
      by_cases hzero : stored = 0
      · rw [if_pos hzero, if_pos (.inl hzero)]
        exact (reports_pure _).first _
      · rw [if_neg hzero, if_neg (by simp [hzero])]
        exact (reports_pure _).first _

/-- Loading a file stores exactly its words and nothing else, and it always comes to an end. -/
theorem loadImage_stores (m : Machine κ) {name : Text} {file : Contents}
    (hread : m.host.files.read name = .ok file) :
    ∃ result m', loadImage name m = .ok (result, m') ∧
      m' = { m with memory := { m.memory with words := m'.memory.words }, host := m'.host } ∧
      (file.bytes.size < 2 → result = ⟨none, none⟩ ∧ m'.memory = m.memory) ∧
      (2 ≤ file.bytes.size → ∃ o n k,
        o = Image.bigEndian file.bytes.toList 0 ∧ n = (file.bytes.size - 2) / 2 ∧
        k = min n (m.memory.size - o) ∧
        result.origin = some (BitVec.ofNat 16 o) ∧ o < 65536 ∧
        (∀ i < k, o + i < m.memory.size ∧
          (m'.memory.words.get (BitVec.ofNat 16 (o + i))).toNat =
            Image.bigEndian file.bytes.toList (2 * (i + 1))) ∧
        (∀ a : Word, (∀ i < k, a.toNat ≠ o + i) →
          m'.memory.words.get a = m.memory.words.get a) ∧
        result.stored =
          if k = 0 ∨ (file.failure ≠ none ∧ (n : Int) ≤ m.memory.size - o) then none
          else some k) := by
  rw [loadImage, get_bind, hread, ← Array.length_toList]
  dsimp only
  by_cases hshort : file.bytes.toList.length < 2
  · rw [Image.ofBytes?_of_short hshort]
    exact ⟨_, _, rfl, rfl, fun _ => ⟨rfl, rfl⟩, fun hlong => absurd hshort (Nat.not_lt.mpr hlong)⟩
  · obtain ⟨image, himage, horigin, hlen, hwords⟩ :=
      Image.ofBytes?_of_long (Nat.le_of_not_lt hshort)
    have hfit : image.fitting m.memory.size =
        min ((file.bytes.toList.length - 2) / 2) (m.memory.size - image.origin.toNat) := by
      rw [Image.fitting, hlen]
    have hsize := m.memory.size_le
    generalize hk : image.fitting m.memory.size = k at hfit
    obtain ⟨host, hplace⟩ := placeImage_run name image file.failure m hk
    have htake : (image.words.take k).length = k := by
      rw [List.length_take, hlen]
      omega
    rw [himage]
    refine ⟨_, _, hplace, rfl, fun h => absurd h hshort, fun _ => ?_⟩
    rw [← horigin, ← hlen]
    rw [← hlen] at hfit
    refine ⟨_, _, k, rfl, rfl, hfit, ?_, image.origin.isLt, ?_, ?_, ?_⟩
    · rw [BitVec.ofNat_toNat, BitVec.setWidth_eq]
    · intro i hi
      obtain ⟨w, hw, hvalue⟩ := hwords i (by omega)
      refine ⟨by omega, ?_⟩
      rw [Memory.get_place_at _ _ (by omega) ((List.getElem?_take_of_lt hi).trans hw), hvalue]
    · intro a ha
      exact Memory.get_place_of_ne _ _ (by omega) (by rwa [htake])
    · refine if_congr ?_ rfl rfl
      constructor
      · rintro (hzero | ⟨hfailure, hle⟩)
        · exact .inl hzero
        · by_cases hzero : k = 0
          · exact .inl hzero
          · exact .inr ⟨hfailure, by omega⟩
      · rintro (hzero | ⟨hfailure, hle⟩)
        · exact .inl hzero
        · exact .inr ⟨hfailure, by omega⟩

/-- Three words that begin two words below the end of memory, in a file that cannot be read any
further: the third word is dropped, and the failure behind it is never met. -/
theorem loadImage_stores_top :
    ∃ (m : Machine Script) (result : LoadResult) (m' : Machine Script),
      m.host.files.read "top.obj" =
        .ok ⟨#[0xFF, 0xFE, 0x12, 0x34, 0x56, 0x78, 0x9A, 0xBC], some .inputOutput⟩ ∧
      loadImage "top.obj" m = .ok (result, m') ∧ result.stored = some 2 ∧
      (m'.memory.words.get 0xFFFE).toNat = 0x1234 ∧ (m'.memory.words.get 0xFFFF).toNat = 0x5678 ∧
      m'.memory.words.get 0 = m.memory.words.get 0 := by
  let file : Contents := ⟨#[0xFF, 0xFE, 0x12, 0x34, 0x56, 0x78, 0x9A, 0xBC], some .inputOutput⟩
  let files : FileStore := { FileStore.empty [] with files := [([Text.ofString "top.obj"], file)] }
  let m : Machine Script := { sample [] [] with host := .new (.ofEntries [] 0) files default }
  have hread : m.host.files.read "top.obj" = .ok file := by rfl
  obtain ⟨result, m', hload, -, -, hlong⟩ := loadImage_stores m hread
  obtain ⟨o, n, k, ho, hn, hk, -, -, hwords, hrest, hstored⟩ := hlong (by decide)
  obtain rfl : o = 0xFFFE := ho
  obtain rfl : n = 3 := hn.trans (by decide)
  have hsize : m.memory.size = 65536 := rfl
  obtain rfl : k = 2 := by
    rw [hk, hsize]
    rfl
  rw [if_neg (by rintro (h | ⟨-, h⟩) <;> omega)] at hstored
  have hfirst : Image.bigEndian file.bytes.toList 2 = 0x1234 := by decide
  have hsecond : Image.bigEndian file.bytes.toList 4 = 0x5678 := by decide
  refine ⟨m, result, m', hread, hload, hstored, (hwords 0 (by decide)).2.trans hfirst,
    (hwords 1 (by decide)).2.trans hsecond, hrest 0 ?_⟩
  intro i _ hi
  have hzero : (0 : Word).toNat = 0 := rfl
  omega

end Machine

end LittleComputer
