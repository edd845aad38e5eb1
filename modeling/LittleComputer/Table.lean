import LittleComputer.Word

/-!
# Tables

A table assigns a value to every `n` bit index. It is a binary tree that splits on the index bits,
the most significant one first, and a whole subtree with one value is a single leaf, so that a
large table with few distinct blocks stays small and an old version stays readable after an update.

What a table is, is its reading function `get`. The lemmas say what every other operation does to
it: `get_set`, `get_fillRange`, `get_map` and `get_zipWith`. Counting and searching go by the
reading function too: `count_eq_countP`, `get_of_first?` and `get_of_first?_none`.
-/

namespace LittleComputer

/-- A value for every index of `n` bits. -/
inductive Table (α : Type) : Nat → Type where
  /-- The same value at every index. -/
  | fill {n : Nat} (a : α) : Table α n
  /-- One table for the indices with a zero in front and one for those with a one. -/
  | node {n : Nat} (low high : Table α n) : Table α (n + 1)

namespace Table

variable {α β γ : Type}

/-- The half of a table with a zero in front of the index. -/
def low {n : Nat} : Table α (n + 1) → Table α n
  | fill a => fill a
  | node l _ => l

/-- The half of a table with a one in front of the index. -/
def high {n : Nat} : Table α (n + 1) → Table α n
  | fill a => fill a
  | node _ h => h

/-- The value at an index, of which only the last `n` bits count. -/
def lookup : {n : Nat} → Table α n → Nat → α
  | _, fill a, _ => a
  | n + 1, node l h, i => if i.testBit n then h.lookup i else l.lookup i

/-- The table with another value at one index, of which only the last `n` bits count. -/
def update : {n : Nat} → Table α n → Nat → α → Table α n
  | 0, _, _, v => fill v
  | n + 1, fill a, i, v =>
    if i.testBit n then node (fill a) (update (fill a : Table α n) i v)
    else node (update (fill a : Table α n) i v) (fill a)
  | n + 1, node l h, i, v =>
    if i.testBit n then node l (h.update i v) else node (l.update i v) h

def get {n : Nat} (t : Table α n) (i : BitVec n) : α := t.lookup i.toNat

def set {n : Nat} (t : Table α n) (i : BitVec n) (v : α) : Table α n := t.update i.toNat v

/-- Gives the value `v` to every index from `first` to `last`, where the first index of the table
counts as `base`. -/
def fillBetween : {n : Nat} → Table α n → (base first last : Nat) → α → Table α n
  | 0, t, base, first, last, v => if first ≤ base ∧ base ≤ last then fill v else t
  | n + 1, t, base, first, last, v =>
    if last < base ∨ base + 1 <<< (n + 1) ≤ first then t
    else if first ≤ base ∧ base + 1 <<< (n + 1) ≤ last + 1 then fill v
    else node (t.low.fillBetween base first last v)
      (t.high.fillBetween (base + 1 <<< n) first last v)

/-- Gives the value `v` to every index from `first` to `last`, both included. -/
def fillRange {n : Nat} (t : Table α n) (first last : BitVec n) (v : α) : Table α n :=
  t.fillBetween 0 first.toNat last.toNat v

def map (f : α → β) {n : Nat} : Table α n → Table β n
  | fill a => fill (f a)
  | node l h => node (l.map f) (h.map f)

/-- Combines the values of two tables index by index. -/
def zipWith (f : α → β → γ) : {n : Nat} → Table α n → Table β n → Table γ n
  | _, fill a, fill b => fill (f a b)
  | _ + 1, t, u => node (zipWith f t.low u.low) (zipWith f t.high u.high)

/-- The number of indices whose value satisfies `p`. -/
def count (p : α → Bool) : {n : Nat} → Table α n → Nat
  | n, fill a => if p a then 1 <<< n else 0
  | _, node l h => l.count p + h.count p

/-- The least index whose value satisfies `p`. -/
def first? (p : α → Bool) : {n : Nat} → Table α n → Option Nat
  | _, fill a => if p a then some 0 else none
  | n + 1, node l h => (l.first? p).or ((h.first? p).map (· + 1 <<< n))

/-- A stretch of consecutive indices with one value. -/
structure Run (α : Type) where
  first : Nat
  last : Nat
  value : α

/-- Puts a stretch in front of others, as one with the next if their values agree. -/
def Run.prepend [DecidableEq α] (r : Run α) : List (Run α) → List (Run α)
  | [] => [r]
  | s :: rest => if s.value = r.value then ⟨r.first, s.last, r.value⟩ :: rest else r :: s :: rest

/-- The stretches of a table whose first index counts as `base`, in front of `rest`. -/
def runsBefore [DecidableEq α] : {n : Nat} → Table α n → Nat → List (Run α) → List (Run α)
  | n, fill a, base, rest => Run.prepend ⟨base, base + 1 <<< n - 1, a⟩ rest
  | n + 1, node l h, base, rest => l.runsBefore base (h.runsBefore (base + 1 <<< n) rest)

/-- The table as its longest stretches of equal values, in ascending order. -/
def runs [DecidableEq α] {n : Nat} (t : Table α n) : List (Run α) := t.runsBefore 0 []

/-- The indices at which the second table differs, with its values there, in front of `rest`. -/
def changesBefore [DecidableEq α] :
    {n : Nat} → Table α n → Table α n → Nat → List (Nat × α) → List (Nat × α)
  | n, fill a, fill b, base, rest =>
    if a = b then rest else (List.range (1 <<< n)).map (fun i => (base + i, b)) ++ rest
  | n + 1, t, u, base, rest =>
    t.low.changesBefore u.low base (t.high.changesBefore u.high (base + 1 <<< n) rest)

/-- The indices at which `new` differs from `old`, ascending, with the new values. -/
def changes [DecidableEq α] {n : Nat} (old new : Table α n) : List (Nat × α) :=
  old.changesBefore new 0 []

@[simp] theorem get_fill {n : Nat} (a : α) (i : BitVec n) : (fill a : Table α n).get i = a := by
  cases n <;> rfl

theorem lookup_update {n : Nat} (t : Table α n) (i j : Nat) (v : α) :
    (t.update i v).lookup j =
      if ∀ k < n, i.testBit k = j.testBit k then v else t.lookup j := by
  have split (n i j : Nat) : (∀ k < n + 1, i.testBit k = j.testBit k) ↔
      i.testBit n = j.testBit n ∧ ∀ k < n, i.testBit k = j.testBit k :=
    ⟨fun h => ⟨h n (by omega), fun k hk => h k (by omega)⟩,
      fun ⟨hn, h⟩ k hk => if e : k = n then e ▸ hn else h k (by omega)⟩
  induction n with
  | zero => simp [update, lookup]
  | succ n ih =>
    simp only [split]
    cases t with
    | fill a =>
      by_cases hi : i.testBit n <;> by_cases hj : j.testBit n <;>
        simp [update, lookup, hi, hj, ih]
    | node l h =>
      by_cases hi : i.testBit n <;> by_cases hj : j.testBit n <;>
        simp [update, lookup, hi, hj, ih]

/-- Reading after writing gives the value written at that index and the old value elsewhere. -/
theorem get_set {n : Nat} (t : Table α n) (i j : BitVec n) (v : α) :
    (t.set i v).get j = if i = j then v else t.get j := by
  have bits : (∀ k < n, i.toNat.testBit k = j.toNat.testBit k) ↔ i = j :=
    ⟨fun h => BitVec.eq_of_getLsbD_eq h, fun h _ _ => h ▸ rfl⟩
  simp only [get, set, lookup_update, bits]

@[simp] theorem get_set_self {n : Nat} (t : Table α n) (i : BitVec n) (v : α) :
    (t.set i v).get i = v := by
  simp [get_set]

theorem get_set_of_ne {n : Nat} (t : Table α n) {i j : BitVec n} (h : i ≠ j) (v : α) :
    (t.set i v).get j = t.get j := by
  simp [get_set, h]

private theorem lookup_low {n : Nat} (t : Table α (n + 1)) {i : Nat} (h : i.testBit n = false) :
    t.low.lookup i = t.lookup i := by
  cases t <;> simp [low, lookup, h]

private theorem lookup_high {n : Nat} (t : Table α (n + 1)) {i : Nat} (h : i.testBit n = true) :
    t.high.lookup i = t.lookup i := by
  cases t <;> simp [high, lookup, h]

private theorem shiftLeft_double (n : Nat) : 1 <<< (n + 1) = 1 <<< n + 1 <<< n := by
  rw [Nat.shiftLeft_succ]
  omega

private theorem testBit_of_lt {n i : Nat} (h : i < 1 <<< (n + 1)) :
    i.testBit n = decide (1 <<< n ≤ i) := by
  rw [Nat.one_shiftLeft] at h ⊢
  by_cases hi : 2 ^ n ≤ i
  · simp [hi, Nat.testBit_of_two_pow_le_and_two_pow_add_one_gt hi h]
  · simp [hi, Nat.testBit_lt_two_pow (Nat.lt_of_not_le hi)]

private theorem lookup_mod {n : Nat} (t : Table α n) (i : Nat) :
    t.lookup (i % 1 <<< n) = t.lookup i := by
  have agree : ∀ {m : Nat} (t : Table α m) (i j : Nat),
      (∀ k < m, i.testBit k = j.testBit k) → t.lookup i = t.lookup j := by
    intro m
    induction m with
    | zero => intro t i j _; cases t; rfl
    | succ m ih =>
      intro t i j h
      have hm := h m (by omega)
      cases t with
      | fill a => rfl
      | node l h' =>
        simp only [lookup, hm, ih l i j fun k hk => h k (by omega),
          ih h' i j fun k hk => h k (by omega)]
  rw [Nat.one_shiftLeft]
  exact agree t _ _ fun k hk => by simp [Nat.testBit_mod_two_pow, hk]

theorem lookup_fillBetween {n : Nat} (t : Table α n) (base first last i : Nat) (v : α)
    (hi : i < 1 <<< n) :
    (t.fillBetween base first last v).lookup i =
      if first ≤ base + i ∧ base + i ≤ last then v else t.lookup i := by
  induction n generalizing base i with
  | zero =>
    have : i = 0 := by simpa using hi
    subst this
    cases t
    by_cases h : first ≤ base ∧ base ≤ last <;> simp [fillBetween, lookup, h]
  | succ n ih =>
    have hpow := shiftLeft_double n
    unfold fillBetween
    split
    · rw [if_neg (by omega)]
    · split
      · rw [if_pos (by omega)]
        rfl
      · by_cases hb : 1 <<< n ≤ i
        · have ht : i.testBit n = true := by simp [testBit_of_lt hi, hb]
          have hlow : (i - 1 <<< n) % 1 <<< n = i % 1 <<< n := by
            rw [← Nat.mod_eq_sub_mod hb]
          have key := ih t.high (base + 1 <<< n) (i - 1 <<< n) (by omega)
          rw [← lookup_mod _ (i - 1 <<< n), ← lookup_mod t.high (i - 1 <<< n), hlow, lookup_mod,
            lookup_mod, lookup_high t ht,
            show base + 1 <<< n + (i - 1 <<< n) = base + i by omega] at key
          simpa [lookup, ht] using key
        · have ht : i.testBit n = false := by simp [testBit_of_lt hi, hb]
          have key := ih t.low base i (by omega)
          rw [lookup_low t ht] at key
          simpa [lookup, ht] using key

/-- After filling a range, its indices have the new value and all others their old one. -/
theorem get_fillRange {n : Nat} (t : Table α n) (first last i : BitVec n) (v : α) :
    (t.fillRange first last v).get i = if first ≤ i ∧ i ≤ last then v else t.get i := by
  have hi : i.toNat < 1 <<< n := by
    rw [Nat.one_shiftLeft]
    exact i.isLt
  simp only [get, fillRange, lookup_fillBetween _ _ _ _ _ _ hi, Nat.zero_add, BitVec.le_def]

theorem get_map (f : α → β) {n : Nat} (t : Table α n) (i : BitVec n) :
    (t.map f).get i = f (t.get i) := by
  have key : ∀ {m : Nat} (t : Table α m) (i : Nat), (t.map f).lookup i = f (t.lookup i) := by
    intro m t
    induction t with
    | fill a => intro i; simp [map, lookup]
    | node l h ihl ihh =>
      intro i
      simp only [map, lookup, ihl, ihh]
      split <;> rfl
  exact key t i.toNat

theorem get_zipWith (f : α → β → γ) {n : Nat} (t : Table α n) (u : Table β n) (i : BitVec n) :
    (zipWith f t u).get i = f (t.get i) (u.get i) := by
  have key : ∀ {m : Nat} (t : Table α m) (u : Table β m) (i : Nat),
      (zipWith f t u).lookup i = f (t.lookup i) (u.lookup i) := by
    intro m
    induction m with
    | zero => intro t u i; cases t; cases u; rfl
    | succ m ih =>
      intro t u i
      cases t with
      | fill a =>
        cases u with
        | fill b => rfl
        | node l h => by_cases hi : i.testBit m <;> simp [zipWith, lookup, low, high, hi, ih]
      | node l h =>
        cases u with
        | fill b => by_cases hi : i.testBit m <;> simp [zipWith, lookup, low, high, hi, ih]
        | node l' h' => by_cases hi : i.testBit m <;> simp [zipWith, lookup, low, high, hi, ih]
  exact key t u i.toNat

private theorem lookup_node_low {n j : Nat} (l u : Table α n) (hj : j < 1 <<< n) :
    (node l u).lookup j = l.lookup j := by
  rw [Nat.one_shiftLeft] at hj
  rw [lookup, if_neg (by simp [Nat.testBit_lt_two_pow hj])]

private theorem lookup_node_high {n j : Nat} (l u : Table α n) (hj : j < 1 <<< n) :
    (node l u).lookup (1 <<< n + j) = u.lookup j := by
  have hpow := shiftLeft_double n
  have hbit : (1 <<< n + j).testBit n = true := by
    rw [testBit_of_lt (by omega)]
    exact decide_eq_true (Nat.le_add_right _ _)
  have hmod : (1 <<< n + j) % 1 <<< n = j := by
    rw [Nat.add_mod_left, Nat.mod_eq_of_lt hj]
  rw [lookup, if_pos hbit, ← lookup_mod, hmod]

/-- How many values satisfy `p`, going through the indices in order. -/
theorem count_eq_countP (p : α → Bool) {n : Nat} (t : Table α n) :
    t.count p = (List.range (1 <<< n)).countP fun i => p (t.lookup i) := by
  induction t with
  | fill a => cases ha : p a <;> simp [count, lookup, ha]
  | @node n l u ihl ihu =>
    have hlow : (List.range (1 <<< n)).countP (fun i => p ((node l u).lookup i)) = l.count p := by
      rw [ihl]
      refine List.countP_congr fun i hi => ?_
      rw [lookup_node_low l u (List.mem_range.mp hi)]
    have hhigh :
        (List.range (1 <<< n)).countP (fun i => p ((node l u).lookup (1 <<< n + i))) =
          u.count p := by
      rw [ihu]
      refine List.countP_congr fun i hi => ?_
      rw [lookup_node_high l u (List.mem_range.mp hi)]
    rw [shiftLeft_double, List.range_add, List.countP_append, List.countP_map, hlow]
    exact congrArg (l.count p + ·) hhigh.symm

private theorem lookup_of_first?_none {p : α → Bool} {n : Nat} {t : Table α n}
    (h : t.first? p = none) : ∀ j < 1 <<< n, p (t.lookup j) = false := by
  induction t with
  | fill a =>
    unfold first? at h
    split at h
    · cases h
    · rename_i ha
      intro j _
      rw [lookup]
      exact Bool.eq_false_iff.mpr ha
  | @node n l u ihl ihu =>
    have hpow := shiftLeft_double n
    unfold first? at h
    rw [Option.or_eq_none_iff, Option.map_eq_none_iff] at h
    intro j hj
    by_cases hlow : j < 1 <<< n
    · rw [lookup_node_low l u hlow]
      exact ihl h.1 j hlow
    · obtain ⟨k, rfl⟩ : ∃ k, j = 1 <<< n + k := ⟨j - 1 <<< n, by omega⟩
      rw [lookup_node_high l u (by omega)]
      exact ihu h.2 k (by omega)

private theorem lookup_first? {p : α → Bool} {n i : Nat} {t : Table α n} (h : t.first? p = some i) :
    i < 1 <<< n ∧ p (t.lookup i) = true ∧ ∀ j < i, p (t.lookup j) = false := by
  induction t generalizing i with
  | @fill n a =>
    unfold first? at h
    split at h
    · rename_i ha
      cases h
      have hpos : 0 < 1 <<< n := by
        rw [Nat.one_shiftLeft]
        exact Nat.two_pow_pos n
      exact ⟨hpos, by rw [lookup]; exact ha, fun j hj => absurd hj (Nat.not_lt_zero j)⟩
    · cases h
  | @node n l u ihl ihu =>
    have hpow := shiftLeft_double n
    unfold first? at h
    cases hl : l.first? p with
    | some k =>
      rw [hl] at h
      cases h
      obtain ⟨hi, hp, hmin⟩ := ihl hl
      refine ⟨by omega, by rw [lookup_node_low l u hi]; exact hp, fun j hj => ?_⟩
      rw [lookup_node_low l u (by omega)]
      exact hmin j hj
    | none =>
      rw [hl, Option.none_or, Option.map_eq_some_iff] at h
      obtain ⟨k, hk, rfl⟩ := h
      obtain ⟨hi, hp, hmin⟩ := ihu hk
      rw [Nat.add_comm k]
      refine ⟨by omega, by rw [lookup_node_high l u hi]; exact hp, fun j hj => ?_⟩
      by_cases hlow : j < 1 <<< n
      · rw [lookup_node_low l u hlow]
        exact lookup_of_first?_none hl j hlow
      · obtain ⟨i, rfl⟩ : ∃ i, j = 1 <<< n + i := ⟨j - 1 <<< n, by omega⟩
        rw [lookup_node_high l u (by omega)]
        exact hmin i (by omega)

theorem get_of_first?_none {p : α → Bool} {n : Nat} {t : Table α n} (h : t.first? p = none)
    (i : BitVec n) : p (t.get i) = false := by
  refine lookup_of_first?_none h i.toNat ?_
  rw [Nat.one_shiftLeft]
  exact i.isLt

/-- The first index of a kind is of that kind, and no index before it is. -/
theorem get_of_first? {p : α → Bool} {n i : Nat} {t : Table α n} (h : t.first? p = some i) :
    (BitVec.ofNat n i).toNat = i ∧ p (t.get (BitVec.ofNat n i)) = true ∧
      ∀ j : BitVec n, j.toNat < i → p (t.get j) = false := by
  obtain ⟨hi, hp, hmin⟩ := lookup_first? h
  have hnat : (BitVec.ofNat n i).toNat = i := by
    rw [Nat.one_shiftLeft] at hi
    rw [BitVec.toNat_ofNat, Nat.mod_eq_of_lt hi]
  refine ⟨hnat, ?_, fun j hj => hmin j.toNat hj⟩
  rw [get, hnat]
  exact hp

end Table

end LittleComputer
