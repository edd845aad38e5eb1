import Mathlib.Data.List.Induction
import LittleComputer.CommandLine

/-!
# What command lines ask for

A command line is accepted if it is made up of items, each of them an image, a switch, or an option
with the argument behind it, and if one of them is an image. It asks for every switch and every
image that is among the items, and for the last log file and the last count.
-/

namespace LittleComputer

namespace Options

/-- A part of a command line that is not divided. -/
inductive Item where
  | image (name : Text)
  | debug
  | trace
  | ignoreIllegal
  | logFile (name : Text)
  | limit (count : Text)
  deriving DecidableEq

namespace Item

def arguments : Item → List Text
  | image name => [name]
  | debug => ["-d"]
  | trace => ["-t"]
  | ignoreIllegal => ["-c"]
  | logFile name => ["-l", name]
  | limit count => ["-n", count]

/-- An image does not look like an option, and a count is one. -/
def IsValid : Item → Prop
  | image name => name.head? ≠ some Byte.minus
  | limit count => (count? count).isSome
  | _ => True

def apply (o : Options) : Item → Options
  | image name => { o with images := o.images ++ [name] }
  | debug => { o with debug := true }
  | trace => { o with trace := true, debug := true }
  | ignoreIllegal => { o with ignoreIllegal := true }
  | logFile name => { o with logFile := name }
  | limit count => { o with limit := (count? count).getD 0 }

def image? : Item → Option Text
  | image name => some name
  | _ => .none

def logFile? : Item → Option Text
  | logFile name => some name
  | _ => .none

def limit? : Item → Option (BitVec 32)
  | limit count => count? count
  | _ => .none

end Item

/-- What items ask for together. -/
structure Asks (items : List Item) (o : Options) : Prop where
  debug : o.debug = true ↔ .debug ∈ items ∨ .trace ∈ items
  trace : o.trace = true ↔ .trace ∈ items
  ignoreIllegal : o.ignoreIllegal = true ↔ .ignoreIllegal ∈ items
  limit : o.limit = (items.filterMap Item.limit?).getLast?.getD 0
  logFile : o.logFile = (items.filterMap Item.logFile?).getLast?.getD []
  images : o.images = items.filterMap Item.image?

theorem asks_nil : Asks [] none := by
  constructor
  · simp [none]
  · simp [none]
  · simp [none]
  · rfl
  · rfl
  · rfl

theorem Asks.apply {items : List Item} {o : Options} (h : Asks items o) {i : Item}
    (hi : i.IsValid) : Asks (items ++ [i]) (i.apply o) := by
  obtain ⟨hdebug, htrace, hignore, hlimit, hlog, himages⟩ := h
  cases i with
  | limit count =>
    obtain ⟨n, hn⟩ := Option.isSome_iff_exists.mp hi
    constructor
    · simpa [Item.apply] using hdebug
    · simpa [Item.apply] using htrace
    · simpa [Item.apply] using hignore
    · simp [Item.apply, Item.limit?, List.filterMap_append, hn]
    · simpa [Item.apply, Item.logFile?, List.filterMap_append] using hlog
    · simpa [Item.apply, Item.image?, List.filterMap_append, List.filterMap_cons] using himages
  | image | debug | trace | ignoreIllegal | logFile =>
    constructor <;>
      simp [Item.apply, Item.limit?, Item.logFile?, Item.image?, List.filterMap_append, *]

theorem asks_foldl {items : List Item} (hvalid : ∀ i ∈ items, i.IsValid) :
    Asks items (items.foldl Item.apply none) := by
  induction items using List.reverseRecOn with
  | nil => exact asks_nil
  | append_singleton items i ih =>
    rw [List.foldl_append]
    exact (ih fun j hj => hvalid j (List.mem_append_left _ hj)).apply (hvalid i (by simp))

/-! ## Reading -/

theorem readFrom_item {i : Item} (hi : i.IsValid) (o : Options) (rest : List Text) :
    o.readFrom (i.arguments ++ rest) = (i.apply o).readFrom rest := by
  cases i with
  | image name =>
    show o.readFrom (name :: rest) = _
    have himage : name.head? ≠ some Byte.minus := hi
    rw [readFrom.eq_def]
    dsimp only
    rw [if_pos himage]
    rfl
  | debug =>
    show o.readFrom ("-d" :: rest) = _
    rw [readFrom.eq_def]
    dsimp only
    rw [if_neg (by decide), if_pos rfl]
    rfl
  | trace =>
    show o.readFrom ("-t" :: rest) = _
    rw [readFrom.eq_def]
    dsimp only
    rw [if_neg (by decide), if_neg (by decide), if_pos rfl]
    rfl
  | ignoreIllegal =>
    show o.readFrom ("-c" :: rest) = _
    rw [readFrom.eq_def]
    dsimp only
    rw [if_neg (by decide), if_neg (by decide), if_neg (by decide), if_pos rfl]
    rfl
  | logFile name =>
    show o.readFrom ("-l" :: name :: rest) = _
    rw [readFrom, if_neg (by decide), if_neg (by decide), if_neg (by decide), if_neg (by decide),
      if_pos rfl]
    rfl
  | limit count =>
    obtain ⟨n, hn⟩ := Option.isSome_iff_exists.mp hi
    show o.readFrom ("-n" :: count :: rest) = _
    rw [readFrom, if_neg (by decide), if_neg (by decide), if_neg (by decide), if_neg (by decide),
      if_neg (by decide), if_pos rfl, Item.apply, hn]
    rfl

theorem readFrom_items {items : List Item} (hvalid : ∀ i ∈ items, i.IsValid) (o : Options) :
    o.readFrom (items.flatMap Item.arguments) = .ok (items.foldl Item.apply o) := by
  induction items generalizing o with
  | nil => rfl
  | cons i items ih =>
    rw [List.flatMap_cons, readFrom_item (hvalid i List.mem_cons_self)]
    exact ih (fun j hj => hvalid j (List.mem_cons_of_mem _ hj)) (i.apply o)

/-- The arguments can be divided into items that ask for `o'` after others that asked for `o`. -/
def Divides (o : Options) (arguments : List Text) (o' : Options) : Prop :=
  ∃ items : List Item, (∀ i ∈ items, i.IsValid) ∧
    arguments = items.flatMap Item.arguments ∧ o' = items.foldl Item.apply o

theorem Divides.cons {i : Item} (hi : i.IsValid) {o o' : Options} {rest : List Text}
    (h : Divides (i.apply o) rest o') : Divides o (i.arguments ++ rest) o' := by
  obtain ⟨items, hvalid, hrest, ho⟩ := h
  refine ⟨i :: items, ?_, ?_, ho⟩
  · intro j hj
    rcases List.mem_cons.mp hj with rfl | hj
    · exact hi
    · exact hvalid j hj
  · rw [hrest, List.flatMap_cons]

theorem readFrom_inv {o o' : Options} {arguments : List Text}
    (h : o.readFrom arguments = .ok o') : Divides o arguments o' := by
  fun_induction readFrom o arguments with
  | case1 o =>
    cases h
    exact ⟨[], nofun, rfl, rfl⟩
  | case2 o name rest himage ih => exact .cons (i := .image name) himage (ih h)
  | case3 o rest _ ih => exact .cons (i := .debug) trivial (ih h)
  | case4 o rest _ _ ih => exact .cons (i := .trace) trivial (ih h)
  | case5 o rest _ _ _ ih => exact .cons (i := .ignoreIllegal) trivial (ih h)
  | case7 o name rest _ _ _ _ ih => exact .cons (i := .logFile name) trivial (ih h)
  | case9 o count rest limit hlimit _ _ _ _ _ ih =>
    refine .cons (i := .limit count) (Option.isSome_iff_exists.mpr ⟨limit, hlimit⟩) ?_
    rw [Item.apply, hlimit]
    exact ih h
  | case6 | case8 | case10 | case11 => cases h

/-- Arguments are accepted if they can be divided into items, among them an image. They ask for what
the items ask for. -/
theorem read_eq_ok {arguments : List Text} {o : Options} :
    read arguments = .ok o ↔ Divides none arguments o ∧ o.images ≠ [] := by
  constructor
  · intro h
    unfold read at h
    split at h
    · rename_i o' hread
      split at h
      · cases h
      · rename_i himages
        cases h
        exact ⟨readFrom_inv hread, himages⟩
    · cases h
  · rintro ⟨⟨items, hvalid, rfl, rfl⟩, himages⟩
    rw [read, readFrom_items hvalid]
    exact if_neg himages

theorem Divides.asks {arguments : List Text} {o : Options} (h : Divides none arguments o) :
    ∃ items : List Item, (∀ i ∈ items, i.IsValid) ∧ arguments = items.flatMap Item.arguments ∧
      Asks items o := by
  obtain ⟨items, hvalid, harguments, rfl⟩ := h
  exact ⟨items, hvalid, harguments, asks_foldl hvalid⟩

end Options

end LittleComputer
