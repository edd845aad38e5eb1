import LittleComputer.Proofs.CommandLine
import LittleComputer.Proofs.Numeral

/-!
# The grammar of command lines

Which argument lists are accepted is said without the reader: they are the ones that are made up of
units, one of them an image, and the units of a list are determined by it. What an accepted list
asks for depends on the order of its images, of its log files and of its counts, but on no other
order (`Options.read_grammar`).
-/

namespace LittleComputer.Options

namespace Item

/-- A unit of a command line: an image does not begin with a minus sign, and a count is read as a
number of 64 bits whose last 32 bits are not all zero. -/
def IsUnit : Item → Prop
  | image name => name.head? ≠ some Byte.minus
  | limit count => ∃ n, Numeral.Reads64 count n ∧ n.setWidth 32 ≠ 0
  | _ => True

/-- What is behind an option for a count. -/
def count? : Item → Option Text
  | limit count => some count
  | _ => .none

theorem count?_eq_some_iff {text : Text} {limit : BitVec 32} :
    Options.count? text = some limit ↔
      ∃ n, Numeral.Reads64 text n ∧ n.setWidth 32 = limit ∧ limit ≠ 0 := by
  unfold Options.count?
  constructor
  · intro h
    split at h
    · rename_i n hread
      split at h
      · cases h
      · rename_i hzero
        cases h
        exact ⟨n, Numeral.read64?_eq_some_iff.mp hread, rfl, hzero⟩
    · cases h
  · rintro ⟨n, hread, rfl, hzero⟩
    rw [Numeral.read64?_eq_some_iff.mpr hread]
    exact if_neg hzero

theorem isUnit_iff {i : Item} : i.IsUnit ↔ i.IsValid := by
  cases i with
  | limit count =>
    rw [IsUnit, IsValid, Option.isSome_iff_exists]
    constructor
    · rintro ⟨n, hread, hzero⟩
      exact ⟨_, count?_eq_some_iff.mpr ⟨n, hread, rfl, hzero⟩⟩
    · rintro ⟨limit, hlimit⟩
      obtain ⟨n, hread, rfl, hzero⟩ := count?_eq_some_iff.mp hlimit
      exact ⟨n, hread, hzero⟩
  | image | debug | trace | ignoreIllegal | logFile => exact Iff.rfl

/-- The unit that some arguments begin with, and the arguments behind it. -/
def first? : List Text → Option (Item × List Text)
  | [] => .none
  | argument :: rest =>
    if argument.head? ≠ some Byte.minus then some (image argument, rest)
    else if argument = Text.ofString "-d" then some (debug, rest)
    else if argument = Text.ofString "-t" then some (trace, rest)
    else if argument = Text.ofString "-c" then some (ignoreIllegal, rest)
    else if argument = Text.ofString "-l" then rest.head?.map (logFile ·, rest.tail)
    else rest.head?.map (limit ·, rest.tail)

theorem first?_arguments {i : Item} (hi : i.IsUnit) (rest : List Text) :
    first? (i.arguments ++ rest) = some (i, rest) := by
  cases i with
  | image name => exact if_pos hi
  | debug | trace | ignoreIllegal | logFile | limit => rfl

/-- Arguments are divided into units in one way only. -/
theorem flatMap_arguments_inj {units units' : List Item} (hunits : ∀ u ∈ units, u.IsUnit)
    (hunits' : ∀ u ∈ units', u.IsUnit)
    (h : units.flatMap arguments = units'.flatMap arguments) : units = units' := by
  induction units generalizing units' with
  | nil =>
    cases units' with
    | nil => rfl
    | cons u' rest' =>
      have hfirst := first?_arguments (hunits' u' List.mem_cons_self) (rest'.flatMap arguments)
      rw [← List.flatMap_cons, ← h] at hfirst
      cases hfirst
  | cons u rest ih =>
    have hfirst := first?_arguments (hunits u List.mem_cons_self) (rest.flatMap arguments)
    rw [← List.flatMap_cons, h] at hfirst
    cases units' with
    | nil => cases hfirst
    | cons u' rest' =>
      rw [List.flatMap_cons, first?_arguments (hunits' u' List.mem_cons_self)] at hfirst
      obtain ⟨rfl, hrest⟩ := Prod.mk.inj (Option.some.inj hfirst)
      rw [ih (List.forall_mem_cons.mp hunits).2 (List.forall_mem_cons.mp hunits').2 hrest.symm]

end Item

/-- The arguments are these units, and one of them is an image. -/
structure Splits (arguments : List Text) (units : List Item) : Prop where
  valid : ∀ u ∈ units, u.IsUnit
  divided : arguments = units.flatMap Item.arguments
  image : ∃ name, .image name ∈ units

/-- What units ask for together: every switch and every image among them, and the last log file and
the last count. -/
structure Grants (units : List Item) (o : Options) : Prop where
  debug : o.debug = true ↔ .debug ∈ units ∨ .trace ∈ units
  trace : o.trace = true ↔ .trace ∈ units
  ignoreIllegal : o.ignoreIllegal = true ↔ .ignoreIllegal ∈ units
  images : o.images = units.filterMap Item.image?
  logFile : o.logFile = (units.filterMap Item.logFile?).getLast?.getD []
  limit : ∀ count, (units.filterMap Item.count?).getLast? = some count →
    ∃ n, Numeral.Reads64 count n ∧ o.limit = n.setWidth 32
  unlimited : units.filterMap Item.count? = [] → o.limit = 0

/-- The same units in another order, but the images, the log files and the counts are each in the
same order. -/
structure Reorders (units units' : List Item) : Prop where
  perm : units.Perm units'
  images : units.filterMap Item.image? = units'.filterMap Item.image?
  logFiles : units.filterMap Item.logFile? = units'.filterMap Item.logFile?
  counts : units.filterMap Item.count? = units'.filterMap Item.count?

/-- The counts are read one by one, whatever stands between them. -/
theorem filterMap_limit? (units : List Item) :
    units.filterMap Item.limit? = (units.filterMap Item.count?).filterMap Options.count? := by
  rw [List.filterMap_filterMap]
  refine congrArg (List.filterMap · units) (funext fun u => ?_)
  cases u <;> rfl

theorem Asks.grants {units : List Item} {o : Options} (h : Asks units o)
    (hvalid : ∀ u ∈ units, u.IsUnit) : Grants units o where
  debug := h.debug
  trace := h.trace
  ignoreIllegal := h.ignoreIllegal
  images := h.images
  logFile := h.logFile
  limit := by
    intro count hlast
    obtain ⟨u, hu, hcount⟩ := List.mem_filterMap.mp (List.mem_of_getLast? hlast)
    obtain rfl : u = .limit count := by
      cases u <;> cases hcount
      rfl
    obtain ⟨n, hread, hzero⟩ := hvalid _ hu
    refine ⟨n, hread, ?_⟩
    have hlimit := Item.count?_eq_some_iff.mpr ⟨n, hread, rfl, hzero⟩
    obtain ⟨before, hbefore⟩ := List.getLast?_eq_some_iff.mp hlast
    rw [h.limit, filterMap_limit?, hbefore, List.filterMap_append]
    simp [hlimit]
  unlimited hnone := by rw [h.limit, filterMap_limit?, hnone]; rfl

theorem Splits.asks {arguments : List Text} {units : List Item} (h : Splits arguments units) :
    ∃ o, read arguments = .ok o ∧ Asks units o := by
  have hvalid : ∀ u ∈ units, u.IsValid := fun u hu => Item.isUnit_iff.mp (h.valid u hu)
  have hasks := asks_foldl hvalid
  obtain ⟨name, hname⟩ := h.image
  refine ⟨_, read_eq_ok.mpr ⟨⟨units, hvalid, h.divided, rfl⟩, ?_⟩, hasks⟩
  rw [hasks.images]
  exact List.ne_nil_of_mem (List.mem_filterMap.mpr ⟨_, hname, rfl⟩)

/-- Only the order of the images, of the log files and of the counts matters. -/
theorem Asks.eq_of_reorders {units units' : List Item} {o o' : Options} (h : Asks units o)
    (h' : Asks units' o') (hsame : Reorders units units') : o = o' := by
  have hmem : ∀ u, u ∈ units ↔ u ∈ units' := fun _ => hsame.perm.mem_iff
  have hdebug : o.debug = o'.debug := by
    rw [Bool.eq_iff_iff, h.debug, h'.debug, hmem, hmem]
  have htrace : o.trace = o'.trace := by
    rw [Bool.eq_iff_iff, h.trace, h'.trace, hmem]
  have hignore : o.ignoreIllegal = o'.ignoreIllegal := by
    rw [Bool.eq_iff_iff, h.ignoreIllegal, h'.ignoreIllegal, hmem]
  have hlimit : o.limit = o'.limit := by
    rw [h.limit, h'.limit, filterMap_limit?, filterMap_limit?, hsame.counts]
  have hlog : o.logFile = o'.logFile := by rw [h.logFile, h'.logFile, hsame.logFiles]
  have himages : o.images = o'.images := by rw [h.images, h'.images, hsame.images]
  cases o
  cases o'
  simp_all only

/-- A command line is accepted if and only if it is made up of units, one of them an image. It is
made up of them in one way only, and asks for what they ask for: the last log file and the last
count win. Two command lines with the same units ask for the same, if only their images, their log
files and their counts are each in the same order. -/
theorem read_grammar (arguments : List Text) :
    ((∃ o, read arguments = .ok o) ↔ ∃ units, Splits arguments units) ∧
      ∀ units, Splits arguments units →
        (∀ units', Splits arguments units' → units' = units) ∧
        (∃ o, read arguments = .ok o ∧ Grants units o) ∧
        ∀ arguments' units', Splits arguments' units' → Reorders units units' →
          read arguments' = read arguments := by
  refine ⟨⟨?_, ?_⟩, fun units hsplits => ⟨fun units' hsplits' => ?_, ?_, ?_⟩⟩
  · rintro ⟨o, hread⟩
    obtain ⟨hdivides, himages⟩ := read_eq_ok.mp hread
    obtain ⟨units, hvalid, hdivided, hasks⟩ := hdivides.asks
    obtain ⟨name, hname⟩ := List.exists_mem_of_ne_nil _ himages
    rw [hasks.images] at hname
    obtain ⟨u, hu, hname⟩ := List.mem_filterMap.mp hname
    obtain rfl : u = .image name := by
      cases u <;> cases hname
      rfl
    exact ⟨units, fun u hu => Item.isUnit_iff.mpr (hvalid u hu), hdivided, name, hu⟩
  · rintro ⟨units, hsplits⟩
    obtain ⟨o, hread, -⟩ := hsplits.asks
    exact ⟨o, hread⟩
  · exact Item.flatMap_arguments_inj hsplits'.valid hsplits.valid
      (hsplits'.divided.symm.trans hsplits.divided)
  · obtain ⟨o, hread, hasks⟩ := hsplits.asks
    exact ⟨o, hread, hasks.grants hsplits.valid⟩
  · intro arguments' units' hsplits' hsame
    obtain ⟨o, hread, hasks⟩ := hsplits.asks
    obtain ⟨o', hread', hasks'⟩ := hsplits'.asks
    rw [hread, hread', hasks.eq_of_reorders hasks' hsame]

/-- Two images, a log file with the name of an option, and two counts, the second of them with a
blank and a sign in front. Of that one the last 32 bits are left. -/
theorem read_grammar_reordered :
    ∃ (units units' : List Item) (o : Options),
      units.flatMap Item.arguments =
        ["a", "-n", "5", "b", "-l", "-d", "-n", " +4294967297", "-c"].map Text.ofString ∧
      units'.flatMap Item.arguments =
        ["-c", "-l", "-d", "-n", "5", "-n", " +4294967297", "a", "b"].map Text.ofString ∧
      Splits (units.flatMap Item.arguments) units ∧
      Splits (units'.flatMap Item.arguments) units' ∧ Reorders units units' ∧
      o = { debug := false, trace := false, ignoreIllegal := true, limit := 1, logFile := "-d"
            images := ["a", "b"].map Text.ofString } ∧
      read (units.flatMap Item.arguments) = .ok o ∧ Grants units o ∧
      read (units'.flatMap Item.arguments) = .ok o := by
  let units : List Item :=
    [.image "a", .limit "5", .image "b", .logFile "-d", .limit " +4294967297", .ignoreIllegal]
  let units' : List Item :=
    [.ignoreIllegal, .logFile "-d", .limit "5", .limit " +4294967297", .image "a", .image "b"]
  have hvalid : ∀ u ∈ units, u.IsUnit := by
    have hall : ∀ u ∈ units, u.IsValid := by
      simp only [units, List.forall_mem_cons, Item.IsValid]
      exact ⟨by decide, by decide, by decide, trivial, by decide, trivial, nofun⟩
    exact fun u hu => Item.isUnit_iff.mpr (hall u hu)
  have hperm : units.Perm units' := by decide
  have hsplits : Splits (units.flatMap Item.arguments) units :=
    ⟨hvalid, rfl, "a", List.mem_cons_self⟩
  have hsplits' : Splits (units'.flatMap Item.arguments) units' :=
    ⟨fun u hu => hvalid u (hperm.mem_iff.mpr hu), rfl, "a", hperm.mem_iff.mp List.mem_cons_self⟩
  have hsame : Reorders units units' := ⟨hperm, rfl, rfl, rfl⟩
  obtain ⟨-, ⟨o, hread, hgrants⟩, hreorder⟩ := (read_grammar _).2 units hsplits
  have ho : read (units.flatMap Item.arguments) = .ok
      { debug := false, trace := false, ignoreIllegal := true, limit := 1, logFile := "-d"
        images := ["a", "b"].map Text.ofString } := by
    decide +kernel
  exact ⟨units, units', o, rfl, rfl, hsplits, hsplits', hsame, Except.ok.inj (hread.symm.trans ho),
    hread, hgrants, (hreorder _ units' hsplits' hsame).trans hread⟩

end LittleComputer.Options
