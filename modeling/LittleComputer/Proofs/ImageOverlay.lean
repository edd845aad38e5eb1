import LittleComputer.Proofs.ImageLoading
import LittleComputer.Proofs.LogHistory
import LittleComputer.Proofs.Outcome
import Mathlib.Data.List.Forall2

/-!
# Images on top of each other

The images of a command line are loaded in order, and each of them lies over those before it. So
what a word is in the end is told by the last image that has a word for its address
(`Simulator.loadImages_overlay`). The program counter is moved to the origin of the first image. If
an image cannot be loaded, nothing of those behind it is.
-/

namespace LittleComputer

/-! ## The words of an image -/

namespace Contents

/-- The address that an image file begins with. -/
def origin (file : Contents) : Nat := Image.bigEndian file.bytes.toList 0

/-- The word that an image file has for an address of a memory with the given size. What lies beyond
the end of the memory is cut off. -/
def wordAt? (size : Nat) (file : Contents) (a : Word) : Option Word :=
  if file.origin ≤ a.toNat ∧ a.toNat < size ∧ a.toNat - file.origin < (file.bytes.size - 2) / 2 then
    some (BitVec.ofNat 16 (Image.bigEndian file.bytes.toList (2 * (a.toNat - file.origin + 1))))
  else none

theorem wordAt?_of_short {file : Contents} (h : file.bytes.toList.length < 2) (size : Nat)
    (a : Word) : file.wordAt? size a = none := by
  rw [Array.length_toList] at h
  rw [wordAt?, if_neg]
  omega

/-- The words of a file that are stored in memory, by their distance from the origin. -/
theorem getElem?_take_fitting {file : Contents} {image : Image} {size : Nat}
    (himage : Image.ofBytes? file.bytes.toList = some image) (hsize : size ≤ 65536) (a : Word) :
    (image.words.take (image.fitting size))[(a - image.origin).toNat]? = file.wordAt? size a := by
  have hlong : 2 ≤ file.bytes.toList.length := by
    by_contra hshort
    rw [Image.ofBytes?_of_short (Nat.lt_of_not_le hshort)] at himage
    cases himage
  obtain ⟨image', himage', horigin, hlen, hwords⟩ := Image.ofBytes?_of_long hlong
  cases himage.symm.trans himage'
  rw [Array.length_toList] at hlen
  have hfit : image.fitting size = min image.words.length (size - image.origin.toNat) := rfl
  rw [wordAt?, origin, ← horigin, ← hlen]
  split
  · rename_i hcovered
    have hdistance : (a - image.origin).toNat = a.toNat - image.origin.toNat := by bv_omega
    obtain ⟨w, hw, hvalue⟩ := hwords _ hcovered.2.2
    rw [hdistance, List.getElem?_take_of_lt (by omega), hw, ← hvalue, BitVec.ofNat_toNat,
      BitVec.setWidth_eq]
  · rename_i hoff
    refine List.getElem?_eq_none ?_
    -- Counted from the origin, an address below it lies behind the end of the memory.
    have hdistance : image.fitting size ≤ (a - image.origin).toNat := by
      by_cases hbelow : a.toNat < image.origin.toNat
      · have : (a - image.origin).toNat = 65536 - image.origin.toNat + a.toNat := by bv_omega
        omega
      · have : (a - image.origin).toNat = a.toNat - image.origin.toNat := by bv_omega
        omega
    rw [List.length_take]
    omega

/-- The word that the last of some files has for an address, if one of them has any. -/
def lastWordAt? (size : Nat) (files : List Contents) (a : Word) : Option Word :=
  files.reverse.findSome? fun file => file.wordAt? size a

/-- A later image with a word for the address hides the earlier ones. -/
theorem lastWordAt?_cons (size : Nat) (file : Contents) (rest : List Contents) (a : Word) :
    lastWordAt? size (file :: rest) a = (lastWordAt? size rest a).or (file.wordAt? size a) := by
  rw [lastWordAt?, List.reverse_cons, List.findSome?_append, List.findSome?_singleton]
  rfl

end Contents

/-! ## Files beside the log -/

namespace FileStore

variable (s : FileStore) (path : Path) (bytes : Text)

theorem file?_append (q : Path) : (s.append path bytes).file? q =
    if q = path then (s.file? q).map fun c => { c with bytes := c.bytes ++ bytes }
    else s.file? q :=
  s.file?_modify path q _

theorem enter_append (here : Path) (name : Text) :
    (s.append path bytes).enter here name = s.enter here name := by
  have hsome : ((s.append path bytes).file? (here ++ [name])).isSome =
      (s.file? (here ++ [name])).isSome := by
    rw [file?_append]
    split
    · exact Option.isSome_map
    · rfl
  rw [enter, hsome]
  rfl

theorem follow_append (names : List Text) (place : Place) :
    (s.append path bytes).follow place names = s.follow place names := by
  induction names generalizing place with
  | nil => rfl
  | cons name rest ih =>
    cases place with
    | directory here =>
      rw [follow, follow, enter_append]
      cases s.enter here name with
      | ok next => exact ih next
      | error e => rfl
    | file | vacant => rfl

/-- What is added to a file does not change where names lead. -/
theorem locate_append (name : Text) : (s.append path bytes).locate name = s.locate name := by
  simp only [locate, locateThen, follow_append]
  rfl

end FileStore

namespace Host

variable {κ : Type}

/-- Nothing happens to the files but that something is added to the one that is open for the log. -/
structure KeepsFiles (h h' : Host κ) : Prop where
  openFile? : h'.openFile? = h.openFile?
  locate : ∀ name, h'.files.locate name = h.files.locate name
  file? : ∀ path, (∀ log, h.openFile? = some log → log.path ≠ path) →
    h'.files.file? path = h.files.file? path

theorem KeepsFiles.refl (h : Host κ) : h.KeepsFiles h := ⟨rfl, fun _ => rfl, fun _ _ => rfl⟩

theorem KeepsFiles.trans {h h₁ h' : Host κ} (hfirst : h.KeepsFiles h₁)
    (hrest : h₁.KeepsFiles h') : h.KeepsFiles h' where
  openFile? := hrest.openFile?.trans hfirst.openFile?
  locate name := (hrest.locate name).trans (hfirst.locate name)
  file? path hpath :=
    (hrest.file? path (by rwa [hfirst.openFile?])).trans (hfirst.file? path hpath)

theorem keepsFiles_report [Console κ] (h : Host κ) (s : Severity) (text : Text) :
    h.KeepsFiles (h.report s text) := by
  rw [report_eq_send]
  suffices hfiles : (h.send s text).files = h.files ∨ ∃ log bytes, h.openFile? = some log ∧
      (h.send s text).files = h.files.append log.path bytes by
    have hopen := send_openFile? h s text
    rcases hfiles with hsame | ⟨log, bytes, hlog, hadded⟩
    · exact ⟨hopen, fun _ => by rw [hsame], fun _ _ => by rw [hsame]⟩
    · refine ⟨hopen, fun name => ?_, fun path hpath => ?_⟩
      · rw [hadded, FileStore.locate_append]
      · rw [hadded, FileStore.file?_append, if_neg (Ne.symm (hpath log hlog))]
  unfold send openFile?
  cases h.log with
  | none => exact .inl rfl
  | some l =>
    dsimp only [Option.bind_some]
    rw [showMessage_files, fileMessage]
    cases l.file with
    | none => exact .inl rfl
    | some log =>
      dsimp only
      split
      · exact .inr ⟨log, _, rfl, rfl⟩
      · exact .inl rfl

/-- The log is not written to a file with one of the names. -/
def LogsElsewhere (h : Host κ) (names : List Text) : Prop :=
  ∀ log, h.openFile? = some log → ∀ name ∈ names, h.files.locate name ≠ .ok (.file log.path)

/-- As long as the log is written elsewhere, a file is read as it was. -/
theorem KeepsFiles.read {h h' : Host κ} (hkept : h.KeepsFiles h') {name : Text}
    {names : List Text} (helse : h.LogsElsewhere names) (hname : name ∈ names) :
    h'.files.read name = h.files.read name := by
  rw [FileStore.read, FileStore.read, hkept.locate]
  split
  · rfl
  · rename_i path hpath
    rw [hkept.file? path fun log hopen heq => helse log hopen name hname (by rw [hpath, heq])]
  · rfl
  · rfl

end Host

/-! ## Loading -/

namespace Machine

variable {κ : Type} [Console κ]

/-- The word that an image has for an address if it is loaded now. -/
def imageWordAt? (m : Machine κ) (name : Text) (a : Word) : Option Word :=
  match m.host.files.read name with
  | .ok file => file.wordAt? m.memory.size a
  | .error _ => none

/-- Whether it works or not, loading an image puts its words into memory and changes no others. -/
theorem loadImage_words (m : Machine κ) (name : Text) :
    ∃ result m', loadImage name m = .ok (result, m') ∧ m'.cpu = m.cpu ∧
      m'.memory.size = m.memory.size ∧
      (∀ a, m'.memory.words.get a = (m.imageWordAt? name a).getD (m.memory.words.get a)) ∧
      ∀ n, result.stored = some n → ∃ file, m.host.files.read name = .ok file ∧
        result.origin = some (BitVec.ofNat 16 file.origin) := by
  unfold imageWordAt?
  rw [loadImage, get_bind]
  cases m.host.files.read name with
  | error e =>
    exact ⟨_, _, rfl, rfl, rfl, fun _ => rfl, fun n hn => absurd hn.symm (Option.some_ne_none n)⟩
  | ok file =>
    dsimp only
    by_cases hshort : file.bytes.toList.length < 2
    · rw [Image.ofBytes?_of_short hshort]
      refine ⟨_, _, rfl, rfl, rfl, fun a => ?_, fun n hn => absurd hn.symm (Option.some_ne_none n)⟩
      rw [Contents.wordAt?_of_short hshort]
      rfl
    · obtain ⟨image, himage, horigin, -, -⟩ := Image.ofBytes?_of_long (Nat.le_of_not_lt hshort)
      obtain ⟨host, hplace⟩ := placeImage_run name image file.failure m rfl
      rw [himage]
      refine ⟨_, _, hplace, rfl, rfl, fun a => ?_, fun _ _ => ⟨file, rfl, ?_⟩⟩
      · have hsize := m.memory.size_le
        have hfit : image.fitting m.memory.size ≤ 65536 := by
          rw [Image.fitting]
          omega
        rw [← Contents.getElem?_take_fitting himage hsize]
        exact Memory.get_place _ _ (Nat.le_trans (List.length_take_le _ _) hfit) a
      · rw [Contents.origin, ← horigin, BitVec.ofNat_toNat, BitVec.setWidth_eq]

end Machine

namespace Simulator

open Machine (kept_onlyLoads loadImage_words)

/-! ## Images in turn -/

/-- Some images are loaded one after the other, each from a file that has these contents when it is
its turn. Between two of them the program counter may be moved. -/
inductive LoadsInTurn : List Text → List Contents → Machine Window → Machine Window → Prop where
  | nil (m : Machine Window) : LoadsInTurn [] [] m m
  | cons {name : Text} {rest : List Text} {file : Contents} {files : List Contents}
      {m m₁ m' : Machine Window} {n : Nat} {origin : Option Word} (pc : Word)
      (hread : m.host.files.read name = .ok file)
      (hload : Machine.loadImage name m = .ok (⟨some n, origin⟩, m₁))
      (hrest : LoadsInTurn rest files { m₁ with cpu := { m₁.cpu with pc } } m') :
      LoadsInTurn (name :: rest) (file :: files) m m'

/-- Every image lies over those before it. -/
theorem LoadsInTurn.words {names : List Text} {files : List Contents} {m m' : Machine Window}
    (h : LoadsInTurn names files m m') (a : Word) :
    m'.memory.size = m.memory.size ∧ m'.memory.words.get a =
      (Contents.lastWordAt? m.memory.size files a).getD (m.memory.words.get a) := by
  induction h with
  | nil m => exact ⟨rfl, rfl⟩
  | @cons name _ file files m m₁ _ _ _ _ hread hload _ ih =>
    obtain ⟨_, _, hload', -, hsize, hwords, -⟩ := loadImage_words m name
    cases hload.symm.trans hload'
    obtain ⟨hsize', hword⟩ := ih
    refine ⟨hsize'.trans hsize, hword.trans ?_⟩
    show (Contents.lastWordAt? m₁.memory.size files a).getD (m₁.memory.words.get a) = _
    rw [hwords a, hsize, Machine.imageWordAt?, hread, Contents.lastWordAt?_cons]
    cases Contents.lastWordAt? m.memory.size files a <;> rfl

/-- After some images have been loaded, the next one cannot be, and the others are left out. -/
structure StopsAt (names loaded : List Text) (files : List Contents) (failing : Text)
    (m m₁ m' : Machine Window) : Prop where
  divided : ∃ unread, names = loaded ++ failing :: unread
  loads : LoadsInTurn loaded files m m₁
  fails : ∃ origin, Machine.loadImage failing m₁ = .ok (⟨none, origin⟩, m')

/-- Images are loaded in turn, until one cannot be loaded or all have been. -/
theorem loadRest_inTurn (names : List Text) (m : Machine Window) :
    (∃ files m', loadImages.loadRest names m = .ok (true, m') ∧ LoadsInTurn names files m m') ∨
      ∃ loaded files failing m₁ m', loadImages.loadRest names m = .ok (false, m') ∧
        StopsAt names loaded files failing m m₁ m' := by
  induction names generalizing m with
  | nil => exact .inl ⟨[], m, rfl, .nil m⟩
  | cons name rest ih =>
    obtain ⟨⟨stored, origin⟩, m₁, hload, -, -, -, hfile⟩ := loadImage_words m name
    rw [loadRest_cons, hload]
    cases stored with
    | none => exact .inr ⟨[], [], name, m, m₁, rfl, ⟨rest, rfl⟩, .nil m, origin, hload⟩
    | some n =>
      obtain ⟨file, hread, -⟩ := hfile n rfl
      rcases ih m₁ with ⟨files, m', hrest, hloads⟩ | ⟨loaded, files, failing, m₂, m', hrest, hstop⟩
      · exact .inl ⟨file :: files, m', hrest, .cons m₁.cpu.pc hread hload hloads⟩
      · obtain ⟨⟨unread, hdivided⟩, hloads, hfails⟩ := hstop
        refine .inr ⟨name :: loaded, file :: files, failing, m₂, m', hrest, ⟨unread, ?_⟩,
          .cons m₁.cpu.pc hread hload hloads, hfails⟩
        rw [hdivided, List.cons_append]

/-- Unless the log is written to one of them, the files are read as they were in the beginning. -/
theorem LoadsInTurn.unchanged {names : List Text} {files : List Contents} {m m' : Machine Window}
    (h : LoadsInTurn names files m m') {start : Host Window} {all : List Text}
    (hstart : start.KeepsFiles m.host) (helse : start.LogsElsewhere all)
    (hnames : ∀ name ∈ names, name ∈ all) :
    List.Forall₂ (fun name file => start.files.read name = .ok file) names files := by
  have hkept : Machine.Kept fun m m' : Machine Window => m.host.KeepsFiles m'.host :=
    ⟨fun m => .refl m.host, .trans, fun m s text => m.host.keepsFiles_report s text,
      fun m _ _ => .refl m.host⟩
  induction h with
  | nil m => exact .nil
  | cons pc hread hload _ ih =>
    obtain ⟨hname, hrest⟩ := List.forall_mem_cons.mp hnames
    have hnext := hstart.trans (hkept.loadImage _ _ _ _ hload)
    refine .cons ?_ (ih hnext hrest)
    rwa [hstart.read helse hname] at hread

/-- The processor after some files were loaded: at the origin of the first one, if there is one. -/
def startCpu (c : Cpu) : List Contents → Cpu
  | [] => c
  | first :: _ => { c with pc := BitVec.ofNat 16 first.origin }

/-- Some images were loaded over each other into an empty memory. -/
structure Overlaid (names : List Text) (files : List Contents) (m m' : Machine Window) :
    Prop where
  loads : LoadsInTurn names files m m'
  unchanged : m.host.LogsElsewhere names →
    List.Forall₂ (fun name file => m.host.files.read name = .ok file) names files
  words : ∀ a, m'.memory.words.get a =
    (Contents.lastWordAt? m.memory.size files a).getD 0
  cpu : m'.cpu = startCpu m.cpu files

/-- Over a blank memory, images in turn leave the last image's word at every address. -/
theorem LoadsInTurn.overlaid {names : List Text} {files : List Contents} {m m' : Machine Window}
    (h : LoadsInTurn names files m m') (hblank : ∀ a, m.memory.words.get a = 0)
    (hcpu : m'.cpu = startCpu m.cpu files) : Overlaid names files m m' where
  loads := h
  unchanged helse := h.unchanged (.refl m.host) helse fun _ hname => hname
  words a := by rw [(h.words a).2, hblank]
  cpu := hcpu

/-- Images overlay in the order of the command line. If all of them can be loaded, then every word
of the memory is the one that the last image with a word for that address has for it, and zero if
there is none, and the program counter is the origin of the first image. If one of them cannot be
loaded, the answer says so, and the memory is as that image left it: nothing of those behind it is
there. -/
theorem loadImages_overlay {names : List Text} (hne : names ≠ []) (m : Machine Window)
    (hblank : ∀ a, m.memory.words.get a = 0) :
    (∃ files m', loadImages names m = .ok (true, m') ∧ Overlaid names files m m') ∨
      ∃ loaded files failing m₁ m', loadImages names m = .ok (false, m') ∧
        StopsAt names loaded files failing m m₁ m' ∧ Overlaid loaded files m m₁ ∧
        ∀ a, m'.memory.words.get a = ((m₁.imageWordAt? failing a).or
          (Contents.lastWordAt? m.memory.size files a)).getD 0 := by
  obtain ⟨name, rest, rfl⟩ := List.exists_cons_of_ne_nil hne
  obtain ⟨⟨stored, origin⟩, m₁, hload, hcpu, -, hwords, hfile⟩ := loadImage_words m name
  rw [loadImages_cons, hload]
  cases stored with
  | none =>
    refine .inr ⟨[], [], name, m, m₁, rfl, ⟨⟨rest, rfl⟩, .nil m, origin, hload⟩,
      (LoadsInTurn.nil m).overlaid hblank rfl, fun a => ?_⟩
    rw [hwords, hblank]
    cases m.imageWordAt? name a <;> rfl
  | some n =>
    obtain ⟨file, hread, horigin⟩ := hfile n rfl
    obtain rfl : origin = some (BitVec.ofNat 16 file.origin) := horigin
    have hstart : ∀ files, { m₁.cpu with pc := BitVec.ofNat 16 file.origin } =
        startCpu m.cpu (file :: files) := fun _ => by rw [hcpu, startCpu]
    rcases loadRest_inTurn rest { m₁ with cpu := { m₁.cpu with pc := BitVec.ofNat 16 file.origin } }
      with ⟨files, m', hrest, hloads⟩ | ⟨loaded, files, failing, m₂, m', hrest, hstop⟩
    · have hcpu' := (loadRest_keeps kept_onlyLoads rest _ _ _ hrest).cpu
      exact .inl ⟨file :: files, m', hrest, (LoadsInTurn.cons _ hread hload hloads).overlaid hblank
        (hcpu'.trans (hstart files))⟩
    · obtain ⟨⟨unread, hdivided⟩, hloads, origin', hfails⟩ := hstop
      have hcpu' := (loadRest_keeps kept_onlyLoads rest _ _ _ hrest).cpu
      obtain ⟨_, _, hfails', hcpu₂, -, hwords', -⟩ := loadImage_words m₂ failing
      cases hfails.symm.trans hfails'
      have hall := LoadsInTurn.cons _ hread hload hloads
      have hoverlaid := hall.overlaid hblank (hcpu₂.symm.trans (hcpu'.trans (hstart files)))
      refine .inr ⟨name :: loaded, file :: files, failing, m₂, m', hrest,
        ⟨⟨unread, by rw [hdivided, List.cons_append]⟩, hall, origin', hfails⟩, hoverlaid,
        fun a => ?_⟩
      rw [hwords', hoverlaid.words]
      cases m₂.imageWordAt? failing a <;> rfl

/-- A word in the middle of the first image is overlaid by the second one, and the third one is cut
off at the end of the memory. -/
theorem loadImages_overlay_three :
    ∃ (names : List Text) (m m' : Machine Window) (files : List Contents),
      names = ["low.obj", "over.obj", "top.obj"].map Text.ofString ∧
      (∀ a, m.memory.words.get a = 0) ∧
      files.map (·.bytes) = [#[0x30, 0x00, 0x11, 0x11, 0x22, 0x22, 0x33, 0x33],
        #[0x30, 0x01, 0x44, 0x44], #[0xFF, 0xFF, 0x55, 0x55, 0x66, 0x66]] ∧
      loadImages names m = .ok (true, m') ∧ Overlaid names files m m' ∧
      [0x2FFF, 0x3000, 0x3001, 0x3002, 0x3003, 0xFFFF, 0x0000].map m'.memory.words.get =
        [0, 0x1111, 0x4444, 0x3333, 0, 0x5555, 0] ∧ m'.cpu.pc = 0x3000 := by
  let low : Contents := ⟨#[0x30, 0x00, 0x11, 0x11, 0x22, 0x22, 0x33, 0x33], none⟩
  let middle : Contents := ⟨#[0x30, 0x01, 0x44, 0x44], none⟩
  let top : Contents := ⟨#[0xFF, 0xFF, 0x55, 0x55, 0x66, 0x66], none⟩
  let store : FileStore := { FileStore.empty [] with files :=
    [([Text.ofString "low.obj"], low), ([Text.ofString "over.obj"], middle),
      ([Text.ofString "top.obj"], top)] }
  let names : List Text := ["low.obj", "over.obj", "top.obj"].map Text.ofString
  let m := assembled .none (.new (.new true [] []) store default)
  have hblank : ∀ a, m.memory.words.get a = 0 := fun a => Table.get_fill 0 a
  have hload := Machine.eq_ok_of_result (x := loadImages names m) (a := true) m (by decide +kernel)
  rcases loadImages_overlay (by decide : names ≠ []) m hblank with
    ⟨files, m', hall, hoverlaid⟩ | ⟨_, _, _, _, m', hfailed, -⟩
  · obtain rfl := (Prod.mk.inj (Except.ok.inj (hload.symm.trans hall))).2
    have hread := hoverlaid.unchanged nofun
    simp only [names, List.map_cons, List.map_nil, List.forall₂_cons_left_iff,
      List.forall₂_nil_left_iff] at hread
    obtain ⟨file₁, _, hlow, ⟨file₂, _, hmiddle, ⟨file₃, _, htop, rfl, rfl⟩, rfl⟩, rfl⟩ := hread
    obtain rfl : low = file₁ := Except.ok.inj hlow
    obtain rfl : middle = file₂ := Except.ok.inj hmiddle
    obtain rfl : top = file₃ := Except.ok.inj htop
    exact ⟨names, m, _, _, rfl, hblank, rfl, hload, hoverlaid, by decide +kernel, by decide +kernel⟩
  · cases hload.symm.trans hfailed

end Simulator

end LittleComputer
