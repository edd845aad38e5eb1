import LittleComputer.Proofs.LogLines
import LittleComputer.Proofs.Messages

/-!
# What log files hold

A log file holds what it held when it was last opened, unless that was dropped, and then the lines
of every message that was sent while it was open and that its level lets through. To say this of all
that can be asked of a log, the requests are taken apart into what happens one thing at a time: a
message, a file that is opened, and a file that is closed.
-/

namespace LittleComputer

/-! ## Files under their paths -/

/-- A place is what the files of a store say about its path. -/
def Place.Fits (s : FileStore) : Place → Prop
  | .directory _ => True
  | .file path => (s.file? path).isSome = true
  | .vacant path => s.file? path = none

namespace FileStore

variable {s s' : FileStore}

theorem enter_fits {here : Path} {name : Text} {place : Place} (h : s.enter here name = .ok place) :
    place.Fits s := by
  unfold enter at h
  split at h
  · cases h
    trivial
  · split at h
    · cases h
      trivial
    · split at h
      · cases h
      · split at h
        · cases h
          trivial
        · split at h
          · rename_i hfile
            cases h
            exact hfile
          · rename_i hfile
            cases h
            exact Option.not_isSome_iff_eq_none.mp hfile

theorem follow_fits {place place' : Place} {names : List Text} (hplace : place.Fits s)
    (h : s.follow place names = .ok place') : place'.Fits s := by
  induction names generalizing place with
  | nil =>
    rw [follow] at h
    cases h
    exact hplace
  | cons name rest ih =>
    cases place with
    | directory here =>
      rw [follow] at h
      split at h
      · rename_i next hnext
        exact ih (enter_fits hnext) h
      · cases h
    | file | vacant =>
      rw [follow] at h
      cases h

theorem locate_fits {name : Text} {place : Place} (h : s.locate name = .ok place) :
    place.Fits s := by
  unfold locate locateThen at h
  dsimp only at h
  split at h
  · cases h
  · split at h
    · cases h
    · exact follow_fits (show Place.Fits s (.directory _) from trivial) h

/-- What the file at a path holds, if there is one. -/
def bytesAt? (s : FileStore) (path : Path) : Option Text := (s.file? path).map (·.bytes.toList)

theorem file?_modify (s : FileStore) (path q : Path) (f : Contents → Contents) :
    (s.modify path f).file? q = if q = path then (s.file? q).map f else s.file? q := by
  simp only [file?, modify]
  -- Several entries can have one path. All of them are changed, and the first one is found.
  induction s.files with
  | nil => simp
  | cons entry rest ih =>
    obtain ⟨p, c⟩ := entry
    rw [List.map_cons, List.lookup_cons, List.lookup_cons, ih]
    by_cases hq : q = p
    · rw [hq]
      by_cases hp : p = path
      · simp [hp]
      · simp [hp]
    · have hne : (q == p) = false := beq_false_of_ne hq
      by_cases hp : p = path
      · simp only [← hp, if_true, hne]
      · simp only [hp, if_false, hne]

theorem bytesAt?_append (s : FileStore) (path q : Path) (bytes : Text) :
    (s.append path bytes).bytesAt? q =
      if q = path then (s.bytesAt? q).map (· ++ bytes) else s.bytesAt? q := by
  rw [append, bytesAt?, file?_modify]
  split
  · rw [bytesAt?, Option.map_map, Option.map_map]
    exact congrArg (Option.map · (s.file? q)) (funext fun c => by simp)
  · rfl

/-- To open a file for writing changes no other file. -/
theorem bytesAt?_create {name : Text} {keep : Bool} {path : Path}
    (h : s.create name keep = .ok (path, s')) (q : Path) :
    s'.bytesAt? q =
      if q = path then some (if keep then (s.bytesAt? q).getD [] else []) else s.bytesAt? q := by
  unfold create at h
  split at h
  · cases h
  · rename_i found hlocate
    cases h
    obtain ⟨c, hc⟩ := Option.isSome_iff_exists.mp (locate_fits hlocate)
    by_cases hq : q = path
    · rw [if_pos hq, hq]
      cases keep with
      | true => simp [bytesAt?, hc]
      | false => simp [bytesAt?, file?_modify, hc]
    · rw [if_neg hq]
      cases keep with
      | true => rfl
      | false => simp [bytesAt?, file?_modify, hq]
  · rename_i found hlocate
    have hnone : s.files.lookup found = none := locate_fits hlocate
    cases h
    by_cases hq : q = path
    · rw [if_pos hq, hq]
      cases keep <;> simp [bytesAt?, file?, hnone]
    · have hne : (q == path) = false := by simpa using hq
      rw [if_neg hq]
      simp only [bytesAt?, file?, List.lookup_cons, hne]
  · cases h

end FileStore

/-! ## What happens to a log -/

/-- One thing that happens to a log. -/
inductive Happening where
  | sent (m : Message)
  | opened (file : LogFile) (keep : Bool)
  | closed

namespace Happening

/-- Whether a file is opened under the path. -/
def Opens (path : Path) : Happening → Prop
  | opened file _ => file.path = path
  | _ => False

/-- The messages for an open file with the given level, up to the next thing that happens to it. -/
def messagesFor (level : Severity) : List Happening → List Message
  | sent m :: rest =>
    if level ≤ m.severity then m :: messagesFor level rest else messagesFor level rest
  | _ => []

end Happening

namespace Host

variable {κ : Type} [Console κ]

def openFile? (h : Host κ) : Option LogFile := h.log.bind (·.file)

/-- The world after one thing happened to the log. -/
inductive Happens : Host κ → Happening → Host κ → Prop where
  | sent (h : Host κ) (s : Severity) (text : Text) :
    Happens h (.sent ⟨h.now, s, Text.untilNul text⟩) (h.send s text)
  | opened {h : Host κ} {file : LogFile} {keep : Bool} {files : FileStore}
    (hlog : h.log.isSome = true)
    (hcreate : h.files.create file.name keep = .ok (file.path, files)) :
    Happens h (.opened file keep)
      ({ h with files }.modifyLog fun l => { l with file := some file })
  | closed (h : Host κ) : Happens h .closed (h.modifyLog fun l => { l with file := none })

/-- The world after some things happened to the log, the first one first. Apart from them nothing
happens to the files, or to which of them is open. -/
inductive Trail : Host κ → List Happening → Host κ → Prop where
  | nil (h : Host κ) : Trail h [] h
  | cons {h h₁ h' : Host κ} {e : Happening} {rest : List Happening} (hfirst : Happens h e h₁)
    (hrest : Trail h₁ rest h') : Trail h (e :: rest) h'
  | elsewhere {h h₁ h' : Host κ} {rest : List Happening} (hfiles : h₁.files = h.files)
    (hopen : h₁.openFile? = h.openFile?) (hrest : Trail h₁ rest h') : Trail h rest h'

variable {h h₁ h' : Host κ} {past rest : List Happening} {path : Path}

theorem Trail.quiet (hfiles : h'.files = h.files) (hopen : h'.openFile? = h.openFile?) :
    Trail h [] h' :=
  .elsewhere hfiles hopen (.nil h')

theorem Trail.append (hpast : Trail h past h₁) (hrest : Trail h₁ rest h') :
    Trail h (past ++ rest) h' := by
  induction hpast with
  | nil h => exact hrest
  | cons hfirst _ ih => exact .cons hfirst (ih hrest)
  | elsewhere hfiles hopen _ ih => exact .elsewhere hfiles hopen (ih hrest)

/-! ## What is in the files -/

theorem send_openFile? (h : Host κ) (s : Severity) (text : Text) :
    (h.send s text).openFile? = h.openFile? := by
  unfold openFile? send
  split
  · rw [showMessage_log, fileMessage_log]
  · rfl

/-- Which file is open after one thing happened. -/
theorem Happens.openFile? {e : Happening} (he : Happens h e h') :
    h'.openFile? =
      match e with
      | .sent _ => h.openFile?
      | .opened file _ => some file
      | .closed => none := by
  cases he with
  | sent s text => exact h.send_openFile? s text
  | opened hlog hcreate =>
    obtain ⟨l, hl⟩ := Option.isSome_iff_exists.mp hlog
    simp [Host.openFile?, modifyLog, hl]
  | closed =>
    simp only [Host.openFile?, modifyLog]
    cases h.log <;> rfl

theorem showMessage_files (h : Host κ) (l : Log) (s : Severity) (text : Text) :
    (h.showMessage l s text).files = h.files := by
  unfold showMessage
  split
  · split <;> rfl
  · rfl

/-- A message is added to the open file, if its level lets the message through. -/
theorem send_bytesAt? (h : Host κ) (s : Severity) (text : Text) (path : Path) :
    (h.send s text).files.bytesAt? path =
      match h.openFile? with
      | some file =>
        if path = file.path ∧ file.level ≤ s then
          (h.files.bytesAt? path).map (· ++ (⟨h.now, s, Text.untilNul text⟩ : Message).lines)
        else h.files.bytesAt? path
      | none => h.files.bytesAt? path := by
  unfold send openFile?
  cases h.log with
  | none => rfl
  | some l =>
    dsimp only [Option.bind_some]
    rw [showMessage_files, fileMessage]
    cases l.file with
    | none => rfl
    | some file =>
      dsimp only
      by_cases hlevel : file.level ≤ s
      · rw [if_pos hlevel, FileStore.bytesAt?_append, Message.filedLines_eq]
        simp only [hlevel, and_true]
      · rw [if_neg hlevel, if_neg fun h => hlevel h.2]

/-- A path under which no file is open or will be opened keeps what it holds. -/
theorem Trail.unopened (htrail : Trail h past h') (hnone : ∀ e ∈ past, ¬ e.Opens path)
    (hfree : ∀ file, h.openFile? = some file → file.path ≠ path) :
    h'.files.bytesAt? path = h.files.bytesAt? path ∧
      ∀ file, h'.openFile? = some file → file.path ≠ path := by
  induction htrail with
  | nil h => exact ⟨rfl, hfree⟩
  | elsewhere hfiles hopen _ ih =>
    rw [← hfiles]
    exact ih hnone (by rwa [hopen])
  | @cons h h₁ _ e rest hfirst _ ih =>
    have hrest : ∀ e ∈ rest, ¬ e.Opens path := fun e he => hnone e (List.mem_cons_of_mem _ he)
    have hopen := hfirst.openFile?
    suffices hstep : h₁.files.bytesAt? path = h.files.bytesAt? path ∧
        ∀ file, h₁.openFile? = some file → file.path ≠ path by
      obtain ⟨hbytes, hend⟩ := ih hrest hstep.2
      exact ⟨hbytes.trans hstep.1, hend⟩
    rw [hopen]
    cases hfirst with
    | sent s text =>
      refine ⟨?_, hfree⟩
      rw [send_bytesAt?]
      split
      · rename_i file hfile
        rw [if_neg fun h => hfree file hfile h.1.symm]
      · rfl
    | @opened file keep files hlog hcreate =>
      have hpath : file.path ≠ path := hnone _ List.mem_cons_self
      refine ⟨(FileStore.bytesAt?_create hcreate path).trans (if_neg (Ne.symm hpath)), ?_⟩
      rintro _ ⟨⟩
      exact hpath
    | closed => exact ⟨rfl, nofun⟩

/-- While a file is open it takes in the messages that its level lets through, and after that it
stays as it is. -/
theorem Trail.filed {file : LogFile} {old : Text} (htrail : Trail h past h')
    (hnone : ∀ e ∈ past, ¬ e.Opens file.path) (hopen : h.openFile? = some file)
    (hold : h.files.bytesAt? file.path = some old) :
    h'.files.bytesAt? file.path =
      some (old ++ (Happening.messagesFor file.level past).flatMap Message.lines) := by
  induction htrail generalizing old with
  | nil h => simpa [Happening.messagesFor] using hold
  | elsewhere hfiles hsame _ ih => exact ih hnone (hsame.trans hopen) (by rwa [hfiles])
  | @cons h h₁ _ e rest hfirst hlater ih =>
    have hrest : ∀ e ∈ rest, ¬ e.Opens file.path := fun e he => hnone e (List.mem_cons_of_mem _ he)
    have hafter := hfirst.openFile?
    cases hfirst with
    | sent s text =>
      have hbytes := h.send_bytesAt? s text file.path
      rw [hopen] at hbytes
      dsimp only at hbytes
      rw [Happening.messagesFor]
      by_cases hlevel : file.level ≤ s
      · rw [if_pos ⟨rfl, hlevel⟩, hold, Option.map_some] at hbytes
        rw [if_pos hlevel, List.flatMap_cons, ← List.append_assoc]
        exact ih hrest (hafter.trans hopen) hbytes
      · rw [if_neg fun h => hlevel h.2, hold] at hbytes
        rw [if_neg hlevel]
        exact ih hrest (hafter.trans hopen) hbytes
    -- Whatever else happens to the log leaves another file open, or none.
    | @opened file' keep files hlog hcreate =>
      have hpath : file'.path ≠ file.path := hnone _ List.mem_cons_self
      have hbytes := FileStore.bytesAt?_create hcreate file.path
      rw [if_neg (Ne.symm hpath), hold] at hbytes
      have hkept := (hlater.unopened hrest fun other hother => by
        rw [hafter] at hother
        cases hother
        exact hpath).1
      rw [hkept, Happening.messagesFor, List.flatMap_nil, List.append_nil]
      · exact hbytes
      · nofun
    | closed =>
      have hkept := (hlater.unopened hrest fun other hother => by
        rw [hafter] at hother
        cases hother).1
      rw [hkept, Happening.messagesFor, List.flatMap_nil, List.append_nil]
      · exact hold
      · nofun

end Host

end LittleComputer
