import BitcoinCrawl.Proofs.NodeFile.Places
import BitcoinCrawl.Proofs.NodeFile.SaveLoad

set_option autoImplicit false

/-! # Saves that are cut short

A disk may fail at any step of a save, write only a part of what it is given, or lose its power. `performUnder` is
`FileTree.performAll` on such a disk. The steps of a save are taken from the last to the first: what a run of the
remaining steps leaves (`Left`, `Outcome`) is known from where the temporary file and the directories stand. -/

namespace BitcoinCrawl.NodeFile

/-! ## Disks that fail -/

/-- What a disk makes of what it is asked for next. -/
inductive DiskAnswer where
  | done
  /-- Of bytes to append at most so many are written, and the others are still to be written. Other steps are still
      to be taken. -/
  | partly (count : Nat)
  | failed (fault : IoFault)

/-- What a save comes to. -/
inductive SaveResult where
  | saved
  | failed (fault : StoreFault)
  /-- There was no answer any more. -/
  | cut
  deriving DecidableEq

/-- Perform steps in order on a disk that answers as given, up to the first fault or the last answer. -/
def performUnder : List DiskAnswer → List FileStep → FileTree → FileTree × SaveResult
  | _, [], tree => (tree, .saved)
  | [], _ :: _, tree => (tree, .cut)
  | .failed fault :: _, _ :: _, tree => (tree, .failed (.io fault))
  | .done :: answers, step :: rest, tree =>
    match tree.perform step with
    | .ok tree => performUnder answers rest tree
    | .error fault => (tree, .failed (.tree fault))
  | .partly count :: answers, .append path bytes :: rest, tree =>
    match tree.perform (.append path (bytes.take count)) with
    | .ok tree => performUnder answers (.append path (bytes.drop count) :: rest) tree
    | .error fault => (tree, .failed (.tree fault))
  | .partly _ :: answers, step :: rest, tree => performUnder answers (step :: rest) tree

/-- Replace the file at a path by one with the given records, on a disk that answers as given. -/
def saveUnder (answers : List DiskAnswer) (path : WrittenPath) (records : List NodeRecord) (tree : FileTree) :
    FileTree × SaveResult :=
  performUnder answers (saveSteps path (Bytes.ofText (print records))) tree

/-- A disk that does everything at once performs the steps as they are. -/
theorem performUnder_done (steps : List FileStep) (tree : FileTree) :
    performUnder (List.replicate steps.length .done) steps tree =
      ((tree.performAll steps).1, (tree.performAll steps).2.elim .saved fun fault => .failed (.tree fault)) := by
  induction steps generalizing tree with
  | nil => rfl
  | cons step rest ih =>
      rw [List.length_cons, List.replicate_succ, performUnder, FileTree.performAll]
      cases tree.perform step with
      | ok next => exact ih next
      | error fault => rfl

/-- A save is one on a disk that does everything at once. -/
theorem saveUnder_done (path : WrittenPath) (records : List NodeRecord) (tree : FileTree) :
    saveUnder (List.replicate (saveSteps path (Bytes.ofText (print records))).length .done) path records tree =
      ((save path records tree).1, (save path records tree).2.elim .saved .failed) := by
  rw [saveUnder, performUnder_done, save]
  rcases tree.performAll (saveSteps path (Bytes.ofText (print records))) with ⟨_, _ | _⟩ <;> rfl

/-- Where a run is cut short another goes on that gets more answers, with what is still to be done. -/
theorem performUnder_resume (answers more : List DiskAnswer) {steps : List FileStep} {tree : FileTree}
    (h : (performUnder answers steps tree).2 = .cut) :
    ∃ rest, performUnder (answers ++ more) steps tree
      = performUnder more rest (performUnder answers steps tree).1 := by
  induction answers generalizing steps tree with
  | nil =>
      refine ⟨steps, ?_⟩
      cases steps <;> rfl
  | cons answer answers ih =>
      cases steps with
      | nil => cases h
      | cons step rest =>
          cases answer with
          | failed fault => cases h
          | done =>
              rw [List.cons_append, performUnder, performUnder]
              rw [performUnder] at h
              cases hstep : tree.perform step with
              | error fault =>
                  rw [hstep] at h
                  cases h
              | ok next =>
                  rw [hstep] at h
                  exact ih h
          | partly count =>
              cases step with
              | follow | makeDirectory | create | sync | rename => exact ih h
              | append path bytes =>
                  rw [List.cons_append, performUnder, performUnder]
                  rw [performUnder] at h
                  cases hstep : tree.perform (.append path (bytes.take count)) with
                  | error fault =>
                      rw [hstep] at h
                      cases h
                  | ok next =>
                      rw [hstep] at h
                      exact ih h

variable {path : WrittenPath} {name : String} {tree made now : FileTree} {content : Bytes}

/-- Whatever the disk does with a step that appends nothing, either the step is not taken and nothing follows, or it
    is taken and the others follow. -/
theorem performUnder_cons {step : FileStep} {rest : List FileStep} {P : FileTree × SaveResult → Prop}
    (whole : ∀ path bytes, step ≠ .append path bytes) (kept : ∀ result, result ≠ .saved → P (tree, result))
    (taken : ∀ next, tree.perform step = .ok next → ∀ answers, P (performUnder answers rest next))
    (answers : List DiskAnswer) : P (performUnder answers (step :: rest) tree) := by
  induction answers with
  | nil => exact kept .cut nofun
  | cons answer answers ih =>
      cases answer with
      | failed fault => exact kept _ nofun
      | partly count =>
          cases step with
          | append path bytes => exact absurd rfl (whole path bytes)
          | follow | makeDirectory | create | sync | rename => exact ih
      | done =>
          rw [performUnder]
          cases hstep : tree.perform step with
          | ok next => exact taken next hstep answers
          | error fault => exact kept _ nofun

/-! ## Writing the file -/

/-- Nothing but the temporary file of a path has changed. -/
structure Scratched (path : WrittenPath) (made now : FileTree) : Prop where
  directories : made.SameDirectories now
  others : ∀ place, place ≠ path.temporary.place → now.entry? place = made.entry? place

/-- The file at a path has the whole content, the temporary file is gone, and nothing else has changed. -/
structure Installed (path : WrittenPath) (content : Bytes) (made now : FileTree) : Prop where
  directories : made.SameDirectories now
  target : now.entry? path.place = some (.file content)
  read : now.read path = .ok content
  temporary : now.entry? path.temporary.place = none
  others : ∀ place, place ≠ path.temporary.place → place ≠ path.place → now.entry? place = made.entry? place

/-- What the steps on the files themselves leave of a tree. -/
inductive Left (path : WrittenPath) (content : Bytes) (made : FileTree) : FileTree × SaveResult → Prop
  | kept (now : FileTree) (result : SaveResult) (unsaved : result ≠ .saved) (scratched : Scratched path made now) :
      Left path content made (now, result)
  | saved (now : FileTree) (installed : Installed path content made now) : Left path content made (now, .saved)

theorem Scratched.refl (path : WrittenPath) (made : FileTree) : Scratched path made made :=
  ⟨fun _ => Iff.rfl, fun _ _ => rfl⟩

/-- The temporary file is written. -/
theorem Scratched.put (h : Scratched path made now)
    (hplace : now.entry? path.temporary.place ≠ some .directory) (bytes : Bytes) :
    Scratched path made (now.put path.temporary.place (.file bytes)) ∧
      FileTree.entry? (now.put path.temporary.place (.file bytes)) path.temporary.place = some (.file bytes) := by
  have hput := FileTree.entry?_put now (FileTree.ne_root hplace) (.file bytes)
  refine ⟨⟨h.directories.trans (.put hplace bytes), fun place hother => ?_⟩, ?_⟩
  · rw [hput, if_neg hother, h.others place hother]
  · rw [hput, if_pos rfl]

theorem Scratched.create {next : FileTree} (h : Scratched path made now)
    (hnext : now.perform (.create path.temporary) = .ok next) :
    Scratched path made next ∧ next.entry? path.temporary.place = some (.file []) := by
  obtain ⟨place, ⟨hlocate, hfree⟩, rfl⟩ := FileTree.perform_create_eq_ok.mp hnext
  obtain rfl := FileTree.eq_followed_of_locate hlocate
  exact h.put hfree []

theorem Scratched.append {next : FileTree} {written more : Bytes} (h : Scratched path made now)
    (hwritten : now.entry? path.temporary.place = some (.file written))
    (hnext : now.perform (.append path.temporary more) = .ok next) :
    Scratched path made next ∧ next.entry? path.temporary.place = some (.file (written ++ more)) := by
  obtain ⟨place, old, hlocate, hentry, rfl⟩ := FileTree.perform_append_eq_ok.mp hnext
  obtain rfl := FileTree.eq_followed_of_locate hlocate
  cases hwritten.symm.trans hentry
  exact h.put (by rw [hwritten]; nofun) (written ++ more)

/-- The temporary file is moved into place. -/
theorem Scratched.rename {next : FileTree} (hname : path.fileName? = some name) (h : Scratched path made now)
    (hfull : now.entry? path.temporary.place = some (.file content))
    (hnext : now.perform (.rename path.temporary path) = .ok next) : Installed path content made next := by
  obtain ⟨start, entry, goal, hstart, hentry, ⟨hgoal, hfree⟩, htail, rfl⟩ :=
    FileTree.perform_rename_eq_ok.mp hnext
  obtain rfl := FileTree.eq_followed_of_locate hstart
  obtain rfl := FileTree.eq_followed_of_locate hgoal
  obtain rfl : TreeEntry.file content = entry := Option.some.inj (hfull.symm.trans hentry)
  have hne := WrittenPath.temporary_place_ne hname
  have hscratch : now.entry? path.temporary.place ≠ some .directory := by
    rw [hfull]
    nofun
  have hremove := FileTree.entry?_remove now (FileTree.ne_root hscratch)
  have hput := FileTree.entry?_put (now.remove path.temporary.place) (FileTree.ne_root hfree) (.file content)
  have hsame : now.SameDirectories (now.remove path.temporary.place) := .remove hscratch
  have hfree' := (hsame path.place).not.mp hfree
  have hlast := hsame.trans (.put hfree' content)
  have htarget : FileTree.entry? ((now.remove path.temporary.place).put path.place (.file content)) path.place
      = some (.file content) := (hput path.place).trans (if_pos rfl)
  refine ⟨h.directories.trans hlast, htarget, ?_, ?_, fun place htemporary hother => ?_⟩
  · exact FileTree.read_eq_ok ((hlast.locate path.names [] path.place).mp hgoal) htarget htail
  · exact ((hput path.temporary.place).trans (if_neg hne)).trans ((hremove path.temporary.place).trans (if_pos rfl))
  · exact (((hput place).trans (if_neg hother)).trans ((hremove place).trans (if_neg htemporary))).trans
      (h.others place htemporary)

theorem left_rename (hname : path.fileName? = some name) (h : Scratched path made now)
    (hfull : now.entry? path.temporary.place = some (.file content)) (answers : List DiskAnswer) :
    Left path content made (performUnder answers [.rename path.temporary path] now) := by
  refine performUnder_cons (by nofun) (fun result hresult => .kept now result hresult h)
    (fun next hnext answers => ?_) answers
  rw [performUnder]
  exact .saved next (h.rename hname hfull hnext)

theorem left_sync (hname : path.fileName? = some name) (h : Scratched path made now)
    (hfull : now.entry? path.temporary.place = some (.file content)) (answers : List DiskAnswer) :
    Left path content made (performUnder answers [.sync path.temporary, .rename path.temporary path] now) := by
  refine performUnder_cons (by nofun) (fun result hresult => .kept now result hresult h)
    (fun next hnext answers => ?_) answers
  obtain ⟨-, -, -, rfl⟩ := FileTree.perform_sync_eq_ok.mp hnext
  exact left_rename hname h hfull answers

/-- What was written so far and what is still to be written make up the content. -/
theorem left_append (hname : path.fileName? = some name) {written bytes : Bytes} (h : Scratched path made now)
    (hwritten : now.entry? path.temporary.place = some (.file written)) (hcontent : written ++ bytes = content)
    (answers : List DiskAnswer) :
    Left path content made (performUnder answers
      [.append path.temporary bytes, .sync path.temporary, .rename path.temporary path] now) := by
  induction answers generalizing now written bytes with
  | nil => exact .kept now .cut nofun h
  | cons answer answers ih =>
      cases answer with
      | failed fault => exact .kept now _ nofun h
      | done =>
          rw [performUnder]
          cases hstep : now.perform (.append path.temporary bytes) with
          | error fault => exact .kept now _ nofun h
          | ok next =>
              obtain ⟨hnext, hfull⟩ := h.append hwritten hstep
              exact left_sync hname hnext (hcontent ▸ hfull) answers
      | partly count =>
          rw [performUnder]
          cases hstep : now.perform (.append path.temporary (bytes.take count)) with
          | error fault => exact .kept now _ nofun h
          | ok next =>
              obtain ⟨hnext, hmore⟩ := h.append hwritten hstep
              refine ih hnext hmore ?_
              rw [List.append_assoc, List.take_append_drop, hcontent]

theorem left_writeSteps (hname : path.fileName? = some name) (answers : List DiskAnswer) :
    Left path content made (performUnder answers (writeSteps path content) made) := by
  refine performUnder_cons (by nofun) (fun result hresult => .kept made result hresult (.refl path made))
    (fun next hnext answers => ?_) answers
  obtain ⟨hscratched, hempty⟩ := (Scratched.refl path made).create hnext
  exact left_append hname hscratched hempty (List.nil_append content) answers

/-! ## Whole saves -/

/-- What a save leaves of a tree. -/
inductive Outcome (path : WrittenPath) (content : Bytes) (tree : FileTree) : FileTree × SaveResult → Prop
  /-- It has made some of the directories above the path. -/
  | making (done rest : List (List String)) (now : FileTree) (result : SaveResult) (unsaved : result ≠ .saved)
      (above : directoriesAbove path = done ++ rest)
      (made : tree.performAll (done.map .makeDirectory) = (now, none)) : Outcome path content tree (now, result)
  /-- It has made all of them. -/
  | writing (made : FileTree) (result : FileTree × SaveResult)
      (hmade : tree.performAll ((directoriesAbove path).map .makeDirectory) = (made, none))
      (left : Left path content made result) : Outcome path content tree result

theorem outcome_directories (hname : path.fileName? = some name) {done rest : List (List String)}
    (above : directoriesAbove path = done ++ rest)
    (made : tree.performAll (done.map .makeDirectory) = (now, none)) (answers : List DiskAnswer) :
    Outcome path content tree
      (performUnder answers (rest.map .makeDirectory ++ writeSteps path content) now) := by
  induction rest generalizing done now answers with
  | nil =>
      rw [List.append_nil] at above
      exact .writing now _ (above ▸ made) (left_writeSteps hname answers)
  | cons names rest ih =>
      refine performUnder_cons (by nofun) (fun result hresult => .making done _ now result hresult above made)
        (fun next hnext answers => ?_) answers
      have habove : directoriesAbove path = (done ++ [names]) ++ rest := by
        rw [above, List.append_assoc, List.singleton_append]
      refine ih habove ?_ answers
      rw [List.map_append, FileTree.performAll_append, made]
      exact FileTree.performAll_cons_eq_none.mpr ⟨next, hnext, rfl⟩

theorem outcome_saveUnder (hname : path.fileName? = some name) (answers : List DiskAnswer) (records : List NodeRecord)
    (tree : FileTree) : Outcome path (Bytes.ofText (print records)) tree (saveUnder answers path records tree) := by
  have hmakes := @outcome_directories path name tree tree (Bytes.ofText (print records)) hname []
    (directoriesAbove path) rfl rfl
  rw [saveUnder, saveSteps, directorySteps]
  split
  next hnone =>
    have hempty : directoriesAbove path = [] := by rw [directoriesAbove, hnone]; rfl
    rw [hempty] at hmakes
    exact hmakes answers
  next parent habove =>
    refine performUnder_cons (by simp) (fun result hresult => .making [] _ tree result hresult rfl rfl)
      (fun next hnext answers => ?_) answers
    obtain ⟨-, rfl⟩ := FileTree.perform_follow_eq_ok.mp hnext
    exact hmakes answers

/-- The content of the file at a place, if there is one. -/
def fileAt? (tree : FileTree) (place : TreePath) : Option Bytes :=
  match tree.entry? place with
  | some (.file content) => some content
  | _ => none

/-- What a save may leave of a tree, whatever the disk does. -/
structure AllOrNothing (path : WrittenPath) (content : Bytes) (tree now : FileTree) (result : SaveResult) : Prop where
  /-- A save that has succeeded leaves the whole content, which can be read, and no temporary file. -/
  saved : result = .saved → fileAt? now path.place = some content ∧ now.read path = .ok content ∧
    now.entry? path.temporary.place = none
  /-- Any other leaves the file there was, or none if there was none. -/
  kept : result ≠ .saved → fileAt? now path.place = fileAt? tree path.place
  /-- A file that could be read before still can. -/
  readable : result ≠ .saved → ∀ old, tree.read path = .ok old → now.read path = .ok old
  /-- Of a path that leads up somewhere such a save may make a directory. Of others it makes nothing. -/
  plain : result ≠ .saved → ".." ∉ path.names → now.entry? path.place = tree.entry? path.place
  /-- Everything else stays as it was, but for the temporary file and new directories above the path. -/
  others : ∀ place, place ≠ path.temporary.place → (result = .saved → place ≠ path.place) →
    FileTree.MadeAt path.above tree now place
  /-- What is left does not stand in the way of another save. -/
  writable : Writable path tree → Writable path now
  /-- One that succeeds leaves its whole content and no temporary file, whatever was left before. -/
  repaired : ∀ records, (save path records now).2 = none →
    (save path records now).1.read path = .ok (Bytes.ofText (print records)) ∧
      FileTree.entry? (save path records now).1 path.temporary.place = none

namespace Outcome

variable {result : SaveResult}

theorem others (h : Outcome path content tree (now, result)) {place : TreePath}
    (htemporary : place ≠ path.temporary.place) (htarget : result = .saved → place ≠ path.place) :
    FileTree.MadeAt path.above tree now place := by
  cases h with
  | making done rest _ _ unsaved above made =>
      refine (FileTree.made_of_performAll made place).mono ?_
      rw [WrittenPath.above, above, List.map_append]
      exact List.subset_append_left _ _
  | writing made _ hmade left =>
      have hbefore := FileTree.made_of_performAll hmade place
      have hsame : now.entry? place = made.entry? place := by
        cases left with
        | kept _ _ unsaved scratched => exact scratched.others place htemporary
        | saved _ installed => exact installed.others place htemporary (htarget rfl)
      rw [FileTree.MadeAt, hsame]
      exact hbefore

theorem keeps (h : Outcome path content tree (now, result)) : FileTree.KeepsDirectories tree now := by
  cases h with
  | making done rest _ _ unsaved above made => exact (FileTree.made_of_performAll made).keeps
  | writing made _ hmade left =>
      have hbefore := (FileTree.made_of_performAll hmade).keeps
      cases left with
      | kept _ _ unsaved scratched => exact fun place h => scratched.directories.keeps place (hbefore place h)
      | saved _ installed => exact fun place h => installed.directories.keeps place (hbefore place h)

/-- All directories above the path can still be made, and where files were to go there are still no directories. -/
theorem writable (h : Outcome path content tree (now, result)) (hwritable : Writable path tree) :
    Writable path now := by
  obtain ⟨made, hmade, ⟨start, hstart⟩, ⟨goal, hgoal⟩, htail⟩ := hwritable
  cases h with
  | making done rest _ _ unsaved above hdone =>
      refine ⟨made, ?_, ⟨start, hstart⟩, ⟨goal, hgoal⟩, htail⟩
      have hagain := FileTree.performAll_of_isDirectory (FileTree.isDirectory_of_performAll hdone)
      rw [above, List.map_append, FileTree.performAll_append] at hmade ⊢
      rw [hdone] at hmade
      rw [hagain]
      exact hmade
  | writing made' _ hmade' left =>
      obtain rfl : made = made' := congrArg Prod.fst (hmade.symm.trans hmade')
      have hsame : made.SameDirectories now := by
        cases left with
        | kept _ _ unsaved scratched => exact scratched.directories
        | saved _ installed => exact installed.directories
      have hthere : ∀ names ∈ directoriesAbove path, now.IsDirectory names := fun names hmem =>
        (FileTree.isDirectory_of_performAll hmade names hmem).keep hsame.keeps
      exact ⟨now, FileTree.performAll_of_isDirectory hthere, ⟨start, (hsame.vacant _ _).mp hstart⟩,
        ⟨goal, (hsame.vacant _ _).mp hgoal⟩, htail⟩

theorem saved (h : Outcome path content tree (now, .saved)) :
    now.entry? path.place = some (.file content) ∧ now.read path = .ok content ∧
      now.entry? path.temporary.place = none := by
  cases h with
  | making done rest _ _ unsaved => exact absurd rfl unsaved
  | writing made _ hmade left =>
      cases left with
      | kept _ _ unsaved => exact absurd rfl unsaved
      | saved _ installed => exact ⟨installed.target, installed.read, installed.temporary⟩

theorem allOrNothing (hname : path.fileName? = some name) (h : Outcome path content tree (now, result)) :
    AllOrNothing path content tree now result where
  saved hsaved := by
    subst hsaved
    obtain ⟨htarget, hread, htemporary⟩ := h.saved
    exact ⟨by rw [fileAt?, htarget], hread, htemporary⟩
  kept hresult := by
    rcases h.others (WrittenPath.temporary_place_ne hname).symm (absurd · hresult) with hsame | ⟨-, hnone, hmade⟩
    · rw [fileAt?, fileAt?, hsame]
    · rw [fileAt?, fileAt?, hnone, hmade]
  readable hresult old hold := by
    obtain ⟨hlocate, hentry, htail⟩ := FileTree.of_read_eq_ok hold
    rcases h.others (WrittenPath.temporary_place_ne hname).symm (absurd · hresult) with hsame | ⟨-, hnone, -⟩
    · exact FileTree.read_eq_ok (h.keeps.locate hlocate) (hsame.trans hentry) htail
    · cases hnone.symm.trans hentry
  plain hresult hplain := by
    rcases h.others (WrittenPath.temporary_place_ne hname).symm (absurd · hresult) with hsame | ⟨hmem, -⟩
    · exact hsame
    · exact absurd hmem (WrittenPath.place_not_mem_above hname hplain)
  others _ htemporary htarget := h.others htemporary htarget
  writable := h.writable
  repaired records hsave := by
    have hagain := outcome_saveUnder hname
      (List.replicate (saveSteps path (Bytes.ofText (print records))).length .done) records now
    rw [saveUnder_done, hsave, Option.elim_none] at hagain
    exact hagain.saved.2

end Outcome

/-- **Saving is all or nothing.** Whatever was there before, and whatever the disk does with each step of a save to
    a path with a file name:

    * the file at the path is the one that was there, or none if there was none, until the save has succeeded, and
      then it is the whole new one; nothing else changes but the temporary file and missing directories above the
      path, and a later save can still succeed and clears up (`AllOrNothing`);
    * a run that is cut short stands where a longer one goes on, so this is so at every moment of a run;
    * a save is a run on a disk that does everything at once. -/
theorem save_all_or_nothing (hname : path.fileName? = some name) (records : List NodeRecord) (tree : FileTree) :
    (∀ answers, AllOrNothing path (Bytes.ofText (print records)) tree (saveUnder answers path records tree).1
        (saveUnder answers path records tree).2) ∧
      (∀ answers more, (saveUnder answers path records tree).2 = .cut → ∃ rest,
        saveUnder (answers ++ more) path records tree
          = performUnder more rest (saveUnder answers path records tree).1) ∧
      saveUnder (List.replicate (saveSteps path (Bytes.ofText (print records))).length .done) path records tree =
        ((save path records tree).1, (save path records tree).2.elim .saved .failed) :=
  ⟨fun answers => (outcome_saveUnder hname answers records tree).allOrNothing hname,
    fun answers more hcut => performUnder_resume answers more hcut, saveUnder_done path records tree⟩

/-- A file, and a temporary file that a save before has left. -/
def litteredTree : FileTree where
  entries := [(["data"], .directory), (["data", "nodes.json"], .file [0x7b]), (["data", "nodes.json.tmp"], .file [0])]

/-- The power is lost when one of two bytes is written. The file is what it was, and another save clears up. -/
theorem litteredTree_kept :
    WrittenPath.fileName? { names := ["data", "nodes.json"] } = some "nodes.json" ∧
      saveUnder [.done, .done, .done, .partly 1] { names := ["data", "nodes.json"] } [] litteredTree =
        (⟨[(["data"], .directory), (["data", "nodes.json"], .file [0x7b]),
          (["data", "nodes.json.tmp"], .file [0x5b])]⟩, .cut) ∧
      AllOrNothing { names := ["data", "nodes.json"] } (Bytes.ofText (print [])) litteredTree
        (saveUnder [.done, .done, .done, .partly 1] { names := ["data", "nodes.json"] } [] litteredTree).1 .cut := by
  have hcut : saveUnder [.done, .done, .done, .partly 1] { names := ["data", "nodes.json"] } [] litteredTree =
      (⟨[(["data"], .directory), (["data", "nodes.json"], .file [0x7b]),
        (["data", "nodes.json.tmp"], .file [0x5b])]⟩, .cut) := by decide +kernel
  have hnamed : WrittenPath.fileName? { names := ["data", "nodes.json"] } = some "nodes.json" := by decide
  have hnever := (save_all_or_nothing hnamed [] litteredTree).1 [.done, .done, .done, .partly 1]
  refine ⟨hnamed, hcut, ?_⟩
  rw [hcut] at hnever ⊢
  exact hnever

end BitcoinCrawl.NodeFile
