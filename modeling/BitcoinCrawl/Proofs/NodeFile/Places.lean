import BitcoinCrawl.NodeFile.Store
import BitcoinCrawl.Proofs.NodeFile.Trees

set_option autoImplicit false

/-! # Places of written paths

Where a path leads can be read off its names, if it leads anywhere (`FileTree.eq_followed_of_locate`). So one can
say which places a save is about without a tree: the one of the file, the one of the temporary file next to it, and
those of the directories above. Making directories only adds to them (`FileTree.Made`), and directories that are
there need not be made again. -/

namespace BitcoinCrawl

/-- Where names lead from a place through directories. Two points lead up. -/
def followed (place : TreePath) (names : List String) : TreePath :=
  names.foldl (fun place name => if name = ".." then place.dropLast else place ++ [name]) place

namespace FileTree

variable {tree tree' made : FileTree} {place goal : TreePath} {names : List String} {dirs : List (List String)}

theorem eq_followed_of_locate (h : tree.locate place names = .ok goal) : goal = followed place names := by
  induction names generalizing place with
  | nil => exact (Except.ok.inj h).symm
  | cons name names ih =>
      show goal = followed (if name = ".." then place.dropLast else place ++ [name]) names
      rcases (locate_cons_eq_ok.mp h).2 with ⟨hup, hrest⟩ | ⟨hname, -, hrest⟩
      · rw [if_pos hup]
        exact ih hrest
      · rw [if_neg hname]
        exact ih hrest

/-- The directories of one tree are directories of another. -/
def KeepsDirectories (tree tree' : FileTree) : Prop :=
  ∀ place, tree.entry? place = some .directory → tree'.entry? place = some .directory

theorem SameDirectories.keeps (h : SameDirectories tree tree') : KeepsDirectories tree tree' :=
  fun place => (h place).mp

theorem KeepsDirectories.locate (h : KeepsDirectories tree tree') (hgoal : tree.locate place names = .ok goal) :
    tree'.locate place names = .ok goal := by
  induction names generalizing place with
  | nil => exact hgoal
  | cons name names ih =>
      rw [locate_cons_eq_ok] at hgoal ⊢
      obtain ⟨hdirectory, hrest⟩ := hgoal
      exact ⟨h place hdirectory, hrest.imp (fun ⟨hup, hrest⟩ => ⟨hup, ih hrest⟩)
        fun ⟨hname, hlength, hrest⟩ => ⟨hname, hlength, ih hrest⟩⟩

/-! ## Making directories -/

theorem perform_makeDirectory_eq_ok :
    tree.perform (.makeDirectory names) = .ok tree' ↔
      ∃ place, tree.locate [] names = .ok place ∧
        (tree.entry? place = none ∧ tree' = tree.put place .directory ∨
          tree.entry? place = some .directory ∧ tree' = tree) := by
  rw [perform, bind_eq_ok]
  refine exists_congr fun place => and_congr_right fun _ => ?_
  cases tree.entry? place with
  | none =>
      exact ⟨fun h => .inl ⟨rfl, (Except.ok.inj h).symm⟩, by rintro (⟨-, rfl⟩ | ⟨h, -⟩) <;> trivial⟩
  | some entry =>
      cases entry with
      | file content =>
          refine iff_of_false ?_ ?_
          · rintro ⟨⟩
          · rintro (⟨h, -⟩ | ⟨h, -⟩) <;> cases h
      | directory =>
          exact ⟨fun h => .inr ⟨rfl, (Except.ok.inj h).symm⟩, by rintro (⟨h, -⟩ | ⟨-, rfl⟩) <;> trivial⟩

/-- What is at a place is what was there, unless it is one of some places, where a directory is now and nothing was
    before. -/
def MadeAt (places : List TreePath) (tree made : FileTree) (place : TreePath) : Prop :=
  made.entry? place = tree.entry? place ∨
    place ∈ places ∧ tree.entry? place = none ∧ made.entry? place = some .directory

/-- At some places where nothing was there are directories now, and nothing else has changed. -/
def Made (places : List TreePath) (tree made : FileTree) : Prop := ∀ place, MadeAt places tree made place

theorem MadeAt.mono {places more : List TreePath} (h : MadeAt places tree made place) (hsub : places ⊆ more) :
    MadeAt more tree made place :=
  h.imp_right fun ⟨hmem, hnow⟩ => ⟨hsub hmem, hnow⟩

theorem Made.keeps {places : List TreePath} (h : Made places tree made) : KeepsDirectories tree made := by
  intro place hdirectory
  rcases h place with hsame | ⟨-, -, hmade⟩
  · rw [hsame, hdirectory]
  · exact hmade

theorem made_of_perform (h : tree.perform (.makeDirectory names) = .ok made) : Made [followed [] names] tree made := by
  obtain ⟨place, hlocate, ⟨hnone, rfl⟩ | ⟨-, rfl⟩⟩ := perform_makeDirectory_eq_ok.mp h
  · obtain rfl := eq_followed_of_locate hlocate
    intro other
    have hput := entry?_put tree (ne_root (by rw [hnone]; nofun)) .directory other
    by_cases hother : other = followed [] names
    · subst hother
      exact .inr ⟨List.mem_singleton_self _, hnone, hput.trans (if_pos rfl)⟩
    · exact .inl (hput.trans (if_neg hother))
  · exact fun _ => .inl rfl

theorem Made.trans {places more : List TreePath} (first : Made places tree tree') (second : Made more tree' made) :
    Made (places ++ more) tree made := by
  intro place
  rcases first place with hsame | ⟨hmem, hnone, hmade⟩
  · rcases second place with hsame' | ⟨hmem, hnone, hmade⟩
    · exact .inl (hsame'.trans hsame)
    · exact .inr ⟨List.mem_append_right _ hmem, hsame ▸ hnone, hmade⟩
  · exact .inr ⟨List.mem_append_left _ hmem, hnone, second.keeps place hmade⟩

theorem made_of_performAll (h : tree.performAll (dirs.map .makeDirectory) = (made, none)) :
    Made (dirs.map (followed [])) tree made := by
  induction dirs generalizing tree with
  | nil =>
      obtain rfl : tree = made := congrArg Prod.fst h
      exact fun _ => .inl rfl
  | cons names dirs ih =>
      obtain ⟨next, hnext, hrest⟩ := performAll_cons_eq_none.mp h
      exact (made_of_perform hnext).trans (ih hrest)

/-- A file that can be read is at the place that its path is about. -/
theorem of_read_eq_ok {path : WrittenPath} {content : Bytes} (h : tree.read path = .ok content) :
    tree.locate [] path.names = .ok (followed [] path.names) ∧
      tree.entry? (followed [] path.names) = some (.file content) ∧ path.tail = .nothing := by
  rw [read, bind_eq_ok] at h
  obtain ⟨place, hlocate, h⟩ := h
  obtain rfl := eq_followed_of_locate hlocate
  refine ⟨hlocate, ?_⟩
  split at h
  next => cases h
  next => cases h
  next content' hentry =>
    split at h
    next htail =>
      cases h
      exact ⟨hentry, htail⟩
    next => cases h

/-- Names lead to a directory. -/
def IsDirectory (tree : FileTree) (names : List String) : Prop :=
  ∃ place, tree.locate [] names = .ok place ∧ tree.entry? place = some .directory

theorem IsDirectory.keep (h : tree.IsDirectory names) (hkeeps : KeepsDirectories tree tree') :
    tree'.IsDirectory names := by
  obtain ⟨place, hlocate, hdirectory⟩ := h
  exact ⟨place, hkeeps.locate hlocate, hkeeps place hdirectory⟩

theorem isDirectory_of_performAll (h : tree.performAll (dirs.map .makeDirectory) = (made, none)) :
    ∀ names ∈ dirs, made.IsDirectory names := by
  induction dirs generalizing tree with
  | nil => exact fun _ hmem => nomatch hmem
  | cons names dirs ih =>
      obtain ⟨next, hnext, hrest⟩ := performAll_cons_eq_none.mp h
      refine List.forall_mem_cons.mpr ⟨?_, ih hrest⟩
      refine IsDirectory.keep ?_ (made_of_performAll hrest).keeps
      have hkeeps := (made_of_perform hnext).keeps
      obtain ⟨place, hlocate, ⟨hnone, rfl⟩ | ⟨hdirectory, rfl⟩⟩ := perform_makeDirectory_eq_ok.mp hnext
      · refine ⟨place, hkeeps.locate hlocate, ?_⟩
        rw [entry?_put tree (ne_root (by rw [hnone]; nofun)), if_pos rfl]
      · exact ⟨place, hlocate, hdirectory⟩

/-- Directories that are there are not made again. -/
theorem performAll_of_isDirectory (h : ∀ names ∈ dirs, tree.IsDirectory names) :
    tree.performAll (dirs.map .makeDirectory) = (tree, none) := by
  induction dirs with
  | nil => rfl
  | cons names dirs ih =>
      obtain ⟨⟨place, hlocate, hdirectory⟩, hrest⟩ := List.forall_mem_cons.mp h
      exact performAll_cons_eq_none.mpr
        ⟨tree, perform_makeDirectory_eq_ok.mpr ⟨place, hlocate, .inr ⟨hdirectory, rfl⟩⟩, ih hrest⟩

/-- Names that lead somewhere once directories are made led there before, or something was missing. -/
theorem Made.locate {places : List TreePath} (h : Made places tree made)
    (hgoal : made.locate place names = .ok goal) :
    tree.locate place names = .ok goal ∨ tree.locate place names = .error .notFound := by
  induction names generalizing place with
  | nil => exact .inl hgoal
  | cons name names ih =>
      obtain ⟨hdirectory, hrest⟩ := locate_cons_eq_ok.mp hgoal
      rw [FileTree.locate]
      rcases h place with hsame | ⟨-, hnone, -⟩
      · rw [← hsame, hdirectory]
        dsimp only
        rcases hrest with ⟨hup, hrest⟩ | ⟨hname, hlength, hrest⟩
        · rw [if_pos hup]
          exact ih hrest
        · rw [if_neg hname, if_neg (Nat.not_lt_of_le hlength)]
          exact ih hrest
      · rw [hnone]
        exact .inr rfl

theorem perform_follow_eq_ok :
    tree.perform (.follow names) = .ok tree' ↔
      ((∃ place, tree.locate [] names = .ok place) ∨ tree.locate [] names = .error .notFound) ∧ tree' = tree := by
  rw [perform]
  split
  next place hlocate => simp [hlocate, eq_comm]
  next hlocate => simp [hlocate, eq_comm]
  next fault hfault hlocate => simpa [hlocate] using fun h => absurd h hfault

end FileTree

/-! ## The places of a save -/

namespace NodeFile

variable {path : WrittenPath} {tree made : FileTree}

theorem parent_mem_directoriesAbove (h : path.parent ≠ []) : path.parent ∈ directoriesAbove path := by
  have hpos := List.length_pos_iff.mpr h
  refine List.mem_map.mpr ⟨path.parent.length - 1, List.mem_range.mpr (by omega), ?_⟩
  rw [Nat.sub_add_cancel hpos]
  exact List.take_length

/-- If all directories above a path can be made, then nothing else stands in the way of the lowest. -/
theorem performAll_directorySteps : tree.performAll (directorySteps path) = (made, none) ↔
    tree.performAll ((directoriesAbove path).map .makeDirectory) = (made, none) := by
  unfold directorySteps
  split
  next hnone =>
    rw [directoriesAbove, hnone]
    rfl
  next parent habove =>
    rw [FileTree.performAll_cons_eq_none]
    refine ⟨?_, fun hmade => ⟨tree, ?_, hmade⟩⟩
    · rintro ⟨next, hfollow, hmade⟩
      obtain ⟨-, rfl⟩ := FileTree.perform_follow_eq_ok.mp hfollow
      exact hmade
    · obtain ⟨place, hlocate, -⟩ :=
        FileTree.isDirectory_of_performAll hmade _ (parent_mem_directoriesAbove habove)
      have hbefore := (FileTree.made_of_performAll hmade).locate hlocate
      exact FileTree.perform_follow_eq_ok.mpr ⟨hbefore.imp_left fun h => ⟨place, h⟩, rfl⟩

end NodeFile

namespace WrittenPath

variable {path : WrittenPath} {name : String}

/-- The place that a path is about. -/
def place (path : WrittenPath) : TreePath := followed [] path.names

/-- The places of the directories above a path. -/
def above (path : WrittenPath) : List TreePath := (NodeFile.directoriesAbove path).map (followed [])

theorem followed_append_singleton {start : TreePath} {names : List String} (hname : name ≠ "..") :
    followed start (names ++ [name]) = followed start names ++ [name] := by
  rw [followed, List.foldl_append, List.foldl_cons, List.foldl_nil, if_neg hname]
  rfl

theorem names_of_fileName (h : path.fileName? = some name) : path.names = path.parent ++ [name] ∧ name ≠ ".." := by
  obtain ⟨hlast, hname⟩ := Option.filter_eq_some_iff.mp h
  obtain ⟨names, hnames⟩ := List.getLast?_eq_some_iff.mp hlast
  exact ⟨by rw [parent, hnames, List.dropLast_concat], of_decide_eq_true hname⟩

theorem place_of_fileName (h : path.fileName? = some name) : path.place = followed [] path.parent ++ [name] := by
  obtain ⟨hnames, hname⟩ := names_of_fileName h
  rw [place, hnames, followed_append_singleton hname]

/-- The temporary file lies next to the file, and its name is longer. -/
theorem temporary_place (h : path.fileName? = some name) :
    path.temporary.place = followed [] path.parent ++ [name ++ ".tmp"] := by
  have htemporary : path.temporary.names = path.parent ++ [name ++ ".tmp"] := by rw [temporary, h]
  have hname : name ++ ".tmp" ≠ ".." := by
    intro heq
    have hlength : name.length + 4 = 2 := (String.length_append name ".tmp").symm.trans (congrArg String.length heq)
    omega
  rw [place, htemporary, followed_append_singleton hname]

theorem temporary_place_ne (h : path.fileName? = some name) : path.temporary.place ≠ path.place := by
  rw [temporary_place h, place_of_fileName h]
  simp

theorem followed_eq_append {start : TreePath} {names : List String} (plain : ".." ∉ names) :
    followed start names = start ++ names := by
  induction names generalizing start with
  | nil => exact (List.append_nil start).symm
  | cons name names ih =>
      obtain ⟨hname, hnames⟩ := not_or.mp fun h => plain (List.mem_cons.mpr h)
      show followed (if name = ".." then start.dropLast else start ++ [name]) names = _
      rw [if_neg (Ne.symm hname), ih hnames, List.append_assoc]
      rfl

/-- A path that never leads up is not one to a directory above it. -/
theorem place_not_mem_above (h : path.fileName? = some name) (plain : ".." ∉ path.names) :
    path.place ∉ path.above := by
  intro hmem
  obtain ⟨names, hnames, hplace⟩ := List.mem_map.mp hmem
  obtain ⟨n, hn, rfl⟩ := List.mem_map.mp hnames
  have hparent : ".." ∉ path.parent.take (n + 1) := fun hup =>
    plain (List.dropLast_subset _ (List.mem_of_mem_take hup))
  rw [place, followed_eq_append plain, followed_eq_append hparent, List.nil_append, List.nil_append,
    (names_of_fileName h).1] at hplace
  have hlength := congrArg List.length hplace
  rw [List.length_take, List.length_append, List.length_singleton] at hlength
  omega

end WrittenPath

end BitcoinCrawl
