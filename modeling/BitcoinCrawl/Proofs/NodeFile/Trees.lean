import BitcoinCrawl.NodeFile.FileTree

set_option autoImplicit false

/-! # Entries of file trees

What is at a path after a change, which names lead where, and what each step on a file needs and does. A place is
found through directories alone, so changes to files move nothing. -/

namespace BitcoinCrawl.FileTree

variable {tree tree' : FileTree} {place : TreePath}

/-! ## Entries -/

theorem lookup_filter_ne (entries : List (TreePath × TreeEntry)) (removed place : TreePath) :
    (entries.filter fun e => e.1 ≠ removed).lookup place =
      if place = removed then none else entries.lookup place := by
  induction entries with
  | nil => simp
  | cons e entries ih =>
      obtain ⟨at', entry⟩ := e
      by_cases hremoved : at' = removed
      · subst hremoved
        rw [List.filter_cons_of_neg (by simp), ih]
        split
        next => rfl
        next hother => rw [List.lookup_cons, beq_false_of_ne hother]
      · rw [List.filter_cons_of_pos (by simpa using hremoved), List.lookup_cons, List.lookup_cons, ih]
        by_cases hat : place = at'
        · subst hat
          simp [hremoved]
        · simp [beq_false_of_ne hat]

/-- Nothing is left at a removed path, and everything else stays. -/
theorem entry?_remove (tree : FileTree) {removed : TreePath} (hremoved : removed ≠ []) (place : TreePath) :
    entry? (tree.remove removed) place = if place = removed then none else tree.entry? place := by
  cases place with
  | nil => rw [if_neg hremoved.symm]; rfl
  | cons name names => exact lookup_filter_ne tree.entries removed (name :: names)

/-- What was put at a path is there, and everything else stays. -/
theorem entry?_put (tree : FileTree) {target : TreePath} (htarget : target ≠ []) (entry : TreeEntry)
    (place : TreePath) :
    entry? (tree.put target entry) place = if place = target then some entry else tree.entry? place := by
  cases place with
  | nil => rw [if_neg htarget.symm]; rfl
  | cons name names =>
      show (tree.entries.filter _ ++ [(target, entry)]).lookup (name :: names) = _
      rw [List.lookup_append, lookup_filter_ne]
      by_cases hplace : name :: names = target
      · simp [hplace]
      · rw [if_neg hplace, if_neg hplace, List.lookup_cons, beq_false_of_ne hplace]
        exact Option.or_none

/-! ## Directories -/

/-- The directories of two trees are at the same paths. -/
def SameDirectories (tree tree' : FileTree) : Prop :=
  ∀ place, tree.entry? place = some .directory ↔ tree'.entry? place = some .directory

/-- The root is a directory. -/
theorem ne_root (h : tree.entry? place ≠ some .directory) : place ≠ [] := by
  rintro rfl
  exact h rfl

namespace SameDirectories

theorem trans {tree'' : FileTree} (first : SameDirectories tree tree') (second : SameDirectories tree' tree'') :
    SameDirectories tree tree'' := fun place => (first place).trans (second place)

theorem of_change (hold : tree.entry? place ≠ some .directory) (hnew : tree'.entry? place ≠ some .directory)
    (hothers : ∀ other, other ≠ place → tree'.entry? other = tree.entry? other) : SameDirectories tree tree' := by
  intro other
  by_cases hother : other = place
  · subst hother
    exact iff_of_false hold hnew
  · rw [hothers other hother]

theorem put (hplace : tree.entry? place ≠ some .directory) (content : Bytes) :
    SameDirectories tree (tree.put place (.file content)) := by
  have hentry := entry?_put tree (ne_root hplace) (.file content)
  refine of_change hplace ?_ fun other hother => ?_
  · rw [hentry, if_pos rfl]
    nofun
  · rw [hentry, if_neg hother]

theorem remove (hplace : tree.entry? place ≠ some .directory) : SameDirectories tree (tree.remove place) := by
  have hentry := entry?_remove tree (ne_root hplace)
  refine of_change hplace ?_ fun other hother => ?_
  · rw [hentry, if_pos rfl]
    nofun
  · rw [hentry, if_neg hother]

end SameDirectories

/-- A name behind a place that is no directory leads nowhere. -/
theorem locate_cons_eq_ok {name : String} {names : List String} {goal : TreePath} :
    tree.locate place (name :: names) = .ok goal ↔
      tree.entry? place = some .directory ∧
        ((name = ".." ∧ tree.locate place.dropLast names = .ok goal) ∨
          (name ≠ ".." ∧ name.utf8ByteSize ≤ maxName ∧ tree.locate (place ++ [name]) names = .ok goal)) := by
  rw [locate]
  split
  next hnone => simp [hnone]
  next hfile => simp [hfile]
  next hdirectory =>
    by_cases hup : name = ".."
    · simp [hup, hdirectory]
    · by_cases hlong : maxName < name.utf8ByteSize
      · simp [hup, hdirectory, hlong, Nat.not_le.mpr hlong]
      · simp [hup, hdirectory, hlong, Nat.le_of_not_lt hlong]

/-- Names lead to the same places in trees with the same directories. -/
theorem SameDirectories.locate (h : SameDirectories tree tree') (names : List String) (place goal : TreePath) :
    tree.locate place names = .ok goal ↔ tree'.locate place names = .ok goal := by
  induction names generalizing place with
  | nil => exact Iff.rfl
  | cons name names ih => rw [locate_cons_eq_ok, locate_cons_eq_ok, h place, ih, ih]

/-! ## Steps on files -/

/-- Names lead to a place at which there is a file or can be one. -/
def Vacant (tree : FileTree) (names : List String) (place : TreePath) : Prop :=
  tree.locate [] names = .ok place ∧ tree.entry? place ≠ some .directory

theorem SameDirectories.vacant (h : SameDirectories tree tree') (names : List String) (place : TreePath) :
    tree.Vacant names place ↔ tree'.Vacant names place :=
  and_congr (h.locate names [] place) (not_congr (h place))

/-- Two parts of a step of which either may fail succeed together if both do. -/
theorem bind_eq_ok {α β : Type} {x : Except TreeFault α} {f : α → Except TreeFault β} {b : β} :
    (x >>= f) = .ok b ↔ ∃ a, x = .ok a ∧ f a = .ok b := by
  cases x with
  | error fault => exact ⟨nofun, fun ⟨_, h, _⟩ => nomatch h⟩
  | ok a => exact ⟨fun h => ⟨a, rfl, h⟩, fun ⟨_, rfl, h⟩ => h⟩

variable {path source target : WrittenPath}

theorem perform_create_eq_ok :
    tree.perform (.create path) = .ok tree' ↔
      ∃ place, tree.Vacant path.names place ∧ tree' = tree.put place (.file []) := by
  rw [perform, bind_eq_ok]
  refine exists_congr fun place => ?_
  rw [Vacant, and_assoc]
  refine and_congr_right fun _ => ?_
  split
  next hdirectory => exact iff_of_false nofun fun h => h.1 hdirectory
  next hfree => exact ⟨fun h => ⟨hfree, (Except.ok.inj h).symm⟩, fun h => congrArg Except.ok h.2.symm⟩

theorem perform_append_eq_ok {bytes : Bytes} :
    tree.perform (.append path bytes) = .ok tree' ↔
      ∃ place content, tree.locate [] path.names = .ok place ∧ tree.entry? place = some (.file content) ∧
        tree' = tree.put place (.file (content ++ bytes)) := by
  rw [perform, bind_eq_ok]
  refine exists_congr fun place => ?_
  rw [exists_and_left]
  refine and_congr_right fun _ => ?_
  split
  next hnone => exact iff_of_false nofun fun ⟨_, h, _⟩ => nomatch hnone.symm.trans h
  next hdirectory => exact iff_of_false nofun fun ⟨_, h, _⟩ => nomatch hdirectory.symm.trans h
  next content hfile =>
    rw [hfile]
    refine ⟨fun h => ⟨content, rfl, (Except.ok.inj h).symm⟩, ?_⟩
    rintro ⟨_, hsame, rfl⟩
    cases hsame
    rfl

theorem perform_sync_eq_ok :
    tree.perform (.sync path) = .ok tree' ↔
      ∃ place, tree.locate [] path.names = .ok place ∧ tree.entry? place ≠ none ∧ tree' = tree := by
  rw [perform, bind_eq_ok]
  refine exists_congr fun place => and_congr_right fun _ => ?_
  cases tree.entry? place with
  | none => exact iff_of_false nofun fun h => h.1 rfl
  | some entry => exact ⟨fun h => ⟨nofun, (Except.ok.inj h).symm⟩, fun h => congrArg Except.ok h.2.symm⟩

theorem perform_rename_eq_ok :
    tree.perform (.rename source target) = .ok tree' ↔
      ∃ start entry goal, tree.locate [] source.names = .ok start ∧ tree.entry? start = some entry ∧
        tree.Vacant target.names goal ∧ target.tail = .nothing ∧
        tree' = (tree.remove start).put goal entry := by
  rw [perform, bind_eq_ok]
  refine exists_congr fun start => ?_
  simp only [exists_and_left]
  refine and_congr_right fun _ => ?_
  rw [bind_eq_ok]
  cases tree.entry? start with
  | none => exact iff_of_false (fun ⟨_, _, h⟩ => nomatch h) fun ⟨_, h, _⟩ => nomatch h
  | some entry =>
      refine ⟨?_, ?_⟩
      · rintro ⟨goal, hgoal, h⟩
        split at h
        next hnone => cases hnone
        next => cases h
        next hsome hfree =>
          cases hsome
          split at h
          next htail => exact ⟨entry, rfl, goal, ⟨hgoal, hfree⟩, htail, (Except.ok.inj h).symm⟩
          next => cases h
          next => cases h
      · rintro ⟨_, hsame, goal, ⟨hgoal, hfree⟩, htail, rfl⟩
        cases hsame
        refine ⟨goal, hgoal, ?_⟩
        split
        next hnone => cases hnone
        next hdirectory => exact absurd hdirectory hfree
        next hsome _ =>
          cases hsome
          rw [htail]
          rfl

/-- A file that names lead to is read, unless they are written with something behind them. -/
theorem read_eq_ok {content : Bytes} (hlocate : tree.locate [] path.names = .ok place)
    (hentry : tree.entry? place = some (.file content)) (htail : path.tail = .nothing) :
    tree.read path = .ok content := by
  rw [read, bind_eq_ok]
  refine ⟨place, hlocate, ?_⟩
  rw [hentry, htail]
  rfl

theorem performAll_append (tree : FileTree) (steps more : List FileStep) :
    tree.performAll (steps ++ more) =
      match tree.performAll steps with
      | (after, none) => after.performAll more
      | (after, some fault) => (after, some fault) := by
  induction steps generalizing tree with
  | nil => rfl
  | cons step steps ih =>
      rw [List.cons_append, performAll, performAll]
      split
      next => exact ih _
      next => rfl

/-- Steps succeed if the first one does and the others do after it. -/
theorem performAll_cons_eq_none {step : FileStep} {steps : List FileStep} :
    tree.performAll (step :: steps) = (tree', none) ↔
      ∃ next, tree.perform step = .ok next ∧ next.performAll steps = (tree', none) := by
  rw [performAll]
  cases tree.perform step with
  | ok next => exact ⟨fun h => ⟨next, rfl, h⟩, fun ⟨_, rfl, h⟩ => h⟩
  | error fault => exact iff_of_false nofun fun ⟨_, h, _⟩ => nomatch h

end BitcoinCrawl.FileTree
