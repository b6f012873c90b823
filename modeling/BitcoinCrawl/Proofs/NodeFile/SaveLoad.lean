import BitcoinCrawl.Proofs.NodeFile.Places
import BitcoinCrawl.Proofs.NodeFile.RoundTrip
import BitcoinCrawl.Proofs.Wire.Reading

set_option autoImplicit false

/-! # Loading what was saved

A save makes the directories above its path first. Its last four steps succeed exactly if the path and the one of
the temporary file then lead to places without a directory, and they leave the whole text at the path. -/

namespace BitcoinCrawl.NodeFile

variable {path : WrittenPath} {tree made written : FileTree} {start goal : TreePath} {content : Bytes}

/-- The steps of a save on the files themselves. -/
def writeSteps (path : WrittenPath) (content : Bytes) : List FileStep :=
  [.create path.temporary, .append path.temporary content, .sync path.temporary, .rename path.temporary path]

/-- A path is writable if the directories above it are there or can be made, and there is then no directory in the
    place of the file or of the temporary one. -/
def Writable (path : WrittenPath) (tree : FileTree) : Prop :=
  ∃ made, tree.performAll ((directoriesAbove path).map .makeDirectory) = (made, none) ∧
    (∃ start, made.Vacant path.temporary.names start) ∧ (∃ goal, made.Vacant path.names goal) ∧
    path.tail = .nothing

/-! ## Writing -/

/-- Where there is room for both files, all four steps succeed and the whole content can be read at the path. -/
theorem performAll_writeSteps (hstart : made.Vacant path.temporary.names start) (hgoal : made.Vacant path.names goal)
    (htail : path.tail = .nothing) (content : Bytes) :
    ∃ written, made.performAll (writeSteps path content) = (written, none) ∧ written.read path = .ok content := by
  have hroot := FileTree.ne_root hstart.2
  -- The temporary file is empty first and holds the content then.
  let empty := made.put start (.file [])
  let full := empty.put start (.file ([] ++ content))
  have hempty : empty.entry? start = some (.file []) := by rw [FileTree.entry?_put made hroot, if_pos rfl]
  have hfull : full.entry? start = some (.file content) := by rw [FileTree.entry?_put empty hroot, if_pos rfl]; rfl
  have hsame : made.SameDirectories empty := .put hstart.2 []
  have hstart' := (hsame.vacant _ _).mp hstart
  have hsame' : made.SameDirectories full := hsame.trans (.put hstart'.2 _)
  have hstart'' := (hsame'.vacant _ _).mp hstart
  have hgoal' := (hsame'.vacant _ _).mp hgoal
  -- The move leaves the directories where they are, too.
  let moved := full.remove start
  have hsame'' : full.SameDirectories moved := .remove hstart''.2
  have hgoal'' := (hsame''.vacant _ _).mp hgoal'
  have hlast : moved.SameDirectories (moved.put goal (.file content)) := .put hgoal''.2 content
  refine ⟨moved.put goal (.file content), ?_, ?_⟩
  · refine FileTree.performAll_cons_eq_none.mpr
      ⟨empty, FileTree.perform_create_eq_ok.mpr ⟨start, hstart, rfl⟩, ?_⟩
    refine FileTree.performAll_cons_eq_none.mpr
      ⟨full, FileTree.perform_append_eq_ok.mpr ⟨start, [], hstart'.1, hempty, rfl⟩, ?_⟩
    refine FileTree.performAll_cons_eq_none.mpr
      ⟨full, FileTree.perform_sync_eq_ok.mpr ⟨start, hstart''.1, by rw [hfull]; nofun, rfl⟩, ?_⟩
    exact FileTree.performAll_cons_eq_none.mpr
      ⟨_, FileTree.perform_rename_eq_ok.mpr ⟨start, _, goal, hstart''.1, hfull, hgoal', htail, rfl⟩, rfl⟩
  · refine FileTree.read_eq_ok ((hlast.vacant _ _).mp hgoal'').1 ?_ htail
    rw [FileTree.entry?_put moved (FileTree.ne_root hgoal.2), if_pos rfl]

/-- There was room for both files if all four steps have succeeded. -/
theorem vacant_of_writeSteps (h : made.performAll (writeSteps path content) = (written, none)) :
    (∃ start, made.Vacant path.temporary.names start) ∧ (∃ goal, made.Vacant path.names goal) ∧
      path.tail = .nothing := by
  obtain ⟨_, hcreate, h⟩ := FileTree.performAll_cons_eq_none.mp h
  obtain ⟨_, happend, h⟩ := FileTree.performAll_cons_eq_none.mp h
  obtain ⟨_, hsync, h⟩ := FileTree.performAll_cons_eq_none.mp h
  obtain ⟨_, hrename, -⟩ := FileTree.performAll_cons_eq_none.mp h
  obtain ⟨start, hstart, rfl⟩ := FileTree.perform_create_eq_ok.mp hcreate
  obtain ⟨place, old, -, hentry, rfl⟩ := FileTree.perform_append_eq_ok.mp happend
  obtain ⟨-, -, -, rfl⟩ := FileTree.perform_sync_eq_ok.mp hsync
  obtain ⟨-, -, goal, -, -, hgoal, htail, -⟩ := FileTree.perform_rename_eq_ok.mp hrename
  have hsame : made.SameDirectories (made.put start (.file [])) := .put hstart.2 []
  have hsame' := hsame.trans (.put (by rw [hentry]; nofun) (old ++ content))
  exact ⟨⟨start, hstart⟩, ⟨goal, (hsame'.vacant _ _).mpr hgoal⟩, htail⟩

/-! ## Saving -/

theorem save_eq (path : WrittenPath) (records : List NodeRecord) (tree : FileTree) :
    save path records tree =
      match tree.performAll (directorySteps path) with
      | (made, none) =>
        let (written, fault) := made.performAll (writeSteps path (Bytes.ofText (print records)))
        (written, fault.map .tree)
      | (made, some fault) => (made, some (.tree fault)) := by
  have hsteps : saveSteps path (Bytes.ofText (print records)) =
      directorySteps path ++ writeSteps path (Bytes.ofText (print records)) := rfl
  rw [save, hsteps, FileTree.performAll_append]
  rcases tree.performAll (directorySteps path) with ⟨made, _ | fault⟩
  · rfl
  · rfl

/-- To a writable path the whole text is saved. -/
theorem save_of_writable (h : Writable path tree) (records : List NodeRecord) :
    ∃ written, save path records tree = (written, none) ∧
      written.read path = .ok (Bytes.ofText (print records)) := by
  obtain ⟨made, hmade, ⟨start, hstart⟩, ⟨goal, hgoal⟩, htail⟩ := h
  obtain ⟨written, hwritten, hread⟩ :=
    performAll_writeSteps hstart hgoal htail (Bytes.ofText (print records))
  refine ⟨written, ?_, hread⟩
  rw [save_eq, performAll_directorySteps.mpr hmade]
  simp only [hwritten, Option.map_none]

/-- A save reports no fault exactly if the path is writable, whatever it has to write. -/
theorem save_eq_none_iff (path : WrittenPath) (records : List NodeRecord) (tree : FileTree) :
    (save path records tree).2 = none ↔ Writable path tree := by
  constructor
  · intro h
    rw [save_eq] at h
    split at h
    next made hmade =>
      rcases hwrite : made.performAll (writeSteps path (Bytes.ofText (print records))) with ⟨written, _ | fault⟩
      · exact ⟨made, performAll_directorySteps.mp hmade, vacant_of_writeSteps hwrite⟩
      · rw [hwrite] at h
        cases h
    next => cases h
  · intro h
    obtain ⟨written, hsave, -⟩ := save_of_writable h records
    rw [hsave]

/-- **A loaded file decodes to the records that were saved.** To whatever writable path a list of records is saved,
    whatever was there before, the save reports no fault, and what is loaded from that path is exactly this list. -/
theorem load_save (h : Writable path tree) (records : List NodeRecord) :
    (save path records tree).2 = none ∧ load path (save path records tree).1 = .ok records := by
  obtain ⟨written, hsave, hread⟩ := save_of_writable h records
  rw [hsave]
  refine ⟨rfl, ?_⟩
  rw [load, hread]
  simp only [Decoder.toText?_ofText, parse_print]

/-- A record with every kind of character in its text, and the largest numbers. -/
def awkwardRecord : NodeRecord where
  endpoint := "[2001:db8::1]:8333"
  services := some 0xffffffffffffffff
  protocolVersion := some 0xffffffff
  userAgent := some "/\"\\:\x01\t\x7fé😀/"
  pingCount := 0xffffffffffffffff

/-- Two records, one of them with nothing but an endpoint, saved into a directory that has to be made. -/
theorem load_save_fresh :
    Writable { names := ["data", "nodes.json"] } {} ∧
      (save { names := ["data", "nodes.json"] } [awkwardRecord, { endpoint := "10.0.0.1:8333" }] {}).2 = none ∧
      load { names := ["data", "nodes.json"] }
          (save { names := ["data", "nodes.json"] } [awkwardRecord, { endpoint := "10.0.0.1:8333" }] {}).1 =
        .ok [awkwardRecord, { endpoint := "10.0.0.1:8333" }] := by
  have hwritable : Writable { names := ["data", "nodes.json"] } {} :=
    ⟨{ entries := [(["data"], .directory)] }, rfl, ⟨["data", "nodes.json.tmp"], by decide, by decide⟩,
      ⟨["data", "nodes.json"], by decide, by decide⟩, rfl⟩
  exact ⟨hwritable, load_save hwritable _⟩

end BitcoinCrawl.NodeFile
