import BitcoinCrawl.Proofs.NodeFile.Scanning

set_option autoImplicit false

/-! # Reading back node files

The text that is printed for a list of records is the text of these records: fields fill the draft of a record one
after the other, and a field that was left out leaves its place empty. -/

namespace BitcoinCrawl.NodeFile

/-- Parts on lines of their own, one comma and line end in front of each but the first. -/
theorem lines_cons (part : List Char) (parts : List (List Char)) :
    lines (part :: parts) = part ++ parts.flatMap fun p => ',' :: '\n' :: p := by
  induction parts generalizing part with
  | nil => simp [lines]
  | cons p parts ih =>
      have hsplit : lines (part :: p :: parts) = part ++ ([',', '\n'] ++ lines (p :: parts)) := by
        simp [lines, List.intercalate]
      rw [hsplit, ih, List.flatMap_cons]
      rfl

/-! ## Fields of an object -/

/-- A field, read behind its key, turns one draft into another. -/
def Sets (field : String × List Char) (before after : Draft) : Prop :=
  ∀ rest, EndsValue rest → Scan.field field.1 before (':' :: ' ' :: (field.2 ++ rest)) = .ok (after, rest)

/-- Fields, read in order, turn one draft into another. -/
inductive Fills : Draft → List (String × List Char) → Draft → Prop where
  | nil (draft : Draft) : Fills draft [] draft
  | cons {field : String × List Char} {fields : List (String × List Char)} {before draft after : Draft}
      (first : Sets field before draft) (others : Fills draft fields after) : Fills before (field :: fields) after

namespace Fills

variable {before draft after : Draft} {fs gs : List (String × List Char)}

theorem append (first : Fills before fs draft) (second : Fills draft gs after) : Fills before (fs ++ gs) after := by
  induction first with
  | nil => exact second
  | cons hset _ ih => exact .cons hset (ih second)

/-- A field that may be left out sets its place to what is known of it. -/
theorem optional {α : Type} (place : Option (Option α) → Draft) (write : α → String × List Char)
    (h : ∀ a, Sets (write a) (place none) (place (some (some a)))) (value : Option α) :
    Fills (place none) (value.map write).toList (place (value.map some)) := by
  cases value with
  | none => exact .nil _
  | some a => exact .cons (h a) (.nil _)

end Fills

/-- The fields of a record fill the draft of the record. -/
theorem fills_fields (r : NodeRecord) : ∃ draft, Fills {} (fields r) draft ∧ draft.record? = some r := by
  have hendpoint : Sets ("endpoint", quoted r.endpoint) {} { endpoint := some r.endpoint } :=
    fun _ hrest => Scan.map_ok ((reads_text r.endpoint).once hrest) _
  have hservices := Fills.optional (fun services => { endpoint := some r.endpoint, services })
    (fun v : UInt64 => ("services", Numeral.decimal v.toNat))
    (fun v _ hrest => Scan.map_ok ((reads_word64 v).optional.once hrest) _) r.services
  have hversion := Fills.optional
    (fun protocolVersion =>
      { endpoint := some r.endpoint, services := r.services.map some, protocolVersion })
    (fun v : UInt32 => ("protocol_version", Numeral.decimal v.toNat))
    (fun v _ hrest => Scan.map_ok ((reads_word32 v).optional.once hrest) _) r.protocolVersion
  have hagent := Fills.optional
    (fun userAgent =>
      { endpoint := some r.endpoint, services := r.services.map some,
        protocolVersion := r.protocolVersion.map some, userAgent })
    (fun v : String => ("user_agent", quoted v))
    (fun v _ hrest => Scan.map_ok ((reads_text v).optional.once hrest) _) r.userAgent
  have hcount : Sets ("ping_count", Numeral.decimal r.pingCount.toNat)
      { endpoint := some r.endpoint, services := r.services.map some,
        protocolVersion := r.protocolVersion.map some, userAgent := r.userAgent.map some }
      { endpoint := some r.endpoint, services := r.services.map some,
        protocolVersion := r.protocolVersion.map some, userAgent := r.userAgent.map some,
        pingCount := some r.pingCount } :=
    fun _ hrest => Scan.map_ok ((reads_word64 r.pingCount).once hrest) _
  refine ⟨_, ((((Fills.cons hendpoint (.nil _)).append hservices).append hversion).append hagent).append
    (.cons hcount (.nil _)), ?_⟩
  obtain ⟨endpoint, services, protocolVersion, userAgent, pingCount⟩ := r
  cases services <;> cases protocolVersion <;> cases userAgent <;> rfl

/-! ## Objects -/

theorem fieldLine_append (field : String × List Char) (rest : List Char) :
    fieldLine field ++ rest = ' ' :: ' ' :: ' ' :: ' ' :: '"' ::
      (field.1.toList.flatMap escaped ++ '"' :: (':' :: ' ' :: (field.2 ++ rest))) := by
  simp [fieldLine, quoted]

/-- A field on its line is read and the others are left, in front of the first field and behind one. -/
theorem objectFields_line {field : String × List Char} {before draft : Draft} (hset : Sets field before draft)
    (fuel : Nat) (isFirst : Bool) {rest : List Char} (hrest : EndsValue rest) :
    Scan.objectFields (fuel + 1) isFirst before
        ((if isFirst then ['\n'] else [',', '\n']) ++ (fieldLine field ++ rest)) =
      Scan.objectFields fuel false draft rest := by
  have hkey : ∀ text, Scan.objectFields (fuel + 1) isFirst before
      ((if isFirst then ['\n'] else [',', '\n']) ++ ' ' :: ' ' :: ' ' :: ' ' :: '"' :: text) =
        (do let key ← Scan.string; Scan.objectFields fuel false (← Scan.field key before)) text := by
    intro text
    cases isFirst <;> rfl
  rw [fieldLine_append, hkey, Scan.bind_ok (Scan.string_quoted field.1 _), Scan.bind_ok (hset rest hrest)]

/-- Lines of fields that stand behind another one, and the line that closes an object. -/
def behindField (fields : List (String × List Char)) (rest : List Char) : List Char :=
  (fields.map fieldLine).flatMap (fun line => ',' :: '\n' :: line) ++ '\n' :: ' ' :: ' ' :: '\x7d' :: rest

theorem behindField_cons (field : String × List Char) (fields : List (String × List Char)) (rest : List Char) :
    behindField (field :: fields) rest = [',', '\n'] ++ (fieldLine field ++ behindField fields rest) := by
  simp [behindField]

theorem endsValue_behindField (fields : List (String × List Char)) (rest : List Char) :
    EndsValue (behindField fields rest) := by
  cases fields with
  | nil => exact ⟨_, .inr rfl⟩
  | cons field fields => exact ⟨_, .inl (behindField_cons field fields rest)⟩

theorem objectFields_behindField {before after : Draft} {fs : List (String × List Char)} (h : Fills before fs after)
    {r : NodeRecord} (hr : after.record? = some r) {fuel : Nat} (hfuel : fs.length < fuel) (rest : List Char) :
    Scan.objectFields fuel false before (behindField fs rest) = .ok (r, rest) := by
  induction h generalizing fuel with
  | nil draft =>
      obtain ⟨fuel, rfl⟩ := Nat.exists_eq_add_one_of_ne_zero (Nat.ne_of_gt hfuel)
      have hclose : Scan.peek (behindField [] rest) = .ok ('\x7d', '\x7d' :: rest) := rfl
      rw [Scan.objectFields, Scan.bind_ok hclose, if_pos rfl, hr]
      rfl
  | cons hset _ ih =>
      obtain ⟨fuel, rfl⟩ := Nat.exists_eq_add_one_of_ne_zero (Nat.ne_of_gt (Nat.zero_lt_of_lt hfuel))
      rw [behindField_cons]
      exact (objectFields_line hset fuel false (endsValue_behindField _ rest)).trans
        (ih hr (Nat.lt_of_succ_lt_succ hfuel))

theorem length_fields_le (r : NodeRecord) : (fields r).length ≤ 5 := by
  obtain ⟨endpoint, services, protocolVersion, userAgent, pingCount⟩ := r
  cases services <;> cases protocolVersion <;> cases userAgent <;> simp [fields]

/-- The text of an object from its opening bracket on. -/
theorem object_append (r : NodeRecord) (rest : List Char) :
    ∃ field others, fields r = field :: others ∧
      object r ++ rest = ' ' :: ' ' :: '\x7b' :: (['\n'] ++ (fieldLine field ++ behindField others rest)) := by
  refine ⟨_, _, rfl, ?_⟩
  show "  \x7b\n".toList ++ lines (fieldLine _ :: List.map fieldLine _) ++ "\n  \x7d".toList ++ rest = _
  rw [lines_cons]
  simp [behindField]

theorem record_object (r : NodeRecord) {fuel : Nat} (hfuel : 6 < fuel) (rest : List Char) :
    Scan.record fuel (object r ++ rest) = .ok (r, rest) := by
  obtain ⟨draft, hfill, hr⟩ := fills_fields r
  obtain ⟨field, others, hfields, htext⟩ := object_append r rest
  have hlength := length_fields_le r
  obtain ⟨fuel, rfl⟩ := Nat.exists_eq_add_one_of_ne_zero (Nat.ne_of_gt (Nat.zero_lt_of_lt hfuel))
  rw [hfields] at hfill hlength
  cases hfill with
  | cons hset hothers =>
      rw [htext]
      refine (objectFields_line hset fuel true (endsValue_behindField others rest)).trans ?_
      refine objectFields_behindField hothers hr ?_ rest
      rw [List.length_cons] at hlength
      omega

/-! ## Files -/

/-- Objects that stand behind another one, and the line that closes the array. -/
def behindObject (records : List NodeRecord) : List Char :=
  (records.map object).flatMap (fun part => ',' :: '\n' :: part) ++ ['\n', ']']

theorem behindObject_cons (r : NodeRecord) (rs : List NodeRecord) :
    behindObject (r :: rs) = [',', '\n'] ++ (object r ++ behindObject rs) := by
  simp [behindObject]

/-- An object is read and the others are left, in front of the first object and behind one. -/
theorem records_line (r : NodeRecord) {fuel : Nat} (hfuel : 6 < fuel) (isFirst : Bool) (acc : Array NodeRecord)
    (rest : List Char) :
    Scan.records (fuel + 1) isFirst acc ((if isFirst then ['\n'] else [',', '\n']) ++ (object r ++ rest)) =
      Scan.records fuel false (acc.push r) rest := by
  have hrecord := record_object r hfuel rest
  obtain ⟨field, others, -, htext⟩ := object_append r rest
  rw [htext] at hrecord ⊢
  have hobject : ∀ text, Scan.records (fuel + 1) isFirst acc
      ((if isFirst then ['\n'] else [',', '\n']) ++ ' ' :: ' ' :: '\x7b' :: text) =
        (do Scan.records fuel false (acc.push (← Scan.record fuel))) (' ' :: ' ' :: '\x7b' :: text) := by
    intro text
    cases isFirst <;> rfl
  rw [hobject, Scan.bind_ok hrecord]

theorem records_behindObject (rs : List NodeRecord) {fuel : Nat} (hfuel : 8 * rs.length < fuel)
    (acc : Array NodeRecord) : Scan.records fuel false acc (behindObject rs) = .ok (acc.toList ++ rs, []) := by
  induction rs generalizing fuel acc with
  | nil =>
      obtain ⟨fuel, rfl⟩ := Nat.exists_eq_add_one_of_ne_zero (Nat.ne_of_gt hfuel)
      rw [List.append_nil]
      rfl
  | cons r rs ih =>
      obtain ⟨fuel, rfl⟩ := Nat.exists_eq_add_one_of_ne_zero (Nat.ne_of_gt (Nat.zero_lt_of_lt hfuel))
      rw [List.length_cons] at hfuel
      rw [behindObject_cons]
      refine (records_line r (by omega) false acc (behindObject rs)).trans ?_
      rw [ih (by omega), Array.toList_push, List.append_assoc]
      rfl

theorem eight_le_length_object (r : NodeRecord) : 8 ≤ (object r).length := by
  have hopening : "  \x7b\n".toList.length = 4 := rfl
  have hclosing : "\n  \x7d".toList.length = 4 := rfl
  rw [object, List.length_append, List.length_append, hopening, hclosing]
  omega

theorem le_length_behindObject (rs : List NodeRecord) : 8 * rs.length ≤ (behindObject rs).length := by
  induction rs with
  | nil => exact Nat.zero_le _
  | cons r rs ih =>
      have hobject := eight_le_length_object r
      rw [behindObject_cons, List.length_append, List.length_append, List.length_cons]
      omega

/-- The text of a node file is read as the records it was printed for. -/
theorem parse_print (records : List NodeRecord) : parse (print records) = .ok records := by
  have hfile : Scan.file (chars records) = .ok (records, []) := by
    cases records with
    | nil => rfl
    | cons r rs =>
        have hobject := eight_le_length_object r
        have hobjects := le_length_behindObject rs
        have hchars : chars (r :: rs) = '[' :: (['\n'] ++ (object r ++ behindObject rs)) := by
          show ['[', '\n'] ++ lines (object r :: rs.map object) ++ ['\n', ']'] = _
          rw [lines_cons]
          simp [behindObject]
        have hlength : (['\n'] ++ (object r ++ behindObject rs)).length + 2 =
            (object r).length + (behindObject rs).length + 2 + 1 := by
          simp only [List.length_append, List.length_cons, List.length_nil]
          omega
        have hopen : ∀ text, Scan.file ('[' :: text) = Scan.records (text.length + 2) true #[] text := fun _ => rfl
        rw [hchars, hopen, hlength]
        refine (records_line r (by omega) true #[] (behindObject rs)).trans ?_
        exact records_behindObject rs (by omega) _
  rw [parse, print, String.toList_ofList, hfile]
  rfl

end BitcoinCrawl.NodeFile
