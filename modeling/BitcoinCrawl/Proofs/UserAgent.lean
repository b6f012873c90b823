import BitcoinCrawl.UserAgent
import Mathlib.Data.List.Basic

set_option autoImplicit false

/-! # The shape of user agents

Between the slashes of a user agent stands exactly one colon, and something on either side of it. `Spelled` says
how a text is put together from its parts; `check` finds these parts in exactly the texts that have them
(`check_spelled`, `check_eq_format`). The main theorem (`shape_decided`) says what becomes of every text, and which
agents that are put together from their parts are among the accepted ones. -/

namespace BitcoinCrawl.UserAgent

variable {text inner name version : List Char}

/-- A name or a version of a user agent: it says something, and holds no colon. -/
def IsPart (part : List Char) : Prop := part ≠ [] ∧ ':' ∉ part

/-- A text is a slash, a name, a colon, a version and a slash, of which the two in between may be empty. -/
def Spelled (text name version : List Char) : Prop := text = '/' :: (name ++ ':' :: version) ++ ['/']

/-- Texts between two slashes with just one colon in them. -/
def HasOneColon (text : List Char) : Prop := ∃ inner, text = '/' :: inner ++ ['/'] ∧ inner.count ':' = 1

/-! ## The two scanners -/

theorem interior?_eq_some : interior? text = some inner ↔ text = '/' :: inner ++ ['/'] := by
  cases text with
  | nil => exact iff_of_false nofun nofun
  | cons c rest =>
      have hlast : rest.getLast? = some '/' ∧ rest.dropLast = inner ↔ rest = inner ++ ['/'] := by
        constructor
        · rintro ⟨hslash, rfl⟩
          exact (List.dropLast_append_getLast? '/' hslash).symm
        · rintro rfl
          exact ⟨List.getLast?_concat, List.dropLast_concat⟩
      rw [interior?, Option.ite_none_right_eq_some, Option.some_inj, and_assoc, hlast, List.cons_append,
        List.cons.injEq]

theorem splitColon?_eq_some {cs : List Char} :
    splitColon? cs = some (name, version) ↔ ':' ∉ name ∧ cs = name ++ ':' :: version := by
  induction cs generalizing name with
  | nil => simp [splitColon?]
  | cons c rest ih =>
      rw [splitColon?]
      by_cases hcolon : c = ':'
      · -- The first part ends here, so it is empty.
        subst hcolon
        cases name with
        | nil => simp [eq_comm]
        | cons d name =>
            rw [if_pos rfl]
            refine iff_of_false nofun ?_
            rintro ⟨hnone, heq⟩
            exact hnone (List.mem_cons.mpr (.inl (List.cons.inj heq).1))
      · rw [if_neg hcolon, Option.map_eq_some_iff]
        constructor
        · rintro ⟨⟨first, second⟩, hrest, hparts⟩
          cases hparts
          obtain ⟨hnone, rfl⟩ := ih.mp hrest
          exact ⟨by simpa [Ne.symm hcolon] using hnone, rfl⟩
        · rintro ⟨hnone, heq⟩
          cases name with
          | nil => exact absurd (List.cons.inj heq).1 hcolon
          | cons d name =>
              obtain ⟨rfl, rfl⟩ := List.cons.inj heq
              exact ⟨(name, version), ih.mpr ⟨fun hmem => hnone (List.mem_cons_of_mem _ hmem), rfl⟩, rfl⟩

theorem splitColon?_eq_none {cs : List Char} : splitColon? cs = none ↔ ':' ∉ cs := by
  induction cs with
  | nil => simp [splitColon?]
  | cons c rest ih =>
      rw [splitColon?]
      by_cases hcolon : c = ':'
      · simp [hcolon]
      · rw [if_neg hcolon, Option.map_eq_none_iff, ih, List.mem_cons, not_or]
        exact ⟨fun hnone => ⟨Ne.symm hcolon, hnone⟩, And.right⟩

/-! ## Texts and their parts -/

/-- A text with two parts has one colon between its slashes exactly if the parts have none. -/
theorem Spelled.hasOneColon (h : Spelled text name version) :
    HasOneColon text ↔ ':' ∉ name ∧ ':' ∉ version := by
  have hcount : (name ++ ':' :: version).count ':' = name.count ':' + version.count ':' + 1 := by
    rw [List.count_append, List.count_cons_self, Nat.add_assoc]
  rw [← List.count_eq_zero, ← List.count_eq_zero]
  constructor
  · rintro ⟨inner, hinner, hone⟩
    have hsame : inner = name ++ ':' :: version := by
      have htext := h.symm.trans hinner
      exact (List.cons.inj (List.append_left_injective ['/'] htext)).2.symm
    rw [hsame, hcount] at hone
    omega
  · rintro ⟨hname, hversion⟩
    exact ⟨_, h, by rw [hcount, hname, hversion]⟩

theorem hasOneColon_iff :
    HasOneColon text ↔ ∃ name version, Spelled text name version ∧ ':' ∉ name ∧ ':' ∉ version := by
  constructor
  · rintro ⟨inner, htext, hone⟩
    cases hsplit : splitColon? inner with
    | none =>
        have hzero := List.count_eq_zero.mpr (splitColon?_eq_none.mp hsplit)
        rw [hzero] at hone
        cases hone
    | some parts =>
        obtain ⟨-, rfl⟩ := splitColon?_eq_some.mp hsplit
        have hspelled : Spelled text parts.1 parts.2 := htext
        exact ⟨_, _, hspelled, hspelled.hasOneColon.mp ⟨_, htext, hone⟩⟩
  · rintro ⟨name, version, hspelled, hparts⟩
    exact hspelled.hasOneColon.mpr hparts

/-- What becomes of a text with two parts depends on whether one of them is empty. -/
theorem check_spelled (h : Spelled text name version) (hname : ':' ∉ name) (hversion : ':' ∉ version) :
    check text =
      if name = [] then .error .missingName
      else if version = [] then .error .missingVersion
      else .ok (name, version) := by
  have hinner : interior? text = some (name ++ ':' :: version) := interior?_eq_some.mpr h
  have hsplit : splitColon? (name ++ ':' :: version) = some (name, version) := splitColon?_eq_some.mpr ⟨hname, rfl⟩
  simp only [check, hinner, Option.bind_some, hsplit, List.contains_iff_mem, if_neg hversion, List.isEmpty_iff]

theorem check_eq_format : check text = .error .format ↔ ¬ HasOneColon text := by
  constructor
  · intro h hcolon
    obtain ⟨name, version, hspelled, hname, hversion⟩ := hasOneColon_iff.mp hcolon
    rw [check_spelled hspelled hname hversion] at h
    split_ifs at h <;> cases h
  · intro h
    rw [check]
    split
    next => rfl
    next name version hparts =>
      obtain ⟨inner, hinner, hsplit⟩ := Option.bind_eq_some_iff.mp hparts
      obtain ⟨hname, rfl⟩ := splitColon?_eq_some.mp hsplit
      by_cases hversion : ':' ∈ version
      · rw [if_pos (List.contains_iff_mem.mpr hversion)]
      · exact absurd (hasOneColon_iff.mpr ⟨name, version, interior?_eq_some.mp hinner, hname, hversion⟩) h

theorem check_eq_ok :
    check text = .ok (name, version) ↔ Spelled text name version ∧ IsPart name ∧ IsPart version := by
  constructor
  · intro h
    have hcolon : HasOneColon text := by
      by_contra hnone
      rw [check_eq_format.mpr hnone] at h
      cases h
    obtain ⟨first, second, hspelled, hfirst, hsecond⟩ := hasOneColon_iff.mp hcolon
    rw [check_spelled hspelled hfirst hsecond] at h
    split_ifs at h with hname hversion
    cases h
    exact ⟨hspelled, ⟨hname, hfirst⟩, hversion, hsecond⟩
  · rintro ⟨hspelled, hname, hversion⟩
    rw [check_spelled hspelled hname.2 hversion.2, if_neg hname.1, if_neg hversion.1]

/-- A text with two parts is accepted exactly if they are a name and a version. -/
theorem Spelled.accepted_iff (h : Spelled text name version) :
    (∃ parts, check text = .ok parts) ↔ IsPart name ∧ IsPart version := by
  constructor
  · rintro ⟨⟨first, second⟩, hparts⟩
    obtain ⟨hspelled, hfirst, hsecond⟩ := check_eq_ok.mp hparts
    obtain ⟨hname, hversion⟩ := h.hasOneColon.mp (hspelled.hasOneColon.mpr ⟨hfirst.2, hsecond.2⟩)
    rw [check_spelled h hname hversion] at hparts
    split_ifs at hparts with hnone hempty
    exact ⟨⟨hnone, hname⟩, hempty, hversion⟩
  · rintro ⟨hname, hversion⟩
    exact ⟨_, check_eq_ok.mpr ⟨h, hname, hversion⟩⟩

/-! ## What is wrong with a text -/

/-- What is said to be wrong with a text: the first of three things that is. -/
def Fails (text : List Char) : UserAgentFault → Prop
  | .format => ¬ HasOneColon text
  | .missingName => HasOneColon text ∧ ∃ rest, text = '/' :: ':' :: rest
  | .missingVersion =>
      HasOneColon text ∧ (¬ ∃ rest, text = '/' :: ':' :: rest) ∧ ∃ rest, text = rest ++ [':', '/']

theorem Spelled.startsWithColon (h : Spelled text name version) (hname : ':' ∉ name) :
    (∃ rest, text = '/' :: ':' :: rest) ↔ name = [] := by
  rw [h]
  cases name with
  | nil => simp
  | cons c name =>
      have hc : c ≠ ':' := fun h => hname (h ▸ List.mem_cons_self)
      simp [hc]

theorem Spelled.endsInColon (h : Spelled text name version) (hversion : ':' ∉ version) :
    (∃ rest, text = rest ++ [':', '/']) ↔ version = [] := by
  have htwo : ∀ rest : List Char, rest ++ [':', '/'] = rest ++ [':'] ++ ['/'] := by simp
  constructor
  · rintro ⟨rest, hrest⟩
    rcases version.eq_nil_or_concat' with hnone | ⟨front, c, rfl⟩
    · exact hnone
    · -- The last character of the version would be a colon.
      have hends : '/' :: (name ++ ':' :: front) ++ [c] ++ ['/'] = rest ++ [':'] ++ ['/'] := by
        rw [← htwo, ← hrest, h]
        simp
      have hlast : [c] = [':'] := (List.append_inj' (List.append_left_injective ['/'] hends) rfl).2
      refine absurd (List.mem_append_right front ?_) hversion
      rw [hlast]
      exact List.mem_singleton_self ':'
  · rintro rfl
    refine ⟨'/' :: name, ?_⟩
    rw [h]
    simp

theorem check_eq_error {fault : UserAgentFault} : check text = .error fault ↔ Fails text fault := by
  by_cases hcolon : HasOneColon text
  · obtain ⟨name, version, hspelled, hname, hversion⟩ := hasOneColon_iff.mp hcolon
    have hstarts := hspelled.startsWithColon hname
    have hends := hspelled.endsInColon hversion
    rw [check_spelled hspelled hname hversion]
    cases fault with
    | format =>
        refine iff_of_false (fun h => ?_) (not_not_intro hcolon)
        split_ifs at h <;> cases h
    | missingName =>
        rw [Fails, hstarts]
        by_cases hnone : name = []
        · simp [hnone, hcolon]
        · refine iff_of_false (fun h => ?_) fun h => hnone h.2
          rw [if_neg hnone] at h
          split at h <;> cases h
    | missingVersion =>
        rw [Fails, hstarts, hends]
        by_cases hnone : name = []
        · simp [hnone]
        · by_cases hempty : version = []
          · simp [hnone, hempty, hcolon]
          · simp [hnone, hempty]
  · rw [check_eq_format.mpr hcolon]
    cases fault with
    | format => exact iff_of_true rfl hcolon
    | missingName | missingVersion => exact iff_of_false nofun fun h => hcolon h.1

/-! ## Accepted agents -/

theorem parse_eq_ok {text : String} {agent : UserAgent} :
    parse text = .ok agent ↔ agent.text = text ∧ ∃ parts, check text.toList = .ok parts := by
  rw [parse]
  cases check text.toList with
  | error fault => exact iff_of_false nofun fun ⟨_, _, h⟩ => nomatch h
  | ok parts =>
      constructor
      · intro h
        cases h
        exact ⟨rfl, parts, rfl⟩
      · rintro ⟨rfl, -⟩
        rfl

theorem parse_eq_error {text : String} {fault : UserAgentFault} :
    parse text = .error fault ↔ check text.toList = .error fault := by
  rw [parse]
  cases check text.toList with
  | error other => simp [Except.map]
  | ok parts => exact iff_of_false nofun nofun

theorem spelled_toList {text name version : String} :
    Spelled text.toList name.toList version.toList ↔ text = "/" ++ name ++ ":" ++ version ++ "/" := by
  rw [← String.toList_inj]
  simp [Spelled]

theorem ofParts_spelled (name version : String) :
    Spelled (ofParts name version).text.toList name.toList version.toList := spelled_toList.mpr rfl

/-- Parts can be read off an agent that is put together from them, unless one holds a colon. -/
theorem ofParts_inj {name version name' version' : String} (hname : IsPart name.toList)
    (hversion : IsPart version.toList) (hname' : IsPart name'.toList) (hversion' : IsPart version'.toList)
    (heq : ofParts name version = ofParts name' version') : name = name' ∧ version = version' := by
  have hparts := check_eq_ok.mpr ⟨ofParts_spelled name version, hname, hversion⟩
  have hparts' := check_eq_ok.mpr ⟨ofParts_spelled name' version', hname', hversion'⟩
  rw [heq, hparts', Except.ok.injEq, Prod.mk.injEq, String.toList_inj, String.toList_inj] at hparts
  exact ⟨hparts.1.symm, hparts.2.symm⟩

/-- **A text is accepted as a user agent exactly if it is written `/name:version/`, with both parts non-empty and
    free of colons.**

    * What is accepted is kept as it is written.
    * Of any other text it is said that its format is wrong unless it has just one colon between two slashes, else
      that its name is missing if the colon comes first, else that its version is missing.
    * An agent put together from a name and a version is accepted exactly if both are non-empty and free of colons.
      Then these are the parts that are found in it, so that agents of different parts are different. -/
theorem shape_decided :
    (∀ (text : String) (agent : UserAgent), parse text = .ok agent ↔ agent.text = text ∧
      ∃ name version : String, IsPart name.toList ∧ IsPart version.toList ∧
        text = "/" ++ name ++ ":" ++ version ++ "/") ∧
      (∀ (text : String) (fault : UserAgentFault), parse text = .error fault ↔ Fails text.toList fault) ∧
      (∀ name version : String, parse (ofParts name version).text = .ok (ofParts name version) ↔
        IsPart name.toList ∧ IsPart version.toList) ∧
      (∀ name version : String, IsPart name.toList → IsPart version.toList →
        check (ofParts name version).text.toList = .ok (name.toList, version.toList)) ∧
      ∀ name version name' version' : String, IsPart name.toList → IsPart version.toList → IsPart name'.toList →
        IsPart version'.toList → ofParts name version = ofParts name' version' →
          name = name' ∧ version = version' := by
  refine ⟨fun text agent => ?_, fun text fault => parse_eq_error.trans check_eq_error, fun name version => ?_,
    fun name version hname hversion => check_eq_ok.mpr ⟨ofParts_spelled name version, hname, hversion⟩,
    fun _ _ _ _ => ofParts_inj⟩
  · rw [parse_eq_ok]
    refine and_congr_right fun _ => ?_
    constructor
    · rintro ⟨⟨name, version⟩, hparts⟩
      obtain ⟨hspelled, hname, hversion⟩ := check_eq_ok.mp hparts
      refine ⟨String.ofList name, String.ofList version, ?_, ?_, spelled_toList.mp ?_⟩
      · rwa [String.toList_ofList]
      · rwa [String.toList_ofList]
      · rwa [String.toList_ofList, String.toList_ofList]
    · rintro ⟨name, version, hname, hversion, htext⟩
      exact ⟨_, check_eq_ok.mpr ⟨spelled_toList.mpr htext, hname, hversion⟩⟩
  · rw [parse_eq_ok]
    constructor
    · rintro ⟨-, haccepted⟩
      exact (ofParts_spelled name version).accepted_iff.mp haccepted
    · intro hparts
      exact ⟨rfl, (ofParts_spelled name version).accepted_iff.mpr hparts⟩

/-- Parts may hold slashes, and the first and the last one of a text may not be the same. -/
example : check ['/', 'a', '/', ':', '/', '/'] = .ok (['a', '/'], ['/']) ∧ check ['/'] = .error .format := by decide

end BitcoinCrawl.UserAgent
