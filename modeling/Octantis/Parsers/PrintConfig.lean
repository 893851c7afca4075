import Std.Data.ExtTreeMap
import Octantis.Lib.Run
import Octantis.Parsers.FieldList

/-!
# The configuration file

`ParseConfigFile` goes over the lines of the configuration file and enters the fields of the
accepted sections in `parsedData`, the first value of each.

## The model

`currentMacroType`, a local of the function, is a field of the state. `std::map` is
`ExtTreeMap`, and `map::insert` is `insertIfNew`. The messages are left out.

A file is described by its lines without white space (`ConfigLine`): comments, blank lines,
headers and fields whose values are not in brackets.

## The result

A header that is no accepted section does not end the section before it, so the fields below
it are entered there. `parseConfigFile_iff` says for which files this makes no difference.
-/

namespace Octantis

open Std Lib

/-- `isspace`. -/
def isspace (c : Char) : Bool := c ∈ [' ', '\t', '\n', Char.ofNat 11, Char.ofNat 12, '\r']

/-- A line without its white space. -/
def Text.stripped (line : Text) : Text := List.filter (fun c => !isspace c) line

/-- `substr`, to the end. -/
def Text.substrFrom (s : Text) (pos : ℕ) : Option Text := if pos ≤ s.length then some (s.drop pos) else none

/-- The parser of the configuration file. -/
structure PrintConfig where
  /-- The section of the last header that was accepted. -/
  currentMacroType : Text
  /-- The values of the fields of the sections. -/
  parsedData : ExtTreeMap Text (ExtTreeMap Text (List Text))

namespace PrintConfig

/-- The accepted macro types. -/
def macroTypes : List Text :=
  ["MemoryType".toList, "SynthesisProcess".toList, "AdvancedLiMSettings".toList]

/-- The accepted fields for `MemoryType`. -/
def fieldsMem : List Text := ["WordLength".toList, "MaxDimension".toList]

/-- The accepted fields for `SynthesisProcess`. -/
def fieldsSyn : List Text :=
  ["AdoptedOptimizations".toList, "SchedulingAlgorithm".toList, "OptimizedParameter".toList]

/-- The accepted fields for `AdvancedLiMSettings`. -/
def fieldsAdv : List Text := ["ReferenceLiMArchitecture".toList]

/-- The accepted fields of a macro type. -/
def acceptedFields (macroType : Text) : Option (List Text) :=
  if macroType = "MemoryType".toList then some fieldsMem
  else if macroType = "SynthesisProcess".toList then some fieldsSyn
  else if macroType = "AdvancedLiMSettings".toList then some fieldsAdv
  else none

/-- A header: the section becomes the current one when it is accepted. -/
def parseHeader (p : PrintConfig) (line : Text) : Option PrintConfig := do
  let line ← Text.popBack line.tail
  if line ∈ macroTypes then
    return { currentMacroType := line, parsedData := p.parsedData.insertIfNew line ∅ }
  else return p

/-- A field: its values are entered in the current section when it is accepted there. -/
def parseField (fuel : ℕ) (p : PrintConfig) (line : Text) : Option PrintConfig := do
  let eqPos := line.find '=' 0
  let field ← line.substr 0 eqPos
  match acceptedFields p.currentMacroType with
  | some fields =>
    if field ∈ fields then
      let value ← line.substrFrom ((eqPos + 1) % 2 ^ 64)
      let tmpValueList ← fieldListMaker fuel value
      let fieldMap ← p.parsedData[p.currentMacroType]?
      return { p with
        parsedData := p.parsedData.insert p.currentMacroType (fieldMap.insertIfNew field tmpValueList) }
    else return p
  | none => return p

/-- A line of the file. -/
def parseLine (fuel : ℕ) (p : PrintConfig) (line : Text) : Option PrintConfig :=
  match line.stripped with
  | [] => some p
  | c :: rest =>
    if c = ';' then some p
    else if c = '[' then p.parseHeader (c :: rest)
    else p.parseField fuel (c :: rest)

/-- `ParseConfigFile`, of the lines of the file. -/
def parseConfigFile (fuel : ℕ) (lines : List Text) : Option PrintConfig := run (parseLine fuel) ⟨[], ∅⟩ lines

/-- `parsedData(s)(f)`. -/
def lookup (p : PrintConfig) (s f : Text) : Option (List Text) := p.parsedData[s]?.bind fun fields => fields[f]?

end PrintConfig

/-- A line of a configuration file. -/
inductive ConfigLine where
  /-- A comment. -/
  | comment (text : Text)
  /-- A blank line. -/
  | blank
  /-- The header of a section. -/
  | header (s : Text)
  /-- A field with its value. -/
  | field (f v : Text)
  deriving DecidableEq, Repr

namespace ConfigLine

/-- The line without white space. -/
def text : ConfigLine → Text
  | comment text => ';' :: text
  | blank => []
  | header s => '[' :: (s ++ [']'])
  | field f v => f ++ '=' :: v

/-- The field is what is read as a field, and its value is not in brackets. -/
def WellFormed : ConfigLine → Prop
  | field f v => '=' ∉ f ∧ f.head? ≠ some ';' ∧ f.head? ≠ some '[' ∧ v.head? ≠ some '['
  | comment _ | blank | header _ => True

instance : DecidablePred WellFormed := fun c => by cases c <;> unfold WellFormed <;> infer_instance

/-- The line of the file, with its white space, is this one. -/
def Reads (line : Text) (c : ConfigLine) : Prop := line.stripped = c.text ∧ c.WellFormed

instance : DecidableRel Reads := fun line c => inferInstanceAs (Decidable (line.stripped = c.text ∧ c.WellFormed))

/-- The section of a header. -/
def header? : ConfigLine → Option Text
  | header s => some s
  | comment _ | blank | field _ _ => none

end ConfigLine

namespace PrintConfig

/-- The nearest header. -/
def lastHeader (file : List ConfigLine) : Option Text := (file.filterMap ConfigLine.header?).getLast?

/-- The nearest header of an accepted section. -/
def lastAccepted (file : List ConfigLine) : Option Text :=
  ((file.filterMap ConfigLine.header?).filter (· ∈ macroTypes)).getLast?

/-- The value of the line `c` after `before`, when it is one of the field `f` in the section `s`. -/
def valueIn (sectionOf : List ConfigLine → Option Text) (s f : Text) (before : List ConfigLine) :
    ConfigLine → Option Text
  | .field f' v => if f' = f ∧ sectionOf before = some s then some v else none
  | .comment _ | .blank | .header _ => none

/-- The values of the lines of the field `f` in the section `s`. -/
def valuesIn (sectionOf : List ConfigLine → Option Text) (file : List ConfigLine) (s f : Text) : List Text :=
  (List.range file.length).filterMap fun i => file[i]?.bind (valueIn sectionOf s f (file.take i))

/-- The field is accepted in the section. -/
def accepts (s f : Text) : Bool := (acceptedFields s).any fun fields => f ∈ fields

/-- The file is parsed, and every field that is accepted has the value of the first of its lines
that have the section as their nearest header. -/
def ParsesSections (lines : List Text) (file : List ConfigLine) : Prop :=
  ∃ fuel p, parseConfigFile fuel lines = some p ∧ ∀ s f, p.lookup s f =
    if accepts s f then (valuesIn lastHeader file s f).head?.map fun v => [v] else none

/-- A line of a field below a header that is not accepted, which would be in the section `s` without
it, comes after another line of the field in that section, or has the value of the first line that
is in it. -/
def StraysRepeat (file : List ConfigLine) : Prop :=
  ∀ i f v s, file[i]? = some (.field f v) → accepts s f → lastHeader (file.take i) ≠ some s →
    lastAccepted (file.take i) = some s → valuesIn lastAccepted (file.take i) s f = [] →
      (valuesIn lastHeader file s f).head? = some v

/-! ### The lines -/

variable {lines : List Text} {file before : List ConfigLine} {c : ConfigLine} {s f v line : Text}
  {p : PrintConfig}

theorem valuesIn_concat (sectionOf : List ConfigLine → Option Text) :
    valuesIn sectionOf (before ++ [c]) s f =
      valuesIn sectionOf before s f ++ (valueIn sectionOf s f before c).toList := by
  rw [valuesIn, List.length_append, List.length_singleton, List.range_succ, List.filterMap_append, valuesIn]
  congr 1
  · refine List.filterMap_congr fun i hi => ?_
    have hlt := List.mem_range.mp hi
    rw [List.getElem?_append_left hlt, List.take_append_of_le_length (Nat.le_of_lt hlt)]
  · simp [List.filterMap_cons]
    cases valueIn sectionOf s f before c <;> rfl

/-- The position of the first `=` of a field. -/
theorem find_text_field (hf : '=' ∉ f) : Text.find (f ++ '=' :: v) '=' 0 = f.length := by
  have hidx : (f ++ '=' :: v).findIdx? (· = '=') = some f.length := by
    rw [List.findIdx?_append, List.findIdx?_eq_none_iff.mpr fun c hc => ?_]
    · simp [List.findIdx?_cons]
    · exact decide_eq_false fun h => hf (h ▸ hc)
  rw [Text.find, List.drop_zero, hidx, Option.elim_some, Nat.zero_add]

/-- The names of the fields are short. -/
theorem length_le_of_accepts (h : accepts s f = true) : f.length ≤ 24 := by
  unfold accepts acceptedFields at h
  split at h
  · have : ∀ f ∈ fieldsMem, f.length ≤ 24 := by decide
    exact this f (by simpa using h)
  split at h
  · have : ∀ f ∈ fieldsSyn, f.length ≤ 24 := by decide
    exact this f (by simpa using h)
  split at h
  · have : ∀ f ∈ fieldsAdv, f.length ≤ 24 := by decide
    exact this f (by simpa using h)
  · cases h

theorem accepts_iff : accepts s f = true ↔ ∃ fields, acceptedFields s = some fields ∧ f ∈ fields := by
  unfold accepts
  cases acceptedFields s <;> simp

/-- The sections with fields are the accepted ones. -/
theorem mem_macroTypes_of_accepts (h : accepts s f = true) : s ∈ macroTypes := by
  unfold accepts acceptedFields at h
  split at h
  · next hs => exact hs ▸ (by decide)
  split at h
  · next hs => exact hs ▸ (by decide)
  split at h
  · next hs => exact hs ▸ (by decide)
  · cases h

/-! ### What is parsed -/

/-- The state after the lines `before`: the last accepted section is the current one, and the first
value of a field in it is entered. -/
structure Parsed (before : List ConfigLine) (p : PrintConfig) : Prop where
  current : p.currentMacroType = (lastAccepted before).getD []
  present : ∀ s, lastAccepted before = some s → (p.parsedData[s]?).isSome
  lookup : ∀ s f, p.lookup s f =
    if accepts s f then (valuesIn lastAccepted before s f).head?.map fun v => [v] else none

theorem parsed_start : Parsed [] ⟨[], ∅⟩ where
  current := rfl
  present s hs := nomatch hs
  lookup s f := by
    simp [PrintConfig.lookup, valuesIn]

/-- A line that is no header leaves the last accepted section. -/
theorem lastAccepted_concat_of_none (hc : c.header? = none) :
    lastAccepted (before ++ [c]) = lastAccepted before := by
  simp [lastAccepted, hc]

/-- A line that gives no value leaves what is parsed. -/
theorem Parsed.concat (h : Parsed before p) (hlast : lastAccepted (before ++ [c]) = lastAccepted before)
    (hvalue : ∀ s f, accepts s f = true → valueIn lastAccepted s f before c = none) :
    Parsed (before ++ [c]) p where
  current := hlast ▸ h.current
  present s hs := h.present s (hlast ▸ hs)
  lookup s f := by
    rw [h.lookup]
    by_cases ha : accepts s f = true
    · rw [if_pos ha, if_pos ha, valuesIn_concat, hvalue s f ha, Option.toList_none, List.append_nil]
    · rw [if_neg ha, if_neg ha]

/-- A new section has no fields. -/
theorem lookup_insertIfNew (p : PrintConfig) (s₀ : Text) (current : Text) :
    lookup ⟨current, p.parsedData.insertIfNew s₀ ∅⟩ s f = p.lookup s f := by
  rw [lookup, lookup, ExtTreeMap.getElem?_insertIfNew]
  split
  next h =>
    obtain ⟨heq, hnot⟩ := h
    obtain rfl := Std.compare_eq_iff_eq.mp heq
    simp [ExtTreeMap.getElem?_eq_none hnot]
  next => rfl

/-- A value is entered when the field has none. -/
theorem lookup_insert {fieldMap : ExtTreeMap Text (List Text)} {s₀ f₀ : Text} {values : List Text}
    (hp : p.parsedData[s₀]? = some fieldMap) :
    lookup { p with parsedData := p.parsedData.insert s₀ (fieldMap.insertIfNew f₀ values) } s f =
      if s = s₀ ∧ f = f₀ ∧ p.lookup s f = none then some values else p.lookup s f := by
  rw [lookup, ExtTreeMap.getElem?_insert]
  by_cases hs : s = s₀
  · subst hs
    have hlookup : p.lookup s f = fieldMap[f]? := by rw [lookup, hp, Option.bind_some]
    rw [if_pos (Std.compare_eq_iff_eq.mpr rfl), Option.bind_some, ExtTreeMap.getElem?_insertIfNew, hlookup]
    by_cases hf : f = f₀
    · subst hf
      by_cases hmem : f ∈ fieldMap
      · simp [hmem]
      · simp [hmem]
    · rw [if_neg fun h => hf (Std.compare_eq_iff_eq.mp h.1).symm, if_neg fun h => hf h.2.1]
  · rw [if_neg fun h => hs (Std.compare_eq_iff_eq.mp h).symm, if_neg fun h => hs h.1]
    rfl

/-- A header. -/
theorem Parsed.header (h : Parsed before p) (s : Text) :
    ∃ p', p.parseHeader ('[' :: (s ++ [']'])) = some p' ∧ Parsed (before ++ [.header s]) p' := by
  have hpop : Text.popBack (s ++ [']']) = some s := by simp [Text.popBack]
  rw [parseHeader, List.tail_cons, hpop, Option.bind_eq_bind, Option.bind_some]
  split
  next hs =>
    have hlast : lastAccepted (before ++ [.header s]) = some s := by
      simp [lastAccepted, ConfigLine.header?, hs]
    refine ⟨_, rfl, by rw [hlast]; rfl, fun s' hs' => ?_, fun s' f => ?_⟩
    · obtain rfl : s = s' := Option.some.inj (hlast.symm.trans hs')
      rw [ExtTreeMap.getElem?_insertIfNew]
      split
      next => rfl
      next hnot =>
        rw [← ExtTreeMap.mem_iff_isSome_getElem?]
        by_contra hmem
        exact hnot ⟨Std.compare_eq_iff_eq.mpr rfl, hmem⟩
    · rw [lookup_insertIfNew, h.lookup, valuesIn_concat, valueIn, Option.toList_none, List.append_nil]
  next hs =>
    refine ⟨p, rfl, h.concat ?_ fun _ _ _ => rfl⟩
    simp [lastAccepted, ConfigLine.header?, hs]

/-- A field. -/
theorem Parsed.field (h : Parsed before p) (fuel : ℕ) (hwf : (ConfigLine.field f v).WellFormed) :
    ∃ p', p.parseField fuel (f ++ '=' :: v) = some p' ∧ Parsed (before ++ [.field f v]) p' := by
  obtain ⟨hequal, -, -, hv⟩ := hwf
  have hlast : lastAccepted (before ++ [.field f v]) = lastAccepted before := lastAccepted_concat_of_none rfl
  have hfield : Text.substr (f ++ '=' :: v) 0 f.length = some f := by simp [Text.substr]
  rw [parseField, find_text_field hequal, hfield, Option.bind_eq_bind, Option.bind_some]
  by_cases ha : accepts p.currentMacroType f = true
  · obtain ⟨fields, hfields, hmem⟩ := accepts_iff.mp ha
    have hsection := mem_macroTypes_of_accepts ha
    obtain ⟨s₀, hs₀⟩ : ∃ s₀, lastAccepted before = some s₀ := by
      cases hs₀ : lastAccepted before with
      | none =>
        rw [h.current, hs₀] at hsection
        exact absurd hsection (by decide)
      | some s₀ => exact ⟨s₀, rfl⟩
    have hcurrent : p.currentMacroType = s₀ := by rw [h.current, hs₀]; rfl
    obtain ⟨fieldMap, hmap⟩ := Option.isSome_iff_exists.mp (h.present s₀ hs₀)
    have hlength := length_le_of_accepts ha
    have hvalue : Text.substrFrom (f ++ '=' :: v) ((f.length + 1) % 2 ^ 64) = some v := by
      rw [Nat.mod_eq_of_lt (by omega)]
      simp [Text.substrFrom]
    have hmaker : fieldListMaker fuel v = some [v] := if_neg hv
    rw [hcurrent] at ha hfields
    rw [hcurrent, hfields, hvalue]
    simp only [Option.bind_eq_bind, Option.bind_some, hmaker, hmap, if_pos hmem]
    refine ⟨_, rfl, ?_, fun s hs => ?_, fun s f' => ?_⟩
    · rw [hlast]
      exact hcurrent ▸ h.current
    · rw [hlast, hs₀] at hs
      obtain rfl := Option.some.inj hs
      simp
    · rw [← hcurrent, lookup_insert (hcurrent ▸ hmap), h.lookup, valuesIn_concat, valueIn, hcurrent]
      by_cases ha' : accepts s f' = true
      · rw [if_pos ha', if_pos ha', hs₀]
        by_cases hthis : s = s₀ ∧ f' = f
        · obtain ⟨rfl, rfl⟩ := hthis
          cases valuesIn lastAccepted before s f' <;> simp
        · have hother : ¬ (f = f' ∧ some s₀ = some s) :=
            fun heq => hthis ⟨(Option.some.inj heq.2).symm, heq.1.symm⟩
          rw [if_neg fun heq => hthis ⟨heq.1, heq.2.1⟩, if_neg hother, Option.toList_none, List.append_nil]
      · rw [if_neg ha', if_neg ha', if_neg]
        rintro ⟨rfl, rfl, -⟩
        exact ha' ha
  · have hnot : ∀ s f', accepts s f' = true → valueIn lastAccepted s f' before (.field f v) = none := by
      intro s f' ha'
      refine if_neg fun hs => ha ?_
      rw [h.current, hs.2, hs.1]
      exact ha'
    refine ⟨p, ?_, h.concat hlast hnot⟩
    cases hfields : acceptedFields p.currentMacroType with
    | none => rfl
    | some fields => exact if_neg fun hmem => ha (accepts_iff.mpr ⟨fields, hfields, hmem⟩)

/-- A line of the file. -/
theorem Parsed.reads (h : Parsed before p) (fuel : ℕ) (hread : c.Reads line) :
    ∃ p', parseLine fuel p line = some p' ∧ Parsed (before ++ [c]) p' := by
  obtain ⟨htext, hwf⟩ := hread
  rw [parseLine, htext]
  cases c with
  | comment text => exact ⟨p, rfl, h.concat (lastAccepted_concat_of_none rfl) fun _ _ _ => rfl⟩
  | blank => exact ⟨p, rfl, h.concat (lastAccepted_concat_of_none rfl) fun _ _ _ => rfl⟩
  | header s => exact h.header s
  | field f v =>
    have hfield := h.field fuel hwf
    cases f with
    | nil => exact hfield
    | cons d f =>
      have hcomment : d ≠ ';' := fun heq => hwf.2.1 (congrArg some heq)
      have hheader : d ≠ '[' := fun heq => hwf.2.2.1 (congrArg some heq)
      rw [ConfigLine.text, List.cons_append]
      simp only [if_neg hcomment, if_neg hheader]
      exact hfield

/-- **The lines of a file are parsed.** -/
theorem Parsed.run (h : Parsed before p) (fuel : ℕ) (hread : List.Forall₂ ConfigLine.Reads lines file) :
    ∃ p', run (parseLine fuel) p lines = some p' ∧ Parsed (before ++ file) p' := by
  induction hread generalizing before p with
  | nil => exact ⟨p, rfl, (List.append_nil before).symm ▸ h⟩
  | cons hline _ ih =>
    obtain ⟨p₁, hp₁, h₁⟩ := h.reads fuel hline
    obtain ⟨p', hp', h'⟩ := ih h₁
    refine ⟨p', ?_, ?_⟩
    · rw [run_cons, hp₁]
      exact hp'
    · rw [List.append_assoc, List.singleton_append] at h'
      exact h'

/-! ### The strays -/

/-- The nearest header, when it is accepted, is the nearest accepted one. -/
theorem lastAccepted_of_lastHeader (hs : s ∈ macroTypes) (h : lastHeader before = some s) :
    lastAccepted before = some s := by
  unfold lastHeader at h
  unfold lastAccepted
  obtain ⟨headers, hheaders⟩ := List.getLast?_eq_some_iff.mp h
  rw [hheaders]
  simp [hs]

/-- The values of the first lines are the first values. -/
theorem valuesIn_take_prefix (sectionOf : List ConfigLine → Option Text) (file : List ConfigLine) (i : ℕ) :
    valuesIn sectionOf (file.take i) s f <+: valuesIn sectionOf file s f := by
  induction file using List.reverseRecOn with
  | nil => simp only [List.take_nil, List.prefix_rfl]
  | append_singleton file c ih =>
    rcases Nat.lt_or_ge file.length i with hlt | hle
    · have hall : (file ++ [c]).take i = file ++ [c] :=
        List.take_of_length_le (by rw [List.length_append, List.length_singleton]; omega)
      simp only [hall, List.prefix_rfl]
    · rw [List.take_append_of_le_length hle, valuesIn_concat]
      exact ih.trans (List.prefix_append _ _)

/-- The values up to a line of the field. -/
theorem valuesIn_take_succ {sectionOf : List ConfigLine → Option Text} {i : ℕ}
    (hi : file[i]? = some (.field f v))
    (hs : sectionOf (file.take i) = some s) :
    valuesIn sectionOf (file.take (i + 1)) s f = valuesIn sectionOf (file.take i) s f ++ [v] := by
  rw [List.take_add_one, hi, Option.toList_some, valuesIn_concat, valueIn, if_pos ⟨rfl, hs⟩,
    Option.toList_some]

/-- A line of the field before which there is none has the first value. -/
theorem head?_valuesIn {sectionOf : List ConfigLine → Option Text} {i : ℕ} (hi : file[i]? = some (.field f v))
    (hs : sectionOf (file.take i) = some s) (hnone : valuesIn sectionOf (file.take i) s f = []) :
    (valuesIn sectionOf file s f).head? = some v := by
  have hinit := valuesIn_take_prefix (s := s) (f := f) sectionOf file (i + 1)
  rw [valuesIn_take_succ hi hs, hnone, List.nil_append] at hinit
  obtain ⟨rest, hrest⟩ := hinit
  rw [← hrest]
  rfl

/-- The first value is on the first line of the field. -/
theorem exists_first (sectionOf : List ConfigLine → Option Text) (file : List ConfigLine) (s f : Text) :
    valuesIn sectionOf file s f = [] ∨ ∃ i v, file[i]? = some (.field f v) ∧
    sectionOf (file.take i) = some s ∧
      valuesIn sectionOf (file.take i) s f = [] := by
  induction file using List.reverseRecOn with
  | nil => exact .inl rfl
  | append_singleton file c ih =>
    rcases ih with hnone | ⟨i, v, hi, hs, hnone⟩
    · rw [valuesIn_concat, hnone, List.nil_append]
      cases hvalue : valueIn sectionOf s f file c with
      | none => exact .inl rfl
      | some v =>
        refine .inr ⟨file.length, v, ?_⟩
        rw [List.getElem?_concat_length, List.take_left]
        cases c with
        | field f' v' =>
          obtain ⟨⟨rfl, hs⟩, hv⟩ := Option.ite_none_right_eq_some.mp hvalue
          obtain rfl := Option.some.inj hv
          exact ⟨rfl, hs, hnone⟩
        | comment | blank | header => cases hvalue
    · have hlt := (List.getElem?_eq_some_iff.mp hi).1
      refine .inr ⟨i, v, ?_, ?_, ?_⟩
      · rw [List.getElem?_append_left hlt, hi]
      · rwa [List.take_append_of_le_length (Nat.le_of_lt hlt)]
      · rwa [List.take_append_of_le_length (Nat.le_of_lt hlt)]

/-- A section without lines of the field by its accepted header has none by its nearest one. -/
theorem valuesIn_eq_nil (hs : s ∈ macroTypes) (hnone : valuesIn lastAccepted file s f = []) :
    valuesIn lastHeader file s f = [] := by
  rcases exists_first lastHeader file s f with h | ⟨i, v, hi, hheader, -⟩
  · exact h
  · have hinit := valuesIn_take_prefix (s := s) (f := f) lastAccepted file (i + 1)
    rw [valuesIn_take_succ hi (lastAccepted_of_lastHeader hs hheader), hnone, List.prefix_nil] at hinit
    exact absurd hinit (List.append_ne_nil_of_right_ne_nil _ (List.cons_ne_nil _ _))

/-- **The first values** by the accepted header and by the nearest one are the same exactly when the
strays repeat values. -/
theorem straysRepeat_iff : StraysRepeat file ↔ ∀ s f, accepts s f = true →
    (valuesIn lastAccepted file s f).head? = (valuesIn lastHeader file s f).head? := by
  constructor
  · intro h s f ha
    have hs := mem_macroTypes_of_accepts ha
    rcases exists_first lastAccepted file s f with hnone | ⟨i, v, hi, haccepted, hnone⟩
    · rw [hnone, valuesIn_eq_nil hs hnone]
    · rw [head?_valuesIn hi haccepted hnone]
      by_cases hheader : lastHeader (file.take i) = some s
      · rw [head?_valuesIn hi hheader (valuesIn_eq_nil hs hnone)]
      · rw [h i f v s hi ha hheader haccepted hnone]
  · intro h i f v s hi ha _ haccepted hnone
    rw [← h s f ha, head?_valuesIn hi haccepted hnone]

/-- **The configuration file.** Every field has the first value of its section exactly when the
lines below headers that are not accepted give no field of the section before a first value of their
own. -/
theorem parseConfigFile_iff (hread : List.Forall₂ ConfigLine.Reads lines file) :
    ParsesSections lines file ↔ StraysRepeat file := by
  have hparsed := fun fuel => parsed_start.run fuel hread
  rw [straysRepeat_iff]
  constructor
  · rintro ⟨fuel, p, hp, hlookup⟩ s f ha
    obtain ⟨p', hp', h'⟩ := hparsed fuel
    obtain rfl := Option.some.inj (hp.symm.trans hp')
    have heq := (h'.lookup s f).symm.trans (hlookup s f)
    rw [if_pos ha, if_pos ha] at heq
    exact Option.map_injective (fun _ _ h => List.singleton_injective h) heq
  · intro h
    obtain ⟨p, hp, h'⟩ := hparsed 0
    refine ⟨0, p, hp, fun s f => ?_⟩
    rw [h'.lookup, List.nil_append]
    split
    next ha => rw [h s f ha]
    next => rfl

/-- Without a header that is not accepted there are no strays. -/
theorem straysRepeat_of_accepted (h : ∀ s ∈ file.filterMap ConfigLine.header?, s ∈ macroTypes) :
    StraysRepeat file := by
  intro i f v s _ _ hheader haccepted _
  refine absurd ?_ hheader
  have hall : ∀ s ∈ (file.take i).filterMap ConfigLine.header?, decide (s ∈ macroTypes) = true :=
    fun s hs => decide_eq_true (h s (((List.take_sublist i file).filterMap _).subset hs))
  rwa [lastAccepted, List.filter_eq_self.mpr hall] at haccepted

/-- The lines of the configuration file of the repository. -/
def cfgLines : List Text :=
  ["[MemoryType]".toList, [], "WordLength = 8".toList, "MaxDimensions = 23".toList, [], "[SynthesisProcess]".toList, [],
    "AdoptedOptimizations = Accumulation".toList, "SchedulingAlgorithm = ASAP".toList, [],
    "[AdvancedLiMSettings]".toList]

/-- The same lines, as they are read. -/
def cfgFile : List ConfigLine :=
  [.header "MemoryType".toList, .blank, .field "WordLength".toList "8".toList,
    .field "MaxDimensions".toList "23".toList, .blank, .header "SynthesisProcess".toList, .blank,
    .field "AdoptedOptimizations".toList "Accumulation".toList, .field "SchedulingAlgorithm".toList "ASAP".toList,
    .blank, .header "AdvancedLiMSettings".toList]

theorem parseConfigFile_iff_cfg : ParsesSections cfgLines cfgFile :=
  (parseConfigFile_iff (by decide)).mpr (straysRepeat_of_accepted (by decide))

/-- A field below a header that is not accepted, after an accepted section. -/
def strayLines : List Text := ["[MemoryType]".toList, "[Other]".toList, "WordLength = 8".toList]

/-- The same lines, as they are read. -/
def strayFile : List ConfigLine :=
  [.header "MemoryType".toList, .header "Other".toList, .field "WordLength".toList "8".toList]

/-- The field is entered in the section above. -/
theorem unknown_section_not_skipped : ¬ ParsesSections strayLines strayFile := by
  rintro ⟨fuel, p, hp, hlookup⟩
  have hread : List.Forall₂ ConfigLine.Reads strayLines strayFile := by decide
  obtain ⟨p', hp', h'⟩ := parsed_start.run fuel hread
  obtain rfl := Option.some.inj (hp.symm.trans hp')
  have heq := (h'.lookup "MemoryType".toList "WordLength".toList).symm.trans (hlookup _ _)
  exact absurd heq (by decide)

end PrintConfig

end Octantis
