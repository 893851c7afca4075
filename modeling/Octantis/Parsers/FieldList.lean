import Mathlib.Algebra.Group.Nat.Defs
import Mathlib.Data.List.Basic
import Mathlib.Data.Nat.Notation

/-!
# The values of a field

`fieldListMaker` is to cut the value of a field, when it is in brackets, at its commas.

## The model

A string is the list of its characters, and a position is a `size_t`: adding 1 to `npos` gives
0. The loop has fuel: the function returns when some fuel is enough. `none` is also the
exception of `substr`, and a `pop_back` of an empty string.

`NULL`, to which the loop compares the position of the next comma, is 0.

## The result

The loop ends only at a comma in position 0, which `find` returns at once or never. So a
value in brackets is never cut at its commas (`fieldListMaker_iff`).
-/

namespace Octantis

/-- `std::string`. -/
abbrev Text := List Char

instance : LawfulBEq Text := inferInstance

/-- `std::string::npos`. -/
def npos : ℕ := 2 ^ 64 - 1

/-- `find`, from a position on. -/
def Text.find (s : Text) (c : Char) (pos : ℕ) : ℕ := ((s.drop pos).findIdx? (· = c)).elim npos (pos + ·)

/-- `substr`, which throws when it starts after the end. -/
def Text.substr (s : Text) (pos count : ℕ) : Option Text :=
  if pos ≤ s.length then some ((s.drop pos).take count) else none

/-- `pop_back`. -/
def Text.popBack (s : Text) : Option Text := if s = [] then none else some s.dropLast

namespace PrintConfig

/-- The loop of `fieldListMaker`. -/
def fieldListLoop (fieldData : Text) : ℕ → ℕ → ℕ → List Text → Option (List Text)
  | 0, _, _, _ => none
  | fuel + 1, currentPos, commaPos, tmpList =>
    if commaPos = 0 then some tmpList
    else do
      let subValue ← fieldData.substr currentPos commaPos
      let currentPos := (commaPos + 1) % 2 ^ 64
      fieldListLoop fieldData fuel currentPos (fieldData.find ',' currentPos) (tmpList ++ [subValue])

/-- `fieldListMaker`. -/
def fieldListMaker (fuel : ℕ) (fieldData : Text) : Option (List Text) :=
  if fieldData.head? = some '[' then do
    let fieldData ← Text.popBack fieldData.tail
    fieldListLoop fieldData fuel 0 (fieldData.find ',' 0) []
  else some [fieldData]

/-- What `fieldListMaker` is to do with a value. -/
structure Lists (fieldData : Text) : Prop where
  /-- It returns. -/
  returns : ∃ fuel, (fieldListMaker fuel fieldData).isSome
  /-- A value in brackets is cut at its commas. -/
  cuts : ∀ values : List Text, values ≠ [] → (∀ v ∈ values, ',' ∉ v) →
    fieldData = '[' :: ([','].intercalate values ++ [']']) → ∃ fuel, fieldListMaker fuel fieldData = some values
  /-- Another one is the only value. -/
  single : fieldData.head? ≠ some '[' → ∃ fuel, fieldListMaker fuel fieldData = some [fieldData]

/-! ### The loop -/

variable {fieldData : Text}

/-- A comma in position 0 is found only from there. -/
theorem find_eq_zero {c : Char} {pos : ℕ} (h : fieldData.find c pos = 0) : fieldData.head? = some c := by
  unfold Text.find at h
  cases hidx : (fieldData.drop pos).findIdx? (· = c) with
  | none =>
    rw [hidx] at h
    cases h
  | some k =>
    rw [hidx, Option.elim_some, Nat.add_eq_zero_iff] at h
    obtain ⟨rfl, rfl⟩ := h
    cases fieldData with
    | nil => cases hidx
    | cons d rest =>
      rw [List.drop_zero, List.findIdx?_cons] at hidx
      split at hidx
      next hd => exact congrArg some (of_decide_eq_true hd)
      next =>
        obtain ⟨k, -, hk⟩ := Option.map_eq_some_iff.mp hidx
        cases hk

/-- **Without a comma in front the loop never ends.** -/
theorem fieldListLoop_eq_none (hhead : fieldData.head? ≠ some ',') (fuel currentPos : ℕ) {pos : ℕ}
    (tmpList : List Text) :
    fieldListLoop fieldData fuel currentPos (fieldData.find ',' pos) tmpList = none := by
  induction fuel generalizing currentPos pos tmpList with
  | zero => rfl
  | succ fuel ih =>
    rw [fieldListLoop, if_neg fun hzero => hhead (find_eq_zero hzero)]
    cases fieldData.substr currentPos (fieldData.find ',' pos) with
    | none => rfl
    | some subValue => exact ih _ _

/-- With a comma in front it ends at once. -/
theorem fieldListLoop_of_head (hhead : fieldData.head? = some ',') (fuel : ℕ) :
    fieldListLoop fieldData (fuel + 1) 0 (fieldData.find ',' 0) [] = some [] := by
  obtain ⟨rest, rfl⟩ := List.head?_eq_some_iff.mp hhead
  have hzero : Text.find (',' :: rest) ',' 0 = 0 := by simp [Text.find, List.findIdx?_cons]
  rw [hzero, fieldListLoop, if_pos rfl]

/-! ### The values -/

/-- What is returned for a value that starts with a bracket: nothing, or no values. -/
theorem fieldListMaker_of_bracket {text : Text} {fuel : ℕ} {values : List Text}
    (h : fieldListMaker fuel ('[' :: text) = some values) :
    values = [] ∧ ∃ rest, rest ≠ [] ∧ text = ',' :: rest := by
  rw [fieldListMaker, List.head?_cons, if_pos rfl, List.tail_cons] at h
  obtain ⟨inner, hinner, h⟩ := Option.bind_eq_some_iff.mp h
  unfold Text.popBack at hinner
  split at hinner
  · cases hinner
  obtain rfl := Option.some.inj hinner
  have hhead : text.dropLast.head? = some ',' := by
    by_contra hhead
    rw [fieldListLoop_eq_none hhead] at h
    cases h
  cases fuel with
  | zero => cases h
  | succ fuel =>
    rw [fieldListLoop_of_head hhead] at h
    refine ⟨(Option.some.inj h).symm, ?_⟩
    match text, hhead with
    | c :: d :: rest, hhead =>
      obtain rfl : c = ',' := by simpa using hhead
      exact ⟨d :: rest, List.cons_ne_nil _ _, rfl⟩

/-- A comma behind the bracket, and a character behind it, end the loop. -/
theorem fieldListMaker_of_comma {rest : Text} (hrest : rest ≠ []) :
    fieldListMaker 1 ('[' :: ',' :: rest) = some [] := by
  obtain ⟨c, rest, rfl⟩ := List.exists_cons_of_ne_nil hrest
  have hpop : Text.popBack (',' :: c :: rest) = some (',' :: (c :: rest).dropLast) := by simp [Text.popBack]
  have hhead : List.head? (',' :: (c :: rest).dropLast) = some ',' := rfl
  rw [fieldListMaker, List.head?_cons, if_pos rfl, List.tail_cons, hpop]
  exact fieldListLoop_of_head hhead 0

/-- The pieces of a text do not have the character at which it is cut. -/
theorem not_mem_piece {c : Char} {text piece : Text} (h : piece ∈ List.splitOn c text) : c ∉ piece := by
  induction text generalizing piece with
  | nil =>
    rw [List.splitOn_nil, List.mem_singleton] at h
    exact h ▸ List.not_mem_nil
  | cons d rest ih =>
    rw [List.splitOn_cons_eq_if_modifyHead] at h
    split at h
    next =>
      rcases List.mem_cons.mp h with rfl | h
      · exact List.not_mem_nil
      · exact ih h
    next hd =>
      obtain ⟨first, others, hsplit⟩ := List.exists_cons_of_ne_nil (List.splitOn_ne_nil c rest)
      rw [hsplit, List.modifyHead_cons] at h
      rcases List.mem_cons.mp h with rfl | h
      · rw [List.mem_cons, not_or]
        exact ⟨fun heq => hd (beq_iff_eq.mpr heq.symm), ih (hsplit ▸ List.mem_cons_self)⟩
      · exact ih (hsplit ▸ List.mem_cons_of_mem _ h)

/-- **The values of a field** are listed exactly when it does not start with a bracket, or is cut
off behind one and a comma. -/
theorem fieldListMaker_iff : Lists fieldData ↔ fieldData.head? ≠ some '[' ∨
    ∃ rest, rest ≠ [] ∧ rest.getLast? ≠ some ']' ∧ fieldData = '[' :: ',' :: rest := by
  constructor
  · intro h
    by_contra hnot
    rw [not_or, not_not] at hnot
    obtain ⟨hhead, hcut⟩ := hnot
    obtain ⟨text, rfl⟩ := List.head?_eq_some_iff.mp hhead
    obtain ⟨fuel, hfuel⟩ := h.returns
    obtain ⟨values, hvalues⟩ := Option.isSome_iff_exists.mp hfuel
    obtain ⟨-, rest, hrest, rfl⟩ := fieldListMaker_of_bracket hvalues
    have hlast : rest.getLast? = some ']' := by
      by_contra hlast
      exact hcut ⟨rest, hrest, hlast, rfl⟩
    obtain ⟨inner, rfl⟩ := List.getLast?_eq_some_iff.mp hlast
    obtain ⟨fuel', hfuel'⟩ := h.cuts (List.splitOn ',' (',' :: inner)) (List.splitOn_ne_nil _ _)
      (fun v hv => not_mem_piece hv) (by rw [List.intercalate_splitOn]; rfl)
    exact List.splitOn_ne_nil _ _ (fieldListMaker_of_bracket hfuel').1
  · rintro (hhead | ⟨rest, hrest, hlast, rfl⟩)
    · have hmaker : fieldListMaker 0 fieldData = some [fieldData] := by rw [fieldListMaker, if_neg hhead]
      refine ⟨⟨0, by rw [hmaker]; rfl⟩, fun values _ _ heq => ?_, fun _ => ⟨0, hmaker⟩⟩
      rw [heq] at hhead
      exact absurd rfl hhead
    · refine ⟨⟨1, by rw [fieldListMaker_of_comma hrest]; rfl⟩, fun values _ _ heq => ?_,
        fun h => absurd rfl h⟩
      obtain ⟨c, rest, rfl⟩ := List.exists_cons_of_ne_nil hrest
      have hend := congrArg List.getLast? heq
      rw [← List.cons_append, List.getLast?_concat, List.getLast?_cons_cons, List.getLast?_cons_cons] at hend
      exact absurd hend hlast

/-- The list of two values is never returned. -/
theorem bracketed_list_not_returned : ¬ Lists "[a,b]".toList := by
  intro h
  obtain ⟨fuel, hfuel⟩ := h.returns
  obtain ⟨values, hvalues⟩ := Option.isSome_iff_exists.mp hfuel
  have hvalues' : fieldListMaker fuel ('[' :: "a,b]".toList) = some values := hvalues
  obtain ⟨-, rest, -, hrest⟩ := fieldListMaker_of_bracket hvalues'
  cases hrest

end PrintConfig

end Octantis
