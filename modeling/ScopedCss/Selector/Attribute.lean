import ScopedCss.Selector.Token
import ScopedCss.Text.Scan
import ScopedCss.Text.Search

/-!
# Attribute selectors on classes and ids

`[class~="a"]`, `[id=b]` and their like name classes and ids. `NamedAttribute` is such a selector
cut in three: up to its value, the value, and the rest through `]`.

Scoped elements carry several classes, so that `[class=a]` would no longer match them; `normalise`
turns it into `[class~=a]`.
-/
namespace ScopedCss

/-- An attribute selector that compares classes or ids with a value. -/
structure NamedAttribute where
  /-- Whether the attribute holds ids; otherwise it holds classes. -/
  onId : Bool
  /-- The characters before the value, from `[` on. -/
  opening : Text
  value : Text
  /-- The characters after the value, through `]`. -/
  closing : Text
deriving DecidableEq

namespace NamedAttribute

/-- The characters of an attribute selector. -/
def spell (a : NamedAttribute) : Text := a.opening ++ a.value ++ a.closing

/-- The token of an attribute selector, unless its value is empty. -/
def token? (a : NamedAttribute) : Option Token :=
  if a.value.isEmpty then none else some (.attributeValue a.onId a.value)

/-- Reads the name of an attribute that holds classes or ids: whether it holds ids, the name and the
rest. -/
def readName (t : Text) : Option (Bool × Text × Text) :=
  match "class".toList.isPrefixOf? t with
  | some rest => some (false, "class".toList, rest)
  | none => ("id".toList.isPrefixOf? t).map fun rest => (true, "id".toList, rest)

/-- Reads the operator of a comparison and answers it with the rest. -/
def readOperator : Text → Option (Text × Text)
  | '=' :: t => some (['='], t)
  | c :: '=' :: t => if c ∈ ['*', '^', '$', '~', '|'] then some ([c, '='], t) else none
  | _ => none

/-- A quote at the front, if there is one, and the rest. -/
def splitQuote : Text → Text × Text
  | c :: t => if Text.isQuote c then ([c], t) else ([], c :: t)
  | [] => ([], [])

/-- A character that may stand in a value. -/
def isValueChar (c : Char) : Bool := !Text.isQuote c && c != ']'

/-- Reads a value and what closes it: spaces and `]`, or a quote, spaces and `]`.  Spaces in front of
a quote belong to the value, other spaces at its end do not. -/
def readValue (t : Text) : Option (Text × Text) :=
  let run := t.takeWhile isValueChar
  match t.dropWhile isValueChar with
  | ']' :: _ => some (Text.trimEnd run, Text.trailing run ++ [']'])
  | quote :: rest =>
    match Text.trimStart rest with
    | ']' :: _ => some (run, quote :: Text.leading rest ++ [']'])
    | _ => none
  | [] => none

/-- Reads an attribute selector on classes or ids. -/
def read : Text → Option NamedAttribute
  | '[' :: t => do
    let (onId, name, t₁) ← readName (Text.trimStart t)
    let (operator, t₂) ← readOperator (Text.trimStart t₁)
    let (quote, t₃) := splitQuote (Text.trimStart t₂)
    let (value, closing) ← readValue t₃
    let opening := '[' :: Text.leading t ++ name ++ Text.leading t₁ ++ operator ++
      Text.leading t₂ ++ quote
    some { onId, opening, value, closing }
  | _ => none

theorem append_of_readName {t name rest : Text} {onId : Bool}
    (h : readName t = some (onId, name, rest)) : t = name ++ rest := by
  unfold readName at h
  split at h
  next found =>
    cases h
    exact Text.append_of_isPrefixOf? found
  next =>
    obtain ⟨_, found, same⟩ := Option.map_eq_some_iff.1 h
    cases same
    exact Text.append_of_isPrefixOf? found

theorem append_of_readOperator {t operator rest : Text}
    (h : readOperator t = some (operator, rest)) : t = operator ++ rest := by
  unfold readOperator at h
  split at h
  next => cases h; rfl
  next =>
    split at h
    next => cases h; rfl
    next => cases h
  next => cases h

theorem splitQuote_append (t : Text) : (splitQuote t).1 ++ (splitQuote t).2 = t := by
  unfold splitQuote
  split
  next => split <;> rfl
  next => rfl

theorem front_of_readValue {t value closing : Text} (h : readValue t = some (value, closing)) :
    value ++ closing <+: t ∧ closing ≠ [] := by
  have whole : t.takeWhile isValueChar ++ t.dropWhile isValueChar = t :=
    List.takeWhile_append_dropWhile
  unfold readValue at h
  simp only at h
  split at h
  next rest after =>
    cases h
    refine ⟨⟨rest, ?_⟩, by simp⟩
    rw [← List.append_assoc, Text.trimEnd_append, List.append_assoc, List.singleton_append,
      ← after, whole]
  next quote rest _ quoted =>
    split at h
    next after last =>
      cases h
      refine ⟨⟨after, ?_⟩, by simp⟩
      have : rest = Text.leading rest ++ ']' :: after := by
        rw [← last, Text.trimStart_append]
      conv => rhs; rw [← whole, quoted, this]
      simp
    next => cases h
  next => cases h

/-- Recognises attribute selectors on classes and ids. -/
def recogniser : Recogniser NamedAttribute where
  read := read
  spell := spell
  spell_front {t a} h := by
    unfold read at h
    split at h
    next t =>
      simp only [Option.bind_eq_bind, Option.bind_eq_some_iff, Option.some.injEq, Prod.exists] at h
      obtain ⟨onId, name, t₁, named, operator, t₂, compared, value, closing, valued, rfl⟩ := h
      obtain ⟨rest, ends⟩ := (front_of_readValue valued).1
      refine ⟨rest, ?_⟩
      have e₂ := Text.trimStart_append t₂
      rw [← splitQuote_append (Text.trimStart t₂), ← ends] at e₂
      have e₁ := Text.trimStart_append t₁
      rw [append_of_readOperator compared, ← e₂] at e₁
      have e₀ := Text.trimStart_append t
      rw [append_of_readName named, ← e₁] at e₀
      conv => rhs; rw [← e₀]
      simp [spell]
    next => cases h
  spell_ne_nil {t a} h := by
    unfold read at h
    split at h
    next t =>
      simp only [Option.bind_eq_bind, Option.bind_eq_some_iff, Option.some.injEq, Prod.exists] at h
      obtain ⟨onId, name, t₁, _, operator, t₂, _, value, closing, _, rfl⟩ := h
      simp [spell]
    next => cases h

/-- Reads `[class=` with any spaces around the name, and answers what stands between `[` and `=`. -/
def readExactClass : Text → Option Text
  | '[' :: t =>
    match "class".toList.isPrefixOf? (Text.trimStart t) with
    | some rest =>
      match Text.trimStart rest with
      | '=' :: _ => some (Text.leading t ++ "class".toList ++ Text.leading rest)
      | _ => none
    | none => none
  | _ => none

/-- Recognises the front, through `=`, of an attribute selector that compares the whole class
attribute. -/
def exactClass : Recogniser Text where
  read := readExactClass
  spell inside := '[' :: inside ++ ['=']
  spell_front {t inside} h := by
    unfold readExactClass at h
    split at h
    next t =>
      split at h
      next rest found =>
        split at h
        next after last =>
          cases h
          refine ⟨after, ?_⟩
          have e₁ := Text.trimStart_append rest
          rw [last] at e₁
          have e₀ := Text.trimStart_append t
          rw [Text.append_of_isPrefixOf? found, ← e₁] at e₀
          conv => rhs; rw [← e₀]
          simp
        next => cases h
      next => cases h
    next => cases h
  spell_ne_nil _ := by simp

/-- The text with `~=` in place of `=` wherever a selector compares the whole class attribute. -/
def normalise (t : Text) : Text :=
  exactClass.substitute (fun inside => '[' :: inside ++ ['~', '=']) t

end NamedAttribute
end ScopedCss
