import ScopedCss.CommaList
import ScopedCss.Selector.Place
import ScopedCss.Selector.Renaming
import ScopedCss.Selector.Tokens
import ScopedCss.Text.Bytes

/-!
# Scoping a selector list

The parts of a selector list are scoped one after the other in the text of the whole list.  A
cursor stands between the text that is finished and the text that is not; every token of a part is
looked for after the cursor, which then moves behind it, so that no place is changed twice.

Where a part ends is kept as a byte offset, which moves with every replacement.  The next part is
looked for from there on, or from the cursor if that is further along.  A part whose tokens were
found elsewhere can leave an offset that lies inside a character: then the list cannot be scoped.
-/
namespace ScopedCss

/-- Why a pass cannot go on. -/
inductive Fault where
  /-- The offset from which the next part should be looked for lies inside a character. -/
  | insideCharacter (offset : Nat)
deriving DecidableEq

/-- The message of a fault. -/
def Fault.message : Fault → Text
  | insideCharacter offset =>
    "byte ".toList ++ Nat.toDigits 10 offset ++
      " of the selector list, where the next selector is looked for, lies inside a character".toList

namespace Selector

/-- A selector list with a cursor in it, while one of its parts is scoped. -/
structure Cursor where
  /-- The text before the cursor. -/
  done : Text
  /-- The text after the cursor. -/
  rest : Text
  /-- The byte offset at which the part ends. -/
  partEnd : Nat
deriving DecidableEq

namespace Cursor

/-- The whole text. -/
def text (cursor : Cursor) : Text := cursor.done ++ cursor.rest

/-- The cursor at a part: at its first place in a text, of which the front is finished, or where
that front ends if the part does not stand after it. -/
def seek (done rest part : Text) : Cursor :=
  match Text.breakAt? part rest with
  | some (before, after) =>
    ⟨done ++ before, part ++ after, (done ++ before).bytes + part.bytes⟩
  | none => ⟨done, rest, done.bytes + part.bytes⟩

/-- The cursor behind a place after it, once what stood there was replaced. -/
def replace (cursor : Cursor) (place : Place) (replacement : Text) : Cursor where
  done := cursor.done ++ place.before ++ replacement ++ place.closing
  rest := place.after
  partEnd := cursor.partEnd + replacement.bytes - place.old.bytes

/-- The byte offset from which the next part is looked for. -/
def resume (cursor : Cursor) : Nat :=
  min (max cursor.done.bytes cursor.partEnd) cursor.text.bytes

end Cursor

/-- Scopes a token of a part.  Its name is recorded even if the token is not found. -/
def scopeToken (scheme : Scheme) (part : Text) (state : Ledger × Cursor) (token : Token) :
    Ledger × Cursor :=
  let (ledger, cursor) := state
  match token with
  | .unknown text => (ledger.warn ⟨text, part⟩, cursor)
  | token =>
    match token.renaming? scheme ledger.asterisks with
    | none => (ledger, cursor)
    | some r =>
      let cursor :=
        match Place.ofToken? token cursor.done.getLast? cursor.rest with
        | some place => cursor.replace place (token.replacement r.scopedName)
        | none => cursor
      (ledger.rename token r, cursor)

/-- Scopes parts of a list one after the other, the first from a byte offset on. -/
def scopeFrom (scheme : Scheme) : List Text → Ledger → Text → Nat → Except Fault (Ledger × Text)
  | [], ledger, text, _ => .ok (ledger, text)
  | part :: parts, ledger, text, offset =>
    match text.splitAtByte? offset with
    | none => .error (.insideCharacter offset)
    | some (done, rest) =>
      let part := NamedAttribute.normalise part
      let (ledger, cursor) :=
        (tokens part).foldl (scopeToken scheme part) (ledger, Cursor.seek done rest part)
      scopeFrom scheme parts ledger cursor.text cursor.resume

/-- Scopes a selector list of which the given parts are looked for one after the other. -/
def scopeParts (scheme : Scheme) (list : Text) (parts : List Text) (ledger : Ledger) :
    Except Fault (Ledger × Text) :=
  scopeFrom scheme parts ledger (NamedAttribute.normalise list) 0

/-- Scopes a selector list, entry by entry. -/
def scopeList (scheme : Scheme) (list : Text) (ledger : Ledger) : Except Fault (Ledger × Text) :=
  scopeParts scheme list (CommaList.entries list) ledger

end Selector
end ScopedCss
