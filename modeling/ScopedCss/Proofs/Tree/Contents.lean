import ScopedCss.Proofs.Tree.Declarations
import ScopedCss.Stylesheet

/-!
# Contents with scoped names

The content of a `@font-face` rule declares families, and that of a style rule refers to families and
keyframes.  Declaring scopes and records exactly the families that the content names
(`scopeFontFace_shield`), and referring scopes exactly the names that were declared
(`unshield_renameRule`).
-/
namespace ScopedCss

open Quoted Stylesheet

/-! ### Declared names -/

/-- The names that a style sheet declares, in the categories that are scoped. -/
structure DeclaredNames (scheme : PlainScheme) where
  keyframes : List Text
  families : List Text
  keyframes_on : keyframes ≠ [] → scheme.switches.keyframes
  families_on : families ≠ [] → scheme.switches.fontFaces
  named : [] ∉ families

namespace DeclaredNames
variable {scheme : PlainScheme}

/-- No names. -/
def none : DeclaredNames scheme := ⟨[], [], nofun, nofun, by simp⟩

/-- The name that keyframes declare, in a pass that scopes keyframes. -/
def ofKeyframes (on : scheme.switches.keyframes) (name : Text) : DeclaredNames scheme :=
  ⟨[name], [], fun _ => on, nofun, by simp⟩

/-- The names of two parts of a style sheet. -/
def append (names more : DeclaredNames scheme) : DeclaredNames scheme where
  keyframes := names.keyframes ++ more.keyframes
  families := names.families ++ more.families
  keyframes_on some := by
    rw [ne_eq, List.append_eq_nil_iff, not_and_or] at some
    exact some.elim names.keyframes_on more.keyframes_on
  families_on some := by
    rw [ne_eq, List.append_eq_nil_iff, not_and_or] at some
    exact some.elim names.families_on more.families_on
  named mem := (List.mem_append.1 mem).elim names.named more.named

variable (names more : DeclaredNames scheme)

/-- Whether keyframes are declared. -/
def hasKeyframes (name : Text) : Bool := name ∈ names.keyframes

/-- Whether a family is declared. -/
def hasFamily (name : Text) : Bool := name ∈ names.families

/-- The names are recorded from one mapping to another, and no other keyframes and families. -/
structure Added (before after : Mapping) : Prop where
  keyframes : ∀ name, after.keyframes.find? name =
    if name ∈ names.keyframes then some (scheme.scope name) else before.keyframes.find? name
  families : ∀ name, after.fontFaces.find? name =
    if name ∈ names.families then some (scheme.scope name) else before.fontFaces.find? name

theorem Added.refl (mapping : Mapping) : (none : DeclaredNames scheme).Added mapping mapping :=
  ⟨fun _ => rfl, fun _ => rfl⟩

/-- Mappings with the same keyframes and families have the same names recorded. -/
theorem Added.of_tables {before after : Mapping} (keyframes : after.keyframes = before.keyframes)
    (families : after.fontFaces = before.fontFaces) :
    (none : DeclaredNames scheme).Added before after :=
  ⟨fun _ => by rw [keyframes]; rfl, fun _ => by rw [families]; rfl⟩

theorem Added.append {names more : DeclaredNames scheme} {before between after : Mapping}
    (first : names.Added before between) (second : more.Added between after) :
    (names.append more).Added before after := by
  have either {l m : List Text} {name : Text} {found : Option Text} :
      (if name ∈ m then some (scheme.scope name)
        else if name ∈ l then some (scheme.scope name) else found) =
      if name ∈ l ++ m then some (scheme.scope name) else found := by
    by_cases late : name ∈ m
    · rw [if_pos late, if_pos (List.mem_append_right l late)]
    · simp [late]
  constructor
  · intro name
    rw [second.keyframes, first.keyframes]
    exact either
  · intro name
    rw [second.families, first.families]
    exact either

/-- The tables of a mapping have the scoped forms of the names, and no others. -/
structure Known (mapping : Mapping) : Prop where
  keyframes : scheme.Knows names.hasKeyframes mapping.keyframes
  families : scheme.Knows names.hasFamily mapping.fontFaces

/-- What is recorded from the empty mapping on is all that is known. -/
theorem Added.known {names : DeclaredNames scheme} {mapping : Mapping}
    (added : names.Added {} mapping) : names.Known mapping where
  keyframes name := by
    rw [added.keyframes name]
    simp [hasKeyframes, NameTable.find?, NameTable.empty]
  families name := by
    rw [added.families name]
    simp [hasFamily, NameTable.find?, NameTable.empty]

end DeclaredNames

/-! ### References -/

namespace Value

/-- Whether a value is what a property of a style rule has. -/
def FitsStyle (property : Text) : Value → Prop
  | animation _ => "animation".toList <+: Text.lower property
  | families _ => Text.lower property = "font-family".toList
  | family _ => False
  | other _ _ => ¬ "animation".toList <+: Text.lower property ∧
      Text.lower property ≠ "font-family".toList

/-- The characters of a value with the declared names that it refers to scoped. -/
def renamedText {scheme : PlainScheme} (names : DeclaredNames scheme) : Value → Text
  | animation value => value.scopedText scheme names.hasKeyframes
  | families list => list.scopedText scheme names.hasFamily
  | value => value.text

variable {scheme : PlainScheme} {names : DeclaredNames scheme}

theorem flat_renamedText (value : Value) : Flat (value.renamedText names) := by
  cases value with
  | animation value => exact value.flat_text.2
  | families list => exact list.flat_text.2
  | family own => exact (Value.family own).flat_text
  | other text flat => exact flat

theorem wordFree_renamedText {value : Value} (free : WordFree value.text) :
    WordFree (value.renamedText names) := by
  cases value with
  | animation value => exact value.wordFree_scopedText free
  | families list => exact list.wordFree_scopedText free
  | family own => exact free
  | other text flat => exact free

theorem renameValue_animation {switches : Switches} (mapping : Mapping) {property : Text}
    (fits : "animation".toList <+: property) (value : Text) :
    renameValue switches mapping property value =
      if switches.keyframes then Animation.rename mapping.keyframes value else .none := by
  have other : property ≠ "font-family".toList := by
    rintro rfl
    exact absurd (List.isPrefixOf_iff_prefix.2 fits) (by decide)
  rw [renameValue, List.isPrefixOf_iff_prefix.2 fits, Bool.and_true, decide_eq_false other,
    Bool.and_false]
  rfl

theorem renameValue_fontFamily {switches : Switches} (mapping : Mapping) (value : Text) :
    renameValue switches mapping "font-family".toList value =
      if switches.fontFaces then FontFamily.rename mapping.fontFaces value else .none := by
  have other : "animation".toList.isPrefixOf "font-family".toList = false := by decide
  rw [renameValue, other, Bool.and_false, decide_eq_true rfl, Bool.and_true]
  rfl

theorem renameValue_other {switches : Switches} (mapping : Mapping) {property : Text}
    (other : ¬ "animation".toList <+: property) (other' : property ≠ "font-family".toList)
    (value : Text) : renameValue switches mapping property value = .none := by
  have apart : "animation".toList.isPrefixOf property = false := by
    rw [← Bool.not_eq_true, List.isPrefixOf_iff_prefix]
    exact other
  rw [renameValue, apart, Bool.and_false, decide_eq_false other', Bool.and_false]
  rfl

/-- **A value refers to the declared names** in it, and to nothing else. -/
theorem getD_renameValue {mapping : Mapping} (known : names.Known mapping) {property : Text}
    {value : Value} (fits : value.FitsStyle property) :
    (renameValue scheme.switches mapping (Text.lower property) value.text).getD value.text =
      value.renamedText names := by
  cases value with
  | animation value =>
    rw [renameValue_animation mapping fits]
    split
    next => exact value.getD_rename known.keyframes
    next off =>
      refine (value.scopedText_of_none fun name => ?_).symm
      have empty : names.keyframes = [] := by_contra fun some => off (names.keyframes_on some)
      simp [DeclaredNames.hasKeyframes, empty]
  | families list =>
    rw [show Text.lower property = _ from fits, renameValue_fontFamily]
    split
    next =>
      refine list.getD_rename known.families ?_
      simp [DeclaredNames.hasFamily, names.named]
    next off =>
      refine (list.scopedText_of_none fun name => ?_).symm
      have empty : names.families = [] := by_contra fun some => off (names.families_on some)
      simp [DeclaredNames.hasFamily, empty]
  | family own => cases fits
  | other text flat =>
    rw [renameValue_other mapping fits.1 fits.2]
    rfl

end Value

/-! ### Declarations of families -/

namespace Value

/-- Whether a value is what a property of a `@font-face` rule has. -/
def FitsFace (property : Text) : Value → Prop
  | family _ => Text.lower property = "font-family".toList
  | other _ _ => Text.lower property ≠ "font-family".toList
  | _ => False

/-- The characters of a value with the family that it declares scoped. -/
def declaredText (scheme : PlainScheme) : Value → Text
  | family own => own.scopedText scheme fun name => !name.isEmpty
  | value => value.text

/-- The family that a value declares. -/
def familyNames : Value → List Text
  | family own => if own.name.isEmpty then [] else [own.name]
  | _ => []

variable {scheme : PlainScheme}

theorem flat_declaredText (value : Value) : Flat (value.declaredText scheme) := by
  cases value with
  | family own => exact (@own.flat_text scheme fun name => !name.isEmpty).2
  | animation value => exact (Value.animation value).flat_text
  | families list => exact (Value.families list).flat_text
  | other text flat => exact flat

theorem wordFree_declaredText {value : Value} (free : WordFree value.text) :
    WordFree (value.declaredText scheme) := by
  cases value with
  | family own => exact @own.wordFree_scopedText scheme (fun name => !name.isEmpty) free
  | animation value => exact free
  | families list => exact free
  | other text flat => exact free

end Value

/-! ### Editing a shielded content -/

theorem Spaces.append_unshield (s : Spaces) (t : Text) :
    unshield (t ++ s.text) = unshield t ++ s.text := by
  by_cases empty : s.text = []
  · rw [empty, List.append_nil, List.append_nil]
  · have whole := unshield_append_plain empty s.unmarked t []
    rwa [List.append_nil, unshield_nil, List.append_nil] at whole

/-- In a slot free of the word in every mark only the value is unshielded. -/
theorem Slot.unshield_around (slot : Slot) (free : WordFree slot.head) (value : Text) :
    unshield (slot.around value) = slot.around (unshield value) := by
  rw [around, unshield_append_cons rfl, unshield_of_wordFree free, slot.front.unshield_append,
    slot.back.append_unshield, around]

namespace Piece

/-- What a visitor answers for a value, if it stands for a new value. -/
def Answers (new : Value → Text) (value : Value) (answer : Option Text) : Prop :=
  answer.getD value.text = new value

/-- A value, shielded, or what a visitor answers in its place, is unshielded to the new value. -/
theorem unshield_answer {new : Value → Text} {assignment : Assignment} {answer : Option Text}
    (free : WordFree (assignment.slot.around assignment.value.text))
    (clean : WordFree (new assignment.value)) (answers : Answers new assignment.value answer) :
    unshield (assignment.slot.around (answer.getD (shield assignment.value.text))) =
      assignment.slot.around (new assignment.value) := by
  obtain ⟨head, value⟩ := assignment.slot.wordFree_around.1 free
  cases answer with
  | none =>
    have same : assignment.value.text = new assignment.value := answers
    rw [Option.getD_none, assignment.slot.unshield_around head, unshield_shield value, same]
  | some text =>
    have same : text = new assignment.value := answers
    rw [Option.getD_some, assignment.slot.unshield_around head, same, unshield_of_wordFree clean]

/-- A piece without a value is unshielded to itself. -/
theorem unshield_unset {slot : Slot} (free : WordFree (slot.around [])) :
    unshield (slot.around []) = slot.around [] :=
  slot.unshield_around (slot.wordFree_around.1 free).1 []

end Piece

/-- A content stays free of the word in every mark if its values do. -/
theorem Content.wordFree_textWith {fits : Text → Value → Prop} (content : Content fits)
    {new : Value → Text} (clean : ∀ {value : Value}, WordFree value.text → WordFree (new value))
    (free : WordFree content.text) : WordFree (content.textWith new) := by
  refine (wordFree_joinWith (by decide)).2 fun text mem => ?_
  obtain ⟨piece, there, rfl⟩ := List.mem_map.1 mem
  have own := content.wordFree_piece free there
  cases piece with
  | blank spaces => exact own
  | unset slot => exact own
  | set assignment =>
    obtain ⟨head, value⟩ := assignment.slot.wordFree_around.1 own
    exact assignment.slot.wordFree_around.2 ⟨head, clean value⟩

/-! ### Declaring families -/

namespace Piece

/-- The families that a piece declares. -/
def familyNames : Piece → List Text
  | set assignment => assignment.value.familyNames
  | _ => []

end Piece

theorem Value.nil_notMem_familyNames (value : Value) : [] ∉ value.familyNames := by
  cases value with
  | family own =>
    rw [familyNames]
    by_cases empty : own.name = []
    · simp [empty]
    · simp [empty, Ne.symm empty]
  | _ => simp [familyNames]

theorem Piece.nil_notMem_familyNames (piece : Piece) : [] ∉ piece.familyNames := by
  cases piece with
  | set assignment => exact assignment.value.nil_notMem_familyNames
  | _ => simp [familyNames]

namespace DeclaredNames
variable {scheme : PlainScheme}

/-- The families that pieces declare, in a pass that scopes families. -/
def ofPieces (on : scheme.switches.fontFaces) (pieces : List Piece) : DeclaredNames scheme where
  keyframes := []
  families := pieces.flatMap Piece.familyNames
  keyframes_on some := absurd rfl some
  families_on _ := on
  named mem := by
    obtain ⟨piece, -, inside⟩ := List.mem_flatMap.1 mem
    exact piece.nil_notMem_familyNames inside

theorem ofPieces_cons (on : scheme.switches.fontFaces) (piece : Piece) (pieces : List Piece) :
    ofPieces on (piece :: pieces) = (ofPieces on [piece]).append (ofPieces on pieces) := by
  simp [ofPieces, append]

end DeclaredNames

/-- The visitor of the declarations in a `@font-face` rule. -/
def declareValue (scheme : PlainScheme) (property value : Text) : StateM Ledger (Option Text) :=
  if property = "font-family".toList then do
    let (ledger, value) := FontFamily.declare scheme.scope value (← get)
    set ledger
    return some value
  else return none

theorem scopeFontFace_eq (scheme : PlainScheme) (content : Text) :
    scopeFontFace scheme.toScheme content = Declaration.editAll (declareValue scheme) content := rfl

namespace Value
variable {scheme : PlainScheme}

/-- A visited value answers for its scoped form, and its family is recorded. -/
theorem declareValue_text (on : scheme.switches.fontFaces) {property : Text} {value : Value}
    (fits : value.FitsFace property) (ledger : Ledger) :
    ∃ answer next, (declareValue scheme (Text.lower property) value.text).run ledger =
        (answer, next) ∧
      Piece.Answers (declaredText scheme) value answer ∧
      ∀ slot nonempty first last, (DeclaredNames.ofPieces on
        [.set ⟨slot, value, nonempty, first, last⟩]).Added ledger.mapping next.mapping := by
  cases value with
  | family own =>
    have named : Text.lower property = "font-family".toList := fits
    rw [declareValue, if_pos named]
    refine ⟨_, _, rfl, ?_, fun slot nonempty first last => ?_⟩
    · exact congrArg Prod.snd (own.declare_text ledger)
    · -- What is recorded is the name of the family, unless it has none.
      have recorded : (FontFamily.declare scheme.scope (family own).text ledger).1 =
          if own.name.isEmpty then ledger
          else ledger.insert .fontFaces own.name (scheme.scope own.name) :=
        congrArg Prod.fst (own.declare_text ledger)
      show DeclaredNames.Added _ _ (FontFamily.declare scheme.scope (family own).text ledger).1.mapping
      rw [recorded]
      cases empty : own.name.isEmpty with
      | true =>
        constructor <;> intro name <;>
          simp [DeclaredNames.ofPieces, Piece.familyNames, familyNames, empty]
      | false =>
        constructor
        · intro name
          rfl
        · intro name
          have found : (ledger.insert .fontFaces own.name (scheme.scope own.name)).mapping.fontFaces.find?
              name = _ := ledger.mapping.fontFaces.find?_insert own.name (scheme.scope own.name) name
          by_cases same : name = own.name
          · simpa [DeclaredNames.ofPieces, Piece.familyNames, familyNames, empty, same] using found
          · simpa [DeclaredNames.ofPieces, Piece.familyNames, familyNames, empty, same] using found
  | other text flat =>
    have named : Text.lower property ≠ "font-family".toList := fits
    rw [declareValue, if_neg named]
    exact ⟨none, ledger, rfl, rfl, fun _ _ _ _ => ⟨fun _ => rfl, fun _ => rfl⟩⟩
  | animation value => cases fits
  | families list => cases fits

end Value

namespace Piece
variable {scheme : PlainScheme}

/-- A visited piece is unshielded to its scoped form, and its families are recorded. -/
theorem edit_declareValue (on : scheme.switches.fontFaces) {piece : Piece}
    (fits : ∀ assignment, piece = .set assignment →
      assignment.value.FitsFace assignment.slot.property)
    (free : WordFree piece.text) (ledger : Ledger) :
    ∃ text next, (piece.edit (declareValue scheme)).run ledger = (text, next) ∧
      unshield text = piece.textWith (Value.declaredText scheme) ∧
      (DeclaredNames.ofPieces on [piece]).Added ledger.mapping next.mapping := by
  cases piece with
  | blank spaces =>
    exact ⟨spaces.text, ledger, rfl, Level.unshield_spaces spaces,
      ⟨fun _ => rfl, fun _ => rfl⟩⟩
  | unset slot =>
    exact ⟨slot.around [], ledger, rfl, unshield_unset free, ⟨fun _ => rfl, fun _ => rfl⟩⟩
  | set assignment =>
    obtain ⟨answer, next, visited, answers, added⟩ :=
      Value.declareValue_text on (fits assignment rfl) ledger
    have clean : WordFree (assignment.value.declaredText scheme) :=
      Value.wordFree_declaredText (assignment.slot.wordFree_around.1 free).2
    have whole := unshield_answer free clean answers
    refine ⟨_, next, ?_, whole, added _ _ _ _⟩
    rw [edit, StateT.run_bind, visited]
    cases answer <;> rfl

theorem mapM_declareValue (on : scheme.switches.fontFaces) {pieces : List Piece}
    (fits : ∀ assignment, .set assignment ∈ pieces →
      assignment.value.FitsFace assignment.slot.property)
    (free : ∀ piece ∈ pieces, WordFree piece.text) (ledger : Ledger) :
    ∃ texts next, (pieces.mapM (edit (declareValue scheme))).run ledger = (texts, next) ∧
      texts.map unshield = pieces.map (textWith (Value.declaredText scheme)) ∧
      (DeclaredNames.ofPieces on pieces).Added ledger.mapping next.mapping := by
  induction pieces generalizing ledger with
  | nil => exact ⟨[], ledger, rfl, rfl, ⟨fun _ => rfl, fun _ => rfl⟩⟩
  | cons piece pieces ih =>
    obtain ⟨text, between, here, become, added⟩ := edit_declareValue on
      (fun assignment same => fits assignment (same ▸ List.mem_cons_self))
      (free piece List.mem_cons_self) ledger
    obtain ⟨texts, next, later, become', added'⟩ := ih
      (fun assignment mem => fits assignment (List.mem_cons_of_mem piece mem))
      (fun other mem => free other (List.mem_cons_of_mem piece mem)) between
    refine ⟨text :: texts, next, ?_, ?_, ?_⟩
    · rw [List.mapM_cons, StateT.run_bind, here]
      show (do
        let p ← (pieces.mapM (edit (declareValue scheme))).run between
        pure (text :: p.1, p.2) : Id (List Text × Ledger)) = _
      rw [later]
      rfl
    · rw [List.map_cons, List.map_cons, become, become']
    · rw [DeclaredNames.ofPieces_cons]
      exact added.append added'

end Piece

/-- **The content of a `@font-face` rule**: the families that it declares are scoped and recorded,
and everything else stays. -/
theorem scopeFontFace_shield {scheme : PlainScheme} (on : scheme.switches.fontFaces)
    (content : Content Value.FitsFace) (free : WordFree content.text) (ledger : Ledger) :
    ∃ text next, (scopeFontFace scheme.toScheme (shield content.text)).run ledger = (text, next) ∧
      unshield text = content.textWith (Value.declaredText scheme) ∧
      (DeclaredNames.ofPieces on content.pieces).Added ledger.mapping next.mapping := by
  obtain ⟨texts, next, visited, become, added⟩ := Piece.mapM_declareValue on content.fits
    (fun piece mem => content.wordFree_piece free mem) ledger
  refine ⟨Text.joinWith [';'] texts, next, ?_, ?_, added⟩
  · rw [scopeFontFace_eq, content.editAll_shield (declareValue scheme) free, StateT.run_map, visited]
    rfl
  · rw [unshield_pieces, become]
    rfl

/-! ### Referring to names -/

/-- **The content of a style rule**: the declared names that it refers to are scoped, and everything
else stays. -/
theorem unshield_renameRule {scheme : PlainScheme} {names : DeclaredNames scheme} {mapping : Mapping}
    (known : names.Known mapping) (content : Content Value.FitsStyle)
    (free : WordFree content.text) :
    unshield (Id.run (Declaration.editAll
        (fun property value => pure (renameValue scheme.switches mapping property value))
        (shield content.text))) =
      content.textWith (Value.renamedText names) := by
  rw [content.editAll_shield _ free]
  have visited : ∀ pieces ⊆ content.pieces,
      (Id.run (pieces.mapM (Piece.edit fun property value =>
        pure (renameValue scheme.switches mapping property value)))).map unshield =
      pieces.map (Piece.textWith (Value.renamedText names)) := by
    intro pieces
    induction pieces with
    | nil => exact fun _ => rfl
    | cons piece pieces ih =>
      intro all
      obtain ⟨here, later⟩ := List.cons_subset.1 all
      have own := content.wordFree_piece free here
      have first : unshield (Id.run (piece.edit fun property value =>
          pure (renameValue scheme.switches mapping property value))) =
          piece.textWith (Value.renamedText names) := by
        cases piece with
        | blank spaces => exact Level.unshield_spaces spaces
        | unset slot => exact Piece.unshield_unset own
        | set assignment =>
          have fits := content.fits assignment here
          have clean : WordFree (assignment.value.renamedText names) :=
            Value.wordFree_renamedText (assignment.slot.wordFree_around.1 own).2
          have whole := Piece.unshield_answer own clean (Value.getD_renameValue known fits)
          refine Eq.trans (congrArg unshield ?_) whole
          rw [Piece.edit]
          cases renameValue scheme.switches mapping (Text.lower assignment.slot.property)
            assignment.value.text <;> rfl
      rw [List.mapM_cons, List.map_cons, ← first, ← ih later]
      rfl
  have whole := visited content.pieces (List.Subset.refl _)
  refine Eq.trans ?_ (congrArg (Text.joinWith [';']) whole)
  exact unshield_pieces _

end ScopedCss
