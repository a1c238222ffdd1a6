import ScopedCss.Proofs.Selector.Normalising
import ScopedCss.Proofs.Tree.Contents

/-!
# Values in their content

Whatever the content of a rule looks like, each of its pieces either sets a property, with a value that
stands behind the first colon, or is still: it has no colon, or nothing but spaces before or behind the first
(`Form`).  Editing a content visits the values of the pieces that set a property, once each and in order, and
fills the forms with what the visitor answers (`mapM_editPiece`).  All around the values stays.

A value is visited unshielded and is not shielded again when it is put back.  Between its spaces it can be
unshielded by itself, and so the content with every value put back is unshielded as before
(`unshield_textWith`).
-/
namespace ScopedCss

/-- Trimming leaves nothing of spaces alone. -/
theorem Text.trim_eq_nil_iff {t : Text} : trim t = [] ↔ ∀ c ∈ t, isSpace c := by
  constructor
  · intro blank c mem
    have whole := trim_append t
    rw [blank, List.nil_append] at whole
    rw [← whole] at mem
    exact (List.mem_append.1 mem).elim (leading_spaces t c) (trailing_spaces _ c)
  · intro spaces
    rw [trim, trimStart_eq_nil_iff.2 spaces]
    rfl

namespace Declaration

open Quoted

/-- A piece that sets a property, cut at its first colon and around its value. -/
structure Setting where
  /-- What stands before the first colon. -/
  name : Text
  /-- The spaces between the colon and the value. -/
  gap : Spaces
  value : Text
  /-- The spaces behind the value. -/
  back : Spaces
  plain : ':' ∉ name
  solid : ∃ c ∈ name, Text.isSpace c = false
  nonempty : value ≠ []
  first : ∀ c ∈ value.head?, Text.isSpace c = false
  last : ∀ c ∈ value.getLast?, Text.isSpace c = false

namespace Setting
variable (setting : Setting)

/-- The name of the property in lower case. -/
def property : Text := Text.lower (Text.trim setting.name)

/-- The piece with something in place of its value. -/
def around (new : Text) : Text :=
  setting.name ++ ':' :: (setting.gap.text ++ (new ++ setting.back.text))

end Setting

/-- What a piece of a content is. -/
inductive Form where
  /-- There is no colon, or there are only spaces before the first one or behind it. -/
  | still (text : Text)
      (unset : ∀ name raw, text = name ++ ':' :: raw → ':' ∉ name →
        (∀ c ∈ name, Text.isSpace c) ∨ ∀ c ∈ raw, Text.isSpace c)
  | set (setting : Setting)

namespace Form

/-- The piece with what is answered for its property and its value, if anything, in place of the value. -/
def textWith (answer : Text × Text → Option Text) : Form → Text
  | still text _ => text
  | set setting =>
    setting.around ((answer (setting.property, unshield setting.value)).getD setting.value)

/-- The piece. -/
def text : Form → Text
  | still text _ => text
  | set setting => setting.around setting.value

/-- What is visited: the name of the property, and the value with its strings unshielded. -/
def visited? : Form → Option (Text × Text)
  | still _ _ => none
  | set setting => some (setting.property, unshield setting.value)

/-- The pieces with answers, in order, in place of their values.  A value stays if nothing is answered. -/
def fill : List Form → List (Option Text) → List Text
  | [], _ => []
  | still text _ :: forms, answers => text :: fill forms answers
  | set setting :: forms, [] => setting.around setting.value :: fill forms []
  | set setting :: forms, answer :: answers =>
    setting.around (answer.getD setting.value) :: fill forms answers

end Form

/-- What is visited in pieces, in order. -/
def visitedIn (forms : List Form) : List (Text × Text) := forms.filterMap Form.visited?

/-! ### Pieces -/

theorem Setting.trim_name_ne_nil (setting : Setting) : Text.trim setting.name ≠ [] := by
  obtain ⟨c, mem, solid⟩ := setting.solid
  intro blank
  rw [Text.trim_eq_nil_iff.1 blank c mem] at solid
  cases solid

/-- Every piece has a form. -/
theorem Form.text_surjective : Function.Surjective Form.text := by
  intro piece
  by_cases unset : ∀ name raw, piece = name ++ ':' :: raw → ':' ∉ name →
      (∀ c ∈ name, Text.isSpace c) ∨ ∀ c ∈ raw, Text.isSpace c
  · exact ⟨.still piece unset, rfl⟩
  · push Not at unset
    obtain ⟨name, raw, rfl, plain, solid, c, mem, filled⟩ := unset
    have value : Text.trim raw ≠ [] := fun blank => filled (Text.trim_eq_nil_iff.1 blank c mem)
    refine ⟨.set {
      name, gap := ⟨_, Text.leading_spaces raw⟩, value := Text.trim raw
      back := ⟨_, Text.trailing_spaces raw⟩, plain, solid := by simpa using solid, nonempty := value
      first := fun d head => Text.head_trim_not_space (List.head?_eq_some_iff.1 head).choose_spec
      last := fun d => Text.isSpace_getLast_trimEnd (t := Text.trimStart raw) }, ?_⟩
    have cut := Text.trim_append raw
    rw [Text.trailing_trimStart value] at cut
    exact congrArg (name ++ ':' :: ·) cut

/-- A piece that is still has no declaration. -/
theorem ofPiece?_still {piece : Text} (unset : ∀ name raw, piece = name ++ ':' :: raw → ':' ∉ name →
    (∀ c ∈ name, Text.isSpace c) ∨ ∀ c ∈ raw, Text.isSpace c) : ofPiece? piece = none := by
  by_cases colon : ':' ∈ piece
  · obtain ⟨name, raw, rfl, plain⟩ := List.eq_append_cons_of_mem colon
    rw [ofPiece?_append_colon plain, if_pos]
    exact (unset name raw rfl plain).imp Text.trim_eq_nil_iff.2 Text.trim_eq_nil_iff.2
  · have none : piece.dropWhile (· != ':') = [] := List.dropWhile_eq_nil_iff.2 fun c mem => by
      rw [bne_iff_ne]
      rintro rfl
      exact colon mem
    rw [ofPiece?, none]

section
variable {m : Type → Type} [Monad m] [LawfulMonad m]

theorem editPiece_set (visit : Text → Text → m (Option Text)) (setting : Setting) :
    editPiece visit (setting.around setting.value) =
      (fun answer => setting.around (answer.getD setting.value)) <$>
        visit setting.property (unshield setting.value) := by
  have read := ofPiece?_around setting.gap setting.back setting.plain setting.trim_name_ne_nil
    setting.nonempty setting.first setting.last
  rw [editPiece, Setting.around, read, map_eq_pure_bind]
  refine bind_congr fun answer => ?_
  cases answer <;> simp [Setting.around]

/-- **The values of pieces are visited in order**, and then the pieces are filled with the answers. -/
theorem mapM_editPiece (visit : Text → Text → m (Option Text)) (forms : List Form) :
    (forms.map Form.text).mapM (editPiece visit) =
      Form.fill forms <$> (visitedIn forms).mapM fun place => visit place.1 place.2 := by
  induction forms with
  | nil => simp [visitedIn, Form.fill]
  | cons form forms ih =>
    rw [List.map_cons, List.mapM_cons, ih]
    cases form with
    | still text unset =>
      have here : editPiece visit text = pure text := by rw [editPiece, ofPiece?_still unset]
      have none : visitedIn (.still text unset :: forms) = visitedIn forms := rfl
      simp [Form.text, here, none, Form.fill]
    | set setting =>
      have one : visitedIn (.set setting :: forms) =
        (setting.property, unshield setting.value) :: visitedIn forms := rfl
      simp [Form.text, editPiece_set, one, Form.fill]

/-- What a visitor notes does not matter to what it answers. -/
theorem mapM_noted {α : Type} (note : α → m Unit) (answer : α → Option Text) (places : List α) :
    (places.mapM fun place => do note place; return answer place) = do
      places.forM note
      return places.map answer := by
  induction places with
  | nil => simp
  | cons place places ih =>
    rw [List.mapM_cons, ih]
    simp

end

theorem fill_map (answer : Text × Text → Option Text) (forms : List Form) :
    Form.fill forms ((visitedIn forms).map answer) = forms.map (Form.textWith answer) := by
  induction forms with
  | nil => rfl
  | cons form forms ih =>
    cases form with
    | still text unset => exact congrArg (text :: ·) ih
    | set setting => exact congrArg (_ :: ·) ih

theorem textWith_none (forms : List Form) : forms.map (Form.textWith fun _ => none) = forms.map Form.text := by
  refine List.map_congr_left fun form _ => ?_
  cases form <;> rfl

/-! ### Unshielding -/

/-- A piece is unshielded before its colon, and in its value. -/
theorem unshield_around (setting : Setting) (new : Text) :
    unshield (setting.around new) =
      unshield setting.name ++ ':' :: (setting.gap.text ++ (unshield new ++ setting.back.text)) := by
  rw [Setting.around, unshield_append_cons rfl, unshield_append_of_no_percent (setting.gap.not_mem rfl),
    setting.back.append_unshield]

/-- With what was visited in place of its value a piece is unshielded as before. -/
theorem unshield_textWith {form : Form} (free : WordFree (unshield form.text)) :
    unshield (form.textWith fun place => some place.2) = unshield form.text := by
  cases form with
  | still text unset => rfl
  | set setting =>
    have before : (Form.set setting).text = setting.around setting.value := rfl
    have after : (Form.set setting).textWith (fun place => some place.2) =
        setting.around (unshield setting.value) := by
      rw [Form.textWith, Option.getD_some]
    rw [before, unshield_around] at free
    have own : WordFree (unshield setting.value) :=
      free.part ⟨unshield setting.name ++ ':' :: setting.gap.text, setting.back.text, by simp⟩
    rw [before, after, unshield_around, unshield_around, unshield_of_wordFree own]

/-- With what was visited in place of all its values a content is unshielded as before. -/
theorem unshield_fill {forms : List Form}
    (free : WordFree (unshield (Text.joinWith [';'] (forms.map Form.text)))) :
    unshield (Text.joinWith [';'] (forms.map (Form.textWith fun place => some place.2))) =
      unshield (Text.joinWith [';'] (forms.map Form.text)) := by
  have foreign : ';' ∉ Mark.word := by decide
  rw [unshield_pieces, wordFree_joinWith foreign] at free
  rw [unshield_pieces, unshield_pieces, List.map_map, List.map_map]
  refine congrArg (Text.joinWith [';']) (List.map_congr_left fun form mem => ?_)
  have piece : unshield form.text ∈ (forms.map Form.text).map unshield :=
    List.mem_map_of_mem (List.mem_map_of_mem mem)
  rw [Function.comp_apply, Function.comp_apply, unshield_textWith (free _ piece)]

/-! ### Contents -/

/-- **Editing leaves everything around values as it is.**  A content is made up of pieces that set properties
and pieces that are still.  Whatever a visitor does, it is called once for each piece that sets a property, in
order, with the name of the property and the value unshielded; what comes out is the content with its answers
in place of the values for which it has one, and with the same separators, spaces and still pieces.  So a
visitor that never answers gives back the content.  One that answers every value with itself gives back, once
unshielded, the text that was shielded, if this has not the word in every mark. -/
theorem editAll_frames (content : Text) : ∃ forms : List Form,
    forms.map Form.text = content.splitOn ';' ∧
      (∀ {m : Type → Type} [Monad m] [LawfulMonad m] (visit : Text → Text → m (Option Text)),
        editAll visit content = do
          let answers ← (visitedIn forms).mapM fun place => visit place.1 place.2
          return Text.joinWith [';'] (Form.fill forms answers)) ∧
      (∀ {m : Type → Type} [Monad m] [LawfulMonad m] (note : Text → Text → m Unit),
        editAll (fun property value => do note property value; return none) content = do
          (visitedIn forms).forM fun place => note place.1 place.2
          return content) ∧
      ∀ t, content = shield t → WordFree t → ∃ edited, unshield edited = t ∧
        ∀ {m : Type → Type} [Monad m] [LawfulMonad m] (note : Text → Text → m Unit),
          editAll (fun property value => do note property value; return some value) content = do
            (visitedIn forms).forM fun place => note place.1 place.2
            return edited := by
  obtain ⟨forms, cut⟩ := Form.text_surjective.list_map (content.splitOn ';')
  have whole : Text.joinWith [';'] (forms.map Form.text) = content := by
    rw [cut, Text.joinWith, List.intercalate_splitOn]
  have edit {m : Type → Type} [Monad m] [LawfulMonad m] (visit : Text → Text → m (Option Text)) :
      editAll visit content = do
        let answers ← (visitedIn forms).mapM fun place => visit place.1 place.2
        return Text.joinWith [';'] (Form.fill forms answers) := by
    rw [editAll, ← cut, mapM_editPiece]
    simp
  -- A visitor whose answers do not depend on what it notes fills the forms with them.
  have noted {m : Type → Type} [Monad m] [LawfulMonad m] (note : Text → Text → m Unit)
      (answer : Text → Text → Option Text) :
      editAll (fun property value => do note property value; return answer property value) content = do
        (visitedIn forms).forM fun place => note place.1 place.2
        return Text.joinWith [';'] (forms.map (Form.textWith fun place => answer place.1 place.2)) := by
    have answers := mapM_noted (fun place : Text × Text => note place.1 place.2)
      (fun place => answer place.1 place.2) (visitedIn forms)
    rw [edit, answers]
    simp [fill_map]
  refine ⟨forms, cut, edit, fun note => ?_, fun t shielded free => ?_⟩
  · rw [noted note fun _ _ => none, textWith_none, whole]
  · have back : unshield (Text.joinWith [';'] (forms.map Form.text)) = t := by
      rw [whole, shielded, unshield_shield free]
    refine ⟨_, ?_, fun note => noted note fun _ value => some value⟩
    rw [← back] at free ⊢
    exact unshield_fill free

/-- Two pieces set properties, the second with a colon in its value; a string in a piece without a colon stays
shielded. -/
theorem editAll_frames_strings :
    let t := " Color :\"a;b:c\" ;: d;e: ;f::g;\"x;y\"".toList
    let content := (" Color :\"a%SEMI_IN_PLACEHOLDER%b%COLON_IN_PLACEHOLDER%c\" ;: d;e: ;f::g;" ++
      "\"x%SEMI_IN_PLACEHOLDER%y\"").toList
    let edited := " Color :\"a;b:c\" ;: d;e: ;f::g;\"x%SEMI_IN_PLACEHOLDER%y\"".toList
    WordFree t ∧ shield t = content ∧ Id.run (editAll (fun _ value => pure (some value)) content) = edited ∧
      unshield edited = t ∧ Id.run (editAll (fun _ _ => pure none) content) = content := by
  intro t content edited
  have free : WordFree t := by unfold WordFree; decide +kernel
  have shielded : shield t = content := by decide +kernel
  obtain ⟨forms, -, -, silent, back⟩ := editAll_frames content
  obtain ⟨edited', undone, visits⟩ := back t shielded.symm free
  have itself : Id.run (editAll (fun _ value => pure (some value)) content) = edited' :=
    visits (m := Id) fun _ _ => pure ()
  have here : Id.run (editAll (fun _ value => pure (some value)) content) = edited := by decide +kernel
  obtain rfl : edited' = edited := itself.symm.trans here
  exact ⟨free, shielded, here, undone, silent (m := Id) fun _ _ => pure ()⟩

end Declaration
end ScopedCss
