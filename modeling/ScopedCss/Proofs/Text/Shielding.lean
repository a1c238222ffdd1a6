import Mathlib.Data.List.Infix
import ScopedCss.Proofs.Text.Scanning
import ScopedCss.Rule.Walk

/-!
# Shielding and its inverse

`unshield` knows nothing of strings: it replaces marks wherever they stand, one kind after the other.
That it gives back what `shield` was given (`unshield_shield`) is due to the marks, which all contain
one word.  A text without that word has no mark of its own, and no mark can be formed of the text and
of marks next to it.

The characters of a text are looked at as *cells*, each marked or not.  Every kind of mark that is
replaced takes the cells one step from the shielded text to the text as it was.

Both functions can be taken apart: `shield` behind a text that leaves no string open
(`shield_append`), `unshield` at a character that stands in no mark (`unshield_append_cons`).
-/
namespace ScopedCss

/-! ### The marks -/

namespace Mark

/-- The word in every mark of a structural character. -/
def word : Text := "_IN_PLACEHOLDER".toList

/-- The characters that are marked. -/
def chars : List Char := structural.map Prod.fst

theorem mem_chars {c : Char} : c ∈ chars ↔ c = ',' ∨ c = ';' ∨ c = '{' ∨ c = '}' ∨ c = ':' := by
  simp [chars, structural]

/-- A mark is a text between two `%` that ends in the word. -/
theorem ofChar_shape {c : Char} (known : c ∈ chars) :
    ∃ inside, ofChar c = '%' :: (inside ++ ['%']) ∧ '%' ∉ inside ∧ word <:+ inside := by
  rcases mem_chars.1 known with rfl | rfl | rfl | rfl | rfl
  · exact ⟨"COMMA_IN_PLACEHOLDER".toList, by decide, by decide, by decide⟩
  · exact ⟨"SEMI_IN_PLACEHOLDER".toList, by decide, by decide, by decide⟩
  · exact ⟨"OPEN_BRACE_IN_PLACEHOLDER".toList, by decide, by decide, by decide⟩
  · exact ⟨"CLOSE_BRACE_IN_PLACEHOLDER".toList, by decide, by decide, by decide⟩
  · exact ⟨"COLON_IN_PLACEHOLDER".toList, by decide, by decide, by decide⟩

theorem ofChar_of_not_mem {c : Char} (other : c ∉ chars) : ofChar c = [c] := by
  have unknown : structural.lookup c = none := by
    refine List.lookup_eq_none_iff.2 fun entry mem => ?_
    rw [bne_iff_ne]
    exact fun same => other (same ▸ List.mem_map_of_mem mem)
  rw [ofChar, unknown]
  rfl

theorem ofChar_ne_nil (c : Char) : ofChar c ≠ [] := by
  by_cases known : c ∈ chars
  · obtain ⟨inside, shape, -⟩ := ofChar_shape known
    simp [shape]
  · simp [ofChar_of_not_mem known]

theorem ofChar_inj {c d : Char} (known : c ∈ chars) (known' : d ∈ chars)
    (same : ofChar c = ofChar d) : c = d := by
  rcases mem_chars.1 known with rfl | rfl | rfl | rfl | rfl <;>
    rcases mem_chars.1 known' with rfl | rfl | rfl | rfl | rfl <;>
      first | rfl | exact absurd same (by decide)

/-- Whether a character is of a kind that marks are written with. -/
def isMarkChar (c : Char) : Bool := c.isUpper || c == '_' || c == '%'

theorem isMarkChar_of_mem {c d : Char} (known : c ∈ chars) (mem : d ∈ ofChar c) : isMarkChar d := by
  have all : (ofChar c).all isMarkChar := by
    rcases mem_chars.1 known with rfl | rfl | rfl | rfl | rfl <;> decide
  exact List.all_eq_true.1 all d mem

theorem isSpace_of_isMarkChar {c : Char} (mark : isMarkChar c) : Text.isSpace c = false := by
  have bounds : 37 ≤ c.toNat ∧ c.toNat ≤ 95 := by
    simp only [isMarkChar, Bool.or_eq_true, Text.isUpper_iff, beq_iff_eq] at mark
    rcases mark with (⟨low, high⟩ | rfl) | rfl
    · omega
    · decide
    · decide
  simp only [Text.isSpace, Bool.or_eq_false_iff, Bool.and_eq_false_imp, decide_eq_true_eq,
    decide_eq_false_iff_not, beq_eq_false_iff_ne]
  omega

end Mark

namespace Recogniser
variable {α : Type} {r : Recogniser α} {respell : α → Text}

/-- Characters at which nothing is recognised with the rest behind them stay as they are. -/
theorem substitute_append_of_none {s t : Text}
    (none : ∀ u, u <:+ s → u ≠ [] → r.read (u ++ t) = none) :
    r.substitute respell (s ++ t) = s ++ r.substitute respell t := by
  induction s with
  | nil => rfl
  | cons c s ih =>
    have here : r.read (c :: (s ++ t)) = .none := none (c :: s) List.suffix_rfl (by simp)
    rw [List.cons_append, substitute_of_not_read here,
      ih fun u inside => none u (inside.trans (List.suffix_cons c s)), List.cons_append]

theorem read_word_eq_none {w t : Text} (nonempty : w ≠ []) (absent : ¬ w <+: t) :
    (word w nonempty).read t = none :=
  if_neg fun front => absent (List.isPrefixOf_iff_prefix.1 front)

end Recogniser

namespace Quoted

/-! ### One character -/

variable {quote c : Char}

theorem ne_backslash_of_isQuote (isQuote : Text.isQuote quote) : quote ≠ '\\' := by
  rintro rfl
  cases isQuote

theorem isQuote_of_mem_none : ∀ q ∈ (none : Option Char), Text.isQuote q := by
  intro q mem
  cases mem

theorem isQuote_of_mem (c : Char) :
    ∀ q ∈ (if Text.isQuote c then some c else none : Option Char), Text.isQuote q := by
  intro q mem
  split at mem
  next isQuote => exact Option.some.inj mem ▸ isQuote
  next => cases mem

theorem shieldFrom_outside (clean : c ≠ '\\') (t : Text) :
    shieldFrom none (c :: t) = c :: shieldFrom (if Text.isQuote c then some c else none) t := by
  rw [shieldFrom]
  exact fun _ _ same => absurd same clean

theorem shieldFrom_quote (isQuote : Text.isQuote quote) (t : Text) :
    shieldFrom (some quote) (quote :: t) = quote :: shieldFrom none t := by
  rw [shieldFrom, if_pos rfl]
  exact fun _ _ same => absurd same (ne_backslash_of_isQuote isQuote)

theorem shieldFrom_inside (clean : c ≠ '\\') (other : c ≠ quote) (t : Text) :
    shieldFrom (some quote) (c :: t) = Mark.ofChar c ++ shieldFrom (some quote) t := by
  rw [shieldFrom, if_neg other]
  exact fun _ _ same => absurd same clean

/-! ### Strings that are closed -/

/-- The quote of the string that is open behind a text without backslashes. -/
def openAfter : Option Char → Text → Option Char
  | quote, [] => quote
  | some quote, c :: t => openAfter (if c = quote then none else some quote) t
  | none, c :: t => openAfter (if Text.isQuote c then some c else none) t

theorem openAfter_append (quote : Option Char) (s t : Text) :
    openAfter quote (s ++ t) = openAfter (openAfter quote s) t := by
  induction s generalizing quote with
  | nil => cases quote <;> rfl
  | cons c s ih =>
    cases quote with
    | none => exact ih _
    | some quote => exact ih _

/-- A text without backslashes that closes every string it opens. -/
structure Closed (t : Text) : Prop where
  no_backslash : '\\' ∉ t
  closes : openAfter none t = none

theorem Closed.nil : Closed [] := ⟨by simp, rfl⟩

theorem Closed.append {s t : Text} (h : Closed s) (h' : Closed t) : Closed (s ++ t) where
  no_backslash mem := (List.mem_append.1 mem).elim h.no_backslash h'.no_backslash
  closes := by rw [openAfter_append, h.closes, h'.closes]

/-- A text without quotes closes every string. -/
theorem closed_of_no_quote {t : Text} (plain : ∀ c ∈ t, Text.isQuote c = false) (clean : '\\' ∉ t) :
    Closed t := by
  refine ⟨clean, ?_⟩
  induction t with
  | nil => rfl
  | cons c t ih =>
    have here := plain c List.mem_cons_self
    rw [openAfter, here]
    exact ih (fun d mem => plain d (List.mem_cons_of_mem c mem))
      fun mem => clean (List.mem_cons_of_mem c mem)

theorem openAfter_inside {quote : Char} {t : Text} (inside : quote ∉ t) :
    openAfter (some quote) t = some quote := by
  induction t with
  | nil => rfl
  | cons c t ih =>
    have other : c ≠ quote := fun same => inside (same ▸ List.mem_cons_self)
    rw [openAfter, if_neg other]
    exact ih fun mem => inside (List.mem_cons_of_mem c mem)

/-- A string that does not hold its quote is closed. -/
theorem closed_quoted {quote : Char} {t : Text} (isQuote : Text.isQuote quote) (inside : quote ∉ t)
    (clean : '\\' ∉ t) : Closed (quote :: (t ++ [quote])) where
  no_backslash mem := by
    simp only [List.mem_cons, List.mem_append, List.not_mem_nil, or_false] at mem
    rcases mem with rfl | mem | rfl
    · cases isQuote
    · exact clean mem
    · cases isQuote
  closes := by
    rw [openAfter, if_pos isQuote, openAfter_append, openAfter_inside inside, openAfter, if_pos rfl]
    rfl

/-! ### Shielding in two goes -/

theorem shieldFrom_append {state : Option Char} (isQuote : ∀ q ∈ state, Text.isQuote q) {s : Text}
    (clean : '\\' ∉ s) (t : Text) :
    shieldFrom state (s ++ t) = shieldFrom state s ++ shieldFrom (openAfter state s) t := by
  induction s generalizing state with
  | nil => cases state <;> rfl
  | cons c s ih =>
    have here : c ≠ '\\' := fun same => clean (same ▸ List.mem_cons_self)
    have later : '\\' ∉ s := fun mem => clean (List.mem_cons_of_mem c mem)
    cases state with
    | none =>
      rw [List.cons_append, shieldFrom_outside here, shieldFrom_outside here, ih _ later]
      · rfl
      · exact isQuote_of_mem c
    | some quote =>
      by_cases same : c = quote
      · subst same
        have outside := ih isQuote_of_mem_none later
        rw [List.cons_append, shieldFrom_quote (isQuote c rfl), shieldFrom_quote (isQuote c rfl),
          outside, openAfter, if_pos rfl, List.cons_append]
      · rw [List.cons_append, shieldFrom_inside here same, shieldFrom_inside here same,
          ih isQuote later, openAfter, if_neg same, List.append_assoc]

/-- Behind a text that leaves no string open, a text is shielded by itself. -/
theorem shield_append {s : Text} (closed : Closed s) (t : Text) :
    shield (s ++ t) = shield s ++ shield t := by
  rw [shield, shieldFrom_append isQuote_of_mem_none closed.no_backslash, closed.closes]
  rfl

/-- A text without quotes has nothing to shield. -/
theorem shield_of_no_quote {t : Text} (plain : ∀ c ∈ t, Text.isQuote c = false) (clean : '\\' ∉ t) :
    shield t = t := by
  induction t with
  | nil => rfl
  | cons c t ih =>
    have here : c ≠ '\\' := fun same => clean (same ▸ List.mem_cons_self)
    have later := ih (fun d mem => plain d (List.mem_cons_of_mem c mem))
      fun mem => clean (List.mem_cons_of_mem c mem)
    rw [shield, shieldFrom_outside here, plain c List.mem_cons_self]
    exact congrArg (c :: ·) later

theorem shieldFrom_flatMap {t : Text} (inside : quote ∉ t) (clean : '\\' ∉ t) :
    shieldFrom (some quote) t = t.flatMap Mark.ofChar := by
  induction t with
  | nil => rfl
  | cons c t ih =>
    have here : c ≠ '\\' := fun same => clean (same ▸ List.mem_cons_self)
    have other : c ≠ quote := fun same => inside (same ▸ List.mem_cons_self)
    rw [shieldFrom_inside here other, List.flatMap_cons, ih]
    · exact fun mem => inside (List.mem_cons_of_mem c mem)
    · exact fun mem => clean (List.mem_cons_of_mem c mem)

/-- In a string every structural character is marked. -/
theorem shield_quoted {t : Text} (isQuote : Text.isQuote quote) (inside : quote ∉ t)
    (clean : '\\' ∉ t) :
    shield (quote :: (t ++ [quote])) = quote :: (t.flatMap Mark.ofChar ++ [quote]) := by
  have known : ∀ q ∈ some quote, Text.isQuote q := by
    rintro q ⟨⟩
    exact isQuote
  rw [shield, shieldFrom_outside (ne_backslash_of_isQuote isQuote), if_pos isQuote,
    shieldFrom_append known clean, shieldFrom_flatMap inside clean, openAfter_inside inside,
    shieldFrom_quote isQuote]
  rfl

/-- The last character of a text that closes its strings stands outside them, or closes one. -/
theorem shield_concat {s : Text} {c : Char} (closed : Closed (s ++ [c])) :
    shield (s ++ [c]) = shield s ++ [c] := by
  have clean : '\\' ∉ s ∧ c ≠ '\\' := by
    have whole := closed.no_backslash
    rw [List.mem_append, List.mem_singleton, not_or] at whole
    exact ⟨whole.1, fun same => whole.2 same.symm⟩
  have closes := closed.closes
  rw [openAfter_append] at closes
  rw [shield, shieldFrom_append isQuote_of_mem_none clean.1]
  refine congrArg (shield s ++ ·) ?_
  cases open' : openAfter none s with
  | none => exact shieldFrom_outside clean.2 []
  | some quote =>
    rw [open', openAfter] at closes
    by_cases same : c = quote
    · simp [shieldFrom, same]
    · rw [if_neg same] at closes
      cases closes

/-- A text that closes its strings starts and ends as it does when it is shielded. -/
theorem ends_shield {t : Text} (closed : Closed t) :
    (shield t).head? = t.head? ∧ (shield t).getLast? = t.getLast? := by
  constructor
  · cases t with
    | nil => rfl
    | cons c t =>
      have clean : c ≠ '\\' := fun same => closed.no_backslash (same ▸ List.mem_cons_self)
      rw [shield, shieldFrom_outside clean]
      rfl
  · rcases List.eq_nil_or_concat t with rfl | ⟨s, c, rfl⟩
    · rfl
    · rw [List.concat_eq_append] at closed ⊢
      rw [shield_concat closed, List.getLast?_concat, List.getLast?_concat]

/-! ### Shielding twice -/

theorem ne_of_isMarkChar {d : Char} (mark : Mark.isMarkChar c) (other : Mark.isMarkChar d = false) :
    c ≠ d := by
  rintro rfl
  rw [mark] at other
  cases other

theorem isMarkChar_of_isQuote (isQuote : Text.isQuote quote) : Mark.isMarkChar quote = false := by
  simp only [Text.isQuote, Bool.or_eq_true, beq_iff_eq] at isQuote
  rcases isQuote with rfl | rfl <;> rfl

/-- In a string a mark stays as it is. -/
theorem shieldFrom_mark (isQuote : Text.isQuote quote) {mark : Text}
    (written : ∀ d ∈ mark, Mark.isMarkChar d) (t : Text) :
    shieldFrom (some quote) (mark ++ t) = mark ++ shieldFrom (some quote) t := by
  induction mark with
  | nil => rfl
  | cons d mark ih =>
    have here := written d List.mem_cons_self
    have plain : d ∉ Mark.chars := by
      intro known
      rcases Mark.mem_chars.1 known with rfl | rfl | rfl | rfl | rfl <;> cases here
    rw [List.cons_append, shieldFrom_inside (ne_of_isMarkChar here rfl)
        (ne_of_isMarkChar here (isMarkChar_of_isQuote isQuote)),
      Mark.ofChar_of_not_mem plain, ih fun e mem => written e (List.mem_cons_of_mem d mem)]
    rfl

theorem shieldFrom_shieldFrom {state : Option Char} (isQuote : ∀ q ∈ state, Text.isQuote q)
    (t : Text) : shieldFrom state (shieldFrom state t) = shieldFrom state t := by
  fun_induction shieldFrom state t with
  | case1 state => cases state <;> rfl
  | case2 state c t ih => rw [shieldFrom, ih isQuote]
  | case3 quote t clean ih =>
    rw [shieldFrom_quote (isQuote quote rfl), ih isQuote_of_mem_none]
  | case4 quote c t clean other ih =>
    by_cases known : c ∈ Mark.chars
    · rw [shieldFrom_mark (isQuote quote rfl) (fun d mem => Mark.isMarkChar_of_mem known mem),
        ih isQuote]
    · rw [Mark.ofChar_of_not_mem known]
      by_cases back : c = '\\'
      · cases t with
        | nil => simp [back, shieldFrom, (ne_backslash_of_isQuote (isQuote quote rfl)).symm,
            Mark.ofChar_of_not_mem (back ▸ known)]
        | cons d t => exact absurd rfl (clean d t back)
      · rw [List.singleton_append, shieldFrom_inside back other, Mark.ofChar_of_not_mem known,
          ih isQuote]
        rfl
  | case5 c t clean ih =>
    by_cases back : c = '\\'
    · cases t with
      | nil => simp [back, shieldFrom]
      | cons d t => exact absurd rfl (clean d t back)
    · rw [shieldFrom_outside back]
      exact congrArg (c :: ·) (ih (isQuote_of_mem c))

/-- Shielding is done once. -/
theorem shield_shield (t : Text) : shield (shield t) = shield t :=
  shieldFrom_shieldFrom isQuote_of_mem_none t

/-! ### Cells -/

/-- The characters of a text, each with whether it is marked when the text is shielded. -/
def cellsFrom : Option Char → Text → List (Char × Bool)
  | _, [] => []
  | quote, '\\' :: c :: t => ('\\', false) :: (c, false) :: cellsFrom quote t
  | some quote, c :: t =>
    if c = quote then (c, false) :: cellsFrom none t
    else (c, true) :: cellsFrom (some quote) t
  | none, c :: t =>
    (c, false) :: cellsFrom (if Text.isQuote c then some c else none) t

/-- The characters of cells, where marks are written for the marked ones of the given kinds. -/
def spell (kinds : List Char) (cells : List (Char × Bool)) : Text :=
  cells.flatMap fun (c, marked) => if marked ∧ c ∈ kinds then Mark.ofChar c else [c]

theorem map_fst_cellsFrom (quote : Option Char) (t : Text) :
    (cellsFrom quote t).map Prod.fst = t := by
  fun_induction cellsFrom quote t with
  | case1 => rfl
  | case2 quote c t ih => simp [ih]
  | case3 quote t clean ih => simp [ih]
  | case4 quote c t clean other ih => simp [ih]
  | case5 c t clean ih => simp [ih]

/-- With every kind of mark the cells of a text are spelled as it is shielded. -/
theorem spell_cellsFrom (quote : Option Char) (t : Text) :
    spell Mark.chars (cellsFrom quote t) = shieldFrom quote t := by
  fun_induction cellsFrom quote t with
  | case1 quote => cases quote <;> rfl
  | case2 quote c t ih =>
    rw [shieldFrom, ← ih]
    simp [spell]
  | case3 quote t clean ih =>
    rw [shieldFrom, if_pos rfl, ← ih]
    · simp [spell]
    · exact clean
  | case4 quote c t clean other ih =>
    rw [shieldFrom, if_neg other, ← ih]
    · by_cases known : c ∈ Mark.chars
      · simp [spell, known]
      · simp [spell, known, Mark.ofChar_of_not_mem known]
    · exact clean
  | case5 c t clean ih =>
    rw [shieldFrom, ← ih]
    · simp [spell]
    · exact clean

theorem spell_nil (cells : List (Char × Bool)) : spell [] cells = cells.map Prod.fst := by
  induction cells with
  | nil => rfl
  | cons cell cells ih => simpa [spell] using ih

/-! ### Replacing the marks of one kind -/

/-- A text without the word in every mark. -/
def WordFree (t : Text) : Prop := ¬ Mark.word <:+: t

theorem WordFree.part {s t : Text} (free : WordFree t) (inside : s <:+: t) : WordFree s :=
  fun there => free (there.trans inside)

variable {kinds : List Char} {cells : List (Char × Bool)}

/-- A cell is spelled as its character, or as the mark of it. -/
theorem spell_cons (kinds : List Char) (cell : Char × Bool) (cells : List (Char × Bool)) :
    (spell kinds (cell :: cells) = cell.1 :: spell kinds cells ∧
        ¬ (cell.1 ∈ Mark.chars ∧ cell.2 ∧ cell.1 ∈ kinds)) ∨
      (cell.1 ∈ Mark.chars ∧ cell.2 ∧ cell.1 ∈ kinds ∧
        spell kinds (cell :: cells) = Mark.ofChar cell.1 ++ spell kinds cells) := by
  obtain ⟨c, marked⟩ := cell
  by_cases written : marked ∧ c ∈ kinds
  · by_cases known : c ∈ Mark.chars
    · exact .inr ⟨known, written.1, written.2, by simp [spell, written.1, written.2]⟩
    · refine .inl ⟨?_, fun h => known h.1⟩
      simp [spell, written.1, written.2, Mark.ofChar_of_not_mem known]
  · refine .inl ⟨?_, fun h => written h.2⟩
    simp [spell, written]

/-- What is written without `%` at the front of cells stands in their characters. -/
theorem prefix_of_prefix_spell {w : Text} (clean : '%' ∉ w) (front : w <+: spell kinds cells) :
    w <+: cells.map Prod.fst := by
  induction cells generalizing w with
  | nil => exact front
  | cons cell cells ih =>
    cases w with
    | nil => exact List.nil_prefix
    | cons d w =>
      rcases spell_cons kinds cell cells with ⟨plain, -⟩ | ⟨known, -, -, marked⟩
      · rw [plain, List.cons_prefix_cons] at front
        rw [List.map_cons, List.cons_prefix_cons]
        exact ⟨front.1, ih (fun mem => clean (List.mem_cons_of_mem d mem)) front.2⟩
      · obtain ⟨inside, shape, -⟩ := Mark.ofChar_shape known
        rw [marked, shape, List.cons_append, List.cons_prefix_cons] at front
        exact absurd (front.1 ▸ List.mem_cons_self) clean

/-- No mark is formed by a `%` and the cells behind it, as it would need the word among their
characters. -/
theorem not_mark_prefix {c : Char} (known : c ∈ Mark.chars) (free : WordFree (cells.map Prod.fst)) :
    ¬ Mark.ofChar c <+: '%' :: spell kinds cells := by
  intro front
  obtain ⟨inside, shape, clean, word⟩ := Mark.ofChar_shape known
  rw [shape, List.cons_prefix_cons] at front
  have before : inside <+: spell kinds cells := (List.prefix_append inside ['%']).trans front.2
  exact free (word.isInfix.trans (prefix_of_prefix_spell clean before).isInfix)

/-- Between marks that differ, the longer one is none of the other kind with more behind it. -/
theorem not_mark_prefix_mark {c d : Char} (known : c ∈ Mark.chars) (known' : d ∈ Mark.chars)
    (other : c ≠ d) (t : Text) : ¬ Mark.ofChar c <+: Mark.ofChar d ++ t := by
  intro front
  obtain ⟨inside, shape, clean, -⟩ := Mark.ofChar_shape known
  obtain ⟨inside', shape', clean', -⟩ := Mark.ofChar_shape known'
  refine other (Mark.ofChar_inj known known' ?_)
  obtain ⟨rest, split⟩ := front
  rw [shape, shape', List.cons_append, List.cons_append, List.append_assoc, List.append_assoc] at split
  have same : inside = inside' := by
    have cut := congrArg (List.takeWhile (· != '%')) (List.cons.inj split).2
    have upTo {s : Text} (clean : '%' ∉ s) (u : Text) :
        (s ++ (['%'] ++ u)).takeWhile (· != '%') = s := by
      rw [List.takeWhile_append_of_pos]
      · simp
      · intro e mem
        rw [bne_iff_ne]
        rintro rfl
        exact clean mem
    rwa [upTo clean, upTo clean'] at cut
  rw [shape, shape', same]

/-- No mark starts inside a mark of another kind. -/
theorem not_mark_prefix_suffix {c d : Char} (known : c ∈ Mark.chars) (known' : d ∈ Mark.chars)
    (other : c ≠ d) (free : WordFree (cells.map Prod.fst)) {u : Text} (inside : u <:+ Mark.ofChar d)
    (nonempty : u ≠ []) : ¬ Mark.ofChar c <+: u ++ spell kinds cells := by
  intro front
  obtain ⟨word, shape, clean, -⟩ := Mark.ofChar_shape known'
  have whole : u = Mark.ofChar d ∨ u <:+ word ++ ['%'] := by
    rw [shape, List.suffix_cons_iff] at inside
    rwa [shape]
  rcases whole with rfl | ⟨before, split⟩
  · exact not_mark_prefix_mark known known' other _ front
  · rcases List.eq_nil_or_concat u with rfl | ⟨u, e, rfl⟩
    · exact nonempty rfl
    rw [List.concat_eq_append, ← List.append_assoc] at split
    obtain ⟨split, last⟩ := List.append_inj' split rfl
    cases last
    cases u with
    | nil => exact not_mark_prefix known free front
    | cons f u =>
      obtain ⟨word', shape', -⟩ := Mark.ofChar_shape known
      rw [shape', List.concat_eq_append, List.cons_append, List.cons_append,
        List.cons_prefix_cons] at front
      refine clean (List.append_cancel_right split ▸ ?_)
      rw [front.1]
      exact List.mem_append_right before List.mem_cons_self

/-- Replacing the marks of one kind takes away the kind, if the characters are free of the word in
every mark. -/
theorem replaceAll_spell {c : Char} (known : c ∈ Mark.chars) (done : c ∉ kinds)
    (free : WordFree (cells.map Prod.fst)) :
    Text.replaceAll (Mark.ofChar c) [c] (spell (c :: kinds) cells) = spell kinds cells := by
  rw [Text.replaceAll, dif_pos (Mark.ofChar_ne_nil c)]
  induction cells with
  | nil => rfl
  | cons cell cells ih =>
    have later : WordFree (cells.map Prod.fst) :=
      WordFree.part free (List.suffix_cons cell.1 _).isInfix
    specialize ih later
    rcases spell_cons (c :: kinds) cell cells with
      ⟨plain, unmarked⟩ | ⟨structural, marked, kind, spelled⟩
    · -- The character itself: no mark starts with it.
      have none : ¬ Mark.ofChar c <+: cell.1 :: spell (c :: kinds) cells := by
        by_cases percent : cell.1 = '%'
        · rw [percent]
          exact not_mark_prefix known later
        · obtain ⟨inside, shape, -⟩ := Mark.ofChar_shape known
          rw [shape, List.cons_prefix_cons]
          exact fun front => percent front.1.symm
      rw [plain, Recogniser.substitute_of_not_read (Recogniser.read_word_eq_none _ none), ih]
      rcases spell_cons kinds cell cells with ⟨plain', -⟩ | ⟨structural, marked, kind, -⟩
      · exact plain'.symm
      · exact absurd ⟨structural, marked, List.mem_cons_of_mem c kind⟩ unmarked
    · by_cases same : cell.1 = c
      · -- A mark of the kind that is replaced.
        have read : (Recogniser.word (Mark.ofChar c) (Mark.ofChar_ne_nil c)).read
            (Mark.ofChar c ++ spell (c :: kinds) cells) = some () :=
          if_pos (List.isPrefixOf_iff_prefix.2 (List.prefix_append _ _))
        rw [spelled, same]
        refine (Recogniser.substitute_spell_append read).trans ?_
        rw [ih]
        rcases spell_cons kinds cell cells with ⟨plain, -⟩ | ⟨-, -, kind, -⟩
        · rw [plain, same]
          rfl
        · exact absurd (same ▸ kind) done
      · -- A mark of another kind: none of its characters starts a mark of this one.
        have none : ∀ u, u <:+ Mark.ofChar cell.1 → u ≠ [] →
            (Recogniser.word (Mark.ofChar c) (Mark.ofChar_ne_nil c)).read
              (u ++ spell (c :: kinds) cells) = Option.none := by
          intro u inside nonempty
          refine Recogniser.read_word_eq_none _ ?_
          exact not_mark_prefix_suffix known structural (fun h => same h.symm) later inside nonempty
        rw [spelled, Recogniser.substitute_append_of_none none, ih]
        rcases spell_cons kinds cell cells with ⟨-, unmarked⟩ | ⟨-, -, -, spelled'⟩
        · have kind' : cell.1 ∈ kinds := (List.mem_cons.1 kind).resolve_left same
          exact absurd ⟨structural, marked, kind'⟩ unmarked
        · exact spelled'.symm

/-! ### Unshielding -/

@[simp] theorem unshield_nil : unshield [] = [] := rfl

/-- The text with every mark of a character replaced by it. -/
def unmark (t : Text) (c : Char) : Text := Text.replaceAll (Mark.ofChar c) [c] t

theorem unmark_eq_substitute (t : Text) (c : Char) :
    unmark t c =
      (Recogniser.word (Mark.ofChar c) (Mark.ofChar_ne_nil c)).substitute (fun _ => [c]) t := by
  rw [unmark, Text.replaceAll, dif_pos (Mark.ofChar_ne_nil c)]

@[simp] theorem unmark_nil (c : Char) : unmark [] c = [] := by
  rw [unmark_eq_substitute]
  rfl

theorem unmark_cons {c d : Char} {t : Text} (absent : ¬ Mark.ofChar d <+: c :: t) :
    unmark (c :: t) d = c :: unmark t d := by
  rw [unmark_eq_substitute, unmark_eq_substitute,
    Recogniser.substitute_of_not_read (Recogniser.read_word_eq_none _ absent)]

theorem unmark_ofChar_append (d : Char) (t : Text) : unmark (Mark.ofChar d ++ t) d = d :: unmark t d := by
  rw [unmark_eq_substitute, unmark_eq_substitute]
  have read : (Recogniser.word (Mark.ofChar d) (Mark.ofChar_ne_nil d)).read (Mark.ofChar d ++ t) = some () :=
    if_pos (List.isPrefixOf_iff_prefix.2 (List.prefix_append _ _))
  exact Recogniser.substitute_spell_append read

/-- Induction along a text, where each mark of one kind is one step. -/
theorem unmark_induction {motive : Text → Prop} (c : Char) (nil : motive [])
    (mark : ∀ t, motive t → motive (Mark.ofChar c ++ t))
    (plain : ∀ d t, ¬ Mark.ofChar c <+: d :: t → motive t → motive (d :: t)) (t : Text) : motive t := by
  induction size : t.length using Nat.strongRecOn generalizing t with
  | ind n ih =>
    subst size
    cases t with
    | nil => exact nil
    | cons d t =>
      by_cases front : Mark.ofChar c <+: d :: t
      · obtain ⟨rest, split⟩ := front
        rw [← split] at ih ⊢
        refine mark rest (ih rest.length ?_ rest rfl)
        rw [List.length_append]
        exact Nat.lt_add_of_pos_left (List.length_pos_iff.2 (Mark.ofChar_ne_nil c))
      · exact plain d t front (ih t.length (by simp) t rfl)

theorem unshield_eq_foldl (t : Text) : unshield t = Mark.chars.foldl unmark t := by
  rw [Mark.chars, List.foldl_map, unshield]
  refine List.foldl_ext _ _ t fun t entry mem => ?_
  simp only [Mark.structural, List.mem_cons, List.not_mem_nil, or_false] at mem
  rcases mem with rfl | rfl | rfl | rfl | rfl <;> rfl

theorem foldl_unmark_spell (known : ∀ c ∈ kinds, c ∈ Mark.chars) (once : kinds.Nodup)
    (free : WordFree (cells.map Prod.fst)) :
    kinds.foldl unmark (spell kinds cells) = cells.map Prod.fst := by
  induction kinds with
  | nil => exact spell_nil cells
  | cons c kinds ih =>
    obtain ⟨done, once⟩ := List.nodup_cons.1 once
    rw [List.foldl_cons, unmark, replaceAll_spell (known c List.mem_cons_self) done free]
    exact ih (fun d mem => known d (List.mem_cons_of_mem c mem)) once

/-- Unshielding takes every mark from cells whose characters are free of the word in every mark. -/
theorem unshield_spell {cells : List (Char × Bool)} (free : WordFree (cells.map Prod.fst)) :
    unshield (spell Mark.chars cells) = cells.map Prod.fst := by
  rw [unshield_eq_foldl]
  exact foldl_unmark_spell (fun c mem => mem) (by decide) free

/-- **Unshielding undoes shielding**, in every text without the word in every mark. -/
theorem unshield_shield {t : Text} (free : WordFree t) : unshield (shield t) = t := by
  have whole := map_fst_cellsFrom none t
  rw [shield, ← spell_cellsFrom, unshield_spell (whole.symm ▸ free), whole]

/-- A text without the word in every mark has no marks. -/
theorem unshield_of_wordFree {t : Text} (free : WordFree t) : unshield t = t := by
  have plain : ∀ kinds, spell kinds (t.map fun c => (c, false)) = t := by
    intro kinds
    induction t with
    | nil => rfl
    | cons c t ih =>
      have later := ih (WordFree.part free (List.suffix_cons c t).isInfix)
      simpa [spell] using later
  have whole : (t.map fun c => (c, false)).map Prod.fst = t := (spell_nil _).symm.trans (plain [])
  have same : WordFree ((t.map fun c => (c, false)).map Prod.fst) := whole.symm ▸ free
  have undone := unshield_spell same
  rwa [plain, whole] at undone

/-- Unshielding undoes marking every structural character. -/
theorem unshield_flatMap_ofChar {t : Text} (free : WordFree t) :
    unshield (t.flatMap Mark.ofChar) = t := by
  have marked : spell Mark.chars (t.map fun c => (c, true)) = t.flatMap Mark.ofChar := by
    rw [spell, List.flatMap_map]
    refine List.flatMap_congr fun c _ => ?_
    by_cases known : c ∈ Mark.chars
    · simp [known]
    · simp [known, Mark.ofChar_of_not_mem known]
  have whole : (t.map fun c => (c, true)).map Prod.fst = t := by
    rw [List.map_map]
    exact List.map_id t
  have same : WordFree ((t.map fun c => (c, true)).map Prod.fst) := whole.symm ▸ free
  have undone := unshield_spell same
  rwa [marked, whole] at undone

theorem unmark_append_cons {c d : Char} (known : d ∈ Mark.chars) (plain : Mark.isMarkChar c = false)
    (s t : Text) : unmark (s ++ c :: t) d = unmark s d ++ c :: unmark t d := by
  have absent : c ∉ Mark.ofChar d := by
    intro mem
    rw [Mark.isMarkChar_of_mem known mem] at plain
    cases plain
  have starts : ∀ u, ¬ Mark.ofChar d <+: c :: u := by
    intro u front
    obtain ⟨inside, shape, -⟩ := Mark.ofChar_shape known
    rw [shape, List.cons_prefix_cons] at front
    exact absent (shape ▸ front.1 ▸ List.mem_cons_self)
  have alone : ∀ u, u <:+ s → u ≠ [] →
      (Recogniser.word (Mark.ofChar d) (Mark.ofChar_ne_nil d)).read (u ++ c :: t) =
        (Recogniser.word (Mark.ofChar d) (Mark.ofChar_ne_nil d)).read u := by
    intro u _ _
    have same : Mark.ofChar d <+: u ++ c :: t ↔ Mark.ofChar d <+: u := by
      constructor
      · intro front
        have cut : u ++ [c] <+: u ++ c :: t := ⟨t, by simp⟩
        rcases List.prefix_or_prefix_of_prefix front cut with short | long
        · rcases List.prefix_concat_iff.1 short with whole | inside
          · exact absurd (whole ▸ List.mem_append_right u List.mem_cons_self) absent
          · exact inside
        · exact absurd (long.subset (List.mem_append_right u List.mem_cons_self)) absent
      · exact fun front => front.trans (List.prefix_append u _)
    simp only [Recogniser.word, List.isPrefixOf_iff_prefix, same]
  rw [unmark_eq_substitute, Recogniser.substitute_append alone, ← unmark_eq_substitute,
    ← unmark_eq_substitute, unmark_cons (starts t)]

/-- Unshielding can be taken apart at a character that stands in no mark. -/
theorem unshield_append_cons {c : Char} (plain : Mark.isMarkChar c = false) (s t : Text) :
    unshield (s ++ c :: t) = unshield s ++ c :: unshield t := by
  have all : ∀ kinds : List Char, (∀ d ∈ kinds, d ∈ Mark.chars) → ∀ s t,
      kinds.foldl unmark (s ++ c :: t) = kinds.foldl unmark s ++ c :: kinds.foldl unmark t := by
    intro kinds
    induction kinds with
    | nil => exact fun _ _ _ => rfl
    | cons d kinds ih =>
      intro known s t
      rw [List.foldl_cons, unmark_append_cons (known d List.mem_cons_self) plain]
      exact ih (fun e mem => known e (List.mem_cons_of_mem d mem)) _ _
  rw [unshield_eq_foldl, unshield_eq_foldl, unshield_eq_foldl]
  exact all Mark.chars (fun d mem => mem) s t

theorem unmark_append_of_no_percent {d : Char} (known : d ∈ Mark.chars) {s : Text} (clean : '%' ∉ s)
    (t : Text) : unmark (s ++ t) d = s ++ unmark t d := by
  induction s with
  | nil => rfl
  | cons c s ih =>
    have absent : ¬ Mark.ofChar d <+: c :: (s ++ t) := fun front => by
      obtain ⟨inside, shape, -⟩ := Mark.ofChar_shape known
      rw [shape, List.cons_prefix_cons] at front
      exact clean (front.1 ▸ List.mem_cons_self)
    rw [List.cons_append, unmark_cons absent, ih fun mem => clean (.tail c mem), List.cons_append]

/-- What has no `%` stays as it is. -/
theorem unshield_append_of_no_percent {s : Text} (clean : '%' ∉ s) (t : Text) :
    unshield (s ++ t) = s ++ unshield t := by
  rw [unshield_eq_foldl, unshield_eq_foldl]
  refine List.foldl_rel (r := fun u v => u = s ++ v) rfl fun d known u v same => ?_
  rw [same, unmark_append_of_no_percent known clean]

/-- Unshielding can be taken apart at characters that stand in no mark. -/
theorem unshield_append_plain {s : Text} (nonempty : s ≠ [])
    (plain : ∀ c ∈ s, Mark.isMarkChar c = false) (u t : Text) :
    unshield (u ++ (s ++ t)) = unshield u ++ (s ++ unshield t) := by
  cases s with
  | nil => exact absurd rfl nonempty
  | cons c s =>
    have clean : '%' ∉ s := fun mem => by
      cases plain '%' (List.mem_cons_of_mem c mem)
    rw [List.cons_append, unshield_append_cons (plain c List.mem_cons_self),
      unshield_append_of_no_percent clean, List.cons_append]

end Quoted
end ScopedCss
