import ScopedCss.Proofs.Text.Outside

/-!
# How characters stand

A scan for strings knows two things in front of a character: which quote is open, and whether a backslash
protects the character (`Standing`).  It takes one character at a time, and so it can be said of every
text what stands in its strings: of texts with backslashes in them, and of strings that are never closed.

Shielding keeps how the characters stand, and puts marks where structural characters would stand for
themselves inside strings (`along_shield`).  From this follows what shielding is good for
(`shield_roundTrips`): nothing structural is left in strings, nothing outside them has changed, and where
the word in every mark does not occur nothing is lost.
-/
namespace ScopedCss.Quoted

/-- What a scan for strings knows in front of a character. -/
@[ext]
structure Standing where
  /-- The quote of the string that is open. -/
  quote : Option Char
  /-- Whether a backslash protects the character. -/
  guarded : Bool
  isQuote : ∀ q ∈ quote, Text.isQuote q
deriving DecidableEq

namespace Standing

/-- In front of a text no string is open and nothing is protected. -/
def start : Standing := ⟨none, false, isQuote_of_mem_none⟩

/-- In front of the next character. -/
def step (s : Standing) (c : Char) : Standing :=
  if s.guarded then { s with guarded := false }
  else if c = '\\' then { s with guarded := true }
  else ⟨openAfter s.quote [c], false, isQuote_of_mem_openAfter s.isQuote⟩

/-- Behind a text. -/
def after (s : Standing) (t : Text) : Standing := t.foldl step s

/-- The characters of a text, each with how it stands. -/
def along : Standing → Text → List (Standing × Char)
  | _, [] => []
  | s, c :: t => (s, c) :: along (s.step c) t

/-- Whether a character stands outside strings, or is a quote of one. -/
def isOutside (s : Standing) (c : Char) : Bool := s.quote.isNone || (s.step c).quote.isNone

/-- Whether a character is marked when the text is shielded. -/
def isMarked (s : Standing) (c : Char) : Bool := s.quote.isSome && !s.guarded && c ∈ Mark.chars

variable {s : Standing} {c : Char} {t : Text}

theorem after_cons (s : Standing) (c : Char) (t : Text) : s.after (c :: t) = (s.step c).after t := rfl

theorem after_append (s : Standing) (t u : Text) : s.after (t ++ u) = (s.after t).after u :=
  List.foldl_append

/-- A character stands behind the text in front of it. -/
theorem mem_along_iff {place : Standing × Char} :
    place ∈ s.along t ↔ ∃ u v, t = u ++ place.2 :: v ∧ place.1 = s.after u := by
  induction t generalizing s with
  | nil => simp [along]
  | cons c t ih =>
    rw [along, List.mem_cons, ih]
    constructor
    · rintro (rfl | ⟨u, v, rfl, standing⟩)
      · exact ⟨[], t, rfl, rfl⟩
      · exact ⟨c :: u, v, rfl, standing⟩
    · rintro ⟨u, v, split, standing⟩
      cases u with
      | nil =>
        obtain ⟨rfl, rfl⟩ := List.cons.inj split
        exact .inl (Prod.ext standing rfl)
      | cons d u =>
        obtain ⟨rfl, rfl⟩ := List.cons.inj split
        exact .inr ⟨u, v, rfl, standing⟩

/-- What is protected has a backslash before it, which is not protected itself. -/
theorem exists_of_guarded (guarded : (start.after t).guarded) :
    ∃ u, t = u ++ ['\\'] ∧ (start.after u).guarded = false := by
  rcases List.eq_nil_or_concat t with rfl | ⟨u, c, rfl⟩
  · cases guarded
  · rw [List.concat_eq_append, after_append] at guarded
    have last : ((start.after u).step c).guarded := guarded
    rw [step] at last
    split_ifs at last with before back
    exact ⟨u, by rw [back, List.concat_eq_append], by simpa using before⟩

/-! ### One more character -/

section
variable {quote : Option Char} (known : ∀ q ∈ quote, Text.isQuote q)

/-- A backslash and the character that it protects change nothing. -/
theorem step_step_guarded (c : Char) :
    ((⟨quote, false, known⟩ : Standing).step '\\').step c = ⟨quote, false, known⟩ := rfl

theorem step_of_ne_backslash (plain : c ≠ '\\') :
    (⟨quote, false, known⟩ : Standing).step c =
      ⟨openAfter quote [c], false, isQuote_of_mem_openAfter known⟩ := by
  rw [step, if_neg Bool.false_ne_true, if_neg plain]

theorem step_of_openAfter {next : Option Char} (plain : c ≠ '\\') (opens : openAfter quote [c] = next)
    (known' : ∀ q ∈ next, Text.isQuote q) :
    (⟨quote, false, known⟩ : Standing).step c = ⟨next, false, known'⟩ := by
  subst opens
  exact step_of_ne_backslash known plain

end

variable {quote : Char}

theorem openAfter_singleton (quote c : Char) :
    openAfter (some quote) [c] = if c = quote then none else some quote := by
  rw [openAfter, openAfter_nil]

theorem openAfter_none_singleton (c : Char) :
    openAfter none [c] = if Text.isQuote c then some c else none := by
  rw [openAfter, openAfter_nil]

/-- Inside a string a mark changes nothing. -/
theorem along_mark (known : ∀ q ∈ some quote, Text.isQuote q) {mark : Text}
    (written : ∀ d ∈ mark, Mark.isMarkChar d) (t : Text) :
    along ⟨some quote, false, known⟩ (mark ++ t) =
      mark.map (⟨some quote, false, known⟩, ·) ++ along ⟨some quote, false, known⟩ t := by
  induction mark with
  | nil => rfl
  | cons d mark ih =>
    have here := written d List.mem_cons_self
    have other := ne_of_isMarkChar here (isMarkChar_of_isQuote (known quote rfl))
    have stays := step_of_openAfter known (ne_of_isMarkChar here rfl)
      ((openAfter_singleton quote d).trans (if_neg other)) known
    rw [List.cons_append, along, stays, ih fun e mem => written e (.tail d mem)]
    rfl

end Standing

open Standing

/-! ### Shielding -/

/-- What is written for a character when the text is shielded. -/
def written (place : Standing × Char) : List (Standing × Char) :=
  if place.1.isMarked place.2 then (Mark.ofChar place.2).map (place.1, ·) else [place]

theorem written_of_not_isMarked {place : Standing × Char} (plain : place.1.isMarked place.2 = false) :
    written place = [place] := by
  rw [written, plain]
  rfl

theorem isMarked_of_not_mem {s : Standing} {c : Char} (plain : c ∉ Mark.chars) :
    s.isMarked c = false := by
  simp [isMarked, plain]

/-- A backslash that has nothing to protect stands at the end. -/
theorem eq_nil_of_unpaired {c : Char} {t : Text} (back : c = '\\')
    (clean : ∀ d u, c = '\\' → t = d :: u → False) : t = [] := by
  cases t with
  | nil => rfl
  | cons d u => exact (clean d u back rfl).elim

theorem along_shieldFrom {quote : Option Char} (known : ∀ q ∈ quote, Text.isQuote q) (t : Text) :
    along ⟨quote, false, known⟩ (shieldFrom quote t) =
      (along ⟨quote, false, known⟩ t).flatMap written := by
  have backslash : '\\' ∉ Mark.chars := by decide
  fun_induction shieldFrom quote t with
  | case1 => rfl
  | case2 quote c t ih =>
    have guarded : isMarked (step ⟨quote, false, known⟩ '\\') c = false := by
      cases quote <;> rfl
    rw [along, along, along, along, step_step_guarded, ih known, List.flatMap_cons, List.flatMap_cons,
      written_of_not_isMarked (isMarked_of_not_mem backslash), written_of_not_isMarked guarded]
    rfl
  | case3 quote t clean ih =>
    have isQuote := known quote rfl
    have plain : quote ∉ Mark.chars := by
      intro mem
      rcases Mark.mem_chars.1 mem with rfl | rfl | rfl | rfl | rfl <;> cases isQuote
    rw [along, along, step_of_openAfter known (ne_backslash_of_isQuote isQuote)
        ((openAfter_singleton quote quote).trans (if_pos rfl)) isQuote_of_mem_none,
      ih isQuote_of_mem_none, List.flatMap_cons, written_of_not_isMarked (isMarked_of_not_mem plain)]
    rfl
  | case4 quote c t clean other ih =>
    have stays : c ≠ '\\' → step ⟨some quote, false, known⟩ c = ⟨some quote, false, known⟩ :=
      fun plain => step_of_openAfter known plain
        ((openAfter_singleton quote c).trans (if_neg other)) known
    by_cases mem : c ∈ Mark.chars
    · have here : written (⟨some quote, false, known⟩, c) =
          (Mark.ofChar c).map (⟨some quote, false, known⟩, ·) := if_pos (by simp [isMarked, mem])
      have plain : c ≠ '\\' := by
        rintro rfl
        exact backslash mem
      rw [along_mark known fun d => Mark.isMarkChar_of_mem mem, ih known, along, stays plain,
        List.flatMap_cons, here]
    · have here : written (⟨some quote, false, known⟩, c) = [(⟨some quote, false, known⟩, c)] :=
        written_of_not_isMarked (isMarked_of_not_mem mem)
      rw [Mark.ofChar_of_not_mem mem, List.singleton_append, along, along, List.flatMap_cons, here]
      by_cases back : c = '\\'
      · obtain rfl := eq_nil_of_unpaired back clean
        rfl
      · rw [stays back, ih known]
        rfl
  | case5 c t clean ih =>
    have outside : isMarked ⟨none, false, known⟩ c = false := rfl
    rw [along, along, List.flatMap_cons, written_of_not_isMarked outside]
    by_cases back : c = '\\'
    · obtain rfl := eq_nil_of_unpaired back clean
      cases (if Text.isQuote c then some c else none) <;> rfl
    · rw [step_of_openAfter known back (openAfter_none_singleton c) (isQuote_of_mem c),
        ih (isQuote_of_mem c)]
      rfl

/-- **Shielding keeps how characters stand**, and writes marks for those that stand in strings and are
structural, unless they are protected. -/
theorem along_shield (t : Text) : start.along (shield t) = (start.along t).flatMap written :=
  along_shieldFrom isQuote_of_mem_none t

/-- Inside strings nothing structural stands for itself, unless a backslash right before it protects it,
and is not protected itself. -/
def Shielded (t : Text) : Prop :=
  ∀ u c v, t = u ++ c :: v → c ∈ Mark.chars → (start.after u).quote.isSome →
    ∃ u', u = u' ++ ['\\'] ∧ (start.after u').guarded = false

/-- The characters of a text outside its strings, and the quotes of these. -/
def exterior (t : Text) : Text :=
  ((start.along t).filter fun place => place.1.isOutside place.2).map Prod.snd

theorem shielded_shield (t : Text) : Shielded (shield t) := by
  intro u c v split known inside
  have place : (start.after u, c) ∈ start.along (shield t) := mem_along_iff.2 ⟨u, v, split, rfl⟩
  rw [along_shield, List.mem_flatMap] at place
  obtain ⟨⟨s, d⟩, -, here⟩ := place
  rw [written] at here
  split at here
  next marked =>
    -- A mark has no structural character in it.
    obtain ⟨e, mem, same⟩ := List.mem_map.1 here
    obtain ⟨-, rfl⟩ := Prod.mk.inj same
    have mark : d ∈ Mark.chars := by
      simp only [isMarked, Bool.and_eq_true, decide_eq_true_eq] at marked
      exact marked.2
    have foreign := Mark.isMarkChar_of_mem mark mem
    rcases Mark.mem_chars.1 known with rfl | rfl | rfl | rfl | rfl <;> cases foreign
  next unmarked =>
    obtain ⟨rfl, rfl⟩ := Prod.mk.inj (List.mem_singleton.1 here)
    refine exists_of_guarded ?_
    simpa [isMarked, inside, known] using unmarked

theorem isOutside_of_isMarked {s : Standing} {c d : Char} (marked : s.isMarked c)
    (mem : d = c ∨ d ∈ Mark.ofChar c) : s.isOutside d = false := by
  obtain ⟨quote, guarded, known⟩ := s
  simp only [isMarked, Bool.and_eq_true, Bool.not_eq_true', decide_eq_true_eq] at marked
  obtain ⟨⟨inside, rfl⟩, mark⟩ := marked
  obtain ⟨quote, rfl⟩ := Option.isSome_iff_exists.1 inside
  have plain : Text.isQuote d = false ∧ d ≠ '\\' := by
    rcases mem with rfl | mem
    · rcases Mark.mem_chars.1 mark with rfl | rfl | rfl | rfl | rfl <;> decide
    · have char := Mark.isMarkChar_of_mem mark mem
      exact ⟨isQuote_of_isMarkChar char, ne_of_isMarkChar char rfl⟩
  have other : d ≠ quote := by
    rintro rfl
    rw [known d rfl] at plain
    cases plain.1
  rw [isOutside, step_of_openAfter known plain.2
    ((openAfter_singleton quote d).trans (if_neg other)) known]
  rfl

theorem exterior_shield (t : Text) : exterior (shield t) = exterior t := by
  rw [exterior, exterior, along_shield, List.filter_flatMap]
  refine congrArg (List.map Prod.snd) ?_
  induction start.along t with
  | nil => rfl
  | cons place places ih =>
    rw [List.flatMap_cons, ih, List.filter_cons]
    by_cases marked : place.1.isMarked place.2
    · have none : (written place).filter (fun place => place.1.isOutside place.2) = [] := by
        rw [written, if_pos marked, List.filter_eq_nil_iff]
        intro other mem
        obtain ⟨d, char, rfl⟩ := List.mem_map.1 mem
        simp [isOutside_of_isMarked marked (.inr char)]
      rw [none, isOutside_of_isMarked marked (.inl rfl)]
      rfl
    · rw [written_of_not_isMarked (by simpa using marked), List.filter_singleton]
      cases place.1.isOutside place.2 <;> rfl

/-- **Shielding round-trips.**  It is done once; it leaves nothing structural in strings, unless a
backslash protects it; it changes nothing outside strings; and unshielding undoes it in every text
without the word in every mark. -/
theorem shield_roundTrips (t : Text) :
    shield (shield t) = shield t ∧ Shielded (shield t) ∧ exterior (shield t) = exterior t ∧
      (WordFree t → unshield (shield t) = t) :=
  ⟨shield_shield t, shielded_shield t, exterior_shield t, unshield_shield⟩

/-- A protected quote opens no string, a protected brace in a string stays, `%COMMA` is no mark, and the
last string is never closed: it ends in a backslash that protects nothing. -/
theorem shield_roundTrips_unclosed :
    let t := "a\\\"\x7bb:\"%COMMA,\\\x7d;'%\";c:'\"\x7b\\".toList
    let shielded := ("a\\\"\x7bb:\"%COMMA%COMMA_IN_PLACEHOLDER%\\\x7d%SEMI_IN_PLACEHOLDER%'%\";" ++
      "c:'\"%OPEN_BRACE_IN_PLACEHOLDER%\\").toList
    WordFree t ∧ shield t = shielded ∧ shield shielded = shielded ∧ Shielded shielded ∧
      exterior shielded = "a\\\"\x7bb:\"\";c:'".toList ∧ unshield shielded = t := by
  intro t shielded
  have free : WordFree t := by unfold WordFree; decide +kernel
  have same : shield t = shielded := by decide +kernel
  obtain ⟨once, bare, outside, back⟩ := shield_roundTrips t
  rw [same] at once bare outside back
  exact ⟨free, same, once, bare, outside.trans (by decide +kernel), back free⟩

end ScopedCss.Quoted
