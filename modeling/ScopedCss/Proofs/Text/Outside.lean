import ScopedCss.Proofs.Text.WordFree

/-!
# What stands outside strings

The structure of a text lies outside its strings.  `outsideFrom` leaves the strings out, but for their
quotes, and neither shielding nor unshielding changes what is left: the marks that they put down or
take up stand inside strings, as long as none of their words is written outside
(`outsideFrom_shieldFrom`, `outsideFrom_unshield`).

All of this is about texts without backslashes.
-/
namespace ScopedCss.Quoted

variable {state : Option Char} {s t : Text}

/-- The characters of a text outside its strings, and the quotes of these.  The text starts outside
strings, or inside the string that a quote opened. -/
def outsideFrom : Option Char → Text → Text
  | _, [] => []
  | some quote, c :: t =>
    if c = quote then c :: outsideFrom none t else outsideFrom (some quote) t
  | none, c :: t => c :: outsideFrom (if Text.isQuote c then some c else none) t

/-- The characters of a text outside its strings, and the quotes of these. -/
def outside (t : Text) : Text := outsideFrom none t

@[simp] theorem outsideFrom_nil : outsideFrom state [] = [] := by
  cases state <;> rfl

@[simp] theorem openAfter_nil : openAfter state [] = state := by
  cases state <;> rfl

theorem outsideFrom_append (state : Option Char) (s t : Text) :
    outsideFrom state (s ++ t) = outsideFrom state s ++ outsideFrom (openAfter state s) t := by
  induction s generalizing state with
  | nil => cases state <;> rfl
  | cons c s ih =>
    cases state with
    | none => exact congrArg (c :: ·) (ih _)
    | some quote =>
      rw [List.cons_append, outsideFrom, outsideFrom, openAfter]
      split
      · exact congrArg (c :: ·) (ih none)
      · exact ih _

/-- What stands outside after a string starts with the quote that closes it. -/
theorem eq_of_mem_head?_outsideFrom {quote c : Char}
    (mem : c ∈ (outsideFrom (some quote) t).head?) : c = quote := by
  induction t with
  | nil => cases mem
  | cons d t ih =>
    rw [outsideFrom] at mem
    split at mem
    next same =>
      cases mem
      exact same
    next => exact ih mem

/-- Text without quotes stands in a string as a whole, or outside. -/
theorem outsideFrom_of_no_quote (isQuote : ∀ q ∈ state, Text.isQuote q)
    (plain : ∀ c ∈ t, Text.isQuote c = false) :
    openAfter state t = state ∧ outsideFrom state t = if state.isNone then t else [] := by
  induction t with
  | nil => cases state <;> exact ⟨rfl, rfl⟩
  | cons c t ih =>
    have here := plain c List.mem_cons_self
    obtain ⟨opens, left⟩ := ih fun d mem => plain d (.tail c mem)
    cases state with
    | none =>
      rw [openAfter, outsideFrom, here]
      exact ⟨opens, congrArg (c :: ·) left⟩
    | some quote =>
      have other : c ≠ quote := by
        rintro rfl
        rw [isQuote c rfl] at here
        cases here
      rw [openAfter, outsideFrom, if_neg other, if_neg other]
      exact ⟨opens, left⟩

/-- The quote of the string that is open behind a text is a quote. -/
theorem isQuote_of_mem_openAfter (isQuote : ∀ q ∈ state, Text.isQuote q) :
    ∀ q ∈ openAfter state t, Text.isQuote q := by
  induction t generalizing state with
  | nil => rwa [openAfter_nil]
  | cons c t ih =>
    cases state with
    | none => exact ih (isQuote_of_mem c)
    | some quote =>
      rw [openAfter]
      refine ih fun q mem => ?_
      split at mem
      · cases mem
      · exact isQuote q mem

/-- What stands outside the strings of a part that starts outside strings does so in the text. -/
theorem outside_part (starts : openAfter none s = none) (t u : Text) :
    outside t <:+: outside (s ++ (t ++ u)) := by
  have split : outside (s ++ (t ++ u)) = outsideFrom none s ++ (outside t ++
      outsideFrom (openAfter none t) u) := by
    rw [outside, outsideFrom_append, starts, outsideFrom_append]
    rfl
  rw [split]
  exact ⟨_, _, List.append_assoc _ _ _⟩

/-- Leaving strings out does not write the word in every mark, since their quotes stay. -/
theorem wordFree_outside (free : WordFree t) : WordFree (outside t) := by
  have foreign {quote : Char} (isQuote : Text.isQuote quote) : quote ∉ Mark.word := by
    simp only [Text.isQuote, Bool.or_eq_true, beq_iff_eq] at isQuote
    rcases isQuote with rfl | rfl <;> decide
  -- Outside strings the word may begin in the text before, inside them it cannot.
  have known (t : Text) : (∀ u, WordFree (u ++ t) → WordFree (u ++ outsideFrom none t)) ∧
      ∀ quote, Text.isQuote quote → WordFree t → WordFree (outsideFrom (some quote) t) := by
    induction t with
    | nil => exact ⟨fun _ free => free, fun _ _ free => free⟩
    | cons c t ih =>
      refine ⟨fun u free => ?_, fun quote isQuote free => ?_⟩
      · rw [outsideFrom]
        split
        next isQuote =>
          rw [wordFree_append_cons (foreign isQuote)] at free ⊢
          exact ⟨free.1, ih.2 c isQuote free.2⟩
        next => simpa using ih.1 (u ++ [c]) (by simpa using free)
      · have later : WordFree t := free.part (List.suffix_cons c t).isInfix
        rw [outsideFrom]
        split
        next same =>
          have quoted : c ∉ Mark.word := same ▸ foreign isQuote
          exact (wordFree_append_cons (s := []) quoted).2 ⟨wordFree_nil, ih.1 [] later⟩
        next => exact ih.2 quote isQuote later
  exact (known t).1 [] free

/-! ### Marks stand inside strings -/

/-- Marks are not written with quotes. -/
theorem isQuote_of_isMarkChar {c : Char} (mark : Mark.isMarkChar c) : Text.isQuote c = false := by
  by_contra isQuote
  rw [Bool.not_eq_false] at isQuote
  exact absurd rfl (ne_of_isMarkChar mark (isMarkChar_of_isQuote isQuote))

/-- A mark stands in a string as a whole. -/
theorem outsideFrom_mark {quote : Char} (isQuote : Text.isQuote quote) {mark : Text}
    (written : ∀ d ∈ mark, Mark.isMarkChar d) (t : Text) :
    openAfter (some quote) (mark ++ t) = openAfter (some quote) t ∧
      outsideFrom (some quote) (mark ++ t) = outsideFrom (some quote) t := by
  have known : ∀ q ∈ some quote, Text.isQuote q := by
    rintro q ⟨⟩
    exact isQuote
  obtain ⟨opens, left⟩ :=
    outsideFrom_of_no_quote known fun c mem => isQuote_of_isMarkChar (written c mem)
  rw [openAfter_append, outsideFrom_append, opens, left]
  exact ⟨rfl, rfl⟩

/-- Shielding changes nothing outside strings. -/
theorem outsideFrom_shieldFrom (isQuote : ∀ q ∈ state, Text.isQuote q) (clean : '\\' ∉ t) :
    openAfter state (shieldFrom state t) = openAfter state t ∧
      outsideFrom state (shieldFrom state t) = outsideFrom state t := by
  induction t generalizing state with
  | nil => cases state <;> exact ⟨rfl, rfl⟩
  | cons c t ih =>
    have here : c ≠ '\\' := fun same => clean (same ▸ List.mem_cons_self)
    have later : '\\' ∉ t := fun mem => clean (.tail c mem)
    cases state with
    | none =>
      obtain ⟨opens, left⟩ := ih (isQuote_of_mem c) later
      rw [shieldFrom_outside here, openAfter, openAfter, outsideFrom, outsideFrom, opens, left]
      exact ⟨rfl, rfl⟩
    | some quote =>
      by_cases same : c = quote
      · subst same
        obtain ⟨opens, left⟩ := ih isQuote_of_mem_none later
        rw [shieldFrom_quote (isQuote c rfl), openAfter, openAfter, outsideFrom, outsideFrom,
          if_pos rfl, if_pos rfl, if_pos rfl, opens, left]
        exact ⟨rfl, rfl⟩
      · obtain ⟨opens, left⟩ := ih isQuote later
        rw [shieldFrom_inside here same, openAfter, outsideFrom, if_neg same, if_neg same, ← opens, ← left]
        by_cases known : c ∈ Mark.chars
        · exact outsideFrom_mark (isQuote quote rfl) (fun d => Mark.isMarkChar_of_mem known) _
        · rw [Mark.ofChar_of_not_mem known, List.singleton_append, openAfter, outsideFrom, if_neg same,
            if_neg same]
          exact ⟨rfl, rfl⟩

/-- Outside strings a text without the word in every mark does not start with one. -/
theorem no_ofChar_at_front {d : Char} (known : d ∈ Mark.chars) (free : WordFree (outside t)) :
    ¬ Mark.ofChar d <+: t := by
  rintro ⟨rest, rfl⟩
  obtain ⟨inside, shape, -, word⟩ := Mark.ofChar_shape known
  obtain ⟨-, left⟩ := outsideFrom_of_no_quote isQuote_of_mem_none fun e mem =>
    isQuote_of_isMarkChar (Mark.isMarkChar_of_mem known mem)
  rw [outside, outsideFrom_append, left] at free
  refine free (word.isInfix.trans ?_)
  exact ⟨['%'], '%' :: outsideFrom (openAfter none (Mark.ofChar d)) rest, by simp [shape]⟩

theorem wordFree_outsideFrom_tail {c : Char} (free : WordFree (outsideFrom state (c :: t))) :
    WordFree (outsideFrom (openAfter state [c]) t) := by
  have split := outsideFrom_append state [c] t
  rw [List.singleton_append] at split
  rw [split] at free
  exact free.part (List.suffix_append _ _).isInfix

/-- Taking up the marks of one kind changes nothing outside strings. -/
theorem outsideFrom_unmark (isQuote : ∀ q ∈ state, Text.isQuote q) {c : Char} (known : c ∈ Mark.chars)
    (free : WordFree (outsideFrom state t)) :
    openAfter state (unmark t c) = openAfter state t ∧
      outsideFrom state (unmark t c) = outsideFrom state t := by
  induction t using unmark_induction c generalizing state with
  | nil => simp
  | mark t ih =>
    rw [unmark_ofChar_append]
    cases state with
    | none => exact absurd (List.prefix_append _ _) (no_ofChar_at_front known free)
    | some quote =>
      obtain ⟨opens, left⟩ := outsideFrom_mark (isQuote quote rfl)
        (fun e => Mark.isMarkChar_of_mem known) t
      have other : c ≠ quote := by
        rintro rfl
        have foreign := isQuote c rfl
        rcases Mark.mem_chars.1 known with rfl | rfl | rfl | rfl | rfl <;> cases foreign
      rw [left] at free
      rw [openAfter, outsideFrom, if_neg other, if_neg other, opens, left]
      exact ih isQuote free
  | plain d t absent ih =>
    obtain ⟨opens, left⟩ := ih (isQuote_of_mem_openAfter isQuote) (wordFree_outsideFrom_tail free)
    rw [unmark_cons absent, ← List.singleton_append, ← List.singleton_append (l := t),
      openAfter_append, openAfter_append, outsideFrom_append, outsideFrom_append, opens, left]
    exact ⟨rfl, rfl⟩

/-- Unshielding changes nothing outside strings, if no mark is written there. -/
theorem outsideFrom_unshield (isQuote : ∀ q ∈ state, Text.isQuote q)
    (free : WordFree (outsideFrom state t)) :
    openAfter state (unshield t) = openAfter state t ∧
      outsideFrom state (unshield t) = outsideFrom state t := by
  rw [unshield_eq_foldl]
  refine List.foldlRecOn (motive := fun u => openAfter state u = openAfter state t ∧
    outsideFrom state u = outsideFrom state t) Mark.chars unmark ⟨rfl, rfl⟩
    fun u ⟨opens, left⟩ c known => ?_
  obtain ⟨opens', left'⟩ := outsideFrom_unmark isQuote known (left.symm ▸ free)
  exact ⟨opens'.trans opens, left'.trans left⟩

/-- Unshielding brings no backslash with it. -/
theorem no_backslash_unshield (clean : '\\' ∉ t) : '\\' ∉ unshield t := by
  rw [unshield_eq_foldl]
  refine List.foldlRecOn (motive := ('\\' ∉ ·)) Mark.chars unmark clean fun u clean c known => ?_
  induction u using unmark_induction c with
  | nil => simp
  | mark u ih =>
    rw [unmark_ofChar_append, List.mem_cons, not_or]
    refine ⟨?_, ih fun mem => clean (List.mem_append_right _ mem)⟩
    rintro rfl
    exact absurd known (by decide)
  | plain d u absent ih =>
    rw [unmark_cons absent, List.mem_cons, not_or]
    exact ⟨fun same => clean (same ▸ List.mem_cons_self), ih fun mem => clean (.tail d mem)⟩

/-! ### Parts of shielded texts -/

theorem length_le_shieldFrom (state : Option Char) (t : Text) :
    t.length ≤ (shieldFrom state t).length := by
  fun_induction shieldFrom state t with
  | case1 => exact Nat.le_refl _
  | case2 state c t ih => simpa using ih
  | case3 quote t clean ih => simpa using ih
  | case4 quote c t clean other ih =>
    have some := List.length_pos_iff.2 (Mark.ofChar_ne_nil c)
    rw [List.length_cons, List.length_append]
    omega
  | case5 c t clean ih => simpa using ih

/-- The parts of a shielded text are shielded. -/
theorem shielded_append (isQuote : ∀ q ∈ state, Text.isQuote q) (clean : '\\' ∉ s)
    (shielded : shieldFrom state (s ++ t) = s ++ t) :
    shieldFrom state s = s ∧ shieldFrom (openAfter state s) t = t := by
  rw [shieldFrom_append isQuote clean] at shielded
  have first := length_le_shieldFrom state s
  have second := length_le_shieldFrom (openAfter state s) t
  have whole := congrArg List.length shielded
  rw [List.length_append, List.length_append] at whole
  exact List.append_inj shielded (by omega)

/-- In a shielded text structural characters stand outside strings. -/
theorem openAfter_of_shielded (isQuote : ∀ q ∈ state, Text.isQuote q) (clean : '\\' ∉ s) {c : Char}
    (known : c ∈ Mark.chars) (shielded : shieldFrom state (s ++ c :: t) = s ++ c :: t) :
    openAfter state s = none := by
  obtain ⟨-, rest⟩ := shielded_append isQuote clean shielded
  have quotes := isQuote_of_mem_openAfter (t := s) isQuote
  cases opens : openAfter state s with
  | none => rfl
  | some quote =>
    rw [opens] at rest quotes
    have other : c ≠ quote := by
      rintro rfl
      have foreign := quotes c rfl
      rcases Mark.mem_chars.1 known with rfl | rfl | rfl | rfl | rfl <;> cases foreign
    have back : c ≠ '\\' := by
      rintro rfl
      exact absurd known (by decide)
    obtain ⟨inside, shape, -⟩ := Mark.ofChar_shape known
    rw [shieldFrom_inside back other, shape] at rest
    obtain rfl : '%' = c := (List.cons.inj rest).1
    exact absurd known (by decide)

end ScopedCss.Quoted
