import ScopedCss.Proofs.Selector.OpenPlaces
import ScopedCss.Proofs.Text.Utf8

/-!
# Looking for a name byte by byte

The search for a name can go through the bytes of a text instead of its segments.  It goes from one
offset to another, past a backslash by two bytes and past the mark of a comment by its length, and it
remembers the quote of the string it is in and the number of open brackets (`Search`).

Behind a backslash the search may come to a byte inside a character.  What it does there does no harm:
such a byte is no ASCII character and starts no name, so that the search only goes on to the end of the
character (`find_inside`).  Hence it goes through the text segment by segment after all, and remembers
what a `Place.Reading` remembers (`find_segment`).
-/
namespace ScopedCss

namespace Place

/-- How far a search through bytes has come. -/
structure Search where
  /-- The quote of the open string. -/
  quote : Option UInt8
  /-- The number of open brackets. -/
  depth : Nat
  offset : Nat

namespace Search

/-! ### The search -/

variable (bytes needle : List UInt8)

/-- Whether what is looked for may start at an offset, as far as the byte before it goes. -/
def startsAt (offset : Nat) : Bool :=
  !needle.head?.any Text.isNameByte || offset == 0 ||
    !bytes[offset - 1]?.any fun byte =>
      byte == '.'.toUInt8 || byte == '#'.toUInt8 || byte == ':'.toUInt8 || Text.isNameByte byte

/-- Whether what is looked for stands at an offset, as a name of its own. -/
def standsAt (offset : Nat) : Bool :=
  needle.isPrefixOf (bytes.drop offset) &&
    !bytes[offset + needle.length]?.any Text.isNameByte && startsAt bytes needle offset

/-- Where the search goes on from a byte.  There is nothing if it ends at the byte. -/
def next (search : Search) (byte : UInt8) : Option Search :=
  if byte = '\\'.toUInt8 then some { search with offset := search.offset + 2 }
  else if search.quote = none ∧ (Text.utf8 Mark.comment).isPrefixOf (bytes.drop search.offset) then
    some { search with offset := search.offset + Mark.comment.bytes }
  else
    match search.quote with
    | some quote => some ⟨if byte = quote then none else some quote, search.depth, search.offset + 1⟩
    | none =>
      if byte = '"'.toUInt8 ∨ byte = '\''.toUInt8 then some ⟨some byte, search.depth, search.offset + 1⟩
      else if byte = '['.toUInt8 then some ⟨none, search.depth + 1, search.offset + 1⟩
      else if byte = ']'.toUInt8 then some ⟨none, search.depth - 1, search.offset + 1⟩
      else if search.depth = 0 ∧ standsAt bytes needle search.offset then none
      else some ⟨none, search.depth, search.offset + 1⟩

/-- The search never stands still. -/
theorem offset_lt_of_next {search later : Search} {byte : UInt8}
    (goesOn : next bytes needle search byte = some later) : search.offset < later.offset := by
  unfold next at goesOn
  split at goesOn
  · cases goesOn
    exact Nat.lt_add_of_pos_right (by decide)
  split at goesOn
  · cases goesOn
    exact Nat.lt_add_of_pos_right (by decide)
  split at goesOn
  · cases goesOn
    exact Nat.lt_succ_self _
  · split_ifs at goesOn <;> cases goesOn <;> exact Nat.lt_succ_self _

/-- With every byte there are fewer left. -/
theorem left_lt_of_next {search later : Search} {byte : UInt8} (inside : bytes[search.offset]? = some byte)
    (goesOn : next bytes needle search byte = some later) :
    bytes.length - later.offset < bytes.length - search.offset := by
  have further := offset_lt_of_next bytes needle goesOn
  obtain ⟨fits, -⟩ := List.getElem?_eq_some_iff.1 inside
  omega

/-- The offset at which what is looked for is found. -/
def find (search : Search) : Option Nat :=
  match _ : bytes[search.offset]? with
  | none => none
  | some byte =>
    match _ : next bytes needle search byte with
    | none => some search.offset
    | some later => find later
termination_by bytes.length - search.offset
decreasing_by exact left_lt_of_next bytes needle ‹_› ‹_›

variable {bytes needle} {search later : Search} {byte : UInt8}

theorem find_of_le (beyond : bytes.length ≤ search.offset) : find bytes needle search = none := by
  have outside : bytes[search.offset]? = none := List.getElem?_eq_none beyond
  rw [find]
  split
  next => rfl
  next inside =>
    rw [outside] at inside
    cases inside

theorem find_of_next (inside : bytes[search.offset]? = some byte)
    (goesOn : next bytes needle search byte = some later) :
    find bytes needle search = find bytes needle later := by
  rw [find]
  split
  next outside =>
    rw [inside] at outside
    cases outside
  next here =>
    rw [inside] at here
    cases here
    split
    next ends =>
      rw [goesOn] at ends
      cases ends
    next there =>
      rw [goesOn] at there
      cases there
      rfl

theorem find_of_end (inside : bytes[search.offset]? = some byte)
    (ends : next bytes needle search byte = none) : find bytes needle search = some search.offset := by
  rw [find]
  split
  next outside =>
    rw [inside] at outside
    cases outside
  next here =>
    rw [inside] at here
    cases here
    split
    next => rfl
    next there =>
      rw [ends] at there
      cases there

/-! ### Inside a character -/

/-- A byte inside a character is no ASCII character and starts no character. -/
theorem inside_char {c : Char} {k : Nat} (behind : 0 < k) (inside : k < (String.utf8EncodeChar c).length) :
    0x80 ≤ (String.utf8EncodeChar c)[k].toNat ∧
      ∀ d t, ¬ (Text.utf8 (d :: t)).head? = some (String.utf8EncodeChar c)[k] := by
  constructor
  · cases ascii : Text.isAscii c with
    | false => exact Text.le_of_mem_utf8EncodeChar ascii (List.getElem_mem inside)
    | true =>
      rw [Text.utf8EncodeChar_of_isAscii ascii, List.length_singleton] at inside
      omega
  · intro d t same
    have starts : (String.utf8EncodeChar d)[0]? = some (String.utf8EncodeChar c)[k] := by
      rw [← same, Text.utf8_cons, ← List.head?_eq_getElem?, List.head?_append_of_ne_nil]
      exact Text.utf8EncodeChar_ne_nil d
    obtain ⟨pos, first⟩ := List.getElem?_eq_some_iff.1 starts
    have own : (String.utf8EncodeChar d)[0].IsUTF8FirstByte :=
      UInt8.isUTF8FirstByte_getElem_utf8EncodeChar.2 rfl
    rw [first, UInt8.isUTF8FirstByte_getElem_utf8EncodeChar] at own
    exact Nat.ne_of_gt behind own

/-- A byte that is no ASCII character and does not start what is looked for is passed over. -/
theorem next_of_foreign (foreign : 0x80 ≤ byte.toNat) (quotes : ∀ quote ∈ search.quote, quote.toNat < 0x80)
    (here : (bytes.drop search.offset).head? = some byte) (other : needle.head? ≠ some byte)
    (nonempty : needle ≠ []) :
    next bytes needle search byte = some { search with offset := search.offset + 1 } := by
  have differs {c : Char} (ascii : Text.isAscii c) : byte ≠ c.toUInt8 := by
    rintro rfl
    rw [Text.toNat_toUInt8 ascii] at foreign
    exact absurd (of_decide_eq_true ascii) (Nat.not_lt.2 foreign)
  have apart {front : List UInt8} (filled : front ≠ []) (other : front.head? ≠ some byte) :
      front.isPrefixOf (bytes.drop search.offset) = false := by
    rw [Bool.eq_false_iff, ne_eq, List.isPrefixOf_iff_prefix]
    rintro ⟨after, whole⟩
    rw [← whole, List.head?_append_of_ne_nil _ filled] at here
    exact other here
  have mark : (Text.utf8 Mark.comment).isPrefixOf (bytes.drop search.offset) = false :=
    apart (by decide) fun same => differs (c := '%') rfl (Option.some.inj same).symm
  obtain ⟨quote, depth, offset⟩ := search
  rw [next, if_neg (differs rfl), mark, if_neg (by simp)]
  cases quote with
  | some quote =>
    have other : byte ≠ quote := by
      rintro rfl
      exact absurd (quotes byte rfl) (Nat.not_lt.2 foreign)
    dsimp only
    rw [if_neg other]
  | none =>
    dsimp only
    rw [if_neg (not_or.2 ⟨differs rfl, differs rfl⟩), if_neg (differs rfl), if_neg (differs rfl), standsAt,
      apart nonempty other]
    simp

/-- From an offset inside a character, or at its end, the search goes on behind the character. -/
theorem find_inside {done rest name : Text} {c : Char} {quote : Option UInt8} {depth k : Nat}
    (nonempty : name ≠ []) (quotes : ∀ q ∈ quote, q.toNat < 0x80) (behind : 0 < k)
    (inside : k ≤ c.utf8Size) :
    find (Text.utf8 (done ++ c :: rest)) (Text.utf8 name) ⟨quote, depth, done.bytes + k⟩ =
      find (Text.utf8 (done ++ c :: rest)) (Text.utf8 name) ⟨quote, depth, done.bytes + c.utf8Size⟩ := by
  induction left : c.utf8Size - k generalizing k with
  | zero => rw [show k = c.utf8Size by omega]
  | succ n ih =>
    have short : k < c.utf8Size := by omega
    have within : k < (String.utf8EncodeChar c).length := by rwa [String.length_utf8EncodeChar]
    have here := Text.getElem?_utf8 done rest within
    obtain ⟨foreign, other⟩ := inside_char behind within
    obtain ⟨d, t, rfl⟩ := List.exists_cons_of_ne_nil nonempty
    rw [← ih (Nat.succ_pos k) short (by omega)]
    refine find_of_next here (next_of_foreign foreign quotes ?_ (other d t) ?_)
    · rw [List.head?_drop]
      exact here
    · rw [Text.utf8_cons]
      exact List.append_ne_nil_of_left_ne_nil (Text.utf8EncodeChar_ne_nil d) _

/-! ### Between characters -/

/-- A search that remembers what a reading does, at an offset. -/
def ofReading (reading : Reading) (offset : Nat) : Search :=
  ⟨reading.quote.map Char.toUInt8, reading.depth, offset⟩

/-- A name stands at the front of a text, as a name of its own, and a reading comes to the text
outside strings and brackets and at a character that the search does not pass over. -/
structure StandsInFront (name : Text) (reading : Reading) (t : Text) : Prop where
  outside : reading.quote = none
  top : reading.depth = 0
  named : ∃ after, t = name ++ after ∧ ¬ after.head?.any Text.isNameChar
  starts : startsName name reading.previous
  seen : ∃ c segments, hidden.scan t = .plain c :: segments ∧ c ≠ '\\' ∧ Text.isQuote c = false ∧
    c ≠ '[' ∧ c ≠ ']'

variable {reading : Reading} {done rest name t : Text} {c : Char}

theorem startsAt_iff (name done t : Text) :
    startsAt (Text.utf8 (done ++ t)) (Text.utf8 name) done.bytes ↔ startsName name done.getLast? := by
  rw [startsAt, Text.any_head?_utf8, startsName]
  rcases List.eq_nil_or_concat done with rfl | ⟨front, c, rfl⟩
  · simp
  · have filled : 0 < c.utf8Size := c.utf8Size_pos
    have inside : c.utf8Size - 1 < (String.utf8EncodeChar c).length := by
      rw [String.length_utf8EncodeChar]
      omega
    have last := Text.getElem?_utf8 front t inside
    have size : Text.bytes (front.concat c) = Text.bytes front + c.utf8Size := by simp
    have mem := List.getElem_mem inside
    rw [size, List.concat_eq_append, List.append_assoc, List.singleton_append,
      Nat.add_sub_assoc filled, last, List.getLast?_concat, Option.any_some, Option.any_some,
      Text.isNameByte_of_mem mem]
    have told {d : Char} (ascii : Text.isAscii d) :
        ((String.utf8EncodeChar c)[c.utf8Size - 1] == d.toUInt8) = (c == d) := by
      rw [Bool.eq_iff_iff, beq_iff_eq, beq_iff_eq]
      exact Text.byte_eq_iff ascii mem
    rw [told (d := '.') rfl, told (d := '#') rfl, told (d := ':') rfl]
    have ahead : (Text.bytes front + c.utf8Size == 0) = false := by
      rw [beq_eq_false_iff_ne]
      omega
    rw [ahead, Bool.or_false]

theorem standsAt_iff (name done t : Text) :
    standsAt (Text.utf8 (done ++ t)) (Text.utf8 name) done.bytes ↔
      (∃ after, t = name ++ after ∧ ¬ after.head?.any Text.isNameChar) ∧
        startsName name done.getLast? := by
  rw [standsAt, Bool.and_eq_true, Bool.and_eq_true, startsAt_iff, Text.drop_utf8,
    List.isPrefixOf_iff_prefix, Text.utf8_prefix_iff]
  refine and_congr_left' ?_
  have behind (after : Text) :
      (Text.utf8 (done ++ (name ++ after)))[done.bytes + (Text.utf8 name).length]? =
        (Text.utf8 after).head? := by
    rw [← List.append_assoc, Text.length_utf8, ← Text.bytes_append, ← List.head?_drop, Text.drop_utf8]
  constructor
  · rintro ⟨⟨after, rfl⟩, ends⟩
    rw [behind, Text.any_head?_utf8] at ends
    exact ⟨after, rfl, by simpa using ends⟩
  · rintro ⟨after, rfl, ends⟩
    rw [behind, Text.any_head?_utf8]
    exact ⟨List.prefix_append _ _, by simpa using ends⟩

/-- The search comes to a character by the first of its bytes, which tells the character as far as ASCII
goes. -/
theorem exists_byte (done : Text) (c : Char) (t : Text) :
    ∃ byte ∈ String.utf8EncodeChar c, (Text.utf8 (done ++ c :: t))[done.bytes]? = some byte :=
  have filled : 0 < (String.utf8EncodeChar c).length := by
    rw [String.length_utf8EncodeChar]
    exact c.utf8Size_pos
  ⟨_, List.getElem_mem filled, Text.getElem?_utf8 done t filled⟩

theorem isAscii_of_isQuote (isQuote : Text.isQuote c) : Text.isAscii c := by
  simp only [Text.isQuote, Bool.or_eq_true, beq_iff_eq] at isQuote
  rcases isQuote with rfl | rfl <;> rfl

theorem small_of_isQuote {quote : Option Char} (quotes : ∀ q ∈ quote, Text.isQuote q) :
    ∀ byte ∈ quote.map Char.toUInt8, byte.toNat < 0x80 := by
  intro byte opened
  obtain ⟨q, open_, rfl⟩ := Option.map_eq_some_iff.1 opened
  have ascii := isAscii_of_isQuote (quotes q open_)
  rw [Text.toNat_toUInt8 ascii]
  exact of_decide_eq_true ascii

theorem no_quote : ∀ q ∈ (none : Option Char), Text.isQuote q := fun q mem =>
  absurd mem (Option.not_mem_none q)

theorem isQuote_pass (quotes : ∀ q ∈ reading.quote, Text.isQuote q) (segment : Segment Text) :
    ∀ q ∈ (reading.pass segment).quote, Text.isQuote q := by
  obtain ⟨quote, depth, previous⟩ := reading
  cases segment with
  | hit h => exact quotes
  | plain c =>
    cases quote with
    | some quote =>
      intro q mem
      by_cases closes : c = quote
      · simp [Reading.pass, closes] at mem
      · simp only [Reading.pass, closes, ↓reduceIte] at mem
        exact quotes q mem
    | none =>
      intro q mem
      by_cases opens : Text.isQuote c
      · simp only [Reading.pass, opens, ↓reduceIte, Option.mem_some_iff] at mem
        exact mem ▸ opens
      · simp only [Reading.pass, opens, Bool.false_eq_true, ↓reduceIte] at mem
        split_ifs at mem <;> cases mem

theorem next_plain (quotes : ∀ q ∈ reading.quote, Text.isQuote q) (solid : c ≠ '\\')
    (unmarked : reading.quote = none → ¬ Mark.comment <+: c :: t)
    (last : reading.previous = done.getLast?) (closed : ¬ StandsInFront name reading (c :: t))
    {byte : UInt8} (mem : byte ∈ String.utf8EncodeChar c) :
    next (Text.utf8 (done ++ c :: t)) (Text.utf8 name) (ofReading reading done.bytes) byte =
      some (ofReading (reading.pass (.plain c)) (done.bytes + 1)) := by
  -- A byte of ASCII tells its character.
  have told {d : Char} (ascii : Text.isAscii d) : byte = d.toUInt8 ↔ c = d := Text.byte_eq_iff ascii mem
  have marked : (Text.utf8 Mark.comment).isPrefixOf ((Text.utf8 (done ++ c :: t)).drop done.bytes) ↔
      Mark.comment <+: c :: t := by
    rw [Text.drop_utf8, List.isPrefixOf_iff_prefix, Text.utf8_prefix_iff]
  obtain ⟨quote, depth, previous⟩ := reading
  cases quote with
  | some quote =>
    have ascii := isAscii_of_isQuote (quotes quote rfl)
    rw [next, if_neg (mt (told rfl).1 solid), if_neg (by simp [ofReading])]
    by_cases closes : c = quote
    · simp [ofReading, Reading.pass, closes, (told ascii).2 closes]
    · simp [ofReading, Reading.pass, closes, mt (told ascii).1 closes]
  | none =>
    have plain : hidden.scan (c :: t) = .plain c :: hidden.scan t := by
      refine Recogniser.scan_of_not_read ?_
      show readHidden (c :: t) = none
      rw [readHidden_of_ne_backslash solid, if_neg]
      rw [List.isPrefixOf_iff_prefix]
      exact unmarked rfl
    show next _ _ ⟨none, depth, done.bytes⟩ byte = _
    rw [next, if_neg (mt (told rfl).1 solid), if_neg fun both => unmarked rfl (marked.1 both.2)]
    dsimp only
    simp only [told (d := '"') rfl, told (d := '\'') rfl,
      told (d := '[') rfl, told (d := ']') rfl, Reading.pass]
    by_cases opens : Text.isQuote c
    · have same : byte = c.toUInt8 := (told (isAscii_of_isQuote opens)).2 rfl
      rw [if_pos (by simpa [Text.isQuote] using opens), if_pos opens, same]
      rfl
    · rw [if_neg (by simpa [Text.isQuote] using opens), if_neg opens]
      by_cases bracket : c = '['
      · rw [if_pos bracket, if_pos bracket]
        rfl
      · rw [if_neg bracket, if_neg bracket]
        by_cases closes : c = ']'
        · rw [if_pos closes, if_pos closes]
          rfl
        · rw [if_neg closes, if_neg closes, if_neg]
          · rfl
          · rintro ⟨top, stands⟩
            obtain ⟨named, starts⟩ := (standsAt_iff name done (c :: t)).1 stands
            refine closed ⟨rfl, top, named, ?_, c, _, plain, solid, by simpa using opens, bracket, closes⟩
            rw [last]
            exact starts

/-- The search passes over a character at which no name stands. -/
theorem find_plain (quotes : ∀ q ∈ reading.quote, Text.isQuote q) (nonempty : name ≠ [])
    (solid : c ≠ '\\') (unmarked : reading.quote = none → ¬ Mark.comment <+: c :: t)
    (last : reading.previous = done.getLast?) (closed : ¬ StandsInFront name reading (c :: t)) :
    find (Text.utf8 (done ++ c :: t)) (Text.utf8 name) (ofReading reading done.bytes) =
      find (Text.utf8 (done ++ c :: t)) (Text.utf8 name)
        (ofReading (reading.pass (.plain c)) (done ++ [c]).bytes) := by
  obtain ⟨byte, mem, here⟩ := exists_byte done c t
  rw [find_of_next here (next_plain quotes solid unmarked last closed mem), Text.bytes_append]
  exact find_inside nonempty (small_of_isQuote (isQuote_pass quotes _)) Nat.one_pos c.utf8Size_pos

/-- Inside a string nothing but a backslash and the quote that closes it counts. -/
theorem find_string {quote : Char} (isQuote : Text.isQuote quote) (nonempty : name ≠ []) {run : Text}
    (inside : ∀ c ∈ run, c ≠ '\\' ∧ c ≠ quote) (depth : Nat) (done rest : Text) :
    find (Text.utf8 (done ++ (run ++ rest))) (Text.utf8 name) ⟨some quote.toUInt8, depth, done.bytes⟩ =
      find (Text.utf8 (done ++ (run ++ rest))) (Text.utf8 name)
        ⟨some quote.toUInt8, depth, (done ++ run).bytes⟩ := by
  induction run generalizing done with
  | nil => rw [List.append_nil]
  | cons c run ih =>
    obtain ⟨solid, other⟩ := inside c List.mem_cons_self
    have quotes : ∀ q ∈ some quote, Text.isQuote q := fun q mem => Option.mem_some_iff.1 mem ▸ isQuote
    have still : Reading.pass ⟨some quote, depth, done.getLast?⟩ (.plain c) = ⟨some quote, depth, some c⟩ := by
      simp [Reading.pass, other]
    have first : find (Text.utf8 (done ++ c :: (run ++ rest))) (Text.utf8 name)
        (ofReading ⟨some quote, depth, done.getLast?⟩ done.bytes) = _ :=
      find_plain quotes nonempty solid (fun outside => absurd outside (Option.some_ne_none quote)) rfl
        fun stands => Option.some_ne_none quote stands.outside
    have later := ih (fun d mem => inside d (List.mem_cons_of_mem c mem)) (done ++ [c])
    rw [still] at first
    rw [List.append_assoc, List.append_assoc] at later
    exact first.trans later

/-- A backslash takes the search on by two bytes. -/
theorem find_of_backslash (reading : Reading) (done t : Text) :
    find (Text.utf8 (done ++ '\\' :: t)) needle (ofReading reading done.bytes) =
      find (Text.utf8 (done ++ '\\' :: t)) needle (ofReading reading (done.bytes + 1 + 1)) := by
  obtain ⟨byte, mem, here⟩ := exists_byte done '\\' t
  have backslash : byte = '\\'.toUInt8 := (Text.byte_eq_iff (d := '\\') rfl mem).2 rfl
  refine find_of_next here ?_
  rw [next, if_pos backslash]
  rfl

/-- Behind a backslash the search goes on behind the next character, wherever in it it comes to. -/
theorem find_escape (quotes : ∀ q ∈ reading.quote, Text.isQuote q) (nonempty : name ≠ []) (done : Text)
    (d : Char) (u : Text) :
    find (Text.utf8 (done ++ '\\' :: d :: u)) (Text.utf8 name) (ofReading reading done.bytes) =
      find (Text.utf8 (done ++ '\\' :: d :: u)) (Text.utf8 name)
        (ofReading reading (done ++ ['\\', d]).bytes) := by
  have inside : find (Text.utf8 (done ++ ['\\'] ++ d :: u)) (Text.utf8 name)
      ⟨reading.quote.map Char.toUInt8, reading.depth, Text.bytes (done ++ ['\\']) + 1⟩ = _ :=
    find_inside nonempty (small_of_isQuote quotes) Nat.one_pos d.utf8Size_pos
  have size : Text.bytes (done ++ ['\\']) = done.bytes + 1 := Text.bytes_append done ['\\']
  have behind : Text.bytes (done ++ ['\\', d]) = done.bytes + 1 + d.utf8Size := by
    rw [Text.bytes_append, Nat.add_assoc]
    rfl
  rw [List.append_assoc, List.singleton_append, size] at inside
  rw [find_of_backslash, behind]
  exact inside

/-- A backslash at the end of the text ends the search. -/
theorem find_backslash (reading : Reading) (done name : Text) :
    find (Text.utf8 (done ++ ['\\'])) (Text.utf8 name) (ofReading reading done.bytes) = none := by
  rw [find_of_backslash, find_of_le]
  rw [Text.length_utf8, Text.bytes_append]
  exact Nat.le_succ _

/-- The mark of a comment is passed over, in a string and outside. -/
theorem find_mark (quotes : ∀ q ∈ reading.quote, Text.isQuote q) (nonempty : name ≠ [])
    (done rest : Text) :
    find (Text.utf8 (done ++ (Mark.comment ++ rest))) (Text.utf8 name) (ofReading reading done.bytes) =
      find (Text.utf8 (done ++ (Mark.comment ++ rest))) (Text.utf8 name)
        (ofReading reading (done ++ Mark.comment).bytes) := by
  obtain ⟨quote, depth, previous⟩ := reading
  cases quote with
  | some quote =>
    have isQuote := quotes quote rfl
    refine find_string isQuote nonempty (fun c mem => ⟨?_, ?_⟩) depth done rest
    · rintro rfl
      revert mem
      decide
    · rintro rfl
      have unquoted : Mark.comment.all fun c => !Text.isQuote c := by decide
      have none := List.all_eq_true.1 unquoted c mem
      rw [isQuote] at none
      cases none
  | none =>
    obtain ⟨byte, mem, here⟩ := exists_byte done '%' ("COMMENT%".toList ++ rest)
    have solid : byte ≠ '\\'.toUInt8 := mt (Text.byte_eq_iff (d := '\\') rfl mem).1 (by decide)
    have marked : (Text.utf8 Mark.comment).isPrefixOf
        ((Text.utf8 (done ++ (Mark.comment ++ rest))).drop done.bytes) := by
      rw [Text.drop_utf8, List.isPrefixOf_iff_prefix, Text.utf8_prefix_iff]
      exact List.prefix_append _ _
    refine find_of_next here ?_
    rw [next, if_neg solid, Text.bytes_append]
    exact if_pos ⟨rfl, marked⟩

/-- **The search goes from segment to segment**, unless the name stands where it is. -/
theorem find_segment (quotes : ∀ q ∈ reading.quote, Text.isQuote q) (nonempty : name ≠ [])
    (last : reading.previous = done.getLast?) {segment : Segment Text} {segments : List (Segment Text)}
    (scanned : hidden.scan t = segment :: segments) (closed : ¬ StandsInFront name reading t) :
    find (Text.utf8 (done ++ t)) (Text.utf8 name) (ofReading reading done.bytes) =
      find (Text.utf8 (done ++ t)) (Text.utf8 name)
        (ofReading (reading.pass segment) (done ++ hidden.spellSegment segment).bytes) := by
  cases t with
  | nil => cases scanned
  | cons c t =>
    rcases Recogniser.scan_cons (r := hidden) c t with ⟨h, rest, read, split, -, scan⟩ | ⟨read, scan⟩
    · obtain ⟨rfl, -⟩ := List.cons.inj (scan.symm.trans scanned)
      rw [split]
      change readHidden (c :: t) = some h at read
      unfold readHidden at read
      split at read
      next d u same =>
        cases read
        obtain ⟨rfl, rfl⟩ := List.cons.inj same
        obtain rfl : u = rest := (List.cons.inj (List.cons.inj split).2).2
        exact find_escape quotes nonempty done d u
      next =>
        split at read
        next =>
          cases read
          exact find_mark quotes nonempty done rest
        next => cases read
    · obtain ⟨rfl, -⟩ := List.cons.inj (scan.symm.trans scanned)
      change readHidden (c :: t) = none at read
      by_cases backslash : c = '\\'
      · subst backslash
        cases t with
        | cons d u => cases read
        | nil =>
          rw [find_backslash, find_of_le]
          rw [Text.length_utf8]
          exact Nat.le_refl _
      · refine find_plain quotes nonempty backslash (fun _ mark => ?_) last closed
        rw [readHidden_of_ne_backslash backslash, if_pos (List.isPrefixOf_iff_prefix.2 mark)] at read
        cases read

/-! ### What is found -/

/-- Where the name stands the search ends. -/
theorem find_of_standsInFront (last : reading.previous = done.getLast?)
    (stands : StandsInFront name reading t) :
    find (Text.utf8 (done ++ t)) (Text.utf8 name) (ofReading reading done.bytes) = some done.bytes := by
  obtain ⟨outside, top, named, starts, c, segments, scanned, solid, quote, opens, closes⟩ := stands
  obtain ⟨quote, depth, previous⟩ := reading
  obtain rfl : quote = none := outside
  obtain rfl : depth = 0 := top
  have whole := hidden.spellAll_scan t
  rw [scanned, Recogniser.spellAll_cons] at whole
  subst whole
  set u := hidden.spellAll segments
  change hidden.scan (c :: u) = _ at scanned
  have unmarked : ¬ Mark.comment <+: c :: u := by
    intro mark
    have read : hidden.read (c :: u) = some Mark.comment := by
      show readHidden (c :: u) = _
      rw [readHidden_of_ne_backslash solid, if_pos (List.isPrefixOf_iff_prefix.2 mark)]
    rw [Recogniser.scan_of_read read] at scanned
    cases scanned
  obtain ⟨byte, mem, here⟩ := exists_byte done c u
  have told {d : Char} (ascii : Text.isAscii d) : byte = d.toUInt8 ↔ c = d := Text.byte_eq_iff ascii mem
  have noQuote : ¬ (byte = '"'.toUInt8 ∨ byte = '\''.toUInt8) := by
    rw [told rfl, told rfl]
    simpa [Text.isQuote] using quote
  refine find_of_end here ?_
  show next _ _ ⟨none, 0, done.bytes⟩ byte = none
  rw [next, if_neg (mt (told rfl).1 solid), if_neg]
  · dsimp only
    have stands := (standsAt_iff name done (c :: u)).2 ⟨named, last ▸ starts⟩
    rw [if_neg noQuote, if_neg (mt (told rfl).1 opens), if_neg (mt (told rfl).1 closes)]
    exact if_pos ⟨rfl, stands⟩
  · rintro ⟨-, mark⟩
    rw [List.isPrefixOf_iff_prefix, Text.drop_utf8, Text.utf8_prefix_iff] at mark
    exact unmarked mark

theorem previous_pass (reading : Reading) {t : Text} {segment : Segment Text}
    (mem : segment ∈ hidden.scan t) (done : Text) :
    (reading.pass segment).previous = (done ++ hidden.spellSegment segment).getLast? := by
  cases segment with
  | hit h =>
    obtain ⟨u, -, read⟩ := Recogniser.exists_read_of_mem_scan mem
    have filled : h ≠ [] := hidden.spell_ne_nil read
    exact (List.getLast?_append_of_ne_nil done filled).symm
  | plain c =>
    refine Eq.trans ?_ (List.getLast?_append_of_ne_nil done (List.cons_ne_nil c [])).symm
    unfold Reading.pass
    dsimp only
    split
    · rfl
    · split_ifs <;> rfl

theorem scan_behind {segment : Segment Text} {segments : List (Segment Text)}
    (scanned : hidden.scan t = segment :: segments) : hidden.scan (hidden.spellAll segments) = segments :=
  Recogniser.scan_spellAll (scanned.trans List.singleton_append.symm)

/-- **Where the search ends the name stands**: the offset is that of a place between two segments. -/
theorem exists_of_find (quotes : ∀ q ∈ reading.quote, Text.isQuote q) (nonempty : name ≠ [])
    (last : reading.previous = done.getLast?) {i : Nat}
    (found : find (Text.utf8 (done ++ t)) (Text.utf8 name) (ofReading reading done.bytes) = some i) :
    ∃ before after, hidden.scan t = before ++ after ∧ (done ++ hidden.spellAll before).bytes = i ∧
      StandsInFront name (before.foldl Reading.pass reading) (hidden.spellAll after) := by
  generalize scanned : hidden.scan t = segments
  induction segments generalizing done t reading with
  | nil =>
    have whole := hidden.spellAll_scan t
    rw [scanned] at whole
    subst whole
    rw [find_of_le] at found
    · cases found
    · rw [Text.length_utf8, Recogniser.spellAll_nil, List.append_nil]
      exact Nat.le_refl _
  | cons segment segments ih =>
    by_cases stands : StandsInFront name reading t
    · rw [find_of_standsInFront last stands] at found
      refine ⟨[], segment :: segments, rfl, ?_, ?_⟩
      · rw [Recogniser.spellAll_nil, List.append_nil]
        exact Option.some.inj found
      · rw [← scanned, Recogniser.spellAll_scan]
        exact stands
    · have whole := hidden.spellAll_scan t
      rw [scanned, Recogniser.spellAll_cons] at whole
      have mem : segment ∈ hidden.scan t := scanned ▸ List.mem_cons_self
      rw [find_segment quotes nonempty last scanned stands, ← whole, ← List.append_assoc] at found
      obtain ⟨before, after, cut, size, stands⟩ := ih (isQuote_pass quotes segment)
        (previous_pass reading mem done) found (scan_behind scanned)
      refine ⟨segment :: before, after, by rw [cut, List.cons_append], ?_, stands⟩
      rw [Recogniser.spellAll_cons, ← List.append_assoc]
      exact size

/-- Read from one offset on, another lies outside strings, brackets, marks of comments and escapes: it
stands in front of a character that is a segment of its own, and not a backslash. -/
def LiesOpen (text : Text) (start i : Nat) : Prop :=
  ∃ done t before c after, text = done ++ t ∧ done.bytes = start ∧
    hidden.scan t = before ++ .plain c :: after ∧ (done ++ hidden.spellAll before).bytes = i ∧ c ≠ '\\' ∧
    (before.foldl Reading.pass ⟨none, 0, done.getLast?⟩).quote = none ∧
    (before.foldl Reading.pass ⟨none, 0, done.getLast?⟩).depth = 0

/-- What is found is a place of the name, and the place lies open. -/
theorem exists_place_of_find (nonempty : name ≠ []) {i : Nat}
    (found : find (Text.utf8 (done ++ t)) (Text.utf8 name) ⟨none, 0, done.bytes⟩ = some i) :
    ∃ before after, t = before ++ (name ++ after) ∧ (done ++ before).bytes = i ∧
      ¬ after.head?.any Text.isNameChar ∧ LiesOpen (done ++ t) done.bytes i := by
  have found : find (Text.utf8 (done ++ t)) (Text.utf8 name)
      (ofReading ⟨none, 0, done.getLast?⟩ done.bytes) = some i := found
  obtain ⟨before, after, scanned, size, outside, top, ⟨u, split, ends⟩, -, c, segments, seen, solid, -⟩ :=
    exists_of_find no_quote nonempty rfl found
  have whole := hidden.spellAll_scan t
  rw [scanned, Recogniser.spellAll_append, split] at whole
  rw [Recogniser.scan_spellAll scanned] at seen
  exact ⟨_, u, whole.symm, size, ends, done, t, before, c, segments, rfl, rfl, by rw [scanned, seen], size,
    solid, outside, top⟩

/-! ### The search over segments -/

/-- A plain name stands in front exactly if the reading admits it there. -/
theorem standsInFront_iff (plain : IsPlain name) :
    StandsInFront name reading t ↔
      ∃ after, hidden.scan t = name.map Segment.plain ++ after ∧ reading.Admits name after := by
  constructor
  · rintro ⟨outside, top, ⟨after, rfl, ends⟩, starts, -⟩
    refine ⟨hidden.scan after, plain.scan_append after, outside, top, ?_, starts⟩
    rw [endsName_iff (List.Subset.refl _), Recogniser.spellAll_scan]
    exact ends
  · rintro ⟨after, scanned, outside, top, ends, starts⟩
    obtain ⟨c, rest, rfl, quote, opens, closes⟩ := plain.starts
    have whole := hidden.spellAll_scan t
    rw [scanned, Recogniser.spellAll_append, Recogniser.spellAll_map_plain] at whole
    rw [endsName_iff (t := t) (scanned ▸ List.subset_append_right _ _)] at ends
    exact ⟨outside, top, ⟨_, whole.symm, ends⟩, starts, c, _, scanned,
      (plain.solid c List.mem_cons_self).1, quote, opens, closes⟩

/-- Both searches for a plain name answer the same. -/
theorem find_eq_findName (plain : IsPlain name) (quotes : ∀ q ∈ reading.quote, Text.isQuote q)
    (last : reading.previous = done.getLast?) :
    find (Text.utf8 (done ++ t)) (Text.utf8 name) (ofReading reading done.bytes) =
      (findName name reading.quote reading.depth reading.previous (hidden.scan t)).map
        fun cut => (done ++ hidden.spellAll cut.1).bytes := by
  have nonempty : name ≠ [] := by
    obtain ⟨c, rest, rfl, -⟩ := plain.starts
    exact List.cons_ne_nil c rest
  generalize scanned : hidden.scan t = segments
  induction segments generalizing done t reading with
  | nil =>
    have whole := hidden.spellAll_scan t
    rw [scanned] at whole
    subst whole
    rw [find_of_le]
    · rfl
    · rw [Text.length_utf8, Recogniser.spellAll_nil, List.append_nil]
      exact Nat.le_refl _
  | cons segment segments ih =>
    by_cases stands : StandsInFront name reading t
    · obtain ⟨after, cut, admits⟩ := (standsInFront_iff plain).1 stands
      rw [find_of_standsInFront last stands, ← scanned, cut, findName_of_admits plain.starts admits,
        Option.map_some, Recogniser.spellAll_nil, List.append_nil]
    · have closed : ∀ after, segment :: segments = name.map Segment.plain ++ after →
          ¬ reading.Admits name after := fun after cut admits =>
        stands ((standsInFront_iff plain).2 ⟨after, scanned.trans cut, admits⟩)
      have whole := hidden.spellAll_scan t
      rw [scanned, Recogniser.spellAll_cons] at whole
      have mem : segment ∈ hidden.scan t := scanned ▸ List.mem_cons_self
      have later := ih (isQuote_pass quotes segment) (previous_pass reading mem done)
        (scan_behind scanned)
      rw [List.append_assoc, whole] at later
      rw [find_segment quotes nonempty last scanned stands, later, findName_of_not_admits segment closed,
        findName.step, Option.map_map]
      refine congrArg (Option.map · _) (funext fun cut => ?_)
      rw [Function.comp_apply, Recogniser.spellAll_cons, List.append_assoc]

/-- **The search through bytes** for a plain name answers the place that the search through segments
answers. -/
theorem find_eq_ofName? (plain : IsPlain name) (done t : Text) :
    find (Text.utf8 (done ++ t)) (Text.utf8 name) ⟨none, 0, done.bytes⟩ =
      (ofName? name done.getLast? t).map fun place => (done ++ place.before).bytes := by
  have same : find (Text.utf8 (done ++ t)) (Text.utf8 name) (ofReading ⟨none, 0, done.getLast?⟩ done.bytes) =
      _ := find_eq_findName plain no_quote rfl
  rw [ofName?, Option.map_map]
  exact same

end Search
end Place
end ScopedCss
