import ScopedCss.Proofs.Animation.Rows
import ScopedCss.Proofs.Text.Utf8

/-!
# Animations as bytes

A value can be renamed with offsets into its bytes alone: the commas that separate layers, the quotes, the
parentheses and the name characters are all told by single bytes, and the pieces that are compared and
kept are slices of the value between such offsets.  Every offset stands between two characters, whatever
the value is, so that no slice is missing and the result is that of the scan over characters
(`renameByBytes_eq`).  For values that can be read the result is given by the grammar (`rename_readable`).
-/
namespace ScopedCss.Animation
variable {keyframes : NameTable}

/-! ### Layers between offsets -/

/-- The pieces of a value between its separating commas, as slices, from an offset on, where the piece that
is open starts at another offset.  The text from the offset on is given as well. -/
def cutByBytes (value : Text) : (start offset : Nat) → Int → Text → Option (List Text)
  | start, _, _, [] => do
    let last ← value.slice? start value.bytes
    return [last]
  | start, offset, level, c :: t =>
    if c = ',' ∧ level = 0 then do
      let piece ← value.slice? start offset
      let pieces ← cutByBytes value (offset + 1) (offset + 1) level t
      return piece :: pieces
    else cutByBytes value start (offset + c.utf8Size) (CommaList.level level c) t

/-- A layer with the new name in the place of what stands between two offsets, if that is recorded and
stands outside parentheses. -/
def replaceBetween (keyframes : NameTable) (layer : Text) (depth start stop : Nat) :
    Option (Option Text) :=
  if depth = 0 then do
    let name ← layer.slice? start stop
    match keyframes.find? name with
    | some new =>
      let before ← layer.slice? 0 start
      let after ← layer.slice? stop layer.bytes
      return some (before ++ (new ++ after))
    | none => return none
  else return none

/-- A layer with the first recorded name outside parentheses from an offset on renamed, where a given
number of parentheses is open at the offset.  The layer is scanned byte by byte. -/
def scanBytes (keyframes : NameTable) (layer : Text) (depth offset : Nat) : Option (Option Text) :=
  match inside : layer.utf8.drop offset with
  | [] => some none
  | byte :: bytes =>
    if byte = '('.toUInt8 then scanBytes keyframes layer (depth + 1) (offset + 1)
    else if byte = ')'.toUInt8 then scanBytes keyframes layer (depth - 1) (offset + 1)
    else if byte = '"'.toUInt8 ∨ byte = '\''.toUInt8 then do
      let tail ← layer.slice? (offset + 1) layer.bytes
      let stop := offset + 1 + Text.bytes (tail.takeWhile (· != Char.ofNat byte.toNat))
      match ← replaceBetween keyframes layer depth (offset + 1) stop with
      | some renamed => return some renamed
      | none => scanBytes keyframes layer depth (stop + 1)
    else if Text.isNameByte byte then do
      let stop := offset + 1 + (bytes.takeWhile Text.isNameByte).length
      match ← replaceBetween keyframes layer depth offset stop with
      | some renamed => return some renamed
      | none => scanBytes keyframes layer depth stop
    else scanBytes keyframes layer depth (offset + 1)
termination_by layer.utf8.length - offset
decreasing_by
  all_goals
    have fewer : offset < layer.utf8.length := by
      by_contra beyond
      rw [List.drop_eq_nil_of_le (Nat.le_of_not_lt beyond)] at inside
      cases inside
    omega

/-- An animation with the names in its layers renamed, if there are any.  Nothing at all if a slice was
missing. -/
def renameByBytes (keyframes : NameTable) (value : Text) : Option (Option Text) := do
  let layers ← cutByBytes value 0 0 0 value
  let renamed ← layers.mapM fun layer => scanBytes keyframes layer 0 0
  return if renamed.any Option.isSome then
    some (CommaList.join (List.zipWith (fun layer new? => new?.getD layer) layers renamed))
  else none

theorem cutByBytes_eq (before piece rest : Text) (level : Int) :
    cutByBytes (before ++ (piece ++ rest)) before.bytes (before.bytes + piece.bytes) level rest =
      some ((piece ++ (CommaList.splitFrom level rest).1) :: (CommaList.splitFrom level rest).2) := by
  induction rest generalizing before piece level with
  | nil =>
    have last := Text.slice?_end before piece
    rw [cutByBytes, List.append_nil, last]
    simp [CommaList.splitFrom]
  | cons c t ih =>
    rw [cutByBytes, CommaList.splitFrom_cons]
    split
    next comma =>
      -- The piece ends here, and the next one is empty so far.
      obtain ⟨rfl, rfl⟩ := comma
      have later := ih (before ++ (piece ++ [','])) [] 0
      have size : Text.bytes (before ++ (piece ++ [','])) = before.bytes + piece.bytes + 1 := by
        simp only [Text.bytes_append, Text.bytes_cons, Text.bytes_nil]
        rw [Nat.add_assoc]
        rfl
      rw [size, Text.bytes_nil, Nat.add_zero, List.nil_append, List.append_assoc, List.append_assoc,
        List.singleton_append] at later
      rw [Text.slice?_append before piece (',' :: t), later]
      simp [show CommaList.level 0 ',' = 0 from rfl]
    next =>
      have later := ih before (piece ++ [c]) (CommaList.level level c)
      have size : Text.bytes (piece ++ [c]) = piece.bytes + c.utf8Size := by simp
      rw [size, List.append_assoc, List.singleton_append, ← Nat.add_assoc] at later
      rw [later]
      simp

/-! ### Names between offsets -/

theorem replaceBetween_eq (front name rest : Text) (depth : Nat) :
    replaceBetween keyframes (front ++ (name ++ rest)) depth front.bytes (front.bytes + name.bytes) =
      some ((if depth = 0 then keyframes.find? name else none).map fun new =>
        front ++ (new ++ rest)) := by
  rw [replaceBetween]
  split
  next outside =>
    have before : (front ++ (name ++ rest)).slice? 0 front.bytes = some front :=
      Text.slice?_front front _
    have after : (front ++ (name ++ rest)).slice? (front.bytes + name.bytes)
        (front ++ (name ++ rest)).bytes = some rest := by
      have whole := Text.slice?_end (front ++ name) rest
      rwa [Text.bytes_append, List.append_assoc] at whole
    rw [Text.slice?_append, before, after]
    cases known : keyframes.find? name <;> simp [known]
  next => rfl

/-! ### Layers by bytes -/

/-- A scan that comes to a byte does what the byte tells it to. -/
theorem scanBytes_cons {layer : Text} {depth offset : Nat} {byte : UInt8} {bytes : List UInt8}
    (here : layer.utf8.drop offset = byte :: bytes) :
    scanBytes keyframes layer depth offset =
      if byte = '('.toUInt8 then scanBytes keyframes layer (depth + 1) (offset + 1)
      else if byte = ')'.toUInt8 then scanBytes keyframes layer (depth - 1) (offset + 1)
      else if byte = '"'.toUInt8 ∨ byte = '\''.toUInt8 then do
        let tail ← layer.slice? (offset + 1) layer.bytes
        let stop := offset + 1 + Text.bytes (tail.takeWhile (· != Char.ofNat byte.toNat))
        match ← replaceBetween keyframes layer depth (offset + 1) stop with
        | some renamed => return some renamed
        | none => scanBytes keyframes layer depth (stop + 1)
      else if Text.isNameByte byte then do
        let stop := offset + 1 + (bytes.takeWhile Text.isNameByte).length
        match ← replaceBetween keyframes layer depth offset stop with
        | some renamed => return some renamed
        | none => scanBytes keyframes layer depth stop
      else scanBytes keyframes layer depth (offset + 1) := by
  rw [scanBytes]
  split
  next done =>
    rw [here] at done
    cases done
  next found =>
    rw [here] at found
    cases found
    rfl

/-- A scan that comes to a character does what the character tells it to: a byte of ASCII tells its
character, which has no other bytes. -/
theorem scanBytes_char (before : Text) (c : Char) (t : Text) (depth : Nat) :
    scanBytes keyframes (before ++ c :: t) depth before.bytes =
      if c = '(' then scanBytes keyframes (before ++ c :: t) (depth + 1) (before.bytes + 1)
      else if c = ')' then scanBytes keyframes (before ++ c :: t) (depth - 1) (before.bytes + 1)
      else if Text.isQuote c then do
        let tail ← (before ++ c :: t).slice? (before.bytes + 1) (before ++ c :: t).bytes
        let stop := before.bytes + 1 + Text.bytes (tail.takeWhile (· != c))
        match ← replaceBetween keyframes (before ++ c :: t) depth (before.bytes + 1) stop with
        | some renamed => return some renamed
        | none => scanBytes keyframes (before ++ c :: t) depth (stop + 1)
      else if Text.isNameChar c then do
        let stop := before.bytes + Text.bytes (c :: t.takeWhile Text.isNameChar)
        match ← replaceBetween keyframes (before ++ c :: t) depth before.bytes stop with
        | some renamed => return some renamed
        | none => scanBytes keyframes (before ++ c :: t) depth stop
      else scanBytes keyframes (before ++ c :: t) depth (before.bytes + 1) := by
  obtain ⟨byte, bytes, whole⟩ := List.exists_cons_of_ne_nil (Text.utf8EncodeChar_ne_nil c)
  have mem : byte ∈ String.utf8EncodeChar c := whole ▸ List.mem_cons_self
  have here : (before ++ c :: t).utf8.drop before.bytes = byte :: (bytes ++ Text.utf8 t) := by
    rw [Text.drop_utf8, Text.utf8_cons, whole, List.cons_append]
  have told {d : Char} (ascii : Text.isAscii d) : byte = d.toUInt8 ↔ c = d :=
    Text.byte_eq_iff ascii mem
  have quotes : Text.isQuote c ↔ c = '"' ∨ c = '\'' := by simp [Text.isQuote]
  rw [scanBytes_cons here]
  simp only [told (d := '(') rfl, told (d := ')') rfl, told (d := '"') rfl, told (d := '\'') rfl,
    Text.isNameByte_of_mem mem, quotes]
  split
  next => rfl
  split
  next => rfl
  split
  next isQuote =>
    have same : Char.ofNat byte.toNat = c := by
      rcases isQuote with rfl | rfl
      · rw [(told (d := '"') rfl).2 rfl]
        rfl
      · rw [(told (d := '\'') rfl).2 rfl]
        rfl
    rw [same]
  split
  next letter =>
    have run : before.bytes + 1 + ((bytes ++ Text.utf8 t).takeWhile Text.isNameByte).length =
        before.bytes + Text.bytes (c :: t.takeWhile Text.isNameChar) := by
      have all := congrArg List.length (Text.takeWhile_utf8 (c :: t))
      rw [Text.utf8_cons, whole, List.cons_append,
        List.takeWhile_cons_of_pos ((Text.isNameByte_of_mem mem).trans letter),
        List.takeWhile_cons_of_pos letter, Text.length_utf8, List.length_cons] at all
      omega
    rw [run]
  next => rfl

/-- Beyond the end of a layer there is nothing to rename. -/
theorem scanBytes_of_le {layer : Text} {offset : Nat} (beyond : layer.bytes ≤ offset) (depth : Nat) :
    scanBytes keyframes layer depth offset = some none := by
  have done : layer.utf8.drop offset = [] := List.drop_eq_nil_of_le (by simpa using beyond)
  rw [scanBytes]
  split
  next => rfl
  next found =>
    rw [done] at found
    cases found

/-- What becomes of a layer at a name: if the scan goes on behind the name as it should, then so it does in
front of it. -/
theorem replaceBetween_bind (word : AnimationWord) (lead close : Text)
    (spelled : ∀ new, (word.withName new).spell = lead ++ (new ++ close))
    (own : word.spell = lead ++ (word.name ++ close)) (before rest : Text) (depth : Nat) {next : Nat}
    (later : scanBytes keyframes (before ++ (word.spell ++ rest)) depth next =
      some ((renameFrom keyframes depth (AnimationWord.recogniser.scan rest)).map
        (before ++ word.spell ++ ·))) :
    ((replaceBetween keyframes (before ++ (word.spell ++ rest)) depth (before ++ lead).bytes
        ((before ++ lead).bytes + word.name.bytes)).bind fun
      | some renamed => some (some renamed)
      | none => scanBytes keyframes (before ++ (word.spell ++ rest)) depth next) =
      some ((renameFrom keyframes depth (.hit word :: AnimationWord.recogniser.scan rest)).map
        (before ++ ·)) := by
  have layer : before ++ (word.spell ++ rest) = before ++ lead ++ (word.name ++ (close ++ rest)) := by
    rw [own]
    simp only [List.append_assoc]
  have kept : AnimationWord.recogniser.spellAll (AnimationWord.recogniser.scan rest) = rest :=
    Recogniser.spellAll_scan _ rest
  have replaced := @replaceBetween_eq keyframes (before ++ lead) word.name (close ++ rest) depth
  rw [← layer] at replaced
  rw [replaced, Row.renameFrom_hit, kept]
  cases (if depth = 0 then keyframes.find? word.name else none) with
  | none =>
    refine later.trans (congrArg some ?_)
    rw [Option.map_none, Option.none_or, Option.map_map]
    exact congrArg (Option.map · _) (funext fun t => List.append_assoc _ _ _)
  | some new =>
    show some (some (before ++ lead ++ (new ++ (close ++ rest)))) =
      some (some (before ++ ((word.withName new).spell ++ rest)))
    rw [spelled]
    simp only [List.append_assoc]

/-- What becomes of a layer is what stands before an offset, followed by what becomes of the rest. -/
def Renames (keyframes : NameTable) (before rest : Text) (depth : Nat) : Prop :=
  scanBytes keyframes (before ++ rest) depth before.bytes =
    some ((renameFrom keyframes depth (AnimationWord.recogniser.scan rest)).map (before ++ ·))

/-- A character that belongs to no name is passed over. -/
theorem renames_plain (depth : Nat) {before t : Text} {c : Char} {deeper : Nat} (ascii : Text.isAscii c)
    (scanned : renameFrom keyframes depth (AnimationWord.recogniser.scan (c :: t)) =
      (renameFrom keyframes deeper (AnimationWord.recogniser.scan t)).map (c :: ·))
    (next : Renames keyframes (before ++ [c]) t deeper) :
    scanBytes keyframes (before ++ c :: t) deeper (before.bytes + 1) =
      some ((renameFrom keyframes depth (AnimationWord.recogniser.scan (c :: t))).map (before ++ ·)) := by
  have single : c.utf8Size = 1 := by
    rw [← String.length_utf8EncodeChar, Text.utf8EncodeChar_of_isAscii ascii]
    rfl
  have size : Text.bytes (before ++ [c]) = before.bytes + 1 := by simp [single]
  rw [Renames, size, List.append_assoc, List.singleton_append] at next
  rw [next, scanned, Option.map_map]
  refine congrArg some (congrArg (Option.map · _) (funext fun u => ?_))
  simp

section Strings
variable {before t : Text} {quote : Char} {depth : Nat}

theorem bytes_append_quote (isQuote : Text.isQuote quote) (before : Text) :
    Text.bytes (before ++ [quote]) = before.bytes + 1 := by
  simp only [Text.isQuote, Bool.or_eq_true, beq_iff_eq] at isQuote
  rw [Text.bytes_append]
  rcases isQuote with rfl | rfl <;> rfl

/-- A closed string is renamed or passed over. -/
theorem renames_closed (isQuote : Text.isQuote quote) {name u : Text} (absent : quote ∉ name)
    (next : Renames keyframes (before ++ (quote :: name ++ [quote])) u depth) :
    ((replaceBetween keyframes (before ++ quote :: (name ++ quote :: u)) depth
        (before ++ [quote]).bytes ((before ++ [quote]).bytes + name.bytes)).bind fun
      | some renamed => some (some renamed)
      | none => scanBytes keyframes (before ++ quote :: (name ++ quote :: u)) depth
          ((before ++ [quote]).bytes + name.bytes + 1)) =
      some ((renameFrom keyframes depth
        (AnimationWord.recogniser.scan (quote :: (name ++ quote :: u)))).map (before ++ ·)) := by
  have read := AnimationPart.read_string isQuote absent u
  have layer : quote :: (name ++ quote :: u) =
      AnimationWord.spell (.quoted quote name true) ++ u := by simp [AnimationWord.spell]
  have scanned : AnimationWord.recogniser.scan (quote :: (name ++ quote :: u)) =
      .hit (.quoted quote name true) :: AnimationWord.recogniser.scan u := by
    rw [layer]
    exact Recogniser.scan_spell_append (r := AnimationWord.recogniser)
      (a := .quoted quote name true) (layer ▸ read)
  have behind : (before ++ [quote]).bytes + name.bytes + 1 =
      Text.bytes (before ++ AnimationWord.spell (.quoted quote name true)) := by
    have closing := bytes_append_quote isQuote (before ++ [quote] ++ name)
    rw [Text.bytes_append (before ++ [quote])] at closing
    rw [← closing]
    exact congrArg Text.bytes (by simp [AnimationWord.spell])
  rw [Renames, List.append_assoc] at next
  rw [scanned, behind, layer]
  refine replaceBetween_bind (.quoted quote name true) [quote] [quote] (fun new => ?_) ?_ before u depth ?_
  · simp [AnimationWord.spell, AnimationWord.withName]
  · simp [AnimationWord.spell, AnimationWord.name]
  · exact next

/-- A string that is not closed is renamed or passed over, and it reaches to the end. -/
theorem renames_unclosed (isQuote : Text.isQuote quote) (absent : quote ∉ t) :
    ((replaceBetween keyframes (before ++ quote :: t) depth (before ++ [quote]).bytes
        ((before ++ [quote]).bytes + t.bytes)).bind fun
      | some renamed => some (some renamed)
      | none => scanBytes keyframes (before ++ quote :: t) depth
          ((before ++ [quote]).bytes + t.bytes + 1)) =
      some ((renameFrom keyframes depth (AnimationWord.recogniser.scan (quote :: t))).map
        (before ++ ·)) := by
  have upTo : t.takeWhile (· != quote) = t :=
    List.takeWhile_eq_self_iff.2 fun c mem => bne_iff_ne.2 (ne_of_mem_of_not_mem mem absent)
  have read : AnimationWord.read (quote :: t) = some (.quoted quote t false) := by
    rw [AnimationWord.read, if_pos isQuote, upTo]
    simp [absent]
  have layer : quote :: t = AnimationWord.spell (.quoted quote t false) ++ [] := by
    simp [AnimationWord.spell]
  have scanned : AnimationWord.recogniser.scan (quote :: t) =
      .hit (.quoted quote t false) :: AnimationWord.recogniser.scan [] := by
    rw [layer]
    exact Recogniser.scan_spell_append (r := AnimationWord.recogniser)
      (a := .quoted quote t false) (layer ▸ read)
  have beyond : (before ++ (AnimationWord.spell (.quoted quote t false) ++ [])).bytes ≤
      (before ++ [quote]).bytes + t.bytes + 1 := by
    rw [← layer, ← Text.bytes_append, List.append_assoc]
    exact Nat.le_succ _
  rw [scanned, layer]
  refine replaceBetween_bind (.quoted quote t false) [quote] [] (fun new => ?_) ?_ before [] depth ?_
  · simp [AnimationWord.spell, AnimationWord.withName]
  · simp [AnimationWord.spell, AnimationWord.name]
  · exact scanBytes_of_le beyond depth

/-- A string is renamed or passed over, and one that is not closed reaches to the end. -/
theorem renames_string (isQuote : Text.isQuote quote)
    (next : ∀ name u, t = name ++ quote :: u →
      Renames keyframes (before ++ (quote :: name ++ [quote])) u depth) :
    ((Text.slice? (before ++ quote :: t) (before.bytes + 1) (before ++ quote :: t).bytes).bind fun tail =>
      (replaceBetween keyframes (before ++ quote :: t) depth (before.bytes + 1)
          (before.bytes + 1 + Text.bytes (tail.takeWhile (· != quote)))).bind fun
        | some renamed => some (some renamed)
        | none => scanBytes keyframes (before ++ quote :: t) depth
            (before.bytes + 1 + Text.bytes (tail.takeWhile (· != quote)) + 1)) =
      some ((renameFrom keyframes depth (AnimationWord.recogniser.scan (quote :: t))).map
        (before ++ ·)) := by
  have tail := Text.slice?_end (before ++ [quote]) t
  rw [List.append_assoc, List.singleton_append] at tail
  rw [← bytes_append_quote isQuote, tail, Option.bind_some]
  by_cases closed : quote ∈ t
  · obtain ⟨name, u, rfl, absent⟩ := List.eq_append_cons_of_mem closed
    have upTo : (name ++ quote :: u).takeWhile (· != quote) = name := by
      rw [List.takeWhile_append_of_pos fun c mem => bne_iff_ne.2 (ne_of_mem_of_not_mem mem absent)]
      simp
    rw [upTo]
    exact renames_closed isQuote absent (next name u rfl)
  · have upTo : t.takeWhile (· != quote) = t :=
      List.takeWhile_eq_self_iff.2 fun c mem => bne_iff_ne.2 (ne_of_mem_of_not_mem mem closed)
    rw [upTo]
    exact renames_unclosed isQuote closed

end Strings

/-- A word is renamed or passed over. -/
theorem renames_letter {before t : Text} {c : Char} {depth : Nat} (letter : Text.isNameChar c)
    (next : Renames keyframes (before ++ c :: t.takeWhile Text.isNameChar)
      (t.dropWhile Text.isNameChar) depth) :
    ((replaceBetween keyframes (before ++ c :: t) depth before.bytes
        (before.bytes + Text.bytes (c :: t.takeWhile Text.isNameChar))).bind fun
      | some renamed => some (some renamed)
      | none => scanBytes keyframes (before ++ c :: t) depth
          (before.bytes + Text.bytes (c :: t.takeWhile Text.isNameChar))) =
      some ((renameFrom keyframes depth (AnimationWord.recogniser.scan (c :: t))).map
        (before ++ ·)) := by
  obtain ⟨name, rest, word, behind, rfl⟩ : ∃ name rest, t.takeWhile Text.isNameChar = name ∧
      t.dropWhile Text.isNameChar = rest ∧ t = name ++ rest :=
    ⟨_, _, rfl, rfl, List.takeWhile_append_dropWhile.symm⟩
  rw [word, behind] at next
  rw [word]
  have letters : ∀ d ∈ c :: name, Text.isNameChar d :=
    List.forall_mem_cons.2 ⟨letter, fun d mem => List.mem_takeWhile_imp (word ▸ mem)⟩
  have ends : ∀ d ∈ rest.head?, Text.isNameChar d = false := by
    intro d first
    have stops := List.head?_dropWhile_not Text.isNameChar (name ++ rest)
    rw [behind, Option.mem_def.1 first] at stops
    simpa using stops
  have scanned : AnimationWord.recogniser.scan (c :: name ++ rest) =
      .hit (.bare (c :: name)) :: AnimationWord.recogniser.scan rest :=
    Recogniser.scan_spell_append (r := AnimationWord.recogniser) (a := .bare (c :: name))
      (AnimationPart.read_word (by simp) letters ends)
  have whole := @replaceBetween_bind keyframes (.bare (c :: name)) [] []
    (fun new => by simp [AnimationWord.spell, AnimationWord.withName])
    (by simp [AnimationWord.spell, AnimationWord.name]) before rest depth
    (before.bytes + Text.bytes (c :: name))
  rw [List.append_nil] at whole
  rw [← List.cons_append, scanned]
  refine whole ?_
  rw [Renames, List.append_assoc, Text.bytes_append] at next
  exact next

/-- **A scan over bytes** renames what a scan over characters renames. -/
theorem renames (before rest : Text) (depth : Nat) : Renames keyframes before rest depth := by
  induction size : rest.length using Nat.strongRecOn generalizing before rest depth with
  | ind n ih =>
    cases rest with
    | nil => exact scanBytes_of_le (by simp) depth
    | cons c t =>
      rw [List.length_cons] at size
      have next (deeper : Nat) := ih t.length (by omega) (before ++ [c]) t deeper rfl
      rw [Renames, scanBytes_char]
      split
      next opens =>
        subst opens
        refine renames_plain depth rfl ?_ (next (depth + 1))
        rw [Row.scan_plain (by decide), Row.renameFrom_opening]
      next opens =>
        split
        next closes =>
          subst closes
          refine renames_plain depth rfl ?_ (next (depth - 1))
          rw [Row.scan_plain (by decide), Row.renameFrom_closing]
        next closes =>
          split
          next isQuote =>
            refine renames_string isQuote ?_
            rintro name u rfl
            rw [List.length_append, List.length_cons] at size
            exact ih u.length (by omega) _ u depth rfl
          next isQuote =>
            split
            next letter =>
              have shorter : (t.dropWhile Text.isNameChar).length ≤ t.length :=
                (List.dropWhile_sublist _).length_le
              exact renames_letter letter (ih _ (by omega) _ _ depth rfl)
            next letter =>
              have known : Text.isNameChar c = false ∧ Text.isQuote c = false :=
                ⟨by simpa using letter, by simpa using isQuote⟩
              refine renames_plain depth (Text.isAscii_of_not_isNameChar known.1) ?_ (next depth)
              rw [Row.scan_plain known, Row.renameFrom_plain ⟨opens, closes⟩]

/-! ### Values -/

theorem cutByBytes_value (value : Text) :
    cutByBytes value 0 0 0 value = some (CommaList.split value) := by
  have whole := cutByBytes_eq [] [] value 0
  show _ = some ((CommaList.splitFrom 0 value).1 :: (CommaList.splitFrom 0 value).2)
  simpa using whole

theorem scanBytes_layer (layer : Text) :
    scanBytes keyframes layer 0 0 = some (renameLayer keyframes layer) := by
  have whole : Renames keyframes [] layer 0 := renames [] layer 0
  rw [Renames, List.nil_append, Text.bytes_nil] at whole
  rw [whole]
  simp [renameLayer]

/-- **No slice is missing**, whatever the value is, and what the slices make up is what the scan over
characters makes of the value. -/
theorem renameByBytes_eq (value : Text) :
    renameByBytes keyframes value = some (rename keyframes value) := by
  have scanned : (CommaList.split value).mapM (fun layer => scanBytes keyframes layer 0 0) =
      some ((CommaList.split value).map (renameLayer keyframes)) := by
    simp only [scanBytes_layer]
    exact List.mapM_pure (m := Option)
  have pieces : List.zipWith (fun layer new? => new?.getD layer) (CommaList.split value)
      ((CommaList.split value).map (renameLayer keyframes)) =
      (CommaList.split value).map fun layer => (renameLayer keyframes layer).getD layer := by
    rw [List.zipWith_map_right, List.zipWith_self]
  rw [renameByBytes, cutByBytes_value]
  show (Option.bind (List.mapM _ _) _) = _
  rw [scanned, Option.bind_some, pieces, List.any_map]
  rfl

/-- **Animations.**  With offsets into the bytes of a value, every slice between them is there, and the
result is the same.  The values with closed strings and balanced parentheses, whose strings hold no comma,
no parenthesis and no backslash, are the rows in which words are as long as they can be.  The layers of
such a row are what its commas outside groups separate, and the spots of a layer are places in it.  In each
layer the first spot with a recorded name gets the new name, and everything else is kept.  Nothing is
renamed exactly if no spot of any layer has a recorded name. -/
theorem rename_readable (keyframes : NameTable) :
    (∀ value, renameByBytes keyframes value = some (rename keyframes value)) ∧
      (∀ value, readable none 0 value = true ↔ ∃ row : Row, row.Apart ∧ row.text = value) ∧
      ∀ row : Row, row.Apart →
        CommaList.join (row.layers.map Row.text) = row.text ∧
          (∀ layer ∈ row.layers, layer.Single ∧
            ∀ spot ∈ layer.spots, spot.fill spot.name = layer.text) ∧
          rename keyframes row.text = row.renamed keyframes ∧
          (rename keyframes row.text = none ↔
            ∀ layer ∈ row.layers, ∀ spot ∈ layer.spots, keyframes.find? spot.name = none) := by
  refine ⟨renameByBytes_eq, fun value => readable_iff, fun row apart => ?_⟩
  refine ⟨row.join_layers, fun layer mem => ?_, Row.rename_text apart, ?_⟩
  · exact ⟨(row.of_mem_layers layer mem).1, fun spot => Row.fill_name_of_mem_spots⟩
  · rw [Row.rename_text apart, Row.renamed_eq_none_iff]

/-- A recorded name is not renamed in a function, and only once in a layer. -/
theorem rename_readable_function :
    let keyframes := NameTable.ofList [("x".toList, "x_1".toList)]
    let row : Row := .word "f".toList (by decide) (List.all_eq_true.1 (by decide)) <|
      .group (.word "x".toList (by decide) (List.all_eq_true.1 (by decide)) .nil) <| .comma <|
      .string '"' "x".toList rfl (by simp) <| .sign ' ' (by decide) <|
      .word "x".toList (by decide) (List.all_eq_true.1 (by decide)) .nil
    row.text = "f(x),\"x\" x".toList ∧ row.Apart ∧
      rename keyframes row.text = row.renamed keyframes ∧
      row.renamed keyframes = some "f(x),\"x_1\" x".toList := by
  intro keyframes row
  have apart : row.Apart := by simp [row, Row.Apart, Row.startsWithWord]
  have renamed := ((rename_readable keyframes).2.2 row apart).2.2.1
  exact ⟨rfl, apart, renamed, by decide +kernel⟩

end ScopedCss.Animation
