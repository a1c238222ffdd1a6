import ScopedCss.Proofs.Base62
import ScopedCss.Suffix

/-!
# Suffixes of style sheets that differ

A unit enters the hash by a multiplication with 33, which is odd, and an exclusive or.  Both can be undone
modulo 2 ^ 32, so hashes that differ stay different whatever units follow (`foldr_step_injective`), and two
units tell the hashes apart into which they enter alike (`step_unit_injective`).  A style sheet in which one
unit is changed therefore gets another hash, another suffix and other names (`scope_ne_of_oneUnitApart`).

A suffix says no less than the hash: it is the one numeral without a superfluous zero that reads as the hash
(`numerals_canonical`).
-/
namespace ScopedCss.Suffix

/-- The UTF-16 form of a text. -/
def utf16 (t : Text) : List Nat := t.flatMap units

/-- The UTF-16 forms of two texts have the same length and differ at exactly one place. -/
structure OneUnitApart (s t : Text) : Prop where
  length_eq : (utf16 s).length = (utf16 t).length
  place : ∃! i : Nat, (utf16 s)[i]? ≠ (utf16 t)[i]?

/-! ### Units -/

theorem lt_of_mem_units {c : Char} {unit : Nat} (mem : unit ∈ units c) : unit < 2 ^ 16 := by
  have top : c.toNat < 0x110000 := by
    rcases c.valid with low | high
    · exact Nat.lt_trans low (by decide)
    · exact high.2
  rw [units] at mem
  split at mem
  next basic => rwa [List.mem_singleton.1 mem]
  next =>
    simp only [List.mem_cons, List.not_mem_nil, or_false] at mem
    rcases mem with same | same <;> omega

theorem lt_of_mem_utf16 {t : Text} {unit : Nat} (mem : unit ∈ utf16 t) : unit < 2 ^ 16 := by
  obtain ⟨c, -, here⟩ := List.mem_flatMap.1 mem
  exact lt_of_mem_units here

/-- Lists of one length that differ at exactly one place are the same before it and behind it. -/
theorem existsUnique_getElem?_ne_iff {α : Type} {l l' : List α} (same : l.length = l'.length) :
    (∃! i : Nat, l[i]? ≠ l'[i]?) ↔
      ∃ before u v after, u ≠ v ∧ l = before ++ u :: after ∧ l' = before ++ v :: after := by
  constructor
  · rintro ⟨i, differ, only⟩
    have inside : i < l.length := by
      by_contra beyond
      rw [List.getElem?_eq_none (by omega), List.getElem?_eq_none (by omega)] at differ
      exact differ rfl
    have elsewhere (j : Nat) (other : j ≠ i) : l[j]? = l'[j]? := by
      by_contra differ'
      exact other (only j differ')
    refine ⟨l.take i, l[i], l'[i], l.drop (i + 1), ?_, ?_, ?_⟩
    · intro equal
      rw [List.getElem?_eq_getElem inside, List.getElem?_eq_getElem (same ▸ inside), equal] at differ
      exact differ rfl
    · rw [List.getElem_cons_drop, List.take_append_drop]
    · have front : l.take i = l'.take i := List.ext_getElem? fun j => by
        rw [List.getElem?_take, List.getElem?_take]
        split
        next before => exact elsewhere j (by omega)
        next => rfl
      have back : l.drop (i + 1) = l'.drop (i + 1) := List.ext_getElem? fun j => by
        rw [List.getElem?_drop, List.getElem?_drop]
        exact elsewhere _ (by omega)
      rw [front, back, List.getElem_cons_drop, List.take_append_drop]
  · rintro ⟨before, u, v, after, differ, rfl, rfl⟩
    refine ⟨before.length, by simpa using differ, fun j (differ' : _ ≠ _) => ?_⟩
    rcases Nat.lt_trichotomy j before.length with front | here | back
    · rw [List.getElem?_append_left front, List.getElem?_append_left front] at differ'
      exact absurd rfl differ'
    · exact here
    · obtain ⟨k, rfl⟩ : ∃ k, j = before.length + (k + 1) := ⟨j - before.length - 1, by omega⟩
      simp [List.getElem?_append_right] at differ'

/-! ### Hashes -/

/-- Multiplying by 33 can be undone. -/
theorem mul_left_injective : Function.Injective fun hash : UInt32 => hash * 33 := by
  have undo : Function.LeftInverse (fun hash : UInt32 => hash * 1041204193) (· * 33) := fun hash => by
    show hash * 33 * 1041204193 = hash
    rw [UInt32.mul_assoc, show (33 * 1041204193 : UInt32) = 1 from rfl, UInt32.mul_one]
  exact undo.injective

/-- Different hashes stay different when the same unit enters them. -/
theorem step_injective (unit : Nat) : Function.Injective (step unit) := fun _ _ same =>
  mul_left_injective ((UInt32.xor_left_inj _).1 same)

/-- Different hashes stay different whatever units enter them. -/
theorem foldr_step_injective (units : List Nat) : Function.Injective (units.foldr step) := by
  induction units with
  | nil => exact Function.injective_id
  | cons unit units ih => exact (step_injective unit).comp ih

/-- Different units make different hashes of one hash. -/
theorem step_unit_injective {u v : Nat} (small : u < 2 ^ 16) (small' : v < 2 ^ 16) {hash : UInt32}
    (same : step u hash = step v hash) : u = v := by
  have equal := congrArg UInt32.toNat ((UInt32.xor_right_inj _).1 same)
  rwa [UInt32.toNat_ofNat', UInt32.toNat_ofNat', Nat.mod_eq_of_lt (by omega),
    Nat.mod_eq_of_lt (by omega)] at equal

theorem hash_ne_of_oneUnitApart {s t : Text} (apart : OneUnitApart s t) : hash s ≠ hash t := by
  obtain ⟨before, u, v, after, differ, first, second⟩ :=
    (existsUnique_getElem?_ne_iff apart.length_eq).1 apart.place
  have small : u < 2 ^ 16 := lt_of_mem_utf16 (t := s) (by rw [first]; simp)
  have small' : v < 2 ^ 16 := lt_of_mem_utf16 (t := t) (by rw [second]; simp)
  intro same
  rw [hash, hash, ← utf16, ← utf16, first, second, List.foldr_append, List.foldr_append] at same
  exact differ (step_unit_injective small small' (foldr_step_injective before same))

/-- Different hashes are written as different suffixes. -/
theorem ofSource_inj {s t : Text} : ofSource s = ofSource t ↔ hash s = hash t := by
  rw [ofSource, ofSource, Base62.encode_injective.eq_iff, UInt32.toNat_inj]

theorem scope_inj {s t name : Text} : scope s name = scope t name ↔ ofSource s = ofSource t := by
  simp [scope, attach]

/-- **A change of one unit changes all names.**  Two texts whose UTF-16 forms have the same length and differ
at exactly one place have different hashes modulo 2 ^ 32 and different suffixes, and every name is scoped
differently in them. -/
theorem scope_ne_of_oneUnitApart {s t : Text} (apart : OneUnitApart s t) :
    hash s ≠ hash t ∧ ofSource s ≠ ofSource t ∧ ∀ name, scope s name ≠ scope t name := by
  have hashes := hash_ne_of_oneUnitApart apart
  have suffixes : ofSource s ≠ ofSource t := fun same => hashes (ofSource_inj.1 same)
  exact ⟨hashes, suffixes, fun name same => suffixes (scope_inj.1 same)⟩

/-- The two characters share their first unit. -/
theorem scope_ne_of_oneUnitApart_surrogates :
    let s := ".😀\x7b\x7d".toList
    let t := ".😁\x7b\x7d".toList
    OneUnitApart s t ∧ hash s ≠ hash t ∧ ofSource s ≠ ofSource t ∧ scope s ['a'] ≠ scope t ['a'] := by
  intro s t
  have apart : OneUnitApart s t := by
    refine ⟨by decide, (existsUnique_getElem?_ne_iff (by decide)).2 ?_⟩
    exact ⟨[46, 0xD83D], 0xDE00, 0xDE01, [123, 125], by decide, by decide, by decide⟩
  obtain ⟨hashes, suffixes, names⟩ := scope_ne_of_oneUnitApart apart
  exact ⟨apart, hashes, suffixes, names ['a']⟩

/-! ### Numerals -/

/-- The numerals of hashes are those without a superfluous zero that stand for less than 2 ^ 32. -/
theorem exists_encode_iff {digits : Text} :
    (∃ hash : UInt32, Base62.encode hash.toNat = digits) ↔
      Base62.Canonical digits ∧ Base62.value digits < 2 ^ 32 := by
  constructor
  · rintro ⟨hash, rfl⟩
    rw [Base62.value_encode]
    exact ⟨Base62.canonical_encode _, hash.toNat_lt⟩
  · rintro ⟨canonical, small⟩
    refine ⟨UInt32.ofNat (Base62.value digits), ?_⟩
    rw [UInt32.toNat_ofNat_of_lt' small, Base62.encode_value canonical]

/-- **Numerals in base 62 are canonical.**  What is written for a number reads as the number, and its first
digit is no zero unless the number is zero.  Digits without a superfluous zero in front are what is written
for their value, and what is written for a hash if their value is one.  So style sheets with different
hashes have different suffixes. -/
theorem numerals_canonical :
    (∀ n, Base62.value (Base62.encode n) = n ∧ ((Base62.encode n).head? = some '0' → n = 0)) ∧
      (∀ digits, Base62.Canonical digits → Base62.encode (Base62.value digits) = digits) ∧
      (∀ digits, (∃ hash : UInt32, Base62.encode hash.toNat = digits) ↔
        Base62.Canonical digits ∧ Base62.value digits < 2 ^ 32) ∧
      ∀ source source', hash source ≠ hash source' → ofSource source ≠ ofSource source' :=
  ⟨fun n => ⟨Base62.value_encode n, Base62.eq_zero_of_head_encode⟩, fun _ => Base62.encode_value,
    fun _ => exists_encode_iff, fun _ _ differ same => differ (ofSource_inj.1 same)⟩

/-- The largest hash, and two sheets that differ in the case of a letter. -/
theorem numerals_canonical_largest :
    let digits := "4GFfc3".toList
    Base62.Canonical digits ∧ Base62.value digits = 2 ^ 32 - 1 ∧ Base62.encode (2 ^ 32 - 1) = digits ∧
      Base62.value (Base62.encode 0) = 0 ∧ (∃ hash : UInt32, Base62.encode hash.toNat = digits) ∧
      hash ".a".toList ≠ hash ".A".toList ∧ ofSource ".a".toList ≠ ofSource ".A".toList := by
  intro digits
  obtain ⟨reads, writes, hashes, suffixes⟩ := numerals_canonical
  have known : digits.all (Base62.alphabet.contains ·) := by decide
  have canonical : Base62.Canonical digits := ⟨by decide, by simpa using known, by decide⟩
  have largest : Base62.value digits = 2 ^ 32 - 1 := by decide +kernel
  have differ : hash ".a".toList ≠ hash ".A".toList := by decide
  refine ⟨canonical, largest, largest ▸ writes digits canonical, (reads 0).1, ?_, differ, suffixes _ _ differ⟩
  exact (hashes digits).2 ⟨canonical, by omega⟩

end ScopedCss.Suffix
