/-!
# Entries in order of first appearance

Values recorded under keys, in a list that keeps each key where it first appeared.  Recording a key
again changes its value and not its place.
-/
namespace ScopedCss.Entries
variable {κ α : Type} [BEq κ]

/-- The entries with a value recorded under a key: in place of the entry of that key, or else at the
end. -/
def record (key : κ) (value : α) : List (κ × α) → List (κ × α)
  | [] => [(key, value)]
  | entry :: entries =>
    if entry.1 == key then (key, value) :: entries else entry :: record key value entries

/-- The first entry answers for its own key only. -/
theorem lookup_cons_eq (name : κ) (entry : κ × α) (entries : List (κ × α)) :
    (entry :: entries).lookup name =
      if name == entry.1 then some entry.2 else entries.lookup name := by
  rw [List.lookup_cons]
  cases name == entry.1 <;> rfl

variable [LawfulBEq κ]

/-- Recording adds a key at the end unless it is there already. -/
theorem map_fst_record (key : κ) (value : α) (entries : List (κ × α)) :
    (record key value entries).map Prod.fst =
      if key ∈ entries.map Prod.fst then entries.map Prod.fst
      else entries.map Prod.fst ++ [key] := by
  induction entries with
  | nil => rfl
  | cons entry entries ih =>
    by_cases same : entry.1 = key
    · simp [record, same]
    · have : key ≠ entry.1 := fun h => same h.symm
      by_cases there : key ∈ entries.map Prod.fst <;> simp_all [record]

/-- Recording under a new key changes no key's place, so keys that differ stay different. -/
theorem nodup_record {key : κ} {value : α} {entries : List (κ × α)}
    (nodup : (entries.map Prod.fst).Nodup) : ((record key value entries).map Prod.fst).Nodup := by
  rw [map_fst_record]
  split
  next => exact nodup
  next absent =>
    refine List.nodup_append.2 ⟨nodup, by simp, ?_⟩
    intro a there b last
    simp only [List.mem_singleton] at last
    exact fun same => absent (last ▸ same ▸ there)

/-- A recorded value is found under its key, and other keys are found as before. -/
theorem lookup_record (key name : κ) (value : α) (entries : List (κ × α)) :
    (record key value entries).lookup name =
      if name == key then some value else entries.lookup name := by
  induction entries with
  | nil => rw [record, lookup_cons_eq]
  | cons entry entries ih =>
    rw [record, lookup_cons_eq]
    split
    next same =>
      rw [lookup_cons_eq, eq_of_beq same]
      cases name == key <;> rfl
    next other =>
      rw [lookup_cons_eq, ih]
      by_cases front : name == entry.1
      · have apart : ¬ name == key := fun h => other (by rw [← eq_of_beq front, h])
        rw [if_pos front, if_neg apart, if_pos front]
      · rw [if_neg front, if_neg front]

end ScopedCss.Entries
