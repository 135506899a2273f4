import Mathlib.Data.Nat.Digits.Defs

/-!
# Strings of C

A string is the list of its characters without the terminating NUL.  A buffer of `size` bytes holds at most
`size - 1` of them, and `snprintf` cuts the rest off.  A text whose fields do not contain the separator is taken apart
again by `strtok` (`strtok_separated`).
-/

namespace Lib

abbrev CStr := List Char

/-- What `snprintf` with a buffer of `size` bytes leaves of a text. -/
def snprintf (size : Nat) (text : CStr) : CStr := text.take (size - 1)

/-- The conversion `%u`. -/
def formatU (n : Nat) : CStr := Nat.toDigits 10 n

/-- The conversion `%d`. -/
def formatD (n : Int) : CStr := if n < 0 then '-' :: formatU n.natAbs else formatU n.natAbs

/-- The conversion `%x`. -/
def formatX (n : Nat) : CStr := Nat.toDigits 16 n

/-! ### Separators -/

/-- The tokens that repeated calls of `strtok` return: the non-empty parts between separators. -/
def strtok (sep : Char) (s : CStr) : List CStr := (s.splitOn sep).filter (fun token => token ≠ [])

/-- The fields, each with a separator in front. -/
def separated (sep : Char) (fields : List CStr) : CStr := fields.flatMap (fun field => sep :: field)

@[simp] theorem separated_nil {sep : Char} : separated sep [] = [] := rfl

@[simp] theorem separated_cons {sep : Char} (field : CStr) (fields : List CStr) :
    separated sep (field :: fields) = sep :: field ++ separated sep fields := rfl

theorem separated_append {sep : Char} (fields fields' : List CStr) :
    separated sep (fields ++ fields') = separated sep fields ++ separated sep fields' := List.flatMap_append

private theorem append_separated {sep : Char} (first : CStr) (fields : List CStr) :
    first ++ separated sep fields = [sep].intercalate (first :: fields) := by
  induction fields generalizing first with
  | nil => simp
  | cons field fields ih =>
    rw [separated_cons, List.intercalate_cons_cons, ← ih field]
    simp

theorem splitOn_separated {sep : Char} {first : CStr} {fields : List CStr} (h : ∀ s ∈ first :: fields, sep ∉ s) :
    (first ++ separated sep fields).splitOn sep = first :: fields := by
  rw [append_separated, List.splitOn_intercalate sep h (by simp)]

theorem strtok_separated {sep : Char} {first : CStr} {fields : List CStr}
    (h : ∀ s ∈ first :: fields, s ≠ [] ∧ sep ∉ s) : strtok sep (first ++ separated sep fields) = first :: fields := by
  rw [strtok, splitOn_separated (fun s hs => (h s hs).2), List.filter_eq_self]
  exact fun s hs => by simpa using (h s hs).1

theorem separated_splitOn (sep : Char) (text : CStr) : separated sep (text.splitOn sep) = sep :: text := by
  obtain ⟨field, fields, hfields⟩ := List.exists_cons_of_ne_nil (List.splitOn_ne_nil sep text)
  rw [hfields, separated_cons, List.cons_append, append_separated, ← hfields, List.intercalate_splitOn]

theorem not_mem_of_mem_splitOn {sep : Char} {text field : CStr} (h : field ∈ text.splitOn sep) : sep ∉ field := by
  induction text generalizing field with
  | nil =>
    rw [List.splitOn_nil, List.mem_singleton] at h
    simp [h]
  | cons c text ih =>
    obtain ⟨first, rest, hrest⟩ := List.exists_cons_of_ne_nil (List.splitOn_ne_nil sep text)
    rw [List.splitOn_cons_eq_if_modifyHead, hrest] at h
    rw [hrest] at ih
    split at h
    · rcases List.mem_cons.1 h with rfl | h
      · exact List.not_mem_nil
      · exact ih h
    · rename_i hc
      rcases List.mem_cons.1 h with rfl | h
      · rintro (_ | ⟨_, hmem⟩)
        · simp at hc
        · exact ih List.mem_cons_self hmem
      · exact ih (List.mem_cons_of_mem _ h)

theorem not_mem_separated {c sep : Char} (hc : c ≠ sep) {fields : List CStr} (h : ∀ s ∈ fields, c ∉ s) :
    c ∉ separated sep fields := by
  intro hmem
  obtain ⟨s, hs, hcs⟩ := List.mem_flatMap.1 hmem
  rcases List.mem_cons.1 hcs with rfl | hcs
  · exact hc rfl
  · exact h s hs hcs

/-- There are as many separators as fields. -/
theorem count_separated {sep : Char} {fields : List CStr} (h : ∀ s ∈ fields, sep ∉ s) :
    (separated sep fields).count sep = fields.length := by
  induction fields with
  | nil => rfl
  | cons field fields ih =>
    rw [List.forall_mem_cons] at h
    rw [separated_cons, List.count_append, List.count_cons_self, List.count_eq_zero.2 h.1, ih h.2, List.length_cons,
      Nat.add_comm, Nat.zero_add]

end Lib
