import SoftPatchPanel.Lib.CStr
import Mathlib.Tactic.IntervalCases

/-!
# Numbers in text

`strtoull` reads back what the conversions `%u` and `%x` print, up to the first character that is no digit
(`strtoull_formatU`, `strtoull_formatX`), and `atoi` what `%d` prints, as far as an `int` holds it (`atoi_formatD`).
-/

namespace Lib

/-- The value of a digit; 36 for all other characters. -/
def digitVal (c : Char) : Nat :=
  if '0' ≤ c ∧ c ≤ '9' then c.toNat - '0'.toNat
  else if 'a' ≤ c ∧ c ≤ 'z' then c.toNat - 'a'.toNat + 10
  else if 'A' ≤ c ∧ c ≤ 'Z' then c.toNat - 'A'.toNat + 10
  else 36

/-- The number that a list of digits stands for. -/
def valueOf (base : Nat) (digits : CStr) : Nat := digits.foldl (fun v c => v * base + digitVal c) 0

/-- The space characters that `strtoull` skips. -/
def isSpaceChar (c : Char) : Bool := c = ' ' || ('\t' ≤ c && c ≤ '\r')

/-- `strtoull` takes `0x` off a hexadecimal number when a digit follows. -/
def skipHexMark : CStr → CStr
  | '0' :: x :: d :: rest => if (x = 'x' ∨ x = 'X') ∧ digitVal d < 16 then d :: rest else '0' :: x :: d :: rest
  | s => s

/-- The sign in front of a number: whether it is a minus, and what follows it. -/
def splitSign : CStr → Bool × CStr
  | '-' :: rest => (true, rest)
  | '+' :: rest => (false, rest)
  | s => (false, s)

/-- `strtoull`: the value, and the text from where the number ends. -/
def strtoull (base : Nat) (s : CStr) : UInt64 × CStr :=
  let (negative, t) := splitSign (s.dropWhile isSpaceChar)
  let t := if base = 16 then skipHexMark t else t
  let digits := t.takeWhile (fun c => digitVal c < base)
  let v := valueOf base digits
  if digits = [] then (0, s)
  else if 2 ^ 64 ≤ v then (UInt64.ofNat (2 ^ 64 - 1), t.drop digits.length)
  else (if negative then 0 - UInt64.ofNat v else UInt64.ofNat v, t.drop digits.length)

/-- `strtol` with base 10, which stops at the bounds of a `long`. -/
def strtol (s : CStr) : Int :=
  let (negative, t) := splitSign (s.dropWhile isSpaceChar)
  let v : Int := valueOf 10 (t.takeWhile (fun c => digitVal c < 10))
  if negative then max (-2 ^ 63) (-v) else min v (2 ^ 63 - 1)

/-- `atoi`: what an `int` keeps of the result of `strtol`. -/
def atoi (s : CStr) : Int := (strtol s).bmod (2 ^ 32)

/-! ### Digits -/

private theorem digitVal_digitChar {d : Nat} (h : d < 16) : digitVal (Nat.digitChar d) = d := by
  interval_cases d <;> rfl

section

variable {base : Nat}

/-- A property of all digits of the base holds for all characters of a printed number. -/
theorem forall_mem_toDigits (hbase : 1 < base) {P : Char → Prop} (h : ∀ d < base, P (Nat.digitChar d)) (n : Nat) :
    ∀ c ∈ Nat.toDigits base n, P c := by
  induction n using Nat.strongRecOn with
  | ind n ih =>
    by_cases hn : n < base
    · rw [Nat.toDigits_of_lt_base hn]
      simpa using h n hn
    · rw [Nat.toDigits_of_base_le hbase (by omega)]
      simp only [List.mem_append, List.mem_singleton]
      rintro c (hc | rfl)
      · exact ih (n / base) (Nat.div_lt_self (by omega) hbase) c hc
      · exact h _ (Nat.mod_lt _ (by omega))

theorem valueOf_toDigits (hbase : 1 < base) (h16 : base ≤ 16) (n : Nat) : valueOf base (Nat.toDigits base n) = n := by
  induction n using Nat.strongRecOn with
  | ind n ih =>
    by_cases hn : n < base
    · rw [Nat.toDigits_of_lt_base hn]
      simp [valueOf, digitVal_digitChar (show n < 16 by omega)]
    · have hlt : n % base < base := Nat.mod_lt _ (by omega)
      rw [Nat.toDigits_of_base_le hbase (by omega)]
      have := ih (n / base) (Nat.div_lt_self (by omega) hbase)
      unfold valueOf at this ⊢
      rw [List.foldl_append, this, List.foldl_cons, List.foldl_nil, digitVal_digitChar (by omega)]
      exact Nat.div_add_mod' n base

/-- The conversion stops where the digits end. -/
private theorem takeWhile_toDigits (hbase : 1 < base) (h16 : base ≤ 16) (n : Nat) {rest : CStr}
    (hrest : ∀ c ∈ rest.head?, base ≤ digitVal c) :
    (Nat.toDigits base n ++ rest).takeWhile (fun c => digitVal c < base) = Nat.toDigits base n := by
  have hdigits : ∀ c ∈ Nat.toDigits base n, digitVal c < base :=
    forall_mem_toDigits hbase (fun d hd => by rw [digitVal_digitChar (by omega)]; exact hd) n
  rw [List.takeWhile_append_of_pos (fun c hc => by simpa using hdigits c hc)]
  cases rest with
  | nil => simp
  | cons c rest =>
    rw [List.takeWhile_cons_of_neg (by simpa using hrest c rfl), List.append_nil]

end

/-! ### Reading back -/

private theorem strtoull_eq {base n : Nat} {s t rest : CStr} (hbase : 1 < base) (h16 : base ≤ 16) (hn : n < 2 ^ 64)
    (hrest : ∀ c ∈ rest.head?, base ≤ digitVal c) (hsign : splitSign (s.dropWhile isSpaceChar) = (false, t))
    (hmark : (if base = 16 then skipHexMark t else t) = Nat.toDigits base n ++ rest) :
    strtoull base s = (UInt64.ofNat n, rest) := by
  unfold strtoull
  rw [hsign]
  simp only
  rw [hmark, takeWhile_toDigits hbase h16 n hrest, if_neg Nat.toDigits_ne_nil, valueOf_toDigits hbase h16,
    if_neg (by omega), List.drop_left]
  rfl

/-- The first digit of a number is neither a space nor a sign. -/
private theorem exists_toDigits_eq_cons (base : Nat) (hbase : 1 < base) (h16 : base ≤ 16) (n : Nat) :
    ∃ c cs, Nat.toDigits base n = c :: cs ∧ digitVal c < base ∧ isSpaceChar c = false ∧ c ≠ '-' ∧ c ≠ '+' := by
  have hsigns : ∀ d < 16, isSpaceChar (Nat.digitChar d) = false ∧ Nat.digitChar d ≠ '-' ∧ Nat.digitChar d ≠ '+' := by
    decide
  have hmem := forall_mem_toDigits hbase
    (P := fun c => digitVal c < base ∧ isSpaceChar c = false ∧ c ≠ '-' ∧ c ≠ '+')
    (fun d hd => ⟨by rw [digitVal_digitChar (by omega)]; exact hd, hsigns d (by omega)⟩) n
  obtain ⟨c, cs, hcs⟩ := List.exists_cons_of_ne_nil (Nat.toDigits_ne_nil (n := n) (b := base))
  exact ⟨c, cs, hcs, hmem c (by simp [hcs])⟩

/-- A printed number starts neither with a space nor with a sign. -/
private theorem splitSign_toDigits (base : Nat) (hbase : 1 < base) (h16 : base ≤ 16) (n : Nat) (rest : CStr) :
    splitSign ((Nat.toDigits base n ++ rest).dropWhile isSpaceChar) = (false, Nat.toDigits base n ++ rest) := by
  obtain ⟨c, cs, hcs, -, hspace, hminus, hplus⟩ := exists_toDigits_eq_cons base hbase h16 n
  rw [hcs, List.cons_append, List.dropWhile_cons_of_neg (by simp [hspace])]
  unfold splitSign
  split
  · rename_i heq
    exact absurd (List.cons.inj heq).1 hminus
  · rename_i heq
    exact absurd (List.cons.inj heq).1 hplus
  · rfl

theorem strtoull_formatU {n : Nat} (hn : n < 2 ^ 64) {rest : CStr} (hrest : ∀ c ∈ rest.head?, 10 ≤ digitVal c) :
    strtoull 10 (formatU n ++ rest) = (UInt64.ofNat n, rest) := by
  exact strtoull_eq (by decide) (by decide) hn hrest (splitSign_toDigits 10 (by decide) (by decide) n rest)
    (if_neg (by decide))

theorem strtoull_formatX {n : Nat} (hn : n < 2 ^ 64) (rest : CStr) (hrest : ∀ c ∈ rest.head?, 16 ≤ digitVal c) :
    strtoull 16 ("0x".toList ++ formatX n ++ rest) = (UInt64.ofNat n, rest) := by
  obtain ⟨c, cs, hcs, hdigit, -⟩ := exists_toDigits_eq_cons 16 (by decide) (by decide) n
  refine strtoull_eq (t := '0' :: 'x' :: c :: (cs ++ rest)) (by decide) (by decide) hn hrest ?_ ?_
  · rw [formatX, hcs]
    rfl
  · rw [if_pos rfl, skipHexMark, if_pos ⟨Or.inl rfl, hdigit⟩, hcs]
    rfl

/-- `atoi` reads back what `%d` prints, as far as a `long` and then an `int` hold it. -/
theorem atoi_formatD (n : Int) : atoi (formatD n) = (max (-2 ^ 63) (min n (2 ^ 63 - 1))).bmod (2 ^ 32) := by
  have hdigits : (Nat.toDigits 10 n.natAbs).takeWhile (fun c => digitVal c < 10) = Nat.toDigits 10 n.natAbs := by
    simpa using takeWhile_toDigits (show 1 < 10 by decide) (by decide) n.natAbs
      (show ∀ c ∈ ([] : CStr).head?, 10 ≤ digitVal c by simp)
  have hvalue := valueOf_toDigits (show 1 < 10 by decide) (by decide) n.natAbs
  have hstrtol : strtol (formatD n) = max (-2 ^ 63) (min n (2 ^ 63 - 1)) := by
    unfold strtol formatD formatU
    by_cases hn : n < 0
    · rw [if_pos hn, List.dropWhile_cons_of_neg (by decide)]
      simp only [splitSign, ↓reduceIte]
      rw [hdigits, hvalue]
      omega
    · have hsign := splitSign_toDigits 10 (by decide) (by decide) n.natAbs []
      rw [List.append_nil] at hsign
      rw [if_neg hn, hsign]
      simp only [Bool.false_eq_true, ↓reduceIte]
      rw [hdigits, hvalue]
      omega
  rw [atoi, hstrtol]

end Lib
