/-
Exact decimals: an integer and the number of its digits after the point, the
texts `atof`, `std::to_string` and a JSON printer read and write for them, and
the rounding in between. For `atof`, texts for infinities, NaN and hexadecimal
numbers are no decimals and read as the digits they start with.
-/
import SpeechAnalyzer.Lib.Json
import Mathlib.Data.Rat.Floor
import Mathlib.Tactic.Positivity
import Mathlib.Tactic.FieldSimp
import Mathlib.Tactic.Ring
import Mathlib.Tactic.Linarith

namespace Lib

/-- `mant · 10⁻ˢᶜᵃˡᵉ`. -/
structure Decimal where
  mant : ℤ
  scale : ℕ
deriving DecidableEq, Repr

namespace Decimal

def value (x : Decimal) : ℚ := x.mant / 10 ^ x.scale

/-! ## Reading -/

def natOf (digits : Str) : ℕ := Nat.ofDigitChars 10 digits 0

/-- The exponent at the start of a text, zero when there is none. -/
def exponent : Str → ℤ
  | [] => 0
  | c :: t =>
    if c = 'e' ∨ c = 'E' then
      match t with
      | '-' :: t => -natOf (t.takeWhile Char.isDigit)
      | '+' :: t => natOf (t.takeWhile Char.isDigit)
      | t => natOf (t.takeWhile Char.isDigit)
    else 0

/-- Digits after a point at the start of a text, and what follows. -/
def fraction : Str → Str × Str
  | '.' :: t => (t.takeWhile Char.isDigit, t.dropWhile Char.isDigit)
  | t => ([], t)

/-- A number without a sign. -/
def magnitude (t : Str) : ℕ × ℕ :=
  let whole := t.takeWhile Char.isDigit
  let (frac, rest) := fraction (t.dropWhile Char.isDigit)
  let shift := exponent rest - frac.length
  (natOf (whole ++ frac) * 10 ^ shift.toNat, (-shift).toNat)

/-- `atof` of a decimal: blanks, a sign, digits with a point, an exponent; zero
when there is none. `inf` and `nan` are no decimals (`isNumber`). -/
def scan (t : Str) : Decimal :=
  match t.dropWhile isSpace with
  | '-' :: t => ⟨-(magnitude t).1, (magnitude t).2⟩
  | '+' :: t => ⟨(magnitude t).1, (magnitude t).2⟩
  | t => ⟨(magnitude t).1, (magnitude t).2⟩

def isExponent : Str → Bool
  | [] => true
  | c :: t =>
    (c = 'e' || c = 'E') &&
      match t with
      | '-' :: t => !t.isEmpty && t.all Char.isDigit
      | '+' :: t => !t.isEmpty && t.all Char.isDigit
      | t => !t.isEmpty && t.all Char.isDigit

def isMagnitude (t : Str) : Bool :=
  let (frac, rest) := fraction (t.dropWhile Char.isDigit)
  !(t.takeWhile Char.isDigit ++ frac).isEmpty && isExponent rest

/-- The text is one number. -/
def isNumber : Str → Bool
  | '-' :: t => isMagnitude t
  | '+' :: t => isMagnitude t
  | t => isMagnitude t

/-- The number a whole text is. -/
def read (t : Str) : Option Decimal := if isNumber t then some (scan t) else none

/-! ## Writing -/

/-- The digits, the last `k` of them after a point. -/
def point (k : ℕ) (digits : Str) : Str :=
  digits.take (digits.length - k) ++ '.' :: digits.drop (digits.length - k)

/-- `n` with its last `k` digits after a point. -/
def pointed (k n : ℕ) : Str := point k ((Nat.toDigits 10 n).leftpad (k + 1) '0')

def signed (m : ℤ) (t : Str) : Str := if m < 0 then '-' :: t else t

/-- `a / b` to the nearest integer, to the even one in the middle. -/
def roundDiv (a b : ℕ) : ℕ :=
  if 2 * (a % b) < b then a / b
  else if b < 2 * (a % b) then a / b + 1
  else if a / b % 2 = 0 then a / b else a / b + 1

/-- The millionths nearest to `|x|`. -/
def millionths (x : Decimal) : ℕ := roundDiv (x.mant.natAbs * 10 ^ 6) (10 ^ x.scale)

/-- `std::to_string`: six digits after the point. -/
def toFixed (x : Decimal) : Str := signed x.mant (pointed 6 x.millionths)

/-- `x` rounded to six digits after the point. -/
def round6 (x : Decimal) : Decimal := ⟨if x.mant < 0 then -x.millionths else x.millionths, 6⟩

/-- All digits. -/
def print (x : Decimal) : Str := signed x.mant (pointed x.scale x.mant.natAbs)

/-! ## Reading what was written -/

/-- A run of digits ends at the first other character. -/
theorem span_digits (ds rest : Str) (hds : ∀ c ∈ ds, c.isDigit = true)
    (hrest : ∀ c ∈ rest.head?, c.isDigit = false) :
    (ds ++ rest).takeWhile Char.isDigit = ds ∧ (ds ++ rest).dropWhile Char.isDigit = rest := by
  rw [List.takeWhile_append_of_pos hds, List.dropWhile_append_of_pos hds]
  cases rest with
  | nil => simp
  | cons c rest =>
    have hc : c.isDigit = false := hrest c rfl
    simp [hc]

theorem span_point {k : ℕ} {ds : Str} (hds : ∀ c ∈ ds, c.isDigit = true) :
    (point k ds).takeWhile Char.isDigit = ds.take (ds.length - k) ∧
      fraction ((point k ds).dropWhile Char.isDigit) = (ds.drop (ds.length - k), []) := by
  have hwhole := span_digits (ds.take (ds.length - k)) ('.' :: ds.drop (ds.length - k))
    (fun c hc => hds c (List.mem_of_mem_take hc)) (by simp)
  have hfrac := span_digits (ds.drop (ds.length - k)) []
    (fun c hc => hds c (List.mem_of_mem_drop hc)) (by simp)
  rw [List.append_nil] at hfrac
  rw [point, hwhole.1, hwhole.2, fraction, hfrac.1, hfrac.2]
  exact ⟨rfl, rfl⟩

theorem magnitude_point {k : ℕ} {ds : Str} (hds : ∀ c ∈ ds, c.isDigit = true) (hk : k ≤ ds.length) :
    magnitude (point k ds) = (natOf ds, k) := by
  have hlen : (ds.drop (ds.length - k)).length = k := by
    rw [List.length_drop]
    omega
  obtain ⟨hwhole, hfrac⟩ := span_point (k := k) hds
  simp only [magnitude, hwhole, hfrac, exponent, hlen, List.take_append_drop]
  simp

theorem isMagnitude_point {k : ℕ} {ds : Str} (hds : ∀ c ∈ ds, c.isDigit = true) (hne : ds ≠ []) :
    isMagnitude (point k ds) = true := by
  obtain ⟨hwhole, hfrac⟩ := span_point (k := k) hds
  simp only [isMagnitude, hwhole, hfrac, isExponent, List.take_append_drop, Bool.and_true]
  simpa using hne

theorem natOf_leftpad (k n : ℕ) : natOf ((Nat.toDigits 10 n).leftpad k '0') = n := by
  rw [natOf, List.leftpad, Nat.ofDigitChars_append, Nat.ofDigitChars_replicate_zero, Nat.mul_zero,
    Nat.ofDigitChars_ten_toDigits]

theorem isDigit_of_mem_leftpad {k n : ℕ} {c : Char} (h : c ∈ (Nat.toDigits 10 n).leftpad k '0') :
    c.isDigit = true := by
  rw [List.leftpad, List.mem_append, List.mem_replicate] at h
  rcases h with ⟨-, rfl⟩ | h
  · rfl
  · exact Nat.isDigit_of_mem_toDigits (by omega) (by omega) h

theorem lt_length_leftpad (k n : ℕ) : k < ((Nat.toDigits 10 n).leftpad (k + 1) '0').length := by
  rw [List.length_leftpad]
  omega

theorem magnitude_pointed (k n : ℕ) : magnitude (pointed k n) = (n, k) := by
  rw [pointed, magnitude_point (fun _ hc => isDigit_of_mem_leftpad hc) (lt_length_leftpad k n).le, natOf_leftpad]

theorem mem_pointed {k n : ℕ} {c : Char} (h : c ∈ pointed k n) : c.isDigit = true ∨ c = '.' := by
  rw [pointed, point, List.mem_append, List.mem_cons] at h
  rcases h with h | rfl | h
  · exact .inl (isDigit_of_mem_leftpad (List.mem_of_mem_take h))
  · exact .inr rfl
  · exact .inl (isDigit_of_mem_leftpad (List.mem_of_mem_drop h))

theorem pointed_ne_nil (k n : ℕ) : pointed k n ≠ [] := by simp [pointed, point]

theorem isMagnitude_pointed (k n : ℕ) : isMagnitude (pointed k n) = true :=
  isMagnitude_point (fun _ hc => isDigit_of_mem_leftpad hc)
    (List.ne_nil_of_length_pos ((Nat.zero_le k).trans_lt (lt_length_leftpad k n)))

/-- A number's text starts with a digit or the point, so neither with a blank nor with a sign. -/
theorem pointed_head (k n : ℕ) : ∃ c t, pointed k n = c :: t ∧ isSpace c = false ∧ c ≠ '-' ∧ c ≠ '+' := by
  obtain ⟨c, t, ht⟩ := List.exists_cons_of_ne_nil (pointed_ne_nil k n)
  have hc : c.isDigit = true ∨ c = '.' := mem_pointed (ht ▸ List.mem_cons_self)
  refine ⟨c, t, ht, ?_, ?_, ?_⟩
  · rw [isSpace, decide_eq_false_iff_not]
    intro hmem
    simp only [List.mem_cons, List.not_mem_nil, or_false] at hmem
    rcases hmem with rfl | rfl | rfl | rfl | rfl | rfl <;> simp at hc
  · intro heq
    subst heq
    simp at hc
  · intro heq
    subst heq
    simp at hc

theorem scan_signed (m : ℤ) (k n : ℕ) :
    scan (signed m (pointed k n)) = ⟨if m < 0 then -n else n, k⟩ := by
  have hmag := magnitude_pointed k n
  rw [signed]
  split
  · rw [scan, List.dropWhile_cons_of_neg (by decide)]
    simp only [hmag]
  · obtain ⟨c, t, ht, hspace, hminus, hplus⟩ := pointed_head k n
    rw [ht] at hmag ⊢
    rw [scan, List.dropWhile_cons_of_neg (by simp [hspace])]
    split
    · next h => exact absurd (List.cons.inj h).1 hminus
    · next h => exact absurd (List.cons.inj h).1 hplus
    · rw [hmag]

theorem isNumber_signed (m : ℤ) (k n : ℕ) : isNumber (signed m (pointed k n)) = true := by
  have hmag := isMagnitude_pointed k n
  rw [signed]
  split
  · exact hmag
  · obtain ⟨c, t, ht, -, hminus, hplus⟩ := pointed_head k n
    rw [ht] at hmag ⊢
    rw [isNumber]
    · exact hmag
    · intro t' h
      exact hminus (List.cons.inj h).1
    · intro t' h
      exact hplus (List.cons.inj h).1

theorem scan_print (x : Decimal) : scan x.print = x := by
  rw [print, scan_signed]
  obtain ⟨m, k⟩ := x
  simp only [Decimal.mk.injEq, and_true]
  split <;> omega

theorem read_toFixed (x : Decimal) : read x.toFixed = some x.round6 := by
  rw [read, toFixed, isNumber_signed, if_pos rfl, scan_signed]
  rfl

theorem read_print (x : Decimal) : read x.print = some x := by
  rw [read, scan_print, print, isNumber_signed, if_pos rfl]

theorem signed_ne_nil {m : ℤ} {t : Str} (h : t ≠ []) : signed m t ≠ [] := by
  rw [signed]
  split
  · simp
  · exact h

theorem isNumeral_signed (m : ℤ) (k n : ℕ) : IsNumeral (signed m (pointed k n)) := by
  have hdigit {c : Char} (h : c.isDigit = true ∨ c = '.') :
      c.isAlphanum = true ∨ c = '-' ∨ c = '+' ∨ c = '.' := by
    rcases h with h | h
    · exact .inl (by simp [Char.isAlphanum, h])
    · exact .inr (.inr (.inr h))
  intro c hc
  rw [signed] at hc
  split at hc
  · rcases List.mem_cons.mp hc with rfl | hc
    · exact .inr (.inl rfl)
    · exact hdigit (mem_pointed hc)
  · exact hdigit (mem_pointed hc)

/-! ## The rounding -/

theorem roundDiv_nearest {a b : ℕ} (hb : 0 < b) : |(roundDiv a b : ℚ) - a / b| ≤ 1 / 2 := by
  have hb' : (0 : ℚ) < b := by exact_mod_cast hb
  have hdiv : (a : ℚ) = b * (a / b : ℕ) + (a % b : ℕ) := by exact_mod_cast (Nat.div_add_mod a b).symm
  have hmod : ((a % b : ℕ) : ℚ) < b := by exact_mod_cast Nat.mod_lt a hb
  have hmod₀ : (0 : ℚ) ≤ (a % b : ℕ) := by positivity
  have hval : (a : ℚ) / b = (a / b : ℕ) + (a % b : ℕ) / (b : ℚ) := by
    rw [hdiv]
    field_simp
  have hle {x y : ℚ} (h : |x * b| ≤ y * b) : |x| ≤ y := by
    rwa [abs_mul, abs_of_pos hb', mul_le_mul_iff_left₀ hb'] at h
  apply hle
  rw [hval]
  have hcast : ∀ q : ℕ, ((q : ℚ) - ((a / b : ℕ) + (a % b : ℕ) / (b : ℚ))) * b =
      ((q : ℚ) - (a / b : ℕ)) * b - (a % b : ℕ) := by
    intro q
    field_simp
    ring
  rw [hcast, abs_le]
  have h2 : ((2 * (a % b) : ℕ) : ℚ) = 2 * ((a % b : ℕ) : ℚ) := by push_cast; ring
  simp only [roundDiv]
  split
  · next h =>
    have h : ((2 * (a % b) : ℕ) : ℚ) < b := by exact_mod_cast h
    constructor <;> linarith
  · next h =>
    have h : (b : ℚ) ≤ ((2 * (a % b) : ℕ) : ℚ) := by exact_mod_cast not_lt.mp h
    split
    · push_cast
      constructor <;> linarith
    · next h' =>
      have h' : ((2 * (a % b) : ℕ) : ℚ) ≤ b := by exact_mod_cast not_lt.mp h'
      split
      · constructor <;> linarith
      · push_cast
        constructor <;> linarith

/-- `round6` moves a number by half a millionth at most. -/
theorem abs_round6_sub_le (x : Decimal) : |x.round6.value - x.value| ≤ 1 / (2 * 10 ^ 6) := by
  have hnear := roundDiv_nearest (a := x.mant.natAbs * 10 ^ 6) (b := 10 ^ x.scale) (by positivity)
  have hscale : (0 : ℚ) < 10 ^ x.scale := by positivity
  have habs : |(x.millionths : ℚ) / 10 ^ 6 - x.mant.natAbs / 10 ^ x.scale| ≤ 1 / (2 * 10 ^ 6) := by
    have hsplit : (x.millionths : ℚ) / 10 ^ 6 - x.mant.natAbs / 10 ^ x.scale =
        (x.millionths - (x.mant.natAbs * 10 ^ 6 : ℕ) / (10 ^ x.scale : ℕ)) / 10 ^ 6 := by
      push_cast
      field_simp
      ring
    rw [hsplit, abs_div, abs_of_pos (by positivity : (0 : ℚ) < 10 ^ 6), millionths, div_le_iff₀ (by positivity)]
    refine hnear.trans (le_of_eq ?_)
    norm_num
  rw [value, value, round6]
  by_cases hm : x.mant < 0
  · have hmant : (x.mant : ℚ) = -(x.mant.natAbs : ℚ) := by
      rw [← Int.cast_natCast, ← Int.cast_neg, Int.cast_inj]
      omega
    rw [← abs_neg]
    refine le_of_eq_of_le (congrArg _ ?_) habs
    rw [if_pos hm, hmant, Int.cast_neg, Int.cast_natCast]
    ring
  · have hmant : (x.mant : ℚ) = (x.mant.natAbs : ℚ) := by
      rw [← Int.cast_natCast, Int.cast_inj]
      omega
    rw [if_neg hm, hmant, Int.cast_natCast]
    exact habs

/-- Six digits are enough for a whole number of millionths. -/
theorem value_round6 {x : Decimal} (h : ∃ n : ℤ, x.value = n / 10 ^ 6) : x.round6.value = x.value := by
  obtain ⟨n, hn⟩ := h
  have hle := abs_round6_sub_le x
  have hround : x.round6.value = (x.round6.mant : ℚ) / 10 ^ 6 := rfl
  have hpos : (0 : ℚ) < 10 ^ 6 := by norm_num
  rw [hround, hn] at hle ⊢
  rw [← sub_div, abs_div, abs_of_pos hpos, div_le_div_iff₀ hpos (by norm_num)] at hle
  have hlt : |(x.round6.mant - n : ℤ)| < 1 := by
    have : |((x.round6.mant - n : ℤ) : ℚ)| < 1 := by
      push_cast
      linarith
    exact_mod_cast this
  have hzero : x.round6.mant = n := by
    rw [Int.abs_lt_one_iff] at hlt
    omega
  rw [hzero]

theorem value_round6_iff (x : Decimal) : x.round6.value = x.value ↔ ∃ n : ℤ, x.value = n / 10 ^ 6 :=
  ⟨fun h => ⟨x.round6.mant, h.symm⟩, value_round6⟩

end Decimal

/-- A serialiser whose numbers read as what they were. -/
structure DecimalPrinter extends Json.Printer Decimal where
  read_num : ∀ x, ∃ y, Decimal.read (num x) = some y ∧ y.value = x.value

/-- Exact decimals as a program's numbers. -/
def DecimalPrinter.doubles (P : DecimalPrinter) : Doubles Decimal where
  toPrinter := P.toPrinter
  atof := Decimal.scan
  toString := Decimal.toFixed
  toString_ne_nil x := Decimal.signed_ne_nil (Decimal.pointed_ne_nil 6 x.millionths)
  toString_numeral x := Decimal.isNumeral_signed x.mant 6 x.millionths

/-- The serialiser that writes all digits. -/
def DecimalPrinter.allDigits : DecimalPrinter where
  toEscape := .json
  num := Decimal.print
  num_ne_nil x := Decimal.signed_ne_nil (Decimal.pointed_ne_nil x.scale x.mant.natAbs)
  num_numeral x := Decimal.isNumeral_signed x.mant x.scale x.mant.natAbs
  read_num x := ⟨x, Decimal.read_print x, rfl⟩

end Lib
