import Mathlib.Data.List.Induction
import Mathlib.Data.List.TakeWhile
import Mathlib.Tactic.Common
import Mathlib.Tactic.Ring

/-!
# Decimal numerals as byte strings

`decimal` prints a natural number without leading zeros, as `%u` does, and
`value` reads a digit string back. Appending one digit on the right is the
recursion both follow, so every fact below is an induction on `n / 10`.
-/
namespace Passe.Decimal

def isDigit (c : UInt8) : Bool := decide (48 ≤ c.toNat) && decide (c.toNat ≤ 57)

def digit (d : ℕ) : UInt8 := UInt8.ofNat (48 + d)

/-- The shortest decimal numeral of `n`, as every printing function of the two languages writes
it. -/
def decimal (n : ℕ) : List UInt8 := (Nat.toDigits 10 n).map fun c => UInt8.ofNat c.toNat

/-- The number a digit string denotes, most significant digit first. It is defined on every byte
string and means something on digits only. -/
def value (ds : List UInt8) : ℕ := ds.foldl (fun v d => 10 * v + (d.toNat - 48)) 0

theorem isDigit_iff (c : UInt8) : isDigit c = true ↔ 48 ≤ c.toNat ∧ c.toNat ≤ 57 := by
  simp [isDigit]

@[simp] theorem toNat_digit {d : ℕ} (h : d < 10) : (digit d).toNat = 48 + d := by
  simp only [digit, UInt8.toNat_ofNat']
  omega

theorem isDigit_digit {d : ℕ} (h : d < 10) : isDigit (digit d) = true := by
  rw [isDigit_iff, toNat_digit h]
  omega

theorem digit_sub {c : UInt8} (h : isDigit c = true) : digit (c.toNat - 48) = c := by
  rw [isDigit_iff] at h
  rw [digit, show 48 + (c.toNat - 48) = c.toNat by omega, UInt8.ofNat_toNat]

/-- The number a digit stands for, as C computes it. -/
theorem toNat_sub_of_isDigit {c : UInt8} (h : isDigit c = true) :
    (c - 48).toNat = c.toNat - 48 :=
  UInt8.toNat_sub_of_le _ _ (UInt8.le_iff_toNat_le.mpr ((isDigit_iff c).mp h).1)

private theorem digitChar_byte {d : ℕ} (h : d < 10) :
    UInt8.ofNat (Nat.digitChar d).toNat = digit d := by
  rw [Nat.toNat_digitChar_of_lt_ten h, digit]

theorem decimal_of_lt {n : ℕ} (h : n < 10) : decimal n = [digit n] := by
  rw [decimal, Nat.toDigits_of_lt_base h, List.map_singleton, digitChar_byte h]

theorem decimal_of_ge {n : ℕ} (h : 10 ≤ n) :
    decimal n = decimal (n / 10) ++ [digit (n % 10)] := by
  rw [decimal, Nat.toDigits_of_base_le (by omega) h, List.map_append, List.map_singleton,
    digitChar_byte (by omega), decimal]

@[simp] theorem value_nil : value [] = 0 := rfl

/-- Reading further digits never makes the value smaller. -/
theorem le_foldl_digits (ds : List UInt8) (acc : ℕ) :
    acc ≤ ds.foldl (fun v d => 10 * v + (d.toNat - 48)) acc := by
  induction ds generalizing acc with
  | nil => exact Nat.le_refl acc
  | cons d ds ih =>
    have := ih (10 * acc + (d.toNat - 48))
    rw [List.foldl_cons]
    omega

theorem value_append_digit (ds : List UInt8) {d : ℕ} (h : d < 10) :
    value (ds ++ [digit d]) = 10 * value ds + d := by
  simp only [value, List.foldl_append, List.foldl_cons, List.foldl_nil, toNat_digit h]
  omega

theorem isDigit_of_mem_decimal {n : ℕ} {c : UInt8} (hc : c ∈ decimal n) : isDigit c = true := by
  induction n using Nat.strong_induction_on with
  | _ n ih =>
    by_cases hn : n < 10
    · rw [decimal_of_lt hn, List.mem_singleton] at hc
      exact hc ▸ isDigit_digit hn
    · rw [decimal_of_ge (by omega), List.mem_append, List.mem_singleton] at hc
      rcases hc with hc | rfl
      · exact ih (n / 10) (by omega) hc
      · exact isDigit_digit (by omega)

/-- Reading a printed number gives it back. This is what ties the parsers of the library to its
printers. -/
@[simp] theorem value_decimal (n : ℕ) : value (decimal n) = n := by
  induction n using Nat.strong_induction_on with
  | _ n ih =>
    by_cases hn : n < 10
    · rw [decimal_of_lt hn, ← List.nil_append [digit n], value_append_digit [] hn]
      simp
    · rw [decimal_of_ge (by omega), value_append_digit _ (by omega), ih (n / 10) (by omega)]
      omega

/-- Digits that do not start with zero denote a positive number. -/
theorem value_pos {ds : List UInt8} (hds : ∀ c ∈ ds, isDigit c = true) (hne : ds ≠ [])
    (hzero : ds.head? ≠ some (digit 0)) : 0 < value ds := by
  cases ds with
  | nil => exact absurd rfl hne
  | cons c ds =>
    have hc := (isDigit_iff c).mp (hds c List.mem_cons_self)
    have hc0 : c.toNat ≠ 48 := by
      intro h
      exact hzero (congrArg some (UInt8.toNat_inj.mp (h.trans (toNat_digit (d := 0) (by decide)).symm)))
    have hle := le_foldl_digits ds (10 * 0 + (c.toNat - 48))
    rw [value, List.foldl_cons]
    omega

/-- Digits without a superfluous zero are the numeral of the number they denote. -/
theorem decimal_value {ds : List UInt8} (hds : ∀ c ∈ ds, isDigit c = true) (hne : ds ≠ [])
    (hzero : ds.head? = some (digit 0) → ds.length = 1) : decimal (value ds) = ds := by
  induction ds using List.reverseRecOn with
  | nil => exact absurd rfl hne
  | append_singleton ds c ih =>
    have hc := hds c (by simp)
    have hcrange := (isDigit_iff c).mp hc
    have hprefix : ∀ c' ∈ ds, isDigit c' = true := fun c' hc' =>
      hds c' (List.mem_append_left _ hc')
    have hvalue : value (ds ++ [c]) = 10 * value ds + (c.toNat - 48) := by
      have h := value_append_digit ds (d := c.toNat - 48) (by omega)
      rwa [digit_sub hc] at h
    rw [hvalue]
    by_cases hds0 : ds = []
    · subst hds0
      rw [value_nil, decimal_of_lt (by omega), Nat.mul_zero, Nat.zero_add, digit_sub hc]
      rfl
    · have hhead : ds.head? ≠ some (digit 0) := by
        intro h
        have hlength := hzero (by rw [List.head?_append, h]; rfl)
        rw [List.length_append, List.length_singleton] at hlength
        exact hds0 (List.length_eq_zero_iff.mp (by omega))
      have hpos := value_pos hprefix hds0 hhead
      rw [decimal_of_ge (by omega),
        show (10 * value ds + (c.toNat - 48)) / 10 = value ds by omega,
        show (10 * value ds + (c.toNat - 48)) % 10 = c.toNat - 48 by omega,
        ih hprefix hds0 fun h => absurd h hhead, digit_sub hc]

/-- A numeral has a first digit, and it is zero for the number zero only. -/
theorem exists_decimal_eq_cons (n : ℕ) :
    ∃ d ds, decimal n = digit d :: ds ∧ d < 10 ∧ (d = 0 → n = 0) := by
  induction n using Nat.strong_induction_on with
  | _ n ih =>
    by_cases hn : n < 10
    · exact ⟨n, [], decimal_of_lt hn, hn, id⟩
    · obtain ⟨d, ds, hprefix, hd, hzero⟩ := ih (n / 10) (by omega)
      refine ⟨d, ds ++ [digit (n % 10)], ?_, hd, fun h0 => ?_⟩
      · rw [decimal_of_ge (by omega), hprefix, List.cons_append]
      · have := hzero h0
        omega

/-- `k` digits are enough exactly below the `k`-th power of ten. -/
theorem length_decimal_le_iff {n k : ℕ} (hk : 0 < k) :
    (decimal n).length ≤ k ↔ n < 10 ^ k := by
  rw [decimal, List.length_map, Nat.length_toDigits_le_iff (by omega) hk]

theorem length_decimal_succ {n : ℕ} (h : 10 ≤ n) :
    (decimal n).length = (decimal (n / 10)).length + 1 := by
  rw [decimal_of_ge h, List.length_append, List.length_singleton]

/-- A number below ten has one digit. -/
theorem length_decimal_of_lt {n : ℕ} (h : n < 10) : (decimal n).length = 1 := by
  rw [decimal_of_lt h, List.length_singleton]

/-- A numeral followed by a byte that is no digit is cut off at its end. -/
theorem takeWhile_decimal_append (n : ℕ) {rest : List UInt8}
    (hrest : ∀ c, rest.head? = some c → isDigit c = false) :
    (decimal n ++ rest).takeWhile isDigit = decimal n := by
  rw [List.takeWhile_append_of_pos fun c hc => isDigit_of_mem_decimal hc]
  cases rest with
  | nil => simp
  | cons c rest => simp [hrest c rfl]

theorem dropWhile_decimal_append (n : ℕ) {rest : List UInt8}
    (hrest : ∀ c, rest.head? = some c → isDigit c = false) :
    (decimal n ++ rest).dropWhile isDigit = rest := by
  rw [List.dropWhile_append_of_pos fun c hc => isDigit_of_mem_decimal hc]
  cases rest with
  | nil => simp
  | cons c rest => simp [hrest c rfl]

/-- `%2.2u`: a numeral padded on the left with zeros to two digits. -/
def padTwo (n : ℕ) : List UInt8 := List.leftpad 2 (digit 0) (decimal n)

/-- `%d` and `%0wd`: the sign counts towards the width and stands before the zeros. -/
def sprintfInt (width : ℕ) (n : ℤ) : List UInt8 :=
  if n < 0 then UInt8.ofNat '-'.toNat :: List.leftpad (width - 1) (digit 0) (decimal n.natAbs)
  else List.leftpad width (digit 0) (decimal n.natAbs)

/-- A natural number has no sign. -/
@[simp] theorem sprintfInt_two (n : ℕ) : sprintfInt 2 n = padTwo n := if_neg (by omega)

theorem padTwo_eq {n : ℕ} (h : n < 100) : padTwo n = [digit (n / 10), digit (n % 10)] := by
  by_cases hn : n < 10
  · rw [padTwo, decimal_of_lt hn, show n / 10 = 0 by omega, show n % 10 = n by omega]
    rfl
  · rw [padTwo, decimal_of_ge (by omega), decimal_of_lt (by omega : n / 10 < 10)]
    rfl

@[simp] theorem length_padTwo {n : ℕ} (h : n < 100) : (padTwo n).length = 2 := by
  rw [padTwo_eq h]
  rfl

theorem value_pair (c d : UInt8) : value [c, d] = 10 * (c.toNat - 48) + (d.toNat - 48) := by
  rw [value, List.foldl_cons, List.foldl_cons, List.foldl_nil]
  omega

@[simp] theorem value_padTwo {n : ℕ} (h : n < 100) : value (padTwo n) = n := by
  rw [padTwo_eq h, value_pair, toNat_digit (by omega), toNat_digit (by omega)]
  omega

theorem padTwo_injective {m n : ℕ} (hm : m < 100) (hn : n < 100) (h : padTwo m = padTwo n) :
    m = n := by
  rw [← value_padTwo hm, h, value_padTwo hn]

/-- Two digits are the padded numeral of their value. -/
theorem padTwo_value {c d : UInt8} (hc : isDigit c = true) (hd : isDigit d = true) :
    padTwo (value [c, d]) = [c, d] := by
  have hcrange := (isDigit_iff c).mp hc
  have hdrange := (isDigit_iff d).mp hd
  rw [value_pair, padTwo_eq (by omega),
    show (10 * (c.toNat - 48) + (d.toNat - 48)) / 10 = c.toNat - 48 by omega,
    show (10 * (c.toNat - 48) + (d.toNat - 48)) % 10 = d.toNat - 48 by omega,
    digit_sub hc, digit_sub hd]

end Passe.Decimal
