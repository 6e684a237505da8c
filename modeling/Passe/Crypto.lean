import Passe.Buffer
import Passe.Runtime
import Mathlib.Data.Nat.Bitwise

/-!
# Comparing without an early exit

`Crypto.constant_time_equal` seeds an accumulator with the difference of the
lengths and collects the difference of every common position. Lengths and
character codes are non-negative, so natural numbers stand for OCaml's integers.
-/
namespace Passe.Crypto

/-- `Char.code (String.get s i)`. -/
def charCode (s : Bytes) (i : ℕ) : ℕ := (s.getD i 0).toNat

def constantTimeEqual (a b : Bytes) : Bool :=
  let len_a := a.length
  let len_b := b.length
  let min_len := min len_a len_b
  let result := (List.range min_len).foldl
    (fun result i => result ||| (charCode a i ^^^ charCode b i)) (len_a ^^^ len_b)
  result == 0

/-- The accumulator after the first `k` rounds of the loop. The loop has no way out, so every
byte is looked at. -/
def accumulator (a b : Bytes) (k : ℕ) : ℕ :=
  (List.range k).foldl (fun result i => result ||| (charCode a i ^^^ charCode b i))
    (a.length ^^^ b.length)

section Loop
variable (a b : Bytes) (k : ℕ)

theorem constantTimeEqual_eq_accumulator :
    constantTimeEqual a b = (accumulator a b (min a.length b.length) == 0) := rfl

@[simp] theorem accumulator_zero : accumulator a b 0 = a.length ^^^ b.length := rfl

@[simp] theorem accumulator_succ :
    accumulator a b (k + 1) = accumulator a b k ||| (charCode a k ^^^ charCode b k) := by
  unfold accumulator
  rw [List.range_succ, List.foldl_append, List.foldl_cons, List.foldl_nil]

/-- A bit is set once the lengths or the bytes of some round differ there, and no
later round clears it. -/
theorem testBit_accumulator (j : ℕ) :
    (accumulator a b k).testBit j = true ↔
      a.length.testBit j ≠ b.length.testBit j ∨
        ∃ i < k, (charCode a i).testBit j ≠ (charCode b i).testBit j := by
  induction k with
  | zero => simp
  | succ k ih =>
    rw [accumulator_succ, Nat.testBit_or, Bool.or_eq_true, ih, Nat.testBit_xor, bne_iff_ne,
      or_assoc]
    apply or_congr_right
    constructor
    · rintro (⟨i, hi, hne⟩ | hne)
      · exact ⟨i, by omega, hne⟩
      · exact ⟨k, by omega, hne⟩
    · rintro ⟨i, hi, hne⟩
      rcases Nat.lt_succ_iff_lt_or_eq.mp hi with hlt | rfl
      · exact .inl ⟨i, hlt, hne⟩
      · exact .inr hne

/-- The loop invariant: nothing is collected as long as nothing differs. -/
theorem accumulator_eq_zero_iff :
    accumulator a b k = 0 ↔ a.length = b.length ∧ ∀ i < k, charCode a i = charCode b i := by
  have hfold := foldl_or_eq_zero_iff (fun _ _ => Nat.or_eq_zero_iff)
    (fun i => charCode a i ^^^ charCode b i) (List.range k) (a.length ^^^ b.length)
  unfold accumulator
  rw [hfold, Nat.xor_eq_zero_iff]
  simp

end Loop

theorem charCode_eq_iff {a b : Bytes} {i : ℕ} (ha : i < a.length) (hb : i < b.length) :
    charCode a i = charCode b i ↔ a[i] = b[i] := by
  unfold charCode
  rw [UInt8.toNat_inj, List.getD_eq_getElem _ _ ha, List.getD_eq_getElem _ _ hb]

/-- No combination of differences cancels: the loop decides equality. -/
@[simp] theorem constantTimeEqual_eq (a b : Bytes) : constantTimeEqual a b = decide (a = b) := by
  rw [constantTimeEqual_eq_accumulator, Bool.eq_iff_iff, decide_eq_true_iff, beq_iff_eq,
    accumulator_eq_zero_iff]
  constructor
  · rintro ⟨hlen, hall⟩
    apply List.ext_getElem hlen
    intro i hia hib
    exact (charCode_eq_iff hia hib).mp (hall i (by omega))
  · rintro rfl
    exact ⟨rfl, fun i _ => rfl⟩

/-- The comparison accepts exactly equal lengths and equal bytes, and its
accumulator keeps every bit in which a length or a byte ever differed. -/
theorem constantTimeEqual_exact (a b : Bytes) :
    (constantTimeEqual a b = true ↔
      a.length = b.length ∧ ∀ i, (ha : i < a.length) → (hb : i < b.length) → a[i] = b[i]) ∧
    ∀ k j, (accumulator a b k).testBit j = true ↔
      a.length.testBit j ≠ b.length.testBit j ∨
        ∃ i < k, (charCode a i).testBit j ≠ (charCode b i).testBit j := by
  refine ⟨?_, fun k j => testBit_accumulator a b k j⟩
  rw [constantTimeEqual_eq, decide_eq_true_iff]
  constructor
  · rintro rfl
    exact ⟨rfl, fun i _ _ => rfl⟩
  · rintro ⟨hlen, hall⟩
    exact List.ext_getElem hlen hall

end Passe.Crypto
