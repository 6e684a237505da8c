import Passe.Radix64
import Passe.Runtime

/-!
# The base64 dialect of bcrypt

`passe_encode_base64` and `decode_base64` walk their input in groups and may
leave the loop in the middle of one. Both are tied to the regrouping of
`Radix64` over bcrypt's own alphabet, so the two loops agree with each other
because each agrees with the regrouping.
-/
namespace Passe.Bcrypt
open Radix64

/-- `Base64Code`, the digits in their order. It is not the usual alphabet: the dot and the slash
come first. -/
def base64Code : Bytes :=
  ascii "./ABCDEFGHIJKLMNOPQRSTUVWXYZabcdefghijklmnopqrstuvwxyz0123456789"

def base64Char (i : UInt8) : UInt8 := base64Code.getD i.toNat 0

/-- `index_64`: the digit of a character, with 255 for the characters outside the alphabet. -/
def index64 : List UInt8 := [
  255, 255, 255, 255, 255, 255, 255, 255, 255, 255, 255, 255, 255, 255, 255,
  255, 255, 255, 255, 255, 255, 255, 255, 255, 255, 255, 255, 255, 255, 255,
  255, 255, 255, 255, 255, 255, 255, 255, 255, 255, 255, 255, 255, 255, 255,
  255, 0, 1, 54, 55, 56, 57, 58, 59, 60, 61, 62, 63, 255, 255,
  255, 255, 255, 255, 255, 2, 3, 4, 5, 6, 7, 8, 9, 10, 11,
  12, 13, 14, 15, 16, 17, 18, 19, 20, 21, 22, 23, 24, 25, 26,
  27, 255, 255, 255, 255, 255, 255, 28, 29, 30, 31, 32, 33, 34, 35,
  36, 37, 38, 39, 40, 41, 42, 43, 44, 45, 46, 47, 48, 49, 50,
  51, 52, 53, 255, 255, 255, 255, 255]

/-- The macro `CHAR64(c)`. Its range check keeps the lookup inside the 128 entries of the table.
-/
def char64 (c : UInt8) : UInt8 := if c > 127 then 255 else index64.getD c.toNat 255

/-- `passe_encode_base64`: the characters written before the terminator. -/
def encodeBase64 : Bytes → Bytes
  | [] => []
  | [a] => [base64Char (a >>> 2), base64Char ((a &&& 0x03) <<< 4)]
  | [a, b] =>
    [base64Char (a >>> 2), base64Char (((a &&& 0x03) <<< 4) ||| ((b >>> 4) &&& 0x0f)),
      base64Char ((b &&& 0x0f) <<< 2)]
  | a :: b :: c :: rest =>
    base64Char (a >>> 2) :: base64Char (((a &&& 0x03) <<< 4) ||| ((b >>> 4) &&& 0x0f)) ::
      base64Char (((b &&& 0x0f) <<< 2) ||| ((c >>> 6) &&& 0x03)) ::
        base64Char (c &&& 0x3f) :: encodeBase64 rest

/-- `c = CHAR64(*(p + i)); if (c == 255) return -1;` as one step that either gives a digit or
ends the decoding. -/
def digitAt (p : Bytes) (i : ℕ) : Option UInt8 :=
  let c := char64 (deref p i)
  if c = 255 then none else some c

/-- `decode_base64` with `len` bytes still to be written. Leaving the loop once
the buffer is full is the choice between the three group lengths. -/
def decodeBase64 : ℕ → Bytes → Option Bytes
  | 0, _ => some []
  | 1, p => do
    let c1 ← digitAt p 0
    let c2 ← digitAt p 1
    return [(c1 <<< 2) ||| ((c2 &&& 0x30) >>> 4)]
  | 2, p => do
    let c1 ← digitAt p 0
    let c2 ← digitAt p 1
    let c3 ← digitAt p 2
    return [(c1 <<< 2) ||| ((c2 &&& 0x30) >>> 4),
      ((c2 &&& 0x0f) <<< 4) ||| ((c3 &&& 0x3c) >>> 2)]
  | len + 3, p => do
    let c1 ← digitAt p 0
    let c2 ← digitAt p 1
    let c3 ← digitAt p 2
    let c4 ← digitAt p 3
    let rest ← decodeBase64 len (p.drop 4)
    return ((c1 <<< 2) ||| ((c2 &&& 0x30) >>> 4)) ::
      (((c2 &&& 0x0f) <<< 4) ||| ((c3 &&& 0x3c) >>> 2)) ::
        (((c3 &&& 0x03) <<< 6) ||| c4) :: rest

private theorem char64_base64Char :
    ∀ d : Fin 64, char64 (base64Char (UInt8.ofNat d.val)) = UInt8.ofNat d.val := by
  decide +kernel

private theorem base64Char_char64 : ∀ c : UInt8, char64 c = 255 ∨
    (char64 c).toNat < 64 ∧ base64Char (char64 c) = c := by
  decide +kernel

/-- The two tables of the source as one alphabet: each is the inverse of the other, which is
checked here once for all. -/
def alphabet : Alphabet where
  code d := base64Char (UInt8.ofNat d.val)
  index c := if h : (char64 c).toNat < 64 then some ⟨(char64 c).toNat, h⟩ else none
  index_code d := by
    have hd := d.isLt
    simp only [char64_base64Char, ofNat_val_toNat, d.isLt, dif_pos]
  code_of_index c d h := by
    split at h
    · next hlt =>
      obtain rfl := Option.some.inj h
      simp only [UInt8.ofNat_toNat]
      rcases base64Char_char64 c with h255 | ⟨-, hc⟩
      · simp [h255] at hlt
      · exact hc
    · exact absurd h (by simp)

theorem alphabet_code (d : Fin 64) : alphabet.code d = base64Char (UInt8.ofNat d.val) := rfl

@[simp] theorem char64_code (d : Fin 64) : char64 (alphabet.code d) = UInt8.ofNat d.val :=
  char64_base64Char d

/-- The terminator is no alphabet character, so the decoder never reads past the end of its
text. -/
@[simp] theorem index_zero : alphabet.index 0 = none := rfl

theorem base64Code_eq : base64Code = (List.finRange 64).map alphabet.code := by
  have hlength : base64Code.length = 64 := rfl
  apply List.ext_getElem
  · rw [List.length_map, List.length_finRange, hlength]
  · intro i hi _
    rw [List.getElem_map, List.getElem_finRange, alphabet_code, base64Char, ofNat_val_toNat]
    exact (List.getD_eq_getElem _ _ hi).symm

@[simp] theorem mem_base64Code_iff (c : UInt8) : c ∈ base64Code ↔ ∃ d, alphabet.code d = c := by
  simp [base64Code_eq]

/-- A text over the alphabet is the image of its digits, and a text with another character is
the image of none. -/
theorem exists_map_code_iff {cs : Bytes} :
    (∃ ss : List (Fin 64), ss.map alphabet.code = cs) ↔ ∀ c ∈ cs, c ∈ base64Code := by
  rw [← Set.mem_range, Set.range_list_map, Set.mem_ofPred_eq]
  exact forall₂_congr fun c _ => (mem_base64Code_iff c).symm

theorem notMem_zero_encode (bs : Bytes) : 0 ∉ alphabet.encode bs :=
  (alphabet.encode_spells bs).notMem index_zero

section Fields
variable (a : UInt8)

private theorem toNat_shiftRight_two : (a >>> 2).toNat = a.toNat / 4 :=
  toNat_shiftRight_ofNat a (by decide : 2 < 8)

private theorem toNat_low_two : ((a &&& 0x03) <<< 4).toNat = a.toNat % 4 * 16 := by
  have h := toNat_shiftLeft_ofNat (a &&& 0x03) (by decide : 4 < 8)
  rw [toNat_and_mask a 2 rfl] at h
  exact h.trans (by omega)

private theorem toNat_high_four : ((a >>> 4) &&& 0x0f).toNat = a.toNat / 16 := by
  have ha := a.toNat_lt
  have h : (a >>> 4).toNat = a.toNat / 16 := toNat_shiftRight_ofNat a (by decide : 4 < 8)
  rw [toNat_and_mask _ 4 rfl, h]
  omega

private theorem toNat_low_four : ((a &&& 0x0f) <<< 2).toNat = a.toNat % 16 * 4 := by
  have h := toNat_shiftLeft_ofNat (a &&& 0x0f) (by decide : 2 < 8)
  rw [toNat_and_mask a 4 rfl] at h
  exact h.trans (by omega)

private theorem toNat_high_two : ((a >>> 6) &&& 0x03).toNat = a.toNat / 64 := by
  have ha := a.toNat_lt
  have h : (a >>> 6).toNat = a.toNat / 64 := toNat_shiftRight_ofNat a (by decide : 6 < 8)
  rw [toNat_and_mask _ 2 rfl, h]
  omega

private theorem toNat_low_six : (a &&& 0x3f).toNat = a.toNat % 64 :=
  toNat_and_mask a 6 rfl

/-- The middle bits of a digit: the mask commutes with the shift. -/
private theorem toNat_middle (mask mask' : UInt8) {n : ℕ} (k : ℕ) (hn : n < 8)
    (hmask : mask >>> UInt8.ofNat n = mask') (hmask' : mask'.toNat = 2 ^ k - 1) :
    ((a &&& mask) >>> UInt8.ofNat n).toNat = a.toNat / 2 ^ n % 2 ^ k := by
  rw [toNat_shiftRight_ofNat _ hn, UInt8.toNat_and, ← Nat.shiftRight_eq_div_pow,
    Nat.shiftRight_and_distrib, Nat.shiftRight_eq_div_pow, Nat.shiftRight_eq_div_pow,
    ← toNat_shiftRight_ofNat mask hn, hmask, hmask', Nat.and_two_pow_sub_one_eq_mod]

end Fields

private theorem base64Char_eq_code {i : UInt8} {n : ℕ} (h : i.toNat = n) (hn : n < 64) :
    base64Char i = alphabet.code (Fin.ofNat 64 n) := by
  rw [alphabet_code, Fin.val_ofNat, Nat.mod_eq_of_lt hn, ← h, UInt8.ofNat_toNat]

private theorem first_digit (a : UInt8) :
    base64Char (a >>> 2) = alphabet.code (Fin.ofNat 64 (a.toNat / 4)) := by
  have ha := a.toNat_lt
  exact base64Char_eq_code (toNat_shiftRight_two a) (by omega)

private theorem second_digit (a b : UInt8) :
    base64Char (((a &&& 0x03) <<< 4) ||| ((b >>> 4) &&& 0x0f)) =
      alphabet.code (Fin.ofNat 64 (a.toNat % 4 * 16 + b.toNat / 16)) := by
  have hb := b.toNat_lt
  apply base64Char_eq_code _ (by omega)
  rw [toNat_or_of_lt (k := 4) (m := a.toNat % 4) (by rw [toNat_low_two]; omega)
    (by rw [toNat_high_four]; omega), toNat_low_two, toNat_high_four]

private theorem third_digit (b c : UInt8) :
    base64Char (((b &&& 0x0f) <<< 2) ||| ((c >>> 6) &&& 0x03)) =
      alphabet.code (Fin.ofNat 64 (b.toNat % 16 * 4 + c.toNat / 64)) := by
  have hc := c.toNat_lt
  apply base64Char_eq_code _ (by omega)
  rw [toNat_or_of_lt (k := 2) (m := b.toNat % 16) (by rw [toNat_low_four]; omega)
    (by rw [toNat_high_two]; omega), toNat_low_four, toNat_high_two]

/-- The encoder of the source is the regrouping followed by the table lookup. -/
theorem encodeBase64_eq (bs : Bytes) : encodeBase64 bs = alphabet.encode bs := by
  unfold Alphabet.encode
  induction bs using encodeBase64.induct with
  | case1 => rfl
  | case2 a =>
    have ha := a.toNat_lt
    simp [encodeBase64, sextets, first_digit, base64Char_eq_code (toNat_low_two a) (by omega)]
  | case3 a b =>
    have hb := b.toNat_lt
    simp [encodeBase64, sextets, first_digit, second_digit,
      base64Char_eq_code (toNat_low_four b) (by omega)]
  | case4 a b c rest ih =>
    simp [encodeBase64, sextets, first_digit, second_digit, third_digit,
      base64Char_eq_code (toNat_low_six c) (by omega), ih]

section Digits
variable (d : Fin 64)

private theorem digit_shiftLeft_two : (UInt8.ofNat d.val <<< 2).toNat = 2 ^ 2 * d.val := by
  have h := toNat_shiftLeft_ofNat (UInt8.ofNat d.val) (by decide : 2 < 8)
  rw [ofNat_val_toNat] at h
  exact h.trans (by omega)

private theorem digit_high_two : ((UInt8.ofNat d.val &&& 0x30) >>> 4).toNat = d.val / 16 := by
  have h := toNat_middle (UInt8.ofNat d.val) 0x30 0x03 2 (by decide : 4 < 8) rfl rfl
  rw [ofNat_val_toNat] at h
  exact h.trans (by omega)

private theorem digit_low_four :
    ((UInt8.ofNat d.val &&& 0x0f) <<< 4).toNat = 2 ^ 4 * (d.val % 16) := by
  have h := toNat_shiftLeft_ofNat (UInt8.ofNat d.val &&& 0x0f) (by decide : 4 < 8)
  rw [toNat_and_mask _ 4 rfl, ofNat_val_toNat] at h
  exact h.trans (by omega)

private theorem digit_high_four : ((UInt8.ofNat d.val &&& 0x3c) >>> 2).toNat = d.val / 4 := by
  have h := toNat_middle (UInt8.ofNat d.val) 0x3c 0x0f 4 (by decide : 2 < 8) rfl rfl
  rw [ofNat_val_toNat] at h
  exact h.trans (by omega)

private theorem digit_low_two :
    ((UInt8.ofNat d.val &&& 0x03) <<< 6).toNat = 2 ^ 6 * (d.val % 4) := by
  have h := toNat_shiftLeft_ofNat (UInt8.ofNat d.val &&& 0x03) (by decide : 6 < 8)
  rw [toNat_and_mask _ 2 rfl, ofNat_val_toNat] at h
  exact h.trans (by omega)

end Digits

private theorem eq_ofNat_of_toNat_eq {a : UInt8} {n : ℕ} (h : a.toNat = n) :
    a = UInt8.ofNat n := by
  rw [← h, UInt8.ofNat_toNat]

private theorem first_byte (s t : Fin 64) :
    (UInt8.ofNat s.val <<< 2) ||| ((UInt8.ofNat t.val &&& 0x30) >>> 4) =
      UInt8.ofNat (s.val * 4 + t.val / 16) := by
  apply eq_ofNat_of_toNat_eq
  rw [toNat_or_of_lt (digit_shiftLeft_two s) (by rw [digit_high_two]; omega),
    digit_shiftLeft_two, digit_high_two]
  omega

private theorem second_byte (t u : Fin 64) :
    ((UInt8.ofNat t.val &&& 0x0f) <<< 4) ||| ((UInt8.ofNat u.val &&& 0x3c) >>> 2) =
      UInt8.ofNat (t.val % 16 * 16 + u.val / 4) := by
  apply eq_ofNat_of_toNat_eq
  rw [toNat_or_of_lt (digit_low_four t) (by rw [digit_high_four]; omega),
    digit_low_four, digit_high_four]
  omega

private theorem third_byte (u v : Fin 64) :
    ((UInt8.ofNat u.val &&& 0x03) <<< 6) ||| UInt8.ofNat v.val =
      UInt8.ofNat (u.val % 4 * 64 + v.val) := by
  apply eq_ofNat_of_toNat_eq
  rw [toNat_or_of_lt (digit_low_two u) (by rw [ofNat_val_toNat]; omega),
    digit_low_two, ofNat_val_toNat]
  omega

@[simp] theorem digitAt_code (d : Fin 64) (p : Bytes) :
    digitAt (alphabet.code d :: p) 0 = some (UInt8.ofNat d.val) := by
  have hne : UInt8.ofNat d.val ≠ 255 := by
    intro h
    have hn := congrArg UInt8.toNat h
    rw [ofNat_val_toNat] at hn
    have := d.isLt
    have h255 : (255 : UInt8).toNat = 255 := rfl
    omega
  simp [digitAt, alphabet_code, char64_base64Char, hne]

@[simp] theorem digitAt_cons_succ (c : UInt8) (p : Bytes) (i : ℕ) :
    digitAt (c :: p) (i + 1) = digitAt p i := rfl

/-- Only alphabet characters have a digit; the terminator in particular has none. -/
theorem drop_eq_of_digitAt {p : Bytes} {i : ℕ} {x : UInt8} (h : digitAt p i = some x) :
    ∃ d, p.drop i = alphabet.code d :: p.drop (i + 1) := by
  have hne : char64 (deref p i) ≠ 255 := by
    intro hc
    simp [digitAt, hc] at h
  obtain ⟨hlt, hc⟩ := (base64Char_char64 (deref p i)).resolve_left hne
  have hcode : alphabet.code ⟨(char64 (deref p i)).toNat, hlt⟩ = deref p i := by
    rw [alphabet_code, UInt8.ofNat_toNat, hc]
  exact ⟨_, drop_eq_cons_of_deref hcode.symm (Alphabet.code_ne_of_index_eq_none index_zero _)⟩

/-- Decoding reads as many digits as the bytes need and nothing behind them. -/
theorem decodeBase64_map_code (n : ℕ) (ss : List (Fin 64)) (rest : Bytes)
    (hlen : ss.length = sextetCount n) :
    decodeBase64 n (ss.map alphabet.code ++ rest) = some (octets ss) := by
  fun_induction octets ss generalizing n with
  | case1 =>
    obtain rfl : n = 0 := by simp only [List.length_nil, sextetCount] at hlen; omega
    rfl
  | case2 s => simp only [List.length_singleton, sextetCount] at hlen; omega
  | case3 s t =>
    obtain rfl : n = 1 := by
      simp only [List.length_cons, List.length_nil, sextetCount] at hlen
      omega
    simp [decodeBase64, first_byte]
  | case4 s t u =>
    obtain rfl : n = 2 := by
      simp only [List.length_cons, List.length_nil, sextetCount] at hlen
      omega
    simp [decodeBase64, first_byte, second_byte]
  | case5 s t u v ss ih =>
    simp only [List.length_cons, sextetCount] at hlen
    obtain ⟨m, rfl⟩ : ∃ m, n = m + 3 := ⟨n - 3, by omega⟩
    have hrest := ih m (by rw [sextetCount]; omega)
    simp [decodeBase64, first_byte, second_byte, third_byte, hrest]

/-- A successful decoding means that the text starts with as many digits as the bytes need; what
stands behind them is not looked at. -/
theorem exists_map_code_of_decodeBase64 (n : ℕ) (p : Bytes) {bs : Bytes}
    (h : decodeBase64 n p = some bs) :
    ∃ ss : List (Fin 64), ∃ rest, ss.length = sextetCount n ∧ p = ss.map alphabet.code ++ rest := by
  induction n, p using decodeBase64.induct generalizing bs with
  | case1 p => exact ⟨[], p, rfl, rfl⟩
  | case2 p =>
    simp only [decodeBase64, Option.bind_eq_bind, Option.bind_eq_some_iff] at h
    obtain ⟨c1, h1, c2, h2, -⟩ := h
    obtain ⟨d1, e1⟩ := drop_eq_of_digitAt h1
    obtain ⟨d2, e2⟩ := drop_eq_of_digitAt h2
    exact ⟨[d1, d2], p.drop 2, by simp [sextetCount], by rw [← p.drop_zero, e1, e2]; rfl⟩
  | case3 p =>
    simp only [decodeBase64, Option.bind_eq_bind, Option.bind_eq_some_iff] at h
    obtain ⟨c1, h1, c2, h2, c3, h3, -⟩ := h
    obtain ⟨d1, e1⟩ := drop_eq_of_digitAt h1
    obtain ⟨d2, e2⟩ := drop_eq_of_digitAt h2
    obtain ⟨d3, e3⟩ := drop_eq_of_digitAt h3
    exact ⟨[d1, d2, d3], p.drop 3, by simp [sextetCount],
      by rw [← p.drop_zero, e1, e2, e3]; rfl⟩
  | case4 n p ih =>
    simp only [decodeBase64, Option.bind_eq_bind, Option.bind_eq_some_iff] at h
    obtain ⟨c1, h1, c2, h2, c3, h3, c4, h4, bs', hrest, -⟩ := h
    obtain ⟨d1, e1⟩ := drop_eq_of_digitAt h1
    obtain ⟨d2, e2⟩ := drop_eq_of_digitAt h2
    obtain ⟨d3, e3⟩ := drop_eq_of_digitAt h3
    obtain ⟨d4, e4⟩ := drop_eq_of_digitAt h4
    obtain ⟨ss, rest, hlen, hp⟩ := ih hrest
    refine ⟨d1 :: d2 :: d3 :: d4 :: ss, rest, ?_, ?_⟩
    · simp only [List.length_cons, hlen, sextetCount]
      omega
    · rw [← p.drop_zero, e1, e2, e3, e4, hp]
      rfl

/-- On a text of exactly the needed length the decoder is the relation `Spells`. -/
theorem decodeBase64_eq_some_iff {n : ℕ} {p bs : Bytes} (hlen : p.length = sextetCount n) :
    decodeBase64 n p = some bs ↔ alphabet.Spells p bs := by
  constructor
  · intro h
    obtain ⟨ss, rest, hss, rfl⟩ := exists_map_code_of_decodeBase64 n p h
    have hrest : rest = [] := by
      rw [List.length_append, List.length_map, hss] at hlen
      exact List.length_eq_zero_iff.mp (by omega)
    subst hrest
    rw [decodeBase64_map_code n ss [] hss] at h
    exact ⟨ss, by simp, Option.some.inj h⟩
  · rintro ⟨ss, rfl, rfl⟩
    rw [List.length_map] at hlen
    have h := decodeBase64_map_code n ss [] hlen
    rwa [List.append_nil] at h

end Passe.Bcrypt
