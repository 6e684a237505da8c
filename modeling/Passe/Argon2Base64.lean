import Passe.Radix64
import Passe.Runtime
import Mathlib.Tactic.IntervalCases

/-!
# The base64 of encoding.c

The branch-free character conversions, the encoder and the decoder. Both loops
keep their pending bits in a 32-bit accumulator whose old bits are never cleared,
so each lemma about a digit or a byte starts from an arbitrary accumulator. The
decoder accepts exactly the digit strings that regroup bytes without loss.
-/
namespace Passe.Argon2
open Radix64

def EQ (x y : UInt32) : UInt32 := (((0 - (x ^^^ y)) >>> 8) &&& 0xFF) ^^^ 0xFF
def GT (x y : UInt32) : UInt32 := ((y - x) >>> 8) &&& 0xFF
def GE (x y : UInt32) : UInt32 := GT y x ^^^ 0xFF
def LT (x y : UInt32) : UInt32 := GT y x
def LE (x y : UInt32) : UInt32 := GE y x

/-- A character constant, which C promotes to `int` before the comparison functions see it. -/
def chInt (c : Char) : UInt32 := (ch c).toUInt32

/-- `b64_byte_to_char`: six bits as a character, without a branch. Exactly one of the five terms
is not masked out. -/
def b64ByteToChar (x : UInt32) : UInt32 :=
  (LT x 26 &&& (x + chInt 'A')) |||
  (GE x 26 &&& LT x 52 &&& (x + (chInt 'a' - 26))) |||
  (GE x 52 &&& LT x 62 &&& (x + (chInt '0' - 52))) ||| (EQ x 62 &&& chInt '+') |||
  (EQ x 63 &&& chInt '/')

/-- `b64_char_to_byte`: the digit of a character, and 0xFF for a byte that is none, again
without a branch. -/
def b64CharToByte (c : UInt32) : UInt32 :=
  let x := (GE c (chInt 'A') &&& LE c (chInt 'Z') &&& (c - chInt 'A')) |||
    (GE c (chInt 'a') &&& LE c (chInt 'z') &&& (c - (chInt 'a' - 26))) |||
    (GE c (chInt '0') &&& LE c (chInt '9') &&& (c - (chInt '0' - 52))) |||
    (EQ c (chInt '+') &&& 62) ||| (EQ c (chInt '/') &&& 63)
  x ||| (EQ x 0 &&& (EQ c (chInt 'A') ^^^ 0xFF))

/-- The value of a `char` as an `int`: where `char` is signed a byte above 127 becomes a
negative number. -/
def charToInt (signedChar : Bool) (c : UInt8) : UInt32 :=
  if signedChar then c.toInt8.toInt32.toUInt32 else c.toUInt32

/-- What `from_base64` reads at a character, which for a byte above 127 depends on the host. -/
def charDigit (signedChar : Bool) (c : UInt8) : UInt32 := b64CharToByte (charToInt signedChar c)

/-- The length of the text of `n` bytes, as the source computes it. -/
def base64Length (n : ℕ) : ℕ :=
  (n / 3) <<< 2 + (match n % 3 with
    | 2 => 3
    | 1 => 2
    | _ => 0)

/-- The inner loop of `to_base64`: characters for the complete digits among the
`n` pending bits, and the number of bits left. -/
def drain (acc : UInt32) : ℕ → Bytes × ℕ
  | n + 6 =>
    let (text, left) := drain acc n
    ((b64ByteToChar ((acc >>> UInt32.ofNat n) &&& 0x3F)).toUInt8 :: text, left)
  | n => ([], n)

def toBase64Loop : Bytes → UInt32 → ℕ → Bytes
  | [], acc, acc_len =>
    if acc_len > 0 then
      [(b64ByteToChar ((acc <<< UInt32.ofNat (6 - acc_len)) &&& 0x3F)).toUInt8]
    else []
  | b :: src, acc, acc_len =>
    let acc := (acc <<< 8) + b.toUInt32
    let (text, acc_len) := drain acc (acc_len + 8)
    text ++ toBase64Loop src acc acc_len

/-- `to_base64`: the text, or `none` when it does not fit with its terminator. -/
def toBase64 (dst_len : ℕ) (src : Bytes) : Option Bytes :=
  let olen := base64Length src.length
  if dst_len ≤ olen then none else some (toBase64Loop src 0 0)

/-- The loop of `from_base64`. The terminator is no base64 character, so the end
of the list leaves the loop like any other stop. -/
def fromBase64Loop (signedChar : Bool) (dst_len : ℕ) :
    Bytes → UInt32 → ℕ → Bytes → Option (Bytes × Bytes)
  | [], acc, acc_len, buf => finish acc acc_len buf []
  | c :: src, acc, acc_len, buf =>
    let d := charDigit signedChar c
    if d = 0xFF then finish acc acc_len buf (c :: src)
    else
      let acc := (acc <<< 6) + d
      let acc_len := acc_len + 6
      if acc_len ≥ 8 then
        let acc_len := acc_len - 8
        if buf.length ≥ dst_len then none
        else
          fromBase64Loop signedChar dst_len src acc acc_len
            (buf ++ [((acc >>> UInt32.ofNat acc_len) &&& 0xFF).toUInt8])
      else fromBase64Loop signedChar dst_len src acc acc_len buf
where
  /-- The check on the bits that are left when the loop stops. -/
  finish (acc : UInt32) (acc_len : ℕ) (buf rest : Bytes) : Option (Bytes × Bytes) :=
    if acc_len > 4 ∨ (acc &&& (((1 : UInt32) <<< UInt32.ofNat acc_len) - 1)) ≠ 0 then none
    else some (buf, rest)

/-- `from_base64`: the bytes and the rest of the text. It stops at the first character that is
no digit and asks that the digits end in a whole byte and zero bits. -/
def fromBase64 (signedChar : Bool) (dst_len : ℕ) (src : Bytes) : Option (Bytes × Bytes) :=
  fromBase64Loop signedChar dst_len src 0 0 []

private theorem charDigit_byteToChar : ∀ d : Fin 64, ∀ signedChar : Bool,
    charDigit signedChar (b64ByteToChar (UInt32.ofNat d.val)).toUInt8 = UInt32.ofNat d.val := by
  decide +kernel

/-- Every character has a digit or none; where `char` is unsigned it is the only
character of its digit. -/
private theorem byteToChar_charDigit : ∀ signedChar : Bool, ∀ c : UInt8,
    charDigit signedChar c = 0xFF ∨ (charDigit signedChar c).toNat < 64 ∧
      (signedChar = false → (b64ByteToChar (charDigit signedChar c)).toUInt8 = c) := by
  decide +kernel

/-- The two tables as one alphabet, on which the general results about radix 64 are used. -/
def alphabet : Alphabet where
  code d := (b64ByteToChar (UInt32.ofNat d.val)).toUInt8
  index c :=
    if h : (charDigit false c).toNat < 64 then some ⟨(charDigit false c).toNat, h⟩ else none
  index_code d := by
    have hd : (UInt32.ofNat d.val).toNat = d.val := by
      rw [UInt32.toNat_ofNat', Nat.mod_eq_of_lt (by omega)]
    simp only [charDigit_byteToChar, hd, d.isLt, dif_pos]
  code_of_index c d h := by
    split at h
    · next hlt =>
      obtain rfl := Option.some.inj h
      rcases byteToChar_charDigit false c with h255 | ⟨-, hc⟩
      · rw [h255] at hlt
        exact absurd hlt (by decide)
      · simp only [UInt32.ofNat_toNat]
        exact hc rfl
    · exact absurd h (by simp)

@[simp] theorem charDigit_code (signedChar : Bool) (d : Fin 64) :
    charDigit signedChar (alphabet.code d) = UInt32.ofNat d.val :=
  charDigit_byteToChar d signedChar

section Accumulator
variable (acc : UInt32) {n : ℕ}

theorem toNat_ofNat_mod (hn : n < 32) : (UInt32.ofNat n).toNat % 32 = n := by
  rw [UInt32.toNat_ofNat']
  omega

theorem toNat_shiftRight (hn : n < 32) :
    (acc >>> UInt32.ofNat n).toNat = acc.toNat / 2 ^ n := by
  rw [UInt32.toNat_shiftRight, toNat_ofNat_mod hn, Nat.shiftRight_eq_div_pow]

theorem toNat_shiftLeft (hn : n < 32) :
    (acc <<< UInt32.ofNat n).toNat = acc.toNat * 2 ^ n % 2 ^ 32 := by
  rw [UInt32.toNat_shiftLeft, toNat_ofNat_mod hn, Nat.shiftLeft_eq]

theorem and_low_six (x : UInt32) : x &&& 0x3F = UInt32.ofNat (Fin.ofNat 64 x.toNat).val := by
  have hmask : (0x3F : UInt32).toNat = 2 ^ 6 - 1 := rfl
  apply UInt32.toNat_inj.mp
  rw [UInt32.toNat_and, hmask, Nat.and_two_pow_sub_one_eq_mod, UInt32.toNat_ofNat', Fin.val_ofNat]
  omega

/-- Six bits of the accumulator as a character: the mask drops what older bytes have left above
them. -/
theorem char_of_shiftRight (hn : n < 32) :
    (b64ByteToChar ((acc >>> UInt32.ofNat n) &&& 0x3F)).toUInt8 =
      alphabet.code (Fin.ofNat 64 (acc.toNat / 2 ^ n)) := by
  rw [and_low_six, toNat_shiftRight acc hn]
  rfl

theorem char_of_shiftLeft (hn : n < 32) :
    (b64ByteToChar ((acc <<< UInt32.ofNat n) &&& 0x3F)).toUInt8 =
      alphabet.code (Fin.ofNat 64 (acc.toNat * 2 ^ n)) := by
  have hdigit : Fin.ofNat 64 (acc.toNat * 2 ^ n % 2 ^ 32) = Fin.ofNat 64 (acc.toNat * 2 ^ n) := by
    rw [Fin.ext_iff, Fin.val_ofNat, Fin.val_ofNat]
    omega
  rw [and_low_six, toNat_shiftLeft acc hn, hdigit]
  rfl

theorem toNat_pushByte (b : UInt8) :
    ((acc <<< 8) + b.toUInt32).toNat = (acc.toNat * 256 + b.toNat) % 2 ^ 32 := by
  have hshift : (acc <<< 8).toNat = acc.toNat * 2 ^ 8 % 2 ^ 32 := toNat_shiftLeft acc (by decide)
  rw [UInt32.toNat_add, hshift, UInt8.toNat_toUInt32]
  omega

@[simp] theorem toNat_pushByte_mod_four (b : UInt8) :
    ((acc <<< 8) + b.toUInt32).toNat % 4 = b.toNat % 4 := by
  rw [toNat_pushByte]
  omega

@[simp] theorem toNat_pushByte_mod_sixteen (b : UInt8) :
    ((acc <<< 8) + b.toUInt32).toNat % 16 = b.toNat % 16 := by
  rw [toNat_pushByte]
  omega

@[simp] theorem drain_eight : drain acc 8 =
    ([(b64ByteToChar ((acc >>> UInt32.ofNat 2) &&& 0x3F)).toUInt8], 2) := rfl

@[simp] theorem drain_ten : drain acc 10 =
    ([(b64ByteToChar ((acc >>> UInt32.ofNat 4) &&& 0x3F)).toUInt8], 4) := rfl

@[simp] theorem drain_twelve : drain acc 12 =
    ([(b64ByteToChar ((acc >>> UInt32.ofNat 6) &&& 0x3F)).toUInt8,
      (b64ByteToChar ((acc >>> UInt32.ofNat 0) &&& 0x3F)).toUInt8], 0) := rfl

end Accumulator

section Encoding
variable (acc : UInt32) (src : Bytes)

private theorem code_ofNat_congr {m n : ℕ} (h : m % 64 = n % 64) :
    alphabet.code (Fin.ofNat 64 m) = alphabet.code (Fin.ofNat 64 n) :=
  congrArg alphabet.code (Fin.ext h)

/-- The first byte of a group: one digit is complete, and two bits are left over. -/
theorem toBase64Loop_zero (a : UInt8) : toBase64Loop (a :: src) acc 0 =
    alphabet.code (Fin.ofNat 64 (a.toNat / 4)) ::
      toBase64Loop src ((acc <<< 8) + a.toUInt32) 2 := by
  have ha := a.toNat_lt
  rw [toBase64Loop, Nat.zero_add, drain_eight, char_of_shiftRight _ (by decide), toNat_pushByte]
  exact congrArg (· :: _) (code_ofNat_congr (by omega))

/-- The second byte: the two bits in front of it complete a digit, and four are left over. -/
theorem toBase64Loop_two (b : UInt8) : toBase64Loop (b :: src) acc 2 =
    alphabet.code (Fin.ofNat 64 (acc.toNat % 4 * 16 + b.toNat / 16)) ::
      toBase64Loop src ((acc <<< 8) + b.toUInt32) 4 := by
  have hb := b.toNat_lt
  rw [toBase64Loop, drain_ten, char_of_shiftRight _ (by decide), toNat_pushByte]
  exact congrArg (· :: _) (code_ofNat_congr (by omega))

/-- The third byte: two digits are complete, and the accumulator is empty again. -/
theorem toBase64Loop_four (c : UInt8) : toBase64Loop (c :: src) acc 4 =
    alphabet.code (Fin.ofNat 64 (acc.toNat % 16 * 4 + c.toNat / 64)) ::
      alphabet.code (Fin.ofNat 64 (c.toNat % 64)) ::
        toBase64Loop src ((acc <<< 8) + c.toUInt32) 0 := by
  have hc := c.toNat_lt
  rw [toBase64Loop, drain_twelve, char_of_shiftRight _ (by decide),
    char_of_shiftRight _ (by decide), toNat_pushByte]
  exact congrArg₂ (· :: · :: _) (code_ofNat_congr (by omega)) (code_ofNat_congr (by omega))

/-- Bits that are left over at the end fill one more digit from the left. -/
theorem toBase64Loop_nil_two : toBase64Loop [] acc 2 =
    [alphabet.code (Fin.ofNat 64 (acc.toNat % 4 * 16))] := by
  rw [toBase64Loop, if_pos (by decide), char_of_shiftLeft _ (by decide)]
  exact congrArg (· :: []) (code_ofNat_congr (by omega))

theorem toBase64Loop_nil_four : toBase64Loop [] acc 4 =
    [alphabet.code (Fin.ofNat 64 (acc.toNat % 16 * 4))] := by
  rw [toBase64Loop, if_pos (by decide), char_of_shiftLeft _ (by decide)]
  exact congrArg (· :: []) (code_ofNat_congr (by omega))

/-- The encoder writes the digits of the bytes, whatever the accumulator held. -/
@[simp] theorem toBase64Loop_eq : toBase64Loop src acc 0 = alphabet.encode src := by
  induction src using sextets.induct generalizing acc with
  | case1 => rfl
  | case2 a =>
    rw [toBase64Loop_zero, toBase64Loop_nil_two, toNat_pushByte_mod_four]
    rfl
  | case3 a b =>
    rw [toBase64Loop_zero, toBase64Loop_two, toBase64Loop_nil_four, toNat_pushByte_mod_four,
      toNat_pushByte_mod_sixteen]
    rfl
  | case4 a b c rest ih =>
    rw [toBase64Loop_zero, toBase64Loop_two, toBase64Loop_four, toNat_pushByte_mod_four,
      toNat_pushByte_mod_sixteen, ih]
    rfl

end Encoding

@[simp] theorem base64Length_eq (n : ℕ) : base64Length n = sextetCount n := by
  have hmod := Nat.mod_lt n (by decide : 3 > 0)
  rw [base64Length, sextetCount, Nat.shiftLeft_eq]
  interval_cases h : n % 3 <;> simp only <;> omega

/-- The length test of the encoder is exact: it refuses a buffer precisely when text and
terminator do not fit. -/
theorem toBase64_eq (dst_len : ℕ) (src : Bytes) :
    toBase64 dst_len src =
      if (alphabet.encode src).length < dst_len then some (alphabet.encode src) else none := by
  rw [toBase64, toBase64Loop_eq, Alphabet.length_encode, base64Length_eq]
  by_cases h : dst_len ≤ sextetCount src.length
  · rw [if_pos h, if_neg (by omega)]
  · rw [if_neg h, if_pos (by omega)]

section Decoding
variable {signedChar : Bool} {dst_len : ℕ}

/-- The text `cs` shows the digits `ss`. A signed `char` has several characters for
the digit 63, so this is no function of the digits. -/
def Reads (signedChar : Bool) (cs : Bytes) (ss : List (Fin 64)) : Prop :=
  List.Forall₂ (fun c d => charDigit signedChar c = UInt32.ofNat d.val) cs ss

/-- The decoder stops in front of `rest`, because the text ends there or goes on with a
character that is no digit. -/
def Stops (signedChar : Bool) (rest : Bytes) : Prop :=
  ∀ c ∈ rest.head?, charDigit signedChar c = 0xFF

theorem reads_map_code (signedChar : Bool) (ss : List (Fin 64)) :
    Reads signedChar (ss.map alphabet.code) ss := by
  rw [Reads, List.forall₂_map_left_iff, List.forall₂_same]
  exact fun d _ => charDigit_code signedChar d

theorem ofNat_digit_ne (d : Fin 64) : UInt32.ofNat d.val ≠ 0xFF := by
  intro h
  have hn := congrArg UInt32.toNat h
  rw [UInt32.toNat_ofNat', Nat.mod_eq_of_lt (by omega)] at hn
  have hmask : (0xFF : UInt32).toNat = 255 := rfl
  omega

/-- Every text is a run of digits and a rest at which the decoder stops. -/
theorem exists_reads_append (signedChar : Bool) (src : Bytes) :
    ∃ cs rest ss, src = cs ++ rest ∧ Reads signedChar cs ss ∧ Stops signedChar rest := by
  induction src with
  | nil => exact ⟨[], [], [], rfl, .nil, fun c hc => absurd hc (by simp)⟩
  | cons c src ih =>
    rcases byteToChar_charDigit signedChar c with hc | ⟨hlt, -⟩
    · exact ⟨[], c :: src, [], rfl, .nil, fun c' hc' => Option.some.inj hc' ▸ hc⟩
    · obtain ⟨cs, rest, ss, rfl, hreads, hstop⟩ := ih
      exact ⟨c :: cs, rest, ⟨_, hlt⟩ :: ss, rfl, .cons UInt32.ofNat_toNat.symm hreads, hstop⟩

/-- Where `char` is unsigned only the alphabet character shows a digit, so digits that were read
can be spelled back. -/
theorem eq_map_code_of_reads {cs : Bytes} {ss : List (Fin 64)} (h : Reads false cs ss) :
    cs = ss.map alphabet.code := by
  induction h with
  | nil => rfl
  | @cons c d cs ss hc _ ih =>
    have hcode : alphabet.code d = c := by
      rcases byteToChar_charDigit false c with hstop | ⟨-, hchar⟩
      · exact absurd (hc.symm.trans hstop) (ofNat_digit_ne d)
      · rw [hc] at hchar
        exact hchar rfl
    rw [List.map_cons, hcode, ih]

theorem toNat_pushDigit (acc : UInt32) (d : Fin 64) :
    ((acc <<< 6) + UInt32.ofNat d.val).toNat = (acc.toNat * 64 + d.val) % 2 ^ 32 := by
  have hshift : (acc <<< 6).toNat = acc.toNat * 2 ^ 6 % 2 ^ 32 := toNat_shiftLeft acc (by decide)
  have hd := d.isLt
  rw [UInt32.toNat_add, hshift, UInt32.toNat_ofNat']
  omega

theorem byte_of_shiftRight (acc : UInt32) {n : ℕ} (hn : n < 32) :
    ((acc >>> UInt32.ofNat n) &&& 0xFF).toUInt8 = UInt8.ofNat (acc.toNat / 2 ^ n) := by
  have hmask : (0xFF : UInt32).toNat = 2 ^ 8 - 1 := rfl
  apply UInt8.toNat_inj.mp
  rw [UInt32.toNat_toUInt8, UInt32.toNat_and, hmask, Nat.and_two_pow_sub_one_eq_mod,
    toNat_shiftRight acc hn, UInt8.toNat_ofNat', Nat.mod_mod]

theorem ofNat_congr {m n : ℕ} (h : m % 256 = n % 256) : UInt8.ofNat m = UInt8.ofNat n := by
  apply UInt8.toNat_inj.mp
  rw [UInt8.toNat_ofNat', UInt8.toNat_ofNat']
  exact h

/-- The bytes that two consecutive digits complete, from any accumulator `x`. They are checked
on all pairs of digits. -/
private theorem first_accByte (x s t : ℕ) :
    UInt8.ofNat (((x * 64 + s) % 2 ^ 32 * 64 + t) % 2 ^ 32 / 2 ^ 4) =
      UInt8.ofNat (s * 4 + t / 16) :=
  ofNat_congr (by omega)

private theorem second_accByte (x t u : ℕ) :
    UInt8.ofNat (((x * 64 + t) % 2 ^ 32 * 64 + u) % 2 ^ 32 / 2 ^ 2) =
      UInt8.ofNat (t % 16 * 16 + u / 4) :=
  ofNat_congr (by omega)

private theorem third_accByte (x u v : ℕ) :
    UInt8.ofNat (((x * 64 + u) % 2 ^ 32 * 64 + v) % 2 ^ 32 / 2 ^ 0) =
      UInt8.ofNat (u % 4 * 64 + v) :=
  ofNat_congr (by omega)

/-- A digit that does not complete a byte is only pushed; fewer than eight bits wait then. -/
theorem fromBase64Loop_push {c : UInt8} {d : Fin 64}
    (hc : charDigit signedChar c = UInt32.ofNat d.val) (src buf : Bytes) (acc : UInt32) :
    fromBase64Loop signedChar dst_len (c :: src) acc 0 buf =
      fromBase64Loop signedChar dst_len src ((acc <<< 6) + UInt32.ofNat d.val) 6 buf := by
  simp only [fromBase64Loop, hc, ofNat_digit_ne, if_false]
  rfl

/-- A digit that completes a byte writes it, if there is room. -/
theorem fromBase64Loop_write {c : UInt8} {d : Fin 64} {n : ℕ}
    (hc : charDigit signedChar c = UInt32.ofNat d.val) (src buf : Bytes) (acc : UInt32)
    (hn : n < 32) :
    fromBase64Loop signedChar dst_len (c :: src) acc (n + 2) buf =
      if buf.length ≥ dst_len then none
      else
        fromBase64Loop signedChar dst_len src ((acc <<< 6) + UInt32.ofNat d.val) n
          (buf ++ [UInt8.ofNat ((acc.toNat * 64 + d.val) % 2 ^ 32 / 2 ^ n)]) := by
  simp only [fromBase64Loop, hc, ofNat_digit_ne, if_false]
  rw [if_pos (by omega), show n + 2 + 6 - 8 = n by omega, byte_of_shiftRight _ hn, toNat_pushDigit]

theorem fromBase64Loop_stop {rest : Bytes} (hstop : Stops signedChar rest) (acc : UInt32)
    {n : ℕ} (hn : n < 32) (buf : Bytes) :
    fromBase64Loop signedChar dst_len rest acc n buf =
      if n > 4 ∨ acc.toNat % 2 ^ n ≠ 0 then none else some (buf, rest) := by
  have hpow : 2 ^ n < 2 ^ 32 := Nat.pow_lt_pow_right (by decide) hn
  have hpos : 0 < 2 ^ n := Nat.two_pow_pos n
  have hmask : (((1 : UInt32) <<< UInt32.ofNat n) - 1).toNat = 2 ^ n - 1 := by
    have hone : (1 : UInt32).toNat = 1 := rfl
    rw [UInt32.toNat_sub, toNat_shiftLeft 1 hn, hone]
    omega
  have hbits : (acc &&& (((1 : UInt32) <<< UInt32.ofNat n) - 1)) ≠ 0 ↔ acc.toNat % 2 ^ n ≠ 0 := by
    rw [ne_eq, ← UInt32.toNat_inj, UInt32.toNat_and, hmask, Nat.and_two_pow_sub_one_eq_mod,
      UInt32.toNat_zero]
  cases rest with
  | nil => simp only [fromBase64Loop, fromBase64Loop.finish, hbits]
  | cons c rest =>
    have hc : charDigit signedChar c = 0xFF := hstop c rfl
    simp only [fromBase64Loop, hc, if_true, fromBase64Loop.finish, hbits]

/-- Two digits at the end of the text: one byte and four bits that must be zero. -/
theorem fromBase64Loop_two {c₁ c₂ : UInt8} {s t : Fin 64} {rest : Bytes}
    (hc₁ : charDigit signedChar c₁ = UInt32.ofNat s.val)
    (hc₂ : charDigit signedChar c₂ = UInt32.ofNat t.val)
    (hstop : Stops signedChar rest) (acc : UInt32) (buf : Bytes) :
    fromBase64Loop signedChar dst_len (c₁ :: c₂ :: rest) acc 0 buf =
      if buf.length + 1 ≤ dst_len ∧ t.val % 16 = 0 then some (buf ++ octets [s, t], rest)
      else none := by
  have hspare : ((acc.toNat * 64 + s.val) % 2 ^ 32 * 64 + t.val) % 2 ^ 32 % 2 ^ 4 =
      t.val % 16 := by omega
  rw [fromBase64Loop_push hc₁, fromBase64Loop_write hc₂ _ _ _ (by decide),
    fromBase64Loop_stop hstop _ (by decide), toNat_pushDigit, toNat_pushDigit, first_accByte,
    hspare]
  by_cases hroom : buf.length ≥ dst_len
  · rw [if_pos hroom, if_neg (by omega)]
  rw [if_neg hroom]
  by_cases hlost : t.val % 16 = 0
  · rw [if_neg (by omega), if_pos ⟨by omega, hlost⟩]
    rfl
  · rw [if_pos (.inr hlost), if_neg fun h => hlost h.2]

/-- Three digits at the end of the text: two bytes and two bits that must be zero. -/
theorem fromBase64Loop_three {c₁ c₂ c₃ : UInt8} {s t u : Fin 64} {rest : Bytes}
    (hc₁ : charDigit signedChar c₁ = UInt32.ofNat s.val)
    (hc₂ : charDigit signedChar c₂ = UInt32.ofNat t.val)
    (hc₃ : charDigit signedChar c₃ = UInt32.ofNat u.val)
    (hstop : Stops signedChar rest) (acc : UInt32) (buf : Bytes) :
    fromBase64Loop signedChar dst_len (c₁ :: c₂ :: c₃ :: rest) acc 0 buf =
      if buf.length + 2 ≤ dst_len ∧ u.val % 4 = 0 then some (buf ++ octets [s, t, u], rest)
      else none := by
  have hspare : (((acc.toNat * 64 + s.val) % 2 ^ 32 * 64 + t.val) % 2 ^ 32 * 64 + u.val) %
      2 ^ 32 % 2 ^ 2 = u.val % 4 := by omega
  rw [fromBase64Loop_push hc₁, fromBase64Loop_write hc₂ _ _ _ (by decide),
    fromBase64Loop_write hc₃ _ _ _ (by decide), fromBase64Loop_stop hstop _ (by decide)]
  simp only [toNat_pushDigit]
  rw [first_accByte, second_accByte, hspare, List.length_append, List.length_singleton]
  by_cases hroom : buf.length + 1 ≥ dst_len
  · rw [if_pos hroom, ite_self, if_neg (by omega)]
  rw [if_neg (by omega), if_neg hroom]
  by_cases hlost : u.val % 4 = 0
  · rw [if_neg (by omega), if_pos ⟨by omega, hlost⟩, List.append_assoc]
    rfl
  · rw [if_pos (.inr hlost), if_neg fun h => hlost h.2]

/-- The accumulator after four digits, a whole group of three bytes, of which it keeps the low
32 bits. -/
def pushGroup (acc : UInt32) (s t u v : Fin 64) : UInt32 :=
  [s, t, u, v].foldl (fun acc d => (acc <<< 6) + UInt32.ofNat d.val) acc

/-- A group of four digits writes its three bytes and leaves no pending bits. -/
theorem fromBase64Loop_group {c₁ c₂ c₃ c₄ : UInt8} {s t u v : Fin 64}
    (hc₁ : charDigit signedChar c₁ = UInt32.ofNat s.val)
    (hc₂ : charDigit signedChar c₂ = UInt32.ofNat t.val)
    (hc₃ : charDigit signedChar c₃ = UInt32.ofNat u.val)
    (hc₄ : charDigit signedChar c₄ = UInt32.ofNat v.val) (src : Bytes) (acc : UInt32)
    (buf : Bytes) :
    fromBase64Loop signedChar dst_len (c₁ :: c₂ :: c₃ :: c₄ :: src) acc 0 buf =
      if buf.length + 3 ≤ dst_len then
        fromBase64Loop signedChar dst_len src (pushGroup acc s t u v) 0 (buf ++ octets [s, t, u, v])
      else none := by
  rw [fromBase64Loop_push hc₁, fromBase64Loop_write hc₂ _ _ _ (by decide),
    fromBase64Loop_write hc₃ _ _ _ (by decide), fromBase64Loop_write hc₄ _ _ _ (by decide)]
  simp only [toNat_pushDigit]
  rw [first_accByte, second_accByte, third_accByte]
  simp only [List.length_append, List.length_singleton, List.append_assoc]
  by_cases hroom : buf.length + 1 + 1 ≥ dst_len
  · rw [if_pos hroom, ite_self, ite_self, if_neg (by omega)]
  · rw [if_neg (by omega), if_neg (by omega), if_neg hroom, if_pos (by omega)]
    rfl

/-- The decoder gives the whole bytes of the digits, and accepts them exactly when
there is room and no bit of the digits gets lost. -/
theorem fromBase64Loop_eq {cs rest : Bytes} {ss : List (Fin 64)} (hreads : Reads signedChar cs ss)
    (hstop : Stops signedChar rest) (acc : UInt32) {buf : Bytes} (hbuf : buf.length ≤ dst_len) :
    fromBase64Loop signedChar dst_len (cs ++ rest) acc 0 buf =
      if buf.length + (octets ss).length ≤ dst_len ∧ sextets (octets ss) = ss then
        some (buf ++ octets ss, rest)
      else none := by
  induction ss using octets.induct generalizing cs acc buf with
  | case1 =>
    obtain rfl := List.forall₂_nil_right_iff.mp hreads
    rw [List.nil_append, fromBase64Loop_stop hstop acc (by decide)]
    simp [octets, sextets, hbuf, Nat.mod_one]
  | case2 s =>
    obtain ⟨c, cs', hc, htail, rfl⟩ := List.forall₂_cons_right_iff.mp hreads
    obtain rfl := List.forall₂_nil_right_iff.mp htail
    rw [List.cons_append, List.nil_append, fromBase64Loop_push hc,
      fromBase64Loop_stop hstop _ (by decide), if_pos (.inl (by decide)), if_neg]
    simp [octets, sextets]
  | case3 s t =>
    obtain ⟨c₁, _, hc₁, htail₁, rfl⟩ := List.forall₂_cons_right_iff.mp hreads
    obtain ⟨c₂, _, hc₂, hnil, rfl⟩ := List.forall₂_cons_right_iff.mp htail₁
    obtain rfl := List.forall₂_nil_right_iff.mp hnil
    exact (fromBase64Loop_two hc₁ hc₂ hstop acc buf).trans
      (if_congr (and_congr_right' (sextets_octets_pair s t).symm) rfl rfl)
  | case4 s t u =>
    obtain ⟨c₁, _, hc₁, htail₁, rfl⟩ := List.forall₂_cons_right_iff.mp hreads
    obtain ⟨c₂, _, hc₂, htail₂, rfl⟩ := List.forall₂_cons_right_iff.mp htail₁
    obtain ⟨c₃, _, hc₃, hnil, rfl⟩ := List.forall₂_cons_right_iff.mp htail₂
    obtain rfl := List.forall₂_nil_right_iff.mp hnil
    exact (fromBase64Loop_three hc₁ hc₂ hc₃ hstop acc buf).trans
      (if_congr (and_congr_right' (sextets_octets_triple s t u).symm) rfl rfl)
  | case5 s t u v ss ih =>
    obtain ⟨c₁, _, hc₁, htail₁, rfl⟩ := List.forall₂_cons_right_iff.mp hreads
    obtain ⟨c₂, _, hc₂, htail₂, rfl⟩ := List.forall₂_cons_right_iff.mp htail₁
    obtain ⟨c₃, _, hc₃, htail₃, rfl⟩ := List.forall₂_cons_right_iff.mp htail₂
    obtain ⟨c₄, cs, hc₄, hcs, rfl⟩ := List.forall₂_cons_right_iff.mp htail₃
    have hgroup : sextets (octets (s :: t :: u :: v :: ss)) = s :: t :: u :: v :: ss ↔
        sextets (octets ss) = ss := by
      rw [sextets_octets_group]
      simp
    have hoctets : octets (s :: t :: u :: v :: ss) = octets [s, t, u, v] ++ octets ss := rfl
    have hlength : (octets (s :: t :: u :: v :: ss)).length = (octets ss).length + 3 := rfl
    have hbuf' : (buf ++ octets [s, t, u, v]).length = buf.length + 3 := List.length_append
    refine (fromBase64Loop_group hc₁ hc₂ hc₃ hc₄ (cs ++ rest) acc buf).trans ?_
    by_cases hroom : buf.length + 3 ≤ dst_len
    · rw [if_pos hroom, ih hcs _ (by omega)]
      -- Both sides state the same two conditions, the right one for one group more.
      exact if_congr (and_congr (by omega) hgroup.symm) (by rw [hoctets, List.append_assoc]) rfl
    · rw [if_neg hroom, if_neg fun h => hroom (by omega)]

theorem fromBase64_eq {cs rest : Bytes} {ss : List (Fin 64)} (hreads : Reads signedChar cs ss)
    (hstop : Stops signedChar rest) :
    fromBase64 signedChar dst_len (cs ++ rest) =
      if (octets ss).length ≤ dst_len ∧ sextets (octets ss) = ss then some (octets ss, rest)
      else none := by
  rw [fromBase64, fromBase64Loop_eq hreads hstop 0 (Nat.zero_le _)]
  simp only [List.length_nil, Nat.zero_add, List.nil_append]

/-- Decoding undoes encoding in front of anything that is no base64 character. -/
theorem fromBase64_encode {bs rest : Bytes} (hstop : Stops signedChar rest)
    (hlength : bs.length ≤ dst_len) :
    fromBase64 signedChar dst_len (alphabet.encode bs ++ rest) = some (bs, rest) := by
  rw [Alphabet.encode, fromBase64_eq (reads_map_code signedChar _) hstop, octets_sextets,
    if_pos ⟨hlength, rfl⟩]

/-- Where `char` is unsigned, what is decoded is what the encoder would write. -/
theorem fromBase64_eq_some {src bs rest : Bytes}
    (h : fromBase64 false dst_len src = some (bs, rest)) :
    src = alphabet.encode bs ++ rest ∧ bs.length ≤ dst_len := by
  obtain ⟨cs, rest', ss, rfl, hreads, hstop⟩ := exists_reads_append false src
  rw [fromBase64_eq hreads hstop, Option.ite_none_right_eq_some] at h
  obtain ⟨⟨hlength, hlossless⟩, h⟩ := h
  obtain ⟨rfl, rfl⟩ := Prod.mk.inj (Option.some.inj h)
  rw [Alphabet.encode, hlossless, ← eq_map_code_of_reads hreads]
  exact ⟨rfl, hlength⟩

end Decoding

end Passe.Argon2
