import Passe.Argon2Base64
import Passe.Argon2Context
import Passe.Buffer
import Passe.Decimal

/-!
# Encoded hashes

The part of `encoding.c` that is specific to Argon2. Each macro of the source is
a function here: `cc`, `decimalU32` and `bin` read one field from the front of
the text, `ss`, `sx` and `sb` append one to a buffer with a fixed amount of room.
`encoded` is the text of a context, and the two main theorems say that the
encoder writes it when it fits and that the decoder reads it back.
-/
namespace Passe.Argon2
open Decimal Radix64

/-- `ULONG_MAX` where `unsigned long` has 64 bits, the limit of `decode_decimal` before the
macros narrow it. -/
def ulongMax : ℕ := 2 ^ 64 - 1

def uint32Max : ℕ := 2 ^ 32 - 1

/-- The loop of `decode_decimal`: the value and the text behind the digits. -/
def decodeDecimalLoop (acc : ℕ) : Bytes → Option (ℕ × Bytes)
  | [] => some (acc, [])
  | c :: str =>
    if ¬ isDigit c then some (acc, c :: str)
    else
      let d := (c - ch '0').toNat
      if acc > ulongMax / 10 then none
      else
        let acc := acc * 10
        if d > ulongMax - acc then none else decodeDecimalLoop (acc + d) str

/-- `decode_decimal`: no digits, superfluous zeros and overflow all give `none`, so a number has
one numeral only. -/
def decodeDecimal (orig : Bytes) : Option (ℕ × Bytes) := do
  let (acc, str) ← decodeDecimalLoop 0 orig
  let consumed := orig.length - str.length
  guard (¬ (consumed = 0 ∨ deref orig 0 = ch '0' ∧ consumed ≠ 1))
  return (acc, str)

/-- The macro `CC`: the text has to go on with these characters, or decoding fails. -/
def cc (text str : Bytes) : Result Bytes :=
  if text.isPrefixOf str then .ok (str.drop text.length) else .error .decodingFail

/-- The macro `DECIMAL_U32`: a numeral that fits into 64 bits but not into 32 is a decoding
failure as well. -/
def decimalU32 (str : Bytes) : Result (UInt32 × Bytes) :=
  match decodeDecimal str with
  | none => .error .decodingFail
  | some (dec_x, str) =>
    if dec_x > uint32Max then .error .decodingFail else .ok (UInt32.ofNat dec_x, str)

/-- The version field, which may be missing. Texts of the first version did not have it. -/
def versionField (str : Bytes) : Result (UInt32 × Bytes) :=
  let text := ascii "$v="
  if text.isPrefixOf str then decimalU32 (str.drop text.length) else .ok (argon2Version10, str)

/-- The macro `BIN`: the bytes, their number and the rest of the text. -/
def bin (signedChar : Bool) (max_len : ℕ) (str : Bytes) : Result (Bytes × UInt32 × Bytes) :=
  match fromBase64 signedChar max_len str with
  | none => .error .decodingFail
  | some (buf, str) =>
    if buf.length > uint32Max then .error .decodingFail
    else .ok (buf, UInt32.ofNat buf.length, str)

/-- `passe_decode_string`. On entry the two lengths of `ctx` bound the fields; behind the text
the context has to be valid and nothing may follow. -/
def decodeString (signedChar : Bool) (ctx : Context) (str : Bytes) (type : Argon2Type) :
    Result Context := do
  let maxsaltlen := ctx.saltlen.toNat
  let maxoutlen := ctx.outlen.toNat
  let str ← cc (ascii "$") str
  let str ← cc (argon2Type2string type) str
  let (version, str) ← versionField str
  let str ← cc (ascii "$m=") str
  let (mCost, str) ← decimalU32 str
  let str ← cc (ascii ",t=") str
  let (tCost, str) ← decimalU32 str
  let str ← cc (ascii ",p=") str
  let (lanes, str) ← decimalU32 str
  let str ← cc (ascii "$") str
  let (salt, saltlen, str) ← bin signedChar maxsaltlen str
  let str ← cc (ascii "$") str
  let (out, outlen, str) ← bin signedChar maxoutlen str
  let ctx := { ctx with
    version := version
    mCost := mCost
    tCost := tCost
    lanes := lanes
    threads := lanes
    salt := some salt
    saltlen := saltlen
    out := some out
    outlen := outlen
    secret := none
    secretlen := 0
    ad := none
    adlen := 0
    allocateCbk := false
    freeCbk := false }
  validateInputs ctx
  if deref str 0 = 0 then return ctx else throw .decodingFail

/-- The macro `SS`: a string, if it fits with a terminator behind it. -/
def ss (str : Bytes) (dst : Buffer UInt8) : Result (Buffer UInt8) :=
  dst.append .encodingFail str

/-- The macro `SX`: a number in decimal, which goes through the macro for strings. -/
def sx (x : UInt32) (dst : Buffer UInt8) : Result (Buffer UInt8) := ss (decimal x.toNat) dst

/-- The macro `SB`: the bytes of a buffer in Base64, as many as the length says. -/
def sb (buf : Option Bytes) (len : UInt32) (dst : Buffer UInt8) : Result (Buffer UInt8) :=
  match toBase64 dst.room ((buf.getD []).take len.toNat) with
  | none => .error .encodingFail
  | some text => .ok ⟨dst.text ++ text, dst.room - text.length⟩

/-- `passe_encode_string`: the text it leaves in a buffer of `dst_len` characters. What a failed
call has written by then is for its caller to wipe. -/
def encodeString (dst_len : ℕ) (ctx : Context) (type : Argon2Type) : Result Bytes := do
  validateInputs ctx
  let dst ← ss (ascii "$") (Buffer.empty dst_len)
  let dst ← ss (argon2Type2string type) dst
  let dst ← ss (ascii "$v=") dst
  let dst ← sx ctx.version dst
  let dst ← ss (ascii "$m=") dst
  let dst ← sx ctx.mCost dst
  let dst ← ss (ascii ",t=") dst
  let dst ← sx ctx.tCost dst
  let dst ← ss (ascii ",p=") dst
  let dst ← sx ctx.lanes dst
  let dst ← ss (ascii "$") dst
  let dst ← sb ctx.salt ctx.saltlen dst
  let dst ← ss (ascii "$") dst
  let dst ← sb ctx.out ctx.outlen dst
  return dst.text

/-- `passe_b64len`: the characters that `len` bytes become, with no padding. -/
def b64len (len : UInt32) : ℕ := base64Length len.toNat

/-- `passe_numlen`: the number of decimal digits, which is one for zero. -/
def numlen (num : ℕ) : ℕ := if num ≥ 10 then numlen (num / 10) + 1 else 1

/-- `passe_argon2_encodedlen`, the terminator included. The version is always taken to be the
current one. -/
def argon2Encodedlen (t_cost m_cost parallelism saltlen hashlen : UInt32) (type : Argon2Type) : ℕ :=
  (ascii "$$v=$m=,t=,p=$$").length + (argon2Type2string type).length + numlen t_cost.toNat +
    numlen m_cost.toNat + numlen parallelism.toNat + b64len saltlen + b64len hashlen +
    numlen argon2VersionNumber.toNat + 1

section Encoding
variable {context : Context} {type : Argon2Type} {dst_len : ℕ}

/-- The bytes of a field: as many of its buffer as its length says. -/
def fieldBytes (buf : Option Bytes) (len : UInt32) : Bytes := (buf.getD []).take len.toNat

theorem toNat_ofNat_length {bs : Bytes} (h : bs.length ≤ uint32Max) :
    (UInt32.ofNat bs.length).toNat = bs.length := by
  unfold uint32Max at h
  rw [UInt32.toNat_ofNat', Nat.mod_eq_of_lt (by omega)]

@[simp] theorem fieldBytes_some {bs : Bytes} (h : bs.length ≤ uint32Max) :
    fieldBytes (some bs) (UInt32.ofNat bs.length) = bs := by
  rw [fieldBytes, toNat_ofNat_length h, Option.getD_some, List.take_length]

/-- What the validation of such a context comes to: of all the checks only those on two lengths
and three costs are left. -/
theorem hashContext_valid_iff {t_cost m_cost parallelism version : UInt32} {pwd salt out : Bytes}
    (hsalt : salt.length ≤ uint32Max) (hout : out.length ≤ uint32Max) :
    (hashContext t_cost m_cost parallelism pwd salt out version).Valid ↔
      4 ≤ out.length ∧ 8 ≤ salt.length ∧ 1 ≤ t_cost.toNat ∧ 8 ≤ m_cost.toNat ∧
        8 * parallelism.toNat ≤ m_cost.toNat ∧ 1 ≤ parallelism.toNat ∧
        parallelism.toNat ≤ 0xFFFFFF := by
  have hsaltlen := toNat_ofNat_length hsalt
  have houtlen := toNat_ofNat_length hout
  constructor
  · intro h
    exact ⟨houtlen ▸ h.outlen_ge, hsaltlen ▸ h.saltlen_ge, h.tCost_pos, h.mCost_ge,
      h.mCost_ge_lanes, h.lanes_pos, h.lanes_le⟩
  · rintro ⟨hout4, hsalt8, ht1, hm8, hml, hp1, hpmax⟩
    exact {
      out_ne_none := Option.some_ne_none _
      outlen_ge := houtlen.symm ▸ hout4
      pwdlen_eq := fun h => absurd h (Option.some_ne_none _)
      salt_ne_none := Option.some_ne_none _
      saltlen_ge := hsaltlen.symm ▸ hsalt8
      secretlen_eq := fun _ => rfl
      adlen_eq := fun _ => rfl
      mCost_ge := hm8
      mCost_ge_lanes := hml
      tCost_pos := ht1
      lanes_pos := hp1
      lanes_le := hpmax
      threads_pos := hp1
      threads_le := hpmax
      cbk_eq := rfl }

/-- What the encoder appends, one piece after the other, in the order of the macros. -/
def pieces (context : Context) (type : Argon2Type) : List Bytes :=
  [ascii "$", argon2Type2string type, ascii "$v=", decimal context.version.toNat, ascii "$m=",
    decimal context.mCost.toNat, ascii ",t=", decimal context.tCost.toNat, ascii ",p=",
    decimal context.lanes.toNat, ascii "$",
    alphabet.encode (fieldBytes context.salt context.saltlen), ascii "$",
    alphabet.encode (fieldBytes context.out context.outlen)]

/-- The encoded form of a context, without a buffer and its limit. -/
def encoded (context : Context) (type : Argon2Type) : Bytes := (pieces context type).flatten

/-- The two overflow tests of the source are one and the same. -/
theorem sb_eq (buf : Option Bytes) (len : UInt32) (dst : Buffer UInt8) :
    sb buf len dst = ss (alphabet.encode (fieldBytes buf len)) dst := by
  rw [sb, toBase64_eq, ss, Buffer.append, fieldBytes]
  by_cases h : (alphabet.encode ((buf.getD []).take len.toNat)).length < dst.room
  · rw [if_pos h, if_pos h]
  · rw [if_neg h, if_neg h]

/-- The encoder writes the whole text or nothing: it fails exactly when text and terminator do
not fit. -/
theorem encodeString_eq (hvalid : context.Valid) (hpos : 0 < dst_len) :
    encodeString dst_len context type =
      if (encoded context type).length < dst_len then .ok (encoded context type)
      else .error .encodingFail := by
  have hall : encodeString dst_len context type =
      (do
        let dst ← Buffer.appendAll .encodingFail (Buffer.empty dst_len) (pieces context type)
        return dst.text) := by
    rw [encodeString, validateInputs_eq_ok_iff.mpr hvalid]
    simp [sb_eq, sx, ss, Buffer.appendAll, pieces]
  rw [hall, Buffer.appendAll_eq _ _ _ hpos]
  change (if (encoded context type).length < dst_len then _ else _) >>= _ = _
  by_cases h : (encoded context type).length < dst_len
  · rw [if_pos h, if_pos h]
    rfl
  · rw [if_neg h, if_neg h]
    rfl

@[simp] theorem numlen_eq (n : ℕ) : numlen n = (decimal n).length := by
  induction n using Nat.strong_induction_on with
  | _ n ih =>
    unfold numlen
    by_cases hn : n ≥ 10
    · rw [if_pos hn, length_decimal_succ hn, ih (n / 10) (by omega)]
    · rw [if_neg hn, length_decimal_of_lt (by omega)]

/-- The length formula counts every piece and the terminator, with the digits of the current
version in the place of those that the text has. -/
theorem length_encoded (hsalt : (fieldBytes context.salt context.saltlen).length =
      context.saltlen.toNat)
    (hout : (fieldBytes context.out context.outlen).length = context.outlen.toNat) :
    (encoded context type).length + 1 + numlen argon2VersionNumber.toNat =
      argon2Encodedlen context.tCost context.mCost context.lanes context.saltlen context.outlen
        type + numlen context.version.toNat := by
  simp only [encoded, pieces, List.flatten_cons, List.flatten_nil, List.length_append,
    List.length_nil, Alphabet.length_encode, hsalt, hout, argon2Encodedlen, numlen_eq, b64len,
    base64Length_eq]
  have h1 : (ascii "$").length = 1 := rfl
  have h3 : (ascii "$v=").length = 3 := rfl
  have h3' : (ascii "$m=").length = 3 := rfl
  have h3'' : (ascii ",t=").length = 3 := rfl
  have h3''' : (ascii ",p=").length = 3 := rfl
  have hall : (ascii "$$v=$m=,t=,p=$$").length = 15 := rfl
  omega

end Encoding

section Decoding
variable {signedChar : Bool}

@[simp] theorem cc_append (text rest : Bytes) : cc text (text ++ rest) = .ok rest := by
  rw [cc, if_pos (List.isPrefixOf_iff_prefix.mpr (List.prefix_append text rest)),
    List.drop_left]

/-- The loop computes the value of a digit string that stays in range. -/
theorem decodeDecimalLoop_append {ds rest : Bytes} (hds : ∀ c ∈ ds, isDigit c = true)
    (hrest : ∀ c, rest.head? = some c → isDigit c = false) (acc : ℕ)
    (hvalue : ds.foldl (fun v d => 10 * v + (d.toNat - 48)) acc ≤ ulongMax) :
    decodeDecimalLoop acc (ds ++ rest) =
      some (ds.foldl (fun v d => 10 * v + (d.toNat - 48)) acc, rest) := by
  induction ds generalizing acc with
  | nil =>
    cases rest with
    | nil => rfl
    | cons c rest =>
      have hc : isDigit c = false := hrest c rfl
      simp [decodeDecimalLoop, hc]
  | cons c ds ih =>
    have hc := hds c List.mem_cons_self
    rw [List.foldl_cons] at hvalue ⊢
    have hnext := Nat.le_trans (le_foldl_digits ds (10 * acc + (c.toNat - 48))) hvalue
    have hd : (c - ch '0').toNat = c.toNat - 48 := toNat_sub_of_isDigit hc
    rw [List.cons_append, decodeDecimalLoop, if_neg (not_not.mpr hc)]
    simp only [hd]
    rw [if_neg (by omega), if_neg (by omega), Nat.mul_comm acc 10,
      ih (fun c' hc' => hds c' (List.mem_cons_of_mem c hc')) _ hvalue]

theorem decodeDecimal_decimal {n : ℕ} (hn : n ≤ ulongMax) {rest : Bytes}
    (hrest : ∀ c, rest.head? = some c → isDigit c = false) :
    decodeDecimal (decimal n ++ rest) = some (n, rest) := by
  have hvalue : (decimal n).foldl (fun v d => 10 * v + (d.toNat - 48)) 0 = n := value_decimal n
  obtain ⟨d, ds, hcons, hd, hzero⟩ := exists_decimal_eq_cons n
  have hconsumed : (decimal n ++ rest).length - rest.length = ds.length + 1 := by
    rw [List.length_append, hcons, List.length_cons]
    omega
  have hminimal : ¬ (ds.length + 1 = 0 ∨
      deref (decimal n ++ rest) 0 = ch '0' ∧ ds.length + 1 ≠ 1) := by
    rintro (hnone | ⟨hhead, hmore⟩)
    · omega
    · rw [hcons] at hhead
      have h0 := congrArg UInt8.toNat hhead
      have hch : (ch '0').toNat = 48 := rfl
      rw [List.cons_append, deref, List.getD_cons_zero, toNat_digit hd, hch] at h0
      rw [hzero (by omega), decimal_of_lt (by decide), List.cons.injEq] at hcons
      rw [← hcons.2] at hmore
      exact hmore rfl
  rw [decodeDecimal, decodeDecimalLoop_append (fun c hc => isDigit_of_mem_decimal hc) hrest 0
    (by rw [hvalue]; exact hn), hvalue]
  simp only [Option.bind_eq_bind, Option.bind_some, hconsumed, hminimal, not_false_eq_true,
    guard_true, Option.pure_def]

theorem decimalU32_decimal (n : UInt32) {rest : Bytes}
    (hrest : ∀ c, rest.head? = some c → isDigit c = false) :
    decimalU32 (decimal n.toNat ++ rest) = .ok (n, rest) := by
  have hlt := n.toNat_lt
  have hulong : n.toNat ≤ ulongMax := by
    unfold ulongMax
    omega
  have hmax : ¬ n.toNat > uint32Max := by
    unfold uint32Max
    omega
  rw [decimalU32, decodeDecimal_decimal hulong hrest]
  simp only [if_neg hmax, UInt32.ofNat_toNat]

theorem bin_encode {bs rest : Bytes} {max_len : ℕ} (hstop : Stops signedChar rest)
    (hlength : bs.length ≤ max_len) (hmax : bs.length ≤ uint32Max) :
    bin signedChar max_len (alphabet.encode bs ++ rest) =
      .ok (bs, UInt32.ofNat bs.length, rest) := by
  rw [bin, fromBase64_encode hstop hlength]
  simp only [if_neg (by omega : ¬ bs.length > uint32Max)]

/-- A separator ends a numeral: none of the characters between the fields is a digit. -/
theorem isDigit_head_append {text : Bytes} {c : UInt8} (htext : text.head? = some c)
    (hc : isDigit c = false) (rest : Bytes) :
    ∀ c', (text ++ rest).head? = some c' → isDigit c' = false := by
  rintro c' h
  rw [List.head?_append, htext, Option.some_or] at h
  rwa [← Option.some.inj h]

@[simp] theorem stops_nil : Stops signedChar [] := by
  intro c hc
  exact absurd hc (by simp)

theorem stops_dollar (rest : Bytes) : Stops signedChar (ascii "$" ++ rest) := by
  intro c hc
  obtain rfl : ch '$' = c := Option.some.inj hc
  cases signedChar <;> decide

/-- A version field is always written, and read back in front of a separator. -/
theorem versionField_decimal (n : UInt32) {rest : Bytes}
    (hrest : ∀ c, rest.head? = some c → isDigit c = false) :
    versionField (ascii "$v=" ++ (decimal n.toNat ++ rest)) = .ok (n, rest) := by
  rw [versionField, if_pos (List.isPrefixOf_iff_prefix.mpr (List.prefix_append _ _)),
    List.drop_left, decimalU32_decimal n hrest]

theorem cc_eq_ok {text str rest : Bytes} (h : cc text str = .ok rest) : str = text ++ rest := by
  unfold cc at h
  split_ifs at h with hfront
  obtain ⟨rest', rfl⟩ := List.isPrefixOf_iff_prefix.mp hfront
  rw [List.drop_left] at h
  rw [Except.ok.inj h]

/-- The loop has read digits and computed their value, and stopped in front of a byte that is no
digit. -/
theorem decodeDecimalLoop_eq_some {str rest : Bytes} {acc n : ℕ}
    (h : decodeDecimalLoop acc str = some (n, rest)) :
    ∃ ds, str = ds ++ rest ∧ (∀ c ∈ ds, isDigit c = true) ∧
      n = ds.foldl (fun v d => 10 * v + (d.toNat - 48)) acc := by
  induction str generalizing acc with
  | nil =>
    obtain ⟨rfl, rfl⟩ := Prod.mk.inj (Option.some.inj h)
    exact ⟨[], rfl, by simp, rfl⟩
  | cons c str ih =>
    unfold decodeDecimalLoop at h
    by_cases hc : isDigit c = true
    · have hd : (c - ch '0').toNat = c.toNat - 48 := toNat_sub_of_isDigit hc
      rw [if_neg (not_not.mpr hc)] at h
      simp only [hd, Option.ite_none_left_eq_some] at h
      obtain ⟨ds, rfl, hds, rfl⟩ := ih h.2.2
      refine ⟨c :: ds, rfl, List.forall_mem_cons.mpr ⟨hc, hds⟩, ?_⟩
      rw [List.foldl_cons, Nat.mul_comm acc 10]
    · rw [if_pos hc] at h
      obtain ⟨rfl, rfl⟩ := Prod.mk.inj (Option.some.inj h)
      exact ⟨[], rfl, by simp, rfl⟩

/-- Only the shortest numeral of a number is read, so what was read can be printed again. -/
theorem decodeDecimal_eq_some {str rest : Bytes} {n : ℕ}
    (h : decodeDecimal str = some (n, rest)) : str = decimal n ++ rest := by
  simp only [decodeDecimal, guard_bind, Option.bind_eq_bind, Option.bind_eq_some_iff,
    Option.ite_none_right_eq_some] at h
  obtain ⟨⟨acc, str'⟩, hloop, hminimal, h⟩ := h
  obtain ⟨rfl, rfl⟩ := Prod.mk.inj (Option.some.inj h)
  obtain ⟨ds, rfl, hds, rfl⟩ := decodeDecimalLoop_eq_some hloop
  have hconsumed : (ds ++ str').length - str'.length = ds.length := by
    rw [List.length_append, Nat.add_sub_cancel]
  simp only [hconsumed, not_or, not_and, not_not] at hminimal
  obtain ⟨hne, hzero⟩ := hminimal
  have hnumeral : decimal (value ds) = ds := by
    refine decimal_value hds (fun h0 => hne (List.length_eq_zero_iff.mpr h0)) fun hhead => ?_
    cases ds with
    | nil => exact absurd rfl hne
    | cons c ds => exact hzero (Option.some.inj hhead)
  rw [value] at hnumeral
  rw [hnumeral]

theorem decimalU32_eq_ok {str rest : Bytes} {n : UInt32} (h : decimalU32 str = .ok (n, rest)) :
    str = decimal n.toNat ++ rest := by
  unfold decimalU32 at h
  cases hdecode : decodeDecimal str with
  | none => simp [hdecode] at h
  | some result =>
    obtain ⟨m, str'⟩ := result
    simp only [hdecode] at h
    split_ifs at h with hmax
    obtain ⟨rfl, rfl⟩ := Prod.mk.inj (Except.ok.inj h)
    rw [decodeDecimal_eq_some hdecode, UInt32.toNat_ofNat', Nat.mod_eq_of_lt]
    unfold uint32Max at hmax
    omega

/-- The text of a version field: nothing stands for the version before the field
was introduced. -/
def versionText : Option UInt32 → Bytes
  | none => []
  | some version => ascii "$v=" ++ decimal version.toNat

def versionNumber (version : Option UInt32) : UInt32 := version.getD argon2Version10

theorem versionField_eq_ok {str rest : Bytes} {n : UInt32} (h : versionField str = .ok (n, rest)) :
    ∃ version, str = versionText version ++ rest ∧ n = versionNumber version := by
  unfold versionField at h
  dsimp only at h
  split_ifs at h with hfront
  · obtain ⟨rest', rfl⟩ := List.isPrefixOf_iff_prefix.mp hfront
    rw [List.drop_left] at h
    refine ⟨some n, ?_, rfl⟩
    rw [decimalU32_eq_ok h, versionText, List.append_assoc]
  · obtain ⟨rfl, rfl⟩ := Prod.mk.inj (Except.ok.inj h)
    exact ⟨none, rfl, rfl⟩

/-- The memory field cannot be mistaken for a version field, which decides how a text without a
version is read. -/
theorem versionField_versionText (version : Option UInt32) (rest : Bytes) :
    versionField (versionText version ++ (ascii "$m=" ++ rest)) =
      .ok (versionNumber version, ascii "$m=" ++ rest) := by
  cases version with
  | none => rfl
  | some version =>
    rw [versionText, List.append_assoc]
    exact versionField_decimal version (isDigit_head_append rfl rfl rest)

/-- Where `char` is unsigned, a binary field is read from the text of its bytes. -/
theorem bin_eq_ok {max_len : ℕ} {str bs rest : Bytes} {len : UInt32}
    (h : bin false max_len str = .ok (bs, len, rest)) :
    str = alphabet.encode bs ++ rest ∧ len = UInt32.ofNat bs.length ∧ bs.length ≤ uint32Max := by
  unfold bin at h
  cases hdecode : fromBase64 false max_len str with
  | none => simp [hdecode] at h
  | some result =>
    obtain ⟨buf, str'⟩ := result
    simp only [hdecode] at h
    split_ifs at h with hmax
    obtain ⟨rfl, hrest⟩ := Prod.mk.inj (Except.ok.inj h)
    obtain ⟨rfl, rfl⟩ := Prod.mk.inj hrest
    exact ⟨(fromBase64_eq_some hdecode).1, rfl, Nat.not_lt.mp hmax⟩

/-- The text format, with or without a version field: what the decoder accepts, as a function of
the fields. -/
def formatText (type : Argon2Type) (version : Option UInt32)
    (t_cost m_cost parallelism : UInt32) (salt out : Bytes) : Bytes :=
  ascii "$" ++ (argon2Type2string type ++ (versionText version ++
    (ascii "$m=" ++ (decimal m_cost.toNat ++ (ascii ",t=" ++ (decimal t_cost.toNat ++
    (ascii ",p=" ++ (decimal parallelism.toNat ++ (ascii "$" ++ (alphabet.encode salt ++
    (ascii "$" ++ alphabet.encode out)))))))))))

section
variable {type : Argon2Type} {t_cost m_cost parallelism : UInt32} {pwd salt out : Bytes}

/-- The encoder always writes the version field, so its texts are a part of the format. -/
theorem encoded_eq_formatText (version : UInt32) (hsalt : salt.length ≤ uint32Max)
    (hout : out.length ≤ uint32Max) :
    encoded (hashContext t_cost m_cost parallelism pwd salt out version) type =
      formatText type (some version) t_cost m_cost parallelism salt out := by
  simp [encoded, pieces, hashContext, hsalt, hout, formatText, versionText]

/-- The decoder recovers a valid context from its text, whether `char` is signed or not. -/
theorem decodeString_formatText {version : Option UInt32}
    (hvalid : (hashContext t_cost m_cost parallelism pwd salt out (versionNumber version)).Valid)
    (hsalt : salt.length ≤ uint32Max) (hout : out.length ≤ uint32Max) {ctx : Context}
    (hpwd : ctx.pwd = some pwd) (hpwdlen : ctx.pwdlen = UInt32.ofNat pwd.length)
    (hmaxsalt : salt.length ≤ ctx.saltlen.toNat) (hmaxout : out.length ≤ ctx.outlen.toNat) :
    decodeString signedChar ctx
        (formatText type version t_cost m_cost parallelism salt out) type =
      .ok (hashContext t_cost m_cost parallelism pwd salt out (versionNumber version)) := by
  have hm : ∀ rest, decimalU32 (decimal m_cost.toNat ++ (ascii ",t=" ++ rest)) =
      .ok (m_cost, ascii ",t=" ++ rest) := fun rest =>
    decimalU32_decimal m_cost (isDigit_head_append rfl rfl rest)
  have ht : ∀ rest, decimalU32 (decimal t_cost.toNat ++ (ascii ",p=" ++ rest)) =
      .ok (t_cost, ascii ",p=" ++ rest) := fun rest =>
    decimalU32_decimal t_cost (isDigit_head_append rfl rfl rest)
  have hp : ∀ rest, decimalU32 (decimal parallelism.toNat ++ (ascii "$" ++ rest)) =
      .ok (parallelism, ascii "$" ++ rest) := fun rest =>
    decimalU32_decimal parallelism (isDigit_head_append rfl rfl rest)
  have hsaltField : ∀ rest, bin signedChar ctx.saltlen.toNat
      (alphabet.encode salt ++ (ascii "$" ++ rest)) =
        .ok (salt, UInt32.ofNat salt.length, ascii "$" ++ rest) := fun rest =>
    bin_encode (stops_dollar rest) hmaxsalt hsalt
  have houtField : bin signedChar ctx.outlen.toNat (alphabet.encode out) =
      .ok (out, UInt32.ofNat out.length, []) := by
    have h : bin signedChar ctx.outlen.toNat (alphabet.encode out ++ []) =
        .ok (out, UInt32.ofNat out.length, []) := bin_encode stops_nil hmaxout hout
    rwa [List.append_nil] at h
  have hdecoded := validateInputs_eq_ok_iff.mpr hvalid
  simp only [hashContext] at hdecoded
  rw [formatText, decodeString]
  simp only [cc_append, ok_bind, versionField_versionText, hm, ht, hp, hsaltField, houtField, hpwd,
    hpwdlen, hdecoded]
  rfl

/-- Behind the type stands a separator, whether there is a version field or not. -/
theorem exists_versionText_eq_cons (version : Option UInt32) (rest : Bytes) :
    ∃ rest', versionText version ++ (ascii "$m=" ++ rest) = ch '$' :: rest' := by
  cases version with
  | none => exact ⟨_, rfl⟩
  | some version => exact ⟨_, rfl⟩

/-- The front of a text that was decoded: type, version and costs stand there in the one form
that the decoder reads. -/
theorem decodeString_front {ctx ctx' : Context} {str : Bytes}
    (h : decodeString signedChar ctx str type = .ok ctx') :
    ∃ rest, str = ascii "$" ++ (argon2Type2string type ++ ch '$' :: rest) := by
  simp only [decodeString, bind_eq_ok] at h
  obtain ⟨str₁, h₁, str₂, h₂, ⟨version, str₃⟩, h₃, str₄, h₄, -⟩ := h
  obtain ⟨field, hfield, -⟩ := versionField_eq_ok h₃
  dsimp only at h₄
  rw [cc_eq_ok h₄] at hfield
  obtain ⟨rest, hrest⟩ := exists_versionText_eq_cons field str₄
  exact ⟨rest, by rw [cc_eq_ok h₁, cc_eq_ok h₂, hfield, hrest]⟩

/-- A text is decoded under one type at most, although `argon2i` begins `argon2id`. -/
theorem decodeString_of_ne {signedChar' : Bool} {ctx ctx' ctx₁ : Context} {type' : Argon2Type}
    {str : Bytes} (h : decodeString signedChar ctx str type = .ok ctx₁) (hne : type' ≠ type) :
    decodeString signedChar' ctx' str type' = .error .decodingFail := by
  obtain ⟨rest, rfl⟩ := decodeString_front h
  rw [decodeString, cc_append, ok_bind]
  cases type <;> cases type' <;> first | exact absurd rfl hne | rfl

/-- Where `char` is unsigned the decoder accepts nothing but texts of valid contexts,
up to a terminator. -/
theorem decodeString_eq_ok {ctx ctx' : Context} {str : Bytes}
    (h : decodeString false ctx str type = .ok ctx') (hpwd : ctx.pwd = some pwd)
    (hpwdlen : ctx.pwdlen = UInt32.ofNat pwd.length) :
    ∃ version t_cost m_cost parallelism salt out rest,
      str = formatText type version t_cost m_cost parallelism salt out ++ rest ∧
        deref rest 0 = 0 ∧ salt.length ≤ uint32Max ∧ out.length ≤ uint32Max ∧ ctx'.Valid ∧
        ctx' = hashContext t_cost m_cost parallelism pwd salt out (versionNumber version) := by
  simp only [decodeString, bind_eq_ok] at h
  obtain ⟨str₁, h₁, str₂, h₂, ⟨version, str₃⟩, h₃, str₄, h₄, ⟨m_cost, str₅⟩, h₅, str₆, h₆,
    ⟨t_cost, str₇⟩, h₇, str₈, h₈, ⟨parallelism, str₉⟩, h₉, str₁₀, h₁₀, ⟨salt, saltlen, str₁₁⟩, h₁₁,
    str₁₂, h₁₂, ⟨out, outlen, rest⟩, h₁₃, u, hvalid, h⟩ := h
  dsimp only at h₄ h₆ h₈ h₁₀ h₁₂ hvalid h
  obtain ⟨field, hfield, rfl⟩ := versionField_eq_ok h₃
  obtain ⟨hsaltText, rfl, hsalt⟩ := bin_eq_ok h₁₁
  obtain ⟨houtText, rfl, hout⟩ := bin_eq_ok h₁₃
  by_cases hend : deref rest 0 = 0
  · rw [if_pos hend] at h
    obtain rfl := Except.ok.inj h
    refine ⟨field, t_cost, m_cost, parallelism, salt, out, rest, ?_, hend, hsalt, hout,
      validateInputs_eq_ok_iff.mp hvalid, ?_⟩
    · rw [cc_eq_ok h₁, cc_eq_ok h₂, hfield, cc_eq_ok h₄, decimalU32_eq_ok h₅, cc_eq_ok h₆,
        decimalU32_eq_ok h₇, cc_eq_ok h₈, decimalU32_eq_ok h₉, cc_eq_ok h₁₀, hsaltText,
        cc_eq_ok h₁₂, houtText]
      simp only [formatText, List.append_assoc]
    · simp only [hashContext, hpwd, hpwdlen]
  · rw [if_neg hend] at h
    exact absurd h (by simp [throw, throwThe, MonadExceptOf.throw])

end

end Decoding

end Passe.Argon2
