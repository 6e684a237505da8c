import Passe.BcryptBase64
import Passe.Blowfish
import Passe.Decimal
import Mathlib.Logic.Function.Iterate
import Mathlib.Tactic.IntervalCases

/-!
# The core function of bcrypt.c

`bcryptHashpass` follows `passe_bcrypt_hashpass` from the header checks to the
text it leaves in `encrypted`. A `Setting` is what those checks establish about
the cost and salt part of a header: a cost in range and sixteen salt bytes.
Several texts spell one setting, since the last salt character has four spare
bits, but the function writes the setting back in the one spelling `tail`.
-/
namespace Passe.Bcrypt
open Blowfish Decimal Radix64

def bcryptVersion : UInt8 := ch '2'
def bcryptMaxSalt : ℕ := 16
def bcryptWords : ℕ := 6
def bcryptMinLogRounds : UInt8 := 4
def bcryptHashSpace : ℕ := 61

/-- The switch on the minor version. Revision `a` narrows to eight bits, revision
`b` caps the length; any other letter is refused. -/
def keyLen (minor : UInt8) (key : Bytes) : Option ℕ :=
  if minor = ch 'a' then some (UInt8.ofNat (strlen key + 1)).toNat
  else if minor = ch 'b' then some ((if strlen key > 72 then 72 else strlen key) + 1)
  else none

/-- The state after the expensive key setup. Key and salt take turns, and the number of turns is
all that the cost decides. -/
def bcryptState (key : Bytes) (key_len : ℕ) (csalt : Bytes) (rounds : UInt32) : BlfCtx :=
  let keybytes := UInt16.ofNat key_len
  let salt_len := UInt16.ofNat bcryptMaxSalt
  let state := blowfishExpandstate blowfishInitstate csalt salt_len key keybytes
  (fun state => blowfishExpand0state (blowfishExpand0state state key keybytes) csalt salt_len)^[
    rounds.toNat] state

def magicText : Bytes := ascii "OrpheanBeholderScryDoubt"

/-- The bytes of a word, most significant first. The source shifts them out from the other end,
in place. -/
def wordBytes (w : UInt32) : Bytes :=
  [(w >>> 24).toUInt8, (w >>> 16).toUInt8, (w >>> 8).toUInt8, w.toUInt8]

/-- `ciphertext` after the magic text went through the cipher 64 times. The function depends on
password and salt through the context only. -/
def bcryptCiphertext (key : Bytes) (key_len : ℕ) (csalt : Bytes) (rounds : UInt32) : Bytes :=
  let state := bcryptState key key_len csalt rounds
  let cdata := streamWords magicText (UInt16.ofNat (4 * bcryptWords)) bcryptWords 0
  ((blfEnc state (bcryptWords / 2))^[64] cdata).flatMap wordBytes

/-- The text in `encrypted`: `snprintf` into eight bytes, then the two encodings. The last byte
of the ciphertext is never printed. -/
def encryptedText (minor logr : UInt8) (csalt ciphertext : Bytes) : Bytes :=
  (ascii "$2" ++ minor :: ch '$' :: padTwo logr.toNat ++ [ch '$']).take 7 ++
    encodeBase64 csalt ++ encodeBase64 (ciphertext.take (4 * bcryptWords - 1))

/-- `passe_bcrypt_hashpass`, where `none` is the jump to `inval`. The checks stand in the order
of the source, each with the pointer as far as it has moved. -/
def bcryptHashpass (key salt : Bytes) (encryptedlen : ℕ) : Option Bytes := do
  guard (¬ encryptedlen < bcryptHashSpace)
  guard (deref salt 0 = ch '$')
  let salt := salt.drop 1
  guard (deref salt 0 = bcryptVersion)
  let minor := deref salt 1
  let key_len ← keyLen minor key
  guard (deref salt 2 = ch '$')
  let salt := salt.drop 3
  guard (isDigit (deref salt 0) ∧ isDigit (deref salt 1) ∧ deref salt 2 = ch '$')
  let logr := (deref salt 1 - ch '0') + (deref salt 0 - ch '0') * 10
  guard (¬ (logr < bcryptMinLogRounds ∨ logr > 31))
  let rounds := 1 <<< logr.toUInt32
  let salt := salt.drop 3
  guard (¬ strlen salt * 3 / 4 < bcryptMaxSalt)
  let csalt ← decodeBase64 bcryptMaxSalt salt
  return encryptedText minor logr csalt (bcryptCiphertext key key_len csalt rounds)

/-- What a salt text says: a cost and sixteen bytes. The bounds are those that the core checks,
so a setting is exactly what it is willing to hash under. -/
@[ext] structure Setting where
  cost : ℕ
  salt : Bytes
  four_le_cost : 4 ≤ cost
  cost_le : cost ≤ 31
  length_salt : salt.length = 16

namespace Setting

/-- The 25 characters behind the revision, in the spelling the code writes. Of all texts of the
setting it is the one whose spare bits are zero. -/
def tail (st : Setting) : Bytes := padTwo st.cost ++ ch '$' :: alphabet.encode st.salt

/-- `st.Spells t`: the text `t` denotes `st`, whatever its spare bits are. The decoder accepts
exactly these texts. -/
def Spells (st : Setting) (t : Bytes) : Prop :=
  ∃ cs, t = padTwo st.cost ++ ch '$' :: cs ∧ cs.length = 22 ∧ alphabet.Spells cs st.salt

/-- The 31 characters of the digest of a key under a setting: what a hash says about the
password. -/
def digest (st : Setting) (key : Bytes) : Bytes :=
  alphabet.encode ((bcryptCiphertext key (key.length + 1) st.salt
    (1 <<< (UInt8.ofNat st.cost).toUInt32)).take 23)

/-- Everything behind the revision in the hash of a key. Both revisions that the core knows
share it. -/
def hashTail (st : Setting) (key : Bytes) : Bytes := st.tail ++ st.digest key

theorem padTwo_cost (st : Setting) :
    padTwo st.cost = [digit (st.cost / 10), digit (st.cost % 10)] :=
  padTwo_eq (by have := st.cost_le; omega)

theorem tail_spells (st : Setting) : st.Spells st.tail :=
  ⟨alphabet.encode st.salt, rfl, by rw [Alphabet.length_encode, st.length_salt]; rfl,
    alphabet.encode_spells st.salt⟩

/-- A text denotes at most one setting: the cost is read off two digits, and the digits of the
salt determine its bytes. -/
theorem Spells.unique {st st' : Setting} {t : Bytes} (h : st.Spells t) (h' : st'.Spells t) :
    st = st' := by
  obtain ⟨cs, ht, -, hcs⟩ := h
  obtain ⟨cs', ht', -, hcs'⟩ := h'
  rw [ht, padTwo_cost, padTwo_cost] at ht'
  obtain ⟨hcost, htail⟩ := List.append_inj ht' rfl
  rw [List.cons.injEq] at htail
  rw [← padTwo_cost, ← padTwo_cost] at hcost
  have hc : st.cost = st'.cost :=
    padTwo_injective (by have := st.cost_le; omega) (by have := st'.cost_le; omega) hcost
  exact Setting.ext hc (hcs.unique (htail.2 ▸ hcs'))

/-- The texts that denote a setting, as a grammar: two digits in range, a dollar sign and 22
characters of the alphabet. -/
theorem exists_spells_iff {t : Bytes} :
    (∃ st : Setting, st.Spells t) ↔ ∃ cost cs, 4 ≤ cost ∧ cost ≤ 31 ∧ cs.length = 22 ∧
      (∀ c ∈ cs, c ∈ base64Code) ∧ t = padTwo cost ++ ch '$' :: cs := by
  constructor
  · rintro ⟨st, cs, rfl, hlength, ss, rfl, -⟩
    exact ⟨st.cost, _, st.four_le_cost, st.cost_le, hlength, exists_map_code_iff.mp ⟨ss, rfl⟩, rfl⟩
  · rintro ⟨cost, cs, hlow, hhigh, hlength, halphabet, rfl⟩
    obtain ⟨ss, rfl⟩ := exists_map_code_iff.mpr halphabet
    have hsalt : (octets ss).length = 16 :=
      length_octets_of_sextetCount (by rwa [List.length_map] at hlength)
    exact ⟨⟨cost, octets ss, hlow, hhigh, hsalt⟩, _, rfl, hlength, ss, rfl, rfl⟩

end Setting

/-- For the passwords the OCaml side lets through, both revisions use the whole
password and its terminator. -/
theorem keyLen_eq {minor : UInt8} {key : Bytes} (hminor : minor = ch 'a' ∨ minor = ch 'b')
    (hkey : 0 ∉ key) (hlen : key.length ≤ 72) : keyLen minor key = some (key.length + 1) := by
  rw [keyLen, strlen_of_notMem hkey, if_neg (by omega : ¬ key.length > 72)]
  rcases hminor with rfl | rfl
  · rw [if_pos rfl, UInt8.toNat_ofNat', Nat.mod_eq_of_lt (by omega)]
  · rw [if_neg (by decide), if_pos rfl]

private theorem logr_toNat {t u : UInt8} (ht : isDigit t = true) (hu : isDigit u = true) :
    ((u - ch '0') + (t - ch '0') * 10).toNat = value [t, u] := by
  have htens : (t - ch '0').toNat = t.toNat - 48 := toNat_sub_of_isDigit ht
  have hunits : (u - ch '0').toNat = u.toNat - 48 := toNat_sub_of_isDigit hu
  have hten : (10 : UInt8).toNat = 10 := rfl
  rw [isDigit_iff] at ht hu
  rw [UInt8.toNat_add, UInt8.toNat_mul, htens, hunits, hten, value_pair]
  omega

/-- A header before the text `t`: what the core wants to see is such a text with the letter `a`
or `b`. -/
def header (minor : UInt8) (t : Bytes) : Bytes := ch '$' :: ch '2' :: minor :: ch '$' :: t

theorem encryptedText_eq (minor : UInt8) (st : Setting) (ciphertext : Bytes) :
    encryptedText minor (UInt8.ofNat st.cost) st.salt ciphertext =
      header minor (st.tail ++ alphabet.encode (ciphertext.take 23)) := by
  have hcost := st.cost_le
  rw [encryptedText, encodeBase64_eq, encodeBase64_eq, UInt8.toNat_ofNat',
    Nat.mod_eq_of_lt (by omega), Setting.tail, Setting.padTwo_cost]
  rfl

private theorem range_cost {cost : ℕ} (hlow : 4 ≤ cost) (hhigh : cost ≤ 31) :
    ¬ (UInt8.ofNat cost < bcryptMinLogRounds ∨ UInt8.ofNat cost > 31) := by
  have hcost : (UInt8.ofNat cost).toNat = cost := by
    rw [UInt8.toNat_ofNat', Nat.mod_eq_of_lt (by omega)]
  have hmin : bcryptMinLogRounds.toNat = 4 := rfl
  have hmax : (31 : UInt8).toNat = 31 := rfl
  rw [gt_iff_lt, UInt8.lt_iff_toNat_lt, UInt8.lt_iff_toNat_lt, hcost, hmin, hmax]
  omega

/-- Behind a header the salt bytes and the rounds are those of the setting, whatever
the key is. -/
theorem bcryptHashpass_header {minor : UInt8} {key t : Bytes} {st : Setting} {key_len : ℕ}
    (hkey : keyLen minor key = some key_len) (h : st.Spells t) :
    bcryptHashpass key (header minor t) bcryptHashSpace =
      some (encryptedText minor (UInt8.ofNat st.cost) st.salt
        (bcryptCiphertext key key_len st.salt (1 <<< (UInt8.ofNat st.cost).toUInt32))) := by
  obtain ⟨cs, rfl, hcs, hspells⟩ := h
  have hlow := st.four_le_cost
  have hhigh := st.cost_le
  have htens : isDigit (digit (st.cost / 10)) = true := isDigit_digit (by omega)
  have hunits : isDigit (digit (st.cost % 10)) = true := isDigit_digit (by omega)
  have hlogr : (digit (st.cost % 10) - ch '0') + (digit (st.cost / 10) - ch '0') * 10 =
      UInt8.ofNat st.cost := by
    apply UInt8.toNat_inj.mp
    rw [logr_toNat htens hunits, ← st.padTwo_cost, value_padTwo (by omega), UInt8.toNat_ofNat',
      Nat.mod_eq_of_lt (by omega)]
  have hrange := range_cost hlow hhigh
  have hstrlen : ¬ strlen cs * 3 / 4 < bcryptMaxSalt := by
    rw [strlen_of_notMem (hspells.notMem index_zero), hcs, bcryptMaxSalt]
    omega
  have hdecode : decodeBase64 bcryptMaxSalt cs = some st.salt :=
    (decodeBase64_eq_some_iff hcs).mpr hspells
  simp [Setting.padTwo_cost, header, bcryptHashpass, hlogr, htens, hunits, hrange,
    hstrlen, hdecode, hkey, bcryptVersion]

/-- A salt that spells a setting is hashed under that setting. -/
theorem bcryptHashpass_of_spells {minor : UInt8} {key t : Bytes} {st : Setting}
    (hminor : minor = ch 'a' ∨ minor = ch 'b') (hkey : 0 ∉ key) (hlen : key.length ≤ 72)
    (h : st.Spells t) :
    bcryptHashpass key (header minor t) bcryptHashSpace =
      some (header minor (st.hashTail key)) := by
  rw [bcryptHashpass_header (keyLen_eq hminor hkey hlen) h, encryptedText_eq]
  rfl

/-- The other way round: what is hashed at all spells a setting. The two lemmas together replace
the body of the function from here on. -/
theorem exists_spells_of_bcryptHashpass {minor : UInt8} {key t out : Bytes}
    (ht : t.length = 25) (h : bcryptHashpass key (header minor t) bcryptHashSpace = some out) :
    ∃ st : Setting, st.Spells t := by
  match t, ht with
  | t0 :: t1 :: t2 :: cs, ht =>
    have hcs : cs.length = 22 := by simpa using ht
    simp only [header, bcryptHashpass, guard_bind, deref, List.drop_succ_cons, List.drop_zero,
      List.getD_cons_zero, List.getD_cons_succ, Option.bind_eq_bind, Option.ite_none_right_eq_some,
      Option.bind_eq_some_iff] at h
    obtain ⟨-, -, -, key_len, -, -, ⟨h0, h1, h2⟩, hrange, -, csalt, hdecode, -⟩ := h
    have hlogr := logr_toNat h0 h1
    have hspells := (decodeBase64_eq_some_iff hcs).mp hdecode
    obtain ⟨hlow, hhigh⟩ := not_or.mp hrange
    rw [UInt8.not_lt, UInt8.le_iff_toNat_le, hlogr] at hlow
    rw [gt_iff_lt, UInt8.not_lt, UInt8.le_iff_toNat_le, hlogr] at hhigh
    have hlength := hspells.length
    rw [hcs] at hlength
    refine ⟨⟨_, csalt, hlow, hhigh, hlength⟩, cs, ?_, hcs, hspells⟩
    rw [padTwo_value h0 h1, h2]
    rfl

/-- Whatever is hashed starts with a header of revision `a` or `b`; a salt without a header
never gets this far. -/
theorem exists_header_of_bcryptHashpass {key salt out : Bytes} {n : ℕ}
    (h : bcryptHashpass key salt n = some out) :
    ∃ minor t, (minor = ch 'a' ∨ minor = ch 'b') ∧ salt = header minor t := by
  simp only [bcryptHashpass, guard_bind, Option.bind_eq_bind, Option.ite_none_right_eq_some,
    Option.bind_eq_some_iff] at h
  obtain ⟨-, h0, h1, key_len, hkey, h3, -⟩ := h
  have hminor : deref (salt.drop 1) 1 = ch 'a' ∨ deref (salt.drop 1) 1 = ch 'b' := by
    unfold keyLen at hkey
    by_cases ha : deref (salt.drop 1) 1 = ch 'a'
    · exact .inl ha
    · rw [if_neg ha] at hkey
      by_cases hb : deref (salt.drop 1) 1 = ch 'b'
      · exact .inr hb
      · rw [if_neg hb] at hkey
        exact absurd hkey (by simp)
  have hne : deref (salt.drop 1) 1 ≠ 0 := by
    rcases hminor with hm | hm <;> rw [hm] <;> decide
  have e0 := drop_eq_cons_of_deref h0 (by decide)
  have e1 := drop_eq_cons_of_deref h1 (by decide)
  have e2 := drop_eq_cons_of_deref rfl hne
  have e3 := drop_eq_cons_of_deref h3 (by decide)
  refine ⟨_, (salt.drop 1).drop 3, hminor, ?_⟩
  rw [List.drop_zero] at e0 e1
  conv_lhs => rw [e0, e1, e2, e3]
  rfl

private theorem length_flatMap_wordBytes (ws : List UInt32) :
    (ws.flatMap wordBytes).length = 4 * ws.length := by
  induction ws with
  | nil => rfl
  | cons w ws ih =>
    rw [List.flatMap_cons, List.length_append, ih, List.length_cons]
    simp only [wordBytes, List.length_cons, List.length_nil]
    omega

@[simp] theorem length_bcryptCiphertext (key : Bytes) (key_len : ℕ) (csalt : Bytes)
    (rounds : UInt32) :
    (bcryptCiphertext key key_len csalt rounds).length = 24 := by
  have hiterate : ∀ (c : BlfCtx) (n : ℕ) (data : List UInt32),
      ((blfEnc c (bcryptWords / 2))^[n] data).length = data.length := by
    intro c n data
    induction n with
    | zero => rfl
    | succ n ih => rw [Function.iterate_succ_apply', length_blfEnc, ih]
  rw [bcryptCiphertext, length_flatMap_wordBytes, hiterate, length_streamWords]
  rfl

@[simp] theorem length_digest (st : Setting) (key : Bytes) : (st.digest key).length = 31 := by
  rw [Setting.digest, Alphabet.length_encode, List.length_take, length_bcryptCiphertext]
  rfl

theorem zero_notMem_of_spells {st : Setting} {t : Bytes} (h : st.Spells t) : 0 ∉ t := by
  obtain ⟨cs, rfl, -, hcs⟩ := h
  have hcost := st.cost_le
  rw [Setting.padTwo_cost]
  simp only [List.cons_append, List.nil_append, List.mem_cons, not_or]
  refine ⟨?_, ?_, by decide, hcs.notMem index_zero⟩ <;>
  · intro h
    have hn := congrArg UInt8.toNat h
    rw [toNat_digit (by omega), UInt8.toNat_zero] at hn
    omega

theorem length_of_spells {st : Setting} {t : Bytes} (h : st.Spells t) : t.length = 25 := by
  obtain ⟨cs, rfl, hlength, -⟩ := h
  rw [Setting.padTwo_cost, List.length_append, List.length_cons, List.length_cons,
    List.length_cons, hlength]
  rfl

@[simp] theorem length_tail (st : Setting) : st.tail.length = 25 :=
  length_of_spells st.tail_spells

end Passe.Bcrypt
