import Passe.BcryptHashing

/-!
# Generated salts

A salt is made of a cost and sixteen random bytes. The stub's buffer has room for
their text, the text decodes to the same bytes, and the salt put together from it
is the header of exactly the setting it was made for, so nothing random is lost
before the key setup.
-/
namespace Passe.Bcrypt
open Radix64 Decimal

section Base64
variable (bs : Bytes)

/-- Four thirds of the number of bytes, rounded up. -/
@[simp] theorem length_encodeBase64 : (encodeBase64 bs).length = (4 * bs.length + 2) / 3 := by
  rw [encodeBase64_eq, Alphabet.length_encode, sextetCount]

theorem mem_base64Code_of_mem_encode {c : UInt8} (hc : c ∈ encodeBase64 bs) : c ∈ base64Code := by
  rw [encodeBase64_eq] at hc
  exact exists_map_code_iff.mp ⟨sextets bs, rfl⟩ c hc

@[simp] theorem decodeBase64_encodeBase64 : decodeBase64 bs.length (encodeBase64 bs) = some bs := by
  rw [encodeBase64_eq, decodeBase64_eq_some_iff (Alphabet.length_encode _ _)]
  exact alphabet.encode_spells bs

/-- Text and terminator fit into the buffer of the stub, for every number of bytes and not only
for the sixteen of a salt. -/
theorem length_base64Written_le : (base64Written bs).length ≤ destLen bs.length := by
  rw [base64Written, List.length_append, encodeBase64_eq, Alphabet.length_encode, sextetCount,
    List.length_singleton, destLen]
  omega

/-- The terminator is the first zero byte that was written, so the string that `strlen` measures
is the whole text. -/
@[simp] theorem cString_base64Written : cString (base64Written bs) = encodeBase64 bs := by
  have hzero : 0 ∉ encodeBase64 bs := by rw [encodeBase64_eq]; exact notMem_zero_encode bs
  exact cString_append_zero hzero []

theorem bcryptBase64Encode_eq {malloc : ℕ → Bool} (hmalloc : malloc (destLen bs.length) = true) :
    bcryptBase64Encode malloc bs = .ok (encodeBase64 bs) := by
  rw [bcryptBase64Encode, hmalloc, if_neg (by decide)]
  simp only [cString_base64Written]

end Base64

section Salt
variable {malloc : ℕ → Bool} {generate : ℕ → Bytes} {cost : ℕ}

/-- The setting a generated salt is made for: the cost that `hash` was given and the sixteen
bytes of the generator. -/
def generatedSetting (generate : ℕ → Bytes) (cost : ℕ) (hlow : 4 ≤ cost) (hhigh : cost ≤ 31)
    (hgenerate : (generate 16).length = 16) : Setting :=
  ⟨cost, generate 16, hlow, hhigh, hgenerate⟩

theorem generateSalt_eq (hmalloc : malloc (destLen 16) = true) (hlow : 4 ≤ cost)
    (hhigh : cost ≤ 31) (hgenerate : (generate 16).length = 16) (v : Variant) :
    generateSalt malloc generate cost v =
      .ok (.ok (header v.minor (generatedSetting generate cost hlow hhigh hgenerate).tail)) := by
  have hstub : bcryptBase64Encode malloc (generate 16) = .ok (encodeBase64 (generate 16)) :=
    bcryptBase64Encode_eq _ (by rwa [hgenerate])
  have hlength : (encodeBase64 (generate 16)).length = 22 := by
    rw [encodeBase64_eq, Alphabet.length_encode, hgenerate]
    rfl
  rw [generateSalt]
  simp only [hstub, ok_bind, pure_eq_ok, hlength, sprintfInt_two]
  rw [if_neg (by decide), ← v.tag_append, encodeBase64_eq]
  simp only [List.append_assoc]
  rfl

/-- Two to the cost, as the shift of the C code computes it. -/
theorem toNat_rounds (hhigh : cost ≤ 31) :
    ((1 : UInt32) <<< (UInt8.ofNat cost).toUInt32).toNat = 2 ^ cost := by
  have hcost : (UInt8.ofNat cost).toUInt32.toNat = cost := by
    rw [UInt8.toNat_toUInt32, UInt8.toNat_ofNat', Nat.mod_eq_of_lt (by omega)]
  have hpow : 2 ^ cost < 2 ^ 32 := Nat.pow_lt_pow_right (by decide) (by omega)
  rw [UInt32.toNat_shiftLeft, hcost, Nat.mod_eq_of_lt (by omega : cost < 32), UInt32.toNat_one,
    Nat.shiftLeft_eq, Nat.one_mul, Nat.mod_eq_of_lt hpow]

theorem exists_keyLen (key : Bytes) : ∃ key_len, keyLen (ch 'b') key = some key_len :=
  ⟨_, rfl⟩

end Salt

/-- The base64 stub is lossless and stays inside its buffer, and so a generated salt
is accepted on both sides with its sixteen random bytes and its cost unchanged. -/
theorem generateSalt_lossless :
    (∀ (malloc : ℕ → Bool) (bs : Bytes), malloc (destLen bs.length) = true →
      ∃ s, bcryptBase64Encode malloc bs = .ok s ∧ s.length = (4 * bs.length + 2) / 3 ∧
        (∀ c ∈ s, c ∈ base64Code) ∧ (base64Written bs).length ≤ destLen bs.length ∧
        decodeBase64 bs.length s = some bs) ∧
    (∀ (malloc : ℕ → Bool) (generate : ℕ → Bytes) (cost : ℕ), malloc (destLen 16) = true →
      (generate 16).length = 16 → 4 ≤ cost → cost ≤ 31 →
      ∃ s, generateSalt malloc generate cost .B = .ok (.ok s) ∧ s.length = 29 ∧
        s.take 4 = ascii "$2b$" ∧ isSaltValid s = .ok true ∧
        ∀ key, ∃ key_len rounds, keyLen (ch 'b') key = some key_len ∧ rounds.toNat = 2 ^ cost ∧
          bcryptHashpass key s bcryptHashSpace =
            some (encryptedText (ch 'b') (UInt8.ofNat cost) (generate 16)
              (bcryptCiphertext key key_len (generate 16) rounds))) := by
  refine ⟨fun malloc bs hmalloc => ?_, fun malloc generate cost hmalloc hgenerate hlow hhigh => ?_⟩
  · exact ⟨_, bcryptBase64Encode_eq bs hmalloc, length_encodeBase64 bs,
      fun c hc => mem_base64Code_of_mem_encode bs hc, length_base64Written_le bs,
      decodeBase64_encodeBase64 bs⟩
  · let st := generatedSetting generate cost hlow hhigh hgenerate
    refine ⟨header (ch 'b') st.tail, generateSalt_eq hmalloc hlow hhigh hgenerate .B,
      by simp [header], rfl, isSaltValid_header .B (length_tail st), fun key => ?_⟩
    obtain ⟨key_len, hkey⟩ := exists_keyLen key
    have hpass := bcryptHashpass_header hkey st.tail_spells
    exact ⟨key_len, _, hkey, toNat_rounds hhigh, hpass⟩

theorem generateSalt_lossless_zero :
    (∃ s, generateSalt (fun _ => true) (fun n => List.replicate n 0) 12 .B = .ok (.ok s) ∧
      s.length = 29 ∧ isSaltValid s = .ok true) ∧
    ∃ s, bcryptBase64Encode (fun _ => true) (ascii "salt") = .ok s ∧
      decodeBase64 4 s = some (ascii "salt") := by
  obtain ⟨hbase64, hsalt⟩ := generateSalt_lossless
  obtain ⟨s, hs, hlength, -, hvalid, -⟩ := hsalt (fun _ => true) (fun n => List.replicate n 0) 12
    rfl rfl (by decide) (by decide)
  obtain ⟨t, ht, -, -, -, hdecode⟩ := hbase64 (fun _ => true) (ascii "salt") rfl
  exact ⟨⟨s, hs, hlength, hvalid⟩, t, ht, hdecode⟩

section Hash
variable {malloc : ℕ → Bool} {generate : ℕ → Bytes} {p : Bytes}

/-- Under a cost in range `hash` is the outcome for the generated setting. -/
theorem hash_eq_outcome {cost : Option CamlInt} {n : ℕ}
    (hn : (cost.map Subtype.val).getD defaultCost = n) (hmalloc : malloc (destLen 16) = true)
    (hlow : 4 ≤ n) (hhigh : n ≤ 31) (hgenerate : (generate 16).length = 16) (p : Bytes) :
    hash malloc generate cost p =
      outcome .B (generatedSetting generate n hlow hhigh hgenerate).tail p := by
  have hrange : ¬ ((n : ℤ) < minCost ∨ (n : ℤ) > maxCost) := by
    rw [minCost, maxCost]
    omega
  unfold hash
  simp only [hn, if_neg hrange, generateSalt_eq hmalloc hlow hhigh hgenerate, ok_bind]
  exact hashWithSalt_header .B (length_tail _) p

/-- Whatever the cost, the allocator and the generator do, a hash that is handed out
verifies. -/
theorem verify_of_hash {cost : Option CamlInt} {h : Bytes}
    (hok : hash malloc generate cost p = .ok (.ok h)) : verify h p = .ok (.ok true) := by
  unfold hash at hok
  dsimp only at hok
  split_ifs at hok with hcost
  · exact absurd (Except.ok.inj hok) (by simp)
  · cases hsalt : generateSalt malloc generate ((cost.map Subtype.val).getD defaultCost) .B with
    | error exn =>
      rw [hsalt, error_bind] at hok
      exact absurd hok (by simp)
    | ok result =>
      rw [hsalt, ok_bind] at hok
      cases result with
      | error e => exact absurd (Except.ok.inj hok) (by simp)
      | ok salt => exact verify_of_hashWithSalt hok

end Hash

end Passe.Bcrypt
