import Passe.BcryptGenerate
import Passe.BcryptStored
import Passe.Argon2Stub

/-!
# Hashing and verification from the caller's side

The two `hash` functions take their salt from the random generator. Where that
generator, the allocator and the host do their part, hashing fails for the
password alone, and a stored string verifies with exactly the passwords that
would have been stored as the same string.
-/
namespace Passe.Bcrypt

section Hash
variable {malloc : ℕ → Bool} {generate : ℕ → Bytes} {cost : Option CamlInt} {n : ℕ}

/-- Hashing succeeds for every password the guards let through. The string carries the cost and
the random bytes. What `verify` answers to it is settled for every password: the two guards speak
up again, and a password that passes them is accepted when its own string would be the same. -/
theorem hash_generated (hn : (cost.map Subtype.val).getD defaultCost = n)
    (hmalloc : malloc (destLen 16) = true) (hlow : 4 ≤ n) (hhigh : n ≤ 31)
    (hgenerate : (generate 16).length = 16) :
    (∀ p, 72 < p.length → hash malloc generate cost p = .ok (.error (.truncated 72))) ∧
    (∀ p, p.length ≤ 72 → 0 ∈ p → hash malloc generate cost p = .error passwordNul) ∧
    ∀ p, p.length ≤ 72 → 0 ∉ p → ∃ h, hash malloc generate cost p = .ok (.ok h) ∧
      h.length = 60 ∧ revisionLetter h = ch 'b' ∧ costField h = n ∧
      saltBytes h = some (generate 16) ∧
      (∀ q, 72 < q.length → verify h q = .ok (.error (.truncated 72))) ∧
      (∀ q, q.length ≤ 72 → 0 ∈ q → verify h q = .error passwordNul) ∧
      ∀ q, q.length ≤ 72 → 0 ∉ q → ∃ h', hash malloc generate cost q = .ok (.ok h') ∧
        verify h q = .ok (.ok (decide (h' = h))) := by
  have hhash := hash_eq_outcome hn hmalloc hlow hhigh hgenerate
  let st := generatedSetting generate n hlow hhigh hgenerate
  have hlong : ∀ p, 72 < p.length → hash malloc generate cost p = .ok (.error (.truncated 72)) := by
    intro p hp
    rw [hhash, outcome, if_pos hp]
  have hzero : ∀ p, p.length ≤ 72 → 0 ∈ p → hash malloc generate cost p = .error passwordNul := by
    intro p hp h0
    rw [hhash, outcome, if_neg (Nat.not_lt.mpr hp), if_pos h0]
  have hstored : ∀ p, p.length ≤ 72 → 0 ∉ p →
      hash malloc generate cost p = .ok (.ok (header (ch 'b') (st.hashTail p))) := by
    intro p hp h0
    rw [hhash, outcome_eq_ok_iff]
    exact ⟨⟨h0, hp⟩, st, st.tail_spells, rfl⟩
  -- The salt part of the string is the one it was made with, so `verify` hashes again.
  have hverify : ∀ p q, verify (header (ch 'b') (st.hashTail p)) q =
      compared (header (ch 'b') (st.hashTail p)) (hash malloc generate cost q) := by
    intro p q
    rw [hhash, ← take_hashTail st p]
    exact verify_header .B (length_hashTail st p) q
  refine ⟨hlong, hzero, fun p hp h0 => ⟨_, hstored p hp h0, by simp [header], rfl,
    costField_hashTail .B st p, saltBytes_hashTail .B st p, fun q hq => ?_, fun q hq hq0 => ?_,
    fun q hq hq0 => ⟨_, hstored q hq hq0, ?_⟩⟩⟩
  · rw [hverify, hlong q hq]
    rfl
  · rw [hverify, hzero q hq hq0]
    rfl
  · rw [hverify, hstored q hq hq0]
    rfl

theorem hash_generated_zero : ∃ h, hash (fun _ => true) (fun n => List.replicate n 0) none
      (ascii "secret") = .ok (.ok h) ∧
    costField h = 12 ∧ verify h (ascii "secret") = .ok (.ok true) ∧
      verify h (List.replicate 73 65) = .ok (.error (.truncated 72)) := by
  obtain ⟨-, -, hhash⟩ := @hash_generated (fun _ => true) (fun n => List.replicate n 0) none 12
    rfl rfl (by decide) (by decide) rfl
  obtain ⟨h, hok, -, -, hcost, -, hlong, -, hverify⟩ :=
    hhash (ascii "secret") (by decide) (by decide)
  obtain ⟨h', hok', hanswer⟩ := hverify (ascii "secret") (by decide) (by decide)
  obtain rfl : h' = h := Except.ok.inj (Except.ok.inj (hok'.symm.trans hok))
  exact ⟨h', hok, hcost, by rw [hanswer, decide_eq_true rfl], hlong _ (by decide)⟩

end Hash

end Passe.Bcrypt

namespace Passe.Argon2
open Radix64

section Hash
variable {host : Host} {t m p : UInt32} {salt pwd q : Bytes} {params : Option Params}

/-- What the C side asks of the reduced costs, with eight blocks for each lane. -/
structure Costs (t m p : UInt32) : Prop where
  t_pos : 1 ≤ t.toNat
  m_ge : 8 * p.toNat ≤ m.toNat
  p_pos : 1 ≤ p.toNat
  p_le : p.toNat ≤ 0xFFFFFF

theorem Costs.valid (h : Costs t m p) (hsalt : salt.length = 16) :
    (inputContext t m p pwd salt 32 argon2VersionNumber).Valid := by
  have htpos := h.t_pos
  have hmge := h.m_ge
  have hppos := h.p_pos
  have hmax : (16 : ℕ) ≤ uint32Max := by decide
  rw [inputContext, hashContext_valid_iff (hsalt ▸ hmax) (by rw [List.length_replicate]; decide),
    List.length_replicate, hsalt]
  exact ⟨by decide, by decide, htpos, by omega, hmge, hppos, h.p_le⟩

/-- The text that hashing writes under a generated salt, with the costs as they are recorded in
it. -/
def generatedText (t m p : UInt32) (salt pwd : Bytes) : Bytes :=
  encoded (tagContext t m p pwd salt 32 argon2VersionNumber .id) .id

theorem Costs.validated (h : Costs t m p) (hsalt : salt.length = 16)
    (hpwd : pwd.length ≤ uint32Max) : Validated (Params.ofUInt32 t m p) salt pwd := by
  refine ⟨by rw [hsalt]; decide, hpwd, ?_⟩
  rw [stubContext_of_reducesTo (Params.ofUInt32_reducesTo t m p), validateInputs_eq_ok_iff]
  exact h.valid hsalt

theorem Costs.params_ok (h : Costs t m p) (hsalt : salt.length = 16) :
    validateParams (Params.ofUInt32 t m p) = .ok () :=
  validateParams_ofUInt32 (@Costs.valid t m p salt [] h hsalt) rfl rfl rfl

theorem minSaltLength_le (hsalt : salt.length = 16) : minSaltLength ≤ salt.length := by
  rw [hsalt]
  decide

theorem Costs.accepted (h : Costs t m p) (hsalt : salt.length = 16)
    (hpwd : pwd.length ≤ uint32Max) : Accepted (Params.ofUInt32 t m p) salt pwd :=
  accepted_of_inputs_ok (h.params_ok hsalt) (minSaltLength_le hsalt) (by omega) hpwd
    (h.validated hsalt hpwd).inputs_ok

theorem Costs.hash_eq (h : Costs t m p) (hhost : host.Generous) (hsalt : salt.length = 16)
    (hparams : params.getD defaultParams = Params.ofUInt32 t m p) (hpwd : pwd.length ≤ uint32Max) :
    hash host salt params pwd = .ok (generatedText t m p salt pwd) := by
  unfold hash
  simp only [hparams, (h.accepted hsalt hpwd).params_ok]
  exact hashWithSalt_ofUInt32 hhost (h.validated hsalt hpwd) (by omega)

/-- The buffer of the stub holds every text, since the three numbers have at most ten digits
each. -/
theorem Costs.length_lt (h : Costs t m p) (hsalt : salt.length = 16)
    (hpwd : pwd.length ≤ uint32Max) : (generatedText t m p salt pwd).length < maxEncodedLen := by
  rw [generatedText, ← storedContext_of_reducesTo (Params.ofUInt32_reducesTo t m p)]
  exact (h.accepted hsalt hpwd).length_lt

theorem Costs.length_generatedText (h : Costs t m p) (hsalt : salt.length = 16) (pwd : Bytes) :
    (generatedText t m p salt pwd).length + 1 = argon2Encodedlen t m p 16 32 .id := by
  have hvalid : (inputContext t m p pwd salt 32 argon2VersionNumber).Valid := h.valid hsalt
  have hmax : salt.length ≤ uint32Max := by
    rw [hsalt]
    decide
  have hlength := length_encoded_tagContext (validateInputs_eq_ok_iff.mpr hvalid) hmax
  rwa [hsalt] at hlength

theorem Costs.length_tag (h : Costs t m p) (hsalt : salt.length = 16) (pwd : Bytes) :
    (callTag t m p pwd salt 32 argon2VersionNumber .id).length = 32 :=
  length_callTag .id (by decide) (h.valid hsalt)

theorem Costs.generatedText_eq (h : Costs t m p) (hsalt : salt.length = 16) (pwd : Bytes) :
    generatedText t m p salt pwd = formatText .id (some argon2VersionNumber) t m p salt
      (callTag t m p pwd salt 32 argon2VersionNumber .id) :=
  encoded_eq_formatText argon2VersionNumber (by rw [hsalt]; decide)
    (by rw [h.length_tag hsalt]; decide)

/-- Under one salt the texts of two passwords agree when their tags do. -/
theorem Costs.generatedText_eq_iff (h : Costs t m p) (hsalt : salt.length = 16) (pwd q : Bytes) :
    generatedText t m p salt q = generatedText t m p salt pwd ↔
      callTag t m p pwd salt 32 argon2VersionNumber .id =
        callTag t m p q salt 32 argon2VersionNumber .id := by
  rw [h.generatedText_eq hsalt, h.generatedText_eq hsalt]
  constructor
  · intro htext
    simp only [formatText, List.append_cancel_left_eq] at htext
    refine (alphabet.encode_spells _).unique ?_
    rw [← htext]
    exact alphabet.encode_spells _
  · intro htag
    rw [htag]

theorem Costs.verify_generatedText (h : Costs t m p) (hhost : host.Generous)
    (hsalt : salt.length = 16) (hpwd : pwd.length ≤ uint32Max) (hq : q.length ≤ uint32Max) :
    verify host (generatedText t m p salt pwd) q =
      .ok (.ok (decide (generatedText t m p salt q = generatedText t m p salt pwd))) := by
  have htag := h.length_tag hsalt pwd
  have hinput : (inputContext t m p pwd salt 32 argon2VersionNumber).Valid := h.valid hsalt
  have hvalid : (hashContext t m p q salt (callTag t m p pwd salt 32 argon2VersionNumber .id)
      (versionNumber (some argon2VersionNumber))).Valid :=
    { tagContext_valid .id (by decide) hinput with
      pwdlen_eq := fun hnone => absurd hnone (Option.some_ne_none _) }
  have hzero : 0 ∉ generatedText t m p salt pwd := zero_notMem_encoded _ _
  have hlength : (generatedText t m p salt pwd).length ≤ uint32Max :=
    (h.length_lt hsalt hpwd).le.trans (by decide)
  have hverify := argon2idVerify_formatText hhost hvalid (h.generatedText_eq hsalt pwd) hzero
    hlength hq
  rw [htag] at hverify
  change argon2idVerify host (generatedText t m p salt pwd) q =
    if callTag t m p pwd salt 32 argon2VersionNumber .id =
      callTag t m p q salt 32 argon2VersionNumber .id then _ else _ at hverify
  have hne : generatedText t m p salt pwd ≠ [] := encoded_ne_nil _ _
  rw [verify_of_stub hne hzero, hverify]
  by_cases hsame : callTag t m p pwd salt 32 argon2VersionNumber .id =
      callTag t m p q salt 32 argon2VersionNumber .id
  · rw [if_pos hsame, decide_eq_true ((h.generatedText_eq_iff hsalt pwd q).mpr hsame)]
  · rw [if_neg hsame,
      decide_eq_false fun htext => hsame ((h.generatedText_eq_iff hsalt pwd q).mp htext)]

/-- A password above 32 bits never gets as far as the tag. -/
theorem Costs.hash_of_long (h : Costs t m p) (hsalt : salt.length = 16)
    (hparams : params.getD defaultParams = Params.ofUInt32 t m p) (hpwd : uint32Max < pwd.length) :
    hash host salt params pwd = .error (.hashFailure (ascii "Failed to generate hash")) := by
  have hempty : stubAnswer host (Params.ofUInt32 t m p) salt pwd = [] := by
    rcases stubAnswer_cases host (Params.ofUInt32 t m p) salt pwd with hnil | ⟨hvalidated, -, -⟩
    · exact hnil
    · exact absurd hvalidated.pwd_le (Nat.not_le.mpr hpwd)
  unfold hash
  simp only [hparams, h.params_ok hsalt]
  rw [hashWithSalt_eq (minSaltLength_le hsalt) (h.params_ok hsalt), hempty]
  rfl

/-- Neither does it when the text is verified, which the OCaml side reports as a mismatch. -/
theorem verify_generatedText_of_long (hq : uint32Max < q.length) :
    verify host (generatedText t m p salt pwd) q = .ok (.error .verifyMismatch) := by
  have hlong : q.length > argon2MaxPwdLength.toNat := hq
  have hne : generatedText t m p salt pwd ≠ [] := encoded_ne_nil _ _
  have hzero : 0 ∉ generatedText t m p salt pwd := zero_notMem_encoded _ _
  rw [verify_of_stub hne hzero, argon2idVerify, argon2Verify, reject_bind_of_true hlong]

/-- With costs in range and a salt of sixteen bytes every password below 32 bits has one text on
all hosts that refuse nothing. The text fills the length formula, and verifies with the passwords
of the same text. A longer password is a failure to hash, and an error and no answer when it is
verified. -/
theorem hash_of_costs (h : Costs t m p) (hsalt : salt.length = 16)
    (hparams : params.getD defaultParams = Params.ofUInt32 t m p) :
    ∃ text : Bytes → Bytes, ∀ host : Host, host.Generous → ∀ pwd : Bytes,
      (uint32Max < pwd.length → hash host salt params pwd =
        .error (.hashFailure (ascii "Failed to generate hash"))) ∧
      (pwd.length ≤ uint32Max →
        hash host salt params pwd = .ok (text pwd) ∧
        (text pwd).length + 1 = argon2Encodedlen t m p 16 32 .id ∧
        (text pwd).length < maxEncodedLen ∧
        ∀ q : Bytes,
          (uint32Max < q.length → verify host (text pwd) q = .ok (.error .verifyMismatch)) ∧
          (q.length ≤ uint32Max →
            verify host (text pwd) q = .ok (.ok (decide (text q = text pwd))))) := by
  refine ⟨generatedText t m p salt, fun host hhost pwd => ⟨h.hash_of_long hsalt hparams,
    fun hpwd => ⟨?_, ?_, ?_, fun q => ⟨verify_generatedText_of_long, fun hq => ?_⟩⟩⟩⟩
  · exact h.hash_eq hhost hsalt hparams hpwd
  · exact h.length_generatedText hsalt pwd
  · exact h.length_lt hsalt hpwd
  · exact h.verify_generatedText hhost hsalt hpwd hq

theorem hash_of_costs_default : ∃ text,
    hash ⟨true, fun _ => true⟩ (ascii "sixteen salt txt") none (ascii "password") = .ok text ∧
      verify ⟨false, fun _ => true⟩ text (ascii "password") = .ok (.ok true) := by
  have hcosts : Costs 2 19456 1 := ⟨by decide, by decide, by decide, by decide⟩
  obtain ⟨text, htext⟩ := @hash_of_costs 2 19456 1 (ascii "sixteen salt txt") none hcosts rfl rfl
  obtain ⟨hok, -⟩ := (htext ⟨true, fun _ => true⟩ (fun _ => rfl) (ascii "password")).2 (by decide)
  obtain ⟨-, -, -, hverify⟩ :=
    (htext ⟨false, fun _ => true⟩ (fun _ => rfl) (ascii "password")).2 (by decide)
  exact ⟨text (ascii "password"), hok, by rw [(hverify _).2 (by decide), decide_eq_true rfl]⟩

end Hash

end Passe.Argon2
