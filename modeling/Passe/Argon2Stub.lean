import Passe.Argon2Params
import Passe.Framing

/-!
# What the hash stub absorbs and what it hands out

The two ends of a call. The stream fed to the initial hash determines the three
reduced costs, the password and the salt, because every field of variable length
stands behind its own length. The answer is the complete text or the empty
string, and it is complete exactly when the length formula stays within the
buffer.
-/
namespace Passe.Argon2
open Decimal Radix64 Blake2 Framing

section Absorbed
variable {params params' : Params} {salt salt' pwd pwd' : Bytes}

/-- The bytes `passe_initial_hash` feeds to BLAKE2b in a call of the stub. -/
def absorbed (params : Params) (salt pwd : Bytes) : Bytes :=
  (initialHashPieces (stubContext params salt pwd) .id).flatten

/-- `store32` of a length that passed the checks, which is why four bytes hold it. -/
def storeLength (n : ℕ) : Bytes := store32 (UInt32.ofNat n)

theorem store32_prefixFree : PrefixFreeOn Set.univ store32 :=
  .of_fixedWidth (w := 4) (fun _ => rfl) store32_injective.injOn

theorem storeLength_injOn : Set.InjOn storeLength {n | n ≤ uint32Max} := by
  intro m hm n hn h
  have hword := congrArg UInt32.toNat (store32_injective h)
  have hm : m ≤ 2 ^ 32 - 1 := hm
  have hn : n ≤ 2 ^ 32 - 1 := hn
  rw [UInt32.toNat_ofNat', UInt32.toNat_ofNat', Nat.mod_eq_of_lt (by omega),
    Nat.mod_eq_of_lt (by omega)] at hword
  exact hword

/-- A password or a salt behind its length can be read off the front. -/
theorem field_prefixFree :
    PrefixFreeOn {bs : Bytes | bs.length ≤ uint32Max} (lengthPrefixed storeLength) :=
  (PrefixFreeOn.of_fixedWidth (w := 4) (fun _ => rfl) storeLength_injOn).lengthPrefixed

/-- The stream, field by field. The numbers of fixed width come first, and behind them a length
in front of each text. -/
theorem absorbed_eq (h : Validated params salt pwd) :
    absorbed params salt pwd = store32 (uint32OfIntVal params.parallelism) ++ (store32 32 ++
      (store32 (uint32OfIntVal params.mCost) ++ (store32 (uint32OfIntVal params.tCost) ++
      (store32 argon2VersionNumber ++ (store32 2 ++ (lengthPrefixed storeLength pwd ++
      (lengthPrefixed storeLength salt ++ (store32 0 ++ store32 0)))))))) := by
  have hpwd := toNat_ofNat_length h.pwd_le
  have hsalt := toNat_ofNat_length h.salt_le
  simp only [absorbed, initialHashPieces, stubContext, inputContext, hashContext,
    Option.map_some, Option.map_none, Option.toList_some, Option.toList_none, hpwd, hsalt,
    List.take_length, List.cons_append, List.nil_append, List.flatten_cons, List.flatten_nil,
    List.append_nil, lengthPrefixed, storeLength, List.append_assoc]
  rfl

/-- The stream determines everything the call depends on: read from the front, each field tells
where the next one starts. -/
theorem eq_of_absorbed_eq (h : Validated params salt pwd) (h' : Validated params' salt' pwd')
    (heq : absorbed params salt pwd = absorbed params' salt' pwd') :
    uint32OfIntVal params.tCost = uint32OfIntVal params'.tCost ∧
      uint32OfIntVal params.mCost = uint32OfIntVal params'.mCost ∧
      uint32OfIntVal params.parallelism = uint32OfIntVal params'.parallelism ∧
      pwd = pwd' ∧ salt = salt' := by
  rw [absorbed_eq h, absorbed_eq h'] at heq
  obtain ⟨hlanes, heq⟩ := store32_prefixFree trivial trivial heq
  obtain ⟨-, heq⟩ := store32_prefixFree trivial trivial heq
  obtain ⟨hm, heq⟩ := store32_prefixFree trivial trivial heq
  obtain ⟨ht, heq⟩ := store32_prefixFree trivial trivial heq
  obtain ⟨-, heq⟩ := store32_prefixFree trivial trivial heq
  obtain ⟨-, heq⟩ := store32_prefixFree trivial trivial heq
  obtain ⟨hpwd, heq⟩ := field_prefixFree h.pwd_le h'.pwd_le heq
  obtain ⟨hsalt, -⟩ := field_prefixFree h.salt_le h'.salt_le heq
  exact ⟨ht, hm, hlanes, hpwd, hsalt⟩

/-- The pieces make one digest, whether they come one by one or as the whole stream. -/
theorem blake2b_absorbed (params : Params) (salt pwd : Bytes) :
    blake2b argon2PrehashDigestLength (absorbed params salt pwd) =
      some (initialHash (stubContext params salt pwd) .id) := by
  rw [initialHash_eq]
  exact blake2b_eq (by decide) (by decide) _

/-- The initial hash of a call is the digest of its stream, and two validated calls with one stream
are the same call; in particular no byte can move between password and salt, and nothing hides
behind a zero byte. -/
theorem absorbed_no_aliasing :
    (∀ (params : Params) (salt pwd : Bytes), blake2b argon2PrehashDigestLength
      (absorbed params salt pwd) = some (initialHash (stubContext params salt pwd) .id)) ∧
    (∀ (params params' : Params) (salt salt' pwd pwd' : Bytes), Validated params salt pwd →
      Validated params' salt' pwd' → absorbed params salt pwd = absorbed params' salt' pwd' →
      uint32OfIntVal params.tCost = uint32OfIntVal params'.tCost ∧
        uint32OfIntVal params.mCost = uint32OfIntVal params'.mCost ∧
        uint32OfIntVal params.parallelism = uint32OfIntVal params'.parallelism ∧
        pwd = pwd' ∧ salt = salt') ∧
    (∀ (params params' : Params) (salt pwd moved : Bytes), moved ≠ [] →
      Validated params (moved ++ salt) pwd → Validated params' salt (pwd ++ moved) →
      absorbed params (moved ++ salt) pwd ≠ absorbed params' salt (pwd ++ moved)) ∧
    (∀ (params params' : Params) (salt salt' front back back' : Bytes), back ≠ back' →
      Validated params salt (front ++ 0 :: back) → Validated params' salt' (front ++ 0 :: back') →
      absorbed params salt (front ++ 0 :: back) ≠ absorbed params' salt' (front ++ 0 :: back')) ∧
    (∀ (params params' : Params) (pwd pwd' front back back' : Bytes), back ≠ back' →
      Validated params (front ++ 0 :: back) pwd → Validated params' (front ++ 0 :: back') pwd' →
      absorbed params (front ++ 0 :: back) pwd ≠ absorbed params' (front ++ 0 :: back') pwd') := by
  refine ⟨blake2b_absorbed, fun _ _ _ _ _ _ => eq_of_absorbed_eq, ?_, ?_, ?_⟩
  · intro params params' salt pwd moved hmoved h h' heq
    obtain ⟨-, -, -, hpwd, -⟩ := eq_of_absorbed_eq h h' heq
    exact hmoved (List.self_eq_append_right.mp hpwd)
  · intro params params' salt salt' front back back' hback h h' heq
    obtain ⟨-, -, -, hpwd, -⟩ := eq_of_absorbed_eq h h' heq
    exact hback (List.cons.inj (List.append_cancel_left hpwd)).2
  · intro params params' pwd pwd' front back back' hback h h' heq
    obtain ⟨-, -, -, -, hsalt⟩ := eq_of_absorbed_eq h h' heq
    exact hback (List.cons.inj (List.append_cancel_left hsalt)).2

theorem absorbed_no_aliasing_moved :
    absorbed defaultParams (ascii "dsaltsalt") (ascii "passwor") ≠
      absorbed defaultParams (ascii "saltsalt") (ascii "password") :=
  absorbed_no_aliasing.2.2.1 defaultParams defaultParams (ascii "saltsalt") (ascii "passwor")
    (ascii "d") (by decide) ⟨by decide, by decide, rfl⟩ ⟨by decide, by decide, rfl⟩

end Absorbed

section Answer
variable {t m p : UInt32} {salt pwd : Bytes}

/-- The costs of a call, once the stub has reduced them. Many parameters come to the same three
words. -/
structure Params.ReducesTo (params : Params) (t m p : UInt32) : Prop where
  tCost : uint32OfIntVal params.tCost = t
  mCost : uint32OfIntVal params.mCost = m
  parallelism : uint32OfIntVal params.parallelism = p

/-- The costs `t`, `m` and `p` as a caller writes them who stays within 32 bits. -/
def Params.ofUInt32 (t m p : UInt32) : Params :=
  ⟨CamlInt.ofUInt32 t, CamlInt.ofUInt32 m, CamlInt.ofUInt32 p⟩

theorem Params.ofUInt32_reducesTo (t m p : UInt32) : (Params.ofUInt32 t m p).ReducesTo t m p :=
  ⟨uint32OfIntVal_ofUInt32 t, uint32OfIntVal_ofUInt32 m, uint32OfIntVal_ofUInt32 p⟩

theorem stubContext_of_reducesTo {params : Params} (h : params.ReducesTo t m p)
    (salt pwd : Bytes) :
    stubContext params salt pwd = inputContext t m p pwd salt 32 argon2VersionNumber := by
  obtain ⟨rfl, rfl, rfl⟩ := h
  rfl

theorem storedContext_of_reducesTo {params : Params} (h : params.ReducesTo t m p)
    (salt pwd : Bytes) :
    storedContext params salt pwd = tagContext t m p pwd salt 32 argon2VersionNumber .id := by
  obtain ⟨rfl, rfl, rfl⟩ := h
  rfl

/-- Reduced costs the C side accepts are costs the OCaml side accepts. -/
theorem validateParams_ofUInt32 {context : Context} (hvalid : context.Valid)
    (ht : context.tCost = t) (hm : context.mCost = m) (hp : context.lanes = p) :
    validateParams (Params.ofUInt32 t m p) = .ok () := by
  have htime := hvalid.tCost_pos
  have hmemory := hvalid.mCost_ge
  have hlow := hvalid.lanes_pos
  have hhigh := hvalid.lanes_le
  rw [ht] at htime
  rw [hm] at hmemory
  rw [hp] at hlow hhigh
  have hval : ∀ n : UInt32, (CamlInt.ofUInt32 n).val = n.toNat := fun n => rfl
  rw [validateParams_eq_ok_iff, Params.ofUInt32, hval, hval, hval]
  omega

theorem length_encoded_tagContext
    (hvalid : validateInputs (inputContext t m p pwd salt 32 argon2VersionNumber) = .ok ())
    (hsalt : salt.length ≤ uint32Max) :
    (encoded (tagContext t m p pwd salt 32 argon2VersionNumber .id) .id).length + 1 =
      argon2Encodedlen t m p (UInt32.ofNat salt.length) 32 .id := by
  have h := Params.ofUInt32_reducesTo t m p
  have hcontext : (stubContext (Params.ofUInt32 t m p) salt pwd).Valid := by
    rwa [stubContext_of_reducesTo h, ← validateInputs_eq_ok_iff]
  have hlength := length_encoded_storedContext hsalt hcontext
  rw [storedContext_of_reducesTo h, h.tCost, h.mCost, h.parallelism] at hlength
  exact hlength

/-- A validated call is answered with the complete text exactly when the text fits. -/
theorem stubAnswer_eq_iff {host : Host} {params : Params} (hhost : host.Generous)
    (h : Validated params salt pwd) :
    stubAnswer host params salt pwd = encoded (storedContext params salt pwd) .id ↔
      (encoded (storedContext params salt pwd) .id).length ≤ 511 := by
  constructor
  · intro htext
    rcases stubAnswer_cases host params salt pwd with hnil | ⟨-, hfits, -⟩
    · exact absurd (htext.symm.trans hnil) (encoded_ne_nil _ _)
    · exact Nat.lt_succ_iff.mp hfits
  · exact fun hfits => stubAnswer_of_generous hhost h (Nat.lt_succ_iff.mpr hfits)

/-- The OCaml side adds no check that a salt of at most 311 bytes could fail. -/
theorem hashWithSalt_ofUInt32 {host : Host} (hhost : host.Generous)
    (h : Validated (Params.ofUInt32 t m p) salt pwd) (hshort : salt.length ≤ 311) :
    hashWithSalt host salt (Params.ofUInt32 t m p) pwd =
      .ok (encoded (tagContext t m p pwd salt 32 argon2VersionNumber .id) .id) := by
  have hreduces := Params.ofUInt32_reducesTo t m p
  have hvalid := validateInputs_eq_ok_iff.mp h.inputs_ok
  rw [stubContext_of_reducesTo hreduces] at hvalid
  have hparams := validateParams_ofUInt32 hvalid rfl rfl rfl
  have hmin : 8 ≤ (UInt32.ofNat salt.length).toNat := hvalid.saltlen_ge
  rw [toNat_ofNat_length h.salt_le] at hmin
  rw [← storedContext_of_reducesTo hreduces]
  exact hashWithSalt_of_accepted hhost
    (accepted_of_inputs_ok hparams hmin hshort h.pwd_le h.inputs_ok)

/-- For costs and a salt that `passe_validate_inputs` accepts, the stub answers with
the complete text or with nothing, and with the complete text exactly when the
length formula stays below the size of the buffer. -/
theorem stubAnswer_complete_or_empty
    (hvalid : validateInputs (inputContext t m p pwd salt 32 argon2VersionNumber) = .ok ())
    (hsalt : salt.length ≤ uint32Max) :
    ∃ text, text = encoded (tagContext t m p pwd salt 32 argon2VersionNumber .id) .id ∧
      text.length = argon2Encodedlen t m p (UInt32.ofNat salt.length) 32 .id - 1 ∧
      (∀ (host : Host) (params : Params), params.ReducesTo t m p →
        stubAnswer host params salt pwd = text ∨ stubAnswer host params salt pwd = []) ∧
      ∀ host : Host, host.Generous → pwd.length ≤ uint32Max →
        (∀ params : Params, params.ReducesTo t m p →
          (stubAnswer host params salt pwd = text ↔ text.length ≤ 511)) ∧
        (salt.length ≤ 311 →
          hashWithSalt host salt (Params.ofUInt32 t m p) pwd = .ok text) := by
  have hvalidated : ∀ params : Params, params.ReducesTo t m p → pwd.length ≤ uint32Max →
      Validated params salt pwd := fun params h hpwd =>
    ⟨hsalt, hpwd, by rwa [stubContext_of_reducesTo h]⟩
  have hlength := length_encoded_tagContext hvalid hsalt
  refine ⟨_, rfl, by omega, fun host params h => ?_, fun host hhost hpwd => ⟨fun params h => ?_,
    fun hshort => ?_⟩⟩
  · rw [← storedContext_of_reducesTo h]
    rcases stubAnswer_cases host params salt pwd with hnil | ⟨-, -, htext⟩
    · exact .inr hnil
    · exact .inl htext
  · rw [← storedContext_of_reducesTo h]
    exact stubAnswer_eq_iff hhost (hvalidated params h hpwd)
  · exact hashWithSalt_ofUInt32 hhost (hvalidated _ (Params.ofUInt32_reducesTo t m p) hpwd) hshort

theorem stubAnswer_complete_or_empty_default : ∃ text,
    text.length = argon2Encodedlen 2 19456 1 8 32 .id - 1 ∧
      hashWithSalt ⟨true, fun _ => true⟩ (ascii "saltsalt") (Params.ofUInt32 2 19456 1)
        (ascii "password") = .ok text := by
  have hvalid : validateInputs (inputContext 2 19456 1 (ascii "password") (ascii "saltsalt") 32
      argon2VersionNumber) = .ok () := rfl
  obtain ⟨text, -, hlength, -, hgenerous⟩ := stubAnswer_complete_or_empty hvalid (by decide)
  obtain ⟨-, hok⟩ := hgenerous ⟨true, fun _ => true⟩ (fun _ => rfl) (by decide)
  exact ⟨text, hlength, hok (by decide)⟩

end Answer

end Passe.Argon2
