import Passe.Argon2Outcome

/-!
# A hash verifies with its password

The comparison of two tags is exact, and a hash that was handed out decodes to
the context it was made from. The two contexts differ in the contents of the
output buffer only, so the tag that `verify` computes is the stored one.
-/
namespace Passe.Argon2
open Radix64

private theorem compare_shift : ∀ d : UInt8,
    ((1 : Int32) &&& ((d.toUInt32.toInt32 - 1) >>> 8)) - 1 = 0 ↔ d = 0 := by
  decide +kernel

/-- The shift of the accumulator tells zero from every other byte, so the comparison is exact in
both directions. -/
theorem argon2Compare_eq_zero_iff {b1 b2 : Bytes} {len : ℕ} (h1 : b1.length = len)
    (h2 : b2.length = len) : argon2Compare b1 b2 len = 0 ↔ b1 = b2 := by
  rw [argon2Compare, compare_shift, foldl_or_eq_zero_iff (fun _ _ => UInt8.or_eq_zero_iff)]
  constructor
  · rintro ⟨-, hall⟩
    apply List.ext_getElem (h1.trans h2.symm)
    intro i hi1 hi2
    have hi := UInt8.xor_eq_zero_iff.mp (hall i (List.mem_range.mpr (by omega)))
    rwa [deref, deref, List.getD_eq_getElem _ _ hi1, List.getD_eq_getElem _ _ hi2] at hi
  · rintro rfl
    exact ⟨rfl, fun i _ => UInt8.xor_eq_zero_iff.mpr rfl⟩

section Formatted
variable {host : Host} {version : Option UInt32} {t_cost m_cost parallelism : UInt32}
  {pwd salt out text : Bytes} {type : Argon2Type}

theorem le_sextetCount (n : ℕ) : n ≤ sextetCount n := by
  unfold sextetCount
  omega

/-- No field is longer than the text it was encoded into, which is why the length of the text is
room enough for each. -/
theorem length_le_formatText (type : Argon2Type) (version : Option UInt32)
    (t_cost m_cost parallelism : UInt32) (salt out : Bytes) :
    salt.length ≤ (formatText type version t_cost m_cost parallelism salt out).length ∧
      out.length ≤ (formatText type version t_cost m_cost parallelism salt out).length := by
  have hsalt := le_sextetCount salt.length
  have hout := le_sextetCount out.length
  unfold formatText
  simp only [List.length_append, Alphabet.length_encode]
  omega

theorem toNat_maxFieldLen (hlength : text.length ≤ uint32Max) (hzero : 0 ∉ text) :
    (UInt32.ofNat (strlen text)).toNat = text.length := by
  rw [strlen_of_notMem hzero, toNat_ofNat_length hlength]

/-- The context `verify` starts from has room for the fields of every text, so the
text of a valid context is decoded, on either kind of host. -/
theorem decodeString_verifyContext
    (hvalid : (hashContext t_cost m_cost parallelism pwd salt out (versionNumber version)).Valid)
    (htext : text = formatText type version t_cost m_cost parallelism salt out)
    (hzero : 0 ∉ text) (hlength : text.length ≤ uint32Max) (signedChar : Bool) :
    decodeString signedChar (verifyContext text pwd) text type =
      .ok (hashContext t_cost m_cost parallelism pwd salt out (versionNumber version)) := by
  have hroom := toNat_maxFieldLen hlength hzero
  obtain ⟨hsalt, hout⟩ := length_le_formatText type version t_cost m_cost parallelism salt out
  rw [← htext] at hsalt hout
  have hdecode : decodeString signedChar (verifyContext text pwd)
      (formatText type version t_cost m_cost parallelism salt out) type =
        .ok (hashContext t_cost m_cost parallelism pwd salt out (versionNumber version)) :=
    decodeString_formatText hvalid (Nat.le_trans hsalt hlength) (Nat.le_trans hout hlength) rfl rfl
      (by rw [verifyContext, hroom]; exact hsalt) (by rw [verifyContext, hroom]; exact hout)
  rwa [← htext] at hdecode

/-- A context without its output is the one the computation starts from. -/
theorem hashContext_withOut (t_cost m_cost parallelism version : UInt32) (pwd salt : Bytes)
    {out : Bytes} (hout : out.length ≤ uint32Max) :
    { hashContext t_cost m_cost parallelism pwd salt out version with
        out := some (List.replicate
          (hashContext t_cost m_cost parallelism pwd salt out version).outlen.toNat 0) } =
      inputContext t_cost m_cost parallelism pwd salt out.length version := by
  simp only [inputContext, hashContext, toNat_ofNat_length hout, List.length_replicate]

/-- Where nothing is refused, verification is the comparison with the decoded tag. -/
theorem argon2Verify_of_decoded (hhost : host.Generous) {ctx : Context}
    (hpwd : pwd.length ≤ uint32Max) (htext : strlen text ≤ uint32Max) {type : Argon2Type}
    (hdecode : decodeString host.signedChar (verifyContext text pwd) text type = .ok ctx) :
    argon2Verify host text pwd type =
      argon2VerifyCtx host { ctx with out := some (List.replicate ctx.outlen.toNat 0) }
        (ctx.out.getD []) type := by
  have hpwd' : ¬ pwd.length > argon2MaxPwdLength.toNat := Nat.not_lt.mpr hpwd
  have htext' : ¬ strlen text > uint32Max := Nat.not_lt.mpr htext
  unfold argon2Verify
  simp [reject, hpwd', htext', hhost _, hdecode]

/-- The comparison decides whether a stored output is the tag, where nothing else can fail. -/
theorem argon2VerifyCtx_of_generous (hhost : host.Generous) {context : Context} {type : Argon2Type}
    (hvalid : context.Valid) {out : Bytes} (hout : out.length = context.outlen.toNat) :
    argon2VerifyCtx host context out type =
      if out = tag context type then .ok () else .error .verifyMismatch := by
  have hcompare : argon2Compare out (tag context type) context.outlen.toNat ≠ 0 ↔
      ¬ out = tag context type :=
    not_congr (argon2Compare_eq_zero_iff hout (length_tag hvalid))
  rw [argon2VerifyCtx, argon2Ctx_of_generous hhost hvalid, ok_bind, reject]
  simp only [hcompare, ite_not]

/-- On the text of a valid context the C side answers whether it carries the tag of the
password. -/
theorem argon2Verify_formatText (hhost : host.Generous)
    (hvalid : (hashContext t_cost m_cost parallelism pwd salt out (versionNumber version)).Valid)
    (htext : text = formatText type version t_cost m_cost parallelism salt out)
    (hzero : 0 ∉ text) (hlength : text.length ≤ uint32Max) (hpwd : pwd.length ≤ uint32Max) :
    argon2Verify host text pwd type =
      if out = callTag t_cost m_cost parallelism pwd salt out.length (versionNumber version) type
      then .ok () else .error .verifyMismatch := by
  have hstrlen : strlen text ≤ uint32Max := by rwa [strlen_of_notMem hzero]
  have hout : out.length ≤ uint32Max := by
    have hfield := (length_le_formatText type version t_cost m_cost parallelism salt out).2
    rw [← htext] at hfield
    exact Nat.le_trans hfield hlength
  have hinput : (inputContext t_cost m_cost parallelism pwd salt out.length
      (versionNumber version)).Valid := by
    rw [← hashContext_withOut _ _ _ _ _ _ hout]
    exact { hvalid with out_ne_none := by simp }
  have houtlen : out.length = (inputContext t_cost m_cost parallelism pwd salt out.length
      (versionNumber version)).outlen.toNat := by
    rw [inputContext, hashContext, List.length_replicate, toNat_ofNat_length hout]
  rw [argon2Verify_of_decoded hhost hpwd hstrlen
    (decodeString_verifyContext hvalid htext hzero hlength host.signedChar),
    hashContext_withOut _ _ _ _ _ _ hout]
  exact argon2VerifyCtx_of_generous hhost hinput houtlen

theorem argon2idVerify_formatText (hhost : host.Generous)
    (hvalid : (hashContext t_cost m_cost parallelism pwd salt out (versionNumber version)).Valid)
    (htext : text = formatText .id version t_cost m_cost parallelism salt out)
    (hzero : 0 ∉ text) (hlength : text.length ≤ uint32Max) (hpwd : pwd.length ≤ uint32Max) :
    argon2idVerify host text pwd =
      if out = callTag t_cost m_cost parallelism pwd salt out.length (versionNumber version) .id
      then .ok () else .error .verifyMismatch :=
  argon2Verify_formatText hhost hvalid htext hzero hlength hpwd

/-- What the OCaml side makes of the code it gets back: two codes are answers and all others one
error. -/
theorem verify_of_stub (hne : text ≠ []) (hzero : 0 ∉ text) :
    verify host text pwd = match argon2idVerify host text pwd with
      | .ok () => .ok (.ok true)
      | .error .verifyMismatch => .ok (.ok false)
      | .error _ => .ok (.error .verifyMismatch) := by
  have hlength : text.length ≠ 0 := fun h0 => hne (List.length_eq_zero_iff.mp h0)
  have hsafe := (camlStringIsCSafe_iff text).mpr hzero
  rw [verify, if_neg hlength, argon2idVerifyStub, if_neg (not_not.mpr hsafe)]
  cases argon2idVerify host text pwd with
  | ok u => rfl
  | error code => cases code <;> rfl

end Formatted

section Stored
variable {host : Host} {params : Params} {salt pwd : Bytes}

/-- A hash has no terminator inside, decodes to what was encoded, and verifies. -/
theorem verify_hashWithSalt {h : Bytes} (hok : hashWithSalt host salt params pwd = .ok h) :
    0 ∉ h ∧
    (∃ tag : Bytes, tag.length = 32 ∧
      h = encoded (hashContext (uint32OfIntVal params.tCost) (uint32OfIntVal params.mCost)
        (uint32OfIntVal params.parallelism) pwd salt tag 0x13) .id ∧
      ∀ signedChar, decodeString signedChar (verifyContext h pwd) h .id =
        .ok (hashContext (uint32OfIntVal params.tCost) (uint32OfIntVal params.mCost)
          (uint32OfIntVal params.parallelism) pwd salt tag 0x13)) ∧
    ∀ host' : Host, host'.Generous → verify host' h pwd = .ok (.ok true) := by
  obtain ⟨haccepted, rfl⟩ := hashWithSalt_eq_ok hok
  have hinput := validateInputs_eq_ok_iff.mp haccepted.inputs_ok
  have htag := length_stubTag hinput
  have hvalid : (hashContext (uint32OfIntVal params.tCost) (uint32OfIntVal params.mCost)
      (uint32OfIntVal params.parallelism) pwd salt (stubTag params salt pwd)
      (versionNumber (some 0x13))).Valid := tagContext_valid .id (by decide) hinput
  have htext : encoded (storedContext params salt pwd) .id = formatText .id (some 0x13)
      (uint32OfIntVal params.tCost) (uint32OfIntVal params.mCost)
      (uint32OfIntVal params.parallelism) salt (stubTag params salt pwd) :=
    encoded_eq_formatText 0x13 haccepted.salt_le (length_stubTag_le hinput)
  have hzero := zero_notMem_encoded (storedContext params salt pwd) .id
  have hlength : (encoded (storedContext params salt pwd) .id).length ≤ uint32Max :=
    Nat.le_trans (Nat.le_of_lt haccepted.length_lt) (by decide)
  refine ⟨hzero, ⟨stubTag params salt pwd, htag, rfl,
    decodeString_verifyContext hvalid htext hzero hlength⟩, fun host' hhost' => ?_⟩
  have hcall : stubTag params salt pwd = callTag (uint32OfIntVal params.tCost)
      (uint32OfIntVal params.mCost) (uint32OfIntVal params.parallelism) pwd salt
      (stubTag params salt pwd).length (versionNumber (some 0x13)) .id := by
    rw [htag]
    rfl
  rw [verify_of_stub (encoded_ne_nil _ _) hzero,
    argon2idVerify_formatText hhost' hvalid htext hzero hlength haccepted.pwd_le, if_pos hcall]

theorem verify_hashWithSalt_defaultParams :
    ∃ h, hashWithSalt ⟨true, fun _ => true⟩ (ascii "saltsalt") defaultParams (ascii "password") =
        .ok h ∧ verify ⟨false, fun _ => true⟩ h (ascii "password") = .ok (.ok true) := by
  have haccepted : Accepted defaultParams (ascii "saltsalt") (ascii "password") :=
    accepted_of_inputs_ok rfl (by decide) (by decide) (by decide) rfl
  have hok : hashWithSalt ⟨true, fun _ => true⟩ (ascii "saltsalt") defaultParams
      (ascii "password") = .ok _ := hashWithSalt_of_accepted (fun _ => rfl) haccepted
  exact ⟨_, hok, (verify_hashWithSalt hok).2.2 ⟨false, fun _ => true⟩ fun _ => rfl⟩

end Stored

end Passe.Argon2
