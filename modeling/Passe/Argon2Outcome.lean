import Passe.Argon2

/-!
# What an accepted call of Argon2 comes to

A call that is accepted answers with the encoded form of one context: the one the
stub builds from the reduced costs, with the tag as its output. `Accepted` lists
what the two validators and the fixed buffer ask of the arguments; beyond that
only the host decides. Decoding that text gives the context back, so the
recomputed tag is the stored one and the hash verifies.
-/
namespace Passe.Argon2
open Decimal Radix64

section Text

theorem zero_notMem_decimal (n : ℕ) : 0 ∉ decimal n := fun h =>
  absurd (isDigit_of_mem_decimal h) (by decide)

theorem zero_notMem_encode (bs : Bytes) : 0 ∉ alphabet.encode bs :=
  (alphabet.encode_spells bs).notMem rfl

theorem zero_notMem_encoded (context : Context) (type : Argon2Type) :
    0 ∉ encoded context type := by
  have htype : 0 ∉ argon2Type2string type := by cases type <;> decide
  simp only [encoded, pieces, List.flatten_cons, List.flatten_nil, List.mem_append, not_or]
  refine ⟨by decide, htype, by decide, zero_notMem_decimal _, by decide, zero_notMem_decimal _,
    by decide, zero_notMem_decimal _, by decide, zero_notMem_decimal _, by decide,
    zero_notMem_encode _, by decide, zero_notMem_encode _, by simp⟩

theorem encoded_ne_nil (context : Context) (type : Argon2Type) : encoded context type ≠ [] := by
  simp [encoded, pieces, ascii]

end Text

section Hash
variable {host : Host} {t_cost m_cost parallelism version : UInt32} {pwd salt buf : Bytes}
  {hash enc : Option Bytes} {hashlen encodedlen : ℕ} {type : Argon2Type}

/-- The context before the tag is computed, with a zeroed buffer in the place of the tag. -/
def inputContext (t_cost m_cost parallelism : UInt32) (pwd salt : Bytes) (hashlen : ℕ)
    (version : UInt32) : Context :=
  hashContext t_cost m_cost parallelism pwd salt (List.replicate hashlen 0) version

/-- The tag of a call: a function of the arguments alone, since only the host can keep a call
from computing it. -/
def callTag (t_cost m_cost parallelism : UInt32) (pwd salt : Bytes) (hashlen : ℕ)
    (version : UInt32) (type : Argon2Type) : Bytes :=
  tag (inputContext t_cost m_cost parallelism pwd salt hashlen version) type

/-- The context that is encoded, which is the first one with the tag in its buffer. -/
def tagContext (t_cost m_cost parallelism : UInt32) (pwd salt : Bytes) (hashlen : ℕ)
    (version : UInt32) (type : Argon2Type) : Context :=
  hashContext t_cost m_cost parallelism pwd salt
    (callTag t_cost m_cost parallelism pwd salt hashlen version type) version

theorem length_callTag (type : Argon2Type) (hlen : hashlen ≤ uint32Max)
    (hvalid : (inputContext t_cost m_cost parallelism pwd salt hashlen version).Valid) :
    (callTag t_cost m_cost parallelism pwd salt hashlen version type).length = hashlen := by
  have houtlen : (inputContext t_cost m_cost parallelism pwd salt hashlen version).outlen.toNat =
      hashlen := by
    unfold uint32Max at hlen
    rw [inputContext, hashContext, List.length_replicate, UInt32.toNat_ofNat',
      Nat.mod_eq_of_lt (by omega)]
  rw [callTag, length_tag hvalid, houtlen]

/-- Storing the tag changes the context in its output only: the tag has the length that was
asked for. -/
theorem hashContext_withTag (type : Argon2Type) (hlen : hashlen ≤ uint32Max)
    (hvalid : (inputContext t_cost m_cost parallelism pwd salt hashlen version).Valid) :
    { hashContext t_cost m_cost parallelism pwd salt (List.replicate hashlen 0) version with
        out := some (tag (hashContext t_cost m_cost parallelism pwd salt
          (List.replicate hashlen 0) version) type) } =
      tagContext t_cost m_cost parallelism pwd salt hashlen version type := by
  have houtlen : UInt32.ofNat (List.replicate hashlen (0 : UInt8)).length = UInt32.ofNat
      (callTag t_cost m_cost parallelism pwd salt hashlen version type).length := by
    rw [length_callTag type hlen hvalid, List.length_replicate]
  exact congrArg (fun outlen =>
    { tagContext t_cost m_cost parallelism pwd salt hashlen version type with outlen := outlen })
    houtlen

theorem tagContext_valid (type : Argon2Type) (hlen : hashlen ≤ uint32Max)
    (hvalid : (inputContext t_cost m_cost parallelism pwd salt hashlen version).Valid) :
    (tagContext t_cost m_cost parallelism pwd salt hashlen version type).Valid := by
  rw [← hashContext_withTag type hlen hvalid]
  exact { hvalid with out_ne_none := by simp }

/-- What the checks of a call ask of its arguments: three lengths that fit into 32 bits, and a
context that `passe_validate_inputs` accepts. -/
structure Admitted (t_cost m_cost parallelism : UInt32) (pwd salt : Bytes) (hashlen : ℕ)
    (version : UInt32) : Prop where
  pwd_le : pwd.length ≤ uint32Max
  salt_le : salt.length ≤ uint32Max
  hashlen_le : hashlen ≤ uint32Max
  valid : (inputContext t_cost m_cost parallelism pwd salt hashlen version).Valid

theorem computeTag_eq_ok {out : Bytes} (h : computeTag host t_cost m_cost parallelism pwd salt
      hashlen type version = .ok out) :
    Admitted t_cost m_cost parallelism pwd salt hashlen version ∧
      out = callTag t_cost m_cost parallelism pwd salt hashlen version type := by
  unfold computeTag at h
  simp only [reject_bind_eq_ok] at h
  obtain ⟨hpwd, hsalt, hmax, -, -, h⟩ := h
  obtain ⟨hvalid, rfl⟩ := argon2Ctx_eq_ok h
  exact ⟨⟨Nat.not_lt.mp hpwd, Nat.not_lt.mp hsalt, Nat.not_lt.mp hmax, hvalid⟩, rfl⟩

/-- A call that stops before its tag is there does not say that the text was too long. -/
theorem computeTag_ne_encodingFail (host : Host) (t_cost m_cost parallelism : UInt32)
    (pwd salt : Bytes) (hashlen : ℕ) (type : Argon2Type) (version : UInt32) :
    computeTag host t_cost m_cost parallelism pwd salt hashlen type version ≠
      .error .encodingFail := by
  unfold computeTag
  repeat refine bind_ne_error (reject_ne_error (by decide)) fun _ => ?_
  exact argon2Ctx_ne_encodingFail _ _ _

/-- On a generous host the checks decide, and nothing else can keep the tag from being computed.
-/
theorem Admitted.computeTag_eq (h : Admitted t_cost m_cost parallelism pwd salt hashlen version)
    (hhost : host.Generous) (type : Argon2Type) :
    computeTag host t_cost m_cost parallelism pwd salt hashlen type version =
      .ok (callTag t_cost m_cost parallelism pwd salt hashlen version type) := by
  have hmin : 4 ≤ hashlen := by
    have hout := h.valid.outlen_ge
    rw [inputContext, hashContext, List.length_replicate, UInt32.toNat_ofNat'] at hout
    exact hout.trans (Nat.mod_le _ _)
  unfold computeTag
  simp only [reject_bind_eq_ok]
  exact ⟨Nat.not_lt.mpr h.pwd_le, Nat.not_lt.mpr h.salt_le, Nat.not_lt.mpr h.hashlen_le,
    Nat.not_lt.mpr hmin, by simp [hhost _], argon2Ctx_of_generous hhost h.valid⟩

/-- The text of a call, whether there is a buffer for it or not. -/
def callText (t_cost m_cost parallelism : UInt32) (pwd salt : Bytes) (hashlen : ℕ)
    (type : Argon2Type) (version : UInt32) : Bytes :=
  encoded (tagContext t_cost m_cost parallelism pwd salt hashlen version type) type

theorem cString_callText (buf : Bytes) :
    cString (overwrite (callText t_cost m_cost parallelism pwd salt hashlen type version ++ [0])
      buf) = callText t_cost m_cost parallelism pwd salt hashlen type version := by
  rw [overwrite, List.append_assoc]
  exact cString_append_zero (zero_notMem_encoded _ _) _

/-- What a call comes to when it computes the tag: the raw buffer holds it, and the text buffer
is settled. -/
def finished (t_cost m_cost parallelism : UInt32) (pwd salt : Bytes) (hash : Option Bytes)
    (hashlen : ℕ) (enc : Option Bytes) (encodedlen : ℕ) (type : Argon2Type) (version : UInt32) :
    Call :=
  let stored := storeEncoded enc encodedlen (encodeString encodedlen
    (tagContext t_cost m_cost parallelism pwd salt hashlen version type) type)
  ⟨stored.1, hash.map (overwrite
    (callTag t_cost m_cost parallelism pwd salt hashlen version type)), stored.2⟩

theorem argon2Hash_of_computeTag
    (h : computeTag host t_cost m_cost parallelism pwd salt hashlen type version =
      .ok (callTag t_cost m_cost parallelism pwd salt hashlen version type))
    (hadmitted : Admitted t_cost m_cost parallelism pwd salt hashlen version) :
    argon2Hash host t_cost m_cost parallelism pwd salt hash hashlen enc encodedlen type version =
      finished t_cost m_cost parallelism pwd salt hash hashlen enc encodedlen type version := by
  have hstored := hashContext_withTag type hadmitted.hashlen_le hadmitted.valid
  rw [argon2Hash, h, finished, ← hstored]
  rfl

/-- A call is refused and touches nothing, or it computes the tag of its arguments. -/
theorem argon2Hash_cases (host : Host) (t_cost m_cost parallelism : UInt32) (pwd salt : Bytes)
    (hash : Option Bytes) (hashlen : ℕ) (enc : Option Bytes) (encodedlen : ℕ) (type : Argon2Type)
    (version : UInt32) :
    (∃ code, code ≠ .encodingFail ∧ argon2Hash host t_cost m_cost parallelism pwd salt hash hashlen
      enc encodedlen type version = ⟨.error code, hash, enc⟩) ∨
    Admitted t_cost m_cost parallelism pwd salt hashlen version ∧
      argon2Hash host t_cost m_cost parallelism pwd salt hash hashlen enc encodedlen type version =
        finished t_cost m_cost parallelism pwd salt hash hashlen enc encodedlen type version := by
  cases htag : computeTag host t_cost m_cost parallelism pwd salt hashlen type version with
  | error code =>
    have hne := computeTag_ne_encodingFail host t_cost m_cost parallelism pwd salt hashlen type
      version
    rw [htag] at hne
    exact .inl ⟨code, fun hcode => hne (congrArg Except.error hcode), by rw [argon2Hash, htag]⟩
  | ok out =>
    obtain ⟨hadmitted, rfl⟩ := computeTag_eq_ok htag
    exact .inr ⟨hadmitted, argon2Hash_of_computeTag htag hadmitted⟩

/-- The buffer of a computed call is filled or wiped, and the length of the text alone says
which. -/
theorem Admitted.finished_text
    (h : Admitted t_cost m_cost parallelism pwd salt hashlen version) (hpos : 0 < encodedlen)
    (hbuf : buf.length = encodedlen) (hash : Option Bytes) (type : Argon2Type) :
    finished t_cost m_cost parallelism pwd salt hash hashlen (some buf) encodedlen type version =
      if (callText t_cost m_cost parallelism pwd salt hashlen type version).length < encodedlen then
        ⟨.ok (), hash.map (overwrite
          (callTag t_cost m_cost parallelism pwd salt hashlen version type)), some (overwrite
            (callText t_cost m_cost parallelism pwd salt hashlen type version ++ [0]) buf)⟩
      else ⟨.error .encodingFail, hash.map (overwrite
        (callTag t_cost m_cost parallelism pwd salt hashlen version type)),
          some (List.replicate encodedlen 0)⟩ := by
  have hne : encodedlen ≠ 0 := Nat.ne_of_gt hpos
  have htext : encodeString encodedlen
      (tagContext t_cost m_cost parallelism pwd salt hashlen version type) type =
        if (callText t_cost m_cost parallelism pwd salt hashlen type version).length < encodedlen
        then .ok (callText t_cost m_cost parallelism pwd salt hashlen type version)
        else .error .encodingFail :=
    encodeString_eq (tagContext_valid type h.hashlen_le h.valid) hpos
  have hwiped : overwrite (List.replicate encodedlen 0) buf = List.replicate encodedlen 0 := by
    rw [overwrite, List.length_replicate, ← hbuf, List.drop_length, List.append_nil]
  simp only [finished, storeEncoded, if_neg hne, htext]
  by_cases hfits :
      (callText t_cost m_cost parallelism pwd salt hashlen type version).length < encodedlen
  · simp only [if_pos hfits]
  · simp only [if_neg hfits, hwiped]

/-- What a code of success says about the arguments and the buffers. -/
theorem argon2Hash_eq_ok (hpos : 0 < encodedlen) (hbuf : buf.length = encodedlen)
    (h : (argon2Hash host t_cost m_cost parallelism pwd salt hash hashlen (some buf) encodedlen
      type version).rc = .ok ()) :
    Admitted t_cost m_cost parallelism pwd salt hashlen version ∧
      (callText t_cost m_cost parallelism pwd salt hashlen type version).length < encodedlen ∧
      (argon2Hash host t_cost m_cost parallelism pwd salt hash hashlen (some buf) encodedlen type
        version).encoded = some (overwrite
          (callText t_cost m_cost parallelism pwd salt hashlen type version ++ [0]) buf) := by
  rcases argon2Hash_cases host t_cost m_cost parallelism pwd salt hash hashlen (some buf)
    encodedlen type version with ⟨code, -, hcode⟩ | ⟨hadmitted, hcall⟩
  · rw [hcode] at h
    exact absurd h (by simp)
  · rw [hcall, hadmitted.finished_text hpos hbuf] at h ⊢
    by_cases hfits :
        (callText t_cost m_cost parallelism pwd salt hashlen type version).length < encodedlen
    · rw [if_pos hfits]
      exact ⟨hadmitted, hfits, rfl⟩
    · rw [if_neg hfits] at h
      exact absurd h (by simp)

/-- On a generous host an admitted call fills a buffer that its text fits into. -/
theorem Admitted.argon2Hash_eq (h : Admitted t_cost m_cost parallelism pwd salt hashlen version)
    (hhost : host.Generous) (hpos : 0 < encodedlen) (hbuf : buf.length = encodedlen)
    (hash : Option Bytes) (type : Argon2Type)
    (hfits : (callText t_cost m_cost parallelism pwd salt hashlen type version).length <
      encodedlen) :
    argon2Hash host t_cost m_cost parallelism pwd salt hash hashlen (some buf) encodedlen type
        version =
      ⟨.ok (), hash.map (overwrite
        (callTag t_cost m_cost parallelism pwd salt hashlen version type)), some (overwrite
          (callText t_cost m_cost parallelism pwd salt hashlen type version ++ [0]) buf)⟩ := by
  rw [argon2Hash_of_computeTag (h.computeTag_eq hhost type) h, h.finished_text hpos hbuf,
    if_pos hfits]

end Hash

section Call
variable {host : Host} {params : Params} {salt pwd : Bytes}

/-- The context the stub builds, before the tag is computed. The costs are reduced to 32 bits on
the way. -/
def stubContext (params : Params) (salt pwd : Bytes) : Context :=
  inputContext (uint32OfIntVal params.tCost) (uint32OfIntVal params.mCost)
    (uint32OfIntVal params.parallelism) pwd salt 32 argon2VersionNumber

/-- The tag of a call of `hash_with_salt`, which has 32 bytes and type `id`. -/
def stubTag (params : Params) (salt pwd : Bytes) : Bytes :=
  tag (stubContext params salt pwd) .id

/-- The same context with its tag, as it is encoded and decoded again. -/
def storedContext (params : Params) (salt pwd : Bytes) : Context :=
  hashContext (uint32OfIntVal params.tCost) (uint32OfIntVal params.mCost)
    (uint32OfIntVal params.parallelism) pwd salt (stubTag params salt pwd) argon2VersionNumber

/-- What the stub answers: a text, or the empty string that stands for every failure. -/
def stubAnswer (host : Host) (params : Params) (salt pwd : Bytes) : Bytes :=
  argon2idHashEncodedWithSaltStub host params.tCost params.mCost params.parallelism pwd salt

/-- A call of the stub that gets past the length checks and `passe_validate_inputs`. What is
left to go wrong is the host, and the room in the array for the text. -/
structure Validated (params : Params) (salt pwd : Bytes) : Prop where
  salt_le : salt.length ≤ uint32Max
  pwd_le : pwd.length ≤ uint32Max
  inputs_ok : validateInputs (stubContext params salt pwd) = .ok ()

/-- What the two validators and the array of the stub ask of a call. Beyond this only the host
can make it fail, so every result about accepted calls starts here. -/
structure Accepted (params : Params) (salt pwd : Bytes) : Prop where
  params_ok : validateParams params = .ok ()
  salt_ge : minSaltLength ≤ salt.length
  salt_le : salt.length ≤ uint32Max
  pwd_le : pwd.length ≤ uint32Max
  inputs_ok : validateInputs (stubContext params salt pwd) = .ok ()
  fits : argon2Encodedlen (uint32OfIntVal params.tCost) (uint32OfIntVal params.mCost)
    (uint32OfIntVal params.parallelism) (UInt32.ofNat salt.length) 32 .id ≤ maxEncodedLen

theorem length_stubTag (hvalid : (stubContext params salt pwd).Valid) :
    (stubTag params salt pwd).length = 32 :=
  length_callTag .id (by decide) hvalid

theorem length_stubTag_le (hvalid : (stubContext params salt pwd).Valid) :
    (stubTag params salt pwd).length ≤ uint32Max := by
  rw [length_stubTag hvalid]
  decide

/-- The length formula applied to the hash of a call: it counts the text and one terminator. -/
theorem length_encoded_storedContext (hsalt : salt.length ≤ uint32Max)
    (hvalid : (stubContext params salt pwd).Valid) :
    (encoded (storedContext params salt pwd) .id).length + 1 =
      argon2Encodedlen (uint32OfIntVal params.tCost) (uint32OfIntVal params.mCost)
        (uint32OfIntVal params.parallelism) (UInt32.ofNat salt.length) 32 .id := by
  have htag := length_stubTag hvalid
  have hmax := length_stubTag_le hvalid
  have hlength : (encoded (storedContext params salt pwd) .id).length + 1 +
      numlen argon2VersionNumber.toNat = _ := length_encoded ?_ ?_
  · rw [Nat.add_right_cancel hlength]
    simp only [storedContext, hashContext, htag]
    rfl
  · simp only [storedContext, hashContext, fieldBytes_some hsalt, toNat_ofNat_length hsalt]
  · simp only [storedContext, hashContext, fieldBytes_some hmax, toNat_ofNat_length hmax]

/-- A numeral of 32 bits has at most ten digits, which bounds three of the fields. -/
theorem numlen_le_ten (n : UInt32) : numlen n.toNat ≤ 10 := by
  rw [numlen_eq, length_decimal_le_iff (by decide)]
  exact Nat.lt_trans n.toNat_lt (by decide)

/-- The buffer of the stub holds every hash with a salt of up to 311 bytes. -/
theorem accepted_of_inputs_ok (hparams : validateParams params = .ok ())
    (hmin : minSaltLength ≤ salt.length) (hmax : salt.length ≤ 311) (hpwd : pwd.length ≤ uint32Max)
    (hinputs : validateInputs (stubContext params salt pwd) = .ok ()) :
    Accepted params salt pwd := by
  have hsalt : salt.length ≤ uint32Max := by
    unfold uint32Max
    omega
  have hlanes : (uint32OfIntVal params.parallelism).toNat ≤ 0xFFFFFF :=
    (validateInputs_eq_ok_iff.mp hinputs).lanes_le
  refine ⟨hparams, hmin, hsalt, hpwd, hinputs, ?_⟩
  have ht := numlen_le_ten (uint32OfIntVal params.tCost)
  have hm := numlen_le_ten (uint32OfIntVal params.mCost)
  have hp : numlen (uint32OfIntVal params.parallelism).toNat ≤ 8 := by
    rw [numlen_eq, length_decimal_le_iff (by decide)]
    omega
  have hversion : numlen argon2VersionNumber.toNat = 2 := by
    rw [numlen, numlen]
    rfl
  have hlabels : (ascii "$$v=$m=,t=,p=$$").length = 15 := rfl
  have htype : (argon2Type2string .id).length = 8 := rfl
  have htag : b64len 32 = 43 := rfl
  rw [argon2Encodedlen, hversion, hlabels, htype, htag, b64len, toNat_ofNat_length hsalt,
    base64Length_eq, sextetCount, maxEncodedLen]
  omega

/-- The length formula says whether the buffer of the stub is large enough. -/
theorem length_encoded_lt_iff (h : Validated params salt pwd) :
    (encoded (storedContext params salt pwd) .id).length < maxEncodedLen ↔
      argon2Encodedlen (uint32OfIntVal params.tCost) (uint32OfIntVal params.mCost)
        (uint32OfIntVal params.parallelism) (UInt32.ofNat salt.length) 32 .id ≤ maxEncodedLen := by
  rw [← length_encoded_storedContext h.salt_le (validateInputs_eq_ok_iff.mp h.inputs_ok)]
  exact Nat.lt_iff_add_one_le

theorem Accepted.validated (h : Accepted params salt pwd) : Validated params salt pwd :=
  ⟨h.salt_le, h.pwd_le, h.inputs_ok⟩

/-- The text of an accepted call fits into the array of the stub. -/
theorem Accepted.length_lt (h : Accepted params salt pwd) :
    (encoded (storedContext params salt pwd) .id).length < maxEncodedLen :=
  (length_encoded_lt_iff h.validated).mpr h.fits

@[simp] theorem length_encodedArray : encodedArray.length = maxEncodedLen := List.length_replicate

theorem Validated.admitted (h : Validated params salt pwd) :
    Admitted (uint32OfIntVal params.tCost) (uint32OfIntVal params.mCost)
      (uint32OfIntVal params.parallelism) pwd salt 32 argon2VersionNumber :=
  ⟨h.pwd_le, h.salt_le, by decide, validateInputs_eq_ok_iff.mp h.inputs_ok⟩

/-- Whatever the host does, an answer with any text in it is the complete text. -/
theorem stubAnswer_cases (host : Host) (params : Params) (salt pwd : Bytes) :
    stubAnswer host params salt pwd = [] ∨
      Validated params salt pwd ∧
        (encoded (storedContext params salt pwd) .id).length < maxEncodedLen ∧
        stubAnswer host params salt pwd = encoded (storedContext params salt pwd) .id := by
  simp only [stubAnswer, argon2idHashEncodedWithSaltStub, argon2idHashEncoded]
  cases hrc : (argon2Hash host (uint32OfIntVal params.tCost) (uint32OfIntVal params.mCost)
      (uint32OfIntVal params.parallelism) pwd salt none 32 (some encodedArray) maxEncodedLen .id
      argon2VersionNumber).rc with
  | error e => exact .inl rfl
  | ok u =>
    obtain ⟨hadmitted, hfits, htext⟩ := argon2Hash_eq_ok (by decide) length_encodedArray hrc
    refine .inr ⟨⟨hadmitted.salt_le, hadmitted.pwd_le,
      validateInputs_eq_ok_iff.mpr hadmitted.valid⟩, hfits, ?_⟩
    rw [htext]
    exact cString_callText encodedArray

/-- On a generous host the text is complete whenever it fits, so the empty answer has no other
reason. -/
theorem stubAnswer_of_generous (hhost : host.Generous) (h : Validated params salt pwd)
    (hfits : (encoded (storedContext params salt pwd) .id).length < maxEncodedLen) :
    stubAnswer host params salt pwd = encoded (storedContext params salt pwd) .id := by
  have hcall := h.admitted.argon2Hash_eq hhost (by decide) length_encodedArray none .id hfits
  simp only [stubAnswer, argon2idHashEncodedWithSaltStub, argon2idHashEncoded, hcall]
  exact cString_callText encodedArray

theorem encoded_length_ne_zero (context : Context) (type : Argon2Type) :
    (encoded context type).length ≠ 0 := fun h =>
  encoded_ne_nil _ _ (List.length_eq_zero_iff.mp h)

/-- Behind its own checks `hash_with_salt` answers with what the stub does, and takes an empty
answer for a failure. -/
theorem hashWithSalt_eq (hmin : minSaltLength ≤ salt.length)
    (hparams : validateParams params = .ok ()) :
    hashWithSalt host salt params pwd =
      if (stubAnswer host params salt pwd).length = 0 then
        .error (.hashFailure (ascii "Failed to generate hash"))
      else .ok (stubAnswer host params salt pwd) := by
  unfold hashWithSalt
  rw [if_neg (Nat.not_lt.mpr hmin), hparams]
  rfl

/-- Every answer is the encoded form of the stored context, and only accepted calls have one. -/
theorem hashWithSalt_eq_ok {text : Bytes} (h : hashWithSalt host salt params pwd = .ok text) :
    Accepted params salt pwd ∧ text = encoded (storedContext params salt pwd) .id := by
  have hmin : minSaltLength ≤ salt.length := by
    by_contra hshort
    rw [hashWithSalt, if_pos (Nat.not_le.mp hshort)] at h
    exact absurd h (by simp)
  cases hparams : validateParams params with
  | error e =>
    rw [hashWithSalt, if_neg (Nat.not_lt.mpr hmin), hparams] at h
    exact absurd h (by simp)
  | ok u =>
    rw [hashWithSalt_eq hmin hparams] at h
    rcases stubAnswer_cases host params salt pwd with hnil | ⟨hvalidated, hfits, htext⟩
    · rw [hnil] at h
      exact absurd h (by simp)
    · rw [htext, if_neg (encoded_length_ne_zero _ _)] at h
      exact ⟨⟨hparams, hmin, hvalidated.salt_le, hvalidated.pwd_le, hvalidated.inputs_ok,
        (length_encoded_lt_iff hvalidated).mp hfits⟩, (Except.ok.inj h).symm⟩

/-- On a generous host every accepted call is answered, so `Accepted` leaves nothing out. -/
theorem hashWithSalt_of_accepted (hhost : host.Generous) (h : Accepted params salt pwd) :
    hashWithSalt host salt params pwd = .ok (encoded (storedContext params salt pwd) .id) := by
  rw [hashWithSalt_eq h.salt_ge h.params_ok, stubAnswer_of_generous hhost h.validated h.length_lt,
    if_neg (encoded_length_ne_zero _ _)]

end Call

end Passe.Argon2
