import Passe.Argon2RoundTrip

/-!
# The C interface of Argon2

`argon2.c` has one function behind six hashing calls: it can fill a raw buffer, a text
buffer or both. A call is described by its code and by what it leaves in the two
buffers of the caller. A text buffer never holds a part of a text, the text that it
holds verifies under its own type and under no other, and `passe_argon2_encodedlen`
is the least size that is enough.
-/
namespace Passe.Argon2

section Calls
variable (host : Host) (t_cost m_cost parallelism : UInt32) (pwd salt : Bytes)

/-- `passe_argon2i_hash_encoded`: a text and no raw bytes. -/
def argon2iHashEncoded (hashlen : ℕ) (encoded : Option Bytes) (encodedlen : ℕ) : Call :=
  argon2Hash host t_cost m_cost parallelism pwd salt none hashlen encoded encodedlen .i
    argon2VersionNumber

/-- `passe_argon2i_hash_raw`: raw bytes and no text, so no text can be too long. -/
def argon2iHashRaw (hash : Option Bytes) (hashlen : ℕ) : Call :=
  argon2Hash host t_cost m_cost parallelism pwd salt hash hashlen none 0 .i argon2VersionNumber

/-- `passe_argon2d_hash_encoded`, with references that depend on the data throughout. -/
def argon2dHashEncoded (hashlen : ℕ) (encoded : Option Bytes) (encodedlen : ℕ) : Call :=
  argon2Hash host t_cost m_cost parallelism pwd salt none hashlen encoded encodedlen .d
    argon2VersionNumber

/-- `passe_argon2d_hash_raw`. A call that writes no text has no code for one. -/
def argon2dHashRaw (hash : Option Bytes) (hashlen : ℕ) : Call :=
  argon2Hash host t_cost m_cost parallelism pwd salt hash hashlen none 0 .d argon2VersionNumber

/-- `passe_argon2id_hash_raw`, next to the encoded call of `Passe.Argon2`. -/
def argon2idHashRaw (hash : Option Bytes) (hashlen : ℕ) : Call :=
  argon2Hash host t_cost m_cost parallelism pwd salt hash hashlen none 0 .id argon2VersionNumber

/-- `passe_argon2i_verify`: a text of another type is no text for it. -/
def argon2iVerify (encoded : Bytes) : Result Unit := argon2Verify host encoded pwd .i

/-- `passe_argon2d_verify`, which differs from the other two in the type alone. -/
def argon2dVerify (encoded : Bytes) : Result Unit := argon2Verify host encoded pwd .d

end Calls

section Hash
variable {host : Host} {t_cost m_cost parallelism version : UInt32} {pwd salt buf : Bytes}
  {hash enc : Option Bytes} {hashlen encodedlen : ℕ} {type : Argon2Type}

/-- The length formula counts the text of a call and its terminator. It takes the current version
for granted, so the digits of the two versions are on the other sides. -/
theorem Admitted.length_callText
    (h : Admitted t_cost m_cost parallelism pwd salt hashlen version) (type : Argon2Type) :
    (callText t_cost m_cost parallelism pwd salt hashlen type version).length + 1 +
        numlen argon2VersionNumber.toNat =
      argon2Encodedlen t_cost m_cost parallelism (UInt32.ofNat salt.length) (UInt32.ofNat hashlen)
        type + numlen version.toNat := by
  have htag := length_callTag type h.hashlen_le h.valid
  rw [callText, length_encoded]
  · simp only [tagContext, hashContext, htag]
  · simp [tagContext, hashContext, h.salt_le, toNat_ofNat_length h.salt_le]
  · have hout := htag.le.trans h.hashlen_le
    simp [tagContext, hashContext, hout, toNat_ofNat_length hout]

/-- The text of an admitted call, as the decoder reads it: every field has kept its length on
the way through 32 bits. -/
theorem Admitted.callText_eq (h : Admitted t_cost m_cost parallelism pwd salt hashlen version)
    (type : Argon2Type) :
    callText t_cost m_cost parallelism pwd salt hashlen type version =
      formatText type (some version) t_cost m_cost parallelism salt
        (callTag t_cost m_cost parallelism pwd salt hashlen version type) :=
  encoded_eq_formatText version h.salt_le
    ((length_callTag type h.hashlen_le h.valid).le.trans h.hashlen_le)

/-- The text decodes to the context that it was made from, with the tag as its output, on either
kind of host. -/
theorem Admitted.decodeString_callText
    (h : Admitted t_cost m_cost parallelism pwd salt hashlen version) (type : Argon2Type)
    (hlength :
      (callText t_cost m_cost parallelism pwd salt hashlen type version).length ≤ uint32Max)
    (signedChar : Bool) :
    decodeString signedChar
        (verifyContext (callText t_cost m_cost parallelism pwd salt hashlen type version) pwd)
        (callText t_cost m_cost parallelism pwd salt hashlen type version) type =
      .ok (tagContext t_cost m_cost parallelism pwd salt hashlen version type) := by
  have hvalid : (hashContext t_cost m_cost parallelism pwd salt
      (callTag t_cost m_cost parallelism pwd salt hashlen version type)
      (versionNumber (some version))).Valid := tagContext_valid type h.hashlen_le h.valid
  exact decodeString_verifyContext hvalid (h.callText_eq type) (zero_notMem_encoded _ _) hlength
    signedChar

/-- A text buffer holds the complete text and its terminator behind a code of success. It is wiped
as a whole when the text does not fit, which the code `ARGON2_ENCODING_FAIL` says and no other,
and every other failure leaves both buffers alone. Where the host refuses nothing, success means
that the checks are passed and that the length formula, with the digits of the version that was
asked for, stays within the buffer. -/
theorem argon2Hash_complete_or_wiped (hpos : 0 < encodedlen) (hbuf : buf.length = encodedlen) :
    (∀ (host : Host) (hash : Option Bytes),
      ((callText t_cost m_cost parallelism pwd salt hashlen type version).length < encodedlen ∧
        argon2Hash host t_cost m_cost parallelism pwd salt hash hashlen (some buf) encodedlen type
          version =
        ⟨.ok (), hash.map (overwrite
          (callTag t_cost m_cost parallelism pwd salt hashlen version type)),
          some (overwrite (callText t_cost m_cost parallelism pwd salt hashlen type version ++ [0])
            buf)⟩) ∨
      (encodedlen ≤
          (callText t_cost m_cost parallelism pwd salt hashlen type version).length ∧
        argon2Hash host t_cost m_cost parallelism pwd salt hash hashlen (some buf) encodedlen type
          version =
        ⟨.error .encodingFail, hash.map (overwrite
          (callTag t_cost m_cost parallelism pwd salt hashlen version type)),
          some (List.replicate encodedlen 0)⟩) ∨
      ∃ code, code ≠ .encodingFail ∧ argon2Hash host t_cost m_cost parallelism pwd salt hash hashlen
        (some buf) encodedlen type version = ⟨.error code, hash, some buf⟩) ∧
    ∀ host : Host, host.Generous → ∀ hash : Option Bytes,
      ((argon2Hash host t_cost m_cost parallelism pwd salt hash hashlen (some buf) encodedlen type
          version).rc = .ok () ↔
        Admitted t_cost m_cost parallelism pwd salt hashlen version ∧
          argon2Encodedlen t_cost m_cost parallelism (UInt32.ofNat salt.length)
            (UInt32.ofNat hashlen) type + numlen version.toNat ≤
              encodedlen + numlen argon2VersionNumber.toNat) := by
  constructor
  · intro host hash
    rcases argon2Hash_cases host t_cost m_cost parallelism pwd salt hash hashlen (some buf)
      encodedlen type version with hrefused | ⟨hadmitted, hcall⟩
    · exact .inr (.inr hrefused)
    · rw [hcall, hadmitted.finished_text hpos hbuf]
      split_ifs with hfits
      · exact .inl ⟨hfits, rfl⟩
      · exact .inr (.inl ⟨Nat.not_lt.mp hfits, rfl⟩)
  · intro host hhost hash
    constructor
    · intro hok
      obtain ⟨hadmitted, hfits, -⟩ := argon2Hash_eq_ok hpos hbuf hok
      have hlength := hadmitted.length_callText type
      exact ⟨hadmitted, by omega⟩
    · rintro ⟨hadmitted, hsize⟩
      have hlength := hadmitted.length_callText type
      rw [hadmitted.argon2Hash_eq hhost hpos hbuf hash type (by omega)]

theorem admitted_password :
    Admitted 2 19456 1 (ascii "password") (ascii "saltsalt") 32 argon2VersionNumber :=
  ⟨by decide, by decide, by decide, validateInputs_eq_ok_iff.mp rfl⟩

/-- A buffer that the text of `admitted_password` fits into. It is filled with a byte that no
text contains. -/
def roomyBuffer : Bytes := List.replicate 128 0xFF

@[simp] theorem length_roomyBuffer : roomyBuffer.length = 128 := List.length_replicate

theorem argon2Encodedlen_password (type : Argon2Type) :
    argon2Encodedlen 2 19456 1 (UInt32.ofNat (ascii "saltsalt").length) (UInt32.ofNat 32) type ≤
      128 := by
  have ht := numlen_le_ten 2
  have hm := numlen_le_ten 19456
  have hp := numlen_le_ten 1
  have hversion := numlen_le_ten argon2VersionNumber
  have hlabels : (ascii "$$v=$m=,t=,p=$$").length = 15 := rfl
  have htype : (argon2Type2string type).length ≤ 8 := by cases type <;> decide
  have hsalt : b64len (UInt32.ofNat (ascii "saltsalt").length) = 11 := rfl
  have htag : b64len (UInt32.ofNat 32) = 43 := rfl
  rw [argon2Encodedlen, hlabels, hsalt, htag]
  omega

theorem argon2Hash_complete_or_wiped_password :
    (argon2Hash ⟨true, fun _ => true⟩ 2 19456 1 (ascii "password") (ascii "saltsalt") none 32
      (some roomyBuffer) 128 .d argon2VersionNumber).rc = .ok () :=
  ((argon2Hash_complete_or_wiped (by decide) length_roomyBuffer).2 ⟨true, fun _ => true⟩
    (fun _ => rfl) none).mpr
      ⟨admitted_password, Nat.add_le_add_right (argon2Encodedlen_password .d) _⟩

theorem argon2Hash_password (hash : Option Bytes) (type : Argon2Type) :
    (argon2Hash ⟨true, fun _ => true⟩ 2 19456 1 (ascii "password") (ascii "saltsalt") hash 32
      (some roomyBuffer) 128 type argon2VersionNumber).rc = .ok () := by
  have hlength := admitted_password.length_callText type
  have hsize := argon2Encodedlen_password type
  rw [admitted_password.argon2Hash_eq (fun _ => rfl) (by decide) length_roomyBuffer hash type
    (by omega)]

/-- What `passe_argon2_verify` makes of a text that a call has left in its buffer, for every
password and every type. A password above 32 bits is refused first; a text above 32 bits and
every type but the one it was made with are a failure to decode; what is left is the comparison
of the tags. -/
theorem argon2Verify_of_hashed (hpos : 0 < encodedlen) (hbuf : buf.length = encodedlen)
    (hok : (argon2Hash host t_cost m_cost parallelism pwd salt hash hashlen (some buf) encodedlen
      type version).rc = .ok ()) :
    ∃ stored, (argon2Hash host t_cost m_cost parallelism pwd salt hash hashlen (some buf) encodedlen
        type version).encoded = some stored ∧
      ∀ host' : Host, host'.Generous → ∀ (pwd' : Bytes) (type' : Argon2Type),
        argon2Verify host' (cString stored) pwd' type' =
          if uint32Max < pwd'.length then .error .pwdTooLong
          else if uint32Max < (cString stored).length ∨ type' ≠ type then .error .decodingFail
          else if callTag t_cost m_cost parallelism pwd salt hashlen version type =
              callTag t_cost m_cost parallelism pwd' salt hashlen version type
          then .ok () else .error .verifyMismatch := by
  obtain ⟨hadmitted, -, hstored⟩ := argon2Hash_eq_ok hpos hbuf hok
  refine ⟨_, hstored, fun host' hhost' pwd' type' => ?_⟩
  have hzero : 0 ∉ callText t_cost m_cost parallelism pwd salt hashlen type version :=
    zero_notMem_encoded _ _
  have hstrlen := strlen_of_notMem hzero
  have hmax : argon2MaxPwdLength.toNat = uint32Max := rfl
  rw [cString_callText]
  by_cases hpwd' : uint32Max < pwd'.length
  · rw [if_pos hpwd', argon2Verify, hmax, reject_bind_of_true hpwd']
  rw [if_neg hpwd']
  by_cases hlong :
      uint32Max < (callText t_cost m_cost parallelism pwd salt hashlen type version).length
  · rw [if_pos (.inl hlong), argon2Verify, hmax, hstrlen, reject, if_neg hpwd', ok_bind,
      reject_bind_of_true hlong]
  by_cases htype : type' = type
  · subst htype
    have hvalid := tagContext_valid type' hadmitted.hashlen_le hadmitted.valid
    have hvalid' : (hashContext t_cost m_cost parallelism pwd' salt
        (callTag t_cost m_cost parallelism pwd salt hashlen version type')
        (versionNumber (some version))).Valid := { hvalid with
      pwdlen_eq := fun h => absurd h (Option.some_ne_none _) }
    rw [if_neg (not_or.mpr ⟨hlong, not_not.mpr rfl⟩), argon2Verify_formatText hhost' hvalid'
      (hadmitted.callText_eq type') hzero (Nat.not_lt.mp hlong) (Nat.not_lt.mp hpwd'),
      length_callTag type' hadmitted.hashlen_le hadmitted.valid]
    rfl
  · have hdecode : decodeString host'.signedChar
        (verifyContext (callText t_cost m_cost parallelism pwd salt hashlen type version) pwd')
        (callText t_cost m_cost parallelism pwd salt hashlen type version) type' =
          .error .decodingFail :=
      decodeString_of_ne (hadmitted.decodeString_callText type (Nat.not_lt.mp hlong) false) htype
    rw [if_pos (.inr htype)]
    unfold argon2Verify
    simp only [reject, hmax, gt_iff_lt, hpwd', hstrlen, hlong, hhost' _, hdecode, ok_bind, if_false,
      Bool.true_eq_false, or_self]
    rfl

theorem argon2Verify_of_hashed_password : ∃ stored,
    argon2Verify ⟨false, fun _ => true⟩ (cString stored) (ascii "password") .i = .ok () ∧
      argon2Verify ⟨false, fun _ => true⟩ (cString stored) (ascii "password") .id =
        .error .decodingFail := by
  obtain ⟨stored, hstored, hverify⟩ := argon2Verify_of_hashed (by decide) length_roomyBuffer
    (argon2Hash_password none .i)
  have hlength : ¬ uint32Max < (cString stored).length := by
    have hcall := (argon2Hash_eq_ok (by decide) length_roomyBuffer (argon2Hash_password none .i)).2
    rw [hcall.2, Option.some.injEq] at hstored
    rw [← hstored, cString_callText]
    exact Nat.not_lt.mpr (hcall.1.le.trans (by decide))
  have hanswer := hverify ⟨false, fun _ => true⟩ (fun _ => rfl) (ascii "password")
  refine ⟨stored, ?_, ?_⟩
  · rw [hanswer, if_neg (by decide), if_neg (not_or.mpr ⟨hlength, by decide⟩), if_pos rfl]
  · rw [hanswer, if_neg (by decide), if_pos (.inr (by decide))]

/-- A raw call and an encoded call with the same arguments agree when both succeed, whatever the
two hosts refuse: the text decodes to the context of the call with the raw bytes as its tag. The
decoder takes the length of the text for the room of its fields and keeps 32 bits of it. -/
theorem decodeString_of_raw {host' : Host} {raw : Bytes} (hpos : 0 < encodedlen)
    (hbuf : buf.length = encodedlen) (hraw : raw.length = hashlen)
    (hok : (argon2Hash host t_cost m_cost parallelism pwd salt none hashlen (some buf) encodedlen
      type version).rc = .ok ())
    (hok' : (argon2Hash host' t_cost m_cost parallelism pwd salt (some raw) hashlen none 0 type
      version).rc = .ok ()) :
    ∃ stored bytes, (argon2Hash host t_cost m_cost parallelism pwd salt none hashlen (some buf)
        encodedlen type version).encoded = some stored ∧
      (argon2Hash host' t_cost m_cost parallelism pwd salt (some raw) hashlen none 0 type
        version).hash = some bytes ∧
      ((cString stored).length ≤ uint32Max → ∀ signedChar,
        decodeString signedChar (verifyContext (cString stored) pwd) (cString stored) type =
          .ok (hashContext t_cost m_cost parallelism pwd salt bytes version)) := by
  obtain ⟨hadmitted, -, hstored⟩ := argon2Hash_eq_ok hpos hbuf hok
  have htag := length_callTag type hadmitted.hashlen_le hadmitted.valid
  refine ⟨_, callTag t_cost m_cost parallelism pwd salt hashlen version type, hstored, ?_, ?_⟩
  · rcases argon2Hash_cases host' t_cost m_cost parallelism pwd salt (some raw) hashlen none 0
      type version with ⟨code, -, hcode⟩ | ⟨-, hcall⟩
    · rw [hcode] at hok'
      exact absurd hok' (by simp)
    · rw [hcall, finished, Option.map_some, overwrite, htag, ← hraw, List.drop_length,
        List.append_nil]
  · rw [cString_callText]
    intro hlength signedChar
    exact hadmitted.decodeString_callText type hlength signedChar

theorem argon2Hash_raw_password :
    (argon2Hash ⟨false, fun _ => true⟩ 2 19456 1 (ascii "password") (ascii "saltsalt")
      (some (List.replicate 32 7)) 32 none 0 .id argon2VersionNumber).rc = .ok () := by
  rw [argon2Hash_of_computeTag
    (admitted_password.computeTag_eq (fun _ => rfl) .id) admitted_password]
  rfl

theorem decodeString_of_raw_password : ∃ stored bytes,
    (argon2Hash ⟨false, fun _ => true⟩ 2 19456 1 (ascii "password") (ascii "saltsalt")
      (some (List.replicate 32 7)) 32 none 0 .id argon2VersionNumber).hash = some bytes ∧
    decodeString true (verifyContext (cString stored) (ascii "password")) (cString stored) .id =
      .ok (hashContext 2 19456 1 (ascii "password") (ascii "saltsalt") bytes
        argon2VersionNumber) := by
  obtain ⟨stored, bytes, hstored, hraw, hdecode⟩ := decodeString_of_raw (by decide)
    length_roomyBuffer List.length_replicate (argon2Hash_password none .id) argon2Hash_raw_password
  have hlength : (cString stored).length ≤ uint32Max := by
    have hcall := (argon2Hash_eq_ok (by decide) length_roomyBuffer (argon2Hash_password none .id)).2
    rw [hcall.2, Option.some.injEq] at hstored
    rw [← hstored, cString_callText]
    exact hcall.1.le.trans (by decide)
  exact ⟨stored, bytes, hraw, hdecode hlength true⟩

end Hash

end Passe.Argon2
