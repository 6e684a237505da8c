import Passe.Argon2RoundTrip

/-!
# What a stored string can do to `verify`

A stored string is an encoding or it is not, and an encoding carries the tag of
the password or it does not. `Encoding` is the text format with the ranges that
validation asks for. On encodings the code tells the two cases apart exactly;
whatever else the string is, the OCaml side reports it as a mismatch as well,
because it only knows the code for a mismatch and takes every other code for one.
-/
namespace Passe.Argon2
open Radix64

/-- An encoded argon2id hash. Without a version field it has the older version. -/
structure Encoding where
  version : Option UInt32
  mCost : UInt32
  tCost : UInt32
  lanes : UInt32
  salt : Bytes
  out : Bytes
  out_ge : 4 ≤ out.length
  salt_ge : 8 ≤ salt.length
  tCost_pos : 1 ≤ tCost.toNat
  mCost_ge : 8 ≤ mCost.toNat
  mCost_ge_lanes : 8 * lanes.toNat ≤ mCost.toNat
  lanes_pos : 1 ≤ lanes.toNat
  lanes_le : lanes.toNat ≤ 0xFFFFFF

namespace Encoding

def text (e : Encoding) : Bytes := formatText .id e.version e.tCost e.mCost e.lanes e.salt e.out

/-- The tag of a password under the version, costs and salt of an encoding. The C
code has none for a password whose length does not fit in 32 bits. -/
def recomputedTag (e : Encoding) (p : Bytes) : Option Bytes :=
  if p.length ≤ uint32Max then
    some (callTag e.tCost e.mCost e.lanes p e.salt e.out.length (versionNumber e.version) .id)
  else none

end Encoding

/-- `h` is the text of `e`, and short enough for the C side. -/
structure Encodes (h : Bytes) (e : Encoding) : Prop where
  eq_text : h = e.text
  length_le : h.length ≤ uint32Max

def ValidEncoding (h : Bytes) : Prop := ∃ e, Encodes h e

section Decoded
variable {h p : Bytes} {e : Encoding}

theorem Encodes.field_le (he : Encodes h e) :
    e.salt.length ≤ h.length ∧ e.out.length ≤ h.length := by
  rw [he.eq_text]
  exact length_le_formatText _ _ _ _ _ _ _

theorem not_encodes_nil (e : Encoding) : ¬ Encodes [] e := fun he =>
  absurd (Nat.le_trans e.out_ge he.field_le.2) (by decide)

theorem Encodes.context_valid (he : Encodes h e) (p : Bytes) :
    (hashContext e.tCost e.mCost e.lanes p e.salt e.out (versionNumber e.version)).Valid :=
  (hashContext_valid_iff (Nat.le_trans he.field_le.1 he.length_le)
      (Nat.le_trans he.field_le.2 he.length_le)).mpr
    ⟨e.out_ge, e.salt_ge, e.tCost_pos, e.mCost_ge, e.mCost_ge_lanes, e.lanes_pos, e.lanes_le⟩

/-- Every encoding is decoded, on either kind of host, to the context that it spells. -/
theorem Encodes.decodeString_eq (he : Encodes h e) (hzero : 0 ∉ h) (signedChar : Bool)
    (p : Bytes) :
    decodeString signedChar (verifyContext h p) h .id =
      .ok (hashContext e.tCost e.mCost e.lanes p e.salt e.out (versionNumber e.version)) :=
  decodeString_verifyContext (he.context_valid p) he.eq_text hzero he.length_le signedChar

/-- Where `char` is unsigned, nothing else is: the decoder accepts the format and no other
string. -/
theorem validEncoding_iff (hzero : 0 ∉ h) (hlength : h.length ≤ uint32Max) (p : Bytes) :
    ValidEncoding h ↔ ∃ ctx, decodeString false (verifyContext h p) h .id = .ok ctx := by
  constructor
  · rintro ⟨e, he⟩
    exact ⟨_, he.decodeString_eq hzero false p⟩
  · rintro ⟨ctx, hctx⟩
    obtain ⟨version, t, m, lanes, salt, out, rest, htext, hend, hsalt, hout, hvalid, rfl⟩ :=
      decodeString_eq_ok hctx rfl rfl
    obtain ⟨hout4, hsalt8, ht, hm, hml, hl, hlmax⟩ := (hashContext_valid_iff hsalt hout).mp hvalid
    have hrest : rest = [] := by
      cases rest with
      | nil => rfl
      | cons c rest =>
        obtain rfl : c = 0 := hend
        exact absurd (htext ▸ List.mem_append_right _ List.mem_cons_self) hzero
    rw [hrest, List.append_nil] at htext
    exact ⟨⟨version, m, t, lanes, salt, out, hout4, hsalt8, ht, hm, hml, hl, hlmax⟩, htext, hlength⟩

variable {host : Host}

/-- An encoding is compared with the recomputed tag, and the answer is a truth value and no
error. -/
theorem verify_encoding (hhost : host.Generous) (he : Encodes h e) (hzero : 0 ∉ h)
    (hp : p.length ≤ uint32Max) :
    verify host h p = .ok (.ok (decide (e.recomputedTag p = some e.out))) := by
  have hne : h ≠ [] := fun h0 => not_encodes_nil e (h0 ▸ he)
  have htag : e.recomputedTag p = some e.out ↔ e.out =
      callTag e.tCost e.mCost e.lanes p e.salt e.out.length (versionNumber e.version) .id := by
    rw [Encoding.recomputedTag, if_pos hp, Option.some.injEq]
    exact eq_comm
  rw [verify_of_stub hne hzero, argon2idVerify_formatText hhost (he.context_valid p) he.eq_text
    hzero he.length_le hp]
  by_cases hout : e.recomputedTag p = some e.out
  · rw [if_pos (htag.mp hout), decide_eq_true hout]
  · rw [if_neg fun h => hout (htag.mpr h), decide_eq_false hout]

/-- A password that is too long is refused before the string is looked at. -/
theorem verify_long (hne : h ≠ []) (hzero : 0 ∉ h) (hp : uint32Max < p.length) :
    verify host h p = .ok (.error .verifyMismatch) := by
  have hlong : argon2idVerify host h p = .error .pwdTooLong := by
    rw [argon2idVerify, argon2Verify]
    exact reject_bind_of_true hp _ _
  rw [verify_of_stub hne hzero, hlong]

theorem verify_ne_invalidHash (hne : h ≠ []) (hzero : 0 ∉ h) (s : Bytes) :
    verify host h p ≠ .ok (.error (.invalidHash s)) := by
  rw [verify_of_stub hne hzero]
  split <;> simp

end Decoded

section Mismatch
variable {host : Host} {h p : Bytes}

/-- A mismatch is reported for a mismatch only, and a string that is no encoding as
an invalid hash. -/
structure MismatchFaithful (host : Host) (h p : Bytes) : Prop where
  true_iff : verify host h p = .ok (.ok true) ↔
    ∃ e, Encodes h e ∧ e.recomputedTag p = some e.out
  of_mismatch : verify host h p = .ok (.ok false) ∨
      verify host h p = .ok (.error .verifyMismatch) →
    ∃ e, Encodes h e ∧ e.recomputedTag p ≠ some e.out
  of_invalid : ¬ ValidEncoding h → ∃ s, verify host h p = .ok (.error (.invalidHash s))

theorem mismatchFaithful_nil : MismatchFaithful host [] p := by
  have hverify : verify host [] p = .ok (.error (.invalidHash (ascii "Empty hash"))) := rfl
  refine ⟨?_, ?_, fun _ => ⟨_, hverify⟩⟩
  · rw [hverify]
    exact ⟨fun h => absurd h (by simp), fun ⟨e, he, _⟩ => absurd he (not_encodes_nil e)⟩
  · rw [hverify]
    rintro (h | h)
    · exact absurd h (by simp)
    · exact absurd h (by simp)

/-- On an encoding the answer is exact; for a password without a tag it is a
mismatch. -/
theorem mismatchFaithful_of_encodes (hhost : host.Generous) {e : Encoding} (he : Encodes h e)
    (hzero : 0 ∉ h) : MismatchFaithful host h p := by
  have hinvalid : ¬ ValidEncoding h → ∃ s, verify host h p = .ok (.error (.invalidHash s)) :=
    fun hnot => absurd ⟨e, he⟩ hnot
  by_cases hp : p.length ≤ uint32Max
  · have hverify := verify_encoding hhost he hzero hp
    refine ⟨⟨fun htrue => ⟨e, he, ?_⟩, ?_⟩, fun hmismatch => ⟨e, he, ?_⟩, hinvalid⟩
    · rw [hverify, Except.ok.injEq, Except.ok.injEq, decide_eq_true_iff] at htrue
      exact htrue
    · rintro ⟨e', he', htag⟩
      rw [verify_encoding hhost he' hzero hp, decide_eq_true htag]
    · intro htag
      rw [hverify, decide_eq_true htag] at hmismatch
      rcases hmismatch with hfalse | herror
      · exact absurd (Except.ok.inj (Except.ok.inj hfalse)) (by simp)
      · exact absurd (Except.ok.inj herror) (by simp)
  · have hverify : verify host h p = .ok (.error .verifyMismatch) :=
      verify_long (fun h0 => not_encodes_nil e (h0 ▸ he)) hzero (Nat.not_le.mp hp)
    have hnone : ∀ e' : Encoding, e'.recomputedTag p ≠ some e'.out := by
      intro e'
      rw [Encoding.recomputedTag, if_neg hp]
      simp
    refine ⟨⟨fun htrue => ?_, fun ⟨e', _, htag⟩ => absurd htag (hnone e')⟩,
      fun _ => ⟨e, he, hnone e⟩, hinvalid⟩
    rw [hverify] at htrue
    exact absurd (Except.ok.inj htrue) (by simp)

/-- The code for a mismatch is told apart from success only. Every other code, for a
string that does not decode or whose parameters are refused, becomes a mismatch too. -/
theorem mismatchFaithful_iff (hhost : host.Generous) (hzero : 0 ∉ h) :
    MismatchFaithful host h p ↔ h = [] ∨ ValidEncoding h := by
  constructor
  · intro hfaithful
    by_contra hneither
    obtain ⟨hne, hinvalid⟩ := not_or.mp hneither
    obtain ⟨s, hs⟩ := hfaithful.of_invalid hinvalid
    exact verify_ne_invalidHash hne hzero s hs
  · rintro (rfl | ⟨e, he⟩)
    · exact mismatchFaithful_nil
    · exact mismatchFaithful_of_encodes hhost he hzero

theorem mismatchFaithful_withoutVersion :
    MismatchFaithful ⟨true, fun _ => true⟩ (ascii "$argon2id$m=8,t=1,p=1$c2FsdHNhbHQ$AAAAAA")
      (ascii "password") := by
  refine (mismatchFaithful_iff (fun _ => rfl) (by decide)).mpr (.inr ?_)
  exact ⟨⟨none, 8, 1, 1, ascii "saltsalt", [0, 0, 0, 0], by decide, by decide, by decide, by decide,
    by decide, by decide, by decide⟩, rfl, by decide⟩

/-- A string cut off behind its parameters is reported as a wrong password. -/
theorem not_mismatchFaithful_cut :
    verify ⟨true, fun _ => true⟩ (ascii "$argon2id$v=19$m=19456,t=2,p=1$") (ascii "password") =
        .ok (.error .verifyMismatch) ∧
      ¬ MismatchFaithful ⟨true, fun _ => true⟩ (ascii "$argon2id$v=19$m=19456,t=2,p=1$")
        (ascii "password") := by
  have hverify : verify ⟨true, fun _ => true⟩ (ascii "$argon2id$v=19$m=19456,t=2,p=1$")
      (ascii "password") = .ok (.error .verifyMismatch) := rfl
  have hdecode : decodeString false
      (verifyContext (ascii "$argon2id$v=19$m=19456,t=2,p=1$") (ascii "password"))
      (ascii "$argon2id$v=19$m=19456,t=2,p=1$") .id = .error .decodingFail := rfl
  refine ⟨hverify, fun hfaithful => ?_⟩
  obtain ⟨e, he, -⟩ := hfaithful.of_mismatch (.inr hverify)
  obtain ⟨ctx, hctx⟩ := (validEncoding_iff (by decide) (by decide) (ascii "password")).mp ⟨e, he⟩
  exact absurd (hdecode.symm.trans hctx) (by simp)

end Mismatch

end Passe.Argon2
