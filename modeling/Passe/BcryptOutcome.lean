import Passe.Bcrypt

/-!
# What hashing with a salt comes to

The OCaml and C layers together compute one function of the revision, the 25
bytes behind it and the password. `outcome` states that function without any
slicing or re-parsing, and `hashWithSalt_header` shows that the code computes
it. The remaining salts, those without a known revision, never yield a hash.
-/
namespace Passe.Bcrypt
open Radix64

namespace Variant

def minor : Variant → UInt8
  | A => ch 'a'
  | Y => ch 'y'
  | B => ch 'b'

/-- The revision under which a salt is really hashed. It differs from the one that is written
only for `y`. -/
def effective : Variant → Variant
  | A => A
  | Y => B
  | B => B

@[simp] theorem effective_effective (v : Variant) : v.effective.effective = v.effective := by
  cases v <;> rfl

theorem minor_effective (v : Variant) :
    v.effective.minor = ch 'a' ∨ v.effective.minor = ch 'b' := by
  cases v <;> simp [effective, minor]

theorem minor_injective : Function.Injective minor := by
  intro v w h
  cases v <;> cases w <;> first | rfl | exact absurd h (by decide)

@[simp] theorem tag_append (v : Variant) (t : Bytes) :
    ascii "$" ++ v.toString ++ ascii "$" ++ t = header v.minor t := by
  cases v <;> rfl

@[simp] theorem ofRawString_eq_some_iff (s : Bytes) (v : Variant) :
    ofRawString s = some v ↔ s = header v.minor [] := by
  constructor
  · intro h
    unfold ofRawString at h
    split_ifs at h with ha hy hb <;> obtain rfl := Option.some.inj h
    · rw [ha]; rfl
    · rw [hy]; rfl
    · rw [hb]; rfl
  · rintro rfl
    cases v <;> rfl

end Variant

theorem header_injective {m m' : UInt8} {t t' : Bytes} (h : header m t = header m' t') :
    m = m' ∧ t = t' := by
  simpa [header] using h

@[simp] theorem header_eq_iff {m : UInt8} {t t' : Bytes} : header m t = header m t' ↔ t = t' :=
  ⟨fun h => (header_injective h).2, fun h => h ▸ rfl⟩

/-- A string whose first four bytes are a known revision is a header. -/
theorem eq_header_of_take {s : Bytes} {v : Variant} (h : s.take 4 = header v.minor []) :
    s = header v.minor (s.drop 4) := by
  conv_lhs => rw [← List.take_append_drop 4 s, h]
  rfl

/-- What the guards on the password leave: no terminator inside, at most 72 bytes. -/
structure Admissible (p : Bytes) : Prop where
  zero_notMem : 0 ∉ p
  length_le : p.length ≤ 72

open Classical in
/-- The setting a text spells, if it spells one. The choice is no choice, since a text spells at
most one. -/
noncomputable def Setting.parse (t : Bytes) : Option Setting :=
  if h : ∃ st : Setting, st.Spells t then some h.choose else none

@[simp] theorem Setting.parse_eq_some_iff {t : Bytes} {st : Setting} :
    Setting.parse t = some st ↔ st.Spells t := by
  unfold Setting.parse
  split_ifs with h
  · rw [Option.some.injEq]
    constructor
    · rintro rfl
      exact h.choose_spec
    · exact h.choose_spec.unique
  · simpa using fun hst => h ⟨st, hst⟩

theorem Setting.parse_eq_none_iff {t : Bytes} :
    Setting.parse t = none ↔ ¬ ∃ st : Setting, st.Spells t := by
  rw [Option.eq_none_iff_forall_ne_some, not_exists]
  exact forall_congr' fun st => not_congr parse_eq_some_iff

/-- Hashing `p` under revision `v` and the salt text `t`: what `hash_with_salt` is for, with
none of its slicing and retagging. -/
noncomputable def outcome (v : Variant) (t p : Bytes) : Caml (Except Error Bytes) :=
  if p.length > 72 then .ok (.error (.truncated 72))
  else if 0 ∈ p then .error passwordNul
  else if 0 ∈ t then .error saltNul
  else
    match Setting.parse t with
    | none => .error hashpassFailed
    | some st => .ok (.ok (header v.effective.minor (st.hashTail p)))

@[simp] theorem length_hashTail (st : Setting) (p : Bytes) : (st.hashTail p).length = 56 := by
  rw [Setting.hashTail, List.length_append, length_tail, length_digest]

theorem zero_notMem_hashTail (st : Setting) (p : Bytes) : 0 ∉ st.hashTail p := by
  rw [Setting.hashTail, List.mem_append, not_or]
  exact ⟨zero_notMem_of_spells st.tail_spells, notMem_zero_encode _⟩

@[simp] theorem zero_mem_header_iff (v : Variant) (t : Bytes) : 0 ∈ header v.minor t ↔ 0 ∈ t := by
  have hd : (0 : UInt8) ≠ ch '$' := by decide
  have h2 : (0 : UInt8) ≠ ch '2' := by decide
  have hm : (0 : UInt8) ≠ v.minor := by cases v <;> decide
  simp [header, hd, h2, hm]

theorem bcryptHashStub_header (v : Variant) {t p : Bytes} (ht : t.length = 25)
    (hp : p.length ≤ 72) :
    bcryptHashStub p (header v.effective.minor t) =
      if 0 ∈ p then .error passwordNul
      else if 0 ∈ t then .error saltNul
      else
        match Setting.parse t with
        | none => .error hashpassFailed
        | some st => .ok (header v.effective.minor (st.hashTail p)) := by
  simp only [bcryptHashStub, camlStringIsCSafe_iff, not_not, zero_mem_header_iff]
  by_cases hzero : 0 ∈ p
  · rw [if_pos hzero, if_pos hzero]
  rw [if_neg hzero, if_neg hzero]
  by_cases htzero : 0 ∈ t
  · rw [if_pos htzero, if_pos htzero]
  rw [if_neg htzero, if_neg htzero]
  cases hparse : Setting.parse t with
  | none =>
    have hnone : bcryptHashpass p (header v.effective.minor t) bcryptHashSpace = none := by
      rw [Option.eq_none_iff_forall_ne_some]
      intro out hout
      exact Setting.parse_eq_none_iff.mp hparse (exists_spells_of_bcryptHashpass ht hout)
    rw [hnone]
  | some st =>
    have hspells := Setting.parse_eq_some_iff.mp hparse
    rw [bcryptHashpass_of_spells v.minor_effective hzero hp hspells]
    have hsafe : 0 ∉ header v.effective.minor (st.hashTail p) :=
      fun h => zero_notMem_hashTail st p ((zero_mem_header_iff _ _).mp h)
    simp only [cString_of_notMem hsafe]

/-- The first four bytes of a header are its revision. -/
@[simp] theorem stringSub_revision (m : UInt8) (t : Bytes) :
    stringSub (header m t) 0 4 = .ok (header m []) := by
  have hlength : (header m t).length = t.length + 4 := rfl
  rw [stringSub_of_le (by decide) (by decide) (by omega)]
  rfl

/-- Cutting off the revision leaves the text behind it. -/
@[simp] theorem stringSub_header (m : UInt8) (t : Bytes) :
    stringSub (header m t) 4 t.length = .ok t := by
  have hlength : (header m t).length = t.length + 4 := rfl
  rw [stringSub_of_le (by decide) (by omega) (by omega), Int.toNat_natCast]
  exact congrArg Except.ok (List.take_length)

/-- The length `is_salt_valid` asks of a salt, given the revision that its first four bytes
name. -/
def requiredLength : Option Variant → ℕ
  | some _ => 29
  | none => 22

theorem isSaltValid_eq {s : Bytes} (hs : 4 ≤ s.length) : isSaltValid s =
    .ok (decide (s.length = requiredLength (Variant.ofRawString (s.take 4)))) := by
  have hsub : stringSub s 0 4 = .ok (s.take 4) := stringSub_of_le (by decide) (by decide) (by omega)
  rw [isSaltValid, hsub, ok_bind]
  cases Variant.ofRawString (s.take 4) with
  | some v => rfl
  | none => rfl

theorem isSaltValid_header (v : Variant) {t : Bytes} (ht : t.length = 25) :
    isSaltValid (header v.minor t) = .ok true := by
  have hlength : (header v.minor t).length = 29 := by simp [header, ht]
  have hrevision : Variant.ofRawString ((header v.minor t).take 4) = some v :=
    (Variant.ofRawString_eq_some_iff _ v).mpr rfl
  rw [isSaltValid_eq (by omega), hrevision, requiredLength, hlength]
  rfl

theorem saltVariant_header (v : Variant) {t : Bytes} (ht : t.length = 25) :
    saltVariant (header v.minor t) = .ok (some v) := by
  rw [saltVariant, if_neg (by simp [header, ht]), stringSub_revision, ok_bind,
    (Variant.ofRawString_eq_some_iff _ v).mpr rfl, pure_eq_ok]

theorem variantAndSalt_header (v : Variant) {t : Bytes} (ht : t.length = 25) :
    variantAndSalt (header v.minor t) =
      .ok (some (v.effective, header v.effective.minor t)) := by
  rw [variantAndSalt, saltVariant_header v ht, ok_bind]
  cases v with
  | A => rfl
  | Y =>
    have hsub : stringSub (header Variant.Y.minor t) 4 25 = .ok t := by
      have h := stringSub_header Variant.Y.minor t
      rwa [ht] at h
    simp only [hsub, ok_bind]
    rfl
  | B => rfl

@[simp] theorem retag_header (v : Variant) (t : Bytes) :
    retag v (header v.minor t) = .ok (.ok (header v.minor t)) := by
  have hlen : (header v.minor t).length = t.length + 4 := rfl
  have hsub : stringSub (header v.minor t) 4 ((header v.minor t).length - 4) = .ok t := by
    rw [show ((header v.minor t).length : ℤ) - 4 = (t.length : ℕ) by omega]
    exact stringSub_header v.minor t
  unfold retag
  rw [if_neg (by omega), hsub, ok_bind, pure_eq_ok, v.tag_append]

/-- The code computes `outcome` on every salt with a known revision. All later results about
hashing rest on this step. -/
theorem hashWithSalt_header (v : Variant) {t : Bytes} (ht : t.length = 25) (p : Bytes) :
    hashWithSalt (header v.minor t) p = outcome v t p := by
  rw [hashWithSalt, isSaltValid_header v ht]
  simp only [ok_bind, not_true_eq_false, if_false, variantAndSalt_header v ht, hashPassword]
  unfold outcome
  by_cases hp : p.length > 72
  · simp [if_pos hp]
  rw [if_neg hp, if_neg hp, bcryptHashStub_header v ht (by omega)]
  by_cases hzero : 0 ∈ p
  · simp only [if_pos hzero, error_bind]
  by_cases htzero : 0 ∈ t
  · simp only [if_neg hzero, if_pos htzero, error_bind]
  simp only [if_neg hzero, if_neg htzero]
  cases Setting.parse t with
  | none => simp only [error_bind]
  | some st => simp

/-- When hashing succeeds, and with what: the password has to be admissible and the text has to
spell a setting. -/
theorem outcome_eq_ok_iff {v : Variant} {t p h : Bytes} :
    outcome v t p = .ok (.ok h) ↔
      Admissible p ∧ ∃ st : Setting, st.Spells t ∧
        h = header v.effective.minor (st.hashTail p) := by
  constructor
  · intro hout
    unfold outcome at hout
    by_cases hp : p.length > 72
    · simp [hp] at hout
    by_cases hzero : 0 ∈ p
    · simp [hp, hzero] at hout
    by_cases htzero : 0 ∈ t
    · simp [hp, hzero, htzero] at hout
    rw [if_neg hp, if_neg hzero, if_neg htzero] at hout
    cases hparse : Setting.parse t with
    | none => simp [hparse] at hout
    | some st =>
      rw [hparse] at hout
      refine ⟨⟨hzero, by omega⟩, st, Setting.parse_eq_some_iff.mp hparse, ?_⟩
      exact (Except.ok.inj (Except.ok.inj hout)).symm
  · rintro ⟨hp, st, hspells, rfl⟩
    rw [outcome, if_neg (by have := hp.length_le; omega), if_neg hp.zero_notMem,
      if_neg (zero_notMem_of_spells hspells), Setting.parse_eq_some_iff.mpr hspells]

/-- A salt without a revision reaches the C code as it is and is refused there. -/
theorem hashWithSalt_bare {s : Bytes} (hs : s.length = 22)
    (hnone : Variant.ofRawString (s.take 4) = none) (p : Bytes) :
    hashWithSalt s p =
      if p.length > 72 then .ok (.error (.truncated 72))
      else if 0 ∈ p then .error passwordNul
      else if 0 ∈ s then .error saltNul
      else .error hashpassFailed := by
  have hvalid : isSaltValid s = .ok true := by
    rw [isSaltValid_eq (by omega), hnone, requiredLength, hs]
    rfl
  have hvariant : variantAndSalt s = .ok (some (.B, s)) := by
    simp [variantAndSalt, saltVariant, hs]
  have hrefused : bcryptHashpass p s bcryptHashSpace = none := by
    rw [Option.eq_none_iff_forall_ne_some]
    intro out hout
    obtain ⟨m, t, hm, rfl⟩ := exists_header_of_bcryptHashpass hout
    rcases hm with rfl | rfl <;> exact absurd hnone (by simp [header]; decide)
  rw [hashWithSalt, hvalid]
  simp only [ok_bind, not_true_eq_false, if_false, hvariant, hashPassword, bcryptHashStub,
    camlStringIsCSafe_iff, not_not, hrefused]
  split_ifs <;> rfl

/-- Every salt is too short to be inspected, has a known revision, is bare, or is
refused for its length. -/
theorem hashWithSalt_cases (s p : Bytes) :
    (s.length < 4 ∧
      hashWithSalt s p = .error (.invalidArgument (ascii "String.sub / Bytes.sub"))) ∨
    (∃ (v : Variant) (t : Bytes), t.length = 25 ∧ s = header v.minor t) ∨
    (s.length = 22 ∧ Variant.ofRawString (s.take 4) = none) ∨
    (4 ≤ s.length ∧ s.length ≠ requiredLength (Variant.ofRawString (s.take 4)) ∧
      hashWithSalt s p = .ok (.error (.invalidSaltLength s.length))) := by
  by_cases hshort : s.length < 4
  · exact .inl ⟨hshort, by rw [hashWithSalt, isSaltValid, stringSub_zero_of_lt (by omega)]; rfl⟩
  right
  by_cases hlength : s.length = requiredLength (Variant.ofRawString (s.take 4))
  · cases hrevision : Variant.ofRawString (s.take 4) with
    | some v =>
      rw [hrevision, requiredLength] at hlength
      have hs := eq_header_of_take ((Variant.ofRawString_eq_some_iff _ v).mp hrevision)
      exact .inl ⟨v, s.drop 4, by rw [List.length_drop, hlength], hs⟩
    | none =>
      rw [hrevision, requiredLength] at hlength
      exact .inr (.inl ⟨hlength, rfl⟩)
  · refine .inr (.inr ⟨by omega, hlength, ?_⟩)
    rw [hashWithSalt, isSaltValid_eq (by omega), decide_eq_false hlength]
    rfl

/-- The hashes the library can produce, in terms of the salt they were made from and of the
password. -/
theorem hashWithSalt_eq_ok_iff {s p h : Bytes} :
    hashWithSalt s p = .ok (.ok h) ↔
      Admissible p ∧ ∃ (v : Variant) (t : Bytes) (st : Setting), s = header v.minor t ∧ st.Spells t ∧
        h = header v.effective.minor (st.hashTail p) := by
  constructor
  · intro hok
    rcases hashWithSalt_cases s p with ⟨-, herr⟩ | ⟨v, t, ht, rfl⟩ | ⟨hs, hnone⟩ | ⟨-, -, herr⟩
    · simp [herr] at hok
    · rw [hashWithSalt_header v ht, outcome_eq_ok_iff] at hok
      obtain ⟨hp, st, hspells, rfl⟩ := hok
      exact ⟨hp, v, t, st, rfl, hspells, rfl⟩
    · rw [hashWithSalt_bare hs hnone] at hok
      split_ifs at hok
      exact absurd (Except.ok.inj hok) (by simp)
    · simp [herr] at hok
  · rintro ⟨hp, v, t, st, rfl, hspells, rfl⟩
    rw [hashWithSalt_header v (length_of_spells hspells), outcome_eq_ok_iff]
    exact ⟨hp, st, hspells, rfl⟩

/-- What `verify` makes of the outcome for the salt part of a stored hash. -/
def compared (hash : Bytes) (o : Caml (Except Error Bytes)) : Caml (Except Error Bool) := do
  match ← o with
  | .error e => return .error e
  | .ok computed => return .ok (decide (computed = hash))

theorem verify_header (v : Variant) {r : Bytes} (hr : r.length = 56) (p : Bytes) :
    verify (header v.minor r) p = compared (header v.minor r) (outcome v (r.take 25) p) := by
  have hlength : (header v.minor r).length = 60 := by simp [header, hr]
  have hsalt : stringSub (header v.minor r) 0 29 = .ok (header v.minor (r.take 25)) :=
    stringSub_of_le (by decide) (by decide) (by omega)
  have htake : (r.take 25).length = 25 := by rw [List.length_take, hr]; rfl
  have hsaltLength : (header v.minor (r.take 25)).length = 29 := by simp [header, hr]
  unfold verify
  rw [if_neg (by omega), stringSub_revision]
  simp only [ok_bind, (Variant.ofRawString_eq_some_iff _ v).mpr rfl, hsalt, hsaltLength,
    ne_eq, not_true_eq_false, if_false, hashWithSalt_header v htake,
    Crypto.constantTimeEqual_eq]
  rfl

/-- Every stored string has the wrong length, no known revision, or is a header
and 56 more bytes. -/
theorem verify_cases (h p : Bytes) :
    (h.length ≠ 60 ∧ verify h p = .ok (.error (.invalidHash h))) ∨
    (h.length = 60 ∧ Variant.ofRawString (h.take 4) = none ∧
      verify h p = .ok (.error (.invalidPrefix h))) ∨
    (∃ (v : Variant) (r : Bytes), r.length = 56 ∧ h = header v.minor r) := by
  by_cases hlength : h.length = 60
  · right
    have hsub : stringSub h 0 4 = .ok (h.take 4) := stringSub_of_le (by decide) (by decide) (by omega)
    cases hrevision : Variant.ofRawString (h.take 4) with
    | some v =>
      have hh := eq_header_of_take ((Variant.ofRawString_eq_some_iff _ v).mp hrevision)
      exact .inr ⟨v, h.drop 4, by rw [List.length_drop, hlength], hh⟩
    | none =>
      refine .inl ⟨hlength, rfl, ?_⟩
      simp [verify, hlength, hsub, hrevision]
  · exact .inl ⟨hlength, by rw [verify, if_pos hlength]⟩

@[simp] theorem take_hashTail (st : Setting) (p : Bytes) : (st.hashTail p).take 25 = st.tail := by
  rw [Setting.hashTail, List.take_append_of_le_length (by rw [length_tail]),
    List.take_of_length_le (by rw [length_tail])]

/-- The accepted strings are the produced ones: a revision the code also hashes
under, and behind it the tail of some setting. -/
theorem verify_eq_ok_true_iff {h p : Bytes} :
    verify h p = .ok (.ok true) ↔
      Admissible p ∧ ∃ (v : Variant) (st : Setting), v.effective = v ∧
        h = header v.minor (st.hashTail p) := by
  constructor
  · intro hok
    rcases verify_cases h p with ⟨-, herr⟩ | ⟨-, -, herr⟩ | ⟨v, r, hr, rfl⟩
    · simp [herr] at hok
    · simp [herr] at hok
    · rw [verify_header v hr] at hok
      cases hout : outcome v (r.take 25) p with
      | error e => simp [hout, compared] at hok
      | ok result =>
        cases result with
        | error e => simp [hout, compared] at hok
        | ok computed =>
          simp only [hout, compared, ok_bind, pure_eq_ok, Except.ok.injEq,
            decide_eq_true_eq] at hok
          obtain ⟨hp, st, -, rfl⟩ := outcome_eq_ok_iff.mp hout
          obtain ⟨hminor, htail⟩ := header_injective hok
          exact ⟨hp, v, st, Variant.minor_injective hminor, by rw [htail]⟩
  · rintro ⟨hp, v, st, hv, rfl⟩
    have hout : outcome v st.tail p = .ok (.ok (header v.effective.minor (st.hashTail p))) :=
      outcome_eq_ok_iff.mpr ⟨hp, st, st.tail_spells, rfl⟩
    rw [verify_header v (length_hashTail st p), take_hashTail, hout, compared, hv]
    simp

/-- What is produced is accepted, since it never carries a revision that is rewritten on the way
to the core. -/
theorem verify_of_hashWithSalt {s p h : Bytes} (hok : hashWithSalt s p = .ok (.ok h)) :
    verify h p = .ok (.ok true) := by
  obtain ⟨hp, v, t, st, rfl, -, rfl⟩ := hashWithSalt_eq_ok_iff.mp hok
  exact verify_eq_ok_true_iff.mpr ⟨hp, v.effective, st, v.effective_effective, rfl⟩

end Passe.Bcrypt
