import Passe.BcryptStored

/-!
# Which salts are accepted, and what happens to the others

The check of a salt is spread over the OCaml slices, the stub and the C parser.
Together they accept one grammar, and the salt part of a hash is the canonical
spelling of the salt it was made with. The second section is about the salts
outside the grammar: which of them come back as the documented errors and which
escape as exceptions.
-/
namespace Passe.Bcrypt
open Radix64 Decimal

/-- `$2`, a revision letter, `$`, a two-digit cost from 4 to 31, `$`, and 22
characters of the alphabet. -/
def WellFormedSalt (s : Bytes) : Prop :=
  ∃ (letter tens units : UInt8) (body : Bytes), letter ∈ ascii "aby" ∧
    isDigit tens = true ∧ isDigit units = true ∧
    4 ≤ value [tens, units] ∧ value [tens, units] ≤ 31 ∧
    body.length = 22 ∧ (∀ c ∈ body, c ∈ base64Code) ∧
    s = ascii "$2" ++ letter :: ch '$' :: tens :: units :: ch '$' :: body

/-- The alphabet character for the value of `c` with its four low bits cleared. -/
def clearSpare (c : UInt8) : UInt8 := base64Char (char64 c &&& 0x30)

/-- Revision `y` becomes `b`, and the last character loses its spare bits. This is the salt that
a hash really records. -/
def canonicalSalt (s : Bytes) : Bytes :=
  let s := if deref s 2 = ch 'y' then s.set 2 (ch 'b') else s
  s.set 28 (clearSpare (deref s 28))

section Grammar
variable {s p h t : Bytes}

theorem mem_letters_iff (c : UInt8) : c ∈ ascii "aby" ↔ ∃ v : Variant, v.minor = c := by
  have hletters : ascii "aby" = [Variant.A.minor, Variant.B.minor, Variant.Y.minor] := rfl
  rw [hletters, List.mem_cons, List.mem_cons, List.mem_singleton]
  constructor
  · rintro (rfl | rfl | rfl)
    · exact ⟨.A, rfl⟩
    · exact ⟨.B, rfl⟩
    · exact ⟨.Y, rfl⟩
  · rintro ⟨v, rfl⟩
    cases v with
    | A => exact .inl rfl
    | Y => exact .inr (.inr rfl)
    | B => exact .inr (.inl rfl)

/-- The grammar, read as a known revision and a text that spells a setting. -/
theorem wellFormedSalt_iff : WellFormedSalt s ↔
    ∃ (v : Variant) (t : Bytes) (st : Setting), s = header v.minor t ∧ st.Spells t := by
  constructor
  · rintro ⟨letter, tens, units, body, hletter, htens, hunits, hlow, hhigh, hlength, halphabet,
      rfl⟩
    obtain ⟨v, rfl⟩ := (mem_letters_iff letter).mp hletter
    obtain ⟨st, hst⟩ := Setting.exists_spells_iff.mpr
      ⟨value [tens, units], body, hlow, hhigh, hlength, halphabet, rfl⟩
    refine ⟨v, _, st, ?_, hst⟩
    rw [padTwo_value htens hunits]
    rfl
  · rintro ⟨v, t, st, rfl, hst⟩
    obtain ⟨cost, body, hlow, hhigh, hlength, halphabet, rfl⟩ :=
      Setting.exists_spells_iff.mp ⟨st, hst⟩
    have hvalue := value_padTwo (n := cost) (by omega)
    rw [padTwo_eq (by omega)] at hvalue ⊢
    refine ⟨v.minor, _, _, body, (mem_letters_iff _).mpr ⟨v, rfl⟩,
      isDigit_digit (by omega), isDigit_digit (by omega), ?_, ?_, hlength, halphabet, rfl⟩
    · rwa [hvalue]
    · rwa [hvalue]

/-- For admissible passwords the grammar alone decides whether there is a hash; the password
itself has no say. -/
theorem exists_hash_iff (hp : Admissible p) :
    (∃ h, hashWithSalt s p = .ok (.ok h)) ↔ WellFormedSalt s := by
  rw [wellFormedSalt_iff]
  constructor
  · rintro ⟨h, hok⟩
    obtain ⟨-, v, t, st, hs, hspells, -⟩ := hashWithSalt_eq_ok_iff.mp hok
    exact ⟨v, t, st, hs, hspells⟩
  · rintro ⟨v, t, st, hs, hspells⟩
    exact ⟨_, hashWithSalt_eq_ok_iff.mpr ⟨hp, v, t, st, hs, hspells, rfl⟩⟩

private theorem ofNat_and_high :
    ∀ d : Fin 64, UInt8.ofNat d.val &&& 0x30 = UInt8.ofNat (d.val / 16 * 16) := by
  decide

@[simp] theorem clearSpare_code (d : Fin 64) :
    clearSpare (alphabet.code d) = alphabet.code (Fin.ofNat 64 (d.val / 16 * 16)) := by
  have hd : d.val / 16 * 16 % 64 = d.val / 16 * 16 := by omega
  rw [clearSpare, char64_code, ofNat_and_high, alphabet_code, Fin.val_ofNat, hd]

/-- The canonical spelling differs from any other in the last character only, where four of six
bits are not read. -/
theorem exists_spelling_eq {st : Setting} (hspells : st.Spells t) : ∃ (pre : Bytes) (c : UInt8),
    pre.length = 24 ∧ t = pre ++ [c] ∧ st.tail = pre ++ [clearSpare c] := by
  obtain ⟨cs, rfl, hlength, ss, rfl, hoctets⟩ := hspells
  rw [List.length_map] at hlength
  obtain ⟨xs, d, rfl, hxs⟩ := exists_eq_append_singleton hlength
  refine ⟨padTwo st.cost ++ ch '$' :: xs.map alphabet.code, alphabet.code d, ?_, ?_, ?_⟩
  · simp [Setting.padTwo_cost, hxs]
  · simp
  · rw [Setting.tail, Alphabet.encode, ← hoctets, sextets_octets_append_four xs d (by rw [hxs]),
      clearSpare_code]
    simp

theorem set_letter (v : Variant) (t : Bytes) :
    (if deref (header v.minor t) 2 = ch 'y' then (header v.minor t).set 2 (ch 'b')
      else header v.minor t) = header v.effective.minor t := by
  cases v <;> rfl

theorem canonicalSalt_header (v : Variant) {st : Setting} (hspells : st.Spells t) :
    canonicalSalt (header v.minor t) = header v.effective.minor st.tail := by
  obtain ⟨pre, c, hpre, rfl, htail⟩ := exists_spelling_eq hspells
  obtain ⟨hread, hset⟩ := deref_set_header v.effective.minor pre [] c (clearSpare c)
    (by rw [hpre] : 28 = _)
  unfold canonicalSalt
  simp only [set_letter, hread, hset, htail]

@[simp] theorem take_header_hashTail (m : UInt8) (st : Setting) (p : Bytes) :
    (header m (st.hashTail p)).take 29 = header m st.tail :=
  congrArg (header m) (take_hashTail st p)

/-- A salt is accepted exactly when it is in the grammar, and the salt part of the
hash is its canonical spelling. -/
theorem hashWithSalt_accepts_grammar (hzero : 0 ∉ p) (hp : p.length ≤ 72) :
    ((∃ h, hashWithSalt s p = .ok (.ok h)) ↔ WellFormedSalt s) ∧
      ∀ h, hashWithSalt s p = .ok (.ok h) → h.take 29 = canonicalSalt s := by
  refine ⟨exists_hash_iff ⟨hzero, hp⟩, fun h hok => ?_⟩
  obtain ⟨-, v, t, st, rfl, hspells, rfl⟩ := hashWithSalt_eq_ok_iff.mp hok
  rw [take_header_hashTail, canonicalSalt_header v hspells]

theorem hashWithSalt_accepts_grammar_slash : ∃ h,
    hashWithSalt (ascii "$2y$04$...................../") (ascii "secret") = .ok (.ok h) ∧
      h.take 29 = ascii "$2b$04$......................" := by
  obtain ⟨haccepts, hcanonical⟩ := hashWithSalt_accepts_grammar
    (s := ascii "$2y$04$...................../") (p := ascii "secret") (by decide) (by decide)
  obtain ⟨h, hok⟩ := haccepts.mpr ⟨ch 'y', ch '0', ch '4', ascii "...................../",
    by decide, rfl, rfl, by decide, by decide, rfl,
    exists_map_code_iff.mp ⟨List.replicate 21 0 ++ [1], rfl⟩, rfl⟩
  exact ⟨h, hok, hcanonical h hok⟩

end Grammar

section Refused
variable {s p : Bytes}

/-- What the error type of the interface promises about salts: a result, the error
that names the reason, and no exception but `Invalid_argument` from the `_exn` form. -/
structure ErrorContract (s p : Bytes) : Prop where
  returns : ∃ result, hashWithSalt s p = .ok result
  length_error : s.length ≠ 22 → s.length ≠ 29 →
    hashWithSalt s p = .ok (.error (.invalidSaltLength s.length))
  revision_error : s.length = 29 → Variant.ofRawString (s.take 4) = none →
    hashWithSalt s p = .ok (.error (.invalidPrefix s))
  malformed_error : ¬ WellFormedSalt s → ¬ (s.length = 22 ∧ ∀ c ∈ s, c ∈ base64Code) →
    ∃ e, hashWithSalt s p = .ok (.error e)
  exn_of_error : ∀ e, hashWithSalt s p = .ok (.error e) →
    ∃ msg, hashWithSaltExn s p = .error (.invalidArgument msg)
  invalidArgument_of_exn : ∀ exn, hashWithSaltExn s p = .error exn →
    ∃ msg, exn = .invalidArgument msg

theorem WellFormedSalt.length (h : WellFormedSalt s) : s.length = 29 := by
  obtain ⟨v, t, st, rfl, hspells⟩ := wellFormedSalt_iff.mp h
  simp [header, length_of_spells hspells]

theorem hashWithSaltExn_of_error {e : Error} (he : hashWithSalt s p = .ok (.error e)) :
    hashWithSaltExn s p = .error (.invalidArgument (ppError e)) := by
  rw [hashWithSaltExn, he, getExn_error]

theorem not_errorContract_of_raise {exn : Exn} (h : hashWithSalt s p = .error exn) :
    ¬ ErrorContract s p := by
  intro hcontract
  obtain ⟨result, hresult⟩ := hcontract.returns
  rw [h] at hresult
  exact absurd hresult (by simp)

theorem errorContract_of_ok {h : Bytes} (hok : hashWithSalt s p = .ok (.ok h))
    (hwell : WellFormedSalt s) : ErrorContract s p := by
  obtain ⟨v, t, st, hs, -⟩ := wellFormedSalt_iff.mp hwell
  have hrevision : Variant.ofRawString (s.take 4) = some v :=
    (Variant.ofRawString_eq_some_iff _ v).mpr (by rw [hs]; rfl)
  refine ⟨⟨_, hok⟩, fun _ h29 => absurd hwell.length h29, fun _ hnone => ?_,
    fun hnot => absurd hwell hnot, fun e he => ?_, fun exn hraise => ?_⟩
  · exact absurd (hrevision.symm.trans hnone) (by simp)
  · exact absurd (hok.symm.trans he) (by simp)
  · rw [hashWithSaltExn, hok] at hraise
    exact invalidArgument_of_getExn hraise

theorem errorContract_of_invalidSaltLength
    (he : hashWithSalt s p = .ok (.error (.invalidSaltLength s.length)))
    (h29 : s.length ≠ 29) : ErrorContract s p := by
  refine ⟨⟨_, he⟩, fun _ _ => he, fun h => absurd h h29, fun _ _ => ⟨_, he⟩,
    fun e he' => ⟨_, hashWithSaltExn_of_error he'⟩, fun exn hraise => ?_⟩
  rw [hashWithSaltExn, he] at hraise
  exact invalidArgument_of_getExn hraise

/-- Behind a known revision whatever is not well formed is left to the stub, which
raises. -/
theorem hashWithSalt_header_raises (v : Variant) {t : Bytes} (ht : t.length = 25)
    (hp : Admissible p) (hnot : ¬ WellFormedSalt (header v.minor t)) :
    ∃ exn, hashWithSalt (header v.minor t) p = .error exn := by
  have hlength := hp.length_le
  have hparse : Setting.parse t = none := by
    rw [Setting.parse_eq_none_iff]
    rintro ⟨st, hspells⟩
    exact hnot (wellFormedSalt_iff.mpr ⟨v, t, st, rfl, hspells⟩)
  rw [hashWithSalt_header v ht, outcome, if_neg (by omega), if_neg hp.zero_notMem, hparse]
  by_cases hzero : 0 ∈ t
  · exact ⟨saltNul, if_pos hzero⟩
  · exact ⟨hashpassFailed, if_neg hzero⟩

theorem hashWithSalt_bare_raise (hp : Admissible p) (h22 : s.length = 22)
    (hnone : Variant.ofRawString (s.take 4) = none) : ∃ exn, hashWithSalt s p = .error exn := by
  have hlength := hp.length_le
  rw [hashWithSalt_bare h22 hnone, if_neg (by omega), if_neg hp.zero_notMem]
  by_cases hzero : 0 ∈ s
  · exact ⟨saltNul, if_pos hzero⟩
  · exact ⟨hashpassFailed, if_neg hzero⟩

theorem errorContract_header_iff (v : Variant) {t : Bytes} (ht : t.length = 25)
    (hp : Admissible p) :
    ErrorContract (header v.minor t) p ↔ WellFormedSalt (header v.minor t) := by
  constructor
  · intro hcontract
    by_contra hnot
    obtain ⟨exn, hraise⟩ := hashWithSalt_header_raises v ht hp hnot
    exact not_errorContract_of_raise hraise hcontract
  · intro hwell
    obtain ⟨h, hok⟩ := (exists_hash_iff hp).mpr hwell
    exact errorContract_of_ok hok hwell

/-- Among the salts refused for their length are those of 29 bytes with an unknown
revision, because the branch for unknown revisions is never reached. -/
theorem errorContract_refused_iff
    (hlength : s.length ≠ requiredLength (Variant.ofRawString (s.take 4)))
    (he : hashWithSalt s p = .ok (.error (.invalidSaltLength s.length))) :
    ErrorContract s p ↔ s.length ≠ 29 := by
  constructor
  · intro hcontract h29
    cases hrevision : Variant.ofRawString (s.take 4) with
    | some v =>
      rw [hrevision, requiredLength] at hlength
      exact hlength h29
    | none =>
      have herror := he.symm.trans (hcontract.revision_error h29 hrevision)
      exact absurd (Except.error.inj (Except.ok.inj herror)) (by simp)
  · exact errorContract_of_invalidSaltLength he

/-- The contract holds for the salts that are hashed and for those whose length the
check of `is_salt_valid` really refuses. A salt of three bytes or fewer does not
survive the first slice, an unknown revision is reported as a wrong length, and
whatever only the C code refuses escapes as `Failure`. -/
theorem errorContract_iff (hzero : 0 ∉ p) (hp : p.length ≤ 72) :
    ErrorContract s p ↔ (4 ≤ s.length ∧ s.length ≠ 22 ∧ s.length ≠ 29) ∨
      (s.length = 22 ∧ Variant.ofRawString (s.take 4) ≠ none) ∨ WellFormedSalt s := by
  have hadmissible : Admissible p := ⟨hzero, hp⟩
  rcases hashWithSalt_cases s p with ⟨hshort, hraise⟩ | ⟨v, t, ht, rfl⟩ | ⟨h22, hnone⟩ |
    ⟨hfour, hlength, he⟩
  · refine iff_of_false (not_errorContract_of_raise hraise) fun hcondition => ?_
    rcases hcondition with ⟨hfour, -⟩ | ⟨h22, -⟩ | hwell
    · omega
    · omega
    · have h29 := hwell.length
      omega
  · have h29 : (header v.minor t).length = 29 := by simp [header, ht]
    rw [errorContract_header_iff v ht hadmissible]
    constructor
    · exact fun hwell => .inr (.inr hwell)
    · intro hcondition
      rcases hcondition with ⟨-, -, hne⟩ | ⟨h22, -⟩ | hwell
      · exact absurd h29 hne
      · omega
      · exact hwell
  · obtain ⟨exn, hraise⟩ := hashWithSalt_bare_raise hadmissible h22 hnone
    refine iff_of_false (not_errorContract_of_raise hraise) fun hcondition => ?_
    rcases hcondition with ⟨-, hne, -⟩ | ⟨-, hsome⟩ | hwell
    · exact hne h22
    · exact hsome hnone
    · have h29 := hwell.length
      omega
  · rw [errorContract_refused_iff hlength he]
    constructor
    · intro h29
      by_cases h22 : s.length = 22
      · refine .inr (.inl ⟨h22, fun hnone => ?_⟩)
        rw [hnone, requiredLength] at hlength
        exact hlength h22
      · exact .inl ⟨hfour, h22, h29⟩
    · intro hcondition
      rcases hcondition with ⟨-, -, hne⟩ | ⟨h22, -⟩ | hwell
      · exact hne
      · omega
      · obtain ⟨h, hok⟩ := (exists_hash_iff hadmissible).mpr hwell
        exact absurd (hok.symm.trans he) (by simp)

theorem errorContract_iff_slash :
    ErrorContract (ascii "$2b$04$tooshort") (ascii "secret") ∧
      ErrorContract (ascii "$2y$04$...................../") (ascii "secret") := by
  have hwell : WellFormedSalt (ascii "$2y$04$...................../") :=
    ⟨ch 'y', ch '0', ch '4', ascii "...................../", by decide, rfl, rfl, by decide,
      by decide, rfl, exists_map_code_iff.mp ⟨List.replicate 21 0 ++ [1], rfl⟩, rfl⟩
  exact ⟨(errorContract_iff (by decide) (by decide)).mpr (.inl (by decide)),
    (errorContract_iff (by decide) (by decide)).mpr (.inr (.inr hwell))⟩

/-- A three-byte salt, an unknown revision and a cost of 32 each break the contract
in their own way. -/
theorem not_errorContract :
    ¬ ErrorContract (ascii "$2b") (ascii "secret") ∧
      ¬ ErrorContract (ascii "$2x$04$......................") (ascii "secret") ∧
      ¬ ErrorContract (ascii "$2b$32$......................") (ascii "secret") := by
  refine ⟨?_, fun hcontract => ?_, ?_⟩
  · have hraise : hashWithSalt (ascii "$2b") (ascii "secret") =
        .error (.invalidArgument (ascii "String.sub / Bytes.sub")) := rfl
    exact not_errorContract_of_raise hraise
  · have h := hcontract.revision_error rfl (by decide)
    have he : hashWithSalt (ascii "$2x$04$......................") (ascii "secret") =
        .ok (.error (.invalidSaltLength 29)) := rfl
    exact absurd (Except.error.inj (Except.ok.inj (he.symm.trans h))) (by simp)
  · have ht : (ascii "32$......................").length = 25 := rfl
    obtain ⟨exn, hraise⟩ := hashWithSalt_header_raises .B ht admissible_secret fun hwell => by
      obtain ⟨v, t, st, heq, hspells⟩ := wellFormedSalt_iff.mp hwell
      rw [← (header_injective heq).2] at hspells
      exact Setting.parse_eq_none_iff.mp (parse_cost_thirtyTwo _) ⟨st, hspells⟩
    exact not_errorContract_of_raise hraise

end Refused

end Passe.Bcrypt
