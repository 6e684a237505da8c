import Passe.BcryptHashing

/-!
# What a stored string can do to `verify`

Stored strings come from other libraries, from old versions and from damaged
databases. The accepted ones are exactly the canonical hashes of revision `a`
and `b`. From that follow the three facts below: a hash that another library
stored under revision `y` is never accepted, a string whose salt part is
malformed escapes as an exception, and no accepted string has a second spelling.
-/
namespace Passe.Bcrypt
open Radix64 Decimal

/-- A known revision and a password of acceptable length: either the salt part is
refused by the C code or the answer is the comparison with the canonical hash. -/
theorem verify_header_cases (v : Variant) {r p : Bytes} (hr : r.length = 56) (hp : Admissible p)
    (hzero : 0 ∉ r) :
    (Setting.parse (r.take 25) = none ∧ verify (header v.minor r) p = .error hashpassFailed) ∨
    ∃ st, Setting.parse (r.take 25) = some st ∧ verify (header v.minor r) p =
      .ok (.ok (decide (header v.effective.minor (st.hashTail p) = header v.minor r))) := by
  have hlength := hp.length_le
  have htake : 0 ∉ r.take 25 := fun h => hzero (List.mem_of_mem_take h)
  rw [verify_header v hr, outcome, if_neg (by omega), if_neg hp.zero_notMem, if_neg htake]
  cases Setting.parse (r.take 25) with
  | none => exact .inl ⟨rfl, rfl⟩
  | some st => exact .inr ⟨st, rfl, rfl⟩

section RevisionY
variable {r p : Bytes}

/-- `verify` treats the two revisions alike, and a hash of revision `b` verifies
under the letter `y`. -/
def VerifiesUnderY (r p : Bytes) : Prop :=
  verify (ascii "$2y$" ++ r) p = verify (ascii "$2b$" ++ r) p ∧
    ∀ s, hashWithSalt s p = .ok (.ok (ascii "$2b$" ++ r)) →
      verify (ascii "$2y$" ++ r) p = .ok (.ok true)

theorem verify_y_ne_true (r p : Bytes) : verify (ascii "$2y$" ++ r) p ≠ .ok (.ok true) := by
  intro hok
  obtain ⟨-, v, st, hv, heq⟩ := verify_eq_ok_true_iff.mp hok
  have hminor : Variant.Y.minor = v.minor := (header_injective heq).1
  rw [← Variant.minor_injective hminor] at hv
  exact absurd hv (by decide)

theorem verify_b_eq_true_iff :
    verify (ascii "$2b$" ++ r) p = .ok (.ok true) ↔
      (0 ∉ p ∧ p.length ≤ 72) ∧ ∃ st : Setting, r = st.hashTail p := by
  constructor
  · intro hok
    obtain ⟨hp, v, st, -, heq⟩ := verify_eq_ok_true_iff.mp hok
    exact ⟨⟨hp.zero_notMem, hp.length_le⟩, st, (header_injective heq).2⟩
  · rintro ⟨⟨hzero, hlength⟩, st, rfl⟩
    exact verify_eq_ok_true_iff.mpr ⟨⟨hzero, hlength⟩, .B, st, rfl, rfl⟩

/-- The answers agree unless the suffix is what the code itself computes for the
password: the tag is rewritten to `b` and never put back. -/
theorem verifiesUnderY_iff_ne_hashTail (hr : r.length = 56) :
    VerifiesUnderY r p ↔ ¬ ((0 ∉ p ∧ p.length ≤ 72) ∧ ∃ st : Setting, r = st.hashTail p) := by
  rw [← verify_b_eq_true_iff]
  constructor
  · rintro ⟨hsame, -⟩ hb
    exact verify_y_ne_true r p (hsame.trans hb)
  · intro hb
    refine ⟨?_, fun s hok => absurd (verify_of_hashWithSalt hok) hb⟩
    change verify (header Variant.Y.minor r) p = verify (header Variant.B.minor r) p
    change verify (header Variant.B.minor r) p ≠ _ at hb
    rcases verify_header_outcome hr p with ⟨e, he⟩ | ⟨e, he⟩ | ⟨r', hr'⟩
    · rw [he, he]
    · rw [he, he]
    · -- The computed hash carries the letter `b`, so neither comparison succeeds.
      rw [hr', ne_eq, Except.ok.injEq, Except.ok.injEq, decide_eq_true_iff] at hb
      rw [hr', hr', decide_eq_false hb, decide_eq_false fun h => absurd h.1 (by decide)]

/-- The two revisions verify alike for the passwords that are refused under both of them, and
for no others: every admissible password has hashes of its own, and each of these is accepted
under the letter `b` and rejected under the letter `y`. -/
theorem verifiesUnderY_iff (p : Bytes) :
    (∀ r : Bytes, r.length = 56 → VerifiesUnderY r p) ↔ 0 ∈ p ∨ 72 < p.length := by
  constructor
  · intro hall
    by_contra hnot
    have hp : 0 ∉ p ∧ p.length ≤ 72 := ⟨fun h => hnot (.inl h), by
      by_contra h
      exact hnot (.inr (by omega))⟩
    have hown := hall (zeroSetting.hashTail p) (length_hashTail _ _)
    rw [verifiesUnderY_iff_ne_hashTail (length_hashTail _ _)] at hown
    exact hown ⟨hp, zeroSetting, rfl⟩
  · intro hp r hr
    rw [verifiesUnderY_iff_ne_hashTail hr]
    rintro ⟨⟨hzero, hlength⟩, -⟩
    rcases hp with hp | hp
    · exact hzero hp
    · omega

/-- A hash the library hands out for a password under revision `b` is rejected
under the letter `y`. -/
theorem not_verifiesUnderY_zero :
    hashWithSalt (ascii "$2b$04$......................") (ascii "secret") =
        .ok (.ok (ascii "$2b$" ++ zeroSetting.hashTail (ascii "secret"))) ∧
      verify (ascii "$2b$" ++ zeroSetting.hashTail (ascii "secret")) (ascii "secret") =
        .ok (.ok true) ∧
      ¬ VerifiesUnderY (zeroSetting.hashTail (ascii "secret")) (ascii "secret") := by
  have hok := hashWithSalt_zeroSetting .B (ascii "secret") admissible_secret
  rw [zeroSetting_tail] at hok
  have hb : verify (ascii "$2b$" ++ zeroSetting.hashTail (ascii "secret")) (ascii "secret") =
      .ok (.ok true) :=
    verify_b_eq_true_iff.mpr ⟨by decide, zeroSetting, rfl⟩
  exact ⟨hok, hb, fun h => verify_y_ne_true _ _ (h.1.trans hb)⟩

end RevisionY

section Damaged
variable {h p : Bytes}

/-- The textual form of a bcrypt hash: revision, two-digit cost, and 53 characters
of salt and digest. -/
def WellFormed (h : Bytes) : Prop :=
  ∃ (v : Variant) (cost : ℕ) (body : Bytes), 4 ≤ cost ∧ cost ≤ 31 ∧ body.length = 53 ∧
    (∀ c ∈ body, c ∈ base64Code) ∧ h = header v.minor (padTwo cost ++ ch '$' :: body)

/-- `verify` returns, reports what is not a hash as an error, and `verify_exn`
raises nothing but `Invalid_argument`. -/
structure VerifyWellBehaved (h p : Bytes) : Prop where
  returns : ∃ result, verify h p = .ok result
  error_of_malformed : ¬ WellFormed h → ∃ e, verify h p = .ok (.error e)
  invalidArgument_of_exn : ∀ exn, verifyExn h p = .error exn → ∃ msg, exn = .invalidArgument msg

theorem verifyWellBehaved_of_error {e : Error} (he : verify h p = .ok (.error e)) :
    VerifyWellBehaved h p := by
  refine ⟨⟨_, he⟩, fun _ => ⟨e, he⟩, fun exn hexn => ?_⟩
  rw [verifyExn, he] at hexn
  exact invalidArgument_of_getExn hexn

theorem verifyWellBehaved_of_ok {b : Bool} (hb : verify h p = .ok (.ok b))
    (hwell : WellFormed h) : VerifyWellBehaved h p := by
  refine ⟨⟨_, hb⟩, fun hnot => absurd hwell hnot, fun exn hexn => ?_⟩
  rw [verifyExn, hb] at hexn
  exact invalidArgument_of_getExn hexn

/-- The salt part of a well-formed hash denotes a setting, so hashing under it does not fail. -/
theorem exists_spells_of_wellFormed {v : Variant} {r : Bytes}
    (hwell : WellFormed (header v.minor r)) : ∃ st : Setting, st.Spells (r.take 25) := by
  obtain ⟨w, cost, body, hlow, hhigh, hlength, halphabet, heq⟩ := hwell
  obtain rfl := (header_injective heq).2
  rw [Setting.exists_spells_iff]
  refine ⟨cost, body.take 22, hlow, hhigh, by rw [List.length_take, hlength]; rfl,
    fun c hc => halphabet c (List.mem_of_mem_take hc), ?_⟩
  rw [padTwo_eq (by omega)]
  rfl

/-- Damaged strings behave well as long as the C code never sees them: they have
the wrong length or no known revision, or the password is refused first. -/
theorem verifyWellBehaved_iff (hh : 0 ∉ h) (hp : 0 ∉ p) :
    VerifyWellBehaved h p ↔ h.length ≠ 60 ∨ Variant.ofRawString (h.take 4) = none ∨
      72 < p.length ∨ WellFormed h := by
  rcases verify_cases h p with ⟨hlength, herr⟩ | ⟨-, hnone, herr⟩ | ⟨v, r, hr, rfl⟩
  · exact ⟨fun _ => .inl hlength, fun _ => verifyWellBehaved_of_error herr⟩
  · exact ⟨fun _ => .inr (.inl hnone), fun _ => verifyWellBehaved_of_error herr⟩
  have hsome : Variant.ofRawString ((header v.minor r).take 4) = some v :=
    (Variant.ofRawString_eq_some_iff _ v).mpr rfl
  have hlength : (header v.minor r).length = 60 := by simp [header, hr]
  rw [hsome]
  by_cases hlong : 72 < p.length
  · have herr : verify (header v.minor r) p = .ok (.error (.truncated 72)) := by
      rw [verify_header v hr, outcome, if_pos hlong]
      rfl
    exact ⟨fun _ => .inr (.inr (.inl hlong)), fun _ => verifyWellBehaved_of_error herr⟩
  have hzero : 0 ∉ r := fun hr0 => hh ((zero_mem_header_iff v r).mpr hr0)
  simp only [hlength, ne_eq, not_true_eq_false, reduceCtorEq, hlong, false_or]
  rcases verify_header_cases v hr ⟨hp, by omega⟩ hzero with ⟨hparse, hraise⟩ | ⟨st, -, hok⟩
  · constructor
    · intro hbehaved
      obtain ⟨result, hresult⟩ := hbehaved.returns
      rw [hraise] at hresult
      exact absurd hresult (by simp)
    · intro hwell
      exact absurd (exists_spells_of_wellFormed hwell) (Setting.parse_eq_none_iff.mp hparse)
  · constructor
    · intro hbehaved
      by_contra hmalformed
      obtain ⟨e, he⟩ := hbehaved.error_of_malformed hmalformed
      rw [hok] at he
      exact absurd (Except.ok.inj he) (by simp)
    · exact verifyWellBehaved_of_ok hok

theorem verifyWellBehaved_iff_dots :
    VerifyWellBehaved (ascii "$2a$04$tooshort") (ascii "secret") ∧
      VerifyWellBehaved (ascii "$2a$04$" ++ List.replicate 53 (ch '.')) (ascii "secret") := by
  have hcharacters : ∀ c ∈ List.replicate 53 (ch '.'), c ∈ base64Code := by
    intro c hc
    obtain rfl := List.eq_of_mem_replicate hc
    decide
  exact ⟨(verifyWellBehaved_iff (by decide) (by decide)).mpr (.inl (by decide)),
    (verifyWellBehaved_iff (by decide) (by decide)).mpr (.inr (.inr (.inr
      ⟨.A, 4, List.replicate 53 (ch '.'), by decide, by decide, rfl, hcharacters, rfl⟩)))⟩

/-- A cost of 32 is refused, although two digits can say it and nothing in the OCaml code looks
at them. -/
theorem parse_cost_thirtyTwo (body : Bytes) :
    Setting.parse (ch '3' :: ch '2' :: ch '$' :: body) = none := by
  rw [Setting.parse_eq_none_iff, Setting.exists_spells_iff]
  rintro ⟨cost, cs, hlow, hhigh, -, -, heq⟩
  have hsplit : [ch '3', ch '2'] ++ ch '$' :: body = padTwo cost ++ ch '$' :: cs := heq
  have hfield := (List.append_inj hsplit (length_padTwo (by omega)).symm).1
  have hvalue : value [ch '3', ch '2'] = 32 := rfl
  rw [hfield, value_padTwo (by omega)] at hvalue
  omega

/-- A cost of 32 in an otherwise intact string raises `Failure`, where the interface promises an
error. -/
theorem not_verifyWellBehaved_cost :
    ¬ VerifyWellBehaved
      (ascii "$2b$32$.....................................................") (ascii "secret") := by
  have hr : (ascii "32$.....................................................").length = 56 := rfl
  have hzero : 0 ∉ ascii "32$....................................................." := by
    decide
  intro hbehaved
  obtain ⟨result, hresult⟩ := hbehaved.returns
  rcases verify_header_cases .B hr admissible_secret hzero with
    ⟨-, hraise⟩ | ⟨st, hst, -⟩
  · exact absurd (hraise.symm.trans hresult) (by simp)
  · exact absurd (hst.symm.trans (parse_cost_thirtyTwo _)) (by simp)

end Damaged

section Canonical
variable {p : Bytes}

def revisionLetter (h : Bytes) : UInt8 := deref h 2

def costField (h : Bytes) : ℕ := value ((h.drop 4).take 2)

/-- The sixteen bytes the salt field of a stored string decodes to, read the way the core reads
them. -/
def saltBytes (h : Bytes) : Option Bytes := decodeBase64 bcryptMaxSalt ((h.drop 7).take 22)

@[simp] theorem costField_hashTail (v : Variant) (st : Setting) (p : Bytes) :
    costField (header v.minor (st.hashTail p)) = st.cost := by
  have hcost := st.cost_le
  have hfield : ((header v.minor (st.hashTail p)).drop 4).take 2 = padTwo st.cost := by
    rw [Setting.hashTail, Setting.tail, List.append_assoc]
    exact List.take_left' (length_padTwo (by omega))
  rw [costField, hfield, value_padTwo (by omega)]

@[simp] theorem saltBytes_hashTail (v : Variant) (st : Setting) (p : Bytes) :
    saltBytes (header v.minor (st.hashTail p)) = some st.salt := by
  have hlength : (alphabet.encode st.salt).length = 22 := by
    rw [Alphabet.length_encode, st.length_salt]
    rfl
  have hfield : ((header v.minor (st.hashTail p)).drop 7).take 22 = alphabet.encode st.salt := by
    rw [Setting.hashTail, Setting.tail, Setting.padTwo_cost, List.append_assoc]
    exact List.take_left' hlength
  rw [saltBytes, hfield, decodeBase64_eq_some_iff hlength]
  exact alphabet.encode_spells st.salt

/-- Revision, cost and salt bytes determine an accepted string: the rest of it is recomputed and
compared. -/
theorem eq_of_verify_eq_true {h h' : Bytes} (hok : verify h p = .ok (.ok true))
    (hok' : verify h' p = .ok (.ok true)) (hrevision : revisionLetter h = revisionLetter h')
    (hcost : costField h = costField h') (hsalt : saltBytes h = saltBytes h') : h = h' := by
  obtain ⟨-, v, st, -, rfl⟩ := verify_eq_ok_true_iff.mp hok
  obtain ⟨-, v', st', -, rfl⟩ := verify_eq_ok_true_iff.mp hok'
  obtain rfl : v = v' := Variant.minor_injective hrevision
  rw [costField_hashTail, costField_hashTail] at hcost
  rw [saltBytes_hashTail, saltBytes_hashTail] at hsalt
  rw [Setting.ext hcost (Option.some.inj hsalt)]

/-- A string other than the canonical hash is rejected when its salt part denotes
the same setting. -/
theorem verify_eq_false_of_spells {v : Variant} {st : Setting} {t d : Bytes}
    (hp : Admissible p) (hv : v.effective = v) (hspells : st.Spells t) (hd : d.length = 31)
    (hne : st.hashTail p ≠ t ++ d) : verify (header v.minor (t ++ d)) p = .ok (.ok false) := by
  have ht := length_of_spells hspells
  have htake : (t ++ d).take 25 = t := List.take_left' ht
  have hout : outcome v t p = .ok (.ok (header v.effective.minor (st.hashTail p))) :=
    outcome_eq_ok_iff.mpr ⟨hp, st, hspells, rfl⟩
  rw [verify_header v (by rw [List.length_append, ht, hd]), htake, hout, compared, hv]
  simp [hne]

theorem exists_eq_append_singleton {α : Type} {l : List α} {n : ℕ} (h : l.length = n + 1) :
    ∃ xs x, l = xs ++ [x] ∧ xs.length = n := by
  have hne : l ≠ [] := List.ne_nil_of_length_eq_add_one h
  exact ⟨l.dropLast, l.getLast hne, (List.dropLast_concat_getLast hne).symm,
    by rw [List.length_dropLast, h]; rfl⟩

/-- Reading and replacing the character behind a known part of a header. -/
theorem deref_set_header (m : UInt8) (t u : Bytes) (c c' : UInt8) {i : ℕ}
    (hi : i = t.length + 4) :
    deref (header m (t ++ c :: u)) i = c ∧
      (header m (t ++ c :: u)).set i c' = header m (t ++ c' :: u) := by
  subst hi
  constructor
  · simp [deref, header]
  · simp [header]

/-- The four low bits of the last salt character do not matter for the setting. -/
theorem exists_tail_eq (st : Setting) : ∃ pre s, pre.length = 24 ∧
    st.tail = pre ++ [alphabet.code s] ∧
    ∀ d : Fin 64, s.val / 16 = d.val / 16 → st.Spells (pre ++ [alphabet.code d]) := by
  obtain ⟨xs, s, hsplit, hxs⟩ : ∃ xs s, sextets st.salt = xs ++ [s] ∧ xs.length = 21 :=
    exists_eq_append_singleton (by rw [length_sextets, st.length_salt]; rfl)
  refine ⟨padTwo st.cost ++ ch '$' :: xs.map alphabet.code, s, ?_, ?_, fun d hspare => ?_⟩
  · simp [Setting.padTwo_cost, hxs]
  · rw [Setting.tail, Alphabet.encode, hsplit, List.map_append, List.append_assoc]
    rfl
  · refine ⟨(xs ++ [d]).map alphabet.code, by simp, by simp [hxs], xs ++ [d], rfl, ?_⟩
    rw [← octets_append_spare_four xs s d (by rw [hxs]) hspare, ← hsplit, octets_sextets]

theorem verify_set_saltChar {h : Bytes} {d d' : Fin 64} (hok : verify h p = .ok (.ok true))
    (hd : deref h 28 = alphabet.code d) (hspare : d.val / 16 = d'.val / 16) (hne : d ≠ d') :
    verify (h.set 28 (alphabet.code d')) p = .ok (.ok false) := by
  obtain ⟨hp, v, st, hv, rfl⟩ := verify_eq_ok_true_iff.mp hok
  obtain ⟨pre, s, hpre, htail, hspells⟩ := exists_tail_eq st
  have hhash : st.hashTail p = pre ++ alphabet.code s :: st.digest p := by
    rw [Setting.hashTail, htail, List.append_assoc]
    rfl
  obtain ⟨hread, hset⟩ := deref_set_header v.minor pre (st.digest p) (alphabet.code s)
    (alphabet.code d') (by rw [hpre] : 28 = _)
  rw [hhash] at hd ⊢
  obtain rfl : s = d := alphabet.code_injective (hread.symm.trans hd)
  rw [hset, List.append_cons]
  -- The new character denotes the same setting, so the code computes the old hash.
  refine verify_eq_false_of_spells hp hv (hspells d' hspare) (length_digest st p) ?_
  rw [hhash, List.append_assoc]
  intro heq
  exact hne (alphabet.code_injective (List.cons.inj (List.append_cancel_left heq)).1)

theorem verify_set_digestChar {h : Bytes} {d d' : Fin 64} (hok : verify h p = .ok (.ok true))
    (hd : deref h 59 = alphabet.code d) (hne : d ≠ d') :
    verify (h.set 59 (alphabet.code d')) p = .ok (.ok false) := by
  obtain ⟨hp, v, st, hv, rfl⟩ := verify_eq_ok_true_iff.mp hok
  obtain ⟨ys, c, hsplit, hys⟩ : ∃ ys c, st.digest p = ys ++ [c] ∧ ys.length = 30 :=
    exists_eq_append_singleton (length_digest st p)
  have hhash : st.hashTail p = (st.tail ++ ys) ++ [c] := by
    rw [Setting.hashTail, hsplit, List.append_assoc]
  obtain ⟨hread, hset⟩ := deref_set_header v.minor (st.tail ++ ys) [] c (alphabet.code d')
    (by rw [List.length_append, length_tail, hys] : 59 = _)
  rw [hhash] at hd ⊢
  obtain rfl : c = alphabet.code d := hread.symm.trans hd
  rw [hset, List.append_assoc]
  refine verify_eq_false_of_spells hp hv st.tail_spells (by simp [hys]) ?_
  rw [hhash, List.append_assoc]
  intro heq
  have hlast := List.append_cancel_left (List.append_cancel_left heq)
  exact hne (alphabet.code_injective (List.cons.inj hlast).1)

/-- No second spelling of an accepted string is accepted. The four spare bits of the
last salt character are no exception, and no bit of the last digest character is,
its two spare ones included. -/
theorem verify_non_malleable (p : Bytes) :
    (∀ h h' : Bytes, verify h p = .ok (.ok true) → verify h' p = .ok (.ok true) →
      revisionLetter h = revisionLetter h' → costField h = costField h' →
      saltBytes h = saltBytes h' → h = h') ∧
    (∀ (h : Bytes) (d d' : Fin 64), verify h p = .ok (.ok true) →
      deref h 28 = alphabet.code d → d.val / 16 = d'.val / 16 → d ≠ d' →
      verify (h.set 28 (alphabet.code d')) p = .ok (.ok false)) ∧
    (∀ (h : Bytes) (d d' : Fin 64), verify h p = .ok (.ok true) →
      deref h 59 = alphabet.code d → d ≠ d' →
      verify (h.set 59 (alphabet.code d')) p = .ok (.ok false)) :=
  ⟨fun _ _ => eq_of_verify_eq_true, fun _ _ _ => verify_set_saltChar,
    fun _ _ _ => verify_set_digestChar⟩

theorem verify_non_malleable_zero :
    verify ((ascii "$2b$" ++ zeroSetting.hashTail (ascii "secret")).set 28 (alphabet.code 1))
      (ascii "secret") = .ok (.ok false) := by
  have hok : verify (ascii "$2b$" ++ zeroSetting.hashTail (ascii "secret")) (ascii "secret") =
      .ok (.ok true) :=
    verify_b_eq_true_iff.mpr ⟨by decide, zeroSetting, rfl⟩
  refine (verify_non_malleable (ascii "secret")).2.1 _ 0 1 hok ?_ rfl (by decide)
  rw [Setting.hashTail, zeroSetting_tail]
  rfl

end Canonical

end Passe.Bcrypt
