import Passe.BcryptOutcome

/-!
# What a caller of `hash_with_salt` can rely on

A hash that is handed out verifies, two passwords never feed the same key words
to the cipher, and the revision of the salt only shows in the revision letter of
the hash. The last section is about salts without a revision, which the OCaml
side lets through and the C side refuses.
-/
namespace Passe.Bcrypt
open Blowfish

/-- Cost 4 and sixteen zero bytes of salt: a setting to try the results of this module on. -/
def zeroSetting : Setting :=
  ⟨4, List.replicate 16 0, by decide, by decide, List.length_replicate⟩

theorem zeroSetting_tail : zeroSetting.tail = ascii "04$......................" := by
  rfl

theorem admissible_secret : Admissible (ascii "secret") := ⟨by decide, by decide⟩

theorem hashWithSalt_zeroSetting (v : Variant) (p : Bytes) (hp : Admissible p) :
    hashWithSalt (header v.minor zeroSetting.tail) p =
      .ok (.ok (header v.effective.minor (zeroSetting.hashTail p))) :=
  hashWithSalt_eq_ok_iff.mpr ⟨hp, v, _, zeroSetting, rfl, zeroSetting.tail_spells, rfl⟩

/-- A hash under any accepted salt has 60 bytes, carries one of the two revisions
the C code knows, and verifies with its password. -/
theorem hashWithSalt_verify {s p h : Bytes} (hok : hashWithSalt s p = .ok (.ok h)) :
    h.length = 60 ∧ (h.take 4 = ascii "$2a$" ∨ h.take 4 = ascii "$2b$") ∧
      verify h p = .ok (.ok true) := by
  have hverify := verify_of_hashWithSalt hok
  obtain ⟨-, v, t, st, rfl, -, rfl⟩ := hashWithSalt_eq_ok_iff.mp hok
  refine ⟨by simp [header], ?_, hverify⟩
  rcases v.minor_effective with hminor | hminor
  · exact .inl (by rw [hminor]; rfl)
  · exact .inr (by rw [hminor]; rfl)

theorem hashWithSalt_verify_zero : ∃ h,
    hashWithSalt (ascii "$2y$04$......................") (ascii "secret") = .ok (.ok h) ∧
      h.length = 60 ∧ (h.take 4 = ascii "$2a$" ∨ h.take 4 = ascii "$2b$") ∧
      verify h (ascii "secret") = .ok (.ok true) := by
  have hok := hashWithSalt_zeroSetting .Y (ascii "secret") admissible_secret
  rw [zeroSetting_tail] at hok
  exact ⟨_, hok, hashWithSalt_verify hok⟩

section KeyWords
variable {p q : Bytes}

theorem toNat_keybytes (hp : p.length ≤ 72) :
    (UInt16.ofNat (p.length + 1)).toNat = p.length + 1 := by
  rw [UInt16.toNat_ofNat', Nat.mod_eq_of_lt (by omega)]

theorem streamAt_eq_item (hp : p.length ≤ 72) (k : ℕ) :
    streamAt p (UInt16.ofNat (p.length + 1)) k = Cyclic.item 0 p k := by
  rw [streamAt, toNat_keybytes hp]
  rfl

theorem minor_of_keyLen {minor : UInt8} {n : ℕ} (h : keyLen minor p = some n) :
    minor = ch 'a' ∨ minor = ch 'b' := by
  by_contra hne
  rw [not_or] at hne
  unfold keyLen at h
  rw [if_neg hne.1, if_neg hne.2] at h
  exact absurd h (by simp)

/-- On admissible passwords the key words determine the password, whichever of
the two ways `key_len` was computed. -/
theorem eq_of_keyWords_eq (hp : Admissible p) (hq : Admissible q) {minor minor' : UInt8}
    {m n : ℕ} (hm : keyLen minor p = some m) (hn : keyLen minor' q = some n)
    (h : keyWords p (UInt16.ofNat m) = keyWords q (UInt16.ofNat n)) : p = q := by
  have hplen := hp.length_le
  have hqlen := hq.length_le
  rw [keyLen_eq (minor_of_keyLen hm) hp.zero_notMem hplen] at hm
  rw [keyLen_eq (minor_of_keyLen hn) hq.zero_notMem hqlen] at hn
  obtain rfl := Option.some.inj hm
  obtain rfl := Option.some.inj hn
  have hstream := streamAt_eq_of_keyWords_eq (by rw [toNat_keybytes hplen]; omega)
    (by rw [toNat_keybytes hqlen]; omega) h
  refine Cyclic.eq_of_item_eq hp.zero_notMem hq.zero_notMem hplen hqlen fun k hk => ?_
  rw [← streamAt_eq_item hplen, ← streamAt_eq_item hqlen]
  exact hstream k hk

end KeyWords

/-- Only admissible passwords are hashed, and among those no two have the same
key words under any pair of revisions. -/
theorem hashWithSalt_no_aliasing :
    (∀ s p h, hashWithSalt s p = .ok (.ok h) → 0 ∉ p ∧ p.length ≤ 72) ∧
    (∀ p q minor minor' m n, 0 ∉ p → p.length ≤ 72 → 0 ∉ q → q.length ≤ 72 →
      keyLen minor p = some m → keyLen minor' q = some n →
      keyWords p (UInt16.ofNat m) = keyWords q (UInt16.ofNat n) → p = q) := by
  refine ⟨fun s p h hok => ?_, ?_⟩
  · have hp := (hashWithSalt_eq_ok_iff.mp hok).1
    exact ⟨hp.zero_notMem, hp.length_le⟩
  · intro p q minor minor' m n hp hplen hq hqlen hm hn h
    exact eq_of_keyWords_eq ⟨hp, hplen⟩ ⟨hq, hqlen⟩ hm hn h

theorem hashWithSalt_no_aliasing_secret :
    (0 ∉ ascii "secret" ∧ (ascii "secret").length ≤ 72) ∧
      keyWords (ascii "secret") (UInt16.ofNat 7) ≠ keyWords (ascii "secres") (UInt16.ofNat 7) :=
  ⟨hashWithSalt_no_aliasing.1 _ _ _
      (hashWithSalt_zeroSetting .B (ascii "secret") admissible_secret),
    fun h => absurd (hashWithSalt_no_aliasing.2 _ _ (ch 'a') (ch 'b') 7 7 (by decide) (by decide)
      (by decide) (by decide) rfl rfl h) (by decide)⟩

/-- The outcome depends on the revision only through the letter it is given back
under. -/
theorem outcome_cases (t p : Bytes) :
    (∃ e, ∀ v, outcome v t p = .error e) ∨ (∃ e, ∀ v, outcome v t p = .ok (.error e)) ∨
      ∃ r, r.length = 56 ∧ ∀ v, outcome v t p = .ok (.ok (header v.effective.minor r)) := by
  by_cases hp : p.length > 72
  · exact .inr (.inl ⟨.truncated 72, fun v => by rw [outcome, if_pos hp]⟩)
  by_cases hzero : 0 ∈ p
  · exact .inl ⟨passwordNul, fun v => by rw [outcome, if_neg hp, if_pos hzero]⟩
  by_cases htzero : 0 ∈ t
  · exact .inl ⟨saltNul, fun v => by rw [outcome, if_neg hp, if_neg hzero, if_pos htzero]⟩
  cases hparse : Setting.parse t with
  | none =>
    exact .inl ⟨hashpassFailed, fun v => by
      rw [outcome, if_neg hp, if_neg hzero, if_neg htzero, hparse]⟩
  | some st =>
    exact .inr (.inr ⟨st.hashTail p, length_hashTail st p, fun v => by
      rw [outcome, if_neg hp, if_neg hzero, if_neg htzero, hparse]⟩)

/-- Stored strings that differ in the revision only fail alike or are compared with
one computed hash, which carries its own revision. -/
theorem verify_header_outcome {r : Bytes} (hr : r.length = 56) (p : Bytes) :
    (∃ e, ∀ v : Variant, verify (header v.minor r) p = .error e) ∨
    (∃ e, ∀ v : Variant, verify (header v.minor r) p = .ok (.error e)) ∨
    ∃ r', ∀ v : Variant, verify (header v.minor r) p =
      .ok (.ok (decide (v.effective = v ∧ r' = r))) := by
  rcases outcome_cases (r.take 25) p with ⟨e, he⟩ | ⟨e, he⟩ | ⟨r', -, hr'⟩
  · refine .inl ⟨e, fun v => ?_⟩
    rw [verify_header v hr, he v]
    rfl
  · refine .inr (.inl ⟨e, fun v => ?_⟩)
    rw [verify_header v hr, he v]
    rfl
  · refine .inr (.inr ⟨r', fun v => ?_⟩)
    have hsame : header v.effective.minor r' = header v.minor r ↔ v.effective = v ∧ r' = r := by
      rw [← Variant.minor_injective.eq_iff]
      exact ⟨header_injective, fun h => by rw [h.1, h.2]⟩
    rw [verify_header v hr, hr' v, compared]
    simp [hsame]

/-- Salts that differ in the revision only fail alike or give hashes that differ
in the revision letter only; revision `y` is revision `b`. -/
theorem hashWithSalt_revisions_agree (p : Bytes) :
    (∀ t : Bytes, t.length = 25 →
      ((∃ e, hashWithSalt (ascii "$2a$" ++ t) p = .error e ∧
          hashWithSalt (ascii "$2b$" ++ t) p = .error e) ∨
        (∃ e, hashWithSalt (ascii "$2a$" ++ t) p = .ok (.error e) ∧
          hashWithSalt (ascii "$2b$" ++ t) p = .ok (.error e)) ∨
        ∃ r, hashWithSalt (ascii "$2a$" ++ t) p = .ok (.ok (ascii "$2a$" ++ r)) ∧
          hashWithSalt (ascii "$2b$" ++ t) p = .ok (.ok (ascii "$2b$" ++ r))) ∧
      hashWithSalt (ascii "$2y$" ++ t) p = hashWithSalt (ascii "$2b$" ++ t) p) ∧
    (∀ r : Bytes, r.length = 56 →
      verify (ascii "$2a$" ++ r) p = verify (ascii "$2b$" ++ r) p) := by
  refine ⟨fun t ht => ?_, fun r hr => ?_⟩
  · have ha : hashWithSalt (ascii "$2a$" ++ t) p = outcome .A t p := hashWithSalt_header .A ht p
    have hb : hashWithSalt (ascii "$2b$" ++ t) p = outcome .B t p := hashWithSalt_header .B ht p
    have hy : hashWithSalt (ascii "$2y$" ++ t) p = outcome .Y t p := hashWithSalt_header .Y ht p
    rw [ha, hb, hy]
    refine ⟨?_, rfl⟩
    rcases outcome_cases t p with ⟨e, he⟩ | ⟨e, he⟩ | ⟨r, -, hr⟩
    · exact .inl ⟨e, he .A, he .B⟩
    · exact .inr (.inl ⟨e, he .A, he .B⟩)
    · exact .inr (.inr ⟨r, hr .A, hr .B⟩)
  · change verify (header Variant.A.minor r) p = verify (header Variant.B.minor r) p
    rcases verify_header_outcome hr p with ⟨e, he⟩ | ⟨e, he⟩ | ⟨r', hr'⟩
    · rw [he, he]
    · rw [he, he]
    · simp only [hr', Variant.effective, true_and]

theorem hashWithSalt_revisions_agree_zero : ∃ r,
    hashWithSalt (ascii "$2a$04$......................") (ascii "secret") =
        .ok (.ok (ascii "$2a$" ++ r)) ∧
      hashWithSalt (ascii "$2b$04$......................") (ascii "secret") =
        .ok (.ok (ascii "$2b$" ++ r)) ∧
      hashWithSalt (ascii "$2y$04$......................") (ascii "secret") =
        .ok (.ok (ascii "$2b$" ++ r)) ∧
      verify (ascii "$2a$" ++ r) (ascii "secret") = verify (ascii "$2b$" ++ r) (ascii "secret") := by
  have htail : ascii "$2b$04$......................" = header (ch 'b') zeroSetting.tail := by
    rw [zeroSetting_tail]
    rfl
  have hb := hashWithSalt_zeroSetting .B (ascii "secret") admissible_secret
  obtain ⟨hsalt, hstored⟩ := hashWithSalt_revisions_agree (ascii "secret")
  obtain ⟨hsame, hy⟩ := hsalt (ascii "04$......................") rfl
  change hashWithSalt (header (ch 'b') zeroSetting.tail) (ascii "secret") = _ at hb
  rw [← htail] at hb
  rcases hsame with ⟨e, -, he⟩ | ⟨e, -, he⟩ | ⟨r, hra, hrb⟩
  · exact absurd (hb.symm.trans he) (by simp)
  · exact absurd (hb.symm.trans he) (by simp)
  · have hr : header (ch 'b') (zeroSetting.hashTail (ascii "secret")) = header (ch 'b') r :=
      Except.ok.inj (Except.ok.inj (hb.symm.trans hrb))
    have hlength : r.length = 56 := by
      rw [← (header_injective hr).2, length_hashTail]
    exact ⟨r, hra, hrb, hy.trans hrb, hstored r hlength⟩

section Bare

/-- What a salt without a revision should give: a hash of revision `b` over the
same sixteen bytes that verifies. -/
def BareSaltHashed (s p : Bytes) : Prop :=
  ∃ h, hashWithSalt s p = .ok (.ok h) ∧ h.take 4 = ascii "$2b$" ∧
    decodeBase64 bcryptMaxSalt ((h.drop 7).take 22) = decodeBase64 bcryptMaxSalt s ∧
    verify h p = .ok (.ok true)

/-- The header the C code asks for is never supplied, so every bare salt that
passes the check ends in an exception. -/
theorem hashWithSalt_bare_raises {s p : Bytes} (hlength : s.length = 22)
    (halphabet : ∀ c ∈ s, c ∈ base64Code) (hzero : 0 ∉ p) (hp : p.length ≤ 72) :
    isSaltValid s = .ok true ∧ hashWithSalt s p = .error hashpassFailed ∧
      ¬ BareSaltHashed s p := by
  have hdollar : ch '$' ∉ s := fun h => absurd (halphabet _ h) (by decide)
  have hszero : 0 ∉ s := fun h => absurd (halphabet _ h) (by decide)
  have hnone : Variant.ofRawString (s.take 4) = none := by
    rw [Option.eq_none_iff_forall_ne_some]
    intro v hv
    have hs := eq_header_of_take ((Variant.ofRawString_eq_some_iff _ v).mp hv)
    exact hdollar (hs ▸ List.mem_cons_self)
  have hvalid : isSaltValid s = .ok true := by
    rw [isSaltValid_eq (by omega), hnone, requiredLength, hlength]
    rfl
  have hraise : hashWithSalt s p = .error hashpassFailed := by
    rw [hashWithSalt_bare hlength hnone, if_neg (by omega), if_neg hzero, if_neg hszero]
  refine ⟨hvalid, hraise, ?_⟩
  rintro ⟨h, hok, -⟩
  rw [hraise] at hok
  exact absurd hok (by simp)

private theorem mem_base64Code_of_mem_dots :
    ∀ c ∈ ascii "......................", c ∈ base64Code := by
  have hdots : ascii "......................" = List.replicate 22 (ch '.') := rfl
  rw [hdots]
  intro c hc
  obtain rfl := List.eq_of_mem_replicate hc
  decide

theorem hashWithSalt_bare_raises_dots :
    isSaltValid (ascii "......................") = .ok true ∧
      hashWithSalt (ascii "......................") (ascii "secret") = .error hashpassFailed ∧
      ¬ BareSaltHashed (ascii "......................") (ascii "secret") :=
  hashWithSalt_bare_raises rfl mem_base64Code_of_mem_dots (by decide) (by decide)

/-- Not every bare salt is hashed. -/
theorem not_forall_bareSaltHashed :
    ¬ ∀ s p : Bytes, s.length = 22 → (∀ c ∈ s, c ∈ base64Code) → 0 ∉ p → p.length ≤ 72 →
      BareSaltHashed s p := by
  intro hall
  obtain ⟨h, hok, -⟩ := hall (ascii "......................") (ascii "secret") rfl
    mem_base64Code_of_mem_dots (by decide) (by decide)
  rw [hashWithSalt_bare rfl (by decide), if_neg (by decide), if_neg (by decide),
    if_neg (by decide)] at hok
  exact absurd hok (by simp)

end Bare

end Passe.Bcrypt
