import Mathlib.Data.List.Basic
import Mathlib.Data.FinEnum
import Mathlib.Tactic.Common

/-!
# Regrouping bytes into six-bit digits

Every radix-64 text format writes a byte string as one bit stream, most
significant bit first, and cuts it into digits of six bits; the last digit is
padded with zero bits. `sextets` is that regrouping and `octets` its inverse on
complete digits: bits left over after the last whole byte are ignored, so
several digit strings stand for the same bytes. An `Alphabet` turns digits into
text and carries the proofs that its two tables invert each other.
-/
namespace Passe.Radix64

/-- Three bytes make four digits; one or two trailing bytes make two or three. -/
def sextets : List UInt8 → List (Fin 64)
  | [] => []
  | [a] => [Fin.ofNat 64 (a.toNat / 4), Fin.ofNat 64 (a.toNat % 4 * 16)]
  | [a, b] =>
    [Fin.ofNat 64 (a.toNat / 4), Fin.ofNat 64 (a.toNat % 4 * 16 + b.toNat / 16),
      Fin.ofNat 64 (b.toNat % 16 * 4)]
  | a :: b :: c :: rest =>
    Fin.ofNat 64 (a.toNat / 4) :: Fin.ofNat 64 (a.toNat % 4 * 16 + b.toNat / 16) ::
      Fin.ofNat 64 (b.toNat % 16 * 4 + c.toNat / 64) :: Fin.ofNat 64 (c.toNat % 64) ::
        sextets rest

/-- Whole bytes of a digit string. The spare bits of the last digit are dropped. -/
def octets : List (Fin 64) → List UInt8
  | [] => []
  | [_] => []
  | [s, t] => [UInt8.ofNat (s.val * 4 + t.val / 16)]
  | [s, t, u] =>
    [UInt8.ofNat (s.val * 4 + t.val / 16), UInt8.ofNat (t.val % 16 * 16 + u.val / 4)]
  | s :: t :: u :: v :: rest =>
    UInt8.ofNat (s.val * 4 + t.val / 16) :: UInt8.ofNat (t.val % 16 * 16 + u.val / 4) ::
      UInt8.ofNat (u.val % 4 * 64 + v.val) :: octets rest

/-- Digits needed for `n` bytes: four thirds of `n`, rounded up. -/
def sextetCount (n : ℕ) : ℕ := (4 * n + 2) / 3

@[simp] theorem length_sextets (bs : List UInt8) : (sextets bs).length = sextetCount bs.length := by
  induction bs using sextets.induct with
  | case1 => rfl
  | case2 a => simp [sextets, sextetCount]
  | case3 a b => simp [sextets, sextetCount]
  | case4 a b c rest ih =>
    simp only [sextets, List.length_cons, ih, sextetCount]
    omega

@[simp] theorem length_octets (ss : List (Fin 64)) : (octets ss).length = ss.length * 3 / 4 := by
  induction ss using octets.induct with
  | case1 => rfl
  | case2 s => simp [octets]
  | case3 s t => simp [octets]
  | case4 s t u => simp [octets]
  | case5 s t u v rest ih =>
    simp only [octets, List.length_cons, ih]
    omega

theorem length_octets_of_sextetCount {ss : List (Fin 64)} {n : ℕ}
    (h : ss.length = sextetCount n) : (octets ss).length = n := by
  rw [length_octets, h, sextetCount]
  omega

private theorem ofNat_eq_of_toNat_eq {a : UInt8} {n : ℕ} (h : n = a.toNat) :
    UInt8.ofNat n = a := by
  rw [h, UInt8.ofNat_toNat]

/-- Regrouping loses nothing: the bytes come back from their digits, also when the last group is
short. -/
@[simp] theorem octets_sextets (bs : List UInt8) : octets (sextets bs) = bs := by
  induction bs using sextets.induct with
  | case1 => rfl
  | case2 a =>
    have ha := a.toNat_lt
    simp only [sextets, octets, Fin.val_ofNat, List.cons.injEq, and_true]
    exact ofNat_eq_of_toNat_eq (by omega)
  | case3 a b =>
    have ha := a.toNat_lt
    have hb := b.toNat_lt
    simp only [sextets, octets, Fin.val_ofNat, List.cons.injEq, and_true]
    exact ⟨ofNat_eq_of_toNat_eq (by omega), ofNat_eq_of_toNat_eq (by omega)⟩
  | case4 a b c rest ih =>
    have ha := a.toNat_lt
    have hb := b.toNat_lt
    have hc := c.toNat_lt
    simp only [sextets, octets, Fin.val_ofNat, List.cons.injEq, ih, and_true]
    exact ⟨ofNat_eq_of_toNat_eq (by omega), ofNat_eq_of_toNat_eq (by omega),
      ofNat_eq_of_toNat_eq (by omega)⟩

/-- A complete group of digits is recovered from its three bytes. -/
@[simp] theorem sextets_octets_group (s t u v : Fin 64) (ss : List (Fin 64)) :
    sextets (octets (s :: t :: u :: v :: ss)) = s :: t :: u :: v :: sextets (octets ss) := by
  have hs := s.isLt
  have ht := t.isLt
  have hu := u.isLt
  have hv := v.isLt
  simp only [octets, sextets, List.cons.injEq, and_true, Fin.ext_iff, Fin.val_ofNat,
    UInt8.toNat_ofNat']
  refine ⟨?_, ?_, ?_, ?_⟩ <;> omega

theorem sextets_octets_pair (s t : Fin 64) :
    sextets (octets [s, t]) = [s, t] ↔ t.val % 16 = 0 := by
  have hs := s.isLt
  have ht := t.isLt
  simp only [octets, sextets, List.cons.injEq, and_true, Fin.ext_iff, Fin.val_ofNat,
    UInt8.toNat_ofNat']
  omega

theorem sextets_octets_triple (s t u : Fin 64) :
    sextets (octets [s, t, u]) = [s, t, u] ↔ u.val % 4 = 0 := by
  have hs := s.isLt
  have ht := t.isLt
  have hu := u.isLt
  simp only [octets, sextets, List.cons.injEq, and_true, Fin.ext_iff, Fin.val_ofNat,
    UInt8.toNat_ofNat']
  omega

/-- Regrouping the bytes of a digit string clears its spare bits. The last digit of
a string of length 2 modulo 4 has four of them. -/
theorem sextets_octets_append_four (xs : List (Fin 64)) (s : Fin 64)
    (hlen : xs.length % 4 = 1) :
    sextets (octets (xs ++ [s])) = xs ++ [Fin.ofNat 64 (s.val / 16 * 16)] := by
  induction xs using octets.induct with
  | case1 => simp at hlen
  | case2 a =>
    have hspare : octets [a, s] = octets [a, Fin.ofNat 64 (s.val / 16 * 16)] := by
      simp only [octets, Fin.val_ofNat]
      congr 3
      omega
    change sextets (octets [a, s]) = [a, _]
    rw [hspare, sextets_octets_pair, Fin.val_ofNat]
    omega
  | case3 a b => simp at hlen
  | case4 a b c => simp at hlen
  | case5 a b c d rest ih =>
    have hrest : rest.length % 4 = 1 := by simp only [List.length_cons] at hlen; omega
    simp [ih hrest]

/-- Two digit strings that differ only in spare bits stand for the same bytes. -/
theorem octets_append_spare_four (xs : List (Fin 64)) (s t : Fin 64)
    (hlen : xs.length % 4 = 1) (hst : s.val / 16 = t.val / 16) :
    octets (xs ++ [s]) = octets (xs ++ [t]) := by
  rw [← octets_sextets (octets (xs ++ [s])), ← octets_sextets (octets (xs ++ [t])),
    sextets_octets_append_four xs s hlen, sextets_octets_append_four xs t hlen, hst]

/-- A digit alphabet: a table of 64 characters and the lookup that inverts it. -/
structure Alphabet where
  code : Fin 64 → UInt8
  index : UInt8 → Option (Fin 64)
  index_code : ∀ d, index (code d) = some d
  code_of_index : ∀ c d, index c = some d → code d = c

namespace Alphabet

theorem code_injective (A : Alphabet) : Function.Injective A.code := by
  intro d e h
  have hd := A.index_code d
  rw [h, A.index_code e] at hd
  exact (Option.some.inj hd).symm

/-- The text of a byte string, without padding characters. The spare bits of its last digit are
zero. -/
def encode (A : Alphabet) (bs : List UInt8) : List UInt8 := (sextets bs).map A.code

/-- `A.Spells cs bs`: `cs` is a text over the alphabet whose whole bytes are `bs`. -/
def Spells (A : Alphabet) (cs bs : List UInt8) : Prop :=
  ∃ ss : List (Fin 64), cs = ss.map A.code ∧ octets ss = bs

@[simp] theorem length_encode (A : Alphabet) (bs : List UInt8) :
    (A.encode bs).length = sextetCount bs.length := by
  rw [encode, List.length_map, length_sextets]

theorem encode_spells (A : Alphabet) (bs : List UInt8) : A.Spells (A.encode bs) bs :=
  ⟨sextets bs, rfl, octets_sextets bs⟩

/-- A text stands for one byte string only, although a byte string has several texts. -/
theorem Spells.unique {A : Alphabet} {cs bs bs' : List UInt8}
    (h : A.Spells cs bs) (h' : A.Spells cs bs') : bs = bs' := by
  obtain ⟨ss, rfl, rfl⟩ := h
  obtain ⟨ss', hcs, rfl⟩ := h'
  rw [List.map_injective_iff.mpr A.code_injective hcs]

theorem Spells.length {A : Alphabet} {cs bs : List UInt8} (h : A.Spells cs bs) :
    bs.length = cs.length * 3 / 4 := by
  obtain ⟨ss, rfl, rfl⟩ := h
  rw [length_octets, List.length_map]

/-- A character without a digit is not in the table. -/
theorem code_ne_of_index_eq_none {A : Alphabet} {c : UInt8} (h : A.index c = none)
    (d : Fin 64) : A.code d ≠ c := by
  rintro rfl
  rw [A.index_code] at h
  exact absurd h (by simp)

theorem Spells.notMem {A : Alphabet} {cs bs : List UInt8} {c : UInt8} (h : A.Spells cs bs)
    (hc : A.index c = none) : c ∉ cs := by
  obtain ⟨ss, rfl, -⟩ := h
  intro hmem
  obtain ⟨d, -, hd⟩ := List.mem_map.mp hmem
  exact code_ne_of_index_eq_none hc d hd

end Alphabet

section BitFields
variable (a : UInt8) {n : ℕ}

theorem toNat_and_mask (k : ℕ) {mask : UInt8} (hmask : mask.toNat = 2 ^ k - 1) :
    (a &&& mask).toNat = a.toNat % 2 ^ k := by
  rw [UInt8.toNat_and, hmask, Nat.and_two_pow_sub_one_eq_mod]

theorem toNat_ofNat_mod_eight (hn : n < 8) : (UInt8.ofNat n).toNat % 8 = n := by
  rw [UInt8.toNat_ofNat']
  omega

theorem toNat_shiftRight_ofNat (hn : n < 8) :
    (a >>> UInt8.ofNat n).toNat = a.toNat / 2 ^ n := by
  rw [UInt8.toNat_shiftRight, toNat_ofNat_mod_eight hn, Nat.shiftRight_eq_div_pow]

theorem toNat_shiftLeft_ofNat (hn : n < 8) :
    (a <<< UInt8.ofNat n).toNat = a.toNat * 2 ^ n % 2 ^ 8 := by
  rw [UInt8.toNat_shiftLeft, toNat_ofNat_mod_eight hn, Nat.shiftLeft_eq]

end BitFields

/-- Bit fields that do not overlap are combined by `|||` as by addition. -/
theorem toNat_or_of_lt {a b : UInt8} {k m : ℕ} (ha : a.toNat = 2 ^ k * m)
    (hb : b.toNat < 2 ^ k) : (a ||| b).toNat = a.toNat + b.toNat := by
  rw [UInt8.toNat_or, ha, ← Nat.two_pow_add_eq_or_of_lt hb]

@[simp] theorem ofNat_val_toNat (d : Fin 64) : (UInt8.ofNat d.val).toNat = d.val := by
  rw [UInt8.toNat_ofNat', Nat.mod_eq_of_lt (by omega)]

end Passe.Radix64
