import Passe.Blowfish
import Passe.BlockCipher
import Mathlib.Data.LawfulXor.Basic

/-!
# Blowfish as a block cipher

The rest of `blf.c`: deciphering, the calls on arrays of words, and the ECB and CBC
modes on a byte buffer that is overwritten in place. `blowfishDecipher` undoes
`blowfishEncipher` under every key, and each mode undoes itself on whole blocks. At
the end the two state expansions are compared.
-/
namespace Passe.Blowfish
open BlockCipher

/-- `passe_blf_key`: the ordinary key setup of the cipher, which mixes in the key and no salt.
-/
def blfKey (k : Bytes) (len : UInt16) : BlfCtx := blowfishExpand0state blowfishInitstate k len

/-- `passe_blf_dec`: the blocks of an array of words, each deciphered in its place. -/
def blfDec (c : BlfCtx) (blocks : ℕ) (data : List UInt32) : List UInt32 :=
  onBlocks (blowfishDecipher c) blocks data

section Cipher
variable {c : BlfCtx}

/-- The round function with the subkey of round `n`, which is what one half is masked with in
`BLFRND`. -/
def maskedF (c : BlfCtx) (n : Fin 18) (x : UInt32) : UInt32 := F c.S x ^^^ c.P.get n

/-- The subkeys between the two that whiten. -/
def rounds : List (Fin 18) := (List.finRange 16).map fun i => i.castSucc.succ

/-- A network between two subkeys that whiten. Both directions of the cipher have this shape. -/
def whitened (c : BlfCtx) (i : Fin 18) (ks : List (Fin 18)) (o : Fin 18) (x : UInt32 × UInt32) :
    UInt32 × UInt32 :=
  let y := network (· ^^^ ·) (maskedF c) ks (x.1 ^^^ c.P.get i, x.2)
  (y.2 ^^^ c.P.get o, y.1)

theorem blowfishEncipher_eq (c : BlfCtx) : blowfishEncipher c = whitened c 0 rounds 17 := rfl

theorem blowfishDecipher_eq (c : BlfCtx) : blowfishDecipher c = whitened c 17 rounds.reverse 0 := rfl

@[simp] theorem whitened_reverse (i : Fin 18) (ks : List (Fin 18)) (o : Fin 18)
    (x : UInt32 × UInt32) :
    whitened c o ks.reverse i (whitened c i ks o x) = x := by
  have hundo := network_reverse (f := maskedF c) xor_cancel_right ks (x.1 ^^^ c.P.get i, x.2)
  have hback : network (· ^^^ ·) (maskedF c) ks.reverse
      ((network (· ^^^ ·) (maskedF c) ks (x.1 ^^^ c.P.get i, x.2)).2,
        (network (· ^^^ ·) (maskedF c) ks (x.1 ^^^ c.P.get i, x.2)).1) =
      (x.2, x.1 ^^^ c.P.get i) := hundo
  simp only [whitened, xor_cancel_right]
  rw [hback]
  simp only [xor_cancel_right]

/-- Deciphering undoes enciphering, whatever the boxes and the subkeys are. -/
@[simp] theorem blowfishDecipher_encipher (x : UInt32 × UInt32) :
    blowfishDecipher c (blowfishEncipher c x) = x := by
  rw [blowfishEncipher_eq, blowfishDecipher_eq]
  exact whitened_reverse 0 rounds 17 x

@[simp] theorem blowfishEncipher_decipher (x : UInt32 × UInt32) :
    blowfishEncipher c (blowfishDecipher c x) = x := by
  rw [blowfishEncipher_eq, blowfishDecipher_eq]
  exact whitened_reverse 17 rounds.reverse 0 x

theorem onBlocks_cancel {f g : UInt32 × UInt32 → UInt32 × UInt32} (h : ∀ x, g (f x) = x)
    (blocks : ℕ) (data : List UInt32) :
    onBlocks g blocks (onBlocks f blocks data) = data := by
  fun_induction onBlocks f blocks data with
  | case1 blocks x0 x1 rest y ih => rw [onBlocks, ih, h]
  | case2 blocks data hshort =>
    unfold onBlocks
    split
    · exact absurd rfl (hshort _ _ _ _ rfl)
    · rfl

/-- `passe_blf_enc` and `passe_blf_dec` undo each other on any number of blocks. The source asks
for a buffer of `2 * blocks` words and reads behind a shorter one; here such a call stops at
the end of the buffer. -/
theorem blf_roundTrip (c : BlfCtx) (blocks : ℕ) (data : List UInt32) :
    blfDec c blocks (blfEnc c blocks data) = data ∧
      blfEnc c blocks (blfDec c blocks data) = data :=
  ⟨onBlocks_cancel blowfishDecipher_encipher blocks data,
    onBlocks_cancel blowfishEncipher_decipher blocks data⟩

end Cipher

/-- `l = data[0] << 24 | data[1] << 16 | data[2] << 8 | data[3]`. -/
def loadWord (data : Bytes) (p : ℕ) : UInt32 :=
  (deref data p).toUInt32 <<< 24 ||| (deref data (p + 1)).toUInt32 <<< 16 |||
    (deref data (p + 2)).toUInt32 <<< 8 ||| (deref data (p + 3)).toUInt32

/-- `data[0] = l >> 24 & 0xff;` and the three bytes behind it. -/
def storeWord (data : Bytes) (p : ℕ) (l : UInt32) : Bytes :=
  (((data.set p (l >>> 24).toUInt8).set (p + 1) (l >>> 16).toUInt8).set (p + 2)
    (l >>> 8).toUInt8).set (p + 3) l.toUInt8

/-- The eight bytes at `p` go through the cipher. -/
def cipherAt (cipher : UInt32 × UInt32 → UInt32 × UInt32) (data : Bytes) (p : ℕ) : Bytes :=
  let d := cipher (loadWord data p, loadWord data (p + 4))
  storeWord (storeWord data p d.1) (p + 4) d.2

/-- `for (j = 0; j < 8; j++) data[j] ^= iv[j];` with `data` at `p`. -/
def xorAt (data : Bytes) (p : ℕ) (iv : Bytes → ℕ → UInt8) : Bytes :=
  (List.range 8).foldl (fun data j => data.set (p + j) (deref data (p + j) ^^^ iv data j)) data

/-- Where `iv` points for block `i`: into the caller's vector, then into the buffer. -/
def ivFrom (iv : Bytes) (p : ℕ) : ℕ → Bytes → ℕ → UInt8
  | 0, _, j => deref iv j
  | i + 1, data, j => deref data (p + 8 * i + j)

/-- How often the loops over `len` bytes turn: a block that `len` only reaches into is taken
whole. The counter of the source has 32 bits and wraps for the last seven lengths, whose loops
never end; no result below is about these. -/
def turns (len : UInt32) : ℕ := (len.toNat + 7) / 8

/-- The loop of both ECB calls. They differ in the direction of the cipher alone. -/
def ecbLoop (cipher : UInt32 × UInt32 → UInt32 × UInt32) (data : Bytes) (len : UInt32) : Bytes :=
  (List.range (turns len)).foldl (fun data i => cipherAt cipher data (8 * i)) data

/-- `passe_blf_ecb_encrypt`: every block of the buffer is enciphered on its own, in place. -/
def blfEcbEncrypt (c : BlfCtx) (data : Bytes) (len : UInt32) : Bytes :=
  ecbLoop (blowfishEncipher c) data len

/-- `passe_blf_ecb_decrypt`: every block of the buffer is deciphered on its own, in place. -/
def blfEcbDecrypt (c : BlfCtx) (data : Bytes) (len : UInt32) : Bytes :=
  ecbLoop (blowfishDecipher c) data len

/-- `passe_blf_cbc_encrypt`: the vector is read for the first block only, and from then on the
buffer itself. -/
def blfCbcEncrypt (c : BlfCtx) (iv data : Bytes) (len : UInt32) : Bytes :=
  (List.range (turns len)).foldl (fun data i =>
    cipherAt (blowfishEncipher c) (xorAt data (8 * i) (ivFrom iv 0 i)) (8 * i)) data

/-- `passe_blf_cbc_decrypt`. Its pointers start at the end of the data, so a length that is no
multiple of eight leaves out the first bytes. -/
def blfCbcDecrypt (c : BlfCtx) (iva data : Bytes) (len : UInt32) : Bytes :=
  let p := len.toNat % 8
  (List.range (len.toNat / 8)).reverse.foldl (fun data i =>
    xorAt (cipherAt (blowfishDecipher c) data (p + 8 * i)) (p + 8 * i) (ivFrom iva p i)) data

/-- The eight bytes of a block, as the buffer holds them. The cipher itself works on two words.
-/
abbrev Octets := Vector UInt8 8

def octetsAt (data : Bytes) (q : ℕ) : Octets := Vector.ofFn fun j => deref data (q + j.val)

def xorOctets : Octets → Octets → Octets := Vector.zipWith (· ^^^ ·)

/-- The two words of a block, most significant byte first. -/
def octetsWords (b : Octets) : UInt32 × UInt32 :=
  let byte (j : ℕ) : UInt8 := b.toArray.getD j 0
  (beWord (byte 0) (byte 1) (byte 2) (byte 3), beWord (byte 4) (byte 5) (byte 6) (byte 7))

def wordsOctets (d : UInt32 × UInt32) : Octets :=
  #v[(d.1 >>> 24).toUInt8, (d.1 >>> 16).toUInt8, (d.1 >>> 8).toUInt8, d.1.toUInt8,
    (d.2 >>> 24).toUInt8, (d.2 >>> 16).toUInt8, (d.2 >>> 8).toUInt8, d.2.toUInt8]

/-- The cipher on bytes. -/
def cipherOctets (cipher : UInt32 × UInt32 → UInt32 × UInt32) (b : Octets) : Octets :=
  wordsOctets (cipher (octetsWords b))

section Octets
variable {data data' : Bytes} {q : ℕ} {b : Octets}

theorem loadWord_eq (data : Bytes) (q : ℕ) :
    loadWord data q =
      beWord (deref data q) (deref data (q + 1)) (deref data (q + 2)) (deref data (q + 3)) := by
  simp [loadWord, beWord, pushByte, UInt32.shiftLeft_or, ← UInt32.shiftLeft_add]

@[simp] theorem beWord_bytes (w : UInt32) :
    beWord (w >>> 24).toUInt8 (w >>> 16).toUInt8 (w >>> 8).toUInt8 w.toUInt8 = w := by
  have hw := w.toNat_lt
  apply UInt32.toNat_inj.mp
  rw [beWord_toNat]
  simp only [UInt32.toNat_toUInt8, UInt32.toNat_shiftRight, UInt32.reduceToNat, Nat.reduceMod,
    Nat.shiftRight_eq_div_pow]
  omega

@[simp] theorem octetsWords_wordsOctets (d : UInt32 × UInt32) : octetsWords (wordsOctets d) = d :=
  Prod.ext (beWord_bytes d.1) (beWord_bytes d.2)

@[simp] theorem wordsOctets_octetsWords (b : Octets) : wordsOctets (octetsWords b) = b := by
  have hbytes : ∀ x y z w : UInt8, (beWord x y z w >>> 24).toUInt8 = x ∧
      (beWord x y z w >>> 16).toUInt8 = y ∧ (beWord x y z w >>> 8).toUInt8 = z ∧
      (beWord x y z w).toUInt8 = w := fun x y z w => beWord_inj (beWord_bytes _)
  obtain ⟨h0, h1, h2, h3⟩ := hbytes b[0] b[1] b[2] b[3]
  obtain ⟨h4, h5, h6, h7⟩ := hbytes b[4] b[5] b[6] b[7]
  have hwords : octetsWords b =
      (beWord b[0] b[1] b[2] b[3], beWord b[4] b[5] b[6] b[7]) := by simp [octetsWords]
  simp only [hwords, wordsOctets, h0, h1, h2, h3, h4, h5, h6, h7]
  ext i hi
  interval_cases i <;> rfl

/-- A cipher that undoes another does so on bytes, since packing bytes into words loses nothing.
-/
theorem cipherOctets_cancel {f g : UInt32 × UInt32 → UInt32 × UInt32} (h : ∀ x, g (f x) = x)
    (b : Octets) : cipherOctets g (cipherOctets f b) = b := by
  rw [cipherOctets, cipherOctets, octetsWords_wordsOctets, h, wordsOctets_octetsWords]

@[simp] theorem xorOctets_cancel (a b : Octets) : xorOctets (xorOctets a b) b = a := by
  ext i hi
  simp only [xorOctets, Vector.getElem_zipWith]
  exact xor_cancel_right _ _

/-- `data'` is `data` with the block at `q` overwritten: every other byte and the length stay as
they were. -/
structure Overwritten (data data' : Bytes) (q : ℕ) (b : Octets) : Prop where
  length_eq : data'.length = data.length
  inside : ∀ j (hj : j < 8), data'[q + j]? = some b[j]
  outside : ∀ i, i < q ∨ q + 8 ≤ i → data'[i]? = data[i]?

theorem deref_congr {i : ℕ} (h : data'[i]? = data[i]?) : deref data' i = deref data i := by
  rw [deref, deref, List.getD_eq_getElem?_getD, List.getD_eq_getElem?_getD, h]

@[simp] theorem octetsWords_octetsAt (data : Bytes) (q : ℕ) :
    octetsWords (octetsAt data q) = (loadWord data q, loadWord data (q + 4)) := by
  have hbyte : ∀ j < 8, (octetsAt data q).toArray.getD j 0 = deref data (q + j) := by
    intro j hj
    simp [octetsAt, hj]
  simp [octetsWords, loadWord_eq, hbyte]

theorem storeWords_overwritten (d : UInt32 × UInt32) (hq : q + 8 ≤ data.length) :
    Overwritten data (storeWord (storeWord data q d.1) (q + 4) d.2) q (wordsOctets d) := by
  have hfirst : q < data.length := by omega
  have hlt : ∀ {j : ℕ}, j < 8 → q + j < data.length := by
    intro j hj
    omega
  constructor
  · simp only [storeWord, List.length_set]
  · intro j hj
    interval_cases j <;>
      simp [storeWord, wordsOctets, Nat.add_assoc, hfirst, hlt]
  · intro i hi
    simp only [storeWord]
    rw [List.getElem?_set_ne (by omega), List.getElem?_set_ne (by omega),
      List.getElem?_set_ne (by omega), List.getElem?_set_ne (by omega),
      List.getElem?_set_ne (by omega), List.getElem?_set_ne (by omega),
      List.getElem?_set_ne (by omega), List.getElem?_set_ne (by omega)]

theorem cipherAt_overwritten (cipher : UInt32 × UInt32 → UInt32 × UInt32)
    (hq : q + 8 ≤ data.length) :
    Overwritten data (cipherAt cipher data q) q (cipherOctets cipher (octetsAt data q)) := by
  rw [cipherOctets, octetsWords_octetsAt]
  exact storeWords_overwritten _ hq

/-- The masking loop, when it does not read what it writes. -/
theorem xorAt_overwritten {iv : Bytes → ℕ → UInt8} (hq : q + 8 ≤ data.length)
    (hiv : ∀ data' : Bytes, (∀ i < q, data'[i]? = data[i]?) → ∀ j < 8, iv data' j = iv data j) :
    Overwritten data (xorAt data q iv) q
      (xorOctets (octetsAt data q) (Vector.ofFn fun j => iv data j.val)) := by
  have hloop : ∀ k ≤ 8, ∀ data', data' = (List.range k).foldl (fun data j =>
        data.set (q + j) (deref data (q + j) ^^^ iv data j)) data →
      data'.length = data.length ∧
      (∀ j < k, data'[q + j]? = some (deref data (q + j) ^^^ iv data j)) ∧
      ∀ i, i < q ∨ q + k ≤ i → data'[i]? = data[i]? := by
    intro k hk
    induction k with
    | zero =>
      rintro _ rfl
      exact ⟨rfl, fun j hj => absurd hj (Nat.not_lt_zero j), fun i _ => rfl⟩
    | succ k ih =>
      rintro _ rfl
      rw [List.range_succ, List.foldl_append, List.foldl_cons, List.foldl_nil]
      obtain ⟨hlength, hin, hout⟩ := ih (by omega) _ rfl
      generalize (List.range k).foldl _ data = data' at hlength hin hout
      have hsame : deref data' (q + k) = deref data (q + k) := deref_congr (hout _ (by omega))
      have hmask : iv data' k = iv data k := hiv data' (fun i hi => hout i (by omega)) k (by omega)
      refine ⟨by rw [List.length_set, hlength], ?_, ?_⟩
      · intro j hj
        by_cases heq : j = k
        · subst heq
          rw [List.getElem?_set_self (by omega), hsame, hmask]
        · rw [List.getElem?_set_ne (by omega), hin j (by omega)]
      · intro i hi
        rw [List.getElem?_set_ne (by omega), hout i (by omega)]
  obtain ⟨hlength, hin, hout⟩ := hloop 8 (Nat.le_refl 8) _ rfl
  refine ⟨hlength, fun j hj => ?_, hout⟩
  simp [xorAt, hin j hj, xorOctets, octetsAt]

end Octets

/-- `data` is `orig` with the `n` blocks from `p` on replaced by those of `x`. -/
structure Views (orig : Bytes) (p n : ℕ) (data : Bytes) (x : ℕ → Octets) : Prop where
  fits : p + 8 * n ≤ orig.length
  length_eq : data.length = orig.length
  octets_eq : ∀ k < n, octetsAt data (p + 8 * k) = x k
  outside : ∀ i, i < p ∨ p + 8 * n ≤ i → data[i]? = orig[i]?

section Views
variable {orig data data' : Bytes} {p n k : ℕ} {x y : ℕ → Octets} {b : Octets}

theorem views_self (h : p + 8 * n ≤ data.length) :
    Views data p n data fun k => octetsAt data (p + 8 * k) :=
  ⟨h, rfl, fun _ _ => rfl, fun _ _ => rfl⟩

theorem getElem?_of_octetsAt {q j : ℕ} (hj : j < 8) (hq : q + j < data.length) :
    data[q + j]? = some (octetsAt data q)[j] := by
  simp only [octetsAt, Vector.getElem_ofFn, deref]
  rw [List.getD_eq_getElem _ _ hq, List.getElem?_eq_getElem hq]

/-- The blocks and the bytes around them are the whole buffer, so two buffers that agree on both
are equal. -/
theorem Views.ext (h : Views orig p n data x) (h' : Views orig p n data' y)
    (heq : ∀ k < n, x k = y k) : data = data' := by
  have hfits := h.fits
  have hlength := h.length_eq
  have hlength' := h'.length_eq
  refine List.ext_getElem? fun i => ?_
  by_cases hi : i < p ∨ p + 8 * n ≤ i
  · rw [h.outside i hi, h'.outside i hi]
  · have hk : (i - p) / 8 < n := by omega
    have hj : (i - p) % 8 < 8 := Nat.mod_lt _ (by decide)
    have hindex : i = p + 8 * ((i - p) / 8) + (i - p) % 8 := by omega
    rw [hindex, getElem?_of_octetsAt hj (by omega), getElem?_of_octetsAt hj (by omega),
      h.octets_eq _ hk, h'.octets_eq _ hk, heq _ hk]

theorem octetsAt_congr {q : ℕ} (h : ∀ i, q ≤ i → i < q + 8 → data'[i]? = data[i]?) :
    octetsAt data' q = octetsAt data q := by
  ext j hj
  rw [octetsAt, octetsAt, Vector.getElem_ofFn, Vector.getElem_ofFn]
  exact congrArg UInt8.toNat (deref_congr (h _ (by omega) (by omega)))

/-- One block is overwritten. -/
theorem Views.overwritten (h : Views orig p n data x) (hk : k < n)
    (hw : Overwritten data data' (p + 8 * k) b) :
    Views orig p n data' (Function.update x k b) := by
  have hfits := h.fits
  have hlength := h.length_eq
  have hlength' := hw.length_eq
  refine ⟨hfits, hlength'.trans hlength, fun k' hk' => ?_, fun i hi => ?_⟩
  · by_cases heq : k' = k
    · subst heq
      rw [Function.update_self]
      ext j hj
      have hin := hw.inside j hj
      rw [getElem?_of_octetsAt hj (by omega)] at hin
      rw [Option.some.inj hin]
    · rw [Function.update_of_ne heq, ← h.octets_eq k' hk']
      exact octetsAt_congr fun i hlo hhi => hw.outside i (by omega)
  · rw [hw.outside i (by omega), h.outside i hi]

theorem Views.cipherAt (h : Views orig p n data x) (hk : k < n)
    (cipher : UInt32 × UInt32 → UInt32 × UInt32) :
    Views orig p n (cipherAt cipher data (p + 8 * k))
      (Function.update x k (cipherOctets cipher (x k))) := by
  have hfits := h.fits
  have hlength := h.length_eq
  rw [← h.octets_eq k hk]
  exact h.overwritten hk (cipherAt_overwritten cipher (by omega))

/-- The block is masked with the vector or with the block before it. -/
theorem Views.xorAt (h : Views orig p n data x) (hk : k < n) (iv : Bytes) :
    Views orig p n (xorAt data (p + 8 * k) (ivFrom iv p k))
      (Function.update x k (xorOctets (x k) (chain (octetsAt iv 0) x k))) := by
  have hfits := h.fits
  have hlength := h.length_eq
  have hread : ∀ data' : Bytes, (∀ i < p + 8 * k, data'[i]? = data[i]?) → ∀ j < 8,
      ivFrom iv p k data' j = ivFrom iv p k data j := by
    intro data' hsame j hj
    cases k with
    | zero => rfl
    | succ k => exact deref_congr (hsame _ (by omega))
  have hmask : (Vector.ofFn fun j : Fin 8 => ivFrom iv p k data j.val) =
      chain (octetsAt iv 0) x k := by
    cases k with
    | zero => simp [ivFrom, chain, octetsAt]
    | succ k => exact h.octets_eq k (by omega)
  rw [← hmask, ← h.octets_eq k hk]
  exact h.overwritten hk (xorAt_overwritten (by omega) hread)

end Views

section Modes
variable {orig data iv : Bytes} {p n : ℕ} {len : UInt32} {x : ℕ → Octets} {c : BlfCtx}

theorem turns_eq (hmul : len.toNat % 8 = 0) : turns len = len.toNat / 8 := by
  unfold turns
  omega

theorem ecbLoop_views (cipher : UInt32 × UInt32 → UInt32 × UInt32)
    (h : Views orig 0 (turns len) data x) :
    Views orig 0 (turns len) (ecbLoop cipher data len)
      (ecbInPlace (cipherOctets cipher) (turns len) x) := by
  rw [ecbLoop, ecbInPlace]
  refine List.foldl_rel h fun k hk data x hviews => ?_
  have hstep := hviews.cipherAt (List.mem_range.mp hk) cipher
  rw [Nat.zero_add] at hstep
  exact hstep

theorem blfCbcEncrypt_views (iv : Bytes) (h : Views orig 0 (turns len) data x) :
    Views orig 0 (turns len) (blfCbcEncrypt c iv data len)
      (cbcEncryptInPlace xorOctets (cipherOctets (blowfishEncipher c)) (octetsAt iv 0)
        (turns len) x) := by
  rw [blfCbcEncrypt, cbcEncryptInPlace]
  refine List.foldl_rel h fun k hk data x hviews => ?_
  have hlt := List.mem_range.mp hk
  have hstep := (hviews.xorAt hlt iv).cipherAt hlt (blowfishEncipher c)
  rw [Nat.zero_add, Function.update_self, Function.update_idem] at hstep
  exact hstep

theorem blfCbcDecrypt_views (iv : Bytes)
    (h : Views orig (len.toNat % 8) (len.toNat / 8) data x) :
    Views orig (len.toNat % 8) (len.toNat / 8) (blfCbcDecrypt c iv data len)
      (cbcDecryptInPlace xorOctets (cipherOctets (blowfishDecipher c)) (octetsAt iv 0)
        (len.toNat / 8) x) := by
  rw [blfCbcDecrypt, cbcDecryptInPlace]
  refine List.foldl_rel h fun k hk data x hviews => ?_
  have hlt := List.mem_range.mp (List.mem_reverse.mp hk)
  have hstep := (hviews.cipherAt hlt (blowfishDecipher c)).xorAt hlt iv
  have hchain : ∀ b, chain (octetsAt iv 0) (Function.update x k b) k =
      chain (octetsAt iv 0) x k := by
    intro b
    cases k with
    | zero => rfl
    | succ k => exact Function.update_of_ne (Nat.ne_of_lt (Nat.lt_succ_self k)) b x
  rw [Function.update_self, Function.update_idem, hchain] at hstep
  exact hstep

/-- The buffer as the blocks that a loop over `len` bytes takes. -/
theorem views_start (hlen : 8 * turns len ≤ data.length) :
    Views data 0 (turns len) data fun k => octetsAt data (0 + 8 * k) :=
  views_self (by omega)

/-- The bytes behind the blocks are those of the buffer that came in. -/
theorem Views.drop_eq (h : Views orig 0 n data x) : data.drop (8 * n) = orig.drop (8 * n) := by
  refine List.ext_getElem? fun i => ?_
  rw [List.getElem?_drop, List.getElem?_drop]
  exact h.outside _ (by omega)

/-- A context with a key of six bytes, on which the results about the modes are tried. -/
def secretCtx : BlfCtx := blfKey (ascii "secret") 6

/-- On whole blocks each ECB call undoes the other, and neither of them touches the bytes behind
the length. -/
theorem ecb_roundTrip (c : BlfCtx) (hmul : len.toNat % 8 = 0) (hlen : len.toNat ≤ data.length) :
    blfEcbDecrypt c (blfEcbEncrypt c data len) len = data ∧
      blfEcbEncrypt c (blfEcbDecrypt c data len) len = data ∧
      (blfEcbEncrypt c data len).drop len.toNat = data.drop len.toNat ∧
      (blfEcbDecrypt c data len).drop len.toNat = data.drop len.toNat := by
  have hturns : 8 * turns len = len.toNat := by
    rw [turns_eq hmul]
    omega
  have hself : Views data 0 (turns len) data _ := views_start (hturns ▸ hlen)
  have hundo : ∀ {f g : UInt32 × UInt32 → UInt32 × UInt32}, (∀ x, g (f x) = x) →
      ecbLoop g (ecbLoop f data len) len = data := by
    intro f g hfg
    refine (ecbLoop_views g (ecbLoop_views f hself)).ext hself fun k _ => ?_
    rw [ecbInPlace_cancel (cipherOctets_cancel hfg)]
  have hbehind : ∀ f, (ecbLoop f data len).drop len.toNat = data.drop len.toNat := by
    intro f
    rw [← hturns]
    exact (ecbLoop_views f hself).drop_eq
  exact ⟨hundo blowfishDecipher_encipher, hundo blowfishEncipher_decipher, hbehind _, hbehind _⟩

/-- Two blocks, with six bytes behind them. -/
theorem ecb_roundTrip_twoBlocks :
    blfEcbDecrypt secretCtx (blfEcbEncrypt secretCtx (ascii "sixteen bytes ok, tail") 16)
      16 = ascii "sixteen bytes ok, tail" ∧
      (blfEcbEncrypt secretCtx (ascii "sixteen bytes ok, tail") 16).drop 16 = ascii ", tail" :=
  have hcalls := @ecb_roundTrip (ascii "sixteen bytes ok, tail") 16 secretCtx (by decide) (by decide)
  ⟨hcalls.1, hcalls.2.2.1⟩

theorem cbc_roundTrip (c : BlfCtx) (iv : Bytes) (hmul : len.toNat % 8 = 0)
    (_hpos : 0 < len.toNat) (hlen : len.toNat ≤ data.length) :
    blfCbcDecrypt c iv (blfCbcEncrypt c iv data len) len = data ∧
      blfCbcEncrypt c iv (blfCbcDecrypt c iv data len) len = data := by
  have hturns := turns_eq hmul
  have hself : Views data 0 (turns len) data _ := views_start (by omega)
  have hself' : Views data (len.toNat % 8) (len.toNat / 8) data fun k =>
      octetsAt data (0 + 8 * k) := by
    rw [hmul, ← hturns]
    exact hself
  constructor
  · have hencrypted := blfCbcEncrypt_views (c := c) iv hself
    have hdecrypted : Views data (len.toNat % 8) (len.toNat / 8)
        (blfCbcDecrypt c iv (blfCbcEncrypt c iv data len) len) _ :=
      blfCbcDecrypt_views iv (by rw [hmul, ← hturns]; exact hencrypted)
    rw [hmul, ← hturns,
      cbcDecryptInPlace_encryptInPlace (cipherOctets_cancel blowfishDecipher_encipher)
        xorOctets_cancel] at hdecrypted
    exact hdecrypted.ext hself fun _ _ => rfl
  · have hdecrypted : Views data (len.toNat % 8) (len.toNat / 8) (blfCbcDecrypt c iv data len) _ :=
      blfCbcDecrypt_views iv hself'
    rw [hmul, ← hturns] at hdecrypted
    have hencrypted := blfCbcEncrypt_views (c := c) iv hdecrypted
    rw [cbcEncryptInPlace_decryptInPlace (cipherOctets_cancel blowfishEncipher_decipher)
      xorOctets_cancel] at hencrypted
    exact hencrypted.ext hself fun _ _ => rfl

theorem cbc_roundTrip_twoBlocks :
    blfCbcDecrypt secretCtx (ascii "vector!!")
      (blfCbcEncrypt secretCtx (ascii "vector!!") (ascii "sixteen bytes ok") 16) 16 =
      ascii "sixteen bytes ok" :=
  (cbc_roundTrip secretCtx (ascii "vector!!") (by decide) (by decide) (by decide)).1

/-- `passe_blf_cbc_encrypt` writes one block for every eight bytes of the length, the last one
whole even when the length only reaches into it. Every block is masked with the ciphertext
before it, although the plaintext is overwritten on the way, and the bytes behind the blocks
stay. -/
theorem blfCbcEncrypt_spec (c : BlfCtx) (iv : Bytes) (_hmax : len.toNat ≤ 2 ^ 32 - 8)
    (hlen : 8 * turns len ≤ data.length) :
    (∀ k < turns len, octetsAt (blfCbcEncrypt c iv data len) (8 * k) =
      cipherOctets (blowfishEncipher c) (xorOctets (octetsAt data (8 * k))
        (if k = 0 then octetsAt iv 0
          else octetsAt (blfCbcEncrypt c iv data len) (8 * (k - 1))))) ∧
      (blfCbcEncrypt c iv data len).drop (8 * turns len) = data.drop (8 * turns len) := by
  have hviews := blfCbcEncrypt_views (c := c) iv (views_start hlen)
  rw [cbcEncryptInPlace_eq] at hviews
  have hblock : ∀ k < turns len, octetsAt (blfCbcEncrypt c iv data len) (8 * k) =
      cbcEncrypt xorOctets (cipherOctets (blowfishEncipher c)) (octetsAt iv 0)
        (fun k => octetsAt data (0 + 8 * k)) k := by
    intro k hk
    have hoctets := hviews.octets_eq k hk
    rw [below_of_lt hk, Nat.zero_add] at hoctets
    exact hoctets
  refine ⟨fun k hk => ?_, hviews.drop_eq⟩
  rw [hblock k hk, cbcEncrypt_eq, Nat.zero_add]
  cases k with
  | zero => rfl
  | succ k =>
    rw [if_neg (Nat.succ_ne_zero k), Nat.add_sub_cancel, hblock k (by omega)]
    rfl

/-- Nine bytes are two blocks: the second block takes the seven bytes behind the length with it,
and the last six bytes stay. -/
theorem blfCbcEncrypt_spec_overhang :
    octetsAt (blfCbcEncrypt secretCtx (ascii "vector!!") (ascii "sixteen bytes ok, tail") 9) 8 =
      cipherOctets (blowfishEncipher secretCtx)
        (xorOctets (octetsAt (ascii "sixteen bytes ok, tail") 8) (octetsAt
          (blfCbcEncrypt secretCtx (ascii "vector!!") (ascii "sixteen bytes ok, tail") 9) 0)) ∧
      (blfCbcEncrypt secretCtx (ascii "vector!!") (ascii "sixteen bytes ok, tail") 9).drop 16 =
        ascii ", tail" :=
  have hcall := @blfCbcEncrypt_spec (ascii "sixteen bytes ok, tail") 9 secretCtx (ascii "vector!!")
    (by decide) (by decide)
  ⟨hcall.1 1 (by decide), hcall.2⟩

/-- `passe_blf_cbc_decrypt` takes the blocks from the end of the data. Each becomes its deciphered
self masked with the ciphertext before it, and the bytes that make no block stay. -/
theorem blfCbcDecrypt_spec (c : BlfCtx) (iv : Bytes) (_hmin : 8 ≤ len.toNat)
    (hlen : len.toNat ≤ data.length) :
    let p := len.toNat % 8
    (∀ k < len.toNat / 8, octetsAt (blfCbcDecrypt c iv data len) (p + 8 * k) =
      xorOctets (cipherOctets (blowfishDecipher c) (octetsAt data (p + 8 * k)))
        (if k = 0 then octetsAt iv 0 else octetsAt data (p + 8 * (k - 1)))) ∧
      ∀ i, i < p ∨ len.toNat ≤ i → (blfCbcDecrypt c iv data len)[i]? = data[i]? := by
  have hself : Views data (len.toNat % 8) (len.toNat / 8) data fun k =>
      octetsAt data (len.toNat % 8 + 8 * k) := views_self (by omega)
  have hviews := blfCbcDecrypt_views (c := c) iv hself
  rw [cbcDecryptInPlace_eq] at hviews
  constructor
  · intro k hk
    rw [hviews.octets_eq k hk, below_of_lt hk, cbcDecrypt]
    cases k with
    | zero => rfl
    | succ k => rw [if_neg (Nat.succ_ne_zero k), Nat.add_sub_cancel, chain]
  · intro i hi
    exact hviews.outside i (by omega)

theorem blfCbcDecrypt_spec_overhang :
    octetsAt (blfCbcDecrypt secretCtx (ascii "vector!!") (ascii "x sixteen bytes!!") 17) 9 =
      xorOctets (cipherOctets (blowfishDecipher secretCtx)
        (octetsAt (ascii "x sixteen bytes!!") 9)) (octetsAt (ascii "x sixteen bytes!!") 1) :=
  (blfCbcDecrypt_spec secretCtx (ascii "vector!!") (by decide) (by decide)).1 1 (by decide)

end Modes

section Expand

/-- With data of zero bytes alone the reader gives zero words. -/
theorem blowfishStream2word_zero {data : Bytes} (hzero : ∀ b ∈ data, b = 0)
    (databytes j : UInt16) : (blowfishStream2word data databytes j).1 = 0 := by
  have hderef : ∀ i, deref data i = 0 := by
    intro i
    rcases Nat.lt_or_ge i data.length with hi | hi
    · rw [deref, List.getD_eq_getElem _ _ hi]
      exact hzero _ (List.getElem_mem hi)
    · exact List.getD_eq_default _ _ hi
  simp only [blowfishStream2word, streamByte, hderef]
  rfl

/-- Two runs of the loops with the same state and the same running block. -/
def SameBlock (s s' : ExpandState) : Prop := s.ctx = s'.ctx ∧ s.d = s'.d

theorem SameBlock.expandBlock {mask mask' : UInt16 → (UInt32 × UInt32) × UInt16}
    (h : ∀ j j', (mask j).1 = (mask' j').1) {s s' : ExpandState} (hs : SameBlock s s') :
    SameBlock (expandBlock mask s) (expandBlock mask' s') := by
  obtain ⟨ctx, d, j⟩ := s
  obtain ⟨ctx', d', j'⟩ := s'
  obtain ⟨rfl, rfl⟩ : ctx = ctx' ∧ d = d' := hs
  refine ⟨rfl, ?_⟩
  simp only [Blowfish.expandBlock, h j j']

theorem SameBlock.store {s s' : ExpandState} (hs : SameBlock s s')
    (f : BlfCtx → UInt32 × UInt32 → BlfCtx) :
    SameBlock { s with ctx := f s.ctx s.d } { s' with ctx := f s'.ctx s'.d } := by
  obtain ⟨ctx, d, j⟩ := s
  obtain ⟨ctx', d', j'⟩ := s'
  obtain ⟨rfl, rfl⟩ : ctx = ctx' ∧ d = d' := hs
  exact ⟨rfl, rfl⟩

/-- Two masks of equal words make the same expansion, however their cursors move. -/
theorem expandLoops_congr {mask mask' : UInt16 → (UInt32 × UInt32) × UInt16}
    (h : ∀ j j', (mask j).1 = (mask' j').1) (c : BlfCtx) :
    expandLoops mask c = expandLoops mask' c := by
  have hstart : SameBlock ⟨c, (0, 0), 0⟩ ⟨c, (0, 0), 0⟩ := ⟨rfl, rfl⟩
  unfold expandLoops
  refine And.left (?_ : SameBlock _ _)
  refine List.foldl_rel (r := SameBlock) (List.foldl_rel hstart fun i _ s s' hs => ?_)
    fun i _ s s' hs => List.foldl_rel hs fun k _ s s' hs => ?_
  · exact (hs.expandBlock h).store fun ctx d =>
      { ctx with P := (ctx.P.set (2 * i.val) d.1).set (2 * i.val + 1) d.2 }
  · exact (hs.expandBlock h).store fun ctx d =>
      let box := ((ctx.S.get i).set (2 * k.val) d.1).set (2 * k.val + 1) d.2
      { ctx with S := ctx.S.set i.val box }

/-- A salt of zero bytes is no salt. The lengths are promised by the callers: the source reads
behind a stream that is shorter than `databytes` or `keybytes`. -/
theorem blowfishExpandstate_zero {data : Bytes} (hzero : ∀ b ∈ data, b = 0) (c : BlfCtx)
    (databytes : UInt16) (key : Bytes) (keybytes : UInt16) :
    blowfishExpandstate c data databytes key keybytes = blowfishExpand0state c key keybytes := by
  refine expandLoops_congr (fun j j' => ?_) _
  simp only [blowfishStream2word_zero hzero]

theorem blowfishExpandstate_zero_salt :
    blowfishExpandstate secretCtx (List.replicate 16 0) 16 (ascii "key") 4 =
      blowfishExpand0state secretCtx (ascii "key") 4 :=
  blowfishExpandstate_zero (fun _ hb => List.eq_of_mem_replicate hb) secretCtx 16 (ascii "key") 4

end Expand

end Passe.Blowfish
