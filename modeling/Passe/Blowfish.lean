import Passe.BlowfishTables
import Passe.Cyclic
import Passe.Runtime
import Mathlib.Tactic.IntervalCases

/-!
# The Blowfish cipher and its key schedule

`blf.c` as bcrypt uses it: the block cipher, the two state expansions and the
cyclic reader that feeds key and salt bytes into them. The reader rewinds
lazily, when the next byte is asked for; `AtPosition` says which byte of the
endless stream its cursor stands at, and everything about the key words is
derived from that one invariant.
-/
namespace Passe.Blowfish

/-- `blf_ctx`: four substitution boxes and `BLF_N + 2` subkeys. Everything that key and salt
change is in here. -/
structure BlfCtx where
  S : Vector (Vector UInt32 256) 4
  P : Vector UInt32 18

def boxIndex (x shift : UInt32) : Fin 256 := (x >>> shift).toUInt8.toFin

/-- The Feistel function `F(s, x)`: each byte of the word is looked up in a box of its own. -/
def F (s : Vector (Vector UInt32 256) 4) (x : UInt32) : UInt32 :=
  ((s[0].get (boxIndex x 24) + s[1].get (boxIndex x 16)) ^^^ s[2].get (boxIndex x 8)) +
    s[3].get (boxIndex x 0)

/-- `BLFRND(s, p, i, j, n)`: the new value of `i`. -/
def blfrnd (c : BlfCtx) (i j : UInt32) (n : Fin 18) : UInt32 := i ^^^ (F c.S j ^^^ c.P.get n)

/-- `caml_passe_blowfish_encipher` on the two words of a block, its sixteen calls of `BLFRND`
written out as in the source. -/
def blowfishEncipher (c : BlfCtx) (x : UInt32 × UInt32) : UInt32 × UInt32 :=
  let Xl := x.1 ^^^ c.P.get 0
  let Xr := blfrnd c x.2 Xl 1
  let Xl := blfrnd c Xl Xr 2
  let Xr := blfrnd c Xr Xl 3
  let Xl := blfrnd c Xl Xr 4
  let Xr := blfrnd c Xr Xl 5
  let Xl := blfrnd c Xl Xr 6
  let Xr := blfrnd c Xr Xl 7
  let Xl := blfrnd c Xl Xr 8
  let Xr := blfrnd c Xr Xl 9
  let Xl := blfrnd c Xl Xr 10
  let Xr := blfrnd c Xr Xl 11
  let Xl := blfrnd c Xl Xr 12
  let Xr := blfrnd c Xr Xl 13
  let Xl := blfrnd c Xl Xr 14
  let Xr := blfrnd c Xr Xl 15
  let Xl := blfrnd c Xl Xr 16
  (Xr ^^^ c.P.get 17, Xl)

/-- `caml_passe_blowfish_decipher` on the two words of a block, which takes the subkeys from the
other end. -/
def blowfishDecipher (c : BlfCtx) (x : UInt32 × UInt32) : UInt32 × UInt32 :=
  let Xl := x.1 ^^^ c.P.get 17
  let Xr := blfrnd c x.2 Xl 16
  let Xl := blfrnd c Xl Xr 15
  let Xr := blfrnd c Xr Xl 14
  let Xl := blfrnd c Xl Xr 13
  let Xr := blfrnd c Xr Xl 12
  let Xl := blfrnd c Xl Xr 11
  let Xr := blfrnd c Xr Xl 10
  let Xl := blfrnd c Xl Xr 9
  let Xr := blfrnd c Xr Xl 8
  let Xl := blfrnd c Xl Xr 7
  let Xr := blfrnd c Xr Xl 6
  let Xl := blfrnd c Xl Xr 5
  let Xr := blfrnd c Xr Xl 4
  let Xl := blfrnd c Xl Xr 3
  let Xr := blfrnd c Xr Xl 2
  let Xl := blfrnd c Xl Xr 1
  (Xr ^^^ c.P.get 0, Xl)

/-- `caml_passe_blowfish_initstate`: every context starts from the same tables. -/
def blowfishInitstate : BlfCtx := ⟨#v[initS0, initS1, initS2, initS3], initP⟩

/-- One turn of the loop in `stream2word`: rewind if the data is used up, then
read a byte and step. -/
def streamByte (data : Bytes) (databytes j : UInt16) : UInt8 × UInt16 :=
  let j := if j ≥ databytes then 0 else j
  (deref data j.toNat, j + 1)

/-- `temp = (temp << 8) | data[j]`, the step that builds a word out of four bytes. -/
def pushByte (temp : UInt32) (b : UInt8) : UInt32 := (temp <<< 8) ||| b.toUInt32

/-- `caml_passe_blowfish_stream2word`: four bytes, and the advanced cursor. -/
def blowfishStream2word (data : Bytes) (databytes current : UInt16) : UInt32 × UInt16 :=
  let b0 := streamByte data databytes current
  let b1 := streamByte data databytes b0.2
  let b2 := streamByte data databytes b1.2
  let b3 := streamByte data databytes b2.2
  (pushByte (pushByte (pushByte (pushByte 0 b0.1) b1.1) b2.1) b3.1, b3.2)

/-- The next `n` words of the stream from the cursor `j`, which starts again at the front when
the data is used up. -/
def streamWords (data : Bytes) (databytes : UInt16) : ℕ → UInt16 → List UInt32
  | 0, _ => []
  | n + 1, j =>
    let w := blowfishStream2word data databytes j
    w.1 :: streamWords data databytes n w.2

/-- The words an expansion XORs into the subkeys: one for each of them. -/
def keyWords (key : Bytes) (keybytes : UInt16) : List UInt32 := streamWords key keybytes 18 0

/-- First loop of both expansions: `c->P[i] = c->P[i] ^ temp`. It is the only place where the
key enters. -/
def xorKey (c : BlfCtx) (key : Bytes) (keybytes : UInt16) : BlfCtx :=
  { c with P := Vector.ofFn fun i => c.P.get i ^^^ (keyWords key keybytes).getD i.val 0 }

/-- What the remaining loops carry from block to block. -/
structure ExpandState where
  ctx : BlfCtx
  d : UInt32 × UInt32
  j : UInt16

/-- Mask the running block, encipher it and leave it in `d`. -/
def expandBlock (mask : UInt16 → (UInt32 × UInt32) × UInt16) (s : ExpandState) : ExpandState :=
  let m := mask s.j
  let d := (s.d.1 ^^^ m.1.1, s.d.2 ^^^ m.1.2)
  { s with d := blowfishEncipher s.ctx d, j := m.2 }

/-- The loops shared by both expansions. `mask` yields the two words that are
XORed into the running block before it is enciphered. -/
def expandLoops (mask : UInt16 → (UInt32 × UInt32) × UInt16) (c : BlfCtx) : BlfCtx :=
  let s := (List.finRange 9).foldl (fun s i =>
    let s := expandBlock mask s
    let P := (s.ctx.P.set (2 * i.val) s.d.1).set (2 * i.val + 1) s.d.2
    { s with ctx := { s.ctx with P := P } }) ⟨c, (0, 0), 0⟩
  let s := (List.finRange 4).foldl (fun s i =>
    (List.finRange 128).foldl (fun s k =>
      let s := expandBlock mask s
      let box := ((s.ctx.S.get i).set (2 * k.val) s.d.1).set (2 * k.val + 1) s.d.2
      { s with ctx := { s.ctx with S := s.ctx.S.set i.val box } }) s) s
  s.ctx

/-- `caml_passe_blowfish_expand0state`: nothing is mixed into the blocks that replace the
subkeys and the boxes. -/
def blowfishExpand0state (c : BlfCtx) (key : Bytes) (keybytes : UInt16) : BlfCtx :=
  expandLoops (fun j => ((0, 0), j)) (xorKey c key keybytes)

/-- `caml_passe_blowfish_expandstate`: the data stream is mixed into the blocks. -/
def blowfishExpandstate (c : BlfCtx) (data : Bytes) (databytes : UInt16)
    (key : Bytes) (keybytes : UInt16) : BlfCtx :=
  expandLoops (fun j =>
    let w0 := blowfishStream2word data databytes j
    let w1 := blowfishStream2word data databytes w0.2
    ((w0.1, w1.1), w1.2)) (xorKey c key keybytes)

/-- A cipher on `blocks` consecutive two-word blocks in place, as the calls on arrays of words
apply it. -/
def onBlocks (cipher : UInt32 × UInt32 → UInt32 × UInt32) : ℕ → List UInt32 → List UInt32
  | blocks + 1, x0 :: x1 :: rest =>
    let y := cipher (x0, x1)
    y.1 :: y.2 :: onBlocks cipher blocks rest
  | _, data => data

/-- `passe_blf_enc`: the blocks of an array of words, each enciphered in its place. -/
def blfEnc (c : BlfCtx) (blocks : ℕ) (data : List UInt32) : List UInt32 :=
  onBlocks (blowfishEncipher c) blocks data

@[simp] theorem length_onBlocks (cipher : UInt32 × UInt32 → UInt32 × UInt32) (blocks : ℕ)
    (data : List UInt32) : (onBlocks cipher blocks data).length = data.length := by
  fun_induction onBlocks cipher blocks data with
  | case1 blocks x0 x1 rest y ih => simp [ih]
  | case2 blocks data h => rfl

@[simp] theorem length_blfEnc (c : BlfCtx) (blocks : ℕ) (data : List UInt32) :
    (blfEnc c blocks data).length = data.length := length_onBlocks _ blocks data

@[simp] theorem length_streamWords (data : Bytes) (databytes : UInt16) (n : ℕ) (j : UInt16) :
    (streamWords data databytes n j).length = n := by
  induction n generalizing j with
  | zero => rfl
  | succ n ih => simp [streamWords, ih]

/-- The cursor `j` stands at byte `k` of the endless repetition of `databytes`
bytes: it is congruent to `k`, and may still be one past the end. -/
def AtPosition (databytes : UInt16) (k : ℕ) (j : UInt16) : Prop :=
  j.toNat ≤ databytes.toNat ∧ j.toNat % databytes.toNat = k % databytes.toNat

@[simp] theorem atPosition_zero (databytes : UInt16) : AtPosition databytes 0 0 :=
  ⟨Nat.zero_le _, rfl⟩

/-- One step of the reader: it yields the byte the cursor stands at and moves on. -/
theorem streamByte_spec (data : Bytes) {databytes j : UInt16} {k : ℕ}
    (hpos : 0 < databytes.toNat) (h : AtPosition databytes k j) :
    (streamByte data databytes j).1 = deref data (k % databytes.toNat) ∧
      AtPosition databytes (k + 1) (streamByte data databytes j).2 := by
  obtain ⟨hle, hmod⟩ := h
  have hcursor : (if j ≥ databytes then 0 else j).toNat = k % databytes.toNat := by
    by_cases hj : j ≥ databytes
    · have hn : databytes.toNat ≤ j.toNat := UInt16.le_iff_toNat_le.mp hj
      rw [if_pos hj, ← hmod, Nat.le_antisymm hle hn, Nat.mod_self]
      rfl
    · have hn : ¬ databytes.toNat ≤ j.toNat := fun hc => hj (UInt16.le_iff_toNat_le.mpr hc)
      rw [if_neg hj, ← hmod, Nat.mod_eq_of_lt (by omega)]
  have hlt : k % databytes.toNat < databytes.toNat := Nat.mod_lt _ hpos
  have hsize := databytes.toNat_lt
  refine ⟨?_, ?_⟩
  · simp only [streamByte, hcursor]
  · simp only [AtPosition, streamByte, UInt16.toNat_add, hcursor, UInt16.reduceToNat]
    rw [Nat.mod_eq_of_lt (by omega : k % databytes.toNat + 1 < 2 ^ 16)]
    exact ⟨hlt, by rw [Nat.mod_add_mod]⟩

theorem pushByte_toNat {temp : UInt32} (b : UInt8) (h : temp.toNat < 2 ^ 24) :
    (pushByte temp b).toNat = temp.toNat * 256 + b.toNat := by
  have hb := b.toNat_lt
  have hshift : (temp <<< (8 : UInt32)).toNat = temp.toNat <<< 8 := by
    rw [UInt32.toNat_shiftLeft]
    change temp.toNat <<< 8 % 2 ^ 32 = _
    rw [Nat.shiftLeft_eq, Nat.mod_eq_of_lt (by omega)]
  rw [pushByte, UInt32.toNat_or, hshift, UInt8.toNat_toUInt32,
    ← Nat.shiftLeft_add_eq_or_of_lt (by omega : b.toNat < 2 ^ 8), Nat.shiftLeft_eq]

/-- The big-endian word of four bytes. -/
def beWord (a b c d : UInt8) : UInt32 := pushByte (pushByte (pushByte (pushByte 0 a) b) c) d

theorem beWord_toNat (a b c d : UInt8) :
    (beWord a b c d).toNat = ((a.toNat * 256 + b.toNat) * 256 + c.toNat) * 256 + d.toNat := by
  have ha := a.toNat_lt
  have hb := b.toNat_lt
  have hc := c.toNat_lt
  have h1 : (pushByte 0 a).toNat = a.toNat := by
    rw [pushByte_toNat a (by decide)]
    simp
  have h2 : (pushByte (pushByte 0 a) b).toNat = (pushByte 0 a).toNat * 256 + b.toNat :=
    pushByte_toNat b (by omega)
  have h3 : (pushByte (pushByte (pushByte 0 a) b) c).toNat =
      (pushByte (pushByte 0 a) b).toNat * 256 + c.toNat :=
    pushByte_toNat c (by omega)
  rw [beWord, pushByte_toNat d (by omega), h3, h2, h1]

/-- A big-endian word determines its bytes, so equal words of two keys come from equal bytes. -/
theorem beWord_inj {a b c d a' b' c' d' : UInt8} (h : beWord a b c d = beWord a' b' c' d') :
    a = a' ∧ b = b' ∧ c = c' ∧ d = d' := by
  have hn := congrArg UInt32.toNat h
  rw [beWord_toNat, beWord_toNat] at hn
  have hb := b.toNat_lt
  have hc := c.toNat_lt
  have hd := d.toNat_lt
  have hb' := b'.toNat_lt
  have hc' := c'.toNat_lt
  have hd' := d'.toNat_lt
  simp only [← UInt8.toNat_inj]
  omega

/-- Byte `k` of the endless repetition of the data, which is what the reader and its cursor
amount to. -/
def streamAt (data : Bytes) (databytes : UInt16) (k : ℕ) : UInt8 :=
  deref data (k % databytes.toNat)

def wordAt (data : Bytes) (databytes : UInt16) (k : ℕ) : UInt32 :=
  beWord (streamAt data databytes k) (streamAt data databytes (k + 1))
    (streamAt data databytes (k + 2)) (streamAt data databytes (k + 3))

theorem blowfishStream2word_spec (data : Bytes) {databytes j : UInt16} {k : ℕ}
    (hpos : 0 < databytes.toNat) (h : AtPosition databytes k j) :
    (blowfishStream2word data databytes j).1 = wordAt data databytes k ∧
      AtPosition databytes (k + 4) (blowfishStream2word data databytes j).2 := by
  obtain ⟨h0, a1⟩ := streamByte_spec data hpos h
  obtain ⟨h1, a2⟩ := streamByte_spec data hpos a1
  obtain ⟨h2, a3⟩ := streamByte_spec data hpos a2
  obtain ⟨h3, a4⟩ := streamByte_spec data hpos a3
  refine ⟨?_, a4⟩
  simp only [blowfishStream2word, wordAt, beWord, streamAt, h0, h1, h2, h3]

/-- The whole run of the reader: word `i` starts at byte `4 * i`. -/
theorem streamWords_eq {data : Bytes} {databytes : UInt16} (hpos : 0 < databytes.toNat)
    (n k : ℕ) (j : UInt16) (h : AtPosition databytes k j) :
    streamWords data databytes n j =
      (List.range n).map fun i => wordAt data databytes (k + 4 * i) := by
  induction n generalizing k j with
  | zero => rfl
  | succ n ih =>
    obtain ⟨hword, hnext⟩ := blowfishStream2word_spec data hpos h
    simp only [streamWords, hword, ih (k + 4) _ hnext, List.range_succ_eq_map, List.map_cons,
      List.map_map, Nat.mul_zero, Nat.add_zero, List.cons.injEq, true_and]
    apply List.map_congr_left
    intro i _
    simp only [Function.comp_apply, Nat.succ_eq_add_one]
    rw [show k + 4 + 4 * i = k + 4 * (i + 1) by omega]

theorem keyWords_eq {key : Bytes} {keybytes : UInt16} (hpos : 0 < keybytes.toNat) :
    keyWords key keybytes = (List.range 18).map fun i => wordAt key keybytes (4 * i) := by
  rw [keyWords, streamWords_eq hpos 18 0 0 (atPosition_zero keybytes)]
  simp only [Nat.zero_add]

/-- Equal key words mean equal key streams over all 72 bytes the subkeys take. -/
theorem streamAt_eq_of_keyWords_eq {p q : Bytes} {m n : UInt16} (hm : 0 < m.toNat)
    (hn : 0 < n.toNat) (h : keyWords p m = keyWords q n) :
    ∀ k < 72, streamAt p m k = streamAt q n k := by
  intro k hk
  rw [keyWords_eq hm, keyWords_eq hn] at h
  have hword : wordAt p m (4 * (k / 4)) = wordAt q n (4 * (k / 4)) :=
    List.map_inj_left.mp h (k / 4) (List.mem_range.mpr (by omega))
  obtain ⟨h0, h1, h2, h3⟩ := beWord_inj hword
  have hr : k % 4 < 4 := Nat.mod_lt _ (by omega)
  rw [show k = 4 * (k / 4) + k % 4 by omega]
  interval_cases k % 4
  · exact h0
  · exact h1
  · exact h2
  · exact h3

end Passe.Blowfish
