import Passe.Runtime

/-!
# BLAKE2b as Argon2 uses it

`blake2b.c`, with the keyed mode, although Argon2 only ever calls it without a key. A
state holds the bytes buffered so far instead of a fixed buffer and its fill level. A
function that returns a negative code in C gives `none` here. The last section shows
that for every output length Argon2 can ask for none of these codes ever comes back
and the output has exactly that length; what both modes compute is in
`Passe.Blake2Stream`.
-/
namespace Passe.Blake2

/-- `load64`: eight bytes, least significant first. The source has a faster branch for
little-endian machines with the same value. -/
def load64 (src : Bytes) (ofs : ℕ) : UInt64 :=
  (deref src ofs).toUInt64 ||| (deref src (ofs + 1)).toUInt64 <<< 8 |||
    (deref src (ofs + 2)).toUInt64 <<< 16 ||| (deref src (ofs + 3)).toUInt64 <<< 24 |||
    (deref src (ofs + 4)).toUInt64 <<< 32 ||| (deref src (ofs + 5)).toUInt64 <<< 40 |||
    (deref src (ofs + 6)).toUInt64 <<< 48 ||| (deref src (ofs + 7)).toUInt64 <<< 56

def store32 (w : UInt32) : Bytes :=
  [w.toUInt8, (w >>> 8).toUInt8, (w >>> 16).toUInt8, (w >>> 24).toUInt8]

/-- Four bytes hold the whole word. -/
theorem store32_injective : Function.Injective store32 := by
  intro a b h
  simp only [store32, List.cons.injEq, and_true] at h
  obtain ⟨h0, h1, h2, h3⟩ := h
  have h0 := congrArg UInt8.toNat h0
  have h1 := congrArg UInt8.toNat h1
  have h2 := congrArg UInt8.toNat h2
  have h3 := congrArg UInt8.toNat h3
  simp only [UInt32.toNat_toUInt8, UInt32.toNat_shiftRight, UInt32.reduceToNat, Nat.reduceMod,
    Nat.shiftRight_eq_div_pow] at h0 h1 h2 h3
  have ha := a.toNat_lt
  have hb := b.toNat_lt
  apply UInt32.toNat_inj.mp
  omega

def store64 (w : UInt64) : Bytes :=
  [w.toUInt8, (w >>> 8).toUInt8, (w >>> 16).toUInt8, (w >>> 24).toUInt8, (w >>> 32).toUInt8,
    (w >>> 40).toUInt8, (w >>> 48).toUInt8, (w >>> 56).toUInt8]

def rotr64 (w c : UInt64) : UInt64 := (w >>> c) ||| (w <<< (64 - c))

def blake2bBlockbytes : ℕ := 128
def blake2bOutbytes : ℕ := 64
def blake2bKeybytes : ℕ := 64

def blake2bIV : Vector UInt64 8 := #v[
  0x6a09e667f3bcc908, 0xbb67ae8584caa73b, 0x3c6ef372fe94f82b, 0xa54ff53a5f1d36f1,
  0x510e527fade682d1, 0x9b05688c2b3e6c1f, 0x1f83d9abfb41bd6b, 0x5be0cd19137e2179]

def blake2bSigma : Vector (Vector (Fin 16) 16) 12 := #v[
  #v[0, 1, 2, 3, 4, 5, 6, 7, 8, 9, 10, 11, 12, 13, 14, 15],
  #v[14, 10, 4, 8, 9, 15, 13, 6, 1, 12, 0, 2, 11, 7, 5, 3],
  #v[11, 8, 12, 0, 5, 2, 15, 13, 10, 14, 3, 6, 7, 1, 9, 4],
  #v[7, 9, 3, 1, 13, 12, 11, 14, 2, 6, 5, 10, 4, 0, 15, 8],
  #v[9, 0, 5, 7, 2, 4, 10, 15, 14, 1, 11, 12, 6, 8, 3, 13],
  #v[2, 12, 6, 10, 0, 11, 8, 3, 4, 13, 7, 5, 15, 14, 1, 9],
  #v[12, 5, 1, 15, 14, 13, 4, 10, 0, 7, 6, 3, 9, 2, 8, 11],
  #v[13, 11, 7, 14, 12, 1, 3, 9, 5, 0, 15, 4, 8, 6, 2, 10],
  #v[6, 15, 14, 9, 11, 3, 0, 8, 12, 2, 13, 7, 1, 4, 10, 5],
  #v[10, 2, 8, 4, 7, 6, 1, 5, 15, 11, 9, 14, 3, 12, 13, 0],
  #v[0, 1, 2, 3, 4, 5, 6, 7, 8, 9, 10, 11, 12, 13, 14, 15],
  #v[14, 10, 4, 8, 9, 15, 13, 6, 1, 12, 0, 2, 11, 7, 5, 3]]

/-- `blake2b_state`. `buf` holds the `buflen` bytes that wait for compression. -/
structure Blake2bState where
  h : Vector UInt64 8
  t : UInt64 × UInt64
  f : UInt64 × UInt64
  buf : Bytes
  outlen : ℕ
  last_node : UInt8

def blake2bSetLastnode (S : Blake2bState) : Blake2bState := { S with f := (S.f.1, -1) }

def blake2bSetLastblock (S : Blake2bState) : Blake2bState :=
  let S := if S.last_node ≠ 0 then blake2bSetLastnode S else S
  { S with f := (-1, S.f.2) }

def blake2bIncrementCounter (S : Blake2bState) (inc : UInt64) : Blake2bState :=
  let t0 := S.t.1 + inc
  { S with t := (t0, S.t.2 + if t0 < inc then 1 else 0) }

/-- The parameter block of the sequential mode, as `init_param` reads it: the lengths of the digest
and of the key, and one leaf at depth one. -/
def blake2bKeyParam (digest_length key_length : UInt8) : Bytes :=
  [digest_length, key_length, 1, 1] ++ List.replicate 60 0

def blake2bParam (digest_length : UInt8) : Bytes := blake2bKeyParam digest_length 0

/-- `passe_blake2b_init_param`: the parameter block is xored into the initial vector, word by
word. -/
def blake2bInitParam (p : Bytes) : Blake2bState where
  h := Vector.ofFn fun i => blake2bIV.get i ^^^ load64 p (i.val * 8)
  t := (0, 0)
  f := (0, 0)
  buf := []
  outlen := (deref p 0).toNat
  last_node := 0

/-- `passe_blake2b_init`: the state of an unkeyed digest of `outlen` bytes, at least one and at
most 64. -/
def blake2bInit (outlen : ℕ) : Option Blake2bState :=
  if outlen = 0 ∨ outlen > blake2bOutbytes then none
  else some (blake2bInitParam (blake2bParam (UInt8.ofNat outlen)))

/-- The macro `G` of `blake2b_compress` on the working vector. -/
def G (m : Vector UInt64 16) (r : Fin 12) (i : Fin 8) (a b c d : Fin 16)
    (v : Vector UInt64 16) : Vector UInt64 16 :=
  let x := m.get ((blake2bSigma.get r).get ⟨2 * i.val, by omega⟩)
  let y := m.get ((blake2bSigma.get r).get ⟨2 * i.val + 1, by omega⟩)
  let v := v.set a (v.get a + v.get b + x)
  let v := v.set d (rotr64 (v.get d ^^^ v.get a) 32)
  let v := v.set c (v.get c + v.get d)
  let v := v.set b (rotr64 (v.get b ^^^ v.get c) 24)
  let v := v.set a (v.get a + v.get b + y)
  let v := v.set d (rotr64 (v.get d ^^^ v.get a) 16)
  let v := v.set c (v.get c + v.get d)
  v.set b (rotr64 (v.get b ^^^ v.get c) 63)

def round (m : Vector UInt64 16) (v : Vector UInt64 16) (r : Fin 12) : Vector UInt64 16 :=
  let v := G m r 0 0 4 8 12 v
  let v := G m r 1 1 5 9 13 v
  let v := G m r 2 2 6 10 14 v
  let v := G m r 3 3 7 11 15 v
  let v := G m r 4 0 5 10 15 v
  let v := G m r 5 1 6 11 12 v
  let v := G m r 6 2 7 8 13 v
  G m r 7 3 4 9 14 v

/-- The sixteen words of a block. Bytes behind the end of a short block count as zero. -/
def messageWords (block : Bytes) : Vector UInt64 16 :=
  Vector.ofFn fun i => load64 block (i.val * 8)

/-- What the rounds start from: the chaining value, and below it the constants with the
counter and the flags. -/
def workingVector (S : Blake2bState) : Vector UInt64 16 :=
  S.h ++ (#v[blake2bIV[0], blake2bIV[1], blake2bIV[2], blake2bIV[3], blake2bIV[4] ^^^ S.t.1,
    blake2bIV[5] ^^^ S.t.2, blake2bIV[6] ^^^ S.f.1, blake2bIV[7] ^^^ S.f.2] : Vector UInt64 8)

/-- `blake2b_compress`: twelve rounds on the working vector, both halves of which are added to
the chaining value. -/
def blake2bCompress (S : Blake2bState) (block : Bytes) : Blake2bState :=
  let v := (List.finRange 12).foldl (round (messageWords block)) (workingVector S)
  { S with h := Vector.ofFn fun i => S.h.get i ^^^ v.get (i.castLE (by decide)) ^^^
      v.get (i.natAdd 8) }

/-- The loop of `passe_blake2b_update` that compresses straight from the input.
The last block stays behind even when it is full. -/
def absorbBlocks (S : Blake2bState) (pin : Bytes) : Blake2bState × Bytes :=
  if pin.length > blake2bBlockbytes then
    absorbBlocks (blake2bCompress (blake2bIncrementCounter S 128) (pin.take blake2bBlockbytes))
      (pin.drop blake2bBlockbytes)
  else (S, pin)
  termination_by pin.length
  decreasing_by
    simp only [blake2bBlockbytes, List.length_drop] at *
    omega

/-- `passe_blake2b_update`. It keeps the last block back even when it is full, since only
`passe_blake2b_final` knows that nothing follows. -/
def blake2bUpdate (S : Blake2bState) (input : Bytes) : Option Blake2bState :=
  if input.length = 0 then some S
  else if S.f.1 ≠ 0 then none
  else if S.buf.length + input.length > blake2bBlockbytes then
    let fill := blake2bBlockbytes - S.buf.length
    let S := blake2bCompress (blake2bIncrementCounter S 128) (S.buf ++ input.take fill)
    let (S, pin) := absorbBlocks { S with buf := [] } (input.drop fill)
    some { S with buf := pin }
  else some { S with buf := S.buf ++ input }

/-- `passe_blake2b_final`: mark the last block, fill it up with zeros, compress it and cut the
digest to length. -/
def blake2bFinal (S : Blake2bState) (outlen : ℕ) : Option Bytes :=
  if outlen < S.outlen then none
  else if S.f.1 ≠ 0 then none
  else
    let S := blake2bSetLastblock (blake2bIncrementCounter S (UInt64.ofNat S.buf.length))
    let S := blake2bCompress S (S.buf ++ List.replicate (blake2bBlockbytes - S.buf.length) 0)
    let buffer := S.h.toList.flatMap store64
    some (buffer.take S.outlen)

/-- `passe_blake2b_init_key`: the key becomes a first block of the message. The return code of
that update is ignored. -/
def blake2bInitKey (outlen : ℕ) (key : Bytes) : Option Blake2bState :=
  if outlen = 0 ∨ outlen > blake2bOutbytes then none
  else if key.length = 0 ∨ key.length > blake2bKeybytes then none
  else
    let S := blake2bInitParam (blake2bKeyParam (UInt8.ofNat outlen) (UInt8.ofNat key.length))
    let block := key ++ List.replicate (blake2bBlockbytes - key.length) 0
    some ((blake2bUpdate S block).getD S)

/-- `passe_blake2b`: a digest in one call. The checks stand before the state is set up, and a
refusal leaves no state behind. -/
def blake2bKeyed (outlen : ℕ) (input key : Bytes) : Option Bytes := do
  guard (¬ (outlen = 0 ∨ outlen > blake2bOutbytes))
  guard (¬ key.length > blake2bKeybytes)
  let S ← if key.length > 0 then blake2bInitKey outlen key else blake2bInit outlen
  let S ← blake2bUpdate S input
  blake2bFinal S outlen

/-- `passe_blake2b` without a key, as the long digest calls it for every piece behind the first.
-/
def blake2b (outlen : ℕ) (input : Bytes) : Option Bytes := blake2bKeyed outlen input []

/-- The part of `passe_blake2b_long` behind its first digest: half of each digest is handed out
and the whole of it hashed again. -/
def produceRest (toproduce : ℕ) (out_buffer : Bytes) : Option Bytes :=
  if toproduce > blake2bOutbytes then do
    let out_buffer ← blake2b blake2bOutbytes out_buffer
    let rest ← produceRest (toproduce - blake2bOutbytes / 2) out_buffer
    return out_buffer.take (blake2bOutbytes / 2) ++ rest
  else do
    let out_buffer ← blake2b toproduce out_buffer
    return out_buffer.take toproduce
  termination_by toproduce
  decreasing_by
    simp only [blake2bOutbytes] at *
    omega

/-- `passe_blake2b_long`: a digest of any length below `2 ^ 32`, chained out of digests of 64
bytes when one is not enough. -/
def blake2bLong (outlen : ℕ) (input : Bytes) : Option Bytes := do
  guard (¬ outlen > 2 ^ 32 - 1)
  let outlen_bytes := store32 (UInt32.ofNat outlen)
  if outlen ≤ blake2bOutbytes then
    let S ← blake2bInit outlen
    let S ← blake2bUpdate S outlen_bytes
    let S ← blake2bUpdate S input
    blake2bFinal S outlen
  else
    let S ← blake2bInit blake2bOutbytes
    let S ← blake2bUpdate S outlen_bytes
    let S ← blake2bUpdate S input
    let out_buffer ← blake2bFinal S blake2bOutbytes
    let rest ← produceRest (outlen - blake2bOutbytes / 2) out_buffer
    return out_buffer.take (blake2bOutbytes / 2) ++ rest

/-- A state that accepts input and will give `n` bytes. The calls keep it, so none of them fails
once the first has not. -/
structure Ready (S : Blake2bState) (n : ℕ) : Prop where
  f_zero : S.f.1 = 0
  outlen_eq : S.outlen = n

theorem blake2bInit_ready {n : ℕ} (hpos : 0 < n) (hle : n ≤ blake2bOutbytes) :
    ∃ S, blake2bInit n = some S ∧ Ready S n := by
  refine ⟨_, if_neg (by omega), rfl, ?_⟩
  unfold blake2bOutbytes at hle
  exact UInt8.toNat_ofNat_of_lt (by rw [UInt8.size]; omega)

section
variable {S : Blake2bState} {n : ℕ}

theorem Ready.compress (h : Ready S n) (inc : UInt64) (block : Bytes) :
    Ready (blake2bCompress (blake2bIncrementCounter S inc) block) n :=
  ⟨h.f_zero, h.outlen_eq⟩

theorem Ready.withBuf (h : Ready S n) (buf : Bytes) : Ready { S with buf := buf } n :=
  ⟨h.f_zero, h.outlen_eq⟩

theorem Ready.absorbBlocks (h : Ready S n) (pin : Bytes) : Ready (absorbBlocks S pin).1 n := by
  fun_induction Blake2.absorbBlocks S pin with
  | case1 S pin hlong ih => exact ih (h.compress _ _)
  | case2 S pin hshort => exact h

theorem Ready.update (h : Ready S n) (input : Bytes) :
    ∃ S', blake2bUpdate S input = some S' ∧ Ready S' n := by
  unfold blake2bUpdate
  by_cases hempty : input.length = 0
  · exact ⟨S, if_pos hempty, h⟩
  rw [if_neg hempty, if_neg (not_not.mpr h.f_zero)]
  by_cases hfull : S.buf.length + input.length > blake2bBlockbytes
  · rw [if_pos hfull]
    exact ⟨_, rfl, (((h.compress _ _).withBuf []).absorbBlocks _).withBuf _⟩
  · rw [if_neg hfull]
    exact ⟨_, rfl, h.withBuf _⟩

theorem length_flatMap_store64 (ws : List UInt64) :
    (ws.flatMap store64).length = 8 * ws.length := by
  induction ws with
  | nil => rfl
  | cons w ws ih =>
    rw [List.flatMap_cons, List.length_append, ih, List.length_cons]
    simp only [store64, List.length_cons, List.length_nil]
    omega

@[simp] theorem blake2bSetLastblock_outlen (S : Blake2bState) :
    (blake2bSetLastblock S).outlen = S.outlen := by
  unfold blake2bSetLastblock
  by_cases hnode : S.last_node ≠ 0
  · rw [if_pos hnode]
    rfl
  · rw [if_neg hnode]

theorem Ready.final (h : Ready S n) (hle : n ≤ blake2bOutbytes) :
    ∃ out, blake2bFinal S n = some out ∧ out.length = n := by
  unfold blake2bFinal
  rw [if_neg (by rw [h.outlen_eq]; omega), if_neg (not_not.mpr h.f_zero)]
  refine ⟨_, rfl, ?_⟩
  rw [List.length_take, length_flatMap_store64, Vector.length_toList]
  simp only [blake2bCompress, blake2bSetLastblock_outlen, blake2bIncrementCounter, h.outlen_eq]
  exact Nat.min_eq_left hle

end

theorem blake2b_length {n : ℕ} (hpos : 0 < n) (hle : n ≤ blake2bOutbytes) (input : Bytes) :
    ∃ out, blake2b n input = some out ∧ out.length = n := by
  obtain ⟨S, hinit, hS⟩ := blake2bInit_ready hpos hle
  obtain ⟨S', hupdate, hS'⟩ := hS.update input
  obtain ⟨out, hfinal, hout⟩ := hS'.final hle
  refine ⟨out, ?_, hout⟩
  simp [blake2b, blake2bKeyed, hinit, hupdate, hfinal,
    show ¬ (n = 0 ∨ n > blake2bOutbytes) by omega]

theorem produceRest_length {n : ℕ} (hpos : 0 < n) (out_buffer : Bytes) :
    ∃ out, produceRest n out_buffer = some out ∧ out.length = n := by
  fun_induction produceRest n out_buffer with
  | case1 n out_buffer hlong ih =>
    obtain ⟨digest, hdigest, hlength⟩ :=
      blake2b_length (by decide : 0 < blake2bOutbytes) (Nat.le_refl _) out_buffer
    have hhalf : blake2bOutbytes / 2 = 32 := rfl
    have h64 : blake2bOutbytes = 64 := rfl
    obtain ⟨rest, hrest, hrestLength⟩ := ih digest (by omega)
    refine ⟨digest.take (blake2bOutbytes / 2) ++ rest, by simp [hdigest, hrest], ?_⟩
    rw [List.length_append, List.length_take, hlength, hrestLength]
    omega
  | case2 n out_buffer hshort =>
    obtain ⟨digest, hdigest, hlength⟩ := blake2b_length hpos (by omega) out_buffer
    refine ⟨digest.take n, by simp [hdigest], ?_⟩
    rw [List.length_take, hlength, Nat.min_self]

/-- The long digest never fails on the lengths a tag can have. -/
theorem blake2bLong_length {n : ℕ} (hpos : 0 < n) (hle : n ≤ 2 ^ 32 - 1) (input : Bytes) :
    ∃ out, blake2bLong n input = some out ∧ out.length = n := by
  have h64 : blake2bOutbytes = 64 := rfl
  have hhalf : blake2bOutbytes / 2 = 32 := rfl
  have hguard : (guard (¬ n > 2 ^ 32 - 1) : Option Unit) = some () := if_pos (by omega)
  by_cases hshort : n ≤ blake2bOutbytes
  · obtain ⟨S, hinit, hS⟩ := blake2bInit_ready hpos hshort
    obtain ⟨S', hupdate, hS'⟩ := hS.update (store32 (UInt32.ofNat n))
    obtain ⟨S'', hupdate', hS''⟩ := hS'.update input
    obtain ⟨out, hfinal, hout⟩ := hS''.final hshort
    refine ⟨out, ?_, hout⟩
    rw [blake2bLong, hguard]
    simp [hinit, hupdate, hupdate', hfinal, hshort]
  · obtain ⟨S, hinit, hS⟩ := blake2bInit_ready (by decide : 0 < blake2bOutbytes) (Nat.le_refl _)
    obtain ⟨S', hupdate, hS'⟩ := hS.update (store32 (UInt32.ofNat n))
    obtain ⟨S'', hupdate', hS''⟩ := hS'.update input
    obtain ⟨digest, hfinal, hlength⟩ := hS''.final (Nat.le_refl _)
    obtain ⟨rest, hrest, hrestLength⟩ :=
      produceRest_length (by omega : 0 < n - blake2bOutbytes / 2) digest
    refine ⟨digest.take (blake2bOutbytes / 2) ++ rest, ?_, ?_⟩
    · rw [blake2bLong, hguard]
      simp [hinit, hupdate, hupdate', hfinal, hshort, hrest]
    · rw [List.length_append, List.length_take, hlength, hrestLength]
      omega

end Passe.Blake2
