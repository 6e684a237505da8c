import Passe.Blake2b
import Passe.Chunks

/-!
# BLAKE2b as a function of the message

The streaming calls of `blake2b.c` keep a buffer and a counter of two words. What
they compute is a function of the message alone, written here without either: the
blocks in order, each with the number of bytes up to its end, and the last one
padded and marked. The keyed mode puts a block with the key in front, and the long
digest chains full digests and keeps half of each.
-/
namespace Passe.Blake2
open Chunks

/-- The counter as one number: the two words count bytes together, the second one in units of
`2 ^ 64`. -/
def counterWords (t : ℕ) : UInt64 × UInt64 := (UInt64.ofNat t, UInt64.ofNat (t / 2 ^ 64))

/-- `blake2b_compress` on the chaining value, with `t` bytes so far. The buffer and the length
of the digest play no part in it. -/
def compressWords (h : Vector UInt64 8) (t : ℕ) (f0 : UInt64) (block : Bytes) : Vector UInt64 8 :=
  (blake2bCompress ⟨h, counterWords t, (f0, 0), [], 0, 0⟩ block).h

/-- All blocks but the last, the last one of the message, and the padding behind it. -/
def hashMessage (h : Vector UInt64 8) (msg : Bytes) : Vector UInt64 8 :=
  let k := (msg.length - 1) / 128
  let h := (List.range k).foldl
    (fun h i => compressWords h (128 * (i + 1)) 0 ((msg.drop (128 * i)).take 128)) h
  let last := msg.drop (128 * k)
  compressWords h msg.length (-1) (last ++ List.replicate (128 - last.length) 0)

/-- The chaining value before any input: the initial vector, xored word by word with the
parameter block `p`. -/
def paramWords (p : Bytes) : Vector UInt64 8 :=
  Vector.ofFn fun i => blake2bIV.get i ^^^ load64 p (i.val * 8)

def digestWith (p : Bytes) (outlen : ℕ) (msg : Bytes) : Bytes :=
  ((hashMessage (paramWords p) msg).toList.flatMap store64).take outlen

/-- The digest of a message in the unkeyed mode, as the recurrence over its blocks. It mentions
no buffer and no calls. -/
def digest (outlen : ℕ) (msg : Bytes) : Bytes :=
  digestWith (blake2bParam (UInt8.ofNat outlen)) outlen msg

/-- The carry of `blake2b_increment_counter` is the carry of the number. -/
theorem blake2bIncrementCounter_eq (S : Blake2bState) (t inc : ℕ) (ht : S.t = counterWords t)
    (hinc : inc < 2 ^ 64) :
    blake2bIncrementCounter S (UInt64.ofNat inc) = { S with t := counterWords (t + inc) } := by
  have hlow : (UInt64.ofNat t + UInt64.ofNat inc) = UInt64.ofNat (t + inc) :=
    (UInt64.ofNat_add t inc).symm
  have hcarry : UInt64.ofNat (t + inc) < UInt64.ofNat inc ↔
      (t + inc) / 2 ^ 64 = t / 2 ^ 64 + 1 := by
    rw [UInt64.lt_iff_toNat_lt, UInt64.toNat_ofNat', UInt64.toNat_ofNat']
    omega
  have hhigh : UInt64.ofNat (t / 2 ^ 64) +
      (if UInt64.ofNat (t + inc) < UInt64.ofNat inc then 1 else 0) =
      UInt64.ofNat ((t + inc) / 2 ^ 64) := by
    by_cases hlt : UInt64.ofNat (t + inc) < UInt64.ofNat inc
    · rw [if_pos hlt, hcarry.mp hlt, UInt64.ofNat_add]
      rfl
    · have hsame : (t + inc) / 2 ^ 64 = t / 2 ^ 64 := by
        rw [hcarry] at hlt
        omega
      rw [if_neg hlt, hsame, UInt64.add_zero]
  simp only [blake2bIncrementCounter, ht, counterWords, hlow, hhigh]

/-- One full block, as `passe_blake2b_update` takes it in: the counter moves first, and then the
block is compressed. -/
def absorbBlock (S : Blake2bState) (block : Bytes) : Blake2bState :=
  blake2bCompress (blake2bIncrementCounter S 128) block

theorem absorbBlocks_eq (S : Blake2bState) (pin : Bytes) :
    absorbBlocks S pin = absorb absorbBlock 127 S pin := by
  fun_induction absorbBlocks S pin with
  | case1 S pin hlong ih =>
    rw [absorb_of_lt hlong]
    exact ih
  | case2 S pin hshort => exact (absorb_of_le (Nat.le_of_not_lt hshort)).symm

/-- A chaining value with the number of bytes that went into it: all that is left of the blocks
already taken in. -/
abbrev Chain := Vector UInt64 8 × ℕ

def chainBlock (c : Chain) (block : Bytes) : Chain :=
  (compressWords c.1 (c.2 + 128) 0 block, c.2 + 128)

/-- The state of a digest of `n` bytes that has absorbed `c` and buffers `buf`. -/
def stateOf (n : ℕ) (c : Chain) (buf : Bytes) : Blake2bState :=
  ⟨c.1, counterWords c.2, (0, 0), buf, n, 0⟩

section Stream
variable {n : ℕ} {c : Chain} {buf : Bytes}

@[simp] theorem absorbBlock_stateOf (n : ℕ) (c : Chain) (buf block : Bytes) :
    absorbBlock (stateOf n c buf) block = stateOf n (chainBlock c block) buf := by
  have hcounter : blake2bIncrementCounter (stateOf n c buf) 128 =
      { stateOf n c buf with t := counterWords (c.2 + 128) } :=
    blake2bIncrementCounter_eq _ c.2 128 rfl (by omega)
  rw [absorbBlock, hcounter]
  rfl

theorem absorb_stateOf (n : ℕ) (c : Chain) (input : Bytes) :
    absorb absorbBlock 127 (stateOf n c []) input =
      (stateOf n (absorb chainBlock 127 c input).1 [], (absorb chainBlock 127 c input).2) := by
  have hrel : (absorb absorbBlock 127 (stateOf n c []) input).1 =
      stateOf n (absorb chainBlock 127 c input).1 [] ∧
      (absorb absorbBlock 127 (stateOf n c []) input).2 = (absorb chainBlock 127 c input).2 :=
    absorb_rel (R := fun S c => S = stateOf n c [])
      (fun hS => hS ▸ absorbBlock_stateOf n _ [] _) rfl
  exact Prod.ext hrel.1 hrel.2

/-- `passe_blake2b_update` continues the stream: how the input was cut into calls leaves no
trace in the state. -/
theorem blake2bUpdate_stateOf (hbuf : buf.length ≤ 128) (input : Bytes) :
    blake2bUpdate (stateOf n c buf) input =
      some (stateOf n (absorb chainBlock 127 c (buf ++ input)).1
        (absorb chainBlock 127 c (buf ++ input)).2) := by
  have h128 : blake2bBlockbytes = 128 := rfl
  have hopen : (stateOf n c buf).f.1 = 0 := rfl
  have hbuffered : (stateOf n c buf).buf = buf := rfl
  unfold blake2bUpdate
  by_cases hempty : input.length = 0
  · rw [if_pos hempty, List.eq_nil_of_length_eq_zero hempty, List.append_nil, absorb_of_le hbuf]
  rw [if_neg hempty, if_neg (not_not.mpr hopen), hbuffered, h128]
  by_cases hfull : buf.length + input.length > 128
  · have hlong : 127 + 1 < (buf ++ input).length := by
      rw [List.length_append]
      exact hfull
    have htake : (buf ++ input).take (127 + 1) = buf ++ input.take (128 - buf.length) := by
      rw [List.take_append, List.take_of_length_le hbuf]
    have hdrop : (buf ++ input).drop (127 + 1) = input.drop (128 - buf.length) := by
      rw [List.drop_append, List.drop_of_length_le hbuf, List.nil_append]
    have hblock : ∀ block, blake2bCompress (blake2bIncrementCounter (stateOf n c buf) 128) block =
        stateOf n (chainBlock c block) buf := absorbBlock_stateOf n c buf
    have hclear : ∀ c, { stateOf n c buf with buf := [] } = stateOf n c [] := fun _ => rfl
    rw [if_pos hfull, absorb_of_lt hlong, htake, hdrop]
    simp only [hblock, hclear, absorbBlocks_eq, absorb_stateOf]
    rfl
  · have hfits : (buf ++ input).length ≤ 127 + 1 := by
      rw [List.length_append]
      omega
    rw [absorb_of_le hfits]
    exact if_neg hfull

/-- All pieces of the input, one after the other. -/
theorem foldlM_blake2bUpdate (pieces : List Bytes) (hbuf : buf.length ≤ 128) :
    pieces.foldlM blake2bUpdate (stateOf n c buf) =
      some (stateOf n (absorb chainBlock 127 c (buf ++ pieces.flatten)).1
        (absorb chainBlock 127 c (buf ++ pieces.flatten)).2) := by
  induction pieces generalizing c buf with
  | nil =>
    rw [List.flatten_nil, List.append_nil, absorb_of_le hbuf]
    rfl
  | cons piece pieces ih =>
    rw [List.foldlM_cons, blake2bUpdate_stateOf hbuf, List.flatten_cons, ← List.append_assoc,
      absorb_append chainBlock 127 c (buf ++ piece)]
    exact ih (length_absorb_le chainBlock 127 c (buf ++ piece))

/-- The blocks before the last one, with the bytes counted. -/
theorem foldl_chainBlock (h : Vector UInt64 8) (msg : Bytes) (k : ℕ) :
    (List.range k).foldl (fun c i => chainBlock c ((msg.drop ((127 + 1) * i)).take (127 + 1))) (h, 0) =
      ((List.range k).foldl
        (fun h i => compressWords h (128 * (i + 1)) 0 ((msg.drop (128 * i)).take 128)) h,
        128 * k) := by
  induction k with
  | zero => rfl
  | succ k ih =>
    rw [List.range_succ, List.foldl_append, List.foldl_append, ih]
    rfl

/-- `passe_blake2b_final` on the stream so far: the bytes that still wait are the last block,
padded and flagged. -/
theorem blake2bFinal_stateOf (h : Vector UInt64 8) (msg : Bytes) :
    blake2bFinal (stateOf n (absorb chainBlock 127 (h, 0) msg).1
      (absorb chainBlock 127 (h, 0) msg).2) n =
      some (((hashMessage h msg).toList.flatMap store64).take n) := by
  have hlast : (msg.drop (128 * ((msg.length - 1) / 128))).length ≤ 128 := by
    rw [List.length_drop]
    omega
  have hcount : 128 * ((msg.length - 1) / 128) +
      (msg.drop (128 * ((msg.length - 1) / 128))).length = msg.length := by
    rw [List.length_drop]
    omega
  rw [absorb_eq, foldl_chainBlock]
  unfold hashMessage
  simp only
  generalize msg.drop (128 * ((msg.length - 1) / 128)) = last at hlast hcount ⊢
  generalize (List.range ((msg.length - 1) / 128)).foldl _ h = h' at ⊢
  have hcounter := blake2bIncrementCounter_eq (stateOf n (h', 128 * ((msg.length - 1) / 128)) last)
    (128 * ((msg.length - 1) / 128)) last.length rfl (by omega)
  rw [hcount] at hcounter
  have hopen : (stateOf n (h', 128 * ((msg.length - 1) / 128)) last).f.1 = 0 := rfl
  have houtlen : (stateOf n (h', 128 * ((msg.length - 1) / 128)) last).outlen = n := rfl
  have hbuf : (stateOf n (h', 128 * ((msg.length - 1) / 128)) last).buf = last := rfl
  rw [blake2bFinal, houtlen, if_neg (Nat.lt_irrefl n), if_neg (not_not.mpr hopen), hbuf, hcounter]
  rfl

/-- The state that a parameter block gives has absorbed nothing. -/
theorem blake2bInitParam_eq {n : ℕ} (hle : n ≤ 64) (key_length : UInt8) :
    blake2bInitParam (blake2bKeyParam (UInt8.ofNat n) key_length) =
      stateOf n (paramWords (blake2bKeyParam (UInt8.ofNat n) key_length), 0) [] := by
  have houtlen : (deref (blake2bKeyParam (UInt8.ofNat n) key_length) 0).toNat = n :=
    UInt8.toNat_ofNat_of_lt' (by omega : n < 256)
  have hzero : counterWords 0 = (0, 0) := by
    rw [counterWords, Nat.zero_div]
    rfl
  simp only [blake2bInitParam, stateOf, paramWords, houtlen, hzero]

theorem blake2bInit_eq {n : ℕ} (hpos : 0 < n) (hle : n ≤ 64) :
    blake2bInit n = some (stateOf n (paramWords (blake2bParam (UInt8.ofNat n)), 0) []) := by
  have h64 : blake2bOutbytes = 64 := rfl
  rw [blake2bInit, if_neg (by omega), blake2bParam, blake2bInitParam_eq hle]

/-- From a fresh state, the digest of the message in whatever pieces it comes. -/
theorem stream_stateOf (h : Vector UInt64 8) (pieces : List Bytes) :
    ((pieces.foldlM blake2bUpdate (stateOf n (h, 0) [])).bind fun S => blake2bFinal S n) =
      some (((hashMessage h pieces.flatten).toList.flatMap store64).take n) := by
  have hempty : ([] : Bytes).length ≤ 128 := Nat.zero_le 128
  rw [foldlM_blake2bUpdate _ hempty, Option.bind_some, List.nil_append]
  exact blake2bFinal_stateOf h pieces.flatten

/-- The streaming calls compute the digest of the message, whatever the number of calls and
however the message is cut. -/
theorem stream_eq_digest (hpos : 0 < n) (hle : n ≤ 64) (pieces : List Bytes) :
    (do
      let S ← blake2bInit n
      let S ← pieces.foldlM blake2bUpdate S
      blake2bFinal S n) = some (digest n pieces.flatten) := by
  rw [blake2bInit_eq hpos hle]
  exact stream_stateOf _ pieces

theorem stream_eq_digest_three : (do
    let S ← blake2bInit 64
    let S ← [[1], [], [2, 3]].foldlM blake2bUpdate S
    blake2bFinal S 64) = some (digest 64 [1, 2, 3]) :=
  stream_eq_digest (by decide) (by decide) [[1], [], [2, 3]]

/-- One update on a state that buffers the start of the message. -/
theorem update_final_stateOf (h : Vector UInt64 8) (hbuf : buf.length ≤ 128) (input : Bytes) :
    ((blake2bUpdate (stateOf n (h, 0) buf) input).bind fun S => blake2bFinal S n) =
      some (((hashMessage h (buf ++ input)).toList.flatMap store64).take n) := by
  rw [blake2bUpdate_stateOf hbuf, Option.bind_some]
  exact blake2bFinal_stateOf h (buf ++ input)

theorem blake2b_eq (hpos : 0 < n) (hle : n ≤ 64) (input : Bytes) :
    blake2b n input = some (digest n input) := by
  have hguard : (guard (¬ (n = 0 ∨ n > blake2bOutbytes)) : Option Unit) = some () :=
    if_pos (by unfold blake2bOutbytes; omega)
  have hnokey : ¬ ([] : Bytes).length > 0 := Nat.lt_irrefl 0
  have hguard' : (guard (¬ ([] : Bytes).length > blake2bKeybytes) : Option Unit) = some () := rfl
  have hempty : ([] : Bytes).length ≤ 128 := Nat.zero_le 128
  rw [blake2b, blake2bKeyed, hguard, hguard', if_neg hnokey, blake2bInit_eq hpos hle]
  exact update_final_stateOf _ hempty input

theorem length_digest (hpos : 0 < n) (hle : n ≤ 64) (msg : Bytes) : (digest n msg).length = n := by
  obtain ⟨out, hout, hlength⟩ := blake2b_length hpos hle msg
  rw [blake2b_eq hpos hle] at hout
  rw [Option.some.inj hout, hlength]

end Stream

/-- The block that stands for the key in front of the message: the key padded with zeros, or
nothing at all. -/
def keyBlock (key : Bytes) : Bytes :=
  if key.length > 0 then key ++ List.replicate (128 - key.length) 0 else []

section Keyed
variable {n : ℕ} {key : Bytes}

theorem blake2bInitKey_eq (hpos : 0 < n) (hle : n ≤ 64) (hkey : 0 < key.length)
    (hkeyle : key.length ≤ 64) :
    blake2bInitKey n key = some (stateOf n (paramWords
      (blake2bKeyParam (UInt8.ofNat n) (UInt8.ofNat key.length)), 0) (keyBlock key)) := by
  have hempty : ([] : Bytes).length ≤ 128 := Nat.zero_le 128
  have hblock : keyBlock key = key ++ List.replicate (blake2bBlockbytes - key.length) 0 :=
    if_pos hkey
  have hlength : (keyBlock key).length ≤ 127 + 1 := by
    rw [hblock, List.length_append, List.length_replicate, blake2bBlockbytes]
    omega
  have hupdate := blake2bUpdate_stateOf (n := n) (c := (paramWords
    (blake2bKeyParam (UInt8.ofNat n) (UInt8.ofNat key.length)), 0)) hempty (keyBlock key)
  rw [List.nil_append, absorb_of_le hlength] at hupdate
  rw [blake2bInitKey, if_neg (by unfold blake2bOutbytes; omega),
    if_neg (by unfold blake2bKeybytes; omega)]
  simp [blake2bInitParam_eq hle, ← hblock, hupdate]

/-- The whole of `passe_blake2b`, with a key or without: a key only puts one block in front of
the message. -/
theorem blake2bKeyed_eq (hpos : 0 < n) (hle : n ≤ 64) (hkey : key.length ≤ 64) (input : Bytes) :
    blake2bKeyed n input key = some (digestWith
      (blake2bKeyParam (UInt8.ofNat n) (UInt8.ofNat key.length)) n (keyBlock key ++ input)) := by
  have hguard : (guard (¬ (n = 0 ∨ n > blake2bOutbytes)) : Option Unit) = some () :=
    if_pos (by unfold blake2bOutbytes; omega)
  have hguard' : (guard (¬ key.length > blake2bKeybytes) : Option Unit) = some () :=
    if_pos (by unfold blake2bKeybytes; omega)
  rw [blake2bKeyed, hguard, hguard']
  by_cases hpresent : key.length > 0
  · have hlength : (keyBlock key).length ≤ 128 := by
      rw [keyBlock, if_pos hpresent, List.length_append, List.length_replicate]
      omega
    rw [if_pos hpresent, blake2bInitKey_eq hpos hle hpresent hkey]
    exact update_final_stateOf _ hlength input
  · have hnil : key = [] := List.eq_nil_of_length_eq_zero (by omega)
    have hempty : ([] : Bytes).length ≤ 128 := Nat.zero_le 128
    subst hnil
    rw [if_neg hpresent, blake2bInit_eq hpos hle]
    exact update_final_stateOf _ hempty input

theorem blake2bKeyed_eq_oneByteKey : blake2bKeyed 32 [0x61, 0x62] [0x6b] =
    some (digestWith (blake2bKeyParam 32 1) 32 (0x6b :: List.replicate 127 0 ++ [0x61, 0x62])) :=
  blake2bKeyed_eq (by decide) (by decide) (by decide) [0x61, 0x62]

end Keyed

/-- A digest of any length: halves of a chain of full digests, and a last one. -/
def longDigest (outlen : ℕ) (msg : Bytes) : Bytes :=
  let msg := store32 (UInt32.ofNat outlen) ++ msg
  if outlen ≤ 64 then digest outlen msg
  else
    let r := (outlen - 33) / 32
    (List.range r).flatMap (fun i => ((digest 64)^[i + 1] msg).take 32) ++
      digest (outlen - 32 * r) ((digest 64)^[r] msg)

section Long
variable {n : ℕ}

/-- The digests behind the one in the buffer. -/
theorem produceRest_eq (hn : 32 < n) (out_buffer : Bytes) :
    produceRest n out_buffer =
      some ((List.range ((n - 33) / 32)).flatMap
          (fun i => ((digest 64)^[i + 1] out_buffer).take 32) ++
        digest (n - 32 * ((n - 33) / 32)) ((digest 64)^[(n - 33) / 32] out_buffer)) := by
  have h64 : blake2bOutbytes = 64 := rfl
  fun_induction produceRest n out_buffer with
  | case1 n out_buffer hlong ih =>
    have hcount : (n - 33) / 32 = (n - blake2bOutbytes / 2 - 33) / 32 + 1 := by omega
    have hlast : n - 32 * ((n - blake2bOutbytes / 2 - 33) / 32 + 1) =
        n - blake2bOutbytes / 2 - 32 * ((n - blake2bOutbytes / 2 - 33) / 32) := by omega
    have hdigest : blake2b blake2bOutbytes out_buffer = some (digest 64 out_buffer) :=
      blake2b_eq (by decide) (Nat.le_refl 64) out_buffer
    have hrest := ih (digest 64 out_buffer) (by omega)
    rw [hdigest, Option.bind_eq_bind, Option.bind_some, hrest, hcount, hlast,
      List.range_succ_eq_map, List.flatMap_cons, List.flatMap_map, List.append_assoc]
    rfl
  | case2 n out_buffer hshort =>
    have hcount : (n - 33) / 32 = 0 := by omega
    rw [blake2b_eq (by omega) (by omega), hcount]
    simp only [Option.bind_eq_bind, Option.bind_some, Option.pure_def, List.range_zero,
      List.flatMap_nil, List.nil_append, Nat.mul_zero, Nat.sub_zero, Function.iterate_zero, id]
    rw [List.take_of_length_le (length_digest (by omega) (by omega) out_buffer).le]

/-- The first digest of `passe_blake2b_long`: the length in front of the input. -/
theorem firstDigest_eq {k : ℕ} (hpos : 0 < k) (hle : k ≤ 64) (outlen_bytes input : Bytes) :
    (do
      let S ← blake2bInit k
      let S ← blake2bUpdate S outlen_bytes
      let S ← blake2bUpdate S input
      blake2bFinal S k) = some (digest k (outlen_bytes ++ input)) := by
  have hstream := stream_stateOf (n := k) (paramWords (blake2bParam (UInt8.ofNat k)))
    [outlen_bytes, input]
  simp only [List.foldlM_cons, List.foldlM_nil, List.flatten_cons, List.flatten_nil,
    List.append_nil, Option.bind_eq_bind, Option.pure_def, Option.bind_fun_some,
    Option.bind_assoc] at hstream
  rw [blake2bInit_eq hpos hle, Option.bind_eq_bind, Option.bind_some]
  exact hstream

/-- `passe_blake2b_long` computes the long digest, for every length that a word can announce. -/
theorem blake2bLong_eq (hpos : 0 < n) (hle : n ≤ 2 ^ 32 - 1) (input : Bytes) :
    blake2bLong n input = some (longDigest n input) := by
  have hguard : (guard (¬ n > 2 ^ 32 - 1) : Option Unit) = some () := if_pos (by omega)
  have h64 : blake2bOutbytes = 64 := rfl
  rw [blake2bLong, hguard, longDigest]
  by_cases hshort : n ≤ 64
  · rw [if_pos hshort]
    simp only [h64, if_pos hshort]
    exact firstDigest_eq hpos hshort _ _
  · rw [if_neg hshort]
    have hfirst := firstDigest_eq (by decide : 0 < 64) (Nat.le_refl 64)
      (store32 (UInt32.ofNat n)) input
    generalize store32 (UInt32.ofNat n) ++ input = msg at hfirst ⊢
    have hcount : (n - 33) / 32 = (n - 32 - 33) / 32 + 1 := by omega
    have hlast : n - 32 * ((n - 32 - 33) / 32 + 1) = n - 32 - 32 * ((n - 32 - 33) / 32) := by
      omega
    have hrest := produceRest_eq (by omega : 32 < n - 32) (digest 64 msg)
    have hbind := congrArg (fun out : Option Bytes => out.bind fun out_buffer =>
      (produceRest (n - 32) out_buffer).bind fun rest =>
        some (out_buffer.take 32 ++ rest)) hfirst
    simp only [Option.bind_eq_bind, Option.bind_assoc, Option.bind_some, hrest] at hbind
    simp only [h64, if_neg hshort, Option.bind_eq_bind, Option.bind_some, Option.pure_def,
      Nat.reduceDiv]
    rw [hbind, hcount, hlast, List.range_succ_eq_map, List.flatMap_cons, List.flatMap_map,
      List.append_assoc]
    rfl

end Long

end Passe.Blake2
