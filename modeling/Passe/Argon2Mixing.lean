import Passe.Argon2Segment
import Passe.Mixing

/-!
# Nothing is lost inside the compression functions

BLAKE2b mixes its working vector by additions and rotations, and `ref.c` replaces
the additions by `fBlaMka`. Both quarter rounds are the general one, and every step
of them can be undone: a rotation by itself, the addition by a subtraction, and
`fBlaMka` because the multiplier of the low half is odd.
-/
namespace Passe.Blake2
open Mixing

theorem two_pow_split {k : ℕ} (hk : k ≤ 64) : 2 ^ 64 = 2 ^ k * 2 ^ (64 - k) := by
  rw [← Nat.pow_add, Nat.add_sub_cancel' hk]

theorem div_two_pow_lt {k : ℕ} (hk : k ≤ 64) (w : UInt64) : w.toNat / 2 ^ k < 2 ^ (64 - k) := by
  apply Nat.div_lt_of_lt_mul
  rw [← two_pow_split hk]
  exact w.toNat_lt

/-- A rotation keeps the low bits above and the high bits below. -/
theorem toNat_rotr64 {w c : UInt64} (hpos : 0 < c.toNat) (hlt : c.toNat < 64) :
    (rotr64 w c).toNat =
      w.toNat / 2 ^ c.toNat + w.toNat % 2 ^ c.toNat * 2 ^ (64 - c.toNat) := by
  have hsub : (64 - c).toNat = 64 - c.toNat := by
    rw [UInt64.toNat_sub_of_le _ _ (by rw [UInt64.le_iff_toNat_le]; exact hlt.le)]
    rfl
  have hpow := two_pow_split hlt.le
  have hhigh := div_two_pow_lt hlt.le w
  have hlow : w.toNat * 2 ^ (64 - c.toNat) % 2 ^ 64 =
      w.toNat % 2 ^ c.toNat * 2 ^ (64 - c.toNat) := by
    rw [hpow, Nat.mul_mod_mul_right]
  rw [rotr64, UInt64.toNat_or, UInt64.toNat_shiftRight, UInt64.toNat_shiftLeft, hsub,
    Nat.mod_eq_of_lt hlt, Nat.mod_eq_of_lt (by omega : 64 - c.toNat < 64),
    Nat.shiftRight_eq_div_pow, Nat.shiftLeft_eq, hlow, Nat.or_comm, ← Nat.shiftLeft_eq,
    ← Nat.shiftLeft_add_eq_or_of_lt hhigh, Nat.add_comm]

/-- A rotation can be undone, since no bit of the word is lost in it. -/
theorem rotr64_injective {c : UInt64} (hpos : 0 < c.toNat) (hlt : c.toNat < 64) :
    Function.Injective fun w => rotr64 w c := by
  intro w w' h
  have hword := congrArg UInt64.toNat h
  rw [toNat_rotr64 hpos hlt, toNat_rotr64 hpos hlt] at hword
  obtain ⟨hhigh, hlow⟩ :=
    eq_of_add_mul_eq (div_two_pow_lt hlt.le w) (div_two_pow_lt hlt.le w') hword
  apply UInt64.toNat_inj.mp
  rw [← Nat.div_add_mod w.toNat (2 ^ c.toNat), hhigh, hlow, Nat.div_add_mod]

/-- The four rotations of a quarter round, each behind an exclusive or. -/
def turn (k : Fin 4) (y x : UInt64) : UInt64 := rotr64 (x ^^^ y) (#v[32, 24, 16, 63].get k)

theorem turn_injective (k : Fin 4) (y : UInt64) : Function.Injective (turn k y) := by
  have hrange : ∀ k : Fin 4, 0 < ((#v[32, 24, 16, 63] : Vector UInt64 4).get k).toNat ∧
      ((#v[32, 24, 16, 63] : Vector UInt64 4).get k).toNat < 64 := by decide
  intro x x' h
  have hxor : x ^^^ y = x' ^^^ y := rotr64_injective (hrange k).1 (hrange k).2 h
  exact (UInt64.xor_left_inj y).mp hxor

/-- The macro is a quarter round that adds two words of the message. -/
theorem G_eq (m : Vector UInt64 16) (r : Fin 12) (i : Fin 8) :
    ∃ first second, ∀ a b c d v, G m r i a b c d v =
      quarterRound (fun y x => x + y + first) (fun y x => x + y + second) (fun y x => x + y)
        turn a b c d v :=
  ⟨_, _, fun _ _ _ _ _ => rfl⟩

theorem G_injective (m : Vector UInt64 16) (r : Fin 12) (i : Fin 8) (a b c d : Fin 16)
    (hba : b ≠ a) (had : a ≠ d) (hdc : d ≠ c) (hcb : c ≠ b) :
    Function.Injective (G m r i a b c d) := by
  have hadd : ∀ m y : UInt64, Function.Injective fun x => x + y + m := by
    intro m y x x' h
    exact (UInt64.add_left_inj y).mp ((UInt64.add_left_inj m).mp h)
  have hplain : ∀ y : UInt64, Function.Injective fun x => x + y :=
    fun y x x' h => (UInt64.add_left_inj y).mp h
  obtain ⟨first, second, hG⟩ := G_eq m r i
  intro v w h
  rw [hG, hG] at h
  exact quarterRound_injective hba had hdc hcb (hadd _) (hadd _) hplain turn_injective h

theorem round_injective (m : Vector UInt64 16) (r : Fin 12) :
    Function.Injective fun v => round m v r := by
  have hround : ∀ v, round m v r =
      Mixing.round (fun i => G m r (Fin.ofNat 8 i)) (Fin.ofNat 16) v := fun _ => rfl
  have hword : ∀ j < 16, ∀ k < 16, Fin.ofNat 16 j = Fin.ofNat 16 k → j = k := by
    intro j hj k hk h
    have hval := congrArg Fin.val h
    simp only [Fin.ofNat, Nat.mod_eq_of_lt hj, Nat.mod_eq_of_lt hk] at hval
    exact hval
  intro v w h
  dsimp only at h
  rw [hround, hround] at h
  exact Mixing.round_injective (fun i => G_injective m r (Fin.ofNat 8 i)) hword h

theorem finite_uint64 : Finite UInt64 :=
  Finite.of_injective UInt64.toFin fun _ _ h => UInt64.toNat_inj.mp (congrArg Fin.val h)

/-- The chaining value, the counter and the flags can all be read off. -/
theorem eq_of_workingVector_eq {S S' : Blake2bState} (h : workingVector S = workingVector S') :
    S.h = S'.h ∧ S.t = S'.t ∧ S.f = S'.f := by
  obtain ⟨hchain, hlow⟩ := Vector.append_inj h
  have hword := fun i : Fin 8 => congrArg (fun v : Vector UInt64 8 => v.get i) hlow
  have ht := (UInt64.xor_right_inj _).mp (hword 4)
  have ht' := (UInt64.xor_right_inj _).mp (hword 5)
  have hf := (UInt64.xor_right_inj _).mp (hword 6)
  have hf' := (UInt64.xor_right_inj _).mp (hword 7)
  exact ⟨hchain, Prod.ext ht ht', Prod.ext hf hf'⟩

/-- For every block each of the twelve rounds is a permutation of the working vectors, and so
is their composition. The new chaining value is the old one with both halves of the permuted
vector on top, and states that differ in the chaining value, the counter or a flag still differ
behind the last round. -/
theorem blake2bCompress_permutes (block : Bytes) :
    (∀ r, Function.Bijective fun v => round (messageWords block) v r) ∧
    ∃ P : Vector UInt64 16 → Vector UInt64 16, Function.Bijective P ∧
      (∀ v, P v = (List.finRange 12).foldl (round (messageWords block)) v) ∧
      (∀ S, blake2bCompress S block = { S with
        h := Vector.ofFn fun i => S.h.get i ^^^ (P (workingVector S)).get (i.castLE (by decide)) ^^^
          (P (workingVector S)).get (i.natAdd 8) }) ∧
      ∀ S S', P (workingVector S) = P (workingVector S') →
        S.h = S'.h ∧ S.t = S'.t ∧ S.f = S'.f := by
  have hfinite := finite_uint64
  have hround : ∀ r, Function.Injective fun v => round (messageWords block) v r :=
    round_injective (messageWords block)
  have hrounds : Function.Injective fun v =>
      (List.finRange 12).foldl (round (messageWords block)) v :=
    foldl_injective (List.finRange 12) fun r _ => hround r
  refine ⟨fun r => bijective_of_injective (hround r), _, bijective_of_injective hrounds,
    fun _ => rfl, fun _ => rfl, fun S S' h => ?_⟩
  exact eq_of_workingVector_eq (hrounds h)

end Passe.Blake2

namespace Passe.Argon2
open Mixing Blake2

@[simp] theorem toNat_low (x : UInt64) : (x &&& 0xFFFFFFFF).toNat = x.toNat % 2 ^ 32 :=
  Nat.and_two_pow_sub_one_eq_mod x.toNat 32

theorem toNat_fBlaMka (x y : UInt64) : (fBlaMka x y).toNat ≡
    x.toNat % 2 ^ 32 + 2 * (x.toNat % 2 ^ 32 * (y.toNat % 2 ^ 32)) + y.toNat [MOD 2 ^ 32] := by
  have htwo : UInt64.toNat 2 = 2 := rfl
  simp only [fBlaMka, UInt64.toNat_add, UInt64.toNat_mul, toNat_low, htwo, Nat.ModEq]
  generalize x.toNat % 2 ^ 32 * (y.toNat % 2 ^ 32) = product
  omega

/-- The low halves are multiplied, and the multiplier of each is odd. -/
theorem fBlaMka_injective (y : UInt64) : Function.Injective fun x => fBlaMka x y := by
  intro x x' h
  have hword : (fBlaMka x y).toNat ≡ (fBlaMka x' y).toNat [MOD 2 ^ 32] := by
    have hsame : fBlaMka x y = fBlaMka x' y := h
    rw [hsame]
  have hsum := ((toNat_fBlaMka x y).symm.trans hword).trans (toNat_fBlaMka x' y)
  have hlow : x &&& 0xFFFFFFFF = x' &&& 0xFFFFFFFF := by
    have hmod := modEq_of_odd_mul (Nat.ModEq.add_right_cancel' _ hsum)
    apply UInt64.toNat_inj.mp
    rw [toNat_low, toNat_low]
    exact hmod.eq_of_lt_of_lt (Nat.mod_lt _ (by decide)) (Nat.mod_lt _ (by decide))
  simp only [fBlaMka, hlow] at h
  exact (UInt64.add_left_inj y).mp ((UInt64.add_left_inj _).mp h)

/-- The rotations of `blamka-round-ref.h` are those of BLAKE2b, so the quarter round is the
general one again. -/
theorem G_eq (a b c d : Fin 128) (v : Block) :
    G a b c d v = quarterRound (fun y x => fBlaMka x y) (fun y x => fBlaMka x y)
      (fun y x => fBlaMka x y) turn a b c d v := rfl

theorem G_injective (a b c d : Fin 128) (hba : b ≠ a) (had : a ≠ d) (hdc : d ≠ c) (hcb : c ≠ b) :
    Function.Injective (G a b c d) := by
  intro v w h
  rw [G_eq, G_eq] at h
  exact quarterRound_injective hba had hdc hcb fBlaMka_injective fBlaMka_injective
    fBlaMka_injective turn_injective h

theorem blake2RoundNomsg_eq (w : ℕ → Fin 128) (v : Block) :
    blake2RoundNomsg w v = Mixing.round (fun _ => G) w v := by
  unfold blake2RoundNomsg Mixing.round
  rfl

theorem blake2RoundNomsg_injective {w : ℕ → Fin 128} (hw : ∀ j < 16, ∀ k < 16, w j = w k → j = k) :
    Function.Injective (blake2RoundNomsg w) := by
  intro v v' h
  rw [blake2RoundNomsg_eq, blake2RoundNomsg_eq] at h
  exact Mixing.round_injective (fun _ => G_injective) hw h

theorem columnWord_injective (i : Fin 8) :
    ∀ j < 16, ∀ k < 16, columnWord i j = columnWord i k → j = k := by
  intro j hj k hk h
  have hval := congrArg Fin.val h
  simp only [columnWord, Fin.ofNat] at hval
  omega

theorem rowWord_injective (i : Fin 8) :
    ∀ j < 16, ∀ k < 16, rowWord i j = rowWord i k → j = k := by
  intro j hj k hk h
  have hval := congrArg Fin.val h
  simp only [rowWord, Fin.ofNat] at hval
  omega

theorem blockRounds_injective : Function.Injective blockRounds := by
  intro v w h
  apply foldl_injective (List.finRange 8) fun i _ =>
    blake2RoundNomsg_injective (columnWord_injective i)
  exact foldl_injective (List.finRange 8) (fun i _ =>
    blake2RoundNomsg_injective (rowWord_injective i)) h

theorem xorBlock_injective (block : Block) : Function.Injective fun b => xorBlock b block := by
  intro b b' h
  apply Vector.ext
  intro i hi
  have hword := congrArg (fun v : Block => v[i]) h
  simp only [xorBlock, Vector.getElem_zipWith] at hword
  exact (UInt64.xor_left_inj _).mp hword

theorem xorBlock_comm (b b' : Block) : xorBlock b b' = xorBlock b' b := by
  apply Vector.ext
  intro i hi
  simp only [xorBlock, Vector.getElem_zipWith, UInt64.xor_comm]

/-- A block is filled through a permutation with a feed-forward: the sum of the two
inputs goes in, and comes back on top of what the permutation makes of it. A block
that is filled by exclusive or forgets nothing of its old contents. -/
theorem fillBlock_bijective :
    ∃ P : Block → Block, Function.Bijective P ∧
      (∀ prev ref next, fillBlock prev ref next false =
        xorBlock (xorBlock ref prev) (P (xorBlock ref prev))) ∧
      (∀ prev ref next, fillBlock prev ref next true =
        xorBlock (xorBlock (xorBlock ref prev) next) (P (xorBlock ref prev))) ∧
      ∀ prev ref, Function.Bijective fun next => fillBlock prev ref next true := by
  have hfinite := finite_uint64
  refine ⟨blockRounds, bijective_of_injective blockRounds_injective,
    fun prev ref next => fillBlock_eq prev ref next false,
    fun prev ref next => fillBlock_eq prev ref next true,
    fun prev ref => bijective_of_injective fun next next' h => ?_⟩
  rw [fillBlock_eq, fillBlock_eq] at h
  have hsum : xorBlock (xorBlock ref prev) next = xorBlock (xorBlock ref prev) next' :=
    xorBlock_injective (blockRounds (xorBlock ref prev)) h
  rw [xorBlock_comm _ next, xorBlock_comm _ next'] at hsum
  exact xorBlock_injective (xorBlock ref prev) hsum

end Passe.Argon2
