import Passe.Argon2Memory
import Mathlib.Tactic.Ring

/-!
# The block a new block refers to

`passe_index_alpha` works in machine integers of two widths. On an instance set up
by `passe_argon2_ctx` none of its sums and products wraps, and the column it
returns lies in the window the Argon2 design allows: never the previous block,
never a block that does not exist yet, and never a block of the slice that the
other lanes are filling at the same time.
-/
namespace Passe.Argon2

/-- What `passe_argon2_ctx` makes sure of before the memory is filled: how passes, lanes and
blocks fit together. It is proved once, of every valid request, and assumed from here on. -/
structure Instance.WellFormed (inst : Instance) : Prop where
  laneLength_eq : inst.laneLength.toNat = 4 * inst.segmentLength.toNat
  segment_ge : 2 ≤ inst.segmentLength.toNat
  lanes_pos : 1 ≤ inst.lanes.toNat
  blocks_eq : inst.memoryBlocks.toNat = inst.lanes.toNat * inst.laneLength.toNat
  passes_pos : 1 ≤ inst.passes.toNat
  threads_pos : 1 ≤ inst.threads.toNat
  threads_le : inst.threads.toNat ≤ inst.lanes.toNat

/-- The alignment of the memory size leaves at least two blocks for every segment. -/
theorem contextInstance_wellFormed {context : Context} (h : context.Valid) (type : Argon2Type) :
    (contextInstance context type).WellFormed := by
  have hm := h.mCost_ge_lanes
  have hpos := h.lanes_pos
  have hmax := h.lanes_le
  have hmlt := context.mCost.toNat_lt
  have hmin : (2 * argon2SyncPoints * context.lanes).toNat = 8 * context.lanes.toNat := by
    have h8 : (2 * argon2SyncPoints).toNat = 8 := rfl
    rw [UInt32.toNat_mul, h8, Nat.mod_eq_of_lt (by omega)]
  have hrow : (context.lanes * argon2SyncPoints).toNat = context.lanes.toNat * 4 := by
    have h4 : argon2SyncPoints.toNat = 4 := rfl
    rw [UInt32.toNat_mul, h4, Nat.mod_eq_of_lt (by omega)]
  have hblocks : (if context.mCost < 2 * argon2SyncPoints * context.lanes then
      2 * argon2SyncPoints * context.lanes else context.mCost) = context.mCost := by
    refine if_neg fun hlt => ?_
    rw [UInt32.lt_iff_toNat_lt, hmin] at hlt
    omega
  have hsegment : (contextInstance context type).segmentLength.toNat =
      context.mCost.toNat / (context.lanes.toNat * 4) := by
    simp only [contextInstance, hblocks, UInt32.toNat_div, hrow]
  have hmul : context.mCost.toNat / (context.lanes.toNat * 4) * (context.lanes.toNat * 4) ≤
      context.mCost.toNat := Nat.div_mul_le_self _ _
  have htwo : 2 ≤ context.mCost.toNat / (context.lanes.toNat * 4) := by
    rw [Nat.le_div_iff_mul_le (by omega)]
    omega
  have hfour : context.mCost.toNat / (context.lanes.toNat * 4) * 4 ≤
      context.mCost.toNat / (context.lanes.toNat * 4) * (context.lanes.toNat * 4) :=
    Nat.mul_le_mul_left _ (by omega)
  have hlane : (contextInstance context type).laneLength.toNat =
      4 * (contextInstance context type).segmentLength.toNat := by
    have h4 : argon2SyncPoints.toNat = 4 := rfl
    have hmulEq : (contextInstance context type).laneLength =
        (contextInstance context type).segmentLength * argon2SyncPoints := rfl
    rw [hmulEq, UInt32.toNat_mul, h4, hsegment, Nat.mod_eq_of_lt (by omega)]
    omega
  refine ⟨hlane, by rw [hsegment]; exact htwo, hpos, ?_, h.tCost_pos, ?_, ?_⟩
  · have hmulEq : (contextInstance context type).memoryBlocks =
        (contextInstance context type).segmentLength * (context.lanes * argon2SyncPoints) := rfl
    have hlanes : (contextInstance context type).lanes = context.lanes := rfl
    rw [hmulEq, UInt32.toNat_mul, hrow, hlane, hlanes, hsegment, Nat.mod_eq_of_lt (by omega)]
    ring
  · have hthreads := h.threads_pos
    simp only [contextInstance]
    split_ifs <;> omega
  · simp only [contextInstance]
    split_ifs with hgt
    · exact Nat.le_refl _
    · rw [gt_iff_lt, UInt32.lt_iff_toNat_lt] at hgt
      omega

/-- A position, with its fields as numbers, so that no bound has to mention their widths. -/
structure Position.At (position : Position) (r s l i : ℕ) : Prop where
  pass_eq : position.pass.toNat = r
  slice_eq : position.slice.toNat = s
  lane_eq : position.lane.toNat = l
  index_eq : position.index.toNat = i

/-- The column of the block before block `i` of segment `s`, around the lane. -/
def prevColumn (q s i : ℕ) : ℕ := if s = 0 ∧ i = 0 then 4 * q - 1 else s * q + i - 1

/-- Column `c` of lane `l'` may be read while block `i` of segment `s` of lane `l` is
made in pass `r`, segments having `q` blocks. -/
structure Referable (q r s l i l' c : ℕ) : Prop where
  lt : c < 4 * q
  own : s * q ≤ c → c < (s + 1) * q → l' = l ∧ c + 1 < s * q + i
  finished : r = 0 → c < (s + 1) * q
  ne_prev : c ≠ prevColumn q s i

/-- How many blocks the window has: what the lane has finished, without the block just made. -/
def areaSize (q r s i : ℕ) (same : Bool) : ℕ :=
  let area := if r = 0 then s * q else 3 * q
  if same then area + i - 1 else if i = 0 then area - 1 else area

/-- The column behind the window, from which it reaches around the lane after the first pass. -/
def areaStart (q r s : ℕ) : ℕ := if r = 0 ∨ s = 3 then 0 else (s + 1) * q

section Window
variable {q r s l i l' : ℕ} {same : Bool}

/-- Where segment `s` starts in its lane, one case for each of the four. -/
theorem segment_cases (q : ℕ) (hs : s < 4) :
    s = 0 ∧ s * q = 0 ∨ s = 3 ∧ s * q = 3 * q ∨
      s ≠ 0 ∧ s ≠ 3 ∧ q ≤ s * q ∧ s * q ≤ 2 * q := by
  have hcases : s = 0 ∨ s = 1 ∨ s = 2 ∨ s = 3 := by omega
  rcases hcases with rfl | rfl | rfl | rfl <;> omega

/-- Around the lane at most once, so the remainder is a subtraction or nothing. -/
theorem mod_lane {x : ℕ} (hx : x < 8 * q) :
    x < 4 * q ∧ x % (4 * q) = x ∨ 4 * q ≤ x ∧ x % (4 * q) = x - 4 * q := by
  rcases Nat.lt_or_ge x (4 * q) with hlt | hge
  · exact .inl ⟨hlt, Nat.mod_eq_of_lt hlt⟩
  · refine .inr ⟨hge, ?_⟩
    rw [Nat.mod_eq_sub_mod hge, Nat.mod_eq_of_lt (by omega)]

/-- The window is never empty: the first slice starts with its third block. -/
theorem areaSize_pos (hq : 2 ≤ q) (hs : s < 4) (hfirst : r = 0 → s = 0 → 2 ≤ i ∧ same = true) :
    1 ≤ areaSize q r s i same := by
  have hsegment := segment_cases q hs
  simp only [areaSize]
  generalize s * q = b at *
  cases same with
  | false =>
    simp only [Bool.false_eq_true, and_false, imp_false] at hfirst ⊢
    split_ifs <;> omega
  | true =>
    simp only [and_true] at hfirst ⊢
    split_ifs <;> omega

/-- Every column of the window is referable: it is finished, and nobody writes it during this
slice. -/
theorem referable_of_lt_areaSize (hs : s < 4) (hi : i < q)
    (hfirst : r = 0 → s = 0 → 2 ≤ i ∧ same = true) (hsame : same = true → l' = l) {k : ℕ}
    (hk : k < areaSize q r s i same) :
    Referable q r s l i l' ((areaStart q r s + k) % (4 * q)) := by
  have hsegment := segment_cases q hs
  have hnext : (s + 1) * q = s * q + q := Nat.add_one_mul s q
  have hend : areaStart q r s + k < 8 * q := by
    simp only [areaSize, areaStart] at hk ⊢
    generalize s * q = b at *
    split_ifs at hk ⊢ <;> omega
  have hmod := mod_lane hend
  have hlt : (areaStart q r s + k) % (4 * q) < 4 * q := Nat.mod_lt _ (by omega)
  generalize (areaStart q r s + k) % (4 * q) = c at *
  cases same with
  | false =>
    simp only [Bool.false_eq_true, and_false, imp_false] at hfirst
    simp only [areaSize, areaStart, Bool.false_eq_true, if_false] at hk hmod
    constructor
    · exact hlt
    · intro hlo hhi
      generalize s * q = b at *
      split_ifs at hk hmod <;> omega
    · intro hr
      generalize s * q = b at *
      split_ifs at hk hmod <;> omega
    · simp only [prevColumn]
      generalize s * q = b at *
      split_ifs at hk hmod ⊢ <;> omega
  | true =>
    simp only [and_true] at hfirst
    simp only [areaSize, areaStart, if_true] at hk hmod
    constructor
    · exact hlt
    · intro hlo hhi
      refine ⟨hsame rfl, ?_⟩
      generalize s * q = b at *
      split_ifs at hk hmod <;> omega
    · intro hr
      generalize s * q = b at *
      split_ifs at hk hmod <;> omega
    · simp only [prevColumn]
      generalize s * q = b at *
      split_ifs at hk hmod ⊢ <;> omega

end Window

/-- The square that prefers late blocks, on numbers: small pseudo-random words fall close to the
end of the window. -/
def areaOffset (size rand : ℕ) : ℕ := size - 1 - size * (rand * rand / 2 ^ 32) / 2 ^ 32

theorem areaOffset_lt {size rand : ℕ} (hsize : 1 ≤ size) : areaOffset size rand < size := by
  unfold areaOffset
  omega

section IndexAlpha
variable {inst : Instance} {position : Position} {r s l i : ℕ} {same : Bool}

theorem indexAlpha_eq (inst : Instance) (position : Position) (rand : UInt32) (same : Bool) :
    indexAlpha inst position rand same =
      (((startPosition inst position).toUInt64 +
        ((referenceAreaSize inst position same - 1).toUInt64 -
          ((referenceAreaSize inst position same).toUInt64 *
            ((rand.toUInt64 * rand.toUInt64) >>> 32)) >>> 32)) %
        inst.laneLength.toUInt64).toUInt32 := rfl

theorem Position.At.pass_eq_zero (h : position.At r s l i) : position.pass = 0 ↔ r = 0 := by
  rw [← UInt32.toNat_inj, h.pass_eq]
  rfl

theorem Position.At.slice_eq_zero (h : position.At r s l i) : position.slice = 0 ↔ s = 0 := by
  rw [← UInt8.toNat_inj, h.slice_eq]
  rfl

/-- The source also compares the other way round. -/
theorem Position.At.zero_eq_pass (h : position.At r s l i) : 0 = position.pass ↔ r = 0 :=
  eq_comm.trans h.pass_eq_zero

theorem Position.At.zero_eq_slice (h : position.At r s l i) : 0 = position.slice ↔ s = 0 :=
  eq_comm.trans h.slice_eq_zero

theorem Position.At.index_eq_zero (h : position.At r s l i) : position.index = 0 ↔ i = 0 := by
  rw [← UInt32.toNat_inj, h.index_eq]
  rfl

theorem Instance.WellFormed.laneLength_lt (h : inst.WellFormed) :
    4 * inst.segmentLength.toNat < 2 ^ 32 := by
  rw [← h.laneLength_eq]
  exact inst.laneLength.toNat_lt

/-- The offset of the slice in the lane, which stays within 32 bits. -/
theorem Instance.WellFormed.slice_mul_toNat (h : inst.WellFormed) (hat : position.At r s l i)
    (hs : s < 4) :
    (position.slice.toUInt32 * inst.segmentLength).toNat = s * inst.segmentLength.toNat := by
  have hlt := h.laneLength_lt
  have hle : s * inst.segmentLength.toNat ≤ 4 * inst.segmentLength.toNat :=
    Nat.mul_le_mul_right _ (by omega)
  rw [UInt32.toNat_mul, UInt8.toNat_toUInt32, hat.slice_eq, Nat.mod_eq_of_lt (by omega)]

theorem referenceAreaSize_toNat (h : inst.WellFormed) (hat : position.At r s l i) (hs : s < 4)
    (hi : i < inst.segmentLength.toNat) (hfirst : r = 0 → s = 0 → 2 ≤ i ∧ same = true) :
    (referenceAreaSize inst position same).toNat =
      areaSize inst.segmentLength.toNat r s i same := by
  have hlt := h.laneLength_lt
  have hslice := h.slice_mul_toNat hat hs
  have hsegment := segment_cases inst.segmentLength.toNat hs
  have hone : (1 : UInt32).toNat = 1 := rfl
  have hminus : (-1 : UInt32).toNat = 2 ^ 32 - 1 := rfl
  have hzero : (0 : UInt32).toNat = 0 := rfl
  simp only [referenceAreaSize, areaSize, hat.zero_eq_pass, hat.zero_eq_slice, hat.index_eq_zero]
  cases same with
  | false =>
    simp only [Bool.false_eq_true, and_false, imp_false] at hfirst ⊢
    split_ifs <;>
      simp only [UInt32.toNat_add, UInt32.toNat_sub, hslice, hat.index_eq, h.laneLength_eq, hone,
        hminus, hzero]
    all_goals generalize s * inst.segmentLength.toNat = b at *
    all_goals omega
  | true =>
    simp only [and_true, if_true] at hfirst ⊢
    split_ifs <;>
      simp only [UInt32.toNat_add, UInt32.toNat_sub, hslice, hat.index_eq, h.laneLength_eq, hone]
    all_goals generalize s * inst.segmentLength.toNat = b at *
    all_goals omega

theorem startPosition_toNat (h : inst.WellFormed) (hat : position.At r s l i) (hs : s < 4) :
    (startPosition inst position).toNat = areaStart inst.segmentLength.toNat r s := by
  have hlt := h.laneLength_lt
  have hlast : position.slice.toUInt32 = argon2SyncPoints - 1 ↔ s = 3 := by
    rw [← UInt32.toNat_inj, UInt8.toNat_toUInt32, hat.slice_eq]
    rfl
  have hnext : s ≠ 3 → ((position.slice.toUInt32 + 1) * inst.segmentLength).toNat =
      (s + 1) * inst.segmentLength.toNat := by
    intro hne
    have hone : (1 : UInt32).toNat = 1 := rfl
    have hle : (s + 1) * inst.segmentLength.toNat ≤ 4 * inst.segmentLength.toNat :=
      Nat.mul_le_mul_right _ (by omega)
    rw [UInt32.toNat_mul, UInt32.toNat_add, UInt8.toNat_toUInt32, hat.slice_eq, hone,
      Nat.mod_eq_of_lt (by omega : s + 1 < 2 ^ 32), Nat.mod_eq_of_lt (by omega)]
  simp only [startPosition, areaStart, ne_eq, hat.zero_eq_pass, hlast, ite_not]
  by_cases hr : r = 0
  · rw [if_pos hr, if_pos (.inl hr)]
    rfl
  by_cases hs3 : s = 3
  · rw [if_neg hr, if_pos hs3, if_pos (.inr hs3)]
    rfl
  · rw [if_neg hr, if_neg hs3, if_neg (by tauto), hnext hs3]

/-- The upper half of a product of two 32-bit numbers, as the shift in 64 bits gives it. -/
theorem toNat_mulHigh {x y : UInt64} (hx : x.toNat < 2 ^ 32) (hy : y.toNat < 2 ^ 32) :
    ((x * y) >>> 32).toNat = x.toNat * y.toNat / 2 ^ 32 := by
  have hprod : x.toNat * y.toNat < 2 ^ 32 * 2 ^ 32 := Nat.mul_lt_mul_of_lt_of_lt hx hy
  rw [UInt64.toNat_shiftRight, UInt64.toNat_mul, Nat.mod_eq_of_lt (by omega),
    Nat.shiftRight_eq_div_pow]
  rfl

theorem mulHigh_lt {a b : ℕ} (ha : 1 ≤ a) (hb : b < 2 ^ 32) : a * b / 2 ^ 32 < a := by
  refine Nat.div_lt_of_lt_mul ?_
  rw [Nat.mul_comm (2 ^ 32) a]
  exact Nat.mul_lt_mul_of_pos_left hb ha

/-- None of the sums and products of `passe_index_alpha` wraps, so it computes with numbers. -/
theorem indexAlpha_toNat (h : inst.WellFormed) (hat : position.At r s l i) (hs : s < 4)
    (hi : i < inst.segmentLength.toNat) (hfirst : r = 0 → s = 0 → 2 ≤ i ∧ same = true)
    (rand : UInt32) :
    (indexAlpha inst position rand same).toNat =
      (areaStart inst.segmentLength.toNat r s +
        areaOffset (areaSize inst.segmentLength.toNat r s i same) rand.toNat) %
        (4 * inst.segmentLength.toNat) := by
  have hlt := h.laneLength_lt
  have hsize := referenceAreaSize_toNat h hat hs hi hfirst
  have hstart := startPosition_toNat h hat hs
  have hpos := areaSize_pos h.segment_ge hs hfirst
  have hrand := rand.toNat_lt
  have hsquare : ((rand.toUInt64 * rand.toUInt64) >>> 32).toNat =
      rand.toNat * rand.toNat / 2 ^ 32 := toNat_mulHigh hrand hrand
  have hsquarelt : rand.toNat * rand.toNat / 2 ^ 32 < 2 ^ 32 := by
    rcases Nat.eq_zero_or_pos rand.toNat with h0 | hpos'
    · rw [h0]
      decide
    · exact (mulHigh_lt hpos' hrand).trans hrand
  have hscaled : (((referenceAreaSize inst position same).toUInt64 *
      ((rand.toUInt64 * rand.toUInt64) >>> 32)) >>> 32).toNat =
      areaSize inst.segmentLength.toNat r s i same * (rand.toNat * rand.toNat / 2 ^ 32) / 2 ^ 32 := by
    have hwidth : (referenceAreaSize inst position same).toUInt64.toNat < 2 ^ 32 := by
      rw [UInt32.toNat_toUInt64]
      exact (referenceAreaSize inst position same).toNat_lt
    rw [toNat_mulHigh hwidth (hsquare ▸ hsquarelt), UInt32.toNat_toUInt64, hsize, hsquare]
  have hbefore : (referenceAreaSize inst position same - 1).toNat =
      areaSize inst.segmentLength.toNat r s i same - 1 := by
    rw [UInt32.toNat_sub_of_le _ _ (UInt32.le_iff_toNat_le.mpr (hsize ▸ hpos)), hsize]
    rfl
  have hrest : ((referenceAreaSize inst position same - 1).toUInt64 -
      ((referenceAreaSize inst position same).toUInt64 *
        ((rand.toUInt64 * rand.toUInt64) >>> 32)) >>> 32).toNat =
      areaOffset (areaSize inst.segmentLength.toNat r s i same) rand.toNat := by
    rw [UInt64.toNat_sub_of_le, UInt32.toNat_toUInt64, hbefore, hscaled]
    · rfl
    · rw [UInt64.le_iff_toNat_le, UInt32.toNat_toUInt64, hbefore, hscaled]
      have hltarea := mulHigh_lt hpos hsquarelt
      omega
  have hoffset : areaOffset (areaSize inst.segmentLength.toNat r s i same) rand.toNat <
      areaSize inst.segmentLength.toNat r s i same := areaOffset_lt hpos
  have hstartlt := (startPosition inst position).toNat_lt
  have hsizelt := (referenceAreaSize inst position same).toNat_lt
  have hwidth : (areaStart inst.segmentLength.toNat r s +
      areaOffset (areaSize inst.segmentLength.toNat r s i same) rand.toNat) %
      (4 * inst.segmentLength.toNat) < 2 ^ 32 :=
    (Nat.mod_lt _ (by omega)).trans hlt
  rw [indexAlpha_eq, UInt64.toNat_toUInt32, UInt64.toNat_mod, UInt64.toNat_add, hrest,
    UInt32.toNat_toUInt64, UInt32.toNat_toUInt64, hstart, h.laneLength_eq,
    Nat.mod_eq_of_lt (a := areaStart _ r s + _) (by omega), Nat.mod_eq_of_lt hwidth]

/-- On the instance of a valid request `passe_index_alpha` computes on numbers, and whatever
the pseudo-random number is, the block it picks may be read. -/
theorem indexAlpha_spec {context : Context} (hvalid : context.Valid) (type : Argon2Type)
    (hat : position.At r s l i) (hs : s < 4)
    (hi : i < (contextInstance context type).segmentLength.toNat)
    (hfirst : r = 0 → s = 0 → 2 ≤ i ∧ same = true) {l' : ℕ} (hsame : same = true → l' = l)
    (rand : UInt32) :
    let q := (contextInstance context type).segmentLength.toNat
    let c := (indexAlpha (contextInstance context type) position rand same).toNat
    c = (areaStart q r s + areaOffset (areaSize q r s i same) rand.toNat) % (4 * q) ∧
      Referable q r s l i l' c := by
  have hinst := contextInstance_wellFormed hvalid type
  have hcolumn := indexAlpha_toNat hinst hat hs hi hfirst rand
  refine ⟨hcolumn, ?_⟩
  rw [hcolumn]
  exact referable_of_lt_areaSize hs hi hfirst hsame
    (areaOffset_lt (areaSize_pos hinst.segment_ge hs hfirst))

/-- A request of two lanes with segments of three blocks, the smallest in which a slice has
something to choose. -/
def twoLanesContext : Context :=
  hashContext 2 24 2 (ascii "password") (ascii "saltsalt") (List.replicate 32 0) 0x13

theorem indexAlpha_spec_twoLanes :
    Referable 3 1 2 0 1 1 (indexAlpha (contextInstance twoLanesContext .id) ⟨1, 0, 2, 1⟩
      0xdeadbeef false).toNat := by
  have hvalid : twoLanesContext.Valid := validateInputs_eq_ok_iff.mp rfl
  have hat : Position.At ⟨1, 0, 2, 1⟩ 1 2 0 1 := ⟨rfl, rfl, rfl, rfl⟩
  exact (indexAlpha_spec hvalid .id hat (by decide) (by decide) (by decide) (by decide)
    0xdeadbeef).2

end IndexAlpha

end Passe.Argon2
