import Passe.Argon2Reference

/-!
# The loop over one segment

`passe_fill_segment` carries two offsets from turn to turn. Where they stand is a
function of the turn, so every turn reads the block before the current one and a
referable block, and writes the current block and no other.
-/
namespace Passe.Argon2

section Cells
variable {inst : Instance} {l l' c c' : ℕ}

/-- Where block `c` of lane `l` lies in the memory. The lanes follow each other without a gap.
-/
def Instance.cell (inst : Instance) (l c : ℕ) : ℕ := l * inst.laneLength.toNat + c

theorem Instance.WellFormed.laneLength_pos (h : inst.WellFormed) : 0 < inst.laneLength.toNat := by
  rw [h.laneLength_eq]
  have hge := h.segment_ge
  omega

theorem Instance.cell_lt (h : inst.WellFormed) (hl : l < inst.lanes.toNat)
    (hc : c < inst.laneLength.toNat) : inst.cell l c < inst.memoryBlocks.toNat := by
  have hle : (l + 1) * inst.laneLength.toNat ≤ inst.lanes.toNat * inst.laneLength.toNat :=
    Nat.mul_le_mul_right _ hl
  rw [Nat.add_one_mul] at hle
  rw [h.blocks_eq, cell]
  omega

theorem Instance.cell_div (hc : c < inst.laneLength.toNat) :
    inst.cell l c / inst.laneLength.toNat = l := by
  rw [cell, Nat.mul_comm, Nat.mul_add_div (by omega), Nat.div_eq_of_lt hc, Nat.add_zero]

theorem Instance.cell_mod (hc : c < inst.laneLength.toNat) :
    inst.cell l c % inst.laneLength.toNat = c := by
  rw [cell, Nat.mul_comm, Nat.mul_add_mod, Nat.mod_eq_of_lt hc]

theorem Instance.cell_inj (hc : c < inst.laneLength.toNat) (hc' : c' < inst.laneLength.toNat)
    (heq : inst.cell l c = inst.cell l' c') : l = l' ∧ c = c' := by
  have hdiv := congrArg (· / inst.laneLength.toNat) heq
  have hmod := congrArg (· % inst.laneLength.toNat) heq
  simp only [cell_div hc, cell_div hc'] at hdiv
  simp only [cell_mod hc, cell_mod hc'] at hmod
  exact ⟨hdiv, hmod⟩

end Cells

theorem fillBlock_eq (prev_block ref_block next_block : Block) (with_xor : Bool) :
    fillBlock prev_block ref_block next_block with_xor =
      xorBlock (if with_xor then xorBlock (xorBlock ref_block prev_block) next_block
        else xorBlock ref_block prev_block) (blockRounds (xorBlock ref_block prev_block)) := rfl

section Offsets
variable {inst : Instance} {position : Position} {r s l i : ℕ} {curr_offset prev_offset : UInt32}

/-- A segment of a pass: the place a call of `passe_fill_segment` is made for, in numbers and in
range. -/
structure Place (inst : Instance) (r s l : ℕ) : Prop where
  pass_lt : r < inst.passes.toNat
  slice_lt : s < 4
  lane_lt : l < inst.lanes.toNat

theorem Place.at (h : Place inst r s l) (hi : i < inst.segmentLength.toNat) :
    Position.At { segmentStart r s l with index := UInt32.ofNat i } r s l i := by
  have hslice : s < 2 ^ 8 := h.slice_lt.trans (by decide)
  constructor
  · exact UInt32.toNat_ofNat_of_lt' (h.pass_lt.trans inst.passes.toNat_lt)
  · exact UInt8.toNat_ofNat_of_lt' hslice
  · exact UInt32.toNat_ofNat_of_lt' (h.lane_lt.trans inst.lanes.toNat_lt)
  · exact UInt32.toNat_ofNat_of_lt' (hi.trans inst.segmentLength.toNat_lt)

theorem Place.start_at (hinst : inst.WellFormed) (h : Place inst r s l) :
    (segmentStart r s l).At r s l 0 := by
  have hge := hinst.segment_ge
  exact h.at (i := 0) (by omega)

/-- The first turn: the first slice of the first pass starts with its third block, all others
with the first. -/
theorem Place.startingIndex_eq (hinst : inst.WellFormed) (h : Place inst r s l) :
    startingIndex (segmentStart r s l) = if r = 0 ∧ s = 0 then 2 else 0 := by
  have hat := h.start_at hinst
  simp only [startingIndex, hat.pass_eq_zero, hat.slice_eq_zero]

theorem Place.column_lt (hinst : inst.WellFormed) (h : Place inst r s l)
    (hi : i < inst.segmentLength.toNat) :
    s * inst.segmentLength.toNat + i < inst.laneLength.toNat := by
  have hsegment := segment_cases inst.segmentLength.toNat h.slice_lt
  rw [hinst.laneLength_eq]
  omega

/-- The offsets at the head of turn `i`. They are carried from turn to turn and never computed
again, so this is what the loop keeps. -/
structure OffsetsAt (inst : Instance) (s l i : ℕ) (curr_offset prev_offset : UInt32) : Prop where
  curr_eq : curr_offset.toNat = inst.cell l (s * inst.segmentLength.toNat + i)
  prev_eq : i < inst.segmentLength.toNat → (rotatePrev inst curr_offset prev_offset).toNat =
    inst.cell l (prevColumn inst.segmentLength.toNat s i)

theorem mod_laneLength {c : ℕ} (hcurr : curr_offset.toNat = inst.cell l c)
    (hc : c < inst.laneLength.toNat) {k : UInt32} :
    curr_offset % inst.laneLength = k ↔ c = k.toNat := by
  rw [← UInt32.toNat_inj, UInt32.toNat_mod, hcurr, Instance.cell_mod hc]

theorem rotatePrev_of_column {c : ℕ} (hcurr : curr_offset.toNat = inst.cell l c)
    (hc : c < inst.laneLength.toNat) :
    rotatePrev inst curr_offset prev_offset = if c = 1 then curr_offset - 1 else prev_offset := by
  have hone : (1 : UInt32).toNat = 1 := rfl
  simp only [rotatePrev, mod_laneLength hcurr hc, hone]

/-- The block before, while it is not around the lane and one step back is enough. -/
theorem toNat_sub_one_of_column {c : ℕ} (hcurr : curr_offset.toNat = inst.cell l (c + 1)) :
    (curr_offset - 1).toNat = inst.cell l c := by
  have hone : (1 : UInt32).toNat = 1 := rfl
  have hsub : inst.cell l (c + 1) = inst.cell l c + 1 := rfl
  rw [UInt32.toNat_sub_of_le _ _ (UInt32.le_iff_toNat_le.mpr (by omega)), hcurr, hsub, hone,
    Nat.add_sub_cancel]

theorem segmentInit_curr_offset (hinst : inst.WellFormed) (h : Place inst r s l)
    (memory : Memory) :
    (segmentInit inst (segmentStart r s l) memory).curr_offset.toNat =
      inst.cell l (s * inst.segmentLength.toNat + startingIndex (segmentStart r s l)) := by
  have hat := h.start_at hinst
  have hge := hinst.segment_ge
  have hblocks := inst.memoryBlocks.toNat_lt
  have hstart := h.startingIndex_eq hinst
  have hsegment := segment_cases inst.segmentLength.toNat h.slice_lt
  have hcell : inst.cell l (s * inst.segmentLength.toNat + startingIndex (segmentStart r s l)) <
      inst.memoryBlocks.toNat := by
    refine Instance.cell_lt hinst h.lane_lt ?_
    rw [hinst.laneLength_eq]
    split_ifs at hstart <;> omega
  have heq : (segmentInit inst (segmentStart r s l) memory).curr_offset =
      (segmentStart r s l).lane * inst.laneLength +
        (segmentStart r s l).slice.toUInt32 * inst.segmentLength +
        UInt32.ofNat (startingIndex (segmentStart r s l)) := rfl
  have hindex : (UInt32.ofNat (startingIndex (segmentStart r s l))).toNat =
      startingIndex (segmentStart r s l) := by
    unfold startingIndex
    split_ifs <;> rfl
  unfold Instance.cell at hcell ⊢
  rw [heq, UInt32.toNat_add, UInt32.toNat_add, hinst.slice_mul_toNat hat h.slice_lt, hindex,
    UInt32.toNat_mul, hat.lane_eq, Nat.mod_eq_of_lt (a := l * _) (by omega),
    Nat.mod_eq_of_lt (a := l * _ + _) (by omega), Nat.mod_eq_of_lt (by omega), Nat.add_assoc]

theorem offsetsAt_init (hinst : inst.WellFormed) (h : Place inst r s l) (memory : Memory) :
    OffsetsAt inst s l (startingIndex (segmentStart r s l))
      (segmentInit inst (segmentStart r s l) memory).curr_offset
      (segmentInit inst (segmentStart r s l) memory).prev_offset := by
  have hcurr := segmentInit_curr_offset hinst h memory
  refine ⟨hcurr, fun hi => ?_⟩
  have heq : (segmentInit inst (segmentStart r s l) memory).prev_offset =
      if (segmentInit inst (segmentStart r s l) memory).curr_offset % inst.laneLength = 0 then
        (segmentInit inst (segmentStart r s l) memory).curr_offset + inst.laneLength - 1
      else (segmentInit inst (segmentStart r s l) memory).curr_offset - 1 := by
    simp only [eq_comm (b := (0 : UInt32))]
    rfl
  have hzero : (0 : UInt32).toNat = 0 := rfl
  have hsegment := segment_cases inst.segmentLength.toNat h.slice_lt
  have hge := hinst.segment_ge
  have hpos := hinst.laneLength_pos
  rw [rotatePrev_of_column hcurr (h.column_lt hinst hi), heq]
  simp only [mod_laneLength hcurr (h.column_lt hinst hi), hzero]
  rcases hcolumn : s * inst.segmentLength.toNat + startingIndex (segmentStart r s l) with _ | c
  · have hone : (1 : UInt32).toNat = 1 := rfl
    have hblocks := inst.memoryBlocks.toNat_lt
    have hlast : inst.cell l (inst.laneLength.toNat - 1) < inst.memoryBlocks.toNat :=
      Instance.cell_lt hinst h.lane_lt (by omega)
    have hsum : inst.cell l 0 + inst.laneLength.toNat =
        inst.cell l (inst.laneLength.toNat - 1) + 1 := by
      unfold Instance.cell
      omega
    rw [hcolumn] at hcurr
    rw [if_neg (by omega), if_pos rfl, prevColumn, if_pos (by omega), ← hinst.laneLength_eq,
      UInt32.toNat_sub, UInt32.toNat_add, hcurr, hone, hsum]
    omega
  · rw [hcolumn] at hcurr
    have hprev : prevColumn inst.segmentLength.toNat s (startingIndex (segmentStart r s l)) = c := by
      rw [prevColumn, if_neg (by omega)]
      omega
    rw [if_neg (by omega : ¬c + 1 = 0), ite_self, hprev]
    exact toNat_sub_one_of_column hcurr

theorem OffsetsAt.next (hinst : inst.WellFormed) (h : Place inst r s l)
    (hat : OffsetsAt inst s l i curr_offset prev_offset) (hi : i < inst.segmentLength.toNat) :
    OffsetsAt inst s l (i + 1) (curr_offset + 1) (rotatePrev inst curr_offset prev_offset + 1) := by
  have hone : (1 : UInt32).toNat = 1 := rfl
  have hsegment := segment_cases inst.segmentLength.toNat h.slice_lt
  have hge := hinst.segment_ge
  have hblocks := inst.memoryBlocks.toNat_lt
  have hcell := Instance.cell_lt hinst h.lane_lt (h.column_lt hinst hi)
  have hcurr : (curr_offset + 1).toNat =
      inst.cell l (s * inst.segmentLength.toNat + i + 1) := by
    rw [UInt32.toNat_add, hat.curr_eq, hone, Nat.mod_eq_of_lt (by omega)]
    rfl
  refine ⟨hcurr, fun hi' => ?_⟩
  have hprev : prevColumn inst.segmentLength.toNat s (i + 1) =
      s * inst.segmentLength.toNat + i := by
    rw [prevColumn, if_neg (by omega)]
    omega
  rw [hprev, rotatePrev_of_column hcurr (h.column_lt hinst hi')]
  by_cases hcolumn : s * inst.segmentLength.toNat + i = 0
  · rw [if_pos (by omega)]
    exact toNat_sub_one_of_column hcurr
  · have hback : prevColumn inst.segmentLength.toNat s i + 1 =
        s * inst.segmentLength.toNat + i := by
      rw [prevColumn, if_neg (by omega)]
      omega
    have hrotated := hat.prev_eq hi
    have hsum : inst.cell l (prevColumn inst.segmentLength.toNat s i) + 1 =
        inst.cell l (s * inst.segmentLength.toNat + i) := by
      rw [← hback]
      rfl
    rw [if_neg (by omega), UInt32.toNat_add, hrotated, hone, hsum, Nat.mod_eq_of_lt (by omega)]

/-- The lane that a pseudo-random number picks, by its upper half. -/
def pickedLane (inst : Instance) (r s l : ℕ) (pseudo_rand : UInt64) : ℕ :=
  if r = 0 ∧ s = 0 then l else pseudo_rand.toNat / 2 ^ 32 % inst.lanes.toNat

/-- The column that it picks for block `i` of segment `s` of lane `l`. -/
def pickedColumn (inst : Instance) (r s l i : ℕ) (pseudo_rand : UInt64) : ℕ :=
  let q := inst.segmentLength.toNat
  (areaStart q r s +
    areaOffset (areaSize q r s i (pickedLane inst r s l pseudo_rand = l))
      (pseudo_rand.toNat % 2 ^ 32)) % (4 * q)

theorem refLane_toNat (hinst : inst.WellFormed) (h : Place inst r s l) (pseudo_rand : UInt64) :
    (refLane inst (segmentStart r s l) pseudo_rand).toNat = pickedLane inst r s l pseudo_rand := by
  have hat := h.start_at hinst
  have hshift : (pseudo_rand >>> 32).toNat = pseudo_rand.toNat / 2 ^ 32 := by
    rw [UInt64.toNat_shiftRight, Nat.shiftRight_eq_div_pow]
    rfl
  simp only [refLane, pickedLane, hat.pass_eq_zero, hat.slice_eq_zero]
  split_ifs
  · rw [UInt32.toNat_toUInt64, hat.lane_eq]
  · rw [UInt64.toNat_mod, UInt32.toNat_toUInt64, hshift]

theorem pickedLane_lt (hinst : inst.WellFormed) (h : Place inst r s l) (pseudo_rand : UInt64) :
    pickedLane inst r s l pseudo_rand < inst.lanes.toNat := by
  unfold pickedLane
  split_ifs
  · exact h.lane_lt
  · exact Nat.mod_lt _ hinst.lanes_pos

/-- The first turns stay in their lane, as the others have nothing finished yet. -/
theorem pickedLane_first (hinst : inst.WellFormed) (h : Place inst r s l)
    (hstart : startingIndex (segmentStart r s l) ≤ i) (pseudo_rand : UInt64) :
    r = 0 → s = 0 → 2 ≤ i ∧ decide (pickedLane inst r s l pseudo_rand = l) = true := by
  intro hr hs
  rw [h.startingIndex_eq hinst, if_pos ⟨hr, hs⟩] at hstart
  exact ⟨hstart, decide_eq_true (if_pos ⟨hr, hs⟩)⟩

/-- The picked block may be read: it is finished, and no thread of this slice writes it. -/
theorem referable_picked (hinst : inst.WellFormed) (h : Place inst r s l)
    (hstart : startingIndex (segmentStart r s l) ≤ i) (hi : i < inst.segmentLength.toNat)
    (pseudo_rand : UInt64) :
    Referable inst.segmentLength.toNat r s l i (pickedLane inst r s l pseudo_rand)
      (pickedColumn inst r s l i pseudo_rand) := by
  have hfirst := pickedLane_first hinst h hstart pseudo_rand
  exact referable_of_lt_areaSize h.slice_lt hi hfirst of_decide_eq_true
    (areaOffset_lt (areaSize_pos hinst.segment_ge h.slice_lt hfirst))

/-- The reference block lies where the numbers say, and so inside the memory. -/
theorem refOffset_eq (hinst : inst.WellFormed) (h : Place inst r s l)
    (hstart : startingIndex (segmentStart r s l) ≤ i) (hi : i < inst.segmentLength.toNat)
    (pseudo_rand : UInt64) :
    refOffset inst (segmentStart r s l) pseudo_rand i =
      inst.cell (pickedLane inst r s l pseudo_rand) (pickedColumn inst r s l i pseudo_rand) := by
  have hat := h.at hi
  have hlane := refLane_toNat hinst h pseudo_rand
  have hsame : (refLane inst (segmentStart r s l) pseudo_rand ==
      (segmentStart r s l).lane.toUInt64) = decide (pickedLane inst r s l pseudo_rand = l) := by
    have hown : (segmentStart r s l).lane.toNat = l := hat.lane_eq
    rw [Bool.eq_iff_iff, beq_iff_eq, decide_eq_true_iff, ← UInt64.toNat_inj,
      UInt32.toNat_toUInt64, hlane, hown]
  have hlow : (pseudo_rand &&& 0xFFFFFFFF).toUInt32.toNat = pseudo_rand.toNat % 2 ^ 32 := by
    have hmask : (0xFFFFFFFF : UInt64).toNat = 2 ^ 32 - 1 := rfl
    rw [UInt64.toNat_toUInt32, UInt64.toNat_and, hmask, Nat.and_two_pow_sub_one_eq_mod,
      Nat.mod_mod]
  have hcolumn := indexAlpha_toNat hinst hat h.slice_lt hi (pickedLane_first hinst h hstart
    pseudo_rand) (pseudo_rand &&& 0xFFFFFFFF).toUInt32
  rw [hlow] at hcolumn
  have hlt := (referable_picked hinst h hstart hi pseudo_rand).lt
  rw [← hinst.laneLength_eq] at hlt
  have hcell := Instance.cell_lt hinst (pickedLane_lt hinst h pseudo_rand) hlt
  have hblocks := inst.memoryBlocks.toNat_lt
  have heq : refOffset inst (segmentStart r s l) pseudo_rand i =
      (inst.laneLength.toUInt64 * refLane inst (segmentStart r s l) pseudo_rand +
        (indexAlpha inst { segmentStart r s l with index := UInt32.ofNat i }
          (pseudo_rand &&& 0xFFFFFFFF).toUInt32 (refLane inst (segmentStart r s l) pseudo_rand ==
            (segmentStart r s l).lane.toUInt64)).toUInt64).toNat := rfl
  unfold Instance.cell at hcell ⊢
  rw [heq, hsame, UInt64.toNat_add, UInt64.toNat_mul, UInt32.toNat_toUInt64, UInt32.toNat_toUInt64,
    hlane, hcolumn, Nat.mul_comm inst.laneLength.toNat]
  rw [pickedColumn] at hcell ⊢
  rw [Nat.mod_eq_of_lt (a := _ * inst.laneLength.toNat) (by omega), Nat.mod_eq_of_lt (by omega)]

end Offsets

end Passe.Argon2
