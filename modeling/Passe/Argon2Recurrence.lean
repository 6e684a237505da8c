import Passe.Argon2Fill

/-!
# The tag as a recurrence over blocks

Every block is made from the block before it, from a block that a pseudo-random
number picks and from what stood in its place a pass ago. Here this is a recurrence
over the passes, the lanes and the columns, with no memory that is written, no
offsets and no address block that goes from turn to turn. The passes of the code
leave the blocks of the recurrence, and the tag is what its last column gives.
-/
namespace Passe.Argon2
open Blake2

/-- Whether the segments of slice `s` in pass `r` draw their numbers from address blocks. -/
def independent (inst : Instance) (r s : ℕ) : Bool :=
  inst.type = .i ∨ inst.type = .id ∧ r = 0 ∧ s < 2

/-- What the address blocks of a segment are made from: the place of the segment and the size of
the request, and never the data. -/
def inputBlock (inst : Instance) (r s l : ℕ) : Block :=
  segmentInput inst (UInt64.ofNat r) (UInt64.ofNat l) (UInt64.ofNat s)

/-- Address block `k` of a segment. The counter in the input starts with one. -/
def addressBlock (inst : Instance) (r s l k : ℕ) : Block :=
  fillBlock initBlockValue (fillBlock initBlockValue
    (withCounter (inputBlock inst r s l) (UInt64.ofNat (k + 1))) initBlockValue false)
    initBlockValue false

/-- The number that picks the reference block of block `i` of a segment. -/
def drawn (inst : Instance) (r s l i : ℕ) (prev_block : Block) : UInt64 :=
  if independent inst r s then (addressBlock inst r s l (i / 128)).toArray.getD (i % 128) 0
  else firstWord prev_block

/-- Block `c` of lane `l` after pass `r`. `old` are the blocks before it and `first` the first
two of every lane. -/
def passBlock (inst : Instance) (first : ℕ → ℕ → Block) (r : ℕ) (old : ℕ → ℕ → Block)
    (l c : ℕ) : Block :=
  let q := inst.segmentLength.toNat
  if r = 0 ∧ c < 2 then first l c
  else
    let prev := if c = 0 then old l (4 * q - 1) else passBlock inst first r old l (c - 1)
    let rand := drawn inst r (c / q) l (c % q) prev
    let l' := pickedLane inst r (c / q) l rand
    let c' := pickedColumn inst r (c / q) l (c % q) rand
    let ref := if c' < c then passBlock inst first r old l' c' else old l' c'
    fillBlock prev ref (old l c) (inst.version ≠ argon2Version10 ∧ r ≠ 0)
  termination_by c

/-- The blocks after pass `r`, as a table that is made anew by every pass. -/
def blocks (inst : Instance) (first : ℕ → ℕ → Block) : ℕ → ℕ → ℕ → Block
  | 0 => passBlock inst first 0 fun _ _ => initBlockValue
  | r + 1 => passBlock inst first (r + 1) (blocks inst first r)

section Addresses
variable {inst : Instance} {r s l i : ℕ} {address_block input_block : Block}

theorem dataIndependent_eq (hinst : inst.WellFormed) (h : Place inst r s l) :
    dataIndependent inst (segmentStart r s l) = independent inst r s := by
  have hat := h.start_at hinst
  have hhalf : (segmentStart r s l).slice.toUInt32 < argon2SyncPoints / 2 ↔ s < 2 := by
    rw [UInt32.lt_iff_toNat_lt, UInt8.toNat_toUInt32, hat.slice_eq]
    rfl
  simp only [dataIndependent, independent, hat.pass_eq_zero, hhalf]

/-- The block before the first draw, with its counter at zero; each draw counts it up. -/
@[simp] theorem inputBlock_set_zero (inst : Instance) (r s l : ℕ) :
    withCounter (inputBlock inst r s l) 0 = inputBlock inst r s l := by
  have hzero : (inputBlock inst r s l)[6] = 0 := by
    simp only [inputBlock, segmentInput, Vector.getElem_set, initBlockValue,
      Vector.getElem_replicate]
    rfl
  calc withCounter (inputBlock inst r s l) 0
      = (inputBlock inst r s l).set 6 (inputBlock inst r s l)[6] := by rw [hzero, withCounter]
    _ = inputBlock inst r s l := Vector.set_getElem_self _

theorem nextAddresses_eq (inst : Instance) (r s l k : ℕ) (address_block : Block) :
    nextAddresses address_block (withCounter (inputBlock inst r s l) (UInt64.ofNat k)) =
      (addressBlock inst r s l k, withCounter (inputBlock inst r s l) (UInt64.ofNat (k + 1))) := by
  have hcounter : UInt64.ofNat k + 1 = UInt64.ofNat (k + 1) := (UInt64.ofNat_add k 1).symm
  have hnext : ∀ prev_block ref_block next_block, fillBlock prev_block ref_block next_block false =
      fillBlock prev_block ref_block initBlockValue false := fun prev_block ref_block next_block =>
    fillBlock_of_not_xor prev_block ref_block next_block initBlockValue
  simp only [nextAddresses, addressBlock, withCounter, Vector.getElem_set_self, Vector.set_set,
    hcounter]
  rw [hnext _ _ (fillBlock _ _ address_block false), hnext _ _ address_block]

/-- What the loop carries at the head of turn `i` when it draws from address blocks: one block
for every 128 turns begun. -/
structure AddressesAt (inst : Instance) (r s l i : ℕ) (address_block input_block : Block) :
    Prop where
  input_eq : input_block = withCounter (inputBlock inst r s l) (UInt64.ofNat ((i + 127) / 128))
  address_eq : i % 128 ≠ 0 → address_block = addressBlock inst r s l (i / 128)

theorem AddressesAt.turn (h : AddressesAt inst r s l i address_block input_block) :
    turnAddresses true address_block input_block i =
      (addressBlock inst r s l (i / 128),
        withCounter (inputBlock inst r s l) (UInt64.ofNat (i / 128 + 1))) := by
  unfold turnAddresses
  by_cases hdraw : i % 128 = 0
  · have hcount : (i + 127) / 128 = i / 128 := by omega
    rw [if_pos ⟨rfl, hdraw⟩, h.input_eq, hcount, nextAddresses_eq]
  · have hcount : (i + 127) / 128 = i / 128 + 1 := by omega
    rw [if_neg (fun hboth => hdraw hboth.2), h.input_eq, h.address_eq hdraw, hcount]

theorem AddressesAt.next (h : AddressesAt inst r s l i address_block input_block) :
    AddressesAt inst r s l (i + 1) (turnAddresses true address_block input_block i).1
      (turnAddresses true address_block input_block i).2 := by
  rw [h.turn]
  constructor
  · have hcount : (i + 1 + 127) / 128 = i / 128 + 1 := by omega
    rw [hcount]
  · intro hdraw
    have hsame : (i + 1) / 128 = i / 128 := by omega
    rw [hsame]

/-- What `passe_fill_segment` puts into its input block, field by field. -/
theorem inputBlock_eq (h : Place inst r s l) :
    segmentInput inst (segmentStart r s l).pass.toUInt64 (segmentStart r s l).lane.toUInt64
      (segmentStart r s l).slice.toUInt64 = inputBlock inst r s l := by
  have hslice : s < 2 ^ 8 := h.slice_lt.trans (by decide)
  have hpass : (segmentStart r s l).pass.toUInt64 = UInt64.ofNat r :=
    UInt32.toUInt64_ofNat' (h.pass_lt.trans inst.passes.toNat_lt)
  have hlane : (segmentStart r s l).lane.toUInt64 = UInt64.ofNat l :=
    UInt32.toUInt64_ofNat' (h.lane_lt.trans inst.lanes.toNat_lt)
  have hslices : (segmentStart r s l).slice.toUInt64 = UInt64.ofNat s :=
    UInt8.toUInt64_ofNat' hslice
  rw [hpass, hlane, hslices, inputBlock]

/-- Only the very first slice draws a block before its loop, which starts with turn two. -/
theorem addressesAt_init (hinst : inst.WellFormed) (h : Place inst r s l) (memory : Memory)
    (hindependent : independent inst r s = true) :
    AddressesAt inst r s l (startingIndex (segmentStart r s l))
      (segmentInit inst (segmentStart r s l) memory).address_block
      (segmentInit inst (segmentStart r s l) memory).input_block := by
  have hat := h.start_at hinst
  have hfirst : (segmentStart r s l).pass = 0 ∧ (segmentStart r s l).slice = 0 ↔
      r = 0 ∧ s = 0 := by
    rw [hat.pass_eq_zero, hat.slice_eq_zero]
  have haddresses : ((segmentInit inst (segmentStart r s l) memory).address_block,
      (segmentInit inst (segmentStart r s l) memory).input_block) =
      if ((segmentStart r s l).pass = 0 ∧ (segmentStart r s l).slice = 0) ∧
        dataIndependent inst (segmentStart r s l) then
        nextAddresses initBlockValue (inputBlock inst r s l)
      else (initBlockValue, inputBlock inst r s l) := by
    rw [← inputBlock_eq h]
    rfl
  rw [dataIndependent_eq hinst h, hindependent] at haddresses
  simp only [hfirst, and_true] at haddresses
  rw [h.startingIndex_eq hinst]
  by_cases hrs : r = 0 ∧ s = 0
  · rw [if_pos hrs] at haddresses ⊢
    rw [← inputBlock_set_zero] at haddresses
    have hdrawn := haddresses.trans (nextAddresses_eq inst r s l 0 initBlockValue)
    obtain ⟨haddress, hinput⟩ := Prod.mk.inj hdrawn
    constructor
    · have hone : (2 + 127) / 128 = 0 + 1 := rfl
      rw [hone, hinput]
    · have hzero : 2 / 128 = 0 := rfl
      rw [hzero, haddress]
      exact fun _ => rfl
  · rw [if_neg hrs] at haddresses ⊢
    obtain ⟨-, hinput⟩ := Prod.mk.inj haddresses
    rw [← inputBlock_set_zero] at hinput
    constructor
    · have hnone : (0 + 127) / 128 = 0 := rfl
      rw [hnone, hinput]
      rfl
    · exact fun hdraw => absurd rfl hdraw

theorem pseudoRand_eq (hindependent : independent inst r s = true →
      AddressesAt inst r s l i address_block input_block) (prev_block : Block) :
    pseudoRand (independent inst r s)
      (turnAddresses (independent inst r s) address_block input_block i).1 prev_block i =
      drawn inst r s l i prev_block := by
  unfold pseudoRand drawn
  by_cases h : independent inst r s = true
  · rw [if_pos h, if_pos h, h, (hindependent h).turn]
  · rw [if_neg h, if_neg h]

end Addresses

/-- How many blocks of lane `l'` pass `r` has made when it comes to block `i` of segment `s` of
lane `l`. -/
def made (q r s l i l' : ℕ) : ℕ :=
  if l' < l then (s + 1) * q else if l' = l then s * q + i
  else if r = 0 ∧ s = 0 then 2 else s * q

/-- One pass over the memory, as four slices without threads. -/
def passFilled (inst : Instance) (m : Memory) (r : ℕ) : Memory :=
  (List.range 4).foldl (sliceFilled inst r) m

/-- The memory in the middle of a pass: `done l` blocks of lane `l` are new. -/
def Sweep (inst : Instance) (done : ℕ → ℕ) (new old : ℕ → ℕ → Block) (m : Memory) : Prop :=
  ∀ l c, l < inst.lanes.toNat → c < inst.laneLength.toNat →
    m[inst.cell l c]? = some (if c < done l then new l c else old l c)

section Pass
variable {inst : Instance} {r s l i : ℕ} {done done' : ℕ → ℕ} {new old first : ℕ → ℕ → Block}
  {m : Memory}

theorem Sweep.blockAt (h : Sweep inst done new old m) {l c : ℕ} (hl : l < inst.lanes.toNat)
    (hc : c < inst.laneLength.toNat) :
    blockAt m (inst.cell l c) = if c < done l then new l c else old l c := by
  rw [Argon2.blockAt, Array.getD_eq_getD_getElem?, h l c hl hc, Option.getD_some]

theorem Sweep.congr (h : Sweep inst done new old m)
    (heq : ∀ l < inst.lanes.toNat, ∀ c < inst.laneLength.toNat, c < done' l ↔ c < done l) :
    Sweep inst done' new old m := by
  intro l c hl hc
  rw [h l c hl hc]
  simp only [heq l hl c hc]

/-- One more block is made, in place of the one that the pass before has left there. -/
theorem Sweep.set (h : Sweep inst done new old m) {c : ℕ} (hl : l < inst.lanes.toNat)
    (hc : c < inst.laneLength.toNat)
    (hdone : ∀ l' < inst.lanes.toNat, ∀ c' < inst.laneLength.toNat,
      c' < done' l' ↔ c' < done l' ∨ l' = l ∧ c' = c) :
    Sweep inst done' new old (m.setIfInBounds (inst.cell l c) (new l c)) := by
  have hbound : inst.cell l c < m.size := (Array.getElem?_eq_some_iff.mp (h l c hl hc)).1
  intro l' c' hl' hc'
  by_cases heq : l' = l ∧ c' = c
  · obtain ⟨rfl, rfl⟩ := heq
    rw [Array.getElem?_setIfInBounds_self_of_lt hbound,
      if_pos ((hdone l' hl' c' hc').mpr (.inr ⟨rfl, rfl⟩))]
  · have hne : inst.cell l c ≠ inst.cell l' c' := by
      intro hcell
      obtain ⟨hll, hcc⟩ := Instance.cell_inj hc hc' hcell
      exact heq ⟨hll.symm, hcc.symm⟩
    rw [Array.getElem?_setIfInBounds_ne hne, h l' c' hl' hc']
    simp only [hdone l' hl' c' hc', heq, or_false]

/-- What may be read is new exactly when it lies before the current column. -/
theorem Referable.lt_made {q l' c : ℕ} (h : Referable q r s l i l' c) (hi : i < q) :
    c < made q r s l i l' ↔ c < s * q + i := by
  have hnext : (s + 1) * q = s * q + q := Nat.add_one_mul s q
  have hown := h.own
  have hfinished := h.finished
  have hzero : s = 0 → s * q = 0 := by
    rintro rfl
    exact Nat.zero_mul q
  unfold made
  split_ifs <;> omega

/-- The current column is the one that joins them at the end of the turn. -/
theorem lt_made_succ {q l' c : ℕ} :
    c < made q r s l (i + 1) l' ↔ c < made q r s l i l' ∨ l' = l ∧ c = s * q + i := by
  unfold made
  split_ifs <;> omega

theorem div_mod_column {q : ℕ} (hi : i < q) : (s * q + i) / q = s ∧ (s * q + i) % q = i := by
  constructor
  · rw [Nat.mul_comm, Nat.mul_add_div (by omega), Nat.div_eq_of_lt hi, Nat.add_zero]
  · rw [Nat.mul_comm, Nat.mul_add_mod, Nat.mod_eq_of_lt hi]

theorem withXor_eq (hinst : inst.WellFormed) (h : Place inst r s l) :
    withXor inst (segmentStart r s l) = decide (inst.version ≠ argon2Version10 ∧ r ≠ 0) := by
  have hat := h.start_at hinst
  simp only [withXor, ne_eq, hat.pass_eq_zero]

/-- The recurrence at block `i` of segment `s`, in the terms in which the loop computes it. -/
theorem passBlock_eq (hi : i < inst.segmentLength.toNat) (hfirst : r = 0 → s = 0 → 2 ≤ i)
    (hge : 2 ≤ inst.segmentLength.toNat) :
    passBlock inst first r old l (s * inst.segmentLength.toNat + i) =
      let prev := if s * inst.segmentLength.toNat + i = 0 then
          old l (4 * inst.segmentLength.toNat - 1)
        else passBlock inst first r old l (s * inst.segmentLength.toNat + i - 1)
      let rand := drawn inst r s l i prev
      let l' := pickedLane inst r s l rand
      let c' := pickedColumn inst r s l i rand
      let ref := if c' < s * inst.segmentLength.toNat + i then passBlock inst first r old l' c'
        else old l' c'
      fillBlock prev ref (old l (s * inst.segmentLength.toNat + i))
        (inst.version ≠ argon2Version10 ∧ r ≠ 0) := by
  obtain ⟨hdiv, hmod⟩ := div_mod_column (s := s) hi
  have hlate : ¬(r = 0 ∧ s * inst.segmentLength.toNat + i < 2) := by
    rintro ⟨hr, hlt⟩
    rcases Nat.eq_zero_or_pos s with hs | hs
    · have htwo := hfirst hr hs
      omega
    · have hle := Nat.le_mul_of_pos_left inst.segmentLength.toNat hs
      omega
  rw [passBlock, if_neg hlate, hdiv, hmod]

/-- A turn makes the block of the recurrence: the rotated offsets point where the table is read,
and the cached addresses are the right ones. -/
theorem fillSegmentStep_sweep (hinst : inst.WellFormed) (h : Place inst r s l)
    (hstart : startingIndex (segmentStart r s l) ≤ i) (hi : i < inst.segmentLength.toNat)
    (st : SegmentState) (hat : OffsetsAt inst s l i st.curr_offset st.prev_offset)
    (haddresses : independent inst r s = true →
      AddressesAt inst r s l i st.address_block st.input_block)
    (hsweep : Sweep inst (made inst.segmentLength.toNat r s l i) (passBlock inst first r old) old
      st.memory) :
    Sweep inst (made inst.segmentLength.toNat r s l (i + 1)) (passBlock inst first r old) old
      (fillSegmentStep inst (segmentStart r s l) (independent inst r s) st i).memory := by
  have hcolumn := h.column_lt hinst hi
  have hown : made inst.segmentLength.toNat r s l i l = s * inst.segmentLength.toNat + i := by
    rw [made, if_neg (Nat.lt_irrefl l), if_pos rfl]
  have hprev : blockAt st.memory (rotatePrev inst st.curr_offset st.prev_offset).toNat =
      if s * inst.segmentLength.toNat + i = 0 then old l (4 * inst.segmentLength.toNat - 1)
      else passBlock inst first r old l (s * inst.segmentLength.toNat + i - 1) := by
    have hge := hinst.segment_ge
    have hlane := hinst.laneLength_eq
    have hsegment := segment_cases inst.segmentLength.toNat h.slice_lt
    rw [hat.prev_eq hi, prevColumn]
    by_cases hzero : s = 0 ∧ i = 0
    · rw [if_pos hzero, if_pos (by omega), hsweep.blockAt h.lane_lt (by omega), hown,
        if_neg (by omega)]
    · rw [if_neg hzero, if_neg (by omega), hsweep.blockAt h.lane_lt (by omega), hown,
        if_pos (by omega)]
  have href : ∀ rand, blockAt st.memory (refOffset inst (segmentStart r s l) rand i) =
      if pickedColumn inst r s l i rand < s * inst.segmentLength.toNat + i then
        passBlock inst first r old (pickedLane inst r s l rand) (pickedColumn inst r s l i rand)
      else old (pickedLane inst r s l rand) (pickedColumn inst r s l i rand) := by
    intro rand
    have hpicked := referable_picked hinst h hstart hi rand
    have hlt := hpicked.lt
    rw [← hinst.laneLength_eq] at hlt
    rw [refOffset_eq hinst h hstart hi, hsweep.blockAt (pickedLane_lt hinst h rand) hlt]
    simp only [hpicked.lt_made hi]
  have hcurr : blockAt st.memory st.curr_offset.toNat =
      old l (s * inst.segmentLength.toNat + i) := by
    rw [hat.curr_eq, hsweep.blockAt h.lane_lt hcolumn, hown, if_neg (Nat.lt_irrefl _)]
  have hfirst : r = 0 → s = 0 → 2 ≤ i := by
    intro hr hs
    rw [h.startingIndex_eq hinst, if_pos ⟨hr, hs⟩] at hstart
    exact hstart
  have hblock : passBlock inst first r old l (s * inst.segmentLength.toNat + i) = _ :=
    passBlock_eq hi hfirst hinst.segment_ge
  rw [fillSegmentStep]
  simp only [pseudoRand_eq haddresses, hprev, href, hcurr, withXor_eq hinst h]
  simp only at hblock
  rw [← hblock, hat.curr_eq]
  exact hsweep.set h.lane_lt hcolumn fun l' _ c' _ => lt_made_succ

theorem turns_sweep (hinst : inst.WellFormed) (h : Place inst r s l) (k : ℕ) {i : ℕ}
    (st : SegmentState) (hstart : startingIndex (segmentStart r s l) ≤ i)
    (hi : i + k ≤ inst.segmentLength.toNat)
    (hat : OffsetsAt inst s l i st.curr_offset st.prev_offset)
    (haddresses : independent inst r s = true →
      AddressesAt inst r s l i st.address_block st.input_block)
    (hsweep : Sweep inst (made inst.segmentLength.toNat r s l i) (passBlock inst first r old) old
      st.memory) :
    Sweep inst (made inst.segmentLength.toNat r s l (i + k)) (passBlock inst first r old) old
      ((List.range' i k).foldl (fillSegmentStep inst (segmentStart r s l) (independent inst r s))
        st).memory := by
  induction k generalizing i st with
  | zero => exact hsweep
  | succ k ih =>
    have hlt : i < inst.segmentLength.toNat := by omega
    have hnext : independent inst r s = true → AddressesAt inst r s l (i + 1)
        (turnAddresses (independent inst r s) st.address_block st.input_block i).1
        (turnAddresses (independent inst r s) st.address_block st.input_block i).2 := by
      intro hindependent
      rw [hindependent]
      exact (haddresses hindependent).next
    rw [List.range'_succ, List.foldl_cons, ← Nat.add_assoc, Nat.add_right_comm]
    exact ih _ (by omega) (by omega) (hat.next hinst h hlt) hnext
      (fillSegmentStep_sweep hinst h hstart hlt st hat haddresses hsweep)

/-- Where lane `l` begins its segment in slice `s`, the first two blocks of the first slice left
out. -/
def begun (q r s l : ℕ) : ℕ → ℕ := made q r s l (if r = 0 ∧ s = 0 then 2 else 0)

theorem lt_begun_succ {q l' c : ℕ} : c < begun q r s (l + 1) l' ↔ c < made q r s l q l' := by
  have hnext : (s + 1) * q = s * q + q := Nat.add_one_mul s q
  have hzero : s = 0 → s * q = 0 := by
    rintro rfl
    exact Nat.zero_mul q
  unfold begun made
  split_ifs <;> omega

theorem fillSegment_sweep (hinst : inst.WellFormed) (h : Place inst r s l)
    (hsweep : Sweep inst (begun inst.segmentLength.toNat r s l) (passBlock inst first r old) old
      m) :
    Sweep inst (begun inst.segmentLength.toNat r s (l + 1)) (passBlock inst first r old) old
      (fillSegment inst (segmentStart r s l) m) := by
  have hge := hinst.segment_ge
  have hstart := h.startingIndex_eq hinst
  have hle : startingIndex (segmentStart r s l) ≤ inst.segmentLength.toNat := by
    rw [hstart]
    split_ifs <;> omega
  have hready : Sweep inst (made inst.segmentLength.toNat r s l
      (startingIndex (segmentStart r s l))) (passBlock inst first r old) old m := by
    rw [hstart]
    exact hsweep
  have hturns := turns_sweep hinst h
    (inst.segmentLength.toNat - startingIndex (segmentStart r s l))
    (segmentInit inst (segmentStart r s l) m) (Nat.le_refl _) (by omega) (offsetsAt_init hinst h m)
    (addressesAt_init hinst h m) hready
  rw [Nat.add_sub_cancel' hle] at hturns
  rw [fillSegment, dataIndependent_eq hinst h]
  exact hturns.congr fun l' _ c' _ => lt_begun_succ

theorem sliceFilled_sweep (hinst : inst.WellFormed) (hr : r < inst.passes.toNat) (hs : s < 4)
    (hsweep : Sweep inst (begun inst.segmentLength.toNat r s 0) (passBlock inst first r old) old
      m) :
    Sweep inst (begun inst.segmentLength.toNat r (s + 1) 0) (passBlock inst first r old) old
      (sliceFilled inst r m s) := by
  have hlanes : ∀ k ≤ inst.lanes.toNat, Sweep inst (begun inst.segmentLength.toNat r s k)
      (passBlock inst first r old) old
      ((List.range k).foldl (fun m l => fillSegment inst (segmentStart r s l) m) m) := by
    intro k hk
    induction k with
    | zero => exact hsweep
    | succ k ih =>
      rw [List.range_succ, List.foldl_append]
      exact fillSegment_sweep hinst ⟨hr, hs, hk⟩ (ih (by omega))
  refine (hlanes _ (Nat.le_refl _)).congr fun l' hl' c' _ => ?_
  simp only [begun, made, if_pos hl', Nat.not_lt_zero, Nat.succ_ne_zero, and_false, if_false]
  split_ifs <;> omega

/-- A whole pass makes all blocks of the recurrence, four slices after one another. -/
theorem pass_sweep (hinst : inst.WellFormed) (hr : r < inst.passes.toNat)
    (hsweep : Sweep inst (fun _ => if r = 0 then 2 else 0) (passBlock inst first r old) old m) :
    Sweep inst (fun _ => inst.laneLength.toNat) (passBlock inst first r old) old
      (passFilled inst m r) := by
  have hslices : ∀ k ≤ 4, Sweep inst (begun inst.segmentLength.toNat r k 0)
      (passBlock inst first r old) old ((List.range k).foldl (sliceFilled inst r) m) := by
    intro k hk
    induction k with
    | zero =>
      refine hsweep.congr fun l' _ c' _ => ?_
      simp only [begun, made, Nat.not_lt_zero, if_false, and_true, Nat.zero_mul, Nat.zero_add]
      split_ifs <;> omega
    | succ k ih =>
      rw [List.range_succ, List.foldl_append]
      exact sliceFilled_sweep hinst hr hk (ih (by omega))
  refine (hslices 4 (Nat.le_refl 4)).congr fun l' _ c' _ => ?_
  rw [hinst.laneLength_eq]
  simp only [begun, made, Nat.not_lt_zero, OfNat.ofNat_ne_zero, and_false, if_false]
  split_ifs <;> omega

/-- The memory holds the given blocks, lane by lane and column by column. -/
def Holds (inst : Instance) (b : ℕ → ℕ → Block) (m : Memory) : Prop :=
  ∀ l c, l < inst.lanes.toNat → c < inst.laneLength.toNat → m[inst.cell l c]? = some (b l c)

theorem Sweep.holds (h : Sweep inst (fun _ => inst.laneLength.toNat) new old m) :
    Holds inst new m := by
  intro l c hl hc
  rw [h l c hl hc, if_pos hc]

theorem Holds.sweep (h : Holds inst old m) : Sweep inst (fun _ => 0) new old m := by
  intro l c hl hc
  rw [h l c hl hc, if_neg (Nat.not_lt_zero c)]

/-- The passes make the blocks of the recurrence, pass by pass, on top of each other in one
memory. -/
theorem passes_holds (hinst : inst.WellFormed) {k : ℕ} (hk : k < inst.passes.toNat)
    (hfirst : Sweep inst (fun _ => 2) (blocks inst first 0) (fun _ _ => initBlockValue) m) :
    Holds inst (blocks inst first k) ((List.range (k + 1)).foldl (passFilled inst) m) := by
  induction k with
  | zero =>
    rw [List.range_one, List.foldl_cons, List.foldl_nil]
    exact (pass_sweep hinst hk hfirst).holds
  | succ k ih =>
    rw [List.range_succ, List.foldl_append, List.foldl_cons, List.foldl_nil]
    exact (pass_sweep hinst hk (ih (by omega)).sweep).holds

theorem fillMemoryBlocksSt_holds (hinst : inst.WellFormed)
    (hfirst : Sweep inst (fun _ => 2) (blocks inst first 0) (fun _ _ => initBlockValue) m) :
    Holds inst (blocks inst first (inst.passes.toNat - 1)) (fillMemoryBlocksSt inst m) := by
  have hpos := hinst.passes_pos
  have hpasses := passes_holds hinst (by omega : inst.passes.toNat - 1 < inst.passes.toNat) hfirst
  rw [Nat.sub_add_cancel hpos] at hpasses
  exact hpasses

end Pass

/-- The first blocks of the lanes, as functions of the initial hash. -/
def firstOf (blockhash : Bytes) (l c : ℕ) : Block :=
  loadBlock (longDigest 1024
    (blockhash ++ store32 (UInt32.ofNat c) ++ store32 (UInt32.ofNat l)))

/-- The last column of the blocks, xored over all lanes. -/
def finalBlock (inst : Instance) (b : ℕ → ℕ → Block) : Block :=
  (List.range' 1 (inst.lanes.toNat - 1)).foldl
    (fun blockhash l => xorBlock blockhash (b l (inst.laneLength.toNat - 1)))
    (b 0 (inst.laneLength.toNat - 1))

/-- The tag of a request, as a digest of a recurrence over digests. -/
def recurrenceTag (context : Context) (type : Argon2Type) : Bytes :=
  let inst := contextInstance context type
  let blockhash := digest 64 (initialHashPieces context type).flatten
  longDigest context.outlen.toNat
    (storeBlock (finalBlock inst (blocks inst (firstOf blockhash) (inst.passes.toNat - 1))))

section Tag
variable {context : Context} {inst : Instance} {m : Memory}

theorem firstBlock_eq (blockhash : Bytes) (l c : ℕ) :
    firstBlock blockhash (UInt32.ofNat c) l = firstOf blockhash l c := by
  rw [firstBlock, argon2BlockSize, blake2bLong_eq (by decide) (by decide), Option.getD_some,
    firstOf]

/-- Behind `passe_fill_first_blocks` the memory is in the middle of the first pass. -/
theorem fillFirstBlocks_sweep (hinst : inst.WellFormed) (blockhash : Bytes) :
    Sweep inst (fun _ => 2) (blocks inst (firstOf blockhash) 0) (fun _ _ => initBlockValue)
      (fillFirstBlocks blockhash inst (Array.replicate inst.memoryBlocks.toNat initBlockValue)) := by
  intro l c hl hc
  rw [getElem?_fillFirstBlocks hinst blockhash Array.size_replicate hl hc]
  by_cases hfirst : c < 2
  · rw [if_pos hfirst, if_pos hfirst, firstBlock_eq, blocks, passBlock, if_pos ⟨rfl, hfirst⟩]
  · rw [if_neg hfirst, if_neg hfirst, Array.getElem?_replicate,
      if_pos (Instance.cell_lt hinst hl hc)]

theorem foldl_xorBlock_congr {f g : ℕ → Block} (ls : List ℕ) (hfg : ∀ l ∈ ls, f l = g l)
    (x : Block) :
    ls.foldl (fun x l => xorBlock x (f l)) x = ls.foldl (fun x l => xorBlock x (g l)) x :=
  List.foldl_ext _ _ x fun x l hl => congrArg (xorBlock x) (hfg l hl)

theorem finalize_eq (hinst : inst.WellFormed) {b : ℕ → ℕ → Block} (hm : Holds inst b m)
    (hpos : 0 < context.outlen.toNat) :
    finalize context inst m = longDigest context.outlen.toNat (storeBlock (finalBlock inst b)) := by
  have hlength := hinst.laneLength_pos
  have hone : (1 : UInt32).toNat = 1 := rfl
  have hlast : ∀ l < inst.lanes.toNat,
      blockAt m (UInt32.ofNat l * inst.laneLength + (inst.laneLength - 1)).toNat =
        b l (inst.laneLength.toNat - 1) := by
    intro l hl
    have hcell := Instance.cell_lt hinst hl (by omega : inst.laneLength.toNat - 1 < _)
    have hblocks := inst.memoryBlocks.toNat_lt
    have hsum : inst.cell l 0 + (inst.laneLength.toNat - 1) =
        inst.cell l (inst.laneLength.toNat - 1) := by
      rw [Instance.cell, Instance.cell, Nat.add_zero]
    have hindex : (UInt32.ofNat l * inst.laneLength + (inst.laneLength - 1)).toNat =
        inst.cell l (inst.laneLength.toNat - 1) := by
      rw [UInt32.toNat_add, toNat_lane_mul hinst hl,
        UInt32.toNat_sub_of_le _ _ (UInt32.le_iff_toNat_le.mpr (by omega)), hone, hsum,
        Nat.mod_eq_of_lt (by omega)]
    rw [hindex, blockAt, Array.getD_eq_getD_getElem?, hm _ _ hl (by omega), Option.getD_some]
  have hlanes := hinst.lanes_pos
  have hothers : ∀ l ∈ List.range' 1 (inst.lanes.toNat - 1), l < inst.lanes.toNat := by
    intro l hl
    have hrange := List.mem_range'_1.mp hl
    omega
  have hlt := context.outlen.toNat_lt
  simp only [finalize]
  rw [hlast 0 hlanes, foldl_xorBlock_congr _ fun l hl => hlast l (hothers l hl),
    blake2bLong_eq hpos (by omega), Option.getD_some, finalBlock]

/-- The tag is the one of the recurrence, for every request that is valid. -/
theorem tag_eq_recurrence (hvalid : context.Valid) (type : Argon2Type) :
    tag context type = recurrenceTag context type := by
  have hinst := contextInstance_wellFormed hvalid type
  have hmin := hvalid.outlen_ge
  rw [tag, initialHash_eq]
  exact finalize_eq hinst (fillMemoryBlocksSt_holds hinst (fillFirstBlocks_sweep hinst _))
    (by omega)

/-- A run that succeeds, on any host, leaves the tag of the recurrence. -/
theorem argon2Ctx_eq_recurrence {host : Host} {type : Argon2Type} {out : Bytes}
    (h : argon2Ctx host context type = .ok out) : out = recurrenceTag context type := by
  obtain ⟨hvalid, rfl⟩ := argon2Ctx_eq_ok h
  exact tag_eq_recurrence hvalid type

theorem argon2Ctx_eq_recurrence_twoLanes :
    ∃ out, argon2Ctx ⟨true, fun _ => true⟩ twoLanesContext .id = .ok out ∧
      out = recurrenceTag twoLanesContext .id := by
  have hvalid : twoLanesContext.Valid := validateInputs_eq_ok_iff.mp rfl
  have hrun : argon2Ctx ⟨true, fun _ => true⟩ twoLanesContext .id = .ok (tag twoLanesContext .id) :=
    argon2Ctx_of_generous (fun _ => rfl) hvalid
  exact ⟨_, hrun, argon2Ctx_eq_recurrence hrun⟩

end Tag

end Passe.Argon2
