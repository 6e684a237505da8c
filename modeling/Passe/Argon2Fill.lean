import Passe.Argon2Runs

/-!
# What the tag depends on

The blocks come from `malloc` with whatever was there before. The first pass reads
no block before it has written it, so none of that gets into the tag; nor does the
number of threads or the order in which they run.
-/
namespace Passe.Argon2

/-- How many blocks of lane `l'` are there when block `i` of segment `s` of lane `l` is made
in the first pass. -/
def frontier (q s l i l' : ℕ) : ℕ :=
  if l' < l then (s + 1) * q else if l' = l then s * q + i else if s = 0 then 2 else s * q

/-- Two memories agree on the first `b l` blocks of every lane `l`. -/
def AgreeBelow (inst : Instance) (b : ℕ → ℕ) (m n : Memory) : Prop :=
  ∀ l c, l < inst.lanes.toNat → c < inst.laneLength.toNat → c < b l →
    m[inst.cell l c]? = n[inst.cell l c]?

section FirstPass
variable {inst : Instance} {s l i : ℕ} {m n : Memory}

theorem AgreeBelow.mono {b b' : ℕ → ℕ} (h : AgreeBelow inst b m n)
    (hle : ∀ l < inst.lanes.toNat, b' l ≤ b l) : AgreeBelow inst b' m n :=
  fun l c hl hc hb => h l c hl hc (hb.trans_le (hle l hl))

/-- Memories that agree on all blocks are equal, since every index is a block of some lane. -/
theorem AgreeBelow.eq (hinst : inst.WellFormed) (hm : m.size = inst.memoryBlocks.toNat)
    (hn : n.size = inst.memoryBlocks.toNat)
    (h : AgreeBelow inst (fun _ => inst.laneLength.toNat) m n) : m = n := by
  refine Array.ext_getElem? fun a => ?_
  by_cases ha : a < inst.memoryBlocks.toNat
  · have hpos := hinst.laneLength_pos
    have hlane : a / inst.laneLength.toNat < inst.lanes.toNat := by
      rw [Nat.div_lt_iff_lt_mul hpos, ← hinst.blocks_eq]
      exact ha
    have hcell : inst.cell (a / inst.laneLength.toNat) (a % inst.laneLength.toNat) = a :=
      Nat.div_add_mod' a inst.laneLength.toNat
    have hagree := h _ _ hlane (Nat.mod_lt a hpos) (Nat.mod_lt a hpos)
    rw [hcell] at hagree
    exact hagree
  · rw [Array.getElem?_eq_none (by omega), Array.getElem?_eq_none (by omega)]

/-- In the first pass the old contents of the current block do not matter. -/
theorem fillBlock_of_not_xor (prev_block ref_block b b' : Block) :
    fillBlock prev_block ref_block b false = fillBlock prev_block ref_block b' false := rfl

@[simp] theorem withXor_first (inst : Instance) (s l : ℕ) :
    withXor inst (segmentStart 0 s l) = false := by
  simp [withXor, segmentStart]

/-- The reference block of the first pass is there already when a turn asks for it. -/
theorem Referable.lt_frontier {q l' c : ℕ} (h : Referable q 0 s l i l' c) :
    c < frontier q s l i l' := by
  have hlt := h.finished rfl
  have hnext : (s + 1) * q = s * q + q := Nat.add_one_mul s q
  have hown : s * q ≤ c → l' = l ∧ c + 1 < s * q + i := fun hlo => h.own hlo hlt
  have hzero : s = 0 → s * q = 0 := by
    rintro rfl
    exact Nat.zero_mul q
  unfold frontier
  split_ifs <;> omega

/-- So is the block before, which in the first pass never lies around the end of the lane. -/
theorem prevColumn_lt_frontier {q : ℕ} (hq : 2 ≤ q) (hs : s < 4) (hi : s = 0 → 2 ≤ i) :
    prevColumn q s i < frontier q s l i l := by
  have hsegment := segment_cases q hs
  rw [prevColumn, frontier, if_neg (Nat.lt_irrefl l), if_pos rfl]
  split_ifs <;> omega

/-- The current block is the only one that joins them at the end of the turn. -/
theorem lt_frontier_of_ne {q l' c : ℕ} (h : c < frontier q s l (i + 1) l')
    (hne : ¬(l' = l ∧ c = s * q + i)) : c < frontier q s l i l' := by
  unfold frontier at h ⊢
  split_ifs at h ⊢ <;> omega

/-- A turn of the first pass looks at blocks that are there only. -/
theorem fillSegmentStep_agree (hinst : inst.WellFormed) (h : Place inst 0 s l)
    (hstart : startingIndex (segmentStart 0 s l) ≤ i) (hi : i < inst.segmentLength.toNat)
    (st : SegmentState) (hat : OffsetsAt inst s l i st.curr_offset st.prev_offset)
    (hm : st.memory.size = inst.memoryBlocks.toNat) (hn : n.size = inst.memoryBlocks.toNat)
    (hagree : AgreeBelow inst (frontier inst.segmentLength.toNat s l i) st.memory n)
    (independent : Bool) :
    ∃ n', fillSegmentStep inst (segmentStart 0 s l) independent { st with memory := n } i =
        { fillSegmentStep inst (segmentStart 0 s l) independent st i with memory := n' } ∧
      n'.size = inst.memoryBlocks.toNat ∧
      AgreeBelow inst (frontier inst.segmentLength.toNat s l (i + 1))
        (fillSegmentStep inst (segmentStart 0 s l) independent st i).memory n' := by
  have hcolumn := h.column_lt hinst hi
  have hcurr := Instance.cell_lt hinst h.lane_lt hcolumn
  have hsecond : s = 0 → 2 ≤ i := by
    intro hs
    rw [h.startingIndex_eq hinst, if_pos ⟨rfl, hs⟩] at hstart
    exact hstart
  have hprev : blockAt st.memory (rotatePrev inst st.curr_offset st.prev_offset).toNat =
      blockAt n (rotatePrev inst st.curr_offset st.prev_offset).toNat := by
    have hlt := prevColumn_lt_frontier (l := l) hinst.segment_ge h.slice_lt hsecond
    rw [hat.prev_eq hi]
    refine blockAt_congr (hagree _ _ h.lane_lt ?_ hlt)
    rw [frontier, if_neg (Nat.lt_irrefl l), if_pos rfl] at hlt
    omega
  have href : ∀ rand, blockAt st.memory (refOffset inst (segmentStart 0 s l) rand i) =
      blockAt n (refOffset inst (segmentStart 0 s l) rand i) := by
    intro rand
    have href := referable_picked hinst h hstart hi rand
    have hc := href.lt
    rw [← hinst.laneLength_eq] at hc
    rw [refOffset_eq hinst h hstart hi]
    exact blockAt_congr (hagree _ _ (pickedLane_lt hinst h rand) hc href.lt_frontier)
  rw [fillSegmentStep, fillSegmentStep]
  simp only [withXor_first, ← hprev, ← href]
  rw [fillBlock_of_not_xor _ _ (blockAt n st.curr_offset.toNat)
    (blockAt st.memory st.curr_offset.toNat)]
  refine ⟨_, rfl, Array.size_setIfInBounds.trans hn, ?_⟩
  intro l' c hl' hc hlt
  by_cases heq : l' = l ∧ c = s * inst.segmentLength.toNat + i
  · obtain ⟨rfl, rfl⟩ := heq
    rw [hat.curr_eq, Array.getElem?_setIfInBounds_self_of_lt (by omega),
      Array.getElem?_setIfInBounds_self_of_lt (by omega)]
  · have hne : st.curr_offset.toNat ≠ inst.cell l' c := by
      intro hcell
      rw [hat.curr_eq] at hcell
      obtain ⟨hl, hc'⟩ := Instance.cell_inj hcolumn hc hcell
      exact heq ⟨hl.symm, hc'.symm⟩
    rw [Array.getElem?_setIfInBounds_ne hne, Array.getElem?_setIfInBounds_ne hne]
    exact hagree l' c hl' hc (lt_frontier_of_ne hlt heq)

theorem turns_agree (hinst : inst.WellFormed) (h : Place inst 0 s l)
    (independent : Bool) (k : ℕ) {i : ℕ} {n : Memory} (st : SegmentState)
    (hstart : startingIndex (segmentStart 0 s l) ≤ i) (hi : i + k ≤ inst.segmentLength.toNat)
    (hat : OffsetsAt inst s l i st.curr_offset st.prev_offset)
    (hm : st.memory.size = inst.memoryBlocks.toNat) (hn : n.size = inst.memoryBlocks.toNat)
    (hagree : AgreeBelow inst (frontier inst.segmentLength.toNat s l i) st.memory n) :
    AgreeBelow inst (frontier inst.segmentLength.toNat s l (i + k))
      ((List.range' i k).foldl (fillSegmentStep inst (segmentStart 0 s l) independent) st).memory
      ((List.range' i k).foldl (fillSegmentStep inst (segmentStart 0 s l) independent)
        { st with memory := n }).memory := by
  induction k generalizing i n st with
  | zero => exact hagree
  | succ k ih =>
    have hlt : i < inst.segmentLength.toNat := by omega
    obtain ⟨n', hstep, hn', hagree'⟩ :=
      fillSegmentStep_agree hinst h hstart hlt st hat hm hn hagree independent
    rw [List.range'_succ, List.foldl_cons, List.foldl_cons, hstep, ← Nat.add_assoc,
      Nat.add_right_comm]
    exact ih _ (by omega) (by omega) (hat.next hinst h hlt)
      ((size_fillSegmentStep independent st).trans hm) hn' hagree'

/-- The blocks that are there when the segment of lane `l` is begun. -/
def ready (q s l : ℕ) : ℕ → ℕ := frontier q s l (if s = 0 then 2 else 0)

theorem ready_succ_le {q : ℕ} (l' : ℕ) : ready q s (l + 1) l' ≤ frontier q s l q l' := by
  have hnext : (s + 1) * q = s * q + q := Nat.add_one_mul s q
  have hzero : s = 0 → s * q = 0 := by
    rintro rfl
    exact Nat.zero_mul q
  unfold ready frontier
  split_ifs <;> omega

theorem segment_agree (hinst : inst.WellFormed) (h : Place inst 0 s l)
    (hm : m.size = inst.memoryBlocks.toNat) (hn : n.size = inst.memoryBlocks.toNat)
    (hagree : AgreeBelow inst (ready inst.segmentLength.toNat s l) m n) :
    AgreeBelow inst (ready inst.segmentLength.toNat s (l + 1))
      (fillSegment inst (segmentStart 0 s l) m) (fillSegment inst (segmentStart 0 s l) n) := by
  have hge := hinst.segment_ge
  have hstart : startingIndex (segmentStart 0 s l) = if s = 0 then 2 else 0 := by
    rw [h.startingIndex_eq hinst]
    simp only [true_and]
  have hle : startingIndex (segmentStart 0 s l) ≤ inst.segmentLength.toNat := by
    rw [hstart]
    split_ifs <;> omega
  have hturns := turns_agree hinst h (dataIndependent inst (segmentStart 0 s l))
    (inst.segmentLength.toNat - startingIndex (segmentStart 0 s l))
    (segmentInit inst (segmentStart 0 s l) m) (Nat.le_refl _) (by omega) (offsetsAt_init hinst h m)
    hm hn (hstart ▸ hagree)
  rw [Nat.add_sub_cancel' hle] at hturns
  rw [fillSegment, fillSegment]
  exact hturns.mono fun l' _ => ready_succ_le l'

theorem slice_agree (hinst : inst.WellFormed) (hs : s < 4)
    (hm : m.size = inst.memoryBlocks.toNat) (hn : n.size = inst.memoryBlocks.toNat)
    (hagree : AgreeBelow inst (ready inst.segmentLength.toNat s 0) m n) :
    AgreeBelow inst (ready inst.segmentLength.toNat (s + 1) 0)
      (sliceFilled inst 0 m s) (sliceFilled inst 0 n s) := by
  have hlanes : ∀ k ≤ inst.lanes.toNat, AgreeBelow inst (ready inst.segmentLength.toNat s k)
      ((List.range k).foldl (fun m l => fillSegment inst (segmentStart 0 s l) m) m)
      ((List.range k).foldl (fun m l => fillSegment inst (segmentStart 0 s l) m) n) := by
    intro k hk
    induction k with
    | zero => exact hagree
    | succ k ih =>
      simp only [List.range_succ, List.foldl_append, List.foldl_cons, List.foldl_nil]
      exact segment_agree hinst ⟨hinst.passes_pos, hs, hk⟩
        ((size_foldl_fillSegment inst 0 s (List.range k) m).trans hm)
        ((size_foldl_fillSegment inst 0 s (List.range k) n).trans hn) (ih (by omega))
  refine (hlanes _ (Nat.le_refl _)).mono fun l' hl' => ?_
  simp only [ready, frontier, if_pos hl', Nat.not_lt_zero, Nat.succ_ne_zero, if_false]
  split_ifs <;> omega

/-- The first pass leaves the same memory whatever was in the blocks that nobody filled. -/
theorem firstPass_congr (hinst : inst.WellFormed) (hm : m.size = inst.memoryBlocks.toNat)
    (hn : n.size = inst.memoryBlocks.toNat) (hagree : AgreeBelow inst (fun _ => 2) m n) :
    (List.range 4).foldl (sliceFilled inst 0) m = (List.range 4).foldl (sliceFilled inst 0) n := by
  have hsize : ∀ (k : ℕ) (m : Memory),
      ((List.range k).foldl (sliceFilled inst 0) m).size = m.size := by
    intro k m
    induction k with
    | zero => rfl
    | succ k ih =>
      rw [List.range_succ, List.foldl_append, ← ih]
      exact size_foldl_fillSegment inst 0 k (List.range inst.lanes.toNat) _
  have hslices : ∀ k ≤ 4, AgreeBelow inst (ready inst.segmentLength.toNat k 0)
      ((List.range k).foldl (sliceFilled inst 0) m)
      ((List.range k).foldl (sliceFilled inst 0) n) := by
    intro k hk
    induction k with
    | zero =>
      refine hagree.mono fun l' _ => ?_
      simp only [ready, frontier, Nat.not_lt_zero, if_false, if_true, Nat.zero_mul]
      split_ifs <;> omega
    | succ k ih =>
      simp only [List.range_succ, List.foldl_append, List.foldl_cons, List.foldl_nil]
      exact slice_agree hinst hk ((hsize k m).trans hm) ((hsize k n).trans hn) (ih (by omega))
  refine AgreeBelow.eq hinst ((hsize 4 m).trans hm) ((hsize 4 n).trans hn) ?_
  refine (hslices 4 (Nat.le_refl 4)).mono fun l' _ => ?_
  rw [hinst.laneLength_eq]
  simp only [ready, frontier, Nat.not_lt_zero, OfNat.ofNat_ne_zero, if_false]
  split_ifs <;> omega

end FirstPass

section Tag
variable {inst : Instance} {context : Context} {type : Argon2Type} {m n : Memory}

/-- All passes, from two memories that agree on the first two blocks of every lane. -/
theorem fillMemoryBlocksSt_congr (hinst : inst.WellFormed) (hm : m.size = inst.memoryBlocks.toNat)
    (hn : n.size = inst.memoryBlocks.toNat) (hagree : AgreeBelow inst (fun _ => 2) m n) :
    fillMemoryBlocksSt inst m = fillMemoryBlocksSt inst n := by
  have hpasses : inst.passes.toNat = inst.passes.toNat - 1 + 1 := by
    have hpos := hinst.passes_pos
    omega
  have hfirst : ∀ m, (List.range argon2SyncPoints.toNat).foldl (fun memory s =>
      (List.range inst.lanes.toNat).foldl
        (fun memory l => fillSegment inst (segmentStart 0 s l) memory) memory) m =
      (List.range 4).foldl (sliceFilled inst 0) m := fun _ => rfl
  unfold fillMemoryBlocksSt
  rw [hpasses, List.range_succ_eq_map, List.foldl_cons, List.foldl_cons, hfirst, hfirst,
    firstPass_congr hinst hm hn hagree]

@[simp] theorem size_fillFirst (blockhash : Bytes) (m : Memory) (l : ℕ) :
    (fillFirst blockhash inst m l).size = m.size := by
  rw [fillFirst, Array.size_setIfInBounds, Array.size_setIfInBounds]

@[simp] theorem size_foldl_fillFirst (blockhash : Bytes) (ls : List ℕ) (m : Memory) :
    (ls.foldl (fillFirst blockhash inst) m).size = m.size := by
  induction ls generalizing m with
  | nil => rfl
  | cons l ls ih => rw [List.foldl_cons, ih, size_fillFirst]

theorem toNat_lane_mul (hinst : inst.WellFormed) {l : ℕ} (hl : l < inst.lanes.toNat) :
    (UInt32.ofNat l * inst.laneLength).toNat = inst.cell l 0 := by
  have hcell := Instance.cell_lt hinst hl hinst.laneLength_pos
  have hblocks := inst.memoryBlocks.toNat_lt
  have hlane : (UInt32.ofNat l).toNat = l :=
    UInt32.toNat_ofNat_of_lt' (hl.trans inst.lanes.toNat_lt)
  unfold Instance.cell at hcell ⊢
  rw [UInt32.toNat_mul, hlane, Nat.mod_eq_of_lt (by omega), Nat.add_zero]

/-- One lane gets its two blocks, everything else stays, and no two lanes are in each other's
way. -/
theorem getElem?_fillFirst (hinst : inst.WellFormed) (blockhash : Bytes)
    (hm : m.size = inst.memoryBlocks.toNat) {k l c : ℕ} (hk : k < inst.lanes.toNat)
    (hc : c < inst.laneLength.toNat) :
    (fillFirst blockhash inst m k)[inst.cell l c]? =
      if l = k ∧ c < 2 then some (firstBlock blockhash (UInt32.ofNat c) k)
      else m[inst.cell l c]? := by
  have hlength : 2 < inst.laneLength.toNat := by
    have hge := hinst.segment_ge
    rw [hinst.laneLength_eq]
    omega
  have hsecond : inst.cell k 0 + 1 = inst.cell k 1 := rfl
  have hcell := Instance.cell_lt hinst hk (by omega : 1 < inst.laneLength.toNat)
  rw [fillFirst, toNat_lane_mul hinst hk, hsecond]
  by_cases heq : l = k ∧ c < 2
  · obtain ⟨rfl, hc2⟩ := heq
    rw [if_pos ⟨rfl, hc2⟩]
    have hcases : c = 0 ∨ c = 1 := by omega
    rcases hcases with rfl | rfl
    · rw [Array.getElem?_setIfInBounds_ne (by omega),
        Array.getElem?_setIfInBounds_self_of_lt (by omega)]
      rfl
    · rw [Array.getElem?_setIfInBounds_self_of_lt (by rw [Array.size_setIfInBounds]; omega)]
      rfl
  · have hne : ∀ {d : ℕ}, d < 2 → inst.cell k d ≠ inst.cell l c := by
      intro d hd hcells
      obtain ⟨hl, hd'⟩ := Instance.cell_inj (by omega) hc hcells
      exact heq ⟨hl.symm, hd' ▸ hd⟩
    rw [if_neg heq, Array.getElem?_setIfInBounds_ne (hne (by omega)),
      Array.getElem?_setIfInBounds_ne (hne (by omega))]

/-- The first two blocks of every lane are those of the initial hash. -/
theorem getElem?_fillFirstBlocks (hinst : inst.WellFormed) (blockhash : Bytes)
    (hm : m.size = inst.memoryBlocks.toNat) {l c : ℕ} (hl : l < inst.lanes.toNat)
    (hc : c < inst.laneLength.toNat) :
    (fillFirstBlocks blockhash inst m)[inst.cell l c]? =
      if c < 2 then some (firstBlock blockhash (UInt32.ofNat c) l) else m[inst.cell l c]? := by
  have hlanes : ∀ k ≤ inst.lanes.toNat,
      ((List.range k).foldl (fillFirst blockhash inst) m)[inst.cell l c]? =
        if l < k ∧ c < 2 then some (firstBlock blockhash (UInt32.ofNat c) l)
        else m[inst.cell l c]? := by
    intro k hk
    induction k with
    | zero => exact (if_neg fun hboth => absurd hboth.1 (Nat.not_lt_zero l)).symm
    | succ k ih =>
      rw [List.range_succ, List.foldl_append, List.foldl_cons, List.foldl_nil,
        getElem?_fillFirst hinst blockhash ((size_foldl_fillFirst blockhash _ m).trans hm) hk hc,
        ih (by omega)]
      by_cases heq : l = k
      · subst heq
        simp
      · have hlt : l < k + 1 ↔ l < k := by omega
        simp [heq, hlt]
  rw [fillFirstBlocks, hlanes inst.lanes.toNat (Nat.le_refl _)]
  simp only [hl, true_and]

@[simp] theorem size_fillFirstBlocks (blockhash : Bytes) (m : Memory) :
    (fillFirstBlocks blockhash inst m).size = m.size :=
  size_foldl_fillFirst blockhash _ m

theorem fillFirstBlocks_agree (hinst : inst.WellFormed) (blockhash : Bytes)
    (hm : m.size = inst.memoryBlocks.toNat) (hn : n.size = inst.memoryBlocks.toNat) :
    AgreeBelow inst (fun _ => 2) (fillFirstBlocks blockhash inst m)
      (fillFirstBlocks blockhash inst n) := by
  intro l c hl hc hc2
  rw [getElem?_fillFirstBlocks hinst blockhash hm hl hc,
    getElem?_fillFirstBlocks hinst blockhash hn hl hc, if_pos hc2, if_pos hc2]

/-- The tag does not depend on what was in the memory, although `malloc` does not clear it and
the first pass reads before everything is written. -/
theorem finalize_eq_tag (hvalid : context.Valid)
    (hm : m.size = (contextInstance context type).memoryBlocks.toNat) :
    finalize context (contextInstance context type)
      (fillMemoryBlocksSt (contextInstance context type)
        (fillFirstBlocks (initialHash context type) (contextInstance context type) m)) =
      tag context type := by
  have hinst := contextInstance_wellFormed hvalid type
  have hn := Array.size_replicate (n := (contextInstance context type).memoryBlocks.toNat)
    (v := initBlockValue)
  rw [fillMemoryBlocksSt_congr hinst ((size_fillFirstBlocks _ m).trans hm)
    ((size_fillFirstBlocks _ _).trans hn) (fillFirstBlocks_agree hinst _ hm hn)]
  rfl

/-- The same request with another limit on the threads. The limit is no part of what is hashed.
-/
def Context.withThreads (context : Context) (threads : UInt32) : Context :=
  { context with threads := threads }

@[simp] theorem tag_withThreads (context : Context) (type : Argon2Type) (threads : UInt32) :
    tag (context.withThreads threads) type = tag context type := rfl

/-- Every run of the threads on every memory that ends well gives the one tag, however many
threads there may be at a time. -/
theorem tag_of_returned {threads : UInt32} {c : Config}
    (hvalid : (context.withThreads threads).Valid)
    (hm : m.size = (contextInstance context type).memoryBlocks.toNat)
    (h : Reachable (contextInstance (context.withThreads threads) type)
      (fillFirstBlocks (initialHash context type) (contextInstance context type) m) c)
    (hops : c.ops = []) (hrc : c.rc = .ok ()) :
    finalize context (contextInstance context type) c.memory = tag context type := by
  have hinst := contextInstance_wellFormed hvalid type
  have hmemory := memory_of_returned hinst ((size_fillFirstBlocks _ m).trans hm) h hops hrc
  have htag := @finalize_eq_tag (context.withThreads threads) type m hvalid hm
  rw [hmemory, ← tag_withThreads context type threads]
  exact htag

def onesMemory : Memory := Array.replicate 24 (Vector.replicate 128 1)

theorem tag_of_returned_twoLanes :
    ∃ c, Reachable (contextInstance (twoLanesContext.withThreads 2) .id) (fillFirstBlocks
        (initialHash twoLanesContext .id) (contextInstance twoLanesContext .id) onesMemory) c ∧
      finalize twoLanesContext (contextInstance twoLanesContext .id) c.memory =
        tag twoLanesContext .id := by
  have hvalid : (twoLanesContext.withThreads 2).Valid := validateInputs_eq_ok_iff.mp rfl
  have hinst := contextInstance_wellFormed hvalid .id
  have hsize : onesMemory.size = (contextInstance twoLanesContext .id).memoryBlocks.toNat :=
    Array.size_replicate
  have h : Reachable (contextInstance (twoLanesContext.withThreads 2) .id) (fillFirstBlocks
      (initialHash twoLanesContext .id) (contextInstance twoLanesContext .id) onesMemory) _ := .refl
  obtain ⟨c, hrun, hops, hrc, -⟩ := exists_reachable_ops hinst
    ((size_fillFirstBlocks _ _).trans hsize) _ h (List.append_nil _).symm
  exact ⟨c, h.trans hrun, tag_of_returned hvalid hsize (h.trans hrun) hops hrc⟩

end Tag

end Passe.Argon2
