import Passe.Argon2Segment
import Passe.Interleaving

/-!
# The threads of one slice

A thread fills its segment block by block, and `fill_block` goes to the shared
memory up to six times for one block. The lanes of a slice do this at the same
time. Every block has one thread that writes it, and the window of
`passe_index_alpha` keeps the others away from it, so no two threads race and all
orders of their accesses fill the slice alike.
-/
namespace Passe.Argon2
open Interleaving

/-- What a thread does next, with the blocks it has at hand. The phases after `pick`
are the accesses of `fill_block`, which goes through whole blocks. -/
inductive Phase
  | pick
  | copyRef (ref_offset : ℕ)
  | xorPrev (blockR : Block)
  | xorNext (blockR : Block)
  | copyTmp (block_tmp blockR : Block)
  | xorResult (blockR : Block)

/-- The local variables of `passe_fill_segment`, which every thread has of its own; only the
blocks are shared. -/
structure Thread where
  position : Position
  i : ℕ
  address_block : Block
  input_block : Block
  prev_offset : UInt32
  curr_offset : UInt32
  phase : Phase

/-- The thread at the head of turn `i`, with the offsets and the addresses that the turns before
have left. -/
def Thread.atTurn (position : Position) (i : ℕ) (s : SegmentState) : Thread :=
  ⟨position, i, s.address_block, s.input_block, s.prev_offset, s.curr_offset, .pick⟩

/-- The thread `fill_segment_thr` is started as, with a copy of its position. -/
def threadStart (inst : Instance) (position : Position) : Thread :=
  .atTurn position (startingIndex position) (segmentInit inst position #[])

/-- The next access, and none when the loop is over. A turn copies and adds up blocks in the
order of `fill_block`, one shared block at a time. -/
def threadStep (inst : Instance) (t : Thread) (memory : Memory) : Option (Thread × Memory) :=
  let prev := t.prev_offset.toNat
  let curr := t.curr_offset.toNat
  match t.phase with
  | .pick =>
    if t.i < inst.segmentLength.toNat then
      let independent := dataIndependent inst t.position
      let prev_offset := rotatePrev inst t.curr_offset t.prev_offset
      let addresses := turnAddresses independent t.address_block t.input_block t.i
      let pseudo_rand := pseudoRand independent addresses.1 (blockAt memory prev_offset.toNat) t.i
      let ref_offset := refOffset inst t.position pseudo_rand t.i
      some (⟨t.position, t.i, addresses.1, addresses.2, prev_offset, t.curr_offset,
        .copyRef ref_offset⟩, memory)
    else none
  | .copyRef ref_offset => some ({ t with phase := .xorPrev (blockAt memory ref_offset) }, memory)
  | .xorPrev blockR =>
    let blockR := xorBlock blockR (blockAt memory prev)
    let phase := if withXor inst t.position then .xorNext blockR
      else .copyTmp blockR (blockRounds blockR)
    some ({ t with phase := phase }, memory)
  | .xorNext blockR =>
    let block_tmp := xorBlock blockR (blockAt memory curr)
    some ({ t with phase := .copyTmp block_tmp (blockRounds blockR) }, memory)
  | .copyTmp block_tmp blockR =>
    some ({ t with phase := .xorResult blockR }, memory.setIfInBounds curr block_tmp)
  | .xorResult blockR =>
    some ({ t with
      i := t.i + 1
      prev_offset := t.prev_offset + 1
      curr_offset := t.curr_offset + 1
      phase := .pick }, memory.setIfInBounds curr (xorBlock (blockAt memory curr) blockR))

/-- The blocks the next access looks at. A block that is written counts too. -/
def threadReads (inst : Instance) (t : Thread) : Set ℕ :=
  match t.phase with
  | .pick => {a | t.i < inst.segmentLength.toNat ∧ dataIndependent inst t.position = false ∧
      a = (rotatePrev inst t.curr_offset t.prev_offset).toNat}
  | .copyRef ref_offset => {ref_offset}
  | .xorPrev _ => {t.prev_offset.toNat}
  | .xorNext _ | .copyTmp _ _ | .xorResult _ => {t.curr_offset.toNat}

/-- The blocks the next access writes: the current one, or none. -/
def threadWrites (t : Thread) : Set ℕ :=
  match t.phase with
  | .copyTmp _ _ | .xorResult _ => {t.curr_offset.toNat}
  | _ => ∅

/-- The threads of one slice, one for each lane, as an instance of the general interleaving. -/
def sliceThreads (inst : Instance) :
    Threads (Fin inst.lanes.toNat) Thread Memory ℕ (Option Block) where
  step _ := threadStep inst
  get memory a := memory[a]?
  reads _ := threadReads inst
  writes _ := threadWrites

theorem blockAt_congr {m n : Memory} {a : ℕ} (h : m[a]? = n[a]?) : blockAt m a = blockAt n a := by
  unfold blockAt
  rw [Array.getD_eq_getD_getElem?, Array.getD_eq_getD_getElem?, h]

theorem getElem?_setIfInBounds_congr {m n : Memory} {a : ℕ} (h : m[a]? = n[a]?) (b : Block) :
    (m.setIfInBounds a b)[a]? = (n.setIfInBounds a b)[a]? := by
  have hsize : a < m.size ↔ a < n.size := by
    rw [← isSome_getElem? m a, ← isSome_getElem? n a, h]
  rw [Array.getElem?_setIfInBounds_self, Array.getElem?_setIfInBounds_self]
  simp only [hsize]

section Access
variable {inst : Instance} {t t' : Thread} {m m' n : Memory}

/-- An access writes the current block or nothing, so the size of the memory never changes. -/
theorem threadStep_memory (h : threadStep inst t m = some (t', m')) :
    threadWrites t = ∅ ∧ m' = m ∨
      threadWrites t = {t.curr_offset.toNat} ∧ ∃ b, m' = m.setIfInBounds t.curr_offset.toNat b := by
  obtain ⟨position, i, address_block, input_block, prev_offset, curr_offset, phase⟩ := t
  cases phase with
  | pick =>
    simp only [threadStep, Option.ite_none_right_eq_some, Option.some.injEq, Prod.mk.injEq] at h
    exact .inl ⟨rfl, h.2.2.symm⟩
  | copyRef ref_offset => exact .inl ⟨rfl, (Prod.mk.inj (Option.some.inj h)).2.symm⟩
  | xorPrev blockR => exact .inl ⟨rfl, (Prod.mk.inj (Option.some.inj h)).2.symm⟩
  | xorNext blockR => exact .inl ⟨rfl, (Prod.mk.inj (Option.some.inj h)).2.symm⟩
  | copyTmp block_tmp blockR => exact .inr ⟨rfl, _, (Prod.mk.inj (Option.some.inj h)).2.symm⟩
  | xorResult blockR => exact .inr ⟨rfl, _, (Prod.mk.inj (Option.some.inj h)).2.symm⟩

theorem pseudoRand_congr {independent : Bool} {address_block b b' : Block} {i : ℕ}
    (h : independent = false → b = b') :
    pseudoRand independent address_block b i = pseudoRand independent address_block b' i := by
  cases independent with
  | false => rw [h rfl]
  | true => rfl

/-- On memories that agree where the access looks it goes the same way. -/
theorem threadStep_congr (hread : ∀ a ∈ threadReads inst t, m[a]? = n[a]?)
    (h : threadStep inst t m = some (t', m')) :
    ∃ n', threadStep inst t n = some (t', n') ∧ ∀ a ∈ threadWrites t, m'[a]? = n'[a]? := by
  obtain ⟨position, i, address_block, input_block, prev_offset, curr_offset, phase⟩ := t
  cases phase with
  | pick =>
    simp only [threadStep, Option.ite_none_right_eq_some, Option.some.injEq, Prod.mk.injEq] at h
    obtain ⟨hi, rfl, rfl⟩ := h
    refine ⟨n, ?_, fun a ha => absurd ha (Set.notMem_empty a)⟩
    simp only [threadStep, if_pos hi]
    rw [pseudoRand_congr fun hfalse => blockAt_congr (hread _ ⟨hi, hfalse, rfl⟩)]
  | copyRef ref_offset =>
    obtain ⟨rfl, rfl⟩ := Prod.mk.inj (Option.some.inj h)
    refine ⟨n, ?_, fun a ha => absurd ha (Set.notMem_empty a)⟩
    simp only [threadStep, blockAt_congr (hread _ rfl)]
  | xorPrev blockR =>
    obtain ⟨rfl, rfl⟩ := Prod.mk.inj (Option.some.inj h)
    refine ⟨n, ?_, fun a ha => absurd ha (Set.notMem_empty a)⟩
    simp only [threadStep, blockAt_congr (hread _ rfl)]
  | xorNext blockR =>
    obtain ⟨rfl, rfl⟩ := Prod.mk.inj (Option.some.inj h)
    refine ⟨n, ?_, fun a ha => absurd ha (Set.notMem_empty a)⟩
    simp only [threadStep, blockAt_congr (hread _ rfl)]
  | copyTmp block_tmp blockR =>
    obtain ⟨rfl, rfl⟩ := Prod.mk.inj (Option.some.inj h)
    refine ⟨_, rfl, ?_⟩
    rintro a rfl
    exact getElem?_setIfInBounds_congr (hread _ rfl) _
  | xorResult blockR =>
    obtain ⟨rfl, rfl⟩ := Prod.mk.inj (Option.some.inj h)
    refine ⟨_, rfl, ?_⟩
    rintro a rfl
    rw [blockAt_congr (hread _ rfl)]
    exact getElem?_setIfInBounds_congr (hread _ rfl) _

end Access

theorem sliceThreads_footprint (inst : Instance) : (sliceThreads inst).Footprint := by
  constructor
  · intro l t m t' m' a hstep hwrite
    obtain ⟨-, rfl⟩ | ⟨hwrites, b, rfl⟩ := threadStep_memory hstep
    · rfl
    · refine Array.getElem?_setIfInBounds_ne fun heq => hwrite ?_
      have hmem : a ∈ threadWrites t := by
        rw [hwrites]
        exact heq.symm
      exact hmem
  · intro l t m n t' m' hread hstep
    exact threadStep_congr hread hstep

/-- Inside turn `i`, with the offsets of the next turn already rotated. -/
structure Thread.InTurn (inst : Instance) (s l : ℕ) (t : Thread) : Prop where
  lt : t.i < inst.segmentLength.toNat
  curr_eq : t.curr_offset.toNat = inst.cell l (s * inst.segmentLength.toNat + t.i)
  prev_eq : t.prev_offset.toNat = inst.cell l (prevColumn inst.segmentLength.toNat s t.i)
  next : OffsetsAt inst s l (t.i + 1) (t.curr_offset + 1) (t.prev_offset + 1)

/-- The offsets fit the phase: between two accesses of a turn it is known which blocks are
meant. -/
def Thread.PhaseOk (inst : Instance) (r s l : ℕ) (t : Thread) : Prop :=
  match t.phase with
  | .pick => OffsetsAt inst s l t.i t.curr_offset t.prev_offset
  | .copyRef ref_offset => t.InTurn inst s l ∧ ∃ l' c, l' < inst.lanes.toNat ∧
      Referable inst.segmentLength.toNat r s l t.i l' c ∧ ref_offset = inst.cell l' c
  | _ => t.InTurn inst s l

/-- What holds of the thread of lane `l` after any number of accesses. -/
structure Thread.Sound (inst : Instance) (r s l : ℕ) (t : Thread) : Prop where
  position_eq : t.position = segmentStart r s l
  start_le : startingIndex t.position ≤ t.i
  phase_ok : t.PhaseOk inst r s l

/-- The lane whose segment of the slice a block belongs to, if it lies in this slice at all. -/
def sliceOwner (inst : Instance) (s a : ℕ) : Option (Fin inst.lanes.toNat) :=
  if h : a / inst.laneLength.toNat < inst.lanes.toNat ∧
      s * inst.segmentLength.toNat ≤ a % inst.laneLength.toNat ∧
      a % inst.laneLength.toNat < (s + 1) * inst.segmentLength.toNat then
    some ⟨a / inst.laneLength.toNat, h.1⟩
  else none

section Slice
variable {inst : Instance} {r s : ℕ} {t t' : Thread} {m m' : Memory}

theorem sliceOwner_cell {l c : ℕ} {k : Fin inst.lanes.toNat} (hc : c < inst.laneLength.toNat) :
    sliceOwner inst s (inst.cell l c) = some k ↔
      k.val = l ∧ s * inst.segmentLength.toNat ≤ c ∧ c < (s + 1) * inst.segmentLength.toNat := by
  unfold sliceOwner
  simp only [Instance.cell_div hc, Instance.cell_mod hc]
  constructor
  · intro h
    split_ifs at h with howned
    obtain rfl := Option.some.inj h
    exact ⟨rfl, howned.2⟩
  · rintro ⟨rfl, howned⟩
    rw [dif_pos ⟨k.isLt, howned⟩]

theorem threadStart_sound (hinst : inst.WellFormed) {l : ℕ} (h : Place inst r s l) :
    (threadStart inst (segmentStart r s l)).Sound inst r s l :=
  ⟨rfl, Nat.le_refl _, offsetsAt_init hinst h #[]⟩

/-- One access keeps the offsets where they belong, whatever it has read. -/
theorem Thread.Sound.step (hinst : inst.WellFormed) {l : ℕ} (h : Place inst r s l)
    (hsound : t.Sound inst r s l) (hstep : threadStep inst t m = some (t', m')) :
    t'.Sound inst r s l := by
  obtain ⟨position, i, address_block, input_block, prev_offset, curr_offset, phase⟩ := t
  obtain ⟨rfl, hstart, hphase⟩ := hsound
  cases phase with
  | pick =>
    simp only [threadStep, Option.ite_none_right_eq_some, Option.some.injEq, Prod.mk.injEq] at hstep
    obtain ⟨hi, rfl, -⟩ := hstep
    have hnext : OffsetsAt inst s l (i + 1) (curr_offset + 1)
        (rotatePrev inst curr_offset prev_offset + 1) := hphase.next hinst h hi
    exact ⟨rfl, hstart, ⟨hi, hphase.curr_eq, hphase.prev_eq hi, hnext⟩,
      _, _, pickedLane_lt hinst h _, referable_picked hinst h hstart hi _,
        refOffset_eq hinst h hstart hi _⟩
  | copyRef ref_offset =>
    obtain ⟨rfl, -⟩ := Prod.mk.inj (Option.some.inj hstep)
    obtain ⟨hturn, -⟩ := hphase
    exact ⟨rfl, hstart, ⟨hturn.lt, hturn.curr_eq, hturn.prev_eq, hturn.next⟩⟩
  | xorPrev blockR =>
    obtain ⟨rfl, -⟩ := Prod.mk.inj (Option.some.inj hstep)
    have hturn : Thread.InTurn inst s l ⟨segmentStart r s l, i, address_block, input_block,
        prev_offset, curr_offset, .xorPrev blockR⟩ := hphase
    refine ⟨rfl, hstart, ?_⟩
    unfold Thread.PhaseOk
    by_cases hxor : withXor inst (segmentStart r s l) = true
    · simp only [hxor, if_true]
      exact ⟨hturn.lt, hturn.curr_eq, hturn.prev_eq, hturn.next⟩
    · simp only [hxor, Bool.false_eq_true, if_false]
      exact ⟨hturn.lt, hturn.curr_eq, hturn.prev_eq, hturn.next⟩
  | xorNext blockR =>
    obtain ⟨rfl, -⟩ := Prod.mk.inj (Option.some.inj hstep)
    exact ⟨rfl, hstart, ⟨hphase.lt, hphase.curr_eq, hphase.prev_eq, hphase.next⟩⟩
  | copyTmp block_tmp blockR =>
    obtain ⟨rfl, -⟩ := Prod.mk.inj (Option.some.inj hstep)
    exact ⟨rfl, hstart, ⟨hphase.lt, hphase.curr_eq, hphase.prev_eq, hphase.next⟩⟩
  | xorResult blockR =>
    obtain ⟨rfl, -⟩ := Prod.mk.inj (Option.some.inj hstep)
    exact ⟨rfl, Nat.le_succ_of_le hstart, hphase.next⟩

/-- A thread writes blocks of its own segment only, which makes it their owner during the slice.
-/
theorem Thread.Sound.owner_of_writes (hinst : inst.WellFormed) {l : Fin inst.lanes.toNat}
    (h : Place inst r s l) (hsound : t.Sound inst r s l) {a : ℕ} (ha : a ∈ threadWrites t) :
    sliceOwner inst s a = some l := by
  have howner : ∀ {u : Thread}, u.InTurn inst s l →
      sliceOwner inst s u.curr_offset.toNat = some l := by
    intro u hturn
    have hlt := hturn.lt
    rw [hturn.curr_eq, sliceOwner_cell (h.column_lt hinst hlt), Nat.add_one_mul]
    exact ⟨rfl, by omega, by omega⟩
  obtain ⟨position, i, address_block, input_block, prev_offset, curr_offset, phase⟩ := t
  obtain ⟨-, -, hphase⟩ := hsound
  cases phase with
  | copyTmp block_tmp blockR =>
    obtain rfl : a = curr_offset.toNat := ha
    exact howner hphase
  | xorResult blockR =>
    obtain rfl : a = curr_offset.toNat := ha
    exact howner hphase
  | pick | copyRef | xorPrev | xorNext => exact absurd ha (Set.notMem_empty a)

/-- Where a thread looks: in its own lane, or outside the slice. -/
theorem Thread.Sound.cell_of_reads (hinst : inst.WellFormed) {l : ℕ} (h : Place inst r s l)
    (hsound : t.Sound inst r s l) {a : ℕ} (ha : a ∈ threadReads inst t) :
    ∃ l' c, l' < inst.lanes.toNat ∧ c < inst.laneLength.toNat ∧ a = inst.cell l' c ∧
      (s * inst.segmentLength.toNat ≤ c → c < (s + 1) * inst.segmentLength.toNat → l' = l) := by
  have hprev : ∀ {i : ℕ}, i < inst.segmentLength.toNat →
      prevColumn inst.segmentLength.toNat s i < inst.laneLength.toNat := by
    intro i hi
    have hlt := h.column_lt hinst hi
    have hpos := hinst.laneLength_pos
    rw [prevColumn, ← hinst.laneLength_eq]
    split_ifs <;> omega
  have hcurr : ∀ {u : Thread}, u.InTurn inst s l → a = u.curr_offset.toNat →
      ∃ l' c, l' < inst.lanes.toNat ∧ c < inst.laneLength.toNat ∧ a = inst.cell l' c ∧
        (s * inst.segmentLength.toNat ≤ c → c < (s + 1) * inst.segmentLength.toNat → l' = l) := by
    intro u hturn heq
    exact ⟨l, _, h.lane_lt, h.column_lt hinst hturn.lt, heq.trans hturn.curr_eq, fun _ _ => rfl⟩
  obtain ⟨position, i, address_block, input_block, prev_offset, curr_offset, phase⟩ := t
  obtain ⟨-, -, hphase⟩ := hsound
  cases phase with
  | pick =>
    obtain ⟨hi, -, rfl⟩ := ha
    have hat : OffsetsAt inst s l i curr_offset prev_offset := hphase
    exact ⟨l, _, h.lane_lt, hprev hi, hat.prev_eq hi, fun _ _ => rfl⟩
  | copyRef ref_offset =>
    obtain rfl : a = ref_offset := ha
    obtain ⟨hturn, l', c, hl', href, rfl⟩ := hphase
    have hcolumn := href.lt
    rw [← hinst.laneLength_eq] at hcolumn
    exact ⟨l', c, hl', hcolumn, rfl, fun hlo hhi => (href.own hlo hhi).1⟩
  | xorPrev blockR =>
    have hturn : Thread.InTurn inst s l ⟨position, i, address_block, input_block, prev_offset,
      curr_offset, .xorPrev blockR⟩ := hphase
    obtain rfl : a = prev_offset.toNat := ha
    exact ⟨l, _, h.lane_lt, hprev hturn.lt, hturn.prev_eq, fun _ _ => rfl⟩
  | xorNext blockR => exact hcurr hphase ha
  | copyTmp block_tmp blockR => exact hcurr hphase ha
  | xorResult blockR => exact hcurr hphase ha

/-- A thread reads no block that another thread of the slice writes. -/
theorem Thread.Sound.eq_of_reads (hinst : inst.WellFormed) {l : Fin inst.lanes.toNat}
    (h : Place inst r s l) (hsound : t.Sound inst r s l) {a : ℕ} (ha : a ∈ threadReads inst t)
    {k : Fin inst.lanes.toNat} (hk : sliceOwner inst s a = some k) : k = l := by
  obtain ⟨l', c, -, hc, rfl, hown⟩ := hsound.cell_of_reads hinst h ha
  obtain ⟨hkl, hlo, hhi⟩ := (sliceOwner_cell hc).mp hk
  exact Fin.ext (hkl.trans (hown hlo hhi))

theorem sliceThreads_owned (hinst : inst.WellFormed) (hr : r < inst.passes.toNat) (hs : s < 4) :
    (sliceThreads inst).Owned (sliceOwner inst s) fun l t => t.Sound inst r s l := by
  constructor
  · intro l t m t' m' hsound hstep
    exact hsound.step hinst ⟨hr, hs, l.isLt⟩ hstep
  · intro l t a hsound ha
    exact hsound.owner_of_writes hinst ⟨hr, hs, l.isLt⟩ ha
  · intro l t a k hsound ha hk
    exact hsound.eq_of_reads hinst ⟨hr, hs, l.isLt⟩ ha hk

end Slice

/-- The loop of the thread is over, so a join can return. -/
def Thread.Ended (inst : Instance) (t : Thread) : Prop :=
  t.phase = .pick ∧ inst.segmentLength.toNat ≤ t.i

section Solo
variable {inst : Instance} {position : Position} {r s i : ℕ} {t : Thread} {m : Memory}

@[simp] theorem threadStep_eq_none : threadStep inst t m = none ↔ t.Ended inst := by
  obtain ⟨position, i, address_block, input_block, prev_offset, curr_offset, phase⟩ := t
  unfold Thread.Ended
  cases phase with
  | pick =>
    simp [threadStep]
  | copyRef | xorPrev | xorNext | copyTmp | xorResult => simp [threadStep]

theorem blockAt_setIfInBounds (hi : i < m.size) (b : Block) :
    blockAt (m.setIfInBounds i b) i = b := by
  unfold blockAt
  rw [Array.getD_eq_getD_getElem?, Array.getElem?_setIfInBounds_self_of_lt hi, Option.getD_some]

/-- The accesses of one turn leave what the turn leaves when nobody comes in between. -/
theorem turn_run (l : Fin inst.lanes.toNat) (hi : i < inst.segmentLength.toNat) (s : SegmentState)
    (hcurr : s.curr_offset.toNat < s.memory.size) :
    Relation.ReflTransGen ((sliceThreads inst).Solo l) (.atTurn position i s, s.memory)
      (.atTurn position (i + 1)
        (fillSegmentStep inst position (dataIndependent inst position) s i),
        (fillSegmentStep inst position (dataIndependent inst position) s i).memory) := by
  rw [fillSegmentStep]
  simp only
  generalize hprev : rotatePrev inst s.curr_offset s.prev_offset = prev
  generalize haddresses : turnAddresses (dataIndependent inst position) s.address_block
    s.input_block i = addresses
  generalize hrand : pseudoRand (dataIndependent inst position) addresses.1
    (blockAt s.memory prev.toNat) i = rand
  generalize href : refOffset inst position rand i = ref_offset
  generalize hblockR : xorBlock (blockAt s.memory ref_offset) (blockAt s.memory prev.toNat) = blockR
  generalize htmp : (if withXor inst position then
    xorBlock blockR (blockAt s.memory s.curr_offset.toNat) else blockR) = block_tmp
  have hpick : threadStep inst (.atTurn position i s) s.memory = some (⟨position, i, addresses.1,
      addresses.2, prev, s.curr_offset, .copyRef ref_offset⟩, s.memory) := by
    simp only [threadStep, Thread.atTurn, if_pos hi, hprev, haddresses, hrand, href]
  have hcopy : threadStep inst ⟨position, i, addresses.1, addresses.2, prev, s.curr_offset,
      .copyRef ref_offset⟩ s.memory = some (⟨position, i, addresses.1, addresses.2, prev,
        s.curr_offset, .xorPrev (blockAt s.memory ref_offset)⟩, s.memory) := rfl
  have hxor : Relation.ReflTransGen ((sliceThreads inst).Solo l)
      (⟨position, i, addresses.1, addresses.2, prev, s.curr_offset,
        .xorPrev (blockAt s.memory ref_offset)⟩, s.memory)
      (⟨position, i, addresses.1, addresses.2, prev, s.curr_offset,
        .copyTmp block_tmp (blockRounds blockR)⟩, s.memory) := by
    have hread : threadStep inst ⟨position, i, addresses.1, addresses.2, prev, s.curr_offset,
        .xorPrev (blockAt s.memory ref_offset)⟩ s.memory = some (⟨position, i, addresses.1,
          addresses.2, prev, s.curr_offset, if withXor inst position then .xorNext blockR
            else .copyTmp blockR (blockRounds blockR)⟩, s.memory) := by
      simp only [threadStep, hblockR]
    refine .head hread ?_
    by_cases hwith : withXor inst position = true
    · rw [if_pos hwith] at htmp ⊢
      rw [← htmp]
      exact .single rfl
    · rw [if_neg hwith] at htmp ⊢
      rw [htmp]
  have hwrite : threadStep inst ⟨position, i, addresses.1, addresses.2, prev, s.curr_offset,
      .copyTmp block_tmp (blockRounds blockR)⟩ s.memory = some (⟨position, i, addresses.1,
        addresses.2, prev, s.curr_offset, .xorResult (blockRounds blockR)⟩,
        s.memory.setIfInBounds s.curr_offset.toNat block_tmp) := rfl
  have hresult : threadStep inst ⟨position, i, addresses.1, addresses.2, prev, s.curr_offset,
      .xorResult (blockRounds blockR)⟩ (s.memory.setIfInBounds s.curr_offset.toNat block_tmp) =
      some (⟨position, i + 1, addresses.1, addresses.2, prev + 1, s.curr_offset + 1, .pick⟩,
        s.memory.setIfInBounds s.curr_offset.toNat (xorBlock block_tmp (blockRounds blockR))) := by
    simp only [threadStep, blockAt_setIfInBounds hcurr, Array.setIfInBounds_setIfInBounds]
  rw [fillBlock_eq, hblockR, htmp]
  exact .head hpick (.head hcopy (hxor.trans (.head hwrite (.single hresult))))

@[simp] theorem size_fillSegmentStep (independent : Bool) (st : SegmentState) :
    (fillSegmentStep inst position independent st i).memory.size = st.memory.size := by
  rw [fillSegmentStep]
  exact Array.size_setIfInBounds

/-- The loop of a thread leaves what the loop of `passe_fill_segment` leaves. -/
theorem turns_run (hinst : inst.WellFormed) {l : Fin inst.lanes.toNat} (h : Place inst r s l)
    (n : ℕ) (st : SegmentState) (hsize : st.memory.size = inst.memoryBlocks.toNat)
    (hat : OffsetsAt inst s l i st.curr_offset st.prev_offset)
    (hi : i + n ≤ inst.segmentLength.toNat) :
    Relation.ReflTransGen ((sliceThreads inst).Solo l)
      (.atTurn (segmentStart r s l) i st, st.memory)
      (.atTurn (segmentStart r s l) (i + n) ((List.range' i n).foldl
        (fillSegmentStep inst (segmentStart r s l) (dataIndependent inst (segmentStart r s l))) st),
        ((List.range' i n).foldl (fillSegmentStep inst (segmentStart r s l)
          (dataIndependent inst (segmentStart r s l))) st).memory) := by
  induction n generalizing i st with
  | zero => exact .refl
  | succ n ih =>
    have hlt : i < inst.segmentLength.toNat := by omega
    have hcurr : st.curr_offset.toNat < st.memory.size := by
      rw [hat.curr_eq, hsize]
      exact Instance.cell_lt hinst h.lane_lt (h.column_lt hinst hlt)
    have hnext := ih (i := i + 1) (fillSegmentStep inst (segmentStart r s l)
      (dataIndependent inst (segmentStart r s l)) st i)
      ((size_fillSegmentStep _ st).trans hsize) (hat.next hinst h hlt) (by omega)
    rw [List.range'_succ, List.foldl_cons, ← Nat.add_assoc, Nat.add_right_comm]
    exact (turn_run l hlt st hcurr).trans hnext

/-- A thread alone fills its segment and ends, exactly as the call of `passe_fill_segment`
would. -/
theorem segment_run (hinst : inst.WellFormed) {l : Fin inst.lanes.toNat} (h : Place inst r s l)
    (hsize : m.size = inst.memoryBlocks.toNat) :
    ∃ t, t.Ended inst ∧ Relation.ReflTransGen ((sliceThreads inst).Solo l)
      (threadStart inst (segmentStart r s l), m)
      (t, fillSegment inst (segmentStart r s l) m) := by
  have hge := hinst.segment_ge
  have hstart : startingIndex (segmentStart r s l) ≤ inst.segmentLength.toNat := by
    rw [h.startingIndex_eq hinst]
    split_ifs <;> omega
  have hrun := turns_run hinst h (inst.segmentLength.toNat - startingIndex (segmentStart r s l))
    (segmentInit inst (segmentStart r s l) m) hsize (offsetsAt_init hinst h m) (by omega)
  rw [← fillSegment] at hrun
  refine ⟨_, ⟨rfl, ?_⟩, hrun⟩
  simp only [Thread.atTurn]
  omega

end Solo

/-- The threads of a slice before their first access, started or not. -/
def sliceStart (inst : Instance) (r s : ℕ) (l : Fin inst.lanes.toNat) : Thread :=
  threadStart inst (segmentStart r s l)

section Orders
variable {inst : Instance} {r s : ℕ} {m m' : Memory} {xs : Fin inst.lanes.toNat → Thread}

@[simp] theorem size_foldl_fillSegmentStep (position : Position) (independent : Bool) (is : List ℕ)
    (st : SegmentState) :
    (is.foldl (fillSegmentStep inst position independent) st).memory.size = st.memory.size := by
  induction is generalizing st with
  | nil => rfl
  | cons i is ih => rw [List.foldl_cons, ih, size_fillSegmentStep]

@[simp] theorem size_fillSegment (position : Position) (m : Memory) :
    (fillSegment inst position m).size = m.size := by
  rw [fillSegment, size_foldl_fillSegmentStep]
  rfl

@[simp] theorem size_foldl_fillSegment (inst : Instance) (r s : ℕ) (ls : List ℕ) (m : Memory) :
    (ls.foldl (fun memory l => fillSegment inst (segmentStart r s l) memory) m).size = m.size := by
  induction ls generalizing m with
  | nil => rfl
  | cons l ls ih => rw [List.foldl_cons, ih, size_fillSegment]

theorem sliceStart_sound (hinst : inst.WellFormed) (hr : r < inst.passes.toNat) (hs : s < 4)
    (l : Fin inst.lanes.toNat) : (sliceStart inst r s l).Sound inst r s l :=
  threadStart_sound hinst ⟨hr, hs, l.isLt⟩

/-- The first `k` lanes, one after the other, as the version without threads takes them. -/
theorem lanes_run (hinst : inst.WellFormed) (hr : r < inst.passes.toNat) (hs : s < 4)
    (hsize : m.size = inst.memoryBlocks.toNat) {k : ℕ} (hk : k ≤ inst.lanes.toNat) :
    ∃ xs, (sliceThreads inst).Run (sliceStart inst r s, m)
        (xs, (List.range k).foldl (fun m l => fillSegment inst (segmentStart r s l) m) m) ∧
      (∀ l, l.val < k → (xs l).Ended inst) ∧ ∀ l, k ≤ l.val → xs l = sliceStart inst r s l := by
  induction k with
  | zero => exact ⟨_, .refl, fun l hl => absurd hl (Nat.not_lt_zero _), fun _ _ => rfl⟩
  | succ k ih =>
    obtain ⟨xs, hrun, hended, hrest⟩ := ih (by omega)
    obtain ⟨t, ht, hsolo⟩ := segment_run hinst (l := ⟨k, hk⟩) ⟨hr, hs, hk⟩
      ((size_foldl_fillSegment inst r s (List.range k) m).trans hsize)
    have hk' : xs ⟨k, hk⟩ = threadStart inst (segmentStart r s k) := hrest ⟨k, hk⟩ (Nat.le_refl k)
    rw [← hk'] at hsolo
    refine ⟨Function.update xs ⟨k, hk⟩ t, hrun.trans ?_, ?_, ?_⟩
    · rw [List.range_succ, List.foldl_append]
      exact Threads.run_of_solo _ hsolo
    · intro l hl
      by_cases heq : l = ⟨k, hk⟩
      · rw [heq, Function.update_self]
        exact ht
      · rw [Function.update_of_ne heq]
        refine hended l (Nat.lt_of_le_of_ne (Nat.le_of_lt_succ hl) fun hval => heq (Fin.ext hval))
    · intro l hl
      have hne : l ≠ ⟨k, hk⟩ := by
        rintro rfl
        exact absurd hl (Nat.not_succ_le_self k)
      rw [Function.update_of_ne hne]
      exact hrest l (Nat.le_of_succ_le hl)

/-- In whatever order the threads of a slice take their steps, when they have all ended the
memory is that of the lanes filled one after the other. -/
theorem eq_sliceFilled_of_run (hinst : inst.WellFormed) (hr : r < inst.passes.toNat) (hs : s < 4)
    (hsize : m.size = inst.memoryBlocks.toNat)
    (hrun : (sliceThreads inst).Run (sliceStart inst r s, m) (xs, m'))
    (hended : ∀ l, (xs l).Ended inst) : m' = sliceFilled inst r m s := by
  obtain ⟨ys, hseq, hended', -⟩ := lanes_run hinst hr hs hsize (Nat.le_refl _)
  have hagree := ((sliceThreads_owned hinst hr hs).eq_of_done (sliceThreads_footprint inst)
    (sliceStart_sound hinst hr hs) hrun hseq (fun l => threadStep_eq_none.mpr (hended l))
    fun l => threadStep_eq_none.mpr (hended' l l.isLt)).2
  exact Array.ext_getElem? hagree

end Orders

end Passe.Argon2
