import Passe.Argon2Context
import Passe.Blake2Stream
import Mathlib.Data.List.Basic

/-!
# The memory-hard function

`core.c` and `ref.c`: the initial hash, the block memory, the passes over it and
the final tag. The threads of a slice are run here one after the other, in the
order in which they are created. `Passe.Argon2Pool` models the threads as they
are, with every schedule and every creation or join that fails, and
`Passe.Argon2Runs` proves that a call that returns without an error leaves the
memory that is computed here. A run can fail on a request the host refuses;
`tag` is what every run that does not fail writes.
-/
namespace Passe.Argon2
open Blake2

def argon2BlockSize : ℕ := 1024
def argon2PrehashDigestLength : ℕ := 64

/-- `block`: `ARGON2_QWORDS_IN_BLOCK` words, one kibibyte. -/
abbrev Block := Vector UInt64 128

abbrev Memory := Array Block

def initBlockValue : Block := Vector.replicate 128 0

def xorBlock (dst src : Block) : Block := Vector.zipWith (· ^^^ ·) dst src

def loadBlock (input : Bytes) : Block := Vector.ofFn fun i => load64 input (i.val * 8)

def storeBlock (src : Block) : Bytes := src.toList.flatMap store64

/-- `argon2_instance_t` without its memory, which is passed along. Nothing changes an instance
once `passe_argon2_ctx` has set it up. -/
structure Instance where
  version : UInt32
  passes : UInt32
  memoryBlocks : UInt32
  segmentLength : UInt32
  laneLength : UInt32
  lanes : UInt32
  threads : UInt32
  type : Argon2Type

structure Position where
  pass : UInt32
  lane : UInt32
  slice : UInt8
  index : UInt32

def blockAt (memory : Memory) (i : ℕ) : Block := memory.getD i initBlockValue

def fBlaMka (x y : UInt64) : UInt64 :=
  let m := 0xFFFFFFFF
  let xy := (x &&& m) * (y &&& m)
  x + y + 2 * xy

/-- The macro `G` of `blamka-round-ref.h`: the quarter round of BLAKE2b with `fBlaMka` for the
additions. -/
def G (a b c d : Fin 128) (v : Block) : Block :=
  let v := v.set a (fBlaMka (v.get a) (v.get b))
  let v := v.set d (rotr64 (v.get d ^^^ v.get a) 32)
  let v := v.set c (fBlaMka (v.get c) (v.get d))
  let v := v.set b (rotr64 (v.get b ^^^ v.get c) 24)
  let v := v.set a (fBlaMka (v.get a) (v.get b))
  let v := v.set d (rotr64 (v.get d ^^^ v.get a) 16)
  let v := v.set c (fBlaMka (v.get c) (v.get d))
  v.set b (rotr64 (v.get b ^^^ v.get c) 63)

/-- `BLAKE2_ROUND_NOMSG` on the sixteen words that `w` selects: the four columns, then the four
diagonals. -/
def blake2RoundNomsg (w : ℕ → Fin 128) (v : Block) : Block :=
  let v := G (w 0) (w 4) (w 8) (w 12) v
  let v := G (w 1) (w 5) (w 9) (w 13) v
  let v := G (w 2) (w 6) (w 10) (w 14) v
  let v := G (w 3) (w 7) (w 11) (w 15) v
  let v := G (w 0) (w 5) (w 10) (w 15) v
  let v := G (w 1) (w 6) (w 11) (w 12) v
  let v := G (w 2) (w 7) (w 8) (w 13) v
  G (w 3) (w 4) (w 9) (w 14) v

def columnWord (i : Fin 8) (j : ℕ) : Fin 128 := Fin.ofNat 128 (16 * i.val + j)

def rowWord (i : Fin 8) (j : ℕ) : Fin 128 := Fin.ofNat 128 (2 * i.val + 16 * (j / 2) + j % 2)

/-- `BLAKE2_ROUND_NOMSG` on the columns of the block, then on its rows: the two loops of
`fill_block`. -/
def blockRounds (blockR : Block) : Block :=
  let blockR := (List.finRange 8).foldl (fun v i => blake2RoundNomsg (columnWord i) v) blockR
  (List.finRange 8).foldl (fun v i => blake2RoundNomsg (rowWord i) v) blockR

/-- `fill_block`: the new contents of `next_block`. The sum of the two inputs goes through the
rounds and is added again behind them, with the old contents when `with_xor` is set. -/
def fillBlock (prev_block ref_block next_block : Block) (with_xor : Bool) : Block :=
  let blockR := xorBlock ref_block prev_block
  let block_tmp := if with_xor then xorBlock blockR next_block else blockR
  xorBlock block_tmp (blockRounds blockR)

/-- The input block with its counter, word 6, at `n`. The other words stay for the whole
segment. -/
def withCounter (input_block : Block) (n : UInt64) : Block := input_block.set 6 n

/-- `next_addresses`: the new address block and the input block it was made from. -/
def nextAddresses (address_block input_block : Block) : Block × Block :=
  let zero_block := initBlockValue
  let input_block := withCounter input_block (input_block[6] + 1)
  let address_block := fillBlock zero_block input_block address_block false
  (fillBlock zero_block address_block address_block false, input_block)

/-- `reference_area_size`: how many blocks `passe_index_alpha` chooses from. The subtractions
wrap where the source would let them. -/
def referenceAreaSize (inst : Instance) (position : Position) (same_lane : Bool) : UInt32 :=
  let slice := position.slice.toUInt32
  if 0 = position.pass then
    if 0 = position.slice then position.index - 1
    else if same_lane then slice * inst.segmentLength + position.index - 1
    else slice * inst.segmentLength + (if position.index = 0 then -1 else 0)
  else if same_lane then inst.laneLength - inst.segmentLength + position.index - 1
  else inst.laneLength - inst.segmentLength + (if position.index = 0 then -1 else 0)

/-- `start_position`: the column of the first of these blocks. From the second pass on they
start behind the current slice. -/
def startPosition (inst : Instance) (position : Position) : UInt32 :=
  let slice := position.slice.toUInt32
  if 0 ≠ position.pass then
    if slice = argon2SyncPoints - 1 then 0 else (slice + 1) * inst.segmentLength
  else 0

/-- `passe_index_alpha`, in the widths of the source: the squares are 64 bits wide and the area
32. -/
def indexAlpha (inst : Instance) (position : Position) (pseudo_rand : UInt32)
    (same_lane : Bool) : UInt32 :=
  let reference_area_size := referenceAreaSize inst position same_lane
  let relative_position := pseudo_rand.toUInt64
  let relative_position := (relative_position * relative_position) >>> 32
  let relative_position := (reference_area_size - 1).toUInt64 -
    ((reference_area_size.toUInt64 * relative_position) >>> 32)
  let start_position := startPosition inst position
  ((start_position.toUInt64 + relative_position) % inst.laneLength.toUInt64).toUInt32

/-- What the loop of `passe_fill_segment` carries from one block to the next. -/
structure SegmentState where
  memory : Memory
  address_block : Block
  input_block : Block
  prev_offset : UInt32
  curr_offset : UInt32

/-- `data_independent_addressing`: whether the references of the segment come from address
blocks and not from the blocks themselves. -/
def dataIndependent (inst : Instance) (position : Position) : Bool :=
  inst.type = .i ∨ inst.type = .id ∧ position.pass = 0 ∧
    position.slice.toUInt32 < argon2SyncPoints / 2

/-- Step 1.1 of a turn: behind the first block of a lane the previous block is next to the
current one again. -/
def rotatePrev (inst : Instance) (curr_offset prev_offset : UInt32) : UInt32 :=
  if curr_offset % inst.laneLength = 1 then curr_offset - 1 else prev_offset

/-- The address block and the input block of turn `i`. New addresses are made every 128
turns. -/
def turnAddresses (independent : Bool) (address_block input_block : Block) (i : ℕ) :
    Block × Block :=
  if independent ∧ i % 128 = 0 then nextAddresses address_block input_block
  else (address_block, input_block)

/-- The word that a turn reads off the previous block, when its references depend on the data.
-/
def firstWord (prev_block : Block) : UInt64 := prev_block[0]

/-- Step 1.2.1 of a turn: the pseudo-random word, from the address block or from the block
before. -/
def pseudoRand (independent : Bool) (address_block prev_block : Block) (i : ℕ) : UInt64 :=
  if independent then address_block.toArray.getD (i % 128) 0 else firstWord prev_block

/-- Step 1.2.2 of a turn: the lane of the reference block, which is the own lane as long as
the others have nothing to offer. -/
def refLane (inst : Instance) (position : Position) (pseudo_rand : UInt64) : UInt64 :=
  if position.pass = 0 ∧ position.slice = 0 then position.lane.toUInt64
  else (pseudo_rand >>> 32) % inst.lanes.toUInt64

/-- Step 1.2.3 of a turn: where the reference block lies in the memory. -/
def refOffset (inst : Instance) (position : Position) (pseudo_rand : UInt64) (i : ℕ) : ℕ :=
  let ref_lane := refLane inst position pseudo_rand
  let ref_index := indexAlpha inst { position with index := UInt32.ofNat i }
    (pseudo_rand &&& 0xFFFFFFFF).toUInt32 (ref_lane == position.lane.toUInt64)
  (inst.laneLength.toUInt64 * ref_lane + ref_index.toUInt64).toNat

/-- Whether a block is added to its old contents: from the second pass on, and not in the
first version of the algorithm. -/
def withXor (inst : Instance) (position : Position) : Bool :=
  inst.version ≠ argon2Version10 ∧ position.pass ≠ 0

/-- One turn of the loop of `passe_fill_segment`: it reads two blocks, or three with the old
contents, and writes one. -/
def fillSegmentStep (inst : Instance) (position : Position) (independent : Bool)
    (s : SegmentState) (i : ℕ) : SegmentState :=
  let prev := rotatePrev inst s.curr_offset s.prev_offset
  let addresses := turnAddresses independent s.address_block s.input_block i
  let rand := pseudoRand independent addresses.1 (blockAt s.memory prev.toNat) i
  let block := fillBlock (blockAt s.memory prev.toNat)
    (blockAt s.memory (refOffset inst position rand i))
    (blockAt s.memory s.curr_offset.toNat) (withXor inst position)
  ⟨s.memory.setIfInBounds s.curr_offset.toNat block, addresses.1, addresses.2, prev + 1,
    s.curr_offset + 1⟩

/-- The input block as `passe_fill_segment` sets it up, with the counter still at zero. -/
def segmentInput (inst : Instance) (pass lane slice : UInt64) : Block :=
  (((((initBlockValue.set 0 pass).set 1 lane).set 2 slice).set 3
    inst.memoryBlocks.toUInt64).set 4 inst.passes.toUInt64).set 5 inst.type.toUInt32.toUInt64

/-- `starting_index`: the first two blocks of a lane are there already, and the first slice of
the first pass leaves them alone. -/
def startingIndex (position : Position) : ℕ :=
  if position.pass = 0 ∧ position.slice = 0 then 2 else 0

/-- What `passe_fill_segment` sets up before its loop: the first addresses, where they are
needed at once, and the two offsets. -/
def segmentInit (inst : Instance) (position : Position) (memory : Memory) : SegmentState :=
  let input_block := segmentInput inst position.pass.toUInt64 position.lane.toUInt64
    position.slice.toUInt64
  let first := position.pass = 0 ∧ position.slice = 0
  let (address_block, input_block) :=
    if first ∧ dataIndependent inst position then nextAddresses initBlockValue input_block
    else (initBlockValue, input_block)
  let curr_offset := position.lane * inst.laneLength +
    position.slice.toUInt32 * inst.segmentLength + UInt32.ofNat (startingIndex position)
  let prev_offset :=
    if 0 = curr_offset % inst.laneLength then curr_offset + inst.laneLength - 1
    else curr_offset - 1
  ⟨memory, address_block, input_block, prev_offset, curr_offset⟩

/-- `passe_fill_segment`: the turns of one segment, one after the other, in the calling thread.
-/
def fillSegment (inst : Instance) (position : Position) (memory : Memory) : Memory :=
  ((List.range' (startingIndex position)
    (inst.segmentLength.toNat - startingIndex position)).foldl
    (fillSegmentStep inst position (dataIndependent inst position))
    (segmentInit inst position memory)).memory

/-- The position a segment starts at. The loops count it in numbers, the source in 32 and 8
bits. -/
def segmentStart (pass slice lane : ℕ) : Position :=
  ⟨UInt32.ofNat pass, UInt32.ofNat lane, UInt8.ofNat slice, 0⟩

/-- `fill_memory_blocks_st`: pass by pass, slice by slice and lane by lane, without any threads.
-/
def fillMemoryBlocksSt (inst : Instance) (memory : Memory) : Memory :=
  (List.range inst.passes.toNat).foldl (fun memory r =>
    (List.range argon2SyncPoints.toNat).foldl (fun memory s =>
      (List.range inst.lanes.toNat).foldl (fun memory l =>
        fillSegment inst (segmentStart r s l) memory) memory) memory) memory

/-- The body of the loop over the lanes: join the thread whose place is needed,
then create the next one. -/
def runLane (host : Host) (inst : Instance) (r s : ℕ) (memory : Memory) (l : ℕ) :
    Result Memory := do
  reject (l ≥ inst.threads.toNat ∧
    host.grants (.threadJoin r s (l - inst.threads.toNat)) = false) .threadFail
  reject (host.grants (.threadCreate r s l) = false) .threadFail
  return fillSegment inst (segmentStart r s l) memory

def joinLane (host : Host) (r s : ℕ) (memory : Memory) (l : ℕ) : Result Memory := do
  reject (host.grants (.threadJoin r s l) = false) .threadFail
  return memory

def runSlice (host : Host) (inst : Instance) (r : ℕ) (memory : Memory) (s : ℕ) :
    Result Memory := do
  let memory ← (List.range inst.lanes.toNat).foldlM (runLane host inst r s) memory
  let remaining := (inst.lanes - inst.threads).toNat
  (List.range' remaining (inst.lanes.toNat - remaining)).foldlM (joinLane host r s) memory

/-- `fill_memory_blocks_mt`, with each thread run to its end as soon as it is created. Its other
schedules are in `Passe.Argon2Pool`. -/
def fillMemoryBlocksMt (host : Host) (inst : Instance) (memory : Memory) : Result Memory := do
  reject (host.grants (.threadHandles inst.lanes.toNat) = false) .memoryAllocationError
  reject (host.grants (.threadData inst.lanes.toNat) = false) .memoryAllocationError
  (List.range inst.passes.toNat).foldlM (fun memory r =>
    (List.range argon2SyncPoints.toNat).foldlM (runSlice host inst r) memory) memory

/-- `passe_fill_memory_blocks`. Only a request for more than one thread makes a pool. -/
def fillMemoryBlocks (host : Host) (inst : Instance) (memory : Memory) : Result Memory :=
  if inst.lanes = 0 then .error .incorrectParameter
  else if inst.threads = 1 then .ok (fillMemoryBlocksSt inst memory)
  else fillMemoryBlocksMt host inst memory

/-- The pieces `passe_initial_hash` feeds to BLAKE2b, in order. A length is absorbed for every
field, also where the field is missing. -/
def initialHashPieces (context : Context) (type : Argon2Type) : List Bytes :=
  [store32 context.lanes, store32 context.outlen, store32 context.mCost, store32 context.tCost,
    store32 context.version, store32 type.toUInt32] ++
  store32 context.pwdlen :: (context.pwd.map (·.take context.pwdlen.toNat)).toList ++
  store32 context.saltlen :: (context.salt.map (·.take context.saltlen.toNat)).toList ++
  store32 context.secretlen :: (context.secret.map (·.take context.secretlen.toNat)).toList ++
  store32 context.adlen :: (context.ad.map (·.take context.adlen.toNat)).toList

/-- `passe_initial_hash`. It ignores the return codes of the digest, none of which is negative
here. -/
def initialHash (context : Context) (type : Argon2Type) : Bytes :=
  (do
    let S ← blake2bInit argon2PrehashDigestLength
    let S ← (initialHashPieces context type).foldlM blake2bUpdate S
    blake2bFinal S argon2PrehashDigestLength).getD []

def firstBlock (blockhash : Bytes) (i : UInt32) (l : ℕ) : Block :=
  loadBlock ((blake2bLong argon2BlockSize
    (blockhash ++ store32 i ++ store32 (UInt32.ofNat l))).getD [])

/-- The loop of `passe_fill_first_blocks`, for lane `l`: the two blocks differ in the counter
behind the hash. -/
def fillFirst (blockhash : Bytes) (inst : Instance) (memory : Memory) (l : ℕ) : Memory :=
  let start := (UInt32.ofNat l * inst.laneLength).toNat
  (memory.setIfInBounds start (firstBlock blockhash 0 l)).setIfInBounds (start + 1)
    (firstBlock blockhash 1 l)

/-- `passe_fill_first_blocks`: the first two blocks of every lane come from the initial hash. -/
def fillFirstBlocks (blockhash : Bytes) (inst : Instance) (memory : Memory) : Memory :=
  (List.range inst.lanes.toNat).foldl (fillFirst blockhash inst) memory

/-- `passe_allocate_memory` with `malloc`, the check against an overflow of the size included.
-/
def allocateMemory (host : Host) (num size : ℕ) : Result Memory := do
  let memory_size := num * size % 2 ^ 64
  reject (size ≠ 0 ∧ memory_size / size ≠ num) .memoryAllocationError
  reject (host.grants (.memory memory_size) = false) .memoryAllocationError
  return Array.replicate num initBlockValue

/-- `passe_initialize`: memory first, so that a refused request leaves nothing hashed. -/
def argon2Initialize (host : Host) (inst : Instance) (context : Context) : Result Memory := do
  let memory ← allocateMemory host inst.memoryBlocks.toNat argon2BlockSize
  let blockhash := initialHash context inst.type
  return fillFirstBlocks blockhash inst memory

/-- `passe_finalize`: what it writes to `context->out`, the digest of the last blocks of all
lanes. -/
def finalize (context : Context) (inst : Instance) (memory : Memory) : Bytes :=
  let last (l : ℕ) :=
    blockAt memory (UInt32.ofNat l * inst.laneLength + (inst.laneLength - 1)).toNat
  let blockhash := (List.range' 1 (inst.lanes.toNat - 1)).foldl
    (fun blockhash l => xorBlock blockhash (last l)) (last 0)
  (blake2bLong context.outlen.toNat (storeBlock blockhash)).getD (context.out.getD [])

/-- The instance `passe_argon2_ctx` sets up: the memory is rounded down to whole segments, and
more threads than lanes are of no use. -/
def contextInstance (context : Context) (type : Argon2Type) : Instance :=
  let memory_blocks := context.mCost
  let memory_blocks :=
    if memory_blocks < 2 * argon2SyncPoints * context.lanes then
      2 * argon2SyncPoints * context.lanes
    else memory_blocks
  let segment_length := memory_blocks / (context.lanes * argon2SyncPoints)
  { version := context.version
    passes := context.tCost
    memoryBlocks := segment_length * (context.lanes * argon2SyncPoints)
    segmentLength := segment_length
    laneLength := segment_length * argon2SyncPoints
    lanes := context.lanes
    threads := if context.threads > context.lanes then context.lanes else context.threads
    type := type }

/-- `passe_argon2_ctx`: the tag it leaves in `context->out`, or the first code that one of its
parts fails with. -/
def argon2Ctx (host : Host) (context : Context) (type : Argon2Type) : Result Bytes := do
  validateInputs context
  let inst := contextInstance context type
  let memory ← argon2Initialize host inst context
  let memory ← fillMemoryBlocks host inst memory
  return finalize context inst memory

/-- What a run that gets everything it asks for writes to `context->out`. -/
def tag (context : Context) (type : Argon2Type) : Bytes :=
  let inst := contextInstance context type
  let memory := Array.replicate inst.memoryBlocks.toNat initBlockValue
  finalize context inst
    (fillMemoryBlocksSt inst (fillFirstBlocks (initialHash context type) inst memory))

/-- However the fields are cut into pieces, the initial hash is the digest of all of them in one. -/
theorem initialHash_eq (context : Context) (type : Argon2Type) :
    initialHash context type = digest 64 (initialHashPieces context type).flatten := by
  have hstream := stream_stateOf (n := 64) (paramWords (blake2bParam (UInt8.ofNat 64)))
    (initialHashPieces context type)
  rw [initialHash, argon2PrehashDigestLength, blake2bInit_eq (by decide) (by decide),
    Option.bind_eq_bind, Option.bind_some]
  exact congrArg (fun out => Option.getD out []) hstream

section Runs
variable {host : Host} {inst : Instance} {memory memory' : Memory} {r s l : ℕ}

/-- A fold whose steps can fail gives, when it does not, what the plain fold gives. -/
theorem foldl_of_foldlM_eq_ok {α β : Type} {f : β → α → Result β} {g : β → α → β}
    (h : ∀ b a b', f b a = .ok b' → b' = g b a) (xs : List α) {b b' : β}
    (hrun : xs.foldlM f b = .ok b') : b' = xs.foldl g b := by
  induction xs generalizing b with
  | nil => exact (Except.ok.inj hrun).symm
  | cons a xs ih =>
    rw [List.foldlM_cons, bind_eq_ok] at hrun
    obtain ⟨b₁, hstep, hrest⟩ := hrun
    rw [ih hrest, h b a b₁ hstep, List.foldl_cons]

theorem foldlM_eq_ok {α β : Type} {f : β → α → Result β} {g : β → α → β}
    (h : ∀ b a, f b a = .ok (g b a)) (xs : List α) (b : β) :
    xs.foldlM f b = .ok (xs.foldl g b) := by
  rw [show f = fun b a => pure (g b a) from funext fun b => funext fun a => h b a,
    List.foldlM_pure]
  rfl

/-- All lanes of one slice, in the order in which their threads are created. -/
def sliceFilled (inst : Instance) (r : ℕ) (memory : Memory) (s : ℕ) : Memory :=
  (List.range inst.lanes.toNat).foldl
    (fun memory l => fillSegment inst (segmentStart r s l) memory) memory

theorem runLane_eq_ok (h : runLane host inst r s memory l = .ok memory') :
    memory' = fillSegment inst (segmentStart r s l) memory := by
  unfold runLane at h
  rw [reject_bind_eq_ok, reject_bind_eq_ok] at h
  exact (Except.ok.inj h.2.2).symm

theorem joinLane_eq_ok (h : joinLane host r s memory l = .ok memory') : memory' = memory := by
  unfold joinLane at h
  rw [reject_bind_eq_ok] at h
  exact (Except.ok.inj h.2).symm

theorem runSlice_eq_ok (h : runSlice host inst r memory s = .ok memory') :
    memory' = sliceFilled inst r memory s := by
  obtain ⟨filled, hfill, hjoin⟩ := bind_eq_ok.mp h
  rw [foldl_of_foldlM_eq_ok (fun _ _ _ => joinLane_eq_ok) _ hjoin, List.foldl_fixed,
    foldl_of_foldlM_eq_ok (fun _ _ _ => runLane_eq_ok) _ hfill]
  rfl

theorem fillMemoryBlocks_eq_ok (h : fillMemoryBlocks host inst memory = .ok memory') :
    memory' = fillMemoryBlocksSt inst memory := by
  unfold fillMemoryBlocks at h
  by_cases hlanes : inst.lanes = 0
  · rw [if_pos hlanes] at h
    exact absurd h (by simp)
  rw [if_neg hlanes] at h
  by_cases hthreads : inst.threads = 1
  · rw [if_pos hthreads] at h
    exact (Except.ok.inj h).symm
  rw [if_neg hthreads, fillMemoryBlocksMt, reject_bind_eq_ok, reject_bind_eq_ok] at h
  exact foldl_of_foldlM_eq_ok (fun _ _ _ hpass =>
    foldl_of_foldlM_eq_ok (fun _ _ _ => runSlice_eq_ok) _ hpass) _ h.2.2

theorem runSlice_of_generous (hhost : host.Generous) :
    runSlice host inst r memory s = .ok (sliceFilled inst r memory s) := by
  have hlane : ∀ memory l, runLane host inst r s memory l =
      .ok (fillSegment inst (segmentStart r s l) memory) := by
    intro memory l
    simp [runLane, reject, hhost _]
  have hjoin : ∀ memory l, joinLane host r s memory l = .ok memory := by
    intro memory l
    simp [joinLane, reject, hhost _]
  rw [runSlice, foldlM_eq_ok hlane, ok_bind]
  exact (foldlM_eq_ok hjoin _ _).trans (congrArg Except.ok (List.foldl_fixed _))

theorem fillMemoryBlocks_of_generous (hhost : host.Generous) (hlanes : inst.lanes ≠ 0) :
    fillMemoryBlocks host inst memory = .ok (fillMemoryBlocksSt inst memory) := by
  unfold fillMemoryBlocks
  rw [if_neg hlanes]
  by_cases hthreads : inst.threads = 1
  · rw [if_pos hthreads]
  rw [if_neg hthreads, fillMemoryBlocksMt]
  simp only [reject, hhost _, Bool.true_eq_false, if_false, ok_bind]
  exact foldlM_eq_ok (fun memory r => foldlM_eq_ok (fun memory s => runSlice_of_generous hhost) _ _)
    _ _

/-- The overflow check never fails for a number of blocks that fits in 32 bits. -/
theorem allocateMemory_of_generous (hhost : host.Generous) {num : ℕ} (hnum : num < 2 ^ 32) :
    allocateMemory host num argon2BlockSize = .ok (Array.replicate num initBlockValue) := by
  have hsize : num * argon2BlockSize % 2 ^ 64 / argon2BlockSize = num := by
    unfold argon2BlockSize
    omega
  simp only [allocateMemory, reject_bind_eq_ok, hsize, hhost _, Bool.true_eq_false, ne_eq,
    not_true_eq_false, and_false, not_false_eq_true, true_and, pure_eq_ok]

theorem allocateMemory_eq_ok {num size : ℕ} (h : allocateMemory host num size = .ok memory) :
    memory = Array.replicate num initBlockValue := by
  unfold allocateMemory at h
  rw [reject_bind_eq_ok, reject_bind_eq_ok] at h
  exact (Except.ok.inj h.2.2).symm

variable {context : Context} {type : Argon2Type}

theorem foldlM_ne_error {α β : Type} {f : β → α → Result β} {code : ErrorCode}
    (h : ∀ b a, f b a ≠ .error code) (xs : List α) (b : β) : xs.foldlM f b ≠ .error code := by
  induction xs generalizing b with
  | nil => exact nofun
  | cons a xs ih =>
    rw [List.foldlM_cons]
    exact bind_ne_error (h b a) ih

/-- What the passes fail with is an allocation, a thread or a parameter. -/
theorem fillMemoryBlocks_ne_encodingFail (host : Host) (inst : Instance) (memory : Memory) :
    fillMemoryBlocks host inst memory ≠ .error .encodingFail := by
  have hlane : ∀ r s memory l, runLane host inst r s memory l ≠ .error .encodingFail :=
    fun _ _ _ _ => bind_ne_error (reject_ne_error (by decide)) fun _ =>
      bind_ne_error (reject_ne_error (by decide)) fun _ => nofun
  have hjoin : ∀ r s memory l, joinLane host r s memory l ≠ .error .encodingFail :=
    fun _ _ _ _ => bind_ne_error (reject_ne_error (by decide)) fun _ => nofun
  have hslice : ∀ r memory s, runSlice host inst r memory s ≠ .error .encodingFail :=
    fun _ _ _ => bind_ne_error (foldlM_ne_error (hlane _ _) _ _) fun _ =>
      foldlM_ne_error (hjoin _ _) _ _
  unfold fillMemoryBlocks
  split_ifs
  · exact nofun
  · exact nofun
  · exact bind_ne_error (reject_ne_error (by decide)) fun _ =>
      bind_ne_error (reject_ne_error (by decide)) fun _ =>
        foldlM_ne_error (fun _ r => foldlM_ne_error (hslice r) _ _) _ _

/-- No run of the memory-hard function fails with the code for a text that does not fit. -/
theorem argon2Ctx_ne_encodingFail (host : Host) (context : Context) (type : Argon2Type) :
    argon2Ctx host context type ≠ .error .encodingFail := by
  have hinit : ∀ inst, argon2Initialize host inst context ≠ .error .encodingFail := fun _ =>
    bind_ne_error (bind_ne_error (reject_ne_error (by decide)) fun _ =>
      bind_ne_error (reject_ne_error (by decide)) fun _ => nofun) fun _ => nofun
  exact bind_ne_error (validateInputs_ne_encodingFail context) fun _ =>
    bind_ne_error (hinit _) fun _ =>
      bind_ne_error (fillMemoryBlocks_ne_encodingFail host _ _) fun _ => nofun

/-- A run that succeeds had valid inputs and leaves the tag, whatever the host has refused to
others. -/
theorem argon2Ctx_eq_ok {out : Bytes} (h : argon2Ctx host context type = .ok out) :
    context.Valid ∧ out = tag context type := by
  obtain ⟨_, hvalid, h⟩ := bind_eq_ok.mp h
  obtain ⟨first, hfirst, h⟩ := bind_eq_ok.mp h
  obtain ⟨filled, hfilled, h⟩ := bind_eq_ok.mp h
  obtain ⟨empty, hempty, hfirst⟩ := bind_eq_ok.mp hfirst
  refine ⟨validateInputs_eq_ok_iff.mp hvalid, ?_⟩
  rw [← Except.ok.inj h, fillMemoryBlocks_eq_ok hfilled, ← Except.ok.inj hfirst,
    allocateMemory_eq_ok hempty]
  rfl

/-- With valid inputs only the host can make a run fail, and a generous one does not. -/
theorem argon2Ctx_of_generous (hhost : host.Generous) (hvalid : context.Valid) :
    argon2Ctx host context type = .ok (tag context type) := by
  have hlanes : (contextInstance context type).lanes ≠ 0 := by
    intro h0
    have hpos := hvalid.lanes_pos
    have hlanes : context.lanes = 0 := h0
    rw [hlanes] at hpos
    exact absurd hpos (by decide)
  have hblocks := (contextInstance context type).memoryBlocks.toNat_lt
  rw [argon2Ctx, validateInputs_eq_ok_iff.mpr hvalid]
  simp only [ok_bind, argon2Initialize, allocateMemory_of_generous hhost hblocks, pure_eq_ok,
    fillMemoryBlocks_of_generous hhost hlanes]
  rfl

/-- The tag has the requested length, because the long digest has it. -/
theorem length_tag (hvalid : context.Valid) : (tag context type).length = context.outlen.toNat := by
  have hmin := hvalid.outlen_ge
  have hlt := context.outlen.toNat_lt
  obtain ⟨out, hout, hlength⟩ := blake2bLong_length (by omega : 0 < context.outlen.toNat)
    (by omega) (storeBlock ((List.range' 1 ((contextInstance context type).lanes.toNat - 1)).foldl
      (fun blockhash l => xorBlock blockhash _) _))
  rw [tag, finalize, hout, Option.getD_some, hlength]

end Runs

end Passe.Argon2
