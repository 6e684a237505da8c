import Passe.Argon2Threads

/-!
# The main thread and its pool

`fill_memory_blocks_mt` creates one thread for each lane of a slice and joins the
oldest one whenever `threads` of them are on the way. The main thread blocks in a
join until the thread it waits for has ended; the other threads go on in any order.
A creation or a join can fail at any time. After a failed creation the main thread
joins every lane created so far, without looking at what the joins return; after a
failed join it leaves at once, and the threads go on behind its back.

With fewer threads than lanes the clean-up comes to handles that were joined before.
POSIX leaves such a join undefined, and the code relies on its returning an error that
nobody reads. That is how it is modelled, as a step of its own.
-/
namespace Passe.Argon2
open Interleaving

/-- What the main thread does to its threads. The joins of the clean-up are set apart
because their results are ignored. -/
inductive Op
  /-- `passe_argon2_thread_create` for lane `l` of slice `s` in pass `r`. -/
  | create (r s l : ℕ)
  /-- A join whose failure ends the call, in the loop over the lanes or behind it. -/
  | join (l : ℕ)
  /-- A join of the clean-up after a failed creation. -/
  | cleanUp (l : ℕ)

/-- The body of the loop over the lanes, for lane `l`: make room if `threads` threads
are on the way, then create the thread. -/
def laneOps (inst : Instance) (r s l : ℕ) : List Op :=
  (if l ≥ inst.threads.toNat then [.join (l - inst.threads.toNat)] else []) ++ [.create r s l]

/-- One slice: the loop over the lanes and the joins of the threads that remain. -/
def sliceOps (inst : Instance) (r s : ℕ) : List Op :=
  let remaining := (inst.lanes - inst.threads).toNat
  (List.range inst.lanes.toNat).flatMap (laneOps inst r s) ++
    (List.range' remaining (inst.lanes.toNat - remaining)).map .join

/-- The slices in the order of the two outer loops, each as a pass and a quarter of it. -/
def slices (inst : Instance) : List (ℕ × ℕ) :=
  (List.range inst.passes.toNat).flatMap fun r =>
    (List.range argon2SyncPoints.toNat).map fun s => (r, s)

def mainOps (inst : Instance) : List Op := (slices inst).flatMap fun p => sliceOps inst p.1 p.2

/-- `thread[l]`. A handle that was joined keeps its old value in the source and is of no
use any more, which only the clean-up forgets. -/
inductive Handle
  | unset
  | running (t : Thread)
  | joined

/-- The whole of a call between two steps: what the main thread still has to do, the
handles, the shared blocks and the code it will return. `joinFailed` is not in the
source; it records that some thread has been left without a join. -/
structure Config where
  ops : List Op
  pool : ℕ → Handle
  memory : Memory
  rc : Result Unit
  joinFailed : Bool

/-- `fill_memory_blocks_mt` behind its two allocations: `calloc` has cleared the handles. -/
def poolStart (inst : Instance) (memory : Memory) : Config :=
  ⟨mainOps inst, fun _ => .unset, memory, .ok (), false⟩

/-- `passe_fill_memory_blocks`. With one thread there is no pool: the calling thread fills
everything itself and nothing is left to do. -/
def fillStart (inst : Instance) (memory : Memory) : Config :=
  if inst.threads = 1 then
    ⟨[], fun _ => .unset, fillMemoryBlocksSt inst memory, .ok (), false⟩
  else poolStart inst memory

/-- One step of the main thread or of a running thread. Which one goes next is not
determined, and neither is whether a creation or a join succeeds. -/
inductive Step (inst : Instance) : Config → Config → Prop
  /-- The new thread starts at the head of its segment. -/
  | create {r s l ops pool memory rc joinFailed} :
    Step inst ⟨.create r s l :: ops, pool, memory, rc, joinFailed⟩
      ⟨ops, Function.update pool l (.running (threadStart inst (segmentStart r s l))), memory, rc,
        joinFailed⟩
  /-- A creation fails, and the lanes before it are joined. -/
  | createFails {r s l ops pool memory rc joinFailed} :
    Step inst ⟨.create r s l :: ops, pool, memory, rc, joinFailed⟩
      ⟨(List.range l).map .cleanUp, pool, memory, .error .threadFail, joinFailed⟩
  /-- The main thread gets past a join when the thread has left its loop. -/
  | join {l ops pool memory rc joinFailed t} (hpool : pool l = .running t)
      (hended : t.Ended inst) :
    Step inst ⟨.join l :: ops, pool, memory, rc, joinFailed⟩
      ⟨ops, Function.update pool l .joined, memory, rc, joinFailed⟩
  /-- A join fails, and `goto fail` skips everything that is left. -/
  | joinFails {l ops pool memory rc joinFailed} :
    Step inst ⟨.join l :: ops, pool, memory, rc, joinFailed⟩
      ⟨[], pool, memory, .error .threadFail, true⟩
  /-- The clean-up waits for a thread that is still on the way. -/
  | cleanUp {l ops pool memory rc joinFailed t} (hpool : pool l = .running t)
      (hended : t.Ended inst) :
    Step inst ⟨.cleanUp l :: ops, pool, memory, rc, joinFailed⟩
      ⟨ops, Function.update pool l .joined, memory, rc, joinFailed⟩
  /-- The clean-up comes to a thread that was joined before, and nothing happens. -/
  | cleanUpAgain {l ops pool memory rc joinFailed} (hpool : pool l = .joined) :
    Step inst ⟨.cleanUp l :: ops, pool, memory, rc, joinFailed⟩
      ⟨ops, pool, memory, rc, joinFailed⟩
  /-- A join of the clean-up fails unnoticed while the thread still runs. -/
  | cleanUpFails {l ops pool memory rc joinFailed t} (hpool : pool l = .running t) :
    Step inst ⟨.cleanUp l :: ops, pool, memory, rc, joinFailed⟩ ⟨ops, pool, memory, rc, true⟩
  /-- A thread makes its next access to the shared blocks. -/
  | run {l ops pool memory memory' rc joinFailed t t'} (hpool : pool l = .running t)
      (hstep : threadStep inst t memory = some (t', memory')) :
    Step inst ⟨ops, pool, memory, rc, joinFailed⟩
      ⟨ops, Function.update pool l (.running t'), memory', rc, joinFailed⟩

/-- All that can happen in a call, whatever the schedule is and whatever fails. -/
def Reachable (inst : Instance) (memory : Memory) : Config → Prop :=
  Relation.ReflTransGen (Step inst) (poolStart inst memory)

/-- The operations left in a slice with `n` threads created and the first `j` of them
joined: lanes are created and joined in order, never more than `threads` lie between the
two, and at the end every lane is joined. -/
inductive Disciplined (inst : Instance) (r s : ℕ) : ℕ → ℕ → List Op → Prop
  | done : Disciplined inst r s inst.lanes.toNat inst.lanes.toNat []
  | create {n j ops} (hn : n < inst.lanes.toNat) (hj : j = n + 1 - inst.threads.toNat)
      (hrest : Disciplined inst r s (n + 1) j ops) : Disciplined inst r s n j (.create r s n :: ops)
  | join {n j ops} (hj : j < n) (hrest : Disciplined inst r s n (j + 1) ops) :
    Disciplined inst r s n j (.join j :: ops)

section Discipline
variable {inst : Instance} {r s : ℕ}

/-- The joins at the end of a slice, which leave no thread of it behind. -/
theorem disciplined_joins (k : ℕ) {j : ℕ} (hk : j + k = inst.lanes.toNat) :
    Disciplined inst r s inst.lanes.toNat j ((List.range' j k).map .join) := by
  induction k generalizing j with
  | zero =>
    rw [Nat.add_zero] at hk
    subst hk
    exact .done
  | succ k ih =>
    rw [List.range'_succ, List.map_cons]
    exact .join (by omega) (ih (by omega))

/-- The threads created from lane `n` on, with the joins between and after them. -/
theorem disciplined_lanes (hinst : inst.WellFormed) (k : ℕ) {n : ℕ}
    (hk : n + k = inst.lanes.toNat) :
    Disciplined inst r s n (n - inst.threads.toNat) ((List.range' n k).flatMap (laneOps inst r s) ++
      (List.range' (inst.lanes.toNat - inst.threads.toNat) inst.threads.toNat).map .join) := by
  have hpos := hinst.threads_pos
  have hle := hinst.threads_le
  induction k generalizing n with
  | zero =>
    rw [Nat.add_zero] at hk
    subst hk
    exact disciplined_joins _ (by omega)
  | succ k ih =>
    have hrest := ih (n := n + 1) (by omega)
    rw [List.range'_succ, List.flatMap_cons, laneOps, List.append_assoc, List.append_assoc,
      List.singleton_append]
    by_cases hfull : n ≥ inst.threads.toNat
    · rw [if_pos hfull, List.singleton_append]
      have hnext : n - inst.threads.toNat + 1 = n + 1 - inst.threads.toNat := by omega
      refine .join (by omega) ?_
      rw [hnext]
      exact .create (by omega) rfl hrest
    · rw [if_neg hfull, List.nil_append]
      have hnone : n - inst.threads.toNat = n + 1 - inst.threads.toNat := by omega
      rw [hnone]
      exact .create (by omega) rfl hrest

/-- What the source does in one slice is disciplined, for any number of threads and lanes. -/
theorem sliceOps_disciplined (hinst : inst.WellFormed) :
    Disciplined inst r s 0 0 (sliceOps inst r s) := by
  have hle := hinst.threads_le
  have hremaining : (inst.lanes - inst.threads).toNat = inst.lanes.toNat - inst.threads.toNat :=
    UInt32.toNat_sub_of_le _ _ (UInt32.le_iff_toNat_le.mpr hle)
  have hlanes := disciplined_lanes (r := r) (s := s) hinst inst.lanes.toNat (n := 0) (by omega)
  rw [Nat.zero_sub, ← List.range_eq_range'] at hlanes
  rw [sliceOps, hremaining, Nat.sub_sub_self hle]
  exact hlanes

end Discipline

/-- The pool in the middle of a slice that started on `first`: `n` threads are created, the
first `j` of them are joined for certain, and `xs` are the threads of all lanes, those that
have ended included. What the threads have done so far is a run of the slice alone, so the
results about one slice apply whatever the main thread does meanwhile. -/
structure SliceInv (inst : Instance) (r s : ℕ) (first : Memory) (n j : ℕ) (pool : ℕ → Handle)
    (memory : Memory) (xs : Fin inst.lanes.toNat → Thread) : Prop where
  created_le : n ≤ inst.lanes.toNat
  joined_le : j ≤ n
  window : n ≤ j + inst.threads.toNat
  reached : (sliceThreads inst).Run (sliceStart inst r s, first) (xs, memory)
  joined : ∀ l, l < j → pool l = .joined
  created : ∀ l : Fin inst.lanes.toNat, l.val < n →
    pool l = .running (xs l) ∨ pool l = .joined ∧ (xs l).Ended inst
  waiting : ∀ l : Fin inst.lanes.toNat, n ≤ l.val → xs l = sliceStart inst r s l
  idle : ∀ l, n ≤ l → ∀ t, pool l ≠ .running t

section SliceInv
variable {inst : Instance} {r s n j l : ℕ} {first memory memory' : Memory} {pool : ℕ → Handle}
  {xs : Fin inst.lanes.toNat → Thread} {t t' : Thread}

theorem sliceInv_start (hpool : ∀ l t, pool l ≠ .running t) :
    SliceInv inst r s memory 0 0 pool memory (sliceStart inst r s) where
  created_le := Nat.zero_le _
  joined_le := Nat.le_refl _
  window := Nat.zero_le _
  reached := .refl
  joined _ hl := absurd hl (Nat.not_lt_zero _)
  created _ hl := absurd hl (Nat.not_lt_zero _)
  waiting _ _ := rfl
  idle l _ := hpool l

/-- A running thread has been created and is none of those that are joined for certain. -/
theorem SliceInv.of_running (h : SliceInv inst r s first n j pool memory xs)
    (hpool : pool l = .running t) :
    ∃ hl : l < inst.lanes.toNat, j ≤ l ∧ l < n ∧ xs ⟨l, hl⟩ = t := by
  have hn : l < n := by
    by_contra hge
    exact h.idle l (by omega) t hpool
  have hl : l < inst.lanes.toNat := by
    have hle := h.created_le
    omega
  have hj : j ≤ l := by
    by_contra hlt
    have hjoined := h.joined l (by omega)
    rw [hpool] at hjoined
    exact absurd hjoined (by simp)
  rcases h.created ⟨l, hl⟩ hn with hrunning | ⟨hjoined, -⟩
  · rw [hpool] at hrunning
    exact ⟨hl, hj, hn, (Handle.running.inj hrunning).symm⟩
  · rw [hpool] at hjoined
    exact absurd hjoined (by simp)

theorem SliceInv.create (h : SliceInv inst r s first n j pool memory xs)
    (hn : n < inst.lanes.toNat) (hwindow : n + 1 ≤ j + inst.threads.toNat) :
    SliceInv inst r s first (n + 1) j
      (Function.update pool n (.running (threadStart inst (segmentStart r s n)))) memory xs where
  created_le := hn
  joined_le := Nat.le_succ_of_le h.joined_le
  window := hwindow
  reached := h.reached
  joined l hl := by
    have hne : l ≠ n := by
      have hle := h.joined_le
      omega
    rw [Function.update_of_ne hne]
    exact h.joined l hl
  created l hl := by
    by_cases heq : l.val = n
    · have hstart : xs l = sliceStart inst r s l := h.waiting l (by omega)
      left
      rw [hstart, heq, Function.update_self, sliceStart, heq]
    · rw [Function.update_of_ne heq]
      exact h.created l (by omega)
  waiting l hl := h.waiting l (by omega)
  idle l hl t := by
    rw [Function.update_of_ne (by omega)]
    exact h.idle l (by omega) t

/-- A thread that has left its loop is joined, wherever it stands. -/
theorem SliceInv.joinAt (h : SliceInv inst r s first n j pool memory xs)
    (hpool : pool l = .running t) (hended : t.Ended inst) :
    SliceInv inst r s first n j (Function.update pool l .joined) memory xs where
  created_le := h.created_le
  joined_le := h.joined_le
  window := h.window
  reached := h.reached
  joined k hk := by
    by_cases heq : k = l
    · rw [heq, Function.update_self]
    · rw [Function.update_of_ne heq]
      exact h.joined k hk
  created k hk := by
    by_cases heq : k.val = l
    · obtain ⟨hl, -, -, hxs⟩ := h.of_running hpool
      have hself : k = ⟨l, hl⟩ := Fin.ext heq
      right
      rw [hself, Function.update_self, hxs]
      exact ⟨rfl, hended⟩
    · rw [Function.update_of_ne heq]
      exact h.created k hk
  waiting := h.waiting
  idle k hk t' := by
    obtain ⟨-, -, hn, -⟩ := h.of_running hpool
    rw [Function.update_of_ne (by omega)]
    exact h.idle k hk t'

/-- One more of the first threads is joined for certain. -/
theorem SliceInv.advance (h : SliceInv inst r s first n j pool memory xs) (hj : j < n)
    (hpool : pool j = .joined) : SliceInv inst r s first n (j + 1) pool memory xs where
  created_le := h.created_le
  joined_le := hj
  window := by
    have hwindow := h.window
    omega
  reached := h.reached
  joined l hl := by
    rcases Nat.lt_succ_iff_lt_or_eq.mp hl with hlt | rfl
    · exact h.joined l hlt
    · exact hpool
  created := h.created
  waiting := h.waiting
  idle := h.idle

theorem SliceInv.join (h : SliceInv inst r s first n j pool memory xs) (hj : j < n)
    (hpool : pool j = .running t) (hended : t.Ended inst) :
    SliceInv inst r s first n (j + 1) (Function.update pool j .joined) memory xs :=
  (h.joinAt hpool hended).advance hj (Function.update_self ..)

theorem SliceInv.run (h : SliceInv inst r s first n j pool memory xs)
    (hpool : pool l = .running t) (hstep : threadStep inst t memory = some (t', memory')) :
    ∃ ys, SliceInv inst r s first n j (Function.update pool l (.running t')) memory' ys := by
  obtain ⟨hl, hjl, hln, rfl⟩ := h.of_running hpool
  refine ⟨Function.update xs ⟨l, hl⟩ t', h.created_le, h.joined_le, h.window,
    h.reached.tail (.step _ hstep), ?_, ?_, ?_, ?_⟩
  · intro k hk
    rw [Function.update_of_ne (by omega)]
    exact h.joined k hk
  · intro k hk
    by_cases heq : k.val = l
    · have hself : k = ⟨l, hl⟩ := Fin.ext heq
      left
      rw [hself, Function.update_self, Function.update_self]
    · have hne' : k ≠ ⟨l, hl⟩ := fun heq' => heq (congrArg Fin.val heq')
      rw [Function.update_of_ne heq, Function.update_of_ne hne']
      exact h.created k hk
  · intro k hk
    have hne' : k ≠ ⟨l, hl⟩ := fun heq => by
      have hval := congrArg Fin.val heq
      simp only at hval
      omega
    rw [Function.update_of_ne hne']
    exact h.waiting k hk
  · intro k hk u
    rw [Function.update_of_ne (by omega)]
    exact h.idle k hk u

/-- When all threads of the slice are joined, the slice is filled. -/
theorem SliceInv.finished (hinst : inst.WellFormed) (hr : r < inst.passes.toNat) (hs : s < 4)
    (hsize : first.size = inst.memoryBlocks.toNat)
    (h : SliceInv inst r s first inst.lanes.toNat inst.lanes.toNat pool memory xs) :
    memory = sliceFilled inst r first s ∧ ∀ l t, pool l ≠ .running t := by
  have hended : ∀ l, (xs l).Ended inst := by
    intro l
    rcases h.created l l.isLt with hrunning | ⟨-, hended⟩
    · have hjoined := h.joined l l.isLt
      rw [hrunning] at hjoined
      exact absurd hjoined (by simp)
    · exact hended
  refine ⟨eq_sliceFilled_of_run hinst hr hs hsize h.reached hended, ?_⟩
  intro l t hpool
  obtain ⟨hl, hj, -, -⟩ := h.of_running hpool
  omega

end SliceInv

/-- The memory after the slices `ps`, each filled by one lane after the other. -/
def filled (inst : Instance) (memory : Memory) (ps : List (ℕ × ℕ)) : Memory :=
  ps.foldl (fun memory p => sliceFilled inst p.1 memory p.2) memory

/-- What the main thread still has to do, in a slice that started on `first`. While it fills
the slice, none of the threads it has not come to is joined. In the clean-up it stands at
lane `k`: the lanes before have been joined unless a join went wrong, and a lane ahead can
only have been joined before when there are fewer threads than lanes. -/
inductive Plan (inst : Instance) (memory : Memory) (r s : ℕ) (pool : ℕ → Handle) :
    Memory → ℕ → ℕ → List Op → Result Unit → Bool → Prop
  | filling {before after n j ops} (hslices : slices inst = before ++ (r, s) :: after)
      (hops : Disciplined inst r s n j ops) (hahead : ∀ l, j ≤ l → l < n → pool l ≠ .joined) :
    Plan inst memory r s pool (filled inst memory before) n j
      (ops ++ after.flatMap fun p => sliceOps inst p.1 p.2) (.ok ()) false
  | cleaning {first n j k joinFailed}
      (hbehind : joinFailed = false → ∀ l, l < k → pool l = .joined)
      (htwice : ∀ l, k ≤ l → l < n → pool l = .joined → inst.threads.toNat < inst.lanes.toNat) :
    Plan inst memory r s pool first n j ((List.range' k (n - k)).map .cleanUp)
      (.error .threadFail) joinFailed
  | abandoned {first n j} : Plan inst memory r s pool first n j [] (.error .threadFail) true

/-- What holds in every state that can be reached: some slice is being worked on, the threads
have got on with it, and what the main thread has left to do fits both. -/
def Config.Inv (inst : Instance) (memory : Memory) (c : Config) : Prop :=
  ∃ r s first n j xs, r < inst.passes.toNat ∧ s < 4 ∧
    SliceInv inst r s first n j c.pool c.memory xs ∧
      Plan inst memory r s c.pool first n j c.ops c.rc c.joinFailed

section Invariant
variable {inst : Instance} {memory : Memory}

theorem fillMemoryBlocksSt_eq (inst : Instance) (memory : Memory) :
    fillMemoryBlocksSt inst memory = filled inst memory (slices inst) := by
  unfold fillMemoryBlocksSt filled slices
  rw [List.foldl_flatMap]
  simp only [List.foldl_map]
  rfl

@[simp] theorem size_filled (ps : List (ℕ × ℕ)) (memory : Memory) :
    (filled inst memory ps).size = memory.size := by
  unfold filled
  induction ps generalizing memory with
  | nil => rfl
  | cons p ps ih =>
    rw [List.foldl_cons, ih]
    exact size_foldl_fillSegment inst p.1 p.2 (List.range inst.lanes.toNat) memory

@[simp] theorem mem_slices {r s : ℕ} : (r, s) ∈ slices inst ↔ r < inst.passes.toNat ∧ s < 4 := by
  have hfour : argon2SyncPoints.toNat = 4 := rfl
  simp only [slices, List.mem_flatMap, List.mem_map, List.mem_range, Prod.mk.injEq, hfour]
  constructor
  · rintro ⟨r', hr, s', hs, rfl, rfl⟩
    exact ⟨hr, hs⟩
  · rintro ⟨hr, hs⟩
    exact ⟨r, hr, s, hs, rfl, rfl⟩

theorem mem_of_slices {before after : List (ℕ × ℕ)} {r s : ℕ}
    (hslices : slices inst = before ++ (r, s) :: after) : r < inst.passes.toNat ∧ s < 4 := by
  refine mem_slices.mp ?_
  rw [hslices]
  exact List.mem_append_right _ List.mem_cons_self

/-- A slice begins where all threads of the one before are joined. -/
theorem inv_slice (hinst : inst.WellFormed) {before after : List (ℕ × ℕ)} {r s : ℕ}
    {pool : ℕ → Handle} (hslices : slices inst = before ++ (r, s) :: after)
    (hpool : ∀ l t, pool l ≠ .running t) :
    Config.Inv inst memory ⟨sliceOps inst r s ++ after.flatMap fun p => sliceOps inst p.1 p.2, pool,
      filled inst memory before, .ok (), false⟩ := by
  obtain ⟨hr, hs⟩ := mem_of_slices hslices
  exact ⟨r, s, _, 0, 0, _, hr, hs, sliceInv_start hpool,
    .filling hslices (sliceOps_disciplined hinst) fun l _ hl => absurd hl (Nat.not_lt_zero l)⟩

theorem inv_poolStart (hinst : inst.WellFormed) : (poolStart inst memory).Inv inst memory := by
  have hpos := hinst.passes_pos
  rcases hslices : slices inst with _ | ⟨⟨r, s⟩, after⟩
  · have hmem : (0, 0) ∈ slices inst := mem_slices.mpr ⟨hpos, by omega⟩
    rw [hslices] at hmem
    exact absurd hmem List.not_mem_nil
  · rw [poolStart, mainOps, hslices, List.flatMap_cons]
    have hslices' : slices inst = [] ++ (r, s) :: after := hslices
    exact inv_slice hinst hslices' fun _ _ => Handle.noConfusion

/-- A plan depends on the handles only through the question which of them are joined. -/
theorem Plan.congr {r s : ℕ} {first : Memory} {n j : ℕ} {ops : List Op} {rc : Result Unit}
    {joinFailed : Bool} {pool pool' : ℕ → Handle}
    (h : Plan inst memory r s pool first n j ops rc joinFailed)
    (hpool : ∀ l, pool' l = .joined ↔ pool l = .joined) :
    Plan inst memory r s pool' first n j ops rc joinFailed := by
  cases h with
  | filling hslices hops hahead =>
    exact .filling hslices hops fun l hj hn heq => hahead l hj hn ((hpool l).mp heq)
  | cleaning hbehind htwice =>
    exact .cleaning (fun hlost l hl => (hpool l).mpr (hbehind hlost l hl))
      fun l hk hn heq => htwice l hk hn ((hpool l).mp heq)
  | abandoned => exact .abandoned

/-- The main thread in front of an operation, in the slice the operation belongs to. At the
end of a slice that is the next slice, on which the invariant starts afresh. -/
inductive Ahead (inst : Instance) (memory : Memory) (r s : ℕ) (pool : ℕ → Handle) :
    Memory → ℕ → ℕ → Op → List Op → Result Unit → Bool → Prop
  | filling {before after n j op ops} (hslices : slices inst = before ++ (r, s) :: after)
      (hops : Disciplined inst r s n j (op :: ops))
      (hahead : ∀ l, j ≤ l → l < n → pool l ≠ .joined) :
    Ahead inst memory r s pool (filled inst memory before) n j op
      (ops ++ after.flatMap fun p => sliceOps inst p.1 p.2) (.ok ()) false
  | cleaning {first n j k joinFailed} (hk : k < n)
      (hbehind : joinFailed = false → ∀ l, l < k → pool l = .joined)
      (htwice : ∀ l, k ≤ l → l < n → pool l = .joined → inst.threads.toNat < inst.lanes.toNat) :
    Ahead inst memory r s pool first n j (.cleanUp k)
      ((List.range' (k + 1) (n - (k + 1))).map .cleanUp) (.error .threadFail) joinFailed

theorem Config.Inv.ahead (hinst : inst.WellFormed) (hsize : memory.size = inst.memoryBlocks.toNat)
    {op : Op} {ops : List Op} {pool : ℕ → Handle} {m : Memory} {rc : Result Unit}
    {joinFailed : Bool} (h : Config.Inv inst memory ⟨op :: ops, pool, m, rc, joinFailed⟩) :
    ∃ r s first n j xs, r < inst.passes.toNat ∧ s < 4 ∧
      SliceInv inst r s first n j pool m xs ∧
        Ahead inst memory r s pool first n j op ops rc joinFailed := by
  obtain ⟨r, s, first, n, j, xs, hr, hs, hslice, hplan⟩ := h
  simp only at hslice hplan
  generalize hall : op :: ops = all at hplan
  cases hplan with
  | @filling before after _ _ left hslices hops hahead =>
    cases left with
    | cons op' left =>
      obtain ⟨rfl, rfl⟩ := List.cons.inj hall
      exact ⟨r, s, _, n, j, xs, hr, hs, hslice, .filling hslices hops hahead⟩
    | nil =>
      -- The slice is over, so the operation is the first one of the next slice.
      cases hops
      obtain ⟨hfilled, hpool⟩ := hslice.finished hinst hr hs ((size_filled _ _).trans hsize)
      rw [List.nil_append] at hall
      rcases after with _ | ⟨⟨r', s'⟩, after⟩
      · exact absurd hall (List.cons_ne_nil op ops)
      have hslices' : slices inst = (before ++ [(r, s)]) ++ (r', s') :: after := by
        rw [List.append_assoc, List.singleton_append]
        exact hslices
      have hm : m = filled inst memory (before ++ [(r, s)]) := by
        rw [hfilled, filled, filled, List.foldl_append]
        rfl
      obtain ⟨hr', hs'⟩ := mem_of_slices hslices'
      have hops' := sliceOps_disciplined (r := r') (s := s') hinst
      have hlanes := hinst.lanes_pos
      rw [List.flatMap_cons] at hall
      generalize sliceOps inst r' s' = left at hall hops'
      cases left with
      | nil =>
        generalize hzero : 0 = k at hops'
        cases hops'
        omega
      | cons op' left =>
        obtain ⟨rfl, rfl⟩ := List.cons.inj hall
        rw [hm]
        exact ⟨r', s', _, 0, 0, _, hr', hs', sliceInv_start hpool,
          .filling hslices' hops' fun l _ hl => absurd hl (Nat.not_lt_zero l)⟩
  | @cleaning _ _ _ k _ hbehind htwice =>
    have hk : k < n := by
      by_contra hge
      rw [Nat.sub_eq_zero_of_le (by omega)] at hall
      exact absurd hall (List.cons_ne_nil op ops)
    rw [show n - k = (n - (k + 1)) + 1 by omega, List.range'_succ, List.map_cons] at hall
    obtain ⟨rfl, rfl⟩ := List.cons.inj hall
    exact ⟨r, s, first, n, j, xs, hr, hs, hslice, .cleaning hk hbehind htwice⟩
  | abandoned => exact absurd hall (List.cons_ne_nil op ops)

/-- The invariant survives every step of the main thread and of the others, those that fail
included. -/
theorem Config.Inv.step (hinst : inst.WellFormed) (hsize : memory.size = inst.memoryBlocks.toNat)
    {c c' : Config} (h : c.Inv inst memory) (hstep : Step inst c c') : c'.Inv inst memory := by
  cases hstep with
  | @create r s n ops pool m rc joinFailed =>
    obtain ⟨r, s, first, n, j, xs, hr, hs, hslice, hahead⟩ := h.ahead hinst hsize
    cases hahead with
    | filling hslices hops hwaits =>
      cases hops with
      | create hn hj hrest =>
        refine ⟨_, _, _, _, _, xs, hr, hs, hslice.create hn (by omega),
          .filling hslices hrest fun l hjl hln => ?_⟩
        dsimp only
        by_cases heq : l = n
        · rw [heq, Function.update_self]
          exact Handle.noConfusion
        · rw [Function.update_of_ne heq]
          exact hwaits l hjl (by omega)
  | @createFails r s n ops pool m rc joinFailed =>
    obtain ⟨r, s, first, n, j, xs, hr, hs, hslice, hahead⟩ := h.ahead hinst hsize
    cases hahead with
    | filling hslices hops hwaits =>
      cases hops with
      | create hn hj hrest =>
        refine ⟨_, _, _, n, j, xs, hr, hs, hslice, ?_⟩
        simp only [List.range_eq_range']
        refine .cleaning (fun _ l hl => absurd hl (Nat.not_lt_zero l)) fun l _ hln heq => ?_
        -- A lane that is joined already was joined to make room for another.
        by_contra hge
        exact hwaits l (by omega) hln heq
  | join hpool hended =>
    obtain ⟨r, s, first, n, j, xs, hr, hs, hslice, hahead⟩ := h.ahead hinst hsize
    cases hahead with
    | filling hslices hops hwaits =>
      cases hops with
      | join hj hrest =>
        refine ⟨r, s, _, n, _, xs, hr, hs, hslice.join hj hpool hended,
          .filling hslices hrest fun l hjl hln => ?_⟩
        dsimp only
        rw [Function.update_of_ne (by omega)]
        exact hwaits l (by omega) hln
  | joinFails =>
    obtain ⟨r, s, first, n, j, xs, hr, hs, hslice, -⟩ := h.ahead hinst hsize
    exact ⟨r, s, first, n, j, xs, hr, hs, hslice, .abandoned⟩
  | @cleanUp k ops pool m rc joinFailed t hpool hended =>
    obtain ⟨r, s, first, n, j, xs, hr, hs, hslice, hahead⟩ := h.ahead hinst hsize
    cases hahead with
    | filling hslices hops => cases hops
    | cleaning hk hbehind htwice =>
      refine ⟨r, s, first, n, j, xs, hr, hs, hslice.joinAt hpool hended,
        .cleaning (fun hlost l hl => ?_) fun l hkl hln => ?_⟩ <;> dsimp only
      · by_cases heq : l = k
        · rw [heq, Function.update_self]
        · rw [Function.update_of_ne heq]
          exact hbehind hlost l (by omega)
      · rw [Function.update_of_ne (by omega)]
        exact htwice l (by omega) hln
  | cleanUpAgain hpool =>
    obtain ⟨r, s, first, n, j, xs, hr, hs, hslice, hahead⟩ := h.ahead hinst hsize
    cases hahead with
    | filling hslices hops => cases hops
    | cleaning hk hbehind htwice =>
      refine ⟨r, s, first, n, j, xs, hr, hs, hslice,
        .cleaning (fun hlost l hl => ?_) fun l hkl => htwice l (by omega)⟩
      rcases Nat.lt_succ_iff_lt_or_eq.mp hl with hlt | rfl
      · exact hbehind hlost l hlt
      · exact hpool
  | cleanUpFails =>
    obtain ⟨r, s, first, n, j, xs, hr, hs, hslice, hahead⟩ := h.ahead hinst hsize
    cases hahead with
    | filling hslices hops => cases hops
    | cleaning hk hbehind htwice =>
      exact ⟨r, s, first, n, j, xs, hr, hs, hslice,
        .cleaning (fun hlost => absurd hlost (by simp)) fun l hkl => htwice l (by omega)⟩
  | @run l ops pool m m' rc joinFailed t t' hpool hrun =>
    obtain ⟨r, s, first, n, j, xs, hr, hs, hslice, hplan⟩ := h
    obtain ⟨ys, hslice'⟩ := hslice.run hpool hrun
    refine ⟨r, s, first, n, j, ys, hr, hs, hslice', hplan.congr fun k => ?_⟩
    dsimp only
    by_cases heq : k = l
    · rw [heq, Function.update_self, hpool]
      simp
    · rw [Function.update_of_ne heq]

theorem inv_of_reachable (hinst : inst.WellFormed) (hsize : memory.size = inst.memoryBlocks.toNat)
    {c : Config} (h : Reachable inst memory c) : c.Inv inst memory := by
  induction h with
  | refl => exact inv_poolStart hinst
  | tail _ hstep ih => exact ih.step hinst hsize hstep

end Invariant

end Passe.Argon2
