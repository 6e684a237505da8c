import Passe.Argon2Pool
import Mathlib.Algebra.BigOperators.Group.Finset.Basic
import Mathlib.Algebra.Order.BigOperators.Group.Finset
import Mathlib.Order.Interval.Finset.Nat

/-!
# All runs of the threads

Results about every run of `fill_memory_blocks_mt`: what the call leaves behind when
it returns, that it cannot block for ever, and that no two threads race and none
leaves the allocated memory. A run takes in whatever fails on the way. The one thing
that needs all joins to succeed is that no thread is left running, and the one place
where the source goes wrong is the clean-up, which can join a thread twice.
-/
namespace Passe.Argon2
open Interleaving

/-- No thread that the call created still runs, so nobody reads or writes the blocks behind its
back. -/
def Config.NoneRunning (c : Config) : Prop := ∀ l t, c.pool l ≠ .running t

/-- The main thread is about to join a thread that it has joined before, in the loop over
the lanes or in the clean-up. -/
def Config.JoinsTwice (c : Config) : Prop :=
  ∃ l ops, (c.ops = .join l :: ops ∨ c.ops = .cleanUp l :: ops) ∧ c.pool l = .joined

/-- Two lanes of four segments of three blocks, filled twice by two threads. -/
def twoLanes : Instance where
  version := 0x13
  passes := 2
  memoryBlocks := 24
  segmentLength := 3
  laneLength := 12
  lanes := 2
  threads := 2
  type := .d

theorem twoLanes_wellFormed : twoLanes.WellFormed := by
  constructor <;> decide

def twoLanesMemory : Memory := Array.replicate 24 initBlockValue

@[simp] theorem size_twoLanesMemory : twoLanesMemory.size = twoLanes.memoryBlocks.toNat :=
  Array.size_replicate

/-- Three such lanes for two threads, so that one thread has to wait for another. -/
def threeLanes : Instance := { twoLanes with memoryBlocks := 36, lanes := 3 }

theorem threeLanes_wellFormed : threeLanes.WellFormed := by
  constructor <;> decide

def threeLanesMemory : Memory := Array.replicate 36 initBlockValue

@[simp] theorem size_threeLanesMemory : threeLanesMemory.size = threeLanes.memoryBlocks.toNat :=
  Array.size_replicate

section Accesses
variable {inst : Instance} {memory : Memory} {c : Config}

/-- Every running thread stands where the loop over its segment can stand. -/
theorem sound_of_reachable (hinst : inst.WellFormed) (hsize : memory.size = inst.memoryBlocks.toNat)
    (h : Reachable inst memory c) :
    ∃ r s, r < inst.passes.toNat ∧ s < 4 ∧ ∀ l x, c.pool l = .running x →
      ∃ hl : l < inst.lanes.toNat, x.Sound inst r s (⟨l, hl⟩ : Fin inst.lanes.toNat) := by
  obtain ⟨r, s, first, n, j, xs, hr, hs, hslice, -⟩ := inv_of_reachable hinst hsize h
  refine ⟨r, s, hr, hs, fun l x hpool => ?_⟩
  obtain ⟨hl, -, -, rfl⟩ := hslice.of_running hpool
  exact ⟨hl, (sliceThreads_owned hinst hr hs).inv_of_run (sliceStart_sound hinst hr hs)
    hslice.reached ⟨l, hl⟩⟩

/-- At most `threads` threads run at the same time, because the main thread joins before it
creates. -/
theorem card_running_le (hinst : inst.WellFormed) (hsize : memory.size = inst.memoryBlocks.toNat)
    (h : Reachable inst memory c) (ls : Finset ℕ) (hls : ∀ l ∈ ls, ∃ t, c.pool l = .running t) :
    ls.card ≤ inst.threads.toNat := by
  obtain ⟨r, s, first, n, j, xs, hr, hs, hslice, -⟩ := inv_of_reachable hinst hsize h
  have hsubset : ls ⊆ Finset.Ico j n := by
    intro l hl
    obtain ⟨t, hpool⟩ := hls l hl
    obtain ⟨-, hjl, hln, -⟩ := hslice.of_running hpool
    exact Finset.mem_Ico.mpr ⟨hjl, hln⟩
  have hcard := Finset.card_le_card hsubset
  rw [Nat.card_Ico] at hcard
  have hwindow := hslice.window
  omega

theorem card_running_le_twoLanes : ∃ c, Reachable twoLanes twoLanesMemory c ∧
    (∃ t, c.pool 0 = .running t) ∧ (∃ t, c.pool 1 = .running t) ∧
    ∀ ls : Finset ℕ, (∀ l ∈ ls, ∃ t, c.pool l = .running t) → ls.card ≤ 2 := by
  have h : Reachable twoLanes twoLanesMemory _ :=
    (Relation.ReflTransGen.single .create).tail .create
  exact ⟨_, h, ⟨_, rfl⟩, ⟨_, rfl⟩, card_running_le twoLanes_wellFormed size_twoLanesMemory h⟩

end Accesses

/-- The accesses of a turn that are left, this one included. -/
def Phase.left : Phase → ℕ
  | .pick => 6
  | .copyRef _ => 5
  | .xorPrev _ => 4
  | .xorNext _ => 3
  | .copyTmp _ _ => 2
  | .xorResult _ => 1

/-- A bound on the accesses a thread still makes, by the turns that are left and the phase of
this one. -/
def Thread.left (inst : Instance) (t : Thread) : ℕ :=
  6 * (inst.segmentLength.toNat - t.i) + t.phase.left - 6

def Handle.left (inst : Instance) : Handle → ℕ
  | .running t => t.left inst
  | _ => 0

/-- A creation costs all accesses of the thread, and the joins that follow when it fails. -/
def Op.cost (inst : Instance) : Op → ℕ
  | .create _ _ _ => 6 * inst.segmentLength.toNat + inst.lanes.toNat + 1
  | .join _ | .cleanUp _ => 1

def Config.left (inst : Instance) (c : Config) : ℕ :=
  (c.ops.map (Op.cost inst)).sum +
    ∑ l ∈ Finset.range inst.lanes.toNat, (c.pool l).left inst

section Termination
variable {inst : Instance} {memory : Memory} {c c' : Config}

theorem Thread.left_lt {r s l : ℕ} {t t' : Thread} {m m' : Memory} (hsound : t.Sound inst r s l)
    (hstep : threadStep inst t m = some (t', m')) : t'.left inst < t.left inst := by
  obtain ⟨position, i, address_block, input_block, prev_offset, curr_offset, phase⟩ := t
  obtain ⟨-, -, hphase⟩ := hsound
  cases phase with
  | pick =>
    simp only [threadStep, Option.ite_none_right_eq_some, Option.some.injEq, Prod.mk.injEq] at hstep
    obtain ⟨hi, rfl, -⟩ := hstep
    simp only [Thread.left, Phase.left]
    omega
  | copyRef ref_offset =>
    obtain ⟨rfl, -⟩ := Prod.mk.inj (Option.some.inj hstep)
    have hi : i < inst.segmentLength.toNat := hphase.1.lt
    simp only [Thread.left, Phase.left]
    omega
  | xorPrev blockR =>
    obtain ⟨rfl, -⟩ := Prod.mk.inj (Option.some.inj hstep)
    have hi : i < inst.segmentLength.toNat := hphase.lt
    simp only [Thread.left]
    split_ifs <;> simp only [Phase.left] <;> omega
  | xorNext blockR =>
    obtain ⟨rfl, -⟩ := Prod.mk.inj (Option.some.inj hstep)
    have hi : i < inst.segmentLength.toNat := hphase.lt
    simp only [Thread.left, Phase.left]
    omega
  | copyTmp block_tmp blockR =>
    obtain ⟨rfl, -⟩ := Prod.mk.inj (Option.some.inj hstep)
    have hi : i < inst.segmentLength.toNat := hphase.lt
    simp only [Thread.left, Phase.left]
    omega
  | xorResult blockR =>
    obtain ⟨rfl, -⟩ := Prod.mk.inj (Option.some.inj hstep)
    have hi : i < inst.segmentLength.toNat := hphase.lt
    simp only [Thread.left, Phase.left]
    omega

/-- One handle changes, and the sum changes by what it stood for. -/
theorem sum_left_update (pool : ℕ → Handle) {l : ℕ} (hl : l < inst.lanes.toNat)
    (handle : Handle) :
    ∑ k ∈ Finset.range inst.lanes.toNat, (Function.update pool l handle k).left inst +
        (pool l).left inst =
      ∑ k ∈ Finset.range inst.lanes.toNat, (pool k).left inst + handle.left inst := by
  have hmem : l ∈ Finset.range inst.lanes.toNat := Finset.mem_range.mpr hl
  have hrest : ∑ k ∈ (Finset.range inst.lanes.toNat).erase l,
      (Function.update pool l handle k).left inst =
      ∑ k ∈ (Finset.range inst.lanes.toNat).erase l, (pool k).left inst := by
    refine Finset.sum_congr rfl fun k hk => ?_
    rw [Function.update_of_ne (Finset.ne_of_mem_erase hk)]
  rw [← Finset.add_sum_erase _ _ hmem, ← Finset.add_sum_erase _ _ hmem, hrest, Function.update_self]
  omega

theorem threadStart_left_le (inst : Instance) (position : Position) :
    (threadStart inst position).left inst ≤ 6 * inst.segmentLength.toNat := by
  simp only [threadStart, Thread.atTurn, Thread.left, Phase.left]
  omega

theorem cost_cleanUps (ls : List ℕ) :
    ((ls.map Op.cleanUp).map (Op.cost inst)).sum = ls.length := by
  induction ls with
  | nil => rfl
  | cons l ls ih =>
    simp only [List.map_cons, List.sum_cons, ih, List.length_cons, Op.cost]
    omega

/-- Every step uses something up: an operation of the main thread, or an access of another. -/
theorem Config.left_lt (hinst : inst.WellFormed) (hsize : memory.size = inst.memoryBlocks.toNat)
    (h : Reachable inst memory c) (hstep : Step inst c c') : c'.left inst < c.left inst := by
  have hinv := inv_of_reachable hinst hsize h
  have hcreate : ∀ {r s l : ℕ} {ops pool m rc joinFailed},
      c = ⟨.create r s l :: ops, pool, m, rc, joinFailed⟩ → l < inst.lanes.toNat := by
    rintro r s l ops pool m rc joinFailed rfl
    obtain ⟨r, s, first, n, j, xs, hr, hs, hslice, hahead⟩ := hinv.ahead hinst hsize
    cases hahead with
    | filling hslices hops =>
      cases hops with
      | create hn hj hrest => exact hn
  have hrunning : ∀ {l : ℕ} {x : Thread}, c.pool l = .running x → l < inst.lanes.toNat := by
    intro l x hpool
    obtain ⟨r, s, first, n, j, xs, hr, hs, hslice, -⟩ := hinv
    exact (hslice.of_running hpool).1
  cases hstep with
  | @create r s l ops pool m rc joinFailed =>
    have hsum := sum_left_update pool (hcreate rfl)
      (.running (threadStart inst (segmentStart r s l)))
    have hstart : (Handle.running (threadStart inst (segmentStart r s l))).left inst ≤
        6 * inst.segmentLength.toNat := threadStart_left_le inst _
    simp only [Config.left, List.map_cons, List.sum_cons, Op.cost]
    omega
  | createFails =>
    have hl := hcreate rfl
    simp only [Config.left, cost_cleanUps, List.length_range, List.map_cons, List.sum_cons, Op.cost]
    omega
  | @join l ops pool m rc joinFailed t hpool hended
  | @cleanUp l ops pool m rc joinFailed t hpool hended =>
    have hsum := sum_left_update pool (hrunning hpool) Handle.joined
    have hjoined : Handle.joined.left inst = 0 := rfl
    simp only [Config.left, List.map_cons, List.sum_cons, Op.cost]
    omega
  | joinFails | cleanUpAgain | cleanUpFails =>
    simp only [Config.left, List.map_cons, List.map_nil, List.sum_cons, List.sum_nil, Op.cost]
    omega
  | @run l ops pool m m' rc joinFailed t t' hpool hrun =>
    obtain ⟨r, s, hr, hs, hsound⟩ := sound_of_reachable hinst hsize h
    obtain ⟨hl, hx⟩ := hsound l t hpool
    have hless : (Handle.running t').left inst < (Handle.running t).left inst :=
      Thread.left_lt hx hrun
    have hsum := sum_left_update pool hl (.running t')
    rw [hpool] at hsum
    simp only [Config.left]
    omega

/-- No run goes on for ever: the bound that every step lowers is finite at the start. -/
theorem exists_not_step (hinst : inst.WellFormed) (hsize : memory.size = inst.memoryBlocks.toNat)
    (f : ℕ → Config) (hstart : f 0 = poolStart inst memory) :
    ∃ n, ¬ Step inst (f n) (f (n + 1)) := by
  by_contra hall
  have hstep : ∀ n, Step inst (f n) (f (n + 1)) := fun n => not_not.mp (not_exists.mp hall n)
  have hreach : ∀ n, Reachable inst memory (f n) := by
    intro n
    induction n with
    | zero =>
      rw [hstart]
      exact .refl
    | succ n ih => exact ih.tail (hstep n)
  have hbound : ∀ n, (f n).left inst + n ≤ (f 0).left inst := by
    intro n
    induction n with
    | zero => exact Nat.le_refl _
    | succ n ih =>
      have hless := Config.left_lt hinst hsize (hreach n) (hstep n)
      omega
  have hlast := hbound ((f 0).left inst + 1)
  omega

/-- A run that creates both threads and then does not know what to do. -/
def twoLanesRun : ℕ → Config
  | 0 => poolStart twoLanes twoLanesMemory
  | 1 => ⟨(mainOps twoLanes).tail, Function.update (fun _ => .unset) 0
      (.running (threadStart twoLanes (segmentStart 0 0 0))), twoLanesMemory, .ok (), false⟩
  | _ + 2 => ⟨(mainOps twoLanes).tail.tail, Function.update (Function.update (fun _ => .unset) 0
      (.running (threadStart twoLanes (segmentStart 0 0 0)))) 1
      (.running (threadStart twoLanes (segmentStart 0 0 1))), twoLanesMemory, .ok (), false⟩

theorem exists_not_step_twoLanes : Step twoLanes (twoLanesRun 0) (twoLanesRun 1) ∧
    Step twoLanes (twoLanesRun 1) (twoLanesRun 2) ∧
    ∃ n, 2 ≤ n ∧ ¬ Step twoLanes (twoLanesRun n) (twoLanesRun (n + 1)) := by
  have hfirst : Step twoLanes (twoLanesRun 0) (twoLanesRun 1) := .create
  have hsecond : Step twoLanes (twoLanesRun 1) (twoLanesRun 2) := .create
  obtain ⟨n, hn⟩ := exists_not_step twoLanes_wellFormed size_twoLanesMemory twoLanesRun rfl
  refine ⟨hfirst, hsecond, n, ?_, hn⟩
  by_contra hlt
  obtain rfl | rfl : n = 0 ∨ n = 1 := by omega
  · exact hn hfirst
  · exact hn hsecond

/-- A thread that was created keeps no join waiting for ever: it has been joined, it has
ended, or it can go on. -/
theorem exists_step_of_created {r s first n j k xs ops pool m} {rc : Result Unit}
    {joinFailed : Bool} (hslice : SliceInv inst r s first n j pool m xs) (hk : k < n) {op : Op}
    (hop : op = .join k ∧ pool k ≠ .joined ∨ op = .cleanUp k) :
    ∃ c', Step inst ⟨op :: ops, pool, m, rc, joinFailed⟩ c' ∧ c'.rc = rc ∧
      c'.joinFailed = joinFailed := by
  have hl : k < inst.lanes.toNat := by
    have hle := hslice.created_le
    omega
  rcases hslice.created ⟨k, hl⟩ hk with hpool | ⟨hpool, -⟩
  · cases hstep : threadStep inst (xs ⟨k, hl⟩) m with
    | none =>
      have hended := threadStep_eq_none.mp hstep
      rcases hop with ⟨rfl, -⟩ | rfl
      · exact ⟨_, .join hpool hended, rfl, rfl⟩
      · exact ⟨_, .cleanUp hpool hended, rfl, rfl⟩
    | some p => exact ⟨_, .run hpool hstep, rfl, rfl⟩
  · rcases hop with ⟨rfl, hne⟩ | rfl
    · exact absurd hpool hne
    · exact ⟨_, .cleanUpAgain hpool, rfl, rfl⟩

/-- The main thread is never stuck: something can happen that does not fail. -/
theorem exists_step (hinst : inst.WellFormed) (hsize : memory.size = inst.memoryBlocks.toNat)
    (h : Reachable inst memory c) (hops : c.ops ≠ []) :
    ∃ c', Step inst c c' ∧ c'.rc = c.rc ∧ c'.joinFailed = c.joinFailed := by
  obtain ⟨ops, pool, m, rc, joinFailed⟩ := c
  cases ops with
  | nil => exact absurd rfl hops
  | cons op ops =>
    obtain ⟨r, s, first, n, j, xs, hr, hs, hslice, hahead⟩ :=
      (inv_of_reachable hinst hsize h).ahead hinst hsize
    cases hahead with
    | filling hslices hdisciplined hwaits =>
      cases hdisciplined with
      | create => exact ⟨_, .create, rfl, rfl⟩
      | join hj hrest =>
        exact exists_step_of_created hslice hj (.inl ⟨rfl, hwaits _ (Nat.le_refl _) hj⟩)
    | cleaning hk => exact exists_step_of_created hslice hk (.inr rfl)

/-- The main thread gets past its next operation, after some accesses of the thread it waits
for. -/
theorem exists_advance (hinst : inst.WellFormed) (hsize : memory.size = inst.memoryBlocks.toNat)
    {op : Op} {ops : List Op} (h : Reachable inst memory c) (hops : c.ops = op :: ops) :
    ∃ c', Relation.ReflTransGen (Step inst) c c' ∧ c'.ops = ops ∧ c'.rc = c.rc ∧
      c'.joinFailed = c.joinFailed := by
  induction hleft : c.left inst using Nat.strong_induction_on generalizing c with
  | _ k ih =>
    have hne : c.ops ≠ [] := by
      rw [hops]
      exact List.cons_ne_nil op ops
    obtain ⟨c', hstep, hrc, hlost⟩ := exists_step hinst hsize h hne
    have hless := Config.left_lt hinst hsize h hstep
    have hreach := h.tail hstep
    cases hstep with
    | create => exact ⟨_, .single .create, (List.cons.inj hops).2, rfl, rfl⟩
    | join hpool hended =>
      exact ⟨_, .single (.join hpool hended), (List.cons.inj hops).2, rfl, rfl⟩
    | cleanUp hpool hended =>
      exact ⟨_, .single (.cleanUp hpool hended), (List.cons.inj hops).2, rfl, rfl⟩
    | cleanUpAgain hpool =>
      exact ⟨_, .single (.cleanUpAgain hpool), (List.cons.inj hops).2, rfl, rfl⟩
    | cleanUpFails hpool =>
      exact ⟨_, .single (.cleanUpFails hpool), (List.cons.inj hops).2, rfl, hlost⟩
    | run hpool hrun =>
      obtain ⟨d, hrun', hd⟩ := ih _ (hleft ▸ hless) hreach hops rfl
      exact ⟨d, .head (.run hpool hrun) hrun', hd⟩
    | createFails | joinFails =>
      -- A call that has failed already is cleaning up and does neither of these.
      obtain ⟨r, s, first, n, j, xs, hr, hs, hslice, hahead⟩ :=
        (inv_of_reachable hinst hsize h).ahead hinst hsize
      cases hahead
      exact absurd hrc (by simp)

theorem exists_reachable_ops (hinst : inst.WellFormed)
    (hsize : memory.size = inst.memoryBlocks.toNat) (before : List Op) {after : List Op}
    (h : Reachable inst memory c) (hops : c.ops = before ++ after) :
    ∃ c', Relation.ReflTransGen (Step inst) c c' ∧ c'.ops = after ∧ c'.rc = c.rc ∧
      c'.joinFailed = c.joinFailed := by
  induction before generalizing c with
  | nil => exact ⟨c, .refl, hops, rfl, rfl⟩
  | cons op before ih =>
    obtain ⟨d, hrun, hops', hrc', hlost'⟩ := exists_advance hinst hsize h hops
    obtain ⟨e, hrun', hafter, hrc, hlost⟩ := ih (h.trans hrun) hops'
    exact ⟨e, hrun.trans hrun', hafter, hrc.trans hrc', hlost.trans hlost'⟩

/-- From wherever it is the call can return, with the code it has come to so far and without
another failure. After a failed creation too the clean-up gets to its end. -/
theorem exists_returned (hinst : inst.WellFormed) (hsize : memory.size = inst.memoryBlocks.toNat)
    (h : Reachable inst memory c) :
    ∃ c', Relation.ReflTransGen (Step inst) c c' ∧ c'.ops = [] ∧ c'.rc = c.rc ∧
      c'.joinFailed = c.joinFailed :=
  exists_reachable_ops hinst hsize c.ops h (List.append_nil _).symm

theorem exists_returned_twoLanes : ∃ c, Reachable twoLanes twoLanesMemory c ∧ c.ops = [] ∧
    c.rc = .error .threadFail ∧ c.joinFailed = false := by
  have h : Reachable twoLanes twoLanesMemory _ :=
    (Relation.ReflTransGen.single .create).tail .createFails
  obtain ⟨c, hrun, hops, hrc, hlost⟩ := exists_returned twoLanes_wellFormed size_twoLanesMemory h
  exact ⟨c, h.trans hrun, hops, hrc, hlost⟩

/-- Every lane has its creation, so a failure can come at any of them. -/
theorem Disciplined.exists_create {r s n j k : ℕ} {ops : List Op}
    (h : Disciplined inst r s n j ops) (hn : n ≤ k) (hk : k < inst.lanes.toNat) :
    ∃ before after, ops = before ++ .create r s k :: after := by
  induction h with
  | done => omega
  | @create n j ops hn' hj hrest ih =>
    by_cases heq : n = k
    · exact ⟨[], ops, by rw [heq, List.nil_append]⟩
    · obtain ⟨before, after, hops⟩ := ih (by omega)
      exact ⟨.create r s n :: before, after, by rw [hops, List.cons_append]⟩
  | @join n j ops hj hrest ih =>
    obtain ⟨before, after, hops⟩ := ih hn
    exact ⟨.join j :: before, after, by rw [hops, List.cons_append]⟩

/-- A second join is a matter of the clean-up, and of fewer threads than lanes. -/
theorem lt_of_joinsTwice (hinst : inst.WellFormed)
    (hsize : memory.size = inst.memoryBlocks.toNat) (h : Reachable inst memory c)
    (htwice : c.JoinsTwice) : inst.threads.toNat < inst.lanes.toNat := by
  obtain ⟨ops, pool, m, rc, joinFailed⟩ := c
  obtain ⟨l, rest, hops, hjoined⟩ := htwice
  simp only at hops hjoined
  obtain ⟨op, rfl⟩ : ∃ op, ops = op :: rest := by
    rcases hops with rfl | rfl
    · exact ⟨_, rfl⟩
    · exact ⟨_, rfl⟩
  obtain ⟨r, s, first, n, j, xs, hr, hs, hslice, hahead⟩ :=
    (inv_of_reachable hinst hsize h).ahead hinst hsize
  cases hahead with
  | filling hslices hdisciplined hwaits =>
    cases hdisciplined with
    | create => simp at hops
    | join hj hrest =>
      obtain rfl : j = l := by simpa using hops
      exact absurd hjoined (hwaits _ (Nat.le_refl _) hj)
  | @cleaning _ _ _ k _ hk hbehind hahead =>
    obtain rfl : k = l := by simpa using hops
    exact hahead k (Nat.le_refl k) hk hjoined

/-- With fewer threads than lanes, the first thread is joined before lane `threads` is
created. When that creation fails, the clean-up starts with the first thread. -/
theorem exists_joinsTwice (hinst : inst.WellFormed)
    (hsize : memory.size = inst.memoryBlocks.toNat)
    (hlt : inst.threads.toNat < inst.lanes.toNat) :
    ∃ c, Reachable inst memory c ∧ c.JoinsTwice := by
  have hpasses := hinst.passes_pos
  have hthreads := hinst.threads_pos
  rcases hslices : slices inst with _ | ⟨⟨r, s⟩, after⟩
  · have hmem : (0, 0) ∈ slices inst := mem_slices.mpr ⟨hpasses, by omega⟩
    rw [hslices] at hmem
    exact absurd hmem List.not_mem_nil
  obtain ⟨before, rest, hsplit⟩ :=
    (sliceOps_disciplined (r := r) (s := s) hinst).exists_create (Nat.zero_le _) hlt
  have hops : (poolStart inst memory).ops = before ++
      .create r s inst.threads.toNat :: (rest ++ after.flatMap fun p => sliceOps inst p.1 p.2) := by
    simp [poolStart, mainOps, hslices, hsplit]
  obtain ⟨⟨ops, pool, m, rc, joinFailed⟩, hreach, hops', -⟩ :=
    exists_reachable_ops hinst hsize before .refl hops
  simp only at hops'
  subst hops'
  generalize (rest ++ after.flatMap fun p => sliceOps inst p.1 p.2) = tail at hreach
  refine ⟨_, hreach.tail .createFails, 0,
    (List.range' 1 (inst.threads.toNat - 1)).map .cleanUp, .inr ?_, ?_⟩
  · rw [List.range_eq_range', show inst.threads.toNat = inst.threads.toNat - 1 + 1 by omega,
      List.range'_succ]
    rfl
  · obtain ⟨r', s', first, n, j, xs, hr, hs, hslice, hahead⟩ :=
      (inv_of_reachable hinst hsize hreach).ahead hinst hsize
    cases hahead with
    | filling hslices' hdisciplined =>
      cases hdisciplined with
      | create hn hj hrest => exact hslice.joined 0 (by omega)

/-- A call with one thread has returned when it starts, as far as the pool is concerned. -/
theorem eq_fillStart_of_one (hone : inst.threads = 1)
    (h : Relation.ReflTransGen (Step inst) (fillStart inst memory) c) :
    c = fillStart inst memory := by
  induction h with
  | refl => rfl
  | tail _ hstep ih =>
    rw [ih, fillStart, if_pos hone] at hstep
    cases hstep with
    | run hpool => exact absurd hpool (by simp)

/-- A call can join a thread twice exactly when it has a pool that is smaller than the number
of lanes. The clean-up after a failed creation is where that happens. -/
theorem exists_joinsTwice_iff (hinst : inst.WellFormed)
    (hsize : memory.size = inst.memoryBlocks.toNat) :
    (∃ c, Relation.ReflTransGen (Step inst) (fillStart inst memory) c ∧ c.JoinsTwice) ↔
      2 ≤ inst.threads.toNat ∧ inst.threads.toNat < inst.lanes.toNat := by
  by_cases hone : inst.threads = 1
  · have htwo : ¬ 2 ≤ inst.threads.toNat := by
      rw [hone]
      decide
    refine iff_of_false ?_ fun h => htwo h.1
    rintro ⟨c, hreach, l, ops, hops, -⟩
    rw [eq_fillStart_of_one hone hreach, fillStart, if_pos hone] at hops
    simp at hops
  · have hpos := hinst.threads_pos
    have htwo : 2 ≤ inst.threads.toNat := by
      have hne : inst.threads.toNat ≠ 1 := fun h => hone (UInt32.toNat_inj.mp h)
      omega
    rw [fillStart, if_neg hone]
    constructor
    · rintro ⟨c, hreach, htwice⟩
      exact ⟨htwo, lt_of_joinsTwice hinst hsize hreach htwice⟩
    · rintro ⟨-, hlt⟩
      exact exists_joinsTwice hinst hsize hlt

theorem exists_joinsTwice_iff_threeLanes :
    (∃ c, Relation.ReflTransGen (Step threeLanes) (fillStart threeLanes threeLanesMemory) c ∧
      c.JoinsTwice) ∧
    ¬ ∃ c, Relation.ReflTransGen (Step twoLanes) (fillStart twoLanes twoLanesMemory) c ∧
      c.JoinsTwice := by
  constructor
  · rw [exists_joinsTwice_iff threeLanes_wellFormed size_threeLanesMemory]
    decide
  · rw [exists_joinsTwice_iff twoLanes_wellFormed size_twoLanesMemory]
    decide

end Termination

section Returned
variable {inst : Instance} {memory : Memory} {c : Config}

/-- Every slice gives the main thread something to do, so a call with nothing left has been
through all of them. -/
theorem sliceOps_ne_nil (hinst : inst.WellFormed) (r s : ℕ) : sliceOps inst r s ≠ [] := by
  intro hnil
  have hops := sliceOps_disciplined (r := r) (s := s) hinst
  have hpos := hinst.lanes_pos
  rw [hnil] at hops
  generalize hzero : 0 = k at hops
  cases hops
  omega

/-- When the call returns without a failed join, no thread runs any more: not after success,
and not after a failed creation, however many threads and lanes there are. -/
theorem noneRunning_of_returned (hinst : inst.WellFormed)
    (hsize : memory.size = inst.memoryBlocks.toNat) (h : Reachable inst memory c)
    (hops : c.ops = []) (hjoins : c.joinFailed = false) : c.NoneRunning := by
  obtain ⟨r, s, first, n, j, xs, hr, hs, hslice, hplan⟩ := inv_of_reachable hinst hsize h
  intro l t hpool
  obtain ⟨hl, hjl, hln, -⟩ := hslice.of_running hpool
  obtain ⟨ops, pool, m, rc, joinFailed⟩ := c
  subst hops hjoins
  dsimp only at hpool hplan
  generalize hall : [] = all at hplan
  generalize hlost : false = lost at hplan
  cases hplan with
  | filling hslices hdisciplined =>
    obtain ⟨hleft, -⟩ := List.append_eq_nil_iff.mp hall.symm
    rw [hleft] at hdisciplined
    cases hdisciplined
    omega
  | cleaning hbehind =>
    have hlength := congrArg List.length hall
    simp only [List.length_nil, List.length_map, List.length_range'] at hlength
    have hjoined := hbehind hlost.symm l (by omega)
    rw [hpool] at hjoined
    exact absurd hjoined (by simp)
  | abandoned => exact absurd hlost (by simp)

/-- After a success and after a failed creation, the latter with two threads for three lanes
and the first of them joined by the time the creation fails. -/
theorem noneRunning_of_returned_threeLanes :
    (∃ c, Reachable twoLanes twoLanesMemory c ∧ c.rc = .ok () ∧ c.NoneRunning) ∧
    ∃ c, Reachable threeLanes threeLanesMemory c ∧ c.rc = .error .threadFail ∧
      c.NoneRunning := by
  constructor
  · obtain ⟨c, h, hops, hrc, hlost⟩ :=
      exists_reachable_ops twoLanes_wellFormed size_twoLanesMemory _ .refl (List.append_nil _).symm
    exact ⟨c, h, hrc, noneRunning_of_returned twoLanes_wellFormed size_twoLanesMemory h hops hlost⟩
  · have hops : (poolStart threeLanes threeLanesMemory).ops =
        [.create 0 0 0, .create 0 0 1, .join 0] ++
          (mainOps threeLanes).drop 3 := rfl
    obtain ⟨⟨ops, pool, m, rc, joinFailed⟩, h, hleft, -, hlost⟩ :=
      exists_reachable_ops threeLanes_wellFormed size_threeLanesMemory _ .refl hops
    simp only at hleft hlost
    subst hleft hlost
    have hfails := h.tail (.createFails (r := 0) (s := 0) (l := 2))
    obtain ⟨c, hrun, hops', hrc, hlost'⟩ :=
      exists_reachable_ops threeLanes_wellFormed size_threeLanesMemory _ hfails
        (List.append_nil _).symm
    exact ⟨c, hfails.trans hrun, hrc, noneRunning_of_returned threeLanes_wellFormed
      size_threeLanesMemory (hfails.trans hrun) hops' hlost'⟩

/-- In whatever order the threads run, a call that succeeds leaves the memory that the
version without threads leaves. -/
theorem memory_of_returned (hinst : inst.WellFormed)
    (hsize : memory.size = inst.memoryBlocks.toNat) (h : Reachable inst memory c)
    (hops : c.ops = []) (hrc : c.rc = .ok ()) : c.memory = fillMemoryBlocksSt inst memory := by
  obtain ⟨r, s, first, n, j, xs, hr, hs, hslice, hplan⟩ := inv_of_reachable hinst hsize h
  rw [hops, hrc] at hplan
  generalize hall : [] = all at hplan
  generalize hok : Except.ok () = rc at hplan
  generalize c.joinFailed = lost at hplan
  cases hplan with
  | @filling before after _ _ left hslices hdisciplined =>
    obtain ⟨hleft, hafter⟩ := List.append_eq_nil_iff.mp hall.symm
    rw [hleft] at hdisciplined
    cases hdisciplined
    have hlast : after = [] := by
      refine List.eq_nil_iff_forall_not_mem.mpr fun p hp => ?_
      exact sliceOps_ne_nil hinst p.1 p.2 (List.flatMap_eq_nil_iff.mp hafter p hp)
    have hfilled := (hslice.finished hinst hr hs ((size_filled _ _).trans hsize)).1
    rw [fillMemoryBlocksSt_eq, hslices, hlast, hfilled, filled, filled, List.foldl_append]
    rfl
  | cleaning | abandoned => exact absurd hok (by simp)

end Returned

end Passe.Argon2
