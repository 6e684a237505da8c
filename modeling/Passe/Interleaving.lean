import Mathlib.Data.Set.Basic
import Mathlib.Logic.Function.Basic
import Mathlib.Logic.Relation

/-!
# Threads that own what they write

Threads take single steps on one shared memory, in any order. When every cell has
at most one thread that writes it, and no other thread looks at it, no two threads
ever race, and each thread sees what it would see alone. So all orders in which
the threads can run to their ends leave the same memory.
-/
namespace Passe.Interleaving
variable {ι σ μ α β : Type*}

/-- Threads with private states in `σ` on a memory in `μ`. `step l x m` is the next
access of thread `l`, and `none` when it has ended; the two sets bound what that
access reads and writes. -/
structure Threads (ι σ μ α β : Type*) where
  step : ι → σ → μ → Option (σ × μ)
  get : μ → α → β
  reads : ι → σ → Set α
  writes : ι → σ → Set α

variable {T : Threads ι σ μ α β}

/-- The two sets are right: nothing else is changed, and nothing else matters. -/
structure Threads.Footprint (T : Threads ι σ μ α β) : Prop where
  frame : ∀ {l x m x' m' a}, T.step l x m = some (x', m') → a ∉ T.writes l x →
    T.get m' a = T.get m a
  reads_only : ∀ {l x m n x' m'}, (∀ a ∈ T.reads l x, T.get m a = T.get n a) →
    T.step l x m = some (x', m') →
    ∃ n', T.step l x n = some (x', n') ∧ ∀ a ∈ T.writes l x, T.get m' a = T.get n' a

/-- A cell has at most one owner. A thread that keeps to `inv` writes its own cells
only, and reads no cell of another thread. -/
structure Threads.Owned (T : Threads ι σ μ α β) (owner : α → Option ι) (inv : ι → σ → Prop) :
    Prop where
  inv_step : ∀ {l x m x' m'}, inv l x → T.step l x m = some (x', m') → inv l x'
  owner_of_writes : ∀ {l x a}, inv l x → a ∈ T.writes l x → owner a = some l
  eq_of_reads : ∀ {l x a k}, inv l x → a ∈ T.reads l x → owner a = some k → k = l

/-- The cells thread `l` may look at: its own and those that nobody writes to. -/
def Visible (owner : α → Option ι) (l : ι) (a : α) : Prop := ∀ k, owner a = some k → k = l

/-- One step of some thread, the others standing still. Which one it is nobody decides. -/
inductive Threads.Step [DecidableEq ι] (T : Threads ι σ μ α β) :
    (ι → σ) × μ → (ι → σ) × μ → Prop
  | step {xs : ι → σ} {m m' : μ} {x' : σ} (l : ι) (h : T.step l (xs l) m = some (x', m')) :
    T.Step (xs, m) (Function.update xs l x', m')

abbrev Threads.Run [DecidableEq ι] (T : Threads ι σ μ α β) :
    (ι → σ) × μ → (ι → σ) × μ → Prop := Relation.ReflTransGen T.Step

/-- Thread `l` alone: its steps with the state of every other thread left out. -/
def Threads.Solo (T : Threads ι σ μ α β) (l : ι) (p q : σ × μ) : Prop :=
  T.step l p.1 p.2 = some q

theorem Threads.solo_rightUnique (l : ι) : Relator.RightUnique (T.Solo l) := fun _ _ _ h h' =>
  Option.some.inj (h.symm.trans h')

/-- Two runs of a thread alone that have both ended are one run. -/
theorem Threads.solo_unique {l : ι} {p q q' : σ × μ} (hq : Relation.ReflTransGen (T.Solo l) p q)
    (hq' : Relation.ReflTransGen (T.Solo l) p q') (hend : T.step l q.1 q.2 = none)
    (hend' : T.step l q'.1 q'.2 = none) : q = q' := by
  have hstuck : ∀ {r r' : σ × μ}, T.step l r.1 r.2 = none →
      Relation.ReflTransGen (T.Solo l) r r' → r = r' := by
    intro r r' hr hrun
    rcases Relation.ReflTransGen.cases_head hrun with heq | ⟨s, hs, -⟩
    · exact heq
    · exact absurd (hr.symm.trans hs) (by simp)
  rcases Relation.ReflTransGen.total_of_right_unique (Threads.solo_rightUnique l) hq hq' with
    hrun | hrun
  · exact hstuck hend hrun
  · exact (hstuck hend' hrun).symm

/-- Every thread has ended, so that the configuration has no step left. -/
def Threads.Done (T : Threads ι σ μ α β) (c : (ι → σ) × μ) : Prop :=
  ∀ l, T.step l (c.1 l) c.2 = none

section Owned
variable {owner : α → Option ι} {inv : ι → σ → Prop}

/-- A step does to the visible cells what it would do on any memory that agrees there. -/
theorem Threads.Owned.step_of_agree (hfoot : T.Footprint) (h : T.Owned owner inv) {l : ι} {x x' : σ}
    {m m' n : μ} (hx : inv l x) (hagree : ∀ a, Visible owner l a → T.get m a = T.get n a)
    (hstep : T.step l x m = some (x', m')) :
    ∃ n', T.step l x n = some (x', n') ∧
      ∀ a, Visible owner l a → T.get m' a = T.get n' a := by
  obtain ⟨n', hstep', hwrites⟩ := hfoot.reads_only
    (fun a ha => hagree a fun k hk => h.eq_of_reads hx ha hk) hstep
  refine ⟨n', hstep', fun a ha => ?_⟩
  by_cases hw : a ∈ T.writes l x
  · exact hwrites a hw
  · rw [hfoot.frame hstep hw, hfoot.frame hstep' hw]
    exact hagree a ha

variable [DecidableEq ι] {c d d' : (ι → σ) × μ}

theorem Threads.Owned.inv_of_run (h : T.Owned owner inv) (hinv : ∀ l, inv l (c.1 l))
    (hrun : T.Run c d) : ∀ l, inv l (d.1 l) := by
  induction hrun with
  | refl => exact hinv
  | tail _ hstep ih =>
    cases hstep with
    | step k hk =>
      intro l
      by_cases hl : l = k
      · subst hl
        simp only [Function.update_self]
        exact h.inv_step (ih l) hk
      · simp only [Function.update_of_ne hl]
        exact ih l

theorem Threads.Owned.get_of_unowned (hfoot : T.Footprint) (h : T.Owned owner inv)
    (hinv : ∀ l, inv l (c.1 l)) (hrun : T.Run c d) {a : α} (ha : owner a = none) :
    T.get d.2 a = T.get c.2 a := by
  induction hrun with
  | refl => rfl
  | tail hrun hstep ih =>
    cases hstep with
    | step k hk =>
      rw [← ih]
      refine hfoot.frame hk fun hw => ?_
      have hk' := h.owner_of_writes (h.inv_of_run hinv hrun k) hw
      rw [ha] at hk'
      exact absurd hk' (by simp)

/-- What a thread has done so far it would have done alone. The invariant of a run is this
statement for every thread. -/
theorem Threads.Owned.solo_of_run (hfoot : T.Footprint) (h : T.Owned owner inv)
    (hinv : ∀ l, inv l (c.1 l)) (hrun : T.Run c d) (l : ι) :
    ∃ n, Relation.ReflTransGen (T.Solo l) (c.1 l, c.2) (d.1 l, n) ∧
      ∀ a, Visible owner l a → T.get d.2 a = T.get n a := by
  induction hrun with
  | refl => exact ⟨c.2, .refl, fun _ _ => rfl⟩
  | tail hrun hstep ih =>
    obtain ⟨n, hsolo, hagree⟩ := ih
    cases hstep with
    | step k hk =>
      have hk' := h.inv_of_run hinv hrun k
      by_cases hl : l = k
      · subst hl
        obtain ⟨n', hn', hagree'⟩ := h.step_of_agree hfoot hk' hagree hk
        refine ⟨n', hsolo.tail ?_, hagree'⟩
        simp only [Function.update_self]
        exact hn'
      · refine ⟨n, ?_, fun a ha => ?_⟩
        · simp only [Function.update_of_ne hl]
          exact hsolo
        · rw [← hagree a ha]
          refine hfoot.frame hk fun hw => ?_
          exact hl (ha k (h.owner_of_writes hk' hw)).symm

/-- All runs to the end leave the threads and the memory in the same state. -/
theorem Threads.Owned.eq_of_done (hfoot : T.Footprint) (h : T.Owned owner inv)
    (hinv : ∀ l, inv l (c.1 l)) (hrun : T.Run c d) (hrun' : T.Run c d') (hdone : T.Done d)
    (hdone' : T.Done d') : d.1 = d'.1 ∧ ∀ a, T.get d.2 a = T.get d'.2 a := by
  have hend : ∀ {e : (ι → σ) × μ} {l : ι} {n : μ}, T.Run c e → T.Done e →
      (∀ a, Visible owner l a → T.get e.2 a = T.get n a) → T.step l (e.1 l) n = none := by
    intro e l n hrun hdone hagree
    rw [Option.eq_none_iff_forall_ne_some]
    rintro ⟨x', n'⟩ hstep
    obtain ⟨m', hstep', -⟩ := h.step_of_agree hfoot (h.inv_of_run hinv hrun l)
      (fun a ha => (hagree a ha).symm) hstep
    exact absurd ((hdone l).symm.trans hstep') (by simp)
  have heq : ∀ l, d.1 l = d'.1 l ∧ ∀ a, Visible owner l a → T.get d.2 a = T.get d'.2 a := by
    intro l
    obtain ⟨n, hsolo, hagree⟩ := h.solo_of_run hfoot hinv hrun l
    obtain ⟨n', hsolo', hagree'⟩ := h.solo_of_run hfoot hinv hrun' l
    have hpair := Threads.solo_unique hsolo hsolo' (hend hrun hdone hagree)
      (hend hrun' hdone' hagree')
    obtain ⟨hstate, hmem⟩ := Prod.mk.inj hpair
    refine ⟨hstate, fun a ha => ?_⟩
    rw [hagree a ha, hagree' a ha, hmem]
  refine ⟨funext fun l => (heq l).1, fun a => ?_⟩
  cases howner : owner a with
  | none =>
    rw [h.get_of_unowned hfoot hinv hrun howner, h.get_of_unowned hfoot hinv hrun' howner]
  | some l => exact (heq l).2 a fun k hk => Option.some.inj (hk.symm.trans howner)

end Owned

/-- A thread may run on its own while the others wait. -/
theorem Threads.run_of_solo [DecidableEq ι] {xs : ι → σ} {m m' : μ} {x' : σ} (l : ι)
    (h : Relation.ReflTransGen (T.Solo l) (xs l, m) (x', m')) :
    T.Run (xs, m) (Function.update xs l x', m') := by
  generalize hq : (x', m') = q at h
  induction h generalizing x' m' with
  | refl =>
    obtain ⟨rfl, rfl⟩ := Prod.mk.inj hq
    rw [Function.update_eq_self]
  | tail hrun hstep ih =>
    subst hq
    rename_i p
    have hlast : T.Step (Function.update xs l p.1, p.2)
        (Function.update (Function.update xs l p.1) l x', m') :=
      .step l (by rw [Function.update_self]; exact hstep)
    rw [Function.update_idem] at hlast
    exact (ih rfl).tail hlast

end Passe.Interleaving
