import Mathlib.Data.Fintype.EquivFin
import Mathlib.Data.Fintype.Pi
import Mathlib.Data.Finite.Prod
import Mathlib.Logic.Function.Basic
import Mathlib.Data.Nat.ModEq
import Mathlib.Data.Nat.Prime.Basic
import Mathlib.Tactic.Ring

/-!
# Mixing words in place

A mixing function overwrites the words of a vector one by one, each by a value
computed from itself and one other word. It loses nothing when every single step
can be undone: a step keeps the other word, so the old value can be told from the
new one. Rounds and runs of rounds inherit this.
-/
namespace Passe.Mixing

section Words
variable {α : Type*} {n : ℕ}

/-- Overwrite word `i` by a value computed from word `j` and itself: the only kind of assignment
such a compression is made of. -/
def mix (i j : Fin n) (g : α → α → α) (v : Vector α n) : Vector α n :=
  v.set i (g (v.get j) (v.get i))

theorem get_mix_of_ne {i j k : Fin n} (hk : k ≠ i) (g : α → α → α) (v : Vector α n) :
    (mix i j g v).get k = v.get k := by
  have hval : i.val ≠ k.val := fun h => hk (Fin.ext h.symm)
  exact Vector.getElem_set_ne i.isLt k.isLt hval

@[simp] theorem get_mix_self (i j : Fin n) (g : α → α → α) (v : Vector α n) :
    (mix i j g v).get i = g (v.get j) (v.get i) :=
  Vector.getElem_set_self i.isLt

/-- The other word is still there, so the step can be undone. -/
theorem mix_injective {i j : Fin n} (hij : j ≠ i) {g : α → α → α}
    (hg : ∀ y, Function.Injective (g y)) : Function.Injective (mix i j g) := by
  intro v w h
  have hother : ∀ k, k ≠ i → v.get k = w.get k := by
    intro k hk
    rw [← get_mix_of_ne hk g v, ← get_mix_of_ne hk g w, h]
  have hself : g (v.get j) (v.get i) = g (w.get j) (w.get i) := by
    rw [← get_mix_self i j g v, ← get_mix_self i j g w, h]
  rw [hother j hij] at hself
  apply Vector.ext
  intro k hk
  by_cases hki : (⟨k, hk⟩ : Fin n) = i
  · have hword := hg _ hself
    rw [← hki] at hword
    exact hword
  · exact hother ⟨k, hk⟩ hki

/-- A quarter round: the words `a`, `d`, `c`, `b` in turn, and once again. -/
def quarterRound (first second add : α → α → α) (turn : Fin 4 → α → α → α) (a b c d : Fin n)
    (v : Vector α n) : Vector α n :=
  let v := mix d a (turn 0) (mix a b first v)
  let v := mix b c (turn 1) (mix c d add v)
  let v := mix d a (turn 2) (mix a b second v)
  mix b c (turn 3) (mix c d add v)

theorem quarterRound_injective {first second add : α → α → α} {turn : Fin 4 → α → α → α}
    {a b c d : Fin n} (hba : b ≠ a) (had : a ≠ d) (hdc : d ≠ c) (hcb : c ≠ b)
    (hfirst : ∀ y, Function.Injective (first y)) (hsecond : ∀ y, Function.Injective (second y))
    (hadd : ∀ y, Function.Injective (add y)) (hturn : ∀ k y, Function.Injective (turn k y)) :
    Function.Injective (quarterRound first second add turn a b c d) := by
  intro v w h
  apply mix_injective hba hfirst
  apply mix_injective had (hturn 0)
  apply mix_injective hdc hadd
  apply mix_injective hcb (hturn 1)
  apply mix_injective hba hsecond
  apply mix_injective had (hturn 2)
  apply mix_injective hdc hadd
  exact mix_injective hcb (hturn 3) h

/-- A round on the sixteen words that `w` selects, as rows of four: quarter rounds on
the columns, then on the diagonals. -/
def round (q : ℕ → Fin n → Fin n → Fin n → Fin n → Vector α n → Vector α n) (w : ℕ → Fin n)
    (v : Vector α n) : Vector α n :=
  let v := q 0 (w 0) (w 4) (w 8) (w 12) v
  let v := q 1 (w 1) (w 5) (w 9) (w 13) v
  let v := q 2 (w 2) (w 6) (w 10) (w 14) v
  let v := q 3 (w 3) (w 7) (w 11) (w 15) v
  let v := q 4 (w 0) (w 5) (w 10) (w 15) v
  let v := q 5 (w 1) (w 6) (w 11) (w 12) v
  let v := q 6 (w 2) (w 7) (w 8) (w 13) v
  q 7 (w 3) (w 4) (w 9) (w 14) v

theorem round_injective {q : ℕ → Fin n → Fin n → Fin n → Fin n → Vector α n → Vector α n}
    (hq : ∀ i a b c d, b ≠ a → a ≠ d → d ≠ c → c ≠ b → Function.Injective (q i a b c d))
    {w : ℕ → Fin n} (hw : ∀ j < 16, ∀ k < 16, w j = w k → j = k) :
    Function.Injective (round q w) := by
  -- The words that a quarter round takes have four different numbers below sixteen.
  have hstep : ∀ i a b c d, (b ≠ a ∧ a ≠ d ∧ d ≠ c ∧ c ≠ b) ∧ a < 16 ∧ b < 16 ∧ c < 16 ∧ d < 16 →
      Function.Injective (q i (w a) (w b) (w c) (w d)) := by
    rintro i a b c d ⟨⟨hba, had, hdc, hcb⟩, ha, hb, hc, hd⟩
    exact hq i _ _ _ _ (mt (hw b hb a ha) hba) (mt (hw a ha d hd) had) (mt (hw d hd c hc) hdc)
      (mt (hw c hc b hb) hcb)
  intro v v' h
  apply hstep 0 0 4 8 12 (by decide)
  apply hstep 1 1 5 9 13 (by decide)
  apply hstep 2 2 6 10 14 (by decide)
  apply hstep 3 3 7 11 15 (by decide)
  apply hstep 4 0 5 10 15 (by decide)
  apply hstep 5 1 6 11 12 (by decide)
  apply hstep 6 2 7 8 13 (by decide)
  exact hstep 7 3 4 9 14 (by decide) h

/-- There are finitely many vectors, so what loses nothing also reaches everything. -/
theorem bijective_of_injective [Finite α] {f : Vector α n → Vector α n}
    (hf : Function.Injective f) : Function.Bijective f := by
  have hget : Function.Injective fun (v : Vector α n) (i : Fin n) => v.get i := fun v w h =>
    Vector.ext fun k hk => congrFun h ⟨k, hk⟩
  have hfinite : Finite (Vector α n) := Finite.of_injective _ hget
  exact Finite.injective_iff_bijective.mp hf

end Words

/-- A run of injective steps is injective, however long it is and whatever it is driven by. -/
theorem foldl_injective {α β : Type*} {f : β → α → β} (xs : List α)
    (hf : ∀ a ∈ xs, Function.Injective fun b => f b a) :
    Function.Injective fun b => xs.foldl f b := by
  induction xs with
  | nil => exact Function.injective_id
  | cons a xs ih =>
    have hrest := ih fun a' ha' => hf a' (List.mem_cons_of_mem a ha')
    exact fun b b' h => hf a List.mem_cons_self (hrest h)

section Arithmetic

/-- The parts of a sum with a multiple are its quotient and its remainder. -/
theorem eq_of_add_mul_eq {m a a' b b' : ℕ} (ha : a < m) (ha' : a' < m)
    (h : a + b * m = a' + b' * m) : a = a' ∧ b = b' := by
  have hmod := congrArg (· % m) h
  have hdiv := congrArg (· / m) h
  simp only [Nat.add_mul_mod_self_right, Nat.mod_eq_of_lt ha, Nat.mod_eq_of_lt ha'] at hmod
  simp only [Nat.add_mul_div_right _ _ (Nat.pos_of_ne_zero fun h0 => by omega : 0 < m),
    Nat.div_eq_of_lt ha, Nat.div_eq_of_lt ha', Nat.zero_add] at hdiv
  exact ⟨hmod, hdiv⟩

/-- Adding twice a multiple of a number to it can be undone modulo a power of two. -/
theorem modEq_of_odd_mul {k x x' y : ℕ} (h : x + 2 * (x * y) ≡ x' + 2 * (x' * y) [MOD 2 ^ k]) :
    x ≡ x' [MOD 2 ^ k] := by
  have hcoprime : (2 ^ k).Coprime (1 + 2 * y) := by
    apply Nat.Coprime.pow_left
    rw [Nat.coprime_two_left]
    exact ⟨y, by ring⟩
  have hx : x + 2 * (x * y) = x * (1 + 2 * y) := by ring
  have hx' : x' + 2 * (x' * y) = x' * (1 + 2 * y) := by ring
  rw [hx, hx'] at h
  exact Nat.ModEq.cancel_right_of_coprime hcoprime h

end Arithmetic

end Passe.Mixing
