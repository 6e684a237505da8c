import Mathlib.Data.List.Basic

/-!
# Input that comes in pieces

A function that takes blocks of a fixed width is fed from a buffer. A block goes in
only when something is left behind it, so the last block, full or not, stays in the
buffer. What is in the state and in the buffer depends on the input so far and not
on the pieces it came in.
-/
namespace Passe.Chunks
variable {α σ τ : Type*} {f : σ → List α → σ} {n : ℕ} {s : σ} {xs ys : List α}

/-- Take in blocks of `n + 1` elements as long as something is left behind them. -/
def absorb (f : σ → List α → σ) (n : ℕ) (s : σ) (xs : List α) : σ × List α :=
  if n + 1 < xs.length then absorb f n (f s (xs.take (n + 1))) (xs.drop (n + 1)) else (s, xs)
  termination_by xs.length
  decreasing_by
    rw [List.length_drop]
    omega

theorem absorb_of_le (h : xs.length ≤ n + 1) : absorb f n s xs = (s, xs) := by
  rw [absorb, if_neg (by omega)]

theorem absorb_of_lt (h : n + 1 < xs.length) :
    absorb f n s xs = absorb f n (f s (xs.take (n + 1))) (xs.drop (n + 1)) := by
  rw [absorb, if_pos h]

/-- The buffer never overflows: a step leaves at most `n` items waiting, whatever it was given.
-/
theorem length_absorb_le (f : σ → List α → σ) (n : ℕ) (s : σ) (xs : List α) :
    (absorb f n s xs).2.length ≤ n + 1 := by
  fun_induction absorb f n s xs with
  | case1 s xs hlong ih => exact ih
  | case2 s xs hshort => exact Nat.le_of_not_lt hshort

/-- More input goes on where the input so far has ended, so two calls are one call on the joined
input. -/
theorem absorb_append (f : σ → List α → σ) (n : ℕ) (s : σ) (xs ys : List α) :
    absorb f n s (xs ++ ys) =
      absorb f n (absorb f n s xs).1 ((absorb f n s xs).2 ++ ys) := by
  fun_induction absorb f n s xs with
  | case1 s xs hlong ih =>
    have hmore : n + 1 < (xs ++ ys).length := by
      rw [List.length_append]
      omega
    rw [absorb_of_lt hmore, List.take_append_of_le_length (Nat.le_of_lt hlong),
      List.drop_append_of_le_length (Nat.le_of_lt hlong), ih]
  | case2 s xs hshort => rfl

/-- Two functions that keep a relation between their states take in the same blocks. -/
theorem absorb_rel {g : τ → List α → τ} {R : σ → τ → Prop}
    (hstep : ∀ {s t block}, R s t → R (f s block) (g t block)) {t : τ} (h : R s t) :
    R (absorb f n s xs).1 (absorb g n t xs).1 ∧ (absorb f n s xs).2 = (absorb g n t xs).2 := by
  fun_induction absorb f n s xs generalizing t with
  | case1 s xs hlong ih =>
    rw [absorb_of_lt hlong]
    exact ih (hstep h)
  | case2 s xs hshort =>
    rw [absorb_of_le (Nat.le_of_not_lt hshort)]
    exact ⟨h, rfl⟩

/-- The blocks one by one, and the last one. -/
theorem absorb_eq (f : σ → List α → σ) (n : ℕ) (s : σ) (xs : List α) :
    absorb f n s xs =
      ((List.range ((xs.length - 1) / (n + 1))).foldl
          (fun s i => f s ((xs.drop ((n + 1) * i)).take (n + 1))) s,
        xs.drop ((n + 1) * ((xs.length - 1) / (n + 1)))) := by
  fun_induction absorb f n s xs with
  | case1 s xs hlong ih =>
    have hcount : (xs.length - 1) / (n + 1) = ((xs.drop (n + 1)).length - 1) / (n + 1) + 1 := by
      rw [List.length_drop, ← Nat.add_div_right _ (Nat.succ_pos n)]
      congr 1
      omega
    have hnext : ∀ i, (n + 1) * (i + 1) = n + 1 + (n + 1) * i := fun i => by
      rw [Nat.mul_succ, Nat.add_comm]
    rw [ih, hcount, List.range_succ_eq_map, List.foldl_cons, List.foldl_map, hnext]
    simp [hnext]
  | case2 s xs hshort =>
    have hcount : (xs.length - 1) / (n + 1) = 0 := Nat.div_eq_of_lt (by omega)
    rw [hcount, List.range_zero, List.foldl_nil, Nat.mul_zero, List.drop_zero]

end Passe.Chunks
