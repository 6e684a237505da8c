import Mathlib.Data.List.Basic
import Mathlib.Tactic.Common

/-!
# Bounded output buffers and accumulated comparison

A `Buffer` is the text written so far and the room left for it and for its
terminator. An append that would leave no room for the terminator fails, so a
whole sequence of appends succeeds exactly when the concatenation fits: the
first failure is never premature. The second part is the loop that compares two
buffers by collecting the differences of all positions in one accumulator.
-/
namespace Passe

/-- Text written so far, and the room left counted with the terminator. A full buffer still has
room for the zero byte. -/
structure Buffer (α : Type*) where
  text : List α
  room : ℕ

namespace Buffer
variable {α ε : Type*}

def empty (room : ℕ) : Buffer α := ⟨[], room⟩

/-- Append `s`, or fail with `e` when the terminator would no longer fit. -/
def append (e : ε) (b : Buffer α) (s : List α) : Except ε (Buffer α) :=
  if s.length < b.room then .ok ⟨b.text ++ s, b.room - s.length⟩ else .error e

/-- All pieces in order, stopping at the first that does not fit. What was written before the
failure is lost with it. -/
def appendAll (e : ε) (b : Buffer α) (pieces : List (List α)) : Except ε (Buffer α) :=
  pieces.foldlM (append e) b

/-- Only the total length decides whether a sequence of appends succeeds. -/
theorem appendAll_eq (e : ε) (b : Buffer α) (pieces : List (List α)) (hroom : 0 < b.room) :
    appendAll e b pieces =
      if pieces.flatten.length < b.room then
        .ok ⟨b.text ++ pieces.flatten, b.room - pieces.flatten.length⟩
      else .error e := by
  induction pieces generalizing b with
  | nil => simp [appendAll, hroom, pure, Except.pure]
  | cons s pieces ih =>
    simp only [appendAll, List.foldlM_cons, append, List.flatten_cons, List.length_append]
    by_cases hs : s.length < b.room
    · rw [if_pos hs]
      change appendAll e ⟨b.text ++ s, b.room - s.length⟩ pieces = _
      rw [ih _ (by simp only; omega)]
      simp only [List.append_assoc, Nat.sub_sub]
      by_cases ht : s.length + pieces.flatten.length < b.room
      · rw [if_pos ht, if_pos (by omega)]
      · rw [if_neg ht, if_neg (by omega)]
    · rw [if_neg hs, if_neg (by omega)]
      rfl

end Buffer

/-- An accumulator that only collects set bits ends at zero exactly when it
started there and nothing was ever collected. -/
theorem foldl_or_eq_zero_iff {α ι : Type*} [OrOp α] [OfNat α 0]
    (hor : ∀ a b : α, a ||| b = 0 ↔ a = 0 ∧ b = 0) (f : ι → α) (l : List ι) (r : α) :
    l.foldl (fun acc i => acc ||| f i) r = 0 ↔ r = 0 ∧ ∀ i ∈ l, f i = 0 := by
  induction l generalizing r with
  | nil => simp
  | cons i l ih =>
    rw [List.foldl_cons, ih, hor, List.forall_mem_cons, and_assoc]

end Passe
