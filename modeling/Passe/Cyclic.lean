import Mathlib.Data.List.GetD
import Mathlib.Tactic.Common

/-!
# Endless repetition of a terminated word

A key schedule that wants more symbols than its key has repeats the key. When
the key is repeated together with a terminator that does not occur in it, a
window at least as long as the key pins the key down: either the window shows
the first terminator, which ends the key, or the window is the key.
-/
namespace Passe.Cyclic

/-- Item `i` of the word `p`, `z`, `p`, `z`, and so on for ever: what a reader that wraps around
sees. -/
def item {α : Type*} (z : α) (p : List α) (i : ℕ) : α := p.getD (i % (p.length + 1)) z

section
variable {α : Type*} {z : α} {p q : List α}

theorem item_of_lt {i : ℕ} (h : i < p.length) : item z p i = p[i] := by
  rw [item, Nat.mod_eq_of_lt (by omega), List.getD_eq_getElem p z h]

@[simp] theorem item_length : item z p p.length = z := by
  rw [item, Nat.mod_eq_of_lt (by omega), List.getD_eq_default _ _ (Nat.le_refl _)]

private theorem length_eq_of_le {n : ℕ} (hq : z ∉ q) (hqn : q.length ≤ n)
    (h : ∀ i < n, item z p i = item z q i) (hle : p.length ≤ q.length) :
    p.length = q.length := by
  by_contra hne
  have hlt : p.length < q.length := by omega
  have hz := h p.length (by omega)
  rw [item_length, item_of_lt hlt] at hz
  exact hq (hz ▸ List.getElem_mem hlt)

/-- Words without the terminator are equal when their repetitions agree on a
window that no word exceeds. -/
theorem eq_of_item_eq {n : ℕ} (hp : z ∉ p) (hq : z ∉ q) (hpn : p.length ≤ n)
    (hqn : q.length ≤ n) (h : ∀ i < n, item z p i = item z q i) : p = q := by
  have hlen : p.length = q.length := by
    rcases Nat.le_total p.length q.length with hle | hle
    · exact length_eq_of_le hq hqn h hle
    · exact (length_eq_of_le hp hpn (fun i hi => (h i hi).symm) hle).symm
  apply List.ext_getElem hlen
  intro i hip hiq
  have hi := h i (by omega)
  rwa [item_of_lt hip, item_of_lt hiq] at hi

end

end Passe.Cyclic
