import Mathlib.Data.List.Basic
import Mathlib.Data.Set.Function
import Mathlib.Tactic.Common

/-!
# Fields at the front of a stream

A rendering is prefix free when the stream tells where it ends: two streams that
start with renderings are equal only if the values and the rests are. Renderings
of one width have this property, and a text gets it from its length in front.
-/
namespace Passe.Framing
variable {α β : Type*}

/-- Values in `s` can be split off the front of any stream: what follows a value is never
mistaken for a part of it. -/
def PrefixFreeOn (s : Set α) (f : α → List β) : Prop :=
  ∀ ⦃a⦄, a ∈ s → ∀ ⦃b⦄, b ∈ s → ∀ ⦃u v : List β⦄, f a ++ u = f b ++ v → a = b ∧ u = v

/-- The length of a text in front of the text, which makes any text recognisable in a stream. -/
def lengthPrefixed (len : ℕ → List β) (bs : List β) : List β := len bs.length ++ bs

theorem PrefixFreeOn.of_fixedWidth {s : Set α} {f : α → List β} {w : ℕ}
    (hwidth : ∀ a, (f a).length = w) (hinj : Set.InjOn f s) : PrefixFreeOn s f := by
  intro a ha b hb u v h
  obtain ⟨hfront, hrest⟩ := List.append_inj h ((hwidth a).trans (hwidth b).symm)
  exact ⟨hinj ha hb hfront, hrest⟩

/-- Where lengths are prefix free, so are the texts behind them. -/
theorem PrefixFreeOn.lengthPrefixed {N : Set ℕ} {len : ℕ → List β} (h : PrefixFreeOn N len) :
    PrefixFreeOn {bs : List β | bs.length ∈ N} (lengthPrefixed len) := by
  intro bs hbs cs hcs u v heq
  unfold Framing.lengthPrefixed at heq
  rw [List.append_assoc, List.append_assoc] at heq
  obtain ⟨hlength, hrest⟩ := h hbs hcs heq
  exact List.append_inj hrest hlength

end Passe.Framing
