import Mathlib.Algebra.BigOperators.Group.List.Basic
import Mathlib.Algebra.Order.Monoid.Defs

/-!
# Intervals that follow one another

An interval is given by its width and its end. In a list of intervals of which each ends before the later
ones begin, the widths add up to no more than the span of all of them.
-/

namespace Lib

variable {α M : Type} [AddCommMonoid M] [PartialOrder M] [IsOrderedAddMonoid M] {width stop : α → M}

/-- Each interval ends before the later ones begin. -/
def Successive (width stop : α → M) (l : List α) : Prop := l.Pairwise fun a b => stop a + width b ≤ stop b

/-- The widths of successive intervals between `s` and `e` fit between them. -/
theorem Successive.sum_le {l : List α} {e : M} (h : Successive width stop l) :
    ∀ {s : M}, s ≤ e → (∀ a ∈ l, s + width a ≤ stop a ∧ stop a ≤ e) → s + (l.map width).sum ≤ e := by
  induction h with
  | nil =>
      intro s hse _
      rwa [List.map_nil, List.sum_nil, add_zero]
  | @cons a l hrest _ ih =>
      intro s _ hin
      obtain ⟨hs, he⟩ := hin a (List.mem_cons_self ..)
      have hl : stop a + (l.map width).sum ≤ e :=
        ih he fun b hb => ⟨hrest b hb, (hin b (List.mem_cons_of_mem _ hb)).2⟩
      calc s + ((a :: l).map width).sum = s + width a + (l.map width).sum := by
            rw [List.map_cons, List.sum_cons, add_assoc]
        _ ≤ stop a + (l.map width).sum := add_le_add_left hs _
        _ ≤ e := hl

end Lib
