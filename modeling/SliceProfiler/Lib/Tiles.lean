import Mathlib.Algebra.Order.BigOperators.Group.List
import Mathlib.Algebra.Order.Ring.Rat
import Mathlib.Tactic.Linarith

/-!
# Tiles

Intervals that are laid out one after the other from a cursor.
-/

namespace Lib

variable {α : Type} {width : α → ℚ} {cursor : ℚ} {l : List α}

/-- Each element with the place where its interval begins. -/
def tile (width : α → ℚ) (cursor : ℚ) : List α → List (α × ℚ)
  | [] => []
  | a :: l => (a, cursor) :: tile width (cursor + width a) l

theorem map_fst_tile : (tile width cursor l).map Prod.fst = l := by
  induction l generalizing cursor with
  | nil => rfl
  | cons a l ih => rw [tile, List.map_cons, ih]

theorem mem_of_mem_tile {t : α × ℚ} (h : t ∈ tile width cursor l) : t.1 ∈ l := by
  induction l generalizing cursor with
  | nil => cases h
  | cons a l ih =>
      rcases List.mem_cons.mp h with rfl | h
      · exact List.mem_cons_self
      · exact List.mem_cons_of_mem _ (ih h)

theorem exists_mem_tile {a : α} (h : a ∈ l) : ∃ x, (a, x) ∈ tile width cursor l := by
  induction l generalizing cursor with
  | nil => cases h
  | cons b l ih =>
      rcases List.mem_cons.mp h with rfl | h
      · exact ⟨cursor, List.mem_cons_self⟩
      · obtain ⟨x, hx⟩ : ∃ x, (a, x) ∈ tile width (cursor + width b) l := ih h
        exact ⟨x, List.mem_cons_of_mem _ hx⟩

theorem tile_bounds (h : ∀ a ∈ l, 0 ≤ width a) {t : α × ℚ} (ht : t ∈ tile width cursor l) :
    cursor ≤ t.2 ∧ t.2 + width t.1 ≤ cursor + (l.map width).sum := by
  induction l generalizing cursor with
  | nil => cases ht
  | cons a l ih =>
      have ha := h a List.mem_cons_self
      have hl : ∀ b ∈ l, 0 ≤ width b := fun b hb => h b (List.mem_cons_of_mem _ hb)
      have hsum : 0 ≤ (l.map width).sum := List.sum_nonneg (by simpa using hl)
      rw [List.map_cons, List.sum_cons]
      rcases List.mem_cons.mp ht with rfl | ht
      · refine ⟨le_rfl, ?_⟩
        dsimp only
        linarith
      · have hb := ih hl ht
        exact ⟨by linarith [hb.1], by linarith [hb.2]⟩

/-- Later intervals begin where earlier ones have ended, and relations between the elements of the list carry over. -/
theorem tile_pairwise {R : α → α → Prop} (h : ∀ a ∈ l, 0 ≤ width a) (hl : l.Pairwise R) :
    (tile width cursor l).Pairwise fun s t => R s.1 t.1 ∧ s.2 + width s.1 ≤ t.2 := by
  induction l generalizing cursor with
  | nil => exact .nil
  | cons a l ih =>
      obtain ⟨ha, hl⟩ := List.pairwise_cons.mp hl
      have hw : ∀ b ∈ l, 0 ≤ width b := fun b hb => h b (List.mem_cons_of_mem _ hb)
      exact .cons (fun t ht => ⟨ha _ (mem_of_mem_tile ht), (tile_bounds hw ht).1⟩) (ih hw hl)

end Lib
