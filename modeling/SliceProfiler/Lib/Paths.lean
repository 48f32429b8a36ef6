import Mathlib.Algebra.BigOperators.Group.Finset.Piecewise
import Mathlib.Algebra.Order.BigOperators.Group.List
import Mathlib.Algebra.Order.Group.Nat
import Mathlib.Algebra.Ring.Nat
import Mathlib.Data.List.Infix

/-!
# Weighted paths

A tree of counters is determined by a list of paths with weights: the counter at a path holds the weight
of all paths that go through it.
-/

namespace Lib

variable {κ α : Type}

section Under

variable [DecidableEq κ]

/-- The total weight of the paths that start with `path`. -/
def weightUnder (path : List κ) (l : List (List κ × Nat)) : Nat :=
  ((l.filter fun e => path <+: e.1).map Prod.snd).sum

/-- Some path of the list goes through `path`. -/
def Reached (path : List κ) (l : List (List κ × Nat)) : Prop := ∃ e ∈ l, path <+: e.1

omit [DecidableEq κ] in
@[simp] theorem not_reached_nil (path : List κ) : ¬ Reached path [] := by simp [Reached]

omit [DecidableEq κ] in
theorem reached_concat {path : List κ} {l : List (List κ × Nat)} {e : List κ × Nat} :
    Reached path (l ++ [e]) ↔ Reached path l ∨ path <+: e.1 := by simp [Reached, or_and_right, exists_or]

instance (path : List κ) (l : List (List κ × Nat)) : Decidable (Reached path l) :=
  inferInstanceAs (Decidable (∃ e ∈ l, path <+: e.1))

@[simp] theorem weightUnder_nil (path : List κ) : weightUnder path [] = 0 := rfl

theorem weightUnder_concat (path : List κ) (l : List (List κ × Nat)) (e : List κ × Nat) :
    weightUnder path (l ++ [e]) = weightUnder path l + if path <+: e.1 then e.2 else 0 := by
  unfold weightUnder
  by_cases h : path <+: e.1 <;> simp [h]

theorem weightUnder_of_not_reached {path : List κ} {l : List (List κ × Nat)} (h : ¬ Reached path l) :
    weightUnder path l = 0 := by
  have : l.filter (fun e => path <+: e.1) = [] := by
    simp only [List.filter_eq_nil_iff, decide_eq_true_eq]
    exact fun e he hp => h ⟨e, he, hp⟩
  simp [weightUnder, this]

end Under

/-! ## Splitting a list of records by a condition -/

/-- The sum over a condition is that over its two disjoint parts. -/
theorem sum_filter_split {P Q R : α → Bool} (hR : ∀ a, R a = (P a || Q a)) (h : ∀ a, ¬ (P a = true ∧ Q a = true))
    (f : α → Nat) (l : List α) :
    ((l.filter R).map f).sum = ((l.filter P).map f).sum + ((l.filter Q).map f).sum := by
  obtain rfl : R = fun a => P a || Q a := funext hR
  induction l with
  | nil => rfl
  | cons a l ih =>
      have ha := h a
      cases hp : P a <;> cases hq : Q a <;> simp_all <;> omega

theorem sum_ite (P : α → Bool) (f : α → Nat) (l : List α) :
    (l.map fun a => if P a then f a else 0).sum = ((l.filter P).map f).sum := by
  induction l with
  | nil => rfl
  | cons a l ih => cases h : P a <;> simp [h, ih]

/-- The records under some keys, key by key. -/
theorem sum_filter_mem [DecidableEq κ] (key : α → κ) (keys : Finset κ) (f : α → Nat) (l : List α) :
    ((l.filter fun a => key a ∈ keys).map f).sum = ∑ k ∈ keys, ((l.filter fun a => key a = k).map f).sum := by
  induction l with
  | nil => simp
  | cons a l ih =>
      have hcons : ∀ k, (((a :: l).filter fun b => key b = k).map f).sum =
          (if key a = k then f a else 0) + ((l.filter fun b => key b = k).map f).sum := by
        intro k
        by_cases hk : key a = k <;> simp [hk]
      simp only [hcons, Finset.sum_add_distrib, Finset.sum_ite_eq, ← ih]
      by_cases ha : key a ∈ keys <;> simp [ha]

theorem sum_filter_le (P : α → Bool) (f : α → Nat) (l : List α) :
    ((l.filter P).map f).sum ≤ (l.map f).sum :=
  (List.filter_sublist.map f).sum_le_sum (fun _ _ => Nat.zero_le _)

/-- Of two sums that are ordered term by term the terms are equal when the sums are. -/
theorem sum_eq_sum_iff_of_le {f g : α → Nat} {l : List α} (h : ∀ a ∈ l, f a ≤ g a) :
    (l.map g).sum = (l.map f).sum ↔ ∀ a ∈ l, g a = f a := by
  induction l with
  | nil => simp
  | cons a l ih =>
      have ha := h a (List.mem_cons_self ..)
      have hrest : ∀ b ∈ l, f b ≤ g b := fun b hb => h b (List.mem_cons_of_mem _ hb)
      have hl : (l.map f).sum ≤ (l.map g).sum := List.sum_le_sum hrest
      rw [List.forall_mem_cons, ← ih hrest, List.map_cons, List.map_cons, List.sum_cons, List.sum_cons]
      omega

end Lib
