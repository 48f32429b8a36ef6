import Mathlib.Data.List.Basic

/-!
# Lists that correspond, and lists put together

What two lists share that are related element by element, and the least and the greatest of a list made of lists.
-/

namespace Lib

/-! ## Related lists -/

section Related

variable {α β γ : Type} {R : α → β → Prop} {l : List α} {l' : List β}

theorem exists_of_forall₂ (h : List.Forall₂ R l l') {a : α} (ha : a ∈ l) : ∃ b ∈ l', R a b := by
  induction h with
  | nil => cases ha
  | cons hab _ ih =>
      rcases List.mem_cons.mp ha with rfl | ha
      · exact ⟨_, List.mem_cons_self, hab⟩
      · obtain ⟨b, hb, hR⟩ := ih ha
        exact ⟨b, List.mem_cons_of_mem _ hb, hR⟩

theorem map_eq_of_forall₂ (h : List.Forall₂ R l l') {g : α → γ} {g' : β → γ} (hg : ∀ a b, R a b → g' b = g a) :
    l'.map g' = l.map g := by
  induction h with
  | nil => rfl
  | cons hab _ ih => rw [List.map_cons, List.map_cons, hg _ _ hab, ih]

theorem filterMap_eq_of_forall₂ (h : List.Forall₂ R l l') {g : α → Option γ} {g' : β → Option γ}
    (hg : ∀ a b, R a b → g' b = g a) : l'.filterMap g' = l.filterMap g := by
  have hmap := congrArg (List.filterMap id) (map_eq_of_forall₂ h hg)
  simpa only [List.filterMap_map, Function.id_comp] using hmap

end Related

/-! ## The least and the greatest -/

/-- The least of several lists is the least of what is least in each. -/
theorem least_flatMap {α : Type} (le : Nat → Nat → Prop) (htrans : ∀ a b c, le a b → le b c → le a c)
    {m : List Nat → Option Nat} (hm : ∀ l a, m l = some a ↔ a ∈ l ∧ ∀ b ∈ l, le a b)
    (hsome : ∀ l, m l = none → l = []) (l : List α) (f : α → List Nat) :
    m (l.flatMap f) = m (l.filterMap fun x => m (f x)) := by
  refine Option.ext fun a => ?_
  rw [hm, hm]
  simp only [List.mem_flatMap, List.mem_filterMap]
  have hleast : ∀ x b, b ∈ f x → ∃ c, m (f x) = some c ∧ le c b := by
    intro x b hb
    cases hc : m (f x) with
    | none => rw [hsome _ hc] at hb; cases hb
    | some c => exact ⟨c, rfl, ((hm _ _).mp hc).2 b hb⟩
  constructor
  · rintro ⟨⟨x, hx, ha⟩, hle⟩
    refine ⟨⟨x, hx, (hm _ _).mpr ⟨ha, fun b hb => hle b ⟨x, hx, hb⟩⟩⟩, ?_⟩
    rintro b ⟨y, hy, hb⟩
    exact hle b ⟨y, hy, ((hm _ _).mp hb).1⟩
  · rintro ⟨⟨x, hx, ha⟩, hle⟩
    refine ⟨⟨x, hx, ((hm _ _).mp ha).1⟩, ?_⟩
    rintro b ⟨y, hy, hb⟩
    obtain ⟨c, hc, hcb⟩ := hleast y b hb
    exact htrans a c b (hle c ⟨y, hy, hc⟩) hcb

theorem min?_eq_of_perm {l l' : List Nat} (h : l.Perm l') : l.min? = l'.min? := by
  refine Option.ext fun a => ?_
  simp only [List.min?_eq_some_iff, h.mem_iff]

theorem max?_eq_of_perm {l l' : List Nat} (h : l.Perm l') : l.max? = l'.max? := by
  refine Option.ext fun a => ?_
  simp only [List.max?_eq_some_iff, h.mem_iff]

theorem min?_flatMap {α : Type} (l : List α) (f : α → List Nat) :
    (l.flatMap f).min? = (l.filterMap fun x => (f x).min?).min? :=
  least_flatMap (· ≤ ·) (fun _ _ _ => Nat.le_trans) (fun _ _ => List.min?_eq_some_iff)
    (fun _ => List.min?_eq_none_iff.mp) l f

theorem max?_flatMap {α : Type} (l : List α) (f : α → List Nat) :
    (l.flatMap f).max? = (l.filterMap fun x => (f x).max?).max? :=
  least_flatMap (· ≥ ·) (fun _ _ _ hab hbc => Nat.le_trans hbc hab) (fun _ _ => List.max?_eq_some_iff)
    (fun _ => List.max?_eq_none_iff.mp) l f

end Lib
