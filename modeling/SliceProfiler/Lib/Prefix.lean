import Mathlib.Data.List.Basic

/-!
# Properties of each element and what comes before it
-/

namespace Lib

variable {α : Type}

/-- `P` holds of each element of the list together with the elements before it. -/
def Each (P : List α → α → Prop) (l : List α) : Prop := ∀ pre a post, l = pre ++ a :: post → P pre a

variable {P Q : List α → α → Prop} {l : List α}

@[simp] theorem each_nil : Each P [] := by
  intro pre a post h
  cases pre <;> cases h

@[simp] theorem each_concat {a : α} : Each P (l ++ [a]) ↔ Each P l ∧ P l a := by
  constructor
  · intro h
    exact ⟨fun pre b post he => h pre b (post ++ [a]) (by simp [he]), h l a [] rfl⟩
  · rintro ⟨hl, ha⟩ pre b post he
    rcases List.eq_nil_or_concat post with rfl | ⟨post, c, rfl⟩
    · obtain ⟨rfl, hb⟩ := List.append_inj' he rfl
      cases hb; exact ha
    · have he' : l ++ [a] = (pre ++ b :: post) ++ [c] := by simpa using he
      exact hl pre b post (List.append_inj' he' rfl).1

end Lib
