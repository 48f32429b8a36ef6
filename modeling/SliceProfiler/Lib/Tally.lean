import Mathlib.Algebra.BigOperators.Group.List.Basic
import Mathlib.Algebra.Order.Group.Nat
import Mathlib.Algebra.Ring.Nat
import SliceProfiler.Lib.Maps
import SliceProfiler.Lib.Prefix
import SliceProfiler.Lib.Saturating

/-!
# Tallies

A tally adds up the weights of each key in unsigned machine integers that wrap around.
-/

namespace Lib

variable {κ : Type} [LinearOrder κ] {max : Nat}

/-- The tally after one more weight at a key. -/
def tally (max : Nat) (l : List (κ × Nat)) (a : κ × Nat) : List (κ × Nat) :=
  upsert a.1 (fun v => wrappingAdd max (v.getD 0) a.2) l

def tallyAll (max : Nat) (l : List (κ × Nat)) : List (κ × Nat) := l.foldl (tally max) []

/-- The sum of the tally at a key. -/
def tallied (max : Nat) (l : List (κ × Nat)) (k : κ) : Nat := (lookupKey k (tallyAll max l)).getD 0

/-- The exact sum of the weights at a key. -/
def totalAt (k : κ) (l : List (κ × Nat)) : Nat := ((l.filter fun a => a.1 = k).map Prod.snd).sum

/-- No addition of the tally wraps around. -/
def Fits (max : Nat) (l : List (κ × Nat)) : Prop := Each (fun pre a => tallied max pre a.1 + a.2 ≤ max) l

variable {k : κ} {l : List (κ × Nat)} {a : κ × Nat}

@[simp] theorem totalAt_nil : totalAt k [] = 0 := rfl

theorem totalAt_append (l₁ l₂ : List (κ × Nat)) : totalAt k (l₁ ++ l₂) = totalAt k l₁ + totalAt k l₂ := by
  simp [totalAt]

theorem totalAt_singleton : totalAt k [a] = if a.1 = k then a.2 else 0 := by
  by_cases h : a.1 = k <;> simp [totalAt, h]

theorem tallyAll_concat : tallyAll max (l ++ [a]) = tally max (tallyAll max l) a := List.foldl_concat ..

theorem keysIncrease_tallyAll (l : List (κ × Nat)) : KeysIncrease (tallyAll max l) := by
  induction l using List.reverseRecOn with
  | nil => exact List.Pairwise.nil
  | append_singleton l a ih =>
      rw [tallyAll_concat]
      exact ih.upsert ..

theorem tallied_concat : tallied max (l ++ [a]) k =
    if k = a.1 then wrappingAdd max (tallied max l a.1) a.2 else tallied max l k := by
  rw [tallied, tallyAll_concat, tally, lookupKey_upsert (keysIncrease_tallyAll l)]
  split
  · rfl
  · rfl

/-- The tally holds the exact sums modulo the size of its integers. -/
theorem tallied_eq (k : κ) (l : List (κ × Nat)) : tallied max l k = totalAt k l % (max + 1) := by
  induction l using List.reverseRecOn with
  | nil => rfl
  | append_singleton l a ih =>
      rw [tallied_concat, totalAt_append, totalAt_singleton]
      by_cases h : k = a.1
      · subst h
        rw [if_pos rfl, if_pos rfl, ih, wrappingAdd, Nat.mod_add_mod]
      · rw [if_neg h, if_neg (Ne.symm h), ih]
        rfl

/-- A tally fits when all its sums do. -/
theorem fits_iff : Fits max l ↔ ∀ k, totalAt k l ≤ max := by
  induction l using List.reverseRecOn with
  | nil => simp [Fits]
  | append_singleton l a ih =>
      rw [Fits, each_concat, ← Fits, ih]
      constructor
      · rintro ⟨hl, ha⟩ k
        rw [totalAt_append, totalAt_singleton]
        split
        · rename_i h
          rw [tallied_eq, Nat.mod_eq_of_lt (Nat.lt_succ_of_le (hl a.1)), h] at ha
          exact ha
        · exact hl k
      · intro h
        have hl : ∀ k, totalAt k l ≤ max := fun k => (Nat.le_add_right _ _).trans (totalAt_append l [a] ▸ h k)
        refine ⟨hl, ?_⟩
        rw [tallied_eq, Nat.mod_eq_of_lt (Nat.lt_succ_of_le (hl a.1))]
        simpa [totalAt_append, totalAt_singleton] using h a.1

theorem Fits.tallied_eq (h : Fits max l) (k : κ) : tallied max l k = totalAt k l :=
  (Lib.tallied_eq k l).trans (Nat.mod_eq_of_lt (Nat.lt_succ_of_le (fits_iff.mp h k)))

end Lib
