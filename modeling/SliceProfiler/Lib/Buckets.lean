import Mathlib.Algebra.Order.Floor.Ring
import Mathlib.Data.List.Induction
import Mathlib.Data.Rat.Floor
import Mathlib.Tactic.Linarith
import Mathlib.Tactic.Ring

/-!
# Buckets of equal width

A range in `bins` parts, with the bucket of a value, the edges of the buckets and the number of values in each.
-/

namespace Lib

/-! ## The bucket of a value -/

variable {low span x : ℚ} {bins : Nat}

/-- Values behind the range are in the last bucket. -/
def bucketOf (low span : ℚ) (bins : Nat) (x : ℚ) : ℤ := min (bins - 1) ⌊(x - low) / span * bins⌋

def bucketEdge (low span : ℚ) (bins : Nat) (index : ℚ) : ℚ := low + index * span / bins

theorem bucketOf_lt (low span : ℚ) (bins : Nat) (x : ℚ) : bucketOf low span bins x < bins := by
  have := min_le_left ((bins : ℤ) - 1) ⌊(x - low) / span * bins⌋
  rw [bucketOf]
  omega

theorem bucketOf_nonneg (hbins : 0 < bins) (hspan : 0 < span) (hx : low ≤ x) : 0 ≤ bucketOf low span bins x := by
  have hpos : 0 ≤ (x - low) / span * bins := mul_nonneg (div_nonneg (by linarith) hspan.le) (Nat.cast_nonneg _)
  exact le_min (by omega) (Int.floor_nonneg.mpr hpos)

/-- An edge is at most a value when its number is at most the position of the value. -/
theorem bucketEdge_le_iff (hbins : 0 < bins) (hspan : 0 < span) {index : ℚ} :
    bucketEdge low span bins index ≤ x ↔ index ≤ (x - low) / span * bins := by
  have hb : (0 : ℚ) < bins := by exact_mod_cast hbins
  rw [bucketEdge, ← le_sub_iff_add_le', div_le_iff₀ hb, div_mul_eq_mul_div, le_div_iff₀ hspan]

theorem bucketEdge_bucketOf_le (hbins : 0 < bins) (hspan : 0 < span) :
    bucketEdge low span bins (bucketOf low span bins x) ≤ x := by
  rw [bucketEdge_le_iff hbins hspan]
  exact (Int.cast_le.mpr (min_le_right _ _)).trans (Int.floor_le _)

/-- The upper edge of the bucket excludes the values behind the range, and no others. -/
theorem lt_bucketEdge_iff (hbins : 0 < bins) (hspan : 0 < span) :
    x < bucketEdge low span bins (bucketOf low span bins x + 1) ↔ x < low + span := by
  have hb : (0 : ℚ) < bins := by exact_mod_cast hbins
  have hend : x < low + span ↔ (x - low) / span * bins < bins := by
    rw [mul_lt_iff_lt_one_left hb, div_lt_one hspan, sub_lt_iff_lt_add']
  rw [← not_le, bucketEdge_le_iff hbins hspan, not_le, hend, bucketOf]
  rcases le_total ((bins : ℤ) - 1) ⌊(x - low) / span * bins⌋ with h | h
  · rw [min_eq_left h]
    push_cast
    rw [sub_add_cancel]
  · rw [min_eq_right h]
    have hlt : (x - low) / span * bins < bins := by
      have := Int.lt_floor_add_one ((x - low) / span * bins)
      have hc : ((⌊(x - low) / span * bins⌋ : ℤ) : ℚ) ≤ ((bins : ℤ) - 1 : ℤ) := Int.cast_le.mpr h
      push_cast at hc
      linarith
    exact ⟨fun _ => hlt, fun _ => Int.lt_floor_add_one _⟩

/-- The multiple of a width at or above a value is above it when the value is no multiple. -/
theorem lt_ceil_mul_iff {w : ℚ} (hw : 0 < w) : x < ⌈x / w⌉ * w ↔ ∀ k : ℤ, x ≠ k * w := by
  have hle : x ≤ ⌈x / w⌉ * w := by
    rw [← div_le_iff₀ hw]
    exact Int.le_ceil _
  rw [lt_iff_le_and_ne, and_iff_right hle]
  constructor
  · rintro hne k rfl
    rw [mul_div_cancel_right₀ _ hw.ne', Int.ceil_intCast] at hne
    exact hne rfl
  · exact fun h => h _

/-- A range of whole widths, but at least `1` long, that begins at a multiple of the width and reaches a value: it
ends at the value when that is a multiple as well, at least `1` behind the beginning. -/
theorem lt_end_iff {w : ℚ} (hw : 0 < w) {m : ℤ} (hlow : m * w ≤ x) :
    x < m * w + max 1 ((max 1 ⌈(x - m * w) / w⌉ : ℤ) * w) ↔ (∀ k : ℤ, x ≠ k * w) ∨ x < m * w + 1 := by
  rcases lt_or_ge x (m * w + 1) with h | h
  · have hone := le_max_left 1 ((max 1 ⌈(x - m * w) / w⌉ : ℤ) * w)
    exact iff_of_true (by linarith) (.inr h)
  · have hceil : 1 ≤ ⌈(x - m * w) / w⌉ := Int.one_le_ceil_iff.mpr (div_pos (by linarith) hw)
    have hshift : (∀ k : ℤ, x - m * w ≠ k * w) ↔ ∀ k : ℤ, x ≠ k * w := by
      constructor
      · rintro hne k rfl
        exact hne (k - m) (by push_cast; ring)
      · intro hne k he
        exact hne (k + m) (by push_cast; linarith)
    rw [max_eq_right hceil, or_iff_left h.not_gt, ← hshift, ← lt_ceil_mul_iff hw, ← sub_lt_iff_lt_add', lt_max_iff,
      or_iff_right (by linarith)]

/-! ## Counting -/

/-- `counts[index]++`, which only counts inside the array. -/
def bump (counts : List Nat) (index : ℤ) : List Nat :=
  if 0 ≤ index then counts.modify index.toNat (· + 1) else counts

def countInto (bins : Nat) (indices : List ℤ) : List Nat := indices.foldl bump (List.replicate bins 0)

theorem length_bump (counts : List Nat) (index : ℤ) : (bump counts index).length = counts.length := by
  unfold bump
  split <;> simp

theorem getElem?_bump (counts : List Nat) (index : ℤ) (k : Nat) :
    (bump counts index)[k]? = if index = k then counts[k]?.map (· + 1) else counts[k]? := by
  unfold bump
  by_cases h0 : 0 ≤ index
  · rw [if_pos h0, List.getElem?_modify]
    have hiff : index.toNat = k ↔ index = k := by omega
    by_cases he : index = k
    · simp [he]
    · simp [he, hiff]
  · rw [if_neg h0, if_neg (by omega)]

theorem sum_modify_succ {counts : List Nat} {k : Nat} (hk : k < counts.length) :
    (counts.modify k (· + 1)).sum = counts.sum + 1 := by
  induction counts generalizing k with
  | nil => simp at hk
  | cons c counts ih =>
      cases k with
      | zero => simp; omega
      | succ k =>
          rw [List.modify_succ_cons, List.sum_cons, List.sum_cons, ih (by simpa using hk), Nat.add_assoc]

theorem length_countInto (bins : Nat) (indices : List ℤ) : (countInto bins indices).length = bins := by
  induction indices using List.reverseRecOn with
  | nil => exact List.length_replicate
  | append_singleton indices index ih =>
      rw [countInto, List.foldl_concat, length_bump]
      exact ih

theorem getElem?_countInto {indices : List ℤ} {k : Nat} (hk : k < bins) :
    (countInto bins indices)[k]? = some (indices.count (k : ℤ)) := by
  induction indices using List.reverseRecOn with
  | nil => simp [countInto, hk]
  | append_singleton indices index ih =>
      rw [countInto, List.foldl_concat, ← countInto, getElem?_bump, ih, List.count_append, List.count_singleton]
      by_cases he : index = k
      · simp [he]
      · simp [he]

theorem sum_countInto {indices : List ℤ} (h : ∀ index ∈ indices, 0 ≤ index ∧ index < bins) :
    (countInto bins indices).sum = indices.length := by
  induction indices using List.reverseRecOn with
  | nil => simp [countInto]
  | append_singleton indices index ih =>
      obtain ⟨h0, hlt⟩ := h index (by simp)
      rw [countInto, List.foldl_concat, ← countInto, bump, if_pos h0,
        sum_modify_succ (by rw [length_countInto]; omega), ih fun i hi => h i (List.mem_append_left _ hi)]
      simp

/-! ## Weights -/

/-- `weights[index]+=weight` -/
def addAt (weights : List Nat) (x : ℤ × Nat) : List Nat :=
  if 0 ≤ x.1 then weights.modify x.1.toNat (· + x.2) else weights

def addInto (bins : Nat) (l : List (ℤ × Nat)) : List Nat := l.foldl addAt (List.replicate bins 0)

theorem length_addInto (bins : Nat) (l : List (ℤ × Nat)) : (addInto bins l).length = bins := by
  induction l using List.reverseRecOn with
  | nil => exact List.length_replicate
  | append_singleton l x ih =>
      rw [addInto, List.foldl_concat, ← addInto, addAt]
      split <;> simp [ih]

theorem getElem?_addInto {l : List (ℤ × Nat)} {k : Nat} (hk : k < bins) :
    (addInto bins l)[k]? = some ((l.filter fun x => x.1 = (k : ℤ)).map (·.2)).sum := by
  induction l using List.reverseRecOn with
  | nil => simp [addInto, hk]
  | append_singleton l x ih =>
      rw [addInto, List.foldl_concat, ← addInto, addAt]
      by_cases he : x.1 = (k : ℤ)
      · simp [he, ih]
      · have hne : 0 ≤ x.1 → ¬ x.1.toNat = k := by omega
        split
        · rename_i h0
          simp [he, ih, hne h0]
        · simp [he, ih]

theorem sum_modify_add {weights : List Nat} {k : Nat} (hk : k < weights.length) (w : Nat) :
    (weights.modify k (· + w)).sum = weights.sum + w := by
  induction weights generalizing k with
  | nil => simp at hk
  | cons v weights ih =>
      cases k with
      | zero => simp; omega
      | succ k =>
          rw [List.modify_succ_cons, List.sum_cons, List.sum_cons, ih (by simpa using hk), Nat.add_assoc]

/-- No weight is lost. -/
theorem sum_addInto {l : List (ℤ × Nat)} (h : ∀ x ∈ l, 0 ≤ x.1 ∧ x.1 < bins) :
    (addInto bins l).sum = (l.map (·.2)).sum := by
  induction l using List.reverseRecOn with
  | nil => simp [addInto]
  | append_singleton l x ih =>
      obtain ⟨h0, hlt⟩ := h x (by simp)
      rw [addInto, List.foldl_concat, ← addInto, addAt, if_pos h0, sum_modify_add (by rw [length_addInto]; omega),
        ih fun y hy => h y (List.mem_append_left _ hy)]
      simp

/-! ## Marks -/

/-- `marks[index]=true` -/
def mark (marks : List Bool) (index : ℤ) : List Bool := if 0 ≤ index then marks.set index.toNat true else marks

def markInto (bins : Nat) (indices : List ℤ) : List Bool := indices.foldl mark (List.replicate bins false)

theorem length_markInto (bins : Nat) (indices : List ℤ) : (markInto bins indices).length = bins := by
  induction indices using List.reverseRecOn with
  | nil => exact List.length_replicate
  | append_singleton indices index ih =>
      rw [markInto, List.foldl_concat, ← markInto, mark]
      split <;> simp [ih]

theorem getElem?_markInto {indices : List ℤ} {k : Nat} (hk : k < bins) :
    (markInto bins indices)[k]? = some (decide ((k : ℤ) ∈ indices)) := by
  induction indices using List.reverseRecOn with
  | nil => simp [markInto, hk]
  | append_singleton indices index ih =>
      have hlen := length_markInto bins indices
      rw [markInto, List.foldl_concat, ← markInto, mark]
      by_cases he : (k : ℤ) = index
      · subst he
        simp [hlen, hk]
      · have hne : 0 ≤ index → ¬ index.toNat = k := by omega
        split
        · rename_i h0
          simp [hne h0, ih, he]
        · simp [ih, he]

end Lib
