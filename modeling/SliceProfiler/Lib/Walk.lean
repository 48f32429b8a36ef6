import Mathlib.Data.Finset.Card
import Mathlib.Logic.Function.Iterate
import Mathlib.Logic.Relation

/-!
# Walks along a partial function

From a start, a walk follows `next` until it reaches an element without a successor or meets an
element a second time. The number of steps it may take is given as fuel.
-/

namespace Lib

variable {κ : Type}

/-- One step of a walk; `none` is the end. -/
def follow (next : κ → Option κ) (o : Option κ) : Option κ := o.bind next

@[simp] theorem follow_none (next : κ → Option κ) : follow next none = none := rfl

@[simp] theorem follow_some (next : κ → Option κ) (a : κ) : follow next (some a) = next a := rfl

/-- The walk from `o` reaches the end. -/
def Ends (next : κ → Option κ) (o : Option κ) : Prop := ∃ n, (follow next)^[n] o = none

theorem follow_iterate_none (next : κ → Option κ) (n : Nat) : (follow next)^[n] none = none := by
  induction n with
  | zero => rfl
  | succ n ih => rw [Function.iterate_succ_apply, follow_none, ih]

theorem ends_none (next : κ → Option κ) : Ends next none := ⟨0, rfl⟩

theorem ends_some_iff {next : κ → Option κ} {a : κ} : Ends next (some a) ↔ Ends next (next a) := by
  constructor
  · rintro ⟨n, h⟩
    cases n with
    | zero => cases h
    | succ n => exact ⟨n, by rwa [Function.iterate_succ_apply] at h⟩
  · rintro ⟨n, h⟩
    exact ⟨n + 1, by rwa [Function.iterate_succ_apply]⟩

/-- A walk that comes back to where it was never ends. -/
theorem not_ends_of_return {next : κ → Option κ} {a : κ} {k : Nat} (hk : 0 < k)
    (h : (follow next)^[k] (some a) = some a) : ¬ Ends next (some a) := by
  rintro ⟨n, hn⟩
  have hmul : ∀ m, (follow next)^[k * m] (some a) = some a := by
    intro m
    induction m with
    | zero => rfl
    | succ m ih => rw [Nat.mul_succ, Function.iterate_add_apply, h, ih]
  have hle : n ≤ k * n := Nat.le_mul_of_pos_left n hk
  have hnone : (follow next)^[k * n] (some a) = none := by
    rw [← Nat.sub_add_cancel hle, Function.iterate_add_apply, hn, follow_iterate_none]
  rw [hmul] at hnone
  cases hnone

/-- A walk that ends does so at a last element, without a successor. -/
theorem ends_iff_exists_last {next : κ → Option κ} {a : κ} :
    Ends next (some a) ↔ ∃ b, Relation.ReflTransGen (fun a b => next a = some b) a b ∧ next b = none := by
  constructor
  · rintro ⟨n, h⟩
    induction n generalizing a with
    | zero => cases h
    | succ n ih =>
        rw [Function.iterate_succ_apply, follow_some] at h
        cases hb : next a with
        | none => exact ⟨a, .refl, hb⟩
        | some b =>
            rw [hb] at h
            obtain ⟨c, hc, he⟩ := ih h
            exact ⟨c, .head hb hc, he⟩
  · rintro ⟨b, hab, hb⟩
    induction hab using Relation.ReflTransGen.head_induction_on with
    | refl => exact ends_some_iff.mpr (hb ▸ ends_none next)
    | head h _ ih => exact ends_some_iff.mpr (h ▸ ih)

variable [DecidableEq κ]

/-- Follows `next` and keeps the set of elements it met. The result is `some true` when it meets an
element again, `some false` when it reaches the end, and `none` when the fuel is used up. -/
def walk (next : κ → Option κ) : Nat → Finset κ → Option κ → Option Bool
  | _, _, none => some false
  | 0, _, some _ => none
  | n + 1, seen, some a =>
      if a ∈ seen then some true else walk next n (insert a seen) (next a)

theorem walk_of_le {next : κ → Option κ} {m n : Nat} {seen : Finset κ} {o : Option κ} {b : Bool}
    (h : walk next m seen o = some b) (hmn : m ≤ n) : walk next n seen o = some b := by
  induction m generalizing n seen o with
  | zero =>
      cases o with
      | none => rw [← h]; cases n <;> rfl
      | some a => cases h
  | succ m ih =>
      cases n with
      | zero => omega
      | succ n =>
          cases o with
          | none => exact h
          | some a =>
              simp only [walk] at h ⊢
              split
              · rwa [if_pos ‹_›] at h
              · rw [if_neg ‹_›] at h
                exact ih h (by omega)

theorem ends_of_walk {next : κ → Option κ} {n : Nat} {seen : Finset κ} {o : Option κ}
    (h : walk next n seen o = some false) : Ends next o := by
  induction n generalizing seen o with
  | zero =>
      cases o with
      | none => exact ends_none next
      | some a => simp [walk] at h
  | succ n ih =>
      cases o with
      | none => exact ends_none next
      | some a =>
          simp only [walk] at h
          split at h
          · cases h
          · exact ends_some_iff.mpr (ih h)

/-- When the walk can come from each element it met, meeting one again means that it never ends. -/
theorem not_ends_of_walk {next : κ → Option κ} {n : Nat} {seen : Finset κ} {o : Option κ}
    (hs : ∀ b ∈ seen, ∃ k, 0 < k ∧ (follow next)^[k] (some b) = o)
    (h : walk next n seen o = some true) : ¬ Ends next o := by
  induction n generalizing seen o with
  | zero => cases o <;> simp [walk] at h
  | succ n ih =>
      cases o with
      | none => simp [walk] at h
      | some a =>
          simp only [walk] at h
          split at h
          · rename_i ha
            obtain ⟨k, hk, hb⟩ := hs a ha
            exact not_ends_of_return hk hb
          · rw [ends_some_iff]
            refine ih ?_ h
            intro b hb
            rcases Finset.mem_insert.mp hb with rfl | hb
            · exact ⟨1, Nat.one_pos, rfl⟩
            · obtain ⟨k, hk, he⟩ := hs b hb
              exact ⟨k + 1, Nat.succ_pos k, by rw [Function.iterate_succ_apply', he, follow_some]⟩

/-- The elements with a successor that the walk has not met bound the fuel that it needs. -/
theorem walk_isSome {next : κ → Option κ} {dom : Finset κ} (hd : ∀ a b, next a = some b → a ∈ dom)
    {n : Nat} {seen : Finset κ} {o : Option κ} (hn : (dom \ seen).card + 2 ≤ n) :
    (walk next n seen o).isSome := by
  induction n generalizing seen o with
  | zero => omega
  | succ n ih =>
      cases o with
      | none => rfl
      | some a =>
          simp only [walk]
          split
          · rfl
          · rename_i ha
            cases hb : next a with
            | none => cases n <;> rfl
            | some b =>
                apply ih
                have hmem : a ∈ dom \ seen := Finset.mem_sdiff.mpr ⟨hd a b hb, ha⟩
                have hins : dom \ insert a seen = (dom \ seen).erase a := by
                  ext c; simp only [Finset.mem_sdiff, Finset.mem_insert, Finset.mem_erase]; tauto
                have := Finset.card_erase_add_one hmem
                rw [hins]; omega

/-- With enough fuel the walk finds a repeated element exactly when it would never end. -/
theorem walk_eq_true_iff {next : κ → Option κ} {dom : Finset κ}
    (hd : ∀ a b, next a = some b → a ∈ dom) {n : Nat} (hn : dom.card + 2 ≤ n) {o : Option κ} :
    walk next n ∅ o = some true ↔ ¬ Ends next o := by
  constructor
  · exact not_ends_of_walk (by simp)
  · intro h
    have hs : (walk next n ∅ o).isSome := walk_isSome hd (by simpa using hn)
    obtain ⟨b, hb⟩ := Option.isSome_iff_exists.mp hs
    cases b with
    | true => exact hb
    | false => exact absurd (ends_of_walk hb) h

end Lib
