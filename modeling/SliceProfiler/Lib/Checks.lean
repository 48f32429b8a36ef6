import Mathlib.Data.Finset.Insert
import Mathlib.Data.List.Nodup

/-!
# Checks that succeed or return an error

A validator is a sequence of checks in `Except`. The lemmas say what its success means.
-/

namespace Lib

variable {ε ε' α β : Type}

/-- Succeeds when `c` holds, and returns `e` otherwise. -/
def ensure (c : Prop) [Decidable c] (e : ε) : Except ε Unit :=
  if c then .ok () else .error e

@[simp] theorem ensure_eq_ok {c : Prop} [Decidable c] {e : ε} {u : Unit} :
    ensure c e = .ok u ↔ c := by
  unfold ensure; split <;> simp_all

@[simp] theorem ensure_eq_error {c : Prop} [Decidable c] {e e' : ε} : ensure c e = .error e' ↔ ¬ c ∧ e = e' := by
  unfold ensure; split <;> simp_all

@[simp] theorem bind_eq_error {x : Except ε α} {f : α → Except ε β} {e : ε} :
    (x >>= f) = .error e ↔ x = .error e ∨ ∃ a, x = .ok a ∧ f a = .error e := by
  cases x <;> simp [bind, Except.bind]

@[simp] theorem bind_eq_ok {x : Except ε α} {f : α → Except ε β} {b : β} :
    (x >>= f) = .ok b ↔ ∃ a, x = .ok a ∧ f a = .ok b := by
  cases x <;> simp [bind, Except.bind]

@[simp] theorem ok_bind {a : α} {f : α → Except ε β} : (Except.ok a >>= f) = f a := rfl

@[simp] theorem mapError_eq_ok {x : Except ε α} {f : ε → ε'} {a : α} : x.mapError f = .ok a ↔ x = .ok a := by
  cases x <;> simp [Except.mapError]

@[simp] theorem exists_unit_ok {x : Except ε Unit} : (∃ u, x = .ok u) ↔ x = .ok () :=
  ⟨fun ⟨_, h⟩ => h, fun h => ⟨(), h⟩⟩

/-- The value, or the error when there is none. -/
def require (e : ε) : Option α → Except ε α
  | some a => .ok a
  | none => .error e

@[simp] theorem require_some {e : ε} {a : α} : require e (some a) = .ok a := rfl

@[simp] theorem require_eq_ok {e : ε} {o : Option α} {a : α} : require e o = .ok a ↔ o = some a := by
  cases o <;> simp [require]

/-- Runs the check `f` on each element, from left to right, and stops at the first error. -/
def checkAll (f : α → Except ε Unit) : List α → Except ε Unit
  | [] => .ok ()
  | a :: l => f a >>= fun _ => checkAll f l

@[simp] theorem checkAll_eq_ok {f : α → Except ε Unit} {l : List α} :
    checkAll f l = .ok () ↔ ∀ a ∈ l, f a = .ok () := by
  induction l with
  | nil => simp [checkAll]
  | cons a l ih => simp [checkAll, ih]

/-- Runs the check `f` on a value that is there. -/
def checkOption (f : α → Except ε Unit) : Option α → Except ε Unit
  | some a => f a
  | none => .ok ()

@[simp] theorem checkOption_eq_ok {f : α → Except ε Unit} {o : Option α} :
    checkOption f o = .ok () ↔ ∀ a, o = some a → f a = .ok () := by
  cases o <;> simp [checkOption]

@[simp] theorem checkOption_eq_error {f : α → Except ε Unit} {o : Option α} {e : ε} :
    checkOption f o = .error e ↔ ∃ a, o = some a ∧ f a = .error e := by
  cases o <;> simp [checkOption]

theorem mapM_eq_ok {f : α → Except ε β} {l : List α} {l' : List β} :
    l.mapM f = .ok l' ↔ List.Forall₂ (fun a b => f a = .ok b) l l' := by
  induction l generalizing l' with
  | nil =>
      rw [List.mapM_nil, List.forall₂_nil_left_iff]
      exact ⟨fun h => (Except.ok.inj h).symm, fun h => congrArg Except.ok h.symm⟩
  | cons a l ih =>
      simp only [List.mapM_cons, bind_eq_ok, ih, List.forall₂_cons_left_iff]
      constructor
      · rintro ⟨b, hb, r, hr, h⟩
        exact ⟨b, r, hb, hr, (Except.ok.inj h).symm⟩
      · rintro ⟨b, r, hb, hr, rfl⟩
        exact ⟨b, hb, r, hr, rfl⟩

/-- Inserts the elements one after the other and returns `dup a` at the first repeated one. -/
def insertAll [DecidableEq α] (dup : α → ε) (seen : Finset α) : List α → Except ε (Finset α)
  | [] => .ok seen
  | a :: l => if a ∈ seen then .error (dup a) else insertAll dup (insert a seen) l

theorem insertAll_eq_ok [DecidableEq α] {dup : α → ε} {seen s : Finset α} {l : List α} :
    insertAll dup seen l = .ok s ↔
      l.Nodup ∧ (∀ a ∈ l, a ∉ seen) ∧ ∀ a, a ∈ s ↔ a ∈ seen ∨ a ∈ l := by
  induction l generalizing seen with
  | nil =>
      simp only [insertAll, Except.ok.injEq, List.nodup_nil, List.not_mem_nil, or_false, true_and]
      exact ⟨fun h => ⟨by simp, fun a => by rw [h]⟩, fun h => Finset.ext fun a => (h.2 a).symm⟩
  | cons a l ih =>
      by_cases ha : a ∈ seen
      · simp [insertAll, ha]
      · simp only [insertAll, ha, ↓reduceIte, ih, List.nodup_cons, Finset.mem_insert, not_or,
          List.mem_cons, or_assoc]
        constructor
        · rintro ⟨hn, hl, hs⟩
          refine ⟨⟨fun h => (hl a h).1 rfl, hn⟩, ?_, fun b => by rw [hs]; tauto⟩
          rintro b (rfl | hb)
          · exact ha
          · exact (hl b hb).2
        · rintro ⟨⟨hna, hn⟩, hl, hs⟩
          refine ⟨hn, fun b hb => ⟨?_, hl b (.inr hb)⟩, fun b => by rw [hs]; tauto⟩
          rintro rfl; exact hna hb

end Lib
