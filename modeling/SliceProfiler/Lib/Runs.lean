import Mathlib.Data.List.Basic

/-!
# Runs of a partial step function

A run is a list of actions. The invariant rule takes an invariant through a run all of whose steps
meet a condition; under an invariant one condition may be replaced by another, and a property of all states of the
run by the exact condition on its steps; the rule of traces takes an invariant that also speaks of what the past
actions left behind. Along an endless run a goal is reached when a rank falls until then.
-/

namespace Lib

variable {σ α β : Type} {step : σ → α → Option σ} {C D : σ → α → Prop} {s s' : σ} {a : α}
  {l : List α}

/-- The state after the actions, when each of them is possible. -/
def run (step : σ → α → Option σ) (s : σ) (l : List α) : Option σ := l.foldlM step s

/-- `C` holds of each action of the run in the state in front of it. -/
def Along (step : σ → α → Option σ) (C : σ → α → Prop) : σ → List α → Prop
  | _, [] => True
  | s, a :: l => C s a ∧ ∀ s' ∈ step s a, Along step C s' l

instance Along.decidable (step : σ → α → Option σ) (C : σ → α → Prop) [∀ s a, Decidable (C s a)] :
    (s : σ) → (l : List α) → Decidable (Along step C s l)
  | _, [] => inferInstanceAs (Decidable True)
  | s, a :: l =>
      have : ∀ s', Decidable (Along step C s' l) := fun s' => Along.decidable step C s' l
      inferInstanceAs (Decidable (C s a ∧ ∀ s' ∈ step s a, Along step C s' l))

theorem run_cons : run step s (a :: l) = (step s a).bind fun s' => run step s' l := by
  simp [run]

theorem run_some (f : σ → α → σ) (s : σ) (l : List α) :
    run (fun s a => some (f s a)) s l = some (l.foldl f s) := by
  induction l generalizing s with
  | nil => rfl
  | cons a l ih => rw [run_cons, Option.bind_some, ih, List.foldl_cons]

theorem along_cons (hC : C s a) (hs : step s a = some s') (hl : Along step C s' l) : Along step C s (a :: l) := by
  refine ⟨hC, fun s₁ hs₁ => ?_⟩
  obtain rfl : s' = s₁ := Option.some.inj (hs.symm.trans hs₁)
  exact hl

theorem Along.of_append {rest : List α} (h : Along step C s (l ++ rest)) : Along step C s l := by
  induction l generalizing s with
  | nil => trivial
  | cons a l ih => exact ⟨h.1, fun s' hs' => ih (h.2 s' hs')⟩

theorem along_of_forall {P : α → Prop} (h : ∀ a ∈ l, P a) : Along step (fun _ a => P a) s l := by
  induction l generalizing s with
  | nil => trivial
  | cons a l ih =>
      exact ⟨h a (List.mem_cons_self ..), fun s' _ => ih fun b hb => h b (List.mem_cons_of_mem _ hb)⟩

theorem Along.and (hC : Along step C s l) (hD : Along step D s l) :
    Along step (fun s a => C s a ∧ D s a) s l := by
  induction l generalizing s with
  | nil => trivial
  | cons a l ih => exact ⟨⟨hC.1, hD.1⟩, fun s' hs' => ih (hC.2 s' hs') (hD.2 s' hs')⟩

/-- An invariant of the steps that meet the condition holds after a run that meets it. -/
theorem run_invariant (I : σ → Prop) (hstep : ∀ s a s', I s → C s a → step s a = some s' → I s') (hI : I s)
    (hC : Along step C s l) (h : run step s l = some s') : I s' := by
  induction l generalizing s with
  | nil => cases h; exact hI
  | cons a l ih =>
      rw [run_cons, Option.bind_eq_some_iff] at h
      obtain ⟨s₁, h₁, h₂⟩ := h
      exact ih (hstep s a s₁ hI hC.1 h₁) (hC.2 s₁ h₁) h₂

/-- What grows by at most `n` with each step is bounded by the length of a run. -/
theorem run_le (μ : σ → Nat) {n : Nat} (hstep : ∀ s a s', step s a = some s' → μ s' ≤ μ s + n)
    (h : run step s l = some s') : μ s' ≤ μ s + n * l.length := by
  induction l generalizing s with
  | nil => cases h; exact Nat.le_add_right _ _
  | cons a l ih =>
      rw [run_cons, Option.bind_eq_some_iff] at h
      obtain ⟨s₁, h₁, h₂⟩ := h
      calc μ s' ≤ μ s₁ + n * l.length := ih h₂
        _ ≤ μ s + n + n * l.length := Nat.add_le_add_right (hstep s a s₁ h₁) _
        _ = μ s + n * (a :: l).length := by rw [List.length_cons, Nat.mul_succ]; omega

/-- A rank that falls with each action that counts, and does not grow with the others, bounds how many of them count. -/
theorem run_rank (I : σ → Prop) (rank : σ → Nat) (counts : α → Bool)
    (hstep : ∀ s a s', I s → C s a → step s a = some s' → I s' ∧ rank s' + (if counts a then 1 else 0) ≤ rank s)
    (hI : I s) (hC : Along step C s l) (h : run step s l = some s') : l.countP counts + rank s' ≤ rank s := by
  induction l generalizing s with
  | nil => cases h; simp
  | cons a l ih =>
      rw [run_cons, Option.bind_eq_some_iff] at h
      obtain ⟨s₁, h₁, h₂⟩ := h
      obtain ⟨hI₁, hrank⟩ := hstep s a s₁ hI hC.1 h₁
      have hrest := ih hI₁ (hC.2 s₁ h₁) h₂
      rw [List.countP_cons]
      omega

/-- Two conditions that say the same under an invariant hold along the same runs. -/
theorem along_congr (I : σ → Prop) (hstep : ∀ s a s', I s → step s a = some s' → I s')
    (hCD : ∀ s a, I s → (C s a ↔ D s a)) (hI : I s) : Along step C s l ↔ Along step D s l := by
  induction l generalizing s with
  | nil => exact Iff.rfl
  | cons a l ih =>
      exact and_congr (hCD s a hI) (forall₂_congr fun s' hs' => ih (hstep s a s' hI hs'))

/-- Where the steps that meet a condition keep an invariant that implies `P`, and only they lead to `P`, each state of
a run has `P` exactly when the condition holds along it. -/
theorem along_iff (I P : σ → Prop) (hP : ∀ s, I s → P s)
    (hI : ∀ s a s', I s → C s a → step s a = some s' → I s')
    (hC : ∀ s a, I s → (∀ s', step s a = some s' → P s') → C s a) (hs : I s) :
    (∀ pre, pre <+: l → ∀ s', run step s pre = some s' → P s') ↔ Along step C s l := by
  constructor
  · induction l generalizing s with
    | nil => exact fun _ => trivial
    | cons a l ih =>
        intro h
        have hCa : C s a := hC s a hs fun s' hs' =>
          h [a] (List.cons_prefix_cons.mpr ⟨rfl, List.nil_prefix⟩) s' (by simp [run, hs'])
        refine ⟨hCa, fun s' hs' => ih (hI s a s' hs hCa hs') fun pre hpre s'' hrun => ?_⟩
        exact h (a :: pre) (List.cons_prefix_cons.mpr ⟨rfl, hpre⟩) s'' (by rw [run_cons, hs']; exact hrun)
  · rintro h pre ⟨rest, rfl⟩ s' hrun
    exact hP s' (run_invariant I hI hs h.of_append hrun)

/-- The rule for a total step function, where `P` need not follow from the invariant. -/
theorem along_some_iff {f : σ → α → σ} (I P : σ → Prop) (hP : ∀ s a, I s → (P (f s a) ↔ C s a))
    (hI : ∀ s a, I s → C s a → I (f s a)) (hs : I s) (hPs : P s) :
    (∀ pre, pre <+: l → P (pre.foldl f s)) ↔ Along (fun s a => some (f s a)) C s l := by
  rw [← along_iff (fun s => I s ∧ P s) P (fun _ h => h.2) ?_ ?_ ⟨hs, hPs⟩]
  · simp [run_some]
  · rintro s a _ ⟨h, -⟩ hC ⟨⟩
    exact ⟨hI s a h hC, (hP s a h).mpr hC⟩
  · rintro s a ⟨h, -⟩ hnext
    exact (hP s a h).mp (hnext _ rfl)

/-! ## Traces -/

/-- What the actions of the run leave behind, each in the state in front of it. -/
def trace (step : σ → α → Option σ) (out : σ → α → List β) : σ → List α → List β
  | _, [] => []
  | s, a :: l => out s a ++ ((step s a).map fun s' => trace step out s' l).getD []

/-- An invariant of the trace so far and the state holds after a run. -/
theorem run_trace {out : σ → α → List β} (I : List β → σ → Prop)
    (hstep : ∀ os s a s', I os s → step s a = some s' → I (os ++ out s a) s') (hI : I [] s)
    (h : run step s l = some s') : I (trace step out s l) s' := by
  suffices hpast : ∀ past, I past s → I (past ++ trace step out s l) s' from hpast [] hI
  clear hI
  induction l generalizing s with
  | nil =>
      intro past hI
      cases h
      rwa [trace, List.append_nil]
  | cons a l ih =>
      intro past hI
      rw [run_cons, Option.bind_eq_some_iff] at h
      obtain ⟨s₁, h₁, h₂⟩ := h
      rw [trace, h₁, Option.map_some, Option.getD_some, ← List.append_assoc]
      exact ih h₂ _ (hstep past s a s₁ hI h₁)

/-! ## Endless runs -/

/-- A state for each time, and the action that leads to the next one. -/
def Endless (step : σ → α → Option σ) (states : Nat → σ) (actions : Nat → α) : Prop :=
  ∀ n, step (states n) (actions n) = some (states (n + 1))

variable {states : Nat → σ} {actions : Nat → α} {n : Nat}

theorem Endless.run (h : Endless step states actions) (n m : Nat) :
    run step (states n) ((List.range' n m).map actions) = some (states (n + m)) := by
  induction m generalizing n with
  | zero => rfl
  | succ m ih =>
      rw [List.range'_succ, List.map_cons, run_cons, h n, Option.bind_some, ih (n + 1), Nat.add_assoc, Nat.add_comm 1 m]

theorem Endless.along (h : Endless step states actions) (hC : ∀ n, C (states n) (actions n)) (n m : Nat) :
    Along step C (states n) ((List.range' n m).map actions) := by
  induction m generalizing n with
  | zero => trivial
  | succ m ih => exact along_cons (hC n) (h n) (ih (n + 1))

/-- The states behind the first actions of a sequence; an action that is not possible changes nothing. -/
def statesFrom (step : σ → α → Option σ) (s : σ) (actions : Nat → α) : Nat → σ
  | 0 => s
  | n + 1 => (step (statesFrom step s actions n) (actions n)).getD (statesFrom step s actions n)

theorem endless_statesFrom (h : ∀ n, (step (statesFrom step s actions n) (actions n)).isSome) :
    Endless step (statesFrom step s actions) actions := by
  intro n
  obtain ⟨s', hs'⟩ := Option.isSome_iff_exists.mp (h n)
  rw [statesFrom, hs', Option.getD_some]

/-- An invariant of the steps that meet the condition holds at all later times. -/
theorem Endless.invariant (h : Endless step states actions) (C : σ → α → Prop) (I : σ → Prop)
    (hstep : ∀ s a s', I s → C s a → step s a = some s' → I s') (hC : ∀ n, C (states n) (actions n))
    (hI : I (states n)) {m : Nat} (hm : n ≤ m) : I (states m) := by
  obtain ⟨k, rfl⟩ := Nat.exists_eq_add_of_le hm
  exact run_invariant I hstep hI (h.along hC n k) (h.run n k)

/-- A goal is reached at some time, when an action that counts comes as long as it is not, and each of them makes a rank
fall that no other action lets grow. -/
theorem Endless.eventually (h : Endless step states actions) (I goal : σ → Prop) (rank : σ → Nat) (counts : α → Bool)
    (hstep : ∀ s a s', I s → C s a → step s a = some s' → I s' ∧ rank s' + (if counts a then 1 else 0) ≤ rank s)
    (hC : ∀ n, C (states n) (actions n)) (hI : I (states n))
    (hfair : ∀ m ≥ n, ¬ goal (states m) → ∃ k ≥ m, counts (actions k) = true) : ∃ m ≥ n, goal (states m) := by
  -- by induction on the rank: the first action that counts leads to a smaller one
  induction hr : rank (states n) using Nat.strongRecOn generalizing n with
  | ind r ih =>
    by_cases hgoal : goal (states n)
    · exact ⟨n, Nat.le_refl n, hgoal⟩
    · obtain ⟨k, hk, hcounts⟩ := hfair n (Nat.le_refl n) hgoal
      obtain ⟨d, rfl⟩ := Nat.exists_eq_add_of_le hk
      have hIk : I (states (n + d)) := h.invariant C I (fun s a s' hs hc ht => (hstep s a s' hs hc ht).1) hC hI hk
      have hrank := run_rank I rank counts hstep hI (h.along hC n d) (h.run n d)
      obtain ⟨hInext, hnext⟩ := hstep _ _ _ hIk (hC (n + d)) (h (n + d))
      rw [if_pos hcounts] at hnext
      obtain ⟨m, hm, hgoal⟩ := ih (rank (states (n + d + 1))) (by omega) hInext
        (fun m hm => hfair m (by omega)) rfl
      exact ⟨m, by omega, hgoal⟩

end Lib
