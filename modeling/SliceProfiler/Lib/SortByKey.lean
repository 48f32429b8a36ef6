import Mathlib.Data.List.Induction
import Mathlib.Data.List.Perm.Lattice
import Mathlib.Data.List.Sort
import Mathlib.Data.Prod.Lex

/-!
# Stable sorting by a key

`sortByKey` is the stable sort of a list by a key, and the rank of an element is the number of
elements with a smaller key. When the keys are distinct, the rank is the position in the sorted list.
-/

namespace Lib

variable {α κ : Type} [LinearOrder κ]

def sortByKey (key : α → κ) (l : List α) : List α :=
  l.insertionSort fun a b => key a ≤ key b

theorem sortByKey_perm (key : α → κ) (l : List α) : (sortByKey key l).Perm l :=
  List.perm_insertionSort _ l

@[simp] theorem mem_sortByKey {key : α → κ} {l : List α} {a : α} : a ∈ sortByKey key l ↔ a ∈ l :=
  (sortByKey_perm key l).mem_iff

@[simp] theorem length_sortByKey {key : α → κ} {l : List α} :
    (sortByKey key l).length = l.length :=
  (sortByKey_perm key l).length_eq

theorem sortByKey_sorted (key : α → κ) (l : List α) :
    (sortByKey key l).Pairwise fun a b => key a ≤ key b := by
  have : Std.Total (fun a b : α => key a ≤ key b) := ⟨fun a b => le_total _ _⟩
  have : IsTrans α (fun a b : α => key a ≤ key b) := ⟨fun _ _ _ h h' => le_trans h h'⟩
  exact List.pairwise_insertionSort _ l

/-- Two lists with the same elements have the same sequence of keys once sorted. -/
theorem sortByKey_keys_of_perm {key : α → κ} {l₁ l₂ : List α} (h : l₁.Perm l₂) :
    (sortByKey key l₁).map key = (sortByKey key l₂).map key := by
  refine @List.Perm.eq_of_pairwise _ (· ≤ ·) _ _ (fun _ _ _ _ => le_antisymm) ?_ ?_ ?_
  · exact List.pairwise_map.mpr (sortByKey_sorted key l₁)
  · exact List.pairwise_map.mpr (sortByKey_sorted key l₂)
  · exact (((sortByKey_perm key l₁).trans h).trans (sortByKey_perm key l₂).symm).map key

theorem sortByKey_strict {key : α → κ} {l : List α} (h : (l.map key).Nodup) :
    (sortByKey key l).Pairwise fun a b => key a < key b := by
  have hn : ((sortByKey key l).map key).Nodup := ((sortByKey_perm key l).map key).nodup_iff.mpr h
  exact (sortByKey_sorted key l).imp₂ (fun _ _ hle hne => lt_of_le_of_ne hle hne)
    (List.pairwise_map.mp hn)

/-- With distinct keys the order of the elements before the sort does not matter. -/
theorem sortByKey_of_perm {key : α → κ} {l₁ l₂ : List α} (h : l₁.Perm l₂) (hn : (l₁.map key).Nodup) :
    sortByKey key l₁ = sortByKey key l₂ := by
  have hp : (sortByKey key l₁).Perm (sortByKey key l₂) :=
    ((sortByKey_perm key l₁).trans h).trans (sortByKey_perm key l₂).symm
  exact hp.eq_of_pairwise (fun _ _ _ _ hab hba => absurd hab hba.asymm) (sortByKey_strict hn)
    (sortByKey_strict ((h.map key).nodup_iff.mp hn))

/-! ## Rank -/

/-- The number of elements of `l` with a key below `k`. -/
def rank (key : α → κ) (l : List α) (k : κ) : Nat := l.countP fun a => key a < k

theorem rank_perm {key : α → κ} {l₁ l₂ : List α} (h : l₁.Perm l₂) (k : κ) :
    rank key l₁ k = rank key l₂ k :=
  h.countP_eq _

/-- In a list with increasing keys, an element stands at its rank. -/
theorem rank_getElem {key : α → κ} {l : List α} (h : l.Pairwise fun a b => key a < key b) {i : Nat}
    (hi : i < l.length) : rank key l (key l[i]) = i := by
  induction l generalizing i with
  | nil => simp at hi
  | cons a l ih =>
      obtain ⟨ha, hl⟩ := List.pairwise_cons.mp h
      cases i with
      | zero =>
          have h0 : l.countP (fun b => decide (key b < key a)) = 0 :=
            List.countP_eq_zero.mpr fun b hb => by simpa using (ha b hb).le
          simp [rank, h0]
      | succ i =>
          have hi' : i < l.length := by simpa using hi
          have := ih hl hi'
          simp [rank, ha _ (List.getElem_mem hi')] at this ⊢
          exact this

/-- The slice from position `s` to position `e` holds the elements with a rank in `s..e`. -/
theorem mem_slice_iff {key : α → κ} {l : List α} (h : l.Pairwise fun a b => key a < key b)
    {s e : Nat} {a : α} :
    a ∈ (l.drop s).take (e - s) ↔ a ∈ l ∧ s ≤ rank key l (key a) ∧ rank key l (key a) < e := by
  constructor
  · intro ha
    obtain ⟨i, hi, rfl⟩ := List.mem_iff_getElem.mp ha
    simp only [List.length_take, List.length_drop] at hi
    simp only [List.getElem_take, List.getElem_drop]
    rw [rank_getElem h (by omega)]
    exact ⟨List.getElem_mem _, by omega, by omega⟩
  · rintro ⟨ha, hs, he⟩
    obtain ⟨i, hi, rfl⟩ := List.mem_iff_getElem.mp ha
    rw [rank_getElem h hi] at hs he
    refine List.mem_iff_getElem.mpr ⟨i - s, by simp; omega, ?_⟩
    simp only [List.getElem_take, List.getElem_drop]
    congr 1; omega

/-- The slice from position `s` to position `e` of a list without repetitions. -/
theorem getElem_mem_slice_iff {l : List α} (h : l.Nodup) {s e i : Nat} (hi : i < l.length) :
    l[i] ∈ (l.drop s).take (e - s) ↔ s ≤ i ∧ i < e := by
  constructor
  · intro hm
    obtain ⟨j, hj, heq⟩ := List.mem_iff_getElem.mp hm
    simp only [List.length_take, List.length_drop] at hj
    simp only [List.getElem_take, List.getElem_drop] at heq
    have := (h.getElem_inj_iff).mp heq
    omega
  · rintro ⟨hs, he⟩
    refine List.mem_iff_getElem.mpr ⟨i - s, by simp; omega, ?_⟩
    simp only [List.getElem_take, List.getElem_drop]
    congr 1; omega

/-- What is strictly between two elements of a slice of a sorted list is in the slice. -/
theorem mem_slice_of_between {l : List κ} (h : l.Pairwise (· ≤ ·)) {s n : Nat} {x y z : κ} (hx : x ∈ (l.drop s).take n)
    (hz : z ∈ (l.drop s).take n) (hy : y ∈ l) (hxy : x < y) (hyz : y < z) : y ∈ (l.drop s).take n := by
  have hsplit : l = l.take s ++ ((l.drop s).take n ++ (l.drop s).drop n) := by
    rw [List.take_append_drop, List.take_append_drop]
  rw [hsplit] at h hy
  obtain ⟨-, hback, hfront⟩ := List.pairwise_append.mp h
  rcases List.mem_append.mp hy with hy | hy
  · exact absurd (hfront y hy x (List.mem_append_left _ hx)) hxy.not_ge
  · rcases List.mem_append.mp hy with hy | hy
    · exact hy
    · exact absurd ((List.pairwise_append.mp hback).2.2 z hz y hy) hyz.not_ge

/-- In a list with increasing keys, the last element with a key at most `k` has the greatest such key. -/
theorem find_reverse_le {key : α → κ} {l : List α} (h : l.Pairwise fun a b => key a < key b) {k : κ} {a : α} :
    l.reverse.find? (fun b => key b ≤ k) = some a ↔
      a ∈ l ∧ key a ≤ k ∧ ∀ b ∈ l, key b ≤ k → key b ≤ key a := by
  induction l using List.reverseRecOn with
  | nil => simp
  | append_singleton l c ih =>
      obtain ⟨hl, -, hc⟩ := List.pairwise_append.mp h
      have hlt : ∀ b ∈ l, key b < key c := fun b hb => hc b hb c (List.mem_singleton.mpr rfl)
      rw [List.reverse_append, List.reverse_singleton, List.singleton_append, List.find?_cons]
      by_cases hk : key c ≤ k
      · simp only [hk, decide_true, Option.some.injEq]
        constructor
        · rintro rfl
          refine ⟨List.mem_append_right l (List.mem_singleton.mpr rfl), hk, fun b hb _ => ?_⟩
          rcases List.mem_append.mp hb with hb | hb
          · exact (hlt b hb).le
          · rw [List.mem_singleton.mp hb]
        · rintro ⟨ha, -, hmax⟩
          rcases List.mem_append.mp ha with ha | ha
          · exact absurd (hmax c (List.mem_append_right l (List.mem_singleton.mpr rfl)) hk)
              (hlt a ha).not_ge
          · exact (List.mem_singleton.mp ha).symm
      · simp only [hk, decide_false, ih hl, List.mem_append, List.mem_singleton]
        constructor
        · rintro ⟨ha, hak, hmax⟩
          refine ⟨.inl ha, hak, fun b hb hbk => ?_⟩
          rcases hb with hb | rfl
          · exact hmax b hb hbk
          · exact absurd hbk hk
        · rintro ⟨ha | rfl, hak, hmax⟩
          · exact ⟨ha, hak, fun b hb => hmax b (.inl hb)⟩
          · exact absurd hak hk

/-! ## Prefixes of a sorted list -/

section Prefix

variable {r : α → α → Prop} {p : α → Bool} {l : List α}

/-- A downward closed predicate holds of a prefix of a sorted list. -/
theorem takeWhile_eq_filter (h : l.Pairwise r) (hp : ∀ a b, r a b → p b = true → p a = true) :
    l.takeWhile p = l.filter p := by
  induction l with
  | nil => rfl
  | cons a l ih =>
      obtain ⟨ha, hl⟩ := List.pairwise_cons.mp h
      cases hpa : p a with
      | true => simp [hpa, ih hl]
      | false =>
          have hnone : l.filter p = [] :=
            List.filter_eq_nil_iff.mpr fun b hb hpb => by simp [hp a b (ha b hb) hpb] at hpa
          simp [hpa, hnone]

theorem getElem_iff_lt_countP (h : l.Pairwise r) (hp : ∀ a b, r a b → p b = true → p a = true) {i : Nat}
    (hi : i < l.length) : p l[i] = true ↔ i < l.countP p := by
  induction l generalizing i with
  | nil => simp at hi
  | cons a l ih =>
      obtain ⟨ha, hl⟩ := List.pairwise_cons.mp h
      cases hpa : p a with
      | true =>
          cases i with
          | zero => simp [hpa]
          | succ i => simpa [hpa] using ih hl (by simpa using hi)
      | false =>
          have hnone : l.countP p = 0 :=
            List.countP_eq_zero.mpr fun b hb hpb => by simp [hp a b (ha b hb) hpb] at hpa
          cases i with
          | zero => simp [hpa, hnone]
          | succ i =>
              have := ih hl (i := i) (by simpa using hi)
              simpa [hpa, hnone] using this

end Prefix

/-! ## Removal of consecutive duplicates -/

section Dedup

variable {α κ : Type} [DecidableEq κ] (key : α → κ)

/-- Keeps `a` and drops the elements that follow it with the same key as the last one kept. -/
def dedupFrom (a : α) : List α → List α
  | [] => [a]
  | b :: l => if key b = key a then dedupFrom a l else a :: dedupFrom b l

def dedupByKey : List α → List α
  | [] => []
  | a :: l => dedupFrom key a l

variable {key}

theorem dedupFrom_sublist (a : α) (l : List α) : (dedupFrom key a l).Sublist (a :: l) := by
  induction l generalizing a with
  | nil => simp [dedupFrom]
  | cons b l ih =>
      unfold dedupFrom; split
      · exact (ih a).trans ((List.sublist_cons_self b l).cons_cons a)
      · exact (ih b).cons_cons a

theorem dedupByKey_sublist (l : List α) : (dedupByKey key l).Sublist l := by
  cases l with
  | nil => exact List.Sublist.slnil
  | cons a l => exact dedupFrom_sublist a l

theorem mem_keys_dedupFrom (a : α) (l : List α) {k : κ} :
    k ∈ (dedupFrom key a l).map key ↔ k ∈ (a :: l).map key := by
  induction l generalizing a with
  | nil => simp [dedupFrom]
  | cons b l ih =>
      unfold dedupFrom; split
      · rename_i hb
        rw [ih]; simp [hb]
      · simp only [List.map_cons, List.mem_cons, ih]

theorem mem_keys_dedupByKey {l : List α} {k : κ} :
    k ∈ (dedupByKey key l).map key ↔ k ∈ l.map key := by
  cases l with
  | nil => simp [dedupByKey]
  | cons a l => exact mem_keys_dedupFrom a l

end Dedup

/-- On a sorted list the keys that remain increase. -/
theorem dedupByKey_strict {key : α → κ} {l : List α} (h : l.Pairwise fun a b => key a ≤ key b) :
    (dedupByKey key l).Pairwise fun a b => key a < key b := by
  have step : ∀ (l : List α) (a : α), (a :: l).Pairwise (fun a b => key a ≤ key b) →
      (dedupFrom key a l).Pairwise fun a b => key a < key b := by
    intro l
    induction l with
    | nil => intro a _; simp [dedupFrom]
    | cons b l ih =>
        intro a h
        obtain ⟨ha, hbl⟩ := List.pairwise_cons.mp h
        obtain ⟨hb, hl⟩ := List.pairwise_cons.mp hbl
        unfold dedupFrom; split
        · exact ih a (List.pairwise_cons.mpr ⟨fun c hc => ha c (List.mem_cons_of_mem _ hc), hl⟩)
        · rename_i hne
          refine List.pairwise_cons.mpr ⟨?_, ih b hbl⟩
          intro c hc
          have hab : key a < key b := lt_of_le_of_ne (ha b List.mem_cons_self) (Ne.symm hne)
          rcases List.mem_cons.mp ((dedupFrom_sublist b l).subset hc) with rfl | hc
          · exact hab
          · exact hab.trans_le (hb c hc)
  cases l with
  | nil => exact List.Pairwise.nil
  | cons a l => exact step l a h

end Lib
