import SliceProfiler.Cli.View
import SliceProfiler.Core.Theorems

/-!
# What the arguments of `view` ask for
-/

namespace SliceProfiler.Cli

open Lib

variable {b : Build} {p : Profile} {q : Query} {a : ViewArgs} {text : String}

theorem parseThread_eq_ok {part : List Char} {tid : Nat} :
    parseThread part = .ok tid ↔ Numeral (trim isWhitespace part) tid ∧ tid ≤ u32Max := by
  rw [parseThread, mapError_eq_ok, parseUnsigned_eq_ok]

theorem parseThreads_eq_ok {tids : Finset Nat} : parseThreads text = .ok tids ↔ ThreadList text tids := by
  simp only [parseThreads, bind_eq_ok, mapM_eq_ok, parseThread_eq_ok, Except.ok.injEq]
  exact exists_congr fun _ => and_congr_right fun _ => eq_comm

theorem parsePercentile_eq_ok {r : PercentileRange} : parsePercentile text = .ok r ↔ PercentileText text r := by
  simp only [parsePercentile, parseBound, bind_eq_ok, require_eq_ok, mapError_eq_ok, parseUnsigned_eq_ok, ensure_eq_ok,
    PercentileText, Prod.exists]
  constructor
  · rintro ⟨low, high, hs, l, ⟨hl, -⟩, h, ⟨hh, -⟩, -, hrange, hr⟩
    obtain rfl := Except.ok.inj hr
    simp only [not_or, not_le, not_lt, ge_iff_le, gt_iff_lt] at hrange
    exact ⟨low, high, hs, hl, hh, hrange.1, hrange.2⟩
  · rintro ⟨low, high, hs, hl, hh, hlt, hle⟩
    refine ⟨low, high, hs, r.low, ⟨hl, by omega⟩, r.high, ⟨hh, by omega⟩, (), ?_, rfl⟩
    omega

theorem transpose_eq_ok {α β ε : Type} {parse : α → Except ε β} {o : Option α} {r : Option β} :
    transpose parse o = .ok r ↔ Option.Rel (fun v w => parse v = .ok w) o r := by
  cases o with
  | none =>
      constructor
      · rintro ⟨⟩
        exact .none
      · rintro ⟨⟩
        rfl
  | some v =>
      rw [transpose]
      constructor
      · intro h
        cases hv : parse v with
        | error e => rw [hv] at h; cases h
        | ok w => rw [hv] at h; cases h; exact .some hv
      · rintro (hv | _)
        rw [hv]
        rfl

/-- A range that the parser returns is not empty. -/
theorem parseTime_lt {bounds : Option TimeRange} {r : TimeRange} (h : parseTime b text bounds = .ok r) :
    r.fromNs < r.toNs := by
  simp only [parseTime, bind_eq_ok, ensure_eq_ok] at h
  obtain ⟨_, -, _, -, _, -, fromNs, -, _, -, toNs, -, _, hlt, hr⟩ := h
  cases hr
  exact not_le.mp hlt

theorem viewQuery_eq_ok : viewQuery b p a = .ok q ↔ a.Asks b p q := by
  simp only [viewQuery, bind_eq_ok, require_eq_ok, transpose_eq_ok, parseThreads_eq_ok, parsePercentile_eq_ok]
  constructor
  · rintro ⟨f, hf, threads, hthreads, time, htime, percentile, hpercentile, hq⟩
    cases hq
    exact ⟨by rw [hf]; rfl, hthreads, htime, hpercentile, rfl⟩
  · rintro ⟨hf, hthreads, htime, hpercentile, hmetric⟩
    obtain ⟨f, hf, hid⟩ := Option.map_eq_some_iff.mp hf
    refine ⟨f, hf, q.threads, hthreads, q.time, htime, q.percentile, hpercentile, ?_⟩
    rw [hid, ← hmetric]

/-- The query of the arguments passes the checks of a query. -/
theorem ViewArgs.Asks.executes (h : a.Asks b p q) (hv : p.validate = .ok ()) : ∃ r, executeQuery p q = .ok r := by
  obtain ⟨low, high, -, -, -, hlt, hle⟩ := h.percentile
  refine (executeQuery_ok (Profile.WellFormed.of_validate hv) hlt hle fun t ht => ?_).imp fun _ hr => hr.1
  have htime := h.time
  rw [ht] at htime
  generalize a.time = text at htime
  cases htime with
  | some hrange => exact parseTime_lt hrange

end SliceProfiler.Cli
