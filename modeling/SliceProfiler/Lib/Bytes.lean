import Mathlib.Algebra.Order.Group.Nat
import Mathlib.Data.List.TakeWhile

/-!
# Numbers as bytes

Fixed widths, the least significant byte first. Negative numbers are in two's complement.
-/

namespace Lib

/-- The `width` low bytes of a number. -/
def toLittleEndian : Nat → Nat → List UInt8
  | 0, _ => []
  | width + 1, n => UInt8.ofNat n :: toLittleEndian width (n / 256)

def ofLittleEndian : List UInt8 → Nat
  | [] => 0
  | b :: bytes => b.toNat + 256 * ofLittleEndian bytes

variable {width n : Nat} {bytes rest : List UInt8}

@[simp] theorem length_toLittleEndian (width n : Nat) : (toLittleEndian width n).length = width := by
  induction width generalizing n with
  | zero => rfl
  | succ width ih => rw [toLittleEndian, List.length_cons, ih]

theorem ofLittleEndian_toLittleEndian (h : n < 256 ^ width) : ofLittleEndian (toLittleEndian width n) = n := by
  induction width generalizing n with
  | zero =>
      rw [Nat.pow_zero] at h
      rw [toLittleEndian, ofLittleEndian]
      omega
  | succ width ih =>
      have hrest : n / 256 < 256 ^ width := Nat.div_lt_of_lt_mul (by rwa [Nat.pow_succ, Nat.mul_comm] at h)
      rw [toLittleEndian, ofLittleEndian, ih hrest, UInt8.toNat_ofNat']
      omega

theorem ofLittleEndian_lt (bytes : List UInt8) : ofLittleEndian bytes < 256 ^ bytes.length := by
  induction bytes with
  | nil => exact Nat.one_pos
  | cons b bytes ih =>
      have hb : b.toNat < 256 := b.toNat_lt
      rw [ofLittleEndian, List.length_cons, Nat.pow_succ]
      omega

theorem toLittleEndian_ofLittleEndian (bytes : List UInt8) :
    toLittleEndian bytes.length (ofLittleEndian bytes) = bytes := by
  induction bytes with
  | nil => rfl
  | cons b bytes ih =>
      have hb : b.toNat < 256 := b.toNat_lt
      have hdiv : (b.toNat + 256 * ofLittleEndian bytes) / 256 = ofLittleEndian bytes := by omega
      have hfirst : UInt8.ofNat (b.toNat + 256 * ofLittleEndian bytes) = b := by
        rw [← UInt8.toNat_inj, UInt8.toNat_ofNat']
        omega
      rw [List.length_cons, ofLittleEndian, toLittleEndian, hdiv, ih, hfirst]

/-! ## Signed numbers -/

/-- A number as a word of 32 bits. -/
def toWord32 (i : Int) : Nat := (i % 0x100000000).toNat

@[irreducible] def ofWord32 (n : Nat) : Int := Int.bmod n 0x100000000

theorem toWord32_lt (i : Int) : toWord32 i < 0x100000000 := by unfold toWord32; omega

theorem toWord32_cast (i : Int) : (toWord32 i : Int) = i % 0x100000000 := by unfold toWord32; omega

theorem ofWord32_toWord32 {i : Int} (hlow : -0x80000000 ≤ i) (hhigh : i < 0x80000000) :
    ofWord32 (toWord32 i) = i := by
  unfold ofWord32
  rw [toWord32_cast, Int.bmod_def]
  split
  · omega
  · omega

theorem toWord32_ofWord32 (h : n < 0x100000000) : toWord32 (ofWord32 n) = n := by
  unfold toWord32 ofWord32
  rw [Int.bmod_def]
  omega

theorem ofWord32_bounds (n : Nat) : -0x80000000 ≤ ofWord32 n ∧ ofWord32 n < 0x80000000 := by
  unfold ofWord32
  rw [Int.bmod_def]
  omega

/-! ## Chunks -/

variable {α : Type}

/-- The chunks of `size` elements; what is left behind them is skipped. -/
def chunksExact (size : Nat) (l : List α) : List (List α) :=
  (List.range (l.length / size)).map fun k => (l.drop (k * size)).take size

theorem chunksExact_cons {size : Nat} (hs : 0 < size) {chunk : List α} (hc : chunk.length = size) (l : List α) :
    chunksExact size (chunk ++ l) = chunk :: chunksExact size l := by
  have hlen : (chunk ++ l).length / size = l.length / size + 1 := by
    rw [List.length_append, hc, Nat.add_comm, Nat.add_div_right _ hs]
  rw [chunksExact, hlen, List.range_succ_eq_map, List.map_cons, List.map_map, Nat.zero_mul, List.drop_zero,
    List.take_left' hc, chunksExact]
  congr 1
  refine List.map_congr_left fun k _ => ?_
  have hdrop : (chunk ++ l).drop (size + k * size) = l.drop (k * size) := by
    rw [← List.drop_drop, ← hc, List.drop_left]
  rw [Function.comp_apply, Nat.succ_mul, Nat.add_comm, hdrop]

theorem chunksExact_flatten {size : Nat} (hs : 0 < size) {chunks : List (List α)}
    (h : ∀ c ∈ chunks, c.length = size) : chunksExact size chunks.flatten = chunks := by
  induction chunks with
  | nil => simp [chunksExact]
  | cons c chunks ih =>
      rw [List.flatten_cons, chunksExact_cons hs (h c (List.mem_cons_self ..)),
        ih fun c hc => h c (List.mem_cons_of_mem _ hc)]

theorem length_of_mem_chunksExact {size : Nat} {l c : List α} (h : c ∈ chunksExact size l) : c.length = size := by
  obtain ⟨k, hk, rfl⟩ := List.mem_map.mp h
  have hk : (k + 1) * size ≤ l.length := by
    calc (k + 1) * size ≤ l.length / size * size := Nat.mul_le_mul_right _ (List.mem_range.mp hk)
      _ ≤ l.length := Nat.div_mul_le_self ..
  rw [List.length_take, List.length_drop]
  rw [Nat.succ_mul] at hk
  omega

end Lib
