import Mathlib.Data.List.GetD
import Mathlib.Data.Nat.Init
import Mathlib.Tactic.Ring

/-!
# Fixed-size byte arrays with little-endian fields

`Bytes n` is an array of `n` bytes. Fields of any width are read and written little-endian at a
byte offset, as a C program reads a packed structure in a buffer: `rdle b i w` is the field of `w`
bytes at offset `i`, `wrle b i v w` stores `v` there, truncated to the width. A field reads back
what was stored in it (`rdle_wrle_self`) and no store changes a field disjoint from it
(`rdle_wrle_of_disjoint`). `put` stores a list of bytes.
-/

/-- Arrays of `n` bytes. -/
abbrev Bytes (n : ℕ) : Type := Fin n → UInt8

namespace Bytes

open List Nat

variable {n : ℕ}

/-- The array of zero bytes. -/
def zero : Bytes n := fun _ => 0

/-- The byte at offset `i`, as a number; zero past the end. -/
def rd8 (b : Bytes n) (i : ℕ) : ℕ := if h : i < n then (b ⟨i, h⟩).toNat else 0

/-- The byte at offset `i`; zero past the end. -/
def get (b : Bytes n) (i : ℕ) : UInt8 := if h : i < n then b ⟨i, h⟩ else 0

/-- Store the low byte of `v` at offset `i`. -/
def wr8 (b : Bytes n) (i v : ℕ) : Bytes n := fun j => if j.val = i then UInt8.ofNat v else b j

/-- The little-endian field of `w` bytes at offset `i`. -/
def rdle (b : Bytes n) (i : ℕ) : ℕ → ℕ
  | 0 => 0
  | w + 1 => rd8 b i + 256 * rdle b (i + 1) w

/-- Store `v` in the little-endian field of `w` bytes at offset `i`. -/
def wrle (b : Bytes n) (i v : ℕ) : ℕ → Bytes n
  | 0 => b
  | w + 1 => wrle (wr8 b i v) (i + 1) (v / 256) w

/-- Store the bytes `l` at offset `i`; what does not fit is dropped. -/
def put (b : Bytes n) (i : ℕ) (l : List UInt8) : Bytes n := fun j =>
  if i ≤ j.val then l.getD (j.val - i) (b j) else b j

/-- The `w` bytes at offset `i`; zeros past the end. -/
def slice (b : Bytes n) (i w : ℕ) : List UInt8 :=
  (List.range w).map fun k => if h : i + k < n then b ⟨i + k, h⟩ else 0

theorem rd8_lt (b : Bytes n) (i : ℕ) : rd8 b i < 256 := by
  unfold rd8
  split
  · exact UInt8.toNat_lt _
  · omega

theorem ext_rd8 {b b' : Bytes n} (h : ∀ i < n, rd8 b i = rd8 b' i) : b = b' := by
  funext j
  have := h j.val j.isLt
  simp only [rd8, j.isLt, dite_true] at this
  exact UInt8.toNat_inj.1 this

theorem rd8_wr8_self (b : Bytes n) {i : ℕ} (v : ℕ) (hi : i < n) :
    rd8 (wr8 b i v) i = v % 256 := by
  simp [rd8, wr8, hi]

theorem rd8_wr8_of_ne (b : Bytes n) {i j : ℕ} (v : ℕ) (h : j ≠ i) :
    rd8 (wr8 b i v) j = rd8 b j := by
  simp [rd8, wr8, h]

theorem rdle_lt (b : Bytes n) (i w : ℕ) : rdle b i w < 256 ^ w := by
  induction w generalizing i with
  | zero => simp [rdle]
  | succ w ih =>
    have h₁ := rd8_lt b i
    have h₂ := ih (i + 1)
    rw [rdle, pow_succ]
    omega

theorem rd8_wrle_of_disjoint (b : Bytes n) {i j w : ℕ} (v : ℕ) (h : j < i ∨ i + w ≤ j) :
    rd8 (wrle b i v w) j = rd8 b j := by
  induction w generalizing b i v with
  | zero => rfl
  | succ w ih =>
    rw [wrle, ih _ _ (by omega), rd8_wr8_of_ne _ _ (by omega)]

/-- A field reads back the value stored in it, truncated to its width. -/
theorem rdle_wrle_self (b : Bytes n) {i w : ℕ} (v : ℕ) (h : i + w ≤ n) :
    rdle (wrle b i v w) i w = v % 256 ^ w := by
  induction w generalizing b i v with
  | zero => simp [rdle, mod_one]
  | succ w ih =>
    rw [rdle, wrle, ih _ _ (by omega), rd8_wrle_of_disjoint _ _ (by omega),
      rd8_wr8_self _ _ (by omega), pow_succ, mul_comm (256 ^ w), mod_mul]

theorem rdle_congr {b b' : Bytes n} {i w : ℕ} (h : ∀ j, i ≤ j → j < i + w → rd8 b j = rd8 b' j) :
    rdle b i w = rdle b' i w := by
  induction w generalizing i with
  | zero => rfl
  | succ w ih =>
    rw [rdle, rdle, h i le_rfl (by omega), ih fun j h₁ h₂ => h j (by omega) (by omega)]

/-- A store changes no field disjoint from the one it writes. -/
theorem rdle_wrle_of_disjoint (b : Bytes n) {i j w w' : ℕ} (v : ℕ)
    (h : j + w' ≤ i ∨ i + w ≤ j) : rdle (wrle b i v w) j w' = rdle b j w' :=
  rdle_congr fun k h₁ h₂ => rd8_wrle_of_disjoint b v (by omega)

@[simp] theorem rd8_zero (i : ℕ) : rd8 (zero : Bytes n) i = 0 := by
  simp [rd8, zero]

@[simp] theorem rdle_zero (i w : ℕ) : rdle (zero : Bytes n) i w = 0 := by
  induction w generalizing i with
  | zero => rfl
  | succ w ih => simp [rdle, ih]

theorem rd8_put_of_disjoint (b : Bytes n) {i j : ℕ} {l : List UInt8}
    (h : j < i ∨ i + l.length ≤ j) : rd8 (put b i l) j = rd8 b j := by
  unfold rd8 put
  split
  · by_cases hi : i ≤ j
    · simp only [hi, ite_true]
      rw [getD_eq_default _ _ (by omega)]
    · simp only [hi, ite_false]
  · rfl

theorem rd8_put_of_mem (b : Bytes n) {i k : ℕ} {l : List UInt8} (hk : k < l.length)
    (hn : i + k < n) : rd8 (put b i l) (i + k) = (l.getD k 0).toNat := by
  unfold rd8 put
  simp [hn, List.getElem?_eq_getElem hk]

theorem slice_eq_map_get (b : Bytes n) (i w : ℕ) : slice b i w = (List.range w).map fun k => b.get (i + k) :=
  rfl

theorem get_put_of_disjoint (b : Bytes n) {i j : ℕ} {l : List UInt8} (h : j < i ∨ i + l.length ≤ j) :
    (put b i l).get j = b.get j := by
  unfold get put
  split
  · by_cases hi : i ≤ j
    · simp only [hi, ite_true]
      rw [getD_eq_default _ _ (by omega)]
    · simp only [hi, ite_false]
  · rfl

theorem get_put_of_mem (b : Bytes n) {i k : ℕ} {l : List UInt8} (hk : k < l.length) (hn : i + k < n) :
    (put b i l).get (i + k) = l.getD k 0 := by
  unfold get put
  simp [hn, List.getElem?_eq_getElem hk]

/-- A slice has a zero where the array has one. -/
theorem zero_mem_slice {b : Bytes n} {i w : ℕ} : (0 : UInt8) ∈ slice b i w ↔ ∃ k < w, rd8 b (i + k) = 0 := by
  have hbyte : ∀ k, b.get (i + k) = 0 ↔ rd8 b (i + k) = 0 := by
    intro k
    unfold get rd8
    split
    · exact UInt8.toNat_inj.symm
    · exact ⟨fun _ => rfl, fun _ => rfl⟩
  simp only [slice_eq_map_get, mem_map, mem_range, hbyte]

end Bytes
