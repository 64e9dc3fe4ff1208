import Mathlib.Data.Nat.Digits.Lemmas

/-!
# Printing numbers

`printint` of `printf.c`, in the kernel and in the user library. It stores the digits of a 64-bit number
in a buffer of 20 bytes, the last one first, and then emits the buffer backwards. The two functions differ
in the letters of the digits from ten on.
-/

namespace Xv6

open List Option Nat

/-- `digits[]` of the kernel, `0123456789abcdef`. -/
def kernelDigits (d : ℕ) : UInt8 := UInt8.ofNat (if d < 10 then 48 + d else 87 + d)

/-- `digits[]` of the user library, `0123456789ABCDEF`. -/
def userDigits (d : ℕ) : UInt8 := UInt8.ofNat (if d < 10 then 48 + d else 55 + d)

/-- `buf[i++] = c`, where `buf` are the bytes stored so far. There is no byte with the index 20. -/
def storeDigit (buf : List UInt8) (c : UInt8) : Option (List UInt8) :=
  if buf.length < 20 then some (buf ++ [c]) else none

/-- The loop over the digits of `x`. The first argument bounds the number of passes. -/
def digitLoop (digits : ℕ → UInt8) (base : ℕ) : ℕ → ℕ → List UInt8 → Option (List UInt8)
  | 0, _, _ => none
  | fuel + 1, x, buf => do
    let buf ← storeDigit buf (digits (x % base))
    if x / base ≠ 0 then digitLoop digits base fuel (x / base) buf else pure buf

/-- The characters that `printint` emits, with `x` as a number of type `unsigned long long`. -/
def printint (digits : ℕ → UInt8) (xx : ℤ) (base : ℕ) (sign : Bool) : Option (List UInt8) := do
  let neg := sign && decide (xx < 0)
  let x := ((if neg then -xx else xx) % 2 ^ 64).toNat
  let buf ← digitLoop digits base 20 x []
  let buf ← if neg then storeDigit buf 45 else pure buf
  pure buf.reverse

def kernelPrintint : ℤ → ℕ → Bool → Option (List UInt8) := printint kernelDigits

def userPrintint : ℤ → ℕ → Bool → Option (List UInt8) := printint userDigits

/-- `ds` is the numeral of `x`, the most significant digit first. -/
structure IsNumeral (base x : ℕ) (ds : List ℕ) : Prop where
  lt : ∀ d ∈ ds, d < base
  value : Nat.ofDigits base ds.reverse = x
  canonical : ds = [0] ∨ ∃ d ds', ds = d :: ds' ∧ d ≠ 0

variable {digits : ℕ → UInt8} {base : ℕ}

/-- The digits of `x` in the order in which the loop finds them. -/
def loopDigits (base x : ℕ) : List ℕ := if x = 0 then [0] else Nat.digits base x

theorem loopDigits_eq (hb : 1 < base) (x : ℕ) :
    loopDigits base x = x % base :: if x / base = 0 then [] else loopDigits base (x / base) := by
  by_cases hx : x = 0
  · subst hx
    simp [loopDigits]
  · rw [loopDigits, if_neg hx, digits_def' hb (Nat.pos_of_ne_zero hx)]
    by_cases hq : x / base = 0
    · rw [if_pos hq, hq, digits_zero]
    · rw [if_neg hq, loopDigits, if_neg hq]

/-- They are the numeral of `x`, backwards. -/
theorem isNumeral_loopDigits (hb : 1 < base) (x : ℕ) : IsNumeral base x (loopDigits base x).reverse := by
  by_cases hx : x = 0
  · subst hx
    exact ⟨fun d hd => by simp [loopDigits] at hd; omega, rfl, .inl rfl⟩
  · rw [loopDigits, if_neg hx]
    refine ⟨fun d hd => digits_lt_base hb (mem_reverse.1 hd), ?_, .inr ?_⟩
    · rw [reverse_reverse, ofDigits_digits]
    · have hne : digits base x ≠ [] := digits_ne_nil_iff_ne_zero.2 hx
      refine ⟨_, (digits base x).dropLast.reverse, ?_, getLast_digit_ne_zero base hx⟩
      rw [reverse_eq_cons_iff, reverse_reverse, dropLast_append_getLast hne]

/-- A number below `base ^ (k + 1)` takes at most `k + 1` passes and as many bytes of the buffer. -/
theorem digitLoop_eq (hb : 1 < base) {k fuel x : ℕ} {buf : List UInt8} (hx : x < base ^ (k + 1))
    (hfuel : k < fuel) (hroom : buf.length + k < 20) :
    digitLoop digits base fuel x buf = some (buf ++ (loopDigits base x).map digits) ∧
      (loopDigits base x).length ≤ k + 1 := by
  induction k generalizing fuel x buf with
  | zero =>
    obtain ⟨fuel, rfl⟩ : ∃ f, fuel = f + 1 := ⟨fuel - 1, by omega⟩
    have hq : x / base = 0 := div_eq_of_lt (by simpa using hx)
    rw [loopDigits_eq hb, digitLoop, storeDigit, if_pos (by omega), hq]
    simp
  | succ k ih =>
    obtain ⟨fuel, rfl⟩ : ∃ f, fuel = f + 1 := ⟨fuel - 1, by omega⟩
    rw [loopDigits_eq hb, digitLoop, storeDigit, if_pos (by omega)]
    by_cases hq : x / base = 0
    · simp [hq]
    · have hlt : x / base < base ^ (k + 1) := Nat.div_lt_of_lt_mul (by rwa [← Nat.pow_succ'])
      obtain ⟨e, hlen⟩ := @ih fuel (x / base) (buf ++ [digits (x % base)]) hlt (by omega)
        (by rw [length_append, length_singleton]; omega)
      refine ⟨?_, ?_⟩
      · simp only [bind_eq_bind, bind_some, ne_eq, hq, not_false_eq_true, if_true, if_false, e,
          map_cons, append_assoc, singleton_append]
      · rw [if_neg hq, length_cons]
        omega

/-- What is printed of a number of 64 bits in base 10 or 16: a sign only if it is negative and printed as a
signed number, and then the numeral of its absolute value, or of its value modulo `2 ^ 64`. -/
theorem printint_eq {xx : ℤ} (hlow : -2 ^ 63 ≤ xx) (hhigh : xx < 2 ^ 63) (hbase : base = 10 ∨ base = 16)
    (sign : Bool) : ∃ ds, IsNumeral base (if sign = true ∧ xx < 0 then -xx else xx % 2 ^ 64).toNat ds ∧
      printint digits xx base sign =
        some ((if sign = true ∧ xx < 0 then [45] else []) ++ ds.map digits) := by
  have hb : 1 < base := by omega
  have hpow : 2 ^ 63 < base ^ (18 + 1) ∧ 2 ^ 64 ≤ base ^ (19 + 1) := by
    rcases hbase with rfl | rfl <;> decide
  by_cases hneg : sign = true ∧ xx < 0
  · refine ⟨_, isNumeral_loopDigits hb _, ?_⟩
    have hx : (-xx % 2 ^ 64).toNat = (-xx).toNat := by omega
    obtain ⟨e, hlen⟩ := @digitLoop_eq digits base hb 18 20 (-xx).toNat [] (by omega) (by decide) (by decide)
    rw [printint, hneg.1, decide_eq_true hneg.2]
    simp only [Bool.and_true, if_true, hx, e, hneg, and_self, nil_append, Option.bind_eq_bind,
      Option.bind_some, storeDigit, length_map, if_pos (show (loopDigits base (-xx).toNat).length < 20 by omega)]
    simp
  · refine ⟨_, isNumeral_loopDigits hb _, ?_⟩
    have hneg' : (sign && decide (xx < 0)) = false := by simpa using hneg
    obtain ⟨e, -⟩ := @digitLoop_eq digits base hb 19 20 (xx % 2 ^ 64).toNat [] (by omega) (by decide) (by decide)
    rw [printint, hneg']
    simp only [Bool.false_eq_true, if_false, e, if_neg hneg, nil_append, Option.bind_eq_bind,
      Option.bind_some, Option.pure_def]
    simp

/-- Both functions print every 64-bit number exactly, and store no byte beyond the index 19. -/
theorem printint_exact {xx : ℤ} (hlow : -2 ^ 63 ≤ xx) (hhigh : xx < 2 ^ 63)
    (hbase : base = 10 ∨ base = 16) (sign : Bool) :
    (∃ ds, IsNumeral base (if sign = true ∧ xx < 0 then -xx else xx % 2 ^ 64).toNat ds ∧
      kernelPrintint xx base sign = some ((if sign = true ∧ xx < 0 then [45] else []) ++ ds.map kernelDigits)) ∧
    ∃ ds, IsNumeral base (if sign = true ∧ xx < 0 then -xx else xx % 2 ^ 64).toNat ds ∧
      userPrintint xx base sign = some ((if sign = true ∧ xx < 0 then [45] else []) ++ ds.map userDigits) :=
  ⟨printint_eq hlow hhigh hbase sign, printint_eq hlow hhigh hbase sign⟩

/-- The most negative number. -/
theorem printint_exact_lowest : ∃ ds, IsNumeral 10 (2 ^ 63) ds ∧
    userPrintint (-2 ^ 63) 10 true = some (45 :: ds.map userDigits) := by
  obtain ⟨ds, hn, e⟩ := (@printint_exact 10 (-2 ^ 63) (by decide) (by decide) (.inl rfl) true).2
  rw [if_pos ⟨rfl, by decide⟩] at hn e
  exact ⟨ds, hn, e⟩

end Xv6
