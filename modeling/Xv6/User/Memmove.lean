import Mathlib.Algebra.Group.Nat.Defs
import Mathlib.Logic.Function.Basic

/-!
# The two `memmove`s

`memmove` of `string.c` in the kernel and `memmove` of `ulib.c` for user programs choose between a loop
from the front and a loop from the back by different tests. A loop from the front is right unless the
destination starts inside the source, a loop from the back if it does not start before the source.
Pointers are 64-bit numbers; the two ranges of bytes are taken to lie in the address space.
-/

namespace Xv6

open Function Nat

/-- The bytes of memory. -/
abbrev ByteMem := ℕ → UInt8

/-- `while(n-- > 0) *d++ = *s++`. -/
def copyUp : ℕ → ℕ → ℕ → ByteMem → ByteMem
  | 0, _, _, mem => mem
  | n + 1, d, s, mem => copyUp n ((d + 1) % 2 ^ 64) ((s + 1) % 2 ^ 64) (update mem d (mem s))

/-- `while(n-- > 0) *--d = *--s`. -/
def copyDown : ℕ → ℕ → ℕ → ByteMem → ByteMem
  | 0, _, _, mem => mem
  | n + 1, d, s, mem =>
    let d := (d + 2 ^ 64 - 1) % 2 ^ 64
    let s := (s + 2 ^ 64 - 1) % 2 ^ 64
    copyDown n d s (update mem d (mem s))

/-- `memmove` of the kernel: the pointer it returns, and the memory. -/
def kernelMemmove (dst src n : ℕ) (mem : ByteMem) : ℕ × ByteMem :=
  if n = 0 then (dst, mem)
  else if src < dst ∧ dst < (src + n) % 2 ^ 64 then
    (dst, copyDown n ((dst + n) % 2 ^ 64) ((src + n) % 2 ^ 64) mem)
  else (dst, copyUp n dst src mem)

/-- `memmove` of the user library, for a length that is not negative. -/
def userMemmove (dst src n : ℕ) (mem : ByteMem) : ℕ × ByteMem :=
  if dst < src then (dst, copyUp n dst src mem)
  else (dst, copyDown n ((dst + n) % 2 ^ 64) ((src + n) % 2 ^ 64) mem)

/-- The memory with the `n` bytes at `src` copied to `dst`. -/
def ByteMem.moved (mem : ByteMem) (dst src n : ℕ) : ByteMem := fun a =>
  if dst ≤ a ∧ a < dst + n then mem (src + (a - dst)) else mem a

variable {n d s : ℕ} {mem : ByteMem}

/-- The loop from the front, unless the destination starts inside the source. -/
theorem copyUp_eq (hd : d + n ≤ 2 ^ 64) (hs : s + n ≤ 2 ^ 64) (h : d ≤ s ∨ s + n ≤ d) :
    copyUp n d s mem = mem.moved d s n := by
  induction n generalizing d s mem with
  | zero =>
    funext a
    rw [ByteMem.moved, if_neg (by omega)]
    rfl
  | succ n ih =>
    -- the pointers may wrap after the last byte only
    have hrest : copyUp n ((d + 1) % 2 ^ 64) ((s + 1) % 2 ^ 64) (update mem d (mem s)) =
        ByteMem.moved (update mem d (mem s)) (d + 1) (s + 1) n := by
      cases n with
      | zero =>
        funext a
        rw [ByteMem.moved, if_neg (by omega)]
        rfl
      | succ n =>
        rw [mod_eq_of_lt (by omega), mod_eq_of_lt (by omega)]
        exact ih (by omega) (by omega) (by omega)
    rw [copyUp, hrest]
    funext a
    rw [ByteMem.moved, ByteMem.moved]
    by_cases ha : a = d
    · rw [if_neg (by omega), if_pos (by omega), ha, update_self, Nat.sub_self, Nat.add_zero]
    · by_cases hin : d + 1 ≤ a ∧ a < d + 1 + n
      · rw [if_pos hin, if_pos (by omega), update_of_ne (by omega)]
        congr 1
        omega
      · rw [if_neg hin, if_neg (by omega), update_of_ne ha]

/-- The loop from the back, if the destination does not start before the source. -/
theorem copyDown_eq (hd : d + n ≤ 2 ^ 64) (h : s ≤ d) :
    copyDown n ((d + n) % 2 ^ 64) ((s + n) % 2 ^ 64) mem = mem.moved d s n := by
  induction n generalizing mem with
  | zero =>
    funext a
    rw [ByteMem.moved, if_neg (by omega)]
    rfl
  | succ n ih =>
    have hback : ∀ a, a + (n + 1) ≤ 2 ^ 64 →
        ((a + (n + 1)) % 2 ^ 64 + 2 ^ 64 - 1) % 2 ^ 64 = (a + n) % 2 ^ 64 := fun a ha => by omega
    rw [copyDown, hback d hd, hback s (by omega), ih (by omega), mod_eq_of_lt (by omega),
      mod_eq_of_lt (by omega)]
    funext a
    rw [ByteMem.moved, ByteMem.moved]
    by_cases ha : a = d + n
    · rw [if_neg (by omega), if_pos (by omega), ha, update_self, Nat.add_sub_cancel_left]
    · by_cases hin : d ≤ a ∧ a < d + n
      · rw [if_pos hin, if_pos (by omega), update_of_ne (by omega)]
      · rw [if_neg hin, if_neg (by omega), update_of_ne ha]

/-- Both functions return `dst`, leave in the range at `dst` the bytes that the range at `src` held, and
change no other byte, however the ranges overlap. -/
theorem memmove_exact {dst src n : ℕ} (hd : dst + n ≤ 2 ^ 64) (hs : src + n ≤ 2 ^ 64) (mem : ByteMem) :
    kernelMemmove dst src n mem = userMemmove dst src n mem ∧ (userMemmove dst src n mem).1 = dst ∧
    (∀ i < n, (userMemmove dst src n mem).2 (dst + i) = mem (src + i)) ∧
    ∀ a, a < dst ∨ dst + n ≤ a → (userMemmove dst src n mem).2 a = mem a := by
  have huser : userMemmove dst src n mem = (dst, mem.moved dst src n) := by
    rw [userMemmove]
    split
    · rw [copyUp_eq hd hs (by omega)]
    · rw [copyDown_eq hd (by omega)]
  have hkernel : kernelMemmove dst src n mem = (dst, mem.moved dst src n) := by
    rw [kernelMemmove]
    split
    · rename_i h
      rw [← huser, h, userMemmove]
      split <;> rfl
    · split
      · rw [copyDown_eq hd (by omega)]
      · -- `src + n` wraps only if the source ends with the address space, and then it is not before `dst`
        rw [copyUp_eq hd hs (by omega)]
  refine ⟨hkernel.trans huser.symm, by rw [huser], fun i hi => ?_, fun a ha => ?_⟩
  · rw [huser]
    exact (if_pos (by omega)).trans (by rw [Nat.add_sub_cancel_left])
  · rw [huser]
    exact if_neg (by omega)

/-- Two bytes move up by one. -/
theorem memmove_exact_overlap : (userMemmove 1 0 2 UInt8.ofNat).2 2 = 1 ∧
    kernelMemmove 1 0 2 UInt8.ofNat = userMemmove 1 0 2 UInt8.ofNat := by
  obtain ⟨hsame, -, hbytes, -⟩ := @memmove_exact 1 0 2 (by decide) (by decide) UInt8.ofNat
  exact ⟨hbytes 1 (by decide), hsame⟩

end Xv6
