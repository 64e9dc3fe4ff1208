import Mathlib.Algebra.BigOperators.Fin
import Mathlib.Algebra.Order.BigOperators.Group.Finset
import Mathlib.Tactic.Ring

/-!
# Reservations in a bounded store

Parties reserve `m` units each of a store of `cap` units, use some of them and give up the rest when
they leave; what was used stays. `held i = some u` says that the party `i` has a reservation of which
it has used `u` units. A party is admitted if the store has room for what was used and for one more
full reservation beside those held (`Fits.enter`); then no party that has units left finds the store
full (`Fits.lt_cap`).
-/

namespace Quota

open Function Finset

variable {ι : Type} [Fintype ι] {m cap used u : ℕ} {held : ι → Option ℕ} {i : ι}

/-- The units that a party may still use. -/
def rest (m : ℕ) : Option ℕ → ℕ
  | none => 0
  | some u => m - u

/-- The number of reservations. -/
def count (held : ι → Option ℕ) : ℕ := ∑ i, if (held i).isSome then 1 else 0

/-- The units that are reserved and not used. -/
def unused (m : ℕ) (held : ι → Option ℕ) : ℕ := ∑ i, rest m (held i)

/-- The store has room for all that is reserved. -/
def Fits (m cap used : ℕ) (held : ι → Option ℕ) : Prop := used + unused m held ≤ cap

theorem rest_le_unused (m : ℕ) (held : ι → Option ℕ) (i : ι) : rest m (held i) ≤ unused m held :=
  single_le_sum (f := fun j => rest m (held j)) (fun _ _ => Nat.zero_le _) (mem_univ i)

theorem unused_le (m : ℕ) (held : ι → Option ℕ) : unused m held ≤ count held * m := by
  rw [unused, count, sum_mul]
  refine sum_le_sum fun i _ => ?_
  cases held i with
  | none | some u => simp [rest]

namespace Fits

/-- A party with units left finds room. -/
theorem lt_cap (h : Fits m cap used held) (hi : held i = some u) (hu : u < m) : used < cap := by
  have := rest_le_unused m held i
  rw [hi] at this
  unfold Fits at h
  simp only [rest] at this
  omega

/-- What was used is given back. -/
theorem mono (h : Fits m cap used held) {used' : ℕ} (hle : used' ≤ used) : Fits m cap used' held := by
  unfold Fits at *
  omega

end Fits

variable [DecidableEq ι]

/-- A sum over the parties before and after one of them changes. -/
theorem sum_update (f : Option ℕ → ℕ) (held : ι → Option ℕ) (i : ι) (o : Option ℕ) :
    ∑ j, f (update held i o j) + f (held i) = ∑ j, f (held j) + f o := by
  have h₁ := add_sum_erase univ (fun j => f (update held i o j)) (mem_univ i)
  have h₂ := add_sum_erase univ (fun j => f (held j)) (mem_univ i)
  have h₃ : ∑ j ∈ univ.erase i, f (update held i o j) =
      ∑ j ∈ univ.erase i, f (held j) :=
    sum_congr rfl fun j hj => by rw [update_of_ne (ne_of_mem_erase hj)]
  simp only [update_self] at h₁
  omega

theorem count_enter (h : held i = none) (u : ℕ) :
    count (update held i (some u)) = count held + 1 := by
  have := sum_update (fun o => if o.isSome then 1 else 0) held i (some u)
  simpa [count, h] using this

theorem count_use (h : held i = some u) (u' : ℕ) :
    count (update held i (some u')) = count held := by
  have := sum_update (fun o => if o.isSome then 1 else 0) held i (some u')
  simpa [count, h] using this

theorem count_leave (h : held i = some u) : count (update held i none) + 1 = count held := by
  have := sum_update (fun o => if o.isSome then 1 else 0) held i none
  simpa [count, h] using this

theorem count_pos (h : held i = some u) : 0 < count held := by
  have := count_leave h
  omega

namespace Fits

/-- Admission against the number of reservations. -/
theorem enter (h : held i = none) (hroom : used + (count held + 1) * m ≤ cap) :
    Fits m cap used (update held i (some 0)) := by
  have h₁ := unused_le m (update held i (some 0))
  rw [count_enter h] at h₁
  unfold Fits
  omega

theorem leave (h : Fits m cap used held) (i : ι) : Fits m cap used (update held i none) := by
  have := sum_update (rest m) held i none
  have h₀ : rest m none = 0 := rfl
  unfold Fits unused at *
  omega

/-- A party uses one of its units. -/
theorem use (h : Fits m cap used held) (hi : held i = some u) (hu : u < m) :
    Fits m cap (used + 1) (update held i (some (u + 1))) := by
  have := sum_update (rest m) held i (some (u + 1))
  have h₁ : rest m (held i) = rest m (some (u + 1)) + 1 := by
    rw [hi]
    simp only [rest]
    omega
  unfold Fits unused at *
  omega

end Fits

end Quota
