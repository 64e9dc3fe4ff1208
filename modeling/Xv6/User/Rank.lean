import Xv6.User.Structs

/-!
# The ranking of `proccost`

`proccost` sorts the entries that the kernel has copied out by their costs, in place: the loop of
`sort_by_cost` selects the largest remaining entry for each position in turn. The array afterwards is the
array before, read through a permutation of its indices.
-/

namespace Xv6

open Function

/-- The field `cost` of an entry. -/
def CostInfo.cost (x : CostInfo) : ℕ := Bytes.rdle x 48 8

/-- The inner loop, with `k` entries to go from `j` on: the index of the largest entry so far. -/
def maxIdxLoop (info : ℕ → CostInfo) : ℕ → ℕ → ℕ → ℕ
  | 0, _, maxIdx => maxIdx
  | k + 1, j, maxIdx =>
    maxIdxLoop info k (j + 1)
      (if CostInfo.cost (info maxIdx) < CostInfo.cost (info j) then j else maxIdx)

/-- The three assignments through `tmp`. -/
def swapEntries (info : ℕ → CostInfo) (i maxIdx : ℕ) : ℕ → CostInfo :=
  update (update info i (info maxIdx)) maxIdx (info i)

/-- The outer loop, with `k` entries to go from `i` on. -/
def sortLoop : ℕ → ℕ → (ℕ → CostInfo) → ℕ → CostInfo
  | 0, _, info => info
  | k + 1, i, info =>
    let maxIdx := maxIdxLoop info k (i + 1) i
    sortLoop k (i + 1) (if maxIdx ≠ i then swapEntries info i maxIdx else info)

/-- Sort the first `n` entries by descending costs. -/
def sortByCost (info : ℕ → CostInfo) (n : ℕ) : ℕ → CostInfo := sortLoop n 0 info

variable {info : ℕ → CostInfo}

/-- The inner loop finds a largest entry. -/
theorem maxIdxLoop_spec (k j m : ℕ) :
    (maxIdxLoop info k j m = m ∨ j ≤ maxIdxLoop info k j m ∧ maxIdxLoop info k j m < j + k) ∧
    CostInfo.cost (info m) ≤ CostInfo.cost (info (maxIdxLoop info k j m)) ∧
    ∀ a, j ≤ a → a < j + k → CostInfo.cost (info a) ≤ CostInfo.cost (info (maxIdxLoop info k j m)) := by
  induction k generalizing j m with
  | zero => exact ⟨.inl rfl, le_rfl, fun a h₁ h₂ => absurd h₂ (by omega)⟩
  | succ k ih =>
    rw [maxIdxLoop]
    obtain ⟨hidx, hle, hall⟩ := ih (j + 1) (if CostInfo.cost (info m) < CostInfo.cost (info j) then j else m)
    -- the entry carried on is at least as large as the old one and as the entry `j`
    have hstep : CostInfo.cost (info m) ≤
          CostInfo.cost (info (if CostInfo.cost (info m) < CostInfo.cost (info j) then j else m)) ∧
        CostInfo.cost (info j) ≤
          CostInfo.cost (info (if CostInfo.cost (info m) < CostInfo.cost (info j) then j else m)) := by
      split <;> omega
    refine ⟨?_, hstep.1.trans hle, fun a h₁ h₂ => ?_⟩
    · rcases hidx with e | ⟨h₁, h₂⟩
      · rw [e]
        split
        · exact .inr ⟨le_rfl, by omega⟩
        · exact .inl rfl
      · exact .inr ⟨by omega, by omega⟩
    · by_cases ha : a = j
      · rw [ha]
        exact hstep.2.trans hle
      · exact hall a (by omega) (by omega)

theorem swapEntries_eq (i m : ℕ) : swapEntries info i m = info ∘ Equiv.swap i m := by
  funext a
  rw [Function.comp_apply, Equiv.swap_apply_def, swapEntries]
  by_cases hm : a = m
  · subst hm
    rw [update_self]
    split
    · rename_i h
      rw [h]
    · rw [if_pos rfl]
  · rw [update_of_ne hm]
    by_cases hi : a = i
    · rw [hi, update_self, if_pos rfl]
    · rw [update_of_ne hi, if_neg hi, if_neg hm]

/-- `σ` moves only indices from `i` on and below `n`. -/
def MovesWithin (σ : Equiv.Perm ℕ) (i n : ℕ) : Prop := ∀ a, σ a ≠ a → i ≤ a ∧ a < n

theorem MovesWithin.range {σ : Equiv.Perm ℕ} {i n a : ℕ} (h : MovesWithin σ i n) (hi : i ≤ a) (hn : a < n) :
    i ≤ σ a ∧ σ a < n := by
  by_cases e : σ (σ a) = σ a
  · rw [σ.injective e]
    exact ⟨hi, hn⟩
  · exact h (σ a) e

/-- The outer loop sorts the entries from `i` on, and only permutes them. -/
theorem sortLoop_spec (k i : ℕ) (info : ℕ → CostInfo) :
    (∃ σ, MovesWithin σ i (i + k) ∧ sortLoop k i info = info ∘ σ) ∧
    ∀ a b, i ≤ a → a ≤ b → b < i + k →
      CostInfo.cost (sortLoop k i info b) ≤ CostInfo.cost (sortLoop k i info a) := by
  induction k generalizing i info with
  | zero => exact ⟨⟨Equiv.refl ℕ, fun a h => absurd rfl h, rfl⟩, fun a b _ _ _ => by omega⟩
  | succ k ih =>
    obtain ⟨hidx, hle, hall⟩ := @maxIdxLoop_spec info k (i + 1) i
    obtain ⟨m, hm⟩ : ∃ m, m = maxIdxLoop info k (i + 1) i := ⟨_, rfl⟩
    rw [← hm] at hidx hle hall
    -- the step is a transposition, and its first entry is the largest
    have hswap : (if m ≠ i then swapEntries info i m else info) = info ∘ Equiv.swap i m := by
      by_cases e : m = i
      · rw [if_neg (not_not.2 e), e, Equiv.swap_self]
        rfl
      · rw [if_pos e, swapEntries_eq]
    have hloop : sortLoop (k + 1) i info = sortLoop k (i + 1) (info ∘ Equiv.swap i m) := by
      rw [sortLoop, ← hm, hswap]
    have hlargest : ∀ a, i ≤ a → a < i + (k + 1) → CostInfo.cost (info a) ≤ CostInfo.cost (info m) := by
      intro a h₁ h₂
      by_cases e : a = i
      · rw [e]
        exact hle
      · exact hall a (by omega) (by omega)
    have hswaps : MovesWithin (Equiv.swap i m) i (i + (k + 1)) := by
      intro a ha
      rw [Equiv.swap_apply_ne_self_iff] at ha
      rcases ha.2 with rfl | rfl <;> omega
    obtain ⟨⟨σ, hσ, e⟩, hsorted⟩ := ih (i + 1) (info ∘ Equiv.swap i m)
    have hfirst : sortLoop (k + 1) i info i = info m := by
      have hi : σ i = i := by
        by_contra hi
        exact absurd (hσ i hi).1 (by omega)
      rw [hloop, e, Function.comp_apply, Function.comp_apply, hi, Equiv.swap_apply_left]
    have hperm : sortLoop (k + 1) i info = info ∘ (σ.trans (Equiv.swap i m)) := by
      rw [hloop, e]
      rfl
    have hmoves : MovesWithin (σ.trans (Equiv.swap i m)) i (i + (k + 1)) := by
      intro a ha
      by_cases e : σ a = a
      · exact hswaps a (by rwa [Equiv.trans_apply, e] at ha)
      · have := hσ a e
        omega
    refine ⟨⟨_, hmoves, hperm⟩, fun a b hia hab hb => ?_⟩
    by_cases ha : a = i
    · rw [ha, hfirst, hperm]
      obtain ⟨h₁, h₂⟩ := hmoves.range (a := b) (by omega) hb
      exact hlargest _ h₁ h₂
    · rw [hloop]
      exact hsorted a b (by omega) hab (by omega)

/-- `sort_by_cost` permutes the first `n` entries and leaves them in non-increasing order of their costs,
so that no entry after the first `k` costs more than one of them. -/
theorem sortByCost_ranks (info : ℕ → CostInfo) (n : ℕ) :
    (∃ σ : Equiv.Perm ℕ, (∀ a, n ≤ a → σ a = a) ∧ ∀ a, sortByCost info n a = info (σ a)) ∧
    (∀ a b, a ≤ b → b < n → CostInfo.cost (sortByCost info n b) ≤ CostInfo.cost (sortByCost info n a)) ∧
    ∀ k ≤ n, ∀ a < k, ∀ b, k ≤ b → b < n →
      CostInfo.cost (sortByCost info n b) ≤ CostInfo.cost (sortByCost info n a) := by
  obtain ⟨⟨σ, hσ, e⟩, hsorted⟩ := sortLoop_spec n 0 info
  have hle : ∀ a b, a ≤ b → b < n →
      CostInfo.cost (sortByCost info n b) ≤ CostInfo.cost (sortByCost info n a) :=
    fun a b hab hb => hsorted a b (Nat.zero_le a) hab (by omega)
  refine ⟨⟨σ, fun a ha => ?_, fun a => congrFun e a⟩, hle, fun k _ a ha b hb hbn => hle a b (by omega) hbn⟩
  by_contra hne
  exact absurd (hσ a hne).2 (by omega)

end Xv6
