import Mathlib.Data.List.Perm.Basic
import Mathlib.Data.Set.Basic
import Mathlib.Tactic.Common

/-!
# Tilings by intervals

A block `(a, n)` is the interval of the `n` numbers from `a` on. `Tiles l M` says that the blocks of `l` are
not empty, do not overlap and make up the set `M`. A tiling stays one when its blocks are listed in another
order, when a block is cut in two or two adjacent ones are joined, and when new blocks come with their numbers.
-/

/-- The blocks `b` and `c` do not overlap. -/
def Tiles.Apart (b c : ℕ × ℕ) : Prop := b.1 + b.2 ≤ c.1 ∨ c.1 + c.2 ≤ b.1

/-- The numbers of the blocks. -/
def Tiles.covered (l : List (ℕ × ℕ)) : Set ℕ := {x | ∃ b ∈ l, b.1 ≤ x ∧ x < b.1 + b.2}

/-- The blocks of `l` tile the set `M`. -/
structure Tiles (l : List (ℕ × ℕ)) (M : Set ℕ) : Prop where
  pos : ∀ b ∈ l, 0 < b.2
  apart : l.Pairwise Tiles.Apart
  cover : Tiles.covered l = M

namespace Tiles

open List Set

variable {l l' : List (ℕ × ℕ)} {M : Set ℕ} {a m n : ℕ} {b c : ℕ × ℕ}

theorem apart_symm (h : Apart b c) : Apart c b := Or.symm h

theorem covered_cons (b : ℕ × ℕ) (l : List (ℕ × ℕ)) :
    covered (b :: l) = {x | b.1 ≤ x ∧ x < b.1 + b.2} ∪ covered l := by
  ext x
  simp [covered]

theorem perm (h : Tiles l M) (hp : l.Perm l') : Tiles l' M where
  pos b hb := h.pos b (hp.mem_iff.2 hb)
  apart := (hp.pairwise_iff fun h => apart_symm h).1 h.apart
  cover := by
    rw [← h.cover]
    ext x
    simp [covered, hp.mem_iff]

/-- The first number of a block is covered. -/
theorem mem_of_mem (h : Tiles l M) (hb : b ∈ l) : b.1 ∈ M := by
  rw [← h.cover]
  have := h.pos b hb
  exact ⟨b, hb, le_rfl, by omega⟩

/-- A block is cut in two, or two adjacent ones are joined. -/
theorem cut_iff (hm : 0 < m) (hn : 0 < n) :
    Tiles ((a, m + n) :: l) M ↔ Tiles ((a, m) :: (a + m, n) :: l) M := by
  have hcov : covered ((a, m + n) :: l) = covered ((a, m) :: (a + m, n) :: l) := by
    simp only [covered_cons, ← union_assoc]
    congr 1
    ext x
    simp only [mem_ofPred_eq, mem_union]
    omega
  constructor
  · intro h
    have hap := pairwise_cons.1 h.apart
    refine ⟨?_, ?_, hcov ▸ h.cover⟩
    · intro b hb
      simp only [mem_cons] at hb
      rcases hb with rfl | rfl | hb
      · exact hm
      · exact hn
      · exact h.pos b (mem_cons_of_mem _ hb)
    · refine pairwise_cons.2 ⟨fun b hb => ?_, pairwise_cons.2 ⟨fun b hb => ?_, hap.2⟩⟩
      · rcases mem_cons.1 hb with rfl | hb
        · exact Or.inl le_rfl
        · have := hap.1 b hb
          unfold Apart at *
          simp only at *
          omega
      · have := hap.1 b hb
        unfold Apart at *
        simp only at *
        omega
  · intro h
    obtain ⟨h₁, h₂⟩ := pairwise_cons.1 h.apart
    obtain ⟨h₃, h₄⟩ := pairwise_cons.1 h₂
    refine ⟨?_, pairwise_cons.2 ⟨fun b hb => ?_, h₄⟩, hcov ▸ h.cover⟩
    · intro b hb
      rcases mem_cons.1 hb with rfl | hb
      · exact Nat.add_pos_left hm n
      · exact h.pos b (mem_cons_of_mem _ (mem_cons_of_mem _ hb))
    · -- a block between the two would overlap one of them
      have hpos := h.pos b (mem_cons_of_mem _ (mem_cons_of_mem _ hb))
      have hb₁ := h₁ b (mem_cons_of_mem _ hb)
      have hb₂ := h₃ b hb
      unfold Apart at *
      simp only at *
      omega

/-- A new block behind the old ones. -/
theorem insert (h : Tiles l M) (hn : 0 < n) (ha : ∀ x ∈ M, x < a) :
    Tiles ((a, n) :: l) ({x | a ≤ x ∧ x < a + n} ∪ M) where
  pos b hb := by
    rcases mem_cons.1 hb with rfl | hb
    · exact hn
    · exact h.pos b hb
  apart := by
    refine pairwise_cons.2 ⟨fun b hb => Or.inr ?_, h.apart⟩
    have hpos := h.pos b hb
    have : b.1 + b.2 - 1 ∈ M := by
      rw [← h.cover]
      exact ⟨b, hb, by omega, by omega⟩
    have := ha _ this
    simp only
    omega
  cover := by rw [covered_cons, h.cover]

end Tiles
