import Mathlib.Data.Fin.Basic
import Mathlib.Data.Nat.ModEq
import Mathlib.Data.List.Basic
import Mathlib.Logic.Function.Basic
import Mathlib.Tactic.Common

/-!
# Rings with free-running indices

A ring of `n` cells is addressed by counters that are never reduced: the counter `k` stands for the cell
`k % n`. The counters are machine words. If `n` divides the number of their values, this stays
consistent when they wrap. `cells` lists the cells from one number on, `read` from a 32-bit counter on;
`dist` is the distance of two 32-bit counters, and `gap` that of two counters modulo `m`.
-/

namespace Ring

open Function List Nat

variable {α : Type} {n : ℕ} [NeZero n]

/-! ### Counters as numbers -/

section Cells

/-- The `k` cells from the number `lo` on. -/
def cells (buf : Fin n → α) (lo k : ℕ) : List α := (List.range k).map fun i => buf (Fin.ofNat n (lo + i))

variable (buf : Fin n → α) (lo : ℕ) {j k m : ℕ} (x : α)

@[simp] theorem length_cells : (cells buf lo k).length = k := by
  simp [cells]

@[simp] theorem cells_zero : cells buf lo 0 = [] := rfl

theorem cells_succ : cells buf lo (k + 1) = cells buf lo k ++ [buf (Fin.ofNat n (lo + k))] := by
  simp [cells, range_succ]

theorem cells_cons : cells buf lo (k + 1) = buf (Fin.ofNat n lo) :: cells buf (lo + 1) k := by
  rw [cells, range_succ_eq_map, map_cons, map_map, cells]
  congr 1
  refine map_congr_left fun i _ => ?_
  rw [Function.comp_apply, succ_eq_add_one, Nat.add_comm i 1, ← Nat.add_assoc]

/-- The cells from `lo` on are listed in two parts. -/
theorem cells_add : cells buf lo (j + k) = cells buf lo j ++ cells buf (lo + j) k := by
  induction k with
  | zero => simp
  | succ k ih =>
    rw [← Nat.add_assoc, cells_succ, ih, cells_succ, append_assoc, Nat.add_assoc]

/-- A counter that wraps after a multiple of the size stands for the same cells. -/
theorem cells_mod (hm : n ∣ m) : cells buf (lo % m) k = cells buf lo k := by
  refine map_congr_left fun i _ => congrArg buf (Fin.ext ?_)
  have h : lo % m ≡ lo [MOD n] := mod_mod_of_dvd _ hm
  exact h.add_right i

/-- A cell past the ones that are listed is stored. -/
theorem cells_update (hk : k ≤ j) (hj : j < n) :
    cells (update buf (Fin.ofNat n (lo + j)) x) lo k = cells buf lo k := by
  refine map_congr_left fun i hi => update_of_ne (fun e => ?_) _ _
  have hi := mem_range.1 hi
  have he : lo + i ≡ lo + j [MOD n] := congrArg Fin.val e
  have hd := (modEq_iff_dvd' (by omega)).1 he
  have := le_of_dvd (by omega) hd
  omega

/-- The distance of two counters that wrap after `m`. -/
def gap (m lo hi : ℕ) : ℕ := (hi + m - lo) % m

variable {lo} {hi : ℕ}

theorem gap_self : gap m lo lo = 0 := by
  rw [gap, Nat.add_sub_cancel_left, mod_self]

/-- The last counter is the first moved by the distance. -/
theorem add_gap (hl : lo < m) (hh : hi < m) : (lo + gap m lo hi) % m = hi := by
  rw [gap, add_mod_mod, show lo + (hi + m - lo) = hi + m by omega, add_mod_right,
    mod_eq_of_lt hh]

theorem gap_lt (lo hi : ℕ) (hm : 0 < m) : gap m lo hi < m := mod_lt _ hm

theorem gap_eq_zero_iff (hl : lo < m) (hh : hi < m) : gap m lo hi = 0 ↔ lo = hi := by
  refine ⟨fun h => ?_, fun h => h ▸ gap_self⟩
  have := add_gap hl hh
  rwa [h, Nat.add_zero, mod_eq_of_lt hl] at this

theorem gap_succ (hl : lo < m) (hh : hi < m) (h : gap m lo hi + 1 < m) :
    gap m lo ((hi + 1) % m) = gap m lo hi + 1 := by
  have hg := add_gap hl hh
  have h₁ : (lo + (gap m lo hi + 1)) % m = (hi + 1) % m := by
    rw [← Nat.add_assoc, ← mod_add_mod, hg]
  rw [← h₁, gap, Nat.add_sub_assoc hl.le, mod_add_mod,
    show lo + (gap m lo hi + 1) + (m - lo) = gap m lo hi + 1 + m by omega, add_mod_right,
    mod_eq_of_lt h]

theorem gap_succ_left (hl : lo < m) (hh : hi < m) (h : lo ≠ hi) :
    gap m ((lo + 1) % m) hi + 1 = gap m lo hi := by
  have hg := add_gap hl hh
  have h0 : gap m lo hi ≠ 0 := fun e => h ((gap_eq_zero_iff hl hh).1 e)
  obtain ⟨g, hg'⟩ := exists_eq_succ_of_ne_zero h0
  have hlt := gap_lt lo hi (show 0 < m by omega)
  have hm : (lo + 1) % m < m := mod_lt _ (by omega)
  have h₁ : ((lo + 1) % m + g) % m = hi := by
    rw [mod_add_mod, Nat.add_assoc, Nat.add_comm 1 g, ← succ_eq_add_one, ← hg', hg]
  have h₂ := add_gap hm hh
  -- both `g` and the distance take the counter to `hi`
  have h₃ : g ≡ gap m ((lo + 1) % m) hi [MOD m] :=
    ModEq.add_left_cancel' ((lo + 1) % m) (h₁.trans h₂.symm)
  have h₄ := ModEq.eq_of_lt_of_lt h₃ (by omega) (gap_lt _ _ (by omega))
  omega

end Cells

/-! ### 32-bit counters -/

/-- The cell of a counter. -/
def index (n : ℕ) [NeZero n] (k : UInt32) : Fin n := ⟨k.toNat % n, Nat.mod_lt _ (Nat.pos_of_neZero n)⟩

/-- The `k` cells from `lo` on. -/
def read (buf : Fin n → α) (lo : UInt32) (k : ℕ) : List α :=
  (List.range k).map fun i => buf (index n (lo + UInt32.ofNat i))

variable {buf : Fin n → α} {lo : UInt32} {j k : ℕ} {x : α}

omit [NeZero n] in
theorem toNat_add_modEq (hn : n ∣ 2 ^ 32) (a : UInt32) (k : ℕ) :
    (a + UInt32.ofNat k).toNat ≡ a.toNat + k [MOD n] := by
  rw [UInt32.toNat_add, UInt32.toNat_ofNat']
  have h₁ : (a.toNat + k % 2 ^ 32) % 2 ^ 32 ≡ a.toNat + k % 2 ^ 32 [MOD n] :=
    mod_mod_of_dvd _ hn
  have h₂ : k % 2 ^ 32 ≡ k [MOD n] := mod_mod_of_dvd _ hn
  exact h₁.trans (h₂.add_left _)

theorem index_add (hn : n ∣ 2 ^ 32) (a : UInt32) (k : ℕ) :
    index n (a + UInt32.ofNat k) = Fin.ofNat n (a.toNat + k) :=
  Fin.ext (toNat_add_modEq hn a k)

theorem read_eq_cells (hn : n ∣ 2 ^ 32) : read buf lo k = cells buf lo.toNat k :=
  map_congr_left fun i _ => congrArg buf (index_add hn lo i)

@[simp] theorem length_read : (read buf lo k).length = k := by
  simp [read]

@[simp] theorem read_zero : read buf lo 0 = [] := rfl

theorem read_succ : read buf lo (k + 1) = read buf lo k ++ [buf (index n (lo + UInt32.ofNat k))] := by
  simp [read, range_succ]

theorem read_cons (hn : n ∣ 2 ^ 32) :
    read buf lo (k + 1) = buf (index n lo) :: read buf (lo + 1) k := by
  have h : (lo + 1).toNat = (lo.toNat + 1) % 2 ^ 32 := UInt32.toNat_add lo 1
  rw [read_eq_cells hn, cells_cons, read_eq_cells hn, h, cells_mod _ _ hn]
  rfl

/-- A cell past the ones that are read is stored. -/
theorem read_update (buf : Fin n → α) (lo : UInt32) (x : α) (hn : n ∣ 2 ^ 32) (hk : k ≤ j)
    (hj : j < n) :
    read (update buf (index n (lo + UInt32.ofNat j)) x) lo k = read buf lo k := by
  rw [index_add hn, read_eq_cells hn, read_eq_cells hn]
  exact cells_update buf lo.toNat x hk hj

/-- The next cell is stored. -/
theorem read_push (buf : Fin n → α) (lo : UInt32) (x : α) (hn : n ∣ 2 ^ 32) (hk : k < n) :
    read (update buf (index n (lo + UInt32.ofNat k)) x) lo (k + 1) = read buf lo k ++ [x] := by
  rw [read_succ, read_update buf lo x hn le_rfl hk, update_self]

/-- The cells from `lo` on are read in two parts. -/
theorem read_add (hn : n ∣ 2 ^ 32) :
    read buf lo (j + k) = read buf lo j ++ read buf (lo + UInt32.ofNat j) k := by
  have h : (lo + UInt32.ofNat j).toNat = (lo.toNat + j) % 2 ^ 32 := by
    rw [UInt32.toNat_add, UInt32.toNat_ofNat', add_mod_mod]
  rw [read_eq_cells hn, cells_add, read_eq_cells hn, read_eq_cells hn, h, cells_mod _ _ hn]

/-! ### Distances -/

/-- The distance from one counter to another, in 32 bits. -/
def dist (lo hi : UInt32) : ℕ := (hi - lo).toNat

variable {a b c : UInt32}

@[simp] theorem dist_self : dist a a = 0 := by
  simp [dist]

theorem add_dist (a b : UInt32) : a + UInt32.ofNat (dist a b) = b := by
  rw [dist, UInt32.ofNat_toNat, UInt32.add_comm]
  exact UInt32.sub_add_cancel b a

theorem dist_eq_zero_iff : dist a b = 0 ↔ a = b := by
  refine ⟨fun h => ?_, fun h => h ▸ dist_self⟩
  have hb := add_dist a b
  rw [h] at hb
  exact (UInt32.add_zero a).symm.trans hb

/-- Distances add up while the sum stays in range. -/
theorem dist_add (h : dist a b + dist b c < 2 ^ 32) : dist a c = dist a b + dist b c := by
  have h₁ := a.toNat_lt
  have h₂ := b.toNat_lt
  have h₃ := c.toNat_lt
  simp only [dist, UInt32.toNat_sub] at h ⊢
  omega

theorem dist_succ (h : dist a b + 1 < 2 ^ 32) : dist a (b + 1) = dist a b + 1 := by
  have h₁ := a.toNat_lt
  have h₂ := b.toNat_lt
  have h₃ : (1 : UInt32).toNat = 1 := rfl
  simp only [dist, UInt32.toNat_sub, UInt32.toNat_add, h₃] at h ⊢
  omega

theorem dist_pred (h : 0 < dist a b) : dist a (b - 1) + 1 = dist a b := by
  have h₁ := a.toNat_lt
  have h₂ := b.toNat_lt
  have h₃ : (1 : UInt32).toNat = 1 := rfl
  simp only [dist, UInt32.toNat_sub, h₃] at h ⊢
  omega

theorem dist_succ_left (h : 0 < dist a b) : dist (a + 1) b + 1 = dist a b := by
  have h₁ := a.toNat_lt
  have h₂ := b.toNat_lt
  have h₃ : (1 : UInt32).toNat = 1 := rfl
  simp only [dist, UInt32.toNat_sub, UInt32.toNat_add, h₃] at h ⊢
  omega

end Ring
