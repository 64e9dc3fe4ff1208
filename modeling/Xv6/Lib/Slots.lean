import Mathlib.Data.List.Basic

/-!
# Tables of slots

A table is a row of slots, each in use or free, and a slot in use has a key. If no key is there twice, the
search for a key is a finite map, and filling a free slot or clearing a slot changes the map at one key.
-/

namespace Slots

variable {σ κ : Type} [DecidableEq κ] {used : σ → Prop} [DecidablePred used] {key : σ → κ} {n k : ℕ}
  {slot slot' : ℕ → σ} {a : κ}

/-- The first of `n` slots in use with the key. -/
def find (used : σ → Prop) [DecidablePred used] (key : σ → κ) (n : ℕ) (slot : ℕ → σ) (a : κ) : Option ℕ :=
  (List.range n).find? fun k => decide (used (slot k) ∧ key (slot k) = a)

/-- No key is there twice. -/
def Unique (used : σ → Prop) (key : σ → κ) (n : ℕ) (slot : ℕ → σ) : Prop :=
  ∀ k < n, ∀ j < n, used (slot k) → used (slot j) → key (slot k) = key (slot j) → k = j

theorem find_eq_none :
    find used key n slot a = none ↔ ∀ k < n, used (slot k) → key (slot k) ≠ a := by
  rw [find, List.find?_eq_none]
  simp only [List.mem_range, decide_eq_true_eq, not_and]

theorem of_find (h : find used key n slot a = some k) : k < n ∧ used (slot k) ∧ key (slot k) = a := by
  have hk := List.mem_range.1 (List.mem_of_find?_eq_some h)
  have := List.find?_some h
  rw [decide_eq_true_eq] at this
  exact ⟨hk, this⟩

/-- The search finds the slot with the key, if no key is there twice. -/
theorem Unique.find_eq_some (hu : Unique used key n slot) :
    find used key n slot a = some k ↔ k < n ∧ used (slot k) ∧ key (slot k) = a := by
  refine ⟨of_find, fun h => ?_⟩
  obtain ⟨hk, hused, hkey⟩ := h
  cases hf : find used key n slot a with
  | none => exact absurd hkey (find_eq_none.1 hf k hk hused)
  | some j =>
    obtain ⟨hj, hused', hkey'⟩ := of_find hf
    rw [hu j hj k hk hused' hused (hkey'.trans hkey.symm)]

section Put

variable (hk : k ≤ n) (hnew : find used key n slot a = none) (hused : used (slot' k)) (hkey : key (slot' k) = a)
  (hold : ∀ j < n, j ≠ k → slot' j = slot j)

include hk hnew hkey hold

/-- A free slot, or the one after the last, gets a new key. -/
theorem Unique.put (hu : Unique used key n slot) : Unique used key (max n (k + 1)) slot' := by
  have hne : ∀ j < max n (k + 1), j ≠ k → used (slot' j) → key (slot' j) ≠ a := by
    intro j hj hjk hused' heq
    have hjn : j < n := by omega
    rw [hold j hjn hjk] at hused' heq
    exact find_eq_none.1 hnew j hjn hused' heq
  intro j hj j' hj' h h' heq
  by_cases hjk : j = k <;> by_cases hjk' : j' = k
  · rw [hjk, hjk']
  · rw [hjk, hkey] at heq
    exact absurd heq.symm (hne j' hj' hjk' h')
  · rw [hjk', hkey] at heq
    exact absurd heq (hne j hj hjk h)
  · have hjn : j < n := by omega
    have hjn' : j' < n := by omega
    rw [hold j hjn hjk] at h heq
    rw [hold j' hjn' hjk'] at h' heq
    exact hu j hjn j' hjn' h h' heq

include hused in
/-- The map after a free slot, or the one after the last, got a new key. -/
theorem Unique.find_put (hu : Unique used key n slot) (hfree : k < n → ¬ used (slot k)) (b : κ) :
    find used key (max n (k + 1)) slot' b = if b = a then some k else find used key n slot b := by
  have hu' := Unique.put hk hnew hkey hold hu
  split
  · rename_i hb
    exact hu'.find_eq_some.2 ⟨by omega, hused, hkey.trans hb.symm⟩
  · rename_i hb
    cases hf : find used key n slot b with
    | none =>
      refine find_eq_none.2 fun j hj hj' heq => ?_
      by_cases hjk : j = k
      · rw [hjk, hkey] at heq
        exact hb heq.symm
      · have hjn : j < n := by omega
        rw [hold j hjn hjk] at hj' heq
        exact find_eq_none.1 hf j hjn hj' heq
    | some j =>
      obtain ⟨hjn, hj', heq⟩ := of_find hf
      have hjk : j ≠ k := fun e => hfree (e ▸ hjn) (e ▸ hj')
      rw [← hold j hjn hjk] at hj' heq
      exact hu'.find_eq_some.2 ⟨by omega, hj', heq⟩

end Put

section Clear

variable (hfree : ¬ used (slot' k)) (hold : ∀ j < n, j ≠ k → slot' j = slot j)

include hfree hold

omit [DecidableEq κ] [DecidablePred used] in
theorem Unique.clear (hu : Unique used key n slot) : Unique used key n slot' := by
  intro j hj j' hj' h h' heq
  have hjk : j ≠ k := fun e => hfree (e ▸ h)
  have hjk' : j' ≠ k := fun e => hfree (e ▸ h')
  rw [hold j hj hjk] at h heq
  rw [hold j' hj' hjk'] at h' heq
  exact hu j hj j' hj' h h' heq

/-- The map after the slot with the key `a` was cleared. -/
theorem Unique.find_clear (hu : Unique used key n slot) (hk : k < n) (hused : used (slot k))
    (hkey : key (slot k) = a) (b : κ) :
    find used key n slot' b = if b = a then none else find used key n slot b := by
  have hu' := hu.clear hfree hold
  split
  · rename_i hb
    refine find_eq_none.2 fun j hj hj' heq => ?_
    have hjk : j ≠ k := fun e => hfree (e ▸ hj')
    rw [hold j hj hjk] at hj' heq
    exact hjk (hu j hj k hk hj' hused (by rw [heq, hkey, hb]))
  · rename_i hb
    cases hf : find used key n slot b with
    | none =>
      refine find_eq_none.2 fun j hj hj' heq => ?_
      have hjk : j ≠ k := fun e => hfree (e ▸ hj')
      rw [hold j hj hjk] at hj' heq
      exact find_eq_none.1 hf j hj hj' heq
    | some j =>
      obtain ⟨hjn, hj', heq⟩ := of_find hf
      have hjk : j ≠ k := by
        rintro rfl
        exact hb (heq.symm.trans hkey)
      rw [← hold j hjn hjk] at hj' heq
      exact hu'.find_eq_some.2 ⟨hjn, hj', heq⟩

end Clear

end Slots
