import Mathlib.Data.Set.Insert
import Mathlib.Logic.Equiv.Defs
import Mathlib.Logic.Function.Basic
import Mathlib.Tactic.Common

/-!
# Ledgers of owned units

An allocator hands out units of a range `R` and marks them as used; places of a data structure refer
to units, the value 0 standing for no unit. `Ledger R m used F` says that every used unit is referred
to by exactly one place of `m` or is floating: allocated, but not yet (or no longer) stored in a
place. There are four moves: `take` and `give` are those of the allocator, `attach` stores a floating
unit in an empty place, and `detach` empties a set of places at once.
-/

variable {P B : Type} [Zero B]

/-- Every unit of `R` that is used is referred to by exactly one place or is in `F`. -/
structure Ledger (R : Set B) (m : P → B) (used : B → Prop) (F : Set B) : Prop where
  pos : (0 : B) ∉ R
  range : ∀ p, m p ≠ 0 → m p ∈ R
  inj : ∀ p q, m p = m q → m p ≠ 0 → p = q
  float : ∀ b ∈ F, b ∈ R ∧ ∀ p, m p ≠ b
  used_iff : ∀ b ∈ R, used b ↔ (∃ p, m p = b) ∨ b ∈ F

namespace Ledger

open Function

variable {R F : Set B} {m : P → B} {used used' : B → Prop} {b : B}

theorem ne_zero (h : Ledger R m used F) (hb : b ∈ R) : b ≠ 0 := fun e => h.pos (e ▸ hb)

/-- A referenced unit is used. -/
theorem used_of_ref (h : Ledger R m used F) {p : P} (hp : m p ≠ 0) : used (m p) :=
  (h.used_iff _ (h.range p hp)).2 (.inl ⟨p, rfl⟩)

/-- No place refers to a unit that is not used. -/
theorem ref_ne_of_not_used (h : Ledger R m used F) (hb : b ∈ R) (hu : ¬ used b) (p : P) : m p ≠ b :=
  fun e => hu ((h.used_iff b hb).2 (.inl ⟨p, e⟩))

theorem congr (h : Ledger R m used F) (hu : ∀ c ∈ R, used' c ↔ used c) : Ledger R m used' F :=
  { h with used_iff := fun b hb => (hu b hb).trans (h.used_iff b hb) }

/-- The places under other names. -/
theorem comp {P' : Type} (h : Ledger R m used F) (e : P' ≃ P) : Ledger R (m ∘ e) used F where
  pos := h.pos
  range p hp := h.range (e p) hp
  inj p q hpq hp := e.injective (h.inj (e p) (e q) hpq hp)
  float b hb := ⟨(h.float b hb).1, fun p => (h.float b hb).2 (e p)⟩
  used_iff b hb := by
    rw [h.used_iff b hb, e.surjective.exists]
    rfl

/-- The allocator hands out a unit that is not used. -/
theorem take (h : Ledger R m used F) (hb : b ∈ R) (hu : ¬ used b)
    (hu' : ∀ c ∈ R, used' c ↔ c = b ∨ used c) : Ledger R m used' (insert b F) where
  pos := h.pos
  range := h.range
  inj := h.inj
  float c hc := by
    rcases hc with rfl | hc
    · exact ⟨hb, h.ref_ne_of_not_used hb hu⟩
    · exact h.float c hc
  used_iff c hc := by
    rw [hu' c hc, h.used_iff c hc, Set.mem_insert_iff]
    exact or_left_comm

/-- The allocator takes back a floating unit. -/
theorem give (h : Ledger R m used F) (hb : b ∈ F) (hu' : ∀ c ∈ R, used' c ↔ c ≠ b ∧ used c) :
    Ledger R m used' (F \ {b}) where
  pos := h.pos
  range := h.range
  inj := h.inj
  float c hc := h.float c hc.1
  used_iff c hc := by
    rw [hu' c hc, h.used_iff c hc]
    constructor
    · rintro ⟨hne, hp | hF⟩
      · exact .inl hp
      · exact .inr ⟨hF, hne⟩
    · rintro (⟨p, rfl⟩ | ⟨hF, hne⟩)
      · exact ⟨(h.float b hb).2 p, .inl ⟨p, rfl⟩⟩
      · exact ⟨hne, .inr hF⟩

/-- A floating unit is stored in an empty place. -/
theorem attach [DecidableEq P] (h : Ledger R m used F) {p : P} (hp : m p = 0) (hb : b ∈ F) :
    Ledger R (update m p b) used (F \ {b}) where
  pos := h.pos
  range q hq := by
    by_cases e : q = p
    · subst e
      rw [update_self]
      exact (h.float b hb).1
    · rw [update_of_ne e] at hq ⊢
      exact h.range q hq
  inj q r e hq := by
    by_cases hqp : q = p <;> by_cases hrp : r = p
    · rw [hqp, hrp]
    · rw [hqp, update_self, update_of_ne hrp] at e
      exact absurd e.symm ((h.float b hb).2 r)
    · rw [hrp, update_self, update_of_ne hqp] at e
      exact absurd e ((h.float b hb).2 q)
    · rw [update_of_ne hqp, update_of_ne hrp] at e
      rw [update_of_ne hqp] at hq
      exact h.inj q r e hq
  float c hc := by
    refine ⟨(h.float c hc.1).1, fun q => ?_⟩
    by_cases e : q = p
    · rw [e, update_self]
      exact Ne.symm hc.2
    · rw [update_of_ne e]
      exact (h.float c hc.1).2 q
  used_iff c hc := by
    rw [h.used_iff c hc]
    constructor
    · rintro (⟨q, hq⟩ | hF)
      · refine .inl ⟨q, ?_⟩
        rw [update_of_ne fun e => h.ne_zero hc (by rw [← hq, e, hp]), hq]
      · by_cases e : c = b
        · exact .inl ⟨p, by rw [update_self, e]⟩
        · exact .inr ⟨hF, e⟩
    · rintro (⟨q, hq⟩ | hF)
      · by_cases e : q = p
        · rw [e, update_self] at hq
          exact .inr (hq ▸ hb)
        · rw [update_of_ne e] at hq
          exact .inl ⟨q, hq⟩
      · exact .inr hF.1

/-- The places of `S` are emptied and their units float. -/
theorem detach (h : Ledger R m used F) {m' : P → B} (S : Set P) (hS : ∀ p ∈ S, m' p = 0)
    (hS' : ∀ p ∉ S, m' p = m p) : Ledger R m' used (F ∪ {b | b ≠ 0 ∧ ∃ p ∈ S, m p = b}) where
  pos := h.pos
  range p hp := by
    by_cases e : p ∈ S
    · exact absurd (hS p e) hp
    · rw [hS' p e] at hp ⊢
      exact h.range p hp
  inj p q e hp := by
    have hpS : p ∉ S := fun hm => hp (hS p hm)
    have hqS : q ∉ S := fun hm => hp (e.trans (hS q hm))
    rw [hS' p hpS] at e hp
    rw [hS' q hqS] at e
    exact h.inj p q e hp
  float c hc := by
    rcases hc with hc | ⟨h0, p, hp, rfl⟩
    · refine ⟨(h.float c hc).1, fun q => ?_⟩
      by_cases e : q ∈ S
      · rw [hS q e]
        exact (h.ne_zero (h.float c hc).1).symm
      · rw [hS' q e]
        exact (h.float c hc).2 q
    · refine ⟨h.range p h0, fun q => ?_⟩
      by_cases e : q ∈ S
      · rw [hS q e]
        exact Ne.symm h0
      · rw [hS' q e]
        exact fun e' => e (h.inj p q e'.symm h0 ▸ hp)
  used_iff c hc := by
    rw [h.used_iff c hc]
    constructor
    · rintro (⟨p, hp⟩ | hF)
      · by_cases e : p ∈ S
        · exact .inr (.inr ⟨h.ne_zero hc, p, e, hp⟩)
        · exact .inl ⟨p, (hS' p e).trans hp⟩
      · exact .inr (.inl hF)
    · rintro (⟨p, hp⟩ | hF | ⟨-, p, -, hp⟩)
      · have e : p ∉ S := fun hm => h.ne_zero hc (by rw [← hp, hS p hm])
        exact .inl ⟨p, (hS' p e).symm.trans hp⟩
      · exact .inr hF
      · exact .inl ⟨p, hp⟩

end Ledger
