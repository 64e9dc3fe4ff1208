import Mathlib.Data.List.Basic
import Mathlib.Data.List.Nodup
import Mathlib.Data.List.Perm.Basic
import Mathlib.Logic.Function.Basic
import Mathlib.Logic.Relation

/-!
# Spin locks

Processors `H` run code with positions `A` and take locks `L`. A processor is at a position, or it spins
on a lock with the position that it will have when it gets it. `Owns` is the invariant that ties the
table of the locks to the locks that the positions hold; it is kept when a processor moves without a
change of its locks, when it takes a free lock and when it releases one. `no_cycle` excludes cycles of
processors that spin on locks of each other: a rank grows from each one to the next.
-/

namespace Spin

open List

open Function (update update_self update_of_ne)

variable {H L A : Type}

/-- What a processor does. -/
inductive Ctl (A L : Type)
  | on (a : A)
  /-- at `a`, spins on `l`, and goes on at `b` -/
  | spin (a : A) (l : L) (b : A)

namespace Ctl

def pos : Ctl A L → A
  | on a => a
  | spin a _ _ => a

def Spinning (c : Ctl A L) : Prop := ∃ a l b, c = spin a l b

/-- A property of the position, and of the next one. -/
def Both (P : A → Prop) : Ctl A L → Prop
  | on a => P a
  | spin a _ b => P a ∧ P b

theorem Both.pos {P : A → Prop} {c : Ctl A L} (h : c.Both P) : P c.pos := by
  cases c with
  | on a => exact h
  | spin a l b => exact h.1

theorem Both.imp {P Q : A → Prop} (hPQ : ∀ a, P a → Q a) {c : Ctl A L} (h : c.Both P) : c.Both Q := by
  cases c with
  | on a => exact hPQ a h
  | spin a l b => exact ⟨hPQ a h.1, hPQ b h.2⟩

end Ctl

/-- The locks held by the processors are those in the table. -/
structure Owns (held : L → Option H) (holds : H → List L) : Prop where
  iff : ∀ l h, held l = some h ↔ l ∈ holds h
  nodup : ∀ h, (holds h).Nodup

namespace Owns

variable {held : L → Option H} {holds : H → List L} {h : H} {l : L} {r : List L}

/-- No two processors hold one lock. -/
theorem unique (ho : Owns held holds) {h' : H} (hl : l ∈ holds h) (hl' : l ∈ holds h') : h = h' := by
  have e := (ho.iff l h).2 hl
  have e' := (ho.iff l h').2 hl'
  exact Option.some.inj (e.symm.trans e')

variable [DecidableEq H] [DecidableEq L]

omit [DecidableEq L] in
/-- A processor moves and keeps its locks. -/
theorem keep (ho : Owns held holds) (hr : r.Perm (holds h)) : Owns held (update holds h r) := by
  refine ⟨fun k h' => ?_, fun h' => ?_⟩
  · by_cases e : h' = h
    · subst h'
      rw [update_self, hr.mem_iff]
      exact ho.iff k h
    · rw [update_of_ne e]
      exact ho.iff k h'
  · by_cases e : h' = h
    · subst h'
      rw [update_self]
      exact hr.nodup_iff.2 (ho.nodup h)
    · rw [update_of_ne e]
      exact ho.nodup h'

/-- A processor takes a free lock. -/
theorem take (ho : Owns held holds) (hl : held l = none) (hr : r.Perm (l :: holds h)) :
    Owns (update held l (some h)) (update holds h r) := by
  have hfree : ∀ h', l ∉ holds h' := fun h' hm => by
    rw [← ho.iff, hl] at hm
    cases hm
  refine ⟨fun k h' => ?_, fun h' => ?_⟩
  · by_cases ek : k = l <;> by_cases eh : h' = h
    · subst ek eh
      simp [hr.mem_iff]
    · subst ek
      simp [update_of_ne eh, hfree h', Ne.symm eh]
    · subst eh
      rw [update_of_ne ek, update_self, hr.mem_iff, mem_cons, ho.iff]
      simp [ek]
    · rw [update_of_ne ek, update_of_ne eh]
      exact ho.iff k h'
  · by_cases eh : h' = h
    · subst h'
      rw [update_self, hr.nodup_iff]
      exact nodup_cons.2 ⟨hfree h, ho.nodup h⟩
    · rw [update_of_ne eh]
      exact ho.nodup h'

/-- A processor releases a lock. -/
theorem give (ho : Owns held holds) (hr : (holds h).Perm (l :: r)) :
    Owns (update held l none) (update holds h r) := by
  have hn : l ∉ r ∧ r.Nodup := nodup_cons.1 (hr.nodup_iff.1 (ho.nodup h))
  have hmine : l ∈ holds h := hr.mem_iff.2 mem_cons_self
  refine ⟨fun k h' => ?_, fun h' => ?_⟩
  · by_cases ek : k = l <;> by_cases eh : h' = h
    · subst ek eh
      simp [hn.1]
    · subst ek
      have hno : k ∉ holds h' := fun hm => eh (ho.unique hm hmine)
      simp [update_of_ne eh, hno]
    · subst eh
      rw [update_of_ne ek, update_self, ho.iff, hr.mem_iff, mem_cons]
      simp [ek]
    · rw [update_of_ne ek, update_of_ne eh]
      exact ho.iff k h'
  · by_cases eh : h' = h
    · subst h'
      rw [update_self]
      exact hn.2
    · rw [update_of_ne eh]
      exact ho.nodup h'

end Owns

/-- `h` spins on a lock that `h'` holds. -/
def Waits (held : L → Option H) (ctl : H → Ctl A L) (h h' : H) : Prop :=
  ∃ a l b, ctl h = .spin a l b ∧ held l = some h'

variable {held : L → Option H} {ctl : H → Ctl A L}

/-- If a rank grows whenever a processor waits for one that spins itself, no processors wait for each
other in a circle. -/
theorem no_cycle (rank : H → ℕ)
    (hrank : ∀ h h', Waits held ctl h h' → (ctl h').Spinning → rank h < rank h') (h : H) :
    ¬ Relation.TransGen (Waits held ctl) h h := by
  have hgrow : ∀ h', Relation.TransGen (Waits held ctl) h h' → (ctl h').Spinning → rank h < rank h' := by
    intro h' hw
    induction hw with
    | single hw => exact hrank _ _ hw
    | tail _ hw ih =>
      intro hs
      obtain ⟨a, l, b, e, hl⟩ := hw
      exact Nat.lt_trans (ih ⟨a, l, b, e⟩) (hrank _ _ ⟨a, l, b, e, hl⟩ hs)
  intro hc
  obtain ⟨h₁, ⟨a, l, b, e, -⟩, -⟩ := Relation.TransGen.head'_iff.1 hc
  exact Nat.lt_irrefl _ (hgrow h hc ⟨a, l, b, e⟩)

end Spin
