import Mathlib.Data.List.Nodup
import Mathlib.Logic.Function.Basic
import Mathlib.Tactic.Common

/-!
# Linked segments and cycles

`LinkedTo next l e` says that the links `next` lead through the elements of `l` in order and then to `e`. A
circular list with the elements `a :: l` is `LinkedTo next (a :: l) a`. All changes of a circular list that
touch the link of one element are instances of `LinkedTo.splice`: some elements behind it are replaced.
-/

variable {α : Type}

/-- The links lead through the list and then to `e`. -/
def LinkedTo (next : α → α) : List α → α → Prop
  | [], _ => True
  | a :: l, e => next a = l.headD e ∧ LinkedTo next l e

namespace LinkedTo

open List

variable {next next' : α → α} {l m A B M : List α} {a p e : α}

theorem headD_append (l m : List α) (e : α) : (l ++ m).headD e = l.headD (m.headD e) := by
  cases l <;> rfl

theorem append : LinkedTo next (l ++ m) e ↔ LinkedTo next l (m.headD e) ∧ LinkedTo next m e := by
  induction l with
  | nil => simp [LinkedTo]
  | cons a l ih =>
    rw [cons_append, LinkedTo, ih, headD_append, LinkedTo, and_assoc]

theorem congr (h : LinkedTo next l e) (hn : ∀ a ∈ l, next' a = next a) : LinkedTo next' l e := by
  induction l with
  | nil => trivial
  | cons a l ih =>
    refine ⟨?_, ih h.2 fun b hb => hn b (mem_cons_of_mem a hb)⟩
    rw [hn a mem_cons_self, h.1]

/-- The link of an element of the list. -/
theorem next_eq (h : LinkedTo next (A ++ p :: B) e) : next p = B.headD e := (append.1 h).2.1

/-- The links lead to later elements of the list or to its end. -/
theorem next_cases {R : α → α → Prop} (h : LinkedTo next l e) (hR : l.Pairwise R) (ha : a ∈ l) :
    next a = e ∨ next a ∈ l ∧ R a (next a) := by
  obtain ⟨A, B, rfl⟩ := append_of_mem ha
  rw [h.next_eq]
  cases B with
  | nil => exact Or.inl rfl
  | cons b B =>
    refine Or.inr ⟨by simp, ?_⟩
    rw [pairwise_append, pairwise_cons] at hR
    exact hR.2.1.1 b mem_cons_self

/-- The part of the list from an element on. -/
theorem exists_tail (h : LinkedTo next l e) (ha : a ∈ l) :
    ∃ S, LinkedTo next (a :: S) e ∧ (a :: S).length ≤ l.length ∧ ∀ x ∈ a :: S, x ∈ l := by
  obtain ⟨A, B, rfl⟩ := append_of_mem ha
  exact ⟨B, (append.1 h).2, by simp, fun x hx => mem_append_right A hx⟩

/-- A circular list from another of its elements on. -/
theorem rotate (h : LinkedTo next (a :: l) a) (hp : p ∈ a :: l) :
    ∃ S, LinkedTo next (p :: S) p ∧ (a :: l).Perm (p :: S) := by
  obtain ⟨A, B, hAB⟩ := append_of_mem hp
  rw [hAB] at h ⊢
  have ha : (A.headD p) = a := by
    have := congrArg (headD · a) hAB
    rw [headD_append] at this
    exact this.symm
  obtain ⟨hA, hp, hB⟩ := append.1 h
  have hBA : (B ++ A).headD p = B.headD a := by rw [headD_append, ha]
  refine ⟨B ++ A, ⟨hp.trans hBA.symm, append.2 ⟨by rwa [ha], hA⟩⟩, ?_⟩
  exact perm_middle.trans (perm_append_comm.cons p)

/-- The elements `X` behind `p` are replaced by `M`. -/
theorem splice {X : List α} (h : LinkedTo next (A ++ p :: (X ++ B)) e) (hn : ∀ a ∈ A ++ B, next' a = next a)
    (hp : next' p = (M ++ B).headD e) (hM : LinkedTo next' M (B.headD e)) :
    LinkedTo next' (A ++ p :: (M ++ B)) e := by
  obtain ⟨hA, -, hXB⟩ := append.1 h
  refine append.2 ⟨?_, hp, append.2 ⟨hM, ?_⟩⟩
  · exact congr hA fun a ha => hn a (mem_append_left _ ha)
  · exact congr (append.1 hXB).2 fun a ha => hn a (mem_append_right _ ha)

theorem ne_of_nodup (h : (A ++ p :: B).Nodup) (ha : a ∈ A ++ B) : a ≠ p := by
  rintro rfl
  exact (nodup_cons.1 (nodup_middle.1 h)).1 ha

/-- A list with the same first elements. -/
theorem exists_cons_eq {X Y : List α} (h : a :: l = A ++ p :: X) : ∃ l', a :: l' = A ++ p :: Y := by
  cases A with
  | nil =>
    obtain ⟨rfl, -⟩ := cons.inj h
    exact ⟨Y, rfl⟩
  | cons b A =>
    obtain ⟨rfl, -⟩ := cons.inj h
    exact ⟨A ++ p :: Y, rfl⟩

/-- The elements of a list of which some were replaced. -/
theorem perm_of_splice [DecidableEq α] {X l' : List α} (h : a :: l = A ++ p :: (X ++ B))
    (h' : a :: l' = A ++ p :: (M ++ B)) : (M ++ l).Perm (X ++ l') := by
  rw [perm_iff_count]
  intro c
  have h₁ := congrArg (count c) h
  have h₂ := congrArg (count c) h'
  simp only [count_cons, count_append] at h₁ h₂ ⊢
  omega

end LinkedTo
