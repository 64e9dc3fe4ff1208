import Mathlib.Data.List.Chain
import Mathlib.Data.List.Nodup
import Mathlib.Logic.Function.Basic
import Mathlib.Tactic.Common

/-!
# Circular doubly linked lists

Nodes of a type `α` have a `next` and a `prev` pointer. `Circle s h l` says that the pointers form one
circle through the node `h`, the head, and then the nodes of `l`. `unlink` and `pushFront` are the usual
assignments to the pointers, in the usual order, and `find` is a walk around the circle until the head is
met.
-/

namespace Dlist

open Function List

variable {α : Type} [DecidableEq α]

/-- The pointers of all nodes. -/
structure Links (α : Type) where
  next : α → α
  prev : α → α

namespace Links

variable (s : Links α)

/-- `b` comes after `a`. -/
def Joined (a b : α) : Prop := s.next a = b ∧ s.prev b = a

/-- One circle through `h` and `l`. -/
structure Circle (h : α) (l : List α) : Prop where
  chain : List.IsChain s.Joined (h :: l ++ [h])
  nodup : (h :: l).Nodup

def setNext (a b : α) : Links α := { s with next := update s.next a b }

def setPrev (a b : α) : Links α := { s with prev := update s.prev a b }

/-- `b->next->prev = b->prev; b->prev->next = b->next` -/
def unlink (b : α) : Links α :=
  let s₁ := s.setPrev (s.next b) (s.prev b)
  s₁.setNext (s₁.prev b) (s₁.next b)

/-- `b->next = h->next; b->prev = h; h->next->prev = b; h->next = b` -/
def pushFront (h b : α) : Links α :=
  let s₁ := s.setNext b (s.next h)
  let s₂ := s₁.setPrev b h
  let s₃ := s₂.setPrev (s₂.next h) b
  s₃.setNext h b

/-- The same circle, the other way around. -/
def flip : Links α := ⟨s.prev, s.next⟩

/-- `for(b = start; b != h; b = step(b)) if(p(b)) return b`, for at most `k` nodes. -/
def find (step : α → α) (h : α) (p : α → Bool) : ℕ → α → Option α
  | 0, _ => none
  | k + 1, b => if b = h then none else if p b then some b else find step h p k (step b)

variable {s} {s' : Links α} {h b : α} {l : List α}

omit [DecidableEq α] in
/-- Pointers that agree along a chain. -/
theorem isChain_congr (hc : List.IsChain s.Joined l) (hn : ∀ a ∈ l.dropLast, s'.next a = s.next a)
    (hp : ∀ a ∈ l.tail, s'.prev a = s.prev a) : List.IsChain s'.Joined l := by
  induction l with
  | nil => exact .nil
  | cons a l ih =>
    cases l with
    | nil => exact .singleton a
    | cons b l =>
      rw [isChain_cons_cons] at hc ⊢
      refine ⟨⟨(hn a (by simp)).trans hc.1.1, (hp b (by simp)).trans hc.1.2⟩, ih hc.2 ?_ ?_⟩
      · exact fun x hx => hn x (by simp [hx])
      · exact fun x hx => hp x (mem_cons_of_mem _ hx)

omit [DecidableEq α] in
theorem Circle.flip (hc : s.Circle h l) : s.flip.Circle h l.reverse where
  chain := by
    have hr := isChain_reverse.2 hc.chain
    rw [cons_append, reverse_cons, reverse_append, reverse_singleton] at hr
    exact hr.imp fun a b hab => ⟨hab.2, hab.1⟩
  nodup := by
    have hn := hc.nodup
    rw [nodup_cons] at hn ⊢
    exact ⟨by simpa using hn.1, nodup_reverse.2 hn.2⟩

/-- A node is taken out of the circle. -/
theorem Circle.unlink {l₁ l₂ : List α} (hc : s.Circle h (l₁ ++ b :: l₂)) :
    (s.unlink b).Circle h (l₁ ++ l₂) := by
  obtain ⟨hc, hn⟩ := hc
  -- `u` and `v` are the neighbours of `b`; either may be the head
  obtain ⟨p, u, hu⟩ : ∃ p u, h :: l₁ = p ++ [u] :=
    ⟨_, _, (dropLast_append_getLast (cons_ne_nil h l₁)).symm⟩
  obtain ⟨v, q, hv⟩ : ∃ v q, l₂ ++ [h] = v :: q := exists_cons_of_ne_nil (by simp)
  have hfull : h :: (l₁ ++ b :: l₂) ++ [h] = p ++ u :: b :: v :: q := by
    calc h :: (l₁ ++ b :: l₂) ++ [h] = (h :: l₁) ++ b :: (l₂ ++ [h]) := by simp
      _ = p ++ u :: b :: v :: q := by simp [hu, hv]
  have hgoal : h :: (l₁ ++ l₂) ++ [h] = p ++ u :: v :: q := by
    calc h :: (l₁ ++ l₂) ++ [h] = (h :: l₁) ++ (l₂ ++ [h]) := by simp
      _ = p ++ u :: v :: q := by simp [hu, hv]
  rw [hfull, isChain_append_cons_cons, isChain_cons_cons] at hc
  obtain ⟨hp, hub, hbv, hq⟩ := hc
  have hsplit : (h :: l₁).Nodup ∧ (b :: l₂).Nodup ∧ (h :: l₁).Disjoint (b :: l₂) :=
    nodup_append'.1 hn
  obtain ⟨hn₁, hn₂, hd⟩ := hsplit
  have hbu : b ≠ v := by
    intro e
    have : v ∈ l₂ ++ [h] := by rw [hv]; simp
    rcases mem_append.1 this with hm | hm
    · exact (nodup_cons.1 hn₂).1 (e ▸ hm)
    · exact hd (mem_cons_self) (by rw [← mem_singleton.1 hm, ← e]; simp)
  have hnext : (s.unlink b).next = update s.next u v := by
    simp [Links.unlink, setNext, setPrev, hub.2, hbv.1, hbu]
  have hprev : (s.unlink b).prev = update s.prev v u := by
    simp [Links.unlink, setNext, setPrev, hub.2, hbv.1]
  refine ⟨?_, ?_⟩
  · rw [hgoal, isChain_append_cons_cons]
    refine ⟨isChain_congr hp ?_ ?_, ⟨by simp [hnext], by simp [hprev]⟩, isChain_congr hq ?_ ?_⟩
    · intro a ha
      rw [dropLast_concat] at ha
      rw [hnext, update_of_ne]
      rintro rfl
      rw [hu] at hn₁
      exact (nodup_append'.1 hn₁).2.2 ha (by simp)
    · intro a ha
      rw [← hu, tail_cons] at ha
      rw [hprev, update_of_ne]
      rintro rfl
      have : a ∈ l₂ ++ [h] := by rw [hv]; simp
      rcases mem_append.1 this with hm | hm
      · exact hd (mem_cons_of_mem _ ha) (mem_cons_of_mem _ hm)
      · exact (nodup_cons.1 hn₁).1 (mem_singleton.1 hm ▸ ha)
    · intro a ha
      rw [← hv, dropLast_concat] at ha
      rw [hnext, update_of_ne]
      rintro rfl
      exact hd (by rw [hu]; simp) (mem_cons_of_mem _ ha)
    · intro a ha
      rw [tail_cons] at ha
      rw [hprev, update_of_ne]
      rintro rfl
      have hvq : (a :: q).Nodup := by
        rw [← hv, nodup_append']
        refine ⟨(nodup_cons.1 hn₂).2, by simp, ?_⟩
        intro x hx hh
        exact hd (by simp) (mem_cons_of_mem _ (mem_singleton.1 hh ▸ hx))
      exact (nodup_cons.1 hvq).1 ha
  · have : (h :: l₁ ++ l₂).Nodup := by
      rw [nodup_append']
      exact ⟨hn₁, (nodup_cons.1 hn₂).2, fun x hx hy => hd hx (mem_cons_of_mem _ hy)⟩
    exact this

/-- A node that is not in the circle is put after the head. -/
theorem Circle.pushFront (hc : s.Circle h l) (hb : b ∉ h :: l) :
    (s.pushFront h b).Circle h (b :: l) := by
  obtain ⟨hc, hn⟩ := hc
  obtain ⟨v, q, hv⟩ : ∃ v q, l ++ [h] = v :: q := exists_cons_of_ne_nil (by simp)
  have hbh : b ≠ h := fun e => hb (by simp [e])
  have hbl : b ∉ l := fun hm => hb (mem_cons_of_mem _ hm)
  rw [cons_append, hv, isChain_cons_cons] at hc
  obtain ⟨⟨hhv, -⟩, hq⟩ := hc
  have hvq : (v :: q).Nodup := by
    rw [← hv, nodup_append_comm]
    exact hn
  have hbv : b ∉ v :: q := by simp [← hv, hbh, hbl]
  have hvb : v ≠ b := fun e => hbv (by simp [e])
  have hnext : (s.pushFront h b).next = update (update s.next b v) h b := by
    simp [Links.pushFront, setNext, setPrev, hhv]
  have hprev : (s.pushFront h b).prev = update (update s.prev b h) v b := by
    simp [Links.pushFront, setNext, setPrev, hhv, hbh.symm]
  refine ⟨?_, ?_⟩
  · rw [cons_append, cons_append, hv, isChain_cons_cons, isChain_cons_cons]
    refine ⟨⟨by simp [hnext], by simp [hprev, hvb.symm]⟩,
      ⟨by simp [hnext, hbh], by simp [hprev]⟩, isChain_congr hq ?_ ?_⟩
    · intro a ha
      rw [← hv, dropLast_concat] at ha
      have hah : a ≠ h := fun e => (nodup_cons.1 hn).1 (e ▸ ha)
      have hab : a ≠ b := fun e => hbl (e ▸ ha)
      simp [hnext, hah, hab]
    · intro a ha
      rw [tail_cons] at ha
      have hav : a ≠ v := fun e => (nodup_cons.1 hvq).1 (e ▸ ha)
      have hab : a ≠ b := fun e => hbv (mem_cons_of_mem _ (e ▸ ha))
      simp [hprev, hav, hab]
  · rw [nodup_cons] at hn ⊢
    exact ⟨by simp [hbh.symm, hn.1], nodup_cons.2 ⟨hbl, hn.2⟩⟩

/-- A node of the circle moves to its front. -/
theorem Circle.toFront {l₁ l₂ : List α} (hc : s.Circle h (l₁ ++ b :: l₂)) :
    ((s.unlink b).pushFront h b).Circle h (b :: (l₁ ++ l₂)) := by
  refine hc.unlink.pushFront ?_
  have hn : (b :: (h :: l₁ ++ l₂)).Nodup := nodup_middle.1 hc.nodup
  exact (nodup_cons.1 hn).1

/-- A walk along a chain that ends in the head. -/
theorem find_chain (p : α → Bool) {a : α} (hc : List.IsChain s.Joined (a :: l ++ [h])) (hl : h ∉ l) :
    find s.next h p (l.length + 1) (s.next a) = l.find? p := by
  induction l generalizing a with
  | nil =>
    have ha : s.next a = h := (isChain_cons_cons.1 hc).1.1
    simp [find, ha]
  | cons b l ih =>
    rw [cons_append, cons_append, isChain_cons_cons] at hc
    obtain ⟨⟨hab, -⟩, hc⟩ := hc
    rw [mem_cons, not_or] at hl
    rw [length_cons, find, hab, if_neg (Ne.symm hl.1), List.find?_cons, ih hc hl.2]
    cases p b <;> rfl

/-- The walk over `next` meets the nodes in the order of the list. -/
theorem Circle.find_next (hc : s.Circle h l) (p : α → Bool) :
    find s.next h p (l.length + 1) (s.next h) = l.find? p :=
  find_chain p hc.chain (nodup_cons.1 hc.nodup).1

/-- The walk over `prev` meets them in the opposite order. -/
theorem Circle.find_prev (hc : s.Circle h l) (p : α → Bool) :
    find s.prev h p (l.length + 1) (s.prev h) = l.reverse.find? p := by
  have := hc.flip.find_next p
  rwa [length_reverse] at this

end Links

end Dlist
