import Xv6.Vm.Heap

/-!
# What belongs to others

A function that works on one page table may write to the pages of this page table and to free pages.
All other pages are foreign to it, and `Spares` says that their contents do not change: neither those of
other page tables and of the pages they map, nor those of pages that are kept elsewhere. Since the
invariant of the allocator gives each page one owner, a page that is foreign stays so
(`Heap.foreign`), and `Spares` composes along a run.
-/

namespace Xv6

open Vm List Nat

/-- The page `q` is in use, and not by the page table with the root `r`. -/
structure Foreign (owned : List ℕ → Bool) (r : ℕ) (s : Vm) (q : ℕ) : Prop where
  used : q ∉ s.free
  other : ∀ p, owned p = true → s.node r p ≠ q

/-- From `s` to `s'`, only pages of the page table `r` and free pages have changed. -/
def Spares (owned : List ℕ → Bool) (r : ℕ) (s s' : Vm) : Prop :=
  ∀ n, Foreign owned r s (n * 4096) → s'.mem n = s.mem n

/-- From `s` to `s'`, what was foreign to the page table has stayed so and is as it was. -/
def Spared (owned : List ℕ → Bool) (r : ℕ) (s s' : Vm) : Prop :=
  ∀ n, Foreign owned r s (n * 4096) → Foreign owned r s' (n * 4096) ∧ s'.mem n = s.mem n

variable {ι X : Type} {owned : List ℕ → Bool} {ρ ρ' : ι → ℕ} {g : X → ℕ} {F F' : Set ℕ}
  {s s' s'' s₀ : Vm} {pa r n : ℕ} {t : ι} {p : List ℕ}

/-- The null page is foreign to no page table: entries that are not there lead to it. -/
theorem Foreign.ne_zero (hD : Depth owned) (h : Foreign owned r s pa) : pa ≠ 0 := fun e => by
  refine h.other [512] (hD.table _ (by simp)) ?_
  rw [Vm.node_cons, ent_of_ge le_rfl, child_zero, Vm.node_nil, e]

theorem not_foreign_of_free (h : pa ∈ s.free) : ¬ Foreign owned r s pa := fun hf => hf.used h

theorem not_foreign_node (ho : owned p = true) : ¬ Foreign owned r s (s.node r p) :=
  fun hf => hf.other p ho rfl

namespace Spares

theorem refl (owned : List ℕ → Bool) (r : ℕ) (s : Vm) : Spares owned r s s := fun _ _ => rfl

theorem fill (h : Spares owned r s₀ s) (ha : pa % 4096 = 0) (hpa : ¬ Foreign owned r s₀ pa) (d : Page) :
    Spares owned r s₀ (s.setPage pa d) := by
  intro n hn
  refine (mem_setPage_of_ne fun e => hpa ?_).trans (h n hn)
  rwa [e, Nat.div_mul_cancel (dvd_of_mod_eq_zero ha)] at hn

theorem setPte {b i v : ℕ} (h : Spares owned r s₀ s) (ha : b % 4096 = 0) (hi : i < 512)
    (hb : ¬ Foreign owned r s₀ b) : Spares owned r s₀ (s.setPte (b + 8 * i) v) := by
  intro n hn
  refine (mem_setPte_of_ne fun e => hb ?_).trans (h n hn)
  rwa [show n * 4096 = b by omega] at hn

end Spares

theorem Spared.refl (owned : List ℕ → Bool) (r : ℕ) (s : Vm) : Spared owned r s s :=
  fun _ hn => ⟨hn, rfl⟩

theorem Spared.spares (h : Spared owned r s s') : Spares owned r s s' := fun n hn => (h n hn).2

namespace Heap

theorem refs_node (h : owned p = true) : refs owned ρ g s (.inl (t, p)) = s.node (ρ t) p := by
  simp only [refs, h, if_true]

/-- The pages of other page tables are foreign. -/
theorem foreign_node (h : Heap owned ρ g F s) {t' : ι} (ht : t' ≠ t) (ho : owned p = true)
    (hp : s.node (ρ t') p ≠ 0) : Foreign owned (ρ t) s (s.node (ρ t') p) where
  used := by
    have := h.ledger.used_of_ref (p := .inl (t', p)) (by rwa [refs_node ho])
    rwa [refs_node ho] at this
  other q hq e := by
    have := h.ledger.inj (.inl (t, q)) (.inl (t', p)) (by rw [refs_node hq, refs_node ho, e])
      (by rw [refs_node hq, e]; exact hp)
    simp only [Sum.inl.injEq, Prod.mk.injEq] at this
    exact ht this.1.symm

/-- Other page tables keep their nodes. -/
theorem node_of_spares (hD : Depth owned) (h : Heap owned ρ g F s) (hs : Spares owned (ρ t) s s')
    {t' : ι} (ht : t' ≠ t) (hp : p.length ≤ 3) : s'.node (ρ t') p = s.node (ρ t') p := by
  refine Radix.node_congr child (C := fun b _ => b ≠ 0 ∧ s'.mem (b / 4096) ≠ s.mem (b / 4096))
    (fun b k hb => ?_) fun q k rest e => ?_
  · unfold ent
    simp only [PGSIZE]
    split
    · rfl
    · rename_i h₀
      rw [not_and_not_right.1 hb h₀]
  · rintro ⟨hb, hm⟩
    rw [e] at hp
    simp only [length_append, length_cons] at hp
    have hf := h.foreign_node (t := t) ht (hD.table q (by omega)) hb
    refine hm (hs _ ?_)
    rwa [Nat.div_mul_cancel (dvd_of_mod_eq_zero (h.node_aligned hD))]

/-- Other page tables keep their leaves. -/
theorem leaf_of_spares (hD : Depth owned) (h : Heap owned ρ g F s) (hs : Spares owned (ρ t) s s')
    {t' : ι} (ht : t' ≠ t) (va : ℕ) : s'.leaf (ρ t') va = s.leaf (ρ t') va := by
  have hn := h.node_of_spares hD hs (p := [PX 2 va, PX 1 va]) ht (by simp)
  rw [Vm.leaf, Vm.leaf, hn]
  unfold ent
  simp only [PGSIZE]
  split
  · rfl
  · rename_i hb
    have hf := h.foreign_node (t := t) ht (hD.table [PX 2 va, PX 1 va] (by simp)) hb
    rw [hs _ (by rwa [Nat.div_mul_cancel (dvd_of_mod_eq_zero (h.node_aligned hD))])]

/-- What is foreign stays so: its owner is the same as before. -/
theorem foreign (hD : Depth owned) (h : Heap owned ρ g F s) (h' : Heap owned ρ' g F' s') (hF : F ⊆ F')
    (hρ : ∀ t' ≠ t, ρ' t' = ρ t') (hk : s'.kend = s.kend) (hs : Spares owned (ρ t) s s') {q : ℕ}
    (hq : Foreign owned (ρ t) s q) : Foreign owned (ρ' t) s' q := by
  have h₀ := hq.ne_zero hD
  by_cases hfr : q ∈ frames s.kend
  · have hown : (∃ x, (∀ p, x ≠ .inl (t, p)) ∧ refs owned ρ' g s' x = q) ∨ q ∈ F' := by
      refine ((h.ledger.used_iff q hfr).1 hq.used).imp (fun hx => ?_) fun hm => hF hm
      obtain ⟨⟨t', p⟩ | x, rfl⟩ := hx
      · have ho : owned p = true := by
          by_contra hn
          exact h₀ (by simp [refs, hn])
        rw [refs_node ho] at hq ⊢
        have ht : t' ≠ t := fun e => hq.other p ho (by rw [e])
        refine ⟨.inl (t', p), fun p' e => ?_, ?_⟩
        · cases e
          exact ht rfl
        · rw [refs_node ho, hρ t' ht, h.node_of_spares hD hs ht (hD.leaf p ho)]
      · exact ⟨.inr x, fun p e => (by cases e), rfl⟩
    rw [← hk] at hfr
    refine ⟨(h'.ledger.used_iff q hfr).2 (hown.imp_left fun hx => ⟨hx.choose, hx.choose_spec.2⟩), fun p ho e => ?_⟩
    rcases hown with ⟨x, hx, ex⟩ | hm
    · refine hx p (h'.ledger.inj x (.inl (t, p)) (by rw [ex, refs_node ho, e]) (by rwa [ex]))
    · exact h'.refs_ne_of_float hm (.inl (t, p)) (by rw [refs_node ho, e])
  · rw [← hk] at hfr
    refine ⟨fun hm => hfr (h'.free q hm), fun p ho e => hfr ?_⟩
    have := h'.ledger.range (.inl (t, p)) (by rw [refs_node ho, e]; exact h₀)
    rwa [refs_node ho, e] at this

theorem spares_trans (hD : Depth owned) (h : Heap owned ρ g F s) (h' : Heap owned ρ' g F' s')
    (hF : F ⊆ F') (hρ : ∀ t' ≠ t, ρ' t' = ρ t') (hk : s'.kend = s.kend)
    (hs : Spares owned (ρ t) s s') (hs' : Spares owned (ρ' t) s' s'') : Spares owned (ρ t) s s'' :=
  fun n hn => (hs' n (h.foreign hD h' hF hρ hk hs hn)).trans (hs n hn)

theorem spared_trans (hD : Depth owned) (h' : Heap owned ρ g F s') (h'' : Heap owned ρ g F' s'')
    (hF : F ⊆ F') (hk : s''.kend = s'.kend) (hs : Spared owned (ρ t) s s')
    (hs' : Spares owned (ρ t) s' s'') : Spared owned (ρ t) s s'' := fun n hn =>
  ⟨h'.foreign hD h'' hF (fun _ _ => rfl) hk hs' (hs n hn).1, (hs' n (hs n hn).1).trans (hs n hn).2⟩

/-- A page of the page table after a run was a page of it before, or free. -/
theorem not_foreign_of_spares (hD : Depth owned) (h : Heap owned ρ g F s) (h' : Heap owned ρ' g F' s')
    (hF : F ⊆ F') (hρ : ∀ t' ≠ t, ρ' t' = ρ t') (hk : s'.kend = s.kend)
    (hs : Spares owned (ρ t) s s') (ho : owned p = true) : ¬ Foreign owned (ρ t) s (s'.node (ρ' t) p) :=
  fun hf => (h.foreign hD h' hF hρ hk hs hf).other p ho rfl

end Heap

end Xv6
