import Xv6.Vm.Pages

/-!
# Copying an address space

`uvmcopy` gives the child of a fork its own copy of every page that the parent has mapped below its size,
with the same flags. Holes stay holes, and a copy that fails for lack of memory leaves nothing behind.
-/

namespace Xv6

open Nat

variable {ι X : Type} {ρ : ι → ℕ} {g : X → ℕ} {F : Set ℕ} {s s' : Vm} {t t₀ : ι} {sz : ℕ}

/-- The page of a valid leaf. -/
theorem PTE2PA_eq_child {e : ℕ} (hv : has e PTE_V = true) : PTE2PA e = child e := by
  rw [child, if_pos hv]

theorem lor_valid {f : ℕ} (hv : has f PTE_V = true) : f ||| PTE_V = f := by
  rw [has_valid] at hv
  refine eq_of_testBit_eq fun i => ?_
  rw [testBit_or]
  cases i with
  | zero => simp [testBit_zero, hv]
  | succ i => rw [testBit_succ PTE_V, show PTE_V / 2 = 0 from rfl, zero_testBit, Bool.or_false]

/-- Two user leaves that lead to the same page are one. -/
theorem Heap.leaf_inj {t' : ι} {va va' : ℕ} (h : Heap userPages ρ g F s) (hva : va < TRAPFRAME)
    (hva' : va' < TRAPFRAME) (hne : child (s.leaf (ρ t) va) ≠ 0)
    (e : child (s.leaf (ρ t) va) = child (s.leaf (ρ t') va')) : t = t' ∧ va / 4096 = va' / 4096 := by
  have hTM : TRAPFRAME < MAXVA := by decide
  have := h.ledger.inj (.inl (t, place va)) (.inl (t', place va'))
    (by rw [refs_place (userPages_place hva), refs_place (userPages_place hva'), e])
    (by rwa [refs_place (userPages_place hva)])
  simp only [Sum.inl.injEq, Prod.mk.injEq] at this
  exact ⟨this.1, place_inj (by omega) (by omega) this.2⟩

/-- The address `va` of the child `t` in `s'` is a copy of that of the parent `t₀` in `s`: it is mapped
if the parent's is, with the same flags and the same bytes, in a page that is no page of the parent and no
other page of the child. -/
structure CopyOf (ρ : ι → ℕ) (t₀ t : ι) (s s' : Vm) (va : ℕ) : Prop where
  mapped : has (s'.leaf (ρ t) va) PTE_V = has (s.leaf (ρ t₀) va) PTE_V
  flags : PTE_FLAGS (s'.leaf (ρ t) va) = PTE_FLAGS (s.leaf (ρ t₀) va)
  bytes : has (s.leaf (ρ t₀) va) PTE_V = true →
    s'.mem (PTE2PA (s'.leaf (ρ t) va) / PGSIZE) = s.mem (PTE2PA (s.leaf (ρ t₀) va) / PGSIZE)
  parent : has (s.leaf (ρ t₀) va) PTE_V = true → ∀ va' < TRAPFRAME,
    has (s.leaf (ρ t₀) va') PTE_V = true → PTE2PA (s'.leaf (ρ t) va) ≠ PTE2PA (s.leaf (ρ t₀) va')
  distinct : has (s.leaf (ρ t₀) va) PTE_V = true → ∀ va' < TRAPFRAME, va' / PGSIZE ≠ va / PGSIZE →
    has (s'.leaf (ρ t) va') PTE_V = true → PTE2PA (s'.leaf (ρ t) va) ≠ PTE2PA (s'.leaf (ρ t) va')

/-- The page table `t₀` and its pages are as before. -/
structure Unchanged (ρ : ι → ℕ) (t₀ : ι) (s s' : Vm) : Prop where
  leaves : ∀ va < MAXVA, s'.leaf (ρ t₀) va = s.leaf (ρ t₀) va
  bytes : ∀ va < TRAPFRAME, has (s.leaf (ρ t₀) va) PTE_V = true →
    s'.mem (PTE2PA (s.leaf (ρ t₀) va) / PGSIZE) = s.mem (PTE2PA (s.leaf (ρ t₀) va) / PGSIZE)

/-- A mapped page below `TRAPFRAME` is there. -/
theorem Leaves.child_ne_zero {va : ℕ} (h : Leaves ρ t s) (hva : va < TRAPFRAME)
    (hv : has (s.leaf (ρ t) va) PTE_V = true) : child (s.leaf (ρ t) va) ≠ 0 := by
  rcases h va hva with e | e
  · rw [e] at hv
    cases hv
  · exact e.2

/-- What belongs to another page table is as before. -/
theorem Heap.unchanged (h : Heap userPages ρ g F s) (hl : Leaves ρ t₀ s) (hne : t₀ ≠ t)
    (hs : Spares userPages (ρ t) s s') : Unchanged ρ t₀ s s' where
  leaves va _ := h.leaf_of_spares depth_userPages hs hne va
  bytes va hva hv := by
    rw [PTE2PA_eq_child hv]
    exact h.leaf_spares hva hne (hl.child_ne_zero hva hv) hs

/-- A successful `uvmcopy`, page by page. -/
theorem CopyPost.copyOf {i : ℕ} (h : CopyPost ρ g F t₀ t s i 0 s') (hk : KERNBASE ≤ s.kend)
    (hsame : Unchanged ρ t₀ s s') (hne : t₀ ≠ t) {va : ℕ} (hva : va < i) (hmax : i ≤ TRAPFRAME) :
    CopyOf ρ t₀ t s s' va := by
  have hTM : TRAPFRAME < MAXVA := by decide
  have hc : Copied ρ t₀ t i s s' := by
    rcases h.result with ⟨-, hc⟩ | ⟨e, -⟩
    · exact hc
    · cases e
  rcases hc.pages va hva with ⟨e', e⟩ | ⟨hv, pa, hpa, e'⟩
  · -- a hole
    have hv : has (s.leaf (ρ t₀) va) PTE_V = false := by
      rw [e]
      rfl
    have hno : ¬ has (s.leaf (ρ t₀) va) PTE_V = true := by simp [hv]
    exact ⟨by rw [e, e'], by rw [e, e'], fun hv' => absurd hv' hno, fun hv' => absurd hv' hno,
      fun hv' => absurd hv' hno⟩
  · obtain ⟨hv', hch, hch0⟩ := leafEntry_frame hk hpa (PTE_FLAGS_lt (s.leaf (ρ t₀) va))
    rw [← e'] at hv' hch hch0
    refine ⟨hv'.trans hv.symm, ?_, fun _ => ?_, fun _ va' hva' hvp e => ?_, fun _ va' hva' hpage hvc e => ?_⟩
    · rw [e', PTE_FLAGS_leafEntry (PTE_FLAGS_lt _)]
      exact lor_valid ((PTE_FLAGS_has (by decide)).trans hv)
    · rw [PTE2PA_eq_child hv', PTE2PA_eq_child hv]
      refine h.contents rfl va hva fun e => ?_
      rw [e] at hv
      cases hv
    · have hvp' : has (s'.leaf (ρ t₀) va') PTE_V = true := by rwa [hsame.leaves va' (by omega)]
      rw [← hsame.leaves va' (by omega), PTE2PA_eq_child hv', PTE2PA_eq_child hvp'] at e
      exact hne (h.heap.leaf_inj (by omega) hva' hch0 e).1.symm
    · rw [PTE2PA_eq_child hv', PTE2PA_eq_child hvc] at e
      exact hpage (h.heap.leaf_inj (by omega) hva' hch0 e).2.symm

/-- **Fork copies exactly.** `uvmcopy` returns. If it returns 0, every address below the size is a copy of
the parent's; otherwise it returns -1 and the child has no user page. The parent is unchanged. -/
theorem uvmcopy_exact (h : Heap userPages ρ g F s) (ht₀ : ρ t₀ ≠ 0) (ht : ρ t ≠ 0) (hne : t₀ ≠ t)
    (hl : Leaves ρ t₀ s) (hz : ∀ va < TRAPFRAME, s.leaf (ρ t) va = 0) (hsz : sz ≤ TRAPFRAME) :
    ∃ r s', uvmcopy (ρ t₀) (ρ t) sz s = (.ok r, s') ∧ Unchanged ρ t₀ s s' ∧
      (r = 0 ∧ (∀ va < sz, CopyOf ρ t₀ t s s' va) ∨
        r = -1 ∧ ∀ va < TRAPFRAME, has (s'.leaf (ρ t) va) PTE_V = false) := by
  have hTM : TRAPFRAME < MAXVA := by decide
  have hmax := PGROUNDUP_le hsz (by decide) hTM.le
  have hup := le_PGROUNDUP (show sz ≤ MAXVA by omega)
  obtain ⟨r, s', he, hq⟩ := Prog.wp_total (wp_uvmcopy h ht₀ ht hne hl hz hsz)
  have hsame := h.unchanged hl hne hq.spares
  refine ⟨r, s', he, hsame, ?_⟩
  rcases hq.result with ⟨rfl, -⟩ | ⟨rfl, hleaf⟩
  · exact Or.inl ⟨rfl, fun va hva => hq.copyOf h.kend hsame hne (by omega) hmax⟩
  · refine Or.inr ⟨rfl, fun va hva => ?_⟩
    rw [hleaf t va (by omega), hz va hva]
    rfl

/-! ## A process with one page -/

/-- A process with one page, and one that has just been allocated. -/
abbrev twoProcs : Space := fourteenPages.after [.allocproc, .sbrk ⟨0, by decide⟩ 4096 1, .allocproc]

theorem twoProcs_run : Trans.Run SpaceStep fourteenPages
    [(.allocproc, 0), (.sbrk 0 4096 1, 0), (.allocproc, 1)] twoProcs := by
  have h₃ : SpaceStep (fourteenPages.after [.allocproc, .sbrk 0 4096 1]) [(.allocproc, 1)] twoProcs :=
    .of_exec trivial rfl
  exact onePage_run.tail h₃

theorem uvmcopy_exact_page :
    ∃ r vm, uvmcopy (twoProcs.roots (some 0)) (twoProcs.roots (some 1)) 4096 twoProcs.vm = (.ok r, vm) ∧
      Unchanged twoProcs.roots (some 0) twoProcs.vm vm ∧
      (r = 0 ∧ (∀ va < 4096, CopyOf twoProcs.roots (some 0) (some 1) twoProcs.vm vm va) ∨
        r = -1 ∧ ∀ va < TRAPFRAME, has (vm.leaf (twoProcs.roots (some 1)) va) PTE_V = false) := by
  have hi := fourteenPages_booted.run twoProcs_run
  have hu₀ := (hi.inUse (Space.live_of_state (p := 0) (x := .used) rfl (by decide)).1).2.2
  have hu₁ := (hi.inUse (Space.live_of_state (p := 1) (x := .used) rfl (by decide)).1).2.2
  have hsz : PGROUNDUP (twoProcs.proc 1).sz = 0 := by decide +kernel
  exact uvmcopy_exact hi.heap hu₀.root hu₁.root (by decide) hu₀.leaves
    (fun va hva => hu₁.above va (hsz.trans_le (Nat.zero_le va)) hva) (by decide)

end Xv6
