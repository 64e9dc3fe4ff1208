import Xv6.Vm.Exec
import Mathlib.Logic.Equiv.Basic

/-!
# The memory of all processes

`Space.Inv` is the invariant between two operations: every page is owned once, by the free list, a page
table, a process, a pipe or the kernel since boot, and every process in use has the page table that its
size calls for. Each operation keeps it and does not panic, wherever the allocator refuses.
-/

namespace Xv6

open Function Prog Vm Set Option

variable {E : VmPanic → Space → Prop}

/-- Where a page is kept outside of the page tables. -/
inductive Keeper
  | trapframe (p : Slot)
  | pipe (k : ℕ)
  | boot (pa : ℕ)
  deriving DecidableEq

/-- A new page, with the contents that `kalloc` gives it. -/
theorem wp_kalloc_page {ι X : Type} {ρ : ι → ℕ} {g : X → ℕ} {F : Set ℕ} {s : Vm}
    {E : VmPanic → Vm → Prop} (h : Heap userPages ρ g F s) :
    wp kalloc (fun pa s' => s'.kend = s.kend ∧ (∀ t va, s'.leaf (ρ t) va = s.leaf (ρ t) va) ∧
      (pa = 0 ∧ Heap userPages ρ g F s' ∨
        pa ≠ 0 ∧ pa < 2 ^ 64 ∧ pa ∉ F ∧ Heap userPages ρ g (insert pa F) s')) E s := by
  refine wp_kalloc_user h (fun _ => ⟨rfl, fun _ _ => rfl, .inl ⟨rfl, h.answered⟩⟩)
    fun pa s₁ hne hpa htaken => ?_
  have hself : s₁.setPage pa (s₁.mem (pa / 4096)) = s₁ := by
    simp only [setPage, PGSIZE, update_eq_self]
  have ht := htaken (s₁.mem (pa / 4096))
  rw [hself] at ht
  exact ⟨ht.grows.kend, ht.leaves, .inr ⟨hne, hpa.2.2.trans (by decide), ht.new, ht.heap⟩⟩

namespace Space

variable {s s' s₀ : Space} {p q : Slot}

/-- The page tables: those of the processes, and the one that `kexec` is building, which is none between
two operations. -/
def roots (s : Space) (t : Option Slot) : ℕ := t.elim 0 fun p => (s.proc p).pagetable

open Classical in
/-- The pages outside of the page tables; those that are not free after boot belong to the kernel. -/
noncomputable def places (s₀ s : Space) : Keeper → ℕ
  | .trapframe p => (s.proc p).trapframe
  | .pipe k => (s.pipe k).page
  | .boot pa => if pa ∈ frames s₀.vm.kend ∧ pa ∉ s₀.vm.free then pa else 0

/-- The memory of a process in use. -/
def InUse (s : Space) (p : Slot) : Prop :=
  (s.proc p).state ≠ .unused ∧ (s.proc p).trapframe ≠ 0 ∧
    UserTable s.roots (some p) s.trampoline (s.proc p).trapframe (s.proc p).sz s.vm

/-- The invariant between two operations. -/
structure Inv (s₀ s : Space) : Prop where
  heap : Heap userPages s.roots (places s₀ s) ∅ s.vm
  kend : s.vm.kend = s₀.vm.kend
  trampoline : s.trampoline < 2 ^ 64
  procs : ∀ p, s.proc p = ⟨.unused, 0, 0, 0⟩ ∨ s.InUse p
  pipes : ∀ k, (s.pipe k).page ≠ 0 ↔ (s.pipe k).readopen = true ∨ (s.pipe k).writeopen = true

theorem roots_setProc (x : PMem) :
    (s.setProc p x).roots = update s.roots (some p) x.pagetable := by
  funext t
  cases t with
  | none => exact (update_of_ne (by simp) _ _).symm
  | some q =>
    by_cases e : q = p
    · subst e
      simp [roots, setProc]
    · rw [update_of_ne fun h => e (some.inj h)]
      simp [roots, setProc, update_of_ne e]

theorem places_setProc (x : PMem) :
    places s₀ (s.setProc p x) = update (places s₀ s) (.trapframe p) x.trapframe := by
  funext y
  cases y with
  | trapframe q =>
    by_cases e : q = p
    · subst e
      simp [places, setProc]
    · rw [update_of_ne fun h => e (Keeper.trapframe.inj h)]
      simp [places, setProc, update_of_ne e]
  | pipe k | boot pa => exact (update_of_ne (by simp) _ _).symm

theorem places_setPipe (k : ℕ) (x : PipePage) :
    places s₀ { s with pipe := update s.pipe k x } =
      update (places s₀ s) (.pipe k) x.page := by
  funext y
  cases y with
  | pipe j =>
    by_cases e : j = k
    · subst e
      simp [places]
    · rw [update_of_ne fun h => e (Keeper.pipe.inj h)]
      simp [places, update_of_ne e]
  | trapframe q | boot pa => exact (update_of_ne (by simp) _ _).symm

namespace Inv

theorem inUse (h : Inv s₀ s) (hp : (s.proc p).state ≠ .unused) : s.InUse p :=
  (h.procs p).resolve_left fun e => hp (by rw [e])

theorem unused (h : Inv s₀ s) (hp : (s.proc p).state = .unused) : s.proc p = ⟨.unused, 0, 0, 0⟩ :=
  (h.procs p).resolve_right fun e => e.1 hp

theorem trapframe_lt (h : Inv s₀ s) (hp : s.InUse p) : (s.proc p).trapframe < 2 ^ 64 :=
  (h.heap.ledger.range (.inr (.trapframe p)) hp.2.1).2.2.trans (by decide)

/-- The memory changed for the process `p` only, which has the record `x` now. -/
theorem replace {x : PMem} {vm : Vm} (h : Inv s₀ s)
    (h' : Heap userPages (update s.roots (some p) x.pagetable)
      (update (places s₀ s) (.trapframe p) x.trapframe) ∅ vm)
    (hk : vm.kend = s.vm.kend)
    (ha : ∀ q ≠ p, ∀ va < MAXVA, vm.leaf (s.roots (some q)) va = s.vm.leaf (s.roots (some q)) va)
    (hx : x = ⟨.unused, 0, 0, 0⟩ ∨ x.state ≠ .unused ∧ x.trapframe ≠ 0 ∧
      UserTable (fun _ : Unit => x.pagetable) () s.trampoline x.trapframe x.sz vm) :
    Inv s₀ ({ s with vm := vm }.setProc p x) where
  heap := by
    rw [roots_setProc, places_setProc]
    exact h'
  kend := hk.trans h.kend
  trampoline := h.trampoline
  procs q := by
    by_cases e : q = p
    · subst e
      simp only [InUse, roots_setProc]
      simp only [setProc, update_self]
      exact hx.imp_right fun ⟨h₁, h₂, h₃⟩ => ⟨h₁, h₂, h₃.congr (by simp) fun _ _ => rfl⟩
    · have hr : ({ s with vm := vm }.setProc p x).roots (some q) = s.roots (some q) := by
        rw [roots_setProc, update_of_ne fun h => e (some.inj h)]
        rfl
      simp only [InUse]
      simp only [setProc, update_of_ne e]
      exact (h.procs q).imp_right fun ⟨h₁, h₂, h₃⟩ => ⟨h₁, h₂, h₃.congr hr (ha q e)⟩
  pipes := h.pipes

/-- The functions of `vm.c` that change the memory of one process, and its size. -/
theorem touch {x : PMem} {v : Vm} (h : Inv s₀ s) (hp : s.InUse p)
    (hT : Touched s.roots (places s₀ s) ∅ (some p) s.trampoline (s.proc p).trapframe x.sz s.vm v)
    (hs : x.state ≠ .unused) (hpt : x.pagetable = (s.proc p).pagetable)
    (htf : x.trapframe = (s.proc p).trapframe) : Inv s₀ ({ s with vm := v }.setProc p x) := by
  have hρ : update s.roots (some p) x.pagetable = s.roots := by
    rw [hpt]
    exact update_eq_self (some p) s.roots
  have hg : update (places s₀ s) (.trapframe p) x.trapframe = places s₀ s := by
    rw [htf]
    exact update_eq_self (Keeper.trapframe p) (places s₀ s)
  refine h.replace (by rw [hρ, hg]; exact hT.heap) hT.kend
    (fun q hq => hT.apart (some q) fun e => hq (some.inj e)) (.inr ⟨hs, ?_, ?_⟩)
  · rw [htf]
    exact hp.2.1
  · rw [htf]
    exact hT.table.congr hpt fun _ _ => rfl

end Inv

/-! ## Processes come and go -/

/-- What `freeproc` leaves. -/
structure Freed (s₀ s : Space) (p : Slot) (s' : Space) : Prop where
  eq : s' = { s with vm := s'.vm }.setProc p ⟨.unused, 0, 0, 0⟩
  heap : Heap userPages (update s.roots (some p) 0)
    (update (places s₀ s) (.trapframe p) 0) ∅ s'.vm
  kend : s'.vm.kend = s.vm.kend
  apart : Apart s.roots (some p) s.vm s'.vm

/-- A process that was in use, or was being made, is freed. -/
theorem Freed.inv {x : PMem} {vm : Vm} (h : Inv s₀ s) (hk : vm.kend = s.vm.kend)
    (ha : ∀ q ≠ p, ∀ va < MAXVA, vm.leaf (s.roots (some q)) va = s.vm.leaf (s.roots (some q)) va)
    (hf : Freed s₀ ({ s with vm := vm }.setProc p x) p s') : Inv s₀ s' := by
  have hheap := hf.heap
  rw [roots_setProc, places_setProc, update_idem, update_idem] at hheap
  have heq : s' = { s with vm := s'.vm }.setProc p ⟨.unused, 0, 0, 0⟩ := by
    refine hf.eq.trans ?_
    simp [setProc]
  rw [heq]
  refine h.replace hheap (hf.kend.trans hk) (fun q hq va hva => ?_) (.inl rfl)
  have hne : some q ≠ some p := fun e => hq (some.inj e)
  have := hf.apart (some q) hne va hva
  rw [roots_setProc, update_of_ne hne] at this
  exact this.trans (ha q hq va hva)

theorem wp_freeTrapframe {g : Keeper → ℕ} {ρ : Option Slot → ℕ} {vm : Vm} {E : VmPanic → Vm → Prop}
    (h : Heap userPages ρ g ∅ vm) (hne : g (.trapframe p) ≠ 0) :
    wp (kfree (g (.trapframe p))) (fun _ vm' =>
      Heap userPages ρ (update g (.trapframe p) 0) ∅ vm' ∧ vm'.kend = vm.kend ∧
      ∀ t va, vm'.leaf (ρ t) va = vm.leaf (ρ t) va) E vm :=
  wp_kfree_float (h.detachPlace hne) (notMem_empty _) fun _ h' hk _ hl _ => ⟨h', hk, hl⟩

/-- `freeproc`, for a process whose page table is complete or missing. -/
theorem wp_freeproc {f : ℕ}
    (h : Heap userPages s.roots (places s₀ s) ∅ s.vm)
    (hpt : (s.proc p).pagetable = 0 ∨
      UserTable s.roots (some p) s.trampoline f (s.proc p).sz s.vm) :
    wp (freeproc p) (fun _ s' => Freed s₀ s p s') E s := by
  -- the page table, once the trapframe is gone
  have htable : ∀ vm, Heap userPages s.roots (update (places s₀ s) (.trapframe p) 0) ∅ vm →
      vm.kend = s.vm.kend → (∀ t va, vm.leaf (s.roots t) va = s.vm.leaf (s.roots t) va) →
      if (s.proc p).pagetable ≠ 0 then
        wp (procFreepagetable (s.proc p).pagetable (s.proc p).sz) (fun _ vm' => Freed s₀ s p
          (setProc p ⟨.unused, 0, 0, 0⟩ { { s with vm := vm }.setProc p { s.proc p with trapframe := 0 }
            with vm := vm' })) (fun e vm' => E e
          { { s with vm := vm }.setProc p { s.proc p with trapframe := 0 } with vm := vm' }) vm
      else Freed s₀ s p (setProc p ⟨.unused, 0, 0, 0⟩
        ({ s with vm := vm }.setProc p { s.proc p with trapframe := 0 })) := by
    intro vm h₁ hk hl
    have hdone : ∀ vm', setProc p ⟨.unused, 0, 0, 0⟩
        { { s with vm := vm }.setProc p { s.proc p with trapframe := 0 } with vm := vm' } =
        { s with vm := vm' }.setProc p ⟨.unused, 0, 0, 0⟩ := fun vm' => by simp [setProc]
    split
    · rename_i hne
      have hu : UserTable s.roots (some p) s.trampoline f (s.proc p).sz vm :=
        (hpt.resolve_left hne).congr rfl fun va _ => hl _ va
      have hfree := wp_procFreepagetable (E := fun _ _ => False) h₁ hu
      refine wp_mono hfree (fun _ vm' hq => ?_) fun _ _ he => he.elim
      refine ⟨hdone vm', hq.1, hq.2.1.trans hk, fun t ht va hva => ?_⟩
      rw [← hl t va]
      exact h₁.apart hq.2.2 t ht va hva
    · rename_i hz
      have hz' : s.roots (some p) = 0 := not_ne_iff.1 hz
      refine ⟨hdone vm, ?_, hk, fun t _ va _ => hl t va⟩
      have hρ : update s.roots (some p) 0 = s.roots := by
        rw [← hz', update_eq_self]
      rw [hρ]
      exact h₁
  simp only [freeproc, wp_bind, wp_get, wp_ite, wp_modify, call, wp_zoom]
  split
  · rename_i hne
    exact wp_mono (wp_freeTrapframe (E := fun _ _ => False) (g := places s₀ s) h hne)
      (fun _ vm hq => htable vm hq.1 hq.2.1 hq.2.2) fun _ _ he => he.elim
  · rename_i hz
    have hz' : places s₀ s (.trapframe p) = 0 := not_ne_iff.1 hz
    have hg : update (places s₀ s) (.trapframe p) 0 = places s₀ s := by
      rw [← hz', update_eq_self]
    exact htable s.vm (by rw [hg]; exact h) rfl fun _ _ => rfl

theorem Inv.wp_freeproc (h : Inv s₀ s) (hp : s.InUse p) :
    wp (freeproc p) (fun _ s' => Inv s₀ s') E s := by
  refine wp_mono (Space.wp_freeproc h.heap (.inr hp.2.2)) (fun _ s' hf => ?_) fun _ _ he => he
  have hs : s = { s with vm := s.vm }.setProc p (s.proc p) := by simp [setProc]
  rw [hs] at hf
  exact hf.inv h rfl fun _ _ _ _ => rfl

/-- A new process without memory, or none. -/
theorem Inv.wp_allocproc (h : Inv s₀ s) :
    wp allocproc (fun r s' => Inv s₀ s' ∧ ∀ np ∈ r, s'.InUse np ∧ (s'.proc np).sz = 0 ∧
      ∀ q, (s.proc q).state ≠ .unused → q ≠ np ∧ s'.proc q = s.proc q) E s := by
  rw [allocproc, wp_bind, wp_get]
  cases hfind : (List.finRange NPROC).find? fun p => (s.proc p).state = .unused with
  | none => exact ⟨h, by simp⟩
  | some p =>
    have hp : (s.proc p).state = .unused := by simpa using List.find?_some hfind
    have hz := h.unused hp
    have hroot : s.roots (some p) = 0 := by rw [roots, Option.elim, hz]
    have hframe : places s₀ s (.trapframe p) = 0 := by rw [places, hz]
    have hρ : update s.roots (some p) 0 = s.roots := by
      rw [← hroot, update_eq_self]
    -- the process is given up while it has no page table
    have hbad : ∀ (vm : Vm) (pa : ℕ), vm.kend = s.vm.kend →
        (∀ q ≠ p, ∀ va < MAXVA, vm.leaf (s.roots (some q)) va = s.vm.leaf (s.roots (some q)) va) →
        Heap userPages s.roots (update (places s₀ s) (.trapframe p) pa) ∅ vm →
        wp (freeproc p) (fun _ s' => Inv s₀ s') E ({ s with vm := vm }.setProc p ⟨.used, 0, 0, pa⟩) := by
      intro vm pa hk hl h'
      refine wp_mono (Space.wp_freeproc (f := 0) ?_ (.inl (by simp [setProc])))
        (fun _ s' hf => hf.inv h hk hl) fun _ _ he => he
      rw [roots_setProc, places_setProc]
      exact hρ.symm ▸ h'
    simp only [hz, call, wp_bind, wp_zoom]
    refine wp_mono (wp_kalloc_page (E := fun _ _ => False) h.heap) (fun pa vm₁ hq => ?_)
      fun _ _ he => he.elim
    obtain ⟨hk₁, hl₁, hcase⟩ := hq
    rw [wp_ite]
    rcases hcase with ⟨rfl, h₁⟩ | ⟨hne, hlt, -, h₁⟩
    · rw [if_pos rfl, wp_bind, wp_modify, wp_bind]
      have hg : update (places s₀ s) (.trapframe p) 0 = places s₀ s := by
        rw [← hframe, update_eq_self]
      exact wp_mono (hbad vm₁ 0 hk₁ (fun q _ va _ => hl₁ _ va) (by rw [hg]; exact h₁))
        (fun _ s' h' => ⟨h', by simp⟩) fun _ _ he => he
    · rw [if_neg hne, wp_bind, wp_zoom]
      refine wp_mono (wp_procPagetable (E := fun _ _ => False) h₁ hroot h.trampoline hlt)
        (fun r vm₂ hq => ?_) fun _ _ he => he.elim
      obtain ⟨h₂, hk₂, ha₂, hu₂⟩ := hq
      have hF : (insert pa (∅ : Set ℕ)) \ {pa} = ∅ := by simp
      have h₃ := h₂.attachPlace (x := .trapframe p) hframe (mem_insert pa ∅)
      rw [hF] at h₃
      have hk₃ : vm₂.kend = s.vm.kend := hk₂.trans hk₁
      have ha₃ : ∀ q ≠ p, ∀ va < MAXVA,
          vm₂.leaf (s.roots (some q)) va = s.vm.leaf (s.roots (some q)) va := fun q hq va hva =>
        (h₁.apart ha₂ (some q) (fun e => hq (some.inj e)) va hva).trans (hl₁ _ va)
      rw [wp_bind, wp_modify, wp_ite]
      split
      · rename_i hr
        subst hr
        rw [hρ] at h₃
        rw [wp_bind]
        exact wp_mono (hbad vm₂ pa hk₃ ha₃ h₃) (fun _ s' h' => ⟨h', by simp⟩) fun _ _ he => he
      · rename_i hr
        have h' : Inv s₀ ({ s with vm := vm₂ }.setProc p ⟨.used, r, 0, pa⟩) :=
          h.replace h₃ hk₃ ha₃ (.inr ⟨by simp, hne, (hu₂ hr).congr (by simp) fun _ _ => rfl⟩)
        rw [wp_pure]
        refine ⟨h', fun np hnp => ?_⟩
        obtain rfl := mem_some.1 hnp
        refine ⟨h'.inUse (by simp [setProc]), by simp [setProc], fun q hq => ?_⟩
        have e : q ≠ p := fun e => hq (e ▸ hp)
        exact ⟨e, by simp [setProc, update_of_ne e]⟩

/-! ## A process changes its memory -/

/-- The size of a process changes within what its page table allows. -/
theorem Inv.resize (h : Inv s₀ s) (hp : s.InUse p) {v : Vm} {sz : ℕ}
    (hT : Touched s.roots (places s₀ s) ∅ (some p) s.trampoline (s.proc p).trapframe sz s.vm v) :
    Inv s₀ ({ s with vm := v }.setProc p { s.proc p with sz := sz }) :=
  h.touch hp hT hp.1 rfl rfl

/-- Only the memory of a process changes. -/
theorem Inv.fault (h : Inv s₀ s) (hp : s.InUse p) {vm : Vm}
    (hT : Touched s.roots (places s₀ s) ∅ (some p) s.trampoline (s.proc p).trapframe (s.proc p).sz
      s.vm vm) : Inv s₀ { s with vm := vm } := by
  have := h.touch (x := s.proc p) hp hT hp.1 rfl rfl
  rwa [show ({ s with vm := vm } : Space).setProc p (s.proc p) = { s with vm := vm } by simp [setProc]]
    at this

theorem Inv.wp_growproc (h : Inv s₀ s) (hp : s.InUse p) (n : ℤ) :
    wp (growproc p n) (fun _ s' => Inv s₀ s') E s := by
  have hu := hp.2.2
  simp only [growproc, wp_bind, wp_get, wp_ite, call, wp_zoom]
  split
  · split
    · exact h
    · rename_i hle
      have hgrow : wp (uvmalloc (s.roots (some p)) (s.proc p).sz (addInt (s.proc p).sz n) PTE_W)
          _ (fun _ _ => False) s.vm := wp_grow (by decide) h.heap hu (.inl (by omega))
      refine wp_mono hgrow (fun r vm hq => ?_) fun _ _ he => he.elim
      obtain ⟨h', hk, -, hcase⟩ := hq
      rcases hcase with ⟨rfl, hl⟩ | ⟨-, rfl, rfl⟩ | ⟨hle, hmax, rfl, hf, -⟩
      · rw [if_pos rfl]
        exact h.fault hp ⟨h', hk, .of_eq hl, hu.congr rfl fun va hva => hl _ va hva⟩
      · have hT : Touched s.roots (places s₀ s) ∅ (some p) s.trampoline (s.proc p).trapframe
            (s.proc p).sz s.vm s.vm := ⟨h.heap, rfl, .refl _ _ _, hu⟩
        split
        · exact h
        · exact h.resize hp hT
      · have hT : Touched s.roots (places s₀ s) ∅ (some p) s.trampoline (s.proc p).trapframe
            (addInt (s.proc p).sz n) s.vm vm :=
          ⟨h', hk, hf.apart, hu.filled h.heap.kend (by decide) hle hmax hf⟩
        split
        · rename_i hz
          have hsz : (s.proc p).sz = addInt (s.proc p).sz n := by omega
          exact h.fault hp (hsz ▸ hT)
        · exact h.resize hp hT
  · split
    · have hshrink : wp (uvmdealloc (s.roots (some p)) (s.proc p).sz (addInt (s.proc p).sz n))
          _ (fun _ _ => False) s.vm := wp_shrink h.heap hu
      exact wp_mono hshrink (fun r vm hq => h.resize hp ⟨hq.1, hq.2.1, h.heap.apart hq.2.2.1, hq.2.2.2⟩)
        fun _ _ he => he.elim
    · exact h

theorem Inv.wp_sysSbrk (h : Inv s₀ s) (hp : s.InUse p) (n t : ℤ) :
    wp (sysSbrk p n t) (fun _ s' => Inv s₀ s') E s := by
  have hu := hp.2.2
  rw [sysSbrk, wp_bind, wp_get]
  simp only [wp_ite]
  split
  · refine wp_call (h.wp_growproc hp n) fun r s' h' => ?_
    split <;> exact h'
  split
  · exact h
  split
  · exact h
  · -- lazy growth changes the size only
    rename_i hge hle
    have hTM : TRAPFRAME < MAXVA := by decide
    have hsz := hu.size
    refine h.resize hp (v := s.vm) ⟨h.heap, rfl, .refl _ _ _, hu.root, by omega, hu.leaves,
      fun va h₁ h₂ => hu.above va (le_trans ?_ h₁) h₂, hu.tramp, hu.frame⟩
    rw [PGROUNDUP_eq (by omega), PGROUNDUP_eq (by omega)]
    omega

theorem Inv.wp_fault (h : Inv s₀ s) (hp : s.InUse p) (va : ℕ) :
    wp (Space.fault p va) (fun _ s' => Inv s₀ s') E s := by
  simp only [Space.fault, wp_bind, wp_get, call, wp_zoom, wp_pure]
  have hT : Confined s.roots (places s₀ s) ∅ (some p) s.trampoline (s.proc p).trapframe (s.proc p).sz
      s.vm s.vm := .refl h.heap hp.2.2
  have hfault : wp (vmfault ⟨s.roots (some p), (s.proc p).sz⟩ (s.roots (some p)) va)
      (fun _ vm => Inv s₀ { s with vm := vm }) (fun _ _ => False) s.vm :=
    wp_vmfault_table hT (fun vm hT' => h.fault hp hT'.toTouched) fun pa vm hT' _ _ _ =>
      h.fault hp hT'.toTouched
  exact wp_mono hfault (fun _ _ h' => h') fun _ _ he => he.elim

/-- The kernel writes to the memory of a process. -/
theorem Inv.wp_copyout (h : Inv s₀ s) (hp : s.InUse p) (dstva : ℕ)
    (src : List UInt8) :
    wp (call (copyout (s.user p) (s.proc p).pagetable dstva src))
      (fun _ s' => Inv s₀ s' ∧ s'.proc = s.proc) E s := by
  have hcopy : wp (copyout ⟨s.roots (some p), (s.proc p).sz⟩ (s.roots (some p)) dstva src) _
      (fun _ _ => False) s.vm :=
    wp_copyout_table h.heap hp.2.2
  rw [call, wp_zoom]
  exact wp_mono hcopy (fun _ vm hT => ⟨h.fault hp hT.toTouched, rfl⟩) fun _ _ he => he.elim

/-! ## Fork, exec, exit and wait -/

theorem Inv.wp_kfork (h : Inv s₀ s) (hp : s.InUse p) :
    wp (kfork p) (fun _ s' => Inv s₀ s') E s := by
  rw [kfork]
  refine wp_call h.wp_allocproc fun r s₁ hq => ?_
  obtain ⟨h₁, hnew⟩ := hq
  cases r with
  | none => exact h₁
  | some np =>
    obtain ⟨hu, hsz, hother⟩ := hnew np rfl
    obtain ⟨hne, hsame⟩ := hother p hp.1
    have hp₁ : s₁.InUse p := h₁.inUse (by rw [hsame]; exact hp.1)
    have hu₁ := hu.2.2
    rw [hsz] at hu₁
    have hcopy := wp_fork (E := fun _ _ => False) h₁.heap (fun e => hne (some.inj e)) hp₁.2.2 hu₁
    simp only [wp_bind, wp_get, call, wp_zoom]
    refine wp_mono hcopy (fun r vm hq => ?_) fun _ _ he => he.elim
    obtain ⟨h', hk, hs, ⟨rfl, hT⟩ | ⟨rfl, hT⟩⟩ := hq
    all_goals have ha := h₁.heap.apart hs
    · rw [if_neg (by decide)]
      exact h₁.touch (x := { s₁.proc np with state := .runnable, sz := (s₁.proc p).sz }) hu
        ⟨h', hk, ha, hT⟩ (by simp) rfl rfl
    · rw [if_pos (by decide), wp_bind]
      have h₂ : Inv s₀ { s₁ with vm := vm } := h₁.fault hu ⟨h', hk, ha, by rw [hsz]; exact hT⟩
      exact wp_mono (h₂.wp_freeproc (h₂.inUse hu.1)) (fun _ _ h' => h') fun _ _ he => he

/-- The page table that `kexec` has built takes the place of the old one, which is freed. -/
theorem Inv.commit (h : Inv s₀ s) (hp : s.InUse p) {pagetable sz : ℕ} {vm vm' : Vm}
    (hk : vm.kend = s.vm.kend)
    (ha : ∀ q, ∀ va < MAXVA, vm.leaf (s.roots (some q)) va = s.vm.leaf (s.roots (some q)) va)
    (hu : UserTable (update s.roots none pagetable) none s.trampoline (s.proc p).trapframe sz vm)
    (h' : Heap userPages (update (update s.roots none pagetable) (some p) 0)
      (places s₀ s) ∅ vm') (hk' : vm'.kend = vm.kend)
    (ha' : Apart (update s.roots none pagetable) (some p) vm vm') :
    Inv s₀ ({ s with vm := vm' }.setProc p { s.proc p with pagetable := pagetable, sz := sz }) := by
  have hsome : ∀ q : Slot, update s.roots none pagetable (some q) = s.roots (some q) :=
    fun q => update_of_ne (by simp) _ _
  have hnone : update s.roots none pagetable none = pagetable := update_self ..
  refine h.replace ?_ (hk'.trans hk) (fun q hq va hva => ?_) (.inr ⟨hp.1, hp.2.1, ?_⟩)
  · -- the new page table changes its name
    have hg : update (places s₀ s) (.trapframe p) (s.proc p).trapframe = places s₀ s :=
      update_eq_self (Keeper.trapframe p) (places s₀ s)
    have hρ : update (update s.roots none pagetable) (some p) 0 ∘
        Equiv.swap none (some p) = update s.roots (some p) pagetable := by
      funext t
      rw [Function.comp_apply]
      by_cases e : t = some p
      · rw [e, Equiv.swap_apply_right, update_self, update_of_ne (by simp), hnone]
      · rw [update_of_ne e]
        cases t with
        | none => rw [Equiv.swap_apply_left, update_self]; rfl
        | some q => rw [Equiv.swap_apply_of_ne_of_ne (by simp) e, update_of_ne e, hsome]
    show Heap userPages (update s.roots (some p) pagetable)
      (update (places s₀ s) (.trapframe p) (s.proc p).trapframe) ∅ vm'
    rw [hg, ← hρ]
    exact h'.comp _
  · have := ha' (some q) (fun e => hq (some.inj e)) va hva
    rw [hsome] at this
    exact this.trans (ha q va hva)
  · exact hu.congr hnone.symm fun va hva => ha' none (by simp) va hva

theorem Inv.wp_kexec (h : Inv s₀ s) (hp : s.InUse p)
    (file : Option ElfFile) (argv : List Arg) :
    wp (kexec p file argv) (fun _ s' => Inv s₀ s') E s := by
  rw [kexec, wp_bind, wp_get]
  cases file with
  | none => exact h
  | some file =>
    dsimp only
    split
    · exact h
    · rename_i magic phnum _
      rw [wp_ite]
      split
      · exact h
      · simp only [wp_bind, call, wp_zoom]
        have hnew := wp_procPagetable (t := none) (E := fun _ _ => False) h.heap rfl h.trampoline
          (h.trapframe_lt hp)
        refine wp_mono hnew (fun r vm₁ hq => ?_) fun _ _ he => he.elim
        obtain ⟨h₁, hk₁, ha₁, hu₁⟩ := hq
        have hleaf₁ : ∀ q, ∀ va < MAXVA,
            vm₁.leaf (s.roots (some q)) va = s.vm.leaf (s.roots (some q)) va :=
          fun q va hva => h.heap.apart ha₁ (some q) (by simp) va hva
        have hsome : ∀ q : Slot, update s.roots none r (some q) = s.roots (some q) :=
          fun q => update_of_ne (by simp) _ _
        have hnone : update s.roots none r none = r := update_self ..
        -- without a new page table, only the leaves of no process could have changed
        have hbad : ∀ vm, Heap userPages s.roots (places s₀ s) ∅ vm → vm.kend = s.vm.kend →
            (∀ q, ∀ va < MAXVA, vm.leaf (s.roots (some q)) va = s.vm.leaf (s.roots (some q)) va) →
            Inv s₀ { s with vm := vm } := fun vm h' hk hl =>
          h.fault hp ⟨h', hk, fun t _ va hva => by
            cases t with
            | none => simp only [roots, Option.elim, Vm.leaf, node_zero, ent_zero]
            | some q => exact hl q va hva, hp.2.2.congr rfl fun va hva => hl p va hva⟩
        rw [wp_ite]
        split
        · rename_i hr
          subst hr
          have hρ : update s.roots none 0 = s.roots := update_eq_self none s.roots
          rw [hρ] at h₁
          exact hbad vm₁ h₁ hk₁ hleaf₁
        · rename_i hr
          rw [wp_bind, wp_zoom]
          have hbuild : wp (buildImage (s.user p) (update s.roots none r none) file phnum
              argv) _ (fun _ _ => False) vm₁ := wp_buildImage h₁ (hu₁ hr)
          rw [hnone] at hbuild
          refine wp_mono hbuild (fun b vm₂ hT => ?_) fun _ _ he => he.elim
          have hk₂ : vm₂.kend = s.vm.kend := hT.kend.trans hk₁
          have hleaf₂ : ∀ q, ∀ va < MAXVA,
              vm₂.leaf (s.roots (some q)) va = s.vm.leaf (s.roots (some q)) va := fun q va hva => by
            have := hT.apart (some q) (by simp) va hva
            rw [hsome] at this
            exact this.trans (hleaf₁ q va hva)
          rcases b with ⟨⟨⟩ | ⟨⟩, sz⟩
          · have hfree := wp_procFreepagetable (E := fun _ _ => False) hT.heap hT.table
            rw [hnone] at hfree
            rw [wp_bind, wp_zoom]
            refine wp_mono hfree (fun _ vm₃ hq => ?_) fun _ _ he => he.elim
            obtain ⟨h₃, hk₃, ha₃⟩ := hq
            rw [update_idem, show update s.roots none 0 = s.roots from
              update_eq_self none s.roots] at h₃
            refine hbad vm₃ h₃ (hk₃.trans hk₂) fun q va hva => ?_
            have := hT.heap.apart (t := none) (by rw [hnone]; exact ha₃) (some q) (by simp) va hva
            rw [hsome] at this
            exact this.trans (hleaf₂ q va hva)
          · have hold : UserTable (update s.roots none r) (some p) s.trampoline
                (s.proc p).trapframe (s.proc p).sz vm₂ :=
              hp.2.2.congr (hsome p) fun va hva => hleaf₂ p va hva
            have hfree := wp_procFreepagetable (E := fun _ _ => False) hT.heap hold
            rw [hsome] at hfree
            rw [wp_bind, wp_modify, wp_bind, wp_zoom]
            refine wp_mono hfree (fun _ vm₃ hq => ?_) fun _ _ he => he.elim
            refine h.commit hp hk₂ hleaf₂ hT.table hq.1 hq.2.1 (hT.heap.apart ?_)
            rw [hsome]
            exact hq.2.2

theorem Inv.wp_kexit (h : Inv s₀ s) (hp : s.InUse p) :
    wp (kexit p) (fun _ s' => Inv s₀ s') E s :=
  h.touch (x := { s.proc p with state := .zombie }) (v := s.vm) hp
    ⟨h.heap, rfl, .refl _ _ _, hp.2.2⟩ nofun rfl rfl

theorem Inv.wp_kwait (h : Inv s₀ s) (hp : s.InUse p) (hq : s.InUse q)
    (addr : ℕ) (xstate : List UInt8) :
    wp (kwait p addr q xstate) (fun _ s' => Inv s₀ s') E s := by
  rw [kwait, wp_bind, wp_get, wp_ite]
  split
  · refine wp_call (h.wp_copyout hp addr xstate) fun r s₁ h₁ => ?_
    rw [wp_ite]
    split
    · exact h₁.1
    · exact wp_call (h₁.1.wp_freeproc (h₁.1.inUse (by rw [h₁.2]; exact hq.1))) fun _ _ h' => h'
  · exact wp_call (h.wp_freeproc hq) fun _ _ h' => h'

/-! ## Pipes -/

theorem Inv.setPipe (h : Inv s₀ s) {k : ℕ} {x : PipePage} {v : Vm}
    (h' : Heap userPages s.roots (update (places s₀ s) (.pipe k) x.page) ∅ v)
    (hk : v.kend = s.vm.kend)
    (hl : ∀ t va, v.leaf (s.roots t) va = s.vm.leaf (s.roots t) va)
    (hx : x.page ≠ 0 ↔ x.readopen = true ∨ x.writeopen = true) :
    Inv s₀ { s with vm := v, pipe := update s.pipe k x } where
  heap := by
    have e : places s₀ { s with vm := v, pipe := update s.pipe k x } = _ :=
      places_setPipe (s := { s with vm := v }) k x
    rw [e]
    exact h'
  kend := hk.trans h.kend
  trampoline := h.trampoline
  procs q := (h.procs q).imp_right fun ⟨h₁, h₂, h₃⟩ => ⟨h₁, h₂, h₃.congr rfl fun va _ => hl _ va⟩
  pipes j := by
    by_cases e : j = k
    · subst e
      simpa using hx
    · simpa [update_of_ne e] using h.pipes j

theorem Inv.wp_pipealloc (h : Inv s₀ s) {k : ℕ}
    (hk : (s.pipe k).page = 0) (files : Bool) :
    wp (pipealloc k files) (fun _ s' => Inv s₀ s') E s := by
  simp only [pipealloc, wp_ite, wp_bind, call, wp_zoom]
  split
  · exact h
  · refine wp_mono (wp_kalloc_page (E := fun _ _ => False) h.heap) (fun pa vm hq => ?_)
      fun _ _ he => he.elim
    have hplace : places s₀ s (.pipe k) = 0 := hk
    obtain ⟨hkend, hl, ⟨rfl, h'⟩ | ⟨hne, -, -, h'⟩⟩ := hq
    · rw [if_pos rfl, wp_pure]
      have hself : update s.pipe k (s.pipe k) = s.pipe := update_eq_self k s.pipe
      have := h.setPipe (k := k) (x := s.pipe k) (v := vm) ?_ hkend hl (h.pipes k)
      · rwa [hself] at this
      · rw [hk, ← hplace, update_eq_self]
        exact h'
    · rw [if_neg hne, wp_modify]
      refine h.setPipe (x := ⟨pa, true, true⟩) ?_ hkend hl (by simpa using hne)
      have := h'.attachPlace (x := .pipe k) hplace (mem_insert pa ∅)
      rwa [show (insert pa (∅ : Set ℕ)) \ {pa} = ∅ by simp] at this

theorem Inv.wp_pipeclose (h : Inv s₀ s) {k : ℕ}
    (hk : (s.pipe k).page ≠ 0) (writable : Bool) :
    wp (pipeclose k writable) (fun _ s' => Inv s₀ s') E s := by
  simp only [pipeclose, wp_ite, wp_bind, wp_get, wp_modify, wp_pure, call,
    wp_zoom]
  have hpage : (if writable = true then ({ s.pipe k with writeopen := false } : PipePage)
      else { s.pipe k with readopen := false }).page = (s.pipe k).page := by split <;> rfl
  generalize (if writable = true then ({ s.pipe k with writeopen := false } : PipePage)
    else { s.pipe k with readopen := false }) = x at hpage ⊢
  split
  · rw [hpage]
    have hplace : places s₀ s (.pipe k) ≠ 0 := hk
    refine wp_kfree_float (h.heap.detachPlace hplace) (notMem_empty _) fun vm h' hkend _ hl _ => ?_
    exact h.setPipe (x := ⟨0, false, false⟩) h' hkend hl (by simp)
  · rename_i hopen
    refine h.setPipe (v := s.vm) ?_ rfl (fun _ _ => rfl) ?_
    · rw [hpage]
      have hself : update (places s₀ s) (.pipe k) (s.pipe k).page = places s₀ s :=
        update_eq_self (Keeper.pipe k) (places s₀ s)
      rw [hself]
      exact h.heap
    · rw [hpage]
      refine iff_of_true hk ?_
      cases hr : x.readopen <;> cases hw : x.writeopen <;> simp_all

end Space

end Xv6
