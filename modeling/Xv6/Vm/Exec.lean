import Xv6.Vm.Image
import Mathlib.Data.Finset.Card

/-!
# Building a new image

`kexec` builds the memory of a program in a page table that no process has yet. While it does, every page
below the size is mapped for the user, so the kernel finds each page it copies to; and the free list is
too short for the size to come near `TRAPFRAME`, which `uvmalloc` does not check.
-/

namespace Xv6

open Prog List Vm Nat

variable {E : VmPanic → Vm → Prop}

variable {ι X : Type} {ρ : ι → ℕ} {g : X → ℕ} {F : Set ℕ} {s s' s₀ : Vm} {t : ι} {va sz newsz : ℕ}
  {trampoline trapframe : ℕ}

theorem Heap.free_length (h : Heap userPages ρ g F s) : s.free.length ≤ 32768 := by
  have hsub : s.free.toFinset ⊆ (Finset.range 32768).image fun k => KERNBASE + 4096 * k := by
    intro pa hpa
    obtain ⟨h₁, h₂, h₃⟩ := h.free pa (mem_toFinset.1 hpa)
    have hk := h.kend
    simp only [KERNBASE, PHYSTOP] at *
    exact Finset.mem_image.2 ⟨(pa - 2147483648) / 4096, Finset.mem_range.2 (by omega), by omega⟩
  calc s.free.length = s.free.toFinset.card := (toFinset_card_of_nodup h.nodup).symm
    _ ≤ ((Finset.range 32768).image fun k => KERNBASE + 4096 * k).card := Finset.card_le_card hsub
    _ ≤ 32768 := Finset.card_image_le.trans (Finset.card_range _).le

/-! ## Segments -/

/-- Part way through `kexec`: every page below the size is there for the user, and there are not enough
free pages to get to `TRAPFRAME`. -/
structure Staged (ρ : ι → ℕ) (g : X → ℕ) (F : Set ℕ) (t : ι) (trampoline trapframe sz : ℕ)
    (s₀ s : Vm) : Prop extends Confined ρ g F t trampoline trapframe sz s₀ s where
  full : ∀ va < PGROUNDUP sz, userPa (s.leaf (ρ t) va) ≠ 0
  room : PGROUNDUP sz + s.free.length * 4096 ≤ 2 ^ 27

variable {p : UserMem} {file : ElfFile} {e : ℕ}

theorem userPa_ne_zero (h : userPa e ≠ 0) :
    has e PTE_V = true ∧ has e PTE_U = true ∧ userPa e = child e := by
  unfold userPa at h ⊢
  split at h
  · rename_i hv
    rw [if_pos hv, child, if_pos hv.1]
    exact ⟨hv.1, hv.2, rfl⟩
  · exact absurd rfl h

theorem userPa_leafEntry {kend pa perm : ℕ} (hk : KERNBASE ≤ kend) (h : pa ∈ frames kend)
    (hperm : perm < 1024) (hU : has (perm ||| 1) PTE_U = true) : userPa (leafEntry pa perm) ≠ 0 := by
  obtain ⟨hv, -, hne⟩ := leafEntry_frame hk h hperm
  rw [userPa, if_pos ⟨hv, by rwa [has_flag_leafEntry (by decide) hperm]⟩]
  rwa [child, if_pos hv] at hne

theorem flags2perm_lt (flags : ℕ) : flags2perm flags < 1024 := by
  unfold flags2perm
  split <;> split <;> decide

theorem has_userPerm (xperm : ℕ) : has (PTE_R ||| PTE_U ||| xperm ||| 1) PTE_U = true := by
  rw [has, bne_iff_ne]
  intro hz
  have hbit := congrArg (testBit · 4) hz
  have hU : (PTE_U : ℕ).testBit 4 = true := by decide
  simp only [testBit_and, testBit_or, hU, Bool.or_true, Bool.true_or, Bool.and_true,
    zero_testBit] at hbit
  cases hbit

theorem Staged.write (h : Staged ρ g F t trampoline trapframe sz s₀ s) (hva : va < TRAPFRAME)
    (hne : child (s.leaf (ρ t) va) ≠ 0) (d : Page) :
    Staged ρ g F t trampoline trapframe sz s₀ (s.setPage (child (s.leaf (ρ t) va)) d) where
  toConfined := h.toConfined.fill hva hne d
  full va' hva' := by
    rw [h.heap.leaf_setPage depth_userPages (child_aligned _) (h.heap.noTable_leaf hva hne) d va']
    exact h.full va' hva'
  room := h.room

/-- The memory after `uvmalloc`. -/
theorem Staged.filled {xperm : ℕ} (h : Staged ρ g F t trampoline trapframe sz s₀ s) (hx : xperm < 1024)
    (h' : Heap userPages ρ g F s') (hsp : Spares userPages (ρ t) s s') (hle : sz ≤ newsz)
    (hmax : newsz ≤ TRAPFRAME)
    (hf : Filled ρ t (PGROUNDUP sz) (PGROUNDUP newsz) (PTE_R ||| PTE_U ||| xperm) s s')
    (hroom : PGROUNDUP newsz + s'.free.length * 4096 ≤ PGROUNDUP sz + s.free.length * 4096) :
    Staged ρ g F t trampoline trapframe newsz s₀ s' where
  toConfined := h.toConfined.step h' hf.kend hsp (h.table.filled h.heap.kend (userPerm_lt hx) hle hmax hf)
  full va hva := by
    have hTM : TRAPFRAME < MAXVA := by decide
    have hnew := PGROUNDUP_le hmax (by decide) hTM.le
    by_cases hlt : va < PGROUNDUP sz
    · rw [hf.others t va (by omega) fun e => by omega]
      exact h.full va hlt
    · obtain ⟨pa, hpa, e⟩ := hf.pages va (by omega) hva
      rw [e]
      exact userPa_leafEntry h.heap.kend hpa (userPerm_lt hx) (has_userPerm xperm)
  room := hroom.trans h.room

/-- The loop of `loadseg`, from `i` on: the segment is inside of the memory, so the addresses exist. -/
theorem wp_loadsegLoop {offset len fuel i : ℕ}
    (hlen : va + len ≤ sz) (hi : i < len + 4096) (hfuel : len + 4096 < i + fuel * 4096)
    (h : Staged ρ g F t trampoline trapframe sz s₀ s) :
    wp (loadsegLoop (ρ t) va file offset len fuel i)
      (fun _ s' => Staged ρ g F t trampoline trapframe sz s₀ s') E s := by
  have hTM : TRAPFRAME < MAXVA := by decide
  have hM64 : MAXVA < 2 ^ 64 := by decide
  induction fuel generalizing i s with
  | zero => omega
  | succ fuel ih =>
    have hsz := h.table.size
    have hup := le_PGROUNDUP (show sz ≤ MAXVA by omega)
    have hsmall := h.room
    rw [loadsegLoop, wp_ite]
    split
    · exact h
    · rw [mod_eq_of_lt (by omega), wp_bind]
      obtain ⟨hv, hU, hc⟩ := userPa_ne_zero (h.full (va + i) (by omega))
      have hne := h.full (va + i) (by omega)
      refine wp_walkaddr h.heap h.table.root (fun hge => by omega) fun _ => ?_
      rw [if_neg hne]
      split
      · exact h
      · rw [wp_bind, wp_modify, mod_eq_of_lt (by simp only [PGSIZE]; omega), hc]
        rw [hc] at hne
        refine ih (by simp only [PGSIZE]; omega) (by simp only [PGSIZE]; omega)
          (h.write (by omega) hne _)

theorem wp_loadseg {offset filesz : ℕ}
    (hlen : va + filesz ≤ sz) (h : Staged ρ g F t trampoline trapframe sz s₀ s) :
    wp (loadseg (ρ t) va file offset filesz)
      (fun _ s' => Staged ρ g F t trampoline trapframe sz s₀ s') E s := by
  have hle := mod_le filesz (2 ^ 32)
  exact wp_loadsegLoop (by omega) (by omega) (by simp only [PGSIZE]; omega) h

/-- The loop over the program headers. -/
theorem wp_loadSegments {n i : ℕ}
    (h : Staged ρ g F t trampoline trapframe sz s₀ s) :
    wp (loadSegments (ρ t) file n i sz) (fun r s' =>
      Confined ρ g F t trampoline trapframe r.2 s₀ s' ∧
      (r.1 = true → Staged ρ g F t trampoline trapframe r.2 s₀ s')) E s := by
  have hbig : 2 ^ 27 ≤ TRAPFRAME := by decide
  induction n generalizing i sz s with
  | zero => exact ⟨h.toConfined, fun _ => h⟩
  | succ n ih =>
    rw [loadSegments]
    split
    · exact ⟨h.toConfined, nofun⟩
    · rename_i ph _
      have hbad : Confined ρ g F t trampoline trapframe sz s₀ s ∧
          ((false : Bool) = true → Staged ρ g F t trampoline trapframe sz s₀ s) := ⟨h.toConfined, nofun⟩
      simp only [wp_ite]
      split
      · exact ih h
      split
      · exact hbad
      split
      · exact hbad
      split
      · exact hbad
      rename_i hfile hwrap _
      have hsum : (ph.vaddr + ph.memsz) % 2 ^ 64 = ph.vaddr + ph.memsz := by
        have := ph.vaddr_lt
        have := ph.memsz_lt
        omega
      rw [hsum]
      -- after `uvmalloc` the segment is inside of the memory
      have hload : ∀ sz' s', Staged ρ g F t trampoline trapframe sz' s₀ s' →
          ph.vaddr + ph.filesz ≤ sz' →
          wp (loadseg (ρ t) ph.vaddr file ph.off ph.filesz >>= fun r =>
              if r < 0 then pure (false, sz') else loadSegments (ρ t) file n (i + 1) sz')
            (fun r s' => Confined ρ g F t trampoline trapframe r.2 s₀ s' ∧
              (r.1 = true → Staged ρ g F t trampoline trapframe r.2 s₀ s')) E s' := by
        intro sz' s' h' hle
        refine wp_call (wp_loadseg hle h') fun r s'' h'' => ?_
        split
        · exact ⟨h''.toConfined, nofun⟩
        · exact ih h''
      refine wp_call (wp_grow (flags2perm_lt ph.flags) h.heap h.table
        (.inr (h.room.trans hbig))) fun r s' hq => ?_
      obtain ⟨h', hk, hsp, hcase⟩ := hq
      rw [wp_ite]
      split
      · refine ⟨?_, nofun⟩
        rcases hcase with ⟨-, hl⟩ | ⟨-, -, rfl⟩ | ⟨hle, hmax, rfl, hf, hroom⟩
        · exact h.toConfined.step h' hk hsp (h.table.congr rfl fun va hva => hl t va hva)
        · exact h.toConfined
        · have hz : sz = 0 := by omega
          have := (h.filled (flags2perm_lt ph.flags) h' hsp hle hmax hf hroom).toConfined
          rw [hz]
          rwa [‹ph.vaddr + ph.memsz = 0›] at this
      · rename_i hr
        rcases hcase with ⟨rfl, -⟩ | ⟨hlt, rfl, rfl⟩ | ⟨hle, hmax, rfl, hf, hroom⟩
        · exact absurd rfl hr
        · exact hload _ _ h (by omega)
        · exact hload _ _ (h.filled (flags2perm_lt ph.flags) h' hsp hle hmax hf hroom) (by omega)

/-! ## The stack -/

theorem child_clear (hU : has e PTE_U = true) :
    child (e - PTE_U) = child e ∧ has (e - PTE_U) PTE_V = has e PTE_V := by
  have hlow : 16 ≤ e % 1024 := by
    have hsmall : ∀ x < 16, has x PTE_U = false := by decide
    by_contra hlt
    rw [has_mod (by decide), hsmall _ (by omega)] at hU
    cases hU
  have hv : has (e - PTE_U) PTE_V = has e PTE_V := by
    rw [Bool.eq_iff_iff, has_valid, has_valid]
    simp only [PTE_U]
    omega
  have hpa : PTE2PA (e - PTE_U) = PTE2PA e := by
    simp only [PTE2PA, PTE_U]
    omega
  rw [child, child, hv, hpa]
  exact ⟨rfl, rfl⟩

/-- The page below the stack is taken from the user. -/
theorem wp_uvmclear (h : Heap userPages ρ g F s) (ht : ρ t ≠ 0)
    (hva : va < MAXVA) (hu : userPa (s.leaf (ρ t) va) ≠ 0) :
    wp (uvmclear (ρ t) va) (fun _ s' => Heap userPages ρ g F s' ∧ s'.kend = s.kend ∧
      Spares userPages (ρ t) s s' ∧ Sets ρ t va (s.leaf (ρ t) va - PTE_U) s s') E s := by
  obtain ⟨hv, hU, -⟩ := userPa_ne_zero hu
  rw [uvmclear, wp_bind]
  refine wp_walk depth_userPages h hva ht (fun hz => ?_) fun hb => ?_
  · rw [Vm.leaf, hz, ent_zero] at hv
    cases hv
  · have hpte : s.pte (s.node (ρ t) [PX 2 va, PX 1 va] + 8 * PX 0 va) = s.leaf (ρ t) va :=
      pte_eq_ent (h.node_aligned depth_userPages) hb (PX_lt 0 va)
    have hmod : (s.leaf (ρ t) va - PTE_U) % 2 ^ 64 = s.leaf (ρ t) va - PTE_U :=
      mod_eq_of_lt (lt_of_le_of_lt (sub_le _ _) ent_lt)
    rw [if_neg (by omega)]
    simp only [readPte, writePte, wp_bind, wp_get, wp_pure, wp_modify, hpte, hU,
      if_true]
    have htable : ¬ Foreign userPages (ρ t) s (s.node (ρ t) [PX 2 va, PX 1 va]) :=
      not_foreign_node (depth_userPages.table _ (by simp))
    refine ⟨h.sameLeaf depth_userPages rfl (PX_lt 0 va) hb ?_, rfl,
      (Spares.refl _ _ s).setPte (h.node_aligned depth_userPages) (PX_lt 0 va) htable, ?_⟩
    · rw [hmod, (child_clear hU).1]
      rfl
    · have := h.sets_setPte depth_userPages hva hb (v := s.leaf (ρ t) va - PTE_U)
      rwa [hmod] at this

/-- The memory while the stack is written: the stack is there for the user. -/
structure Stacked (ρ : ι → ℕ) (g : X → ℕ) (F : Set ℕ) (t : ι) (trampoline trapframe sz : ℕ)
    (s₀ s : Vm) : Prop extends Confined ρ g F t trampoline trapframe sz s₀ s where
  stack : ∀ va, sz ≤ va + 4096 → va < sz → userPa (s.leaf (ρ t) va) ≠ 0

/-- Copying to the stack of the new image; the page table of the process that runs is not used. -/
theorem wp_copyout_stack {sp : ℕ} {src : List UInt8}
    (hal : sz % 4096 = 0) (hlow : sz ≤ sp + 4096) (hhigh : sp + src.length ≤ sz)
    (h : Stacked ρ g F t trampoline trapframe sz s₀ s) :
    wp (copyout p (ρ t) sp src)
      (fun _ s' => Stacked ρ g F t trampoline trapframe sz s₀ s') E s := by
  have hsz := h.table.size
  have hT : TRAPFRAME < MAXVA := by decide
  refine wp_copyoutLoop (P := fun va => sz ≤ va + 4096 ∧ va < sz) h.table.root (fun _ h => h.heap)
    (fun s va d h hva hne => ?_) (fun va s h _ hmax hva => ?_) src le_rfl (fun va h₁ h₂ h₃ => ?_) h
  · refine ⟨h.toConfined.fill hva hne d, fun va' h₁ h₂ => ?_⟩
    rw [h.heap.leaf_setPage depth_userPages (child_aligned _) (h.heap.noTable_leaf hva hne) d va']
    exact h.stack va' h₁ h₂
  · obtain ⟨hv, -, hc⟩ := userPa_ne_zero (h.stack va hva.1 hva.2)
    rw [userPage, wp_bind]
    refine wp_walkaddr h.heap h.table.root (fun hge => by omega) fun _ => ?_
    rw [if_neg (h.stack va hva.1 hva.2), wp_pure]
    exact ⟨h, fun _ => ⟨by omega, hv, hc⟩⟩
  · simp only [PGROUNDDOWN, PGSIZE] at h₂
    exact ⟨by omega, by omega⟩

theorem pushDown_eq (sp n : ℕ) (hn : n ≤ sp) (hsp : sp < 2 ^ 64) : pushDown sp n = sp - n - (sp - n) % 16 := by
  have : (sp + 2 ^ 64 - n) % 2 ^ 64 = sp - n := by omega
  simp only [pushDown, this]

/-- The loop that copies the arguments. -/
theorem wp_pushArgs {argv : List Arg} {stackbase sp : ℕ} {ustack : List ℕ}
    (hal : sz % 4096 = 0) (hbase : stackbase + 4096 = sz)
    (hsz : 8192 ≤ sz) (hlow : stackbase ≤ sp) (hhigh : sp ≤ sz) (hlen : ustack.length ≤ MAXARG)
    (h : Stacked ρ g F t trampoline trapframe sz s₀ s) :
    wp (pushArgs p (ρ t) stackbase argv sp ustack) (fun r s' =>
      Stacked ρ g F t trampoline trapframe sz s₀ s' ∧ ∀ x ∈ r, stackbase ≤ x.1 ∧ x.1 ≤ sz ∧
        x.2.length ≤ MAXARG) E s := by
  have hT64 : TRAPFRAME < 2 ^ 64 := by decide
  have hmax := h.table.size
  induction argv generalizing sp ustack s with
  | nil => exact ⟨h, fun x hx => by obtain rfl := Option.mem_some.1 hx; exact ⟨hlow, hhigh, hlen⟩⟩
  | cons arg argv ih =>
    have harg := arg.2
    simp only [PGSIZE] at harg
    have hd := pushDown_eq sp (arg.val.length + 1) (by omega) (by omega)
    simp only [pushArgs, wp_ite]
    generalize pushDown sp (arg.val.length + 1) = sp' at hd ⊢
    split
    · exact ⟨h, by simp⟩
    split
    · exact ⟨h, by simp⟩
    · refine wp_call (wp_copyout_stack hal (by omega) ?_ h) fun r s' h' => ?_
      · simp only [length_append, length_singleton]
        omega
      · rw [wp_ite]
        split
        · exact ⟨h', by simp⟩
        · exact ih (by omega) (by omega)
            (by simp only [length_append, length_singleton]; omega) h'

theorem length_leBytes (l : List ℕ) : (l.flatMap leBytes).length = 8 * l.length := by
  induction l with
  | nil => rfl
  | cons v l ih =>
    rw [flatMap_cons, length_append, ih, length_cons]
    simp only [leBytes, length_map, length_range]
    omega

theorem Staged.stacked (h : Staged ρ g F t trampoline trapframe sz s₀ s) (h' : Heap userPages ρ g F s')
    (hk : s'.kend = s.kend) (hsp : Spares userPages (ρ t) s s') (hal : sz % 4096 = 0)
    (hsz : va + 8192 = sz)
    (hs : Sets ρ t va (s.leaf (ρ t) va - PTE_U) s s') :
    Stacked ρ g F t trampoline trapframe sz s₀ s' := by
  have hTM : TRAPFRAME < MAXVA := by decide
  have hmax := h.table.size
  have hup := PGROUNDUP_of_aligned hal (show sz ≤ MAXVA by omega)
  have hfull := h.full va (by omega)
  obtain ⟨hv, hU, hc⟩ := userPa_ne_zero hfull
  have hout : ∀ va' < MAXVA, va' / 4096 ≠ va / 4096 → s'.leaf (ρ t) va' = s.leaf (ρ t) va' :=
    fun va' hva hne => by rw [hs t va' hva, if_neg fun e => hne e.2]
  refine ⟨h.toConfined.step h' hk hsp ?_, fun va' h₁ h₂ => ?_⟩
  · refine ⟨h.table.root, hmax, fun va' hva => ?_, fun va' h₁ h₂ => ?_, ?_, ?_⟩
    · by_cases e : va' / 4096 = va / 4096
      · rw [leaf_congr_page e, hs t _ (by omega), if_pos ⟨rfl, rfl⟩]
        refine .inr ⟨by rw [(child_clear hU).2, hv], ?_⟩
        rw [(child_clear hU).1, ← hc]
        exact hfull
      · rw [hout va' (by omega) e]
        exact h.table.leaves va' hva
    · rw [hout va' (by omega) (by omega)]
      exact h.table.above va' h₁ h₂
    · rw [hout _ (by decide) (by simp only [TRAMPOLINE, TRAPFRAME, MAXVA, PGSIZE] at *; omega)]
      exact h.table.tramp
    · rw [hout _ hTM (by simp only [TRAMPOLINE, TRAPFRAME, MAXVA, PGSIZE] at *; omega)]
      exact h.table.frame
  · rw [hout va' (by omega) (by omega)]
    exact h.full va' (by omega)

/-- The size is rounded up before the stack is added. -/
theorem Staged.roundUp (h : Staged ρ g F t trampoline trapframe sz s₀ s) :
    Staged ρ g F t trampoline trapframe (PGROUNDUP sz) s₀ s := by
  have hTM : TRAPFRAME < MAXVA := by decide
  have hle := PGROUNDUP_le h.table.size (by decide) hTM.le
  have hup := PGROUNDUP_of_aligned (PGROUNDUP_aligned sz) (show PGROUNDUP sz ≤ MAXVA by omega)
  have hu := h.table
  exact ⟨⟨⟨h.heap, h.kend, h.apart, hu.root, hle, hu.leaves, fun va h₁ h₂ => hu.above va (hup ▸ h₁) h₂,
    hu.tramp, hu.frame⟩, h.spared⟩, fun va hva => h.full va (hup ▸ hva), by rw [hup]; exact h.room⟩

/-- The new image, whether it is complete or not: the page table fits the size that is returned. -/
theorem wp_buildImage {phnum : ℕ} {argv : List Arg}
    (h : Heap userPages ρ g F s)
    (hu : UserTable ρ t trampoline trapframe 0 s) :
    wp (buildImage p (ρ t) file phnum argv)
      (fun r s' => Confined ρ g F t trampoline trapframe r.2 s s') E s := by
  have hbig : 2 ^ 27 ≤ TRAPFRAME := by decide
  have hTM : TRAPFRAME < MAXVA := by decide
  have hM64 : MAXVA + 8192 < 2 ^ 64 := by decide
  have h₀ : Staged ρ g F t trampoline trapframe 0 s s :=
    ⟨.refl h hu, fun va hva => absurd hva (Nat.not_lt_zero va), by
      have := h.free_length
      rw [show PGROUNDUP 0 = 0 by decide]
      omega⟩
  rw [buildImage]
  refine wp_call (wp_loadSegments h₀) fun r s₁ hq => ?_
  obtain ⟨hT, hS⟩ := hq
  rcases r with ⟨⟨⟩ | ⟨⟩, sz⟩
  · exact hT
  · have h₁ := (hS rfl).roundUp
    have hal := PGROUNDUP_aligned sz
    have hsz := h₁.table.size
    obtain ⟨top, htop⟩ : ∃ top, top = PGROUNDUP sz := ⟨_, rfl⟩
    rw [← htop] at h₁ hal hsz
    -- the stack and the page below it
    obtain ⟨sz1, hsz1⟩ : ∃ sz1, sz1 = top + 8192 := ⟨_, rfl⟩
    obtain ⟨base, hbase⟩ : ∃ base, base = top + 4096 := ⟨_, rfl⟩
    have e₁ : (top + (USERSTACK + 1) * PGSIZE) % 2 ^ 64 = sz1 := by
      simp only [USERSTACK, PGSIZE]
      omega
    have e₂ : sz1 - (USERSTACK + 1) * PGSIZE = top := by
      simp only [USERSTACK, PGSIZE]
      omega
    have e₃ : sz1 - USERSTACK * PGSIZE = base := by
      refine Nat.sub_eq_of_eq_add ?_
      simp only [USERSTACK, PGSIZE]
      omega
    simp only [← htop, e₁]
    refine wp_call (wp_grow (by decide) h₁.heap h₁.table (.inr (h₁.room.trans hbig)))
      fun r s₂ hq => ?_
    obtain ⟨h₂, hk₂, hsp₂, hcase⟩ := hq
    rcases hcase with ⟨rfl, hl⟩ | ⟨hlt, -, -⟩ | ⟨hle, hmax, hr, hf, hroom⟩
    · rw [if_pos rfl]
      exact h₁.toConfined.step h₂ hk₂ hsp₂ (h₁.table.congr rfl fun va hva => hl t va hva)
    · omega
    · have hst := h₁.filled (by decide) h₂ hsp₂ hle hmax hf hroom
      have hup := PGROUNDUP_of_aligned (show sz1 % 4096 = 0 by omega) (by omega)
      rw [hr, if_neg (by omega), e₂, e₃]
      refine wp_call (wp_uvmclear h₂ hst.table.root (by omega) (hst.full top (by omega)))
        fun _ s₃ hq => ?_
      obtain ⟨h₃, hk₃, hsp₃, hs₃⟩ := hq
      have hst₃ := hst.stacked h₃ hk₃ hsp₃ (by omega) (by omega) hs₃
      refine wp_call (wp_pushArgs (by omega) (by omega) (by omega) (by omega) le_rfl (Nat.zero_le _)
        hst₃) fun r s₄ hq => ?_
      obtain ⟨hst₄, hr⟩ := hq
      rcases r with _ | ⟨sp, ustack⟩
      · exact hst₄.toConfined
      · obtain ⟨h₁', h₂', h₃'⟩ := hr _ rfl
        simp only [MAXARG] at h₁' h₂' h₃'
        have hd := pushDown_eq sp ((ustack.length + 1) * 8) (by omega) (by omega)
        simp only [wp_ite]
        generalize pushDown sp ((ustack.length + 1) * 8) = sp' at hd ⊢
        split
        · exact hst₄.toConfined
        · refine wp_call (wp_copyout_stack (by omega) (by omega) ?_ hst₄) fun r s₅ hst₅ => ?_
          · rw [length_leBytes, length_append, length_singleton]
            omega
          · rw [wp_ite]
            split <;> exact hst₅.toConfined

end Xv6
