import Xv6.Vm.Free
import Xv6.Vm.Process

/-!
# The page table of a process

`UserTable` says how the page table of a process of size `sz` looks: the trampoline and the trapframe at
the top, without `PTE_U`, and below `TRAPFRAME` only pages under the size. Every function that works on
user memory keeps it, for the size it returns.
-/

namespace Xv6

open Function Prog List Vm

variable {E : VmPanic → Vm → Prop}

variable {ι X : Type} {ρ : ι → ℕ} {g : X → ℕ} {F : Set ℕ} {s s' s'' : Vm} {t : ι} {va sz newsz : ℕ}
  {trampoline trapframe : ℕ}

/-- The page table `t` of a process of size `sz`. -/
structure UserTable (ρ : ι → ℕ) (t : ι) (trampoline trapframe sz : ℕ) (s : Vm) : Prop where
  root : ρ t ≠ 0
  size : sz ≤ TRAPFRAME
  leaves : Leaves ρ t s
  above : ∀ va, PGROUNDUP sz ≤ va → va < TRAPFRAME → s.leaf (ρ t) va = 0
  tramp : s.leaf (ρ t) TRAMPOLINE = leafEntry trampoline (PTE_R ||| PTE_X)
  frame : s.leaf (ρ t) TRAPFRAME = leafEntry trapframe (PTE_R ||| PTE_W)

/-- From `s` to `s'`, no page table but `t` has changed its leaves. -/
def Apart (ρ : ι → ℕ) (t : ι) (s s' : Vm) : Prop :=
  ∀ t' ≠ t, ∀ va < MAXVA, s'.leaf (ρ t') va = s.leaf (ρ t') va

theorem Apart.refl (ρ : ι → ℕ) (t : ι) (s : Vm) : Apart ρ t s s := fun _ _ _ _ => rfl

theorem Apart.trans (h : Apart ρ t s s') (h' : Apart ρ t s' s'') : Apart ρ t s s'' :=
  fun t' ht va hva => (h' t' ht va hva).trans (h t' ht va hva)

theorem Heap.apart (h : Heap userPages ρ g F s) (hs : Spares userPages (ρ t) s s') : Apart ρ t s s' :=
  fun _ ht va _ => h.leaf_of_spares depth_userPages hs ht va

theorem Apart.of_eq (h : ∀ t va, va < MAXVA → s'.leaf (ρ t) va = s.leaf (ρ t) va) : Apart ρ t s s' :=
  fun t' _ va hva => h t' va hva

namespace UserTable

theorem congr {ι' : Type} {ρ' : ι' → ℕ} {t' : ι'} (h : UserTable ρ t trampoline trapframe sz s)
    (hr : ρ' t' = ρ t) (hl : ∀ va < MAXVA, s'.leaf (ρ t) va = s.leaf (ρ t) va) :
    UserTable ρ' t' trampoline trapframe sz s' := by
  have hTM : TRAPFRAME < MAXVA := by decide
  refine ⟨by rw [hr]; exact h.root, h.size, fun va hva => ?_, fun va h₁ h₂ => ?_, ?_, ?_⟩
  · rw [hr, hl va (by omega)]
    exact h.leaves va hva
  · rw [hr, hl va (by omega)]
    exact h.above va h₁ h₂
  · rw [hr, hl _ (by decide)]
    exact h.tramp
  · rw [hr, hl _ hTM]
    exact h.frame

/-- The two pages at the top are not for the user. -/
theorem not_user (h : UserTable ρ t trampoline trapframe sz s) (hva : TRAPFRAME ≤ va)
    (hmax : va < MAXVA) : has (s.leaf (ρ t) va) PTE_U = false := by
  have hpage : va / 4096 = TRAPFRAME / 4096 ∨ va / 4096 = TRAMPOLINE / 4096 := by
    simp only [TRAPFRAME, TRAMPOLINE, MAXVA, PGSIZE] at *
    omega
  rcases hpage with e | e
  · rw [leaf_congr_page e, h.frame, has_flag_leafEntry (by decide) (by decide)]
    rfl
  · rw [leaf_congr_page e, h.tramp, has_flag_leafEntry (by decide) (by decide)]
    rfl

/-- Above `PGROUNDUP(sz)` only the two pages at the top are mapped. -/
theorem not_valid (h : UserTable ρ t trampoline trapframe sz s) (hva : PGROUNDUP sz ≤ va)
    (hlt : va < TRAPFRAME) : has (s.leaf (ρ t) va) PTE_V = false := by
  rw [h.above va hva hlt]
  rfl

end UserTable

/-! ## Creating and freeing -/

theorem wp_mapTop {pa perm : ℕ} (h : Heap userPages ρ g F s) (ht : ρ t ≠ 0)
    (hal : va % 4096 = 0) (hmax : va < MAXVA) (ho : userPages (place va) = false) (hpa : pa < 2 ^ 64)
    (hperm : perm < 1024) (hun : s.leaf (ρ t) va = 0) :
    wp (mappages (ρ t) va PGSIZE pa perm) (fun r s' => Heap userPages ρ g F s' ∧ s'.kend = s.kend ∧
      Spares userPages (ρ t) s s' ∧ (r = -1 ∧ (∀ t va, s'.leaf (ρ t) va = s.leaf (ρ t) va) ∨
        r = 0 ∧ Sets ρ t va (leafEntry pa perm) s s')) E s := by
  refine wp_mappages_one hal (wp_mapLoop_succ depth_userPages h ht hmax hpa hperm (by rw [hun]; rfl)
    (fun e => by rw [ho] at e; cases e) (fun s' h' hg hsp hl _ => ⟨h', hg.kend, hsp, .inl ⟨rfl, hl⟩⟩)
    fun s' h' hg hsp hs _ => ⟨?_, hg.kend, hsp, .inr ⟨rfl, hs⟩⟩)
  have hset : F \ {b | userPages (place va) = true ∧ b = pa / 4096 * 4096} = F := by
    ext b
    simp [ho]
  rwa [hset] at h'

theorem wp_unmapTop (h : Heap userPages ρ g F s) (ht : ρ t ≠ 0)
    (hal : va % 4096 = 0) (hmax : va + 4096 ≤ MAXVA) (ho : userPages (place va) = false) :
    wp (uvmunmap (ρ t) va 1 false) (fun _ s' => Heap userPages ρ g F s' ∧ s'.kend = s.kend ∧
      Clears ρ t va 1 s s' ∧ Spares userPages (ρ t) s s') E s := by
  have hu : Unmappable userPages ρ t F s false va 1 :=
    ⟨fun e => absurd e (by decide), fun e => absurd e (by decide), fun _ j hj => by
      obtain rfl : j = 0 := by omega
      simpa using ho⟩
  refine wp_mono (wp_uvmunmap depth_userPages h ht hal (by omega) hu) (fun _ s' hq => ?_)
    fun _ _ he => he
  obtain ⟨h', hk, hc, hsp⟩ := hq
  rw [show freed ρ t false va 1 s = ∅ by ext b; simp [freed], Set.sdiff_empty] at h'
  exact ⟨h', hk, hc, hsp fun e => absurd e (by decide)⟩

section

variable [DecidableEq ι]

/-- A page table that maps nothing is freed. -/
theorem wp_uvmfree_empty (h : Heap userPages ρ g F s) (ht : ρ t ≠ 0)
    (hl : ∀ va < MAXVA, s.leaf (ρ t) va = 0) :
    wp (uvmfree (ρ t) 0) (fun _ s' => Heap userPages (update ρ t 0) g F s' ∧
      s'.kend = s.kend ∧ Spares userPages (ρ t) s s') E s := by
  have hTM : TRAPFRAME < MAXVA := by decide
  refine wp_uvmfree h ht (fun va hva => .inl (hl va (by omega))) (Nat.zero_le _) fun va hva _ => ?_
  rw [hl va hva]
  rfl

/-- A new page table for a process without memory, or none. -/
theorem wp_procPagetable (h : Heap userPages ρ g F s) (hz : ρ t = 0)
    (htr : trampoline < 2 ^ 64) (htf : trapframe < 2 ^ 64) :
    wp (procPagetable trampoline trapframe) (fun r s' =>
      Heap userPages (update ρ t r) g F s' ∧ s'.kend = s.kend ∧ Spares userPages (ρ t) s s' ∧
      (r ≠ 0 → UserTable (update ρ t r) t trampoline trapframe 0 s')) E s := by
  have hTM : TRAPFRAME < MAXVA := by decide
  have hpages : TRAMPOLINE / 4096 ≠ TRAPFRAME / 4096 := by decide
  rw [procPagetable]
  refine wp_call (wp_uvmcreate (t := t) depth_userPages h hz) fun r s₁ hq => ?_
  obtain ⟨h₁, g₁, hsp₁, hl₁⟩ := hq
  rw [wp_ite]
  split
  · rename_i hr
    subst hr
    have hρ : update ρ t 0 = ρ := by rw [← hz, update_eq_self]
    rw [hρ] at h₁ hl₁
    exact ⟨by rwa [hρ], g₁.kend, hsp₁, fun e => absurd rfl e⟩
  · rename_i hr
    obtain ⟨ρ₁, hρ₁⟩ : ∃ ρ₁, ρ₁ = update ρ t r := ⟨_, rfl⟩
    have hroot : ρ₁ t = r := by rw [hρ₁, update_self]
    have hother : ∀ t' ≠ t, ρ₁ t' = ρ t' := fun t' hne => by rw [hρ₁, update_of_ne hne]
    rw [← hρ₁] at h₁ hl₁
    have ht : ρ₁ t ≠ 0 := by rwa [hroot]
    have hzero : ∀ va, s₁.leaf (ρ₁ t) va = 0 := fun va => by
      rw [hl₁, hz, Vm.leaf, node_zero, ent_zero]
    have hstart : ∀ {s₂}, Spares userPages (ρ₁ t) s₁ s₂ → Spares userPages (ρ t) s s₂ := fun hs =>
      h.spares_trans depth_userPages h₁ le_rfl hother g₁.kend hsp₁ hs
    have hjoin : ∀ {s₂ s₃}, Heap userPages ρ₁ g F s₂ → s₂.kend = s.kend → Spares userPages (ρ₁ t) s₁ s₂ →
        Spares userPages (ρ₁ t) s₂ s₃ → Spares userPages (ρ₁ t) s₁ s₃ := fun h₂ hk hs hs' =>
      h₁.spares_trans depth_userPages h₂ le_rfl (fun _ _ => rfl) (hk.trans g₁.kend.symm) hs hs'
    -- a failure frees the page table again
    have hbad : ∀ s₂, Heap userPages ρ₁ g F s₂ → s₂.kend = s.kend → Spares userPages (ρ₁ t) s₁ s₂ →
        (∀ va < MAXVA, s₂.leaf (ρ₁ t) va = 0) →
        wp (uvmfree (ρ₁ t) 0 >>= fun _ => pure 0) (fun r s' =>
          Heap userPages (update ρ t r) g F s' ∧ s'.kend = s.kend ∧
          Spares userPages (ρ t) s s' ∧
          (r ≠ 0 → UserTable (update ρ t r) t trampoline trapframe 0 s')) E s₂ := by
      intro s₂ h₂ hk hs hl
      refine wp_call (wp_uvmfree_empty h₂ ht hl) fun _ s' hq => ?_
      refine ⟨?_, hq.2.1.trans hk, hstart (hjoin h₂ hk hs hq.2.2), fun e => absurd rfl e⟩
      have := hq.1
      rwa [hρ₁, update_idem] at this
    rw [← hroot]
    refine wp_call (wp_mapTop h₁ ht (by decide) (by decide) not_userPages_trampoline htr (by decide)
      (hzero _)) fun r₂ s₂ hq => ?_
    obtain ⟨h₂, hk₂, hsp₂, hcase⟩ := hq
    rcases hcase with ⟨rfl, hl₂⟩ | ⟨rfl, hs₂⟩
    · rw [if_pos (by decide)]
      exact hbad s₂ h₂ (hk₂.trans g₁.kend) hsp₂ fun va _ => by rw [hl₂, hzero]
    · rw [if_neg (by decide)]
      have hl₂ : ∀ va < MAXVA, va / 4096 ≠ TRAMPOLINE / 4096 → s₂.leaf (ρ₁ t) va = 0 := fun va hva hne => by
        rw [hs₂ t va hva, if_neg fun e => hne e.2, hzero]
      refine wp_call (wp_mapTop h₂ ht (by decide) hTM not_userPages_trapframe htf (by decide)
        (hl₂ _ hTM hpages.symm)) fun r₃ s₃ hq => ?_
      obtain ⟨h₃, hk₃, hsp₃, hcase⟩ := hq
      have hsp := hjoin h₂ (hk₂.trans g₁.kend) hsp₂ hsp₃
      rcases hcase with ⟨rfl, hl₃⟩ | ⟨rfl, hs₃⟩
      · rw [if_pos (by decide)]
        refine wp_call (wp_unmapTop h₃ ht (by decide) (by decide) not_userPages_trampoline)
          fun _ s₄ hq => ?_
        obtain ⟨h₄, hk₄, hc₄, hsp₄⟩ := hq
        refine hbad s₄ h₄ (hk₄.trans (hk₃.trans (hk₂.trans g₁.kend)))
          (hjoin h₃ (hk₃.trans (hk₂.trans g₁.kend)) hsp hsp₄) fun va hva => ?_
        by_cases e : va / 4096 = TRAMPOLINE / 4096
        · have hv : has (s₃.leaf (ρ₁ t) va) PTE_V = true := by
            rw [hl₃, leaf_congr_page e, hs₂ t _ (by decide), if_pos ⟨rfl, rfl⟩]
            exact has_leafEntry
          rw [hc₄ t va hva, if_pos ⟨rfl, by omega, hv⟩]
        · rw [hc₄.of_not_range hva (by omega), hl₃]
          exact hl₂ va hva e
      · have hup : update ρ t (ρ₁ t) = ρ₁ := by rw [hroot, hρ₁]
        rw [if_neg (by decide), wp_pure, hup]
        refine ⟨h₃, hk₃.trans (hk₂.trans g₁.kend), hstart hsp, fun _ => ?_⟩
        have hlow : ∀ va < TRAPFRAME, s₃.leaf (ρ₁ t) va = 0 := fun va hva => by
          have h₁ : va / 4096 ≠ TRAPFRAME / 4096 := by
            simp only [TRAPFRAME, TRAMPOLINE, MAXVA, PGSIZE] at *
            omega
          have h₂ : va / 4096 ≠ TRAMPOLINE / 4096 := by
            simp only [TRAPFRAME, TRAMPOLINE, MAXVA, PGSIZE] at *
            omega
          rw [hs₃ t va (by omega), if_neg fun e => h₁ e.2]
          exact hl₂ va (by omega) h₂
        refine ⟨ht, Nat.zero_le _, fun va hva => .inl (hlow va hva), fun va _ hva => hlow va hva, ?_, ?_⟩
        · rw [hs₃ t _ (by decide), if_neg fun e => hpages e.2, hs₂ t _ (by decide), if_pos ⟨rfl, rfl⟩]
        · rw [hs₃ t _ hTM, if_pos ⟨rfl, rfl⟩]

theorem wp_procFreepagetable (h : Heap userPages ρ g F s)
    (hu : UserTable ρ t trampoline trapframe sz s) :
    wp (procFreepagetable (ρ t) sz) (fun _ s' => Heap userPages (update ρ t 0) g F s' ∧
      s'.kend = s.kend ∧ Spares userPages (ρ t) s s') E s := by
  have hTM : TRAPFRAME < MAXVA := by decide
  rw [procFreepagetable]
  refine wp_call (wp_unmapTop h hu.root (by decide) (by decide) not_userPages_trampoline)
    fun _ s₁ hq => ?_
  obtain ⟨h₁, hk₁, hc₁, hsp₁⟩ := hq
  refine wp_call (wp_unmapTop h₁ hu.root (by decide) (by decide) not_userPages_trapframe)
    fun _ s₂ hq => ?_
  obtain ⟨h₂, hk₂, hc₂, hsp₂⟩ := hq
  have hsp := h.spares_trans depth_userPages h₁ le_rfl (fun _ _ => rfl) hk₁ hsp₁ hsp₂
  -- below the two pages nothing has changed
  have hlow : ∀ va < TRAPFRAME, s₂.leaf (ρ t) va = s.leaf (ρ t) va := fun va hva => by
    have h₁ : ¬ TRAPFRAME / 4096 ≤ va / 4096 := by
      simp only [TRAPFRAME, TRAMPOLINE, MAXVA, PGSIZE] at *
      omega
    have h₂ : ¬ TRAMPOLINE / 4096 ≤ va / 4096 := by
      simp only [TRAPFRAME, TRAMPOLINE, MAXVA, PGSIZE] at *
      omega
    rw [hc₂.of_not_range (by omega) fun e => h₁ e.1, hc₁.of_not_range (by omega) fun e => h₂ e.1]
  refine wp_mono (wp_uvmfree h₂ hu.root (fun va hva => ?_) hu.size fun va hva hge => ?_)
    (fun _ s' hq => ⟨hq.1, hq.2.1.trans (hk₂.trans hk₁),
      h.spares_trans depth_userPages h₂ le_rfl (fun _ _ => rfl) (hk₂.trans hk₁) hsp hq.2.2⟩)
    fun _ _ he => he
  · rw [hlow va hva]
    exact hu.leaves va hva
  · by_cases hlt : va < TRAPFRAME
    · rw [hlow va hlt]
      exact hu.not_valid hge hlt
    · by_cases hr : TRAPFRAME / 4096 ≤ va / 4096 ∧ va / 4096 < TRAPFRAME / 4096 + 1
      · exact hc₂.not_valid hva hr
      · rw [hc₂.of_not_range hva hr]
        refine hc₁.not_valid hva ?_
        simp only [TRAPFRAME, TRAMPOLINE, MAXVA, PGSIZE] at *
        omega

end

/-! ## Growing and shrinking -/

theorem UserTable.filled {perm : ℕ} (hu : UserTable ρ t trampoline trapframe sz s)
    (hk : KERNBASE ≤ s.kend) (hperm : perm < 1024) (hle : sz ≤ newsz) (hmax : newsz ≤ TRAPFRAME)
    (hf : Filled ρ t (PGROUNDUP sz) (PGROUNDUP newsz) perm s s') :
    UserTable ρ t trampoline trapframe newsz s' := by
  have hTM : TRAPFRAME < MAXVA := by decide
  have hnew := PGROUNDUP_le hmax (by decide) hTM.le
  have hup : PGROUNDUP sz ≤ PGROUNDUP newsz := by
    rw [PGROUNDUP_eq (by omega), PGROUNDUP_eq (by omega)]
    omega
  have htop : ∀ va, TRAPFRAME ≤ va → va < MAXVA → s'.leaf (ρ t) va = s.leaf (ρ t) va := fun va h₁ h₂ =>
    hf.others t va h₂ fun e => by omega
  refine ⟨hu.root, hmax, hf.leaves hk hperm hu.leaves, fun va h₁ h₂ => ?_, ?_, ?_⟩
  · rw [hf.others t va (by omega) fun e => by omega]
    exact hu.above va (by omega) h₂
  · rw [htop _ (by decide) (by decide)]
    exact hu.tramp
  · rw [htop _ le_rfl hTM]
    exact hu.frame

theorem Filled.apart {start a perm : ℕ} (hf : Filled ρ t start a perm s s') : Apart ρ t s s' :=
  fun t' hne va hva => hf.others t' va hva fun e => hne e.1

/-- Growing user memory: it fails, has nothing to do, or maps the addresses up to the new size. -/
theorem wp_grow {xperm : ℕ} (hx : xperm < 1024) (h : Heap userPages ρ g F s)
    (hu : UserTable ρ t trampoline trapframe sz s)
    (hroom : newsz ≤ TRAPFRAME ∨ PGROUNDUP sz + s.free.length * 4096 ≤ TRAPFRAME) :
    wp (uvmalloc (ρ t) sz newsz xperm) (fun r s' => Heap userPages ρ g F s' ∧ s'.kend = s.kend ∧
      Spares userPages (ρ t) s s' ∧
      ((r = 0 ∧ ∀ t va, va < MAXVA → s'.leaf (ρ t) va = s.leaf (ρ t) va) ∨
        (newsz < sz ∧ r = sz ∧ s' = s) ∨
        sz ≤ newsz ∧ newsz ≤ TRAPFRAME ∧ r = newsz ∧
          Filled ρ t (PGROUNDUP sz) (PGROUNDUP newsz) (PTE_R ||| PTE_U ||| xperm) s s' ∧
          PGROUNDUP newsz + s'.free.length * 4096 ≤ PGROUNDUP sz + s.free.length * 4096)) E s := by
  have hTM : TRAPFRAME < MAXVA := by decide
  refine wp_mono (wp_uvmalloc hx h hu.root hu.leaves hu.size hu.above hroom) (fun r s' hq => ?_)
    fun _ _ he => he
  rcases hq with ⟨hlt, rfl, rfl⟩ | ⟨hle, h', hk, hsp, hres⟩
  · exact ⟨h, rfl, .refl _ _ _, .inr (.inl ⟨hlt, rfl, rfl⟩)⟩
  · refine ⟨h', hk, hsp, hres.imp_right fun ⟨hr, b, h₁, h₂, h₃, h₄, h₅, hf, h₇⟩ => .inr ?_⟩
    have hb : b = PGROUNDUP newsz := by
      have := hu.size
      rw [PGROUNDUP_eq (by omega)] at h₃ h₅ ⊢
      omega
    subst hb
    exact ⟨hle, by omega, hr, hf, h₇⟩

theorem wp_shrink (h : Heap userPages ρ g F s)
    (hu : UserTable ρ t trampoline trapframe sz s) :
    wp (uvmdealloc (ρ t) sz newsz) (fun r s' => Heap userPages ρ g F s' ∧ s'.kend = s.kend ∧
      Spares userPages (ρ t) s s' ∧ UserTable ρ t trampoline trapframe r s') E s := by
  have hTM : TRAPFRAME < MAXVA := by decide
  have hsz := hu.size
  refine wp_uvmdealloc h hu.root hu.leaves hu.size (fun _ => ⟨h, rfl, .refl _ _ s, hu⟩)
    fun hlt s' h' hk hc hsp => ⟨h', hk, hsp, ?_⟩
  have hold := PGROUNDUP_le hu.size (by decide) hTM.le
  have hal := PGROUNDUP_aligned sz
  have hal' := PGROUNDUP_aligned newsz
  have hle : PGROUNDUP newsz ≤ PGROUNDUP sz := by
    rw [PGROUNDUP_eq (by omega), PGROUNDUP_eq (by omega)]
    omega
  -- outside of the range that is cleared nothing changes
  have hout : ∀ va < MAXVA, ¬ (PGROUNDUP newsz ≤ va ∧ va < PGROUNDUP sz) →
      s'.leaf (ρ t) va = s.leaf (ρ t) va := fun va hva hn => hc.of_not_range hva (by omega)
  have hin : ∀ va, PGROUNDUP newsz ≤ va → va < PGROUNDUP sz → s'.leaf (ρ t) va = 0 := fun va h₁ h₂ => by
    rw [hc t va (by omega)]
    split
    · rfl
    · rename_i hn
      refine (hu.leaves va (by omega)).resolve_right fun e => hn ⟨rfl, by omega, e.1⟩
  refine ⟨hu.root, by omega, fun va hva => ?_, fun va h₁ h₂ => ?_, ?_, ?_⟩
  · by_cases hr : PGROUNDUP newsz ≤ va ∧ va < PGROUNDUP sz
    · exact .inl (hin va hr.1 hr.2)
    · rw [hout va (by omega) hr]
      exact hu.leaves va hva
  · by_cases hr : va < PGROUNDUP sz
    · exact hin va h₁ hr
    · rw [hout va (by omega) (by omega)]
      exact hu.above va (by omega) h₂
  · rw [hout _ (by decide) (by simp only [TRAPFRAME] at hold; omega)]
    exact hu.tramp
  · rw [hout _ hTM (by omega)]
    exact hu.frame

/-! ## Page faults and accesses by the kernel -/

/-- What an access to the user memory of `t` leaves behind. -/
structure Touched (ρ : ι → ℕ) (g : X → ℕ) (F : Set ℕ) (t : ι) (trampoline trapframe sz : ℕ)
    (s₀ s : Vm) : Prop where
  heap : Heap userPages ρ g F s
  kend : s.kend = s₀.kend
  apart : Apart ρ t s₀ s
  table : UserTable ρ t trampoline trapframe sz s

/-- It spares what belongs to others. -/
structure Confined (ρ : ι → ℕ) (g : X → ℕ) (F : Set ℕ) (t : ι) (trampoline trapframe sz : ℕ)
    (s₀ s : Vm) : Prop extends Touched ρ g F t trampoline trapframe sz s₀ s where
  spared : Spared userPages (ρ t) s₀ s

/-- One more step that spares what belongs to others. -/
theorem Confined.step {s₀ : Vm} (h : Confined ρ g F t trampoline trapframe sz s₀ s)
    (h' : Heap userPages ρ g F s') (hk : s'.kend = s.kend) (hs : Spares userPages (ρ t) s s')
    (hu : UserTable ρ t trampoline trapframe newsz s') :
    Confined ρ g F t trampoline trapframe newsz s₀ s' :=
  ⟨⟨h', hk.trans h.kend, h.apart.trans (h.heap.apart hs), hu⟩,
    h.heap.spared_trans depth_userPages h' le_rfl hk h.spared hs⟩

theorem UserTable.sets {pa perm : ℕ} (hu : UserTable ρ t trampoline trapframe sz s)
    (hk : KERNBASE ≤ s.kend) (hpa : pa ∈ frames s.kend) (hperm : perm < 1024) (hva : va < sz)
    (hs : Sets ρ t va (leafEntry pa perm) s s') : UserTable ρ t trampoline trapframe sz s' := by
  have hTM : TRAPFRAME < MAXVA := by decide
  have hsz := hu.size
  have hup := le_PGROUNDUP (show sz ≤ MAXVA by omega)
  have hal := PGROUNDUP_aligned sz
  have hle := PGROUNDUP_le hu.size (by decide) hTM.le
  have hTal : TRAPFRAME % 4096 = 0 := by decide
  have hout : ∀ va' < MAXVA, PGROUNDUP sz ≤ va' → s'.leaf (ρ t) va' = s.leaf (ρ t) va' :=
    fun va' hva' hge => by rw [hs t va' hva', if_neg fun e => by omega]
  refine ⟨hu.root, hu.size, fun va' hva' => ?_, fun va' h₁ h₂ => ?_, ?_, ?_⟩
  · rw [hs t va' (by omega)]
    split
    · exact .inr ⟨(leafEntry_frame hk hpa hperm).1, (leafEntry_frame hk hpa hperm).2.2⟩
    · exact hu.leaves va' hva'
  · rw [hout va' (by omega) h₁]
    exact hu.above va' h₁ h₂
  · rw [hout _ (by decide) (hle.trans (by decide))]
    exact hu.tramp
  · rw [hout _ hTM hle]
    exact hu.frame

theorem wp_vmfault_table {s₀ : Vm} {Q : ℕ → Vm → Prop}
    (h : Confined ρ g F t trampoline trapframe sz s₀ s)
    (hfail : ∀ s', Confined ρ g F t trampoline trapframe sz s₀ s' → Q 0 s')
    (hok : ∀ pa s', Confined ρ g F t trampoline trapframe sz s₀ s' → va < sz → pa ∈ frames s₀.kend →
      s'.leaf (ρ t) va = leafEntry pa (PTE_W ||| PTE_U ||| PTE_R) → Q pa s') :
    wp (vmfault ⟨ρ t, sz⟩ (ρ t) va) Q E s := by
  have hTM : TRAPFRAME < MAXVA := by decide
  have hu := h.table
  have hsz := hu.size
  refine wp_vmfault h.heap hu.root rfl hu.size hu.leaves (fun _ => hfail s h)
    (fun _ _ _ s' h' hk hsp hl _ => hfail s' (h.step h' hk hsp (hu.congr rfl fun va _ => hl t va)))
    fun pa s' hlt _ hfree h' hg hsp hs _ _ => ?_
  have hpa := h.heap.free pa hfree
  have hlt' : va < sz := hlt
  refine hok pa s' (h.step h' hg.kend hsp (hu.sets h.heap.kend hpa (by decide) hlt hs)) hlt
    (h.kend ▸ hpa) ?_
  rw [hs t va (by omega), if_pos ⟨rfl, rfl⟩]

/-- The page that `walkaddr` finds in a leaf. -/
def userPa (e : ℕ) : ℕ := if has e PTE_V = true ∧ has e PTE_U = true then PTE2PA e else 0

theorem wp_walkaddr {Q : ℕ → Vm → Prop} (h : Heap userPages ρ g F s)
    (ht : ρ t ≠ 0) (hbig : MAXVA ≤ va → Q 0 s) (hva : va < MAXVA → Q (userPa (s.leaf (ρ t) va)) s) :
    wp (walkaddr (ρ t) va) Q E s := by
  rw [walkaddr, wp_ite]
  split
  · exact hbig ‹_›
  · have hva' := hva (by omega)
    rw [wp_bind]
    refine wp_walk depth_userPages h (by omega) ht (fun hz => ?_) fun hb => ?_
    · rw [if_pos rfl, wp_pure]
      rw [Vm.leaf, hz, ent_zero] at hva'
      exact hva'
    · have hpte : s.pte (s.node (ρ t) [PX 2 va, PX 1 va] + 8 * PX 0 va) = s.leaf (ρ t) va :=
        pte_eq_ent (h.node_aligned depth_userPages) hb (PX_lt 0 va)
      rw [if_neg (by omega)]
      simp only [readPte, wp_bind, wp_get, wp_pure, wp_ite, hpte]
      unfold userPa at hva'
      cases hv : has (s.leaf (ρ t) va) PTE_V <;> cases hU : has (s.leaf (ρ t) va) PTE_U <;>
        simpa [hv, hU] using hva'

section

variable {p : UserMem} {I : Vm → Prop} {P : ℕ → Prop}

/-- The loop of `copyout`, for an invariant `I` of the memory: the pages it goes over are found as `hpage`
says, and user pages may change. -/
theorem wp_copyoutLoop (ht : ρ t ≠ 0)
    (hI : ∀ s, I s → Heap userPages ρ g F s)
    (hwrite : ∀ s va d, I s → va < TRAPFRAME → child (s.leaf (ρ t) va) ≠ 0 →
      I (s.setPage (child (s.leaf (ρ t) va)) d))
    (hpage : ∀ va s, I s → va % 4096 = 0 → va < MAXVA → P va →
      wp (userPage p (ρ t) va) (fun pa s' => I s' ∧ (pa ≠ 0 → va < TRAPFRAME ∧
        has (s'.leaf (ρ t) va) PTE_V = true ∧ pa = child (s'.leaf (ρ t) va))) E s)
    (src : List UInt8) {fuel dstva : ℕ} (hfuel : src.length ≤ fuel)
    (hP : ∀ va, va % 4096 = 0 → PGROUNDDOWN dstva ≤ va → va < dstva + src.length → P va) (h : I s) :
    wp (copyoutLoop p (ρ t) fuel dstva src) (fun _ s' => I s') E s := by
  have hM64 : MAXVA < 2 ^ 64 - 4096 := by decide
  induction fuel generalizing s dstva src with
  | zero =>
    cases src with
    | nil => exact h
    | cons b src => simp at hfuel
  | succ fuel ih =>
    cases src with
    | nil => exact h
    | cons b src =>
      have hle := PGROUNDDOWN_le dstva
      have hal := PGROUNDDOWN_aligned dstva
      have hlt : dstva < PGROUNDDOWN dstva + 4096 := by
        simp only [PGROUNDDOWN, PGSIZE]
        omega
      rw [copyoutLoop, wp_ite]
      split
      · exact h
      · rename_i hmax
        have hPva := hP _ hal le_rfl (by simp only [length_cons]; omega)
        refine wp_call (hpage _ s h hal (by omega) hPva) fun pa s₁ hq => ?_
        obtain ⟨h₁, hpa⟩ := hq
        rw [wp_ite]
        split
        · exact h₁
        · rename_i hne
          obtain ⟨hT, hv, rfl⟩ := hpa hne
          rw [wp_bind]
          refine wp_walk depth_userPages (hI s₁ h₁) (by omega) ht (fun hz => ?_) fun hb => ?_
          · rw [Vm.leaf, hz, ent_zero] at hv
            cases hv
          · rw [if_neg (by omega)]
            simp only [readPte, wp_bind, wp_get, wp_pure, wp_ite, wp_modify]
            split
            · exact h₁
            · have hmod : (PGROUNDDOWN dstva + PGSIZE) % 2 ^ 64 = PGROUNDDOWN dstva + 4096 :=
                Nat.mod_eq_of_lt (by simp only [PGSIZE]; omega)
              have hdown : PGROUNDDOWN (PGROUNDDOWN dstva + 4096) = PGROUNDDOWN dstva + 4096 := by
                simp only [PGROUNDDOWN, PGSIZE] at hal ⊢
                omega
              rw [hmod]
              refine ih _ ?_ (fun va hva₁ hva₂ hva₃ => hP va hva₁ (by omega) ?_)
                (hwrite s₁ _ _ h₁ hT hne)
              · simp only [length_drop, length_cons, PGSIZE] at hfuel ⊢
                omega
              · simp only [length_drop, length_cons, PGSIZE] at hva₃ ⊢
                omega
      · exact cons_ne_nil b src

end

/-- The page for an access to the memory of the process itself. -/
theorem wp_userPage_table {s₀ : Vm} (hva : va < MAXVA)
    (h : Confined ρ g F t trampoline trapframe sz s₀ s) :
    wp (userPage ⟨ρ t, sz⟩ (ρ t) va) (fun pa s' => Confined ρ g F t trampoline trapframe sz s₀ s' ∧
      (pa ≠ 0 → va < TRAPFRAME ∧ has (s'.leaf (ρ t) va) PTE_V = true ∧
        pa = child (s'.leaf (ρ t) va))) E s := by
  have hu := h.table
  rw [userPage, wp_bind]
  refine wp_walkaddr h.heap hu.root (fun hge => by omega) fun _ => ?_
  rw [wp_ite]
  split
  · refine wp_vmfault_table h (fun s' h' => ⟨h', fun e => absurd rfl e⟩) fun pa s' h' hlt hpa hleaf => ?_
    have hk : KERNBASE ≤ s₀.kend := h.kend ▸ h.heap.kend
    have hperm : PTE_W ||| PTE_U ||| PTE_R < 1024 := by decide
    have := leafEntry_frame hk hpa hperm
    refine ⟨h', fun _ => ⟨lt_of_lt_of_le hlt hu.size, ?_, ?_⟩⟩
    · rw [hleaf]
      exact this.1
    · rw [hleaf, this.2.1]
  · rename_i hne
    rw [wp_pure]
    unfold userPa at hne ⊢
    split at hne
    · rename_i hv
      refine ⟨h, fun _ => ⟨?_, hv.1, ?_⟩⟩
      · by_contra hge
        rw [hu.not_user (by omega) hva] at hv
        cases hv.2
      · rw [if_pos hv, child, if_pos hv.1]
    · exact absurd rfl hne

/-- A user page is written. -/
theorem Confined.fill {s₀ : Vm} (h : Confined ρ g F t trampoline trapframe sz s₀ s) (hva : va < TRAPFRAME)
    (hne : child (s.leaf (ρ t) va) ≠ 0) (d : Page) :
    Confined ρ g F t trampoline trapframe sz s₀ (s.setPage (child (s.leaf (ρ t) va)) d) := by
  have hn := h.heap.noTable_leaf hva hne
  have hal := child_aligned (s.leaf (ρ t) va)
  have hown : ¬ Foreign userPages (ρ t) s (child (s.leaf (ρ t) va)) :=
    not_foreign_node (p := place va) (userPages_place hva)
  exact h.step (h.heap.fill depth_userPages hal hn d) rfl ((Spares.refl _ _ s).fill hal hown d)
    (h.table.congr rfl fun va' _ => h.heap.leaf_setPage depth_userPages hal hn d va')

theorem Confined.refl (h : Heap userPages ρ g F s) (hu : UserTable ρ t trampoline trapframe sz s) :
    Confined ρ g F t trampoline trapframe sz s s := ⟨⟨h, rfl, .refl ρ t s, hu⟩, .refl _ _ s⟩

/-- The kernel writes to the memory of the process. -/
theorem wp_copyout_table {dstva : ℕ} {src : List UInt8}
    (h : Heap userPages ρ g F s) (hu : UserTable ρ t trampoline trapframe sz s) :
    wp (copyout ⟨ρ t, sz⟩ (ρ t) dstva src)
      (fun _ s' => Confined ρ g F t trampoline trapframe sz s s') E s :=
  wp_copyoutLoop (P := fun _ => True) hu.root (fun _ h => h.heap) (fun _ _ d h hva hne => h.fill hva hne d)
    (fun _ _ h _ hva _ => wp_userPage_table hva h) src le_rfl (fun _ _ _ _ => trivial) (.refl h hu)

/-! ## Forking -/

/-- The child's memory, after `uvmcopy`. -/
theorem UserTable.copied {t₀ : ι} (hu : UserTable ρ t trampoline trapframe 0 s)
    (hk : KERNBASE ≤ s.kend) (hsz : sz ≤ TRAPFRAME) (hc : Copied ρ t₀ t (PGROUNDUP sz) s s') :
    UserTable ρ t trampoline trapframe sz s' := by
  have hTM : TRAPFRAME < MAXVA := by decide
  have hle := PGROUNDUP_le hsz (by decide) hTM.le
  have hzero : ∀ va < TRAPFRAME, s.leaf (ρ t) va = 0 := fun va hva => hu.above va (Nat.zero_le _) hva
  refine ⟨hu.root, hsz, hc.leaves hk hzero, fun va h₁ h₂ => ?_, ?_, ?_⟩
  · rw [hc.others t va (by omega) fun e => by omega]
    exact hzero va h₂
  · rw [hc.others t _ (by decide) fun e => by simp only [TRAPFRAME] at hle; omega]
    exact hu.tramp
  · rw [hc.others t _ hTM fun e => by omega]
    exact hu.frame

/-- The memory of the process `t₀` is copied to a new one. -/
theorem wp_fork {t₀ : ι} {trapframe₀ : ℕ} (h : Heap userPages ρ g F s)
    (hne : t₀ ≠ t) (hu₀ : UserTable ρ t₀ trampoline trapframe₀ sz s)
    (hu : UserTable ρ t trampoline trapframe 0 s) :
    wp (uvmcopy (ρ t₀) (ρ t) sz) (fun r s' => Heap userPages ρ g F s' ∧ s'.kend = s.kend ∧
      Spares userPages (ρ t) s s' ∧ (r = 0 ∧ UserTable ρ t trampoline trapframe sz s' ∨
        r = -1 ∧ UserTable ρ t trampoline trapframe 0 s')) E s := by
  refine wp_mono (wp_uvmcopy h hu₀.root hu.root hne hu₀.leaves
    (fun va hva => hu.above va (Nat.zero_le _) hva) hu₀.size) (fun r s' hq => ?_) fun _ _ he => he
  obtain ⟨h', hk, hsp, -, ⟨rfl, hc⟩ | ⟨rfl, hl⟩⟩ := hq
  · exact ⟨h', hk, hsp, .inl ⟨rfl, hu.copied h.kend hu₀.size hc⟩⟩
  · exact ⟨h', hk, hsp, .inr ⟨rfl, hu.congr rfl fun va hva => hl t va hva⟩⟩

end Xv6
