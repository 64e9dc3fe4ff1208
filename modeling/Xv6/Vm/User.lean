import Xv6.Vm.Map

/-!
# User memory

A user page table owns the pages that it maps below `TRAPFRAME`: whoever unmaps them frees them. The
trampoline and the trapframe, mapped above, belong to others. This file is about the functions that
grow and shrink user memory: when one of them fails, it has freed what it had allocated and the leaves
of all page tables are as before.
-/

namespace Xv6

open Prog List Vm Set Nat Heap

variable {E : VmPanic → Vm → Prop}

/-- The places whose pages a user page table owns. -/
def userPages (p : List ℕ) : Bool :=
  p.length ≤ 2 || (p.length == 3 && p != place TRAPFRAME && p != place TRAMPOLINE)

theorem depth_userPages : Depth userPages := by
  refine ⟨fun p hp => by simp [userPages, hp], fun p hp => ?_⟩
  simp only [userPages, Bool.or_eq_true, decide_eq_true_eq, Bool.and_eq_true, beq_iff_eq] at hp
  omega

theorem place_inj {va va' : ℕ} (hva : va < MAXVA) (hva' : va' < MAXVA) (h : place va = place va') :
    va / 4096 = va' / 4096 := by
  simp only [place, List.cons.injEq, and_true] at h
  exact page_eq_of_PX hva' hva h.1 h.2.1 h.2.2

theorem userPages_place {va : ℕ} (hva : va < TRAPFRAME) : userPages (place va) = true := by
  have hne : ∀ a, TRAPFRAME ≤ a → a < MAXVA → place va ≠ place a := fun a ha ha' e => by
    have := place_inj (by simp only [TRAPFRAME, TRAMPOLINE] at hva; omega) ha' e
    simp only [TRAPFRAME, TRAMPOLINE, MAXVA, PGSIZE] at hva ha
    omega
  have h₁ := hne TRAPFRAME le_rfl (by decide)
  have h₂ := hne TRAMPOLINE (by decide) (by decide)
  simp [userPages, h₁, h₂, show (place va).length = 3 from rfl]

theorem not_userPages_trapframe : userPages (place TRAPFRAME) = false := by decide

theorem not_userPages_trampoline : userPages (place TRAMPOLINE) = false := by decide

/-! ## Page boundaries -/

theorem PGROUNDUP_eq {sz : ℕ} (h : sz ≤ MAXVA) : PGROUNDUP sz = (sz + 4095) / 4096 * 4096 := by
  have hlt : sz + 4095 < 2 ^ 64 := by
    simp only [MAXVA] at h
    omega
  rw [PGROUNDUP, show sz + PGSIZE - 1 = sz + 4095 from rfl, mod_eq_of_lt hlt]

theorem PGROUNDUP_aligned (sz : ℕ) : PGROUNDUP sz % 4096 = 0 := by
  unfold PGROUNDUP
  simp

theorem le_PGROUNDUP {sz : ℕ} (h : sz ≤ MAXVA) : sz ≤ PGROUNDUP sz ∧ PGROUNDUP sz < sz + 4096 := by
  rw [PGROUNDUP_eq h]
  omega

theorem PGROUNDUP_le {sz a : ℕ} (h : sz ≤ a) (ha : a % 4096 = 0) (hmax : a ≤ MAXVA) :
    PGROUNDUP sz ≤ a := by
  rw [PGROUNDUP_eq (by omega)]
  omega

theorem PGROUNDUP_of_aligned {a : ℕ} (ha : a % 4096 = 0) (hmax : a ≤ MAXVA) : PGROUNDUP a = a := by
  rw [PGROUNDUP_eq hmax]
  omega

variable {ι X : Type} {ρ : ι → ℕ} {g : X → ℕ} {F : Set ℕ} {s s' s₀ : Vm} {t : ι}
  {va n perm : ℕ}

/-! ## Unmapping what the page table owns -/

/-- Every leaf below `TRAPFRAME` is empty, or valid and leads to a page. -/
def Leaves (ρ : ι → ℕ) (t : ι) (s : Vm) : Prop :=
  ∀ va < TRAPFRAME, s.leaf (ρ t) va = 0 ∨
    has (s.leaf (ρ t) va) PTE_V = true ∧ child (s.leaf (ρ t) va) ≠ 0

theorem Heap.unmappable (h : Heap userPages ρ g F s) (hl : Leaves ρ t s) (hal : va % 4096 = 0)
    (hmax : va + n * 4096 ≤ TRAPFRAME) : Unmappable userPages ρ t F s true va n := by
  have hchild : ∀ j < n, has (s.leaf (ρ t) (va + j * 4096)) PTE_V = true →
      child (s.leaf (ρ t) (va + j * 4096)) ≠ 0 := fun j hj hv => by
    rcases hl (va + j * 4096) (by omega) with e | e
    · rw [e] at hv
      cases hv
    · exact e.2
  refine ⟨fun _ j hj hv => .inl ⟨userPages_place (by omega), hchild j hj hv⟩,
    fun _ i hi j hj hvi hvj e => ?_, nofun⟩
  have := h.ledger.inj (.inl (t, place (va + i * 4096))) (.inl (t, place (va + j * 4096)))
    (by rwa [refs_place (userPages_place (by omega)), refs_place (userPages_place (by omega))])
    (by rw [refs_place (userPages_place (by omega))]; exact hchild i hi hvi)
  simp only [Sum.inl.injEq, Prod.mk.injEq, true_and] at this
  have hlt : TRAPFRAME < MAXVA := by decide
  have := place_inj (by omega) (by omega) this
  omega

/-- What is freed was not floating. -/
theorem Heap.sdiff_freed (h : Heap userPages ρ g F s) (hmax : va + n * 4096 ≤ TRAPFRAME) :
    F \ freed ρ t true va n s = F := by
  ext b
  refine ⟨And.left, fun hb => ⟨hb, ?_⟩⟩
  rintro ⟨-, j, hj, hv, e⟩
  refine h.refs_ne_of_float hb (.inl (t, place (va + j * 4096))) ?_
  rw [refs_place (userPages_place (by omega)), e]

theorem wp_uvmunmap_user (h : Heap userPages ρ g F s) (ht : ρ t ≠ 0)
    (hl : Leaves ρ t s) (hal : va % 4096 = 0) (hmax : va + n * 4096 ≤ TRAPFRAME) :
    wp (uvmunmap (ρ t) va n true) (fun _ s' => Heap userPages ρ g F s' ∧ s'.kend = s.kend ∧
      Clears ρ t va n s s' ∧ Spares userPages (ρ t) s s') E s := by
  have hlt : TRAPFRAME < MAXVA := by decide
  refine wp_mono (wp_uvmunmap depth_userPages h ht hal (by omega) (h.unmappable hl hal hmax))
    (fun _ s' hq => ?_) fun _ _ he => he
  obtain ⟨h', hk, hc, hsp⟩ := hq
  rw [h.sdiff_freed hmax] at h'
  exact ⟨h', hk, hc, hsp fun _ j hj => userPages_place (by omega)⟩

theorem wp_uvmdealloc {oldsz newsz : ℕ} {Q : ℕ → Vm → Prop}
    (h : Heap userPages ρ g F s) (ht : ρ t ≠ 0) (hl : Leaves ρ t s) (hsz : oldsz ≤ TRAPFRAME)
    (hkeep : oldsz ≤ newsz → Q oldsz s)
    (hcut : newsz < oldsz → ∀ s', Heap userPages ρ g F s' → s'.kend = s.kend →
      Clears ρ t (PGROUNDUP newsz) ((PGROUNDUP oldsz - PGROUNDUP newsz) / 4096) s s' →
      Spares userPages (ρ t) s s' → Q newsz s') :
    wp (uvmdealloc (ρ t) oldsz newsz) Q E s := by
  unfold uvmdealloc
  rw [wp_ite]
  split
  · exact hkeep ‹_›
  · rename_i hlt
    have hTM : TRAPFRAME < MAXVA := by decide
    have hold := le_PGROUNDUP (show oldsz ≤ MAXVA by omega)
    have hold' := PGROUNDUP_le hsz (by decide) hTM.le
    have hnew := PGROUNDUP_le (show newsz ≤ PGROUNDUP oldsz by omega) (PGROUNDUP_aligned _) (by omega)
    have hal := PGROUNDUP_aligned oldsz
    have hal' := PGROUNDUP_aligned newsz
    have hcut' := hcut (by omega)
    simp only [wp_bind, wp_ite, wp_pure]
    split
    · have hint : intToUint64 ((PGROUNDUP oldsz - PGROUNDUP newsz) / PGSIZE) =
          (PGROUNDUP oldsz - PGROUNDUP newsz) / 4096 := by
        have : (PGROUNDUP oldsz - PGROUNDUP newsz) / 4096 < 2 ^ 31 := by
          simp only [TRAPFRAME, TRAMPOLINE, MAXVA, PGSIZE] at hold'
          omega
        rw [intToUint64, PGSIZE, mod_eq_of_lt (by omega), if_pos this]
      rw [hint]
      refine wp_mono (wp_uvmunmap_user h ht hl hal' (by omega)) (fun _ s' hq => ?_) fun _ _ he => he
      exact hcut' s' hq.1 hq.2.1 hq.2.2.1 hq.2.2.2
    · rename_i hge
      refine hcut' s h rfl (.refl (.inl ?_)) (.refl _ _ s)
      omega

/-! ## One page of user memory -/

/-- From `s` to `s₁` the page `pa` was taken from the allocator and filled with `d`. -/
structure Taken (ρ : ι → ℕ) (g : X → ℕ) (F : Set ℕ) (s : Vm) (pa : ℕ) (d : Page) (s₁ : Vm) : Prop where
  heap : Heap userPages ρ g (insert pa F) s₁
  grows : Grows ρ s s₁
  leaves : ∀ t va, s₁.leaf (ρ t) va = s.leaf (ρ t) va
  mem : s₁.mem (pa / 4096) = d
  spent : Spent 1 s s₁
  nodes : ∀ t p, p.length ≤ 2 → s₁.node (ρ t) p = s.node (ρ t) p
  free : pa ∈ s.free
  taken : pa ∉ s₁.free
  new : pa ∉ F
  spares : ∀ r, Spares userPages r s s₁

theorem Taken.page {pa : ℕ} {d : Page} {s₁ : Vm} (h : Taken ρ g F s pa d s₁) : pa / 4096 * 4096 = pa :=
  Nat.div_mul_cancel (dvd_of_mod_eq_zero (h.heap.frame_of_float (mem_insert pa F)).1)

theorem Taken.keeps {pa : ℕ} {d : Page} {s₁ : Vm} (h : Taken ρ g F s pa d s₁) (hg : Grows ρ s₁ s') :
    s'.mem (pa / 4096) = d := by
  rw [hg.keeps (pa / 4096), h.mem]
  · rw [h.page]
    exact h.taken
  · rw [h.page]
    exact h.heap.noTable_of_float depth_userPages (mem_insert pa F)

/-- A page for a user; the caller fills it next. -/
theorem wp_kalloc_user {Q : ℕ → Vm → Prop} (h : Heap userPages ρ g F s)
    (hnone : ¬ Supply 1 s → Q 0 s.answered)
    (hsome : ∀ pa s₁, pa ≠ 0 → pa ∈ frames s.kend → (∀ d, Taken ρ g F s pa d (s₁.setPage pa d)) → Q pa s₁) :
    wp kalloc Q E s := by
  refine wp_kalloc hnone fun pa rest hfr hsup => ?_
  have hmem : pa ∈ s.free := by rw [hfr]; exact mem_cons_self
  have hpa := h.free pa hmem
  have hnd := h.nodup
  rw [hfr] at hnd
  refine hsome pa _ (h.ne_zero hpa) hpa fun d => ?_
  have e : ({ s.answered with free := rest }.setPage pa fun _ => 5).setPage pa d =
      { s.answered with free := rest }.setPage pa d := by
    simp only [setPage, Function.update_idem]
  rw [e]
  refine ⟨h.answered.take depth_userPages hfr d,
    (Grows.answered ρ s).trans (.take depth_userPages h.answered hfr d), fun t va => ?_,
    Function.update_self _ _ _, .one hsup hfr rfl rfl, fun t p hp => ?_, hmem, (nodup_cons.1 hnd).1,
    fun hF => (h.ledger.used_iff pa hpa).2 (.inr hF) hmem, fun r => ?_⟩
  · exact h.leaf_setPage depth_userPages hpa.1 (h.noTable_of_free depth_userPages hmem) d va
  · exact h.node_setPage depth_userPages hpa.1 (h.noTable_of_free depth_userPages hmem) d (by omega)
  · have hs : Spares userPages r s { s.answered with free := rest } := fun _ _ => rfl
    exact hs.fill hpa.1 (not_foreign_of_free hmem) d

namespace Taken

variable {pa : ℕ} {d : Page} {s₁ s₂ : Vm}

theorem length (h : Taken ρ g F s pa d s₁) : s.free.length = s₁.free.length + 1 := by
  have := h.spent.supply.1
  rw [h.spent.free, length_drop]
  omega

theorem spares_trans (h₁ : Taken ρ g F s pa d s₁) (h : Heap userPages ρ g F s)
    (h₂ : Spares userPages (ρ t) s₁ s₂) : Spares userPages (ρ t) s s₂ :=
  h.spares_trans depth_userPages h₁.heap (subset_insert pa F) (fun _ _ => rfl) h₁.grows.kend
    (h₁.spares _) h₂

/-- ... or given back. -/
theorem spares_return (h₁ : Taken ρ g F s pa d s₁) (h : Heap userPages ρ g F s)
    (h₂ : Spares userPages (ρ t) s₁ s₂) (h₃ : ∀ n, n * 4096 ≠ pa → s'.mem n = s₂.mem n) :
    Spares userPages (ρ t) s s' := fun n hn =>
  (h₃ n fun e => hn.used (e ▸ h₁.free)).trans (h₁.spares_trans h h₂ n hn)

end Taken

/-- A page is given back that was taken a moment ago. -/
theorem wp_kfree_float {pa : ℕ} {Q : Unit → Vm → Prop}
    (h : Heap userPages ρ g (insert pa F) s) (hF : pa ∉ F)
    (hQ : ∀ s', Heap userPages ρ g F s' → s'.kend = s.kend → s'.free = pa :: s.free →
      (∀ t va, s'.leaf (ρ t) va = s.leaf (ρ t) va) → (∀ n, n * 4096 ≠ pa → s'.mem n = s.mem n) →
      Q () s') : wp (kfree pa) Q E s := by
  have hmem : pa ∈ insert pa F := mem_insert pa F
  have hfr := h.frame_of_float hmem
  have hgive := h.give depth_userPages hmem fun _ => 1
  rw [insert_sdiff_self_of_notMem hF] at hgive
  refine wp_kfree hfr (hQ _ hgive rfl rfl (fun t va => ?_) fun n hn => mem_setPage_of_ne fun e => hn ?_)
  · exact h.leaf_setPage depth_userPages hfr.1 (h.noTable_of_float depth_userPages hmem) _ va
  · rw [e, Nat.div_mul_cancel (dvd_of_mod_eq_zero hfr.1)]

theorem wp_mapUser {pa : ℕ} {Q : ℤ → Vm → Prop}
    (h : Heap userPages ρ g (insert pa F) s) (hF : pa ∉ F) (ht : ρ t ≠ 0) (hal : va % 4096 = 0)
    (hva : va < TRAPFRAME) (hperm : perm < 1024) (hun : s.leaf (ρ t) va = 0)
    (hfail : ∀ s', Heap userPages ρ g (insert pa F) s' → Grows ρ s s' → Spares userPages (ρ t) s s' →
      (∀ t va, s'.leaf (ρ t) va = s.leaf (ρ t) va) → ¬ Supply (gap s (ρ t) va) s → Q (-1) s')
    (hok : ∀ s', Heap userPages ρ g F s' → Grows ρ s s' → Spares userPages (ρ t) s s' →
      Sets ρ t va (leafEntry pa perm) s s' → Paved ρ t (pathsDown va 2 []) s s' → Q 0 s') :
    wp (mappages (ρ t) va PGSIZE pa perm) Q E s := by
  have hTM : TRAPFRAME < MAXVA := by decide
  have hmem : pa ∈ insert pa F := mem_insert pa F
  have hfr := h.frame_of_float hmem
  have hpage : pa / 4096 * 4096 = pa := Nat.div_mul_cancel (dvd_of_mod_eq_zero hfr.1)
  refine wp_mappages_one hal (wp_mapLoop_succ depth_userPages h ht (by omega) (hfr.2.2.trans (by decide)) hperm
    (by rw [hun]; rfl) (fun _ => by rwa [hpage]) hfail fun s' h' hg hsp hs hk => hok s' ?_ hg hsp hs hk)
  have hset : insert pa F \ {b | userPages (place va) = true ∧ b = pa / 4096 * 4096} = F := by
    rw [← insert_sdiff_self_of_notMem hF]
    ext b
    simp [userPages_place hva, hpage]
  rwa [hset] at h'

/-! ## Growing -/

/-- From `s₀` to `s`, the addresses from `start` up to `a` were mapped in the page table `t`. -/
structure Filled (ρ : ι → ℕ) (t : ι) (start a perm : ℕ) (s₀ s : Vm) : Prop where
  kend : s.kend = s₀.kend
  others : ∀ t' va, va < MAXVA → ¬ (t' = t ∧ start ≤ va ∧ va < a) →
    s.leaf (ρ t') va = s₀.leaf (ρ t') va
  pages : ∀ va, start ≤ va → va < a → ∃ pa ∈ frames s₀.kend, s.leaf (ρ t) va = leafEntry pa perm

theorem frames_ne_zero {kend pa : ℕ} (hk : KERNBASE ≤ kend) (h : pa ∈ frames kend) : pa ≠ 0 := by
  have := h.2.1
  simp only [KERNBASE] at hk
  omega

/-- The leaf of a page of the allocator. -/
theorem leafEntry_frame {kend pa : ℕ} (hk : KERNBASE ≤ kend) (h : pa ∈ frames kend)
    (hperm : perm < 1024) :
    has (leafEntry pa perm) PTE_V = true ∧ child (leafEntry pa perm) = pa ∧
      child (leafEntry pa perm) ≠ 0 := by
  have hpage : pa / 4096 * 4096 = pa := Nat.div_mul_cancel (dvd_of_mod_eq_zero h.1)
  have hc : child (leafEntry pa perm) = pa := by
    rw [child_leafEntry (h.2.2.trans (by decide)) hperm, hpage]
  exact ⟨has_leafEntry, hc, by rw [hc]; exact frames_ne_zero hk h⟩

namespace Filled

variable {start a pa : ℕ}

theorem refl (start perm : ℕ) : Filled ρ t start start perm s s :=
  ⟨rfl, fun _ _ _ _ => rfl, fun _ h₁ h₂ => by omega⟩

theorem congr (h : Filled ρ t start a perm s₀ s) (hk : s'.kend = s.kend)
    (hl : ∀ t va, s'.leaf (ρ t) va = s.leaf (ρ t) va) : Filled ρ t start a perm s₀ s' :=
  ⟨hk.trans h.kend, fun t' va hva hn => (hl t' va).trans (h.others t' va hva hn),
    fun va h₁ h₂ => by rw [hl]; exact h.pages va h₁ h₂⟩

/-- One more page. -/
theorem succ (h : Filled ρ t start a perm s₀ s) (hk : s'.kend = s.kend) (ha : a % 4096 = 0)
    (hsa : start ≤ a) (hmax : a < MAXVA) (hpa : pa ∈ frames s.kend)
    (hs : Sets ρ t a (leafEntry pa perm) s s') : Filled ρ t start (a + 4096) perm s₀ s' where
  kend := hk.trans h.kend
  others t' va hva hn := by
    rw [hs t' va hva, if_neg fun e => hn ⟨e.1, by omega, by omega⟩]
    exact h.others t' va hva fun e => hn ⟨e.1, e.2.1, by omega⟩
  pages va h₁ h₂ := by
    have hM : MAXVA % 4096 = 0 := by decide
    rw [hs t va (by omega)]
    by_cases e : va / 4096 = a / 4096
    · rw [if_pos ⟨rfl, e⟩]
      exact ⟨pa, h.kend ▸ hpa, rfl⟩
    · rw [if_neg fun hh => e hh.2]
      exact h.pages va h₁ (by omega)

theorem leaves (h : Filled ρ t start a perm s₀ s) (hk : KERNBASE ≤ s₀.kend) (hperm : perm < 1024)
    (hl : Leaves ρ t s₀) : Leaves ρ t s := by
  intro va hva
  have hTM : TRAPFRAME < MAXVA := by decide
  by_cases hr : start ≤ va ∧ va < a
  · obtain ⟨pa, hpa, e⟩ := h.pages va hr.1 hr.2
    rw [e]
    exact .inr ⟨(leafEntry_frame hk hpa hperm).1, (leafEntry_frame hk hpa hperm).2.2⟩
  · rw [h.others t va (by omega) fun hh => hr hh.2]
    exact hl va hva

/-- Unmapping what was mapped. -/
theorem undo (h : Filled ρ t start a perm s₀ s) (hs : start % 4096 = 0) (ha : a % 4096 = 0)
    (hmax : a ≤ TRAPFRAME) (h₀ : ∀ va, start ≤ va → va < TRAPFRAME → s₀.leaf (ρ t) va = 0)
    (hc : Clears ρ t start ((a - start) / 4096) s s') :
    ∀ t' va, va < MAXVA → s'.leaf (ρ t') va = s₀.leaf (ρ t') va := by
  intro t' va hva
  rw [hc t' va hva]
  by_cases hr : t' = t ∧ start ≤ va ∧ va < a
  · obtain ⟨rfl, h₁, h₂⟩ := hr
    obtain ⟨pa, -, e⟩ := h.pages va h₁ h₂
    rw [if_pos ⟨rfl, by omega, by rw [e]; exact has_leafEntry⟩, h₀ va h₁ (by omega)]
  · rw [if_neg fun hh => hr ⟨hh.1, by omega, by omega⟩]
    exact h.others t' va hva hr

end Filled

section

variable {start newsz xperm fuel a : ℕ}

theorem userPerm_lt (hx : xperm < 1024) : PTE_R ||| PTE_U ||| xperm < 1024 :=
  or_lt_two_pow (n := 10) (by decide) hx

/-- What `uvmalloc` undoes when it fails. -/
theorem wp_allocUndo (h : Heap userPages ρ g F s) (ht : ρ t ≠ 0)
    (hl : Leaves ρ t s) (hf : Filled ρ t start a perm s₀ s) (hs : start % 4096 = 0)
    (ha : a % 4096 = 0) (hmax : a ≤ TRAPFRAME) (hsa : start ≤ a)
    (h₀ : ∀ va, start ≤ va → va < TRAPFRAME → s₀.leaf (ρ t) va = 0) :
    wp (uvmdealloc (ρ t) a start) (fun _ s' => Heap userPages ρ g F s' ∧ s'.kend = s₀.kend ∧
      (∀ t' va, va < MAXVA → s'.leaf (ρ t') va = s₀.leaf (ρ t') va) ∧
      Spares userPages (ρ t) s s') E s := by
  have hTM : TRAPFRAME < MAXVA := by decide
  refine wp_uvmdealloc h ht hl hmax (fun hle => ?_) fun hlt s' h' hk hc hsp => ?_
  · obtain rfl : a = start := by omega
    exact ⟨h, hf.kend, fun t' va hva => hf.others t' va hva (by omega), .refl _ _ s⟩
  · rw [PGROUNDUP_of_aligned ha (by omega), PGROUNDUP_of_aligned hs (by omega)] at hc
    exact ⟨h', hk.trans hf.kend, hf.undo hs ha hmax h₀ hc, hsp⟩

/-- What the loop of `uvmalloc` does from the address `a` on: it fails and nothing was mapped, or it maps
the addresses up to `b`. `lim` bounds `b` by the number of free pages. -/
structure AllocPost (ρ : ι → ℕ) (g : X → ℕ) (F : Set ℕ) (t : ι) (s₀ : Vm)
    (start newsz perm a lim r : ℕ) (s : Vm) : Prop where
  heap : Heap userPages ρ g F s
  kend : s.kend = s₀.kend
  spares : Spares userPages (ρ t) s₀ s
  result : (r = 0 ∧ ∀ t' va, va < MAXVA → s.leaf (ρ t') va = s₀.leaf (ρ t') va) ∨
    r = newsz ∧ ∃ b, newsz ≤ b ∧ b % 4096 = 0 ∧ a ≤ b ∧ b ≤ TRAPFRAME ∧ (b = a ∨ b < newsz + 4096) ∧
      Filled ρ t start b perm s₀ s ∧ b + s.free.length * 4096 ≤ lim

/-- The loop of `uvmalloc`, from the address `a` on. It stops below `TRAPFRAME`, since the size does or
since there are not enough pages to get there. -/
theorem wp_allocLoop (hx : xperm < 1024) (hh₀ : Heap userPages ρ g F s₀)
    (h : Heap userPages ρ g F s) (ht : ρ t ≠ 0) (hl : Leaves ρ t s₀) (hsp : Spares userPages (ρ t) s₀ s)
    (hf : Filled ρ t start a (PTE_R ||| PTE_U ||| xperm) s₀ s) (hs : start % 4096 = 0)
    (ha : a % 4096 = 0) (hsa : start ≤ a) (hmax : a ≤ TRAPFRAME)
    (h₀ : ∀ va, start ≤ va → va < TRAPFRAME → s₀.leaf (ρ t) va = 0)
    (hroom : newsz ≤ TRAPFRAME ∨ a + s.free.length * 4096 ≤ TRAPFRAME) (hfuel : s.free.length < fuel) :
    wp (allocLoop (ρ t) start newsz xperm fuel a) (AllocPost ρ g F t s₀ start newsz
      (PTE_R ||| PTE_U ||| xperm) a (a + s.free.length * 4096)) E s := by
  have hTM : TRAPFRAME < MAXVA := by decide
  have hM64 : MAXVA < 2 ^ 64 := by decide
  have hTal : TRAPFRAME % 4096 = 0 := by decide
  have hperm := userPerm_lt hx
  induction fuel generalizing s a with
  | zero => omega
  | succ fuel ih =>
    have hk₀ : KERNBASE ≤ s₀.kend := hf.kend ▸ h.kend
    rw [allocLoop, wp_ite]
    split
    · rename_i hle
      exact ⟨h, hf.kend, hsp, .inr ⟨rfl, a, hle, ha, le_rfl, hmax, .inl rfl, hf, le_rfl⟩⟩
    · rename_i hlt
      rw [wp_bind]
      have hjoin : ∀ {s₁ s₂}, Heap userPages ρ g F s₁ → s₁.kend = s.kend → Spares userPages (ρ t) s s₁ →
          Spares userPages (ρ t) s₁ s₂ → Spares userPages (ρ t) s₀ s₂ := fun h₁ hk hsp₁ hsp₂ =>
        hh₀.spares_trans depth_userPages h le_rfl (fun _ _ => rfl) hf.kend hsp
          (h.spares_trans depth_userPages h₁ le_rfl (fun _ _ => rfl) hk hsp₁ hsp₂)
      -- the end of a pass that fails
      have hundo : ∀ s₁, Heap userPages ρ g F s₁ → s₁.kend = s.kend → Spares userPages (ρ t) s s₁ →
          (∀ t va, s₁.leaf (ρ t) va = s.leaf (ρ t) va) →
          wp (uvmdealloc (ρ t) a start >>= fun _ => pure 0) (AllocPost ρ g F t s₀ start newsz
            (PTE_R ||| PTE_U ||| xperm) a (a + s.free.length * 4096)) E s₁ := fun s₁ h₁ hk hsp₁ hl₁ => by
        have hf₁ := hf.congr hk hl₁
        refine wp_call (wp_allocUndo h₁ ht (hf₁.leaves hk₀ hperm hl) hf₁ hs ha hmax hsa h₀)
          fun _ s' hq => ?_
        obtain ⟨h', hk', hl', hsp'⟩ := hq
        exact ⟨h', hk', hjoin h₁ hk hsp₁ hsp', .inl ⟨rfl, hl'⟩⟩
      refine wp_kalloc_user h (fun _ => ?_) fun pa s₁ hne hpa htaken => ?_
      · rw [if_pos rfl]
        exact hundo _ h.answered rfl (fun _ _ => rfl) fun _ _ => rfl
      · have h₁ := htaken Bytes.zero
        have hlen := h₁.length
        have haT : a < TRAPFRAME := by omega
        rw [if_neg hne, clearPage, wp_bind, wp_modify, wp_bind]
        have hun : s.leaf (ρ t) a = 0 := by
          rw [hf.others t a (by omega) (by omega)]
          exact h₀ a hsa haT
        refine wp_mapUser h₁.heap h₁.new ht ha haT hperm (by rw [h₁.leaves, hun])
          (fun s₂ h₂ g₂ hsp₂ hl₂ _ => ?_) fun s₂ h₂ g₂ hsp₂ hs₂ _ => ?_
        · rw [if_pos (by decide), wp_bind]
          refine wp_kfree_float h₂ h₁.new fun s₃ h₃ hk₃ _ hl₃ hm₃ => ?_
          refine hundo s₃ h₃ (hk₃.trans (g₂.kend.trans h₁.grows.kend)) (h₁.spares_return h hsp₂ hm₃)
            fun t' va => ?_
          rw [hl₃, hl₂, h₁.leaves]
        · have hmod : (a + PGSIZE) % 2 ^ 64 = a + 4096 := mod_eq_of_lt (by simp only [PGSIZE]; omega)
          rw [if_neg (by decide), hmod]
          have hf₂ : Filled ρ t start (a + 4096) (PTE_R ||| PTE_U ||| xperm) s₀ s₂ :=
            (hf.congr h₁.grows.kend h₁.leaves).succ g₂.kend ha hsa (by omega)
              (by rw [h₁.grows.kend]; exact hpa) hs₂
          have hlen₂ := g₂.free.length_le
          refine wp_mono (ih h₂ (hjoin h rfl (.refl _ _ s) (h₁.spares_trans h hsp₂)) hf₂ (by omega) (by omega) (by omega) (by omega) (by omega))
            (fun r s' hq => ?_) fun _ _ he => he
          obtain ⟨h', hk', hsp', hcase⟩ := hq
          refine ⟨h', hk', hsp', hcase.imp_right ?_⟩
          rintro ⟨hr, b, h₁, h₂, h₃, h₄, h₅, h₆, h₇⟩
          exact ⟨hr, b, h₁, h₂, by omega, h₄, .inr (by omega), h₆, by omega⟩

/-- `uvmalloc` grows user memory to `newsz`, or fails and changes no leaf. -/
theorem wp_uvmalloc {oldsz : ℕ} (hx : xperm < 1024)
    (h : Heap userPages ρ g F s) (ht : ρ t ≠ 0) (hl : Leaves ρ t s) (hsz : oldsz ≤ TRAPFRAME)
    (h₀ : ∀ va, PGROUNDUP oldsz ≤ va → va < TRAPFRAME → s.leaf (ρ t) va = 0)
    (hroom : newsz ≤ TRAPFRAME ∨ PGROUNDUP oldsz + s.free.length * 4096 ≤ TRAPFRAME) :
    wp (uvmalloc (ρ t) oldsz newsz xperm) (fun r s' => newsz < oldsz ∧ r = oldsz ∧ s' = s ∨
      oldsz ≤ newsz ∧ AllocPost ρ g F t s (PGROUNDUP oldsz) newsz (PTE_R ||| PTE_U ||| xperm)
        (PGROUNDUP oldsz) (PGROUNDUP oldsz + s.free.length * 4096) r s') E s := by
  have hal := PGROUNDUP_aligned oldsz
  rw [uvmalloc, wp_ite]
  split
  · exact .inl ⟨‹_›, rfl, rfl⟩
  · rw [wp_bind, wp_get]
    refine wp_mono (wp_allocLoop hx h h ht hl (.refl _ _ s) (.refl _ _) hal hal le_rfl
      (PGROUNDUP_le hsz (by decide) (by decide)) h₀ hroom (lt_succ_self _)) (fun r s' hq => ?_)
      fun _ _ he => he
    exact .inr ⟨by omega, hq⟩

end

/-! ## Page faults -/

theorem PGROUNDDOWN_aligned (va : ℕ) : PGROUNDDOWN va % 4096 = 0 := by simp [PGROUNDDOWN]

theorem PGROUNDDOWN_page (va : ℕ) : PGROUNDDOWN va / 4096 = va / 4096 := by
  simp only [PGROUNDDOWN, PGSIZE]
  omega

theorem PGROUNDDOWN_le (va : ℕ) : PGROUNDDOWN va ≤ va := div_mul_le_self va _

theorem wp_ismapped {Q : Bool → Vm → Prop} (h : Heap userPages ρ g F s)
    (ht : ρ t ≠ 0) (hva : va < MAXVA) (hQ : Q (has (s.leaf (ρ t) va) PTE_V) s) :
    wp (ismapped (ρ t) va) Q E s := by
  rw [ismapped, wp_bind]
  refine wp_walk depth_userPages h hva ht (fun hz => ?_) fun hb => ?_
  · rw [if_pos rfl, wp_pure]
    rwa [Vm.leaf, hz, ent_zero] at hQ
  · rw [if_neg (by omega)]
    simp only [readPte, wp_bind, wp_get, wp_pure]
    rw [pte_eq_ent (h.node_aligned depth_userPages) hb (PX_lt 0 va)]
    exact hQ

theorem pathsDown_congr {va' l : ℕ} {p : List ℕ} (h : va' / 4096 = va / 4096) :
    pathsDown va' l p = pathsDown va l p := by
  induction l generalizing p with
  | zero => rfl
  | succ l ih => rw [pathsDown, pathsDown, PX_eq_of_page (l + 1) h, ih]

/-- From `s` to `s'`, a page for the address `va` and the page-table pages that were missing for it have
been taken. -/
structure Fed (ρ : ι → ℕ) (t : ι) (va : ℕ) (s s' : Vm) : Prop where
  spent : Spent (1 + gap s (ρ t) va) s s'
  nodes : ∀ q, q.length ≤ 2 → (s'.node (ρ t) q = 0 ↔ s.node (ρ t) q = 0 ∧ q ∉ pathsDown va 2 [])

theorem gap_le (s : Vm) (r va : ℕ) : gap s r va ≤ 2 := gapDown_le s r va 2 []

/-- `vmfault` maps a page of zeros for an address below the size that is not mapped. It fails otherwise,
or for lack of pages, and changes no leaf then. -/
theorem wp_vmfault {p : UserMem} {Q : ℕ → Vm → Prop}
    (h : Heap userPages ρ g F s) (ht : ρ t ≠ 0) (hp : p.pagetable = ρ t) (hsz : p.sz ≤ TRAPFRAME)
    (hl : Leaves ρ t s)
    (hbad : p.sz ≤ va ∨ has (s.leaf (ρ t) va) PTE_V = true → Q 0 s)
    (hnone : va < p.sz → s.leaf (ρ t) va = 0 → ¬ Supply (1 + gap s (ρ t) va) s →
      ∀ s', Heap userPages ρ g F s' → s'.kend = s.kend → Spares userPages (ρ t) s s' →
        (∀ t va, s'.leaf (ρ t) va = s.leaf (ρ t) va) →
        (∀ n, n * 4096 ∉ s.free → NoTable ρ s (n * 4096) → s'.mem n = s.mem n) → Q 0 s')
    (hok : ∀ pa s', va < p.sz → s.leaf (ρ t) va = 0 → pa ∈ s.free → Heap userPages ρ g F s' →
      Grows ρ s s' → Spares userPages (ρ t) s s' → Sets ρ t va (leafEntry pa (PTE_W ||| PTE_U ||| PTE_R)) s s' →
      s'.mem (pa / 4096) = Bytes.zero → Fed ρ t va s s' → Q pa s') :
    wp (vmfault p (ρ t) va) Q E s := by
  have hTM : TRAPFRAME < MAXVA := by decide
  have hle := PGROUNDDOWN_le va
  have hleaf : s.leaf (ρ t) (PGROUNDDOWN va) = s.leaf (ρ t) va := leaf_congr_page (PGROUNDDOWN_page va)
  rw [vmfault, wp_ite]
  split
  · exact hbad (.inl ‹_›)
  · rename_i hlt
    rw [wp_bind]
    refine wp_ismapped h ht (by omega) ?_
    rw [wp_ite, hleaf]
    split
    · exact hbad (.inr ‹_›)
    · rename_i hv
      have hzero : s.leaf (ρ t) va = 0 := (hl va (by omega)).resolve_right fun e => hv e.1
      have hnone' := hnone (by omega) hzero
      rw [wp_bind]
      refine wp_kalloc_user h (fun hno => ?_) fun pa s₁ hne hpa htaken => ?_
      · rw [if_pos rfl]
        exact hnone' (fun hs => hno (hs.mono (by omega))) _ h.answered rfl (fun _ _ => rfl) (fun _ _ => rfl)
          fun _ _ _ => rfl
      · have h₁ := htaken Bytes.zero
        have hgap : gap (s₁.setPage pa Bytes.zero) (ρ t) (PGROUNDDOWN va) = gap s (ρ t) va := by
          rw [gap, gap, gapDown, gapDown, pathsDown_congr (PGROUNDDOWN_page va)]
          refine countP_congr fun q hq => ?_
          rw [h₁.nodes t q (length_le_of_mem_pathsDown hq)]
        rw [if_neg hne, clearPage, wp_bind, wp_modify, wp_bind, hp]
        refine wp_mapUser h₁.heap h₁.new ht (PGROUNDDOWN_aligned va) (by omega) (by decide)
          (by rw [h₁.leaves, hleaf, hzero]) (fun s₂ h₂ g₂ hsp₂ hl₂ hno => ?_)
          fun s₂ h₂ g₂ hsp₂ hs₂ hk₂ => ?_
        · rw [if_pos (by decide), wp_bind]
          refine wp_kfree_float h₂ h₁.new fun s₃ h₃ hk₃ _ hl₃ hm₃ => ?_
          refine hnone' (fun hs => hno (by rw [hgap]; exact h₁.spent.supply_iff.1 hs)) s₃ h₃
            (hk₃.trans (g₂.kend.trans h₁.grows.kend)) (h₁.spares_return h hsp₂ hm₃)
            (fun t' va' => by rw [hl₃, hl₂, h₁.leaves]) fun n hn hno => ?_
          rw [hm₃ n fun e => hn (e ▸ h₁.free), (h₁.grows.trans g₂).keeps n hn hno]
        · rw [if_neg (by decide), wp_pure]
          refine hok pa s₂ (by omega) hzero h₁.free h₂ (h₁.grows.trans g₂) (h₁.spares_trans h hsp₂)
            (fun t' va' hva' => ?_) (h₁.keeps g₂) ⟨?_, fun q hq => ?_⟩
          · rw [hs₂ t' va' hva', PGROUNDDOWN_page, h₁.leaves]
          · have := h₁.spent.trans hk₂.spent
            rw [show (pathsDown (PGROUNDDOWN va) 2 []).countP _ = gap _ _ _ from rfl, hgap] at this
            exact this
          · rw [hk₂.nodes q hq, h₁.nodes t q hq, pathsDown_congr (PGROUNDDOWN_page va)]

/-! ## Copying -/

theorem Heap.noTable_leaf (h : Heap userPages ρ g F s) (hva : va < TRAPFRAME)
    (hne : child (s.leaf (ρ t) va) ≠ 0) : NoTable ρ s (child (s.leaf (ρ t) va)) := by
  intro t' p hp e
  have ho := depth_userPages.table p hp
  have := h.ledger.inj (.inl (t', p)) (.inl (t, place va))
    (by rw [refs_node ho, e, refs_place (userPages_place hva)]) (by rw [refs_node ho, e]; exact hne)
  simp only [Sum.inl.injEq, Prod.mk.injEq] at this
  rw [this.2] at hp
  simp [place] at hp

theorem Heap.leaf_notMem_free (h : Heap userPages ρ g F s) (hva : va < TRAPFRAME)
    (hne : child (s.leaf (ρ t) va) ≠ 0) : child (s.leaf (ρ t) va) ∉ s.free := by
  have hr : refs userPages ρ g s (.inl (t, place va)) = child (s.leaf (ρ t) va) :=
    refs_place (userPages_place hva)
  have := h.ledger.used_of_ref (p := .inl (t, place va)) (by rwa [hr])
  rwa [hr] at this

theorem child_page (e : ℕ) : child e / 4096 * 4096 = child e :=
  Nat.div_mul_cancel (dvd_of_mod_eq_zero (child_aligned e))

theorem Heap.leaf_keeps (h : Heap userPages ρ g F s) (hva : va < TRAPFRAME)
    (hne : child (s.leaf (ρ t) va) ≠ 0) (hg : Grows ρ s s') :
    s'.mem (child (s.leaf (ρ t) va) / 4096) = s.mem (child (s.leaf (ρ t) va) / 4096) := by
  refine hg.keeps _ ?_ ?_
  · rw [child_page]
    exact h.leaf_notMem_free hva hne
  · rw [child_page]
    exact h.noTable_leaf hva hne

theorem Heap.leaf_spares {t' : ι} (h : Heap userPages ρ g F s) (hva : va < TRAPFRAME) (ht : t' ≠ t)
    (hne : child (s.leaf (ρ t') va) ≠ 0) (hs : Spares userPages (ρ t) s s') :
    s'.mem (child (s.leaf (ρ t') va) / 4096) = s.mem (child (s.leaf (ρ t') va) / 4096) := by
  refine hs _ ?_
  rw [child_page]
  exact h.foreign_node (p := place va) ht (userPages_place hva) hne

/-- From `s₀` to `s`, the pages of `t₀` below `i` were copied to `t`. -/
structure Copied (ρ : ι → ℕ) (t₀ t : ι) (i : ℕ) (s₀ s : Vm) : Prop where
  kend : s.kend = s₀.kend
  others : ∀ t' va, va < MAXVA → ¬ (t' = t ∧ va < i) → s.leaf (ρ t') va = s₀.leaf (ρ t') va
  pages : ∀ va < i, s.leaf (ρ t) va = 0 ∧ s₀.leaf (ρ t₀) va = 0 ∨
    has (s₀.leaf (ρ t₀) va) PTE_V = true ∧
      ∃ pa ∈ frames s₀.kend, s.leaf (ρ t) va = leafEntry pa (PTE_FLAGS (s₀.leaf (ρ t₀) va))

theorem PTE_FLAGS_lt (e : ℕ) : PTE_FLAGS e < 1024 := mod_lt _ (by decide)

namespace Copied

variable {t₀ : ι} {i pa : ℕ}

theorem refl : Copied ρ t₀ t 0 s s := ⟨rfl, fun _ _ _ _ => rfl, fun _ h => by omega⟩

theorem congr (h : Copied ρ t₀ t i s₀ s) (hk : s'.kend = s.kend)
    (hl : ∀ t va, s'.leaf (ρ t) va = s.leaf (ρ t) va) : Copied ρ t₀ t i s₀ s' :=
  ⟨hk.trans h.kend, fun t' va hva hn => (hl t' va).trans (h.others t' va hva hn),
    fun va hva => by rw [hl]; exact h.pages va hva⟩

/-- A page that the parent does not have. -/
theorem skip (h : Copied ρ t₀ t i s₀ s) (hi : i % 4096 = 0) (hmax : i < MAXVA)
    (hz : s₀.leaf (ρ t₀) i = 0) (hz' : s₀.leaf (ρ t) i = 0) : Copied ρ t₀ t (i + 4096) s₀ s where
  kend := h.kend
  others t' va hva hn := h.others t' va hva fun e => hn ⟨e.1, by omega⟩
  pages va hva := by
    have hM : MAXVA % 4096 = 0 := by decide
    by_cases e : va < i
    · exact h.pages va e
    · have hp : va / 4096 = i / 4096 := by omega
      rw [h.others t va (by omega) fun hh => e hh.2, leaf_congr_page hp, leaf_congr_page hp]
      exact .inl ⟨hz', hz⟩

theorem succ (h : Copied ρ t₀ t i s₀ s) (hk : s'.kend = s.kend) (hi : i % 4096 = 0) (hmax : i < MAXVA)
    (hpa : pa ∈ frames s.kend) (hv : has (s₀.leaf (ρ t₀) i) PTE_V = true)
    (hs : Sets ρ t i (leafEntry pa (PTE_FLAGS (s₀.leaf (ρ t₀) i))) s s') :
    Copied ρ t₀ t (i + 4096) s₀ s' where
  kend := hk.trans h.kend
  others t' va hva hn := by
    rw [hs t' va hva, if_neg fun e => hn ⟨e.1, by omega⟩]
    exact h.others t' va hva fun e => hn ⟨e.1, by omega⟩
  pages va hva := by
    have hM : MAXVA % 4096 = 0 := by decide
    rw [hs t va (by omega)]
    by_cases e : va / 4096 = i / 4096
    · rw [if_pos ⟨rfl, e⟩, leaf_congr_page e]
      exact .inr ⟨hv, pa, h.kend ▸ hpa, rfl⟩
    · rw [if_neg fun hh => e hh.2]
      exact h.pages va (by omega)

theorem leaves (h : Copied ρ t₀ t i s₀ s) (hk : KERNBASE ≤ s₀.kend)
    (hz : ∀ va < TRAPFRAME, s₀.leaf (ρ t) va = 0) : Leaves ρ t s := by
  intro va hva
  have hTM : TRAPFRAME < MAXVA := by decide
  by_cases hr : va < i
  · rcases h.pages va hr with ⟨e, -⟩ | ⟨-, pa, hpa, e⟩
    · exact .inl e
    · have := leafEntry_frame hk hpa (PTE_FLAGS_lt (s₀.leaf (ρ t₀) va))
      rw [e]
      exact .inr ⟨this.1, this.2.2⟩
  · rw [h.others t va (by omega) fun hh => hr hh.2]
    exact .inl (hz va hva)

/-- Unmapping what was copied. -/
theorem undo (h : Copied ρ t₀ t i s₀ s) (hi : i % 4096 = 0) (hmax : i ≤ TRAPFRAME)
    (hz : ∀ va < TRAPFRAME, s₀.leaf (ρ t) va = 0) (hc : Clears ρ t 0 (i / 4096) s s') :
    ∀ t' va, va < MAXVA → s'.leaf (ρ t') va = s₀.leaf (ρ t') va := by
  intro t' va hva
  rw [hc t' va hva]
  by_cases hr : t' = t ∧ va < i
  · obtain ⟨rfl, h₁⟩ := hr
    rw [hz va (by omega)]
    rcases h.pages va h₁ with ⟨e, -⟩ | ⟨-, pa, -, e⟩
    · rw [e, ite_self]
    · rw [if_pos ⟨rfl, by omega, by rw [e]; exact has_leafEntry⟩]
  · rw [if_neg fun hh => hr ⟨hh.1, by omega⟩]
    exact h.others t' va hva hr

end Copied

/-- The pages of `t` below `i` hold in `s` what those of `t₀` held in `s₀`. -/
def Same (ρ : ι → ℕ) (t₀ t : ι) (i : ℕ) (s₀ s : Vm) : Prop :=
  ∀ va < i, s₀.leaf (ρ t₀) va ≠ 0 →
    s.mem (child (s.leaf (ρ t) va) / 4096) = s₀.mem (child (s₀.leaf (ρ t₀) va) / 4096)

namespace Same

variable {t₀ : ι} {i pa : ℕ}

theorem skip (h : Same ρ t₀ t i s₀ s) (hi : i % 4096 = 0) (hz : s₀.leaf (ρ t₀) i = 0) :
    Same ρ t₀ t (i + 4096) s₀ s := by
  intro va hva hne
  refine h va ?_ hne
  by_contra hge
  exact hne (by rw [leaf_congr_page (show va / 4096 = i / 4096 by omega), hz])

theorem succ (hsame : Same ρ t₀ t i s₀ s) (h : Heap userPages ρ g F s) (hc : Copied ρ t₀ t i s₀ s)
    (hg : Grows ρ s s') (hi : i % 4096 = 0) (hmax : i + 4096 ≤ TRAPFRAME) (hpa : pa ∈ frames s.kend)
    (hs : Sets ρ t i (leafEntry pa (PTE_FLAGS (s₀.leaf (ρ t₀) i))) s s')
    (hd : s'.mem (pa / 4096) = s₀.mem (child (s₀.leaf (ρ t₀) i) / 4096)) :
    Same ρ t₀ t (i + 4096) s₀ s' := by
  have hTM : TRAPFRAME < MAXVA := by decide
  intro va hva hne
  rw [hs t va (by omega)]
  by_cases e : va / 4096 = i / 4096
  · rw [if_pos ⟨rfl, e⟩, (leafEntry_frame h.kend hpa (PTE_FLAGS_lt _)).2.1, hd, leaf_congr_page e]
  · rw [if_neg fun hh => e hh.2]
    rcases hc.pages va (by omega) with ⟨-, e₀⟩ | ⟨-, pa', hpa', e'⟩
    · exact absurd e₀ hne
    · have hchild : child (s.leaf (ρ t) va) ≠ 0 := by
        rw [e']
        exact (leafEntry_frame h.kend (hc.kend ▸ hpa') (PTE_FLAGS_lt _)).2.2
      rw [h.leaf_keeps (by omega) hchild hg]
      exact hsame va (by omega) hne

end Same

/-- What `uvmcopy` does: the child gets the pages that the parent has below `i`, or none. -/
structure CopyPost (ρ : ι → ℕ) (g : X → ℕ) (F : Set ℕ) (t₀ t : ι) (s₀ : Vm) (i : ℕ) (r : ℤ) (s : Vm) :
    Prop where
  heap : Heap userPages ρ g F s
  kend : s.kend = s₀.kend
  spares : Spares userPages (ρ t) s₀ s
  contents : r = 0 → Same ρ t₀ t i s₀ s
  result : r = 0 ∧ Copied ρ t₀ t i s₀ s ∨
    r = -1 ∧ ∀ t' va, va < MAXVA → s.leaf (ρ t') va = s₀.leaf (ρ t') va

theorem wp_copyPages {t₀ : ι} {i : ℕ} (hh₀ : Heap userPages ρ g F s₀)
    (h : Heap userPages ρ g F s) (ht₀ : ρ t₀ ≠ 0) (ht : ρ t ≠ 0) (hne : t₀ ≠ t) (hl : Leaves ρ t₀ s₀)
    (hz : ∀ va < TRAPFRAME, s₀.leaf (ρ t) va = 0) (hsp : Spares userPages (ρ t) s₀ s)
    (hc : Copied ρ t₀ t i s₀ s) (hsame : Same ρ t₀ t i s₀ s) (hi : i % 4096 = 0)
    (hmax : i + n * 4096 ≤ TRAPFRAME) :
    wp (copyPages (ρ t₀) (ρ t) n i) (CopyPost ρ g F t₀ t s₀ (i + n * 4096)) E s := by
  have hTM : TRAPFRAME < MAXVA := by decide
  induction n generalizing s i with
  | zero =>
    rw [Nat.zero_mul, Nat.add_zero]
    exact ⟨h, hc.kend, hsp, fun _ => hsame, .inl ⟨rfl, hc⟩⟩
  | succ n ih =>
    have hk₀ : KERNBASE ≤ s₀.kend := hc.kend ▸ h.kend
    have hold : s.leaf (ρ t₀) i = s₀.leaf (ρ t₀) i := hc.others t₀ i (by omega) fun e => hne e.1
    have hzero : s.leaf (ρ t) i = 0 := by
      rw [hc.others t i (by omega) (by omega), hz i (by omega)]
    have hadd : i + (n + 1) * 4096 = i + 4096 + n * 4096 := by ring
    rw [hadd]
    -- the rest of the loop, and its failure
    have hjoin : ∀ {s₁}, Spares userPages (ρ t) s s₁ → Spares userPages (ρ t) s₀ s₁ := fun hsp₁ =>
      hh₀.spares_trans depth_userPages h le_rfl (fun _ _ => rfl) hc.kend hsp hsp₁
    have hnext : ∀ s₁, Heap userPages ρ g F s₁ → Spares userPages (ρ t) s₀ s₁ →
        Copied ρ t₀ t (i + 4096) s₀ s₁ → Same ρ t₀ t (i + 4096) s₀ s₁ →
        wp (copyPages (ρ t₀) (ρ t) n (i + 4096))
          (CopyPost ρ g F t₀ t s₀ (i + 4096 + n * 4096)) E s₁ :=
      fun s₁ h₁ hsp₁ hc₁ hsame₁ => ih h₁ hsp₁ hc₁ hsame₁ (by omega) (by omega)
    have hundo : ∀ s₁, Heap userPages ρ g F s₁ → Spares userPages (ρ t) s₀ s₁ → Copied ρ t₀ t i s₀ s₁ →
        wp (uvmunmap (ρ t) 0 (i / PGSIZE) true >>= fun _ => pure (-1))
          (CopyPost ρ g F t₀ t s₀ (i + 4096 + n * 4096)) E s₁ := fun s₁ h₁ hsp₁ hc₁ => by
      have hfit : 0 + i / PGSIZE * 4096 ≤ TRAPFRAME := by simp only [PGSIZE]; omega
      refine wp_call (wp_uvmunmap_user h₁ ht (hc₁.leaves hk₀ hz) rfl hfit) fun _ s' hq => ?_
      obtain ⟨h', hk', hcl, hsp'⟩ := hq
      exact ⟨h', hk'.trans hc₁.kend, hh₀.spares_trans depth_userPages h₁ le_rfl (fun _ _ => rfl) hc₁.kend
        hsp₁ hsp', fun e => absurd e (by decide), .inr ⟨rfl, hc₁.undo hi (by omega) hz hcl⟩⟩
    rw [copyPages, wp_bind]
    refine wp_walk depth_userPages h (by omega) ht₀ (fun hb => ?_) fun hb => ?_
    · rw [if_pos rfl]
      have hzero₀ : s₀.leaf (ρ t₀) i = 0 := by rw [← hold, Vm.leaf, hb, ent_zero]
      exact hnext s h hsp (hc.skip hi (by omega) hzero₀ (hz i (by omega))) (hsame.skip hi hzero₀)
    · have hpte : s.pte (s.node (ρ t₀) [PX 2 i, PX 1 i] + 8 * PX 0 i) = s₀.leaf (ρ t₀) i :=
        (pte_eq_ent (h.node_aligned depth_userPages) hb (PX_lt 0 i)).trans hold
      rw [if_neg (by omega), readPte]
      simp only [wp_bind, wp_get, wp_pure, hpte]
      rcases hl i (by omega) with hzero₀ | ⟨hv, hch⟩
      · rw [hzero₀, if_pos (by decide)]
        exact hnext s h hsp (hc.skip hi (by omega) hzero₀ (hz i (by omega))) (hsame.skip hi hzero₀)
      · rw [hv, if_neg (by decide), wp_bind]
        refine wp_kalloc_user h (fun _ => ?_) fun pa s₁ hpa0 hpa htaken => ?_
        · rw [if_pos rfl]
          exact hundo _ h.answered (hjoin fun _ _ => rfl) (hc.congr rfl fun _ _ => rfl)
        · have h₁ := htaken (s₁.mem (PTE2PA (s₀.leaf (ρ t₀) i) / PGSIZE))
          rw [if_neg hpa0, wp_bind, wp_modify, wp_bind]
          refine wp_mapUser h₁.heap h₁.new ht hi (by omega) (PTE_FLAGS_lt _) (by rw [h₁.leaves, hzero])
            (fun s₂ h₂ g₂ hsp₂ hl₂ _ => ?_) fun s₂ h₂ g₂ hsp₂ hs₂ _ => ?_
          · rw [if_pos (by decide), wp_bind]
            refine wp_kfree_float h₂ h₁.new fun s₃ h₃ hk₃ _ hl₃ hm₃ => ?_
            refine hundo s₃ h₃ (hjoin (h₁.spares_return h hsp₂ hm₃))
              (hc.congr (hk₃.trans (g₂.kend.trans h₁.grows.kend)) fun t' va => ?_)
            rw [hl₃, hl₂, h₁.leaves]
          · rw [if_neg (by decide)]
            have hs : Sets ρ t i (leafEntry pa (PTE_FLAGS (s₀.leaf (ρ t₀) i))) s s₂ := fun t' va hva => by
              rw [hs₂ t' va hva, h₁.leaves]
            -- what was copied is the page of the parent
            have hd : s₁.mem (PTE2PA (s₀.leaf (ρ t₀) i) / PGSIZE) =
                s₀.mem (child (s₀.leaf (ρ t₀) i) / 4096) := by
              have hfor := hh₀.foreign_node (t := t) (p := place i) hne (userPages_place (by omega)) hch
              have hfor' := hh₀.foreign depth_userPages h le_rfl (fun _ _ => rfl) hc.kend hsp hfor
              have hpg : PTE2PA (s₀.leaf (ρ t₀) i) / PGSIZE = child (s₀.leaf (ρ t₀) i) / 4096 := by
                rw [child, if_pos hv, PGSIZE]
              rw [hpg, ← hh₀.leaf_spares (by omega) hne hch hsp]
              rw [← h₁.spares (ρ t) _ (by rw [child_page]; exact hfor')]
              refine (mem_setPage_of_ne fun e => hfor'.used ?_).symm
              show child (s₀.leaf (ρ t₀) i) ∈ s.free
              rw [← child_page, e, h₁.page]
              exact h₁.free
            exact hnext s₂ h₂ (hjoin (h₁.spares_trans h hsp₂))
              (hc.succ (g₂.kend.trans h₁.grows.kend) hi (by omega) hpa hv hs)
              (hsame.succ h hc (h₁.grows.trans g₂) hi (by omega) hpa hs ((h₁.keeps g₂).trans hd))

/-- `uvmcopy` copies the user memory below `sz`, or fails and changes no leaf. -/
theorem wp_uvmcopy {t₀ : ι} {sz : ℕ} (h : Heap userPages ρ g F s)
    (ht₀ : ρ t₀ ≠ 0) (ht : ρ t ≠ 0) (hne : t₀ ≠ t) (hl : Leaves ρ t₀ s)
    (hz : ∀ va < TRAPFRAME, s.leaf (ρ t) va = 0) (hsz : sz ≤ TRAPFRAME) :
    wp (uvmcopy (ρ t₀) (ρ t) sz) (CopyPost ρ g F t₀ t s (PGROUNDUP sz)) E s := by
  have hTM : TRAPFRAME < MAXVA := by decide
  have hle := PGROUNDUP_le hsz (by decide) hTM.le
  have hn : 0 + (sz + PGSIZE - 1) / PGSIZE * 4096 = PGROUNDUP sz := by
    rw [PGROUNDUP_eq (by omega), Nat.zero_add]
    rfl
  have hsame : Same ρ t₀ t 0 s s := fun va hva => by omega
  have := wp_copyPages (E := E) h h ht₀ ht hne hl hz (.refl _ _ s) .refl hsame rfl (by rw [hn]; exact hle)
  rwa [hn] at this

end Xv6
