import Xv6.User.Copier

/-!
# What `copyout` may change

`copyout` takes any address and any length, and it may run out of physical pages in the middle of the
range. Whatever happens, it writes only to pages that the user may write, page-table pages and pages that
were free, and the process sees new bytes in the range only (`copyout_confined`). It fails at the first
byte whose page the user may not write and `vmfault` does not provide.

The argument is about runs, since the failure is described by the run that leads to it: `Sees.vmfault`
and `Sees.userPage` are the lookups for one page, `PageReady` is a page that is found and may be written, and
`CopiedOut` is what the loop has done.
-/

namespace Xv6

open Prog List Vm Nat

variable {ι X : Type} {ρ : ι → ℕ} {g : X → ℕ} {F : Set ℕ} {s s' s'' : Vm} {t : ι} {va sz : ℕ}
  {trampoline trapframe : ℕ} {m : LogicalMem}

/-- The user may write at `va`: the page is mapped with V, U and W. -/
def Vm.Writable (s : Vm) (pagetable va : ℕ) : Prop :=
  va < MAXVA ∧ has (s.leaf pagetable va) PTE_V = true ∧ has (s.leaf pagetable va) PTE_U = true ∧
    has (s.leaf pagetable va) PTE_W = true

/-- From `s` to `s'`, mappings are at most added, to the page table `t`, and only page-table pages and
free pages have changed. -/
structure Widens (ρ : ι → ℕ) (t : ι) (s s' : Vm) : Prop where
  leaves : ∀ t' va, va < MAXVA → t' ≠ t ∨ s.leaf (ρ t') va ≠ 0 → s'.leaf (ρ t') va = s.leaf (ρ t') va
  mem : ∀ n, n * 4096 ∉ s.free → NoTable ρ s (n * 4096) → s'.mem n = s.mem n

theorem Widens.refl (ρ : ι → ℕ) (t : ι) (s : Vm) : Widens ρ t s s :=
  ⟨fun _ _ _ _ => rfl, fun _ _ _ => rfl⟩

/-! ## The lookup of one page -/

/-- The logical memory is the same when the leaves and the contents of the mapped pages are. -/
theorem Sees.kept (h : Sees ρ g F t trampoline trapframe sz m s) (h' : Heap userPages ρ g F s')
    (hl : ∀ va, s'.leaf (ρ t) va = s.leaf (ρ t) va)
    (hm : ∀ n, n * 4096 ∉ s.free → NoTable ρ s (n * 4096) → s'.mem n = s.mem n) :
    Sees ρ g F t trampoline trapframe sz m s' :=
  ⟨h', h.table.congr rfl fun va _ => hl va, funext fun _ => h.logical_kept (fun _ => hl _) hm⟩

/-- `walkaddr` finds every page that the user may write. -/
theorem Sees.userPa_ne_zero (h : Sees ρ g F t trampoline trapframe sz m s) (hw : s.Writable (ρ t) va) :
    userPa (s.leaf (ρ t) va) ≠ 0 := by
  obtain ⟨hva, hv, hU, -⟩ := hw
  obtain ⟨hc, hne, -⟩ := h.heap.child_user h.table (h.table.lt_of_user hva hU) hv
  rwa [userPa, if_pos ⟨hv, hU⟩, hc]

/-- `vmfault` for a page that `walkaddr` does not find, with any number of free pages. -/
theorem Sees.vmfault (h : Sees ρ g F t trampoline trapframe sz m s) (hal : va % 4096 = 0)
    (hva : va < MAXVA) (hz : userPa (s.leaf (ρ t) va) = 0) :
    ∃ pa s', vmfault ⟨ρ t, sz⟩ (ρ t) va s = (.ok pa, s') ∧
      Sees ρ g F t trampoline trapframe sz m s' ∧ Widens ρ t s s' ∧ pa = userPa (s'.leaf (ρ t) va) ∧
      (pa ≠ 0 → Grows ρ s s') := by
  have hTM : TRAPFRAME < MAXVA := by decide
  have hsz := h.table.size
  refine wp_total (wp_vmfault h.heap h.table.root rfl hsz h.table.leaves (fun _ => ?_)
    (fun hlt hzero _ s' h' _ _ hl hm => ?_) fun pa s' hlt hzero hpa h' hg _ hs hmem _ => ?_)
  · exact ⟨h, Widens.refl ρ t s, hz.symm, fun hne => absurd rfl hne⟩
  · refine ⟨h.kept h' (hl t) hm, ⟨fun t' va' _ _ => hl t' va', hm⟩, ?_, fun hne => absurd rfl hne⟩
    rw [hl, hz]
  · refine ⟨h.fault hlt hal hzero hpa h' hg hs hmem, ⟨fun t' va' hva' hne => ?_, hg.keeps⟩, ?_, fun _ => hg⟩
    · rw [hs t' va' hva', if_neg]
      rintro ⟨rfl, hpage⟩
      rw [leaf_congr_page hpage, hzero] at hne
      simp at hne
    · rw [hs t va hva, if_pos ⟨rfl, rfl⟩, userPa_fault (h.heap.free pa hpa)]

/-- The lookup of `copyout` ends with the page that `walkaddr` finds afterwards, and without one if
`vmfault` has failed. -/
theorem Sees.userPage (h : Sees ρ g F t trampoline trapframe sz m s) (hal : va % 4096 = 0)
    (hva : va < MAXVA) :
    ∃ pa s', userPage ⟨ρ t, sz⟩ (ρ t) va s = (.ok pa, s') ∧
      Sees ρ g F t trampoline trapframe sz m s' ∧ Widens ρ t s s' ∧ pa = userPa (s'.leaf (ρ t) va) ∧
      (pa ≠ 0 → Grows ρ s s') ∧ (pa = 0 → Xv6.vmfault ⟨ρ t, sz⟩ (ρ t) va s = (.ok 0, s')) := by
  have hwalk : wp (Xv6.walkaddr (ρ t) va) (fun pa s' => pa = userPa (s.leaf (ρ t) va) ∧ s' = s)
      (fun _ _ => False) s :=
    wp_walkaddr h.heap h.table.root (fun hge => absurd hva (by omega)) fun _ => ⟨rfl, rfl⟩
  obtain ⟨pa, s₁, e, rfl, rfl⟩ := wp_total hwalk
  have hrun : Xv6.userPage ⟨ρ t, sz⟩ (ρ t) va s₁ =
      (if userPa (s₁.leaf (ρ t) va) = 0 then Xv6.vmfault ⟨ρ t, sz⟩ (ρ t) va
        else pure (userPa (s₁.leaf (ρ t) va))) s₁ := bind_of_ok e
  rw [hrun]
  by_cases hz : userPa (s₁.leaf (ρ t) va) = 0
  · obtain ⟨pa, s', e', h', hheld, hpa, hg⟩ := h.vmfault hal hva hz
    rw [if_pos hz]
    exact ⟨pa, s', e', h', hheld, hpa, hg, fun hne => by rw [e', hne]⟩
  · rw [if_neg hz]
    exact ⟨_, s₁, rfl, h, Widens.refl ρ t s₁, rfl, fun _ => Grows.refl ρ s₁, fun e => absurd e hz⟩

/-! ## One pass of the loop -/

/-- The page `va` is found at `pa`, in the state `s'`, and may be written. -/
structure PageReady (p : UserMem) (pagetable va : ℕ) (s : Vm) (pa : ℕ) (s' : Vm) : Prop where
  page : userPage p pagetable va s = (.ok pa, s')
  ne_zero : pa ≠ 0
  pte : ∃ a, a ≠ 0 ∧ walk pagetable va false s' = (.ok a, s') ∧ has (s'.pte a) PTE_W = true

/-- The state after the part of a write in the page at `pa`. -/
def Vm.putPage (s : Vm) (pa dstva : ℕ) (bs : List UInt8) : Vm :=
  s.setPage pa (Bytes.put (s.mem (pa / PGSIZE)) (dstva % PGSIZE) bs)

section Pass

variable {p : UserMem} {pagetable dstva fuel pa : ℕ} {src : List UInt8}

/-- One pass of the loop writes the bytes in the first page. -/
theorem PageReady.copyoutLoop (h : PageReady p pagetable (PGROUNDDOWN dstva) s pa s')
    (hva : PGROUNDDOWN dstva < MAXVA) (hsrc : src ≠ []) :
    copyoutLoop p pagetable (fuel + 1) dstva src s =
      copyoutLoop p pagetable fuel (dstva + (PGSIZE - dstva % PGSIZE)) (src.drop (PGSIZE - dstva % PGSIZE))
        (s'.putPage pa dstva (src.take (PGSIZE - dstva % PGSIZE))) := by
  obtain ⟨a, ha, hwalk, hW⟩ := h.pte
  have hdown := PGROUNDDOWN_add dstva
  have hM : MAXVA + PGSIZE < 2 ^ 64 := by decide
  have hread : readPte a s' = (.ok (s'.pte a), s') := rfl
  rw [Xv6.copyoutLoop, if_neg (by omega), bind_of_ok h.page, if_neg h.ne_zero,
    bind_of_ok hwalk, if_neg ha, bind_of_ok hread, hW, if_neg (by decide)]
  rotate_left
  · exact hsrc
  change Xv6.copyoutLoop _ _ _ _ _ (s'.setPage _ _) = _
  rw [Vm.putPage, hdown.1, hdown.2, take_min_length, drop_min_length,
    mod_eq_of_lt (by omega)]

/-- Why `copyout` fails at `va` in the state `s`, leaving `s'`: no user address, a page that the user may
not write, or a page that `vmfault` does not provide. -/
def Refused (p : UserMem) (pagetable va : ℕ) (s s' : Vm) : Prop :=
  MAXVA ≤ va ∨
  (has (s'.leaf pagetable va) PTE_V = true ∧ has (s'.leaf pagetable va) PTE_U = true ∧
    has (s'.leaf pagetable va) PTE_W = false) ∨
  vmfault p pagetable (PGROUNDDOWN va) s = (.ok 0, s')

/-- What the loop has done from `s` to `s'`, with the result `r`. -/
structure CopiedOut (ρ : ι → ℕ) (t : ι) (sz fuel dstva : ℕ) (src : List UInt8) (s : Vm) (r : ℤ) (s' : Vm) :
    Prop where
  leaves : ∀ t' va, va < MAXVA → t' ≠ t ∨ s.leaf (ρ t') va ≠ 0 → s'.leaf (ρ t') va = s.leaf (ρ t') va
  mem : ∀ n, n * 4096 ∉ s.free → NoTable ρ s (n * 4096) → s'.mem n ≠ s.mem n →
    ∃ i < src.length, s'.Writable (ρ t) (dstva + i) ∧ PTE2PA (s'.leaf (ρ t) (dstva + i)) = n * 4096
  other : ∀ a, a < dstva ∨ dstva + src.length ≤ a →
    (s'.logical ⟨ρ t, sz⟩).byte a = (s.logical ⟨ρ t, sz⟩).byte a
  done : r = 0 → ∀ i < src.length, s'.Writable (ρ t) (dstva + i) ∧
    (s'.logical ⟨ρ t, sz⟩).byte (dstva + i) = some (src.getD i 0).toNat
  failed : r ≠ 0 → r = -1 ∧ ∃ i < src.length, ¬ s'.Writable (ρ t) (dstva + i) ∧
    ∃ s'', copyoutLoop ⟨ρ t, sz⟩ (ρ t) fuel dstva (src.take i) s = (.ok 0, s'') ∧
      Refused ⟨ρ t, sz⟩ (ρ t) (dstva + i) s'' s'

/-- There is nothing to copy. -/
theorem CopiedOut.nil (ρ : ι → ℕ) (t : ι) (sz fuel dstva : ℕ) (s : Vm) :
    CopiedOut ρ t sz fuel dstva [] s 0 s where
  leaves _ _ _ _ := rfl
  mem _ _ _ hne := absurd rfl hne
  other _ _ := rfl
  done _ i hi := absurd hi (Nat.not_lt_zero i)
  failed hne := absurd rfl hne

/-- The loop stops at the first byte. -/
theorem Widens.copiedOut (hheld : Widens ρ t s s') (hlog : s'.logical ⟨ρ t, sz⟩ = s.logical ⟨ρ t, sz⟩)
    (hsrc : src ≠ []) (hno : ¬ s'.Writable (ρ t) dstva) (hwhy : Refused ⟨ρ t, sz⟩ (ρ t) dstva s s') :
    CopiedOut ρ t sz fuel dstva src s (-1) s' where
  leaves := hheld.leaves
  mem n hfree htab hne := absurd (hheld.mem n hfree htab) hne
  other _ _ := by rw [hlog]
  done h := absurd h (by decide)
  failed _ := ⟨rfl, 0, length_pos_iff.2 hsrc, hno, s, by simp [Xv6.copyoutLoop]; rfl, hwhy⟩

theorem CopiedOut.cons {s₁ : Vm} {r : ℤ} (h : Sees ρ g F t trampoline trapframe sz m s)
    (h₁ : Sees ρ g F t trampoline trapframe sz m s₁) (hheld : Widens ρ t s s₁) (hg : Grows ρ s s₁)
    (hready : PageReady ⟨ρ t, sz⟩ (ρ t) (PGROUNDDOWN dstva) s pa s₁) (hsrc : src ≠ [])
    (hw : s₁.Writable (ρ t) dstva) (hpa : pa = child (s₁.leaf (ρ t) dstva))
    (hrest : CopiedOut ρ t sz fuel (dstva + (PGSIZE - dstva % PGSIZE)) (src.drop (PGSIZE - dstva % PGSIZE))
      (s₁.putPage pa dstva (src.take (PGSIZE - dstva % PGSIZE))) r s') :
    CopiedOut ρ t sz (fuel + 1) dstva src s r s' := by
  obtain ⟨hva, hv, hU, hW⟩ := hw
  have hlow := h₁.table.lt_of_user hva hU
  obtain ⟨hc, hne, -⟩ := h₁.heap.child_user h₁.table hlow hv
  have hnt : NoTable ρ s₁ pa := hpa ▸ h₁.heap.noTable_leaf hlow hne
  have hal : pa % 4096 = 0 := hpa ▸ child_aligned _
  have hoff : dstva % PGSIZE < PGSIZE := mod_lt dstva (by decide)
  have hdown := PGROUNDDOWN_le dstva
  obtain ⟨k, hk⟩ : ∃ k, k = PGSIZE - dstva % PGSIZE := ⟨_, rfl⟩
  rw [← hk] at hrest
  have hpos : 0 < src.length := length_pos_iff.2 hsrc
  have hlen : (src.drop k).length = src.length - k := length_drop
  have hleaf₂ : ∀ t' va', (s₁.putPage pa dstva (src.take k)).leaf (ρ t') va' = s₁.leaf (ρ t') va' :=
    fun t' va' => h₁.heap.leaf_setPage depth_userPages hal hnt _ va'
  -- the pages of the range that have been written stay writable
  have hstay : ∀ i < k, s'.Writable (ρ t) (dstva + i) ∧ s'.leaf (ρ t) (dstva + i) = s₁.leaf (ρ t) dstva := by
    intro i hi
    have hpage : (dstva + i) / 4096 = dstva / 4096 := by
      simp only [PGSIZE] at hk
      omega
    have hva' : dstva + i < MAXVA := by
      have hTr : TRAPFRAME + 4096 ≤ MAXVA := by decide
      have hT : TRAPFRAME % 4096 = 0 := by decide
      omega
    have e : s'.leaf (ρ t) (dstva + i) = s₁.leaf (ρ t) dstva := by
      rw [hrest.leaves t _ hva' (.inr ?_), hleaf₂, leaf_congr_page hpage]
      rw [hleaf₂, leaf_congr_page hpage]
      intro hz
      rw [hz] at hv
      cases hv
    exact ⟨⟨hva', by rw [e]; exact ⟨hv, hU, hW⟩⟩, e⟩
  have hput : (s₁.putPage pa dstva (src.take k)).logical ⟨ρ t, sz⟩ =
      m.putPage dstva (PTE_FLAGS (s₁.leaf (ρ t) dstva)) (s₁.mem (pa / PGSIZE)) (src.take k) := by
    have := (h₁.write hlow hv hU (Bytes.put (s₁.mem (pa / PGSIZE)) (dstva % PGSIZE) (src.take k))).logical
    rw [← hpa] at this
    exact this
  have hm : m (dstva / PGSIZE) = some (PTE_FLAGS (s₁.leaf (ρ t) dstva), s₁.mem (pa / PGSIZE)) := by
    have hu : userPa (s₁.leaf (ρ t) dstva) = pa := by rw [userPa, if_pos ⟨hv, hU⟩, hc, hpa]
    rw [(h₁.walkaddr hva (by rw [hu, hpa]; exact hne)).2, hu]
  refine ⟨fun t' va' hva' hor => ?_, fun n hfree htab hdiff => ?_, fun a ha => ?_, fun h0 i hi => ?_, fun hr => ?_⟩
  · have e := hheld.leaves t' va' hva' hor
    rw [hrest.leaves t' va' hva' (by rw [hleaf₂, e]; exact hor), hleaf₂, e]
  · by_cases hn : n = pa / 4096
    · obtain ⟨hw', e⟩ := hstay 0 (by omega)
      exact ⟨0, hpos, hw', by rw [e, hc, ← hpa]; omega⟩
    · have hsame : (s₁.putPage pa dstva (src.take k)).mem n = s.mem n :=
        (mem_setPage_of_ne hn).trans (hheld.mem n hfree htab)
      have htab' : NoTable ρ (s₁.putPage pa dstva (src.take k)) (n * 4096) := fun t' q hq => by
        rw [Vm.putPage, h₁.heap.node_setPage depth_userPages hal hnt _ (by omega)]
        rcases hg.tables t' q hq with e | e
        · rw [e]
          exact htab t' q hq
        · exact fun e' => hfree (e' ▸ e)
      obtain ⟨i, hi, hw', e⟩ := hrest.mem n (fun hin => hfree (hg.free.subset hin)) htab' (by rwa [hsame])
      rw [Nat.add_assoc] at hw' e
      exact ⟨k + i, by omega, hw', e⟩
  · rw [hrest.other a (by omega), hput, h.logical,
      LogicalMem.byte_putPage_of_disjoint hm (by rw [length_take]; omega)]
  · by_cases hik : i < k
    · refine ⟨(hstay i hik).1, ?_⟩
      have hi' : i < (src.take k).length := by
        rw [length_take]
        omega
      rw [hrest.other _ (.inl (by omega)), hput,
        LogicalMem.byte_putPage_of_mem hi' (by rw [length_take]; omega), getD_take hik]
    · obtain ⟨hw', hb⟩ := hrest.done h0 (i - k) (by omega)
      rw [show dstva + k + (i - k) = dstva + i by omega] at hw' hb
      exact ⟨hw', by rw [hb, getD_drop (by omega)]⟩
  · obtain ⟨rfl, i, hi, hno, s₂, hrun, hwhy⟩ := hrest.failed hr
    rw [Nat.add_assoc] at hno hwhy
    refine ⟨rfl, k + i, by omega, hno, s₂, ?_, hwhy⟩
    have hne' : src.take (k + i) ≠ [] := by
      rw [Ne, take_eq_nil_iff]
      rintro (e | e)
      · omega
      · exact hsrc e
    rw [hready.copyoutLoop (by omega) hne', ← hk, drop_take, take_take,
      Nat.min_eq_left (by omega), Nat.add_sub_cancel_left]
    exact hrun

/-! ## The loop -/

/-- `copyout` always ends, whatever the address, the length and the number of free pages. -/
theorem Sees.copyoutLoop (h : Sees ρ g F t trampoline trapframe sz m s) (hfuel : src.length ≤ fuel) :
    ∃ r s', copyoutLoop ⟨ρ t, sz⟩ (ρ t) fuel dstva src s = (.ok r, s') ∧
      Heap userPages ρ g F s' ∧ UserTable ρ t trampoline trapframe sz s' ∧
      CopiedOut ρ t sz fuel dstva src s r s' := by
  induction fuel generalizing s m dstva src with
  | zero =>
    obtain rfl : src = [] := eq_nil_of_length_eq_zero (by omega)
    exact ⟨0, s, rfl, h.heap, h.table, .nil ρ t sz 0 dstva s⟩
  | succ fuel ih =>
    by_cases hsrc : src = []
    · subst hsrc
      exact ⟨0, s, rfl, h.heap, h.table, .nil ρ t sz (fuel + 1) dstva s⟩
    have hdown := PGROUNDDOWN_le dstva
    have hleaf : ∀ s : Vm, s.leaf (ρ t) (PGROUNDDOWN dstva) = s.leaf (ρ t) dstva :=
      fun s => leaf_congr_page (PGROUNDDOWN_page dstva)
    have hstep := Xv6.copyoutLoop.eq_3 ⟨ρ t, sz⟩ (ρ t) dstva src fuel hsrc
    by_cases hbig : MAXVA ≤ PGROUNDDOWN dstva
    · refine ⟨-1, s, by rw [hstep, if_pos hbig]; rfl, h.heap, h.table, ?_⟩
      exact (Widens.refl ρ t s).copiedOut rfl hsrc (fun hw => absurd hw.1 (by omega)) (.inl (by omega))
    obtain ⟨pa, s₁, hrun, h₁, hheld, hpa, hg, hfault⟩ := h.userPage (PGROUNDDOWN_aligned dstva) (by omega)
    rw [hleaf] at hpa
    have hva : dstva < MAXVA := by
      have hM : MAXVA % 4096 = 0 := by decide
      have := PGROUNDDOWN_page dstva
      omega
    have hlog : s₁.logical ⟨ρ t, sz⟩ = s.logical ⟨ρ t, sz⟩ := h₁.logical.trans h.logical.symm
    by_cases hz : pa = 0
    · refine ⟨-1, s₁, by rw [hstep, if_neg hbig, bind_of_ok hrun, if_pos hz]; rfl, h₁.heap, h₁.table, ?_⟩
      exact hheld.copiedOut hlog hsrc (fun hw => h₁.userPa_ne_zero hw (hpa.symm.trans hz))
        (.inr (.inr (hfault hz)))
    obtain ⟨hv, hU, hc⟩ := Xv6.userPa_ne_zero (hpa ▸ hz)
    -- the page is mapped, so that the pointer of `walk` is not null
    have hwalk : wp (walk (ρ t) (PGROUNDDOWN dstva) false) (fun a s' => s' = s₁ ∧ a ≠ 0 ∧
        s₁.pte a = s₁.leaf (ρ t) dstva) (fun _ _ => False) s₁ := by
      refine wp_walk depth_userPages h₁.heap (by omega) h₁.table.root (fun hnull => ?_) fun hb => ?_
      · rw [← hleaf, Vm.leaf, hnull, ent_zero] at hv
        cases hv
      · refine ⟨rfl, by omega, ?_⟩
        rw [← hleaf]
        exact pte_eq_ent (h₁.heap.node_aligned depth_userPages) hb (PX_lt 0 _)
    obtain ⟨a, s₂, ewalk, rfl, ha, hpte⟩ := wp_total hwalk
    cases hW : has (s₂.leaf (ρ t) dstva) PTE_W with
    | false =>
      have hread : readPte a s₂ = (.ok (s₂.pte a), s₂) := rfl
      refine ⟨-1, s₂, ?_, h₁.heap, h₁.table, ?_⟩
      · rw [hstep, if_neg hbig, bind_of_ok hrun, if_neg hz, bind_of_ok ewalk, if_neg ha,
          bind_of_ok hread, hpte, hW]
        rfl
      · exact hheld.copiedOut hlog hsrc (fun hw => by have := hw.2.2.2; rw [hW] at this; cases this)
          (.inr (.inl ⟨hv, hU, hW⟩))
    | true =>
      have hready : PageReady ⟨ρ t, sz⟩ (ρ t) (PGROUNDDOWN dstva) s pa s₂ :=
        ⟨hrun, hz, a, ha, ewalk, by rw [hpte, hW]⟩
      have hput := h₁.write (h₁.table.lt_of_user hva hU) hv hU (Bytes.put (s₂.mem (pa / PGSIZE))
        (dstva % PGSIZE) (src.take (PGSIZE - dstva % PGSIZE)))
      rw [← hc, ← hpa] at hput
      have hpos : 0 < PGSIZE - dstva % PGSIZE := Nat.sub_pos_of_lt (mod_lt dstva (by decide))
      obtain ⟨r, s', erest, hheap, htab, hrest⟩ :=
        @ih _ _ (dstva + (PGSIZE - dstva % PGSIZE)) (src.drop (PGSIZE - dstva % PGSIZE)) hput
          (by rw [length_drop]; have := length_pos_iff.2 hsrc; omega)
      refine ⟨r, s', ?_, hheap, htab, ?_⟩
      · rw [hready.copyoutLoop (by omega) hsrc]
        exact erest
      · exact .cons h h₁ hheld (hg hz) hready hsrc ⟨hva, hv, hU, hW⟩ (hpa.trans hc) hrest

/-- `copyout` to the page table of a process, with any address and any bytes, always returns. A page that
has changed is a page that was free, a page-table page or a page mapped with V, U and W under the range;
the process sees other bytes in the range only; mappings of the process stay, and other page tables keep
theirs. The result is 0 if and only if the whole range is then mapped with V, U and W, and the range holds
the bytes of the source. Otherwise it is -1, the bytes before some address could be copied, and this
address is no user address, is mapped without W, or `vmfault` has failed for it. -/
theorem copyout_confined (h : Heap userPages ρ g F s) (hu : UserTable ρ t trampoline trapframe sz s)
    (dstva : ℕ) (src : List UInt8) :
    ∃ r s', copyout ⟨ρ t, sz⟩ (ρ t) dstva src s = (.ok r, s') ∧
      Heap userPages ρ g F s' ∧ UserTable ρ t trampoline trapframe sz s' ∧
      (∀ n, s'.mem n ≠ s.mem n → n * 4096 ∈ s.free ∨ ¬ NoTable ρ s (n * 4096) ∨
        ∃ i < src.length, s'.Writable (ρ t) (dstva + i) ∧
          PTE2PA (s'.leaf (ρ t) (dstva + i)) = n * 4096) ∧
      (∀ t' va, va < MAXVA → t' ≠ t ∨ s.leaf (ρ t') va ≠ 0 → s'.leaf (ρ t') va = s.leaf (ρ t') va) ∧
      (∀ a, a < dstva ∨ dstva + src.length ≤ a →
        (s'.logical ⟨ρ t, sz⟩).byte a = (s.logical ⟨ρ t, sz⟩).byte a) ∧
      (r = 0 ↔ ∀ i < src.length, s'.Writable (ρ t) (dstva + i)) ∧
      (r = 0 → ∀ i < src.length,
        (s'.logical ⟨ρ t, sz⟩).byte (dstva + i) = some (src.getD i 0).toNat) ∧
      (r ≠ 0 → r = -1 ∧ ∃ i < src.length, ∃ s'',
        copyoutLoop ⟨ρ t, sz⟩ (ρ t) src.length dstva (src.take i) s = (.ok 0, s'') ∧
          Refused ⟨ρ t, sz⟩ (ρ t) (dstva + i) s'' s') := by
  have hs : Sees ρ g F t trampoline trapframe sz (s.logical ⟨ρ t, sz⟩) s := ⟨h, hu, rfl⟩
  obtain ⟨r, s', e, h', hu', hd⟩ := @Sees.copyoutLoop _ _ _ _ _ _ _ _ _ _ _ dstva src.length src hs le_rfl
  refine ⟨r, s', e, h', hu', fun n hne => ?_, hd.leaves, hd.other, ⟨fun h0 i hi => (hd.done h0 i hi).1, fun hall => ?_⟩,
    fun h0 i hi => (hd.done h0 i hi).2, fun hr => ?_⟩
  · by_contra hno
    push Not at hno
    obtain ⟨i, hi, hw, e⟩ := hd.mem n hno.1 hno.2.1 hne
    exact hno.2.2 i hi hw e
  · by_contra hr
    obtain ⟨-, i, hi, hno, -⟩ := hd.failed hr
    exact hno (hall i hi)
  · obtain ⟨hr', i, hi, -, s'', hrun, hwhy⟩ := hd.failed hr
    exact ⟨hr', i, hi, s'', hrun, hwhy⟩

/-- A byte is written to a page that is not allocated yet. -/
theorem copyout_confined_lazyPage :
    ∃ s', copyout ((grownPage 0 2).user 0) ((grownPage 0 2).user 0).pagetable 8 [7] (grownPage 0 2).vm =
        (.ok 0, s') ∧ (s'.logical ((grownPage 0 2).user 0)).byte 8 = some 7 ∧
      (s'.logical ((grownPage 0 2).user 0)).byte 9 = ((grownPage 0 2).vm.logical ((grownPage 0 2).user 0)).byte 9 := by
  have hi := fourteenPages_booted.run lazyPage_run
  have hu := (hi.inUse (Space.live_of_state (p := 0) (x := .used) rfl (by decide)).1).2.2
  obtain ⟨r, s', e, -, -, -, -, hother, -, hdone, -⟩ := copyout_confined hi.heap hu 8 [7]
  have h0 : (copyout ((grownPage 0 2).user 0) ((grownPage 0 2).user 0).pagetable 8 [7] (grownPage 0 2).vm).1 =
      .ok 0 := by rfl
  obtain rfl : r = 0 := by
    have e' := congrArg Prod.fst e
    exact Except.ok.inj (e'.symm.trans h0)
  exact ⟨s', e, hdone rfl 0 (by decide), hother 9 (.inr (by decide))⟩

end Pass

end Xv6
