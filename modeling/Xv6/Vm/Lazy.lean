import Xv6.Vm.Pages

/-!
# Lazy allocation and the kernel

A page below the size of a process that is not mapped stands for a page of zeros; the first access maps
it. The logical memory of a process is what it looks like with this in mind (`Vm.logical`). `copyin` and
`copyout` read and write the logical memory (`wp_copyinLoop_logical`, `wp_copyoutLoop_logical`), so they
cannot tell which pages are mapped. `copyinstr` can: it does not call `vmfault`.
-/

namespace Xv6

open Function Prog List Vm Nat Bytes

variable {dst : List UInt8} {E : VmPanic → Vm → Prop}

/-- The flags and the contents of every page that the user may access. -/
abbrev LogicalMem := ℕ → Option (ℕ × Page)

/-- The flags of a page that `vmfault` maps. -/
abbrev lazyFlags : ℕ := PTE_V ||| PTE_R ||| PTE_W ||| PTE_U

/-- The logical memory of the process `p`, by page numbers. -/
def Vm.logical (s : Vm) (p : UserMem) : LogicalMem := fun n =>
  if MAXVA ≤ n * PGSIZE then none
  else if has (s.leaf p.pagetable (n * PGSIZE)) PTE_V then
    if has (s.leaf p.pagetable (n * PGSIZE)) PTE_U then
      some (PTE_FLAGS (s.leaf p.pagetable (n * PGSIZE)), s.mem (PTE2PA (s.leaf p.pagetable (n * PGSIZE)) / PGSIZE))
    else none
  else if n * PGSIZE < p.sz then some (lazyFlags, Bytes.zero)
  else none

/-- The next page, and the offset in the page. -/
theorem PGROUNDDOWN_add (va : ℕ) : PGROUNDDOWN va + PGSIZE = va + (PGSIZE - va % PGSIZE) ∧
    va - PGROUNDDOWN va = va % PGSIZE := by
  simp only [PGROUNDDOWN, PGSIZE]
  omega

namespace LogicalMem

/-- `copyin` from the logical memory. -/
def copyin (m : LogicalMem) : ℕ → ℕ → ℕ → List UInt8 → ℤ × List UInt8
  | _, _, 0, dst => (0, dst)
  | 0, _, _ + 1, dst => (-1, dst)
  | fuel + 1, srcva, len, dst =>
    match m (srcva / PGSIZE) with
    | none => (-1, dst)
    | some (_, d) =>
      let n := min (PGSIZE - (srcva - PGROUNDDOWN srcva)) len
      copyin m fuel ((PGROUNDDOWN srcva + PGSIZE) % 2 ^ 64) (len - n)
        (dst ++ Bytes.slice d (srcva - PGROUNDDOWN srcva) n)

/-- `copyout` to the logical memory. -/
def copyout (m : LogicalMem) : ℕ → ℕ → List UInt8 → ℤ × LogicalMem
  | _, _, [] => (0, m)
  | 0, _, _ :: _ => (-1, m)
  | fuel + 1, dstva, src =>
    match m (dstva / PGSIZE) with
    | none => (-1, m)
    | some (flags, d) =>
      if !has flags PTE_W then (-1, m)
      else
        let n := min (PGSIZE - (dstva - PGROUNDDOWN dstva)) src.length
        copyout (update m (dstva / PGSIZE)
            (some (flags, Bytes.put d (dstva - PGROUNDDOWN dstva) (src.take n))))
          fuel ((PGROUNDDOWN dstva + PGSIZE) % 2 ^ 64) (src.drop n)

/-- `copyinstr` from the logical memory, of which the pages `A` are allocated. -/
def copyinstr (m : LogicalMem) (A : ℕ → Bool) : ℕ → ℕ → ℕ → List UInt8 → ℤ × List UInt8
  | _, _, 0, dst => (-1, dst)
  | 0, _, _ + 1, dst => (-1, dst)
  | fuel + 1, srcva, max, dst =>
    match m (srcva / PGSIZE) with
    | none => (-1, dst)
    | some (_, d) =>
      if !A (srcva / PGSIZE) then (-1, dst)
      else
        let n := min (PGSIZE - (srcva - PGROUNDDOWN srcva)) max
        let bytes := Bytes.slice d (srcva - PGROUNDDOWN srcva) n
        if bytes.contains 0 then (0, dst ++ bytes.takeWhile (· != 0) ++ [0])
        else copyinstr m A fuel ((PGROUNDDOWN srcva + PGSIZE) % 2 ^ 64) (max - n) (dst ++ bytes)

/-- The byte at an address. -/
def byte (m : LogicalMem) (va : ℕ) : Option ℕ :=
  (m (va / PGSIZE)).map fun x => Bytes.rd8 x.2 (va % PGSIZE)

theorem copyin_succ (m : LogicalMem) {fuel srcva len : ℕ} (hlen : 0 < len) :
    m.copyin (fuel + 1) srcva len dst = match m (srcva / PGSIZE) with
      | none => (-1, dst)
      | some (_, d) => m.copyin fuel ((PGROUNDDOWN srcva + PGSIZE) % 2 ^ 64)
          (len - min (PGSIZE - (srcva - PGROUNDDOWN srcva)) len)
          (dst ++ slice d (srcva - PGROUNDDOWN srcva)
            (min (PGSIZE - (srcva - PGROUNDDOWN srcva)) len)) := by
  obtain ⟨l, rfl⟩ := exists_eq_succ_of_ne_zero hlen.ne'
  rfl

theorem copyinstr_succ (m : LogicalMem) (A : ℕ → Bool) {fuel srcva max : ℕ}
    (hmax : 0 < max) : m.copyinstr A (fuel + 1) srcva max dst = match m (srcva / PGSIZE) with
      | none => (-1, dst)
      | some (_, d) =>
        if !A (srcva / PGSIZE) then (-1, dst)
        else
          let n := min (PGSIZE - (srcva - PGROUNDDOWN srcva)) max
          let bytes := slice d (srcva - PGROUNDDOWN srcva) n
          if bytes.contains 0 then (0, dst ++ bytes.takeWhile (· != 0) ++ [0])
          else m.copyinstr A fuel ((PGROUNDDOWN srcva + PGSIZE) % 2 ^ 64) (max - n) (dst ++ bytes) := by
  obtain ⟨l, rfl⟩ := exists_eq_succ_of_ne_zero hmax.ne'
  rfl

/-- The string at `srcva` reaches its byte `k`: the bytes before it are there and are not zero. -/
def Reaches (m : LogicalMem) (srcva k : ℕ) : Prop := ∀ j < k, ∃ b, m.byte (srcva + j) = some b ∧ b ≠ 0

variable {m : LogicalMem} {A B : ℕ → Bool} {fuel srcva max n k : ℕ} {flags : ℕ} {d : Page}

theorem Reaches.append (h : m.Reaches srcva n) (h' : m.Reaches (srcva + n) k) :
    m.Reaches srcva (n + k) := by
  intro j hj
  by_cases hn : j < n
  · exact h j hn
  · have := h' (j - n) (by omega)
    rwa [show srcva + n + (j - n) = srcva + j by omega] at this

theorem Reaches.drop (h : m.Reaches srcva k) (hn : n ≤ k) : m.Reaches (srcva + n) (k - n) := by
  intro j hj
  rw [Nat.add_assoc]
  exact h (n + j) (by omega)

theorem Reaches.byte_ne (h : m.Reaches srcva k) (hn : n < k) : m.byte (srcva + n) ≠ some 0 := by
  intro hz
  obtain ⟨b, hb, hne⟩ := h n hn
  rw [hz] at hb
  exact hne (Option.some.inj hb).symm

/-- A string has one end. -/
theorem Reaches.eq (h : m.Reaches srcva n) (h' : m.Reaches srcva k) (hn : m.byte (srcva + n) = some 0)
    (hk : m.byte (srcva + k) = some 0) : n = k := by
  rcases Nat.lt_trichotomy n k with hlt | rfl | hlt
  · exact absurd hn (h'.byte_ne hlt)
  · rfl
  · exact absurd hk (h.byte_ne hlt)

/-- A string of less than `max` bytes starts at `srcva`, on pages in `A`. -/
def StringAt (m : LogicalMem) (A : ℕ → Bool) (srcva max : ℕ) : Prop :=
  ∃ k < max, m.Reaches srcva k ∧ m.byte (srcva + k) = some 0 ∧ ∀ j ≤ k, A ((srcva + j) / PGSIZE) = true

theorem stringAt_add (h : m.Reaches srcva n) (hA : ∀ j < n, A ((srcva + j) / PGSIZE) = true) :
    m.StringAt A (srcva + n) (max - n) ↔ m.StringAt A srcva max := by
  constructor
  · rintro ⟨k, hk, hreach, hz, hall⟩
    rw [Nat.add_assoc] at hz
    refine ⟨n + k, by omega, h.append hreach, hz, fun j hj => ?_⟩
    by_cases hjn : j < n
    · exact hA j hjn
    · have := hall (j - n) (by omega)
      rwa [show srcva + n + (j - n) = srcva + j by omega] at this
  · rintro ⟨k, hk, hreach, hz, hall⟩
    have hge : n ≤ k := Nat.le_of_not_lt fun hlt => h.byte_ne hlt hz
    refine ⟨k - n, by omega, hreach.drop hge, ?_, fun j hj => ?_⟩
    · rwa [Nat.add_assoc, Nat.add_sub_cancel' hge]
    · rw [Nat.add_assoc]
      exact hall _ (by omega)

theorem byte_add (hpage : m (srcva / PGSIZE) = some (flags, d)) (hk : k < PGSIZE - srcva % PGSIZE) :
    m.byte (srcva + k) = some (rd8 d (srcva % PGSIZE + k)) := by
  have hdiv : (srcva + k) / PGSIZE = srcva / PGSIZE := by
    simp only [PGSIZE] at hk ⊢
    omega
  have hmod : (srcva + k) % PGSIZE = srcva % PGSIZE + k := by
    simp only [PGSIZE] at hk ⊢
    omega
  rw [byte, hdiv, hpage, hmod]
  rfl

/-- A part of a page without zeros is passed. -/
theorem reaches_of_slice (hpage : m (srcva / PGSIZE) = some (flags, d)) (hn : n ≤ PGSIZE - srcva % PGSIZE)
    (hzero : ¬ (slice d (srcva % PGSIZE) n).contains 0 = true) : m.Reaches srcva n := by
  intro j hj
  refine ⟨_, byte_add hpage (by omega), fun hz => hzero (contains_iff_mem.2 ?_)⟩
  exact zero_mem_slice.2 ⟨j, hj, hz⟩

/-- The result does not depend on pages that the string does not reach. -/
theorem copyinstr_congr (hm : ∀ n, m n ≠ none → n * PGSIZE < MAXVA)
    (h : ∀ k < max, m.Reaches srcva k →
      m ((srcva + k) / PGSIZE) ≠ none → A ((srcva + k) / PGSIZE) = B ((srcva + k) / PGSIZE)) :
    m.copyinstr A fuel srcva max dst = m.copyinstr B fuel srcva max dst := by
  have hM : MAXVA + PGSIZE < 2 ^ 64 := by decide
  induction fuel generalizing srcva max dst with
  | zero => cases max <;> rfl
  | succ fuel ih =>
    cases max with
    | zero => rfl
    | succ max =>
      rw [m.copyinstr_succ A (succ_pos max), m.copyinstr_succ B (succ_pos max)]
      cases hpage : m (srcva / PGSIZE) with
      | none => rfl
      | some x =>
        obtain ⟨flags, d⟩ := x
        have hn := hm (srcva / PGSIZE) (by rw [hpage]; nofun)
        have hA := h 0 (succ_pos max) (fun j hj => by omega) (by rw [Nat.add_zero, hpage]; nofun)
        rw [Nat.add_zero] at hA
        have hlt : PGROUNDDOWN srcva + PGSIZE < 2 ^ 64 := (Nat.add_lt_add_right hn _).trans hM
        have hdown := PGROUNDDOWN_add srcva
        simp only [hA, hdown.2]
        split
        · rfl
        · split
          · rfl
          · rename_i hzero
            rw [mod_eq_of_lt hlt, hdown.1]
            refine ih fun k hk hreach hne => ?_
            have hfirst := reaches_of_slice hpage (Nat.min_le_left _ _) hzero
            rw [Nat.min_eq_left (by omega)] at hfirst
            rw [Nat.add_assoc] at hne ⊢
            exact h _ (by omega) (hfirst.append hreach) hne

/-- `copyinstr` succeeds when it comes to a zero byte and all pages up to it are allocated. -/
theorem copyinstr_eq_zero_iff (hm : ∀ n, m n ≠ none → n * PGSIZE < MAXVA) (hfuel : max ≤ fuel) :
    (m.copyinstr A fuel srcva max dst).1 = 0 ↔ m.StringAt A srcva max := by
  have hM : MAXVA + PGSIZE < 2 ^ 64 := by decide
  induction fuel generalizing srcva max dst with
  | zero =>
    obtain rfl : max = 0 := by omega
    exact ⟨(fun h => by cases h), fun ⟨k, hk, _⟩ => by omega⟩
  | succ fuel ih =>
    cases max with
    | zero => exact ⟨(fun h => by cases h), fun ⟨k, hk, _⟩ => by omega⟩
    | succ max =>
      rw [m.copyinstr_succ A (succ_pos max)]
      cases hpage : m (srcva / PGSIZE) with
      | none =>
        refine ⟨(fun h => by cases h), fun ⟨k, _, hreach, hzero, _⟩ => ?_⟩
        -- the first byte is not there
        have hnone : m.byte srcva = none := by rw [byte, hpage]; rfl
        cases k with
        | zero => rw [Nat.add_zero, hnone] at hzero; cases hzero
        | succ k =>
          obtain ⟨b, hb, -⟩ := hreach 0 (succ_pos k)
          rw [Nat.add_zero, hnone] at hb
          cases hb
      | some x =>
        obtain ⟨flags, d⟩ := x
        have hn := hm (srcva / PGSIZE) (by rw [hpage]; nofun)
        have hlt : PGROUNDDOWN srcva + PGSIZE < 2 ^ 64 := (Nat.add_lt_add_right hn _).trans hM
        have hdown := PGROUNDDOWN_add srcva
        simp only [hdown.2]
        cases hA : A (srcva / PGSIZE) with
        | false =>
          refine ⟨(fun h => by cases h), fun ⟨k, _, _, _, hall⟩ => ?_⟩
          have := hall 0 (Nat.zero_le k)
          rw [Nat.add_zero, hA] at this
          cases this
        | true =>
          have hsame : ∀ j < PGSIZE - srcva % PGSIZE, A ((srcva + j) / PGSIZE) = true := by
            intro j hj
            rw [show (srcva + j) / PGSIZE = srcva / PGSIZE by simp only [PGSIZE] at hj ⊢; omega, hA]
          rw [if_neg (by simp)]
          split
          · -- the first zero of this page is the end of the string
            rename_i hzero
            refine ⟨fun _ => ?_, fun _ => rfl⟩
            obtain ⟨j, hj, hz⟩ := zero_mem_slice.1 (contains_iff_mem.1 hzero)
            have hex : ∃ j, j < min (PGSIZE - srcva % PGSIZE) (max + 1) ∧
                rd8 d (srcva % PGSIZE + j) = 0 := ⟨j, hj, hz⟩
            classical
            obtain ⟨hlow, hfind⟩ := Nat.find_spec hex
            refine ⟨Nat.find hex, by omega, fun i hi => ?_, ?_, fun i hi => hsame i (by omega)⟩
            · exact ⟨_, byte_add hpage (by omega), fun h => Nat.find_min hex hi ⟨by omega, h⟩⟩
            · rw [byte_add hpage (by omega), hfind]
          · rename_i hzero
            have hfirst := reaches_of_slice hpage (Nat.min_le_left _ _) hzero
            by_cases hend : max + 1 ≤ PGSIZE - srcva % PGSIZE
            · rw [Nat.min_eq_right hend, Nat.sub_self] at *
              refine ⟨fun h => ?_, fun ⟨k, hk, _, hz, _⟩ => absurd hz (hfirst.byte_ne hk)⟩
              cases fuel <;> cases h
            · have hpos : srcva % PGSIZE < PGSIZE := mod_lt _ (by decide)
              rw [Nat.min_eq_left (by omega)] at *
              rw [mod_eq_of_lt hlt, hdown.1]
              exact (ih (by omega)).trans (stringAt_add hfirst hsame)

end LogicalMem

variable {ι X : Type} {ρ : ι → ℕ} {g : X → ℕ} {F : Set ℕ} {s s' : Vm} {t : ι} {va sz : ℕ}
  {trampoline trapframe : ℕ} {m : LogicalMem}

/-- The process with the page table `t` and the size `sz` sees the memory `m`. -/
structure Sees (ρ : ι → ℕ) (g : X → ℕ) (F : Set ℕ) (t : ι) (trampoline trapframe sz : ℕ)
    (m : LogicalMem) (s : Vm) : Prop where
  heap : Heap userPages ρ g F s
  table : UserTable ρ t trampoline trapframe sz s
  logical : s.logical ⟨ρ t, sz⟩ = m

/-! ## Pages of the logical memory -/

theorem UserTable.lt_of_user (hu : UserTable ρ t trampoline trapframe sz s) (hva : va < MAXVA)
    (hU : has (s.leaf (ρ t) va) PTE_U = true) : va < TRAPFRAME := by
  by_contra hge
  rw [hu.not_user (by omega) hva] at hU
  cases hU

theorem Heap.child_user (h : Heap userPages ρ g F s) (hu : UserTable ρ t trampoline trapframe sz s)
    (hva : va < TRAPFRAME) (hv : has (s.leaf (ρ t) va) PTE_V = true) :
    PTE2PA (s.leaf (ρ t) va) = child (s.leaf (ρ t) va) ∧ child (s.leaf (ρ t) va) ≠ 0 ∧
      child (s.leaf (ρ t) va) ∉ s.free := by
  have hc : PTE2PA (s.leaf (ρ t) va) = child (s.leaf (ρ t) va) := by rw [child, if_pos hv]
  have hne : child (s.leaf (ρ t) va) ≠ 0 := by
    rcases hu.leaves va hva with e | e
    · rw [e] at hv
      cases hv
    · exact e.2
  refine ⟨hc, hne, ?_⟩
  have hr : refs userPages ρ g s (.inl (t, place va)) = child (s.leaf (ρ t) va) :=
    Heap.refs_place (userPages_place hva)
  have := h.ledger.used_of_ref (p := .inl (t, place va)) (by rwa [hr])
  rwa [hr] at this

variable {pa : ℕ} {p : UserMem} {n : ℕ}

theorem logical_of_ge (hn : MAXVA ≤ n * PGSIZE) : s.logical p n = none :=
  if_pos hn

theorem lt_of_logical (h : s.logical p n ≠ none) : n * PGSIZE < MAXVA := by
  by_contra hge
  exact h (logical_of_ge (by omega))

theorem logical_of_user (hn : n * PGSIZE < MAXVA)
    (hv : has (s.leaf p.pagetable (n * PGSIZE)) PTE_V = true)
    (hU : has (s.leaf p.pagetable (n * PGSIZE)) PTE_U = true) :
    s.logical p n = some (PTE_FLAGS (s.leaf p.pagetable (n * PGSIZE)),
      s.mem (PTE2PA (s.leaf p.pagetable (n * PGSIZE)) / PGSIZE)) := by
  rw [Vm.logical, if_neg (by omega), if_pos hv, if_pos hU]

theorem logical_of_not_valid (hn : n * PGSIZE < MAXVA)
    (hv : has (s.leaf p.pagetable (n * PGSIZE)) PTE_V = false) :
    s.logical p n = if n * PGSIZE < p.sz then some (lazyFlags, Bytes.zero) else none := by
  rw [Vm.logical, if_neg (by omega), hv, if_neg Bool.false_ne_true]

/-- A page of the logical memory is the same when its leaf and the contents it leads to are. -/
theorem Sees.logical_eq (h : Sees ρ g F t trampoline trapframe sz m s)
    (hl : n * PGSIZE < MAXVA → s'.leaf (ρ t) (n * PGSIZE) = s.leaf (ρ t) (n * PGSIZE))
    (hm : n * PGSIZE < TRAPFRAME → has (s.leaf (ρ t) (n * PGSIZE)) PTE_V = true →
      s'.mem (child (s.leaf (ρ t) (n * PGSIZE)) / PGSIZE) =
        s.mem (child (s.leaf (ρ t) (n * PGSIZE)) / PGSIZE)) :
    s'.logical ⟨ρ t, sz⟩ n = m n := by
  rw [← h.logical]
  by_cases hn : MAXVA ≤ n * PGSIZE
  · rw [logical_of_ge hn, logical_of_ge hn]
  have hn' : n * PGSIZE < MAXVA := by omega
  have hl' := hl hn'
  cases hv : has (s.leaf (ρ t) (n * PGSIZE)) PTE_V with
  | false => simp [Vm.logical, hl', hv]
  | true =>
    cases hU : has (s.leaf (ρ t) (n * PGSIZE)) PTE_U with
    | false => simp [Vm.logical, hl', hv, hU]
    | true =>
      have hlow := h.table.lt_of_user hn' hU
      simp only [Vm.logical, hl', hv, hU, (h.heap.child_user h.table hlow hv).1, hm hlow hv]

/-- The same, when only page-table pages and free pages have changed. -/
theorem Sees.logical_kept (h : Sees ρ g F t trampoline trapframe sz m s)
    (hl : n * PGSIZE < MAXVA → s'.leaf (ρ t) (n * PGSIZE) = s.leaf (ρ t) (n * PGSIZE))
    (hm : ∀ n, n * 4096 ∉ s.free → NoTable ρ s (n * 4096) → s'.mem n = s.mem n) :
    s'.logical ⟨ρ t, sz⟩ n = m n := by
  refine h.logical_eq hl fun hlow hv => ?_
  obtain ⟨-, hne, hfree⟩ := h.heap.child_user h.table hlow hv
  have hmul : child (s.leaf (ρ t) (n * PGSIZE)) / PGSIZE * 4096 = child (s.leaf (ρ t) (n * PGSIZE)) :=
    Nat.div_mul_cancel (dvd_of_mod_eq_zero (child_aligned _))
  exact hm _ (by rwa [hmul]) (by rw [hmul]; exact h.heap.noTable_leaf hlow hne)

/-- `vmfault` does not change the logical memory. -/
theorem Sees.fault (h : Sees ρ g F t trampoline trapframe sz m s) (hlt : va < sz)
    (hal : va % 4096 = 0) (hzero : s.leaf (ρ t) va = 0) (hpa : pa ∈ s.free)
    (h' : Heap userPages ρ g F s') (hg : Grows ρ s s')
    (hs : Sets ρ t va (leafEntry pa (PTE_W ||| PTE_U ||| PTE_R)) s s')
    (hmem : s'.mem (pa / 4096) = Bytes.zero) : Sees ρ g F t trampoline trapframe sz m s' := by
  have hTM : TRAPFRAME < MAXVA := by decide
  have hfr := h.heap.free pa hpa
  refine ⟨h', h.table.sets h.heap.kend hfr (by decide) hlt hs, ?_⟩
  funext n
  have hpage : n * PGSIZE / 4096 = n := Nat.mul_div_cancel n (by decide)
  by_cases e : n = va / 4096
  · -- the page was not mapped, and is a page of zeros now
    have hva : n * PGSIZE = va := by
      simp only [PGSIZE]
      omega
    have hn' : n * PGSIZE < MAXVA := by
      have := h.table.size
      omega
    have hleaf : s'.leaf (ρ t) va = leafEntry pa (PTE_W ||| PTE_U ||| PTE_R) := by
      rw [hs t va (by omega), if_pos ⟨rfl, rfl⟩]
    have hold : s.logical ⟨ρ t, sz⟩ n = some (lazyFlags, Bytes.zero) := by
      rw [logical_of_not_valid (p := ⟨ρ t, sz⟩) hn' (by rw [hva, hzero]; rfl), if_pos (by rw [hva]; exact hlt)]
    rw [← h.logical, hold, logical_of_user (p := ⟨ρ t, sz⟩) hn' (by rw [hva, hleaf]; exact has_leafEntry)
      (by rw [hva, hleaf, has_flag_leafEntry (by decide) (by decide)]; decide), hva, hleaf,
      PTE_FLAGS_leafEntry (by decide), PTE2PA_leafEntry (hfr.2.2.trans (by decide)) (by decide)]
    rw [show pa / 4096 * 4096 / PGSIZE = pa / 4096 from Nat.mul_div_cancel _ (by decide), hmem]
    rfl
  · refine h.logical_kept (fun hn' => ?_) hg.keeps
    rw [hs t _ hn', if_neg fun h => e (by rw [← h.2, hpage])]

/-- A page that the user may access is written. -/
theorem Sees.write (h : Sees ρ g F t trampoline trapframe sz m s) (hva : va < TRAPFRAME)
    (hv : has (s.leaf (ρ t) va) PTE_V = true) (hU : has (s.leaf (ρ t) va) PTE_U = true) (d : Page) :
    Sees ρ g F t trampoline trapframe sz
      (update m (va / 4096) (some (PTE_FLAGS (s.leaf (ρ t) va), d)))
      (s.setPage (child (s.leaf (ρ t) va)) d) := by
  have hTM : TRAPFRAME < MAXVA := by decide
  obtain ⟨hc, hne, hfree⟩ := h.heap.child_user h.table hva hv
  have hnt := h.heap.noTable_leaf hva hne
  have hal := child_aligned (s.leaf (ρ t) va)
  have hl : ∀ va', (s.setPage (child (s.leaf (ρ t) va)) d).leaf (ρ t) va' = s.leaf (ρ t) va' :=
    fun va' => h.heap.leaf_setPage depth_userPages hal hnt d va'
  refine ⟨h.heap.fill depth_userPages hal hnt d, h.table.congr rfl fun va' _ => hl va', ?_⟩
  funext n
  have hpage : n * PGSIZE / 4096 = n := Nat.mul_div_cancel n (by decide)
  by_cases e : n = va / 4096
  · have hva' : n * PGSIZE / 4096 = va / 4096 := by rw [hpage, e]
    have hleaf : s.leaf (ρ t) (n * PGSIZE) = s.leaf (ρ t) va := leaf_congr_page hva'
    have hn : n * PGSIZE < MAXVA := by
      simp only [PGSIZE]
      omega
    rw [e, update_self, ← e, logical_of_user (p := ⟨ρ t, sz⟩) hn (by rw [hl, hleaf]; exact hv)
      (by rw [hl, hleaf]; exact hU), hl, hleaf, hc]
    exact congrArg (fun d => some (_, d)) (update_self _ _ _)
  · rw [update_of_ne e]
    refine h.logical_eq (fun _ => hl _) fun hlow hv' => ?_
    -- another address leads to another page
    obtain ⟨-, hne', -⟩ := h.heap.child_user h.table hlow hv'
    have hdiff : child (s.leaf (ρ t) (n * PGSIZE)) ≠ child (s.leaf (ρ t) va) := fun hsame => by
      have hr : ∀ va < TRAPFRAME, refs userPages ρ g s (.inl (t, place va)) =
          child (s.leaf (ρ t) va) := fun va hva => Heap.refs_place (userPages_place hva)
      have := h.heap.ledger.inj (.inl (t, place (n * PGSIZE))) (.inl (t, place va))
        (by rw [hr _ hlow, hr _ hva, hsame]) (by rwa [hr _ hlow])
      simp only [Sum.inl.injEq, Prod.mk.injEq, true_and] at this
      have := place_inj (by omega) (by omega) this
      exact e (by rw [← this, hpage])
    have hal' := child_aligned (s.leaf (ρ t) (n * PGSIZE))
    rw [mem_setPage_of_ne]
    simp only [PGSIZE] at hal' hdiff ⊢
    omega

/-! ## Access to one page -/

/-- `walkaddr` finds the page that the logical memory has, if it is mapped. -/
theorem Sees.walkaddr (h : Sees ρ g F t trampoline trapframe sz m s) (hva : va < MAXVA)
    (hne : userPa (s.leaf (ρ t) va) ≠ 0) :
    va < TRAPFRAME ∧ m (va / PGSIZE) = some (PTE_FLAGS (s.leaf (ρ t) va),
      s.mem (userPa (s.leaf (ρ t) va) / PGSIZE)) := by
  obtain ⟨hv, hU, hc⟩ := userPa_ne_zero hne
  have hlow := h.table.lt_of_user hva hU
  have hleaf : s.leaf (ρ t) (va / PGSIZE * PGSIZE) = s.leaf (ρ t) va :=
    leaf_congr_page (by simp only [PGSIZE]; omega)
  have hle : va / PGSIZE * PGSIZE ≤ va := div_mul_le_self va PGSIZE
  refine ⟨hlow, ?_⟩
  rw [← h.logical, logical_of_user (p := ⟨ρ t, sz⟩) (by omega) (by rw [hleaf]; exact hv) (by rw [hleaf]; exact hU),
    hleaf, hc, (h.heap.child_user h.table hlow hv).1]

/-- The page that `vmfault` maps. -/
theorem userPa_fault {kend pa : ℕ} (h : pa ∈ frames kend) :
    userPa (leafEntry pa (PTE_W ||| PTE_U ||| PTE_R)) = pa := by
  have hU : has (leafEntry pa (PTE_W ||| PTE_U ||| PTE_R)) PTE_U = true := by
    rw [has_flag_leafEntry (by decide) (by decide)]
    decide
  rw [userPa, if_pos ⟨has_leafEntry, hU⟩, PTE2PA_leafEntry (h.2.2.trans (by decide)) (by decide),
    Nat.div_mul_cancel (dvd_of_mod_eq_zero h.1)]

/-- The result `pa` of the lookup of `va`: the logical memory has no page there, or the page is mapped now. -/
def Found (ρ : ι → ℕ) (t : ι) (m : LogicalMem) (va pa : ℕ) (s : Vm) : Prop :=
  m (va / PGSIZE) = none ∧ pa = 0 ∨ ∃ d,
    m (va / PGSIZE) = some (PTE_FLAGS (s.leaf (ρ t) va), d) ∧ pa ≠ 0 ∧ va < TRAPFRAME ∧
      has (s.leaf (ρ t) va) PTE_V = true ∧ has (s.leaf (ρ t) va) PTE_U = true ∧
      pa = child (s.leaf (ρ t) va) ∧ s.mem (pa / PGSIZE) = d

theorem Sees.found (h : Sees ρ g F t trampoline trapframe sz m s) (hva : va < MAXVA) (hne : pa ≠ 0)
    (e : pa = userPa (s.leaf (ρ t) va)) : Found ρ t m va pa s := by
  have hne' : userPa (s.leaf (ρ t) va) ≠ 0 := e ▸ hne
  obtain ⟨hv, hU, hc⟩ := userPa_ne_zero hne'
  obtain ⟨hlow, hm⟩ := h.walkaddr hva hne'
  exact .inr ⟨_, hm, hne, hlow, hv, hU, e.trans hc, by rw [e]⟩

/-- `copyin` and `copyout` find the page that the logical memory has. -/
theorem wp_userPage_logical {k : ℕ} (hal : va % 4096 = 0)
    (h : Sees ρ g F t trampoline trapframe sz m s) (hk : Plenty (k + 3) s) :
    wp (userPage ⟨ρ t, sz⟩ (ρ t) va) (fun pa s' => Sees ρ g F t trampoline trapframe sz m s' ∧
      Plenty k s' ∧ Found ρ t m va pa s') E s := by
  have hTM : TRAPFRAME < MAXVA := by decide
  have hsz := h.table.size
  have hpage : va / PGSIZE * PGSIZE = va := by
    simp only [PGSIZE]
    omega
  have hk' : Plenty k s := hk.mono (by omega)
  -- without a mapping there is a page below the size only
  have hfault : (va < MAXVA → has (s.leaf (ρ t) va) PTE_V = true → has (s.leaf (ρ t) va) PTE_U = false) →
      wp (vmfault ⟨ρ t, sz⟩ (ρ t) va) (fun pa s' => Sees ρ g F t trampoline trapframe sz m s' ∧
        Plenty k s' ∧ Found ρ t m va pa s') E s := by
    intro hUV
    refine wp_vmfault h.heap h.table.root rfl hsz h.table.leaves (fun hbad => ?_)
      (fun _ _ hno => absurd (hk.supply (by have := gap_le s (ρ t) va; omega)) hno)
      fun pa s' hlt hzero hpa h' hg _ hs hmem hfed => ?_
    · refine ⟨h, hk', .inl ⟨?_, rfl⟩⟩
      rw [← h.logical, Vm.logical]
      simp only [hpage]
      split
      · rfl
      · cases hv : has (s.leaf (ρ t) va) PTE_V with
        | true => rw [if_pos rfl, hUV (by omega) hv, if_neg Bool.false_ne_true]
        | false =>
          rw [if_neg Bool.false_ne_true, if_neg]
          have : sz ≤ va := hbad.resolve_right fun e => by rw [hv] at e; cases e
          show ¬ va < sz
          omega
    · have hS := h.fault hlt hal hzero hpa h' hg hs hmem
      have hfr := h.heap.free pa hpa
      have hlt' : va < sz := hlt
      refine ⟨hS, hfed.spent.plenty hk (by have := gap_le s (ρ t) va; omega),
        hS.found (by omega) (h.heap.ne_zero hfr) ?_⟩
      rw [hs t va (by omega), if_pos ⟨rfl, rfl⟩, userPa_fault hfr]
  rw [userPage, wp_bind]
  refine wp_walkaddr h.heap h.table.root (fun hge => ?_) fun hlt => ?_
  · rw [if_pos rfl]
    exact hfault fun hlt => absurd hge (by omega)
  · rw [wp_ite]
    split
    · rename_i hz
      refine hfault fun _ hv => ?_
      by_contra hU
      rw [Bool.not_eq_false] at hU
      obtain ⟨hc, hne, -⟩ := h.heap.child_user h.table (h.table.lt_of_user hlt hU) hv
      rw [userPa, if_pos ⟨hv, hU⟩, hc] at hz
      exact hne hz
    · exact ⟨h, hk', h.found hlt ‹_› rfl⟩

/-! ## The loops -/

/-- The number of pages that `len` bytes from `va` on lie in. -/
def spanned (va len : ℕ) : ℕ := (va % 4096 + len + 4095) / 4096

theorem spanned_le (va len : ℕ) : spanned va len ≤ len / PGSIZE + 2 := by
  simp only [spanned, PGSIZE]
  omega

/-- What is left after the first page. -/
theorem spanned_next (va len : ℕ) (hlen : 0 < len) (hva : va < MAXVA) :
    3 * spanned ((PGROUNDDOWN va + PGSIZE) % 2 ^ 64)
      (len - min (PGSIZE - (va - PGROUNDDOWN va)) len) + 3 ≤ 3 * spanned va len := by
  have hle := PGROUNDDOWN_le va
  have hM : MAXVA + 4096 < 2 ^ 64 := by decide
  have hal := PGROUNDDOWN_aligned va
  have hdown : va - PGROUNDDOWN va = va % 4096 := by
    simp only [PGROUNDDOWN, PGSIZE]
    omega
  rw [mod_eq_of_lt (by simp only [PGSIZE]; omega), hdown]
  simp only [spanned, PGSIZE]
  omega

theorem PGROUNDDOWN_div (va : ℕ) : PGROUNDDOWN va / PGSIZE = va / PGSIZE := PGROUNDDOWN_page va

/-- `copyin` reads the logical memory and leaves it as it is. -/
theorem wp_copyinLoop_logical {fuel srcva len : ℕ}
    (h : Sees ρ g F t trampoline trapframe sz m s) (hfuel : len ≤ fuel)
    (hk : Plenty (3 * spanned srcva len) s) :
    wp (copyinLoop ⟨ρ t, sz⟩ (ρ t) fuel srcva len dst)
      (fun r s' => r = m.copyin fuel srcva len dst ∧ Sees ρ g F t trampoline trapframe sz m s') E s := by
  have hTM : TRAPFRAME < MAXVA := by decide
  induction fuel generalizing s srcva len dst with
  | zero =>
    obtain rfl : len = 0 := by omega
    exact ⟨rfl, h⟩
  | succ fuel ih =>
    cases len with
    | zero => exact ⟨rfl, h⟩
    | succ len =>
      have hpos : 3 ≤ 3 * spanned srcva (len + 1) := by
        simp only [spanned]
        omega
      obtain ⟨k, hkeq⟩ : ∃ k, 3 * spanned srcva (len + 1) = k + 3 := ⟨_, (Nat.sub_add_cancel hpos).symm⟩
      rw [hkeq] at hk
      simp only [copyinLoop, succ_eq_add_one]
      refine wp_call (wp_userPage_logical (PGROUNDDOWN_aligned srcva) h hk) fun pa s₁ hq => ?_
      obtain ⟨h₁, hk₁, hcase⟩ := hq
      rw [Found, PGROUNDDOWN_div] at hcase
      rcases hcase with ⟨hm, rfl⟩ | ⟨d, hm, hne, hlow, -, -, -, hd⟩
      · rw [if_pos rfl, wp_pure, m.copyin_succ (show 0 < len + 1 by omega), hm]
        exact ⟨rfl, h₁⟩
      · have hlt : srcva < PGROUNDDOWN srcva + 4096 := by
          simp only [PGROUNDDOWN, PGSIZE]
          omega
        have hTr : TRAPFRAME + 4096 ≤ MAXVA := by decide
        have hnext := spanned_next srcva (len + 1) (by omega) (by omega)
        rw [if_neg hne, wp_bind, wp_get, hd, m.copyin_succ (show 0 < len + 1 by omega), hm]
        refine ih h₁ ?_ (hk₁.mono ?_)
        · simp only [PGSIZE]
          omega
        · omega

theorem wp_copyoutLoop_logical {fuel dstva : ℕ} {src : List UInt8}
    (h : Sees ρ g F t trampoline trapframe sz m s) (hfuel : src.length ≤ fuel)
    (hk : Plenty (3 * spanned dstva src.length) s) :
    wp (copyoutLoop ⟨ρ t, sz⟩ (ρ t) fuel dstva src) (fun r s' => r = (m.copyout fuel dstva src).1 ∧
      Sees ρ g F t trampoline trapframe sz (m.copyout fuel dstva src).2 s') E s := by
  have hTM : TRAPFRAME < MAXVA := by decide
  induction fuel generalizing s m dstva src with
  | zero =>
    obtain rfl : src = [] := eq_nil_of_length_eq_zero (by omega)
    exact ⟨rfl, h⟩
  | succ fuel ih =>
    cases src with
    | nil => exact ⟨rfl, h⟩
    | cons b src =>
      obtain ⟨src', hsrc⟩ : ∃ src', src' = b :: src := ⟨_, rfl⟩
      have hlen : 0 < src'.length := by rw [hsrc]; exact succ_pos _
      have hnil : src' ≠ [] := by rw [hsrc]; exact cons_ne_nil b src
      rw [← hsrc] at hk hfuel ⊢
      have hpos : 3 ≤ 3 * spanned dstva src'.length := by
        simp only [spanned]
        omega
      obtain ⟨k, hkeq⟩ : ∃ k, 3 * spanned dstva src'.length = k + 3 := ⟨_, (Nat.sub_add_cancel hpos).symm⟩
      rw [hkeq] at hk
      rw [copyoutLoop, LogicalMem.copyout, wp_ite]
      rotate_left
      · exact hnil
      · exact hnil
      split
      · rename_i hge
        have hm : m (dstva / PGSIZE) = none := by
          rw [← h.logical]
          exact logical_of_ge hge
        rw [hm]
        exact ⟨rfl, h⟩
      · refine wp_call (wp_userPage_logical (PGROUNDDOWN_aligned dstva) h hk) fun pa s₁ hq => ?_
        obtain ⟨h₁, hk₁, hcase⟩ := hq
        rw [Found, PGROUNDDOWN_div] at hcase
        rcases hcase with ⟨hm, rfl⟩ | ⟨d, hm, hne, hlow, hv, hU, hpa, hd⟩
        · rw [if_pos rfl, wp_pure, hm]
          exact ⟨rfl, h₁⟩
        · have hlt : dstva < PGROUNDDOWN dstva + 4096 := by
            simp only [PGROUNDDOWN, PGSIZE]
            omega
          have hTr : TRAPFRAME + 4096 ≤ MAXVA := by decide
          have hnext := spanned_next dstva src'.length hlen (by omega)
          rw [if_neg hne, wp_bind, hm]
          refine wp_walk depth_userPages h₁.heap (by omega) h₁.table.root (fun hz => ?_) fun hb => ?_
          · rw [Vm.leaf, hz, ent_zero] at hv
            cases hv
          · have hpte : s₁.pte (s₁.node (ρ t) [PX 2 (PGROUNDDOWN dstva), PX 1 (PGROUNDDOWN dstva)] +
                8 * PX 0 (PGROUNDDOWN dstva)) = s₁.leaf (ρ t) (PGROUNDDOWN dstva) :=
              pte_eq_ent (h₁.heap.node_aligned depth_userPages) hb (PX_lt 0 _)
            rw [if_neg (by omega)]
            simp only [readPte, wp_bind, wp_get, wp_pure, wp_ite, wp_modify, hpte,
              PTE_FLAGS_has (show PTE_W < 1024 by decide)]
            split
            · exact ⟨rfl, h₁⟩
            · have hw := h₁.write hlow hv hU (put d (dstva - PGROUNDDOWN dstva)
                (src'.take (min (PGSIZE - (dstva - PGROUNDDOWN dstva)) src'.length)))
              have hpg : PGROUNDDOWN dstva / 4096 = dstva / PGSIZE := PGROUNDDOWN_page dstva
              rw [hpg] at hw
              rw [hd, hpa]
              refine ih hw ?_ (hk₁.mono ?_)
              · simp only [length_drop, PGSIZE]
                omega
              · rw [length_drop]
                omega

/-- `copyinstr` reads the logical memory as far as it is allocated, and changes nothing. -/
theorem wp_copyinstrLoop_logical {fuel srcva max : ℕ}
    (h : Sees ρ g F t trampoline trapframe sz m s) (hfuel : max ≤ fuel) :
    wp (copyinstrLoop (ρ t) fuel srcva max dst) (fun r s' => s' = s ∧
      r = m.copyinstr (fun n => has (s.leaf (ρ t) (n * PGSIZE)) PTE_V) fuel srcva max dst) E s := by
  induction fuel generalizing srcva max dst with
  | zero =>
    obtain rfl : max = 0 := by omega
    exact ⟨rfl, rfl⟩
  | succ fuel ih =>
    cases max with
    | zero => exact ⟨rfl, rfl⟩
    | succ max =>
      have hpg : PGROUNDDOWN srcva / PGSIZE = srcva / PGSIZE := PGROUNDDOWN_div srcva
      have hmul : srcva / PGSIZE * PGSIZE = PGROUNDDOWN srcva := rfl
      simp only [copyinstrLoop, succ_eq_add_one, wp_bind]
      rw [m.copyinstr_succ _ (show 0 < max + 1 by omega), hmul]
      refine wp_walkaddr h.heap h.table.root (fun hge => ?_) fun hlt => ?_
      · have hm : m (srcva / PGSIZE) = none := by
          rw [← h.logical]
          exact logical_of_ge hge
        rw [if_pos rfl, hm]
        exact ⟨rfl, rfl⟩
      · rw [wp_ite]
        split
        · rename_i hz
          -- the page is not there, or not allocated
          rw [wp_pure]
          refine ⟨rfl, ?_⟩
          cases hm : m (srcva / PGSIZE) with
          | none => rfl
          | some x =>
            cases hv : has (s.leaf (ρ t) (PGROUNDDOWN srcva)) PTE_V with
            | false => rfl
            | true =>
              exfalso
              rw [← h.logical, Vm.logical] at hm
              simp only [hmul] at hm
              rw [if_neg (by omega), if_pos hv] at hm
              split at hm
              · rename_i hU
                obtain ⟨hc, hne, -⟩ := h.heap.child_user h.table (h.table.lt_of_user hlt hU) hv
                rw [userPa, if_pos ⟨hv, hU⟩, hc] at hz
                exact hne hz
              · cases hm
        · rename_i hne
          obtain ⟨hv, -, -⟩ := userPa_ne_zero hne
          have hm := (h.walkaddr hlt hne).2
          rw [hpg] at hm
          simp only [hm, hv, Bool.not_true, Bool.false_eq_true, if_false]
          rw [wp_bind, wp_get, wp_ite]
          split
          · exact ⟨rfl, rfl⟩
          · refine ih ?_
            rw [(PGROUNDDOWN_add srcva).2]
            simp only [PGSIZE]
            omega

/-! ## Two states that differ in what is allocated -/

/-- A call of the kernel that accesses the memory of the process that runs. -/
inductive UserAccess
  | copyin (srcva len : ℕ)
  | copyout (dstva : ℕ) (src : List UInt8)
  | copyinstr (srcva max : ℕ)

namespace UserAccess

/-- The result, and the bytes that are delivered. -/
def exec (p : UserMem) : UserAccess → VmM (ℤ × List UInt8)
  | .copyin srcva len => Xv6.copyin p p.pagetable srcva len
  | .copyout dstva src => do return (← Xv6.copyout p p.pagetable dstva src, [])
  | .copyinstr srcva max => Xv6.copyinstr p.pagetable srcva max

/-- The number of bytes that are accessed at most. -/
def length : UserAccess → ℕ
  | .copyin _ len => len
  | .copyout _ src => src.length
  | .copyinstr _ max => max

/-- Enough free pages: for every page that is accessed, the page itself and two page-table pages. -/
def Enough (c : UserAccess) (s : Vm) : Prop := Plenty (3 * (c.length / PGSIZE + 2)) s

/-- The result of a call on the logical memory `m`, of which the pages `A` are allocated. -/
def result (m : LogicalMem) (A : ℕ → Bool) : UserAccess → (ℤ × List UInt8) × LogicalMem
  | .copyin srcva len => (m.copyin len srcva len [], m)
  | .copyout dstva src =>
    (((m.copyout src.length dstva src).1, []), (m.copyout src.length dstva src).2)
  | .copyinstr srcva max => (m.copyinstr A max srcva max [], m)

theorem wp_exec (c : UserAccess)
    (h : Sees ρ g F t trampoline trapframe sz m s) (hk : c.Enough s) :
    wp (c.exec ⟨ρ t, sz⟩) (fun r s' => (r, s'.logical ⟨ρ t, sz⟩) =
      c.result m fun n => has (s.leaf (ρ t) (n * PGSIZE)) PTE_V) E s := by
  cases c with
  | copyin srcva len =>
    have hmono : 3 * spanned srcva len ≤ 3 * (len / PGSIZE + 2) := Nat.mul_le_mul_left 3 (spanned_le _ _)
    refine wp_mono (wp_copyinLoop_logical h le_rfl (hk.mono hmono)) (fun r s' hq => ?_)
      fun _ _ he => he
    exact Prod.ext hq.1 hq.2.logical
  | copyout dstva src =>
    have hmono : 3 * spanned dstva src.length ≤ 3 * (src.length / PGSIZE + 2) :=
      Nat.mul_le_mul_left 3 (spanned_le _ _)
    refine wp_call (wp_copyoutLoop_logical h le_rfl (hk.mono hmono)) fun r s' hq => ?_
    rw [wp_pure, hq.1]
    exact Prod.ext rfl hq.2.logical
  | copyinstr srcva max =>
    have hstr : wp (copyinstrLoop (ρ t) max srcva max []) _ E s :=
      wp_copyinstrLoop_logical h le_rfl
    refine wp_mono hstr (fun r s' hq => ?_) fun _ _ he => he
    rw [hq.1]
    exact Prod.ext hq.2 h.logical

end UserAccess

/-- The page of the address `va` is below the size of the process, but not allocated. -/
def Vm.Unallocated (s : Vm) (p : UserMem) (va : ℕ) : Prop :=
  va / PGSIZE * PGSIZE < p.sz ∧ has (s.leaf p.pagetable va) PTE_V = false

/-- A page that is not allocated reads as zeros. -/
theorem byte_of_unallocated {s : Vm} {p : UserMem} {va : ℕ} (hsz : p.sz ≤ MAXVA) (h : s.Unallocated p va) :
    (s.logical p).byte va = some 0 := by
  have hv : has (s.leaf p.pagetable (va / PGSIZE * PGSIZE)) PTE_V = false := by
    rw [leaf_congr_page (Nat.mul_div_cancel _ (by decide))]
    exact h.2
  rw [LogicalMem.byte, logical_of_not_valid (h.1.trans_le hsz) hv, if_pos h.1]
  exact congrArg some (rd8_zero _)

/-- Some pages below the size that are mapped with `PTE_R`, `PTE_W` and `PTE_U` and are full of zeros in
the first state are not allocated in the second. Otherwise the two address spaces are the same, wherever
their pages are. -/
structure Lazier (s₁ : Vm) (p₁ : UserMem) (s₂ : Vm) (p₂ : UserMem) : Prop where
  size : p₁.sz = p₂.sz
  pages : ∀ n, n * PGSIZE < TRAPFRAME →
    let e₁ := s₁.leaf p₁.pagetable (n * PGSIZE)
    let e₂ := s₂.leaf p₂.pagetable (n * PGSIZE)
    has e₁ PTE_V = false ∧ has e₂ PTE_V = false ∨
    has e₁ PTE_V = true ∧ has e₂ PTE_V = true ∧ PTE_FLAGS e₁ = PTE_FLAGS e₂ ∧
      s₁.mem (PTE2PA e₁ / PGSIZE) = s₂.mem (PTE2PA e₂ / PGSIZE) ∨
    n * PGSIZE < p₁.sz ∧ PTE_FLAGS e₁ = lazyFlags ∧ s₁.mem (PTE2PA e₁ / PGSIZE) = Bytes.zero ∧
      has e₂ PTE_V = false

section

variable {b₁ b₂ s₁ s₂ : Space} {p q : Slot}

theorem Space.Inv.sees (h : b₁.Inv s₁) (hp : s₁.InUse p) :
    Sees s₁.roots (b₁.places s₁) ∅ (some p) s₁.trampoline (s₁.proc p).trapframe (s₁.proc p).sz
      (s₁.vm.logical (s₁.user p)) s₁.vm :=
  ⟨h.heap, hp.2.2, rfl⟩

/-- The logical memories are the same. -/
theorem Lazier.logical (h₁ : s₁.InUse p) (h₂ : s₂.InUse q)
    (h : Lazier s₁.vm (s₁.user p) s₂.vm (s₂.user q)) :
    s₁.vm.logical (s₁.user p) = s₂.vm.logical (s₂.user q) := by
  funext n
  by_cases hn : MAXVA ≤ n * PGSIZE
  · rw [logical_of_ge hn, logical_of_ge hn]
  have hn' : n * PGSIZE < MAXVA := by omega
  by_cases hlow : n * PGSIZE < TRAPFRAME
  · have hflag : ∀ e f, f < 1024 → has (PTE_FLAGS e) f = has e f := fun e f hf => PTE_FLAGS_has hf
    rcases h.pages n hlow with ⟨hv₁, hv₂⟩ | ⟨hv₁, hv₂, hf, hm⟩ | ⟨hsz, hf, hm, hv₂⟩
    · rw [logical_of_not_valid hn' hv₁, logical_of_not_valid hn' hv₂, h.size]
    · have hU : has (s₁.vm.leaf (s₁.user p).pagetable (n * PGSIZE)) PTE_U =
          has (s₂.vm.leaf (s₂.user q).pagetable (n * PGSIZE)) PTE_U := by
        rw [← hflag _ _ (by decide), hf, hflag _ _ (by decide)]
      rw [Vm.logical, Vm.logical, hv₁, hv₂, hU, hf, hm, h.size]
    · have hv₁ : has (s₁.vm.leaf (s₁.user p).pagetable (n * PGSIZE)) PTE_V = true := by
        rw [← hflag _ _ (by decide), hf]
        decide
      have hU₁ : has (s₁.vm.leaf (s₁.user p).pagetable (n * PGSIZE)) PTE_U = true := by
        rw [← hflag _ _ (by decide), hf]
        decide
      rw [logical_of_user hn' hv₁ hU₁, logical_of_not_valid hn' hv₂, hf, hm, if_pos (h.size ▸ hsz)]
  · -- the pages at the top are not for the user
    have htop : ∀ (s : Space) (p : Slot), s.InUse p → s.vm.logical (s.user p) n = none := by
      intro s p hp
      have hU : has (s.vm.leaf (s.user p).pagetable (n * PGSIZE)) PTE_U = false :=
        hp.2.2.not_user (by omega) hn'
      have hsz : ¬ n * PGSIZE < (s.user p).sz := by
        have : (s.user p).sz ≤ TRAPFRAME := hp.2.2.size
        omega
      rw [Vm.logical, if_neg hn, hU, if_neg hsz, if_neg Bool.false_ne_true, ite_self]
    rw [htop s₁ p h₁, htop s₂ q h₂]

/-- The string that `copyinstr` scans reaches no page that is allocated in the first state only: a byte is
reached when the bytes before it are there and are not zero. -/
def UserAccess.Avoids (s₁ : Vm) (p₁ : UserMem) (s₂ : Vm) (p₂ : UserMem) : UserAccess → Prop
  | .copyin _ _ | .copyout _ _ => True
  | .copyinstr srcva max => ∀ k < max,
      (s₂.logical p₂).Reaches srcva k → s₂.Unallocated p₂ (srcva + k) → s₁.Unallocated p₁ (srcva + k)

/-- A page that the user may access is allocated in the first state when it is in the second. -/
theorem Lazier.valid (hp : s₂.InUse q) (h : Lazier s₁.vm (s₁.user p) s₂.vm (s₂.user q)) {n : ℕ}
    (hn : s₂.vm.logical (s₂.user q) n ≠ none)
    (hv : has (s₂.vm.leaf (s₂.user q).pagetable (n * PGSIZE)) PTE_V = true) :
    has (s₁.vm.leaf (s₁.user p).pagetable (n * PGSIZE)) PTE_V = true := by
  have hmax : n * PGSIZE < MAXVA := by
    by_contra hge
    exact hn (logical_of_ge (by omega))
  have hU : has (s₂.vm.leaf (s₂.user q).pagetable (n * PGSIZE)) PTE_U = true := by
    by_contra hU
    rw [Vm.logical, if_neg (by omega), if_pos hv, if_neg hU] at hn
    exact hn rfl
  rcases h.pages n (hp.2.2.lt_of_user hmax hU) with ⟨-, hv₂⟩ | ⟨hv₁, -, -⟩ | ⟨-, -, -, hv₂⟩
  · rw [hv] at hv₂
    cases hv₂
  · exact hv₁
  · rw [hv] at hv₂
    cases hv₂

/-- A byte that is not zero is in a page that is allocated in the first state. -/
theorem Lazier.valid_of_byte (hq : s₂.InUse q) (h : Lazier s₁.vm (s₁.user p) s₂.vm (s₂.user q)) {b va : ℕ}
    (hb : (s₂.vm.logical (s₂.user q)).byte va = some b) (hne : b ≠ 0) :
    has (s₁.vm.leaf (s₁.user p).pagetable (va / PGSIZE * PGSIZE)) PTE_V = true := by
  have hn : s₂.vm.logical (s₂.user q) (va / PGSIZE) ≠ none := by
    intro hnone
    rw [LogicalMem.byte, hnone] at hb
    cases hb
  refine h.valid hq hn ?_
  by_contra hv
  rw [Bool.not_eq_true] at hv
  rw [LogicalMem.byte, logical_of_not_valid (lt_of_logical hn) hv] at hb
  split at hb
  · exact hne ((Option.some.inj hb).symm.trans (rd8_zero _))
  · cases hb

/-- A call has the same result on both sides. -/
theorem UserAccess.result_congr (c : UserAccess) (hp : s₁.InUse p) (hq : s₂.InUse q)
    (hl : Lazier s₁.vm (s₁.user p) s₂.vm (s₂.user q))
    (hc : c.Avoids s₁.vm (s₁.user p) s₂.vm (s₂.user q)) :
    c.result (s₁.vm.logical (s₁.user p))
        (fun n => has (s₁.vm.leaf (s₁.user p).pagetable (n * PGSIZE)) PTE_V) =
      c.result (s₂.vm.logical (s₂.user q))
        (fun n => has (s₂.vm.leaf (s₂.user q).pagetable (n * PGSIZE)) PTE_V) := by
  rw [hl.logical hp hq]
  cases c with
  | copyin srcva len | copyout dstva src => simp only [result]
  | copyinstr srcva max =>
    have hcongr : LogicalMem.copyinstr (s₂.vm.logical (s₂.user q))
        (fun n => has (s₁.vm.leaf (s₁.user p).pagetable (n * PGSIZE)) PTE_V) max srcva max [] =
        LogicalMem.copyinstr (s₂.vm.logical (s₂.user q))
        (fun n => has (s₂.vm.leaf (s₂.user q).pagetable (n * PGSIZE)) PTE_V) max srcva max [] := by
      refine LogicalMem.copyinstr_congr (fun _ => lt_of_logical) fun k hk hreach hn => ?_
      have hpage : (srcva + k) / PGSIZE * PGSIZE / 4096 = (srcva + k) / 4096 :=
        Nat.mul_div_cancel _ (by decide)
      cases hv : has (s₂.vm.leaf (s₂.user q).pagetable ((srcva + k) / PGSIZE * PGSIZE)) PTE_V with
      | true => exact hl.valid hq hn hv
      | false =>
        have hmax : (srcva + k) / PGSIZE * PGSIZE < MAXVA := by
          by_contra hge
          exact hn (logical_of_ge (by omega))
        have hsz : (srcva + k) / PGSIZE * PGSIZE < (s₂.user q).sz := by
          by_contra hge
          exact hn (by rw [logical_of_not_valid hmax hv, if_neg hge])
        have hun := hc k hk hreach ⟨hsz, by rw [← leaf_congr_page hpage]; exact hv⟩
        rw [leaf_congr_page hpage]
        exact hun.2
    simp only [result, hcongr]

/-- Where the string reaches a page that is allocated in the first state only, the string ends there in
the first state, and `copyinstr` fails in the second. -/
theorem UserAccess.avoids_of_result (c : UserAccess) (hp : s₁.InUse p) (hq : s₂.InUse q)
    (hl : Lazier s₁.vm (s₁.user p) s₂.vm (s₂.user q))
    (hr : (c.result (s₁.vm.logical (s₁.user p))
        (fun n => has (s₁.vm.leaf (s₁.user p).pagetable (n * PGSIZE)) PTE_V)).1.1 =
      (c.result (s₂.vm.logical (s₂.user q))
        (fun n => has (s₂.vm.leaf (s₂.user q).pagetable (n * PGSIZE)) PTE_V)).1.1) :
    c.Avoids s₁.vm (s₁.user p) s₂.vm (s₂.user q) := by
  rw [hl.logical hp hq] at hr
  cases c with
  | copyin srcva len | copyout dstva src => trivial
  | copyinstr srcva max =>
    intro k hk hreach hun
    refine ⟨hl.size ▸ hun.1, ?_⟩
    by_contra hv₁
    rw [Bool.not_eq_false] at hv₁
    have hpage : ∀ va, va / PGSIZE * PGSIZE / 4096 = va / 4096 := fun va =>
      Nat.mul_div_cancel _ (by decide)
    have hleaf : ∀ (s : Vm) (root va : ℕ), s.leaf root (va / PGSIZE * PGSIZE) = s.leaf root va :=
      fun _ _ va => leaf_congr_page (hpage va)
    -- the page is full of zeros, so the string ends at its first byte
    have hzero : (s₂.vm.logical (s₂.user q)).byte (srcva + k) = some 0 :=
      byte_of_unallocated (hq.2.2.size.trans (by decide)) hun
    have hfound : (LogicalMem.copyinstr (s₂.vm.logical (s₂.user q))
        (fun n => has (s₁.vm.leaf (s₁.user p).pagetable (n * PGSIZE)) PTE_V) max srcva max []).1 = 0 := by
      refine (LogicalMem.copyinstr_eq_zero_iff (fun _ => lt_of_logical) le_rfl).2
        ⟨k, hk, hreach, hzero, fun j hj => ?_⟩
      rcases hj.lt_or_eq with hj | rfl
      · obtain ⟨b, hb, hne⟩ := hreach j hj
        exact hl.valid_of_byte hq hb hne
      · beta_reduce
        rw [hleaf, hv₁]
    obtain ⟨k', -, hreach', hzero', hall⟩ :=
      (LogicalMem.copyinstr_eq_zero_iff (fun _ => lt_of_logical) le_rfl).1 (hr.symm.trans hfound)
    obtain rfl : k' = k := hreach'.eq hreach hzero' hzero
    have := hall k' le_rfl
    beta_reduce at this
    rw [hleaf, hun.2] at this
    cases this

/-- **Where lazy allocation can be seen.** In two states of a process that differ in which pages of
zeros are allocated, a call has the same result, delivers the same bytes and leaves the same logical
memory if and only if it is not a `copyinstr` whose string reaches a page that is allocated in the first
state only. -/
theorem lazy_allocation_transparent (h₁ : b₁.Inv s₁) (h₂ : b₂.Inv s₂)
    (hp : (s₁.proc p).state ≠ .unused) (hq : (s₂.proc q).state ≠ .unused)
    (hl : Lazier s₁.vm (s₁.user p) s₂.vm (s₂.user q)) (c : UserAccess)
    (hk₁ : c.Enough s₁.vm) (hk₂ : c.Enough s₂.vm) :
    (∃ r v₁ v₂, c.exec (s₁.user p) s₁.vm = (.ok r, v₁) ∧ c.exec (s₂.user q) s₂.vm = (.ok r, v₂) ∧
      v₁.logical (s₁.user p) = v₂.logical (s₂.user q)) ↔
    c.Avoids s₁.vm (s₁.user p) s₂.vm (s₂.user q) := by
  obtain ⟨r₁, v₁, e₁, hr₁⟩ := wp_total (c.wp_exec (h₁.sees (h₁.inUse hp)) hk₁)
  obtain ⟨r₂, v₂, e₂, hr₂⟩ := wp_total (c.wp_exec (h₂.sees (h₂.inUse hq)) hk₂)
  constructor
  · rintro ⟨r, v, v', e, e', -⟩
    refine c.avoids_of_result (h₁.inUse hp) (h₂.inUse hq) hl ?_
    cases e₁.symm.trans e
    cases e₂.symm.trans e'
    exact (congrArg (·.1.1) hr₁).symm.trans (congrArg (·.1.1) hr₂)
  · intro hc
    have hsame := hr₁.trans ((c.result_congr (h₁.inUse hp) (h₂.inUse hq) hl hc).trans hr₂.symm)
    obtain ⟨rfl, hlog⟩ := Prod.mk.inj hsame
    exact ⟨r₁, v₁, v₂, e₁, e₂, hlog⟩

end

/-! ## A page allocated at once and a page allocated later -/

/-- A process grows by a page, at once (`t = 1`) or lazily (`t = 2`). -/
abbrev grownPage (p : Slot) (t : ℤ) : Space := fourteenPages.after [.allocproc, .sbrk p 4096 t]

theorem lazyPage_run :
    Trans.Run SpaceStep fourteenPages [(.allocproc, 0), (.sbrk 0 4096 2, 0)] (grownPage 0 2) :=
  oneProc_run.tail (.of_exec (Space.live_of_state (x := .used) rfl (by decide)) rfl)

set_option maxRecDepth 10000 in
theorem eagerPage_mem : (grownPage 0 1).vm.mem 0x80005 = Bytes.zero := by rfl

theorem eagerPage_lazier :
    Lazier (grownPage 0 1).vm ((grownPage 0 1).user 0) (grownPage 0 2).vm ((grownPage 0 2).user 0) := by
  have hu₁ := ((fourteenPages_booted.run onePage_run).inUse
    (Space.live_of_state (p := 0) (x := .used) rfl (by decide)).1).2.2
  have hu₂ := ((fourteenPages_booted.run lazyPage_run).inUse
    (Space.live_of_state (p := 0) (x := .used) rfl (by decide)).1).2.2
  refine ⟨by decide +kernel, fun n hn => ?_⟩
  by_cases h : n = 0
  · subst h
    have hpage :
        PTE2PA ((grownPage 0 1).vm.leaf ((grownPage 0 1).user 0).pagetable (0 * PGSIZE)) / PGSIZE =
          0x80005 := by
      decide +kernel
    refine .inr (.inr ⟨by decide +kernel, by decide +kernel, ?_, by decide +kernel⟩)
    rw [hpage, eagerPage_mem]
  · have hsz₁ : PGROUNDUP ((grownPage 0 1).proc 0).sz = 4096 := by decide +kernel
    have hsz₂ : PGROUNDUP ((grownPage 0 2).proc 0).sz = 4096 := by decide +kernel
    have hge : 4096 ≤ n * PGSIZE := Nat.le_mul_of_pos_left _ (Nat.pos_of_ne_zero h)
    exact .inl ⟨hu₁.not_valid (hsz₁.trans_le hge) hn, hu₂.not_valid (hsz₂.trans_le hge) hn⟩

/-- `copyinstr` at the start of the page finds the empty string when the page is allocated, and fails when
it is not. -/
theorem copyinstr_sees_lazy_page :
    Lazier (grownPage 0 1).vm ((grownPage 0 1).user 0) (grownPage 0 2).vm ((grownPage 0 2).user 0) ∧
    (UserAccess.copyinstr 0 1).Enough (grownPage 0 1).vm ∧ (UserAccess.copyinstr 0 1).Enough (grownPage 0 2).vm ∧
    ((UserAccess.copyinstr 0 1).exec ((grownPage 0 1).user 0) (grownPage 0 1).vm).1 = .ok (0, [0]) ∧
    ((UserAccess.copyinstr 0 1).exec ((grownPage 0 2).user 0) (grownPage 0 2).vm).1 = .ok (-1, []) :=
  ⟨eagerPage_lazier, ⟨fun _ => rfl, by decide⟩, ⟨fun _ => rfl, by decide⟩, rfl, rfl⟩

/-- `copyin` of the page reads zeros in both states. -/
theorem lazy_allocation_transparent_copyin :
    ∃ r v₁ v₂, (UserAccess.copyin 8 2).exec ((grownPage 0 1).user 0) (grownPage 0 1).vm = (.ok r, v₁) ∧
      (UserAccess.copyin 8 2).exec ((grownPage 0 2).user 0) (grownPage 0 2).vm = (.ok r, v₂) ∧
      v₁.logical ((grownPage 0 1).user 0) = v₂.logical ((grownPage 0 2).user 0) :=
  (lazy_allocation_transparent (fourteenPages_booted.run onePage_run)
    (fourteenPages_booted.run lazyPage_run)
    (Space.live_of_state (p := 0) (x := .used) rfl (by decide)).1
    (Space.live_of_state (p := 0) (x := .used) rfl (by decide)).1 eagerPage_lazier (.copyin 8 2)
    ⟨fun _ => rfl, by decide⟩ ⟨fun _ => rfl, by decide⟩).2 trivial

end Xv6
