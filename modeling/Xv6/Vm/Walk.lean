import Xv6.Vm.Spares

/-!
# Walking a page table

`walk` finds the entry of an address, and creates the page-table pages on its way if it may. It never
changes a translation (`wp_walk_alloc`), whether or not it runs out of memory.
-/

namespace Xv6

open Function Prog List Vm Set Nat

variable {E : VmPanic → Vm → Prop}

/-! ## Indices -/

theorem PX_lt (level va : ℕ) : PX level va < 512 := mod_lt _ (by decide)

theorem PX_root_lt {va : ℕ} (hva : va < MAXVA) : PX 2 va < 256 := by
  simp only [PX, MAXVA] at *
  omega

/-- The three indices of an address are the digits of its page number. -/
theorem page_of_PX {va : ℕ} (hva : va < MAXVA) :
    va / 4096 = PX 2 va * 262144 + PX 1 va * 512 + PX 0 va := by
  simp only [PX, MAXVA] at *
  norm_num at *
  omega

theorem page_eq_of_PX {va va' : ℕ} (hva : va < MAXVA) (hva' : va' < MAXVA) (h₂ : PX 2 va' = PX 2 va)
    (h₁ : PX 1 va' = PX 1 va) (h₀ : PX 0 va' = PX 0 va) : va' / 4096 = va / 4096 := by
  rw [page_of_PX hva, page_of_PX hva', h₂, h₁, h₀]

theorem PX_eq_of_page {va va' : ℕ} (level : ℕ) (h : va' / 4096 = va / 4096) : PX level va' = PX level va := by
  have e : ∀ a : ℕ, a / 2 ^ (12 + 9 * level) = a / 4096 / 2 ^ (9 * level) := fun a => by
    rw [Nat.pow_add, ← Nat.div_div_eq_div_mul]
  rw [PX, PX, e, e, h]

theorem Vm.leaf_congr_page {s : Vm} {r va va' : ℕ} (h : va' / 4096 = va / 4096) :
    s.leaf r va' = s.leaf r va := by
  simp only [leaf, PX_eq_of_page _ h]

variable {ι X : Type} {owned : List ℕ → Bool} {ρ : ι → ℕ} {g : X → ℕ} {F : Set ℕ} {s s' s'' : Vm}
  {pa va v : ℕ} {t : ι} {p : List ℕ}

/-! ## Leaves -/

namespace Heap

theorem leaf_setPte_self (hD : Depth owned) (h : Heap owned ρ g F s)
    (hb : s.node (ρ t) [PX 2 va, PX 1 va] ≠ 0) :
    (s.setPte (s.node (ρ t) [PX 2 va, PX 1 va] + 8 * PX 0 va) v).leaf (ρ t) va = v % 2 ^ 64 := by
  have hn : (s.setPte (s.node (ρ t) [PX 2 va, PX 1 va] + 8 * PX 0 va) v).node (ρ t)
      [PX 2 va, PX 1 va] = s.node (ρ t) [PX 2 va, PX 1 va] := by
    refine h.node_setPte hD (by simp) (PX_lt 0 va) hb (by simp) fun rest e => ?_
    simpa using congrArg length e.2
  rw [leaf, hn, ent_setPte_self (h.node_aligned hD) hb (PX_lt 0 va)]

theorem leaf_setPte_of_ne (hD : Depth owned) (h : Heap owned ρ g F s) (hva : va < MAXVA)
    (hb : s.node (ρ t) [PX 2 va, PX 1 va] ≠ 0) {t' : ι} {va' : ℕ} (hva' : va' < MAXVA)
    (hne : ¬ (t' = t ∧ va' / 4096 = va / 4096)) :
    (s.setPte (s.node (ρ t) [PX 2 va, PX 1 va] + 8 * PX 0 va) v).leaf (ρ t') va' =
      s.leaf (ρ t') va' := by
  have hn : (s.setPte (s.node (ρ t) [PX 2 va, PX 1 va] + 8 * PX 0 va) v).node (ρ t')
      [PX 2 va', PX 1 va'] = s.node (ρ t') [PX 2 va', PX 1 va'] := by
    refine h.node_setPte hD (by simp) (PX_lt 0 va) hb (by simp) fun rest e => ?_
    simpa using congrArg length e.2
  rw [leaf, hn, leaf]
  refine ent_setPte_of_ne (h.node_aligned hD) (PX_lt 0 va) ?_
  rintro ⟨hdiv, h₀⟩
  have ha := h.node_aligned hD (t := t) (p := [PX 2 va, PX 1 va])
  have ha' := h.node_aligned hD (t := t') (p := [PX 2 va', PX 1 va'])
  obtain ⟨rfl, hpath⟩ := h.path_unique hD (by simp) (by simp) hb
    (show s.node (ρ t') [PX 2 va', PX 1 va'] = s.node (ρ t) [PX 2 va, PX 1 va] by omega)
  simp only [cons.injEq, and_true] at hpath
  exact hne ⟨rfl, page_eq_of_PX hva hva' hpath.1 hpath.2 h₀⟩

/-- A new page-table page of zeros changes no leaf. -/
theorem leaf_attachTable {i : ℕ} (hD : Depth owned) (h : Heap owned ρ g F s) (hp : p.length ≤ 1)
    (hi : i < 512) (hb : s.node (ρ t) p ≠ 0) (he : s.ent (s.node (ρ t) p) i = 0) (hpa : pa ∈ F)
    (hz : ∀ j, s.ent pa j = 0) (t' : ι) (va : ℕ) :
    (s.setPte (s.node (ρ t) p + 8 * i) (pa / 4096 * 1024 + 1)).leaf (ρ t') va = s.leaf (ρ t') va := by
  have hv := h.child_tableEntry hpa
  have hz' : ∀ j, (s.setPte (s.node (ρ t) p + 8 * i) (pa / 4096 * 1024 + 1)).ent pa j = 0 := fun j => by
    rw [h.ent_setPte_float hD (by omega) hi hpa, hz]
  by_cases hbel : ∃ rest, t' = t ∧ [PX 2 va, PX 1 va] = p ++ i :: rest
  · -- the leaf is below the new page: it was not there, and it is empty
    obtain ⟨rest, rfl, hr⟩ := hbel
    rw [leaf, leaf, hr, h.node_setPte_below hD (by omega) hi hb, hv]
    have hold : s.node (ρ t') (p ++ i :: rest) = 0 := by
      rw [node_append, node_cons, he, child_zero, node_zero]
    rw [hold, ent_zero]
    cases rest with
    | nil => exact hz' _
    | cons k rest =>
      rw [node_cons, hz', child_zero, node_zero, ent_zero]
  · rw [leaf, h.node_setPte hD (by omega) hi hb (by simp) fun rest e => hbel ⟨rest, e⟩, leaf]
    refine ent_setPte_of_ne (h.node_aligned hD) hi ?_
    rintro ⟨hdiv, -⟩
    have ha := h.node_aligned hD (t := t) (p := p)
    have ha' := h.node_aligned hD (t := t') (p := [PX 2 va, PX 1 va])
    obtain ⟨-, hpath⟩ := h.path_unique hD (by omega) (by simp) hb
      (show s.node (ρ t') [PX 2 va, PX 1 va] = s.node (ρ t) p by omega)
    rw [← hpath] at hp
    simp at hp

end Heap

/-! ## What allocation leaves alone -/

/-- From `s` to `s'`, page tables have gained pages that were free, and their leaves may have changed.
The contents of a page in use that is no page-table page have not. -/
structure Grows (ρ : ι → ℕ) (s s' : Vm) : Prop where
  kend : s'.kend = s.kend
  free : s'.free <:+ s.free
  tables : ∀ t p, p.length ≤ 2 → s'.node (ρ t) p = s.node (ρ t) p ∨ s'.node (ρ t) p ∈ s.free
  keeps : ∀ n, n * 4096 ∉ s.free → (∀ t p, p.length ≤ 2 → s.node (ρ t) p ≠ n * 4096) →
    s'.mem n = s.mem n

namespace Grows

theorem refl (ρ : ι → ℕ) (s : Vm) : Grows ρ s s :=
  ⟨rfl, suffix_rfl, fun _ _ _ => .inl rfl, fun _ _ _ => rfl⟩

theorem trans (h : Grows ρ s s') (h' : Grows ρ s' s'') : Grows ρ s s'' where
  kend := h'.kend.trans h.kend
  free := h'.free.trans h.free
  tables t p hp := by
    rcases h'.tables t p hp with e | e
    · rw [e]
      exact h.tables t p hp
    · exact .inr (h.free.subset e)
  keeps n hn hne := by
    rw [h'.keeps n (fun hm => hn (h.free.subset hm)) fun t p hp => ?_, h.keeps n hn hne]
    rcases h.tables t p hp with e | e
    · rw [e]
      exact hne t p hp
    · exact fun e' => hn (e' ▸ e)

theorem answered (ρ : ι → ℕ) (s : Vm) : Grows ρ s s.answered :=
  ⟨rfl, suffix_rfl, fun _ _ _ => .inl rfl, fun _ _ _ => rfl⟩

theorem take (hD : Depth owned) (h : Heap owned ρ g F s) {rest : List ℕ} (hf : s.free = pa :: rest)
    (d : Page) : Grows ρ s ({ s with free := rest }.setPage pa d) := by
  have hmem : pa ∈ s.free := by rw [hf]; exact mem_cons_self
  have hpa := h.free pa hmem
  have hun := h.noTable_of_free hD hmem
  refine ⟨rfl, ⟨[pa], hf.symm⟩, fun t p hp => .inl (h.node_setPage hD hpa.1 hun d (by omega)),
    fun n hn _ => ?_⟩
  refine update_of_ne (fun e => hn ?_) _ _
  have := hpa.1
  rw [e, PGSIZE, Nat.div_mul_cancel (dvd_of_mod_eq_zero this)]
  exact hmem

/-- Writing to a page-table page. -/
theorem keeps_setPte {i : ℕ} (hD : Depth owned) (h : Heap owned ρ g F s') (hg : Grows ρ s s')
    (hp : p.length ≤ 2) (hi : i < 512) (n : ℕ) (hn : n * 4096 ∉ s.free)
    (hne : ∀ t p, p.length ≤ 2 → s.node (ρ t) p ≠ n * 4096) :
    (s'.setPte (s'.node (ρ t) p + 8 * i) v).mem n = s.mem n := by
  refine Eq.trans (update_of_ne (fun e => ?_) _ _) (hg.keeps n hn hne)
  have ha := h.node_aligned hD (t := t) (p := p)
  have hn' : s'.node (ρ t) p = n * 4096 := by
    simp only [PGSIZE] at e
    omega
  rcases hg.tables t p (by omega) with e' | e'
  · exact hne t p (by omega) (e'.symm.trans hn')
  · exact hn (hn' ▸ e')

/-- A page that was free becomes a page-table page. -/
theorem attachTable {i : ℕ} (hD : Depth owned) (h : Heap owned ρ g F s') (hg : Grows ρ s s')
    (hp : p.length ≤ 1) (hi : i < 512) (hb : s'.node (ρ t) p ≠ 0)
    (he : s'.ent (s'.node (ρ t) p) i = 0) (hpa : pa ∈ F) (hz : ∀ j, s'.ent pa j = 0)
    (hfree : pa ∈ s.free) :
    Grows ρ s (s'.setPte (s'.node (ρ t) p + 8 * i) (pa / 4096 * 1024 + 1)) where
  kend := hg.kend
  free := hg.free
  tables t' q hq := by
    by_cases hbel : ∃ rest, t' = t ∧ q = p ++ i :: rest
    · obtain ⟨rest, rfl, rfl⟩ := hbel
      have hfr := h.frame_of_float hpa
      have hlt : pa < 2 ^ 64 := hfr.2.2.trans (by decide)
      rw [h.node_setPte_below hD (by omega) hi hb, mod_eq_of_lt (by omega),
        show pa / 4096 * 1024 + 1 = pa / 4096 * 1024 + (0 ||| 1) from rfl,
        child_entry hfr.1 hlt (by decide)]
      cases rest with
      | nil => exact .inr hfree
      | cons k rest =>
        -- below the new page there is nothing, as before
        have hne : pa / 4096 ≠ s'.node (ρ t') p / 4096 :=
          (h.div_ne hD hfr.1 (h.noTable_of_float hD hpa t' p (by omega))).symm
        have hold : s'.node (ρ t') (p ++ i :: k :: rest) = 0 := by
          rw [node_append, node_cons, he, child_zero, node_zero]
        rw [node_cons, ent_setPte_of_ne (h.node_aligned hD) hi fun e => hne e.1, hz, child_zero,
          node_zero, ← hold]
        exact hg.tables t' _ hq
    · rw [h.node_setPte hD (by omega) hi hb (by omega) fun rest e => hbel ⟨rest, e⟩]
      exact hg.tables t' q hq
  keeps := hg.keeps_setPte hD h (by omega) hi

theorem setLeaf (hD : Depth owned) (h : Heap owned ρ g F s') (hg : Grows ρ s s')
    (hb : s'.node (ρ t) [PX 2 va, PX 1 va] ≠ 0) :
    Grows ρ s (s'.setPte (s'.node (ρ t) [PX 2 va, PX 1 va] + 8 * PX 0 va) v) where
  kend := hg.kend
  free := hg.free
  tables t' q hq := by
    rw [h.node_setPte hD (by simp) (PX_lt 0 va) hb (by omega) fun rest e => ?_]
    · exact hg.tables t' q hq
    · rw [e.2] at hq
      simp at hq
  keeps := hg.keeps_setPte hD h (by simp) (PX_lt 0 va)

end Grows

/-- The allocator does not refuse and has `k` pages. -/
def Plenty (k : ℕ) (s : Vm) : Prop := (∀ n, s.refuses n = false) ∧ k ≤ s.free.length

theorem Plenty.mono {k k' : ℕ} (h : Plenty k s) (hle : k' ≤ k) : Plenty k' s := ⟨h.1, hle.trans h.2⟩

/-! ## What allocation costs -/

/-- The allocator has `k` pages, and does not refuse the next `k` calls. -/
def Supply (k : ℕ) (s : Vm) : Prop := k ≤ s.free.length ∧ ∀ j < k, s.refuses j = false

/-- From `s` to `s'`, the allocator has handed out the first `k` free pages. -/
structure Spent (k : ℕ) (s s' : Vm) : Prop where
  supply : Supply k s
  free : s'.free = s.free.drop k
  refuses : ∀ j, s'.refuses j = s.refuses (j + k)

section

variable {j k m : ℕ}

theorem Plenty.supply (h : Plenty m s) (hle : k ≤ m) : Supply k s := ⟨hle.trans h.2, fun j _ => h.1 j⟩

theorem Supply.mono (h : Supply m s) (hle : k ≤ m) : Supply k s :=
  ⟨hle.trans h.1, fun j hj => h.2 j (by omega)⟩

theorem Spent.plenty (h : Spent k s s') (hp : Plenty (j + m) s) (hle : k ≤ m) : Plenty j s' := by
  refine ⟨fun i => by rw [h.refuses]; exact hp.1 _, ?_⟩
  have := hp.2
  rw [h.free, length_drop]
  omega

theorem Spent.refl (s : Vm) : Spent 0 s s := ⟨⟨Nat.zero_le _, fun _ hj => by omega⟩, rfl, fun _ => rfl⟩

/-- What is left is enough for `m` more if there was enough for all. -/
theorem Spent.supply_iff (h : Spent k s s') : Supply (k + m) s ↔ Supply m s' := by
  have hs := h.supply
  unfold Supply at hs ⊢
  rw [h.free, length_drop]
  refine and_congr (by omega) ⟨fun hr j hj => ?_, fun hr j hj => ?_⟩
  · rw [h.refuses]
    exact hr _ (by omega)
  · by_cases hlt : j < k
    · exact hs.2 j hlt
    · have := hr (j - k) (by omega)
      rwa [h.refuses, Nat.sub_add_cancel (by omega)] at this

theorem Spent.trans (h : Spent k s s') (h' : Spent m s' s'') : Spent (k + m) s s'' where
  supply := h.supply_iff.2 h'.supply
  free := by rw [h'.free, h.free, drop_drop]
  refuses j := by rw [h'.refuses, h.refuses, Nat.add_assoc, Nat.add_comm m k]

end

/-! ## `kalloc` and `kfree` -/

theorem wp_kalloc {Q : ℕ → Vm → Prop} (hnone : ¬ Supply 1 s → Q 0 s.answered)
    (hsome : ∀ pa rest, s.free = pa :: rest → Supply 1 s →
      Q pa ({ s.answered with free := rest }.setPage pa fun _ => 5)) : wp kalloc Q E s := by
  simp only [kalloc, wp_bind, wp_get, wp_modify, wp_ite]
  split
  · rename_i hr
    exact hnone fun hs => by cases (hs.2 0 Nat.one_pos).symm.trans hr
  · rename_i hr
    split
    · rename_i hf
      exact hnone fun hs => by simpa [hf] using hs.1
    · rename_i pa rest hf
      refine hsome pa rest hf ⟨by simp [hf], fun j hj => ?_⟩
      obtain rfl : j = 0 := by omega
      simpa using hr

/-- One page is handed out. -/
theorem Spent.one {rest : List ℕ} (hs : Supply 1 s) (hf : s.free = pa :: rest)
    (hfree : s'.free = rest) (hr : s'.refuses = s.answered.refuses) : Spent 1 s s' :=
  ⟨hs, by rw [hfree, hf]; rfl, fun j => by rw [hr]; rfl⟩

theorem wp_kfree {Q : Unit → Vm → Prop} (hpa : pa ∈ frames s.kend)
    (h : Q () ({ s with free := pa :: s.free }.setPage pa fun _ => 1)) : wp (kfree pa) Q E s := by
  simp only [kfree, wp_bind, wp_get, wp_modify, wp_ite]
  rw [if_neg]
  · exact h
  · obtain ⟨h₁, h₂, h₃⟩ := hpa
    simp only [PGSIZE]
    omega

/-! ## `walk` -/

/-- The indices of an address from a level down to level 1. -/
def down (va : ℕ) : ℕ → List ℕ
  | 0 => []
  | level + 1 => PX (level + 1) va :: down va level

/-- The paths of the page-table pages that `walkDown` visits below the path `p`. -/
def pathsDown (va : ℕ) : ℕ → List ℕ → List (List ℕ)
  | 0, _ => []
  | level + 1, p => (p ++ [PX (level + 1) va]) :: pathsDown va level (p ++ [PX (level + 1) va])

/-- The number of page-table pages that are missing below the path `p`. -/
def gapDown (s : Vm) (r va level : ℕ) (p : List ℕ) : ℕ :=
  (pathsDown va level p).countP fun q => s.node r q = 0

/-- The number of page-table pages that are missing for the address `va`. -/
def gap (s : Vm) (r va : ℕ) : ℕ := gapDown s r va 2 []

theorem gapDown_le (s : Vm) (r va l : ℕ) (p : List ℕ) : gapDown s r va l p ≤ l := by
  refine countP_le_length.trans (le_of_eq ?_)
  induction l generalizing p with
  | zero => rfl
  | succ l ih => rw [pathsDown, length_cons, ih]

theorem length_le_of_mem_pathsDown {va l : ℕ} {p q : List ℕ} (h : q ∈ pathsDown va l p) :
    q.length ≤ p.length + l := by
  induction l generalizing p with
  | zero => cases h
  | succ l ih =>
    rcases mem_cons.1 h with rfl | h
    · simp
    · have := ih h
      simp at this
      omega

theorem length_of_mem_pathsDown {va l : ℕ} {p q : List ℕ} (h : q ∈ pathsDown va l p) :
    p.length < q.length := by
  induction l generalizing p with
  | zero => cases h
  | succ l ih =>
    rcases mem_cons.1 h with rfl | h
    · simp
    · exact lt_trans (by simp) (ih h)

/-- From `s` to `s'`, the page-table pages at the paths `l` have been added to the page table `t`. -/
structure Paved (ρ : ι → ℕ) (t : ι) (l : List (List ℕ)) (s s' : Vm) : Prop where
  spent : Spent (l.countP fun q => s.node (ρ t) q = 0) s s'
  nodes : ∀ q, q.length ≤ 2 → (s'.node (ρ t) q = 0 ↔ s.node (ρ t) q = 0 ∧ q ∉ l)

/-- Without `alloc`, `walk` reads. -/
theorem wp_walkDown {l : ℕ} (hD : Depth owned) (h : Heap owned ρ g F s)
    (hp : p.length + l = 2) (hb : s.node (ρ t) p ≠ 0) :
    wp (walkDown va false l (s.node (ρ t) p)) (fun r s' => s' = s ∧
      r = if s.node (ρ t) (p ++ down va l) = 0 then none else some (s.node (ρ t) (p ++ down va l))) E s := by
  induction l generalizing p with
  | zero => simp [walkDown, down, hb]
  | succ l ih =>
    have hnext : s.node (ρ t) (p ++ [PX (l + 1) va]) = child (s.ent (s.node (ρ t) p) (PX (l + 1) va)) := by
      rw [node_append, node_cons, node_nil]
    have happ : p ++ down va (l + 1) = p ++ [PX (l + 1) va] ++ down va l := by simp [down]
    simp only [walkDown, readPte, wp_bind, wp_get, wp_pure, wp_ite]
    rw [pte_eq_ent (h.node_aligned hD) hb (PX_lt _ _), happ]
    rcases h.inner t p (PX (l + 1) va) (by omega) with he | ⟨he, hne, -⟩
    · rw [he, if_neg (by decide), node_append, hnext, he, child_zero, node_zero]
      simp
    · have hv : has (s.ent (s.node (ρ t) p) (PX (l + 1) va)) PTE_V = true := by
        rw [has_valid]
        omega
      rw [if_pos hv]
      have hpa : PTE2PA (s.ent (s.node (ρ t) p) (PX (l + 1) va)) =
          s.node (ρ t) (p ++ [PX (l + 1) va]) := by rw [hnext, child, if_pos hv]
      rw [hpa]
      exact ih (by simp; omega) (by rwa [hnext])

/-- The address of an entry, or 0 if there is no page-table page for it. -/
theorem wp_walk {Q : ℕ → Vm → Prop} (hD : Depth owned)
    (h : Heap owned ρ g F s) (hva : va < MAXVA) (ht : ρ t ≠ 0)
    (hnone : s.node (ρ t) [PX 2 va, PX 1 va] = 0 → Q 0 s)
    (hsome : s.node (ρ t) [PX 2 va, PX 1 va] ≠ 0 →
      Q (s.node (ρ t) [PX 2 va, PX 1 va] + 8 * PX 0 va) s) :
    wp (walk (ρ t) va false) Q E s := by
  have hlt : ¬ MAXVA ≤ va := by omega
  simp only [walk, if_neg hlt]
  refine wp_call (wp_walkDown hD h (p := []) rfl ht) fun r s' hr => ?_
  obtain ⟨rfl, rfl⟩ := hr
  rw [show ([] ++ down va 2 : List ℕ) = [PX 2 va, PX 1 va] from rfl]
  by_cases hn : s'.node (ρ t) [PX 2 va, PX 1 va] = 0
  · rw [if_pos hn]
    exact hnone hn
  · rw [if_neg hn]
    exact hsome hn

/-- The first free page is handed out and cleared. -/
theorem Heap.takeZero (hD : Depth owned) (h : Heap owned ρ g F s) {rest : List ℕ}
    (hf : s.free = pa :: rest) {s' : Vm}
    (hs' : s' = ({ s.answered with free := rest }.setPage pa fun _ => 5).setPage pa Bytes.zero) :
    Heap owned ρ g (insert pa F) s' ∧ Grows ρ s s' ∧ (∀ j, s'.ent pa j = 0) ∧ s'.free = rest ∧
      (∀ t va, s'.leaf (ρ t) va = s.leaf (ρ t) va) ∧
      (∀ t p, p.length ≤ 2 → s'.node (ρ t) p = s.node (ρ t) p) ∧
      ∀ t p i, p.length ≤ 2 → s'.ent (s.node (ρ t) p) i = s.ent (s.node (ρ t) p) i := by
  have hmem : pa ∈ s.free := by rw [hf]; exact mem_cons_self
  have hfr := h.free pa hmem
  have hun := h.noTable_of_free hD hmem
  have e : s' = { s.answered with free := rest }.setPage pa Bytes.zero := by
    rw [hs']
    simp only [setPage, update_idem]
  subst e
  refine ⟨h.answered.take hD hf _, (Grows.answered ρ s).trans (.take hD h.answered hf _),
    fun j => ent_setPage_zero rfl, rfl, fun t va => h.leaf_setPage hD hfr.1 hun _ va,
    fun t p hp => ?_, fun t p i hp => ?_⟩
  · exact h.node_setPage hD hfr.1 hun _ (by omega)
  · exact ent_setPage_of_ne (h.div_ne hD hfr.1 (hun t p hp))

/-- The first free page is handed out, cleared and stored in an empty entry. -/
theorem Heap.newTable {i : ℕ} (hD : Depth owned)
    (h : Heap owned ρ g F s) (hp : p.length ≤ 1) (hi : i < 512) (hroot : p = [] → i < 256)
    (hb : s.node (ρ t) p ≠ 0) (he : s.ent (s.node (ρ t) p) i = 0) {rest : List ℕ} (hf : s.free = pa :: rest) {s₁ : Vm}
    (hs₁ : s₁ = ({ s.answered with free := rest }.setPage pa fun _ => 5).setPage pa Bytes.zero) :
    Heap owned ρ g F (s₁.setPte (s.node (ρ t) p + 8 * i) (PA2PTE pa ||| PTE_V)) ∧
    Grows ρ s (s₁.setPte (s.node (ρ t) p + 8 * i) (PA2PTE pa ||| PTE_V)) ∧
    Spares owned (ρ t) s (s₁.setPte (s.node (ρ t) p + 8 * i) (PA2PTE pa ||| PTE_V)) ∧
    (∀ t' va, (s₁.setPte (s.node (ρ t) p + 8 * i) (PA2PTE pa ||| PTE_V)).leaf (ρ t') va =
      s.leaf (ρ t') va) ∧
    (s₁.setPte (s.node (ρ t) p + 8 * i) (PA2PTE pa ||| PTE_V)).node (ρ t) (p ++ [i]) = pa ∧
    (s₁.setPte (s.node (ρ t) p + 8 * i) (PA2PTE pa ||| PTE_V)).free = rest ∧
    ∀ q, q.length ≤ 2 → q ≠ p ++ [i] →
      (s₁.setPte (s.node (ρ t) p + 8 * i) (PA2PTE pa ||| PTE_V)).node (ρ t) q = s.node (ρ t) q := by
  have hmem : pa ∈ s.free := by rw [hf]; exact mem_cons_self
  have hfr := h.free pa hmem
  have hlt : pa < 2 ^ 64 := hfr.2.2.trans (by decide)
  have hF : pa ∉ F := fun hpa => (h.ledger.used_iff pa hfr).2 (.inr hpa) hmem
  obtain ⟨h₁, g₁, hz, hfree, hleaf, hnode, hent⟩ := h.takeZero hD hf hs₁
  have hb₁ : s₁.node (ρ t) p ≠ 0 := by rwa [hnode t p (by omega)]
  have he₁ : s₁.ent (s₁.node (ρ t) p) i = 0 := by rw [hnode t p (by omega), hent t p i (by omega), he]
  have hpte : PA2PTE pa ||| PTE_V = pa / 4096 * 1024 + 1 := lor_eq_add (b := 1) (by decide)
  have hsp₁ : Spares owned (ρ t) s s₁ := by
    have hs : Spares owned (ρ t) s { s.answered with free := rest } := fun _ _ => rfl
    rw [hs₁]
    exact (hs.fill hfr.1 (not_foreign_of_free hmem) _).fill hfr.1 (not_foreign_of_free hmem) _
  have hsp := hsp₁.setPte (v := PA2PTE pa ||| PTE_V) (h.node_aligned hD) hi
    (not_foreign_node (hD.table p (by omega)))
  rw [← hnode t p (by omega), hpte] at hsp ⊢
  refine ⟨?_, ?_, hsp, fun t' va => ?_, ?_, hfree, fun q hq hne => ?_⟩
  · have := h₁.attachTable hD hp hi hb₁ hroot he₁ (mem_insert pa F) hz
    rwa [insert_sdiff_self_of_notMem hF] at this
  · exact g₁.attachTable hD h₁ hp hi hb₁ he₁ (mem_insert pa F) hz hmem
  · exact (h₁.leaf_attachTable hD hp hi hb₁ he₁ (mem_insert pa F) hz t' va).trans (hleaf t' va)
  · rw [h₁.node_setPte_below hD (by omega) hi hb₁, node_nil, mod_eq_of_lt (by omega)]
    exact child_entry (m := 0) hfr.1 hlt (by decide)
  · by_cases hbel : ∃ rest, q = p ++ i :: rest
    · -- below the new page there is nothing, as before
      obtain ⟨rest, rfl⟩ := hbel
      cases rest with
      | nil => exact absurd rfl hne
      | cons k rest =>
        have hdiv : pa / 4096 ≠ s₁.node (ρ t) p / 4096 :=
          (h₁.div_ne hD hfr.1 (h₁.noTable_of_float hD (mem_insert pa F) t p (by omega))).symm
        rw [h₁.node_setPte_below hD (by omega) hi hb₁, mod_eq_of_lt (by omega),
          show pa / 4096 * 1024 + 1 = pa / 4096 * 1024 + (0 ||| 1) from rfl,
          child_entry hfr.1 hlt (by decide), node_cons,
          ent_setPte_of_ne (h₁.node_aligned hD) hi fun e => hdiv e.1, hz, child_zero, node_zero,
          node_append, node_cons, he, child_zero, node_zero]
    · rw [h₁.node_setPte hD (by omega) hi hb₁ (by omega) fun rest e => hbel ⟨rest, e.2⟩, hnode t q hq]

/-- With `alloc`, `walk` may create page-table pages. -/
theorem wp_walkDown_alloc {l : ℕ} (hD : Depth owned)
    (h : Heap owned ρ g F s) (hva : va < MAXVA) (hp : p.length + l = 2) (hb : s.node (ρ t) p ≠ 0) :
    wp (walkDown va true l (s.node (ρ t) p)) (fun r s' => Heap owned ρ g F s' ∧ Grows ρ s s' ∧
      Spares owned (ρ t) s s' ∧ (∀ t va, s'.leaf (ρ t) va = s.leaf (ρ t) va) ∧
      (∀ b, r = some b → b ≠ 0 ∧ b = s'.node (ρ t) (p ++ down va l) ∧
        Paved ρ t (pathsDown va l p) s s') ∧
      (r = none → ¬ Supply (gapDown s (ρ t) va l p) s)) E s := by
  induction l generalizing s F p with
  | zero =>
    simp only [walkDown, wp_pure, down, append_nil]
    refine ⟨h, .refl ρ s, .refl _ _ s, fun _ _ => trivial, fun b hr => ?_, fun hr => by cases hr⟩
    cases hr
    exact ⟨hb, rfl, .refl s, fun q _ => by simp [pathsDown]⟩
  | succ l ih =>
    have hi := PX_lt (l + 1) va
    have happ : p ++ down va (l + 1) = p ++ [PX (l + 1) va] ++ down va l := by simp [down]
    simp only [walkDown, readPte, wp_bind, wp_get, wp_pure, wp_ite]
    rw [pte_eq_ent (h.node_aligned hD) hb hi, happ]
    rcases h.inner t p (PX (l + 1) va) (by omega) with he | ⟨he, hne, -⟩
    · -- no page-table page there
      rw [he, if_neg (by decide)]
      simp only [Bool.not_true, Bool.false_eq_true, if_false, clearPage, writePte]
      have hzero : s.node (ρ t) (p ++ [PX (l + 1) va]) = 0 := by
        rw [node_append, node_cons, node_nil, he, child_zero]
      have hgap : gapDown s (ρ t) va (l + 1) p = 1 + gapDown s (ρ t) va l (p ++ [PX (l + 1) va]) := by
        rw [gapDown, pathsDown, countP_cons_of_pos (by simpa using hzero), Nat.add_comm]
        rfl
      refine wp_kalloc (fun hno => ?_) fun pa rest hf hsup => ?_
      · rw [if_pos rfl]
        refine ⟨h.answered, .answered ρ s, fun _ _ => rfl, fun _ _ => rfl, fun b hr => (by cases hr),
          fun _ hs => hno ?_⟩
        rw [hgap] at hs
        exact ⟨by have := hs.1; omega, fun j hj => hs.2 j (by omega)⟩
      · have hmem : pa ∈ s.free := by rw [hf]; exact mem_cons_self
        have hfr := h.free pa hmem
        rw [if_neg (h.ne_zero hfr)]
        have hroot : p = [] → PX (l + 1) va < 256 := by
          rintro rfl
          obtain rfl : l = 1 := by simpa using hp
          exact PX_root_lt hva
        obtain ⟨h', g', hsp, hleaf, hnode, hfree, hnodes⟩ := h.newTable hD (by omega) hi hroot hb he hf rfl
        have hspent := Spent.one hsup hf hfree rfl
        have hlen : (p ++ [PX (l + 1) va]).length + l = 2 := by simp; omega
        have hrec := ih h' hlen (by rw [hnode]; exact h.ne_zero hfr)
        rw [hnode] at hrec
        refine wp_mono hrec (fun r s' hq => ?_) fun _ _ he => he
        obtain ⟨hh, hg, hsp', hl, hsome, hnone⟩ := hq
        -- the pages that are missing further down
        have hnot : p ++ [PX (l + 1) va] ∉ pathsDown va l (p ++ [PX (l + 1) va]) := fun hm =>
          absurd (length_of_mem_pathsDown hm) (lt_irrefl _)
        have hcount : ∀ {s₁ : Vm}, (∀ q, q.length ≤ 2 → q ≠ p ++ [PX (l + 1) va] →
            s₁.node (ρ t) q = s.node (ρ t) q) →
            (pathsDown va l (p ++ [PX (l + 1) va])).countP (fun q => s₁.node (ρ t) q = 0) =
              gapDown s (ρ t) va l (p ++ [PX (l + 1) va]) := fun hn => by
          refine countP_congr fun q hq => ?_
          rw [hn q (by have := length_le_of_mem_pathsDown hq; omega) fun e => hnot (e ▸ hq)]
        refine ⟨hh, g'.trans hg, h.spares_trans hD h' le_rfl (fun _ _ => rfl) g'.kend hsp hsp',
          fun t va => (hl t va).trans (hleaf t va), fun b hr => ?_, fun hr hs => hnone hr ?_⟩
        · obtain ⟨hb', e, hp'⟩ := hsome b hr
          refine ⟨hb', e, ?_, fun q hq => ?_⟩
          · have := hspent.trans hp'.spent
            rw [hcount hnodes, ← hgap] at this
            exact this
          · rw [hp'.nodes q hq, pathsDown, mem_cons, not_or]
            by_cases e : q = p ++ [PX (l + 1) va]
            · rw [e, hnode]
              exact iff_of_false (fun hz => h.ne_zero hfr hz.1) fun hz => hz.2.1 rfl
            · rw [hnodes q hq e]
              exact and_congr_right fun _ => ⟨fun hn => ⟨e, hn⟩, And.right⟩
        · rw [hgap] at hs
          have := hspent.supply_iff.1 hs
          rwa [← hcount hnodes] at this
    · have hv : has (s.ent (s.node (ρ t) p) (PX (l + 1) va)) PTE_V = true := by
        rw [has_valid]
        omega
      rw [if_pos hv]
      have hnext : s.node (ρ t) (p ++ [PX (l + 1) va]) = child (s.ent (s.node (ρ t) p) (PX (l + 1) va)) := by
        rw [node_append, node_cons, node_nil]
      have hpa : PTE2PA (s.ent (s.node (ρ t) p) (PX (l + 1) va)) =
          s.node (ρ t) (p ++ [PX (l + 1) va]) := by rw [hnext, child, if_pos hv]
      rw [hpa]
      refine wp_mono (ih h (by simp; omega) (by rwa [hnext])) (fun r s' hq => ?_) fun _ _ he => he
      obtain ⟨hh, hg, hsp, hl, hsome, hnone⟩ := hq
      have hgap : (pathsDown va (l + 1) p).countP (fun q => s.node (ρ t) q = 0) =
          gapDown s (ρ t) va l (p ++ [PX (l + 1) va]) := by
        rw [pathsDown, countP_cons_of_neg (by simpa [hnext] using hne)]
        rfl
      refine ⟨hh, hg, hsp, hl, fun b hr => ?_, fun hr hs => hnone hr (by rwa [gapDown, hgap] at hs)⟩
      obtain ⟨hb', e, hp'⟩ := hsome b hr
      refine ⟨hb', e, by rw [hgap]; exact hp'.spent, fun q hq => ?_⟩
      rw [hp'.nodes q hq, pathsDown, mem_cons, not_or]
      refine and_congr_right fun hz => ⟨fun hn => ⟨fun e => hne ?_, hn⟩, And.right⟩
      rw [← hnext, ← e, hz]

/-- `walk` with `alloc` fails only for lack of pages. -/
theorem wp_walk_alloc (hD : Depth owned)
    (h : Heap owned ρ g F s) (hva : va < MAXVA) (ht : ρ t ≠ 0) :
    wp (walk (ρ t) va true) (fun a s' => Heap owned ρ g F s' ∧ Grows ρ s s' ∧
      Spares owned (ρ t) s s' ∧ (∀ t va, s'.leaf (ρ t) va = s.leaf (ρ t) va) ∧
      (a ≠ 0 → s'.node (ρ t) [PX 2 va, PX 1 va] ≠ 0 ∧
        a = s'.node (ρ t) [PX 2 va, PX 1 va] + 8 * PX 0 va ∧ Paved ρ t (pathsDown va 2 []) s s') ∧
      (a = 0 → ¬ Supply (gap s (ρ t) va) s)) E s := by
  have hlt : ¬ MAXVA ≤ va := by omega
  simp only [walk, if_neg hlt]
  refine wp_call (wp_walkDown_alloc hD h hva (p := []) rfl ht) fun r s' hr => ?_
  obtain ⟨h', hg, hsp, hl, hsome, hnone⟩ := hr
  rw [show ([] ++ down va 2 : List ℕ) = [PX 2 va, PX 1 va] from rfl] at hsome
  cases r with
  | none =>
    rw [wp_pure]
    exact ⟨h', hg, hsp, hl, fun e => absurd rfl e, fun _ => hnone rfl⟩
  | some b =>
    obtain ⟨hb, rfl, hp⟩ := hsome b rfl
    rw [wp_pure]
    exact ⟨h', hg, hsp, hl, fun _ => ⟨hb, rfl, hp⟩, fun e => by omega⟩

end Xv6
