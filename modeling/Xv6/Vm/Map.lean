import Xv6.Vm.Walk

/-!
# Mapping and unmapping

`mappages` and `uvmunmap` go over a range of pages; the lemmas `wp_mapLoop_succ` and
`wp_unmapLoop_succ` are about one page of it. What a page does to the translations is `Sets`: one leaf
gets a new entry and no other leaf of any page table changes.
-/

namespace Xv6

open Function Prog Vm Set Nat

variable {E : VmPanic → Vm → Prop}

/-- The path of the page that the address `va` is mapped to. -/
def place (va : ℕ) : List ℕ := [PX 2 va, PX 1 va, PX 0 va]

/-- The entry that `mappages` stores. -/
def leafEntry (pa perm : ℕ) : ℕ := pa / 4096 * 1024 + (perm ||| 1)

variable {pa va perm : ℕ}

theorem perm_lor_lt (hperm : perm < 1024) : perm ||| 1 < 1024 :=
  or_lt_two_pow (n := 10) hperm (by decide)

theorem leafEntry_eq (hperm : perm < 1024) : PA2PTE pa ||| perm ||| PTE_V = leafEntry pa perm :=
  entry_eq hperm

theorem leafEntry_lt (hpa : pa < 2 ^ 64) (hperm : perm < 1024) : leafEntry pa perm < 2 ^ 64 := by
  have := perm_lor_lt hperm
  unfold leafEntry
  omega

theorem has_leafEntry : has (leafEntry pa perm) PTE_V = true := has_entry _

theorem has_flag_leafEntry {f : ℕ} (hf : f < 1024) (hperm : perm < 1024) :
    has (leafEntry pa perm) f = has (perm ||| 1) f := by
  have := perm_lor_lt hperm
  rw [has_mod hf, show leafEntry pa perm % 1024 = perm ||| 1 by unfold leafEntry; omega]

/-- An entry gives back the page it was made of ... -/
theorem PTE2PA_leafEntry (hpa : pa < 2 ^ 64) (hperm : perm < 1024) :
    PTE2PA (leafEntry pa perm) = pa / 4096 * 4096 := by
  have := perm_lor_lt hperm
  unfold leafEntry PTE2PA
  omega

theorem PTE_FLAGS_leafEntry (hperm : perm < 1024) : PTE_FLAGS (leafEntry pa perm) = perm ||| PTE_V := by
  have := perm_lor_lt hperm
  unfold leafEntry PTE_FLAGS
  simp only [PTE_V]
  omega

theorem child_leafEntry (hpa : pa < 2 ^ 64) (hperm : perm < 1024) :
    child (leafEntry pa perm) = pa / 4096 * 4096 := by
  rw [child, if_pos has_leafEntry, PTE2PA_leafEntry hpa hperm]

variable {ι X : Type} {owned : List ℕ → Bool} {ρ : ι → ℕ} {g : X → ℕ}
  {F : Set ℕ} {s s' s'' : Vm} {t : ι} {v : ℕ}

open Classical in
/-- From `s` to `s'`, the leaf for `va` in the page table `t` becomes `e`; no other leaf changes. -/
def Sets (ρ : ι → ℕ) (t : ι) (va e : ℕ) (s s' : Vm) : Prop :=
  ∀ t' va', va' < MAXVA →
    s'.leaf (ρ t') va' = if t' = t ∧ va' / 4096 = va / 4096 then e else s.leaf (ρ t') va'

theorem Heap.sets_setPte (hD : Depth owned) (h : Heap owned ρ g F s) (hva : va < MAXVA)
    (hb : s.node (ρ t) [PX 2 va, PX 1 va] ≠ 0) :
    Sets ρ t va (v % 2 ^ 64) s (s.setPte (s.node (ρ t) [PX 2 va, PX 1 va] + 8 * PX 0 va) v) := by
  intro t' va' hva'
  split
  · rename_i e
    rw [e.1, leaf_congr_page e.2]
    exact h.leaf_setPte_self hD hb
  · rename_i hne
    exact h.leaf_setPte_of_ne hD hva hb hva' hne

/-! ## Roots -/

/-- The root of a page table that there is not yet. -/
theorem Heap.attachRoot [DecidableEq ι] (hD : Depth owned) (h : Heap owned ρ g F s) (ht : ρ t = 0) (hpa : pa ∈ F)
    (hz : ∀ j, s.ent pa j = 0) :
    Heap owned (update ρ t pa) g (F \ {pa}) s ∧
      ∀ t' va, s.leaf (update ρ t pa t') va = s.leaf (ρ t') va := by
  classical
  have hcons : ∀ i p, s.node pa (i :: p) = 0 := fun i p => by
    rw [node_cons, hz, child_zero, node_zero]
  have hrefs : refs owned (update ρ t pa) g s =
      update (refs owned ρ g s) (.inl (t, [])) pa := by
    funext q
    by_cases e : q = .inl (t, [])
    · subst e
      rw [update_self]
      simp only [refs, hD.table [] (by simp), if_true, update_self, node_nil]
    · rw [update_of_ne e]
      rcases q with ⟨t', p⟩ | x
      · by_cases et : t' = t
        · subst et
          cases p with
          | nil => exact absurd rfl e
          | cons i p => simp only [refs, update_self, hcons, ht, node_zero]
        · simp only [refs, update_of_ne et]
      · rfl
  refine ⟨⟨h.kend, ?_, fun t' p i hp => ?_, h.nodup, h.free⟩, fun t' va => ?_⟩
  · rw [hrefs]
    refine h.ledger.attach ?_ hpa
    simp only [refs, ht, node_zero, ite_self]
  · by_cases et : t' = t
    · subst et
      rw [update_self]
      cases p with
      | nil => exact .inl (hz i)
      | cons j p =>
        left
        rw [hcons, ent_zero]
    · rw [update_of_ne et]
      exact h.inner t' p i hp
  · by_cases et : t' = t
    · subst et
      rw [update_self, leaf, hcons, ent_zero, ht, leaf, node_zero, ent_zero]
    · rw [update_of_ne et]

/-- `uvmcreate` returns a new root, or 0. -/
theorem wp_uvmcreate [DecidableEq ι] (hD : Depth owned) (h : Heap owned ρ g F s)
    (ht : ρ t = 0) :
    wp uvmcreate (fun r s' => Heap owned (update ρ t r) g F s' ∧ Grows ρ s s' ∧
      Spares owned (ρ t) s s' ∧
      ∀ t' va, s'.leaf (update ρ t r t') va = s.leaf (ρ t') va) E s := by
  simp only [uvmcreate, wp_bind, clearPage]
  refine wp_kalloc (fun _ => ?_) fun pa rest hf _ => ?_
  · rw [if_pos rfl, wp_pure, ← ht, update_eq_self]
    exact ⟨h.answered, .answered ρ s, fun _ _ => rfl, fun _ _ => rfl⟩
  · have hmem : pa ∈ s.free := by rw [hf]; exact List.mem_cons_self
    have hF : pa ∉ F := fun hpa => (h.ledger.used_iff pa (h.free pa hmem)).2 (.inr hpa) hmem
    rw [if_neg (h.ne_zero (h.free pa hmem))]
    obtain ⟨h₁, g₁, hz, -, hleaf, -, -⟩ := h.takeZero hD hf rfl
    obtain ⟨h₂, hleaf₂⟩ := h₁.attachRoot hD ht (mem_insert pa F) hz
    rw [insert_sdiff_self_of_notMem hF] at h₂
    have hs : Spares owned (ρ t) s { s.answered with free := rest } := fun _ _ => rfl
    have ha := (h.free pa hmem).1
    exact ⟨h₂, g₁, (hs.fill ha (not_foreign_of_free hmem) _).fill ha (not_foreign_of_free hmem) _,
      fun t' va => (hleaf₂ t' va).trans (hleaf t' va)⟩

/-! ## `mappages` -/

/-- One page of `mappages`: it is mapped, unless memory runs out. -/
theorem wp_mapLoop_succ {n : ℕ} {Q : ℤ → Vm → Prop} (hD : Depth owned)
    (h : Heap owned ρ g F s) (ht : ρ t ≠ 0) (hva : va < MAXVA) (hpa : pa < 2 ^ 64)
    (hperm : perm < 1024) (hun : has (s.leaf (ρ t) va) PTE_V = false)
    (hF : owned (place va) = true → pa / 4096 * 4096 ∈ F)
    (hfail : ∀ s', Heap owned ρ g F s' → Grows ρ s s' → Spares owned (ρ t) s s' →
      (∀ t va, s'.leaf (ρ t) va = s.leaf (ρ t) va) → ¬ Supply (gap s (ρ t) va) s → Q (-1) s')
    (hok : ∀ s', Heap owned ρ g (F \ {b | owned (place va) = true ∧ b = pa / 4096 * 4096}) s' →
      Grows ρ s s' → Spares owned (ρ t) s s' → Sets ρ t va (leafEntry pa perm) s s' →
      Paved ρ t (pathsDown va 2 []) s s' →
      wp (mapLoop (ρ t) perm n ((va + PGSIZE) % 2 ^ 64) ((pa + PGSIZE) % 2 ^ 64)) Q E s') :
    wp (mapLoop (ρ t) perm (n + 1) va pa) Q E s := by
  rw [mapLoop]
  refine wp_call (wp_walk_alloc hD h hva ht) fun a s₁ hw => ?_
  obtain ⟨h₁, g₁, hsp, hleaf, ha, hnone⟩ := hw
  rw [wp_ite]
  split
  · rename_i e
    exact hfail s₁ h₁ g₁ hsp hleaf (hnone e)
  · rename_i hne
    obtain ⟨hb, rfl, hp⟩ := ha hne
    simp only [readPte, writePte, wp_bind, wp_get, wp_pure, wp_ite, wp_modify]
    have hold : s₁.ent (s₁.node (ρ t) [PX 2 va, PX 1 va]) (PX 0 va) = s.leaf (ρ t) va := hleaf t va
    have hlt := leafEntry_lt hpa hperm
    rw [pte_eq_ent (h₁.node_aligned hD) hb (PX_lt 0 va), hold, hun, if_neg (by decide),
      leafEntry_eq hperm]
    have hchild : child (leafEntry pa perm % 2 ^ 64) = pa / 4096 * 4096 := by
      rw [mod_eq_of_lt hlt, child_leafEntry hpa hperm]
    have hown : ¬ Foreign owned (ρ t) s (s₁.node (ρ t) [PX 2 va, PX 1 va]) :=
      h.not_foreign_of_spares hD h₁ le_rfl (fun _ _ => rfl) g₁.kend hsp (hD.table _ (by simp))
    refine hok _ ?_ (g₁.setLeaf hD h₁ hb) (hsp.setPte (h₁.node_aligned hD) (PX_lt 0 va) hown) ?_
      ⟨⟨hp.spent.supply, hp.spent.free, hp.spent.refuses⟩, fun q hq => ?_⟩
    · have := h₁.attachLeaf (v := leafEntry pa perm) hD rfl (PX_lt 0 va) hb
        (by rw [hold, child, hun]; rfl) (by rw [hchild]; exact hF)
      rwa [hchild] at this
    · intro t' va' hva'
      rw [h₁.sets_setPte hD hva hb t' va' hva', mod_eq_of_lt hlt, hleaf]
    · rw [h₁.node_setPte hD (by simp) (PX_lt 0 va) hb (by omega) fun rest e => ?_]
      · exact hp.nodes q hq
      · rw [e.2] at hq
        simp at hq

open Classical in
/-- From `s` to `s'`, the `k` leaves from `va` on become the entries `e`; no other leaf changes. -/
def SetsRange (ρ : ι → ℕ) (t : ι) (va k : ℕ) (e : ℕ → ℕ) (s s' : Vm) : Prop :=
  ∀ t' va', va' < MAXVA → s'.leaf (ρ t') va' =
    if t' = t ∧ va / 4096 ≤ va' / 4096 ∧ va' / 4096 < va / 4096 + k
    then e (va' / 4096 - va / 4096) else s.leaf (ρ t') va'

/-- One page, and then the `n` pages after it. -/
theorem Sets.range {n : ℕ} {e f : ℕ → ℕ} (hva : va % 4096 = 0) (he : ∀ j, f j = e (j + 1))
    (h₁ : Sets ρ t va (e 0) s s') (h₂ : SetsRange ρ t (va + 4096) n f s' s'') :
    SetsRange ρ t va (n + 1) e s s'' := by
  intro t' va' hva'
  rw [h₂ t' va' hva', h₁ t' va' hva']
  by_cases et : t' = t
  · by_cases e₁ : va' / 4096 = va / 4096
    · rw [if_neg (by omega), if_pos ⟨et, e₁⟩, if_pos ⟨et, by omega⟩, e₁, Nat.sub_self]
    · by_cases e₂ : (va + 4096) / 4096 ≤ va' / 4096 ∧ va' / 4096 < (va + 4096) / 4096 + n
      · rw [if_pos ⟨et, e₂⟩, if_pos ⟨et, by omega⟩, he]
        congr 1
        omega
      · rw [if_neg (fun hh => e₂ hh.2), if_neg (fun hh => e₁ hh.2), if_neg (by omega)]
  · rw [if_neg (fun hh => et hh.1), if_neg (fun hh => et hh.1), if_neg (fun hh => et hh.1)]

/-- `mappages` maps the first `k` pages of its range; if these are not all it has failed. Here the pages
that are mapped are not owned by the page table. -/
theorem wp_mapLoop {n : ℕ} (hD : Depth owned) (h : Heap owned ρ g F s)
    (ht : ρ t ≠ 0) (hal : va % 4096 = 0) (hva : va + n * 4096 ≤ MAXVA) (hpa : pa < 2 ^ 64)
    (hperm : perm < 1024) (hun : ∀ j < n, has (s.leaf (ρ t) (va + j * 4096)) PTE_V = false)
    (ho : ∀ j < n, owned (place (va + j * 4096)) = false) :
    wp (mapLoop (ρ t) perm n va pa) (fun r s' => Heap owned ρ g F s' ∧ Grows ρ s s' ∧
      ∃ k ≤ n, (r = 0 ∧ k = n ∨ r = -1 ∧ k < n) ∧
        SetsRange ρ t va k (fun j => leafEntry ((pa + j * 4096) % 2 ^ 64) perm) s s') E s := by
  induction n generalizing s va pa with
  | zero =>
    refine ⟨h, .refl ρ s, 0, le_rfl, .inl ⟨rfl, rfl⟩, fun t' va' _ => ?_⟩
    rw [if_neg (by omega)]
  | succ n ih =>
    have hmax : MAXVA < 2 ^ 64 := by decide
    refine wp_mapLoop_succ hD h ht (by omega) hpa hperm (by simpa using hun 0 (by omega))
      (fun e => ?_) (fun s' h' hg _ hl _ => ?_) fun s' h' hg _ hs _ => ?_
    · simp [show owned (place va) = false by simpa using ho 0 (by omega)] at e
    · refine ⟨h', hg, 0, by omega, .inr ⟨rfl, by omega⟩, fun t' va' _ => ?_⟩
      rw [if_neg (by omega), hl]
    · have hF : F \ {b | owned (place va) = true ∧ b = pa / 4096 * 4096} = F := by
        ext b
        simp [show owned (place va) = false by simpa using ho 0 (by omega)]
      rw [hF] at h'
      rw [show (va + PGSIZE) % 2 ^ 64 = va + 4096 from mod_eq_of_lt (by simp only [PGSIZE]; omega)]
      have hadd : ∀ j, va + 4096 + j * 4096 = va + (j + 1) * 4096 := fun j => by ring
      refine wp_mono (ih h' (by omega) (by omega) (mod_lt _ (by decide)) (fun j hj => ?_)
        fun j hj => ?_) (fun r s'' hq => ?_) fun _ _ he => he
      · rw [hs t _ (by omega), if_neg (by omega), hadd]
        exact hun (j + 1) (by omega)
      · rw [hadd]
        exact ho (j + 1) (by omega)
      · obtain ⟨h'', hg', k, hk, hr, hl⟩ := hq
        refine ⟨h'', hg.trans hg', k + 1, by omega, ?_, ?_⟩
        · rcases hr with ⟨rfl, rfl⟩ | ⟨rfl, hlt⟩
          · exact .inl ⟨rfl, rfl⟩
          · exact .inr ⟨rfl, by omega⟩
        · have hs₀ : Sets ρ t va (leafEntry ((pa + 0 * 4096) % 2 ^ 64) perm) s s' := by
            rw [Nat.zero_mul, Nat.add_zero, mod_eq_of_lt hpa]
            exact hs
          refine Sets.range (e := fun j => leafEntry ((pa + j * 4096) % 2 ^ 64) perm)
            (f := fun j => leafEntry (((pa + PGSIZE) % 2 ^ 64 + j * 4096) % 2 ^ 64) perm) hal (fun j => ?_)
            hs₀ hl
          have hmod : ((pa + PGSIZE) % 2 ^ 64 + j * 4096) % 2 ^ 64 = (pa + (j + 1) * 4096) % 2 ^ 64 := by
            rw [mod_add_mod, Nat.add_assoc, Nat.add_mul, Nat.one_mul, Nat.add_comm (j * 4096)]
          rw [hmod]

theorem wp_mappages {n : ℕ} (hD : Depth owned) (h : Heap owned ρ g F s)
    (ht : ρ t ≠ 0) (hal : va % 4096 = 0) (hn : 0 < n) (hva : va + n * 4096 ≤ MAXVA) (hpa : pa < 2 ^ 64)
    (hperm : perm < 1024) (hun : ∀ j < n, has (s.leaf (ρ t) (va + j * 4096)) PTE_V = false)
    (ho : ∀ j < n, owned (place (va + j * 4096)) = false) :
    wp (mappages (ρ t) va (n * 4096) pa perm) (fun r s' => Heap owned ρ g F s' ∧ Grows ρ s s' ∧
      ∃ k ≤ n, (r = 0 ∧ k = n ∨ r = -1 ∧ k < n) ∧
        SetsRange ρ t va k (fun j => leafEntry ((pa + j * 4096) % 2 ^ 64) perm) s s') E s := by
  rw [mappages, if_neg (by simpa using hal), if_neg (by simp), if_neg (by omega),
    show n * 4096 / PGSIZE = n from Nat.mul_div_cancel _ (by decide)]
  exact wp_mapLoop hD h ht hal hva hpa hperm hun ho

theorem wp_mappages_one {Q : ℤ → Vm → Prop} (hal : va % 4096 = 0) (h : wp (mapLoop (ρ t) perm 1 va pa) Q E s) :
    wp (mappages (ρ t) va PGSIZE pa perm) Q E s := by
  rwa [mappages, if_neg (by simpa using hal), if_neg (by simp), if_neg (by simp),
    show PGSIZE / PGSIZE = 1 from rfl]

/-! ## `uvmunmap` -/

/-- One page of `uvmunmap`: it has no valid leaf, or the leaf is cleared. -/
theorem wp_unmapLoop_succ {n : ℕ} {doFree : Bool} {Q : Unit → Vm → Prop}
    (hD : Depth owned) (h : Heap owned ρ g F s) (ht : ρ t ≠ 0) (hva : va < MAXVA)
    (hskip : has (s.leaf (ρ t) va) PTE_V = false →
      wp (unmapLoop (ρ t) doFree n (va + PGSIZE)) Q E s)
    (hkeep : s.node (ρ t) [PX 2 va, PX 1 va] ≠ 0 → has (s.leaf (ρ t) va) PTE_V = true →
      doFree = false → wp (unmapLoop (ρ t) doFree n (va + PGSIZE)) Q E
        (s.setPte (s.node (ρ t) [PX 2 va, PX 1 va] + 8 * PX 0 va) 0))
    (hfree : s.node (ρ t) [PX 2 va, PX 1 va] ≠ 0 → has (s.leaf (ρ t) va) PTE_V = true →
      doFree = true → wp (kfree (child (s.leaf (ρ t) va))) (fun _ s' =>
        wp (unmapLoop (ρ t) doFree n (va + PGSIZE)) Q E
          (s'.setPte (s.node (ρ t) [PX 2 va, PX 1 va] + 8 * PX 0 va) 0)) E s) :
    wp (unmapLoop (ρ t) doFree (n + 1) va) Q E s := by
  rw [unmapLoop, wp_bind]
  refine wp_walk hD h hva ht (fun hz => ?_) fun hb => ?_
  · rw [if_pos rfl]
    refine hskip ?_
    rw [leaf, hz, ent_zero]
    decide
  · have hpte : s.pte (s.node (ρ t) [PX 2 va, PX 1 va] + 8 * PX 0 va) = s.leaf (ρ t) va :=
      pte_eq_ent (h.node_aligned hD) hb (PX_lt 0 va)
    rw [if_neg (by omega)]
    simp only [readPte, writePte, wp_bind, wp_get, wp_pure, wp_ite, hpte]
    cases hv : has (s.leaf (ρ t) va) PTE_V with
    | false => exact hskip hv
    | true =>
      rw [child, if_pos hv] at hfree
      cases doFree with
      | false => exact hkeep hb hv rfl
      | true => exact hfree hb hv rfl

/-- Freeing the page of a leaf and clearing the leaf, in the order of the source. -/
theorem Vm.setPage_setPte_comm {a b : ℕ} {d : Page} {l : List ℕ} (hne : a / 4096 ≠ b / 4096) :
    ({ s with free := l }.setPage b d).setPte a v = { s.setPte a v with free := l }.setPage b d := by
  unfold setPte setPage
  simp only [PGSIZE, update_of_ne hne]
  rw [update_comm hne]

/-- The page of a leaf that is to be freed: the page table owns it, or its user holds it. -/
def Freeable (owned : List ℕ → Bool) (ρ : ι → ℕ) (t : ι) (F : Set ℕ) (s : Vm) (va : ℕ) : Prop :=
  owned (place va) = true ∧ child (s.leaf (ρ t) va) ≠ 0 ∨
    owned (place va) = false ∧ child (s.leaf (ρ t) va) ∈ F

namespace Heap

theorem refs_place (ho : owned (place va) = true) :
    refs owned ρ g s (.inl (t, place va)) = child (s.leaf (ρ t) va) := by
  simp only [refs, ho, if_true]
  rfl

theorem leaf_clear (hD : Depth owned) (h : Heap owned ρ g F s) (hva : va < MAXVA)
    (hb : s.node (ρ t) [PX 2 va, PX 1 va] ≠ 0) :
    Sets ρ t va 0 s (s.setPte (s.node (ρ t) [PX 2 va, PX 1 va] + 8 * PX 0 va) 0) :=
  h.sets_setPte (v := 0) hD hva hb

/-- A leaf is cleared. Its page floats if the page table owns it. -/
theorem dropLeaf (hD : Depth owned) (h : Heap owned ρ g F s)
    (hb : s.node (ρ t) [PX 2 va, PX 1 va] ≠ 0) :
    Heap owned ρ g (F ∪ {b | b ≠ 0 ∧ owned (place va) = true ∧ child (s.leaf (ρ t) va) = b})
      (s.setPte (s.node (ρ t) [PX 2 va, PX 1 va] + 8 * PX 0 va) 0) :=
  h.detachLeaf (v := 0) hD rfl (PX_lt 0 va) hb rfl

theorem freeLeaf (hD : Depth owned) (h : Heap owned ρ g F s) (hva : va < MAXVA)
    (hb : s.node (ρ t) [PX 2 va, PX 1 va] ≠ 0) (hf : Freeable owned ρ t F s va) (d : Page) {s' : Vm}
    (hs' : s' = { s with free := child (s.leaf (ρ t) va) :: s.free }.setPage (child (s.leaf (ρ t) va)) d) :
    child (s.leaf (ρ t) va) ∈ frames s.kend ∧
    Heap owned ρ g (F \ {child (s.leaf (ρ t) va)})
      (s'.setPte (s.node (ρ t) [PX 2 va, PX 1 va] + 8 * PX 0 va) 0) ∧
    Sets ρ t va 0 s (s'.setPte (s.node (ρ t) [PX 2 va, PX 1 va] + 8 * PX 0 va) 0) := by
  have hdrop := h.dropLeaf hD hb
  have hmem : child (s.leaf (ρ t) va) ∈
      F ∪ {b | b ≠ 0 ∧ owned (place va) = true ∧ child (s.leaf (ρ t) va) = b} := by
    rcases hf with ⟨ho, hne⟩ | ⟨-, hF⟩
    · exact .inr ⟨hne, ho, rfl⟩
    · exact .inl hF
  have hset : (F ∪ {b | b ≠ 0 ∧ owned (place va) = true ∧ child (s.leaf (ρ t) va) = b}) \
      {child (s.leaf (ρ t) va)} = F \ {child (s.leaf (ρ t) va)} := by
    ext b
    simp only [mem_sdiff, mem_union, mem_ofPred_eq, mem_singleton_iff]
    constructor
    · rintro ⟨hF | ⟨-, -, e⟩, hne⟩
      · exact ⟨hF, hne⟩
      · exact absurd e.symm hne
    · rintro ⟨hF, hne⟩
      exact ⟨.inl hF, hne⟩
  have hfr : child (s.leaf (ρ t) va) ∈ frames s.kend := hdrop.frame_of_float hmem
  -- the page that holds the leaf is another one
  have hdiv : s.node (ρ t) [PX 2 va, PX 1 va] / 4096 ≠ child (s.leaf (ρ t) va) / 4096 := by
    refine h.div_ne hD hfr.1 fun e => ?_
    rcases hf with ⟨ho, hne⟩ | ⟨-, hF⟩
    · have hr : refs owned ρ g s (.inl (t, [PX 2 va, PX 1 va])) = s.node (ρ t) [PX 2 va, PX 1 va] := by
        simp only [refs, hD.table [PX 2 va, PX 1 va] (by simp), if_true]
      have := h.ledger.inj (.inl (t, [PX 2 va, PX 1 va])) (.inl (t, place va))
        (by rw [hr, refs_place ho, e]) (by rwa [hr])
      simp [place] at this
    · exact h.noTable_of_float hD hF _ _ (by simp) e
  have hcomm : s'.setPte (s.node (ρ t) [PX 2 va, PX 1 va] + 8 * PX 0 va) 0 =
      { s.setPte (s.node (ρ t) [PX 2 va, PX 1 va] + 8 * PX 0 va) 0 with
        free := child (s.leaf (ρ t) va) :: s.free }.setPage (child (s.leaf (ρ t) va)) d := by
    rw [hs']
    refine setPage_setPte_comm ?_
    have ha := h.node_aligned hD (t := t) (p := [PX 2 va, PX 1 va])
    have := PX_lt 0 va
    omega
  rw [hcomm]
  refine ⟨hfr, hset ▸ hdrop.give hD hmem d, fun t' va' hva' => ?_⟩
  refine Eq.trans ?_ (h.leaf_clear hD hva hb t' va' hva')
  exact hdrop.leaf_setPage hD hfr.1 (hdrop.noTable_of_float hD hmem) d va'

end Heap

/-- The pages that `uvmunmap` with `do_free` frees. -/
def freed (ρ : ι → ℕ) (t : ι) (doFree : Bool) (va n : ℕ) (s : Vm) : Set ℕ :=
  {b | doFree = true ∧ ∃ j < n, has (s.leaf (ρ t) (va + j * 4096)) PTE_V = true ∧
    child (s.leaf (ρ t) (va + j * 4096)) = b}

/-- What `uvmunmap` may be called for: the pages it frees can be freed, once each, and it frees the pages
that the page table owns. -/
structure Unmappable (owned : List ℕ → Bool) (ρ : ι → ℕ) (t : ι) (F : Set ℕ) (s : Vm) (doFree : Bool)
    (va n : ℕ) : Prop where
  free : doFree = true → ∀ j < n, has (s.leaf (ρ t) (va + j * 4096)) PTE_V = true →
    Freeable owned ρ t F s (va + j * 4096)
  once : doFree = true → ∀ i < n, ∀ j < n, has (s.leaf (ρ t) (va + i * 4096)) PTE_V = true →
    has (s.leaf (ρ t) (va + j * 4096)) PTE_V = true →
    child (s.leaf (ρ t) (va + i * 4096)) = child (s.leaf (ρ t) (va + j * 4096)) → i = j
  keep : doFree = false → ∀ j < n, owned (place (va + j * 4096)) = false

open Classical in
/-- From `s` to `s'`, the valid leaves of `n` pages from `va` on are cleared; no other leaf changes. -/
def Clears (ρ : ι → ℕ) (t : ι) (va n : ℕ) (s s' : Vm) : Prop :=
  ∀ t' va', va' < MAXVA → s'.leaf (ρ t') va' =
    if t' = t ∧ (va / 4096 ≤ va' / 4096 ∧ va' / 4096 < va / 4096 + n) ∧
      has (s.leaf (ρ t') va') PTE_V = true then 0 else s.leaf (ρ t') va'

variable {n : ℕ} {doFree : Bool}

theorem Clears.refl (h : n = 0 ∨ n = 1 ∧ va < MAXVA ∧ has (s.leaf (ρ t) va) PTE_V = false) :
    Clears ρ t va n s s := by
  intro t' va' hva'
  refine (if_neg ?_).symm
  rintro ⟨rfl, hr, hv⟩
  rcases h with rfl | ⟨rfl, hva, hn⟩
  · omega
  · rw [leaf_congr_page (show va' / 4096 = va / 4096 by omega), hn] at hv
    cases hv

/-- In its range, nothing is left. -/
theorem Clears.not_valid (h : Clears ρ t va n s s') {va' : ℕ} (hva' : va' < MAXVA)
    (hr : va / 4096 ≤ va' / 4096 ∧ va' / 4096 < va / 4096 + n) : has (s'.leaf (ρ t) va') PTE_V = false := by
  rw [h t va' hva']
  split
  · rfl
  · rename_i hn
    simpa [hr] using hn

/-- Outside of its range, nothing changes. -/
theorem Clears.of_not_range (h : Clears ρ t va n s s') {va' : ℕ} (hva' : va' < MAXVA)
    (hr : ¬ (va / 4096 ≤ va' / 4096 ∧ va' / 4096 < va / 4096 + n)) :
    s'.leaf (ρ t) va' = s.leaf (ρ t) va' := by
  rw [h t va' hva', if_neg fun e => hr e.2.1]

theorem Clears.of_sets (h : Sets ρ t va 0 s s') (hv : has (s.leaf (ρ t) va) PTE_V = true) :
    Clears ρ t va 1 s s' := by
  intro t' va' hva'
  rw [h t' va' hva']
  by_cases e : t' = t ∧ va' / 4096 = va / 4096
  · obtain ⟨rfl, e⟩ := e
    rw [if_pos ⟨rfl, e⟩, if_pos ⟨rfl, by omega, by rwa [leaf_congr_page e]⟩]
  · rw [if_neg e, if_neg fun hh => e ⟨hh.1, by omega⟩]

theorem Clears.trans (hal : va % 4096 = 0) (h₁ : Clears ρ t va 1 s s')
    (h₂ : Clears ρ t (va + 4096) n s' s'') : Clears ρ t va (n + 1) s s'' := by
  classical
  intro t' va' hva'
  have e₁ := h₁ t' va' hva'
  rw [h₂ t' va' hva']
  by_cases hp : t' = t ∧ va' / 4096 = va / 4096
  · rw [if_neg (by omega), e₁]
    refine if_congr ?_ rfl rfl
    rw [show (va / 4096 ≤ va' / 4096 ∧ va' / 4096 < va / 4096 + 1 ↔
      va / 4096 ≤ va' / 4096 ∧ va' / 4096 < va / 4096 + (n + 1)) by omega]
  · rw [if_neg fun hh => hp ⟨hh.1, by omega⟩] at e₁
    rw [e₁]
    refine if_congr (and_congr_right fun et => ?_) rfl rfl
    have hne : va' / 4096 ≠ va / 4096 := fun e => hp ⟨et, e⟩
    rw [show ((va + 4096) / 4096 ≤ va' / 4096 ∧ va' / 4096 < (va + 4096) / 4096 + n ↔
      va / 4096 ≤ va' / 4096 ∧ va' / 4096 < va / 4096 + (n + 1)) by omega]

/-- After the first page, the leaves of the rest are as they were. -/
theorem Clears.rest (hal : va % 4096 = 0) (hmax : va + (n + 1) * 4096 ≤ MAXVA)
    (h : Clears ρ t va 1 s s') : ∀ j < n,
    s'.leaf (ρ t) (va + 4096 + j * 4096) = s.leaf (ρ t) (va + 4096 + j * 4096) := fun j hj => by
  rw [h t _ (by omega), if_neg (by omega)]

theorem freed_succ (hs : ∀ j < n,
    s'.leaf (ρ t) (va + 4096 + j * 4096) = s.leaf (ρ t) (va + 4096 + j * 4096)) :
    freed ρ t doFree va (n + 1) s = freed ρ t doFree va 1 s ∪ freed ρ t doFree (va + 4096) n s' := by
  have hadd : ∀ j, va + 4096 + j * 4096 = va + (j + 1) * 4096 := fun j => by ring
  ext b
  constructor
  · rintro ⟨hd, j, hj, hv, e⟩
    cases j with
    | zero => exact .inl ⟨hd, 0, by omega, hv, e⟩
    | succ j =>
      refine .inr ⟨hd, j, by omega, ?_⟩
      rw [hs j (by omega), hadd]
      exact ⟨hv, e⟩
  · rintro (⟨hd, j, hj, hv, e⟩ | ⟨hd, j, hj, hv, e⟩)
    · exact ⟨hd, j, by omega, hv, e⟩
    · rw [hs j hj, hadd] at hv e
      exact ⟨hd, j + 1, by omega, hv, e⟩

theorem freed_one : freed ρ t doFree va 1 s =
    {b | doFree = true ∧ has (s.leaf (ρ t) va) PTE_V = true ∧ child (s.leaf (ρ t) va) = b} := by
  ext b
  simp [freed]

/-- The rest of the range, after its first page. -/
theorem Unmappable.tail (hu : Unmappable owned ρ t F s doFree va (n + 1))
    (hs : ∀ j < n, s'.leaf (ρ t) (va + 4096 + j * 4096) = s.leaf (ρ t) (va + 4096 + j * 4096)) :
    Unmappable owned ρ t (F \ freed ρ t doFree va 1 s) s' doFree (va + 4096) n := by
  have hadd : ∀ j, va + 4096 + j * 4096 = va + (j + 1) * 4096 := fun j => by ring
  refine ⟨fun hd j hj hv => ?_, fun hd i hi j hj hvi hvj e => ?_, fun hd j hj => ?_⟩
  · rw [hs j hj, hadd] at hv
    unfold Freeable
    rw [hs j hj, hadd]
    refine (hu.free hd (j + 1) (by omega) hv).imp_right fun ⟨ho, hmem⟩ => ⟨ho, hmem, ?_⟩
    rw [freed_one]
    rintro ⟨-, hv₀, e⟩
    have := hu.once hd 0 (by omega) (j + 1) (by omega) (by simpa using hv₀) hv (by simpa using e)
    omega
  · rw [hs i hi, hadd] at hvi e
    rw [hs j hj, hadd] at hvj e
    have := hu.once hd (i + 1) (by omega) (j + 1) (by omega) hvi hvj e
    omega
  · rw [hadd]
    exact hu.keep hd (j + 1) (by omega)

theorem Heap.float_subset (h : Heap owned ρ g F s)
    (ho : doFree = true → ∀ j < n, owned (place (va + j * 4096)) = true) :
    F ⊆ F \ freed ρ t doFree va n s := by
  refine fun b hb => ⟨hb, ?_⟩
  rintro ⟨hd, j, hj, -, e⟩
  exact h.refs_ne_of_float hb (.inl (t, place (va + j * 4096))) (by rw [refs_place (ho hd j hj), e])

/-- `uvmunmap` clears the valid leaves of its range and frees their pages if asked to. -/
theorem wp_unmapLoop (hD : Depth owned) (h : Heap owned ρ g F s)
    (ht : ρ t ≠ 0) (hal : va % 4096 = 0) (hva : va + n * 4096 ≤ MAXVA)
    (hu : Unmappable owned ρ t F s doFree va n) :
    wp (unmapLoop (ρ t) doFree n va) (fun _ s' =>
      Heap owned ρ g (F \ freed ρ t doFree va n s) s' ∧ s'.kend = s.kend ∧ Clears ρ t va n s s' ∧
        ((doFree = true → ∀ j < n, owned (place (va + j * 4096)) = true) →
          Spares owned (ρ t) s s')) E s := by
  induction n generalizing s F va with
  | zero =>
    refine ⟨?_, rfl, .refl (.inl rfl), fun _ => .refl _ _ s⟩
    have : freed ρ t doFree va 0 s = ∅ := by
      ext b
      simp [freed]
    rwa [this, sdiff_empty]
  | succ n ih =>
    -- what follows the first page
    have hrest : ∀ s₁, Heap owned ρ g (F \ freed ρ t doFree va 1 s) s₁ → s₁.kend = s.kend →
        Clears ρ t va 1 s s₁ → ((doFree = true → owned (place va) = true) → Spares owned (ρ t) s s₁) →
        wp (unmapLoop (ρ t) doFree n (va + PGSIZE)) (fun _ s' =>
          Heap owned ρ g (F \ freed ρ t doFree va (n + 1) s) s' ∧ s'.kend = s.kend ∧
            Clears ρ t va (n + 1) s s' ∧
            ((doFree = true → ∀ j < n + 1, owned (place (va + j * 4096)) = true) →
              Spares owned (ρ t) s s')) E s₁ := by
      intro s₁ h₁ hk hc hsp
      have hs := hc.rest hal hva
      have hrun : wp (unmapLoop (ρ t) doFree n (va + 4096)) _ E s₁ :=
        ih h₁ (by omega) (by omega) (hu.tail hs)
      refine wp_mono hrun (fun _ s' hq => ?_) fun _ _ he => he
      obtain ⟨h', hk', hc', hsp'⟩ := hq
      rw [freed_succ hs, ← sdiff_sdiff]
      refine ⟨h', hk'.trans hk, hc.trans hal hc', fun ho => ?_⟩
      have hF := h.float_subset (t := t) (n := 1) fun hd j hj => ho hd j (by omega)
      refine h.spares_trans hD h₁ hF (fun _ _ => rfl) hk
        (hsp fun hd => by simpa using ho hd 0 (by omega)) (hsp' fun hd j hj => ?_)
      rw [show va + 4096 + j * 4096 = va + (j + 1) * 4096 by ring]
      exact ho hd (j + 1) (by omega)
    have hlt : va < MAXVA := by omega
    have htable : ¬ Foreign owned (ρ t) s (s.node (ρ t) [PX 2 va, PX 1 va]) :=
      not_foreign_node (hD.table _ (by simp))
    refine wp_unmapLoop_succ hD h ht hlt (fun hv => ?_) (fun hb hv hd => ?_) fun hb hv hd => ?_
    · refine hrest s ?_ rfl (.refl (.inr ⟨rfl, hlt, hv⟩)) fun _ => .refl _ _ s
      rw [freed_one, show {b | doFree = true ∧ has (s.leaf (ρ t) va) PTE_V = true ∧
        child (s.leaf (ρ t) va) = b} = ∅ by ext b; simp [hv], sdiff_empty]
      exact h
    · refine hrest _ ?_ rfl (.of_sets (h.leaf_clear hD hlt hb) hv) fun _ =>
        (Spares.refl _ _ s).setPte (h.node_aligned hD) (PX_lt 0 va) htable
      have ho : owned (place va) = false := by simpa using hu.keep hd 0 (by omega)
      have hdrop := h.dropLeaf hD hb
      rw [show {b | b ≠ 0 ∧ owned (place va) = true ∧ child (s.leaf (ρ t) va) = b} = ∅ by
        ext b; simp [ho], union_empty] at hdrop
      rw [freed_one, show {b | doFree = true ∧ has (s.leaf (ρ t) va) PTE_V = true ∧
        child (s.leaf (ρ t) va) = b} = ∅ by ext b; simp [hd], sdiff_empty]
      exact hdrop
    · have hf : Freeable owned ρ t F s va := by simpa using hu.free hd 0 (by omega) (by simpa using hv)
      obtain ⟨hfr, h₁, hset⟩ := h.freeLeaf hD hlt hb hf (fun _ => 1) rfl
      refine wp_kfree hfr (hrest _ ?_ rfl (.of_sets hset hv) fun ho => ?_)
      swap
      · have hs₁ : Spares owned (ρ t) s { s with free := child (s.leaf (ρ t) va) :: s.free } :=
          fun _ _ => rfl
        have hpage : ¬ Foreign owned (ρ t) s (child (s.leaf (ρ t) va)) :=
          not_foreign_node (p := place va) (ho hd)
        exact (hs₁.fill hfr.1 hpage _).setPte (h.node_aligned hD) (PX_lt 0 va) htable
      rw [freed_one, show {b | doFree = true ∧ has (s.leaf (ρ t) va) PTE_V = true ∧
        child (s.leaf (ρ t) va) = b} = {child (s.leaf (ρ t) va)} by
          ext b; simp [hd, hv, eq_comm]]
      exact h₁

theorem wp_uvmunmap (hD : Depth owned) (h : Heap owned ρ g F s)
    (ht : ρ t ≠ 0) (hal : va % 4096 = 0) (hva : va + n * 4096 ≤ MAXVA)
    (hu : Unmappable owned ρ t F s doFree va n) :
    wp (uvmunmap (ρ t) va n doFree) (fun _ s' =>
      Heap owned ρ g (F \ freed ρ t doFree va n s) s' ∧ s'.kend = s.kend ∧ Clears ρ t va n s s' ∧
        ((doFree = true → ∀ j < n, owned (place (va + j * 4096)) = true) →
          Spares owned (ρ t) s s')) E s := by
  have hmax : MAXVA < 2 ^ 64 := by decide
  have hn : ((va + n * PGSIZE) % 2 ^ 64 - va) / PGSIZE = n := by
    simp only [PGSIZE]
    rw [mod_eq_of_lt (by omega), Nat.add_sub_cancel_left, Nat.mul_div_cancel _ (by decide)]
  rw [uvmunmap, if_neg (by simpa using hal), hn]
  exact wp_unmapLoop hD h ht hal hva hu

end Xv6
