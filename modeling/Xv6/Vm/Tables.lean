import Xv6.Lib.Trans
import Xv6.Vm.Map

/-!
# Page tables are finite maps

Callers create page tables with `uvmcreate` and change them with `mappages` and `uvmunmap`; they also
take pages from the allocator to map them. The abstract model is a map from page numbers to physical
pages and flags for each page table: `mappages` extends it on its range, or on a part of its range when
it fails, and `uvmunmap` restricts it. `walk` finds exactly what the map says
(`page_tables_implement_maps`).
-/

namespace Xv6

open Function Prog Vm Nat

/-- The physical page and the flags of a valid entry. -/
def decode (pte : ℕ) : Option (ℕ × ℕ) :=
  if has pte PTE_V then some (PTE2PA pte, PTE_FLAGS pte) else none

/-- What `walk(pagetable, va, 0)` finds. -/
def translate (pagetable va : ℕ) : VmM (Option (ℕ × ℕ)) := do
  let a ← walk pagetable va false
  if a = 0 then pure none
  else return decode (← readPte a)

/-! ## The calls -/

/-- Memory with page tables; `root` is 0 for a page table that there is not. -/
structure Tables where
  vm : Vm
  root : ℕ → ℕ

namespace Tables

/-- No page table. -/
def init (vm : Vm) : Tables := ⟨vm, fun _ => 0⟩

/-- What `walk` finds in the page table `t`. -/
def found (s : Tables) (t va : ℕ) : Option (ℕ × ℕ) :=
  match (translate (s.root t) va s.vm).1 with
  | .ok r => r
  | .error _ => none

/-- The pages in use that are no page-table pages. -/
def held (s : Tables) : Set ℕ :=
  {pa | pa ∈ frames s.vm.kend ∧ pa ∉ s.vm.free ∧
    ∀ t p, p.length ≤ 2 → s.vm.node (s.root t) p ≠ pa}

end Tables

/-- The calls of the users of page tables. -/
inductive TableCall
  | uvmcreate (t : ℕ)
  | mappages (t va size pa perm : ℕ)
  | uvmunmap (t va npages : ℕ) (doFree : Bool)
  | kalloc
  | kfree (pa : ℕ)

/-- The part of the state that the functions of `vm.c` use. -/
def onVm {α : Type} (f : VmM α) : Prog Tables VmPanic α :=
  Prog.zoom Tables.vm (fun vm s => { s with vm := vm }) f

namespace TableCall

/-- The run of a call, and what it returns. -/
def exec : TableCall → Prog Tables VmPanic ℤ
  | uvmcreate t => do
    let r ← onVm Xv6.uvmcreate
    Prog.modify fun s => { s with root := update s.root t r }
    return r
  | mappages t va size pa perm => do onVm (Xv6.mappages ((← Prog.get).root t) va size pa perm)
  | uvmunmap t va npages doFree => do
    onVm (Xv6.uvmunmap ((← Prog.get).root t) va npages doFree)
    return 0
  | kalloc => do return (← onVm Xv6.kalloc : ℕ)
  | kfree pa => do
    onVm (Xv6.kfree pa)
    return 0

/-- The calls that are made: on page-aligned ranges below `MAXVA`, without remapping; what is freed is a
page in use, mapped once in the range and no page-table page. -/
def Legal (s : Tables) : TableCall → Prop
  | uvmcreate t => s.root t = 0
  | mappages t va size pa perm => s.root t ≠ 0 ∧ va % PGSIZE = 0 ∧ size % PGSIZE = 0 ∧ 0 < size ∧
      va + size ≤ MAXVA ∧ pa < 2 ^ 64 ∧ perm < 1024 ∧
      ∀ va', va ≤ va' → va' < va + size → s.found t va' = none
  | uvmunmap t va npages doFree => s.root t ≠ 0 ∧ va % PGSIZE = 0 ∧ va + npages * PGSIZE ≤ MAXVA ∧
      (doFree = true → ∀ va₁ pa fl, va ≤ va₁ → va₁ < va + npages * PGSIZE →
        s.found t va₁ = some (pa, fl) → pa ∈ s.held ∧
        ∀ va₂ fl', va ≤ va₂ → va₂ < va + npages * PGSIZE → s.found t va₂ = some (pa, fl') →
          va₂ / PGSIZE = va₁ / PGSIZE)
  | kalloc => True
  | kfree pa => pa ∈ s.held

/-- The pages whose translation a call may change. -/
def Covers (t va : ℕ) : TableCall → Prop
  | uvmcreate t' => t = t'
  | mappages t' va' size _ _ => t = t' ∧ va' ≤ va ∧ va < va' + size
  | uvmunmap t' va' npages _ => t = t' ∧ va' ≤ va ∧ va < va' + npages * PGSIZE
  | kalloc => False
  | kfree _ => False

end TableCall

/-- A call returns. -/
def TableStep (s : Tables) (es : List (TableCall × ℤ)) (s' : Tables) : Prop :=
  ∃ c r, es = [(c, r)] ∧ c.Legal s ∧ c.exec s = (.ok r, s')

/-! ## The maps -/

/-- For each page table, the physical page and the flags of each page number. -/
abbrev PageMap := ℕ → ℕ → Option (ℕ × ℕ)

namespace PageMap

/-- The `k` pages from `va` on get the values of `e`. -/
def put (m : PageMap) (t va k : ℕ) (e : ℕ → Option (ℕ × ℕ)) : PageMap :=
  update m t fun v =>
    if va / PGSIZE ≤ v ∧ v < va / PGSIZE + k then e (v - va / PGSIZE) else m t v

/-- The page number `j` of a range that is mapped to `pa`. -/
def page (pa perm j : ℕ) : Option (ℕ × ℕ) :=
  some ((pa + j * PGSIZE) % 2 ^ 64 / PGSIZE * PGSIZE, perm ||| PTE_V)

end PageMap

/-- What a call means. -/
inductive MapStep (m : PageMap) : List (TableCall × ℤ) → PageMap → Prop
  | uvmcreate (t : ℕ) (r : ℤ) : MapStep m [(.uvmcreate t, r)] (update m t fun _ => none)
  | mapped (t va size pa perm : ℕ) :
      MapStep m [(.mappages t va size pa perm, 0)]
        (m.put t va (size / PGSIZE) (PageMap.page pa perm))
  | failed (t va size pa perm k : ℕ) (hk : k < size / PGSIZE) :
      MapStep m [(.mappages t va size pa perm, -1)] (m.put t va k (PageMap.page pa perm))
  | unmapped (t va npages : ℕ) (doFree : Bool) :
      MapStep m [(.uvmunmap t va npages doFree, 0)] (m.put t va npages fun _ => none)
  | kalloc (r : ℤ) : MapStep m [(.kalloc, r)] m
  | kfree (pa : ℕ) : MapStep m [(.kfree pa, 0)] m

/-! ## The invariant -/

/-- Page tables own their page-table pages, and not the pages they map. -/
def tablePages (p : List ℕ) : Bool := p.length ≤ 2

theorem depth_tablePages : Depth tablePages :=
  ⟨fun p hp => by simpa [tablePages] using hp, fun p hp => by
    have : p.length ≤ 2 := by simpa [tablePages] using hp
    omega⟩

theorem not_tablePages_place (va : ℕ) : tablePages (place va) = false := rfl

/-- The invariant of the machine. -/
def Tables.Ok (s : Tables) : Prop :=
  ∃ F, Heap tablePages s.root (Empty.elim : Empty → ℕ) F s.vm

/-- The abstract map of the page tables. -/
def Tables.Shows (s : Tables) (m : PageMap) : Prop :=
  ∀ t va, va < MAXVA → m t (va / 4096) = decode (s.vm.leaf (s.root t) va)

section

variable {ι X : Type} {owned : List ℕ → Bool} {ρ : ι → ℕ} {g : X → ℕ} {F : Set ℕ} {s : Vm} {t : ι}
  {va : ℕ}

/-- `walk` finds the leaf. -/
theorem wp_translate {E : VmPanic → Vm → Prop} (hD : Depth owned) (h : Heap owned ρ g F s)
    (hva : va < MAXVA) (ht : ρ t ≠ 0) :
    wp (translate (ρ t) va) (fun r s' => s' = s ∧ r = decode (s.leaf (ρ t) va)) E s := by
  rw [translate, wp_bind]
  refine wp_walk hD h hva ht (fun hz => ?_) fun hb => ?_
  · rw [if_pos rfl, wp_pure, Vm.leaf, hz, ent_zero]
    exact ⟨rfl, rfl⟩
  · rw [if_neg (by omega)]
    simp only [readPte, wp_bind, wp_get, wp_pure]
    rw [pte_eq_ent (h.node_aligned hD) hb (PX_lt 0 va)]
    exact ⟨trivial, rfl⟩

end

namespace Tables

variable {s s' : Tables} {m : PageMap} {t va : ℕ}

theorem Ok.heap (h : s.Ok) : Heap tablePages s.root (Empty.elim : Empty → ℕ) s.held s.vm := by
  obtain ⟨F, h⟩ := h
  have hF : F = s.held := by
    rw [h.float_eq]
    ext b
    refine and_congr_right fun hb => and_congr_right fun _ => ⟨fun hq t p hp => ?_, fun hq q => ?_⟩
    · have := hq (.inl (t, p))
      simpa only [refs, depth_tablePages.table p hp, if_true] using this
    · rcases q with ⟨t, p⟩ | x
      · by_cases hp : tablePages p = true
        · simp only [refs, hp, if_true]
          exact hq t p (by simpa [tablePages] using hp)
        · simp only [refs, if_neg hp]
          exact (h.ne_zero hb).symm
      · exact x.elim
  rwa [hF] at h

/-- `translate` does what the invariant says. -/
theorem Ok.translate_eq (h : s.Ok) (ht : s.root t ≠ 0) (hva : va < MAXVA) :
    translate (s.root t) va s.vm = (.ok (decode (s.vm.leaf (s.root t) va)), s.vm) := by
  obtain ⟨r, s', e, rfl, rfl⟩ := wp_total (wp_translate depth_tablePages h.heap hva ht)
  exact e

theorem Ok.found_eq (h : s.Ok) (ht : s.root t ≠ 0) (hva : va < MAXVA) :
    s.found t va = decode (s.vm.leaf (s.root t) va) := by
  rw [found, h.translate_eq ht hva]

theorem decode_eq_none {e : ℕ} : decode e = none ↔ has e PTE_V = false := by
  unfold decode
  split <;> simp_all

theorem Ok.found_eq_some (h : s.Ok) (ht : s.root t ≠ 0) (hva : va < MAXVA)
    (hv : has (s.vm.leaf (s.root t) va) PTE_V = true) :
    s.found t va = some (child (s.vm.leaf (s.root t) va), PTE_FLAGS (s.vm.leaf (s.root t) va)) := by
  rw [h.found_eq ht hva, decode, if_pos hv, child, if_pos hv]

end Tables

/-! ## The calls keep it -/

section

variable {s : Tables} {m : PageMap} {t va : ℕ}

/-- What a call does: it returns, keeps the invariant, and does what the abstract call does. -/
def Simulates (c : TableCall) (s : Tables) (m : PageMap) : Prop :=
  wp c.exec (fun r s' => s'.Ok ∧ (∀ t, c ≠ .uvmcreate t → s'.root t = s.root t) ∧
    ∃ m', MapStep m [(c, r)] m' ∧ s'.Shows m') (fun _ _ => False) s

theorem simulates_uvmcreate (h : s.Ok) (hm : s.Shows m) (hl : (TableCall.uvmcreate t).Legal s) :
    Simulates (.uvmcreate t) s m := by
  unfold Simulates
  simp only [TableCall.exec, onVm, wp_bind, wp_zoom]
  refine wp_mono (wp_uvmcreate depth_tablePages h.heap hl) (fun r vm' hq => ?_) fun _ _ he => he
  obtain ⟨h', -, -, hleaf⟩ := hq
  refine ⟨⟨_, h'⟩, fun t' hne => update_of_ne (fun e => hne (by rw [e])) _ _, _, .uvmcreate t r,
    fun t' va hva => ?_⟩
  show update m t _ t' _ = decode (vm'.leaf (update s.root t r t') va)
  rw [hleaf]
  by_cases e : t' = t
  · subst e
    have hz : s.root t' = 0 := hl
    rw [update_self, hz, Vm.leaf, node_zero, ent_zero]
    rfl
  · rw [update_of_ne e]
    exact hm t' va hva

theorem simulates_mappages {size pa perm : ℕ} (h : s.Ok) (hm : s.Shows m)
    (hl : (TableCall.mappages t va size pa perm).Legal s) :
    Simulates (.mappages t va size pa perm) s m := by
  obtain ⟨ht, hal, hsz, hpos, hmax, hpa, hperm, hun⟩ := hl
  obtain ⟨n, rfl⟩ : ∃ n, size = n * 4096 := ⟨size / 4096, by simp only [PGSIZE] at hsz; omega⟩
  unfold Simulates
  simp only [TableCall.exec, onVm, wp_bind, wp_zoom, wp_get]
  have hun' : ∀ j < n, has (s.vm.leaf (s.root t) (va + j * 4096)) PTE_V = false := fun j hj => by
    rw [← Tables.decode_eq_none, ← h.found_eq ht (by omega)]
    exact hun _ (by omega) (by omega)
  refine wp_mono (wp_mappages depth_tablePages h.heap ht hal (by omega) hmax hpa hperm hun'
    fun j _ => not_tablePages_place _) (fun r vm' hq => ?_) fun _ _ he => he
  obtain ⟨h', -, k, hk, hr, hleaf⟩ := hq
  have hn : n * 4096 / PGSIZE = n := Nat.mul_div_cancel _ (by decide)
  refine ⟨⟨_, h'⟩, fun _ _ => trivial, m.put t va k (PageMap.page pa perm), ?_, fun t' va' hva' => ?_⟩
  · rcases hr with ⟨rfl, rfl⟩ | ⟨rfl, hlt⟩
    · have := MapStep.mapped (m := m) t va (k * 4096) pa perm
      rwa [hn] at this
    · exact .failed t va _ pa perm k (by rwa [hn])
  · show PageMap.put m t va k _ t' _ = decode (vm'.leaf (s.root t') va')
    rw [hleaf t' va' hva']
    unfold PageMap.put
    by_cases e : t' = t
    · subst e
      rw [update_self]
      by_cases hr : va / 4096 ≤ va' / 4096 ∧ va' / 4096 < va / 4096 + k
      · rw [if_pos hr, if_pos ⟨rfl, hr⟩, decode, if_pos has_leafEntry,
          PTE2PA_leafEntry (mod_lt _ (by decide)) hperm, PTE_FLAGS_leafEntry hperm]
        rfl
      · rw [if_neg hr, if_neg fun hh => hr hh.2]
        exact hm t' va' hva'
    · rw [update_of_ne e, if_neg fun hh => e hh.1]
      exact hm t' va' hva'

theorem simulates_uvmunmap {npages : ℕ} {doFree : Bool} (h : s.Ok) (hm : s.Shows m)
    (hl : (TableCall.uvmunmap t va npages doFree).Legal s) :
    Simulates (.uvmunmap t va npages doFree) s m := by
  obtain ⟨ht, hal, hmax, hfree⟩ := hl
  simp only [PGSIZE] at hal hmax hfree
  unfold Simulates
  simp only [TableCall.exec, onVm, wp_bind, wp_zoom, wp_get]
  have hu : Unmappable tablePages s.root t s.held s.vm doFree va npages := by
    refine ⟨fun hd j hj hv => ?_, fun hd i hi j hj hvi hvj e => ?_, fun _ j _ => not_tablePages_place _⟩
    · refine .inr ⟨not_tablePages_place _, ?_⟩
      exact (hfree hd _ _ _ (by omega) (by omega) (h.found_eq_some ht (by omega) hv)).1
    · have hfi := h.found_eq_some ht (show va + i * 4096 < MAXVA by omega) hvi
      have hfj := h.found_eq_some ht (show va + j * 4096 < MAXVA by omega) hvj
      rw [← e] at hfj
      have := (hfree hd _ _ _ (by omega) (by omega) hfi).2 _ _ (by omega) (by omega) hfj
      omega
  refine wp_mono (wp_uvmunmap depth_tablePages h.heap ht hal hmax hu) (fun _ vm' hq => ?_)
    fun _ _ he => he
  obtain ⟨h', -, hc, -⟩ := hq
  refine ⟨⟨_, h'⟩, fun _ _ => rfl, _, .unmapped t va npages doFree, fun t' va' hva' => ?_⟩
  show PageMap.put m t va npages _ t' _ = decode (vm'.leaf (s.root t') va')
  rw [hc t' va' hva']
  unfold PageMap.put
  by_cases e : t' = t
  · subst e
    rw [update_self]
    by_cases hr : va / 4096 ≤ va' / 4096 ∧ va' / 4096 < va / 4096 + npages
    · rw [if_pos hr]
      split
      · rfl
      · rename_i hn
        exact (Tables.decode_eq_none.2 (by simpa [hr] using hn)).symm
    · rw [if_neg hr, if_neg fun hh => hr hh.2.1]
      exact hm t' va' hva'
  · rw [update_of_ne e, if_neg fun hh => e hh.1]
    exact hm t' va' hva'

theorem simulates_kalloc (h : s.Ok) (hm : s.Shows m) : Simulates .kalloc s m := by
  unfold Simulates
  simp only [TableCall.exec, onVm, wp_bind, wp_zoom]
  refine wp_kalloc (fun _ => ?_) fun pa rest hf _ => ?_
  · exact ⟨⟨_, h.heap.answered⟩, fun _ _ => rfl, m, .kalloc _, hm⟩
  · have hmem : pa ∈ s.vm.free := by rw [hf]; exact List.mem_cons_self
    refine ⟨⟨_, h.heap.answered.take depth_tablePages hf _⟩, fun _ _ => rfl, m, .kalloc _,
      fun t' va hva => ?_⟩
    refine (hm t' va hva).trans (congrArg decode ?_)
    exact (h.heap.leaf_setPage depth_tablePages (h.heap.free pa hmem).1
      (h.heap.noTable_of_free depth_tablePages hmem) _ va).symm

theorem simulates_kfree {pa : ℕ} (h : s.Ok) (hm : s.Shows m) (hpa : pa ∈ s.held) :
    Simulates (.kfree pa) s m := by
  unfold Simulates
  simp only [TableCall.exec, onVm, wp_bind, wp_zoom]
  have hfr := h.heap.frame_of_float hpa
  refine wp_kfree hfr ⟨⟨_, h.heap.give depth_tablePages hpa _⟩, fun _ _ => rfl, m, .kfree pa,
    fun t' va hva => ?_⟩
  refine (hm t' va hva).trans (congrArg decode ?_)
  exact (h.heap.leaf_setPage depth_tablePages hfr.1 (h.heap.noTable_of_float depth_tablePages hpa) _ va).symm

theorem TableCall.simulates (c : TableCall) (h : s.Ok) (hm : s.Shows m) (hl : c.Legal s) :
    Simulates c s m := by
  cases c with
  | uvmcreate t => exact simulates_uvmcreate h hm hl
  | mappages t va size pa perm => exact simulates_mappages h hm hl
  | uvmunmap t va npages doFree => exact simulates_uvmunmap h hm hl
  | kalloc => exact simulates_kalloc h hm
  | kfree pa => exact simulates_kfree h hm hl

/-- Outside of the range of a call, the map stays. -/
theorem MapStep.frame {m' : PageMap} {c : TableCall} {r : ℤ} (hm : MapStep m [(c, r)] m')
    (hl : c.Legal s) (hc : ¬ c.Covers t va) : m' t (va / 4096) = m t (va / 4096) := by
  have hput : ∀ {t' va' k size : ℕ} {e : ℕ → Option (ℕ × ℕ)}, va' % PGSIZE = 0 → k * PGSIZE ≤ size →
      ¬ (t = t' ∧ va' ≤ va ∧ va < va' + size) → m.put t' va' k e t (va / 4096) = m t (va / 4096) := by
    intro t' va' k size e hal hk hn
    unfold PageMap.put
    simp only [PGSIZE] at *
    by_cases et : t = t'
    · subst et
      rw [update_self, if_neg]
      rintro ⟨h₁, h₂⟩
      exact hn ⟨rfl, by omega, by omega⟩
    · rw [update_of_ne et]
  cases hm with
  | uvmcreate t' r => rw [update_of_ne hc]
  | mapped t' va' size pa perm => exact hput hl.2.1 (div_mul_le_self _ _) hc
  | failed t' va' size pa perm k hk =>
    exact hput hl.2.1 ((Nat.mul_le_mul_right _ hk.le).trans (div_mul_le_self _ _)) hc
  | unmapped t' va' npages doFree => exact hput hl.2.1 le_rfl hc
  | kalloc r | kfree pa => rfl

end

theorem Tables.init_ok {vm : Vm} (h : vm.Fresh) : (Tables.init vm).Ok := by
  have hrefs : ∀ q, refs tablePages (Tables.init vm).root (Empty.elim : Empty → ℕ)
      (Tables.init vm).vm q = 0 := fun q => by
    rcases q with ⟨t, p⟩ | x
    · simp only [refs, Tables.init, node_zero, ite_self]
    · exact x.elim
  have hpos := zero_notMem_frames h.kend
  refine ⟨{pa | pa ∈ frames vm.kend ∧ pa ∉ vm.free}, h.kend, ⟨hpos, fun q hq => absurd (hrefs q) hq,
    fun q _ _ hq => absurd (hrefs q) hq, fun b hb => ⟨hb.1, fun q e => ?_⟩, fun b hb => ?_⟩,
    fun t p i _ => .inl ?_, h.nodup, h.free⟩
  · rw [hrefs q] at e
    exact hpos (e ▸ hb.1)
  · refine ⟨fun hf => .inr ⟨hb, hf⟩, ?_⟩
    rintro (⟨q, e⟩ | hF)
    · rw [hrefs q] at e
      exact absurd (e ▸ hb) hpos
    · exact hF.2
  · simp only [Tables.init, node_zero, ent_zero]

theorem Tables.init_shows (vm : Vm) : (Tables.init vm).Shows fun _ _ => none := fun t va _ => by
  simp only [Tables.init, Vm.leaf, node_zero, ent_zero]
  rfl

/-- **Page tables implement finite maps.** After any sequence of calls, `walk` finds in every page
table exactly what the abstract map says; no page-table page has two places; and the next call
returns and changes no translation outside of its range. -/
theorem page_tables_implement_maps {vm : Vm} (hvm : vm.Fresh) {cs : List (TableCall × ℤ)} {s : Tables}
    (hr : Trans.Run TableStep (Tables.init vm) cs s) :
    (∃ m, Trans.Run MapStep (fun _ _ => none) cs m ∧ ∀ t va, s.root t ≠ 0 → va < MAXVA →
      translate (s.root t) va s.vm = (.ok (m t (va / PGSIZE)), s.vm)) ∧
    (∀ t p t' p', p.length ≤ 2 → p'.length ≤ 2 → s.vm.node (s.root t) p ≠ 0 →
      s.vm.node (s.root t') p' = s.vm.node (s.root t) p → t' = t ∧ p' = p) ∧
    ∀ c : TableCall, c.Legal s → ∃ r s', c.exec s = (.ok r, s') ∧
      ∀ t va, s.root t ≠ 0 → va < MAXVA → ¬ c.Covers t va → s'.found t va = s.found t va := by
  have hinv : s.Ok ∧ ∃ m, Trans.Run MapStep (fun _ _ => none) cs m ∧ s.Shows m := by
    refine hr.invariant
      (I := fun cs s => s.Ok ∧ ∃ m, Trans.Run MapStep (fun _ _ => none) cs m ∧ s.Shows m)
      ⟨Tables.init_ok hvm, _, .refl, Tables.init_shows vm⟩ ?_
    rintro cs s fs s' ⟨hok, m, hrun, hm⟩ ⟨c, r, rfl, hl, he⟩
    obtain ⟨r', s₁, e, hok', -, m', hstep, hm'⟩ := wp_total (c.simulates hok hm hl)
    cases he.symm.trans e
    exact ⟨hok', m', hrun.tail hstep, hm'⟩
  obtain ⟨hok, m, hrun, hm⟩ := hinv
  refine ⟨⟨m, hrun, fun t va ht hva => ?_⟩, fun t p t' p' hp hp' hb e => ?_, fun c hl => ?_⟩
  · rw [hok.translate_eq ht hva]
    exact congrArg (fun r => (Except.ok r, s.vm)) (hm t va hva).symm
  · exact hok.heap.path_unique depth_tablePages hp hp' hb e
  · obtain ⟨r, s', e, hok', hroot, m', hstep, hm'⟩ := wp_total (c.simulates hok hm hl)
    refine ⟨r, s', e, fun t va ht hva hc => ?_⟩
    have hrt : s'.root t = s.root t := hroot t fun ec => hc (by rw [ec]; rfl)
    rw [hok'.found_eq (by rwa [hrt]) hva, hok.found_eq ht hva, ← hm' t va hva, ← hm t va hva]
    exact hstep.frame hl hc

/-- Three free pages of zeros. -/
def threePages : Vm :=
  ⟨fun _ => Bytes.zero, [0x80001000, 0x80002000, 0x80003000], fun _ => false, 0x80001000⟩

/-- A page table is created and one page mapped. -/
theorem page_tables_implement_maps_one_page :
    ∃ s, Trans.Run TableStep (Tables.init threePages)
        [(.uvmcreate 0, 0x80001000), (.mappages 0 0 4096 0x5000 22, 0)] s ∧
      s.found 0 8 = some (0x5000, 23) ∧
      ∃ m, Trans.Run MapStep (fun _ _ => none)
          [(.uvmcreate 0, 0x80001000), (.mappages 0 0 4096 0x5000 22, 0)] m ∧
        ∀ t va, s.root t ≠ 0 → va < MAXVA →
          translate (s.root t) va s.vm = (.ok (m t (va / PGSIZE)), s.vm) := by
  have hfresh : threePages.Fresh := ⟨by decide, by decide, fun pa hpa => by
    rcases List.mem_cons.1 hpa with rfl | hpa
    · exact ⟨rfl, by decide, by decide⟩
    rcases List.mem_cons.1 hpa with rfl | hpa
    · exact ⟨rfl, by decide, by decide⟩
    cases List.mem_singleton.1 hpa
    exact ⟨rfl, by decide, by decide⟩⟩
  have h₁ : TableStep (Tables.init threePages) [(.uvmcreate 0, 0x80001000)]
      ((TableCall.uvmcreate 0).exec (Tables.init threePages)).2 := ⟨_, _, rfl, rfl, rfl⟩
  have hnone : ∀ va' < 4096,
      ((TableCall.uvmcreate 0).exec (Tables.init threePages)).2.found 0 va' = none := fun va' hlt => by
    have hpage : va' / 4096 = 0 / 4096 := by omega
    have hwalk : ∀ r, translate r va' = translate r 0 := fun r => by
      have : ¬ MAXVA ≤ va' := by simp only [MAXVA]; omega
      simp only [translate, walk, walkDown, PX_eq_of_page _ hpage, if_neg this]
      rfl
    rw [Tables.found, hwalk]
    rfl
  have h₂ : TableStep ((TableCall.uvmcreate 0).exec (Tables.init threePages)).2
      [(.mappages 0 0 4096 0x5000 22, 0)] _ :=
    ⟨_, _, rfl, ⟨by decide, rfl, rfl, by decide, by decide, by decide, by decide,
      fun va' _ hlt => hnone va' (by omega)⟩, rfl⟩
  have hr := (Trans.Run.refl.tail h₁).tail h₂
  exact ⟨_, hr, by decide +kernel, (page_tables_implement_maps hfresh hr).1⟩

end Xv6
