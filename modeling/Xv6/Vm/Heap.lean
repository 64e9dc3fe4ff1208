import Xv6.Lib.Ledger
import Xv6.Lib.Radix
import Xv6.Vm.Memory

/-!
# Who owns a page

Page tables are radix trees in memory: the node at a path of indices is found by following valid
entries. `Heap owned ρ g F s` is the invariant of the allocator for the page tables with the roots `ρ`:
the pages in use form a `Ledger` of the nodes whose paths are `owned`, the places `g` outside of the
page tables, and the floating pages `F`. The page-table pages of levels 2, 1 and 0 are always owned;
whether the pages mapped by leaves are is a matter of who frees them.
-/

namespace Xv6

open Function List Vm Set Nat Bytes

/-! ## Entries -/

theorem has_valid (e : ℕ) : has e PTE_V = true ↔ e % 2 = 1 := by
  unfold has
  rw [and_one_is_mod]
  simp

/-- The flags of an entry are in its ten low bits. -/
theorem has_mod {e f : ℕ} (hf : f < 1024) : has e f = has (e % 1024) f := by
  have := and_mod_two_pow (a := e) (b := f) (n := 10)
  rw [mod_eq_of_lt (lt_of_le_of_lt and_le_right hf), mod_eq_of_lt hf] at this
  rw [has, has, this]

theorem PTE_FLAGS_has {e f : ℕ} (hf : f < 1024) : has (PTE_FLAGS e) f = has e f := (has_mod hf).symm

theorem lor_eq_add {a b : ℕ} (hb : b < 1024) : a * 1024 ||| b = a * 1024 + b := by
  have := shiftLeft_add_eq_or_of_lt (i := 10) hb a
  rw [shiftLeft_eq] at this
  exact this.symm

/-- The page that an entry leads to, 0 if it is not valid. -/
def child (e : ℕ) : ℕ := if has e PTE_V then PTE2PA e else 0

@[simp] theorem child_zero : child 0 = 0 := rfl

theorem child_aligned (e : ℕ) : child e % 4096 = 0 := by
  unfold child PTE2PA
  split <;> omega

/-- The entry that `mappages` stores. -/
theorem entry_eq {pa perm : ℕ} (hperm : perm < 1024) :
    PA2PTE pa ||| perm ||| PTE_V = pa / 4096 * 1024 + (perm ||| 1) := by
  rw [Nat.or_assoc, PA2PTE]
  exact lor_eq_add (or_lt_two_pow (n := 10) hperm (by decide))

theorem has_entry (n : ℕ) {m : ℕ} : has (n * 1024 + (m ||| 1)) PTE_V = true := by
  rw [has_valid]
  have : (m ||| 1) % 2 = 1 := by
    rw [← and_one_is_mod, and_or_distrib_right]
    rcases mod_two_eq_zero_or_one m with h | h <;> simp [and_one_is_mod, h]
  omega

theorem child_entry {pa m : ℕ} (ha : pa % 4096 = 0) (hpa : pa < 2 ^ 64) (hm : m ||| 1 < 1024) :
    child (pa / 4096 * 1024 + (m ||| 1)) = pa := by
  rw [child, has_entry, if_pos rfl, PTE2PA]
  omega

/-! ## Memory as page tables -/

namespace Vm

/-- The entry `i` of the page-table page `b`; the null page has none. -/
def ent (s : Vm) (b i : ℕ) : ℕ := if b = 0 then 0 else Bytes.rdle (s.mem (b / PGSIZE)) (8 * i) 8

/-- The node at a path in the page table `r`. -/
abbrev node (s : Vm) (r : ℕ) (path : List ℕ) : ℕ := Radix.node child s.ent r path

/-- The entry for the address `va` in the page table `r`. -/
def leaf (s : Vm) (r va : ℕ) : ℕ := s.ent (s.node r [PX 2 va, PX 1 va]) (PX 0 va)

variable {s : Vm} {r b i pa v : ℕ} {path : List ℕ}

@[simp] theorem ent_zero : s.ent 0 i = 0 := if_pos rfl

theorem ent_lt : s.ent b i < 2 ^ 64 := by
  unfold ent
  split
  · decide
  · exact rdle_lt ..

/-- A page has 512 entries. -/
theorem ent_of_ge (hi : 512 ≤ i) : s.ent b i = 0 := by
  have hz : rdle (s.mem (b / PGSIZE)) (8 * i) 8 = rdle (zero : Page) (8 * i) 8 := by
    refine rdle_congr fun j hj _ => ?_
    rw [rd8_zero, rd8, dif_neg]
    simp only [PGSIZE]
    omega
  rw [ent, hz, rdle_zero, ite_self]

theorem pte_eq_ent (hb : b % 4096 = 0) (hb' : b ≠ 0) (hi : i < 512) : s.pte (b + 8 * i) = s.ent b i := by
  have h₁ : (b + 8 * i) / PGSIZE = b / PGSIZE := by simp only [PGSIZE]; omega
  have h₂ : (b + 8 * i) % PGSIZE = 8 * i := by simp only [PGSIZE]; omega
  rw [pte, h₁, h₂, ent, if_neg hb']

theorem node_nil : s.node r [] = r := rfl

theorem node_cons : s.node r (i :: path) = s.node (child (s.ent r i)) path := rfl

theorem node_append {q : List ℕ} : s.node r (path ++ q) = s.node (s.node r path) q :=
  Radix.node_append child

@[simp] theorem node_zero : s.node 0 path = 0 := Radix.node_of_fixed child fun _ => by rw [ent_zero, child_zero]

theorem node_aligned (hr : r % 4096 = 0) : s.node r path % 4096 = 0 := by
  rcases eq_nil_or_concat path with rfl | ⟨p, i, rfl⟩
  · exact hr
  · rw [concat_eq_append, node_append]
    exact child_aligned _

theorem mem_setPage_of_ne {d : Page} {n : ℕ} (h : n ≠ pa / 4096) : (s.setPage pa d).mem n = s.mem n :=
  update_of_ne h _ _

theorem mem_setPte_of_ne {n : ℕ} (h : n ≠ pa / 4096) : (s.setPte pa v).mem n = s.mem n :=
  update_of_ne h _ _

theorem ent_setPage_of_ne {d : Page} (hb : b / 4096 ≠ pa / 4096) : (s.setPage pa d).ent b i = s.ent b i := by
  unfold ent setPage
  simp only [PGSIZE]
  rw [update_of_ne hb]

theorem ent_setPage_zero (hb : b / 4096 = pa / 4096) : (s.setPage pa zero).ent b i = 0 := by
  unfold ent setPage
  simp only [PGSIZE, hb, update_self, rdle_zero, ite_self]

theorem ent_setPte_self (hb : b % 4096 = 0) (hb' : b ≠ 0) (hi : i < 512) :
    (s.setPte (b + 8 * i) v).ent b i = v % 2 ^ 64 := by
  rw [← pte_eq_ent hb hb' hi, pte, setPte, setPage]
  simp only [update_self]
  rw [rdle_wrle_self _ _ (by simp only [PGSIZE]; omega)]
  norm_num

theorem ent_setPte_of_ne (hb : b % 4096 = 0) (hi : i < 512) {c j : ℕ}
    (h : ¬ (c / 4096 = b / 4096 ∧ j = i)) : (s.setPte (b + 8 * i) v).ent c j = s.ent c j := by
  have h₁ : (b + 8 * i) / 4096 = b / 4096 := by omega
  by_cases hc : c / 4096 = b / 4096
  · have hj : j ≠ i := fun e => h ⟨hc, e⟩
    unfold ent setPte setPage
    simp only [PGSIZE, h₁, hc, update_self]
    rw [rdle_wrle_of_disjoint _ _ (by omega)]
  · exact ent_setPage_of_ne (by rwa [h₁])

end Vm

/-! ## Ownership -/

/-- The pages that the allocator manages. -/
def frames (kend : ℕ) : Set ℕ := {pa | pa % 4096 = 0 ∧ kend ≤ pa ∧ pa < PHYSTOP}

/-- Memory whose free list is in order. The other pages are in use by the callers. -/
structure Vm.Fresh (vm : Vm) : Prop where
  kend : KERNBASE ≤ vm.kend
  nodup : vm.free.Nodup
  free : ∀ pa ∈ vm.free, pa ∈ frames vm.kend

theorem zero_notMem_frames {kend : ℕ} (h : KERNBASE ≤ kend) : (0 : ℕ) ∉ frames kend := fun h₀ => by
  have : kend ≤ 0 := h₀.2.1
  simp only [KERNBASE] at h
  omega

/-- Paths of page-table pages are owned, and nothing below the leaves is. -/
structure Depth (owned : List ℕ → Bool) : Prop where
  table : ∀ p, p.length ≤ 2 → owned p = true
  leaf : ∀ p, owned p = true → p.length ≤ 3

variable {ι X : Type} {owned : List ℕ → Bool} {ρ : ι → ℕ} {g : X → ℕ} {F : Set ℕ} {s s' : Vm}
  {pa : ℕ} {t : ι} {p : List ℕ}

/-- The pages that places refer to: nodes of page tables, and the places `g`. -/
def refs (owned : List ℕ → Bool) (ρ : ι → ℕ) (g : X → ℕ) (s : Vm) : (ι × List ℕ) ⊕ X → ℕ
  | .inl q => if owned q.2 then s.node (ρ q.1) q.2 else 0
  | .inr x => g x

/-- Above the leaves, an entry is empty or leads to a page-table page and has no flag but `PTE_V`. The
upper half of a root is empty, since `MAXVA` is half of what three levels can map. -/
def Inner (ρ : ι → ℕ) (s : Vm) : Prop :=
  ∀ t p i, p.length ≤ 1 → s.ent (s.node (ρ t) p) i = 0 ∨
    s.ent (s.node (ρ t) p) i % 1024 = 1 ∧ child (s.ent (s.node (ρ t) p) i) ≠ 0 ∧ (p = [] → i < 256)

/-- The page `pa` is no page-table page. -/
def NoTable (ρ : ι → ℕ) (s : Vm) (pa : ℕ) : Prop := ∀ t p, p.length ≤ 2 → s.node (ρ t) p ≠ pa

/-- The invariant of the allocator. -/
structure Heap (owned : List ℕ → Bool) (ρ : ι → ℕ) (g : X → ℕ) (F : Set ℕ) (s : Vm) : Prop where
  kend : KERNBASE ≤ s.kend
  ledger : Ledger (frames s.kend) (refs owned ρ g s) (· ∉ s.free) F
  inner : Inner ρ s
  nodup : s.free.Nodup
  free : ∀ pa ∈ s.free, pa ∈ frames s.kend

namespace Heap

theorem root_aligned (hD : Depth owned) (h : Heap owned ρ g F s) (t : ι) : ρ t % 4096 = 0 := by
  have hr : refs owned ρ g s (.inl (t, [])) = ρ t := by simp [refs, hD.table]
  by_cases h₀ : ρ t = 0
  · rw [h₀]
  · have := h.ledger.range (.inl (t, [])) (by rwa [hr])
    rw [hr] at this
    exact this.1

theorem node_aligned (hD : Depth owned) (h : Heap owned ρ g F s) : s.node (ρ t) p % 4096 = 0 :=
  Vm.node_aligned (h.root_aligned hD t)

/-- A page that no place refers to is no page-table page. -/
theorem noTable_of_refs (hD : Depth owned) (hun : ∀ q, refs owned ρ g s q ≠ pa) : NoTable ρ s pa :=
  fun t p hp => by
    have := hun (.inl (t, p))
    simpa only [refs, hD.table p hp, if_true] using this

theorem div_ne (hD : Depth owned) (h : Heap owned ρ g F s) (hpa : pa % 4096 = 0)
    (hne : s.node (ρ t) p ≠ pa) : s.node (ρ t) p / 4096 ≠ pa / 4096 := by
  have := h.node_aligned hD (t := t) (p := p)
  omega

theorem node_setPage (hD : Depth owned) (h : Heap owned ρ g F s) (hpa : pa % 4096 = 0)
    (hun : NoTable ρ s pa) (d : Page) (hp : p.length ≤ 3) :
    (s.setPage pa d).node (ρ t) p = s.node (ρ t) p := by
  refine Radix.node_congr child (C := fun b _ => b / 4096 = pa / 4096)
    (fun b k hb => ent_setPage_of_ne hb) fun q k rest hq => ?_
  refine h.div_ne hD hpa (hun t q ?_)
  rw [hq] at hp
  simp only [length_append, length_cons] at hp
  omega

theorem refs_setPage (hD : Depth owned) (h : Heap owned ρ g F s) (hpa : pa % 4096 = 0)
    (hun : NoTable ρ s pa) (d : Page) :
    refs owned ρ g (s.setPage pa d) = refs owned ρ g s := by
  funext q
  rcases q with ⟨t, p⟩ | x
  · by_cases hp : owned p = true
    · simp only [refs, hp, if_true]
      exact h.node_setPage hD hpa hun d (hD.leaf p hp)
    · simp only [refs, if_neg hp]
  · rfl

theorem leaf_setPage (hD : Depth owned) (h : Heap owned ρ g F s) (hpa : pa % 4096 = 0)
    (hun : NoTable ρ s pa) (d : Page) (va : ℕ) :
    (s.setPage pa d).leaf (ρ t) va = s.leaf (ρ t) va := by
  have hn := h.node_setPage hD hpa hun d (t := t) (p := [PX 2 va, PX 1 va]) (by simp)
  rw [leaf, hn, leaf]
  exact ent_setPage_of_ne (h.div_ne hD hpa (hun t _ (by simp)))

theorem inner_setPage (hD : Depth owned) (h : Heap owned ρ g F s) (hpa : pa % 4096 = 0)
    (hun : NoTable ρ s pa) (d : Page) : Inner ρ (s.setPage pa d) := fun t p i hp => by
  rw [h.node_setPage hD hpa hun d (by omega),
    ent_setPage_of_ne (h.div_ne hD hpa (hun t p (by omega)))]
  exact h.inner t p i hp

/-- A page in the free list is referred to by no place. -/
theorem refs_ne_of_free (h : Heap owned ρ g F s) (hpa : pa ∈ s.free) (q : (ι × List ℕ) ⊕ X) :
    refs owned ρ g s q ≠ pa :=
  h.ledger.ref_ne_of_not_used (h.free pa hpa) (not_not_intro hpa) q

theorem refs_ne_of_float (h : Heap owned ρ g F s) (hpa : pa ∈ F) (q : (ι × List ℕ) ⊕ X) :
    refs owned ρ g s q ≠ pa := (h.ledger.float pa hpa).2 q

theorem noTable_of_free (hD : Depth owned) (h : Heap owned ρ g F s) (hpa : pa ∈ s.free) :
    NoTable ρ s pa := noTable_of_refs hD (h.refs_ne_of_free hpa)

theorem noTable_of_float (hD : Depth owned) (h : Heap owned ρ g F s) (hpa : pa ∈ F) :
    NoTable ρ s pa := noTable_of_refs hD (h.refs_ne_of_float hpa)

theorem frame_of_float (h : Heap owned ρ g F s) (hpa : pa ∈ F) : pa ∈ frames s.kend :=
  (h.ledger.float pa hpa).1

theorem ne_zero (h : Heap owned ρ g F s) (hpa : pa ∈ frames s.kend) : pa ≠ 0 := h.ledger.ne_zero hpa

/-- The floating pages are those in use that no place refers to. -/
theorem float_eq (h : Heap owned ρ g F s) :
    F = {b | b ∈ frames s.kend ∧ b ∉ s.free ∧ ∀ q, refs owned ρ g s q ≠ b} := by
  ext b
  refine ⟨fun hb => ?_, fun ⟨hfr, hfree, hne⟩ => ?_⟩
  · have hfr := h.frame_of_float hb
    exact ⟨hfr, (h.ledger.used_iff b hfr).2 (.inr hb), h.refs_ne_of_float hb⟩
  · exact ((h.ledger.used_iff b hfr).1 hfree).resolve_left fun ⟨q, hq⟩ => hne q hq

theorem answered (h : Heap owned ρ g F s) : Heap owned ρ g F s.answered :=
  ⟨h.kend, h.ledger, h.inner, h.nodup, h.free⟩

/-- The allocator hands out the first free page. -/
theorem take (hD : Depth owned) (h : Heap owned ρ g F s) {rest : List ℕ} (hf : s.free = pa :: rest)
    (d : Page) : Heap owned ρ g (insert pa F) ({ s with free := rest }.setPage pa d) := by
  have hmem : pa ∈ s.free := by rw [hf]; exact mem_cons_self
  have hpa := h.free pa hmem
  have hun := h.noTable_of_free hD hmem
  have hnd := h.nodup
  rw [hf] at hnd
  have hrefs : refs owned ρ g ({ s with free := rest }.setPage pa d) = refs owned ρ g s :=
    h.refs_setPage hD hpa.1 hun d
  refine ⟨h.kend, ?_, h.inner_setPage hD hpa.1 hun d, (nodup_cons.1 hnd).2, fun q hq => ?_⟩
  · rw [hrefs]
    refine h.ledger.take hpa (not_not_intro hmem) fun c _ => ?_
    show c ∉ rest ↔ c = pa ∨ c ∉ s.free
    rw [hf, mem_cons]
    have := (nodup_cons.1 hnd).1
    constructor
    · intro hc
      by_cases e : c = pa
      · exact .inl e
      · exact .inr (by simp [e, hc])
    · rintro (rfl | hc)
      · exact this
      · exact fun hm => hc (.inr hm)
  · exact h.free q (by rw [hf]; exact mem_cons_of_mem _ hq)

theorem fill (hD : Depth owned) (h : Heap owned ρ g F s) (hpa : pa % 4096 = 0) (hun : NoTable ρ s pa)
    (d : Page) : Heap owned ρ g F (s.setPage pa d) := by
  refine ⟨h.kend, ?_, h.inner_setPage hD hpa hun d, h.nodup, h.free⟩
  rw [h.refs_setPage hD hpa hun d]
  exact h.ledger

/-- The allocator takes back a floating page. -/
theorem give (hD : Depth owned) (h : Heap owned ρ g F s) (hpa : pa ∈ F) (d : Page) :
    Heap owned ρ g (F \ {pa}) ({ s with free := pa :: s.free }.setPage pa d) := by
  have hfr := h.frame_of_float hpa
  have hun := h.noTable_of_float hD hpa
  have hused : pa ∉ s.free := (h.ledger.used_iff pa hfr).2 (.inr hpa)
  have hrefs : refs owned ρ g ({ s with free := pa :: s.free }.setPage pa d) = refs owned ρ g s :=
    h.refs_setPage hD hfr.1 hun d
  refine ⟨h.kend, ?_, h.inner_setPage hD hfr.1 hun d, nodup_cons.2 ⟨hused, h.nodup⟩, fun q hq => ?_⟩
  · rw [hrefs]
    refine h.ledger.give hpa fun c _ => ?_
    show c ∉ pa :: s.free ↔ c ≠ pa ∧ c ∉ s.free
    rw [mem_cons, not_or]
  · rcases mem_cons.1 hq with rfl | hq
    · exact hfr
    · exact h.free q hq

/-! ### Writing an entry -/

section

variable {i v : ℕ}

/-- The pages of page tables have one path. -/
theorem path_unique (hD : Depth owned) (h : Heap owned ρ g F s) {t' : ι} {q : List ℕ}
    (hp : p.length ≤ 2) (hq : q.length ≤ 2) (hb : s.node (ρ t) p ≠ 0)
    (e : s.node (ρ t') q = s.node (ρ t) p) : t' = t ∧ q = p := by
  have hr : ∀ (t : ι) (p : List ℕ), p.length ≤ 2 → refs owned ρ g s (.inl (t, p)) = s.node (ρ t) p :=
    fun t p hp => by simp only [refs, hD.table p hp, if_true]
  have := h.ledger.inj (.inl (t', q)) (.inl (t, p)) (by rw [hr _ _ hq, hr _ _ hp, e])
    (by rwa [hr _ _ hq, e])
  simpa using this

/-- An entry is on the path only of the nodes below it. -/
theorem node_setPte (hD : Depth owned) (h : Heap owned ρ g F s) (hp : p.length ≤ 2) (hi : i < 512)
    (hb : s.node (ρ t) p ≠ 0) {t' : ι} {q : List ℕ} (hq : q.length ≤ 3)
    (hne : ∀ rest, ¬ (t' = t ∧ q = p ++ i :: rest)) :
    (s.setPte (s.node (ρ t) p + 8 * i) v).node (ρ t') q = s.node (ρ t') q := by
  have ha := h.node_aligned hD (t := t) (p := p)
  refine Radix.node_congr child
    (C := fun c j => c / 4096 = s.node (ρ t) p / 4096 ∧ j = i)
    (fun c j hc => ent_setPte_of_ne ha hi hc) fun q' k rest e => ?_
  rintro ⟨hc, rfl⟩
  have ha' := h.node_aligned hD (t := t') (p := q')
  rw [e] at hq
  simp only [length_append, length_cons] at hq
  have hc' : s.node (ρ t') q' / 4096 = s.node (ρ t) p / 4096 := hc
  obtain ⟨rfl, rfl⟩ := h.path_unique hD hp (by omega) hb
    (show s.node (ρ t') q' = s.node (ρ t) p by omega)
  exact hne rest ⟨rfl, e⟩

theorem node_setPte_below (hD : Depth owned) (h : Heap owned ρ g F s) (hp : p.length ≤ 2)
    (hi : i < 512) (hb : s.node (ρ t) p ≠ 0) (rest : List ℕ) :
    (s.setPte (s.node (ρ t) p + 8 * i) v).node (ρ t) (p ++ i :: rest) =
      (s.setPte (s.node (ρ t) p + 8 * i) v).node (child (v % 2 ^ 64)) rest := by
  have hself : (s.setPte (s.node (ρ t) p + 8 * i) v).node (ρ t) p = s.node (ρ t) p := by
    refine h.node_setPte hD hp hi hb (by omega) fun rest e => ?_
    have := congrArg List.length e.2
    simp only [length_append, length_cons] at this
    omega
  rw [node_append, node_cons, hself, ent_setPte_self (h.node_aligned hD) hb hi]

/-- What an entry leads to changes, and there is nothing below it before and after. -/
theorem refs_setPte [DecidableEq ι] [DecidableEq X] (hD : Depth owned) (h : Heap owned ρ g F s)
    (hp : p.length ≤ 2) (hi : i < 512) (hb : s.node (ρ t) p ≠ 0)
    (hbelow : ∀ k rest, p.length < 2 → s.node (ρ t) (p ++ i :: k :: rest) = 0 ∧
      (s.setPte (s.node (ρ t) p + 8 * i) v).node (child (v % 2 ^ 64)) (k :: rest) = 0) :
    refs owned ρ g (s.setPte (s.node (ρ t) p + 8 * i) v) =
      update (refs owned ρ g s) (.inl (t, p ++ [i]))
        (if owned (p ++ [i]) then child (v % 2 ^ 64) else 0) := by
  funext q
  by_cases e : q = .inl (t, p ++ [i])
  · subst e
    rw [update_self, refs]
    simp only [h.node_setPte_below hD hp hi hb [], node_nil]
  · rw [update_of_ne e]
    rcases q with ⟨t', q⟩ | x
    · by_cases ho : owned q = true
      · simp only [refs, ho, if_true]
        by_cases hq : ∃ rest, t' = t ∧ q = p ++ i :: rest
        · obtain ⟨rest, rfl, rfl⟩ := hq
          cases rest with
          | nil => exact absurd rfl e
          | cons k rest =>
            have hlen := hD.leaf _ ho
            simp only [length_append, length_cons] at hlen
            obtain ⟨h₁, h₂⟩ := hbelow k rest (by omega)
            rw [h.node_setPte_below hD hp hi hb, h₁, h₂]
        · exact h.node_setPte hD hp hi hb (hD.leaf q ho) fun rest hr => hq ⟨rest, hr⟩
      · simp only [refs, if_neg ho]
    · rfl

/-- The entries above the leaves, after a write to one of them or to a leaf. -/
theorem inner_setPte (hD : Depth owned) (h : Heap owned ρ g F s) (hp : p.length ≤ 2) (hi : i < 512)
    (hb : s.node (ρ t) p ≠ 0)
    (hv : p.length ≤ 1 → v % 2 ^ 64 % 1024 = 1 ∧ child (v % 2 ^ 64) ≠ 0 ∧ (p = [] → i < 256))
    (hbelow : ∀ j, p.length ≤ 1 → (s.setPte (s.node (ρ t) p + 8 * i) v).ent (child (v % 2 ^ 64)) j = 0) :
    Inner ρ (s.setPte (s.node (ρ t) p + 8 * i) v) := by
  have ha := h.node_aligned hD (t := t) (p := p)
  intro t' q j hq
  by_cases hbel : ∃ rest, t' = t ∧ q = p ++ i :: rest
  · -- the node is below the entry that was written
    obtain ⟨rest, rfl, rfl⟩ := hbel
    simp only [length_append, length_cons] at hq
    obtain rfl : rest = [] := eq_nil_of_length_eq_zero (by omega)
    rw [h.node_setPte_below hD hp hi hb, node_nil]
    exact .inl (hbelow j (by omega))
  · rw [h.node_setPte hD hp hi hb (by omega) fun rest e => hbel ⟨rest, e⟩]
    by_cases hsame : s.node (ρ t') q / 4096 = s.node (ρ t) p / 4096 ∧ j = i
    · obtain ⟨hdiv, rfl⟩ := hsame
      have ha' := h.node_aligned hD (t := t') (p := q)
      obtain ⟨rfl, rfl⟩ := h.path_unique hD hp (by omega) hb
        (show s.node (ρ t') q = s.node (ρ t) p by omega)
      rw [ent_setPte_self ha hb hi]
      exact .inr (hv hq)
    · rw [ent_setPte_of_ne ha hi hsame]
      exact h.inner t' q j hq

/-! ### Attaching and detaching pages -/

/-- The entry that `walk` stores for a new page-table page. -/
theorem child_tableEntry (h : Heap owned ρ g F s) (hpa : pa ∈ F) :
    child ((pa / 4096 * 1024 + 1) % 2 ^ 64) = pa := by
  have hfr := h.frame_of_float hpa
  have hlt : pa < 2 ^ 64 := hfr.2.2.trans (by decide)
  rw [mod_eq_of_lt (by omega)]
  exact child_entry (m := 0) hfr.1 hlt (by decide)

/-- A floating page does not change when an entry of a page table is written. -/
theorem ent_setPte_float (hD : Depth owned) (h : Heap owned ρ g F s) (hp : p.length ≤ 2) (hi : i < 512)
    (hpa : pa ∈ F) {j : ℕ} : (s.setPte (s.node (ρ t) p + 8 * i) v).ent pa j = s.ent pa j := by
  have hne := h.div_ne hD (h.frame_of_float hpa).1 (h.noTable_of_float hD hpa t p hp)
  exact ent_setPte_of_ne (h.node_aligned hD) hi fun e => hne e.1.symm

/-- A floating page of zeros becomes a page-table page. -/
theorem attachTable (hD : Depth owned) (h : Heap owned ρ g F s)
    (hp : p.length ≤ 1) (hi : i < 512) (hb : s.node (ρ t) p ≠ 0)
    (hroot : p = [] → i < 256) (he : s.ent (s.node (ρ t) p) i = 0) (hpa : pa ∈ F)
    (hz : ∀ j, s.ent pa j = 0) :
    Heap owned ρ g (F \ {pa}) (s.setPte (s.node (ρ t) p + 8 * i) (pa / 4096 * 1024 + 1)) := by
  classical
  have hfr := h.frame_of_float hpa
  have hv := h.child_tableEntry hpa
  have hz' : ∀ j, (s.setPte (s.node (ρ t) p + 8 * i) (pa / 4096 * 1024 + 1)).ent pa j = 0 := fun j => by
    rw [h.ent_setPte_float hD (by omega) hi hpa, hz]
  refine ⟨h.kend, ?_, ?_, h.nodup, h.free⟩
  · rw [h.refs_setPte hD (by omega) hi hb fun k rest _ => ⟨?_, ?_⟩, hD.table _ (by simpa using hp),
      if_pos rfl, hv]
    · refine h.ledger.attach ?_ hpa
      simp only [refs, hD.table (p ++ [i]) (by simpa using hp), if_true]
      rw [node_append, node_cons, node_nil, he, child_zero]
    · rw [node_append, node_cons, he, child_zero, node_zero]
    · rw [hv, node_cons, hz', child_zero, node_zero]
  · refine h.inner_setPte hD (by omega) hi hb (fun _ => ⟨by omega, ?_, hroot⟩) fun j _ => ?_
    · rw [hv]
      exact h.ne_zero hfr
    · rw [hv, hz']

/-- A leaf is written: nothing is owned there before, and a floating page or nothing after. -/
theorem attachLeaf (hD : Depth owned) (h : Heap owned ρ g F s)
    (hp : p.length = 2) (hi : i < 512) (hb : s.node (ρ t) p ≠ 0)
    (he : child (s.ent (s.node (ρ t) p) i) = 0)
    (hpa : owned (p ++ [i]) = true → child (v % 2 ^ 64) ∈ F) :
    Heap owned ρ g (F \ {b | owned (p ++ [i]) = true ∧ b = child (v % 2 ^ 64)})
      (s.setPte (s.node (ρ t) p + 8 * i) v) := by
  classical
  have hrefs := h.refs_setPte hD (v := v) (by omega) hi hb fun k rest hlt => by omega
  have hold : refs owned ρ g s (.inl (t, p ++ [i])) = 0 := by
    simp only [refs]
    rw [node_append, node_cons, node_nil, he, ite_self]
  refine ⟨h.kend, ?_, ?_, h.nodup, h.free⟩
  · rw [hrefs]
    by_cases ho : owned (p ++ [i]) = true
    · have hF : F \ {b | owned (p ++ [i]) = true ∧ b = child (v % 2 ^ 64)} = F \ {child (v % 2 ^ 64)} := by
        ext b
        simp [ho]
      rw [if_pos ho, hF]
      exact h.ledger.attach hold (hpa ho)
    · have hF : F \ {b | owned (p ++ [i]) = true ∧ b = child (v % 2 ^ 64)} = F := by
        ext b
        simp [ho]
      rw [if_neg ho, hF, ← hold, update_eq_self]
      exact h.ledger
  · exact h.inner_setPte hD (by omega) hi hb (fun hp' => by omega) fun j hp' => by omega

/-- A leaf is written that leads to the same page. -/
theorem sameLeaf (hD : Depth owned) (h : Heap owned ρ g F s) (hp : p.length = 2) (hi : i < 512)
    (hb : s.node (ρ t) p ≠ 0) (he : child (v % 2 ^ 64) = child (s.ent (s.node (ρ t) p) i)) :
    Heap owned ρ g F (s.setPte (s.node (ρ t) p + 8 * i) v) := by
  classical
  have hold : (if owned (p ++ [i]) then child (v % 2 ^ 64) else 0) =
      refs owned ρ g s (.inl (t, p ++ [i])) := by
    simp only [refs]
    rw [he, node_append, node_cons, node_nil]
  refine ⟨h.kend, ?_, ?_, h.nodup, h.free⟩
  · rw [h.refs_setPte hD (by omega) hi hb fun k rest hlt => by omega, hold, update_eq_self]
    exact h.ledger
  · exact h.inner_setPte hD (by omega) hi hb (fun hp' => by omega) fun j hp' => by omega

/-- A leaf is cleared, and its page floats. -/
theorem detachLeaf (hD : Depth owned) (h : Heap owned ρ g F s)
    (hp : p.length = 2) (hi : i < 512) (hb : s.node (ρ t) p ≠ 0) (hv : child (v % 2 ^ 64) = 0) :
    Heap owned ρ g (F ∪ {b | b ≠ 0 ∧ owned (p ++ [i]) = true ∧
        child (s.ent (s.node (ρ t) p) i) = b}) (s.setPte (s.node (ρ t) p + 8 * i) v) := by
  classical
  have hrefs := h.refs_setPte hD (v := v) (by omega) hi hb fun k rest hlt => by omega
  have hold : refs owned ρ g s (.inl (t, p ++ [i])) =
      if owned (p ++ [i]) then child (s.ent (s.node (ρ t) p) i) else 0 := by
    simp only [refs]
    rw [node_append, node_cons, node_nil]
  refine ⟨h.kend, ?_, ?_, h.nodup, h.free⟩
  · rw [hrefs, hv, ite_self]
    have hF : {b | b ≠ 0 ∧ owned (p ++ [i]) = true ∧ child (s.ent (s.node (ρ t) p) i) = b} =
        {b | b ≠ 0 ∧ ∃ q ∈ ({.inl (t, p ++ [i])} : Set ((ι × List ℕ) ⊕ X)), refs owned ρ g s q = b} := by
      ext b
      simp only [mem_ofPred_eq, mem_singleton_iff, exists_eq_left, hold]
      by_cases ho : owned (p ++ [i]) = true
      · simp [ho]
      · simpa [ho] using fun hb e => hb e.symm
    rw [hF]
    refine h.ledger.detach {.inl (t, p ++ [i])} (fun q hq => ?_) fun q hq => ?_
    · rw [mem_singleton_iff.1 hq, update_self]
    · exact update_of_ne hq _ _
  · exact h.inner_setPte hD (by omega) hi hb (fun hp' => by omega) fun j hp' => by omega

end

/-! ### Places outside of the page tables -/

theorem refs_update [DecidableEq X] [DecidableEq ((ι × List ℕ) ⊕ X)] (x : X) (pa : ℕ) :
    refs owned ρ (update g x pa) s = update (refs owned ρ g s) (.inr x) pa := by
  funext q
  by_cases hq : q = .inr x
  · subst hq
    rw [update_self]
    exact update_self x pa g
  · rw [update_of_ne hq]
    rcases q with q | y
    · rfl
    · exact update_of_ne (fun e => hq (congrArg Sum.inr e)) _ _

/-- A floating page is stored in a place. -/
theorem attachPlace [DecidableEq X] {x : X} (h : Heap owned ρ g F s) (hx : g x = 0) (hpa : pa ∈ F) :
    Heap owned ρ (update g x pa) (F \ {pa}) s := by
  classical
  refine ⟨h.kend, ?_, h.inner, h.nodup, h.free⟩
  rw [refs_update]
  exact h.ledger.attach hx hpa

/-- A place is cleared, and its page floats. -/
theorem detachPlace [DecidableEq X] {x : X} (h : Heap owned ρ g F s) (hx : g x ≠ 0) :
    Heap owned ρ (update g x 0) (insert (g x) F) s := by
  classical
  refine ⟨h.kend, ?_, h.inner, h.nodup, h.free⟩
  have hF : insert (g x) F = F ∪ {b | b ≠ 0 ∧ ∃ q ∈ ({.inr x} : Set ((ι × List ℕ) ⊕ X)),
      refs owned ρ g s q = b} := by
    ext b
    simp only [Set.mem_insert_iff, Set.mem_union, Set.mem_ofPred_eq, Set.mem_singleton_iff,
      exists_eq_left]
    constructor
    · rintro (rfl | hb)
      · exact .inr ⟨hx, rfl⟩
      · exact .inl hb
    · rintro (hb | ⟨-, rfl⟩)
      · exact .inr hb
      · exact .inl rfl
  rw [refs_update, hF]
  refine h.ledger.detach {.inr x} (fun q hq => ?_) fun q hq => ?_
  · rw [Set.mem_singleton_iff.1 hq, update_self]
  · exact update_of_ne hq _ _

/-- The page tables under other names. -/
theorem comp {ι' : Type} (h : Heap owned ρ g F s) (e : ι' ≃ ι) : Heap owned (ρ ∘ e) g F s := by
  refine ⟨h.kend, ?_, fun t p i hp => h.inner (e t) p i hp, h.nodup, h.free⟩
  have hrefs : refs owned (ρ ∘ e) g s =
      refs owned ρ g s ∘ Equiv.sumCongr (Equiv.prodCongr e (Equiv.refl _)) (Equiv.refl X) := by
    funext q
    rcases q with q | x <;> rfl
  rw [hrefs]
  exact h.ledger.comp _

end Heap

end Xv6
