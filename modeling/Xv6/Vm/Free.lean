import Xv6.Vm.User

/-!
# Freeing page tables

`freewalk` frees the pages of a page table in which no leaf is left. Its pages float from the start
here: the page table is first taken out of the heap, which then has nothing to say about its contents.
`Doomed s d b S` is the shape that `freewalk` relies on.
-/

namespace Xv6

open Function Prog List Vm

/-- The page `b` is the root of a tree of `d` levels of page-table pages, the pages of `S`, which maps
nothing. -/
def Doomed (s : Vm) : ℕ → ℕ → Set ℕ → Prop
  | 0, _, _ => False
  | d + 1, b, S => b ≠ 0 ∧ b % 4096 = 0 ∧ ∃ T : ℕ → Set ℕ,
      S = insert b {c | ∃ i < 512, c ∈ T i} ∧ (∀ i < 512, b ∉ T i) ∧
      (∀ i < 512, ∀ j < 512, i ≠ j → ∀ c ∈ T i, c ∉ T j) ∧
      ∀ i < 512, has (s.ent b i) PTE_V = false ∧ T i = ∅ ∨
        s.ent b i % 1024 = 1 ∧ Doomed s d (child (s.ent b i)) (T i)

/-- An entry with no flag but `PTE_V` is no leaf. -/
theorem not_has_of_table {e : ℕ} (he : e % 1024 = 1) : has e (PTE_R ||| PTE_W ||| PTE_X) = false := by
  rw [has_mod (by decide), he]
  rfl

theorem Doomed.congr {s s' : Vm} {d b : ℕ} {S : Set ℕ} (h : Doomed s d b S)
    (hm : ∀ c ∈ S, s'.mem (c / 4096) = s.mem (c / 4096)) : Doomed s' d b S := by
  induction d generalizing b S with
  | zero => exact h
  | succ d ih =>
    obtain ⟨hb, hal, T, rfl, hT, hdis, hent⟩ := h
    have he : ∀ i, s'.ent b i = s.ent b i := fun i => by
      unfold ent
      rw [hm b (Set.mem_insert _ _)]
    refine ⟨hb, hal, T, rfl, hT, hdis, fun i hi => ?_⟩
    rw [he]
    refine (hent i hi).imp_right fun ⟨h₁, h₂⟩ => ⟨h₁, ih h₂ fun c hc => hm c ?_⟩
    exact Set.mem_insert_of_mem _ ⟨i, hi, hc⟩

variable {ι X : Type} {owned : List ℕ → Bool} {ρ : ι → ℕ} {g : X → ℕ} {F S : Set ℕ} {s s' : Vm} {t : ι}
  {b d : ℕ}

theorem Vm.setPage_congr {a : ℕ} {e : Page} (h : a / 4096 = b / 4096) : s.setPage a e = s.setPage b e := by
  unfold setPage
  simp only [PGSIZE, h]

/-- An entry of a page that is no page-table page is written. -/
theorem Heap.fillPte (hD : Depth owned) (h : Heap owned ρ g F s) (hb : b % 4096 = 0)
    (hun : NoTable ρ s b) {i v : ℕ} (hi : i < 512) : Heap owned ρ g F (s.setPte (b + 8 * i) v) := by
  rw [setPte, setPage_congr (show (b + 8 * i) / 4096 = b / 4096 by omega)]
  exact h.fill hD hb hun _

/-- What freeing the pages of `S` does. -/
structure FreePost (owned : List ℕ → Bool) (ρ : ι → ℕ) (g : X → ℕ) (F S : Set ℕ) (s s' : Vm) :
    Prop where
  heap : Heap owned ρ g (F \ S) s'
  kend : s'.kend = s.kend
  mem : ∀ n, n * 4096 ∉ S → s'.mem n = s.mem n

section

variable {E : VmPanic → Vm → Prop} {i : ℕ} {T : ℕ → Set ℕ}

/-- An entry that is empty or leads to a tree of `d` levels, the pages of `T`. -/
def Entry (s : Vm) (d b i : ℕ) (T : Set ℕ) : Prop :=
  has (s.ent b i) PTE_V = false ∧ T = ∅ ∨ s.ent b i % 1024 = 1 ∧ Doomed s d (child (s.ent b i)) T

/-- One entry of a page-table page that floats. -/
theorem wp_freeEntry (hD : Depth owned) (h : Heap owned ρ g F s) (hb : b ∈ F) (hi : i < 512)
    (hS : S ⊆ F) (hbS : b ∉ S) (he : Entry s d b i S)
    (hfree : ∀ c, Doomed s d c S →
      wp (freewalk d c) (fun _ s' => FreePost owned ρ g F S s s') E s) :
    wp (freeEntry (freewalk d) b i) (fun _ s' => Heap owned ρ g (F \ S) s' ∧ s'.kend = s.kend ∧
      (∀ n, n * 4096 ≠ b → n * 4096 ∉ S → s'.mem n = s.mem n) ∧
      ∀ j, j ≠ i → s'.ent b j = s.ent b j) E s := by
  have hfr := h.frame_of_float hb
  simp only [freeEntry, readPte, wp_bind, wp_get, wp_pure,
    pte_eq_ent hfr.1 (h.ne_zero hfr) hi]
  rcases he with ⟨hv, rfl⟩ | ⟨ht, hd⟩
  · rw [hv, if_neg (by simp), if_neg (by decide), Set.sdiff_empty]
    exact ⟨h, rfl, fun _ _ _ => rfl, fun _ _ => rfl⟩
  · have hv : has (s.ent b i) PTE_V = true := by
      rw [has_valid]
      omega
    rw [hv, not_has_of_table ht, if_pos (by decide), wp_bind]
    have hpa : PTE2PA (s.ent b i) = child (s.ent b i) := by rw [child, if_pos hv]
    rw [hpa]
    refine wp_mono (hfree _ hd) (fun _ s₁ hq => ?_) fun _ _ he => he
    have hb₁ : b ∈ F \ S := ⟨hb, hbS⟩
    have hpage : b / 4096 * 4096 = b := Nat.div_mul_cancel (Nat.dvd_of_mod_eq_zero hfr.1)
    refine ⟨hq.heap.fillPte hD hfr.1 (hq.heap.noTable_of_float hD hb₁) hi, hq.kend, fun n hn hnS => ?_,
      fun j hj => ?_⟩
    · rw [mem_setPte_of_ne (by omega), hq.mem n hnS]
    · rw [ent_setPte_of_ne hfr.1 hi fun e => hj e.2]
      unfold ent
      rw [hq.mem (b / 4096) (by rwa [hpage])]

theorem wp_freeEntries (hD : Depth owned)
    (hfree : ∀ F s c S, Heap owned ρ g F s → S ⊆ F → Doomed s d c S →
      wp (freewalk d c) (fun _ s' => FreePost owned ρ g F S s s') E s)
    (js : List ℕ) (hnd : js.Nodup) (hjs : ∀ i ∈ js, i < 512) (h : Heap owned ρ g F s) (hb : b ∈ F)
    (hS : ∀ i ∈ js, T i ⊆ F) (hbT : ∀ i ∈ js, b ∉ T i)
    (hdis : ∀ i ∈ js, ∀ j ∈ js, i ≠ j → ∀ c ∈ T i, c ∉ T j) (he : ∀ i ∈ js, Entry s d b i (T i)) :
    wp (Prog.each (freeEntry (freewalk d) b) js) (fun _ s' =>
      Heap owned ρ g (F \ {c | ∃ i ∈ js, c ∈ T i}) s' ∧ s'.kend = s.kend ∧
      ∀ n, n * 4096 ≠ b → (∀ i ∈ js, n * 4096 ∉ T i) → s'.mem n = s.mem n) E s := by
  induction js generalizing F s with
  | nil =>
    refine ⟨?_, rfl, fun _ _ _ => rfl⟩
    rw [show {c | ∃ i ∈ ([] : List ℕ), c ∈ T i} = ∅ by ext c; simp, Set.sdiff_empty]
    exact h
  | cons i js ih =>
    rw [nodup_cons] at hnd
    have hi : i ∈ i :: js := mem_cons_self
    have hmem : ∀ {j}, j ∈ js → j ∈ i :: js := fun hj => mem_cons_of_mem _ hj
    have hne : ∀ {j}, j ∈ js → i ≠ j := fun hj e => hnd.1 (e ▸ hj)
    refine wp_call (wp_freeEntry hD h hb (hjs i hi) (hS i hi) (hbT i hi) (he i hi)
      fun c hc => hfree F s c _ h (hS i hi) hc) fun _ s₁ hq => ?_
    obtain ⟨h₁, hk, hm, hent⟩ := hq
    -- the other subtrees have not changed
    have hEntry : ∀ j ∈ js, Entry s₁ d b j (T j) := fun j hj => by
      unfold Entry
      rw [hent j (hne hj).symm]
      refine (he j (hmem hj)).imp_right fun ⟨h₁, h₂⟩ => ⟨h₁, h₂.congr fun c hc => hm _ ?_ ?_⟩
      · have hal := (h.frame_of_float (hS j (hmem hj) hc)).1
        rw [Nat.div_mul_cancel (Nat.dvd_of_mod_eq_zero hal)]
        exact fun e => hbT j (hmem hj) (e ▸ hc)
      · have hal := (h.frame_of_float (hS j (hmem hj) hc)).1
        rw [Nat.div_mul_cancel (Nat.dvd_of_mod_eq_zero hal)]
        exact hdis j (hmem hj) i hi (hne hj).symm c hc
    refine wp_mono (ih hnd.2 (fun j hj => hjs j (hmem hj)) h₁ ⟨hb, hbT i hi⟩
      (fun j hj c hc => ⟨hS j (hmem hj) hc, hdis j (hmem hj) i hi (hne hj).symm c hc⟩)
      (fun j hj => hbT j (hmem hj)) (fun j hj k hk => hdis j (hmem hj) k (hmem hk)) hEntry)
      (fun _ s' hq => ?_) fun _ _ he => he
    obtain ⟨h', hk', hm'⟩ := hq
    refine ⟨?_, hk'.trans hk, fun n hn hnT => ?_⟩
    · have hset : F \ {c | ∃ j ∈ i :: js, c ∈ T j} = (F \ T i) \ {c | ∃ j ∈ js, c ∈ T j} := by
        ext c
        simp only [Set.mem_sdiff, Set.mem_ofPred_eq, mem_cons, exists_eq_or_imp, not_or]
        exact and_assoc.symm
      rwa [hset]
    · rw [hm' n hn fun j hj => hnT j (hmem hj), hm n hn (hnT i hi)]

end

/-- `freewalk` frees the pages of the tree, and changes no other page. -/
theorem wp_freewalk {E : VmPanic → Vm → Prop} (hD : Depth owned) (h : Heap owned ρ g F s)
    (hS : S ⊆ F) (hd : Doomed s d b S) :
    wp (freewalk d b) (fun _ s' => FreePost owned ρ g F S s s') E s := by
  induction d generalizing b S F s with
  | zero => exact hd.elim
  | succ d ih =>
    rw [freewalk_succ]
    generalize hl : List.range 512 = l
    have hmem : ∀ i, i ∈ l ↔ i < 512 := fun i => by rw [← hl, mem_range]
    obtain ⟨hb, hal, T, rfl, hT, hdis, hent⟩ := hd
    have hbF : b ∈ F := hS (Set.mem_insert _ _)
    have hnd : l.Nodup := by
      rw [← hl]
      exact nodup_range
    have hloop := wp_freeEntries (T := T) (E := E) hD (fun F s c S h hS hd => ih h hS hd) l hnd
      (fun i hi => (hmem i).1 hi) h hbF
      (fun i hi c hc => hS (Set.mem_insert_of_mem _ ⟨i, (hmem i).1 hi, hc⟩))
      (fun i hi => hT i ((hmem i).1 hi)) (fun i hi j hj => hdis i ((hmem i).1 hi) j ((hmem j).1 hj))
      fun i hi => hent i ((hmem i).1 hi)
    refine wp_call hloop fun _ s₁ hq => ?_
    obtain ⟨h₁, hk, hm⟩ := hq
    have hb₁ : b ∈ F \ {c | ∃ i ∈ l, c ∈ T i} := ⟨hbF, fun ⟨i, hi, hc⟩ => hT i ((hmem i).1 hi) hc⟩
    refine wp_kfree (h₁.frame_of_float hb₁) ⟨?_, hk, fun n hn => ?_⟩
    · have hset : F \ insert b {c | ∃ i < 512, c ∈ T i} = (F \ {c | ∃ i ∈ l, c ∈ T i}) \ {b} := by
        ext c
        simp only [Set.mem_sdiff, Set.mem_insert_iff, Set.mem_ofPred_eq, Set.mem_singleton_iff, hmem,
          not_or]
        exact ⟨fun ⟨h₁, h₂, h₃⟩ => ⟨⟨h₁, h₃⟩, h₂⟩, fun ⟨⟨h₁, h₃⟩, h₂⟩ => ⟨h₁, h₂, h₃⟩⟩
      rw [hset]
      exact h₁.give hD hb₁ _
    · have hn' : n * 4096 ≠ b := fun e => hn (e ▸ Set.mem_insert _ _)
      rw [mem_setPage_of_ne (by omega)]
      exact hm n hn' fun i hi hc => hn (Set.mem_insert_of_mem _ ⟨i, (hmem i).1 hi, hc⟩)

/-! ## Taking a page table out of the heap -/

/-- The page-table pages below the node at `p`. -/
def pagesBelow (s : Vm) (r : ℕ) (p : List ℕ) : Set ℕ :=
  {b | b ≠ 0 ∧ ∃ q, (p ++ q).length ≤ 2 ∧ s.node r (p ++ q) = b}

/-- No entry of a page of level 0 is valid. -/
def NoLeaf (ρ : ι → ℕ) (t : ι) (s : Vm) : Prop :=
  ∀ p k, p.length = 2 → has (s.ent (s.node (ρ t) p) k) PTE_V = false

/-- The page table has the shape that `freewalk` relies on. -/
theorem Heap.doomed {p : List ℕ} (hD : Depth owned) (h : Heap owned ρ g F s) (hn : NoLeaf ρ t s)
    (hp : p.length + d = 2) (hb : s.node (ρ t) p ≠ 0) :
    Doomed s (d + 1) (s.node (ρ t) p) (pagesBelow s (ρ t) p) := by
  induction d generalizing p with
  | zero =>
    refine ⟨hb, h.node_aligned hD, fun _ => ∅, ?_, fun _ _ hc => hc, fun _ _ _ _ _ _ hc => hc.elim,
      fun i _ => .inl ⟨hn p i (by omega), rfl⟩⟩
    ext b
    simp only [pagesBelow, Set.mem_ofPred_eq, Set.mem_insert_iff, Set.mem_empty_iff_false, and_false,
      exists_false, or_false]
    constructor
    · rintro ⟨-, q, hq, rfl⟩
      obtain rfl : q = [] := eq_nil_of_length_eq_zero (by rw [length_append] at hq; omega)
      rw [append_nil]
    · rintro rfl
      exact ⟨hb, [], by simp; omega, by rw [append_nil]⟩
  | succ d ih =>
    have hnext : ∀ i, s.node (ρ t) (p ++ [i]) = child (s.ent (s.node (ρ t) p) i) := fun i => by
      rw [node_append, node_cons, node_nil]
    have happ : ∀ i q, p ++ i :: q = p ++ [i] ++ q := fun i q => by simp
    -- below an empty entry there is nothing
    have hempty : ∀ i q, s.ent (s.node (ρ t) p) i = 0 → s.node (ρ t) (p ++ i :: q) = 0 := fun i q e => by
      rw [node_append, node_cons, e, child_zero, node_zero]
    refine ⟨hb, h.node_aligned hD, fun i => pagesBelow s (ρ t) (p ++ [i]), ?_, ?_, ?_, fun i hi => ?_⟩
    · ext b
      simp only [pagesBelow, Set.mem_ofPred_eq, Set.mem_insert_iff]
      constructor
      · rintro ⟨hb0, q, hq, rfl⟩
        cases q with
        | nil => exact .inl (by rw [append_nil])
        | cons i q =>
          have hi : i < 512 := by
            by_contra hge
            exact hb0 (hempty i q (ent_of_ge (by omega)))
          exact .inr ⟨i, hi, hb0, q, by rwa [← happ], by rw [← happ]⟩
      · rintro (rfl | ⟨i, hi, hb0, q, hq, rfl⟩)
        · exact ⟨hb, [], by simp; omega, by rw [append_nil]⟩
        · exact ⟨hb0, i :: q, by rwa [happ], by rw [happ]⟩
    · rintro i hi ⟨-, q, hq, e⟩
      have := (h.path_unique hD (by omega) hq hb e).2
      simp at this
    · rintro i hi j hj hne c ⟨hc, q, hq, rfl⟩ ⟨-, q', hq', e⟩
      have := (h.path_unique hD hq hq' hc e).2
      simp at this
      exact hne this.1.symm
    · rcases h.inner t p i (by omega) with e | ⟨e, hne, -⟩
      · refine .inl ⟨by rw [e]; rfl, ?_⟩
        ext b
        simp only [pagesBelow, Set.mem_ofPred_eq, Set.mem_empty_iff_false, iff_false]
        rintro ⟨hb0, q, -, rfl⟩
        exact hb0 (by rw [← happ]; exact hempty i q e)
      · have := ih (p := p ++ [i]) (by simp; omega) (by rwa [hnext])
        rw [hnext] at this
        exact .inr ⟨e, this⟩

/-- A path of three indices is the place of an address. -/
theorem place_of_path {i j k : ℕ} (hi : i < 256) (hj : j < 512) (hk : k < 512) :
    ∃ va < MAXVA, va % 4096 = 0 ∧ place va = [i, j, k] := by
  refine ⟨(i * 262144 + j * 512 + k) * 4096, ?_, Nat.mul_mod_left _ _, ?_⟩
  · simp only [MAXVA]
    omega
  · simp only [place, PX, List.cons.injEq, and_true]
    norm_num
    omega

/-- Every valid leaf is one for an address. -/
theorem Heap.place_of_valid (h : Heap owned ρ g F s) {i j k : ℕ}
    (hv : has (s.ent (s.node (ρ t) [i, j]) k) PTE_V = true) :
    ∃ va < MAXVA, va % 4096 = 0 ∧ place va = [i, j, k] := by
  have hne : s.ent (s.node (ρ t) [i, j]) k ≠ 0 := fun e => by
    rw [e] at hv
    cases hv
  have hnode : s.node (ρ t) [i, j] = child (s.ent (child (s.ent (ρ t) i)) j) := rfl
  refine place_of_path ?_ ?_ ?_
  · -- the upper half of the root is empty
    by_contra hi
    have e : s.ent (ρ t) i = 0 :=
      (h.inner t [] i (by simp)).resolve_right fun ⟨_, _, hlt⟩ => hi (hlt rfl)
    exact hne (by rw [hnode, e, child_zero, ent_zero, child_zero, ent_zero])
  · by_contra hj
    have e : s.ent (child (s.ent (ρ t) i)) j = 0 := ent_of_ge (by omega)
    exact hne (by rw [hnode, e, child_zero, ent_zero])
  · by_contra hk
    exact hne (ent_of_ge (by omega))

theorem Heap.noLeaf (h : Heap owned ρ g F s)
    (hl : ∀ va < MAXVA, has (s.leaf (ρ t) va) PTE_V = false) : NoLeaf ρ t s := by
  intro p k hp
  obtain ⟨i, j, rfl⟩ : ∃ i j, p = [i, j] := length_eq_two.1 hp
  by_contra hv
  obtain ⟨va, hva, -, hplace⟩ := h.place_of_valid (Bool.not_eq_false _ ▸ hv)
  simp only [place, List.cons.injEq, and_true] at hplace
  obtain ⟨rfl, rfl, rfl⟩ := hplace
  exact hv (hl va hva)

/-- A page table that maps nothing is taken out of the heap, and its pages float. -/
theorem Heap.detachRoot [DecidableEq ι] (hD : Depth owned) (h : Heap owned ρ g F s)
    (hn : NoLeaf ρ t s) :
    Heap owned (update ρ t 0) g (F ∪ pagesBelow s (ρ t) []) s := by
  have hset : pagesBelow s (ρ t) [] =
      {b | b ≠ 0 ∧ ∃ q ∈ {q : (ι × List ℕ) ⊕ X | ∃ p, q = .inl (t, p)}, refs owned ρ g s q = b} := by
    ext b
    simp only [pagesBelow, nil_append, Set.mem_ofPred_eq]
    refine and_congr_right fun hb => ⟨fun ⟨p, hp, e⟩ => ?_, fun ⟨q, ⟨p, hq⟩, e⟩ => ?_⟩
    · refine ⟨.inl (t, p), ⟨p, rfl⟩, ?_⟩
      simpa only [refs, hD.table p hp, if_true] using e
    · subst hq
      by_cases hp : owned p = true
      · simp only [refs, hp, if_true] at e
        refine ⟨p, ?_, e⟩
        by_contra hlen
        have h3 := hD.leaf p hp
        obtain ⟨p', k, rfl⟩ : ∃ p' k, p = p' ++ [k] :=
          ⟨p.dropLast, p.getLast (by rintro rfl; simp at hlen), (dropLast_append_getLast _).symm⟩
        rw [length_append, length_singleton] at h3 hlen
        refine hb (e.symm.trans ?_)
        rw [node_append, node_cons, node_nil, child, hn p' k (by omega)]
        rfl
      · simp only [refs, if_neg hp] at e
        exact absurd e.symm hb
  refine ⟨h.kend, ?_, fun t' p i hp => ?_, h.nodup, h.free⟩
  · rw [hset]
    refine h.ledger.detach {q | ∃ p, q = .inl (t, p)} ?_ fun q hq => ?_
    · rintro _ ⟨p, rfl⟩
      simp only [refs, update_self, node_zero, ite_self]
    · rcases q with ⟨t', p⟩ | x
      · have : t' ≠ t := fun e => hq ⟨p, by rw [e]⟩
        simp only [refs, update_of_ne this]
      · rfl
  · by_cases e : t' = t
    · rw [e, update_self, node_zero, ent_zero]
      exact .inl rfl
    · rw [update_of_ne e]
      exact h.inner t' p i hp

/-- The whole page table is freed, once it maps nothing. -/
theorem wp_freeTable [DecidableEq ι] {E : VmPanic → Vm → Prop} (hD : Depth owned)
    (h : Heap owned ρ g F s) (ht : ρ t ≠ 0)
    (hl : ∀ va < MAXVA, has (s.leaf (ρ t) va) PTE_V = false) :
    wp (freewalk 3 (ρ t)) (fun _ s' => Heap owned (update ρ t 0) g F s' ∧
      s'.kend = s.kend ∧ Spares owned (ρ t) s s') E s := by
  have hn := h.noLeaf hl
  have h₁ := h.detachRoot hD hn
  have hsub : pagesBelow s (ρ t) [] ⊆ F ∪ pagesBelow s (ρ t) [] := Set.subset_union_right
  have hdis : (F ∪ pagesBelow s (ρ t) []) \ pagesBelow s (ρ t) [] = F := by
    ext b
    refine ⟨fun ⟨hb, hn⟩ => hb.resolve_right hn, fun hF => ⟨.inl hF, ?_⟩⟩
    rintro ⟨-, p, hp, e⟩
    exact h.noTable_of_float hD hF t p hp e
  have hdoom : Doomed s 3 (s.node (ρ t) []) (pagesBelow s (ρ t) []) := h.doomed (d := 2) hD hn rfl ht
  have hrun := wp_freewalk (E := E) hD h₁ hsub hdoom
  refine wp_mono hrun (fun _ s' hq => ?_) fun _ _ he => he
  refine ⟨hdis ▸ hq.heap, hq.kend, fun n hn => hq.mem n ?_⟩
  rintro ⟨-, p, hp, e⟩
  exact hn.other p (hD.table p hp) e

theorem wp_uvmfree [DecidableEq ι] {sz : ℕ} {E : VmPanic → Vm → Prop} (h : Heap userPages ρ g F s)
    (ht : ρ t ≠ 0) (hl : Leaves ρ t s) (hsz : sz ≤ TRAPFRAME)
    (habove : ∀ va < MAXVA, PGROUNDUP sz ≤ va → has (s.leaf (ρ t) va) PTE_V = false) :
    wp (uvmfree (ρ t) sz) (fun _ s' => Heap userPages (update ρ t 0) g F s' ∧
      s'.kend = s.kend ∧ Spares userPages (ρ t) s s') E s := by
  have hTM : TRAPFRAME < MAXVA := by decide
  unfold uvmfree
  simp only [wp_bind, wp_ite]
  split
  · have hfit : 0 + PGROUNDUP sz / PGSIZE * 4096 ≤ TRAPFRAME := by
      have := PGROUNDUP_le hsz (by decide) hTM.le
      simp only [PGSIZE]
      omega
    refine wp_mono (wp_uvmunmap_user h ht hl rfl hfit) (fun _ s₁ hq => ?_) fun _ _ he => he
    obtain ⟨h₁, hk, hc, hsp⟩ := hq
    have hal := PGROUNDUP_aligned sz
    refine wp_mono (wp_freeTable depth_userPages h₁ ht fun va hva => ?_) (fun _ s' hq => ?_)
      fun _ _ he => he
    · by_cases hr : 0 / 4096 ≤ va / 4096 ∧ va / 4096 < 0 / 4096 + PGROUNDUP sz / PGSIZE
      · exact hc.not_valid hva hr
      · rw [hc.of_not_range hva hr]
        refine habove va hva ?_
        simp only [PGSIZE] at hr
        omega
    · exact ⟨hq.1, hq.2.1.trans hk,
        h.spares_trans depth_userPages h₁ le_rfl (fun _ _ => rfl) hk hsp hq.2.2⟩
  · refine wp_freeTable depth_userPages h ht fun va hva => habove va hva ?_
    obtain rfl : sz = 0 := by omega
    exact Nat.zero_le _

end Xv6
