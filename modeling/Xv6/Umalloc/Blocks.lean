import Mathlib.Data.List.Pairwise
import Xv6.Lib.Links
import Xv6.Lib.Tiling
import Xv6.Umalloc.Heap

/-!
# The blocks of the heap

`Inv base h F live`: the free list is the circle through `base` and the blocks of `F`, which are in the order of
their addresses with space between them, and the blocks of `F` and `live` tile the memory that `sbrk` returned.
`take` and `insertBlock` move a block from one list to the other.
-/

namespace Xv6

open Function List LinkedTo Nat

namespace Umalloc

/-- The bytes of the block at an address. -/
def Heap.block (h : Heap) (a : ℕ) : ℕ × ℕ := (a, 16 * h.size a)

/-- The memory that `sbrk` returned. -/
def Heap.memory (h : Heap) : Set ℕ := Tiles.covered h.mem

/-- The number of bytes that `sbrk` returned. -/
def Heap.total (h : Heap) : ℕ := (h.mem.map Prod.snd).sum

structure Inv (base : ℕ) (h : Heap) (F live : List ℕ) : Prop where
  base_pos : 0 < base
  freep : h.freep ∈ base :: F
  linked : LinkedTo h.ptr (base :: F) base
  size_base : h.size base = 0
  sorted : (base :: F).Pairwise fun a b => a + 16 * h.size a < b
  above : ∀ x ∈ h.memory, base + 16 ≤ x
  tiles : Tiles ((F ++ live).map h.block) h.memory
  total : 16 * ((F ++ live).map h.size).sum = h.total

variable {base : ℕ} {h : Heap} {F live A B L R : List ℕ} {a b p q bp nu n : ℕ}

/-! ## Lists of blocks -/

section Tiling

variable {l : List ℕ} {M : Set ℕ}

theorem size_pos_of_tiles (h' : Tiles (l.map h.block) M) (ha : a ∈ l) : 0 < h.size a := by
  have := h'.pos _ (mem_map_of_mem (f := h.block) ha)
  simp only [Heap.block] at this
  omega

theorem apart_of_tiles (h' : Tiles (l.map h.block) M) (ha : a ∈ l) (hb : b ∈ l) (hne : a ≠ b) :
    a + 16 * h.size a ≤ b ∨ b + 16 * h.size b ≤ a := by
  have : Std.Symm fun a b => Tiles.Apart (h.block a) (h.block b) := ⟨fun _ _ hc => Tiles.apart_symm hc⟩
  exact (pairwise_map.1 h'.apart).forall ha hb hne

theorem nodup_of_tiles (h' : Tiles (l.map h.block) M) : l.Nodup := by
  refine (pairwise_map.1 h'.apart).imp_of_mem fun {a b} ha hb hab => ?_
  have h₁ := size_pos_of_tiles h' ha
  rintro rfl
  simp only [Tiles.Apart, Heap.block] at hab
  omega

/-- Two adjacent blocks are joined, or a block is cut in two. -/
theorem tiles_join_iff (h₁ : Heap) {h₂ : Heap} (ha : 0 < h₁.size a) (hb : 0 < h₁.size b) (hab : a + 16 * h₁.size a = b)
    (hsum : h₂.size a = h₁.size a + h₁.size b) (hR : ∀ c ∈ R, h₂.size c = h₁.size c) :
    Tiles ((a :: b :: R).map h₁.block) M ↔ Tiles ((a :: R).map h₂.block) M := by
  have hmap : R.map h₂.block = R.map h₁.block :=
    map_congr_left fun c hc => by rw [Heap.block, Heap.block, hR c hc]
  subst hab
  simp only [map_cons, hmap]
  rw [Heap.block, Heap.block, Heap.block, hsum, Nat.mul_add]
  exact (Tiles.cut_iff (by omega) (by omega)).symm

end Tiling

namespace Inv

theorem mem_memory (i : Inv base h F live) (ha : a ∈ F ++ live) : a ∈ h.memory :=
  i.tiles.mem_of_mem (mem_map_of_mem ha)

theorem base_lt (i : Inv base h F live) (ha : a ∈ F ++ live) : base + 16 ≤ a := i.above a (i.mem_memory ha)

/-- The blocks have different addresses. -/
theorem nodup (i : Inv base h F live) : (base :: (F ++ live)).Nodup := by
  refine nodup_cons.2 ⟨fun hm => ?_, nodup_of_tiles i.tiles⟩
  have := i.base_lt hm
  omega

/-- A block of the free list and the one to which it is linked. -/
theorem split_of_ptr (i : Inv base h F live) (hp : p ∈ base :: F) (hq : h.ptr p ≠ base) :
    ∃ A B, base :: F = A ++ p :: h.ptr p :: B := by
  obtain ⟨A, B, hAB⟩ := append_of_mem hp
  have hl := i.linked
  rw [hAB] at hl
  rw [hl.next_eq] at hq ⊢
  cases B with
  | nil => exact absurd rfl hq
  | cons b B => exact ⟨A, B, hAB⟩

theorem take_whole (i : Inv base h F live) (hF : base :: F = A ++ p :: q :: B) :
    ∃ F', F.Perm (q :: F') ∧ Inv base ((h.setPtr p (h.ptr q)).setFreep p) F' (q :: live) := by
  obtain ⟨F', hF'⟩ := exists_cons_eq (Y := B) hF
  have hperm : F.Perm (q :: F') := perm_of_splice (X := [q]) (M := []) hF hF'
  have hnd : (A ++ p :: q :: B).Nodup := hF ▸ (i.nodup.sublist ((sublist_append_left F live).cons_cons base))
  have hl := i.linked
  rw [hF] at hl
  have hblocks : (F ++ live).Perm (F' ++ q :: live) :=
    (hperm.append_right live).trans perm_middle.symm
  refine ⟨F', hperm, i.base_pos, ?_, ?_, i.size_base, ?_, i.above, i.tiles.perm (hblocks.map _), ?_⟩
  · rw [hF']
    exact mem_append_right _ mem_cons_self
  · rw [hF']
    refine splice (X := [q]) (M := []) hl (fun a ha => ?_) ?_ trivial
    · exact update_of_ne (ne_of_nodup hnd (by simp at ha ⊢; tauto)) ..
    · simp only [Heap.setFreep, Heap.setPtr, update_self, nil_append]
      rw [show A ++ p :: q :: B = (A ++ [p]) ++ q :: B by simp] at hl
      exact hl.next_eq
  · refine i.sorted.sublist ?_
    rw [hF, hF']
    simp
  · exact (congrArg (16 * ·) (hblocks.map _).sum_nat.symm).trans i.total

/-- One block and the others. -/
theorem exists_perm (l : List ℕ) (ha : a ∈ l) : ∃ R, l.Perm (a :: R) := ⟨l.erase a, perm_cons_erase ha⟩

theorem sum_of_perm {l : List ℕ} (hR : l.Perm (a :: R)) (f : ℕ → ℕ) : (l.map f).sum = f a + (R.map f).sum := by
  rw [(hR.map f).sum_nat, map_cons, sum_cons]

theorem size_lt (i : Inv base h F live) (hsmall : h.total < 2 ^ 36) (ha : a ∈ F ++ live) :
    h.size a < 2 ^ 32 := by
  obtain ⟨R, hR⟩ := exists_perm _ ha
  have h₁ := sum_of_perm hR h.size
  have h₂ := i.total
  omega

theorem take_tail (i : Inv base h F live) (hsmall : h.total < 2 ^ 36) (hp : p ∈ base :: F) (hq : q ∈ F)
    (hnu : 0 < nu) (hlt : nu < h.size q) :
    Inv base (((h.setSize q (h.size q - nu)).setSize (q + 16 * (h.size q - nu)) nu).setFreep p) F
      ((q + 16 * (h.size q - nu)) :: live) := by
  have hqm : q ∈ F ++ live := mem_append_left live hq
  have hsize := i.size_lt hsmall hqm
  have hbase := i.base_lt hqm
  obtain ⟨R, hR⟩ := exists_perm _ hqm
  set m := h.size q - nu with hm
  set b := q + 16 * m with hb
  set h' := ((h.setSize q m).setSize b nu).setFreep p with hh'
  -- the two parts of the block
  have hb' : h'.size b = nu := (update_self ..).trans (mod_eq_of_lt (by omega))
  have hq' : h'.size q = m := by
    rw [show h'.size q = update h.size q (m % 2 ^ 32) q from update_of_ne (by omega) ..,
      update_self, mod_eq_of_lt (by omega)]
  have hother : ∀ c, c ≠ q → c ≠ b → h'.size c = h.size c := fun c hcq hcb =>
    (update_of_ne hcb ..).trans (update_of_ne hcq ..)
  have hRq : ∀ c ∈ R, c ≠ q ∧ c ≠ b := by
    intro c hc
    have hnd := (hR.nodup_iff.1 (nodup_of_tiles i.tiles))
    have hcq : c ≠ q := fun e => (nodup_cons.1 hnd).1 (e ▸ hc)
    have hcm : c ∈ F ++ live := hR.mem_iff.2 (mem_cons_of_mem q hc)
    have h₁ := apart_of_tiles i.tiles hcm hqm hcq
    have h₂ := size_pos_of_tiles i.tiles hcm
    exact ⟨hcq, by omega⟩
  have hperm : (F ++ b :: live).Perm (q :: b :: R) :=
    (perm_middle.trans (hR.cons b)).trans (Perm.swap ..)
  refine ⟨i.base_pos, hp, i.linked, ?_, ?_, i.above, ?_, ?_⟩
  · rw [hother base (by omega) (by omega)]
    exact i.size_base
  · refine i.sorted.imp_of_mem fun {a c} ha _ hac => ?_
    suffices h'.size a ≤ h.size a by omega
    by_cases haq : a = q
    · rw [haq, hq']
      omega
    · refine (hother a haq ?_).le
      rcases mem_cons.1 ha with rfl | ha
      · omega
      · have := hR.mem_iff.1 (mem_append_left live ha)
        exact (hRq a ((mem_cons.1 this).resolve_left haq)).2
  · refine Tiles.perm ((tiles_join_iff h' ?_ ?_ ?_ ?_ fun c hc => ?_).2 (i.tiles.perm (hR.map _)))
      (hperm.map _).symm
    · rw [hq']
      omega
    · rw [hb']
      omega
    · rw [hq']
    · rw [hq', hb']
      omega
    · exact (hother c (hRq c hc).1 (hRq c hc).2).symm
  · have h₁ := sum_of_perm hR h.size
    have h₂ := sum_of_perm hperm h'.size
    have h₃ : (R.map h'.size) = R.map h.size :=
      map_congr_left fun c hc => hother c (hRq c hc).1 (hRq c hc).2
    rw [map_cons, sum_cons, h₃, hq', hb'] at h₂
    have := i.total
    change 16 * _ = h.total
    omega

end Inv

/-! ## Returning a block -/

/-- A block `bp` that is not in the free list yet belongs between `p` and `B`: it is linked to `B`, and there
is space behind it. -/
structure Between (base : ℕ) (h : Heap) (A : List ℕ) (p : ℕ) (B : List ℕ) (bp : ℕ) (F L : List ℕ) : Prop where
  base_pos : 0 < base
  split : base :: F = A ++ p :: B
  before : LinkedTo h.ptr A p
  behind : LinkedTo h.ptr B base
  ptr_bp : h.ptr bp = B.headD base
  size_base : h.size base = 0
  sorted : (base :: F).Pairwise fun a b => a + 16 * h.size a < b
  lower : p < bp ∧ p + 16 * h.size p ≤ bp
  upper : ∀ q ∈ B, bp + 16 * h.size bp < q
  above : ∀ x ∈ h.memory, base + 16 ≤ x
  tiles : Tiles ((bp :: (F ++ L)).map h.block) h.memory
  total : 16 * ((bp :: (F ++ L)).map h.size).sum = h.total

namespace Inv

/-- The order of the blocks around a block that is not free. -/
theorem lower (i : Inv base h F live) (hF : base :: F = A ++ p :: B) (hbp : bp ∈ live) (hp : p < bp) :
    p + 16 * h.size p ≤ bp := by
  have hpm : p ∈ base :: F := by
    rw [hF]
    simp
  rcases mem_cons.1 hpm with rfl | hpF
  · rw [i.size_base]
    omega
  · have := apart_of_tiles i.tiles (mem_append_left live hpF) (mem_append_right F hbp) hp.ne
    omega

theorem mem_of_behind (i : Inv base h F live) (hF : base :: F = A ++ p :: B) (hbp : bp ∈ live)
    (hB : ∀ q ∈ B, bp < q) (hq : q ∈ B) : q ∈ F := by
  have hm : q ∈ base :: F := by
    rw [hF]
    simp [hq]
  rcases mem_cons.1 hm with rfl | hm
  · have h₁ := hB q hq
    have h₂ := i.base_lt (mem_append_right F hbp)
    omega
  · exact hm

theorem ne_of_free (i : Inv base h F live) (hbp : bp ∈ live) (ha : a ∈ base :: F) : a ≠ bp := by
  have hnd := i.nodup
  rw [← cons_append, nodup_append] at hnd
  exact hnd.2.2 a ha bp hbp

/-- `joinUp` with a block that is not adjacent. -/
theorem joinUp_of_ne (i : Inv base h F live) (hlive : live.Perm (bp :: L)) (hF : base :: F = A ++ p :: B)
    (hp : p < bp) (hB : ∀ q ∈ B, bp < q) (hne : bp + 16 * h.size bp ≠ h.ptr p) :
    Between base (h.setPtr bp (h.ptr p)) A p B bp F L := by
  have hbp : bp ∈ live := hlive.mem_iff.2 mem_cons_self
  have hl := i.linked
  rw [hF] at hl
  obtain ⟨hA, hpl, hBl⟩ := append.1 hl
  have hperm : (F ++ live).Perm (bp :: (F ++ L)) := (hlive.append_left F).trans perm_middle
  have hptr : ∀ a ∈ A ++ B, (h.setPtr bp (h.ptr p)).ptr a = h.ptr a := fun a ha =>
    update_of_ne (i.ne_of_free hbp (by rw [hF]; simp at ha ⊢; tauto)) ..
  refine ⟨i.base_pos, hF, hA.congr fun a ha => hptr a (mem_append_left B ha),
    hBl.congr fun a ha => hptr a (mem_append_right A ha), ?_, i.size_base, i.sorted,
    ⟨hp, i.lower hF hbp hp⟩, fun q hq => ?_, i.above, i.tiles.perm (hperm.map _), ?_⟩
  · rw [← hpl]
    exact update_self ..
  · -- there is space before the first block of `B`, and so before the others
    change bp + 16 * h.size bp < q
    cases B with
    | nil => exact absurd hq not_mem_nil
    | cons q₀ B =>
      have hq₀ : q₀ ∈ q₀ :: B := mem_cons_self
      rw [hpl, headD_cons] at hne
      have h₀ := apart_of_tiles i.tiles (mem_append_right F hbp)
        (mem_append_left live (i.mem_of_behind hF hbp hB hq₀)) (hB q₀ hq₀).ne
      have h₁ := hB q₀ hq₀
      rcases mem_cons.1 hq with rfl | hq
      · omega
      · have hs := i.sorted
        rw [hF, pairwise_append] at hs
        have h₂ := (pairwise_cons.1 (pairwise_cons.1 hs.2.1).2).1 q hq
        omega
  · have := i.total
    rw [(hperm.map _).sum_nat] at this
    exact this

/-- `joinUp` with an adjacent block. -/
theorem joinUp_of_eq (i : Inv base h F live) (hsmall : h.total < 2 ^ 36) (hlive : live.Perm (bp :: L))
    (hF : base :: F = A ++ p :: q :: B) (hp : p < bp) (hB : ∀ c ∈ q :: B, bp < c)
    (heq : bp + 16 * h.size bp = q) :
    h.size bp ≤ ((h.setSize bp (h.size bp + h.size q)).setPtr bp (h.ptr q)).size bp ∧
      ∃ F', F'.length ≤ F.length ∧
        Between base ((h.setSize bp (h.size bp + h.size q)).setPtr bp (h.ptr q)) A p B bp F' L := by
  have hbp : bp ∈ live := hlive.mem_iff.2 mem_cons_self
  have hqF : q ∈ F := i.mem_of_behind hF hbp hB mem_cons_self
  obtain ⟨F', hF'⟩ := exists_cons_eq (Y := B) hF
  have hl := i.linked
  rw [hF] at hl
  obtain ⟨hA, -, hql, hBl⟩ := append.1 hl
  have hpermF : F.Perm (q :: F') := perm_of_splice (X := [q]) (M := []) hF hF'
  have hperm : (F ++ live).Perm (bp :: q :: (F' ++ L)) :=
    ((hpermF.append_right live).trans (Perm.append_left _ hlive)).trans perm_middle
  -- the sum of the sizes does not overflow
  have hsum := sum_of_perm hperm h.size
  rw [map_cons, sum_cons] at hsum
  have htotal := i.total
  set h' := (h.setSize bp (h.size bp + h.size q)).setPtr bp (h.ptr q) with hh'
  have hsize : h'.size bp = h.size bp + h.size q :=
    (update_self ..).trans (mod_eq_of_lt (by omega))
  have hother : ∀ c, c ≠ bp → h'.size c = h.size c := fun c hc => update_of_ne hc ..
  have hptr : ∀ a ∈ base :: F, h'.ptr a = h.ptr a := fun a ha =>
    update_of_ne (i.ne_of_free hbp ha) ..
  have hnd := hperm.nodup_iff.1 (nodup_of_tiles i.tiles)
  have hrest : ∀ c ∈ F' ++ L, h'.size c = h.size c := fun c hc => hother c fun e =>
    (nodup_cons.1 hnd).1 (e ▸ mem_cons_of_mem q hc)
  have hsub : (base :: F').Sublist (base :: F) := by
    rw [hF, hF']
    simp
  have hfree : ∀ c ∈ base :: F, h'.size c = h.size c := fun c hc => hother c (i.ne_of_free hbp hc)
  refine ⟨by omega, F', by rw [hpermF.length_eq]; simp, i.base_pos, hF',
    hA.congr fun a ha => hptr a (by rw [hF]; simp [ha]), hBl.congr fun a ha => hptr a (by rw [hF]; simp [ha]), ?_, ?_, ?_, ⟨hp, ?_⟩, fun c hc => ?_, i.above, ?_, ?_⟩
  · rw [← hql]
    exact update_self ..
  · rw [hfree base mem_cons_self, i.size_base]
  · refine (i.sorted.sublist hsub).imp_of_mem fun {a c} ha _ hac => ?_
    rwa [hfree a (hsub.subset ha)]
  · rw [hfree p (by rw [hF]; simp)]
    exact i.lower hF hbp hp
  · -- `q` has space behind it
    have hs := i.sorted
    rw [hF, pairwise_append] at hs
    have h₂ := (pairwise_cons.1 (pairwise_cons.1 hs.2.1).2).1 c hc
    rw [hsize]
    omega
  · refine (tiles_join_iff h ?_ ?_ heq hsize hrest).1 (i.tiles.perm (hperm.map _))
    · exact size_pos_of_tiles i.tiles (mem_append_right F hbp)
    · exact size_pos_of_tiles i.tiles (mem_append_left live hqF)
  · rw [map_cons, sum_cons, hsize, map_congr_left hrest]
    change 16 * _ = h.total
    omega

end Inv

namespace Between

theorem nodup (i : Between base h A p B bp F L) : (base :: F).Nodup :=
  i.sorted.imp fun {a b} hab => by omega

/-- `joinDown` with a block that is not adjacent. -/
theorem joinDown_of_ne (i : Between base h A p B bp F L) (hne : p + 16 * h.size p ≠ bp) :
    ∃ F', bp ∈ F' ∧ F'.length = F.length + 1 ∧ Inv base ((h.setPtr p bp).setFreep p) F' L := by
  have hF := i.split
  obtain ⟨F', hF'⟩ := exists_cons_eq (Y := bp :: B) hF
  have hperm : (bp :: F).Perm F' := perm_of_splice (X := []) (M := [bp]) hF hF'
  have hnd := i.nodup
  rw [hF] at hnd
  have hptr : ∀ a ∈ A ++ B, ((h.setPtr p bp).setFreep p).ptr a = h.ptr a := fun a ha =>
    update_of_ne (ne_of_nodup hnd ha) ..
  have hbp : ((h.setPtr p bp).setFreep p).ptr bp = B.headD base := by
    rw [← i.ptr_bp]
    exact update_of_ne i.lower.1.ne' ..
  have hblocks : (bp :: (F ++ L)).Perm (F' ++ L) := hperm.append_right L
  refine ⟨F', hperm.mem_iff.1 mem_cons_self, hperm.length_eq.symm, i.base_pos, ?_, ?_, i.size_base, ?_, i.above,
    i.tiles.perm (hblocks.map _), ?_⟩
  · rw [hF']
    exact mem_append_right _ mem_cons_self
  · rw [hF']
    refine append.2 ⟨i.before.congr fun a ha => hptr a (mem_append_left B ha), ?_, hbp,
      i.behind.congr fun a ha => hptr a (mem_append_right A ha)⟩
    exact update_self ..
  · have hs := i.sorted
    rw [hF, pairwise_append, pairwise_cons] at hs
    obtain ⟨hA, ⟨hpB, hB⟩, hAB⟩ := hs
    have hlow := i.lower
    rw [hF', pairwise_append, pairwise_cons, pairwise_cons]
    refine ⟨hA, ⟨fun c hc => ?_, i.upper, hB⟩, fun a ha c hc => ?_⟩
    · rcases mem_cons.1 hc with rfl | hc
      · exact lt_of_le_of_ne hlow.2 hne
      · exact hpB c hc
    · have h₁ := hAB a ha p mem_cons_self
      simp only [mem_cons] at hc
      rcases hc with rfl | rfl | hc
      · exact h₁
      · change a + 16 * h.size a < c
        omega
      · exact hAB a ha c (mem_cons_of_mem p hc)
  · exact (congrArg (16 * ·) (hblocks.map _).sum_nat.symm).trans i.total

/-- `joinDown` with an adjacent block. -/
theorem joinDown_of_eq (i : Between base h A p B bp F L) (hsmall : h.total < 2 ^ 36)
    (heq : p + 16 * h.size p = bp) :
    p ∈ F ∧ h.size bp ≤ (((h.setSize p (h.size p + h.size bp)).setPtr p (h.ptr bp)).setFreep p).size p ∧
      Inv base (((h.setSize p (h.size p + h.size bp)).setPtr p (h.ptr bp)).setFreep p) F L := by
  have hF := i.split
  have hlow := i.lower
  have hpm : p ∈ base :: F := by
    rw [hF]
    simp
  -- `base` is not adjacent to any block
  have hpF : p ∈ F := by
    rcases mem_cons.1 hpm with rfl | hpF
    · rw [i.size_base] at heq
      omega
    · exact hpF
  have hpb : base ≠ p := fun e => (nodup_cons.1 i.nodup).1 (e ▸ hpF)
  obtain ⟨R, hR⟩ := Inv.exists_perm (F ++ L) (mem_append_left L hpF)
  have hperm : (bp :: (F ++ L)).Perm (p :: bp :: R) := (hR.cons bp).trans (Perm.swap ..)
  have hsum := Inv.sum_of_perm hperm h.size
  rw [map_cons (l := R), sum_cons] at hsum
  have htotal := i.total
  set h' := ((h.setSize p (h.size p + h.size bp)).setPtr p (h.ptr bp)).setFreep p with hh'
  have hsize : h'.size p = h.size p + h.size bp :=
    (update_self ..).trans (mod_eq_of_lt (by omega))
  have hother : ∀ c, c ≠ p → h'.size c = h.size c := fun c hc => update_of_ne hc ..
  have hndR := hperm.nodup_iff.1 (nodup_of_tiles i.tiles)
  have hrest : ∀ c ∈ R, h'.size c = h.size c := fun c hc => hother c fun e =>
    (nodup_cons.1 hndR).1 (e ▸ mem_cons_of_mem bp hc)
  have hnd := i.nodup
  rw [hF] at hnd
  have hptr : ∀ a ∈ A ++ B, h'.ptr a = h.ptr a := fun a ha =>
    update_of_ne (ne_of_nodup hnd ha) ..
  refine ⟨hpF, by omega, i.base_pos, hpm, ?_, ?_, ?_, i.above, ?_, ?_⟩
  · rw [hF]
    refine append.2 ⟨i.before.congr fun a ha => hptr a (mem_append_left B ha), ?_,
      i.behind.congr fun a ha => hptr a (mem_append_right A ha)⟩
    rw [← i.ptr_bp]
    exact update_self ..
  · rw [hother base hpb, i.size_base]
  · have hs := i.sorted
    rw [hF, pairwise_append, pairwise_cons] at hs ⊢
    obtain ⟨hA, ⟨hpB, hB⟩, hAB⟩ := hs
    have hne : ∀ a ∈ A ++ B, h'.size a = h.size a := fun a ha => hother a (ne_of_nodup hnd ha)
    refine ⟨hA.imp_of_mem fun {a c} ha _ hac => ?_, ⟨fun c hc => ?_, hB.imp_of_mem fun {a c} ha _ hac => ?_⟩,
      fun a ha c hc => ?_⟩
    · rwa [hne a (mem_append_left B ha)]
    · have := i.upper c hc
      rw [hsize]
      omega
    · rwa [hne a (mem_append_right A ha)]
    · rw [hne a (mem_append_left B ha)]
      exact hAB a ha c hc
  · refine Tiles.perm ((tiles_join_iff h ?_ ?_ heq hsize hrest).1 (i.tiles.perm (hperm.map _)))
      (hR.map _).symm
    · exact size_pos_of_tiles i.tiles (mem_cons_of_mem bp (mem_append_left L hpF))
    · exact size_pos_of_tiles i.tiles mem_cons_self
  · rw [Inv.sum_of_perm hR h'.size, hsize, map_congr_left hrest]
    change 16 * _ = h.total
    omega

end Between

theorem insertBlock_size {c : ℕ} (hc : c ≠ bp) (hc' : c ≠ p) : (insertBlock bp p h).size c = h.size c := by
  have hup : (joinUp bp p h).size c = h.size c := by
    unfold joinUp
    split
    · exact update_of_ne hc ..
    · rfl
  rw [← hup]
  unfold insertBlock joinDown
  split
  · exact update_of_ne hc' ..
  · rfl

/-- and no regions. -/
theorem insertBlock_mem : (insertBlock bp p h).mem = h.mem ∧ (insertBlock bp p h).answers = h.answers := by
  unfold insertBlock joinDown joinUp
  split <;> split <;> exact ⟨rfl, rfl⟩

/-- A block is returned: it is in the free list, or part of a block there. -/
theorem Inv.insertBlock (i : Inv base h F live) (hsmall : h.total < 2 ^ 36) (hlive : live.Perm (bp :: L))
    (hF : base :: F = A ++ p :: B) (hp : p < bp) (hB : ∀ q ∈ B, bp < q) :
    ∃ F', F'.length ≤ F.length + 1 ∧ Inv base (insertBlock bp p h) F' L ∧
      ∃ x ∈ F', h.size bp ≤ (insertBlock bp p h).size x := by
  have hbp : bp ∈ live := hlive.mem_iff.2 mem_cons_self
  have hl := i.linked
  rw [hF] at hl
  have hpl := hl.next_eq
  -- the block above
  obtain ⟨B', F', hlen, hbet, hsize⟩ : ∃ B' F', F'.length ≤ F.length ∧
      Between base (joinUp bp p h) A p B' bp F' L ∧ h.size bp ≤ (joinUp bp p h).size bp := by
    unfold joinUp
    split
    · rename_i heq
      cases B with
      | nil =>
        have := i.base_lt (mem_append_right F hbp)
        rw [hpl, headD_nil] at heq
        omega
      | cons q B =>
        rw [hpl, headD_cons] at heq ⊢
        obtain ⟨hle, F', hlen, hbet⟩ := i.joinUp_of_eq hsmall hlive hF hp hB heq
        exact ⟨B, F', hlen, hbet, hle⟩
    · rename_i hne
      exact ⟨B, F, le_rfl, i.joinUp_of_ne hlive hF hp hB hne, le_rfl⟩
  have htotal : (joinUp bp p h).total = h.total := by
    unfold joinUp
    split <;> rfl
  -- the block below
  unfold Umalloc.insertBlock joinDown
  split
  · rename_i heq
    obtain ⟨hpF, hle, hinv⟩ := hbet.joinDown_of_eq (htotal ▸ hsmall) heq
    exact ⟨F', by omega, hinv, p, hpF, hsize.trans hle⟩
  · rename_i hne
    obtain ⟨F'', hmem, hlen', hinv⟩ := hbet.joinDown_of_ne hne
    exact ⟨F'', by omega, hinv, bp, hmem, hsize⟩

end Umalloc

end Xv6
