import Xv6.Umalloc.Blocks

/-!
# `malloc` and `free`

The loops of `free` and `malloc` walk around the free list. `free` comes to the place of the block before it
is back where it started. `malloc` comes to a block that is large enough or gets back to `freep`, calls
`morecore` once and then finds the new block.
-/

namespace Xv6

open Function Prog List Option Nat

namespace Umalloc

variable {base : ℕ} {h : Heap} {F live L S : List ℕ} {a b p q bp nu n k fuel : ℕ} {E : Stuck → Heap → Prop}
  {Q : Option ℕ → Heap → Prop}

/-! ## `free` -/

theorem freeFind_walk (hl : LinkedTo h.ptr S q) (hs : ∀ x ∈ S, ¬ h.Stops bp x) (k : ℕ) :
    freeFind h bp (S.length + k) (S.headD q) = freeFind h bp k q := by
  induction S with
  | nil => rw [length_nil, Nat.zero_add, headD_nil]
  | cons x S ih =>
    rw [length_cons, show S.length + 1 + k = S.length + k + 1 by omega, headD_cons, freeFind,
      if_neg (hs x mem_cons_self), hl.1]
    exact ih hl.2 fun y hy => hs y (mem_cons_of_mem x hy)

theorem exists_place {l : List ℕ} {x : ℕ} (hs : (a :: l).Pairwise (· < ·)) (ha : a < x) (hx : x ∉ l) :
    ∃ A p B, a :: l = A ++ p :: B ∧ p < x ∧ ∀ q ∈ B, x < q := by
  induction l generalizing a with
  | nil => exact ⟨[], a, [], rfl, ha, fun q hq => absurd hq not_mem_nil⟩
  | cons b l ih =>
    have hs' := (pairwise_cons.1 hs).2
    by_cases hb : b < x
    · obtain ⟨A, p, B, hl, hp, hB⟩ := ih hs' hb fun hm => hx (mem_cons_of_mem b hm)
      exact ⟨a :: A, p, B, by rw [hl, cons_append], hp, hB⟩
    · have hne : b ≠ x := fun e => hx (e ▸ mem_cons_self)
      refine ⟨[], a, b :: l, rfl, ha, fun q hq => ?_⟩
      rcases mem_cons.1 hq with rfl | hq
      · omega
      · have := (pairwise_cons.1 hs').1 q hq
        omega

/-- The loop of `free` finds the place of a block. -/
theorem Inv.freeFind_eq (i : Inv base h F live) (hbp : bp ∈ live) (hfuel : F.length + 2 ≤ fuel) :
    ∃ A p B, base :: F = A ++ p :: B ∧ p < bp ∧ (∀ q ∈ B, bp < q) ∧
      freeFind h bp fuel h.freep = some p := by
  have hlt := i.base_lt (mem_append_right F hbp)
  have hsorted : (base :: F).Pairwise (· < ·) := i.sorted.imp fun {a b} hab => by omega
  obtain ⟨A, p, B, hF, hp, hB⟩ := exists_place hsorted (x := bp) (by omega)
    fun hm => i.ne_of_free hbp (mem_cons_of_mem base hm) rfl
  refine ⟨A, p, B, hF, hp, hB, ?_⟩
  have hlen : F.length + 1 = A.length + (B.length + 1) := by
    have := congrArg length hF
    simpa using this
  have hl := i.linked
  rw [hF] at hl hsorted
  obtain ⟨hA, hpl, hBl⟩ := LinkedTo.append.1 hl
  rw [pairwise_append, pairwise_cons] at hsorted
  obtain ⟨hsA, ⟨-, hsB⟩, hAB⟩ := hsorted
  have hhead : A.headD p = base := by
    have := congrArg (headD · p) hF
    rw [LinkedTo.headD_append] at this
    exact this.symm
  have hbase : base ≤ p := by
    have hpm : p ∈ base :: F := by
      rw [hF]
      simp
    rcases mem_cons.1 hpm with rfl | hpm
    · exact le_rfl
    · have := i.base_lt (mem_append_left live hpm)
      omega
  -- the loop stops at `p` and at no other block
  have hstop : ∀ m, freeFind h bp (m + 1) p = some p := fun m => by
    refine if_pos ?_
    unfold Heap.Stops
    rw [hpl]
    cases B with
    | nil => exact .inr ⟨hbase, .inl hp⟩
    | cons q B => exact .inl ⟨hp, hB q mem_cons_self⟩
  have hgoA : ∀ x ∈ A, ¬ h.Stops bp x := fun x hx => by
    have hxp := hAB x hx p mem_cons_self
    unfold Heap.Stops
    rcases hA.next_cases hsA hx with hn | ⟨hn, hlt⟩
    · rw [hn, headD_cons]
      omega
    · have := hAB _ hn p mem_cons_self
      omega
  have hgoB : ∀ x ∈ B, ¬ h.Stops bp x := fun x hx => by
    have := hB x hx
    unfold Heap.Stops
    rcases hBl.next_cases hsB hx with hn | ⟨hn, hlt⟩
    · rw [hn]
      omega
    · omega
  -- from `base` on
  have hfromBase : ∀ m, freeFind h bp (A.length + (m + 1)) base = some p := fun m => by
    have hwalk := freeFind_walk hA hgoA (m + 1)
    rw [headD_cons, hhead] at hwalk
    exact hwalk.trans (hstop m)
  have hmem := i.freep
  rw [hF, mem_append, mem_cons] at hmem
  rcases hmem with hmem | hmem | hmem
  · obtain ⟨S, hS, hlenS, hsub⟩ := hA.exists_tail hmem
    obtain ⟨m, rfl⟩ : ∃ m, fuel = (h.freep :: S).length + (m + 1) :=
      ⟨fuel - (h.freep :: S).length - 1, by omega⟩
    exact (freeFind_walk hS (fun x hx => hgoA x (hsub x hx)) (m + 1)).trans (hstop m)
  · obtain ⟨m, rfl⟩ : ∃ m, fuel = m + 1 := ⟨fuel - 1, by omega⟩
    rw [hmem]
    exact hstop m
  · obtain ⟨S, hS, hlenS, hsub⟩ := hBl.exists_tail hmem
    obtain ⟨m, rfl⟩ : ∃ m, fuel = (h.freep :: S).length + (A.length + (m + 1)) :=
      ⟨fuel - (h.freep :: S).length - A.length - 1, by omega⟩
    exact (freeFind_walk hS (fun x hx => hgoB x (hsub x hx)) _).trans (hfromBase m)

theorem Inv.wp_free {Q : Unit → Heap → Prop} (i : Inv base h F live) (hsmall : h.total < 2 ^ 36)
    (hlive : live.Perm (bp :: L)) (hfuel : F.length + 2 ≤ fuel)
    (hQ : ∀ h' F', F'.length ≤ F.length + 1 → Inv base h' F' L → (∃ x ∈ F', h.size bp ≤ h'.size x) →
      (∀ c ∈ L, h'.size c = h.size c) → h'.mem = h.mem → h'.answers = h.answers → Q () h') :
    wp (free fuel (bp + 16)) Q E h := by
  have hbp : bp ∈ live := hlive.mem_iff.2 mem_cons_self
  obtain ⟨A, p, B, hF, hp, hB, hfind⟩ := i.freeFind_eq hbp hfuel
  obtain ⟨F', hlen, hinv, hfit⟩ := i.insertBlock hsmall hlive hF hp hB
  unfold free
  rw [wp_bind, wp_get, Nat.add_sub_cancel, hfind]
  refine hQ _ F' hlen hinv hfit (fun c hc => ?_) insertBlock_mem.1 insertBlock_mem.2
  have hnd := hlive.nodup_iff.1 ((nodup_append.1 (nodup_cons.1 i.nodup).2).2.1)
  refine insertBlock_size (fun e => (nodup_cons.1 hnd).1 (e ▸ hc)) fun e => ?_
  exact i.ne_of_free (hlive.mem_iff.2 (mem_cons_of_mem bp hc)) (by rw [hF]; simp) e.symm

/-! ## `morecore` -/

/-- `a` is the address of a region above `base` and all earlier ones. -/
def Heap.Fresh (base : ℕ) (h : Heap) (a : ℕ) : Prop := base + 16 ≤ a ∧ ∀ x ∈ h.memory, x < a

/-- The heap with a new region, which is one block. -/
def Heap.grow (h : Heap) (a nu : ℕ) (answers : List (Option ℕ)) : Heap :=
  { h with answers := answers, mem := (a, 16 * nu) :: h.mem }.setSize a nu

/-- The new block is not free yet. -/
theorem Inv.grow (i : Inv base h F live) (ha : h.Fresh base a) (hnu : 0 < nu) (hlt : nu < 2 ^ 32)
    (answers : List (Option ℕ)) : Inv base (h.grow a nu answers) F (a :: live) := by
  obtain ⟨hbase, hfresh⟩ := ha
  have hsize : (h.grow a nu answers).size a = nu := (update_self ..).trans (mod_eq_of_lt hlt)
  have hother : ∀ c ∈ F ++ live, (h.grow a nu answers).size c = h.size c := fun c hc =>
    update_of_ne (hfresh c (i.mem_memory hc)).ne ..
  have hb : (h.grow a nu answers).size base = h.size base := update_of_ne (by omega) ..
  have hmem : (h.grow a nu answers).memory = {x | a ≤ x ∧ x < a + 16 * nu} ∪ h.memory :=
    Tiles.covered_cons ..
  have hperm : (F ++ a :: live).Perm (a :: (F ++ live)) := perm_middle
  refine ⟨i.base_pos, i.freep, i.linked, hb.trans i.size_base, ?_, ?_, ?_, ?_⟩
  · refine i.sorted.imp_of_mem fun {c d} hc _ hcd => ?_
    rcases mem_cons.1 hc with rfl | hc
    · rwa [hb]
    · rwa [hother c (mem_append_left live hc)]
  · rw [hmem]
    rintro x (hx | hx)
    · exact hbase.trans hx.1
    · exact i.above x hx
  · refine Tiles.perm ?_ (hperm.map _).symm
    rw [hmem, map_cons, Heap.block, hsize,
      map_congr_left (g := h.block) fun c hc => by rw [Heap.block, Heap.block, hother c hc]]
    exact i.tiles.insert (by omega) hfresh
  · rw [sum_of_perm hperm, hsize, map_congr_left hother, Nat.mul_add, i.total]
    rfl

theorem int_toNat (h : n < 2 ^ 31) : (int n).toNat = n := by
  unfold int
  rw [Int.bmod_eq_of_le (by omega) (by omega)]
  rfl

variable {r : Option ℕ} {answers : List (Option ℕ)} {z : ℤ}

theorem wp_sbrk_none
    (hans : h.answers = none :: answers) (hQ : Q none { h with answers := answers }) :
    wp (sbrk z) Q E h := by
  unfold sbrk
  rw [wp_bind, wp_get, hans]
  exact hQ

theorem wp_sbrk_some
    (hans : h.answers = some a :: answers)
    (hQ : Q (some a) { h with answers := answers, mem := (a, z.toNat) :: h.mem }) :
    wp (sbrk z) Q E h := by
  unfold sbrk
  rw [wp_bind, wp_get, hans]
  exact hQ

/-- The number of units for which `morecore` asks. -/
def grain (nu : ℕ) : ℕ := if nu < 4096 then 4096 else nu

theorem le_grain (nu : ℕ) : nu ≤ grain nu := by
  unfold grain
  split <;> omega

theorem Inv.wp_morecore
    (i : Inv base h F live) (hnu : ∀ a, r = some a → nu * 16 < 2 ^ 31) (hans : h.answers = r :: answers)
    (hr : ∀ a, r = some a → h.Fresh base a ∧ h.total + 16 * grain nu < 2 ^ 36) (hfuel : F.length + 2 ≤ fuel)
    (hnone : ∀ h', r = none → Inv base h' F live → h'.size = h.size → h'.mem = h.mem →
      h'.answers = answers → Q none h')
    (hsome : ∀ a h' F', r = some a → F'.length ≤ F.length + 1 → Inv base h' F' live →
      (∃ x ∈ F', nu ≤ h'.size x) → (∀ c ∈ live, h'.size c = h.size c) → h'.mem = (a, 16 * grain nu) :: h.mem →
      h'.answers = answers → Q (some h'.freep) h') :
    wp (morecore fuel nu) Q E h := by
  unfold morecore
  rw [wp_bind]
  cases r with
  | none =>
    exact wp_sbrk_none hans
      (hnone _ rfl ⟨i.base_pos, i.freep, i.linked, i.size_base, i.sorted, i.above, i.tiles, i.total⟩
        rfl rfl rfl)
  | some a =>
    obtain ⟨hfresh, htotal⟩ := hr a rfl
    have hg : 0 < grain nu ∧ grain nu * 16 < 2 ^ 31 := by
      have := hnu a rfl
      unfold grain
      split <;> omega
    refine wp_sbrk_some hans ?_
    rw [← grain, int_toNat hg.2, Nat.mul_comm]
    have hsize : (h.grow a (grain nu) answers).size a = grain nu :=
      (update_self ..).trans (mod_eq_of_lt (by omega))
    have hgrow : (h.grow a (grain nu) answers).total = 16 * grain nu + h.total := sum_cons
    refine wp_bind.2 (wp_modify _ |>.2 (wp_bind.2 ?_))
    refine (i.grow hfresh hg.1 (by omega) answers).wp_free (by omega) (Perm.refl _) hfuel ?_
    intro h' F' hlen hinv hfit hsizes hmem hans'
    obtain ⟨x, hx, hle⟩ := hfit
    refine hsome a h' F' rfl hlen hinv ⟨x, hx, ?_⟩ (fun c hc => ?_) hmem hans'
    · have := le_grain nu
      omega
    · rw [hsizes c hc]
      exact update_of_ne (hfresh.2 c (i.mem_memory (mem_append_right F hc))).ne ..

/-! ## `malloc` -/

/-- `take` from a block of the free list that is large enough. -/
theorem Inv.wp_take (i : Inv base h F live) (hsmall : h.total < 2 ^ 36)
    (hp : p ∈ base :: F) (hnu : 0 < nu) (hle : nu ≤ h.size (h.ptr p))
    (hQ : ∀ b h' F', F'.length ≤ F.length → Inv base h' F' (b :: live) → h'.size b = nu →
      (∀ c ∈ live, h'.size c = h.size c) → h'.mem = h.mem → h'.answers = h.answers → Q (some (b + 16)) h') :
    wp (take nu p (h.ptr p)) Q E h := by
  have hne : h.ptr p ≠ base := fun e => by
    rw [e, i.size_base] at hle
    omega
  obtain ⟨A, B, hF⟩ := i.split_of_ptr hp hne
  have hq : h.ptr p ∈ F := by
    have : h.ptr p ∈ base :: F := by
      rw [hF]
      simp
    exact (mem_cons.1 this).resolve_left hne
  unfold take
  rw [wp_bind, wp_get, wp_ite]
  split
  · rename_i heq
    obtain ⟨F', hperm, hinv⟩ := i.take_whole hF
    refine hQ (h.ptr p) _ F' ?_ hinv heq (fun c _ => rfl) rfl rfl
    rw [hperm.length_eq, length_cons]
    omega
  · rename_i hneq
    have hlt : nu < h.size (h.ptr p) := by omega
    have hinv := i.take_tail hsmall hp hq hnu hlt
    have hsize := i.size_lt hsmall (mem_append_left live hq)
    refine hQ _ _ F le_rfl hinv ((update_self ..).trans (mod_eq_of_lt (by omega)))
      (fun c hc => ?_) rfl rfl
    -- a live block is neither the new one nor free
    have hnd := hinv.nodup
    have hc₁ : c ≠ h.ptr p + 16 * (h.size (h.ptr p) - nu) := by
      rintro rfl
      have := (nodup_append.1 (nodup_cons.1 hnd).2).2.1
      exact (nodup_cons.1 this).1 hc
    have hc₂ : c ≠ h.ptr p := (i.ne_of_free hc (mem_cons_of_mem base hq)).symm
    exact (update_of_ne hc₁ ..).trans (update_of_ne hc₂ ..)

/-- The loop of `malloc` comes to a block that is large enough or back to `freep`. -/
theorem wp_mallocLoop (hl : LinkedTo h.ptr (p :: S) h.freep) (hS : h.freep ∉ S)
    (hfit : ∀ x ∈ p :: S, nu ≤ h.size (h.ptr x) → wp (take nu x (h.ptr x)) Q E h)
    (hmore : (∀ x ∈ S, h.size x < nu) → h.size h.freep < nu →
      wp (morecore k nu) (fun r h' => match r with
        | none => Q none h'
        | some p => wp (mallocLoop nu k p (h'.ptr p)) Q E h') E h) :
    wp (mallocLoop nu (S.length + (k + 1)) p (h.ptr p)) Q E h := by
  induction S generalizing p with
  | nil =>
    rw [length_nil, Nat.zero_add, mallocLoop, wp_bind, wp_get, wp_ite]
    split
    · exact hfit p mem_cons_self ‹_›
    · have hp : h.ptr p = h.freep := hl.1
      rw [if_pos hp, wp_bind]
      have hlt : h.size h.freep < nu := by
        rw [← hp]
        omega
      refine wp_mono (hmore (fun x hx => absurd hx not_mem_nil) hlt) (fun r h' hr => ?_)
        fun _ _ he => he
      cases r with
      | none => exact hr
      | some p => exact hr
  | cons x S ih =>
    have hp : h.ptr p = x := hl.1
    have hx : x ≠ h.freep := fun e => hS (e ▸ mem_cons_self)
    rw [length_cons, show S.length + 1 + (k + 1) = S.length + (k + 1) + 1 by omega, mallocLoop,
      wp_bind, wp_get, wp_ite]
    split
    · exact hfit p mem_cons_self ‹_›
    · have hlt : h.size x < nu := by
        rw [← hp]
        omega
      rw [hp, if_neg hx]
      refine ih hl.2 (fun hm => hS (mem_cons_of_mem x hm))
        (fun y hy => hfit y (mem_cons_of_mem p hy)) fun hall => hmore fun y hy => ?_
      rcases mem_cons.1 hy with rfl | hy
      · exact hlt
      · exact hall y hy

theorem Inv.around (i : Inv base h F live) :
    ∃ S, S.length = F.length ∧ h.freep ∉ S ∧ LinkedTo h.ptr (h.freep :: S) h.freep ∧
      ∀ x, x ∈ h.freep :: S ↔ x ∈ base :: F := by
  obtain ⟨S, hS, hperm⟩ := i.linked.rotate i.freep
  have hnd := hperm.nodup_iff.1 (i.nodup.sublist ((sublist_append_left F live).cons_cons base))
  exact ⟨S, succ.inj hperm.length_eq.symm, (nodup_cons.1 hnd).1, hS, fun x => hperm.mem_iff.symm⟩

/-- A block of the free list has `nu` units. -/
def Heap.Fits (h : Heap) (nu : ℕ) : Prop := ∃ k, nu ≤ h.size (h.ptr^[k] h.freep)

/-- The free list is closed under links. -/
theorem Inv.mem_of_iterate (i : Inv base h F live) (k : ℕ) : h.ptr^[k] h.freep ∈ base :: F := by
  induction k with
  | zero => exact i.freep
  | succ k ih =>
    rw [iterate_succ_apply']
    rcases i.linked.next_cases (i.sorted.imp fun _ => trivial) ih with hn | ⟨hn, -⟩
    · rw [hn]
      exact mem_cons_self
    · exact hn

/-- What `malloc` of `nu` units does to a heap with the given live blocks, if `sbrk` answers `r`. -/
structure Given (base : ℕ) (h : Heap) (live : List ℕ) (nu : ℕ) (r res : Option ℕ) (h' : Heap) : Prop where
  sizes : ∀ c ∈ live, h'.size c = h.size c
  /-- `sbrk` was not called, or failed, or returned a new region. -/
  mem : h'.mem = h.mem ∧ (h'.answers = [r] ∨ r = none) ∨
    ∃ a, r = some a ∧ nu * 16 < 2 ^ 31 ∧ h'.answers = [] ∧ h'.mem = (a, 16 * grain nu) :: h.mem
  null : res = none → ∃ F, Inv base h' F live
  block : ∀ q, res = some q → ∃ b F, q = b + 16 ∧ h'.size b = nu ∧ Inv base h' F (b :: live)

theorem Inv.wp_mallocLoop (i : Inv base h F live) (hsmall : h.total < 2 ^ 36) (hnu : 0 < nu)
    (hlt : h.Fits nu ∨ r = none ∨ nu * 16 < 2 ^ 31) (hans : h.answers = [r])
    (hr : ∀ a, r = some a → h.Fresh base a ∧ h.total + 16 * grain nu < 2 ^ 36)
    (hfuel : 2 * F.length + 3 ≤ fuel) :
    wp (mallocLoop nu fuel h.freep (h.ptr h.freep)) (Given base h live nu r) E h := by
  obtain ⟨S, hlen, hS, hl, hmem⟩ := i.around
  obtain ⟨k, rfl, hk⟩ : ∃ k, fuel = S.length + (k + 1) ∧ F.length + 2 ≤ k :=
    ⟨fuel - S.length - 1, by omega, by omega⟩
  refine Umalloc.wp_mallocLoop hl hS (fun x hx hle => ?_) fun hall hfreep => ?_
  · refine i.wp_take hsmall ((hmem x).1 hx) hnu hle fun b h' F' _ hinv hb hsizes hm hans' => ?_
    exact ⟨hsizes, .inl ⟨hm, .inl (hans'.trans hans)⟩, fun e => absurd e (some_ne_none _),
      fun q e => ⟨b, F', (some.inj e).symm, hb, hinv⟩⟩
  · -- no block is large enough
    have hlt' : ∀ a, r = some a → nu * 16 < 2 ^ 31 := by
      rintro a rfl
      rcases hlt with ⟨k, hle⟩ | h0 | hlt
      · rcases mem_cons.1 ((hmem _).2 (i.mem_of_iterate k)) with hx | hx
        · rw [hx] at hle
          omega
        · have := hall _ hx
          omega
      · cases h0
      · exact hlt
    refine i.wp_morecore hlt' hans hr hk (fun h' h0 hinv hsize hm _ => ?_)
      fun a h' F' ha hlen' hinv hfits hsizes hm hans' => ?_
    · exact ⟨fun c _ => congrFun hsize c, .inl ⟨hm, .inr h0⟩, fun _ => ⟨F, hinv⟩,
        fun q e => absurd e.symm (some_ne_none q)⟩
    -- now there is a block that is large enough
    · obtain ⟨S', hlen'', hS', hl', hmem'⟩ := hinv.around
      obtain ⟨m, rfl⟩ : ∃ m, k = S'.length + (m + 1) := ⟨k - S'.length - 1, by omega⟩
      have hsmall' : h'.total < 2 ^ 36 := by
        have : h'.total = 16 * grain nu + h.total := by
          unfold Heap.total
          rw [hm]
          exact sum_cons
        have := (hr a ha).2
        omega
      refine Umalloc.wp_mallocLoop hl' hS' (fun x hx hle => ?_) fun hall hfreep => ?_
      · refine hinv.wp_take hsmall' ((hmem' x).1 hx) hnu hle
          fun b h'' F'' _ hinv' hb hsizes' hm' hans'' => ?_
        refine ⟨fun c hc => (hsizes' c hc).trans (hsizes c hc),
          .inr ⟨a, ha, hlt' a ha, hans''.trans hans', hm'.trans hm⟩,
          fun e => absurd e (some_ne_none _), fun q e => ⟨b, F'', (some.inj e).symm, hb, hinv'⟩⟩
      · obtain ⟨x, hx, hle⟩ := hfits
        rcases mem_cons.1 ((hmem' x).2 (mem_cons_of_mem base hx)) with rfl | hx'
        · omega
        · have := hall x hx'
          omega

end Umalloc

end Xv6
