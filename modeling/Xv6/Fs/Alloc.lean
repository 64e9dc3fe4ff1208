import Xv6.Fs.Blocks

/-!
# The block allocator

`balloc` and `bfree` move blocks between the free map and the floating blocks of a `Vol`. The panics
of a specification are those allowed by a predicate `P` that is `Tolerant`: every panic but "freeing
free block", which the specifications exclude, and "ilock: no type" and "unlink: nlink < 1", which depend
on the tree.
-/

namespace Xv6

open RedoLog Function Prog List

/-- Predicates on panics that exclude at most the panics the specifications are about. -/
def Tolerant (P : Panic → Prop) : Prop := ∀ e, e ≠ .freeingFree → e ≠ .noType → e ≠ .unlinkNlink → P e

@[simp] theorem wp_disk {α : Type} {f : StoreM α} {Q : α → Fs → Prop} {E : Panic → Fs → Prop}
    {s : Fs} : wp (disk f) Q E s ↔
      wp f (fun a st => Q a { s with store := st }) (fun e st => E e { s with store := st })
        s.store := wp_zoom

/-- The image after `balloc` returned `b`. -/
def Img.alloc (sb : Superblock) (g : Img) (b : ℕ) : Img where
  V := update
    (update g.V (sb.bblock b) (setBit (g.V (sb.bblock b)) (b % BPB))) b Bytes.zero
  D := g.D \ {b}
  X := g.X

variable {sb : Superblock} {g : Img} {F U : Set ℕ} {t b c : ℕ} {L : List ℕ} {st : Store} {s : Fs}
  {P : Panic → Prop}

/-- Outside of the free map `balloc` changes nothing but the block it returns. -/
theorem Img.alloc_V (hb : b < sb.size) (hc : c < sb.bmapstart ∨ sb.datastart ≤ c) (hne : c ≠ b) :
    (g.alloc sb b).V c = g.V c := by
  have h₁ : sb.bmapstart ≤ sb.bblock b := sb.bmapstart_le_bblock
  have h₂ : sb.bblock b < sb.datastart := sb.bblock_lt hb
  simp only [alloc]
  rw [update_of_ne hne, update_of_ne (by omega)]

theorem Img.alloc_V_self : (g.alloc sb b).V b = Bytes.zero := update_self ..

theorem Vol.bblock_not_mem (h : Vol sb g F U t L st) (hb : b < sb.size) : sb.bblock b ∉ g.D :=
  fun hm => absurd (h.dirty _ hm).1.1 (by have := sb.bblock_lt hb; omega)

theorem Vol.iblock_not_mem (hsb : sb.Ok) (h : Vol sb g F U t L st) {i : ℕ} (hi : i < sb.ninodes) :
    sb.iblock i ∉ g.D := fun hm => by
  have h₁ := (h.dirty _ hm).1.1
  have h₂ := hsb.iblock_lt hi
  have h₃ : sb.bmapstart < sb.datastart := sb.bmapstart_lt
  omega

/-- A change of the contents that leaves the inodes and the indirect blocks alone. -/
theorem Vol.congr (h : Vol sb g F U t L st) {V' : Disk} {D' F' : Set ℕ} {L' : List ℕ} {st' : Store}
    (hsb : sb.Ok) (hs : Shows sb.logstart V' D' t L' st') (hD : D' ⊆ g.D)
    (hV : ∀ c, c < sb.bmapstart → V' c = g.V c)
    (hI : ∀ i, sb.Alive g.X i → (g.X i).indirect ≠ 0 → V' (g.X i).indirect = g.V (g.X i).indirect)
    (hl : Ledger sb.data (refAt sb g.V g.X) (sb.Used V') F')
    (hr : ∀ b < sb.datastart, b < sb.size → sb.Used V' b) : Vol sb ⟨V', D', g.X⟩ F' U t L' st' where
  shows := hs
  own := h.own.congr hI hl hr
  dirty b hb := by
    simp only [refAt_congr hI]
    exact h.dirty b (hD hb)
  sync i hi hU := by
    rw [← h.sync i hi hU]
    exact congrArg (fun d => Dinode.read d i) (hV _ (hsb.iblock_lt hi))

theorem Vol.alloc (h : Vol sb g F U t L st) (hsb : sb.Ok) (hb : b ∈ sb.data)
    (hu : ¬ sb.Used g.V b) {L' : List ℕ} {st' : Store}
    (hs : Shows sb.logstart (g.alloc sb b).V (g.alloc sb b).D t L' st') :
    Vol sb (g.alloc sb b) (insert b F) U t L' st' := by
  have hb₁ : sb.bmapstart < sb.datastart := sb.bmapstart_lt
  have hb₂ := hb.1
  have hused : ∀ c < sb.size, sb.Used (g.alloc sb b).V c ↔ c = b ∨ sb.Used g.V c := fun c hc => by
    have : sb.bblock c < sb.datastart := sb.bblock_lt hc
    rw [← Superblock.used_setBit]
    simp only [Superblock.Used, Img.alloc]
    rw [update_of_ne (by omega)]
  refine h.congr hsb hs Set.sdiff_subset (fun c hc => ?_) (fun i hi h0 => ?_)
    (h.own.ledger.take hb hu fun c hc => hused c hc.2) fun c hc hcs => ?_
  · exact Img.alloc_V hb.2 (.inl hc) (by omega)
  · refine Img.alloc_V hb.2 (.inr (h.own.indirect_mem hi h0).1) ?_
    rw [← refAt_indirect (V := g.V) hi]
    exact h.own.ledger.ref_ne_of_not_used hb hu _
  · exact (hused c hcs).2 (.inr (h.own.reserved c hc hcs))

theorem wp_bzero {Q : Unit → Fs → Prop} {V : Disk} {D : Set ℕ}
    (h : Shows sb.logstart V D t L s.store) (hP : Tolerant P)
    (hb : Home sb.logstart LOGBLOCKS b)
    (hQ : ∀ st', Shows sb.logstart (update V b Bytes.zero) (D \ {b}) t L st' →
      Q () { s with store := st' }) : wp (bzero b) Q (fun e _ => P e) s := by
  unfold bzero
  simp only [wp_bind, wp_disk]
  refine h.wp_bread_any (fun _ => hP _ (by decide) (by decide) (by decide)) fun _ st₁ h₁ _ _ => ?_
  exact h₁.wp_update hb (fun _ => hP _ (by decide) (by decide) (by decide))
    (fun _ => hP _ (by decide) (by decide) (by decide)) fun st₂ h₂ => hQ st₂ h₂

/-- The loop of `balloc` over blocks of the free map. -/
theorem wp_ballocLoop {Q : ℕ → Fs → Prop} (hsb : sb.Ok) (hP : Tolerant P) (ks : List ℕ)
    (hks : ∀ k ∈ ks, k * BPB < sb.size) (h : Vol sb g F U t L s.store)
    (h0 : ∀ st', Vol sb g F U t L st' → Q 0 { s with store := st' })
    (hQ : ∀ b ∈ sb.data, ¬ sb.Used g.V b → ∀ st', Vol sb (g.alloc sb b) (insert b F) U t L st' →
      Q b { s with store := st' }) : wp (ballocLoop sb ks) Q (fun e _ => P e) s := by
  induction ks generalizing s with
  | nil => exact h0 s.store h
  | cons k ks ih =>
    have hk := hks k mem_cons_self
    have hE : ∀ e : Panic, e ≠ .freeingFree → e ≠ .noType → e ≠ .unlinkNlink → ∀ _ : Store, P e :=
      fun e h₁ h₂ h₃ _ => hP e h₁ h₂ h₃
    unfold ballocLoop
    simp only [wp_bind, wp_disk]
    refine h.shows.wp_bread hsb.home_bblock (h.bblock_not_mem hk) (hE _ (by decide) (by decide) (by decide))
      fun st₁ h₁ => ?_
    cases hf : firstClear (g.V (sb.bblock (k * BPB))) (min BPB (sb.size - k * BPB)) 0 with
    | none =>
      simp only [wp_bind, wp_disk]
      refine h₁.wp_brelse fun st₂ h₂ _ => ?_
      exact ih (fun k hk => hks k (mem_cons_of_mem _ hk)) { h with shows := h₂ } h0 hQ
    | some bi =>
      obtain ⟨-, hlt, hbit⟩ := firstClear_some hf
      rw [Nat.zero_add, Nat.lt_min] at hlt
      -- the block found, seen from its own number
      have hblk : sb.bblock (k * BPB + bi) = sb.bblock (k * BPB) := by
        apply Superblock.bblock_congr
        unfold BPB at *
        omega
      have hmod : (k * BPB + bi) % BPB = bi := by
        unfold BPB at *
        omega
      have hu : ¬ sb.Used g.V (k * BPB + bi) := by
        unfold Superblock.Used
        rw [hblk, hmod, hbit]
        decide
      have hsz : k * BPB + bi < sb.size := Nat.lt_sub_iff_add_lt'.1 hlt.2
      have hb : k * BPB + bi ∈ sb.data :=
        ⟨Nat.le_of_not_lt fun hd => hu (h.own.reserved _ hd hsz), hsz⟩
      simp only [wp_bind, wp_disk]
      refine h₁.wp_update hsb.home_bblock (hE _ (by decide) (by decide) (by decide))
        (hE _ (by decide) (by decide) (by decide)) fun st₂ h₂ => ?_
      refine wp_bzero h₂ hP (hsb.home_data hb) fun st₃ h₃ => ?_
      refine hQ _ hb hu st₃ (h.alloc hsb hb hu ?_)
      simp only [Img.alloc, hblk, hmod]
      exact h₃.mono fun c hc => ⟨hc.1.1, hc.2⟩

/-- `balloc` returns 0 or a block that was not in use. -/
theorem wp_balloc {Q : ℕ → Fs → Prop} (hsb : sb.Ok) (hP : Tolerant P)
    (h : Vol sb g F U t L s.store) (h0 : ∀ st', Vol sb g F U t L st' → Q 0 { s with store := st' })
    (hQ : ∀ b ∈ sb.data, ¬ sb.Used g.V b → ∀ st', Vol sb (g.alloc sb b) (insert b F) U t L st' →
      Q b { s with store := st' }) : wp (balloc sb) Q (fun e _ => P e) s := by
  refine wp_ballocLoop hsb hP _ (fun k hk => ?_) h h0 hQ
  have := mem_range.1 hk
  unfold BPB at *
  omega

end Xv6
