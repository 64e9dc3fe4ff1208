import Xv6.Fs.Current
import Xv6.Mkfs.Build

/-!
# The volume that `mkfs` builds

While `mkfs` runs, the image with the free map it would write now is a volume in the sense of the kernel
(`Mkfs.Rep`): the blocks below `freeblock` are those of the layout and those that inodes refer to, each
referred to once. `appendBlock` and `iappend` are specified by what they do to this volume.
-/

namespace Xv6

open RedoLog Function Prog List Img Set Dinode Nat Bytes

/-- The store of a kernel that just booted from the disk `V`. -/
abbrev Store.fresh (V : Disk) : Store := { boot V with start := mkfsSb.logstart }

theorem mkfsSb_ok : mkfsSb.Ok where
  log := by decide
  inodes := by decide
  size := by decide
  ninodes := by decide
  root := by decide

theorem datastart_mkfsSb : mkfsSb.datastart = nmeta := by decide

theorem seek_of_lt {sec : ℕ} (h : sec < FSSIZE + 1) : seek sec = sec := by
  unfold seek
  unfold FSSIZE at h
  unfold BSIZE
  omega

/-- The bits of the free map. -/
theorem getBit_bitmap {n i : ℕ} (hn : n ≤ BPB) : getBit (Mkfs.bitmap n) i = decide (i < n) := by
  induction n with
  | zero => simp [Mkfs.bitmap, getBit, rd8_zero]
  | succ n ih =>
    rw [Mkfs.bitmap, getBit_setBit _ (by omega), ih (by omega)]
    simp only [← Bool.decide_or, decide_eq_decide]
    omega

namespace Mkfs

/-- The image with the free map that would be written now. -/
def disk (s : Mkfs) : Disk := update s.sect mkfsSb.bmapstart (bitmap s.freeblock)

/-- The state of `mkfs` and the volume in it. The inodes of `U` are not stored yet, the blocks of `F` not
referred to yet. -/
structure Rep (s : Mkfs) (g : Img) (F U : Set ℕ) : Prop where
  vol : Vol mkfsSb g F U 0 [] (Store.fresh g.V)
  disk : g.V = s.disk
  exact : g.D = ∅
  nsect : s.nsect = FSSIZE
  layout : nmeta ≤ s.freeblock
  room : s.freeblock ≤ FSSIZE
  zero : ∀ b, s.freeblock ≤ b → s.sect b = Bytes.zero
  unused : ∀ i, s.freeinode ≤ i → i < NINODES → (g.X i).type = 0
  super : s.sect 1 = sbBlock

variable {s : Mkfs} {g g' : Img} {F U : Set ℕ} {i j b bn off : ℕ}

theorem disk_of_ne (h : b ≠ mkfsSb.bmapstart) : s.disk b = s.sect b := update_of_ne h ..

theorem disk_bmap : s.disk mkfsSb.bmapstart = bitmap s.freeblock := update_self ..

/-- A volume whose bytes changed, seen by a kernel that booted from it. -/
theorem shows_fresh (hD : g.D = ∅) : Shows mkfsSb.logstart g.V g.D 0 [] (Store.fresh g.V) := by
  rw [hD]
  exact Shows.boot ..

theorem bmapstart_lt_nmeta : mkfsSb.bmapstart < nmeta := by decide

theorem bblock_eq (h : b < FSSIZE) : mkfsSb.bblock b = mkfsSb.bmapstart := by
  have : b / BPB = 0 := div_eq_of_lt (by unfold BPB; unfold FSSIZE at h; omega)
  rw [Superblock.bblock, this, Nat.zero_add]

theorem used_disk (h : s.freeblock ≤ FSSIZE) (hb : b < FSSIZE) :
    mkfsSb.Used s.disk b ↔ b < s.freeblock := by
  have hm : b % BPB = b := mod_eq_of_lt (by unfold BPB; unfold FSSIZE at hb; omega)
  unfold Superblock.Used
  rw [bblock_eq hb, disk_bmap, hm, getBit_bitmap (by unfold BPB; unfold FSSIZE at h; omega),
    decide_eq_true_iff]

namespace Rep

theorem used_iff (h : Rep s g F U) (hb : b < FSSIZE) : mkfsSb.Used g.V b ↔ b < s.freeblock := by
  rw [h.disk]
  exact used_disk h.room hb

/-- `freeblock++` gives a zeroed block that is not in use. -/
theorem bump (h : Rep s g ∅ U) (hlt : s.freeblock < FSSIZE) :
    Rep { s with freeblock := s.freeblock + 1 } (g.alloc mkfsSb s.freeblock) {s.freeblock} U := by
  have hm := h.layout
  have hb := bmapstart_lt_nmeta
  have hD : (g.alloc mkfsSb s.freeblock).D = ∅ := by
    simp only [Img.alloc, h.exact, empty_sdiff]
  have hV : (g.alloc mkfsSb s.freeblock).V = Mkfs.disk { s with freeblock := s.freeblock + 1 } := by
    have hmod : s.freeblock % BPB = s.freeblock :=
      mod_eq_of_lt (by unfold BPB; unfold FSSIZE at hlt; omega)
    have hset : setBit (bitmap s.freeblock) s.freeblock = bitmap (s.freeblock + 1) := rfl
    simp only [Img.alloc, bblock_eq hlt, h.disk, disk_bmap, hmod, hset]
    funext c
    by_cases hc : c = s.freeblock
    · rw [hc, update_self, disk_of_ne (by omega)]
      exact (h.zero _ le_rfl).symm
    · rw [update_of_ne hc]
      simp only [Mkfs.disk, update_idem]
  refine ⟨?_, hV, hD, h.nsect, by simp only; omega, hlt, fun b hb => h.zero b (by simp only at hb; omega),
    h.unused, h.super⟩
  have := h.vol.alloc mkfsSb_ok (b := s.freeblock) ⟨by rw [datastart_mkfsSb]; exact hm, hlt⟩
    (by rw [h.used_iff hlt]; omega) (shows_fresh hD)
  rwa [insert_empty_eq] at this

/-- The new block is stored in an empty slot of an inode. -/
theorem slot (h : Rep s g {b} U) (hi : mkfsSb.Alive g.X i) {k : Fin (NDIRECT + 1)}
    (hk : (g.X i).addrs k = 0) (hz : g.V b = Bytes.zero) :
    Rep s (g.setX i ((g.X i).setAddr k b)) ∅ (insert i U) ∧
      Maps mkfsSb g i (g.setX i ((g.X i).setAddr k b)) := by
  obtain ⟨v, m⟩ := h.vol.attach_slot mkfsSb_ok hi hk (mem_singleton b)
    (by rw [h.exact]; exact notMem_empty b) hz
  rw [sdiff_self] at v
  refine ⟨⟨v, h.disk, h.exact, h.nsect, h.layout, h.room, h.zero, fun j hj hlt => ?_, h.super⟩, m⟩
  rw [m.type_eq]
  exact h.unused j hj hlt

/-- The blocks that inodes refer to lie behind the free map and below `freeblock`. -/
theorem ref_lt (h : Rep s g F U) {p : Place} (hp : refAt mkfsSb g.V g.X p ≠ 0) :
    nmeta ≤ refAt mkfsSb g.V g.X p ∧ refAt mkfsSb g.V g.X p < s.freeblock := by
  obtain ⟨h₁, h₂⟩ := h.vol.own.ledger.range p hp
  rw [datastart_mkfsSb] at h₁
  exact ⟨h₁, (h.used_iff h₂).1 (h.vol.own.ledger.used_of_ref hp)⟩

theorem indirect_lt (h : Rep s g F U) (hi : mkfsSb.Alive g.X i) (h0 : (g.X i).indirect ≠ 0) :
    nmeta ≤ (g.X i).indirect ∧ (g.X i).indirect < s.freeblock := by
  rw [← refAt_indirect (V := g.V) hi] at h0 ⊢
  exact h.ref_lt h0

theorem block_lt (h : Rep s g F U) (hi : mkfsSb.Alive g.X i) (hbn : bn < MAXFILE)
    (h0 : blockAt g.V (g.X i) bn ≠ 0) :
    nmeta ≤ blockAt g.V (g.X i) bn ∧ blockAt g.V (g.X i) bn < s.freeblock := by
  rw [← refAt_dataPlace hi hbn] at h0 ⊢
  exact h.ref_lt h0

theorem write (h : Rep s g F U) {x : ℕ} {d : Block} {F' U' : Set ℕ} (hx : x ≠ mkfsSb.bmapstart)
    (hx' : mkfsSb.inodestart ≤ x) (hlt : x < s.freeblock) (hV : g'.V = update g.V x d) (hX : g'.X = g.X) (hD : g'.D = ∅)
    (hv : Vol mkfsSb g' F' U' 0 [] (Store.fresh g'.V)) :
    Rep { s with sect := update s.sect x d, nsect := max s.nsect (x + 1) } g' F' U' where
  vol := hv
  disk := by
    rw [hV, h.disk]
    exact (update_comm hx ..).symm
  exact := hD
  nsect := by
    have := h.room
    have := h.nsect
    simp only
    omega
  layout := h.layout
  room := h.room
  zero c hc := by
    have hc : s.freeblock ≤ c := hc
    change update s.sect x d c = _
    rw [update_of_ne (by omega), h.zero c hc]
  unused := by
    rw [hX]
    exact h.unused
  super := by
    have : 1 < mkfsSb.inodestart := by decide
    change update s.sect x d 1 = _
    rw [update_of_ne (by omega), h.super]

theorem write_data (h : Rep s g F U) {x : ℕ} {d : Block} {F' U' : Set ℕ} (hx : nmeta ≤ x)
    (hlt : x < s.freeblock) (hV : g'.V = update g.V x d) (hX : g'.X = g.X) (hD : g'.D = ∅)
    (hv : Vol mkfsSb g' F' U' 0 [] (Store.fresh g'.V)) :
    Rep { s with sect := update s.sect x d, nsect := max s.nsect (x + 1) } g' F' U' :=
  h.write (bmapstart_lt_nmeta.trans_le hx).ne' (le_trans (by decide) hx) hlt hV hX hD hv

/-- The new block is stored in an empty entry of the indirect block. -/
theorem entry (h : Rep s g {b} U) (hi : mkfsSb.Alive g.X i) (ha : (g.X i).indirect ≠ 0)
    {j : Fin NINDIRECT} (hj : rdle (g.V (g.X i).indirect) (4 * j) 4 = 0) :
    Rep { s with
        sect := update s.sect (g.X i).indirect
          (wrle (g.V (g.X i).indirect) (4 * j) b 4)
        nsect := max s.nsect ((g.X i).indirect + 1) } (g.setEntry (g.X i).indirect j b) ∅ U ∧
      Maps mkfsSb g i (g.setEntry (g.X i).indirect j b) := by
  have hD : (g.setEntry (g.X i).indirect j b).D = ∅ := by
    simp only [setEntry, h.exact, empty_sdiff]
  obtain ⟨v, m⟩ := h.vol.attach_entry mkfsSb_ok hi ha hj (mem_singleton b)
    (by rw [h.exact]; exact notMem_empty b) (shows_fresh hD)
  rw [sdiff_self] at v
  obtain ⟨h₁, h₂⟩ := h.indirect_lt hi ha
  exact ⟨h.write_data h₁ h₂ rfl rfl hD v, m⟩

/-- Bytes are stored in a data block of an inode. -/
theorem store (h : Rep s g ∅ U) (hi : mkfsSb.Alive g.X i) (hbn : bn < MAXFILE)
    (h0 : blockAt g.V (g.X i) bn ≠ 0) (d : Block) :
    Rep { s with
        sect := update s.sect (blockAt g.V (g.X i) bn) d
        nsect := max s.nsect (blockAt g.V (g.X i) bn + 1) }
      (g.store (blockAt g.V (g.X i) bn) d) ∅ U := by
  have hD : (g.store (blockAt g.V (g.X i) bn) d).D = ∅ := by
    simp only [Img.store, h.exact, empty_sdiff]
  obtain ⟨h₁, h₂⟩ := h.block_lt hi hbn h0
  exact h.write_data h₁ h₂ rfl rfl hD
    (h.vol.store mkfsSb_ok hi hbn h0 (shows_fresh hD))

end Rep

/-! ## `iappend` -/

section Append

variable {E : Stop → Prop}

theorem wp_rsect {Q : Block → Mkfs → Prop} {sec : ℕ} (hn : s.nsect = FSSIZE) (h : sec < FSSIZE)
    (hQ : Q (s.sect sec) s) : wp (rsect sec) Q (fun e _ => E e) s := by
  unfold rsect
  simp only [wp_bind, wp_get, wp_ite]
  rw [seek_of_lt (by omega), if_pos (by omega)]
  exact hQ

theorem wp_rsect_end {Q : Block → Mkfs → Prop} (hn : s.nsect = FSSIZE) (hE : E .die) :
    wp (rsect FSSIZE) Q (fun e _ => E e) s := by
  unfold rsect
  simp only [wp_bind, wp_get, wp_ite]
  rw [seek_of_lt (by omega), if_neg (by omega)]
  exact hE

theorem wp_wsect {Q : Unit → Mkfs → Prop} {sec : ℕ} {buf : Block} (h : sec < FSSIZE)
    (hQ : Q () { s with sect := update s.sect sec buf, nsect := max s.nsect (sec + 1) }) :
    wp (wsect sec buf) Q (fun e _ => E e) s := by
  unfold wsect
  rw [wp_modify, seek_of_lt (by omega)]
  exact hQ

/-- Places other than those of `S` refer to the same block as before. -/
def SameRefs (g : Img) (S : Set Place) (g' : Img) : Prop :=
  ∀ p ∉ S, refAt mkfsSb g'.V g'.X p = refAt mkfsSb g.V g.X p

theorem SameRefs.trans {g'' : Img} {S S' : Set Place} (h : SameRefs g S g') (h' : SameRefs g' S' g'') :
    SameRefs g (S ∪ S') g'' := fun p hp => by
  rw [mem_union, not_or] at hp
  rw [h' p hp.2, h p hp.1]

theorem Rep.sameRefs_bump (h : Rep s g ∅ U) (hlt : s.freeblock < FSSIZE) :
    SameRefs g ∅ (g.alloc mkfsSb s.freeblock) := fun p _ => by
  have hdata : s.freeblock ∈ mkfsSb.data := ⟨by rw [datastart_mkfsSb]; exact h.layout, hlt⟩
  refine congrFun (refAt_congr fun j hj h0 => ?_) p
  refine alloc_V hlt (.inr (h.vol.own.indirect_mem hj h0).1) ?_
  rw [← refAt_indirect (V := g.V) hj]
  exact h.vol.own.ledger.ref_ne_of_not_used hdata (by rw [h.used_iff hlt]; omega) _

theorem wp_bump {Q : ℕ → Mkfs → Prop} (hQ : Q s.freeblock { s with freeblock := s.freeblock + 1 }) :
    wp bump Q (fun e _ => E e) s := hQ

theorem wp_fillSlot {Q : Dinode → Mkfs → Prop} (h : Rep s g ∅ U) (hi : mkfsSb.Alive g.X i)
    (k : Fin (NDIRECT + 1))
    (hend : ∀ din s', s.freeblock = FSSIZE → s'.nsect = FSSIZE → din.addrs k = FSSIZE → Q din s')
    (hQ : ∀ g' s', Rep s' g' ∅ (insert i U) → Maps mkfsSb g i g' → SameRefs g {.slot i k} g' →
      (g'.X i).addrs k ≠ 0 → s'.freeinode = s.freeinode → s'.freeblock ≤ s.freeblock + 1 → Q (g'.X i) s') :
    wp (fillSlot (g.X i) k) Q (fun e _ => E e) s := by
  unfold fillSlot
  rw [wp_ite]
  split
  · rename_i hk
    rw [wp_bind]
    refine wp_bump ?_
    rw [wp_pure]
    rcases Nat.lt_or_ge s.freeblock FSSIZE with hlt | hge
    · have hne : s.freeblock ≠ 0 := by
        have := h.layout
        unfold nmeta at this
        omega
      have h₁ := h.bump hlt
      have m₁ := h.vol.maps_alloc (b := s.freeblock) ⟨by rw [datastart_mkfsSb]; exact h.layout, hlt⟩
        (by rw [h.used_iff hlt]; omega) i
      obtain ⟨h₂, m₂⟩ := h₁.slot (i := i) hi hk alloc_V_self
      have hr : refAt mkfsSb (g.alloc mkfsSb s.freeblock).V _ = _ :=
        refAt_setAddr (g := g.alloc mkfsSb s.freeblock) hi hk alloc_V_self
      have hX : ((g.alloc mkfsSb s.freeblock).setX i ((g.X i).setAddr k s.freeblock)).X i =
        (g.X i).setAddr k s.freeblock := update_self ..
      have := hQ _ _ h₂ (m₁.trans m₂) ?_ ?_ rfl le_rfl
      · rwa [show ((g.alloc mkfsSb s.freeblock).X i) = g.X i from rfl, hX] at this
      · have hs : SameRefs (g.alloc mkfsSb s.freeblock) {.slot i k}
            ((g.alloc mkfsSb s.freeblock).setX i ((g.X i).setAddr k s.freeblock)) := fun p hp =>
          (congrFun hr p).trans (update_of_ne hp ..)
        have := (h.sameRefs_bump hlt).trans hs
        rwa [empty_union] at this
      · rw [show ((g.alloc mkfsSb s.freeblock).X i) = g.X i from rfl, hX, setAddr_addrs, if_pos rfl]
        exact hne
    · have he : s.freeblock = FSSIZE := le_antisymm h.room hge
      refine hend _ _ he h.nsect ?_
      rw [setAddr_addrs, if_pos rfl, he]
  · rename_i hk
    have h' : Rep s g ∅ (insert i U) := { h with vol := h.vol.mono (subset_insert ..) }
    exact hQ g s h' (.refl ..) (fun _ _ => rfl) hk rfl (le_succ _)

/-- The block maps changed at the block `bn` of the inode `i` only. -/
def Only (g : Img) (i bn : ℕ) (g' : Img) : Prop :=
  ∀ j, mkfsSb.Alive g.X j → ∀ bn' < MAXFILE, (j = i → bn' ≠ bn) →
    blockAt g'.V (g'.X j) bn' = blockAt g.V (g.X j) bn'

theorem SameRefs.only {S : Set Place} (h : SameRefs g S g') (hm : Maps mkfsSb g i g') (hbn : bn < MAXFILE)
    (hS : ∀ j, ∀ bn' < MAXFILE, dataPlace j bn' ∈ S → dataPlace j bn' = dataPlace i bn) :
    Only g i bn g' := fun j hj bn' hbn' hne => by
  rw [← refAt_dataPlace hj hbn', ← refAt_dataPlace (hm.alive_iff.2 hj) hbn']
  refine h _ fun hp => ?_
  obtain ⟨rfl, rfl⟩ := dataPlace_inj hbn' hbn (hS j bn' hbn' hp)
  exact hne rfl rfl

theorem dataPlace_direct (h : bn < NDIRECT) : dataPlace i bn = .slot i ⟨bn, lt_succ_of_lt h⟩ :=
  dif_pos h

theorem dataPlace_indirect (h : ¬ bn < NDIRECT) (hlt : bn - NDIRECT < NINDIRECT) :
    dataPlace i bn = .entry i ⟨bn - NDIRECT, hlt⟩ := by
  rw [dataPlace, dif_neg h]
  simp only [Place.entry.injEq, Fin.mk.injEq, true_and]
  exact mod_eq_of_lt hlt

theorem Rep.bump_entry (h : Rep s g ∅ U) (hi : mkfsSb.Alive g.X i) (ha : (g.X i).indirect ≠ 0)
    {j : Fin NINDIRECT} (hj : rdle (g.V (g.X i).indirect) (4 * j) 4 = 0)
    (hlt : s.freeblock < FSSIZE) :
    ∃ g', Rep { s with
        sect := update s.sect (g.X i).indirect
          (wrle (g.V (g.X i).indirect) (4 * j) s.freeblock 4)
        nsect := max s.nsect ((g.X i).indirect + 1)
        freeblock := s.freeblock + 1 } g' ∅ U ∧
      Maps mkfsSb g i g' ∧ SameRefs g {.entry i j} g' ∧ g'.X = g.X ∧
      refAt mkfsSb g'.V g'.X (.entry i j) = s.freeblock := by
  have hdata : s.freeblock ∈ mkfsSb.data := ⟨by rw [datastart_mkfsSb]; exact h.layout, hlt⟩
  have hu : ¬ mkfsSb.Used g.V s.freeblock := by
    rw [h.used_iff hlt]
    omega
  have hne : (g.X i).indirect ≠ s.freeblock := (h.indirect_lt hi ha).2.ne
  have hVa : (g.alloc mkfsSb s.freeblock).V (g.X i).indirect = g.V (g.X i).indirect :=
    alloc_V hlt (.inr (h.vol.own.indirect_mem hi ha).1) hne
  have h₁ := h.bump hlt
  have hr := h₁.vol.refAt_setEntry (i := i) (j := j) (b := s.freeblock) hi ha (by
    unfold FSSIZE at hlt
    omega)
  obtain ⟨h₂, m₂⟩ := h₁.entry (i := i) hi ha (j := j) (by rw [← hj]; exact congrArg (rdle · _ _) hVa)
  rw [show ((g.alloc mkfsSb s.freeblock).X i).indirect = (g.X i).indirect from rfl, hVa] at h₂
  refine ⟨_, h₂, (h.vol.maps_alloc hdata hu i).trans m₂, ?_, rfl, ?_⟩
  · have hs : SameRefs (g.alloc mkfsSb s.freeblock) {.entry i j}
        ((g.alloc mkfsSb s.freeblock).setEntry (g.X i).indirect j s.freeblock) := fun p hp =>
      (congrFun hr p).trans (update_of_ne hp ..)
    have := (h.sameRefs_bump hlt).trans hs
    rwa [empty_union] at this
  · exact (congrFun hr _).trans (update_self ..)

theorem wp_appendBlock {Q : Dinode × ℕ → Mkfs → Prop} (h : Rep s g ∅ U) (hi : mkfsSb.Alive g.X i)
    (hbn : bn < MAXFILE) (hE : FSSIZE < s.freeblock + 2 → E .die)
    (hend : ∀ din s', FSSIZE < s.freeblock + 2 → s'.nsect = FSSIZE → Q (din, FSSIZE) s')
    (hQ : ∀ g' s', Rep s' g' ∅ (insert i U) → Maps mkfsSb g i g' → Only g i bn g' →
      blockAt g'.V (g'.X i) bn ≠ 0 → s'.freeinode = s.freeinode → s'.freeblock ≤ s.freeblock + 2 →
      Q (g'.X i, blockAt g'.V (g'.X i) bn) s') :
    wp (appendBlock (g.X i) bn) Q (fun e _ => E e) s := by
  unfold appendBlock
  split
  · rename_i hd
    have hblk : ∀ V x, blockAt V x bn = x.addrs ⟨bn, lt_succ_of_lt hd⟩ := fun V x => dif_pos hd
    rw [wp_bind]
    refine wp_fillSlot h hi _ (fun din s' hf hn hx => ?_) fun g' s' h' m hs h0 hino hfb => ?_
    · rw [wp_pure, hx]
      exact hend din s' (by omega) hn
    · have := hQ g' s' h' m (hs.only m hbn fun j bn' _ hp => ?_) (by rw [hblk]; exact h0) hino (by omega)
      · rwa [hblk] at this
      · rw [mem_singleton_iff] at hp
        rw [hp, dataPlace_direct hd]
  · rename_i hd
    have hlt : bn - NDIRECT < NINDIRECT := by
      unfold MAXFILE at hbn
      unfold NDIRECT NINDIRECT at *
      omega
    rw [wp_bind]
    refine wp_fillSlot h hi _ (fun din s' hf hn hx => ?_) fun g₁ s₁ h₁ m₁ hs₁ h0 hino₁ hfb₁ => ?_
    · -- the indirect block would lie behind the end
      rw [wp_bind, show din.indirect = FSSIZE from hx]
      exact wp_rsect_end hn (hE (by omega))
    have hi₁ := m₁.alive_iff.2 hi
    obtain ⟨hm, hf⟩ := h₁.indirect_lt hi₁ h0
    have hroom := h₁.room
    have hbm := bmapstart_lt_nmeta
    have hVa : s₁.sect (g₁.X i).indirect = g₁.V (g₁.X i).indirect := by
      rw [h₁.disk, disk_of_ne (by omega)]
    have hblk : blockAt g₁.V (g₁.X i) bn = rdle (g₁.V (g₁.X i).indirect) (4 * (bn - NDIRECT)) 4 := by
      rw [blockAt, dif_neg hd, if_neg h0]
    have hslot : ∀ j, ∀ bn' < MAXFILE, dataPlace j bn' ≠ .slot i (Fin.last NDIRECT) := by
      intro j bn' _ hp
      have hji : j = i := by
        have := congrArg Place.inum hp
        rwa [dataPlace_inum] at this
      exact dataPlace_ne_indirect (hji ▸ hp)
    rw [wp_bind]
    refine wp_rsect h₁.nsect (by omega) ?_
    rw [hVa, wp_ite]
    split
    · rename_i hz
      rw [wp_bind]
      refine wp_bump ?_
      rw [wp_bind]
      refine wp_wsect (by omega) ?_
      rw [wp_pure]
      rcases Nat.lt_or_ge s₁.freeblock FSSIZE with hl | hge
      · obtain ⟨g₂, h₂, m₂, hs₂, hX₂, hb₂⟩ := h₁.bump_entry hi₁ h0 (j := ⟨bn - NDIRECT, hlt⟩) hz hl
        have m := m₁.trans m₂
        have hb₂ : blockAt g₂.V (g₂.X i) bn = s₁.freeblock := by
          rw [← refAt_dataPlace (m.alive_iff.2 hi) hbn, dataPlace_indirect hd hlt, hb₂]
        have hne : s₁.freeblock ≠ 0 := by omega
        have := hQ g₂ _ h₂ m ((hs₁.trans hs₂).only m hbn ?_) (by rw [hb₂]; exact hne) hino₁
          (succ_le_succ hfb₁)
        · rwa [hb₂, hX₂] at this
        · rintro j bn' hbn' (hp | hp)
          · exact absurd hp (hslot j bn' hbn')
          · rw [mem_singleton_iff.1 hp, dataPlace_indirect hd hlt]
      · have he : s₁.freeblock = FSSIZE := le_antisymm h₁.room hge
        rw [he]
        refine hend _ _ (by omega) ?_
        have := h₁.nsect
        simp only
        omega
    · rename_i hz
      have := hQ g₁ s₁ h₁ m₁ (hs₁.only m₁ hbn fun j bn' hbn' hp => absurd hp (hslot j bn' hbn'))
        (by rw [hblk]; exact hz) hino₁ (by omega)
      rwa [hblk] at this

/-- No block of the inode `i` begins at the offset `off` or later. -/
def Tight (g : Img) (i off : ℕ) : Prop := ∀ bn < MAXFILE, off ≤ bn * BSIZE → blockAt g.V (g.X i) bn = 0

/-- The number of blocks that `n` bytes from the offset `off` touch. -/
def touched (off n : ℕ) : ℕ := if n = 0 then 0 else (off % BSIZE + n + BSIZE - 1) / BSIZE

/-- The first piece that `iappend` writes. -/
def piece (off n : ℕ) : ℕ := min n ((off / BSIZE + 1) * BSIZE - off)

theorem piece_spec (off : ℕ) {n : ℕ} (hn : n ≠ 0) :
    0 < piece off n ∧ piece off n ≤ n ∧ off % BSIZE + piece off n ≤ BSIZE := by
  unfold piece BSIZE
  omega

theorem touched_piece (off : ℕ) {n : ℕ} (hn : n ≠ 0) :
    touched off n = 1 + touched (off + piece off n) (n - piece off n) := by
  unfold touched piece
  rw [if_neg hn]
  unfold BSIZE
  split <;> omega

/-- The loop of `iappend` writes the bytes behind the last block, if it does not run out of blocks. -/
theorem wp_iappendLoop {Q : Dinode × ℕ → Mkfs → Prop} {p : List UInt8} {fuel : ℕ} (h : Rep s g ∅ U)
    (hi : mkfsSb.Alive g.X i) (ht : Tight g i off) (hoff : off ≤ MAXFILE * BSIZE) (hfuel : p.length ≤ fuel)
    (hE : ∀ e, FSSIZE < s.freeblock + 2 * touched off p.length ∨ MAXFILE * BSIZE < off + p.length → E e)
    (hQ : ∀ g' s', Rep s' g' ∅ (insert i U) → Wrote mkfsSb g i off p g' →
      (∀ j ≠ i, mkfsSb.Alive g.X j → ∀ bn < MAXFILE, blockAt g'.V (g'.X j) bn = blockAt g.V (g.X j) bn) →
      Tight g' i (off + p.length) → s'.freeinode = s.freeinode →
      s'.freeblock ≤ s.freeblock + 2 * touched off p.length → off + p.length ≤ MAXFILE * BSIZE →
      Q (g'.X i, off + p.length) s') :
    wp (iappendLoop fuel (g.X i) off p) Q (fun e _ => E e) s := by
  have hB : BSIZE = 1024 := rfl
  induction fuel generalizing p off s g U Q with
  | zero =>
    obtain rfl : p = [] := length_eq_zero_iff.1 (by omega)
    exact hQ g s { h with vol := h.vol.mono (subset_insert ..) } ((Maps.refl mkfsSb g i).wrote off)
      (fun _ _ _ _ _ => rfl) ht rfl (Nat.le_add_right ..) hoff
  | succ fuel ih =>
    rw [iappendLoop, wp_ite]
    split
    · rename_i hp
      subst hp
      exact hQ g s { h with vol := h.vol.mono (subset_insert ..) } ((Maps.refl mkfsSb g i).wrote off)
        (fun _ _ _ _ _ => rfl) ht rfl (Nat.le_add_right ..) hoff
    rename_i hp
    have hlen : p.length ≠ 0 := fun e => hp (length_eq_zero_iff.1 e)
    have htouch := touched_piece off hlen
    rw [wp_ite]
    split
    swap
    · rename_i hfbn
      refine hE _ (.inr ?_)
      rw [Nat.div_lt_iff_lt_mul (by omega)] at hfbn
      omega
    rename_i hbn
    rw [wp_bind]
    refine wp_appendBlock h hi hbn (fun hfull => hE _ (.inl (by omega))) (fun din s' hfull hn => ?_)
      fun g₁ s₁ h₁ m₁ only₁ h0 hino₁ hfb₁ => ?_
    · rw [wp_bind]
      exact wp_rsect_end hn (hE _ (.inl (by omega)))
    have hi₁ := m₁.alive_iff.2 hi
    obtain ⟨hm, hf⟩ := h₁.block_lt hi₁ hbn h0
    have hroom := h₁.room
    have hbm := bmapstart_lt_nmeta
    set x := blockAt g₁.V (g₁.X i) (off / BSIZE) with hx
    have hVx : s₁.sect x = g₁.V x := by rw [h₁.disk, disk_of_ne (by omega)]
    have hsub : off - off / BSIZE * BSIZE = off % BSIZE := by
      rw [Nat.mul_comm, Nat.sub_eq_of_eq_add (mod_add_div off BSIZE).symm]
    obtain ⟨hpos, hle, hfit⟩ := piece_spec off hlen
    change wp (rsect x >>= fun buf => wsect x (put buf (off - off / BSIZE * BSIZE)
      (p.take (piece off p.length))) >>= fun _ => iappendLoop fuel (g₁.X i) (off + piece off p.length)
        (p.drop (piece off p.length))) Q _ s₁
    set n1 := piece off p.length with hn1
    have htake : (p.take n1).length = n1 := by
      rw [length_take]
      omega
    rw [wp_bind]
    refine wp_rsect h₁.nsect (by omega) ?_
    rw [wp_bind]
    refine wp_wsect (by omega) ?_
    rw [hVx, hsub]
    set d := put (g₁.V x) (off % BSIZE) (p.take n1) with hd
    have h₂ := h₁.store hi₁ hbn h0 d
    have w₂ : Wrote mkfsSb g₁ i off (p.take n1) _ :=
      h₁.vol.wrote_store (d := g₁.V x) hi₁ hbn h0 (by omega) fun _ => rfl
    have w := (m₁.wrote off).trans w₂ hi
    have hblk := fun j (hj : mkfsSb.Alive g.X j) bn => h₁.vol.blockAt_store hi₁ hbn h0 d (m₁.alive_iff.2 hj) bn
    rw [← hx] at h₂ w hblk
    set g₂ := g₁.store x d with hg₂
    rw [nil_append] at w
    have hdrop : (p.drop n1).length = p.length - n1 := length_drop ..
    have hdiv : off / BSIZE * BSIZE ≤ off := div_mul_le_self ..
    have ht₂ : Tight g₂ i (off + n1) := fun bn' hbn' hle => by
      rw [show g₂.X i = g₁.X i from rfl, hblk i hi,
        only₁ i hi bn' hbn' fun _ e => absurd hle (by rw [e]; omega), ht bn' hbn' (by omega)]
    change wp (iappendLoop fuel (g₂.X i) (off + n1) (p.drop n1)) Q _ _
    have hmax : off + n1 ≤ MAXFILE * BSIZE := by
      unfold BSIZE at *
      omega
    refine ih h₂ hi₁ ht₂ hmax (by omega) (fun e he => hE e ?_)
      fun g' s' h' w' hother ht' hino hfb hend => ?_
    · rw [hdrop] at he
      change FSSIZE < s₁.freeblock + _ ∨ _ at he
      omega
    · rw [hdrop] at ht' hfb hend ⊢
      have hend' : off + n1 + (p.length - n1) = off + p.length := by omega
      rw [hend'] at ht' hend ⊢
      rw [insert_idem] at h'
      refine hQ g' s' h' ?_ (fun j hj ha bn hbn' => ?_) ht' (hino.trans hino₁) ?_ hend
      · have w'' : Wrote mkfsSb g₂ i (off + (p.take n1).length) (p.drop n1) g' := by
          rw [htake]
          exact w'
        have := w.trans w'' hi
        rwa [take_append_drop] at this
      · rw [hother j hj (m₁.alive_iff.2 ha) bn hbn', show g₂.X j = g₁.X j from rfl, hblk j ha,
          only₁ j ha bn hbn' fun e => absurd e hj]
      · change s'.freeblock ≤ s₁.freeblock + _ at hfb
        omega

theorem Rep.iblock_lt (h : Rep s g F U) (hi : i < NINODES) :
    mkfsSb.iblock i < mkfsSb.bmapstart ∧ mkfsSb.iblock i < s.freeblock := by
  have h₁ := mkfsSb_ok.iblock_lt (i := i) hi
  have h₂ := h.layout
  have h₃ := bmapstart_lt_nmeta
  omega

theorem wp_winode {Q : Unit → Mkfs → Prop} (h : Rep s g F U) (hi : i < NINODES)
    (hQ : ∀ s', Rep s' (g.flush mkfsSb i) F (U \ {i}) → s'.freeinode = s.freeinode →
      s'.freeblock = s.freeblock → Q () s') : wp (winode i (g.X i)) Q (fun e _ => E e) s := by
  obtain ⟨h₁, h₂⟩ := h.iblock_lt hi
  have hroom := h.room
  have hV : s.sect (mkfsSb.iblock i) = g.V (mkfsSb.iblock i) := by rw [h.disk, disk_of_ne h₁.ne]
  unfold winode
  rw [wp_bind]
  refine wp_rsect h.nsect (by omega) (wp_wsect (by omega) ?_)
  rw [hV]
  exact hQ _ (h.write h₁.ne mkfsSb.inodestart_le_iblock h₂ rfl rfl h.exact (h.vol.flush mkfsSb_ok hi (shows_fresh (g := g.flush mkfsSb i)
    h.exact))) rfl rfl

theorem wp_rinode {Q : Dinode → Mkfs → Prop} (h : Rep s g F U) (hi : i < NINODES) (hU : i ∉ U)
    (hQ : Q (g.X i) s) : wp (rinode i) Q (fun e _ => E e) s := by
  obtain ⟨h₁, h₂⟩ := h.iblock_lt hi
  have hroom := h.room
  unfold rinode
  rw [wp_bind]
  refine wp_rsect h.nsect (by omega) ?_
  rw [wp_pure, ← disk_of_ne (s := s) h₁.ne, ← h.disk, h.vol.sync i hi hU]
  exact hQ

/-- The inodes that were allocated have no blocks behind their end. -/
def AllTight (g : Img) : Prop := ∀ i, mkfsSb.Alive g.X i → Tight g i (g.X i).size

theorem wp_iappend {Q : Unit → Mkfs → Prop} {p : List UInt8} (h : Rep s g ∅ ∅) (ht : AllTight g)
    (hi : mkfsSb.Alive g.X i)
    (hE : ∀ e, FSSIZE < s.freeblock + 2 * touched (g.X i).size p.length ∨
      MAXFILE * BSIZE < (g.X i).size + p.length → E e)
    (hQ : ∀ g' s', Rep s' g' ∅ ∅ → AllTight g' → Overwrote mkfsSb g i (g.X i).size p g' →
      s'.freeinode = s.freeinode → s'.freeblock ≤ s.freeblock + 2 * touched (g.X i).size p.length →
      Q () s') :
    wp (iappend i p) Q (fun e _ => E e) s := by
  have hsize := h.vol.own.size_le i hi
  unfold iappend
  rw [wp_bind]
  refine wp_rinode h hi.2.1 (notMem_empty i) ?_
  rw [wp_bind]
  refine wp_iappendLoop h hi (ht i hi) hsize le_rfl hE fun g' s' h' w hother ht' hino hfb hend => ?_
  have hmax : max (g.X i).size ((g.X i).size + p.length) = (g.X i).size + p.length :=
    max_eq_right (Nat.le_add_right ..)
  have v := w.vol_resize h.vol h'.vol.blur_empty hi le_rfl hend
  have o := w.overwrote h.vol h'.vol.blur_empty mkfsSb_ok hi le_rfl hend
  rw [hmax] at v o
  set x := (g'.X i).resize ((g.X i).size + p.length) with hx
  have hXi : (g'.setX i x).X i = x := update_self ..
  have hX : ∀ j ≠ i, (g'.setX i x).X j = g'.X j := fun j hj => update_of_ne hj ..
  have h₂ : Rep s' (g'.setX i x) ∅ (insert i (insert i ∅)) := by
    refine ⟨?_, h'.disk, h'.exact, h'.nsect, h'.layout, h'.room, h'.zero, fun j hj hlt => ?_, h'.super⟩
    · rwa [Img.blur, union_empty] at v
    · by_cases e : j = i
      · rw [e, hXi]
        exact h'.unused i (e ▸ hj) hi.2.1
      · rw [hX j e]
        exact h'.unused j hj hlt
  change wp (winode i x) Q _ s'
  rw [← hXi]
  refine wp_winode h₂ hi.2.1 fun s₃ h₃ hino₃ hfb₃ => ?_
  have hU : (insert i (insert i (∅ : Set ℕ))) \ {i} = ∅ := by simp
  rw [hU] at h₃
  refine hQ _ s₃ h₃ (fun j hj bn hbn hle => ?_) o (hino₃.trans hino) (hfb₃.le.trans hfb)
  rw [show ((g'.setX i x).flush mkfsSb i).X j = (g'.setX i x).X j from rfl] at hle ⊢
  rw [h₂.vol.blockAt_flush mkfsSb_ok hi.2.1 hj]
  by_cases e : j = i
  · subst e
    rw [hXi] at hle ⊢
    exact ht' bn hbn hle
  · have hj : mkfsSb.Alive g.X j := by
      have := hj
      unfold Superblock.Alive at this ⊢
      rwa [show ((g'.setX i x).flush mkfsSb i).X j = (g'.setX i x).X j from rfl, hX j e, w.other j e] at this
    rw [hX j e] at hle ⊢
    rw [w.other j e] at hle
    exact (hother j e hj bn hbn).trans (ht j hj bn hbn hle)

end Append

end Mkfs

end Xv6
