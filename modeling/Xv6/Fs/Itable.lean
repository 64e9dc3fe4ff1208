import Xv6.Fs.Alloc

/-!
# Inodes on the disk and in memory

An inode read back from its block is the one that was stored, and storing one leaves the others of the
block alone. `Tab sb X T` is the invariant of the inode table: entries in use have distinct inode
numbers, and a valid copy is the current inode.
-/

namespace Xv6

open RedoLog Function Bytes Dinode Nat Set

/-! ## The format of an inode -/

section Format

variable {x : Dinode} {d : Block} {i j o k n w : ℕ}

theorem Dinode.rd8_putAddrs (hn : n ≤ NDIRECT + 1) (h : k < o ∨ o + 4 * n ≤ k) :
    rd8 (x.putAddrs d o n) k = rd8 d k := by
  induction n with
  | zero => rfl
  | succ n ih =>
    rw [putAddrs, dif_pos (by omega), rd8_wrle_of_disjoint _ _ (by omega),
      ih (by omega) (by omega)]

theorem Dinode.rdle_putAddrs_of_disjoint (hn : n ≤ NDIRECT + 1) (h : k + w ≤ o) :
    rdle (x.putAddrs d o n) k w = rdle d k w :=
  rdle_congr fun _ _ _ => rd8_putAddrs hn (by omega)

theorem Dinode.rdle_putAddrs (hx : ∀ k, x.addrs k < 2 ^ 32) (hn : n ≤ NDIRECT + 1)
    (ho : o + 4 * n ≤ BSIZE) (hk : k < n) :
    rdle (x.putAddrs d o n) (o + 4 * k) 4 = x.addrs ⟨k, by omega⟩ := by
  induction n with
  | zero => omega
  | succ n ih =>
    rw [putAddrs, dif_pos (by omega)]
    by_cases e : k = n
    · subst e
      rw [rdle_wrle_self _ _ (by omega)]
      exact mod_eq_of_lt (hx _)
    · rw [rdle_wrle_of_disjoint _ _ (by omega), ih (by omega) (by omega) (by omega)]

theorem Dinode.rd8_write (h : k < 64 * (i % IPB) ∨ 64 * (i % IPB) + 64 ≤ k) :
    rd8 (x.write d i) k = rd8 d k := by
  unfold write
  rw [rd8_putAddrs le_rfl (by unfold NDIRECT; omega)]
  iterate 5 rw [rd8_wrle_of_disjoint _ _ (by omega)]

theorem Dinode.read_write_self (hx : x.Fits) : read (x.write d i) i = x := by
  have hi : i % IPB < 16 := mod_lt _ (by decide)
  have hb : BSIZE = 1024 := rfl
  have hd : NDIRECT = 12 := rfl
  have h₂ : ∀ {v : ℕ}, v < 2 ^ 16 → v % 256 ^ 2 = v := fun h => mod_eq_of_lt h
  have h₄ : ∀ {v : ℕ}, v < 2 ^ 32 → v % 256 ^ 4 = v := fun h => mod_eq_of_lt h
  unfold read write
  simp only
  rcases x with ⟨type, major, minor, nlink, size, addrs⟩
  simp only [mk.injEq]
  refine ⟨?_, ?_, ?_, ?_, ?_, funext fun k => ?_⟩
  · rw [rdle_putAddrs_of_disjoint le_rfl (by omega)]
    iterate 4 rw [rdle_wrle_of_disjoint _ _ (by omega)]
    rw [rdle_wrle_self _ _ (by omega), h₂ hx.type]
  · rw [rdle_putAddrs_of_disjoint le_rfl (by omega)]
    iterate 3 rw [rdle_wrle_of_disjoint _ _ (by omega)]
    rw [rdle_wrle_self _ _ (by omega), h₂ hx.major]
  · rw [rdle_putAddrs_of_disjoint le_rfl (by omega)]
    iterate 2 rw [rdle_wrle_of_disjoint _ _ (by omega)]
    rw [rdle_wrle_self _ _ (by omega), h₂ hx.minor]
  · rw [rdle_putAddrs_of_disjoint le_rfl (by omega), rdle_wrle_of_disjoint _ _ (by omega),
      rdle_wrle_self _ _ (by omega), h₂ hx.nlink]
  · rw [rdle_putAddrs_of_disjoint le_rfl (by omega), rdle_wrle_self _ _ (by omega),
      h₄ hx.size]
  · exact rdle_putAddrs hx.addrs le_rfl (by omega) k.isLt

theorem Dinode.read_congr {d' : Block} (h : ∀ k, 64 * (i % IPB) ≤ k → k < 64 * (i % IPB) + 64 →
    rd8 d' k = rd8 d k) : read d' i = read d i := by
  have hd : NDIRECT = 12 := rfl
  unfold read
  simp only [mk.injEq]
  refine ⟨?_, ?_, ?_, ?_, ?_, funext fun k => ?_⟩
  all_goals exact rdle_congr fun m h₁ h₂ => h m (by omega) (by omega)

/-- Storing an inode leaves the other inodes of its block alone. -/
theorem Dinode.read_write_of_ne (h : j % IPB ≠ i % IPB) :
    read (x.write d i) j = read d j :=
  read_congr fun _ _ _ => rd8_write (by omega)

/-- What is read from the disk fits the widths of the fields. -/
theorem Dinode.fits_read : (read d i).Fits where
  type := rdle_lt ..
  major := rdle_lt ..
  minor := rdle_lt ..
  nlink := rdle_lt ..
  size := rdle_lt ..
  addrs _ := rdle_lt ..

end Format

/-! ## Changes of one inode -/

/-- Replace the inode `i`. -/
def Img.setX (g : Img) (i : ℕ) (x : Dinode) : Img := { g with X := update g.X i x }

@[simp] theorem Img.setX_X_self (g : Img) (i : ℕ) (x : Dinode) : (g.setX i x).X i = x := by
  simp [Img.setX]

/-- Store the inode `i` on the disk. -/
def Img.flush (sb : Superblock) (g : Img) (i : ℕ) : Img :=
  { g with V := update g.V (sb.iblock i) ((g.X i).write (g.V (sb.iblock i)) i) }

section

variable {sb : Superblock} {g : Img} {F U : Set ℕ} {t i : ℕ} {L : List ℕ} {st : Store} {s : Fs}
  {P : Panic → Prop} {x : Dinode}

theorem Img.flush_V {c : ℕ} (hsb : sb.Ok) (hi : i < sb.ninodes) (hc : sb.bmapstart ≤ c) :
    (g.flush sb i).V c = g.V c := by
  have := hsb.iblock_lt hi
  simp only [flush]
  rw [update_of_ne (by omega)]

/-- The inode `i` is replaced, and every place refers to the same block as before. -/
theorem Vol.setX (h : Vol sb g F U t L st)
    (hr : refAt sb g.V (update g.X i x) = refAt sb g.V g.X)
    (hfull : sb.Alive (update g.X i x) i → ∀ bn, bn * BSIZE < x.size → blockAt g.V x bn ≠ 0)
    (hsize : sb.Alive (update g.X i x) i → x.size ≤ MAXFILE * BSIZE) (hx : x.Fits)
    (hdir : x.type = T_DIR → (g.X i).type = T_DIR ∨ ∀ p : Place, p.inum = i → refAt sb g.V g.X p = 0) :
    Vol sb (g.setX i x) F (insert i U) t L st where
  shows := h.shows
  own := {
    ledger := by
      simp only [Img.setX, hr]
      exact h.own.ledger
    reserved := h.own.reserved
    full := fun j hj bn hbn => by
      simp only [Img.setX] at hj hbn ⊢
      by_cases e : j = i
      · subst e
        rw [update_self] at hbn ⊢
        exact hfull hj bn hbn
      · simp only [Superblock.Alive, update_of_ne e] at hj hbn ⊢
        exact h.own.full j hj bn hbn
    size_le := fun j hj => by
      simp only [Img.setX] at hj ⊢
      by_cases e : j = i
      · subst e
        rw [update_self]
        exact hsize hj
      · simp only [Superblock.Alive, update_of_ne e] at hj ⊢
        exact h.own.size_le j hj
    fits := fun j hj => by
      simp only [Img.setX]
      by_cases e : j = i
      · rw [e, update_self]
        exact hx
      · rw [update_of_ne e]
        exact h.own.fits j hj }
  dirty b hb := by
    obtain ⟨h₁, h₂⟩ := h.dirty b hb
    refine ⟨h₁, fun p hp => ?_⟩
    simp only [Img.setX, hr]
    rcases hp with hp | hp
    · simp only [Img.setX] at hp
      by_cases e : p.inum = i
      · rw [e, update_self] at hp
        rcases hdir hp with hd | hd
        · exact h₂ p (.inl (e ▸ hd))
        · rw [hd p e]
          exact fun e' => h.own.ledger.pos (e' ▸ h₁)
      · rw [update_of_ne e] at hp
        exact h₂ p (.inl hp)
    · exact h₂ p (.inr hp)
  sync j hj hU := by
    rw [mem_insert_iff, not_or] at hU
    rw [show (g.setX i x).X j = g.X j from update_of_ne hU.1 _ _]
    exact h.sync j hj hU.2

/-- The inodes on the disk after one was stored. -/
theorem Img.read_flush {j : ℕ} (hx : (g.X i).Fits) (hj : j ≠ i → read (g.V (sb.iblock j)) j = g.X j) :
    read ((g.flush sb i).V (sb.iblock j)) j = g.X j := by
  simp only [Img.flush]
  by_cases e : j = i
  · subst e
    rw [update_self]
    exact read_write_self hx
  · rw [← hj e]
    by_cases hb : sb.iblock j = sb.iblock i
    · rw [hb, update_self]
      refine read_write_of_ne fun hm => e ?_
      unfold Superblock.iblock at hb
      unfold IPB at *
      omega
    · rw [update_of_ne hb]

theorem Vol.flush (h : Vol sb g F U t L st) (hsb : sb.Ok) (hi : i < sb.ninodes) {L' : List ℕ}
    {st' : Store} (hs : Shows sb.logstart (g.flush sb i).V g.D t L' st') :
    Vol sb (g.flush sb i) F (U \ {i}) t L' st' := by
  have hV : ∀ c, sb.bmapstart ≤ c → (g.flush sb i).V c = g.V c := fun c hc =>
    Img.flush_V hsb hi hc
  have hI : ∀ j, sb.Alive g.X j → (g.X j).indirect ≠ 0 →
      (g.flush sb i).V (g.X j).indirect = g.V (g.X j).indirect := fun j hj h0 =>
    hV _ (sb.bmapstart_lt.le.trans (h.own.indirect_mem hj h0).1)
  have hused : ∀ b, sb.Used (g.flush sb i).V b ↔ sb.Used g.V b := fun b => by
    unfold Superblock.Used
    rw [hV _ sb.bmapstart_le_bblock]
  refine ⟨hs, h.own.congr hI (h.own.ledger.congr fun b _ => hused b) fun b hb hbs =>
    (hused b).2 (h.own.reserved b hb hbs), fun b hb => ?_, fun j hj hU => ?_⟩
  · rw [show refAt sb (g.flush sb i).V (g.flush sb i).X = refAt sb g.V g.X from refAt_congr hI]
    exact h.dirty b hb
  · exact Img.read_flush (h.own.fits i hi) fun e => h.sync j hj fun hm => hU ⟨hm, e⟩

/-- `iupdate` of an entry whose copy is the current inode. -/
theorem wp_iupdate {Q : Unit → Fs → Prop} {e : Iptr} (hsb : sb.Ok) (hP : Tolerant P)
    (h : Vol sb g F U t L s.store) (hi : (s.inode e).inum = i) (hd : (s.inode e).d = g.X i)
    (hlt : i < sb.ninodes)
    (hQ : ∀ st', Vol sb (g.flush sb i) F (U \ {i}) t L st' → Q () { s with store := st' }) :
    Prog.wp (iupdate sb e) Q (fun e _ => P e) s := by
  unfold iupdate getInode
  simp only [Prog.wp_bind, Prog.wp_get, Prog.wp_pure, wp_disk, hi, hd]
  refine h.shows.wp_bread hsb.home_iblock (h.iblock_not_mem hsb hlt)
    (fun _ => hP _ (by decide) (by decide) (by decide)) fun st₁ h₁ => ?_
  refine h₁.wp_update hsb.home_iblock (fun _ => hP _ (by decide) (by decide) (by decide))
    (fun _ => hP _ (by decide) (by decide) (by decide)) fun st₂ h₂ => hQ st₂ (h.flush hsb hlt (h₂.mono ?_))
  exact sdiff_subset

end

/-! ## The inode table -/

/-- The invariant of the inode table for the inodes `X`. -/
structure Tab (sb : Superblock) (X : ℕ → Dinode) (T : Iptr → Inode) : Prop where
  range : ∀ e, 0 < (T e).ref → 0 < (T e).inum ∧ (T e).inum < sb.ninodes
  uniq : ∀ e e', 0 < (T e).ref → 0 < (T e').ref → (T e).inum = (T e').inum → e = e'
  copy : ∀ e, 0 < (T e).ref → (T e).valid = true →
    (T e).d = X (T e).inum ∧ (X (T e).inum).type ≠ 0

end Xv6
