import Xv6.Mkfs.Consistent

/-!
# Mounting a new file system

The image that `mkfs` leaves is a volume for a kernel that boots from it, if the entries of the root
directory do not end at the end of a block. `mounted` is the state of such a kernel with the root directory
in the inode table, as `userinit` leaves it, and read.
-/

namespace Xv6

open RedoLog Dinode Store

namespace Mkfs

variable {s s₁ : Mkfs} {g : Img} {as : List Input}

/-- The volume at the end. -/
theorem Built.vol_final (h : Built as s g) (hmod : (as.length + 2) % 64 ≠ 0) :
    Vol mkfsSb (final g) ∅ ∅ 0 [] (fresh (final g).V) := by
  have hroot : mkfsSb.Alive g.X ROOTINO := h.alive_iff.2 ⟨by decide, by unfold ROOTINO; omega⟩
  have hv := h.rep.vol
  have hsize := h.root_size
  have hmax : MAXFILE * BSIZE = 274432 := rfl
  have hle := hv.own.size_le ROOTINO hroot
  have hf := hv.own.fits ROOTINO hroot.2.1
  have hround : (rounded g).size ≤ MAXFILE * BSIZE := by
    simp only [rounded, resize]
    rw [hsize] at hle ⊢
    unfold BSIZE DESIZE at *
    omega
  have h₁ : Vol mkfsSb (g.setX ROOTINO (rounded g)) ∅ (insert ROOTINO ∅) 0 [] (fresh g.V) := by
    refine hv.setX (refAt_update rfl rfl) (fun _ bn hbn => ?_) (fun _ => hround) ?_ fun e => Or.inl e
    · change blockAt g.V (g.X ROOTINO) bn ≠ 0
      refine hv.own.full ROOTINO hroot bn ?_
      simp only [rounded, resize] at hbn
      rw [hsize] at hbn ⊢
      unfold BSIZE DESIZE at *
      omega
    · exact ⟨hf.type, hf.major, hf.minor, hf.nlink, by omega, hf.addrs⟩
  have h₂ := h₁.flush mkfsSb_ok (i := ROOTINO) (by decide) (shows_fresh (g := final g) h.rep.exact)
  rwa [insert_empty_eq, Set.sdiff_self] at h₂

end Mkfs

/-- A kernel that booted from the disk `V` and has `t` transactions open, with the root directory in the
first entry of its inode table. -/
def mounted (V : Disk) (t : ℕ) : Fs where
  store := { Store.fresh V with outstanding := t }
  inode e := if e.val = 0 then ⟨ROOTINO, 1, true, Dinode.read (V (mkfsSb.iblock ROOTINO)) ROOTINO⟩
    else ⟨0, 0, false, Dinode.fresh 0⟩

theorem view_mounted (V : Disk) (t : ℕ) : (mounted V t).store.view = V := by
  funext c
  have hbuf : (mounted V t).store.buf c = none := buf_boot V mkfsSb.logstart c
  rw [view, hbuf]
  rfl

/-- Only the first entry of the inode table is in use. -/
theorem inode_mounted_of_ne {V : Disk} {t : ℕ} {e : Iptr} (h : e.val ≠ 0) :
    (mounted V t).inode e = ⟨0, 0, false, fresh 0⟩ := if_neg h

theorem eq_zero_of_ref_mounted {V : Disk} {t : ℕ} {e : Iptr} (h : 0 < ((mounted V t).inode e).ref) : e = 0 := by
  by_contra hne
  rw [inode_mounted_of_ne fun hv => hne (Fin.ext hv)] at h
  exact absurd h (Nat.lt_irrefl 0)

/-- The state of a kernel that mounted a volume is consistent. -/
theorem consistent_mounted_of_vol {g : Img} (hv : Vol mkfsSb g ∅ ∅ 0 [] (fresh g.V)) (hD : g.D = ∅)
    (hroot : mkfsSb.Alive g.X ROOTINO) (t : ℕ) : Consistent mkfsSb (mounted g.V t) := by
  have hsync : read (g.V (mkfsSb.iblock ROOTINO)) ROOTINO = g.X ROOTINO :=
    hv.sync ROOTINO hroot.2.1 (Set.notMem_empty _)
  have h0 : (mounted g.V t).inode 0 = ⟨ROOTINO, 1, true, g.X ROOTINO⟩ := by
    rw [← hsync]
    rfl
  have hvt : Vol mkfsSb g ∅ ∅ t [] (mounted g.V t).store := { hv with shows := hv.shows.opened t }
  refine ⟨hvt.current mkfsSb_ok hD, fun e he => ?_, fun e e' he he' _ => ?_, fun e he _ => ?_⟩
  · rw [eq_zero_of_ref_mounted he, h0]
    exact ⟨hroot.1, hroot.2.1⟩
  · rw [eq_zero_of_ref_mounted he, eq_zero_of_ref_mounted he']
  · rw [eq_zero_of_ref_mounted he, h0]
    simp only [img, view_mounted, hsync]
    exact ⟨trivial, hroot.2.2⟩

/-- The state of a kernel that mounted a new file system is consistent. -/
theorem consistent_mounted {as : List Input} {s : Mkfs} {g : Img} (h : Mkfs.Built as s g)
    (hmod : (as.length + 2) % 64 ≠ 0) (t : ℕ) : Consistent mkfsSb (mounted (Mkfs.final g).V t) := by
  have hroot : mkfsSb.Alive g.X ROOTINO := h.alive_iff.2 ⟨by decide, by unfold ROOTINO; omega⟩
  refine consistent_mounted_of_vol (h.vol_final hmod) h.rep.exact ⟨hroot.1, hroot.2.1, ?_⟩ t
  rw [Mkfs.final_X_root]
  exact hroot.2.2

end Xv6
