import Xv6.Mkfs.Files

/-!
# Consistency of new images

`ImageOk s` says that the image is consistent: the inodes exist, each has the blocks it needs, these are
distinct data blocks, and the free map marks them and the blocks of the layout. `mkfs` builds such an image
if and only if it does not hand out more inodes than there are and the entries of the root directory do not
end at the end of a block: the size of the root directory is rounded up to the next multiple of `BSIZE` even
if it is one already, and then its last block is missing.
-/

namespace Xv6

open RedoLog Img Dinode Set Fin Prog

namespace Mkfs

/-- An inode of the image. -/
def inode (s : Mkfs) (i : ℕ) : Dinode := Dinode.read (s.sect (mkfsSb.iblock i)) i

/-- The data block `bn` of the inode `i`, or its indirect block. -/
inductive BlockRef
  | data (i bn : ℕ)
  | indirect (i : ℕ)

/-- The block that is referred to. -/
def BlockRef.addr (s : Mkfs) : BlockRef → ℕ
  | data i bn => blockAt s.sect (s.inode i) bn
  | indirect i => (s.inode i).indirect

/-- The blocks that an inode handed out by `mkfs` needs: those below its size, and its indirect block if
it has one. -/
def BlockRef.Needed (s : Mkfs) : BlockRef → Prop
  | data i bn => (0 < i ∧ i < s.freeinode) ∧ bn * BSIZE < (s.inode i).size
  | indirect i => (0 < i ∧ i < s.freeinode) ∧ (s.inode i).indirect ≠ 0

/-- The image is consistent. -/
structure ImageOk (s : Mkfs) : Prop where
  inums : ∀ i, 0 < i → i < s.freeinode → i < NINODES
  allocated : ∀ r : BlockRef, r.Needed s → r.addr s ≠ 0
  range : ∀ r : BlockRef, r.Needed s → nmeta ≤ r.addr s ∧ r.addr s < FSSIZE
  distinct : ∀ r r' : BlockRef, r.Needed s → r'.Needed s → r.addr s = r'.addr s → r = r'
  bitmap : ∀ b < FSSIZE, getBit (s.sect mkfsSb.bmapstart) b = true ↔
    b < nmeta ∨ ∃ r : BlockRef, r.Needed s ∧ r.addr s = b

variable {s s₁ : Mkfs} {g : Img} {i j b bn : ℕ} {as : List Input}

/-! ## The inodes at the end -/

theorem Built.alive_iff (h : Built as s g) : mkfsSb.Alive g.X i ↔ 0 < i ∧ i < as.length + 2 := by
  have hn : mkfsSb.Alive g.X i ↔ (g.node mkfsSb i).isSome := by
    by_cases ha : mkfsSb.Alive g.X i
    · simp [node_of_alive ha, ha]
    · simp [node_of_not_alive ha, ha]
  rw [hn, h.node, builtNode]
  have hr : ROOTINO = 1 := rfl
  split
  · simp
    omega
  · split
    · simp
      omega
    · simp
      omega

theorem Built.root_size (h : Built as s g) : (g.X ROOTINO).size = DESIZE * (as.length + 2) := by
  have ha : mkfsSb.Alive g.X ROOTINO := h.alive_iff.2 ⟨by decide, by unfold ROOTINO; omega⟩
  have hn := congrFun h.node ROOTINO
  rw [node_of_alive ha, builtNode_root, Option.some.injEq] at hn
  have := congrArg (fun n => n.data.length) hn
  simpa [Dinode.node, length_bytes, length_rootData] using this

theorem final_X (hi : i ≠ ROOTINO) : (final g).X i = g.X i := Function.update_of_ne hi ..

theorem final_X_root : (final g).X ROOTINO = rounded g := by
  unfold final Img.flush
  exact g.setX_X_self ROOTINO (rounded g)

/-- The inodes of the image are those of the volume. -/
theorem Built.inode_eq (h : Built as s₁ g) (hs : s.sect = (final g).V) (hi : i < NINODES) :
    s.inode i = (final g).X i := by
  have hroot : mkfsSb.Alive g.X ROOTINO := h.alive_iff.2 ⟨by decide, by unfold ROOTINO; omega⟩
  have hf := h.rep.vol.own.fits ROOTINO hroot.2.1
  have hsz := h.rep.vol.own.size_le ROOTINO hroot
  have hmax : MAXFILE * BSIZE = 274432 := rfl
  have hx : (rounded g).Fits := by
    refine ⟨hf.type, hf.major, hf.minor, hf.nlink, ?_, hf.addrs⟩
    simp only [rounded, resize]
    unfold BSIZE at *
    omega
  rw [inode, hs]
  refine read_flush (g := g.setX ROOTINO (rounded g)) ?_ fun hne => ?_
  · rw [setX_X_self]
    exact hx
  · rw [show (g.setX ROOTINO (rounded g)).X i = g.X i from Function.update_of_ne hne ..]
    exact h.rep.vol.sync i hi (notMem_empty i)

theorem final_V (hb : mkfsSb.bmapstart ≤ b) : (final g).V b = g.V b :=
  flush_V (g := g.setX ROOTINO (rounded g)) mkfsSb_ok (by decide) hb

theorem Built.addrs_eq (h : Built as s₁ g) (hs : s.sect = (final g).V) (hi : i < NINODES) :
    (s.inode i).addrs = (g.X i).addrs := by
  rw [h.inode_eq hs hi]
  by_cases e : i = ROOTINO
  · rw [e, final_X_root]
    rfl
  · rw [final_X e]

/-- The block maps of the image are those of the volume. -/
theorem Built.blockAt_eq (h : Built as s₁ g) (hs : s.sect = (final g).V) (hi : mkfsSb.Alive g.X i) :
    blockAt s.sect (s.inode i) bn = blockAt g.V (g.X i) bn := by
  have ha := h.addrs_eq hs hi.2.1
  have hsame : ∀ V, blockAt V (s.inode i) bn = blockAt V (g.X i) bn := fun V => by
    unfold blockAt indirect
    rw [ha]
  rw [hsame, hs]
  refine blockAt_congr fun h0 => final_V ?_
  exact bmapstart_lt_nmeta.le.trans (h.rep.indirect_lt hi h0).1

/-- If the entries of the root directory do not end at the end of a block, an inode needs as many blocks
as before its size was rounded. -/
theorem Built.needed_iff (h : Built as s₁ g) (hs : s.sect = (final g).V) (hi : mkfsSb.Alive g.X i)
    (hmod : (as.length + 2) % 64 ≠ 0) :
    bn * BSIZE < (s.inode i).size ↔ bn * BSIZE < (g.X i).size := by
  rw [h.inode_eq hs hi.2.1]
  by_cases e : i = ROOTINO
  · rw [e, final_X_root]
    have := h.root_size
    unfold rounded resize
    simp only
    rw [this]
    unfold BSIZE DESIZE
    omega
  · rw [final_X e]

/-! ## Consistency -/

/-- A place of the volume that refers to a block, as a block that an inode has. -/
theorem Built.ref_of_place (h : Built as s g) {p : Place} (h0 : refAt mkfsSb g.V g.X p ≠ 0) :
    (∃ i bn, mkfsSb.Alive g.X i ∧ bn * BSIZE < (g.X i).size ∧
      refAt mkfsSb g.V g.X p = blockAt g.V (g.X i) bn) ∨
    ∃ i, mkfsSb.Alive g.X i ∧ refAt mkfsSb g.V g.X p = (g.X i).indirect := by
  have hi : mkfsSb.Alive g.X p.inum := by
    by_contra hna
    exact h0 (refAt_of_not_alive hna)
  -- a block behind the end would not be there
  have hdata : ∀ bn < MAXFILE, p = dataPlace p.inum bn → ∃ i bn, mkfsSb.Alive g.X i ∧
      bn * BSIZE < (g.X i).size ∧ refAt mkfsSb g.V g.X p = blockAt g.V (g.X i) bn := by
    intro bn hbn hp
    rw [hp, refAt_dataPlace hi hbn] at h0 ⊢
    refine ⟨p.inum, bn, hi, ?_, rfl⟩
    by_contra hge
    exact h0 (h.tight _ hi bn hbn (by omega))
  cases p with
  | slot i k =>
    by_cases hk : k = last NDIRECT
    · subst hk
      exact .inr ⟨i, hi, refAt_indirect hi⟩
    · have hlt : k.val < NDIRECT := by
        have := k.isLt
        have := val_ne_of_ne hk
        rw [val_last] at this
        omega
      refine .inl (hdata k.val (by unfold NDIRECT at hlt; unfold MAXFILE; omega) ?_)
      exact (dataPlace_direct hlt).symm
  | entry i j =>
    have hj := j.isLt
    refine .inl (hdata (NDIRECT + j.val) (by unfold NDIRECT NINDIRECT at *; unfold MAXFILE; omega) ?_)
    change Place.entry i j = dataPlace i (NDIRECT + j.val)
    rw [dataPlace_indirect (by omega) (by omega)]
    simp

/-- The free map marks the blocks in use. -/
theorem bitmap_final (hs : s.sect = (final g).V) (hb : b < FSSIZE) :
    getBit (s.sect mkfsSb.bmapstart) b = true ↔ mkfsSb.Used g.V b := by
  have hm : b % BPB = b := Nat.mod_eq_of_lt (by unfold BPB; unfold FSSIZE at hb; omega)
  rw [Superblock.Used, bblock_eq hb, hm, hs, final_V le_rfl]

theorem Finished.imageOk (h : Finished as s) (hlen : as.length + 2 ≤ NINODES)
    (hmod : (as.length + 2) % 64 ≠ 0) : ImageOk s := by
  obtain ⟨g, s₁, hb, hs, hfb⟩ := h.built
  have hfi := h.freeinode
  have halive : ∀ {i}, 0 < i ∧ i < s.freeinode → mkfsSb.Alive g.X i := fun hi =>
    hb.alive_iff.2 (by omega)
  have hv := hb.rep.vol
  -- a needed data block, seen in the volume
  have hdata : ∀ {i bn}, (BlockRef.data i bn).Needed s → mkfsSb.Alive g.X i ∧ bn < MAXFILE ∧
      (BlockRef.data i bn).addr s = blockAt g.V (g.X i) bn ∧ blockAt g.V (g.X i) bn ≠ 0 := by
    rintro i bn ⟨hi, hlt⟩
    have hi := halive hi
    rw [hb.needed_iff hs hi hmod] at hlt
    have hsz := hv.own.size_le i hi
    refine ⟨hi, ?_, hb.blockAt_eq hs hi, hv.own.full i hi bn hlt⟩
    unfold BSIZE at *
    omega
  have hind : ∀ {i}, (BlockRef.indirect i).Needed s → mkfsSb.Alive g.X i ∧
      (BlockRef.indirect i).addr s = (g.X i).indirect ∧ (g.X i).indirect ≠ 0 := by
    rintro i ⟨hi, h0⟩
    have hi := halive hi
    have he : (s.inode i).indirect = (g.X i).indirect := congrFun (hb.addrs_eq hs hi.2.1) _
    exact ⟨hi, he, by rwa [he] at h0⟩
  have hrange : ∀ r : BlockRef, r.Needed s → r.addr s ≠ 0 ∧ r.addr s ∈ mkfsSb.data := by
    intro r hr
    cases r with
    | data i bn =>
      obtain ⟨hi, hbn, ha, h0⟩ := hdata hr
      rw [ha]
      exact ⟨h0, hv.block_mem hi hbn h0⟩
    | indirect i =>
      obtain ⟨hi, ha, h0⟩ := hind hr
      rw [ha]
      exact ⟨h0, hv.own.indirect_mem hi h0⟩
  refine ⟨fun i hi hlt => by omega, fun r hr => (hrange r hr).1, fun r hr => ?_, fun r r' hr hr' he => ?_,
    fun b hlt => ?_⟩
  · have := (hrange r hr).2
    rwa [Superblock.data, datastart_mkfsSb] at this
  · cases r with
    | data i bn =>
      obtain ⟨hi, hbn, ha, h0⟩ := hdata hr
      cases r' with
      | data j bn' =>
        obtain ⟨hj, hbn', ha', -⟩ := hdata hr'
        obtain ⟨rfl, rfl⟩ := hv.block_inj hi hbn h0 hj hbn' (by rw [← ha', ← he, ha])
        rfl
      | indirect j =>
        obtain ⟨hj, ha', -⟩ := hind hr'
        exact absurd (by rw [← ha', ← he, ha]) (hv.indirect_ne_block hi hbn h0 hj)
    | indirect i =>
      obtain ⟨hi, ha, h0⟩ := hind hr
      cases r' with
      | data j bn' =>
        obtain ⟨hj, hbn', ha', h0'⟩ := hdata hr'
        exact absurd (by rw [← ha', ← he, ha]) (hv.indirect_ne_block hj hbn' h0' hi)
      | indirect j =>
        obtain ⟨hj, ha', -⟩ := hind hr'
        have hp := hv.place_of_indirect hi h0 (p := .slot j (last NDIRECT))
          (by rw [refAt_indirect hj, ← ha', ← he, ha])
        simp only [Place.slot.injEq, and_true] at hp
        rw [hp]
  · rw [bitmap_final hs hlt]
    by_cases hm : b < nmeta
    · exact ⟨fun _ => .inl hm, fun _ => hv.own.reserved b (by rw [datastart_mkfsSb]; exact hm) hlt⟩
    · have hbd : b ∈ mkfsSb.data := ⟨by rw [datastart_mkfsSb]; omega, hlt⟩
      rw [hv.own.ledger.used_iff b hbd]
      constructor
      · rintro (⟨p, rfl⟩ | hF)
        · refine .inr ?_
          rcases hb.ref_of_place (mkfsSb_ok.ne_zero hbd) with ⟨i, bn, hi, hlt', he⟩ | ⟨i, hi, he⟩
          · have hi' := hb.alive_iff.1 hi
            refine ⟨.data i bn, ⟨⟨hi'.1, by omega⟩, (hb.needed_iff hs hi hmod).2 hlt'⟩, ?_⟩
            rw [he]
            exact hb.blockAt_eq hs hi
          · have hi' := hb.alive_iff.1 hi
            have ha : (s.inode i).indirect = (g.X i).indirect := congrFun (hb.addrs_eq hs hi.2.1) _
            refine ⟨.indirect i, ⟨⟨hi'.1, by omega⟩, ?_⟩, ?_⟩
            · rw [ha, ← he]
              exact mkfsSb_ok.ne_zero hbd
            · rw [he]
              exact ha
        · exact absurd hF (notMem_empty b)
      · rintro (hlt' | ⟨r, hr, rfl⟩)
        · exact absurd hlt' hm
        · refine .inl ?_
          cases r with
          | data i bn =>
            obtain ⟨hi, hbn, ha, -⟩ := hdata hr
            exact ⟨dataPlace i bn, by rw [refAt_dataPlace hi hbn, ha]⟩
          | indirect i =>
            obtain ⟨hi, ha, -⟩ := hind hr
            exact ⟨.slot i (last NDIRECT), by rw [refAt_indirect hi, ha]⟩

/-- If the entries of the root directory end at the end of a block, the block after them is missing. -/
theorem Finished.root_hole (h : Finished as s) (hlen : as.length + 2 ≤ NINODES)
    (hmod : (as.length + 2) % 64 = 0) :
    (BlockRef.data ROOTINO ((as.length + 2) / 64)).Needed s ∧
      (BlockRef.data ROOTINO ((as.length + 2) / 64)).addr s = 0 := by
  obtain ⟨g, s₁, hb, hs, -⟩ := h.built
  have hroot : mkfsSb.Alive g.X ROOTINO := hb.alive_iff.2 ⟨by decide, by unfold ROOTINO; omega⟩
  have hsize₁ := hb.root_size
  have hsize : (s.inode ROOTINO).size = ((g.X ROOTINO).size / BSIZE + 1) * BSIZE := by
    rw [hb.inode_eq hs (by decide), final_X_root]
    rfl
  unfold NINODES at hlen
  unfold DESIZE at hsize₁
  refine ⟨⟨⟨by decide, ?_⟩, ?_⟩, ?_⟩
  · rw [h.freeinode]
    unfold ROOTINO
    omega
  · rw [hsize, hsize₁]
    unfold BSIZE
    omega
  · change blockAt s.sect (s.inode ROOTINO) _ = 0
    rw [hb.blockAt_eq hs hroot]
    refine hb.tight ROOTINO hroot _ (by unfold MAXFILE; omega) ?_
    rw [hsize₁]
    unfold BSIZE
    omega

/-! ## The number of inodes -/

theorem keeps_wsect (sec : ℕ) (buf : Block) : Keeps freeinode (wsect sec buf) := fun _ => rfl

theorem keeps_rsect (sec : ℕ) : Keeps freeinode (rsect sec) := Keeps.get.bind fun _ => .ite (.pure _) (.panic _)

theorem keeps_winode (i : ℕ) (din : Dinode) : Keeps freeinode (winode i din) :=
  (keeps_rsect _).bind fun _ => keeps_wsect _ _

theorem keeps_rinode (i : ℕ) : Keeps freeinode (rinode i) := (keeps_rsect _).bind fun _ => .pure _

theorem keeps_bump : Keeps freeinode bump := Keeps.get.bind fun _ => .bind (fun _ => rfl) fun _ => .pure _

theorem keeps_fillSlot (din : Dinode) (k : Fin (NDIRECT + 1)) : Keeps freeinode (fillSlot din k) :=
  .ite (keeps_bump.bind fun _ => .pure _) (.pure _)

theorem keeps_appendBlock (din : Dinode) (fbn : ℕ) : Keeps freeinode (appendBlock din fbn) := by
  unfold appendBlock
  split
  · exact (keeps_fillSlot _ _).bind fun _ => .pure _
  · refine (keeps_fillSlot _ _).bind fun _ => (keeps_rsect _).bind fun _ => .ite ?_ (.pure _)
    exact keeps_bump.bind fun _ => (keeps_wsect _ _).bind fun _ => .pure _

theorem keeps_iappendLoop (fuel : ℕ) (din : Dinode) (off : ℕ) (p : List UInt8) :
    Keeps freeinode (iappendLoop fuel din off p) := by
  induction fuel generalizing din off p with
  | zero => exact .pure _
  | succ fuel ih =>
    refine .ite (.pure _) (.ite ((keeps_appendBlock _ _).bind fun x => ?_) (.panic _))
    exact (keeps_rsect _).bind fun _ => (keeps_wsect _ _).bind fun _ => ih _ _ _

theorem keeps_iappend (i : ℕ) (p : List UInt8) : Keeps freeinode (iappend i p) :=
  (keeps_rinode _).bind fun _ => (keeps_iappendLoop _ _ _ _).bind fun _ => keeps_winode _ _

theorem keeps_appendReads (i : ℕ) (cs : List (List UInt8)) : Keeps freeinode (appendReads i cs) := by
  induction cs with
  | nil => exact .pure _
  | cons c cs ih => exact .ite (.pure _) ((keeps_iappend _ _).bind fun _ => ih)

theorem keeps_fixRoot : Keeps freeinode fixRoot :=
  (keeps_rinode _).bind fun _ => (keeps_winode _ _).bind fun _ => Keeps.get.bind fun _ =>
    .ite (keeps_wsect _ _) (.panic _)

theorem wp_ialloc_count (type : ℕ) :
    wp (Mkfs.ialloc type) (fun _ s' => s'.freeinode = s.freeinode + 1) (fun _ _ => True) s := by
  unfold Mkfs.ialloc
  simp only [wp_bind, wp_get, wp_modify]
  exact (keeps_winode _ _).wp fun _ s' h => h

theorem wp_addFile_count (a : Input) :
    wp (addFile a) (fun _ s' => s'.freeinode = s.freeinode + 1) (fun _ _ => True) s := by
  unfold addFile
  rw [wp_ite]
  split
  · trivial
  split
  · trivial
  rw [wp_ite]
  split
  · trivial
  refine wp_call (wp_ialloc_count _) fun i s₁ h₁ => ?_
  exact ((keeps_iappend _ _).bind fun _ => keeps_appendReads _ _).wp fun _ s' h => h.trans h₁

/-- `mkfs` hands out an inode for the root directory and one for each file. -/
theorem wp_mkfs_count (args : List Input) (h₀ : s.freeinode = 1) :
    wp (mkfs args) (fun _ s' => s'.freeinode = args.length + 2) (fun _ _ => True) s := by
  have hroot : wp makeRoot (fun _ s' => s'.freeinode = 2) (fun _ _ => True) s := by
    unfold makeRoot
    generalize List.range FSSIZE = sectors
    rw [wp_bind]
    refine (Keeps.each (fun i => keeps_wsect i Bytes.zero) _).wp fun _ s₁ h₁ => ?_
    rw [wp_bind]
    refine (keeps_wsect _ _).wp fun _ s₂ h₂ => wp_call (wp_ialloc_count _) fun i s₃ h₃ => ?_
    rw [wp_ite]
    split
    · trivial
    · refine ((keeps_iappend _ _).bind fun _ => keeps_iappend _ _).wp fun _ s' h => ?_
      rw [h, h₃, h₂, h₁, h₀]
  refine wp_call hroot fun _ s₁ h₁ => ?_
  refine wp_call (wp_each (I := fun as s => s.freeinode + as.length = args.length + 2) args
    (fun a as s h => ?_) (by omega)) fun _ s₂ h₂ => keeps_fixRoot.wp fun _ s' h => h.trans h₂
  refine wp_mono (wp_addFile_count a) (fun _ s' h' => ?_) fun _ _ h => h
  rw [h', ← h, List.length_cons]
  omega

end Mkfs

-- the initial state is a variable in the next three lemmas, or the kernel runs the program

theorem mkfs_finished {args : List Input} {s₀ s : Mkfs} (h₀ : s₀ = Mkfs.init)
    (hlen : args.length + 2 ≤ NINODES) (h : mkfs args s₀ = (.ok (), s)) : Mkfs.Finished args s :=
  Prog.wp_ok (f := mkfs args) (Mkfs.wp_mkfs (E := fun _ => True) h₀ hlen fun _ _ => trivial) h

theorem mkfs_freeinode {args : List Input} {s₀ s : Mkfs} (h₀ : s₀ = Mkfs.init)
    (h : mkfs args s₀ = (.ok (), s)) : s.freeinode = args.length + 2 :=
  Prog.wp_ok (f := mkfs args) (Mkfs.wp_mkfs_count args (by rw [h₀]; rfl)) h

/-- `mkfs` of empty files with names that it accepts ends with status 0. -/
theorem mkfs_plain (args : List Input) {s₀ : Mkfs} (h₀ : s₀ = Mkfs.init) (hlen : args.length + 2 ≤ NINODES)
    (hp : ∀ a ∈ args, Mkfs.Plain a) : ∃ s, mkfs args s₀ = (.ok (), s) ∧ Mkfs.Finished args s := by
  have hwp := Mkfs.wp_mkfs (E := fun _ => False) h₀ hlen fun _ hn => hn hp
  obtain ⟨u, s, hs, hf⟩ := Prog.wp_total hwp
  exact ⟨s, hs, hf⟩

/-- `mkfs` builds a consistent image of a list of files if and only if there are inodes for them and the
entries of the root directory do not end at the end of a block. -/
theorem mkfs_consistent {args : List Input} {s : Mkfs} (h : mkfs args Mkfs.init = (.ok (), s)) :
    Mkfs.ImageOk s ↔ args.length + 2 ≤ NINODES ∧ (args.length + 2) % 64 ≠ 0 := by
  constructor
  · intro hok
    have hfree : s.freeinode = args.length + 2 := mkfs_freeinode rfl h
    have hlen : args.length + 2 ≤ NINODES := hok.inums (args.length + 1) (by omega) (by omega)
    refine ⟨hlen, fun hmod => ?_⟩
    obtain ⟨hneed, hzero⟩ := (mkfs_finished rfl hlen h).root_hole hlen hmod
    exact hok.allocated _ hneed hzero
  · rintro ⟨hlen, hmod⟩
    exact (mkfs_finished rfl hlen h).imageOk hlen hmod

/-- An empty file with the name "a". -/
def emptyFile : Input := ⟨[97], by decide, some []⟩

theorem plain_emptyFile : Mkfs.Plain emptyFile := ⟨by decide, by decide, rfl⟩

theorem mkfs_emptyFiles {args : List Input} {n : ℕ} (hargs : List.replicate n emptyFile = args)
    (hn : n + 2 ≤ NINODES) : ∃ s, mkfs args Mkfs.init = (.ok (), s) ∧ Mkfs.Finished args s ∧
      args.length = n := by
  have hlen : args.length = n := by rw [← hargs, List.length_replicate]
  obtain ⟨s, hs, hf⟩ := mkfs_plain args rfl (by rw [hlen]; exact hn) fun a ha => by
    rw [← hargs] at ha
    rw [List.eq_of_mem_replicate ha]
    exact plain_emptyFile
  exact ⟨s, hs, hf, hlen⟩

/-- Three files give a consistent image, and 62 do not. -/
theorem mkfs_consistent_three :
    (∃ s, mkfs (List.replicate 3 emptyFile) Mkfs.init = (.ok (), s) ∧ Mkfs.ImageOk s) ∧
    ∃ s, mkfs (List.replicate 62 emptyFile) Mkfs.init = (.ok (), s) ∧ ¬ Mkfs.ImageOk s := by
  constructor
  · generalize hargs : List.replicate 3 emptyFile = args
    obtain ⟨s, hs, -, hlen⟩ := mkfs_emptyFiles hargs (by decide)
    exact ⟨s, hs, (mkfs_consistent hs).2 (by rw [hlen]; decide)⟩
  · generalize hargs : List.replicate 62 emptyFile = args
    obtain ⟨s, hs, -, hlen⟩ := mkfs_emptyFiles hargs (by decide)
    exact ⟨s, hs, fun hok => absurd ((mkfs_consistent hs).1 hok) (by rw [hlen]; decide)⟩

/-- With 62 files the entries of the root directory fill a block; its size becomes two blocks, and the
second one is missing. -/
theorem mkfs_root_hole : ∃ s, mkfs (List.replicate 62 emptyFile) Mkfs.init = (.ok (), s) ∧
    BSIZE < (s.inode ROOTINO).size ∧ blockAt s.sect (s.inode ROOTINO) 1 = 0 ∧ ¬ Mkfs.ImageOk s := by
  generalize hargs : List.replicate 62 emptyFile = args
  obtain ⟨s, hs, hf, hlen⟩ := mkfs_emptyFiles hargs (by decide)
  obtain ⟨hneed, hzero⟩ := hf.root_hole (by rw [hlen]; decide) (by rw [hlen])
  refine ⟨s, hs, ?_, ?_, fun hok => hok.allocated _ hneed hzero⟩
  · simpa [hlen] using hneed.2
  · rw [hlen] at hzero
    exact hzero

end Xv6
