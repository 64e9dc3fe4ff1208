import Mathlib.Data.List.TakeWhile
import Xv6.Fs.Lookup
import Xv6.Mkfs.Mount

/-!
# Looking up the files of a new file system

The kernel reads the super block that `mkfs` wrote, finds every input file by its name in the root directory
and reads its bytes. The last block of the root directory may be missing; the search
stops before it.
-/

namespace Xv6

open RedoLog Function Prog List Option Img Dinode Set

/-! ## Directory entries -/

theorem cstr_eq_self {name : List UInt8} (h0 : (0 : UInt8) ∉ name) (hlen : name.length ≤ DIRSIZ) :
    cstr name = name := by
  rw [cstr, take_of_length_le hlen, takeWhile_eq_self_iff]
  exact fun c hc => decide_eq_true fun e => h0 (e ▸ hc)

theorem direntInum_dirent {name : List UInt8} {n : ℕ} (hn : n < 2 ^ 16) :
    direntInum (dirent name n) = n := by
  simp only [direntInum, dirent, getD_cons_zero, getD_cons_succ, UInt8.toNat_ofNat']
  omega

theorem direntName_dirent (name : List UInt8) (n : ℕ) : direntName (dirent name n) = cstr name := by
  have hlen : (cstr name).length ≤ DIRSIZ :=
    (List.takeWhile_prefix _).length_le.trans (by rw [length_take]; exact Nat.min_le_left ..)
  have hclean : ∀ c ∈ cstr name, c ≠ 0 := fun c hc => by
    simpa using mem_takeWhile_imp hc
  simp only [direntName, dirent, drop_succ_cons, drop_zero, strncpy]
  rw [cstr, take_of_length_le (by simp; omega), takeWhile_append_of_pos (by simpa using hclean)]
  cases DIRSIZ - (cstr name).length with
  | zero => simp
  | succ n => simp [replicate_succ]

theorem skipelem_root {name : List UInt8} (hne : name ≠ []) (hs : slash ∉ name) (hlen : name.length ≤ DIRSIZ) :
    skipelem (slash :: name) = some (name, []) := by
  have hdrop : (slash :: name).dropWhile (· = slash) = name := by
    cases name with
    | nil => exact absurd rfl hne
    | cons c name =>
      have : c ≠ slash := fun e => hs (e ▸ mem_cons_self)
      simp [this]
  have hall : ∀ c ∈ name, decide (c ≠ slash) = true := fun c hc => decide_eq_true fun e => hs (e ▸ hc)
  rw [skipelem, hdrop]
  cases name with
  | nil => exact absurd rfl hne
  | cons c name =>
    simp only [takeWhile_eq_self_iff.2 hall, dropWhile_eq_nil_iff.2 hall,
      take_of_length_le hlen, dropWhile_nil]

theorem drop_take_flatten {α : Type} {c : ℕ} {l : List (List α)} {x : List α}
    (h : ∀ y ∈ l, y.length = c) {k : ℕ} (hk : l[k]? = some x) : (l.flatten.drop (c * k)).take c = x := by
  induction l generalizing k with
  | nil => simp at hk
  | cons y l ih =>
    have hy := h y mem_cons_self
    cases k with
    | zero =>
      simp only [List.getElem?_cons_zero, some.injEq] at hk
      rw [flatten_cons, Nat.mul_zero, drop_zero, ← hk, ← hy, take_left]
    | succ k =>
      rw [List.getElem?_cons_succ] at hk
      have : c * (k + 1) = y.length + c * k := by rw [hy, Nat.mul_succ, Nat.add_comm]
      rw [flatten_cons, this, drop_append, Nat.add_sub_cancel_left,
        drop_eq_nil_of_le (Nat.le_add_right ..), nil_append]
      exact ih (fun z hz => h z (mem_cons_of_mem y hz)) hk

namespace Mkfs

variable {s s₁ : Mkfs} {g : Img} {as : List Input} {i j t : ℕ} {k : Fs}

/-! ## The root directory -/

/-- The names in the root directory, with their inode numbers. -/
def rootNames (as : List Input) : List (List UInt8 × ℕ) :=
  (dot, ROOTINO) :: (dotdot, ROOTINO) :: (as.zipIdx 2).map fun x => (shortname x.1.path, x.2)

theorem rootData_eq (as : List Input) :
    rootData as = ((rootNames as).map fun x => dirent x.1 x.2).flatten := by
  simp [rootData, rootNames, List.flatMap, Function.comp_def]

theorem rootNames_get (j : ℕ) : (rootNames as)[j + 2]? = as[j]?.map fun a => (shortname a.path, j + 2) := by
  simp [rootNames, List.getElem?_zipIdx, Nat.add_comm, Function.comp_def]

theorem Built.final_block (h : Built as s₁ g) (ha : mkfsSb.Alive g.X i) (bn : ℕ) :
    blockAt (final g).V ((final g).X i) bn = blockAt g.V (g.X i) bn := by
  rw [← h.blockAt_eq (s := ⟨(final g).V, 0, 0, 0⟩) rfl ha, h.inode_eq rfl ha.2.1]

theorem Built.final_byte (h : Built as s₁ g) (ha : mkfsSb.Alive g.X i) (o : ℕ)
    (hblk : nmeta ≤ blockAt g.V (g.X i) (o / BSIZE)) : (final g).byte i o = g.byte i o := by
  rw [byte, byte, h.final_block ha, final_V (bmapstart_lt_nmeta.le.trans hblk)]

theorem Built.block_below (h : Built as s₁ g) (ha : mkfsSb.Alive g.X i) {o : ℕ} (ho : o < (g.X i).size) :
    o / BSIZE < MAXFILE ∧ blockAt g.V (g.X i) (o / BSIZE) ≠ 0 ∧ nmeta ≤ blockAt g.V (g.X i) (o / BSIZE) := by
  obtain ⟨h₁, h₂, h₃⟩ := h.rep.vol.block_of_lt ha ho
  rw [Superblock.data, datastart_mkfsSb] at h₃
  exact ⟨h₁, h₂, h₃.1⟩

theorem Built.alive_root (h : Built as s₁ g) : mkfsSb.Alive g.X ROOTINO :=
  h.alive_iff.2 ⟨by decide, by unfold ROOTINO; omega⟩

theorem Built.bytes_root (h : Built as s₁ g) : g.bytes ROOTINO = rootData as := by
  have hn := congrFun h.node ROOTINO
  rw [node_of_alive h.alive_root, builtNode_root, some.injEq] at hn
  exact congrArg Node.data hn

/-- The root directory of a kernel that mounts the volume before its size is rounded up. -/
theorem Built.mounted_root (h : Built as s₁ g) (t : ℕ) :
    mkfsSb.Alive ((mounted g.V t).store.img mkfsSb).X ROOTINO ∧
      (((mounted g.V t).store.img mkfsSb).X ROOTINO).type = T_DIR ∧
      ((mounted g.V t).store.img mkfsSb).bytes ROOTINO = rootData as := by
  have hroot := h.alive_root
  have hv : Vol mkfsSb g ∅ ∅ t [] (mounted g.V t).store :=
    { h.rep.vol with shows := h.rep.vol.shows.opened t }
  have ha := hv.agree_current mkfsSb_ok h.rep.exact
  have htype : (((mounted g.V t).store.img mkfsSb).X ROOTINO).type = T_DIR := by
    have hn := congrFun h.node ROOTINO
    rw [node_of_alive hroot, builtNode_root, some.injEq] at hn
    rw [ha.X ROOTINO hroot.2.1]
    exact congrArg Node.type hn
  refine ⟨⟨hroot.1, hroot.2.1, by rw [htype]; decide⟩, htype, ?_⟩
  rw [ha.bytes_eq mkfsSb_ok hv hroot, h.bytes_root]

/-- The bytes of the root directory: the entries and the rest of its last block. -/
theorem Built.final_root (h : Built as s₁ g) : ∃ pad, (final g).bytes ROOTINO = rootData as ++ pad := by
  obtain ⟨n, hn⟩ : ∃ n, ((final g).X ROOTINO).size = (g.X ROOTINO).size + n := by
    refine Nat.exists_eq_add_of_le ?_
    rw [final_X_root]
    simp only [rounded, resize]
    unfold BSIZE
    omega
  rw [bytes, hn, range_add, map_append, ← h.bytes_root, bytes]
  refine ⟨_, congrArg (· ++ _) (map_congr_left fun o ho => ?_)⟩
  exact h.final_byte h.alive_root o (h.block_below h.alive_root (mem_range.1 ho)).2.2

theorem Built.final_entry (h : Built as s₁ g) {x : List UInt8 × ℕ} (hj : (rootNames as)[j]? = some x) :
    (final g).entry ROOTINO j = dirent x.1 x.2 := by
  obtain ⟨pad, hpad⟩ := h.final_root
  have hlt : j < as.length + 2 := by
    have := (List.getElem?_eq_some_iff.1 hj).1
    simp only [rootNames, length_cons, length_map, length_zipIdx] at this
    omega
  have hlen := length_rootData as
  have hend : DESIZE ≤ ((rootData as).drop (DESIZE * j)).length := by
    rw [length_drop, hlen]
    unfold DESIZE
    omega
  rw [entry, hpad, drop_append_of_le_length (by rw [hlen]; unfold DESIZE; omega),
    take_append_of_le_length hend, rootData_eq]
  refine drop_take_flatten (fun y hy => ?_) (by rw [List.getElem?_map, hj, map_some])
  obtain ⟨z, -, rfl⟩ := mem_map.1 hy
  exact length_dirent ..

/-! ## Lookup -/

theorem refAt_final (h : Built as s₁ g) :
    refAt mkfsSb (final g).V (final g).X = refAt mkfsSb g.V g.X := by
  have hX : refAt mkfsSb g.V (final g).X = refAt mkfsSb g.V g.X := refAt_update rfl rfl
  rw [← hX]
  refine refAt_congr fun i hi h0 => final_V (bmapstart_lt_nmeta.le.trans ?_)
  have he : mkfsSb.Alive g.X i ∧ ((final g).X i).indirect = (g.X i).indirect := by
    by_cases e : i = ROOTINO
    · rw [e, final_X_root]
      exact ⟨h.alive_root, rfl⟩
    · rw [Superblock.Alive, final_X e] at hi
      rw [final_X e]
      exact ⟨hi, rfl⟩
  rw [he.2] at h0 ⊢
  exact (h.rep.indirect_lt he.1 h0).1

theorem Built.final_legible (h : Built as s₁ g) : Legible mkfsSb (final g) where
  range p := by
    rw [refAt_final h]
    exact h.rep.vol.own.ledger.range p
  guarded p _ := by
    rw [show (final g).D = ∅ from h.rep.exact]
    exact notMem_empty _

/-- The root directory can be searched for the name of an input file. -/
theorem Built.searchable (h : Built as s₁ g) {name : List UInt8} {n : ℕ} (hj : j < as.length + 2) (hhit : Hit name ((final g).entry ROOTINO j)) :
    Searchable (final g) ROOTINO 0 n name := by
  intro k _ _ hfirst
  have hkj : k ≤ j := by
    by_contra hlt
    exact hfirst j (Nat.zero_le j) (by omega) hhit
  have hsize := h.root_size
  obtain ⟨hmax, h0, -⟩ := h.block_below h.alive_root (o := DESIZE * k) (by rw [hsize]; unfold DESIZE; omega)
  refine ⟨?_, hmax, ?_⟩
  · rw [final_X_root]
    simp only [rounded, resize]
    rw [hsize]
    unfold BSIZE DESIZE
    omega
  · rw [h.final_block h.alive_root]
    exact h0

/-- The names under which the files are looked up. -/
structure Distinct (as : List Input) : Prop where
  nodup : (as.map fun a => shortname a.path).Nodup
  nonempty : ∀ a ∈ as, shortname a.path ≠ []
  ne_dot : ∀ a ∈ as, shortname a.path ≠ dot ∧ shortname a.path ≠ dotdot

theorem NameOk.cstr_shortname {a : Input} (h : NameOk a) : cstr (shortname a.path) = shortname a.path := by
  refine cstr_eq_self (fun h0 => a.nul ?_) h.1
  have hstrip : ∀ c ∈ stripUser a.path, c ∈ a.path := fun c hc => by
    unfold stripUser at hc
    split at hc
    · exact mem_of_mem_drop hc
    · exact hc
  unfold shortname at h0
  split at h0
  · exact hstrip 0 (mem_of_mem_drop h0)
  · exact hstrip 0 h0

/-- The first entry with the name of an input file is its own. -/
theorem Distinct.name_ne (hd : Distinct as) (hok : ∀ a ∈ as, NameOk a) {a : Input} (ha : as[j]? = some a)
    {k : ℕ} (hk : k < j + 2) {x : List UInt8 × ℕ} (hx : (rootNames as)[k]? = some x) :
    cstr x.1 ≠ cstr (shortname a.path) := by
  have hmem := mem_of_getElem? ha
  rw [(hok a hmem).cstr_shortname]
  match k with
  | 0 =>
    simp only [rootNames, List.getElem?_cons_zero, some.injEq] at hx
    rw [← hx, show cstr dot = dot by decide]
    exact (hd.ne_dot a hmem).1.symm
  | 1 =>
    simp only [rootNames, List.getElem?_cons_succ, List.getElem?_cons_zero, some.injEq] at hx
    rw [← hx, show cstr dotdot = dotdot by decide]
    exact (hd.ne_dot a hmem).2.symm
  | k + 2 =>
    rw [rootNames_get] at hx
    obtain ⟨b, hb, rfl⟩ := map_eq_some_iff.1 hx
    rw [(hok b (mem_of_getElem? hb)).cstr_shortname]
    intro he
    have hj := (List.getElem?_eq_some_iff.1 ha).1
    have := (nodup_iff_getElem?_ne_getElem?.1 hd.nodup) k j (by omega) (by simpa using hj)
    rw [List.getElem?_map, List.getElem?_map, hb, ha] at this
    exact this (congrArg some he)

theorem Built.wp_namei (h : Built as s₁ g) (hlen : as.length + 2 ≤ NINODES) (hok : ∀ a ∈ as, NameOk a)
    (hd : Distinct as) {a : Input} (ha : as[j]? = some a) {c : Iptr → ℕ} (cwd : Iptr)
    (hr : Reader mkfsSb (final g) t k) (hc : k.Counts c)
    (hfree : ∃ e₁ e₂, e₁ ≠ e₂ ∧ c e₁ = 0 ∧ c e₂ = 0) {P : Panic → Prop} :
    wp (namei mkfsSb cwd (slash :: shortname a.path))
      (fun r k' => ∃ e c', r = some e ∧ Reader mkfsSb (final g) t k' ∧ k'.Counts c' ∧ 0 < c' e ∧
        (k'.inode e).inum = j + 2) (fun e _ => P e) k := by
  have hmem := mem_of_getElem? ha
  have hj := (List.getElem?_eq_some_iff.1 ha).1
  have hname := hok a hmem
  have hN : NINODES = 200 := rfl
  have hhead : (slash :: shortname a.path).head? = some slash := rfl
  have hskip := skipelem_root (hd.nonempty a hmem) hname.2 hname.1
  have hroot : (rounded g).type = T_DIR ∧ (rounded g).nlink ≠ 0 := by
    have hn := congrFun h.node ROOTINO
    rw [node_of_alive h.alive_root, builtNode_root, some.injEq] at hn
    have h₁ : (g.X ROOTINO).type = T_DIR := congrArg Node.type hn
    have h₂ : (g.X ROOTINO).nlink = 1 := congrArg Node.nlink hn
    exact ⟨h₁, by rw [show (rounded g).nlink = (g.X ROOTINO).nlink from rfl, h₂]; decide⟩
  -- the entry of the file
  have hentry : (final g).entry ROOTINO (j + 2) = dirent (shortname a.path) (j + 2) :=
    h.final_entry (x := (shortname a.path, j + 2)) (by rw [rootNames_get, ha]; rfl)
  have hinum : direntInum ((final g).entry ROOTINO (j + 2)) = j + 2 := by
    rw [hentry, direntInum_dirent (by omega)]
  have hhit : Hit (shortname a.path) ((final g).entry ROOTINO (j + 2)) :=
    ⟨by rw [hinum]; omega, by rw [hentry, direntName_dirent]⟩
  have hfirst : ∀ k' < j + 2, ¬ Hit (shortname a.path) ((final g).entry ROOTINO k') := by
    intro k' hk' hh
    obtain ⟨x, hx⟩ : ∃ x, (rootNames as)[k']? = some x := by
      refine ⟨_, List.getElem?_eq_getElem ?_⟩
      simp only [rootNames, length_cons, length_map, length_zipIdx]
      omega
    have := hh.2
    rw [h.final_entry hx, direntName_dirent] at this
    exact hd.name_ne hok ha hk' hx this
  have hslots : j + 2 < nslots ((final g).X ROOTINO).size := by
    rw [final_X_root]
    simp only [rounded, resize, nslots]
    rw [h.root_size]
    unfold BSIZE DESIZE
    omega
  obtain ⟨e₁, e₂, hne, h₁, h₂⟩ := hfree
  unfold namei namex
  simp only [wp_bind, hhead, if_true]
  refine hr.wp_iget hc (by decide) (by decide) (fun hall => ?_) fun e k₁ hr₁ hc₁ hi₁ _ => ?_
  · exact absurd (hall e₁) (by omega)
  obtain ⟨n, hn⟩ : ∃ n, (slash :: shortname a.path).length = n + 2 :=
    ⟨(shortname a.path).length - 1, by
      have := length_pos_iff.2 (hd.nonempty a hmem)
      rw [length_cons]
      omega⟩
  rw [hn, namexLoop, hskip]
  simp only [wp_bind]
  -- the root directory is locked and searched
  have hpos : 0 < update c e (c e + 1) e := by
    rw [update_self]
    omega
  refine hr₁.wp_ilock mkfsSb_ok hc₁ hpos ?_ fun k₂ hr₂ hc₂ he₂ _ => ?_
  · rw [hi₁, final_X_root, hroot.1]
    decide
  rw [hi₁] at he₂
  have htype : (k₂.inode e).d.type = T_DIR := by rw [he₂.copy, final_X_root, hroot.1]
  simp only [getInode, wp_bind, wp_get, wp_pure]
  rw [if_neg (not_not.2 htype), if_neg (fun hf => Bool.false_ne_true hf.1), wp_bind]
  refine hr₂.wp_dirlookup mkfsSb_ok hc₂ he₂ (by rw [← he₂.copy, htype]) (h.searchable (by omega) hhit) hslots
    hhit hfirst (by rw [hinum]; exact (by omega : j + 2 < NINODES)) (fun hall => ?_)
    fun ip k₃ hr₃ hc₃ hi₃ hkeep => ?_
  · -- the other free entry is still free
    by_cases he : e₁ = e
    · have := hall e₂
      rw [update_of_ne (he ▸ hne.symm)] at this
      omega
    · have := hall e₁
      rw [update_of_ne he] at this
      omega
  have hkeep_e := hkeep e (hc₂ e ▸ hpos)
  have hip : ip ≠ e := by
    rintro rfl
    rw [hinum, hkeep_e.1, he₂.inum] at hi₃
    exact absurd hi₃ (by unfold ROOTINO; omega)
  simp only [wp_bind]
  refine hr₃.wp_iunlockput hc₃ ?_ ?_ fun k₄ hr₄ hc₄ hkeep₄ => ?_
  · rw [update_of_ne hip.symm]
    exact hpos
  · intro _ _
    rw [hkeep_e.2.2, he₂.copy, final_X_root]
    exact hroot.2
  -- the path ends
  have hpos₃ : 0 < (k₃.inode ip).ref := by
    rw [hc₃ ip, update_self]
    omega
  rw [namexLoop, show skipelem [] = none from rfl]
  refine ⟨ip, _, rfl, hr₄, hc₄, ?_, ?_⟩
  · rw [update_of_ne hip, ← hc₃ ip]
    exact hpos₃
  · rw [(hkeep₄ ip hpos₃).1, hi₃, hinum]

end Mkfs

/-! ## Reading the files -/

/-- A kernel runs on the disk `V` made by `mkfs`: reads return the blocks of `V`, the inodes in the table are
those of `V`, and there are a free buffer and two free entries in the table. -/
structure RunsOn (V : Disk) (k : Fs) : Prop where
  shows : Shows mkfsSb.logstart V ∅ k.store.outstanding [] k.store
  tab : Tab mkfsSb (fun i => Dinode.read (V (mkfsSb.iblock i)) i) k.inode
  room : k.store.lh.length < k.store.bufs.length
  free : ∃ e₁ e₂, e₁ ≠ e₂ ∧ (k.inode e₁).ref = 0 ∧ (k.inode e₂).ref = 0

variable {as : List Input} {s₁ : Mkfs} {g : Img}

theorem RunsOn.reader {s s₁ : Mkfs} {g : Img} {k : Fs} (hk : RunsOn s.sect k)
    (h : Mkfs.Built as s₁ g) (hs : s.sect = (Mkfs.final g).V) :
    Reader mkfsSb (Mkfs.final g) k.store.outstanding k := by
  have hD : (Mkfs.final g).D = ∅ := h.rep.exact
  have hX : ∀ i < NINODES, read (s.sect (mkfsSb.iblock i)) i = (Mkfs.final g).X i := fun i hi =>
    h.inode_eq hs hi
  refine ⟨h.final_legible, ?_, fun i _ => ?_, fun i hi => ?_, ⟨hk.tab.range, hk.tab.uniq, fun e hr hv => ?_⟩,
    hk.room⟩
  · rw [hD, ← hs]
    exact hk.shows
  · rw [hD]
    exact notMem_empty _
  · rw [← hs, hX i hi]
  · rw [← hX _ (hk.tab.range e hr).2]
    exact hk.tab.copy e hr hv

theorem runsOn_mounted {V : Disk} (t : ℕ) (h : (read (V (mkfsSb.iblock ROOTINO)) ROOTINO).type ≠ 0) :
    RunsOn V (mounted V t) := by
  refine ⟨(Shows.boot mkfsSb.logstart V).opened t, ⟨fun e he => ?_, fun e e' he he' _ => ?_,
    fun e he _ => ?_⟩, ?_, 1, 2, by decide, rfl, rfl⟩
  · rw [eq_zero_of_ref_mounted he]
    exact ⟨(by decide : 0 < ROOTINO), (by decide : ROOTINO < NINODES)⟩
  · rw [eq_zero_of_ref_mounted he, eq_zero_of_ref_mounted he']
  · rw [eq_zero_of_ref_mounted he]
    exact ⟨rfl, h⟩
  · exact (by decide : 0 < NBUF)

theorem readsb_sbBlock : readsb sbBlock = (FSMAGIC, mkfsSb) := by
  simp (disch := decide) only [readsb, sbBlock, Bytes.rdle_wrle_self, Bytes.rdle_wrle_of_disjoint]
  rfl

theorem Mkfs.Built.file (h : Mkfs.Built as s₁ g) {j : ℕ} {a : Input}
    (ha : as[j]? = some a) : mkfsSb.Alive g.X (j + 2) ∧ (g.X (j + 2)).type = T_FILE ∧
      (g.X (j + 2)).nlink = 1 ∧ g.bytes (j + 2) = Mkfs.bytesOf a := by
  have hj := (List.getElem?_eq_some_iff.1 ha).1
  have halive : mkfsSb.Alive g.X (j + 2) := h.alive_iff.2 ⟨by omega, by omega⟩
  have hn := congrFun h.node (j + 2)
  rw [node_of_alive halive, Mkfs.builtNode, if_neg (by omega), if_neg (by unfold ROOTINO; omega),
    Nat.add_sub_cancel, ha, map_some, some.injEq] at hn
  exact ⟨halive, congrArg Node.type hn, congrArg Node.nlink hn, congrArg Node.data hn⟩

theorem Mkfs.Built.final_file (h : Mkfs.Built as s₁ g) {j : ℕ}
    {a : Input} (ha : as[j]? = some a) : (Mkfs.final g).bytes (j + 2) = Mkfs.bytesOf a := by
  obtain ⟨halive, -, -, hbytes⟩ := h.file ha
  rw [← hbytes, bytes, bytes, Mkfs.final_X (by unfold ROOTINO; omega)]
  refine map_congr_left fun o ho => h.final_byte halive o ?_
  exact (h.block_below halive (mem_range.1 ho)).2.2

theorem Mkfs.Built.wp_readFile (h : Mkfs.Built as s₁ g) {j t : ℕ}
    {a : Input} (ha : as[j]? = some a) {k : Fs} (hr : Reader mkfsSb (Mkfs.final g) t k) {e : Iptr}
    (he : Loaded mkfsSb (Mkfs.final g) k e (j + 2)) {dst : Dst} (hdst : dst.Accepts (Mkfs.bytesOf a).length)
    {P : Panic → Prop} :
    wp (readi mkfsSb e dst 0 (Mkfs.bytesOf a).length)
      (fun r _ => r = (((Mkfs.bytesOf a).length : ℤ), Mkfs.bytesOf a)) (fun e _ => P e) k := by
  obtain ⟨halive, -, -, hfile⟩ := h.file ha
  have hX : (Mkfs.final g).X (j + 2) = g.X (j + 2) := Mkfs.final_X (by unfold ROOTINO; omega)
  refine wp_readi mkfsSb_ok hr.legible (fun hle => absurd hr.room (by simpa using hle)) hr.shows he
    (fun o _ _ ho => ?_) fun st' n bs _ _ hread => ?_
  · rw [hX] at ho
    obtain ⟨hmax, h0, -⟩ := h.block_below halive ho
    exact ⟨hmax, by rwa [h.final_block halive]⟩
  · have hle := h.rep.vol.own.size_le _ halive
    rw [← length_bytes, hfile] at hle
    have hlt : 0 + (Mkfs.bytesOf a).length < 2 ^ 32 := by
      rw [Nat.zero_add]
      exact hle.trans_lt (by decide)
    obtain ⟨rfl, rfl⟩ := hread hdst (Or.inr h.rep.exact) hlt
    rw [h.final_file ha, drop_zero, take_length]

/-- What the kernel reads from an image made by `mkfs`: the super block, and each input file under its name,
as a file with one link and its bytes. -/
theorem mkfs_lookup {args : List Input} (hlen : args.length + 2 ≤ NINODES) (hd : Mkfs.Distinct args)
    {s : Mkfs} (h : mkfs args Mkfs.init = (.ok (), s)) {k : Fs} (hk : RunsOn s.sect k) (cwd : Iptr) :
    (readsb (s.sect 1)).1 = FSMAGIC ∧ ∀ a ∈ args, ∃ e k₁ k₂,
      namei (readsb (s.sect 1)).2 cwd (slash :: shortname a.path) k = (.ok (some e), k₁) ∧
      ilock (readsb (s.sect 1)).2 e k₁ = (.ok (), k₂) ∧
      (k₂.inode e).d.type = T_FILE ∧ (k₂.inode e).d.nlink = 1 ∧
      (k₂.inode e).d.size = (Mkfs.bytesOf a).length ∧
      ∀ dst : Dst, dst.Accepts (Mkfs.bytesOf a).length → ∃ k₃,
        readi (readsb (s.sect 1)).2 e dst 0 (Mkfs.bytesOf a).length k₂ =
          (.ok ((Mkfs.bytesOf a).length, Mkfs.bytesOf a), k₃) := by
  obtain ⟨hok, -, ⟨g, s₁, hb, hs, -⟩, hsuper⟩ := mkfs_finished rfl hlen h
  rw [hsuper, readsb_sbBlock]
  refine ⟨rfl, fun a hmem => ?_⟩
  obtain ⟨j, ha⟩ := List.mem_iff_getElem?.1 hmem
  have hr := hk.reader hb hs
  obtain ⟨r, k₁, hrun₁, e, c, rfl, hr₁, hc₁, hpos, hi₁⟩ :=
    wp_total (hb.wp_namei (P := fun _ => False) hlen hok hd ha cwd hr (fun _ => rfl) hk.free)
  obtain ⟨halive, htype, hnlink, -⟩ := hb.file ha
  have hX : (Mkfs.final g).X (j + 2) = g.X (j + 2) := Mkfs.final_X (by unfold ROOTINO; omega)
  have hbytes := hb.final_file ha
  have hsize : (g.X (j + 2)).size = (Mkfs.bytesOf a).length := by
    rw [← hbytes, Img.length_bytes, hX]
  obtain ⟨_, k₂, hrun₂, hr₂, -, he⟩ := wp_total (hr₁.wp_ilock (P := fun _ => False)
    (Q := fun _ k₂ => Reader mkfsSb (Mkfs.final g) k.store.outstanding k₂ ∧ k₂.Counts c ∧
      Loaded mkfsSb (Mkfs.final g) k₂ e (k₁.inode e).inum) mkfsSb_ok hc₁ hpos
    (by rw [hi₁, hX, htype]; decide) fun k₂ hr₂ hc₂ he _ => ⟨hr₂, hc₂, he⟩)
  rw [hi₁] at he
  refine ⟨e, k₁, k₂, hrun₁, hrun₂, ?_, ?_, ?_, fun dst hdst => ?_⟩
  · rw [he.copy, hX, htype]
  · rw [he.copy, hX, hnlink]
  · rw [he.copy, hX, hsize]
  · obtain ⟨_, k₃, hrun₃, rfl⟩ := wp_total (hb.wp_readFile (P := fun _ => False) ha hr₂ he hdst)
    exact ⟨k₃, hrun₃⟩

theorem mkfs_lookup_file : ∃ s k, mkfs [emptyFile] Mkfs.init = (.ok (), s) ∧ RunsOn s.sect k ∧
    ∃ e k₁ k₂, namei (readsb (s.sect 1)).2 0 (slash :: shortname emptyFile.path) k = (.ok (some e), k₁) ∧
      ilock (readsb (s.sect 1)).2 e k₁ = (.ok (), k₂) ∧ (k₂.inode e).d.type = T_FILE := by
  have hplain : ∀ a ∈ [emptyFile], Mkfs.Plain a := fun a ha => by
    rw [List.mem_singleton.1 ha]
    exact plain_emptyFile
  obtain ⟨s, hs, hf⟩ := mkfs_plain [emptyFile] rfl (by decide) hplain
  have hd : Mkfs.Distinct [emptyFile] := ⟨by decide, by decide, by decide⟩
  have hroot : (Dinode.read (s.sect (mkfsSb.iblock ROOTINO)) ROOTINO).type ≠ 0 := by
    obtain ⟨g, s₁, hb, hV, -⟩ := hf.built
    have := hb.inode_eq hV (i := ROOTINO) (by decide)
    rw [Mkfs.inode] at this
    rw [this, Mkfs.final_X_root]
    exact hb.alive_root.2.2
  have hk := runsOn_mounted 1 hroot
  obtain ⟨e, k₁, k₂, h₁, h₂, h₃, -⟩ := (mkfs_lookup (by decide) hd hs hk 0).2 emptyFile List.mem_cons_self
  exact ⟨s, _, hs, hk, e, k₁, k₂, h₁, h₂, h₃⟩

end Xv6
