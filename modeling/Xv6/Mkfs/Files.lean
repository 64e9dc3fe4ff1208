import Xv6.Mkfs.Volume

/-!
# The files of a new file system

`Mkfs.Built as s g`: the root directory and the files of `as` are in the volume. The files are added one
by one; at the end the root directory gets the size of its blocks and the free map is written.
-/

namespace Xv6

open Function Prog List Img Set Bytes Option

variable {Q : Unit → Mkfs → Prop}

open RedoLog

namespace Mkfs

variable {s : Mkfs} {g g' : Img} {F U : Set ℕ} {i j b bn off : ℕ} {E : Stop → Prop}

/-- The bytes of an input file. -/
def bytesOf (a : Input) : List UInt8 :=
  match a.reads with
  | none => []
  | some reads => readAll reads

/-- The entries of the root directory. -/
def rootData (as : List Input) : List UInt8 :=
  dirent dot ROOTINO ++ dirent dotdot ROOTINO ++
    (as.zipIdx 2).flatMap fun x => dirent (shortname x.1.path) x.2

/-- The inodes after the files of `as` were added. -/
def builtNode (as : List Input) (i : ℕ) : Option Node :=
  if i = 0 then none
  else if i = ROOTINO then some ⟨T_DIR, 0, 0, 1, rootData as⟩
  else as[i - 2]?.map fun a => ⟨T_FILE, 0, 0, 1, bytesOf a⟩

structure Built (as : List Input) (s : Mkfs) (g : Img) : Prop where
  rep : Rep s g ∅ ∅
  tight : AllTight g
  freeinode : s.freeinode = as.length + 2
  node : g.node mkfsSb = builtNode as

/-! ## New inodes -/

theorem Rep.birth (h : Rep s g ∅ ∅) (hlt : s.freeinode < NINODES) (type : ℕ) (ht : type < 2 ^ 16) :
    Rep { s with freeinode := s.freeinode + 1 } (g.setX s.freeinode (newDinode type)) ∅
      (insert s.freeinode ∅) where
  vol := by
    refine h.vol.birth (fun ha => ha.2.2 (h.unused _ le_rfl hlt)) ?_ rfl rfl
    exact ⟨ht, Nat.two_pow_pos _, Nat.two_pow_pos _, Nat.one_lt_two_pow (by decide), Nat.two_pow_pos _,
      fun _ => Nat.two_pow_pos _⟩
  disk := h.disk
  exact := h.exact
  nsect := h.nsect
  layout := h.layout
  room := h.room
  zero := h.zero
  unused j hj hj' := by
    have hj : s.freeinode + 1 ≤ j := hj
    rw [show (g.setX s.freeinode (newDinode type)).X j = g.X j from
      update_of_ne (by omega) ..]
    exact h.unused j (by omega) hj'
  super := h.super

/-- `ialloc` gives a new inode without bytes. -/
theorem wp_ialloc {Q : ℕ → Mkfs → Prop} {type : ℕ} (h : Rep s g ∅ ∅) (ht : AllTight g)
    (hlt : s.freeinode < NINODES) (hpos : 0 < s.freeinode) (htype : type < 2 ^ 16) (h0 : type ≠ 0)
    (hQ : ∀ g' s', Rep s' g' ∅ ∅ → AllTight g' →
      g'.node mkfsSb = update (g.node mkfsSb) s.freeinode (some ⟨type, 0, 0, 1, []⟩) →
      s'.freeinode = s.freeinode + 1 → s'.freeblock = s.freeblock → Q s.freeinode s') :
    wp (ialloc type) Q (fun e _ => E e) s := by
  have h₁ := h.birth hlt type htype
  set g₁ := g.setX s.freeinode (newDinode type) with hg₁
  have hXi : g₁.X s.freeinode = newDinode type := update_self ..
  have hX : ∀ j ≠ s.freeinode, g₁.X j = g.X j := fun j hj => update_of_ne hj ..
  unfold ialloc
  simp only [wp_bind, wp_get, wp_modify]
  rw [← hXi]
  refine wp_winode h₁ hlt fun s₂ h₂ hino hfb => ?_
  rw [wp_pure]
  have hU : (insert s.freeinode (∅ : Set ℕ)) \ {s.freeinode} = ∅ := by simp
  rw [hU] at h₂
  refine hQ _ s₂ h₂ (fun j hj bn hbn hle => ?_) ?_ hino hfb
  · rw [show (g₁.flush mkfsSb s.freeinode).X j = g₁.X j from rfl] at hle ⊢
    rw [h₁.vol.blockAt_flush mkfsSb_ok hlt hj]
    by_cases e : j = s.freeinode
    · rw [e, hXi]
      unfold blockAt
      split
      · rfl
      · exact if_pos rfl
    · rw [hX j e] at hle ⊢
      have hj : mkfsSb.Alive g.X j := by
        have := hj
        unfold Superblock.Alive at this ⊢
        rwa [show (g₁.flush mkfsSb s.freeinode).X j = g₁.X j from rfl, hX j e] at this
      exact ht j hj bn hbn hle
  · rw [h₁.vol.node_flush mkfsSb_ok hlt, hg₁, node_birth ⟨hpos, hlt⟩ h0 rfl]
    rfl

theorem wp_iappend_node {p : List UInt8} {n : Node} (h : Rep s g ∅ ∅)
    (ht : AllTight g) (hn : g.node mkfsSb i = some n)
    (hE : ∀ e, FSSIZE < s.freeblock + 2 * touched n.data.length p.length ∨
      MAXFILE * BSIZE < n.data.length + p.length → E e)
    (hQ : ∀ g' s', Rep s' g' ∅ ∅ → AllTight g' →
      g'.node mkfsSb = update (g.node mkfsSb) i (some { n with data := n.data ++ p }) →
      s'.freeinode = s.freeinode → s'.freeblock ≤ s.freeblock + 2 * touched n.data.length p.length →
      Q () s') :
    wp (iappend i p) Q (fun e _ => E e) s := by
  obtain ⟨hi, rfl⟩ := node_eq_some hn
  have hlen : ((g.X i).node (g.bytes i)).data.length = (g.X i).size := g.length_bytes i
  rw [hlen] at hE hQ
  refine wp_iappend h ht hi hE fun g' s' h' ht' o hino hfb => hQ g' s' h' ht' ?_ hino hfb
  rw [o.node hi (Or.inr h.exact), ← g.length_bytes i, overwrite_length]
  rfl

/-! ## Files -/

theorem wp_appendReads {reads : List (List UInt8)} {n : Node} (h : Rep s g ∅ ∅)
    (ht : AllTight g) (hn : g.node mkfsSb i = some n) (hE : ∀ e, reads ≠ [] → E e)
    (hQ : ∀ g' s', Rep s' g' ∅ ∅ → AllTight g' →
      g'.node mkfsSb = update (g.node mkfsSb) i (some { n with data := n.data ++ readAll reads }) →
      s'.freeinode = s.freeinode → (reads = [] → s'.freeblock = s.freeblock) → Q () s') :
    wp (appendReads i reads) Q (fun e _ => E e) s := by
  have hsame : update (g.node mkfsSb) i (some { n with data := n.data ++ [] }) = g.node mkfsSb := by
    rw [append_nil, ← hn, update_eq_self]
  induction reads generalizing s g n with
  | nil => exact hQ g s h ht hsame.symm rfl fun _ => rfl
  | cons c cs ih =>
    rw [appendReads, wp_ite]
    split
    · rename_i hc
      subst hc
      exact hQ g s h ht hsame.symm rfl fun e => absurd e (cons_ne_nil _ _)
    · rename_i hc
      have hcons : readAll (c :: cs) = c ++ readAll cs := by
        unfold readAll
        rw [takeWhile_cons_of_pos (by simpa using hc), flatten_cons]
      have hE' : ∀ e, E e := fun e => hE e (cons_ne_nil _ _)
      rw [wp_bind]
      refine wp_iappend_node h ht hn (fun e _ => hE' e) fun g₁ s₁ h₁ ht₁ hn₁ hino₁ _ => ?_
      have hi₁ : g₁.node mkfsSb i = some { n with data := n.data ++ c } := by
        rw [hn₁, update_self]
      refine ih h₁ ht₁ hi₁ (fun e _ => hE' e) (fun g₂ s₂ h₂ ht₂ hn₂ hino₂ _ => ?_) ?_
      · refine hQ g₂ s₂ h₂ ht₂ ?_ (hino₂.trans hino₁) fun e => absurd e (cons_ne_nil _ _)
        rw [hn₂, hn₁, update_idem, hcons, append_assoc]
      · rw [append_nil, ← hi₁, update_eq_self]

/-- An empty input file that can be added. -/
structure Plain (a : Input) : Prop where
  slash : slash ∉ stripUser a.path
  short : (shortname a.path).length ≤ DIRSIZ
  reads : a.reads = some []

theorem length_strncpy (name : List UInt8) : (strncpy name).length = DIRSIZ := by
  have : (cstr name).length ≤ DIRSIZ :=
    (List.takeWhile_prefix _).length_le.trans (by rw [length_take]; exact Nat.min_le_left ..)
  simp only [strncpy, length_append, length_replicate]
  omega

theorem length_dirent (name : List UInt8) (inum : ℕ) : (dirent name inum).length = DESIZE := by
  simp [dirent, length_strncpy]

theorem length_rootData (as : List Input) : (rootData as).length = DESIZE * (as.length + 2) := by
  have h : ∀ (l : List (Input × ℕ)),
      (l.flatMap fun x => dirent (shortname x.1.path) x.2).length = DESIZE * l.length := by
    intro l
    induction l with
    | nil => rfl
    | cons x l ih =>
      rw [flatMap_cons, length_append, ih, length_dirent, length_cons]
      ring
  simp only [rootData, length_append, length_dirent, h, length_zipIdx]
  ring

theorem rootData_concat (as : List Input) (a : Input) :
    rootData (as ++ [a]) = rootData as ++ dirent (shortname a.path) (as.length + 2) := by
  simp only [rootData, zipIdx_append, flatMap_append, append_assoc]
  simp [Nat.add_comm]

theorem builtNode_concat (as : List Input) (a : Input) :
    builtNode (as ++ [a]) = update (update (builtNode as) ROOTINO
      (some ⟨T_DIR, 0, 0, 1, rootData as ++ dirent (shortname a.path) (as.length + 2)⟩))
      (as.length + 2) (some ⟨T_FILE, 0, 0, 1, bytesOf a⟩) := by
  have hr : ROOTINO = 1 := rfl
  funext i
  by_cases hi : i = as.length + 2
  · rw [hi, update_self, builtNode, if_neg (by omega), if_neg (by omega)]
    simp
  · rw [update_of_ne hi]
    by_cases h1 : i = ROOTINO
    · rw [h1, update_self, builtNode, if_neg (by omega), if_pos rfl, rootData_concat]
    · rw [update_of_ne h1]
      unfold builtNode
      by_cases h0 : i = 0
      · rw [if_pos h0, if_pos h0]
      · rw [if_neg h0, if_neg h0, if_neg h1, if_neg h1]
        by_cases hlt : i - 2 < as.length
        · rw [List.getElem?_append_left hlt]
        · rw [List.getElem?_eq_none (by simp; omega), List.getElem?_eq_none (by omega)]

theorem builtNode_root (as : List Input) :
    builtNode as ROOTINO = some ⟨T_DIR, 0, 0, 1, rootData as⟩ := by
  rw [builtNode, if_neg (by decide), if_pos rfl]

theorem wp_addFile {as : List Input} {a : Input} (h : Built as s g)
    (hlt : as.length + 2 < NINODES) (hE : ∀ e, (Plain a → FSSIZE < s.freeblock + 2) → E e)
    (hQ : ∀ g' s', Built (as ++ [a]) s' g' → (shortname a.path).length ≤ DIRSIZ → slash ∉ shortname a.path →
      (Plain a → s'.freeblock ≤ s.freeblock + 2) → Q () s') :
    wp (addFile a) Q (fun e _ => E e) s := by
  have hN : NINODES = 200 := rfl
  have hD : DESIZE = 16 := rfl
  have hlen := length_rootData as
  unfold addFile
  rw [wp_ite]
  split
  · rename_i hs
    exact hE _ fun hp => absurd hs hp.slash
  rename_i hslash
  cases hr : a.reads with
  | none => exact hE _ fun hp => by rw [hp.reads] at hr; cases hr
  | some reads =>
    simp only
    rw [wp_ite]
    split
    · rename_i hlong
      exact hE _ fun hp => absurd hp.short (by omega)
    rename_i hshort
    have hfi := h.freeinode
    rw [wp_bind]
    refine wp_ialloc h.rep h.tight (by omega) (by omega) (by decide) (by decide)
      fun g₁ s₁ h₁ ht₁ hn₁ hino₁ hfb₁ => ?_
    have hroot₁ : g₁.node mkfsSb ROOTINO = some ⟨T_DIR, 0, 0, 1, rootData as⟩ := by
      rw [hn₁, update_of_ne (by rw [hfi]; unfold ROOTINO; omega), h.node, builtNode_root]
    -- an entry of the root directory lies in one block
    have htouch : touched (rootData as).length (dirent (shortname a.path) s.freeinode).length = 1 := by
      rw [length_dirent, hlen]
      unfold touched BSIZE DESIZE
      rw [if_neg (by decide)]
      omega
    rw [wp_bind]
    refine wp_iappend_node h₁ ht₁ hroot₁ (fun e he => hE e fun _ => ?_) fun g₂ s₂ h₂ ht₂ hn₂ hino₂ hfb₂ => ?_
    · rw [htouch, length_dirent, hlen] at he
      rw [show MAXFILE * BSIZE = 274432 from rfl, hD] at he
      omega
    simp only [htouch] at hfb₂
    have hnew₂ : g₂.node mkfsSb s.freeinode = some ⟨T_FILE, 0, 0, 1, []⟩ := by
      rw [hn₂, update_of_ne (by rw [hfi]; unfold ROOTINO; omega), hn₁, update_self]
    refine wp_appendReads h₂ ht₂ hnew₂ (fun e hne => hE e fun hp => ?_) fun g₃ s₃ h₃ ht₃ hn₃ hino₃ hfb₃ => ?_
    · rw [hp.reads, some.injEq] at hr
      exact absurd hr.symm hne
    refine hQ g₃ s₃ ⟨h₃, ht₃, ?_, ?_⟩ (by omega) ?_ fun hp => ?_
    · rw [hino₃, hino₂, hino₁, hfi, length_append, length_singleton]
    · have hne : as.length + 2 ≠ ROOTINO := by unfold ROOTINO; omega
      have hbytes : bytesOf a = [] ++ readAll reads := by rw [bytesOf, hr, nil_append]
      rw [hn₃, hn₂, hn₁, h.node, builtNode_concat, hfi, update_comm hne, update_idem,
        hbytes]
    · unfold shortname
      split
      · exact fun hm => hslash (mem_of_mem_drop hm)
      · exact hslash
    · rw [hp.reads, some.injEq] at hr
      have := hfb₃ hr.symm
      omega

/-! ## The root directory -/

theorem wp_zero_sectors {l : List ℕ} {k n : ℕ} (hl : range' k n = l)
    (hkn : k + n ≤ FSSIZE) (hs : s.sect = fun _ => zero) (hn : s.nsect = k)
    (hQ : Q () { s with nsect := k + n }) :
    wp (Prog.each (fun i => wsect i zero) l) Q (fun e _ => E e) s := by
  induction n generalizing k s l with
  | zero =>
    obtain ⟨sect, nsect, fi, fb⟩ := s
    obtain rfl : nsect = k := hn
    rw [← hl]
    exact hQ
  | succ n ih =>
    rw [← hl, range'_succ, Prog.each, wp_bind]
    have hz : update s.sect k zero = s.sect := by
      rw [hs]
      exact update_eq_self ..
    refine wp_wsect (by omega) (ih rfl (by omega) (by rw [hz, hs]) (by simp only; omega) ?_)
    rw [hz]
    convert hQ using 2
    omega

/-- The sectors before the first inode is allocated. -/
def blank : ℕ → Block := update (fun _ => Bytes.zero) 1 sbBlock

/-- The volume without inodes. -/
def blankImg (s : Mkfs) : Img := ⟨s.disk, ∅, fun i => Dinode.read (s.disk (mkfsSb.iblock i)) i⟩

theorem type_blankImg (hs : s.sect = blank) (hi : i < NINODES) : ((blankImg s).X i).type = 0 := by
  have h₁ := mkfsSb_ok.iblock_lt (i := i) hi
  have h₂ : mkfsSb.inodestart ≤ mkfsSb.iblock i := mkfsSb.inodestart_le_iblock
  have h₃ : 1 < mkfsSb.inodestart := by decide
  simp only [blankImg, Dinode.read]
  rw [disk_of_ne (by omega), hs, blank, update_of_ne (by omega), rdle_zero]

theorem rep_blank (hs : s.sect = blank) (hn : s.nsect = FSSIZE) (hf : s.freeblock = nmeta) :
    Rep s (blankImg s) ∅ ∅ := by
  have hna : ∀ i, ¬ mkfsSb.Alive (blankImg s).X i := fun i ha => ha.2.2 (type_blankImg hs ha.2.1)
  have href : ∀ p, refAt mkfsSb (blankImg s).V (blankImg s).X p = 0 := fun p => refAt_of_not_alive (hna _)
  have hroom : s.freeblock ≤ FSSIZE := by
    rw [hf]
    decide
  refine ⟨⟨shows_fresh rfl, ⟨⟨?_, ?_, ?_, ?_, ?_⟩, ?_, ?_, ?_, ?_⟩, ?_, ?_⟩, rfl, rfl, hn, hf.ge, hroom,
    fun b hb => ?_, fun i _ hi => type_blankImg hs hi, by rw [hs]; exact update_self ..⟩
  · exact fun h0 => absurd rfl (mkfsSb_ok.ne_zero h0)
  · exact fun p hp => absurd (href p) hp
  · exact fun p q _ hp => absurd (href p) hp
  · exact fun b hb => absurd hb (notMem_empty b)
  · intro b hb
    rw [show (blankImg s).V = s.disk from rfl, used_disk hroom hb.2, hf, ← datastart_mkfsSb]
    refine ⟨fun hlt => absurd hb.1 (by omega), ?_⟩
    rintro (⟨p, hp⟩ | hF)
    · rw [show s.disk = (blankImg s).V from rfl, href] at hp
      exact absurd hp.symm (mkfsSb_ok.ne_zero hb)
    · exact absurd hF (notMem_empty b)
  · intro b hb hbs
    rw [show (blankImg s).V = s.disk from rfl, used_disk hroom hbs, hf, ← datastart_mkfsSb]
    exact hb
  · exact fun i hi => absurd hi (hna i)
  · exact fun i hi => absurd hi (hna i)
  · exact fun i _ => Dinode.fits_read
  · exact fun b hb => absurd hb (notMem_empty b)
  · exact fun i _ _ => rfl
  · rw [hs, blank]
    refine update_of_ne ?_ ..
    have : 1 < nmeta := by decide
    omega

theorem touched_small {k n : ℕ} (h : k + n ≤ BSIZE) (hn : n ≠ 0) : touched k n = 1 := by
  unfold touched
  rw [if_neg hn]
  unfold BSIZE at *
  omega

/-- An image with the root directory. The state is a variable so that nothing is evaluated. -/
theorem wp_makeRoot (hs : s = Mkfs.init)
    (hQ : ∀ g' s', Built [] s' g' → s'.freeblock ≤ nmeta + 4 → Q () s') :
    wp makeRoot Q (fun e _ => E e) s := by
  have hsect : s.sect = fun _ => zero := by rw [hs]; rfl
  have hnsect : s.nsect = 0 := by rw [hs]; rfl
  have hfi : s.freeinode = 1 := by rw [hs]; rfl
  have hfb : s.freeblock = nmeta := by rw [hs]; rfl
  clear hs
  unfold makeRoot
  generalize hl : range FSSIZE = l
  rw [range_eq_range'] at hl
  rw [wp_bind]
  refine wp_zero_sectors hl (Nat.zero_add FSSIZE).le hsect hnsect ?_
  rw [wp_bind]
  refine wp_wsect (by decide) ?_
  have hsect₀ : update s.sect 1 sbBlock = blank := by rw [hsect, blank]
  have hmax₀ : max (0 + FSSIZE) (1 + 1) = FSSIZE := by decide
  simp only [hsect₀, hmax₀]
  generalize hs₀ : (⟨blank, FSSIZE, s.freeinode, s.freeblock⟩ : Mkfs) = s₀
  have h₀ : Rep s₀ (blankImg s₀) ∅ ∅ := rep_blank (by rw [← hs₀]) (by rw [← hs₀]) (by rw [← hs₀, hfb])
  have hna : ∀ i, ¬ mkfsSb.Alive (blankImg s₀).X i := fun i ha =>
    ha.2.2 (type_blankImg (by rw [← hs₀]) ha.2.1)
  have hfi₀ : s₀.freeinode = ROOTINO := by rw [← hs₀, hfi]; rfl
  have hfb₀ : s₀.freeblock = nmeta := by rw [← hs₀, hfb]
  clear hs₀ hl
  rw [wp_bind]
  refine wp_ialloc h₀ (fun i hi => absurd hi (hna i)) (by rw [hfi₀]; decide) (by rw [hfi₀]; decide)
    (by decide) (by decide) fun g₁ s₁ h₁ ht₁ hn₁ hino₁ hfb₁ => ?_
  rw [hfi₀] at hn₁ hino₁ ⊢
  rw [wp_ite, if_neg (by decide), wp_bind]
  have hi₁ : g₁.node mkfsSb ROOTINO = some ⟨T_DIR, 0, 0, 1, []⟩ := by
    rw [hn₁, update_self]
  have hmeta : nmeta = 47 := by decide
  have hsize : FSSIZE = 2000 := rfl
  have hmax : MAXFILE * BSIZE = 274432 := rfl
  have hD : DESIZE = 16 := rfl
  have ht : ∀ k, k + DESIZE ≤ BSIZE → touched k DESIZE = 1 := fun k hk => touched_small hk (by decide)
  refine wp_iappend_node h₁ ht₁ hi₁ (fun e he => ?_) fun g₂ s₂ h₂ ht₂ hn₂ hino₂ hfb₂ => ?_
  · rw [length_dirent, ht _ (by decide)] at he
    simp only [length_nil] at he
    omega
  rw [length_dirent, ht _ (by decide)] at hfb₂
  have hi₂ : g₂.node mkfsSb ROOTINO = some ⟨T_DIR, 0, 0, 1, dirent dot ROOTINO⟩ := by
    rw [hn₂, update_self, nil_append]
  refine wp_iappend_node h₂ ht₂ hi₂ (fun e he => ?_) fun g₃ s₃ h₃ ht₃ hn₃ hino₃ hfb₃ => ?_
  · simp only [length_dirent] at he
    rw [ht _ (by decide)] at he
    omega
  simp only [length_dirent] at hfb₃
  rw [ht _ (by decide)] at hfb₃
  refine hQ g₃ s₃ ⟨h₃, ht₃, by rw [hino₃, hino₂, hino₁]; rfl, ?_⟩ (by omega)
  rw [hn₃, hn₂, hn₁, update_idem, update_idem]
  funext i
  by_cases e : i = ROOTINO
  · rw [e, update_self, builtNode_root]
    rfl
  · rw [update_of_ne e, node_of_not_alive (hna i), builtNode]
    simp [e]

/-! ## The whole program -/

/-- A name that was accepted. -/
def NameOk (a : Input) : Prop := (shortname a.path).length ≤ DIRSIZ ∧ slash ∉ shortname a.path

theorem wp_addFiles (rest : List Input) {as : List Input} (h : Built as s g)
    (hlen : as.length + rest.length + 2 ≤ NINODES)
    (hE : ∀ e, ((∀ a ∈ rest, Plain a) → FSSIZE < s.freeblock + 2 * rest.length) → E e)
    (hQ : ∀ g' s', Built (as ++ rest) s' g' → (∀ a ∈ rest, NameOk a) → Q () s') :
    wp (Prog.each addFile rest) Q (fun e _ => E e) s := by
  induction rest generalizing as s g with
  | nil =>
    refine hQ g s ?_ fun a ha => absurd ha not_mem_nil
    rwa [append_nil]
  | cons a rest ih =>
    rw [length_cons] at hlen
    rw [Prog.each, wp_bind]
    refine wp_addFile h (by omega) (fun e he => hE e fun hp => ?_) fun g₁ s₁ h₁ hshort hslash hfb₁ => ?_
    · have := he (hp a mem_cons_self)
      rw [length_cons]
      omega
    · refine ih h₁ (by rw [length_append, length_singleton]; omega) (fun e he => hE e fun hp => ?_)
        fun g' s' h' hok => hQ g' s' ?_ fun b hb => ?_
      · have h₁ := hfb₁ (hp a mem_cons_self)
        have h₂ := he fun b hb => hp b (mem_cons_of_mem _ hb)
        rw [length_cons]
        omega
      · rwa [append_assoc, singleton_append] at h'
      · rcases mem_cons.1 hb with rfl | hb
        · exact ⟨hshort, hslash⟩
        · exact hok b hb

/-- The root inode with its size rounded up. -/
def rounded (g : Img) : Dinode := (g.X ROOTINO).resize (((g.X ROOTINO).size / BSIZE + 1) * BSIZE)

/-- The volume at the end. -/
def final (g : Img) : Img := (g.setX ROOTINO (rounded g)).flush mkfsSb ROOTINO

/-- The root inode is stored with its new size, and the free map is written. -/
theorem wp_fixRoot (h : Rep s g ∅ ∅)
    (hQ : ∀ s', s'.sect = (final g).V → s'.freeinode = s.freeinode → s'.freeblock = s.freeblock →
      s'.sect 1 = sbBlock → Q () s') :
    wp fixRoot Q (fun e _ => E e) s := by
  have hr : ROOTINO < NINODES := by decide
  obtain ⟨h₁, h₂⟩ := h.iblock_lt hr
  have hroom := h.room
  have hbits : s.freeblock < BPB := by
    unfold FSSIZE at hroom
    unfold BPB
    omega
  have hV : s.sect (mkfsSb.iblock ROOTINO) = g.V (mkfsSb.iblock ROOTINO) := by
    rw [h.disk, disk_of_ne h₁.ne]
  unfold fixRoot
  rw [wp_bind]
  refine wp_rinode h hr (notMem_empty _) ?_
  rw [wp_bind]
  unfold winode
  rw [wp_bind]
  refine wp_rsect h.nsect (by omega) (wp_wsect (by omega) ?_)
  rw [wp_bind, wp_get]
  unfold balloc
  rw [if_pos hbits]
  refine wp_wsect (by decide) (hQ _ ?_ rfl rfl ?_)
  · simp only [final, Img.flush, Img.setX, update_self, hV]
    rw [h.disk, Mkfs.disk, update_comm h₁.ne']
    rfl
  · have : (1 : ℕ) ≠ mkfsSb.iblock ROOTINO ∧ 1 ≠ mkfsSb.bmapstart := by decide
    simp only
    rw [update_of_ne this.2, update_of_ne this.1, h.super]

/-- The state at the end, for at most as many files as there are inodes. -/
structure Finished (args : List Input) (s : Mkfs) : Prop where
  names : ∀ a ∈ args, NameOk a
  freeinode : s.freeinode = args.length + 2
  built : ∃ g s₁, Built args s₁ g ∧ s.sect = (final g).V ∧ s.freeblock = s₁.freeblock
  super : s.sect 1 = sbBlock

theorem wp_mkfs {args : List Input} (hs : s = Mkfs.init) (hlen : args.length + 2 ≤ NINODES)
    (hE : ∀ e, ¬ (∀ a ∈ args, Plain a) → E e) :
    wp (mkfs args) (fun _ s' => Finished args s') (fun e _ => E e) s := by
  unfold mkfs
  rw [wp_bind]
  refine wp_makeRoot hs fun g₁ s₁ h₁ hfb₁ => ?_
  rw [wp_bind]
  refine wp_addFiles args h₁ (by simpa using hlen) (fun e he => hE e fun hp => ?_) fun g₂ s₂ h₂ hok => ?_
  · have := he hp
    have : nmeta = 47 := by decide
    have : FSSIZE = 2000 := rfl
    have : NINODES = 200 := rfl
    omega
  · refine wp_fixRoot h₂.rep fun s₃ hV hino hfb hsb => ⟨hok, ?_, ⟨g₂, s₂, h₂, hV, hfb⟩, hsb⟩
    rw [hino, h₂.freeinode, nil_append]

end Mkfs

end Xv6
