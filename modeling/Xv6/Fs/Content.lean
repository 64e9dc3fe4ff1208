import Xv6.Fs.Itable

/-!
# The block map of an inode

`bmap` finds the block of an inode, or allocates it and stores it in an empty place; `itrunc` gives all
blocks of an inode back. `Maps sb g i g'` says that the block map of the inode `i` grew from `g` to
`g'`, and that no block that an inode had moved or changed.
-/

namespace Xv6

open RedoLog Function Prog Img Set Dinode Bytes Fin

/-- The state with a new store and a new copy of the inode of the entry `e`. -/
def Fs.put (s : Fs) (st : Store) (e : Iptr) (x : Dinode) : Fs :=
  { s with store := st, inode := update s.inode e { s.inode e with d := x } }

theorem Fs.put_self (s : Fs) (st : Store) (e : Iptr) {x : Dinode} (h : (s.inode e).d = x) :
    s.put st e x = { s with store := st } := by
  subst h
  simp [put]

@[simp] theorem Fs.put_inode_self (s : Fs) (st : Store) (e : Iptr) (x : Dinode) :
    (s.put st e x).inode e = { s.inode e with d := x } := update_self ..

/-- The fields of an inode other than the addresses are the same. -/
structure SameMeta (x y : Dinode) : Prop where
  type : y.type = x.type
  major : y.major = x.major
  minor : y.minor = x.minor
  nlink : y.nlink = x.nlink
  size : y.size = x.size

theorem SameMeta.refl (x : Dinode) : SameMeta x x := ⟨rfl, rfl, rfl, rfl, rfl⟩

theorem SameMeta.trans {x y z : Dinode} (h : SameMeta x y) (h' : SameMeta y z) : SameMeta x z :=
  ⟨h'.type.trans h.type, h'.major.trans h.major, h'.minor.trans h.minor, h'.nlink.trans h.nlink,
    h'.size.trans h.size⟩

/-- The block map of the inode `i` grew. -/
structure Maps (sb : Superblock) (g : Img) (i : ℕ) (g' : Img) : Prop where
  other : ∀ j ≠ i, g'.X j = g.X j
  self : SameMeta (g.X i) (g'.X i)
  block : ∀ j, sb.Alive g.X j → ∀ bn < MAXFILE, blockAt g.V (g.X j) bn ≠ 0 →
    blockAt g'.V (g'.X j) bn = blockAt g.V (g.X j) bn ∧
      g'.V (blockAt g.V (g.X j) bn) = g.V (blockAt g.V (g.X j) bn)
  dirty : g'.D ⊆ g.D

namespace Maps

variable {sb : Superblock} {g g' g'' : Img} {i : ℕ}

theorem refl (sb : Superblock) (g : Img) (i : ℕ) : Maps sb g i g :=
  ⟨fun _ _ => rfl, .refl _, fun _ _ _ _ _ => ⟨rfl, rfl⟩, le_refl _⟩

theorem type_eq (h : Maps sb g i g') (j : ℕ) : (g'.X j).type = (g.X j).type := by
  by_cases e : j = i
  · rw [e, h.self.type]
  · rw [h.other j e]

theorem size_eq (h : Maps sb g i g') (j : ℕ) : (g'.X j).size = (g.X j).size := by
  by_cases e : j = i
  · rw [e, h.self.size]
  · rw [h.other j e]

theorem alive_iff (h : Maps sb g i g') {j : ℕ} : sb.Alive g'.X j ↔ sb.Alive g.X j := by
  simp only [Superblock.Alive, h.type_eq]

theorem trans (h : Maps sb g i g') (h' : Maps sb g' i g'') : Maps sb g i g'' where
  other j hj := (h'.other j hj).trans (h.other j hj)
  self := h.self.trans h'.self
  block j hj bn hbn h0 := by
    obtain ⟨h₁, h₂⟩ := h.block j hj bn hbn h0
    have := h'.block j (h.alive_iff.2 hj) bn hbn (by rw [h₁]; exact h0)
    rw [h₁] at this
    exact ⟨this.1, this.2.trans h₂⟩
  dirty := h'.dirty.trans h.dirty

end Maps

section Attach

variable {sb : Superblock} {g : Img} {F U : Set ℕ} {t i b : ℕ} {L : List ℕ} {st : Store}

theorem Vol.mono (h : Vol sb g F U t L st) {U' : Set ℕ} (hU : U ⊆ U') : Vol sb g F U' t L st :=
  { h with sync := fun i hi hm => h.sync i hi fun hm' => hm (hU hm') }

/-- The blocks that `balloc` touches are not blocks of inodes. -/
theorem Vol.maps_alloc (h : Vol sb g F U t L st) (hb : b ∈ sb.data) (hu : ¬ sb.Used g.V b) (i : ℕ) :
    Maps sb g i (g.alloc sb b) where
  other _ _ := rfl
  self := .refl _
  block j hj bn hbn h0 := by
    have hd : blockAt g.V (g.X j) bn ∈ sb.data := by
      rw [← refAt_dataPlace hj hbn] at h0 ⊢
      exact h.own.ledger.range _ h0
    have hne : blockAt g.V (g.X j) bn ≠ b := by
      rw [← refAt_dataPlace hj hbn]
      exact h.own.ledger.ref_ne_of_not_used hb hu _
    refine ⟨blockAt_congr fun hi => ?_, alloc_V hb.2 (.inr hd.1) hne⟩
    refine alloc_V hb.2 (.inr (h.own.indirect_mem hj hi).1) ?_
    change (g.X j).indirect ≠ b
    rw [← refAt_indirect (V := g.V) hj]
    exact h.own.ledger.ref_ne_of_not_used hb hu _
  dirty := sdiff_subset

/-- The volume after a floating block was stored in an empty place. -/
theorem Vol.attach (h : Vol sb g F U t L st) {g' : Img} {p : Place} {U' : Set ℕ} {L' : List ℕ}
    {st' : Store} (hs : Shows sb.logstart g'.V g'.D t L' st') (hb : b ∈ F) (hbD : b ∉ g.D)
    (hp : refAt sb g.V g.X p = 0)
    (hr : refAt sb g'.V g'.X = update (refAt sb g.V g.X) p b)
    (hu : ∀ c < sb.size, sb.Used g'.V c ↔ sb.Used g.V c) (hm : Maps sb g i g')
    (hf : ∀ j < sb.ninodes, (g'.X j).Fits)
    (hsync : ∀ j < sb.ninodes, j ∉ U' → Dinode.read (g'.V (sb.iblock j)) j = g'.X j) :
    Vol sb g' (F \ {b}) U' t L' st' where
  shows := hs
  own := {
    ledger := by
      rw [hr]
      exact (h.own.ledger.attach hp hb).congr fun c hc => hu c hc.2
    reserved := fun c hc hcs => (hu c hcs).2 (h.own.reserved c hc hcs)
    full := fun j hj bn hbn => by
      have hj' := hm.alive_iff.1 hj
      rw [hm.size_eq] at hbn
      have h0 := h.own.full j hj' bn hbn
      have hlt : bn < MAXFILE := by
        have := h.own.size_le j hj'
        by_contra hge
        have := Nat.mul_le_mul_right BSIZE (Nat.le_of_not_lt hge)
        omega
      rw [(hm.block j hj' bn hlt h0).1]
      exact h0
    size_le := fun j hj => by
      rw [hm.size_eq]
      exact h.own.size_le j (hm.alive_iff.1 hj)
    fits := hf }
  dirty c hc := by
    obtain ⟨h₁, h₂⟩ := h.dirty c (hm.dirty hc)
    refine ⟨h₁, fun q hq => ?_⟩
    rw [hr]
    by_cases e : q = p
    · rw [e, update_self]
      exact fun e' => hbD (e' ▸ hm.dirty hc)
    · rw [update_of_ne e]
      refine h₂ q (hq.imp_left fun hd => ?_)
      rw [← hm.type_eq]
      exact hd
  sync := hsync

/-- Store a block in a slot of `addrs`. -/
def Dinode.setAddr (x : Dinode) (k : Fin (NDIRECT + 1)) (b : ℕ) : Dinode :=
  { x with addrs := update x.addrs k b }

theorem Dinode.setAddr_addrs (x : Dinode) (k k' : Fin (NDIRECT + 1)) (b : ℕ) :
    (x.setAddr k b).addrs k' = if k' = k then b else x.addrs k' := update_apply ..

theorem alive_setAddr (k : Fin (NDIRECT + 1)) (b j : ℕ) :
    sb.Alive (update g.X i ((g.X i).setAddr k b)) j ↔ sb.Alive g.X j := by
  unfold Superblock.Alive
  by_cases e : j = i
  · rw [e, update_self]
    rfl
  · rw [update_of_ne e]

/-- After a block was stored in an empty slot only the slot refers to another block than before. A new
indirect block must be zero: it has no entries yet. -/
theorem refAt_setAddr (hi : sb.Alive g.X i) {k : Fin (NDIRECT + 1)} (hk : (g.X i).addrs k = 0)
    (hz : g.V b = zero) : refAt sb g.V (update g.X i ((g.X i).setAddr k b)) =
      update (refAt sb g.V g.X) (.slot i k) b := by
  set x := (g.X i).setAddr k b with hx
  have hXi : update g.X i x i = x := update_self ..
  have halive : ∀ j, sb.Alive (update g.X i x) j ↔ sb.Alive g.X j := alive_setAddr k b
  funext p
  by_cases e : p.inum = i
  swap
  · rw [refAt_congr_inode (update_of_ne e ..), update_of_ne (fun hp => e (by rw [hp]; rfl))]
  cases p with
  | slot j k' =>
    obtain rfl : j = i := e
    simp only [refAt]
    rw [if_pos ((halive j).2 hi), hXi, hx, setAddr_addrs]
    by_cases ek : k' = k
    · rw [if_pos ek, ek, update_self]
    · rw [if_neg ek, update_of_ne (by simpa using ek), refAt, if_pos hi]
  | entry j m =>
    obtain rfl : j = i := e
    rw [update_of_ne (by simp)]
    simp only [refAt, halive]
    rw [hXi]
    have e₁ : x.indirect = if Fin.last NDIRECT = k then b else (g.X j).indirect := setAddr_addrs ..
    by_cases ek : Fin.last NDIRECT = k
    · have h0 : ¬ (sb.Alive g.X j ∧ (g.X j).indirect ≠ 0) := fun hh => hh.2 (by
        rw [Dinode.indirect, ek]
        exact hk)
      rw [e₁, if_pos ek, hz, rdle_zero, ite_self, if_neg h0]
    · rw [e₁, if_neg ek]

/-- A floating block is stored in an empty slot; an indirect block must be zero. -/
theorem Vol.attach_slot (h : Vol sb g F U t L st) (hsb : sb.Ok) (hi : sb.Alive g.X i)
    {k : Fin (NDIRECT + 1)} (hk : (g.X i).addrs k = 0) (hb : b ∈ F) (hbD : b ∉ g.D)
    (hz : g.V b = zero) :
    Vol sb (g.setX i ((g.X i).setAddr k b)) (F \ {b}) (insert i U) t L st ∧
      Maps sb g i (g.setX i ((g.X i).setAddr k b)) := by
  have hr : refAt sb g.V _ = _ := refAt_setAddr hi hk hz
  set x := (g.X i).setAddr k b with hx
  have hbd := (h.own.ledger.float b hb).1
  have hX : ∀ j ≠ i, update g.X i x j = g.X j := fun j hj => update_of_ne hj _ _
  have hXi : update g.X i x i = x := update_self ..
  have hm : Maps sb g i (g.setX i x) := by
    refine ⟨fun j hj => hX j hj, ?_, fun j hj bn hbn h0 => ⟨?_, rfl⟩, le_refl _⟩
    · simp only [Img.setX, hXi]
      exact ⟨rfl, rfl, rfl, rfl, rfl⟩
    · have hj' := (alive_setAddr (i := i) k b j).2 hj
      rw [← refAt_dataPlace (X := (g.setX i x).X) hj' hbn, ← refAt_dataPlace hj hbn]
      rw [← refAt_dataPlace hj hbn] at h0
      simp only [Img.setX, hr]
      refine update_of_ne (fun e => h0 ?_) _ _
      rw [e, refAt, if_pos hi, hk]
  refine ⟨h.attach (p := .slot i k) h.shows hb hbD ?_ hr (fun _ _ => Iff.rfl) hm (fun j hj => ?_)
    fun j hj hU => ?_, hm⟩
  · rw [refAt, if_pos hi, hk]
  · simp only [Img.setX]
    by_cases e : j = i
    · subst e
      rw [hXi]
      have := h.own.fits j hj
      refine ⟨this.type, this.major, this.minor, this.nlink, this.size, fun k' => ?_⟩
      rw [hx, setAddr_addrs]
      split
      · have := hbd.2
        have := hsb.size
        omega
      · exact this.addrs k'
    · rw [hX j e]
      exact h.own.fits j hj
  · rw [mem_insert_iff, not_or] at hU
    simp only [Img.setX, hX j hU.1]
    exact h.sync j hj hU.2

/-- Store a block in an entry of the indirect block of an inode. -/
def Img.setEntry (g : Img) (a j b : ℕ) : Img :=
  { g with V := update g.V a (Bytes.wrle (g.V a) (4 * j) b 4), D := g.D \ {a} }

theorem Img.setEntry_V_self (g : Img) (a j b : ℕ) :
    (g.setEntry a j b).V a = wrle (g.V a) (4 * j) b 4 := update_self ..

theorem Img.setEntry_V_of_ne (g : Img) {a c : ℕ} (j b : ℕ) (h : c ≠ a) :
    (g.setEntry a j b).V c = g.V c := update_of_ne h _ _

theorem Vol.place_of_indirect (h : Vol sb g F U t L st) (hi : sb.Alive g.X i) (ha : (g.X i).indirect ≠ 0)
    {p : Place} (hp : refAt sb g.V g.X p = (g.X i).indirect) : p = .slot i (last NDIRECT) :=
  h.own.ledger.inj _ _ (by rw [hp, refAt_indirect hi]) (by rw [hp]; exact ha)

/-- After a block was stored in an entry of the indirect block only the entry refers to another block than
before. -/
theorem Vol.refAt_setEntry (h : Vol sb g F U t L st) (hi : sb.Alive g.X i) (ha : (g.X i).indirect ≠ 0)
    {j : Fin NINDIRECT} (hb32 : b < 2 ^ 32) :
    refAt sb (g.setEntry (g.X i).indirect j b).V g.X = update (refAt sb g.V g.X) (.entry i j) b := by
  set a := (g.X i).indirect with hadef
  funext p
  cases p with
  | slot i' k => rw [update_of_ne (by simp)]; rfl
  | entry i' m =>
    by_cases e : i' = i
    · subst e
      simp only [refAt]
      rw [if_pos ⟨hi, ha⟩, ← hadef, setEntry_V_self]
      by_cases em : m = j
      · have : (4 : ℕ) * j.val + 4 ≤ BSIZE := by
          have := j.isLt
          unfold NINDIRECT at this
          unfold BSIZE
          omega
        rw [em, update_self, rdle_wrle_self _ _ this]
        exact Nat.mod_eq_of_lt (by omega)
      · have : m.val ≠ j.val := fun hh => em (Fin.ext hh)
        rw [update_of_ne (by simpa using em), rdle_wrle_of_disjoint _ _ (by omega),
          refAt, if_pos ⟨hi, ha⟩]
    · rw [update_of_ne (by simp [e])]
      simp only [refAt]
      by_cases h0 : sb.Alive g.X i' ∧ (g.X i').indirect ≠ 0
      · rw [if_pos h0, if_pos h0, g.setEntry_V_of_ne _ _ fun hh => ?_]
        have := h.place_of_indirect hi ha (p := .slot i' (last NDIRECT))
          (by rw [refAt_indirect h0.1, hh])
        simp only [Place.slot.injEq] at this
        exact e this.1
      · rw [if_neg h0, if_neg h0]

/-- A floating block is stored in an empty entry of the indirect block. -/
theorem Vol.attach_entry (h : Vol sb g F U t L st) (hsb : sb.Ok) (hi : sb.Alive g.X i)
    (ha : (g.X i).indirect ≠ 0) {j : Fin NINDIRECT}
    (hj : rdle (g.V (g.X i).indirect) (4 * j) 4 = 0) (hb : b ∈ F) (hbD : b ∉ g.D)
    {L' : List ℕ} {st' : Store}
    (hs : Shows sb.logstart (g.setEntry (g.X i).indirect j b).V
      (g.setEntry (g.X i).indirect j b).D t L' st') :
    Vol sb (g.setEntry (g.X i).indirect j b) (F \ {b}) U t L' st' ∧
      Maps sb g i (g.setEntry (g.X i).indirect j b) := by
  have hbd := (h.own.ledger.float b hb).1
  have had := h.own.indirect_mem hi ha
  have hr := h.refAt_setEntry hi ha (j := j) (b := b) (by
    have := hbd.2
    have := hsb.size
    omega)
  set a := (g.X i).indirect with hadef
  have hV : ∀ c ≠ a, (g.setEntry a j b).V c = g.V c := fun c hc => g.setEntry_V_of_ne j b hc
  have hm : Maps sb g i (g.setEntry a j b) := by
    refine ⟨fun _ _ => rfl, .refl _, fun i' hi' bn hbn h0 => ⟨?_, ?_⟩, sdiff_subset⟩
    · rw [← refAt_dataPlace (X := (g.setEntry a j b).X) hi' hbn, ← refAt_dataPlace hi' hbn]
      rw [← refAt_dataPlace hi' hbn] at h0
      rw [show (g.setEntry a j b).X = g.X from rfl, hr]
      refine update_of_ne (fun e => h0 ?_) _ _
      rw [e, refAt, if_pos ⟨hi, ha⟩, ← hadef, hj]
    · refine hV _ fun e => ?_
      rw [← refAt_dataPlace hi' hbn] at e
      have hp := h.place_of_indirect hi ha e
      have hinum : i' = i := by
        have := congrArg Place.inum hp
        rwa [dataPlace_inum] at this
      exact dataPlace_ne_indirect (hinum ▸ hp)
  have hmeta : ∀ c, c < sb.datastart → (g.setEntry a j b).V c = g.V c := fun c hc =>
    hV c fun e => absurd had.1 (by omega)
  refine ⟨h.attach (p := .entry i j) hs hb hbD ?_ hr (fun c hc => ?_) hm h.own.fits fun i' hi' hU => ?_,
    hm⟩
  · rw [refAt, if_pos ⟨hi, ha⟩, ← hadef, hj]
  · unfold Superblock.Used
    rw [hmeta _ (sb.bblock_lt hc)]
  · rw [hmeta _ ((hsb.iblock_lt hi').trans sb.bmapstart_lt)]
    exact h.sync i' hi' hU

end Attach

/-! ## `bmap` -/

/-- The entry `e` holds the current copy of the allocated inode `i`. -/
structure Loaded (sb : Superblock) (g : Img) (s : Fs) (e : Iptr) (i : ℕ) : Prop where
  inum : (s.inode e).inum = i
  copy : (s.inode e).d = g.X i
  alive : sb.Alive g.X i

section Bmap

variable {sb : Superblock} {g : Img} {F U : Set ℕ} {t i bn : ℕ} {L : List ℕ} {st : Store} {s : Fs}
  {e : Iptr} {P : Panic → Prop} {Q : ℕ → Fs → Prop}

/-- What reads rely on: the blocks that inodes refer to are data blocks, and the indirect blocks and the
blocks of directories are shown as they are. -/
structure Legible (sb : Superblock) (g : Img) : Prop where
  range : ∀ p, refAt sb g.V g.X p ≠ 0 → refAt sb g.V g.X p ∈ sb.data
  guarded : ∀ p, p.Guarded g.X → refAt sb g.V g.X p ∉ g.D

theorem Vol.legible (h : Vol sb g F U t L st) : Legible sb g :=
  ⟨h.own.ledger.range, fun p hp hm => (h.dirty _ hm).2 p hp rfl⟩

theorem Legible.indirect_mem (h : Legible sb g) (hi : sb.Alive g.X i) (h0 : (g.X i).indirect ≠ 0) :
    (g.X i).indirect ∈ sb.data := by
  have := h.range (.slot i (last NDIRECT))
  rw [refAt_indirect hi] at this
  exact this h0

theorem Legible.indirect_not_mem (h : Legible sb g) (hi : sb.Alive g.X i) : (g.X i).indirect ∉ g.D := by
  have := h.guarded (.slot i (last NDIRECT)) (.inr rfl)
  rwa [refAt_indirect hi] at this

theorem Legible.block_mem (h : Legible sb g) (hi : sb.Alive g.X i) (hbn : bn < MAXFILE)
    (h0 : blockAt g.V (g.X i) bn ≠ 0) : blockAt g.V (g.X i) bn ∈ sb.data := by
  rw [← refAt_dataPlace hi hbn] at h0 ⊢
  exact h.range _ h0

theorem Vol.indirect_not_mem (h : Vol sb g F U t L st) (hi : sb.Alive g.X i) :
    (g.X i).indirect ∉ g.D := h.legible.indirect_not_mem hi

theorem Vol.block_mem (h : Vol sb g F U t L st) (hi : sb.Alive g.X i) (hbn : bn < MAXFILE)
    (h0 : blockAt g.V (g.X i) bn ≠ 0) : blockAt g.V (g.X i) bn ∈ sb.data := h.legible.block_mem hi hbn h0

/-- A block that is there is found, and nothing changes. -/
theorem wp_bmap_hit (hsb : sb.Ok) (hl : Legible sb g)
    (hP : s.store.bufs.length ≤ L.length + s.store.lh.length → P .noBuffers)
    (h : Shows sb.logstart g.V g.D t L s.store)
    (he : Loaded sb g s e i) (hbn : bn < MAXFILE) (h0 : blockAt g.V (g.X i) bn ≠ 0)
    (hQ : ∀ st', Shows sb.logstart g.V g.D t L st' → Reads s.store.lh s.store st' →
      Q (blockAt g.V (g.X i) bn) { s with store := st' }) :
    wp (bmap sb e bn) Q (fun e _ => P e) s := by
  unfold bmap getInode
  simp only [wp_bind, wp_get, wp_pure, he.copy]
  unfold blockAt at h0 hQ
  by_cases hd : bn < NDIRECT
  · rw [dif_pos hd] at h0 hQ
    rw [dif_pos hd, wp_ite, if_neg h0, wp_pure]
    exact hQ s.store h (.refl ..)
  · rw [dif_neg hd] at h0 hQ
    have hlt : bn - NDIRECT < NINDIRECT := by
      unfold MAXFILE at hbn
      unfold NDIRECT NINDIRECT at *
      omega
    rw [dif_neg hd, if_pos hlt]
    have ha : (g.X i).indirect ≠ 0 := fun e => h0 (if_pos e)
    rw [if_neg ha] at h0 hQ
    have ha' : ¬ (g.X i).addrs (last NDIRECT) = 0 := ha
    simp only [wp_bind, wp_pure, if_neg ha', wp_disk]
    refine h.wp_bread_reads hP fun d st₁ h₁ r₁ _ hd => ?_
    rw [hd (hsb.home_data (hl.indirect_mem he.alive ha)) (hl.indirect_not_mem he.alive), if_neg h0]
    simp only [wp_bind, wp_disk, wp_pure]
    refine h₁.wp_brelse_reads fun st₂ h₂ r₂ _ => hQ st₂ h₂ (r₁.trans ?_)
    rw [← r₁.lh]
    exact r₂

theorem wp_slot (hsb : sb.Ok) (hP : Tolerant P) (h : Vol sb g ∅ U t L s.store)
    (he : Loaded sb g s e i) (k : Fin (NDIRECT + 1))
    (hQ : ∀ g' st', Vol sb g' ∅ (insert i U) t L st' → Maps sb g i g' →
      ((g.X i).addrs k ≠ 0 → g' = g) →
      ((g.X i).addrs k = 0 → (g'.X i).addrs k ≠ 0 → g'.V ((g'.X i).addrs k) = zero) →
      Q ((g'.X i).addrs k) (s.put st' e (g'.X i))) :
    wp (if (g.X i).addrs k = 0 then do
        let addr ← balloc sb
        if addr = 0 then pure 0
        else
          setDinode e fun d => { d with addrs := update d.addrs k addr }
          pure addr
      else pure ((g.X i).addrs k)) Q (fun e _ => P e) s := by
  have hU : U ⊆ insert i U := subset_insert ..
  by_cases hk : (g.X i).addrs k = 0
  · rw [if_pos hk, wp_bind]
    refine wp_balloc hsb hP h (fun st₁ h₁ => ?_) fun b hb hu st₁ h₁ => ?_
    · have := hQ g st₁ (h₁.mono hU) (.refl ..) (fun hne => absurd hk hne) fun _ hne => absurd hk hne
      rw [s.put_self st₁ e he.copy, hk] at this
      exact this
    · have hb0 : b ≠ 0 := hsb.ne_zero hb
      rw [if_neg hb0]
      simp only [setDinode, wp_bind, wp_modify, wp_pure]
      obtain ⟨h₂, m₂⟩ := h₁.attach_slot hsb (i := i) he.alive hk (mem_insert ..)
        (fun hm => hm.2 rfl) alloc_V_self
      rw [insert_sdiff_self_of_notMem (notMem_empty b)] at h₂
      have hX : ((g.alloc sb b).setX i (((g.alloc sb b).X i).setAddr k b)).X i =
          (g.X i).setAddr k b := update_self ..
      have hr : ((g.X i).setAddr k b).addrs k = b := by rw [setAddr_addrs, if_pos rfl]
      have := hQ _ st₁ h₂ ((h.maps_alloc hb hu i).trans m₂) (fun hne => absurd hk hne) fun _ _ => by
        rw [hX, hr]
        exact alloc_V_self
      rw [hX, hr] at this
      convert this using 1
      simp [Fs.put, Fs.setInode, he.copy, setAddr]
  · rw [if_neg hk]
    have := hQ g s.store (h.mono hU) (.refl ..) (fun _ => rfl) fun h0 => absurd h0 hk
    rw [s.put_self s.store e he.copy] at this
    exact this

/-- `bmap` returns the block of the inode, which it may have allocated, or 0. -/
theorem wp_bmap (hsb : sb.Ok) (hP : Tolerant P) (h : Vol sb g ∅ U t L s.store)
    (he : Loaded sb g s e i) (hbn : bn < MAXFILE)
    (hQ : ∀ g' st', Vol sb g' ∅ (insert i U) t L st' → Maps sb g i g' →
      (blockAt g.V (g.X i) bn = 0 → blockAt g'.V (g'.X i) bn ≠ 0 →
        g'.V (blockAt g'.V (g'.X i) bn) = zero) →
      Q (blockAt g'.V (g'.X i) bn) (s.put st' e (g'.X i))) :
    wp (bmap sb e bn) Q (fun e _ => P e) s := by
  unfold bmap getInode
  simp only [wp_bind, wp_get, wp_pure, he.copy]
  by_cases hd : bn < NDIRECT
  · have hbk : ∀ V x, blockAt V x bn = x.addrs ⟨bn, by omega⟩ := fun V x => dif_pos hd
    rw [dif_pos hd]
    refine wp_slot hsb hP h he _ fun g' st' h' m' hg hz => ?_
    have := hQ g' st' h' m'
    simp only [hbk] at this
    exact this hz
  · have hlt : bn - NDIRECT < NINDIRECT := by
      unfold MAXFILE at hbn
      unfold NDIRECT NINDIRECT at *
      omega
    rw [dif_neg hd, if_pos hlt, wp_bind]
    refine wp_slot hsb hP h he _ fun g₁ st₁ h₁ m₁ hg hz => ?_
    have hb₁ : blockAt g.V (g.X i) bn = if (g.X i).indirect = 0 then 0 else
        rdle (g.V (g.X i).indirect) (4 * (bn - NDIRECT)) 4 := dif_neg hd
    have hb₂ : blockAt g₁.V (g₁.X i) bn = if (g₁.X i).indirect = 0 then 0 else
        rdle (g₁.V (g₁.X i).indirect) (4 * (bn - NDIRECT)) 4 := dif_neg hd
    by_cases ha : (g₁.X i).addrs (Fin.last NDIRECT) = 0
    · rw [if_pos ha]
      have e₂ : blockAt g₁.V (g₁.X i) bn = 0 := by rw [hb₂, if_pos ha]
      have := hQ g₁ st₁ h₁ m₁ fun _ hne => absurd e₂ hne
      rw [e₂] at this
      exact this
    · have hi₁ := m₁.alive_iff.2 he.alive
      rw [if_neg ha]
      rw [if_neg ha] at hb₂
      simp only [wp_bind, wp_disk]
      refine h₁.shows.wp_bread (hsb.home_data (h₁.own.indirect_mem hi₁ ha))
        (h₁.indirect_not_mem hi₁) (fun _ => hP _ (by decide) (by decide) (by decide)) fun st₂ h₂ => ?_
      have h₂' : Vol sb g₁ ∅ (insert i U) t ((g₁.X i).indirect :: L) st₂ := { h₁ with shows := h₂ }
      by_cases h0 : rdle (g₁.V (g₁.X i).indirect) (4 * (bn - NDIRECT)) 4 = 0
      · rw [if_pos h0, wp_bind]
        refine wp_balloc hsb hP h₂' (fun st₃ h₃ => ?_) fun b hb hu st₃ h₃ => ?_
        · rw [if_pos rfl]
          simp only [wp_bind, wp_disk, wp_pure]
          refine h₃.shows.wp_brelse fun st₄ h₄ _ => ?_
          have := hQ g₁ st₄ { h₃ with shows := h₄ } m₁ fun _ hne => absurd (hb₂.trans h0) hne
          rw [hb₂, h0] at this
          exact this
        · rw [if_neg (hsb.ne_zero hb)]
          simp only [wp_bind, wp_disk, wp_pure]
          have had := h₁.own.indirect_mem hi₁ ha
          have hab : (g₁.X i).indirect ≠ b := by
            have := h₁.own.ledger.ref_ne_of_not_used hb hu (.slot i (Fin.last NDIRECT))
            rwa [refAt_indirect hi₁] at this
          have hVa : (g₁.alloc sb b).V (g₁.X i).indirect = g₁.V (g₁.X i).indirect :=
            alloc_V hb.2 (.inr had.1) hab
          refine h₃.shows.wp_update (hsb.home_data had) (fun _ => hP _ (by decide) (by decide) (by decide))
            (fun _ => hP _ (by decide) (by decide) (by decide)) fun st₄ h₄ => ?_
          rw [← hVa] at h₄ h0
          obtain ⟨h₅, m₅⟩ := h₃.attach_entry hsb (i := i) (j := ⟨bn - NDIRECT, hlt⟩) hi₁ ha h0
            (mem_insert ..) (fun hm => hm.2 rfl) h₄
          rw [insert_sdiff_self_of_notMem (notMem_empty b)] at h₅
          have hr : blockAt ((g₁.alloc sb b).setEntry (g₁.X i).indirect (bn - NDIRECT) b).V
              (g₁.X i) bn = b := by
            have hfit : 4 * (bn - NDIRECT) + 4 ≤ BSIZE := by
              unfold NINDIRECT at hlt
              unfold BSIZE
              omega
            have hb32 : b < 256 ^ 4 := by
              have := hb.2
              have := hsb.size
              omega
            rw [blockAt, dif_neg hd, if_neg ha, setEntry_V_self,
              rdle_wrle_self _ _ hfit, Nat.mod_eq_of_lt hb32]
          have := hQ _ st₄ h₅ ((m₁.trans (h₁.maps_alloc hb hu i)).trans m₅) fun _ _ => by
            change ((g₁.alloc sb b).setEntry (g₁.X i).indirect (bn - NDIRECT) b).V (blockAt
              ((g₁.alloc sb b).setEntry (g₁.X i).indirect (bn - NDIRECT) b).V (g₁.X i) bn) = _
            rw [hr, setEntry_V_of_ne _ _ _ hab.symm]
            exact alloc_V_self
          change Q (blockAt ((g₁.alloc sb b).setEntry (g₁.X i).indirect (bn - NDIRECT) b).V
            (g₁.X i) bn) _ at this
          rw [hr] at this
          exact this
      · rw [if_neg h0]
        simp only [wp_bind, wp_disk, wp_pure]
        refine h₂.wp_brelse fun st₃ h₃ _ => ?_
        have := hQ g₁ st₃ { h₁ with shows := h₃ } m₁ ?_
        · rw [hb₂] at this
          exact this
        · -- the entry was there before
          intro hz₀ _
          exfalso
          by_cases ha₀ : (g.X i).indirect = 0
          · exact h0 (by rw [hz ha₀ ha, rdle_zero])
          · rw [hb₁, if_neg ha₀, ← hg ha₀] at hz₀
            exact h0 hz₀

end Bmap

end Xv6
