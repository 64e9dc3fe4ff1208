import Xv6.Fs.Current

/-!
# Looking up names

A `Reader` is a kernel state in which the inode table agrees with an image that can be read. Getting,
locking and putting inodes that stay allocated, and searching a directory, change only the reference
counts, the copies in the table and the cache.
-/

namespace Xv6

open Function Prog List

variable {Q : Unit → Fs → Prop}

open RedoLog

/-- The entry `k` of a directory. -/
def Img.entry (g : Img) (i k : ℕ) : List UInt8 := ((g.bytes i).drop (DESIZE * k)).take DESIZE

/-- The directory entry is used and has the name. -/
def Hit (name de : List UInt8) : Prop := direntInum de ≠ 0 ∧ direntName de = cstr name

instance (name de : List UInt8) : Decidable (Hit name de) := inferInstanceAs (Decidable (_ ∧ _))

variable {sb : Superblock} {g : Img} {t i inum : ℕ} {L : List ℕ} {s : Fs} {e : Iptr} {P : Panic → Prop}

/-! ## Directories -/

/-- The bytes of the entries are there up to the first one with the name, if there is one. -/
def Searchable (g : Img) (i a n : ℕ) (name : List UInt8) : Prop :=
  ∀ k, a ≤ k → k < a + n → (∀ k', a ≤ k' → k' < k → ¬ Hit name (g.entry i k')) →
    DESIZE * k + DESIZE ≤ (g.X i).size ∧ DESIZE * k / BSIZE < MAXFILE ∧
      blockAt g.V (g.X i) (DESIZE * k / BSIZE) ≠ 0

theorem Searchable.tail {a n : ℕ} {name : List UInt8} (h : Searchable g i a (n + 1) name)
    (hno : ¬ Hit name (g.entry i a)) : Searchable g i (a + 1) n name := by
  intro k h₁ h₂ hk
  refine h k (by omega) (by omega) fun k' h₃ h₄ => ?_
  by_cases e : k' = a
  · rwa [e]
  · exact hk k' (by omega) h₄

theorem wp_readEntry {k : ℕ} {Q : ℤ × List UInt8 → Fs → Prop} (hsb : sb.Ok) (hl : Legible sb g)
    (hP : s.store.bufs.length ≤ L.length + s.store.lh.length → P .noBuffers)
    (h : Shows sb.logstart g.V g.D t L s.store) (he : Loaded sb g s e i) (hd : (g.X i).type = T_DIR)
    (hk : DESIZE * k + DESIZE ≤ (g.X i).size ∧ DESIZE * k / BSIZE < MAXFILE ∧
      blockAt g.V (g.X i) (DESIZE * k / BSIZE) ≠ 0)
    (hQ : ∀ st', Shows sb.logstart g.V g.D t L st' → Reads s.store.lh s.store st' →
      Q (DESIZE, g.entry i k) { s with store := st' }) :
    wp (readi sb e .kernel (DESIZE * k) DESIZE) Q (fun e _ => P e) s := by
  obtain ⟨hsize, hmax, hblk⟩ := hk
  refine wp_readi hsb hl hP h he (fun o h₁ h₂ _ => ?_) fun st' r bs h' r' hr => ?_
  · -- an entry lies in one block
    have : o / BSIZE = DESIZE * k / BSIZE := by
      unfold BSIZE DESIZE at *
      omega
    rw [this]
    exact ⟨hmax, hblk⟩
  · have hlt : DESIZE * k + DESIZE < 2 ^ 32 := by
      unfold BSIZE DESIZE MAXFILE at *
      omega
    obtain ⟨hbs, hlen⟩ := hr (Dst.accepts_kernel _) (.inl hd) hlt
    have : bs.length = DESIZE := by
      rw [hbs, length_take, length_drop, Img.length_bytes]
      omega
    rw [this] at hlen
    rw [hlen, hbs]
    exact hQ st' h' r'

theorem wp_dirlookupLoop {a n : ℕ} {name : List UInt8} {Q : Option (Iptr × ℕ) → Fs → Prop} (hsb : sb.Ok)
    (hl : Legible sb g) (hP : s.store.bufs.length ≤ L.length + s.store.lh.length → P .noBuffers)
    (h : Shows sb.logstart g.V g.D t L s.store) (he : Loaded sb g s e i) (hd : (g.X i).type = T_DIR)
    (hs : Searchable g i a n name)
    (hnone : (∀ k, a ≤ k → k < a + n → ¬ Hit name (g.entry i k)) → ∀ st',
      Shows sb.logstart g.V g.D t L st' → Reads s.store.lh s.store st' → Q none { s with store := st' })
    (hsome : ∀ k, a ≤ k → k < a + n → Hit name (g.entry i k) →
      (∀ k', a ≤ k' → k' < k → ¬ Hit name (g.entry i k')) → ∀ st',
      Shows sb.logstart g.V g.D t L st' → Reads s.store.lh s.store st' →
      wp (iget (direntInum (g.entry i k))) (fun ip => Q (some (ip, DESIZE * k))) (fun e _ => P e)
        { s with store := st' }) :
    wp (dirlookupLoop sb e name (range' a n)) Q (fun e _ => P e) s := by
  induction n generalizing a s with
  | zero => exact hnone (fun k _ _ => by omega) s.store h (.refl ..)
  | succ n ih =>
    rw [range'_succ, dirlookupLoop, wp_bind]
    refine wp_readEntry hsb hl hP h he hd (hs a le_rfl (by omega) fun k' _ _ => by omega) fun st₁ h₁ r₁ => ?_
    simp only
    rw [if_neg (not_not.2 rfl)]
    -- the search goes on with the next entry
    have next (hno : ¬ Hit name (g.entry i a)) : wp (dirlookupLoop sb e name (range' (a + 1) n)) Q
        (fun e _ => P e) { s with store := st₁ } := by
      have hP₁ : st₁.bufs.length ≤ L.length + st₁.lh.length → P .noBuffers := by
        rwa [r₁.length, r₁.lh]
      refine ih hP₁ h₁ ⟨he.inum, he.copy, he.alive⟩ (hs.tail hno) (fun hk st₂ h₂ r₂ => ?_)
        fun k hk₁ hk₂ hhit hfirst st₂ h₂ r₂ => ?_
      · refine hnone (fun k hk₁ hk₂ => ?_) st₂ h₂ (r₁.trans (r₁.lh ▸ r₂))
        by_cases e : k = a
        · rwa [e]
        · exact hk k (by omega) (by omega)
      · refine hsome k (by omega) (by omega) hhit (fun k' hk' hlt => ?_) st₂ h₂ (r₁.trans (r₁.lh ▸ r₂))
        by_cases e : k' = a
        · rwa [e]
        · exact hfirst k' (by omega) hlt
    rw [wp_ite]
    split
    · rename_i h0
      exact next fun hhit => hhit.1 h0
    · rename_i h0
      rw [wp_ite]
      split
      · rename_i hname
        rw [wp_bind]
        exact hsome a le_rfl (by omega) ⟨h0, hname⟩ (fun k' _ _ => by omega) st₁ h₁ r₁
      · rename_i hname
        exact next fun hhit => hname hhit.2

/-! ## The inode table -/

/-- The table agrees with an image that can be read. -/
structure Reader (sb : Superblock) (g : Img) (t : ℕ) (s : Fs) : Prop where
  legible : Legible sb g
  shows : Shows sb.logstart g.V g.D t [] s.store
  inodes : ∀ i < sb.ninodes, sb.iblock i ∉ g.D
  sync : ∀ i < sb.ninodes, Dinode.read (g.V (sb.iblock i)) i = g.X i
  tab : Tab sb g.X s.inode
  room : s.store.lh.length < s.store.bufs.length

/-- There is a buffer for one more block. -/
theorem Reader.not_full {sb : Superblock} {g : Img} {t : ℕ} {s : Fs} (h : Reader sb g t s) :
    ¬ s.store.bufs.length ≤ ([] : List ℕ).length + s.store.lh.length := by
  have := h.room
  simp only [length_nil]
  omega

/-- The entries of the table have `c` references. -/
def Fs.Counts (s : Fs) (c : Iptr → ℕ) : Prop := ∀ e, (s.inode e).ref = c e

/-- The inodes in use keep their entries. -/
def Fs.Keeps (s s' : Fs) : Prop := ∀ e, 0 < (s.inode e).ref →
  (s'.inode e).inum = (s.inode e).inum ∧ (s'.inode e).valid = (s.inode e).valid ∧
    (s'.inode e).d = (s.inode e).d

/-- The entries in use stay with their inodes. -/
def Fs.Tracks (s s' : Fs) : Prop := ∀ e, 0 < (s.inode e).ref → (s'.inode e).inum = (s.inode e).inum

theorem setInode_self (s : Fs) (e : Iptr) (f : Inode → Inode) : (s.setInode e f).inode e = f (s.inode e) :=
  update_self ..

theorem setInode_of_ne (s : Fs) {e e' : Iptr} (f : Inode → Inode) (h : e' ≠ e) :
    (s.setInode e f).inode e' = s.inode e' := update_of_ne h ..

/-- `iget` takes the entry in use or a free one. -/
theorem wp_iget {Q : Iptr → Fs → Prop} (hP : (∀ e, 0 < (s.inode e).ref) → P .noInodes)
    (hhit : ∀ e, 0 < (s.inode e).ref → (s.inode e).inum = inum →
      Q e (s.setInode e fun ip => { ip with ref := ip.ref + 1 }))
    (hmiss : ∀ e, (s.inode e).ref = 0 → (∀ e', 0 < (s.inode e').ref → (s.inode e').inum ≠ inum) →
      Q e (s.setInode e fun ip => { ip with inum := inum, ref := 1, valid := false })) :
    wp (iget inum) Q (fun e _ => P e) s := by
  unfold iget
  rw [wp_bind, wp_get]
  split
  · rename_i e he
    have := List.find?_some he
    simp only [decide_eq_true_eq] at this
    exact hhit e this.1 this.2
  · rename_i hnone
    have hnone : ∀ e', 0 < (s.inode e').ref → (s.inode e').inum ≠ inum := fun e' hr hi => by
      have := List.find?_eq_none.1 hnone e' (mem_finRange e')
      simp only [decide_eq_true_eq] at this
      exact this ⟨hr, hi⟩
    split
    · rename_i e he
      have := List.find?_some he
      simp only [decide_eq_true_eq] at this
      exact hmiss e this hnone
    · rename_i hfull
      refine hP fun e => ?_
      have := List.find?_eq_none.1 hfull e (mem_finRange e)
      simp only [decide_eq_true_eq] at this
      omega

theorem wp_ilock (hr : 0 < (s.inode e).ref)
    (hv : (s.inode e).valid = true → Q () s)
    (hrd : (s.inode e).valid = false →
      wp (bread (sb.iblock (s.inode e).inum)) (fun d => wp (brelse (sb.iblock (s.inode e).inum))
        (fun _ st' => if (Dinode.read d (s.inode e).inum).type = 0 then P .noType else
          Q () (({ s with store := st' } : Fs).setInode e fun ip =>
            { ip with d := Dinode.read d (s.inode e).inum, valid := true }))
        (fun e _ => P e)) (fun e _ => P e) s.store) :
    wp (ilock sb e) Q (fun e _ => P e) s := by
  unfold ilock getInode
  simp only [wp_bind, wp_get, wp_pure]
  rw [if_neg (by omega), wp_ite]
  split
  · rename_i hvalid
    exact hv hvalid
  · rename_i hvalid
    simp only [wp_bind, wp_disk, wp_modify]
    refine wp_mono (hrd (by simpa using hvalid)) (fun d st₁ h₁ => ?_) fun _ _ h => h
    refine wp_mono h₁ (fun _ st₂ h₂ => ?_) fun _ _ h => h
    simp only [Fs.setInode, update_self, update_idem, wp_get, wp_pure,
      wp_ite, wp_panic] at h₂ ⊢
    exact h₂

theorem wp_iunlock (href : 0 < (s.inode e).ref) {E : Panic → Fs → Prop}
    (hQ : Q () s) : wp (iunlock e) Q E s := by
  unfold iunlock getInode
  simp only [wp_bind, wp_get, wp_pure]
  rw [if_neg (by omega)]
  exact hQ

/-- The table after one entry changed. -/
theorem Tab.setInode {X : ℕ → Dinode} (h : Tab sb X s.inode) {f : Inode → Inode}
    (hrange : 0 < (f (s.inode e)).ref → 0 < (f (s.inode e)).inum ∧ (f (s.inode e)).inum < sb.ninodes)
    (huniq : 0 < (f (s.inode e)).ref → ∀ e' ≠ e, 0 < (s.inode e').ref →
      (s.inode e').inum ≠ (f (s.inode e)).inum)
    (hcopy : 0 < (f (s.inode e)).ref → (f (s.inode e)).valid = true →
      (f (s.inode e)).d = X (f (s.inode e)).inum ∧ (X (f (s.inode e)).inum).type ≠ 0) :
    Tab sb X (s.setInode e f).inode := by
  refine ⟨fun e₁ h₁ => ?_, fun e₁ e₂ h₁ h₂ heq => ?_, fun e₁ h₁ hv => ?_⟩
  · by_cases he : e₁ = e
    · rw [he, setInode_self] at h₁ ⊢
      exact hrange h₁
    · rw [setInode_of_ne s f he] at h₁ ⊢
      exact h.range e₁ h₁
  · by_cases he₁ : e₁ = e <;> by_cases he₂ : e₂ = e
    · rw [he₁, he₂]
    · rw [he₁, setInode_self] at h₁ heq
      rw [setInode_of_ne s f he₂] at h₂ heq
      exact absurd heq.symm (huniq h₁ e₂ he₂ h₂)
    · rw [he₂, setInode_self] at h₂ heq
      rw [setInode_of_ne s f he₁] at h₁ heq
      exact absurd heq (huniq h₂ e₁ he₁ h₁)
    · rw [setInode_of_ne s f he₁] at h₁ heq
      rw [setInode_of_ne s f he₂] at h₂ heq
      exact h.uniq e₁ e₂ h₁ h₂ heq
  · by_cases he : e₁ = e
    · rw [he, setInode_self] at h₁ hv ⊢
      exact hcopy h₁ hv
    · rw [setInode_of_ne s f he] at h₁ hv ⊢
      exact h.copy e₁ h₁ hv

/-- An entry in use gets another number of references. -/
theorem Tab.setRef {X : ℕ → Dinode} (h : Tab sb X s.inode) (he : 0 < (s.inode e).ref) (n : Inode → ℕ) :
    Tab sb X (s.setInode e fun ip => { ip with ref := n ip }).inode :=
  h.setInode (fun _ => h.range e he) (fun _ e' hne hr heq => hne (h.uniq e' e hr he heq))
    fun _ hv => h.copy e he hv

theorem Fs.Keeps.setRef (s : Fs) (e : Iptr) (n : Inode → ℕ) :
    s.Keeps (s.setInode e fun ip => { ip with ref := n ip }) := fun e' _ => by
  by_cases he : e' = e
  · rw [he, setInode_self]
    exact ⟨rfl, rfl, rfl⟩
  · rw [setInode_of_ne _ _ he]
    exact ⟨rfl, rfl, rfl⟩

/-- `iget` counts one more reference, on an entry in use or on one that was free and is not read yet. -/
theorem Tab.wp_iget {X : ℕ → Dinode} {Q : Iptr → Fs → Prop} (h : Tab sb X s.inode) (hi : 0 < inum)
    (hn : inum < sb.ninodes) (hP : (∀ e, 0 < (s.inode e).ref) → P .noInodes)
    (hQ : ∀ e f, Tab sb X (s.setInode e f).inode → (f (s.inode e)).ref = (s.inode e).ref + 1 →
      (f (s.inode e)).inum = inum → s.Keeps (s.setInode e f) →
      (0 < (s.inode e).ref ∨ (f (s.inode e)).valid = false) → Q e (s.setInode e f)) :
    wp (iget inum) Q (fun e _ => P e) s := by
  refine Xv6.wp_iget hP (fun e hr heq => ?_) fun e hr hmiss => ?_
  · exact hQ e _ (h.setRef hr _) rfl heq (.setRef s e _) (.inl hr)
  · refine hQ e _ (h.setInode (fun _ => ⟨hi, hn⟩) (fun _ e' _ hr' => hmiss e' hr')
      fun _ hv => absurd hv Bool.false_ne_true) (by rw [hr]) rfl (fun e' hr' => ?_) (.inr rfl)
    rw [setInode_of_ne _ _ fun he => by rw [he, hr] at hr'; exact Nat.lt_irrefl 0 hr']
    exact ⟨rfl, rfl, rfl⟩

/-- `iput` of an inode that has a link or another reference, or was not read. -/
theorem wp_iput_kept {E : Panic → Fs → Prop}
    (hl : (s.inode e).ref = 1 → (s.inode e).valid = true → (s.inode e).d.nlink ≠ 0)
    (hQ : Q () (s.setInode e fun ip => { ip with ref := ip.ref - 1 })) : wp (iput sb e) Q E s := by
  have hput : ¬ ((s.inode e).ref = 1 ∧ (s.inode e).valid = true ∧ (s.inode e).d.nlink = 0) :=
    fun hf => hl hf.1 hf.2.1 hf.2.2
  unfold iput getInode
  simp only [wp_bind, wp_get, wp_pure, if_neg hput, wp_modify]
  exact hQ

namespace Reader

variable {c : Iptr → ℕ}

theorem reads {st' : Store} (h : Reader sb g t s) (hs : Shows sb.logstart g.V g.D t [] st')
    (hr : Reads s.store.lh s.store st') : Reader sb g t { s with store := st' } :=
  { h with
    shows := hs
    room := by
      have := h.room
      rwa [← hr.lh, ← hr.length] at this }

theorem wp_iget {Q : Iptr → Fs → Prop} (h : Reader sb g t s) (hc : s.Counts c) (hi : 0 < inum)
    (hn : inum < sb.ninodes) (hP : (∀ e, 0 < c e) → P .noInodes)
    (hQ : ∀ e s', Reader sb g t s' → s'.Counts (update c e (c e + 1)) →
      (s'.inode e).inum = inum → s.Keeps s' → Q e s') :
    wp (iget inum) Q (fun e _ => P e) s := by
  refine h.tab.wp_iget hi hn (fun hall => hP fun e => hc e ▸ hall e) fun e f ht href hinum hkeep _ => ?_
  refine hQ e _ { h with tab := ht } (fun e' => ?_) (by rw [setInode_self, hinum]) hkeep
  by_cases he : e' = e
  · rw [he, setInode_self, update_self, href, hc e]
  · rw [setInode_of_ne s f he, update_of_ne he, hc e']

theorem wp_ilock (hsb : sb.Ok) (h : Reader sb g t s) (hc : s.Counts c)
    (he : 0 < c e) (ht : (g.X (s.inode e).inum).type ≠ 0)
    (hQ : ∀ s', Reader sb g t s' → s'.Counts c → Loaded sb g s' e (s.inode e).inum → s.Tracks s' →
      Q () s') :
    wp (ilock sb e) Q (fun e _ => P e) s := by
  have hr : 0 < (s.inode e).ref := hc e ▸ he
  obtain ⟨h0, hn⟩ := h.tab.range e hr
  refine Xv6.wp_ilock hr (fun hv => ?_) fun _ => ?_
  · exact hQ s h hc ⟨rfl, (h.tab.copy e hr hv).1, h0, hn, ht⟩ fun _ _ => rfl
  refine h.shows.wp_bread_reads (fun hle => absurd hle h.not_full) fun d st₁ h₁ r₁ _ hd => ?_
  rw [hd (hsb.home sb.inodestart_le_iblock) (h.inodes _ hn), h.sync _ hn]
  refine h₁.wp_brelse_reads fun st₂ h₂ r₂ _ => ?_
  rw [if_neg ht]
  have h' := h.reads h₂ (r₁.trans (r₁.lh ▸ r₂))
  have htab := h'.tab.setInode (e := e)
    (f := fun ip => { ip with d := g.X (s.inode e).inum, valid := true }) (fun _ => ⟨h0, hn⟩)
    (fun _ e' he' hr' heq => he' (h.tab.uniq e' e hr' hr heq)) fun _ _ => ⟨rfl, ht⟩
  refine hQ _ { h' with tab := htab } (fun e' => ?_) ⟨?_, ?_, h0, hn, ht⟩ fun e' _ => ?_
  · by_cases hne : e' = e
    · rw [hne, setInode_self]
      exact hc e
    · rw [setInode_of_ne _ _ hne]
      exact hc e'
  · rw [setInode_self]
  · rw [setInode_self]
  · by_cases hne : e' = e
    · rw [hne, setInode_self]
    · rw [setInode_of_ne _ _ hne]

theorem wp_iput (h : Reader sb g t s) (hc : s.Counts c) (he : 0 < c e)
    (hl : c e = 1 → (s.inode e).valid = true → (s.inode e).d.nlink ≠ 0)
    (hQ : ∀ s', Reader sb g t s' → s'.Counts (update c e (c e - 1)) → s.Keeps s' → Q () s') :
    wp (iput sb e) Q (fun e _ => P e) s := by
  have hr : 0 < (s.inode e).ref := hc e ▸ he
  refine wp_iput_kept (fun h1 hv => hl (hc e ▸ h1) hv) (hQ _ { h with tab := h.tab.setRef hr _ } (fun e' => ?_)
    (.setRef s e _))
  by_cases hne : e' = e
  · rw [hne, setInode_self, update_self, ← hc e]
  · rw [setInode_of_ne _ _ hne, update_of_ne hne]
    exact hc e'

theorem wp_iunlockput (h : Reader sb g t s) (hc : s.Counts c) (he : 0 < c e)
    (hl : c e = 1 → (s.inode e).valid = true → (s.inode e).d.nlink ≠ 0)
    (hQ : ∀ s', Reader sb g t s' → s'.Counts (update c e (c e - 1)) → s.Keeps s' → Q () s') :
    wp (iunlockput sb e) Q (fun e _ => P e) s := by
  unfold iunlockput
  rw [wp_bind]
  exact wp_iunlock (hc e ▸ he) (h.wp_iput hc he hl hQ)

theorem wp_dirlookup {name : List UInt8} {k : ℕ} {Q : Option (Iptr × ℕ) → Fs → Prop} (hsb : sb.Ok)
    (h : Reader sb g t s) (hc : s.Counts c) (he : Loaded sb g s e i) (hd : (g.X i).type = T_DIR)
    (hs : Searchable g i 0 (nslots (g.X i).size) name) (hk : k < nslots (g.X i).size)
    (hhit : Hit name (g.entry i k)) (hfirst : ∀ k' < k, ¬ Hit name (g.entry i k'))
    (hn : direntInum (g.entry i k) < sb.ninodes) (hP : (∀ e, 0 < c e) → P .noInodes)
    (hQ : ∀ ip s', Reader sb g t s' → s'.Counts (update c ip (c ip + 1)) →
      (s'.inode ip).inum = direntInum (g.entry i k) → s.Keeps s' → Q (some (ip, DESIZE * k)) s') :
    wp (dirlookup sb e name) Q (fun e _ => P e) s := by
  unfold dirlookup getInode
  simp only [wp_bind, wp_get, wp_pure, he.copy]
  rw [if_neg (not_not.2 hd), range_eq_range']
  refine wp_dirlookupLoop hsb h.legible (fun hle => absurd hle h.not_full) h.shows he hd hs (fun hno => ?_)
    fun k' _ hk' hhit' hfirst' st' h' r' => ?_
  · exact absurd hhit (hno k (Nat.zero_le k) (by omega))
  · -- the entry found is the entry `k`
    obtain rfl : k' = k := by
      rcases lt_trichotomy k' k with hlt | heq | hlt
      · exact absurd hhit' (hfirst k' hlt)
      · exact heq
      · exact absurd hhit (hfirst' k (Nat.zero_le k) hlt)
    exact (h.reads h' r').wp_iget hc (Nat.pos_of_ne_zero hhit.1) hn hP fun ip s' h₁ hc₁ hi₁ hkeep =>
      hQ ip s' h₁ hc₁ hi₁ hkeep

end Reader

end Xv6
