import Xv6.Fs.Node

/-!
# Reading and writing the contents of inodes

`readi` finds every block below the size, so it changes nothing. `Wrote sb g i off bs g'` says that the
bytes `bs` were written at the offset `off` of the inode `i`, that blocks were only added to its block
map, and that the other bytes stayed: those of the inode itself only if it is `Sharp`, since a write to a
block that was changed without being logged stores the change too.
-/

namespace Xv6

open RedoLog Function Prog List Img Set Bytes Dinode Nat

/-- What is read of the blocks of the inode `i` is what the image says. -/
def Img.Sharp (g : Img) (i : ℕ) : Prop := (g.X i).type = T_DIR ∨ g.D = ∅

section

variable {sb : Superblock} {g g' g'' : Img} {F U : Set ℕ} {t i j o off bn b : ℕ} {L : List ℕ} {st : Store}
  {s : Fs} {e : Iptr} {P : Panic → Prop}

theorem Vol.place_of_block (h : Vol sb g F U t L st) (hi : sb.Alive g.X i) (hbn : bn < MAXFILE)
    (h0 : blockAt g.V (g.X i) bn ≠ 0) {p : Place} (hp : refAt sb g.V g.X p = blockAt g.V (g.X i) bn) :
    p = dataPlace i bn := by
  rw [← refAt_dataPlace hi hbn] at hp h0
  exact h.own.ledger.inj _ _ hp (by rw [hp]; exact h0)

/-- Different bytes of files are in different blocks, or in the same one at the same number. -/
theorem Vol.block_inj (h : Vol sb g F U t L st) (hi : sb.Alive g.X i) (hbn : bn < MAXFILE)
    (h0 : blockAt g.V (g.X i) bn ≠ 0) (hj : sb.Alive g.X j) {bn' : ℕ} (hbn' : bn' < MAXFILE)
    (he : blockAt g.V (g.X j) bn' = blockAt g.V (g.X i) bn) : j = i ∧ bn' = bn := by
  have hp := h.place_of_block hi hbn h0 (p := dataPlace j bn') (by rw [refAt_dataPlace hj hbn', he])
  exact dataPlace_inj hbn' hbn hp

theorem Vol.indirect_ne_block (h : Vol sb g F U t L st) (hi : sb.Alive g.X i) (hbn : bn < MAXFILE)
    (h0 : blockAt g.V (g.X i) bn ≠ 0) (hj : sb.Alive g.X j) :
    (g.X j).indirect ≠ blockAt g.V (g.X i) bn := by
  intro he
  have hp := h.place_of_block hi hbn h0 (p := .slot j (Fin.last NDIRECT)) (by rw [refAt_indirect hj, he])
  have hji : j = i := by
    have := congrArg Place.inum hp
    rwa [dataPlace_inum] at this
  exact dataPlace_ne_indirect (hji ▸ hp.symm)

theorem Legible.sharp_block (h : Legible sb g) (hs : g.Sharp i) (hi : sb.Alive g.X i) (hbn : bn < MAXFILE) :
    blockAt g.V (g.X i) bn ∉ g.D := by
  rw [← refAt_dataPlace hi hbn]
  rcases hs with hd | hD
  · exact h.guarded _ (.inl (by rwa [dataPlace_inum]))
  · rw [hD]
    exact notMem_empty _

/-! ## `readi` -/

/-- The first `n` bytes of the destination can be written. -/
def Dst.Accepts (n : ℕ) (dst : Dst) : Prop := ∀ i len, i + len ≤ n → dst.copyout i len = true

theorem Dst.accepts_kernel (n : ℕ) : Dst.kernel.Accepts n := fun _ _ _ => rfl

theorem slice_block {m : ℕ} (hm : off % BSIZE + m ≤ BSIZE) :
    slice (g.V (blockAt g.V (g.X i) (off / BSIZE))) (off % BSIZE) m =
      (range m).map fun k => g.byte i (off + k) := by
  rw [slice_eq_map_get]
  refine map_congr_left fun k hk => ?_
  have hk := mem_range.1 hk
  have h₁ : (off + k) / BSIZE = off / BSIZE := by
    unfold BSIZE at *
    omega
  have h₂ : (off + k) % BSIZE = off % BSIZE + k := by
    unfold BSIZE at *
    omega
  rw [byte, h₁, h₂]

theorem wp_readiLoop {dst : Dst} {n tot fuel : ℕ} {Q : ℤ × List UInt8 → Fs → Prop} (hsb : sb.Ok)
    (hl : Legible sb g) (hP : s.store.bufs.length ≤ L.length + s.store.lh.length → P .noBuffers)
    (h : Shows sb.logstart g.V g.D t L s.store) (he : Loaded sb g s e i) (htot : tot ≤ n)
    (hfuel : n ≤ tot + fuel)
    (hblk : ∀ o, off ≤ o → o < off + (n - tot) → o / BSIZE < MAXFILE ∧ blockAt g.V (g.X i) (o / BSIZE) ≠ 0)
    (hQ : ∀ st' (r : ℤ) bs, Shows sb.logstart g.V g.D t L st' → Reads s.store.lh s.store st' →
      (dst.Accepts n → g.Sharp i → r = n ∧ bs = (range (n - tot)).map fun k => g.byte i (off + k)) →
      Q (r, bs) { s with store := st' }) :
    wp (readiLoop sb e dst n fuel tot off) Q (fun e _ => P e) s := by
  have hb : BSIZE = 1024 := rfl
  induction fuel generalizing tot off s Q with
  | zero =>
    obtain rfl : tot = n := by omega
    exact hQ s.store tot [] h (.refl ..) fun _ _ => ⟨rfl, by simp⟩
  | succ fuel ih =>
    rw [readiLoop, wp_ite]
    split
    · rename_i hlt
      obtain ⟨hbn, h0⟩ := hblk off le_rfl (by omega)
      have hd := hl.block_mem he.alive hbn h0
      simp only [wp_bind]
      refine wp_bmap_hit hsb hl hP h he hbn h0 fun st₁ h₁ r₁ => ?_
      rw [if_neg h0]
      simp only [wp_bind, wp_disk]
      rw [← r₁.length, ← r₁.lh] at hP
      refine h₁.wp_bread_reads hP fun d st₂ h₂ r₂ _ hdata => ?_
      have r₁₂ : Reads s.store.lh s.store st₂ := r₁.trans (r₁.lh ▸ r₂)
      split
      · rename_i hcopy
        simp only [wp_bind, wp_disk, wp_pure]
        refine h₂.wp_brelse_reads fun st₃ h₃ r₃ _ =>
          hQ st₃ (-1) [] h₃ (r₁₂.trans (r₁₂.lh ▸ r₃)) ?_
        intro hk _
        rw [hk tot _ (by omega)] at hcopy
        cases hcopy
      · simp only [wp_bind, wp_disk]
        refine h₂.wp_brelse_reads fun st₃ h₃ r₃ _ => ?_
        have r₁₃ : Reads s.store.lh s.store st₃ := r₁₂.trans (r₁₂.lh ▸ r₃)
        set m := min (n - tot) (BSIZE - off % BSIZE) with hm
        have hmod : off % BSIZE < BSIZE := mod_lt _ (by omega)
        rw [r₁.length, r₁.lh, ← r₁₃.length, ← r₁₃.lh] at hP
        refine ih hP h₃ ⟨he.inum, he.copy, he.alive⟩ (by omega) (by omega)
          (fun o h₁ h₂ => hblk o (by omega) (by omega)) ?_
        intro st₄ r bs h₄ r₄ hr
        refine hQ st₄ r _ h₄ (r₁₃.trans (r₁₃.lh ▸ r₄)) fun hk hs => ?_
        obtain ⟨hr, hbs⟩ := hr hk hs
        refine ⟨hr, ?_⟩
        have hsplit : n - tot = m + (n - (tot + m)) := by omega
        rw [hdata (hsb.home_data hd) (hl.sharp_block hs he.alive hbn), slice_block (by omega), hbs, hsplit,
          range_add, map_append, map_map]
        simp [Function.comp_def, Nat.add_assoc]
    · obtain rfl : tot = n := by omega
      exact hQ s.store tot [] h (.refl ..) fun _ _ => ⟨rfl, by simp⟩

/-- `readi` changes nothing. Of an inode that is read as the image says it returns the bytes up to the
end. -/
theorem wp_readi {dst : Dst} {n : ℕ} {Q : ℤ × List UInt8 → Fs → Prop} (hsb : sb.Ok)
    (hl : Legible sb g) (hP : s.store.bufs.length ≤ L.length + s.store.lh.length → P .noBuffers)
    (h : Shows sb.logstart g.V g.D t L s.store) (he : Loaded sb g s e i)
    (hblk : ∀ o, off ≤ o → o < off + n → o < (g.X i).size →
      o / BSIZE < MAXFILE ∧ blockAt g.V (g.X i) (o / BSIZE) ≠ 0)
    (hQ : ∀ st' (r : ℤ) bs, Shows sb.logstart g.V g.D t L st' → Reads s.store.lh s.store st' →
      (dst.Accepts n → g.Sharp i → off + n < 2 ^ 32 → bs = ((g.bytes i).drop off).take n ∧ r = bs.length) →
      Q (r, bs) { s with store := st' }) :
    wp (readi sb e dst off n) Q (fun e _ => P e) s := by
  unfold readi getInode
  simp only [wp_bind, wp_get, wp_pure, he.copy, wp_ite]
  split
  · rename_i hbad
    refine hQ s.store 0 [] h (.refl ..) fun _ _ hlt => ?_
    rw [mod_eq_of_lt hlt] at hbad
    rw [drop_eq_nil_of_le (by rw [length_bytes]; omega)]
    simp
  · rename_i hok
    set m := if (g.X i).size < off + n then (g.X i).size - off else n with hm
    have hmn : m ≤ n ∧ off + m ≤ (g.X i).size := by split at hm <;> omega
    refine wp_readiLoop hsb hl hP h he (Nat.zero_le _) (by omega)
      (fun o h₁ h₂ => hblk o h₁ (by omega) (by omega)) ?_
    intro st' r bs h' r' hr
    refine hQ st' r bs h' r' fun hk hs _ => ?_
    obtain ⟨hr, hbs⟩ := hr (fun i len hle => hk i len (by omega)) hs
    have hbs : bs = ((g.bytes i).drop off).take n := by
      rw [hbs]
      refine ext_getElem ?_ fun k hk₁ hk₂ => ?_
      · simp only [length_map, length_range, length_take, length_drop,
          length_bytes]
        split at hm <;> omega
      · simp [bytes]
    refine ⟨hbs, hr.trans ?_⟩
    rw [hbs, length_take, length_drop, length_bytes]
    split at hm <;> omega

theorem Vol.blocks_below (h : Vol sb g F U t L st) (hi : sb.Alive g.X i) {n : ℕ} (o : ℕ) (_ : off ≤ o)
    (_ : o < off + n) (ho : o < (g.X i).size) :
    o / BSIZE < MAXFILE ∧ blockAt g.V (g.X i) (o / BSIZE) ≠ 0 :=
  ⟨(h.block_of_lt hi ho).1, (h.block_of_lt hi ho).2.1⟩

/-! ## The source of a write -/

/-- The byte of user memory at an address. -/
def UserView.byte (m : UserView) (va : ℕ) : UInt8 :=
  match m (va / PGSIZE) with
  | some pg => pg.bytes (va % PGSIZE)
  | none => 0

/-- The byte `k` of the source. -/
def Src.byte (k : ℕ) : Src → UInt8
  | kernel bytes => bytes.getD k 0
  | user m addr => m.byte (addr + k)

/-- The first `n` bytes of the source can be read. -/
def Src.Readable (n : ℕ) : Src → Prop
  | kernel bytes => n ≤ bytes.length
  | user m addr => ∀ k < n, (m ((addr + k) / PGSIZE)).isSome

/-- Kernel memory can be read. -/
def Src.Fits (n : ℕ) : Src → Prop
  | kernel bytes => n ≤ bytes.length
  | user _ _ => True

theorem Src.Readable.fits {n : ℕ} {src : Src} (h : src.Readable n) : src.Fits n := by
  cases src with
  | kernel bytes => exact h
  | user m addr => trivial

section Src

variable {m : UserView} {va len fuel : ℕ}

theorem UserView.map_byte {pg : UserPage} (hpg : m (va / PGSIZE) = some pg) {k : ℕ}
    (hk : va % PGSIZE + k ≤ PGSIZE) :
    (range k).map (fun i => pg.bytes (va % PGSIZE + i)) = (range k).map fun i => m.byte (va + i) := by
  refine map_congr_left fun i hi => ?_
  have hi := mem_range.1 hi
  have h₁ : (va + i) / PGSIZE = va / PGSIZE := by
    unfold PGSIZE at *
    omega
  have h₂ : (va + i) % PGSIZE = va % PGSIZE + i := by
    unfold PGSIZE at *
    omega
  rw [UserView.byte, h₁, h₂, hpg]

theorem UserView.copyin_ok (hfuel : len ≤ fuel) (h : (m.copyin fuel va len).2 = true) :
    (m.copyin fuel va len).1 = (range len).map fun k => m.byte (va + k) := by
  have hp : PGSIZE = 4096 := rfl
  induction fuel generalizing va len with
  | zero =>
    obtain rfl : len = 0 := by omega
    rfl
  | succ fuel ih =>
    rw [copyin] at h ⊢
    split
    · rename_i h0
      rw [h0]
      rfl
    · rename_i h0
      rw [if_neg h0] at h
      cases hpg : m (va / PGSIZE) with
      | none => simp [hpg] at h
      | some pg =>
        simp only [hpg] at h ⊢
        set k := min len (PGSIZE - va % PGSIZE) with hk
        have hmod : va % PGSIZE < PGSIZE := mod_lt _ (by omega)
        have hsplit : len = k + (len - k) := by omega
        rw [ih (by omega) h, map_byte hpg (by omega)]
        conv_rhs => rw [hsplit, range_add, map_append, map_map]
        simp [Function.comp_def, Nat.add_assoc]

/-- `copyin` of pages that are all there does not fail. -/
theorem UserView.copyin_of_isSome (h : ∀ k < len, (m ((va + k) / PGSIZE)).isSome) :
    (m.copyin fuel va len).2 = true := by
  have hp : PGSIZE = 4096 := rfl
  induction fuel generalizing va len with
  | zero => rfl
  | succ fuel ih =>
    rw [copyin]
    split
    · rfl
    · rename_i h0
      obtain ⟨pg, hpg⟩ := Option.isSome_iff_exists.1 (h 0 (by omega))
      rw [Nat.add_zero] at hpg
      simp only [hpg]
      refine ih fun k hk => ?_
      have := h (min len (PGSIZE - va % PGSIZE) + k) (by omega)
      rwa [← Nat.add_assoc] at this

variable {src : Src} {n : ℕ}

theorem Src.copyin_ok (hs : src.Fits n) (tot len : ℕ) (hn : tot + len ≤ n) (h : (src.copyin tot len).2 = true) :
    (src.copyin tot len).1 = (range len).map fun k => src.byte (tot + k) := by
  cases src with
  | kernel bytes =>
    have hs : n ≤ bytes.length := hs
    refine ext_getElem (by simp [copyin]; omega) fun k hk₁ hk₂ => ?_
    have hk : k < len := by simpa using hk₂
    simp [copyin, byte, show tot + k < bytes.length by omega]
  | user m addr =>
    simp only [copyin, byte] at h ⊢
    rw [UserView.copyin_ok le_rfl h]
    simp [Nat.add_assoc]

theorem Src.copyin_of_readable (hs : src.Readable n) (tot len : ℕ) (hn : tot + len ≤ n) :
    (src.copyin tot len).2 = true := by
  cases src with
  | kernel bytes => rfl
  | user m addr =>
    refine UserView.copyin_of_isSome fun k hk => ?_
    have := hs (tot + k) (by omega)
    rwa [← Nat.add_assoc] at this

end Src

/-! ## `writei` -/

/-- The bytes `bs` were written at the offset `off` of the inode `i`. -/
structure Wrote (sb : Superblock) (g : Img) (i off : ℕ) (bs : List UInt8) (g' : Img) : Prop where
  other : ∀ j ≠ i, g'.X j = g.X j
  self : SameMeta (g.X i) (g'.X i)
  block : ∀ j, sb.Alive g.X j → ∀ bn < MAXFILE, blockAt g.V (g.X j) bn ≠ 0 →
    blockAt g'.V (g'.X j) bn = blockAt g.V (g.X j) bn
  keep : ∀ j, sb.Alive g.X j → ∀ o, o / BSIZE < MAXFILE → blockAt g.V (g.X j) (o / BSIZE) ≠ 0 →
    (j = i → g.Sharp i ∧ (o < off ∨ off + bs.length ≤ o)) → g'.byte j o = g.byte j o
  new : ∀ k < bs.length, (off + k) / BSIZE < MAXFILE ∧ blockAt g'.V (g'.X i) ((off + k) / BSIZE) ≠ 0 ∧
    (g.Sharp i → g'.byte i (off + k) = bs.getD k 0)
  dirty : g'.D ⊆ g.D

namespace Wrote

variable {bs bs' : List UInt8}

theorem alive_iff (h : Wrote sb g i off bs g') : sb.Alive g'.X j ↔ sb.Alive g.X j := by
  unfold Superblock.Alive
  by_cases e : j = i
  · rw [e, h.self.type]
  · rw [h.other j e]

theorem sharp (h : Wrote sb g i off bs g') (hs : g.Sharp i) : g'.Sharp i := by
  rcases hs with hd | hD
  · exact .inl (h.self.type.trans hd)
  · refine .inr (subset_eq_empty h.dirty hD)

theorem trans (h : Wrote sb g i off bs g') (h' : Wrote sb g' i (off + bs.length) bs' g'')
    (hi : sb.Alive g.X i) : Wrote sb g i off (bs ++ bs') g'' where
  other j hj := (h'.other j hj).trans (h.other j hj)
  self := h.self.trans h'.self
  block j hj bn hbn h0 := by
    have e := h.block j hj bn hbn h0
    rw [h'.block j (h.alive_iff.2 hj) bn hbn (by rw [e]; exact h0), e]
  keep j hj o ho h0 hk := by
    rw [length_append] at hk
    rw [h'.keep j (h.alive_iff.2 hj) o ho ?_ fun e => ⟨h.sharp (hk e).1, by have := (hk e).2; omega⟩,
      h.keep j hj o ho h0 fun e => ⟨(hk e).1, by have := (hk e).2; omega⟩]
    rw [h.block j hj _ ho h0]
    exact h0
  new k hk := by
    rw [length_append] at hk
    by_cases hlt : k < bs.length
    · obtain ⟨h₁, h₂, h₃⟩ := h.new k hlt
      have hi' := h.alive_iff.2 hi
      refine ⟨h₁, by rw [h'.block i hi' _ h₁ h₂]; exact h₂, fun hs => ?_⟩
      rw [h'.keep i hi' _ h₁ h₂ fun _ => ⟨h.sharp hs, by omega⟩, h₃ hs, getD_append _ _ _ _ hlt]
    · obtain ⟨h₁, h₂, h₃⟩ := h'.new (k - bs.length) (by omega)
      have e : off + bs.length + (k - bs.length) = off + k := by omega
      rw [e] at h₁ h₂ h₃
      refine ⟨h₁, h₂, fun hs => ?_⟩
      rw [h₃ (h.sharp hs), getD_append_right _ _ _ _ (by omega)]
  dirty := h'.dirty.trans h.dirty

end Wrote

/-- More blocks in the block map, and nothing written. -/
theorem Maps.wrote (h : Maps sb g i g') (off : ℕ) : Wrote sb g i off [] g' where
  other := h.other
  self := h.self
  block j hj bn hbn h0 := (h.block j hj bn hbn h0).1
  keep j hj o ho h0 _ := by
    obtain ⟨e₁, e₂⟩ := h.block j hj _ ho h0
    unfold byte
    rw [e₁, e₂]
  new k hk := absurd hk (Nat.not_lt_zero k)
  dirty := h.dirty

/-- The image after the bytes `bs` were stored in the block `b`, which was read as `d`. -/
def Img.store (g : Img) (b : ℕ) (d : Block) : Img :=
  { g with V := update g.V b d, D := g.D \ {b} }

section block

variable {d : Block} {bs : List UInt8}

/-- A data block of an inode gets new bytes. -/
theorem Vol.store (h : Vol sb g ∅ U t L st) (hsb : sb.Ok) (hi : sb.Alive g.X i) (hbn : bn < MAXFILE)
    (h0 : blockAt g.V (g.X i) bn ≠ 0) {L' : List ℕ} {st' : Store}
    (hs : Shows sb.logstart (g.store (blockAt g.V (g.X i) bn) d).V
      (g.store (blockAt g.V (g.X i) bn) d).D t L' st') :
    Vol sb (g.store (blockAt g.V (g.X i) bn) d) ∅ U t L' st' := by
  have hd := h.block_mem hi hbn h0
  have hV : ∀ c < sb.datastart, (g.store (blockAt g.V (g.X i) bn) d).V c = g.V c := fun c hc =>
    update_of_ne (fun e => absurd hd.1 (by omega)) ..
  have hused : ∀ c < sb.size, sb.Used (g.store (blockAt g.V (g.X i) bn) d).V c ↔ sb.Used g.V c := by
    intro c hc
    unfold Superblock.Used
    rw [hV _ (sb.bblock_lt hc)]
  refine h.congr hsb hs sdiff_subset (fun c hc => hV c (hc.trans sb.bmapstart_lt)) (fun j hj _ => ?_)
    (h.own.ledger.congr fun c hc => hused c hc.2) fun c hc hcs => (hused c hcs).2 (h.own.reserved c hc hcs)
  exact update_of_ne (h.indirect_ne_block hi hbn h0 hj) ..

theorem Vol.blockAt_store (h : Vol sb g F U t L st) (hi : sb.Alive g.X i) (hbn : bn < MAXFILE)
    (h0 : blockAt g.V (g.X i) bn ≠ 0) (d : Block) (hj : sb.Alive g.X j) (bn' : ℕ) :
    blockAt (g.store (blockAt g.V (g.X i) bn) d).V (g.X j) bn' = blockAt g.V (g.X j) bn' :=
  blockAt_congr fun _ => update_of_ne (h.indirect_ne_block hi hbn h0 hj) ..

/-- The bytes `bs` are stored in one block. -/
theorem Vol.wrote_store (h : Vol sb g ∅ U t L st) (hi : sb.Alive g.X i) (hbn : off / BSIZE < MAXFILE)
    (h0 : blockAt g.V (g.X i) (off / BSIZE) ≠ 0) (hfit : off % BSIZE + bs.length ≤ BSIZE)
    (hd : g.Sharp i → d = g.V (blockAt g.V (g.X i) (off / BSIZE))) :
    Wrote sb g i off bs (g.store (blockAt g.V (g.X i) (off / BSIZE)) (put d (off % BSIZE) bs)) := by
  set b := blockAt g.V (g.X i) (off / BSIZE) with hb
  set g' := g.store b (put d (off % BSIZE) bs) with hg'
  have hVb : g'.V b = put d (off % BSIZE) bs := update_self ..
  have hV : ∀ c ≠ b, g'.V c = g.V c := fun c hc => update_of_ne hc ..
  have hblock : ∀ j, sb.Alive g.X j → ∀ bn, blockAt g'.V (g'.X j) bn = blockAt g.V (g.X j) bn :=
    fun j hj bn => h.blockAt_store hi hbn h0 _ hj bn
  refine ⟨fun _ _ => rfl, .refl _, fun j hj bn _ _ => hblock j hj bn, fun j hj o ho h1 hk => ?_,
    fun k hk => ?_, sdiff_subset⟩
  · unfold byte
    rw [hblock j hj]
    by_cases e : blockAt g.V (g.X j) (o / BSIZE) = b
    · -- the byte is in the block that was written, so it is one of the same inode
      obtain ⟨rfl, he⟩ := h.block_inj hi hbn h0 hj ho e
      obtain ⟨hs, hout⟩ := hk rfl
      rw [e, hVb, ← hd hs]
      refine get_put_of_disjoint _ ?_
      unfold BSIZE at *
      omega
    · rw [hV _ e]
  · have h₁ : (off + k) / BSIZE = off / BSIZE := by
      unfold BSIZE at *
      omega
    have h₂ : (off + k) % BSIZE = off % BSIZE + k := by
      unfold BSIZE at *
      omega
    rw [h₁, hblock i hi]
    refine ⟨hbn, h0, fun _ => ?_⟩
    rw [byte, h₁, h₂, hblock i hi, ← hb, hVb, get_put_of_mem _ hk (by omega)]

end block

/-- More blocks may be shown otherwise than the image says. -/
def Img.blur (g : Img) (E : Set ℕ) : Img := { g with D := g.D ∪ E }

theorem Vol.blur_empty (h : Vol sb g F U t L st) : Vol sb (g.blur ∅) F U t L st := by
  rw [blur, union_empty]
  exact h

/-- A data block of an inode that is not a directory gets bytes that are not logged. -/
theorem Vol.blur (h : Vol sb g ∅ U t L st) (hi : sb.Alive g.X i) (hbn : bn < MAXFILE)
    (h0 : blockAt g.V (g.X i) bn ≠ 0) (hdir : (g.X i).type ≠ T_DIR) {L' : List ℕ} {st' : Store}
    (hs : Shows sb.logstart g.V (insert (blockAt g.V (g.X i) bn) g.D) t L' st') :
    Vol sb (g.blur {blockAt g.V (g.X i) bn}) ∅ U t L' st' where
  shows := by
    rw [Img.blur, union_singleton]
    exact hs
  own := h.own
  dirty c hc := by
    rcases hc with hc | rfl
    · exact h.dirty c hc
    · refine ⟨h.block_mem hi hbn h0, fun p hp he => ?_⟩
      obtain rfl := h.place_of_block hi hbn h0 he
      rcases hp with hp | hp
      · rw [dataPlace_inum] at hp
        exact hdir hp
      · rw [dataPlace_inum] at hp
        exact dataPlace_ne_indirect hp
  sync := h.sync

theorem Loaded.of_put (he : Loaded sb g s e i) {Q : Fs → Prop} (h : Q (s.put s.store e (g.X i))) : Q s := by
  rwa [s.put_self _ _ he.copy] at h

/-- The loop of `writei`: a number of bytes is written, and if the source could not be read one block may
have got other bytes without being logged. -/
theorem wp_writeiLoop {src : Src} {n tot fuel : ℕ} {Q : ℕ × ℕ → Fs → Prop} (hsb : sb.Ok)
    (hP : Tolerant P) (h : Vol sb g ∅ U t L s.store) (he : Loaded sb g s e i) (hsrc : src.Fits n)
    (hdir : (g.X i).type = T_DIR → src.Readable n) (htot : tot ≤ n)
    (hfuel : n ≤ tot + fuel) (hend : off + (n - tot) ≤ MAXFILE * BSIZE)
    (hQ : ∀ g' E st' m, Vol sb (g'.blur E) ∅ (insert i U) t L st' →
      Wrote sb g i off ((range m).map fun k => src.byte (tot + k)) g' → tot + m ≤ n →
      (m = 0 ∨ min (n - tot) (BSIZE - off % BSIZE) ≤ m) → (src.Readable n → E = ∅) →
      Q (tot + m, off + m) (s.put st' e (g'.X i))) :
    wp (writeiLoop sb e src n fuel tot off) Q (fun e _ => P e) s := by
  have hb : BSIZE = 1024 := rfl
  induction fuel generalizing tot off s g U Q with
  | zero =>
    refine he.of_put (Q := Q (tot, off)) ?_
    exact hQ g ∅ s.store 0 (h.mono (subset_insert ..)).blur_empty ((Maps.refl sb g i).wrote off) htot
      (.inl rfl) fun _ => rfl
  | succ fuel ih =>
    rw [writeiLoop, wp_ite]
    split
    swap
    · refine he.of_put (Q := Q (tot, off)) ?_
      exact hQ g ∅ s.store 0 (h.mono (subset_insert ..)).blur_empty ((Maps.refl sb g i).wrote off) htot
        (.inl rfl) fun _ => rfl
    rename_i hlt
    have hbn : off / BSIZE < MAXFILE := by
      rw [Nat.div_lt_iff_lt_mul (by omega)]
      omega
    simp only [wp_bind]
    refine wp_bmap hsb hP h he hbn fun g₁ st₁ h₁ m₁ _ => ?_
    have w₁ := m₁.wrote off
    have hi₁ := m₁.alive_iff.2 he.alive
    split
    · exact hQ g₁ ∅ st₁ 0 h₁.blur_empty w₁ htot (.inl rfl) fun _ => rfl
    rename_i h0
    have hd := h₁.block_mem hi₁ hbn h0
    set m := min (n - tot) (BSIZE - off % BSIZE) with hm
    have hmod : off % BSIZE < BSIZE := mod_lt _ (by omega)
    simp only [wp_bind, wp_disk]
    refine h₁.shows.wp_bread_any (fun _ => hP _ (by decide) (by decide) (by decide))
      fun d st₂ h₂ _ hdata => ?_
    cases hcp : src.copyin tot m with
    | mk bs ok =>
    cases ok with
    | false =>
      -- the bytes copied before the fault are in the buffer, which is not logged
      have hnr : ¬ src.Readable n := fun hr => by
        have := Src.copyin_of_readable hr tot m (by omega)
        rw [hcp] at this
        cases this
      have hnd : (g₁.X i).type ≠ T_DIR := fun e => hnr (hdir ((m₁.type_eq i).symm.trans e))
      simp only [wp_bind, wp_disk, wp_pure, if_true]
      refine h₂.wp_scribble (hsb.home_data hd) fun st₃ h₃ => ?_
      exact hQ g₁ _ st₃ 0 (h₁.blur hi₁ hbn h0 hnd h₃) w₁ htot (.inl rfl) fun hr => absurd hr hnr
    | true =>
      have hbs : bs = (range m).map fun k => src.byte (tot + k) := by
        have := Src.copyin_ok hsrc tot m (by omega) (by rw [hcp])
        rwa [hcp] at this
      have hlen : bs.length = m := by rw [hbs, length_map, length_range]
      simp only [wp_bind, wp_disk, Bool.true_eq_false, if_false]
      refine h₂.wp_update (hsb.home_data hd) (fun _ => hP _ (by decide) (by decide) (by decide))
        (fun _ => hP _ (by decide) (by decide) (by decide)) fun st₃ h₃ => ?_
      have w₂ : Wrote sb g₁ i off bs _ := h₁.wrote_store (d := d) hi₁ hbn h0 (by omega) fun hs =>
        hdata (hsb.home_data hd) (h₁.legible.sharp_block hs hi₁ hbn)
      have v₂ := h₁.store hsb hi₁ hbn h0 h₃
      have w₁₂ := w₁.trans w₂ he.alive
      rw [nil_append, hbs] at w₁₂
      rw [hbs] at v₂
      refine ih v₂ ⟨?_, ?_, hi₁⟩ (fun e => hdir ((m₁.type_eq i).symm.trans e)) (by omega) (by omega)
        (by omega) fun g' E st' m' h' w' hm' hb' hE' => ?_
      · simp [Fs.put, he.inum]
      · simp [Fs.put, store]
      · have w := w₁₂.trans (by simpa [Nat.add_assoc] using w') he.alive
        rw [insert_idem] at h'
        have := hQ g' E st' (m + m') h' ?_ (by omega) (.inr (by omega)) hE'
        · simpa [Fs.put, Nat.add_assoc] using this
        · rw [range_add, map_append, map_map]
          simpa [Function.comp_def, Nat.add_assoc] using w

/-- The bytes of `l` with `bs` at the offset `off`. -/
def overwrite (l : List UInt8) (off : ℕ) (bs : List UInt8) : List UInt8 :=
  l.take off ++ bs ++ l.drop (off + bs.length)

/-- The bytes `bs` were written at the offset `off` of the inode `i`, which grew if they end after its
end. -/
structure Overwrote (sb : Superblock) (g : Img) (i off : ℕ) (bs : List UInt8) (g' : Img) : Prop where
  other : ∀ j ≠ i, g'.X j = g.X j ∧ g'.node sb j = g.node sb j
  type : (g'.X i).type = (g.X i).type
  major : (g'.X i).major = (g.X i).major
  minor : (g'.X i).minor = (g.X i).minor
  nlink : (g'.X i).nlink = (g.X i).nlink
  size : (g'.X i).size = max (g.X i).size (off + bs.length)
  data : g.Sharp i → g'.bytes i = overwrite (g.bytes i) off bs
  dirty : g'.D ⊆ g.D

theorem Overwrote.node {bs : List UInt8} (h : Overwrote sb g i off bs g') (hi : sb.Alive g.X i)
    (hs : g.Sharp i) : g'.node sb =
      update (g.node sb) i (some ((g.X i).node (overwrite (g.bytes i) off bs))) := by
  have hi' : sb.Alive g'.X i := by
    unfold Superblock.Alive at hi ⊢
    rwa [h.type]
  refine node_eq_update ?_ fun j hj => (h.other j hj).2
  rw [node_of_alive hi', h.data hs]
  simp only [Dinode.node, h.type, h.major, h.minor, h.nlink]

theorem overwrite_length (l bs : List UInt8) : overwrite l l.length bs = l ++ bs := by
  simp [overwrite]

/-- The inode with a new size. -/
def Dinode.resize (x : Dinode) (n : ℕ) : Dinode := { x with size := n }

section Grow

variable {bs : List UInt8}

theorem Wrote.bytes (w : Wrote sb g i off bs g') (h : Vol sb g F U t L st) (hi : sb.Alive g.X i)
    (hs : g.Sharp i) (hoff : off ≤ (g.X i).size) :
    (range (max (g.X i).size (off + bs.length))).map (g'.byte i) = overwrite (g.bytes i) off bs := by
  have hkeep : ∀ o < (g.X i).size, (o < off ∨ off + bs.length ≤ o) → g'.byte i o = g.byte i o := by
    intro o ho hout
    obtain ⟨hlt, h0, -⟩ := h.block_of_lt hi ho
    exact w.keep i hi o hlt h0 fun _ => ⟨hs, hout⟩
  have hnew : ∀ k (hk : k < bs.length), g'.byte i (off + k) = bs[k] := fun k hk => by
    rw [(w.new k hk).2.2 hs, getD_eq_getElem _ _ hk]
  unfold overwrite
  refine ext_getElem ?_ fun o ho₁ ho₂ => ?_
  · simp only [length_map, length_range, length_append, length_take, length_drop,
      length_bytes]
    omega
  · have ho : o < max (g.X i).size (off + bs.length) := by simpa using ho₁
    rw [getElem_map, getElem_range]
    have hb : ∀ o (ho : o < (g.bytes i).length), (g.bytes i)[o] = g.byte i o := fun o ho => by
      simp [Img.bytes]
    have hl := g.length_bytes i
    by_cases h₁ : o < off
    · rw [getElem_append_left (by simp; omega), getElem_append_left (by simp; omega),
        getElem_take, hb, hkeep o (by omega) (.inl h₁)]
    · by_cases h₂ : o < off + bs.length
      · rw [getElem_append_left (by simp; omega), getElem_append_right (by simp; omega),
          ← hnew _ (by simp; omega)]
        congr 1
        simp only [length_take]
        omega
      · rw [getElem_append_right (by simp; omega), getElem_drop, hb, hkeep o (by omega) (by omega)]
        congr 1
        simp only [length_append, length_take]
        omega

/-- The places refer to the same blocks if the type and the addresses are the same. -/
theorem refAt_update {V : Disk} {X : ℕ → Dinode} {x : Dinode} (ht : x.type = (X i).type)
    (ha : x.addrs = (X i).addrs) : refAt sb V (update X i x) = refAt sb V X := by
  have htype : ∀ j, (update X i x j).type = (X j).type := fun j => by
    by_cases e : j = i
    · rw [e, update_self, ht]
    · rw [update_of_ne e]
  have haddrs : ∀ j, (update X i x j).addrs = (X j).addrs := fun j => by
    by_cases e : j = i
    · rw [e, update_self, ha]
    · rw [update_of_ne e]
  have halive : ∀ j, sb.Alive (update X i x) j ↔ sb.Alive X j := fun j => by
    simp only [Superblock.Alive, htype]
  funext p
  cases p with
  | slot j k =>
    simp only [refAt, haddrs]
    exact if_congr (halive j) rfl rfl
  | entry j k =>
    simp only [refAt, indirect, haddrs]
    exact if_congr (and_congr_left' (halive j)) rfl rfl

/-- The volume after the size is set, which is at most the end of the bytes written. -/
theorem Wrote.vol_resize (w : Wrote sb g i off bs g') (h : Vol sb g F U t L st) {U' : Set ℕ}
    {L' : List ℕ} {st' : Store} {E : Set ℕ} (h' : Vol sb (g'.blur E) ∅ U' t L' st')
    (hi : sb.Alive g.X i) (hoff : off ≤ (g.X i).size) (hend : off + bs.length ≤ MAXFILE * BSIZE) :
    Vol sb ((g'.setX i ((g'.X i).resize (max (g.X i).size (off + bs.length)))).blur E) ∅ (insert i U') t L'
      st' := by
  have hb : BSIZE = 1024 := rfl
  have hmax : MAXFILE * BSIZE = 274432 := rfl
  have hsz := h.own.size_le i hi
  have hf := h'.own.fits i hi.2.1
  refine h'.setX (refAt_update rfl rfl) (fun _ bn hbn => ?_) (fun _ => ?_) ?_ fun e => .inl e
  · change blockAt g'.V (g'.X i) bn ≠ 0
    by_cases hlt : bn * BSIZE < (g.X i).size
    · exact h'.own.full i (w.alive_iff.2 hi) bn (by rw [show ((g'.blur E).X i).size = _ from w.self.size]; exact hlt)
    · -- the block begins in the bytes that were written
      have hk : bn * BSIZE - off < bs.length := by
        simp only [resize, lt_max_iff] at hbn
        omega
      have := (w.new _ hk).2.1
      rwa [show (off + (bn * BSIZE - off)) / BSIZE = bn from by
        rw [show off + (bn * BSIZE - off) = bn * BSIZE by omega, Nat.mul_div_cancel _ (by omega)]] at this
  · simp only [resize, max_le_iff]
    exact ⟨hsz, hend⟩
  · exact ⟨hf.type, hf.major, hf.minor, hf.nlink, by simp only [resize]; omega, hf.addrs⟩

theorem Wrote.overwrote (w : Wrote sb g i off bs g') (h : Vol sb g F U t L st) {U' : Set ℕ}
    {L' : List ℕ} {st' : Store} {E : Set ℕ} (h' : Vol sb (g'.blur E) ∅ U' t L' st') (hsb : sb.Ok)
    (hi : sb.Alive g.X i) (hoff : off ≤ (g.X i).size) (hend : off + bs.length ≤ MAXFILE * BSIZE) :
    Overwrote sb g i off bs
      ((g'.setX i ((g'.X i).resize (max (g.X i).size (off + bs.length)))).flush sb i) := by
  have v := w.vol_resize h h' hi hoff hend
  set x := (g'.X i).resize (max (g.X i).size (off + bs.length)) with hx
  have hXi : (g'.setX i x).X i = x := update_self ..
  have hX : ∀ j ≠ i, (g'.setX i x).X j = g'.X j := fun j hj => update_of_ne hj ..
  have hnode : ((g'.setX i x).flush sb i).node sb = (g'.setX i x).node sb := v.node_flush hsb hi.2.1
  have hi' : sb.Alive (g'.setX i x).X i := by
    have := w.alive_iff.2 hi
    unfold Superblock.Alive at this ⊢
    rwa [hXi]
  refine ⟨fun j hj => ⟨(hX j hj).trans (w.other j hj), ?_⟩, ?_, ?_, ?_, ?_, ?_, fun hs => ?_, w.dirty⟩
  · rw [hnode, node_setX_of_ne (x := x) rfl hj]
    refine Img.node_congr ?_ fun ha o ho => ?_
    · rw [w.other j hj]
      exact .refl _
    · obtain ⟨hlt, h0, -⟩ := h.block_of_lt ha ho
      exact w.keep j ha o hlt h0 fun e => absurd e hj
  · exact (congrArg Dinode.type hXi).trans w.self.type
  · exact (congrArg Dinode.major hXi).trans w.self.major
  · exact (congrArg Dinode.minor hXi).trans w.self.minor
  · exact (congrArg Dinode.nlink hXi).trans w.self.nlink
  · exact congrArg Dinode.size hXi
  · have hbytes : ((g'.setX i x).flush sb i).bytes i = (g'.setX i x).bytes i := by
      refine map_congr_left fun o ho => ?_
      exact v.byte_congr hi' rfl (fun c hc => flush_V hsb hi.2.1 (sb.bmapstart_lt.le.trans hc))
        (mem_range.1 ho)
    rw [hbytes, ← w.bytes h hi hs hoff, Img.bytes, hXi]
    exact map_congr_left fun o _ => byte_setX rfl

end Grow

/-- `writei` writes a number of the bytes, in whole pieces that go to one block, or fails without a
change. -/
theorem wp_writei {src : Src} {n : ℕ} {Q : ℤ → Fs → Prop} (hsb : sb.Ok) (hP : Tolerant P)
    (h : Vol sb g ∅ U t L s.store) (he : Loaded sb g s e i) (hsrc : src.Fits n)
    (hdir : (g.X i).type = T_DIR → src.Readable n)
    (hbad : (g.X i).size < off ∨ (off + n) % 2 ^ 32 < off ∨ MAXFILE * BSIZE < off + n → Q (-1) s)
    (hQ : ∀ g' E st' m, off ≤ (g.X i).size → off + n ≤ MAXFILE * BSIZE →
      Vol sb (g'.blur E) ∅ (U \ {i}) t L st' →
      Overwrote sb g i off ((range m).map src.byte) g' → m ≤ n →
      (m = 0 ∨ min n (BSIZE - off % BSIZE) ≤ m) → (src.Readable n → E = ∅) →
      Q m (s.put st' e (g'.X i))) :
    wp (writei sb e src off n) Q (fun e _ => P e) s := by
  unfold writei getInode
  simp only [wp_bind, wp_get, wp_pure, he.copy, wp_ite]
  split
  · rename_i hbad'
    exact hbad (hbad'.elim .inl fun h => .inr (.inl h))
  split
  · rename_i hbad'
    exact hbad (.inr (.inr hbad'))
  rename_i hok hend
  rw [not_or, not_lt, not_lt] at hok
  refine wp_writeiLoop hsb hP h he hsrc hdir (Nat.zero_le n) (by omega) (by omega) ?_
  intro g' E st' m h' w hm hpiece hE
  simp only [Nat.zero_add, Nat.sub_zero] at w hm hpiece ⊢
  set bs := (range m).map src.byte with hbs
  have hlen : bs.length = m := by rw [hbs, length_map, length_range]
  have v := w.vol_resize h h' he.alive hok.1 (by omega)
  have o := w.overwrote h h' hsb he.alive hok.1 (by omega)
  rw [hlen] at v o
  simp only [setDinode, wp_bind, wp_modify]
  have hsize : (g'.X i).size = (g.X i).size := w.self.size
  have hset : (if (g'.X i).size < off + m then { g'.X i with size := off + m } else g'.X i) =
      (g'.X i).resize (max (g.X i).size (off + m)) := by
    unfold resize
    split
    · rw [max_eq_right (by omega)]
    · rw [max_eq_left (by omega), ← hsize]
  refine wp_iupdate hsb hP v ?_ ?_ he.alive.2.1 fun st₂ h₂ => ?_
  · simp [Fs.put, Fs.setInode, he.inum]
  · simp [Fs.put, Fs.setInode, hset, blur, setX]
  · have h₂ : Vol sb (((g'.setX i ((g'.X i).resize (max (g.X i).size (off + m)))).flush sb i).blur E) ∅
        (insert i (insert i U) \ {i}) t L st₂ := h₂
    have := hQ _ E st₂ m hok.1 (by omega) (h₂.mono ?_) o hm hpiece hE
    · simpa [Fs.put, Fs.setInode, hset, flush, setX] using this
    · simp

end

end Xv6
