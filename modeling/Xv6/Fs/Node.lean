import Xv6.Fs.Content

/-!
# Inodes as nodes

What the layers above see of an allocated inode: its type, its device numbers, its link count and its
bytes. `Img.node` is this view of an image. It does not depend on where the blocks of an inode are, so
the functions that allocate blocks or store inodes on the disk do not change it.
-/

namespace Xv6

open Function Img List

/-- An allocated inode with its contents. -/
structure Node where
  type : ℕ
  major : ℕ
  minor : ℕ
  nlink : ℕ
  data : List UInt8

/-- The byte at the offset `o` of the inode `i`. -/
def Img.byte (g : Img) (i o : ℕ) : UInt8 := Bytes.get (g.V (blockAt g.V (g.X i) (o / BSIZE))) (o % BSIZE)

/-- The contents of the inode `i`. -/
def Img.bytes (g : Img) (i : ℕ) : List UInt8 := (List.range (g.X i).size).map (g.byte i)

def Dinode.node (x : Dinode) (data : List UInt8) : Node := ⟨x.type, x.major, x.minor, x.nlink, data⟩

/-- The node of the inode `i`, if it is allocated. -/
def Img.node (sb : Superblock) (g : Img) (i : ℕ) : Option Node :=
  if sb.Alive g.X i then some ((g.X i).node (g.bytes i)) else none

variable {sb : Superblock} {g g' : Img} {F U : Set ℕ} {t i j o : ℕ} {L : List ℕ} {st : Store} {n : Node}

theorem Img.node_of_alive (h : sb.Alive g.X i) : g.node sb i = some ((g.X i).node (g.bytes i)) := if_pos h

theorem Img.node_of_not_alive (h : ¬ sb.Alive g.X i) : g.node sb i = none := if_neg h

theorem Img.node_eq_some (h : g.node sb i = some n) : sb.Alive g.X i ∧ n = (g.X i).node (g.bytes i) := by
  unfold node at h
  split at h
  · rename_i ha
    exact ⟨ha, (Option.some.inj h).symm⟩
  · cases h

theorem Img.length_bytes (g : Img) (i : ℕ) : (g.bytes i).length = (g.X i).size := by
  simp [bytes]

/-- The block of a byte is there. -/
theorem Vol.block_of_lt (h : Vol sb g F U t L st) (hi : sb.Alive g.X i) (ho : o < (g.X i).size) :
    o / BSIZE < MAXFILE ∧ blockAt g.V (g.X i) (o / BSIZE) ≠ 0 ∧
      blockAt g.V (g.X i) (o / BSIZE) ∈ sb.data := by
  have hb : BSIZE = 1024 := rfl
  have hsz := h.own.size_le i hi
  have hlt : o / BSIZE < MAXFILE := by
    rw [Nat.div_lt_iff_lt_mul (by omega)]
    omega
  have h0 := h.own.full i hi (o / BSIZE) (lt_of_le_of_lt (Nat.div_mul_le_self ..) ho)
  exact ⟨hlt, h0, h.block_mem hi hlt h0⟩

theorem Img.node_congr (hm : SameMeta (g.X j) (g'.X j))
    (hb : sb.Alive g.X j → ∀ o < (g.X j).size, g'.byte j o = g.byte j o) :
    g'.node sb j = g.node sb j := by
  by_cases ha : sb.Alive g.X j
  · have ha' : sb.Alive g'.X j := by
      unfold Superblock.Alive at ha ⊢
      rwa [hm.type]
    have hbytes : g'.bytes j = g.bytes j := by
      unfold Img.bytes
      rw [hm.size]
      exact map_congr_left fun o ho => hb ha o (mem_range.1 ho)
    rw [node_of_alive ha, node_of_alive ha', hbytes]
    simp only [Dinode.node, hm.type, hm.major, hm.minor, hm.nlink]
  · have ha' : ¬ sb.Alive g'.X j := by
      unfold Superblock.Alive at ha ⊢
      rwa [hm.type]
    rw [node_of_not_alive ha, node_of_not_alive ha']

theorem Img.node_eq_update {o : Option Node} (hi : g'.node sb i = o)
    (hj : ∀ j ≠ i, g'.node sb j = g.node sb j) : g'.node sb = update (g.node sb) i o := by
  funext j
  by_cases e : j = i
  · rw [e, update_self, hi]
  · rw [update_of_ne e, hj j e]

theorem Vol.byte_congr (h : Vol sb g F U t L st) (hj : sb.Alive g.X j) (hX : g'.X j = g.X j)
    (hV : ∀ c, sb.datastart ≤ c → g'.V c = g.V c) (ho : o < (g.X j).size) : g'.byte j o = g.byte j o := by
  obtain ⟨-, -, hd⟩ := h.block_of_lt hj ho
  unfold byte
  rw [hX, blockAt_congr fun h0 => hV _ (h.own.indirect_mem hj h0).1, hV _ hd.1]

theorem Vol.blockAt_flush (h : Vol sb g F U t L st) (hsb : sb.Ok) (hi : i < sb.ninodes) (hj : sb.Alive g.X j)
    {bn : ℕ} : blockAt (g.flush sb i).V (g.X j) bn = blockAt g.V (g.X j) bn :=
  blockAt_congr fun h0 => flush_V hsb hi (sb.bmapstart_lt.le.trans (h.own.indirect_mem hj h0).1)

theorem Vol.node_flush (h : Vol sb g F U t L st) (hsb : sb.Ok) (hi : i < sb.ninodes) :
    (g.flush sb i).node sb = g.node sb := by
  funext j
  refine node_congr (.refl _) fun hj o ho => h.byte_congr hj rfl (fun c hc => ?_) ho
  exact flush_V hsb hi (sb.bmapstart_lt.le.trans hc)

variable {V : Disk} {X : ℕ → Dinode} {x : Dinode}

/-- The bytes do not depend on the fields of the inode other than the addresses. -/
theorem Img.byte_setX (ha : x.addrs = (g.X i).addrs) : (g.setX i x).byte j o = g.byte j o := by
  unfold byte
  by_cases e : j = i
  · subst e
    have hblk : ∀ bn, blockAt g.V x bn = blockAt g.V (g.X j) bn := fun bn => by
      unfold blockAt
      simp only [Dinode.indirect, ha]
    rw [show (g.setX j x).X j = x from update_self .., show (g.setX j x).V = g.V from rfl, hblk]
  · rw [show (g.setX i x).X j = g.X j from update_of_ne e ..]
    rfl

/-- The other nodes do not change with the fields of an inode. -/
theorem Img.node_setX_of_ne (ha : x.addrs = (g.X i).addrs) (hj : j ≠ i) :
    (g.setX i x).node sb j = g.node sb j := by
  refine node_congr ?_ fun _ o _ => byte_setX ha
  rw [show (g.setX i x).X j = g.X j from update_of_ne hj ..]
  exact .refl _

/-! ## New inodes -/

theorem refAt_of_not_alive {p : Place} (h : ¬ sb.Alive X p.inum) :
    refAt sb V X p = 0 := by
  cases p with
  | slot j k => exact if_neg h
  | entry j k => exact if_neg fun ha => h ha.1

/-- An inode without blocks refers to none. -/
theorem refAt_birth (hi : ¬ sb.Alive X i)
    (ha : x.addrs = fun _ => 0) : refAt sb V (update X i x) = refAt sb V X := by
  funext p
  by_cases e : p.inum = i
  · rw [refAt_of_not_alive (p := p) (X := X) (by rwa [e])]
    cases p with
    | slot j k =>
      obtain rfl : j = i := e
      simp only [refAt, update_self, ha, ite_self]
    | entry j k =>
      obtain rfl : j = i := e
      simp [refAt, update_self, Dinode.indirect, ha]
  · exact refAt_congr_inode (update_of_ne e ..)

/-- A free inode is replaced by one without blocks. -/
theorem Vol.birth (h : Vol sb g F U t L st) (hi : ¬ sb.Alive g.X i) (hx : x.Fits)
    (ha : x.addrs = fun _ => 0) (hs : x.size = 0) : Vol sb (g.setX i x) F (insert i U) t L st := by
  refine h.setX (refAt_birth hi ha) (fun _ bn hbn => ?_) (fun _ => ?_) hx fun _ => Or.inr fun p hp => ?_
  · rw [hs] at hbn
    exact absurd hbn (Nat.not_lt_zero _)
  · rw [hs]
    exact Nat.zero_le _
  · exact refAt_of_not_alive (by rwa [hp])

theorem Img.node_birth (hi : 0 < i ∧ i < sb.ninodes) (ht : x.type ≠ 0) (hs : x.size = 0) :
    (g.setX i x).node sb = update (g.node sb) i (some (x.node [])) := by
  have hXi : (g.setX i x).X i = x := update_self ..
  refine node_eq_update ?_ fun j hj => ?_
  · rw [node_of_alive ⟨hi.1, hi.2, by rwa [hXi]⟩, bytes, hXi, hs]
    rfl
  · have hX : (g.setX i x).X j = g.X j := update_of_ne hj ..
    refine node_congr ?_ fun _ o _ => ?_
    · rw [hX]
      exact .refl _
    · unfold byte
      rw [hX]
      rfl

end Xv6
