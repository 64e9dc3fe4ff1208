import Xv6.Disk.Shows
import Xv6.Fs.Dir
import Xv6.Lib.Ledger

/-!
# Who owns a block

The contents of the disk as the file system uses them: inodes that refer to data blocks, directly or
through one indirect block, and the free map. `Owned sb V X F` is the invariant of the allocator for the
contents `V` and the inodes `X`: the blocks in use form a `Ledger` with the floating blocks `F`, and no
inode has a hole below its size. `Vol` connects it with the store; its index `U` lists the inodes
whose copy on the disk is out of date.
-/

namespace Xv6

open RedoLog Function Nat Fin

/-! ## Bitmaps -/

theorem getBit_setBit (d : Block) {i j : ℕ} (hi : i < BPB) :
    getBit (setBit d i) j = (decide (j = i) || getBit d j) := by
  unfold getBit setBit
  by_cases h : j / 8 = i / 8
  · have hi' : i / 8 < BSIZE := by unfold BSIZE BPB at *; omega
    rw [h, Bytes.rd8_wr8_self _ _ hi', show (256 : ℕ) = 2 ^ 8 by rfl,
      testBit_mod_two_pow, testBit_or, one_shiftLeft, testBit_two_pow]
    have h8 : j % 8 < 8 := mod_lt _ (by decide)
    have e : (i % 8 = j % 8) ↔ j = i := by omega
    simp [h8, e, Bool.or_comm]
  · have : j ≠ i := fun e => h (by rw [e])
    rw [Bytes.rd8_wr8_of_ne _ _ h]
    simp [this]

theorem firstClear_some {d : Block} {n i j : ℕ} (h : firstClear d n i = some j) :
    i ≤ j ∧ j < i + n ∧ getBit d j = false := by
  induction n generalizing i with
  | zero => simp [firstClear] at h
  | succ n ih =>
    rw [firstClear] at h
    split at h
    · obtain ⟨h₁, h₂, h₃⟩ := ih h
      exact ⟨by omega, by omega, h₃⟩
    · rename_i hb
      cases h
      exact ⟨le_rfl, by omega, by simpa using hb⟩

/-! ## The layout of the disk -/

/-- The first block after the free map, as `mkfs` lays out the disk. -/
def Superblock.datastart (sb : Superblock) : ℕ := sb.bmapstart + sb.size / BPB + 1

/-- The areas of the disk are in order and the numbers fit their fields. -/
structure Superblock.Ok (sb : Superblock) : Prop where
  log : sb.logstart + LOGBLOCKS < sb.inodestart
  inodes : sb.iblock sb.ninodes < sb.bmapstart
  size : sb.size < 2 ^ 31
  ninodes : sb.ninodes ≤ 2 ^ 16
  root : ROOTINO < sb.ninodes

/-- The blocks that `balloc` hands out. -/
def Superblock.data (sb : Superblock) : Set ℕ := {b | sb.datastart ≤ b ∧ b < sb.size}

/-- The bit of the block `b` in the free map is set. -/
def Superblock.Used (sb : Superblock) (V : Disk) (b : ℕ) : Prop :=
  getBit (V (sb.bblock b)) (b % BPB) = true

section Layout

variable {sb : Superblock} {b c i : ℕ}

theorem Superblock.Ok.home (h : sb.Ok) (hb : sb.inodestart ≤ b) :
    Home sb.logstart LOGBLOCKS b := Or.inr (h.log.trans_le hb)

theorem Superblock.inodestart_le_iblock : sb.inodestart ≤ sb.iblock i := Nat.le_add_left _ _

theorem Superblock.Ok.iblock_lt (h : sb.Ok) (hi : i < sb.ninodes) : sb.iblock i < sb.bmapstart :=
  lt_of_le_of_lt (Nat.add_le_add_right (Nat.div_le_div_right hi.le) _) h.inodes

theorem Superblock.bmapstart_le_bblock : sb.bmapstart ≤ sb.bblock b := Nat.le_add_left _ _

theorem Superblock.bblock_lt (hb : b < sb.size) : sb.bblock b < sb.datastart := by
  have := Nat.div_le_div_right (c := BPB) hb.le
  unfold bblock datastart
  omega

theorem Superblock.Ok.inodestart_le (h : sb.Ok) : sb.inodestart ≤ sb.bmapstart :=
  sb.inodestart_le_iblock.trans h.inodes.le

theorem Superblock.bmapstart_lt : sb.bmapstart < sb.datastart :=
  lt_succ_of_le (Nat.le_add_right _ _)

theorem Superblock.Ok.home_iblock (h : sb.Ok) : Home sb.logstart LOGBLOCKS (sb.iblock i) :=
  h.home sb.inodestart_le_iblock

theorem Superblock.Ok.home_bblock (h : sb.Ok) : Home sb.logstart LOGBLOCKS (sb.bblock b) :=
  h.home (h.inodestart_le.trans sb.bmapstart_le_bblock)

theorem Superblock.Ok.home_data (h : sb.Ok) (hb : b ∈ sb.data) : Home sb.logstart LOGBLOCKS b :=
  h.home (h.inodestart_le.trans (sb.bmapstart_lt.le.trans hb.1))

theorem Superblock.Ok.ne_zero (h : sb.Ok) (hb : b ∈ sb.data) : b ≠ 0 := by
  have h₁ := h.log
  have h₂ := h.inodestart_le
  have h₃ : sb.bmapstart < sb.datastart := sb.bmapstart_lt
  have h₄ := hb.1
  omega

theorem Superblock.bblock_congr (hb : c / BPB = b / BPB) : sb.bblock c = sb.bblock b := by
  unfold bblock
  rw [hb]

/-- The free map after a change of the bit of `b`. -/
theorem Superblock.used_update {V : Disk} (d : Block) (b c : ℕ) :
    sb.Used (update V (sb.bblock b) d) c ↔
      if c / BPB = b / BPB then getBit d (c % BPB) = true else sb.Used V c := by
  unfold Used
  by_cases h : c / BPB = b / BPB
  · rw [if_pos h, bblock_congr h, update_self]
  · rw [if_neg h, update_of_ne]
    unfold bblock
    omega

theorem Superblock.used_setBit {V : Disk} :
    sb.Used (update V (sb.bblock b) (setBit (V (sb.bblock b)) (b % BPB))) c ↔
      c = b ∨ sb.Used V c := by
  have hm : ∀ n : ℕ, n % BPB < BPB := fun n => mod_lt n (by decide)
  rw [used_update]
  by_cases h : c / BPB = b / BPB
  · have e : c % BPB = b % BPB ↔ c = b :=
      ⟨fun e => by rw [← div_add_mod c BPB, h, e, div_add_mod], fun e => by rw [e]⟩
    rw [if_pos h, getBit_setBit _ (hm b), Bool.or_eq_true, decide_eq_true_iff, e, Used,
      bblock_congr h]
  · have : c ≠ b := fun e => h (by rw [e])
    simp [if_neg h, this]

end Layout

/-! ## References -/

/-- A place that can refer to a block: a slot of `addrs` or an entry of the indirect block. -/
inductive Place
  | slot (i : ℕ) (k : Fin (NDIRECT + 1))
  | entry (i : ℕ) (j : Fin NINDIRECT)
  deriving DecidableEq

/-- The inode of a place. -/
def Place.inum : Place → ℕ
  | slot i _ => i
  | entry i _ => i

/-- The slot of `addrs` for the indirect block. -/
abbrev Dinode.indirect (x : Dinode) : ℕ := x.addrs (Fin.last NDIRECT)

/-- The disk address of the block `bn` of an inode, 0 if there is none. -/
def blockAt (V : Disk) (x : Dinode) (bn : ℕ) : ℕ :=
  if h : bn < NDIRECT then x.addrs ⟨bn, Nat.lt_succ_of_lt h⟩
  else if x.indirect = 0 then 0 else Bytes.rdle (V x.indirect) (4 * (bn - NDIRECT)) 4

/-- The inode `i` exists and is allocated. -/
def Superblock.Alive (sb : Superblock) (X : ℕ → Dinode) (i : ℕ) : Prop :=
  0 < i ∧ i < sb.ninodes ∧ (X i).type ≠ 0

instance (sb : Superblock) (X : ℕ → Dinode) (i : ℕ) : Decidable (sb.Alive X i) :=
  inferInstanceAs (Decidable (_ ∧ _))

/-- The block that a place refers to; places of free inodes refer to none. -/
def refAt (sb : Superblock) (V : Disk) (X : ℕ → Dinode) : Place → ℕ
  | .slot i k => if sb.Alive X i then (X i).addrs k else 0
  | .entry i j => if sb.Alive X i ∧ (X i).indirect ≠ 0 then
      Bytes.rdle (V (X i).indirect) (4 * j) 4 else 0

/-- The place of the block `bn` of the inode `i`. -/
def dataPlace (i bn : ℕ) : Place :=
  if h : bn < NDIRECT then .slot i ⟨bn, Nat.lt_succ_of_lt h⟩
  else .entry i ⟨(bn - NDIRECT) % NINDIRECT, Nat.mod_lt _ (by decide)⟩

/-- The fields of an inode fit their width on the disk. -/
structure Dinode.Fits (x : Dinode) : Prop where
  type : x.type < 2 ^ 16
  major : x.major < 2 ^ 16
  minor : x.minor < 2 ^ 16
  nlink : x.nlink < 2 ^ 16
  size : x.size < 2 ^ 32
  addrs : ∀ k, x.addrs k < 2 ^ 32

/-- The invariant of the block allocator for the contents `V` and the inodes `X`. -/
structure Owned (sb : Superblock) (V : Disk) (X : ℕ → Dinode) (F : Set ℕ) : Prop where
  ledger : Ledger sb.data (refAt sb V X) (sb.Used V) F
  reserved : ∀ b < sb.datastart, b < sb.size → sb.Used V b
  full : ∀ i, sb.Alive X i → ∀ bn, bn * BSIZE < (X i).size → blockAt V (X i) bn ≠ 0
  size_le : ∀ i, sb.Alive X i → (X i).size ≤ MAXFILE * BSIZE
  fits : ∀ i < sb.ninodes, (X i).Fits

/-- Places whose block must be shown as it is: the indirect blocks and the blocks of directories. -/
def Place.Guarded (X : ℕ → Dinode) (p : Place) : Prop :=
  (X p.inum).type = T_DIR ∨ p = .slot p.inum (Fin.last NDIRECT)

/-- The contents of the disk, the blocks that may be shown otherwise, and the inodes. -/
structure Img where
  V : Disk
  D : Set ℕ
  X : ℕ → Dinode

/-- The volume in the store. -/
structure Vol (sb : Superblock) (g : Img) (F U : Set ℕ) (t : ℕ) (L : List ℕ) (st : Store) :
    Prop where
  shows : Shows sb.logstart g.V g.D t L st
  own : Owned sb g.V g.X F
  dirty : ∀ b ∈ g.D, b ∈ sb.data ∧ ∀ p, p.Guarded g.X → refAt sb g.V g.X p ≠ b
  sync : ∀ i < sb.ninodes, i ∉ U → Dinode.read (g.V (sb.iblock i)) i = g.X i

section Refs

variable {sb : Superblock} {V V' : Disk} {X X' : ℕ → Dinode} {F : Set ℕ} {i bn : ℕ}

theorem dataPlace_inum : (dataPlace i bn).inum = i := by
  unfold dataPlace
  split <;> rfl

theorem refAt_dataPlace (h : sb.Alive X i) (hbn : bn < MAXFILE) :
    refAt sb V X (dataPlace i bn) = blockAt V (X i) bn := by
  unfold dataPlace blockAt
  split
  · exact if_pos h
  · have hm : (bn - NDIRECT) % NINDIRECT = bn - NDIRECT :=
      mod_eq_of_lt (by unfold MAXFILE NDIRECT NINDIRECT at *; omega)
    simp only [refAt, hm]
    by_cases h0 : (X i).indirect = 0
    · rw [if_neg fun hh => hh.2 h0, if_pos h0]
    · rw [if_pos ⟨h, h0⟩, if_neg h0]

theorem dataPlace_inj {i' bn' : ℕ} (hbn : bn < MAXFILE) (hbn' : bn' < MAXFILE)
    (h : dataPlace i bn = dataPlace i' bn') : i = i' ∧ bn = bn' := by
  unfold dataPlace at h
  split at h <;> split at h
  · simp only [Place.slot.injEq, mk.injEq] at h
    exact h
  · cases h
  · cases h
  · simp only [Place.entry.injEq, mk.injEq] at h
    unfold MAXFILE NDIRECT NINDIRECT at *
    rw [mod_eq_of_lt (by omega), mod_eq_of_lt (by omega)] at h
    exact ⟨h.1, by omega⟩

theorem dataPlace_ne_indirect : dataPlace i bn ≠ .slot i (last NDIRECT) := by
  unfold dataPlace
  split
  · rename_i h
    simp only [ne_eq, Place.slot.injEq, true_and, Fin.ext_iff, val_last]
    omega
  · simp

theorem blockAt_congr {x : Dinode} (h : x.indirect ≠ 0 → V' x.indirect = V x.indirect) :
    blockAt V' x bn = blockAt V x bn := by
  unfold blockAt
  split
  · rfl
  · split
    · rfl
    · rename_i h0
      rw [h h0]

theorem refAt_congr (h : ∀ i, sb.Alive X i → (X i).indirect ≠ 0 →
    V' (X i).indirect = V (X i).indirect) : refAt sb V' X = refAt sb V X := by
  funext p
  cases p with
  | slot i k => rfl
  | entry i j =>
    simp only [refAt]
    by_cases h0 : sb.Alive X i ∧ (X i).indirect ≠ 0
    · rw [if_pos h0, if_pos h0, h i h0.1 h0.2]
    · rw [if_neg h0, if_neg h0]

theorem alive_congr (h : X' i = X i) : sb.Alive X' i ↔ sb.Alive X i := by
  unfold Superblock.Alive
  rw [h]

/-- What a place refers to depends on its own inode only. -/
theorem refAt_congr_inode {p : Place} (h : X' p.inum = X p.inum) :
    refAt sb V X' p = refAt sb V X p := by
  cases p with
  | slot j k =>
    have hj : X' j = X j := h
    simp only [refAt, hj]
    exact if_congr (alive_congr hj) rfl rfl
  | entry j k =>
    have hj : X' j = X j := h
    simp only [refAt, hj]
    exact if_congr (and_congr_left' (alive_congr hj)) rfl rfl

theorem refAt_indirect (h : sb.Alive X i) :
    refAt sb V X (.slot i (last NDIRECT)) = (X i).indirect := if_pos h

/-- Changes of the contents outside of the indirect blocks, with the free map given. -/
theorem Owned.congr (h : Owned sb V X F) {F' : Set ℕ}
    (hV : ∀ i, sb.Alive X i → (X i).indirect ≠ 0 → V' (X i).indirect = V (X i).indirect)
    (hl : Ledger sb.data (refAt sb V X) (sb.Used V') F')
    (hr : ∀ b < sb.datastart, b < sb.size → sb.Used V' b) : Owned sb V' X F' where
  ledger := by
    rw [refAt_congr hV]
    exact hl
  reserved := hr
  full i hi bn hbn := by
    rw [blockAt_congr fun h0 => hV i hi h0]
    exact h.full i hi bn hbn
  size_le := h.size_le
  fits := h.fits

theorem Owned.indirect_mem (h : Owned sb V X F) (hi : sb.Alive X i) (h0 : (X i).indirect ≠ 0) :
    (X i).indirect ∈ sb.data := by
  have := h.ledger.range (.slot i (last NDIRECT))
  rw [refAt_indirect hi] at this
  exact this h0

end Refs

end Xv6
