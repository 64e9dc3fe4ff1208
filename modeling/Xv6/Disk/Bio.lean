import Xv6.Lib.Bytes
import Xv6.Lib.Prog
import Mathlib.Data.List.Nodup
import Mathlib.Tactic.Common

/-!
# The buffer cache

The buffers of `bio.c` over a disk. The cache is the list of its buffers from `bcache.head.next`
(most recently released) to `bcache.head.prev`; `bget` looks for the block from the front and
recycles the last buffer with no references, `brelse` moves a buffer with no references left to
the front. A buffer is named by the number of the block it holds. There is one disk, and a buffer
that was never used (its `dev` is still 0) holds no block.

`Store` is what survives between two file system calls below the inode layer: the disk, the cache
and the log. Its field `writes` is not in the source: it records the block writes issued since
boot, so that what a crash leaves on the disk is a prefix of it applied to the disk at boot.
-/

namespace Xv6

open List Option

/-- Size of a disk block in bytes. -/
def BSIZE : ℕ := 1024

/-- Number of buffers in the cache, `MAXOPBLOCKS*3`. -/
def NBUF : ℕ := 30

/-- The bytes of a disk block. -/
abbrev Block : Type := Bytes BSIZE

/-- The disk: the bytes of every block. -/
abbrev Disk : Type := ℕ → Block

/-- The panics of the disk and file system code, and the other ways in which a call does not
return. -/
inductive Panic
  /-- "bget: no buffers" -/
  | noBuffers
  /-- "too big a transaction" -/
  | tooBig
  /-- "log_write outside of trans" -/
  | outsideTrans
  /-- "log.committing" -/
  | committing
  /-- "freeing free block" -/
  | freeingFree
  /-- "iget: no inodes" -/
  | noInodes
  /-- "ilock" -/
  | ilock
  /-- "ilock: no type" -/
  | noType
  /-- "iunlock" -/
  | iunlock
  /-- "bmap: out of range" -/
  | outOfRange
  /-- "dirlookup not DIR" -/
  | notDir
  /-- "dirlookup read" -/
  | dirlookupRead
  /-- "dirlink read" -/
  | dirlinkRead
  /-- "isdirempty: readi" -/
  | isdiremptyRead
  /-- "unlink: nlink < 1" -/
  | unlinkNlink
  /-- "unlink: writei" -/
  | unlinkWrite
  /-- "filedup" -/
  | filedup
  /-- "fileclose" -/
  | fileclose
  /-- "fileread" -/
  | fileread
  /-- "filewrite" -/
  | filewrite
  /-- "init exiting" -/
  | initExiting
  /-- Not a panic: the call sleeps and there is no one to wake it. -/
  | asleep
  deriving DecidableEq

/-- A buffer: the block it holds, whether that block has been read, the number of its users and
pins, and the bytes. -/
structure Buf where
  blockno : Option ℕ
  valid : Bool
  refcnt : ℕ
  data : Block

/-- The disk, the buffer cache and the log. -/
structure Store where
  disk : Disk
  /-- The block writes since boot, oldest first. -/
  writes : List (ℕ × Block)
  bufs : List Buf
  /-- `log.start` -/
  start : ℕ
  /-- `log.outstanding` -/
  outstanding : ℕ
  /-- `log.committing` -/
  committing : Bool
  /-- `log.lh`: the first `log.lh.n` entries of `log.lh.block`. -/
  lh : List ℕ

/-- Programs on the store. -/
abbrev StoreM : Type → Type := Prog Store Panic

/-! ## The functions of `bio.c` -/

/-- Does the buffer hold the block `b`? -/
def Buf.holds (b : ℕ) (x : Buf) : Bool := x.blockno == some b

/-- Change the buffer that holds `b`. -/
def touch (b : ℕ) (f : Buf → Buf) (l : List Buf) : List Buf :=
  l.map fun x => if x.holds b then f x else x

/-- Give the last buffer without references to the block `b`. -/
def recycle (b : ℕ) : List Buf → Option (List Buf)
  | [] => none
  | x :: xs =>
    match recycle b xs with
    | some xs' => some (x :: xs')
    | none =>
      if x.refcnt = 0 then some ({ x with blockno := some b, valid := false, refcnt := 1 } :: xs)
      else none

/-- The buffer of the block `b`, if it is in the cache. -/
def Store.buf (s : Store) (b : ℕ) : Option Buf := s.bufs.find? (Buf.holds b)

/-- The bytes of the buffer of `b`. -/
def Store.data (s : Store) (b : ℕ) : Block :=
  match s.buf b with
  | some x => x.data
  | none => Bytes.zero

/-- Change the buffer that holds `b`. -/
def Store.touch (s : Store) (b : ℕ) (f : Buf → Buf) : Store :=
  { s with bufs := Xv6.touch b f s.bufs }

/-- Look through the cache for the block `b`; if it is not there, recycle a buffer for it. -/
def bget (b : ℕ) : StoreM Unit := do
  let s ← Prog.get
  match s.buf b with
  | some _ => Prog.modify fun s => s.touch b fun x => { x with refcnt := x.refcnt + 1 }
  | none =>
    match recycle b s.bufs with
    | some l => Prog.modify fun s => { s with bufs := l }
    | none => Prog.panic .noBuffers

/-- Take the buffer of `b`, read from the disk if needed; the value is its bytes. -/
def bread (b : ℕ) : StoreM Block := do
  bget b
  Prog.modify fun s => s.touch b fun x =>
    if x.valid then x else { x with data := s.disk b, valid := true }
  let s ← Prog.get
  pure (s.data b)

/-- The holder of the buffer of `b` assigns its bytes. -/
def setData (b : ℕ) (d : Block) : StoreM Unit :=
  Prog.modify fun s => s.touch b fun x => { x with data := d }

/-- Write the buffer of `b` to the disk. -/
def bwrite (b : ℕ) : StoreM Unit :=
  Prog.modify fun s =>
    { s with disk := Function.update s.disk b (s.data b), writes := s.writes ++ [(b, s.data b)] }

/-- Release the buffer of `b`; with no reference left it moves to the front of the list. -/
def brelse (b : ℕ) : StoreM Unit :=
  Prog.modify fun s =>
    match s.buf b with
    | some x =>
      if x.refcnt - 1 = 0 then
        { s with bufs := { x with refcnt := 0 } :: s.bufs.eraseP (Buf.holds b) }
      else s.touch b fun x => { x with refcnt := x.refcnt - 1 }
    | none => s

def bpin (b : ℕ) : StoreM Unit :=
  Prog.modify fun s => s.touch b fun x => { x with refcnt := x.refcnt + 1 }

def bunpin (b : ℕ) : StoreM Unit :=
  Prog.modify fun s => s.touch b fun x => { x with refcnt := x.refcnt - 1 }

/-! ## The cache as a partial map -/

section Find

variable {b c : ℕ} {x y : Buf} {l l' : List Buf}

/-- The blocks held by the buffers of a list. -/
def held (l : List Buf) : List ℕ := l.filterMap Buf.blockno

theorem holds_iff : x.holds b = true ↔ x.blockno = some b := by simp [Buf.holds]

theorem find_eq_none : l.find? (Buf.holds b) = none ↔ b ∉ held l := by
  simp only [List.find?_eq_none, held, mem_filterMap, not_exists, not_and, holds_iff]

theorem find_touch {f : Buf → Buf} (hf : ∀ x, (f x).blockno = x.blockno) :
    (touch b f l).find? (Buf.holds c) =
      if c = b then (l.find? (Buf.holds b)).map f else l.find? (Buf.holds c) := by
  induction l with
  | nil => simp [touch]
  | cons x l ih =>
    simp only [touch, map_cons] at ih ⊢
    by_cases hx : x.blockno = some b
    · have h₁ : x.holds b = true := holds_iff.2 hx
      by_cases hc : c = b
      · subst hc
        rw [if_pos h₁, List.find?_cons_of_pos (holds_iff.2 ((hf x).trans hx)), if_pos rfl,
          List.find?_cons_of_pos h₁, map_some]
      · have h₂ : ¬ x.holds c = true := fun h => hc (some.inj ((holds_iff.1 h).symm.trans hx))
        have h₃ : ¬ (f x).holds c = true := fun h => h₂ (holds_iff.2 ((hf x) ▸ holds_iff.1 h))
        rw [if_pos h₁, List.find?_cons_of_neg h₃, ih, if_neg hc, if_neg hc,
          List.find?_cons_of_neg h₂]
    · have h₁ : ¬ x.holds b = true := fun h => hx (holds_iff.1 h)
      rw [if_neg h₁]
      by_cases hc : x.holds c = true
      · have hne : c ≠ b := fun h => h₁ (h ▸ hc)
        rw [List.find?_cons_of_pos hc, if_neg hne, List.find?_cons_of_pos hc]
      · rw [List.find?_cons_of_neg hc, ih, List.find?_cons_of_neg h₁, List.find?_cons_of_neg hc]

theorem held_touch {f : Buf → Buf} (hf : ∀ x, (f x).blockno = x.blockno) :
    held (touch b f l) = held l := by
  induction l with
  | nil => rfl
  | cons x l ih =>
    have hx : (if x.holds b = true then f x else x).blockno = x.blockno := by
      split
      · exact hf x
      · rfl
    simp only [held, touch, map_cons, filterMap_cons, hx] at ih ⊢
    rw [ih]

theorem held_recycle (h : recycle b l = some l') (hb : b ∉ held l) (hn : (held l).Nodup) :
    (held l').Nodup ∧ ∀ c ∈ held l', c = b ∨ c ∈ held l := by
  induction l generalizing l' with
  | nil => simp [recycle] at h
  | cons x l ih =>
    rw [recycle] at h
    have hb' : b ∉ held l := fun hm => hb (by
      simp only [held, mem_filterMap, mem_cons] at hm ⊢
      obtain ⟨y, hy, e⟩ := hm
      exact ⟨y, .inr hy, e⟩)
    cases hx : x.blockno with
    | none =>
      have e : ∀ r, held (x :: r) = held r := fun r => by simp [held, hx]
      rw [e] at hn
      cases hr : recycle b l with
      | some xs' =>
        simp only [hr, some.injEq] at h
        subst h
        obtain ⟨h₁, h₂⟩ := ih hr hb' hn
        rw [e, e]
        exact ⟨h₁, h₂⟩
      | none =>
        simp only [hr] at h
        split at h
        · cases h
          rw [show held ({ x with blockno := some b, valid := false, refcnt := 1 } :: l) =
            b :: held l by simp [held], nodup_cons, e]
          exact ⟨⟨hb', hn⟩, fun c hc => mem_cons.1 hc⟩
        · cases h
    | some c =>
      have e : ∀ r, held (x :: r) = c :: held r := fun r => by simp [held, hx]
      rw [e, nodup_cons] at hn
      cases hr : recycle b l with
      | some xs' =>
        simp only [hr, some.injEq] at h
        subst h
        obtain ⟨h₁, h₂⟩ := ih hr hb' hn.2
        have hcb : c ≠ b := fun h => hb (by rw [e, h]; exact mem_cons_self)
        rw [e, e, nodup_cons]
        refine ⟨⟨fun hc => ?_, h₁⟩, fun d hd => ?_⟩
        · rcases h₂ c hc with h | h
          · exact hcb h
          · exact hn.1 h
        · rcases mem_cons.1 hd with rfl | hd
          · exact .inr mem_cons_self
          · exact (h₂ d hd).imp_right (mem_cons_of_mem _)
      | none =>
        simp only [hr] at h
        split at h
        · cases h
          rw [show held ({ x with blockno := some b, valid := false, refcnt := 1 } :: l) =
            b :: held l by simp [held], nodup_cons, e]
          exact ⟨⟨hb', hn.2⟩, fun d hd => (mem_cons.1 hd).imp_right
            (mem_cons_of_mem _)⟩
        · cases h

theorem find_recycle (h : recycle b l = some l') (hb : b ∉ held l) (hn : (held l).Nodup) :
    (∃ d, l'.find? (Buf.holds b) = some ⟨some b, false, 1, d⟩) ∧
      ∀ c ≠ b, l'.find? (Buf.holds c) = l.find? (Buf.holds c) ∨
        l'.find? (Buf.holds c) = none ∧ ∃ x, l.find? (Buf.holds c) = some x ∧ x.refcnt = 0 := by
  induction l generalizing l' with
  | nil => simp [recycle] at h
  | cons x l ih =>
    rw [recycle] at h
    have hxb : ¬ x.holds b = true := fun hx => hb (by
      simp [held, holds_iff.1 hx])
    have hb' : b ∉ held l := fun hm => hb (by
      simp only [held, mem_filterMap, mem_cons] at hm ⊢
      obtain ⟨y, hy, e⟩ := hm
      exact ⟨y, .inr hy, e⟩)
    have hn' : (held l).Nodup := by
      cases hx : x.blockno with
      | none => simpa [held, hx] using hn
      | some c =>
        rw [show held (x :: l) = c :: held l by simp [held, hx], nodup_cons] at hn
        exact hn.2
    cases hr : recycle b l with
    | some xs' =>
      simp only [hr, some.injEq] at h
      subst h
      obtain ⟨⟨d, h₁⟩, h₂⟩ := ih hr hb' hn'
      refine ⟨⟨d, by rw [List.find?_cons_of_neg hxb, h₁]⟩, fun c hc => ?_⟩
      by_cases hx : x.holds c = true
      · exact .inl (by rw [List.find?_cons_of_pos hx, List.find?_cons_of_pos hx])
      · rw [List.find?_cons_of_neg hx, List.find?_cons_of_neg hx]
        exact h₂ c hc
    | none =>
      simp only [hr] at h
      split at h
      · rename_i h0
        cases h
        refine ⟨⟨x.data, ?_⟩, fun c hc => ?_⟩
        · rw [List.find?_cons_of_pos]
          simp [Buf.holds]
        · rw [List.find?_cons_of_neg (by simpa [Buf.holds] using fun h => hc h.symm)]
          by_cases hx : x.holds c = true
          · -- the recycled buffer held `c`, and no other buffer does
            have hc' : c ∉ held l := by
              rw [show held (x :: l) = c :: held l by simp [held, holds_iff.1 hx],
                nodup_cons] at hn
              exact hn.1
            exact .inr ⟨find_eq_none.2 hc', x, List.find?_cons_of_pos hx, h0⟩
          · exact .inl (List.find?_cons_of_neg hx).symm
      · cases h

theorem find_erase (hy : y.blockno = some b) :
    (y :: l.eraseP (Buf.holds b)).find? (Buf.holds c) =
      if c = b then some y else l.find? (Buf.holds c) := by
  by_cases hc : c = b
  · rw [if_pos hc, List.find?_cons_of_pos (holds_iff.2 (hc ▸ hy))]
  · rw [if_neg hc, List.find?_cons_of_neg fun h => hc (some.inj ((holds_iff.1 h).symm.trans hy))]
    induction l with
    | nil => rfl
    | cons x l ih =>
      by_cases hx : x.holds b = true
      · have h₂ : ¬ x.holds c = true := fun h =>
          hc (some.inj ((holds_iff.1 h).symm.trans (holds_iff.1 hx)))
        rw [eraseP_cons_of_pos hx, List.find?_cons_of_neg h₂]
      · rw [eraseP_cons_of_neg hx]
        by_cases h : x.holds c = true
        · rw [List.find?_cons_of_pos h, List.find?_cons_of_pos h]
        · rw [List.find?_cons_of_neg h, List.find?_cons_of_neg h, ih]

theorem held_erase (hn : (held l).Nodup) (hx : l.find? (Buf.holds b) = some x)
    (hy : y.blockno = some b) : (held (y :: l.eraseP (Buf.holds b))).Nodup := by
  rw [show held (y :: l.eraseP (Buf.holds b)) = b :: held (l.eraseP (Buf.holds b)) by
    simp [held, hy], nodup_cons]
  induction l with
  | nil => simp at hx
  | cons z l ih =>
    by_cases hz : z.holds b = true
    · rw [eraseP_cons_of_pos hz]
      rw [show held (z :: l) = b :: held l by simp [held, holds_iff.1 hz], nodup_cons] at hn
      exact hn
    · rw [eraseP_cons_of_neg hz]
      rw [List.find?_cons_of_neg hz] at hx
      cases hzc : z.blockno with
      | none =>
        have e : ∀ r, held (z :: r) = held r := fun r => by simp [held, hzc]
        rw [e] at hn ⊢
        exact ih hn hx
      | some c =>
        have e : ∀ r, held (z :: r) = c :: held r := fun r => by simp [held, hzc]
        rw [e, nodup_cons] at hn
        obtain ⟨h₁, h₂⟩ := ih hn.2 hx
        have hcb : b ≠ c := fun h => hz (holds_iff.2 (h ▸ hzc))
        have hsub : ∀ d ∈ held (l.eraseP (Buf.holds b)), d ∈ held l := fun d hd => by
          simp only [held, mem_filterMap] at hd ⊢
          obtain ⟨w, hw, e⟩ := hd
          exact ⟨w, mem_of_mem_eraseP hw, e⟩
        rw [e, nodup_cons, mem_cons, not_or]
        exact ⟨⟨hcb, h₁⟩, fun hc => hn.1 (hsub c hc), h₂⟩

theorem length_touch (f : Buf → Buf) : (touch b f l).length = l.length := length_map _

theorem length_recycle (h : recycle b l = some l') : l'.length = l.length := by
  induction l generalizing l' with
  | nil => simp [recycle] at h
  | cons x l ih =>
    rw [recycle] at h
    cases hr : recycle b l with
    | some xs' =>
      simp only [hr, some.injEq] at h
      rw [← h, length_cons, length_cons, ih hr]
    | none =>
      simp only [hr] at h
      split at h
      · cases h; rfl
      · cases h

theorem refcnt_of_recycle_none (h : recycle b l = none) : ∀ x ∈ l, x.refcnt ≠ 0 := by
  induction l with
  | nil => simp
  | cons x l ih =>
    rw [recycle] at h
    cases hr : recycle b l with
    | some xs' => simp [hr] at h
    | none =>
      simp only [hr] at h
      split at h
      · cases h
      · rename_i h0
        intro y hy
        rcases mem_cons.1 hy with rfl | hy
        · exact h0
        · exact ih hr y hy

theorem mem_touch_of_none {f : Buf → Buf} (hf : ∀ x, (f x).blockno = x.blockno)
    (h : x ∈ touch b f l) (hx : x.blockno = none) : x ∈ l := by
  obtain ⟨y, hy, e⟩ := mem_map.1 h
  by_cases hb : y.holds b = true
  · rw [if_pos hb] at e
    rw [← e, hf, holds_iff.1 hb] at hx
    cases hx
  · rw [if_neg hb] at e
    exact e ▸ hy

theorem mem_recycle_of_none (h : recycle b l = some l') (hx : x ∈ l') (hn : x.blockno = none) :
    x ∈ l := by
  induction l generalizing l' with
  | nil => simp [recycle] at h
  | cons z l ih =>
    rw [recycle] at h
    cases hr : recycle b l with
    | some xs' =>
      simp only [hr, some.injEq] at h
      subst h
      rcases mem_cons.1 hx with rfl | hx
      · exact mem_cons_self
      · exact mem_cons_of_mem _ (ih hr hx)
    | none =>
      simp only [hr] at h
      split at h
      · cases h
        rcases mem_cons.1 hx with rfl | hx
        · cases hn
        · exact mem_cons_of_mem _ hx
      · cases h

theorem find_of_mem (hn : (held l).Nodup) (hx : x ∈ l) (hc : x.blockno = some c) :
    l.find? (Buf.holds c) = some x := by
  induction l with
  | nil => simp at hx
  | cons z l ih =>
    rcases mem_cons.1 hx with rfl | hx
    · exact List.find?_cons_of_pos (holds_iff.2 hc)
    · have hcl : c ∈ held l := mem_filterMap.2 ⟨x, hx, hc⟩
      cases hz : z.blockno with
      | none =>
        rw [show held (z :: l) = held l by simp [held, hz]] at hn
        rw [List.find?_cons_of_neg (fun h => by simp [holds_iff.1 h] at hz), ih hn hx]
      | some d =>
        rw [show held (z :: l) = d :: held l by simp [held, hz], nodup_cons] at hn
        have hdc : d ≠ c := fun e => hn.1 (e ▸ hcl)
        rw [List.find?_cons_of_neg (fun h => hdc (some.inj (hz.symm.trans (holds_iff.1 h)))),
          ih hn.2 hx]

end Find

end Xv6
