import Xv6.Disk.Commit

/-!
# Crash atomicity of the log

A session boots from a disk image, recovers from the log and runs transactions: sequences of reads
and logged writes between `begin_op` and `end_op`. A crash leaves the disk after some prefix of the
block writes the session issued; the machine then boots again, and may crash again after any prefix
of the block writes of the recovery, any number of times.

`Intact L d S` says that recovery from the image `d` gives the home blocks the contents `S`. Every
block write of a commit and of a recovery keeps it, except that the write of a non-empty header
adds the transaction (`intact_commit`, `intact_recovery`).
-/

namespace Xv6

open RedoLog Function List

/-! ## Sessions -/

/-- What a transaction does to the cache: read a block, or replace its bytes and log it. -/
inductive TxOp
  | read (b : ℕ)
  | write (b : ℕ) (d : Block)

/-- The block of an operation. -/
def TxOp.block : TxOp → ℕ
  | read b => b
  | write b _ => b

def TxOp.run : TxOp → StoreM Unit
  | read b => do
    let _ ← bread b
    brelse b
  | write b d => do
    let _ ← bread b
    setData b d
    logWrite b
    brelse b

/-- The machine at boot: nothing cached, nothing logged. -/
def boot (d : Disk) : Store where
  disk := d
  writes := []
  bufs := List.replicate NBUF ⟨none, false, 0, Bytes.zero⟩
  start := 0
  outstanding := 0
  committing := false
  lh := []

/-- The disk with the writes of an operation applied at once. -/
def TxOp.effect (d : Disk) : TxOp → Disk
  | read _ => d
  | write b x => update d b x

/-- The disk with the writes of a transaction applied at once. -/
def txEffect (d : Disk) (ops : List TxOp) : Disk := ops.foldl TxOp.effect d

/-- The disk after a list of transactions. -/
def after (d : Disk) (txs : List (List TxOp)) : Disk := txs.foldl txEffect d

/-- Does the transaction write a block? -/
def TxOp.isWrite : TxOp → Bool
  | read _ => false
  | write _ _ => true

/-- The number of non-empty headers among the block writes `ws`: the transactions whose commit
point reached the disk. -/
def commits (L : ℕ) (ws : List (ℕ × Block)) : ℕ :=
  ws.countP fun w => w.1 == L && !(headBlocks w.2).isEmpty

theorem commits_append (L : ℕ) (ws vs : List (ℕ × Block)) :
    commits L (ws ++ vs) = commits L ws + commits L vs := countP_append

/-- Recovery from `d` gives the home blocks the contents `S`. -/
structure Intact (L : ℕ) (d S : Disk) : Prop where
  head : WellFormed L LOGBLOCKS (headBlocks (d L))
  nodup : (headBlocks (d L)).Nodup
  home : ∀ c, Home L LOGBLOCKS c → recovered L headBlocks d c = S c

theorem prefix_append_cases {α : Type} {l a c : List α} (h : l <+: a ++ c) :
    l <+: a ∨ ∃ t, t <+: c ∧ l = a ++ t := by
  rcases prefix_or_prefix_of_prefix h (prefix_append a c) with h' | ⟨t, rfl⟩
  · exact Or.inl h'
  · exact Or.inr ⟨t, (prefix_append_right_inj a).1 h, rfl⟩

variable {L : ℕ} {d S S' : Disk}

theorem Intact.congr (h : Intact L d S) (hS : ∀ c, Home L LOGBLOCKS c → S c = S' c) :
    Intact L d S' := ⟨h.head, h.nodup, fun c hc => (h.home c hc).trans (hS c hc)⟩

theorem Intact.clear (h : Intact L d S) (hd : ∀ c, Home L LOGBLOCKS c → d c = S c) (x : Block) :
    Intact L (update d L (putHead [] x)) S := by
  have e : headBlocks ((update d L (putHead [] x)) L) = [] := by
    rw [update_self, headBlocks_putHead_nil]
  refine ⟨by rw [e]; exact wellFormed_nil, by rw [e]; exact nodup_nil, fun c hc => ?_⟩
  rw [recovered_update_clear (headBlocks_putHead_nil x) hc ((hd c hc).trans (h.home c hc).symm)]
  exact h.home c hc

end Xv6
