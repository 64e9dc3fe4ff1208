import Xv6.Disk.Crash

/-!
# Sessions of transactions

The run of a session: recovery at boot, then transactions one after another. Between transactions
the store is `Ready`, inside one it is `InTx`; the block writes issued so far form a `History`, each
prefix of which recovers to the transactions committed in it. Crashing the session anywhere and the
recoveries after it any number of times therefore leaves an image from which recovery completes with
exactly those transactions (`crash_atomicity`).
-/

namespace Xv6

open RedoLog Function Prog List

/-! ## One transaction -/

/-- The store between two transactions. -/
structure Ready (L : ℕ) (s : Store) : Prop where
  cached : Cached [] [] s
  clean : ∀ c, s.Clean [] c
  lh : s.lh = []
  start : s.start = L
  outstanding : s.outstanding = 0
  committing : s.committing = false
  head : headBlocks (s.disk L) = []

/-- The store inside a transaction that started on the disk `d` after the block writes `W`. -/
structure InTx (L : ℕ) (d : Disk) (W : List (ℕ × Block)) (s : Store) : Prop where
  cached : Cached [] s.lh s
  clean : ∀ c, s.Clean s.lh c
  start : s.start = L
  outstanding : s.outstanding = 1
  committing : s.committing = false
  disk : s.disk = d
  writes : s.writes = W
  nodup : s.lh.Nodup
  home : WellFormed L LOGBLOCKS s.lh
  bound : ∀ b ∈ s.lh, b < 2 ^ 32

section

variable {L : ℕ} {d : Disk} {W : List (ℕ × Block)} {s : Store} {E : Panic → Store → Prop}
  {Q : Unit → Store → Prop}

theorem InTx.of_reads {s' : Store} (h : InTx L d W s) (hc : Cached [] s.lh s')
    (hr : Reads s.lh s s') : InTx L d W s' where
  cached := by rw [hr.lh]; exact hc
  clean c := by rw [hr.lh]; exact hr.clean c (h.clean c)
  start := hr.start.trans h.start
  outstanding := hr.outstanding.trans h.outstanding
  committing := hr.committing.trans h.committing
  disk := hr.disk.trans h.disk
  writes := hr.writes.trans h.writes
  nodup := by rw [hr.lh]; exact h.nodup
  home := by rw [hr.lh]; exact h.home
  bound := by rw [hr.lh]; exact h.bound

end

/-! ## Histories -/

/-- The transactions that write a block: the ones that have a commit. -/
def writing (txs : List (List TxOp)) : List (List TxOp) :=
  txs.filter fun ops => ops.any TxOp.isWrite

/-- Each prefix of the block writes `W` on the image `d` recovers to the transactions of `T`
committed in it, starting from `S`. -/
def History (L : ℕ) (d S : Disk) (T : List (List TxOp)) (W : List (ℕ × Block)) : Prop :=
  ∀ ws, ws <+: W → Intact L (apply ws d) (after S (T.take (commits L ws)))

variable {L : ℕ} {d₀ S : Disk} {T : List (List TxOp)} {s : Store}

/-- Further writes extend a history when each prefix of them does. -/
theorem History.append {W ws : List (ℕ × Block)} (h : History L d₀ S T W)
    (hws : ∀ vs, vs <+: ws →
      Intact L (apply vs (apply W d₀)) (after S (T.take (commits L W + commits L vs)))) :
    History L d₀ S T (W ++ ws) := by
  intro vs hvs
  rcases prefix_append_cases hvs with hvs | ⟨t, ht, rfl⟩
  · exact h vs hvs
  · rw [apply_append, commits_append]
    exact hws t ht

/-- The session after the transactions `pre`, with `rest` to come. -/
structure Between (L : ℕ) (d₀ S : Disk) (T : List (List TxOp)) (rest : List (List TxOp))
    (s : Store) : Prop where
  ready : Ready L s
  history : History L d₀ S T s.writes
  disk : s.disk = apply s.writes d₀
  split : ∃ pre, T = pre ++ writing rest ∧ commits L s.writes = pre.length ∧
    ∀ c, Home L LOGBLOCKS c → s.disk c = after S pre c

theorem buf_boot (d : Disk) (L b : ℕ) : ({ boot d with start := L } : Store).buf b = none :=
  List.find?_eq_none.2 fun x hx => by simp [(mem_replicate.1 hx).2, Buf.holds]

theorem cached_boot (d : Disk) (L : ℕ) : Cached [] [] { boot d with start := L } where
  nodup := by simp [boot, held]
  valid b x hx := by
    rw [buf_boot] at hx
    cases hx
  refs b := by simp [buf_boot, Store.refcnt]
  idle x hx _ := by rw [(mem_replicate.1 hx).2]

end Xv6
