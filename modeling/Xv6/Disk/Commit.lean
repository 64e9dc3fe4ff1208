import Xv6.Disk.Log

/-!
# The block writes of a commit and of a recovery

`Writes P P' ws s s'`: from `s`, with the blocks `P` pinned, the program issued exactly the block
writes `ws` and left `s'`, with the blocks `P'` pinned; it kept the view of every clean block it
did not write. `Issued ws s s'` is the part of it that also holds where a panic stopped the
program. The loops of `write_log` and `install_trans` are specified by induction on what is left of
the log header, and `commit` and `recover_from_log` by sequencing them.
-/

namespace Xv6

open RedoLog Function Prog List Bool

/-! ## Logging a block -/

/-- The effect of `log_write` on a held buffer whose bytes were changed. -/
structure Logs (b : ℕ) (s s' : Store) : Prop where
  disk : s'.disk = s.disk
  writes : s'.writes = s.writes
  start : s'.start = s.start
  outstanding : s'.outstanding = s.outstanding
  committing : s'.committing = s.committing
  length : s'.bufs.length = s.bufs.length
  lh : s'.lh = if b ∈ s.lh then s.lh else s.lh ++ [b]
  lh_length : s.lh.length < LOGBLOCKS
  open_tx : 1 ≤ s.outstanding
  clean : ∀ c, c = b ∨ s.Clean s.lh c → s'.Clean s'.lh c
  view : ∀ c, s'.view c = s.view c

variable {ws vs : List (ℕ × Block)} {P : List ℕ} {s s' : Store}

theorem wp_logWrite {b : ℕ} {H : List ℕ} {E : Panic → Store → Prop}
    {Q : Unit → Store → Prop} (h : Cached H s.lh s) (hb : b ∈ H) (hE : E .tooBig s)
    (hE' : E .outsideTrans s) (hQ : ∀ s', Cached H s'.lh s' → Logs b s s' → Q () s') :
    wp (logWrite b) Q E s := by
  unfold logWrite
  refine wp_bind.2 (wp_get.2 ?_)
  split
  · exact hE
  · rename_i hl
    split
    · exact hE'
    · rename_i ho
      split
      · rename_i hm
        refine hQ s h ⟨rfl, rfl, rfl, rfl, rfl, rfl, (if_pos hm).symm, by omega, by omega,
          fun c hc => ?_, fun _ => rfl⟩
        rcases hc with rfl | hc
        · exact fun _ _ => .inl hm
        · exact hc
      · rename_i hm
        refine wp_bind.2 (wp_bpin h hb hm fun s₁ h₁ e₁ l₁ v₁ c₁ => ?_)
        have hlh : s₁.lh ++ [b] = s.lh ++ [b] := by rw [e₁]
        refine hQ { s₁ with lh := s₁.lh ++ [b] } ?_
          ⟨?_, ?_, ?_, ?_, ?_, l₁, ?_, by omega, by omega, fun c hc => ?_, v₁⟩
        · simp only [hlh]
          exact ⟨h₁.nodup, h₁.valid, h₁.refs, h₁.idle⟩
        · rw [e₁]
        · rw [e₁]
        · rw [e₁]
        · rw [e₁]
        · rw [e₁]
        · simp only [hlh, if_neg hm]
        · simp only [hlh]
          exact c₁ c hc

/-! ## The writes of the loops -/

/-- The block writes `ws` were issued between `s` and `s'`. -/
structure Issued (ws : List (ℕ × Block)) (s s' : Store) : Prop where
  writes : s'.writes = s.writes ++ ws
  disk : s'.disk = apply ws s.disk
  start : s'.start = s.start
  length : s'.bufs.length = s.bufs.length

/-- The effect of a program that issued the block writes `ws` and ended. -/
structure Writes (P P' : List ℕ) (ws : List (ℕ × Block)) (s s' : Store) : Prop
    extends Issued ws s s' where
  outstanding : s'.outstanding = s.outstanding
  committing : s'.committing = s.committing
  lh : s'.lh = s.lh
  clean : ∀ c, s.Clean P c → s'.Clean P' c
  clean_of_mem : ∀ w ∈ ws, s'.Clean P' w.1
  view : ∀ c, (∀ w ∈ ws, w.1 ≠ c) → s.Clean P c → s'.view c = s.view c

theorem Reads.toWrites (h : Reads P s s') : Writes P P [] s s' where
  writes := by rw [h.writes, append_nil]
  disk := h.disk
  start := h.start
  length := h.length
  outstanding := h.outstanding
  committing := h.committing
  lh := h.lh
  clean := h.clean
  clean_of_mem _ hw := by simp at hw
  view c _ hc := h.view c hc

theorem Issued.trans {s₁ s₂ s₃ : Store} (h : Issued ws s₁ s₂)
    (h' : Issued vs s₂ s₃) : Issued (ws ++ vs) s₁ s₃ where
  writes := by rw [h'.writes, h.writes, append_assoc]
  disk := by rw [h'.disk, h.disk, apply_append]
  start := h'.start.trans h.start
  length := h'.length.trans h.length

theorem Writes.trans {P P' P'' : List ℕ} {ws vs : List (ℕ × Block)} {s₁ s₂ s₃ : Store}
    (h : Writes P P' ws s₁ s₂) (h' : Writes P' P'' vs s₂ s₃) :
    Writes P P'' (ws ++ vs) s₁ s₃ where
  toIssued := h.toIssued.trans h'.toIssued
  outstanding := h'.outstanding.trans h.outstanding
  committing := h'.committing.trans h.committing
  lh := h'.lh.trans h.lh
  clean c hc := h'.clean c (h.clean c hc)
  clean_of_mem w hw := by
    rcases mem_append.1 hw with hw | hw
    · exact h'.clean _ (h.clean_of_mem w hw)
    · exact h'.clean_of_mem w hw
  view c hc hcl := by
    rw [h'.view c (fun w hw => hc w (mem_append_right _ hw)) (h.clean c hcl),
      h.view c (fun w hw => hc w (mem_append_left _ hw)) hcl]

theorem Issued.refl (s : Store) : Issued [] s s := ⟨by simp, rfl, rfl, rfl⟩

theorem Issued.of_reads (h : Reads P s s') : Issued [] s s' :=
  h.toWrites.toIssued

variable {s s₂ : Store} {a : ℕ} {H P : List ℕ} {d : Block} {E : Panic → Store → Prop}
  {Q : Unit → Store → Prop}

/-- The blocks pinned while `install_trans` has the blocks `bs` still to install. -/
def pins (recovering : Bool) (bs : List ℕ) : List ℕ := if recovering then [] else bs

end Xv6
