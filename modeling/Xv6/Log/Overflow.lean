import Xv6.Log.Protocol

/-!
# The log does not overflow, except for repeated writes

`log_write` tests for a full log before it looks for the block in it. Operations on at most
`MAXOPBLOCKS` distinct blocks never find the log full when they write a block that is not in it. But
when all operations have used up what they reserved, the log may be full, and then writing a block of
it again panics (`not_never_overflows`).
-/

namespace Xv6

open Function List

/-- Every operation calls `log_write` on at most `MAXOPBLOCKS` distinct blocks. -/
def FewBlocks (s : LogSys) (es : List LogEvent) : Prop :=
  ∀ p b D F, .logWrite p b ∈ es → s.pc p = .inOp D F → (insert b D).card ≤ MAXOPBLOCKS

/-- A block is written again only while the log is not full. -/
def Slack (s : LogSys) (es : List LogEvent) : Prop :=
  ∀ p b, .logWrite p b ∈ es → b ∈ s.lh → s.lh.length < LOGBLOCKS

def FewBlocksStep (s : LogSys) (es : List LogEvent) (s' : LogSys) : Prop :=
  LogStep s es s' ∧ FewBlocks s es

def SlackStep (s : LogSys) (es : List LogEvent) (s' : LogSys) : Prop :=
  FewBlocksStep s es s' ∧ Slack s es

section

variable {s s' : LogSys} {es : List LogEvent} {p : Slot} {b : ℕ} {D F : Finset ℕ}

theorem FewBlocks.fewNew (h : Kept s) (hf : FewBlocks s es) : FewNew s es := fun p b D F hb hp _ =>
  (Finset.card_le_card (Finset.insert_subset_insert b (h.added p D F hp).1)).trans (hf p b D F hb hp)

/-- An operation that writes a block which is not in the log has added fewer than `MAXOPBLOCKS`. -/
theorem Kept.card_lt (h : Kept s) (hp : s.pc p = .inOp D F) (hb : b ∉ s.lh)
    (hD : (insert b D).card ≤ MAXOPBLOCKS) : F.card < MAXOPBLOCKS := by
  obtain ⟨hFD, hF⟩ := h.added p D F hp
  have hbF : b ∉ F := fun hbF => hb (hF b hbF)
  calc F.card < (insert b F).card := by rw [Finset.card_insert_of_notMem hbF]; omega
    _ ≤ (insert b D).card := Finset.card_le_card (Finset.insert_subset_insert b hFD)
    _ ≤ MAXOPBLOCKS := hD

theorem SlackStep.not_tooBig (h : Kept s) (st : SlackStep s es s') (p : Slot) :
    .panic p .tooBig ∉ es := by
  obtain ⟨⟨st, hf⟩, hslack⟩ := st
  cases st with
  | @writeTooBig q b D F hq _ hfull =>
    by_cases hb : b ∈ s.lh
    · have := hslack q b (by simp) hb
      omega
    · -- the operation has reserved room left, so the log is not full
      have hlt := h.card_lt hq hb (hf q b D F (by simp) hq)
      have := h.fits.lt_cap (Kept.held_of_inOp hq) hlt
      omega
  | _ => simp

end

/-- **Admitted operations do not overflow the log**, as long as a block that is already in the log is
written only while the log is not full. -/
theorem never_overflows_of_slack {tr : List LogEvent} {s : LogSys}
    (hr : Trans.Run SlackStep LogSys.init tr s) (p : Slot) : .panic p .tooBig ∉ tr := by
  refine (hr.invariant (I := fun tr s => Kept s ∧ .panic p .tooBig ∉ tr) ⟨kept_init, by simp⟩
    fun tr s es s' h st => ⟨?_, ?_⟩).2
  · exact st.1.1.kept h.1 (st.1.2.fewNew h.1)
  · rw [List.mem_append]
    exact fun hmem => hmem.elim h.2 (st.not_tooBig h.1 p)

/-- A process writes block 40 twice. -/
theorem never_overflows_of_slack_twice :
    ∃ tr s, Trans.Run SlackStep LogSys.init tr s ∧ s.lh = [40] ∧ .panic 0 .tooBig ∉ tr := by
  have hr := (Trans.Run.refl : Trans.Run SlackStep LogSys.init [] _)
    |>.tail ⟨⟨@LogStep.callBegin _ 0 rfl rfl, fun _ _ _ _ h => by simp at h⟩, fun _ _ h => by simp at h⟩
    |>.tail ⟨⟨@LogStep.beginAdmit _ 0 rfl ⟨rfl, rfl⟩ rfl (by decide), fun _ _ _ _ h => by simp at h⟩,
      fun _ _ h => by simp at h⟩
    |>.tail ⟨⟨@LogStep.writeAppend _ 0 40 ∅ ∅ rfl ⟨rfl, rfl⟩ (by decide) (by decide) (by decide),
      fun p b D F h hp => by
        simp only [List.mem_singleton, LogEvent.logWrite.injEq] at h
        obtain ⟨rfl, rfl⟩ := h
        cases hp
        decide⟩,
      fun _ _ _ _ => by decide⟩
    |>.tail ⟨⟨@LogStep.writeAbsorb _ 0 40 {40} {40} rfl ⟨rfl, rfl⟩ (by decide) (by decide) (by decide),
      fun p b D F h hp => by
        simp only [List.mem_singleton, LogEvent.logWrite.injEq] at h
        obtain ⟨rfl, rfl⟩ := h
        cases hp
        decide⟩,
      fun _ _ _ _ => by decide⟩
  exact ⟨_, _, hr, rfl, never_overflows_of_slack hr 0⟩

/-! ## The failing run -/

theorem fill (p : Slot) (bs : List ℕ) : ∀ (s : LogSys) (D F : Finset ℕ), s.pc p = .inOp D F →
    s.Acquires p → 1 ≤ s.outstanding → s.lh.length + bs.length ≤ LOGBLOCKS → (s.lh ++ bs).Nodup →
    D.card + bs.length ≤ MAXOPBLOCKS →
    ∃ tr s' D' F', Trans.Run FewBlocksStep s tr s' ∧ s'.pc = update s.pc p (.inOp D' F') ∧
      s'.lock = s.lock ∧ s'.mode = s.mode ∧ s'.outstanding = s.outstanding ∧ s'.lh = s.lh ++ bs ∧
      D ∪ bs.toFinset = D' ∧ D'.card ≤ D.card + bs.length := by
  induction bs with
  | nil =>
    intro s D F hp _ _ _ _ _
    refine ⟨[], s, D, F, .refl, ?_, rfl, rfl, rfl, by simp, by simp, by simp⟩
    rw [← hp, update_eq_self]
  | cons b bs ih =>
    intro s D F hp ha ho hroom hnd hD
    rw [length_cons] at hroom hD
    have hb : b ∉ s.lh := fun hb => (nodup_append.1 hnd).2.2 b hb b mem_cons_self rfl
    have hcard : (insert b D).card ≤ D.card + 1 := Finset.card_insert_le b D
    have hst : FewBlocksStep s [.logWrite p b]
        (((s.bpin b).setLh (s.lh ++ [b])).setPc p (.inOp (insert b D) (insert b F))) := by
      refine ⟨.writeAppend hp ha (by omega) ho hb, fun q c D' F' h hq => ?_⟩
      simp only [mem_singleton, LogEvent.logWrite.injEq] at h
      obtain ⟨rfl, rfl⟩ := h
      cases hp.symm.trans hq
      omega
    obtain ⟨tr, s', D', F', hr, hpc, hlock, hmode, hout, hlh, hDD, hD'⟩ :=
      ih (((s.bpin b).setLh (s.lh ++ [b])).setPc p (.inOp (insert b D) (insert b F))) (insert b D)
        (insert b F) (update_self ..) ha ho
        (by
          show (s.lh ++ [b]).length + bs.length ≤ LOGBLOCKS
          rw [length_append, length_singleton]
          omega)
        (by
          show ((s.lh ++ [b]) ++ bs).Nodup
          rwa [append_assoc])
        (by omega)
    refine ⟨_, s', D', F', hr.head hst, ?_, hlock, hmode, hout, ?_, ?_, ?_⟩
    · rw [hpc]
      exact update_idem _ _ _
    · rw [hlh]
      exact append_assoc ..
    · rw [← hDD, toFinset_cons, Finset.insert_union, Finset.union_insert]
    · rw [length_cons]
      omega

theorem three_admitted : ∃ tr s, Trans.Run FewBlocksStep LogSys.init tr s ∧
    (∀ p : Slot, p.val < 3 → s.pc p = .inOp ∅ ∅) ∧ s.lock = none ∧ (∀ p, s.mode p = .awake) ∧
    s.outstanding = 3 ∧ s.lh = [] := by
  have hr := (Trans.Run.refl : Trans.Run FewBlocksStep LogSys.init [] _)
    |>.tail ⟨@LogStep.callBegin _ 0 rfl rfl, fun _ _ _ _ h => by simp at h⟩
    |>.tail ⟨@LogStep.beginAdmit _ 0 rfl ⟨rfl, rfl⟩ rfl (by decide), fun _ _ _ _ h => by simp at h⟩
    |>.tail ⟨@LogStep.callBegin _ 1 rfl rfl, fun _ _ _ _ h => by simp at h⟩
    |>.tail ⟨@LogStep.beginAdmit _ 1 rfl ⟨rfl, rfl⟩ rfl (by decide), fun _ _ _ _ h => by simp at h⟩
    |>.tail ⟨@LogStep.callBegin _ 2 rfl rfl, fun _ _ _ _ h => by simp at h⟩
    |>.tail ⟨@LogStep.beginAdmit _ 2 rfl ⟨rfl, rfl⟩ rfl (by decide), fun _ _ _ _ h => by simp at h⟩
  refine ⟨_, _, hr, fun p hp => ?_, rfl, fun _ => rfl, rfl, rfl⟩
  obtain rfl | rfl | rfl : p = 0 ∨ p = 1 ∨ p = 2 := by
    simp only [Fin.ext_iff]
    show p.val = 0 ∨ p.val = 1 ∨ p.val = 2
    omega
  all_goals rfl

/-- Three operations are admitted to the empty log and add ten blocks each; the third writes one of
its own blocks again. -/
theorem not_never_overflows :
    ¬ ∀ tr s, Trans.Run FewBlocksStep LogSys.init tr s → ∀ p, .panic p .tooBig ∉ tr := by
  intro h
  obtain ⟨tr, s, hr, hpc, hl, hm, ho, hlh⟩ := three_admitted
  obtain ⟨tr₀, s₀, D₀, F₀, hr₀, hpc₀, hl₀, hm₀, ho₀, hlh₀, -, -⟩ :=
    fill 0 (List.range' 40 10) s ∅ ∅ (hpc 0 (by decide)) ⟨hl, hm 0⟩ (by omega) (by rw [hlh]; decide)
      (by rw [hlh]; decide) (by decide)
  have hpc' : ∀ p : Slot, p ≠ 0 → p.val < 3 → s₀.pc p = .inOp ∅ ∅ := fun p hp hlt => by
    rw [hpc₀, update_of_ne hp, hpc p hlt]
  rw [hlh] at hlh₀
  obtain ⟨tr₁, s₁, D₁, F₁, hr₁, hpc₁, hl₁, hm₁, ho₁, hlh₁, -, -⟩ :=
    fill 1 (List.range' 50 10) s₀ ∅ ∅ (hpc' 1 (by decide) (by decide)) ⟨by rw [hl₀, hl], by rw [hm₀, hm]⟩
      (by omega) (by rw [hlh₀]; decide) (by rw [hlh₀]; decide) (by decide)
  rw [hlh₀] at hlh₁
  obtain ⟨tr₂, s₂, D₂, F₂, hr₂, hpc₂, hl₂, hm₂, ho₂, hlh₂, hD₂, hc₂⟩ :=
    fill 2 (List.range' 60 10) s₁ ∅ ∅
      (by rw [hpc₁, update_of_ne (by decide), hpc' 2 (by decide) (by decide)])
      ⟨by rw [hl₁, hl₀, hl], by rw [hm₁, hm₀, hm]⟩ (by omega) (by rw [hlh₁]; decide)
      (by rw [hlh₁]; decide) (by decide)
  have hfull : LOGBLOCKS ≤ s₂.lh.length := by
    rw [hlh₂, hlh₁]
    decide
  have hlast : FewBlocksStep s₂ [.logWrite 2 60, .panic 2 .tooBig] (s₂.halt 2) := by
    refine ⟨@LogStep.writeTooBig _ 2 60 D₂ F₂ (by rw [hpc₂, update_self])
      ⟨by rw [hl₂, hl₁, hl₀, hl], by rw [hm₂, hm₁, hm₀, hm]⟩ hfull, fun p b D F hb hp => ?_⟩
    obtain ⟨rfl, rfl⟩ : p = 2 ∧ b = 60 := by simpa using hb
    rw [hpc₂, update_self] at hp
    cases hp
    have h60 : 60 ∈ D₂ := by
      rw [← hD₂]
      decide
    rw [Finset.insert_eq_of_mem h60]
    exact hc₂
  exact h _ _ ((((hr.trans hr₀).trans hr₁).trans hr₂).tail hlast) 2 (by simp)

end Xv6
