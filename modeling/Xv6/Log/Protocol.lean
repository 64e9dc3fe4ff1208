import Xv6.Log.Machine

/-!
# The log protocol

Operations reserve `MAXOPBLOCKS` blocks of the log each. `Kept` is the invariant of the log's
contents: the blocks in the log fit beside the unused reservations, they are distinct and pinned once
until they are installed, and while a process commits no operation is outstanding. `Roused` is the
invariant of the sleepers: processes wait in `begin_op` only while a commit or an operation is on its
way, or until the `wakeup` after a commit gets to them.
-/

namespace Xv6

open Monitor Function LogSys List

namespace LogPc

/-- The number of blocks that an operation has added, if the process is in one. -/
def held : LogPc → Option ℕ
  | inOp _ F => some F.card
  | _ => none

/-- The process runs `commit`, or has yet to clear `log.committing` after it. -/
def InCommit : LogPc → Prop
  | commit | writeLog _ | writeHead | install _ | clear | eraseHead | finish => True
  | _ => False

/-- The blocks of the log that the process has not installed. -/
def pending (lh : List ℕ) : LogPc → List ℕ
  | install tail => lh.drop tail
  | clear => []
  | _ => lh

/-- The process has emptied the log or found it empty. -/
def Erased : LogPc → Prop
  | eraseHead | finish => True
  | _ => False

/-- The process may hold `log.lock`. -/
def Locked : LogPc → Prop
  | inOp _ _ | endWake _ | finishWake _ => True
  | _ => False

/-- The first slot that the process has yet to visit in the `wakeup` after a commit. -/
def debt : LogPc → ℕ
  | finishWake k => k
  | _ => NPROC

theorem pending_subset (lh : List ℕ) : ∀ k : LogPc, k.pending lh ⊆ lh
  | install tail => drop_subset tail lh
  | clear => nil_subset lh
  | idle | beginEnter | inOp _ _ | endWake _ | commit | writeLog _ | writeHead | eraseHead | finish
  | finishWake _ => List.Subset.refl lh

theorem pending_of_not_inCommit (lh : List ℕ) : ∀ {k : LogPc}, ¬ k.InCommit → k.pending lh = lh
  | idle, _ | beginEnter, _ | inOp _ _, _ | endWake _, _ | finishWake _, _ => rfl
  | commit, h | writeLog _, h | writeHead, h | install _, h | clear, h | eraseHead, h | finish, h =>
    absurd trivial h

end LogPc

/-- What every process has reserved. -/
def LogSys.held (s : LogSys) (p : Slot) : Option ℕ := (s.pc p).held

/-- The unused reservations of the outstanding operations. -/
def LogSys.unused (s : LogSys) : ℕ := Quota.unused MAXOPBLOCKS s.held

/-- The block is in the log, and no commit has installed it yet. -/
def LogSys.Pending (s : LogSys) (b : ℕ) : Prop := ∀ p, b ∈ (s.pc p).pending s.lh

instance (s : LogSys) (b : ℕ) : Decidable (s.Pending b) :=
  inferInstanceAs (Decidable (∀ p, b ∈ (s.pc p).pending s.lh))

/-- The invariant of the log's contents. -/
structure Kept (s : LogSys) : Prop where
  count : s.outstanding = Quota.count s.held
  fits : Quota.Fits MAXOPBLOCKS LOGBLOCKS s.lh.length s.held
  added : ∀ p D F, s.pc p = .inOp D F → F ⊆ D ∧ ∀ b ∈ F, b ∈ s.lh
  nodup : s.lh.Nodup
  pins : ∀ b, s.pins b = if s.Pending b then 1 else 0
  busy : s.committing = true → s.outstanding = 0
  committer : ∀ p, (s.pc p).InCommit → s.committing = true ∧ ∀ q, (s.pc q).InCommit → q = p
  erased : ∀ p, (s.pc p).Erased → s.lh = []
  quiet : s.outstanding = 0 → s.committing = false → s.lh = []

section

variable {s : LogSys} {p q : Slot} {k : LogPc} {D F : Finset ℕ} {b : ℕ}

theorem LogSys.held_setPc : (s.setPc p k).held = update s.held p k.held := by
  funext q
  by_cases e : q = p
  · subst e
    simp [held, setPc]
  · simp [held, setPc, update_of_ne e]

theorem LogSys.held_setPc_of_none (hp : (s.pc p).held = none) (hk : k.held = none) :
    (s.setPc p k).held = s.held := by
  rw [held_setPc, hk, ← hp]
  exact update_eq_self p s.held

/-- A property of places that holds of the old ones and of the new one. -/
theorem LogSys.forall_setPc {P : Slot → LogPc → Prop} (h : ∀ q, q ≠ p → P q (s.pc q)) (hk : P p k) :
    ∀ q, P q ((s.setPc p k).pc q) := fun q => by
  by_cases e : q = p
  · subst e
    simpa only [setPc, update_self] using hk
  · simpa only [setPc, update_of_ne e] using h q e

theorem LogSys.pending_iff_mem (h : ∀ p, ¬ (s.pc p).InCommit) : s.Pending b ↔ b ∈ s.lh := by
  refine ⟨fun hb => LogPc.pending_subset _ _ (hb 0), fun hb p => ?_⟩
  rwa [LogPc.pending_of_not_inCommit _ (h p)]

theorem LogSys.pending_iff_of_unique (h : ∀ q, (s.pc q).InCommit → q = p) :
    s.Pending b ↔ b ∈ (s.pc p).pending s.lh := by
  refine ⟨fun hb => hb p, fun hb q => ?_⟩
  by_cases e : q = p
  · exact e ▸ hb
  · rw [LogPc.pending_of_not_inCommit _ fun hq => e (h q hq)]
    exact LogPc.pending_subset _ _ hb

namespace Kept

theorem setMode (h : Kept s) (m : Mode Unit) : Kept (s.setMode p m) :=
  ⟨h.count, h.fits, h.added, h.nodup, h.pins, h.busy, h.committer, h.erased, h.quiet⟩

theorem setLock (h : Kept s) (o : Option Slot) : Kept (s.setLock o) :=
  ⟨h.count, h.fits, h.added, h.nodup, h.pins, h.busy, h.committer, h.erased, h.quiet⟩

theorem held_of_inOp (hp : s.pc p = .inOp D F) : s.held p = some F.card := by
  rw [LogSys.held, hp]
  rfl

theorem outstanding_pos (h : Kept s) (hp : s.pc p = .inOp D F) : 0 < s.outstanding := by
  rw [h.count]
  exact Quota.count_pos (held_of_inOp hp)

/-- In an operation, nobody commits. -/
theorem not_committing (h : Kept s) (hp : s.pc p = .inOp D F) : s.committing = false := by
  refine Bool.eq_false_iff.2 fun hc => ?_
  have := h.outstanding_pos hp
  have := h.busy hc
  omega

theorem not_inCommit (h : Kept s) (hp : s.pc p = .inOp D F) (q : Slot) : ¬ (s.pc q).InCommit :=
  fun hq => by cases (h.not_committing hp).symm.trans (h.committer q hq).1

/-- During a commit, nobody is in an operation. -/
theorem held_eq_none (h : Kept s) (hp : (s.pc p).InCommit) (q : Slot) : s.held q = none := by
  cases hq : s.held q with
  | none => rfl
  | some u =>
    have := Quota.count_pos hq
    have h₀ := h.busy (h.committer p hp).1
    rw [h.count] at h₀
    omega

/-- A process moves on outside of the operations; the log stays. -/
theorem move (h : Kept s) (hp : (s.pc p).held = none) (hk : k.held = none)
    (hc : k.InCommit ↔ (s.pc p).InCommit) (hpend : k.pending s.lh = (s.pc p).pending s.lh)
    (he : k.Erased → s.lh = []) : Kept (s.setPc p k) where
  count := by
    rw [held_setPc_of_none hp hk]
    exact h.count
  fits := by
    rw [held_setPc_of_none hp hk]
    exact h.fits
  added q D F hq := by
    by_cases e : q = p
    · subst e
      simp only [setPc, update_self] at hq
      rw [hq] at hk
      cases hk
    · simp only [setPc, update_of_ne e] at hq
      exact h.added q D F hq
  nodup := h.nodup
  pins b := by
    have : (s.setPc p k).Pending b ↔ s.Pending b := by
      refine forall_congr' fun q => ?_
      by_cases e : q = p
      · subst e
        simp only [setPc, update_self, hpend]
      · simp only [setPc, update_of_ne e]
    simp only [this]
    exact h.pins b
  busy := h.busy
  committer := by
    have hiff : ∀ q, ((s.setPc p k).pc q).InCommit ↔ (s.pc q).InCommit :=
      forall_setPc (P := fun q k => k.InCommit ↔ (s.pc q).InCommit) (fun _ _ => Iff.rfl) hc
    intro q hq
    obtain ⟨h₁, h₂⟩ := h.committer q ((hiff q).1 hq)
    exact ⟨h₁, fun r hr => h₂ r ((hiff r).1 hr)⟩
  erased := forall_setPc (P := fun _ k => k.Erased → s.lh = []) (fun q _ => h.erased q) he
  quiet := h.quiet

/-- A process moves to a place outside of `commit` while nobody commits. -/
theorem committer_of_none {s' : LogSys} (h : ∀ q, ¬ (s'.pc q).InCommit) (p : Slot)
    (hp : (s'.pc p).InCommit) :
    s'.committing = true ∧ ∀ q, (s'.pc q).InCommit → q = p :=
  absurd hp (h p)

theorem erased_of_none {s' : LogSys} (h : ∀ q, ¬ (s'.pc q).InCommit) (p : Slot)
    (hp : (s'.pc p).Erased) : s'.lh = [] := by
  refine absurd ?_ (h p)
  revert hp
  cases s'.pc p <;> first | exact False.elim | exact fun _ => trivial

/-- While nobody commits, the pinned blocks are those of the log. -/
theorem pins_mem (h : Kept s) (hno : ∀ q, ¬ (s.pc q).InCommit) (b : ℕ) :
    s.pins b = if b ∈ s.lh then 1 else 0 := by
  simpa only [pending_iff_mem hno] using h.pins b

theorem pins_of_mem {s' : LogSys} (hno : ∀ q, ¬ (s'.pc q).InCommit)
    (h : ∀ b, s'.pins b = if b ∈ s'.lh then 1 else 0) (b : ℕ) :
    s'.pins b = if s'.Pending b then 1 else 0 := by
  simpa only [pending_iff_mem hno] using h b

/-- While `p` commits, the pinned blocks are those it has not installed. -/
theorem pins_pending (h : Kept s) (hp : (s.pc p).InCommit) (b : ℕ) :
    s.pins b = if b ∈ (s.pc p).pending s.lh then 1 else 0 := by
  simpa only [pending_iff_of_unique (h.committer p hp).2] using h.pins b

theorem pins_of_pending {s' : LogSys} (huniq : ∀ q, (s'.pc q).InCommit → q = p) (hk : s'.pc p = k)
    (h : ∀ b, s'.pins b = if b ∈ k.pending s'.lh then 1 else 0) (b : ℕ) :
    s'.pins b = if s'.Pending b then 1 else 0 := by
  simpa only [pending_iff_of_unique huniq, hk] using h b

theorem beginAdmit (h : Kept s) (hp : s.pc p = .beginEnter) (hc : s.committing = false)
    (hroom : s.lh.length + (s.outstanding + 1) * MAXOPBLOCKS ≤ LOGBLOCKS) :
    Kept ((s.setOutstanding (s.outstanding + 1)).setPc p (.inOp ∅ ∅)) := by
  have hnone : s.held p = none := by rw [LogSys.held, hp]; rfl
  have hheld : ((s.setOutstanding (s.outstanding + 1)).setPc p (.inOp ∅ ∅)).held =
      update s.held p (some 0) := held_setPc
  have hno : ∀ q, ¬ (s.pc q).InCommit := fun q hq => by
    cases hc.symm.trans (h.committer q hq).1
  have hno' : ∀ q, ¬ (((s.setOutstanding (s.outstanding + 1)).setPc p (.inOp ∅ ∅)).pc q).InCommit :=
    forall_setPc (P := fun _ k => ¬ k.InCommit) (fun q _ => hno q) id
  refine ⟨?_, ?_, fun q D F hq => ?_, h.nodup, pins_of_mem hno' (h.pins_mem hno),
    fun hc' => (by cases hc.symm.trans hc'), committer_of_none hno', erased_of_none hno',
    fun h₀ => by cases h₀⟩
  · rw [hheld, Quota.count_enter hnone, ← h.count]
    rfl
  · rw [hheld]
    rw [h.count] at hroom
    exact Quota.Fits.enter hnone hroom
  · by_cases e : q = p
    · subst e
      simp only [setPc, update_self, LogPc.inOp.injEq] at hq
      obtain ⟨rfl, rfl⟩ := hq
      exact ⟨Finset.Subset.refl _, by simp⟩
    · simp only [setPc, update_of_ne e] at hq
      exact h.added q D F hq

theorem writeAbsorb (h : Kept s) (hp : s.pc p = .inOp D F) :
    Kept (s.setPc p (.inOp (insert b D) F)) := by
  have hheld : (s.setPc p (.inOp (insert b D) F)).held = s.held := by
    rw [held_setPc]
    exact (congrArg _ (held_of_inOp hp).symm).trans (update_eq_self p s.held)
  have hno := h.not_inCommit hp
  have hno' : ∀ q, ¬ ((s.setPc p (.inOp (insert b D) F)).pc q).InCommit :=
    forall_setPc (P := fun _ k => ¬ k.InCommit) (fun q _ => hno q) id
  refine ⟨?_, ?_, fun q D' F' hq => ?_, h.nodup, pins_of_mem hno' (h.pins_mem hno),
    h.busy, committer_of_none hno', erased_of_none hno', h.quiet⟩
  · rw [hheld]
    exact h.count
  · rw [hheld]
    exact h.fits
  · by_cases e : q = p
    · subst e
      simp only [setPc, update_self, LogPc.inOp.injEq] at hq
      obtain ⟨rfl, rfl⟩ := hq
      obtain ⟨h₁, h₂⟩ := h.added q D F hp
      exact ⟨h₁.trans (Finset.subset_insert b D), h₂⟩
    · simp only [setPc, update_of_ne e] at hq
      exact h.added q D' F' hq

theorem writeAppend (h : Kept s) (hp : s.pc p = .inOp D F) (hb : b ∉ s.lh)
    (hnew : (insert b F).card ≤ MAXOPBLOCKS) :
    Kept (((s.bpin b).setLh (s.lh ++ [b])).setPc p (.inOp (insert b D) (insert b F))) := by
  have hbF : b ∉ F := fun hbF => hb ((h.added p D F hp).2 b hbF)
  rw [Finset.card_insert_of_notMem hbF] at hnew
  have hheld : (((s.bpin b).setLh (s.lh ++ [b])).setPc p (.inOp (insert b D) (insert b F))).held =
      update s.held p (some (F.card + 1)) := by
    rw [held_setPc, LogPc.held, Finset.card_insert_of_notMem hbF]
    rfl
  have hno := h.not_inCommit hp
  have hno' : ∀ q, ¬ ((((s.bpin b).setLh (s.lh ++ [b])).setPc p
      (.inOp (insert b D) (insert b F))).pc q).InCommit :=
    forall_setPc (P := fun _ k => ¬ k.InCommit) (fun q _ => hno q) id
  refine ⟨?_, ?_, fun q D' F' hq => ?_, ?_, pins_of_mem hno' fun c => ?_, h.busy,
    committer_of_none hno', erased_of_none hno', fun h₀ => ?_⟩
  · rw [hheld, Quota.count_use (held_of_inOp hp)]
    exact h.count
  · rw [hheld]
    show Quota.Fits MAXOPBLOCKS LOGBLOCKS (s.lh ++ [b]).length _
    rw [length_append]
    exact h.fits.use (held_of_inOp hp) hnew
  · show F' ⊆ D' ∧ ∀ c ∈ F', c ∈ s.lh ++ [b]
    by_cases e : q = p
    · subst e
      simp only [setPc, update_self, LogPc.inOp.injEq] at hq
      obtain ⟨rfl, rfl⟩ := hq
      obtain ⟨h₁, h₂⟩ := h.added q D F hp
      refine ⟨Finset.insert_subset_insert b h₁, fun c hc => ?_⟩
      rcases Finset.mem_insert.1 hc with rfl | hc
      · simp
      · exact mem_append_left _ (h₂ c hc)
    · simp only [setPc, update_of_ne e] at hq
      obtain ⟨h₁, h₂⟩ := h.added q D' F' hq
      exact ⟨h₁, fun c hc => mem_append_left _ (h₂ c hc)⟩
  · refine nodup_append.2 ⟨h.nodup, nodup_singleton b, fun c hc d hd e => hb ?_⟩
    rwa [← mem_singleton.1 hd, ← e]
  · have hc := h.pins_mem hno c
    show update s.pins b (s.pins b + 1) c = if c ∈ s.lh ++ [b] then 1 else 0
    by_cases e : c = b
    · subst e
      simp [hc, hb]
    · simp [hc, e]
  · exact absurd h₀ (Nat.pos_iff_ne_zero.1 (h.outstanding_pos hp))

/-- An operation ends, and its process moves to `k`. -/
theorem held_leave {t : LogSys} (h : Kept s) (hp : s.pc p = .inOp D F)
    (hpc : t.pc = update s.pc p k) (hk : k.held = none) (hlh : t.lh = s.lh) :
    s.outstanding - 1 = Quota.count t.held ∧
    Quota.Fits MAXOPBLOCKS LOGBLOCKS t.lh.length t.held ∧
    ∀ q D' F', t.pc q = .inOp D' F' → F' ⊆ D' ∧ ∀ b ∈ F', b ∈ t.lh := by
  have hheld : t.held = update s.held p none := by
    rw [← hk, ← held_setPc]
    funext q
    rw [LogSys.held, hpc]
    rfl
  refine ⟨?_, ?_, fun q D' F' hq => ?_⟩
  · have := Quota.count_leave (held_of_inOp hp)
    rw [hheld, h.count]
    omega
  · rw [hheld, hlh]
    exact h.fits.leave p
  · rw [hlh]
    rw [hpc] at hq
    by_cases e : q = p
    · subst e
      rw [update_self] at hq
      rw [hq] at hk
      cases hk
    · rw [update_of_ne e] at hq
      exact h.added q D' F' hq

theorem endLast (h : Kept s) (hp : s.pc p = .inOp D F) (h₀ : s.outstanding - 1 = 0) :
    Kept (((s.setOutstanding (s.outstanding - 1)).setCommitting true).setPc p .commit) := by
  obtain ⟨h₁, h₂, h₃⟩ := h.held_leave hp (k := .commit)
    (t := ((s.setOutstanding (s.outstanding - 1)).setCommitting true).setPc p .commit) rfl rfl rfl
  have hno := h.not_inCommit hp
  have huniq : ∀ q, ((((s.setOutstanding (s.outstanding - 1)).setCommitting true).setPc p
      .commit).pc q).InCommit → q = p :=
    forall_setPc (P := fun q k => k.InCommit → q = p) (fun q _ hq => absurd hq (hno q))
      fun _ => rfl
  refine ⟨h₁, h₂, h₃, h.nodup, pins_of_pending huniq (update_self ..) (h.pins_mem hno),
    fun _ => h₀, fun q hq => ⟨rfl, fun r hr => ?_⟩, ?_, fun _ hc => by cases hc⟩
  · rw [huniq r hr, huniq q hq]
  · exact forall_setPc (P := fun _ k => k.Erased → s.lh = []) (fun q _ => h.erased q) False.elim

theorem endOthers (h : Kept s) (hp : s.pc p = .inOp D F) (h₀ : s.outstanding - 1 ≠ 0) :
    Kept ((s.setOutstanding (s.outstanding - 1)).setPc p (.endWake 0)) := by
  obtain ⟨h₁, h₂, h₃⟩ := h.held_leave hp (k := .endWake 0)
    (t := (s.setOutstanding (s.outstanding - 1)).setPc p (.endWake 0)) rfl rfl rfl
  have hno := h.not_inCommit hp
  have hno' : ∀ q, ¬ (((s.setOutstanding (s.outstanding - 1)).setPc p (.endWake 0)).pc q).InCommit :=
    forall_setPc (P := fun _ k => ¬ k.InCommit) (fun q _ => hno q) id
  exact ⟨h₁, h₂, h₃, h.nodup, pins_of_mem hno' (h.pins_mem hno),
    fun hc => (by cases (h.not_committing hp).symm.trans hc), committer_of_none hno',
    erased_of_none hno', fun h₀' => absurd h₀' h₀⟩

theorem install {tail : ℕ} (h : Kept s) (hp : s.pc p = .install tail) (hb : s.lh[tail]? = some b) :
    Kept ((s.bunpin b).setPc p (.install (tail + 1))) := by
  have hin : (s.pc p).InCommit := by rw [hp]; trivial
  obtain ⟨hc, huniq⟩ := h.committer p hin
  have hheld : ((s.bunpin b).setPc p (.install (tail + 1))).held = s.held :=
    held_setPc_of_none (s := s.bunpin b) (by rw [show (s.bunpin b).pc p = _ from hp]; rfl) rfl
  have huniq' : ∀ q, (((s.bunpin b).setPc p (.install (tail + 1))).pc q).InCommit → q = p :=
    forall_setPc (P := fun q k => k.InCommit → q = p) (fun q _ hq => huniq q hq) fun _ => rfl
  obtain ⟨hlt, rfl⟩ := List.getElem?_eq_some_iff.1 hb
  have hdrop : s.lh.drop tail = s.lh[tail] :: s.lh.drop (tail + 1) := drop_eq_getElem_cons hlt
  refine ⟨?_, ?_, fun q D F hq => ?_, h.nodup,
    pins_of_pending huniq' (update_self ..) fun c => ?_,
    h.busy, fun q hq => ⟨hc, fun r hr => ?_⟩, ?_, h.quiet⟩
  · rw [hheld]
    exact h.count
  · rw [hheld]
    exact h.fits
  · have := h.held_eq_none hin q
    rw [← hheld, LogSys.held, hq] at this
    cases this
  · have hpins := h.pins_pending hin c
    rw [hp, LogPc.pending] at hpins
    show update s.pins s.lh[tail] (s.pins s.lh[tail] - 1) c =
      if c ∈ s.lh.drop (tail + 1) then 1 else 0
    have hnd : (s.lh.drop tail).Nodup := h.nodup.sublist (drop_sublist tail s.lh)
    rw [hdrop] at hpins hnd
    by_cases e : c = s.lh[tail]
    · rw [e] at hpins ⊢
      rw [update_self, hpins, if_pos mem_cons_self, if_neg (nodup_cons.1 hnd).1]
    · rw [update_of_ne e, hpins]
      simp only [mem_cons, e, false_or]
  · rw [huniq' r hr, huniq' q hq]
  · exact forall_setPc (P := fun _ k => k.Erased → s.lh = []) (fun q _ => h.erased q) False.elim

/-- `commit` empties the log; nothing is pinned any more. -/
theorem clear (h : Kept s) (hp : s.pc p = .clear) : Kept ((s.setLh []).setPc p .eraseHead) := by
  have hin : (s.pc p).InCommit := by rw [hp]; trivial
  obtain ⟨hc, huniq⟩ := h.committer p hin
  have hheld : ((s.setLh []).setPc p .eraseHead).held = s.held :=
    held_setPc_of_none (s := s.setLh []) (by rw [show (s.setLh []).pc p = _ from hp]; rfl) rfl
  have huniq' : ∀ q, (((s.setLh []).setPc p .eraseHead).pc q).InCommit → q = p :=
    forall_setPc (P := fun q k => k.InCommit → q = p) (fun q _ hq => huniq q hq) fun _ => rfl
  refine ⟨?_, ?_, fun q D F hq => ?_, nodup_nil,
    pins_of_pending huniq' (update_self ..) fun c => ?_,
    h.busy, fun q hq => ⟨hc, fun r hr => ?_⟩, fun _ _ => rfl, fun _ _ => rfl⟩
  · rw [hheld]
    exact h.count
  · rw [hheld]
    exact h.fits.mono (Nat.zero_le _)
  · have := h.held_eq_none hin q
    rw [← hheld, LogSys.held, hq] at this
    cases this
  · have hpins := h.pins_pending hin c
    rw [hp] at hpins
    exact hpins
  · rw [huniq' r hr, huniq' q hq]

theorem finish (h : Kept s) (hp : s.pc p = .finish) :
    Kept ((s.setCommitting false).setPc p (.finishWake 0)) := by
  have hin : (s.pc p).InCommit := by rw [hp]; trivial
  have hlh : s.lh = [] := h.erased p (by rw [hp]; trivial)
  obtain ⟨hc, huniq⟩ := h.committer p hin
  have hheld : ((s.setCommitting false).setPc p (.finishWake 0)).held = s.held :=
    held_setPc_of_none (s := s.setCommitting false)
      (by rw [show (s.setCommitting false).pc p = _ from hp]; rfl) rfl
  have hno' : ∀ q, ¬ (((s.setCommitting false).setPc p (.finishWake 0)).pc q).InCommit :=
    forall_setPc (P := fun _ k => ¬ k.InCommit) (fun q hne hq => hne (huniq q hq)) id
  refine ⟨?_, ?_, fun q D F hq => ?_, h.nodup, pins_of_mem hno' fun c => ?_,
    fun hc' => (by cases hc'), committer_of_none hno', erased_of_none hno', fun _ _ => hlh⟩
  · rw [hheld]
    exact h.count
  · rw [hheld]
    exact h.fits
  · have := h.held_eq_none hin q
    rw [← hheld, LogSys.held, hq] at this
    cases this
  · have hpins := h.pins_pending hin c
    rw [hp] at hpins
    exact hpins

end Kept

end

/-- Every operation adds at most `MAXOPBLOCKS` blocks to the log. -/
def FewNew (s : LogSys) (es : List LogEvent) : Prop :=
  ∀ p b D F, .logWrite p b ∈ es → s.pc p = .inOp D F → b ∉ s.lh → (insert b F).card ≤ MAXOPBLOCKS

theorem LogPc.move_of_waking {k k' : LogPc} {m : ℕ} (h : k.waking = some (m, k')) (lh : List ℕ) :
    k.held = none ∧ k'.held = none ∧ (k'.InCommit ↔ k.InCommit) ∧ k'.pending lh = k.pending lh ∧
      ¬ k'.Erased := by
  unfold waking at h
  split at h
  case h_3 => cases h
  all_goals
    cases h
    exact ⟨rfl, rfl, Iff.rfl, rfl, id⟩

theorem LogStep.kept {es : List LogEvent} {s s' : LogSys} (h : Kept s) (st : LogStep s es s')
    (hnew : FewNew s es) : Kept s' := by
  cases st with
  | kkill _ | sleep _ | beginCommitting _ _ _ | beginFull _ _ _ _ => exact h.setMode _
  | writeTooBig _ _ _ | writeOutside _ _ _ _ => exact h.setLock _
  | callBegin hp _ | writeLog hp _ | writeLogDone hp _ | commitSome hp _ | writeHead hp =>
    exact h.move (by rw [hp]; rfl) rfl (by rw [hp]; rfl) (by rw [hp]; rfl) False.elim
  | commitNothing hp h₀ =>
    exact h.move (by rw [hp]; rfl) rfl (by rw [hp]; rfl) (by rw [hp]; rfl)
      fun _ => eq_nil_of_length_eq_zero h₀
  | installDone hp hle =>
    refine h.move (by rw [hp]; rfl) rfl (by rw [hp]; rfl) ?_ False.elim
    rw [hp]
    exact (drop_eq_nil_of_le hle).symm
  | eraseHead hp =>
    exact h.move (by rw [hp]; rfl) rfl (by rw [hp]; rfl) (by rw [hp]; rfl)
      fun _ => h.erased _ (by rw [hp]; trivial)
  | wakeSelf _ hk =>
    obtain ⟨h₁, h₂, h₃, h₄, h₅⟩ := LogPc.move_of_waking hk s.lh
    exact h.move h₁ h₂ h₃ h₄ fun he => absurd he h₅
  | wake _ hk _ _ =>
    obtain ⟨h₁, h₂, h₃, h₄, h₅⟩ := LogPc.move_of_waking hk s.lh
    exact (h.setMode _).move h₁ h₂ h₃ h₄ fun he => absurd he h₅
  | endReturn _ hp | finishReturn _ hp =>
    exact (h.setLock none).move (by rw [show (s.setLock none).pc _ = _ from hp]; rfl) rfl
      (by rw [show (s.setLock none).pc _ = _ from hp]; rfl)
      (by rw [show (s.setLock none).pc _ = _ from hp]; rfl) False.elim
  | beginAdmit hp _ hc hroom => exact h.beginAdmit hp hc hroom
  | writeAbsorb hp _ _ _ _ => exact h.writeAbsorb hp
  | writeAppend hp _ _ _ hb => exact h.writeAppend hp hb (hnew _ _ _ _ (by simp) hp hb)
  | endPanic hp _ hc => cases (h.not_committing hp).symm.trans hc
  | endLast hp _ _ h₀ => exact h.endLast hp h₀
  | @endOthers p D F hp _ _ h₀ => exact (h.endOthers hp h₀).setLock (some p)
  | install hp hb => exact h.install hp hb
  | clear hp => exact h.clear hp
  | @finish p hp _ => exact (h.finish hp).setLock (some p)

theorem kept_init : Kept init := by
  have hno : ∀ q, ¬ (init.pc q).InCommit := fun _ => id
  refine ⟨?_, ?_, fun _ _ _ h => (by cases h), nodup_nil, Kept.pins_of_mem hno fun _ => rfl,
    fun _ => rfl, Kept.committer_of_none hno, Kept.erased_of_none hno, fun _ _ => rfl⟩
  · simp [init, Quota.count, LogSys.held, LogPc.held]
  · simp [Quota.Fits, init, Quota.unused, Quota.rest, LogSys.held, LogPc.held]

/-! ## Sleepers -/

/-- A commit or an operation is on its way. -/
def LogSys.Busy (s : LogSys) : Prop := s.committing = true ∨ 0 < s.outstanding

/-- The debt of the holder of `log.lock`. -/
def LogSys.debt (s : LogSys) : ℕ :=
  match s.lock with
  | some p => (s.pc p).debt
  | none => NPROC

/-- The invariant of the sleepers. -/
structure Roused (s : LogSys) : Prop where
  watched : Watched s.mode (fun _ : Unit => s.Busy) fun _ => s.debt
  owner : ∀ p, s.lock = some p → s.mode p = .awake ∧ (s.pc p).Locked

namespace Roused

variable {s s' : LogSys} {p q : Slot} {k : LogPc}

theorem debt_of_lock (h : s.lock = some p) : s.debt = (s.pc p).debt := by
  unfold debt
  rw [h]

theorem debt_of_free (h : s.lock = none) : s.debt = NPROC := by
  unfold debt
  rw [h]

/-- The holder of the lock is not at a place outside of the lock. -/
theorem ne_owner (h : Roused s) (hp : ¬ (s.pc p).Locked) (hl : s.lock = some q) : q ≠ p := by
  rintro rfl
  exact hp (h.owner q hl).2

theorem move (h : Roused s) (hp : ¬ (s.pc p).Locked) : Roused (s.setPc p k) := by
  have hpc : ∀ q, s.lock = some q → (s.setPc p k).pc q = s.pc q := fun q hl =>
    update_of_ne (h.ne_owner hp hl) _ _
  have hdebt : (s.setPc p k).debt = s.debt := by
    cases hl : s.lock with
    | none => rw [debt_of_free hl, debt_of_free (s := s.setPc p k) hl]
    | some q => rw [debt_of_lock hl, debt_of_lock (s := s.setPc p k) hl, hpc q hl]
  refine ⟨?_, fun q hl => ?_⟩
  · rw [hdebt]
    exact h.watched
  · rw [hpc q hl]
    exact h.owner q hl

theorem of_free (hl : s.lock = none) (hw : Watched s.mode (fun _ : Unit => s.Busy) fun _ => NPROC) :
    Roused s := by
  refine ⟨?_, fun q hq => by cases hl.symm.trans hq⟩
  rwa [debt_of_free hl]

theorem watched_of_free (h : Roused s) (hl : s.lock = none) :
    Watched s.mode (fun _ : Unit => s.Busy) fun _ => NPROC := by
  simpa only [debt_of_free hl] using h.watched

/-- `p` takes the free lock and goes to `k`; if nothing is on its way any more, it owes all visits. -/
theorem take (h : Roused s) (hp : s.Acquires p) (hl : s'.lock = some p) (hm : s'.mode = s.mode)
    (hpc : s'.pc p = k) (hk : k.Locked) (hb : s.Busy → s'.Busy ∨ k.debt = 0) (hd : k.debt ≤ NPROC) :
    Roused s' := by
  refine ⟨?_, fun q hq => ?_⟩
  · rw [debt_of_lock hl, hpc, hm]
    exact (h.watched_of_free hp.1).mono (fun _ _ hq => hq) (fun _ => hb) fun _ => hd
  · cases hl.symm.trans hq
    rw [hm, hpc]
    exact ⟨hp.2, hk⟩

/-- `p` acts under the lock in one step and goes to `k`. -/
theorem pass (h : Roused s) (hp : s.Acquires p) (hl : s'.lock = none) (hm : s'.mode = s.mode)
    (hb : s.Busy → s'.Busy) : Roused s' := by
  refine of_free hl ?_
  rw [hm]
  exact (h.watched_of_free hp.1).mono (fun _ _ hq => hq) (fun _ hc => .inl (hb hc)) fun _ => le_rfl

/-- The holder of the lock owes nothing and releases it. -/
theorem release (h : Roused s) (hl : s.lock = some p) (hd : (s.pc p).debt = NPROC) :
    Roused ((s.setLock none).setPc p k) := by
  refine of_free rfl ?_
  have := h.watched
  simp only [debt_of_lock hl, hd] at this
  exact this

/-- `p` goes to sleep while something is on its way. -/
theorem doze (h : Roused s) (hp : s.Acquires p) (hb : s.Busy) :
    Roused (s.setMode p (.drowsy ())) :=
  of_free hp.1 ((h.watched_of_free hp.1).doze hb)

/-- A process falls asleep or is woken. -/
theorem setMode (h : Roused s) {m : Mode Unit}
    (hw : Watched (update s.mode q m) (fun _ : Unit => s.Busy) fun _ => s.debt)
    (hm : s.mode q = .awake → m = .awake) : Roused (s.setMode q m) := by
  refine ⟨hw, fun p hp => ?_⟩
  obtain ⟨h₁, h₂⟩ := h.owner p hp
  refine ⟨?_, h₂⟩
  by_cases e : p = q
  · subst e
    simp only [LogSys.setMode, update_self]
    exact hm h₁
  · simp only [LogSys.setMode, update_of_ne e]
    exact h₁

/-- A `wakeup` gets on by one slot: if it counts as a debt, the debt shrinks by this slot. -/
theorem debt_of_waking {k k' : LogPc} {m : ℕ} (h : k.waking = some (m, k')) :
    (k'.debt = k.debt ∨ k.debt = m ∧ k'.debt = m + 1) ∧ k'.Locked := by
  unfold LogPc.waking at h
  split at h
  case h_3 => cases h
  case h_1 =>
    cases h
    exact ⟨.inl rfl, trivial⟩
  case h_2 =>
    cases h
    exact ⟨.inr ⟨rfl, rfl⟩, trivial⟩

theorem wake (h : Roused s) (hl : s.lock = some p) (hk : (s.pc p).waking = some (q.val, k))
    (hp : q ≠ p) (hq : ¬ (s.mode q).Drowsy) :
    Roused ((s.setMode q ((s.mode q).rouse ())).setPc p k) := by
  obtain ⟨hd, hlock⟩ := debt_of_waking hk
  have hw := h.watched
  rw [debt_of_lock hl] at hw
  refine ⟨?_, fun r hr => ?_⟩
  · rw [debt_of_lock (s := (s.setMode q ((s.mode q).rouse ())).setPc p k) hl]
    simp only [setPc, update_self]
    rcases hd with hd | ⟨hd, hd'⟩
    · rw [hd]
      refine hw.mono (fun r c hr => ?_) (fun _ => .inl) fun _ => le_rfl
      by_cases e : r = q
      · subst e
        simp only [LogSys.setMode, update_self] at hr
        exact Mode.on_of_rouse hr
      · simpa only [LogSys.setMode, update_of_ne e] using hr
    · exact hw.visit (c := ()) hq hd (by funext c; cases c; rw [update_self, hd'])
  · cases hl.symm.trans hr
    obtain ⟨h₁, -⟩ := h.owner p hl
    simp only [setPc, LogSys.setMode, update_self, update_of_ne hp.symm]
    exact ⟨h₁, hlock⟩

theorem wakeSelf (h : Roused s) (hl : s.lock = some p) (hk : (s.pc p).waking = some (p.val, k)) :
    Roused (s.setPc p k) := by
  obtain ⟨hd, hlock⟩ := debt_of_waking hk
  obtain ⟨h₁, -⟩ := h.owner p hl
  have hw := h.watched
  rw [debt_of_lock hl] at hw
  refine ⟨?_, fun r hr => ?_⟩
  · rw [debt_of_lock (s := s.setPc p k) hl]
    simp only [setPc, update_self]
    rcases hd with hd | ⟨hd, hd'⟩
    · rw [hd]
      exact hw
    · exact hw.skip (c := ()) (by rw [h₁]; exact Mode.not_on_awake ()) hd
        (by funext c; cases c; rw [update_self, hd'])
  · cases hl.symm.trans hr
    simp only [setPc, update_self]
    exact ⟨h₁, hlock⟩

end Roused

theorem LogStep.roused {es : List LogEvent} {s s' : LogSys} (hkept : Kept s) (h : Roused s)
    (st : LogStep s es s') : Roused s' := by
  cases st with
  | kkill _ => exact h.setMode h.watched.jolt fun e => by rw [e]; rfl
  | sleep hm => exact h.setMode (h.watched.sleep hm) fun e => by cases hm.symm.trans e
  | wakeSelf hl hk => exact h.wakeSelf hl hk
  | wake hl hk hp hq => exact h.wake hl hk hp hq
  | callBegin hp _ | writeLog hp _ | writeLogDone hp _ | commitSome hp _ | writeHead hp
  | commitNothing hp _ | installDone hp _ | eraseHead hp => exact h.move (by rw [hp]; exact id)
  | @install p tail b hp _ =>
    exact Roused.move (s := s.bunpin b) ⟨h.watched, h.owner⟩
      (by rw [show (s.bunpin b).pc p = _ from hp]; exact id)
  | @clear p hp =>
    exact Roused.move (s := s.setLh []) ⟨h.watched, h.owner⟩
      (by rw [show (s.setLh []).pc p = _ from hp]; exact id)
  | beginCommitting _ ha hc => exact h.doze ha (.inl hc)
  | beginFull _ ha hc hfull =>
    refine h.doze ha (.inr (Nat.pos_of_ne_zero fun h₀ => ?_))
    -- an idle log is empty, so it has room
    rw [hkept.quiet h₀ hc, h₀] at hfull
    exact absurd hfull (by decide)
  | beginAdmit _ ha _ _ => exact h.pass ha ha.1 rfl fun _ => .inr (Nat.succ_pos _)
  | writeTooBig hp ha _ | writeOutside hp ha _ _ =>
    exact h.take ha rfl rfl hp trivial .inl le_rfl
  | writeAbsorb _ ha _ _ _ | writeAppend _ ha _ _ _ => exact h.pass ha ha.1 rfl id
  | endPanic hp _ hc => cases (hkept.not_committing hp).symm.trans hc
  | endLast _ ha _ _ => exact h.pass ha ha.1 rfl fun _ => .inl rfl
  | endOthers _ ha _ h₀ =>
    exact h.take ha rfl rfl (update_self ..) trivial
      (fun _ => .inl (.inr (Nat.pos_of_ne_zero h₀))) le_rfl
  | endReturn hl hp | finishReturn hl hp => exact h.release hl (by rw [hp]; rfl)
  | finish _ ha =>
    exact h.take ha rfl rfl (update_self ..) trivial (fun _ => .inr rfl) (Nat.zero_le _)

theorem roused_init : Roused init := ⟨fun _ _ h => h.elim, fun _ h => by cases h⟩

/-! ## The protocol -/

/-- A step in which no operation adds more than `MAXOPBLOCKS` blocks. -/
def FewNewStep (s : LogSys) (es : List LogEvent) (s' : LogSys) : Prop := LogStep s es s' ∧ FewNew s es

theorem kept_and_roused {tr : List LogEvent} {s : LogSys}
    (hr : Trans.Run FewNewStep init tr s) : Kept s ∧ Roused s :=
  hr.invariant (I := fun _ s => Kept s ∧ Roused s) ⟨kept_init, roused_init⟩
    fun _ _ _ _ h st => ⟨st.1.kept h.1 st.2, st.1.roused h.1 h.2⟩

/-- While `p` commits, only `p` changes the log, and only to empty it. -/
theorem LogStep.during_commit {es : List LogEvent} {s s' : LogSys} {p : Slot} (h : Kept s)
    (hp : (s.pc p).InCommit) (st : LogStep s es s') :
    (∀ q, .begun q ∉ es) ∧ (∀ q b, .logWrite q b ∉ es) ∧
      (s'.lh = s.lh ∨ s.pc p = .clear ∧ s'.pc p = .eraseHead ∧ s'.lh = []) := by
  obtain ⟨hc, huniq⟩ := h.committer p hp
  cases st with
  | beginAdmit _ _ hc' _ => cases hc.symm.trans hc'
  | writeTooBig hq _ _ | writeOutside hq _ _ _ | writeAbsorb hq _ _ _ _ | writeAppend hq _ _ _ _ =>
    exact absurd hp (h.not_inCommit hq p)
  | @clear q hq =>
    obtain rfl : q = p := huniq q (by rw [hq]; trivial)
    exact ⟨by simp, by simp, .inr ⟨hq, update_self .., rfl⟩⟩
  | _ => exact ⟨by simp, by simp, .inl rfl⟩

/-- **The log protocol.** In every state that operations which each add at most `MAXOPBLOCKS` blocks
can reach: the log and the unused reservations fit in `LOGBLOCKS`; the logged blocks are distinct, and
the pinned blocks are those not yet installed, once each; during a commit no operation is outstanding
or admitted, nobody writes, and only the committing process changes the log; and nobody sleeps on
`&log` once the lock is free and nothing is on its way. -/
theorem log_protocol {tr : List LogEvent} {s : LogSys}
    (hr : Trans.Run FewNewStep init tr s) :
    s.lh.length + s.unused ≤ LOGBLOCKS ∧
    s.lh.Nodup ∧
    (∀ b, s.pins b = if s.Pending b then 1 else 0) ∧
    (∀ p, (s.pc p).InCommit → s.outstanding = 0 ∧ s.committing = true ∧
      ∀ es s', LogStep s es s' → (∀ q, .begun q ∉ es) ∧ (∀ q b, .logWrite q b ∉ es) ∧
        (s'.lh = s.lh ∨ s.pc p = .clear ∧ s'.pc p = .eraseHead ∧ s'.lh = [])) ∧
    (s.lock = none → s.outstanding = 0 → s.committing = false → ∀ p c, s.mode p ≠ .asleep c) := by
  obtain ⟨hk, hw⟩ := kept_and_roused hr
  refine ⟨hk.fits, hk.nodup, hk.pins, fun p hp => ?_, fun hl h₀ hc p c hp => ?_⟩
  · have hc := (hk.committer p hp).1
    exact ⟨hk.busy hc, hc, fun es s' st => st.during_commit hk hp⟩
  · rcases (hw.watched_of_free hl).calm_of_asleep (fun _ => le_rfl) hp with hb | hb
    · cases hc.symm.trans hb
    · omega

/-- A process begins an operation and writes block 40. -/
theorem log_protocol_one_write :
    ∃ tr s, Trans.Run FewNewStep init tr s ∧ s.lh = [40] ∧ s.lh.length + s.unused ≤ LOGBLOCKS := by
  have hr := (Trans.Run.refl : Trans.Run FewNewStep init [] _)
    |>.tail ⟨@LogStep.callBegin _ 0 rfl rfl, fun _ _ _ _ h => by simp at h⟩
    |>.tail ⟨@LogStep.beginAdmit _ 0 rfl ⟨rfl, rfl⟩ rfl (by decide), fun _ _ _ _ h => by simp at h⟩
    |>.tail ⟨@LogStep.writeAppend _ 0 40 ∅ ∅ rfl ⟨rfl, rfl⟩ (by decide) (by decide) (by decide),
      fun p b D F h hp _ => by
        simp only [List.mem_singleton, LogEvent.logWrite.injEq] at h
        obtain ⟨rfl, rfl⟩ := h
        cases hp
        decide⟩
  exact ⟨_, _, hr, rfl, (log_protocol hr).1⟩

end Xv6
