import Xv6.Locks.Invariant

/-!
# No deadlock of spin locks

Harts never spin in a circle. A hart that spins while it holds locks is at one of few positions: with a
lock around `wakeup` or `sleep`, on the lock of a process; with the lock of a process that is being
created or freed, on a lock below; in `iput` with `itable.lock`, on the lock inside a sleep lock. The last
of these is free, since nobody else has a reference to the inode; and the lock of the parent in `kfork` is
not one of those that is held by a hart that spins, since the parent is RUNNING.
-/

namespace Xv6.Locks

open List Sys Nat

open Spin (Ctl)

/-! ## Positions where a thread spins -/

section positions

variable {d : Data} {me : Option Slot} {q : Slot} {a b : Pos} {l : Lock}

/-- How far down the order of the locks a thread is that spins. -/
def Pos.rank : Pos → ℕ
  | out _ => 0
  | alloc _ _ | reap _ => 2
  | putLast _ => 3
  | _ => 1

/-- A thread that spins with locks is not outside. -/
theorem Acquires.rank_pos (st : Acquires d me a l b) {k : Lock} (hk : k ∈ a.holds me) : 1 ≤ a.rank := by
  cases st <;> first | exact le_of_ble_eq_true rfl | simp [Pos.holds] at hk

/-- With a lock around `wakeup` or `sleep`, a thread spins on the lock of a process. -/
theorem Acquires.of_rank_one (st : Acquires d me a l b) (h : a.rank = 1) : ∃ q, l = .proc q := by
  cases st <;> first | exact ⟨_, rfl⟩ | cases h

theorem Sec.lk_ne_proc {c : Sec} : c.lk ≠ .proc q := by
  cases c with
  | sleeps w => cases w <;> simp [Sec.lk, Wait.lk]
  | _ => simp [Sec.lk]

theorem Sec.lk_ne {c : Sec} : c.lk ≠ .itable ∧ c.lk ≠ .pid ∧ c.lk ≠ .kmem ∧ c.lk ≠ .ftable := by
  cases c with
  | sleeps w => cases w <;> simp [Sec.lk, Wait.lk]
  | _ => simp [Sec.lk]

/-- A thread that spins with the lock of a process is creating or freeing that process. -/
theorem Acquires.of_proc (st : Acquires d me a l b) (h : .proc q ∈ a.holds me) :
    (a.forks = some q ∨ a.reaps = some q) ∧ 2 ≤ a.rank := by
  cases st with
  | allocpid | allocMem | filedup | idup | allocOwn =>
    have e := mem_singleton.1 h
    cases e
    exact ⟨.inl rfl, Nat.le_refl _⟩
  | @reap _ q' =>
    have e : q = q' := by simpa [Pos.holds] using h
    exact ⟨.inr (congrArg some e.symm), Nat.le_refl _⟩
  | wakeup | sleep | otherKilled | pauseKilled | exitOwn =>
    exact absurd (mem_singleton.1 h).symm Sec.lk_ne_proc
  | _ => simp [Pos.holds] at h

/-- A thread that spins with `itable.lock` is in `iput`. -/
theorem Acquires.of_itable (st : Acquires d me a l b) (h : .itable ∈ a.holds me) : 3 ≤ a.rank := by
  cases st with
  | putIn => exact Nat.le_refl _
  | wakeup | sleep | otherKilled | pauseKilled | exitOwn =>
    exact absurd (mem_singleton.1 h).symm Sec.lk_ne.1
  | _ => simp [Pos.holds] at h

/-- Some locks have no others inside. -/
theorem Acquires.not_leaf (st : Acquires d me a l b) :
    .pid ∉ a.holds me ∧ .kmem ∉ a.holds me ∧ .ftable ∉ a.holds me := by
  cases st with
  | wakeup | sleep | otherKilled | pauseKilled | exitOwn =>
    refine ⟨fun h => ?_, fun h => ?_, fun h => ?_⟩
    · exact absurd (mem_singleton.1 h).symm Sec.lk_ne.2.1
    · exact absurd (mem_singleton.1 h).symm Sec.lk_ne.2.2.1
    · exact absurd (mem_singleton.1 h).symm Sec.lk_ne.2.2.2
  | _ => simp [Pos.holds]

/-- What a thread spins on that creates or frees a process. -/
theorem Acquires.of_rank_two (st : Acquires d me a l b) (h : a.rank = 2) :
    l = .pid ∨ l = .kmem ∨ l = .ftable ∨ l = .itable ∨ ∃ p, me = some p ∧ l = .proc p := by
  cases st with
  | allocpid => exact .inl rfl
  | allocMem | reap => exact .inr (.inl rfl)
  | filedup => exact .inr (.inr (.inl rfl))
  | idup => exact .inr (.inr (.inr (.inl rfl)))
  | allocOwn => exact .inr (.inr (.inr (.inr ⟨_, rfl, rfl⟩)))
  | _ => cases h

theorem Acquires.rank_le (st : Acquires d me a l b) :
    a.rank ≤ 2 ∨ ∃ i, a = .putLast i ∧ l = .inner i ∧ b = .putIn i := by
  cases st with
  | putIn => exact .inr ⟨_, rfl, rfl, rfl⟩
  | _ => exact .inl (le_of_ble_eq_true rfl)

end positions

/-! ## No circle -/

section circle

variable {H : Type} [DecidableEq H] {s : Sys H} {h h' : H}

omit [DecidableEq H] in
theorem Inv.acquires (hi : Inv s) {a b : Pos} {l : Lock} (hc : s.ctl h = .spin a l b) :
    ∃ d, Acquires d (s.cur h) a l b := by
  cases e : s.cur h with
  | none => exact hi.schedSpins h a l b (by rwa [← ctl_of_sched e])
  | some p => exact hi.spins p a l b (by rwa [← ctl_of_cur e])

omit [DecidableEq H] in
theorem Inv.knows_ctl (hi : Inv s) (h : H) : Knows s.data (s.ctl h).pos := by
  cases e : s.cur h with
  | none =>
    rw [ctl_of_sched e]
    exact .of_sched (hi.sched h).pos
  | some p =>
    rw [ctl_of_cur e]
    exact hi.knows p

omit [DecidableEq H] in
theorem Inv.not_running (hi : Inv s) {a b : Pos} {l : Lock} {p : Slot} (hc : s.ctl h = .spin a l b)
    (hl : .proc p ∈ s.holds h) : s.data.state p ≠ .running := by
  obtain ⟨d, st⟩ := hi.acquires hc
  have hk := hi.knows_ctl h
  rw [holds, hc] at hl
  rw [hc] at hk
  intro hrun
  rcases (st.of_proc hl).1 with hf | hr
  · have hs := hk.forks p hf
    rcases a.forkState_cases with e | e <;> rw [hrun, Ctl.pos, e] at hs <;> cases hs
  · have hs := hk.reaps p hr
    rw [hrun] at hs
    cases hs

omit [DecidableEq H] in
/-- Nobody holds the lock inside the sleep lock of an inode that `iput` is to free. -/
theorem Inv.inner_free (hi : Inv s) {p : Slot} {i : Iptr} {b : Pos} (hp : s.cur h = some p)
    (hc : s.thread p = .spin (.putLast i) (.inner i) b) : .inner i ∉ s.holds h' := by
  intro hl
  have hk := hi.knows p
  have hr := (hi.refs p).pos
  rw [hc] at hk hr
  cases hq : s.cur h' with
  | none =>
    rw [holds_of_sched hq] at hl
    exact Pos.inner_not_mem_of_isSched (hi.sched h').pos hl
  | some q =>
    rw [holds_of_cur hq] at hl
    have huse := (hi.refs q).pos.uses i (Pos.uses_of_inner hl)
    obtain rfl := hi.books.only (hk.lasts i rfl) (hr.puts i rfl) huse
    rw [hc] at hl
    simp [Ctl.pos, Pos.holds] at hl

omit [DecidableEq H] in
/-- A hart that waits for one that spins is further up the order of the locks. -/
theorem Inv.rank_lt (hi : Inv s) (hw : s.Waits h h') (hs : (s.ctl h').Spinning) :
    (s.ctl h).pos.rank < (s.ctl h').pos.rank := by
  obtain ⟨a, l, b, hc, hl⟩ := hw
  obtain ⟨a', l', b', hc'⟩ := hs
  obtain ⟨d, st⟩ := hi.acquires hc
  obtain ⟨d', st'⟩ := hi.acquires hc'
  have hmem : l ∈ s.holds h' := (hi.owns.iff l h').1 hl
  have hmem' : l ∈ a'.holds (s.cur h') := by rwa [holds, hc'] at hmem
  rw [hc, hc']
  change a.rank < a'.rank
  rcases st.rank_le with hle | ⟨i, rfl, rfl, rfl⟩
  · rcases Nat.lt_or_ge a.rank 1 with h0 | h1
    · exact Nat.lt_of_lt_of_le h0 (st'.rank_pos hmem')
    rcases Nat.lt_or_ge a.rank 2 with h2 | h2
    · obtain ⟨q, rfl⟩ := st.of_rank_one (by omega)
      exact Nat.lt_of_lt_of_le h2 (st'.of_proc hmem').2
    · obtain ⟨npid, nkmem, nftable⟩ := st'.not_leaf
      rcases st.of_rank_two (by omega) with rfl | rfl | rfl | rfl | ⟨p, hp, rfl⟩
      · exact absurd hmem' npid
      · exact absurd hmem' nkmem
      · exact absurd hmem' nftable
      · have := st'.of_itable hmem'
        omega
      · refine absurd (hi.running h p hp ?_) (hi.not_running hc' hmem)
        rw [← ctl_of_cur hp, hc]
        exact st.pos.1
  · cases hp : s.cur h with
    | none =>
      rw [hp] at st
      cases st
    | some p =>
      rw [ctl_of_cur hp] at hc
      exact absurd hmem (hi.inner_free hp hc)

/-- Harts never spin in a circle, each on a lock that the next one holds, and `iput` does not sleep with
`itable.lock`. -/
theorem no_circle_of_spinning {p : Slot} {root : Iptr} (hr : Sys.Runs (Sys.init p root) s) :
    (∀ h, ¬ Relation.TransGen s.Waits h h) ∧ ∀ q i, (s.thread q).pos ≠ .putSleep i := by
  have hi : Inv s := Runs.inv hr (inv_init p root)
  refine ⟨fun h => ?_, fun q i e => ?_⟩
  · exact Spin.no_cycle (fun x => (s.ctl x).pos.rank) (fun x y hw hs => hi.rank_lt hw hs) h
  · have := (hi.knows q).sleeps
    rw [e] at this
    cases this

/-- While one of two harts has the lock of the first process, the other one spins on it. -/
theorem no_circle_of_spinning_two : ∃ s : Sys Bool, Sys.Runs (Sys.init 0 0) s ∧ s.Waits true false ∧
    ∀ h, ¬ Relation.TransGen s.Waits h h := by
  have h₁ : Sys.Runs (Sys.init 0 0 : Sys Bool) _ :=
    .single (.spin (h := false) rfl (.pick (q := 0)))
  have h₂ := h₁.tail (.acquire (h := false) rfl rfl)
  have h₃ := h₂.tail (.spin (h := true) rfl (.pick (q := 0)))
  exact ⟨_, h₃, ⟨_, _, _, rfl, rfl⟩, (no_circle_of_spinning h₃).1⟩

end circle

end Xv6.Locks
