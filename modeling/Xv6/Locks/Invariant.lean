import Xv6.Locks.Knows

/-!
# The invariant of the harts

What holds of the harts, the threads and the schedulers between two steps, from facts about the positions
that each kind of step connects. A step of one hart moves one thread or one scheduler (`gotoThread`,
`gotoSched`) or changes between the two (`switch`); the others keep what they know, since it is about data
under locks of theirs, a process that nobody else creates, or references that nobody else gives up.
-/

namespace Xv6.Locks

open Option Sys Pos

open Function (update update_self update_of_ne)

open Spin (Ctl Owns)

/-! ## Facts about positions -/

section positions

variable {d d' : Data} {me : Option Slot} {p q np : Slot} {a b : Pos} {l : Lock}

theorem Pos.forkState_cases (a : Pos) : a.forkState = .unused ∨ a.forkState = .used := by
  unfold forkState
  split <;> simp

/-- Before the new process is USED, its lock is held. -/
theorem Pos.mem_holds_of_forks (me : Option Slot) (h : a.forks = some np) (hs : a.forkState = .unused) :
    .proc np ∈ a.holds me ∧ a.isParked = false := by
  unfold forkState at hs
  split at hs
  · cases h
    simp [holds, isParked]
  · cases h
    simp [holds, isParked]
  · cases h
    simp [holds, isParked]
  · cases hs

theorem Pos.mem_holds_of_reaps (me : Option Slot) (h : a.reaps = some q) :
    .proc q ∈ a.holds me ∧ a.isParked = false := by
  cases a <;> cases h <;> simp [holds, isParked]

theorem Pos.mem_holds_of_lasts (me : Option Slot) {i : Iptr} (h : a.lasts = some i) :
    .itable ∈ a.holds me ∧ a.isParked = false := by
  cases a <;> cases h <;> simp [holds, isParked]

theorem Out.forks_of_isSched {x : Out} (h : x.isSched = true) : x.forks = none := by
  cases x <;> first | rfl | cases h

theorem Sec.forks_of_isSched {c : Sec} (h : c.isSched = true) : c.forks = none := by
  cases c with
  | clock x | device j x => exact Out.forks_of_isSched h
  | _ => cases h

theorem Pos.forks_of_isSched (h : a.isSched = true) : a.forks = none := by
  cases a with
  | out x | leaf _ x => exact Out.forks_of_isSched h
  | crit c | wake c _ | wakeIn c _ => exact Sec.forks_of_isSched h
  | pick | away | ran => rfl
  | _ => cases h

/-- A scheduler creates and frees no process, and is not in `iput`. -/
theorem Knows.of_sched (h : a.isSched = true) : Knows d a := by
  refine .of_forks (fun np e => by simp [forks_of_isSched h] at e) ?_ ?_ ?_
  all_goals cases a <;> first | rfl | cases h

theorem Acts.forks (st : Acts d me a d' b) :
    b.forks = none ∨ b.forks = a.forks ∨
      ∃ np, b.forks = some np ∧ d.state np = .unused ∧ .proc np ∈ a.holds me := by
  cases st with
  | @found p q hq => exact .inr (.inr ⟨q, rfl, hq, by simp [Pos.holds]⟩)
  | used | copied | allocFile | allocInode | wakeSelf | woken | wakeup | yield => exact .inr (.inl rfl)
  | _ => exact .inl rfl

theorem Acts.pos (st : Acts d me a d' b) : a.leaving = false ∧ b.isParked = false := by
  cases st <;> exact ⟨rfl, rfl⟩

theorem Acquires.pos (st : Acquires d me a l b) :
    a.leaving = false ∧ b.leaving = false ∧ a.isParked = false ∧ b.isParked = false := by
  cases st with
  | @relock p w => cases w <;> exact ⟨rfl, rfl, rfl, rfl⟩
  | _ => exact ⟨rfl, rfl, rfl, rfl⟩

theorem Releases.pos (st : Releases me a l b) :
    (b.leaving = false → a.leaving = false) ∧ b.isParked = false := by
  cases st with
  | exit => exact ⟨fun h => (by cases h), rfl⟩
  | _ => exact ⟨fun _ => rfl, rfl⟩

theorem Acquires.isSched (st : Acquires d none a l b) (h : a.isSched = true) : b.isSched = true := by
  cases st with
  | now | pick => rfl
  | clock | device | wakeup => exact h

theorem Releases.isSched (st : Releases none a l b) (h : a.isSched = true) : b.isSched = true := by
  cases st with
  | pick | ran => rfl
  | leaf | wakeup => exact h
  | @sec _ c x hx =>
    cases c with
    | clock x | device j x =>
      cases hx
      exact h
    | _ => cases h

theorem Acts.isSched (st : Acts d none a d' b) (h : a.isSched = true) : b.isSched = true := by
  cases st with
  | rest => rfl
  | woken | wakeup => exact h

/-- A scheduler has no lock inside a sleep lock. -/
theorem Pos.inner_not_mem_of_isSched {i : Iptr} (h : a.isSched = true) : .inner i ∉ a.holds me := by
  cases a with
  | leaf l x => cases l <;> simp [holds, Leaf.lk]
  | crit c | wake c _ | wakeIn c _ =>
    cases c with
    | clock x | device j x => simp [holds, Sec.lk]
    | _ => cases h
  | out | pick | away | ran => simp [holds]
  | _ => cases h

theorem Wait.uses_of_lk {w : Wait} {i : Iptr} (h : w.lk = .inner i) : w.uses = some i := by
  cases w <;> cases h
  rfl

theorem Sec.uses_of_lk {c : Sec} {i : Iptr} (h : c.lk = .inner i) : c.uses = some i := by
  cases c with
  | sleeps w => exact Wait.uses_of_lk h
  | unlock j u =>
    cases h
    rfl
  | _ => cases h

/-- The lock of a process is not inside a sleep lock. -/
theorem inner_not_mem_ownLock (i : Iptr) : .inner i ∉ ownLock me := by
  cases me <;> simp [ownLock]

/-- A thread that has the lock inside the sleep lock of an inode uses the inode. -/
theorem Pos.uses_of_inner {i : Iptr} (h : .inner i ∈ a.holds me) : a.uses = some i := by
  cases a with
  | crit c | wake c _ | wakeIn c q =>
    refine Sec.uses_of_lk ?_
    simpa [holds, eq_comm] using h
  | check w | bed w =>
    refine Wait.uses_of_lk ?_
    simpa [holds, inner_not_mem_ownLock, eq_comm] using h
  | leave j | unlocking j u | putIn j | putSleep j | putGot j =>
    have e : i = j := by simpa [holds] using h
    exact congrArg some e.symm
  | leaf l x => cases l <;> simp [holds, Leaf.lk] at h
  | _ => simp [holds, inner_not_mem_ownLock] at h

/-- A process that runs stays RUNNING until it is on the way to `swtch`. -/
theorem Acts.running (st : Acts d me a d' b) (hk : Knows d a) (hq : d.state q = .running)
    (hb : me = some q → b.leaving = false) : d'.state q = .running := by
  by_contra hne
  obtain ⟨-, hs | hf | hr | ⟨hme, -, hl⟩⟩ := st.state_ne q (fun e => hne (e.trans hq))
  · rw [hq] at hs
    cases hs
  · have := hk.forks q hf
    rcases a.forkState_cases with e | e <;> rw [hq, e] at this <;> cases this
  · have := hk.reaps q hr
    rw [hq] at this
    cases this
  · rw [hb hme] at hl
    cases hl

end positions

/-! ## The invariant -/

variable {H : Type} [DecidableEq H]

/-- What holds between two steps. -/
structure Inv (s : Sys H) : Prop where
  owns : Owns s.held s.holds
  apart : ∀ h h' p, s.cur h = some p → s.cur h' = some p → h = h'
  parked : ∀ p, (∀ h, s.cur h ≠ some p) → (s.thread p).pos.isParked = true
  awake : ∀ h p, s.cur h = some p → (s.thread p).pos.isParked = false
  running : ∀ h p, s.cur h = some p → (s.thread p).pos.leaving = false → s.data.state p = .running
  knows : ∀ p, Knows s.data (s.thread p).pos
  refs : ∀ p, (s.thread p).Both (Refs s.data p)
  spins : ∀ p a l b, s.thread p = .spin a l b → ∃ d, Acquires d (some p) a l b
  sched : ∀ h, (s.sched h).Both fun a => a.isSched = true
  schedSpins : ∀ h a l b, s.sched h = .spin a l b → ∃ d, Acquires d none a l b
  forks : ∀ p q np, (s.thread p).pos.forks = some np → (s.thread q).pos.forks = some np → p = q
  books : Books s.data

namespace Sys

variable {s : Sys H} {h : H} {p : Slot} {c : Ctl Pos Lock}

omit [DecidableEq H] in
theorem ctl_of_cur (hp : s.cur h = some p) : s.ctl h = s.thread p := by
  simp [ctl, hp]

omit [DecidableEq H] in
theorem ctl_of_sched (hp : s.cur h = none) : s.ctl h = s.sched h := by
  simp [ctl, hp]

omit [DecidableEq H] in
theorem holds_of_sched (hp : s.cur h = none) : s.holds h = (s.sched h).pos.holds none := by
  simp [holds, ctl, hp]

theorem goto_of_cur (hp : s.cur h = some p) :
    s.goto h c = { s with thread := update s.thread p c } := by
  simp [goto, hp]

theorem goto_of_sched (hp : s.cur h = none) :
    s.goto h c = { s with sched := update s.sched h c } := by
  simp [goto, hp]

omit [DecidableEq H] in
theorem holds_of_cur (hp : s.cur h = some p) : s.holds h = (s.thread p).pos.holds (some p) := by
  simp [holds, ctl, hp]

end Sys

namespace Inv

variable {s s' : Sys H} {h : H} {p q : Slot} {c : Ctl Pos Lock} {d : Data}

omit [DecidableEq H] in
/-- A process that is not parked runs on a hart. -/
theorem exists_cur (hi : Inv s) (hp : (s.thread p).pos.isParked = false) : ∃ h, s.cur h = some p := by
  by_contra hno
  have := hi.parked p fun h e => hno ⟨h, e⟩
  rw [hp] at this
  cases this

omit [DecidableEq H] in
theorem eq_of_holds (hi : Inv s) {l : Lock} (hp : s.cur h = some p) (hl : l ∈ s.holds h)
    (hq : (s.thread q).pos.isParked = false) (hl' : l ∈ (s.thread q).pos.holds (some q)) : q = p := by
  obtain ⟨h', hq'⟩ := hi.exists_cur hq
  have hl' : l ∈ s.holds h' := by rwa [holds_of_cur hq']
  have e := hi.owns.unique hl hl'
  subst e
  exact some.inj (hq'.symm.trans hp)

/-- The hart `h` moves the thread of its process `p` to `c`. -/
theorem gotoThread (hi : Inv s) (hp : s.cur h = some p) (hcur : s'.cur = s.cur)
    (hsched : s'.sched = s.sched) (hself : s'.thread p = c)
    (hother : ∀ q, q ≠ p → s'.thread q = s.thread q)
    (howns : Owns s'.held (update s.holds h (c.pos.holds (some p))))
    (hawake : c.pos.isParked = false) (hrun : c.pos.leaving = false → s'.data.state p = .running)
    (hknows : Knows s'.data c.pos) (hrefs : c.Both (Refs s'.data p))
    (hspins : ∀ a l b, c = .spin a l b → ∃ d, Acquires d (some p) a l b)
    (hforks : ∀ q np, q ≠ p → c.pos.forks = some np → (s.thread q).pos.forks ≠ some np)
    (hbooks : Books s'.data)
    (hrun' : ∀ h' q, q ≠ p → s.cur h' = some q → (s.thread q).pos.leaving = false →
      s'.data.state q = .running)
    (hknows' : ∀ q, q ≠ p → Knows s'.data (s.thread q).pos)
    (hrefs' : ∀ q, q ≠ p → (s.thread q).Both (Refs s'.data q)) : Inv s' := by
  have hholds : s'.holds = update s.holds h (c.pos.holds (some p)) := by
    funext h'
    by_cases e : h' = h
    · subst h'
      rw [update_self, Sys.holds_of_cur (hcur ▸ hp), hself]
    · rw [update_of_ne e]
      cases hc : s.cur h' with
      | none => simp [Sys.holds, Sys.ctl, hcur, hc, hsched]
      | some q =>
        have hq : q ≠ p := by
          rintro rfl
          exact e (hi.apart h' h q hc hp)
        rw [Sys.holds_of_cur (hcur ▸ hc), Sys.holds_of_cur hc, hother q hq]
  refine ⟨hholds ▸ howns, hcur ▸ hi.apart, ?_, ?_, ?_, ?_, ?_, ?_, hsched ▸ hi.sched,
    hsched ▸ hi.schedSpins, ?_, hbooks⟩
  · intro q hq
    rw [hcur] at hq
    have hne : q ≠ p := by
      rintro rfl
      exact hq h hp
    rw [hother q hne]
    exact hi.parked q hq
  · intro h' q hc
    rw [hcur] at hc
    by_cases e : q = p
    · subst q
      rw [hself]
      exact hawake
    · rw [hother q e]
      exact hi.awake h' q hc
  · intro h' q hc hl
    rw [hcur] at hc
    by_cases e : q = p
    · subst q
      rw [hself] at hl
      exact hrun hl
    · rw [hother q e] at hl
      exact hrun' h' q e hc hl
  · intro q
    by_cases e : q = p
    · subst q
      rw [hself]
      exact hknows
    · rw [hother q e]
      exact hknows' q e
  · intro q
    by_cases e : q = p
    · subst q
      rw [hself]
      exact hrefs
    · rw [hother q e]
      exact hrefs' q e
  · intro q a l b hq
    by_cases e : q = p
    · subst q
      exact hspins a l b (hself ▸ hq)
    · rw [hother q e] at hq
      exact hi.spins q a l b hq
  · intro x y np hx hy
    by_cases ex : x = p <;> by_cases ey : y = p
    · rw [ex, ey]
    · subst x
      rw [hself] at hx
      rw [hother y ey] at hy
      exact absurd hy (hforks y np ey hx)
    · subst y
      rw [hself] at hy
      rw [hother x ex] at hx
      exact absurd hx (hforks x np ex hy)
    · rw [hother x ex] at hx
      rw [hother y ey] at hy
      exact hi.forks x y np hx hy

/-- The hart `h` moves its scheduler to `c`. -/
theorem gotoSched (hi : Inv s) (hp : s.cur h = none) (hcur : s'.cur = s.cur)
    (hthread : s'.thread = s.thread) (hself : s'.sched = update s.sched h c)
    (howns : Owns s'.held (update s.holds h (c.pos.holds none)))
    (hsched : c.Both fun a => a.isSched = true)
    (hspins : ∀ a l b, c = .spin a l b → ∃ d, Acquires d none a l b) (hbooks : Books s'.data)
    (hrun : ∀ h' q, s.cur h' = some q → (s.thread q).pos.leaving = false →
      s'.data.state q = .running)
    (hknows : ∀ q, Knows s'.data (s.thread q).pos)
    (hrefs : ∀ q, (s.thread q).Both (Refs s'.data q)) : Inv s' := by
  have hholds : s'.holds = update s.holds h (c.pos.holds none) := by
    funext h'
    by_cases e : h' = h
    · subst h'
      simp [Sys.holds, Sys.ctl, hcur, hp, hself]
    · rw [update_of_ne e]
      simp [Sys.holds, Sys.ctl, hcur, hthread, hself, e]
  refine ⟨hholds ▸ howns, hcur ▸ hi.apart, ?_, ?_, ?_, ?_, ?_, ?_, ?_, ?_, ?_, hbooks⟩
  · rw [hcur, hthread]
    exact hi.parked
  · rw [hcur, hthread]
    exact hi.awake
  · rw [hcur, hthread]
    exact hrun
  · rw [hthread]
    exact hknows
  · rw [hthread]
    exact hrefs
  · rw [hthread]
    exact hi.spins
  · intro h'
    rw [hself]
    by_cases e : h' = h
    · subst h'
      simpa using hsched
    · simpa [e] using hi.sched h'
  · intro h' a l b hb
    rw [hself] at hb
    by_cases e : h' = h
    · subst h'
      exact hspins a l b (by simpa using hb)
    · exact hi.schedSpins h' a l b (by simpa [e] using hb)
  · rw [hthread]
    exact hi.forks

omit [DecidableEq H] in
/-- The others know what they knew. -/
theorem knows_other (hi : Inv s) {me : Option Slot} {a b : Pos} (hme : s.cur h = me)
    (hctl : s.ctl h = .on a) (st : Acts s.data me a d b) (hk : Knows s.data a) (hq : me ≠ some q)
    (hforks : ∀ np, a.forks = some np → (s.thread q).pos.forks ≠ some np)
    (hrun : ∀ p, me = some p → s.data.state p = .running) : Knows d (s.thread q).pos := by
  have hholds : s.holds h = a.holds me := by simp [Sys.holds, hctl, hme, Ctl.pos]
  -- a lock of the hart that acts is not one of `q`
  have hlock : ∀ l, l ∈ a.holds me → (s.thread q).pos.isParked = false →
      l ∉ (s.thread q).pos.holds (some q) := by
    intro l hl hp hl'
    obtain ⟨h', hq'⟩ := hi.exists_cur hp
    have hmine : l ∈ s.holds h := hholds ▸ hl
    have hother : l ∈ s.holds h' := by rwa [Sys.holds_of_cur hq']
    obtain rfl := hi.owns.unique hmine hother
    exact hq (hme.symm.trans hq')
  refine ⟨fun np e => ?_, fun x e => ?_, fun i e => ?_, (hi.knows q).sleeps⟩
  · have hnp := (hi.knows q).forks np e
    by_contra hne
    obtain ⟨-, hsl | hf | hr | ⟨hm, -⟩⟩ := st.state_ne np (fun h => hne (h.trans hnp))
    · rcases (s.thread q).pos.forkState_cases with h' | h' <;> rw [h', hsl] at hnp <;> cases hnp
    · exact hforks np hf e
    · rcases (s.thread q).pos.forkState_cases with h' | h' <;> rw [h', hk.reaps np hr] at hnp <;>
        cases hnp
    · rcases (s.thread q).pos.forkState_cases with h' | h' <;> rw [h', hrun np hm] at hnp <;> cases hnp
  · have hx := (hi.knows q).reaps x e
    by_contra hne
    have hm := (st.state_ne x (fun h => hne (h.trans hx))).1
    have hmine := Pos.mem_holds_of_reaps (some q) e
    exact hlock _ hm hmine.2 hmine.1
  · have hx := (hi.knows q).lasts i e
    by_contra hne
    have hm := st.iref_ne i (fun h => hne (h.trans hx))
    have hmine := Pos.mem_holds_of_lasts (some q) e
    exact hlock _ hm hmine.2 hmine.1

omit [DecidableEq H] in
/-- No other thread creates the process that an action begins to create. -/
theorem forks_other (hi : Inv s) {a b : Pos} (hp : s.cur h = some p)
    (hctl : s.thread p = .on a) (st : Acts s.data (some p) a d b) {np : Slot} (hq : q ≠ p)
    (hb : b.forks = some np) : (s.thread q).pos.forks ≠ some np := by
  intro hf
  rcases st.forks with e | e | ⟨np', e, hu, hm⟩
  · rw [e] at hb
    cases hb
  · have ha : (s.thread p).pos.forks = some np := by rw [hctl]; exact e ▸ hb
    exact hq (hi.forks q p np hf ha)
  · obtain rfl : np' = np := some.inj (e.symm.trans hb)
    have hs := ((hi.knows q).forks np' hf).symm.trans hu
    obtain ⟨hl, hpk⟩ := mem_holds_of_forks (some q) hf hs
    exact hq (hi.eq_of_holds hp (by rwa [holds_of_cur hp, hctl]) hpk hl)

end Inv

/-! ## Steps -/

omit [DecidableEq H] in
theorem inv_init (p : Slot) (root : Iptr) : Inv (Sys.init p root : Sys H) where
  owns := ⟨fun l h => by simp [Sys.init, Sys.holds, Sys.ctl, Ctl.pos, Pos.holds],
    fun h => by simp [Sys.init, Sys.holds, Sys.ctl, Ctl.pos, Pos.holds]⟩
  apart h h' q hq := by cases hq
  parked q hq := rfl
  awake h q hq := by cases hq
  running h q hq := by cases hq
  knows q := .of_forks (fun np e => by cases e) rfl rfl rfl
  refs q := ⟨fun i e => (by cases e), fun i e => (by cases e), fun i e => (by cases e)⟩
  spins q a l b e := by cases e
  sched h := rfl
  schedSpins h a l b e := by cases e
  forks q q' np e := by cases e
  books := by
    refine ⟨fun i => ?_, fun f => rfl, fun f i e => (by cases e), fun q i e => (by cases e)⟩
    by_cases e : i = root
    · simp [Sys.init, e]
    · simp [Sys.init, e]

section steps

variable {s s' : Sys H} {h : H} {a b : Pos} {l : Lock} {d : Data}

/-- A hart begins to spin. -/
theorem Inv.spin (hi : Inv s) (ha : s.ctl h = .on a) (st : Acquires s.data (s.cur h) a l b) :
    Inv (s.goto h (.spin a l b)) := by
  have howns : Owns s.held (update s.holds h (a.holds (s.cur h))) := by
    refine hi.owns.keep ?_
    simp [Sys.holds, ha, Ctl.pos]
  cases hc : s.cur h with
  | none =>
    rw [Sys.ctl_of_sched hc] at ha
    rw [hc] at st howns
    rw [Sys.goto_of_sched hc]
    have hs : a.isSched = true := by
      have := hi.sched h
      rwa [ha] at this
    refine hi.gotoSched hc rfl rfl rfl howns ⟨hs, st.isSched hs⟩ ?_ hi.books hi.running hi.knows hi.refs
    intro a' l' b' e
    cases e
    exact ⟨_, st⟩
  | some p =>
    rw [Sys.ctl_of_cur hc] at ha
    rw [hc] at st howns
    rw [Sys.goto_of_cur hc]
    have hk := hi.knows p
    have hr := hi.refs p
    rw [ha] at hk hr
    refine hi.gotoThread hc rfl rfl (update_self ..) (fun q hq => update_of_ne hq ..)
      howns st.pos.2.2.1 (fun _ => hi.running h p hc ?_) hk ⟨hr, st.refs hr (hi.books.locks p)⟩ ?_ ?_
      hi.books
      (fun h' q _ => hi.running h' q) (fun q _ => hi.knows q) (fun q _ => hi.refs q)
    · rw [ha]
      exact st.pos.1
    · intro a' l' b' e
      cases e
      exact ⟨_, st⟩
    · intro q np hq hf hq'
      refine hq (hi.forks q p np hq' ?_)
      rw [ha]
      exact hf

/-- A hart gets the lock. -/
theorem Inv.acquire (hi : Inv s) (ha : s.ctl h = .spin a l b) (hl : s.held l = none) :
    Inv ((s.goto h (.on b)).setHeld l (some h)) := by
  cases hc : s.cur h with
  | none =>
    rw [ctl_of_sched hc] at ha
    rw [goto_of_sched hc]
    obtain ⟨d, st⟩ := hi.schedSpins h a l b ha
    have hs := hi.sched h
    rw [ha] at hs
    refine hi.gotoSched hc rfl rfl rfl (hi.owns.take hl ?_) hs.2 (fun _ _ _ e => by cases e) hi.books
      hi.running hi.knows hi.refs
    rw [holds_of_sched hc, ha]
    exact st.holds
  | some p =>
    rw [ctl_of_cur hc] at ha
    rw [goto_of_cur hc]
    obtain ⟨d, st⟩ := hi.spins p a l b ha
    have hk := hi.knows p
    have hr := hi.refs p
    rw [ha] at hk hr
    refine hi.gotoThread hc rfl rfl (update_self ..) (fun q hq => update_of_ne hq ..)
      (hi.owns.take hl ?_) st.pos.2.2.2 (fun _ => hi.running h p hc ?_) (hk.mono st.le) hr.2
      (fun _ _ _ e => by cases e) ?_ hi.books
      (fun h' q _ => hi.running h' q) (fun q _ => hi.knows q) (fun q _ => hi.refs q)
    · rw [holds_of_cur hc, ha]
      exact st.holds
    · rw [ha]
      exact st.pos.1
    · intro q np hq hf hq'
      refine hq (hi.forks q p np hq' ?_)
      rw [ha]
      exact st.forks_eq ▸ hf

/-- A hart releases a lock. -/
theorem Inv.release (hi : Inv s) (ha : s.ctl h = .on a) (st : Releases (s.cur h) a l b) :
    Inv ((s.goto h (.on b)).setHeld l none) := by
  cases hc : s.cur h with
  | none =>
    rw [ctl_of_sched hc] at ha
    rw [hc] at st
    rw [goto_of_sched hc]
    have hs := hi.sched h
    rw [ha] at hs
    refine hi.gotoSched hc rfl rfl rfl (hi.owns.give ?_) (st.isSched hs) (fun _ _ _ e => by cases e) hi.books
      hi.running hi.knows hi.refs
    rw [holds_of_sched hc, ha]
    exact st.holds
  | some p =>
    rw [ctl_of_cur hc] at ha
    rw [hc] at st
    rw [goto_of_cur hc]
    have hk := hi.knows p
    have hr := hi.refs p
    rw [ha] at hk hr
    refine hi.gotoThread hc rfl rfl (update_self ..) (fun q hq => update_of_ne hq ..)
      (hi.owns.give ?_) st.pos.2 (fun hb => hi.running h p hc ?_) (hk.mono st.le) (hr.mono st.needs)
      (fun _ _ _ e => by cases e) ?_ hi.books
      (fun h' q _ => hi.running h' q) (fun q _ => hi.knows q) (fun q _ => hi.refs q)
    · rw [holds_of_cur hc, ha]
      exact st.holds
    · rw [ha]
      exact st.pos.1 hb
    · intro q np hq hf hq'
      rcases st.le.forks with e | ⟨e, -⟩
      · rw [Ctl.pos, e] at hf
        cases hf
      · refine hq (hi.forks q p np hq' ?_)
        rw [ha]
        exact e ▸ hf

theorem Inv.act (hi : Inv s) (ha : s.ctl h = .on a) (st : Acts s.data (s.cur h) a d b) :
    Inv ((s.goto h (.on b)).setData d) := by
  have howns : Owns s.held (update s.holds h (b.holds (s.cur h))) := by
    refine hi.owns.keep ?_
    simp [Sys.holds, ha, Ctl.pos, st.holds]
  cases hc : s.cur h with
  | none =>
    have hctl := ha
    rw [Sys.ctl_of_sched hc] at ha
    rw [hc] at st howns
    rw [Sys.goto_of_sched hc]
    have hs := hi.sched h
    rw [ha] at hs
    have hk : Knows s.data a := .of_sched hs
    refine hi.gotoSched hc rfl rfl rfl howns (st.isSched hs) (fun _ _ _ e => by cases e)
      (st.books hi.books fun p e => by cases e) ?_ ?_ ?_
    · intro h' q hq hl
      exact st.running hk (hi.running h' q hq hl) fun e => by cases e
    · intro q
      refine hi.knows_other hc hctl st hk (fun e => by cases e) ?_ fun p e => by cases e
      intro np e
      rw [Pos.forks_of_isSched hs] at e
      cases e
    · exact fun q => (hi.refs q).imp fun x hx => st.refs_other hi.books (fun e => by cases e) hx
  | some p =>
    have hctl := ha
    rw [Sys.ctl_of_cur hc] at ha
    rw [hc] at st howns
    rw [Sys.goto_of_cur hc]
    have hk := hi.knows p
    have hr := hi.refs p
    rw [ha] at hk hr
    have hrun : s.data.state p = .running := hi.running h p hc (by rw [ha]; exact st.pos.1)
    have hrefs : ∀ q, some p = some q → Refs s.data q a := fun q e => by cases e; exact hr
    refine hi.gotoThread hc rfl rfl (update_self ..) (fun q hq => update_of_ne hq ..)
      howns st.pos.2 (fun hb => st.running hk hrun fun _ => hb)
      (st.knows hk hi.books hrefs fun q e _ => by cases e; exact hrun) (st.refs hr)
      (fun _ _ _ e => by cases e) (fun q np hq => hi.forks_other hc ha st hq) (st.books hi.books hrefs)
      ?_ ?_ ?_
    · intro h' q hq hcq hl
      exact st.running hk (hi.running h' q hcq hl) fun e => absurd (some.inj e).symm hq
    · intro q hq
      refine hi.knows_other hc hctl st hk (fun e => hq (some.inj e).symm) ?_
        fun x e => by cases e; exact hrun
      intro np e hf
      refine hq (hi.forks q p np hf ?_)
      rw [ha]
      exact e
    · intro q hq
      exact (hi.refs q).imp fun x hx =>
        st.refs_other hi.books (fun e => hq (some.inj e).symm) hx

/-- A process that a thread creates or frees is not RUNNABLE. -/
theorem Knows.setState_running {q : Slot} (hk : Knows d a) (hq : d.state q = .runnable) :
    Knows (d.setState q .running) a := by
  have hother : ∀ x, d.state x ≠ .runnable → (d.setState q .running).state x = d.state x := by
    intro x hx
    refine update_of_ne ?_ ..
    rintro rfl
    exact hx hq
  refine ⟨fun np e => ?_, fun x e => ?_, hk.lasts, hk.sleeps⟩
  · have hnp := hk.forks np e
    rw [hother np ?_, hnp]
    rcases a.forkState_cases with e | e <;> simp [hnp, e]
  · have hx := hk.reaps x e
    rw [hother x ?_, hx]
    simp [hx]

/-- A hart with the lock of `q` changes between its scheduler and the thread of `q`. -/
theorem Inv.switch (hi : Inv s) {q : Slot} {o : Option Slot} (hq : ∀ h', h' ≠ h → s.cur h' ≠ some q)
    (hown : ∀ p, s.cur h = some p → p = q) (hholds : s.holds h = [.proc q])
    (ho : o = none ∧ a.isParked = true ∧ b.holds none = [.proc q] ∨
      o = some q ∧ a.isParked = false ∧ a.holds o = [.proc q] ∧ d.state q = .running)
    (hb : b.isSched = true) (hrefs : ∀ p x, Refs s.data p x → Refs d p x)
    (hrun : ∀ h' p, p ≠ q → s.cur h' = some p → (s.thread p).pos.leaving = false →
      d.state p = .running)
    (hknows : ∀ x, Knows s.data x → Knows d x) (hle : a.Le (s.thread q).pos)
    (hneeds : a.Needs (s.thread q).pos) (hbooks : Books d) :
    Inv { s with
      data := d
      cur := update s.cur h o
      thread := update s.thread q (.on a)
      sched := update s.sched h (.on b) } := by
  have hcur : ∀ h' p, update s.cur h o h' = some p →
      h' = h ∧ o = some p ∧ p = q ∨ h' ≠ h ∧ p ≠ q ∧ s.cur h' = some p := by
    intro h' p hp
    by_cases e : h' = h
    · subst h'
      rw [update_self] at hp
      rcases ho with ⟨ho, -⟩ | ⟨ho, -⟩ <;> rw [ho] at hp <;> cases hp
      exact .inl ⟨rfl, ho, rfl⟩
    · rw [update_of_ne e] at hp
      refine .inr ⟨e, ?_, hp⟩
      rintro rfl
      exact hq h' e hp
  refine ⟨?_, ?_, ?_, ?_, ?_, ?_, ?_, ?_, ?_, ?_, ?_, hbooks⟩
  · have hsame : ∀ h', Sys.holds { s with
        data := d
        cur := update s.cur h o
        thread := update s.thread q (.on a)
        sched := update s.sched h (.on b) } h' = s.holds h' := by
      intro h'
      by_cases e : h' = h
      · subst h'
        rw [hholds]
        rcases ho with ⟨rfl, -, hh⟩ | ⟨rfl, -, hh, -⟩ <;> simpa [Sys.holds, Sys.ctl, Ctl.pos] using hh
      · cases hc : s.cur h' with
        | none => simp [Sys.holds, Sys.ctl, e, hc]
        | some p =>
          have hne : p ≠ q := by
            rintro rfl
            exact hq h' e hc
          simp [Sys.holds, Sys.ctl, e, hc, hne]
    exact (funext hsame).symm ▸ hi.owns
  · intro h₁ h₂ p h₁p h₂p
    rcases hcur h₁ p h₁p with ⟨e₁, -, hp⟩ | ⟨e₁, hp, h₁p⟩ <;>
      rcases hcur h₂ p h₂p with ⟨e₂, -, hp'⟩ | ⟨e₂, hp', h₂p⟩
    · rw [e₁, e₂]
    · exact absurd hp hp'
    · exact absurd hp' hp
    · exact hi.apart h₁ h₂ p h₁p h₂p
  · intro p hp
    by_cases e : p = q
    · subst p
      rcases ho with ⟨-, ha, -⟩ | ⟨ho, -⟩
      · simpa [Ctl.pos] using ha
      · exact absurd (by simp [ho]) (hp h)
    · simp only [update_of_ne e]
      refine hi.parked p fun h' hc => ?_
      have hne : h' ≠ h := by
        rintro rfl
        exact e (hown p hc)
      exact hp h' (by simpa [hne] using hc)
  · intro h' p hp
    rcases hcur h' p hp with ⟨-, hop, rfl⟩ | ⟨-, hne, hc⟩
    · rcases ho with ⟨ho, -⟩ | ⟨-, ha, -⟩
      · rw [ho] at hop
        cases hop
      · simpa [Ctl.pos] using ha
    · simpa [hne] using hi.awake h' p hc
  · intro h' p hp hl
    rcases hcur h' p hp with ⟨-, hop, rfl⟩ | ⟨-, hne, hc⟩
    · rcases ho with ⟨ho, -⟩ | ⟨-, -, -, hr⟩
      · rw [ho] at hop
        cases hop
      · exact hr
    · exact hrun h' p hne hc (by simpa [hne] using hl)
  · intro p
    by_cases e : p = q
    · subst p
      simpa [Ctl.pos] using hknows _ ((hi.knows q).mono hle)
    · simpa [e] using hknows _ (hi.knows p)
  · intro p
    by_cases e : p = q
    · subst p
      simpa [Ctl.Both] using hrefs _ _ ((hi.refs q).pos.mono hneeds)
    · simpa [e] using (hi.refs p).imp (hrefs p)
  · intro p x l y hp
    by_cases e : p = q
    · subst p
      simp at hp
    · exact hi.spins p x l y (by simpa [e] using hp)
  · intro h'
    by_cases e : h' = h
    · subst h'
      simpa [Ctl.Both] using hb
    · simpa [e] using hi.sched h'
  · intro h' x l y hx
    by_cases e : h' = h
    · subst h'
      simp at hx
    · exact hi.schedSpins h' x l y (by simpa [e] using hx)
  · intro x y np hx hy
    have hold : ∀ z, (update s.thread q (.on a) z).pos.forks = some np →
        (s.thread z).pos.forks = some np := by
      intro z hz
      by_cases e : z = q
      · subst z
        rw [update_self] at hz
        rcases hle.forks with hn | ⟨hn, -⟩
        · rw [Ctl.pos, hn] at hz
          cases hz
        · exact hn ▸ hz
      · rwa [update_of_ne e] at hz
    exact hi.forks x y np (hold x hx) (hold y hy)

/-- A scheduler switches to a process. -/
theorem Inv.run (hi : Inv s) {q : Slot} {y : Why} (hc : s.cur h = none)
    (ha : s.sched h = .on (.pick q)) (hq : s.data.state q = .runnable)
    (hy : s.thread q = .on (.parked y)) :
    Inv { s with
      data := s.data.setState q .running
      cur := update s.cur h (some q)
      thread := update s.thread q (.on (.resumed y))
      sched := update s.sched h (.on .away) } := by
  have hno : ∀ h', s.cur h' ≠ some q := by
    intro h' hq'
    have := hi.awake h' q hq'
    rw [hy] at this
    cases this
  refine hi.switch (fun h' _ => hno h') ?_ ?_ (.inr ⟨rfl, rfl, rfl, update_self ..⟩) rfl
    (fun p x hr => ⟨hr.uses, hr.puts, hr.clear⟩) ?_ (fun x hk => hk.setState_running hq) ?_ ?_
    ⟨hi.books.inodes, hi.books.files, hi.books.ips, hi.books.locks⟩
  · intro p hp
    rw [hc] at hp
    cases hp
  · rw [holds_of_sched hc, ha]
    rfl
  · intro h' p hp hp' hl
    exact (update_of_ne hp ..).trans (hi.running h' p hp' hl)
  · rw [hy]
    exact ⟨.inr ⟨rfl, rfl⟩, .inl rfl, .inl rfl, rfl⟩
  · rw [hy]
    exact ⟨.inr rfl, .inr rfl, .inr rfl⟩

/-- A process switches to the scheduler. -/
theorem Inv.swtch (hi : Inv s) {p : Slot} {y : Why} (hc : s.cur h = some p)
    (ha : s.thread p = .on (.own y)) :
    Inv { s with
      cur := update s.cur h none
      thread := update s.thread p (.on (.parked y.park))
      sched := update s.sched h (.on (.ran p)) } := by
  refine hi.switch (fun h' hne hp => hne (hi.apart h' h p hp hc)) ?_ ?_ (.inl ⟨rfl, rfl, rfl⟩) rfl
    (fun _ _ => id) (fun h' q _ => hi.running h' q) (fun _ => id) ?_ ?_ hi.books
  · intro q hq
    exact some.inj (hq.symm.trans hc)
  · rw [holds_of_cur hc, ha]
    rfl
  · rw [ha]
    cases y with
    | exit => exact ⟨.inl rfl, .inl rfl, .inl rfl, rfl⟩
    | _ => exact ⟨.inr ⟨rfl, rfl⟩, .inl rfl, .inl rfl, rfl⟩
  · rw [ha]
    cases y with
    | exit => exact ⟨.inl rfl, .inl rfl, .inl rfl⟩
    | _ => exact ⟨.inr rfl, .inr rfl, .inr rfl⟩

theorem Step.inv (hi : Inv s) (st : Sys.Step s s') : Inv s' := by
  cases st with
  | spin ha st => exact hi.spin ha st
  | acquire ha hl => exact hi.acquire ha hl
  | release ha st => exact hi.release ha st
  | act ha st => exact hi.act ha st
  | run hc ha hq hy => exact hi.run hc ha hq hy
  | swtch hc ha => exact hi.swtch hc ha

theorem Runs.inv (hr : Sys.Runs s s') (hi : Inv s) : Inv s' := by
  induction hr with
  | refl => exact hi
  | tail _ st ih => exact Step.inv ih st

end steps

end Xv6.Locks
