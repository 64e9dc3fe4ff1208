import Mathlib.Algebra.BigOperators.Group.Finset.Basic
import Mathlib.Algebra.BigOperators.Group.Finset.Piecewise
import Mathlib.Algebra.BigOperators.Group.List.Basic
import Mathlib.Data.Fintype.Basic
import Xv6.Proc.Budget

/-!
# Conservation of ticks

On one hart, every tick is active or idle, every active tick is billed to a process, and every context
switch is a turn of a process. What processes had when they were reaped is recorded by the steps of
`SoloStep`. A step changes the books in one of three ways (`Tallied`): it bills no tick and gives no
turn, it is a clock interrupt, or it dispatches a process.
-/

namespace Xv6

open Function List Machine Proc

/-- The part of a process in a total. -/
def Proc.entry (f : Proc → ℕ) (x : Proc) : ℕ := if x.state = .unused then 0 else f x

/-- What a process had that was freed by a step from `x` to `y`. -/
def Proc.lost (f : Proc → ℕ) (x y : Proc) : ℕ :=
  if x.state ≠ .unused ∧ y.state = .unused then f x else 0

namespace Machine

/-- The total of `f` over the processes. -/
def total (f : Proc → ℕ) (s : Machine) : ℕ := ∑ p, (s.proc p).entry f

/-- The total of `f` over the processes that are freed between `s` and `s'`. -/
def reaped (f : Proc → ℕ) (s s' : Machine) : ℕ := ∑ p, (s.proc p).lost f (s'.proc p)

end Machine

/-- A step of a machine with a single hart. It records the ticks and the turns of the processes that it
frees. -/
def SoloStep (s : Machine) (fs : List (ℕ × ℕ)) (s' : Machine) : Prop :=
  (∃ es, Step s es s') ∧ (∀ h ≠ 0, s'.sched h = .top) ∧
    fs = [(s.reaped Proc.cpuTicks s', s.reaped Proc.schedCount s')]

/-- A change of a record that bills no tick and gives no turn. -/
inductive Booked (x y : Proc) : Prop
  | same : (y.state = .unused ↔ x.state = .unused) → y.cpuTicks = x.cpuTicks →
      y.schedCount = x.schedCount → Booked x y
  | free : y.state = .unused → Booked x y
  | alloc : x.state = .unused → y.cpuTicks = 0 → y.schedCount = 0 → Booked x y

theorem Booked.refl (x : Proc) : Booked x x := .same Iff.rfl rfl rfl

theorem Booked.balance {x y : Proc} (h : Booked x y) {f : Proc → ℕ}
    (hf : f = cpuTicks ∨ f = schedCount) : y.entry f + x.lost f y = x.entry f := by
  cases h with
  | same hu hc hs =>
    have hxy : f y = f x := by
      rcases hf with rfl | rfl
      · exact hc
      · exact hs
    by_cases hx : x.state = .unused
    · simp [entry, lost, hx, hu.2 hx]
    · simp [entry, lost, hx, hu, hxy]
  | free hy => by_cases hx : x.state = .unused <;> simp [entry, lost, hx, hy]
  | alloc hx hc hs =>
    have hy : f y = 0 := by
      rcases hf with rfl | rfl
      · exact hc
      · exact hs
    simp [entry, lost, hx, hy]

/-- The counters of the machine. -/
def Machine.counters (s : Machine) : ℕ × ℕ × ℕ × ℕ :=
  (s.ticks, s.activeTicks, s.idleTicks, s.contextSwitches)

/-- What a step does to the books. -/
inductive Tallied (s s' : Machine) : Prop
  | quiet : (∀ p, Booked (s.proc p) (s'.proc p)) → s'.counters = s.counters → Tallied s s'
  | clock {h : Hart} : s'.proc = (s.clockintr h).proc → s'.counters = (s.clockintr h).counters →
      ((s.sched h).idle = true ∨ ∃ p, s.Runs h p) → Tallied s s'
  | turn {q : Slot} {x : Proc} : s'.proc = update s.proc q x → (s.proc q).state ≠ .unused →
      x.state ≠ .unused → x.cpuTicks = (s.proc q).cpuTicks →
      x.schedCount = (s.proc q).schedCount + 1 →
      s'.counters = (s.ticks, s.activeTicks, s.idleTicks, s.contextSwitches + 1) → Tallied s s'

section

variable {s s' : Machine} {h : Hart} {p q : Slot} {es : List Event} {x : Proc} {f : Proc → ℕ}

theorem Booked.update (hx : Booked (s.proc q) x) (p : Slot) :
    Booked (s.proc p) (update s.proc q x p) := by
  by_cases e : p = q
  · subst e
    rwa [update_self]
  · rw [update_of_ne e]
    exact .refl _

theorem Booked.wakeup (chan : Option Chan) (x : Proc) : Booked x (x.wakeup chan) :=
  .same (wakeup_unused chan x) (by unfold Proc.wakeup; split <;> rfl) (by unfold Proc.wakeup; split <;> rfl)

theorem Booked.own (u : Own) (x : Proc) : Booked x (u.act x) := by
  cases u <;> exact .same Iff.rfl rfl rfl

theorem Booked.pidCall (c : PidCall) (x : Proc) : Booked x (c.act x) :=
  .same (pidCall_unused c x) (by cases c <;> rfl) (by cases c <;> rfl)

/-- The slot that a `kfork` has just taken has no ticks. -/
def FreshTicks (s : Machine) : Prop := ∀ r q, s.pc r = .forkCopy q → (s.proc q).cpuTicks = 0

theorem Step.tallied (hs : Placed s) (hf : FreshTicks s) (st : Step s es s') : Tallied s s' := by
  -- a running process changes its state
  have stop : ∀ {h : Hart} {now : ℕ} {p : Slot} {x : Proc}, s.sched h = .away now p →
      x.state ≠ .unused → x.cpuTicks = (s.proc p).cpuTicks → x.schedCount = (s.proc p).schedCount →
      Booked (s.proc p) x := fun hsc hx h₁ h₂ => by
    refine .same (iff_of_false hx ?_) h₁ h₂
    rw [hs.running hsc]
    decide
  cases st with
  | schedTop _ | schedEnd _ | schedBack _ => exact .quiet (fun p => .refl _) rfl
  | schedSkip _ _ hv =>
    have h := visited hv
    exact .quiet (Booked.update (.same (by rw [h.state]) h.cpuTicks h.schedCount)) rfl
  | schedRun _ _ hv =>
    have h := visited hv
    refine .turn rfl ?_ ?_ h.cpuTicks (congrArg (· + 1) h.schedCount) rfl
    · rw [runnable_of_visit hv]
      decide
    · exact (by decide : ProcState.running ≠ .unused)
  | resume _ _ | timerCharge _ _ _ | setkilled _ _ _
  | forkParent _ _ _ | exitClose _ _ | exitCwd _ _ | exitAdopt _ _ _ =>
    exact .quiet (Booked.update (.same Iff.rfl rfl rfl)) rfl
  | timerIdle ht => exact .clock rfl rfl (.inl ht)
  | timerUser hr _ | timerKernel hr _ => exact .clock rfl rfl (.inr ⟨_, hr⟩)
  | own _ _ => exact .quiet (Booked.update (.own _ _)) rfl
  | wakeup _ | wakeInit _ _ _ _ | wakeParent _ _ _ _ =>
    exact .quiet (Booked.update (.wakeup _ _)) rfl
  | pidHit _ _ _ _ => exact .quiet (Booked.update (.pidCall _ _)) rfl
  | forkFail _ _ _ _ | waitReap _ _ _ _ _ => exact .quiet (Booked.update (.free rfl)) rfl
  | forkClaim _ _ _ hu => exact .quiet (Booked.update (.alloc hu rfl rfl)) rfl
  | @forkInherit h p q _ hp _ => exact .quiet (Booked.update (.same Iff.rfl (hf p q hp).symm rfl)) rfl
  | yield hsc _ _ | sleep hsc _ _ _ | exitZombie hsc _ _ _ | waitSleep hsc _ _ _ =>
    exact .quiet (Booked.update (stop hsc (by simp) rfl rfl)) rfl
  | @forkReady h p q _ hp _ =>
    have hu := hs.used_of_child (show (s.pc p).child = some q by rw [hp]; rfl)
    exact .quiet (Booked.update (.same (iff_of_false (by simp) (by rw [hu]; decide)) rfl rfl)) rfl
  | _ => exact .quiet (fun p => .refl _) rfl

/-- The ticks of a process that is not running stay as they are, or the process is freed. -/
theorem Tallied.ticks (ht : Tallied s s') (hq : (s.proc q).state = .used) :
    (s'.proc q).cpuTicks = (s.proc q).cpuTicks ∨ (s'.proc q).state = .unused := by
  cases ht with
  | quiet hb _ =>
    cases hb q with
    | same _ h₂ _ => exact .inl h₂
    | free h₁ => exact .inr h₁
    | alloc h₁ _ _ => simp [hq] at h₁
  | @clock h hp _ _ =>
    rw [hp]
    simp [clockintr, hq]
  | @turn r x hp _ _ h₂ _ _ =>
    rw [hp]
    by_cases e : q = r
    · subst e
      rw [update_self]
      exact .inl h₂
    · rw [update_of_ne e]
      exact .inl rfl

theorem Step.freshTicks (hs : Placed s) (hf : FreshTicks s) (st : Step s es s') : FreshTicks s' := by
  intro r q hr
  have hused := (st.placed hs).used_of_child (show (s'.pc r).child = some q by rw [hr]; rfl)
  rcases st.building (show (s'.pc r).building = some q by rw [hr]; rfl) with h | ⟨-, h⟩ | ⟨-, hx⟩
  · have hr' : s.pc r = .forkCopy q := h ▸ hr
    have hq := hs.used_of_child (show (s.pc r).child = some q by rw [hr']; rfl)
    rcases (st.tallied hs hf).ticks hq with e | e
    · rw [e, hf r q hr']
    · simp [hused] at e
  · simp [h] at hr
  · rw [hx]
    rfl

/-! ## The totals -/

/-- A sum to which one term is added. -/
theorem total_of_slots (f : Proc → ℕ) (s s' : Machine) (g : Slot → ℕ)
    (hb : ∀ p, (s'.proc p).entry f + (s.proc p).lost f (s'.proc p) = (s.proc p).entry f + g p) :
    s'.total f + s.reaped f s' = s.total f + ∑ p, g p := by
  simp only [total, Machine.reaped, ← Finset.sum_add_distrib]
  exact Finset.sum_congr rfl fun p _ => hb p

/-- The books after a step of a single hart. -/
structure Balanced (s s' : Machine) : Prop where
  ticks : s'.activeTicks + s'.idleTicks + s.ticks = s.activeTicks + s.idleTicks + s'.ticks
  active : s'.total Proc.cpuTicks + s.reaped Proc.cpuTicks s' + s.activeTicks =
    s.total Proc.cpuTicks + s'.activeTicks
  turns : s'.total Proc.schedCount + s.reaped Proc.schedCount s' + s.contextSwitches =
    s.total Proc.schedCount + s'.contextSwitches

theorem Tallied.balanced (hs : Placed s) (hsolo : ∀ h ≠ 0, s.sched h = .top) (ht : Tallied s s') :
    Balanced s s' := by
  cases ht with
  | quiet hb hc =>
    simp only [counters, Prod.mk.injEq] at hc
    obtain ⟨h₁, h₂, h₃, h₄⟩ := hc
    have e₁ := total_of_slots cpuTicks s s' (fun _ => 0) fun p => (hb p).balance (.inl rfl)
    have e₂ := total_of_slots schedCount s s' (fun _ => 0) fun p => (hb p).balance (.inr rfl)
    simp only [Finset.sum_const_zero] at e₁ e₂
    exact ⟨by omega, by omega, by omega⟩
  | @clock h hp hc hrun =>
    simp only [counters, Prod.mk.injEq] at hc
    obtain ⟨c₁, c₂, c₃, c₄⟩ := hc
    rcases hrun with hsc | ⟨q, ⟨now, hsc⟩, hctx⟩
    · -- no process is billed
      have hcpu := hs.cpu_of_idle hsc
      have hp' : s'.proc = s.proc := by
        rw [hp]
        simp [clockintr, hcpu]
      have e := fun f => total_of_slots f s s' (fun _ => 0) fun p => by
        rw [hp']
        simp [lost]
      simp only [Finset.sum_const_zero] at e
      have e₁ := e cpuTicks
      have e₂ := e schedCount
      by_cases h0 : h = 0
      · subst h0
        simp only [clockintr, if_true, countTick, hcpu] at c₁ c₂ c₃ c₄
        exact ⟨by omega, by omega, by omega⟩
      · simp only [clockintr, if_neg h0] at c₁ c₂ c₃ c₄
        exact ⟨by omega, by omega, by omega⟩
    · -- the running process of hart 0 is billed
      obtain rfl : h = 0 := by
        by_contra h0
        simp [hsolo h h0] at hsc
      have hcpu : s.cpu 0 = some q := by
        rw [hs.cpu, hsc]
        rfl
      have hst := hs.running hsc
      have hproc : ∀ p, s'.proc p = if p = q then { s.proc q with cpuTicks := (s.proc q).cpuTicks + 1 }
          else s.proc p := fun p => by
        rw [hp]
        by_cases e : p = q
        · subst e
          simp [clockintr, hcpu, hst]
        · simp [clockintr, hcpu, e, Ne.symm e]
      have e₁ := total_of_slots cpuTicks s s'
        (fun p => if p = q then 1 else 0) fun p => by
          rw [hproc]
          by_cases e : p = q
          · subst e
            simp [entry, lost, hst]
          · simp [e, lost]
      have e₂ := total_of_slots schedCount s s' (fun _ => 0) fun p => by
          rw [hproc]
          by_cases e : p = q
          · subst e
            simp [entry, lost, hst]
          · simp [e, lost]
      simp only [Finset.sum_const_zero, Finset.sum_ite_eq', Finset.mem_univ, if_true] at e₁ e₂
      simp only [clockintr, if_true, countTick, hcpu, reduceCtorEq, if_false] at c₁ c₂ c₃ c₄
      exact ⟨by omega, by omega, by omega⟩
  | @turn q x hp hq hx h₁ h₂ hc =>
    simp only [counters, Prod.mk.injEq] at hc
    obtain ⟨c₁, c₂, c₃, c₄⟩ := hc
    have e₁ := total_of_slots cpuTicks s s' (fun _ => 0) fun p => by
      rw [hp]
      by_cases e : p = q
      · subst e
        simp [entry, lost, hq, hx, h₁]
      · simp [e, lost]
    have e₂ := total_of_slots schedCount s s'
      (fun p => if p = q then 1 else 0) fun p => by
        rw [hp]
        by_cases e : p = q
        · subst e
          simp [entry, lost, hq, hx, h₂]
        · simp [e, lost]
    simp only [Finset.sum_const_zero, Finset.sum_ite_eq', Finset.mem_univ, if_true] at e₁ e₂
    exact ⟨by omega, by omega, by omega⟩

end

/-- What holds after a run of a single hart that has recorded `fs`. -/
structure Conserved (fs : List (ℕ × ℕ)) (s : Machine) : Prop where
  placed : Placed s
  fresh : FreshTicks s
  solo : ∀ h ≠ 0, s.sched h = .top
  ticks : s.activeTicks + s.idleTicks = s.ticks
  active : s.activeTicks = s.total Proc.cpuTicks + (fs.map Prod.fst).sum
  turns : s.contextSwitches = s.total Proc.schedCount + (fs.map Prod.snd).sum

theorem conserved_boot : Conserved [] Machine.boot where
  placed := placed_boot
  fresh r q hr := by
    unfold Machine.boot at hr
    simp only at hr
    split at hr <;> cases hr
  solo _ _ := rfl
  ticks := rfl
  active := by decide +kernel
  turns := by decide +kernel

theorem SoloStep.conserved {fs gs : List (ℕ × ℕ)} {s s' : Machine} (hc : Conserved fs s)
    (st : SoloStep s gs s') : Conserved (fs ++ gs) s' := by
  obtain ⟨⟨es, st⟩, hsolo, rfl⟩ := st
  have hb := (st.tallied hc.placed hc.fresh).balanced hc.placed hc.solo
  have h₁ := hb.ticks
  have h₂ := hb.active
  have h₃ := hb.turns
  have h₄ := hc.ticks
  have h₅ := hc.active
  have h₆ := hc.turns
  refine ⟨st.placed hc.placed, st.freshTicks hc.placed hc.fresh, hsolo, by omega, ?_, ?_⟩
  · rw [map_append, sum_append]
    simp only [map_cons, map_nil, sum_cons, sum_nil]
    omega
  · rw [map_append, sum_append]
    simp only [map_cons, map_nil, sum_cons, sum_nil]
    omega

/-- **Conservation of ticks.** After every run of a single hart: the active and the idle ticks add up
to the ticks; the active ticks are those billed to the processes of the table together with those that
the reaped processes had; and the context switches are their turns. The counters are kept in full, so
the equations hold of the low 32 bits that the kernel keeps. -/
theorem tick_accounting {fs : List (ℕ × ℕ)} {s : Machine} (hr : Trans.Run SoloStep Machine.boot fs s) :
    s.activeTicks + s.idleTicks = s.ticks ∧
    s.activeTicks = (∑ p, if (s.proc p).state = .unused then 0 else (s.proc p).cpuTicks) +
      (fs.map Prod.fst).sum ∧
    s.contextSwitches = (∑ p, if (s.proc p).state = .unused then 0 else (s.proc p).schedCount) +
      (fs.map Prod.snd).sum := by
  have hc : Conserved fs s := hr.invariant (I := fun fs s => Conserved fs s) conserved_boot
    fun _ _ _ _ hc st => st.conserved hc
  exact ⟨hc.ticks, hc.active, hc.turns⟩

/-- An idle tick, a tick inside a system call of the first process, and one on the hart's way through the
rest of its scan. -/
theorem tick_accounting_three_ticks : ∃ fs s, Trans.Run SoloStep Machine.boot fs s ∧ s.ticks = 3 ∧
    s.activeTicks = 1 ∧ s.contextSwitches = 1 ∧ s.activeTicks + s.idleTicks = s.ticks := by
  have solo : ∀ {s s' : Machine} {es : List Event}, Step s es s' → (∀ h ≠ 0, s'.sched h = .top) →
      SoloStep s [(s.reaped Proc.cpuTicks s', s.reaped Proc.schedCount s')] s' := fun st h =>
    ⟨⟨_, st⟩, h, rfl⟩
  have hr := (Trans.Run.refl : Trans.Run SoloStep Machine.boot [] _)
    |>.tail (solo (@Step.timerIdle _ 0 rfl) fun _ _ => rfl)
    |>.tail (solo (@Step.schedTop _ 0 rfl) fun h h0 => update_of_ne h0 _ _)
    |>.tail (solo (@Step.schedRun _ 0 1 false 0 _ rfl rfl rfl) fun h h0 => by simp [h0]; rfl)
    |>.tail (solo (@Step.resume _ 0 1 0 false rfl rfl) fun h h0 => by simp [h0]; rfl)
    |>.tail (solo (@Step.prepareReturn _ 0 0 ⟨⟨1, rfl⟩, rfl⟩ rfl) fun h h0 => by simp [h0]; rfl)
    |>.tail (solo (@Step.checkAlive _ 0 0 _ ⟨⟨1, rfl⟩, rfl⟩ rfl rfl rfl) fun h h0 => by simp [h0]; rfl)
    |>.tail (solo (@Step.timerKernel _ 0 0 ⟨⟨1, rfl⟩, rfl⟩ rfl) fun h h0 => by
      simp [clockintr_sched, h0]; rfl)
    |>.tail (solo (@Step.yield _ 0 1 0 rfl rfl rfl) fun h h0 => by
      simp [clockintr_sched, swtch, h0]; rfl)
    |>.tail (solo (@Step.schedBack _ 0 1 0 rfl) fun h h0 => by
      simp [clockintr_sched, swtch, h0]; rfl)
    |>.tail (solo (@Step.timerIdle _ 0 rfl) fun h h0 => by
      simp [clockintr_sched, swtch, h0]; rfl)
  exact ⟨_, _, hr, rfl, rfl, rfl, (tick_accounting hr).1⟩

end Xv6
