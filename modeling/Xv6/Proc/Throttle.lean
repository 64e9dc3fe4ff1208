import Xv6.Proc.Budget

/-!
# The throttle state of a process

The fields of a process that throttle it (budget, power mode) and those that count its ticks are
written by the scheduler, by `usertrap`, by `clockintr`, by the calls that set a limit or a mode, and
by `kfork`. `Proc.Throttle` is what holds of them between the lock sections. It is kept together with
two facts about the thread: a process whose tick is billed by `clockintr` and not yet charged has a
tick in hand (`Proc.Steady`), and a running process that was not charged in this turn has ticks left
(`Proc.Within`).
-/

namespace Xv6

open Function Machine

/-- The throttle state of a process. -/
structure Proc.Throttle (x : Proc) : Prop where
  budget : 0 ≤ x.cpuBudget
  used_le_budget : 0 < x.cpuBudget → x.ticksUsed ≤ x.cpuBudget
  used_le_total : x.ticksUsed ≤ x.ticksTotal
  total_le_ticks : x.ticksTotal ≤ x.cpuTicks
  eco_nonneg : 0 ≤ x.ecoSkipCounter
  eco_lt : x.ecoSkipCounter < ECO_SKIP_INTERVAL
  eco_normal : x.powerMode = .normal → x.ecoSkipCounter = 0

/-- The ticks that `clockintr` has billed and `usertrap` has not charged. -/
def Pc.pending : Pc → ℤ
  | timerKilled => 1
  | timerCharge => 1
  | _ => 0

/-- The throttle state of a process whose thread is at `k`. -/
structure Proc.Steady (x : Proc) (k : Pc) : Prop extends Proc.Throttle x where
  total_nonneg : 0 ≤ x.ticksTotal
  pending : x.ticksTotal + k.pending ≤ x.cpuTicks

/-- The fields of the throttle state. -/
def Proc.throttle (x : Proc) : ℤ × ℤ × ℤ × ℕ × ℤ × PowerMode :=
  (x.cpuBudget, x.ticksUsed, x.ticksTotal, x.cpuTicks, x.ecoSkipCounter, x.powerMode)

/-- The limit that a call by pid is about to set is not negative. -/
def Pc.LimitOk : Pc → Prop
  | pidScan (.setcpulimit limit _) _ _ => 0 ≤ limit
  | _ => True

section

variable {s s' : Machine} {h : Hart} {p q : Slot} {es : List Event} {proc : Slot → Proc}
  {pc : Slot → Pc} {x y : Proc} {k k' : Pc}

theorem Pc.pending_nonneg (k : Pc) : 0 ≤ k.pending := by
  unfold pending
  split <;> decide

theorem Proc.Steady.congr (hy : y.Steady k) (hx : x.throttle = y.throttle) : x.Steady k := by
  simp only [Proc.throttle, Prod.mk.injEq] at hx
  obtain ⟨h₁, h₂, h₃, h₄, h₅, h₆⟩ := hx
  refine ⟨⟨?_, ?_, ?_, ?_, ?_, ?_, ?_⟩, ?_, ?_⟩
  · rw [h₁]
    exact hy.budget
  · rw [h₁, h₂]
    exact hy.used_le_budget
  · rw [h₂, h₃]
    exact hy.used_le_total
  · rw [h₃, h₄]
    exact hy.total_le_ticks
  · rw [h₅]
    exact hy.eco_nonneg
  · rw [h₅]
    exact hy.eco_lt
  · rw [h₅, h₆]
    exact hy.eco_normal
  · rw [h₃]
    exact hy.total_nonneg
  · rw [h₃, h₄]
    exact hy.pending

/-- The thread moves to a place with no more ticks pending. -/
theorem Proc.Steady.move (hx : x.Steady k) (hk : k'.pending ≤ k.pending) : x.Steady k' :=
  { hx with pending := (Int.add_le_add_left hk _).trans hx.pending }

/-- A record without ticks. -/
theorem Proc.Steady.of_zero (hb : 0 ≤ x.cpuBudget) (hx : (x.ticksUsed, x.ticksTotal, x.cpuTicks,
    x.ecoSkipCounter) = (0, 0, 0, 0)) (hk : k.pending = 0) : x.Steady k := by
  simp only [Prod.mk.injEq] at hx
  obtain ⟨h₁, h₂, h₃, h₄⟩ := hx
  refine ⟨⟨hb, fun _ => ?_, ?_, ?_, ?_, ?_, fun _ => h₄⟩, ?_, ?_⟩
  · rw [h₁]
    exact hb
  · rw [h₁, h₂]
  · rw [h₂, h₃]
    exact le_rfl
  · rw [h₄]
  · rw [h₄]
    decide
  · rw [h₂]
  · rw [h₂, h₃, hk]
    exact le_rfl

/-! ## The sections -/

theorem throttle_wakeup (chan : Option Chan) (x : Proc) : (x.wakeup chan).throttle = x.throttle := by
  unfold Proc.wakeup
  split <;> rfl

theorem throttle_own (u : Own) (x : Proc) : (u.act x).throttle = x.throttle := by
  cases u <;> rfl

/-- A new window, started by the scheduler or with a new limit. -/
theorem Proc.Steady.restart (hx : x.Steady k) {b : ℤ} {n : ℕ} (hb : 0 ≤ b) :
    Proc.Steady { x with cpuBudget := b, ticksUsed := 0, budgetWindowStart := n } k :=
  ⟨⟨hb, fun h => h.le, hx.total_nonneg, hx.total_le_ticks, hx.eco_nonneg, hx.eco_lt, hx.eco_normal⟩,
    hx.total_nonneg, hx.pending⟩

/-- A new value of the counter of skipped turns. -/
theorem Proc.Steady.skip (hx : x.Steady k) {n : ℤ} {m : PowerMode} (h₀ : 0 ≤ n)
    (h₁ : n < ECO_SKIP_INTERVAL) (h₂ : m = .normal → n = 0) :
    Proc.Steady { x with ecoSkipCounter := n, powerMode := m } k :=
  ⟨⟨hx.budget, hx.used_le_budget, hx.used_le_total, hx.total_le_ticks, h₀, h₁, h₂⟩,
    hx.total_nonneg, hx.pending⟩

theorem Proc.Steady.budget_test (hx : x.Steady k) (now : ℕ) : (x.budget now).1.Steady k := by
  unfold Proc.budget
  split
  · simp only
    split
    · exact hx.restart hx.budget
    · exact hx
  · exact hx

theorem Proc.Steady.eco_test (hx : x.Steady k) : x.eco.1.Steady k := by
  unfold Proc.eco
  split
  · rename_i hm
    have hn : x.powerMode ≠ .normal := by rw [hm]; decide
    split
    · rename_i hlt
      exact hx.skip (m := x.powerMode) (Int.add_nonneg hx.eco_nonneg (by decide)) hlt fun e => absurd e hn
    · exact hx.skip (m := x.powerMode) le_rfl (by decide) fun _ => rfl
  · exact hx

/-- The scheduler's visit of a slot. -/
theorem Proc.Steady.visit (hx : x.Steady k) (now : ℕ) : (x.visit now).1.Steady k := by
  have hb := hx.budget_test now
  unfold Proc.visit
  split
  · split
    · rename_i y e
      rw [e] at hb
      exact hb.eco_test
    · rename_i y e
      rw [e] at hb
      exact hb
  · exact hx

/-- The accounting section of `usertrap`, for a process that has ticks left. -/
theorem Proc.Steady.charge (hx : x.Steady .timerCharge)
    (hb : 0 < x.cpuBudget → x.ticksUsed < x.cpuBudget) : x.charge.Steady .user := by
  have hp := hx.pending
  simp only [Pc.pending] at hp
  refine ⟨⟨hx.budget, hb, Int.add_le_add_right hx.used_le_total 1, hp, hx.eco_nonneg, hx.eco_lt,
    hx.eco_normal⟩, Int.add_nonneg hx.total_nonneg (by decide), ?_⟩
  simpa [Proc.charge, Pc.pending] using hp

theorem Proc.Steady.pidCall (hx : x.Steady k) {c : PidCall} {pid : ℤ} {i : ℕ}
    (hc : (Pc.pidScan c pid i).LimitOk) : (c.act x).Steady k := by
  cases c with
  | kkill | setusagelimit max => exact hx.congr rfl
  | setpowermode mode => exact hx.skip le_rfl (by decide) fun _ => rfl
  | setcpulimit limit now => exact hx.restart hc

theorem Proc.Steady.tick (hx : x.Steady k) (hk : k'.pending ≤ k.pending + 1) :
    Proc.Steady { x with cpuTicks := x.cpuTicks + 1 } k' := by
  have h₁ := hx.pending
  have h₂ := hx.total_le_ticks
  refine ⟨⟨hx.budget, hx.used_le_budget, hx.used_le_total, ?_, hx.eco_nonneg, hx.eco_lt, hx.eco_normal⟩,
    hx.total_nonneg, ?_⟩
  · push_cast
    omega
  · push_cast
    omega

/-! ## The table -/

/-- The processes of the table are steady. -/
def AllSteady (proc : Slot → Proc) (pc : Slot → Pc) : Prop := ∀ p, (proc p).Steady (pc p)

theorem AllSteady.set (hs : AllSteady proc pc) (hx : x.Steady k) :
    AllSteady (update proc q x) (update pc q k) := fun p => by
  by_cases e : p = q
  · subst e
    rwa [update_self, update_self]
  · rw [update_of_ne e, update_of_ne e]
    exact hs p

theorem AllSteady.setProc (hs : AllSteady proc pc) (hx : x.Steady (pc q)) :
    AllSteady (update proc q x) pc := by
  have := hs.set (q := q) hx
  rwa [update_eq_self] at this

theorem AllSteady.setPc (hs : AllSteady proc pc) (hk : k.pending ≤ (pc q).pending) :
    AllSteady proc (update pc q k) := by
  have := hs.set (q := q) ((hs q).move hk)
  rwa [update_eq_self] at this

/-- The thread moves to a place with no tick pending. -/
theorem AllSteady.move (hs : AllSteady proc pc) (hk : k.pending = 0) :
    AllSteady proc (update pc q k) :=
  hs.setPc (by rw [hk]; exact Pc.pending_nonneg _)

/-- An update of a record that leaves the throttle state alone. -/
theorem AllSteady.keep (hs : AllSteady proc pc) (hx : x.throttle = (proc q).throttle) :
    AllSteady (update proc q x) pc := hs.setProc ((hs q).congr hx)

theorem AllSteady.clockintr (hs : AllSteady s.proc s.pc)
    (hk : ∀ p, s.cpu h = some p → (s.proc p).state = .running ∧ (pc p).pending ≤ (s.pc p).pending + 1)
    (hpc : ∀ p, s.cpu h ≠ some p → pc p = s.pc p) : AllSteady (s.clockintr h).proc pc := fun p => by
  by_cases hp : s.cpu h = some p
  · obtain ⟨hr, hle⟩ := hk p hp
    have e : (s.clockintr h).proc p = { s.proc p with cpuTicks := (s.proc p).cpuTicks + 1 } := by
      simp only [Machine.clockintr, if_pos (And.intro hp hr)]
    rw [e]
    exact (hs p).tick hle
  · have e : (s.clockintr h).proc p = s.proc p := by
      simp only [Machine.clockintr, if_neg fun hh : _ ∧ _ => hp hh.1]
    rw [e, hpc p hp]
    exact hs p

theorem pending_of_preemptible (hk : k.preemptible = true) : k.pending = 0 := by
  cases k <;> first | rfl | cases hk

theorem pending_of_alive (hk : k.alive = some k') : k'.pending ≤ k.pending := by
  cases k <;> cases hk <;> decide

theorem pending_of_sleeps (hk : k.sleeps = true) : k.pending = 0 := by
  cases k <;> first | rfl | cases hk

/-- Ticks are pending for running processes only. -/
def AllBilled (proc : Slot → Proc) (pc : Slot → Pc) : Prop :=
  ∀ p, (pc p).pending ≠ 0 → (proc p).state = .running

theorem AllBilled.setProc (hb : AllBilled proc pc)
    (hx : (proc q).state = .running → x.state = .running ∨ (pc q).pending = 0) :
    AllBilled (update proc q x) pc := fun p hp => by
  by_cases e : p = q
  · subst e
    rw [update_self]
    exact (hx (hb p hp)).resolve_right hp
  · rw [update_of_ne e]
    exact hb p hp

theorem AllBilled.setPc (hb : AllBilled proc pc) (hk : k.pending ≤ (pc q).pending) :
    AllBilled proc (update pc q k) := fun p hp => by
  by_cases e : p = q
  · subst e
    rw [update_self] at hp
    have := k.pending_nonneg
    exact hb p (by omega)
  · rw [update_of_ne e] at hp
    exact hb p hp

theorem AllBilled.move (hb : AllBilled proc pc) (hk : k.pending = 0) :
    AllBilled proc (update pc q k) :=
  hb.setPc (by rw [hk]; exact Pc.pending_nonneg _)

theorem AllBilled.keep (hb : AllBilled proc pc) (hx : x.state = (proc q).state) :
    AllBilled (update proc q x) pc := hb.setProc fun hr => .inl (hx.trans hr)

theorem AllBilled.stopped (hb : AllBilled proc pc) (hq : (proc q).state ≠ .running) :
    AllBilled (update proc q x) pc := hb.setProc fun hr => absurd hr hq

theorem AllBilled.wakeup (hb : AllBilled proc pc) (chan : Option Chan) :
    AllBilled (update proc q ((proc q).wakeup chan)) pc := by
  refine hb.setProc fun hr => .inl ?_
  unfold Proc.wakeup
  rw [if_neg (by rw [hr]; rintro ⟨⟨⟩, -⟩)]
  exact hr

theorem Step.allBilled (hs : Placed s) (hb : AllBilled s.proc s.pc) (st : Step s es s') :
    AllBilled s'.proc s'.pc := by
  cases st with
  | schedTop _ | schedEnd _ | schedBack _ => exact hb
  | schedSkip _ _ hv => exact hb.keep (visited hv).state
  | schedRun _ _ _ => exact hb.setProc fun _ => .inl rfl
  | resume _ _ => exact hb.keep rfl
  | @timerIdle h _ =>
    rw [clockintr_pc]
    exact fun p hp => (clockintr_state s h p).trans (hb p hp)
  | @timerKernel h q _ _ =>
    show AllBilled (s.clockintr h).proc (s.clockintr h).pc
    rw [clockintr_pc]
    exact fun p hp => (clockintr_state s h p).trans (hb p hp)
  | @timerUser h q hr hq =>
    intro p hp
    rw [show ((s.clockintr h).setPc q .timerKilled).proc = (s.clockintr h).proc from rfl, clockintr_state]
    by_cases e : p = q
    · rw [e]
      exact hs.running_of_runs hr
    · rw [setPc_pc, update_of_ne e, clockintr_pc] at hp
      exact hb p hp
  | timerCharge _ _ _ | setkilled _ _ _ => exact AllBilled.move (hb.keep rfl) rfl
  | @yield h now q _ hc _ =>
    refine hb.setProc fun _ => .inr ?_
    rcases hs.yields q hc with hk | hk
    · rw [hk]
      rfl
    · exact pending_of_preemptible hk
  | sleep _ _ hk _ => exact hb.setProc fun _ => .inr (pending_of_sleeps hk)
  | checkAlive _ hk _ _ => exact hb.setPc (pending_of_alive hk)
  | own _ _ => exact hb.keep (own_state _ _)
  | wakeup _ => exact hb.wakeup _
  | @pidHit h p q call pid _ _ _ _ =>
    refine AllBilled.move (hb.setProc fun hr => .inl ?_) rfl
    cases call with
    | kkill => simp only [PidCall.act, hr]; rfl
    | setpowermode mode | setcpulimit limit now | setusagelimit max => exact hr
  | forkFail _ _ _ hu => exact AllBilled.move (hb.stopped (by rw [hu]; decide)) rfl
  | @forkClaim h p q _ _ _ hu =>
    exact AllBilled.move (AllBilled.move (hb.stopped (by rw [hu]; decide)) rfl) rfl
  | forkInherit _ _ _ | forkParent _ _ _ | exitClose _ _ | exitCwd _ _ | exitAdopt _ _ _ =>
    exact AllBilled.move (hb.keep rfl) rfl
  | @forkReady h p q _ hp _ =>
    have hu := hs.used_of_child (show (s.pc p).child = some q by rw [hp]; rfl)
    exact AllBilled.move (hb.stopped (by rw [hu]; decide)) rfl
  | wakeInit _ _ _ _ | wakeParent _ _ _ _ => exact AllBilled.move (hb.wakeup _) rfl
  | exitZombie _ _ hp _ | waitSleep _ _ hp _ =>
    exact AllBilled.move (hb.setProc fun _ => .inr (by rw [hp]; rfl)) rfl
  | waitReap _ _ _ _ hz => exact AllBilled.move (hb.stopped (by rw [hz]; decide)) rfl
  | _ => exact hb.move rfl

theorem AllBilled.pending (hb : AllBilled proc pc) (hq : (proc q).state ≠ .running) :
    (pc q).pending = 0 := by
  by_contra hp
  exact hq (hb q hp)

theorem Step.allSteady (ha : Accounted s) (hb : AllBilled s.proc s.pc) (hl : ∀ p, (s.pc p).LimitOk) (hs : AllSteady s.proc s.pc)
    (st : Step s es s') : AllSteady s'.proc s'.pc := by
  have hcpu : ∀ {h p q}, s.Runs h p → s.cpu h = some q → q = p := fun {h p q} hr hq => by
    obtain ⟨⟨now, hsc⟩, -⟩ := hr
    rw [ha.placed.cpu, hsc] at hq
    exact (Option.some.inj hq).symm
  cases st with
  | schedTop _ | schedEnd _ | schedBack _ => exact hs
  | @schedSkip _ now _ q x _ _ hv =>
    have hx := (hs q).visit now
    rw [hv] at hx
    exact hs.setProc hx
  | @schedRun _ now _ q x _ _ hv =>
    have hx := (hs q).visit now
    rw [hv] at hx
    exact hs.setProc (hx.congr rfl)
  | resume _ _ | yield _ _ _ | sleep _ _ _ _ => exact hs.keep rfl
  | @timerIdle h hsc =>
    rw [clockintr_pc]
    refine hs.clockintr (fun p hp => ?_) fun _ _ => rfl
    rw [ha.placed.cpu_of_idle hsc] at hp
    cases hp
  | @timerUser h p hr hp =>
    show AllSteady (s.clockintr h).proc (update (s.clockintr h).pc p .timerKilled)
    rw [clockintr_pc]
    refine hs.clockintr (fun q hq => ?_) fun q hq => ?_
    · obtain rfl := hcpu hr hq
      refine ⟨ha.placed.running_of_runs hr, ?_⟩
      rw [update_self, hp]
      decide
    · refine update_of_ne (fun e => hq ?_) _ _
      obtain ⟨⟨now, hsc⟩, -⟩ := hr
      rw [ha.placed.cpu, hsc, e]
      rfl
  | @timerKernel h p hr hp =>
    show AllSteady (s.clockintr h).proc (s.clockintr h).pc
    rw [clockintr_pc]
    refine hs.clockintr (fun q hq => ?_) fun _ _ => rfl
    obtain rfl := hcpu hr hq
    exact ⟨ha.placed.running_of_runs hr, Int.le_add_one le_rfl⟩
  | @timerCharge h p hr hp _ =>
    have hx := hs p
    rw [hp] at hx
    refine hs.set (hx.charge fun hb => ?_)
    exact ha.within p (ha.placed.running_of_runs hr) (by rw [hr.2]; decide) hb
  | checkAlive _ hk _ _ => exact hs.setPc (pending_of_alive hk)
  | setkilled _ _ _ => exact AllSteady.move (hs.keep rfl) rfl
  | own _ _ => exact hs.keep (throttle_own _ _)
  | wakeup _ => exact hs.keep (throttle_wakeup _ _)
  | @pidHit h p q call pid _ hp _ _ =>
    have hc := hl p
    rw [hp] at hc
    exact AllSteady.move (hs.setProc ((hs q).pidCall hc)) rfl
  | forkFail _ _ _ hu =>
    exact AllSteady.move (hs.setProc (.of_zero le_rfl rfl (hb.pending (by rw [hu]; decide)))) rfl
  | waitReap _ _ _ _ hz =>
    exact AllSteady.move (hs.setProc (.of_zero le_rfl rfl (hb.pending (by rw [hz]; decide)))) rfl
  | @forkInherit h p q _ hp _ =>
    -- the budget is the parent's, the ticks start again
    have hu := ha.placed.used_of_child (show (s.pc p).child = some q by rw [hp]; rfl)
    exact AllSteady.move
      (hs.setProc (.of_zero (hs p).budget rfl (hb.pending (by rw [hu]; decide)))) rfl
  | forkClaim _ _ _ _ =>
    exact AllSteady.move (hs.set (.of_zero le_rfl rfl rfl)) rfl
  | forkParent _ _ _ | forkReady _ _ _ | exitClose _ _ | exitCwd _ _ | exitAdopt _ _ _
  | exitZombie _ _ _ _ | waitSleep _ _ _ _ => exact AllSteady.move (hs.keep rfl) rfl
  | wakeInit _ _ _ _ | wakeParent _ _ _ _ =>
    exact AllSteady.move (hs.keep (throttle_wakeup _ _)) rfl
  | _ => exact hs.move rfl

theorem Step.limitOk (hl : ∀ p, (s.pc p).LimitOk) (st : Step s es s') (p : Slot) : (s'.pc p).LimitOk := by
  have move : ∀ {pc : Slot → Pc} {q : Slot} {k : Pc}, (∀ p, (pc p).LimitOk) → k.LimitOk →
      ∀ p, (update pc q k p).LimitOk := fun {pc q k} hpc hk p => by
    by_cases e : p = q
    · rw [e, update_self]
      exact hk
    · rw [update_of_ne e]
      exact hpc p
  cases st with
  | schedTop _ | schedEnd _ | schedBack _ | schedSkip _ _ _ | schedRun _ _ _ | resume _ _ | yield _ _ _
  | sleep _ _ _ _ | own _ _ | wakeup _ => exact hl p
  | timerIdle _ =>
    rw [clockintr_pc]
    exact hl p
  | timerKernel _ _ =>
    rw [setCtx_pc, clockintr_pc]
    exact hl p
  | timerUser _ _ =>
    rw [setPc_pc, clockintr_pc]
    exact move hl (by trivial) p
  | @checkAlive h q k _ hk _ _ =>
    refine move hl ?_ p
    cases hq : s.pc q <;> rw [hq] at hk <;> cases hk <;> trivial
  | @callPid h q call pid _ _ hc =>
    refine move hl ?_ p
    cases call with
    | setcpulimit limit now => exact hc.1
    | _ => trivial
  | @pidMiss h r q call pid _ hr _ _ =>
    refine move hl ?_ p
    have := hl r
    rw [hr] at this
    cases call <;> exact this
  | forkClaim _ _ _ _ => exact move (move hl (by trivial)) (by trivial) p
  | _ => exact move hl (by trivial) p

end

/-- What holds of the throttle state and of the threads in every reachable state. -/
structure Throttled (s : Machine) : Prop where
  accounted : Accounted s
  billed : AllBilled s.proc s.pc
  limits : ∀ p, (s.pc p).LimitOk
  steady : AllSteady s.proc s.pc

theorem Step.throttled {s s' : Machine} {es : List Event} (hs : Throttled s) (st : Step s es s') :
    Throttled s' where
  accounted := st.accounted hs.accounted
  billed := st.allBilled hs.accounted.placed hs.billed
  limits := st.limitOk hs.limits
  steady := st.allSteady hs.accounted hs.billed hs.limits hs.steady

theorem throttled_boot : Throttled Machine.boot where
  accounted := accounted_boot
  billed p hp := by
    unfold Machine.boot at hp
    simp only at hp
    split at hp <;> exact absurd rfl hp
  limits p := by
    unfold Machine.boot
    simp only
    split <;> trivial
  steady p := by
    unfold Machine.boot
    simp only
    split
    · exact .of_zero le_rfl rfl rfl
    · exact .of_zero le_rfl rfl rfl

/-- **The throttle state.** In every reachable state of any number of harts, every process has a budget
that is not negative and, if it is positive, has used at most the budget; the ticks used in the window
are at most those charged, which are at most those billed; the counter of skipped turns is below the
interval, and it is zero in normal mode. The counters are kept in full, so this is what the kernel's
`int` fields hold as long as fewer than `2 ^ 31` ticks are charged to a process. -/
theorem throttle_invariant {tr : List Event} {s : Machine} (hr : Runs tr s) (p : Slot) :
    0 ≤ (s.proc p).cpuBudget ∧
    (0 < (s.proc p).cpuBudget → (s.proc p).ticksUsed ≤ (s.proc p).cpuBudget) ∧
    (s.proc p).ticksUsed ≤ (s.proc p).ticksTotal ∧ (s.proc p).ticksTotal ≤ (s.proc p).cpuTicks ∧
    0 ≤ (s.proc p).ecoSkipCounter ∧ (s.proc p).ecoSkipCounter < ECO_SKIP_INTERVAL ∧
    ((s.proc p).powerMode = .normal → (s.proc p).ecoSkipCounter = 0) := by
  have hs : Throttled s := hr.invariant (I := fun _ s => Throttled s) throttled_boot
    fun _ _ _ _ hs st => st.throttled hs
  have hp := hs.steady p
  exact ⟨hp.budget, hp.used_le_budget, hp.used_le_total, hp.total_le_ticks, hp.eco_nonneg, hp.eco_lt,
    hp.eco_normal⟩

/-- The first process limits itself to one tick and uses it up. -/
theorem throttle_invariant_one_tick : ∃ tr s, Runs tr s ∧ (s.proc 0).cpuBudget = 1 ∧
    (s.proc 0).ticksUsed = 1 ∧ (0 < (s.proc 0).cpuBudget → (s.proc 0).ticksUsed ≤ (s.proc 0).cpuBudget) := by
  have hr := (Trans.Run.refl : Trans.Run Step Machine.boot [] _)
    |>.tail (@Step.schedTop _ 0 rfl)
    |>.tail (@Step.schedRun _ 0 0 false 0 _ rfl rfl rfl)
    |>.tail (@Step.resume _ 0 0 0 false rfl rfl)
    |>.tail (@Step.prepareReturn _ 0 0 ⟨⟨0, rfl⟩, rfl⟩ rfl)
    |>.tail (@Step.checkAlive _ 0 0 .kernel ⟨⟨0, rfl⟩, rfl⟩ rfl rfl rfl)
    |>.tail (@Step.callPid _ 0 0 (.setcpulimit 1 0) 1 ⟨⟨0, rfl⟩, rfl⟩ rfl ⟨by decide, rfl⟩)
    |>.tail (@Step.pidHit _ 0 0 0 (.setcpulimit 1 0) 1 ⟨⟨0, rfl⟩, rfl⟩ rfl rfl (by decide +kernel))
    |>.tail (@Step.checkAlive _ 0 0 .prepareReturn ⟨⟨0, rfl⟩, rfl⟩ rfl rfl rfl)
    |>.tail (@Step.prepareReturn _ 0 0 ⟨⟨0, rfl⟩, rfl⟩ rfl)
    |>.tail (@Step.timerUser _ 0 0 ⟨⟨0, rfl⟩, rfl⟩ rfl)
    |>.tail (@Step.checkAlive _ 0 0 .timerCharge ⟨⟨0, rfl⟩, rfl⟩ rfl rfl rfl)
    |>.tail (@Step.timerCharge _ 0 0 ⟨⟨0, rfl⟩, rfl⟩ rfl rfl)
  exact ⟨_, _, hr, rfl, rfl, (throttle_invariant hr 0).2.1⟩

end Xv6
