import Xv6.Sleep.Machine

/-!
# No wakeup is lost

A process is `Pending` from its failed test until it is no longer asleep on the channel. The invariant
`Tended`: if the condition was made true since a pending process tested it, then the party with `lk` has
yet to visit the process. A pending process either holds `lk`, so that nobody can make the condition
true, or its own lock, so that nobody can pass it by, or it is asleep and a visit wakes it.

`Locked` is what this needs of the locks: who is in a section holds its lock, who is asleep on the
channel is switched out in `sleep`, and the process that a handler interrupted stays where it is.
-/

namespace Xv6

open Option SleepSys Sleeper Bool

open Function (update update_self update_of_ne)

/-- The process has `lk`. -/
def SleepPc.hasLk : SleepPc → Bool
  | .test => true
  | .bed => true
  | .drowsy => true
  | .crit _ => true
  | _ => false

/-- The process has its own lock. -/
def SleepPc.hasSelf : SleepPc → Bool
  | .drowsy => true
  | .fall => true
  | .sched _ _ => true
  | .on _ _ => true
  | _ => false

/-- The process is in `sleep` on the channel, off its hart or on the way. -/
def SleepPc.away : SleepPc → Bool
  | .sched true .enter => true
  | .off true .enter => true
  | _ => false

/-- The process is on a hart and has not called `sched`. -/
def SleepPc.runs : SleepPc → Bool
  | .sched _ _ => false
  | .off _ _ => false
  | _ => true

/-- The process has failed its test and is not yet asleep. -/
def SleepPc.nods : SleepPc → Bool
  | .bed => true
  | .drowsy => true
  | .fall => true
  | _ => false

/-- The process is not in `wakeup` or before one that it owes. -/
def SleepPc.idle : SleepPc → Bool
  | .crit .work => true
  | .crit _ => false
  | _ => true

/-- The process is `idle` and not interrupted. -/
def SleepPc.calm : SleepPc → Bool
  | .intr _ => false
  | k => k.idle

attribute [simp] SleepPc.hasLk SleepPc.hasSelf SleepPc.away SleepPc.runs SleepPc.nods SleepPc.idle SleepPc.calm

/-- `myproc()` of a handler. -/
def HandlerPc.myproc : HandlerPc → Option Slot
  | .idle => none
  | .enter q => q
  | .crit q _ => q

/-- The section has yet to visit `p`. -/
def Section.Before (p : Slot) : Section → Prop
  | .work => False
  | .owes => True
  | .wake k => k ≤ p
  | .visit k => k ≤ p

theorem SleepPc.idle_of_calm {k : SleepPc} (h : k.calm = true) : k.idle = true := by
  cases k <;> simp_all

theorem Section.ne_work_of_before {p : Slot} {x : Section} (h : x.Before p) : x ≠ .work := by
  rintro rfl
  exact h

/-- The process has failed its test and is not awake since. -/
def Sleeper.Pending (c : ℕ) (x : Sleeper) : Prop :=
  x.pc.nods = true ∨ (x.state = .sleeping ∧ x.chan = c)

/-- The slot `p` is as its locks allow, with `lk` held by `l`. -/
structure Sleeper.Ok (c : ℕ) (l : Option Party) (p : Slot) (x : Sleeper) : Prop where
  lk : x.pc.hasLk = true → l = some (.proc p)
  self : x.pc.hasSelf = true → x.lock = some (.proc p)
  asleep : x.state = .sleeping → x.chan = c → x.pc.away = true
  runs : x.pc.runs = true → x.state = .running

/-- A change of a slot that does not touch what its section has to do. -/
def Sleeper.Moves (x y : Sleeper) : Prop := y.pc = x.pc ∨ (x.pc.idle = true ∧ y.pc.idle = true)

namespace SleepSys

/-! ### Sections -/

section Sections

variable {s : SleepSys} {a : Party} {x : Section} {p : Slot} {z : Sleeper}

theorem pc_of_sect (h : s.sect (.proc p) = some x) : (s.proc p).pc = .crit x := by
  simp only [sect] at h
  split at h <;> simp_all

theorem hpc_of_sect {n : ℕ} (h : s.sect (.handler n) = some x) : ∃ q, s.hpc n = .crit q x := by
  simp only [sect] at h
  split at h <;> simp_all

theorem sect_goto (y : Section) (h : s.sect a = some x) (b : Party) :
    (s.goto a y).sect b = if b = a then some y else s.sect b := by
  cases a with
  | proc p =>
    cases b with
    | proc q => by_cases e : q = p <;> simp [goto, set, sect, e]
    | _ => simp [goto, set, sect]
  | handler n =>
    cases b with
    | handler m => by_cases e : m = n <;> simp [goto, sect, e]
    | _ => simp [goto, sect]
  | other e => simp [sect] at h

theorem proc_goto (y : Section) (h : s.sect a = some x) (p : Slot) :
    (s.goto a y).proc p = s.proc p ∨
      ((s.proc p).pc = .crit x ∧ (s.goto a y).proc p = { s.proc p with pc := .crit y }) := by
  cases a with
  | proc q =>
    by_cases e : p = q
    · subst e
      exact .inr ⟨pc_of_sect h, by simp [goto, set]⟩
    · exact .inl (by simp [goto, set, e])
  | _ => exact .inl rfl

theorem myproc_goto (y : Section) (h : s.sect a = some x) (n : ℕ) :
    ((s.goto a y).hpc n).myproc = (s.hpc n).myproc := by
  cases a with
  | handler m =>
    by_cases e : n = m
    · subst e
      obtain ⟨q, hq⟩ := hpc_of_sect h
      simp [goto, myproc, hq, HandlerPc.myproc]
    · simp [goto, e]
  | _ => rfl

@[simp] theorem goto_lk (y : Section) : (s.goto a y).lk = s.lk := by cases a <;> rfl

@[simp] theorem goto_made (y : Section) : (s.goto a y).made = s.made := by cases a <;> rfl

/-- The sections of the others do not depend on a slot. -/
theorem sect_set_of_ne (l : Option Party) (h : a ≠ .proc p) :
    ({ s.set p z with lk := l } : SleepSys).sect a = s.sect a := by
  cases a with
  | proc q =>
    have e : q ≠ p := fun e => h (by rw [e])
    simp [sect, set, e]
  | _ => rfl

/-- A section with something to do is the same before and after a change of a slot. -/
theorem sect_set (l : Option Party) (hm : (s.proc p).Moves z) (hx : x ≠ .work) :
    ({ s.set p z with lk := l } : SleepSys).sect a = some x ↔ s.sect a = some x := by
  by_cases e : a = .proc p
  · subst e
    obtain h | ⟨h₁, h₂⟩ := hm
    · simp [sect, set, h]
    · constructor
      · intro h
        have h' := pc_of_sect h
        simp only [set, update_self] at h'
        rw [h'] at h₂
        cases x <;> simp_all
      · intro h
        rw [pc_of_sect h] at h₁
        cases x <;> simp_all
  · rw [sect_set_of_ne l e]

end Sections

/-! ### The invariant -/

structure Locked (c : ℕ) (s : SleepSys) : Prop where
  slot : ∀ p, (s.proc p).Ok c s.lk p
  sect : ∀ a x, s.sect a = some x → s.lk = some a
  visit : ∀ a k, s.sect a = some (.visit k) → (s.proc k).lock = some a
  intr : ∀ n q, (s.hpc n).myproc = some q → ∃ b, (s.proc q).pc = .intr b
  intr_inj : ∀ m n q, (s.hpc m).myproc = some q → (s.hpc n).myproc = some q → m = n

/-- Some party has yet to visit `p`. -/
def Due (s : SleepSys) (p : Slot) : Prop := ∃ a x, s.sect a = some x ∧ x.Before p

/-- Pending processes have tested the condition as it is, or will be visited. -/
def Tended (c : ℕ) (s : SleepSys) : Prop :=
  ∀ p, (s.proc p).Pending c → s.made ≤ (s.proc p).tested ∨ s.Due p

structure Good (c : ℕ) (s : SleepSys) : Prop where
  locked : Locked c s
  tended : Tended c s

variable {c : ℕ} {s : SleepSys} {a : Party} {x : Section} {p : Slot} {z : Sleeper} {l : Option Party}

/-- A slot changes, and perhaps the owner of `lk`. -/
theorem Locked.set (h : Locked c s) (hm : (s.proc p).Moves z)
    (hi : z.pc = (s.proc p).pc ∨ ∀ n, (s.hpc n).myproc ≠ some p) (hz : z.Ok c l p)
    (hl : ∀ a, a ≠ .proc p → s.lk = some a → l = some a)
    (hv : ∀ a, s.sect a = some (.visit p) → z.lock = some a) :
    Locked c { s.set p z with lk := l } where
  slot q := by
    by_cases e : q = p
    · subst e
      simpa [SleepSys.set] using hz
    · have hq := h.slot q
      simp only [SleepSys.set, update_of_ne e]
      exact ⟨fun hk => hl _ (by simpa using e) (hq.lk hk), hq.self, hq.asleep, hq.runs⟩
  sect b y hb := by
    by_cases e : b = .proc p
    · subst e
      have := pc_of_sect hb
      simp only [SleepSys.set, update_self] at this
      exact hz.lk (by rw [this]; rfl)
    · rw [sect_set_of_ne l e] at hb
      exact hl b e (h.sect b y hb)
  visit b k hb := by
    rw [sect_set l hm (by simp)] at hb
    by_cases e : k = p
    · subst e
      simpa [SleepSys.set] using hv b hb
    · simpa [SleepSys.set, e] using h.visit b k hb
  intr n q hq := by
    obtain ⟨b, hb⟩ := h.intr n q hq
    by_cases e : q = p
    · subst e
      obtain hi | hi := hi
      · exact ⟨b, by simpa [SleepSys.set, hi] using hb⟩
      · exact absurd hq (hi n)
    · exact ⟨b, by simpa [SleepSys.set, e] using hb⟩
  intr_inj := h.intr_inj

/-- A party goes to another section; with the lock of `k` if it visits `k`. -/
theorem Locked.goto (h : Locked c s) (ha : s.sect a = some x) (y : Section)
    (hy : ∀ k, y = .visit k → (s.proc k).lock = some a) : Locked c (s.goto a y) where
  slot p := by
    rw [goto_lk]
    have hp := h.slot p
    obtain e | ⟨e, e'⟩ := proc_goto y ha p
    · rwa [e]
    · rw [e']
      refine ⟨fun _ => hp.lk (by rw [e]; rfl), fun hs => absurd hs (by simp),
        fun hs hc => ?_, fun _ => hp.runs (by rw [e]; rfl)⟩
      have hw := hp.asleep hs hc
      rw [e] at hw
      exact absurd hw (by simp)
  sect b z hb := by
    rw [goto_lk]
    rw [sect_goto y ha] at hb
    split at hb
    · rename_i e
      exact e ▸ h.sect a x ha
    · exact h.sect b z hb
  visit b k hb := by
    have hk : ((s.goto a y).proc k).lock = (s.proc k).lock := by
      obtain e | ⟨-, e⟩ := proc_goto y ha k <;> rw [e]
    rw [hk]
    rw [sect_goto y ha] at hb
    split at hb
    · rename_i e
      exact e ▸ hy k (some.inj hb)
    · exact h.visit b k hb
  intr n q hq := by
    rw [myproc_goto y ha] at hq
    obtain ⟨b, hb⟩ := h.intr n q hq
    obtain e | ⟨e, -⟩ := proc_goto y ha q
    · exact ⟨b, by rw [e, hb]⟩
    · rw [hb] at e
      exact absurd e (by simp)
  intr_inj m n q hm hn := by
    rw [myproc_goto y ha] at hm hn
    exact h.intr_inj m n q hm hn

theorem Locked.not_myproc (h : Locked c s) (hp : (s.proc p).pc.calm = true) (n : ℕ) :
    (s.hpc n).myproc ≠ some p := fun hn => by
  obtain ⟨b, hb⟩ := h.intr n p hn
  rw [hb] at hp
  exact absurd hp (by simp)

/-- A process that is pending after a change has just tested the condition, or was pending before. -/
theorem Tended.set (h : Tended c s) (hm : (s.proc p).Moves z)
    (hp : z.Pending c → s.made ≤ z.tested ∨
      ((s.proc p).Pending c ∧ z.tested = (s.proc p).tested)) :
    Tended c { s.set p z with lk := l } := by
  have keep : ∀ q, s.Due q → ({ s.set p z with lk := l } : SleepSys).Due q := by
    rintro q ⟨b, y, hb, hy⟩
    exact ⟨b, y, (sect_set l hm (Section.ne_work_of_before hy)).2 hb, hy⟩
  intro q hq
  by_cases e : q = p
  · subst e
    simp only [SleepSys.set, update_self] at hq ⊢
    obtain h' | ⟨h', e'⟩ := hp hq
    · exact .inl h'
    · rw [e']
      exact (h q h').imp_right (keep q)
  · simp only [SleepSys.set, update_of_ne e] at hq ⊢
    exact (h q hq).imp_right (keep q)

/-- Who is in a section is not pending. -/
theorem Locked.not_pending_of_crit (h : Locked c s) (hp : (s.proc p).pc = .crit x) :
    ¬ (s.proc p).Pending c := by
  rintro (hn | ⟨hs, hc⟩)
  · rw [hp] at hn
    exact absurd hn (by simp)
  · have hw := (h.slot p).asleep hs hc
    rw [hp] at hw
    exact absurd hw (by simp)

/-- A party goes on in its section, without passing by a pending process. -/
theorem Good.goto (h : Good c s) (ha : s.sect a = some x) (y : Section)
    (hy : ∀ k, y = .visit k → (s.proc k).lock = some a)
    (hb : ∀ q, (s.proc q).Pending c → x.Before q → y.Before q) : Good c (s.goto a y) := by
  refine ⟨h.locked.goto ha y hy, fun q hq => ?_⟩
  obtain e | ⟨-, e⟩ := proc_goto y ha q
  · rw [e] at hq ⊢
    rw [goto_made]
    refine (h.tended q hq).imp_right ?_
    rintro ⟨b, z, hz, hbz⟩
    by_cases eb : b = a
    · subst eb
      obtain rfl : x = z := some.inj (ha.symm.trans hz)
      exact ⟨b, y, by rw [sect_goto y ha, if_pos rfl], hb q hq hbz⟩
    · exact ⟨b, z, by rw [sect_goto y ha, if_neg eb, hz], hbz⟩
  · exact absurd hq ((h.locked.goto ha y hy).not_pending_of_crit (by rw [e]))

/-- A slot changes, and perhaps the owner of `lk`. -/
theorem Good.set (h : Good c s) (hm : (s.proc p).Moves z)
    (hi : z.pc = (s.proc p).pc ∨ ∀ n, (s.hpc n).myproc ≠ some p) (hz : z.Ok c l p)
    (hl : ∀ a, a ≠ .proc p → s.lk = some a → l = some a)
    (hv : ∀ a, s.sect a = some (.visit p) → z.lock = some a)
    (hp : z.Pending c → s.made ≤ z.tested ∨
      ((s.proc p).Pending c ∧ z.tested = (s.proc p).tested)) : Good c { s.set p z with lk := l } :=
  ⟨h.locked.set hm hi hz hl hv, h.tended.set hm hp⟩

/-- Nobody visits a process whose lock is free, its own or held by one of the others. -/
theorem Locked.not_visited (h : Locked c s) (hp : (s.proc p).lock ≠ some a) :
    s.sect a ≠ some (.visit p) := fun ha => hp (h.visit a p ha)

theorem Locked.not_visited_free (h : Locked c s) (hp : (s.proc p).lock = none) (a : Party) :
    s.sect a ≠ some (.visit p) := h.not_visited (by simp [hp])

theorem Locked.not_visited_other (h : Locked c s) {e : ℕ} (hp : (s.proc p).lock = some (.other e))
    (a : Party) : s.sect a ≠ some (.visit p) := fun ha => by
  have := h.visit a p ha
  rw [hp] at this
  cases this
  exact absurd ha (by simp [SleepSys.sect])

theorem Locked.not_visited_self (h : Locked c s) (hp : (s.proc p).pc.hasSelf = true) (a : Party) :
    s.sect a ≠ some (.visit p) := fun ha => by
  have := h.visit a p ha
  rw [(h.slot p).self hp] at this
  cases this
  rw [pc_of_sect ha] at hp
  exact absurd hp (by simp)

theorem Locked.not_nods_of_visit (h : Locked c s) (ha : s.sect a = some (.visit p)) :
    (s.proc p).pc.nods = false := by
  have hl := h.sect a _ ha
  have hs := h.slot p
  cases hp : (s.proc p).pc with
  | bed =>
    have := hs.lk (by rw [hp]; rfl)
    rw [hl] at this
    cases this
    exact absurd (hp.symm.trans (pc_of_sect ha)) (by simp)
  | drowsy | fall => exact absurd ha (h.not_visited_self (by rw [hp]; rfl) a)
  | _ => rfl

end SleepSys

namespace Sleeper

variable {c : ℕ} {x : Sleeper}

theorem not_pending_rouse (h : x.pc.nods = false) : ¬ (x.rouse c).Pending c := by
  rw [rouse]
  split_ifs with hs
  · simp [Pending, h, -SleepPc.nods]
  · simpa [Pending, h, -SleepPc.nods] using hs

theorem rouse_pc : (x.rouse c).pc = x.pc := by
  rw [rouse]
  split_ifs <;> rfl

theorem jolt_pc : x.jolt.pc = x.pc := by
  rw [jolt]
  split_ifs <;> rfl

theorem jolt_tested : x.jolt.tested = x.tested := by
  rw [jolt]
  split_ifs <;> rfl

theorem pending_of_jolt (h : x.jolt.Pending c) : x.Pending c := by
  rw [jolt] at h
  split_ifs at h with hs
  · exact h.imp id fun h' => absurd h'.1 (by simp)
  · exact h

variable {l : Option Party} {p : Slot}

/-- A sleeper may be made runnable: it does not run. -/
theorem Ok.wake (h : x.Ok c l p) (hs : x.state = .sleeping) :
    ({ x with state := .runnable } : Sleeper).Ok c l p :=
  ⟨h.lk, h.self, fun hs' => absurd hs' (by simp), fun hr => absurd (h.runs hr) (by simp [hs])⟩

theorem Ok.rouse (h : x.Ok c l p) : (x.rouse c).Ok c l p := by
  rw [Sleeper.rouse]
  split_ifs with hs
  · exact h.wake hs.1
  · exact h

theorem Ok.jolt (h : x.Ok c l p) : x.jolt.Ok c l p := by
  rw [Sleeper.jolt]
  split_ifs with hs
  · exact h.wake hs
  · exact h

/-- The lock of a process that does not hold it itself changes hands. -/
theorem Ok.setLock {l o : Option Party} {p : Slot} (h : x.Ok c l p) (hp : x.pc.hasSelf = false) :
    ({ x with lock := o } : Sleeper).Ok c l p :=
  ⟨h.lk, fun hs => absurd (hp.symm.trans hs) (by decide), h.asleep, h.runs⟩

/-- A process whose lock is not its own is not in a part of the code that holds it. -/
theorem Ok.hasSelf_eq_false (h : x.Ok c l p)
    (hp : x.lock ≠ some (.proc p)) : x.pc.hasSelf = false :=
  eq_false_iff.2 fun hs => hp (h.self hs)

end Sleeper

open SleepSys

variable {c : ℕ} {s s' : SleepSys} {es : List Unit}

namespace SleepSys.Good

variable {p : Slot} {z : Sleeper} {a : Party} {x : Section}

/-- A process takes a turn that leaves `lk` alone. -/
theorem turn (h : Good c s) (hc : (s.proc p).pc.calm = true) (hc' : z.pc.idle = true)
    (hz : z.Ok c s.lk p) (hv : z.lock = (s.proc p).lock ∨ ∀ a, s.sect a ≠ some (.visit p))
    (hp : z.pc.nods = true → s.made ≤ z.tested ∨
      ((s.proc p).pc.nods = true ∧ z.tested = (s.proc p).tested))
    (hs : z.state = .sleeping → z.chan = c →
      (s.proc p).Pending c ∧ z.tested = (s.proc p).tested) : Good c (s.set p z) :=
  h.set (.inr ⟨SleepPc.idle_of_calm hc, hc'⟩) (.inr (h.locked.not_myproc hc)) hz (fun _ _ => id)
    (fun a ha => hv.elim (fun e => e ▸ h.locked.visit a p ha) fun hn => absurd ha (hn a))
    fun hq => hq.elim (fun hn => (hp hn).imp_right fun h' => ⟨.inl h'.1, h'.2⟩)
      fun h' => .inr (hs h'.1 h'.2)

/-- A process that runs goes on to `k`, and perhaps takes or gives up `lk`. -/
theorem walk {k : SleepPc} {m : ℕ} {l : Option Party} (h : Good c s)
    (hr : (s.proc p).pc.runs = true) (hc : (s.proc p).pc.calm = true) (hk : k.idle = true)
    (hlk : k.hasLk = true → l = some (.proc p))
    (hself : k.hasSelf = true → (s.proc p).pc.hasSelf = true)
    (hl : ∀ a, a ≠ .proc p → s.lk = some a → l = some a)
    (hp : k.nods = true → s.made ≤ m ∨ ((s.proc p).pc.nods = true ∧ m = (s.proc p).tested)) :
    Good c { s.set p { s.proc p with pc := k, tested := m } with lk := l } := by
  have hs := h.locked.slot p
  have hrun := hs.runs hr
  have hno : (s.proc p).state ≠ .sleeping := by simp [hrun]
  refine h.set (.inr ⟨SleepPc.idle_of_calm hc, hk⟩) (.inr (h.locked.not_myproc hc))
    ⟨hlk, fun h' => hs.self (hself h'), fun h' => absurd h' hno, fun _ => hrun⟩ hl (fun a ha => h.locked.visit a p ha) fun hq => ?_
  rcases hq with hn | hn
  · exact (hp hn).imp_right fun h' => ⟨.inl h'.1, h'.2⟩
  · exact absurd hn.1 hno

/-- A slot is changed by one of the others, who has its lock before or after. -/
theorem touch (h : Good c s) (hpc : z.pc = (s.proc p).pc) (hz : z.Ok c s.lk p)
    (hv : ∀ a, s.sect a ≠ some (.visit p)) (hp : z.Pending c → (s.proc p).Pending c)
    (ht : z.tested = (s.proc p).tested) : Good c (s.set p z) :=
  h.set (.inl hpc) (.inl hpc) hz (fun _ _ => id) (fun a ha => absurd ha (hv a))
    fun hq => .inr ⟨hp hq, ht⟩

/-- A visit wakes the process, which is then neither asleep nor on its way. -/
theorem visited {k : Slot} (h : Good c s) (ha : s.sect a = some (.visit k)) :
    Good c ((s.goto a (.wake (k + 1))).modify k fun x => { x.rouse c with lock := none }) := by
  have hg := h.locked.goto ha (.wake (k + 1)) (by simp)
  have hn := h.locked.not_nods_of_visit ha
  have hself : (s.proc k).pc.hasSelf = false :=
    eq_false_iff.2 fun hs => h.locked.not_visited_self hs a ha
  obtain ⟨hpc, hno⟩ : ((s.goto a (.wake (k + 1))).proc k).pc.hasSelf = false ∧
      ((s.goto a (.wake (k + 1))).proc k).pc.nods = false := by
    obtain e | ⟨-, e⟩ := proc_goto (.wake (k + 1)) ha k
    · rw [e]
      exact ⟨hself, hn⟩
    · rw [e]
      exact ⟨rfl, rfl⟩
  -- only `a` was visiting `k`
  have hv : ∀ b, (s.goto a (.wake (k + 1))).sect b ≠ some (.visit k) := fun b hb => by
    rw [sect_goto _ ha] at hb
    split at hb
    · simp at hb
    · rename_i hne
      have h₁ := h.locked.sect b _ hb
      rw [h.locked.sect a _ ha] at h₁
      exact hne (some.inj h₁).symm
  have hm : ((s.goto a (.wake (k + 1))).proc k).Moves
      { ((s.goto a (.wake (k + 1))).proc k).rouse c with lock := none } := .inl Sleeper.rouse_pc
  refine ⟨hg.set hm (.inl Sleeper.rouse_pc) ?_ (fun _ _ => id) fun b hb => absurd hb (hv b),
    fun q hq => ?_⟩
  · exact (hg.slot k).rouse.setLock (by rw [Sleeper.rouse_pc]; exact hpc)
  · by_cases e : q = k
    · subst e
      simp only [SleepSys.modify, SleepSys.set, update_self] at hq
      exact absurd hq (Sleeper.not_pending_rouse hno)
    · simp only [SleepSys.modify, SleepSys.set, update_of_ne e] at hq ⊢
      have hpq : (s.proc q).Pending c ∧ ((s.goto a (.wake (k + 1))).proc q) = s.proc q := by
        obtain e' | ⟨-, e'⟩ := proc_goto (.wake (k + 1)) ha q
        · exact ⟨e' ▸ hq, e'⟩
        · exact absurd hq (hg.not_pending_of_crit (by rw [e']))
      rw [hpq.2, goto_made]
      refine (h.tended q hpq.1).imp_right ?_
      rintro ⟨b, y, hb, hy⟩
      by_cases eb : b = a
      · subst eb
        obtain rfl : Section.visit k = y := some.inj (ha.symm.trans hb)
        refine ⟨b, .wake (k + 1), (sect_set s.lk hm (by simp)).2 ?_, ?_⟩
        · rw [sect_goto _ ha, if_pos rfl]
        · have hle : k ≤ q := hy
          have hne : (k : ℕ) ≠ q := fun e' => e (Fin.ext e'.symm)
          have : (k : ℕ) ≤ q := hle
          change (k : ℕ) + 1 ≤ q
          omega
      · refine ⟨b, y, (sect_set s.lk hm (Section.ne_work_of_before hy)).2 ?_, hy⟩
        rw [sect_goto _ ha, if_neg eb, hb]

/-- A handler that has nothing to visit goes on to `k`, and perhaps takes or gives up `lk`. -/
theorem handle {n : ℕ} {k : HandlerPc} {l : Option Party} (h : Good c s)
    (hx : ∀ q x, s.hpc n = .crit q x → x = .work)
    (hk : ∀ q x, k = .crit q x → x = .work ∧ l = some (.handler n))
    (hl : ∀ a, a ≠ .handler n → s.lk = some a → l = some a)
    (hm : ∀ q, k.myproc = some q →
      (∃ b, (s.proc q).pc = .intr b) ∧ ∀ m, m ≠ n → (s.hpc m).myproc ≠ some q) :
    Good c { s with lk := l, hpc := update s.hpc n k } := by
  have hs : ∀ a, a ≠ .handler n →
      ({ s with lk := l, hpc := update s.hpc n k } : SleepSys).sect a = s.sect a := by
    intro a ha
    cases a with
    | handler m =>
      have e : m ≠ n := fun e => ha (by rw [e])
      simp [SleepSys.sect, e]
    | _ => rfl
  have hn : ∀ y, ({ s with lk := l, hpc := update s.hpc n k } : SleepSys).sect (.handler n) =
      some y → y = .work ∧ l = some (.handler n) := fun y hy => by
    obtain ⟨q, hq⟩ := hpc_of_sect hy
    simp only [update_self] at hq
    exact hk q y hq
  refine ⟨⟨fun p => ?_, fun a y ha => ?_, fun a j ha => ?_, fun m q hq => ?_, fun m m' q h₁ h₂ => ?_⟩,
    fun q hq => ?_⟩
  · have hp := h.locked.slot p
    exact ⟨fun hlk => hl _ (by simp) (hp.lk hlk), hp.self, hp.asleep, hp.runs⟩
  · by_cases e : a = .handler n
    · subst e
      exact (hn y ha).2
    · rw [hs a e] at ha
      exact hl a e (h.locked.sect a y ha)
  · by_cases e : a = .handler n
    · subst e
      exact absurd (hn _ ha).1 (by simp)
    · rw [hs a e] at ha
      exact h.locked.visit a j ha
  · by_cases e : m = n
    · subst e
      simp only [update_self] at hq
      exact (hm q hq).1
    · simp only [update_of_ne e] at hq
      exact h.locked.intr m q hq
  · by_cases e₁ : m = n <;> by_cases e₂ : m' = n
    · rw [e₁, e₂]
    · subst e₁
      simp only [update_self] at h₁
      simp only [update_of_ne e₂] at h₂
      exact absurd h₂ ((hm q h₁).2 m' e₂)
    · subst e₂
      simp only [update_self] at h₂
      simp only [update_of_ne e₁] at h₁
      exact absurd h₁ ((hm q h₂).2 m e₁)
    · simp only [update_of_ne e₁] at h₁
      simp only [update_of_ne e₂] at h₂
      exact h.locked.intr_inj m m' q h₁ h₂
  · refine (h.tended q hq).imp_right ?_
    rintro ⟨a, y, ha, hy⟩
    have e : a ≠ .handler n := fun e => by
      subst e
      obtain ⟨q', hq'⟩ := hpc_of_sect ha
      exact Section.ne_work_of_before hy (hx q' y hq')
    exact ⟨a, y, (hs a e).trans ha, hy⟩

end SleepSys.Good

/-- Who a section skips is not pending: it is in the section, or interrupted by it. -/
theorem SleepSys.Good.not_pending_myproc {a : Party} {x : Section} {k : Slot} (h : Good c s)
    (ha : s.sect a = some x) (hk : s.myproc a = some k) : ¬ (s.proc k).Pending c := by
  cases a with
  | proc p =>
    cases hk
    exact h.locked.not_pending_of_crit (pc_of_sect ha)
  | handler n =>
    obtain ⟨q, hq⟩ := hpc_of_sect ha
    simp only [myproc, hq] at hk
    obtain ⟨b, hb⟩ := h.locked.intr n k (by rw [hq]; exact hk)
    rintro (hn | ⟨hs, hc⟩)
    · rw [hb] at hn
      exact absurd hn (by simp)
    · have hw := (h.locked.slot k).asleep hs hc
      rw [hb] at hw
      exact absurd hw (by simp)
  | other e => simp [SleepSys.sect] at ha

/-- Another party does not have `lk` when it is free or held by `p`. -/
theorem SleepSys.lk_of_ne {p : Slot} {l : Option Party} (h : s.lk = none ∨ s.lk = some (.proc p))
    (a : Party) (ha : a ≠ .proc p) (hs : s.lk = some a) : l = some a := by
  rcases h with h | h
  · rw [h] at hs
    exact absurd hs (by simp)
  · rw [h] at hs
    exact absurd (some.inj hs).symm ha

theorem SleepSys.lk_of_ne_handler {n : ℕ} {l : Option Party}
    (h : s.lk = none ∨ s.lk = some (.handler n)) (a : Party) (ha : a ≠ .handler n)
    (hs : s.lk = some a) : l = some a := by
  rcases h with h | h
  · rw [h] at hs
    exact absurd hs (by simp)
  · rw [h] at hs
    exact absurd (some.inj hs).symm ha

/-- **One step keeps the invariant.** -/
theorem SleepStep.good (st : SleepStep c s es s') (h : Good c s) : Good c s' := by
  have hl := h.locked
  cases st with
  | @start p hp =>
    exact h.walk (by simp [hp]) (by simp [hp]) rfl
      (by simp) (by simp) (fun _ _ => id) (by simp)
  | @acquire p hp hn | @enter p hp hn =>
    exact h.walk (by simp [hp]) (by simp [hp]) rfl
      (fun _ => rfl) (by simp) (lk_of_ne (.inl hn)) (by simp)
  | @testTrue p hp _ | @again p hp =>
    exact h.walk (by simp [hp]) (by simp [hp]) rfl
      (fun _ => (hl.slot p).lk (by rw [hp]; rfl)) (by simp) (fun _ _ => id)
      (by simp)
  | @testFalse p hp _ =>
    exact h.walk (by simp [hp]) (by simp [hp]) rfl
      (fun _ => (hl.slot p).lk (by rw [hp]; rfl)) (by simp) (fun _ _ => id)
      fun _ => .inl le_rfl
  | @lockSelf p hp hk =>
    have hs := hl.slot p
    have hrun := hs.runs (by rw [hp]; rfl)
    exact h.turn (by simp [hp]) rfl
      ⟨fun _ => hs.lk (by rw [hp]; rfl), fun _ => rfl, fun h' => absurd h' (by simp [hrun]),
        fun _ => hrun⟩ (.inr (hl.not_visited_free hk)) (fun _ => .inr ⟨by rw [hp]; rfl, rfl⟩)
      fun h' => absurd h' (by simp [hrun])
  | @releaseLk p hp =>
    have hlk := (hl.slot p).lk (by rw [hp]; rfl)
    exact h.walk (by simp [hp]) (by simp [hp]) rfl
      (by simp) (fun _ => by rw [hp]; rfl) (lk_of_ne (.inr hlk))
      fun _ => .inr ⟨by rw [hp]; rfl, rfl⟩
  | @fallAsleep p hp =>
    have hs := hl.slot p
    exact h.turn (by simp [hp]) rfl
      ⟨by simp, fun _ => hs.self (by rw [hp]; rfl), fun _ _ => rfl,
        by simp⟩ (.inl rfl) (by simp)
      fun _ _ => ⟨.inl (by rw [hp]; rfl), rfl⟩
  | @tidy p b hp | @yielded p b hp =>
    have hs := hl.slot p
    have hrun := hs.runs (by rw [hp]; rfl)
    exact h.turn (by simp [hp]) rfl
      ⟨by simp, by simp, fun h' => absurd h' (by simp [hrun]),
        fun _ => hrun⟩ (.inr (hl.not_visited_self (by rw [hp]; rfl))) (by simp)
      fun h' => absurd h' (by simp [hrun])
  | @yield p b hp hk | @exit p hp hk =>
    exact h.turn (by simp [hp]) rfl
      ⟨by simp, fun _ => rfl, by simp, by simp⟩
      (.inr (hl.not_visited_free hk)) (by simp) (by simp)
  | @sleepElse p n hp hk hne =>
    exact h.turn (by simp [hp]) rfl
      ⟨by simp, fun _ => rfl, fun _ e => absurd e hne, by simp⟩
      (.inr (hl.not_visited_free hk)) (by simp) fun _ e => absurd e hne
  | @swtch p t b hp =>
    have hs := hl.slot p
    refine h.turn (by simp [hp]) rfl
      ⟨by simp, by simp, fun h₁ h₂ => ?_, by simp⟩
      (.inr (hl.not_visited_self (by rw [hp]; rfl))) (by simp)
      fun h₁ h₂ => ⟨.inr ⟨h₁, h₂⟩, rfl⟩
    -- who is asleep on the channel came from `sleep` on it
    have hw := hs.asleep h₁ h₂
    rw [hp] at hw
    cases t <;> cases b <;> simp_all
  | @leave p hp =>
    have hlk := (hl.slot p).lk (by rw [hp]; rfl)
    exact h.walk (by simp [hp]) (by simp [hp]) rfl
      (by simp) (by simp) (lk_of_ne (.inr hlk))
      (by simp)
  | @make a x ha _ =>
    have hg := hl.goto ha .owes (by simp)
    exact ⟨⟨hg.slot, hg.sect, hg.visit, hg.intr, hg.intr_inj⟩, fun q _ =>
      .inr ⟨a, .owes, by have := sect_goto .owes ha a; rwa [if_pos rfl] at this, trivial⟩⟩
  | consume _ _ => exact ⟨⟨hl.slot, hl.sect, hl.visit, hl.intr, hl.intr_inj⟩, h.tended⟩
  | @wakeup a x ha _ => exact h.goto ha _ (by simp) fun q _ _ => Nat.zero_le _
  | @skip a k ha hk =>
    refine h.goto ha _ (by simp) fun q hq hle => ?_
    have hne : (k : ℕ) ≠ q := fun e => by
      obtain rfl : k = q := Fin.ext e
      exact h.not_pending_myproc ha hk hq
    have : (k : ℕ) ≤ q := hle
    change (k : ℕ) + 1 ≤ q
    omega
  | @visit a k ha _ hk =>
    have hself := (hl.slot k).hasSelf_eq_false (by simp [hk])
    have ht : Good c (s.set k { s.proc k with lock := some a }) :=
      h.touch rfl ((hl.slot k).setLock hself) (hl.not_visited_free hk) id rfl
    have hm : (s.proc k).Moves { s.proc k with lock := some a } := .inl rfl
    have ha' : (s.set k { s.proc k with lock := some a }).sect a = some (.wake k) :=
      (sect_set s.lk hm (by simp)).2 ha
    refine ht.goto ha' _ (fun j hj => ?_) fun q _ hle => ?_
    · obtain rfl : k = j := by simpa using hj
      simp [SleepSys.set]
    · exact hle
  | @visited a k ha => exact h.visited ha
  | @woken a ha =>
    refine h.goto ha _ (by simp) fun q _ hle => ?_
    have : NPROC ≤ (q : ℕ) := hle
    exact absurd q.isLt (Nat.not_lt.2 this)
  | @intrIdle n hn =>
    exact h.handle (by simp [hn]) (by simp) (fun _ _ => id) (by simp [HandlerPc.myproc])
  | @intrProc n p b hn hp =>
    have hs := hl.slot p
    have hrun := hs.runs (by rw [hp]; rfl)
    have hc : (s.proc p).pc.calm = true := by simp [hp]
    have ht : Good c (s.set p { s.proc p with pc := .intr b }) :=
      h.turn hc rfl ⟨by simp, by simp,
        fun h' => absurd h' (by simp [hrun]), fun _ => hrun⟩ (.inl rfl) (by simp)
        fun h' => absurd h' (by simp [hrun])
    refine ht.handle (by simp [SleepSys.set, hn]) (by simp) (fun _ _ => id) fun q hq => ?_
    obtain rfl : p = q := by simpa [HandlerPc.myproc] using hq
    exact ⟨⟨b, by simp [SleepSys.set]⟩, fun m _ => hl.not_myproc hc m⟩
  | @intrAcquire n q hn hlk =>
    refine h.handle (by simp [hn]) (by simp) (lk_of_ne_handler (.inl hlk)) fun q' hq => ?_
    have hq' : (s.hpc n).myproc = some q' := by
      rw [hn]
      exact hq
    exact ⟨hl.intr n q' hq', fun m hm hm' => hm (hl.intr_inj m n q' hm' hq')⟩
  | @intrReturn n hn =>
    have hlk := hl.sect (.handler n) .work (by simp [SleepSys.sect, hn])
    exact h.handle (fun q x hx => by simp_all) (by simp) (lk_of_ne_handler (.inr hlk))
      (by simp [HandlerPc.myproc])
  | @intrReturnTo n p hn =>
    have hlk := hl.sect (.handler n) .work (by simp [SleepSys.sect, hn])
    have hp : (s.hpc n).myproc = some p := by
      rw [hn]
      rfl
    obtain ⟨b, hb⟩ := hl.intr n p hp
    have hi := h.handle (n := n) (k := .idle) (l := none) (fun q x hx => by simp_all) (by simp)
      (lk_of_ne_handler (.inr hlk)) (by simp [HandlerPc.myproc])
    have hs := hl.slot p
    have hrun := hs.runs (by rw [hb]; rfl)
    have hz : (s.proc p).resume = { s.proc p with pc := .free b } := by
      simp [Sleeper.resume, hb]
    rw [hz]
    refine hi.set (.inr ⟨by rw [hb]; rfl, rfl⟩) (.inr fun m => ?_)
      ⟨by simp, by simp, fun h' => absurd h' (by simp [hrun]),
        fun _ => hrun⟩ (fun _ _ => id) (fun a ha => hi.locked.visit a p ha) fun hq => ?_
    · -- no other handler interrupted `p`
      by_cases e : m = n
      · subst e
        simp [HandlerPc.myproc]
      · intro hm
        simp only [update_of_ne e] at hm
        exact e (hl.intr_inj m n p hm hp)
    · rcases hq with hq | hq
      · exact absurd hq (by simp)
      · exact absurd hq.1 (by simp [hrun])
  | @grab e p hk =>
    exact h.touch rfl ((hl.slot p).setLock ((hl.slot p).hasSelf_eq_false (by simp [hk])))
      (hl.not_visited_free hk) id rfl
  | @drop e p hk =>
    exact h.touch rfl ((hl.slot p).setLock ((hl.slot p).hasSelf_eq_false (by simp [hk])))
      (hl.not_visited_other hk) id rfl
  | @kill e p hk =>
    exact h.touch Sleeper.jolt_pc (hl.slot p).jolt (hl.not_visited_other hk)
      Sleeper.pending_of_jolt Sleeper.jolt_tested
  | @run e p t b hk hs hp =>
    exact h.turn (by simp [hp]) rfl
      ⟨by simp, fun _ => rfl, by simp, fun _ => rfl⟩
      (.inr (hl.not_visited_other hk)) (by simp) (by simp)
  | @reap e p hk hs =>
    have ho := hl.slot p
    exact h.touch rfl ⟨ho.lk, ho.self, by simp, fun hr => absurd (ho.runs hr) (by simp [hs])⟩
      (hl.not_visited_other hk) (fun hq => hq.imp id fun h' => absurd h'.1 (by simp)) rfl
  | @fork e p hk hs =>
    -- a slot without a process is switched out
    have hr : (s.proc p).pc.runs = false :=
      eq_false_iff.2 fun hr => absurd ((hl.slot p).runs hr) (by simp [hs])
    have hc : (s.proc p).pc.calm = true := by
      cases hp : (s.proc p).pc <;> simp_all
    exact h.turn hc rfl ⟨by simp, by simp, by simp,
      by simp⟩ (.inl rfl) (by simp) (by simp)

theorem SleepSys.good_init : Good c .init where
  locked :=
    { slot := fun _ => ⟨by simp [init, unused],
        by simp [init, unused],
        by simp [init, unused], by simp [init, unused]⟩
      sect := fun a x ha => by cases a <;> simp [init, SleepSys.sect, unused] at ha
      visit := fun a k ha => by cases a <;> simp [init, SleepSys.sect, unused] at ha
      intr := fun n q hq => by simp [init, HandlerPc.myproc] at hq
      intr_inj := fun m n q hq => by simp [init, HandlerPc.myproc] at hq }
  tended := fun p hp => by
    rcases hp with hp | hp
    · simp [init, unused] at hp
    · simp [init, unused] at hp

/-- **No lost wakeup.** In every reachable state in which `lk` is free, the condition was not made true
since a process that is SLEEPING on its channel last tested it. -/
theorem no_lost_wakeup {tr : List Unit} (hr : Trans.Run (SleepStep c) .init tr s) (hlk : s.lk = none)
    (p : Slot) (hs : (s.proc p).state = .sleeping) (hc : (s.proc p).chan = c) :
    s.made ≤ (s.proc p).tested := by
  have hg : Good c s := hr.invariant (I := fun _ s => Good c s) good_init
    fun _ _ _ _ h st => st.good h
  rcases hg.tended p (Or.inr ⟨hs, hc⟩) with h | ⟨a, x, ha, -⟩
  · exact h
  · -- a party with visits to come holds `lk`
    rw [hg.locked.sect a x ha] at hlk
    exact absurd hlk (by simp)

/-- A process finds the condition false and goes to sleep on the channel 1. -/
theorem no_lost_wakeup_one_sleeper : ∃ tr s, Trans.Run (SleepStep 1) .init tr s ∧ s.lk = none ∧
    (s.proc 0).state = .sleeping ∧ (s.proc 0).chan = 1 ∧ s.made ≤ (s.proc 0).tested := by
  have hr := (Trans.Run.refl : Trans.Run (SleepStep 1) .init [] _)
    |>.tail (@SleepStep.grab _ _ 0 0 rfl)
    |>.tail (@SleepStep.fork _ _ 0 0 rfl rfl)
    |>.tail (@SleepStep.run _ _ 0 0 false .out rfl rfl rfl)
    |>.tail (@SleepStep.yielded _ _ 0 .out rfl)
    |>.tail (@SleepStep.start _ _ 0 rfl)
    |>.tail (@SleepStep.acquire _ _ 0 rfl rfl)
    |>.tail (@SleepStep.testFalse _ _ 0 rfl rfl)
    |>.tail (@SleepStep.lockSelf _ _ 0 rfl rfl)
    |>.tail (@SleepStep.releaseLk _ _ 0 rfl)
    |>.tail (@SleepStep.fallAsleep _ _ 0 rfl)
    |>.tail (@SleepStep.swtch _ _ 0 true .enter rfl)
  exact ⟨_, _, hr, rfl, rfl, rfl, no_lost_wakeup hr rfl 0 rfl rfl⟩

end Xv6
