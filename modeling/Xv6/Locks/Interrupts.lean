import Mathlib.Logic.Function.Basic
import Mathlib.Tactic.Common
import Xv6.Lib.Trans

/-!
# The interrupt state of a kernel thread

`push_off` and `pop_off` of `spinlock.c` keep `noff` and `intena` in the hart, while the sections belong to a
thread that `sched` may move to another hart. `acquire` and `release` are taken for the `push_off` and
`pop_off` in them. A thread, and the scheduler of each hart, is a stack of frames, the last one below the
interrupts that have come since; its code has sections in proper nesting, and at depth zero outside of
interrupts it switches interrupts on and off. Harts and threads are of any number, and any hart may run any
thread that is not running.

`sched` saves `intena` over `swtch`, so that a thread finds the value that its own `push_off` has stored. The
scheduler does not: when a thread has come back to it, its `release` restores the state of that thread.
-/

namespace Xv6.Irq

open List

open Function (update update_of_ne)

/-! ## The fields of a hart -/

/-- `noff` and `intena` of `struct cpu`, and whether interrupts are enabled on the hart. -/
structure Cpu where
  intr : Bool
  noff : ℕ
  intena : Bool

inductive Panic
  | popOffInterruptible
  | popOff
  | schedLocks
  | schedInterruptible

/-- `push_off`, after `old = intr_get()`. -/
def Cpu.pushOff (c : Cpu) (old : Bool) : Cpu :=
  { intr := false, noff := c.noff + 1, intena := if c.noff = 0 then old else c.intena }

/-- `pop_off` -/
def Cpu.popOff (c : Cpu) : Except Panic Cpu :=
  if c.intr then .error .popOffInterruptible
  else if c.noff < 1 then .error .popOff
  else .ok { c with noff := c.noff - 1, intr := decide (c.noff - 1 = 0) && c.intena }

/-- The tests of `sched`, and the `intena` that it saves. -/
def Cpu.sched (c : Cpu) : Except Panic Bool :=
  if c.noff ≠ 1 then .error .schedLocks
  else if c.intr then .error .schedInterruptible
  else .ok c.intena

/-! ## Threads and schedulers -/

/-- Outside of `push_off`, or in it with `old`. -/
inductive Pc
  | idle
  | pushing (old : Bool)

/-- A frame has `depth` open sections. `entry` records whether interrupts were enabled when the outermost one
was opened. -/
structure Frame where
  pc : Pc
  depth : ℕ
  entry : Bool

/-- `push_off` opens a section. -/
def Frame.push (f : Frame) (intr : Bool) : Frame :=
  { pc := .idle, depth := f.depth + 1, entry := if f.depth = 0 then intr else f.entry }

/-- A thread has not run yet, is in `sched` with its `intena`, or runs on a hart. -/
inductive Place (H : Type)
  | fresh
  | off (intena : Bool)
  | on (h : H)

/-- The harts `H` with their schedulers, and the threads `T`. `cur h` is what runs on `h`; `returned h` says
that a thread has come back to the scheduler in its present section. -/
structure Sys (H T : Type) where
  cpu : H → Cpu
  cur : H → H ⊕ T
  frames : H ⊕ T → List Frame
  place : T → Place H
  returned : H → Bool

/-- The outermost section of a thread ends, with interrupts as at its start and as they are now. -/
inductive Event (T : Type)
  | closed (t : T) (entry now : Bool)
  | panic (e : Panic)

variable {H T : Type}

/-- What is seen when the frame of `k` closes a section. -/
def Frame.pop (f : Frame) (k : H ⊕ T) (now : Bool) : List (Event T) :=
  match k with
  | .inl _ => []
  | .inr t => if f.depth = 1 then [.closed t f.entry now] else []

/-- The harts enter their schedulers. -/
def Sys.boot : Sys H T where
  cpu _ := ⟨false, 0, false⟩
  cur := .inl
  frames _ := [⟨.idle, 0, false⟩]
  place _ := .fresh
  returned _ := false

variable [DecidableEq H] [DecidableEq T]

/-- What runs on `h` changes the fields of the hart and its own frames. -/
def Sys.put (s : Sys H T) (h : H) (c : Cpu) (l : List Frame) (r : H → Bool) : Sys H T :=
  { s with cpu := update s.cpu h c, frames := update s.frames (s.cur h) l, returned := r }

/-- `swtch` on `h` between its scheduler and `t`: `k` runs now, and `t` is at `p` with the frames `l`. -/
def Sys.swtch (s : Sys H T) (h : H) (t : T) (k : H ⊕ T) (c : Cpu) (p : Place H) (l : List Frame) (r : H → Bool) :
    Sys H T where
  cpu := update s.cpu h c
  cur := update s.cur h k
  frames := update s.frames (.inr t) l
  place := update s.place t p
  returned := r

/-- One step of a hart `h`, with what is seen of it. -/
inductive Step (s : Sys H T) : List (Event T) → Sys H T → Prop
  /-- `old = intr_get()` in `push_off` -/
  | read {h : H} {f : Frame} {fs : List Frame} : s.frames (s.cur h) = f :: fs → f.pc = .idle →
      Step s [] (s.put h (s.cpu h) ({ f with pc := .pushing (s.cpu h).intr } :: fs) s.returned)
  /-- the rest of `push_off` -/
  | push {h : H} {f : Frame} {fs : List Frame} {old : Bool} : s.frames (s.cur h) = f :: fs → f.pc = .pushing old →
      Step s [] (s.put h ((s.cpu h).pushOff old) (f.push (s.cpu h).intr :: fs)
        (if f.depth = 0 then update s.returned h false else s.returned))
  | pop {h : H} {f : Frame} {fs : List Frame} {c : Cpu} : s.frames (s.cur h) = f :: fs → f.pc = .idle →
      0 < f.depth → (s.cpu h).popOff = .ok c →
      Step s (f.pop (s.cur h) c.intr) (s.put h c ({ f with depth := f.depth - 1 } :: fs) s.returned)
  | popPanic {h : H} {f : Frame} {fs : List Frame} {e : Panic} : s.frames (s.cur h) = f :: fs → f.pc = .idle →
      0 < f.depth → (s.cpu h).popOff = .error e → Step s [.panic e] s
  /-- `intr_on` and `intr_off` -/
  | set {h : H} {f : Frame} (b : Bool) : s.frames (s.cur h) = [f] → f.pc = .idle → f.depth = 0 →
      Step s [] (s.put h { s.cpu h with intr := b } [f] s.returned)
  | interrupt {h : H} : (s.cpu h).intr = true →
      Step s [] (s.put h { s.cpu h with intr := false } (⟨.idle, 0, false⟩ :: s.frames (s.cur h)) s.returned)
  | sret {h : H} {f : Frame} {fs : List Frame} : s.frames (s.cur h) = f :: fs → fs ≠ [] → f.pc = .idle →
      f.depth = 0 → Step s [] (s.put h { s.cpu h with intr := true } fs s.returned)
  /-- `sched`, up to `swtch` -/
  | sched {h : H} {t : T} {f : Frame} {fs : List Frame} {b : Bool} : s.cur h = .inr t →
      s.frames (.inr t) = f :: fs → f.pc = .idle → f.depth = 1 → (s.cpu h).sched = .ok b →
      Step s [] (s.swtch h t (.inl h) (s.cpu h) (.off b) (f :: fs) (update s.returned h true))
  | schedPanic {h : H} {t : T} {f : Frame} {fs : List Frame} {e : Panic} : s.cur h = .inr t →
      s.frames (.inr t) = f :: fs → f.pc = .idle → f.depth = 1 → (s.cpu h).sched = .error e →
      Step s [.panic e] s
  /-- `swtch` in the scheduler, and the end of `sched` -/
  | resume {h : H} {t : T} {f : Frame} {b : Bool} : s.cur h = .inl h → s.frames (.inl h) = [f] → f.pc = .idle →
      f.depth = 1 → s.returned h = false → s.place t = .off b →
      Step s [] (s.swtch h t (.inr t) { s.cpu h with intena := b } (.on h) (s.frames (.inr t)) s.returned)
  /-- `swtch` in the scheduler, to `forkret`; the section of the scheduler is now one of the thread -/
  | start {h : H} {t : T} {f : Frame} : s.cur h = .inl h → s.frames (.inl h) = [f] → f.pc = .idle → f.depth = 1 →
      s.returned h = false → s.place t = .fresh →
      Step s [] (s.swtch h t (.inr t) (s.cpu h) (.on h) [f] s.returned)

/-! ## The invariant -/

/-- An interrupted frame: interrupts were enabled. -/
def Frame.Rests (f : Frame) : Prop := f.depth = 0 ∧ ∀ b, f.pc = .pushing b → b = true

/-- The frame that runs agrees with the hart, in `intena` if `k`. -/
structure Frame.Fits (c : Cpu) (k : Prop) (f : Frame) : Prop where
  noff : c.noff = f.depth
  off : 0 < f.depth → c.intr = false
  intena : k → 0 < f.depth → c.intena = f.entry
  old : ∀ b, f.pc = .pushing b → c.intr = b

/-- A stack whose first frame has the property, above interrupted frames. -/
def Top (P : Frame → Prop) (l : List Frame) : Prop := ∃ f fs, l = f :: fs ∧ P f ∧ ∀ g ∈ fs, g.Rests

/-- A frame that has given up its hart in a section. -/
def Frame.Parked (f : Frame) : Prop := f.pc = .idle ∧ f.depth = 1

structure Inv (s : Sys H T) : Prop where
  cur : ∀ h, s.cur h = .inl h ∨ ∃ t, s.cur h = .inr t ∧ s.place t = .on h ∧ Top Frame.Parked (s.frames (.inl h))
  fits : ∀ h, Top (Frame.Fits (s.cpu h) (s.cur h = .inl h → s.returned h = false)) (s.frames (s.cur h))
  off : ∀ t b, s.place t = .off b → Top (fun f => f.Parked ∧ f.entry = b) (s.frames (.inr t))

variable {s s' : Sys H T} {es : List (Event T)}

omit [DecidableEq H] [DecidableEq T] in
theorem Inv.cur_inj (hi : Inv s) {h h' : H} (e : s.cur h = s.cur h') : h = h' := by
  rcases hi.cur h with hc | ⟨t, hc, hp, -⟩ <;> rcases hi.cur h' with hc' | ⟨t', hc', hp', -⟩ <;>
    rw [hc, hc'] at e
  · exact Sum.inl.inj e
  · cases e
  · cases e
  · obtain rfl := Sum.inr.inj e
    rw [hp] at hp'
    exact Place.on.inj hp'

/-- A step of what runs on `h`. -/
theorem Inv.put (hi : Inv s) {h : H} {c : Cpu} {l : List Frame} {r : H → Bool} (hr : ∀ h' ≠ h, r h' = s.returned h')
    (hl : Top (Frame.Fits c (s.cur h = .inl h → r h = false)) l) : Inv (s.put h c l r) := by
  refine ⟨fun h' => ?_, fun h' => ?_, fun t b ht => ?_⟩
  · refine (hi.cur h').imp_right fun ⟨t, hc, hp, hk⟩ => ⟨t, hc, hp, ?_⟩
    change Top _ (update s.frames _ l _)
    rwa [update_of_ne]
    intro e
    -- the scheduler of `h'` does not run
    rcases hi.cur h with hc' | ⟨t', hc', -⟩
    · obtain rfl := Sum.inl.inj (e.trans hc')
      rw [hc] at hc'
      cases hc'
    · rw [hc'] at e
      cases e
  · by_cases e : h' = h
    · subst e
      simpa [Sys.put] using hl
    · have hne : s.cur h' ≠ s.cur h := fun e' => e (hi.cur_inj e')
      simpa [Sys.put, e, hne, hr h' e] using hi.fits h'
  · change Top _ (update s.frames _ l _)
    rw [update_of_ne]
    · exact hi.off t b ht
    · intro e
      rcases hi.cur h with hc | ⟨t', hc, hp, -⟩
      · rw [hc] at e
        cases e
      · obtain rfl := Sum.inr.inj (e.trans hc)
        cases hp.symm.trans ht

/-- A switch on `h`, of a thread that runs on no other hart. -/
theorem Inv.swtch (hi : Inv s) {h : H} {t : T} {k : H ⊕ T} {c : Cpu} {p : Place H} {l : List Frame} {r : H → Bool}
    (hr : ∀ h' ≠ h, r h' = s.returned h') (ht : ∀ h' ≠ h, s.place t ≠ .on h')
    (hk : k = .inl h ∨ k = .inr t ∧ p = .on h ∧ Top Frame.Parked (s.frames (.inl h)))
    (hl : Top (Frame.Fits c (k = .inl h → r h = false)) (update s.frames (.inr t) l k))
    (hoff : ∀ b, p = .off b → Top (fun f => f.Parked ∧ f.entry = b) l) : Inv (s.swtch h t k c p l r) := by
  -- the thread of another hart is another thread
  have hother : ∀ h' ≠ h, ∀ t', s.place t' = .on h' → t' ≠ t := fun h' hne t' hp e => ht h' hne (e ▸ hp)
  refine ⟨fun h' => ?_, fun h' => ?_, fun t' b hb => ?_⟩
  · by_cases e : h' = h
    · subst e
      exact hk.imp (fun hc => by simpa [Sys.swtch] using hc) fun ⟨hc, hp, hpark⟩ => ⟨t, by simpa [Sys.swtch] using ⟨hc, hp, hpark⟩⟩
    · refine (hi.cur h').imp (fun hc => by simpa [Sys.swtch, e] using hc) fun ⟨t', hc, hp, hpark⟩ => ⟨t', ?_⟩
      simpa [Sys.swtch, e, hother h' e t' hp] using ⟨hc, hp, hpark⟩
  · by_cases e : h' = h
    · subst e
      simpa [Sys.swtch] using hl
    · have hne : s.cur h' ≠ .inr t := fun hc => by
        rcases hi.cur h' with hc' | ⟨t', hc', hp, -⟩
        · cases hc'.symm.trans hc
        · exact hother h' e t' hp (Sum.inr.inj (hc'.symm.trans hc))
      simpa [Sys.swtch, e, hne, hr h' e] using hi.fits h'
  · by_cases e : t' = t
    · subst e
      simpa [Sys.swtch] using hoff b (by simpa [Sys.swtch] using hb)
    · simpa [Sys.swtch, e] using hi.off t' b (by simpa [Sys.swtch, e] using hb)

omit [DecidableEq H] [DecidableEq T] in
theorem Inv.top (hi : Inv s) {h : H} {f : Frame} {fs : List Frame} (hf : s.frames (s.cur h) = f :: fs) :
    f.Fits (s.cpu h) (s.cur h = .inl h → s.returned h = false) ∧ ∀ g ∈ fs, g.Rests := by
  obtain ⟨f', fs', e, hfit, hrest⟩ := hi.fits h
  obtain ⟨rfl, rfl⟩ := cons.inj (hf.symm.trans e)
  exact ⟨hfit, hrest⟩

/-- `pop_off` in a section does not panic, and ends the outermost section with `intena`. -/
theorem Frame.Fits.popOff {c : Cpu} {k : Prop} {f : Frame} (hf : f.Fits c k) (hd : 0 < f.depth) :
    c.popOff = .ok { c with noff := c.noff - 1, intr := decide (c.noff - 1 = 0) && c.intena } := by
  have := hf.noff
  rw [Cpu.popOff, hf.off hd, if_neg (by decide), if_neg (by omega)]

theorem Frame.Fits.sched {c : Cpu} {k : Prop} {f : Frame} (hf : f.Fits c k) (hd : f.depth = 1) :
    c.sched = .ok c.intena := by
  have := hf.noff
  rw [Cpu.sched, if_neg (by omega), hf.off (by omega), if_neg (by decide)]

theorem Step.inv (st : Step s es s') (hi : Inv s) : Inv s' := by
  cases st with
  | @read h f fs hf hpc =>
    obtain ⟨hfit, hrest⟩ := hi.top hf
    refine hi.put (fun _ _ => rfl) ⟨_, _, rfl, ⟨hfit.noff, hfit.off, hfit.intena, fun b e => ?_⟩, hrest⟩
    exact Pc.pushing.inj e
  | @push h f fs old hf hpc =>
    obtain ⟨hfit, hrest⟩ := hi.top hf
    have hold := hfit.old old hpc
    refine hi.put (fun h' hne => ?_) ⟨_, _, rfl, ⟨?_, fun _ => rfl, fun hk _ => ?_, fun b e => by cases e⟩, hrest⟩
    · split
      · exact update_of_ne hne ..
      · rfl
    · exact congrArg (· + 1) hfit.noff
    · -- `intena` is set by the outermost `push_off` only
      simp only [Cpu.pushOff, Frame.push, hfit.noff]
      by_cases hd : f.depth = 0
      · rw [if_pos hd, if_pos hd, hold]
      · rw [if_neg hd] at hk
        rw [if_neg hd, if_neg hd, hfit.intena hk (by omega)]
  | @pop h f fs c hf hpc hd hc =>
    obtain ⟨hfit, hrest⟩ := hi.top hf
    have hn := hfit.noff
    obtain rfl := Except.ok.inj ((hfit.popOff hd).symm.trans hc)
    refine hi.put (fun _ _ => rfl) ⟨_, _, rfl, ⟨by simp only; omega, fun h1 => ?_, fun hk _ => hfit.intena hk hd,
      fun b e => by simp [hpc] at e⟩, hrest⟩
    have : (s.cpu h).noff - 1 ≠ 0 := by
      simp only at h1
      omega
    simp [this]
  | popPanic | schedPanic => exact hi
  | @set h f b hf hpc hd =>
    obtain ⟨hfit, hrest⟩ := hi.top hf
    exact hi.put (fun _ _ => rfl) ⟨f, [], rfl, ⟨hfit.noff, fun h0 => by omega, hfit.intena, fun b e => by simp [hpc] at e⟩,
      hrest⟩
  | @interrupt h hon =>
    obtain ⟨f, fs, e, hfit, hrest⟩ := hi.fits h
    have hd : f.depth = 0 := by
      by_contra hd
      simp [hfit.off (by omega)] at hon
    refine hi.put (fun _ _ => rfl) ⟨_, _, rfl, ⟨hfit.noff.trans hd, fun h0 => absurd h0 (Nat.lt_irrefl 0),
      fun _ h0 => absurd h0 (Nat.lt_irrefl 0), fun b e => by cases e⟩, ?_⟩
    rw [e]
    refine forall_mem_cons.2 ⟨⟨hd, fun b hb => ?_⟩, hrest⟩
    rw [← hfit.old b hb, hon]
  | @sret h f fs hf hne hpc hd =>
    obtain ⟨hfit, hrest⟩ := hi.top hf
    obtain ⟨g, gs, rfl⟩ := exists_cons_of_ne_nil hne
    obtain ⟨⟨hg, hold⟩, hgs⟩ := forall_mem_cons.1 hrest
    exact hi.put (fun _ _ => rfl) ⟨g, gs, rfl, ⟨(hfit.noff.trans hd).trans hg.symm, fun h0 => by omega,
      fun _ h0 => by omega, fun b hb => (hold b hb).symm⟩, hgs⟩
  | @sched h t f fs b hc hf hpc hd hb =>
    obtain ⟨hfit, hrest⟩ := hi.top (hc ▸ hf)
    obtain ⟨t', hc', hp, g, gs, e, hpark, hgs⟩ := (hi.cur h).resolve_left fun hc' => by cases hc.symm.trans hc'
    obtain rfl := Sum.inr.inj (hc.symm.trans hc')
    obtain rfl := Except.ok.inj ((hfit.sched hd).symm.trans hb)
    refine hi.swtch (fun h' hne => update_of_ne hne ..) (fun h' hne e => hne ?_) (.inl rfl)
      ⟨g, gs, by simpa using e, ⟨?_, fun _ => hfit.off (by omega), fun hk => ?_, fun b e => ?_⟩, hgs⟩ fun b hb => ?_
    · exact Place.on.inj (e.symm.trans hp)
    · rw [hfit.noff, hd, hpark.2]
    · simp at hk
    · rw [hpark.1] at e
      cases e
    · obtain rfl := Place.off.inj hb
      refine ⟨f, fs, rfl, ⟨⟨hpc, hd⟩, (hfit.intena (fun hc' => ?_) (by omega)).symm⟩, hrest⟩
      cases hc.symm.trans hc'
  | @resume h t f b hc hf hpc hd hr ht =>
    obtain ⟨hfit, -⟩ := hi.top (hc ▸ hf)
    obtain ⟨g, gs, e, ⟨hpark, hentry⟩, hgs⟩ := hi.off t b ht
    refine hi.swtch (fun _ _ => rfl) (fun h' _ e => by cases ht.symm.trans e)
      (.inr ⟨rfl, rfl, f, [], hf, ⟨hpc, hd⟩, by simp⟩) ⟨g, gs, by simpa using e, ⟨?_, fun _ => hfit.off (by omega),
        fun _ _ => hentry.symm, fun b e => ?_⟩, hgs⟩ fun b hb => by cases hb
    · exact (hfit.noff.trans hd).trans hpark.2.symm
    · rw [hpark.1] at e
      cases e
  | @start h t f hc hf hpc hd hr ht =>
    obtain ⟨hfit, hrest⟩ := hi.top (hc ▸ hf)
    refine hi.swtch (fun _ _ => rfl) (fun h' _ e => by cases ht.symm.trans e)
      (.inr ⟨rfl, rfl, f, [], hf, ⟨hpc, hd⟩, hrest⟩) ⟨f, [], by simp, ⟨hfit.noff, hfit.off,
        fun _ => hfit.intena fun _ => hr, hfit.old⟩, hrest⟩ fun b hb => by cases hb

/-- What is seen of a step: no panic, and a thread ends its outermost section as it began. -/
theorem Step.events (st : Step s es s') (hi : Inv s) :
    (∀ e, .panic e ∉ es) ∧ ∀ t b b', .closed t b b' ∈ es → b' = b := by
  cases st with
  | popPanic hf _ hd he =>
    rw [(hi.top hf).1.popOff hd] at he
    cases he
  | schedPanic hc hf _ hd he =>
    rw [(hi.top (hc ▸ hf)).1.sched hd] at he
    cases he
  | @pop h f fs c hf hpc hd hc =>
    obtain ⟨hfit, -⟩ := hi.top hf
    have hn := hfit.noff
    obtain rfl := Except.ok.inj ((hfit.popOff hd).symm.trans hc)
    cases hk : s.cur h with
    | inl h' => simp [Frame.pop]
    | inr t =>
      by_cases h1 : f.depth = 1
      · have hin := hfit.intena (fun e => by cases hk.symm.trans e) hd
        simp [Frame.pop, h1, hn, hin]
      · simp [Frame.pop, h1]
  | _ => simp

omit [DecidableEq H] [DecidableEq T] in
theorem boot_inv : Inv (Sys.boot : Sys H T) where
  cur _ := .inl rfl
  fits _ := ⟨_, _, rfl, ⟨rfl, fun h => absurd h (Nat.lt_irrefl 0), fun _ h => absurd h (Nat.lt_irrefl 0),
    fun b e => by cases e⟩, by simp⟩
  off _ _ e := by cases e

/-- In every run of any harts and threads: interrupts are disabled on a hart with `noff > 0`, `pop_off` and
`sched` do not panic, and when the outermost section of a thread ends, interrupts are enabled if and only if
they were when it began, wherever that was. -/
theorem interrupts_follow_thread {tr : List (Event T)} (hr : Trans.Run Step (Sys.boot : Sys H T) tr s) :
    (∀ h, 0 < (s.cpu h).noff → (s.cpu h).intr = false) ∧ (∀ e, .panic e ∉ tr) ∧
      ∀ t b b', .closed t b b' ∈ tr → b' = b := by
  have hinv : Inv s ∧ (∀ e, .panic e ∉ tr) ∧ ∀ t b b', .closed t b b' ∈ tr → b' = b := by
    refine Trans.Run.invariant
      (I := fun tr s => Inv s ∧ (∀ e, .panic e ∉ tr) ∧ ∀ t b b', .closed t b b' ∈ tr → b' = b)
      ⟨boot_inv, by simp, by simp⟩ (fun es s fs s' ⟨hi, hp, hc⟩ st => ?_) hr
    obtain ⟨hp', hc'⟩ := st.events hi
    refine ⟨st.inv hi, fun e he => ?_, fun t b b' he => ?_⟩
    · exact (List.mem_append.1 he).elim (hp e) (hp' e)
    · exact (List.mem_append.1 he).elim (hc t b b') (hc' t b b')
  refine ⟨fun h hn => ?_, hinv.2⟩
  obtain ⟨f, fs, -, hfit, -⟩ := hinv.1.fits h
  exact hfit.off (hfit.noff ▸ hn)

/-- A thread enters a section on one hart, with interrupts enabled, and leaves it on another. -/
theorem interrupts_follow_thread_two_harts :
    ∃ s : Sys Bool Unit, Trans.Run Step Sys.boot [.closed () false false, .closed () true true] s ∧
      ∀ h, 0 < (s.cpu h).noff → (s.cpu h).intr = false := by
  have hr := (Trans.Run.refl : Trans.Run Step (Sys.boot : Sys Bool Unit) [] _)
    |>.tail (.read (h := false) rfl rfl)
    |>.tail (.push (h := false) rfl rfl)
    |>.tail (.start (h := false) (t := ()) rfl rfl rfl rfl rfl rfl)
    |>.tail (.pop (h := false) rfl rfl (by decide) rfl)
    |>.tail (.set (h := false) true rfl rfl rfl)
    |>.tail (.read (h := false) rfl rfl)
    |>.tail (.push (h := false) rfl rfl)
    |>.tail (.sched (h := false) (t := ()) rfl rfl rfl rfl rfl)
    |>.tail (.read (h := true) rfl rfl)
    |>.tail (.push (h := true) rfl rfl)
    |>.tail (.resume (h := true) (t := ()) rfl rfl rfl rfl rfl rfl)
    |>.tail (.pop (h := true) rfl rfl (by decide) rfl)
  exact ⟨_, hr, (interrupts_follow_thread hr).1⟩

end Xv6.Irq
