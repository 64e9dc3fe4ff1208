import Xv6.Pipe.Fifo

/-!
# Who sleeps on a pipe

Readers sleep while the pipe is empty and a writer may come, writers while it is full and a reader may
come. A function that changes the pipe owes a `wakeup` before it releases `pi->lock`; `PipePc.debt`
is the first slot that its `wakeup` has yet to visit. All returns pay this debt but one: `pipewrite`
returns at once when it finds its process killed, also after it has stored bytes (`not_noStranded`).
Without such returns nobody is left sleeping (`noStranded_of_prompt`).
-/

namespace Xv6

open Monitor Function PipeSys

/-- Sleeping on the channel is right. -/
def Pipe.Calm (x : Pipe) : PipeChan → Prop
  | .nread => x.empty = true ∧ x.writeopen = true
  | .nwrite => x.full = true ∧ x.readopen = true

/-- The first slot that the holder of the lock has yet to visit in a `wakeup` of the channel. -/
def PipePc.debt : PipePc → PipeChan → ℕ
  | writeLoop _ _ true, .nread => 0
  | writeFull _ _ k, .nread => k
  | writeWake _ k, .nread => k
  | readCopy _ _, .nwrite => 0
  | readWake _ k, .nwrite => k
  | closeWake true k, .nread => k
  | closeWake false k, .nwrite => k
  | _, _ => NPROC

/-- What the holder of the lock knows about the pipe; the other places are not under the lock. -/
def PipePc.Knows (x : Pipe) : PipePc → Prop
  | writeLoop _ _ stored => stored = true → x.readopen = true
  | writeFull _ _ _ => x.Calm .nwrite
  | writeWake _ _ | readLoop _ | readCopy _ _ | readWake _ _ | closeWake _ _ => True
  | idle | writeEnter _ _ | readEnter _ | closeEnter _ => False

/-- The debt of the holder of `pi->lock`. -/
def PipeSys.debt (s : PipeSys) (c : PipeChan) : ℕ :=
  match s.lock with
  | some p => (s.pc p).debt c
  | none => NPROC

/-- The invariant of the sleepers. -/
structure Attended (s : PipeSys) : Prop where
  watched : Watched s.mode s.pipe.Calm s.debt
  owner : ∀ p, s.lock = some p → s.mode p = .awake ∧ (s.pc p).Knows s.pipe

/-- The states in which no sleeper is stranded. -/
def NoStranded (s : PipeSys) : Prop :=
  s.lock = none → ∀ p,
    (s.mode p = .asleep .nread → s.pipe.nread = s.pipe.nwrite ∧ s.pipe.writeopen = true) ∧
    (s.mode p = .asleep .nwrite →
      s.pipe.nwrite = s.pipe.nread + 512 ∧ s.pipe.readopen = true)

theorem Attended.noStranded {s : PipeSys} (h : Attended s) : NoStranded s := by
  intro hl p
  have hd : ∀ c, NPROC ≤ s.debt c := fun c => by
    unfold debt
    rw [hl]
  refine ⟨fun hp => ?_, fun hp => ?_⟩
  · have := h.watched.calm_of_asleep hd hp
    exact ⟨by simpa [Pipe.empty] using this.1, this.2⟩
  · have := h.watched.calm_of_asleep hd hp
    exact ⟨by simpa [Pipe.full] using this.1, this.2⟩

/-! ## Steps -/

section

variable {s s' : PipeSys} {p q : Slot} {c : PipeChan}

theorem PipeSys.debt_of_lock (h : s.lock = some p) : s.debt = (s.pc p).debt := by
  funext c
  unfold debt
  rw [h]

theorem PipeSys.debt_of_free (h : s.lock = none) : s.debt = fun _ => NPROC := by
  funext c
  unfold debt
  rw [h]

/-- `p` takes the lock; a channel that is no longer calm gets its visits. -/
theorem Attended.enter (h : Attended s) (hp : s.Acquires p) {k : PipePc} {x : Pipe}
    (hk : k.Knows x) (hc : ∀ c, s.pipe.Calm c → x.Calm c ∨ k.debt c = 0)
    (hd : ∀ c, k.debt c ≤ NPROC) :
    Attended (((s.setLock (some p)).setPipe x).setPc p k) := by
  refine ⟨?_, fun q hq => ?_⟩
  · rw [debt_of_lock (p := p) rfl]
    simp only [setPc, update_self]
    refine h.watched.mono (fun _ _ hq => hq) hc fun c => ?_
    rw [debt_of_free hp.1]
    exact hd c
  · cases hq
    refine ⟨hp.2.1, ?_⟩
    simp only [setPc, update_self]
    exact hk

/-- A step of a process that does not hold the lock and is in none of the functions. -/
theorem Attended.setPc_idle (h : Attended s) (hp : s.pc p = .idle) (k : PipePc) :
    Attended (s.setPc p k) := by
  have hne : ∀ q, s.lock = some q → q ≠ p := fun q hq e => by
    have := (h.owner q hq).2
    rw [e, hp] at this
    exact this
  have hdebt : (s.setPc p k).debt = s.debt := by
    cases hl : s.lock with
    | none => rw [debt_of_free hl, debt_of_free (s := s.setPc p k) hl]
    | some q =>
      rw [debt_of_lock hl, debt_of_lock (s := s.setPc p k) hl]
      simp only [setPc, update_of_ne (hne q hl)]
  refine ⟨?_, fun q hq => ?_⟩
  · rw [hdebt]
    exact h.watched
  · obtain ⟨h₁, h₂⟩ := h.owner q hq
    refine ⟨h₁, ?_⟩
    simp only [setPc, update_of_ne (hne q hq)]
    exact h₂

/-- The holder of the lock moves on; a channel that is no longer calm gets its visits. -/
theorem Attended.advance (h : Attended s) (hl : s.lock = some p) {k : PipePc} {x : Pipe}
    (hk : k.Knows x) (hc : ∀ c, s.pipe.Calm c → x.Calm c ∨ k.debt c = 0)
    (hd : ∀ c, k.debt c ≤ (s.pc p).debt c) : Attended ((s.setPipe x).setPc p k) := by
  have hdebt : ((s.setPipe x).setPc p k).debt = k.debt := by
    rw [debt_of_lock (s := (s.setPipe x).setPc p k) hl]
    simp only [setPc, update_self]
  refine ⟨?_, fun q hq => ?_⟩
  · rw [hdebt]
    refine h.watched.mono (fun _ _ hq => hq) hc fun c => ?_
    rw [debt_of_lock hl]
    exact hd c
  · cases hl.symm.trans hq
    refine ⟨(h.owner p hl).1, ?_⟩
    simp only [setPc, update_self]
    exact hk

theorem Attended.advance' (h : Attended s) (hl : s.lock = some p) {k : PipePc}
    (hk : k.Knows s.pipe) (hd : ∀ c, k.debt c ≤ (s.pc p).debt c) : Attended (s.setPc p k) :=
  h.advance hl (x := s.pipe) hk (fun _ => .inl) hd

/-- The holder of the lock owes nothing and releases it. -/
theorem Attended.release (h : Attended s) (hl : s.lock = some p)
    (hd : ∀ c, (s.pc p).debt c = NPROC) (k : PipePc) :
    Attended ((s.setLock none).setPc p k) := by
  refine ⟨?_, fun q hq => by cases hq⟩
  rw [debt_of_free rfl]
  refine h.watched.mono (fun _ _ hq => hq) (fun _ => .inl) fun c => ?_
  rw [debt_of_lock hl, hd]

/-- The holder of the lock owes nothing and goes to sleep. -/
theorem Attended.doze (h : Attended s) (hl : s.lock = some p) (hc : s.pipe.Calm c)
    (hd : ∀ c, (s.pc p).debt c = NPROC) (k : PipePc) :
    Attended (((s.setLock none).setMode p (.drowsy c)).setPc p k) := by
  refine ⟨?_, fun q hq => by cases hq⟩
  have := (h.release hl hd k).watched
  exact this.doze hc

/-- A process that does not hold the lock falls asleep or wakes up. -/
theorem Attended.setMode (h : Attended s) {m : Mode PipeChan}
    (hw : Watched (update s.mode q m) s.pipe.Calm s.debt)
    (hm : s.mode q = .awake → m = .awake) : Attended (s.setMode q m) := by
  refine ⟨hw, fun p hp => ?_⟩
  obtain ⟨h₁, h₂⟩ := h.owner p hp
  refine ⟨?_, h₂⟩
  by_cases e : p = q
  · subst e
    simp only [PipeSys.setMode, update_self]
    exact hm h₁
  · simp only [PipeSys.setMode, update_of_ne e]
    exact h₁

/-- The holder of the lock visits the next slot of its `wakeup`. -/
theorem PipePc.debt_of_waking {k k' : PipePc} {m : ℕ} (h : k.waking = some (c, m, k')) :
    k.debt c = m ∧ k'.debt = update k.debt c (m + 1) ∧ ∀ x : Pipe, k.Knows x → k'.Knows x := by
  unfold waking at h
  split at h
  case h_5 => cases h
  case h_4 w _ =>
    cases h
    cases w <;> exact ⟨rfl, by funext d; cases d <;> rfl, fun _ hx => hx⟩
  all_goals
    cases h
    exact ⟨rfl, by funext d; cases d <;> rfl, fun _ hx => hx⟩

theorem Attended.visit (h : Attended s) (hl : s.lock = some p) {k : PipePc}
    (hk : (s.pc p).waking = some (c, q.val, k)) (hp : q ≠ p) (hq : ¬ (s.mode q).Drowsy) :
    Attended ((s.rouse q c).setPc p k) := by
  obtain ⟨hd, hd', hx⟩ := PipePc.debt_of_waking hk
  have hw := h.watched
  rw [PipeSys.debt_of_lock hl] at hw
  refine ⟨?_, fun r hr => ?_⟩
  · rw [PipeSys.debt_of_lock (s := (s.rouse q c).setPc p k) hl]
    simp only [PipeSys.setPc, update_self]
    exact hw.visit hq hd hd'
  · cases hl.symm.trans hr
    obtain ⟨h₁, h₂⟩ := h.owner p hl
    simp only [PipeSys.setPc, PipeSys.rouse, PipeSys.setMode, update_self,
      update_of_ne hp.symm]
    exact ⟨h₁, hx _ h₂⟩

theorem Attended.visit_self (h : Attended s) (hl : s.lock = some p) {k : PipePc}
    (hk : (s.pc p).waking = some (c, p.val, k)) : Attended (s.setPc p k) := by
  obtain ⟨hd, hd', hx⟩ := PipePc.debt_of_waking hk
  obtain ⟨h₁, h₂⟩ := h.owner p hl
  have hw := h.watched
  rw [debt_of_lock hl] at hw
  refine ⟨?_, fun r hr => ?_⟩
  · rw [debt_of_lock (s := s.setPc p k) hl]
    simp only [setPc, update_self]
    exact hw.skip (by rw [h₁]; exact Mode.not_on_awake c) hd hd'
  · cases hl.symm.trans hr
    simp only [setPc, update_self]
    exact ⟨h₁, hx _ h₂⟩

end

/-- `pipewrite` does not return from its loop after it has stored a byte under the lock it holds. -/
def PromptStep (s : PipeSys) (es : List PipeEvent) (s' : PipeSys) : Prop :=
  PipeStep s es s' ∧
    ∀ p a i, s.lock = some p → s.pc p = .writeLoop a i true → s'.pc p ≠ .idle

theorem Pipe.not_calm_push {x : Pipe} {ch : UInt8} (hf : x.full = false) :
    ∀ c, x.Calm c → (x.push ch).Calm c ∨ c = .nread
  | .nread, _ => .inr rfl
  | .nwrite, h => absurd h.1 (by simp [hf])

theorem Pipe.not_calm_pop {x : Pipe} (he : x.empty = false) :
    ∀ c, x.Calm c → x.pop.Calm c ∨ c = .nwrite
  | .nread, h => absurd h.1 (by simp [he])
  | .nwrite, _ => .inr rfl

theorem Pipe.not_calm_close (x : Pipe) (w : Bool) :
    ∀ c, x.Calm c → (x.close w).Calm c ∨ c = if w then .nread else .nwrite
  | .nread, h => by cases w with
    | false => exact .inl h
    | true => exact .inr rfl
  | .nwrite, h => by cases w with
    | false => exact .inr rfl
    | true => exact .inl h

theorem PromptStep.attended {es : List PipeEvent} {s s' : PipeSys} (h : Attended s)
    (hst : PromptStep s es s') : Attended s' := by
  obtain ⟨st, hprompt⟩ := hst
  cases st with
  | callWrite hpc _ | callRead hpc _ | callClose hpc _ => exact h.setPc_idle hpc _
  | reuse _ => exact ⟨h.watched, h.owner⟩
  | @kkill q hq =>
    exact Attended.setMode (s := s.setKilled q true) ⟨h.watched, h.owner⟩ h.watched.jolt
      fun e => by rw [show s.mode q = .awake from e]; rfl
  | sleep hm => exact h.setMode (h.watched.sleep hm) fun e => by cases hm.symm.trans e
  | wakeSelf hl hk => exact h.visit_self hl hk
  | wake hl hk hp hq => exact h.visit hl hk hp hq
  | @writeGone p a i b hl hpc _ hr =>
    have hk := (h.owner p hl).2
    rw [hpc] at hk
    cases b with
    | false => exact h.release hl (fun c => by rw [hpc]; cases c <;> rfl) _
    | true => cases hr.symm.trans (hk rfl)
  | @writeKilled p a i b hl hpc _ _ =>
    cases b with
    | false => exact h.release hl (fun c => by rw [hpc]; cases c <;> rfl) _
    | true =>
      refine absurd ?_ (hprompt p a i hl hpc)
      simp only [setPc, update_self]
  | writeEnter _ ha | readEnter _ ha =>
    exact h.enter ha (by simp [PipePc.Knows]) (fun _ => .inl) fun c => by cases c <;> exact le_rfl
  | @writeFull p a i b hl hpc _ hr _ hf =>
    refine h.advance' hl ⟨hf, hr⟩ fun c => ?_
    rw [hpc]
    cases c with
    | nread => exact Nat.zero_le _
    | nwrite => cases b <;> exact le_rfl
  | @writeSleep p a i hl hpc =>
    have hk := (h.owner p hl).2
    rw [hpc] at hk
    exact h.doze (c := .nwrite) hl hk (fun c => by rw [hpc]; cases c <;> rfl) _
  | @writeByte p a i b ch hl hpc _ hr _ hf _ =>
    refine h.advance hl (fun _ => hr) (fun c hc => ?_) fun c => ?_
    · exact (Pipe.not_calm_push hf c hc).imp_right fun e => by rw [e]; rfl
    · rw [hpc]
      cases c with
      | nread => exact Nat.zero_le _
      | nwrite => cases b <;> exact le_rfl
  | @writeFault p a i b hl hpc _ _ _ _ _ | @writeDone p a i b hl hpc _ =>
    refine h.advance' hl trivial fun c => ?_
    rw [hpc]
    cases c with
    | nread => exact Nat.zero_le _
    | nwrite => cases b <;> exact le_rfl
  | writeReturn hl hpc | readReturn hl hpc =>
    exact h.release hl (fun c => by rw [hpc]; cases c <;> rfl) _
  | readKilled hl hpc _ _ _ => exact h.release hl (fun c => by rw [hpc]; cases c <;> rfl) _
  | readSleep hl hpc he hw _ =>
    exact h.doze (c := .nread) hl ⟨he, hw⟩ (fun c => by rw [hpc]; cases c <;> rfl) _
  | readReady hl hpc _ | readFault hl hpc _ _ _ | readDone hl hpc _ =>
    refine h.advance' hl trivial fun c => ?_
    rw [hpc]
    cases c with
    | nread => exact le_rfl
    | nwrite => exact Nat.zero_le _
  | readByte hl hpc _ he _ =>
    refine h.advance hl trivial (fun c hc => ?_) fun c => ?_
    · exact (Pipe.not_calm_pop he c hc).imp_right fun e => by rw [e]; rfl
    · rw [hpc]
      cases c <;> exact le_rfl
  | @closeEnter p w _ ha =>
    refine h.enter ha trivial (fun c hc => ?_) fun c => ?_
    · refine (s.pipe.not_calm_close w c hc).imp_right fun e => ?_
      rw [e]
      cases w <;> rfl
    · cases w <;> cases c <;> first | exact Nat.zero_le _ | exact le_rfl
  | @closeOne p w hl hpc _ =>
    exact h.release hl (fun c => by rw [hpc]; cases w <;> cases c <;> rfl) _
  | @closeBoth p w hl hpc _ _ =>
    have := h.release hl (fun c => by rw [hpc]; cases w <;> cases c <;> rfl) .idle
    exact ⟨this.watched, this.owner⟩

theorem attended_init (data : Fin PIPESIZE → UInt8) (killed : Slot → Bool) :
    Attended (init data killed) :=
  ⟨fun _ _ h => h.elim, fun _ h => by cases h⟩

/-- **No stranded sleeper.** As long as `pipewrite` does not return from its loop between two bytes,
whenever `pi->lock` is free a reader is asleep only on an empty pipe that a writer may still fill, and
a writer only on a full pipe that a reader may still empty. -/
theorem noStranded_of_prompt {data : Fin PIPESIZE → UInt8} {killed : Slot → Bool}
    {tr : List PipeEvent} {s : PipeSys}
    (hr : Trans.Run PromptStep (PipeSys.init data killed) tr s) : NoStranded s :=
  (hr.invariant (I := fun _ s => Attended s) (attended_init data killed)
    fun _ _ _ _ h st => st.attended h).noStranded

/-- A reader sleeps on a fresh pipe, and a writer stores a byte in it. -/
theorem noStranded_of_prompt_reader :
    ∃ s, Trans.Run PromptStep (PipeSys.init (fun _ => 0) fun _ => false) [.accept 7] s ∧
      s.mode 0 = .asleep .nread ∧ s.pc 1 = .writeWake 1 0 ∧ NoStranded s := by
  have hr := (Trans.Run.refl : Trans.Run PromptStep (PipeSys.init (fun _ => 0) fun _ => false) [] _)
    |>.tail ⟨@PipeStep.callRead _ 0 ⟨fun _ => true, 1⟩ rfl rfl, fun _ _ _ h => by cases h⟩
    |>.tail ⟨@PipeStep.readEnter _ 0 ⟨fun _ => true, 1⟩ rfl ⟨rfl, rfl, rfl⟩, fun _ _ _ h => by cases h⟩
    |>.tail ⟨@PipeStep.readSleep _ 0 ⟨fun _ => true, 1⟩ rfl rfl rfl rfl rfl,
      fun _ _ _ h h' => by cases h; cases h'⟩
    |>.tail ⟨@PipeStep.sleep _ 0 .nread rfl, fun _ _ _ h => by cases h⟩
    |>.tail ⟨@PipeStep.callWrite _ 1 ⟨fun _ => some 7, 1⟩ rfl rfl, fun _ _ _ h => by cases h⟩
    |>.tail ⟨@PipeStep.writeEnter _ 1 ⟨fun _ => some 7, 1⟩ 0 rfl ⟨rfl, rfl, rfl⟩,
      fun _ _ _ h => by cases h⟩
    |>.tail ⟨@PipeStep.writeByte _ 1 ⟨fun _ => some 7, 1⟩ 0 false 7 rfl rfl (by decide) rfl rfl
      (by decide) rfl, fun _ _ _ h h' => by cases h; cases h'⟩
    |>.tail ⟨@PipeStep.writeDone _ 1 ⟨fun _ => some 7, 1⟩ 1 true rfl rfl (by decide),
      fun _ _ _ h _ e => by cases h; cases e⟩
  exact ⟨_, hr, rfl, rfl, noStranded_of_prompt hr⟩

/-- A reader sleeps on an empty pipe. A writer stores the first of two bytes and is killed; it returns
and the reader sleeps on. -/
theorem not_noStranded :
    ¬ ∀ data killed tr s, Trans.Run PipeStep (PipeSys.init data killed) tr s → NoStranded s := by
  intro h
  have hr := (Trans.Run.refl : Trans.Run PipeStep (PipeSys.init (fun _ => 0) fun _ => false) [] _)
    |>.tail (@PipeStep.callRead _ 0 ⟨fun _ => true, 1⟩ rfl rfl)
    |>.tail (@PipeStep.readEnter _ 0 ⟨fun _ => true, 1⟩ rfl ⟨rfl, rfl, rfl⟩)
    |>.tail (@PipeStep.readSleep _ 0 ⟨fun _ => true, 1⟩ rfl rfl rfl rfl rfl)
    |>.tail (@PipeStep.sleep _ 0 .nread rfl)
    |>.tail (@PipeStep.callWrite _ 1 ⟨fun _ => some 7, 2⟩ rfl rfl)
    |>.tail (@PipeStep.writeEnter _ 1 ⟨fun _ => some 7, 2⟩ 0 rfl ⟨rfl, rfl, rfl⟩)
    |>.tail (@PipeStep.writeByte _ 1 ⟨fun _ => some 7, 2⟩ 0 false 7 rfl rfl (by decide) rfl rfl
      (by decide) rfl)
    |>.tail (@PipeStep.kkill _ 1 fun ⟨_, h⟩ => by cases h)
    |>.tail (@PipeStep.writeKilled _ 1 ⟨fun _ => some 7, 2⟩ 1 true rfl rfl (by decide) rfl)
  have := ((h _ _ _ _ hr) rfl 0).1 rfl
  exact absurd this.1 (by decide)

end Xv6
