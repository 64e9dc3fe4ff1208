import Mathlib.Data.List.FinRange
import Xv6.Proc.Metered

/-!
# The calls that name a process by its pid

`kkill`, `setpowermode_pid`, `setcpulimit_pid`, `sys_setusagelimit`, `sys_getusagestats` and
`getcputicks_pid` each scan the table for a pid. Three of them skip the free slots and three do not,
and a free slot has pid 0: on that pid they part, unless no free slot comes first. On every other pid
they find the same slot.
-/

namespace Xv6

open Function

/-- The six calls. The four that change the slot they find are those of the machine. -/
inductive PidOp
  | set (c : PidCall)
  | getusagestats
  | getcputicks
  deriving DecidableEq, Repr

/-- What a call that finds its slot returns or copies out. One that finds none returns -1. -/
inductive PidReply
  | done
  | stats (cpuTicks cpuTicksLimit : ℕ)
  | ticks (t : ℤ)
  deriving DecidableEq, Repr

namespace PidOp

/-- The test of the arguments before the loop; the power mode is valid by its type. -/
def accepts : PidOp → Bool
  | set (.setcpulimit limit _) => 0 ≤ limit
  | _ => true

/-- The test of the loop. -/
def hit (pid : ℤ) (x : Proc) : PidOp → Bool
  | set c => c.hit pid x
  | getusagestats => int32 x.pid = pid
  | getcputicks => x.state ≠ .unused && int32 x.pid = pid

def reply (x : Proc) : PidOp → PidReply
  | set _ => .done
  | getusagestats => .stats x.cpuTicks x.cpuTicksLimit
  | getcputicks => .ticks x.ticksTotal

def act (x : Proc) : PidOp → Proc
  | set c => c.act x
  | _ => x

/-- The loop over the slots that are left, with the slot found and the table after it. -/
def scan (op : PidOp) (pid : ℤ) (table : Slot → Proc) :
    List Slot → Option (Slot × PidReply) × (Slot → Proc)
  | [] => (none, table)
  | p :: ps =>
    if op.hit pid (table p) then
      (some (p, op.reply (table p)), update table p (op.act (table p)))
    else op.scan pid table ps

/-- The call. -/
def run (op : PidOp) (pid : ℤ) (table : Slot → Proc) : Option (Slot × PidReply) × (Slot → Proc) :=
  if op.accepts then op.scan pid table (List.finRange NPROC) else (none, table)

/-- The loop stops at the first slot that passes its test. -/
theorem scan_eq (op : PidOp) (pid : ℤ) (table : Slot → Proc) (ps : List Slot) :
    op.scan pid table ps = match ps.find? fun p => op.hit pid (table p) with
      | some p => (some (p, op.reply (table p)), update table p (op.act (table p)))
      | none => (none, table) := by
  induction ps with
  | nil => rfl
  | cons p ps ih =>
    cases hp : op.hit pid (table p)
    · simp [scan, hp, ih]
    · simp [scan, hp]

end PidOp

/-- `p` is a process with the pid. -/
def Names (table : Slot → Proc) (pid : ℤ) (p : Slot) : Bool :=
  (table p).state ≠ .unused && int32 (table p).pid = pid

variable {s s' : Machine} {tr es : List Event}

theorem Step.pid_unused (hs : Placed s) (hp : ∀ p, (s.proc p).state = .unused → (s.proc p).pid = 0)
    (st : Step s es s') (p : Slot) (hu : (s'.proc p).state = .unused) : (s'.proc p).pid = 0 := by
  have tick : ∀ n, s'.proc p = { s.proc p with cpuTicks := n } → (s'.proc p).pid = 0 := fun n e => by
    rw [e] at hu ⊢
    exact hp p hu
  cases st.metered hs p with
  | keep hk _ => rw [hk.pid]; exact hp p (hk.unused.1 hu)
  | @skip _ now _ _ hv _ _ =>
    rw [(visited hv).pid]
    exact hp p ((visited hv).state ▸ hu)
  | run _ _ e => simp [e, Proc.dispatch] at hu
  | tickUser _ _ _ e | tickKernel _ _ _ e => exact tick _ e
  | charge _ _ _ e | inherit _ e =>
    rw [e] at hu ⊢
    exact hp p hu
  | @call _ c _ _ _ _ e _ =>
    rw [e] at hu ⊢
    have hpid : (c.act (s.proc p)).pid = (s.proc p).pid := by cases c <;> rfl
    rw [hpid]
    exact hp p ((pidCall_unused c _).1 hu)
  | claim _ e => simp [e, forkCopy, allocproc] at hu
  | free e => rw [e]; rfl

theorem Runs.pid_of_unused (hr : Runs tr s) (p : Slot) (hu : (s.proc p).state = .unused) :
    (s.proc p).pid = 0 := by
  have h : Placed s ∧ ∀ p, (s.proc p).state = .unused → (s.proc p).pid = 0 := by
    refine Trans.Run.invariant
      (I := fun _ s => Placed s ∧ ∀ p, (s.proc p).state = .unused → (s.proc p).pid = 0)
      ⟨placed_boot, fun p hp => ?_⟩ (fun _ _ _ _ hs st => ⟨st.placed hs.1, st.pid_unused hs.1 hs.2⟩) hr
    by_cases h0 : p = 0
    · simp [Machine.boot, h0, allocproc] at hp
    · simp [Machine.boot, h0, Proc.empty]
  exact h.2 p hu

/-- The first hit in a sorted list is the least. -/
theorem find?_le {l : List Slot} (hl : l.Pairwise (· < ·)) {P : Slot → Bool} {p q : Slot} (hp : p ∈ l)
    (hP : P p = true) (hf : l.find? P = some q) : q ≤ p := by
  induction l with
  | nil => cases hp
  | cons a l ih =>
    obtain ⟨ha, hl⟩ := List.pairwise_cons.1 hl
    cases hPa : P a with
    | true =>
      rw [List.find?_cons_of_pos hPa] at hf
      obtain rfl := Option.some.inj hf
      rcases List.mem_cons.1 hp with rfl | hp
      · exact le_rfl
      · exact (ha p hp).le
    | false =>
      rw [List.find?_cons_of_neg (by simp [hPa])] at hf
      rcases List.mem_cons.1 hp with rfl | hp
      · simp [hPa] at hP
      · exact ih hl hp hf

/-- A weaker test has the same first hit, if every hit has one of the stronger test at or before it. -/
theorem find?_eq_find? {l : List Slot} (hl : l.Pairwise (· < ·)) {P Q : Slot → Bool}
    (hQP : ∀ p, Q p = true → P p = true) (hPQ : ∀ p, P p = true → ∃ q ≤ p, q ∈ l ∧ Q q = true) :
    l.find? P = l.find? Q := by
  cases hq : l.find? Q with
  | none =>
    refine List.find?_eq_none.2 fun p hp hP => ?_
    obtain ⟨q, -, hmem, hQ⟩ := hPQ p hP
    exact List.find?_eq_none.1 hq q hmem hQ
  | some q =>
    have hmem := List.mem_of_find?_eq_some hq
    obtain ⟨p, hf⟩ : ∃ p, l.find? P = some p := Option.isSome_iff_exists.1
      (List.find?_isSome.2 ⟨q, hmem, hQP q (List.find?_some hq)⟩)
    obtain ⟨r, hrp, hr, hQ⟩ := hPQ p (List.find?_some hf)
    have hpq := find?_le hl hmem (hQP q (List.find?_some hq)) hf
    have hqr := find?_le hl hr hQ hq
    rw [hf, le_antisymm hpq (hqr.trans hrp)]

/-- Every test passes a process with the pid, and beyond these at most a free slot, for pid 0. -/
theorem PidOp.names_of_hit (hr : Runs tr s) {pid : ℤ} (op : PidOp) (p : Slot) :
    (Names s.proc pid p = true → op.hit pid (s.proc p) = true) ∧
      (op.hit pid (s.proc p) = true → Names s.proc pid p = true ∨
        (s.proc p).state = .unused ∧ pid = 0) := by
  have hfree : int32 (s.proc p).pid = pid → Names s.proc pid p = true ∨
      (s.proc p).state = .unused ∧ pid = 0 := fun hp => by
    by_cases hu : (s.proc p).state = .unused
    · rw [hr.pid_of_unused p hu, int32_of_lt (by decide)] at hp
      exact .inr ⟨hu, hp.symm⟩
    · exact .inl (by simp [Names, hu, hp])
  rcases op with (_ | _ | _ | _) | _ | _ <;>
    simp_all [PidOp.hit, PidCall.hit, Names]

/-- What the calls should do for a pid: succeed exactly when it is that of a slot in use, act on such a
slot and on no other, change nothing when they fail, and all find the same slot or none. -/
def CallsAgree (table : Slot → Proc) (pid : ℤ) : Prop :=
  ∀ op : PidOp, op.accepts = true →
    ((op.run pid table).1.isSome ↔ ∃ p, (table p).state ≠ .unused ∧ int32 (table p).pid = pid) ∧
    (∀ p r, (op.run pid table).1 = some (p, r) →
      (table p).state ≠ .unused ∧ int32 (table p).pid = pid ∧ r = op.reply (table p) ∧
      (op.run pid table).2 = update table p (op.act (table p))) ∧
    ((op.run pid table).1 = none → (op.run pid table).2 = table) ∧
    ∀ op' : PidOp, op'.accepts = true →
      (op'.run pid table).1.map Prod.fst = (op.run pid table).1.map Prod.fst

theorem callsAgree_of_find {table : Slot → Proc} {pid : ℤ}
    (hfind : ∀ op : PidOp, (List.finRange NPROC).find? (fun p => op.hit pid (table p)) =
      (List.finRange NPROC).find? (Names table pid)) : CallsAgree table pid := by
  intro op ha
  have hnames : ∀ p, Names table pid p = true ↔
      (table p).state ≠ .unused ∧ int32 (table p).pid = pid := fun p => by simp [Names]
  have hrun : ∀ op : PidOp, op.accepts = true → op.run pid table =
      match (List.finRange NPROC).find? (Names table pid) with
      | some p => (some (p, op.reply (table p)), update table p (op.act (table p)))
      | none => (none, table) := fun op ha => by rw [PidOp.run, if_pos ha, PidOp.scan_eq, hfind]
  have hop := hrun op ha
  cases hf : (List.finRange NPROC).find? (Names table pid) with
  | none =>
    rw [hf] at hop
    refine ⟨?_, by simp [hop], by simp [hop], fun op' ha' => by simp [hop, hrun op' ha', hf]⟩
    simp only [hop, Option.isSome_none, Bool.false_eq_true, false_iff]
    rintro ⟨p, hp⟩
    exact List.find?_eq_none.1 hf p (List.mem_finRange p) ((hnames p).2 hp)
  | some p =>
    rw [hf] at hop
    have hp := (hnames p).1 (List.find?_some hf)
    refine ⟨?_, ?_, by simp [hop], fun op' ha' => by simp [hop, hrun op' ha', hf]⟩
    · simp only [hop, Option.isSome_some, true_iff]
      exact ⟨p, hp⟩
    · rintro q r hq
      simp only [hop, Option.some.injEq, Prod.mk.injEq] at hq
      obtain ⟨rfl, rfl⟩ := hq
      exact ⟨hp.1, hp.2, rfl, by rw [hop]⟩

/-- **Calls by pid agree** in a reachable table if and only if the pid is not 0, or every free slot comes
after a process that has it. -/
theorem calls_by_pid_agree (hr : Runs tr s) (pid : ℤ) : CallsAgree s.proc pid ↔
    (pid = 0 → ∀ p, (s.proc p).state = .unused →
      ∃ q < p, (s.proc q).state ≠ .unused ∧ int32 (s.proc q).pid = pid) := by
  have hsort : (List.finRange NPROC).Pairwise (· < ·) := List.pairwise_lt_finRange NPROC
  constructor
  · rintro hagree rfl p hu
    -- `kkill` finds the free slot, if nothing before it
    have hhit : (PidOp.set .kkill).hit 0 (s.proc p) = true := by
      simp [PidOp.hit, PidCall.hit, hr.pid_of_unused p hu, int32_of_lt]
    have hsome : ((List.finRange NPROC).find? fun p => (PidOp.set .kkill).hit 0 (s.proc p)).isSome :=
      List.find?_isSome.2 ⟨p, List.mem_finRange p, hhit⟩
    obtain ⟨q, hq⟩ := Option.isSome_iff_exists.1 hsome
    have hrun : ((PidOp.set .kkill).run 0 s.proc).1 = some (q, .done) := by
      rw [PidOp.run, if_pos (by rfl), PidOp.scan_eq, hq]
      rfl
    obtain ⟨hlive, hpid, -⟩ := (hagree _ rfl).2.1 q .done hrun
    have hle : q ≤ p := find?_le (P := fun p => (PidOp.set .kkill).hit 0 (s.proc p)) hsort
      (List.mem_finRange p) hhit hq
    refine ⟨q, lt_of_le_of_ne hle ?_, hlive, hpid⟩
    rintro rfl
    exact hlive hu
  · refine fun hc => callsAgree_of_find fun op => find?_eq_find? hsort
      (fun p => (op.names_of_hit hr p).1) fun p hp => ?_
    rcases (op.names_of_hit hr p).2 hp with hn | ⟨hu, h0⟩
    · exact ⟨p, le_rfl, List.mem_finRange p, hn⟩
    · obtain ⟨q, hlt, hq⟩ := hc h0 p hu
      exact ⟨q, hlt.le, List.mem_finRange q, by simp [Names, hq]⟩

/-- Each of the calls finds the first process by its pid, and pid 0 parts them. -/
theorem calls_by_pid_agree_boot : CallsAgree Machine.boot.proc 1 ∧ ¬ CallsAgree Machine.boot.proc 0 := by
  have hr : Runs [] Machine.boot := .refl
  refine ⟨(calls_by_pid_agree hr 1).2 fun h => absurd h (by decide), fun h => ?_⟩
  obtain ⟨q, hlt, -, hq⟩ := (calls_by_pid_agree hr 0).1 h rfl 1 (by decide)
  obtain rfl : q = 0 := Fin.ext (Nat.lt_one_iff.1 hlt)
  exact absurd hq (by decide)

/-- `kill(0)` marks a free slot, and `setusagelimit(0, 5)` and `getusagestats(0)` find one too; the
other three calls find none. -/
theorem calls_by_pid_differ : ∃ tr s, Runs tr s ∧
    (∀ p, (s.proc p).state ≠ .unused → int32 (s.proc p).pid ≠ 0) ∧
    ((PidOp.set .kkill).run 0 s.proc).1 = some (1, .done) ∧
    (((PidOp.set .kkill).run 0 s.proc).2 1).killed = true ∧
    ((PidOp.set (.setusagelimit 5)).run 0 s.proc).1 = some (1, .done) ∧
    (PidOp.getusagestats.run 0 s.proc).1 = some (1, .stats 0 0) ∧
    ((PidOp.set (.setpowermode .eco)).run 0 s.proc).1 = none ∧
    ((PidOp.set (.setcpulimit 5 s.ticks)).run 0 s.proc).1 = none ∧
    (PidOp.getcputicks.run 0 s.proc).1 = none := by
  refine ⟨[], Machine.boot, .refl, ?_⟩
  decide +kernel

end Xv6
