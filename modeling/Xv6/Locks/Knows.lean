import Xv6.Locks.Machine

/-!
# What the threads know

The locks that a step takes or gives back, the references that a position stands for, and what a thread
may rely on at a position. `Acts.guar` says what an action of one process leaves of the knowledge of the
others.
-/

namespace Xv6.Locks

open Function List Multiset Data

open Spin (Ctl Owns)

variable {d d' : Data} {me : Option Slot} {p q : Slot} {a b : Pos} {l : Lock}

/-! ## The locks of a step -/

theorem Acquires.holds (st : Acquires d me a l b) : (b.holds me).Perm (l :: a.holds me) := by
  cases st with
  | @relock p w => cases w <;> exact Perm.refl _
  | _ => exact Perm.refl _

theorem Releases.holds (st : Releases me a l b) : (a.holds me).Perm (l :: b.holds me) := by
  cases st with
  | bed | exit => exact Perm.swap _ _ _
  | _ => exact Perm.refl _

theorem Acts.holds (st : Acts d me a d' b) : b.holds me = a.holds me := by
  cases st <;> rfl

/-! ## What a position stands for -/

/-- The inode that is being freed. -/
def Ret.puts : Ret → Option Iptr
  | idle => none
  | trunc i => some i

def Wait.uses : Wait → Option Iptr
  | lock i => some i
  | other _ r => r.puts
  | _ => none

def Wait.puts : Wait → Option Iptr
  | other _ r => r.puts
  | _ => none

def Out.uses : Out → Option Iptr
  | relock w => w.uses
  | trunc i => some i
  | putRef i => some i
  | _ => none

def Out.puts : Out → Option Iptr
  | relock w => w.puts
  | trunc i => some i
  | putRef i => some i
  | _ => none

def Out.clear : Out → Option Iptr
  | putRef i => some i
  | _ => none

def Out.forks : Out → Option Slot
  | forkParent np => some np
  | forkRun np => some np
  | _ => none

def Sec.uses : Sec → Option Iptr
  | sleeps w => w.uses
  | exit _ => none
  | unlock i _ => some i
  | clock x => x.uses
  | device _ x => x.uses

def Sec.puts : Sec → Option Iptr
  | sleeps w => w.puts
  | exit _ => none
  | unlock i u => if u then some i else none
  | clock x => x.puts
  | device _ x => x.puts

def Sec.clear : Sec → Option Iptr
  | sleeps _ => none
  | exit _ => none
  | unlock i u => if u then some i else none
  | clock x => x.clear
  | device _ x => x.clear

def Sec.forks : Sec → Option Slot
  | clock x => x.forks
  | device _ x => x.forks
  | _ => none

def Why.uses : Why → Option Iptr
  | sleep w => w.uses
  | yield x => x.uses
  | _ => none

def Why.puts : Why → Option Iptr
  | sleep w => w.puts
  | yield x => x.puts
  | _ => none

def Why.clear : Why → Option Iptr
  | yield x => x.clear
  | _ => none

def Why.forks : Why → Option Slot
  | yield x => x.forks
  | _ => none

def Out.isSched : Out → Bool
  | sched _ => true
  | _ => false

def Sec.isSched : Sec → Bool
  | clock x => x.isSched
  | device _ x => x.isSched
  | _ => false

namespace Pos

/-- The inode whose sleep lock the thread is about to use. -/
def uses : Pos → Option Iptr
  | out x | yielding x | leaf _ x => x.uses
  | crit c | wake c _ | wakeIn c _ => c.uses
  | check w | bed w | drowsy w => w.uses
  | own y | parked y | resumed y => y.uses
  | leave i | unlocking i _ | put i | putLast i | putIn i | putSleep i | putGot i | putHold i | putDec i =>
    some i
  | _ => none

/-- The inode that the thread is in `iput` of. -/
def puts : Pos → Option Iptr
  | out x | yielding x | leaf _ x => x.puts
  | crit c | wake c _ | wakeIn c _ => c.puts
  | check w | bed w | drowsy w => w.puts
  | own y | parked y | resumed y => y.puts
  | unlocking i u => if u then some i else none
  | put i | putLast i | putIn i | putSleep i | putGot i | putHold i | putDec i => some i
  | _ => none

/-- The inode that the thread is in `iput` of, without its sleep lock or with another reference. -/
def clear : Pos → Option Iptr
  | out x | yielding x | leaf _ x => x.clear
  | crit c | wake c _ | wakeIn c _ => c.clear
  | own y | parked y | resumed y => y.clear
  | put i | putLast i | putIn i | putDec i => some i
  | _ => none

/-- The process that the thread is creating. -/
def forks : Pos → Option Slot
  | out x | yielding x | leaf _ x => x.forks
  | crit c | wake c _ | wakeIn c _ => c.forks
  | own y | parked y | resumed y => y.forks
  | alloc np g => if g = .failed then none else some np
  | allocPid np | allocMem np | allocFile np _ | allocInode np _ | allocOwn np | link np => some np
  | start np done => if done then none else some np
  | _ => none

/-- The state of the process that the thread is creating. -/
def forkState : Pos → ProcState
  | alloc _ .found | alloc _ .numbered | allocPid _ => .unused
  | _ => .used

/-- The zombie whose slot the thread is freeing. -/
def reaps : Pos → Option Slot
  | reap q | reapMem q => some q
  | _ => none

/-- The inode to which the thread has seen that there are no other references. -/
def lasts : Pos → Option Iptr
  | putLast i | putIn i => some i
  | _ => none

/-- The state of the process has been changed on the way to `swtch`. -/
def leaving : Pos → Bool
  | own _ => true
  | exitIn done => done
  | _ => false

def isParked : Pos → Bool
  | parked _ => true
  | _ => false

def isPutSleep : Pos → Bool
  | putSleep _ => true
  | _ => false

/-- Positions of a scheduler and of handlers that interrupt it. -/
def isSched : Pos → Bool
  | out x | leaf _ x => x.isSched
  | crit c | wake c _ | wakeIn c _ => c.isSched
  | pick _ | away | ran _ => true
  | _ => false

end Pos

/-! ## Knowledge -/

/-- What the thread at `a` knows by the locks that it holds, or because no other thread may change it. -/
structure Knows (d : Data) (a : Pos) : Prop where
  forks : ∀ np, a.forks = some np → d.state np = a.forkState
  reaps : ∀ q, a.reaps = some q → d.state q = .zombie
  lasts : ∀ i, a.lasts = some i → d.iref i = 1
  sleeps : a.isPutSleep = false

/-- The references of the process `p` that the position `a` stands for. -/
structure Refs (d : Data) (p : Slot) (a : Pos) : Prop where
  uses : ∀ i, a.uses = some i → d.HasRef p i
  puts : ∀ i, a.puts = some i → .inl p ∈ d.refs i
  clear : ∀ i, a.clear = some i → d.slock i = some p → 1 < (d.refs i).count (.inl p)

/-- At `b` the thread knows no more than at `a`. -/
structure Pos.Le (b a : Pos) : Prop where
  forks : b.forks = none ∨ b.forks = a.forks ∧ b.forkState = a.forkState
  reaps : b.reaps = none ∨ b.reaps = a.reaps
  lasts : b.lasts = none ∨ b.lasts = a.lasts
  sleeps : b.isPutSleep = false

theorem Knows.mono (h : Knows d a) (hle : b.Le a) : Knows d b where
  forks np hb := by
    rcases hle.forks with e | ⟨e, es⟩
    · rw [e] at hb
      cases hb
    · rw [es]
      exact h.forks np (e ▸ hb)
  reaps q hb := by
    rcases hle.reaps with e | e
    · rw [e] at hb
      cases hb
    · exact h.reaps q (e ▸ hb)
  lasts i hb := by
    rcases hle.lasts with e | e
    · rw [e] at hb
      cases hb
    · exact h.lasts i (e ▸ hb)
  sleeps := hle.sleeps

theorem Acquires.le (st : Acquires d me a l b) : b.Le a := by
  cases st with
  | @relock p w =>
    cases w <;> exact ⟨.inl rfl, .inl rfl, .inl rfl, rfl⟩
  | reap => exact ⟨.inl rfl, .inr rfl, .inl rfl, rfl⟩
  | putIn => exact ⟨.inl rfl, .inl rfl, .inr rfl, rfl⟩
  | yield | clock | device | wakeup | allocpid | allocMem | filedup | idup | allocOwn | link | start =>
    exact ⟨.inr ⟨rfl, rfl⟩, .inl rfl, .inl rfl, rfl⟩
  | _ => exact ⟨.inl rfl, .inl rfl, .inl rfl, rfl⟩

theorem Acquires.forks_eq (st : Acquires d me a l b) : b.forks = a.forks := by
  cases st with
  | @relock p w => cases w <;> rfl
  | @other p j r => cases r <;> rfl
  | _ => rfl

theorem Releases.le (st : Releases me a l b) : b.Le a := by
  cases st with
  | @leaf me l x => cases x <;> first
    | exact ⟨.inl rfl, .inl rfl, .inl rfl, rfl⟩
    | exact ⟨.inr ⟨rfl, rfl⟩, .inl rfl, .inl rfl, rfl⟩
  | @sec me c x hx =>
    cases c with
    | sleeps w =>
      cases w with
      | pause => 
        cases hx
        exact ⟨.inl rfl, .inl rfl, .inl rfl, rfl⟩
      | other j r =>
        cases hx
        cases r <;> exact ⟨.inl rfl, .inl rfl, .inl rfl, rfl⟩
      | kwait => cases hx
      | lock i => cases hx
    | exit k => cases hx
    | unlock i u =>
      cases hx
      cases u <;> exact ⟨.inl rfl, .inl rfl, .inl rfl, rfl⟩
    | clock x | device j x =>
      cases hx
      exact ⟨.inr ⟨rfl, rfl⟩, .inl rfl, .inl rfl, rfl⟩
  | @resumed p y x hx =>
    cases y with
    | sleep w | first =>
      cases hx
      exact ⟨.inl rfl, .inl rfl, .inl rfl, rfl⟩
    | yield x =>
      cases hx
      exact ⟨.inr ⟨rfl, rfl⟩, .inl rfl, .inl rfl, rfl⟩
    | exit => cases hx
  | reapMem => exact ⟨.inl rfl, .inr rfl, .inl rfl, rfl⟩
  | allocPid | allocMem | allocFile | allocInode | allocOwn | allocDone | link | wakeup =>
    exact ⟨.inr ⟨rfl, rfl⟩, .inl rfl, .inl rfl, rfl⟩
  | _ => exact ⟨.inl rfl, .inl rfl, .inl rfl, rfl⟩

/-- The thread needs no more references at `b` than at `a`. -/
structure Pos.Needs (b a : Pos) : Prop where
  uses : b.uses = none ∨ b.uses = a.uses
  puts : b.puts = none ∨ b.puts = a.puts
  clear : b.clear = none ∨ b.clear = a.clear

theorem Refs.mono (h : Refs d p a) (hn : b.Needs a) : Refs d p b where
  uses i hb := by
    rcases hn.uses with e | e
    · rw [e] at hb
      cases hb
    · exact h.uses i (e ▸ hb)
  puts i hb := by
    rcases hn.puts with e | e
    · rw [e] at hb
      cases hb
    · exact h.puts i (e ▸ hb)
  clear i hb := by
    rcases hn.clear with e | e
    · rw [e] at hb
      cases hb
    · exact h.clear i (e ▸ hb)

theorem Releases.needs (st : Releases me a l b) : b.Needs a := by
  cases st with
  | @sec me c x hx =>
    cases c with
    | sleeps w =>
      cases w with
      | pause => 
        cases hx
        exact ⟨.inl rfl, .inl rfl, .inl rfl⟩
      | other j r =>
        cases hx
        cases r
        · exact ⟨.inl rfl, .inl rfl, .inl rfl⟩
        · exact ⟨.inr rfl, .inr rfl, .inl rfl⟩
      | kwait => cases hx
      | lock i => cases hx
    | exit k => cases hx
    | unlock i u =>
      cases hx
      cases u
      · exact ⟨.inl rfl, .inl rfl, .inl rfl⟩
      · exact ⟨.inr rfl, .inr rfl, .inr rfl⟩
    | clock x | device j x =>
      cases hx
      exact ⟨.inr rfl, .inr rfl, .inr rfl⟩
  | @resumed p y x hx =>
    cases y with
    | exit => cases hx
    | first =>
      cases hx
      exact ⟨.inl rfl, .inl rfl, .inl rfl⟩
    | sleep w =>
      cases hx
      exact ⟨.inr rfl, .inr rfl, .inl rfl⟩
    | yield x =>
      cases hx
      exact ⟨.inr rfl, .inr rfl, .inr rfl⟩
  | leaf | wakeup => exact ⟨.inr rfl, .inr rfl, .inr rfl⟩
  | check | bed | putGot | putHold => exact ⟨.inr rfl, .inr rfl, .inl rfl⟩
  | _ => exact ⟨.inl rfl, .inl rfl, .inl rfl⟩

/-- Before it spins, a thread has the references that it needs with the lock. -/
theorem Acquires.refs (st : Acquires d (some p) a l b) (h : Refs d p a)
    (hl : ∀ i, d.slock i = some p → d.HasRef p i) : Refs d p b := by
  cases st with
  | acquiresleep hr | holdingsleep hr =>
    exact ⟨fun i e => by cases e; exact hr, fun i e => (by cases e), fun i e => (by cases e)⟩
  | releasesleep ho =>
    exact ⟨fun i e => by cases e; exact hl _ ho, fun i e => (by cases e), fun i e => (by cases e)⟩
  | iput hr ho =>
    exact ⟨fun i e => by cases e; exact .inl hr, fun i e => by cases e; exact hr,
      fun i e => by cases e; exact ho⟩
  | @relock _ w => cases w <;> exact h.mono ⟨.inr rfl, .inr rfl, .inl rfl⟩
  | @other _ j r => cases r <;> exact h.mono ⟨.inr rfl, .inr rfl, .inl rfl⟩
  | yield | clock | device | wakeup | putIn | putDec => exact h.mono ⟨.inr rfl, .inr rfl, .inr rfl⟩
  | pauseKilled | otherKilled | sleep | putUnlock => exact h.mono ⟨.inr rfl, .inr rfl, .inl rfl⟩
  | _ => exact h.mono ⟨.inl rfl, .inl rfl, .inl rfl⟩

/-! ## Actions -/

/-- The counts are right, and who holds a sleep lock has a reference. -/
structure Books (d : Data) : Prop where
  inodes : ∀ i, d.iref i = (d.refs i).card
  files : ∀ f, d.fref f = (d.frefs f).card
  ips : ∀ f i, d.fip f = some i → .inr f ∈ d.refs i
  locks : ∀ p i, d.slock i = some p → d.HasRef p i

/-- The state of a process changes when it sleeps, is created, is freed, or changes itself. -/
theorem Acts.state_ne (st : Acts d me a d' b) (x : Slot) (hx : d'.state x ≠ d.state x) :
    (.proc x ∈ a.holds me) ∧
    (d.state x = .sleeping ∨ a.forks = some x ∨ a.reaps = some x ∨
      me = some x ∧ a.leaving = false ∧ b.leaving = true) := by
  cases st with
  | @kkill p q hq | @wakeup me c q hq =>
    by_cases e : x = q
    · subst x
      exact ⟨by simp [Pos.holds], .inl hq⟩
    · exact absurd (by simp [Data.setState, e]) hx
  | @used p np | @freeNew p np | @start p np =>
    by_cases e : x = np
    · subst x
      exact ⟨by simp [Pos.holds], .inr (.inl rfl)⟩
    · exact absurd (by simp [Data.setState, e]) hx
  | @freeproc p q =>
    by_cases e : x = q
    · subst x
      exact ⟨by simp [Pos.holds], .inr (.inr (.inl rfl))⟩
    · exact absurd (by simp [Data.setState, e]) hx
  | @zombie p | @fall p | @yield p =>
    by_cases e : x = p
    · subst x
      exact ⟨by simp [Pos.holds, ownLock], .inr (.inr (.inr ⟨rfl, rfl, rfl⟩))⟩
    · exact absurd (by simp [Data.setState, e]) hx
  | _ => exact absurd rfl hx

/-- `ip->ref` changes under `itable.lock`. -/
theorem Acts.iref_ne (st : Acts d me a d' b) (i : Iptr) (hi : d'.iref i ≠ d.iref i) :
    .itable ∈ a.holds me := by
  cases st with
  | allocInode | iget | putDec => simp [Pos.holds]
  | _ => exact absurd rfl hi

/-! ### References -/

namespace Data

theorem HasRef.incInode {i j : Iptr} (h : d.HasRef q j) (o : Slot ⊕ Fptr) : (d.incInode i o).HasRef q j := by
  rcases h with h | h
  · refine .inl ?_
    by_cases e : j = i
    · subst j
      simp [Data.incInode, h]
    · simpa [Data.incInode, e] using h
  · exact .inr h

theorem HasRef.incFile {f : Fptr} {j : Iptr} (h : d.HasRef q j) (p : Slot) : (d.incFile f p).HasRef q j := by
  rcases h with h | ⟨g, hg, hi⟩
  · exact .inl h
  · refine .inr ⟨g, ?_, hi⟩
    by_cases e : g = f
    · subst g
      simp [Data.incFile, hg]
    · simpa [Data.incFile, e] using hg

/-- A reference is given up; what another one has, or another inode, is not touched. -/
theorem HasRef.decInode {i j : Iptr} (h : d.HasRef q j) (hne : j ≠ i ∨ q ≠ p) :
    (d.decInode i (.inl p)).HasRef q j := by
  rcases h with h | h
  · refine .inl ?_
    by_cases e : j = i
    · subst j
      have hq : q ≠ p := hne.resolve_left fun h => h rfl
      have : (Sum.inl q : Slot ⊕ Fptr) ≠ .inl p := fun e => hq (Sum.inl.inj e)
      simpa [Data.decInode] using (mem_erase_of_ne this).2 h
    · simpa [Data.decInode, e] using h
  · exact .inr h

theorem HasRef.decFile {f : Fptr} {j : Iptr} (h : d.HasRef q j) (hne : d.fip f ≠ some j ∨ q ≠ p) :
    (d.decFile f p).HasRef q j := by
  rcases h with h | ⟨g, hg, hi⟩
  · exact .inl h
  · refine .inr ⟨g, ?_, hi⟩
    by_cases e : g = f
    · subst g
      have hq : q ≠ p := hne.resolve_left fun h => h hi
      simpa [Data.decFile] using (Multiset.mem_erase_of_ne hq).2 hg
    · simpa [Data.decFile, e] using hg

end Data

/-- The last `fileclose` takes a reference away from nobody else. -/
theorem Data.HasRef.closeInode (hb : Books d) {f : Fptr} {i j : Iptr} (h : d.HasRef q j)
    (hf : p ∈ d.frefs f) (hr : d.fref f = 1) (hne : d.fip f ≠ some j ∨ q ≠ p) :
    (((d.decFile f p).setIp f none).passInode i (.inr f) (.inl p)).HasRef q j := by
  rcases h with h | ⟨g, hg, hi⟩
  · refine .inl ?_
    by_cases e : j = i
    · subst j
      have hne : (Sum.inl q : Slot ⊕ Fptr) ≠ .inr f := Sum.inl_ne_inr
      simpa [Data.passInode, Data.setIp, Data.decFile] using .inr ((Multiset.mem_erase_of_ne hne).2 h)
    · simpa [Data.passInode, Data.setIp, Data.decFile, e] using h
  · have hgf : g ≠ f := by
      rintro rfl
      have hq : q ≠ p := hne.resolve_left fun h => h hi
      obtain ⟨x, hx⟩ := Multiset.card_eq_one.1 ((hb.files g).symm.trans hr)
      rw [hx, Multiset.mem_singleton] at hf hg
      exact hq (hg.trans hf.symm)
    refine .inr ⟨g, ?_, ?_⟩
    · simpa [Data.passInode, Data.setIp, Data.decFile, hgf] using hg
    · simpa [Data.passInode, Data.setIp, Data.decFile, hgf] using hi

/-- A file that is opened keeps the reference for the process. -/
theorem Data.HasRef.install {f : Fptr} {i j : Iptr} (h : d.HasRef q j) (hf : p ∈ d.frefs f)
    (hn : d.fip f = none) : ((d.setIp f (some i)).passInode i (.inl p) (.inr f)).HasRef q j := by
  rcases h with h | ⟨g, hg, hi⟩
  · by_cases e : j = i
    · subst j
      by_cases eq : q = p
      · subst q
        exact .inr ⟨f, hf, by simp [passInode, setIp]⟩
      · have : (Sum.inl q : Slot ⊕ Fptr) ≠ .inl p := fun e => eq (Sum.inl.inj e)
        exact .inl (by simpa [passInode, setIp] using (mem_erase_of_ne this).2 h)
    · exact .inl (by simpa [passInode, setIp, e] using h)
  · have hgf : g ≠ f := by
      rintro rfl
      rw [hn] at hi
      cases hi
    exact .inr ⟨g, hg, by simpa [passInode, setIp, hgf] using hi⟩

/-- What an action leaves of the references of another process. -/
theorem Acts.hasRef (st : Acts d me a d' b) (hb : Books d) (hq : me ≠ some q) (i : Iptr)
    (h : d.HasRef q i) : d'.HasRef q i := by
  cases st with
  | allocFile | filealloc | filedup => exact h.incFile _
  | allocInode | iget => exact h.incInode _
  | putDec => exact h.decInode (.inr fun e => hq (e ▸ rfl))
  | fileclose | fileclosePlain => exact h.decFile (.inr fun e => hq (e ▸ rfl))
  | filecloseInode hf hl hr hi => exact h.closeInode hb hf hr (.inr fun e => hq (e ▸ rfl))
  | install hi hf hn => exact h.install hf hn
  | _ => exact h

theorem Acts.count_refs (st : Acts d me a d' b) (hq : me ≠ some q) (i : Iptr) :
    (d.refs i).count (.inl q) ≤ (d'.refs i).count (.inl q) := by
  have hne : ∀ p, me = some p → (Sum.inl q : Slot ⊕ Fptr) ≠ .inl p := by
    rintro p rfl e
    exact hq (by rw [Sum.inl.inj e])
  cases st with
  | @allocInode p np j hi | @iget p j =>
    by_cases e : i = j
    · subst i
      simpa [incInode] using Multiset.count_le_count_cons _ _ _
    · simp [incInode, e]
  | @putDec p j =>
    by_cases e : i = j
    · subst i
      simp [decInode, Multiset.count_erase_of_ne (hne p rfl)]
    · simp [decInode, e]
  | @filecloseInode p f j hf hl hr hi =>
    by_cases e : i = j
    · subst i
      simp [passInode, setIp, decFile, Multiset.count_cons_of_ne (hne p rfl),
        Multiset.count_erase_of_ne (Sum.inl_ne_inr (b := f))]
    · simp [passInode, setIp, decFile, e]
  | @install p f j hi hf hn =>
    by_cases e : i = j
    · subst i
      simp [passInode, setIp, Multiset.count_erase_of_ne (hne p rfl)]
    · simp [passInode, setIp, e]
  | _ => exact le_rfl

theorem Acts.slock_eq (st : Acts d me a d' b) (hq : me ≠ some q) (i : Iptr) (h : d'.slock i = some q) :
    d.slock i = some q := by
  cases st with
  | @locked p j hl | @putGot p j hl =>
    by_cases e : i = j
    · subst i
      simp only [setLock, update_self] at h
      exact absurd h hq
    · simpa [setLock, e] using h
  | @unlock p j u =>
    by_cases e : i = j
    · subst i
      simp [setLock] at h
    · simpa [setLock, e] using h
  | _ => exact h

/-- What another process has is stable. -/
theorem Acts.refs_other (st : Acts d me a d' b) (hb : Books d) (hq : me ≠ some q) {x : Pos}
    (h : Refs d q x) : Refs d' q x := by
  refine ⟨fun i e => st.hasRef hb hq i (h.uses i e), fun i e => ?_,
    fun i e hl => (h.clear i e (st.slock_eq hq i hl)).trans_le (st.count_refs hq i)⟩
  exact Multiset.one_le_count_iff_mem.1
    ((Multiset.one_le_count_iff_mem.2 (h.puts i e)).trans (st.count_refs hq i))

/-- The references of the process that acts. -/
theorem Acts.refs (st : Acts d (some p) a d' b) (h : Refs d p a) : Refs d' p b := by
  cases st with
  | @unlock _ i u =>
    refine ⟨h.uses, h.puts, fun j e hl => ?_⟩
    cases u with
    | false => cases e
    | true =>
      cases e
      simp [setLock] at hl
  | locked | putGot | fall | putSleep => exact ⟨h.uses, h.puts, fun i e => by cases e⟩
  | wakeSelf | woken | wakeup | otherWakeup | yield | last | notLast =>
    exact ⟨h.uses, h.puts, h.clear⟩
  | _ => exact ⟨fun i e => (by cases e), fun i e => (by cases e), fun i e => (by cases e)⟩

namespace Books

theorem setState (hb : Books d) (x : Slot) (v : ProcState) : Books (d.setState x v) :=
  ⟨hb.inodes, hb.files, hb.ips, hb.locks⟩

theorem setLock (hb : Books d) {i : Iptr} {o : Option Slot} (ho : ∀ p, o = some p → d.HasRef p i) :
    Books (d.setLock i o) := by
  refine ⟨hb.inodes, hb.files, hb.ips, fun q j hl => ?_⟩
  by_cases e : j = i
  · subst j
    exact ho q (by simpa [Data.setLock] using hl)
  · exact hb.locks q j (by simpa [Data.setLock, e] using hl)

theorem incInode (hb : Books d) (i : Iptr) (o : Slot ⊕ Fptr) : Books (d.incInode i o) := by
  refine ⟨fun j => ?_, hb.files, fun f j hf => ?_, fun q j hl => (hb.locks q j hl).incInode o⟩
  · by_cases e : j = i
    · subst j
      simp [Data.incInode, hb.inodes]
    · simpa [Data.incInode, e] using hb.inodes j
  · have hm := hb.ips f j hf
    by_cases e : j = i
    · subst j
      simp [Data.incInode, hm]
    · simpa [Data.incInode, e] using hm

theorem incFile (hb : Books d) (f : Fptr) (x : Slot) : Books (d.incFile f x) := by
  refine ⟨hb.inodes, fun g => ?_, hb.ips, fun q j hl => (hb.locks q j hl).incFile x⟩
  by_cases e : g = f
  · subst g
    simp [Data.incFile, hb.files]
  · simpa [Data.incFile, e] using hb.files g

theorem decInode (hb : Books d) {i : Iptr} (hi : .inl p ∈ d.refs i)
    (hl : d.slock i = some p → 1 < (d.refs i).count (.inl p)) :
    Books (d.decInode i (.inl p)) := by
  refine ⟨fun j => ?_, hb.files, fun f j hf => ?_, fun q j hq => ?_⟩
  · by_cases e : j = i
    · subst j
      simp [Data.decInode, hb.inodes, Multiset.card_erase_of_mem hi]
    · simpa [Data.decInode, e] using hb.inodes j
  · have hm := hb.ips f j hf
    by_cases e : j = i
    · subst j
      simpa [Data.decInode] using (Multiset.mem_erase_of_ne Sum.inr_ne_inl).2 hm
    · simpa [Data.decInode, e] using hm
  · by_cases hc : j = i ∧ q = p
    · obtain ⟨rfl, rfl⟩ := hc
      refine .inl (Multiset.one_le_count_iff_mem.1 ?_)
      simp only [Data.decInode, update_self, Multiset.count_erase_self]
      exact Nat.le_sub_of_add_le (hl hq)
    · exact (hb.locks q j hq).decInode (not_and_or.1 hc)

theorem decFile (hb : Books d) {f : Fptr} (hf : p ∈ d.frefs f) (hl : d.Unlocked p f) :
    Books (d.decFile f p) := by
  refine ⟨hb.inodes, fun g => ?_, hb.ips, fun q j hq => ?_⟩
  · by_cases e : g = f
    · subst g
      simp [Data.decFile, hb.files, card_erase_of_mem hf]
    · simpa [Data.decFile, e] using hb.files g
  · refine (hb.locks q j hq).decFile ?_
    by_contra hc
    obtain ⟨hi, rfl⟩ : d.fip f = some j ∧ q = p := by simpa using hc
    exact hl j hi hq

/-- A reference that passes from one to another is counted once. -/
theorem card_pass {i : Iptr} {o o' : Slot ⊕ Fptr} (hb : Books d) (ho : o ∈ d.refs i) (j : Iptr) :
    d.iref j = (update d.refs i (o' ::ₘ (d.refs i).erase o) j).card := by
  by_cases e : j = i
  · subst j
    have := card_pos_iff_exists_mem.2 ⟨o, ho⟩
    rw [update_self, card_cons, card_erase_of_mem ho, hb.inodes]
    exact (Nat.succ_pred_eq_of_pos this).symm
  · rw [update_of_ne e, hb.inodes]

theorem closeInode (hb : Books d) {f : Fptr} {i : Iptr} (hf : p ∈ d.frefs f) (hl : d.Unlocked p f)
    (hr : d.fref f = 1) (hi : d.fip f = some i) :
    Books (((d.decFile f p).setIp f none).passInode i (.inr f) (.inl p)) := by
  refine ⟨hb.card_pass (hb.ips f i hi), (hb.decFile hf hl).files, fun g j hg => ?_, fun q j hq => ?_⟩
  · have hgf : g ≠ f := by
      rintro rfl
      simp [Data.passInode, Data.setIp] at hg
    have hm := hb.ips g j (by simpa [Data.passInode, Data.setIp, Data.decFile, hgf] using hg)
    by_cases e : j = i
    · subst j
      have hne : (Sum.inr g : Slot ⊕ Fptr) ≠ .inr f := fun e => hgf (Sum.inr.inj e)
      simpa [Data.passInode, Data.setIp, Data.decFile] using (mem_erase_of_ne hne).2 hm
    · simpa [Data.passInode, Data.setIp, Data.decFile, e] using hm
  · refine (hb.locks q j hq).closeInode hb hf hr ?_
    by_contra hc
    obtain ⟨hi', rfl⟩ : d.fip f = some j ∧ q = p := by simpa using hc
    exact hl j hi' hq

theorem install (hb : Books d) {f : Fptr} {i : Iptr} (hi : .inl p ∈ d.refs i) (hf : p ∈ d.frefs f)
    (hn : d.fip f = none) : Books ((d.setIp f (some i)).passInode i (.inl p) (.inr f)) := by
  refine ⟨hb.card_pass hi, hb.files, fun g j hg => ?_, fun q j hq => (hb.locks q j hq).install hf hn⟩
  by_cases egf : g = f
  · subst g
    have : i = j := by simpa [passInode, setIp] using hg
    subst j
    simp [passInode, setIp]
  · have hm := hb.ips g j (by simpa [passInode, setIp, egf] using hg)
    by_cases e : j = i
    · subst j
      simpa [passInode, setIp] using .inr ((Multiset.mem_erase_of_ne Sum.inr_ne_inl).2 hm)
    · simpa [passInode, setIp, e] using hm

end Books

/-- The books after an action. -/
theorem Acts.books (st : Acts d me a d' b) (hb : Books d) (h : ∀ p, me = some p → Refs d p a) :
    Books d' := by
  cases st with
  | kkill | used | freeNew | start | wakeup | zombie | freeproc | fall | yield => exact hb.setState ..
  | @locked p i hl | @putGot p i hl =>
    refine hb.setLock fun q e => ?_
    cases e
    exact (h p rfl).uses i rfl
  | unlock => exact hb.setLock fun q e => by cases e
  | allocFile | filealloc | filedup => exact hb.incFile ..
  | allocInode | iget => exact hb.incInode ..
  | fileclose hf hl hr => exact hb.decFile hf hl
  | fileclosePlain hf hr hi => exact hb.decFile hf fun i e => by simp [hi] at e
  | filecloseInode hf hl hr hi => exact hb.closeInode hf hl hr hi
  | install hi hf hn => exact hb.install hi hf hn
  | @putDec p i => exact hb.decInode ((h p rfl).puts i rfl) ((h p rfl).clear i rfl)
  | _ => exact hb

/-- With one reference, which is that of `p`, no other process uses the inode. -/
theorem Books.only (hb : Books d) {i : Iptr} (h1 : d.iref i = 1) (hp : .inl p ∈ d.refs i)
    (hq : d.HasRef q i) : q = p := by
  obtain ⟨o, ho⟩ := Multiset.card_eq_one.1 ((hb.inodes i).symm.trans h1)
  rw [ho, Multiset.mem_singleton] at hp
  rcases hq with hq | ⟨f, -, hf⟩
  · rw [ho, Multiset.mem_singleton, ← hp] at hq
    exact Sum.inl.inj hq
  · have := hb.ips f i hf
    rw [ho, Multiset.mem_singleton, ← hp] at this
    cases this

/-- The sleep lock is free when `iput` takes it. -/
theorem Books.slock_free (hb : Books d) {i : Iptr} (hk : Knows d (.putIn i)) (hr : Refs d p (.putIn i)) :
    d.slock i = none := by
  cases e : d.slock i with
  | none => rfl
  | some q =>
    have hq := hb.only (hk.lasts i rfl) (hr.puts i rfl) (hb.locks q i e)
    have h2 := (hr.clear i rfl (hq ▸ e)).trans_le (Multiset.count_le_card _ _)
    rw [← hb.inodes, hk.lasts i rfl] at h2
    exact absurd h2 (Nat.lt_irrefl 1)

/-- A position at which nothing is known, but for the process that is being created. -/
theorem Knows.of_forks (hf : ∀ np, b.forks = some np → d.state np = b.forkState)
    (hr : b.reaps = none) (hl : b.lasts = none) (hs : b.isPutSleep = false) : Knows d b :=
  ⟨hf, fun q e => by simp [hr] at e, fun i e => by simp [hl] at e, hs⟩

/-- What the thread that acts knows afterwards. -/
theorem Acts.knows (st : Acts d me a d' b) (hk : Knows d a) (hb : Books d)
    (hr : ∀ p, me = some p → Refs d p a)
    (hrun : ∀ p, me = some p → a.leaving = false → d.state p = .running) : Knows d' b := by
  cases st with
  | @wakeup me c q hq =>
    refine .of_forks (fun np e => ?_) rfl rfl rfl
    have hnp : d.state np = .used := hk.forks np e
    have hne : np ≠ q := by
      rintro rfl
      rw [hq] at hnp
      cases hnp
    exact (update_of_ne hne _ _).trans hnp
  | @yield p x =>
    refine .of_forks (fun np e => ?_) rfl rfl rfl
    have hnp : d.state np = .used := hk.forks np e
    have hne : np ≠ p := by
      rintro rfl
      rw [hrun np rfl rfl] at hnp
      cases hnp
    exact (update_of_ne hne _ _).trans hnp
  | found hq =>
    refine .of_forks (fun np e => ?_) rfl rfl rfl
    cases e
    exact hq
  | used =>
    refine .of_forks (fun np e => ?_) rfl rfl rfl
    cases e
    exact update_self ..
  | copied | allocFile | allocInode | wakeSelf | woken => exact .of_forks hk.forks rfl rfl rfl
  | reap hq =>
    refine ⟨fun np e => (by cases e), fun q e => ?_, fun i e => (by cases e), rfl⟩
    cases e
    exact hq
  | last hi =>
    refine ⟨fun np e => (by cases e), fun q e => (by cases e), fun i e => ?_, rfl⟩
    cases e
    exact hi
  | @putSleep p i hl => exact absurd (hb.slock_free hk (hr p rfl)) hl
  | _ => exact .of_forks (fun np e => by cases e) rfl rfl rfl

end Xv6.Locks
