import Xv6.Lib.Trans
import Xv6.Vm.Space
import Mathlib.Algebra.BigOperators.Group.Finset.Basic
import Mathlib.Algebra.Order.BigOperators.Group.Finset
import Mathlib.Data.Set.Card

/-!
# Pages are conserved

Processes are created, fork, execute files, grow, shrink, fault, exit and are waited for, and pipes are
created and closed, in any order. Between two operations every page has one owner (`pages_conserved`),
and the page table of every process in use fits its size (`address_space_invariant`).
-/

namespace Xv6

open List

/-! ## The operations -/

inductive SpaceCall
  | allocproc
  | kfork (p : Slot)
  | kexec (p : Slot) (file : Option ElfFile) (argv : List Arg)
  | growproc (p : Slot) (n : ℤ)
  | sbrk (p : Slot) (n t : ℤ)
  | vmfault (p : Slot) (va : ℕ)
  | kexit (p : Slot)
  | kwait (p : Slot) (addr : ℕ) (pp : Slot) (xstate : List UInt8)
  | pipealloc (k : ℕ) (files : Bool)
  | pipeclose (k : ℕ) (writable : Bool)

/-- A process that makes system calls. -/
def Space.Live (s : Space) (p : Slot) : Prop := (s.proc p).state ≠ .unused ∧ (s.proc p).state ≠ .zombie

namespace SpaceCall

def exec : SpaceCall → SpM ℤ
  | .allocproc => do
    match ← Space.allocproc with
    | none => pure (-1)
    | some p => return (p.val : ℤ)
  | .kfork p => Space.kfork p
  | .kexec p file argv => Space.kexec p file argv
  | .growproc p n => Space.growproc p n
  | .sbrk p n t => Space.sysSbrk p n t
  | .vmfault p va => Space.fault p va
  | .kexit p => Space.kexit p
  | .kwait p addr pp xstate => Space.kwait p addr pp xstate
  | .pipealloc k files => Space.pipealloc k files
  | .pipeclose k writable => Space.pipeclose k writable

/-- Calls are made by live processes, `kwait` has found a zombie, a new pipe has a new name, and an end of
a pipe is closed once. -/
def Legal (s : Space) : SpaceCall → Prop
  | .allocproc => True
  | .kfork p | .kexec p _ _ | .growproc p _ | .sbrk p _ _ | .vmfault p _ | .kexit p => s.Live p
  | .kwait p _ pp _ => s.Live p ∧ (s.proc pp).state = .zombie
  | .pipealloc k _ => (s.pipe k).readopen = false ∧ (s.pipe k).writeopen = false
  | .pipeclose k writable => (if writable then (s.pipe k).writeopen else (s.pipe k).readopen) = true

end SpaceCall

/-- A legal call returns. -/
def SpaceStep (s : Space) (es : List (SpaceCall × ℤ)) (s' : Space) : Prop :=
  ∃ c r, es = [(c, r)] ∧ c.Legal s ∧ c.exec s = (.ok r, s')

/-- The state after boot: no process and no pipe. The pages that are not free belong to the kernel. -/
structure Space.Booted (s : Space) : Prop where
  fresh : s.vm.Fresh
  trampoline : s.trampoline < 2 ^ 64
  procs : ∀ p, s.proc p = ⟨.unused, 0, 0, 0⟩
  pipes : ∀ k, s.pipe k = ⟨0, false, false⟩

variable {s s₀ : Space} {p : Slot} {pa : ℕ}

/-- Every call keeps the invariant and does not panic. -/
theorem SpaceCall.wp_exec {E : VmPanic → Space → Prop} (c : SpaceCall) (h : s₀.Inv s) (hl : c.Legal s) :
    Prog.wp c.exec (fun _ s' => s₀.Inv s') E s := by
  have hpipe : ∀ k, (s.pipe k).readopen = false ∧ (s.pipe k).writeopen = false → (s.pipe k).page = 0 :=
    fun k hk => by
      by_contra hne
      simpa [hk.1, hk.2] using (h.pipes k).1 hne
  cases c with
  | allocproc =>
    refine Prog.wp_call h.wp_allocproc fun r s' h' => ?_
    cases r <;> exact h'.1
  | kfork p => exact h.wp_kfork (h.inUse hl.1)
  | kexec p file argv => exact h.wp_kexec (h.inUse hl.1) file argv
  | growproc p n => exact h.wp_growproc (h.inUse hl.1) n
  | sbrk p n t => exact h.wp_sysSbrk (h.inUse hl.1) n t
  | vmfault p va => exact h.wp_fault (h.inUse hl.1) va
  | kexit p => exact h.wp_kexit (h.inUse hl.1)
  | kwait p addr pp xstate =>
    exact h.wp_kwait (h.inUse hl.1.1) (h.inUse (by rw [hl.2]; nofun)) addr xstate
  | pipealloc k files => exact h.wp_pipealloc (hpipe k hl) files
  | pipeclose k writable =>
    refine h.wp_pipeclose ((h.pipes k).2 ?_) writable
    cases writable
    · exact .inl hl
    · exact .inr hl

theorem Space.Booted.inv (hb : s.Booted) : s.Inv s := by
  have hpos := zero_notMem_frames hb.fresh.kend
  have hroot : s.roots = fun _ => 0 := by
    funext t
    cases t with
    | none => rfl
    | some p => rw [Space.roots, Option.elim, hb.procs]
  -- only the pages of the kernel are owned
  have hrefs : ∀ q, refs userPages s.roots (s.places s) s.vm q = 0 ∨
      ∃ pa, q = .inr (.boot pa) ∧ refs userPages s.roots (s.places s) s.vm q = pa ∧
        pa ∈ frames s.vm.kend ∧ pa ∉ s.vm.free := by
    intro q
    rcases q with ⟨t, path⟩ | ⟨p⟩ | ⟨k⟩ | ⟨pa⟩
    · simp only [refs, hroot, Vm.node_zero, ite_self, true_or]
    · simp only [refs, Space.places, hb.procs, true_or]
    · simp only [refs, Space.places, hb.pipes, true_or]
    · simp only [refs, Space.places]
      split
      · exact .inr ⟨pa, rfl, rfl, ‹_›⟩
      · exact .inl rfl
  refine ⟨⟨hb.fresh.kend, ⟨hpos, fun q hq => ?_, fun q q' e hq => ?_,
    fun pa hF => absurd hF (Set.notMem_empty pa), fun pa hpa => ⟨fun hf => ?_, ?_⟩⟩,
    fun t path i _ => .inl ?_, hb.fresh.nodup, hb.fresh.free⟩, rfl, hb.trampoline,
    fun p => .inl (hb.procs p), fun k => by simp [hb.pipes k]⟩
  · obtain ⟨pa, -, e, hpa, -⟩ := (hrefs q).resolve_left hq
    rwa [e]
  · obtain ⟨pa, rfl, e₁, -⟩ := (hrefs q).resolve_left hq
    rw [e] at hq
    obtain ⟨pa', rfl, e₂, -⟩ := (hrefs q').resolve_left hq
    rw [← e₁, ← e₂, e]
  · refine .inl ⟨.inr (.boot pa), ?_⟩
    simp only [refs, Space.places]
    rw [if_pos ⟨hpa, hf⟩]
  · rintro (⟨q, rfl⟩ | hF)
    · rcases hrefs q with e | ⟨pa, -, e, -, hf⟩
      · rw [e] at hpa
        exact absurd hpa hpos
      · rwa [e]
    · exact absurd hF (Set.notMem_empty pa)
  · rw [hroot, Vm.node_zero, Vm.ent_zero]

theorem Space.Booted.run {cs : List (SpaceCall × ℤ)} (hb : s₀.Booted) (hr : Trans.Run SpaceStep s₀ cs s) :
    s₀.Inv s := by
  refine hr.invariant (I := fun _ s => s₀.Inv s) hb.inv ?_
  rintro _ s _ s' h ⟨c, r, -, hl, he⟩
  obtain ⟨r', s₁, e, h'⟩ := Prog.wp_total (c.wp_exec h hl)
  cases he.symm.trans e
  exact h'

/-- A machine with fourteen free pages. -/
def fourteenPages : Space where
  vm := ⟨fun _ => Bytes.zero, (List.range 14).map fun i => 0x80001000 + 4096 * i, fun _ => false,
    0x80001000⟩
  proc _ := ⟨.unused, 0, 0, 0⟩
  pipe _ := ⟨0, false, false⟩
  trampoline := 0x80000000

theorem fourteenPages_booted : fourteenPages.Booted := by
  refine ⟨⟨by decide, by decide, fun pa hpa => ?_⟩, by decide, fun _ => rfl, fun _ => rfl⟩
  obtain ⟨i, hi, rfl⟩ := mem_map.1 hpa
  have hlt := mem_range.1 hi
  refine ⟨by omega, ?_, ?_⟩
  · show 0x80001000 ≤ 0x80001000 + 4096 * i
    omega
  · simp only [PHYSTOP, KERNBASE]
    omega

theorem Space.live_of_state {x : ProcState} (h : (s.proc p).state = x) (hx : x ≠ .unused ∧ x ≠ .zombie) :
    s.Live p := by
  rwa [Space.Live, h]

theorem SpaceStep.of_exec {c : SpaceCall} {r : ℤ} (hl : c.Legal s) (he : (c.exec s).1 = .ok r) :
    SpaceStep s [(c, r)] (c.exec s).2 := ⟨c, r, rfl, hl, Prod.ext he rfl⟩

/-- The state after some calls. -/
def Space.after (s : Space) (cs : List SpaceCall) : Space := cs.foldl (fun s c => (c.exec s).2) s

theorem oneProc_run : Trans.Run SpaceStep fourteenPages [(.allocproc, 0)] (fourteenPages.after [.allocproc]) :=
  .single (.of_exec trivial rfl)

theorem onePage_run : Trans.Run SpaceStep fourteenPages [(.allocproc, 0), (.sbrk 0 4096 1, 0)]
    (fourteenPages.after [.allocproc, .sbrk 0 4096 1]) :=
  oneProc_run.tail (.of_exec (Space.live_of_state (x := .used) rfl (by decide)) rfl)

theorem fork_run : Trans.Run SpaceStep fourteenPages
    [(.allocproc, 0), (.sbrk 0 4096 1, 0), (.kfork 0, 1), (.kexit 1, 0)]
    (fourteenPages.after [.allocproc, .sbrk 0 4096 1, .kfork 0, .kexit 1]) := by
  have h₃ : SpaceStep (fourteenPages.after [.allocproc, .sbrk 0 4096 1]) [(.kfork 0, 1)]
      (fourteenPages.after [.allocproc, .sbrk 0 4096 1, .kfork 0]) :=
    .of_exec (Space.live_of_state (x := .used) rfl (by decide)) rfl
  have h₄ : SpaceStep (fourteenPages.after [.allocproc, .sbrk 0 4096 1, .kfork 0]) [(.kexit 1, 0)]
      (fourteenPages.after [.allocproc, .sbrk 0 4096 1, .kfork 0, .kexit 1]) :=
    .of_exec (Space.live_of_state (x := .runnable) rfl (by decide)) rfl
  exact (onePage_run.tail h₃).tail h₄

/-! ## The address spaces -/

/-- **The address-space invariant.** After any sequence of calls, every process in use has a size of at
most `TRAPFRAME`, no page mapped below `TRAPFRAME` above its size, and the two pages at the top mapped
without `PTE_U`; and no call by a live process panics. -/
theorem address_space_invariant {cs : List (SpaceCall × ℤ)} (hb : s₀.Booted)
    (hr : Trans.Run SpaceStep s₀ cs s) :
    (∀ p, (s.proc p).state ≠ .unused → (s.proc p).sz ≤ TRAPFRAME ∧
      (∀ va < TRAPFRAME, has (s.vm.leaf (s.proc p).pagetable va) PTE_V = true →
        va < PGROUNDUP (s.proc p).sz) ∧
      ∀ va ∈ [TRAMPOLINE, TRAPFRAME], has (s.vm.leaf (s.proc p).pagetable va) PTE_V = true ∧
        has (s.vm.leaf (s.proc p).pagetable va) PTE_U = false) ∧
    ∀ c : SpaceCall, c.Legal s → ∃ r s', c.exec s = (.ok r, s') := by
  have h := hb.run hr
  refine ⟨fun p hp => ?_, fun c hl => ?_⟩
  · have hu := (h.inUse hp).2.2
    refine ⟨hu.size, fun va hva hv => ?_, fun va hva => ?_⟩
    · by_contra hge
      have := hu.not_valid (by omega) hva
      rw [show s.roots (some p) = (s.proc p).pagetable from rfl, hv] at this
      cases this
    · have hmax : TRAPFRAME ≤ va ∧ va < MAXVA := by
        rcases List.mem_pair.1 hva with rfl | rfl <;> decide
      refine ⟨?_, hu.not_user hmax.1 hmax.2⟩
      rcases List.mem_pair.1 hva with rfl | rfl
      · exact (congrArg (has · PTE_V) hu.tramp).trans has_leafEntry
      · exact (congrArg (has · PTE_V) hu.frame).trans has_leafEntry
  · obtain ⟨r, s', e, -⟩ := Prog.wp_total (c.wp_exec h hl)
    exact ⟨r, s', e⟩

/-- After the run, the parent may wait for its child. -/
theorem address_space_invariant_fork :
    ∃ s, Trans.Run SpaceStep fourteenPages
        [(.allocproc, 0), (.sbrk 0 4096 1, 0), (.kfork 0, 1), (.kexit 1, 0)] s ∧
      (s.proc 0).sz = 4096 ∧
      (∀ va < TRAPFRAME, has (s.vm.leaf (s.proc 0).pagetable va) PTE_V = true → va < 4096) ∧
      ∃ r s', (SpaceCall.kwait 0 0 1 []).exec s = (.ok r, s') := by
  obtain ⟨hp, hc⟩ := address_space_invariant fourteenPages_booted fork_run
  have hl : Space.Live (fourteenPages.after [.allocproc, .sbrk 0 4096 1, .kfork 0, .kexit 1]) 0 :=
    Space.live_of_state (x := .used) rfl (by decide)
  exact ⟨_, fork_run, rfl, (hp 0 hl.1).2.1, hc _ ⟨hl, rfl⟩⟩

/-! ## The owner of a page -/

inductive Owner
  | free
  | table (p : Slot) (path : List ℕ)
  | user (p : Slot) (va : ℕ)
  | trapframe (p : Slot)
  | pipe (k : ℕ)
  | boot

/-- Who owns the page `pa`, where `s₀` is the state after boot. -/
def Space.Owns (s₀ s : Space) (pa : ℕ) : Owner → Prop
  | .free => pa ∈ s.vm.free
  | .table p path => (s.proc p).state ≠ .unused ∧ path.length ≤ 2 ∧
      s.vm.node (s.proc p).pagetable path = pa
  | .user p va => (s.proc p).state ≠ .unused ∧ va < TRAPFRAME ∧ va % PGSIZE = 0 ∧
      has (s.vm.leaf (s.proc p).pagetable va) PTE_V = true ∧
      PTE2PA (s.vm.leaf (s.proc p).pagetable va) = pa
  | .trapframe p => (s.proc p).state ≠ .unused ∧ (s.proc p).trapframe = pa
  | .pipe k => ((s.pipe k).readopen = true ∨ (s.pipe k).writeopen = true) ∧ (s.pipe k).page = pa
  | .boot => pa ∉ s₀.vm.free

namespace Space.Inv

/-- The place that an owner other than the free list has the page `pa` in. -/
def ref (pa : ℕ) : Owner → Option ((Option Slot × List ℕ) ⊕ Keeper)
  | .free => none
  | .table p path => some (.inl (some p, path))
  | .user p va => some (.inl (some p, place va))
  | .trapframe p => some (.inr (.trapframe p))
  | .pipe k => some (.inr (.pipe k))
  | .boot => some (.inr (.boot pa))

theorem refs_of_owns (hpa : pa ∈ frames s₀.vm.kend) {o : Owner} (ho : s₀.Owns s pa o) :
    ∀ q ∈ ref pa o, refs userPages s.roots (s₀.places s) s.vm q = pa := by
  intro q hq
  cases o with
  | free => cases hq
  | table p path =>
    obtain rfl := Option.mem_some.1 hq
    simp only [refs, depth_userPages.table path ho.2.1, if_true]
    exact ho.2.2
  | user p va =>
    obtain rfl := Option.mem_some.1 hq
    rw [Heap.refs_place (userPages_place ho.2.1), show s.roots (some p) = (s.proc p).pagetable from rfl,
      child, if_pos ho.2.2.2.1]
    exact ho.2.2.2.2
  | trapframe p | pipe k =>
    obtain rfl := Option.mem_some.1 hq
    exact ho.2
  | boot =>
    obtain rfl := Option.mem_some.1 hq
    simp only [refs, places]
    exact if_pos ⟨hpa, ho⟩

theorem owner_unique (h : s₀.Inv s) (hpa : pa ∈ frames s₀.vm.kend) {o o' : Owner}
    (ho : s₀.Owns s pa o) (ho' : s₀.Owns s pa o') : o = o' := by
  have hpa' : pa ∈ frames s.vm.kend := by rwa [h.kend]
  have hne := h.heap.ne_zero hpa'
  -- a page in a place is not free
  have hfree : ∀ o, s₀.Owns s pa o → pa ∈ s.vm.free → o = .free := by
    intro o ho hf
    by_contra hn
    obtain ⟨q, hq⟩ : ∃ q, q ∈ ref pa o := by cases o <;> first | exact absurd rfl hn | exact ⟨_, rfl⟩
    exact h.heap.refs_ne_of_free hf q (refs_of_owns hpa ho q hq)
  by_cases hf : pa ∈ s.vm.free
  · rw [hfree o ho hf, hfree o' ho' hf]
  · have hsame : ref pa o = ref pa o' := by
      cases hq : ref pa o with
      | none => cases o <;> first | exact absurd ho hf | cases hq
      | some q =>
        cases hq' : ref pa o' with
        | none => cases o' <;> first | exact absurd ho' hf | cases hq'
        | some q' =>
          have e := refs_of_owns hpa ho q hq
          have e' := refs_of_owns hpa ho' q' hq'
          exact congrArg some (h.heap.ledger.inj q q' (e.trans e'.symm) (by rwa [e]))
    have hTM : TRAPFRAME < MAXVA := by decide
    cases o <;> cases o' <;> simp only [ref, Option.some.injEq, Sum.inl.injEq, Sum.inr.injEq,
      Prod.mk.injEq, reduceCtorEq, Keeper.trapframe.injEq, Keeper.pipe.injEq] at hsame <;> try rfl
    · rw [hsame.1, hsame.2]
    · have hlen := congrArg List.length hsame.2
      have := ho.2.1
      simp only [place, length_cons, length_nil] at hlen
      omega
    · have hlen := congrArg List.length hsame.2
      have := ho'.2.1
      simp only [place, length_cons, length_nil] at hlen
      omega
    · have hpage := place_inj (hTM.trans' ho.2.1) (hTM.trans' ho'.2.1) hsame.2
      have h₁ := ho.2.2.1
      have h₂ := ho'.2.2.1
      simp only [PGSIZE] at h₁ h₂
      rw [hsame.1]
      congr 1
      omega
    · rw [hsame]
    · rw [hsame]

theorem owns_of_leaf (h : s₀.Inv s) {path : List ℕ} (hne : pa ≠ 0) (hp : (s.proc p).state ≠ .unused)
    (hlen : path.length = 3) (hu : userPages path = true)
    (e : s.vm.node (s.proc p).pagetable path = pa) : ∃ va, s₀.Owns s pa (.user p va) := by
  obtain ⟨i, j, k, rfl⟩ := length_eq_three.1 hlen
  have hnode : s.vm.node (s.proc p).pagetable [i, j, k] =
      child (s.vm.ent (s.vm.node (s.roots (some p)) [i, j]) k) := rfl
  have hv : has (s.vm.ent (s.vm.node (s.roots (some p)) [i, j]) k) PTE_V = true := by
    by_contra hv
    rw [hnode, child, if_neg hv] at e
    exact hne e.symm
  obtain ⟨va, hva, hal, hplace⟩ := h.heap.place_of_valid hv
  have hlt : va < TRAPFRAME := by
    by_contra hge
    have hpage : va = TRAPFRAME ∨ va = TRAMPOLINE := by
      simp only [TRAPFRAME, TRAMPOLINE, MAXVA, PGSIZE] at *
      omega
    rw [← hplace] at hu
    rcases hpage with rfl | rfl
    · rw [not_userPages_trapframe] at hu
      cases hu
    · rw [not_userPages_trampoline] at hu
      cases hu
  simp only [place, List.cons.injEq, and_true] at hplace
  obtain ⟨rfl, rfl, rfl⟩ := hplace
  refine ⟨va, hp, hlt, hal, hv, ?_⟩
  rw [hnode, child, if_pos hv] at e
  exact e

theorem exists_owner (h : s₀.Inv s) (hpa : pa ∈ frames s₀.vm.kend) : ∃ o, s₀.Owns s pa o := by
  have hpa' : pa ∈ frames s.vm.kend := by rwa [h.kend]
  have hne := h.heap.ne_zero hpa'
  -- what a process without memory refers to
  have huse : ∀ p, (s.proc p).pagetable ≠ 0 ∨ (s.proc p).trapframe ≠ 0 → (s.proc p).state ≠ .unused :=
    fun p hp e => by simp [h.unused e] at hp
  by_cases hf : pa ∈ s.vm.free
  · exact ⟨.free, hf⟩
  · obtain ⟨q, e⟩ := ((h.heap.ledger.used_iff pa hpa').1 hf).resolve_right (Set.notMem_empty pa)
    rcases q with ⟨_ | p, path⟩ | ⟨p⟩ | ⟨k⟩ | ⟨pa'⟩
    · simp only [refs, roots, Option.elim, Vm.node_zero, ite_self] at e
      exact absurd e.symm hne
    · by_cases ho : userPages path = true
      · simp only [refs, ho, if_true, roots, Option.elim] at e
        have hp : (s.proc p).state ≠ .unused := huse p (.inl fun e₀ => by
          rw [e₀, Vm.node_zero] at e
          exact hne e.symm)
        by_cases hlen : path.length ≤ 2
        · exact ⟨.table p path, hp, hlen, e⟩
        · have := depth_userPages.leaf path ho
          obtain ⟨va, hva⟩ := h.owns_of_leaf hne hp (by omega) ho e
          exact ⟨.user p va, hva⟩
      · simp only [refs, if_neg ho] at e
        exact absurd e.symm hne
    · have e' : (s.proc p).trapframe = pa := e
      exact ⟨.trapframe p, huse p (.inr (by rwa [e'])), e'⟩
    · have e' : (s.pipe k).page = pa := e
      exact ⟨.pipe k, (h.pipes k).1 (by rwa [e']), e'⟩
    · simp only [refs, places] at e
      split at e
      · rename_i hb
        exact ⟨.boot, e ▸ hb.2⟩
      · exact absurd e.symm hne

theorem existsUnique_owner (h : s₀.Inv s) (hpa : pa ∈ frames s₀.vm.kend) : ∃! o, s₀.Owns s pa o := by
  obtain ⟨o, ho⟩ := h.exists_owner hpa
  exact ⟨o, ho, fun o' ho' => h.owner_unique hpa ho' ho⟩

end Space.Inv

/-! ## Counting -/

/-- The process that an owner belongs to. -/
def Owner.slot : Owner → Option Slot
  | .table p _ | .user p _ | .trapframe p => some p
  | .free | .pipe _ | .boot => none

/-- The pages that a process holds. -/
def Space.held (s₀ s : Space) (p : Slot) : Set ℕ :=
  {pa | pa ∈ frames s₀.vm.kend ∧ ∃ o : Owner, o.slot = some p ∧ s₀.Owns s pa o}

/-- The pages of the open pipes. -/
def Space.piped (s₀ s : Space) : Set ℕ :=
  {pa | pa ∈ frames s₀.vm.kend ∧ ∃ k, s₀.Owns s pa (.pipe k)}

namespace Space.Inv

/-- A page that is not the kernel's was free after boot. -/
theorem mem_free_of_owns (h : s₀.Inv s) (hpa : pa ∈ frames s₀.vm.kend) {o : Owner}
    (ho : s₀.Owns s pa o) (hne : o ≠ .boot) : pa ∈ s₀.vm.free := by
  by_contra hb
  have hboot : s₀.Owns s pa .boot := hb
  exact hne (h.owner_unique hpa ho hboot)

open Classical in
/-- The pages that were free after boot are free, or in a pipe, or held by one process. -/
theorem count (h : s₀.Inv s) (hf : s₀.vm.Fresh) :
    s.vm.free.length + (s₀.piped s).ncard + ∑ p, (s₀.held s p).ncard = s₀.vm.free.length := by
  have hfree : ∀ pa ∈ s.vm.free, pa ∈ frames s₀.vm.kend := fun pa hpa => by
    rw [← h.kend]
    exact h.heap.free pa hpa
  -- a set of pages that were free after boot, as a finite set
  have hset : ∀ S : Set ℕ, (∀ pa ∈ S, pa ∈ s₀.vm.free) →
      S.ncard = (s₀.vm.free.toFinset.filter (· ∈ S)).card := fun S hS => by
    rw [← Set.ncard_coe_finset]
    congr 1
    ext pa
    simp only [Finset.coe_filter, mem_toFinset, Set.mem_ofPred_eq]
    exact ⟨fun hpa => ⟨hS pa hpa, hpa⟩, And.right⟩
  have hpiped : ∀ pa ∈ s₀.piped s, pa ∈ s₀.vm.free := fun pa ⟨hpa, k, ho⟩ =>
    h.mem_free_of_owns hpa ho nofun
  have hheld : ∀ p, ∀ pa ∈ s₀.held s p, pa ∈ s₀.vm.free := fun p pa ⟨hpa, o, hs, ho⟩ =>
    h.mem_free_of_owns hpa ho fun e => by rw [e] at hs; cases hs
  have hpart : s₀.vm.free.toFinset = s.vm.free.toFinset ∪ s₀.vm.free.toFinset.filter (· ∈ s₀.piped s) ∪
      Finset.univ.biUnion fun p => s₀.vm.free.toFinset.filter (· ∈ s₀.held s p) := by
    ext pa
    simp only [Finset.mem_union, Finset.mem_biUnion, Finset.mem_univ, true_and, Finset.mem_filter,
      mem_toFinset]
    refine ⟨fun hpa => ?_, ?_⟩
    · have hfr := hf.free pa hpa
      obtain ⟨o, ho⟩ := h.exists_owner hfr
      cases o with
      | free => exact .inl (.inl ho)
      | table p path | user p va | trapframe p => exact .inr ⟨p, hpa, hfr, _, rfl, ho⟩
      | pipe k => exact .inl (.inr ⟨hpa, hfr, k, ho⟩)
      | boot => exact absurd hpa ho
    · rintro ((hpa | hpa) | ⟨p, hpa, -⟩)
      · exact h.mem_free_of_owns (hfree pa hpa) (o := .free) hpa nofun
      · exact hpa.1
      · exact hpa
  have hd₁ : Disjoint s.vm.free.toFinset (s₀.vm.free.toFinset.filter (· ∈ s₀.piped s)) := by
    refine Finset.disjoint_left.2 fun pa h₁ h₂ => ?_
    obtain ⟨hfr, k, ho⟩ := (Finset.mem_filter.1 h₂).2
    cases h.owner_unique hfr (o := .free) (mem_toFinset.1 h₁) ho
  have hd₂ : Disjoint (s.vm.free.toFinset ∪ s₀.vm.free.toFinset.filter (· ∈ s₀.piped s))
      (Finset.univ.biUnion fun p => s₀.vm.free.toFinset.filter (· ∈ s₀.held s p)) := by
    rw [Finset.disjoint_biUnion_right]
    intro p _
    rw [Finset.disjoint_left]
    intro pa h₁ h₂
    obtain ⟨hfr, o, hs, ho⟩ := (Finset.mem_filter.1 h₂).2
    rcases Finset.mem_union.1 h₁ with h₁ | h₁
    · rw [← h.owner_unique hfr (o := .free) (mem_toFinset.1 h₁) ho] at hs
      cases hs
    · obtain ⟨-, k, ho'⟩ := (Finset.mem_filter.1 h₁).2
      rw [← h.owner_unique hfr ho' ho] at hs
      cases hs
  have hd₃ : ∀ p ∈ Finset.univ, ∀ q ∈ Finset.univ, p ≠ q →
      Disjoint (s₀.vm.free.toFinset.filter (· ∈ s₀.held s p))
        (s₀.vm.free.toFinset.filter (· ∈ s₀.held s q)) := by
    intro p _ q _ hne
    rw [Finset.disjoint_left]
    intro pa h₁ h₂
    obtain ⟨hfr, o, hs, ho⟩ := (Finset.mem_filter.1 h₁).2
    obtain ⟨-, o', hs', ho'⟩ := (Finset.mem_filter.1 h₂).2
    rw [h.owner_unique hfr ho ho', hs'] at hs
    exact hne (Option.some.inj hs).symm
  calc s.vm.free.length + (s₀.piped s).ncard + ∑ p, (s₀.held s p).ncard
      = s.vm.free.toFinset.card + (s₀.vm.free.toFinset.filter (· ∈ s₀.piped s)).card +
          ∑ p, (s₀.vm.free.toFinset.filter (· ∈ s₀.held s p)).card := by
        rw [toFinset_card_of_nodup h.heap.nodup, hset _ hpiped,
          Finset.sum_congr rfl fun p _ => hset _ (hheld p)]
    _ = s₀.vm.free.toFinset.card := by
        rw [← Finset.card_union_of_disjoint hd₁, ← Finset.card_biUnion hd₃,
          ← Finset.card_union_of_disjoint hd₂, ← hpart]
    _ = s₀.vm.free.length := toFinset_card_of_nodup hf.nodup

theorem held_unused (hp : (s.proc p).state = .unused) : s₀.held s p = ∅ := by
  refine Set.eq_empty_iff_forall_notMem.2 fun pa ⟨hpa, o, hs, ho⟩ => ?_
  cases o with
  | free | pipe k | boot => cases hs
  | table q path | user q va | trapframe q =>
    obtain rfl := Option.some.inj hs
    exact ho.1 hp

end Space.Inv

/-- **Pages are conserved.** After any sequence of calls, each of which may fail at any request for a
page, the free list has no duplicates and every page has exactly one owner, and no call panics. The free
pages, those of open pipes and those that the processes hold add up to the free pages after boot. So, when
the processes and pipes created since the state `s₁` are gone, and those that were there hold as many
pages as then, `kfreepages` returns what it did in `s₁`. -/
theorem pages_conserved {cs : List (SpaceCall × ℤ)} (hb : s₀.Booted)
    (hr : Trans.Run SpaceStep s₀ cs s) :
    s.vm.free.Nodup ∧ (∀ pa ∈ s.vm.free, pa ∈ frames s₀.vm.kend) ∧
    (∀ pa ∈ frames s₀.vm.kend, ∃! o, s₀.Owns s pa o) ∧
    (∀ c : SpaceCall, c.Legal s → ∃ r s', c.exec s = (.ok r, s')) ∧
    s.vm.free.length + (s₀.piped s).ncard + ∑ p, (s₀.held s p).ncard = s₀.vm.free.length ∧
    ∀ cs₁ s₁, Trans.Run SpaceStep s₀ cs₁ s₁ →
      (∀ p, (s₁.proc p).state = .unused → (s.proc p).state = .unused) →
      (∀ p, (s₁.proc p).state ≠ .unused → (s₀.held s p).ncard = (s₀.held s₁ p).ncard) →
      (s₀.piped s).ncard = (s₀.piped s₁).ncard → (kfreepages s.vm).1 = (kfreepages s₁.vm).1 := by
  have h := hb.run hr
  refine ⟨h.heap.nodup, fun pa hpa => ?_, fun pa hpa => h.existsUnique_owner hpa, fun c hl => ?_,
    h.count hb.fresh, fun cs₁ s₁ hr₁ hgone hsame hpipes => ?_⟩
  · rw [← h.kend]
    exact h.heap.free pa hpa
  · obtain ⟨r, s', e, -⟩ := Prog.wp_total (c.wp_exec h hl)
    exact ⟨r, s', e⟩
  · have h₁ := hb.run hr₁
    have hheld : ∀ p, (s₀.held s p).ncard = (s₀.held s₁ p).ncard := fun p => by
      by_cases hp : (s₁.proc p).state = .unused
      · rw [Space.Inv.held_unused (hgone p hp), Space.Inv.held_unused hp]
      · exact hsame p hp
    have hc := h.count hb.fresh
    have hc₁ := h₁.count hb.fresh
    rw [Finset.sum_congr rfl fun p _ => hheld p, hpipes] at hc
    show (Except.ok (s.vm.free.length % 2 ^ 32) : Except VmPanic ℕ) = .ok (s₁.vm.free.length % 2 ^ 32)
    rw [show s.vm.free.length = s₁.vm.free.length by omega]

/-- The parent waits for its child, and every page has one owner again. -/
theorem pages_conserved_fork :
    ∃ r s, Trans.Run SpaceStep fourteenPages
        [(.allocproc, 0), (.sbrk 0 4096 1, 0), (.kfork 0, 1), (.kexit 1, 0), (.kwait 0 0 1 [], r)] s ∧
      s.vm.free.Nodup ∧ ∀ pa ∈ frames 0x80001000, ∃! o, fourteenPages.Owns s pa o := by
  have hl : Space.Live (fourteenPages.after [.allocproc, .sbrk 0 4096 1, .kfork 0, .kexit 1]) 0 :=
    Space.live_of_state (x := .used) rfl (by decide)
  have hc : (SpaceCall.kwait 0 0 1 []).Legal
      (fourteenPages.after [.allocproc, .sbrk 0 4096 1, .kfork 0, .kexit 1]) := ⟨hl, rfl⟩
  obtain ⟨r, s, e, -⟩ := Prog.wp_total
    (SpaceCall.wp_exec _ (fourteenPages_booted.run fork_run) hc)
  have hr := fork_run.tail ⟨_, r, rfl, hc, e⟩
  obtain ⟨hnd, -, ho, -⟩ := pages_conserved fourteenPages_booted hr
  exact ⟨r, s, hr, hnd, ho⟩

end Xv6
