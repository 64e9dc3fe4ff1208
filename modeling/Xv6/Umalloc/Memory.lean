import Xv6.Umalloc.Integrity
import Xv6.Vm.Pages

/-!
# The memory of a result

`malloc` takes a `uint`, counts in units, and passes 16 times the number of units to `sbrk` as an `int`. From
`2 ^ 27` units on that is another number: for the request `2 ^ 32 - 16` it is 0, `sbrk` succeeds without a new
byte, and `malloc` returns the address of a block of `2 ^ 28` units outside of all memory
(`malloc_outside_memory`). A program runs together with the kernel, whose `sbrk` returns the size of the process
and makes it larger. A call keeps its promise if and only if it finds a free block, `sbrk` fails, or the `int` is
the number of bytes (`malloc_in_memory`).
-/

namespace Xv6

open Prog

namespace Umalloc

theorem wp_allocLoop_result {pagetable start newsz xperm fuel a : ℕ} {s : Vm} :
    wp (allocLoop pagetable start newsz xperm fuel a) (fun r _ => r = 0 ∨ r = newsz) (fun _ _ => True) s := by
  induction fuel generalizing a s with
  | zero => trivial
  | succ fuel ih =>
    rw [allocLoop, wp_ite]
    split
    · exact .inr rfl
    refine wp_bind.2 (wp_any fun page s₁ => ?_)
    rw [wp_ite]
    split
    · exact wp_bind.2 (wp_any fun _ _ => .inl rfl)
    refine wp_bind.2 (wp_any fun _ s₂ => wp_bind.2 (wp_any fun r s₃ => ?_))
    rw [wp_ite]
    split
    · exact wp_bind.2 (wp_any fun _ _ => wp_bind.2 (wp_any fun _ _ => .inl rfl))
    · exact ih

/-- `sbrk` fails and changes no process, or returns the size of the process. -/
theorem wp_sysSbrk_addr {p : Slot} {n : ℤ} {s : Space} :
    wp (Space.sysSbrk p n Space.SBRK_EAGER)
      (fun r s' => r = -1 ∧ s'.proc = s.proc ∨ r ≠ -1 ∧ r = (s.proc p).sz) (fun _ _ => True) s := by
  have hne : ((s.proc p).sz : ℤ) ≠ -1 := by omega
  unfold Space.sysSbrk Space.growproc
  rw [wp_bind, wp_get, if_pos (.inl rfl), wp_bind, wp_bind, wp_get, wp_ite]
  split
  · rw [wp_ite]
    split
    · exact .inl ⟨rfl, rfl⟩
    · rw [wp_bind, Space.call, wp_zoom]
      refine wp_any fun sz vm => ?_
      rw [wp_ite]
      split
      · exact .inl ⟨rfl, rfl⟩
      · exact .inr ⟨hne, rfl⟩
  · rw [wp_ite]
    split
    · rw [wp_bind, Space.call, wp_zoom]
      exact wp_any fun sz vm => .inr ⟨hne, rfl⟩
    · exact .inr ⟨hne, rfl⟩

/-- `sbrk` of a positive number of bytes makes the process larger by them if it succeeds. -/
theorem wp_sysSbrk_result {p : Slot} {n : ℤ} {s : Space} (hn : 0 < n) (hlt : n < 2 ^ 31)
    (hsz : (s.proc p).sz ≤ TRAPFRAME) :
    wp (Space.sysSbrk p n Space.SBRK_EAGER) (fun r s' => r = -1 ∨
      (s'.proc p).sz = (s.proc p).sz + n ∧ (s'.proc p).sz ≤ TRAPFRAME) (fun _ _ => True) s := by
  have htop : TRAPFRAME < 2 ^ 38 := by decide
  have hadd : (Space.addInt (s.proc p).sz n : ℤ) = (s.proc p).sz + n := by
    unfold Space.addInt
    omega
  unfold Space.sysSbrk Space.growproc
  rw [wp_bind, wp_get, if_pos (.inl rfl), wp_bind, wp_bind, wp_get, if_pos hn, wp_ite]
  split
  · exact .inl rfl
  · rw [wp_bind, Space.call, wp_zoom, uvmalloc, if_neg (by omega), wp_bind, wp_get]
    refine wp_mono wp_allocLoop_result (fun r s₁ hr => ?_) fun _ _ h => h
    rw [wp_ite]
    split
    · exact .inl rfl
    · rename_i hne
      obtain rfl := hr.resolve_left hne
      refine .inr ⟨by simpa [Space.setProc] using hadd, ?_⟩
      simp only [Space.setProc, Function.update_self]
      omega

/-! ## A request that `sbrk` misunderstands -/

section

variable {nu fuel prevp p a : ℕ} {h : Heap}

theorem wp_take_mem : wp (take nu prevp p) (fun _ h' => h'.mem = h.mem ∧ h'.answers = h.answers)
    (fun _ _ => True) h := by
  unfold take
  rw [wp_bind, wp_get, wp_ite]
  split <;> exact ⟨rfl, rfl⟩

/-- Without another answer of `sbrk` there is no new memory. -/
theorem wp_mallocLoop_unanswered (hans : h.answers = []) :
    wp (mallocLoop nu fuel prevp p) (fun _ h' => h'.mem = h.mem ∧ h'.answers = []) (fun _ _ => True) h := by
  induction fuel generalizing prevp p with
  | zero => trivial
  | succ fuel ih =>
    rw [mallocLoop, wp_bind, wp_get, wp_ite]
    split
    · refine wp_mono wp_take_mem (fun _ h' ht => ?_) fun _ _ he => he
      exact ⟨ht.1, ht.2.trans hans⟩
    · rw [wp_ite]
      split
      · unfold morecore sbrk
        simp only [wp_bind, wp_get, hans]
        trivial
      · exact ih

/-- Where no block is large enough, `malloc` gets the region that the `int` stands for. -/
theorem wp_mallocLoop_region (hans : h.answers = [some a]) (hfit : ∀ k, h.size (h.ptr^[k] p) < nu) :
    wp (mallocLoop nu fuel prevp p) (fun _ h' => h'.answers = [] ∧
      h'.mem = (a, (int (grain nu * 16)).toNat) :: h.mem) (fun _ _ => True) h := by
  induction fuel generalizing prevp p with
  | zero => trivial
  | succ fuel ih =>
    have hp : h.size p < nu := hfit 0
    rw [mallocLoop, wp_bind, wp_get, wp_ite, if_neg (by omega), wp_ite]
    split
    · rw [wp_bind]
      unfold morecore
      rw [wp_bind]
      refine wp_sbrk_some hans ?_
      rw [wp_bind, wp_modify, wp_bind]
      unfold free
      rw [wp_bind, wp_get]
      -- `free` puts the block into the list, or does not find its place
      split
      · trivial
      · rw [wp_modify, wp_bind, wp_get, wp_pure, wp_bind, wp_get]
        refine wp_mono (wp_mallocLoop_unanswered ?_) (fun _ h' ht => ⟨ht.2, ht.1.trans ?_⟩) fun _ _ he => he
        · exact insertBlock_mem.2
        · exact insertBlock_mem.1
    · refine ih fun k => ?_
      have := hfit (k + 1)
      rwa [Function.iterate_succ_apply] at this

/-- If no free block is large enough, `malloc` records the region that `sbrk` returned. -/
theorem wp_malloc_region {base fuel n a : ℕ} {h : Heap}
    (hfit : ¬ ((h.answering (some a)).start base).Fits (units n)) :
    wp (malloc base fuel n) (fun _ h' => h'.answers = [] ∧
      h'.mem = (a, (int (grain (units n) * 16)).toNat) :: h.mem) (fun _ _ => True)
      (h.answering (some a)) := by
  unfold malloc
  rw [wp_bind, wp_modify, wp_bind, wp_get]
  refine wp_mono (wp_mallocLoop_region (a := a) ?_ fun k => ?_) (fun _ h' ht => ?_) fun _ _ he => he
  · rw [start_answers]
    rfl
  · rw [← Function.iterate_succ_apply]
    exact Nat.lt_of_not_le fun hle => hfit ⟨k + 1, hle⟩
  · rwa [start_mem] at ht

end

/-! ## A program and the kernel -/

/-- A program, and the kernel it runs on. -/
structure Host where
  program : Program
  kernel : Space

/-- What `sbrk` returns to the program. -/
def answer (v : ℤ) : Option ℕ := if v = -1 then none else some v.toNat

/-- The kernel's `sbrk` for a request of `n` bytes, if `morecore` calls it. -/
def Asks (p : Slot) (k : Space) (n : ℕ) (v : ℤ) (k' : Space) : Prop :=
  Space.sysSbrk p (int (grain (units n) * 16)) Space.SBRK_EAGER k = (.ok v, k')

/-- A call that the program in the slot `p` makes; between its calls its memory does not get smaller. -/
inductive HostStep (base : ℕ) (p : Slot) (x : Host) : List Call → Host → Prop
  | malloc {v : ℤ} {k' : Space} {res : Option ℕ} {h' : Heap} (fuel n : ℕ) : n < 2 ^ 32 →
      Asks p x.kernel n v k' → Sound base x.program n (answer v) → Small x.program n (answer v) →
      malloc base fuel n (x.program.heap.answering (answer v)) = (.ok res, h') →
      HostStep base p x [.malloc n (answer v)]
        ⟨⟨h', res.toList ++ x.program.live⟩, if h'.answers = [] then k' else x.kernel⟩
  | free {h' : Heap} (fuel a : ℕ) : a ∈ x.program.live → free fuel a x.program.heap = (.ok (), h') →
      HostStep base p x [.free a] ⟨⟨h', x.program.live.erase a⟩, x.kernel⟩
  | kernel {k' : Space} : (x.kernel.proc p).sz ≤ (k'.proc p).sz → (k'.proc p).sz ≤ TRAPFRAME →
      HostStep base p x [] ⟨x.program, k'⟩

/-- The regions from `sbrk` are below the size of the process. -/
structure Host.Below (base : ℕ) (p : Slot) (x : Host) : Prop where
  base : base + 16 ≤ (x.kernel.proc p).sz
  top : (x.kernel.proc p).sz ≤ TRAPFRAME
  mem : ∀ a ∈ x.program.heap.memory, a < (x.kernel.proc p).sz

section

variable {base n : ℕ} {p : Slot} {x x' : Host} {v : ℤ} {k' : Space}

theorem answer_eq_some {a : ℕ} (ha : answer v = some a) : v ≠ -1 ∧ a = v.toNat := by
  unfold answer at ha
  split at ha
  · cases ha
  · exact ⟨‹_›, (Option.some.inj ha).symm⟩

/-- A region that the kernel returns is new. -/
theorem Host.Below.fresh (h : x.Below base p) (hk : Asks p x.kernel n v k') {a : ℕ}
    (ha : answer v = some a) : a = (x.kernel.proc p).sz ∧ x.program.heap.Fresh base a := by
  obtain ⟨hv, rfl⟩ := answer_eq_some ha
  have hsz : v.toNat = (x.kernel.proc p).sz := by
    rcases wp_ok wp_sysSbrk_addr hk with h | h
    · exact absurd h.1 hv
    · rw [h.2, Int.toNat_natCast]
  rw [hsz]
  exact ⟨rfl, h.base, h.mem⟩

/-- With few enough units the process gets what `morecore` records. -/
theorem Host.Below.grown (h : x.Below base p) (hk : Asks p x.kernel n v k') (hv : v ≠ -1)
    (hn : units n * 16 < 2 ^ 31) :
    (k'.proc p).sz = (x.kernel.proc p).sz + 16 * grain (units n) ∧ (k'.proc p).sz ≤ TRAPFRAME := by
  have hg : grain (units n) * 16 < 2 ^ 31 ∧ 0 < grain (units n) := by
    unfold grain
    split <;> omega
  have hint : int (grain (units n) * 16) = 16 * grain (units n) := by
    unfold int
    rw [Int.bmod_eq_of_le (by omega) (by omega)]
    push_cast
    omega
  unfold Asks at hk
  rw [hint] at hk
  obtain ⟨hsz, htop⟩ := (wp_ok (wp_sysSbrk_result (by omega) (by omega) h.top) hk).resolve_left hv
  exact ⟨by omega, htop⟩

/-- The invariant of a run. -/
theorem HostStep.keeps {es : List Call} (hb : 0 < base) (st : HostStep base p x es x')
    (i : Integrity base x.program) (hsmall : x.program.heap.total < 2 ^ 36) (h : x.Below base p) :
    (Integrity base x'.program ∧ x'.program.heap.total < 2 ^ 36) ∧ x'.Below base p := by
  cases st with
  | @malloc v k' res h' fuel n hn hk hsound hs hcall =>
    have hfresh : ∀ a, answer v = some a → x.program.heap.Fresh base a := fun a ha => (h.fresh hk ha).2
    refine ⟨i.step hb hsmall ⟨.malloc fuel n hn hsound hfresh hcall, fun m r e => ?_⟩, ?_⟩
    · cases e
      exact hs
    obtain ⟨k, hw⟩ := i.wp_malloc hb hsmall hn hsound hfresh hs
    have hmem := (returned wp_malloc_mono hw hcall).mem
    rw [start_mem] at hmem
    rcases hmem with ⟨hmem, hno⟩ | ⟨a, ha, hlt, hans, hmem⟩
    · -- `sbrk` was not called, or failed: the size is the same
      have hsame : ((if h'.answers = [] then k' else x.kernel).proc p).sz = (x.kernel.proc p).sz := by
        split
        · rcases hno with hno | hno
          · simp_all
          · rcases wp_ok wp_sysSbrk_addr hk with hf | hf
            · rw [hf.2]
            · rw [answer, if_neg hf.1] at hno
              cases hno
        · rfl
      have hmem' : h'.memory = x.program.heap.memory := congrArg Tiles.covered hmem
      refine ⟨?_, ?_, fun y hy => ?_⟩
      · exact hsame ▸ h.base
      · exact hsame ▸ h.top
      · exact hsame ▸ h.mem y (hmem' ▸ hy)
    · obtain ⟨hv, -⟩ := answer_eq_some ha
      obtain ⟨rfl, -⟩ := h.fresh hk ha
      obtain ⟨hsz, htop⟩ := h.grown hk hv hlt
      simp only [hans, if_true]
      have := h.base
      refine ⟨by simp only; omega, htop, fun y hy => ?_⟩
      simp only [Heap.memory, hmem, Tiles.covered_cons] at hy
      rcases hy with hy | hy
      · have := hy.2
        simp only at this ⊢
        omega
      · have := h.mem y hy
        simp only
        omega
  | free fuel a ha hcall =>
    refine ⟨i.step hb hsmall ⟨.free fuel a ha hcall, fun n r e => by cases e⟩, h.base, h.top, ?_⟩
    obtain ⟨k, hw⟩ := i.wp_free hsmall ha
    obtain ⟨hmem, -⟩ := returned wp_free_mono hw hcall
    have := h.mem
    unfold Heap.memory at this ⊢
    rwa [hmem]
  | kernel hle htop =>
    exact ⟨⟨i, hsmall⟩, h.base.trans hle, htop, fun a ha => (h.mem a ha).trans_le hle⟩

end

/-- What `malloc` promises: the `n` bytes of a result are in memory from `sbrk`, and if `sbrk` was called and
succeeded, the process is larger by the block that was recorded. -/
def Promises (p : Slot) (x : Host) (n : ℕ) (v : ℤ) (k' : Space) (res : Option ℕ) (h' : Heap) : Prop :=
  (∀ q, res = some q → ∀ y, q ≤ y → y < q + n → y ∈ h'.memory) ∧
  (h'.answers = [] → v ≠ -1 →
    h'.mem = ((x.kernel.proc p).sz, 16 * grain (units n)) :: x.program.heap.mem ∧
    (k'.proc p).sz = (x.kernel.proc p).sz + 16 * grain (units n))

/-- **When `malloc` keeps its promise.** A program and the kernel make calls that keep it, and `sbrk` has
returned less than `2 ^ 36` bytes: the next call keeps it if and only if a block of the free list is large
enough, or `sbrk` fails, or 16 times the number of units is less than `2 ^ 31`. -/
theorem malloc_in_memory {base fuel n : ℕ} {p : Slot} {x₀ x : Host} {es : List Call} {v : ℤ} {k' : Space}
    {res : Option ℕ} {h' : Heap} (hb : 0 < base) (h₀ : x₀.program.Start)
    (hsz : base + 16 ≤ (x₀.kernel.proc p).sz) (htop : (x₀.kernel.proc p).sz ≤ TRAPFRAME)
    (hr : Trans.Run (HostStep base p) x₀ es x) (hn : n < 2 ^ 32) (hk : Asks p x.kernel n v k')
    (hs : Small x.program n (answer v))
    (hcall : malloc base fuel n (x.program.heap.answering (answer v)) = (.ok res, h')) :
    Promises p x n v k' res h' ↔ Sound base x.program n (answer v) := by
  have hstart : (Integrity base x₀.program ∧ x₀.program.heap.total < 2 ^ 36) ∧ x₀.Below base p := by
    refine ⟨⟨.inl h₀, by simp [Heap.total, h₀.mem]⟩, hsz, htop, fun a ha => ?_⟩
    simp [Heap.memory, Tiles.covered, h₀.mem] at ha
  obtain ⟨⟨i, hsmall⟩, hbelow⟩ := hr.invariant
    (I := fun _ x => (Integrity base x.program ∧ x.program.heap.total < 2 ^ 36) ∧ x.Below base p) hstart
    fun _ _ _ _ hi st => st.keeps hb hi.1.1 hi.1.2 hi.2
  constructor
  · intro hp
    by_contra hno
    obtain ⟨hfit, hv, hbig⟩ : ¬ ((x.program.heap.answering (answer v)).start base).Fits (units n) ∧
        answer v ≠ none ∧ 2 ^ 31 ≤ units n * 16 := by
      unfold Sound at hno
      exact ⟨fun h => hno (.inl h), fun h => hno (.inr (.inl h)), Nat.le_of_not_lt fun h => hno (.inr (.inr h))⟩
    obtain ⟨a, ha⟩ := Option.ne_none_iff_exists'.1 hv
    -- the region is smaller than the block
    rw [ha] at hfit hcall
    obtain ⟨hans, hmem⟩ := wp_ok (wp_malloc_region hfit) hcall
    have hreg := (hp.2 hans (answer_eq_some ha).1).1
    rw [hmem] at hreg
    have hlen : (int (grain (units n) * 16)).toNat = 16 * grain (units n) := by
      simpa using congrArg Prod.snd (List.cons.inj hreg).1
    have hlt : int (grain (units n) * 16) < 2 ^ 31 := Int.bmod_lt (by decide)
    have := le_grain (units n)
    omega
  · intro hsound
    have hfresh : ∀ a, answer v = some a → x.program.heap.Fresh base a := fun a ha => (hbelow.fresh hk ha).2
    obtain ⟨k, hw⟩ := i.wp_malloc hb hsmall hn hsound hfresh hs
    have hg := returned wp_malloc_mono hw hcall
    refine ⟨fun q hq y hy hlt => ?_, fun hans hv => ?_⟩
    · obtain ⟨b, F, rfl, hsize, hinv⟩ := hg.block q hq
      rw [← hinv.tiles.cover]
      refine ⟨h'.block b, List.mem_map_of_mem (List.mem_append_right F List.mem_cons_self), ?_⟩
      simp only [Heap.block, hsize]
      unfold units
      omega
    · have hmem := hg.mem
      rw [start_mem] at hmem
      rcases hmem with ⟨-, hno | hno⟩ | ⟨a, ha, hlt, -, hmem⟩
      · rw [hans] at hno
        cases hno
      · rw [answer, if_neg hv] at hno
        cases hno
      · obtain ⟨rfl, -⟩ := hbelow.fresh hk ha
        exact ⟨hmem, (hbelow.grown hk hv hlt).1⟩

/-- A machine with thirty free pages and one process `p`, of one page. -/
def thirtyPages (p : Slot) : Space :=
  { fourteenPages with vm := { fourteenPages.vm with
      free := (List.range 30).map fun i => 0x80001000 + 4096 * i } }.after [.allocproc, .sbrk p 4096 1]

/-- A first request for ten bytes: the process grows by 4096 units. -/
theorem malloc_in_memory_ten : ∃ k' res h', Asks 0 (thirtyPages 0) 10 4096 k' ∧
    malloc 16 3 10 (Program.init.heap.answering (answer 4096)) = (.ok res, h') ∧ h'.answers = [] ∧
    Promises 0 ⟨Program.init, thirtyPages 0⟩ 10 4096 k' res h' := by
  have hv : (Space.sysSbrk 0 (int (grain (units 10) * 16)) Space.SBRK_EAGER (thirtyPages 0)).1 = .ok 4096 := by
    decide +kernel
  obtain ⟨k', hk⟩ : ∃ k', Asks 0 (thirtyPages 0) 10 4096 k' := by
    unfold Asks
    generalize Space.sysSbrk 0 (int (grain (units 10) * 16)) Space.SBRK_EAGER (thirtyPages 0) = r at hv
    exact ⟨r.2, Prod.ext hv rfl⟩
  obtain ⟨res, h', hcall, hans⟩ : ∃ res h', malloc 16 3 10 (Program.init.heap.answering (answer 4096)) =
      (.ok res, h') ∧ h'.answers = [] := ⟨_, _, rfl, rfl⟩
  have hsz : ((thirtyPages 0).proc 0).sz = 4096 := by decide +kernel
  have hrun : Trans.Run (HostStep 16 0) ⟨Program.init, thirtyPages 0⟩ [] ⟨Program.init, thirtyPages 0⟩ := .refl
  have hlow : 16 + 16 ≤ ((Host.mk Program.init (thirtyPages 0)).kernel.proc 0).sz := by
    rw [hsz]
    decide
  have htop : ((Host.mk Program.init (thirtyPages 0)).kernel.proc 0).sz ≤ TRAPFRAME := by
    rw [hsz]
    decide
  refine ⟨k', res, h', hk, hcall, hans, ?_⟩
  exact (malloc_in_memory (by decide) Program.start_init hlow htop hrun (by decide) hk
    (fun _ _ => by decide) hcall).2 (.inr (.inr (by decide)))

/-- The request `2 ^ 32 - 16`: the argument of `sbrk` is 0, the kernel succeeds and changes nothing, and `malloc`
returns a pointer. -/
theorem malloc_outside_memory :
    (∀ (p : Slot) (k : Space), Space.sysSbrk p (int (units (2 ^ 32 - 16) * 16)) Space.SBRK_EAGER k = (.ok (k.proc p).sz, k)) ∧
      ∃ h', malloc 16 3 (2 ^ 32 - 16) (Program.init.heap.answering (some 4096)) = (.ok (some 4112), h') ∧
        h'.memory = ∅ := by
  refine ⟨fun p k => rfl, _, rfl, Set.eq_empty_iff_forall_notMem.2 fun x hx => ?_⟩
  obtain ⟨b, hm, hb⟩ := hx
  obtain rfl := List.mem_singleton.1 hm
  change 4096 ≤ x ∧ x < 4096 + 0 at hb
  omega

end Umalloc

end Xv6
