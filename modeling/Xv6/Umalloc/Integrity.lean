import Xv6.Lib.Trans
import Xv6.Umalloc.Calls

/-!
# Integrity of the heap

Runs of a program that calls `malloc` and `free`. A call takes a bound on its number of steps; it returns with
every bound that is large enough, and always with the same result (`wp_malloc_mono`). As long as `sbrk` returned
less than `2 ^ 36` bytes, `Integrity` holds after every call. With more memory the size of a free block, a 32-bit
number of units, can overflow: `overflow_run` frees 33 adjacent blocks of almost `2 ^ 27` units.
-/

namespace Xv6

open Function Prog List Option

namespace Umalloc

variable {base : ℕ} {h : Heap} {F live : List ℕ} {p n m k fuel : ℕ}

/-! ## The bound on the number of steps -/

section Bound

variable {Q : Option ℕ → Heap → Prop}

theorem freeFind_mono {h : Heap} {bp q : ℕ} (hnm : n ≤ m) (hf : freeFind h bp n p = some q) :
    freeFind h bp m p = some q := by
  induction n generalizing m p with
  | zero => exact absurd hf (some_ne_none q).symm
  | succ n ih =>
    obtain ⟨m, rfl⟩ : ∃ m', m = m' + 1 := ⟨m - 1, by omega⟩
    rw [freeFind] at hf ⊢
    split
    · rwa [if_pos ‹_›] at hf
    · rw [if_neg ‹_›] at hf
      exact ih (by omega) hf

theorem wp_free_mono {Q : Unit → Heap → Prop} (hnm : n ≤ m) (hw : wp (free n p) Q (fun _ _ => False) h) :
    wp (free m p) Q (fun _ _ => False) h := by
  unfold free at hw ⊢
  rw [wp_bind, wp_get] at hw ⊢
  cases hf : freeFind h (p - 16) n h.freep with
  | none =>
    rw [hf] at hw
    exact hw.elim
  | some q =>
    rw [hf] at hw
    rwa [freeFind_mono hnm hf]

theorem wp_morecore_mono {nu : ℕ} (hnm : n ≤ m) (hw : wp (morecore n nu) Q (fun _ _ => False) h) :
    wp (morecore m nu) Q (fun _ _ => False) h := by
  unfold morecore at hw ⊢
  rw [wp_bind] at hw ⊢
  refine wp_mono hw (fun r h' hr => ?_) fun _ _ he => he
  cases r with
  | none => exact hr
  | some a =>
    simp only [wp_bind, wp_modify] at hr ⊢
    exact wp_free_mono hnm hr

theorem wp_mallocLoop_mono {nu prevp : ℕ} (hnm : n ≤ m)
    (hw : wp (mallocLoop nu n prevp p) Q (fun _ _ => False) h) :
    wp (mallocLoop nu m prevp p) Q (fun _ _ => False) h := by
  induction n generalizing m prevp p h with
  | zero => exact hw.elim
  | succ n ih =>
    obtain ⟨m, rfl⟩ : ∃ m', m = m' + 1 := ⟨m - 1, by omega⟩
    have hnm' : n ≤ m := by omega
    rw [mallocLoop, wp_bind, wp_get] at hw ⊢
    simp only [wp_ite] at hw ⊢
    split
    · rwa [if_pos ‹_›] at hw
    · rw [if_neg ‹_›] at hw
      split
      · rw [if_pos ‹_›, wp_bind] at hw
        rw [wp_bind]
        refine wp_mono (wp_morecore_mono hnm' hw) (fun r h' hr => ?_) fun _ _ he => he
        cases r with
        | none => exact hr
        | some q =>
          rw [wp_bind, wp_get] at hr ⊢
          exact ih hnm' hr
      · rw [if_neg ‹_›] at hw
        exact ih hnm' hw

theorem wp_malloc_mono (hnm : n ≤ m) (hw : wp (malloc base n k) Q (fun _ _ => False) h) :
    wp (malloc base m k) Q (fun _ _ => False) h := by
  unfold malloc at hw ⊢
  rw [wp_bind, wp_modify, wp_bind, wp_get] at hw ⊢
  exact wp_mallocLoop_mono hnm hw

/-- A call that returns with some bound has every result that it is known to have with another. -/
theorem returned {α : Type} {f : ℕ → HeapM α} {Q : α → Heap → Prop} {a : α} {h' : Heap}
    (hmono : ∀ {n m : ℕ} {Q : α → Heap → Prop}, n ≤ m → wp (f n) Q (fun _ _ => False) h →
      wp (f m) Q (fun _ _ => False) h)
    (hw : wp (f k) Q (fun _ _ => False) h) (hcall : f n h = (.ok a, h')) : Q a h' := by
  have hret : wp (f n) (fun b t => b = a ∧ t = h') (fun _ _ => False) h := by
    unfold wp
    rw [hcall]
    exact ⟨rfl, rfl⟩
  -- the results with the larger of the two bounds
  obtain ⟨b, t, hbt, rfl, rfl⟩ := wp_total (hmono (le_max_left n k) hret)
  exact wp_ok (hmono (le_max_right n k) hw) hbt

end Bound

/-! ## Runs -/

/-- A program: its heap, and the results of `malloc` that it did not free. -/
structure Program where
  heap : Heap
  live : List ℕ

/-- The blocks that are in use. -/
def Program.blocks (s : Program) : List ℕ := s.live.map (· - 16)

/-- No call was made yet. -/
structure Program.Start (s : Program) : Prop where
  freep : s.heap.freep = 0
  mem : s.heap.mem = []
  live : s.live = []

/-- A call, for `malloc` with what `sbrk` answers if it is called. -/
inductive Call
  | malloc (n : ℕ) (answer : Option ℕ)
  | free (p : ℕ)

/-- The heap when `sbrk` answers `r`. -/
def Heap.answering (h : Heap) (r : Option ℕ) : Heap := { h with answers := [r] }

/-- A block of the free list is large enough for `n` bytes, or `sbrk` fails, or its argument of type `int` is
the number of bytes that are needed. -/
def Sound (base : ℕ) (s : Program) (n : ℕ) (r : Option ℕ) : Prop :=
  ((s.heap.answering r).start base).Fits (units n) ∨ r = none ∨ units n * 16 < 2 ^ 31

/-- A call that the program may make, and its result. -/
inductive Step (base : ℕ) (s : Program) : List Call → Program → Prop
  | malloc {r res : Option ℕ} {h' : Heap} (fuel n : ℕ) : n < 2 ^ 32 → Sound base s n r →
      (∀ a, r = some a → s.heap.Fresh base a) →
      malloc base fuel n (s.heap.answering r) = (.ok res, h') →
      Step base s [.malloc n r] ⟨h', res.toList ++ s.live⟩
  | free {h' : Heap} (fuel p : ℕ) : p ∈ s.live → free fuel p s.heap = (.ok (), h') →
      Step base s [.free p] ⟨h', s.live.erase p⟩

/-- `sbrk` returns less than `2 ^ 36` bytes in all. -/
def Small (s : Program) (n : ℕ) (r : Option ℕ) : Prop :=
  ∀ a, r = some a → s.heap.total + 16 * grain (units n) < 2 ^ 36

def SmallStep (base : ℕ) (s : Program) (es : List Call) (s' : Program) : Prop :=
  Step base s es s' ∧ ∀ n r, es = [.malloc n r] → Small s n r

/-- The free list is a circle in the order of the addresses, without adjacent blocks, and the blocks in it and
those in use tile the memory from `sbrk`. Before the first call there is none. -/
def Integrity (base : ℕ) (s : Program) : Prop := s.Start ∨ ∃ F, Inv base s.heap F s.blocks

theorem Inv.answering (i : Inv base h F live) (r : Option ℕ) : Inv base (h.answering r) F live :=
  ⟨i.base_pos, i.freep, i.linked, i.size_base, i.sorted, i.above, i.tiles, i.total⟩

theorem Inv.freep_pos (i : Inv base h F live) : h.freep ≠ 0 := by
  have := i.base_pos
  rcases mem_cons.1 i.freep with hf | hf
  · omega
  · have := i.base_lt (mem_append_left live hf)
    omega

theorem start_mem (base : ℕ) (h : Heap) : (h.start base).mem = h.mem := by
  unfold Heap.start
  split <;> rfl

theorem start_answers (base : ℕ) (h : Heap) : (h.start base).answers = h.answers := by
  unfold Heap.start
  split <;> rfl

theorem start_size {c : ℕ} (hc : c ≠ base) : (h.start base).size c = h.size c := by
  unfold Heap.start
  split
  · exact update_of_ne hc ..
  · rfl

namespace Integrity

variable {s s' : Program} {r : Option ℕ}

/-- `malloc` first makes the empty free list if there is none. -/
theorem start (hb : 0 < base) (i : Integrity base s) (r : Option ℕ) :
    ∃ F, Inv base ((s.heap.answering r).start base) F s.blocks := by
  rcases i with i | ⟨F, i⟩
  · refine ⟨[], ?_⟩
    have hmem : ((s.heap.answering r).start base).mem = [] := (start_mem ..).trans i.mem
    have hm : ((s.heap.answering r).start base).memory = ∅ := by
      unfold Heap.memory Tiles.covered
      rw [hmem]
      simp
    have hstart : (s.heap.answering r).start base =
        (((s.heap.answering r).setPtr base base).setSize base 0).setFreep base := if_pos i.freep
    have hblocks : s.blocks = [] := by rw [Program.blocks, i.live, map_nil]
    refine ⟨hb, ?_, ⟨?_, trivial⟩, ?_, pairwise_singleton .., ?_, ?_, ?_⟩
    · rw [hstart]
      exact mem_cons_self
    · rw [hstart]
      exact update_self ..
    · rw [hstart]
      exact update_self ..
    · rw [hm]
      exact fun x hx => absurd hx (Set.notMem_empty x)
    · rw [hblocks, hm]
      refine ⟨fun b hb => absurd hb not_mem_nil, List.Pairwise.nil, ?_⟩
      simp [Tiles.covered]
    · unfold Heap.total
      rw [hblocks, hmem]
      rfl
  · have hstart : (s.heap.answering r).start base = s.heap.answering r := if_neg i.freep_pos
    rw [hstart]
    exact ⟨F, i.answering r⟩

theorem base_lt (i : Integrity base s) (hp : p ∈ s.live) : base + 16 ≤ p - 16 := by
  rcases i with i | ⟨F, i⟩
  · rw [i.live] at hp
    exact absurd hp not_mem_nil
  · exact i.base_lt (mem_append_right F (mem_map_of_mem hp))

theorem wp_malloc (hb : 0 < base) (i : Integrity base s) (hsmall : s.heap.total < 2 ^ 36) (hn : n < 2 ^ 32)
    (hunits : Sound base s n r) (hfresh : ∀ a, r = some a → s.heap.Fresh base a) (hs : Small s n r) :
    ∃ fuel, wp (malloc base fuel n)
      (Given base ((s.heap.answering r).start base) s.blocks (units n) r) (fun _ _ => False)
      (s.heap.answering r) := by
  obtain ⟨F, hinv⟩ := i.start hb r
  have hmem : ((s.heap.answering r).start base).mem = s.heap.mem := start_mem ..
  have htotal : ((s.heap.answering r).start base).total = s.heap.total := by rw [Heap.total, hmem, Heap.total]
  refine ⟨2 * F.length + 3, ?_⟩
  unfold malloc
  rw [wp_bind, wp_modify, wp_bind, wp_get]
  refine hinv.wp_mallocLoop (htotal ▸ hsmall) ?_ hunits (start_answers ..) (fun a ha => ?_) le_rfl
  · unfold units
    omega
  · refine ⟨?_, htotal ▸ hs a ha⟩
    have := hfresh a ha
    unfold Heap.Fresh Heap.memory at this ⊢
    rwa [hmem]

/-- `free` of a block in use returns. -/
theorem wp_free (i : Integrity base s) (hsmall : s.heap.total < 2 ^ 36) (hp : p ∈ s.live) :
    ∃ fuel, wp (free fuel p)
      (fun _ h' => h'.mem = s.heap.mem ∧ Integrity base ⟨h', s.live.erase p⟩) (fun _ _ => False) s.heap := by
  have hlt := i.base_lt hp
  rcases i with i | ⟨F, i⟩
  · rw [i.live] at hp
    exact absurd hp not_mem_nil
  · refine ⟨F.length + 2, ?_⟩
    have hperm : s.blocks.Perm ((p - 16) :: (s.live.erase p).map (· - 16)) := (perm_cons_erase hp).map _
    rw [show p = p - 16 + 16 by omega]
    refine i.wp_free hsmall hperm le_rfl fun h' F' _ hinv _ _ hmem _ => ⟨hmem, .inr ⟨F', ?_⟩⟩
    rwa [show p - 16 + 16 = p by omega]

/-- The invariant of a run: `Integrity`, and less than `2 ^ 36` bytes of memory. -/
theorem step (hb : 0 < base) (i : Integrity base s) (hsmall : s.heap.total < 2 ^ 36) {es : List Call}
    (hs : SmallStep base s es s') : Integrity base s' ∧ s'.heap.total < 2 ^ 36 := by
  obtain ⟨hs, hsm⟩ := hs
  cases hs with
  | malloc fuel n hn hunits hfresh hcall =>
    rename_i r res h'
    obtain ⟨k, hw⟩ := i.wp_malloc hb hsmall hn hunits hfresh (hsm n r rfl)
    have hg := returned wp_malloc_mono hw hcall
    constructor
    · cases res with
      | none =>
        obtain ⟨F, hinv⟩ := hg.null rfl
        exact .inr ⟨F, hinv⟩
      | some q =>
        obtain ⟨b, F, rfl, -, hinv⟩ := hg.block q rfl
        exact .inr ⟨F, hinv⟩
    · have hmem := hg.mem
      rw [start_mem] at hmem
      unfold Heap.total at hsmall ⊢
      rcases hmem with ⟨hmem, -⟩ | ⟨a, rfl, -, -, hmem⟩
      · rw [hmem]
        exact hsmall
      · have := hsm n (some a) rfl a rfl
        unfold Heap.total at this
        rw [hmem, map_cons, sum_cons]
        change _ + ((s.heap.mem.map Prod.snd).sum) < _
        omega
  | free fuel p hp hcall =>
    obtain ⟨k, hw⟩ := i.wp_free hsmall hp
    obtain ⟨hmem, hi⟩ := returned wp_free_mono hw hcall
    refine ⟨hi, ?_⟩
    unfold Heap.total at hsmall ⊢
    rwa [hmem]

end Integrity

/-- A call of `malloc` returns. A result that is not null is the address of `n` bytes that are not part of a
block in use. -/
def Serves (base : ℕ) (s : Program) (n : ℕ) (r : Option ℕ) : Prop :=
  ∃ fuel res h', malloc base fuel n (s.heap.answering r) = (.ok res, h') ∧
    ∀ q, res = some q → n + 16 ≤ 16 * h'.size (q - 16) ∧
      ∀ p ∈ s.live, h'.size (p - 16) = s.heap.size (p - 16) ∧ Tiles.Apart (q, n) (h'.block (p - 16))

theorem Integrity.serves {s : Program} {r : Option ℕ} (hb : 0 < base) (i : Integrity base s)
    (hsmall : s.heap.total < 2 ^ 36) (hn : n < 2 ^ 32) (hunits : Sound base s n r)
    (hfresh : ∀ a, r = some a → s.heap.Fresh base a) (hs : Small s n r) : Serves base s n r := by
  obtain ⟨fuel, hw⟩ := i.wp_malloc hb hsmall hn hunits hfresh hs
  obtain ⟨res, h', hcall, hg⟩ := wp_total hw
  refine ⟨fuel, res, h', hcall, fun q hq => ?_⟩
  obtain ⟨b, F, rfl, hsize, hinv⟩ := hg.block q hq
  have hle : n + 16 ≤ 16 * units n := by
    unfold units
    omega
  rw [Nat.add_sub_cancel, hsize]
  refine ⟨hle, fun p hp => ?_⟩
  have hlt := i.base_lt hp
  have hp' : p - 16 ∈ s.blocks := mem_map_of_mem hp
  constructor
  · rw [hg.sizes _ hp', start_size (by omega)]
    rfl
  · -- the bytes behind the header of the new block
    have hap := (nodup_append.1 (nodup_cons.1 hinv.nodup).2).2.1
    have hne : b ≠ p - 16 := fun e => (nodup_cons.1 hap).1 (e ▸ hp')
    have := apart_of_tiles hinv.tiles (mem_append_right F mem_cons_self)
      (mem_append_right F (mem_cons_of_mem b hp')) hne
    rw [hsize] at this
    simp only [Tiles.Apart, Heap.block]
    omega

/-- A program that makes calls as long as `sbrk` returned less than `2 ^ 36` bytes: its heap is in order, `malloc`
serves it, and `free` returns. -/
theorem heap_integrity {s₀ s : Program} {es : List Call} (hb : 0 < base) (h₀ : s₀.Start)
    (hr : Trans.Run (SmallStep base) s₀ es s) :
    Integrity base s ∧
      (∀ n r, n < 2 ^ 32 → Sound base s n r → (∀ a, r = some a → s.heap.Fresh base a) → Small s n r →
        Serves base s n r) ∧
      ∀ p ∈ s.live, ∃ fuel h', free fuel p s.heap = (.ok (), h') := by
  have hstart : Integrity base s₀ ∧ s₀.heap.total < 2 ^ 36 := by
    refine ⟨Or.inl h₀, ?_⟩
    unfold Heap.total
    rw [h₀.mem, List.map_nil, List.sum_nil]
    decide
  obtain ⟨i, hsmall⟩ := hr.invariant (I := fun _ s => Integrity base s ∧ s.heap.total < 2 ^ 36) hstart
    fun _ s _ s' hi hs => hi.1.step hb hi.2 hs
  refine ⟨i, fun n r hn hunits hfresh hs => i.serves hb hsmall hn hunits hfresh hs, fun p hp => ?_⟩
  obtain ⟨fuel, hw⟩ := i.wp_free hsmall hp
  obtain ⟨_, h', hcall, -⟩ := wp_total hw
  exact ⟨fuel, h', hcall⟩

/-- A program that has made no call. -/
def Program.init : Program := ⟨⟨fun _ => 0, fun _ => 0, 0, [], []⟩, []⟩

theorem Program.start_init : Program.init.Start := ⟨rfl, rfl, rfl⟩

/-- A first call of `malloc`, and a call of `free` with its result. -/
theorem heap_integrity_malloc : ∃ s, Trans.Run (SmallStep 16) Program.init
    [.malloc 10 (some 4096), .free 69616] s ∧ s.live = [] ∧ Integrity 16 s := by
  have hfresh : Program.init.heap.Fresh 16 4096 :=
    ⟨by decide, fun x hx => by simp [Heap.memory, Program.init, Tiles.covered] at hx⟩
  obtain ⟨h₁, hmalloc, h₂, hfree⟩ : ∃ h₁, malloc 16 3 10 (Program.init.heap.answering (some 4096)) =
      (.ok (some 69616), h₁) ∧ ∃ h₂, free 3 69616 h₁ = (.ok (), h₂) := ⟨_, rfl, _, rfl⟩
  have hstep : SmallStep 16 Program.init [.malloc 10 (some 4096)] ⟨h₁, [69616]⟩ :=
    ⟨.malloc 3 10 (by decide) (.inr (.inr (by decide))) (fun a ha => by cases ha; exact hfresh) hmalloc,
      fun n r he => by cases he; exact fun _ _ => by decide⟩
  have hstep' : SmallStep 16 ⟨h₁, [69616]⟩ [.free 69616] ⟨h₂, []⟩ :=
    ⟨.free 3 69616 mem_cons_self hfree, fun n r he => by cases he⟩
  have hrun := (Trans.Run.single hstep).tail hstep'
  exact ⟨_, hrun, rfl, (heap_integrity (by decide) Program.start_init hrun).1⟩

/-! ## Overflow of a size -/

/-- A call as a function of the state, with the free list's header at 16 and the bound 3 on the number of steps. -/
def Program.call (s : Program) : Call → Option Program
  | .malloc n r =>
    if n < 2 ^ 32 ∧ units n * 16 < 2 ^ 31 ∧ ∀ a ∈ r, 32 ≤ a ∧ ∀ b ∈ s.heap.mem, b.1 + b.2 ≤ a then
      match malloc 16 3 n (s.heap.answering r) with
      | (.ok res, h') => some ⟨h', res.toList ++ s.live⟩
      | (.error _, _) => none
    else none
  | .free p =>
    if p ∈ s.live then
      match free 3 p s.heap with
      | (.ok _, h') => some ⟨h', s.live.erase p⟩
      | (.error _, _) => none
    else none

theorem Step.of_call {s s' : Program} {c : Call} (hc : s.call c = some s') : Step 16 s [c] s' := by
  cases c with
  | malloc n r =>
    obtain ⟨⟨hn, hu, hr⟩, hc⟩ := ite_none_right_eq_some.1 hc
    split at hc
    · cases hc
      refine .malloc 3 n hn (.inr (.inr hu)) (fun a ha => ⟨(hr a ha).1, ?_⟩) ‹_›
      rintro x ⟨b, hb, hx⟩
      have := (hr a ha).2 b hb
      omega
    · cases hc
  | free p =>
    obtain ⟨hp, hc⟩ := ite_none_right_eq_some.1 hc
    split at hc
    · cases hc
      exact .free 3 p hp ‹_›
    · cases hc

/-- Requests for `2 ^ 31 - 32` bytes, each with a region behind the one before, then the results freed in order. -/
def bigCalls (k : ℕ) : List Call :=
  (List.range k).map (fun i => .malloc (2 ^ 31 - 32) (some (32 + i * (2 ^ 31 - 16)))) ++
    (List.range k).map fun i => .free (48 + i * (2 ^ 31 - 16))

/-- The only free block after 33 blocks of `2 ^ 27 - 1` units: its size is too small. -/
theorem bigCalls_state : ((bigCalls 33).foldlM Program.call Program.init).map
    (fun s => (s.live, s.heap.freep, s.heap.ptr 16, s.heap.ptr 32, s.heap.size 32, s.heap.total)) =
      some ([], 32, 32, 16, 33 * (2 ^ 27 - 1) % 2 ^ 32, 33 * (2 ^ 31 - 16)) := by
  decide +kernel

/-- The blocks do not tile the memory after the last of the 33 blocks was freed. -/
theorem overflow_run : ∃ s₀ es s, s₀.Start ∧ Trans.Run (Step 16) s₀ es s ∧ ¬ Integrity 16 s := by
  obtain ⟨s, hs, hstate⟩ := Option.map_eq_some_iff.1 bigCalls_state
  simp only [Prod.mk.injEq] at hstate
  obtain ⟨hlive, hf, hb, ha, hsize, hall⟩ := hstate
  refine ⟨Program.init, bigCalls 33, s, Program.start_init, .of_foldlM (fun _ _ _ => .of_call) hs, ?_⟩
  rintro (i | ⟨F, i⟩)
  · rw [i.freep] at hf
    exact absurd hf (by decide)
  · have hblocks : s.blocks = [] := by rw [Program.blocks, hlive, List.map_nil]
    have hnd := (List.nodup_cons.1 i.nodup).1
    have htotal := i.total
    rw [hblocks, List.append_nil] at hnd htotal
    -- the free list has one element
    have hF : F = [32] := by
      cases F with
      | nil => exact absurd (hb.symm.trans i.linked.1) (by decide)
      | cons x F =>
        obtain rfl : x = 32 := i.linked.1.symm.trans hb
        cases F with
        | nil => rfl
        | cons y F =>
          have hy : y = 16 := i.linked.2.1.symm.trans ha
          exact absurd (by simp [hy]) hnd
    rw [hF, List.map_singleton, List.sum_singleton, hsize, hall] at htotal
    exact absurd htotal (by decide)

end Umalloc

end Xv6
