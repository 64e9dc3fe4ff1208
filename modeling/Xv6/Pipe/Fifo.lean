import Xv6.Lib.Ring
import Xv6.Pipe.Machine

/-!
# A pipe is a lossless bounded queue

The bytes in a pipe are read off its buffer from `nread` to `nwrite`. Storing a byte appends it and
taking one removes the first, also where the counters wrap. Along every run the bytes accepted from
writers are therefore the bytes delivered to readers followed by the bytes in the pipe.
-/

namespace Xv6

open List

/-- The number of bytes in a pipe, `nwrite - nread` in 32 bits. -/
def Pipe.count (x : Pipe) : ℕ := Ring.dist x.nread x.nwrite

/-- The bytes in a pipe. -/
def Pipe.contents (x : Pipe) : List UInt8 := Ring.read x.data x.nread x.count

namespace Pipe

variable (x : Pipe)

/-- The counters wrap after a multiple of the size. -/
theorem size_dvd : PIPESIZE ∣ 2 ^ 32 := ⟨2 ^ 23, rfl⟩

theorem full_iff : x.full = true ↔ x.count = PIPESIZE := by
  have h₁ := x.nread.toNat_lt
  have h₂ := x.nwrite.toNat_lt
  have h512 : (512 : UInt32).toNat = 512 := rfl
  rw [Pipe.full, beq_iff_eq, ← UInt32.toNat_inj, Pipe.count, Ring.dist, UInt32.toNat_sub, UInt32.toNat_add,
    h512]
  unfold PIPESIZE
  omega

theorem empty_iff : x.empty = true ↔ x.count = 0 := by
  rw [Pipe.empty, beq_iff_eq, Pipe.count, Ring.dist_eq_zero_iff]

theorem count_push (ch : UInt8) (h : x.count < PIPESIZE) : (x.push ch).count = x.count + 1 :=
  Ring.dist_succ (lt_of_le_of_lt h (by decide))

theorem count_pop (h : 0 < x.count) : x.pop.count + 1 = x.count := Ring.dist_succ_left h

/-- Storing a byte appends it to the contents. -/
theorem contents_push (ch : UInt8) (h : x.count < PIPESIZE) :
    (x.push ch).contents = x.contents ++ [ch] := by
  have hpush := Ring.read_push x.data x.nread ch size_dvd h
  rw [Pipe.count, Ring.add_dist] at hpush
  rw [Pipe.contents, x.count_push ch h]
  exact hpush

/-- Taking a byte removes the first of the contents. -/
theorem contents_pop (h : 0 < x.count) : x.contents = x.front :: x.pop.contents := by
  rw [Pipe.contents, ← x.count_pop h, Ring.read_cons size_dvd]
  rfl

theorem contents_close (w : Bool) : (x.close w).contents = x.contents := by
  cases w <;> rfl

theorem count_close (w : Bool) : (x.close w).count = x.count := by
  cases w <;> rfl

end Pipe

/-- The bytes accepted from writers, in order. -/
def accepted (tr : List PipeEvent) : List UInt8 :=
  tr.filterMap fun
    | .accept ch => some ch
    | _ => none

/-- The bytes delivered to readers, in order. -/
def delivered (tr : List PipeEvent) : List UInt8 :=
  tr.filterMap fun
    | .deliver ch => some ch
    | _ => none

/-- The bytes in the pipe are those accepted and not delivered, and they fit. -/
structure Queued (tr : List PipeEvent) (x : Pipe) : Prop where
  bound : x.count ≤ PIPESIZE
  bytes : accepted tr = delivered tr ++ x.contents

namespace Queued

variable {tr es : List PipeEvent} {x : Pipe}

/-- Events that are neither kind of transfer. -/
theorem idle (h : Queued tr x) (ha : accepted es = []) (hd : delivered es = []) :
    Queued (tr ++ es) x := by
  refine ⟨h.bound, ?_⟩
  rw [accepted, delivered, filterMap_append, filterMap_append, ← accepted, ← accepted,
    ← delivered, ← delivered, ha, hd, append_nil, append_nil]
  exact h.bytes

theorem push (h : Queued tr x) (ch : UInt8) (hf : x.full = false) :
    Queued (tr ++ [.accept ch]) (x.push ch) := by
  have hlt : x.count < PIPESIZE := by
    have hne : x.count ≠ PIPESIZE := fun e => by simp [x.full_iff.2 e] at hf
    have := h.bound
    omega
  refine ⟨by rw [x.count_push ch hlt]; exact hlt, ?_⟩
  have := h.bytes
  simp only [accepted, delivered, filterMap_append] at this ⊢
  rw [this, x.contents_push ch hlt]
  simp

theorem pop (h : Queued tr x) (he : x.empty = false) :
    Queued (tr ++ [.deliver x.front]) x.pop := by
  have hpos : 0 < x.count := by
    have hne : x.count ≠ 0 := fun e => by simp [x.empty_iff.2 e] at he
    omega
  have hc := x.count_pop hpos
  refine ⟨by have := h.bound; omega, ?_⟩
  have := h.bytes
  simp only [accepted, delivered, filterMap_append] at this ⊢
  rw [this, x.contents_pop hpos]
  simp

end Queued

theorem PipeStep.queued {tr es : List PipeEvent} {s s' : PipeSys} (h : Queued tr s.pipe)
    (st : PipeStep s es s') : Queued (tr ++ es) s'.pipe := by
  cases st with
  | writeByte hl hpc hn hr hk hf hs => exact h.push _ hf
  | readByte hl hpc hn he hd => exact h.pop he
  | closeEnter hpc ha =>
    have : Queued (tr ++ []) s.pipe := h.idle rfl rfl
    refine ⟨?_, ?_⟩
    · exact (s.pipe.count_close _).le.trans this.bound
    · rw [this.bytes]
      exact congrArg _ (s.pipe.contents_close _).symm
  | _ => exact h.idle rfl rfl

/-- **A pipe is a lossless bounded queue.** After any run of any processes on a pipe, the counters
differ by at most `PIPESIZE` in 32 bits, and the bytes accepted so far are the bytes delivered so far
followed by the bytes in the pipe. So what was delivered is a prefix of what was accepted, and a byte
that a reader cannot take stays in front. -/
theorem pipe_lossless_fifo {data : Fin PIPESIZE → UInt8} {killed : Slot → Bool}
    {tr : List PipeEvent} {s : PipeSys}
    (hr : Trans.Run PipeStep (PipeSys.init data killed) tr s) :
    (s.pipe.nwrite - s.pipe.nread).toNat ≤ PIPESIZE ∧
    accepted tr = delivered tr ++ s.pipe.contents ∧
    delivered tr <+: accepted tr ∧
    ∀ ch es s', PipeStep s es s' → PipeEvent.fault ch ∈ es →
      s'.pipe = s.pipe ∧ s.pipe.contents.head? = some ch := by
  have hq : Queued tr s.pipe := by
    refine hr.invariant (I := fun tr s => Queued tr s.pipe) ⟨?_, ?_⟩
      fun es s fs s' h st => st.queued h
    · simp [PipeSys.init, Pipe.count]
    · simp [accepted, delivered, PipeSys.init, Pipe.contents, Pipe.count]
  refine ⟨hq.bound, hq.bytes, ⟨_, hq.bytes.symm⟩, fun ch es s' st hf => ?_⟩
  cases st with
  | readFault hl hpc hn he hd =>
    cases List.mem_singleton.1 hf
    refine ⟨rfl, ?_⟩
    have hpos : 0 < s.pipe.count := by
      have hne : s.pipe.count ≠ 0 := fun e => by simp [s.pipe.empty_iff.2 e] at he
      omega
    rw [s.pipe.contents_pop hpos]
    rfl
  | _ => simp at hf

/-- A process stores one of two bytes in a fresh pipe and is killed, and another one reads the byte. -/
theorem pipe_lossless_fifo_one_byte :
    ∃ s, Trans.Run PipeStep (PipeSys.init (fun _ => 0) fun _ => false)
        [.accept 7, .ret 0 (-1), .deliver 7] s ∧
      [7] = delivered [.accept 7, .ret 0 (-1), .deliver 7] ++ s.pipe.contents := by
  have h₁ := (Trans.Run.refl : Trans.Run PipeStep (PipeSys.init (fun _ => 0) fun _ => false) [] _)
    |>.tail (@PipeStep.callWrite _ 0 ⟨fun _ => some 7, 2⟩ rfl rfl)
    |>.tail (@PipeStep.writeEnter _ 0 ⟨fun _ => some 7, 2⟩ 0 rfl ⟨rfl, rfl, rfl⟩)
    |>.tail (@PipeStep.writeByte _ 0 ⟨fun _ => some 7, 2⟩ 0 false 7 rfl rfl (by decide) rfl rfl
      (by decide) rfl)
    |>.tail (@PipeStep.kkill _ 0 nofun)
    |>.tail (@PipeStep.writeKilled _ 0 ⟨fun _ => some 7, 2⟩ 1 true rfl rfl (by decide) rfl)
    |>.tail (@PipeStep.callRead _ 1 ⟨fun _ => true, 1⟩ rfl rfl)
    |>.tail (@PipeStep.readEnter _ 1 ⟨fun _ => true, 1⟩ rfl ⟨rfl, rfl, rfl⟩)
    |>.tail (@PipeStep.readReady _ 1 ⟨fun _ => true, 1⟩ rfl rfl (.inl (by decide)))
    |>.tail (@PipeStep.readByte _ 1 ⟨fun _ => true, 1⟩ 0 rfl rfl (by decide) (by decide) rfl)
  exact ⟨_, h₁, (pipe_lossless_fifo h₁).2.1⟩

end Xv6
