import Xv6.Lib.Monitor
import Xv6.Lib.Trans
import Xv6.Proc.Table

/-!
# The transmitter of the UART

`uartwrite`, `uartputc_sync` and `uartintr` of `uart.c` with the device, in any interleaving. The device
sends the byte in `THR` and then requests an interrupt; reading `ISR` or writing `THR` withdraws the
request. `uartintr` may run at any time. `uartputc_sync` does not take `tx_lock` and may overwrite a byte.
-/

namespace Xv6

open Monitor Function Trans

/-- Where a process is in `uartwrite`, with the bytes `buf[i..n)`; `enter` is before an acquisition of
`tx_lock`, at the start or in `sleep`. -/
inductive TxPc
  | idle
  | enter (buf : List UInt8)
  | loop (buf : List UInt8)

/-- The bytes that the process has yet to store. -/
def TxPc.rest : TxPc → List UInt8
  | idle => []
  | enter buf | loop buf => buf

/-- The holder of `tx_lock`; `uartintr` holds it in `wakeup`, before the slot `k`. -/
inductive TxOwner
  | uartwrite (p : Slot)
  | uartintr (k : ℕ)

/-- A call of `uartwrite`, a byte stored in `THR` by it or by `uartputc_sync`, or a byte on the wire. -/
inductive TxEvent
  | call (p : Slot) (buf : List UInt8)
  | write (p : Slot) (b : UInt8)
  | sync (b : UInt8)
  | sent (b : UInt8)

namespace TxEvent

def stored : TxEvent → List UInt8
  | write _ b | sync b => [b]
  | _ => []

def wire : TxEvent → List UInt8
  | sent b => [b]
  | _ => []

def asked (p : Slot) : TxEvent → List UInt8
  | call q buf => if q = p then buf else []
  | _ => []

def storedBy (p : Slot) : TxEvent → List UInt8
  | write q b => if q = p then [b] else []
  | _ => []

end TxEvent

/-- The variables of `uart.c`, the device and the callers. -/
structure Uart where
  txBusy : Bool
  lock : Option TxOwner
  /-- The byte in `THR`; without one `LSR_TX_IDLE` is set. -/
  thr : Option UInt8
  /-- The device requests an interrupt. -/
  irq : Bool
  /-- The number of `uartintr` calls between `ReadReg(ISR)` and `acquire`. -/
  acks : ℕ
  /-- The arguments of the calls of `uartputc_sync` that have seen `LSR_TX_IDLE`. -/
  syncs : List UInt8
  panicked : Bool
  mode : Slot → Mode Unit
  pc : Slot → TxPc

namespace Uart

def init : Uart := ⟨false, none, none, false, 0, [], false, fun _ => .awake, fun _ => .idle⟩

variable (s : Uart)

def setPc (p : Slot) (k : TxPc) : Uart := { s with pc := update s.pc p k }
def setMode (p : Slot) (m : Mode Unit) : Uart := { s with mode := update s.mode p m }

/-- `WriteReg(THR, b)` -/
def writeThr (b : UInt8) : Uart := { s with thr := some b, irq := false }

/-- The first slot that `uartintr` has yet to visit. -/
def debt (_ : Unit) : ℕ :=
  match s.lock with
  | some (.uartintr k) => k
  | _ => NPROC

end Uart

inductive TxStep (s : Uart) : List TxEvent → Uart → Prop
  -- `uartwrite`
  | call : s.pc p = .idle → TxStep s [.call p buf] (s.setPc p (.enter buf))
  | acquire : s.pc p = .enter buf → s.mode p = .awake → s.lock = none →
      TxStep s [] { s.setPc p (.loop buf) with lock := some (.uartwrite p) }
  | wait : s.lock = some (.uartwrite p) → s.pc p = .loop (b :: buf) → s.txBusy = true →
      TxStep s [] { (s.setPc p (.enter (b :: buf))).setMode p (.drowsy ()) with lock := none }
  | store : s.lock = some (.uartwrite p) → s.pc p = .loop (b :: buf) → s.txBusy = false →
      TxStep s [.write p b] { (s.setPc p (.loop buf)).writeThr b with txBusy := true }
  | release : s.lock = some (.uartwrite p) → s.pc p = .loop [] →
      TxStep s [] { s.setPc p .idle with lock := none }
  -- the rest of `sleep`, and `kkill`
  | sleep : s.mode p = .drowsy () → TxStep s [] (s.setMode p (.asleep ()))
  | kkill : ¬ (s.mode q).Drowsy → TxStep s [] (s.setMode q (s.mode q).jolt)
  -- `uartputc_sync`, which spins when `panicked`
  | poll : s.panicked = false → s.thr = none → TxStep s [] { s with syncs := b :: s.syncs }
  | sync : b ∈ s.syncs → TxStep s [.sync b] { s.writeThr b with syncs := s.syncs.erase b }
  | panic : TxStep s [] { s with panicked := true }
  -- the device
  | transmit : s.thr = some b → TxStep s [.sent b] { s with thr := none, irq := true }
  -- `uartintr`
  | ack : TxStep s [] { s with irq := false, acks := s.acks + 1 }
  | idle : s.acks = a + 1 → s.lock = none → s.thr = none →
      TxStep s [] { s with acks := a, txBusy := false, lock := some (.uartintr 0) }
  | busy : s.acks = a + 1 → s.lock = none → s.thr ≠ none → TxStep s [] { s with acks := a }
  | visit {q : Slot} : s.lock = some (.uartintr q) → ¬ (s.mode q).Drowsy →
      TxStep s [] { s.setMode q ((s.mode q).rouse ()) with lock := some (.uartintr (q + 1)) }
  | done : s.lock = some (.uartintr NPROC) → TxStep s [] { s with lock := none }

/-- A process stores its first byte and sleeps before the second. -/
theorem exists_uart_sleeper : ∃ s, Run TxStep .init [.call 0 [1, 2], .write 0 1] s ∧
    s.lock = none ∧ s.mode 0 = .asleep () := by
  have h : Run TxStep .init [.call 0 [1, 2]] _ := .single (.call rfl)
  have h := (h.tail (.acquire (p := 0) rfl rfl rfl)).tail (.store (p := 0) rfl rfl rfl)
  exact ⟨_, (h.tail (.wait (p := 0) rfl rfl rfl)).tail (.sleep (p := 0) rfl), rfl, rfl⟩

variable {s s' : Uart} {es fs : List TxEvent} {p : Slot}

/-- The process at `k` has stored the bytes of its calls up to those it has yet to store. -/
def TxOwn (es : List TxEvent) (p : Slot) (k : TxPc) : Prop :=
  es.flatMap (TxEvent.storedBy p) ++ k.rest = es.flatMap (TxEvent.asked p)

/-- The invariant of runs without `uartputc_sync`: `THR` is written only when it is empty. -/
structure TxOrder (es : List TxEvent) (s : Uart) : Prop where
  busy : s.thr ≠ none → s.txBusy = true
  wire : es.flatMap TxEvent.stored = es.flatMap TxEvent.wire ++ s.thr.toList
  own : ∀ p, TxOwn es p (s.pc p)

open TxEvent in
theorem TxStep.txOrder (h : TxOrder es s) (st : TxStep s fs s') (hs : ∀ b, .sync b ∉ fs) :
    TxOrder (es ++ fs) s' := by
  obtain ⟨hb, hw, ho⟩ := h
  have move {p k} (hp : TxOwn (es ++ fs) p k) (hf : ∀ q, q ≠ p → TxOwn (es ++ fs) q (s.pc q)) :
      ∀ q, TxOwn (es ++ fs) q (update s.pc p k q) := (forall_update_iff s.pc _).2 ⟨hp, hf⟩
  cases st with
  | @call p _ hp =>
    refine ⟨hb, by simpa [stored, wire, Uart.setPc] using hw, move ?_ fun q hq => ?_⟩
    · simpa [TxOwn, hp, TxPc.rest, asked, storedBy] using ho p
    · simpa [TxOwn, asked, storedBy, hq.symm] using ho q
  | @store p _ _ _ hp hn =>
    have ht : s.thr = none := by
      by_contra ht
      exact absurd (hb ht) (by simp [hn])
    refine ⟨fun _ => rfl, by simpa [stored, wire, ht, Uart.writeThr] using hw, move ?_ fun q hq => ?_⟩
    · simpa [TxOwn, hp, TxPc.rest, asked, storedBy] using ho p
    · simpa [TxOwn, asked, storedBy, hq.symm] using ho q
  | sync hb => exact absurd List.mem_cons_self (hs _)
  | transmit ht =>
    refine ⟨fun hn => absurd rfl hn, by simpa [stored, wire, ht] using hw, fun q => ?_⟩
    simpa [TxOwn, asked, storedBy] using ho q
  | @acquire p _ hp _ _ | @wait p _ _ _ hp _ | @release p _ hp =>
    rw [List.append_nil] at move ⊢
    exact ⟨hb, hw, move (by simpa [TxOwn, hp, TxPc.rest] using ho p) fun q _ => ho q⟩
  | idle _ _ ht => exact ⟨fun hn => absurd ht hn, by simpa using hw, by simpa using ho⟩
  | _ =>
    rw [List.append_nil]
    exact ⟨hb, hw, ho⟩

/-- **Every byte is sent once and in order.** In a run without `uartputc_sync`, what is on the wire and
in `THR` is what `uartwrite` has stored, in the order of the stores; and each process has stored the bytes
of its calls, in their order, up to those it has yet to store. -/
theorem uart_sends_in_order (hr : Run TxStep .init es s) (hs : ∀ b, .sync b ∉ es) :
    es.flatMap TxEvent.stored = es.flatMap TxEvent.wire ++ s.thr.toList ∧
    ∀ p, es.flatMap (TxEvent.storedBy p) ++ (s.pc p).rest = es.flatMap (TxEvent.asked p) := by
  have h₀ : TxOrder [] .init := ⟨fun hn => absurd rfl hn, rfl, fun _ => rfl⟩
  have h := hr.invariant (I := fun es s => (∀ b, .sync b ∉ es) → TxOrder es s) (fun _ => h₀)
    (fun _ _ _ _ h st hs => st.txOrder (h fun b hb => hs b (List.mem_append_left _ hb))
      fun b hb => hs b (List.mem_append_right _ hb)) hs
  exact ⟨h.wire, h.own⟩

theorem uart_sends_in_order_one : ∃ s, Run TxStep .init [.call 0 [1, 2], .write 0 1] s ∧
    [1] = [] ++ s.thr.toList ∧ [1] ++ (s.pc 0).rest = [1, 2] := by
  obtain ⟨s, hr, -⟩ := exists_uart_sleeper
  have h := uart_sends_in_order hr (by simp)
  exact ⟨s, hr, h.1, h.2 0⟩

/-- The invariant of all runs: the transmitter is busy only until an interrupt that is to come. -/
structure TxLive (s : Uart) : Prop where
  watched : Watched s.mode (fun _ => s.txBusy = true) s.debt
  owed : s.txBusy = true → s.thr ≠ none ∨ s.irq = true ∨ 0 < s.acks

theorem TxStep.txLive (h : TxLive s) (st : TxStep s es s') : TxLive s' := by
  obtain ⟨hw, ho⟩ := h
  have hd {o} (e : s.lock = o) : s.debt = { s with lock := o }.debt := by rw [← e]
  cases st with
  | acquire _ _ hl | release hl _ | done hl => exact ⟨by rw [hd hl] at hw; exact hw, ho⟩
  | wait hl _ hb =>
    rw [hd hl] at hw
    exact ⟨hw.doze hb, ho⟩
  | store _ _ _ =>
    exact ⟨hw.mono (fun _ _ h => h) (fun _ _ => .inl rfl) fun _ => le_rfl,
      fun _ => .inl (by simp [Uart.writeThr])⟩
  | sleep hm => exact ⟨hw.sleep hm, ho⟩
  | kkill _ => exact ⟨hw.jolt, ho⟩
  | sync _ => exact ⟨hw, fun _ => .inl (by simp [Uart.writeThr])⟩
  | transmit _ => exact ⟨hw, fun _ => .inr (.inl rfl)⟩
  | ack => exact ⟨hw, fun _ => .inr (.inr (Nat.succ_pos _))⟩
  | idle _ _ _ =>
    exact ⟨hw.mono (fun _ _ h => h) (fun _ _ => .inr rfl) fun _ => Nat.zero_le _, by simp⟩
  | busy _ _ ht => exact ⟨hw, fun _ => .inl ht⟩
  | visit hl hq =>
    rw [hd hl] at hw
    exact ⟨hw.visit hq rfl rfl, ho⟩
  | _ => exact ⟨hw, ho⟩

/-- **No process is left sleeping.** In any run, when `tx_lock` is free and a process sleeps in
`uartwrite`, the transmitter is busy and has a byte to send, or it requests an interrupt, or `uartintr`
is about to look at it. -/
theorem uart_wakes_sleepers (hr : Run TxStep .init es s) (hl : s.lock = none)
    (hp : s.mode p = .asleep ()) : s.txBusy = true ∧ (s.thr ≠ none ∨ s.irq = true ∨ 0 < s.acks) := by
  have h₀ : TxLive .init := ⟨fun _ _ h => h.elim, by simp [Uart.init]⟩
  have h := hr.invariant (I := fun _ s => TxLive s) h₀ fun _ _ _ _ h st => st.txLive h
  have hb := h.watched.calm_of_asleep (fun _ => by rw [Uart.debt, hl]) hp
  exact ⟨hb, h.owed hb⟩

theorem uart_wakes_sleepers_one : ∃ s, Run TxStep .init [.call 0 [1, 2], .write 0 1] s ∧
    s.lock = none ∧ s.mode 0 = .asleep () ∧ s.txBusy = true ∧
    (s.thr ≠ none ∨ s.irq = true ∨ 0 < s.acks) := by
  obtain ⟨s, hr, hl, hp⟩ := exists_uart_sleeper
  exact ⟨s, hr, hl, hp, uart_wakes_sleepers hr hl hp⟩

end Xv6
