import Xv6.Lib.Ring
import Xv6.Lib.Trans

/-!
# The virtio disk driver

The functions of `virtio_disk.c` and the device they talk to. Calls of `virtio_disk_rw` on different
buffers, the handler `virtio_disk_intr` and the device run in any interleaving. `vdisk_lock` is
explicit; the device does not take it. A call of `virtio_disk_rw` is cut where the device can see a
difference, at the writes to the avail ring and to its index, and where it sleeps; the handler is cut
after each pass of its loop.

The ring indices are 16-bit counters. Of a descriptor the length is left out, and of a request what the
device does with the data. A process that sleeps may go on at any time and tests again, as the loops of
the source do after any wakeup.
-/

namespace Xv6

open Function

abbrev NUM : ℕ := 8

instance : NeZero NUM := ⟨Nat.succ_ne_zero 7⟩

/-- The number of values of a `uint16`. -/
abbrev IDXS : ℕ := 65536

abbrev VRING_DESC_F_NEXT : ℕ := 1
abbrev VRING_DESC_F_WRITE : ℕ := 2

/-- The address in a descriptor: none, `&disk.ops[i]`, `b->data` or `&disk.info[i].status`. -/
inductive DescAddr (β : Type)
  | null
  | ops (i : ℕ)
  | data (b : β)
  | status (i : ℕ)

structure VirtqDesc (β : Type) where
  addr : DescAddr β
  flags : ℕ
  next : ℕ

/-- `struct virtq_avail` or `struct virtq_used`. -/
structure VirtqRing where
  ring : Fin NUM → ℕ
  idx : ℕ

/-- An entry of `info`. -/
structure DiskInfo (β : Type) where
  b : Option β
  status : ℕ

/-- `struct disk`. -/
structure VDisk (β : Type) where
  desc : ℕ → VirtqDesc β
  avail : VirtqRing
  used : VirtqRing
  free : ℕ → Bool
  usedIdx : ℕ
  info : ℕ → DiskInfo β

/-- The ways in which the driver can fail: its panics, a null pointer in the handler, and a loop of
`free_chain` that does not end. -/
inductive DiskPanic
  | freeDesc1
  | freeDesc2
  | intrStatus
  | nullBuf
  | endless
  deriving DecidableEq

/-- The indices of a request. -/
structure DescChain where
  i0 : ℕ
  i1 : ℕ
  i2 : ℕ
  deriving DecidableEq

namespace VirtqRing

/-- `ring[idx % NUM] = x` -/
def put (r : VirtqRing) (x : ℕ) : VirtqRing :=
  { r with ring := update r.ring (Fin.ofNat NUM r.idx) x }

/-- `idx += 1` -/
def bump (r : VirtqRing) : VirtqRing := { r with idx := (r.idx + 1) % IDXS }

/-- `ring[k % NUM]` -/
def get (r : VirtqRing) (k : ℕ) : ℕ := r.ring (Fin.ofNat NUM k)

end VirtqRing

namespace VDisk

variable {β : Type} (d : VDisk β)

/-- `alloc_desc` -/
def allocDesc : Option ℕ × VDisk β :=
  match (List.range NUM).find? d.free with
  | some i => (some i, { d with free := update d.free i false })
  | none => (none, d)

/-- `free_desc`, without its `wakeup`. -/
def freeDesc (i : ℕ) : Except DiskPanic (VDisk β) :=
  if NUM ≤ i then .error .freeDesc1
  else if d.free i then .error .freeDesc2
  else .ok { d with
    desc := update d.desc i ⟨.null, 0, 0⟩, free := update d.free i true }

/-- `free_chain`, for at most `k` passes of its loop. -/
def freeChain : ℕ → ℕ → VDisk β → Except DiskPanic (VDisk β)
  | 0, _, _ => .error .endless
  | k + 1, i, d =>
    match d.freeDesc i with
    | .error e => .error e
    | .ok d' => if (d.desc i).flags &&& VRING_DESC_F_NEXT ≠ 0 then freeChain k (d.desc i).next d' else .ok d'

/-- The roll back of `alloc3_desc`: the descriptors of the list are freed. -/
def freeAll : List ℕ → VDisk β → Except DiskPanic (VDisk β)
  | [], d => .ok d
  | j :: l, d =>
    match d.freeDesc j with
    | .error e => .error e
    | .ok d' => freeAll l d'

/-- The loop of `alloc3_desc` with `k` descriptors to go. -/
def allocLoop : ℕ → List ℕ → VDisk β → Except DiskPanic (Option (List ℕ) × VDisk β)
  | 0, idx, d => .ok (some idx, d)
  | k + 1, idx, d =>
    match d.allocDesc with
    | (some i, d') => allocLoop k (idx ++ [i]) d'
    | (none, d') => (freeAll idx d').map fun d'' => (none, d'')

/-- `alloc3_desc` -/
def alloc3Desc : Except DiskPanic (Option DescChain × VDisk β) :=
  (allocLoop 3 [] d).map fun r =>
    match r with
    | (some [i0, i1, i2], d') => (some ⟨i0, i1, i2⟩, d')
    | (_, d') => (none, d')

/-- The part of `virtio_disk_rw` that fills in the descriptors and `info`. -/
def format (b : β) (write : Bool) (t : DescChain) : VDisk β :=
  { d with
    desc := update (update (update d.desc
        t.i0 ⟨.ops t.i0, VRING_DESC_F_NEXT, t.i1⟩)
        t.i1 ⟨.data b, (if write then 0 else VRING_DESC_F_WRITE) ||| VRING_DESC_F_NEXT, t.i2⟩)
        t.i2 ⟨.status t.i0, VRING_DESC_F_WRITE, 0⟩
    info := update d.info t.i0 ⟨some b, 0xff⟩ }

/-- `disk.info[i].b = 0` -/
def clearInfo (i : ℕ) : VDisk β :=
  { d with info := update d.info i { d.info i with b := none } }

/-- The device writes the status of a request. -/
def setStatus (i : ℕ) : VDisk β :=
  { d with info := update d.info i { d.info i with status := 0 } }

/-- The address at which the device finds the status byte of the chain at `h`. -/
def statusAddr (h : ℕ) : DescAddr β := (d.desc (d.desc (d.desc h).next).next).addr

/-- The id that the handler reads. -/
def usedId : ℕ := d.used.get d.usedIdx

end VDisk

/-- Who holds `vdisk_lock`. -/
inductive DiskOwner (β : Type)
  | rw (b : β)
  | intr
  deriving DecidableEq

/-- Where the call of `virtio_disk_rw` on a buffer is. -/
inductive RwPc
  | idle
  /-- before `acquire`, at the start or in `sleep(&disk.free[0])` -/
  | enter (write : Bool)
  /-- the descriptors are filled in; with the lock -/
  | ready (t : DescChain)
  /-- the avail ring is written; with the lock -/
  | ringed (t : DescChain)
  /-- before the test of `b->disk`; with the lock -/
  | test (t : DescChain)
  /-- in `sleep(b)` -/
  | asleep (t : DescChain)

/-- What can be seen of the requests. `start` is `b->disk = 1`, `publish` the change of `avail->idx`,
`report` the entry in the used ring, `clear` is `b->disk = 0` by the handler for the entry `h`, and
`finish` the return from `virtio_disk_rw`. -/
inductive DiskEvent (β : Type)
  | start (b : β) (h : ℕ)
  | publish (b : β) (h : ℕ)
  | report (h : ℕ)
  | clear (b : β) (h : ℕ)
  | finish (b : β) (h : ℕ)

/-- The driver, the flags `b->disk`, and the device: how far it has read the avail ring, and the heads
it works on. -/
structure DiskSys (β : Type) where
  d : VDisk β
  disk : β → Bool
  lock : Option (DiskOwner β)
  pc : β → RwPc
  seen : ℕ
  busy : List ℕ
  dead : Option DiskPanic

namespace DiskSys

variable {β : Type}

/-- The driver after `virtio_disk_init`. -/
def init : DiskSys β where
  d := ⟨fun _ => ⟨.null, 0, 0⟩, ⟨fun _ => 0, 0⟩, ⟨fun _ => 0, 0⟩, fun _ => true, 0, fun _ => ⟨none, 0⟩⟩
  disk _ := false
  lock := none
  pc _ := .idle
  seen := 0
  busy := []
  dead := none

end DiskSys

/-- One step, with what is seen of it. -/
inductive DiskStep {β : Type} [DecidableEq β] : DiskSys β → List (DiskEvent β) → DiskSys β → Prop
  | call {s : DiskSys β} (b : β) (write : Bool) :
      s.pc b = .idle → DiskStep s [] { s with pc := update s.pc b (.enter write) }
  | full {s : DiskSys β} {b : β} {write : Bool} {d : VDisk β} :
      s.pc b = .enter write → s.lock = none → s.d.alloc3Desc = .ok (none, d) →
        DiskStep s [] { s with d := d }
  | allocPanic {s : DiskSys β} {b : β} {write : Bool} {e : DiskPanic} :
      s.pc b = .enter write → s.lock = none → s.d.alloc3Desc = .error e →
        DiskStep s [] { s with dead := some e }
  | start {s : DiskSys β} {b : β} {write : Bool} {t : DescChain} {d : VDisk β} :
      s.pc b = .enter write → s.lock = none → s.d.alloc3Desc = .ok (some t, d) →
        DiskStep s [.start b t.i0] { s with
          d := d.format b write t, disk := update s.disk b true,
          lock := some (.rw b), pc := update s.pc b (.ready t) }
  | ring {s : DiskSys β} {b : β} {t : DescChain} :
      s.pc b = .ready t →
        DiskStep s [] { s with
          d := { s.d with avail := s.d.avail.put t.i0 }, pc := update s.pc b (.ringed t) }
  | publish {s : DiskSys β} {b : β} {t : DescChain} :
      s.pc b = .ringed t →
        DiskStep s [.publish b t.i0] { s with
          d := { s.d with avail := s.d.avail.bump }, pc := update s.pc b (.test t) }
  | sleep {s : DiskSys β} {b : β} {t : DescChain} :
      s.pc b = .test t → s.disk b = true →
        DiskStep s [] { s with lock := none, pc := update s.pc b (.asleep t) }
  | wake {s : DiskSys β} {b : β} {t : DescChain} :
      s.pc b = .asleep t → s.lock = none →
        DiskStep s [] { s with lock := some (.rw b), pc := update s.pc b (.test t) }
  | finish {s : DiskSys β} {b : β} {t : DescChain} {d : VDisk β} :
      s.pc b = .test t → s.disk b = false →
        (s.d.clearInfo t.i0).freeChain (NUM + 1) t.i0 = .ok d →
        DiskStep s [.finish b t.i0] { s with
          d := d, lock := none, pc := update s.pc b .idle }
  | finishPanic {s : DiskSys β} {b : β} {t : DescChain} {e : DiskPanic} :
      s.pc b = .test t → s.disk b = false →
        (s.d.clearInfo t.i0).freeChain (NUM + 1) t.i0 = .error e →
        DiskStep s [] { s with dead := some e }
  -- `virtio_disk_intr`
  | intrEnter {s : DiskSys β} : s.lock = none → DiskStep s [] { s with lock := some .intr }
  | intrNext {s : DiskSys β} {b : β} :
      s.lock = some .intr → s.d.usedIdx ≠ s.d.used.idx → (s.d.info s.d.usedId).status = 0 →
        (s.d.info s.d.usedId).b = some b →
        DiskStep s [.clear b s.d.usedId] { s with
          d := { s.d with usedIdx := (s.d.usedIdx + 1) % IDXS }
          disk := update s.disk b false }
  | intrStatus {s : DiskSys β} :
      s.lock = some .intr → s.d.usedIdx ≠ s.d.used.idx → (s.d.info s.d.usedId).status ≠ 0 →
        DiskStep s [] { s with dead := some .intrStatus }
  | intrNull {s : DiskSys β} :
      s.lock = some .intr → s.d.usedIdx ≠ s.d.used.idx → (s.d.info s.d.usedId).b = none →
        DiskStep s [] { s with dead := some .nullBuf }
  | intrLeave {s : DiskSys β} :
      s.lock = some .intr → s.d.usedIdx = s.d.used.idx → DiskStep s [] { s with lock := none }
  -- the device
  | fetch {s : DiskSys β} :
      s.seen ≠ s.d.avail.idx →
        DiskStep s [] { s with
          seen := (s.seen + 1) % IDXS, busy := s.d.avail.get s.seen :: s.busy }
  | complete {s : DiskSys β} {h i : ℕ} :
      h ∈ s.busy → s.d.statusAddr h = .status i →
        DiskStep s [.report h] { s with
          d := { s.d.setStatus i with used := (s.d.used.put h).bump }, busy := s.busy.erase h }

end Xv6
