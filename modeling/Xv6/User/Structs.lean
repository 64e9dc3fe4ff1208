import Xv6.Fs.Inode
import Xv6.User.Copier

/-!
# Structures that the kernel builds on its stack and copies out

`sys_proccost` and `filestat` fill a local structure and copy all its bytes to user memory. A local
structure starts with what the stack held before, and neither call clears it. The bytes that no
assignment reaches are the padding and, in `name[]`, what `safestrcpy` leaves after the terminator.
-/

namespace Xv6

open Bytes List

/-! ## `safestrcpy` -/

section

variable {N : ℕ}

/-- The loop of `safestrcpy` into the bytes from `o + i` on, with room for `k` more before the last.
The pointer is past the terminator when the loop ends at one, so that two bytes are cleared. -/
def safestrcpyLoop (o : ℕ) (t : ℕ → ℕ) : ℕ → ℕ → Bytes N → Bytes N
  | 0, i, s => s.wr8 (o + i) 0
  | k + 1, i, s =>
    if t i = 0 then (s.wr8 (o + i) 0).wr8 (o + i + 1) 0
    else safestrcpyLoop o t k (i + 1) (s.wr8 (o + i) (t i))

/-- Like `strncpy`, but guaranteed to terminate the string. -/
def safestrcpy (s : Bytes N) (o : ℕ) (t : ℕ → ℕ) (n : ℕ) : Bytes N :=
  if n = 0 then s else safestrcpyLoop o t (n - 1) 0 s

/-- The bytes before the first zero, among the first `n`. -/
def strz (f : ℕ → ℕ) : ℕ → List ℕ
  | 0 => []
  | n + 1 => if f 0 = 0 then [] else f 0 :: strz (fun i => f (i + 1)) n

end

/-! ## The structures -/

/-- What `sys_proccost` reads of a slot under its lock. -/
structure CostRecord where
  state : ProcState
  pid : ℕ
  name : Bytes 16
  cpuTicks : ℕ
  schedCount : ℕ
  diskWrites : ℕ

/-- `struct proccostinfo`: `pid` at 0, `name` at 4, four bytes of padding, then four words of 8 bytes. -/
abbrev CostInfo := Bytes 56

/-- The slots that are reported. -/
def CostRecord.reported (x : CostRecord) : Bool := x.state ≠ .unused && x.state ≠ .used

/-- The assignments to `entry` from the fields of the slot. Each takes the low bytes of its value. -/
def CostRecord.copy (x : CostRecord) (entry : CostInfo) : CostInfo :=
  let entry := entry.wrle 0 x.pid 4
  let entry := safestrcpy entry 4 x.name.rd8 16
  let entry := entry.wrle 24 x.cpuTicks 8
  let entry := entry.wrle 32 x.schedCount 8
  entry.wrle 40 x.diskWrites 8

/-- All assignments to `entry`; the last is the cost. -/
def CostRecord.fill (x : CostRecord) (entry : CostInfo) : CostInfo :=
  let entry := x.copy entry
  entry.wrle 48 (entry.rdle 24 8 + 5 * entry.rdle 40 8) 8

/-- `struct stat`: `dev` at 0, `ino` at 4, `type` at 8, `nlink` at 10, four bytes of padding, and `size`
at 16. -/
abbrev Stat := Bytes 24

abbrev ROOTDEV : ℕ := 1

/-- Copy stat information from an inode. -/
def stati (ip : Inode) (st : Stat) : Stat :=
  let st := st.wrle 0 ROOTDEV 4
  let st := st.wrle 4 ip.inum 4
  let st := st.wrle 8 ip.d.type 2
  let st := st.wrle 10 ip.d.nlink 2
  st.wrle 16 ip.d.size 8

/-! ## The calls -/

namespace Copier

variable {M : Type} (C : Copier M)

/-- `filestat` of a file with the inode `ip`, locked and read in; `st` is what the stack holds. -/
def filestat (type : FileType) (ip : Inode) (addr : ℕ) (st : Stat) (m : M) : ℤ × M :=
  if type = .inode ∨ type = .device then
    let (r, m) := C.copyout addr ((stati ip st).slice 0 24) m
    (if r < 0 then -1 else 0, m)
  else (-1, m)

/-- The loop of `sys_proccost` over the slots that are left. A slot is visited once: `see q` is what the
loop finds there while it holds the lock. -/
def proccostLoop (see : Slot → CostRecord) (uaddr : ℕ) (max : ℤ) :
    List Slot → ℕ → CostInfo → M → ℤ × M
  | [], count, _, m => (count, m)
  | q :: qs, count, entry, m =>
    if count < max then
      if (see q).reported then
        let entry := (see q).fill entry
        let (r, m) := C.copyout ((uaddr + count * 56) % 2 ^ 64) (entry.slice 0 56) m
        if r < 0 then (-1, m) else proccostLoop see uaddr max qs (count + 1) entry m
      else proccostLoop see uaddr max qs count entry m
    else (count, m)

/-- `sys_proccost`; `entry` is what the stack holds. -/
def sysProccost (see : Slot → CostRecord) (uaddr : ℕ) (max : ℤ) (entry : CostInfo) (m : M) : ℤ × M :=
  if max ≤ 0 then (-1, m) else C.proccostLoop see uaddr max (List.finRange NPROC) 0 entry m

end Copier

/-! ## What the assignments cover -/

section

variable {N : ℕ} {s s' : Bytes N} {o i k j : ℕ} {t : ℕ → ℕ}

theorem rd8_wr8_congr (v : ℕ) (h : s.rd8 j = s'.rd8 j ∨ j = i) :
    (s.wr8 i v).rd8 j = (s'.wr8 i v).rd8 j := by
  by_cases hj : j = i
  · subst hj
    by_cases hn : j < N
    · rw [rd8_wr8_self _ _ hn, rd8_wr8_self _ _ hn]
    · simp [rd8, hn]
  · rw [rd8_wr8_of_ne _ _ hj, rd8_wr8_of_ne _ _ hj]
    exact h.resolve_right hj

theorem rd8_wrle_congr {w v : ℕ} (h : s.rd8 j = s'.rd8 j ∨ (i ≤ j ∧ j < i + w)) :
    (s.wrle i v w).rd8 j = (s'.wrle i v w).rd8 j := by
  induction w generalizing s s' i v with
  | zero => exact h.resolve_right (by omega)
  | succ w ih =>
    refine ih ?_
    by_cases hj : s.rd8 j = s'.rd8 j ∨ j = i
    · exact .inl (rd8_wr8_congr v hj)
    · right
      omega

/-- The loop of `safestrcpy` writes from its place on, no further than its bound. -/
theorem rd8_safestrcpyLoop_of_disjoint (h : j < o + i ∨ o + i + k < j) :
    (safestrcpyLoop o t k i s).rd8 j = s.rd8 j := by
  induction k generalizing i s with
  | zero => exact rd8_wr8_of_ne _ _ (by omega)
  | succ k ih =>
    rw [safestrcpyLoop]
    split
    · rw [rd8_wr8_of_ne _ _ (by omega), rd8_wr8_of_ne _ _ (by omega)]
    · rw [ih (by omega), rd8_wr8_of_ne _ _ (by omega)]

/-- It writes every byte up to the one after the terminator. -/
theorem rd8_safestrcpyLoop_congr (h : s.rd8 j = s'.rd8 j ∨
      (o + i ≤ j ∧ j ≤ o + i + k ∧ ∀ l, i ≤ l → l + 1 < j - o → t l ≠ 0)) :
    (safestrcpyLoop o t k i s).rd8 j = (safestrcpyLoop o t k i s').rd8 j := by
  induction k generalizing i s s' with
  | zero => exact rd8_wr8_congr 0 (h.imp_right fun h => by omega)
  | succ k ih =>
    rw [safestrcpyLoop, safestrcpyLoop]
    split
    · rename_i h0
      refine rd8_wr8_congr 0 ?_
      by_cases hj : j = o + i + 1
      · exact .inr hj
      · refine .inl (rd8_wr8_congr 0 (h.imp_right fun ⟨h₁, h₂, h₃⟩ => ?_))
        by_contra hne
        exact h₃ i le_rfl (by omega) h0
    · refine ih ?_
      by_cases hj : s.rd8 j = s'.rd8 j ∨ j = o + i
      · exact .inl (rd8_wr8_congr _ hj)
      · rw [not_or] at hj
        obtain ⟨h₁, h₂, h₃⟩ := h.resolve_left hj.1
        exact .inr ⟨by omega, by omega, fun l hl => h₃ l (by omega)⟩

/-- It leaves what comes more than one byte after the terminator. -/
theorem rd8_safestrcpyLoop_of_late {l : ℕ} (hl : i ≤ l) (h0 : t l = 0) (hj : o + l + 1 < j) :
    (safestrcpyLoop o t k i s).rd8 j = s.rd8 j := by
  induction k generalizing i s with
  | zero => exact rd8_wr8_of_ne _ _ (by omega)
  | succ k ih =>
    rw [safestrcpyLoop]
    split
    · rw [rd8_wr8_of_ne _ _ (by omega), rd8_wr8_of_ne _ _ (by omega)]
    · rename_i hi
      have hil : i ≠ l := fun e => hi (e ▸ h0)
      rw [ih (by omega), rd8_wr8_of_ne _ _ (by omega)]

theorem slice_getD (hi : i < N) : ((s.slice 0 N).getD i 0).toNat = s.rd8 i := by
  simp [slice, rd8, hi]

end

variable {x : CostRecord} {e e' : CostInfo}

/-- The bytes of `entry` that the assignments reach. -/
def CostRecord.Covers (x : CostRecord) (i : ℕ) : Prop :=
  i < 4 ∨ (4 ≤ i ∧ i < 20 ∧ ∀ j, j + 1 < i - 4 → x.name.rd8 j ≠ 0) ∨ 24 ≤ i

/-- Below the cost, what the assignments do not reach decides what is left of the stack. -/
theorem CostRecord.rd8_copy_congr (h : ∀ i, ¬ x.Covers i → e.rd8 i = e'.rd8 i) {i : ℕ} (hi : i < 48) :
    (x.copy e).rd8 i = (x.copy e').rd8 i := by
  by_cases h24 : 24 ≤ i
  · by_cases h40 : 40 ≤ i
    · exact rd8_wrle_congr (.inr ⟨h40, hi⟩)
    · refine rd8_wrle_congr (.inl ?_)
      by_cases h32 : 32 ≤ i
      · exact rd8_wrle_congr (.inr (by omega))
      · exact rd8_wrle_congr (.inl (rd8_wrle_congr (.inr (by omega))))
  · refine rd8_wrle_congr (.inl (rd8_wrle_congr (.inl (rd8_wrle_congr (.inl ?_)))))
    simp only [safestrcpy, if_neg (show ¬ (16 : ℕ) = 0 by decide)]
    refine rd8_safestrcpyLoop_congr ?_
    by_cases hc : x.Covers i
    · rcases hc with hc | ⟨h4, h20, hname⟩ | hc
      · exact .inl (rd8_wrle_congr (.inr (by omega)))
      · exact .inr ⟨by omega, by omega, fun l _ => hname l⟩
      · exact absurd hc h24
    · exact .inl (rd8_wrle_congr (.inl (h i hc)))

theorem CostRecord.fill_congr (h : ∀ i, ¬ x.Covers i → e.rd8 i = e'.rd8 i) : x.fill e = x.fill e' := by
  have hrd : ∀ a, a + 8 ≤ 48 → (x.copy e).rdle a 8 = (x.copy e').rdle a 8 := fun a ha =>
    rdle_congr fun j _ _ => x.rd8_copy_congr h (by omega)
  refine ext_rd8 fun i hi => ?_
  simp only [CostRecord.fill]
  rw [hrd 24 (by omega), hrd 40 (by omega)]
  refine rd8_wrle_congr ?_
  by_cases h48 : 48 ≤ i
  · exact .inr (by omega)
  · exact .inl (x.rd8_copy_congr h (by omega))

theorem stati_congr {ip : Inode} {st st' : Stat} (h : ∀ i, 12 ≤ i → i < 16 → st.rd8 i = st'.rd8 i) :
    stati ip st = stati ip st' := by
  refine ext_rd8 fun i hi => ?_
  by_cases h16 : 16 ≤ i
  · exact rd8_wrle_congr (.inr (by omega))
  · refine rd8_wrle_congr (.inl ?_)
    by_cases h10 : 10 ≤ i ∧ i < 12
    · exact rd8_wrle_congr (.inr (by omega))
    · refine rd8_wrle_congr (.inl ?_)
      by_cases h8 : 8 ≤ i ∧ i < 10
      · exact rd8_wrle_congr (.inr (by omega))
      · refine rd8_wrle_congr (.inl ?_)
        by_cases h4 : 4 ≤ i ∧ i < 8
        · exact rd8_wrle_congr (.inr (by omega))
        · refine rd8_wrle_congr (.inl ?_)
          by_cases h0 : i < 4
          · exact rd8_wrle_congr (.inr (by omega))
          · exact rd8_wrle_congr (.inl (h i (by omega) (by omega)))

/-- The other bytes keep what the stack held. -/
theorem CostRecord.rd8_fill_of_not_covers {i : ℕ} (h : ¬ x.Covers i) : (x.fill e).rd8 i = e.rd8 i := by
  simp only [CostRecord.Covers, not_or, not_and, not_forall] at h
  obtain ⟨h4, hname, h24⟩ := h
  have hlow : ∀ {s : CostInfo}, (s.wrle 0 x.pid 4).rd8 i = s.rd8 i := rd8_wrle_of_disjoint _ _ (by omega)
  rw [CostRecord.fill, rd8_wrle_of_disjoint _ _ (by omega), CostRecord.copy,
    rd8_wrle_of_disjoint _ _ (by omega), rd8_wrle_of_disjoint _ _ (by omega),
    rd8_wrle_of_disjoint _ _ (by omega), safestrcpy, if_neg (by decide)]
  by_cases h20 : i < 20
  · obtain ⟨l, hl, h0⟩ := hname (by omega) h20
    rw [rd8_safestrcpyLoop_of_late (Nat.zero_le l) (not_not.1 h0) (by omega), hlow]
  · rw [rd8_safestrcpyLoop_of_disjoint (by omega), hlow]

theorem rd8_stati_of_padding {ip : Inode} {st : Stat} {i : ℕ} (h₁ : 12 ≤ i) (h₂ : i < 16) :
    (stati ip st).rd8 i = st.rd8 i := by
  rw [stati, rd8_wrle_of_disjoint _ _ (by omega), rd8_wrle_of_disjoint _ _ (by omega),
    rd8_wrle_of_disjoint _ _ (by omega), rd8_wrle_of_disjoint _ _ (by omega),
    rd8_wrle_of_disjoint _ _ (by omega)]

section

variable {M : Type} (C : Copier M) {see : Slot → CostRecord} {uaddr : ℕ} {max : ℤ} {qs : List Slot}
  {count : ℕ} {m : M}

/-- The first slot that is reported overwrites what the two stacks differ in. -/
theorem Copier.proccostLoop_congr (h : ∀ q, qs.find? (fun q => (see q).reported) = some q →
      ∀ i, ¬ (see q).Covers i → e.rd8 i = e'.rd8 i) :
    C.proccostLoop see uaddr max qs count e m = C.proccostLoop see uaddr max qs count e' m := by
  induction qs with
  | nil => rfl
  | cons q qs ih =>
    rw [Copier.proccostLoop, Copier.proccostLoop]
    by_cases hrep : (see q).reported = true
    · simp only [hrep, if_true, (see q).fill_congr (h q (by simp [hrep]))]
    · simp only [if_neg hrep, ih fun q' hq => h q' (by simpa [hrep] using hq)]

/-- The entries before `count` stay. -/
theorem Copier.byte_proccostLoop {a : ℕ} (hc : uaddr + count * 56 ≤ MAXVA) (ha : a < uaddr + count * 56) :
    C.byte (C.proccostLoop see uaddr max qs count e m).2 a = C.byte m a := by
  have hM : MAXVA < 2 ^ 64 := by decide
  induction qs generalizing count e m with
  | nil => rfl
  | cons q qs ih =>
    rw [Copier.proccostLoop, Nat.mod_eq_of_lt (by omega)]
    split
    · split
      · have hlen : (((see q).fill e).slice 0 56).length = 56 := by simp [slice]
        have hother := C.other (uaddr + count * 56) (((see q).fill e).slice 0 56) m a (.inl ha)
        simp only
        split
        · exact hother
        · rename_i hr
          have hok := (C.result _ _ _).resolve_right fun hneg => hr (hneg.trans_lt (by decide))
          have hb := C.bound _ _ _ hok (ne_nil_of_length_pos (by rw [hlen]; decide))
          rw [hlen] at hb
          rw [ih (by omega) (by omega), hother]
      · exact ih hc ha
    · rfl

/-- The first entry, if it can be written. -/
theorem Copier.byte_proccostLoop_first {q : Slot} (hu : uaddr < 2 ^ 64) (hmax : 0 < max)
    (hq : qs.find? (fun q => (see q).reported) = some q)
    (hok : ∀ src, src.length = 56 → (C.copyout uaddr src m).1 = 0) {i : ℕ} (hi : i < 56) :
    C.byte (C.proccostLoop see uaddr max qs 0 e m).2 (uaddr + i) = some (((see q).fill e).rd8 i) := by
  induction qs with
  | nil => cases hq
  | cons q' qs ih =>
    rw [Copier.proccostLoop, if_pos (by exact_mod_cast hmax)]
    by_cases hrep : (see q').reported = true
    · obtain rfl : q' = q := by simpa [hrep] using hq
      have hlen : (((see q').fill e).slice 0 56).length = 56 := by simp [slice]
      have hr := hok (((see q').fill e).slice 0 56) hlen
      have hb := C.bound _ _ _ hr (ne_nil_of_length_pos (by rw [hlen]; decide))
      rw [hlen] at hb
      rw [if_pos hrep, Nat.zero_mul, Nat.add_zero, Nat.mod_eq_of_lt hu]
      simp only [hr, lt_self_iff_false, if_false]
      rw [C.byte_proccostLoop (by omega) (by omega), C.written _ _ _ hr i (by rw [hlen]; exact hi),
        slice_getD hi]
    · rw [if_neg hrep]
      exact ih (by simpa [hrep] using hq)

/-- **When the copies do not depend on the stack.** The user memory after `sys_proccost` is the same for
two stacks if they agree, for the first slot that is reported, in the padding and in the bytes of `name[]`
that `safestrcpy` does not reach; after `filestat`, if they agree in the padding. Where the first structure
can be written, this is also necessary. -/
theorem copies_no_residue {M : Type} (C : Copier M) (see : Slot → CostRecord) (uaddr : ℕ) (max : ℤ)
    (type : FileType) (ip : Inode) (addr : ℕ) (e e' : CostInfo) (st st' : Stat) (m : M)
    (hu : uaddr < 2 ^ 64) :
    ((0 < max → ∀ q, (finRange NPROC).find? (fun q => (see q).reported) = some q →
        ∀ i < 56, ¬ (see q).Covers i → e.rd8 i = e'.rd8 i) →
      C.sysProccost see uaddr max e m = C.sysProccost see uaddr max e' m) ∧
    ((∀ src, src.length = 56 → (C.copyout uaddr src m).1 = 0) →
      (∀ a, C.byte (C.sysProccost see uaddr max e m).2 a =
        C.byte (C.sysProccost see uaddr max e' m).2 a) →
      0 < max → ∀ q, (finRange NPROC).find? (fun q => (see q).reported) = some q →
        ∀ i < 56, ¬ (see q).Covers i → e.rd8 i = e'.rd8 i) ∧
    ((type = .inode ∨ type = .device → ∀ i, 12 ≤ i → i < 16 → st.rd8 i = st'.rd8 i) →
      C.filestat type ip addr st m = C.filestat type ip addr st' m) ∧
    ((∀ src, src.length = 24 → (C.copyout addr src m).1 = 0) →
      (∀ a, C.byte (C.filestat type ip addr st m).2 a = C.byte (C.filestat type ip addr st' m).2 a) →
      type = .inode ∨ type = .device → ∀ i, 12 ≤ i → i < 16 → st.rd8 i = st'.rd8 i) := by
  have hover : ∀ {i : ℕ} {x : CostRecord}, ¬ i < 56 → x.Covers i := fun h => .inr (.inr (by omega))
  refine ⟨fun h => ?_, fun hok hsame hmax q hq i hi hc => ?_, fun h => ?_, fun hok hsame ht i h₁ h₂ => ?_⟩
  · rw [Copier.sysProccost, Copier.sysProccost]
    split
    · rfl
    · rename_i hmax
      exact C.proccostLoop_congr fun q hq i hc =>
        h (by omega) q hq i (by_contra fun hi => hc (hover hi)) hc
  · have h := hsame (uaddr + i)
    rw [Copier.sysProccost, Copier.sysProccost, if_neg (by omega), if_neg (by omega),
      C.byte_proccostLoop_first hu hmax hq hok hi, C.byte_proccostLoop_first hu hmax hq hok hi,
      CostRecord.rd8_fill_of_not_covers hc, CostRecord.rd8_fill_of_not_covers hc] at h
    exact Option.some.inj h
  · rw [Copier.filestat, Copier.filestat]
    split
    · rename_i ht
      rw [stati_congr (h ht)]
    · rfl
  · have hlen : ∀ st : Stat, ((stati ip st).slice 0 24).length = 24 := fun st => by simp [slice]
    have hbyte : ∀ st : Stat, C.byte (C.filestat type ip addr st m).2 (addr + i) = some (st.rd8 i) := by
      intro st
      rw [Copier.filestat, if_pos ht]
      exact (C.written _ _ _ (hok _ (hlen st)) i (by rw [hlen]; omega)).trans
        (by rw [slice_getD (by omega), rd8_stati_of_padding h₁ h₂])
    have h := hsame (addr + i)
    rw [hbyte, hbyte] at h
    exact Option.some.inj h

end

/-- One writable page of zeros at address 0. -/
def onePage : UserLogical := ⟨fun n => if n = 0 then some (lazyFlags, Bytes.zero) else none, fun n hn => by
  by_cases h0 : n = 0
  · subst h0
    decide
  · simp [h0] at hn⟩

/-- A table with one process, of pid 1 and the empty name. -/
def oneProcess (q : Slot) : CostRecord :=
  ⟨if q.val = 0 then .running else .unused, 1, Bytes.zero, 7, 3, 2⟩

/-- An inode of a file. -/
def oneInode : Inode := ⟨2, 1, true, { Dinode.fresh T_FILE with nlink := 1, size := 100 }⟩

/-- Stacks that differ in a byte that an assignment reaches give the same memory, and those that differ in
the padding do not. -/
theorem copies_no_residue_pid :
    logicalCopier.sysProccost oneProcess 0 64 Bytes.zero onePage =
        logicalCopier.sysProccost oneProcess 0 64 (Bytes.wr8 Bytes.zero 0 170) onePage ∧
      ¬ ∀ a, logicalCopier.byte (logicalCopier.filestat .inode oneInode 0 Bytes.zero onePage).2 a =
        logicalCopier.byte (logicalCopier.filestat .inode oneInode 0 (Bytes.wr8 Bytes.zero 12 170)
          onePage).2 a := by
  have h := copies_no_residue logicalCopier oneProcess 0 64 .inode oneInode 0 Bytes.zero
    (Bytes.wr8 Bytes.zero 0 170) Bytes.zero (Bytes.wr8 Bytes.zero 12 170) onePage (by decide)
  refine ⟨h.1 fun _ q _ i _ hc => ?_, fun hsame => ?_⟩
  · rw [Bytes.rd8_wr8_of_ne _ _ fun h0 => hc (.inl (by omega))]
  · have hok : ∀ src : List UInt8, src.length = 24 → (logicalCopier.copyout 0 src onePage).1 = 0 := by
      intro src hs
      have hne : src ≠ [] := ne_nil_of_length_pos (by omega)
      change (onePage.1.copyout src.length 0 src).1 = 0
      rw [hs, LogicalMem.copyout_succ _ hne onePage.2, drop_eq_nil_of_le (by rw [hs]; decide)]
      rfl
    exact absurd (h.2.2.2 hok hsame (.inl rfl) 12 le_rfl (by decide)) (by decide)

/-- Both calls copy bytes of the stack out: `sys_proccost` from the padding and from the bytes after the
name, `filestat` from the padding. -/
theorem copies_residue :
    logicalCopier.byte (logicalCopier.sysProccost oneProcess 0 64 (fun _ => 0) onePage).2 20 = some 0 ∧
    logicalCopier.byte (logicalCopier.sysProccost oneProcess 0 64 (fun _ => 170) onePage).2 20 = some 170 ∧
    logicalCopier.byte (logicalCopier.sysProccost oneProcess 0 64 (fun _ => 0) onePage).2 10 = some 0 ∧
    logicalCopier.byte (logicalCopier.sysProccost oneProcess 0 64 (fun _ => 170) onePage).2 10 = some 170 ∧
    logicalCopier.byte (logicalCopier.filestat .inode oneInode 0 (fun _ => 0) onePage).2 12 = some 0 ∧
    logicalCopier.byte (logicalCopier.filestat .inode oneInode 0 (fun _ => 170) onePage).2 12 = some 170 := by
  decide +kernel

end Xv6
