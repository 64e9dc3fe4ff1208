import Xv6.Console.Machine

/-!
# The console is a line editor

The reference line editor keeps two lists: the bytes `ready` for readers and the `line` being edited.
It has no buffer and no indices. Every run of the console is a run of the editor with the same bytes
typed, the same calls, the same bytes delivered and the same results (`Sim.step`).

The lists are read off the ring, from `r` to `w` and from `w` to `e`. The uncommitted line has no
newline, so that kill-line, which stops at one, empties it.
-/

namespace Xv6

open Function Ring List

/-! ### The reference editor -/

structure Editor where
  ready : List UInt8
  line : List UInt8

namespace Editor

/-- The number of bytes kept. -/
def size (x : Editor) : ℕ := x.ready.length + x.line.length

/-- A byte is added to the line. A newline, control-D or the last byte there is room for commits it. -/
def add (x : Editor) (c : UInt8) : Editor :=
  if c = newline ∨ c = ctrl 'D' ∨ x.size + 1 = INPUT_BUF_SIZE then ⟨x.ready ++ (x.line ++ [c]), []⟩
  else ⟨x.ready, x.line ++ [c]⟩

/-- A byte is typed. -/
def type (x : Editor) (c : UInt8) : Editor :=
  if c = ctrl 'P' then x
  else if c = ctrl 'U' then { x with line := [] }
  else if c = ctrl 'H' ∨ c = del then { x with line := x.line.dropLast }
  else if c = 0 ∨ INPUT_BUF_SIZE ≤ x.size then x
  else x.add (if c = '\r'.toUInt8 then newline else c)

end Editor

/-- A read in progress: the number of bytes asked for and the number delivered. -/
structure Reading where
  want : ℤ
  got : ℕ

structure EditSys where
  editor : Editor
  reading : Slot → Option Reading

/-- The editor before the first byte. -/
def EditSys.init : EditSys := ⟨⟨[], []⟩, fun _ => none⟩

/-- `p` is now reading as in `k`, and the ready bytes are `l`. -/
def EditSys.serve (t : EditSys) (p : Slot) (k : Option Reading) (l : List UInt8) : EditSys :=
  ⟨{ t.editor with ready := l }, update t.reading p k⟩

/-- One step of the editor, with what is seen of it. -/
inductive EditStep : EditSys → List ConsEvent → EditSys → Prop
  | typed {t : EditSys} (c : UInt8) : EditStep t [.typed c] { t with editor := t.editor.type c }
  | call {t : EditSys} (p : Slot) (a : ConsArgs) :
      t.reading p = none → EditStep t [.call p a] (t.serve p (some ⟨a.n, 0⟩) t.editor.ready)
  /-- A read ends when it has the bytes it asked for. -/
  | full {t : EditSys} {p : Slot} {k : Reading} :
      t.reading p = some k → k.want ≤ k.got →
        EditStep t [.ret p k.got] (t.serve p none t.editor.ready)
  /-- A read of a killed process fails when nothing is ready. -/
  | killed {t : EditSys} {p : Slot} {k : Reading} :
      t.reading p = some k → t.editor.ready = [] → EditStep t [.ret p (-1)] (t.serve p none [])
  /-- Control-D ends a read short, and is kept. -/
  | short {t : EditSys} {p : Slot} {k : Reading} {l : List UInt8} :
      t.reading p = some k → k.got < k.want → t.editor.ready = ctrl 'D' :: l → 0 < k.got →
        EditStep t [.ret p k.got] (t.serve p none t.editor.ready)
  /-- Control-D at the start of a read gives a read of no bytes. -/
  | eof {t : EditSys} {p : Slot} {k : Reading} {l : List UInt8} :
      t.reading p = some k → k.got < k.want → t.editor.ready = ctrl 'D' :: l → k.got = 0 →
        EditStep t [.ret p 0] (t.serve p none l)
  /-- A newline is delivered and ends a read. -/
  | line {t : EditSys} {p : Slot} {k : Reading} {l : List UInt8} :
      t.reading p = some k → k.got < k.want → t.editor.ready = newline :: l →
        EditStep t [.deliver p newline, .ret p (k.got + 1)] (t.serve p none l)
  | byte {t : EditSys} {p : Slot} {k : Reading} {c : UInt8} {l : List UInt8} :
      t.reading p = some k → k.got < k.want → t.editor.ready = c :: l → c ≠ ctrl 'D' → c ≠ newline →
        EditStep t [.deliver p c] (t.serve p (some ⟨k.want, k.got + 1⟩) l)

/-! ### The lists of a console -/

theorem inputBuf_dvd : INPUT_BUF_SIZE ∣ 2 ^ 32 := ⟨2 ^ 25, rfl⟩

namespace Cons

/-- The committed bytes. -/
def ready (x : Cons) : List UInt8 := read x.buf x.r (dist x.r x.w)

/-- The bytes not yet committed. -/
def line (x : Cons) : List UInt8 := read x.buf x.w (dist x.w x.e)

/-- The editor that a console stands for. -/
def editor (x : Cons) : Editor := ⟨x.ready, x.line⟩

/-- The bytes from `r` over `w` to `e` fit in the buffer, and none past `w` is a newline. -/
structure Ok (x : Cons) : Prop where
  fits : dist x.r x.w + dist x.w x.e ≤ INPUT_BUF_SIZE
  open_line : newline ∉ x.line

variable {x : Cons}

theorem size_editor : x.editor.size = dist x.r x.w + dist x.w x.e := by
  simp [Editor.size, editor, ready, line]

theorem Ok.dist (h : x.Ok) : dist x.r x.e = dist x.r x.w + dist x.w x.e := by
  refine dist_add ?_
  have := h.fits
  simp only [INPUT_BUF_SIZE] at this
  omega

/-! ### Erasing -/

theorem line_erase (h : 0 < dist x.w x.e) : x.line = x.erase.line ++ [x.last] := by
  have hd := dist_pred h
  rw [line, ← hd, read_succ, add_dist]
  rfl

theorem line_eq_nil (h : x.e = x.w) : x.line = [] := by
  rw [line, h, dist_self, read_zero]

theorem killLine_eq {k : ℕ} (hk : dist x.w x.e = k) (hl : newline ∉ x.line) :
    x.killLine k = { x with e := x.w } := by
  induction k generalizing x with
  | zero =>
    obtain ⟨buf, r, w, e⟩ := x
    obtain rfl : w = e := dist_eq_zero_iff.1 hk
    rfl
  | succ k ih =>
    have hne : x.e ≠ x.w := fun e => by simp [e] at hk
    have hx := line_erase (x := x) (by omega)
    rw [hx, mem_append, mem_singleton, not_or] at hl
    have hd := dist_pred (a := x.w) (b := x.e) (by omega)
    rw [killLine, if_pos ⟨hne, Ne.symm hl.2⟩]
    exact ih (x := x.erase) (by change dist x.w (x.e - 1) = k; omega) hl.1

/-- What kill-line and erase do to a console: only `e` moves, back and not past `w`. -/
structure Spares (x y : Cons) : Prop where
  buf : y.buf = x.buf
  r : y.r = x.r
  w : y.w = x.w
  back : dist y.w y.e ≤ dist x.w x.e

/-- Committed bytes stay when only `e` moves. -/
theorem Spares.ready {y : Cons} (h : Spares x y) : y.ready = x.ready := by
  rw [Cons.ready, Cons.ready, h.buf, h.r, h.w]

theorem spares_erase (h : x.e ≠ x.w) : Spares x x.erase := by
  refine ⟨rfl, rfl, rfl, ?_⟩
  have hp : 0 < dist x.w x.e :=
    Nat.pos_of_ne_zero fun e => h (dist_eq_zero_iff.1 e).symm
  have := dist_pred hp
  change dist x.w (x.e - 1) ≤ _
  omega

/-- The loop of kill-line stops at `w`, whatever the bytes are. -/
theorem spares_killLine (k : ℕ) : Spares x (x.killLine k) := by
  induction k generalizing x with
  | zero => exact ⟨rfl, rfl, rfl, le_rfl⟩
  | succ k ih =>
    rw [killLine]
    split_ifs with h
    · have h₁ := spares_erase h.1
      have h₂ := ih (x := x.erase)
      exact ⟨h₂.buf.trans h₁.buf, h₂.r.trans h₁.r, h₂.w.trans h₁.w, h₂.back.trans h₁.back⟩
    · exact ⟨rfl, rfl, rfl, le_rfl⟩

/-- Does the byte erase? -/
def Erases (c : UInt8) : Prop := c = ctrl 'U' ∨ c = ctrl 'H' ∨ c = del

theorem spares_intr {c : UInt8} (hc : Erases c) : Spares x (x.intr c) := by
  have hP : c ≠ ctrl 'P' := by rcases hc with rfl | rfl | rfl <;> decide
  rw [intr, if_neg hP]
  split_ifs with hU hH he
  · exact spares_killLine _
  · exact spares_erase he
  · exact ⟨rfl, rfl, rfl, le_rfl⟩
  · exact absurd hc (by simp only [Erases]; tauto)

/-! ### Storing -/

section Store

variable (h : x.Ok) (hs : dist x.r x.e < INPUT_BUF_SIZE) (c : UInt8)

include h hs

theorem dist_store : dist x.w (x.store c).e = dist x.w x.e + 1 := by
  refine dist_succ ?_
  have := h.dist
  simp only [INPUT_BUF_SIZE] at hs
  omega

theorem ready_store : (x.store c).ready = x.ready := by
  have hd := h.dist
  have := read_update x.buf x.r c inputBuf_dvd
    (show dist x.r x.w ≤ dist x.r x.e by omega) hs
  rwa [add_dist] at this

theorem line_store : (x.store c).line = x.line ++ [c] := by
  have hd := h.dist
  have := read_push x.buf x.w c inputBuf_dvd
    (show dist x.w x.e < INPUT_BUF_SIZE by omega)
  rw [add_dist] at this
  rw [line, show (x.store c).w = x.w from rfl, dist_store h hs]
  exact this

theorem fits_store : dist x.r x.w + dist x.w (x.store c).e ≤ INPUT_BUF_SIZE := by
  have hd := h.dist
  rw [dist_store h hs]
  omega

theorem dist_store_r : dist (x.store c).r (x.store c).e = x.editor.size + 1 := by
  have hd := h.dist
  have hf := fits_store h hs c
  have hw := dist_store h hs c
  have := dist_add (a := x.r) (b := x.w) (c := (x.store c).e)
    (by simp only [INPUT_BUF_SIZE] at hf; omega)
  rw [size_editor]
  exact this.trans (by omega)

end Store

theorem editor_commit (hd : dist x.r x.e = dist x.r x.w + dist x.w x.e) :
    x.commit.editor = ⟨x.ready ++ x.line, []⟩ := by
  have hr : x.commit.ready = x.ready ++ x.line := by
    change read x.buf x.r (dist x.r x.e) = _
    rw [hd, read_add inputBuf_dvd, add_dist]
    rfl
  have hl : x.commit.line = [] := line_eq_nil rfl
  rw [editor, hr, hl]

/-! ### Taking -/

theorem ready_take (h : x.r ≠ x.w) : x.ready = x.front :: x.take.ready := by
  have hp : 0 < dist x.r x.w := Nat.pos_of_ne_zero fun e => h (dist_eq_zero_iff.1 e)
  have hd := dist_succ_left hp
  rw [ready, ← hd, read_cons inputBuf_dvd]
  rfl

theorem ready_eq_nil (h : x.r = x.w) : x.ready = [] := by
  rw [ready, h, dist_self, read_zero]

theorem Ok.take (h : x.Ok) (hr : x.r ≠ x.w) : x.take.Ok := by
  refine ⟨?_, h.open_line⟩
  have hp : 0 < Ring.dist x.r x.w := Nat.pos_of_ne_zero fun e => hr (dist_eq_zero_iff.1 e)
  have hd := dist_succ_left hp
  have hf := h.fits
  change Ring.dist (x.r + 1) x.w + Ring.dist x.w x.e ≤ _
  omega

/-! ### The handler -/

/-- `x` is in order and stands for the editor `t`. -/
def Shows (x : Cons) (t : Editor) : Prop := x.Ok ∧ x.editor = t

theorem Spares.ok {y : Cons} (h : x.Ok) (hs : Spares x y) (hl : ∀ b ∈ y.line, b ∈ x.line) :
    y.Ok := by
  refine ⟨?_, fun hm => h.open_line (hl _ hm)⟩
  have hf := h.fits
  have hb := hs.back
  rw [hs.r, hs.w]
  rw [hs.w] at hb
  omega

theorem shows_killLine (h : x.Ok) :
    Shows (x.killLine (dist x.w x.e)) { x.editor with line := [] } := by
  have hs := spares_killLine (x := x) (dist x.w x.e)
  have hl : (x.killLine (dist x.w x.e)).line = [] := by
    rw [killLine_eq rfl h.open_line]
    exact line_eq_nil rfl
  refine ⟨hs.ok h fun b hb => by simp [hl] at hb, ?_⟩
  rw [editor, hs.ready, hl]
  rfl

theorem shows_erase (h : x.Ok) :
    Shows (if x.e ≠ x.w then x.erase else x) { x.editor with line := x.line.dropLast } := by
  split_ifs with he
  · have hs := spares_erase he
    have hl := line_erase (x := x) (Nat.pos_of_ne_zero fun e => he (dist_eq_zero_iff.1 e).symm)
    refine ⟨hs.ok h fun b hb => by rw [hl]; exact mem_append_left _ hb, ?_⟩
    rw [editor, hs.ready, hl, dropLast_concat]
    rfl
  · refine ⟨h, ?_⟩
    rw [editor, line_eq_nil (not_not.1 he)]
    rfl

theorem shows_add (h : x.Ok) (hs : dist x.r x.e < INPUT_BUF_SIZE) (c : UInt8) :
    Shows (if c = newline ∨ c = ctrl 'D' ∨ dist (x.store c).r (x.store c).e = INPUT_BUF_SIZE
      then (x.store c).commit else x.store c) (x.editor.add c) := by
  have hr := ready_store h hs c
  have hl := line_store h hs c
  have hf := fits_store h hs c
  have hd := dist_store_r h hs c
  have hw := dist_store h hs c
  rw [hd, Editor.add]
  split_ifs with hc
  · have he : dist (x.store c).r (x.store c).e
        = dist (x.store c).r (x.store c).w + dist (x.store c).w (x.store c).e := by
      rw [hd, size_editor]
      change _ = dist x.r x.w + dist x.w (x.store c).e
      omega
    refine ⟨⟨?_, by rw [line_eq_nil rfl]; exact not_mem_nil⟩, ?_⟩
    · change dist x.r (x.store c).e + dist (x.store c).e (x.store c).e ≤ _
      rw [dist_self, show dist x.r (x.store c).e = _ from he]
      exact hf
    · rw [editor_commit he, hr, hl]
      rfl
  · rw [not_or] at hc
    refine ⟨⟨hf, ?_⟩, by rw [editor, hr, hl]; rfl⟩
    rw [hl, mem_append, mem_singleton, not_or]
    exact ⟨h.open_line, Ne.symm hc.1⟩

/-- The `default` case. -/
theorem shows_insert (h : x.Ok) (c : UInt8) :
    Shows (x.insert c) (if c = 0 ∨ INPUT_BUF_SIZE ≤ x.editor.size then x.editor
      else x.editor.add (if c = '\r'.toUInt8 then newline else c)) := by
  have hd : dist x.r x.e = x.editor.size := h.dist.trans size_editor.symm
  by_cases hc : c = 0 ∨ INPUT_BUF_SIZE ≤ x.editor.size
  · have hn : ¬(c ≠ 0 ∧ dist x.r x.e < INPUT_BUF_SIZE) := fun h' =>
      hc.elim h'.1 fun hle => absurd (hd ▸ h'.2) (Nat.not_lt.2 hle)
    rw [if_pos hc, Cons.insert, if_neg hn]
    exact ⟨h, rfl⟩
  · rw [not_or, Nat.not_le] at hc
    have hs : dist x.r x.e < INPUT_BUF_SIZE := hd ▸ hc.2
    rw [if_neg (not_or.2 ⟨hc.1, Nat.not_le.2 hc.2⟩), Cons.insert, if_pos ⟨hc.1, hs⟩]
    exact shows_add h hs _

/-- **The handler edits**: `consoleintr` does to the lists what the editor does. -/
theorem shows_intr (h : x.Ok) (c : UInt8) : Shows (x.intr c) (x.editor.type c) := by
  rw [intr, Editor.type]
  by_cases hP : c = ctrl 'P'
  · rw [if_pos hP, if_pos hP]
    exact ⟨h, rfl⟩
  rw [if_neg hP, if_neg hP]
  by_cases hU : c = ctrl 'U'
  · rw [if_pos hU, if_pos hU]
    exact shows_killLine h
  rw [if_neg hU, if_neg hU]
  by_cases hH : c = ctrl 'H' ∨ c = del
  · rw [if_pos hH, if_pos hH]
    exact shows_erase h
  rw [if_neg hH, if_neg hH]
  exact shows_insert h c

end Cons

/-! ### Runs -/

/-- The read that a process is in. -/
def ConsPc.reading : ConsPc → Option Reading
  | .idle => none
  | .enter a n => some ⟨a.n, (a.n - n).toNat⟩
  | .loop a n => some ⟨a.n, (a.n - n).toNat⟩

/-- The destination of a read is valid, and `n` has only been counted down. -/
def ConsPc.Valid : ConsPc → Prop
  | .idle => True
  | .enter a n => (∀ i, a.dst i = true) ∧ n ≤ a.n
  | .loop a n => (∀ i, a.dst i = true) ∧ n ≤ a.n

/-- The console `s` simulates the editor `t`. -/
structure Sim (s : ConsSys) (t : EditSys) : Prop where
  shows : s.cons.Shows t.editor
  reading : ∀ p, t.reading p = (s.pc p).reading
  valid : ∀ p, (s.pc p).Valid

/-- The destinations of all calls are valid. -/
def ValidCalls (tr : List ConsEvent) : Prop := ∀ p a, ConsEvent.call p a ∈ tr → ∀ i, a.dst i = true

namespace Sim

variable {s : ConsSys} {t : EditSys}

/-- One process moves and the buffer becomes `x`; the editor follows. -/
theorem move (h : Sim s t) (p : Slot) {k : ConsPc} {l : Option Slot} {x : Cons} {ready : List UInt8}
    (hk : k.Valid) (hx : x.Shows { t.editor with ready := ready }) :
    Sim ⟨x, l, update s.pc p k⟩ (t.serve p k.reading ready) := by
  refine ⟨hx, fun q => ?_, fun q => ?_⟩
  · by_cases hq : q = p
    · subst hq
      simp [EditSys.serve]
    · simp [EditSys.serve, hq, h.reading q]
  · by_cases hq : q = p
    · subst hq
      simpa using hk
    · simpa [hq] using h.valid q

/-- A process moves without a change to the read it is in. -/
theorem stay (h : Sim s t) {p : Slot} {k : ConsPc} {l : Option Slot} (hk : k.Valid)
    (hr : k.reading = (s.pc p).reading) : Sim ⟨s.cons, l, update s.pc p k⟩ t := by
  refine ⟨h.shows, fun q => ?_, fun q => ?_⟩
  · by_cases hq : q = p
    · subst hq
      simp [hr, h.reading q]
    · simp [hq, h.reading q]
  · by_cases hq : q = p
    · subst hq
      simpa using hk
    · simpa [hq] using h.valid q

theorem ready (h : Sim s t) : t.editor.ready = s.cons.ready := by
  rw [← h.shows.2]
  rfl

theorem take (h : Sim s t) (hr : s.cons.r ≠ s.cons.w) :
    s.cons.take.Shows { t.editor with ready := s.cons.take.ready } := by
  refine ⟨h.shows.1.take hr, ?_⟩
  rw [← h.shows.2]
  rfl

theorem ready_take (h : Sim s t) (hr : s.cons.r ≠ s.cons.w) :
    t.editor.ready = s.cons.front :: s.cons.take.ready :=
  h.ready.trans (Cons.ready_take hr)

section Loop

variable {p : Slot} {a : ConsArgs} {n : ℤ} (h : Sim s t) (hp : s.pc p = .loop a n)

include h hp

theorem reading_loop : t.reading p = some ⟨a.n, (a.n - n).toNat⟩ := by
  rw [h.reading p, hp]
  rfl

theorem valid_loop : (∀ i, a.dst i = true) ∧ n ≤ a.n := by
  have := h.valid p
  rwa [hp] at this

theorem got : (((a.n - n).toNat : ℕ) : ℤ) = a.n - n := by
  have := (valid_loop h hp).2
  omega

end Loop

/-- **One step**: what a step of the console shows, the editor can do. -/
theorem step {es : List ConsEvent} {s' : ConsSys} (h : Sim s t) (st : ConsStep s es s')
    (hv : ValidCalls es) : ∃ t', Trans.Run EditStep t es t' ∧ Sim s' t' := by
  cases st with
  | intr c hl =>
    have hi := Cons.shows_intr h.shows.1 c
    rw [h.shows.2] at hi
    exact ⟨_, .single (.typed c), ⟨hi, h.reading, h.valid⟩⟩
  | call p a hp =>
    have hn : t.reading p = none := by
      rw [h.reading p, hp]
      rfl
    have hk : (ConsPc.enter a a.n).Valid := ⟨hv p a (mem_singleton.2 rfl), le_rfl⟩
    have hm := h.move p (l := s.lock) hk h.shows
    rw [ConsPc.reading, sub_self] at hm
    exact ⟨_, .single (.call p a hn), hm⟩
  | @acquire p a n hp hl =>
    have hk : (ConsPc.loop a n).Valid := by
      have := h.valid p
      rwa [hp] at this
    exact ⟨t, .refl, h.stay hk (by rw [hp]; rfl)⟩
  | @done p a n hp hn =>
    have hg := h.got hp
    have hs := EditStep.full (h.reading_loop hp) (by rw [hg]; change a.n ≤ a.n - n; omega)
    rw [hg] at hs
    exact ⟨_, .single hs, h.move p trivial h.shows⟩
  | @killed p a n hp hn hr =>
    have he : t.editor.ready = [] := h.ready.trans (Cons.ready_eq_nil hr)
    refine ⟨_, .single (.killed (h.reading_loop hp) he), h.move p trivial ?_⟩
    rw [← he]
    exact h.shows
  | @sleep p a n hp hn hr =>
    exact ⟨t, .refl, h.stay (h.valid_loop hp) (by rw [hp]; rfl)⟩
  | @eof p a n hp hn hr hc =>
    have hg := h.got hp
    have hle := (h.valid_loop hp).2
    have hd := h.ready_take hr
    rw [hc] at hd
    have hlt : ((a.n - n).toNat : ℤ) < a.n := by omega
    by_cases hna : n < a.n
    · have hs := EditStep.short (h.reading_loop hp) hlt hd (by change 0 < (a.n - n).toNat; omega)
      rw [hg] at hs
      rw [if_pos hna]
      exact ⟨_, .single hs, h.move p trivial h.shows⟩
    · have hs := EditStep.eof (h.reading_loop hp) hlt hd (by change (a.n - n).toNat = 0; omega)
      rw [if_neg hna, show a.n - n = 0 by omega]
      exact ⟨_, .single hs, h.move p trivial (h.take hr)⟩
  | @fault p a n hp hn hr hc hd =>
    -- a valid destination does not fault
    rw [(h.valid_loop hp).1] at hd
    exact absurd hd (by decide)
  | @line p a n hp hn hr hc hd =>
    have hg := h.got hp
    have ht := h.ready_take hr
    rw [hc] at ht
    have hs := EditStep.line (h.reading_loop hp) (by change ((a.n - n).toNat : ℤ) < a.n; omega) ht
    rw [hg, show a.n - n + 1 = a.n - (n - 1) by omega] at hs
    exact ⟨_, .single hs, h.move p trivial (h.take hr)⟩
  | @byte p a n hp hn hr hc hc' hd =>
    have hg := h.got hp
    have hv' := h.valid_loop hp
    have hs := EditStep.byte (h.reading_loop hp) (by change ((a.n - n).toNat : ℤ) < a.n; omega)
      (h.ready_take hr) hc hc'
    have hk : (ConsPc.loop a (n - 1)).Valid := ⟨hv'.1, by omega⟩
    have hm := h.move p (l := s.lock) hk (h.take hr)
    rw [ConsPc.reading, show (a.n - (n - 1)).toNat = (a.n - n).toNat + 1 by omega] at hm
    exact ⟨_, .single hs, hm⟩

theorem init : Sim .init .init := by
  refine ⟨⟨⟨?_, ?_⟩, rfl⟩, fun _ => rfl, fun _ => trivial⟩
  · exact Nat.zero_le _
  · exact not_mem_nil

theorem run {tr : List ConsEvent} (hr : Trans.Run ConsStep .init tr s) (hv : ValidCalls tr) :
    ∃ t, Trans.Run EditStep .init tr t ∧ Sim s t := by
  refine Trans.Run.invariant
    (I := fun tr s => ValidCalls tr → ∃ t, Trans.Run EditStep .init tr t ∧ Sim s t)
    (fun _ => ⟨_, .refl, init⟩) (fun es s fs s' ih st hv => ?_) hr hv
  obtain ⟨t, ht, hs⟩ := ih fun p a h => hv p a (mem_append_left _ h)
  obtain ⟨t', ht', hs'⟩ := hs.step st fun p a h => hv p a (mem_append_right _ h)
  exact ⟨t', ht.trans ht', hs'⟩

end Sim

/-- `r ≤ w ≤ e ≤ r + INPUT_BUF_SIZE`, as distances from `r` in 32 bits. -/
def Cons.Ordered (x : Cons) : Prop :=
  dist x.r x.w ≤ dist x.r x.e ∧ dist x.r x.e ≤ INPUT_BUF_SIZE

theorem Cons.Ok.ordered {x : Cons} (h : x.Ok) : x.Ordered := by
  have hf := h.fits
  rw [Cons.Ordered, h.dist]
  exact ⟨Nat.le_add_right _ _, hf⟩

/-- **The line discipline.** In every state that the console reaches with valid destinations, the
indices are in order, erase and kill-line only move `e` back, and not past `w`, and the run is one of
the reference editor: the same bytes are typed, delivered and returned for, in the same order. -/
theorem console_line_discipline {tr : List ConsEvent} {s : ConsSys}
    (hr : Trans.Run ConsStep .init tr s) (hv : ValidCalls tr) :
    s.cons.Ordered ∧
      (∀ c, Cons.Erases c → Cons.Spares s.cons (s.cons.intr c) ∧
        (s.cons.intr c).Ordered ∧ (s.cons.intr c).ready = s.cons.ready) ∧
      ∃ t, Trans.Run EditStep .init tr t ∧ t.editor = s.cons.editor := by
  obtain ⟨t, ht, hs⟩ := Sim.run hr hv
  refine ⟨hs.shows.1.ordered, fun c hc => ?_, t, ht, hs.shows.2.symm⟩
  have hsp := Cons.spares_intr (x := s.cons) hc
  exact ⟨hsp, (Cons.shows_intr hs.shows.1 c).1.ordered, hsp.ready⟩

/-- A byte is typed and erased, then an empty line and control-D are typed. The first read gets the
newline, the second no bytes. -/
theorem console_line_discipline_two_reads :
    let a : ConsArgs := ⟨fun _ => true, 5⟩
    let tr : List ConsEvent := [.typed 97, .typed del, .typed newline, .typed (ctrl 'D'), .call 0 a,
      .deliver 0 newline, .ret 0 1, .call 0 a, .ret 0 0]
    ∃ s, Trans.Run ConsStep .init tr s ∧ ValidCalls tr ∧ s.cons.r = 2 ∧ s.cons.Ordered ∧
      ∃ t, Trans.Run EditStep .init tr t ∧ t.editor = s.cons.editor := by
  intro a tr
  have hr := (Trans.Run.refl : Trans.Run ConsStep .init [] _)
    |>.tail (.intr 97 rfl)
    |>.tail (.intr del rfl)
    |>.tail (.intr newline rfl)
    |>.tail (.intr (ctrl 'D') rfl)
    |>.tail (.call 0 a rfl)
    |>.tail (@ConsStep.acquire _ 0 a 5 rfl rfl)
    |>.tail (@ConsStep.line _ 0 a 5 rfl (by decide) (by decide +kernel)
      (by decide +kernel) rfl)
    |>.tail (.call 0 a rfl)
    |>.tail (@ConsStep.acquire _ 0 a 5 rfl rfl)
    |>.tail (@ConsStep.eof _ 0 a 5 rfl (by decide) (by decide +kernel)
      (by decide +kernel))
  have hv : ValidCalls tr := fun p b h i => by
    simp only [tr, List.mem_cons, List.not_mem_nil, reduceCtorEq, ConsEvent.call.injEq, false_or,
      or_false] at h
    obtain ⟨-, rfl⟩ | ⟨-, rfl⟩ := h <;> rfl
  obtain ⟨ho, -, ht⟩ := @console_line_discipline tr _ hr hv
  exact ⟨_, hr, hv, by decide +kernel, ho, ht⟩

end Xv6
