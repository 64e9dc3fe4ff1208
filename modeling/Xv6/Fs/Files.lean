import Xv6.Mkfs.Mount

/-!
# The contents of files

What `readi` and `writei` do in a consistent state, for an entry of the inode table in use that was read
(the callers hold its lock): which writes are refused, what the bytes and the size of the inode are
afterwards, that no other inode changes, and what a read returns.
-/

namespace Xv6

open RedoLog Prog Set List

variable {sb : Superblock} {off : ℕ} {s : Fs} {e : Iptr}

/-- A write that `writei` refuses: it starts after the end, its end overflows, or the file would get too
large. -/
def WriteRefused (size off n : ℕ) : Prop := size < off ∨ 2 ^ 32 ≤ off + n ∨ MAXFILE * BSIZE < off + n

/-- What a consistent state is like after `r` bytes of `src` were written at the offset `off` of the inode
`i`. -/
structure WroteAt (sb : Superblock) (s : Fs) (i off r : ℕ) (src : Src) (s' : Fs) : Prop where
  consistent : Consistent sb s'
  data : (s'.store.img sb).bytes i =
    overwrite ((s.store.img sb).bytes i) off ((List.range r).map src.byte)
  size : ((s'.store.img sb).X i).size = max ((s.store.img sb).X i).size (off + r)
  other : ∀ j ≠ i, (s'.store.img sb).node sb j = (s.store.img sb).node sb j

/-- The bytes of the inode `i` from `off` up to `off + n` or its end, whichever is first. -/
def Img.segment (g : Img) (i off n : ℕ) : List UInt8 := ((g.bytes i).drop off).take n

/-- `readi` returns a segment of the file and changes nothing. It returns unless every buffer is pinned by
the log. -/
theorem Consistent.readi_eq {dst : Dst} {n : ℕ} (h : Consistent sb s) (hsb : sb.Ok)
    (href : 0 < (s.inode e).ref) (hv : (s.inode e).valid = true) (hdst : dst.Accepts n)
    (hn : off + n < 2 ^ 32) (hbuf : s.store.lh.length < s.store.bufs.length) :
    ∃ s', readi sb e dst off n s =
      (.ok ((((s.store.img sb).segment (s.inode e).inum off n).length : ℤ),
        (s.store.img sb).segment (s.inode e).inum off n), s') ∧ Consistent sb s' := by
  set seg := (s.store.img sb).segment (s.inode e).inum off n with hseg
  have hp : wp (readi sb e dst off n) (fun r s' => r = ((seg.length : ℤ), seg) ∧ Consistent sb s')
      (fun _ _ => False) s := by
    have hl := h.loaded href hv
    refine wp_readi (P := fun _ => False) hsb h.vol.legible (fun hle => ?_) h.vol.shows hl
      (h.vol.blocks_below hl.alive) ?_
    · simp only [length_nil, Nat.zero_add] at hle
      omega
    · intro st' r bs h' hr hbs
      obtain ⟨rfl, rfl⟩ := hbs hdst (.inr rfl) hn
      have hv' : Vol sb (s.store.img sb) ∅ ∅ s.store.outstanding [] st' := { h.vol with shows := h' }
      refine ⟨rfl, ?_, ?_⟩
      · simp only [hr.outstanding]
        exact hv'.current hsb rfl
      · have hX := (hv'.agree_current hsb rfl).X
        refine ⟨h.tab.range, h.tab.uniq, fun e' hr' hv' => ?_⟩
        rw [hX _ (h.tab.range e' hr').2]
        exact h.tab.copy e' hr' hv'
  obtain ⟨r, s', hrun, rfl, hc⟩ := wp_total hp
  exact ⟨s', hrun, hc⟩

/-- `writei` from a readable source refuses exactly the writes it must, without a change; otherwise it
writes some of the bytes. -/
theorem Consistent.wp_writei {src : Src} {n : ℕ} (h : Consistent sb s) (hsb : sb.Ok)
    (href : 0 < (s.inode e).ref) (hv : (s.inode e).valid = true) (hsrc : src.Readable n)
    (hn : n < 2 ^ 32) :
    wp (writei sb e src off n) (fun r s' =>
      (WriteRefused ((s.store.img sb).X (s.inode e).inum).size off n ∧ r = -1 ∧ s' = s) ∨
      ¬ WriteRefused ((s.store.img sb).X (s.inode e).inum).size off n ∧
        ∃ m : ℕ, r = m ∧ m ≤ n ∧ WroteAt sb s (s.inode e).inum off m src s' ∧
          (s'.inode e).inum = (s.inode e).inum ∧ (s'.inode e).ref = (s.inode e).ref ∧
          (s'.inode e).valid = true ∧ s'.store.outstanding = s.store.outstanding ∧
          (m = 0 ∨ min n (BSIZE - off % BSIZE) ≤ m) ∧
          ((s'.store.img sb).X (s.inode e).inum).type = ((s.store.img sb).X (s.inode e).inum).type)
      (fun _ _ => True) s := by
  have hl := h.loaded href hv
  have hmax : MAXFILE * BSIZE = 274432 := rfl
  refine Xv6.wp_writei (P := fun _ => True) hsb (fun _ _ _ _ => trivial) h.vol hl hsrc.fits
    (fun _ => hsrc) (fun hbad => .inl ⟨?_, rfl, rfl⟩) ?_
  · have hsize := (h.vol.own.size_le _ hl.alive)
    unfold WriteRefused
    by_cases ho : 2 ^ 32 ≤ off + n
    · exact .inr (.inl ho)
    · rw [Nat.mod_eq_of_lt (by omega)] at hbad
      omega
  · intro g' E st' m hoff hend h' o hm hpiece hE
    obtain rfl := hE hsrc
    have hD : g'.D = ∅ := subset_eq_empty o.dirty rfl
    have h' : Vol sb g' ∅ ∅ s.store.outstanding [] st' := by
      have := h'
      rw [Img.blur, union_empty, empty_sdiff] at this
      exact this
    have ha := h'.agree_current hsb hD
    have hi := hl.alive
    have hi' : sb.Alive g'.X (s.inode e).inum := by
      unfold Superblock.Alive at hi ⊢
      rw [o.type]
      exact hi
    have hX := ha.X _ hi.2.1
    refine .inr ⟨by unfold WriteRefused; omega, m, rfl, hm, ⟨⟨?_, ?_⟩, ?_, ?_, fun j hj => ?_⟩, ?_, ?_, ?_,
      h'.shows.outstanding, hpiece, (congrArg Dinode.type hX).trans o.type⟩
    · have := h'.current hsb hD
      rwa [← h'.shows.outstanding] at this
    · rw [← hX]
      refine h.tab.put (st'.img sb).X href (fun j hj hlt => ?_) ?_
      · rw [ha.X j hlt, (o.other j hj).1]
      · rw [hX]
        exact hi'.2.2
    · change (st'.img sb).bytes _ = _
      rw [ha.bytes_eq hsb h' hi', o.data (.inr rfl)]
    · change ((st'.img sb).X _).size = _
      rw [hX, o.size, length_map, length_range]
    · change (st'.img sb).node sb j = _
      rw [ha.node_eq hsb h', (o.other j hj).2]
    all_goals simp [Fs.put, hv]

/-- A range whose end overflows is read as empty. -/
theorem readi_overflow {dst : Dst} {n : ℕ} (hoff : off < 2 ^ 32) (hn : n < 2 ^ 32) (ho : 2 ^ 32 ≤ off + n) :
    readi sb e dst off n s = (.ok (0, []), s) := by
  have hlt : (off + n) % 2 ^ 32 < off := by omega
  have hp : wp (readi sb e dst off n) (fun r s' => r = (0, []) ∧ s' = s) (fun _ _ => False) s := by
    unfold readi getInode
    simp only [wp_bind, wp_get, wp_pure, wp_ite]
    rw [if_pos (.inr hlt)]
    exact ⟨trivial, trivial⟩
  obtain ⟨r, s', hrun, rfl, rfl⟩ := wp_total hp
  exact hrun

theorem writei_refused {src : Src} {n : ℕ} (hoff : off < 2 ^ 32) (hn : n < 2 ^ 32)
    (hbad : WriteRefused (s.inode e).d.size off n) : writei sb e src off n s = (.ok (-1), s) := by
  have hp : wp (writei sb e src off n) (fun r s' => r = -1 ∧ s' = s) (fun _ _ => False) s := by
    unfold writei getInode
    simp only [wp_bind, wp_get, wp_pure, wp_ite]
    split
    · exact ⟨trivial, trivial⟩
    · rename_i hok
      rw [if_pos]
      · exact ⟨trivial, trivial⟩
      · unfold WriteRefused at hbad
        omega
  obtain ⟨r, s', hrun, rfl, rfl⟩ := wp_total hp
  exact hrun

/-- The contents of files under `writei` and `readi`, in every consistent state, for every entry of the
inode table in use that was read, every offset and length and every readable source. -/
theorem writei_content (hsb : sb.Ok) (h : Consistent sb s) (href : 0 < (s.inode e).ref)
    (hv : (s.inode e).valid = true) {src : Src} {n : ℕ} (hoff : off < 2 ^ 32) (hn : n < 2 ^ 32)
    (hsrc : src.Readable n) :
    (WriteRefused ((s.store.img sb).X (s.inode e).inum).size off n →
      writei sb e src off n s = (.ok (-1), s)) ∧
    ∀ r s', writei sb e src off n s = (.ok r, s') →
      (r = -1 ↔ WriteRefused ((s.store.img sb).X (s.inode e).inum).size off n) ∧
      (r ≠ -1 → ∃ m : ℕ, r = m ∧ m ≤ n ∧ WroteAt sb s (s.inode e).inum off m src s' ∧
        ∀ dst off' n', off' < 2 ^ 32 → n' < 2 ^ 32 → dst.Accepts n' →
          s'.store.lh.length < s'.store.bufs.length → ∃ s'', readi sb e dst off' n' s' =
            if off' + n' < 2 ^ 32 then (.ok ((((s'.store.img sb).segment (s.inode e).inum off' n').length : ℤ),
              (s'.store.img sb).segment (s.inode e).inum off' n'), s'')
            else (.ok (0, []), s'')) := by
  refine ⟨fun hbad => writei_refused hoff hn (by rwa [(h.loaded href hv).copy]), fun r s' hrun => ?_⟩
  rcases wp_ok (h.wp_writei hsb href hv hsrc hn) hrun with ⟨hbad, rfl, -⟩ | ⟨hok, m, rfl, hm, hw, hinum, href', hv', -⟩
  · exact ⟨⟨fun _ => hbad, fun _ => rfl⟩, fun hne => absurd rfl hne⟩
  · refine ⟨⟨fun e => by omega, fun hbad => absurd hbad hok⟩, fun _ => ⟨m, rfl, hm, hw, ?_⟩⟩
    intro dst off' n' hoff' hn' hdst hbuf
    by_cases hlt : off' + n' < 2 ^ 32
    · obtain ⟨s'', hread, -⟩ := hw.consistent.readi_eq hsb (by rw [href']; exact href) hv' hdst hlt hbuf
      rw [hinum] at hread
      exact ⟨s'', by rw [if_pos hlt, hread]⟩
    · exact ⟨s', by rw [if_neg hlt, readi_overflow hoff' hn' (by omega)]⟩

/-- The theorem at a byte written to the root directory of a new file system, inside a transaction. -/
theorem writei_content_mounted : ∃ V, Consistent mkfsSb (mounted V 1) ∧
    ∀ r s', writei mkfsSb 0 (.kernel [7]) 0 1 (mounted V 1) = (.ok r, s') → r ≠ -1 →
      ∃ m : ℕ, r = m ∧ WroteAt mkfsSb (mounted V 1) ROOTINO 0 m (.kernel [7]) s' := by
  obtain ⟨ms, -, hf⟩ := mkfs_plain [] rfl (by decide) fun a ha => absurd ha List.not_mem_nil
  obtain ⟨g, s₁, hb, -, -⟩ := hf.built
  have hc := consistent_mounted hb (by decide) 1
  refine ⟨(Mkfs.final g).V, hc, fun r s' hrun hne => ?_⟩
  obtain ⟨m, hr, -, hw, -⟩ := ((writei_content mkfsSb_ok hc (e := 0) Nat.one_pos rfl (by decide) (by decide)
    (show Src.Readable 1 (.kernel [7]) from le_rfl)).2 r s' hrun).2 hne
  exact ⟨m, hr, hw⟩

end Xv6
