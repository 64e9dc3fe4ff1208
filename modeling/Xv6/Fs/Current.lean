import Xv6.Fs.Rw

/-!
# The current image of a state

When every block is shown as it is and every changed inode is stored, the image of a volume is a function
of the store: the contents that reads return, and the inodes in their blocks (`Vol.current`). A state is
`Consistent` if this image is a volume and the inode table agrees with it.
-/

namespace Xv6

open RedoLog Img Set List

/-- The contents that reads of the store return, with the inodes in their blocks. -/
def Store.img (sb : Superblock) (st : Store) : Img where
  V := st.view
  D := ∅
  X i := Dinode.read (st.view (sb.iblock i)) i

/-- The volume is in order and the inode table agrees with it. -/
structure Consistent (sb : Superblock) (s : Fs) : Prop where
  vol : Vol sb (s.store.img sb) ∅ ∅ s.store.outstanding [] s.store
  tab : Tab sb (s.store.img sb).X s.inode

variable {sb : Superblock} {g g' : Img} {F U : Set ℕ} {t i j o off bn b : ℕ} {L : List ℕ} {st : Store}
  {s : Fs} {e : Iptr} {P : Panic → Prop}

/-- The parts of two images that a volume depends on agree. -/
structure Img.Agree (sb : Superblock) (g g' : Img) : Prop where
  V : ∀ c, sb.inodestart ≤ c → g'.V c = g.V c
  X : ∀ i < sb.ninodes, g'.X i = g.X i

namespace Img.Agree

theorem alive_iff (h : g.Agree sb g') : sb.Alive g'.X i ↔ sb.Alive g.X i := by
  by_cases hi : i < sb.ninodes
  · exact alive_congr (h.X i hi)
  · exact ⟨fun ha => absurd ha.2.1 hi, fun ha => absurd ha.2.1 hi⟩

theorem blockAt_eq (h : g.Agree sb g') (hsb : sb.Ok) (ho : Owned sb g.V g.X F) (hi : sb.Alive g.X i) :
    blockAt g'.V (g'.X i) bn = blockAt g.V (g.X i) bn := by
  rw [h.X i hi.2.1]
  refine blockAt_congr fun h0 => h.V _ ?_
  exact hsb.inodestart_le.trans (sb.bmapstart_lt.le.trans (ho.indirect_mem hi h0).1)

theorem refAt_eq (h : g.Agree sb g') (hsb : sb.Ok) (ho : Owned sb g.V g.X F) :
    refAt sb g'.V g'.X = refAt sb g.V g.X := by
  have hind : ∀ i, sb.Alive g.X i → (g.X i).indirect ≠ 0 → g'.V (g.X i).indirect = g.V (g.X i).indirect :=
    fun i hi h0 => h.V _ (hsb.inodestart_le.trans (sb.bmapstart_lt.le.trans (ho.indirect_mem hi h0).1))
  rw [← refAt_congr hind]
  funext p
  by_cases hp : p.inum < sb.ninodes
  · exact refAt_congr_inode (h.X _ hp)
  · -- a place of an inode that does not exist refers to no block
    cases p with
    | slot j k =>
      have hna : ∀ X, ¬ sb.Alive X j := fun X ha => hp ha.2.1
      rw [refAt, refAt, if_neg (hna _), if_neg (hna _)]
    | entry j k =>
      have hna : ∀ X, ¬ sb.Alive X j := fun X ha => hp ha.2.1
      rw [refAt, refAt, if_neg fun ha => hna _ ha.1, if_neg fun ha => hna _ ha.1]

theorem owned (h : g.Agree sb g') (hsb : sb.Ok) (ho : Owned sb g.V g.X F) : Owned sb g'.V g'.X F where
  ledger := by
    rw [h.refAt_eq hsb ho]
    refine ho.ledger.congr fun c _ => ?_
    unfold Superblock.Used
    rw [h.V _ (hsb.inodestart_le.trans sb.bmapstart_le_bblock)]
  reserved c hc hcs := by
    unfold Superblock.Used
    rw [h.V _ (hsb.inodestart_le.trans sb.bmapstart_le_bblock)]
    exact ho.reserved c hc hcs
  full i hi bn hbn := by
    have hi := h.alive_iff.1 hi
    rw [h.X i hi.2.1] at hbn
    rw [h.blockAt_eq hsb ho hi]
    exact ho.full i hi bn hbn
  size_le i hi := by
    have hi := h.alive_iff.1 hi
    rw [h.X i hi.2.1]
    exact ho.size_le i hi
  fits i hi := by
    rw [h.X i hi]
    exact ho.fits i hi

theorem byte_eq (h : g.Agree sb g') (hsb : sb.Ok) (hv : Vol sb g F U t L st) (hi : sb.Alive g.X i)
    (ho : o < (g.X i).size) : g'.byte i o = g.byte i o := by
  obtain ⟨-, -, hd⟩ := hv.block_of_lt hi ho
  unfold Img.byte
  rw [h.blockAt_eq hsb hv.own hi, h.V _ (hsb.inodestart_le.trans (sb.bmapstart_lt.le.trans hd.1))]

theorem bytes_eq (h : g.Agree sb g') (hsb : sb.Ok) (hv : Vol sb g F U t L st) (hi : sb.Alive g.X i) :
    g'.bytes i = g.bytes i := by
  unfold Img.bytes
  rw [h.X i hi.2.1]
  exact map_congr_left fun o ho => h.byte_eq hsb hv hi (mem_range.1 ho)

theorem node_eq (h : g.Agree sb g') (hsb : sb.Ok) (hv : Vol sb g F U t L st) : g'.node sb = g.node sb := by
  funext j
  by_cases hj : sb.Alive g.X j
  · rw [node_of_alive hj, node_of_alive (h.alive_iff.2 hj), h.bytes_eq hsb hv hj, h.X j hj.2.1]
  · rw [node_of_not_alive hj, node_of_not_alive (mt h.alive_iff.1 hj)]

end Img.Agree

theorem Vol.agree_current (h : Vol sb g F ∅ t L st) (hsb : sb.Ok) (hD : g.D = ∅) :
    g.Agree sb (st.img sb) := by
  have hV : ∀ c, sb.inodestart ≤ c → st.view c = g.V c := fun c hc =>
    (h.shows.home c (hsb.home hc) (by rw [hD]; exact notMem_empty c)).2
  refine ⟨hV, fun i hi => ?_⟩
  simp only [Store.img]
  rw [hV _ sb.inodestart_le_iblock, h.sync i hi (notMem_empty i)]

/-- A volume without exceptions is the current image. -/
theorem Vol.current (h : Vol sb g F ∅ t L st) (hsb : sb.Ok) (hD : g.D = ∅) :
    Vol sb (st.img sb) F ∅ t L st where
  shows := {
    h.shows with
    home := fun c hc _ => ⟨(h.shows.home c hc (by rw [hD]; exact notMem_empty c)).1, rfl⟩ }
  own := (h.agree_current hsb hD).owned hsb h.own
  dirty _ hb := absurd hb (notMem_empty _)
  sync _ _ _ := rfl

/-- The entry of an inode in use that was read. -/
theorem Consistent.loaded (h : Consistent sb s) (href : 0 < (s.inode e).ref)
    (hv : (s.inode e).valid = true) : Loaded sb (s.store.img sb) s e (s.inode e).inum where
  inum := rfl
  copy := (h.tab.copy e href hv).1
  alive := ⟨(h.tab.range e href).1, (h.tab.range e href).2, (h.tab.copy e href hv).2⟩

/-- Other inodes than that of the entry `e` did not change, and the copy of the entry is new. -/
theorem Tab.put {X : ℕ → Dinode} (h : Tab sb X s.inode) (X' : ℕ → Dinode) (href : 0 < (s.inode e).ref)
    (hX : ∀ j ≠ (s.inode e).inum, j < sb.ninodes → X' j = X j) (ht : (X' (s.inode e).inum).type ≠ 0) :
    Tab sb X' (s.put st e (X' (s.inode e).inum)).inode := by
  have hself : (s.put st e (X' (s.inode e).inum)).inode e =
    { s.inode e with d := X' (s.inode e).inum } := s.put_inode_self ..
  have hne : ∀ e' ≠ e, (s.put st e (X' (s.inode e).inum)).inode e' = s.inode e' := fun e' he =>
    Function.update_of_ne he ..
  have hfields : ∀ e', ((s.put st e (X' (s.inode e).inum)).inode e').ref = (s.inode e').ref ∧
      ((s.put st e (X' (s.inode e).inum)).inode e').inum = (s.inode e').inum := fun e' => by
    by_cases he : e' = e
    · rw [he, hself]
      exact ⟨rfl, rfl⟩
    · rw [hne e' he]
      exact ⟨rfl, rfl⟩
  refine ⟨fun e' => ?_, fun e₁ e₂ => ?_, fun e' hr hv => ?_⟩
  · rw [(hfields e').1, (hfields e').2]
    exact h.range e'
  · rw [(hfields e₁).1, (hfields e₁).2, (hfields e₂).1, (hfields e₂).2]
    exact h.uniq e₁ e₂
  · by_cases he : e' = e
    · rw [he, hself]
      exact ⟨rfl, ht⟩
    · rw [hne e' he] at hr hv ⊢
      rw [hX _ (fun hi => he (h.uniq e' e hr href hi)) (h.range e' hr).2]
      exact h.copy e' hr hv

end Xv6
