import Xv6.Fs.Files
import Xv6.Fs.Lookup
import Xv6.Lib.Slots
import Xv6.Lib.Trans
import Xv6.Mkfs.Lookup

/-!
# Directories as finite maps

A directory is a row of entries, some in use, and no two in use have the same name. `dirlookup` searches
this map, `dirlink` adds a name that is not there, and the erasure in `sys_unlink` removes one. An entry
lies in one block, so a write changes all of it or nothing.
-/

namespace Xv6

open RedoLog Prog List Option Img Prod

section

variable {sb : Superblock} {s s' s₁ s₂ : Fs} {i t : ℕ} {st' : Store}

/-! ## Steps that change no contents -/

/-- The step changes no inode and no contents. -/
structure SameImg (sb : Superblock) (s s' : Fs) : Prop where
  consistent : Consistent sb s'
  X : ∀ i < sb.ninodes, (s'.store.img sb).X i = (s.store.img sb).X i
  bytes : ∀ i, sb.Alive (s.store.img sb).X i → (s'.store.img sb).bytes i = (s.store.img sb).bytes i
  node : (s'.store.img sb).node sb = (s.store.img sb).node sb

theorem SameImg.alive (h : SameImg sb s s') (hi : sb.Alive (s.store.img sb).X i) :
    sb.Alive (s'.store.img sb).X i := by
  unfold Superblock.Alive at hi ⊢
  rw [h.X i hi.2.1]
  exact hi

theorem SameImg.trans (h : SameImg sb s s₁) (h' : SameImg sb s₁ s₂) : SameImg sb s s₂ where
  consistent := h'.consistent
  X i hi := (h'.X i hi).trans (h.X i hi)
  bytes i hi := (h'.bytes i (h.alive hi)).trans (h.bytes i hi)
  node := h'.node.trans h.node

theorem Consistent.sameImg (h : Consistent sb s) (hsb : sb.Ok)
    (hs : Shows sb.logstart (s.store.img sb).V ∅ t [] st') : SameImg sb s { s with store := st' } := by
  have hv : Vol sb (s.store.img sb) ∅ ∅ t [] st' :=
    ⟨hs, h.vol.own, h.vol.dirty, h.vol.sync⟩
  have ha := hv.agree_current hsb rfl
  refine ⟨⟨?_, ?_⟩, ha.X, fun i hi => ha.bytes_eq hsb hv hi, ha.node_eq hsb hv⟩
  · have hc := hv.current hsb rfl
    rwa [← hs.outstanding] at hc
  · refine ⟨h.tab.range, h.tab.uniq, fun e hr hval => ?_⟩
    rw [ha.X _ (h.tab.range e hr).2]
    exact h.tab.copy e hr hval

theorem overwrite_nil (l : List UInt8) (off : ℕ) : overwrite l off [] = l := by
  simp [overwrite]

end

/-! ## The entries in the bytes of a directory -/

/-- The entry `k` in the bytes of a directory. -/
def slotOf (l : List UInt8) (k : ℕ) : List UInt8 := (l.drop (DESIZE * k)).take DESIZE

section

variable {l d : List UInt8} {j k : ℕ}

theorem slotOf_overwrite_self (hk : DESIZE * k ≤ l.length) (hd : d.length = DESIZE) :
    slotOf (overwrite l (DESIZE * k) d) k = d := by
  have hlen : (l.take (DESIZE * k)).length = DESIZE * k := by
    rw [length_take, Nat.min_eq_left hk]
  rw [slotOf, overwrite, append_assoc, drop_append, hlen, Nat.sub_self, drop_zero,
    drop_eq_nil_of_le hlen.le, nil_append, ← hd, take_left]

theorem slotOf_overwrite_of_ne (hk : DESIZE * k ≤ l.length) (hd : d.length = DESIZE) (hj : j ≠ k) :
    slotOf (overwrite l (DESIZE * k) d) j = slotOf l j := by
  have hlen : (l.take (DESIZE * k)).length = DESIZE * k := by
    rw [length_take, Nat.min_eq_left hk]
  rw [slotOf, slotOf, overwrite]
  rcases Nat.lt_or_gt_of_ne hj with hlt | hgt
  · -- the entry is before the bytes written
    have hle : DESIZE * j + DESIZE ≤ DESIZE * k := by
      unfold DESIZE
      omega
    rw [append_assoc, drop_append_of_le_length (by omega), take_append_of_le_length
      (by rw [length_drop, hlen]; omega), drop_take, take_take, Nat.min_eq_left (by omega)]
  · have hle : DESIZE * k + DESIZE ≤ DESIZE * j := by
      unfold DESIZE
      omega
    rw [drop_append, length_append, hlen, hd, drop_eq_nil_of_le (by
      rw [length_append, hlen, hd]; omega), nil_append, drop_drop]
    congr 2
    omega

theorem length_overwrite (hk : DESIZE * k ≤ l.length) (hd : d.length = DESIZE) :
    (overwrite l (DESIZE * k) d).length = max l.length (DESIZE * k + DESIZE) := by
  rw [overwrite, length_append, length_append, length_take, length_drop, hd]
  omega

end

/-- The directory entry is in use. -/
abbrev InUse (de : List UInt8) : Prop := direntInum de ≠ 0

/-- The number of the entry with the name, in the bytes of a directory. -/
def dirFind (l name : List UInt8) : Option ℕ :=
  Slots.find InUse direntName (nslots l.length) (slotOf l) (cstr name)

/-- The inode and the offset that `dirlookup` finds. -/
def dirMap (l name : List UInt8) : Option (ℕ × ℕ) :=
  (dirFind l name).map fun k => (direntInum (slotOf l k), DESIZE * k)

/-- The bytes of a directory: whole entries, no name twice, and the numbers of inodes. -/
structure DirOk (sb : Superblock) (l : List UInt8) : Prop where
  whole : DESIZE ∣ l.length
  names : Slots.Unique InUse direntName (nslots l.length) (slotOf l)
  range : ∀ k < nslots l.length, InUse (slotOf l k) → direntInum (slotOf l k) < sb.ninodes

section

variable {sb : Superblock} {l d name : List UInt8} {j k inum : ℕ}

theorem nslots_whole (h : DESIZE ∣ l.length) : DESIZE * nslots l.length = l.length := by
  obtain ⟨n, hn⟩ := h
  rw [nslots, hn]
  unfold DESIZE
  omega

/-- One entry is written. -/
structure Rewrites (l : List UInt8) (k : ℕ) (d l' : List UInt8) : Prop where
  nslots : nslots l'.length = max (nslots l.length) (k + 1)
  whole : DESIZE ∣ l'.length
  self : slotOf l' k = d
  other : ∀ j < Xv6.nslots l.length, j ≠ k → slotOf l' j = slotOf l j

theorem rewrites_overwrite (h : DESIZE ∣ l.length) (hk : k ≤ nslots l.length) (hd : d.length = DESIZE) :
    Rewrites l k d (overwrite l (DESIZE * k) d) := by
  have hn := nslots_whole h
  have hle : DESIZE * k ≤ l.length := by
    rw [← hn]
    exact Nat.mul_le_mul_left _ hk
  have hlen := length_overwrite hle hd
  have hlen' : (overwrite l (DESIZE * k) d).length = DESIZE * max (nslots l.length) (k + 1) := by
    rw [hlen]
    unfold DESIZE at *
    omega
  refine ⟨?_, ⟨_, hlen'⟩, slotOf_overwrite_self hle hd, fun j _ hne => ?_⟩
  · rw [hlen']
    unfold Xv6.nslots DESIZE
    omega
  · exact slotOf_overwrite_of_ne hle hd hne

theorem DirOk.link (h : DirOk sb l) {l' : List UInt8} (hw : Rewrites l k (dirent name inum) l')
    (hk : k ≤ nslots l.length) (hfree : k < nslots l.length → direntInum (slotOf l k) = 0)
    (hnew : dirFind l name = none) (h0 : 0 < inum) (h16 : inum < 2 ^ 16) (hn : inum < sb.ninodes) :
    DirOk sb l' ∧ ∀ name', dirMap l' name' =
      if cstr name' = cstr name then some (inum, DESIZE * k) else dirMap l name' := by
  have hinum : direntInum (slotOf l' k) = inum := by rw [hw.self, direntInum_dirent h16]
  have hused : InUse (slotOf l' k) := by
    rw [InUse, hinum]
    omega
  have hkey : direntName (slotOf l' k) = cstr name := by rw [hw.self, direntName_dirent]
  have hu := Slots.Unique.put hk hnew hkey hw.other h.names
  have hfind := fun b => Slots.Unique.find_put hk hnew hused hkey hw.other h.names
    (fun hlt hf => hf (hfree hlt)) b
  refine ⟨⟨hw.whole, hw.nslots ▸ hu, fun j hj hj' => ?_⟩, fun name' => ?_⟩
  · by_cases hjk : j = k
    · rwa [hjk, hinum]
    · rw [hw.nslots] at hj
      rw [hw.other j (by omega) hjk] at hj' ⊢
      exact h.range j (by omega) hj'
  · rw [dirMap, dirFind, hw.nslots, hfind]
    split
    · rw [map_some, hinum]
    · rw [dirMap, dirFind]
      refine map_congr fun j hj => ?_
      obtain ⟨hjn, hj', -⟩ := Slots.of_find hj
      rw [hw.other j hjn fun e => (e ▸ hj') (hfree (e ▸ hjn))]

/-- The entry with the name is cleared. -/
theorem DirOk.erase (h : DirOk sb l) {l' : List UInt8} (hw : Rewrites l k d l') (hd : direntInum d = 0)
    (hfound : dirFind l name = some k) :
    DirOk sb l' ∧ ∀ name', dirMap l' name' = if cstr name' = cstr name then none else dirMap l name' := by
  obtain ⟨hk, hused, hkey⟩ := Slots.of_find hfound
  have hn : nslots l'.length = nslots l.length := by
    rw [hw.nslots]
    omega
  have hfree : ¬ InUse (slotOf l' k) := by
    rw [hw.self]
    exact not_not.2 hd
  have hu := h.names.clear hfree hw.other
  have hfind := fun b => h.names.find_clear hfree hw.other hk hused hkey b
  refine ⟨⟨hw.whole, hn ▸ hu, fun j hj hj' => ?_⟩, fun name' => ?_⟩
  · rw [hn] at hj
    have hjk : j ≠ k := fun e => hfree (e ▸ hj')
    rw [hw.other j hj hjk] at hj' ⊢
    exact h.range j hj hj'
  · rw [dirMap, dirFind, hn, hfind]
    split
    · rfl
    · rename_i hne
      rw [dirMap, dirFind]
      refine map_congr fun j hj => ?_
      obtain ⟨hjn, -, hj'⟩ := Slots.of_find hj
      rw [hw.other j hjn fun e => hne (by rw [← hj', e, hkey])]

end

/-! ## The calls -/

/-- A consistent state with the directory `i`. -/
structure HasDir (sb : Superblock) (i : ℕ) (s : Fs) : Prop where
  consistent : Consistent sb s
  alive : sb.Alive (s.store.img sb).X i
  dir : ((s.store.img sb).X i).type = T_DIR
  ok : DirOk sb ((s.store.img sb).bytes i)

/-- The entry `e` of the inode table is in use and has the inode `i`, which was read. -/
structure Holds (s : Fs) (e : Iptr) (i : ℕ) : Prop where
  ref : 0 < (s.inode e).ref
  valid : (s.inode e).valid = true
  inum : (s.inode e).inum = i

/-- The type and the bytes of the inode `i` stay as they are. -/
structure LeavesDir (sb : Superblock) (i : ℕ) (s s' : Fs) : Prop where
  consistent : Consistent sb s'
  type : ((s'.store.img sb).X i).type = ((s.store.img sb).X i).type
  bytes : (s'.store.img sb).bytes i = (s.store.img sb).bytes i

/-- What `dirlookup` returns, and what it does: it takes a reference to the inode it finds, in an entry that
was in use or that is not read yet. -/
structure Looked (sb : Superblock) (i : ℕ) (name : List UInt8) (s : Fs) (r : Option (Iptr × ℕ)) (s' : Fs) :
    Prop where
  map : (r.map fun x => ((s'.inode x.1).inum, x.2)) = dirMap ((s.store.img sb).bytes i) name
  refs : ∀ e, (s'.inode e).ref = (s.inode e).ref + if r.map Prod.fst = some e then 1 else 0
  fresh : ∀ ip off, r = some (ip, off) → 0 < (s.inode ip).ref ∨ (s'.inode ip).valid = false
  same : SameImg sb s s'
  keeps : s.Keeps s'

section

variable {sb : Superblock} {s s' : Fs} {e : Iptr} {i k t inum off : ℕ} {g : Img} {name : List UInt8}
  {P : Panic → Prop} {L : List ℕ}

theorem SameImg.leaves (h : SameImg sb s s') (hi : sb.Alive (s.store.img sb).X i) : LeavesDir sb i s s' :=
  ⟨h.consistent, by rw [h.X i hi.2.1], h.bytes i hi⟩

theorem HasDir.leaves (h : HasDir sb i s) (hl : LeavesDir sb i s s') : HasDir sb i s' where
  consistent := hl.consistent
  alive := ⟨h.alive.1, h.alive.2.1, by rw [hl.type]; exact h.alive.2.2⟩
  dir := hl.type.trans h.dir
  ok := by
    rw [hl.bytes]
    exact h.ok

theorem HasDir.readable (h : HasDir sb i s) (hk : k < nslots ((s.store.img sb).X i).size) :
    DESIZE * k + DESIZE ≤ ((s.store.img sb).X i).size ∧ DESIZE * k / BSIZE < MAXFILE ∧
      blockAt (s.store.img sb).V ((s.store.img sb).X i) (DESIZE * k / BSIZE) ≠ 0 := by
  have hn := nslots_whole h.ok.whole
  rw [length_bytes] at hn
  have hle : DESIZE * k + DESIZE ≤ ((s.store.img sb).X i).size := by
    unfold DESIZE at *
    omega
  obtain ⟨h₁, h₂, -⟩ := h.consistent.vol.block_of_lt h.alive (o := DESIZE * k) (by unfold DESIZE at *; omega)
  exact ⟨hle, h₁, h₂⟩

theorem HasDir.loaded (h : HasDir sb i s) (he : Holds s e i) : Loaded sb (s.store.img sb) s e i :=
  he.inum ▸ h.consistent.loaded he.ref he.valid

/-- `dirlookup` searches the map. -/
theorem HasDir.wp_dirlookup (hsb : sb.Ok) (h : HasDir sb i s) (he : Holds s e i)
    (hbuf : s.store.bufs.length ≤ s.store.lh.length → P .noBuffers)
    (hino : (∀ e, 0 < (s.inode e).ref) → P .noInodes) :
    wp (dirlookup sb e name) (Looked sb i name s) (fun p _ => P p) s := by
  have hl := h.loaded he
  unfold dirlookup getInode
  simp only [wp_bind, wp_get, wp_pure, hl.copy]
  rw [if_neg (not_not.2 h.dir), range_eq_range']
  refine wp_dirlookupLoop hsb h.consistent.vol.legible (by simpa using hbuf) h.consistent.vol.shows hl h.dir
    (fun k _ hk _ => h.readable (by omega)) (fun hno st' h' _ => ?_) fun k _ hk hhit _ st' h' _ => ?_
  · have hnone : dirFind ((s.store.img sb).bytes i) name = none := by
      refine Slots.find_eq_none.2 fun k hk hused hkey => hno k (Nat.zero_le k) ?_ ⟨hused, hkey⟩
      rwa [length_bytes, ← Nat.zero_add (nslots _)] at hk
    refine ⟨by rw [dirMap, hnone]; rfl, fun _ => rfl, fun _ _ hf => absurd hf (some_ne_none _).symm,
      h.consistent.sameImg hsb h', fun _ _ => ⟨rfl, rfl, rfl⟩⟩
  · rw [Nat.zero_add, ← length_bytes] at hk
    have hsome : dirFind ((s.store.img sb).bytes i) name = some k := h.ok.names.find_eq_some.2 ⟨hk, hhit⟩
    have hsame := h.consistent.sameImg hsb h'
    refine hsame.consistent.tab.wp_iget (Nat.pos_of_ne_zero hhit.1) (h.ok.range k hk hhit.1) hino
      fun ip f ht href hinum hkeep hor => ?_
    refine ⟨?_, fun e' => ?_, fun ip' off hf => ?_, ⟨⟨hsame.consistent.vol, ht⟩, hsame.X, hsame.bytes, hsame.node⟩,
      hkeep⟩
    · rw [dirMap, hsome, map_some, map_some, setInode_self, hinum]
      rfl
    · by_cases hne : e' = ip
      · rw [hne, setInode_self, href]
        simp
      · rw [setInode_of_ne _ _ hne]
        simp [Ne.symm hne]
    · obtain ⟨rfl, -⟩ := mk.inj (Option.some.inj hf)
      rwa [setInode_self]

/-- The entry of the directory stays. -/
theorem Holds.keeps {r : Option (Iptr × ℕ)} (he : Holds s e i) (hl : Looked sb i name s r s') : Holds s' e i := by
  obtain ⟨hinum, hvalid, -⟩ := hl.keeps e he.ref
  have := he.ref
  refine ⟨?_, hvalid.trans he.valid, hinum.trans he.inum⟩
  rw [hl.refs e]
  omega

theorem wp_dirlinkLoop {a n : ℕ} {Q : ℕ → Fs → Prop} (hsb : sb.Ok) (hl : Legible sb g)
    (h : Shows sb.logstart g.V g.D t L s.store) (he : Loaded sb g s e i) (hd : (g.X i).type = T_DIR)
    (hs : ∀ k, k < a + n → DESIZE * k + DESIZE ≤ (g.X i).size ∧ DESIZE * k / BSIZE < MAXFILE ∧
      blockAt g.V (g.X i) (DESIZE * k / BSIZE) ≠ 0)
    (hQ : ∀ k st', k ≤ a + n → (k < a + n → direntInum (g.entry i k) = 0) →
      Shows sb.logstart g.V g.D t L st' → Q (DESIZE * k) { s with store := st' }) :
    wp (dirlinkLoop sb e n a) Q (fun _ _ => True) s := by
  induction n generalizing a s with
  | zero => exact hQ a s.store le_rfl (fun hlt => absurd hlt (Nat.lt_irrefl a)) h
  | succ n ih =>
    rw [dirlinkLoop, wp_bind]
    refine wp_readEntry (P := fun _ => True) hsb hl (fun _ => trivial) h he hd (hs a (by omega))
      fun st₁ h₁ _ => ?_
    simp only
    rw [if_neg (not_not.2 rfl), wp_ite]
    split
    · rename_i h0
      exact hQ a st₁ (by omega) (fun _ => h0) h₁
    · refine ih h₁ ⟨he.inum, he.copy, he.alive⟩ (fun k hk => hs k (by omega)) fun k st₂ hk hfree h₂ => ?_
      exact hQ k st₂ (by omega) (fun hlt => hfree (by omega)) h₂

theorem map_byte_kernel (d : List UInt8) : (List.range d.length).map (Src.kernel d).byte = d := by
  refine ext_getElem (by simp) fun k h₁ h₂ => ?_
  simp [Src.byte, List.getElem?_eq_getElem h₂]

theorem HasDir.wp_writeEntry {d : List UInt8} (hsb : sb.Ok) (h : HasDir sb i s) (he : Holds s e i)
    (hd : d.length = DESIZE) :
    wp (writei sb e (.kernel d) (DESIZE * k) DESIZE) (fun r s' =>
        (r ≠ DESIZE ∧ LeavesDir sb i s s') ∨ r = DESIZE ∧ Consistent sb s' ∧
          ((s'.store.img sb).X i).type = ((s.store.img sb).X i).type ∧
          (s'.store.img sb).bytes i = overwrite ((s.store.img sb).bytes i) (DESIZE * k) d)
      (fun _ _ => True) s := by
  have hread : (Src.kernel d).Readable DESIZE := hd.symm.le
  refine wp_mono (h.consistent.wp_writei hsb he.ref he.valid hread (by decide)) ?_ fun _ _ _ => trivial
  rintro r s' (⟨-, rfl, rfl⟩ | ⟨-, m, rfl, hm, hw, -, -, -, -, hpiece, htype⟩)
  · exact .inl ⟨by decide, h.consistent, rfl, rfl⟩
  · rw [he.inum] at hw htype
    have hcase : m = 0 ∨ m = DESIZE := by
      unfold BSIZE DESIZE at *
      omega
    have hbytes := map_byte_kernel d
    rcases hcase with rfl | rfl
    · exact .inl ⟨by decide, hw.consistent, htype, hw.data.trans (overwrite_nil _ _)⟩
    · refine .inr ⟨rfl, hw.consistent, htype, ?_⟩
      rw [hw.data, ← hd, hbytes]

theorem HasDir.wp_dirlink_present (hsb : sb.Ok) (h : HasDir sb i s) (he : Holds s e i)
    (hthere : dirMap ((s.store.img sb).bytes i) name ≠ none)
    (hbuf : s.store.bufs.length ≤ s.store.lh.length → P .noBuffers)
    (hino : (∀ e, 0 < (s.inode e).ref) → P .noInodes) :
    wp (dirlink sb e name inum) (fun r s' => r = false ∧ SameImg sb s s' ∧ s.Keeps s' ∧
      ∀ e, (s'.inode e).ref = (s.inode e).ref) (fun p _ => P p) s := by
  unfold dirlink
  refine wp_call (h.wp_dirlookup hsb he hbuf hino) ?_
  rintro (_ | ⟨ip, off⟩) s₁ hl
  · exact absurd hl.map.symm hthere
  · have href : (s₁.inode ip).ref = (s.inode ip).ref + 1 := by
      rw [hl.refs ip, map_some, if_pos rfl]
    have hpos : 0 < (s₁.inode ip).ref := by omega
    have hsame : SameImg sb s (s₁.setInode ip fun x => { x with ref := x.ref - 1 }) :=
      ⟨⟨hl.same.consistent.vol, hl.same.consistent.tab.setRef hpos _⟩, hl.same.X, hl.same.bytes, hl.same.node⟩
    rw [wp_bind]
    refine wp_iput_kept (fun h1 hv => ?_) ⟨rfl, hsame, ?_, ?_⟩
    · rcases hl.fresh ip off rfl with hr | hf
      · omega
      · rw [hf] at hv
        exact absurd hv Bool.false_ne_true
    · intro e' he'
      have hpos' : 0 < (s₁.inode e').ref := by
        rw [hl.refs e']
        omega
      obtain ⟨h₁, h₂, h₃⟩ := Fs.Keeps.setRef s₁ ip (fun x => x.ref - 1) e' hpos'
      obtain ⟨h₁', h₂', h₃'⟩ := hl.keeps e' he'
      exact ⟨h₁.trans h₁', h₂.trans h₂', h₃.trans h₃'⟩
    · intro e'
      by_cases hne : e' = ip
      · rw [hne, setInode_self]
        change (s₁.inode ip).ref - 1 = _
        omega
      · rw [setInode_of_ne _ _ hne, hl.refs e', map_some, if_neg (by simpa using Ne.symm hne), Nat.add_zero]

/-- What `dirlink` does: it fails without a change to the directory, or the name was not there and a free
entry has it now. -/
theorem HasDir.wp_dirlink (hsb : sb.Ok) (h : HasDir sb i s) (he : Holds s e i) :
    wp (dirlink sb e name inum) (fun r s' =>
      (r = false ∧ LeavesDir sb i s s') ∨
      r = true ∧ dirFind ((s.store.img sb).bytes i) name = none ∧ Consistent sb s' ∧
        ((s'.store.img sb).X i).type = ((s.store.img sb).X i).type ∧
        ∃ k ≤ nslots ((s.store.img sb).bytes i).length,
          (k < nslots ((s.store.img sb).bytes i).length →
            direntInum (slotOf ((s.store.img sb).bytes i) k) = 0) ∧
          (s'.store.img sb).bytes i =
            overwrite ((s.store.img sb).bytes i) (DESIZE * k) (dirent name inum))
      (fun _ _ => True) s := by
  by_cases hthere : dirMap ((s.store.img sb).bytes i) name ≠ none
  · refine wp_mono (h.wp_dirlink_present (P := fun _ => True) hsb he hthere (fun _ => trivial)
      fun _ => trivial) (fun _ _ hr => .inl ⟨hr.1, hr.2.1.leaves h.alive⟩) fun _ _ _ => trivial
  unfold dirlink
  refine wp_call (h.wp_dirlookup (P := fun _ => True) hsb he (fun _ => trivial) fun _ => trivial) ?_
  rintro (_ | ⟨ip, off⟩) s₁ hl
  · -- the name is not there, and its entry is written
    have hnone : dirFind ((s.store.img sb).bytes i) name = none := map_eq_none_iff.1 hl.map.symm
    have h₁ := h.leaves (hl.same.leaves h.alive)
    have hb₁ := hl.same.bytes i h.alive
    have he₁ : Holds s₁ e i := he.keeps hl
    have hl₁ := h₁.loaded he₁
    simp only [getInode, wp_bind, wp_get, wp_pure, hl₁.copy]
    refine wp_dirlinkLoop hsb h₁.consistent.vol.legible h₁.consistent.vol.shows hl₁ h₁.dir
      (fun k hk => h₁.readable (by omega)) fun k st₂ hk hfree hs₂ => ?_
    have hr₂ := h₁.consistent.sameImg hsb hs₂
    have h₂ := h₁.leaves (hr₂.leaves h₁.alive)
    have hb₂ := (hr₂.bytes i h₁.alive).trans hb₁
    have ht₂ := hl.same.trans hr₂
    rw [Nat.zero_add, ← length_bytes, hb₁] at hk hfree
    refine wp_call (h₂.wp_writeEntry hsb ⟨he₁.ref, he₁.valid, he₁.inum⟩ (Mkfs.length_dirent name inum)) ?_
    rintro r s' (⟨hr, hleft⟩ | ⟨rfl, hc, htype, hbytes⟩)
    · refine .inl ⟨decide_eq_false hr, ⟨hleft.consistent, ?_, hleft.bytes.trans hb₂⟩⟩
      rw [hleft.type, ht₂.X i h.alive.2.1]
    · refine .inr ⟨decide_eq_true rfl, hnone, hc, by rw [htype, ht₂.X i h.alive.2.1], k, hk, fun hlt => ?_, ?_⟩
      · have := hfree hlt
        rwa [Img.entry, hb₁] at this
      · rw [hbytes, hb₂]
  · exact absurd (hl.map.trans (not_not.1 hthere)) (some_ne_none _)

end

/-! ## Histories -/

/-- A change of the directory. -/
inductive DirEvent
  | linked (name : List UInt8) (inum : ℕ)
  | erased (name : List UInt8)

/-- The name that is linked or erased. -/
def DirEvent.name : DirEvent → List UInt8
  | linked name _ => name
  | erased name => name

/-- The inode that has the name afterwards. -/
def DirEvent.inum : DirEvent → Option ℕ
  | linked _ inum => some inum
  | erased _ => none

/-- The inode of the last link to the name that was not erased since, if there is one; `m` is what the name
had before all events. -/
def latest (m : Option ℕ) (es : List DirEvent) (name : List UInt8) : Option ℕ :=
  es.foldl (fun m ev => if cstr name = cstr ev.name then ev.inum else m) m

/-- The steps in the life of the directory `i`: calls of `dirlink`, the erasure of an entry as in
`sys_unlink`, which writes zeros where `dirlookup` found the name, and anything that leaves the directory
alone. -/
inductive DirStep (sb : Superblock) (i : ℕ) (s : Fs) : List DirEvent → Fs → Prop
  | link {e : Iptr} {name : List UInt8} {inum : ℕ} {s' : Fs} (he : Holds s e i) (h0 : 0 < inum)
      (h16 : inum < 2 ^ 16) (hn : inum < sb.ninodes) (h : dirlink sb e name inum s = (.ok true, s')) :
      DirStep sb i s [.linked name inum] s'
  | refuse {e : Iptr} {name : List UInt8} {inum : ℕ} {s' : Fs} (he : Holds s e i)
      (h : dirlink sb e name inum s = (.ok false, s')) : DirStep sb i s [] s'
  | erase {e ip : Iptr} {name : List UInt8} {off : ℕ} {s₁ s₂ s' : Fs} (he : Holds s e i)
      (h₁ : dirlookup sb e name s = (.ok (some (ip, off)), s₁)) (hl : LeavesDir sb i s₁ s₂) (he₂ : Holds s₂ e i)
      (h₂ : writei sb e (.kernel (List.replicate DESIZE 0)) off DESIZE s₂ = (.ok (DESIZE : ℤ), s')) :
      DirStep sb i s [.erased name] s'
  | other {s' : Fs} (hl : LeavesDir sb i s s') : DirStep sb i s [] s'

/-- What a step does to the map. -/
structure Moved (sb : Superblock) (i : ℕ) (s : Fs) (es : List DirEvent) (s' : Fs) : Prop where
  hasDir : HasDir sb i s'
  other : ∀ name, (∀ ev ∈ es, cstr name ≠ cstr ev.name) →
    dirMap ((s'.store.img sb).bytes i) name = dirMap ((s.store.img sb).bytes i) name
  latest : ∀ name, (dirMap ((s'.store.img sb).bytes i) name).map Prod.fst =
    latest ((dirMap ((s.store.img sb).bytes i) name).map Prod.fst) es name

variable {sb : Superblock} {s s' : Fs} {i : ℕ} {es : List DirEvent}

theorem Moved.of_leaves (h : HasDir sb i s) (hl : LeavesDir sb i s s') : Moved sb i s [] s' where
  hasDir := h.leaves hl
  other name _ := by rw [hl.bytes]
  latest name := by rw [hl.bytes, Xv6.latest, foldl_nil]

theorem Moved.of_change {ev : DirEvent} {v : Option (ℕ × ℕ)} (h : HasDir sb i s') (hv : v.map fst = ev.inum)
    (hmap : ∀ name, dirMap ((s'.store.img sb).bytes i) name =
      if cstr name = cstr ev.name then v else dirMap ((s.store.img sb).bytes i) name) :
    Moved sb i s [ev] s' where
  hasDir := h
  other name hne := by rw [hmap, if_neg (hne ev mem_cons_self)]
  latest name := by
    rw [hmap, Xv6.latest, foldl_cons, foldl_nil]
    split
    · exact hv
    · rfl

theorem DirStep.moved (hsb : sb.Ok) (h : HasDir sb i s) (hstep : DirStep sb i s es s') :
    Moved sb i s es s' := by
  cases hstep with
  | @link e name inum _ he h0 h16 hn hrun =>
    rcases wp_ok (h.wp_dirlink hsb he) hrun with ⟨hf, -⟩ | ⟨-, hnew, hc, htype, k, hk, hfree, hbytes⟩
    · exact absurd hf (by decide)
    · obtain ⟨hok, hmap⟩ := h.ok.link (rewrites_overwrite h.ok.whole hk (Mkfs.length_dirent name inum)) hk hfree
        hnew h0 h16 hn
      rw [← hbytes] at hok hmap
      exact .of_change ⟨hc, ⟨h.alive.1, h.alive.2.1, htype ▸ h.alive.2.2⟩, htype.trans h.dir, hok⟩ rfl hmap
  | @refuse e name inum _ he hrun =>
    rcases wp_ok (h.wp_dirlink hsb he) hrun with ⟨-, hl⟩ | ⟨hf, -⟩
    · exact .of_leaves h hl
    · exact absurd hf (by decide)
  | @erase e ip name off s₁ s₂ _ he h₁ hl he₂ h₂ =>
    have hlook := wp_ok (h.wp_dirlookup (P := fun _ => True) hsb he (fun _ => trivial) fun _ => trivial) h₁
    have hl₁ := hlook.same.leaves h.alive
    have hd₂ := (h.leaves hl₁).leaves hl
    have hb₂ := hl.bytes.trans hl₁.bytes
    obtain ⟨k, hk, hoff⟩ := map_eq_some_iff.1 hlook.map.symm
    obtain rfl : DESIZE * k = off := (mk.inj hoff).2
    rcases wp_ok (hd₂.wp_writeEntry hsb he₂ (length_replicate ..)) h₂ with ⟨hne, -⟩ | ⟨-, hc, htype, hbytes⟩
    · exact absurd rfl hne
    · have hkn : k ≤ nslots ((s.store.img sb).bytes i).length := (Slots.of_find hk).1.le
      obtain ⟨hok, hmap⟩ := h.ok.erase (rewrites_overwrite h.ok.whole hkn (length_replicate (a := 0)))
        (by decide) hk
      rw [hb₂] at hbytes
      rw [← hbytes] at hok hmap
      exact .of_change ⟨hc, ⟨h.alive.1, h.alive.2.1, htype ▸ hd₂.alive.2.2⟩, htype.trans hd₂.dir, hok⟩ rfl hmap
  | other hl => exact .of_leaves h hl

/-- A whole history. -/
theorem run_latest (hsb : sb.Ok) (h : HasDir sb i s) (hrun : Trans.Run (DirStep sb i) s es s') :
    HasDir sb i s' ∧ ∀ name, (dirMap ((s'.store.img sb).bytes i) name).map fst =
      latest ((dirMap ((s.store.img sb).bytes i) name).map fst) es name := by
  induction hrun with
  | refl => exact ⟨h, fun _ => rfl⟩
  | tail _ hstep ih =>
    have hm := hstep.moved hsb ih.1
    exact ⟨hm.hasDir, fun name => by rw [hm.latest, ih.2, latest, latest, latest, foldl_append]⟩

theorem DirOk.at_offset {l name : List UInt8} (h : DirOk sb l) {j off : ℕ} (hm : dirMap l name = some (j, off)) :
    off + DESIZE ≤ l.length ∧ direntInum ((l.drop off).take DESIZE) = j ∧ j ≠ 0 ∧
      direntName ((l.drop off).take DESIZE) = cstr name := by
  obtain ⟨k, hk, hoff⟩ := map_eq_some_iff.1 hm
  obtain ⟨rfl, rfl⟩ := mk.inj hoff
  obtain ⟨hlt, hused, hkey⟩ := Slots.of_find hk
  have hn := nslots_whole h.whole
  refine ⟨?_, rfl, hused, hkey⟩
  unfold DESIZE at *
  omega

/-- What a lookup can panic of: every entry of the inode table or every buffer is in use. -/
def Fs.Exhausted (s : Fs) (p : Panic) : Prop :=
  p = .noInodes ∧ (∀ e, 0 < (s.inode e).ref) ∨ p = .noBuffers ∧ s.store.bufs.length ≤ s.store.lh.length

/-- A directory is a finite map from names to inodes, after any history of links and erasures. A name has
the inode of its last link that was not erased since, or else what it had before the history; `dirlookup`
finds this inode and the offset of its entry; `dirlink` of a name that is there changes nothing; and a step
changes the map at no other names than its own. -/
theorem directory_finite_map (hsb : sb.Ok) (h : HasDir sb i s) (hrun : Trans.Run (DirStep sb i) s es s') :
    (∀ k < nslots ((s'.store.img sb).bytes i).length, ∀ j < nslots ((s'.store.img sb).bytes i).length,
      direntInum (slotOf ((s'.store.img sb).bytes i) k) ≠ 0 →
      direntInum (slotOf ((s'.store.img sb).bytes i) j) ≠ 0 →
      direntName (slotOf ((s'.store.img sb).bytes i) k) = direntName (slotOf ((s'.store.img sb).bytes i) j) →
      k = j) ∧
    (∀ name, (dirMap ((s'.store.img sb).bytes i) name).map Prod.fst =
        latest ((dirMap ((s.store.img sb).bytes i) name).map Prod.fst) es name ∧
      ∀ j off, dirMap ((s'.store.img sb).bytes i) name = some (j, off) →
        off + DESIZE ≤ ((s'.store.img sb).bytes i).length ∧
        direntInum ((((s'.store.img sb).bytes i).drop off).take DESIZE) = j ∧ j ≠ 0 ∧
        direntName ((((s'.store.img sb).bytes i).drop off).take DESIZE) = cstr name) ∧
    (∀ e name, Holds s' e i → wp (dirlookup sb e name)
      (fun r s'' => (r.map fun x => ((s''.inode x.1).inum, x.2)) = dirMap ((s'.store.img sb).bytes i) name)
      (fun p _ => s'.Exhausted p) s') ∧
    (∀ e name inum, Holds s' e i → dirMap ((s'.store.img sb).bytes i) name ≠ none →
      wp (dirlink sb e name inum) (fun r s'' => r = false ∧ SameImg sb s' s'' ∧ s'.Keeps s'' ∧
        ∀ e, (s''.inode e).ref = (s'.inode e).ref) (fun p _ => s'.Exhausted p) s') ∧
    ∀ fs s'', DirStep sb i s' fs s'' → ∀ name, (∀ ev ∈ fs, cstr name ≠ cstr ev.name) →
      dirMap ((s''.store.img sb).bytes i) name = dirMap ((s'.store.img sb).bytes i) name := by
  obtain ⟨h', hlatest⟩ := run_latest hsb h hrun
  have hbuf : s'.store.bufs.length ≤ s'.store.lh.length → s'.Exhausted .noBuffers := fun hle => .inr ⟨rfl, hle⟩
  have hino : (∀ e, 0 < (s'.inode e).ref) → s'.Exhausted .noInodes := fun hall => .inl ⟨rfl, hall⟩
  refine ⟨h'.ok.names, fun name => ⟨hlatest name, fun j off hm => h'.ok.at_offset hm⟩, fun e name he => ?_,
    fun e name inum he hthere => ?_, fun fs s'' hstep => (hstep.moved hsb h').other⟩
  · exact wp_mono (h'.wp_dirlookup hsb he hbuf hino) (fun _ _ hl => hl.map) fun _ _ hp => hp
  · exact h'.wp_dirlink_present hsb he hthere hbuf hino

/-- The root directory of a new file system: a link of `..` is refused, and the name keeps its inode. -/
theorem directory_finite_map_root : ∃ V s', HasDir mkfsSb ROOTINO (mounted V 0) ∧
    dirlink mkfsSb ⟨0, by decide⟩ dotdot 5 (mounted V 0) = (.ok false, s') ∧
    Trans.Run (DirStep mkfsSb ROOTINO) (mounted V 0) [] s' ∧
    (dirMap ((s'.store.img mkfsSb).bytes ROOTINO) dotdot).map Prod.fst = some ROOTINO := by
  obtain ⟨ms, -, hf⟩ := mkfs_plain [] rfl (by decide) fun a ha => absurd ha List.not_mem_nil
  obtain ⟨g, s₁, hb, -, -⟩ := hf.built
  obtain ⟨hroot, htype, hbytes⟩ := hb.mounted_root 0
  have hc := consistent_mounted_of_vol hb.rep.vol hb.rep.exact hb.alive_root 0
  have hok : DirOk mkfsSb (((mounted g.V 0).store.img mkfsSb).bytes ROOTINO) := by
    have hnames : ∀ k < 2, ∀ j < 2, direntName (slotOf (Mkfs.rootData []) k) =
        direntName (slotOf (Mkfs.rootData []) j) → k = j := by decide
    have hrange : ∀ k < 2, direntInum (slotOf (Mkfs.rootData []) k) < NINODES := by decide
    rw [hbytes]
    exact ⟨by decide, fun k hk j hj _ _ => hnames k hk j hj, fun k hk _ => hrange k hk⟩
  have hmap : dirMap (((mounted g.V 0).store.img mkfsSb).bytes ROOTINO) dotdot = some (ROOTINO, DESIZE) := by
    rw [hbytes]
    decide
  have hd : HasDir mkfsSb ROOTINO (mounted g.V 0) := ⟨hc, hroot, htype, hok⟩
  have he : Holds (mounted g.V 0) ⟨0, by decide⟩ ROOTINO := ⟨Nat.one_pos, rfl, rfl⟩
  have hfine : ∀ p, ¬ (mounted g.V 0).Exhausted p := by
    rintro p (⟨-, hall⟩ | ⟨-, hle⟩)
    · exact Nat.lt_irrefl 0 (hall ⟨1, by decide⟩)
    · exact absurd (show NBUF ≤ 0 from hle) (by decide)
  obtain ⟨-, -, -, hthere, -⟩ := directory_finite_map mkfsSb_ok hd .refl
  obtain ⟨_, s', hrun, rfl, -⟩ := wp_total (wp_mono (hthere ⟨0, by decide⟩ dotdot 5 he
    (by rw [hmap]; exact some_ne_none _)) (fun _ _ hq => hq) fun p _ hp => hfine p hp)
  have hr : Trans.Run (DirStep mkfsSb ROOTINO) (mounted g.V 0) [] s' := .single (.refuse he hrun)
  refine ⟨g.V, s', hd, hrun, hr, ?_⟩
  rw [((directory_finite_map mkfsSb_ok hd hr).2.1 dotdot).1, hmap]
  rfl

end Xv6
