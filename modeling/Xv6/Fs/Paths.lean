import Xv6.Mkfs.Lookup

/-!
# Paths

`namex` walks along the elements of a path. On a directory tree it arrives where looking up the elements
one after another leads, and it drops every reference that it takes on its way, except the one that it
returns.
-/

namespace Xv6

open RedoLog Function Prog List Option Prod

/-! ## Path elements -/

/-- The elements of a path: the strings between its slashes that are not empty, cut to `DIRSIZ` bytes. -/
def pathElems (path : List UInt8) : List (List UInt8) :=
  ((path.splitOnP fun c => decide (c = slash)).filter fun w => decide (w ≠ [])).map fun w => w.take DIRSIZ

section

variable {path name rest s : List UInt8} {c : UInt8}

theorem pathElems_slash (path : List UInt8) : pathElems (slash :: path) = pathElems path := by
  unfold pathElems
  rw [splitOnP_cons_eq_if_modifyHead, if_pos (decide_eq_true rfl), filter_cons_of_neg (by simp)]

theorem pathElems_dropWhile (path : List UInt8) :
    pathElems (path.dropWhile (· = slash)) = pathElems path := by
  induction path with
  | nil => rfl
  | cons c path ih =>
    by_cases hc : c = slash
    · rw [hc, dropWhile_cons_of_pos (by exact decide_eq_true rfl), ih, pathElems_slash]
    · rw [dropWhile_cons_of_neg (by simpa using hc)]

/-- The first element goes up to the first slash. -/
theorem pathElems_cons (hc : c ≠ slash) : pathElems (c :: s) =
    ((c :: s).takeWhile (· ≠ slash)).take DIRSIZ :: pathElems ((c :: s).dropWhile (· ≠ slash)) := by
  have happ := takeWhile_append_dropWhile (p := fun x => decide (x ≠ slash)) (l := c :: s)
  set w := (c :: s).takeWhile fun x => decide (x ≠ slash) with hw
  have hne : w ≠ [] := by
    rw [hw, takeWhile_cons_of_pos (by exact decide_eq_true hc)]
    exact cons_ne_nil _ _
  have hclean : ∀ x ∈ w, decide (x = slash) = false := fun x hx => by
    have := mem_takeWhile_imp hx
    simpa using this
  cases hd : (c :: s).dropWhile fun x => decide (x ≠ slash) with
  | nil =>
    rw [hd, append_nil] at happ
    rw [← happ]
    simp [pathElems, splitOnP_eq_singleton hclean, hne]
  | cons x d =>
    obtain rfl : x = slash := by
      have := head?_dropWhile_not (fun x => decide (x ≠ slash)) (c :: s)
      rw [hd] at this
      simpa using this
    rw [hd] at happ
    rw [pathElems_slash, ← happ]
    unfold pathElems
    rw [splitOnP_append_cons _ _ (by exact decide_eq_true rfl), splitOnP_eq_singleton hclean]
    simp [hne]

theorem ne_slash_of_dropWhile (h : path.dropWhile (· = slash) = c :: s) : c ≠ slash := by
  have := head?_dropWhile_not (fun x => decide (x = slash)) path
  rw [h] at this
  simpa using this

theorem pathElems_eq_nil : pathElems path = [] ↔ path.dropWhile (· = slash) = [] := by
  rw [← pathElems_dropWhile path]
  cases h : path.dropWhile (· = slash) with
  | nil => exact ⟨fun _ => rfl, fun _ => rfl⟩
  | cons c s => simp [pathElems_cons (ne_slash_of_dropWhile h)]

theorem skipelem_of_nil (h : pathElems path = []) : skipelem path = none := by
  unfold skipelem
  rw [pathElems_eq_nil.1 h]

/-- `skipelem` takes the first element off. -/
theorem skipelem_of_cons {names : List (List UInt8)} (h : pathElems path = name :: names) :
    ∃ rest, skipelem path = some (name, rest) ∧ pathElems rest = names ∧ rest.length < path.length ∧
      (rest = [] ↔ names = []) := by
  cases hs : path.dropWhile (· = slash) with
  | nil =>
    rw [pathElems_eq_nil.2 hs] at h
    exact absurd h.symm (cons_ne_nil _ _)
  | cons c s =>
    have hc := ne_slash_of_dropWhile hs
    rw [← pathElems_dropWhile, hs, pathElems_cons hc, cons.injEq] at h
    obtain ⟨rfl, rfl⟩ := h
    have hrest := pathElems_dropWhile ((c :: s).dropWhile (· ≠ slash))
    have hlen : (((c :: s).dropWhile (· ≠ slash)).dropWhile (· = slash)).length < path.length := by
      have h₁ := (dropWhile_suffix (· = slash) (l := (c :: s).dropWhile (· ≠ slash))).length_le
      have h₂ := (dropWhile_suffix (· = slash) (l := path)).length_le
      have h₃ : ((c :: s).dropWhile (· ≠ slash)).length ≤ s.length := by
        rw [dropWhile_cons_of_pos (by exact decide_eq_true hc)]
        exact (dropWhile_suffix _).length_le
      rw [hs, length_cons] at h₂
      omega
    refine ⟨_, ?_, hrest, hlen, ?_⟩
    · unfold skipelem
      rw [hs]
    · rw [pathElems_eq_nil]

end

/-! ## Lookup in turn -/

/-- The inode that the directory `i` has under the name. -/
def Img.lookup (g : Img) (i : ℕ) (name : List UInt8) : Option ℕ :=
  ((List.range (nslots (g.X i).size)).find? fun k => decide (Hit name (g.entry i k))).map fun k =>
    direntInum (g.entry i k)

/-- The inode that is reached from `i` by looking up the names in turn, in directories only. -/
def Img.resolve (g : Img) : ℕ → List (List UInt8) → Option ℕ
  | i, [] => some i
  | i, name :: names =>
    if (g.X i).type = T_DIR then (g.lookup i name).bind fun j => g.resolve j names else none

/-- The directory that is reached by all names but the last, and the last. -/
def Img.resolveParent (g : Img) (i : ℕ) (names : List (List UInt8)) : Option (ℕ × List UInt8) :=
  names.getLast?.bind fun name => (g.resolve i names.dropLast).bind fun j =>
    if (g.X j).type = T_DIR then some (j, name) else none

/-- A directory tree: its inodes are allocated and have a link, or are `held`; its directories are made of
whole entries, and the entries in use name inodes of the tree. -/
structure Tree (sb : Superblock) (g : Img) (held T : Set ℕ) : Prop where
  alive : ∀ i ∈ T, sb.Alive g.X i
  linked : ∀ i ∈ T, (g.X i).nlink ≠ 0 ∨ i ∈ held
  whole : ∀ i ∈ T, (g.X i).type = T_DIR → DESIZE ∣ (g.X i).size
  closed : ∀ i ∈ T, (g.X i).type = T_DIR → ∀ k < nslots (g.X i).size,
    direntInum (g.entry i k) ≠ 0 → direntInum (g.entry i k) ∈ T

variable {sb : Superblock} {g : Img} {H T F U : Set ℕ} {t u i j : ℕ} {L : List ℕ} {st : Store}
  {s s₀ s' : Fs} {e : Iptr} {P : Panic → Prop} {name : List UInt8} {names : List (List UInt8)} {parent : Bool}

theorem Img.resolveParent_cons (h : names ≠ []) : g.resolveParent i (name :: names) =
    if (g.X i).type = T_DIR then (g.lookup i name).bind fun j => g.resolveParent j names else none := by
  cases names with
  | nil => exact absurd rfl h
  | cons name' names =>
    obtain ⟨last, hlast⟩ : ∃ last, (name' :: names).getLast? = some last :=
      ⟨_, getLast?_eq_some_getLast (cons_ne_nil _ _)⟩
    simp only [resolveParent, getLast?_cons_cons, dropLast_cons_cons, resolve, hlast,
      bind_some]
    split
    · rw [bind_assoc]
    · rfl

theorem Tree.searchable (hT : Tree sb g H T) (hv : Vol sb g F U t L st) (hi : i ∈ T)
    (hd : (g.X i).type = T_DIR) (name : List UInt8) :
    Searchable g i 0 (nslots (g.X i).size) name := by
  intro k _ hk _
  obtain ⟨d, hsize⟩ := hT.whole i hi hd
  have hle : DESIZE * k + DESIZE ≤ (g.X i).size := by
    unfold nslots at hk
    rw [hsize] at hk ⊢
    unfold DESIZE at *
    omega
  obtain ⟨h₁, h₂, -⟩ := hv.block_of_lt (hT.alive i hi) (o := DESIZE * k) (by unfold DESIZE at *; omega)
  exact ⟨hle, h₁, h₂⟩

/-- What is found is in the tree. -/
theorem Tree.lookup_mem (hT : Tree sb g H T) (hi : i ∈ T) (hd : (g.X i).type = T_DIR)
    (h : g.lookup i name = some j) : j ∈ T := by
  obtain ⟨k, hk, rfl⟩ := map_eq_some_iff.1 h
  have hhit : Hit name (g.entry i k) := by simpa using List.find?_some hk
  exact hT.closed i hi hd k (mem_range.1 (mem_of_find?_eq_some hk)) hhit.1

/-- `dirlookup` finds the first entry with the name, if there is one. -/
theorem Reader.wp_lookup {c : Iptr → ℕ} {Q : Option (Iptr × ℕ) → Fs → Prop} (hsb : sb.Ok)
    (h : Reader sb g t s) (hc : s.Counts c) (he : Loaded sb g s e i) (hd : (g.X i).type = T_DIR)
    (hs : Searchable g i 0 (nslots (g.X i).size) name)
    (hn : ∀ j, g.lookup i name = some j → 0 < j ∧ j < sb.ninodes) (hP : (∀ e, 0 < c e) → P .noInodes)
    (hnone : g.lookup i name = none → ∀ s', Reader sb g t s' → s'.Counts c → s.Keeps s' → Q none s')
    (hsome : ∀ ip k s', g.lookup i name = some (s'.inode ip).inum → Reader sb g t s' →
      s'.Counts (update c ip (c ip + 1)) → s.Keeps s' → Q (some (ip, DESIZE * k)) s') :
    wp (dirlookup sb e name) Q (fun e _ => P e) s := by
  unfold dirlookup getInode
  simp only [wp_bind, wp_get, wp_pure, he.copy]
  rw [if_neg (not_not.2 hd), range_eq_range']
  refine wp_dirlookupLoop hsb h.legible (fun hle => absurd hle h.not_full) h.shows he hd hs
    (fun hno st' h' r' => ?_) fun k _ hk hhit hfirst st' h' r' => ?_
  · refine hnone ?_ _ (h.reads h' r') hc fun _ _ => ⟨rfl, rfl, rfl⟩
    rw [Img.lookup, map_eq_none_iff, List.find?_eq_none]
    intro k hk
    rw [decide_eq_true_eq]
    exact hno k (Nat.zero_le k) (by rw [Nat.zero_add]; exact mem_range.1 hk)
  · have hfound : g.lookup i name = some (direntInum (g.entry i k)) := by
      refine map_eq_some_iff.2 ⟨k, List.find?_range_eq_some.2 ⟨decide_eq_true hhit, ?_, ?_⟩, rfl⟩
      · exact mem_range.2 (by omega)
      · exact fun k' hk' => by simpa using hfirst k' (Nat.zero_le k') hk'
    obtain ⟨h0, hlt⟩ := hn _ hfound
    exact (h.reads h' r').wp_iget hc h0 hlt hP fun ip s' h₁ hc₁ hi₁ hkeep =>
      hsome ip k s' (by rw [hfound, hi₁]) h₁ hc₁ hkeep

/-! ## The walk -/

/-- What the walk from `i` along the names arrives at. -/
def Img.Arrives (g : Img) (parent : Bool) (i : ℕ) (names : List (List UInt8))
    (r : Option (Iptr × List UInt8)) (s : Fs) : Prop :=
  if parent then (r.map fun x => ((s.inode x.1).inum, x.2)) = g.resolveParent i names
  else (r.map fun x => (s.inode x.1).inum) = g.resolve i names

/-- The entries in use stay with their inodes, and only the inode `r` has a reference more. -/
structure Walked (sb : Superblock) (g : Img) (t : ℕ) (s₀ : Fs) (r : Option Iptr) (s : Fs) : Prop where
  reader : Reader sb g t s
  tracks : s₀.Tracks s
  counts : s.Counts fun e => (s₀.inode e).ref + if r = some e then 1 else 0

/-- The table has two free entries. -/
def Fs.TwoFree (s : Fs) : Prop := ∃ e₁ e₂, e₁ ≠ e₂ ∧ (s.inode e₁).ref = 0 ∧ (s.inode e₂).ref = 0

/-- The inodes in the table. -/
def Fs.held (s : Fs) : Set ℕ := { i | ∃ e, 0 < (s.inode e).ref ∧ (s.inode e).inum = i }

/-- The walk goes on in the directory that was found. -/
theorem Img.Arrives.step {r : Option (Iptr × List UInt8)} (hd : (g.X i).type = T_DIR)
    (hj : g.lookup i name = some j) (hlast : ¬ (parent = true ∧ names = [])) (h : g.Arrives parent j names r s) :
    g.Arrives parent i (name :: names) r s := by
  cases parent with
  | false => simpa [Arrives, resolve, hd, hj] using h
  | true => simpa [Arrives, resolveParent_cons (by simpa using hlast), hd, hj] using h

theorem Img.Arrives.notDir (hd : (g.X i).type ≠ T_DIR) : g.Arrives parent i (name :: names) none s := by
  cases parent with
  | false => simp [Arrives, resolve, hd]
  | true =>
    cases names with
    | nil => simp [Arrives, resolveParent, resolve, hd]
    | cons name' names => simp [Arrives, resolveParent_cons, hd]

theorem Img.Arrives.missing (hj : g.lookup i name = none) (hlast : ¬ (parent = true ∧ names = [])) :
    g.Arrives parent i (name :: names) none s := by
  cases parent with
  | false => simp [Arrives, resolve, hj]
  | true => simp [Arrives, resolveParent_cons (by simpa using hlast), hj]

namespace Walked

theorem pos {r : Option Iptr} (h : Walked sb g t s₀ r s) (he : 0 < (s₀.inode e).ref) :
    0 < (s.inode e).ref := by
  have : (s.inode e).ref = (s₀.inode e).ref + if r = some e then 1 else 0 := h.counts e
  omega

theorem ref_self (h : Walked sb g t s₀ (some e) s) : (s.inode e).ref = (s₀.inode e).ref + 1 := by
  have : (s.inode e).ref = (s₀.inode e).ref + if some e = some e then 1 else 0 := h.counts e
  rwa [if_pos rfl] at this

/-- An inode of the tree on the way is not freed: it has a link, or there was a reference before. -/
theorem nlink_ne (hT : Tree sb g s₀.held T) (h : Walked sb g t s₀ (some e) s) (hi : (s.inode e).inum ∈ T)
    (hr : (s₀.inode e).ref = 0) : (g.X (s.inode e).inum).nlink ≠ 0 := by
  rcases hT.linked _ hi with hl | ⟨e', hpos, hinum⟩
  · exact hl
  have he : e' = e := h.reader.tab.uniq e' e (h.pos hpos) (by rw [h.ref_self]; omega)
    ((h.tracks e' hpos).trans hinum)
  rw [he] at hpos
  omega

theorem wp_iput {Q : Unit → Fs → Prop} (hT : Tree sb g s₀.held T) (h : Walked sb g t s₀ (some e) s)
    (hi : (s.inode e).inum ∈ T) (hQ : ∀ s', Walked sb g t s₀ none s' → Q () s') :
    wp (iput sb e) Q (fun e _ => P e) s := by
  have hself := h.ref_self
  refine h.reader.wp_iput h.counts (by simp) (fun h1 hv => ?_) fun s' hr hc hk => ?_
  · rw [(h.reader.tab.copy e (by omega) hv).1]
    exact h.nlink_ne hT hi (by simpa using h1)
  · refine hQ s' ⟨hr, fun e' he' => ?_, fun e' => ?_⟩
    · rw [(hk e' (h.pos he')).1, h.tracks e' he']
    · rw [hc e']
      by_cases he : e' = e
      · simp [he]
      · simp [he, Ne.symm he]

theorem wp_iunlockput {Q : Unit → Fs → Prop} (hT : Tree sb g s₀.held T)
    (h : Walked sb g t s₀ (some e) s) (hi : (s.inode e).inum ∈ T)
    (hQ : ∀ s', Walked sb g t s₀ none s' → Q () s') :
    wp (iunlockput sb e) Q (fun e _ => P e) s := by
  have hself := h.ref_self
  unfold iunlockput
  rw [wp_bind]
  exact wp_iunlock (by omega) (h.wp_iput hT hi hQ)

theorem wp_end (hT : Tree sb g s₀.held T) (h : Walked sb g t s₀ (some e) s)
    (hi : (s.inode e).inum ∈ T) :
    wp (if parent then do iput sb e; pure none else pure (some (e, name)))
      (fun r s' => Walked sb g t s₀ (r.map fst) s' ∧ g.Arrives parent (s.inode e).inum [] r s')
      (fun e _ => P e) s := by
  cases parent with
  | false => exact ⟨h, rfl⟩
  | true =>
    rw [if_pos rfl, wp_bind]
    exact h.wp_iput hT hi fun s' h' => ⟨h', rfl⟩

/-- If all entries are in use on the way, at most one was free before. -/
theorem not_twoFree (h : ∀ e', 0 < (s₀.inode e').ref + if some e = some e' then 1 else 0) : ¬ s₀.TwoFree := by
  rintro ⟨e₁, e₂, hne, h₁, h₂⟩
  have hself : ∀ e', (s₀.inode e').ref = 0 → e = e' := fun e' h0 => by
    have := h e'
    rw [h0] at this
    split at this
    · rename_i heq
      exact some.inj heq
    · omega
  exact hne ((hself e₁ h₁).symm.trans (hself e₂ h₂))

/-- `iunlockput` after the lookup: the walk stands on the inode that was found. -/
theorem wp_leave {Q : Unit → Fs → Prop} {s₁ s₂ : Fs} {ip : Iptr} (hT : Tree sb g s₀.held T)
    (h : Walked sb g t s₀ (some e) s₁) (he : Loaded sb g s₁ e i) (hi : i ∈ T) (hr : Reader sb g t s₂)
    (hc : s₂.Counts (update (fun e' => (s₀.inode e').ref + if some e = some e' then 1 else 0) ip
      (((s₀.inode ip).ref + if some e = some ip then 1 else 0) + 1))) (hk : s₁.Keeps s₂)
    (hQ : ∀ s', Walked sb g t s₀ (some ip) s' → (s'.inode ip).inum = (s₂.inode ip).inum → Q () s') :
    wp (iunlockput sb e) Q (fun e _ => P e) s₂ := by
  have hself := h.ref_self
  have hpos₁ : 0 < (s₁.inode e).ref := by omega
  have hcount : ∀ e', (s₂.inode e').ref = (s₀.inode e').ref + (if some e = some e' then 1 else 0) +
      if ip = e' then 1 else 0 := fun e' => by
    rw [hc e']
    by_cases he' : e' = ip
    · simp [he']
    · simp [he', Ne.symm he']
  refine hr.wp_iunlockput hc ?_ (fun h1 _ => ?_) fun s' hr' hc' hk' => hQ s' ⟨hr', ?_, ?_⟩ ?_
  · rw [← hc e, hcount e, if_pos rfl]
    omega
  · rw [(hk e hpos₁).2.2, he.copy, ← he.inum]
    refine h.nlink_ne hT (by rwa [he.inum]) ?_
    rw [← hc e, hcount e, if_pos rfl] at h1
    omega
  · intro e' he'
    have hpos₂ : 0 < (s₂.inode e').ref := by
      rw [hcount e']
      omega
    rw [(hk' e' hpos₂).1, (hk e' (h.pos he')).1, h.tracks e' he']
  · intro e'
    rw [hc' e']
    by_cases he' : e' = e
    · rw [he', update_self, ← hc e, hcount e, if_pos rfl]
      simp only [some.injEq]
      omega
    · rw [update_of_ne he', ← hc e', hcount e', if_neg (by simpa using Ne.symm he')]
      simp only [some.injEq]
      omega
  · refine (hk' ip ?_).1
    rw [hcount ip, if_pos (rfl : ip = ip)]
    omega

end Walked

theorem wp_namexLoop {fuel : ℕ} {path : List UInt8} (hsb : sb.Ok) (hv : Vol sb g F U u L st)
    (hT : Tree sb g s₀.held T) (h : Walked sb g t s₀ (some e) s) (hi : (s.inode e).inum ∈ T)
    (hfuel : path.length ≤ fuel) :
    wp (namexLoop sb parent fuel e path name)
      (fun r s' => Walked sb g t s₀ (r.map fst) s' ∧
        g.Arrives parent (s.inode e).inum (pathElems path) r s')
      (fun p _ => p = .noInodes ∧ ¬ s₀.TwoFree) s := by
  induction fuel generalizing s e path name with
  | zero =>
    obtain rfl : path = [] := length_eq_zero_iff.1 (by omega)
    exact h.wp_end (P := fun p => p = .noInodes ∧ ¬ s₀.TwoFree) hT hi
  | succ fuel ih =>
    rw [namexLoop]
    cases hp : pathElems path with
    | nil =>
      rw [skipelem_of_nil hp]
      exact h.wp_end (P := fun p => p = .noInodes ∧ ¬ s₀.TwoFree) hT hi
    | cons name' names =>
      obtain ⟨rest, hskip, rfl, hlen, hend⟩ := skipelem_of_cons hp
      rw [hskip]
      simp only
      rw [wp_bind]
      have hself := h.ref_self
      refine h.reader.wp_ilock (P := fun p => p = .noInodes ∧ ¬ s₀.TwoFree) hsb h.counts (by simp)
        (hT.alive _ hi).2.2 fun s₁ hr₁ hc₁ he₁ ht₁ => ?_
      have hb₁ : Walked sb g t s₀ (some e) s₁ :=
        ⟨hr₁, fun e' he' => by rw [ht₁ e' (h.pos he'), h.tracks e' he'], hc₁⟩
      have hi₁ : (s₁.inode e).inum ∈ T := by rwa [he₁.inum]
      simp only [getInode, wp_bind, wp_get, wp_pure]
      by_cases hd : (g.X (s.inode e).inum).type = T_DIR
      swap
      · rw [if_pos (by rwa [he₁.copy]), wp_bind]
        exact hb₁.wp_iunlockput hT hi₁ fun s' h' => ⟨h', .notDir hd⟩
      rw [if_neg (by rw [he₁.copy]; exact not_not.2 hd)]
      by_cases hlast : parent = true ∧ rest = []
      · rw [if_pos hlast, wp_bind]
        obtain ⟨rfl, hrest⟩ := hlast
        refine wp_iunlock (by rw [hb₁.ref_self]; omega) ⟨hb₁, ?_⟩
        rw [hend.1 hrest]
        simp [Img.Arrives, Img.resolveParent, Img.resolve, hd, he₁.inum]
      rw [if_neg hlast, wp_bind]
      have hlast' : ¬ (parent = true ∧ pathElems rest = []) := by rwa [← hend]
      refine hb₁.reader.wp_lookup (P := fun p => p = .noInodes ∧ ¬ s₀.TwoFree) hsb hb₁.counts he₁ hd
        (hT.searchable hv hi hd name') (fun j hj => ?_) (fun hall => ⟨rfl, Walked.not_twoFree hall⟩)
        (fun hmiss s₂ hr₂ hc₂ hk₂ => ?_) fun ip k s₂ hfound hr₂ hc₂ hk₂ => ?_
      · have := hT.alive j (hT.lookup_mem hi hd hj)
        exact ⟨this.1, this.2.1⟩
      · have hb₂ : Walked sb g t s₀ (some e) s₂ :=
          ⟨hr₂, fun e' he' => by rw [(hk₂ e' (hb₁.pos he')).1, hb₁.tracks e' he'], hc₂⟩
        simp only [wp_bind]
        refine hb₂.wp_iunlockput hT ?_ fun s' h' => ⟨h', .missing hmiss hlast'⟩
        rwa [(hk₂ e (by rw [hb₁.ref_self]; omega)).1]
      · simp only [wp_bind]
        refine hb₁.wp_leave hT he₁ hi hr₂ hc₂ hk₂ fun s₃ hb₃ hi₃ => ?_
        have hmem : (s₃.inode ip).inum ∈ T := by
          rw [hi₃]
          exact hT.lookup_mem hi hd hfound
        refine wp_mono (ih hb₃ hmem (by omega)) (fun r s' h' => ⟨h'.1, ?_⟩) fun _ _ h' => h'
        exact .step hd (by rw [hi₃, hfound]) hlast' h'.2

/-- The inode that a path starts at. -/
def Fs.start (s : Fs) (cwd : Iptr) (path : List UInt8) : ℕ :=
  if path.head? = some slash then ROOTINO else (s.inode cwd).inum

theorem Consistent.reader (h : Consistent sb s) (hroom : s.store.lh.length < s.store.bufs.length) :
    Reader sb (s.store.img sb) s.store.outstanding s :=
  ⟨h.vol.legible, h.vol.shows, fun _ _ => Set.notMem_empty _, fun _ _ => rfl, h.tab, hroom⟩

theorem Walked.idup (h : Reader sb g t s) (he : 0 < (s.inode e).ref) :
    Walked sb g t s (some e) (s.setInode e fun ip => { ip with ref := ip.ref + 1 }) := by
  refine ⟨{ h with tab := h.tab.setRef he _ }, fun e' he' => (Fs.Keeps.setRef s e _ e' he').1, fun e' => ?_⟩
  by_cases hne : e' = e
  · simp [hne, setInode_self]
  · simp [setInode_of_ne _ _ hne, Ne.symm hne]

theorem wp_namex {cwd : Iptr} {path : List UInt8} (hsb : sb.Ok) (h : Consistent sb s)
    (hroom : s.store.lh.length < s.store.bufs.length) (hT : Tree sb (s.store.img sb) s.held T)
    (hcwd : 0 < (s.inode cwd).ref) (hstart : s.start cwd path ∈ T) :
    wp (namex sb cwd path parent) (fun r s' =>
        Walked sb (s.store.img sb) s.store.outstanding s (r.map fst) s' ∧
          (s.store.img sb).Arrives parent (s.start cwd path) (pathElems path) r s')
      (fun p _ => p = .noInodes ∧ ¬ s.TwoFree) s := by
  have hr := h.reader hroom
  have hloop : ∀ e s₁, Walked sb (s.store.img sb) s.store.outstanding s (some e) s₁ →
      (s₁.inode e).inum = s.start cwd path → wp (namexLoop sb parent path.length e path []) _ _ s₁ :=
    fun e s₁ hb hi => hi ▸ wp_namexLoop hsb h.vol hT hb (hi ▸ hstart) le_rfl
  unfold namex
  rw [wp_bind]
  by_cases hhead : path.head? = some slash
  · have hs : s.start cwd path = ROOTINO := if_pos hhead
    have halive := hT.alive _ (hs ▸ hstart)
    rw [if_pos hhead]
    refine hr.wp_iget (P := fun p => p = .noInodes ∧ ¬ s.TwoFree) (fun _ => rfl) halive.1 halive.2.1
      (fun hall => ⟨rfl, ?_⟩) fun e s₁ hr₁ hc₁ hi₁ hk₁ => hloop e s₁ ⟨hr₁, fun e' he' => (hk₁ e' he').1, ?_⟩
        (by rw [hi₁, hs])
    · rintro ⟨e₁, -, -, h₁, -⟩
      have := hall e₁
      omega
    · intro e'
      rw [hc₁ e']
      by_cases he : e' = e
      · simp [he]
      · simp [he, Ne.symm he]
  · have hs : s.start cwd path = (s.inode cwd).inum := if_neg hhead
    rw [if_neg hhead]
    exact hloop cwd (s.setInode cwd fun ip => { ip with ref := ip.ref + 1 }) (.idup hr hcwd)
      (by rw [setInode_self, hs])

/-- `namei` and `nameiparent` on a directory tree, from any consistent state: the result is that of looking
up the elements of the path in turn, and only the inode returned has a reference more. They panic only if
the inode table is full. -/
theorem paths_resolve {cwd : Iptr} {path : List UInt8} (hsb : sb.Ok) (h : Consistent sb s)
    (hroom : s.store.lh.length < s.store.bufs.length) (hT : Tree sb (s.store.img sb) s.held T)
    (hcwd : 0 < (s.inode cwd).ref) (hstart : s.start cwd path ∈ T) :
    wp (namei sb cwd path) (fun r s' =>
        (r.map fun e => (s'.inode e).inum) = (s.store.img sb).resolve (s.start cwd path) (pathElems path) ∧
        s.Tracks s' ∧ ∀ e, (s'.inode e).ref = (s.inode e).ref + if r = some e then 1 else 0)
      (fun p _ => p = .noInodes ∧ ¬ s.TwoFree) s ∧
    wp (nameiparent sb cwd path) (fun r s' =>
        (r.map fun x => ((s'.inode x.1).inum, x.2)) =
          (s.store.img sb).resolveParent (s.start cwd path) (pathElems path) ∧
        s.Tracks s' ∧ ∀ e, (s'.inode e).ref = (s.inode e).ref + if r.map Prod.fst = some e then 1 else 0)
      (fun p _ => p = .noInodes ∧ ¬ s.TwoFree) s := by
  constructor
  · refine wp_call (wp_namex hsb h hroom hT hcwd hstart) fun r s' h' => ?_
    obtain ⟨hw, ha⟩ := h'
    refine ⟨?_, hw.tracks, hw.counts⟩
    rw [Option.map_map]
    exact ha
  · exact wp_mono (wp_namex hsb h hroom hT hcwd hstart)
      (fun r s' h' => ⟨h'.2, h'.1.tracks, h'.1.counts⟩) fun _ _ h' => h'

/-- The root directory of a new file system without files is a tree. -/
theorem tree_mounted {g : Img} {s₁ : Mkfs} (hb : Mkfs.Built [] s₁ g) :
    Tree mkfsSb ((mounted g.V 0).store.img mkfsSb) (mounted g.V 0).held { ROOTINO } ∧
      ((mounted g.V 0).store.img mkfsSb).resolve ROOTINO [dot] = some ROOTINO := by
  obtain ⟨hroot, htype, hbytes⟩ := hb.mounted_root 0
  have hsize : (((mounted g.V 0).store.img mkfsSb).X ROOTINO).size = 32 := by
    rw [← Img.length_bytes, hbytes]
    decide
  refine ⟨⟨?_, ?_, ?_, ?_⟩, ?_⟩
  · rintro _ rfl
    exact hroot
  · rintro _ rfl
    exact Or.inr ⟨⟨0, by decide⟩, Nat.one_pos, rfl⟩
  · rintro _ rfl _
    rw [hsize]
    decide
  · rintro _ rfl _ k hk _
    rw [hsize] at hk
    have hall : ∀ k < nslots 32, direntInum (((Mkfs.rootData []).drop (DESIZE * k)).take DESIZE) = ROOTINO := by
      decide
    simp only [Img.entry, hbytes]
    exact hall k hk
  · simp only [Img.resolve, htype, if_true, Img.lookup, hsize, Img.entry, hbytes]
    decide

/-- The theorem at the path "/." of a new file system without files. -/
theorem paths_resolve_root : ∃ V, Consistent mkfsSb (mounted V 0) ∧
    ∃ e s', namei mkfsSb ⟨0, by decide⟩ (slash :: dot) (mounted V 0) = (.ok (some e), s') ∧
      (s'.inode e).inum = ROOTINO := by
  obtain ⟨ms, -, hf⟩ := mkfs_plain [] rfl (by decide) fun a ha => absurd ha List.not_mem_nil
  obtain ⟨g, s₁, hb, -, -⟩ := hf.built
  have hc := consistent_mounted_of_vol hb.rep.vol hb.rep.exact hb.alive_root 0
  obtain ⟨hT, hres⟩ := tree_mounted hb
  have hp := (@paths_resolve _ _ _ ⟨0, by decide⟩ (slash :: dot) mkfsSb_ok hc (show 0 < NBUF by decide) hT
    Nat.one_pos rfl).1
  have hfree : (mounted g.V 0).TwoFree := ⟨1, 2, by decide, rfl, rfl⟩
  obtain ⟨r, s', hrun, hr, -, -⟩ := wp_total
    (wp_mono hp (fun _ _ h => h) fun _ _ h => h.2 hfree)
  have helems : pathElems (slash :: dot) = [dot] := by decide
  rw [helems, show (mounted g.V 0).start ⟨0, by decide⟩ (slash :: dot) = ROOTINO from rfl, hres,
    Option.map_eq_some_iff] at hr
  obtain ⟨e, rfl, he⟩ := hr
  exact ⟨g.V, hc, e, s', hrun, he⟩

end Xv6
