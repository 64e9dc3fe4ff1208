import Mathlib.Computability.Language
import Mathlib.Data.List.TakeWhile

/-!
# `grep`

The matcher of `grep.c` and the loop that cuts the input into lines. Strings are given by their
characters before the NUL. The meaning of a pattern is a list of items, each with a regular language; the
matcher looks for a word of their product (`grepMatch_iff`). The loop keeps an incomplete line at the front of
its buffer of 1024 bytes. It loses this line when the input ends, and the rest of the input as well when
the line fills the buffer: it writes all lines that match if and only if none of them is lost so
(`grep_lines`), however `read` cuts the input.
-/

namespace Xv6.Grep

open List

/-! ## The matcher -/

/-- `matchstar` for the character `c`, with `matchhere` for the rest of the pattern. -/
def matchstar (here : List UInt8 → Bool) (c : UInt8) : List UInt8 → Bool
  | [] => here []
  | x :: text => here (x :: text) || ((x == c || c == 46) && matchstar here c text)

/-- `matchhere`: 42 is '*', 36 is '$' and 46 is '.'. -/
def matchhere : List UInt8 → List UInt8 → Bool
  | [], _ => true
  | [c], text =>
    if c = 36 then text.isEmpty
    else match text with
      | [] => false
      | x :: _ => c == 46 || c == x
  | c :: d :: re, text =>
    if d = 42 then matchstar (matchhere re) c text
    else match text with
      | [] => false
      | x :: text => (c == 46 || c == x) && matchhere (d :: re) text

/-- The loop of `match` for a pattern without an anchor. -/
def matchLoop (re : List UInt8) : List UInt8 → Bool
  | [] => matchhere re []
  | x :: text => matchhere re (x :: text) || matchLoop re text

/-- `match`: 94 is '^'. -/
def grepMatch : List UInt8 → List UInt8 → Bool
  | [], text => matchLoop [] text
  | c :: re, text => if c = 94 then matchhere re text else matchLoop (c :: re) text

/-! ## The language of a pattern -/

/-- An item of a pattern: a character, or a character with a star. -/
inductive Item
  | one (c : UInt8)
  | star (c : UInt8)

/-- The items of a pattern without its anchor, and whether it ends in the item '$'. -/
def items : List UInt8 → List Item × Bool
  | [] => ([], false)
  | [c] => if c = 36 then ([], true) else ([.one c], false)
  | c :: d :: re =>
    if d = 42 then (.star c :: (items re).1, (items re).2)
    else (.one c :: (items (d :: re)).1, (items (d :: re)).2)

/-- The words of one character that `c` stands for; '.' stands for any. -/
def single (c : UInt8) : Language UInt8 := { w | ∃ x, w = [x] ∧ (c = 46 ∨ c = x) }

open scoped Computability in
def Item.lang : Item → Language UInt8
  | .one c => single c
  | .star c => (single c)∗

/-- The words that a sequence of items matches. -/
def lang (l : List Item) : Language UInt8 := (l.map Item.lang).prod

/-- `text` starts with a word of the items, and is one if they are followed by '$'. -/
def Starts (re text : List UInt8) : Prop :=
  ∃ w v, text = w ++ v ∧ w ∈ lang (items re).1 ∧ ((items re).2 = true → v = [])

theorem mem_lang_cons {i : Item} {l : List Item} {w : List UInt8} :
    w ∈ lang (i :: l) ↔ ∃ a ∈ i.lang, ∃ b ∈ lang l, a ++ b = w := by
  rw [lang, map_cons, prod_cons, Language.mem_mul]
  rfl

/-- A word of a starred character. -/
theorem mem_star {c : UInt8} {w : List UInt8} : w ∈ (Item.star c).lang ↔ ∀ x ∈ w, c = 46 ∨ c = x := by
  constructor
  · rintro ⟨L, rfl, hL⟩ x hx
    obtain ⟨y, hy, hxy⟩ := mem_flatten.1 hx
    obtain ⟨z, rfl, hz⟩ := hL y hy
    rwa [mem_singleton.1 hxy]
  · intro h
    refine ⟨w.map fun x => [x], ?_, fun y hy => ?_⟩
    · exact (flatMap_singleton' w).symm
    · obtain ⟨x, hx, rfl⟩ := mem_map.1 hy
      exact ⟨x, rfl, h x hx⟩

/-- `matchstar` tries all words of the starred character. -/
theorem matchstar_iff {here : List UInt8 → Bool} {c : UInt8} (text : List UInt8) :
    matchstar here c text = true ↔ ∃ u v, text = u ++ v ∧ u ∈ (Item.star c).lang ∧ here v = true := by
  induction text with
  | nil =>
    constructor
    · exact fun h => ⟨[], [], rfl, mem_star.2 (by simp), h⟩
    · rintro ⟨u, v, e, -, hv⟩
      obtain ⟨rfl, rfl⟩ := nil_eq_append_iff.1 e
      exact hv
  | cons x text ih =>
    rw [matchstar, Bool.or_eq_true, Bool.and_eq_true, ih]
    constructor
    · rintro (h | ⟨hx, u, v, rfl, hu, hv⟩)
      · exact ⟨[], _, rfl, mem_star.2 (by simp), h⟩
      · refine ⟨x :: u, v, rfl, mem_star.2 fun y hy => ?_, hv⟩
        rcases mem_cons.1 hy with rfl | hy
        · simpa [or_comm, eq_comm (a := c)] using hx
        · exact mem_star.1 hu y hy
    · rintro ⟨u, v, e, hu, hv⟩
      cases u with
      | nil => exact .inl (by rw [nil_append] at e; rwa [e])
      | cons y u =>
        obtain ⟨rfl, rfl⟩ := List.cons.inj e
        have hall := mem_star.1 hu
        refine .inr ⟨?_, u, v, rfl, mem_star.2 fun z hz => hall z (mem_cons_of_mem _ hz), hv⟩
        simpa [or_comm, eq_comm (a := c)] using hall x mem_cons_self

/-- A single character in front of the rest of a pattern. -/
theorem starts_one {c : UInt8} {re re' text : List UInt8} (h : items re' = (.one c :: (items re).1, (items re).2)) :
    Starts re' text ↔ ∃ x v, text = x :: v ∧ (c = 46 ∨ c = x) ∧ Starts re v := by
  constructor
  · rintro ⟨w, v, rfl, hw, hend⟩
    rw [h] at hw hend
    obtain ⟨a, ⟨x, rfl, hx⟩, b, hb, rfl⟩ := mem_lang_cons.1 hw
    exact ⟨x, b ++ v, rfl, hx, b, v, rfl, hb, hend⟩
  · rintro ⟨x, v, rfl, hx, b, v', rfl, hb, hend⟩
    refine ⟨x :: b, v', rfl, ?_, ?_⟩
    · rw [h]
      exact mem_lang_cons.2 ⟨[x], ⟨x, rfl, hx⟩, b, hb, rfl⟩
    · rwa [h]

theorem matchhere_iff : ∀ re text : List UInt8, matchhere re text = true ↔ Starts re text
  | [], text => ⟨fun _ => ⟨[], text, rfl, rfl, fun h => by cases h⟩, fun _ => by rw [matchhere]⟩
  | [c], text => by
    rw [matchhere.eq_def]
    by_cases hc : c = 36
    · subst hc
      simp only [if_true, List.isEmpty_iff]
      constructor
      · rintro rfl
        exact ⟨[], [], rfl, rfl, fun _ => rfl⟩
      · rintro ⟨w, v, rfl, hw, hend⟩
        rw [show w = [] from hw, hend rfl]
        rfl
    · have hi : items [c] = (.one c :: (items []).1, (items []).2) := by simp only [items, if_neg hc]
      rw [starts_one hi]
      simp only [if_neg hc]
      cases text with
      | nil => simp
      | cons x text =>
        constructor
        · intro h
          exact ⟨x, text, rfl, by simpa using h, [], text, rfl, rfl, fun h => by cases h⟩
        · rintro ⟨y, v, e, hy, -⟩
          obtain ⟨rfl, rfl⟩ := List.cons.inj e
          simpa using hy
  | c :: d :: re, text => by
    rw [matchhere.eq_def]
    by_cases hd : d = 42
    · subst hd
      have hi : items (c :: 42 :: re) = (.star c :: (items re).1, (items re).2) := by rw [items, if_pos rfl]
      simp only [if_true, matchstar_iff]
      constructor
      · rintro ⟨u, v, rfl, hu, hv⟩
        obtain ⟨w, v', rfl, hw, hend⟩ := (matchhere_iff re v).1 hv
        refine ⟨u ++ w, v', (append_assoc ..).symm, ?_, ?_⟩
        · rw [hi]
          exact mem_lang_cons.2 ⟨u, hu, w, hw, rfl⟩
        · rwa [hi]
      · rintro ⟨w, v, rfl, hw, hend⟩
        rw [hi] at hw hend
        obtain ⟨a, ha, b, hb, rfl⟩ := mem_lang_cons.1 hw
        exact ⟨a, b ++ v, append_assoc .., ha, (matchhere_iff re _).2 ⟨b, v, rfl, hb, hend⟩⟩
    · have hi : items (c :: d :: re) = (.one c :: (items (d :: re)).1, (items (d :: re)).2) := by
        rw [items, if_neg hd]
      rw [starts_one hi]
      simp only [if_neg hd]
      cases text with
      | nil => simp
      | cons x text =>
        rw [Bool.and_eq_true, matchhere_iff (d :: re) text]
        constructor
        · rintro ⟨hx, h⟩
          exact ⟨x, text, rfl, by simpa using hx, h⟩
        · rintro ⟨y, v, e, hy, h⟩
          obtain ⟨rfl, rfl⟩ := List.cons.inj e
          exact ⟨by simpa using hy, h⟩

theorem matchLoop_iff (re text : List UInt8) :
    matchLoop re text = true ↔ ∃ u v, text = u ++ v ∧ Starts re v := by
  induction text with
  | nil =>
    rw [matchLoop, matchhere_iff]
    constructor
    · exact fun h => ⟨[], [], rfl, h⟩
    · rintro ⟨u, v, e, h⟩
      obtain ⟨rfl, rfl⟩ := nil_eq_append_iff.1 e
      exact h
  | cons x text ih =>
    rw [matchLoop, Bool.or_eq_true, matchhere_iff, ih]
    constructor
    · rintro (h | ⟨u, v, rfl, h⟩)
      · exact ⟨[], _, rfl, h⟩
      · exact ⟨x :: u, v, rfl, h⟩
    · rintro ⟨u, v, e, h⟩
      cases u with
      | nil => exact .inl (by rw [nil_append] at e; rwa [e])
      | cons y u =>
        obtain ⟨rfl, rfl⟩ := List.cons.inj e
        exact .inr ⟨u, v, rfl, h⟩

/-- `match` returns 1 if and only if a suffix of the text, the whole text after '^', starts with a word of
the items of the pattern, and is such a word if the pattern ends in '$'. -/
theorem grepMatch_iff (pattern text : List UInt8) :
    grepMatch pattern text = true ↔
      if pattern.head? = some 94 then Starts pattern.tail text
      else ∃ u v, text = u ++ v ∧ Starts pattern v := by
  cases pattern with
  | nil =>
    rw [if_neg (by simp)]
    exact matchLoop_iff [] text
  | cons c re =>
    rw [grepMatch, List.head?_cons, List.tail_cons]
    by_cases hc : c = 94
    · rw [if_pos hc, if_pos (congrArg some hc)]
      exact matchhere_iff re text
    · rw [if_neg hc, if_neg fun e => hc (Option.some.inj e)]
      exact matchLoop_iff (c :: re) text

/-! ## The loop over the input -/

/-- The inner loop of `grep` with its `strchr`: `line` has been passed since `p`. Returns the texts it writes
and what is left from `p` on. -/
def scan (re : List UInt8) : List UInt8 → List UInt8 → List (List UInt8) × List UInt8
  | line, [] => ([], line)
  | line, x :: text =>
    if x = 0 then ([], line ++ x :: text)
    else if x = 10 then
      ((if grepMatch re line then [line ++ [10]] else []) ++ (scan re [] text).1, (scan re [] text).2)
    else scan re (line ++ [x]) text

/-- The outer loop: `held` is at the front of the buffer, and the `i`-th `read` returns `cut i + 1` bytes of the
input if so many are asked for and left. -/
def grepLoop (re : List UInt8) (cut : ℕ → ℕ) :
    ℕ → ℕ → List UInt8 → List UInt8 → Option (List (List UInt8))
  | 0, _, _, _ => none
  | fuel + 1, i, held, input =>
    let n := min (min (cut i + 1) (1024 - held.length - 1)) input.length
    if n = 0 then some []
    else
      let r := scan re [] (held ++ input.take n)
      (grepLoop re cut fuel (i + 1) r.2 (input.drop n)).map (r.1 ++ ·)

def grep (re : List UInt8) (cut : ℕ → ℕ) (input : List UInt8) : Option (List (List UInt8)) :=
  grepLoop re cut (input.length + 1) 0 [] input

/-- A piece of a line. -/
abbrev Piece (l : List UInt8) : Prop := 0 ∉ l ∧ 10 ∉ l

theorem Piece.of_subset {l l' : List UInt8} (h : Piece l) (hs : l' ⊆ l) : Piece l' :=
  ⟨fun h' => h.1 (hs h'), fun h' => h.2 (hs h')⟩

theorem Piece.append {l l' : List UInt8} (h : Piece l) (h' : Piece l') : Piece (l ++ l') := by
  simp only [Piece, mem_append, not_or]
  exact ⟨⟨h.1, h'.1⟩, h.2, h'.2⟩

theorem scan_piece {re : List UInt8} : ∀ (line : List UInt8) {l : List UInt8} (text : List UInt8), Piece l →
    scan re line (l ++ text) = scan re (line ++ l) text
  | line, [], text, _ => by rw [append_nil, nil_append]
  | line, x :: l, text, ⟨h0, h10⟩ => by
    rw [cons_append, scan, if_neg fun h : x = 0 => h0 (h ▸ mem_cons_self),
      if_neg fun h : x = 10 => h10 (h ▸ mem_cons_self),
      scan_piece (line ++ [x]) text ⟨fun h => h0 (mem_cons_of_mem _ h), fun h => h10 (mem_cons_of_mem _ h)⟩,
      append_assoc, singleton_append]

/-- Scanning goes on where it stopped. -/
theorem scan_append {re : List UInt8} : ∀ (line u v : List UInt8), 0 ∉ u →
    scan re line (u ++ v) =
      ((scan re line u).1 ++ (scan re (scan re line u).2 v).1, (scan re (scan re line u).2 v).2)
  | line, [], v, _ => rfl
  | line, x :: u, v, h => by
    obtain ⟨hx, hu⟩ := not_or.1 (mem_cons.not.1 h)
    rw [cons_append, scan, scan, if_neg (Ne.symm hx), if_neg (Ne.symm hx)]
    by_cases h10 : x = 10
    · rw [if_pos h10, if_pos h10, scan_append [] u v hu, append_assoc]
    · rw [if_neg h10, if_neg h10, scan_append _ u v hu]

theorem scan_rest {re : List UInt8} : ∀ (line u : List UInt8), Piece line → 0 ∉ u → Piece (scan re line u).2
  | line, [], hl, _ => hl
  | line, x :: u, hl, h => by
    obtain ⟨hx, hu⟩ := not_or.1 (mem_cons.not.1 h)
    rw [scan, if_neg (Ne.symm hx)]
    by_cases h10 : x = 10
    · rw [if_pos h10]
      exact scan_rest [] u ⟨not_mem_nil, not_mem_nil⟩ hu
    · rw [if_neg h10]
      refine scan_rest _ u ⟨?_, ?_⟩ hu
      · simp [hl.1, hx]
      · simp [hl.2, Ne.symm h10]

theorem scan_length {re : List UInt8} : ∀ line u : List UInt8,
    (scan re line u).2.length ≤ line.length + u.length
  | line, [] => le_rfl
  | line, x :: u => by
    rw [scan, length_cons]
    split
    · rw [length_append, length_cons]
    · split
      · have := @scan_length re [] u
        rw [length_nil] at this
        dsimp only
        omega
      · have := @scan_length re (line ++ [x]) u
        rw [length_append, length_singleton] at this
        omega

section

variable {re : List UInt8} {cut : ℕ → ℕ} {l rest : List UInt8}

/-- From a line that fills the buffer or ends with the input on, nothing is written. -/
theorem grepLoop_piece : ∀ (fuel i : ℕ) (held l : List UInt8), (l ++ rest).length < fuel →
    Piece held → Piece l → held.length ≤ 1023 → (rest = [] ∨ 1023 ≤ held.length + l.length) →
    grepLoop re cut fuel i held (l ++ rest) = some []
  | 0, _, _, _, h, _, _, _, _ => absurd h (Nat.not_lt_zero _)
  | fuel + 1, i, held, l, hf, hh, hl, hle, hend => by
    rw [grepLoop]
    generalize hn : min (min (cut i + 1) (1024 - held.length - 1)) (l ++ rest).length = n
    dsimp only
    by_cases hz : n = 0
    · rw [if_pos hz]
    rw [length_append] at hn hf
    have hnl : n ≤ l.length := by
      rcases hend with rfl | hend
      · rw [length_nil] at hn
        omega
      · omega
    have hpiece : Piece (held ++ l.take n) := hh.append (hl.of_subset (take_subset n l))
    have hscan := @scan_piece re [] _ [] hpiece
    rw [append_nil, nil_append] at hscan
    rw [if_neg hz, take_append_of_le_length hnl, drop_append_of_le_length hnl, hscan]
    refine congrArg (Option.map _) (grepLoop_piece fuel (i + 1) _ _ ?_ hpiece
      (hl.of_subset (drop_subset n l)) ?_ ?_)
    · rw [length_append, length_drop]
      omega
    · rw [length_append, length_take]
      omega
    · refine hend.imp_right fun hend => ?_
      rw [length_append, length_take, length_drop]
      omega

/-- While the line in the buffer leaves room for a byte, the reads are one scan of the input. What follows,
up to a line that fills the buffer or to the end, is not written. -/
theorem grepLoop_eq : ∀ (fuel i : ℕ) (held u : List UInt8), (u ++ (l ++ rest)).length < fuel →
    Piece held → 0 ∉ u → Piece l → (∀ a b, u = a ++ b → (scan re held a).2.length ≤ 1022) →
    (rest = [] ∨ 1023 ≤ (scan re held u).2.length + l.length) →
    grepLoop re cut fuel i held (u ++ (l ++ rest)) = some (scan re held u).1
  | 0, _, _, _, h, _, _, _, _, _ => absurd h (Nat.not_lt_zero _)
  | fuel + 1, i, held, u, hf, hh, h0, hl, hs, hend => by
    have hroom : held.length ≤ 1022 := hs [] u rfl
    by_cases hu : u = []
    · subst hu
      exact grepLoop_piece (fuel + 1) i held l hf hh hl (by omega) hend
    rw [grepLoop]
    generalize hn : min (min (cut i + 1) (1024 - held.length - 1)) (u ++ (l ++ rest)).length = n
    dsimp only
    rw [length_append, length_append] at hn hf
    have hpos := length_pos_of_ne_nil hu
    rw [if_neg (show n ≠ 0 by omega), scan_piece [] _ hh, nil_append]
    by_cases hnu : n ≤ u.length
    · -- the chunk ends in `u`: the rest of `u` is scanned from the line this chunk leaves
      have hin := take_append_drop n u
      have ht : 0 ∉ u.take n := fun h => h0 (mem_of_mem_take h)
      have happ := @scan_append re held (u.take n) (u.drop n) ht
      rw [hin] at happ
      rw [take_append_of_le_length hnu, drop_append_of_le_length hnu, happ]
      rw [happ] at hend
      refine congrArg (Option.map _) (grepLoop_eq fuel (i + 1) _ _ ?_ (scan_rest _ _ hh ht)
        (fun h => h0 (mem_of_mem_drop h)) hl (fun a b hab => ?_) hend)
      · rw [length_append, length_append, length_drop]
        omega
      · have hle := hs (u.take n ++ a) b (by rw [append_assoc, ← hab, hin])
        rwa [scan_append _ _ _ ht] at hle
    · -- the chunk takes a piece of the line that follows
      obtain ⟨k, rfl⟩ := Nat.exists_eq_add_of_lt (Nat.lt_of_not_le hnu)
      have hlen := @scan_length re held u
      have hkl : k + 1 ≤ l.length := by
        rcases hend with rfl | hend
        · rw [length_nil] at hn
          omega
        · omega
      have hk : Piece (l.take (k + 1)) := hl.of_subset (take_subset _ _)
      have hline := @scan_piece re (scan re held u).2 _ [] hk
      rw [append_nil] at hline
      have hpiece : Piece ((scan re held u).2 ++ l.take (k + 1)) := (scan_rest held u hh h0).append hk
      rw [Nat.add_assoc, take_length_add_append, drop_length_add_append, take_append_of_le_length hkl,
        drop_append_of_le_length hkl, scan_append _ _ _ h0, hline]
      have hrest : grepLoop re cut fuel (i + 1) ((scan re held u).2 ++ l.take (k + 1))
          (l.drop (k + 1) ++ rest) = some [] := by
        refine grepLoop_piece fuel (i + 1) _ _ ?_ hpiece (hl.of_subset (drop_subset _ _)) ?_ ?_
        · rw [length_append, length_drop]
          omega
        · rw [length_append, length_take]
          omega
        · refine hend.imp_right fun hend => ?_
          rw [length_append, length_take, length_drop]
          omega
      dsimp only [scan]
      rw [hrest, append_nil, Option.map_some, append_nil]

end

theorem scan_lines {re tail : List UInt8} (ht : Piece tail) : ∀ lines : List (List UInt8), (∀ l ∈ lines, Piece l) →
    scan re [] ((lines.map (· ++ [10])).flatten ++ tail) = ((lines.filter (grepMatch re)).map (· ++ [10]), tail)
  | [], _ => by
    have h := @scan_piece re [] _ [] ht
    rwa [append_nil] at h
  | l :: lines, h => by
    obtain ⟨hl, hls⟩ := forall_mem_cons.1 h
    have e : ((l :: lines).map (· ++ [10])).flatten ++ tail = l ++ 10 :: ((lines.map (· ++ [10])).flatten ++ tail) := by
      simp
    rw [e, scan_piece [] _ hl, scan, if_neg (by decide), if_pos rfl, scan_lines ht lines hls, nil_append,
      filter_cons]
    by_cases hm : grepMatch re l = true
    · rw [if_pos hm, if_pos hm]
      rfl
    · rw [if_neg hm, if_neg hm]
      rfl

/-- The line in the buffer is at most as long as the longest line. -/
theorem scan_length_le {re : List UInt8} :
    ∀ lines : List (List UInt8), (∀ l ∈ lines, Piece l ∧ l.length ≤ 1022) → ∀ u v,
      (lines.map (· ++ [10])).flatten = u ++ v → (scan re [] u).2.length ≤ 1022
  | [], _, u, v, e => by
    obtain ⟨rfl, -⟩ := nil_eq_append_iff.1 e
    exact Nat.zero_le _
  | l :: lines, h, u, v, e => by
    obtain ⟨hl, hls⟩ := forall_mem_cons.1 h
    have piece : ∀ {w : List UInt8}, l = u ++ w → (scan re [] u).2.length ≤ 1022 := by
      rintro w rfl
      have hlen := @scan_length re [] u
      rw [length_append] at hl
      rw [length_nil] at hlen
      omega
    rw [map_cons, flatten_cons, append_assoc] at e
    rcases append_eq_append_iff.1 e with ⟨c, rfl, hc⟩ | ⟨c, hc, -⟩
    · cases c with
      | nil => exact piece (w := []) (by simp)
      | cons x c =>
        obtain ⟨rfl, hrest⟩ := List.cons.inj hc
        rw [scan_piece [] _ hl.1, scan, if_neg (by decide), if_pos rfl]
        exact scan_length_le lines hls c v hrest
    · exact piece hc

/-- The input with the terminated lines `lines` and an unfinished line `tail`. -/
def text (lines : List (List UInt8)) (tail : List UInt8) : List UInt8 := (lines.map (· ++ [10])).flatten ++ tail

/-- The lines of the input that match. -/
def matching (re : List UInt8) (lines : List (List UInt8)) (tail : List UInt8) : List (List UInt8) :=
  (lines.filter (grepMatch re)).map (· ++ [10]) ++ if tail ≠ [] ∧ grepMatch re tail = true then [tail] else []

/-- `grep` writes the terminated lines that match, up to the first line of 1023 bytes or more. -/
theorem grep_eq (re : List UInt8) (cut : ℕ → ℕ) {lines : List (List UInt8)} {tail : List UInt8}
    (h : ∀ l ∈ lines, Piece l) (ht : Piece tail) :
    grep re cut (text lines tail) =
      some (((lines.takeWhile (·.length ≤ 1022)).filter (grepMatch re)).map (· ++ [10])) := by
  have hshort : ∀ l ∈ lines.takeWhile (·.length ≤ 1022), Piece l ∧ l.length ≤ 1022 := fun l hl =>
    ⟨h l ((takeWhile_sublist _).subset hl), by simpa using mem_takeWhile_imp hl⟩
  have hsplit := takeWhile_append_dropWhile (p := fun l : List UInt8 => decide (l.length ≤ 1022)) (l := lines)
  -- the lines before the first long one, and the line after them
  have hrun : ∀ {l rest : List UInt8}, Piece l → (rest = [] ∨ 1023 ≤ l.length) →
      grep re cut (((lines.takeWhile (·.length ≤ 1022)).map (· ++ [10])).flatten ++ (l ++ rest)) =
        some (((lines.takeWhile (·.length ≤ 1022)).filter (grepMatch re)).map (· ++ [10])) := by
    intro l rest hl hend
    have hnil : Piece ([] : List UInt8) := ⟨not_mem_nil, not_mem_nil⟩
    have hscan := @scan_lines re [] hnil _ fun l hl => (hshort l hl).1
    rw [append_nil] at hscan
    rw [grep, grepLoop_eq _ 0 [] _ (Nat.lt_succ_self _) hnil ?_ hl (scan_length_le _ hshort) ?_, hscan]
    · intro hmem
      obtain ⟨_, hm, hx⟩ := List.mem_flatten.1 hmem
      obtain ⟨l, hmem', rfl⟩ := List.mem_map.1 hm
      exact (hshort l hmem').1.1 (by simpa using hx)
    · rw [hscan]
      exact hend.imp_right fun hend => by simpa using hend
  cases hlong : lines.dropWhile (·.length ≤ 1022) with
  | nil =>
    rw [hlong, append_nil] at hsplit
    have := hrun ht (.inl rfl)
    rw [append_nil, hsplit] at this
    rw [hsplit]
    exact this
  | cons l long =>
    have hl : 1023 ≤ l.length := by
      have := dropWhile_get_zero_not (p := fun l : List UInt8 => decide (l.length ≤ 1022)) lines (by
        rw [hlong]; exact Nat.succ_pos _)
      simp only [hlong, get_eq_getElem, getElem_cons_zero, decide_eq_true_eq] at this
      omega
    have hmem : l ∈ lines := (dropWhile_suffix _).subset (hlong ▸ mem_cons_self)
    have := @hrun l ([10] ++ ((long.map (· ++ [10])).flatten ++ tail)) (h l hmem) (.inr hl)
    rw [← this, text]
    nth_rewrite 1 [← hsplit]
    rw [hlong, map_append, flatten_append, map_cons, flatten_cons]
    simp only [append_assoc]

/-- **`grep` writes exactly the lines that match**, whatever the sizes of the reads, if and only if no line
matches that has 1023 bytes or more, or comes after such a line, or is unfinished at the end of the input. -/
theorem grep_lines (re : List UInt8) (cut : ℕ → ℕ) (lines : List (List UInt8)) (tail : List UInt8)
    (h : ∀ l ∈ lines, Piece l) (ht : Piece tail) :
    grep re cut (text lines tail) = some (matching re lines tail) ↔
      (∀ l ∈ lines.dropWhile (·.length ≤ 1022), grepMatch re l = false) ∧
      (tail = [] ∨ grepMatch re tail = false) := by
  have hsplit := takeWhile_append_dropWhile (p := fun l : List UInt8 => decide (l.length ≤ 1022)) (l := lines)
  have hall : (lines.filter (grepMatch re)).map (· ++ [10]) =
      ((lines.takeWhile (·.length ≤ 1022)).filter (grepMatch re)).map (· ++ [10]) ++
        ((lines.dropWhile (·.length ≤ 1022)).filter (grepMatch re)).map (· ++ [10]) := by
    rw [← map_append, ← filter_append, hsplit]
  rw [grep_eq re cut h ht, Option.some_inj, matching, hall, append_assoc, self_eq_append_right, append_eq_nil_iff,
    map_eq_nil_iff, filter_eq_nil_iff]
  simp only [Bool.not_eq_true, ite_eq_right_iff, cons_ne_self, imp_false, not_and, or_iff_not_imp_left, ne_eq]

/-- Two lines, of which one matches, and an unfinished line that does not, read byte by byte. -/
theorem grep_lines_two :
    grep [97] (fun _ => 0) [98, 10, 97, 10, 98] = some [[97, 10]] :=
  (grep_lines [97] (fun _ => 0) [[98], [97]] [98] (by decide) (by decide)).2 (by decide)

/-- The last line matches and has no newline: `grep` does not write it. -/
theorem grep_drops_tail :
    grepMatch [97] [97] = true ∧ grep [97] (fun _ => 0) [97] = some [] := by
  decide

end Xv6.Grep
