import Decompiler.Proofs.Dump.Meaningful

/-!
Stretches of a dump. A segment is a stretch of the lines of a dump, from behind one header, or from the
start, up to the next header or the end. The stretches stand in the order of the dump and do not meet, so
no line is lost, told twice or put under another name than that of the nearest header above it. Only
blank lines may be left out.
-/

namespace Decompiler

open Text

/-! ### Parts of the lines of a text -/

namespace Text

theorem pieces_flatten_drop (text : List Char) (n : Nat) :
    pieces ((pieces text).drop n).flatten = (pieces text).drop n := by
  induction text using line_induction generalizing n with
  | last line hline =>
      by_cases hnil : line = []
      · subst hnil
        simp [pieces]
      · rw [pieces_of_not_mem hline hnil]
        cases n with
        | zero => simp [pieces_of_not_mem hline hnil]
        | succ n => simp [pieces]
  | cons line rest hline ih =>
      cases n with
      | zero => rw [List.drop_zero, flatten_pieces]
      | succ n => rw [pieces_append_newline hline, List.drop_succ_cons, ih]

theorem pieces_flatten_take (text : List Char) (n : Nat) :
    pieces ((pieces text).take n).flatten = (pieces text).take n := by
  induction text using line_induction generalizing n with
  | last line hline =>
      by_cases hnil : line = []
      · subst hnil
        simp [pieces]
      · rw [pieces_of_not_mem hline hnil]
        cases n with
        | zero => simp [pieces]
        | succ n => simp [pieces_of_not_mem hline hnil]
  | cons line rest hline ih =>
      rw [pieces_append_newline hline]
      cases n with
      | zero => rfl
      | succ n =>
          rw [List.take_succ_cons, List.flatten_cons, List.append_assoc, List.singleton_append,
            pieces_append_newline hline, ih]

end Text

namespace Segment

/-- Lines under a name, from one position on and before another. -/
structure Stretch where
  name : String
  start : Nat
  stop : Nat
  deriving DecidableEq, Repr

namespace Stretch

def lines (all : List (List Char)) (s : Stretch) : List (List Char) :=
  (all.take s.stop).drop s.start

def segment (all : List (List Char)) (s : Stretch) : Segment :=
  ⟨s.name, String.ofList (s.lines all).flatten⟩

/-- A stretch that begins at the start or behind the header that names it, and goes on without
headers to the next one or to the end. -/
structure Between (all : List (List Char)) (s : Stretch) : Prop where
  le : s.start ≤ s.stop
  opened : s.start = 0 ∧ s.name = mainName ∨
    ∃ k header, s.start = k + 1 ∧ all[k]? = some header ∧ header? header = some s.name
  closed : s.stop = all.length ∨ ∃ header, all[s.stop]? = some header ∧ (header? header).isSome
  plain : ∀ line ∈ s.lines all, header? line = none

end Stretch

/-- The name of the nearest header above a position, and that of the module if there is none. -/
def nameAbove (all : List (List Char)) (k : Nat) : String :=
  ((all.take k).reverse.findSome? header?).getD mainName

/-- The stretches of the lines from `here` on, with the one under way since `start`. -/
def stretchesFrom (name : String) (start here : Nat) : List (List Char) → List Stretch
  | [] => [⟨name, start, here⟩]
  | line :: rest =>
      match header? line with
      | some next => ⟨name, start, here⟩ :: stretchesFrom next (here + 1) (here + 1) rest
      | none => stretchesFrom name start (here + 1) rest

def stretches (dump : List Char) : List Stretch :=
  (stretchesFrom mainName 0 0 (pieces dump)).dropWhile fun s =>
    (s.segment (pieces dump)).isBlankMain

variable {all rest : List (List Char)} {line : List Char} {name : String} {start here k : Nat}
  {s : Stretch}

/-! ### Cutting at headers -/

/-- The lines of a dump from a position on. -/
structure Ahead (all : List (List Char)) (here : Nat) (rest : List (List Char)) : Prop where
  le : here ≤ all.length
  drop : all.drop here = rest

namespace Ahead

theorem all_lines (all : List (List Char)) : Ahead all 0 all := ⟨Nat.zero_le _, rfl⟩

theorem head (h : Ahead all here (line :: rest)) : all[here]? = some line := by
  rw [← List.head?_drop, h.drop, List.head?_cons]

theorem tail (h : Ahead all here (line :: rest)) : Ahead all (here + 1) rest := by
  refine ⟨(List.getElem?_eq_some_iff.mp h.head).1, ?_⟩
  rw [← List.drop_drop, h.drop, List.drop_succ_cons, List.drop_zero]

theorem length (h : Ahead all here []) : here = all.length :=
  Nat.le_antisymm h.le (List.drop_eq_nil_iff.mp h.drop)

end Ahead

theorem stretchesFrom_cons_of_header {next : String} (h : header? line = some next) :
    stretchesFrom name start here (line :: rest) =
      ⟨name, start, here⟩ :: stretchesFrom next (here + 1) (here + 1) rest := by
  rw [stretchesFrom, h]

theorem stretchesFrom_cons_of_none (h : header? line = none) :
    stretchesFrom name start here (line :: rest) = stretchesFrom name start (here + 1) rest := by
  rw [stretchesFrom, h]

/-- A stretch that is under way grows by the next line. -/
theorem drop_take_succ (hline : all[here]? = some line) (hstart : start ≤ here) :
    (all.take (here + 1)).drop start = (all.take here).drop start ++ [line] := by
  obtain ⟨hlt, -⟩ := List.getElem?_eq_some_iff.mp hline
  have hlength : start ≤ (all.take here).length := by
    rw [List.length_take]
    omega
  rw [List.take_add_one, hline, Option.toList_some, List.drop_append_of_le_length hlength]

theorem take_append_drop_take (all : List (List Char)) {i j : Nat} (h : i ≤ j) :
    all.take i ++ (all.take j).drop i = all.take j := by
  conv_rhs => rw [← List.take_append_drop i (all.take j), List.take_take, Nat.min_eq_left h]

theorem drop_take_self (all : List (List Char)) (here : Nat) : (all.take here).drop here = [] :=
  List.drop_eq_nil_of_le (List.length_take_le ..)

/-- The stretches have the names and the lines that are gathered. -/
theorem map_stretchesFrom (h : Ahead all here rest) (hstart : start ≤ here) :
    (stretchesFrom name start here rest).map (fun s => (s.name, s.lines all)) =
      (name, (all.take here).drop start ++ (gather rest).1) :: (gather rest).2 := by
  induction rest generalizing name start here with
  | nil => simp [stretchesFrom, Stretch.lines, gather]
  | cons line rest ih =>
      cases hheader : header? line with
      | some next =>
          rw [stretchesFrom_cons_of_header hheader, gather_cons_of_header hheader, List.map_cons,
            ih h.tail (Nat.le_refl _), drop_take_self, List.nil_append, List.append_nil]
          rfl
      | none =>
          rw [stretchesFrom_cons_of_none hheader, gather_cons_of_none hheader,
            ih h.tail (Nat.le_succ_of_le hstart), drop_take_succ h.head hstart, List.append_assoc,
            List.singleton_append]

theorem map_stretches (dump : List Char) :
    (stretches dump).map (Stretch.segment (pieces dump)) = split dump := by
  have hgather : (stretchesFrom mainName 0 0 (pieces dump)).map _ = _ :=
    map_stretchesFrom (Ahead.all_lines (pieces dump)) (Nat.le_refl 0)
  rw [List.take_zero, List.drop_nil, List.nil_append] at hgather
  rw [split]
  dsimp only
  rw [← hgather, List.map_map, List.dropWhile_map, stretches]
  rfl

/-- Every stretch lies between two headers, if the one under way has begun behind one. -/
theorem between_of_mem_stretchesFrom (h : Ahead all here rest) (hstart : start ≤ here)
    (hopened : start = 0 ∧ name = mainName ∨
      ∃ k header, start = k + 1 ∧ all[k]? = some header ∧ header? header = some name)
    (hplain : ∀ line ∈ (all.take here).drop start, header? line = none)
    (hs : s ∈ stretchesFrom name start here rest) : s.Between all := by
  induction rest generalizing name start here with
  | nil =>
      rw [stretchesFrom, List.mem_singleton] at hs
      subst hs
      exact ⟨hstart, hopened, .inl h.length, hplain⟩
  | cons line rest ih =>
      cases hheader : header? line with
      | some next =>
          rw [stretchesFrom_cons_of_header hheader] at hs
          rcases List.mem_cons.mp hs with rfl | hs
          · exact ⟨hstart, hopened, .inr ⟨line, h.head, by simp [hheader]⟩, hplain⟩
          · refine ih h.tail (Nat.le_refl _) (.inr ⟨here, line, rfl, h.head, hheader⟩) ?_ hs
            rw [drop_take_self]
            exact List.forall_mem_nil _
      | none =>
          rw [stretchesFrom_cons_of_none hheader] at hs
          refine ih h.tail (Nat.le_succ_of_le hstart) hopened ?_ hs
          rw [drop_take_succ h.head hstart, List.forall_mem_append, List.forall_mem_singleton]
          exact ⟨hplain, hheader⟩

theorem between_of_mem_stretches {dump : List Char} (hs : s ∈ stretches dump) :
    s.Between (pieces dump) :=
  between_of_mem_stretchesFrom (Ahead.all_lines (pieces dump)) (Nat.le_refl 0) (.inl ⟨rfl, rfl⟩)
    (by simp) (List.dropWhile_subset _ hs)

/-! ### Order -/

theorem start_le_of_mem_stretchesFrom (hstart : start ≤ here)
    (hs : s ∈ stretchesFrom name start here rest) : start ≤ s.start := by
  induction rest generalizing name start here with
  | nil =>
      rw [stretchesFrom, List.mem_singleton] at hs
      exact hs ▸ Nat.le_refl _
  | cons line rest ih =>
      cases h : header? line with
      | some next =>
          rw [stretchesFrom_cons_of_header h] at hs
          rcases List.mem_cons.mp hs with rfl | hs
          · exact Nat.le_refl _
          · have hnext := ih (Nat.le_refl _) hs
            omega
      | none =>
          rw [stretchesFrom_cons_of_none h] at hs
          exact ih (Nat.le_succ_of_le hstart) hs

/-- Between two stretches there is a header at least. -/
theorem pairwise_stretchesFrom (rest : List (List Char)) :
    (stretchesFrom name start here rest).Pairwise fun s t => s.stop < t.start := by
  induction rest generalizing name start here with
  | nil => simp [stretchesFrom]
  | cons line rest ih =>
      cases h : header? line with
      | some next =>
          rw [stretchesFrom_cons_of_header h, List.pairwise_cons]
          exact ⟨fun t ht => start_le_of_mem_stretchesFrom (Nat.le_refl _) ht, ih⟩
      | none =>
          rw [stretchesFrom_cons_of_none h]
          exact ih

theorem pairwise_stretches (dump : List Char) :
    (stretches dump).Pairwise fun s t => s.stop < t.start :=
  (pairwise_stretchesFrom (pieces dump)).sublist (List.dropWhile_sublist _)

/-! ### The stretch of a line -/

/-- A line that is no header lies in a stretch. -/
theorem exists_mem_stretchesFrom (h : Ahead all here rest) (hstart : start ≤ k)
    (hk : k < here ∨ ∃ line, all[k]? = some line ∧ header? line = none) :
    ∃ s ∈ stretchesFrom name start here rest, s.start ≤ k ∧ k < s.stop := by
  induction rest generalizing name start here with
  | nil =>
      refine ⟨⟨name, start, here⟩, List.mem_singleton_self _, hstart, ?_⟩
      rcases hk with hk | ⟨line, hline, -⟩
      · exact hk
      · exact h.length ▸ (List.getElem?_eq_some_iff.mp hline).1
  | cons line rest ih =>
      cases hheader : header? line with
      | some next =>
          rw [stretchesFrom_cons_of_header hheader]
          rcases Nat.lt_trichotomy k here with hlt | rfl | hgt
          · exact ⟨_, List.mem_cons_self .., hstart, hlt⟩
          · -- the header itself lies in no stretch
            rcases hk with hk | ⟨other, hother, hnone⟩
            · exact absurd hk (Nat.lt_irrefl k)
            · rw [h.head, Option.some.injEq] at hother
              rw [hother, hnone] at hheader
              cases hheader
          · obtain ⟨s, hs, hmem⟩ :
                ∃ s ∈ stretchesFrom next (here + 1) (here + 1) rest, s.start ≤ k ∧ k < s.stop :=
              ih h.tail hgt (hk.imp_left fun hlt => absurd hlt (by omega))
            exact ⟨s, List.mem_cons_of_mem _ hs, hmem⟩
      | none =>
          rw [stretchesFrom_cons_of_none hheader]
          exact ih h.tail hstart (hk.imp_left Nat.lt_succ_of_lt)

/-- The line at a position of a stretch is one of its lines. -/
theorem Stretch.mem_lines (hline : all[k]? = some line) (hstart : s.start ≤ k) (hstop : k < s.stop) :
    line ∈ s.lines all := by
  refine List.mem_iff_getElem?.mpr ⟨k - s.start, ?_⟩
  rw [lines, List.getElem?_drop, Nat.add_sub_of_le hstart, List.getElem?_take_of_lt hstop, hline]

/-- A stretch with a line that is not blank makes a segment. -/
theorem exists_mem_stretches {dump : List Char} (hline : (pieces dump)[k]? = some line)
    (hnone : header? line = none) (hblank : ¬ Blanks line) :
    ∃ s ∈ stretches dump, s.start ≤ k ∧ k < s.stop := by
  obtain ⟨s, hs, hstart, hstop⟩ :
      ∃ s ∈ stretchesFrom mainName 0 0 (pieces dump), s.start ≤ k ∧ k < s.stop :=
    exists_mem_stretchesFrom (Ahead.all_lines (pieces dump)) (Nat.zero_le k)
      (.inr ⟨line, hline, hnone⟩)
  refine ⟨s, ?_, hstart, hstop⟩
  have hkept : (s.segment (pieces dump)).isBlankMain = false := by
    refine Bool.eq_false_iff.mpr fun hmain => hblank fun c hc => ?_
    rw [isBlankMain, Bool.and_eq_true, List.all_eq_true] at hmain
    refine hmain.2 c ?_
    rw [Stretch.segment, String.toList_ofList]
    exact List.mem_flatten_of_mem (Stretch.mem_lines hline hstart hstop) hc
  rw [← List.takeWhile_append_dropWhile (p := fun s => (s.segment (pieces dump)).isBlankMain)
    (l := stretchesFrom mainName 0 0 (pieces dump)), List.mem_append] at hs
  rcases hs with hs | hs
  · rw [List.mem_takeWhile_imp hs] at hkept
    cases hkept
  · exact hs

/-- Stretches that do not meet have no position in common. -/
theorem eq_of_pairwise {found : List Stretch} (h : found.Pairwise fun s t => s.stop < t.start)
    {i j : Nat} {s t : Stretch} (hi : found[i]? = some s) (hj : found[j]? = some t)
    (hs : s.start ≤ k ∧ k < s.stop) (ht : t.start ≤ k ∧ k < t.stop) : i = j := by
  obtain ⟨hi', rfl⟩ := List.getElem?_eq_some_iff.mp hi
  obtain ⟨hj', rfl⟩ := List.getElem?_eq_some_iff.mp hj
  rcases Nat.lt_trichotomy i j with hlt | rfl | hgt
  · have := List.pairwise_iff_getElem.mp h i j hi' hj' hlt
    omega
  · rfl
  · have := List.pairwise_iff_getElem.mp h j i hj' hi' hgt
    omega

/-- The lines of a stretch are under the name of the nearest header above them. -/
theorem Stretch.Between.nameAbove_eq (h : s.Between all) (hstart : s.start ≤ k)
    (hstop : k < s.stop) : nameAbove all k = s.name := by
  have hinside : ∀ line ∈ ((all.take k).drop s.start).reverse, header? line = none := by
    intro line hline
    refine h.plain line ?_
    have hpart : (all.take k).drop s.start = (s.lines all).take (k - s.start) := by
      rw [lines, ← List.drop_take, List.take_take, Nat.min_eq_left (Nat.le_of_lt hstop)]
    rw [List.mem_reverse, hpart] at hline
    exact List.mem_of_mem_take hline
  rw [nameAbove, ← take_append_drop_take all hstart, List.reverse_append, List.findSome?_append,
    List.findSome?_eq_none_iff.mpr hinside, Option.none_or]
  rcases h.opened with ⟨hzero, hname⟩ | ⟨j, header, hj, hheader, hname⟩
  · rw [hzero, hname]
    rfl
  · rw [hj, List.take_add_one, hheader]
    simp [hname]

/-- Splitting loses no text. Each segment is a stretch of the dump between two headers, read as the same
lines, and the stretches follow one another in the order of the dump. Every line that is neither a header
nor blank lies in exactly one of them, under the name of the nearest header above it. -/
theorem split_keeps_lines (dump : List Char) :
    (stretches dump).map (Stretch.segment (pieces dump)) = split dump ∧
      (stretches dump).Pairwise (fun s t => s.stop < t.start) ∧
      (∀ s ∈ stretches dump, s.Between (pieces dump) ∧
        dump = ((pieces dump).take s.start).flatten ++ (s.lines (pieces dump)).flatten ++
          ((pieces dump).drop s.stop).flatten ∧
        pieces (s.segment (pieces dump)).body.toList = s.lines (pieces dump) ∧
        ∀ k, s.start ≤ k → k < s.stop → nameAbove (pieces dump) k = s.name) ∧
      ∀ k line, (pieces dump)[k]? = some line → header? line = none → ¬ Blanks line →
        ∃! i : Nat, ∃ s, (stretches dump)[i]? = some s ∧ s.start ≤ k ∧ k < s.stop := by
  refine ⟨map_stretches dump, pairwise_stretches dump, fun s hs => ?_,
    fun k line hline hnone hblank => ?_⟩
  · have hbetween := between_of_mem_stretches hs
    refine ⟨hbetween, ?_, ?_, fun k hstart hstop => hbetween.nameAbove_eq hstart hstop⟩
    · rw [← List.flatten_append, Stretch.lines, take_append_drop_take _ hbetween.le,
        ← List.flatten_append, List.take_append_drop, flatten_pieces]
    · rw [Stretch.segment, String.toList_ofList, Stretch.lines, ← pieces_flatten_take dump s.stop,
        pieces_flatten_drop]
  · obtain ⟨s, hs, hk⟩ := exists_mem_stretches hline hnone hblank
    obtain ⟨i, hi⟩ := List.mem_iff_getElem?.mp hs
    refine ⟨i, ⟨s, hi, hk⟩, ?_⟩
    rintro j ⟨t, hj, hkt⟩
    exact (eq_of_pairwise (pairwise_stretches dump) hi hj hk hkt).symm

/-- A header right behind another one, a blank line, letters outside ASCII, and a header that ends the
dump without a line feed. -/
theorem split_keeps_lines_adjacent :
    let dump := "x\nDisassembly of f:\nDisassembly of g:\n\n λ\nDisassembly of h:".toList
    stretches dump = [⟨"main", 0, 1⟩, ⟨"f", 2, 2⟩, ⟨"g", 3, 5⟩, ⟨"h", 6, 6⟩] ∧
      split dump = [⟨"main", "x\n"⟩, ⟨"f", ""⟩, ⟨"g", "\n λ\n"⟩, ⟨"h", ""⟩] ∧
      nameAbove (pieces dump) 4 = "g" ∧
      ∃! i : Nat, ∃ s, (stretches dump)[i]? = some s ∧ s.start ≤ 4 ∧ 4 < s.stop := by
  intro dump
  have hstretches :
      stretches dump = [⟨"main", 0, 1⟩, ⟨"f", 2, 2⟩, ⟨"g", 3, 5⟩, ⟨"h", 6, 6⟩] := by
    decide
  obtain ⟨hsplit, -, hplaces, hlines⟩ := split_keeps_lines dump
  refine ⟨hstretches, ?_, ?_, ?_⟩
  · rw [← hsplit, hstretches]
    decide
  · obtain ⟨-, -, -, hname⟩ := hplaces ⟨"g", 3, 5⟩ (by rw [hstretches]; decide)
    exact hname 4 (by decide) (by decide)
  · exact hlines 4 " λ\n".toList (by decide) (by decide) (by decide)

end Segment

end Decompiler
