import Decompiler.Proofs.Dump.Joined

/-!
Headers and the names of segments. Each header of a dump gives its name to a segment, and before them all
comes the segment of the module if its text is not blank. There is one exception. A blank segment at the
front is passed over by its name, so headers of `main` are lost there as long as nothing but blanks follows
them.
-/

namespace Decompiler

open Text

namespace Segment

def preamble (dump : List Char) : List Char :=
  ((pieces dump).takeWhile fun line => (header? line).isNone).flatten

/-- The names that a dump asks for: that of the module for a text before the first header, and one for
each header. -/
def askedNames (dump : List Char) : List String :=
  (if Blanks (preamble dump) then [] else [mainName]) ++ (pieces dump).filterMap header?

/-- The number of headers of `main` that rows begin with, each followed by another header or by
nothing. -/
def emptyMains : List (List Char) → Nat
  | [] => 0
  | row :: rest =>
      if header? row = some mainName ∧ ∀ next ∈ rest.head?, (header? next).isSome then
        emptyMains rest + 1
      else 0

variable {row : List Char} {rest : List (List Char)}

/-! ### What is gathered -/

theorem fst_gather (pieces : List (List Char)) :
    (gather pieces).1 = pieces.takeWhile fun line => (header? line).isNone := by
  induction pieces with
  | nil => rfl
  | cons piece pieces ih =>
      cases h : header? piece with
      | some name =>
          rw [gather_cons_of_header h, List.takeWhile_cons_of_neg (by simp [h])]
      | none => rw [gather_cons_of_none h, List.takeWhile_cons_of_pos (by simp [h]), ih]

theorem map_fst_gather (pieces : List (List Char)) :
    (gather pieces).2.map Prod.fst = pieces.filterMap header? := by
  induction pieces with
  | nil => rfl
  | cons piece pieces ih =>
      cases h : header? piece with
      | some name =>
          rw [gather_cons_of_header h, List.filterMap_cons_some h, List.map_cons, ih]
      | none => rw [gather_cons_of_none h, List.filterMap_cons_none h, ih]

/-- No row stands before the first header if the first row is one, or if there is no row. -/
theorem fst_gather_eq_nil_iff :
    (gather rest).1 = [] ↔ ∀ row ∈ rest.head?, (header? row).isSome := by
  rw [fst_gather]
  cases rest with
  | nil => simp
  | cons row rest => simp [List.takeWhile_cons, Option.isSome_iff_ne_none]

theorem blanks_preamble_iff (dump : List Char) :
    Blanks (preamble dump) ↔ (gather (rows dump)).1 = [] := by
  rw [← rows_eq_nil_iff, preamble, ← fst_gather, (gather_pieces dump).1]

/-- The headers among the rows of a dump are those among its lines. -/
theorem filterMap_header?_rows (dump : List Char) :
    (pieces dump).filterMap header? = (rows dump).filterMap header? := by
  rw [← map_fst_gather, ← map_fst_gather, ← (gather_pieces dump).2, List.map_map]
  rfl

/-! ### What is passed over -/

theorem emptyMains_of_pos (h : header? row = some mainName)
    (hempty : (gather rest).1 = []) : emptyMains (row :: rest) = emptyMains rest + 1 := by
  rw [emptyMains, if_pos ⟨h, fst_gather_eq_nil_iff.mp hempty⟩]

theorem emptyMains_of_neg (h : ¬ (header? row = some mainName ∧ (gather rest).1 = [])) :
    emptyMains (row :: rest) = 0 := by
  rw [emptyMains, if_neg]
  rwa [← fst_gather_eq_nil_iff]

/-- Where no row stands before the first header, empty headers of `main` are passed over. -/
theorem dropWhile_snd_gather (hfirst : (gather rest).1 = []) :
    (gather rest).2.dropWhile isBlankFront = (gather rest).2.drop (emptyMains rest) := by
  induction rest with
  | nil => rfl
  | cons row rest ih =>
      cases hrow : header? row with
      | none =>
          rw [gather_cons_of_none hrow] at hfirst
          cases hfirst
      | some name =>
          rw [gather_cons_of_header hrow]
          by_cases hmain : name = mainName ∧ (gather rest).1 = []
          · have hfront : isBlankFront (name, (gather rest).1) = true := by
              simpa [isBlankFront] using hmain
            obtain ⟨rfl, hempty⟩ := hmain
            rw [List.dropWhile_cons_of_pos hfront, emptyMains_of_pos hrow hempty,
              List.drop_succ_cons, ih hempty]
          · have hkept : ¬ isBlankFront (name, (gather rest).1) = true := by
              simpa [isBlankFront] using hmain
            rw [List.dropWhile_cons_of_neg hkept, emptyMains_of_neg (by simpa [hrow] using hmain),
              List.drop_zero]

/-- Behind a row that is no header nothing is passed over. -/
theorem emptyMains_eq_zero (hfirst : (gather rest).1 ≠ []) : emptyMains rest = 0 := by
  cases rest with
  | nil => rfl
  | cons row rest =>
      refine emptyMains_of_neg fun ⟨hrow, _⟩ => hfirst ?_
      rw [gather_cons_of_header hrow]

theorem ne_nil_of_emptyMains_pos (h : 0 < emptyMains rest) : rest.filterMap header? ≠ [] := by
  cases rest with
  | nil => cases h
  | cons row rest =>
      rw [emptyMains] at h
      split at h
      · next hmain => simp [List.filterMap_cons_some hmain.1]
      · cases h

theorem map_name_split_eq (dump : List Char) :
    (split dump).map Segment.name = (askedNames dump).drop (emptyMains (rows dump)) := by
  have hname : (split dump).map Segment.name = ((split dump).map summary).map Prod.fst := by
    rw [List.map_map]
    rfl
  have hsummaries : (split dump).map summary = summaries (rows dump) := map_summary_split dump
  rw [hname, hsummaries, summaries, askedNames, filterMap_header?_rows, ← map_fst_gather]
  by_cases hfirst : (gather (rows dump)).1 = []
  · have hmain : isBlankFront (mainName, (gather (rows dump)).1) = true := by
      rw [hfirst]
      rfl
    rw [List.dropWhile_cons_of_pos hmain, dropWhile_snd_gather hfirst,
      if_pos ((blanks_preamble_iff dump).mpr hfirst), List.nil_append, List.map_drop]
  · have hmain : ¬ isBlankFront (mainName, (gather (rows dump)).1) = true := by
      simpa [isBlankFront] using hfirst
    rw [List.dropWhile_cons_of_neg hmain, if_neg (mt (blanks_preamble_iff dump).mp hfirst),
      emptyMains_eq_zero hfirst, List.drop_zero]
    rfl

/-- The segments of a dump have the names that the dump asks for, but for the empty headers of `main` at
its front. These are the only ones that are ever lost. -/
theorem map_name_split (dump : List Char) :
    (split dump).map Segment.name = (askedNames dump).drop (emptyMains (rows dump)) ∧
      ((split dump).map Segment.name = askedNames dump ↔ emptyMains (rows dump) = 0) := by
  refine ⟨map_name_split_eq dump, fun h => ?_, fun h => ?_⟩
  · rw [map_name_split_eq] at h
    by_contra hlost
    have hasked : askedNames dump ≠ [] := by
      have hheaders := ne_nil_of_emptyMains_pos (Nat.pos_of_ne_zero hlost)
      rw [askedNames, filterMap_header?_rows]
      exact List.append_ne_nil_of_right_ne_nil _ hheaders
    have hlength := congrArg List.length h
    have hpos := List.length_pos_iff.mpr hasked
    rw [List.length_drop] at hlength
    omega
  · rw [map_name_split_eq, h, List.drop_zero]

/-- A text before the first header, an empty `main` that is not at the front, and a header at the end. -/
theorem map_name_split_later :
    let dump := "x\nDisassembly of main:\n\nDisassembly of f:".toList
    emptyMains (rows dump) = 0 ∧ (split dump).map Segment.name = ["main", "main", "f"] := by
  intro dump
  have hnone : emptyMains (rows dump) = 0 := by decide
  have hnames := (map_name_split dump).2.mpr hnone
  exact ⟨hnone, hnames.trans (by decide)⟩

/-- A function `main` without instructions, before another function. Its header is lost. -/
theorem exists_lost_header :
    ∃ dump : List Char, askedNames dump = ["main", "f"] ∧
      (split dump).map Segment.name = ["f"] :=
  ⟨"Disassembly of main:\nDisassembly of f:\n0 LOAD_NAME 0 (x)\n".toList, by decide⟩

end Segment

end Decompiler
