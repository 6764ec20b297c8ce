import Mathlib.Logic.Relation
import Decompiler.Dump
import Decompiler.Proofs.Listing.Reading
import Decompiler.Proofs.Walk.Operands

/-!
Meaningful rows. What is made of a dump depends on its rows that are no comments, and on nothing else:
headers are told by their rows, a segment is read from its rows, and the rows of a segment are those
between two headers.
-/

namespace Decompiler

open Text

/-! ### Segments -/

namespace Segment

/-- What a segment is read from. -/
def summary (segment : Segment) : String × List (List Char) :=
  (segment.name, rows segment.body.toList)

theorem chars_congr {segment other : Segment} (h : segment.summary = other.summary)
    (options : Options) : segment.chars options = other.chars options := by
  obtain ⟨hname, hrows⟩ := Prod.mk.inj h
  have hparse : Listing.parse segment.body.toList = Listing.parse other.body.toList := by
    rw [Listing.parse_eq_fold_rows, hrows, Listing.parse_eq_fold_rows]
  simp only [chars, flags, hname, hparse]

theorem header?_trim (line : List Char) : header? (trim line) = header? line := by
  rw [header?, trim_trim, header?]

/-- A header is no blank line. -/
theorem trim_ne_nil_of_header? {line : List Char} {name : String} (h : header? line = some name) :
    trim line ≠ [] := by
  intro hnil
  rw [header?, hnil] at h
  cases h

theorem gather_cons_of_header {piece : List Char} {name : String} (h : header? piece = some name)
    (more : List (List Char)) :
    gather (piece :: more) = ([], (name, (gather more).1) :: (gather more).2) := by
  rw [gather, h]

theorem gather_cons_of_none {piece : List Char} (h : header? piece = none)
    (more : List (List Char)) :
    gather (piece :: more) = (piece :: (gather more).1, (gather more).2) := by
  rw [gather, h]

theorem gather_rowsOf_of_header {line : List Char} {name : String} (h : header? line = some name)
    (more : List (List Char)) :
    gather (rowsOf [line] ++ more) = ([], (name, (gather more).1) :: (gather more).2) := by
  have hrow : rowsOf [line] = [trim line] := by simp [rowsOf, trim_ne_nil_of_header? h]
  rw [hrow, List.singleton_append]
  exact gather_cons_of_header ((header?_trim line).trans h) more

theorem gather_rowsOf_of_none {line : List Char} (h : header? line = none)
    (more : List (List Char)) :
    gather (rowsOf [line] ++ more) = (rowsOf [line] ++ (gather more).1, (gather more).2) := by
  by_cases hnil : trim line = []
  · have hrow : rowsOf [line] = [] := by simp [rowsOf, hnil]
    rw [hrow, List.nil_append, List.nil_append]
  · have hrow : rowsOf [line] = [trim line] := by simp [rowsOf, hnil]
    rw [hrow, List.singleton_append, List.singleton_append]
    exact gather_cons_of_none ((header?_trim line).trans h) more

/-- Gathering pieces and then taking their rows is gathering rows. -/
theorem gather_pieces (text : List Char) :
    rows (gather (pieces text)).1.flatten = (gather (rows text)).1 ∧
      (gather (pieces text)).2.map (fun later => (later.1, rows later.2.flatten)) =
        (gather (rows text)).2 := by
  induction text using line_induction with
  | last line hline =>
      by_cases hnil : line = []
      · subst hnil
        exact ⟨rfl, rfl⟩
      · rw [pieces_of_not_mem hline hnil, rows_of_not_mem hline, ← List.append_nil (rowsOf [line])]
        cases h : header? line with
        | some name =>
            rw [gather_cons_of_header h, gather_rowsOf_of_header h]
            exact ⟨rfl, rfl⟩
        | none =>
            rw [gather_cons_of_none h, gather_rowsOf_of_none h]
            refine ⟨?_, rfl⟩
            simp [gather, rows_of_not_mem hline]
  | cons line rest hline ih =>
      obtain ⟨hbody, hlater⟩ := ih
      have hblanks : Blanks ['\n'] := by simp [Blanks, isBlank, blankRanges]
      have hclosed : header? (line ++ ['\n']) = header? line := by
        rw [← header?_trim, trim_append_blanks line hblanks, header?_trim]
      rw [pieces_append_newline hline, rows_append_newline, rows_of_not_mem hline]
      cases h : header? line with
      | some name =>
          rw [gather_cons_of_header (hclosed.trans h), gather_rowsOf_of_header h, List.map_cons,
            hbody, hlater]
          exact ⟨rfl, rfl⟩
      | none =>
          rw [gather_cons_of_none (hclosed.trans h), gather_rowsOf_of_none h, ← hbody, hlater]
          refine ⟨?_, rfl⟩
          simp only [List.flatten_cons, List.append_assoc, List.singleton_append,
            rows_append_newline, rows_of_not_mem hline]

/-- Whether a segment is passed over at the front is told by what it is read from. -/
theorem isBlankMain_eq (segment : Segment) :
    segment.isBlankMain = decide (segment.summary.1 = mainName ∧ segment.summary.2 = []) := by
  rw [isBlankMain, summary, Bool.decide_and]
  congr 1
  rw [Bool.eq_iff_iff, List.all_eq_true, decide_eq_true_eq, rows_eq_nil_iff, Blanks]

theorem map_summary_split (dump : List Char) :
    (split dump).map summary =
      ((mainName, (gather (rows dump)).1) :: (gather (rows dump)).2).dropWhile
        fun found => decide (found.1 = mainName ∧ found.2 = []) := by
  obtain ⟨hbody, hlater⟩ := gather_pieces dump
  have hblank : isBlankMain =
      (fun found => decide (found.1 = mainName ∧ found.2 = [])) ∘ summary :=
    funext isBlankMain_eq
  rw [split, hblank]
  dsimp only
  rw [← List.dropWhile_map, List.map_map, List.map_cons, ← hbody, ← hlater]
  simp [summary, Function.comp_def]

end Segment

/-! ### Comments -/

namespace Dump

/-- The rows of a dump that are no comments. -/
def meaningful (dump : List Char) : List (List Char) :=
  (rows dump).filter fun row => row.head? ≠ some '#'

theorem isComment_eq (line : List Char) :
    isComment line = decide ((trim line).head? = some '#') := by
  rw [isComment, head?_trim]

theorem filter_rowsOf (test : List Char → Bool) (lines : List (List Char)) :
    (rowsOf lines).filter test = rowsOf (lines.filter (test ∘ trim)) := by
  rw [rowsOf, rowsOf, List.filter_filter, List.filter_map, List.filter_map, List.filter_filter]
  congr 2
  funext line
  exact Bool.and_comm _ _

/-- Dropping comments and trimming keeps the meaningful rows. -/
theorem rows_stripComments (dump : List Char) : rows (stripComments dump) = meaningful dump := by
  have hkept : ∀ line ∈ (lines dump).filter (fun line => !isComment line), '\n' ∉ line :=
    fun line hline => not_mem_of_mem_lines (List.mem_filter.mp hline).1
  rw [stripComments, rows_trim, rows_intercalate, flatMap_rows hkept, meaningful, rows,
    filter_rowsOf]
  congr 2
  funext line
  simp [isComment_eq]

/-- Segments that are read from the same rows have the same texts, or the same error. -/
theorem mapM_chars_congr {segments others : List Segment}
    (h : segments.map Segment.summary = others.map Segment.summary) (options : Options) :
    segments.mapM (Segment.chars · options) = others.mapM (Segment.chars · options) := by
  induction segments generalizing others with
  | nil =>
      cases others with
      | nil => rfl
      | cons other others => cases h
  | cons segment segments ih =>
      cases others with
      | nil => cases h
      | cons other others =>
          obtain ⟨hfirst, hrest⟩ := List.cons.inj h
          rw [List.mapM_cons, List.mapM_cons, Segment.chars_congr hfirst, ih hrest]

theorem decompile_congr {dump other : String}
    (h : meaningful dump.toList = meaningful other.toList) (options : Options) :
    decompile dump options = decompile other options := by
  have hsegments : (Segment.split (stripComments dump.toList)).map Segment.summary =
      (Segment.split (stripComments other.toList)).map Segment.summary := by
    rw [Segment.map_summary_split, Segment.map_summary_split, rows_stripComments,
      rows_stripComments, h]
  rw [decompile, decompile, mapM_chars_congr hsegments]

/-! ### Changes that do not matter -/

/-- Blanks next to a line feed or at either end of a dump, and lines of comment. As a carriage return
and a line feed are blanks too, these make up all line endings and blank lines. -/
inductive Change : List Char → List Char → Prop
  | blankBefore {c : Char} (h : isBlank c = true) (before after : List Char) :
      Change (before ++ '\n' :: after) (before ++ c :: '\n' :: after)
  | blankBehind {c : Char} (h : isBlank c = true) (before after : List Char) :
      Change (before ++ '\n' :: after) (before ++ '\n' :: c :: after)
  | blankFirst {c : Char} (h : isBlank c = true) (text : List Char) : Change text (c :: text)
  | blankLast {c : Char} (h : isBlank c = true) (text : List Char) : Change text (text ++ [c])
  | comment {note : List Char} (h : '\n' ∉ note) (before after : List Char) :
      Change (before ++ '\n' :: after) (before ++ '\n' :: ('#' :: note ++ '\n' :: after))
  | commentFirst {note : List Char} (h : '\n' ∉ note) (text : List Char) :
      Change text ('#' :: note ++ '\n' :: text)
  | commentLast {note : List Char} (h : '\n' ∉ note) (text : List Char) :
      Change text (text ++ '\n' :: '#' :: note)

theorem meaningful_append_newline (before after : List Char) :
    meaningful (before ++ '\n' :: after) = meaningful before ++ meaningful after := by
  rw [meaningful, rows_append_newline, List.filter_append, meaningful, meaningful]

theorem meaningful_cons_blank {c : Char} (h : isBlank c = true) (text : List Char) :
    meaningful (c :: text) = meaningful text := by
  rw [meaningful, rows_cons_blank h, meaningful]

theorem meaningful_append_blank {c : Char} (h : isBlank c = true) (text : List Char) :
    meaningful (text ++ [c]) = meaningful text := by
  rw [meaningful, rows_append_blank text h, meaningful]

theorem meaningful_comment {note : List Char} (h : '\n' ∉ note) :
    meaningful ('#' :: note) = [] := by
  have hline : '\n' ∉ '#' :: note := List.not_mem_cons_of_ne_of_not_mem (by decide) h
  have hhead : (trim ('#' :: note)).head? = some '#' := by
    rw [head?_trim, trimStart, List.dropWhile_cons_of_neg (by decide), List.head?_cons]
  rw [meaningful, rows_of_not_mem hline, filter_rowsOf]
  simp [hhead, rowsOf]

theorem Change.meaningful_eq {dump other : List Char} (h : Change dump other) :
    meaningful dump = meaningful other := by
  cases h with
  | @blankBefore c hblank before after =>
      rw [List.append_cons before c, meaningful_append_newline, meaningful_append_newline,
        meaningful_append_blank hblank]
  | blankBehind hblank before after =>
      rw [meaningful_append_newline, meaningful_append_newline, meaningful_cons_blank hblank]
  | blankFirst hblank => exact (meaningful_cons_blank hblank dump).symm
  | blankLast hblank => exact (meaningful_append_blank hblank dump).symm
  | comment hnote before after =>
      rw [meaningful_append_newline, meaningful_append_newline, meaningful_append_newline,
        meaningful_comment hnote, List.nil_append]
  | commentFirst hnote =>
      rw [meaningful_append_newline, meaningful_comment hnote, List.nil_append]
  | commentLast hnote =>
      rw [meaningful_append_newline, meaningful_comment hnote, List.append_nil]

theorem meaningful_eq_of_eqvGen {dump other : List Char} (h : Relation.EqvGen Change dump other) :
    meaningful dump = meaningful other := by
  induction h with
  | rel dump other hchange => exact hchange.meaningful_eq
  | refl dump => rfl
  | symm dump other _ ih => exact ih.symm
  | trans first middle last _ _ ih ih' => exact ih.trans ih'

/-- Two dumps with the same meaningful rows are decompiled to the same text or with the same error, in
either mode. So a dump may be laid out in any way: any number of changes of its line endings, blank
lines, indentation and comments makes no difference. -/
theorem decompile_meaningful (options : Options) :
    (∀ dump other : String, meaningful dump.toList = meaningful other.toList →
      decompile dump options = decompile other options) ∧
    ∀ dump other : String, Relation.EqvGen Change dump.toList other.toList →
      decompile dump options = decompile other options :=
  ⟨fun _ _ h => decompile_congr h options,
    fun _ _ h => decompile_congr (meaningful_eq_of_eqvGen h) options⟩

/-- Two code objects in two layouts, the second one with comments, carriage returns and blank lines, and
with its header indented; and a carriage return before a line feed. -/
theorem decompile_meaningful_layouts :
    let plain := "1 0 LOAD_NAME 0 (x)\n2 RETURN_VALUE\nDisassembly of f:\n1 0 LOAD_FAST 0 (y)"
    let styled := "# dump\r\n\t1 0 LOAD_NAME 0 (x) \r\r\n\n  # end\n2 RETURN_VALUE\r\n" ++
      "  Disassembly of f:\r\n\u3000\n1 0 LOAD_FAST 0 (y)\n\n"
    let feeds := "0 LOAD_NAME 0 (x)\n2 RETURN_VALUE"
    let returns := "0 LOAD_NAME 0 (x)\r\n2 RETURN_VALUE"
    (meaningful plain.toList = meaningful styled.toList ∧
        decompile plain {} = decompile styled {}) ∧
      Relation.EqvGen Change feeds.toList returns.toList ∧
        decompile feeds {} = decompile returns {} := by
  intro plain styled feeds returns
  have hrows : meaningful plain.toList = meaningful styled.toList := by decide
  have hblank : isBlank '\r' = true := by decide
  have hfeeds : feeds.toList = "0 LOAD_NAME 0 (x)".toList ++ '\n' :: "2 RETURN_VALUE".toList := by
    decide
  have hreturns : returns.toList =
      "0 LOAD_NAME 0 (x)".toList ++ '\r' :: '\n' :: "2 RETURN_VALUE".toList := by
    decide
  have hchange : Change feeds.toList returns.toList :=
    hfeeds ▸ hreturns ▸ .blankBefore hblank _ _
  have hchanges : Relation.EqvGen Change feeds.toList returns.toList := .rel _ _ hchange
  exact ⟨⟨hrows, (decompile_meaningful {}).1 plain styled hrows⟩, hchanges,
    (decompile_meaningful {}).2 feeds returns hchanges⟩

/-- A line feed after a carriage return, and a comment. -/
example : Dump.decompile "0 LOAD_NAME 0 (x)\r\n# end" {} = .ok "def main(x):\n\tx\n" := by
  decide

end Dump

end Decompiler
