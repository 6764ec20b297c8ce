import Mathlib.Data.List.TakeWhile
import Decompiler.Proofs.Text.Reading
import Decompiler.Text.Basic

/-!
Rows. The rows of a text are its lines without the blanks around them, and lines of blanks only do not
count. A line feed parts the rows before it from those behind it, wherever it stands and however the
line before it ends, so rows are all that is told here of line endings.
-/

namespace Decompiler.Text

/-! ### Blanks at the ends -/

def Blanks (text : List Char) : Prop := ∀ c ∈ text, isBlank c = true

instance (text : List Char) : Decidable (Blanks text) :=
  decidable_of_iff (text.all isBlank = true) List.all_eq_true

variable {text lead tail : List Char} {c : Char}

theorem Blanks.append (h : Blanks lead) (h' : Blanks tail) : Blanks (lead ++ tail) :=
  List.forall_mem_append.mpr ⟨h, h'⟩

theorem dropEndWhile_append {test : Char → Bool} (h : ∀ c ∈ tail, test c = true) :
    dropEndWhile test (text ++ tail) = dropEndWhile test text := by
  rw [dropEndWhile, List.reverse_append,
    List.dropWhile_append_of_pos fun c hc => h c (List.mem_reverse.mp hc), dropEndWhile]

/-- What is dropped at the end passes the test. -/
theorem exists_dropEndWhile (test : Char → Bool) (text : List Char) :
    ∃ tail, (∀ c ∈ tail, test c = true) ∧ text = dropEndWhile test text ++ tail := by
  refine ⟨(text.reverse.takeWhile test).reverse, fun c hc => ?_, ?_⟩
  · exact List.mem_takeWhile_imp (List.mem_reverse.mp hc)
  · rw [dropEndWhile, ← List.reverse_append, List.takeWhile_append_dropWhile, List.reverse_reverse]

theorem trim_blanks_append (h : Blanks lead) (text : List Char) :
    trim (lead ++ text) = trim text := by
  rw [trim, trimStart, List.dropWhile_append_of_pos h]
  rfl

theorem trim_of_blanks (h : Blanks text) : trim text = [] := by
  have hempty := trim_blanks_append h []
  rwa [List.append_nil] at hempty

theorem trim_append_blanks (text : List Char) (h : Blanks tail) :
    trim (text ++ tail) = trim text := by
  rw [trim, trimStart, List.dropWhile_append]
  split
  · next hall =>
    -- the text itself is blank
    have htail : tail.dropWhile isBlank = [] := List.dropWhile_eq_nil_iff.mpr h
    rw [htail, trim, trimStart, List.isEmpty_iff.mp hall]
  · exact dropEndWhile_append h

/-- A text is its trimming between blanks. -/
theorem exists_trim (text : List Char) :
    ∃ lead tail, Blanks lead ∧ Blanks tail ∧ text = lead ++ trim text ++ tail := by
  obtain ⟨tail, htail, hend⟩ := exists_dropEndWhile isBlank (trimStart text)
  refine ⟨text.takeWhile isBlank, tail, fun c hc => List.mem_takeWhile_imp hc, htail, ?_⟩
  rw [List.append_assoc]
  have htrim : trim text ++ tail = text.dropWhile isBlank := hend.symm
  rw [htrim, List.takeWhile_append_dropWhile]

theorem mem_of_mem_trim (h : c ∈ trim text) : c ∈ text := by
  obtain ⟨lead, tail, -, -, heq⟩ := exists_trim text
  rw [heq]
  simp [h]

theorem trim_trim (text : List Char) : trim (trim text) = trim text := by
  obtain ⟨lead, tail, hlead, htail, heq⟩ := exists_trim text
  conv_rhs => rw [heq, trim_append_blanks _ htail, trim_blanks_append hlead]

theorem trim_eq_nil_iff : trim text = [] ↔ Blanks text := by
  refine ⟨fun h => ?_, trim_of_blanks⟩
  obtain ⟨lead, tail, hlead, htail, heq⟩ := exists_trim text
  rw [h, List.append_nil] at heq
  exact heq ▸ hlead.append htail

/-- Dropping blanks at the end does not change how a trimmed text begins. -/
theorem head?_trim (text : List Char) : (trim text).head? = (trimStart text).head? := by
  obtain ⟨tail, htail, hend⟩ := exists_dropEndWhile isBlank (trimStart text)
  have hend : trimStart text = trim text ++ tail := hend
  cases htrim : trim text with
  | cons c rest => rw [hend, htrim, List.cons_append, List.head?_cons, List.head?_cons]
  | nil =>
      have hstart : trimStart text = [] :=
        List.dropWhile_eq_nil_iff.mpr (trim_eq_nil_iff.mp htrim)
      rw [hstart]

/-! ### Lines -/

/-- Every text is a number of closed lines and a rest without line feeds. -/
theorem line_induction {motive : List Char → Prop} (last : ∀ line, '\n' ∉ line → motive line)
    (cons : ∀ line rest, '\n' ∉ line → motive rest → motive (line ++ '\n' :: rest))
    (text : List Char) : motive text := by
  by_cases hmem : '\n' ∈ text
  · obtain ⟨line, rest, heq, hline⟩ := List.eq_append_cons_of_mem hmem
    have hshorter : rest.length < text.length := by
      rw [heq, List.length_append, List.length_cons]
      omega
    rw [heq]
    exact cons line rest hline (line_induction last cons rest)
  · exact last text hmem
termination_by text.length

theorem pieces_append_newline {line : List Char} (h : '\n' ∉ line) (rest : List Char) :
    pieces (line ++ '\n' :: rest) = (line ++ ['\n']) :: pieces rest := by
  induction line with
  | nil => rfl
  | cons c line ih =>
      obtain ⟨hc, hline⟩ := List.ne_and_not_mem_of_not_mem_cons h
      rw [List.cons_append, pieces, if_neg hc.symm, ih hline]
      rfl

theorem pieces_of_not_mem {line : List Char} (h : '\n' ∉ line) (hline : line ≠ []) :
    pieces line = [line] := by
  induction line with
  | nil => exact absurd rfl hline
  | cons c line ih =>
      obtain ⟨hc, hrest⟩ := List.ne_and_not_mem_of_not_mem_cons h
      rw [pieces, if_neg (Ne.symm hc)]
      cases line with
      | nil => rfl
      | cons d line => rw [ih hrest (List.cons_ne_nil d line)]

theorem trim_chomp (piece : List Char) : trim (chomp piece) = trim piece := by
  have hblanks : Blanks ['\r', '\n'] := by simp [Blanks, isBlank, blankRanges]
  have hblank : Blanks ['\n'] := fun c hc => hblanks c (List.mem_cons_of_mem _ hc)
  unfold chomp
  split
  · next rest hreverse =>
    have hpiece : piece = rest.reverse ++ ['\r', '\n'] := by
      rw [← List.reverse_reverse piece, hreverse]
      simp
    rw [hpiece, trim_append_blanks _ hblanks]
  · next rest _ hreverse =>
    have hpiece : piece = rest.reverse ++ ['\n'] := by
      rw [← List.reverse_reverse piece, hreverse]
      simp
    rw [hpiece, trim_append_blanks _ hblank]
  · rfl

theorem mem_of_mem_chomp {piece : List Char} (h : c ∈ chomp piece) : c ∈ piece := by
  unfold chomp at h
  split at h
  · next rest hreverse =>
    rw [← List.mem_reverse, hreverse]
    simp [List.mem_reverse.mp h]
  · next rest _ hreverse =>
    rw [← List.mem_reverse, hreverse]
    simp [List.mem_reverse.mp h]
  · exact h

theorem mem_of_mem_chomp_newline {line : List Char} (h : c ∈ chomp (line ++ ['\n'])) :
    c ∈ line := by
  unfold chomp at h
  rw [List.reverse_append, List.reverse_singleton, List.singleton_append] at h
  split at h
  · next rest hreverse =>
    rw [← List.mem_reverse, (List.cons.inj hreverse).2]
    simp [List.mem_reverse.mp h]
  · next rest _ hreverse =>
    rw [← List.mem_reverse, (List.cons.inj hreverse).2]
    exact List.mem_reverse.mp h
  · next hnot => exact absurd rfl (hnot line.reverse)

theorem mem_of_mem_lines {line : List Char} (h : line ∈ lines text) (hc : c ∈ line) : c ∈ text := by
  obtain ⟨piece, hpiece, rfl⟩ := List.mem_map.mp h
  rw [← flatten_pieces text]
  exact List.mem_flatten.mpr ⟨piece, hpiece, mem_of_mem_chomp hc⟩

/-- No line has a line feed in it. -/
theorem not_mem_of_mem_lines {line : List Char} (h : line ∈ lines text) : '\n' ∉ line := by
  induction text using line_induction with
  | last part hpart =>
      by_cases hnil : part = []
      · subst hnil
        cases h
      · rw [lines, pieces_of_not_mem hpart hnil, List.map_singleton, List.mem_singleton] at h
        exact fun hmem => hpart (mem_of_mem_chomp (h ▸ hmem))
  | cons part rest hpart ih =>
      rw [lines, pieces_append_newline hpart, List.map_cons] at h
      rcases List.mem_cons.mp h with rfl | h
      · exact fun hmem => hpart (mem_of_mem_chomp_newline hmem)
      · exact ih h

/-! ### Rows -/

/-- What is left of lines that are trimmed. -/
def rowsOf (lines : List (List Char)) : List (List Char) :=
  (lines.map trim).filter fun row => !row.isEmpty

def rows (text : List Char) : List (List Char) := rowsOf (lines text)

theorem rowsOf_append (lines more : List (List Char)) :
    rowsOf (lines ++ more) = rowsOf lines ++ rowsOf more := by
  simp [rowsOf]

theorem rows_eq (text : List Char) : rows text = rowsOf (pieces text) := by
  have htrim : trim ∘ chomp = trim := funext trim_chomp
  rw [rows, lines, rowsOf, List.map_map, htrim, rowsOf]

theorem rows_of_not_mem {line : List Char} (h : '\n' ∉ line) : rows line = rowsOf [line] := by
  by_cases hline : line = []
  · subst hline
    rfl
  · rw [rows_eq, pieces_of_not_mem h hline]

theorem flatMap_rows {lines : List (List Char)} (h : ∀ line ∈ lines, '\n' ∉ line) :
    lines.flatMap rows = rowsOf lines := by
  induction lines with
  | nil => rfl
  | cons line lines ih =>
      obtain ⟨hline, hlines⟩ := List.forall_mem_cons.mp h
      rw [List.flatMap_cons, rows_of_not_mem hline, ih hlines, ← rowsOf_append,
        List.singleton_append]

theorem rows_line_append {line : List Char} (h : '\n' ∉ line) (rest : List Char) :
    rows (line ++ '\n' :: rest) = rows line ++ rows rest := by
  have hblank : Blanks ['\n'] := by simp [Blanks, isBlank, blankRanges]
  have hclosed : rowsOf [line ++ ['\n']] = rowsOf [line] := by
    rw [rowsOf, rowsOf, List.map_singleton, List.map_singleton, trim_append_blanks line hblank]
  rw [rows_eq, pieces_append_newline h, ← List.singleton_append, rowsOf_append, hclosed,
    rows_of_not_mem h, rows_eq]

/-- A line feed parts the rows of a text. -/
theorem rows_append_newline (before after : List Char) :
    rows (before ++ '\n' :: after) = rows before ++ rows after := by
  induction before using line_induction with
  | last line h => exact rows_line_append h after
  | cons line rest h ih =>
      rw [List.append_assoc, List.cons_append, rows_line_append h, ih, rows_line_append h,
        List.append_assoc]

theorem rows_cons_blank (h : isBlank c = true) (text : List Char) : rows (c :: text) = rows text := by
  by_cases hc : c = '\n'
  · rw [hc]
    exact rows_append_newline [] text
  · have hline (line : List Char) (hnot : '\n' ∉ line) : rows (c :: line) = rows line := by
      have hnot' : '\n' ∉ c :: line := List.not_mem_cons_of_ne_of_not_mem (Ne.symm hc) hnot
      rw [rows_of_not_mem hnot', rows_of_not_mem hnot, rowsOf, List.map_singleton,
        trim_cons_of_isBlank h]
      rfl
    induction text using line_induction with
    | last line hnot => exact hline line hnot
    | cons line rest hnot _ =>
        rw [← List.cons_append, rows_append_newline, rows_append_newline, hline line hnot]

theorem rows_append_blank (text : List Char) (h : isBlank c = true) :
    rows (text ++ [c]) = rows text := by
  induction text using line_induction with
  | cons line rest _ ih =>
      rw [List.append_assoc, List.cons_append, rows_append_newline, ih, rows_append_newline]
  | last line hnot =>
      by_cases hc : c = '\n'
      · have hfeed := rows_append_newline line []
        rw [← hc] at hfeed
        rw [hfeed]
        simp [rows, lines, pieces, rowsOf]
      · have hnot' : '\n' ∉ line ++ [c] := by
          rw [List.mem_append, List.mem_singleton, not_or]
          exact ⟨hnot, Ne.symm hc⟩
        have hblanks : Blanks [c] := List.forall_mem_singleton.mpr h
        rw [rows_of_not_mem hnot', rows_of_not_mem hnot, rowsOf, List.map_singleton,
          trim_append_blanks line hblanks]
        rfl

theorem rows_blanks_append (h : Blanks lead) (text : List Char) :
    rows (lead ++ text) = rows text := by
  induction lead with
  | nil => rfl
  | cons c lead ih =>
      obtain ⟨hc, hlead⟩ := List.forall_mem_cons.mp h
      rw [List.cons_append, rows_cons_blank hc, ih hlead]

theorem rows_append_blanks (text : List Char) (h : Blanks tail) :
    rows (text ++ tail) = rows text := by
  induction tail generalizing text with
  | nil => rw [List.append_nil]
  | cons c tail ih =>
      obtain ⟨hc, htail⟩ := List.forall_mem_cons.mp h
      rw [List.append_cons, ih _ htail, rows_append_blank text hc]

theorem rows_trim (text : List Char) : rows (trim text) = rows text := by
  obtain ⟨lead, tail, hlead, htail, heq⟩ := exists_trim text
  conv_rhs => rw [heq, rows_append_blanks _ htail, rows_blanks_append hlead]

theorem rowsOf_eq_nil_iff {lines : List (List Char)} :
    rowsOf lines = [] ↔ ∀ line ∈ lines, Blanks line := by
  simp [rowsOf, List.filter_eq_nil_iff, trim_eq_nil_iff]

theorem rows_eq_nil_iff : rows text = [] ↔ Blanks text := by
  conv_rhs => rw [← flatten_pieces text]
  rw [rows_eq, rowsOf_eq_nil_iff]
  simp only [Blanks, List.forall_mem_flatten]

theorem rows_intercalate (parts : List (List Char)) :
    rows (['\n'].intercalate parts) = parts.flatMap rows := by
  induction parts with
  | nil => rfl
  | cons part parts ih =>
      cases parts with
      | nil => simp [List.intercalate]
      | cons next parts =>
          have hcons : ['\n'].intercalate (part :: next :: parts) =
              part ++ '\n' :: ['\n'].intercalate (next :: parts) := by
            simp [List.intercalate]
          rw [hcons, rows_append_newline, ih, ← List.flatMap_cons]

end Decompiler.Text
