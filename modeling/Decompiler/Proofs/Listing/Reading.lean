import Decompiler.Instruction.Listing
import Decompiler.Proofs.Text.Rows

/-!
Reading a line of a listing. The blanks around a line do not matter to what is read from it, so a
listing is read from its rows alone.
-/

namespace Decompiler.Listing

open Text

variable {lead tail : List Char} {c : Char}

/-! ### Words -/

/-- A blank at the end of a line is at the end of the text from each of its words on. -/
theorem wordStarts_append_blank (h : isBlank c = true) (line : List Char) (afterBlank : Bool) :
    wordStarts afterBlank (line ++ [c]) = (wordStarts afterBlank line).map (· ++ [c]) := by
  induction line generalizing afterBlank with
  | nil => simp [wordStarts, h]
  | cons d line ih =>
      rw [List.cons_append, wordStarts, wordStarts]
      split
      · exact ih true
      · split
        · rw [ih false, List.map_cons, List.cons_append]
        · exact ih false

theorem word_append_blank (h : isBlank c = true) (text : List Char) :
    word (text ++ [c]) = word text := by
  induction text with
  | nil => simp [word, h]
  | cons d text ih =>
      simp only [word] at ih
      simp only [word, List.cons_append, List.takeWhile_cons, ih]

theorem afterWord_append_blank (h : isBlank c = true) (text : List Char) :
    afterWord (text ++ [c]) = afterWord text ++ [c] := by
  induction text with
  | nil => simp [afterWord, h]
  | cons d text ih =>
      simp only [afterWord] at ih
      simp only [afterWord, List.cons_append, List.dropWhile_cons, ih]
      split
      · rfl
      · rfl

theorem meaning?_append_blank (h : isBlank c = true) (text : List Char) :
    meaning? (text ++ [c]) = meaning? text := by
  rw [meaning?, trim_append_blanks text (List.forall_mem_singleton.mpr h), meaning?]

/-! ### Columns -/

def Columns.map (f : List Char → List Char) (columns : Columns) : Columns :=
  ⟨columns.leading.map f, f columns.offset, f columns.opname, columns.operands.map f⟩

theorem columns?_map {f : List Char → List Char} (hword : ∀ text, word (f text) = word text)
    (starts : List (List Char)) :
    columns? (starts.map f) = (columns? starts).map (Columns.map f) := by
  induction starts with
  | nil => rfl
  | cons offset starts ih =>
      cases starts with
      | nil => rfl
      | cons opname operands =>
          rw [List.map_cons, List.map_cons, columns?, columns?, hword, hword]
          split
          · rfl
          · rw [← List.map_cons, ih, Option.map_map, Option.map_map]
            rfl

/-! ### Lines -/

theorem readLine?_cons_blank (h : isBlank c = true) (line : List Char) :
    readLine? (c :: line) = readLine? line := by
  rw [readLine?, wordStarts, if_pos h, readLine?]

theorem readLine?_append_blank (h : isBlank c = true) (line : List Char) :
    readLine? (line ++ [c]) = readLine? line := by
  have hword : ∀ text : List Char, word (text ++ [c]) = word text := word_append_blank h
  rw [readLine?, readLine?, wordStarts_append_blank h, columns?_map hword]
  cases columns? (wordStarts true line) with
  | none => rfl
  | some columns =>
      obtain ⟨leading, offset, opname, operands⟩ := columns
      rw [Option.map_some, Option.bind_some, Option.bind_some]
      simp only [Columns.map, hword, List.head?_map, Option.bind_map, Function.comp_def]
      cases operands with
      | nil => rfl
      | cons operand operands =>
          simp only [List.map_cons, hword, afterWord_append_blank h, meaning?_append_blank h]

theorem readLine?_append_blanks (line : List Char) (h : Blanks tail) :
    readLine? (line ++ tail) = readLine? line := by
  induction tail generalizing line with
  | nil => rw [List.append_nil]
  | cons c tail ih =>
      obtain ⟨hc, htail⟩ := List.forall_mem_cons.mp h
      rw [List.append_cons, ih _ htail, readLine?_append_blank hc]

theorem readLine?_blanks_append (h : Blanks lead) (line : List Char) :
    readLine? (lead ++ line) = readLine? line := by
  induction lead with
  | nil => rfl
  | cons c lead ih =>
      obtain ⟨hc, hlead⟩ := List.forall_mem_cons.mp h
      rw [List.cons_append, readLine?_cons_blank hc, ih hlead]

theorem readLine?_of_blanks (h : Blanks lead) : readLine? lead = none := by
  have hempty := readLine?_blanks_append h []
  rwa [List.append_nil] at hempty

theorem readLine?_trim (line : List Char) : readLine? (trim line) = readLine? line := by
  obtain ⟨lead, tail, hlead, htail, heq⟩ := exists_trim line
  conv_rhs => rw [heq, readLine?_append_blanks _ htail, readLine?_blanks_append hlead]

theorem filterMap_readLine?_rowsOf (lines : List (List Char)) :
    (rowsOf lines).filterMap readLine? = lines.filterMap readLine? := by
  induction lines with
  | nil => rfl
  | cons line lines ih =>
      rw [← List.singleton_append, rowsOf_append, List.filterMap_append, List.filterMap_append, ih]
      congr 1
      cases hrow : trim line with
      | nil => simp [rowsOf, hrow, readLine?_of_blanks (trim_eq_nil_iff.mp hrow)]
      | cons c row =>
          have htrim := readLine?_trim line
          rw [hrow] at htrim
          simp [rowsOf, hrow, List.filterMap_cons, htrim]

/-- A listing is read from its rows. -/
theorem parse_eq_fold_rows (text : List Char) :
    parse text = fold none none ((Text.rows text).filterMap readLine?) := by
  rw [parse, Text.rows, filterMap_readLine?_rowsOf]

/-- A listing that is put together from lines is read line by line. -/
theorem parse_intercalate {lines : List (List Char)} (h : ∀ line ∈ lines, '\n' ∉ line) :
    parse (['\n'].intercalate lines) = fold none none (lines.filterMap readLine?) := by
  rw [parse_eq_fold_rows, rows_intercalate, flatMap_rows h, filterMap_readLine?_rowsOf]

end Decompiler.Listing
