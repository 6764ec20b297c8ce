import Decompiler.Proofs.Listing.Fields

/-!
Rows that hold an instruction. Their fields are, in order, what stands before the offset, the offset,
the mnemonic, the argument and in parentheses what this stands for. With blanks between the fields, the
reader takes the row apart into the same fields.
-/

namespace Decompiler.Listing

open Text

/-! ### Kinds of fields -/

variable {field rest line : List Char}

theorem toNat_of_isUpper {c : Char} (h : c.isUpper = true) : 0x41 ≤ c.toNat ∧ c.toNat ≤ 0x5A := by
  obtain ⟨hlow, hhigh⟩ := of_decide_eq_true h
  exact ⟨UInt32.le_iff_toNat_le.mp hlow, UInt32.le_iff_toNat_le.mp hhigh⟩

theorem isBlank_of_isUpper {c : Char} (h : c.isUpper = true) : isBlank c = false := by
  obtain ⟨hlow, hhigh⟩ := toNat_of_isUpper h
  exact isBlank_of_visible (Nat.le_trans (by decide) hlow) (Nat.le_trans hhigh (by decide))

theorem isMnemonic_iff :
    isMnemonic field = true ↔ ∃ first rest, field = first :: rest ∧ first.isUpper = true ∧
      ∀ c ∈ rest, c.isUpper = true ∨ c = '_' := by
  cases field with
  | nil => simp [isMnemonic]
  | cons c rest => simp [isMnemonic]

theorem solid_of_isMnemonic (h : isMnemonic field = true) : Solid field := by
  obtain ⟨first, rest, rfl, hfirst, hrest⟩ := isMnemonic_iff.mp h
  refine ⟨List.cons_ne_nil first rest,
    List.forall_mem_cons.mpr ⟨isBlank_of_isUpper hfirst, fun c hc => ?_⟩⟩
  rcases hrest c hc with hupper | rfl
  · exact isBlank_of_isUpper hupper
  · decide

theorem isNumeral_iff :
    isNumeral field = true ↔ field ≠ [] ∧ ∀ c ∈ field, c.isDigit = true := by
  simp [isNumeral]

theorem solid_of_isNumeral (h : isNumeral field = true) : Solid field := by
  obtain ⟨hne, hdigits⟩ := isNumeral_iff.mp h
  exact ⟨hne, fun c hc => isBlank_of_isDigit (hdigits c hc)⟩

theorem isMnemonic_of_isNumeral (h : isNumeral field = true) : isMnemonic field = false := by
  rw [Bool.eq_false_iff]
  intro hmnemonic
  obtain ⟨first, rest, rfl, hfirst, -⟩ := isMnemonic_iff.mp hmnemonic
  have hdigit := (isNumeral_iff.mp h).2 first (List.mem_cons_self ..)
  have hlow := (toNat_of_isUpper hfirst).1
  have hhigh : first.toNat ≤ 0x39 := (Char.isDigit_iff_toNat.mp hdigit).2
  omega

/-- A number is read back from its numeral, and none from none. -/
theorem bind_numeral?_digits {bound : Nat} {number : Option Nat} (h : ∀ n ∈ number, n < bound) :
    (number.map digits).bind (numeral? bound) = number := by
  cases number with
  | none => rfl
  | some n => exact numeral?_digits (h n rfl)

/-- A field that is there only if a number is, as its numeral. -/
theorem isNumeral_of_mem_map {number : Option Nat} (h : field ∈ number.map digits) :
    isNumeral field = true := by
  obtain ⟨n, -, rfl⟩ := Option.map_eq_some_iff.mp h
  exact isNumeral_digits n

def parenthesized (text : List Char) : List Char := '(' :: text ++ [')']

/-- Whatever is between the outer parentheses is read, blanks and parentheses included. -/
theorem meaning?_parenthesized {text : List Char} (h : text ≠ []) :
    meaning? (parenthesized text) = some (String.ofList text) := by
  obtain ⟨c, inner, rfl⟩ := List.exists_cons_of_ne_nil h
  have hself : trim (parenthesized (c :: inner)) = '(' :: (c :: inner ++ [')']) := by
    refine trim_eq_self (fun d hd => ?_) (fun d hd => ?_)
    · cases hd
      decide
    · rw [parenthesized, List.getLast?_append, List.getLast?_singleton, Option.some_or] at hd
      cases hd
      decide
  have hbefore : beforeLast ')' (c :: inner ++ [')']) = some (c :: inner) := by
    simp [beforeLast]
  simp only [meaning?, hself, hbefore]

theorem meaning?_of_follows {meaning : Option (List Char)} (hmeaning : ∀ text ∈ meaning, text ≠ [])
    (h : Follows (meaning.map parenthesized).toList rest) :
    meaning? rest = meaning.map String.ofList := by
  cases meaning with
  | none =>
      rcases h with ⟨-, hblanks⟩ | ⟨gap, line, -, -, hspaced, -⟩
      · rw [meaning?, trim_of_blanks hblanks]
        rfl
      · cases hspaced
  | some text =>
      rcases h with ⟨hnil, -⟩ | ⟨gap, line, hgap, -, hspaced, rfl⟩
      · cases hnil
      · cases hspaced with
        | last _ _ htail =>
          rw [meaning?, trim_blanks_append hgap, trim_append_blanks _ htail]
          exact meaning?_parenthesized (hmeaning text rfl)
        | cons _ _ _ _ hrest => cases hrest

/-! ### Whole rows -/

structure Row where
  leading : List (List Char)
  offset : List Char
  opname : List Char
  arg : Option (List Char)
  meaning : Option (List Char)

namespace Row

/-- The fields are of the kinds that their places ask for. -/
structure WellFormed (row : Row) : Prop where
  leading : ∀ field ∈ row.leading, Solid field ∧ isMnemonic field = false
  offset : isNumeral row.offset = true
  opname : isMnemonic row.opname = true
  arg : ∀ field ∈ row.arg, isNumeral field = true
  meaning : ∀ text ∈ row.meaning, row.arg.isSome ∧ text ≠ []

def words (row : Row) : List (List Char) :=
  row.leading ++ row.offset :: row.opname :: row.arg.toList

def fields (row : Row) : List (List Char) :=
  row.words ++ (row.meaning.map parenthesized).toList

/-- What a row says, if its offset is small enough. -/
def record? (row : Row) : Option Instruction :=
  (numeral? Instruction.offsetBound row.offset).map fun offset =>
    { lineNum := row.leading.head?.bind (numeral? Instruction.wordBound)
      offset
      opname := String.ofList row.opname
      arg := row.arg.bind (numeral? Instruction.wordBound)
      argval := row.meaning.map String.ofList }

variable {row : Row}

theorem WellFormed.solid (h : row.WellFormed) : ∀ field ∈ row.words, Solid field := by
  simp only [words, List.forall_mem_append, List.forall_mem_cons]
  exact ⟨fun field hfield => (h.leading field hfield).1, solid_of_isNumeral h.offset,
    solid_of_isMnemonic h.opname,
    fun field hfield => solid_of_isNumeral (h.arg field (Option.mem_toList.mp hfield))⟩

/-- Without an argument there is nothing that it could stand for. -/
theorem WellFormed.meaning_eq_none (h : row.WellFormed) (harg : row.arg = none) :
    row.meaning = none := by
  refine Option.eq_none_iff_forall_not_mem.mpr fun text htext => ?_
  have hsome := (h.meaning text htext).1
  rw [harg] at hsome
  cases hsome

theorem WellFormed.exists_columns (h : row.WellFormed) (hline : Spaced row.fields line) :
    ∃ columns, columns? (wordStarts true line) = some columns ∧
      columns.leading.map word = row.leading ∧ word columns.offset = row.offset ∧
      word columns.opname = row.opname ∧ (row.arg = none → columns.operands = []) ∧
      ∀ field ∈ row.arg, ∃ operand others, columns.operands = operand :: others ∧
        word operand = field ∧ meaning? (afterWord operand) = row.meaning.map String.ofList := by
  obtain ⟨starts, rest, hstarts, hwords, hafter, hmore⟩ :=
    exists_wordStarts h.solid (by simp [words]) hline
  have hall : (wordStarts true line).map word =
      row.leading ++ row.offset :: row.opname ::
        (row.arg.toList ++ (wordStarts true rest).map word) := by
    rw [hstarts, List.map_append, hwords]
    simp [words]
  obtain ⟨columns, hcolumns, hleading, hoffset, hopname, hoperands⟩ :=
    columns?_of_words hall h.offset h.opname (by
      rw [List.forall_mem_append, List.forall_mem_singleton]
      exact ⟨fun field hfield => (h.leading field hfield).2, isMnemonic_of_isNumeral h.offset⟩)
  have hlength : row.leading.length + 2 ≤ starts.length := by
    have := congrArg List.length hwords
    simp only [words, List.length_map, List.length_append, List.length_cons] at this
    omega
  have hargs : (starts.drop (row.leading.length + 2)).map word = row.arg.toList := by
    rw [List.map_drop, hwords, words, ← List.drop_drop, List.drop_left]
    rfl
  rw [hstarts, List.drop_append_of_le_length hlength] at hoperands
  refine ⟨columns, hcolumns, hleading, hoffset, hopname, fun harg => ?_, fun field harg => ?_⟩
  · rw [h.meaning_eq_none harg] at hmore
    rw [harg] at hargs
    rw [hoperands, List.map_eq_nil_iff.mp hargs, hmore.wordStarts_nil, List.append_nil]
  · rw [Option.mem_def.mp harg] at hargs
    obtain ⟨operand, hdrop, hword⟩ := List.map_eq_singleton_iff.mp hargs
    -- the argument is the last of the words
    have hlonger : ¬ starts.length ≤ row.leading.length + 2 := by
      have := congrArg List.length hdrop
      rw [List.length_drop, List.length_singleton] at this
      omega
    have hlast : starts.getLast? = some operand := by
      have := congrArg List.getLast? hdrop
      rwa [List.getLast?_drop, if_neg hlonger, List.getLast?_singleton] at this
    rw [hlast, Option.map_some, Option.some_inj] at hafter
    rw [hdrop] at hoperands
    refine ⟨operand, _, hoperands, hword, ?_⟩
    rw [hafter]
    exact meaning?_of_follows (fun text htext => (h.meaning text htext).2) hmore

/-- A row is read as what it says, whatever blanks stand around its fields. -/
theorem WellFormed.readLine?_eq (h : row.WellFormed) {lead : List Char} (hlead : Blanks lead)
    (hline : Spaced row.fields line) : readLine? (lead ++ line) = row.record? := by
  obtain ⟨columns, hcolumns, hleading, hoffset, hopname, hbare, harg⟩ := h.exists_columns hline
  have hlineNum : (columns.leading.head?.bind fun first =>
      numeral? Instruction.wordBound (word first)) =
        row.leading.head?.bind (numeral? Instruction.wordBound) := by
    rw [← hleading, List.head?_map, Option.bind_map]
    rfl
  rw [readLine?_blanks_append hlead, readLine?, hcolumns, Option.bind_some, hoffset, hopname,
    record?]
  simp only [hlineNum]
  cases hprinted : row.arg with
  | none =>
      rw [hbare hprinted]
      simp only [h.meaning_eq_none hprinted, Option.bind_none, Option.map_none]
  | some field =>
      obtain ⟨operand, others, hoperands, hword, hmeaning⟩ := harg field hprinted
      rw [hoperands]
      simp only [hword, h.arg field hprinted, if_true, hmeaning, Option.bind_some]

end Row

end Decompiler.Listing
