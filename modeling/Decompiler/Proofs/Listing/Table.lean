import Decompiler.Code
import Decompiler.Proofs.Listing.Row

/-!
Tables of records. A record is shown on one line of fixed columns, and such a table is a listing itself:
the records are read back from it, and whatever is read from a listing is such records. So a listing can
be read and shown any number of times.
-/

namespace Decompiler

open Text

/-- A record as a row of a listing gives it: a mnemonic, numbers that fit into words, and what the
argument stands for only if there is one. -/
structure Instruction.WellFormed (ins : Instruction) : Prop where
  opname : Listing.isMnemonic ins.opname.toList = true
  argval : ∀ text ∈ ins.argval, ins.arg.isSome ∧ text ≠ "" ∧ '\n' ∉ text.toList
  lineNum : ∀ n ∈ ins.lineNum, n < Instruction.wordBound
  offset : ins.offset < Instruction.offsetBound
  arg : ∀ n ∈ ins.arg, n < Instruction.wordBound

/-- A record that is no prefix of another. -/
structure Instruction.Listed (ins : Instruction) : Prop extends ins.WellFormed where
  not_extended : ins.opname ≠ Listing.extendedArg

/-- Records of a listing, which have line numbers from the first one on that has. -/
structure Code.Listed (code : Code) : Prop where
  listed : ∀ ins ∈ code, ins.Listed
  numbered : code.Pairwise fun earlier later => earlier.lineNum.isSome → later.lineNum.isSome

def Code.table (code : Code) : List Char :=
  ['\n'].intercalate (code.map fun ins => ins.render.toList)

namespace Listing

/-- No argument in the lines of a text is too large for a word. -/
def ArgumentsFit (text : List Char) : Prop :=
  ∀ line ∈ lines text, ∀ columns ∈ columns? (wordStarts true line),
    ∀ operand ∈ columns.operands.head?, isNumeral (word operand) = true →
      Nat.ofDigitChars 10 (word operand) 0 < Instruction.wordBound

/-! ### A line of a table -/

theorem isNumeral_zeros (zeros n : Nat) :
    isNumeral (List.replicate zeros '0' ++ digits n) = true := by
  obtain ⟨hne, hdigits⟩ := isNumeral_iff.mp (isNumeral_digits n)
  refine isNumeral_iff.mpr ⟨List.append_ne_nil_of_right_ne_nil _ hne,
    List.forall_mem_append.mpr ⟨fun c hc => ?_, hdigits⟩⟩
  rw [List.eq_of_mem_replicate hc]
  decide

/-- Zeros in front of a numeral do not count. -/
theorem numeral?_zeros {bound n : Nat} (h : n < bound) (zeros : Nat) :
    numeral? bound (List.replicate zeros '0' ++ digits n) = some n := by
  have hvalue : Nat.ofDigitChars 10 (List.replicate zeros '0' ++ digits n) 0 = n := by
    induction zeros with
    | zero => exact Nat.ofDigitChars_ten_toDigits
    | succ zeros ih =>
        rw [List.replicate_succ, List.cons_append, Nat.ofDigitChars_cons]
        exact ih
  simp [numeral?, isNumeral_zeros, hvalue, h]

/-- A field, and then others with one blank before each of them. -/
theorem spaced_flatMap (field : List Char) {gap : List Char} (hgap : Blanks gap)
    (fields : List (List Char)) :
    Spaced (field :: fields) (field ++ (gap ++ fields.flatMap (' ' :: ·))) := by
  induction fields generalizing field gap with
  | nil =>
      rw [List.flatMap_nil, List.append_nil]
      exact .last field gap hgap
  | cons next fields ih =>
      have hblank : Blanks [' '] := by decide
      have hline : gap ++ (next :: fields).flatMap (' ' :: ·) =
          (gap ++ [' ']) ++ (next ++ ([] ++ fields.flatMap (' ' :: ·))) := by
        simp
      rw [hline]
      exact .cons field _ (hgap.append hblank) (by simp) (ih next (List.forall_mem_nil _))

end Listing

namespace Instruction

open Listing

variable {ins : Instruction}

def shown (ins : Instruction) : Row where
  leading := (ins.lineNum.map digits).toList
  offset := (digits ins.offset).leftpad 5 '0'
  opname := ins.opname.toList
  arg := ins.arg.map digits
  meaning := ins.argval.map String.toList

theorem WellFormed.wellFormed_shown (h : ins.WellFormed) : ins.shown.WellFormed where
  leading _ hfield := by
    have hnumeral := isNumeral_of_mem_map (Option.mem_toList.mp hfield)
    exact ⟨solid_of_isNumeral hnumeral, isMnemonic_of_isNumeral hnumeral⟩
  offset := isNumeral_zeros _ _
  opname := h.opname
  arg _ harg := isNumeral_of_mem_map harg
  meaning := by
    rintro _ htext
    obtain ⟨text, hargval, rfl⟩ := Option.map_eq_some_iff.mp htext
    obtain ⟨harg, hne, -⟩ := h.argval text hargval
    refine ⟨?_, fun hnil => hne (String.toList_eq_nil_iff.mp hnil)⟩
    rwa [shown, Option.isSome_map]

theorem WellFormed.record?_shown (h : ins.WellFormed) : ins.shown.record? = some ins := by
  have hlineNum : (ins.lineNum.map digits).toList.head?.bind (numeral? wordBound) =
      ins.lineNum := by
    rw [Option.head?_toList, bind_numeral?_digits h.lineNum]
  have hoffset : numeral? offsetBound ((digits ins.offset).leftpad 5 '0') = some ins.offset :=
    numeral?_zeros h.offset _
  simp only [Row.record?, shown, hoffset, Option.map_some, hlineNum, bind_numeral?_digits h.arg,
    Option.map_map, Function.comp_def, String.ofList_toList, Option.map_id']

def operandFields (ins : Instruction) : List (List Char) :=
  ins.shown.arg.toList ++ (ins.shown.meaning.map parenthesized).toList

def columns (ins : Instruction) : List Char :=
  (digits ins.offset).leftpad 5 '0' ++ ([' '] ++ (ins.opname.toList ++
    (List.replicate (20 - ins.opname.toList.length) ' ' ++ ins.operandFields.flatMap (' ' :: ·))))

theorem render_eq (ins : Instruction) :
    ins.render.toList =
      (ins.lineNum.elim (List.replicate 6 ' ') fun n => (digits n).leftpad 5 ' ' ++ [' ']) ++
        ins.columns := by
  obtain ⟨lineNum, offset, opname, arg, argval⟩ := ins
  rw [render, String.toList_ofList, columns, operandFields]
  cases lineNum with
  | none => cases arg <;> cases argval <;> simp [shown, parenthesized, List.rightpad]
  | some n => cases arg <;> cases argval <;> simp [shown, parenthesized, List.rightpad]

theorem blanks_replicate (n : Nat) : Blanks (List.replicate n ' ') := fun c hc => by
  rw [List.eq_of_mem_replicate hc]
  decide

/-- The fields of a record stand in its line with blanks between them. -/
theorem exists_spaced (ins : Instruction) :
    ∃ lead line, Blanks lead ∧ Spaced ins.shown.fields line ∧
      ins.render.toList = lead ++ line := by
  have hblank : Blanks [' '] := blanks_replicate 1
  have hcolumns : Spaced (ins.shown.offset :: ins.opname.toList :: ins.operandFields)
      ins.columns :=
    .cons _ [' '] hblank (by simp) (spaced_flatMap _ (blanks_replicate _) ins.operandFields)
  rw [render_eq]
  cases hline : ins.lineNum with
  | none =>
      refine ⟨List.replicate 6 ' ', ins.columns, blanks_replicate 6, ?_, rfl⟩
      simpa [Row.fields, Row.words, shown, hline, operandFields] using hcolumns
  | some n =>
      refine ⟨List.replicate (5 - (digits n).length) ' ', digits n ++ ([' '] ++ ins.columns),
        blanks_replicate _, ?_, by simp [List.leftpad]⟩
      have hspaced := Spaced.cons (digits n) [' '] hblank (by simp) hcolumns
      simpa [Row.fields, Row.words, shown, hline, operandFields] using hspaced

theorem WellFormed.readLine?_render (h : ins.WellFormed) : readLine? ins.render.toList = some ins := by
  obtain ⟨lead, line, hlead, hspaced, hrender⟩ := ins.exists_spaced
  rw [hrender, h.wellFormed_shown.readLine?_eq hlead hspaced, h.record?_shown]

theorem not_mem_of_solid {field : List Char} (h : Solid field) : '\n' ∉ field := fun hmem => by
  have := h.2 _ hmem
  revert this
  decide

theorem not_mem_leftpad {field : List Char} {pad : Char} (hpad : '\n' ≠ pad) (n : Nat)
    (h : Solid field) : '\n' ∉ field.leftpad n pad := by
  rw [List.leftpad, List.mem_append, not_or]
  exact ⟨fun hmem => hpad (List.eq_of_mem_replicate hmem), not_mem_of_solid h⟩

theorem WellFormed.not_mem_operandFields (h : ins.WellFormed) :
    ∀ field ∈ ins.operandFields, '\n' ∉ field := by
  intro field hfield
  rcases List.mem_append.mp hfield with harg | hmeaning
  · exact not_mem_of_solid
      (solid_of_isNumeral (isNumeral_of_mem_map (Option.mem_toList.mp harg)))
  · simp only [shown, Option.map_map, Option.mem_toList, Option.map_eq_some_iff] at hmeaning
    obtain ⟨text, htext, rfl⟩ := hmeaning
    have htext := (h.argval text htext).2.2
    simpa [parenthesized] using htext

theorem WellFormed.not_mem_render (h : ins.WellFormed) : '\n' ∉ ins.render.toList := by
  have hdigits (n : Nat) : Solid (digits n) := solid_of_isNumeral (isNumeral_digits n)
  have hlineNum : '\n' ∉ ins.lineNum.elim (List.replicate 6 ' ')
      fun n => (digits n).leftpad 5 ' ' ++ [' '] := by
    cases ins.lineNum with
    | none => decide
    | some n =>
        have hpadded : '\n' ∉ (digits n).leftpad 5 ' ' := not_mem_leftpad (by decide) 5 (hdigits n)
        simpa using hpadded
  have hopname := not_mem_of_solid (solid_of_isMnemonic h.opname)
  have hoffset : '\n' ∉ (digits ins.offset).leftpad 5 '0' :=
    not_mem_leftpad (by decide) 5 (hdigits _)
  rw [render_eq, columns]
  simp only [List.mem_append, List.mem_flatMap, not_or, not_exists, not_and]
  refine ⟨hlineNum, hoffset, by decide, hopname, ?_, fun field hfield => ?_⟩
  · exact fun hmem => absurd (List.eq_of_mem_replicate hmem) (by decide)
  · exact List.not_mem_cons_of_ne_of_not_mem (by decide) (h.not_mem_operandFields field hfield)

end Instruction

namespace Listing

variable {code : Code} {text : List Char}

/-! ### From records to a table and back -/

/-- Records that carry their line numbers are gone through without a change. -/
theorem fold_of_listed {lineNum : Option Nat} (hcode : code.Listed)
    (hlineNum : lineNum.isSome → ∀ ins ∈ code, ins.lineNum.isSome) :
    fold lineNum none code = code := by
  induction code generalizing lineNum with
  | nil => rfl
  | cons ins code ih =>
      obtain ⟨hins, hlisted⟩ := List.forall_mem_cons.mp hcode.listed
      obtain ⟨hlater, hnumbered⟩ := List.pairwise_cons.mp hcode.numbered
      have hline : ins.lineNum.or lineNum = ins.lineNum := by
        cases hnum : ins.lineNum with
        | some n => rfl
        | none =>
            cases lineNum with
            | none => rfl
            | some n =>
                have hsome := (List.forall_mem_cons.mp (hlineNum rfl)).1
                rw [hnum] at hsome
                cases hsome
      have ih : fold ins.lineNum none code = code :=
        ih ⟨hlisted, hnumbered⟩ fun hsome other hother => hlater other hother hsome
      rw [fold, if_neg hins.not_extended, hline, ih]
      rfl

theorem parse_table_of_listed (h : code.Listed) : parse code.table = code := by
  have hlines : ∀ line ∈ code.map fun ins => ins.render.toList, '\n' ∉ line := by
    intro line hline
    obtain ⟨ins, hins, rfl⟩ := List.mem_map.mp hline
    exact (h.listed ins hins).not_mem_render
  have hrows : (code.map fun ins => ins.render.toList).filterMap readLine? = code := by
    rw [List.filterMap_map]
    conv_rhs => rw [← List.filterMap_some (l := code)]
    refine List.filterMap_congr fun ins hins => ?_
    rw [Function.comp_apply, (h.listed ins hins).readLine?_render]
  rw [Code.table, parse_intercalate hlines, hrows]
  exact fold_of_listed h fun hsome => by cases hsome

/-! ### From a listing to records -/

/-- A word begins at a place of its text. -/
theorem suffix_of_mem_wordStarts {afterBlank : Bool} {line start : List Char}
    (h : start ∈ wordStarts afterBlank line) : start <:+ line := by
  induction line generalizing afterBlank with
  | nil => cases h
  | cons c line ih =>
      rw [wordStarts] at h
      split at h
      · exact (ih h).trans (List.suffix_cons c line)
      · split at h
        · rcases List.mem_cons.mp h with rfl | h
          · exact List.suffix_rfl
          · exact (ih h).trans (List.suffix_cons c line)
        · exact (ih h).trans (List.suffix_cons c line)

/-- The columns of a line are some of its words, and two of them are what they should be. -/
theorem of_columns? {starts : List (List Char)} {columns : Columns}
    (h : columns? starts = some columns) :
    isMnemonic (word columns.opname) = true ∧ ∀ operand ∈ columns.operands, operand ∈ starts := by
  induction starts generalizing columns with
  | nil => cases h
  | cons offset starts ih =>
      cases starts with
      | nil => cases h
      | cons opname operands =>
          rw [columns?] at h
          split at h
          · next hkinds =>
            cases h
            rw [Bool.and_eq_true] at hkinds
            exact ⟨hkinds.2, fun operand hmem => by simp [hmem]⟩
          · obtain ⟨rest, hrest, rfl⟩ := Option.map_eq_some_iff.mp h
            obtain ⟨hopname, hoperands⟩ := ih hrest
            exact ⟨hopname, fun operand hmem => List.mem_cons_of_mem _ (hoperands operand hmem)⟩

theorem mem_of_beforeLast {mark : Char} {before : List Char}
    (h : beforeLast mark text = some before) : ∀ c ∈ before, c ∈ text := by
  unfold beforeLast at h
  split at h
  · cases h
  · next last rest hdrop =>
    cases h
    intro c hc
    have hmem : c ∈ text.reverse.dropWhile (· != mark) := by
      rw [hdrop]
      exact List.mem_cons_of_mem _ (List.mem_reverse.mp hc)
    exact List.mem_reverse.mp (List.dropWhile_subset _ hmem)

/-- What an argument stands for is not empty, and it is a part of the line. -/
theorem of_meaning? {meaning : String} (h : meaning? text = some meaning) :
    meaning ≠ "" ∧ ∀ c ∈ meaning.toList, c ∈ text := by
  unfold meaning? at h
  split at h
  · next rest htrim =>
    split at h
    · next first inner hbefore =>
      cases h
      refine ⟨by simp, fun c hc => mem_of_mem_trim ?_⟩
      rw [String.toList_ofList] at hc
      exact htrim ▸ List.mem_cons_of_mem _ (mem_of_beforeLast hbefore c hc)
    · cases h
  · cases h

theorem lt_of_numeral? {bound n : Nat} (h : numeral? bound text = some n) : n < bound := by
  unfold numeral? at h
  split at h
  · dsimp only at h
    split at h
    · cases h
      assumption
    · cases h
  · cases h

/-- A numeral that fits is read. -/
theorem isSome_numeral? {bound : Nat} (h : isNumeral text = true)
    (hbound : Nat.ofDigitChars 10 text 0 < bound) : (numeral? bound text).isSome := by
  simp [numeral?, h, hbound]

theorem lt_of_mem_lineNum {leading : List (List Char)} {n : Nat}
    (h : n ∈ leading.head?.bind fun first => numeral? Instruction.wordBound (word first)) :
    n < Instruction.wordBound := by
  obtain ⟨first, -, hfirst⟩ := Option.bind_eq_some_iff.mp h
  exact lt_of_numeral? hfirst

theorem wellFormed_of_readLine? {line : List Char} {row : Instruction}
    (h : readLine? line = some row) (hline : '\n' ∉ line)
    (hfit : ∀ columns ∈ columns? (wordStarts true line), ∀ operand ∈ columns.operands.head?,
      isNumeral (word operand) = true →
        Nat.ofDigitChars 10 (word operand) 0 < Instruction.wordBound) :
    row.WellFormed := by
  obtain ⟨columns, hcolumns, h⟩ := Option.bind_eq_some_iff.mp h
  obtain ⟨offset, hoffset, rfl⟩ := Option.map_eq_some_iff.mp h
  obtain ⟨hopname, hoperands⟩ := of_columns? hcolumns
  have hname : isMnemonic (String.ofList (word columns.opname)).toList = true := by
    rwa [String.toList_ofList]
  have hbare : Instruction.WellFormed
      { lineNum := columns.leading.head?.bind fun first =>
          numeral? Instruction.wordBound (word first)
        offset, opname := String.ofList (word columns.opname) } :=
    { opname := hname
      argval := by simp
      lineNum := fun n hn => lt_of_mem_lineNum hn
      offset := lt_of_numeral? hoffset
      arg := by simp }
  cases hcases : columns.operands with
  | nil => exact hbare
  | cons operand others =>
      dsimp only
      split
      · next hnumeral =>
        have hsuffix : operand <:+ line :=
          suffix_of_mem_wordStarts (hoperands operand (by rw [hcases]; simp))
        refine { hbare with argval := fun meaning hmeaning => ?_, arg := fun n hn => ?_ }
        · obtain ⟨hne, hmem⟩ := of_meaning? hmeaning
          refine ⟨isSome_numeral? hnumeral (hfit columns hcolumns operand (by simp [hcases])
            hnumeral), hne, fun hnewline => hline (hsuffix.subset ?_)⟩
          exact List.dropWhile_subset _ (hmem _ hnewline)
        · exact lt_of_numeral? hn
      · exact hbare

theorem widen_lt {high arg : Option Nat} (h : ∀ n ∈ arg, n < Instruction.wordBound) :
    ∀ n ∈ widen high arg, n < Instruction.wordBound := by
  unfold widen
  split
  · next high low =>
    intro n hn
    cases hn
    have hlow : low < 2 ^ 32 := h low rfl
    have hhigh : (high <<< 8) % Instruction.wordBound < 2 ^ 32 := Nat.mod_lt _ (by decide)
    exact Nat.or_lt_two_pow hlow hhigh
  · exact h

theorem isSome_widen (high arg : Option Nat) : (widen high arg).isSome = arg.isSome := by
  cases high <;> cases arg <;> rfl

/-- Between two rows the fold knows the latest line number, which stays known. -/
theorem listed_fold {rows : List Instruction} (hrows : ∀ row ∈ rows, row.WellFormed)
    {lineNum : Option Nat} (hlineNum : ∀ n ∈ lineNum, n < Instruction.wordBound)
    (high : Option Nat) :
    Code.Listed (fold lineNum high rows) ∧
      (lineNum.isSome → ∀ ins ∈ fold lineNum high rows, ins.lineNum.isSome) := by
  induction rows generalizing lineNum high with
  | nil => exact ⟨⟨List.forall_mem_nil _, .nil⟩, fun _ => List.forall_mem_nil _⟩
  | cons row rows ih =>
      obtain ⟨hrow, hrows⟩ := List.forall_mem_cons.mp hrows
      have hline : ∀ n ∈ row.lineNum.or lineNum, n < Instruction.wordBound := by
        intro n hn
        rcases Option.or_eq_some_iff.mp hn with hn | ⟨-, hn⟩
        · exact hrow.lineNum n hn
        · exact hlineNum n hn
      have hknown : lineNum.isSome → (row.lineNum.or lineNum).isSome := fun hsome => by
        rw [Option.isSome_or, hsome, Bool.or_true]
      rw [fold]
      split
      · obtain ⟨hlisted, hnumbered⟩ := ih hrows hline row.arg
        exact ⟨hlisted, fun hsome => hnumbered (hknown hsome)⟩
      · next hname =>
        obtain ⟨hlisted, hnumbered⟩ := ih hrows hline none
        have hrecord : Instruction.Listed
            { row with lineNum := row.lineNum.or lineNum, arg := widen high row.arg } :=
          { hrow with
            not_extended := hname
            lineNum := hline
            arg := widen_lt hrow.arg
            argval := by simpa only [isSome_widen] using hrow.argval }
        exact ⟨⟨List.forall_mem_cons.mpr ⟨hrecord, hlisted.listed⟩,
            List.pairwise_cons.mpr
              ⟨fun later hlater hsome => hnumbered hsome later hlater, hlisted.numbered⟩⟩,
          fun hsome => List.forall_mem_cons.mpr ⟨hknown hsome, hnumbered (hknown hsome)⟩⟩

theorem listed_parse (h : ArgumentsFit text) : Code.Listed (parse text) := by
  have hrows : ∀ row ∈ (lines text).filterMap readLine?, row.WellFormed := by
    intro row hrow
    obtain ⟨line, hline, hread⟩ := List.mem_filterMap.mp hrow
    exact wellFormed_of_readLine? hread (not_mem_of_mem_lines hline) (h line hline)
  exact (listed_fold hrows (by simp) none).1

/-- Records of a listing are read back from their table, and what is read from a text is such records
if no argument in it is too large. So to show what was read and to read it again changes nothing. -/
theorem parse_table :
    (∀ code : Code, code.Listed → parse code.table = code) ∧
      ∀ text, ArgumentsFit text →
        Code.Listed (parse text) ∧ parse (Code.table (parse text)) = parse text :=
  ⟨fun _ h => parse_table_of_listed h,
    fun _ h => ⟨listed_parse h, parse_table_of_listed (listed_parse h)⟩⟩

instance (text : List Char) : Decidable (ArgumentsFit text) :=
  inferInstanceAs (Decidable (∀ line ∈ lines text, ∀ columns ∈ columns? (wordStarts true line),
    ∀ operand ∈ columns.operands.head?, isNumeral (word operand) = true →
      Nat.ofDigitChars 10 (word operand) 0 < Instruction.wordBound))

/-- Two records, the first one before any line number and the second one with parentheses in what its
argument stands for and a mnemonic wider than its column; and a text with a prefix, a line number that
stands at it, zeros before an argument, and a line that holds no instruction. -/
theorem parse_table_wide :
    let wide : Code :=
      [{ offset := 123456, opname := "RETURN_VALUE" },
        { lineNum := some 7, offset := 0, opname := "FORMAT_VALUE_WITH_SPEC", arg := some 4294967295,
          argval := some " ) f(x) (" }]
    let text := "Disassembly of f:\n  3  >> 0 EXTENDED_ARG 1\n\t2 LOAD_CONST 007 ( (1, 2) )\r\n".toList
    (wide.Listed ∧ parse wide.table = wide) ∧
      ArgumentsFit text ∧
      parse text =
        [{ lineNum := some 3, offset := 2, opname := "LOAD_CONST", arg := some 263,
           argval := some " (1, 2) " }] ∧
      Code.Listed (parse text) ∧ parse (Code.table (parse text)) = parse text := by
  intro wide text
  have hwide : wide.Listed := by
    refine ⟨List.forall_mem_cons.mpr ⟨?_, List.forall_mem_singleton.mpr ?_⟩, by simp [wide]⟩
    · exact
        { opname := by decide
          argval := by simp
          lineNum := by simp
          offset := by decide
          arg := by simp
          not_extended := by decide }
    · exact
        { opname := by decide
          argval := by decide
          lineNum := by decide
          offset := by decide
          arg := by decide
          not_extended := by decide }
  have htext : ArgumentsFit text := by decide
  exact ⟨⟨hwide, parse_table.1 wide hwide⟩, htext, by decide, parse_table.2 text htext⟩

end Listing

end Decompiler
