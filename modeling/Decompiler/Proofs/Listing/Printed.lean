import Mathlib.Data.Nat.Bitwise
import Decompiler.Proofs.Listing.Row

/-!
Printed listings. Code is printed one unit a row: the line number where a source line starts, marks,
the offset, the mnemonic, the argument and in parentheses what the argument stands for. An argument is
printed together with the bytes that an `EXTENDED_ARG` right before lends it. However the fields are
spaced and whatever blank rows stand between, the listing is read back.
-/

namespace Decompiler

open Text

/-- A mnemonic is made of capital letters and underscores and starts with a letter. -/
structure Mnemonic where
  text : String
  shape : ∃ first rest, text.toList = first :: rest ∧ first.isUpper = true ∧
    (rest.all fun c => c.isUpper || c = '_') = true

/-- What an argument stands for, on one line. -/
structure Meaning where
  text : String
  ne_empty : text ≠ ""
  one_line : '\n' ∉ text.toList

def Meaning.parenthesized (meaning : Meaning) : List Char := '(' :: meaning.text.toList ++ [')']

/-- A unit of code, with a line number if a source line starts there. Its argument is a byte. -/
structure CodeUnit where
  lineNum : Option Nat := none
  offset : Nat
  opname : Mnemonic
  operand : Option (Fin 256 × Option Meaning) := none

namespace CodeUnit

def isExtended (unit : CodeUnit) : Bool := unit.opname.text = "EXTENDED_ARG"

def byte? (unit : CodeUnit) : Option Nat := unit.operand.map fun operand => operand.1.val

def meaning? (unit : CodeUnit) : Option Meaning := unit.operand.bind Prod.snd

/-- The argument that is printed with a unit, given the units before it, the latest one first. -/
def printedArg (unit : CodeUnit) : List CodeUnit → Option Nat
  | [] => unit.byte?
  | last :: earlier =>
      let high := if last.isExtended then (last.printedArg earlier).getD 0 else 0
      unit.byte?.map (· ||| 256 * high)

/-- The high bytes that wait for the next unit. -/
def lent : List CodeUnit → Option Nat
  | [] => none
  | last :: earlier => if last.isExtended then last.printedArg earlier else none

theorem printedArg_eq (unit : CodeUnit) (earlier : List CodeUnit) :
    unit.printedArg earlier = unit.byte?.map (· ||| 256 * (lent earlier).getD 0) := by
  cases earlier with
  | nil => simp [printedArg, lent]
  | cons last earlier =>
      rw [printedArg, lent]
      split <;> rfl

end CodeUnit

/-- A unit with those before it, the latest one first. -/
structure PlacedUnit where
  unit : CodeUnit
  earlier : List CodeUnit

def placedAfter : List CodeUnit → List CodeUnit → List PlacedUnit
  | _, [] => []
  | earlier, unit :: units => ⟨unit, earlier⟩ :: placedAfter (unit :: earlier) units

namespace PlacedUnit

def printedArg (placed : PlacedUnit) : Option Nat := placed.unit.printedArg placed.earlier

def latestLine (placed : PlacedUnit) : Option Nat :=
  (placed.unit :: placed.earlier).findSome? CodeUnit.lineNum

/-- The numbers that are printed with a unit fit into words. -/
structure Fits (placed : PlacedUnit) : Prop where
  lineNum : ∀ n ∈ placed.unit.lineNum, n < Instruction.wordBound
  offset : placed.unit.offset < Instruction.offsetBound
  arg : ∀ n ∈ placed.printedArg, n < Instruction.wordBound

def record (placed : PlacedUnit) : Instruction where
  lineNum := placed.latestLine
  offset := placed.unit.offset
  opname := placed.unit.opname.text
  arg := placed.printedArg
  argval := placed.unit.meaning?.map Meaning.text

/-- What stands before the offset: the line number, a mark for the current instruction and one for the
target of a jump. -/
def leading (placed : PlacedUnit) (current target : Bool) : List (List Char) :=
  (placed.unit.lineNum.map digits).toList ++ (if current then ["-->".toList] else []) ++
    (if target then [">>".toList] else [])

def fields (placed : PlacedUnit) (current target : Bool) : List (List Char) :=
  placed.leading current target ++ [digits placed.unit.offset, placed.unit.opname.text.toList] ++
    (placed.printedArg.map digits).toList ++
    (placed.unit.meaning?.map Meaning.parenthesized).toList

end PlacedUnit

/-- Rows that print units in order, among rows of blanks. -/
inductive Printed : List PlacedUnit → List (List Char) → Prop
  | done : Printed [] []
  | blank {row : List Char} {units : List PlacedUnit} {rows : List (List Char)} (h : Blanks row)
      (hrow : '\n' ∉ row) (rest : Printed units rows) : Printed units (row :: rows)
  | unit {placed : PlacedUnit} {units : List PlacedUnit} (lead : List Char) {line : List Char}
      {rows : List (List Char)} (current target : Bool) (hlead : Blanks lead)
      (hline : Listing.Spaced (placed.fields current target) line) (hrow : '\n' ∉ lead ++ line)
      (rest : Printed units rows) : Printed (placed :: units) ((lead ++ line) :: rows)

theorem Mnemonic.isMnemonic (name : Mnemonic) : Listing.isMnemonic name.text.toList = true := by
  obtain ⟨first, rest, htext, hfirst, hrest⟩ := name.shape
  rw [htext, Listing.isMnemonic, hfirst, hrest, Bool.true_and]

theorem Meaning.toList_ne_nil (meaning : Meaning) : meaning.text.toList ≠ [] :=
  fun h => meaning.ne_empty (String.toList_eq_nil_iff.mp h)

/-! ### One row -/

namespace PlacedUnit

variable {placed : PlacedUnit} {current target : Bool} {lead line : List Char}

/-- What a row says of its unit. The line number may stand in a row before it. -/
def row (placed : PlacedUnit) : Instruction := { placed.record with lineNum := placed.unit.lineNum }

theorem of_mem_leading {field : List Char} (h : field ∈ placed.leading current target) :
    Listing.Solid field ∧ Listing.isMnemonic field = false := by
  have hcurrent : Listing.Solid "-->".toList ∧ Listing.isMnemonic "-->".toList = false := by decide
  have htarget : Listing.Solid ">>".toList ∧ Listing.isMnemonic ">>".toList = false := by decide
  simp only [leading, List.mem_append, Option.mem_toList, Option.map_eq_some_iff] at h
  rcases h with (⟨n, -, rfl⟩ | h) | h
  · have hnumeral := isNumeral_digits n
    exact ⟨Listing.solid_of_isNumeral hnumeral, Listing.isMnemonic_of_isNumeral hnumeral⟩
  · cases current with
    | true => exact List.mem_singleton.mp h ▸ hcurrent
    | false => cases h
  · cases target with
    | true => exact List.mem_singleton.mp h ▸ htarget
    | false => cases h

theorem lineNum_leading (hfits : placed.Fits) :
    (placed.leading current target).head?.bind (numeral? Instruction.wordBound) =
      placed.unit.lineNum := by
  have hfit := hfits.lineNum
  cases hline : placed.unit.lineNum with
  | some n =>
      rw [hline] at hfit
      rw [leading, hline]
      exact numeral?_digits (hfit n rfl)
  | none =>
      rw [leading, hline]
      cases current with
      | true => rfl
      | false =>
          cases target with
          | true => rfl
          | false => rfl

def printed (placed : PlacedUnit) (current target : Bool) : Listing.Row where
  leading := placed.leading current target
  offset := digits placed.unit.offset
  opname := placed.unit.opname.text.toList
  arg := placed.printedArg.map digits
  meaning := placed.unit.meaning?.map fun meaning => meaning.text.toList

theorem fields_printed : (placed.printed current target).fields = placed.fields current target := by
  have hmeaning : Listing.parenthesized ∘ (fun meaning : Meaning => meaning.text.toList) =
      Meaning.parenthesized := rfl
  simp [Listing.Row.fields, Listing.Row.words, printed, fields, hmeaning]

/-- What is printed between parentheses stands behind an argument. -/
theorem isSome_printedArg (h : placed.unit.meaning?.isSome) : placed.printedArg.isSome := by
  rw [printedArg, CodeUnit.printedArg_eq, Option.isSome_map, CodeUnit.byte?, Option.isSome_map]
  rw [CodeUnit.meaning?] at h
  exact Option.isSome_of_isSome_bind h

theorem wellFormed_printed (placed : PlacedUnit) (current target : Bool) :
    (placed.printed current target).WellFormed where
  leading _ hfield := of_mem_leading hfield
  offset := isNumeral_digits placed.unit.offset
  opname := placed.unit.opname.isMnemonic
  arg _ harg := Listing.isNumeral_of_mem_map harg
  meaning := by
    rintro _ htext
    obtain ⟨meaning, hmeaning, rfl⟩ := Option.map_eq_some_iff.mp htext
    refine ⟨?_, meaning.toList_ne_nil⟩
    rw [printed, Option.isSome_map]
    exact isSome_printedArg (Option.isSome_of_mem hmeaning)

theorem record?_printed (hfits : placed.Fits) :
    (placed.printed current target).record? = some placed.row := by
  simp only [Listing.Row.record?, printed, numeral?_digits hfits.offset, Option.map_some,
    lineNum_leading hfits, Listing.bind_numeral?_digits hfits.arg, Option.map_map,
    Function.comp_def, String.ofList_toList, row, record]

theorem readLine?_row (hfits : placed.Fits) (hlead : Blanks lead)
    (hline : Listing.Spaced (placed.fields current target) line) :
    Listing.readLine? (lead ++ line) = some placed.row := by
  rw [← fields_printed] at hline
  rw [(placed.wellFormed_printed current target).readLine?_eq hlead hline, record?_printed hfits]

end PlacedUnit

/-! ### All rows -/

variable {units : List PlacedUnit} {rows : List (List Char)}

/-- A row without marks, with one blank between two fields. -/
def PlacedUnit.plainRow (placed : PlacedUnit) : List Char :=
  [' '].intercalate (placed.fields false false)

theorem printed_plainRow (h : ∀ placed ∈ units, '\n' ∉ placed.plainRow) :
    Printed units (units.map PlacedUnit.plainRow) := by
  induction units with
  | nil => exact .done
  | cons placed units ih =>
      obtain ⟨hplaced, hunits⟩ := List.forall_mem_cons.mp h
      have hne : placed.fields false false ≠ [] := by simp [PlacedUnit.fields]
      exact .unit [] false false (List.forall_mem_nil _) (Listing.spaced_intercalate hne) hplaced
        (ih hunits)

theorem Printed.not_mem (h : Printed units rows) : ∀ row ∈ rows, '\n' ∉ row := by
  induction h with
  | done => exact List.forall_mem_nil _
  | blank _ hrow _ ih => exact List.forall_mem_cons.mpr ⟨hrow, ih⟩
  | unit _ _ _ _ _ hrow _ ih => exact List.forall_mem_cons.mpr ⟨hrow, ih⟩

theorem Printed.filterMap_readLine? (h : Printed units rows)
    (hfits : ∀ placed ∈ units, placed.Fits) :
    rows.filterMap Listing.readLine? = units.map PlacedUnit.row := by
  induction h with
  | done => rfl
  | blank hblank _ _ ih =>
      rw [List.filterMap_cons_none (Listing.readLine?_of_blanks hblank), ih hfits]
  | unit _ _ _ hlead hline _ _ ih =>
      obtain ⟨hfit, hfits⟩ := List.forall_mem_cons.mp hfits
      rw [List.filterMap_cons_some (PlacedUnit.readLine?_row hfit hlead hline), ih hfits,
        List.map_cons]

theorem Printed.parse_eq_fold (h : Printed units rows) (hfits : ∀ placed ∈ units, placed.Fits) :
    Listing.parse (['\n'].intercalate rows) =
      Listing.fold none none (units.map PlacedUnit.row) := by
  rw [Listing.parse_intercalate h.not_mem, h.filterMap_readLine? hfits]

namespace Listing

/-- What is printed has the high bytes in it already, so that they are added once more to no avail. -/
theorem widen_printedArg {placed : PlacedUnit} (hfits : placed.Fits) :
    widen (CodeUnit.lent placed.earlier) placed.printedArg = placed.printedArg := by
  have harg := hfits.arg
  rw [PlacedUnit.printedArg, CodeUnit.printedArg_eq] at harg ⊢
  cases hhigh : CodeUnit.lent placed.earlier with
  | none => rfl
  | some high =>
      cases hbyte : placed.unit.byte? with
      | none => rfl
      | some byte =>
          rw [hhigh, hbyte] at harg
          have hbound : high * 2 ^ 8 < Instruction.wordBound :=
            Nat.lt_of_le_of_lt (Nat.mul_comm high _ ▸ Nat.right_le_or) (harg _ rfl)
          rw [Option.map_some, widen, Option.getD_some, Nat.shiftLeft_eq, Nat.mod_eq_of_lt hbound,
            Nat.mul_comm high]
          exact congrArg some ((Nat.or_assoc ..).trans (congrArg (byte ||| ·) (Nat.or_self _)))

/-- Between two rows the fold knows the latest line number and what an `EXTENDED_ARG` lends. -/
theorem fold_placedAfter (earlier units : List CodeUnit)
    (hfits : ∀ placed ∈ placedAfter earlier units, placed.Fits) :
    fold (earlier.findSome? CodeUnit.lineNum) (CodeUnit.lent earlier)
        ((placedAfter earlier units).map PlacedUnit.row) =
      ((placedAfter earlier units).filter fun placed => !placed.unit.isExtended).map
        PlacedUnit.record := by
  induction units generalizing earlier with
  | nil => rfl
  | cons unit units ih =>
      obtain ⟨hfit, hfits⟩ := List.forall_mem_cons.mp hfits
      have hline : unit.lineNum.or (earlier.findSome? CodeUnit.lineNum) =
          (unit :: earlier).findSome? CodeUnit.lineNum := by
        rw [List.findSome?_cons]
        cases unit.lineNum with
        | none => rfl
        | some n => rfl
      have ih := ih (unit :: earlier) hfits
      have hwiden := widen_printedArg hfit
      rw [placedAfter, List.map_cons, fold]
      cases hextended : unit.isExtended with
      | true =>
          have hname : unit.opname.text = extendedArg := of_decide_eq_true hextended
          rw [CodeUnit.lent, if_pos hextended, ← hline] at ih
          rw [List.filter_cons_of_neg (by simp [hextended]), ← ih]
          exact if_pos hname
      | false =>
          have hname : unit.opname.text ≠ extendedArg := of_decide_eq_false hextended
          rw [CodeUnit.lent, if_neg (by simp [hextended]), ← hline] at ih
          rw [List.filter_cons_of_pos (by simp [hextended]), List.map_cons, ← ih]
          refine (if_neg hname).trans (congrArg (· :: _) ?_)
          simp only [PlacedUnit.row, PlacedUnit.record, PlacedUnit.latestLine, hline, hwiden]

/-- Whatever is printed is read back: one record for each unit that is no prefix, in order, with all of
its argument, what this stands for and the latest line number. -/
theorem parse_printed (units : List CodeUnit) (rows : List (List Char))
    (hprinted : Printed (placedAfter [] units) rows)
    (hfits : ∀ placed ∈ placedAfter [] units, placed.Fits) :
    parse (['\n'].intercalate rows) =
      ((placedAfter [] units).filter fun placed => !placed.unit.isExtended).map
        PlacedUnit.record := by
  rw [hprinted.parse_eq_fold hfits]
  exact fold_placedAfter [] units hfits

/-- A constant with two prefixes, of which the first one starts a line, and a jump target. -/
def wideLoad : List CodeUnit :=
  let extendedArg : Mnemonic := ⟨"EXTENDED_ARG", 'E', "XTENDED_ARG".toList, by decide⟩
  let loadConst : Mnemonic := ⟨"LOAD_CONST", 'L', "OAD_CONST".toList, by decide⟩
  let returnValue : Mnemonic := ⟨"RETURN_VALUE", 'R', "ETURN_VALUE".toList, by decide⟩
  [{ lineNum := some 3, offset := 0, opname := extendedArg, operand := some (1, none) },
    { offset := 2, opname := extendedArg, operand := some (2, none) },
    { offset := 4, opname := loadConst,
      operand := some (5, some ⟨" ) f(x) (", by decide, by decide⟩) },
    { offset := 6, opname := returnValue }]

def wideLoadRows : List (List Char) :=
  ["  3     0 EXTENDED_ARG 1".toList,
    " --> 2 EXTENDED_ARG 258 ".toList,
    "\t".toList,
    "\t4 LOAD_CONST 66053 ( ) f(x) ()\r".toList,
    ">> 6 RETURN_VALUE".toList,
    []]

theorem parse_wideLoadRows :
    Printed (placedAfter [] wideLoad) wideLoadRows ∧
      (∀ placed ∈ placedAfter [] wideLoad, placed.Fits) ∧
      parse (['\n'].intercalate wideLoadRows) =
        [{ lineNum := some 3, offset := 4, opname := "LOAD_CONST", arg := some 66053,
            argval := some " ) f(x) (" },
          { lineNum := some 3, offset := 6, opname := "RETURN_VALUE" }] := by
  have hblank : Blanks " ".toList := by decide
  have hne : " ".toList ≠ [] := by decide
  have hrows : ∀ row ∈ wideLoadRows, '\n' ∉ row := by decide
  have hprinted : Printed (placedAfter [] wideLoad) wideLoadRows := by
    simp only [wideLoadRows, List.forall_mem_cons] at hrows
    obtain ⟨h₀, h₁, h₂, h₃, h₄, h₅, -⟩ := hrows
    refine .unit "  ".toList false false (hblank.append hblank)
      (.cons "3".toList "     ".toList (by decide) (by decide)
        (.cons "0".toList " ".toList hblank hne
          (.cons "EXTENDED_ARG".toList " ".toList hblank hne
            (.last "1".toList [] (by decide))))) h₀ ?_
    refine .unit " ".toList true false hblank
      (.cons "-->".toList " ".toList hblank hne
        (.cons "2".toList " ".toList hblank hne
          (.cons "EXTENDED_ARG".toList " ".toList hblank hne
            (.last "258".toList " ".toList hblank)))) h₁ ?_
    refine .blank (by decide) h₂ ?_
    refine .unit "\t".toList false false (by decide)
      (.cons "4".toList " ".toList hblank hne
        (.cons "LOAD_CONST".toList " ".toList hblank hne
          (.cons "66053".toList " ".toList hblank hne
            (.last "( ) f(x) ()".toList "\r".toList (by decide))))) h₃ ?_
    refine .unit [] false true (by decide)
      (.cons ">>".toList " ".toList hblank hne
        (.cons "6".toList " ".toList hblank hne
          (.last "RETURN_VALUE".toList [] (by decide)))) h₄ ?_
    exact .blank (by decide) h₅ .done
  have hfits : ∀ placed ∈ placedAfter [] wideLoad, placed.Fits := by
    simp only [wideLoad, placedAfter, List.forall_mem_cons]
    exact ⟨⟨by decide, by decide, by decide⟩, ⟨by decide, by decide, by decide⟩,
      ⟨by decide, by decide, by decide⟩, ⟨by decide, by decide, by decide⟩, List.forall_mem_nil _⟩
  exact ⟨hprinted, hfits, parse_printed wideLoad wideLoadRows hprinted hfits⟩

end Listing

end Decompiler
