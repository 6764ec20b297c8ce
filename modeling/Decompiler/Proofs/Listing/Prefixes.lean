import Mathlib.Data.List.Basic
import Mathlib.Data.Nat.Digits.Defs
import Decompiler.Instruction.Listing

/-!
Prefixes. From one row to the next a listing carries the latest line number and what the row before
lends, and a row that is no prefix lends nothing. So where several prefixes with a byte each stand in a
row, the instruction behind them gets the byte of the last one above its own, and those of the others
are lost.
-/

namespace Decompiler.Listing

/-- The lines of a text that hold an instruction, prefixes among them. -/
def rows (text : List Char) : List Instruction := (Text.lines text).filterMap readLine?

/-! ### What is carried from row to row -/

def lends (row : Instruction) : Option Nat := if row.opname = extendedArg then row.arg else none

/-- What the row behind these is lent. -/
def lent (high : Option Nat) (rows : List Instruction) : Option Nat :=
  rows.foldl (fun _ row => lends row) high

def latestLine (lineNum : Option Nat) (rows : List Instruction) : Option Nat :=
  rows.foldl (fun lineNum row => row.lineNum.or lineNum) lineNum

def recordCount (rows : List Instruction) : Nat :=
  rows.countP fun row => row.opname ≠ extendedArg

variable {text : List Char} {before after prefixes : List Instruction} {row : Instruction}

/-- Only the last row counts. -/
theorem lent_eq (high : Option Nat) (rows : List Instruction) :
    lent high rows = (rows.getLast?.map lends).getD high := by
  rcases List.eq_nil_or_concat' rows with rfl | ⟨earlier, last, rfl⟩
  · rfl
  · rw [lent, List.foldl_append, List.getLast?_concat]
    rfl

theorem lent_eq_none (h : ∀ last ∈ before.getLast?, last.opname ≠ extendedArg) :
    lent none before = none := by
  rw [lent_eq]
  cases hlast : before.getLast? with
  | none => rfl
  | some last => exact if_neg (h last hlast)

theorem fold_append (lineNum high : Option Nat) (rows more : List Instruction) :
    fold lineNum high (rows ++ more) =
      fold lineNum high rows ++ fold (latestLine lineNum rows) (lent high rows) more := by
  induction rows generalizing lineNum high with
  | nil => rfl
  | cons row rows ih =>
      rw [List.cons_append, fold, fold, latestLine, lent, List.foldl_cons, List.foldl_cons, lends]
      split
      · exact ih _ _
      · exact congrArg _ (ih _ _)

theorem length_fold (lineNum high : Option Nat) (rows : List Instruction) :
    (fold lineNum high rows).length = recordCount rows := by
  induction rows generalizing lineNum high with
  | nil => rfl
  | cons row rows ih =>
      rw [fold, recordCount, List.countP_cons]
      split
      · next h =>
        rw [ih, if_neg (by simpa using h)]
        rfl
      · next h =>
        rw [List.length_cons, ih, if_pos (by simpa using h)]
        rfl

/-- The record of a row stands behind those of the rows before. -/
theorem getElem?_parse (hrows : rows text = before ++ row :: after)
    (hrow : row.opname ≠ extendedArg) :
    (parse text)[recordCount before]? =
      some { row with
        lineNum := row.lineNum.or (latestLine none before)
        arg := widen (lent none before) row.arg } := by
  have hparse : parse text = fold none none before ++
      fold (latestLine none before) (lent none before) (row :: after) :=
    (congrArg (fold none none) hrows).trans (fold_append ..)
  rw [hparse, ← length_fold none none before, List.getElem?_append_right (Nat.le_refl _),
    Nat.sub_self, fold, if_neg hrow]
  rfl

/-- Every row but a prefix has a record. -/
theorem exists_of_mem_rows (hmem : row ∈ rows text) (hrow : row.opname ≠ extendedArg) :
    ∃ ins ∈ parse text, ins.offset = row.offset := by
  obtain ⟨before, after, hrows⟩ := List.append_of_mem hmem
  exact ⟨_, List.mem_of_getElem? (getElem?_parse hrows hrow), rfl⟩

/-! ### Bytes -/

/-- The number of these bytes, the first one on top and the last one by itself. -/
def wholeArg (bytes : List Nat) (byte : Nat) : Nat := Nat.ofDigits 256 (byte :: bytes.reverse)

theorem ofDigits_eq_zero_iff {base : Nat} (hbase : base ≠ 0) {digits : List Nat} :
    Nat.ofDigits base digits = 0 ↔ ∀ digit ∈ digits, digit = 0 := by
  induction digits with
  | nil => simp
  | cons digit digits ih =>
      rw [Nat.ofDigits_cons, List.forall_mem_cons, ← ih]
      simp [hbase]

/-- The last byte but one alone makes up for all that stands before it if the others are zero. -/
theorem eq_wholeArg_iff (bytes : List Nat) (byte : Nat) :
    byte + 256 * bytes.getLast?.getD 0 = wholeArg bytes byte ↔
      ∀ earlier ∈ bytes.dropLast, earlier = 0 := by
  rcases List.eq_nil_or_concat' bytes with rfl | ⟨earlier, last, rfl⟩
  · simp [wholeArg]
  · have hwhole : wholeArg (earlier ++ [last]) byte =
        byte + 256 * (last + 256 * Nat.ofDigits 256 earlier.reverse) := by
      rw [wholeArg, List.reverse_concat, Nat.ofDigits_cons, Nat.ofDigits_cons]
    have hzero : Nat.ofDigits 256 earlier.reverse = 0 ↔ ∀ b ∈ earlier, b = 0 := by
      simp [ofDigits_eq_zero_iff]
    rw [hwhole, List.getLast?_concat, Option.getD_some, List.dropLast_concat, ← hzero]
    omega

/-- A byte above another one. -/
theorem widen_byte {high low : Nat} (hhigh : high < 256) (hlow : low < 256) :
    widen (some high) (some low) = some (low + 256 * high) := by
  have hbound : high <<< 8 < Instruction.wordBound := by
    rw [Nat.shiftLeft_eq]
    exact Nat.lt_of_lt_of_le (Nat.mul_lt_mul_of_pos_right hhigh (by decide)) (by decide)
  rw [widen, Nat.mod_eq_of_lt hbound, Nat.or_comm, ← Nat.shiftLeft_add_eq_or_of_lt hlow,
    Nat.shiftLeft_eq, Nat.add_comm, Nat.mul_comm]

/-! ### Chains of prefixes -/

/-- An instruction with a byte for its argument stands behind a chain of prefixes with these bytes, which
is as long as can be. -/
structure Chained (text : List Char) (before prefixes : List Instruction) (row : Instruction)
    (bytes : List Nat) (byte : Nat) : Prop where
  listed : ∃ after, rows text = before ++ prefixes ++ row :: after
  start : ∀ last ∈ before.getLast?, last.opname ≠ extendedArg
  extended : ∀ ahead ∈ prefixes, ahead.opname = extendedArg
  not_extended : row.opname ≠ extendedArg
  bytes_eq : prefixes.map Instruction.arg = bytes.map some
  byte_eq : row.arg = some byte
  lt : ∀ b ∈ byte :: bytes, b < 256

namespace Chained

variable {bytes : List Nat} {byte : Nat}

/-- The chain has no records. -/
theorem recordCount_eq (h : Chained text before prefixes row bytes byte) :
    recordCount (before ++ prefixes) = recordCount before := by
  have hzero : recordCount prefixes = 0 :=
    List.countP_eq_zero.mpr fun ahead hahead => by simp [h.extended ahead hahead]
  rw [recordCount, List.countP_append]
  exact congrArg (recordCount before + ·) hzero

theorem widen_eq (h : Chained text before prefixes row bytes byte) :
    widen (lent none (before ++ prefixes)) row.arg =
      some (byte + 256 * bytes.getLast?.getD 0) := by
  have hlent := h.bytes_eq
  have hbytes := h.lt
  rw [h.byte_eq]
  rcases List.eq_nil_or_concat' bytes with rfl | ⟨earlier, last, rfl⟩
  · obtain rfl : prefixes = [] := List.map_eq_nil_iff.mp hlent
    rw [List.append_nil, lent_eq_none h.start]
    rfl
  · have hlast : lent none (before ++ prefixes) = some last := by
      have harg := congrArg List.getLast? hlent
      rw [List.getLast?_map, List.map_append, List.map_singleton, List.getLast?_concat] at harg
      obtain ⟨ahead, hahead, harg⟩ := Option.map_eq_some_iff.mp harg
      have hname := h.extended ahead (List.mem_of_getLast? hahead)
      rw [lent_eq, List.getLast?_append, hahead, Option.some_or, Option.map_some, Option.getD_some,
        lends, if_pos hname, harg]
    rw [hlast, List.getLast?_concat, Option.getD_some]
    exact widen_byte (hbytes last (by simp)) (hbytes byte (by simp))

end Chained

/-- Behind a chain of prefixes the argument of an instruction is its own byte under that of the last
prefix, which is all of the bytes exactly if those of the earlier prefixes are zero. An instruction
with no prefix before it has the argument that is printed. -/
theorem parse_chained (text : List Char) :
    (∀ (before prefixes : List Instruction) (row : Instruction) (bytes : List Nat) (byte : Nat),
      Chained text before prefixes row bytes byte →
        (parse text)[recordCount before]? =
            some { row with
              lineNum := row.lineNum.or (latestLine none (before ++ prefixes))
              arg := some (byte + 256 * bytes.getLast?.getD 0) } ∧
          (((parse text)[recordCount before]?.bind Instruction.arg) = some (wholeArg bytes byte) ↔
            ∀ earlier ∈ bytes.dropLast, earlier = 0)) ∧
      ∀ (before after : List Instruction) (row : Instruction),
        rows text = before ++ row :: after → row.opname ≠ extendedArg →
          (∀ last ∈ before.getLast?, last.opname ≠ extendedArg) →
            (parse text)[recordCount before]? =
              some { row with lineNum := row.lineNum.or (latestLine none before) } := by
  refine ⟨fun before prefixes row bytes byte h => ?_, fun before after row hrows hrow hlast => ?_⟩
  · obtain ⟨after, hrows⟩ := h.listed
    have hrecord := getElem?_parse hrows h.not_extended
    rw [h.recordCount_eq, h.widen_eq] at hrecord
    refine ⟨hrecord, ?_⟩
    rw [hrecord, Option.bind_some, Option.some_inj]
    exact eq_wholeArg_iff bytes byte
  · have hrecord := getElem?_parse hrows hrow
    rwa [lent_eq_none hlast] at hrecord

/-- A constant with two prefixes, between which stands a line that holds no instruction. -/
def chainedLoad : List Char :=
  ("  3  0 NOP\n 2 EXTENDED_ARG 1\n\nException table:\n  4  4 EXTENDED_ARG 2\n" ++
    "  >> 6 LOAD_CONST 3 (c)\n 8 RETURN_VALUE\n").toList

def chainedLoadRows : List Instruction :=
  [{ lineNum := some 3, offset := 0, opname := "NOP" },
    { offset := 2, opname := "EXTENDED_ARG", arg := some 1 },
    { lineNum := some 4, offset := 4, opname := "EXTENDED_ARG", arg := some 2 },
    { offset := 6, opname := "LOAD_CONST", arg := some 3, argval := some "c" },
    { offset := 8, opname := "RETURN_VALUE" }]

theorem rows_chainedLoad : rows chainedLoad = chainedLoadRows := by decide +kernel

theorem chained_chainedLoad :
    Chained chainedLoad (chainedLoadRows.take 1) ((chainedLoadRows.drop 1).take 2)
      { offset := 6, opname := "LOAD_CONST", arg := some 3, argval := some "c" } [1, 2] 3 where
  listed := ⟨chainedLoadRows.drop 4, rows_chainedLoad⟩
  start := by decide
  extended := by decide
  not_extended := by decide
  bytes_eq := rfl
  byte_eq := rfl
  lt := by decide

theorem parse_chained_load :
    Chained chainedLoad (chainedLoadRows.take 1) ((chainedLoadRows.drop 1).take 2)
        { offset := 6, opname := "LOAD_CONST", arg := some 3, argval := some "c" } [1, 2] 3 ∧
      (parse chainedLoad)[1]? =
        some { lineNum := some 4, offset := 6, opname := "LOAD_CONST", arg := some 515,
               argval := some "c" } ∧
      ¬(parse chainedLoad)[1]?.bind Instruction.arg = some 66051 ∧
      (parse chainedLoad)[2]? =
        some { lineNum := some 4, offset := 8, opname := "RETURN_VALUE" } := by
  obtain ⟨hrecord, hwhole⟩ := (parse_chained chainedLoad).1 _ _ _ _ _ chained_chainedLoad
  have hplain := (parse_chained chainedLoad).2 (chainedLoadRows.take 4) [] _ rows_chainedLoad
    (by decide) (by decide)
  exact ⟨chained_chainedLoad, hrecord, fun h => absurd (hwhole.mp h) (by decide), hplain⟩

/-- So the bytes of a chain are not always all in the argument. -/
theorem exists_lost_byte :
    ¬∀ (text : List Char) (before prefixes : List Instruction) (row : Instruction)
        (bytes : List Nat) (byte : Nat),
      Chained text before prefixes row bytes byte → 1 ≤ bytes.length → bytes.length ≤ 3 →
        (parse text)[recordCount before]?.bind Instruction.arg = some (wholeArg bytes byte) := by
  intro hall
  have hwhole := hall _ _ _ _ _ _ chained_chainedLoad (by decide) (by decide)
  have hparse : parse chainedLoad = fold none none chainedLoadRows :=
    congrArg (fold none none) rows_chainedLoad
  rw [hparse] at hwhole
  exact absurd hwhole (by decide)

end Decompiler.Listing
