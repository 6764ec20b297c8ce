import Decompiler.Proofs.Function.Name
import Decompiler.Proofs.Listing.Printed
import Decompiler.Proofs.Walk.Course

/-!
Functions and their segments. A function is made from two constants, the descriptor of its code object
and its own name, and from what the code has put below them. The walk leaves one node in place of all of
these. It refers to the function by the name of the segment that holds its code, and by no name that a
function at another address has.
-/

namespace Decompiler

open Text Walk

namespace Walk

variable {flags : Flags} {code : Code} {ins : Instruction} {ahead : Code} {n : Nat} {state : State}
  {past : List Instruction}

theorem State.leave_eq_self (h : 0 < n ∨ flags.comprehension = false) (offset : Nat) :
    state.leave flags n offset = state := by
  refine if_neg fun hfirst => ?_
  rcases h with hn | hflags
  · omega
  · rw [hflags] at hfirst
    cases hfirst.2

/-- A node in place of operands, unless it is the first one of a comprehension. -/
theorem Arrives.replace {pops : Nat} {node : Node} (mentions : List Mention)
    (h : Arrives flags code n state past) (hins : code[n]? = some ins)
    (heffect : Walk.effect flags code ins (code.drop (n + 1)) (state.settle ins.offset) =
      .ok { Effect.replace pops node with mentions })
    (hn : 0 < n ∨ flags.comprehension = false) :
    ∃ next level, Arrives flags code (n + 1) next (ins :: past) ∧
      next.stack = ⟨level, node, ins.offset⟩ :: state.stack.drop pops := by
  have hstep := step_eq_ok.mpr ⟨_, heffect, rfl, rfl⟩
  have hnext := h.step hins hstep
  rw [State.leave_eq_self hn] at hnext
  exact ⟨_, _, hnext, rfl⟩

/-- A constant is put on top of the stack, as it is written if it does not start with a point. -/
theorem exists_effect_const (ins : Instruction) (hop : ins.opname = "LOAD_CONST") (state : State) :
    ∃ node mentions,
      Walk.effect flags code ins ahead state = .ok { Effect.replace 0 node with mentions } ∧
        ∀ text ∈ ins.argval, text.toList.head? ≠ some '.' → node = .atom text := by
  have hopcode : ins.opcode? = some (.load false) := by
    rw [Instruction.opcode?, hop]
    rfl
  rw [Walk.effect, hopcode]
  dsimp only
  rw [opcodeEffect, load]
  cases hargval : ins.argval with
  | none => exact ⟨_, [], rfl, fun _ h => by cases h⟩
  | some text =>
      refine ⟨_, _, rfl, ?_⟩
      rintro _ ⟨⟩ hhead
      rw [loadedName]
      split
      · next htext =>
        rw [htext] at hhead
        exact absurd rfl hhead
      · rfl

end Walk

def extraCount (bits : Nat) : Nat := ([0, 1, 2, 3].filter bits.testBit).length

namespace CodeObject

variable (object : CodeObject)

/-- What refers to a function that is made under these bits from the operands on the stack. -/
def reference (bits : Nat) (stack : List Statement) : Node :=
  match if bits.testBit 3 then stack.head? else none with
  | some captured => .closure object.functionName (capturedNames captured.node)
  | none => .atom object.functionName

theorem head?_descriptor : object.descriptor.toList.head? = some '<' := by
  obtain ⟨inner, hinner⟩ := object.exists_described
  rw [descriptor, String.toList_ofList, hinner, List.head?_cons]

theorem effect_makeFunction {flags : Flags} {code ahead : Code} {ins : Instruction} {state : State}
    {bits : Nat} {name constant : Statement} {stack : List Statement}
    (hop : ins.opname = "MAKE_FUNCTION") (harg : ins.arg = some bits)
    (hstack : state.stack = name :: constant :: stack)
    (hconstant : constant.node = .atom object.descriptor) (hextra : extraCount bits ≤ stack.length) :
    Walk.effect flags code ins ahead state =
      .ok (.replace (2 + extraCount bits) (object.reference bits stack)) := by
  have hopcode : ins.opcode? = some .makeFunction := by
    rw [Instruction.opcode?, hop]
    rfl
  have hoperands : operands ins (extraCount bits) stack =
      .ok ((stack.take (extraCount bits)).reverse.map Statement.node) := if_pos hextra
  have hname : codeName? constant.node = some object.functionName := by
    rw [hconstant]
    exact object.codeObjectName?_descriptor
  rw [Walk.effect, hopcode]
  dsimp only
  rw [opcodeEffect, makeFunction, Instruction.requireArg_eq_ok.mpr harg, ok_bind, hstack]
  simp only [operands2, ok_bind, List.drop_succ_cons, List.drop_zero]
  rw [extraCount] at hoperands
  rw [hoperands, ok_bind, hname]
  rw [reference]
  cases bits.testBit 3 with
  | false => rfl
  | true =>
      cases stack with
      | nil => rfl
      | cons captured stack => rfl

end CodeObject

def instructions (units : List CodeUnit) : List PlacedUnit :=
  (placedAfter [] units).filter fun placed => !placed.unit.isExtended

/-- A function is made from a position on: its code object and its name are put on the stack, and the
bits say what has been put there before. -/
structure MakesFunction (units : List PlacedUnit) (n : Nat) (object : CodeObject) (bits : Nat) :
    Prop where
  constant : ∃ placed, units[n]? = some placed ∧ placed.unit.opname.text = "LOAD_CONST" ∧
    placed.unit.meaning?.map Meaning.text = some object.descriptor
  name : ∃ placed, units[n + 1]? = some placed ∧ placed.unit.opname.text = "LOAD_CONST"
  make : ∃ placed, units[n + 2]? = some placed ∧ placed.unit.opname.text = "MAKE_FUNCTION" ∧
    placed.printedArg = some bits

/-- Wherever the run comes to the position with the operands on the stack, it goes on behind the three
instructions with one node in place of these operands, which refers to the function. -/
def Links (flags : Flags) (code : Code) (n : Nat) (object : CodeObject) (bits : Nat) : Prop :=
  ∀ state past, Arrives flags code n state past → extraCount bits ≤ state.stack.length →
    ∃ ins ∈ code[n + 2]?, ∃ next steps level, Arrives flags code (n + 3) next steps ∧
      run flags code = walk flags code 0 (code.drop (n + 3)) next ∧
      next.stack = ⟨level, object.reference bits state.stack, ins.offset⟩ ::
        state.stack.drop (extraCount bits)

theorem links_of_makesFunction {flags : Flags} {units : List PlacedUnit} {n bits : Nat}
    {object : CodeObject} (h : MakesFunction units n object bits)
    (hn : 0 < n ∨ flags.comprehension = false) :
    Links flags (units.map PlacedUnit.record) n object bits := by
  intro state past harrives hextra
  obtain ⟨constant, hconstant, hload, hdescriptor⟩ := h.constant
  obtain ⟨name, hname, hnamed⟩ := h.name
  obtain ⟨make, hmake, hmakes, hbits⟩ := h.make
  have hrecord {k : Nat} {placed : PlacedUnit} (hplaced : units[k]? = some placed) :
      (units.map PlacedUnit.record)[k]? = some placed.record := by
    rw [List.getElem?_map, hplaced, Option.map_some]
  -- the code object, then the name, and then the function from both
  obtain ⟨node, mentions, heffect, hnode⟩ := exists_effect_const constant.record hload _
  obtain ⟨first, level, hfirst, hstack⟩ :=
    harrives.replace mentions (hrecord hconstant) heffect hn
  obtain ⟨_, mentions', heffect', -⟩ := exists_effect_const name.record hnamed _
  obtain ⟨second, _, hsecond, hstack'⟩ :=
    hfirst.replace mentions' (hrecord hname) heffect' (Or.inl (Nat.succ_pos n))
  rw [hstack, List.drop_zero] at hstack'
  have hdescribed : node = .atom object.descriptor := by
    refine hnode _ hdescriptor ?_
    rw [object.head?_descriptor]
    decide
  obtain ⟨next, level', hnext, hnextStack⟩ := hsecond.replace [] (hrecord hmake)
    (object.effect_makeFunction hmakes hbits hstack' hdescribed hextra) (Or.inl (Nat.succ_pos _))
  refine ⟨make.record, hrecord hmake, next, _, level', hnext, hnext.run_eq_walk (Nat.succ_pos _), ?_⟩
  rw [hnextStack, hstack', Nat.add_comm 2]
  rfl

/-- A function and its segment are linked: in place of the operands of a function, whatever they are,
the walk leaves one node that refers to the function by a name, and this name is the one that the header
of its code object gives to a segment of the dump. It is the name of no function with another address.
Only a comprehension may not start with the code object, because what its first instruction makes is
where the results go. -/
theorem function_linked (object : CodeObject) :
    (∀ (flags : Flags) (units : List CodeUnit) (rows : List (List Char)) (n bits : Nat),
        Printed (placedAfter [] units) rows → (∀ placed ∈ placedAfter [] units, placed.Fits) →
          MakesFunction (instructions units) n object bits →
            0 < n ∨ flags.comprehension = false →
              Links flags (Listing.parse (['\n'].intercalate rows)) n object bits) ∧
      (∀ dump : List Char, ∀ line ∈ lines dump, trim line = object.header →
        Segment.header? line = some object.functionName ∧
          ∃ segment ∈ Segment.split dump, segment.name = object.functionName) ∧
      ∀ other : CodeObject, object.functionName = other.functionName →
        object.bareName = other.bareName ∧ object.address = other.address := by
  refine ⟨fun flags units rows n bits hprinted hfits hmakes hn => ?_, fun dump line hline htrim => ?_,
    fun other => CodeObject.eq_of_functionName_eq⟩
  · have hfold : Listing.fold none none ((placedAfter [] units).map PlacedUnit.row) =
        (instructions units).map PlacedUnit.record := Listing.fold_placedAfter [] units hfits
    rw [hprinted.parse_eq_fold hfits, hfold]
    exact links_of_makesFunction hmakes hn
  · have hheader := object.header?_eq htrim
    exact ⟨hheader, Segment.exists_mem_split hheader object.functionName_ne_mainName hline⟩

/-- A code object with brackets around its name, in a file whose name has a parenthesis and an address
in it. -/
def lambdaObject : CodeObject where
  name := "<lambda>"
  address := "0x10"
  file := "\"f) at 0x2, g.py\""
  line := 1
  name_solid := by decide
  address_ne_nil := by decide
  address_plain := by decide

namespace Mnemonic

/-- A text that is read as a mnemonic. -/
def ofText (text : String) (h : Listing.isMnemonic text.toList = true) : Mnemonic where
  text
  shape := by
    obtain ⟨first, rest, htext, hfirst, hrest⟩ := Listing.isMnemonic_iff.mp h
    exact ⟨first, rest, htext, hfirst, by simpa using hrest⟩

def loadConst : Mnemonic := .ofText "LOAD_CONST" (by decide)

def makeFunction : Mnemonic := .ofText "MAKE_FUNCTION" (by decide)

end Mnemonic

/-- The three units that make a function of it. -/
def lambdaUnits (offset : Nat) (bits : Fin 256) : List CodeUnit :=
  [{ offset, opname := .loadConst,
     operand := some (⟨1, by decide⟩, some ⟨lambdaObject.descriptor, by decide, by decide⟩) },
    { offset := offset + 2, opname := .loadConst,
      operand := some (⟨2, by decide⟩, some ⟨"'<lambda>'", by decide, by decide⟩) },
    { offset := offset + 4, opname := .makeFunction, operand := some (bits, none) }]

/-- A variable that the function captures, in front of these units. -/
def closureUnits : List CodeUnit :=
  let loadClosure : Mnemonic := .ofText "LOAD_CLOSURE" (by decide)
  let buildTuple : Mnemonic := .ofText "BUILD_TUPLE" (by decide)
  { offset := 0, opname := loadClosure,
    operand := some (⟨0, by decide⟩, some ⟨"x", by decide, by decide⟩) } ::
      { offset := 2, opname := buildTuple, operand := some (⟨1, by decide⟩, none) } ::
        lambdaUnits 4 ⟨8, by decide⟩

def closureRows : List (List Char) := (placedAfter [] closureUnits).map PlacedUnit.plainRow

example : ['\n'].intercalate closureRows =
    ("0 LOAD_CLOSURE 0 (x)\n2 BUILD_TUPLE 1\n" ++
      "4 LOAD_CONST 1 (<code object <lambda> at 0x10, file \"f) at 0x2, g.py\", line 1>)\n" ++
      "6 LOAD_CONST 2 ('<lambda>')\n8 MAKE_FUNCTION 8").toList := by
  decide +kernel

/-- The listing of this code, the header of its segment, and another function of the same address. -/
theorem function_linked_lambda :
    let code := Listing.parse (['\n'].intercalate closureRows)
    let line := ' ' :: lambdaObject.header ++ [' ']
    let dump := "0 NOP\n".toList ++ line ++ "\r\n".toList
    let other : CodeObject :=
      { lambdaObject with name := "lambda", name_solid := by decide, file := "" }
    (Printed (placedAfter [] closureUnits) closureRows ∧
      (∀ placed ∈ placedAfter [] closureUnits, placed.Fits) ∧
      MakesFunction (instructions closureUnits) 2 lambdaObject 8 ∧ Links {} code 2 lambdaObject 8 ∧
      ∃ next steps level, Arrives {} code 5 next steps ∧ run {} code = .ok next ∧
        next.stack = [⟨level, .closure "lambda_0x10" ["x"], 8⟩]) ∧
    (line ∈ lines dump ∧ trim line = lambdaObject.header ∧
      ∃ segment ∈ Segment.split dump, segment.name = "lambda_0x10") ∧
    lambdaObject.functionName = other.functionName ∧ lambdaObject.bareName = other.bareName := by
  intro code line dump other
  have hprinted : Printed (placedAfter [] closureUnits) closureRows :=
    printed_plainRow (by decide +kernel)
  have hfits : ∀ placed ∈ placedAfter [] closureUnits, placed.Fits := by
    simp only [closureUnits, lambdaUnits, placedAfter, List.forall_mem_cons]
    exact ⟨⟨by decide, by decide, by decide⟩, ⟨by decide, by decide, by decide⟩,
      ⟨by decide, by decide, by decide⟩, ⟨by decide, by decide, by decide⟩,
      ⟨by decide, by decide, by decide⟩, List.forall_mem_nil _⟩
  have hmakes : MakesFunction (instructions closureUnits) 2 lambdaObject 8 :=
    ⟨⟨_, rfl, rfl, rfl⟩, ⟨_, rfl, rfl⟩, ⟨_, rfl, rfl, rfl⟩⟩
  have hlinks : Links {} code 2 lambdaObject 8 :=
    (function_linked lambdaObject).1 {} closureUnits closureRows 2 8 hprinted hfits hmakes
      (Or.inl (by decide))
  have hcode : code =
      [{ offset := 0, opname := "LOAD_CLOSURE", arg := some 0, argval := some "x" },
        { offset := 2, opname := "BUILD_TUPLE", arg := some 1 },
        { offset := 4, opname := "LOAD_CONST", arg := some 1,
          argval := some lambdaObject.descriptor },
        { offset := 6, opname := "LOAD_CONST", arg := some 2, argval := some "'<lambda>'" },
        { offset := 8, opname := "MAKE_FUNCTION", arg := some 8 }] :=
    (hprinted.parse_eq_fold hfits).trans rfl
  have hname : lambdaObject.functionName = "lambda_0x10" := by decide
  have hcalled : ∃ next steps level, Arrives {} code 5 next steps ∧ run {} code = .ok next ∧
      next.stack = [⟨level, .closure "lambda_0x10" ["x"], 8⟩] := by
    let seen : Signature := { args := ["x"], seen := ["x"] }
    have harrives : Arrives {} code 2 { stack := [⟨0, .tuple [.atom "x"], 2⟩], signature := seen }
        (code.take 2).reverse := by
      rw [hcode]
      have hfirst := @Arrives.step {} _ 0 0 {} { stack := [⟨0, .atom "x", 0⟩], signature := seen }
        _ [] .start (Eq.refl (code[0]?)) rfl
      exact @Arrives.step {} _ 1 0 _ _ _ _ hfirst rfl rfl
    obtain ⟨ins, hins, next, steps, level, hnext, hrun, hstack⟩ :=
      hlinks _ _ harrives (by decide)
    rw [hcode] at hins hrun
    cases hins
    refine ⟨next, steps, level, hnext, ?_, ?_⟩
    · rw [hcode, hrun]
      rfl
    · rw [hstack, CodeObject.reference, hname]
      rfl
  have hline : line ∈ lines dump := by decide +kernel
  have htrim : trim line = lambdaObject.header := by decide +kernel
  have hsame : lambdaObject.functionName = other.functionName := by decide +kernel
  refine ⟨⟨hprinted, hfits, hmakes, hlinks, hcalled⟩, ⟨hline, htrim, ?_⟩, hsame,
    ((function_linked lambdaObject).2.2 other hsame).1⟩
  rw [← hname]
  exact ((function_linked lambdaObject).2.1 dump line hline htrim).2

/-- A comprehension that starts with the code object: what is made of this is bound to the accumulator,
and no function is made. -/
theorem not_links_comprehension :
    let units := lambdaUnits 0 0
    let rows := (placedAfter [] units).map PlacedUnit.plainRow
    Printed (placedAfter [] units) rows ∧ (∀ placed ∈ placedAfter [] units, placed.Fits) ∧
      MakesFunction (instructions units) 0 lambdaObject 0 ∧
      ¬ Links { comprehension := true } (Listing.parse (['\n'].intercalate rows)) 0 lambdaObject 0 := by
  intro units rows
  have hprinted : Printed (placedAfter [] units) rows := printed_plainRow (by decide +kernel)
  have hfits : ∀ placed ∈ placedAfter [] units, placed.Fits := by
    simp only [units, lambdaUnits, placedAfter, List.forall_mem_cons]
    exact ⟨⟨by decide, by decide, by decide⟩, ⟨by decide, by decide, by decide⟩,
      ⟨by decide, by decide, by decide⟩, List.forall_mem_nil _⟩
  have hmakes : MakesFunction (instructions units) 0 lambdaObject 0 :=
    ⟨⟨_, rfl, rfl, rfl⟩, ⟨_, rfl, rfl⟩, ⟨_, rfl, rfl, rfl⟩⟩
  have hcode : Listing.parse (['\n'].intercalate rows) =
      [{ offset := 0, opname := "LOAD_CONST", arg := some 1,
          argval := some lambdaObject.descriptor },
        { offset := 2, opname := "LOAD_CONST", arg := some 2, argval := some "'<lambda>'" },
        { offset := 4, opname := "MAKE_FUNCTION", arg := some 0 }] :=
    (hprinted.parse_eq_fold hfits).trans rfl
  refine ⟨hprinted, hfits, hmakes, fun hlinks => ?_⟩
  obtain ⟨ins, -, next, steps, level, -, hrun, hstack⟩ := hlinks {} [] .start (Nat.zero_le _)
  have hmade : (run { comprehension := true } (Listing.parse (['\n'].intercalate rows))).map
      State.stack = .ok [⟨0, .placeholder "MAKE_FUNCTION" (some 0) none, 4⟩] := by
    rw [hcode]
    rfl
  rw [hrun, hcode] at hmade
  have hplaceholder : next.stack = [⟨0, .placeholder "MAKE_FUNCTION" (some 0) none, 4⟩] :=
    Except.ok.inj hmade
  rw [hstack] at hplaceholder
  have hnode := congrArg Statement.node (List.cons.inj hplaceholder).1
  cases hnode

end Decompiler
