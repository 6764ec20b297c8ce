import Decompiler.Proofs.Walk.Course

/-!
What a run fails with. Every error tells of an instruction by its offset, and all but one also by its
mnemonic. That instruction is the one whose step fails, or else one of those that the step has read
ahead for the names of an import; and it does lack what the error says it lacks. Instructions that
are not recognised are left as they are and never fail.
-/

namespace Decompiler

namespace Error

def offset : Error → Nat
  | stackUnderflow offset _ | unexpectedEnd offset _ | missingArgument offset _
  | invalidJumpTarget offset _ | malformedUnpack offset _ => offset

def opname? : Error → Option String
  | stackUnderflow _ opname | unexpectedEnd _ opname | missingArgument _ opname
  | invalidJumpTarget _ opname => some opname
  | malformedUnpack _ _ => none

end Error

theorem bind_eq_error {ε α β : Type} {x : Except ε α} {f : α → Except ε β} {e : ε} :
    (x >>= f) = .error e ↔ x = .error e ∨ ∃ a, x = .ok a ∧ f a = .error e := by
  cases x with
  | ok a => simp [bind, Except.bind]
  | error e => simp [bind, Except.bind]

/-- What a computation fails with, if it fails, satisfies `p`. -/
def Fails {ε α : Type} (p : ε → Prop) (x : Except ε α) : Prop := ∀ e, x = .error e → p e

namespace Fails

variable {ε α β : Type} {p q : ε → Prop} {x : Except ε β}

theorem ok (a : α) : Fails p (.ok a : Except ε α) := by
  rintro _ ⟨⟩

theorem error {e : ε} (h : p e) : Fails p (.error e : Except ε α) := by
  rintro _ ⟨⟩
  exact h

theorem bind {f : β → Except ε α} (hx : Fails p x) (hf : ∀ b, x = .ok b → Fails p (f b)) :
    Fails p (x >>= f) := by
  intro e he
  rcases bind_eq_error.mp he with herror | ⟨b, hb, herror⟩
  · exact hx e herror
  · exact hf b hb e herror

theorem imp (h : Fails q x) (himp : ∀ e, q e → p e) : Fails p x :=
  fun e he => himp e (h e he)

end Fails

namespace Walk

/-- The pairs of an `IMPORT_FROM` and a store that code begins with. -/
def importPairs : Code → Code
  | source :: store :: ahead =>
      if source.is .importFrom && store.isStore then source :: store :: importPairs ahead else []
  | _ => []

/-- The instructions that an import reads names from: a store, or else pairs. -/
def readByImport : Code → Code
  | [] => []
  | next :: ahead => if next.isStore then [next] else importPairs (next :: ahead)

/-- Whether an instruction binds or fetches a name for an import. -/
def NamesImport (ins : Instruction) : Prop := ins.is .importFrom = true ∨ ins.isStore = true

theorem mem_importPairs {culprit : Instruction} {ahead : Code} (h : culprit ∈ importPairs ahead) :
    culprit ∈ ahead ∧ NamesImport culprit := by
  induction ahead using importPairs.induct with
  | case1 source store ahead hc ih =>
      rw [importPairs, if_pos hc] at h
      obtain ⟨hsource, hstore⟩ := Bool.and_eq_true_iff.mp hc
      rcases List.mem_cons.mp h with rfl | h
      · exact ⟨by simp, .inl hsource⟩
      · rcases List.mem_cons.mp h with rfl | h
        · exact ⟨by simp, .inr hstore⟩
        · obtain ⟨hmem, hnames⟩ := ih h
          exact ⟨by simp [hmem], hnames⟩
  | case2 source store ahead hc =>
      rw [importPairs, if_neg hc] at h
      cases h
  | case3 => simp [importPairs] at h

theorem mem_readByImport {culprit : Instruction} {ahead : Code}
    (h : culprit ∈ readByImport ahead) : culprit ∈ ahead ∧ NamesImport culprit := by
  cases ahead with
  | nil => cases h
  | cons next ahead =>
      rw [readByImport] at h
      split at h
      · next hstore =>
        obtain rfl := List.mem_singleton.mp h
        exact ⟨List.mem_cons_self .., .inr hstore⟩
      · exact mem_importPairs h

theorem NamesImport.opcode?_ne_none {ins : Instruction} (h : NamesImport ins) :
    ins.opcode? ≠ none := by
  intro hnone
  simp [NamesImport, Instruction.isStore, Instruction.is, hnone] at h

/-- What an error says of an instruction, if it comes from the step at `ins` with `ahead` to follow:
which instruction it can be, and what there is amiss. -/
inductive Blames (ins : Instruction) (ahead : Code) : Instruction → Error → Prop
  | underflow : Blames ins ahead ins (.stackUnderflow ins.offset ins.opname)
  /-- Nothing follows but what the instruction reads ahead. -/
  | unexpectedEnd (h : ∀ other ∈ ahead, NamesImport other) :
      Blames ins ahead ins (.unexpectedEnd ins.offset ins.opname)
  | missingArgument (h : ins.arg = none ∨ ins.argval = none) :
      Blames ins ahead ins (.missingArgument ins.offset ins.opname)
  | missingName {culprit : Instruction} (hop : ins.opcode? = some .importName)
      (hread : culprit ∈ readByImport ahead) (h : culprit.argval = none) :
      Blames ins ahead culprit (.missingArgument culprit.offset culprit.opname)
  | invalidTarget (h : ins.jumpTarget? = none) :
      Blames ins ahead ins (.invalidJumpTarget ins.offset ins.opname)
  | malformedUnpack {expected : Nat} (h : Target.storedNames? ahead expected = none) :
      Blames ins ahead ins (.malformedUnpack ins.offset expected)

def Blamed (ins : Instruction) (ahead : Code) (e : Error) : Prop :=
  ∃ culprit, Blames ins ahead culprit e

variable {flags : Flags} {code : Code} {ins : Instruction} {ahead : Code} {state : State}

/-! ### What is read of an instruction and off the stack -/

theorem fails_requireArg : Fails (Blamed ins ahead) ins.requireArg := by
  unfold Instruction.requireArg
  split
  · exact .ok _
  · next h => exact .error ⟨ins, .missingArgument (.inl h)⟩

theorem fails_requireName : Fails (Blamed ins ahead) ins.requireName := by
  unfold Instruction.requireName
  split
  · exact .ok _
  · next h => exact .error ⟨ins, .missingArgument (.inr h)⟩

theorem fails_requireTarget : Fails (Blamed ins ahead) ins.requireTarget := by
  unfold Instruction.requireTarget
  split
  · exact .ok _
  · next h => exact .error ⟨ins, .invalidTarget h⟩

theorem fails_operand (stack : List Statement) :
    Fails (Blamed ins ahead) (operand ins stack) := by
  unfold operand
  split
  · exact .ok _
  · exact .error ⟨ins, .underflow⟩

theorem fails_operands2 (stack : List Statement) :
    Fails (Blamed ins ahead) (operands2 ins stack) := by
  unfold operands2
  split
  · exact .ok _
  · exact .error ⟨ins, .underflow⟩

theorem fails_operands3 (stack : List Statement) :
    Fails (Blamed ins ahead) (operands3 ins stack) := by
  unfold operands3
  split
  · exact .ok _
  · exact .error ⟨ins, .underflow⟩

theorem fails_operands (n : Nat) (stack : List Statement) :
    Fails (Blamed ins ahead) (operands ins n stack) := by
  unfold operands
  split
  · exact .ok _
  · exact .error ⟨ins, .underflow⟩

/-! ### Expressions and simple statements -/

theorem fails_wrap (node : Node → Node) : Fails (Blamed ins ahead) (wrap ins state node) :=
  .bind (fails_operand _) fun _ _ => .ok _

theorem fails_combine (node : Node → Node → Node) :
    Fails (Blamed ins ahead) (combine ins state node) :=
  .bind (fails_operands2 _) fun _ _ => .ok _

theorem fails_attributeOf : Fails (Blamed ins ahead) (attributeOf ins state) := by
  unfold attributeOf
  split
  · exact .ok _
  · exact fails_wrap _

theorem fails_build (kind : Container) : Fails (Blamed ins ahead) (build ins kind state) :=
  .bind fails_requireArg fun _ _ => .bind (fails_operands _ _) fun _ _ => .ok _

theorem fails_buildMap : Fails (Blamed ins ahead) (buildMap ins state) :=
  .bind fails_requireArg fun _ _ => .bind (fails_operands _ _) fun _ _ => .ok _

theorem fails_buildSlice : Fails (Blamed ins ahead) (buildSlice ins state) := by
  refine .bind fails_requireArg fun _ _ => ?_
  split
  · exact .bind (fails_operands3 _) fun _ _ => .ok _
  · exact fails_combine _

theorem fails_compareOp : Fails (Blamed ins ahead) (compareOp ins state) := by
  unfold compareOp
  split
  · exact .ok _
  · exact fails_combine _

theorem fails_compareWith (plain negated : String) :
    Fails (Blamed ins ahead) (compareWith ins plain negated state) :=
  .bind fails_requireArg fun _ _ => fails_combine _

theorem fails_storeSubscript : Fails (Blamed ins ahead) (storeSubscript ins state) :=
  .bind (fails_operands3 _) fun _ _ => .ok _

theorem fails_raiseVarargs : Fails (Blamed ins ahead) (raiseVarargs ins state) := by
  refine .bind fails_requireArg fun arg _ => ?_
  split
  · exact .ok _
  · exact fails_wrap _
  · exact fails_combine _
  · exact .ok _

theorem fails_returnValue : Fails (Blamed ins ahead) (returnValue flags ins state) := by
  unfold returnValue
  split
  · exact .ok _
  · exact fails_wrap _

theorem fails_accumulate (method : String) :
    Fails (Blamed ins ahead) (accumulate flags ins method state) := by
  unfold accumulate
  split
  · exact fails_wrap _
  · exact .ok _

theorem fails_accumulateEntry : Fails (Blamed ins ahead) (accumulateEntry flags ins state) := by
  unfold accumulateEntry
  split
  · exact fails_combine _
  · exact .ok _

/-! ### Calls -/

theorem fails_call : Fails (Blamed ins ahead) (call ins state) :=
  .bind fails_requireArg fun _ _ => .bind (fails_operands _ _) fun _ _ =>
    .bind (fails_operand _) fun _ _ => .ok _

theorem fails_callKeywords : Fails (Blamed ins ahead) (callKeywords ins state) := by
  refine .bind fails_requireArg fun argc _ => ?_
  split
  · split
    · exact .ok _
    · exact .bind (fails_operands _ _) fun _ _ => .bind (fails_operands _ _) fun _ _ =>
        .bind (fails_operand _) fun _ _ => .ok _
  · exact .ok _

theorem fails_callSpread : Fails (Blamed ins ahead) (callSpread ins state) := by
  refine .bind fails_requireArg fun arg _ => ?_
  split
  · exact .bind (fails_operands3 _) fun _ _ => .ok _
  · exact .bind (fails_operands2 _) fun _ _ => .ok _

theorem fails_makeFunction : Fails (Blamed ins ahead) (makeFunction ins state) :=
  .bind fails_requireArg fun _ _ => .bind (fails_operands2 _) fun _ _ =>
    .bind (fails_operands _ _) fun _ _ => .ok _

/-! ### Names, unpackings and loops -/

theorem fails_store : Fails (Blamed ins ahead) (store ins state) :=
  .bind fails_requireName fun _ _ => .bind (fails_operand _) fun _ _ => .ok _

theorem fails_inplace (op : BinaryOperator) :
    Fails (Blamed ins ahead) (inplace ins op ahead state) := by
  unfold inplace
  split
  · exact .ok _
  · exact .bind (fails_operands2 _) fun _ _ => .ok _

theorem fails_unpackSequence : Fails (Blamed ins ahead) (unpackSequence ins ahead state) := by
  refine .bind (fails_operand _) fun value _ => ?_
  split
  · exact .ok _
  · exact .ok _

theorem fails_unpackEx : Fails (Blamed ins ahead) (unpackEx ins ahead state) := by
  refine .bind fails_requireArg fun arg _ => ?_
  dsimp only
  split
  · next hnone => exact .error ⟨ins, .malformedUnpack hnone⟩
  · exact .bind (fails_operand _) fun _ _ => .ok _

theorem fails_forLoop : Fails (Blamed ins ahead) (forLoop ins ahead state) := by
  refine .bind fails_requireTarget fun stop _ => ?_
  split
  · exact .error ⟨ins, .unexpectedEnd (List.forall_mem_nil _)⟩
  · split
    · exact .ok _
    · exact .bind (fails_operand _) fun _ _ => .ok _

/-! ### Jumps -/

theorem fails_conditionalJump (onTrue : Bool) :
    Fails (Blamed ins ahead) (conditionalJump flags code ins onTrue state) := by
  refine .bind (fails_operand _) fun test _ => .bind fails_requireTarget fun target _ => ?_
  dsimp only
  split
  · exact .ok _
  · exact .ok _

theorem fails_absoluteJump : Fails (Blamed ins ahead) (absoluteJump flags code ins state) := by
  refine .bind fails_requireTarget fun target _ => ?_
  split
  · exact .ok _
  · split
    · exact .ok _
    · repeat' split
      all_goals exact .ok _

theorem fails_forwardJump : Fails (Blamed ins ahead) (forwardJump flags ins) := by
  refine .bind fails_requireTarget fun target _ => ?_
  split
  · exact .ok _
  · exact .ok _

/-! ### Imports -/

/-- The names of an import are at fault where one of them is missing, or where the code ends behind
an `IMPORT_FROM`. -/
theorem fails_importedNames (origin : Instruction) (ahead : List Instruction) :
    Fails (fun e =>
        (∀ other ∈ ahead, NamesImport other) ∧ e = .unexpectedEnd origin.offset origin.opname ∨
          ∃ culprit ∈ importPairs ahead, culprit.argval = none ∧
            e = .missingArgument culprit.offset culprit.opname)
      (importedNames origin ahead) := by
  have named {culprit : Instruction} {ahead : Code} (h : culprit ∈ importPairs ahead) :
      Fails (fun e => (∀ other ∈ ahead, NamesImport other) ∧
          e = .unexpectedEnd origin.offset origin.opname ∨
        ∃ culprit ∈ importPairs ahead, culprit.argval = none ∧
          e = .missingArgument culprit.offset culprit.opname) culprit.requireName := by
    unfold Instruction.requireName
    split
    · exact .ok _
    · next hnone => exact .error (.inr ⟨culprit, h, hnone, rfl⟩)
  induction ahead using importedNames.induct with
  | case1 source store ahead hc ih =>
      have hpairs : importPairs (source :: store :: ahead) =
          source :: store :: importPairs ahead := by rw [importPairs, if_pos hc]
      obtain ⟨hsource, hstore⟩ := Bool.and_eq_true_iff.mp hc
      rw [importedNames, if_pos hc]
      refine .bind (named (by simp [hpairs])) fun name _ =>
        .bind (named (by simp [hpairs])) fun bound _ => .bind (ih.imp ?_) fun rest _ => .ok _
      rintro e (⟨hall, rfl⟩ | ⟨culprit, hculprit, hnone, rfl⟩)
      · refine .inl ⟨?_, rfl⟩
        rw [List.forall_mem_cons, List.forall_mem_cons]
        exact ⟨.inl hsource, .inr hstore, hall⟩
      · exact .inr ⟨culprit, by simp [hpairs, hculprit], hnone, rfl⟩
  | case2 source store ahead hc =>
      rw [importedNames, if_neg hc]
      exact .ok _
  | case3 source hc =>
      rw [importedNames, if_pos hc]
      exact .error (.inl ⟨List.forall_mem_singleton.mpr (.inl hc), rfl⟩)
  | case4 source hc =>
      rw [importedNames, if_neg hc]
      exact .ok _
  | case5 => exact .ok _

theorem fails_importForm (module : String) (hop : ins.opcode? = some .importName) :
    Fails (Blamed ins ahead) (importForm ins module ahead) := by
  match ahead with
  | [] => exact .error ⟨ins, .unexpectedEnd (List.forall_mem_nil _)⟩
  | next :: ahead =>
      rw [importForm]
      split
      · next hnext =>
        have hread : readByImport (next :: ahead) = [next] := by
          simp [readByImport, Instruction.isStore, Instruction.is, hnext]
        refine .bind ?_ fun _ _ => .ok _
        unfold Instruction.requireName
        split
        · exact .ok _
        · next hnone => exact .error ⟨next, .missingName hop (by simp [hread]) hnone⟩
      · next hnext =>
        have hread : readByImport (next :: ahead) = importPairs (next :: ahead) := by
          simp [readByImport, Instruction.isStore, Instruction.is, hnext]
        dsimp only
        split
        · exact .ok _
        · refine .bind ((fails_importedNames ins (next :: ahead)).imp ?_) fun names _ => ?_
          · rintro e (⟨hall, rfl⟩ | ⟨culprit, hculprit, hnone, rfl⟩)
            · exact ⟨ins, .unexpectedEnd hall⟩
            · exact ⟨culprit, .missingName hop (hread ▸ hculprit) hnone⟩
          · split
            · exact .ok _
            · exact .ok _
      · exact .ok _
      · exact .ok _

theorem fails_importName (hop : ins.opcode? = some .importName) :
    Fails (Blamed ins ahead) (importName ins ahead state) := by
  refine .bind fails_requireName fun module _ => .bind (fails_operands2 _) fun ⟨level, _⟩ _ => ?_
  dsimp only
  split
  · exact fails_importForm module hop
  · exact .ok _

/-! ### What a step fails with -/

theorem fails_opcodeEffect {op : Opcode} (hop : ins.opcode? = some op) :
    Fails (Blamed ins ahead) (opcodeEffect flags code ins ahead state op) := by
  cases op with
  | loadAttr => exact fails_attributeOf
  | load global => exact .ok _
  | store => exact fails_store
  | returnValue => exact fails_returnValue
  | yieldValue => exact fails_wrap _
  | build kind => exact fails_build kind
  | buildMap => exact fails_buildMap
  | buildSlice => exact fails_buildSlice
  | getIter => exact fails_wrap _
  | forIter => exact fails_forLoop
  | popJumpIf onTrue => exact fails_conditionalJump onTrue
  | jumpAbsolute => exact fails_absoluteJump
  | jumpForward => exact fails_forwardJump
  | importName => exact fails_importName hop
  | importFrom => exact .ok _
  | importStar => exact .ok _
  | raiseVarargs => exact fails_raiseVarargs
  | callFunction => exact fails_call
  | callFunctionKw => exact fails_callKeywords
  | callFunctionEx => exact fails_callSpread
  | makeFunction => exact fails_makeFunction
  | listAppend => exact fails_accumulate "append"
  | setAdd => exact fails_accumulate "add"
  | mapAdd => exact fails_accumulateEntry
  | unpackSequence => exact fails_unpackSequence
  | unpackEx => exact fails_unpackEx
  | compareOp => exact fails_compareOp
  | isOp => exact fails_compareWith "is" "is not"
  | containsOp => exact fails_compareWith "in" "not in"
  | binarySubscr => exact fails_combine _
  | storeSubscr => exact fails_storeSubscript
  | unary op => exact fails_wrap _
  | binary op => exact fails_combine _
  | inplace op => exact fails_inplace op
  | nop => exact .ok _
  | popTop => exact .ok _

theorem fails_step :
    Fails (fun e => ins.opcode? ≠ none ∧ Blamed ins ahead e) (step flags code ins ahead state) := by
  refine .bind (fun e he => ?_) fun _ _ => .ok _
  unfold effect at he
  split at he
  · cases he
  · next op hop => exact ⟨by simp [hop], fails_opcodeEffect hop e he⟩

/-- What is blamed is in the code, is recognised, and is told by what the error carries. -/
theorem Blames.culprit {culprit : Instruction} {e : Error} {n : Nat}
    (h : Blames ins (code.drop (n + 1)) culprit e) (hins : code[n]? = some ins)
    (hop : ins.opcode? ≠ none) :
    culprit ∈ code ∧ culprit.opcode? ≠ none ∧ culprit.offset = e.offset ∧
      ∀ opname ∈ e.opname?, culprit.opname = opname := by
  have hmem : ins ∈ code := List.mem_of_getElem? hins
  cases h with
  | missingName himport hread hnone =>
      obtain ⟨hahead, hnames⟩ := mem_readByImport hread
      exact ⟨List.mem_of_mem_drop hahead, hnames.opcode?_ne_none, rfl,
        fun _ h => Option.some.inj h⟩
  | malformedUnpack => exact ⟨hmem, hop, rfl, nofun⟩
  | underflow => exact ⟨hmem, hop, rfl, fun _ h => Option.some.inj h⟩
  | unexpectedEnd => exact ⟨hmem, hop, rfl, fun _ h => Option.some.inj h⟩
  | missingArgument => exact ⟨hmem, hop, rfl, fun _ h => Option.some.inj h⟩
  | invalidTarget => exact ⟨hmem, hop, rfl, fun _ h => Option.some.inj h⟩

/-! ### The whole run -/

variable {e : Error}

/-- Where a reconstruction fails, the error tells of an instruction of the code that is recognised, by
its offset and, unless it is about an unpacking, by its mnemonic. It is the instruction whose step
fails, except that an import may miss the name of an `IMPORT_FROM` or of a store that it reads ahead. -/
theorem exists_culprit (h : reconstruct flags code = .error e) :
    ∃ n state past ins, Arrives flags code n state past ∧ code[n]? = some ins ∧
      ins.opcode? ≠ none ∧ step flags code ins (code.drop (n + 1)) state = .error e ∧
      ∃ culprit ∈ code, culprit.opcode? ≠ none ∧ culprit.offset = e.offset ∧
        (∀ opname ∈ e.opname?, culprit.opname = opname) ∧
        Blames ins (code.drop (n + 1)) culprit e ∧
        (culprit = ins ∨ e = .missingArgument culprit.offset culprit.opname ∧
          ins.opcode? = some .importName ∧ NamesImport culprit ∧
          culprit ∈ readByImport (code.drop (n + 1))) := by
  have hrun : run flags code = .error e := by
    unfold reconstruct at h
    cases hrun : run flags code with
    | error e' =>
        rw [hrun] at h
        cases h
        rfl
    | ok last =>
        rw [hrun] at h
        cases h
  obtain ⟨n, state, past, ins, harrives, hins, hstep⟩ := exists_failing_step hrun
  obtain ⟨hop, culprit, hblames⟩ := fails_step e hstep
  obtain ⟨hmem, hrecognised, hoffset, hopname⟩ := hblames.culprit hins hop
  refine ⟨n, state, past, ins, harrives, hins, hop, hstep, culprit, hmem, hrecognised, hoffset,
    hopname, hblames, ?_⟩
  cases hblames with
  | missingName himport hread hnone => exact .inr ⟨rfl, himport, (mem_readByImport hread).2, hread⟩
  | _ => exact .inl rfl

/-- The second name of an import has no store that binds it to anything. The import fails, and the
store is to blame. -/
theorem exists_culprit_unnamed :
    let source : Instruction := { offset := 10, opname := "IMPORT_FROM", argval := some "b" }
    let store : Instruction := { offset := 12, opname := "STORE_NAME", arg := some 3 }
    let code : Code :=
      [{ offset := 0, opname := "LOAD_CONST", argval := some "0" },
        { offset := 2, opname := "LOAD_CONST", argval := some "('a', 'b')" },
        { offset := 4, opname := "IMPORT_NAME", argval := some "m" },
        { offset := 6, opname := "IMPORT_FROM", argval := some "a" },
        { offset := 8, opname := "STORE_NAME", argval := some "a" }, source, store]
    reconstruct {} code = .error (.missingArgument 12 "STORE_NAME") ∧
      ∃ n state past ins, Arrives {} code n state past ∧ code[n]? = some ins ∧
        ∃ culprit ∈ code, culprit.offset = 12 ∧ culprit.opname = "STORE_NAME" ∧
          Blames ins (code.drop (n + 1)) culprit (.missingArgument 12 "STORE_NAME") := by
  intro source store code
  have herror : reconstruct {} code = .error (.missingArgument 12 "STORE_NAME") := by rfl
  obtain ⟨n, state, past, ins, h, hins, -, -, culprit, hmem, -, hoffset, hopname, hblames, -⟩ :=
    exists_culprit herror
  exact ⟨herror, n, state, past, ins, h, hins, culprit, hmem, hoffset, hopname _ rfl, hblames⟩

end Walk

end Decompiler
