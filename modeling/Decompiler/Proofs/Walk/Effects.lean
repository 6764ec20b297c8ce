import Decompiler.Proofs.Walk.Operands

/-!
What an effect can be. Nearly every opcode leaves a node in place of its operands and does nothing
else. Blocks are opened by an iteration, a test and a jump forward, and `form_effect` says once for
all in which ways; whatever is told of the level of indentation is told of these few forms.
-/

namespace Decompiler

def Node.isHead : Node → Bool
  | .forHead _ _ | .whileHead _ | .ifHead _ | .elifHead _ | .elseHead => true
  | _ => false

/-- Whether an opcode meets no names, takes in no other instructions and opens no block. -/
def Opcode.isPlain : Opcode → Bool
  | .load _ | .store | .inplace _ | .unpackSequence | .unpackEx | .importName => false
  | .forIter | .popJumpIf _ | .jumpForward => false
  | _ => true

namespace Instruction

variable {ins : Instruction} {op : Opcode}

theorem isConditionalJump_eq_true :
    ins.isConditionalJump = true ↔ ∃ onTrue, ins.opcode? = some (.popJumpIf onTrue) := by
  simp [isConditionalJump, is, or_comm]

theorem isConditionalJump_eq_false (hop : ins.opcode? = some op)
    (h : ∀ onTrue, op ≠ .popJumpIf onTrue) : ins.isConditionalJump = false := by
  rw [Bool.eq_false_iff, Ne, isConditionalJump_eq_true]
  rintro ⟨onTrue, htest⟩
  rw [hop, Option.some.injEq] at htest
  exact h onTrue htest

end Instruction

namespace Walk

namespace Effect

/-- An effect that mentions no name and takes in no other instruction. -/
def Silent (effect : Effect) : Prop := effect.mentions = [] ∧ effect.swallows = 0

/-- An effect that opens no block and calls no dedent off. -/
structure Flat (effect : Effect) : Prop where
  shift : effect.shift = 0
  level : effect.level = 0
  closes : effect.closes = none
  cancels : effect.cancels = none
  push : ∀ node, effect.push = some node → node.isHead = false

structure Plain (effect : Effect) : Prop where
  flat : effect.Flat
  silent : effect.Silent

theorem plain_default : ({} : Effect).Plain := ⟨⟨rfl, rfl, rfl, rfl, nofun⟩, rfl, rfl⟩

theorem plain_replace (pops : Nat) {node : Node} (h : node.isHead = false) :
    (replace pops node).Plain := by
  refine ⟨⟨rfl, rfl, rfl, rfl, ?_⟩, rfl, rfl⟩
  rintro _ ⟨⟩
  exact h

theorem plain_placeholder (ins : Instruction) : (placeholder ins).Plain := plain_replace 0 rfl

theorem silent_block (pops : Nat) (head : Node) (closes : Option Nat) :
    (block pops head closes).Silent := ⟨rfl, rfl⟩

variable {effect : Effect}

/-- Which operands are taken off and which names are met does not matter to the level. -/
theorem Flat.congr (h : effect.Flat) (pops : Nat) (mentions : List Mention) (swallows : Nat) :
    { effect with pops, mentions, swallows }.Flat :=
  ⟨h.shift, h.level, h.closes, h.cancels, h.push⟩

theorem Plain.pops (h : effect.Plain) (pops : Nat) : { effect with pops }.Plain :=
  ⟨h.flat.congr pops effect.mentions effect.swallows, h.silent⟩

end Effect

variable {flags : Flags} {code : Code} {ins : Instruction} {ahead : Code} {state : State}

/-! ### Expressions and simple statements -/

theorem plain_wrap {node : Node → Node} (h : ∀ value, (node value).isHead = false) :
    Yields Effect.Plain (wrap ins state node) :=
  .bind fun _ _ => .ok (Effect.plain_replace _ (h _))

theorem plain_combine {node : Node → Node → Node} (h : ∀ a b, (node a b).isHead = false) :
    Yields Effect.Plain (combine ins state node) :=
  .bind fun _ _ => .ok (Effect.plain_replace _ (h _ _))

theorem plain_attributeOf : Yields Effect.Plain (attributeOf ins state) := by
  unfold attributeOf
  split
  · exact .ok (Effect.plain_placeholder ins)
  · exact plain_wrap fun _ => rfl

theorem plain_build (kind : Container) : Yields Effect.Plain (build ins kind state) :=
  .bind fun _ _ => .bind fun _ _ => .ok (Effect.plain_replace _ rfl)

theorem plain_buildMap : Yields Effect.Plain (buildMap ins state) :=
  .bind fun _ _ => .bind fun _ _ => .ok (Effect.plain_replace _ rfl)

theorem plain_buildSlice : Yields Effect.Plain (buildSlice ins state) := by
  refine .bind fun _ _ => ?_
  split
  · exact .bind fun _ _ => .ok (Effect.plain_replace _ rfl)
  · exact plain_combine fun _ _ => rfl

theorem plain_compareOp : Yields Effect.Plain (compareOp ins state) := by
  unfold compareOp
  split
  · exact .ok (Effect.plain_placeholder ins)
  · exact plain_combine fun _ _ => rfl

theorem plain_compareWith (plain negated : String) :
    Yields Effect.Plain (compareWith ins plain negated state) :=
  .bind fun _ _ => plain_combine fun _ _ => rfl

theorem plain_subscripted : Yields Effect.Plain (combine ins state subscripted) := by
  refine plain_combine fun value index => ?_
  unfold subscripted
  split
  · rfl
  · rfl

theorem plain_storeSubscript : Yields Effect.Plain (storeSubscript ins state) :=
  .bind fun _ _ => .ok (Effect.plain_replace _ rfl)

theorem plain_raiseVarargs : Yields Effect.Plain (raiseVarargs ins state) := by
  refine .bind fun arg _ => ?_
  split
  · exact .ok (Effect.plain_replace _ rfl)
  · exact plain_wrap fun _ => rfl
  · exact plain_combine fun _ _ => rfl
  · exact .ok (Effect.plain_placeholder ins)

theorem plain_returnValue : Yields Effect.Plain (returnValue flags ins state) := by
  unfold returnValue
  split
  · exact .ok (Effect.plain_replace _ rfl)
  · exact plain_wrap fun _ => rfl

theorem plain_accumulate (method : String) :
    Yields Effect.Plain (accumulate flags ins method state) := by
  unfold accumulate
  split
  · exact plain_wrap fun _ => rfl
  · exact .ok (Effect.plain_placeholder ins)

theorem plain_accumulateEntry : Yields Effect.Plain (accumulateEntry flags ins state) := by
  unfold accumulateEntry
  split
  · exact plain_combine fun _ _ => rfl
  · exact .ok (Effect.plain_placeholder ins)

/-! ### Calls -/

theorem plain_call : Yields Effect.Plain (call ins state) :=
  .bind fun _ _ => .bind fun _ _ => .bind fun _ _ => .ok (Effect.plain_replace _ rfl)

theorem plain_callKeywords : Yields Effect.Plain (callKeywords ins state) := by
  refine .bind fun argc _ => ?_
  split
  · split
    · exact .ok (Effect.plain_placeholder ins)
    · exact .bind fun _ _ => .bind fun _ _ => .bind fun _ _ => .ok (Effect.plain_replace _ rfl)
  · exact .ok (Effect.plain_placeholder ins)

theorem plain_callSpread : Yields Effect.Plain (callSpread ins state) := by
  refine .bind fun arg _ => ?_
  split
  · exact .bind fun _ _ => .ok (Effect.plain_replace _ rfl)
  · exact .bind fun _ _ => .ok (Effect.plain_replace _ rfl)

theorem plain_makeFunction : Yields Effect.Plain (makeFunction ins state) := by
  refine .bind fun arg _ => .bind fun ⟨code, _⟩ _ => .bind fun _ _ => .ok ?_
  split
  · exact (Effect.plain_placeholder ins).pops _
  · exact (Effect.plain_replace 0 rfl).pops _
  · exact (Effect.plain_replace 0 rfl).pops _

/-! ### Names and the instructions that store them -/

theorem flat_load (global : Bool) : (load flags ins global).Flat := by
  unfold load
  split
  · exact (Effect.plain_placeholder ins).flat
  · exact (Effect.plain_replace 0 rfl).flat.congr _ _ _

theorem flat_store : Yields Effect.Flat (store ins state) :=
  .bind fun _ _ => .bind fun _ _ => .ok ((Effect.plain_replace 1 rfl).flat.congr _ _ _)

theorem flat_inplace (op : BinaryOperator) : Yields Effect.Flat (inplace ins op ahead state) := by
  unfold inplace
  split
  · exact .ok (Effect.plain_placeholder ins).flat
  · exact .bind fun _ _ => .ok ((Effect.plain_replace 2 rfl).flat.congr _ _ _)

theorem flat_unpackSequence : Yields Effect.Flat (unpackSequence ins ahead state) := by
  refine .bind fun value _ => ?_
  split
  · exact .ok (Effect.plain_replace 1 rfl).flat
  · exact .ok ((Effect.plain_replace 1 rfl).flat.congr _ _ _)

theorem flat_unpackEx : Yields Effect.Flat (unpackEx ins ahead state) := by
  refine .bind fun arg _ => ?_
  dsimp only
  split
  · exact .error _
  · exact .bind fun _ _ => .ok ((Effect.plain_replace 1 rfl).flat.congr _ _ _)

theorem flat_importForm (module : String) : Yields Effect.Flat (importForm ins module ahead) := by
  match ahead with
  | [] => exact .error _
  | next :: ahead =>
      rw [importForm]
      split
      · exact .bind fun _ _ => .ok ((Effect.plain_replace 2 rfl).flat.congr _ _ _)
      · dsimp only
        split
        · exact .ok ((Effect.plain_replace 2 rfl).flat.congr _ _ _)
        · refine .bind fun names _ => ?_
          split
          · exact .ok ((Effect.plain_placeholder ins).pops 2).flat
          · exact .ok ((Effect.plain_replace 2 rfl).flat.congr _ _ _)
      · exact .ok ((Effect.plain_replace 2 rfl).flat.congr _ _ _)
      · exact .ok ((Effect.plain_placeholder ins).pops 2).flat

theorem flat_importName : Yields Effect.Flat (importName ins ahead state) := by
  refine .bind fun module _ => .bind fun ⟨level, _⟩ _ => ?_
  dsimp only
  split
  · exact flat_importForm module
  · exact .ok ((Effect.plain_placeholder ins).pops 2).flat

/-! ### Jumps -/

theorem plain_absoluteJump : Yields Effect.Plain (absoluteJump flags code ins state) := by
  refine .bind fun target _ => ?_
  split
  · exact .ok (Effect.plain_replace _ rfl)
  · split
    · exact .ok Effect.plain_default
    · repeat' split
      all_goals first | exact .ok Effect.plain_default | exact .ok (Effect.plain_replace _ rfl)

theorem silent_branch (condition : Node) (target : Nat) :
    (branch code ins condition target state).Silent := by
  unfold branch
  split
  · split
    · exact Effect.silent_block _ _ _
    · split
      · exact ⟨rfl, rfl⟩
      · exact Effect.silent_block _ _ _
  · exact Effect.silent_block _ _ _

theorem silent_conditionalJump (onTrue : Bool) :
    Yields Effect.Silent (conditionalJump flags code ins onTrue state) := by
  refine .bind fun test _ => .bind fun target _ => ?_
  split
  · exact .ok (Effect.plain_replace _ rfl).silent
  · exact .ok (silent_branch _ _)

theorem silent_forwardJump : Yields Effect.Silent (forwardJump flags ins) := by
  refine .bind fun target _ => ?_
  split
  · exact .ok (Effect.plain_replace _ rfl).silent
  · exact .ok ⟨rfl, rfl⟩

/-- Most opcodes do no more than put a node in place of operands. -/
theorem plain_opcodeEffect {op : Opcode} (hop : op.isPlain = true) :
    Yields Effect.Plain (opcodeEffect flags code ins ahead state op) := by
  cases op with
  | load global => cases hop
  | store => cases hop
  | inplace op => cases hop
  | unpackSequence => cases hop
  | unpackEx => cases hop
  | forIter => cases hop
  | importName => cases hop
  | popJumpIf onTrue => cases hop
  | jumpForward => cases hop
  | loadAttr => exact plain_attributeOf
  | returnValue => exact plain_returnValue
  | yieldValue => exact plain_wrap fun _ => rfl
  | build kind => exact plain_build kind
  | buildMap => exact plain_buildMap
  | buildSlice => exact plain_buildSlice
  | getIter => exact plain_wrap fun _ => rfl
  | jumpAbsolute => exact plain_absoluteJump
  | raiseVarargs => exact plain_raiseVarargs
  | callFunction => exact plain_call
  | callFunctionKw => exact plain_callKeywords
  | callFunctionEx => exact plain_callSpread
  | makeFunction => exact plain_makeFunction
  | listAppend => exact plain_accumulate "append"
  | setAdd => exact plain_accumulate "add"
  | mapAdd => exact plain_accumulateEntry
  | compareOp => exact plain_compareOp
  | isOp => exact plain_compareWith "is" "is not"
  | containsOp => exact plain_compareWith "in" "not in"
  | binarySubscr => exact plain_subscripted
  | storeSubscr => exact plain_storeSubscript
  | unary op => exact plain_wrap fun _ => rfl
  | binary op => exact plain_combine fun _ _ => rfl
  | importFrom => exact .ok (Effect.plain_placeholder ins)
  | importStar => exact .ok (Effect.plain_placeholder ins)
  | nop => exact .ok Effect.plain_default
  | popTop => exact .ok Effect.plain_default

/-! ### Blocks -/

/-- The effects that an instruction can have, by the block that it opens. -/
inductive Effect.Form (flags : Flags) (code : Code) (ins : Instruction) (state : State) :
    Effect → Prop
  | flat {effect : Effect} (h : effect.Flat)
      (hop : flags.rawJumps = false → ins.isConditionalJump = false) :
      Form flags code ins state effect
  | forLoop (target iterator : Node) (stop : Nat) (mentions : List Mention) (swallows : Nat)
      (hop : ins.opcode? = some .forIter) (hstop : ins.jumpTarget? = some stop) :
      Form flags code ins state
        { Effect.block 1 (.forHead target iterator) (some stop) with mentions, swallows }
  | whileLoop (onTrue : Bool) (condition : Node) (target : Nat) (hraw : flags.rawJumps = false)
      (hop : ins.opcode? = some (.popJumpIf onTrue)) (htarget : ins.jumpTarget? = some target)
      (hforward : ins.offset < target) (hwhile : code.headsWhile ins.offset target = true) :
      Form flags code ins state (.block 1 (.whileHead condition) (some target))
  | elifBranch (onTrue : Bool) (condition : Node) (target stop : Nat)
      (hraw : flags.rawJumps = false) (hop : ins.opcode? = some (.popJumpIf onTrue))
      (htarget : ins.jumpTarget? = some target) (hforward : ins.offset < target)
      (hwhile : code.headsWhile ins.offset target = false)
      (hstop : elseEnd? code state.indent (state.stack.drop 1) target = some stop) :
      Form flags code ins state
        { Effect.replace 2 (.elifHead condition) with
          shift := -1
          closes := some target
          cancels := some stop }
  | ifBranch (onTrue : Bool) (condition : Node) (target : Nat) (hraw : flags.rawJumps = false)
      (hop : ins.opcode? = some (.popJumpIf onTrue)) (htarget : ins.jumpTarget? = some target)
      (hforward : ins.offset < target)
      (hwhile : code.headsWhile ins.offset target = false) :
      Form flags code ins state (.block 1 (.ifHead condition) (some target))
  | lastBranch (onTrue : Bool) (condition : Node) (target : Nat) (hraw : flags.rawJumps = false)
      (hop : ins.opcode? = some (.popJumpIf onTrue)) (htarget : ins.jumpTarget? = some target)
      (hback : target ≤ ins.offset) :
      Form flags code ins state (.block 1 (.ifHead condition) (code.loopEnd? ins.offset target))
  | elseBranch (target : Nat) (hraw : flags.rawJumps = false)
      (hop : ins.opcode? = some .jumpForward) (htarget : ins.jumpTarget? = some target) :
      Form flags code ins state
        { Effect.block 0 .elseHead (some target) with shift := -1 }

theorem form_forLoop (hop : ins.opcode? = some .forIter) :
    Yields (Effect.Form flags code ins state) (forLoop ins ahead state) := by
  refine .bind fun stop hstop => ?_
  split
  · exact .error _
  · split
    · exact .ok (.flat (Effect.plain_placeholder ins).flat fun _ =>
        Instruction.isConditionalJump_eq_false hop nofun)
    · exact .bind fun _ _ =>
        .ok (.forLoop _ _ _ _ _ hop (Instruction.requireTarget_eq_ok.mp hstop))

theorem form_conditionalJump {onTrue : Bool} (hop : ins.opcode? = some (.popJumpIf onTrue)) :
    Yields (Effect.Form flags code ins state) (conditionalJump flags code ins onTrue state) := by
  refine .bind fun test _ => .bind fun target htarget => ?_
  have htarget := Instruction.requireTarget_eq_ok.mp htarget
  split
  · next hraw =>
    refine .ok (.flat (Effect.plain_replace _ rfl).flat fun hstructured => ?_)
    rw [hstructured] at hraw
    cases hraw
  · next hraw =>
    have hraw : flags.rawJumps = false := by simpa using hraw
    refine .ok ?_
    unfold branch
    split
    · next hforward =>
      split
      · next hwhile => exact .whileLoop onTrue _ target hraw hop htarget hforward hwhile
      · next hwhile =>
        have hwhile : code.headsWhile ins.offset target = false := by simpa using hwhile
        split
        · next stop hstop =>
          exact .elifBranch onTrue _ target stop hraw hop htarget hforward hwhile hstop
        · exact .ifBranch onTrue _ target hraw hop htarget hforward hwhile
    · next hback =>
      exact .lastBranch onTrue _ target hraw hop htarget (Nat.le_of_not_lt hback)

theorem form_forwardJump (hop : ins.opcode? = some .jumpForward) :
    Yields (Effect.Form flags code ins state) (forwardJump flags ins) := by
  refine .bind fun target htarget => ?_
  split
  · exact .ok (.flat (Effect.plain_replace _ rfl).flat fun _ =>
      Instruction.isConditionalJump_eq_false hop nofun)
  · next hraw =>
    exact .ok (.elseBranch target (by simpa using hraw) hop
      (Instruction.requireTarget_eq_ok.mp htarget))

theorem form_opcodeEffect {op : Opcode} (hop : ins.opcode? = some op) :
    Yields (Effect.Form flags code ins state) (opcodeEffect flags code ins ahead state op) := by
  have flat {x : Except Error Effect} (h : Yields Effect.Flat x)
      (hno : ∀ onTrue, op ≠ .popJumpIf onTrue) :
      Yields (Effect.Form flags code ins state) x := fun effect heffect =>
    .flat (h effect heffect) fun _ => Instruction.isConditionalJump_eq_false hop hno
  by_cases hplain : op.isPlain = true
  · refine flat (fun effect heffect => (plain_opcodeEffect hplain effect heffect).flat) ?_
    rintro onTrue rfl
    cases hplain
  · cases op with
    | forIter => exact form_forLoop hop
    | popJumpIf onTrue => exact form_conditionalJump hop
    | jumpForward => exact form_forwardJump hop
    | load global => exact flat (.ok (flat_load global)) nofun
    | store => exact flat flat_store nofun
    | inplace op => exact flat (flat_inplace op) nofun
    | unpackSequence => exact flat flat_unpackSequence nofun
    | unpackEx => exact flat flat_unpackEx nofun
    | importName => exact flat flat_importName nofun
    | _ => exact absurd rfl hplain

theorem form_effect :
    Yields (Effect.Form flags code ins state) (effect flags code ins ahead state) := by
  unfold effect
  split
  · next hop =>
    refine .ok (.flat (Effect.plain_placeholder ins).flat fun _ => ?_)
    simp [Instruction.isConditionalJump, Instruction.is, hop]
  · next op hop => exact form_opcodeEffect hop

end Walk

end Decompiler
