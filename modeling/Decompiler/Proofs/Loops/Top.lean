import Decompiler.Proofs.Loops.Exits

/-!
The node on top of the stack, as jumps look at it. Nearly every instruction puts a node there, and
no node but that of a jump is a `break`. So a `break` stays on top only behind instructions that may
put nothing.
-/

namespace Decompiler

/-- Whether an instruction may put nothing on the stack. -/
def Opcode.isIdle : Opcode → Bool
  | .nop | .popTop | .jumpAbsolute => true
  | _ => false

def Instruction.isIdle (ins : Instruction) : Bool := ins.opcode?.any Opcode.isIdle

namespace Code

/-- A jump that becomes a `break`. -/
def IsExit (code : Code) (jump : Instruction) : Prop :=
  jump.opcode? = some .jumpAbsolute ∧ ∃ target, jump.jumpTarget? = some target ∧
    code.GoesOut jump target

theorem IsExit.isIdle {code : Code} {ins : Instruction} (h : code.IsExit ins) :
    ins.isIdle = true := by
  rw [Instruction.isIdle, h.1]
  rfl

end Code

namespace Walk

theorem isBreak_cons (top : Statement) (below : List Statement) :
    isBreak (top :: below) = true ↔ top.node = .breakStmt := by
  obtain ⟨level, node, offset⟩ := top
  cases node <;> simp [isBreak]

variable {flags : Flags} {code : Code} {ins : Instruction} {ahead : Code} {n : Nat}
  {state : State}

/-- An effect that puts a node other than `break`. -/
def Effect.Covers (effect : Effect) : Prop := ∃ node, effect.push = some node ∧ node ≠ .breakStmt

namespace Effect

theorem covers_placeholder (ins : Instruction) : (placeholder ins).Covers := ⟨_, rfl, nofun⟩

theorem Covers.isBreak_apply {effect : Effect} (h : effect.Covers) (state : State) (offset : Nat) :
    isBreak (state.apply offset effect).stack = false := by
  obtain ⟨node, hpush, hnode⟩ := h
  rw [Bool.eq_false_iff, Ne, State.apply, hpush]
  exact fun hbreak => hnode ((isBreak_cons _ _).mp hbreak)

end Effect

/-! ### What covers a `break` -/

theorem covers_wrap {node : Node → Node} (h : ∀ value, node value ≠ .breakStmt) :
    Yields Effect.Covers (wrap ins state node) :=
  .bind fun _ _ => .ok ⟨_, rfl, h _⟩

theorem covers_combine {node : Node → Node → Node} (h : ∀ a b, node a b ≠ .breakStmt) :
    Yields Effect.Covers (combine ins state node) :=
  .bind fun _ _ => .ok ⟨_, rfl, h _ _⟩

theorem covers_attributeOf : Yields Effect.Covers (attributeOf ins state) := by
  unfold attributeOf
  split
  · exact .ok (Effect.covers_placeholder ins)
  · exact covers_wrap fun _ => nofun

theorem covers_load (global : Bool) : (load flags ins global).Covers := by
  unfold load
  split
  · exact Effect.covers_placeholder ins
  · exact ⟨_, rfl, nofun⟩

theorem covers_buildSlice : Yields Effect.Covers (buildSlice ins state) := by
  refine .bind fun _ _ => ?_
  split
  · exact .bind fun _ _ => .ok ⟨_, rfl, nofun⟩
  · exact covers_combine fun _ _ => nofun

theorem covers_compareOp : Yields Effect.Covers (compareOp ins state) := by
  unfold compareOp
  split
  · exact .ok (Effect.covers_placeholder ins)
  · exact covers_combine fun _ _ => nofun

theorem covers_subscripted : Yields Effect.Covers (combine ins state subscripted) := by
  refine covers_combine fun value index => ?_
  unfold subscripted
  split
  · nofun
  · nofun

theorem covers_raiseVarargs : Yields Effect.Covers (raiseVarargs ins state) := by
  refine .bind fun arg _ => ?_
  split
  · exact .ok ⟨_, rfl, nofun⟩
  · exact covers_wrap fun _ => nofun
  · exact covers_combine fun _ _ => nofun
  · exact .ok (Effect.covers_placeholder ins)

theorem covers_returnValue : Yields Effect.Covers (returnValue flags ins state) := by
  unfold returnValue
  split
  · exact .ok ⟨_, rfl, nofun⟩
  · exact covers_wrap fun _ => nofun

theorem covers_accumulate (method : String) :
    Yields Effect.Covers (accumulate flags ins method state) := by
  unfold accumulate
  split
  · exact covers_wrap fun _ => nofun
  · exact .ok (Effect.covers_placeholder ins)

theorem covers_accumulateEntry : Yields Effect.Covers (accumulateEntry flags ins state) := by
  unfold accumulateEntry
  split
  · exact covers_combine fun _ _ => nofun
  · exact .ok (Effect.covers_placeholder ins)

theorem covers_inplace (op : BinaryOperator) :
    Yields Effect.Covers (inplace ins op ahead state) := by
  unfold inplace
  split
  · exact .ok (Effect.covers_placeholder ins)
  · exact .bind fun _ _ => .ok ⟨_, rfl, nofun⟩

theorem covers_unpackSequence : Yields Effect.Covers (unpackSequence ins ahead state) := by
  refine .bind fun value _ => ?_
  split
  · exact .ok ⟨_, rfl, nofun⟩
  · exact .ok ⟨_, rfl, nofun⟩

theorem covers_unpackEx : Yields Effect.Covers (unpackEx ins ahead state) := by
  refine .bind fun arg _ => ?_
  dsimp only
  split
  · exact .error _
  · exact .bind fun _ _ => .ok ⟨_, rfl, nofun⟩

theorem covers_importForm (module : String) :
    Yields Effect.Covers (importForm ins module ahead) := by
  match ahead with
  | [] => exact .error _
  | next :: ahead =>
      rw [importForm]
      split
      · exact .bind fun _ _ => .ok ⟨_, rfl, by simp [importModule]⟩
      · dsimp only
        split
        · exact .ok ⟨_, rfl, by simp⟩
        · refine .bind fun names _ => ?_
          split
          · exact .ok ⟨_, rfl, by simp⟩
          · exact .ok ⟨_, rfl, by simp⟩
      · exact .ok ⟨_, rfl, by simp⟩
      · exact .ok ⟨_, rfl, by simp⟩

theorem covers_importName : Yields Effect.Covers (importName ins ahead state) := by
  refine .bind fun module _ => .bind fun ⟨level, _⟩ _ => ?_
  dsimp only
  split
  · exact covers_importForm module
  · exact .ok ⟨_, rfl, nofun⟩

theorem covers_callKeywords : Yields Effect.Covers (callKeywords ins state) := by
  refine .bind fun argc _ => ?_
  split
  · split
    · exact .ok (Effect.covers_placeholder ins)
    · exact .bind fun _ _ => .bind fun _ _ => .bind fun _ _ => .ok ⟨_, rfl, nofun⟩
  · exact .ok (Effect.covers_placeholder ins)

theorem covers_callSpread : Yields Effect.Covers (callSpread ins state) := by
  refine .bind fun arg _ => ?_
  split
  · exact .bind fun _ _ => .ok ⟨_, rfl, nofun⟩
  · exact .bind fun _ _ => .ok ⟨_, rfl, nofun⟩

theorem covers_makeFunction : Yields Effect.Covers (makeFunction ins state) := by
  refine .bind fun arg _ => .bind fun ⟨code, _⟩ _ => .bind fun _ _ => .ok ?_
  split
  · exact ⟨_, rfl, nofun⟩
  · exact ⟨_, rfl, nofun⟩
  · exact ⟨_, rfl, nofun⟩

theorem covers_forLoop : Yields Effect.Covers (forLoop ins ahead state) := by
  refine .bind fun stop _ => ?_
  split
  · exact .error _
  · split
    · exact .ok (Effect.covers_placeholder ins)
    · exact .bind fun _ _ => .ok ⟨_, rfl, nofun⟩

theorem covers_branch (condition : Node) (target : Nat) :
    (branch code ins condition target state).Covers := by
  unfold branch
  split
  · split
    · exact ⟨_, rfl, nofun⟩
    · split
      · exact ⟨_, rfl, nofun⟩
      · exact ⟨_, rfl, nofun⟩
  · exact ⟨_, rfl, nofun⟩

theorem covers_conditionalJump (onTrue : Bool) :
    Yields Effect.Covers (conditionalJump flags code ins onTrue state) := by
  refine .bind fun test _ => .bind fun target _ => ?_
  split
  · exact .ok ⟨_, rfl, nofun⟩
  · exact .ok (covers_branch _ _)

theorem covers_forwardJump : Yields Effect.Covers (forwardJump flags ins) := by
  refine .bind fun target _ => ?_
  split
  · exact .ok ⟨_, rfl, nofun⟩
  · exact .ok ⟨_, rfl, nofun⟩

theorem covers_opcodeEffect {op : Opcode} (hop : op.isIdle = false) :
    Yields Effect.Covers (opcodeEffect flags code ins ahead state op) := by
  cases op with
  | nop => cases hop
  | popTop => cases hop
  | jumpAbsolute => cases hop
  | loadAttr => exact covers_attributeOf
  | load global => exact .ok (covers_load global)
  | store => exact .bind fun _ _ => .bind fun _ _ => .ok ⟨_, rfl, nofun⟩
  | returnValue => exact covers_returnValue
  | yieldValue => exact covers_wrap fun _ => nofun
  | build kind => exact .bind fun _ _ => .bind fun _ _ => .ok ⟨_, rfl, nofun⟩
  | buildMap => exact .bind fun _ _ => .bind fun _ _ => .ok ⟨_, rfl, nofun⟩
  | buildSlice => exact covers_buildSlice
  | getIter => exact covers_wrap fun _ => nofun
  | forIter => exact covers_forLoop
  | popJumpIf onTrue => exact covers_conditionalJump onTrue
  | jumpForward => exact covers_forwardJump
  | importName => exact covers_importName
  | raiseVarargs => exact covers_raiseVarargs
  | callFunction => exact .bind fun _ _ => .bind fun _ _ => .bind fun _ _ => .ok ⟨_, rfl, nofun⟩
  | callFunctionKw => exact covers_callKeywords
  | callFunctionEx => exact covers_callSpread
  | makeFunction => exact covers_makeFunction
  | listAppend => exact covers_accumulate "append"
  | setAdd => exact covers_accumulate "add"
  | mapAdd => exact covers_accumulateEntry
  | unpackSequence => exact covers_unpackSequence
  | unpackEx => exact covers_unpackEx
  | compareOp => exact covers_compareOp
  | isOp => exact .bind fun _ _ => covers_combine fun _ _ => nofun
  | containsOp => exact .bind fun _ _ => covers_combine fun _ _ => nofun
  | binarySubscr => exact covers_subscripted
  | storeSubscr => exact .bind fun _ _ => .ok ⟨_, rfl, nofun⟩
  | unary op => exact covers_wrap fun _ => nofun
  | binary op => exact covers_combine fun _ _ => nofun
  | inplace op => exact covers_inplace op
  | importFrom => exact .ok (Effect.covers_placeholder ins)
  | importStar => exact .ok (Effect.covers_placeholder ins)

theorem covers_effect (hidle : ins.isIdle = false) :
    Yields Effect.Covers (effect flags code ins ahead state) := by
  unfold effect
  split
  · exact .ok (Effect.covers_placeholder ins)
  · next op hop =>
    rw [Instruction.isIdle, hop, Option.any_some] at hidle
    exact covers_opcodeEffect hidle

/-! ### What stands on top of the stack -/

/-- What may put nothing takes nothing off the stack and takes in no other instruction. -/
theorem idle_effect (hidle : ins.isIdle = true) :
    Yields (fun effect : Effect => effect.pops = 0 ∧ effect.swallows = 0)
      (effect flags code ins ahead state) := by
  unfold Instruction.isIdle at hidle
  obtain ⟨op, hop, hidle⟩ := Option.any_eq_true .. |>.mp hidle
  simp only [effect, hop]
  cases op with
  | nop => exact .ok ⟨rfl, rfl⟩
  | popTop => exact .ok ⟨rfl, rfl⟩
  | jumpAbsolute =>
      refine .bind fun target _ => ?_
      split
      · exact .ok ⟨rfl, rfl⟩
      · split
        · exact .ok ⟨rfl, rfl⟩
        · repeat' split
          all_goals exact .ok ⟨rfl, rfl⟩
  | _ => cases hidle

/-- An absolute jump leaves a `break` on top of the stack if it goes out or has found one there. -/
theorem isBreak_apply_jump (hraw : flags.rawJumps = false) (hcode : code.Increasing)
    (hins : ins ∈ code) (hop : ins.opcode? = some .jumpAbsolute) {effect : Effect}
    (heffect : Walk.effect flags code ins ahead state = .ok effect) :
    isBreak (state.apply ins.offset effect).stack = true ↔
      code.IsExit ins ∨ isBreak state.stack = true := by
  have hpops : effect.pops = 0 :=
    (idle_effect (by rw [Instruction.isIdle, hop]; rfl) effect heffect).1
  rw [effect_absoluteJump hop] at heffect
  obtain ⟨target, htarget, -⟩ := bind_eq_ok.mp heffect
  have htarget := Instruction.requireTarget_eq_ok.mp htarget
  have hexit : code.IsExit ins ↔ code.GoesOut ins target := by
    simp [Code.IsExit, hop, htarget]
  obtain ⟨other, hother, hpush, hcontinue, hbreak⟩ :=
    push_absoluteJump state hraw hcode hins htarget
  obtain rfl : effect = other := Except.ok.inj (heffect.symm.trans hother)
  rw [hexit, ← hbreak, State.apply, hpops]
  rcases hpush with hpush | hpush | hpush
  · simp [hpush]
  · -- a `continue` is put only where no `break` stands on top
    have htop := (hcontinue.mp hpush).1
    simp [hpush, isBreak_cons, htop]
  · simp [hpush, isBreak_cons]

/-- After a step a `break` stands on top of the stack if the step has put it there, or if it stood
there before and the instruction may put nothing. -/
theorem isBreak_apply (hraw : flags.rawJumps = false) (hcode : code.Increasing) (hins : ins ∈ code)
    {effect : Effect} (heffect : Walk.effect flags code ins ahead state = .ok effect) :
    isBreak (state.apply ins.offset effect).stack = true ↔
      code.IsExit ins ∨ ins.isIdle = true ∧ isBreak state.stack = true := by
  cases hidle : ins.isIdle with
  | false =>
      have hexit : ¬code.IsExit ins := fun h => by
        rw [h.isIdle] at hidle
        cases hidle
      have hcovers := (covers_effect hidle effect heffect).isBreak_apply state ins.offset
      simp [hexit, hcovers]
  | true =>
      by_cases hop : ins.opcode? = some .jumpAbsolute
      · rw [isBreak_apply_jump hraw hcode hins hop heffect]
        simp
      · have hnone : effect = {} := by
          obtain ⟨op, hins, hidle⟩ := Option.any_eq_true .. |>.mp hidle
          simp only [Walk.effect, hins] at heffect
          cases op with
          | nop => exact (Except.ok.inj heffect).symm
          | popTop => exact (Except.ok.inj heffect).symm
          | jumpAbsolute => exact absurd hins hop
          | _ => cases hidle
        simp [Code.IsExit, hop, hnone, State.apply]

theorem isBreak_collect (state : State) (offset : Nat) :
    isBreak (state.collect offset).stack = false := by
  cases hstack : state.stack with
  | nil => simp [State.collect, hstack, isBreak]
  | cons top below => simp [State.collect, hstack, isBreak]

/-- In a comprehension the first node becomes part of an assignment, even if it is a `break`. -/
theorem isBreak_leave (hraw : flags.rawJumps = false) (hcode : code.Increasing)
    (hins : code[n]? = some ins) {next : State} {skip : Nat}
    (hstep : step flags code ins (code.drop (n + 1)) state = .ok (next, skip)) :
    isBreak (next.leave flags n ins.offset).stack = true ↔
      (n = 0 → flags.comprehension = false) ∧
        (code.IsExit ins ∨ ins.isIdle = true ∧ isBreak state.stack = true) := by
  obtain ⟨effect, heffect, rfl, rfl⟩ := step_eq_ok.mp hstep
  have happly := isBreak_apply hraw hcode (List.mem_of_getElem? hins) heffect
  rw [State.settle_stack] at happly
  unfold State.leave
  split
  · next hfirst => simp [isBreak_collect, hfirst]
  · next hfirst =>
    rw [happly]
    refine ⟨fun h => ⟨fun hn => ?_, h⟩, And.right⟩
    exact Bool.eq_false_iff.mpr fun hcomprehension => hfirst ⟨hn, hcomprehension⟩

end Walk

end Decompiler
