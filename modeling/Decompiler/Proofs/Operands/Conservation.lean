import Decompiler.Proofs.Operands.Leaves
import Decompiler.Proofs.Walk.Course

/-!
Conservation of operands. A step takes operands off the top of the stack and puts one node in their
place, which is made of the same leaves in the same order; only a load brings a new leaf. So all
operands together are made of what has been loaded: nothing is lost, made twice or put elsewhere. This
is so of whatever the code loads and in whatever order it combines it. It is not so of imports, of
functions that are made, of the names of keywords and of operations in place, which drop operands.
-/

namespace Decompiler

/-- Whether what an opcode takes off the stack goes into what it leaves there. -/
def Opcode.keepsOperands : Opcode → Bool
  | .importName | .makeFunction | .callFunctionKw | .inplace _ => false
  | _ => true

def Instruction.loaded? (flags : Flags) (ins : Instruction) : Option String :=
  match ins.opcode? with
  | some (.load _) => ins.argval.map (Walk.loadedName flags)
  | _ => none

namespace Instruction

variable {flags : Flags} {ins : Instruction}

theorem loaded?_eq_none (h : ∀ global, ins.opcode? ≠ some (.load global)) :
    ins.loaded? flags = none := by
  unfold loaded?
  split
  · next global hop => exact absurd hop (h global)
  · rfl

/-- No load is taken in by the step of another instruction. -/
theorem loaded?_of_isFollower (h : ins.isFollower = true) : ins.loaded? flags = none := by
  refine loaded?_eq_none fun global hop => ?_
  have hname : ins.opname ≠ "ROT_TWO" := by
    intro hname
    rw [opcode?, hname] at hop
    exact absurd hop (by decide +revert)
  simp [isFollower, isStore, is, hop, hname] at h

end Instruction

namespace Walk

/-- An effect whose node is made of the operands that it takes off the stack and of what is loaded. -/
def Effect.Conserves (stack : List Statement) (loaded : Option String) (effect : Effect) : Prop :=
  Replaces (effect.push.elim [] Node.leaves)
    (leavesOf (stack.take effect.pops) ++ (loaded.map Leaf.name).toList)

variable {flags : Flags} {code : Code} {ins : Instruction} {ahead : Code} {state : State}
  {stack : List Statement}

namespace Effect

theorem conserves_default : Conserves stack none {} := Replaces.refl []

variable {effect : Effect} {node : Node}

theorem Conserves.of_replaces {operands : List Leaf} (hpush : effect.push = some node)
    (hoperands : leavesOf (stack.take effect.pops) = operands) (h : Replaces node.leaves operands) :
    effect.Conserves stack none := by
  rw [Conserves, hpush, hoperands, Option.map_none, Option.toList_none, List.append_nil]
  exact h

theorem Conserves.of_eq (hpush : effect.push = some node)
    (hoperands : leavesOf (stack.take effect.pops) = node.leaves) : effect.Conserves stack none :=
  .of_replaces hpush hoperands (Replaces.refl _)

theorem conserves_placeholder (ins : Instruction) : (placeholder ins).Conserves stack none :=
  .of_eq rfl rfl

end Effect

/-! ### Operands -/

theorem leavesOf_of_operand {value : Node} (h : operand ins stack = .ok value) :
    leavesOf (stack.take 1) = value.leaves := by
  match stack, h with
  | top :: below, h =>
      cases h
      simp [leavesOf]

theorem leavesOf_of_operands2 {left right : Node} (h : operands2 ins stack = .ok (left, right)) :
    leavesOf (stack.take 2) = left.leaves ++ right.leaves := by
  match stack, h with
  | top :: next :: below, h =>
      cases h
      simp [leavesOf]

theorem leavesOf_of_operands3 {first second third : Node}
    (h : operands3 ins stack = .ok (first, second, third)) :
    leavesOf (stack.take 3) = first.leaves ++ second.leaves ++ third.leaves := by
  match stack, h with
  | top :: next :: other :: below, h =>
      cases h
      simp [leavesOf]

theorem leavesOf_of_operands {count : Nat} {nodes : List Node}
    (h : operands ins count stack = .ok nodes) :
    leavesOf (stack.take count) = nodes.flatMap Node.leaves := by
  unfold operands at h
  split at h
  · cases h
    rw [leavesOf, List.flatMap_map]
  · cases h

/-! ### Expressions and simple statements -/

theorem conserves_wrap {node : Node → Node} (h : ∀ value, (node value).leaves = value.leaves) :
    Yields (Effect.Conserves state.stack none) (wrap ins state node) :=
  .bind fun value hvalue =>
    .ok (.of_eq rfl ((leavesOf_of_operand hvalue).trans (h value).symm))

theorem conserves_combine {node : Node → Node → Node}
    (h : ∀ left right, Replaces (node left right).leaves (left.leaves ++ right.leaves)) :
    Yields (Effect.Conserves state.stack none) (combine ins state node) :=
  .bind fun ⟨left, right⟩ hoperands =>
    .ok (.of_replaces rfl (leavesOf_of_operands2 hoperands) (h left right))

theorem conserves_attributeOf :
    Yields (Effect.Conserves state.stack none) (attributeOf ins state) := by
  unfold attributeOf
  split
  · exact .ok (Effect.conserves_placeholder ins)
  · exact conserves_wrap fun _ => rfl

theorem conserves_build (kind : Container) :
    Yields (Effect.Conserves state.stack none) (build ins kind state) :=
  .bind fun _ _ => .bind fun items hitems =>
    .ok (.of_eq rfl ((leavesOf_of_operands hitems).trans (Node.listLeaves_eq items).symm))

theorem conserves_buildMap : Yields (Effect.Conserves state.stack none) (buildMap ins state) :=
  .bind fun _ _ => .bind fun items hitems =>
    .ok (.of_eq rfl ((leavesOf_of_operands hitems).trans (Node.listLeaves_eq items).symm))

theorem conserves_buildSlice :
    Yields (Effect.Conserves state.stack none) (buildSlice ins state) := by
  refine .bind fun count _ => ?_
  split
  · exact .bind fun ⟨start, stop, step⟩ hoperands =>
      .ok (.of_replaces rfl (leavesOf_of_operands3 hoperands) (Replaces.sliceOf start stop (some step)))
  · refine conserves_combine fun start stop => ?_
    have h := Replaces.sliceOf start stop none
    rwa [Node.optionLeaves, List.append_nil] at h

theorem conserves_compareOp : Yields (Effect.Conserves state.stack none) (compareOp ins state) := by
  unfold compareOp
  split
  · exact .ok (Effect.conserves_placeholder ins)
  · exact conserves_combine fun _ _ => Replaces.refl _

theorem conserves_compareWith (plain negated : String) :
    Yields (Effect.Conserves state.stack none) (compareWith ins plain negated state) :=
  .bind fun _ _ => conserves_combine fun _ _ => Replaces.refl _

/-- A slice between the brackets is taken apart, and its bounds stay in their order. -/
theorem conserves_subscripted :
    Yields (Effect.Conserves state.stack none) (combine ins state subscripted) := by
  refine conserves_combine fun value index => ?_
  unfold subscripted
  split
  · exact Replaces.refl _
  · exact Replaces.refl _

theorem conserves_storeSubscript :
    Yields (Effect.Conserves state.stack none) (storeSubscript ins state) :=
  .bind fun _ hoperands => .ok (.of_eq rfl (leavesOf_of_operands3 hoperands))

theorem conserves_raiseVarargs :
    Yields (Effect.Conserves state.stack none) (raiseVarargs ins state) := by
  refine .bind fun arg _ => ?_
  split
  · exact .ok (.of_eq rfl rfl)
  · exact conserves_wrap fun value => List.append_nil value.leaves
  · exact conserves_combine fun _ _ => Replaces.refl _
  · exact .ok (Effect.conserves_placeholder ins)

theorem conserves_returnValue (hflags : flags.comprehension = false) :
    Yields (Effect.Conserves state.stack none) (returnValue flags ins state) := by
  rw [returnValue, if_neg (by simp [hflags])]
  exact conserves_wrap fun _ => rfl

theorem conserves_accumulate (hflags : flags.comprehension = false) (method : String) :
    Yields (Effect.Conserves state.stack none) (accumulate flags ins method state) := by
  rw [accumulate, if_neg (by simp [hflags])]
  exact .ok (Effect.conserves_placeholder ins)

theorem conserves_accumulateEntry (hflags : flags.comprehension = false) :
    Yields (Effect.Conserves state.stack none) (accumulateEntry flags ins state) := by
  rw [accumulateEntry, if_neg (by simp [hflags])]
  exact .ok (Effect.conserves_placeholder ins)

/-! ### Names, calls and jumps -/

theorem conserves_load (global : Bool) :
    (load flags ins global).Conserves stack (ins.argval.map (loadedName flags)) := by
  unfold load
  split
  · next hval =>
    rw [hval]
    exact Effect.conserves_placeholder ins
  · next hval =>
    rw [hval]
    exact Replaces.refl _

theorem conserves_store : Yields (Effect.Conserves state.stack none) (store ins state) := by
  refine .bind fun name _ => .bind fun value hvalue => ?_
  have hleaves := leavesOf_of_operand hvalue
  exact .ok (.of_eq rfl hleaves)

theorem conserves_unpackSequence :
    Yields (Effect.Conserves state.stack none) (unpackSequence ins ahead state) := by
  refine .bind fun value hvalue => ?_
  have hleaves := leavesOf_of_operand hvalue
  split
  · exact .ok (.of_eq rfl hleaves)
  · exact .ok (.of_eq rfl hleaves)

theorem conserves_unpackEx :
    Yields (Effect.Conserves state.stack none) (unpackEx ins ahead state) := by
  refine .bind fun arg _ => ?_
  dsimp only
  split
  · exact .error _
  · refine .bind fun value hvalue => ?_
    have hleaves := leavesOf_of_operand hvalue
    exact .ok (.of_eq rfl hleaves)

/-- The function lies below its arguments. -/
theorem conserves_call : Yields (Effect.Conserves state.stack none) (call ins state) := by
  refine .bind fun argc _ => .bind fun args hargs => .bind fun func hfunc => .ok (.of_eq rfl ?_)
  have htake : state.stack.take (argc + 1) =
      state.stack.take argc ++ (state.stack.drop argc).take 1 := List.take_add
  show leavesOf (state.stack.take (argc + 1)) = func.leaves ++ Node.listLeaves args ++ []
  rw [htake, leavesOf_append, leavesOf_of_operands hargs, leavesOf_of_operand hfunc,
    Node.listLeaves_eq, List.append_nil]

theorem conserves_callSpread : Yields (Effect.Conserves state.stack none) (callSpread ins state) := by
  refine .bind fun arg _ => ?_
  split
  · refine .bind fun nodes hoperands => ?_
    obtain ⟨func, args, kwargs⟩ := nodes
    refine .ok (.of_eq rfl ((leavesOf_of_operands3 hoperands).trans ?_))
    simp [Node.leaves, Node.listLeaves, Node.keywordLeaves]
  · refine .bind fun nodes hoperands => ?_
    obtain ⟨func, args⟩ := nodes
    refine .ok (.of_eq rfl ((leavesOf_of_operands2 hoperands).trans ?_))
    simp [Node.leaves, Node.listLeaves, Node.keywordLeaves]

theorem conserves_forLoop : Yields (Effect.Conserves state.stack none) (forLoop ins ahead state) := by
  refine .bind fun stop _ => ?_
  split
  · exact .error _
  · split
    · exact .ok (Effect.conserves_placeholder ins)
    · refine .bind fun iterator hiterator => .ok (.of_eq rfl ?_)
      have hiterated : (iterated iterator).leaves = iterator.leaves := by
        unfold iterated
        split
        · rfl
        · rfl
      exact (leavesOf_of_operand hiterator).trans hiterated.symm

/-- An `else` that an `elif` takes the place of has no leaves. -/
theorem leavesOf_of_elseEnd? {level : Int} {target stop : Nat}
    (h : elseEnd? code level (stack.drop 1) target = some stop) :
    leavesOf (stack.take 2) = leavesOf (stack.take 1) := by
  have htake : stack.take (1 + 1) = stack.take 1 ++ (stack.drop 1).take 1 := List.take_add
  unfold elseEnd? at h
  split at h
  · next margin offset below hdrop =>
    rw [htake, hdrop, leavesOf_append]
    rfl
  · cases h

theorem conserves_branch {condition : Node} {target : Nat}
    (h : leavesOf (state.stack.take 1) = condition.leaves) :
    (branch code ins condition target state).Conserves state.stack none := by
  unfold branch
  split
  · split
    · exact .of_eq rfl h
    · split
      · next stop hstop => exact .of_eq rfl ((leavesOf_of_elseEnd? hstop).trans h)
      · exact .of_eq rfl h
  · exact .of_eq rfl h

theorem conserves_conditionalJump (onTrue : Bool) :
    Yields (Effect.Conserves state.stack none) (conditionalJump flags code ins onTrue state) := by
  refine .bind fun test htest => .bind fun target _ => ?_
  have hwhen (wanted : Bool) : leavesOf (state.stack.take 1) =
      (if wanted then test else .negation test).leaves := by
    rw [leavesOf_of_operand htest]
    cases wanted with
    | true => rfl
    | false => rfl
  split
  · exact .ok (.of_eq rfl (hwhen onTrue))
  · exact .ok (conserves_branch (hwhen !onTrue))

theorem conserves_absoluteJump :
    Yields (Effect.Conserves state.stack none) (absoluteJump flags code ins state) := by
  refine .bind fun target _ => ?_
  split
  · exact .ok (.of_eq rfl rfl)
  · split
    · exact .ok Effect.conserves_default
    · repeat' split
      all_goals first | exact .ok (.of_eq rfl rfl) | exact .ok Effect.conserves_default

theorem conserves_forwardJump :
    Yields (Effect.Conserves stack none) (forwardJump flags ins) := by
  refine .bind fun target _ => ?_
  split
  · exact .ok (.of_eq rfl rfl)
  · exact .ok (.of_eq rfl rfl)

/-! ### One step -/

theorem conserves_opcodeEffect (hflags : flags.comprehension = false) {op : Opcode}
    (hkeeps : op.keepsOperands = true) (hload : ∀ global, op ≠ .load global) :
    Yields (Effect.Conserves state.stack none) (opcodeEffect flags code ins ahead state op) := by
  cases op with
  | importName => cases hkeeps
  | makeFunction => cases hkeeps
  | callFunctionKw => cases hkeeps
  | inplace op => cases hkeeps
  | load global => exact absurd rfl (hload global)
  | loadAttr => exact conserves_attributeOf
  | store => exact conserves_store
  | returnValue => exact conserves_returnValue hflags
  | yieldValue => exact conserves_wrap fun _ => rfl
  | build kind => exact conserves_build kind
  | buildMap => exact conserves_buildMap
  | buildSlice => exact conserves_buildSlice
  | getIter => exact conserves_wrap fun _ => rfl
  | forIter => exact conserves_forLoop
  | popJumpIf onTrue => exact conserves_conditionalJump onTrue
  | jumpAbsolute => exact conserves_absoluteJump
  | jumpForward => exact conserves_forwardJump
  | raiseVarargs => exact conserves_raiseVarargs
  | callFunction => exact conserves_call
  | callFunctionEx => exact conserves_callSpread
  | listAppend => exact conserves_accumulate hflags "append"
  | setAdd => exact conserves_accumulate hflags "add"
  | mapAdd => exact conserves_accumulateEntry hflags
  | unpackSequence => exact conserves_unpackSequence
  | unpackEx => exact conserves_unpackEx
  | compareOp => exact conserves_compareOp
  | isOp => exact conserves_compareWith "is" "is not"
  | containsOp => exact conserves_compareWith "in" "not in"
  | binarySubscr => exact conserves_subscripted
  | storeSubscr => exact conserves_storeSubscript
  | unary op => exact conserves_wrap fun _ => rfl
  | binary op => exact conserves_combine fun _ _ => Replaces.refl _
  | importFrom => exact .ok (Effect.conserves_placeholder ins)
  | importStar => exact .ok (Effect.conserves_placeholder ins)
  | nop => exact .ok Effect.conserves_default
  | popTop => exact .ok Effect.conserves_default

theorem conserves_effect (hflags : flags.comprehension = false)
    (hkeeps : ∀ op ∈ ins.opcode?, op.keepsOperands = true) :
    Yields (Effect.Conserves state.stack (ins.loaded? flags))
      (effect flags code ins ahead state) := by
  unfold effect
  split
  · next hop =>
    have hloaded : ins.loaded? flags = none := by rw [Instruction.loaded?, hop]
    rw [hloaded]
    exact .ok (Effect.conserves_placeholder ins)
  · next op hop =>
    by_cases hload : ∃ global, op = .load global
    · obtain ⟨global, rfl⟩ := hload
      have hloaded : ins.loaded? flags = ins.argval.map (loadedName flags) := by
        rw [Instruction.loaded?, hop]
      rw [hloaded]
      exact .ok (conserves_load global)
    · have hnot : ∀ global, op ≠ .load global := fun global heq => hload ⟨global, heq⟩
      have hloaded : ins.loaded? flags = none := Instruction.loaded?_eq_none fun global hglobal =>
        hnot global (Option.some.inj (hop.symm.trans hglobal))
      rw [hloaded]
      exact conserves_opcodeEffect hflags (hkeeps op hop) hnot

/-! ### A run -/

/-- The instructions that a step takes in load nothing. -/
theorem loads_of_takesIn {n : Nat} {effect : Effect} (hins : code[n]? = some ins)
    (h : effect.TakesIn (code.drop (n + 1))) :
    (code.take (n + 1 + effect.swallows)).filterMap (Instruction.loaded? flags) =
      (code.take n).filterMap (Instruction.loaded? flags) ++ (ins.loaded? flags).toList := by
  have hnone : ((code.drop (n + 1)).take effect.swallows).filterMap (Instruction.loaded? flags) =
      [] :=
    List.filterMap_eq_nil_iff.mpr fun other hother =>
      Instruction.loaded?_of_isFollower (h.followers other hother)
  rw [List.take_add, List.filterMap_append, hnone, List.append_nil, List.take_add_one, hins,
    List.filterMap_append]
  cases hloaded : ins.loaded? flags with
  | none => simp [hloaded]
  | some text => simp [hloaded]

theorem leavesOf_apply (offset : Nat) (effect : Effect) :
    leavesOf (state.apply offset effect).stack =
      leavesOf (state.stack.drop effect.pops) ++ effect.push.elim [] Node.leaves := by
  rw [State.apply, leavesOf_append]
  cases effect.push with
  | none => rfl
  | some node => simp [leavesOf]

theorem standFor_step {n skip : Nat} {next : State} (hflags : flags.comprehension = false)
    (hkeeps : ∀ op ∈ ins.opcode?, op.keepsOperands = true) (hins : code[n]? = some ins)
    (hstep : step flags code ins (code.drop (n + 1)) state = .ok (next, skip))
    (h : StandFor (leavesOf state.stack) ((code.take n).filterMap (Instruction.loaded? flags))) :
    StandFor (leavesOf next.stack)
      ((code.take (n + 1 + skip)).filterMap (Instruction.loaded? flags)) := by
  obtain ⟨effect, heffect, rfl, rfl⟩ := step_eq_ok.mp hstep
  have hconserves := conserves_effect hflags hkeeps effect heffect
  have hloaded : StandFor ((ins.loaded? flags).map Leaf.name).toList (ins.loaded? flags).toList := by
    cases ins.loaded? flags with
    | none => exact .nil
    | some text => exact .name text .nil
  rw [loads_of_takesIn hins (takesIn_effect effect heffect), leavesOf_apply]
  refine (Replaces.append (Replaces.refl _) hconserves) _ ?_
  rw [← List.append_assoc, leavesOf_take_append_drop, State.settle_stack]
  exact h.append hloaded

/-- All operands together are made of what has been loaded so far. -/
theorem operands_conserved (hflags : flags.comprehension = false)
    (hkeeps : ∀ ins ∈ code, ∀ op ∈ ins.opcode?, op.keepsOperands = true) {n : Nat}
    {past : List Instruction} (h : Arrives flags code n state past) :
    StandFor (leavesOf state.stack) ((code.take n).filterMap (Instruction.loaded? flags)) := by
  induction h with
  | start => exact .nil
  | step _ hins hstep ih =>
      rw [State.leave, if_neg (by simp [hflags])]
      exact standFor_step hflags (hkeeps _ (List.mem_of_getElem? hins)) hins hstep ih

/-- A subscript with a slice is unpacked, and a constant waits. The start of the slice is a `None` that
was loaded, and its step has never been given. -/
theorem operands_conserved_slice :
    let code : Code :=
      [{ offset := 0, opname := "LOAD_NAME", argval := some "items" },
        { offset := 2, opname := "LOAD_CONST", argval := some "None" },
        { offset := 4, opname := "LOAD_FAST", argval := some ".0" },
        { offset := 6, opname := "BUILD_SLICE", arg := some 2 },
        { offset := 8, opname := "BINARY_SUBSCR" },
        { offset := 10, opname := "UNPACK_SEQUENCE", arg := some 2 },
        { offset := 12, opname := "STORE_NAME", argval := some "a" },
        { offset := 14, opname := "STORE_NAME", argval := some "b" },
        { offset := 16, opname := "LOAD_CONST", argval := some "None" }]
    let flags : Flags := { generatorExpression := true }
    flags.comprehension = false ∧
      (∀ ins ∈ code, ∀ op ∈ ins.opcode?, op.keepsOperands = true) ∧
      ∃ state past, Arrives flags code 9 state past ∧
        leavesOf state.stack =
          [.name "items", .bound, .name "__0", .step, .name "None"] ∧
        StandFor (leavesOf state.stack) ["items", "None", "__0", "None"] := by
  intro code flags
  have hkeeps : ∀ ins ∈ code, ∀ op ∈ ins.opcode?, op.keepsOperands = true := by decide
  have h₀ : Arrives flags code 0 {} [] := .start
  have h₃ := ((h₀.step rfl rfl).step rfl rfl).step rfl rfl
  have h₅ := (h₃.step rfl rfl).step rfl rfl
  have h₉ := (h₅.step rfl rfl).step rfl rfl
  exact ⟨rfl, hkeeps, _, _, h₉, rfl, operands_conserved rfl hkeeps h₉⟩

end Walk

end Decompiler
