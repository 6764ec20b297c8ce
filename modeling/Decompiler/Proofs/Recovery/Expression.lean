import Decompiler.Proofs.Recovery.Keywords
import Decompiler.Proofs.Walk.Pushing

/-!
Expressions are recovered. The walk over the code of an expression leaves the node of the expression
on the stack, wherever the code stands and whatever is known already.
-/

namespace Decompiler

/-- How a run reads expressions. The operands of `BUILD_MAP` are kept in the order in which they are computed,
and a key is computed before its value. -/
def Reading.built (flags : Flags) : Reading := { spell := Walk.loadedName flags, keysFirst := true }

@[simp] theorem Reading.entry_built (flags : Flags) (key value : Node) :
    (Reading.built flags).entry key value = [key, value] := rfl

namespace Expr

open Walk

/-! ### Slices -/

theorem bound?_tree (r : Reading) (e : Expr) :
    (e.tree r).bound? = e.bound r.spell (e.tree r) := by
  cases e with
  | subscript value index => cases index <;> rfl
  | load source text => simp [tree, Node.bound?, bound, isNone]
  | _ => rfl

theorem tree_subscript (r : Reading) (value index : Expr) :
    (subscript value index).tree r = subscripted (value.tree r) (index.tree r) := by
  cases index with
  | subscript value index => cases index <;> rfl
  | _ => rfl

/-! ### Readings -/

theorem trees_congr {r r' : Reading} {items : List Expr} (h : ∀ e ∈ items, e.tree r = e.tree r') :
    trees r items = trees r' items := by
  rw [trees_eq, trees_eq, List.map_congr_left h]

/-- An expression without entries is read in the same way by all who spell alike. -/
theorem tree_congr {r r' : Reading} (hspell : r.spell = r'.spell) {e : Expr}
    (h : EntryFree e.ops) : e.tree r = e.tree r' := by
  induction e using Expr.induction with
  | load source text => rw [tree, tree, hspell]
  | member object name hobject =>
      rw [ops, EntryFree.append_iff] at h
      rw [tree, tree, hobject h.1]
  | call func args hfunc hargs =>
      simp only [ops, allOps_eq, EntryFree.append_iff, EntryFree.flatMap_iff] at h
      rw [tree, tree, hfunc h.1.1, trees_congr fun e he => hargs e he (h.1.2 e he)]
  | methodCall object name args hobject hargs =>
      simp only [ops, allOps_eq, EntryFree.append_iff, EntryFree.flatMap_iff] at h
      rw [tree, tree, hobject h.1.1.1, trees_congr fun e he => hargs e he (h.1.2 e he)]
  | keywordCall func args kwargs hfunc hargs hkwargs =>
      simp only [ops, allOps_eq, keywordOps_eq, EntryFree.append_iff, EntryFree.flatMap_iff] at h
      obtain ⟨⟨⟨⟨hfunc', hargs'⟩, hkwargs'⟩, -⟩, -⟩ := h
      have hkeywords : keywordTrees r kwargs = keywordTrees r' kwargs := by
        rw [keywordTrees_eq, keywordTrees_eq]
        exact List.map_congr_left fun keyword hmem => by
          rw [hkwargs keyword hmem (hkwargs' keyword hmem)]
      rw [tree, tree, hfunc hfunc', trees_congr fun e he => hargs e he (hargs' e he), hkeywords]
  | spreadCall func args hfunc hargs =>
      simp only [ops, EntryFree.append_iff] at h
      rw [tree, tree, hfunc h.1.1, hargs h.1.2]
  | fullCall func args kwargs hfunc hargs hkwargs =>
      simp only [ops, EntryFree.append_iff] at h
      rw [tree, tree, hfunc h.1.1.1, hargs h.1.1.2, hkwargs h.1.2]
  | unary op operand hoperand =>
      rw [ops, EntryFree.append_iff] at h
      rw [tree, tree, hoperand h.1]
  | binary op left right hleft hright
  | comparison op left right hleft hright
  | identity negated left right hleft hright
  | membership negated left right hleft hright =>
      simp only [ops, EntryFree.append_iff] at h
      rw [tree, tree, hleft h.1.1, hright h.1.2]
  | display kind items hitems =>
      simp only [ops, allOps_eq, EntryFree.append_iff, EntryFree.flatMap_iff] at h
      rw [tree, tree, trees_congr fun e he => hitems e he (h.1 e he)]
  | dict entries hentries =>
      rw [ops, EntryFree.append_iff, EntryFree.cons_iff] at h
      have hcount : entries.length = 0 := (Operation.counted.inj (h.2.1 rfl)).2
      rw [List.eq_nil_of_length_eq_zero hcount]
      rfl
  | subscript value index hvalue hindex =>
      simp only [ops, EntryFree.append_iff] at h
      rw [tree_subscript, tree_subscript, hvalue h.1.1, hindex h.1.2]
  | slice start stop hstart hstop =>
      simp only [ops, EntryFree.append_iff] at h
      rw [tree, tree, hstart h.1.1, hstop h.1.2, hspell]
  | steppedSlice start stop step hstart hstop hstep =>
      simp only [ops, EntryFree.append_iff] at h
      rw [tree, tree, hstart h.1.1.1, hstop h.1.1.2, hstep h.1.2, hspell]

end Expr

namespace Walk

/-! ### One operation -/

variable {flags : Flags} {ops more rest : List Operation} {left right last : Node}
  {nodes : List Node}

theorem pushes_wrap {op : Operation} (node : Node → Node) (h : Pushes flags ops left)
    (heffect : ∀ code ins ahead state, op.Fits ins →
      Walk.effect flags code ins ahead state = wrap ins state node) :
    Pushes flags (ops ++ [op]) (node left) := by
  refine h.all.finish fun code ins ahead state below hfits hstack => ?_
  rw [heffect code ins ahead state hfits, wrap, operand_of_map ins hstack]
  rfl

theorem pushes_combine {op : Operation} (node : Node → Node → Node)
    (hleft : Pushes flags ops left) (hright : Pushes flags more right)
    (heffect : ∀ code ins ahead state, op.Fits ins →
      Walk.effect flags code ins ahead state = combine ins state node) :
    Pushes flags (ops ++ more ++ [op]) (node left right) := by
  refine (hleft.all.append hright.all).finish fun code ins ahead state below hfits hstack => ?_
  rw [heffect code ins ahead state hfits, combine, operands2_of_map ins hstack]
  rfl

theorem pushes_attribute {mnemonic : String} (hname : Opcode.ofName? mnemonic = some .loadAttr)
    (name : String) (h : Pushes flags ops left) :
    Pushes flags (ops ++ [.named mnemonic name]) (.attribute left name) := by
  refine pushes_wrap (.attribute · name) h fun code ins ahead state hfits => ?_
  have hval : ins.argval = some name := hfits.operands
  rw [effect_of_fits hfits hname, opcodeEffect, attributeOf, hval]

theorem pushes_call {mnemonic : String} (hname : Opcode.ofName? mnemonic = some .callFunction)
    (hfunc : Pushes flags ops left) (hargs : PushesAll flags more nodes) :
    Pushes flags (ops ++ more ++ [.counted mnemonic nodes.length]) (.call left nodes []) := by
  refine (hfunc.all.append hargs).finish fun code ins ahead state below hfits hstack => ?_
  have harg : ins.arg = some nodes.length := hfits.operands
  have hstack : state.stack.map Statement.node = nodes.reverse ++ (left :: below) := by
    rw [hstack]
    simp
  rw [effect_of_fits hfits hname, opcodeEffect, call, Instruction.requireArg_eq_ok.mpr harg,
    ok_bind, operands_of_map ins hstack, ok_bind, operand_of_map ins (map_drop_of_map hstack)]
  simp [pure, Except.pure, ok_bind]

theorem loadedName_listedNames (flags : Flags) (names : List Keyword) :
    loadedName flags (Expr.listedNames names) = Expr.listedNames names := by
  simp [loadedName, Expr.listedNames]

theorem pushes_keywordCall (names : List Keyword) {values : List Node}
    (hfunc : Pushes flags ops left) (hargs : PushesAll flags more nodes)
    (hvalues : PushesAll flags rest values) (hlength : names.length = values.length) :
    Pushes flags
      (ops ++ more ++ rest ++ [.named "LOAD_CONST" (Expr.listedNames names)] ++
        [.counted "CALL_FUNCTION_KW" (nodes.length + values.length)])
      (.call left nodes ((names.map Keyword.text).zip values)) := by
  have hnames := (pushes_load flags .const (Expr.listedNames names)).all
  rw [loadedName_listedNames] at hnames
  refine (((hfunc.all.append hargs).append hvalues).append hnames).finish
    fun code ins ahead state below hfits hstack => ?_
  have harg : ins.arg = some (nodes.length + values.length) := hfits.operands
  obtain ⟨top, others, htop, hnode, hothers⟩ := List.map_eq_cons_iff.mp
    (show state.stack.map Statement.node = .atom (Expr.listedNames names) ::
        (values.reverse ++ (nodes.reverse ++ (left :: below))) by
      rw [hstack]
      simp)
  obtain ⟨indent, node, offset⟩ := top
  cases hnode
  -- below the names on the stack are the values, the arguments and the function
  have hargs := map_drop_of_map hothers
  have hfunc := map_drop_of_map hargs
  rw [List.drop_drop] at hfunc
  have hpositional : nodes.length + values.length - names.length = nodes.length := by omega
  have hpops : 1 + values.length + nodes.length + 1 =
      ([left] ++ nodes ++ values ++ [Node.atom (Expr.listedNames names)]).length := by
    simp only [List.length_append, List.length_singleton]
    omega
  have hop : (Operation.counted "CALL_FUNCTION_KW" (nodes.length + values.length)).opcode? =
      some .callFunctionKw := rfl
  rw [effect_of_fits hfits hop, opcodeEffect, callKeywords, Instruction.requireArg_eq_ok.mpr harg,
    ok_bind, htop]
  simp only [nameTuple?_listedNames, List.length_map, hpositional]
  rw [hlength, operands_of_map ins hothers, ok_bind, operands_of_map ins hargs, ok_bind,
    operand_of_map ins hfunc, ok_bind, hpops]
  rfl

theorem pushes_spreadCall (hfunc : Pushes flags ops left) (hargs : Pushes flags more right) :
    Pushes flags (ops ++ more ++ [.counted "CALL_FUNCTION_EX" 0])
      (.call left [.splat right] []) := by
  refine pushes_combine (fun func args => .call func [.splat args] []) hfunc hargs
    fun code ins ahead state hfits => ?_
  have harg : ins.arg = some 0 := hfits.operands
  have hop : (Operation.counted "CALL_FUNCTION_EX" 0).opcode? = some .callFunctionEx := rfl
  rw [effect_of_fits hfits hop, opcodeEffect, callSpread, Instruction.requireArg_eq_ok.mpr harg,
    ok_bind]
  rfl

theorem pushes_fullCall (hfunc : Pushes flags ops left) (hargs : Pushes flags more right)
    (hkwargs : Pushes flags rest last) :
    Pushes flags (ops ++ more ++ rest ++ [.counted "CALL_FUNCTION_EX" 1])
      (.call left [.splat right, .doubleSplat last] []) := by
  refine ((hfunc.all.append hargs.all).append hkwargs.all).finish
    fun code ins ahead state below hfits hstack => ?_
  have harg : ins.arg = some 1 := hfits.operands
  have hop : (Operation.counted "CALL_FUNCTION_EX" 1).opcode? = some .callFunctionEx := rfl
  rw [effect_of_fits hfits hop, opcodeEffect, callSpread, Instruction.requireArg_eq_ok.mpr harg,
    ok_bind, if_pos (by decide), operands3_of_map ins hstack]
  rfl

/-- A comparison that the argument of its instruction negates. -/
theorem pushes_compareWith {mnemonic plain other : String} {opcode : Opcode} (negated : Bool)
    (hname : Opcode.ofName? mnemonic = some opcode)
    (hopcode : ∀ code ins ahead state,
      opcodeEffect flags code ins ahead state opcode = compareWith ins plain other state)
    (hleft : Pushes flags ops left) (hright : Pushes flags more right) :
    Pushes flags (ops ++ more ++ [.counted mnemonic negated.toNat])
      (.comparison (if negated then other else plain) left right) := by
  refine pushes_combine (.comparison (if negated then other else plain)) hleft hright
    fun code ins ahead state hfits => ?_
  have harg : ins.arg = some negated.toNat := hfits.operands
  rw [effect_of_fits hfits hname, hopcode, compareWith, Instruction.requireArg_eq_ok.mpr harg,
    ok_bind]
  cases negated <;> rfl

theorem pushes_display (kind : Container) (h : PushesAll flags ops nodes) :
    Pushes flags (ops ++ [.counted kind.mnemonic nodes.length]) (.display kind nodes) := by
  refine h.finish fun code ins ahead state below hfits hstack => ?_
  have harg : ins.arg = some nodes.length := hfits.operands
  rw [effect_of_fits hfits (Container.ofName?_mnemonic kind), opcodeEffect, build,
    Instruction.requireArg_eq_ok.mpr harg, ok_bind, operands_of_map ins hstack]
  rfl

theorem pushes_dict (count : Nat) (h : PushesAll flags ops nodes)
    (hcount : nodes.length = 2 * count) :
    Pushes flags (ops ++ [.counted "BUILD_MAP" count]) (.dict nodes) := by
  refine h.finish fun code ins ahead state below hfits hstack => ?_
  have harg : ins.arg = some count := hfits.operands
  have hop : (Operation.counted "BUILD_MAP" count).opcode? = some .buildMap := rfl
  rw [effect_of_fits hfits hop, opcodeEffect, buildMap, Instruction.requireArg_eq_ok.mpr harg,
    ok_bind, ← hcount, operands_of_map ins hstack]
  rfl

theorem pushes_slice (hleft : Pushes flags ops left) (hright : Pushes flags more right) :
    Pushes flags (ops ++ more ++ [.counted "BUILD_SLICE" 2]) (.sliceOf left right none) := by
  refine pushes_combine (fun start stop => .sliceOf start stop none) hleft hright
    fun code ins ahead state hfits => ?_
  have harg : ins.arg = some 2 := hfits.operands
  have hop : (Operation.counted "BUILD_SLICE" 2).opcode? = some .buildSlice := rfl
  rw [effect_of_fits hfits hop, opcodeEffect, buildSlice, Instruction.requireArg_eq_ok.mpr harg,
    ok_bind]
  rfl

theorem pushes_steppedSlice (hleft : Pushes flags ops left) (hright : Pushes flags more right)
    (hlast : Pushes flags rest last) :
    Pushes flags (ops ++ more ++ rest ++ [.counted "BUILD_SLICE" 3])
      (.sliceOf left right (some last)) := by
  refine ((hleft.all.append hright.all).append hlast.all).finish
    fun code ins ahead state below hfits hstack => ?_
  have harg : ins.arg = some 3 := hfits.operands
  have hop : (Operation.counted "BUILD_SLICE" 3).opcode? = some .buildSlice := rfl
  rw [effect_of_fits hfits hop, opcodeEffect, buildSlice, Instruction.requireArg_eq_ok.mpr harg,
    ok_bind, if_pos rfl, operands3_of_map ins hstack]
  rfl

end Walk

namespace Expr

open Walk

/-! ### Whole expressions -/

/-- The code of an expression leaves its node on the stack. -/
theorem pushes (flags : Flags) (e : Expr) :
    Pushes flags e.ops (e.tree (.built flags)) := by
  induction e using Expr.induction with
  | load source text => exact pushes_load flags source text
  | member object name hobject =>
      have hname : Opcode.ofName? "LOAD_ATTR" = some .loadAttr := rfl
      exact pushes_attribute hname name hobject
  | call func args hfunc hargs =>
      have hname : Opcode.ofName? "CALL_FUNCTION" = some .callFunction := rfl
      simpa [ops, tree] using pushes_call hname hfunc (pushesAll_map hargs)
  | methodCall object name args hobject hargs =>
      have hload : Opcode.ofName? "LOAD_METHOD" = some .loadAttr := rfl
      have hcall : Opcode.ofName? "CALL_METHOD" = some .callFunction := rfl
      simpa [ops, tree] using
        pushes_call hcall (pushes_attribute hload name hobject) (pushesAll_map hargs)
  | keywordCall func args kwargs hfunc hargs hkwargs =>
      have hcall := pushes_keywordCall (kwargs.map Prod.fst) hfunc (pushesAll_map hargs)
        (pushesAll_map hkwargs) (by simp)
      rw [List.map_map, List.zip_map'] at hcall
      simpa [ops, tree] using hcall
  | spreadCall func args hfunc hargs => exact pushes_spreadCall hfunc hargs
  | fullCall func args kwargs hfunc hargs hkwargs => exact pushes_fullCall hfunc hargs hkwargs
  | unary op operand hoperand =>
      refine pushes_wrap (.unary op) hoperand fun code ins ahead state hfits => ?_
      rw [effect_of_fits hfits (UnaryOperator.ofName?_mnemonic op), opcodeEffect]
  | binary op left right hleft hright =>
      refine pushes_combine (.binary op) hleft hright fun code ins ahead state hfits => ?_
      rw [effect_of_fits hfits (BinaryOperator.ofName?_mnemonic op), opcodeEffect]
  | comparison op left right hleft hright =>
      refine pushes_combine (.comparison op) hleft hright fun code ins ahead state hfits => ?_
      have hval : ins.argval = some op := hfits.operands
      have hop : (Operation.named "COMPARE_OP" op).opcode? = some .compareOp := rfl
      rw [effect_of_fits hfits hop, opcodeEffect, compareOp, hval]
  | identity negated left right hleft hright =>
      have hname : Opcode.ofName? "IS_OP" = some .isOp := rfl
      exact pushes_compareWith negated hname (fun _ _ _ _ => rfl) hleft hright
  | membership negated left right hleft hright =>
      have hname : Opcode.ofName? "CONTAINS_OP" = some .containsOp := rfl
      exact pushes_compareWith negated hname (fun _ _ _ _ => rfl) hleft hright
  | display kind items hitems =>
      simpa [ops, tree] using pushes_display kind (pushesAll_map hitems)
  | dict entries hentries =>
      have hdict := pushes_dict entries.length (pushesAll_flatMap fun entry hentry =>
        (hentries entry hentry).1.all.append (hentries entry hentry).2.all)
        (by simp [List.length_flatMap, Nat.mul_comm])
      simpa [ops, tree] using hdict
  | subscript value index hvalue hindex =>
      rw [tree_subscript]
      refine pushes_combine subscripted hvalue hindex fun code ins ahead state hfits => ?_
      have hop : (Operation.bare "BINARY_SUBSCR").opcode? = some .binarySubscr := rfl
      rw [effect_of_fits hfits hop, opcodeEffect]
  | slice start stop hstart hstop =>
      have hslice := pushes_slice hstart hstop
      rwa [Node.sliceOf, bound?_tree, bound?_tree] at hslice
  | steppedSlice start stop step hstart hstop hstep =>
      have hslice := pushes_steppedSlice hstart hstop hstep
      rwa [Node.sliceOf, Option.bind_some, bound?_tree, bound?_tree, bound?_tree] at hslice

/-- Outside of comprehensions and generators names are spelled as they are listed. -/
theorem loadedName_eq_id (hcomprehension : flags.comprehension = false)
    (hgenerator : flags.generatorExpression = false) : loadedName flags = id := by
  funext text
  unfold loadedName
  split
  · simp [hcomprehension, hgenerator]
  · rfl

theorem tree_built (hcomprehension : flags.comprehension = false)
    (hgenerator : flags.generatorExpression = false) {e : Expr} (h : EntryFree e.ops) :
    e.tree (.built flags) = e.node :=
  tree_congr (loadedName_eq_id hcomprehension hgenerator) h

/-- In whatever code and state the code of an expression is met, the walk over it succeeds and puts
one node on the stack, at the level of the state and with the offset of the last instruction. It is the
node of the expression, unless a dictionary display has entries. Nothing else is changed, but for the
names that the instructions mention. -/
theorem recovered_in_context (flags : Flags) (hcomprehension : flags.comprehension = false)
    (hgenerator : flags.generatorExpression = false) (e : Expr) (code : Code) (n : Nat)
    (state : State) (hfits : FitsAt code n e.ops)
    (hquiet : Quiet code n e.ops.length state.pending) :
    ∃ last, code[n + e.ops.length - 1]? = some last ∧
      Reaches flags code (n, state)
        (n + e.ops.length,
          { state with
            stack := ⟨state.indent.toNat, e.tree (.built flags), last.offset⟩ :: state.stack
            signature := state.signature.read flags ((code.drop n).take e.ops.length) }) ∧
      (EntryFree e.ops → e.tree (.built flags) = e.node) := by
  obtain ⟨last, signature, hlast, hreaches⟩ := e.pushes flags state hfits hquiet
  obtain ⟨k, hk, hsignature⟩ := hreaches.signature
  obtain rfl : e.ops.length = k := Nat.add_left_cancel hk
  exact ⟨last, hlast, hsignature ▸ hreaches, tree_built hcomprehension hgenerator⟩

/-- `f(x, key=-y)[None:0]` between other instructions, while a block is open. -/
theorem recovered_slice_of_call :
    let code : Code :=
      [{ offset := 8, opname := "LOAD_FAST", arg := some 0, argval := some "z" },
        { offset := 10, opname := "LOAD_GLOBAL", arg := some 0, argval := some "f" },
        { offset := 12, opname := "LOAD_FAST", arg := some 1, argval := some "x" },
        { offset := 14, opname := "LOAD_FAST", arg := some 2, argval := some "y" },
        { offset := 16, opname := "UNARY_NEGATIVE" },
        { offset := 18, opname := "LOAD_CONST", arg := some 1, argval := some "('key',)" },
        { offset := 20, opname := "CALL_FUNCTION_KW", arg := some 2 },
        { offset := 22, opname := "LOAD_CONST", arg := some 0, argval := some "None" },
        { offset := 24, opname := "LOAD_CONST", arg := some 2, argval := some "0" },
        { offset := 26, opname := "BUILD_SLICE", arg := some 2 },
        { offset := 28, opname := "BINARY_SUBSCR" },
        { offset := 30, opname := "RETURN_VALUE" }]
    let state : State :=
      { indent := 2, stack := [⟨2, .atom "z", 8⟩], pending := [.dedent 30]
        signature := { args := ["z"], seen := ["z"] } }
    let call : Node := .call (.atom "f") [.atom "x"] [("key", .unary .negative (.atom "y"))]
    Reaches {} code (1, state)
      (11,
        { indent := 2
          stack := [⟨2, .sliced call none (some (.atom "0")) none, 28⟩, ⟨2, .atom "z", 8⟩]
          pending := [.dedent 30]
          signature := { args := ["z", "x", "y"], seen := ["y", "x", "f", "z"] } }) := by
  intro code state call
  let e : Expr :=
    .subscript
      (.keywordCall (.load .global "f") [.load .fast "x"]
        [(⟨"key", by decide⟩, .unary .negative (.load .fast "y"))])
      (.slice (.load .const "None") (.load .const "0"))
  have hfits : FitsAt code 1 e.ops := FitsAt.of_forall₂ (by decide)
  have hquiet : Quiet code 1 e.ops.length state.pending := Quiet.of_forall_mem (by decide)
  obtain ⟨last, hlast, hreaches, -⟩ :=
    recovered_in_context {} rfl rfl e code 1 state hfits hquiet
  cases hlast
  exact hreaches

end Expr

end Decompiler
