import Decompiler.Proofs.Source.Operation
import Decompiler.Proofs.Walk.Cursor

/-!
Code that leaves one node. The operations of an expression take the operands off the stack that they
have put there themselves, so they leave what is below them alone, wherever they stand and in whatever
state. Such stretches of code are put together operand by operand and finished by the operation that
takes the operands.
-/

namespace Decompiler.Walk

/-- No change of level waits for one of the `length` instructions from a position on. -/
def Quiet (code : Code) (start length : Nat) (pending : List IndentChange) : Prop :=
  ∀ k ins, start ≤ k → k < start + length → code[k]? = some ins →
    ∀ change ∈ pending, change.target ≠ ins.offset

theorem Quiet.of_forall_mem {code : Code} {start length : Nat} {pending : List IndentChange}
    (h : ∀ ins ∈ (code.drop start).take length, ∀ change ∈ pending, change.target ≠ ins.offset) :
    Quiet code start length pending := by
  intro k ins hk hk' hins
  refine h ins (List.mem_iff_getElem?.mpr ⟨k - start, ?_⟩)
  rw [List.getElem?_take_of_lt (by omega), List.getElem?_drop, Nat.add_sub_of_le hk]
  exact hins

theorem Quiet.sub {code : Code} {start length start' length' : Nat} {pending : List IndentChange}
    (h : Quiet code start length pending) (hstart : start ≤ start')
    (hend : start' + length' ≤ start + length) : Quiet code start' length' pending :=
  fun k ins hk hk' => h k ins (by omega) (by omega)

theorem State.settle_of_forall_ne {state : State} {offset : Nat}
    (h : ∀ change ∈ state.pending, change.target ≠ offset) : state.settle offset = state := by
  have hdue : state.pending.filter (fun change => change.target = offset) = [] := by
    simpa [List.filter_eq_nil_iff] using h
  have hlater : state.pending.filter (not ∘ fun change => change.target = offset) =
      state.pending := by
    simpa [List.filter_eq_self] using h
  simp [State.settle, List.partition_eq_filter_filter, hdue, hlater]

variable {flags : Flags} {code : Code} {ins : Instruction} {n : Nat}

theorem step_of_effect {state : State} {ahead : Code} {effect : Effect}
    (hquiet : ∀ change ∈ state.pending, change.target ≠ ins.offset)
    (heffect : Walk.effect flags code ins ahead state = .ok effect) :
    step flags code ins ahead state = .ok (state.apply ins.offset effect, effect.swallows) := by
  rw [step, State.settle_of_forall_ne hquiet, heffect]
  rfl

theorem effect_of_fits {op : Operation} {opcode : Opcode} (hfits : op.Fits ins)
    (hop : op.opcode? = some opcode) (ahead : Code) (state : State) :
    Walk.effect flags code ins ahead state =
      opcodeEffect flags code ins ahead state opcode := by
  rw [Walk.effect, hfits.opcode?, hop]

theorem reaches_effect {effect : Effect} (state : State) (hins : code[n]? = some ins)
    (hquiet : ∀ change ∈ state.pending, change.target ≠ ins.offset)
    (heffect : Walk.effect flags code ins (code.drop (n + 1)) state = .ok effect) :
    Reaches flags code (n, state) (n + 1 + effect.swallows, state.apply ins.offset effect) :=
  .of_moves ⟨ins, effect.swallows, hins, step_of_effect hquiet heffect, rfl⟩

/-- An instruction that puts a node in place of its operands, and does no more than mention names. -/
theorem reaches_replace (state : State) {pops : Nat} {node : Node} (mentions : List Mention)
    (hins : code[n]? = some ins)
    (hquiet : ∀ change ∈ state.pending, change.target ≠ ins.offset)
    (heffect : Walk.effect flags code ins (code.drop (n + 1)) state =
      .ok { Effect.replace pops node with mentions }) :
    Reaches flags code (n, state)
      (n + 1,
        { state with
          stack := ⟨state.indent.toNat, node, ins.offset⟩ :: state.stack.drop pops
          signature := mentions.foldl Signature.mention state.signature }) := by
  have hreaches := reaches_effect state hins hquiet heffect
  simpa [State.apply, Effect.replace] using hreaches

/-- The code of these operations leaves this node on the stack and nothing else. -/
def Pushes (flags : Flags) (ops : List Operation) (node : Node) : Prop :=
  ∀ ⦃code n⦄ (state : State), FitsAt code n ops → Quiet code n ops.length state.pending →
    ∃ last signature, code[n + ops.length - 1]? = some last ∧
      Reaches flags code (n, state)
        (n + ops.length,
          { state with
            stack := ⟨state.indent.toNat, node, last.offset⟩ :: state.stack
            signature })

def PushesAll (flags : Flags) (ops : List Operation) (nodes : List Node) : Prop :=
  ∀ ⦃code n⦄ (state : State), FitsAt code n ops → Quiet code n ops.length state.pending →
    ∃ pushed signature, pushed.map Statement.node = nodes.reverse ∧
      Reaches flags code (n, state)
        (n + ops.length, { state with stack := pushed ++ state.stack, signature })

variable {ops more : List Operation} {node : Node} {nodes others : List Node}

theorem Pushes.all (h : Pushes flags ops node) : PushesAll flags ops [node] := by
  intro code n state hfits hquiet
  obtain ⟨last, signature, -, hreaches⟩ := h state hfits hquiet
  exact ⟨[_], signature, rfl, hreaches⟩

theorem pushesAll_nil : PushesAll flags [] [] := by
  intro code n state _ _
  exact ⟨[], state.signature, rfl, Reaches.refl flags code _⟩

theorem PushesAll.append (first : PushesAll flags ops nodes) (last : PushesAll flags more others) :
    PushesAll flags (ops ++ more) (nodes ++ others) := by
  intro code n state hfits hquiet
  rw [List.length_append] at hquiet
  obtain ⟨pushed, signature, hpushed, hfirst⟩ :=
    first state hfits.append_left (hquiet.sub (Nat.le_refl n) (by omega))
  obtain ⟨pushed', signature', hpushed', hlast⟩ :=
    last { state with stack := pushed ++ state.stack, signature } hfits.append_right
      (hquiet.sub (by omega) (by omega))
  refine ⟨pushed' ++ pushed, signature', ?_, ?_⟩
  · rw [List.map_append, hpushed, hpushed', List.reverse_append]
  · rw [List.length_append, ← Nat.add_assoc, List.append_assoc]
    exact hfirst.trans hlast

theorem pushesAll_flatMap {α : Type} {items : List α} {compile : α → List Operation}
    {value : α → List Node} (h : ∀ item ∈ items, PushesAll flags (compile item) (value item)) :
    PushesAll flags (items.flatMap compile) (items.flatMap value) := by
  induction items with
  | nil => exact pushesAll_nil
  | cons item items ih =>
      rw [List.flatMap_cons, List.flatMap_cons]
      exact (h item (List.mem_cons_self ..)).append
        (ih fun other hother => h other (List.mem_cons_of_mem _ hother))

theorem pushesAll_map {α : Type} {items : List α} {compile : α → List Operation}
    {value : α → Node} (h : ∀ item ∈ items, Pushes flags (compile item) (value item)) :
    PushesAll flags (items.flatMap compile) (items.map value) := by
  rw [List.map_eq_flatMap]
  exact pushesAll_flatMap fun item hitem => (h item hitem).all

/-- Operands, and then the operation that puts one node in their place. -/
theorem PushesAll.finish_mentioning {op : Operation} (mentions : List Mention)
    (h : PushesAll flags ops nodes)
    (heffect : ∀ code ins ahead state below, op.Fits ins →
      state.stack.map Statement.node = nodes.reverse ++ below →
      Walk.effect flags code ins ahead state =
        .ok { Effect.replace nodes.length node with mentions }) :
    Pushes flags (ops ++ [op]) node := by
  intro code n state hfits hquiet
  rw [List.length_append] at hquiet
  obtain ⟨pushed, signature, hpushed, hreaches⟩ :=
    h state hfits.append_left (hquiet.sub (Nat.le_refl n) (by omega))
  obtain ⟨last, hlast, hop⟩ := hfits.append_right.head
  have hlength : pushed.length = nodes.length := by
    simpa using congrArg List.length hpushed
  have hdrop : (pushed ++ state.stack).drop nodes.length = state.stack := by
    rw [← hlength, List.drop_left]
  have hmove := reaches_replace { state with stack := pushed ++ state.stack, signature } mentions
    hlast (hquiet _ _ (by omega) (by simp) hlast)
    (heffect _ _ _ _ (state.stack.map Statement.node) hop (by simp [hpushed]))
  refine ⟨last, mentions.foldl Signature.mention signature, ?_, ?_⟩
  · simpa using hlast
  · rw [List.length_append, ← Nat.add_assoc]
    simpa [hdrop] using hreaches.trans hmove

theorem PushesAll.finish {op : Operation} (h : PushesAll flags ops nodes)
    (heffect : ∀ code ins ahead state below, op.Fits ins →
      state.stack.map Statement.node = nodes.reverse ++ below →
      Walk.effect flags code ins ahead state = .ok (.replace nodes.length node)) :
    Pushes flags (ops ++ [op]) node :=
  h.finish_mentioning [] heffect

/-- A load pushes the name as it is spelled under the flags. -/
theorem pushes_load (flags : Flags) (source : Load) (text : String) :
    Pushes flags [.named source.mnemonic text] (.atom (loadedName flags text)) := by
  intro code n state hfits hquiet
  obtain ⟨ins, hins, hop⟩ := hfits.head
  have hval : ins.argval = some text := hop.operands
  have heffect : Walk.effect flags code ins (code.drop (n + 1)) state =
      .ok { Effect.replace 0 (.atom (loadedName flags text)) with
        mentions := [.load source.isGlobal (loadedName flags text)] } := by
    rw [effect_of_fits hop (Load.ofName?_mnemonic source), opcodeEffect, load, hval]
    rfl
  have hhere := hquiet n ins (Nat.le_refl n) (by simp) hins
  exact ⟨ins, _, hins, reaches_replace state _ hins hhere heffect⟩

end Decompiler.Walk
