import Decompiler.Proofs.Source.Pattern
import Decompiler.Proofs.Walk.Blocks

/-!
Heads of blocks and the jumps at their ends. A head takes what has just been pushed and opens a level;
the jump that closes a loop does nothing.
-/

namespace Decompiler.Walk

variable {flags : Flags} {code : Code} {place : Nat → Nat} {ins head : Instruction} {n m : Nat}

theorem Pushes.pushed {ops : List Operation} {node : Node} (h : Pushes flags ops node)
    (state : State) (hfits : FitsAt code n ops) (hquiet : Quiet code n ops.length state.pending) :
    ∃ offset signature,
      Reaches flags code (n, state) (n + ops.length, state.pushed node offset signature) := by
  obtain ⟨last, signature, -, hreaches⟩ := h state hfits hquiet
  exact ⟨last.offset, signature, hreaches⟩

/-- An instruction that does nothing. -/
theorem reaches_pass (state : State) (hins : code[n]? = some ins)
    (hquiet : ∀ change ∈ state.pending, change.target ≠ ins.offset)
    (heffect : effect flags code ins (code.drop (n + 1)) state = .ok {}) :
    Reaches flags code (n, state) (n + 1, state) := by
  have hreaches := reaches_effect state hins hquiet heffect
  simpa [State.apply] using hreaches

/-- The value of an expression statement stays on the stack as a statement. -/
theorem Pushes.popped {ops : List Operation} {node : Node} (h : Pushes flags ops node)
    (state : State) (hfits : FitsAt code n (ops ++ [.bare "POP_TOP"]))
    (hquiet : Quiet code n (ops ++ [Operation.bare "POP_TOP"]).length state.pending) :
    ∃ offset signature,
      Reaches flags code (n, state)
        (n + (ops ++ [Operation.bare "POP_TOP"]).length, state.pushed node offset signature) := by
  rw [List.length_append] at hquiet
  obtain ⟨offset, signature, hreaches⟩ := h.pushed state hfits.append_left
    (hquiet.sub (Nat.le_refl n) (by omega))
  obtain ⟨ins, hins, hop⟩ := hfits.append_right.head
  have hopcode : (Operation.bare "POP_TOP").opcode? = some .popTop := rfl
  have heffect : effect flags code ins (code.drop (n + ops.length + 1))
      (state.pushed node offset signature) = .ok {} := by
    rw [effect_of_fits hop hopcode]
    rfl
  have hpass := reaches_pass (state.pushed node offset signature) hins
    (hquiet _ ins (by omega) (by simp) hins) heffect
  refine ⟨offset, signature, ?_⟩
  rw [List.length_append, ← Nat.add_assoc]
  exact hreaches.trans hpass

theorem reaches_head (state : State) {value node : Node} {offset stop : Nat}
    {signature : Signature} (hins : code[n]? = some ins)
    (hquiet : ∀ change ∈ state.pending, change.target ≠ ins.offset)
    (heffect : effect flags code ins (code.drop (n + 1)) (state.pushed value offset signature) =
      .ok (.block 1 node (some stop))) :
    Reaches flags code (n, state.pushed value offset signature)
      (n + 1, (state.pushed node ins.offset signature).opened 1 stop) := by
  have hreaches := reaches_effect (state.pushed value offset signature) hins hquiet heffect
  simpa [State.apply, Effect.block, State.pushed, State.opened] using hreaches

/-! ### Tests -/

/-- The walk comes to the jump of a test with the value of the test on the stack. -/
theorem reaches_test {ops : List Operation} {node : Node} {mnemonic : String}
    {target start stop : Nat} (h : Pushes flags ops node) (state : State)
    (hlaid : LaidOut place code) (hfits : FitsAt code start (ops ++ [.absolute mnemonic target]))
    (hclear : Clear place start stop state.pending) (hstop : start + ops.length < stop) :
    ∃ ins offset signature,
      code[start + ops.length]? = some ins ∧ (Operation.absolute mnemonic target).Fits ins ∧
      ins.offset = place (start + ops.length) ∧
      (∀ change ∈ state.pending, change.target ≠ ins.offset) ∧
      Reaches flags code (start, state)
        (start + ops.length, state.pushed node offset signature) := by
  obtain ⟨offset, signature, hreaches⟩ := h.pushed state hfits.append_left
    ((hclear.sub (Nat.le_refl start) (by omega)).quiet hlaid)
  obtain ⟨ins, hins, hop⟩ := hfits.append_right.head
  have hoffset : ins.offset = place (start + ops.length) := hlaid.offset _ ins hins
  refine ⟨ins, offset, signature, hins, hop, hoffset, ?_, hreaches⟩
  rw [hoffset]
  exact fun change hchange => hclear change hchange _ (Nat.le_add_right ..) hstop

theorem effect_test {onTrue : Bool} {target : Nat} (hraw : flags.rawJumps = false)
    (hop : ins.opcode? = some (.popJumpIf onTrue)) (htarget : ins.jumpTarget? = some target)
    (ahead : Code) (state : State) (value : Node) (offset : Nat) (signature : Signature) :
    effect flags code ins ahead (state.pushed value offset signature) =
      .ok (branch code ins (if onTrue then .negation value else value) target
        (state.pushed value offset signature)) := by
  rw [effect, hop]
  dsimp only [opcodeEffect]
  rw [conditionalJump, Instruction.requireTarget_eq_ok.mpr htarget, hraw]
  cases onTrue <;> rfl

/-! ### Loops over an iterator -/

/-- The step of an iterator takes in the stores of the target. -/
theorem reaches_forHead (state : State) {value : Node} {offset stop : Nat} {signature : Signature}
    (pattern : Pattern) (hstop : stop < Instruction.offsetBound)
    (hfits : FitsAt code n ([.relative "FOR_ITER" stop] ++ pattern.ops))
    (hins : code[n]? = some ins)
    (hquiet : ∀ change ∈ state.pending, change.target ≠ ins.offset) :
    ∃ offset' signature',
      Reaches flags code (n, state.pushed value offset signature)
        (n + 1 + pattern.ops.length,
          (state.pushed (.forHead pattern.target.node (iterated value)) offset' signature').opened 1
            stop) := by
  have hop : (Operation.relative "FOR_ITER" stop).Fits ins :=
    hfits.append_left.fits_of_getElem? (k := 0) hins rfl
  have hopcode : ins.opcode? = some .forIter := hop.opcode?
  have htarget : ins.jumpTarget? = some stop := Operation.jumpTarget?_relative hop.operands hstop
  have hread := pattern.read?_ops hfits.append_right
  rw [List.length_singleton] at hread
  obtain ⟨first, rest, hops⟩ := List.exists_cons_of_ne_nil pattern.ops_ne_nil
  obtain ⟨next, hnext, -⟩ := (hops ▸ hfits.append_right : FitsAt code (n + 1) (first :: rest)).head
  have heffect : effect flags code ins (code.drop (n + 1)) (state.pushed value offset signature) =
      .ok { Effect.block 1 (.forHead pattern.target.node (iterated value)) (some stop) with
        mentions := pattern.target.names.map .store
        swallows := pattern.target.size } := by
    rw [effect, hopcode]
    dsimp only [opcodeEffect]
    -- the target has at least one instruction, which the step looks for first
    rw [forLoop, Instruction.requireTarget_eq_ok.mpr htarget, ok_bind, Code.drop_eq_cons hnext]
    dsimp only
    rw [← Code.drop_eq_cons hnext, hread]
    rfl
  have hreaches := reaches_effect (state.pushed value offset signature) hins hquiet heffect
  rw [Effect.block, Pattern.size_target] at hreaches
  refine ⟨ins.offset, (pattern.target.names.map .store).foldl Signature.mention signature, ?_⟩
  simpa [State.apply, State.pushed, State.opened] using hreaches

/-- The jump at the end of a loop over an iterator does nothing. -/
theorem effect_endFor (hlaid : LaidOut place code) (hraw : flags.rawJumps = false)
    (hhead : code[m]? = some head) (hiter : (Operation.relative "FOR_ITER" (place (n + 1))).Fits head)
    (hins : code[n]? = some ins) (hjump : (Operation.absolute "JUMP_ABSOLUTE" (place m)).Fits ins)
    (ahead : Code) (state : State) : effect flags code ins ahead state = .ok {} := by
  have hopcode : ins.opcode? = some .jumpAbsolute := hjump.opcode?
  have htarget : ins.jumpTarget? = some (place m) := Operation.jumpTarget?_absolute hjump
  have hn : n + 1 ≤ code.length := (List.getElem?_eq_some_iff.mp hins).1
  have hstop : head.jumpTarget? = some (place (n + 1)) :=
    hlaid.jumpTarget? hiter rfl hn
  have his : head.is .forIter = true := hiter.is_eq_true rfl
  have hcloses : code.closesFor head ins.offset = true := by
    simp [Code.closesFor, hstop, hlaid.beforeOffset?_place hins]
  rw [effect, hopcode]
  dsimp only [opcodeEffect]
  rw [absoluteJump, Instruction.requireTarget_eq_ok.mpr htarget, ok_bind, hraw, if_neg (by simp),
    hlaid.atOffset?_place, hhead]
  simp only [his, hcloses, Bool.true_or, if_true]
  rfl

/-! ### The end of a body -/

/-- The body of a loop and the jump that closes it. -/
theorem Leaves.close {start : Nat} {state before : State} {lines : List (Nat × Node)}
    (h : Leaves flags code place start n state before lines) (hlaid : LaidOut place code)
    (hclear : Clear place n (n + 1) before.pending) (hins : code[n]? = some ins)
    (heffect : ∀ after, Adds lines before after →
      effect flags code ins (code.drop (n + 1)) after = .ok {}) :
    Leaves flags code place start (n + 1) state before lines := by
  obtain ⟨after, hadds, hreaches⟩ := h.settled hlaid
  refine .of_adds hadds (hreaches _ (by simp) (reaches_pass after hins ?_ (heffect after hadds)))
  rw [hadds.pending, hlaid.offset n ins hins]
  exact fun change hchange => hclear change hchange n (Nat.le_refl n) (Nat.lt_succ_self n)

end Decompiler.Walk
