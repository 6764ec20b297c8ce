import Decompiler.Proofs.Recovery.Expression
import Decompiler.Proofs.Source.Program
import Decompiler.Proofs.Walk.Heads

/-!
Statements without a body are recovered: the walk over the code of one leaves its node.
-/

namespace Decompiler

open Walk

variable {flags : Flags} {code : Code} {n : Nat}

theorem Simple.tree_congr {r r' : Reading} (hspell : r.spell = r'.spell) {s : Simple} (h : EntryFree s.ops) :
    s.tree r = s.tree r' := by
  cases s with
  | assign store name value =>
      rw [ops, EntryFree.append_iff] at h
      rw [tree, tree, Expr.tree_congr hspell h.1]
  | augment load store name op value =>
      simp only [ops, EntryFree.append_iff] at h
      rw [tree, tree, Expr.tree_congr hspell h.1.2]
  | setItem container index value =>
      simp only [ops, EntryFree.append_iff] at h
      rw [tree, tree, Expr.tree_congr hspell h.1.1.1, Expr.tree_congr hspell h.1.1.2,
        Expr.tree_congr hspell h.1.2]
  | eval e =>
      rw [ops, EntryFree.append_iff] at h
      rw [tree, tree, Expr.tree_congr hspell h.1]
  | ret value =>
      rw [ops, EntryFree.append_iff] at h
      rw [tree, tree, Expr.tree_congr hspell h.1]
  | raise exception =>
      rw [ops, EntryFree.append_iff] at h
      rw [tree, tree, Expr.tree_congr hspell h.1]

theorem pushes_assign (store : Store) (name : String) (value : Expr) :
    Pushes flags (Simple.assign store name value).ops
      ((Simple.assign store name value).tree (.built flags)) := by
  refine (value.pushes flags).all.finish_mentioning [.store name]
    fun code ins ahead state below hfits hstack => ?_
  have hval : ins.argval = some name := hfits.operands
  rw [effect_of_fits hfits (Store.ofName?_mnemonic store), opcodeEffect, Walk.store,
    Instruction.requireName_eq_ok.mpr hval, ok_bind, operand_of_map ins hstack]
  rfl

theorem pushes_setItem (container index value : Expr) :
    Pushes flags (Simple.setItem container index value).ops
      ((Simple.setItem container index value).tree (.built flags)) := by
  refine (((value.pushes flags).all.append (container.pushes flags).all).append
    (index.pushes flags).all).finish fun code ins ahead state below hfits hstack => ?_
  have hop : (Operation.bare "STORE_SUBSCR").opcode? = some .storeSubscr := rfl
  rw [effect_of_fits hfits hop, opcodeEffect, storeSubscript, operands3_of_map ins hstack]
  rfl

theorem pushes_ret (hcomprehension : flags.comprehension = false) (value : Expr) :
    Pushes flags (Simple.ret value).ops ((Simple.ret value).tree (.built flags)) := by
  refine pushes_wrap .returnStmt (value.pushes flags) fun code ins ahead state hfits => ?_
  have hop : (Operation.bare "RETURN_VALUE").opcode? = some .returnValue := rfl
  rw [effect_of_fits hfits hop, opcodeEffect, returnValue, if_neg (by simp [hcomprehension])]

theorem pushes_raise (exception : Expr) :
    Pushes flags (Simple.raise exception).ops
      ((Simple.raise exception).tree (.built flags)) := by
  refine pushes_wrap (fun value => .raiseStmt (some value) none) (exception.pushes flags)
    fun code ins ahead state hfits => ?_
  have harg : ins.arg = some 1 := hfits.operands
  have hop : (Operation.counted "RAISE_VARARGS" 1).opcode? = some .raiseVarargs := rfl
  rw [effect_of_fits hfits hop, opcodeEffect, raiseVarargs, Instruction.requireArg_eq_ok.mpr harg]
  rfl

/-- An operation in place takes in the store that follows. -/
theorem reaches_augment (load : Load) (store : Store) (name : String) (op : BinaryOperator)
    (value : Expr) (state : State)
    (hfits : FitsAt code n (Simple.augment load store name op value).ops)
    (hquiet : Quiet code n (Simple.augment load store name op value).ops.length state.pending) :
    ∃ offset signature,
      Reaches flags code (n, state)
        (n + (Simple.augment load store name op value).ops.length,
          state.pushed (.inplace op name (value.tree (.built flags))) offset signature) := by
  have hoperands : PushesAll flags ([.named load.mnemonic name] ++ value.ops)
      ([.atom (loadedName flags name)] ++ [value.tree (.built flags)]) :=
    (pushes_load flags load name).all.append (value.pushes flags).all
  rw [Simple.ops, List.length_append] at hquiet
  obtain ⟨pushed, signature, hpushed, hreaches⟩ := hoperands state hfits.append_left
    (hquiet.sub (Nat.le_refl n) (by omega))
  obtain ⟨ins, hins, hop⟩ := hfits.append_right.head
  obtain ⟨next, hnext, hstore⟩ := hfits.append_right.tail.head
  have hnextop : next.opcode? = some .store :=
    hstore.opcode?.trans (Store.ofName?_mnemonic store)
  have hstored : next.storedName? = some name :=
    Instruction.storedName?_eq_some.mpr ⟨hnextop, hstore.operands⟩
  -- the effect needs the two operands one by one
  obtain ⟨top, target, rfl⟩ : ∃ top target, pushed = [top, target] := by
    have hlength := congrArg List.length hpushed
    exact List.length_eq_two.mp (by simpa using hlength)
  let before : State := { state with stack := [top, target] ++ state.stack, signature }
  have hstack : before.stack.map Statement.node =
      value.tree (.built flags) :: .atom (loadedName flags name) ::
        state.stack.map Statement.node := by
    show ([top, target] ++ state.stack).map Statement.node = _
    rw [List.map_append, hpushed]
    rfl
  have heffect : effect flags code ins
      (code.drop (n + ([Operation.named load.mnemonic name] ++ value.ops).length + 1)) before =
      .ok { Effect.replace 2 (.inplace op name (value.tree (.built flags))) with
        mentions := [.store name]
        swallows := 1 } := by
    rw [effect_of_fits hop (BinaryOperator.ofName?_inplaceMnemonic op), opcodeEffect, Walk.inplace,
      Code.drop_eq_cons hnext, List.head?_cons, Option.bind_some, hstored]
    dsimp only
    rw [operands2_of_map ins hstack]
    rfl
  have hmove := reaches_effect before hins (hquiet _ ins (by omega) (by simp) hins) heffect
  refine ⟨ins.offset, signature.mention (.store name), ?_⟩
  have hlast := hreaches.trans hmove
  rw [Simple.ops, List.length_append, ← Nat.add_assoc]
  simpa [before, State.apply, Effect.replace, State.pushed] using hlast

/-- The code of a simple statement leaves its node. A comprehension returns something else. -/
theorem Simple.reaches (s : Simple)
    (hreturn : flags.comprehension = true → ∀ value, s ≠ .ret value) (state : State)
    (hfits : FitsAt code n s.ops) (hquiet : Quiet code n s.ops.length state.pending) :
    ∃ offset signature,
      Reaches flags code (n, state)
        (n + s.ops.length, state.pushed (s.tree (.built flags)) offset signature) := by
  cases s with
  | assign store name value => exact (pushes_assign store name value).pushed state hfits hquiet
  | augment load store name op value =>
      exact reaches_augment load store name op value state hfits hquiet
  | setItem container index value =>
      exact (pushes_setItem container index value).pushed state hfits hquiet
  | eval e => exact (e.pushes flags).popped state hfits hquiet
  | ret value =>
      have hcomprehension : flags.comprehension = false :=
        Bool.eq_false_iff.mpr fun h => hreturn h value rfl
      exact (pushes_ret hcomprehension value).pushed state hfits hquiet
  | raise exception => exact (pushes_raise exception).pushed state hfits hquiet

end Decompiler
