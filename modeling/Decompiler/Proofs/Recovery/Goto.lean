import Decompiler.Proofs.Recovery.Simple
import Decompiler.Proofs.Source.Goto
import Decompiler.Proofs.Unpacking.Extended
import Decompiler.Proofs.Walk.Stretch

/-!
Goto programs are recovered. Where jumps are left as they are, each item makes one statement at the
margin, and the offset of the statement is that of an instruction of the item. So the statements are in
the order of their offsets, and the first one that is not before the start of an item is that of the
item: every jump still goes where it went.
-/

namespace Decompiler

open Walk

/-- Jumps are left as they are, and nothing else is out of the ordinary. -/
def Flags.raw : Flags := { rawJumps := true }

variable {code : Code} {n : Nat} {ins : Instruction} {state : State}

namespace Walk

theorem quiet_of_pending (hpending : state.pending = []) (start length : Nat) :
    Quiet code start length state.pending := by
  intro k ins _ _ _ change hchange
  rw [hpending] at hchange
  cases hchange

theorem operand_pushed (ins : Instruction) (state : State) (value : Node) (offset : Nat)
    (signature : Signature) :
    operand ins (state.pushed value offset signature).stack = .ok value := rfl

/-- An instruction that puts a node in place of the one on top, perhaps together with others that
follow it. -/
theorem reaches_over (value node : Node) (offset swallows : Nat) (signature : Signature)
    (mentions : List Mention) (hpending : state.pending = []) (hins : code[n]? = some ins)
    (heffect : effect .raw code ins (code.drop (n + 1)) (state.pushed value offset signature) =
      .ok { Effect.replace 1 node with mentions, swallows }) :
    ∃ signature', Reaches .raw code (n, state.pushed value offset signature)
      (n + 1 + swallows, state.pushed node ins.offset signature') := by
  have hreaches := reaches_effect (state.pushed value offset signature) hins
    (by simp [hpending]) heffect
  refine ⟨mentions.foldl Signature.mention signature, ?_⟩
  simpa [State.apply, Effect.replace, State.pushed] using hreaches

end Walk

/-! ### Statements without a body -/

theorem pushes_reraise : Pushes .raw (Item.reraise).ops ((Item.reraise).tree (.built .raw)) := by
  refine pushesAll_nil.finish fun code ins ahead state below hfits hstack => ?_
  have harg : ins.arg = some 0 := hfits.operands
  have hop : (Operation.counted "RAISE_VARARGS" 0).opcode? = some .raiseVarargs := rfl
  rw [effect_of_fits hfits hop, opcodeEffect, raiseVarargs, Instruction.requireArg_eq_ok.mpr harg]
  rfl

theorem pushes_raiseFrom (exception cause : Expr) :
    Pushes .raw (Item.raiseFrom exception cause).ops ((Item.raiseFrom exception cause).tree (.built .raw)) := by
  refine pushes_combine (fun exception cause => .raiseStmt (some exception) (some cause))
    (exception.pushes .raw) (cause.pushes .raw) fun code ins ahead state hfits => ?_
  have harg : ins.arg = some 2 := hfits.operands
  have hop : (Operation.counted "RAISE_VARARGS" 2).opcode? = some .raiseVarargs := rfl
  rw [effect_of_fits hfits hop, opcodeEffect, raiseVarargs, Instruction.requireArg_eq_ok.mpr harg]
  rfl

/-! ### Unpackings -/

theorem reaches_unpack (first : Pattern) (rest : List Pattern) (value : Expr)
    (hpending : state.pending = []) (hfits : FitsAt code n (Item.unpack first rest value).ops) :
    ∃ offset signature,
      Reaches .raw code (n, state)
        (n + (Item.unpack first rest value).ops.length,
          state.pushed ((Item.unpack first rest value).tree (.built .raw)) offset signature) := by
  obtain ⟨offset, signature, hvalue⟩ := (value.pushes .raw).pushed state hfits.append_left
    (quiet_of_pending hpending _ _)
  have htarget := hfits.append_right
  obtain ⟨ins, hins, hop⟩ := htarget.append_left.head
  have hopcode : (Operation.counted "UNPACK_SEQUENCE" (rest.length + 1)).opcode? =
      some .unpackSequence := rfl
  have hread := (Pattern.tuple first rest).read?_ops htarget
  rw [Code.drop_eq_cons hins] at hread
  obtain ⟨signature', hunpack⟩ := reaches_over (value.tree (.built .raw)) _ offset _ signature _ hpending hins (by
      rw [effect_of_fits hop hopcode, opcodeEffect, unpackSequence, operand_pushed, ok_bind, hread]
      rfl)
  have hsize := (Pattern.tuple first rest).size_target
  have hlength : n + value.ops.length + 1 + ((Pattern.tuple first rest).target.size - 1) =
      n + (Item.unpack first rest value).ops.length := by
    have hpos := List.length_pos_iff.mpr (Pattern.tuple first rest).ops_ne_nil
    rw [Item.ops, List.length_append]
    omega
  exact ⟨ins.offset, signature', hlength ▸ hvalue.trans hunpack⟩

/-- The names that the stores of bindings bind are read back. -/
theorem storedNames?_bindings {bindings : List Binding}
    (hfits : FitsAt code n (bindings.map Binding.op)) :
    Target.storedNames? (code.drop n) bindings.length = some (bindings.map Binding.name) := by
  induction bindings generalizing n with
  | nil => cases code.drop n <;> rfl
  | cons binding bindings ih =>
      obtain ⟨ins, hins, hop⟩ := hfits.head
      have hstore : ins.opcode? = some .store :=
        hop.opcode?.trans (Store.ofName?_mnemonic binding.store)
      have hstored : ins.storedName? = some binding.name :=
        Instruction.storedName?_eq_some.mpr ⟨hstore, hop.operands⟩
      rw [Code.drop_eq_cons hins, List.length_cons, Target.storedNames?, hstored, Option.bind_some,
        ih hfits.tail]
      rfl

/-- The nodes of names with a star before one of them. -/
theorem starred_append (before : List Binding) (star : Binding) (after : List Binding) :
    starred before.length ((before ++ star :: after).map Binding.name) =
      before.map Binding.node ++ .atom ("*" ++ star.name) :: after.map Binding.node := by
  have hnames := StarredTarget.starred_names
    ⟨before.map Binding.name, star.name, after.map Binding.name⟩
  simp only [StarredTarget.names, StarredTarget.items, List.length_map, List.map_map] at hnames
  rw [List.map_append, List.map_cons]
  exact hnames

theorem effect_unpackStarred {before after : List Binding} {star : Binding}
    (hbefore : before.length < 256) (hafter : after.length < 256)
    (hop : (Operation.counted "UNPACK_EX" (before.length + 256 * after.length)).Fits ins)
    (hfits : FitsAt code n ((before ++ star :: after).map Binding.op)) (value : Node)
    (offset : Nat) (signature : Signature) :
    effect .raw code ins (code.drop n) (state.pushed value offset signature) =
      .ok { Effect.replace 1 (.assign (Node.tuple (before.map Binding.node ++
          .atom ("*" ++ star.name) :: after.map Binding.node)) value) with
        mentions := ((before ++ star :: after).map Binding.name).map .store
        swallows := (before ++ star :: after).length } := by
  have hopcode : (Operation.counted "UNPACK_EX" (before.length + 256 * after.length)).opcode? =
      some .unpackEx := rfl
  have harg : ins.arg = some (before.length + 256 * after.length) := hop.operands
  have hlow : (before.length + 256 * after.length) % 256 = before.length := by omega
  have hhigh : before.length + 1 + (before.length + 256 * after.length) / 256 % 256 =
      (before ++ star :: after).length := by
    rw [List.length_append, List.length_cons]
    omega
  have hnames := storedNames?_bindings hfits
  rw [effect_of_fits hop hopcode, opcodeEffect, unpackEx, Instruction.requireArg_eq_ok.mpr harg,
    ok_bind]
  dsimp only
  rw [hlow, hhigh, hnames]
  dsimp only
  rw [operand_pushed, ok_bind, starred_append]
  rfl

theorem reaches_unpackStarred (before : List Binding) (star : Binding) (after : List Binding)
    (value : Expr) (hbefore : before.length < 256) (hafter : after.length < 256)
    (hpending : state.pending = [])
    (hfits : FitsAt code n (Item.unpackStarred before star after value hbefore hafter).ops) :
    ∃ offset signature,
      Reaches .raw code (n, state)
        (n + (Item.unpackStarred before star after value hbefore hafter).ops.length,
          state.pushed
            ((Item.unpackStarred before star after value hbefore hafter).tree (.built .raw)) offset
            signature) := by
  obtain ⟨offset, signature, hvalue⟩ := (value.pushes .raw).pushed state hfits.append_left
    (quiet_of_pending hpending _ _)
  obtain ⟨ins, hins, hop⟩ := hfits.append_right.append_left.head
  obtain ⟨signature', hunpack⟩ := reaches_over (value.tree (.built .raw)) _ offset _ signature _
    hpending hins (effect_unpackStarred hbefore hafter hop hfits.append_right.append_right
      (value.tree (.built .raw)) offset signature)
  refine ⟨ins.offset, signature', ?_⟩
  have hlength : n + (Item.unpackStarred before star after value hbefore hafter).ops.length =
      n + value.ops.length + 1 + (before ++ star :: after).length := by
    rw [Item.ops]
    simp only [List.length_append, List.length_map, List.length_singleton]
    omega
  rw [hlength]
  exact hvalue.trans hunpack

/-! ### Jumps -/

theorem Operation.Fits.jumpTarget?_jump {words : Bool} {opname : String} {target : Nat}
    (h : (Operation.jump words opname target).Fits ins) (hbound : target < Instruction.offsetBound) :
    ins.jumpTarget? = some target := by
  refine h.jumpTarget? ?_ hbound
  cases words with
  | true => rfl
  | false => rfl

theorem Operation.Fits.opcode?_jump {words : Bool} {opname : String} {target : Nat}
    (h : (Operation.jump words opname target).Fits ins) :
    ins.opcode? = Opcode.ofName? opname := by
  rw [h.opcode?, Operation.opcode?, Operation.jump]
  cases words with
  | true => rfl
  | false => rfl

theorem pushes_jump (forward words : Bool) {target : Nat} (hbound : target < Instruction.offsetBound) :
    Pushes .raw (Item.jump forward words target).ops ((Item.jump forward words target).tree (.built .raw)) := by
  refine pushesAll_nil.finish fun code ins ahead state below hfits hstack => ?_
  have htarget := Instruction.requireTarget_eq_ok.mpr (hfits.jumpTarget?_jump hbound)
  cases forward with
  | true =>
      have hop : ins.opcode? = some .jumpForward := hfits.opcode?_jump
      rw [effect, hop]
      dsimp only [opcodeEffect]
      rw [forwardJump, htarget]
      rfl
  | false =>
      have hop : ins.opcode? = some .jumpAbsolute := hfits.opcode?_jump
      rw [effect, hop]
      dsimp only [opcodeEffect]
      rw [absoluteJump, htarget]
      rfl

/-- The condition is the one under which the test jumps. -/
theorem pushes_branch (onTrue words : Bool) (test : Expr) {target : Nat}
    (hbound : target < Instruction.offsetBound) :
    Pushes .raw (Item.branch onTrue words test target).ops
      ((Item.branch onTrue words test target).tree (.built .raw)) := by
  refine (test.pushes .raw).all.finish fun code ins ahead state below hfits hstack => ?_
  have htarget := Instruction.requireTarget_eq_ok.mpr (hfits.jumpTarget?_jump hbound)
  have hop : ins.opcode? = some (.popJumpIf onTrue) := by
    rw [hfits.opcode?_jump]
    cases onTrue with
    | true => rfl
    | false => rfl
  rw [effect, hop]
  dsimp only [opcodeEffect]
  rw [conditionalJump, operand_of_map ins hstack, ok_bind, htarget]
  rfl

/-- The code of an item leaves its node. -/
theorem Item.reaches (item : Item) (hpending : state.pending = [])
    (htarget : ∀ target ∈ item.target?, target < Instruction.offsetBound)
    (hfits : FitsAt code n item.ops) :
    ∃ offset signature,
      Reaches .raw code (n, state) (n + item.ops.length, state.pushed (item.tree (.built .raw)) offset signature) := by
  have hquiet (length : Nat) : Quiet code n length state.pending :=
    quiet_of_pending hpending n length
  cases item with
  | simple s =>
      have hreturn : Flags.raw.comprehension = true → ∀ value, s ≠ .ret value := nofun
      exact s.reaches hreturn state hfits (hquiet _)
  | reraise => exact pushes_reraise.pushed state hfits (hquiet _)
  | raiseFrom exception cause =>
      exact (pushes_raiseFrom exception cause).pushed state hfits (hquiet _)
  | unpack first rest value => exact reaches_unpack first rest value hpending hfits
  | unpackStarred before star after value hbefore hafter =>
      exact reaches_unpackStarred before star after value hbefore hafter hpending hfits
  | jump forward words target =>
      exact (pushes_jump forward words (htarget target rfl)).pushed state hfits (hquiet _)
  | branch onTrue words test target =>
      exact (pushes_branch onTrue words test (htarget target rfl)).pushed state hfits (hquiet _)

/-! ### All items -/

/-- The statements of items in order, each at a level and with the offset of an instruction of its
item. -/
inductive Traces (code : Code) (level : Nat) : Nat → List Item → List Statement → Prop
  | nil (n : Nat) : Traces code level n [] []
  | cons {n : Nat} {item : Item} {items : List Item} {s : Statement} {statements : List Statement}
      (hline : s.line = (level, item.tree (.built .raw))) (hwithin : code.Within n (n + item.ops.length) s.offset)
      (rest : Traces code level (n + item.ops.length) items statements) :
      Traces code level n (item :: items) (s :: statements)

theorem reaches_items (items : List Item) (n : Nat) (state : State) (hpending : state.pending = [])
    (htargets : ∀ item ∈ items, ∀ target ∈ item.target?, target < Instruction.offsetBound)
    (hfits : FitsAt code n (items.flatMap Item.ops)) :
    ∃ statements signature, Traces code state.indent.toNat n items statements ∧
      Reaches .raw code (n, state)
        (n + (items.flatMap Item.ops).length,
          { state with stack := statements.reverse ++ state.stack, signature }) := by
  induction items generalizing n state with
  | nil => exact ⟨[], state.signature, .nil n, Reaches.refl _ _ _⟩
  | cons item items ih =>
      obtain ⟨htarget, htargets⟩ := List.forall_mem_cons.mp htargets
      obtain ⟨offset, signature, hitem⟩ := item.reaches hpending htarget hfits.append_left
      obtain ⟨statements, signature', htraces, hrest⟩ :=
        ih _ (state.pushed (item.tree (.built .raw)) offset signature) hpending htargets hfits.append_right
      refine ⟨⟨state.indent.toNat, item.tree (.built .raw), offset⟩ :: statements, signature',
        .cons rfl hitem.within_of_pushed htraces, ?_⟩
      rw [List.flatMap_cons, List.length_append, ← Nat.add_assoc]
      have hreaches := hitem.trans hrest
      simpa [State.pushed] using hreaches

namespace Traces

variable {level : Nat} {items : List Item} {statements : List Statement}

theorem lines (h : Traces code level n items statements) :
    statements.map Statement.line = items.map fun item => (level, item.tree (.built .raw)) := by
  induction h with
  | nil => rfl
  | cons hline _ _ ih => rw [List.map_cons, List.map_cons, hline, ih]

/-- The first statement that is not before the start of an item is that of the item. -/
theorem findIdx?_start (h : Traces code level n items statements) (hcode : code.Increasing) {k : Nat}
    (hins : code[n + Item.start items k]? = some ins) (hk : k < items.length) :
    statements.findIdx? (fun s => ins.offset ≤ s.offset) = some k := by
  induction h generalizing k with
  | nil => cases hk
  | cons hline hwithin rest ih =>
      obtain ⟨p, made, hp, hp', hmade, hoffset⟩ := hwithin
      cases k with
      | zero =>
          have hle : ins.offset ≤ made.offset := (hcode.offset_le_iff hins hmade).mpr hp
          rw [hoffset] at hle
          rw [List.findIdx?_cons, if_pos (decide_eq_true hle)]
      | succ k =>
          rw [Item.start, List.take_succ_cons, List.flatMap_cons, List.length_append,
            ← Nat.add_assoc] at hins
          have hlt : made.offset < ins.offset := (hcode.offset_lt_iff hmade hins).mpr (by omega)
          rw [hoffset] at hlt
          rw [List.findIdx?_cons, if_neg (by simpa using hlt),
            ih hins (Nat.lt_of_succ_lt_succ hk)]
          rfl

end Traces

theorem Item.tree_congr {r r' : Reading} (hspell : r.spell = r'.spell) {item : Item}
    (h : EntryFree item.ops) : item.tree r = item.tree r' := by
  cases item with
  | simple s => exact s.tree_congr hspell h
  | reraise => rfl
  | raiseFrom exception cause =>
      simp only [ops, EntryFree.append_iff] at h
      rw [tree, tree, Expr.tree_congr hspell h.1.1, Expr.tree_congr hspell h.1.2]
  | unpack first rest value =>
      rw [ops, EntryFree.append_iff] at h
      rw [tree, tree, Expr.tree_congr hspell h.1]
  | unpackStarred before star after value hbefore hafter =>
      rw [ops, EntryFree.append_iff] at h
      rw [tree, tree, Expr.tree_congr hspell h.1]
  | jump forward words target => rfl
  | branch onTrue words test target =>
      rw [ops, EntryFree.append_iff] at h
      rw [tree, tree, Expr.tree_congr hspell h.1]

/-- What is recovered from a goto program has one statement for each item, in order and at the margin, if
no dictionary display in it has entries. The first statement at an offset or behind it is that of the item
that starts there. -/
theorem reconstruct_goto (items : List Item) (code : Code) (hcode : code.Increasing)
    (hbound : ∀ ins ∈ code, ins.offset < Instruction.offsetBound)
    (hcompiled : List.Forall₂ Operation.Fits (items.flatMap Item.ops) code)
    (htargets : ∀ item ∈ items, ∀ target ∈ item.target?,
      ∃ k, Item.startOffset? items code k = some target)
    (hentries : EntryFree (items.flatMap Item.ops)) :
    ∃ result, reconstruct .raw code = .ok result ∧
      result.statements.map Statement.line = items.map (fun item => (0, item.tree .written)) ∧
      ∀ k offset, Item.startOffset? items code k = some offset →
        result.statements.findIdx? (fun s => offset ≤ s.offset) = some k := by
  have hlength : (items.flatMap Item.ops).length = code.length := hcompiled.length_eq
  have htargets' : ∀ item ∈ items, ∀ target ∈ item.target?, target < Instruction.offsetBound := by
    intro item hitem target htarget
    obtain ⟨k, hk⟩ := htargets item hitem target htarget
    obtain ⟨ins, hins, rfl⟩ := Option.map_eq_some_iff.mp hk
    exact hbound ins (List.mem_of_getElem? hins)
  obtain ⟨statements, signature, htraces, hreaches⟩ :=
    reaches_items items 0 {} rfl htargets' (.of_compiled hcompiled)
  rw [Nat.zero_add, hlength] at hreaches
  refine ⟨_, reconstruct_of_reaches rfl hreaches, ?_, fun k offset hk => ?_⟩
  · have hspell : (Reading.built .raw).spell = Reading.written.spell :=
      Expr.loadedName_eq_id rfl rfl
    have hread : items.map (fun item => (0, item.tree (.built .raw))) =
        items.map fun item => (0, item.tree .written) :=
      List.map_congr_left fun item hitem => by
        rw [Item.tree_congr hspell (EntryFree.flatMap_iff.mp hentries item hitem)]
    rw [← hread]
    simpa using htraces.lines
  · obtain ⟨ins, hins, rfl⟩ := Option.map_eq_some_iff.mp hk
    have hlt : k < items.length := by
      by_contra hle
      have hstart : Item.start items k = code.length := by
        rw [Item.start, List.take_of_length_le (by omega), hlength]
      rw [hstart, List.getElem?_length] at hins
      cases hins
    have hfind := htraces.findIdx?_start hcode (by rwa [Nat.zero_add]) hlt
    simpa using hfind

/-- A test that jumps over an unpacking, a jump forward and a jump back. The statement of `a` has the
offset of its load, as `POP_TOP` makes nothing. -/
theorem reconstruct_goto_unpacking :
    let code : Code :=
      [{ offset := 0, opname := "LOAD_NAME", argval := some "x" },
        { offset := 2, opname := "POP_JUMP_IF_FALSE", arg := some 16 },
        { offset := 4, opname := "LOAD_NAME", argval := some "f" },
        { offset := 6, opname := "CALL_FUNCTION", arg := some 0 },
        { offset := 8, opname := "UNPACK_SEQUENCE", arg := some 2 },
        { offset := 10, opname := "STORE_NAME", argval := some "a" },
        { offset := 12, opname := "STORE_NAME", argval := some "b" },
        { offset := 14, opname := "JUMP_FORWARD", arg := some 2, argval := some "to 18" },
        { offset := 16, opname := "JUMP_ABSOLUTE", arg := some 0 },
        { offset := 18, opname := "LOAD_NAME", argval := some "a" },
        { offset := 20, opname := "POP_TOP" },
        { offset := 22, opname := "LOAD_NAME", argval := some "b" },
        { offset := 24, opname := "RETURN_VALUE" }]
    code.Increasing ∧ (∀ ins ∈ code, ins.offset < Instruction.offsetBound) ∧
      ∃ result, reconstruct .raw code = .ok result ∧
        result.statements.map Statement.line =
          [(0, .goto 16 (some (.unary .not (.atom "x")))),
            (0, .assign (.tuple [.atom "a", .atom "b"]) (.call (.atom "f") [] [])),
            (0, .goto 18 none), (0, .goto 0 none), (0, .atom "a"), (0, .returnStmt (.atom "b"))] ∧
        Statement.renderAll [] false result.statements =
          "if not x: goto 16\n(a,b)=f()\ngoto 18\ngoto 0\na\nreturn b".toList ∧
        result.statements.findIdx? (fun s => 16 ≤ s.offset) = some 3 ∧
        result.statements.findIdx? (fun s => 18 ≤ s.offset) = some 4 ∧
        result.statements.findIdx? (fun s => 0 ≤ s.offset) = some 0 := by
  intro code
  let load (text : String) : Expr := .load .name text
  let items : List Item :=
    [.branch false false (load "x") 16,
      .unpack (.name .name "a") [.name .name "b"] (.call (load "f") []),
      .jump true true 18, .jump false false 0, .simple (.eval (load "a")),
      .simple (.ret (load "b"))]
  have hcode : code.Increasing := by decide
  have hbound : ∀ ins ∈ code, ins.offset < Instruction.offsetBound := by decide
  have hcompiled : List.Forall₂ Operation.Fits (items.flatMap Item.ops) code := by decide
  have htargets : ∀ item ∈ items, ∀ target ∈ item.target?,
      ∃ k, Item.startOffset? items code k = some target := by
    intro item hitem target htarget
    have hlisted : target ∈ items.filterMap Item.target? :=
      List.mem_filterMap.mpr ⟨item, hitem, htarget⟩
    have hstarts : ∀ target ∈ [16, 18, 0],
        ∃ k ∈ List.range 6, Item.startOffset? items code k = some target := by decide
    obtain ⟨k, -, hk⟩ := hstarts target hlisted
    exact ⟨k, hk⟩
  have htext : (reconstruct .raw code).map
      (fun result => Statement.renderAll [] false result.statements) =
        .ok "if not x: goto 16\n(a,b)=f()\ngoto 18\ngoto 0\na\nreturn b".toList := by rfl
  obtain ⟨result, hresult, hlines, hfind⟩ :=
    reconstruct_goto items code hcode hbound hcompiled htargets (by decide)
  rw [hresult] at htext
  exact ⟨hcode, hbound, result, hresult, hlines, Except.ok.inj htext, hfind 3 16 rfl,
    hfind 4 18 rfl, hfind 0 0 rfl⟩

/-- A display with entries is recovered with its keys where the values belong, and of formatted text a
placeholder is left, which does not take its operand. Of `*a, n, …, n = t` with 256 names behind the star
the recovered tuple has none, and each of them is bound to the statement before. -/
theorem exists_unrecovered_goto :
    let items : List Item :=
      [.branch true false (.dict [(.load .name "k", .load .name "v")]) 0]
    let code : Code :=
      [{ offset := 0, opname := "LOAD_NAME", argval := some "k" },
        { offset := 2, opname := "LOAD_NAME", argval := some "v" },
        { offset := 4, opname := "BUILD_MAP", arg := some 1 },
        { offset := 6, opname := "POP_JUMP_IF_TRUE", arg := some 0 }]
    let formatted : Code :=
      [{ offset := 0, opname := "LOAD_NAME", argval := some "y" },
        { offset := 2, opname := "FORMAT_VALUE", arg := some 0 },
        { offset := 4, opname := "STORE_NAME", argval := some "x" },
        { offset := 6, opname := "JUMP_ABSOLUTE", arg := some 0 }]
    let starred : Code :=
      { offset := 0, opname := "LOAD_NAME", argval := some "t" } ::
        { offset := 2, opname := "UNPACK_EX", arg := some (256 * 256) } ::
        { offset := 4, opname := "STORE_NAME", argval := some "a" } ::
        (List.range 256).map fun k =>
          { offset := 6 + 2 * k, opname := "STORE_NAME", argval := some "n" }
    (List.Forall₂ Operation.Fits (items.flatMap Item.ops) code ∧
      Item.startOffset? items code 0 = some 0 ∧
      (∃ result, reconstruct .raw code = .ok result ∧
        result.statements.map (fun s => s.node.render) = ["if \x7bv:k\x7d: goto 0"]) ∧
      items.map (fun item => (item.tree .written).render) = ["if \x7bk:v\x7d: goto 0"]) ∧
      (∃ result, reconstruct .raw formatted = .ok result ∧
        result.statements.map (fun s => s.node.render) =
          ["y", "x=<FORMAT_VALUE(0,None)>", "goto 0"]) ∧
      (reconstruct .raw starred).toOption.map
          (fun result => result.statements.map fun s => s.node.chars) =
        some [(List.replicate 256 ['n', '=']).flatten ++ "(*a,)=t".toList] := by
  intro items code formatted starred
  exact ⟨⟨by decide, rfl, ⟨_, rfl, by decide⟩, by decide⟩, ⟨_, rfl, by decide⟩,
    by decide +kernel⟩

end Decompiler
