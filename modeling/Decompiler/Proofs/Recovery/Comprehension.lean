import Decompiler.Proofs.Recovery.Loop
import Decompiler.Proofs.Source.Comprehension

/-!
Comprehensions and generator expressions are recovered. A condition jumps back to the head of its loop,
and its block ends with the loop: where the first jump back to the head after it has been passed. So all
the blocks of a clause end at one offset, which is where the jump of the loop around it stands.
-/

namespace Decompiler

open Walk

variable {flags : Flags} {code : Code} {place : Nat → Nat} {n head last depth : Nat}
  {before : State}

/-! ### Conditions -/

/-- From inside a loop, the loop ends behind the first jump back to its head. -/
theorem loopEnd?_place {back : Instruction} (hlaid : LaidOut place code)
    (hback : code[last]? = some back)
    (hjump : (Operation.absolute "JUMP_ABSOLUTE" (place head)).Fits back)
    (hlast : last + 1 < code.length) (hn : n < last)
    (hinner : ∀ k ins, n < k → k < last → code[k]? = some ins →
      ins.jumpsBackTo (place head) = false) :
    code.loopEnd? (place n) (place head) = some (place (last + 1)) := by
  obtain ⟨next, hnext⟩ : ∃ next, code[last + 1]? = some next :=
    ⟨_, List.getElem?_eq_getElem hlast⟩
  have hback' : back.jumpsBackTo (place head) = true := by
    rw [Instruction.jumpsBackTo, hjump.is_eq_true rfl, Operation.jumpTarget?_absolute hjump]
    simp
  have hdrop : code.dropWhile
      (fun ins => !(place n < ins.offset && ins.jumpsBackTo (place head))) = code.drop last := by
    refine (cut_at (fun k ins hk hins => ?_) fun ins hins => ?_).2
    · rw [Bool.not_eq_true', Bool.and_eq_false_iff, decide_eq_false_iff_not,
        hlaid.offset k ins hins, hlaid.place_lt_iff]
      by_cases hkn : n < k
      · exact Or.inr (hinner k ins hkn hk hins)
      · exact Or.inl hkn
    · rw [hback, Option.some.injEq] at hins
      subst hins
      rw [hback', hlaid.offset last back hback, decide_eq_true (hlaid.place_lt_iff.mpr hn)]
      rfl
  rw [Code.loopEnd?, hdrop, Code.drop_eq_cons hback, Code.drop_eq_cons hnext]
  dsimp only
  rw [hlaid.offset (last + 1) next hnext]

/-- A condition opens a block that ends with the loop around it. -/
theorem reaches_condition (c : Condition) {back : Instruction} (state : State)
    (hraw : flags.rawJumps = false) (hlaid : LaidOut place code)
    (hfits : FitsAt code n (c.ops (place head))) (hback : code[last]? = some back)
    (hjump : (Operation.absolute "JUMP_ABSOLUTE" (place head)).Fits back)
    (hlast : last + 1 < code.length) (hhead : head ≤ n) (hn : n + c.test.ops.length < last)
    (hinner : ∀ k ins, n ≤ k → k < last → code[k]? = some ins →
      ins.jumpsBackTo (place head) = false)
    (hclear : Clear place n last state.pending) :
    ∃ offset signature,
      Reaches flags code (n, state)
        (n + c.test.ops.length + 1,
          (state.pushed (.ifHead (c.node (.built flags))) offset signature).opened 1
            (place (last + 1))) := by
  obtain ⟨ins, offset, signature, hins, hop, hoffset, hquiet, htest⟩ :=
    reaches_test (c.test.pushes flags) state hlaid hfits hclear hn
  have hopcode : ins.opcode? = some (.popJumpIf c.negated) := hop.opcode?.trans c.ofName?_mnemonic
  have hbackward : ¬ ins.offset < place head := by
    rw [hoffset, hlaid.place_lt_iff]
    omega
  have hend : code.loopEnd? ins.offset (place head) = some (place (last + 1)) := by
    rw [hoffset]
    exact loopEnd?_place hlaid hback hjump hlast hn fun k ins hk => hinner k ins (by omega)
  have heffect : effect flags code ins (code.drop (n + c.test.ops.length + 1))
      (state.pushed (c.test.tree (.built flags)) offset signature) =
        .ok (.block 1 (.ifHead (c.node (.built flags))) (some (place (last + 1)))) := by
    rw [effect_test hraw hopcode (Operation.jumpTarget?_absolute hop), branch, if_neg hbackward, hend,
      Condition.node]
  exact ⟨_, _, htest.trans (reaches_head state hins hquiet heffect)⟩

/-- The conditions of a clause, around what the loop runs if they hold. -/
theorem leaves_conditions {back : Instruction} {lines : List (Nat × Node)}
    (hraw : flags.rawJumps = false) (hlaid : LaidOut place code) (hback : code[last]? = some back)
    (hjump : (Operation.absolute "JUMP_ABSOLUTE" (place head)).Fits back)
    (hlast : last + 1 < code.length) (conditions : List Condition) (start : Nat) (before : State)
    (depth : Nat) (hfits : FitsAt code start (conditionOps (place head) conditions))
    (hhead : head ≤ start) (hroom : start + conditionSize conditions ≤ last)
    (hinner : ∀ k ins, start ≤ k → k < last → code[k]? = some ins →
      ins.jumpsBackTo (place head) = false)
    (hdepth : before.indent = depth) (hclear : Clear place start (last + 1) before.pending)
    (hbody : ∀ before : State, before.indent = (depth + conditions.length : Nat) →
      Clear place (start + conditionSize conditions) (last + 1) before.pending →
      Leaves flags code place (start + conditionSize conditions) (last + 1) before before lines) :
    Leaves flags code place start (last + 1) before before
      (conditionLines (.built flags) depth conditions ++ lines) := by
  induction conditions generalizing start before depth with
  | nil => exact hbody before hdepth hclear
  | cons c rest ih =>
      -- the block of this condition and those inside it end at the same place
      rw [conditionSize] at hroom hbody
      obtain ⟨offset, signature, hcondition⟩ := reaches_condition c before hraw hlaid
        hfits.append_left hback hjump hlast hhead (by omega) hinner
        (hclear.sub (Nat.le_refl start) (by omega))
      have htail : FitsAt code (start + c.test.ops.length + 1) _ :=
        hfits.append_right.cast (by
          rw [Condition.ops, List.length_append, List.length_singleton, Nat.add_assoc])
      have hrest := ih (start + c.test.ops.length + 1)
        ((before.pushed (.ifHead (c.node (.built flags))) offset signature).opened 1
          (place (last + 1))) (depth + 1) htail (by omega) (by omega)
        (fun k ins hk => hinner k ins (by omega)) (by simp [hdepth])
        (Clear.opened hlaid (hclear.sub (by omega) (Nat.le_refl _)) (Nat.le_refl _))
        fun inside hinside hquiet => by
          have hsize : start + c.test.ops.length + 1 + conditionSize rest =
              start + (c.test.ops.length + 1 + conditionSize rest) := by omega
          rw [hsize] at hquiet ⊢
          refine hbody inside (hinside.trans ?_) hquiet
          rw [List.length_cons]
          omega
      have hlines := hrest.under.prepend hcondition
      rw [hdepth, Int.toNat_natCast] at hlines
      exact hlines

/-! ### Clauses -/

/-- The loop of a clause, around the code that it runs. -/
theorem leaves_loop (hraw : flags.rawJumps = false) (hlaid : LaidOut place code) (pattern : Pattern)
    (conditions : List Condition) {inner : List Operation} (value : Node) (offset high : Nat)
    (signature : Signature) {lines : List (Nat × Node)}
    (hfits : FitsAt code head (loopOps place head pattern conditions inner))
    (hstop : head + 1 + pattern.ops.length + conditionSize conditions + inner.length = last)
    (hlast : last + 1 < code.length) (hinner : JumpsWithin place (head + 1) high inner)
    (hdepth : before.indent = depth) (hclear : Clear place head (last + 1) before.pending)
    (hbody : ∀ before : State,
      FitsAt code (head + 1 + pattern.ops.length + conditionSize conditions) inner →
      before.indent = (depth + 1 + conditions.length : Nat) →
      Clear place (head + 1 + pattern.ops.length + conditionSize conditions) last
        before.pending →
      Leaves flags code place (head + 1 + pattern.ops.length + conditionSize conditions) last
        before before lines) :
    Leaves flags code place head (last + 1) (before.pushed value offset signature) before
      (loopLines (.built flags) depth pattern (iterated value) conditions lines) := by
  rw [loopOps, hstop] at hfits
  have hhead := hfits.append_left.append_left.append_left
  have hconditions : FitsAt code (head + 1 + pattern.ops.length) _ :=
    hfits.append_left.append_left.append_right.cast
      (by rw [List.length_append, List.length_singleton, Nat.add_assoc])
  have hrun : FitsAt code (head + 1 + pattern.ops.length + conditionSize conditions) _ :=
    hfits.append_left.append_right.cast (by
      simp only [List.length_append, List.length_singleton, length_conditionOps]
      omega)
  have hclosing : FitsAt code last _ :=
    hfits.append_right.cast (by
      simp only [List.length_append, List.length_singleton, length_conditionOps]
      omega)
  obtain ⟨next, hnext, hiter⟩ := hhead.append_left.head
  obtain ⟨back, hback, hjump⟩ := hclosing.head
  have hquiet : ∀ change ∈ before.pending, change.target ≠ next.offset := by
    rw [hlaid.offset head next hnext]
    exact fun change hchange => hclear change hchange head (Nat.le_refl head) (by omega)
  obtain ⟨offset', signature', hstep⟩ := reaches_forHead before pattern
    (hlaid.place_lt_offsetBound (by omega)) hhead hnext hquiet
  -- until its last instruction the loop does not jump back to its head
  have hforward : ∀ k ins, head + 1 + pattern.ops.length ≤ k → k < last → code[k]? = some ins →
      ins.jumpsBackTo (place head) = false := by
    intro k ins hk hk' hins
    by_cases hcondition : k < head + 1 + pattern.ops.length + conditionSize conditions
    · have hnone : JumpsWithin place 0 0 (conditionOps (place head) conditions) :=
        jumpsWithin_conditionOps _ _
      exact hlaid.jumpsBackTo_eq_false hconditions hnone hins hk
        (by rw [length_conditionOps]; omega) (Or.inr (Nat.zero_le _))
    · exact hlaid.jumpsBackTo_eq_false hrun hinner hins (by omega) (by omega)
        (Or.inl (Nat.lt_succ_self head))
  have hblocks := leaves_conditions hraw hlaid hback hjump hlast conditions _
    ((before.pushed (.forHead pattern.target.node (iterated value)) offset' signature').opened 1
      (place (last + 1))) (depth + 1) hconditions (by omega) (by omega) hforward
    (by simp [hdepth]) (Clear.opened hlaid (hclear.sub (by omega) (Nat.le_refl _)) (Nat.le_refl _))
    fun inside hinside hquiet =>
      (hbody inside hrun hinside (hquiet.sub (Nat.le_refl _) (by omega))).close hlaid
        (hquiet.sub (by omega) (Nat.le_refl _)) hback
        fun after _ => effect_endFor hlaid hraw hnext hiter hback hjump _ after
  have hlines := hblocks.under.prepend hstep
  rw [hdepth, Int.toNat_natCast] at hlines
  exact hlines

/-- A value is collected by a method of the accumulator. -/
theorem pushes_accumulate {mnemonic method : String} {opcode : Opcode} (value : Expr)
    (hname : Opcode.ofName? mnemonic = some opcode)
    (hopcode : ∀ code ins ahead state,
      opcodeEffect { comprehension := true } code ins ahead state opcode =
        accumulate { comprehension := true } ins method state) :
    Pushes { comprehension := true } (value.ops ++ [.bare mnemonic])
      (.call (.attribute .accumulator method)
        [value.tree (.built { comprehension := true })] []) := by
  refine pushes_wrap (fun value => .call (.attribute .accumulator method) [value] [])
    (value.pushes _) fun code ins ahead state hop => ?_
  rw [effect_of_fits hop hname, hopcode]
  rfl

/-- A value is stored in the accumulator under the key that was computed before it. -/
theorem pushes_accumulateEntry (key value : Expr) :
    Pushes { comprehension := true } (key.ops ++ value.ops ++ [.bare "MAP_ADD"])
      (.itemAssign .accumulator (key.tree (.built { comprehension := true }))
        (value.tree (.built { comprehension := true }))) := by
  refine pushes_combine (.itemAssign .accumulator) (key.pushes _) (value.pushes _)
    fun code ins ahead state hop => ?_
  have hopcode : (Operation.bare "MAP_ADD").opcode? = some .mapAdd := rfl
  rw [effect_of_fits hop hopcode]
  rfl

/-- What is collected is added at the level that it is met at. -/
theorem reaches_result (result : Collected) (state : State)
    (hfits : FitsAt code n result.ops) (hquiet : Quiet code n result.ops.length state.pending) :
    ∃ offset signature,
      Reaches result.flags code (n, state)
        (n + result.ops.length,
          state.pushed (result.node (.built result.flags)) offset signature) := by
  cases result with
  | list value =>
      have hname : Opcode.ofName? "LIST_APPEND" = some .listAppend := rfl
      exact (pushes_accumulate value hname fun _ _ _ _ => rfl).pushed state hfits hquiet
  | set value =>
      have hname : Opcode.ofName? "SET_ADD" = some .setAdd := rfl
      exact (pushes_accumulate value hname fun _ _ _ _ => rfl).pushed state hfits hquiet
  | dict key value => exact (pushes_accumulateEntry key value).pushed state hfits hquiet
  | generator value =>
      refine Pushes.popped (pushes_wrap .yieldStmt (value.pushes _)
        fun code ins ahead state hop => ?_) state hfits hquiet
      have hopcode : (Operation.bare "YIELD_VALUE").opcode? = some .yieldValue := rfl
      rw [effect_of_fits hop hopcode]
      rfl

/-- The clauses after the first, around what is collected. -/
theorem leaves_body (hlaid : LaidOut place code) (result : Collected) (clauses : List Clause)
    (start : Nat) (before : State) (depth : Nat)
    (hfits : FitsAt code start (bodyOps place result start clauses))
    (hroom : start + (bodyOps place result start clauses).length < code.length)
    (hdepth : before.indent = depth)
    (hclear : Clear place start (start + (bodyOps place result start clauses).length)
      before.pending) :
    Leaves result.flags code place start
      (start + (bodyOps place result start clauses).length) before before
      (bodyLines (.built result.flags) result depth clauses) := by
  have hraw : result.flags.rawJumps = false := by cases result <;> rfl
  induction clauses generalizing start before depth with
  | nil =>
      obtain ⟨offset, signature, hreaches⟩ :=
        reaches_result result before hfits (hclear.quiet hlaid)
      have hadds := Adds.pushed before offset signature
        (result.node_ne_elseHead (.built result.flags))
      rw [hdepth, Int.toNat_natCast] at hadds
      exact .of_adds hadds hreaches
  | cons clause rest ih =>
      have hstop : start + (bodyOps place result start (clause :: rest)).length =
          start + clause.iterable.ops.length + 1 + 1 + clause.pattern.ops.length +
            conditionSize clause.conditions +
            (bodyOps place result (start + clause.iterable.ops.length + 1 + 1 +
              clause.pattern.ops.length + conditionSize clause.conditions) rest).length + 1 := by
        simp only [bodyOps, List.length_append, length_loopOps, List.length_singleton]
        omega
      rw [hstop] at hroom hclear ⊢
      have hiterator := hfits.append_left
      have hloop : FitsAt code (start + clause.iterable.ops.length + 1) _ :=
        hfits.append_right.cast
          (by rw [List.length_append, List.length_singleton, Nat.add_assoc])
      obtain ⟨offset, signature, hreaches⟩ := reaches_iter (clause.iterable.pushes result.flags)
        before hlaid hiterator (hclear.sub (Nat.le_refl start) (by omega))
      have hlines := leaves_loop hraw hlaid clause.pattern clause.conditions
        (.iter (clause.iterable.tree (.built result.flags))) offset _ signature hloop rfl hroom
        ((jumpsWithin_bodyOps place result _ rest).mono (by omega) (Nat.le_refl _)) hdepth
        (hclear.sub (by omega) (Nat.le_refl _)) fun inside hrest hinside hquiet =>
          ih _ inside _ hrest (by omega) hinside hquiet
      exact hlines.prepend hreaches

/-! ### Whole comprehensions -/

theorem pushes_returnAccumulator (hcomprehension : flags.comprehension = true) :
    Pushes flags [.bare "RETURN_VALUE"] (.returnStmt .accumulator) := by
  refine pushesAll_nil.finish fun code ins ahead state below hop _ => ?_
  have hreturn : (Operation.bare "RETURN_VALUE").opcode? = some .returnValue := rfl
  rw [effect_of_fits hop hreturn, opcodeEffect, returnValue, if_pos hcomprehension]
  rfl

theorem pushes_returnNone :
    Pushes { generatorExpression := true }
      ([.named "LOAD_CONST" "None"] ++ [.bare "RETURN_VALUE"]) (.returnStmt (.atom "None")) := by
  refine pushes_wrap .returnStmt (pushes_load { generatorExpression := true } .const "None")
    fun code ins ahead state hop => ?_
  have hreturn : (Operation.bare "RETURN_VALUE").opcode? = some .returnValue := rfl
  rw [effect_of_fits hop hreturn]
  rfl

/-- A comprehension returns what it has collected, a generator nothing. -/
theorem pushes_closing (result : Collected) :
    Pushes result.flags result.closing (.returnStmt result.returned) := by
  cases result with
  | generator value => exact pushes_returnNone
  | list value => exact pushes_returnAccumulator rfl
  | set value => exact pushes_returnAccumulator rfl
  | dict key value => exact pushes_returnAccumulator rfl

/-- The iterator that is passed has a name under the flags. -/
theorem pushes_iterator (result : Collected) :
    Pushes result.flags [.named "LOAD_FAST" ".0"] (.atom "__0") := by
  cases result with
  | generator value => exact pushes_load { generatorExpression := true } .fast ".0"
  | list value => exact pushes_load { comprehension := true } .fast ".0"
  | set value => exact pushes_load { comprehension := true } .fast ".0"
  | dict key value => exact pushes_load { comprehension := true } .fast ".0"

/-- From the load of the iterator on, the lines of the loops and the return are added. -/
theorem leaves_comprehension (hlaid : LaidOut place code) (c : Comprehension) (start : Nat)
    (before : State) (hfits : FitsAt code start (c.loop place start))
    (hstop : start + (c.loop place start).length = code.length)
    (hindent : before.indent = (0 : Nat)) (hpending : before.pending = []) :
    Leaves c.result.flags code place start code.length before before
      (loopLines (.built c.result.flags) 0 c.pattern (.atom "__0") c.conditions
          (bodyLines (.built c.result.flags) c.result (1 + c.conditions.length) c.clauses) ++
        [(0, .returnStmt c.result.returned)]) := by
  have hraw : c.result.flags.rawJumps = false := by cases c.result <;> rfl
  have hclear (start stop : Nat) : Clear place start stop before.pending := by
    rw [hpending]
    exact nofun
  have hpos : 0 < c.result.closing.length := by cases c.result <;> simp [Collected.closing]
  have hlength : (c.loop place start).length = 1 + (1 + c.pattern.ops.length +
      conditionSize c.conditions + (bodyOps place c.result
        (start + 1 + 1 + c.pattern.ops.length + conditionSize c.conditions) c.clauses).length + 1) +
        c.result.closing.length := by
    rw [Comprehension.loop, List.length_append, List.length_append, length_loopOps,
      List.length_singleton]
  obtain ⟨offset, signature, hload⟩ := (pushes_iterator c.result).pushed before
    hfits.append_left.append_left ((hclear start (start + 1)).quiet hlaid)
  have hloop : FitsAt code (start + 1) _ := hfits.append_left.append_right
  have hclosing : FitsAt code (start + 1 + 1 + c.pattern.ops.length + conditionSize c.conditions +
      (bodyOps place c.result
        (start + 1 + 1 + c.pattern.ops.length + conditionSize c.conditions) c.clauses).length + 1) _ :=
    hfits.append_right.cast (by
      rw [List.length_append, length_loopOps, List.length_singleton]
      omega)
  have hlines := leaves_loop hraw hlaid c.pattern c.conditions (.atom "__0") offset _ signature hloop
    rfl (by omega) ((jumpsWithin_bodyOps place c.result _ c.clauses).mono (by omega) (Nat.le_refl _))
    hindent (hclear _ _) fun inside hbody hinside hquiet =>
      leaves_body hlaid c.result c.clauses _ inside _ hbody (by omega) hinside hquiet
  refine (hlines.prepend hload).seq hlaid (by omega) fun after hadds => ?_
  obtain ⟨offset', signature', hreturn⟩ := (pushes_closing c.result).pushed after hclosing
    ((hadds.pending ▸ hclear _ _).quiet hlaid)
  have hreturned := Adds.pushed after offset' signature'
    (show Node.returnStmt c.result.returned ≠ .elseHead from nofun)
  rw [hadds.indent, hindent, Int.toNat_natCast] at hreturned
  refine .of_adds hreturned ?_
  have hend : code.length = start + 1 + 1 + c.pattern.ops.length + conditionSize c.conditions +
      (bodyOps place c.result
        (start + 1 + 1 + c.pattern.ops.length + conditionSize c.conditions) c.clauses).length + 1 +
          c.result.closing.length := by omega
  rw [hend]
  exact hreturn

/-- The first instruction of a comprehension makes the container. -/
theorem step_container {result : Collected} {operation : Operation} {node : Node}
    {ins : Instruction} (hcontainer : result.container? = some (operation, node))
    (hfits : operation.Fits ins) (code ahead : Code) :
    step result.flags code ins ahead {} =
      .ok (({} : State).apply ins.offset (.replace 0 node), 0) := by
  refine step_of_effect nofun ?_
  cases result with
  | generator value => cases hcontainer
  | list value =>
      cases hcontainer
      have hop : (Operation.counted "BUILD_LIST" 0).opcode? = some (.build .list) := rfl
      rw [effect_of_fits hfits hop, opcodeEffect, build,
        Instruction.requireArg_eq_ok.mpr hfits.operands]
      rfl
  | set value =>
      cases hcontainer
      have hop : (Operation.counted "BUILD_SET" 0).opcode? = some (.build .set) := rfl
      rw [effect_of_fits hfits hop, opcodeEffect, build,
        Instruction.requireArg_eq_ok.mpr hfits.operands]
      rfl
  | dict key value =>
      cases hcontainer
      have hop : (Operation.counted "BUILD_MAP" 0).opcode? = some .buildMap := rfl
      rw [effect_of_fits hfits hop, opcodeEffect, buildMap,
        Instruction.requireArg_eq_ok.mpr hfits.operands]
      rfl

/-- The whole code adds its lines, and a container is bound to the accumulator before them. -/
theorem exists_reconstruct (hlaid : LaidOut place code) (c : Comprehension)
    (hcode : List.Forall₂ Operation.Fits (c.ops place) code) :
    ∃ result, reconstruct c.result.flags code = .ok result ∧
      result.statements.map Statement.line = c.lines (.built c.result.flags) := by
  have hfits := FitsAt.of_compiled hcode
  have hlength := hcode.length_eq
  rw [Comprehension.ops] at hfits hlength
  cases hcontainer : c.result.container? with
  | none =>
      rw [hcontainer] at hfits hlength
      dsimp only at hfits hlength
      obtain ⟨levels, after, hadds, hreaches⟩ := leaves_comprehension hlaid c 0 {} hfits
        (by rw [hlength, Nat.zero_add]) rfl rfl
      have hflags : c.result.flags.comprehension = false := by
        rw [Collected.comprehension_flags, hcontainer]
        rfl
      refine ⟨_, reconstruct_of_reaches hflags hreaches, ?_⟩
      have hlines : after.lines = _ := hadds.lines
      rw [State.opened_stack, ← State.lines, hlines, Comprehension.lines, hcontainer]
      rfl
  | some container =>
      obtain ⟨operation, node⟩ := container
      rw [hcontainer] at hfits hlength
      dsimp only at hfits hlength
      have hflags : c.result.flags.comprehension = true := by
        rw [Collected.comprehension_flags, hcontainer]
        rfl
      obtain ⟨ins, hins, hop⟩ := hfits.head
      obtain ⟨ahead, rfl⟩ : ∃ ahead, code = ins :: ahead := by
        have hdrop := Code.drop_eq_cons hins
        exact ⟨_, by rwa [List.drop_zero] at hdrop⟩
      -- The accumulator is assigned by the first instruction, so the loops start behind it.
      obtain ⟨levels, after, hadds, hreaches⟩ := leaves_comprehension hlaid c 1
        (({} : State).pushed (.assign .accumulator node) ins.offset {}) hfits.tail
        (by rw [← hlength, List.length_cons, Nat.add_comm]) rfl rfl
      refine ⟨_, reconstruct_of_collect hflags (step_container hcontainer hop _ _) hreaches, ?_⟩
      have hlines : after.lines = _ := hadds.lines
      rw [State.opened_stack, ← State.lines, hlines, Comprehension.lines, hcontainer]
      rfl

/-! ### Readings -/

variable {r r' : Reading}

theorem conditionLines_congr (hspell : r.spell = r'.spell) {target : Nat}
    {conditions : List Condition} (h : EntryFree (conditionOps target conditions)) (depth : Nat) :
    conditionLines r depth conditions = conditionLines r' depth conditions := by
  induction conditions generalizing depth with
  | nil => rfl
  | cons c rest ih =>
      rw [conditionOps, List.flatMap_cons, EntryFree.append_iff, Condition.ops,
        EntryFree.append_iff] at h
      rw [conditionLines, conditionLines, Condition.node, Condition.node,
        Expr.tree_congr hspell h.1.1, ih h.2]

theorem Collected.node_congr (hspell : r.spell = r'.spell) {result : Collected} (h : EntryFree result.ops) :
    result.node r = result.node r' := by
  cases result with
  | list value =>
      rw [Collected.ops, EntryFree.append_iff] at h
      rw [Collected.node, Collected.node, Expr.tree_congr hspell h.1]
  | set value =>
      rw [Collected.ops, EntryFree.append_iff] at h
      rw [Collected.node, Collected.node, Expr.tree_congr hspell h.1]
  | dict key value =>
      simp only [Collected.ops, EntryFree.append_iff] at h
      rw [Collected.node, Collected.node, Expr.tree_congr hspell h.1.1,
        Expr.tree_congr hspell h.1.2]
  | generator value =>
      simp only [Collected.ops, EntryFree.append_iff] at h
      rw [Collected.node, Collected.node, Expr.tree_congr hspell h.1.1]

theorem bodyLines_congr (hspell : r.spell = r'.spell) {result : Collected} {start : Nat}
    {clauses : List Clause} (h : EntryFree (bodyOps place result start clauses)) (depth : Nat) :
    bodyLines r result depth clauses = bodyLines r' result depth clauses := by
  induction clauses generalizing start depth with
  | nil => rw [bodyLines, bodyLines, Collected.node_congr hspell h]
  | cons clause rest ih =>
      simp only [bodyOps, loopOps, EntryFree.append_iff] at h
      obtain ⟨⟨hiterable, -⟩, ⟨⟨-, hconditions⟩, hinner⟩, -⟩ := h
      rw [bodyLines, bodyLines, loopLines, loopLines, Expr.tree_congr hspell hiterable,
        conditionLines_congr hspell hconditions, ih hinner]

theorem Comprehension.lines_congr (hspell : r.spell = r'.spell) {c : Comprehension}
    (h : EntryFree (c.ops place)) : c.lines r = c.lines r' := by
  obtain ⟨start, hloop⟩ : ∃ start, EntryFree (c.loop place start) := by
    rw [Comprehension.ops] at h
    split at h
    · exact ⟨1, (EntryFree.cons_iff.mp h).2⟩
    · exact ⟨0, h⟩
  simp only [Comprehension.loop, loopOps, EntryFree.append_iff] at hloop
  obtain ⟨⟨-, ⟨⟨-, hconditions⟩, hinner⟩, -⟩, -⟩ := hloop
  rw [Comprehension.lines, Comprehension.lines, loopLines, loopLines,
    conditionLines_congr hspell hconditions, bodyLines_congr hspell hinner]

/-- Any comprehension or generator expression that is compiled and laid out is recovered, if no dictionary
display in it has entries: the container is bound to the accumulator, the heads of the loops and conditions
stand in the order of the clauses, each one level deeper than the one before, what is collected stands inside
them all, and the end returns the accumulator. -/
theorem reconstruct_comprehension (place : Nat → Nat) (c : Comprehension) (code : Code)
    (hlaid : LaidOut place code) (hcode : List.Forall₂ Operation.Fits (c.ops place) code)
    (hentries : EntryFree (c.ops place)) :
    ∃ result, reconstruct c.result.flags code = .ok result ∧
      result.statements.map Statement.line = c.lines { spell := loadedName c.result.flags } ∧
      (c.result.container?.map fun container =>
        (Node.assign .accumulator container.2).render) = c.result.opening := by
  obtain ⟨result, hresult, hlines⟩ := exists_reconstruct hlaid c hcode
  have hread : c.lines (.built c.result.flags) =
      c.lines { spell := loadedName c.result.flags } := Comprehension.lines_congr (by rfl) hentries
  refine ⟨result, hresult, hlines.trans hread, ?_⟩
  cases c.result <;> rfl

/-- A set comprehension over two iterators with three conditions, one of them negated. The blocks of both
clauses are left open where the inner loop ends, and closed one loop after the other. -/
theorem reconstruct_comprehension_set :
    let code : Code :=
      [{ offset := 0, opname := "BUILD_SET", arg := some 0 },
        { offset := 2, opname := "LOAD_FAST", argval := some ".0" },
        { offset := 4, opname := "FOR_ITER", arg := some 38, argval := some "to 44" },
        { offset := 6, opname := "STORE_FAST", argval := some "x" },
        { offset := 8, opname := "LOAD_FAST", argval := some "x" },
        { offset := 10, opname := "POP_JUMP_IF_FALSE", arg := some 4 },
        { offset := 12, opname := "LOAD_GLOBAL", argval := some "skip" },
        { offset := 14, opname := "POP_JUMP_IF_TRUE", arg := some 4 },
        { offset := 16, opname := "LOAD_FAST", argval := some "x" },
        { offset := 18, opname := "GET_ITER" },
        { offset := 20, opname := "FOR_ITER", arg := some 20, argval := some "to 42" },
        { offset := 22, opname := "UNPACK_SEQUENCE", arg := some 2 },
        { offset := 24, opname := "STORE_FAST", argval := some "y" },
        { offset := 26, opname := "STORE_FAST", argval := some "z" },
        { offset := 28, opname := "LOAD_FAST", argval := some "z" },
        { offset := 30, opname := "POP_JUMP_IF_FALSE", arg := some 20 },
        { offset := 32, opname := "LOAD_FAST", argval := some "y" },
        { offset := 34, opname := "LOAD_FAST", argval := some "z" },
        { offset := 36, opname := "BINARY_ADD" },
        { offset := 38, opname := "SET_ADD", arg := some 3 },
        { offset := 40, opname := "JUMP_ABSOLUTE", arg := some 20 },
        { offset := 42, opname := "JUMP_ABSOLUTE", arg := some 4 },
        { offset := 44, opname := "RETURN_VALUE" }]
    ∃ result, reconstruct { comprehension := true } code = .ok result ∧
      result.statements.map Statement.line =
        [(0, .assign .accumulator (.display .set [])),
          (0, .forHead (.atom "x") (.atom "__0")),
          (1, .ifHead (.atom "x")), (2, .ifHead (.negation (.atom "skip"))),
          (3, .forHead (.tuple [.atom "y", .atom "z"]) (.atom "x")), (4, .ifHead (.atom "z")),
          (5, .call (.attribute .accumulator "add") [.binary .add (.atom "y") (.atom "z")] []),
          (0, .returnStmt .accumulator)] ∧
      some (Node.assign .accumulator (.display .set [])).render = some "__temp=set()" := by
  intro code
  let c : Comprehension :=
    { pattern := .name .fast "x"
      conditions := [⟨false, .load .fast "x"⟩, ⟨true, .load .global "skip"⟩]
      clauses :=
        [{ pattern := .tuple (.name .fast "y") [.name .fast "z"]
           iterable := .load .fast "x"
           conditions := [⟨false, .load .fast "z"⟩] }]
      result := .set (.binary .add (.load .fast "y") (.load .fast "z")) }
  have hlaid : LaidOut (2 * ·) code := LaidOut.of_words (by decide) (by decide)
  exact reconstruct_comprehension (2 * ·) c code hlaid (by decide) (by decide)

/-- In `[{k: v} for x in xs]` the display is recovered with its keys where the values belong. In
`[f"{x}" for x in xs]` the placeholder is collected, and the name stays behind. -/
theorem exists_unrecovered_comprehension :
    let c : Comprehension :=
      { pattern := .name .fast "x", conditions := [], clauses := []
        result := .list (.dict [(.load .global "k", .load .global "v")]) }
    let code : Code :=
      [{ offset := 0, opname := "BUILD_LIST", arg := some 0 },
        { offset := 2, opname := "LOAD_FAST", argval := some ".0" },
        { offset := 4, opname := "FOR_ITER", arg := some 12, argval := some "to 18" },
        { offset := 6, opname := "STORE_FAST", argval := some "x" },
        { offset := 8, opname := "LOAD_GLOBAL", argval := some "k" },
        { offset := 10, opname := "LOAD_GLOBAL", argval := some "v" },
        { offset := 12, opname := "BUILD_MAP", arg := some 1 },
        { offset := 14, opname := "LIST_APPEND", arg := some 2 },
        { offset := 16, opname := "JUMP_ABSOLUTE", arg := some 4 },
        { offset := 18, opname := "RETURN_VALUE" }]
    let formatted : Code :=
      [{ offset := 0, opname := "BUILD_LIST", arg := some 0 },
        { offset := 2, opname := "LOAD_FAST", argval := some ".0" },
        { offset := 4, opname := "FOR_ITER", arg := some 10, argval := some "to 16" },
        { offset := 6, opname := "STORE_FAST", argval := some "x" },
        { offset := 8, opname := "LOAD_FAST", argval := some "x" },
        { offset := 10, opname := "FORMAT_VALUE", arg := some 0 },
        { offset := 12, opname := "LIST_APPEND", arg := some 2 },
        { offset := 14, opname := "JUMP_ABSOLUTE", arg := some 4 },
        { offset := 16, opname := "RETURN_VALUE" }]
    (LaidOut (2 * ·) code ∧ List.Forall₂ Operation.Fits (c.ops (2 * ·)) code ∧
      (∃ result, reconstruct { comprehension := true } code = .ok result ∧
        result.statements.map (fun s => s.node.render) =
          ["__temp=[]", "for x in __0:", "__temp.append(\x7bv:k\x7d)", "return __temp"]) ∧
      (c.lines { spell := loadedName c.result.flags }).map (fun line => line.2.render) =
        ["__temp=[]", "for x in __0:", "__temp.append(\x7bk:v\x7d)", "return __temp"]) ∧
      ∃ result, reconstruct { comprehension := true } formatted = .ok result ∧
        result.statements.map (fun s => s.node.render) =
          ["__temp=[]", "for x in __0:", "x", "__temp.append(<FORMAT_VALUE(0,None)>)",
            "return __temp"] := by
  intro c code formatted
  have hlaid : LaidOut (2 * ·) code := LaidOut.of_words (by decide) (by decide)
  exact ⟨⟨hlaid, by decide, ⟨_, rfl, by decide⟩, by decide⟩, _, rfl, by decide⟩

end Decompiler
