import Decompiler.Proofs.Source.Program
import Decompiler.Proofs.Recovery.Expression
import Decompiler.Proofs.Walk.Heads

/-!
Branches are told from loops and put together with the `else` they stand in. A test that jumps forward
is a branch if what stands before its target does not jump back over it, and the branch is an `elif` if
it ends where the `else` on top of the stack does.
-/

namespace Decompiler

namespace Walk

/-- What stands right before the target of a branch that is over at `stop`: the last instruction of its
body, which starts at `inner`, or the jump over its `else`. -/
inductive EndsBranch (place : Nat → Nat) (inner target stop : Nat) (last : Instruction) : Prop
  | body (hstop : target = stop) (hforward : last.is .jumpForward = false)
      (hback : ∀ t, last.is .jumpAbsolute = true → last.jumpTarget? = some t → place inner ≤ t)
  | jump (hstop : target < stop) (hforward : last.is .jumpForward = true)
      (htarget : last.jumpTarget? = some (place stop))

/-- The last instruction of a body ends the branch that the body is all of. -/
theorem EndsBranch.of_contained {code : Code} {place : Nat → Nat} {last : Instruction}
    {inner size : Nat} {ops : List Operation} (hlaid : LaidOut place code)
    (hcontained : Contained place inner size ops) (hfits : FitsAt code inner ops)
    (hlast : code[inner + size - 1]? = some last) :
    EndsBranch place inner (inner + size) (inner + size) last := by
  have hpos := hcontained.pos
  have hops : ops ≠ [] := List.ne_nil_of_length_pos (hcontained.length ▸ hpos)
  refine .body rfl ?_ fun t hjump htarget => ?_
  · obtain ⟨op, hop, hopfits⟩ := hfits.getLast (by rwa [hcontained.length]) hops
    rw [hopfits.is_eq, decide_eq_false_iff_not]
    exact hcontained.last op hop
  · obtain ⟨q, hq, -, rfl⟩ := LaidOut.exists_target hfits hcontained.within hlast (by omega)
      (by rw [hcontained.length]; omega) hjump htarget
    exact hlaid.increasing.monotone hq

/-- If an `else` waits for its body on top of the stack, then it ends after a position. -/
def Apart (code : Code) (place : Nat → Nat) (stop : Nat) (state : State) : Prop :=
  ∀ top ∈ state.stack.head?, top.node = .elseHead →
    ∃ p, (code.atOffset? top.offset).bind Instruction.jumpTarget? = some (place p) ∧ stop < p

variable {code : Code} {place : Nat → Nat} {last : Instruction} {origin inner target stop : Nat}

namespace EndsBranch

theorem headsWhile_eq_false (h : EndsBranch place inner target stop last)
    (hlast : code.beforeOffset? (place target) = some last) (horigin : origin ≤ place inner) :
    code.headsWhile origin (place target) = false := by
  rw [Code.headsWhile, hlast, Option.any_some]
  cases h with
  | body hstop hforward hback =>
      cases hjump : last.is .jumpAbsolute with
      | false => rfl
      | true =>
          cases htarget : last.jumpTarget? with
          | none => rfl
          | some t =>
              have hle : ¬ t < origin := by
                have := hback t hjump htarget
                omega
              simp [hle]
  | jump hstop hforward htarget =>
      have hjump : last.is .jumpAbsolute = false := by
        simp only [Instruction.is, decide_eq_true_eq] at hforward
        simp [Instruction.is, hforward]
      simp [hjump]

theorem fillsElse (h : EndsBranch place inner target stop last)
    (hlast : code.beforeOffset? (place target) = some last) :
    code.fillsElse (place target) (place stop) = true := by
  rw [Code.fillsElse, hlast]
  cases h with
  | body hstop hforward hback => simp [hstop]
  | jump hstop hforward htarget => simp [hforward, htarget]

theorem fillsElse_eq_false (h : EndsBranch place inner target stop last)
    (hlaid : LaidOut place code) (hlast : code.beforeOffset? (place target) = some last) {p : Nat}
    (hp : stop < p) : code.fillsElse (place target) (place p) = false := by
  have hne (q : Nat) (hq : q ≤ stop) : place q ≠ place p := by
    intro heq
    have := hlaid.place_inj.mp heq
    omega
  rw [Code.fillsElse, hlast]
  cases h with
  | body hstop hforward hback => simp [hforward, hne target (by omega)]
  | jump hstop hforward htarget => simp [htarget, hne target (by omega), hne stop (by omega)]

end EndsBranch

/-- A branch is not the body of an `else` that ends after it. -/
theorem elseEnd?_eq_none {state : State} (h : EndsBranch place inner target stop last)
    (hlaid : LaidOut place code) (hlast : code.beforeOffset? (place target) = some last)
    (hapart : Apart code place stop state) :
    elseEnd? code state.indent state.stack (place target) = none := by
  unfold elseEnd?
  split
  · next level offset rest hstack =>
    obtain ⟨p, hp, hafter⟩ := hapart ⟨level, .elseHead, offset⟩ (by rw [hstack]; rfl) rfl
    rw [hp, Option.filter_some, h.fillsElse_eq_false hlaid hlast hafter]
    simp
  · rfl

/-- A branch that is over where the `else` on top of the stack is fills it. -/
theorem elseEnd?_eq_some {state : State} {depth offset : Nat} (signature : Signature)
    (h : EndsBranch place inner target stop last)
    (hlast : code.beforeOffset? (place target) = some last) (hdepth : state.indent = depth)
    (helse : (code.atOffset? offset).bind Instruction.jumpTarget? = some (place stop)) :
    elseEnd? code (state.indent + 1) (state.pushed .elseHead offset signature).stack
      (place target) = some (place stop) := by
  have hlevel : (state.indent.toNat : Int) = state.indent + 1 - 1 := by omega
  simp [elseEnd?, State.pushed, hlevel, helse, h.fillsElse hlast]

/-- How a statement that is over at `stop` may be met: after other statements, or as all that the `else`
on top of the stack has in it. What comes before the statement is told without that `else`. -/
inductive Met (code : Code) (place : Nat → Nat) (s : Stmt) (stop : Nat) :
    Bool → State → State → Prop
  | alone {before : State} (hapart : s.isIf = true → Apart code place stop before) :
      Met code place s stop false before before
  | filling {before : State} {offset : Nat} {signature : Signature} (hif : s.isIf = true)
      (helse : (code.atOffset? offset).bind Instruction.jumpTarget? = some (place stop)) :
      Met code place s stop true
        ((before.pushed .elseHead offset signature).opened 1 (place stop)) before

theorem Met.clear {s : Stmt} {elif : Bool} {state before : State} {start : Nat}
    (h : Met code place s stop elif state before) (hlaid : LaidOut place code)
    (hclear : Clear place start stop before.pending) : Clear place start stop state.pending := by
  cases h with
  | alone hapart => exact hclear
  | filling hif helse => exact Clear.opened hlaid hclear (Nat.le_refl stop)

theorem branch_swallows (code : Code) (ins : Instruction) (test : Node) (target : Nat)
    (state : State) : (branch code ins test target state).swallows = 0 := by
  unfold branch
  split
  · split
    · rfl
    · split <;> rfl
  · rfl

/-- A branch that is not the body of an `else` opens a block of its own. -/
theorem branch_eq_block {ins : Instruction} {state : State} {test : Node} {offset : Nat}
    {signature : Signature} (hforward : ins.offset < target)
    (hwhile : code.headsWhile ins.offset target = false)
    (helse : elseEnd? code state.indent state.stack target = none) :
    branch code ins test target (state.pushed test offset signature) =
      .block 1 (.ifHead test) (some target) := by
  have hdrop : (state.pushed test offset signature).stack.drop 1 = state.stack := rfl
  rw [branch, if_pos hforward, hwhile, if_neg (by simp), hdrop, State.pushed_indent, helse]

/-- A branch that fills an `else` takes its place: its head stands where the `else` did, and one dedent
is scheduled for the other. -/
theorem apply_branch {ins : Instruction} {state : State} {test : Node} {stop offset offset' : Nat}
    {signature signature' : Signature} (hforward : ins.offset < target)
    (hwhile : code.headsWhile ins.offset target = false)
    (helse : elseEnd? code (state.indent + 1) (state.pushed .elseHead offset signature).stack
      target = some stop) :
    let met :=
      ((state.pushed .elseHead offset signature).opened 1 stop).pushed test offset' signature'
    met.apply ins.offset (branch code ins test target met) =
      (state.pushed (.elifHead test) ins.offset signature').opened 1 target := by
  intro met
  have hbranch : branch code ins test target met =
      { Effect.replace 2 (.elifHead test) with
        shift := -1
        closes := some target
        cancels := some stop } := by
    have hdrop : met.stack.drop 1 = (state.pushed .elseHead offset signature).stack := rfl
    have hindent : met.indent = state.indent + 1 := rfl
    rw [branch, if_pos hforward, hwhile, if_neg (by simp), hdrop, hindent, helse]
  -- the dedent of the `else` is taken out once, also if the branch ends where it does
  have herase : (IndentChange.dedent target :: .dedent stop :: state.pending).erase (.dedent stop) =
      .dedent target :: state.pending := by
    by_cases heq : target = stop
    · simp [heq]
    · simp [IndentChange.dedent, heq]
  have hlevel : state.indent + 1 + -1 = state.indent := by omega
  rw [hbranch]
  simp [met, State.apply, Effect.replace, State.opened, State.pushed, hlevel, herase]

/-- The test of a branch and the jump over its body leave the head of the branch. -/
theorem reaches_branch {s : Stmt} {elif : Bool} {state before : State} {depth start : Nat}
    {test : Expr} (hmet : Met code place s stop elif state before) (hif : s.isIf = true)
    (hlaid : LaidOut place code)
    (hfits : FitsAt code start (test.ops ++ [.absolute "POP_JUMP_IF_FALSE" (place target)]))
    (hends : EndsBranch place (start + test.ops.length + 1) target stop last)
    (hlast : code.beforeOffset? (place target) = some last)
    (hclear : Clear place start stop before.pending) (hdepth : before.indent = depth)
    (htarget : start + test.ops.length < target) (hstop : target ≤ stop) :
    ∃ offset signature,
      Reaches {} code (start, state)
        (start + test.ops.length + 1,
          (before.pushed (branchHead elif (test.tree (.built {}))) offset signature).opened 1
            (place target)) := by
  have hstate := hmet.clear hlaid hclear
  obtain ⟨ins, offset, signature, hins, hop, hoffset, hquiet, htest⟩ :=
    reaches_test (test.pushes {}) state hlaid hfits hstate (by omega)
  have hpending : ∀ change ∈ (state.pushed (test.tree (.built {})) offset signature).pending,
      change.target ≠ ins.offset := hquiet
  have hforward : ins.offset < place target := by
    rw [hoffset]
    exact hlaid.place_lt_iff.mpr htarget
  have hwhile : code.headsWhile ins.offset (place target) = false := by
    refine hends.headsWhile_eq_false hlast ?_
    rw [hoffset]
    exact (hlaid.place_lt_iff.mpr (by omega)).le
  have heffect : effect {} code ins (code.drop (start + test.ops.length + 1))
      (state.pushed (test.tree (.built {})) offset signature) =
        .ok (branch code ins (test.tree (.built {})) (place target) (state.pushed (test.tree (.built {})) offset signature)) :=
    effect_test rfl hop.opcode? (Operation.jumpTarget?_absolute hop) _ state _ _ _
  cases hmet with
  | alone hapart =>
      have hnone := elseEnd?_eq_none hends hlaid hlast (hapart hif)
      rw [branch_eq_block hforward hwhile hnone] at heffect
      exact ⟨_, _, htest.trans (reaches_head state hins hquiet heffect)⟩
  | @filling _ offset' signature' hif helse =>
      have hsome := elseEnd?_eq_some signature' hends hlast hdepth helse
      have hjump := reaches_effect _ hins hpending heffect
      rw [apply_branch hforward hwhile hsome, branch_swallows] at hjump
      exact ⟨_, _, htest.trans hjump⟩

/-! ### The jump over an `else` -/

/-- At the jump the branch is still open. When it is settled behind the jump, the `else` stands where the
head of the branch does and its body is open. -/
theorem settle_else (state : State) (offset : Nat) {middle stop : Nat} (hne : stop ≠ middle) :
    ((state.opened 1 middle).apply offset
        { Effect.block 0 .elseHead (some stop) with shift := -1 }).settle middle =
      ((state.pushed .elseHead offset state.signature).opened 1 stop).settle middle := by
  have hlevel : state.indent + 1 + 1 + -1 = state.indent + 1 := by omega
  have hstands : state.indent + 1 + -1 = state.indent := by omega
  simp [State.settle, State.apply, State.opened, State.pushed, Effect.block,
    List.partition_eq_filter_filter, IndentChange.dedent, hne, hlevel, hstands]

/-- The body of a branch, the jump over the `else`, and the `else`. -/
theorem Leaves.else {n : Nat} {ins : Instruction} {before : State} {head : Node} {offset : Nat}
    {signature : Signature} {lines more : List (Nat × Node)}
    (h : Leaves {} code place inner n
      ((before.pushed head offset signature).opened 1 (place (n + 1)))
      ((before.pushed head offset signature).opened 1 (place (n + 1))) lines)
    (hlaid : LaidOut place code) (hins : code[n]? = some ins)
    (hjump : (Operation.relative "JUMP_FORWARD" (place stop)).Fits ins)
    (hclear : Clear place n (n + 1) before.pending) (hstop : n + 1 < stop)
    (hend : stop ≤ code.length)
    (hother : ∀ after offset signature,
      Adds ((before.indent.toNat, head) :: lines) before after →
      (code.atOffset? offset).bind Instruction.jumpTarget? = some (place stop) →
      Leaves {} code place (n + 1) stop
        ((after.pushed .elseHead offset signature).opened 1 (place stop)) after more) :
    Leaves {} code place inner stop
      ((before.pushed head offset signature).opened 1 (place (n + 1))) before
      ((before.indent.toNat, head) :: lines ++ more) := by
  obtain ⟨after, hadds, hreaches⟩ := h.settled hlaid
  obtain ⟨whole, hwhole, hopened⟩ := hadds.under
  have hafter : after = whole.opened 1 (place (n + 1)) := by simpa using hopened 0
  have hoffset : ins.offset = place n := hlaid.offset n ins hins
  have hopcode : ins.opcode? = some .jumpForward := hjump.opcode?
  have htarget : ins.jumpTarget? = some (place stop) := hlaid.jumpTarget? hjump rfl hend
  have heffect : effect {} code ins (code.drop (n + 1)) after =
      .ok { Effect.block 0 .elseHead (some (place stop)) with shift := -1 } := by
    rw [effect, hopcode]
    dsimp only [opcodeEffect]
    rw [forwardJump, Instruction.requireTarget_eq_ok.mpr htarget]
    rfl
  -- the branch is over behind the jump, so no dedent waits for the jump itself
  have hquiet : ∀ change ∈ after.pending, change.target ≠ ins.offset := by
    intro change hchange
    rw [hadds.pending] at hchange
    rw [hoffset]
    have hopen : Clear place n (n + 1)
        ((before.pushed head offset signature).opened 1 (place (n + 1))).pending :=
      Clear.opened hlaid hclear (Nat.le_refl _)
    exact hopen change hchange n (Nat.le_refl n) (Nat.lt_succ_self n)
  have hmove := reaches_effect after hins hquiet heffect
  have hat : (code.atOffset? ins.offset).bind Instruction.jumpTarget? = some (place stop) := by
    rw [hoffset, hlaid.atOffset?_place, hins, Option.bind_some, htarget]
  obtain ⟨levels, last, hmore, hrest⟩ := hother whole ins.offset whole.signature hwhole hat
  refine ⟨levels, last, hwhole.trans hmore, ?_⟩
  refine hreaches _ (by dsimp only; omega) (hmove.trans ?_)
  refine hrest.resettle (by dsimp only; omega) fun next hnext => ?_
  rw [hlaid.offset (n + 1) next hnext, hafter]
  exact settle_else whole ins.offset fun heq => by
    have := hlaid.place_inj.mp heq
    omega

end Walk

end Decompiler
