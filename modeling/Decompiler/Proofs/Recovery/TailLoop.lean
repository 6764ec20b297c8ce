import Decompiler.Proofs.Recovery.Branch
import Decompiler.Proofs.Recovery.Comprehension
import Decompiler.Proofs.Recovery.Simple
import Decompiler.Proofs.Source.TailLoop
import Decompiler.Proofs.Walk.Course

/-!
Loops whose body ends with a branch are recovered up to the end of the branch. Its test jumps back to
the head of the loop, and its block is closed behind the first jump back to the head that comes after
the test. Only in a branch without `continue` is that the jump that closes the loop.
-/

namespace Decompiler

open Walk

variable {flags : Flags} {code : Code} {place : Nat → Nat} {n start head last depth : Nat}
  {before : State}

/-! ### Statements without a body -/

theorem Simple.nodes_eq_singleton (s : Simple)
    (hreturn : flags.comprehension = true → ∀ value, s ≠ .ret value) :
    s.nodes flags (.built flags) = [s.tree (.built flags)] := by
  cases s with
  | ret value =>
      have hcomprehension : flags.comprehension = false :=
        Bool.eq_false_iff.mpr fun h => hreturn h value rfl
      rw [nodes, if_neg (by simp [hcomprehension])]
      rfl
  | _ => rfl

/-- The value stays below the return of the accumulator. -/
theorem leaves_returnAccumulator (hcomprehension : flags.comprehension = true)
    (hlaid : LaidOut place code) (value : Expr) (hfits : FitsAt code start (Simple.ret value).ops)
    (hclear : Clear place start (start + (Simple.ret value).ops.length) before.pending) :
    Leaves flags code place start (start + (Simple.ret value).ops.length) before before
      [(before.indent.toNat, value.tree (.built flags)),
        (before.indent.toNat, .returnStmt .accumulator)] := by
  rw [Simple.ops, List.length_append, List.length_singleton, ← Nat.add_assoc] at hclear ⊢
  obtain ⟨offset, signature, hvalue⟩ := (value.pushes flags).pushed before hfits.append_left
    ((hclear.sub (Nat.le_refl start) (by omega)).quiet hlaid)
  obtain ⟨offset', signature', hreturn⟩ := (pushes_returnAccumulator hcomprehension).pushed
    (before.pushed (value.tree (.built flags)) offset signature) hfits.append_right
    ((hclear.sub (by omega) (Nat.le_refl _)).quiet hlaid)
  have hadds := (Adds.pushed before offset signature
    (value.tree_ne_elseHead (.built flags))).trans
      (Adds.pushed _ offset' signature' (show Node.returnStmt .accumulator ≠ .elseHead by simp))
  exact .of_adds hadds (hvalue.trans hreturn)

theorem Simple.leaves (s : Simple) (hlaid : LaidOut place code) (hfits : FitsAt code start s.ops)
    (hdepth : before.indent = depth)
    (hclear : Clear place start (start + s.ops.length) before.pending) :
    Leaves flags code place start (start + s.ops.length) before before (s.lines flags (.built flags) depth) := by
  by_cases hreturn : flags.comprehension = true → ∀ value, s ≠ .ret value
  · obtain ⟨offset, signature, hreaches⟩ :=
      s.reaches hreturn before hfits (hclear.quiet hlaid)
    have hadds := Adds.pushed before offset signature (s.tree_ne_elseHead (.built flags))
    rw [hdepth, Int.toNat_natCast] at hadds
    rw [lines, s.nodes_eq_singleton hreturn]
    exact .of_adds hadds hreaches
  · simp only [Classical.not_imp, not_forall, not_not] at hreturn
    obtain ⟨hcomprehension, value, rfl⟩ := hreturn
    have hlines := leaves_returnAccumulator hcomprehension hlaid value hfits hclear
    rw [hdepth, Int.toNat_natCast] at hlines
    rw [lines, nodes, if_pos hcomprehension]
    exact hlines

/-! ### Jumps in the loop -/

/-- A loop over an iterator: the step of the iterator, and the jump that closes the loop. -/
structure LoopAt (code : Code) (place : Nat → Nat) (head last : Nat) : Prop where
  step : ∃ ins, code[head]? = some ins ∧
    (Operation.relative "FOR_ITER" (place (last + 1))).Fits ins
  closing : ∃ ins, code[last]? = some ins ∧
    (Operation.absolute "JUMP_ABSOLUTE" (place head)).Fits ins

namespace LoopAt

/-- A jump back to the head that does not close the loop goes on with it. -/
theorem effect_continue {ins : Instruction} {state : State} (h : LoopAt code place head last)
    (hraw : flags.rawJumps = false) (hlaid : LaidOut place code) (hins : code[n]? = some ins)
    (hjump : (Operation.absolute "JUMP_ABSOLUTE" (place head)).Fits ins) (hn : n ≠ last)
    (hbreak : isBreak state.stack = false) (ahead : Code) :
    effect flags code ins ahead state = .ok (.push1 .continueStmt) := by
  obtain ⟨step, hstep, hiter⟩ := h.step
  obtain ⟨closing, hclosing, -⟩ := h.closing
  have hopcode : ins.opcode? = some .jumpAbsolute := hjump.opcode?
  have htarget : ins.jumpTarget? = some (place head) := Operation.jumpTarget?_absolute hjump
  have hlast : last + 1 ≤ code.length := (List.getElem?_eq_some_iff.mp hclosing).1
  have hstop : step.jumpTarget? = some (place (last + 1)) := hlaid.jumpTarget? hiter rfl hlast
  have his : step.is .forIter = true := hiter.is_eq_true rfl
  have hcloses : code.closesFor step ins.offset = false := by
    have hne : closing.offset ≠ ins.offset := by
      rw [hlaid.offset _ _ hclosing, hlaid.offset _ _ hins]
      exact fun heq => hn (hlaid.place_inj.mp heq).symm
    simp [Code.closesFor, hstop, hlaid.beforeOffset?_place hclosing, hne]
  rw [effect, hopcode]
  dsimp only [opcodeEffect]
  rw [absoluteJump, Instruction.requireTarget_eq_ok.mpr htarget, ok_bind, hraw, if_neg (by simp),
    hlaid.atOffset?_place, hstep]
  simp only [his, hcloses, hbreak, Bool.or_false, if_true]
  rfl

/-- A test in the loop that jumps over a jump to the head is that of a branch. -/
theorem headsWhile_eq_false {back : Instruction} (h : LoopAt code place head last)
    (hlaid : LaidOut place code) (hback : code[n]? = some back)
    (hjump : (Operation.absolute "JUMP_ABSOLUTE" (place head)).Fits back) {origin : Nat}
    (horigin : head < origin) : code.headsWhile (place origin) (place (n + 1)) = false := by
  obtain ⟨step, hstep, hiter⟩ := h.step
  -- the step of the iterator is a test between the head and the branch
  have hany : code.any (fun ins => place head ≤ ins.offset && ins.offset < place origin &&
      ins.isTest) = true := by
    refine List.any_eq_true.mpr ⟨step, List.mem_of_getElem? hstep, ?_⟩
    rw [hlaid.offset _ _ hstep, Instruction.isTest, hiter.is_eq_true rfl,
      decide_eq_true (hlaid.place_lt_iff.mpr horigin), decide_eq_true (Nat.le_refl _)]
    rfl
  rw [Code.headsWhile, hlaid.beforeOffset?_place hback, Option.any_some,
    Operation.jumpTarget?_absolute hjump, Option.any_some, hany]
  simp

end LoopAt

/-! ### The branch -/

theorem elseEnd?_eq_none_of_closed {state : State}
    (hclosed : ∀ top ∈ state.stack.head?, top.node ≠ .elseHead) (target : Nat) :
    elseEnd? code state.indent state.stack target = none := by
  unfold elseEnd?
  split
  · next level offset rest hstack =>
    exact absurd rfl (hclosed ⟨level, .elseHead, offset⟩ (by rw [hstack]; rfl))
  · rfl

/-- `if test: continue` -/
theorem leaves_skip (hraw : flags.rawJumps = false) (hlaid : LaidOut place code)
    (hloop : LoopAt code place head last) (test : Expr)
    (hfits : FitsAt code start ((Piece.skip test).ops place head start)) (hhead : head < start)
    (hlast : start + (Piece.skip test).size ≤ last) (hdepth : before.indent = depth)
    (hclear : Clear place start (start + (Piece.skip test).size) before.pending)
    (hclosed : ∀ top ∈ before.stack.head?, top.node ≠ .elseHead) :
    Leaves flags code place start (start + (Piece.skip test).size) before before
      ((Piece.skip test).lines flags (.built flags) depth) := by
  have hstop : start + (Piece.skip test).size = start + test.ops.length + 1 + 1 := by
    rw [Piece.size]
    omega
  rw [hstop] at hlast hclear ⊢
  obtain ⟨ins, offset, signature, hins, hop, hoffset, hquiet, htest⟩ :=
    reaches_test (test.pushes flags) before hlaid hfits.append_left hclear (by omega)
  have hskip : FitsAt code (start + test.ops.length + 1) _ :=
    hfits.append_right.cast (by rw [List.length_append, List.length_singleton, Nat.add_assoc])
  obtain ⟨back, hback, hjump⟩ := hskip.head
  have hforward : ins.offset < place (start + test.ops.length + 2) := by
    rw [hoffset]
    exact hlaid.place_lt_iff.mpr (by omega)
  have hwhile : code.headsWhile ins.offset (place (start + test.ops.length + 2)) = false := by
    rw [hoffset]
    exact hloop.headsWhile_eq_false hlaid hback hjump (by omega)
  have heffect : effect flags code ins (code.drop (start + test.ops.length + 1))
      (before.pushed (test.tree (.built flags)) offset signature) =
        .ok (.block 1 (.ifHead (test.tree (.built flags)))
          (some (place (start + test.ops.length + 2)))) := by
    rw [effect_test hraw hop.opcode? (Operation.jumpTarget?_absolute hop)]
    exact congrArg _ (branch_eq_block hforward hwhile (elseEnd?_eq_none_of_closed hclosed _))
  have hbranch := htest.trans (reaches_head before hins hquiet heffect)
  let inside := (before.pushed (.ifHead (test.tree (.built flags))) ins.offset signature).opened 1
    (place (start + test.ops.length + 2))
  have hinside : ∀ change ∈ inside.pending, change.target ≠ back.offset := by
    rw [hlaid.offset _ _ hback]
    have hopen : Clear place start (start + test.ops.length + 2) inside.pending :=
      Clear.opened hlaid hclear (Nat.le_refl _)
    exact fun change hchange => hopen change hchange _ (by omega) (by omega)
  have hcontinue := reaches_replace inside [] hback hinside
    (hloop.effect_continue hraw hlaid hback hjump (by omega) rfl _)
  have hadds := Adds.pushed inside back.offset inside.signature
    (show Node.continueStmt ≠ .elseHead by simp)
  have hlines := (Leaves.of_adds hadds hcontinue).under.prepend hbranch
  have hlevel : inside.indent.toNat = depth + 1 := by
    show (before.indent + 1).toNat = depth + 1
    omega
  rw [hlevel, hdepth, Int.toNat_natCast] at hlines
  exact hlines

theorem Piece.leaves (hraw : flags.rawJumps = false) (hlaid : LaidOut place code)
    (hloop : LoopAt code place head last) (piece : Piece)
    (hfits : FitsAt code start (piece.ops place head start)) (hhead : head < start)
    (hlast : start + piece.size ≤ last) (hdepth : before.indent = depth)
    (hclear : Clear place start (start + piece.size) before.pending)
    (hclosed : ∀ top ∈ before.stack.head?, top.node ≠ .elseHead) :
    Leaves flags code place start (start + piece.size) before before (piece.lines flags (.built flags) depth) := by
  cases piece with
  | simple s => exact s.leaves hlaid hfits hdepth hclear
  | skip test => exact leaves_skip hraw hlaid hloop test hfits hhead hlast hdepth hclear hclosed

theorem leaves_pieces (hraw : flags.rawJumps = false) (hlaid : LaidOut place code)
    (hloop : LoopAt code place head last) (pieces : List Piece) (start : Nat) (before : State)
    (hfits : FitsAt code start (Piece.allOps place head start pieces)) (hhead : head < start)
    (hlast : start + Piece.total pieces ≤ last) (hdepth : before.indent = depth)
    (hclear : Clear place start (start + Piece.total pieces) before.pending)
    (hclosed : ∀ top ∈ before.stack.head?, top.node ≠ .elseHead) :
    Leaves flags code place start (start + Piece.total pieces) before before
      (Piece.allLines flags (.built flags) depth pieces) := by
  induction pieces generalizing start before with
  | nil =>
      exact .of_adds ⟨rfl, rfl, by simp [Piece.allLines], hclosed⟩ (Reaches.refl flags code _)
  | cons piece rest ih =>
      have htotal : start + Piece.total (piece :: rest) =
          start + piece.size + Piece.total rest := by
        rw [Piece.total, Nat.add_assoc]
      rw [htotal] at hlast hclear ⊢
      have htail : FitsAt code (start + piece.size) _ :=
        hfits.append_right.cast (by rw [Piece.length_ops])
      have hfirst := piece.leaves hraw hlaid hloop hfits.append_left hhead (by omega) hdepth
        (hclear.sub (Nat.le_refl start) (by omega)) hclosed
      cases rest with
      | nil => simpa [Piece.allLines, Piece.total] using hfirst
      | cons another rest =>
          have hpos := another.size_pos
          rw [Piece.allLines, List.flatMap_cons]
          refine hfirst.seq hlaid ?_ fun after hadds => ?_
          · rw [Piece.total]
            omega
          · exact ih _ after htail (by omega) hlast (hadds.indent.trans hdepth)
              (hadds.pending ▸ hclear.sub (by omega) (Nat.le_refl _)) hadds.closed

/-- A branch whose test jumps back to the head, up to the first jump back to the head behind it. -/
theorem leaves_tail {back : Instruction} {inner : List Operation} {lines : List (Nat × Node)}
    (hraw : flags.rawJumps = false) (hlaid : LaidOut place code) (test : Expr)
    (hfits : FitsAt code start
      (test.ops ++ [.absolute "POP_JUMP_IF_FALSE" (place head)] ++ inner))
    (hinner : JumpsWithin place 0 0 inner) (hn : start + test.ops.length + 1 + inner.length = n)
    (hback : code[n]? = some back)
    (hjump : (Operation.absolute "JUMP_ABSOLUTE" (place head)).Fits back)
    (hlast : n + 1 < code.length) (hhead : head ≤ start) (hdepth : before.indent = depth)
    (hclear : Clear place start (n + 1) before.pending)
    (hbody : ∀ before : State, before.indent = (depth + 1 : Nat) →
      Clear place (start + test.ops.length + 1) (n + 1) before.pending →
      (∀ top ∈ before.stack.head?, top.node ≠ .elseHead) →
      Leaves flags code place (start + test.ops.length + 1) (n + 1) before before lines) :
    Leaves flags code place start (n + 1) before before
      ((depth, .ifHead (test.tree (.built flags))) :: lines) := by
  have hforward : ∀ k ins, start ≤ k → k < n → code[k]? = some ins →
      ins.jumpsBackTo (place head) = false := by
    intro k ins hk hk' hins
    refine hlaid.jumpsBackTo_eq_false hfits ((jumpsWithin_test test _).append hinner) hins hk ?_
      (Or.inr (Nat.zero_le head))
    simp only [List.length_append, List.length_singleton]
    omega
  obtain ⟨offset, signature, hcondition⟩ := reaches_condition ⟨false, test⟩ before hraw hlaid
    hfits.append_left hback hjump hlast hhead (by dsimp only; omega) hforward
    (hclear.sub (Nat.le_refl start) (by omega))
  have hinside := hbody
    ((before.pushed (.ifHead (test.tree (.built flags))) offset signature).opened 1
      (place (n + 1))) (by simp [hdepth])
    (Clear.opened hlaid (hclear.sub (by omega) (Nat.le_refl _)) (Nat.le_refl _))
    (by simp [State.pushed])
  have hlines := hinside.under.prepend hcondition
  rw [hdepth, Int.toNat_natCast] at hlines
  exact hlines

/-- What is left where the closing jump stands is left behind it. -/
theorem LoopAt.close {middle : Nat} {state : State} {lines : List (Nat × Node)}
    (h : LoopAt code place head last) (hraw : flags.rawJumps = false) (hlaid : LaidOut place code)
    (hleaves : Leaves flags code place middle last state state lines)
    (hclear : Clear place last (last + 1) state.pending) :
    Leaves flags code place middle (last + 1) state state lines := by
  obtain ⟨step, hstep, hiter⟩ := h.step
  obtain ⟨closing, hclosing, hjump⟩ := h.closing
  exact hleaves.close hlaid hclear hclosing
    fun after _ => effect_endFor hlaid hraw hstep hiter hclosing hjump _ after

/-- Without a `continue` the first jump back closes the loop. -/
theorem leaves_branch_of_simple (hraw : flags.rawJumps = false) (hlaid : LaidOut place code)
    (hloop : LoopAt code place head last) (test : Expr) {pieces : List Piece}
    (hall : ∀ piece ∈ pieces, piece.isSimple = true)
    (hfits : FitsAt code start (test.ops ++ [.absolute "POP_JUMP_IF_FALSE" (place head)] ++
      Piece.allOps place head (start + test.ops.length + 1) pieces))
    (hstop : start + test.ops.length + 1 + Piece.total pieces = last)
    (hlast : last + 1 < code.length) (hhead : head ≤ start) (hdepth : before.indent = depth)
    (hclear : Clear place start (last + 1) before.pending) :
    Leaves flags code place start (last + 1) before before
      ((depth, .ifHead (test.tree (.built flags))) ::
        Piece.allLines flags (.built flags) (depth + 1) pieces) := by
  obtain ⟨closing, hclosing, hjump⟩ := hloop.closing
  have hpieces : FitsAt code (start + test.ops.length + 1) _ :=
    hfits.append_right.cast (by rw [List.length_append, List.length_singleton, Nat.add_assoc])
  refine leaves_tail hraw hlaid test hfits (Piece.jumpsWithin_allOps _ hall)
    (by rw [Piece.length_allOps, hstop]) hclosing hjump hlast hhead hdepth hclear
    fun inside hinside hquiet hclosed => ?_
  have hleaves := leaves_pieces hraw hlaid hloop pieces _ inside hpieces (by omega) (by omega) hinside
    (hquiet.sub (Nat.le_refl _) (by omega)) hclosed
  rw [hstop] at hleaves
  exact hloop.close hraw hlaid hleaves (hquiet.sub (by omega) (Nat.le_refl _))

/-- The first `continue` is where the block of the branch is closed, and what comes after it is added at
the level of the branch. -/
theorem leaves_branch_of_skip (hraw : flags.rawJumps = false) (hlaid : LaidOut place code)
    (hloop : LoopAt code place head last) (test skipped : Expr) {front rest : List Piece}
    (hall : ∀ piece ∈ front, piece.isSimple = true)
    (hfits : FitsAt code start (test.ops ++ [.absolute "POP_JUMP_IF_FALSE" (place head)] ++
      Piece.allOps place head (start + test.ops.length + 1) (front ++ [.skip skipped] ++ rest)))
    (hstop : start + test.ops.length + 1 + Piece.total (front ++ [.skip skipped] ++ rest) = last)
    (hlast : last + 1 < code.length) (hhead : head ≤ start) (hdepth : before.indent = depth)
    (hclear : Clear place start (last + 1) before.pending) :
    Leaves flags code place start (last + 1) before before
      ((depth, .ifHead (test.tree (.built flags))) ::
          Piece.allLines flags (.built flags) (depth + 1) (front ++ [.skip skipped]) ++
        Piece.allLines flags (.built flags) depth rest) := by
  -- the code of the branch up to the first jump back, that jump, and the rest
  let inner := Piece.allOps place head (start + test.ops.length + 1) front ++
    (skipped.ops ++ [.absolute "POP_JUMP_IF_FALSE"
      (place (start + test.ops.length + 1 + Piece.total front + skipped.ops.length + 2))])
  have hcut : Piece.allOps place head (start + test.ops.length + 1) (front ++ [.skip skipped]) =
      inner ++ [.absolute "JUMP_ABSOLUTE" (place head)] := by
    simp [inner, Piece.allOps_append, Piece.allOps, Piece.ops]
  have hlength : start + test.ops.length + 1 + Piece.total (front ++ [.skip skipped]) =
      start + test.ops.length + 1 + inner.length + 1 := by
    rw [← Piece.length_allOps place head (start + test.ops.length + 1), hcut, List.length_append,
      List.length_singleton, Nat.add_assoc _ inner.length]
  rw [Piece.allOps_append, ← List.append_assoc] at hfits
  rw [Piece.total_append, ← Nat.add_assoc, hlength] at hstop
  have hthrough : FitsAt code (start + test.ops.length + 1) _ :=
    hfits.append_left.append_right.cast
      (by rw [List.length_append, List.length_singleton, Nat.add_assoc])
  have hrest : FitsAt code (start + test.ops.length + 1 + inner.length + 1) _ :=
    hfits.append_right.cast (by
      rw [← hlength, List.length_append, List.length_append, List.length_singleton,
        Piece.length_allOps]
      omega)
  obtain ⟨back, hback, hjump⟩ := (hcut ▸ hthrough).append_right.head
  have hbefore := hfits.append_left
  rw [hcut, ← List.append_assoc] at hbefore
  have htail := leaves_tail hraw hlaid test hbefore.append_left
    ((Piece.jumpsWithin_allOps _ hall).append (jumpsWithin_test skipped _)) rfl hback hjump
    (by omega) hhead hdepth (hclear.sub (Nat.le_refl start) (by omega))
    fun inside hinside hquiet hclosed => by
      rw [← hlength] at hquiet ⊢
      exact leaves_pieces hraw hlaid hloop _ _ inside hthrough (by omega) (by omega) hinside hquiet
        hclosed
  refine htail.seq hlaid (by omega) fun after hadds => ?_
  rw [hlength] at hrest
  have hquiet : Clear place (start + test.ops.length + 1 + inner.length + 1) (last + 1)
      after.pending := hadds.pending ▸ hclear.sub (by omega) (Nat.le_refl _)
  have hleaves := leaves_pieces hraw hlaid hloop rest _ after hrest (by omega) (by omega)
    (hadds.indent.trans hdepth) (hquiet.sub (Nat.le_refl _) (by omega)) hadds.closed
  rw [hstop] at hleaves
  exact hloop.close hraw hlaid hleaves (hquiet.sub (by omega) (Nat.le_refl _))

theorem leaves_branch (hraw : flags.rawJumps = false) (hlaid : LaidOut place code)
    (hloop : LoopAt code place head last) (test : Expr) (pieces : List Piece)
    (hfits : FitsAt code start (test.ops ++ [.absolute "POP_JUMP_IF_FALSE" (place head)] ++
      Piece.allOps place head (start + test.ops.length + 1) pieces))
    (hstop : start + test.ops.length + 1 + Piece.total pieces = last)
    (hlast : last + 1 < code.length) (hhead : head ≤ start) (hdepth : before.indent = depth)
    (hclear : Clear place start (last + 1) before.pending) :
    Leaves flags code place start (last + 1) before before
      ((depth, .ifHead (test.tree (.built flags))) ::
          Piece.allLines flags (.built flags) (depth + 1) (Piece.throughSkip pieces) ++
        Piece.allLines flags (.built flags) depth (Piece.afterSkip pieces)) := by
  rcases Piece.exists_skip pieces with ⟨hall, hthrough, hafter⟩ | ⟨front, skipped, hall, hthrough⟩
  · rw [hthrough, hafter, Piece.allLines_nil, List.append_nil]
    exact leaves_branch_of_simple hraw hlaid hloop test hall hfits hstop hlast hhead hdepth hclear
  · have hpieces : front ++ [.skip skipped] ++ Piece.afterSkip pieces = pieces :=
      hthrough ▸ Piece.throughSkip_append_afterSkip pieces
    rw [← hpieces] at hfits hstop
    rw [hthrough]
    exact leaves_branch_of_skip hraw hlaid hloop test skipped hall hfits hstop hlast hhead hdepth
      hclear

/-! ### Whole loops -/

/-- The parts of a loop in code: its head, the test of its branch, and the jump that closes it. -/
structure TailLoop.PlacedAt (code : Code) (place : Nat → Nat) (start head tail last : Nat)
    (t : TailLoop) : Prop where
  toHead : start + t.iterable.ops.length + 1 = head
  toTail : head + 1 + t.pattern.ops.length + Piece.total (t.front.map .simple) = tail
  toLast : tail + t.test.ops.length + 1 + Piece.total t.branch = last
  iteration : FitsAt code start (t.iterable.ops ++ [.bare "GET_ITER"] ++
    ([.relative "FOR_ITER" (place (last + 1))] ++ t.pattern.ops))
  front : FitsAt code (head + 1 + t.pattern.ops.length)
    (Piece.allOps place head (head + 1 + t.pattern.ops.length) (t.front.map .simple))
  branch : FitsAt code tail (t.test.ops ++ [.absolute "POP_JUMP_IF_FALSE" (place head)] ++
    Piece.allOps place head (tail + t.test.ops.length + 1) t.branch)
  closing : FitsAt code last [.absolute "JUMP_ABSOLUTE" (place head)]

theorem TailLoop.exists_placedAt (t : TailLoop) (hfits : FitsAt code start (t.ops place start)) :
    ∃ head tail last, t.PlacedAt code place start head tail last ∧ start + t.size = last + 1 := by
  obtain ⟨head, hhead⟩ : ∃ head, start + t.iterable.ops.length + 1 = head := ⟨_, rfl⟩
  obtain ⟨tail, htail⟩ : ∃ tail,
      head + 1 + t.pattern.ops.length + Piece.total (t.front.map .simple) = tail := ⟨_, rfl⟩
  obtain ⟨last, hlast⟩ : ∃ last, tail + t.test.ops.length + 1 + Piece.total t.branch = last :=
    ⟨_, rfl⟩
  have hstop : start + t.size = last + 1 := by
    simp only [size, toBranch, TailLoop.toHead]
    omega
  have hthere : start + t.toHead = head := by
    rw [TailLoop.toHead]
    omega
  have hbranch : start + t.toBranch = tail + t.test.ops.length + 1 := by
    simp only [toBranch, TailLoop.toHead]
    omega
  have hfront := Piece.length_allOps place head (head + 1 + t.pattern.ops.length)
    (t.front.map .simple)
  rw [ops, hstop, hthere, hbranch,
    ← Piece.allOps_map_simple place head (head + 1 + t.pattern.ops.length)] at hfits
  refine ⟨head, tail, last, ⟨hhead, htail, hlast, hfits.append_left.append_left.append_left,
    hfits.append_left.append_left.append_right.cast ?_, hfits.append_left.append_right.cast ?_,
    hfits.append_right.cast ?_⟩, hstop⟩
  · simp only [List.length_append, List.length_singleton]
    omega
  · simp only [List.length_append, List.length_singleton, hfront]
    omega
  · simp only [List.length_append, List.length_singleton, hfront, Piece.length_allOps]
    omega

theorem TailLoop.PlacedAt.loopAt {t : TailLoop} {tail : Nat}
    (h : t.PlacedAt code place start head tail last) : LoopAt code place head last := by
  have hhead : FitsAt code head _ :=
    h.iteration.append_right.cast
      (by rw [List.length_append, List.length_singleton, ← Nat.add_assoc, h.toHead])
  exact ⟨hhead.append_left.head, h.closing.head⟩

/-- The whole loop adds its lines, wherever it stands. -/
theorem leaves_tailLoop (hraw : flags.rawJumps = false) (hlaid : LaidOut place code) (t : TailLoop)
    (hfits : FitsAt code start (t.ops place start)) (hafter : start + t.size < code.length)
    (hdepth : before.indent = depth)
    (hclear : Clear place start (start + t.size) before.pending) :
    Leaves flags code place start (start + t.size) before before (t.lines flags (.built flags) depth) := by
  obtain ⟨head, tail, last, hplaced, hstop⟩ := t.exists_placedAt hfits
  have hhead := hplaced.toHead
  have htail := hplaced.toTail
  have hlast := hplaced.toLast
  rw [hstop] at hafter hclear ⊢
  obtain ⟨offset, signature, hforLoop⟩ := reaches_forLoop (t.iterable.pushes flags) before hlaid
    t.pattern hplaced.iteration (by omega) (hclear.sub (Nat.le_refl start) (by omega))
  rw [hhead] at hforLoop
  have hinside : Clear place (head + 1 + t.pattern.ops.length) (last + 1)
      ((before.pushed (.forHead t.pattern.target.node (t.iterable.tree (.built flags))) offset
        signature).opened 1 (place (last + 1))).pending :=
    Clear.opened hlaid (hclear.sub (by omega) (Nat.le_refl _)) (Nat.le_refl _)
  -- behind the head, the statements and then the branch
  have hstatements := leaves_pieces hraw hlaid hplaced.loopAt (t.front.map .simple) _ _
    hplaced.front (by omega) (by omega) (show _ = ((depth + 1 : Nat) : Int) by simp [hdepth])
    (hinside.sub (Nat.le_refl _) (by omega)) (by simp [State.pushed])
  rw [htail] at hstatements
  have hbody := hstatements.seq hlaid (by omega) fun after hadds =>
    leaves_branch hraw hlaid hplaced.loopAt t.test t.branch hplaced.branch hlast hafter (by omega)
      (hadds.indent.trans (by simp [hdepth] : _ = ((depth + 1 : Nat) : Int)))
      (hadds.pending ▸ hinside.sub (by omega) (Nat.le_refl _))
  have hlines := hbody.under.prepend hforLoop
  rw [hdepth, Int.toNat_natCast, Piece.allLines_map_simple] at hlines
  simpa [TailLoop.lines, TailLoop.headLines] using hlines

/-- A change of level that waits for an offset is carried out there only once. -/
theorem Walk.State.settle_settle (state : State) (offset : Nat) :
    (state.settle offset).settle offset = state.settle offset :=
  State.settle_of_forall_ne fun _ hchange => ((State.mem_settle_pending _ _).mp hchange).2

/-- Any loop whose body ends with a branch adds these lines, wherever it stands, and behind it the level
is the one that the walk has come to the loop with. The body of the branch is nested in the branch only
up to its first `continue`, so the lines are nested as the loop is if and only if the branch has no
`continue`. -/
theorem exists_reaches_tailLoop (hraw : flags.rawJumps = false) (hlaid : LaidOut place code)
    (t : TailLoop) (hfits : FitsAt code start (t.ops place start))
    (hafter : start + t.size < code.length) (hdepth : (before.settle (place start)).indent = depth)
    (hclear : Clear place (start + 1) (start + t.size) before.pending) :
    ∃ after, Reaches flags code (start, before) (start + t.size, after) ∧
      after.lines = before.lines ++ t.lines flags (.built flags) depth ∧
      (after.settle (place (start + t.size))).indent =
        ((before.settle (place start)).settle (place (start + t.size))).indent ∧
      (t.lines flags (.built flags) depth = t.nestedLines flags (.built flags) depth ↔
        ∀ piece ∈ t.pieces, piece.isSimple = true) := by
  have hsettled : Clear place start (start + t.size) (before.settle (place start)).pending := by
    intro change hchange p hp hp'
    obtain ⟨hmem, hne⟩ := (State.mem_settle_pending _ _).mp hchange
    by_cases hstart : p = start
    · exact hstart ▸ hne
    · exact hclear change hmem p (by omega) hp'
  obtain ⟨levels, after, hadds, hreaches⟩ := leaves_tailLoop hraw hlaid t hfits hafter hdepth hsettled
  have hpos : 0 < t.size := Nat.succ_pos _
  refine ⟨after.opened levels (place (start + t.size)), ?_, hadds.lines, ?_,
    t.lines_eq_nestedLines_iff flags (.built flags) depth⟩
  · refine hreaches.resettle (by dsimp only; omega) fun ins hins => ?_
    rw [hlaid.offset start ins hins, State.settle_settle]
  · rw [State.settle_opened, State.settle, State.settle, hadds.pending, hadds.indent]

/-- A branch of three parts with the `continue` in the middle. Its last part stands beside the branch. -/
theorem exists_reaches_tailLoop_threeParts :
    let code : Code :=
      [{ offset := 0, opname := "LOAD_NAME", argval := some "xs" },
        { offset := 2, opname := "GET_ITER" },
        { offset := 4, opname := "FOR_ITER", arg := some 26, argval := some "to 32" },
        { offset := 6, opname := "STORE_NAME", argval := some "x" },
        { offset := 8, opname := "LOAD_NAME", argval := some "f" },
        { offset := 10, opname := "POP_TOP" },
        { offset := 12, opname := "LOAD_NAME", argval := some "a" },
        { offset := 14, opname := "POP_JUMP_IF_FALSE", arg := some 4 },
        { offset := 16, opname := "LOAD_NAME", argval := some "x" },
        { offset := 18, opname := "STORE_NAME", argval := some "z" },
        { offset := 20, opname := "LOAD_NAME", argval := some "b" },
        { offset := 22, opname := "POP_JUMP_IF_FALSE", arg := some 26 },
        { offset := 24, opname := "JUMP_ABSOLUTE", arg := some 4 },
        { offset := 26, opname := "LOAD_NAME", argval := some "y" },
        { offset := 28, opname := "POP_TOP" },
        { offset := 30, opname := "JUMP_ABSOLUTE", arg := some 4 },
        { offset := 32, opname := "LOAD_CONST", argval := some "None" },
        { offset := 34, opname := "RETURN_VALUE" }]
    ∃ after, Reaches {} code (0, {}) (16, after) ∧
      after.lines =
        [(0, .forHead (.atom "x") (.atom "xs")), (1, .atom "f"), (1, .ifHead (.atom "a")),
          (2, .assign (.atom "z") (.atom "x")), (2, .ifHead (.atom "b")), (3, .continueStmt),
          (1, .atom "y")] ∧
      (after.settle 32).indent = 0 := by
  intro code
  let t : TailLoop :=
    { pattern := .name .name "x"
      iterable := .load .name "xs"
      front := [.eval (.load .name "f")]
      test := .load .name "a"
      pieces := [.simple (.assign .name "z" (.load .name "x")), .skip (.load .name "b")]
      last := .eval (.load .name "y") }
  have hlaid : LaidOut (2 * ·) code := LaidOut.of_words (by decide) (by decide)
  have hfits : FitsAt code 0 (t.ops (2 * ·) 0) := .of_forall₂ (by decide)
  have hsize : 0 + t.size < code.length := by decide
  have hraw : ({} : Flags).rawJumps = false := rfl
  have hdepth : (({} : State).settle (2 * 0)).indent = (0 : Nat) := rfl
  have hclear : Clear (2 * ·) (0 + 1) (0 + t.size) ({} : State).pending := List.forall_mem_nil _
  obtain ⟨after, hreaches, hlines, hlevel, -⟩ :=
    exists_reaches_tailLoop hraw hlaid t hfits hsize hdepth hclear
  exact ⟨after, hreaches, hlines, hlevel⟩

/-- A branch `if b: continue` and then `y`, both in the branch `if a:` that ends a loop, is compiled as
stated. The whole code is recovered, with `y` at the level of `if a:`. -/
theorem exists_unnested_branch :
    let code : Code :=
      [{ offset := 0, opname := "LOAD_NAME", argval := some "xs" },
        { offset := 2, opname := "GET_ITER" },
        { offset := 4, opname := "FOR_ITER", arg := some 18, argval := some "to 24" },
        { offset := 6, opname := "STORE_NAME", argval := some "x" },
        { offset := 8, opname := "LOAD_NAME", argval := some "a" },
        { offset := 10, opname := "POP_JUMP_IF_FALSE", arg := some 4 },
        { offset := 12, opname := "LOAD_NAME", argval := some "b" },
        { offset := 14, opname := "POP_JUMP_IF_FALSE", arg := some 18 },
        { offset := 16, opname := "JUMP_ABSOLUTE", arg := some 4 },
        { offset := 18, opname := "LOAD_NAME", argval := some "y" },
        { offset := 20, opname := "POP_TOP" },
        { offset := 22, opname := "JUMP_ABSOLUTE", arg := some 4 },
        { offset := 24, opname := "LOAD_CONST", argval := some "None" },
        { offset := 26, opname := "RETURN_VALUE" }]
    let t : TailLoop :=
      { pattern := .name .name "x"
        iterable := .load .name "xs"
        front := []
        test := .load .name "a"
        pieces := [.skip (.load .name "b")]
        last := .eval (.load .name "y") }
    LaidOut (2 * ·) code ∧ FitsAt code 0 (t.ops (2 * ·) 0) ∧ 0 + t.size < code.length ∧
      (t.nestedLines {} .written 0 =
        [(0, .forHead (.atom "x") (.atom "xs")), (1, .ifHead (.atom "a")),
          (2, .ifHead (.atom "b")), (3, .continueStmt), (2, .atom "y")]) ∧
      ∃ result, reconstruct {} code = .ok result ∧
        result.statements.map Statement.line =
          [(0, .forHead (.atom "x") (.atom "xs")), (1, .ifHead (.atom "a")),
            (2, .ifHead (.atom "b")), (3, .continueStmt), (1, .atom "y"),
            (0, .returnStmt (.atom "None"))] :=
  ⟨LaidOut.of_words (by decide) (by decide), .of_forall₂ (by decide), by decide, rfl, _, rfl, rfl⟩

end Decompiler
