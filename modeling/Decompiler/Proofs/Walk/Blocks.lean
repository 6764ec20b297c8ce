import Decompiler.Proofs.Walk.Layout
import Decompiler.Proofs.Walk.Pushing

/-!
Blocks. The level goes down at the end of a block only when the walk comes to the instruction there. So
what a stretch of code does is told up to the dedents that wait for its end: it adds lines to the
statements, and it may leave levels open that are closed by the time that anything else is done.
-/

namespace Decompiler

def Statement.line (s : Statement) : Nat × Node := (s.indent, s.node)

namespace Walk

namespace State

def lines (state : State) : List (Nat × Node) := state.stack.reverse.map Statement.line

def pushed (state : State) (node : Node) (offset : Nat) (signature : Signature) : State :=
  { state with
    stack := ⟨state.indent.toNat, node, offset⟩ :: state.stack
    signature }

/-- A number of levels are open that all end at one offset. -/
def opened (state : State) (levels stop : Nat) : State :=
  { state with
    indent := state.indent + levels
    pending := List.replicate levels (.dedent stop) ++ state.pending }

@[simp] theorem pushed_indent (state : State) (node : Node) (offset : Nat) (signature : Signature) :
    (state.pushed node offset signature).indent = state.indent := rfl

@[simp] theorem pushed_pending (state : State) (node : Node) (offset : Nat)
    (signature : Signature) : (state.pushed node offset signature).pending = state.pending := rfl

@[simp] theorem lines_pushed (state : State) (node : Node) (offset : Nat) (signature : Signature) :
    (state.pushed node offset signature).lines = state.lines ++ [(state.indent.toNat, node)] := by
  simp [lines, pushed, Statement.line]

@[simp] theorem opened_indent (state : State) (levels stop : Nat) :
    (state.opened levels stop).indent = state.indent + levels := rfl

@[simp] theorem opened_pending (state : State) (levels stop : Nat) :
    (state.opened levels stop).pending =
      List.replicate levels (.dedent stop) ++ state.pending := rfl

@[simp] theorem opened_stack (state : State) (levels stop : Nat) :
    (state.opened levels stop).stack = state.stack := rfl

@[simp] theorem lines_opened (state : State) (levels stop : Nat) :
    (state.opened levels stop).lines = state.lines := rfl

@[simp] theorem opened_zero (state : State) (stop : Nat) : state.opened 0 stop = state := by
  simp [opened]

theorem opened_succ (state : State) (levels stop : Nat) :
    state.opened (levels + 1) stop = (state.opened levels stop).opened 1 stop := by
  simp [opened, List.replicate_succ, Int.add_assoc]

/-- The levels that end at an offset are closed when it is reached. -/
theorem settle_opened (state : State) (levels stop : Nat) :
    (state.opened levels stop).settle stop = state.settle stop := by
  induction levels with
  | zero => rw [opened_zero]
  | succ levels ih =>
      have hone (state : State) : (state.opened 1 stop).settle stop = state.settle stop := by
        have hindent : state.indent + (1 : Nat) + -1 = state.indent := Int.add_neg_cancel_right ..
        simp only [settle, opened, IndentChange.dedent, List.replicate_one, List.singleton_append,
          List.partition_eq_filter_filter, decide_true, List.filter_cons_of_pos, List.foldl_cons,
          Function.comp_apply, Bool.not_true, Bool.false_eq_true, not_false_eq_true,
          List.filter_cons_of_neg, hindent]
      rw [opened_succ, hone, ih]

end State

/-! ### Lines added -/

/-- No change of level waits for a position from `start` on and before `stop`. -/
def Clear (place : Nat → Nat) (start stop : Nat) (pending : List IndentChange) : Prop :=
  ∀ change ∈ pending, ∀ p, start ≤ p → p < stop → change.target ≠ place p

/-- Lines are added to the statements of a state, and nothing that later steps depend on is changed.
The last of them is not an `else` that waits for its body. -/
structure Adds (lines : List (Nat × Node)) (before after : State) : Prop where
  indent : after.indent = before.indent
  pending : after.pending = before.pending
  lines : after.lines = before.lines ++ lines
  closed : ∀ top ∈ after.stack.head?, top.node ≠ .elseHead

/-- The walk from one position to another adds lines to those of a state, up to levels that end where
it has come to. -/
def Leaves (flags : Flags) (code : Code) (place : Nat → Nat) (start stop : Nat)
    (state before : State) (lines : List (Nat × Node)) : Prop :=
  ∃ levels after, Adds lines before after ∧
    Reaches flags code (start, state) (stop, after.opened levels (place stop))

variable {flags : Flags} {code : Code} {place : Nat → Nat} {ins : Instruction}
  {start middle stop : Nat} {state before after : State} {lines more : List (Nat × Node)}

theorem Clear.sub {pending : List IndentChange} {start' stop' : Nat}
    (h : Clear place start stop pending) (hstart : start ≤ start') (hstop : stop' ≤ stop) :
    Clear place start' stop' pending :=
  fun change hchange p hp hp' => h change hchange p (by omega) (by omega)

theorem Clear.quiet {pending : List IndentChange} {length : Nat} (hlaid : LaidOut place code)
    (h : Clear place start (start + length) pending) : Quiet code start length pending := by
  intro k ins hk hk' hins change hchange
  rw [hlaid.offset k ins hins]
  exact h change hchange k hk hk'

/-- A block that ends at `stop` or later does not disturb what is before. -/
theorem Clear.opened {stop' levels : Nat} (hlaid : LaidOut place code)
    (h : Clear place start stop state.pending) (hstop : stop ≤ stop') :
    Clear place start stop (state.opened levels (place stop')).pending := by
  intro change hchange p hp hp'
  rw [State.opened_pending] at hchange
  rcases List.mem_append.mp hchange with hchange | hchange
  · rw [List.eq_of_mem_replicate hchange]
    intro heq
    have := hlaid.place_inj.mp heq
    omega
  · exact h change hchange p hp hp'

theorem Adds.trans {first last : State} (h : Adds lines before first) (h' : Adds more first last) :
    Adds (lines ++ more) before last where
  indent := h'.indent.trans h.indent
  pending := h'.pending.trans h.pending
  lines := by rw [h'.lines, h.lines, List.append_assoc]
  closed := h'.closed

theorem Adds.pushed (state : State) {node : Node} (offset : Nat) (signature : Signature)
    (hnode : node ≠ .elseHead) :
    Adds [(state.indent.toNat, node)] state (state.pushed node offset signature) where
  indent := rfl
  pending := rfl
  lines := State.lines_pushed ..
  closed := by
    intro top htop
    cases htop
    exact hnode

/-- What is added behind a head, at a level that the head has opened, is added together with the head
to what is before it. -/
theorem Adds.under {node : Node} {offset : Nat} {signature : Signature}
    (h : Adds lines ((state.pushed node offset signature).opened 1 stop) after) :
    ∃ whole, Adds ((state.indent.toNat, node) :: lines) state whole ∧
      ∀ levels, after.opened levels stop = whole.opened (levels + 1) stop := by
  refine ⟨{ after with indent := state.indent, pending := state.pending }, ?_, fun levels => ?_⟩
  · refine ⟨rfl, rfl, ?_, h.closed⟩
    show after.lines = _
    rw [h.lines]
    simp
  · have hindent := h.indent
    have hpending := h.pending
    rw [State.opened_indent, State.pushed_indent] at hindent
    rw [State.opened_pending, State.pushed_pending] at hpending
    simp only [State.opened, State.mk.injEq, hindent, hpending, true_and, and_true]
    refine ⟨by omega, ?_⟩
    -- the dedent of the head comes after those of the levels inside
    have hsucc : List.replicate (levels + 1) (IndentChange.dedent stop) =
        List.replicate levels (.dedent stop) ++ [.dedent stop] := List.replicate_succ'
    rw [hsucc, List.append_assoc]
    rfl

/-! ### From one position to another -/

/-- A walk goes on in the same way from two states that are the same once they are settled. -/
theorem Reaches.resettle {there : Nat × State} (h : Reaches flags code (start, state) there)
    (hthere : there.1 ≠ start)
    (hsettle : ∀ ins, code[start]? = some ins →
      before.settle ins.offset = state.settle ins.offset) :
    Reaches flags code (start, before) there := by
  rcases Relation.ReflTransGen.cases_head h with rfl | ⟨next, hmoves, hrest⟩
  · exact absurd rfl hthere
  · -- the first step settles the state before anything else
    obtain ⟨ins, skip, hins, hstep, hnext⟩ := hmoves
    refine Reaches.trans (.of_moves ⟨ins, skip, hins, ?_, hnext⟩) hrest
    rw [← hstep, step, step, hsettle ins hins]

namespace Leaves

theorem of_adds (hadds : Adds lines before after)
    (hreaches : Reaches flags code (start, state) (stop, after)) :
    Leaves flags code place start stop state before lines :=
  ⟨0, after, hadds, by rwa [State.opened_zero]⟩

theorem prepend {here : State} (hreaches : Reaches flags code (start, here) (middle, state))
    (h : Leaves flags code place middle stop state before lines) :
    Leaves flags code place start stop here before lines := by
  obtain ⟨levels, after, hadds, hrest⟩ := h
  exact ⟨levels, after, hadds, hreaches.trans hrest⟩

/-- The levels that are left open are closed when the walk goes on from where it has come to. -/
theorem settled (h : Leaves flags code place start middle state before lines)
    (hlaid : LaidOut place code) :
    ∃ after, Adds lines before after ∧
      ∀ there, there.1 ≠ middle → Reaches flags code (middle, after) there →
        Reaches flags code (start, state) there := by
  obtain ⟨levels, after, hadds, hreaches⟩ := h
  refine ⟨after, hadds, fun there hthere hrest => hreaches.trans ?_⟩
  refine hrest.resettle hthere fun ins hins => ?_
  rw [hlaid.offset middle ins hins, State.settle_opened]

theorem seq (h : Leaves flags code place start middle state before lines)
    (hlaid : LaidOut place code) (hmiddle : middle < stop)
    (h' : ∀ after, Adds lines before after →
      Leaves flags code place middle stop after after more) :
    Leaves flags code place start stop state before (lines ++ more) := by
  obtain ⟨after, hadds, hreaches⟩ := h.settled hlaid
  obtain ⟨levels, last, hmore, hrest⟩ := h' after hadds
  exact ⟨levels, last, hadds.trans hmore, hreaches _ (by dsimp only; omega) hrest⟩

/-- What is left behind a head is left together with the head. -/
theorem under {node : Node} {offset : Nat} {signature : Signature}
    (h : Leaves flags code place start stop state
      ((before.pushed node offset signature).opened 1 (place stop)) lines) :
    Leaves flags code place start stop state before
      ((before.indent.toNat, node) :: lines) := by
  obtain ⟨levels, after, hadds, hreaches⟩ := h
  obtain ⟨whole, hwhole, hopened⟩ := hadds.under
  exact ⟨levels + 1, whole, hwhole, by rwa [← hopened]⟩

end Leaves

end Walk

end Decompiler
