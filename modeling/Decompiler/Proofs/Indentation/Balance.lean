import Mathlib.Data.List.Basic
import Decompiler.Proofs.Walk.Course

/-!
The balance of levels. Every level that is open waits for one dedent. Only a test that jumps back to
the head of a loop can open a level for good, when no instruction follows the jump that closes the
loop. The `else` that an `elif` takes the place of still waits for its dedent then, so it can be
called off.
-/

namespace Decompiler

/-- A test jumps back and opens a level that nothing closes: there is no later jump back to its
target, or the first one is the last instruction. -/
def Instruction.staysOpen (flags : Flags) (code : Code) (ins : Instruction) : Bool :=
  !flags.rawJumps && ins.isConditionalJump && ins.jumpTarget?.any fun target =>
    target ≤ ins.offset &&
      (code.closing? ins.offset target).all fun back => code.getLast? = some back

/-- The jumps that open an `else` go forward. -/
def Code.ElsesForward (code : Code) : Prop :=
  ∀ ins ∈ code, ins.is .jumpForward = true → ∀ target ∈ ins.jumpTarget?, ins.offset < target

instance (code : Code) : Decidable code.ElsesForward := by
  unfold Code.ElsesForward
  infer_instance

namespace Walk

def isElseTo (code : Code) (stop : Nat) (s : Statement) : Bool :=
  match s.node with
  | .elseHead => (code.atOffset? s.offset).bind Instruction.jumpTarget? = some stop
  | _ => false

theorem isElseTo_eq_true {code : Code} {stop : Nat} {s : Statement} :
    isElseTo code stop s = true ↔
      s.node = .elseHead ∧ (code.atOffset? s.offset).bind Instruction.jumpTarget? = some stop := by
  unfold isElseTo
  split
  · next h => simp [h]
  · next h => exact ⟨nofun, fun helse => absurd helse.1 h⟩

/-- Each level that is open waits for a dedent, except for some that never end. Every `else` on the
stack that is not over still waits for a dedent of its own. -/
structure Balanced (code : Code) (past : List Instruction) (endless : Nat) (state : State) :
    Prop where
  dedents : ∀ change ∈ state.pending, change.delta = -1
  indent : state.indent = state.pending.length + endless
  elses : ∀ stop, (∀ started ∈ past, started.offset < stop) →
    state.stack.countP (isElseTo code stop) ≤ state.pending.count (.dedent stop)

variable {flags : Flags} {code : Code} {ins : Instruction} {past : List Instruction}
  {state : State} {endless : Nat} {effect : Effect}

/-! ### Settling -/

theorem foldl_delta {changes : List IndentChange} (h : ∀ change ∈ changes, change.delta = -1)
    (level : Int) :
    changes.foldl (fun level change => level + change.delta) level = level - changes.length := by
  induction changes generalizing level with
  | nil => simp
  | cons change changes ih =>
      rw [List.foldl_cons, ih (fun other hother => h other (List.mem_cons_of_mem _ hother)),
        h change (List.mem_cons_self ..), List.length_cons]
      omega

/-- As many levels are closed as dedents are carried out. -/
theorem settle_indent (h : ∀ change ∈ state.pending, change.delta = -1) (offset : Nat) :
    (state.settle offset).indent - (state.settle offset).pending.length =
      state.indent - state.pending.length := by
  have hdue : ∀ change ∈ state.pending.filter fun change => change.target = offset,
      change.delta = -1 := fun change hchange => h change (List.mem_filter.mp hchange).1
  have hlength := List.length_eq_length_filter_add (l := state.pending)
    fun change => decide (change.target = offset)
  have hlater : (state.settle offset).pending.length =
      (state.pending.filter fun change => !decide (change.target = offset)).length := by
    rw [State.settle_pending]
    simp
  have hindent : (state.settle offset).indent =
      state.indent - (state.pending.filter fun change => change.target = offset).length := by
    rw [← foldl_delta hdue]
    simp [State.settle, List.partition_eq_filter_filter]
  omega

/-- The offset of the instruction has been passed then. -/
theorem Balanced.settle (h : Balanced code past endless state)
    (hpast : ∀ started ∈ past, started.offset < ins.offset) :
    Balanced code (ins :: past) endless (state.settle ins.offset) where
  dedents := fun change hchange =>
    h.dedents change ((state.mem_settle_pending ins.offset).mp hchange).1
  indent := by
    have := settle_indent h.dedents ins.offset
    have := h.indent
    omega
  elses := by
    intro stop hstop
    obtain ⟨hins, -⟩ := List.forall_mem_cons.mp hstop
    have hcount : (state.settle ins.offset).pending.count (.dedent stop) =
        state.pending.count (.dedent stop) := by
      have hne : stop ≠ ins.offset := Nat.ne_of_gt hins
      rw [State.settle_pending, List.count_filter]
      exact decide_eq_true hne
    rw [hcount, State.settle_stack]
    refine h.elses stop fun started hstarted => ?_
    have := hpast started hstarted
    omega

/-! ### One step -/

/-- A branch ends an `else` only behind the instruction that opens the branch. -/
theorem lt_of_fillsElse {target stop : Nat} (hcode : code.Increasing) (helses : code.ElsesForward)
    (hins : ins ∈ code) (hforward : ins.offset < target)
    (h : code.fillsElse target stop = true) : ins.offset < stop := by
  rw [Code.fillsElse, Bool.or_eq_true, decide_eq_true_eq, Option.any_eq_true] at h
  rcases h with rfl | ⟨last, hlast, hjump⟩
  · exact hforward
  · rw [Bool.and_eq_true, decide_eq_true_eq] at hjump
    obtain ⟨hmem, -, hmax⟩ := hcode.beforeOffset?_eq_some.mp hlast
    calc
      ins.offset ≤ last.offset := hmax ins hins hforward
      _ < stop := helses last hmem hjump.1 stop hjump.2

theorem exists_else_of_elseEnd? {level : Int} {stack : List Statement} {target stop : Nat}
    (h : elseEnd? code level stack target = some stop) :
    ∃ top below, stack = top :: below ∧ isElseTo code stop top = true ∧
      code.fillsElse target stop = true := by
  unfold elseEnd? at h
  split at h
  · next margin offset below =>
    split at h
    · obtain ⟨hstop, hfills⟩ := Option.filter_eq_some_iff.mp h
      exact ⟨_, below, rfl, by simp [isElseTo, hstop], hfills⟩
    · cases h
  · cases h

theorem countP_drop_le (p : Statement → Bool) (stack : List Statement) (pops : Nat) :
    (stack.drop pops).countP p ≤ stack.countP p :=
  (List.drop_sublist pops stack).countP_le

/-- An effect that calls nothing off keeps the balance if it schedules a dedent for each level that
it opens, except for `stays` of them, and an `else` that it leaves ends at that dedent. -/
theorem Balanced.opens {stays offset : Nat} (h : Balanced code past endless state)
    (hcancels : effect.cancels = none)
    (hlevel : effect.level = effect.closes.toList.length + stays)
    (hpush : ∀ node, effect.push = some node → ∀ level stop,
      isElseTo code stop ⟨level, node, offset⟩ = true → effect.closes = some stop) :
    Balanced code past (endless + stays) (state.apply offset effect) where
  dedents := by
    intro change hchange
    rcases state.mem_apply_pending offset hchange with hold | ⟨target, -, rfl⟩
    · exact h.dedents change hold
    · rfl
  indent := by
    have hlength : (effect.closes.map IndentChange.dedent).toList.length =
        effect.closes.toList.length := by
      cases effect.closes with
      | none => rfl
      | some target => rfl
    simp only [State.apply, hcancels, List.length_append, hlength, h.indent, hlevel]
    push_cast
    omega
  elses := by
    intro stop hstop
    have hbelow := (countP_drop_le (isElseTo code stop) state.stack effect.pops).trans
      (h.elses stop hstop)
    simp only [State.apply, hcancels, List.countP_append, List.count_append]
    cases hnode : effect.push with
    | none => simpa using Nat.le_add_left_of_le hbelow
    | some node =>
        by_cases helse : isElseTo code stop ⟨(state.indent + effect.shift).toNat, node, offset⟩
        · rw [hpush node hnode _ _ helse]
          simpa [helse] using hbelow
        · simpa [helse] using Nat.le_add_left_of_le hbelow

theorem countP_of_drop_one {top : Statement} {below : List Statement}
    (hstack : state.stack.drop 1 = top :: below) (p : Statement → Bool) :
    below.countP p + (if p top then 1 else 0) ≤ state.stack.countP p := by
  have := countP_drop_le p state.stack 1
  rwa [hstack, List.countP_cons] at this

/-- The dedent of an `else` below the test is still to come. -/
theorem Balanced.dedent_mem {stop : Nat} {top : Statement} {below : List Statement}
    (h : Balanced code past endless state) (hstop : ∀ started ∈ past, started.offset < stop)
    (hstack : state.stack.drop 1 = top :: below) (htop : isElseTo code stop top = true) :
    .dedent stop ∈ state.pending := by
  rw [← List.count_pos_iff]
  have := h.elses stop hstop
  have := countP_of_drop_one hstack (isElseTo code stop)
  rw [if_pos htop] at this
  omega

/-- An effect that puts a branch in place of an `else` calls the dedent of that `else` off and
schedules its own. -/
theorem Balanced.continues {target stop offset : Nat} {top : Statement} {below : List Statement}
    (h : Balanced code past endless state) (hstop : ∀ started ∈ past, started.offset < stop)
    (hstack : state.stack.drop 1 = top :: below) (htop : isElseTo code stop top = true)
    (hpops : effect.pops = 2) (hlevel : effect.level = 0) (hcloses : effect.closes = some target)
    (hcancels : effect.cancels = some stop)
    (hpush : ∀ node, effect.push = some node → ∀ level other,
      isElseTo code other ⟨level, node, offset⟩ = false) :
    Balanced code past endless (state.apply offset effect) := by
  have hmem := h.dedent_mem hstop hstack htop
  have hpending : (state.apply offset effect).pending =
      (IndentChange.dedent target :: state.pending).erase (.dedent stop) := by
    simp [State.apply, hcloses, hcancels]
  refine ⟨?_, ?_, ?_⟩
  · intro change hchange
    rcases state.mem_apply_pending offset hchange with hold | ⟨other, -, rfl⟩
    · exact h.dedents change hold
    · rfl
  · rw [hpending, List.length_erase_of_mem (List.mem_cons_of_mem _ hmem), List.length_cons,
      Nat.add_sub_cancel]
    simpa [State.apply, hlevel] using h.indent
  · intro other hother
    have hbelow : (state.apply offset effect).stack.countP (isElseTo code other) =
        below.countP (isElseTo code other) := by
      have hdrop : state.stack.drop 2 = below := by
        rw [← List.drop_drop (i := 1) (j := 1), hstack, List.drop_one, List.tail_cons]
      simp only [State.apply, hpops, hdrop, List.countP_append]
      cases hnode : effect.push with
      | none => simp
      | some node => simp [hpush node hnode]
    have hle := (countP_of_drop_one hstack (isElseTo code other)).trans (h.elses other hother)
    rw [hbelow, hpending, List.count_erase, List.count_cons]
    by_cases heq : other = stop
    · subst heq
      rw [if_pos htop] at hle
      rw [beq_self_eq_true, if_pos rfl]
      omega
    · have hne : (IndentChange.dedent stop == IndentChange.dedent other) = false := by
        simpa [IndentChange.dedent] using Ne.symm heq
      rw [hne, if_neg Bool.false_ne_true]
      omega

/-- A level is open for good from an instruction on if it opens one and no end of it is known. -/
theorem staysOpen_of_flat (h : flags.rawJumps = false → ins.isConditionalJump = false) :
    ins.staysOpen flags code = false := by
  unfold Instruction.staysOpen
  cases hraw : flags.rawJumps with
  | true => rfl
  | false => simp [h hraw]

theorem staysOpen_of_forward {target : Nat} (htarget : ins.jumpTarget? = some target)
    (h : ins.offset < target) : ins.staysOpen flags code = false := by
  simp [Instruction.staysOpen, htarget, Nat.not_le.mpr h]

theorem staysOpen_of_back {target : Nat} {onTrue : Bool} (hcode : code.Increasing)
    (hraw : flags.rawJumps = false) (hop : ins.opcode? = some (.popJumpIf onTrue))
    (htarget : ins.jumpTarget? = some target) (hback : target ≤ ins.offset) :
    ins.staysOpen flags code = decide (code.loopEnd? ins.offset target = none) := by
  have htest := Instruction.isConditionalJump_eq_true.mpr ⟨onTrue, hop⟩
  rw [Bool.eq_iff_iff, decide_eq_true_eq, Code.loopEnd?_eq_none_iff hcode]
  simp [Instruction.staysOpen, hraw, htest, htarget, hback]

/-- Every effect keeps the balance, and it finds the dedent that it calls off. -/
theorem Balanced.apply (hcode : code.Increasing) (helses : code.ElsesForward) (hins : ins ∈ code)
    (hpast : ∀ started ∈ past, started.offset < ins.offset)
    (h : Balanced code (ins :: past) endless state) (hform : effect.Form flags code ins state) :
    (∀ stop, effect.cancels = some stop → .dedent stop ∈ state.pending) ∧
      Balanced code (ins :: past) (endless + if ins.staysOpen flags code then 1 else 0)
        (state.apply ins.offset effect) := by
  -- only the head of an `else` counts
  have other {node : Node} (hnode : node ≠ .elseHead) (level stop : Nat) :
      isElseTo code stop ⟨level, node, ins.offset⟩ = false := by
    rw [Bool.eq_false_iff, Ne, isElseTo_eq_true]
    exact fun helse => hnode helse.1
  have block {stays : Nat} (hcancels : effect.cancels = none)
      (hlevel : effect.level = effect.closes.toList.length + stays)
      (hpush : ∀ node, effect.push = some node → node ≠ .elseHead) :
      Balanced code (ins :: past) (endless + stays) (state.apply ins.offset effect) := by
    refine h.opens hcancels hlevel fun node hnode level stop helse => ?_
    rw [other (hpush node hnode)] at helse
    cases helse
  cases hform with
  | flat hflat hop =>
      rw [staysOpen_of_flat hop]
      have hlevel : effect.level = effect.closes.toList.length + (0 : Nat) := by
        rw [hflat.level, hflat.closes]
        rfl
      refine ⟨?_, block hflat.cancels hlevel fun node hnode heq => ?_⟩
      · rw [hflat.cancels]
        nofun
      · have := hflat.push node hnode
        rw [heq] at this
        cases this
  | forLoop target iterator stop mentions swallows hop hstop =>
      have htest := Instruction.isConditionalJump_eq_false hop nofun
      rw [staysOpen_of_flat fun _ => htest]
      exact ⟨nofun, block rfl rfl (by rintro _ ⟨⟩; nofun)⟩
  | whileLoop onTrue condition target hraw hop htarget hforward hwhile =>
      rw [staysOpen_of_forward htarget hforward]
      exact ⟨nofun, block rfl rfl (by rintro _ ⟨⟩; nofun)⟩
  | ifBranch onTrue condition target hraw hop htarget hforward hwhile =>
      rw [staysOpen_of_forward htarget hforward]
      exact ⟨nofun, block rfl rfl (by rintro _ ⟨⟩; nofun)⟩
  | elifBranch onTrue condition target stop hraw hop htarget hforward hwhile hstop =>
      rw [staysOpen_of_forward htarget hforward]
      obtain ⟨top, below, hstack, htop, hfills⟩ := exists_else_of_elseEnd? hstop
      have hlt := lt_of_fillsElse hcode helses hins hforward hfills
      have hpassed : ∀ started ∈ ins :: past, started.offset < stop :=
        List.forall_mem_cons.mpr
          ⟨hlt, fun started hstarted => (hpast started hstarted).trans hlt⟩
      refine ⟨?_, h.continues hpassed hstack htop rfl rfl rfl rfl ?_⟩
      · rintro _ ⟨⟩
        exact h.dedent_mem hpassed hstack htop
      · rintro _ ⟨⟩
        exact other nofun
  | lastBranch onTrue condition target hraw hop htarget hback =>
      rw [staysOpen_of_back hcode hraw hop htarget hback]
      refine ⟨nofun, block rfl ?_ (by rintro _ ⟨⟩; nofun)⟩
      cases hend : code.loopEnd? ins.offset target with
      | none => simp [Effect.block]
      | some stop => simp [Effect.block]
  | elseBranch target hraw hop htarget =>
      rw [staysOpen_of_flat fun _ => Instruction.isConditionalJump_eq_false hop nofun]
      refine ⟨nofun, ?_⟩
      refine h.opens rfl rfl fun node hnode level stop helse => ?_
      obtain ⟨-, hstop⟩ := isElseTo_eq_true.mp helse
      rw [hcode.atOffset?_eq_some.mpr ⟨hins, rfl⟩, Option.bind_some, htarget] at hstop
      exact hstop

theorem Balanced.leave {position offset : Nat} (h : Balanced code past endless state) :
    Balanced code past endless (state.leave flags position offset) where
  dedents := by simpa using h.dedents
  indent := by simpa using h.indent
  elses := by
    intro stop hstop
    have hle : (state.leave flags position offset).stack.countP (isElseTo code stop) ≤
        state.stack.countP (isElseTo code stop) := by
      unfold State.leave State.collect
      split
      · split
        · exact Nat.le_refl _
        · next top below hstack =>
          rw [hstack, List.countP_cons, List.countP_cons]
          simp [isElseTo]
      · exact Nat.le_refl _
    rw [State.leave_pending]
    exact hle.trans (h.elses stop hstop)

/-! ### The whole run -/

variable {n : Nat}

theorem Arrives.balanced (hcode : code.Increasing) (helses : code.ElsesForward)
    (h : Arrives flags code n state past) :
    Balanced code past (past.countP fun ins => ins.staysOpen flags code) state := by
  induction h with
  | start => exact ⟨nofun, rfl, fun _ _ => Nat.le_refl _⟩
  | step h hins hstep ih =>
      rename_i n skip state next ins past
      obtain ⟨effect, heffect, rfl, rfl⟩ := step_eq_ok.mp hstep
      have hpast := h.offset_lt hcode hins
      rw [List.countP_cons]
      exact ((ih.settle hpast).apply hcode helses (List.mem_of_getElem? hins) hpast
        (form_effect effect heffect)).2.leave

/-- Wherever a run arrives, all changes to come are dedents, and there is one for each open level
that is ever closed. An effect that calls a dedent off finds it there, and a statement stands where
its effect puts it, except for an `else`. -/
theorem levels_balanced (hcode : code.Increasing) (helses : code.ElsesForward)
    (h : Arrives flags code n state past) :
    (∀ change ∈ state.pending, change.delta = -1) ∧
      state.indent =
        state.pending.length + (past.filter fun ins => ins.staysOpen flags code).length ∧
      0 ≤ state.indent ∧
      ∀ ins effect, code[n]? = some ins →
        Walk.effect flags code ins (code.drop (n + 1)) (state.settle ins.offset) = .ok effect →
        (∀ stop, effect.cancels = some stop → .dedent stop ∈ (state.settle ins.offset).pending) ∧
          ∀ node, effect.push = some node → node ≠ .elseHead →
            ((state.settle ins.offset).indent + effect.shift).toNat =
              (state.settle ins.offset).indent + effect.shift := by
  have hbalanced := h.balanced hcode helses
  have hindent := hbalanced.indent
  rw [← List.countP_eq_length_filter]
  refine ⟨hbalanced.dedents, hindent, by omega, fun ins effect hins heffect => ?_⟩
  have hpast := h.offset_lt hcode hins
  have hsettled := hbalanced.settle hpast
  have hform := form_effect effect heffect
  have hcancels := (hsettled.apply hcode helses (List.mem_of_getElem? hins) hpast hform).1
  refine ⟨hcancels, fun node hnode hne => Int.toNat_of_nonneg ?_⟩
  have hlevel := hsettled.indent
  cases hform with
  | flat hflat hop =>
      rw [hflat.shift]
      omega
  | elifBranch onTrue condition target stop hraw hop htarget hforward hwhile hstop =>
      -- the dedent of the `else` is still to come, so the level is not the margin
      have := List.length_pos_of_mem (hcancels stop rfl)
      dsimp only
      omega
  | elseBranch target hraw hop htarget =>
      cases hnode
      exact absurd rfl hne
  | _ =>
      dsimp only [Effect.block]
      omega

/-- A branch, and a second one in place of its `else`. At the test of the second one the dedent of
the `else` is called off. -/
theorem levels_balanced_elif :
    let code : Code :=
      [{ offset := 0, opname := "LOAD_NAME", argval := some "a" },
        { offset := 2, opname := "POP_JUMP_IF_FALSE", arg := some 8 },
        { offset := 4, opname := "LOAD_NAME", argval := some "b" },
        { offset := 6, opname := "JUMP_FORWARD", arg := some 6, argval := some "to 14" },
        { offset := 8, opname := "LOAD_NAME", argval := some "c" },
        { offset := 10, opname := "POP_JUMP_IF_FALSE", arg := some 14 },
        { offset := 12, opname := "LOAD_NAME", argval := some "d" },
        { offset := 14, opname := "RETURN_VALUE" }]
    let ins : Instruction := { offset := 10, opname := "POP_JUMP_IF_FALSE", arg := some 14 }
    code.Increasing ∧ code.ElsesForward ∧
      ∃ state past, Arrives {} code 5 state past ∧ state.pending = [.dedent 14] ∧
        state.indent = ([.dedent 14] : List IndentChange).length + (0 : Nat) ∧
        ∃ effect, Walk.effect {} code ins (code.drop 6) (state.settle 10) = .ok effect ∧
          effect.cancels = some 14 ∧ .dedent 14 ∈ (state.settle 10).pending ∧
          ((state.settle 10).indent + effect.shift).toNat =
            (state.settle 10).indent + effect.shift := by
  intro code ins
  have hcode : code.Increasing := by decide
  have helses : code.ElsesForward := by decide
  have h₀ : Arrives {} code 0 {} [] := .start
  have h₁ := h₀.step rfl rfl
  have h₃ := (h₁.step rfl rfl).step rfl rfl
  have h₅ := (h₃.step rfl rfl).step rfl rfl
  obtain ⟨-, hindent, -, hstep⟩ := levels_balanced hcode helses h₅
  obtain ⟨hcancels, hpush⟩ := hstep ins _ rfl rfl
  exact ⟨hcode, helses, _, _, h₅, rfl, hindent, _, rfl, rfl, hcancels 14 rfl,
    hpush _ rfl nofun⟩

end Walk

end Decompiler
