import Mathlib.Data.Nat.Find
import Decompiler.Proofs.Walk.Course

/-!
The accumulator of a comprehension. What the first instruction makes is bound to it before the next
step, and no other node ever is. So the accumulator has the first node of the run for its value exactly
if the first instruction makes one; behind an instruction that makes none, no node is bound.
-/

namespace Decompiler.Walk

/-- A step of a run: its position, the state that it is made in, its instruction and effect, and the
state that the run goes on in. -/
structure Passage where
  position : Nat
  state : State
  ins : Instruction
  effect : Effect
  next : State

namespace Passage

/-- The run makes this step. -/
def IsIn (p : Passage) (flags : Flags) (code : Code) : Prop :=
  ∃ past, Arrives flags code p.position p.state past ∧ code[p.position]? = some p.ins ∧
    Walk.effect flags code p.ins (code.drop (p.position + 1)) (p.state.settle p.ins.offset) =
      .ok p.effect ∧
    Arrives flags code (p.position + 1 + p.effect.swallows) p.next (p.ins :: past)

def made (p : Passage) : State := (p.state.settle p.ins.offset).apply p.ins.offset p.effect

def Pushes (p : Passage) : Prop := p.effect.push.isSome = true

/-- No step before this one pushes a node. -/
def IsFirstPush (p : Passage) (flags : Flags) (code : Code) : Prop :=
  p.Pushes ∧ ∀ q : Passage, q.IsIn flags code → q.position < p.position → ¬q.Pushes

/-- The node that the step has pushed is replaced by its assignment to the accumulator. -/
def Collects (p : Passage) : Prop :=
  ∃ node, p.effect.push = some node ∧
    p.next = { p.made with
      stack := ⟨p.made.indent.toNat, .assign .accumulator node, p.ins.offset⟩ ::
        p.made.stack.tail }

end Passage

/-- The first node that a run pushes is bound to the accumulator, and no other one is. -/
def CollectsFirst (flags : Flags) (code : Code) : Prop :=
  ∀ p : Passage, p.IsIn flags code →
    (p.IsFirstPush flags code → p.Collects) ∧ (¬p.IsFirstPush flags code → p.next = p.made)

variable {flags : Flags} {code : Code} {p : Passage}

/-- After a number of steps a run is at one position and in one state. -/
theorem Arrives.unique {n m : Nat} {state other : State} {past past' : List Instruction}
    (h : Arrives flags code n state past) (h' : Arrives flags code m other past')
    (hlength : past.length = past'.length) : n = m ∧ state = other := by
  induction h generalizing m other past' with
  | start =>
      cases h' with
      | start => exact ⟨rfl, rfl⟩
      | step h' hins' hstep' => simp at hlength
  | step h hins hstep ih =>
      cases h' with
      | start => simp at hlength
      | step h' hins' hstep' =>
          obtain ⟨rfl, rfl⟩ := ih h' (Nat.succ.inj hlength)
          obtain rfl := Option.some.inj (hins.symm.trans hins')
          obtain ⟨rfl, rfl⟩ := Prod.mk.inj (Except.ok.inj (hstep.symm.trans hstep'))
          exact ⟨rfl, rfl⟩

namespace Passage

theorem IsIn.next_eq (h : p.IsIn flags code) :
    p.next = p.made.leave flags p.position p.ins.offset := by
  obtain ⟨past, harrives, hins, heffect, hnext⟩ := h
  have hstep := harrives.step hins (step_eq_ok.mpr ⟨p.effect, heffect, rfl, rfl⟩)
  exact (hnext.unique hstep rfl).2

/-- What is left of the run is the walk from the next state. -/
theorem IsIn.run_eq_walk (h : p.IsIn flags code) :
    run flags code =
      walk flags code 0 (code.drop (p.position + 1 + p.effect.swallows)) p.next := by
  obtain ⟨past, -, -, -, hnext⟩ := h
  exact hnext.run_eq_walk (by omega)

theorem IsIn.next_of_pos (h : p.IsIn flags code) (hpos : 0 < p.position) : p.next = p.made := by
  rw [h.next_eq, State.leave_of_pos _ _ _ _ hpos]

/-- At first there is nothing on the stack but what the step pushes. -/
theorem IsIn.made_stack (h : p.IsIn flags code) (hzero : p.position = 0) :
    p.made.stack = (p.effect.push.map fun node =>
      Statement.mk ((p.state.settle p.ins.offset).indent + p.effect.shift).toNat node
        p.ins.offset).toList := by
  obtain ⟨past, harrives, -⟩ := h
  rcases harrives.eq_start_or_pos with ⟨-, hstate, -⟩ | hpos
  · simp [made, State.apply, hstate]
  · omega

theorem IsIn.collects (h : p.IsIn flags code) (hflags : flags.comprehension = true)
    (hzero : p.position = 0) (hpushes : p.Pushes) : p.Collects := by
  obtain ⟨node, hnode⟩ := Option.isSome_iff_exists.mp hpushes
  refine ⟨node, hnode, ?_⟩
  have hstack := h.made_stack hzero
  rw [hnode, Option.map_some, Option.toList_some] at hstack
  rw [h.next_eq, State.leave, if_pos ⟨hzero, hflags⟩, State.collect, hstack]
  rfl

theorem IsIn.next_of_not_pushes (h : p.IsIn flags code) (hpushes : ¬p.Pushes) :
    p.next = p.made := by
  rcases Nat.eq_zero_or_pos p.position with hzero | hpos
  · have hstack := h.made_stack hzero
    have hnone : p.effect.push = none := by simpa [Pushes] using hpushes
    rw [hnone, Option.map_none, Option.toList_none] at hstack
    rw [h.next_eq]
    unfold State.leave
    split
    · rw [State.collect, hstack]
    · rfl
  · exact h.next_of_pos hpos

/-- No node is its own assignment. -/
theorem Collects.next_ne_made (h : p.Collects) : p.next ≠ p.made := by
  obtain ⟨node, hnode, hnext⟩ := h
  intro hmade
  have hstack := congrArg State.stack (hnext.symm.trans hmade)
  rw [made, State.apply, hnode] at hstack
  have hself : Node.assign .accumulator node = node :=
    congrArg Statement.node (List.cons.inj hstack).1
  have hsize := congrArg sizeOf hself
  rw [Node.assign.sizeOf_spec] at hsize
  omega

theorem exists_isFirstPush (h : ∃ p : Passage, p.IsIn flags code ∧ p.Pushes) :
    ∃ p : Passage, p.IsIn flags code ∧ p.IsFirstPush flags code := by
  classical
  have hsome : ∃ n, ∃ p : Passage, p.IsIn flags code ∧ p.Pushes ∧ p.position = n := by
    obtain ⟨p, hp, hpushes⟩ := h
    exact ⟨_, p, hp, hpushes, rfl⟩
  obtain ⟨p, hp, hpushes, hposition⟩ := Nat.find_spec hsome
  refine ⟨p, hp, hpushes, fun q hq hlt hq' => ?_⟩
  rw [hposition] at hlt
  exact Nat.find_min hsome hlt ⟨q, hq, hq', rfl⟩

end Passage

/-- In a comprehension the node of the first instruction is bound to the accumulator before the run goes
on, and all other steps leave what their effects do. So where any node is pushed, the first one is bound
and no other exactly if the first instruction pushes one. -/
theorem collects_first_iff (flags : Flags) (code : Code) (hflags : flags.comprehension = true)
    (hsome : ∃ p : Passage, p.IsIn flags code ∧ p.Pushes) :
    (∀ p : Passage, p.IsIn flags code →
      run flags code =
          walk flags code 0 (code.drop (p.position + 1 + p.effect.swallows)) p.next ∧
        (p.position = 0 ∧ p.Pushes → p.Collects) ∧
        (¬(p.position = 0 ∧ p.Pushes) → p.next = p.made)) ∧
      (CollectsFirst flags code ↔
        ∃ p : Passage, p.IsIn flags code ∧ p.position = 0 ∧ p.Pushes) := by
  have hothers {p : Passage} (hp : p.IsIn flags code) (h : ¬(p.position = 0 ∧ p.Pushes)) :
      p.next = p.made := by
    by_cases hzero : p.position = 0
    · exact hp.next_of_not_pushes fun hpushes => h ⟨hzero, hpushes⟩
    · exact hp.next_of_pos (Nat.pos_of_ne_zero hzero)
  refine ⟨fun p hp => ⟨hp.run_eq_walk, fun h => hp.collects hflags h.1 h.2, hothers hp⟩, ?_⟩
  constructor
  · intro h
    obtain ⟨p, hp, hfirst⟩ := Passage.exists_isFirstPush hsome
    refine ⟨p, hp, ?_⟩
    by_contra hnot
    exact ((h p hp).1 hfirst).next_ne_made (hothers hp hnot)
  · rintro ⟨first, hin, hzero, hpushes⟩ p hp
    refine ⟨fun hfirst => ?_, fun hfirst => hothers hp fun h => hfirst ⟨h.2, fun q _ hq => ?_⟩⟩
    · refine hp.collects hflags (Nat.eq_zero_of_not_pos fun hpos => ?_) hfirst.1
      exact hfirst.2 first hin (by omega) hpushes
    · omega

def buildContainer (offset : Nat) : Instruction :=
  { offset, opname := "BUILD_SET", arg := some 0 }

/-- A comprehension of the usual form, which starts with the container of its results. -/
def containerFirst : Code :=
  [buildContainer 0, { offset := 2, opname := "LOAD_FAST", arg := some 0, argval := some ".0" },
    { offset := 4, opname := "RETURN_VALUE" }]

theorem collects_first_iff_set :
    let flags : Flags := { comprehension := true }
    let state : State := { stack := [⟨0, .display .set [], 0⟩] }
    let first : Passage :=
      ⟨0, {}, buildContainer 0, .replace 0 (.display .set []), state.collect 0⟩
    first.IsIn flags containerFirst ∧ first.Pushes ∧ first.Collects ∧
      CollectsFirst flags containerFirst := by
  intro flags state first
  have heffect : effect flags containerFirst (buildContainer 0) (containerFirst.drop 1)
      (State.settle {} 0) = .ok (.replace 0 (.display .set [])) := rfl
  have hnext : Arrives flags containerFirst 1 (state.collect 0) [buildContainer 0] :=
    Arrives.start.step rfl (step_eq_ok.mpr ⟨_, heffect, rfl, rfl⟩)
  have hin : first.IsIn flags containerFirst := ⟨[], .start, rfl, heffect, hnext⟩
  have hpushes : first.Pushes := rfl
  obtain ⟨hall, hiff⟩ := collects_first_iff flags containerFirst rfl ⟨first, hin, hpushes⟩
  exact ⟨hin, hpushes, (hall first hin).2.1 ⟨rfl, hpushes⟩, hiff.mpr ⟨first, hin, rfl, hpushes⟩⟩

/-- The container behind an instruction that does nothing. -/
def containerSecond : Code :=
  [{ offset := 0, opname := "NOP" }, buildContainer 2, { offset := 4, opname := "RETURN_VALUE" }]

/-- This container is not bound, though it is the first node and the run succeeds. -/
theorem exists_unbound_container :
    ¬∀ (flags : Flags) (code : Code) (last : State), flags.comprehension = true →
      run flags code = .ok last → (∃ p : Passage, p.IsIn flags code ∧ p.Pushes) →
        CollectsFirst flags code := by
  intro hall
  let flags : Flags := { comprehension := true }
  let state : State := { stack := [⟨0, .display .set [], 2⟩] }
  let second : Passage := ⟨1, {}, buildContainer 2, .replace 0 (.display .set []), state⟩
  have hnop (state : State) : effect flags containerSecond { offset := 0, opname := "NOP" }
      (containerSecond.drop 1) state = .ok {} := rfl
  have hbuild : effect flags containerSecond (buildContainer 2) (containerSecond.drop 2)
      (State.settle {} 2) = .ok (.replace 0 (.display .set [])) := rfl
  have hskipped : Arrives flags containerSecond 1 {} [{ offset := 0, opname := "NOP" }] :=
    Arrives.start.step rfl (step_eq_ok.mpr ⟨_, hnop _, rfl, rfl⟩)
  have hin : second.IsIn flags containerSecond :=
    ⟨_, hskipped, rfl, hbuild, hskipped.step rfl (step_eq_ok.mpr ⟨_, hbuild, rfl, rfl⟩)⟩
  have hfirst : second.IsFirstPush flags containerSecond := by
    refine ⟨rfl, fun q hq hlt hpushes => ?_⟩
    obtain ⟨past, harrives, hins, heffect, -⟩ := hq
    have hzero : q.position = 0 := Nat.lt_one_iff.mp hlt
    rw [hzero] at hins heffect
    rw [← Option.some.inj hins, hnop] at heffect
    rw [Passage.Pushes, ← Except.ok.inj heffect] at hpushes
    cases hpushes
  have hrun : run flags containerSecond = .ok _ := rfl
  have hcollects := (hall flags containerSecond _ rfl hrun ⟨second, hin, rfl⟩ second hin).1 hfirst
  exact hcollects.next_ne_made rfl

end Decompiler.Walk
