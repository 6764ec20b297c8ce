import Decompiler.Proofs.Unpacking.Code
import Decompiler.Proofs.Walk.Course

/-!
What loops and unpackings bind. The step of a `FOR_ITER` takes in the code of the target that follows,
and that of an `UNPACK_SEQUENCE` the code that it begins itself. They bind the names of the target and
no others. Where no such code stands they take in nothing.
-/

namespace Decompiler

namespace Target

/-- The code of a target is `n` instructions long from a position on. -/
def StandsAt (target : Target) (code : Code) (start n : Nat) : Prop :=
  start + n ≤ code.length ∧ target.IsCode ((code.drop start).take n)

variable {target : Target} {code : Code} {start n : Nat}

theorem size_pos (target : Target) : 0 < target.size := by
  cases target <;> simp [size]

theorem standsAt_iff :
    target.StandsAt code start n ↔ read? (code.drop start) = some target ∧ target.size = n := by
  constructor
  · rintro ⟨hn, hcode⟩
    refine ⟨read?_eq_some_iff.mpr ⟨_, _, (List.take_append_drop n _).symm, hcode⟩, ?_⟩
    rw [← hcode.length_eq, List.length_take, List.length_drop]
    omega
  · rintro ⟨hread, rfl⟩
    obtain ⟨block, rest, hdrop, hcode⟩ := read?_eq_some_iff.mp hread
    have hlength : code.length - start = target.size + rest.length := by
      rw [← List.length_drop, hdrop, List.length_append, hcode.length_eq]
    have hpos := target.size_pos
    refine ⟨by omega, ?_⟩
    rwa [hdrop, ← hcode.length_eq, List.take_left]

theorem not_standsAt (h : read? (code.drop start) = none) (target : Target) (n : Nat) :
    ¬target.StandsAt code start n := by
  rw [standsAt_iff, h]
  rintro ⟨⟨⟩, -⟩

end Target

namespace Walk

/-- Between two states some names are bound, and no other name is mentioned. -/
def Binds (names : List String) (state next : State) : Prop :=
  next.signature = { state.signature with seen := names.reverse ++ state.signature.seen }

variable {flags : Flags} {code : Code} {ins : Instruction} {ahead : Code} {n skip : Nat}
  {state next : State} {effect : Effect}

theorem binds_apply {names : List String} (h : effect.mentions = names.map .store) (offset : Nat) :
    Binds names state ((state.settle offset).apply offset effect) := by
  rw [Binds, State.apply, h, Signature.foldl_mention_store]
  rfl

theorem operand_eq_ok {stack : List Statement} {node : Node} :
    operand ins stack = .ok node ↔ ∃ top below, stack = top :: below ∧ top.node = node := by
  cases stack with
  | nil => simp [operand]
  | cons top below => simp [operand]

theorem forLoop_eq_ok (h : forLoop ins ahead state = .ok effect) :
    (∃ target top below stop, Target.read? ahead = some target ∧ state.stack = top :: below ∧
      effect = { Effect.block 1 (.forHead target.node (iterated top.node)) (some stop) with
        mentions := target.names.map .store
        swallows := target.size }) ∨
      Target.read? ahead = none ∧ effect = .placeholder ins := by
  obtain ⟨stop, -, h⟩ := bind_eq_ok.mp h
  split at h
  · cases h
  · split at h
    · next hnone =>
      cases h
      exact .inr ⟨hnone, rfl⟩
    · next target hread =>
      obtain ⟨node, hnode, h⟩ := bind_eq_ok.mp h
      obtain ⟨top, below, hstack, rfl⟩ := operand_eq_ok.mp hnode
      cases h
      exact .inl ⟨target, top, below, stop, hread, hstack, rfl⟩

theorem unpackSequence_eq_ok (h : unpackSequence ins ahead state = .ok effect) :
    ∃ top below, state.stack = top :: below ∧
      ((∃ target, Target.read? (ins :: ahead) = some target ∧
        effect = { Effect.replace 1 (.assign target.node top.node) with
          mentions := target.names.map .store
          swallows := target.size - 1 }) ∨
        Target.read? (ins :: ahead) = none ∧ effect = .replace 1 (.splat top.node)) := by
  obtain ⟨node, hnode, h⟩ := bind_eq_ok.mp h
  obtain ⟨top, below, hstack, rfl⟩ := operand_eq_ok.mp hnode
  refine ⟨top, below, hstack, ?_⟩
  split at h
  · next hnone =>
    cases h
    exact .inr ⟨hnone, rfl⟩
  · next target hread =>
    cases h
    exact .inl ⟨target, hread, rfl⟩

/-- The step of a loop takes in the code of the target that follows it and binds its names. Where no
target follows, it takes in nothing and binds nothing. -/
def LoopBinds (code : Code) (n : Nat) (ins : Instruction) (state next : State) (skip : Nat) : Prop :=
  (∃ (target : Target) (top : Statement) (below : List Statement) (level : Nat),
    target.StandsAt code (n + 1) skip ∧ state.stack = top :: below ∧
      next.stack = ⟨level, .forHead target.node (iterated top.node), ins.offset⟩ :: below ∧
      Binds target.names state next) ∨
    skip = 0 ∧ Binds [] state next ∧
      ∀ (target : Target) (m : Nat), ¬target.StandsAt code (n + 1) m

/-- The step of an unpacking takes in the rest of the code of the target that it begins and binds its
names. Where it begins no target, it takes in nothing and binds nothing. -/
def UnpackingBinds (code : Code) (n : Nat) (ins : Instruction) (state next : State) (skip : Nat) :
    Prop :=
  ∃ (top : Statement) (below : List Statement) (level : Nat), state.stack = top :: below ∧
    ((∃ target : Target, target.StandsAt code n (skip + 1) ∧
      next.stack = ⟨level, .assign target.node top.node, ins.offset⟩ :: below ∧
      Binds target.names state next) ∨
    skip = 0 ∧ next.stack = ⟨level, .splat top.node, ins.offset⟩ :: below ∧
      Binds [] state next ∧ ∀ (target : Target) (m : Nat), ¬target.StandsAt code n m)

theorem step_forLoop (hop : ins.opcode? = some .forIter)
    (hstep : step flags code ins (code.drop (n + 1)) state = .ok (next, skip)) :
    LoopBinds code n ins state next skip := by
  obtain ⟨effect, heffect, rfl, rfl⟩ := step_eq_ok.mp hstep
  rw [effect_of_opcode hop] at heffect
  rcases forLoop_eq_ok heffect with ⟨target, top, below, stop, hread, hstack, rfl⟩ | ⟨hnone, rfl⟩
  · rw [State.settle_stack] at hstack
    refine .inl ⟨target, top, below, (state.settle ins.offset).indent.toNat,
      Target.standsAt_iff.mpr ⟨hread, rfl⟩, hstack, ?_, binds_apply rfl _⟩
    simp [State.apply, Effect.block, hstack]
  · exact .inr ⟨rfl, binds_apply rfl _, Target.not_standsAt hnone⟩

theorem step_unpackSequence (hins : code[n]? = some ins)
    (hop : ins.opcode? = some .unpackSequence)
    (hstep : step flags code ins (code.drop (n + 1)) state = .ok (next, skip)) :
    UnpackingBinds code n ins state next skip := by
  obtain ⟨effect, heffect, rfl, rfl⟩ := step_eq_ok.mp hstep
  rw [effect_of_opcode hop] at heffect
  obtain ⟨top, below, hstack, hform⟩ := unpackSequence_eq_ok heffect
  rw [State.settle_stack] at hstack
  rw [← Code.drop_eq_cons hins] at hform
  refine ⟨top, below, (state.settle ins.offset).indent.toNat, hstack, ?_⟩
  rcases hform with ⟨target, hread, rfl⟩ | ⟨hnone, rfl⟩
  · have hsize : target.size = target.size - 1 + 1 := (Nat.sub_add_cancel target.size_pos).symm
    refine .inl ⟨target, Target.standsAt_iff.mpr ⟨hread, hsize⟩, ?_, binds_apply rfl _⟩
    simp [State.apply, Effect.replace, hstack]
  · refine .inr ⟨rfl, ?_, binds_apply rfl _, Target.not_standsAt hnone⟩
    simp [State.apply, Effect.replace, hstack]

/-- From any position a target is read if and only if its code stands there, and reading comes to an end
whatever the code is. There is at most one such target, and its code has one length. The steps of loops
and of unpackings that succeed take in that code and bind the names of the target, or take in nothing.
Counts are numbers and the readers are functions here: the memory that is reserved for a declared count,
and the depth of the native stack, are not modelled. -/
theorem targets_read_and_bound (code : Code) (start : Nat) :
    (∀ node names n,
      ((Target.read? (code.drop start)).map fun target =>
          (target.node, target.names, target.size)) = some (node, names, n) ↔
        ∃ target : Target, target.StandsAt code start n ∧
          target.node = node ∧ target.names = names) ∧
      (∀ (target other : Target) (n m : Nat),
        target.StandsAt code start n → other.StandsAt code start m → target = other ∧ n = m) ∧
      (∀ depth, code.length ≤ depth →
        Target.readNested? depth (code.drop start) =
          (Target.read? (code.drop start)).map fun target =>
            (target, code.drop (start + target.size))) ∧
      ∀ flags ins state next skip, code[start]? = some ins →
        step flags code ins (code.drop (start + 1)) state = .ok (next, skip) →
        (ins.opcode? = some .forIter → LoopBinds code start ins state next skip) ∧
        (ins.opcode? = some .unpackSequence → UnpackingBinds code start ins state next skip) := by
  refine ⟨fun node names n => ?_, fun target other n m h hother => ?_, fun depth hdepth => ?_, ?_⟩
  · constructor
    · intro h
      obtain ⟨target, hread, heq⟩ := Option.map_eq_some_iff.mp h
      simp only [Prod.mk.injEq] at heq
      obtain ⟨hnode, hnames, hsize⟩ := heq
      exact ⟨target, Target.standsAt_iff.mpr ⟨hread, hsize⟩, hnode, hnames⟩
    · rintro ⟨target, h, rfl, rfl⟩
      obtain ⟨hread, rfl⟩ := Target.standsAt_iff.mp h
      rw [hread, Option.map_some]
  · obtain ⟨hread, rfl⟩ := Target.standsAt_iff.mp h
    obtain ⟨hreadOther, rfl⟩ := Target.standsAt_iff.mp hother
    obtain rfl : target = other := Option.some.inj (hread.symm.trans hreadOther)
    exact ⟨rfl, rfl⟩
  · rw [Target.readNested?_eq (by rw [List.length_drop]; omega)]
    simp only [List.drop_drop]
  · intro flags ins state next skip hins hstep
    exact ⟨fun hop => step_forLoop hop hstep, fun hop => step_unpackSequence hins hop hstep⟩

/-- A loop over pairs of a name and a pair of names. -/
def loopOverPairs : Code :=
  [{ offset := 0, opname := "LOAD_NAME", argval := some "pairs" },
    { offset := 2, opname := "GET_ITER" },
    { offset := 4, opname := "FOR_ITER", arg := some 12, argval := some "to 18" },
    { offset := 6, opname := "UNPACK_SEQUENCE", arg := some 2 },
    { offset := 8, opname := "STORE_NAME", argval := some "a" },
    { offset := 10, opname := "UNPACK_SEQUENCE", arg := some 2 },
    { offset := 12, opname := "STORE_NAME", argval := some "b" },
    { offset := 14, opname := "STORE_NAME", argval := some "c" },
    { offset := 16, opname := "JUMP_ABSOLUTE", arg := some 4 }]

/-- The step of the loop takes in five instructions. -/
theorem targets_read_and_bound_pairs :
    let target : Target := .tuple [.name "a", .tuple [.name "b", .name "c"]]
    let ins : Instruction :=
      { offset := 4, opname := "FOR_ITER", arg := some 12, argval := some "to 18" }
    let state : State := { stack := [⟨0, .iter (.atom "pairs"), 2⟩] }
    loopOverPairs[2]? = some ins ∧ ins.opcode? = some .forIter ∧ target.StandsAt loopOverPairs 3 5 ∧
      ∃ next, step {} loopOverPairs ins (loopOverPairs.drop 3) state = .ok (next, 5) ∧
        Binds ["a", "b", "c"] state next := by
  intro target ins state
  have hins : loopOverPairs[2]? = some ins := rfl
  have hop : ins.opcode? = some .forIter := by decide
  have hstep : step {} loopOverPairs ins (loopOverPairs.drop 3) state = .ok (_, 5) := rfl
  have hstands : target.StandsAt loopOverPairs 3 5 := Target.standsAt_iff.mpr ⟨rfl, rfl⟩
  refine ⟨hins, hop, hstands, _, hstep, ?_⟩
  rcases ((targets_read_and_bound loopOverPairs 2).2.2.2 _ _ _ _ _ hins hstep).1 hop with
    ⟨bound, -, -, -, hbound, -, -, hbinds⟩ | ⟨⟨⟩, -⟩
  obtain ⟨rfl, -⟩ := (targets_read_and_bound loopOverPairs 3).2.1 bound target 5 5 hbound hstands
  exact hbinds

end Walk

end Decompiler
