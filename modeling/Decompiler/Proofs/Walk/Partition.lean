import Mathlib.Data.List.Forall2
import Decompiler.Proofs.Source.Mnemonic
import Decompiler.Proofs.Walk.Steps

/-!
How a run covers the code. A cursor stands at the instruction of each step, and the step moves it on by as
many instructions as it takes in. It never leaves the code, so the loop that it drives comes to an end after
at most as many steps as there are instructions. The steps cut the code into stretches without a gap: an
instruction with a step of its own, and behind it stores, unpackings and parts of an import.
-/

namespace Decompiler

def Opcode.computes : Opcode → Bool
  | load _ | loadAttr | callFunction | callFunctionKw | callFunctionEx | unary _ | binary _
  | inplace _ | compareOp | isOp | containsOp | binarySubscr => true
  | _ => false

/-- What computes or jumps does not follow anything. -/
theorem Opcode.follows_eq_false {op : Opcode} (h : op.computes = true ∨ op.isJump = true) :
    op.follows = false := by
  cases op with
  | store | unpackSequence | importFrom | importStar | popTop => simp [computes, isJump] at h
  | _ => rfl

namespace Walk

/-- The run as a loop with a cursor. The instruction at the cursor is asked for before a step, and behind
it that to which the step has moved the cursor; the loop breaks off if there is none, or if no more steps
are allowed. -/
def loop (flags : Flags) (code : Code) (allowed cursor : Nat) (state : State) :
    Option (Except Error State) :=
  if code.length ≤ cursor then some (.ok state)
  else
    match allowed with
    | 0 => none
    | allowed + 1 =>
        code[cursor]?.bind fun ins =>
          match step flags code ins (code.drop (cursor + 1)) state with
          | .error e => some (.error e)
          | .ok (next, skip) =>
              code[cursor + skip]?.bind fun _ =>
                loop flags code allowed (cursor + 1 + skip) (next.leave flags cursor ins.offset)

/-- A stretch of code belongs to a step: it is the instruction of the step, with as many behind it as the
step takes in, and all of these may be taken in. -/
structure Made.Covers (made : Made) (stretch : Code) : Prop where
  head : stretch.head? = some made.ins
  length : stretch.length = made.effect.swallows + 1
  followers : ∀ ins ∈ stretch.tail, ins.isFollower = true

variable {flags : Flags} {code : Code} {ins : Instruction} {n k skip : Nat}
  {state next settled : State} {past : List Instruction} {effect : Effect}

/-! ### One step -/

/-- What the cursor passes over may be taken in. -/
theorem isFollower_of_step
    (hstep : step flags code ins (code.drop (n + 1)) state = .ok (next, skip))
    (hn : n < k) (hk : k ≤ n + skip) : ∃ other, code[k]? = some other ∧ other.isFollower = true := by
  obtain ⟨other, hother, hfollower⟩ := (followed_of_step hstep).getElem? (k := k - (n + 1)) (by omega)
  rw [List.getElem?_drop, Nat.add_sub_of_le hn] at hother
  exact ⟨other, hother, hfollower⟩

theorem Made.covers_of_effect (hins : code[n]? = some ins)
    (heffect : Walk.effect flags code ins (code.drop (n + 1)) settled = .ok effect) :
    Made.Covers ⟨ins, settled, effect⟩ ((code.drop n).take (effect.swallows + 1)) := by
  have hfollowed : Code.Followed (code.drop (n + 1)) effect.swallows :=
    takesIn_effect effect heffect
  rw [Code.drop_eq_cons hins, List.take_succ_cons]
  refine ⟨rfl, ?_, hfollowed.followers⟩
  rw [List.length_cons, List.length_take_of_le hfollowed.le_length]

/-! ### The run -/

namespace Arrives

/-- The loop never asks for an instruction that is not there, and needs no more steps than there are
instructions. -/
theorem loop_eq (h : Arrives flags code n state past) (allowed : Nat)
    (hallowed : code.length ≤ n + allowed) :
    loop flags code allowed n state = some (run flags code) := by
  induction allowed generalizing n state past with
  | zero =>
      rw [Nat.add_zero] at hallowed
      rw [loop, if_pos hallowed, h.run_eq_of_length_le hallowed]
  | succ allowed ih =>
      rw [loop]
      split
      · next hn => rw [h.run_eq_of_length_le hn]
      · next hn =>
        have hins : code[n]? = some code[n] := List.getElem?_eq_getElem (Nat.lt_of_not_le hn)
        rw [hins, Option.bind_some]
        cases hstep : Walk.step flags code code[n] (code.drop (n + 1)) state with
        | error e =>
            obtain ⟨f, hrun⟩ := h.exists_run_eq_bind hins
            rw [hrun, hstep]
            rfl
        | ok result =>
            obtain ⟨next, skip⟩ := result
            dsimp only
            rw [List.getElem?_eq_getElem (lt_length_of_step hins hstep), Option.bind_some]
            exact ih (h.step hins hstep) (by omega)

/-- The code from a position on is cut by the steps that are made there, up to one that fails. -/
theorem exists_stretches (h : Arrives flags code n state past) :
    ∃ stretches rest, code.drop n = stretches.flatten ++ rest ∧
      List.Forall₂ Made.Covers (stepsFrom flags code n 0 (code.drop n) state) stretches ∧
      (rest = [] ↔ ∃ last, run flags code = .ok last) := by
  refine h.backwards (motive := fun n state => ∃ stretches rest,
    code.drop n = stretches.flatten ++ rest ∧
      List.Forall₂ Made.Covers (stepsFrom flags code n 0 (code.drop n) state) stretches ∧
      (rest = [] ↔ ∃ last, run flags code = .ok last)) ?_ ?_ ?_
  · intro n state past h hn
    rw [List.drop_eq_nil_of_le hn, stepsFrom]
    exact ⟨[], [], rfl, .nil, iff_of_true rfl ⟨state, h.run_eq_of_length_le hn⟩⟩
  · intro n state past ins e h hins hfails
    obtain ⟨f, hrun⟩ := h.exists_run_eq_bind hins
    have hfail : ¬∃ last, run flags code = .ok last := by
      rintro ⟨last, hlast⟩
      obtain ⟨next, skip, hstep⟩ := h.exists_step hlast hins
      rw [hfails] at hstep
      cases hstep
    have hsteps : stepsFrom flags code n 0 (code.drop n) state = [] := by
      rw [Walk.step] at hfails
      rw [Code.drop_eq_cons hins, stepsFrom]
      split
      · rfl
      · next effect heffect =>
        rw [heffect] at hfails
        cases hfails
    refine ⟨[], code.drop n, rfl, hsteps ▸ .nil, iff_of_false ?_ hfail⟩
    rw [Code.drop_eq_cons hins]
    exact List.cons_ne_nil _ _
  · intro n state past ins next skip h hins hstep ih
    obtain ⟨effect, heffect, rfl, rfl⟩ := step_eq_ok.mp hstep
    obtain ⟨stretches, rest, hcode, hcovers, hrest⟩ := ih
    refine ⟨(code.drop n).take (effect.swallows + 1) :: stretches, rest, ?_, ?_, hrest⟩
    · rw [List.flatten_cons, List.append_assoc, ← hcode]
      have hsum : n + 1 + effect.swallows = n + (effect.swallows + 1) := by omega
      rw [hsum, ← List.drop_drop, List.take_append_drop]
    · rw [stepsFrom_of_effect hins heffect]
      exact .cons (Made.covers_of_effect hins heffect) hcovers

end Arrives

/-- The cursor of a run never leaves the code, and the loop that it drives gives the result of the run after
at most as many steps as there are instructions. A step moves the cursor over nothing but stores, unpackings
and parts of an import, so each load, call, operator and jump has a step of its own. The stretches that
belong to the steps follow one another from the first instruction on, and they are the whole code if the run
does not fail. -/
theorem steps_partition (flags : Flags) (code : Code) :
    loop flags code code.length 0 {} = some (run flags code) ∧
      (∀ n ins state next skip, code[n]? = some ins →
        step flags code ins (code.drop (n + 1)) state = .ok (next, skip) →
          n + skip < code.length ∧
            ∀ k, n < k → k ≤ n + skip → ∃ other, code[k]? = some other ∧ other.isFollower = true) ∧
      (∀ last, run flags code = .ok last → ∃ past, Arrives flags code code.length last past) ∧
      (∀ n state past, Arrives flags code n state past → n ≤ code.length ∧
        ∀ k other op, k < n → code[k]? = some other → other.opcode? = some op →
          op.computes = true ∨ op.isJump = true → ∃ state past, Arrives flags code k state past) ∧
      ∃ stretches rest, code = stretches.flatten ++ rest ∧
        List.Forall₂ Made.Covers (steps flags code) stretches ∧
        (rest = [] ↔ ∃ last, run flags code = .ok last) := by
  have hstart : Arrives flags code 0 {} [] := .start
  refine ⟨hstart.loop_eq _ (Nat.le_add_left _ _), fun n ins state next skip hins hstep => ?_,
    fun last => exists_arrives_length,
    fun n state past h => ⟨h.le_length, fun k other op hk hother hop hown => ?_⟩,
    hstart.exists_stretches⟩
  · exact ⟨lt_length_of_step hins hstep, fun k hn hk => isFollower_of_step hstep hn hk⟩
  · obtain ⟨state, earlier, harrives, -⟩ := h.exists_earlier hk hother
      (Instruction.not_isFollower_of_opcode hop (Opcode.follows_eq_false hown))
    exact ⟨state, earlier, harrives⟩

def importStep : Instruction := { offset := 4, opname := "IMPORT_NAME", argval := some "a.b" }

/-- A submodule under a name of its own, and a pair of which the first item is a tuple. -/
def importAndUnpack : Code :=
  [{ offset := 0, opname := "LOAD_CONST", argval := some "0" },
    { offset := 2, opname := "LOAD_CONST", argval := some "None" },
    importStep,
    { offset := 6, opname := "IMPORT_FROM", argval := some "b" },
    { offset := 8, opname := "ROT_TWO" },
    { offset := 10, opname := "POP_TOP" },
    { offset := 12, opname := "STORE_NAME", argval := some "c" },
    { offset := 14, opname := "LOAD_NAME", argval := some "t" },
    { offset := 16, opname := "UNPACK_SEQUENCE", arg := some 2 },
    { offset := 18, opname := "UNPACK_SEQUENCE", arg := some 1 },
    { offset := 20, opname := "STORE_NAME", argval := some "x" },
    { offset := 22, opname := "STORE_NAME", argval := some "y" },
    { offset := 24, opname := "LOAD_NAME", argval := some "y" },
    { offset := 26, opname := "RETURN_VALUE" }]

/-- The import takes in four instructions and the unpacking three, and the loads behind them have steps of
their own. -/
theorem steps_partition_import :
    let state : State := { stack := [⟨0, .atom "None", 2⟩, ⟨0, .atom "0", 0⟩] }
    loop {} importAndUnpack 14 0 {} = some (run {} importAndUnpack) ∧
      (∃ next, step {} importAndUnpack importStep (importAndUnpack.drop 3) state = .ok (next, 4) ∧
        2 + 4 < importAndUnpack.length ∧
        ∃ other, importAndUnpack[6]? = some other ∧ other.isFollower = true) ∧
      (∃ last past, run {} importAndUnpack = .ok last ∧ Arrives {} importAndUnpack 14 last past ∧
        ∃ state past, Arrives {} importAndUnpack 12 state past) ∧
      (steps {} importAndUnpack).map (fun made => made.effect.swallows) = [0, 0, 4, 0, 3, 0, 0] ∧
      ∃ stretches : List Code, importAndUnpack = stretches.flatten ∧
        List.Forall₂ Made.Covers (steps {} importAndUnpack) stretches := by
  intro state
  obtain ⟨hloop, hsteps, hend, hown, stretches, rest, hcode, hcovers, hrest⟩ :=
    steps_partition {} importAndUnpack
  have hstep : step {} importAndUnpack importStep (importAndUnpack.drop 3) state = .ok (_, 4) := rfl
  have hrun : run {} importAndUnpack = .ok _ := rfl
  obtain ⟨hlt, htaken⟩ := hsteps 2 importStep state _ 4 rfl hstep
  obtain ⟨past, hlast⟩ := hend _ hrun
  refine ⟨hloop, ⟨_, hstep, hlt, htaken 6 (by decide) (by decide)⟩, ⟨_, past, hrun, hlast, ?_⟩, rfl,
    stretches, ?_, hcovers⟩
  · exact (hown _ _ _ hlast).2 12 _ (.load false) (by decide) rfl (by decide) (.inl rfl)
  · rw [hrest.mpr ⟨_, hrun⟩, List.append_nil] at hcode
    exact hcode

end Walk

end Decompiler
