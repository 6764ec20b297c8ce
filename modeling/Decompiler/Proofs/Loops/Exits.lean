import Decompiler.Proofs.Walk.Course

/-!
Which jumps become `continue` and `break`. An absolute jump is told by what its target is: the head
of a loop that the jump does not close, or a place where some test leaves its block. Which loops the
jump stands in is not asked. So it may leave an inner loop and still be a `continue` of the outer
one, and where a branch ends as well it may be a `break` without any loop.
-/

namespace Decompiler

namespace Code

/-- A jump goes on with the loop headed at its target: a for loop that it does not close, or other
code to which a later jump goes back. -/
def GoesOn (code : Code) (jump : Instruction) (target : Nat) : Prop :=
  ∃ head ∈ code, head.offset = target ∧
    (head.is .forIter = true ∧ (∀ stop, head.jumpTarget? = some stop → ¬code.LastBefore stop jump) ∨
      head.is .forIter = false ∧ target ≤ jump.offset ∧
        ∃ back ∈ code, jump.offset < back.offset ∧ back.jumpsBackTo target = true)

/-- A jump goes to where some test leaves its block. -/
def GoesOut (code : Code) (jump : Instruction) (target : Nat) : Prop :=
  jump.offset < target ∧ (∃ destination ∈ code, destination.offset = target ∧
    destination.is .forIter = false) ∧
      ∃ test ∈ code, test.isTest = true ∧ test.jumpTarget? = some target

variable {code : Code} {jump head : Instruction} {target : Nat}

/-- What stands at the target decides between the two kinds of loops. -/
theorem goesOn_iff (hcode : code.Increasing) (hjump : jump ∈ code) (hhead : head ∈ code)
    (htarget : head.offset = target) :
    code.GoesOn jump target ↔
      if head.is .forIter then code.closesFor head jump.offset = false
      else target ≤ jump.offset ∧ code.jumpsBackAfter jump.offset target = true := by
  have hcloses : code.closesFor head jump.offset = false ↔
      ∀ stop, head.jumpTarget? = some stop → ¬code.LastBefore stop jump := by
    rw [← Bool.not_eq_true, hcode.closesFor_iff hjump, not_exists]
    exact forall_congr' fun stop => not_and
  have hback : code.jumpsBackAfter jump.offset target = true ↔
      ∃ back ∈ code, jump.offset < back.offset ∧ back.jumpsBackTo target = true := by
    simp [jumpsBackAfter]
  rw [hcloses, hback]
  constructor
  · rintro ⟨other, hother, hoffset, hkind⟩
    obtain rfl := hcode.eq_of_offset_eq hhead hother (htarget.trans hoffset.symm)
    rcases hkind with ⟨hfor, hopen⟩ | ⟨hfor, hgoes⟩
    · simpa [hfor] using hopen
    · simpa [hfor] using hgoes
  · intro hkind
    refine ⟨head, hhead, htarget, ?_⟩
    cases hfor : head.is .forIter with
    | true => exact .inl ⟨rfl, by simpa [hfor] using hkind⟩
    | false => exact .inr ⟨rfl, by simpa [hfor] using hkind⟩

theorem goesOut_iff (hcode : code.Increasing) (hhead : head ∈ code)
    (htarget : head.offset = target) :
    code.GoesOut jump target ↔
      head.is .forIter = false ∧ jump.offset < target ∧ code.isLoopExit target = true := by
  have hexit : code.isLoopExit target = true ↔
      ∃ test ∈ code, test.isTest = true ∧ test.jumpTarget? = some target := by
    simp [isLoopExit]
  rw [hexit]
  constructor
  · rintro ⟨hlt, ⟨other, hother, hoffset, hfor⟩, hexits⟩
    obtain rfl := hcode.eq_of_offset_eq hhead hother (htarget.trans hoffset.symm)
    exact ⟨hfor, hlt, hexits⟩
  · rintro ⟨hfor, hlt, hexits⟩
    exact ⟨hlt, ⟨head, hhead, htarget, hfor⟩, hexits⟩

end Code

namespace Walk

variable {flags : Flags} {code : Code} {ins : Instruction} {ahead : Code} {state : State}
  {target : Nat}

theorem effect_absoluteJump (hop : ins.opcode? = some .jumpAbsolute) :
    Walk.effect flags code ins ahead state = absoluteJump flags code ins state := by
  simp only [Walk.effect, hop, opcodeEffect]

/-- What a jump to an instruction puts, by what the code is searched for. -/
theorem push_jumpTo {destination : Instruction} (state : State) (hraw : flags.rawJumps = false)
    (htarget : ins.jumpTarget? = some target) (hat : code.atOffset? target = some destination) :
    ∃ effect, absoluteJump flags code ins state = .ok effect ∧
      (effect.push = none ∨ effect.push = some .continueStmt ∨ effect.push = some .breakStmt) ∧
      (effect.push = some .continueStmt ↔ isBreak state.stack = false ∧
        if destination.is .forIter then code.closesFor destination ins.offset = false
        else target ≤ ins.offset ∧ code.jumpsBackAfter ins.offset target = true) ∧
      (effect.push = some .breakStmt ↔ destination.is .forIter = false ∧ ins.offset < target ∧
        code.isLoopExit target = true) := by
  rw [absoluteJump, Instruction.requireTarget_eq_ok.mpr htarget, ok_bind, hraw,
    if_neg Bool.false_ne_true, hat]
  dsimp only
  cases destination.is .forIter with
  | true =>
      cases hclose : code.closesFor destination ins.offset || isBreak state.stack with
      | true =>
          refine ⟨{}, rfl, .inl rfl, ⟨nofun, ?_⟩, nofun, nofun⟩
          rintro ⟨hbreak, hopen⟩
          rw [if_pos rfl] at hopen
          rw [hbreak, hopen] at hclose
          cases hclose
      | false =>
          obtain ⟨hopen, hbreak⟩ := Bool.or_eq_false_iff.mp hclose
          exact ⟨.push1 .continueStmt, rfl, .inr (.inl rfl),
            ⟨fun _ => ⟨hbreak, hopen⟩, fun _ => rfl⟩, nofun, nofun⟩
  | false =>
      by_cases hlt : ins.offset < target
      · have hback : ¬target ≤ ins.offset := Nat.not_le.mpr hlt
        cases hexit : code.isLoopExit target with
        | true =>
            exact ⟨.push1 .breakStmt, by simp [hlt, pure, Except.pure], .inr (.inr rfl),
              ⟨nofun, fun hgoes => absurd hgoes.2.1 hback⟩, fun _ => ⟨rfl, hlt, rfl⟩,
              fun _ => rfl⟩
        | false =>
            exact ⟨{}, by simp [hlt, pure, Except.pure], .inl rfl,
              ⟨nofun, fun hgoes => absurd hgoes.2.1 hback⟩, nofun, nofun⟩
      · cases hgoes : code.jumpsBackAfter ins.offset target && !isBreak state.stack with
        | true =>
            obtain ⟨hlater, hbreak⟩ := Bool.and_eq_true_iff.mp hgoes
            exact ⟨.push1 .continueStmt, by simp [hlt, pure, Except.pure], .inr (.inl rfl),
              ⟨fun _ => ⟨by simpa using hbreak, Nat.le_of_not_lt hlt, hlater⟩, fun _ => rfl⟩,
              nofun, fun hout => absurd hout.2.1 hlt⟩
        | false =>
            refine ⟨{}, by simp [hlt, pure, Except.pure], .inl rfl, ⟨nofun, ?_⟩, nofun,
              fun hout => absurd hout.2.1 hlt⟩
            rintro ⟨hbreak, -, hlater⟩
            rw [hbreak, hlater] at hgoes
            cases hgoes

/-- A jump puts a `continue` if it goes on with a loop and no `break` stands right before it, and a
`break` if it goes out. -/
theorem push_absoluteJump (state : State) (hraw : flags.rawJumps = false)
    (hcode : code.Increasing) (hins : ins ∈ code) (htarget : ins.jumpTarget? = some target) :
    ∃ effect, absoluteJump flags code ins state = .ok effect ∧
      (effect.push = none ∨ effect.push = some .continueStmt ∨ effect.push = some .breakStmt) ∧
      (effect.push = some .continueStmt ↔ isBreak state.stack = false ∧ code.GoesOn ins target) ∧
      (effect.push = some .breakStmt ↔ code.GoesOut ins target) := by
  cases hat : code.atOffset? target with
  | none =>
      -- a jump to no instruction goes nowhere
      have hnone {head : Instruction} (hhead : head ∈ code) : head.offset ≠ target := by
        intro hoffset
        rw [hcode.atOffset?_eq_some.mpr ⟨hhead, hoffset⟩] at hat
        cases hat
      rw [absoluteJump, Instruction.requireTarget_eq_ok.mpr htarget, ok_bind, hraw,
        if_neg Bool.false_ne_true, hat]
      refine ⟨{}, rfl, .inl rfl, ⟨nofun, ?_⟩, nofun, ?_⟩
      · rintro ⟨-, head, hhead, hoffset, -⟩
        exact absurd hoffset (hnone hhead)
      · rintro ⟨-, ⟨head, hhead, hoffset, -⟩, -⟩
        exact absurd hoffset (hnone hhead)
  | some destination =>
      obtain ⟨hmem, hoffset⟩ := hcode.atOffset?_eq_some.mp hat
      rw [Code.goesOn_iff hcode hins hmem hoffset, Code.goesOut_iff hcode hmem hoffset]
      exact push_jumpTo state hraw htarget hat

end Walk

end Decompiler
