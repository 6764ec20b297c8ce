import Decompiler.Proofs.Walk.Steps

/-!
Nested statements. A statement stands at most as deep as the one before it, or one level deeper
behind the head of a block. There is one exception. A jump forward is taken for the end of a branch,
so it raises the level by two behind its `else`, and if no block is over when the next statement
comes, that statement stands two levels deeper. What is allowed on top of statements is told here
for a level, before a statement is put at it.
-/

namespace Decompiler

/-- Where the block that an instruction opens is over, if the instruction tells it. -/
def Instruction.endAhead? (ins : Instruction) : Option Nat :=
  match ins.opcode? with
  | some .forIter | some .jumpForward => ins.jumpTarget?
  | some (.popJumpIf _) => ins.jumpTarget?.filter fun target => ins.offset < target
  | _ => none

/-- Where the block that the instruction at an offset opens is over. A test that jumps back opens
one that ends with the body of a loop. -/
def Code.blockEnd? (code : Code) (offset : Nat) : Option Nat :=
  (code.atOffset? offset).bind fun ins =>
    ins.endAhead?.or <|
      if ins.isConditionalJump then ins.jumpTarget?.bind (code.loopEnd? offset) else none

theorem Instruction.endAhead?_of_forIter {ins : Instruction} {stop : Nat}
    (hop : ins.opcode? = some .forIter) (hstop : ins.jumpTarget? = some stop) :
    ins.endAhead? = some stop := by
  simp only [endAhead?, hop, hstop]

theorem Instruction.endAhead?_of_jumpForward {ins : Instruction} {stop : Nat}
    (hop : ins.opcode? = some .jumpForward) (hstop : ins.jumpTarget? = some stop) :
    ins.endAhead? = some stop := by
  simp only [endAhead?, hop, hstop]

theorem Instruction.endAhead?_of_test {ins : Instruction} {onTrue : Bool} {stop : Nat}
    (hop : ins.opcode? = some (.popJumpIf onTrue)) (hstop : ins.jumpTarget? = some stop)
    (hforward : ins.offset < stop) : ins.endAhead? = some stop := by
  simp [endAhead?, hop, hstop, hforward, Option.filter]

theorem Code.Increasing.blockEnd?_of_endAhead? {code : Code} {ins : Instruction} {stop : Nat}
    (h : code.Increasing) (hins : ins ∈ code) (hstop : ins.endAhead? = some stop) :
    code.blockEnd? ins.offset = some stop := by
  rw [blockEnd?, h.atOffset?_eq_some.mpr ⟨hins, rfl⟩, Option.bind_some, hstop, Option.some_or]

theorem Code.Increasing.blockEnd?_of_back {code : Code} {ins : Instruction} {onTrue : Bool}
    {target : Nat} (h : code.Increasing) (hins : ins ∈ code)
    (hop : ins.opcode? = some (.popJumpIf onTrue)) (htarget : ins.jumpTarget? = some target)
    (hback : target ≤ ins.offset) :
    code.blockEnd? ins.offset = code.loopEnd? ins.offset target := by
  have htest := Instruction.isConditionalJump_eq_true.mpr ⟨onTrue, hop⟩
  have hnone : ins.endAhead? = none := by
    simp [Instruction.endAhead?, hop, htarget, Nat.not_lt.mpr hback, Option.filter]
  rw [blockEnd?, h.atOffset?_eq_some.mpr ⟨hins, rfl⟩, Option.bind_some, hnone, Option.none_or,
    if_pos htest, htarget, Option.bind_some]

/-- The operands that a step takes. The `else` that an `elif` takes the place of is none of them. -/
def Walk.Made.operands (made : Walk.Made) : List Statement :=
  made.settled.stack.take (made.effect.pops - if made.effect.cancels.isSome then 1 else 0)

namespace Code

/-- Blocks that end where their instructions tell end where a step is made, or behind all code. -/
def EndsMet (flags : Flags) (code : Code) : Prop :=
  ∀ ins ∈ code, ∀ stop ∈ ins.endAhead?,
    (∃ made ∈ Walk.steps flags code, made.ins.offset = stop) ∨ ∀ other ∈ code, other.offset < stop

/-- No step takes the head of a block for an operand, and in a comprehension the first step puts
none. -/
def KeepsHeads (flags : Flags) (code : Code) : Prop :=
  (∀ made ∈ Walk.steps flags code, ∀ s ∈ made.operands, s.node.isHead = false) ∧
    (flags.comprehension = true → ∀ made ∈ (Walk.steps flags code).head?,
      ∀ node ∈ made.effect.push, node.isHead = false)

instance decidableEndsMet (flags : Flags) (code : Code) : Decidable (code.EndsMet flags) := by
  unfold EndsMet
  infer_instance

instance decidableKeepsHeads (flags : Flags) (code : Code) : Decidable (code.KeepsHeads flags) := by
  unfold KeepsHeads
  infer_instance

/-- An `else` behind which no block is over up to an offset, be it its own or one around it. -/
def KeptOpen (code : Code) (around : List Statement) (s : Statement) (offset : Nat) : Prop :=
  s.node = .elseHead ∧ ∀ head ∈ s :: around, head.node.isHead = true →
    ∀ stop, code.blockEnd? head.offset = some stop → s.offset < stop → offset < stop

/-- How deep a level may be behind a statement. -/
def Allows (code : Code) (around : List Statement) (s : Statement) (level : Int) (offset : Nat) :
    Prop :=
  (s.node.isHead = false → level ≤ s.indent) ∧
    (level ≤ s.indent + 1 ∨ level = s.indent + 2 ∧ code.KeptOpen around s offset)

/-- How deep a level may be on top of statements, the last one first. -/
def AllowsOn (code : Code) (level : Int) (offset : Nat) : List Statement → Prop
  | [] => level ≤ 0
  | s :: below => code.Allows below s level offset

/-- Each statement stands as deep as those below it allow. An `else` is no exception. -/
def Nested (code : Code) : List Statement → Prop
  | [] => True
  | s :: below => code.AllowsOn s.indent s.offset below ∧
      (s.node = .elseHead → ∀ under ∈ below.head?, s.indent ≤ under.indent + 1) ∧ code.Nested below

variable {code : Code} {level lower : Int} {offset : Nat} {s : Statement}
  {stack around : List Statement}

theorem Allows.mono (h : code.Allows around s level offset) (hle : lower ≤ level) :
    code.Allows around s lower offset := by
  refine ⟨fun hhead => Int.le_trans hle (h.1 hhead), ?_⟩
  rcases h.2 with hone | ⟨htwo, hopen⟩
  · exact .inl (Int.le_trans hle hone)
  · rcases Int.lt_or_eq_of_le hle with hlt | rfl
    · exact .inl (by omega)
    · exact .inr ⟨htwo, hopen⟩

theorem AllowsOn.mono (h : code.AllowsOn level offset stack) (hle : lower ≤ level) :
    code.AllowsOn lower offset stack := by
  cases stack with
  | nil => exact Int.le_trans hle h
  | cons s below => exact Allows.mono h hle

/-- When a block is over, no statement is an exception any more. -/
theorem AllowsOn.of_lt (h : code.AllowsOn level offset stack) (hlt : lower < level)
    (later : Nat) : code.AllowsOn lower later stack := by
  cases stack with
  | nil =>
      have : level ≤ 0 := h
      simp only [AllowsOn]
      omega
  | cons s below =>
      refine ⟨fun hhead => Int.le_trans (Int.le_of_lt hlt) (h.1 hhead), .inl ?_⟩
      rcases h.2 with hone | ⟨htwo, -⟩
      · omega
      · omega

/-- As long as no block is over, the exceptions stay. -/
theorem AllowsOn.of_forall {later : Nat} (h : code.AllowsOn level offset stack)
    (hopen : ∀ head ∈ stack, head.node.isHead = true →
      ∀ stop, code.blockEnd? head.offset = some stop → offset < stop → later < stop) :
    code.AllowsOn level later stack := by
  cases stack with
  | nil => exact h
  | cons s below =>
      refine ⟨h.1, h.2.imp_right fun ⟨htwo, helse, hkept⟩ => ⟨htwo, helse, ?_⟩⟩
      exact fun head hhead his stop hstop hlt =>
        hopen head hhead his stop hstop (hkept head hhead his stop hstop hlt)

/-- A level below the margin is at the margin. -/
theorem AllowsOn.toNat (h : code.AllowsOn level offset stack) :
    code.AllowsOn level.toNat offset stack := by
  cases stack with
  | nil =>
      have : level ≤ 0 := h
      simp only [AllowsOn]
      omega
  | cons s below =>
      rcases Int.lt_or_le level 0 with hneg | hpos
      · rw [Int.toNat_of_nonpos (by omega)]
        exact ⟨fun _ => by simp, .inl (by simp; omega)⟩
      · rw [Int.toNat_of_nonneg hpos]
        exact h

/-- How deep a level may be on top of statements and on top of what is left of them when statements
that head no block are taken off. -/
def Levelled (code : Code) (level : Int) (offset : Nat) (stack : List Statement) : Prop :=
  ∀ above rest, stack = above ++ rest → (∀ s ∈ above, s.node.isHead = false) →
    code.AllowsOn level offset rest

namespace Levelled

theorem allowsOn (h : code.Levelled level offset stack) : code.AllowsOn level offset stack :=
  h [] stack rfl nofun

theorem drop {n : Nat} (h : code.Levelled level offset stack)
    (hoff : ∀ s ∈ stack.take n, s.node.isHead = false) :
    code.Levelled level offset (stack.drop n) := by
  intro above rest hdrop habove
  refine h (stack.take n ++ above) rest ?_ ?_
  · rw [List.append_assoc, ← hdrop, List.take_append_drop]
  · intro s hs
    rcases List.mem_append.mp hs with hs | hs
    · exact hoff s hs
    · exact habove s hs

theorem cons_of_le (h : code.Levelled level offset stack) (hle : level ≤ s.indent) :
    code.Levelled level offset (s :: stack) := by
  intro above rest hstack habove
  cases above with
  | nil =>
      cases hstack
      exact ⟨fun _ => hle, .inl (by omega)⟩
  | cons top above =>
      obtain ⟨rfl, rfl⟩ := List.cons.inj hstack
      exact h above rest rfl fun s hs => habove s (List.mem_cons_of_mem _ hs)

/-- Nothing below the head of a block comes to the top any more. -/
theorem cons_head (hs : s.node.isHead = true) (hallows : code.Allows stack s level offset) :
    code.Levelled level offset (s :: stack) := by
  intro above rest hstack habove
  cases above with
  | nil =>
      cases hstack
      exact hallows
  | cons top above =>
      obtain ⟨rfl, rfl⟩ := List.cons.inj hstack
      have := habove s (List.mem_cons_self ..)
      rw [hs] at this
      cases this

end Levelled

theorem Nested.drop (h : code.Nested stack) (n : Nat) : code.Nested (stack.drop n) := by
  induction n generalizing stack with
  | zero => exact h
  | succ n ih =>
      cases stack with
      | nil => exact h
      | cons s below => exact ih h.2.2

theorem Nested.allowsOn {above below : List Statement} (h : code.Nested stack)
    (hstack : stack = above ++ s :: below) : code.AllowsOn s.indent s.offset below := by
  have hdrop := h.drop above.length
  rw [hstack, List.drop_left] at hdrop
  exact hdrop.1

end Code

end Decompiler
