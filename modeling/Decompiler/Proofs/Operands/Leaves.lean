import Decompiler.Node.Render

/-!
Leaves. Nodes are made of what has been loaded, and the leaves of a node are what it is made of in the
order of the loads. A slice does not show a bound that is `None`, and it leaves a gap for it. A gap for
a start or a stop stands for a `None` that was loaded; a step may also never have been given.
-/

namespace Decompiler

inductive Leaf where
  | name (text : String)
  /-- A start or a stop that is left out. -/
  | bound
  /-- A step that is left out. -/
  | step
  deriving DecidableEq, Repr

namespace Node

mutual

/-- What a node is made of, in the order of the loads. Targets are stored and not loaded. -/
def leaves : Node → List Leaf
  | .atom text => [.name text]
  | .attribute object _ => object.leaves
  | .assign _ value => value.leaves
  | .itemAssign container key value => value.leaves ++ container.leaves ++ key.leaves
  | .returnStmt value | .yieldStmt value | .iter value => value.leaves
  | .forHead _ iterator => iterator.leaves
  | .whileHead condition | .ifHead condition | .elifHead condition => condition.leaves
  | .elseHead | .breakStmt | .continueStmt => []
  | .importStmt _ _ | .fromImport _ _ | .closure _ _ | .placeholder _ _ _ => []
  | .raiseStmt exception cause => optionLeaves [] exception ++ optionLeaves [] cause
  | .goto _ condition => optionLeaves [] condition
  | .display _ items | .dict items => listLeaves items
  | .call func args kwargs => func.leaves ++ listLeaves args ++ keywordLeaves kwargs
  | .splat value | .doubleSplat value => value.leaves
  | .slice start stop step =>
      optionLeaves [.bound] start ++ optionLeaves [.bound] stop ++ optionLeaves [.step] step
  | .sliced value start stop step =>
      value.leaves ++
        (optionLeaves [.bound] start ++ optionLeaves [.bound] stop ++ optionLeaves [.step] step)
  | .subscript value index => value.leaves ++ index.leaves
  | .comparison _ left right | .binary _ left right => left.leaves ++ right.leaves
  | .unary _ operand => operand.leaves
  | .inplace _ _ value => value.leaves

def optionLeaves (gap : List Leaf) : Option Node → List Leaf
  | some node => node.leaves
  | none => gap

def listLeaves : List Node → List Leaf
  | [] => []
  | node :: rest => node.leaves ++ listLeaves rest

def keywordLeaves : List (String × Node) → List Leaf
  | [] => []
  | keyword :: rest => argumentLeaves keyword ++ keywordLeaves rest

def argumentLeaves : String × Node → List Leaf
  | (_, node) => node.leaves

end

theorem listLeaves_eq (nodes : List Node) : listLeaves nodes = nodes.flatMap leaves := by
  induction nodes with
  | nil => rfl
  | cons node rest ih => rw [listLeaves, ih, List.flatMap_cons]

end Node

/-- The leaves of all operands, from the bottom of the stack to its top. -/
def leavesOf (stack : List Statement) : List Leaf :=
  stack.reverse.flatMap fun statement => statement.node.leaves

theorem leavesOf_append (above below : List Statement) :
    leavesOf (above ++ below) = leavesOf below ++ leavesOf above := by
  simp [leavesOf]

theorem leavesOf_take_append_drop (n : Nat) (stack : List Statement) :
    leavesOf (stack.drop n) ++ leavesOf (stack.take n) = leavesOf stack := by
  rw [← leavesOf_append, List.take_append_drop]

/-! ### What leaves stand for -/

/-- The leaves of nodes that are made of what these names load, each of them once and in order. -/
inductive StandFor : List Leaf → List String → Prop
  | nil : StandFor [] []
  | name (text : String) {leaves : List Leaf} {names : List String} (rest : StandFor leaves names) :
      StandFor (.name text :: leaves) (text :: names)
  | bound {leaves : List Leaf} {names : List String} (rest : StandFor leaves names) :
      StandFor (.bound :: leaves) ("None" :: names)
  | step {leaves : List Leaf} {names : List String} (rest : StandFor leaves names) :
      StandFor (.step :: leaves) ("None" :: names)
  | noStep {leaves : List Leaf} {names : List String} (rest : StandFor leaves names) :
      StandFor (.step :: leaves) names

variable {leaves old new : List Leaf} {names : List String}

theorem StandFor.append {more : List Leaf} {others : List String} (h : StandFor leaves names)
    (h' : StandFor more others) : StandFor (leaves ++ more) (names ++ others) := by
  induction h with
  | nil => exact h'
  | name text _ ih => exact .name text ih
  | bound _ ih => exact .bound ih
  | step _ ih => exact .step ih
  | noStep _ ih => exact .noStep ih

theorem StandFor.exists_append {first last : List Leaf} (h : StandFor (first ++ last) names) :
    ∃ front back, names = front ++ back ∧ StandFor first front ∧ StandFor last back := by
  induction first generalizing names with
  | nil => exact ⟨[], names, rfl, .nil, h⟩
  | cons leaf first ih =>
      cases h with
      | name text rest =>
          obtain ⟨front, back, rfl, hfront, hback⟩ := ih rest
          exact ⟨text :: front, back, rfl, .name text hfront, hback⟩
      | bound rest =>
          obtain ⟨front, back, rfl, hfront, hback⟩ := ih rest
          exact ⟨"None" :: front, back, rfl, .bound hfront, hback⟩
      | step rest =>
          obtain ⟨front, back, rfl, hfront, hback⟩ := ih rest
          exact ⟨"None" :: front, back, rfl, .step hfront, hback⟩
      | noStep rest =>
          obtain ⟨front, back, rfl, hfront, hback⟩ := ih rest
          exact ⟨front, back, rfl, .noStep hfront, hback⟩

/-- Leaves that stand for whatever others stand for. -/
def Replaces (new old : List Leaf) : Prop := ∀ names, StandFor old names → StandFor new names

namespace Replaces

theorem refl (leaves : List Leaf) : Replaces leaves leaves := fun _ h => h

theorem append {more others : List Leaf} (h : Replaces new old) (h' : Replaces more others) :
    Replaces (new ++ more) (old ++ others) := by
  intro names hnames
  obtain ⟨front, back, rfl, hfront, hback⟩ := hnames.exists_append
  exact (h front hfront).append (h' back hback)

/-- The constant `None` is a bound that is left out. -/
theorem of_bound? {gap : Leaf} (hgap : gap = .bound ∨ gap = .step) (node : Node) :
    Replaces (Node.optionLeaves [gap] node.bound?) node.leaves := by
  have hnone : Replaces [gap] [.name "None"] := by
    intro names h
    cases h with
    | name _ rest =>
      rcases hgap with rfl | rfl
      · exact .bound rest
      · exact .step rest
  cases node with
  | atom text =>
      rw [Node.bound?]
      split
      · next htext =>
        subst htext
        exact hnone
      · exact refl _
  | _ => exact refl _

theorem no_step : Replaces [.step] [] := by
  intro names h
  exact .noStep h

theorem sliceOf (start stop : Node) (step : Option Node) :
    Replaces (Node.sliceOf start stop step).leaves
      (start.leaves ++ stop.leaves ++ Node.optionLeaves [] step) := by
  refine ((of_bound? (Or.inl rfl) start).append (of_bound? (Or.inl rfl) stop)).append ?_
  cases step with
  | none => exact no_step
  | some step => exact of_bound? (Or.inr rfl) step

end Replaces

end Decompiler
