import Decompiler.Node.Basic
import Decompiler.Proofs.Source.Operation

/-!
Expressions without jumps, the operations they are compiled to, and the nodes that stand for them.
Operands are compiled from left to right, each in front of the operation that takes it; the function
of a call comes before its arguments, and the names of keywords come last.
-/

namespace Decompiler

/-- A name under which an argument is passed. All that matters about it is that it has no comma. -/
structure Keyword where
  text : String
  no_comma : ',' ∉ text.toList

inductive Expr where
  /-- A name or a constant. -/
  | load (source : Load) (text : String)
  | member (object : Expr) (name : String)
  | call (func : Expr) (args : List Expr)
  | methodCall (object : Expr) (name : String) (args : List Expr)
  | keywordCall (func : Expr) (args : List Expr) (kwargs : List (Keyword × Expr))
  /-- A call with `*args`. -/
  | spreadCall (func args : Expr)
  /-- A call with `*args` and `**kwargs`. -/
  | fullCall (func args kwargs : Expr)
  | unary (op : UnaryOperator) (operand : Expr)
  | binary (op : BinaryOperator) (left right : Expr)
  | comparison (op : String) (left right : Expr)
  /-- The comparisons `is` and `is not`, where they have an operation of their own. -/
  | identity (negated : Bool) (left right : Expr)
  /-- The comparisons `in` and `not in`, where they have an operation of their own. -/
  | membership (negated : Bool) (left right : Expr)
  | display (kind : Container) (items : List Expr)
  | dict (entries : List (Expr × Expr))
  | subscript (value index : Expr)
  | slice (start stop : Expr)
  | steppedSlice (start stop step : Expr)

/-- How nodes are made of expressions: how names and constants are spelled, and whether the key of an entry
stands where a dictionary has the value. -/
structure Reading where
  spell : String → String
  keysFirst : Bool := false

namespace Reading

def written : Reading := { spell := id }

def entry (r : Reading) (key value : Node) : List Node :=
  if r.keysFirst then [key, value] else [value, key]

end Reading

namespace Expr

def quotedNames : List Keyword → List Char
  | [] => []
  | [name] => '\'' :: name.text.toList ++ ['\'']
  | name :: rest => '\'' :: name.text.toList ++ ['\'', ',', ' '] ++ quotedNames rest

/-- The constant tuple of keyword names as it is listed; a single name keeps a comma after it. -/
def listedNames (names : List Keyword) : String :=
  String.ofList ('(' :: quotedNames names ++ (if names.length = 1 then [','] else []) ++ [')'])

mutual

def ops : Expr → List Operation
  | .load source text => [.named source.mnemonic text]
  | .member object name => object.ops ++ [.named "LOAD_ATTR" name]
  | .call func args => func.ops ++ allOps args ++ [.counted "CALL_FUNCTION" args.length]
  | .methodCall object name args =>
      object.ops ++ [.named "LOAD_METHOD" name] ++ allOps args ++
        [.counted "CALL_METHOD" args.length]
  | .keywordCall func args kwargs =>
      func.ops ++ allOps args ++ keywordOps kwargs ++
        [.named "LOAD_CONST" (listedNames (kwargs.map Prod.fst))] ++
        [.counted "CALL_FUNCTION_KW" (args.length + kwargs.length)]
  | .spreadCall func args => func.ops ++ args.ops ++ [.counted "CALL_FUNCTION_EX" 0]
  | .fullCall func args kwargs =>
      func.ops ++ args.ops ++ kwargs.ops ++ [.counted "CALL_FUNCTION_EX" 1]
  | .unary op operand => operand.ops ++ [.bare op.mnemonic]
  | .binary op left right => left.ops ++ right.ops ++ [.bare op.mnemonic]
  | .comparison op left right => left.ops ++ right.ops ++ [.named "COMPARE_OP" op]
  | .identity negated left right => left.ops ++ right.ops ++ [.counted "IS_OP" negated.toNat]
  | .membership negated left right =>
      left.ops ++ right.ops ++ [.counted "CONTAINS_OP" negated.toNat]
  | .display kind items => allOps items ++ [.counted kind.mnemonic items.length]
  | .dict entries => entryOps entries ++ [.counted "BUILD_MAP" entries.length]
  | .subscript value index => value.ops ++ index.ops ++ [.bare "BINARY_SUBSCR"]
  | .slice start stop => start.ops ++ stop.ops ++ [.counted "BUILD_SLICE" 2]
  | .steppedSlice start stop step =>
      start.ops ++ stop.ops ++ step.ops ++ [.counted "BUILD_SLICE" 3]

def allOps : List Expr → List Operation
  | [] => []
  | e :: rest => e.ops ++ allOps rest

def keywordOps : List (Keyword × Expr) → List Operation
  | [] => []
  | keyword :: rest => argumentOps keyword ++ keywordOps rest

def argumentOps : Keyword × Expr → List Operation
  | (_, e) => e.ops

def entryOps : List (Expr × Expr) → List Operation
  | [] => []
  | entry :: rest => pairOps entry ++ entryOps rest

def pairOps : Expr × Expr → List Operation
  | (key, value) => key.ops ++ value.ops

end

def isNone (spell : String → String) : Expr → Bool
  | .load _ text => spell text = "None"
  | _ => false

/-- A bound of a slice with its node; the constant `None` is a bound left out. -/
def bound (spell : String → String) (e : Expr) (node : Node) : Option Node :=
  if e.isNone spell then none else some node

mutual

/-- A subscript that is a slice is written with colons. -/
def tree (r : Reading) : Expr → Node
  | .load _ text => .atom (r.spell text)
  | .member object name => .attribute (object.tree r) name
  | .call func args => .call (func.tree r) (trees r args) []
  | .methodCall object name args =>
      .call (.attribute (object.tree r) name) (trees r args) []
  | .keywordCall func args kwargs =>
      .call (func.tree r) (trees r args) (keywordTrees r kwargs)
  | .spreadCall func args => .call (func.tree r) [.splat (args.tree r)] []
  | .fullCall func args kwargs =>
      .call (func.tree r) [.splat (args.tree r), .doubleSplat (kwargs.tree r)] []
  | .unary op operand => .unary op (operand.tree r)
  | .binary op left right => .binary op (left.tree r) (right.tree r)
  | .comparison op left right => .comparison op (left.tree r) (right.tree r)
  | .identity negated left right =>
      .comparison (if negated then "is not" else "is") (left.tree r) (right.tree r)
  | .membership negated left right =>
      .comparison (if negated then "not in" else "in") (left.tree r) (right.tree r)
  | .display kind items => .display kind (trees r items)
  | .dict entries => .dict (entryTrees r entries)
  | .subscript value (.slice start stop) =>
      .sliced (value.tree r) (bound r.spell start (start.tree r))
        (bound r.spell stop (stop.tree r)) none
  | .subscript value (.steppedSlice start stop step) =>
      .sliced (value.tree r) (bound r.spell start (start.tree r))
        (bound r.spell stop (stop.tree r))
        (bound r.spell step (step.tree r))
  | .subscript value index => .subscript (value.tree r) (index.tree r)
  | .slice start stop =>
      .slice (bound r.spell start (start.tree r))
        (bound r.spell stop (stop.tree r)) none
  | .steppedSlice start stop step =>
      .slice (bound r.spell start (start.tree r))
        (bound r.spell stop (stop.tree r))
        (bound r.spell step (step.tree r))

def trees (r : Reading) : List Expr → List Node
  | [] => []
  | e :: rest => e.tree r :: trees r rest

def keywordTrees (r : Reading) : List (Keyword × Expr) → List (String × Node)
  | [] => []
  | keyword :: rest => argumentTree r keyword :: keywordTrees r rest

def argumentTree (r : Reading) : Keyword × Expr → String × Node
  | (keyword, e) => (keyword.text, e.tree r)

def entryTrees (r : Reading) : List (Expr × Expr) → List Node
  | [] => []
  | entry :: rest => pairTrees r entry ++ entryTrees r rest

def pairTrees (r : Reading) : Expr × Expr → List Node
  | (key, value) => r.entry (key.tree r) (value.tree r)

end

/-- The node of an expression as it is written. -/
def node (e : Expr) : Node := e.tree .written

@[simp] theorem allOps_eq (items : List Expr) : allOps items = items.flatMap ops := by
  induction items with
  | nil => rfl
  | cons e rest ih => simp [allOps, ih]

@[simp] theorem keywordOps_eq (keywords : List (Keyword × Expr)) :
    keywordOps keywords = keywords.flatMap fun keyword => keyword.2.ops := by
  induction keywords with
  | nil => rfl
  | cons keyword rest ih =>
      obtain ⟨name, e⟩ := keyword
      simp [keywordOps, argumentOps, ih]

@[simp] theorem entryOps_eq (entries : List (Expr × Expr)) :
    entryOps entries = entries.flatMap fun entry => entry.1.ops ++ entry.2.ops := by
  induction entries with
  | nil => rfl
  | cons entry rest ih =>
      obtain ⟨key, value⟩ := entry
      simp [entryOps, pairOps, ih]

@[simp] theorem trees_eq (r : Reading) (items : List Expr) :
    trees r items = items.map (tree r) := by
  induction items with
  | nil => rfl
  | cons e rest ih => simp [trees, ih]

@[simp] theorem keywordTrees_eq (r : Reading) (keywords : List (Keyword × Expr)) :
    keywordTrees r keywords =
      keywords.map fun keyword => (keyword.1.text, keyword.2.tree r) := by
  induction keywords with
  | nil => rfl
  | cons keyword rest ih =>
      obtain ⟨name, e⟩ := keyword
      simp [keywordTrees, argumentTree, ih]

@[simp] theorem entryTrees_eq (r : Reading) (entries : List (Expr × Expr)) :
    entryTrees r entries =
      entries.flatMap fun entry => r.entry (entry.1.tree r) (entry.2.tree r) := by
  induction entries with
  | nil => rfl
  | cons entry rest ih =>
      obtain ⟨key, value⟩ := entry
      simp [entryTrees, pairTrees, ih]

/-- Induction over an expression, with the hypothesis for every member of a list of operands. -/
theorem induction {motive : Expr → Prop}
    (load : ∀ source text, motive (.load source text))
    (member : ∀ object name, motive object → motive (.member object name))
    (call : ∀ func args, motive func → (∀ e ∈ args, motive e) → motive (.call func args))
    (methodCall : ∀ object name args, motive object → (∀ e ∈ args, motive e) →
      motive (.methodCall object name args))
    (keywordCall : ∀ func args kwargs, motive func → (∀ e ∈ args, motive e) →
      (∀ keyword ∈ kwargs, motive keyword.2) → motive (.keywordCall func args kwargs))
    (spreadCall : ∀ func args, motive func → motive args → motive (.spreadCall func args))
    (fullCall : ∀ func args kwargs, motive func → motive args → motive kwargs →
      motive (.fullCall func args kwargs))
    (unary : ∀ op operand, motive operand → motive (.unary op operand))
    (binary : ∀ op left right, motive left → motive right → motive (.binary op left right))
    (comparison : ∀ op left right, motive left → motive right →
      motive (.comparison op left right))
    (identity : ∀ negated left right, motive left → motive right →
      motive (.identity negated left right))
    (membership : ∀ negated left right, motive left → motive right →
      motive (.membership negated left right))
    (display : ∀ kind items, (∀ e ∈ items, motive e) → motive (.display kind items))
    (dict : ∀ entries, (∀ entry ∈ entries, motive entry.1 ∧ motive entry.2) →
      motive (.dict entries))
    (subscript : ∀ value index, motive value → motive index → motive (.subscript value index))
    (slice : ∀ start stop, motive start → motive stop → motive (.slice start stop))
    (steppedSlice : ∀ start stop step, motive start → motive stop → motive step →
      motive (.steppedSlice start stop step))
    (e : Expr) : motive e := by
  refine @Expr.rec motive (fun items => ∀ e ∈ items, motive e)
    (fun kwargs => ∀ keyword ∈ kwargs, motive keyword.2)
    (fun entries => ∀ entry ∈ entries, motive entry.1 ∧ motive entry.2)
    (fun keyword => motive keyword.2) (fun entry => motive entry.1 ∧ motive entry.2)
    load member call methodCall keywordCall spreadCall fullCall unary binary comparison identity
    membership display dict subscript slice steppedSlice ?_ ?_ ?_ ?_ ?_ ?_ ?_ ?_ e
  · exact nofun
  · exact fun _ _ head tail => List.forall_mem_cons.mpr ⟨head, tail⟩
  · exact nofun
  · exact fun _ _ head tail => List.forall_mem_cons.mpr ⟨head, tail⟩
  · exact nofun
  · exact fun _ _ head tail => List.forall_mem_cons.mpr ⟨head, tail⟩
  · exact fun _ _ value => value
  · exact fun _ _ key value => ⟨key, value⟩

theorem ops_ne_nil (e : Expr) : e.ops ≠ [] := by
  cases e <;> simp [ops]

theorem length_ops_pos (e : Expr) : 0 < e.ops.length := List.length_pos_iff.mpr e.ops_ne_nil

theorem jumpFree_ops (e : Expr) : JumpFree e.ops := by
  have hload (source : Load) (text : String) : JumpFree [.named source.mnemonic text] :=
    List.forall_mem_singleton.mpr
      (Operation.isJump_eq_false (Load.ofName?_mnemonic source) rfl)
  induction e using Expr.induction with
  | load source text => exact hload source text
  | member object name hobject => exact hobject.snoc rfl
  | call func args hfunc hargs =>
      rw [ops, allOps_eq]
      exact (hfunc.append (.flatMap hargs)).snoc rfl
  | methodCall object name args hobject hargs =>
      rw [ops, allOps_eq]
      exact ((hobject.snoc rfl).append (.flatMap hargs)).snoc rfl
  | keywordCall func args kwargs hfunc hargs hkwargs =>
      rw [ops, allOps_eq, keywordOps_eq]
      exact (((hfunc.append (.flatMap hargs)).append (.flatMap hkwargs)).append
        (hload .const _)).snoc rfl
  | spreadCall func args hfunc hargs => exact (hfunc.append hargs).snoc rfl
  | fullCall func args kwargs hfunc hargs hkwargs =>
      exact ((hfunc.append hargs).append hkwargs).snoc rfl
  | unary op operand hoperand =>
      exact hoperand.snoc (Operation.isJump_eq_false (UnaryOperator.ofName?_mnemonic op) rfl)
  | binary op left right hleft hright =>
      exact (hleft.append hright).snoc
        (Operation.isJump_eq_false (BinaryOperator.ofName?_mnemonic op) rfl)
  | comparison op left right hleft hright => exact (hleft.append hright).snoc rfl
  | identity negated left right hleft hright => exact (hleft.append hright).snoc rfl
  | membership negated left right hleft hright => exact (hleft.append hright).snoc rfl
  | display kind items hitems =>
      rw [ops, allOps_eq]
      exact (JumpFree.flatMap hitems).snoc
        (Operation.isJump_eq_false (Container.ofName?_mnemonic kind) rfl)
  | dict entries hentries =>
      rw [ops, entryOps_eq]
      exact (JumpFree.flatMap fun entry hentry =>
        (hentries entry hentry).1.append (hentries entry hentry).2).snoc rfl
  | subscript value index hvalue hindex => exact (hvalue.append hindex).snoc rfl
  | slice start stop hstart hstop => exact (hstart.append hstop).snoc rfl
  | steppedSlice start stop step hstart hstop hstep =>
      exact ((hstart.append hstop).append hstep).snoc rfl

theorem tree_ne_elseHead (r : Reading) (e : Expr) : e.tree r ≠ .elseHead := by
  cases e with
  | subscript value index => cases index <;> nofun
  | _ => nofun

end Expr

end Decompiler
