import Decompiler.Proofs.Rendering.Tokens
import Decompiler.Walk.Step

/-!
Bases of attributes, subscripts and calls. A base is written without parentheses, also where it is no
leaf. So what a text tells of an expression is its tokens and no more: expressions have the same text if
and only if they have the same tokens, and what trails an operation reads like a part of its last
operand.
-/

namespace Decompiler

open Text

/-- A negated identity reads like an identity with a negation for its second operand. -/
def Connective.tokens (c : Connective) : List Token :=
  if c = comparison "is not" then [.connective (.comparison "is"), .sign .not] else [.connective c]

def Token.operand (leaf : Bool) (tokens : List Token) : List Token :=
  if leaf then tokens else [.group tokens]

namespace Node

/-- Names, operators and comparisons, and attributes, subscripts and calls, whatever their bases are. -/
inductive IsTerm : Node → Prop
  | atom {text : String} (htext : IsWord text.toList) : IsTerm (.atom text)
  | member {object : Node} {name : String} (hobject : IsTerm object)
      (hname : IsName name.toList) : IsTerm (.attribute object name)
  | subscript {value index : Node} (hvalue : IsTerm value) (hindex : IsTerm index) :
      IsTerm (.subscript value index)
  | call {func : Node} {args : List Node} {kwargs : List (String × Node)} (hfunc : IsTerm func)
      (hargs : ∀ arg ∈ args, IsTerm arg) (hkeys : ∀ keyword ∈ kwargs, IsName keyword.1.toList)
      (hvalues : ∀ keyword ∈ kwargs, IsTerm keyword.2) : IsTerm (.call func args kwargs)
  | unary {op : UnaryOperator} {operand : Node} (hoperand : IsTerm operand) :
      IsTerm (.unary op operand)
  | binary {op : BinaryOperator} {left right : Node} (hleft : IsTerm left) (hright : IsTerm right) :
      IsTerm (.binary op left right)
  | comparison {op : String} {left right : Node} (hop : op ∈ Connective.comparisons)
      (hleft : IsTerm left) (hright : IsTerm right) : IsTerm (.comparison op left right)

mutual

def tokens : Node → List Token
  | .atom text => [.name text]
  | .attribute object name => object.tokens ++ [.member name]
  | .subscript value index => value.tokens ++ [.subscript index.tokens]
  | .call func args kwargs => func.tokens ++ [.call (listTokens args ++ keywordTokens kwargs)]
  | .unary op operand => .sign op :: Token.operand operand.isLeaf operand.tokens
  | .binary op left right =>
      Token.operand left.isLeaf left.tokens ++
        ((Connective.operator op).tokens ++ Token.operand right.isLeaf right.tokens)
  | .comparison op left right =>
      Token.operand left.isLeaf left.tokens ++
        ((Connective.comparison op).tokens ++ Token.operand right.isLeaf right.tokens)
  | _ => []

def listTokens : List Node → List (Option String × List Token)
  | [] => []
  | node :: rest => (none, node.tokens) :: listTokens rest

def keywordTokens : List (String × Node) → List (Option String × List Token)
  | [] => []
  | keyword :: rest => argumentTokens keyword :: keywordTokens rest

def argumentTokens : String × Node → Option String × List Token
  | (name, node) => (some name, node.tokens)

end

@[simp] theorem listTokens_eq (nodes : List Node) :
    listTokens nodes = nodes.map fun node => (none, node.tokens) := by
  induction nodes with
  | nil => rfl
  | cons node rest ih => rw [listTokens, ih, List.map_cons]

@[simp] theorem keywordTokens_eq (keywords : List (String × Node)) :
    keywordTokens keywords = keywords.map fun keyword => (some keyword.1, keyword.2.tokens) := by
  induction keywords with
  | nil => rfl
  | cons keyword rest ih => rw [keywordTokens, ih, List.map_cons, argumentTokens]

end Node

/-! ### Texts of tokens -/

theorem Connective.text_tokens (c : Connective) : Token.text c.tokens = c.symbol := by
  rw [tokens]
  split
  · next h =>
    rw [h]
    rfl
  · exact List.append_nil _

theorem Token.text_operand (leaf : Bool) (tokens : List Token) :
    text (operand leaf tokens) = Form.operand leaf (text tokens) := by
  cases leaf with
  | true => rfl
  | false => exact List.append_nil _

/-- The text of a term is that of its tokens. -/
theorem Node.IsTerm.text_tokens {node : Node} (h : node.IsTerm) :
    Token.text node.tokens = node.chars := by
  induction h with
  | atom => rw [tokens, Token.text_singleton]; rfl
  | member hobject hname ih =>
      rw [tokens, Token.text_append, ih, Token.text_singleton]
      rfl
  | subscript hvalue hindex ih ihindex =>
      rw [tokens, Token.text_append, ih, Token.text_singleton, Token.chars, ihindex]
      exact (List.append_assoc ..).symm
  | @call func args kwargs hfunc hargs hkeys hvalues ih ihargs ihvalues =>
      have hwritten : (listTokens args ++ keywordTokens kwargs).map Token.argumentText =
          listChars args ++ keywordChars kwargs := by
        simp only [listTokens_eq, keywordTokens_eq, listChars_eq, keywordChars_eq, List.map_append,
          List.map_map]
        congr 1
        · exact List.map_congr_left ihargs
        · refine List.map_congr_left fun keyword hkeyword => ?_
          rw [Function.comp_apply, Token.argumentText, ihvalues keyword hkeyword, ← argumentChars_mk]
      rw [tokens, Token.text_append, ih, Token.text_singleton, Token.chars, Token.argumentTexts_eq,
        hwritten]
      exact (List.append_assoc ..).symm
  | unary hoperand ih =>
      rw [tokens, Token.text, Token.text_operand, ih]
      rfl
  | binary hleft hright ihleft ihright =>
      rw [tokens, Token.text_append, Token.text_append, Connective.text_tokens, Token.text_operand,
        Token.text_operand, ihleft, ihright]
      exact (List.append_assoc ..).symm
  | comparison hop hleft hright ihleft ihright =>
      rw [tokens, Token.text_append, Token.text_append, Connective.text_tokens, Token.text_operand,
        Token.text_operand, ihleft, ihright]
      exact (List.append_assoc ..).symm

/-! ### Terms as sequences of tokens -/

theorem Token.Sequence.operand {tokens : List Token} (h : Sequence .operand tokens) (leaf : Bool) :
    Sequence .operand (Token.operand leaf tokens) := by
  cases leaf with
  | true => exact h
  | false => exact .group h .done

/-- A connective between two operands. -/
theorem Token.Sequence.join {first second : List Token} (hfirst : Sequence .operand first)
    {c : Connective} (hc : c ∈ Connective.all) (hsecond : Sequence .operand second) :
    Sequence .operand (first ++ (c.tokens ++ second)) := by
  refine hfirst.append ?_
  rw [Connective.tokens]
  split
  · exact .connective (by decide) (.sign hsecond)
  · next hne => exact .connective (List.mem_filter.mpr ⟨hc, decide_eq_true hne⟩) hsecond

theorem Node.IsTerm.sequence {node : Node} (h : node.IsTerm) :
    Token.Sequence .operand node.tokens := by
  induction h with
  | atom htext => exact .name htext .done
  | member hobject hname ih => exact ih.append (.member hname .done)
  | subscript hvalue hindex ih ihindex => exact ih.append (.subscript ihindex .done)
  | @call func args kwargs hfunc hargs hkeys hvalues ih ihargs ihvalues =>
      refine ih.append (.call ?_ ?_ .done)
      · simp only [listTokens_eq, keywordTokens_eq, List.forall_mem_append, List.forall_mem_map]
        refine ⟨by simp, fun keyword hkeyword => ?_⟩
        rintro _ ⟨⟩
        exact hkeys keyword hkeyword
      · simp only [listTokens_eq, keywordTokens_eq, List.forall_mem_append, List.forall_mem_map]
        exact ⟨ihargs, ihvalues⟩
  | unary hoperand ih => exact .sign (ih.operand _)
  | binary hleft hright ihleft ihright =>
      exact (ihleft.operand _).join (Connective.operator_mem_all _) (ihright.operand _)
  | comparison hop hleft hright ihleft ihright =>
      exact (ihleft.operand _).join (Connective.comparison_mem_all hop) (ihright.operand _)

namespace Node

/-- What trails an operation reads like a part of its last operand, if that is a leaf. -/
theorem render_apply_node (trailer : Trailer) (c : Connective) (left : Node) {right : Node}
    (hright : right.isLeaf = true) :
    (trailer.apply (c.node left right)).render = (c.node left (trailer.apply right)).render := by
  have htrailed : (trailer.apply right).isLeaf = true :=
    Trailer.isLeaf_foldl_apply [trailer] hright
  have hchars : (trailer.apply (c.node left right)).chars =
      (c.node left (trailer.apply right)).chars := by
    rw [Trailer.chars_apply, Connective.chars_node, Connective.chars_node, Tail.chars, Tail.chars,
      operandChars_of_leaf hright, operandChars_of_leaf htrailed, Trailer.chars_apply,
      List.append_assoc, List.append_assoc]
  rw [render, render, hchars]

/-- Terms have the same text if and only if they have the same tokens. -/
theorem render_eq_iff {a b : Node} (ha : a.IsTerm) (hb : b.IsTerm) :
    a.render = b.render ↔ a.tokens = b.tokens := by
  have hclosed : Closed [] := fun _ hc => by cases hc
  constructor
  · intro h
    have htexts : Token.text a.tokens ++ [] = Token.text b.tokens ++ [] := by
      rw [ha.text_tokens, hb.text_tokens, String.ofList_injective h]
    exact (ha.sequence.agree hb.sequence hclosed hclosed htexts).1
  · intro h
    rw [render, render, ← ha.text_tokens, ← hb.text_tokens, h]

/-- A negation in parentheses is told apart from one that is the base of an attribute, and this one is
written like a negated identity. -/
theorem render_eq_iff_identity :
    let x := Node.atom "x"
    let y := Node.atom "y"
    let whole := Node.attribute (.comparison "is" x (.unary .not y)) "c"
    let nested := Node.comparison "is" x (.attribute (.unary .not y) "c")
    let negated := Node.comparison "is not" x (.attribute y "c")
    (whole.IsTerm ∧ nested.IsTerm ∧ negated.IsTerm) ∧
      nested.render = negated.render ∧ whole.render ≠ nested.render := by
  intro x y whole nested negated
  have hx : x.IsTerm := .atom (by decide)
  have hy : y.IsTerm := .atom (by decide)
  have hname : IsName "c".toList := by decide
  have hnot : (Node.unary .not y).IsTerm := .unary hy
  have hwhole : whole.IsTerm := .member (.comparison (by decide) hx hnot) hname
  have hnested : nested.IsTerm := .comparison (by decide) hx (.member hnot hname)
  have hnegated : negated.IsTerm := .comparison (by decide) hx (.member hy hname)
  have hsame : nested.tokens = negated.tokens := rfl
  have hother : whole.tokens ≠ nested.tokens := by
    intro h
    cases h
  exact ⟨⟨hwhole, hnested, hnegated⟩, (render_eq_iff hnested hnegated).mpr hsame,
    fun h => hother ((render_eq_iff hwhole hnested).mp h)⟩

/-- An attribute of a sum is written like a sum with an attribute on its right operand, and both are
recovered from code. -/
theorem exists_render_eq :
    let whole := Node.attribute (.binary .add (.atom "a") (.atom "b")) "c"
    let nested := Node.binary .add (.atom "a") (.attribute (.atom "b") "c")
    let code : Code :=
      [{ offset := 0, opname := "LOAD_NAME", argval := some "a" },
        { offset := 2, opname := "LOAD_NAME", argval := some "b" },
        { offset := 4, opname := "BINARY_ADD" },
        { offset := 6, opname := "LOAD_ATTR", argval := some "c" },
        { offset := 8, opname := "RETURN_VALUE" }]
    let other : Code :=
      [{ offset := 0, opname := "LOAD_NAME", argval := some "a" },
        { offset := 2, opname := "LOAD_NAME", argval := some "b" },
        { offset := 4, opname := "LOAD_ATTR", argval := some "c" },
        { offset := 6, opname := "BINARY_ADD" },
        { offset := 8, opname := "RETURN_VALUE" }]
    (whole.IsTerm ∧ nested.IsTerm ∧ whole ≠ nested) ∧
      (∃ result, reconstruct {} code = .ok result ∧
        result.statements.map Statement.node = [.returnStmt whole]) ∧
      (∃ result, reconstruct {} other = .ok result ∧
        result.statements.map Statement.node = [.returnStmt nested]) ∧
      whole.render = nested.render ∧ nested.render = "a+b.c" := by
  intro whole nested code other
  have ha : (Node.atom "a").IsTerm := .atom (by decide)
  have hb : (Node.atom "b").IsTerm := .atom (by decide)
  have hname : IsName "c".toList := by decide
  have hne : whole ≠ nested := by simp [whole, nested]
  have hsame : whole.render = nested.render :=
    render_apply_node (.member "c") (.operator .add) (.atom "a") rfl
  exact ⟨⟨.member (.binary ha hb) hname, .binary ha (.member hb hname), hne⟩, ⟨_, rfl, rfl⟩,
    ⟨_, rfl, rfl⟩, hsame, by decide⟩

end Node

end Decompiler
