import Mathlib.Algebra.Group.Nat.Even
import Decompiler.Node.Render
import Decompiler.Proofs.Text.Reading
import Decompiler.Text.Basic

/-!
Expressions as they are written. The first character of an expression tells what can come: a name with
what trails it, an operator in front, an operand in parentheses, or a display. `Opens` says so once for
all; what is told of two expressions is told of those that open alike.
-/

namespace Decompiler

open Text

/-! ### Names -/

namespace Text

/-- The characters that part names in an expression. -/
def marks : List Char :=
  [' ', '.', ',', ':', '(', ')', '[', ']', '{', '}', '=', '!', '<', '>', '+', '-', '*', '/', '%', '@',
    '&', '^', '|', '~']

def isNameChar (c : Char) : Bool := c ∉ marks

structure IsName (text : List Char) : Prop where
  ne_nil : text ≠ []
  plain : ∀ c ∈ text, isNameChar c = true

instance (text : List Char) : Decidable (IsName text) :=
  decidable_of_iff (text ≠ [] ∧ ∀ c ∈ text, isNameChar c = true)
    ⟨fun h => ⟨h.1, h.2⟩, fun h => ⟨h.ne_nil, h.plain⟩⟩

theorem isNameChar_of_isIdentifierPart {c : Char} (h : isIdentifierPart c = true) :
    isNameChar c = true := by
  have hmarks : ∀ mark ∈ marks, isIdentifierPart mark = false := by decide
  refine decide_eq_true fun hmem => ?_
  rw [hmarks c hmem] at h
  cases h

theorem isName_of_isIdentifier {text : List Char} (h : isIdentifier text = true) : IsName text where
  ne_nil := by
    rintro rfl
    cases h
  plain := fun _ hc => isNameChar_of_isIdentifierPart (isIdentifierPart_of_mem h hc)

/-- A name ends where something else begins. -/
theorem IsName.append_inj {name other rest more : List Char} (hname : IsName name)
    (hother : IsName other) (hrest : ∀ c ∈ rest.head?, isNameChar c = false)
    (hmore : ∀ c ∈ more.head?, isNameChar c = false) (h : name ++ rest = other ++ more) :
    name = other ∧ rest = more :=
  append_inj_of_test hname.plain hother.plain hrest hmore h

end Text

/-! ### Connectives -/

/-- What stands between two operands. -/
inductive Connective where
  | operator (op : BinaryOperator)
  | comparison (op : String)
  deriving DecidableEq

namespace Connective

def comparisons : List String :=
  ["<", "<=", "==", "!=", ">", ">=", "in", "not in", "is", "is not", "exception match"]

def all : List Connective := BinaryOperator.all.map operator ++ comparisons.map comparison

def symbol : Connective → List Char
  | operator op => op.symbol.toList
  | comparison op => Form.comparison op.toList

def node : Connective → Node → Node → Node
  | operator op => .binary op
  | comparison op => .comparison op

theorem operator_mem_all (op : BinaryOperator) : operator op ∈ all :=
  List.mem_append_left _ (List.mem_map_of_mem op.mem_all)

theorem comparison_mem_all {op : String} (h : op ∈ comparisons) : comparison op ∈ all :=
  List.mem_append_right _ (List.mem_map_of_mem h)

/-- What may come after an operand. -/
def symbolStarts : List Char :=
  [' ', '=', '!', '<', '>', '+', '-', '*', '/', '%', '@', '&', '^', '|']

theorem exists_symbol {i : Connective} (h : i ∈ all) :
    ∃ c rest, i.symbol = c :: rest ∧ c ∈ symbolStarts := by
  have hall : ∀ i ∈ all, i.symbol ≠ [] ∧ ∀ c ∈ i.symbol.head?, c ∈ symbolStarts := by decide
  obtain ⟨hne, hstart⟩ := hall i h
  obtain ⟨c, rest, hsymbol⟩ := List.exists_cons_of_ne_nil hne
  rw [hsymbol] at hstart
  exact ⟨c, rest, hsymbol, hstart c rfl⟩

/-- The only connective that starts with an equals sign has another one. -/
theorem head?_of_symbol_append {i : Connective} (h : i ∈ all) {rest more : List Char}
    (heq : i.symbol ++ rest = '=' :: more) : more.head? = some '=' := by
  have hsymbol : ∀ i ∈ all, i.symbol.head? = some '=' → i.symbol = ['=', '='] := by decide
  obtain ⟨c, symbol, hstart, -⟩ := exists_symbol h
  rw [hstart] at heq
  obtain ⟨rfl, hmore⟩ := List.cons.inj heq
  have hdouble := hsymbol i h (by rw [hstart]; rfl)
  rw [hstart] at hdouble
  rw [← hmore, (List.cons.inj hdouble).2]
  rfl

end Connective

/-! ### Expressions -/

namespace Node

/-- Names, operators, comparisons, displays, and what has a leaf for its base: attributes, subscripts and
calls. -/
inductive IsExpression : Node → Prop
  | atom {text : String} (htext : IsName text.toList) : IsExpression (.atom text)
  | member {object : Node} {name : String} (hobject : IsExpression object)
      (hleaf : object.isLeaf = true) (hname : IsName name.toList) :
      IsExpression (.attribute object name)
  | subscript {value index : Node} (hvalue : IsExpression value) (hleaf : value.isLeaf = true)
      (hindex : IsExpression index) : IsExpression (.subscript value index)
  | call {func : Node} {args : List Node} {kwargs : List (String × Node)}
      (hfunc : IsExpression func) (hleaf : func.isLeaf = true)
      (hargs : ∀ arg ∈ args, IsExpression arg)
      (hkeys : ∀ keyword ∈ kwargs, IsName keyword.1.toList)
      (hvalues : ∀ keyword ∈ kwargs, IsExpression keyword.2) :
      IsExpression (.call func args kwargs)
  | unary {op : UnaryOperator} {operand : Node} (hoperand : IsExpression operand) :
      IsExpression (.unary op operand)
  | binary {op : BinaryOperator} {left right : Node} (hleft : IsExpression left)
      (hright : IsExpression right) : IsExpression (.binary op left right)
  | comparison {op : String} {left right : Node} (hop : op ∈ Connective.comparisons)
      (hleft : IsExpression left) (hright : IsExpression right) :
      IsExpression (.comparison op left right)
  | display {kind : Container} {items : List Node} (hitems : ∀ item ∈ items, IsExpression item)
      (hset : kind = .set → items ≠ []) : IsExpression (.display kind items)
  | dict {items : List Node} (hitems : ∀ item ∈ items, IsExpression item)
      (heven : Even items.length) : IsExpression (.dict items)

end Node

/-- What trails a leaf and makes another leaf of it. -/
inductive Trailer where
  | member (name : String)
  | subscript (index : Node)
  | call (args : List Node) (kwargs : List (String × Node))

namespace Trailer

def apply (base : Node) : Trailer → Node
  | member name => .attribute base name
  | subscript index => .subscript base index
  | call args kwargs => .call base args kwargs

def chars : Trailer → List Char
  | member name => '.' :: name.toList
  | subscript index => '[' :: index.chars ++ [']']
  | call args kwargs =>
      '(' :: Form.commas (args.map Node.chars ++ kwargs.map Node.argumentChars) ++ [')']

/-- Whether a property holds of the expressions in a trailer. -/
def Over (p : Node → Prop) : Trailer → Prop
  | member name => IsName name.toList
  | subscript index => p index
  | call args kwargs =>
      (∀ arg ∈ args, p arg) ∧ (∀ keyword ∈ kwargs, IsName keyword.1.toList) ∧
        ∀ keyword ∈ kwargs, p keyword.2

theorem chars_apply (trailer : Trailer) (base : Node) :
    (trailer.apply base).chars = base.chars ++ trailer.chars := by
  cases trailer with
  | member name => rfl
  | subscript index => exact List.append_assoc ..
  | call args kwargs =>
      rw [chars, ← Node.listChars_eq, ← Node.keywordChars_eq]
      exact List.append_assoc ..

theorem chars_foldl_apply (trailers : List Trailer) (base : Node) :
    (trailers.foldl apply base).chars = base.chars ++ trailers.flatMap chars := by
  induction trailers generalizing base with
  | nil => simp
  | cons trailer trailers ih =>
      rw [List.foldl_cons, ih, chars_apply, List.flatMap_cons, List.append_assoc]

theorem isLeaf_foldl_apply (trailers : List Trailer) {base : Node} (h : base.isLeaf = true) :
    (trailers.foldl apply base).isLeaf = true := by
  induction trailers generalizing base with
  | nil => exact h
  | cons trailer trailers ih =>
      refine ih ?_
      cases trailer <;> rfl

end Trailer

namespace Node

variable (p : Node → Prop)

/-- A name with trailers, of whose expressions a property holds. -/
def LeafOver (leaf : Node) : Prop :=
  ∃ (text : String) (trailers : List Trailer), IsName text.toList ∧
    (∀ trailer ∈ trailers, trailer.Over p) ∧ leaf = trailers.foldl Trailer.apply (.atom text)

/-- The property holds of an operand, or the operand is a leaf and it holds of what is in there. -/
structure OperandOver (operand : Node) : Prop where
  leaf : operand.isLeaf = true → operand.LeafOver p
  group : operand.isLeaf = false → p operand

def operandChars (operand : Node) : List Char := Form.operand operand.isLeaf operand.chars

end Node

/-! ### What comes after the first operand -/

/-- A connective and a second operand, if there are any. -/
abbrev Tail := Option (Connective × Node)

namespace Tail

/-- The first operand together with what comes after it. -/
def node (first : Node) : Tail → Node
  | none => first
  | some (connective, second) => connective.node first second

def chars : Tail → List Char
  | none => []
  | some (connective, second) => connective.symbol ++ second.operandChars

def Over (p : Node → Prop) (tail : Tail) : Prop :=
  ∀ next ∈ tail, next.1 ∈ Connective.all ∧ next.2.OperandOver p

end Tail

theorem Connective.chars_node (connective : Connective) (first second : Node) :
    (connective.node first second).chars =
      first.operandChars ++ Tail.chars (some (connective, second)) := by
  cases connective with
  | operator op => exact List.append_assoc ..
  | comparison op => exact List.append_assoc ..

theorem Tail.chars_node {first : Node} (h : first.isLeaf = true) (tail : Tail) :
    (tail.node first).chars = first.chars ++ tail.chars := by
  cases tail with
  | none => simp [node, chars]
  | some next => rw [node, Connective.chars_node, Node.operandChars, h]; rfl

/-! ### Displays -/

theorem Form.commas_cons (item : List Char) (items : List (List Char)) :
    Form.commas (item :: items) = item ++ items.flatMap (',' :: ·) := by
  induction items generalizing item with
  | nil => simp [commas]
  | cons next items ih =>
      rw [commas, List.intercalate_cons_cons, ← commas, ih, List.flatMap_cons, List.append_assoc]
      rfl

namespace Node

/-- A tuple keeps a comma behind its first item. -/
theorem chars_tuple_cons (item : Node) (items : List Node) :
    (Node.display .tuple (item :: items)).chars =
      '(' :: (item.chars ++ ',' :: (Form.commas (items.map chars) ++ [')'])) := by
  cases items with
  | nil => rfl
  | cons next items =>
      have hcommas : (Node.display .tuple (item :: next :: items)).chars =
          '(' :: (Form.commas (listChars (item :: next :: items)) ++ [')']) := rfl
      have hitems : Form.commas ((item :: next :: items).map chars) =
          item.chars ++ [','] ++ Form.commas ((next :: items).map chars) :=
        List.intercalate_cons_cons ..
      rw [hcommas, listChars_eq, hitems]
      simp only [List.append_assoc, List.cons_append, List.nil_append]

theorem chars_list (items : List Node) :
    (Node.display .list items).chars = '[' :: (Form.commas (items.map chars) ++ [']']) := by
  rw [← listChars_eq]
  rfl

theorem chars_set {items : List Node} (h : items ≠ []) :
    (Node.display .set items).chars = '{' :: (Form.commas (items.map chars) ++ ['}']) := by
  obtain ⟨first, items, rfl⟩ := List.exists_cons_of_ne_nil h
  rw [← listChars_eq]
  rfl

end Node

/-! ### How expressions open -/

inductive Opening where
  | name
  | sign
  | paren
  | bracket
  | brace
  deriving DecidableEq

def opening? (c : Char) : Option Opening :=
  if isNameChar c then some .name
  else if c = '+' ∨ c = '-' ∨ c = '~' then some .sign
  else if c = '(' then some .paren
  else if c = '[' then some .bracket
  else if c = '{' then some .brace
  else none

/-- An expression that opens in some way, with a property of the expressions in it. -/
inductive Opens (p : Node → Prop) : Opening → Node → Prop
  | chain {leaf : Node} {tail : Tail} (hleaf : leaf.LeafOver p) (htail : tail.Over p) :
      Opens p .name (tail.node leaf)
  | negation {operand : Node} (hoperand : operand.OperandOver p) :
      Opens p .name (.unary .not operand)
  | signed {op : UnaryOperator} {operand : Node} (hop : op ≠ .not)
      (hoperand : operand.OperandOver p) : Opens p .sign (.unary op operand)
  | grouped {first : Node} {next : Connective × Node} (hgroup : first.isLeaf = false)
      (hfirst : p first) (hnext : Tail.Over p (some next)) :
      Opens p .paren (Tail.node first (some next))
  | tuple {items : List Node} (hitems : ∀ item ∈ items, p item) :
      Opens p .paren (.display .tuple items)
  | list {items : List Node} (hitems : ∀ item ∈ items, p item) :
      Opens p .bracket (.display .list items)
  | set {items : List Node} (hitems : ∀ item ∈ items, p item) (hne : items ≠ []) :
      Opens p .brace (.display .set items)
  | dict {entries : List (Node × Node)} (hkeys : ∀ entry ∈ entries, p entry.1)
      (hvalues : ∀ entry ∈ entries, p entry.2) :
      Opens p .brace (.dict (entries.flatMap fun entry => [entry.2, entry.1]))

namespace Opens

variable {p : Node → Prop} {opening : Opening} {node : Node}

/-- Leaves open with their names. -/
theorem leafOver (h : Opens p opening node) (hleaf : node.isLeaf = true) : node.LeafOver p := by
  cases h with
  | @chain leaf tail h htail =>
      cases tail with
      | none => exact h
      | some next =>
          obtain ⟨connective, second⟩ := next
          cases connective <;> cases hleaf
  | @grouped first next =>
      obtain ⟨connective, second⟩ := next
      cases connective <;> cases hleaf
  | _ => cases hleaf

end Opens

theorem Node.LeafOver.isLeaf {p : Node → Prop} {leaf : Node} (h : leaf.LeafOver p) :
    leaf.isLeaf = true := by
  obtain ⟨text, trailers, -, -, rfl⟩ := h
  exact Trailer.isLeaf_foldl_apply trailers rfl

/-- Items of even number, as values and keys by turns. -/
theorem exists_entries {items : List Node} (h : Even items.length) :
    ∃ entries : List (Node × Node), items = entries.flatMap fun entry => [entry.2, entry.1] := by
  match items, h with
  | [], _ => exact ⟨[], rfl⟩
  | [item], h => exact absurd h Nat.not_even_one
  | value :: key :: items, h =>
      have heven : Even items.length := by
        obtain ⟨k, hk⟩ := h
        rw [List.length_cons, List.length_cons] at hk
        exact ⟨k - 1, by omega⟩
      obtain ⟨entries, rfl⟩ := exists_entries heven
      exact ⟨(key, value) :: entries, rfl⟩

namespace Node

variable {p : Node → Prop}

theorem LeafOver.trail {leaf : Node} (h : leaf.LeafOver p) (trailer : Trailer)
    (htrailer : trailer.Over p) : (trailer.apply leaf).LeafOver p := by
  obtain ⟨text, trailers, htext, htrailers, rfl⟩ := h
  refine ⟨text, trailers ++ [trailer], htext, ?_, by rw [List.foldl_append]; rfl⟩
  exact List.forall_mem_append.mpr ⟨htrailers, List.forall_mem_singleton.mpr htrailer⟩

/-- Two operands with a connective between them. -/
theorem opens_connective {connective : Connective} {first second : Node}
    (hconnective : connective ∈ Connective.all) (hfirst : first.OperandOver p)
    (hsecond : second.OperandOver p) :
    ∃ opening, Opens p opening (connective.node first second) := by
  have htail : Tail.Over p (some (connective, second)) := by
    rintro _ ⟨⟩
    exact ⟨hconnective, hsecond⟩
  cases hleaf : first.isLeaf with
  | true => exact ⟨_, .chain (hfirst.leaf hleaf) htail⟩
  | false => exact ⟨_, .grouped hleaf (hfirst.group hleaf) htail⟩

/-- Every expression opens in one of these ways. A property that the expressions in it have gets on to
the expression itself. -/
theorem IsExpression.exists_opens
    (hp : ∀ node : Node, node.IsExpression → (∃ opening, Opens p opening node) → p node)
    {node : Node} (h : node.IsExpression) : ∃ opening, Opens p opening node := by
  have hoperand {operand : Node} (h : operand.IsExpression)
      (ih : ∃ opening, Opens p opening operand) : operand.OperandOver p :=
    ⟨fun hleaf => ih.choose_spec.leafOver hleaf, fun _ => hp operand h ih⟩
  have hleaf {leaf : Node} (h : leaf.LeafOver p) : ∃ opening, Opens p opening leaf :=
    ⟨_, show Opens p .name (Tail.node leaf none) from .chain h fun _ hnext => by cases hnext⟩
  induction h with
  | @atom text htext => exact hleaf ⟨text, [], htext, List.forall_mem_nil _, rfl⟩
  | member hobject hbase hname ih =>
      exact hleaf ((ih.choose_spec.leafOver hbase).trail (.member _) hname)
  | subscript hvalue hbase hindex ih ihindex =>
      exact hleaf ((ih.choose_spec.leafOver hbase).trail (.subscript _)
        (hp _ hindex ihindex))
  | call hfunc hbase hargs hkeys hvalues ih ihargs ihvalues =>
      exact hleaf ((ih.choose_spec.leafOver hbase).trail (.call _ _)
        ⟨fun arg harg => hp arg (hargs arg harg) (ihargs arg harg), hkeys,
          fun keyword hkeyword => hp _ (hvalues keyword hkeyword) (ihvalues keyword hkeyword)⟩)
  | @unary op operand hx ih =>
      by_cases hop : op = .not
      · exact hop ▸ ⟨_, .negation (hoperand hx ih)⟩
      · exact ⟨_, .signed hop (hoperand hx ih)⟩
  | @binary op left right hleft hright ihleft ihright =>
      exact opens_connective (Connective.operator_mem_all op) (hoperand hleft ihleft)
        (hoperand hright ihright)
  | @comparison op left right hop hleft hright ihleft ihright =>
      exact opens_connective (Connective.comparison_mem_all hop) (hoperand hleft ihleft)
        (hoperand hright ihright)
  | @display kind items hitems hset ih =>
      have hitems : ∀ item ∈ items, p item := fun item hitem =>
        hp item (hitems item hitem) (ih item hitem)
      cases kind with
      | list => exact ⟨_, .list hitems⟩
      | tuple => exact ⟨_, .tuple hitems⟩
      | set => exact ⟨_, .set hitems (hset rfl)⟩
  | @dict items hitems heven ih =>
      have hitems : ∀ item ∈ items, p item := fun item hitem =>
        hp item (hitems item hitem) (ih item hitem)
      obtain ⟨entries, rfl⟩ := exists_entries heven
      refine ⟨_, .dict (fun entry hentry => ?_) fun entry hentry => ?_⟩
      · exact hitems _ (List.mem_flatMap.mpr ⟨entry, hentry, by simp⟩)
      · exact hitems _ (List.mem_flatMap.mpr ⟨entry, hentry, by simp⟩)

end Node

/-! ### What stands where -/

/-- What may come after an expression. -/
def closers : List Char := [',', ':', ')', ']', '}']

def Closed (rest : List Char) : Prop := ∀ c ∈ rest.head?, c ∈ closers

/-- What comes after an operand closes the expression or is a connective. -/
def Ended (rest : List Char) : Prop := ∀ c ∈ rest.head?, c ∈ closers ++ Connective.symbolStarts

def trailerStarts : List Char := ['.', '[', '(']

theorem Closed.ended {rest : List Char} (h : Closed rest) : Ended rest :=
  fun c hc => List.mem_append_left _ (h c hc)

theorem Ended.head?_ne {rest : List Char} (h : Ended rest) :
    ∀ c ∈ rest.head?, isNameChar c = false ∧ c ∉ trailerStarts := by
  have hends : ∀ c ∈ closers ++ Connective.symbolStarts,
      isNameChar c = false ∧ c ∉ trailerStarts := by decide
  exact fun c hc => hends c (h c hc)

theorem Tail.ended {p : Node → Prop} {tail : Tail} (h : tail.Over p) {rest : List Char}
    (hrest : Closed rest) : Ended (tail.chars ++ rest) := by
  cases tail with
  | none => exact hrest.ended
  | some next =>
      obtain ⟨c, more, hsymbol, hstart⟩ := Connective.exists_symbol (h next rfl).1
      intro d hd
      rw [chars, hsymbol] at hd
      cases hd
      exact List.mem_append_right _ hstart

theorem Trailer.exists_cons (trailer : Trailer) :
    ∃ c rest, trailer.chars = c :: rest ∧ c ∈ trailerStarts := by
  cases trailer with
  | member name => exact ⟨_, _, rfl, by decide⟩
  | subscript index => exact ⟨_, _, rfl, by decide⟩
  | call args kwargs => exact ⟨_, _, rfl, by decide⟩

/-- After the name of a leaf comes no name. -/
theorem Trailer.head?_flatMap (trailers : List Trailer) {rest : List Char} (hrest : Ended rest) :
    ∀ c ∈ (trailers.flatMap chars ++ rest).head?, isNameChar c = false := by
  intro c hc
  cases trailers with
  | nil => exact (hrest.head?_ne c hc).1
  | cons trailer trailers =>
      obtain ⟨d, more, hchars, hstart⟩ := trailer.exists_cons
      rw [List.flatMap_cons, hchars] at hc
      cases hc
      have hmarks : ∀ c ∈ trailerStarts, isNameChar c = false := by decide
      exact hmarks _ hstart

namespace Text

theorem IsName.exists_cons {name : List Char} (h : IsName name) :
    ∃ c rest, name = c :: rest ∧ isNameChar c = true := by
  obtain ⟨c, rest, rfl⟩ := List.exists_cons_of_ne_nil h.ne_nil
  exact ⟨c, rest, rfl, h.plain c (List.mem_cons_self ..)⟩

/-- Where a name stands nothing else does. -/
theorem IsName.append_ne_cons {name : List Char} (h : IsName name) {c : Char}
    (hc : isNameChar c = false) (rest more : List Char) : name ++ rest ≠ c :: more := by
  obtain ⟨d, tail, rfl, hd⟩ := h.exists_cons
  intro heq
  rw [(List.cons.inj heq).1, hc] at hd
  cases hd

end Text

namespace Node

variable {p : Node → Prop}

/-- A leaf as a name and what trails it, with something behind. -/
theorem LeafOver.exists_chars {leaf : Node} (h : leaf.LeafOver p) :
    ∃ (text : String) (trailers : List Trailer), IsName text.toList ∧
      (∀ trailer ∈ trailers, trailer.Over p) ∧ leaf = trailers.foldl Trailer.apply (.atom text) ∧
        ∀ rest, leaf.chars ++ rest = text.toList ++ (trailers.flatMap Trailer.chars ++ rest) := by
  obtain ⟨text, trailers, htext, htrailers, rfl⟩ := h
  refine ⟨text, trailers, htext, htrailers, rfl, fun rest => ?_⟩
  rw [Trailer.chars_foldl_apply, List.append_assoc]
  rfl

theorem operandChars_of_leaf {operand : Node} (h : operand.isLeaf = true) :
    operand.operandChars = operand.chars := by
  rw [operandChars, h]
  rfl

theorem operandChars_of_group {operand : Node} (h : operand.isLeaf = false) (rest : List Char) :
    operand.operandChars ++ rest = '(' :: (operand.chars ++ ')' :: rest) := by
  rw [operandChars, h]
  simp [Form.operand]

/-- After a name that is all of a leaf comes what ends the leaf. -/
theorem LeafOver.rest_eq {leaf : Node} (h : leaf.LeafOver p) {name rest more : List Char}
    (hname : IsName name) {c : Char} (hc : isNameChar c = false) (hc' : c ∉ trailerStarts)
    (hrest : Ended rest) (heq : leaf.chars ++ rest = name ++ c :: more) : rest = c :: more := by
  obtain ⟨text, trailers, htext, -, -, hchars⟩ := h.exists_chars
  rw [hchars] at heq
  obtain ⟨-, heq⟩ := htext.append_inj hname (Trailer.head?_flatMap trailers hrest)
    (by rintro _ ⟨⟩; exact hc) heq
  cases trailers with
  | nil => exact heq
  | cons trailer trailers =>
      obtain ⟨d, tail, hstart, hd⟩ := trailer.exists_cons
      rw [List.flatMap_cons, hstart] at heq
      exact absurd ((List.cons.inj heq).1 ▸ hd) hc'

/-- No operand is a word with a blank behind it. -/
theorem OperandOver.append_ne_word {operand : Node} (h : operand.OperandOver p)
    {word rest : List Char} (hword : IsName word) (hrest : Closed rest) (more : List Char) :
    operand.operandChars ++ rest ≠ word ++ ' ' :: more := by
  intro heq
  cases hleaf : operand.isLeaf with
  | true =>
      rw [operandChars_of_leaf hleaf] at heq
      have hblank := (h.leaf hleaf).rest_eq hword (by decide) (by decide) hrest.ended heq
      rw [hblank] at hrest
      exact absurd (hrest ' ' rfl) (by decide)
  | false =>
      rw [operandChars_of_group hleaf] at heq
      exact hword.append_ne_cons (by decide) _ _ heq.symm

/-- Operands start with a name or a parenthesis. -/
theorem OperandOver.exists_cons {operand : Node} (h : operand.OperandOver p) (rest : List Char) :
    ∃ c more, operand.operandChars ++ rest = c :: more ∧ (isNameChar c = true ∨ c = '(') := by
  cases hleaf : operand.isLeaf with
  | true =>
      obtain ⟨text, trailers, htext, -, -, hchars⟩ := (h.leaf hleaf).exists_chars
      obtain ⟨c, more, htext, hc⟩ := htext.exists_cons
      exact ⟨c, _, by rw [operandChars_of_leaf hleaf, hchars, htext]; rfl, Or.inl hc⟩
  | false => exact ⟨'(', _, operandChars_of_group hleaf rest, Or.inr rfl⟩

end Node

namespace Opens

variable {p : Node → Prop} {opening : Opening} {node : Node}

/-- The first character tells how an expression opens. -/
theorem exists_cons (h : Opens p opening node) :
    ∃ c rest, node.chars = c :: rest ∧ opening? c = some opening := by
  have hname {c : Char} (hc : isNameChar c = true) : opening? c = some .name := if_pos hc
  cases h with
  | @chain leaf tail hleaf =>
      obtain ⟨text, trailers, htext, -, -, hchars⟩ := hleaf.exists_chars
      obtain ⟨c, more, htext, hc⟩ := htext.exists_cons
      refine ⟨c, more ++ (trailers.flatMap Trailer.chars ++ tail.chars), ?_, hname hc⟩
      rw [Tail.chars_node hleaf.isLeaf, hchars, htext]
      rfl
  | negation => exact ⟨'n', _, rfl, by decide⟩
  | @signed op operand hop =>
      cases op with
      | not => exact absurd rfl hop
      | positive => exact ⟨'+', _, rfl, by decide⟩
      | negative => exact ⟨'-', _, rfl, by decide⟩
      | invert => exact ⟨'~', _, rfl, by decide⟩
  | @grouped first next hgroup =>
      have hchars : (Tail.node first (some next)).chars =
          first.operandChars ++ Tail.chars (some next) := next.1.chars_node first next.2
      rw [Node.operandChars_of_group hgroup] at hchars
      exact ⟨'(', _, hchars, by decide⟩
  | @tuple items =>
      cases items with
      | nil => exact ⟨'(', _, rfl, by decide⟩
      | cons item items => exact ⟨'(', _, Node.chars_tuple_cons item items, by decide⟩
  | list => exact ⟨'[', _, rfl, by decide⟩
  | set _ hne => exact ⟨'{', _, Node.chars_set hne, by decide⟩
  | dict => exact ⟨'{', _, rfl, by decide⟩

/-- Only a comparison starts like a keyword argument, and it has an equals sign more. -/
theorem head?_of_eq_keyword (h : Opens p opening node) {name rest more : List Char}
    (hname : IsName name) (hrest : Closed rest) (heq : node.chars ++ rest = name ++ '=' :: more) :
    more.head? = some '=' := by
  have hother (hopening : opening ≠ .name) : node.chars ++ rest ≠ name ++ '=' :: more := by
    obtain ⟨c, tail, hchars, hc⟩ := h.exists_cons
    have hplain : isNameChar c = false := by
      rw [Bool.eq_false_iff]
      intro hchar
      rw [opening?, if_pos hchar, Option.some.injEq] at hc
      exact hopening hc.symm
    rw [hchars]
    exact (hname.append_ne_cons hplain _ _).symm
  cases h with
  | @chain leaf tail hleaf htail =>
      rw [Tail.chars_node hleaf.isLeaf, List.append_assoc] at heq
      have hequals := hleaf.rest_eq hname (by decide) (by decide) (Tail.ended htail hrest) heq
      cases tail with
      | none =>
          have hclosed : Closed ('=' :: more) := hequals ▸ hrest
          exact absurd (hclosed '=' rfl) (by decide)
      | some next =>
          rw [Tail.chars, List.append_assoc] at hequals
          exact Connective.head?_of_symbol_append (htail next rfl).1 hequals
  | @negation operand =>
      have hnot : IsName "not".toList := by decide
      have hword : "not".toList ++ ' ' :: (operand.operandChars ++ rest) = name ++ '=' :: more := heq
      obtain ⟨-, hblank⟩ :=
        hnot.append_inj hname (by rintro _ ⟨⟩; decide) (by rintro _ ⟨⟩; decide) hword
      cases hblank
  | _ => exact absurd heq (hother (by decide))

end Opens

end Decompiler
