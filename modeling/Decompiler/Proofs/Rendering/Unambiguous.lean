import Decompiler.Proofs.Rendering.Expression

/-!
Expressions are told apart by their texts. Two expressions with the same text open alike, and what is
in the one is compared with what is in the other, part by part: each part ends where something stands
that cannot belong to it, so it determines itself and where it ends. No structure is lost by leaving out
the parentheses around leaves.
-/

namespace Decompiler

open Text

/-- Two items with the same text, whatever may come after it, are the same. -/
def Agree {α : Type} (text : α → List Char) (a b : α) : Prop :=
  ∀ ⦃r s : List Char⦄, Closed r → Closed s → text a ++ r = text b ++ s → a = b ∧ r = s

theorem Agree.symm {α : Type} {text : α → List Char} {a b : α} (h : Agree text a b) :
    Agree text b a := fun _ _ hr hs heq => (h hs hr heq.symm).imp Eq.symm Eq.symm

theorem Node.IsExpression.exists_opens_true {node : Node} (h : node.IsExpression) :
    ∃ opening, Opens (fun _ => True) opening node :=
  h.exists_opens fun _ _ _ => trivial

/-- No expression starts with what comes after one, or with an equals sign. -/
theorem Node.IsExpression.exists_cons {node : Node} (h : node.IsExpression) :
    ∃ c rest, node.chars = c :: rest ∧ c ∉ '=' :: closers := by
  obtain ⟨opening, hopens⟩ := h.exists_opens_true
  obtain ⟨c, rest, hchars, hc⟩ := hopens.exists_cons
  have hnone : ∀ c ∈ '=' :: closers, opening? c = none := by decide
  refine ⟨c, rest, hchars, fun hmem => ?_⟩
  rw [hnone c hmem] at hc
  cases hc

theorem Node.IsExpression.append_ne_cons {node : Node} (h : node.IsExpression) {c : Char}
    (hc : c ∈ '=' :: closers) (rest more : List Char) : node.chars ++ rest ≠ c :: more := by
  obtain ⟨d, tail, hchars, hd⟩ := h.exists_cons
  rw [hchars]
  intro heq
  exact hd ((List.cons.inj heq).1 ▸ hc)

/-! ### Items between commas -/

section Items

variable {α : Type} {text : α → List Char} {items others : List α} {close : Char}
  {r s : List Char}

theorem closed_cons {c : Char} (h : c ∈ closers) (rest : List Char) : Closed (c :: rest) := by
  rintro _ ⟨⟩
  exact h

/-- Items that agree have the same mark behind them, and the same text behind the mark. -/
theorem Agree.of_cons {a b : α} (h : Agree text a b) {c d : Char} (hc : c ∈ closers)
    (hd : d ∈ closers) (heq : text a ++ c :: r = text b ++ d :: s) : a = b ∧ c = d ∧ r = s := by
  obtain ⟨hsame, hrest⟩ := h (closed_cons hc r) (closed_cons hd s) heq
  exact ⟨hsame, List.cons.inj hrest⟩

theorem closed_items (hclose : close ∈ closers) (items : List α) (r : List Char) :
    Closed (items.flatMap (fun item => ',' :: text item) ++ close :: r) := by
  cases items with
  | nil => exact closed_cons hclose r
  | cons item items => exact closed_cons (by decide) _

theorem items_append_inj (hclose : close ∈ closers) (hcomma : close ≠ ',')
    (h : ∀ a ∈ items, ∀ b ∈ others, Agree text a b)
    (heq : items.flatMap (fun item => ',' :: text item) ++ close :: r =
      others.flatMap (fun item => ',' :: text item) ++ close :: s) : items = others ∧ r = s := by
  induction items generalizing others with
  | nil =>
      cases others with
      | nil => exact ⟨rfl, (List.cons.inj heq).2⟩
      | cons other others => exact absurd (List.cons.inj heq).1 hcomma
  | cons item items ih =>
      cases others with
      | nil => exact absurd (List.cons.inj heq).1.symm hcomma
      | cons other others =>
          simp only [List.forall_mem_cons] at h
          obtain ⟨⟨hitem, -⟩, hitems⟩ := h
          simp only [List.flatMap_cons, List.cons_append, List.append_assoc, List.cons.injEq,
            true_and] at heq
          obtain ⟨rfl, hrest⟩ := hitem (closed_items hclose items r) (closed_items hclose others s) heq
          obtain ⟨rfl, rfl⟩ := ih (fun a ha => (hitems a ha).2) hrest
          exact ⟨rfl, rfl⟩

/-- Items between commas are told apart by their texts, if no item starts with what may come after
one. -/
theorem commas_append_inj (hclose : close ∈ closers) (hcomma : close ≠ ',')
    (h : ∀ a ∈ items, ∀ b ∈ others, Agree text a b)
    (hitems : ∀ a ∈ items, ∀ rest more, text a ++ rest ≠ close :: more)
    (hothers : ∀ b ∈ others, ∀ rest more, text b ++ rest ≠ close :: more)
    (heq : Form.commas (items.map text) ++ close :: r = Form.commas (others.map text) ++ close :: s) :
    items = others ∧ r = s := by
  have hcons (item : α) (items : List α) (r : List Char) :
      Form.commas ((item :: items).map text) ++ close :: r =
        text item ++ (items.flatMap (fun item => ',' :: text item) ++ close :: r) := by
    rw [List.map_cons, Form.commas_cons, List.flatMap_map, List.append_assoc]
  cases items with
  | nil =>
      cases others with
      | nil => exact ⟨rfl, (List.cons.inj heq).2⟩
      | cons other others =>
          rw [hcons] at heq
          exact absurd heq.symm (hothers other (List.mem_cons_self ..) _ _)
  | cons item items =>
      cases others with
      | nil =>
          rw [hcons] at heq
          exact absurd heq (hitems item (List.mem_cons_self ..) _ _)
      | cons other others =>
          rw [hcons, hcons] at heq
          -- with a comma in front of each, the first items are no exception
          refine items_append_inj hclose hcomma h ?_
          simpa only [List.flatMap_cons, List.cons_append, List.append_assoc] using
            congrArg (',' :: ·) heq

end Items

/-! ### Connectives -/

namespace Connective

variable {i j : Connective} {t u : List Char}

theorem exists_word (h : i ∈ all) (hblank : i.symbol.head? = some ' ') :
    ∃ word more, IsName word ∧ i.symbol = ' ' :: (word ++ ' ' :: more) := by
  have hwords : ∀ i ∈ all, i.symbol.head? = some ' ' →
      IsName (i.symbol.tail.takeWhile isNameChar) ∧
        (i.symbol.tail.dropWhile isNameChar).head? = some ' ' := by decide
  obtain ⟨hword, hspace⟩ := hwords i h hblank
  obtain ⟨more, hmore⟩ := List.head?_eq_some_iff.mp hspace
  obtain ⟨symbol, hsymbol⟩ := List.head?_eq_some_iff.mp hblank
  refine ⟨_, more, hword, ?_⟩
  rw [← hmore, List.takeWhile_append_dropWhile, hsymbol, List.tail_cons]

/-- Where a symbol starts like a longer one, what is left of this starts no operand. -/
theorem eq_of_symbol_eq_append (hi : i ∈ all) (hj : j ∈ all) {rest : List Char}
    (h : j.symbol = i.symbol ++ rest) (hne : rest ≠ "not ".toList)
    (hrest : ∀ c ∈ rest.head?, isNameChar c = true ∨ c = '(') : i = j := by
  have hall : ∀ i ∈ all, ∀ j ∈ all, ∀ rest ∈ i.symbol.isPrefixOf? j.symbol,
      i = j ∨ rest = "not ".toList ∨ ¬ ∀ c ∈ rest.head?, isNameChar c = true ∨ c = '(' := by
    decide +kernel
  rcases hall i hi j hj rest (List.isPrefixOf?_eq_some_iff_append_eq.mpr h.symm) with
    heq | heq | hstart
  · exact heq
  · exact absurd heq hne
  · exact absurd hrest hstart

/-- What a text starts with, its first part starts with. -/
theorem forall_head?_of_append {start : Char → Prop} {rest : List Char}
    (ht : ∃ c more, t = c :: more ∧ start c) (h : t = rest ++ u) : ∀ c ∈ rest.head?, start c := by
  obtain ⟨c, more, hstart, hc⟩ := ht
  intro d hd
  cases rest with
  | nil => cases hd
  | cons e rest =>
      cases hd
      rw [h] at hstart
      rw [(List.cons.inj hstart).1]
      exact hc

/-- Symbols are told apart if neither leaves a part of the other to what comes after it. -/
theorem symbol_append_inj_of (hleft : ∀ rest, j.symbol = i.symbol ++ rest → t = rest ++ u → i = j)
    (hright : ∀ rest, i.symbol = j.symbol ++ rest → u = rest ++ t → j = i)
    (heq : i.symbol ++ t = j.symbol ++ u) : i = j ∧ t = u := by
  have hij : i = j := by
    rcases List.append_eq_append_iff.mp heq with ⟨rest, hsymbol, hrest⟩ | ⟨rest, hsymbol, hrest⟩
    · exact hleft rest hsymbol hrest
    · exact (hright rest hsymbol hrest).symm
  subst hij
  exact ⟨rfl, List.append_cancel_left heq⟩

/-- A symbol ends where an operand begins. -/
theorem symbol_append_inj (hi : i ∈ all) (hj : j ∈ all)
    (ht : ∃ c rest, t = c :: rest ∧ (isNameChar c = true ∨ c = '('))
    (ht' : ∀ more, t ≠ "not".toList ++ ' ' :: more)
    (hu : ∃ c rest, u = c :: rest ∧ (isNameChar c = true ∨ c = '('))
    (hu' : ∀ more, u ≠ "not".toList ++ ' ' :: more) (heq : i.symbol ++ t = j.symbol ++ u) :
    i = j ∧ t = u := by
  refine symbol_append_inj_of (fun rest hsymbol hrest => ?_) (fun rest hsymbol hrest => ?_) heq
  · refine eq_of_symbol_eq_append hi hj hsymbol ?_ (forall_head?_of_append ht hrest)
    rintro rfl
    exact ht' u hrest
  · refine eq_of_symbol_eq_append hj hi hsymbol ?_ (forall_head?_of_append hu hrest)
    rintro rfl
    exact hu' t hrest

end Connective

/-! ### Parts of expressions -/

/-- Of the expressions with the one property and those with the other any two agree. -/
structure Separated (p q : Node → Prop) : Prop where
  left : ∀ a, p a → a.IsExpression
  right : ∀ b, q b → b.IsExpression
  agree : ∀ a b, p a → q b → Agree Node.chars a b

section Parts

variable {p q : Node → Prop} {r s : List Char}

theorem Separated.symm (h : Separated p q) : Separated q p :=
  ⟨h.right, h.left, fun a b ha hb => (h.agree b a hb ha).symm⟩

/-- An argument of a call is an expression, or it has a keyword. -/
abbrev Argument := Node ⊕ (String × Node)

namespace Argument

def chars : Argument → List Char := Sum.elim Node.chars Node.argumentChars

def Over (p : Node → Prop) (argument : Argument) : Prop :=
  argument.elim p fun keyword => IsName keyword.1.toList ∧ p keyword.2

end Argument

def arguments (args : List Node) (kwargs : List (String × Node)) : List Argument :=
  args.map Sum.inl ++ kwargs.map Sum.inr

theorem map_arguments (args : List Node) (kwargs : List (String × Node)) :
    (arguments args kwargs).map Argument.chars =
      args.map Node.chars ++ kwargs.map Node.argumentChars := by
  simp [arguments, Argument.chars, Function.comp_def]

theorem arguments_inj {args args' : List Node} {kwargs kwargs' : List (String × Node)}
    (h : arguments args kwargs = arguments args' kwargs') : args = args' ∧ kwargs = kwargs' := by
  have hleft (args : List Node) (kwargs : List (String × Node)) :
      (arguments args kwargs).filterMap Sum.getLeft? = args := by
    simp [arguments, List.filterMap_map, Function.comp_def]
  have hright (args : List Node) (kwargs : List (String × Node)) :
      (arguments args kwargs).filterMap Sum.getRight? = kwargs := by
    simp [arguments, List.filterMap_map, Function.comp_def]
  exact ⟨by rw [← hleft args kwargs, h, hleft], by rw [← hright args kwargs, h, hright]⟩

theorem forall_mem_arguments {args : List Node} {kwargs : List (String × Node)}
    (hargs : ∀ arg ∈ args, p arg) (hkeys : ∀ keyword ∈ kwargs, IsName keyword.1.toList)
    (hvalues : ∀ keyword ∈ kwargs, p keyword.2) :
    ∀ argument ∈ arguments args kwargs, Argument.Over p argument := by
  simp only [arguments, List.forall_mem_append, List.forall_mem_map]
  exact ⟨hargs, fun keyword hkeyword => ⟨hkeys keyword hkeyword, hvalues keyword hkeyword⟩⟩

/-- No argument starts with what may come after one. -/
theorem Argument.Over.append_ne_cons {argument : Argument}
    (h : Argument.Over p argument) (hp : ∀ a, p a → a.IsExpression) {c : Char} (hc : c ∈ closers)
    (rest more : List Char) : Argument.chars argument ++ rest ≠ c :: more := by
  cases argument with
  | inl node => exact (hp node h).append_ne_cons (List.mem_cons_of_mem _ hc) rest more
  | inr keyword =>
      have hplain : ∀ c ∈ closers, isNameChar c = false := by decide
      obtain ⟨name, value⟩ := keyword
      intro heq
      refine h.1.append_ne_cons (hplain c hc) ('=' :: (value.chars ++ rest)) more ?_
      rw [← heq]
      simp [Argument.chars]

/-- What is written like a keyword argument is no other argument. -/
theorem Separated.append_ne_keyword (h : Separated p q) {a : Node} {keyword : String × Node} (ha : p a)
    (hname : IsName keyword.1.toList) (hvalue : q keyword.2) (hr : Closed r) :
    Argument.chars (.inl a) ++ r ≠ Argument.chars (.inr keyword) ++ s := by
  intro heq
  have heq : a.chars ++ r = Node.argumentChars keyword ++ s := heq
  obtain ⟨name, value⟩ := keyword
  obtain ⟨opening, hopens⟩ := (h.left a ha).exists_opens_true
  rw [Node.argumentChars_mk, List.append_assoc, List.cons_append] at heq
  have hhead := hopens.head?_of_eq_keyword hname hr heq
  obtain ⟨more, hmore⟩ := List.head?_eq_some_iff.mp hhead
  exact (h.right value hvalue).append_ne_cons (by decide) s more hmore

theorem Separated.agree_arguments (h : Separated p q) {a b : Argument}
    (ha : Argument.Over p a) (hb : Argument.Over q b) :
    Agree Argument.chars a b := by
  intro r s hr hs heq
  cases a with
  | inl a =>
      cases b with
      | inl b => exact (h.agree a b ha hb hr hs heq).imp_left (congrArg Sum.inl)
      | inr keyword => exact absurd heq (h.append_ne_keyword ha hb.1 hb.2 hr)
  | inr keyword =>
      cases b with
      | inl b => exact absurd heq.symm (h.symm.append_ne_keyword hb ha.1 ha.2 hs)
      | inr other =>
          obtain ⟨name, value⟩ := keyword
          obtain ⟨name', value'⟩ := other
          have hname : IsName name.toList := ha.1
          have hname' : IsName name'.toList := hb.1
          have hequals : ∀ c ∈ ('=' :: (value.chars ++ r)).head?, isNameChar c = false := by
            rintro _ ⟨⟩
            decide
          have hequals' : ∀ c ∈ ('=' :: (value'.chars ++ s)).head?, isNameChar c = false := by
            rintro _ ⟨⟩
            decide
          have heq' : name.toList ++ '=' :: (value.chars ++ r) =
              name'.toList ++ '=' :: (value'.chars ++ s) := by
            simpa [Argument.chars] using heq
          obtain ⟨hnames, hvalues⟩ := hname.append_inj hname' hequals hequals' heq'
          obtain ⟨rfl, rfl⟩ :=
            h.agree value value' ha.2 hb.2 hr hs (List.cons.inj hvalues).2
          exact ⟨by rw [String.toList_injective hnames], rfl⟩

/-- A trailer ends where no name goes on. -/
theorem Trailer.append_inj (h : Separated p q) {a b : Trailer} (ha : a.Over p) (hb : b.Over q)
    (hr : ∀ c ∈ r.head?, isNameChar c = false) (hs : ∀ c ∈ s.head?, isNameChar c = false)
    (heq : a.chars ++ r = b.chars ++ s) : a = b ∧ r = s := by
  cases a with
  | member name =>
      cases b with
      | member name' =>
          obtain ⟨hnames, rfl⟩ := IsName.append_inj ha hb hr hs (List.cons.inj heq).2
          exact ⟨by rw [String.toList_injective hnames], rfl⟩
      | _ => cases heq
  | subscript index =>
      cases b with
      | subscript index' =>
          have heq' : index.chars ++ ']' :: r = index'.chars ++ ']' :: s := by
            simpa [chars] using heq
          obtain ⟨rfl, -, rfl⟩ := (h.agree index index' ha hb).of_cons (by decide) (by decide) heq'
          exact ⟨rfl, rfl⟩
      | _ => cases heq
  | call args kwargs =>
      cases b with
      | call args' kwargs' =>
          obtain ⟨hargs, hkeys, hvalues⟩ := ha
          obtain ⟨hargs', hkeys', hvalues'⟩ := hb
          have heq' : Form.commas ((arguments args kwargs).map Argument.chars) ++ ')' :: r =
              Form.commas ((arguments args' kwargs').map Argument.chars) ++ ')' :: s := by
            simpa [chars, map_arguments] using heq
          have harguments := forall_mem_arguments hargs hkeys hvalues
          have harguments' := forall_mem_arguments hargs' hkeys' hvalues'
          obtain ⟨hsame, rfl⟩ := commas_append_inj (by decide) (by decide)
            (fun a ha b hb => h.agree_arguments (harguments a ha) (harguments' b hb))
            (fun a ha => (harguments a ha).append_ne_cons h.left (by decide))
            (fun b hb => (harguments' b hb).append_ne_cons h.right (by decide)) heq'
          obtain ⟨rfl, rfl⟩ := arguments_inj hsame
          exact ⟨rfl, rfl⟩
      | _ => cases heq

theorem Trailer.flatMap_append_inj (h : Separated p q) {trailers others : List Trailer}
    (htrailers : ∀ trailer ∈ trailers, trailer.Over p) (hothers : ∀ other ∈ others, other.Over q)
    (hr : Ended r) (hs : Ended s)
    (heq : trailers.flatMap chars ++ r = others.flatMap chars ++ s) : trailers = others ∧ r = s := by
  have hstop (trailer : Trailer) {more rest : List Char} (hrest : Ended rest) :
      trailer.chars ++ more ≠ rest := by
    rintro rfl
    obtain ⟨c, tail, hchars, hc⟩ := trailer.exists_cons
    rw [hchars] at hrest
    exact (hrest.head?_ne c rfl).2 hc
  induction trailers generalizing others with
  | nil =>
      cases others with
      | nil => exact ⟨rfl, heq⟩
      | cons other others =>
          rw [List.flatMap_cons, List.append_assoc] at heq
          exact absurd heq.symm (hstop other hr)
  | cons trailer trailers ih =>
      obtain ⟨htrailer, htrailers⟩ := List.forall_mem_cons.mp htrailers
      cases others with
      | nil =>
          rw [List.flatMap_cons, List.append_assoc] at heq
          exact absurd heq (hstop trailer hs)
      | cons other others =>
          obtain ⟨hother, hothers'⟩ := List.forall_mem_cons.mp hothers
          rw [List.flatMap_cons, List.flatMap_cons, List.append_assoc, List.append_assoc] at heq
          obtain ⟨rfl, hrest⟩ := Trailer.append_inj h htrailer hother
            (head?_flatMap trailers hr) (head?_flatMap others hs) heq
          obtain ⟨rfl, rfl⟩ := ih htrailers hothers' hrest
          exact ⟨rfl, rfl⟩

theorem Node.LeafOver.append_inj (h : Separated p q) {a b : Node} (ha : a.LeafOver p) (hb : b.LeafOver q)
    (hr : Ended r) (hs : Ended s) (heq : a.chars ++ r = b.chars ++ s) : a = b ∧ r = s := by
  obtain ⟨text, trailers, htext, htrailers, rfl, hchars⟩ := ha.exists_chars
  obtain ⟨text', trailers', htext', htrailers', rfl, hchars'⟩ := hb.exists_chars
  rw [hchars, hchars'] at heq
  obtain ⟨htexts, heq⟩ := htext.append_inj htext' (Trailer.head?_flatMap trailers hr)
    (Trailer.head?_flatMap trailers' hs) heq
  obtain ⟨rfl, rfl⟩ := Trailer.flatMap_append_inj h htrailers htrailers' hr hs heq
  exact ⟨by rw [String.toList_injective htexts], rfl⟩

theorem Node.OperandOver.append_inj (h : Separated p q) {a b : Node} (ha : a.OperandOver p)
    (hb : b.OperandOver q) (hr : Ended r) (hs : Ended s)
    (heq : a.operandChars ++ r = b.operandChars ++ s) : a = b ∧ r = s := by
  -- a leaf starts with a name and a group with a parenthesis
  have hgroup {p : Node → Prop} {leaf : Node} (h : leaf.LeafOver p) (rest more : List Char) :
      leaf.chars ++ rest ≠ '(' :: more := by
    obtain ⟨text, trailers, htext, -, -, hchars⟩ := h.exists_chars
    rw [hchars]
    exact htext.append_ne_cons (by decide) _ _
  cases haleaf : a.isLeaf with
  | true =>
      rw [operandChars_of_leaf haleaf] at heq
      cases hbleaf : b.isLeaf with
      | true =>
          rw [operandChars_of_leaf hbleaf] at heq
          exact LeafOver.append_inj h (ha.leaf haleaf) (hb.leaf hbleaf) hr hs heq
      | false =>
          rw [operandChars_of_group hbleaf] at heq
          exact absurd heq (hgroup (ha.leaf haleaf) _ _)
  | false =>
      rw [operandChars_of_group haleaf] at heq
      cases hbleaf : b.isLeaf with
      | true =>
          rw [operandChars_of_leaf hbleaf] at heq
          exact absurd heq.symm (hgroup (hb.leaf hbleaf) _ _)
      | false =>
          rw [operandChars_of_group hbleaf] at heq
          obtain ⟨rfl, -, rfl⟩ := (h.agree a b (ha.group haleaf) (hb.group hbleaf)).of_cons
            (by decide) (by decide) (List.cons.inj heq).2
          exact ⟨rfl, rfl⟩

theorem Tail.append_inj (h : Separated p q) {a b : Tail} (ha : a.Over p) (hb : b.Over q) (hr : Closed r)
    (hs : Closed s) (heq : a.chars ++ r = b.chars ++ s) : a = b ∧ r = s := by
  -- a connective does not close an expression
  have hsome {p : Node → Prop} {next : Connective × Node} (hnext : Over p (some next))
      {rest more : List Char} (hmore : Closed more) : chars (some next) ++ rest ≠ more := by
    rintro rfl
    obtain ⟨c, symbol, hsymbol, hc⟩ := Connective.exists_symbol (hnext next rfl).1
    rw [chars, hsymbol] at hmore
    have hnot : ∀ c ∈ Connective.symbolStarts, c ∉ closers := by decide
    exact hnot c hc (hmore c rfl)
  cases a with
  | none =>
      cases b with
      | none => exact ⟨rfl, heq⟩
      | some next => exact absurd heq.symm (hsome hb hr)
  | some next =>
      cases b with
      | none => exact absurd heq (hsome ha hs)
      | some next' =>
          obtain ⟨i, x⟩ := next
          obtain ⟨j, y⟩ := next'
          obtain ⟨hi, hx⟩ := ha _ rfl
          obtain ⟨hj, hy⟩ := hb _ rfl
          rw [chars, chars, List.append_assoc, List.append_assoc] at heq
          have hnot : IsName "not".toList := by decide
          obtain ⟨rfl, hrest⟩ := Connective.symbol_append_inj hi hj (hx.exists_cons r)
            (hx.append_ne_word hnot hr) (hy.exists_cons s) (hy.append_ne_word hnot hs) heq
          obtain ⟨rfl, rfl⟩ := Node.OperandOver.append_inj h hx hy hr.ended hs.ended hrest
          exact ⟨rfl, rfl⟩

/-! ### Whole expressions -/

/-- Displays of items between brackets. -/
theorem Separated.items_append_inj (h : Separated p q) {items others : List Node}
    (hitems : ∀ item ∈ items, p item) (hothers : ∀ other ∈ others, q other) (close : Char)
    (hclose : close ∈ closers) (hcomma : close ≠ ',')
    (heq : Form.commas (items.map Node.chars) ++ close :: r =
      Form.commas (others.map Node.chars) ++ close :: s) : items = others ∧ r = s :=
  commas_append_inj hclose hcomma
    (fun a ha b hb => h.agree a b (hitems a ha) (hothers b hb))
    (fun a ha => (h.left a (hitems a ha)).append_ne_cons (List.mem_cons_of_mem _ hclose))
    (fun b hb => (h.right b (hothers b hb)).append_ne_cons (List.mem_cons_of_mem _ hclose)) heq

theorem Separated.agree_tuples (h : Separated p q) {items others : List Node}
    (hitems : ∀ item ∈ items, p item) (hothers : ∀ other ∈ others, q other) :
    Agree Node.chars (.display .tuple items) (.display .tuple others) := by
  have hempty (r : List Char) : (Node.display .tuple []).chars ++ r = '(' :: ')' :: r := rfl
  have hcons (item : Node) (items : List Node) (r : List Char) :
      (Node.display .tuple (item :: items)).chars ++ r =
        '(' :: (item.chars ++ ',' :: (Form.commas (items.map Node.chars) ++ ')' :: r)) := by
    simp [Node.chars_tuple_cons]
  intro r s hr hs heq
  cases items with
  | nil =>
      cases others with
      | nil => exact ⟨rfl, List.append_cancel_left heq⟩
      | cons other others =>
          have hother := h.right other (hothers other (List.mem_cons_self ..))
          rw [hempty, hcons] at heq
          exact absurd (List.cons.inj heq).2.symm (hother.append_ne_cons (by decide) _ _)
  | cons item items =>
      obtain ⟨hitem, hitems⟩ := List.forall_mem_cons.mp hitems
      cases others with
      | nil =>
          rw [hempty, hcons] at heq
          exact absurd (List.cons.inj heq).2 ((h.left item hitem).append_ne_cons (by decide) _ _)
      | cons other others =>
          obtain ⟨hother, hothers'⟩ := List.forall_mem_cons.mp hothers
          rw [hcons, hcons] at heq
          obtain ⟨rfl, -, hrest⟩ := (h.agree item other hitem hother).of_cons (by decide)
            (by decide) (List.cons.inj heq).2
          obtain ⟨rfl, rfl⟩ :=
            h.items_append_inj hitems hothers' ')' (by decide) (by decide) hrest
          exact ⟨rfl, rfl⟩

theorem chars_grouped {first : Node} {next : Connective × Node} (hgroup : first.isLeaf = false)
    (rest : List Char) :
    (Tail.node first (some next)).chars ++ rest =
      '(' :: (first.chars ++ ')' :: (Tail.chars (some next) ++ rest)) := by
  have hchars : (Tail.node first (some next)).chars =
      first.operandChars ++ Tail.chars (some next) := next.1.chars_node first next.2
  rw [hchars, List.append_assoc, Node.operandChars_of_group hgroup]

/-- A tuple has a comma behind its first item, where a group ends. -/
theorem Separated.tuple_ne_grouped (h : Separated p q) {items : List Node} {first : Node}
    {next : Connective × Node} (hitems : ∀ item ∈ items, p item) (hgroup : first.isLeaf = false)
    (hfirst : q first) :
    (Node.display .tuple items).chars ++ r ≠ (Tail.node first (some next)).chars ++ s := by
  intro heq
  rw [chars_grouped hgroup] at heq
  cases items with
  | nil =>
      have hempty : (Node.display .tuple []).chars ++ r = '(' :: ')' :: r := rfl
      rw [hempty] at heq
      exact (h.right first hfirst).append_ne_cons (by decide) _ _ (List.cons.inj heq).2.symm
  | cons item items =>
      rw [Node.chars_tuple_cons, List.cons_append, List.append_assoc, List.cons_append] at heq
      have hitem := hitems item (List.mem_cons_self ..)
      obtain ⟨-, hmark, -⟩ := (h.agree item first hitem hfirst).of_cons (by decide) (by decide)
        (List.cons.inj heq).2
      exact absurd hmark (by decide)

def entryChars (entry : Node × Node) : List Char := entry.1.chars ++ ':' :: entry.2.chars

theorem chars_dict (entries : List (Node × Node)) :
    (Node.dict (entries.flatMap fun entry => [entry.2, entry.1])).chars =
      '{' :: (Form.commas (entries.map entryChars) ++ ['}']) := by
  have hentries : Form.entries ((entries.flatMap fun entry => [entry.2, entry.1]).map Node.chars) =
      entries.map entryChars := by
    induction entries with
    | nil => rfl
    | cons entry entries ih => exact congrArg (entryChars entry :: ·) ih
  rw [← hentries, ← Node.listChars_eq]
  rfl

theorem Separated.agree_entries (h : Separated p q) {a b : Node × Node} (hkey : p a.1) (hvalue : p a.2)
    (hkey' : q b.1) (hvalue' : q b.2) : Agree entryChars a b := by
  intro r s hr hs heq
  obtain ⟨key, value⟩ := a
  obtain ⟨key', value'⟩ := b
  rw [entryChars, entryChars, List.append_assoc, List.append_assoc] at heq
  obtain ⟨rfl, -, hrest⟩ := (h.agree key key' hkey hkey').of_cons (by decide) (by decide) heq
  obtain ⟨rfl, rfl⟩ := h.agree value value' hvalue hvalue' hr hs hrest
  exact ⟨rfl, rfl⟩

theorem Separated.agree_dicts (h : Separated p q) {entries others : List (Node × Node)}
    (hkeys : ∀ entry ∈ entries, p entry.1) (hvalues : ∀ entry ∈ entries, p entry.2)
    (hkeys' : ∀ entry ∈ others, q entry.1) (hvalues' : ∀ entry ∈ others, q entry.2) :
    Agree Node.chars (.dict (entries.flatMap fun entry => [entry.2, entry.1]))
      (.dict (others.flatMap fun entry => [entry.2, entry.1])) := by
  have hstart {p : Node → Prop} (hp : ∀ a, p a → a.IsExpression) {entry : Node × Node}
      (hkey : p entry.1) (rest more : List Char) : entryChars entry ++ rest ≠ '}' :: more := by
    rw [entryChars, List.append_assoc]
    exact (hp entry.1 hkey).append_ne_cons (by decide) _ _
  intro r s hr hs heq
  rw [chars_dict, chars_dict, List.cons_append, List.cons_append, List.append_assoc,
    List.append_assoc, List.singleton_append, List.singleton_append] at heq
  have hclose : '}' ∈ closers := by decide
  obtain ⟨rfl, rfl⟩ := commas_append_inj hclose (by decide)
    (fun a ha b hb => h.agree_entries (hkeys a ha) (hvalues a ha) (hkeys' b hb) (hvalues' b hb))
    (fun a ha => hstart h.left (hkeys a ha)) (fun b hb => hstart h.right (hkeys' b hb))
    (List.cons.inj heq).2
  exact ⟨rfl, rfl⟩

/-- A dictionary has a colon behind its first key. -/
theorem Separated.set_ne_dict (h : Separated p q) {items : List Node} {entries : List (Node × Node)}
    (hitems : ∀ item ∈ items, p item) (hne : items ≠ []) (hkeys : ∀ entry ∈ entries, q entry.1) :
    (Node.display .set items).chars ++ r ≠
      (Node.dict (entries.flatMap fun entry => [entry.2, entry.1])).chars ++ s := by
  intro heq
  obtain ⟨item, items, rfl⟩ := List.exists_cons_of_ne_nil hne
  have hitem := hitems item (List.mem_cons_self ..)
  rw [chars_dict, Node.chars_set hne, List.map_cons, Form.commas_cons] at heq
  simp only [List.cons_append, List.append_assoc, List.nil_append, List.cons.injEq, true_and] at heq
  cases entries with
  | nil => exact (h.left item hitem).append_ne_cons (by decide) _ _ heq
  | cons entry entries =>
      simp only [List.map_cons, Form.commas_cons, entryChars, List.append_assoc,
        List.cons_append] at heq
      obtain ⟨-, hrest⟩ := h.agree item entry.1 hitem (hkeys entry (List.mem_cons_self ..))
        (closed_items (by decide) (items.map Node.chars) r) (closed_cons (by decide) _) heq
      cases items with
      | nil => exact absurd (List.cons.inj hrest).1 (by decide)
      | cons next items => exact absurd (List.cons.inj hrest).1 (by decide)

/-- A leaf named like a negation has no blank behind it that belongs to an operand. -/
theorem negation_ne_chain {leaf operand : Node} {tail : Tail} (hoperand : operand.OperandOver p)
    (hleaf : leaf.LeafOver q) (htail : tail.Over q) (hr : Closed r) (hs : Closed s) :
    (Node.unary .not operand).chars ++ r ≠ (tail.node leaf).chars ++ s := by
  intro heq
  have hnegation : (Node.unary .not operand).chars ++ r =
      "not".toList ++ ' ' :: (operand.operandChars ++ r) := rfl
  have hnot : IsName "not".toList := by decide
  rw [hnegation, Tail.chars_node hleaf.isLeaf, List.append_assoc] at heq
  have hblank := hleaf.rest_eq hnot (by decide) (by decide) (Tail.ended htail hs) heq.symm
  cases tail with
  | none =>
      rw [show s = ' ' :: (operand.operandChars ++ r) from hblank] at hs
      exact absurd (hs ' ' rfl) (by decide)
  | some next =>
      obtain ⟨hmem, -⟩ := htail next rfl
      obtain ⟨c, symbol, hsymbol, -⟩ := Connective.exists_symbol hmem
      rw [Tail.chars, List.append_assoc] at hblank
      have hspace : next.1.symbol.head? = some ' ' := by
        rw [hsymbol] at hblank ⊢
        rw [(List.cons.inj hblank).1]
        rfl
      obtain ⟨word, more, hword, hwords⟩ := Connective.exists_word hmem hspace
      rw [hwords, List.cons_append, List.append_assoc, List.cons_append] at hblank
      exact hoperand.append_ne_word hword hr _ (List.cons.inj hblank).2.symm

theorem unary_append_inj (h : Separated p q) (op : UnaryOperator) {operand other : Node}
    (hoperand : operand.OperandOver p) (hother : other.OperandOver q) (hr : Closed r)
    (hs : Closed s) (heq : (Node.unary op operand).chars ++ r = (Node.unary op other).chars ++ s) :
    Node.unary op operand = Node.unary op other ∧ r = s := by
  have hchars (operand : Node) (rest : List Char) : (Node.unary op operand).chars ++ rest =
      op.symbol.toList ++ (operand.operandChars ++ rest) := List.append_assoc ..
  rw [hchars, hchars] at heq
  obtain ⟨rfl, rfl⟩ := Node.OperandOver.append_inj h hoperand hother hr.ended hs.ended
    (List.append_cancel_left heq)
  exact ⟨rfl, rfl⟩

/-- The operators in front differ in their first characters. -/
theorem eq_of_sign_append {op op' : UnaryOperator}
    (heq : op.symbol.toList ++ r = op'.symbol.toList ++ s) : op = op' := by
  have hsigns : ∀ op ∈ UnaryOperator.all, ∀ op' ∈ UnaryOperator.all,
      op.symbol.toList.head? = op'.symbol.toList.head? → op = op' := by decide
  have hne : ∀ op ∈ UnaryOperator.all, op.symbol.toList ≠ [] := by decide
  have hhead := congrArg List.head? heq
  rw [List.head?_append_of_ne_nil _ (hne op op.mem_all),
    List.head?_append_of_ne_nil _ (hne op' op'.mem_all)] at hhead
  exact hsigns op op.mem_all op' op'.mem_all hhead

/-- Expressions that open alike agree if those in them do. -/
theorem Opens.agree (h : Separated p q) {opening : Opening} {a b : Node} (ha : Opens p opening a)
    (hb : Opens q opening b) : Agree Node.chars a b := by
  intro r s hr hs heq
  cases ha with
  | @chain leaf tail hleaf htail =>
      cases hb with
      | @chain leaf' tail' hleaf' htail' =>
          rw [Tail.chars_node hleaf.isLeaf, Tail.chars_node hleaf'.isLeaf, List.append_assoc,
            List.append_assoc] at heq
          obtain ⟨rfl, hrest⟩ := Node.LeafOver.append_inj h hleaf hleaf' (Tail.ended htail hr)
            (Tail.ended htail' hs) heq
          obtain ⟨rfl, rfl⟩ := Tail.append_inj h htail htail' hr hs hrest
          exact ⟨rfl, rfl⟩
      | negation hoperand => exact absurd heq.symm (negation_ne_chain hoperand hleaf htail hs hr)
  | @negation operand hoperand =>
      cases hb with
      | chain hleaf htail => exact absurd heq (negation_ne_chain hoperand hleaf htail hr hs)
      | @negation operand' hoperand' =>
          exact unary_append_inj h .not hoperand hoperand' hr hs heq
  | @signed op operand hop hoperand =>
      cases hb with
      | @signed op' operand' hop' hoperand' =>
          have hsigns : op.symbol.toList ++ (operand.operandChars ++ r) =
              op'.symbol.toList ++ (operand'.operandChars ++ s) := by
            rw [← List.append_assoc, ← List.append_assoc]
            exact heq
          obtain rfl := eq_of_sign_append hsigns
          exact unary_append_inj h op hoperand hoperand' hr hs heq
  | @grouped first next hgroup hfirst hnext =>
      cases hb with
      | @grouped first' next' hgroup' hfirst' hnext' =>
          rw [chars_grouped hgroup, chars_grouped hgroup'] at heq
          obtain ⟨rfl, -, hrest⟩ := (h.agree first first' hfirst hfirst').of_cons (by decide)
            (by decide) (List.cons.inj heq).2
          obtain ⟨hnexts, rfl⟩ := Tail.append_inj h hnext hnext' hr hs hrest
          exact ⟨by rw [hnexts], rfl⟩
      | tuple hitems' =>
          exact absurd heq.symm (h.symm.tuple_ne_grouped hitems' hgroup hfirst)
  | tuple hitems =>
      cases hb with
      | grouped hgroup' hfirst' hnext' =>
          exact absurd heq (h.tuple_ne_grouped hitems hgroup' hfirst')
      | tuple hitems' => exact h.agree_tuples hitems hitems' hr hs heq
  | list hitems =>
      cases hb with
      | list hitems' =>
          rw [Node.chars_list, Node.chars_list, List.cons_append, List.cons_append,
            List.append_assoc, List.append_assoc] at heq
          obtain ⟨rfl, rfl⟩ := h.items_append_inj hitems hitems' ']' (by decide) (by decide)
            (List.cons.inj heq).2
          exact ⟨rfl, rfl⟩
  | set hitems hne =>
      cases hb with
      | set hitems' hne' =>
          rw [Node.chars_set hne, Node.chars_set hne', List.cons_append, List.cons_append,
            List.append_assoc, List.append_assoc] at heq
          obtain ⟨rfl, rfl⟩ := h.items_append_inj hitems hitems' '}' (by decide) (by decide)
            (List.cons.inj heq).2
          exact ⟨rfl, rfl⟩
      | dict hkeys' hvalues' => exact absurd heq (h.set_ne_dict hitems hne hkeys')
  | dict hkeys hvalues =>
      cases hb with
      | set hitems' hne' => exact absurd heq.symm (h.symm.set_ne_dict hitems' hne' hkeys)
      | dict hkeys' hvalues' => exact h.agree_dicts hkeys hvalues hkeys' hvalues' hr hs heq

end Parts

namespace Node

/-- An expression that is read back from its text, whatever closes it. -/
def IsToldApart (node : Node) : Prop :=
  node.IsExpression ∧ ∀ other : Node, other.IsExpression → Agree chars node other

theorem separated_isToldApart : Separated IsToldApart IsExpression :=
  ⟨fun _ h => h.1, fun _ h => h, fun _ other h => h.2 other⟩

/-- If those in it are told apart from all expressions, so is the expression itself. -/
theorem isToldApart_of_opens {node : Node} (hnode : node.IsExpression)
    (h : ∃ opening, Opens IsToldApart opening node) : node.IsToldApart := by
  refine ⟨hnode, fun other hother r s hr hs heq => ?_⟩
  obtain ⟨opening, hopens⟩ := h
  obtain ⟨opening', hopens'⟩ := hother.exists_opens fun _ h _ => h
  obtain ⟨c, rest, hchars, hc⟩ := hopens.exists_cons
  obtain ⟨c', rest', hchars', hc'⟩ := hopens'.exists_cons
  -- both texts have the same first character, which tells how they open
  have hhead : c = c' := by
    rw [hchars, hchars'] at heq
    exact (List.cons.inj heq).1
  obtain rfl : opening = opening' := Option.some.inj (hc.symm.trans (hhead ▸ hc'))
  exact hopens.agree separated_isToldApart hopens' hr hs heq

theorem IsExpression.isToldApart {node : Node} (h : node.IsExpression) : node.IsToldApart :=
  isToldApart_of_opens h (h.exists_opens fun _ => isToldApart_of_opens)

/-- Expressions with the same text are the same. -/
theorem eq_of_render_eq {a b : Node} (ha : a.IsExpression) (hb : b.IsExpression)
    (h : a.render = b.render) : a = b := by
  have hchars : a.chars ++ [] = b.chars ++ [] := by
    rw [List.append_nil, List.append_nil]
    exact String.ofList_injective h
  have hclosed : Closed [] := fun _ hc => by cases hc
  exact (ha.isToldApart.2 b hb hclosed hclosed hchars).1

/-- A display in a call with a keyword argument that is a comparison, next to a negation, which is put
together in two ways. -/
theorem eq_of_render_eq_negation :
    let x := Node.atom "x"
    let called (key : Node) : Node :=
      .call (.attribute x "f") [.dict [.tuple [x], key]] [("k", .comparison "==" x x)]
    let written := Node.comparison "is" (called (.unary .not x)) (.unary .not x)
    let built := Node.comparison "is" (called x.negation) x.negation
    (written.IsExpression ∧ built.IsExpression ∧ written.render = built.render) ∧
      written.render = "x.f(\x7bnot x:(x,)\x7d,k=x==x) is (not x)" ∧ written = built := by
  intro x called written built
  have hx : x.IsExpression := .atom (isName_of_isIdentifier (by decide))
  have hnot : (Node.unary .not x).IsExpression := .unary hx
  have htuple : (Node.tuple [x]).IsExpression :=
    .display (List.forall_mem_singleton.mpr hx) (fun h => by cases h)
  have hdict : (Node.dict [.tuple [x], .unary .not x]).IsExpression :=
    .dict (List.forall_mem_cons.mpr ⟨htuple, List.forall_mem_singleton.mpr hnot⟩) (by decide)
  have hcalled : (called (.unary .not x)).IsExpression :=
    .call (.member hx rfl (by decide)) rfl (List.forall_mem_singleton.mpr hdict)
      (List.forall_mem_singleton.mpr (by decide))
      (List.forall_mem_singleton.mpr (.comparison (by decide) hx hx))
  have hwritten : written.IsExpression := .comparison (by decide) hcalled hnot
  exact ⟨⟨hwritten, hwritten, rfl⟩, by decide, eq_of_render_eq hwritten hwritten rfl⟩

/-- An attribute whose name has a point in it looks like an attribute of an attribute. -/
theorem render_eq_of_dotted :
    let a := Node.atom "a"
    let dotted := Node.attribute a "b.c"
    let nested := Node.attribute (.attribute a "b") "c"
    (a.IsExpression ∧ a.isLeaf = true ∧ nested.IsExpression) ∧
      dotted.render = nested.render ∧ dotted ≠ nested := by
  intro a dotted nested
  have ha : a.IsExpression := .atom (by decide)
  have hnested : nested.IsExpression := .member (.member ha rfl (by decide)) rfl (by decide)
  have hne : dotted ≠ nested := fun h => absurd (Node.attribute.inj h).2 (by decide)
  exact ⟨⟨ha, rfl, hnested⟩, rfl, hne⟩

end Node

end Decompiler
