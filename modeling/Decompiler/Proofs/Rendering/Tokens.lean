import Decompiler.Proofs.Rendering.Unambiguous

/-!
Tokens of expressions. A text is read from left to right: an operand is to come, or one has come and
may be trailed by more. In either place the first characters tell the next token and where it ends, so
the tokens of a text are determined. Nothing tells how far to the left the base of a trailer reaches.
-/

namespace Decompiler

open Text

inductive Token where
  | name (word : String)
  | sign (op : UnaryOperator)
  /-- An operand in parentheses. -/
  | group (tokens : List Token)
  | member (field : String)
  | subscript (tokens : List Token)
  /-- The arguments of a call, some of them with a keyword. -/
  | call (arguments : List (Option String × List Token))
  | connective (c : Connective)

namespace Token

mutual

def chars : Token → List Char
  | name word => word.toList
  | sign op => op.symbol.toList
  | group tokens => '(' :: text tokens ++ [')']
  | member field => '.' :: field.toList
  | subscript tokens => '[' :: text tokens ++ [']']
  | call arguments => '(' :: Form.commas (argumentTexts arguments) ++ [')']
  | connective c => c.symbol

def text : List Token → List Char
  | [] => []
  | token :: rest => token.chars ++ text rest

def argumentTexts : List (Option String × List Token) → List (List Char)
  | [] => []
  | argument :: rest => argumentText argument :: argumentTexts rest

def argumentText : Option String × List Token → List Char
  | (some key, tokens) => key.toList ++ '=' :: text tokens
  | (none, tokens) => text tokens

end

@[simp] theorem text_append (tokens more : List Token) :
    text (tokens ++ more) = text tokens ++ text more := by
  induction tokens with
  | nil => rfl
  | cons token rest ih => rw [List.cons_append, text, text, ih, List.append_assoc]

theorem text_singleton (token : Token) : text [token] = token.chars := by
  rw [text, text, List.append_nil]

@[simp] theorem argumentTexts_eq (arguments : List (Option String × List Token)) :
    argumentTexts arguments = arguments.map argumentText := by
  induction arguments with
  | nil => rfl
  | cons argument rest ih => rw [argumentTexts, ih, List.map_cons]

end Token

/-! ### Sequences of tokens -/

/-- A name that is not the word of an operator in front. -/
structure Text.IsWord (text : List Char) : Prop extends IsName text where
  ne_not : text ≠ "not".toList

instance (text : List Char) : Decidable (IsWord text) :=
  decidable_of_iff (IsName text ∧ text ≠ "not".toList)
    ⟨fun h => ⟨h.1, h.2⟩, fun h => ⟨h.toIsName, h.ne_not⟩⟩

/-- The connectives that do not read like another one with an operator in front of the operand. -/
def Connective.plain : List Connective := all.filter (· ≠ comparison "is not")

/-- Whether an operand is to come or has come. -/
inductive Slot where
  | operand
  | behind

namespace Token

/-- What is written from some place in an expression to its end. -/
inductive Sequence : Slot → List Token → Prop
  | name {word : String} {rest : List Token} (hword : IsWord word.toList)
      (hrest : Sequence .behind rest) : Sequence .operand (.name word :: rest)
  | sign {op : UnaryOperator} {rest : List Token} (hrest : Sequence .operand rest) :
      Sequence .operand (.sign op :: rest)
  | group {tokens rest : List Token} (htokens : Sequence .operand tokens)
      (hrest : Sequence .behind rest) : Sequence .operand (.group tokens :: rest)
  | done : Sequence .behind []
  | member {field : String} {rest : List Token} (hfield : IsName field.toList)
      (hrest : Sequence .behind rest) : Sequence .behind (.member field :: rest)
  | subscript {tokens rest : List Token} (htokens : Sequence .operand tokens)
      (hrest : Sequence .behind rest) : Sequence .behind (.subscript tokens :: rest)
  | call {arguments : List (Option String × List Token)} {rest : List Token}
      (hkeys : ∀ argument ∈ arguments, ∀ key ∈ argument.1, IsName key.toList)
      (hvalues : ∀ argument ∈ arguments, Sequence .operand argument.2)
      (hrest : Sequence .behind rest) : Sequence .behind (.call arguments :: rest)
  | connective {c : Connective} {rest : List Token} (hc : c ∈ Connective.plain)
      (hrest : Sequence .operand rest) : Sequence .behind (.connective c :: rest)

/-- What comes behind an operand makes a longer expression of it. -/
theorem Sequence.append {slot : Slot} {tokens more : List Token} (h : Sequence slot tokens)
    (hmore : Sequence .behind more) : Sequence slot (tokens ++ more) := by
  induction h with
  | name hword _ ih => exact .name hword ih
  | sign _ ih => exact .sign ih
  | group htokens _ _ ih => exact .group htokens ih
  | done => exact hmore
  | member hfield _ ih => exact .member hfield ih
  | subscript htokens _ _ ih => exact .subscript htokens ih
  | call hkeys hvalues _ _ ih => exact .call hkeys hvalues ih
  | connective hc _ ih => exact .connective hc ih

/-! ### What the first character tells -/

theorem exists_symbol (op : UnaryOperator) :
    ∃ c rest, op.symbol.toList = c :: rest ∧ (opening? c).isSome = true := by
  cases op <;> exact ⟨_, _, rfl, by decide⟩

/-- Where an operand is to come, an expression opens. -/
theorem Sequence.exists_cons {tokens : List Token} (h : Sequence .operand tokens) (r : List Char) :
    ∃ c rest, text tokens ++ r = c :: rest ∧ (opening? c).isSome = true := by
  cases h with
  | @name word rest hword =>
      obtain ⟨c, more, hmore, hc⟩ := hword.exists_cons
      refine ⟨c, more ++ text rest ++ r, ?_, ?_⟩
      · rw [text, chars, hmore]
        rfl
      · rw [opening?, if_pos hc]
        rfl
  | @sign op rest =>
      obtain ⟨c, symbol, hsymbol, hc⟩ := exists_symbol op
      refine ⟨c, symbol ++ text rest ++ r, ?_, hc⟩
      rw [text, chars, hsymbol]
      rfl
  | group => exact ⟨'(', _, rfl, rfl⟩

/-- No expression starts with what comes after one, or with an equals sign. -/
theorem Sequence.append_ne_cons {tokens : List Token} (h : Sequence .operand tokens) {c : Char}
    (hc : c ∈ '=' :: closers) (r rest : List Char) : text tokens ++ r ≠ c :: rest := by
  have hnone : ∀ c ∈ '=' :: closers, opening? c = none := by decide
  obtain ⟨d, more, htext, hd⟩ := h.exists_cons r
  intro heq
  rw [htext] at heq
  rw [(List.cons.inj heq).1, hnone c hc] at hd
  cases hd

inductive Mark where
  | stop
  | member
  | subscript
  | call
  | connective
  deriving DecidableEq

/-- What a character behind an operand starts. -/
def mark (c : Char) : Mark :=
  if c ∈ Connective.symbolStarts then .connective
  else if c = '.' then .member
  else if c = '[' then .subscript
  else if c = '(' then .call
  else .stop

def firstMark : List Token → Mark
  | .member _ :: _ => .member
  | .subscript _ :: _ => .subscript
  | .call _ :: _ => .call
  | .connective _ :: _ => .connective
  | _ => .stop

theorem mem_all_of_mem_plain {c : Connective} (h : c ∈ Connective.plain) : c ∈ Connective.all :=
  List.mem_of_mem_filter h

theorem Sequence.head?_behind {tokens : List Token} (h : Sequence .behind tokens) {r : List Char}
    (hr : Closed r) :
    (text tokens ++ r).head?.elim .stop mark = firstMark tokens ∧
      ∀ c ∈ (text tokens ++ r).head?, isNameChar c = false := by
  cases h with
  | done =>
      have hclosers : ∀ c ∈ closers, mark c = .stop ∧ isNameChar c = false := by decide
      rw [text, List.nil_append]
      refine ⟨?_, fun c hc => (hclosers c (hr c hc)).2⟩
      cases hhead : r.head? with
      | none => rfl
      | some c => exact (hclosers c (hr c hhead)).1
  | member => exact ⟨rfl, by rintro _ ⟨⟩; rfl⟩
  | subscript => exact ⟨rfl, by rintro _ ⟨⟩; rfl⟩
  | call => exact ⟨rfl, by rintro _ ⟨⟩; rfl⟩
  | @connective c rest hc =>
      have hstarts : ∀ c ∈ Connective.symbolStarts, isNameChar c = false := by decide
      obtain ⟨d, symbol, hsymbol, hd⟩ := Connective.exists_symbol (mem_all_of_mem_plain hc)
      rw [text, chars, hsymbol]
      refine ⟨if_pos hd, ?_⟩
      rintro _ ⟨⟩
      exact hstarts d hd

/-! ### Where tokens end -/

/-- A connective ends where an operand begins. -/
theorem plain_append_inj {i j : Connective} (hi : i ∈ Connective.plain) (hj : j ∈ Connective.plain)
    {t u : List Char} (ht : ∃ c rest, t = c :: rest ∧ (opening? c).isSome = true)
    (hu : ∃ c rest, u = c :: rest ∧ (opening? c).isSome = true)
    (heq : i.symbol ++ t = j.symbol ++ u) : i = j ∧ t = u := by
  -- where a symbol starts like a longer one, what is left of this starts no operand
  have hall : ∀ i ∈ Connective.plain, ∀ j ∈ Connective.plain,
      ∀ rest ∈ i.symbol.isPrefixOf? j.symbol,
        (∀ c ∈ rest.head?, (opening? c).isSome = true) → i = j := by
    decide +kernel
  refine Connective.symbol_append_inj_of (fun rest hsymbol hrest => ?_)
    (fun rest hsymbol hrest => ?_) heq
  · exact hall i hi j hj rest (List.isPrefixOf?_eq_some_iff_append_eq.mpr hsymbol.symm)
      (Connective.forall_head?_of_append ht hrest)
  · exact hall j hj i hi rest (List.isPrefixOf?_eq_some_iff_append_eq.mpr hsymbol.symm)
      (Connective.forall_head?_of_append hu hrest)

/-- No name reads like an operator in front. -/
theorem sign_append_ne_word (op : UnaryOperator) {word : List Char} (hword : IsWord word)
    {rest : List Char} (hrest : ∀ c ∈ rest.head?, isNameChar c = false) (more : List Char) :
    op.symbol.toList ++ more ≠ word ++ rest := by
  intro heq
  cases op with
  | positive => exact hword.append_ne_cons (by decide) _ _ heq.symm
  | negative => exact hword.append_ne_cons (by decide) _ _ heq.symm
  | invert => exact hword.append_ne_cons (by decide) _ _ heq.symm
  | not =>
      have hnot : IsName "not".toList := by decide
      have heq' : "not".toList ++ ' ' :: more = word ++ rest := heq
      exact hword.ne_not (hnot.append_inj hword.toIsName (by rintro _ ⟨⟩; decide) hrest heq').1.symm

/-- Only a comparison starts like a keyword argument, and it has an equals sign more. -/
theorem Sequence.head?_of_eq_keyword {tokens : List Token} (h : Sequence .operand tokens)
    {key r more : List Char} (hkey : IsName key) (hr : Closed r)
    (heq : text tokens ++ r = key ++ '=' :: more) : more.head? = some '=' := by
  have hequals : ∀ c ∈ ('=' :: more).head?, isNameChar c = false := by
    rintro _ ⟨⟩
    decide
  cases h with
  | @name word rest hword hrest =>
      rw [text, chars, List.append_assoc] at heq
      obtain ⟨-, heq⟩ := hword.append_inj hkey (hrest.head?_behind hr).2 hequals heq
      have hmark := (hrest.head?_behind hr).1
      rw [heq] at hmark
      cases hrest with
      | @connective c rest hc =>
          rw [text, chars, List.append_assoc] at heq
          exact Connective.head?_of_symbol_append (mem_all_of_mem_plain hc) heq
      | _ => cases hmark
  | @sign op rest =>
      cases op with
      | not =>
          have hnot : IsName "not".toList := by decide
          have heq' : "not".toList ++ ' ' :: (text rest ++ r) = key ++ '=' :: more := heq
          obtain ⟨-, hblank⟩ := hnot.append_inj hkey (by rintro _ ⟨⟩; decide) hequals heq'
          cases hblank
      | _ => exact absurd heq.symm (hkey.append_ne_cons (by decide) _ _)
  | group => exact absurd heq.symm (hkey.append_ne_cons (by decide) _ _)

/-! ### The tokens of a text -/

/-- What is known of an argument: its keyword is a name, and its value is an expression. -/
structure IsArgument (argument : Option String × List Token) : Prop where
  key : ∀ key ∈ argument.1, IsName key.toList
  value : Sequence .operand argument.2

/-- What is written like a keyword argument is no other argument. -/
theorem Sequence.append_ne_keyword {tokens value : List Token} (h : Sequence .operand tokens)
    (hvalue : Sequence .operand value) {key : String} (hkey : IsName key.toList) {r : List Char}
    (hr : Closed r) (s : List Char) :
    argumentText (none, tokens) ++ r ≠ argumentText (some key, value) ++ s := by
  intro heq
  rw [argumentText, argumentText, List.append_assoc, List.cons_append] at heq
  obtain ⟨more, hmore⟩ := List.head?_eq_some_iff.mp (h.head?_of_eq_keyword hkey hr heq)
  exact hvalue.append_ne_cons (by decide) s more hmore

/-- Arguments agree if their values do. -/
theorem IsArgument.agree {a b : Option String × List Token} (ha : IsArgument a)
    (hb : IsArgument b) (h : Agree text a.2 b.2) : Agree argumentText a b := by
  intro r s hr hs heq
  obtain ⟨key, value⟩ := a
  obtain ⟨key', value'⟩ := b
  cases key with
  | none =>
      cases key' with
      | none =>
          obtain ⟨rfl, rfl⟩ := h hr hs heq
          exact ⟨rfl, rfl⟩
      | some key' => exact absurd heq (ha.value.append_ne_keyword hb.value (hb.key key' rfl) hr s)
  | some key =>
      cases key' with
      | none =>
          exact absurd heq.symm (hb.value.append_ne_keyword ha.value (ha.key key rfl) hs r)
      | some key' =>
          rw [argumentText, argumentText, List.append_assoc, List.append_assoc, List.cons_append,
            List.cons_append] at heq
          obtain ⟨hkeys, hvalues⟩ := (ha.key key rfl).append_inj (hb.key key' rfl)
            (by rintro _ ⟨⟩; decide) (by rintro _ ⟨⟩; decide) heq
          obtain ⟨rfl, rfl⟩ := h hr hs (List.cons.inj hvalues).2
          exact ⟨by rw [String.toList_injective hkeys], rfl⟩

theorem IsArgument.append_ne_cons {argument : Option String × List Token} (h : IsArgument argument)
    {c : Char} (hc : c ∈ closers) (rest more : List Char) :
    argumentText argument ++ rest ≠ c :: more := by
  obtain ⟨key, value⟩ := argument
  cases key with
  | none => exact h.value.append_ne_cons (List.mem_cons_of_mem _ hc) rest more
  | some key =>
      have hplain : ∀ c ∈ closers, isNameChar c = false := by decide
      rw [argumentText, List.append_assoc]
      exact (h.key key rfl).append_ne_cons (hplain c hc) _ _

section Agree

variable {word word' field field' : String} {op op' : UnaryOperator} {c c' : Connective}
  {tokens tokens' rest rest' : List Token} {arguments arguments' : List (Option String × List Token)}

theorem agree_name (hword : IsWord word.toList) (hword' : IsWord word'.toList)
    (hrest : Sequence .behind rest) (hrest' : Sequence .behind rest') (h : Agree text rest rest') :
    Agree text (.name word :: rest) (.name word' :: rest') := by
  intro r s hr hs heq
  simp only [text, chars, List.append_assoc] at heq
  obtain ⟨hwords, hrests⟩ := hword.append_inj hword'.toIsName (hrest.head?_behind hr).2
    (hrest'.head?_behind hs).2 heq
  obtain ⟨rfl, rfl⟩ := h hr hs hrests
  exact ⟨by rw [String.toList_injective hwords], rfl⟩

theorem agree_sign (h : Agree text rest rest') :
    Agree text (.sign op :: rest) (.sign op' :: rest') := by
  intro r s hr hs heq
  simp only [text, chars, List.append_assoc] at heq
  obtain rfl := eq_of_sign_append heq
  obtain ⟨rfl, rfl⟩ := h hr hs (List.append_cancel_left heq)
  exact ⟨rfl, rfl⟩

/-- What is enclosed in brackets ends at the closing one. -/
theorem agree_enclosed {enclosed : List Token → Token} {opening closing : Char}
    (hchars : ∀ tokens, (enclosed tokens).chars = opening :: text tokens ++ [closing])
    (hclosing : closing ∈ closers) (htokens : Agree text tokens tokens') (h : Agree text rest rest') :
    Agree text (enclosed tokens :: rest) (enclosed tokens' :: rest') := by
  intro r s hr hs heq
  simp only [text, hchars, List.append_assoc, List.cons_append, List.nil_append] at heq
  obtain ⟨rfl, -, hrests⟩ := htokens.of_cons hclosing hclosing (List.cons.inj heq).2
  obtain ⟨rfl, rfl⟩ := h hr hs hrests
  exact ⟨rfl, rfl⟩

theorem agree_group (htokens : Agree text tokens tokens') (h : Agree text rest rest') :
    Agree text (.group tokens :: rest) (.group tokens' :: rest') :=
  agree_enclosed (fun _ => rfl) (by decide) htokens h

theorem agree_subscript (htokens : Agree text tokens tokens') (h : Agree text rest rest') :
    Agree text (.subscript tokens :: rest) (.subscript tokens' :: rest') :=
  agree_enclosed (fun _ => rfl) (by decide) htokens h

theorem agree_member (hfield : IsName field.toList) (hfield' : IsName field'.toList)
    (hrest : Sequence .behind rest) (hrest' : Sequence .behind rest') (h : Agree text rest rest') :
    Agree text (.member field :: rest) (.member field' :: rest') := by
  intro r s hr hs heq
  simp only [text, chars, List.append_assoc, List.cons_append] at heq
  obtain ⟨hfields, hrests⟩ := hfield.append_inj hfield' (hrest.head?_behind hr).2
    (hrest'.head?_behind hs).2 (List.cons.inj heq).2
  obtain ⟨rfl, rfl⟩ := h hr hs hrests
  exact ⟨by rw [String.toList_injective hfields], rfl⟩

theorem agree_call (harguments : ∀ a ∈ arguments, IsArgument a)
    (harguments' : ∀ b ∈ arguments', IsArgument b)
    (hvalues : ∀ a ∈ arguments, ∀ b ∈ arguments', Agree text a.2 b.2)
    (h : Agree text rest rest') : Agree text (.call arguments :: rest) (.call arguments' :: rest') := by
  intro r s hr hs heq
  simp only [text, chars, argumentTexts_eq, List.append_assoc, List.cons_append,
    List.nil_append] at heq
  obtain ⟨rfl, hrests⟩ := commas_append_inj (by decide) (by decide)
    (fun a ha b hb => (harguments a ha).agree (harguments' b hb) (hvalues a ha b hb))
    (fun a ha => (harguments a ha).append_ne_cons (by decide))
    (fun b hb => (harguments' b hb).append_ne_cons (by decide)) (List.cons.inj heq).2
  obtain ⟨rfl, rfl⟩ := h hr hs hrests
  exact ⟨rfl, rfl⟩

theorem agree_connective (hc : c ∈ Connective.plain) (hc' : c' ∈ Connective.plain)
    (hrest : Sequence .operand rest) (hrest' : Sequence .operand rest') (h : Agree text rest rest') :
    Agree text (.connective c :: rest) (.connective c' :: rest') := by
  intro r s hr hs heq
  simp only [text, chars, List.append_assoc] at heq
  obtain ⟨rfl, hrests⟩ :=
    plain_append_inj hc hc' (hrest.exists_cons r) (hrest'.exists_cons s) heq
  obtain ⟨rfl, rfl⟩ := h hr hs hrests
  exact ⟨rfl, rfl⟩

theorem agree_of_ne (h : ∀ r s, Closed r → Closed s → text tokens ++ r ≠ text tokens' ++ s) :
    Agree text tokens tokens' :=
  fun r s hr hs heq => absurd heq (h r s hr hs)

theorem agree_name_sign (hword : IsWord word.toList) (hrest : Sequence .behind rest) :
    Agree text (.name word :: rest) (.sign op :: rest') := by
  refine agree_of_ne fun r s hr hs => ?_
  simp only [text, chars, List.append_assoc]
  exact (sign_append_ne_word op hword (hrest.head?_behind hr).2 _).symm

theorem agree_name_group (hword : IsWord word.toList) :
    Agree text (.name word :: rest) (.group tokens :: rest') := by
  refine agree_of_ne fun r s hr hs => ?_
  simp only [text, chars, List.append_assoc]
  exact hword.append_ne_cons (by decide) _ _

theorem agree_sign_group : Agree text (.sign op :: rest) (.group tokens :: rest') := by
  refine agree_of_ne fun r s hr hs heq => ?_
  simp only [text, chars, List.append_assoc] at heq
  cases op <;> cases heq

/-- Behind an operand, different marks start different texts. -/
theorem agree_of_firstMark (h : Sequence .behind tokens) (h' : Sequence .behind tokens')
    (hagree : firstMark tokens = firstMark tokens' → Agree text tokens tokens') :
    Agree text tokens tokens' := by
  intro r s hr hs heq
  refine hagree ?_ hr hs heq
  rw [← (h.head?_behind hr).1, ← (h'.head?_behind hs).1, heq]

/-- A text determines its tokens and where they end. -/
theorem Sequence.agree {slot : Slot} (h : Sequence slot tokens) (h' : Sequence slot tokens') :
    Agree text tokens tokens' := by
  induction h generalizing tokens' with
  | name hword hrest ih =>
      cases h' with
      | name hword' hrest' => exact agree_name hword hword' hrest hrest' (ih hrest')
      | sign => exact agree_name_sign hword hrest
      | group => exact agree_name_group hword
  | sign hrest ih =>
      cases h' with
      | name hword' hrest' => exact (agree_name_sign hword' hrest').symm
      | sign hrest' => exact agree_sign (ih hrest')
      | group => exact agree_sign_group
  | group htokens hrest ihtokens ih =>
      cases h' with
      | name hword' => exact (agree_name_group hword').symm
      | sign => exact agree_sign_group.symm
      | group htokens' hrest' => exact agree_group (ihtokens htokens') (ih hrest')
  | done =>
      refine agree_of_firstMark .done h' fun hmark => ?_
      cases h' with
      | done => exact fun r s _ _ heq => ⟨rfl, heq⟩
      | _ => cases hmark
  | member hfield hrest ih =>
      refine agree_of_firstMark (.member hfield hrest) h' fun hmark => ?_
      cases h' with
      | member hfield' hrest' => exact agree_member hfield hfield' hrest hrest' (ih hrest')
      | _ => cases hmark
  | subscript htokens hrest ihtokens ih =>
      refine agree_of_firstMark (.subscript htokens hrest) h' fun hmark => ?_
      cases h' with
      | subscript htokens' hrest' => exact agree_subscript (ihtokens htokens') (ih hrest')
      | _ => cases hmark
  | call hkeys hvalues hrest ihvalues ih =>
      refine agree_of_firstMark (.call hkeys hvalues hrest) h' fun hmark => ?_
      cases h' with
      | call hkeys' hvalues' hrest' =>
          exact agree_call (fun a ha => ⟨hkeys a ha, hvalues a ha⟩)
            (fun b hb => ⟨hkeys' b hb, hvalues' b hb⟩)
            (fun a ha b hb => ihvalues a ha (hvalues' b hb)) (ih hrest')
      | _ => cases hmark
  | connective hc hrest ih =>
      refine agree_of_firstMark (.connective hc hrest) h' fun hmark => ?_
      cases h' with
      | connective hc' hrest' => exact agree_connective hc hc' hrest hrest' (ih hrest')
      | _ => cases hmark

end Agree

end Token

end Decompiler
