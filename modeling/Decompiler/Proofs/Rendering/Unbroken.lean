import Decompiler.Node.Render
import Decompiler.Proofs.Text.Unbroken

/-!
Nodes on one line. The text of a node has no line break of its own: if it has one, then in a name, a
constant or a mnemonic. And it is not empty, unless it is nothing but an empty name.
-/

namespace Decompiler

open Text

/-! ### Forms -/

namespace Form

variable {text first last : List Char} {texts : List (List Char)} {found other : Option (List Char)}

/-- Marks and words of the language are on one line. -/
theorem unbroken_comma : Unbroken [','] := by decide

theorem unbroken_none : Unbroken "None".toList := by decide

theorem unbroken_commas (h : ∀ text ∈ texts, Unbroken text) : Unbroken (commas texts) :=
  .intercalate unbroken_comma h

theorem unbroken_entries (h : ∀ text ∈ texts, Unbroken text) :
    ∀ entry ∈ entries texts, Unbroken entry := by
  fun_induction entries texts with
  | case1 value key rest ih =>
      obtain ⟨hvalue, hkey, hrest⟩ : Unbroken value ∧ Unbroken key ∧ ∀ text ∈ rest, Unbroken text := by
        simpa using h
      exact List.forall_mem_cons.mpr ⟨hkey.append (hvalue.cons (by decide)), ih hrest⟩
  | case2 => exact List.forall_mem_nil _

theorem unbroken_operand (leaf : Bool) (h : Unbroken text) : Unbroken (operand leaf text) := by
  cases leaf with
  | true => exact h
  | false => exact (h.cons (by decide)).append (by decide)

theorem unbroken_comparison (h : Unbroken text) : Unbroken (comparison text) := by
  unfold comparison
  split
  · exact (h.cons (by decide)).append (by decide)
  · exact h

theorem unbroken_display (kind : Container) (h : ∀ text ∈ texts, Unbroken text) :
    Unbroken (display kind texts) := by
  unfold display
  split
  · decide
  · next item =>
    have hitem := h item (List.mem_singleton_self item)
    exact (hitem.cons (by decide)).append (by decide)
  · have hcommas := unbroken_commas h
    cases kind with
    | list => exact (hcommas.cons (by decide)).append (by decide)
    | tuple => exact (hcommas.cons (by decide)).append (by decide)
    | set => exact (hcommas.cons (by decide)).append (by decide)

theorem unbroken_getD (h : ∀ text ∈ found, Unbroken text) (hnone : Unbroken text) :
    Unbroken (found.getD text) := by
  cases found with
  | none => exact hnone
  | some text => exact h text rfl

theorem unbroken_raising (h : ∀ text ∈ found, Unbroken text) (hcause : ∀ text ∈ other, Unbroken text) :
    Unbroken (raising found other) := by
  have hraise : Unbroken "raise ".toList := by decide
  unfold raising
  split
  · next exception cause =>
    exact ((hraise.append (h exception rfl)).append (by decide)).append (hcause cause rfl)
  · next exception => exact hraise.append (h exception rfl)
  · decide

theorem unbroken_goto (target : Nat) (h : ∀ text ∈ found, Unbroken text) :
    Unbroken (goto target found) := by
  have hif : Unbroken "if ".toList := by decide
  cases found with
  | none => exact .append (by decide) (unbroken_digits target)
  | some condition =>
      exact ((hif.append (h condition rfl)).append (by decide)).append (unbroken_digits target)

theorem unbroken_renamed {asName : Option String} (h : Unbroken text)
    (hname : ∀ name ∈ asName, Unbroken name.toList) : Unbroken (renamed text asName) := by
  cases asName with
  | none => exact h
  | some name => exact (h.append (by decide)).append (hname name rfl)

theorem unbroken_closure {target : String} {captured : List String} (h : Unbroken target.toList)
    (hcaptured : ∀ name ∈ captured, Unbroken name.toList) : Unbroken (closure target captured) := by
  have hlambda : Unbroken "(lambda *args,**kwargs:".toList := by decide
  have hnames : Unbroken (captured.flatMap fun name => name.toList ++ [',']) :=
    .flatMap fun name hname => (hcaptured name hname).append unbroken_comma
  exact ((hlambda.append h).append (hnames.cons (by decide))).append (by decide)

theorem unbroken_step {mark : Char} (hmark : mark ≠ '\n' ∧ mark ≠ '\r')
    (h : ∀ text ∈ found, Unbroken text) : Unbroken (step mark found) := by
  cases found with
  | none => exact unbroken_nil
  | some text => exact (h text rfl).cons hmark

theorem unbroken_placeholder {opname : String} (arg : Option Nat) {argval : Option String}
    (hopname : Unbroken opname.toList) (hargval : ∀ text ∈ argval, Unbroken text.toList) :
    Unbroken (placeholder opname arg argval) := by
  have harg : Unbroken ((arg.map digits).getD "None".toList) := by
    refine unbroken_getD (fun text htext => ?_) unbroken_none
    obtain ⟨n, -, rfl⟩ := Option.map_eq_some_iff.mp htext
    exact unbroken_digits n
  have htext : Unbroken ((argval.map String.toList).getD "None".toList) := by
    refine unbroken_getD (fun text htext => ?_) unbroken_none
    obtain ⟨name, hname, rfl⟩ := Option.map_eq_some_iff.mp htext
    exact hargval name hname
  exact (((hopname.cons (by decide)).append (harg.cons (by decide))).append
    (htext.cons (by decide))).append (by decide)

theorem operand_ne_nil (leaf : Bool) (h : text ≠ []) : operand leaf text ≠ [] := by
  cases leaf with
  | true => exact h
  | false => exact List.cons_ne_nil _ _

theorem display_ne_nil (kind : Container) (texts : List (List Char)) : display kind texts ≠ [] := by
  unfold display
  split
  · decide
  · simp
  · simp

theorem raising_ne_nil (exception cause : Option (List Char)) : raising exception cause ≠ [] := by
  unfold raising
  split
  · simp
  · simp
  · decide

theorem goto_ne_nil (target : Nat) (condition : Option (List Char)) : goto target condition ≠ [] := by
  unfold goto
  split
  · simp
  · simp

end Form

namespace Node

/-- A node in which no text has a line break and no name or constant is empty. -/
inductive IsUnbroken : Node → Prop
  | atom {text : String} (hne : text ≠ "") (htext : Unbroken text.toList) : IsUnbroken (.atom text)
  | member {object : Node} {name : String} (hobject : IsUnbroken object)
      (hname : Unbroken name.toList) : IsUnbroken (.attribute object name)
  | assign {target value : Node} (htarget : IsUnbroken target) (hvalue : IsUnbroken value) :
      IsUnbroken (.assign target value)
  | itemAssign {container key value : Node} (hcontainer : IsUnbroken container)
      (hkey : IsUnbroken key) (hvalue : IsUnbroken value) :
      IsUnbroken (.itemAssign container key value)
  | returnStmt {value : Node} (hvalue : IsUnbroken value) : IsUnbroken (.returnStmt value)
  | yieldStmt {value : Node} (hvalue : IsUnbroken value) : IsUnbroken (.yieldStmt value)
  | forHead {target iterator : Node} (htarget : IsUnbroken target)
      (hiterator : IsUnbroken iterator) : IsUnbroken (.forHead target iterator)
  | whileHead {condition : Node} (hcondition : IsUnbroken condition) :
      IsUnbroken (.whileHead condition)
  | ifHead {condition : Node} (hcondition : IsUnbroken condition) : IsUnbroken (.ifHead condition)
  | elifHead {condition : Node} (hcondition : IsUnbroken condition) :
      IsUnbroken (.elifHead condition)
  | elseHead : IsUnbroken .elseHead
  | breakStmt : IsUnbroken .breakStmt
  | continueStmt : IsUnbroken .continueStmt
  | importStmt {module : String} {asName : Option String} (hmodule : Unbroken module.toList)
      (hname : ∀ name ∈ asName, Unbroken name.toList) : IsUnbroken (.importStmt module asName)
  | fromImport {module : String} {names : List ImportedName} (hmodule : Unbroken module.toList)
      (hnames : ∀ imported ∈ names, Unbroken imported.chars) :
      IsUnbroken (.fromImport module names)
  | raiseStmt {exception cause : Option Node} (hexception : ∀ node ∈ exception, IsUnbroken node)
      (hcause : ∀ node ∈ cause, IsUnbroken node) : IsUnbroken (.raiseStmt exception cause)
  | goto {target : Nat} {condition : Option Node}
      (hcondition : ∀ node ∈ condition, IsUnbroken node) : IsUnbroken (.goto target condition)
  | display {kind : Container} {items : List Node} (hitems : ∀ item ∈ items, IsUnbroken item) :
      IsUnbroken (.display kind items)
  | dict {items : List Node} (hitems : ∀ item ∈ items, IsUnbroken item) : IsUnbroken (.dict items)
  | call {func : Node} {args : List Node} {kwargs : List (String × Node)}
      (hfunc : IsUnbroken func) (hargs : ∀ arg ∈ args, IsUnbroken arg)
      (hkeys : ∀ keyword ∈ kwargs, Unbroken keyword.1.toList)
      (hvalues : ∀ keyword ∈ kwargs, IsUnbroken keyword.2) : IsUnbroken (.call func args kwargs)
  | closure {target : String} {captured : List String} (htarget : Unbroken target.toList)
      (hcaptured : ∀ name ∈ captured, Unbroken name.toList) :
      IsUnbroken (.closure target captured)
  | iter {value : Node} (hvalue : IsUnbroken value) : IsUnbroken (.iter value)
  | splat {value : Node} (hvalue : IsUnbroken value) : IsUnbroken (.splat value)
  | doubleSplat {value : Node} (hvalue : IsUnbroken value) : IsUnbroken (.doubleSplat value)
  | slice {start stop step : Option Node} (hstart : ∀ node ∈ start, IsUnbroken node)
      (hstop : ∀ node ∈ stop, IsUnbroken node) (hstep : ∀ node ∈ step, IsUnbroken node) :
      IsUnbroken (.slice start stop step)
  | sliced {value : Node} {start stop step : Option Node} (hvalue : IsUnbroken value)
      (hstart : ∀ node ∈ start, IsUnbroken node) (hstop : ∀ node ∈ stop, IsUnbroken node)
      (hstep : ∀ node ∈ step, IsUnbroken node) : IsUnbroken (.sliced value start stop step)
  | subscript {value index : Node} (hvalue : IsUnbroken value) (hindex : IsUnbroken index) :
      IsUnbroken (.subscript value index)
  | comparison {op : String} {left right : Node} (hop : Unbroken op.toList)
      (hleft : IsUnbroken left) (hright : IsUnbroken right) :
      IsUnbroken (.comparison op left right)
  | unary {op : UnaryOperator} {operand : Node} (hoperand : IsUnbroken operand) :
      IsUnbroken (.unary op operand)
  | binary {op : BinaryOperator} {left right : Node} (hleft : IsUnbroken left)
      (hright : IsUnbroken right) : IsUnbroken (.binary op left right)
  | inplace {op : BinaryOperator} {target : String} {value : Node}
      (htarget : Unbroken target.toList) (hvalue : IsUnbroken value) :
      IsUnbroken (.inplace op target value)
  | placeholder {opname : String} {arg : Option Nat} {argval : Option String}
      (hopname : Unbroken opname.toList) (hargval : ∀ text ∈ argval, Unbroken text.toList) :
      IsUnbroken (.placeholder opname arg argval)

variable {node : Node}

theorem unbroken_symbol_unary (op : UnaryOperator) : Unbroken op.symbol.toList := by
  cases op <;> decide

theorem unbroken_symbol_binary (op : BinaryOperator) : Unbroken op.symbol.toList := by
  cases op <;> decide

theorem unbroken_optionChars {found : Option Node} (h : ∀ node ∈ found, Unbroken node.chars) :
    ∀ text ∈ optionChars found, Unbroken text := by
  rw [optionChars_eq]
  intro text htext
  obtain ⟨node, hnode, rfl⟩ := Option.map_eq_some_iff.mp htext
  exact h node hnode

theorem unbroken_listChars {nodes : List Node} (h : ∀ node ∈ nodes, Unbroken node.chars) :
    ∀ text ∈ listChars nodes, Unbroken text := by
  rw [listChars_eq]
  exact List.forall_mem_map.mpr h

theorem unbroken_keywordChars {keywords : List (String × Node)}
    (hkeys : ∀ keyword ∈ keywords, Unbroken keyword.1.toList)
    (hvalues : ∀ keyword ∈ keywords, Unbroken keyword.2.chars) :
    ∀ text ∈ keywordChars keywords, Unbroken text := by
  rw [keywordChars_eq]
  refine List.forall_mem_map.mpr fun keyword hkeyword => ?_
  have hkey := hkeys keyword hkeyword
  have hvalue := hvalues keyword hkeyword
  obtain ⟨name, value⟩ := keyword
  exact hkey.append (hvalue.cons (by decide))

theorem IsUnbroken.unbroken_chars (h : node.IsUnbroken) : Unbroken node.chars := by
  have hoption {found : Option Node} {mark : Char} (hmark : mark ≠ '\n' ∧ mark ≠ '\r')
      (h : ∀ node ∈ found, Unbroken node.chars) : Unbroken (Form.step mark (optionChars found)) :=
    Form.unbroken_step hmark (unbroken_optionChars h)
  induction h with
  | atom _ htext => exact htext
  | member _ hname ih => exact ih.append (hname.cons (by decide))
  | assign _ _ ih ihvalue => exact ih.append (ihvalue.cons (by decide))
  | itemAssign _ _ _ ih ihkey ihvalue =>
      exact ((ih.append (ihkey.cons (by decide))).append (by decide)).append ihvalue
  | returnStmt _ ih => exact .append (by decide) ih
  | yieldStmt _ ih => exact .append (by decide) ih
  | forHead _ _ ih ihiterator =>
      have hfor : Unbroken "for ".toList := by decide
      exact (((hfor.append ih).append (by decide)).append ihiterator).append (by decide)
  | whileHead _ ih =>
      have hwhile : Unbroken "while ".toList := by decide
      exact (hwhile.append ih).append (by decide)
  | ifHead _ ih =>
      have hif : Unbroken "if ".toList := by decide
      exact (hif.append ih).append (by decide)
  | elifHead _ ih =>
      have helif : Unbroken "elif ".toList := by decide
      exact (helif.append ih).append (by decide)
  | elseHead => exact (by decide : Unbroken "else:".toList)
  | breakStmt => exact (by decide : Unbroken "break".toList)
  | continueStmt => exact (by decide : Unbroken "continue".toList)
  | importStmt hmodule hname => exact .append (by decide) (Form.unbroken_renamed hmodule hname)
  | fromImport hmodule hnames =>
      have hfrom : Unbroken "from ".toList := by decide
      exact ((hfrom.append hmodule).append (by decide)).append
        (Form.unbroken_commas (List.forall_mem_map.mpr hnames))
  | raiseStmt _ _ ih ihcause =>
      exact Form.unbroken_raising (unbroken_optionChars ih) (unbroken_optionChars ihcause)
  | goto _ ih => exact Form.unbroken_goto _ (unbroken_optionChars ih)
  | display _ ih => exact Form.unbroken_display _ (unbroken_listChars ih)
  | dict _ ih =>
      have hentries := Form.unbroken_commas (Form.unbroken_entries (unbroken_listChars ih))
      exact (hentries.cons (by decide)).append (by decide)
  | call _ _ hkeys _ ih ihargs ihvalues =>
      have hargs := Form.unbroken_commas (List.forall_mem_append.mpr
        ⟨unbroken_listChars ihargs, unbroken_keywordChars hkeys ihvalues⟩)
      exact (ih.append (hargs.cons (by decide))).append (by decide)
  | closure htarget hcaptured => exact Form.unbroken_closure htarget hcaptured
  | iter _ ih =>
      have hiter : Unbroken "iter(".toList := by decide
      exact (hiter.append ih).append (by decide)
  | splat _ ih => exact ih.cons (by decide)
  | doubleSplat _ ih => exact (ih.cons (by decide)).cons (by decide)
  | slice _ _ _ ihstart ihstop ihstep =>
      have hslice : Unbroken "slice(".toList := by decide
      have hstart := Form.unbroken_getD (unbroken_optionChars ihstart) Form.unbroken_none
      have hstop := Form.unbroken_getD (unbroken_optionChars ihstop) Form.unbroken_none
      exact (((hslice.append hstart).append (hstop.cons (by decide))).append
        (hoption (by decide) ihstep)).append (by decide)
  | sliced _ _ _ _ ih ihstart ihstop ihstep =>
      have hstart := Form.unbroken_getD (unbroken_optionChars ihstart) unbroken_nil
      have hstop := Form.unbroken_getD (unbroken_optionChars ihstop) unbroken_nil
      exact (((ih.append (hstart.cons (by decide))).append (hstop.cons (by decide))).append
        (hoption (by decide) ihstep)).append (by decide)
  | subscript _ _ ih ihindex => exact (ih.append (ihindex.cons (by decide))).append (by decide)
  | comparison hop _ _ ihleft ihright =>
      exact ((Form.unbroken_operand _ ihleft).append (Form.unbroken_comparison hop)).append
        (Form.unbroken_operand _ ihright)
  | unary _ ih => exact (unbroken_symbol_unary _).append (Form.unbroken_operand _ ih)
  | binary _ _ ihleft ihright =>
      exact ((Form.unbroken_operand _ ihleft).append (unbroken_symbol_binary _)).append
        (Form.unbroken_operand _ ihright)
  | inplace htarget _ ih =>
      exact (htarget.append (unbroken_symbol_binary _)).append (ih.cons (by decide))
  | placeholder hopname hargval => exact Form.unbroken_placeholder _ hopname hargval

theorem IsUnbroken.chars_ne_nil (h : node.IsUnbroken) : node.chars ≠ [] := by
  have left {first : List Char} (last : List Char) (h : first ≠ []) : first ++ last ≠ [] :=
    List.append_ne_nil_of_left_ne_nil h last
  have right (first : List Char) {last : List Char} (h : last ≠ []) : first ++ last ≠ [] :=
    List.append_ne_nil_of_right_ne_nil first h
  induction h with
  | atom hne _ => exact fun hnil => hne (String.toList_eq_nil_iff.mp hnil)
  | elseHead => exact (by decide : "else:".toList ≠ [])
  | breakStmt => exact (by decide : "break".toList ≠ [])
  | continueStmt => exact (by decide : "continue".toList ≠ [])
  | raiseStmt _ _ _ _ => exact Form.raising_ne_nil _ _
  | goto _ _ => exact Form.goto_ne_nil _ _
  | display _ _ => exact Form.display_ne_nil _ _
  | comparison _ _ _ ih _ => exact left _ (left _ (Form.operand_ne_nil _ ih))
  | unary _ ih => exact right _ (Form.operand_ne_nil _ ih)
  | binary _ _ ih _ => exact left _ (left _ (Form.operand_ne_nil _ ih))
  | itemAssign _ _ _ _ _ _ => exact left _ (right _ (by decide))
  | fromImport _ _ => exact left _ (right _ (by decide))
  | returnStmt _ _ => exact left _ (by decide)
  | yieldStmt _ _ => exact left _ (by decide)
  | importStmt _ _ => exact left _ (by decide)
  | splat _ _ => exact List.cons_ne_nil _ _
  | doubleSplat _ _ => exact List.cons_ne_nil _ _
  | dict _ _ => exact List.cons_ne_nil _ _
  -- all others have a mark behind their first part
  | _ => exact right _ (List.cons_ne_nil _ _)

end Node

end Decompiler
