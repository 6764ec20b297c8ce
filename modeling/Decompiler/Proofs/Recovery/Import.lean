import Decompiler.Proofs.Recovery.Goto
import Decompiler.Proofs.Source.Import
import Decompiler.Proofs.Text.Reading

/-!
Absolute imports are recovered. The step of an import takes in what binds its names, so each import
makes one statement. Nothing that an import loads is a name, so it has no parameters.
-/

namespace Decompiler

open Walk

/-! ### Paths -/

theorem Component.forall_ne_dot (component : Component) :
    ∀ c ∈ component.text.toList, decide (c = '.') = false := by
  intro c hc
  rw [decide_eq_false_iff_not]
  rintro rfl
  exact component.no_dot hc

theorem ModulePath.components_text (path : ModulePath) :
    components path.text = path.first.text :: path.deeper.map Component.text := by
  obtain ⟨first, deeper⟩ := path
  rw [components, text, String.toList_ofList]
  dsimp only
  induction deeper generalizing first with
  | nil =>
      rw [dotted, Text.split_of_forall_not first.forall_ne_dot]
      simp
  | cons next deeper ih =>
      rw [dotted, Text.split_append_cons first.forall_ne_dot (by decide), List.map_cons, ih]
      simp

theorem ModulePath.text_eq_first {path : ModulePath} (h : path.deeper = []) :
    path.text = path.first.text := by
  rw [text, h, dotted, String.ofList_toList]

/-- A path of several names has a dot in it. -/
theorem ModulePath.text_ne {path : ModulePath} (h : path.deeper ≠ []) (name : Component) :
    name.text ≠ path.text := by
  intro heq
  obtain ⟨first, deeper⟩ := path
  cases deeper with
  | nil => exact h rfl
  | cons next deeper =>
      have hdot := name.no_dot
      rw [heq, text, String.toList_ofList, dotted] at hdot
      simp at hdot

variable {code : Code} {n : Nat} {ins : Instruction} {state : State}

/-! ### What binds the names -/

/-- An import with the code behind it makes this node, binds these names, and takes in as many
instructions. -/
def FormsImport (ins : Instruction) (path : ModulePath) (ahead : Code) (node : Node)
    (bound : List String) (swallows : Nat) : Prop :=
  importForm ins path.text ahead =
    .ok { Effect.replace 2 node with mentions := bound.map .store, swallows }

theorem forms_store (ins : Instruction) (path : ModulePath) {store : Store} {name : String}
    (hfits : FitsAt code n [.named store.mnemonic name]) :
    FormsImport ins path (code.drop n)
      (.importStmt path.text
        (if name = path.text || some path.first.text = some name then none else some name))
      [name] 1 := by
  obtain ⟨next, hnext, hop⟩ := hfits.head
  have hstore : next.opcode? = some .store :=
    hop.opcode?.trans (Store.ofName?_mnemonic store)
  have hname : next.argval = some name := hop.operands
  rw [FormsImport, Code.drop_eq_cons hnext, importForm, hstore]
  dsimp only
  rw [Instruction.requireName_eq_ok.mpr hname, ok_bind, importModule, path.components_text]
  rfl

/-- The walk down a path ends at the name that is bound. -/
theorem submoduleName?_descent {deeper : List Component} {store : Store} {name : String}
    (hfits : FitsAt code n (Import.descent deeper ++ [.named store.mnemonic name])) :
    submoduleName? (deeper.map Component.text) (code.drop n) = some name := by
  induction deeper generalizing n with
  | nil =>
      obtain ⟨next, hnext, hop⟩ := hfits.head
      have hstore : next.opcode? = some .store :=
        hop.opcode?.trans (Store.ofName?_mnemonic store)
      rw [Code.drop_eq_cons hnext]
      exact Instruction.storedName?_eq_some.mpr ⟨hstore, hop.operands⟩
  | cons component deeper ih =>
      obtain ⟨source, hsource, hfrom⟩ := hfits.head
      obtain ⟨swap, hswap, hrot⟩ := hfits.tail.head
      obtain ⟨drop, hdrop, hpop⟩ := hfits.tail.tail.head
      have hname : source.argval = some component.text := hfrom.operands
      rw [Code.drop_eq_cons hsource, Code.drop_eq_cons hswap, Code.drop_eq_cons hdrop,
        List.map_cons, submoduleName?, hfrom.is_eq_true (Import.opcode?_from _), hname, hrot.opname,
        hpop.opname, ih hfits.tail.tail.tail]
      simp [Operation.opname]

theorem forms_descent {path : ModulePath} {store : Store} {name : Component}
    (hdeeper : path.deeper ≠ [])
    (hfits : FitsAt code n (Import.descent path.deeper ++ [.named store.mnemonic name.text])) :
    FormsImport ins path (code.drop n) (.importStmt path.text (some name.text)) [name.text]
      (3 * path.deeper.length + 1) := by
  have hwalk := submoduleName?_descent hfits
  obtain ⟨component, deeper, heq⟩ := List.exists_cons_of_ne_nil hdeeper
  rw [heq] at hfits
  obtain ⟨next, hnext, hop⟩ := hfits.head
  have hnextop : next.opcode? = some .importFrom := hop.opcode?.trans (Import.opcode?_from _)
  rw [Code.drop_eq_cons hnext] at hwalk
  rw [FormsImport, Code.drop_eq_cons hnext, importForm, hnextop]
  dsimp only
  rw [path.components_text, List.drop_succ_cons, List.drop_zero, hwalk, List.length_map]
  rfl

/-- The name is an alias if it is not the path itself, which it can be only where the path is a single
name. -/
theorem forms_aliased {path : ModulePath} {store : Store} {name : Component}
    (hfits : FitsAt code n (Import.descent path.deeper ++ [.named store.mnemonic name.text])) :
    FormsImport ins path (code.drop n) (.importStmt path.text (alias? path.text name.text))
      [name.text] (3 * path.deeper.length + 1) := by
  by_cases hdeeper : path.deeper = []
  · rw [hdeeper] at hfits
    have hpath : path.text = path.first.text := path.text_eq_first hdeeper
    have hforms := forms_store ins path hfits
    rw [hdeeper, alias?]
    simpa [hpath, eq_comm] using hforms
  · rw [alias?, if_neg (path.text_ne hdeeper name)]
    exact forms_descent hdeeper hfits

/-- The names are read up to what comes behind their pairs. -/
theorem importedNames_bindings {imports : List ImportedBinding} {op : Operation}
    (hop : op.opcode? ≠ some .importFrom)
    (hfits : FitsAt code n (imports.flatMap ImportedBinding.ops ++ [op])) :
    importedNames ins (code.drop n) = .ok (imports.map ImportedBinding.node) := by
  induction imports generalizing n with
  | nil =>
      obtain ⟨next, hnext, hnextop⟩ := hfits.head
      have hfrom : next.is .importFrom = false := by
        rw [hnextop.is_eq, decide_eq_false hop]
      rw [Code.drop_eq_cons hnext]
      cases code.drop (n + 1) with
      | nil => simp [importedNames, hfrom]
      | cons store ahead => simp [importedNames, hfrom]
  | cons imported imports ih =>
      obtain ⟨source, hsource, hfrom⟩ := hfits.head
      obtain ⟨store, hstore, hbind⟩ := hfits.tail.head
      have hsourceop : source.is .importFrom = true := hfrom.is_eq_true (Import.opcode?_from _)
      have hstoreop : store.isStore = true :=
        hbind.is_eq_true (Store.ofName?_mnemonic imported.binding.store)
      have hname : source.argval = some imported.name.text := hfrom.operands
      have hbound : store.argval = some imported.binding.name := hbind.operands
      rw [Code.drop_eq_cons hsource, Code.drop_eq_cons hstore, importedNames,
        if_pos (by rw [hsourceop, hstoreop, Bool.and_self]),
        Instruction.requireName_eq_ok.mpr hname, ok_bind, Instruction.requireName_eq_ok.mpr hbound,
        ok_bind, ih hfits.tail.tail]
      rfl

/-- The three look-aheads begin alike. What follows the first `IMPORT_FROM` tells the pairs of names
from the walk down a path. -/
theorem submoduleName?_eq_none {source swap : Instruction} {deeper : List String} {ahead : Code}
    (hsource : source.opcode? = some .importFrom) (hswap : swap.opname ≠ "ROT_TWO") :
    submoduleName? deeper (source :: swap :: ahead) = none := by
  cases deeper with
  | nil => simp [submoduleName?, Instruction.storedName?, Instruction.isStore, Instruction.is, hsource]
  | cons component deeper =>
      cases ahead with
      | nil => rfl
      | cons drop ahead => simp [submoduleName?, hswap]

theorem ImportedBinding.bound_node (imported : ImportedBinding) :
    imported.node.bound = imported.binding.name := by
  rw [ImportedName.bound, node, alias?]
  split
  · next heq => exact heq.symm
  · rfl

theorem forms_names {path : ModulePath} {first : ImportedBinding} {rest : List ImportedBinding}
    (hfits : FitsAt code n ((first :: rest).flatMap ImportedBinding.ops ++ [.bare "POP_TOP"])) :
    FormsImport ins path (code.drop n)
      (.fromImport path.text ((first :: rest).map ImportedBinding.node))
      ((first :: rest).map fun imported => imported.binding.name) (2 * (first :: rest).length) := by
  have hnames : importedNames ins (code.drop n) = .ok _ :=
    importedNames_bindings (by decide) hfits
  obtain ⟨source, hsource, hfrom⟩ := hfits.head
  obtain ⟨store, hstore, hbind⟩ := hfits.tail.head
  have hsourceop : source.opcode? = some .importFrom := hfrom.opcode?.trans (Import.opcode?_from _)
  have hswap : store.opname ≠ "ROT_TWO" := by
    rw [hbind.opname]
    cases hkind : first.binding.store <;> simp [Binding.op, hkind, Operation.opname, Store.mnemonic]
  rw [Code.drop_eq_cons hsource, Code.drop_eq_cons hstore] at hnames ⊢
  rw [FormsImport, importForm, hsourceop]
  dsimp only
  rw [submoduleName?_eq_none hsourceop hswap]
  dsimp only
  rw [hnames, ok_bind]
  have hbound : ((first :: rest).map ImportedBinding.node).map (fun imported => .store imported.bound) =
      ((first :: rest).map fun imported => imported.binding.name).map Mention.store := by
    rw [List.map_map, List.map_map]
    exact List.map_congr_left fun imported _ => congrArg Mention.store imported.bound_node
  rw [← hbound, ← List.length_map ImportedBinding.node]
  rfl

theorem forms_star {path : ModulePath} (hfits : FitsAt code n [.bare "IMPORT_STAR"]) :
    FormsImport ins path (code.drop n) (.fromImport path.text [{ name := "*" }]) [] 1 := by
  obtain ⟨next, hnext, hop⟩ := hfits.head
  have hopcode : (Operation.bare "IMPORT_STAR").opcode? = some .importStar := rfl
  have hnextop : next.opcode? = some .importStar := hop.opcode?.trans hopcode
  rw [FormsImport, Code.drop_eq_cons hnext, importForm, hnextop]
  rfl

/-! ### Whole imports -/

/-- A constant that is no name leaves the signature as it is. -/
theorem reaches_constant {text : String} (hpending : state.pending = [])
    (hname : Signature.isName text = false) (hins : code[n]? = some ins)
    (hop : (Operation.named Load.const.mnemonic text).Fits ins) :
    Reaches {} code (n, state) (n + 1, state.pushed (.atom text) ins.offset state.signature) := by
  have hval : ins.argval = some text := hop.operands
  have hload : effect {} code ins (code.drop (n + 1)) state =
      .ok { Effect.replace 0 (.atom text) with mentions := [.load false text] } := by
    rw [effect_of_fits hop (Load.ofName?_mnemonic .const), opcodeEffect, load, hval,
      Expr.loadedName_eq_id rfl rfl]
    rfl
  have hreaches := reaches_replace state _ hins (by simp [hpending]) hload
  simpa [Signature.mention, hname, State.pushed] using hreaches

/-- The import takes its two constants off the stack and puts the node there that it makes. It marks
the names that it binds. -/
theorem reaches_header {path : ModulePath} {listed : String} {node : Node} {bound : List String}
    {swallows : Nat} (hpending : state.pending = []) (hlisted : Signature.isName listed = false)
    (hfits : FitsAt code n (Import.header path listed))
    (hforms : ∀ ins, FormsImport ins path (code.drop (n + 3)) node bound swallows) :
    ∃ offset seen, Reaches {} code (n, state)
      (n + 3 + swallows, state.pushed node offset { state.signature with seen }) := by
  obtain ⟨level, hlevel, hlevelop⟩ := hfits.head
  obtain ⟨names, hnames, hnamesop⟩ := hfits.tail.head
  obtain ⟨ins, hins, hop⟩ := hfits.tail.tail.head
  have hpath : ins.argval = some path.text := hop.operands
  have hopcode : (Operation.named "IMPORT_NAME" path.text).opcode? = some .importName := rfl
  let loaded := (state.pushed (.atom "0") level.offset state.signature).pushed (.atom listed)
    names.offset state.signature
  have hloaded : Reaches {} code (n, state) (n + 2, loaded) :=
    (reaches_constant hpending (by decide) hlevel hlevelop).trans
      (reaches_constant hpending hlisted hnames hnamesop)
  have himport : effect {} code ins (code.drop (n + 2 + 1)) loaded =
      .ok { Effect.replace 2 node with mentions := bound.map .store, swallows } := by
    rw [effect_of_fits hop hopcode, opcodeEffect, importName, Instruction.requireName_eq_ok.mpr hpath,
      ← hforms ins]
    rfl
  have hreaches := hloaded.trans (reaches_effect loaded hins (by simp [loaded, hpending]) himport)
  refine ⟨ins.offset, bound.reverse ++ state.signature.seen, ?_⟩
  simpa [State.apply, Effect.replace, loaded, State.pushed, Signature.foldl_mention_store]
    using hreaches

theorem isName_listedNames (names : List Keyword) :
    Signature.isName (Expr.listedNames names) = false := by
  rw [Signature.isName, Expr.listedNames, String.toList_ofList]
  rfl

theorem reaches_popTop (state : State) (hpending : state.pending = [])
    (hfits : FitsAt code n [.bare "POP_TOP"]) : Reaches {} code (n, state) (n + 1, state) := by
  obtain ⟨ins, hins, hop⟩ := hfits.head
  have hopcode : (Operation.bare "POP_TOP").opcode? = some .popTop := rfl
  have hpass : effect {} code ins (code.drop (n + 1)) state = .ok {} := by
    rw [effect_of_fits hop hopcode]
    rfl
  exact reaches_pass state hins (by simp [hpending]) hpass

/-- The code of an import leaves its node. -/
theorem Import.reaches (i : Import) (hpending : state.pending = []) (hfits : FitsAt code n i.ops) :
    ∃ offset seen, Reaches {} code (n, state)
      (n + i.ops.length, state.pushed i.node offset { state.signature with seen }) := by
  cases i with
  | module path store =>
      have hforms (ins : Instruction) : FormsImport ins path (code.drop (n + 3))
          (.importStmt path.text none) [path.first.text] 1 := by
        have hstore := forms_store ins path hfits.append_right
        rwa [if_pos (by simp)] at hstore
      exact reaches_header hpending (by decide) hfits.append_left hforms
  | aliased path store name =>
      obtain ⟨offset, seen, hreaches⟩ := reaches_header hpending (by decide) hfits.append_left
        fun ins => forms_aliased hfits.append_right
      have hlength : n + 3 + (3 * path.deeper.length + 1) =
          n + (aliased path store name).ops.length := by
        simp [ops, header, length_descent]
        omega
      exact ⟨offset, seen, hlength ▸ hreaches⟩
  | names path first rest =>
      obtain ⟨offset, seen, hreaches⟩ := reaches_header hpending (isName_listedNames _)
        hfits.append_left fun ins => forms_names hfits.append_right
      have hpop := reaches_popTop
        (state.pushed (names path first rest).node offset { state.signature with seen }) hpending
        hfits.append_right.append_right
      have hend : n + 3 + 2 * (first :: rest).length + 1 = n + (names path first rest).ops.length := by
        rw [ops, List.length_append, List.length_append, length_bindingOps, ← Nat.add_assoc,
          ← Nat.add_assoc]
        rfl
      rw [length_bindingOps] at hpop
      exact ⟨offset, seen, hend ▸ hreaches.trans hpop⟩
  | star path =>
      exact reaches_header hpending (by decide) hfits.append_left fun ins =>
        forms_star hfits.append_right

theorem reaches_imports (imports : List Import) (state : State) (hpending : state.pending = [])
    (hfits : FitsAt code n (imports.flatMap Import.ops)) :
    ∃ (statements : List Statement) (seen : List String),
      statements.map Statement.line = imports.map (fun i => (state.indent.toNat, i.node)) ∧
      Reaches {} code (n, state)
        (n + (imports.flatMap Import.ops).length,
          { state with
            stack := statements.reverse ++ state.stack
            signature := { state.signature with seen } }) := by
  induction imports generalizing n state with
  | nil => exact ⟨[], state.signature.seen, rfl, Reaches.refl _ _ _⟩
  | cons i imports ih =>
      obtain ⟨offset, seen, himport⟩ := i.reaches hpending hfits.append_left
      obtain ⟨statements, seen', hlines, hrest⟩ :=
        ih (state.pushed i.node offset { state.signature with seen }) hpending
          hfits.append_right
      refine ⟨⟨state.indent.toNat, i.node, offset⟩ :: statements, seen', ?_, ?_⟩
      · rw [List.map_cons, List.map_cons, hlines]
        rfl
      · rw [List.flatMap_cons, List.length_append, ← Nat.add_assoc]
        have hreaches := himport.trans hrest
        simpa [State.pushed] using hreaches

/-- Imports that are compiled one after the other are recovered, each as one statement at the margin
with its module, its names and their aliases. There are no parameters. -/
theorem reconstruct_imports (imports : List Import) (code : Code)
    (hcompiled : List.Forall₂ Operation.Fits (imports.flatMap Import.ops) code) :
    ∃ result, reconstruct {} code = .ok result ∧
      result.statements.map Statement.line = imports.map (fun i => (0, i.node)) ∧
      result.args = [] := by
  obtain ⟨statements, seen, hlines, hreaches⟩ :=
    reaches_imports imports {} rfl (.of_compiled hcompiled)
  rw [Nat.zero_add, hcompiled.length_eq] at hreaches
  refine ⟨_, reconstruct_of_reaches rfl hreaches, ?_, rfl⟩
  simpa using hlines

/-- One import of each form, and an import from a module that is bound as a whole before. -/
theorem reconstruct_imports_forms :
    let code : Code :=
      [{ offset := 0, opname := "LOAD_CONST", argval := some "0" },
        { offset := 2, opname := "LOAD_CONST", argval := some "None" },
        { offset := 4, opname := "IMPORT_NAME", argval := some "os.path" },
        { offset := 6, opname := "STORE_NAME", argval := some "os" },
        { offset := 8, opname := "LOAD_CONST", argval := some "0" },
        { offset := 10, opname := "LOAD_CONST", argval := some "None" },
        { offset := 12, opname := "IMPORT_NAME", argval := some "numpy" },
        { offset := 14, opname := "STORE_NAME", argval := some "np" },
        { offset := 16, opname := "LOAD_CONST", argval := some "0" },
        { offset := 18, opname := "LOAD_CONST", argval := some "None" },
        { offset := 20, opname := "IMPORT_NAME", argval := some "os.path" },
        { offset := 22, opname := "IMPORT_FROM", argval := some "path" },
        { offset := 24, opname := "ROT_TWO" },
        { offset := 26, opname := "POP_TOP" },
        { offset := 28, opname := "STORE_NAME", argval := some "os" },
        { offset := 30, opname := "LOAD_CONST", argval := some "0" },
        { offset := 32, opname := "LOAD_CONST", argval := some "('path', 'sep')" },
        { offset := 34, opname := "IMPORT_NAME", argval := some "os" },
        { offset := 36, opname := "IMPORT_FROM", argval := some "path" },
        { offset := 38, opname := "STORE_NAME", argval := some "path" },
        { offset := 40, opname := "IMPORT_FROM", argval := some "sep" },
        { offset := 42, opname := "STORE_NAME", argval := some "s" },
        { offset := 44, opname := "POP_TOP" },
        { offset := 46, opname := "LOAD_CONST", argval := some "0" },
        { offset := 48, opname := "LOAD_CONST", argval := some "('*',)" },
        { offset := 50, opname := "IMPORT_NAME", argval := some "math" },
        { offset := 52, opname := "IMPORT_STAR" }]
    ∃ result, reconstruct {} code = .ok result ∧ result.args = [] ∧
      result.statements.map Statement.line =
        [(0, .importStmt "os.path" none), (0, .importStmt "numpy" (some "np")),
          (0, .importStmt "os.path" (some "os")),
          (0, .fromImport "os" [{ name := "path" }, { name := "sep", asName := some "s" }]),
          (0, .fromImport "math" [{ name := "*" }])] := by
  intro code
  let os : Component := ⟨"os", by decide⟩
  let path : Component := ⟨"path", by decide⟩
  let imports : List Import :=
    [.module ⟨os, [path]⟩ .name,
      .aliased ⟨⟨"numpy", by decide⟩, []⟩ .name ⟨"np", by decide⟩,
      .aliased ⟨os, [path]⟩ .name os,
      .names ⟨os, []⟩ ⟨⟨"path", by decide⟩, ⟨.name, "path"⟩⟩
        [⟨⟨"sep", by decide⟩, ⟨.name, "s"⟩⟩],
      .star ⟨⟨"math", by decide⟩, []⟩]
  have hcompiled : List.Forall₂ Operation.Fits (imports.flatMap Import.ops) code := by decide
  obtain ⟨result, hresult, hlines, hargs⟩ := reconstruct_imports imports code hcompiled
  refine ⟨result, hresult, hargs, ?_⟩
  rw [hlines]
  simp [imports, os, path, Import.node, ModulePath.text, ModulePath.dotted, alias?,
    ImportedBinding.node]

end Decompiler
