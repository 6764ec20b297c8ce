import Decompiler.Proofs.Listing.Unbroken
import Decompiler.Proofs.Rendering.Unbroken
import Decompiler.Proofs.Unpacking.Code
import Decompiler.Proofs.Walk.Course

/-!
Nodes on one line along a run. Every node that a step makes is put together from the texts of
instructions and from nodes on the stack. If the instructions have no line breaks, then all nodes on the
stack are on one line throughout.
-/

namespace Decompiler

open Text

theorem Text.IsField.atom {text : String} (h : IsField text) : (Node.atom text).IsUnbroken :=
  .atom h.ne_empty h.unbroken

/-! ### Targets -/

namespace Instruction

variable {ins : Instruction} {text : String}

theorem IsUnbroken.stored (h : ins.IsUnbroken) (hstored : ins.storedName? = some text) :
    IsField text := h.argval text (storedName?_eq_some.mp hstored).2

theorem IsUnbroken.name (h : ins.IsUnbroken) (hname : ins.requireName = .ok text) :
    IsField text := h.argval text (requireName_eq_ok.mp hname)

end Instruction

namespace Target

mutual

theorem IsCode.isUnbroken {target : Target} {block : List Instruction} (h : target.IsCode block)
    (hblock : ∀ ins ∈ block, ins.IsUnbroken) : target.node.IsUnbroken := by
  cases h with
  | name htext => exact ((List.forall_mem_singleton.mp hblock).stored htext).atom
  | tuple hop harg hitems h =>
      have hitems := h.isUnbroken (List.forall_mem_cons.mp hblock).2
      rw [node, nodes_eq]
      exact .display (List.forall_mem_map.mpr hitems)

theorem AreCodes.isUnbroken {targets : List Target} {block : List Instruction}
    (h : AreCodes targets block) (hblock : ∀ ins ∈ block, ins.IsUnbroken) :
    ∀ target ∈ targets, target.node.IsUnbroken := by
  cases h with
  | nil => exact List.forall_mem_nil _
  | cons head tail =>
      obtain ⟨hhead, htail⟩ := List.forall_mem_append.mp hblock
      exact List.forall_mem_cons.mpr ⟨head.isUnbroken hhead, tail.isUnbroken htail⟩

end

variable {ahead : List Instruction}

theorem isUnbroken_of_read? {target : Target} (h : read? ahead = some target)
    (hahead : ∀ ins ∈ ahead, ins.IsUnbroken) : target.node.IsUnbroken := by
  obtain ⟨block, rest, rfl, hcode⟩ := read?_eq_some_iff.mp h
  exact hcode.isUnbroken (List.forall_mem_append.mp hahead).1

theorem isField_of_storedNames? {n : Nat} {names : List String}
    (h : storedNames? ahead n = some names) (hahead : ∀ ins ∈ ahead, ins.IsUnbroken) :
    ∀ name ∈ names, IsField name := by
  induction ahead generalizing n names with
  | nil =>
      cases n with
      | zero =>
          cases h
          exact List.forall_mem_nil _
      | succ n => cases h
  | cons ins ahead ih =>
      cases n with
      | zero =>
          cases h
          exact List.forall_mem_nil _
      | succ n =>
          obtain ⟨hins, hahead⟩ := List.forall_mem_cons.mp hahead
          obtain ⟨text, htext, h⟩ := Option.bind_eq_some_iff.mp h
          obtain ⟨rest, hrest, rfl⟩ := Option.map_eq_some_iff.mp h
          exact List.forall_mem_cons.mpr ⟨hins.stored htext, ih hrest hahead⟩

end Target

namespace Walk

/-! ### Names out of texts -/

variable {flags : Flags} {code ahead : Code} {ins : Instruction} {state : State}
  {stack : List Statement}

theorem isField_loadedName (flags : Flags) {text : String} (h : IsField text) :
    IsField (loadedName flags text) := by
  unfold loadedName
  split
  · next rest htext =>
    have hrest : Unbroken rest := h.unbroken.subset (htext ▸ List.subset_cons_self '.' rest)
    split
    · refine ⟨by simp, ?_⟩
      rw [String.toList_ofList]
      exact (hrest.cons (by decide)).cons (by decide)
    · exact h
  · exact h

theorem unbroken_of_unquoted? {text : List Char} {name : String} (h : unquoted? text = some name)
    (htext : Unbroken text) : Unbroken name.toList := by
  obtain ⟨inner, hinner, rfl⟩ := Option.map_eq_some_iff.mp h
  rw [String.toList_ofList]
  rcases Option.or_eq_some_iff.mp hinner with hinner | ⟨-, hinner⟩
  · exact htext.subset (subset_of_between hinner)
  · exact htext.subset (subset_of_between hinner)

/-- What is read of some items all at once is read of one of them. -/
theorem exists_of_mem_mapM {α β : Type} {f : α → Option β} {items : List α} {found : List β} {b : β}
    (h : items.mapM f = some found) (hb : b ∈ found) : ∃ a ∈ items, f a = some b := by
  induction items generalizing found with
  | nil =>
      cases h
      cases hb
  | cons a items ih =>
      rw [List.mapM_cons] at h
      obtain ⟨first, hfirst, h⟩ := Option.bind_eq_some_iff.mp h
      obtain ⟨rest, hrest, hfound⟩ := Option.bind_eq_some_iff.mp h
      cases hfound
      rcases List.mem_cons.mp hb with rfl | hb
      · exact ⟨a, List.mem_cons_self .., hfirst⟩
      · obtain ⟨other, hother, heq⟩ := ih hrest hb
        exact ⟨other, List.mem_cons_of_mem _ hother, heq⟩

theorem unbroken_of_nameTuple? {literal : String} {names : List String}
    (h : nameTuple? literal = some names) (hliteral : Unbroken literal.toList) :
    ∀ name ∈ names, Unbroken name.toList := by
  obtain ⟨inner, hinner, h⟩ := Option.bind_eq_some_iff.mp h
  have hinner : Unbroken inner :=
    (hliteral.subset fun c => mem_of_mem_trim).subset (subset_of_between hinner)
  have hitems : ∀ item ∈ (((split (· = ',') inner).map trim).filter fun item => !item.isEmpty),
      Unbroken item := by
    intro item hitem
    obtain ⟨part, hpart, rfl⟩ := List.mem_map.mp (List.mem_filter.mp hitem).1
    exact (hinner.subset (subset_of_mem_split hpart)).subset fun c => mem_of_mem_trim
  intro name hname
  obtain ⟨item, hitem, hquoted⟩ := exists_of_mem_mapM h hname
  exact unbroken_of_unquoted? hquoted (hitems item hitem)

theorem isField_of_codeObjectName? {descriptor name : String}
    (h : Segment.codeObjectName? descriptor = some name) (hdescriptor : Unbroken descriptor.toList) :
    IsField name := by
  obtain ⟨⟨described, location⟩, hcut, h⟩ := Option.bind_eq_some_iff.mp h
  obtain ⟨rest, hrest, hcut⟩ := Option.bind_eq_some_iff.mp hcut
  have hopening := List.isPrefixOf?_eq_some_iff_append_eq.mp hrest
  have hrest : Unbroken rest := (hdescriptor.subset fun c => mem_of_mem_trim).subset
    (hopening ▸ List.subset_append_right ..)
  obtain ⟨hname, hlocation⟩ := subset_of_cut hcut
  dsimp only at h
  split at h
  · cases h
  · cases h
    refine ⟨by simp, ?_⟩
    rw [String.toList_ofList]
    have hbare : dropEndWhile (· = '>') (described.dropWhile (· = '<')) ⊆ rest :=
      List.Subset.trans (dropEndWhile_subset _ _)
        (List.Subset.trans (List.dropWhile_subset _) hname)
    have haddress : location.takeWhile (fun c => !(c = ',' || c = '>' || c = ' ')) ⊆ rest :=
      List.Subset.trans (List.takeWhile_subset _) hlocation
    exact (hrest.subset hbare).append ((hrest.subset haddress).cons (by decide))

/-! ### Operands -/

def UnbrokenStack (stack : List Statement) : Prop := ∀ s ∈ stack, s.node.IsUnbroken

namespace UnbrokenStack

theorem drop (h : UnbrokenStack stack) (count : Nat) : UnbrokenStack (stack.drop count) :=
  fun s hs => h s (List.mem_of_mem_drop hs)

theorem operand (h : UnbrokenStack stack) {value : Node}
    (hvalue : Walk.operand ins stack = .ok value) : value.IsUnbroken := by
  match stack, hvalue with
  | top :: below, hvalue =>
      cases hvalue
      exact h top (List.mem_cons_self ..)

theorem operands2 (h : UnbrokenStack stack) {left right : Node}
    (hvalues : Walk.operands2 ins stack = .ok (left, right)) :
    left.IsUnbroken ∧ right.IsUnbroken := by
  match stack, hvalues with
  | top :: next :: below, hvalues =>
      cases hvalues
      exact ⟨h next (by simp), h top (by simp)⟩

theorem operands3 (h : UnbrokenStack stack) {first second third : Node}
    (hvalues : Walk.operands3 ins stack = .ok (first, second, third)) :
    first.IsUnbroken ∧ second.IsUnbroken ∧ third.IsUnbroken := by
  match stack, hvalues with
  | top :: next :: other :: below, hvalues =>
      cases hvalues
      exact ⟨h other (by simp), h next (by simp), h top (by simp)⟩

theorem operands (h : UnbrokenStack stack) {count : Nat} {nodes : List Node}
    (hvalues : Walk.operands ins count stack = .ok nodes) : ∀ node ∈ nodes, node.IsUnbroken := by
  unfold Walk.operands at hvalues
  split at hvalues
  · cases hvalues
    refine List.forall_mem_map.mpr fun s hs => h s ?_
    exact List.mem_of_mem_take (List.mem_reverse.mp hs)
  · cases hvalues

end UnbrokenStack

def Effect.IsUnbroken (effect : Effect) : Prop := ∀ node ∈ effect.push, node.IsUnbroken

namespace Effect

theorem isUnbroken_default : ({} : Effect).IsUnbroken := fun node hnode => by cases hnode

theorem IsUnbroken.of_push {effect : Effect} {node : Node} (hpush : effect.push = some node)
    (h : node.IsUnbroken) : effect.IsUnbroken := by
  intro other hother
  rw [hpush] at hother
  cases hother
  exact h

theorem isUnbroken_placeholder (h : ins.IsUnbroken) : (placeholder ins).IsUnbroken :=
  .of_push rfl (.placeholder h.opname fun text htext => (h.argval text htext).unbroken)

end Effect

theorem isUnbroken_accumulator : Node.accumulator.IsUnbroken := .atom (by decide) (by decide)

/-! ### Expressions and simple statements -/

section Effects

variable (hins : ins.IsUnbroken) (hahead : ∀ next ∈ ahead, next.IsUnbroken)
  (hstack : UnbrokenStack state.stack)

include hstack in
theorem unbroken_wrap {node : Node → Node} (h : ∀ value, value.IsUnbroken → (node value).IsUnbroken) :
    Yields Effect.IsUnbroken (wrap ins state node) :=
  .bind fun value hvalue => .ok (.of_push rfl (h value (hstack.operand hvalue)))

include hstack in
theorem unbroken_combine {node : Node → Node → Node}
    (h : ∀ left right, left.IsUnbroken → right.IsUnbroken → (node left right).IsUnbroken) :
    Yields Effect.IsUnbroken (combine ins state node) := by
  refine .bind fun operands hoperands => ?_
  obtain ⟨left, right⟩ := operands
  obtain ⟨hleft, hright⟩ := hstack.operands2 hoperands
  exact .ok (.of_push rfl (h left right hleft hright))

include hins hstack in
theorem unbroken_attributeOf : Yields Effect.IsUnbroken (attributeOf ins state) := by
  unfold attributeOf
  split
  · exact .ok (Effect.isUnbroken_placeholder hins)
  · next name hname =>
    exact unbroken_wrap hstack fun _ h => .member h (hins.argval name hname).unbroken

include hstack in
theorem unbroken_build (kind : Container) : Yields Effect.IsUnbroken (build ins kind state) :=
  .bind fun _ _ => .bind fun _ hitems => .ok (.of_push rfl (.display (hstack.operands hitems)))

include hstack in
theorem unbroken_buildMap : Yields Effect.IsUnbroken (buildMap ins state) :=
  .bind fun _ _ => .bind fun _ hitems => .ok (.of_push rfl (.dict (hstack.operands hitems)))

theorem isUnbroken_of_bound? {node : Node} (h : node.IsUnbroken) :
    ∀ bound ∈ node.bound?, bound.IsUnbroken := by
  intro bound hbound
  unfold Node.bound? at hbound
  split at hbound
  · split at hbound
    · cases hbound
    · cases hbound
      exact h
  · cases hbound
    exact h

theorem isUnbroken_sliceOf {start stop : Node} {step : Option Node} (hstart : start.IsUnbroken)
    (hstop : stop.IsUnbroken) (hstep : ∀ node ∈ step, node.IsUnbroken) :
    (Node.sliceOf start stop step).IsUnbroken := by
  refine .slice (isUnbroken_of_bound? hstart) (isUnbroken_of_bound? hstop) fun bound hbound => ?_
  obtain ⟨node, hnode, hbound⟩ := Option.bind_eq_some_iff.mp hbound
  exact isUnbroken_of_bound? (hstep node hnode) bound hbound

include hstack in
theorem unbroken_buildSlice : Yields Effect.IsUnbroken (buildSlice ins state) := by
  refine .bind fun count _ => ?_
  split
  · refine .bind fun operands hoperands => ?_
    obtain ⟨start, stop, step⟩ := operands
    obtain ⟨hstart, hstop, hstep⟩ := hstack.operands3 hoperands
    refine .ok (.of_push rfl (isUnbroken_sliceOf hstart hstop fun node hnode => ?_))
    cases hnode
    exact hstep
  · exact unbroken_combine hstack fun _ _ hstart hstop =>
      isUnbroken_sliceOf hstart hstop fun _ hnode => by cases hnode

include hins hstack in
theorem unbroken_compareOp : Yields Effect.IsUnbroken (compareOp ins state) := by
  unfold compareOp
  split
  · exact .ok (Effect.isUnbroken_placeholder hins)
  · next op hop =>
    exact unbroken_combine hstack fun _ _ => .comparison (hins.argval op hop).unbroken

include hstack in
theorem unbroken_compareWith {plain negated : String} (hplain : Unbroken plain.toList)
    (hnegated : Unbroken negated.toList) :
    Yields Effect.IsUnbroken (compareWith ins plain negated state) := by
  refine .bind fun arg _ => unbroken_combine hstack fun _ _ => .comparison ?_
  split
  · exact hplain
  · exact hnegated

/-- A slice between the brackets is taken apart. -/
theorem isUnbroken_subscripted {value index : Node} (hvalue : value.IsUnbroken)
    (hindex : index.IsUnbroken) : (subscripted value index).IsUnbroken := by
  unfold subscripted
  split
  · cases hindex with
    | slice hstart hstop hstep => exact .sliced hvalue hstart hstop hstep
  · exact .subscript hvalue hindex

include hstack in
theorem unbroken_storeSubscript : Yields Effect.IsUnbroken (storeSubscript ins state) := by
  refine .bind fun operands hoperands => ?_
  obtain ⟨value, container, key⟩ := operands
  obtain ⟨hvalue, hcontainer, hkey⟩ := hstack.operands3 hoperands
  exact .ok (.of_push rfl (.itemAssign hcontainer hkey hvalue))

theorem isUnbroken_of_mem_some {node : Node} (h : node.IsUnbroken) :
    ∀ other ∈ some node, other.IsUnbroken := by
  rintro _ ⟨⟩
  exact h

theorem isUnbroken_of_mem_none : ∀ node ∈ (none : Option Node), node.IsUnbroken := by
  rintro _ ⟨⟩

include hins hstack in
theorem unbroken_raiseVarargs : Yields Effect.IsUnbroken (raiseVarargs ins state) := by
  refine .bind fun arg _ => ?_
  split
  · exact .ok (.of_push rfl (.raiseStmt isUnbroken_of_mem_none isUnbroken_of_mem_none))
  · exact unbroken_wrap hstack fun _ h =>
      .raiseStmt (isUnbroken_of_mem_some h) isUnbroken_of_mem_none
  · exact unbroken_combine hstack fun _ _ hexception hcause =>
      .raiseStmt (isUnbroken_of_mem_some hexception) (isUnbroken_of_mem_some hcause)
  · exact .ok (Effect.isUnbroken_placeholder hins)

include hstack in
theorem unbroken_returnValue : Yields Effect.IsUnbroken (returnValue flags ins state) := by
  unfold returnValue
  split
  · exact .ok (.of_push rfl (.returnStmt isUnbroken_accumulator))
  · exact unbroken_wrap hstack fun _ => .returnStmt

include hins hstack in
theorem unbroken_accumulate {method : String} (hmethod : Unbroken method.toList) :
    Yields Effect.IsUnbroken (accumulate flags ins method state) := by
  unfold accumulate
  split
  · exact unbroken_wrap hstack fun _ h => .call (.member isUnbroken_accumulator hmethod)
      (List.forall_mem_singleton.mpr h) (List.forall_mem_nil _) (List.forall_mem_nil _)
  · exact .ok (Effect.isUnbroken_placeholder hins)

include hins hstack in
theorem unbroken_accumulateEntry :
    Yields Effect.IsUnbroken (accumulateEntry flags ins state) := by
  unfold accumulateEntry
  split
  · exact unbroken_combine hstack fun _ _ => .itemAssign isUnbroken_accumulator
  · exact .ok (Effect.isUnbroken_placeholder hins)

/-! ### Names and unpackings -/

include hins in
theorem unbroken_load (global : Bool) : (load flags ins global).IsUnbroken := by
  unfold load
  split
  · exact Effect.isUnbroken_placeholder hins
  · next text htext => exact .of_push rfl (isField_loadedName flags (hins.argval text htext)).atom

include hins hstack in
theorem unbroken_store : Yields Effect.IsUnbroken (store ins state) :=
  .bind fun _ hname => .bind fun _ hvalue =>
    .ok (.of_push rfl (.assign (hins.name hname).atom (hstack.operand hvalue)))

include hins hahead hstack in
theorem unbroken_inplace (op : BinaryOperator) :
    Yields Effect.IsUnbroken (inplace ins op ahead state) := by
  unfold inplace
  split
  · exact .ok (Effect.isUnbroken_placeholder hins)
  · next target htarget =>
    obtain ⟨next, hnext, hstored⟩ := Option.bind_eq_some_iff.mp htarget
    have htarget := (hahead next (List.mem_of_mem_head? hnext)).stored hstored
    refine .bind fun operands hoperands => ?_
    obtain ⟨_, value⟩ := operands
    exact .ok (.of_push rfl (.inplace htarget.unbroken (hstack.operands2 hoperands).2))

include hins hahead hstack in
theorem unbroken_unpackSequence : Yields Effect.IsUnbroken (unpackSequence ins ahead state) := by
  refine .bind fun value hvalue => ?_
  have hvalue := hstack.operand hvalue
  split
  · exact .ok (.of_push rfl (.splat hvalue))
  · next target htarget =>
    have htarget := Target.isUnbroken_of_read? htarget (List.forall_mem_cons.mpr ⟨hins, hahead⟩)
    exact .ok (.of_push rfl (.assign htarget hvalue))

theorem isUnbroken_starred (position : Nat) {names : List String} (h : ∀ name ∈ names, IsField name) :
    ∀ node ∈ starred position names, node.IsUnbroken := by
  intro node hnode
  obtain ⟨k, hk, rfl⟩ := List.mem_mapIdx.mp hnode
  have hname := h _ (List.getElem_mem hk)
  split
  · refine .atom (by simp) ?_
    rw [String.toList_append]
    exact .append (by decide) hname.unbroken
  · exact hname.atom

include hahead hstack in
theorem unbroken_unpackEx : Yields Effect.IsUnbroken (unpackEx ins ahead state) := by
  refine .bind fun arg _ => ?_
  dsimp only
  split
  · exact .error _
  · next names hnames =>
    have hnames := Target.isField_of_storedNames? hnames hahead
    exact .bind fun _ hvalue => .ok (.of_push rfl
      (.assign (.display (isUnbroken_starred _ hnames)) (hstack.operand hvalue)))

/-! ### Calls and functions -/

include hstack in
theorem unbroken_call : Yields Effect.IsUnbroken (call ins state) :=
  .bind fun _ _ => .bind fun _ hargs => .bind fun _ hfunc => .ok (.of_push rfl
    (.call ((hstack.drop _).operand hfunc) (hstack.operands hargs) (List.forall_mem_nil _)
      (List.forall_mem_nil _)))

include hins hstack in
theorem unbroken_callKeywords : Yields Effect.IsUnbroken (callKeywords ins state) := by
  refine .bind fun argc _ => ?_
  split
  · next literal offset below hcases =>
    rw [UnbrokenStack, hcases] at hstack
    obtain ⟨hliteral, hbelow⟩ := List.forall_mem_cons.mp hstack
    have hbelow : UnbrokenStack below := hbelow
    split
    · exact .ok (Effect.isUnbroken_placeholder hins)
    · next names hnames =>
      cases hliteral with
      | atom hne hliteral =>
          have hnames := unbroken_of_nameTuple? hnames hliteral
          refine .bind fun values hvalues => .bind fun args hargs => .bind fun func hfunc => ?_
          refine .ok (.of_push rfl (.call ((hbelow.drop _).operand hfunc)
            ((hbelow.drop _).operands hargs) (fun keyword hkeyword => ?_) fun keyword hkeyword => ?_))
          · exact hnames _ (List.of_mem_zip hkeyword).1
          · exact hbelow.operands hvalues _ (List.of_mem_zip hkeyword).2
  · exact .ok (Effect.isUnbroken_placeholder hins)

include hstack in
theorem unbroken_callSpread : Yields Effect.IsUnbroken (callSpread ins state) := by
  refine .bind fun arg _ => ?_
  split
  · refine .bind fun operands hoperands => ?_
    obtain ⟨func, args, kwargs⟩ := operands
    obtain ⟨hfunc, hargs, hkwargs⟩ := hstack.operands3 hoperands
    have hspread : ∀ arg ∈ [Node.splat args, .doubleSplat kwargs], arg.IsUnbroken :=
      List.forall_mem_cons.mpr ⟨.splat hargs, List.forall_mem_singleton.mpr (.doubleSplat hkwargs)⟩
    exact .ok (.of_push rfl
      (.call hfunc hspread (List.forall_mem_nil _) (List.forall_mem_nil _)))
  · refine .bind fun operands hoperands => ?_
    obtain ⟨func, args⟩ := operands
    obtain ⟨hfunc, hargs⟩ := hstack.operands2 hoperands
    exact .ok (.of_push rfl (.call hfunc (List.forall_mem_singleton.mpr (.splat hargs))
      (List.forall_mem_nil _) (List.forall_mem_nil _)))

theorem unbroken_capturedNames {node : Node} (h : node.IsUnbroken) :
    ∀ name ∈ capturedNames node, Unbroken name.toList := by
  have hrender {node : Node} (h : node.IsUnbroken) : Unbroken node.render.toList := by
    rw [Node.render, String.toList_ofList]
    exact h.unbroken_chars
  unfold capturedNames
  split
  · cases h with
    | display hitems => exact List.forall_mem_map.mpr fun item hitem => hrender (hitems item hitem)
  · exact List.forall_mem_singleton.mpr (hrender h)

theorem isField_of_codeName? {node : Node} {name : String} (h : codeName? node = some name)
    (hnode : node.IsUnbroken) : IsField name := by
  unfold codeName? at h
  split at h
  · cases hnode with
    | atom hne htext => exact isField_of_codeObjectName? h htext
  · cases h

include hins hstack in
theorem unbroken_makeFunction : Yields Effect.IsUnbroken (makeFunction ins state) := by
  refine .bind fun arg _ => .bind fun operands hoperands => .bind fun _ _ => ?_
  obtain ⟨code, name⟩ := operands
  have hcode := (hstack.operands2 hoperands).1
  dsimp only
  split
  · exact .ok (Effect.isUnbroken_placeholder hins)
  · next target names hname hcaptured =>
    refine .ok (.of_push rfl (.closure (isField_of_codeName? hname hcode).unbroken ?_))
    split at hcaptured
    · obtain ⟨top, htop, rfl⟩ := Option.map_eq_some_iff.mp hcaptured
      exact unbroken_capturedNames (hstack top (List.mem_of_getElem? htop))
    · cases hcaptured
  · next target hname _ => exact .ok (.of_push rfl (isField_of_codeName? hname hcode).atom)

/-! ### Imports -/

theorem isField_of_submoduleName? {path : List String} {name : String}
    (h : submoduleName? path ahead = some name) (hahead : ∀ next ∈ ahead, next.IsUnbroken) :
    IsField name := by
  fun_induction submoduleName? path ahead with
  | case1 store ahead => exact (hahead store (List.mem_cons_self ..)).stored h
  | case2 component deeper source swap drop ahead hpart ih =>
      exact ih h fun next hnext => hahead next (by simp [hnext])
  | case3 => cases h
  | case4 => cases h

theorem unbroken_importedNames (origin : Instruction) (hahead : ∀ next ∈ ahead, next.IsUnbroken) :
    Yields (fun names => ∀ imported ∈ names, Unbroken imported.chars)
      (importedNames origin ahead) := by
  fun_induction importedNames origin ahead with
  | case1 source store ahead hpair ih =>
      obtain ⟨hsource, hahead⟩ := List.forall_mem_cons.mp hahead
      obtain ⟨hstore, hahead⟩ := List.forall_mem_cons.mp hahead
      refine .bind fun name hname => .bind fun bound hbound => .bind fun rest hrest => .ok ?_
      refine List.forall_mem_cons.mpr ⟨?_, ih hahead rest hrest⟩
      refine Form.unbroken_renamed (hsource.name hname).unbroken fun asName hasName => ?_
      split at hasName
      · cases hasName
      · cases hasName
        exact (hstore.name hbound).unbroken
  | case2 => exact .ok (List.forall_mem_nil _)
  | case3 => exact .error _
  | case4 => exact .ok (List.forall_mem_nil _)
  | case5 => exact .ok (List.forall_mem_nil _)

theorem isUnbroken_importModule {module stored : String} (hmodule : Unbroken module.toList)
    (hstored : Unbroken stored.toList) : (importModule module stored).IsUnbroken := by
  refine .importStmt hmodule fun name hname => ?_
  split at hname
  · cases hname
  · cases hname
    exact hstored

include hins hahead in
theorem unbroken_importForm {module : String} (hmodule : Unbroken module.toList) :
    Yields Effect.IsUnbroken (importForm ins module ahead) := by
  have hplaceholder : Effect.IsUnbroken { Effect.placeholder ins with pops := 2 } :=
    Effect.isUnbroken_placeholder hins
  match ahead with
  | [] => exact .error _
  | next :: ahead =>
      rw [importForm]
      split
      · refine .bind fun stored hstored => .ok (.of_push rfl (isUnbroken_importModule hmodule ?_))
        exact ((hahead next (List.mem_cons_self ..)).name hstored).unbroken
      · dsimp only
        split
        · next name hname =>
          refine .ok (.of_push rfl (.importStmt hmodule fun asName hasName => ?_))
          cases hasName
          exact (isField_of_submoduleName? hname hahead).unbroken
        · refine .bind fun names hnames => ?_
          split
          · exact .ok hplaceholder
          · exact .ok (.of_push rfl
              (.fromImport hmodule (unbroken_importedNames ins hahead _ hnames)))
      · exact .ok (.of_push rfl (.fromImport hmodule (List.forall_mem_singleton.mpr (by decide))))
      · exact .ok hplaceholder

include hins hahead in
theorem unbroken_importName : Yields Effect.IsUnbroken (importName ins ahead state) := by
  refine .bind fun module hmodule => .bind fun operands _ => ?_
  obtain ⟨level, _⟩ := operands
  dsimp only
  split
  · exact unbroken_importForm hins hahead (hins.name hmodule).unbroken
  · exact .ok (Effect.isUnbroken_placeholder hins)

/-! ### Jumps -/

theorem isUnbroken_branch {condition : Node} (h : condition.IsUnbroken) (target : Nat) :
    (branch code ins condition target state).IsUnbroken := by
  unfold branch
  split
  · split
    · exact .of_push rfl (.whileHead h)
    · split
      · exact .of_push rfl (.elifHead h)
      · exact .of_push rfl (.ifHead h)
  · exact .of_push rfl (.ifHead h)

include hstack in
theorem unbroken_conditionalJump (onTrue : Bool) :
    Yields Effect.IsUnbroken (conditionalJump flags code ins onTrue state) := by
  refine .bind fun test htest => .bind fun target _ => ?_
  have htest := hstack.operand htest
  have hwhen (wanted : Bool) : (if wanted then test else .negation test).IsUnbroken := by
    cases wanted with
    | true => exact htest
    | false => exact .unary htest
  split
  · exact .ok (.of_push rfl (.goto (isUnbroken_of_mem_some (hwhen onTrue))))
  · exact .ok (isUnbroken_branch (hwhen !onTrue) target)

theorem unbroken_absoluteJump : Yields Effect.IsUnbroken (absoluteJump flags code ins state) := by
  refine .bind fun target _ => ?_
  have hgoto : (Node.goto target none).IsUnbroken := .goto isUnbroken_of_mem_none
  split
  · exact .ok (.of_push rfl hgoto)
  · split
    · exact .ok Effect.isUnbroken_default
    · repeat' split
      all_goals
        first
          | exact .ok Effect.isUnbroken_default
          | exact .ok (.of_push rfl .continueStmt)
          | exact .ok (.of_push rfl .breakStmt)

theorem unbroken_forwardJump : Yields Effect.IsUnbroken (forwardJump flags ins) := by
  refine .bind fun target _ => ?_
  split
  · exact .ok (.of_push rfl (.goto isUnbroken_of_mem_none))
  · exact .ok (.of_push rfl .elseHead)

theorem isUnbroken_iterated {iterator : Node} (h : iterator.IsUnbroken) :
    (iterated iterator).IsUnbroken := by
  unfold iterated
  split
  · cases h with
    | iter hvalue => exact hvalue
  · exact h

include hins hahead hstack in
theorem unbroken_forLoop : Yields Effect.IsUnbroken (forLoop ins ahead state) := by
  refine .bind fun stop _ => ?_
  split
  · exact .error _
  · split
    · exact .ok (Effect.isUnbroken_placeholder hins)
    · next target htarget =>
      have htarget := Target.isUnbroken_of_read? htarget hahead
      exact .bind fun iterator hiterator => .ok (.of_push rfl
        (.forHead htarget (isUnbroken_iterated (hstack.operand hiterator))))

/-! ### One step -/

include hins hahead hstack in
theorem unbroken_opcodeEffect (op : Opcode) :
    Yields Effect.IsUnbroken (opcodeEffect flags code ins ahead state op) := by
  cases op with
  | loadAttr => exact unbroken_attributeOf hins hstack
  | load global => exact .ok (unbroken_load hins global)
  | store => exact unbroken_store hins hstack
  | returnValue => exact unbroken_returnValue hstack
  | yieldValue => exact unbroken_wrap hstack fun _ => .yieldStmt
  | build kind => exact unbroken_build hstack kind
  | buildMap => exact unbroken_buildMap hstack
  | buildSlice => exact unbroken_buildSlice hstack
  | getIter => exact unbroken_wrap hstack fun _ => .iter
  | forIter => exact unbroken_forLoop hins hahead hstack
  | popJumpIf onTrue => exact unbroken_conditionalJump hstack onTrue
  | jumpAbsolute => exact unbroken_absoluteJump
  | jumpForward => exact unbroken_forwardJump
  | importName => exact unbroken_importName hins hahead
  | raiseVarargs => exact unbroken_raiseVarargs hins hstack
  | callFunction => exact unbroken_call hstack
  | callFunctionKw => exact unbroken_callKeywords hins hstack
  | callFunctionEx => exact unbroken_callSpread hstack
  | makeFunction => exact unbroken_makeFunction hins hstack
  | listAppend => exact unbroken_accumulate hins hstack (by decide)
  | setAdd => exact unbroken_accumulate hins hstack (by decide)
  | mapAdd => exact unbroken_accumulateEntry hins hstack
  | unpackSequence => exact unbroken_unpackSequence hins hahead hstack
  | unpackEx => exact unbroken_unpackEx hahead hstack
  | compareOp => exact unbroken_compareOp hins hstack
  | isOp => exact unbroken_compareWith hstack (by decide) (by decide)
  | containsOp => exact unbroken_compareWith hstack (by decide) (by decide)
  | binarySubscr => exact unbroken_combine hstack fun _ _ => isUnbroken_subscripted
  | storeSubscr => exact unbroken_storeSubscript hstack
  | unary op => exact unbroken_wrap hstack fun _ => .unary
  | binary op => exact unbroken_combine hstack fun _ _ => .binary
  | inplace op => exact unbroken_inplace hins hahead hstack op
  | importFrom => exact .ok (Effect.isUnbroken_placeholder hins)
  | importStar => exact .ok (Effect.isUnbroken_placeholder hins)
  | nop => exact .ok Effect.isUnbroken_default
  | popTop => exact .ok Effect.isUnbroken_default

include hins hahead hstack in
theorem unbroken_effect : Yields Effect.IsUnbroken (effect flags code ins ahead state) := by
  unfold effect
  split
  · exact .ok (Effect.isUnbroken_placeholder hins)
  · exact unbroken_opcodeEffect hins hahead hstack _

include hins hahead hstack in
/-- A step keeps the nodes of the stack on one line each. -/
theorem unbrokenStack_step {next : State} {skip : Nat}
    (hstep : step flags code ins ahead state = .ok (next, skip)) : UnbrokenStack next.stack := by
  obtain ⟨effect, heffect, rfl, -⟩ := step_eq_ok.mp hstep
  have hsettled : UnbrokenStack (state.settle ins.offset).stack := hstack
  have hpush := unbroken_effect hins hahead hsettled effect heffect
  refine List.forall_mem_append.mpr ⟨fun s hs => ?_, hsettled.drop effect.pops⟩
  obtain ⟨node, hnode, rfl⟩ := Option.map_eq_some_iff.mp (Option.mem_toList.mp hs)
  exact hpush node hnode

end Effects

/-! ### A run -/

theorem UnbrokenStack.collect (h : UnbrokenStack state.stack) (offset : Nat) :
    UnbrokenStack (state.collect offset).stack := by
  unfold State.collect
  split
  · exact h
  · next top below hcases =>
    rw [hcases] at h
    obtain ⟨htop, hbelow⟩ := List.forall_mem_cons.mp h
    exact List.forall_mem_cons.mpr ⟨.assign isUnbroken_accumulator htop, hbelow⟩

theorem Arrives.unbrokenStack {n : Nat} {past : List Instruction}
    (h : Arrives flags code n state past) (hcode : ∀ ins ∈ code, ins.IsUnbroken) :
    UnbrokenStack state.stack := by
  induction h with
  | start => exact List.forall_mem_nil _
  | step h hins hstep ih =>
      rename_i n skip state next ins past
      have hnext : UnbrokenStack next.stack := unbrokenStack_step
        (hcode ins (List.mem_of_getElem? hins)) (fun other hother => hcode other
          (List.mem_of_mem_drop hother)) ih hstep
      unfold State.leave
      split
      · exact hnext.collect ins.offset
      · exact hnext

/-- Every statement that is recovered from such instructions is on one line. -/
theorem isUnbroken_of_reconstruct {result : Reconstruction}
    (h : reconstruct flags code = .ok result) (hcode : ∀ ins ∈ code, ins.IsUnbroken) :
    ∀ s ∈ result.statements, s.node.IsUnbroken := by
  obtain ⟨last, hrun, hstatements⟩ := exists_last h
  obtain ⟨n, past, harrives⟩ := exists_arrives_last hrun
  rw [hstatements]
  exact fun s hs => harrives.unbrokenStack hcode s (List.mem_reverse.mp hs)

end Walk

end Decompiler
