import Decompiler.Proofs.Function.Name
import Decompiler.Proofs.Walk.Course
import Decompiler.Dump

/-!
Modes. How the code of a segment is read is told from its name alone: the body of a comprehension and
that of a generator expression have one of four markers at its start. The angle brackets in which the
compiler puts the markers are not part of the name any more, so a function that somebody has given a name
with a marker at its start, or behind underscores, is read in the same way. No other function is, and
what these return is kept.
-/

namespace Decompiler

open Text

/-! ### Markers -/

/-- A text stands at the start of another one once some characters there are passed over. -/
theorem isPrefix_dropWhile_iff {test : Char → Bool} {mark text : List Char}
    (h : mark.head?.map test = some false) :
    mark <+: text.dropWhile test ↔
      ∃ lead rest, (∀ c ∈ lead, test c = true) ∧ text = lead ++ (mark ++ rest) := by
  obtain ⟨first, hfirst, htest⟩ := Option.map_eq_some_iff.mp h
  obtain ⟨tail, rfl⟩ := List.head?_eq_some_iff.mp hfirst
  constructor
  · rintro ⟨rest, hrest⟩
    refine ⟨text.takeWhile test, rest, fun c hc => List.mem_takeWhile_imp hc, ?_⟩
    rw [hrest, List.takeWhile_append_dropWhile]
  · rintro ⟨lead, rest, hlead, rfl⟩
    rw [List.dropWhile_append_of_pos hlead, List.cons_append,
      List.dropWhile_cons_of_neg (by simp [htest])]
    exact List.prefix_append (first :: tail) rest

theorem dropWhile_eq_self_of_not_mem {mark : Char} {text : List Char} (h : mark ∉ text) :
    text.dropWhile (· = mark) = text := by
  refine List.dropWhile_eq_self_iff.mpr fun hne hfirst => ?_
  have hmem := List.getElem_mem hne
  rw [of_decide_eq_true hfirst] at hmem
  exact h hmem

namespace Flags

def leads (c : Char) : Bool := c = '<' || c = '_'

/-- The name of a segment has this marker at its start. -/
def Marks (marker : String) (name : List Char) : Prop := marker.toList <+: name.dropWhile leads

instance (marker : String) (name : List Char) : Decidable (Marks marker name) :=
  inferInstanceAs (Decidable (_ <+: _))

theorem ofName_comprehension (name : String) :
    (ofName name).comprehension = true ↔
      ∃ marker ∈ comprehensionMarkers, Marks marker name.toList := by
  simp only [ofName, List.any_eq_true, List.isPrefixOf_iff_prefix]
  rfl

theorem ofName_generatorExpression (name : String) :
    (ofName name).generatorExpression = true ↔ Marks generatorMarker name.toList :=
  List.isPrefixOf_iff_prefix

def markers : List String := generatorMarker :: comprehensionMarkers

variable {marker : String}

theorem head?_of_marker (h : marker ∈ markers) : marker.toList.head?.map leads = some false := by
  revert marker
  decide

theorem not_mem_of_marker (h : marker ∈ markers) : '_' ∉ marker.toList := by
  revert marker
  decide

theorem mem_of_marker (h : marker ∈ markers) : 'p' ∈ marker.toList := by
  revert marker
  decide

theorem marks_iff (h : marker ∈ markers) {name : List Char} :
    Marks marker name ↔
      ∃ lead rest, (∀ c ∈ lead, leads c = true) ∧ name = lead ++ (marker.toList ++ rest) :=
  isPrefix_dropWhile_iff (head?_of_marker h)

/-- A marker has to be over before the underscore in front of the address. -/
theorem marks_append_iff (h : marker ∈ markers) {name address : List Char} (hp : 'p' ∉ address) :
    Marks marker (name ++ '_' :: address) ↔ Marks marker name := by
  rw [marks_iff h, marks_iff h]
  constructor
  · rintro ⟨lead, rest, hlead, heq⟩
    have haddress : 'p' ∉ '_' :: address := by simp [hp]
    rcases List.append_eq_append_iff.mp heq with ⟨more, -, hmore⟩ | ⟨bare, rfl, hbare⟩
    · -- the marker would be in the address
      have hmem : 'p' ∈ '_' :: address :=
        hmore ▸ List.mem_append_right more (List.mem_append_left rest (mem_of_marker h))
      exact absurd hmem haddress
    · rcases List.append_eq_append_iff.mp hbare with ⟨rest, rfl, -⟩ | ⟨more, hmarker, hmore⟩
      · exact ⟨lead, rest, hlead, rfl⟩
      · cases more with
        | nil =>
            rw [List.append_nil] at hmarker
            exact ⟨lead, [], hlead, by rw [hmarker, List.append_nil]⟩
        | cons c more =>
            obtain ⟨rfl, -⟩ := List.cons.inj hmore
            have hmem : '_' ∈ marker.toList := by simp [hmarker]
            exact absurd hmem (not_mem_of_marker h)
  · rintro ⟨lead, rest, hlead, rfl⟩
    exact ⟨lead, rest ++ '_' :: address, hlead, by simp only [List.append_assoc]⟩

end Flags

/-! ### Code objects -/

namespace CodeObject

variable (object : CodeObject)

/-- A name as programs give it. Identifiers of all alphabets are of this kind. -/
def IsGiven : Prop := '<' ∉ object.name.toList ∧ '>' ∉ object.name.toList

def compilerNames : List String :=
  ["<module>", "<lambda>", "<listcomp>", "<setcomp>", "<dictcomp>", "<genexpr>"]

/-- The address is written in hexadecimal digits, which the sign of such numbers may precede. -/
def HasHexAddress : Prop :=
  ∀ c ∈ object.address.toList, c ∈ "0123456789abcdefABCDEFxX".toList

instance : Decidable object.HasHexAddress := inferInstanceAs (Decidable (∀ c ∈ _, _))

/-- The name is this marker as the compiler writes it, or one with the marker at its start, at most behind
underscores. -/
def IsMarked (marker : String) : Prop :=
  object.name = "<" ++ marker ++ ">" ∨
    object.IsGiven ∧ ∃ underscores rest, (∀ c ∈ underscores, c = '_') ∧
      object.name.toList = underscores ++ (marker.toList ++ rest)

variable {object} {marker : String}

theorem bareName_of_isGiven (h : object.IsGiven) : object.bareName = object.name.toList := by
  have hclosing : '>' ∉ object.name.toList.reverse := fun hmem => h.2 (List.mem_reverse.mp hmem)
  rw [bareName, dropWhile_eq_self_of_not_mem h.1, dropEndWhile,
    dropWhile_eq_self_of_not_mem hclosing, List.reverse_reverse]

theorem marks_bareName_of_isGiven (hmarker : marker ∈ Flags.markers) (h : object.IsGiven) :
    Flags.Marks marker object.bareName ↔ object.IsMarked marker := by
  rw [bareName_of_isGiven h, Flags.marks_iff hmarker]
  constructor
  · rintro ⟨lead, rest, hlead, heq⟩
    refine .inr ⟨h, lead, rest, fun c hc => ?_, heq⟩
    have hne : c ≠ '<' := by
      rintro rfl
      exact h.1 (heq ▸ List.mem_append_left _ hc)
    simpa [Flags.leads, hne] using hlead c hc
  · rintro (hname | ⟨-, underscores, rest, hunderscores, heq⟩)
    · exact absurd (by rw [hname]; simp) h.1
    · exact ⟨underscores, rest, fun c hc => by simp [Flags.leads, hunderscores c hc], heq⟩

theorem marks_bareName_of_mem (hmarker : marker ∈ Flags.markers) (h : object.name ∈ compilerNames) :
    Flags.Marks marker object.bareName ↔ object.IsMarked marker := by
  have hall : ∀ name ∈ compilerNames, ∀ marker ∈ Flags.markers,
      (Flags.Marks marker (dropEndWhile (· = '>') (name.toList.dropWhile (· = '<'))) ↔
        name = "<" ++ marker ++ ">") ∧ '<' ∈ name.toList := by decide
  obtain ⟨hmarks, hbracket⟩ := hall object.name h marker hmarker
  rw [bareName, hmarks]
  exact ⟨.inl, fun hmarked => hmarked.resolve_right fun hgiven => hgiven.1.1 hbracket⟩

theorem marks_functionName (hmarker : marker ∈ Flags.markers) (haddress : object.HasHexAddress)
    (hname : object.IsGiven ∨ object.name ∈ compilerNames) :
    Flags.Marks marker object.functionName.toList ↔ object.IsMarked marker := by
  have hp : 'p' ∉ object.address.toList := fun hmem => absurd (haddress 'p' hmem) (by decide)
  rw [functionName, String.toList_ofList, Flags.marks_append_iff hmarker hp]
  exact hname.elim (marks_bareName_of_isGiven hmarker) (marks_bareName_of_mem hmarker)

end CodeObject

/-! ### Returned values -/

namespace Walk

/-- A return leaves the value on top of the stack, in a `return`. -/
def KeepsReturns (flags : Flags) : Prop :=
  ∀ (code ahead : Code) (ins : Instruction) (state : State) (top : Statement)
      (below : List Statement),
    ins.opcode? = some .returnValue → state.stack = top :: below →
      ∃ next, step flags code ins ahead state = .ok (next, 0) ∧
        next.stack = ⟨(state.settle ins.offset).indent.toNat, .returnStmt top.node, ins.offset⟩ ::
          below

/-- Only a comprehension returns something else. -/
theorem keepsReturns_iff {flags : Flags} : KeepsReturns flags ↔ flags.comprehension = false := by
  constructor
  · intro h
    let ins : Instruction := { offset := 0, opname := "RETURN_VALUE" }
    let state : State := { stack := [⟨0, .atom "e", 0⟩] }
    obtain ⟨next, hstep, hstack⟩ := h [] [] ins state _ [] (by decide) rfl
    rw [Bool.eq_false_iff]
    intro hflags
    obtain ⟨effect, heffect, rfl, -⟩ := step_eq_ok.mp hstep
    have haccumulated : Walk.effect flags [] ins [] (state.settle 0) =
        .ok (.push1 (.returnStmt .accumulator)) := if_pos hflags
    rw [haccumulated, Except.ok.injEq] at heffect
    rw [← heffect] at hstack
    exact absurd (congrArg List.length hstack) (by decide)
  · intro hflags code ahead ins state top below hop hstack
    have heffect : Walk.effect flags code ins ahead (state.settle ins.offset) =
        .ok (.replace 1 (.returnStmt top.node)) := by
      rw [effect_of_opcode hop, opcodeEffect, returnValue, hflags, wrap, State.settle_stack, hstack]
      rfl
    refine ⟨_, step_eq_ok.mpr ⟨_, heffect, rfl, rfl⟩, ?_⟩
    simp [State.apply, Effect.replace, hstack]

end Walk

/-! ### Segments -/

namespace CodeObject

open Walk

/-- If no flag is forced, the segment below the header of a code object is read as a comprehension
exactly if the name of the object is marked so, and as a generator expression likewise. All others
return what they have computed. -/
theorem mode_of_header (object : CodeObject) (options : Options) (line : List Char)
    (hname : object.IsGiven ∨ object.name ∈ compilerNames) (haddress : object.HasHexAddress)
    (hforced : options.flags = {}) (hline : trim line = object.header) :
    (∀ dump, line ∈ lines dump →
        ∃ segment ∈ Segment.split dump, Segment.header? line = some segment.name) ∧
      ∀ segment : Segment, Segment.header? line = some segment.name →
        ((segment.flags options).comprehension = true ↔
          ∃ marker ∈ Flags.comprehensionMarkers, object.IsMarked marker) ∧
        ((segment.flags options).generatorExpression = true ↔
          object.IsMarked Flags.generatorMarker) ∧
        ((¬∃ marker ∈ Flags.comprehensionMarkers, object.IsMarked marker) →
          KeepsReturns (segment.flags options)) := by
  have hheader := object.header?_eq hline
  refine ⟨fun dump hmem => ?_, fun segment hsegment => ?_⟩
  · obtain ⟨segment, hsegment, hsame⟩ :=
      Segment.exists_mem_split hheader object.functionName_ne_mainName hmem
    exact ⟨segment, hsegment, by rw [hsame, hheader]⟩
  · rw [hheader, Option.some_inj] at hsegment
    have hflags : segment.flags options = Flags.ofName object.functionName := by
      rw [Segment.flags, hforced, Flags.union_default, hsegment]
    have hcomprehension : (segment.flags options).comprehension = true ↔
        ∃ marker ∈ Flags.comprehensionMarkers, object.IsMarked marker := by
      rw [hflags, Flags.ofName_comprehension]
      refine exists_congr fun marker => and_congr_right fun hmarker => ?_
      exact marks_functionName (List.mem_cons_of_mem _ hmarker) haddress hname
    refine ⟨hcomprehension, ?_, fun hunmarked => ?_⟩
    · rw [hflags, Flags.ofName_generatorExpression]
      exact marks_functionName (List.mem_cons_self ..) haddress hname
    · rw [keepsReturns_iff, Bool.eq_false_iff]
      exact fun h => hunmarked (hcomprehension.mp h)

/-- A function with a marker in its name, but not at the start. -/
def afterMarker : CodeObject where
  name := "_my_listcomp"
  address := "0x7f3c"
  file := "\"m.py\""
  line := 1
  name_solid := by decide
  address_ne_nil := by decide
  address_plain := by decide

theorem mode_of_header_afterMarker :
    let segment : Segment := ⟨"_my_listcomp_0x7f3c", "0 LOAD_FAST 0 (a)\n2 RETURN_VALUE\n"⟩
    afterMarker.IsGiven ∧ afterMarker.HasHexAddress ∧ ({} : Options).flags = {} ∧
      trim (afterMarker.header ++ ['\r']) = afterMarker.header ∧
      Segment.header? (afterMarker.header ++ ['\r']) = some segment.name ∧
      (segment.flags {}).comprehension = false ∧ KeepsReturns (segment.flags {}) := by
  intro segment
  have hgiven : afterMarker.IsGiven := ⟨by decide, by decide⟩
  have haddress : afterMarker.HasHexAddress := by decide
  have hline : trim (afterMarker.header ++ ['\r']) = afterMarker.header := by decide +kernel
  have hsegment : Segment.header? (afterMarker.header ++ ['\r']) = some segment.name := by
    decide +kernel
  obtain ⟨hcomprehension, -, hkeeps⟩ :=
    (mode_of_header afterMarker {} (afterMarker.header ++ ['\r']) (.inl hgiven) haddress rfl
      hline).2 segment hsegment
  have hplain : (segment.flags {}).comprehension = false := by decide
  refine ⟨hgiven, haddress, rfl, hline, hsegment, hplain, hkeeps fun hmarked => ?_⟩
  rw [hcomprehension.mpr hmarked] at hplain
  cases hplain

/-- A function that has a marker for its name. -/
def namedAsMarker : CodeObject where
  name := "listcomp"
  address := "0x7f0e"
  file := "\"m.py\""
  line := 1
  name_solid := by decide
  address_ne_nil := by decide
  address_plain := by decide

/-- So not only what the compiler has named a comprehension is read as one, and a function may lose what
it returns. -/
theorem exists_function_as_comprehension :
    ¬∀ (object : CodeObject) (options : Options) (line : List Char) (segment : Segment),
      isIdentifier object.name.toList = true ∨ object.name ∈ compilerNames →
        object.HasHexAddress → options.flags = {} → trim line = object.header →
          Segment.header? line = some segment.name →
            ((segment.flags options).comprehension = true ↔
                object.name ∈ ["<listcomp>", "<setcomp>", "<dictcomp>"]) ∧
              (isIdentifier object.name.toList = true → KeepsReturns (segment.flags options)) := by
  intro hall
  let segment : Segment := ⟨"listcomp_0x7f0e", ""⟩
  have hmode := hall namedAsMarker {} namedAsMarker.header segment (.inl (by decide)) (by decide) rfl
    (by decide +kernel) (by decide +kernel)
  have hflags := keepsReturns_iff.mp (hmode.2 (by decide))
  exact absurd hflags (by decide)

end CodeObject

end Decompiler
