import Decompiler.Proofs.Dump.Meaningful

/-!
Names of functions. A function is told by the description of its code object, which stands in the header
of its segment and in the constant that it is made from. Whichever of the two it is named from, it gets
the same name; and from the name the address of the code object can be told, with what is left of its
own name without the angle brackets around it.
-/

namespace Decompiler

open Text

/-- What stands before a mark that is not in it, and what stands behind the mark. -/
theorem Text.cut_append {first : Char} {before : List Char} (h : first ∉ before)
    (mark after : List Char) :
    cut (first :: mark) (before ++ (first :: mark ++ after)) = some (before, after) := by
  induction before with
  | nil =>
      have hmark : (first :: mark).isPrefixOf? (first :: (mark ++ after)) = some after :=
        List.isPrefixOf?_eq_some_iff_append_eq.mpr rfl
      rw [List.nil_append, List.cons_append, cut, hmark]
  | cons c before ih =>
      obtain ⟨hc, hbefore⟩ := List.ne_and_not_mem_of_not_mem_cons h
      have hmark : (first :: mark).isPrefixOf? (c :: (before ++ (first :: mark ++ after))) = none := by
        rw [List.isPrefixOf?, if_neg (by simpa using hc)]
      rw [List.cons_append, cut, hmark, ih hbefore]
      rfl

/-- A code object as a listing tells of it. -/
structure CodeObject where
  name : String
  address : String
  file : String
  line : Nat
  name_solid : ' ' ∉ name.toList
  address_ne_nil : address.toList ≠ []
  address_plain : ∀ c ∈ address.toList, c ∉ [',', '>', ' ', '_']

namespace CodeObject

variable (object : CodeObject)

/-- Where the code object comes from, and the address that tells it from others of its name. -/
def location : List Char :=
  object.address.toList ++ (", file ".toList ++ object.file.toList ++ ", line ".toList ++
    digits object.line ++ ['>'])

def described : List Char :=
  "<code object ".toList ++ (object.name.toList ++ (" at ".toList ++ object.location))

def descriptor : String := String.ofList object.described

def bareName : List Char :=
  dropEndWhile (· = '>') (object.name.toList.dropWhile (· = '<'))

/-- What the function is called whose code this is. -/
def functionName : String := String.ofList (object.bareName ++ '_' :: object.address.toList)

theorem exists_described : ∃ inner, object.described = '<' :: (inner ++ ['>']) := by
  have hopen : "<code object ".toList = '<' :: "code object ".toList := by decide
  refine ⟨"code object ".toList ++ (object.name.toList ++ (" at ".toList ++ (object.address.toList ++
    (", file ".toList ++ object.file.toList ++ ", line ".toList ++ digits object.line)))), ?_⟩
  refine (congrArg (· ++ (object.name.toList ++ (" at ".toList ++ object.location))) hopen).trans ?_
  simp only [location, List.cons_append, List.append_assoc]

theorem trim_described : trim object.described = object.described := by
  obtain ⟨inner, hinner⟩ := object.exists_described
  rw [hinner]
  refine trim_eq_self (fun c hc => ?_) (fun c hc => ?_)
  · cases hc
    decide
  · rw [← List.cons_append, List.getLast?_append, List.getLast?_singleton, Option.some_or] at hc
    cases hc
    decide

/-- The address ends at the comma behind it. -/
theorem takeWhile_location :
    object.location.takeWhile (fun c => !(c = ',' || c = '>' || c = ' ')) =
      object.address.toList := by
  obtain ⟨rest, hrest⟩ : ∃ rest, object.location = object.address.toList ++ ',' :: rest := ⟨_, rfl⟩
  rw [hrest, List.takeWhile_append_of_pos]
  · rw [List.takeWhile_cons_of_neg (by simp), List.append_nil]
  · intro c hc
    have hplain := object.address_plain c hc
    simp only [List.mem_cons, not_or] at hplain
    simp [hplain]

/-- The name of a function is told by the descriptor of its code object. -/
theorem codeObjectName?_descriptor :
    Segment.codeObjectName? object.descriptor = some object.functionName := by
  have hdescribed : "<code object ".toList.isPrefixOf? (trim object.descriptor.toList) =
      some (object.name.toList ++ (" at ".toList ++ object.location)) := by
    rw [descriptor, String.toList_ofList (l := object.described), trim_described]
    exact List.isPrefixOf?_eq_some_iff_append_eq.mpr rfl
  have hcut : cut " at ".toList (object.name.toList ++ (" at ".toList ++ object.location)) =
      some (object.name.toList, object.location) :=
    cut_append object.name_solid "at ".toList object.location
  obtain ⟨first, rest, haddress⟩ := List.exists_cons_of_ne_nil object.address_ne_nil
  rw [Segment.codeObjectName?, hdescribed, Option.bind_some, hcut, Option.bind_some]
  dsimp only
  rw [object.takeWhile_location, functionName, haddress]
  rfl

/-- What a header describes is named alike. -/
theorem nameOf_described : Segment.nameOf object.described = object.functionName := by
  have hname := object.codeObjectName?_descriptor
  obtain ⟨inner, hinner⟩ := object.exists_described
  rw [descriptor, hinner] at hname
  rw [hinner, Segment.nameOf, hname, Option.getD_some]

def header : List Char := "Disassembly of ".toList ++ object.described ++ [':']

theorem header?_eq {line : List Char} (h : trim line = object.header) :
    Segment.header? line = some object.functionName := by
  have hbetween : between "Disassembly of ".toList [':'] object.header = some object.described :=
    between_append "Disassembly of ".toList [':'] object.described
  rw [Segment.header?, h, hbetween, Option.map_some, nameOf_described]

/-- No function has the name of the main segment. -/
theorem functionName_ne_mainName : object.functionName ≠ Segment.mainName := by
  intro h
  have hmem : '_' ∈ object.functionName.toList := by simp [functionName]
  rw [h] at hmem
  exact absurd hmem (by decide)

end CodeObject

/-! ### Segments -/

namespace Segment

variable {line : List Char} {name : String}

theorem exists_mem_gather (h : header? line = some name) {lines : List (List Char)}
    (hline : line ∈ lines) : ∃ body, (name, body) ∈ (gather lines).2 := by
  induction lines with
  | nil => cases hline
  | cons piece lines ih =>
      rcases List.mem_cons.mp hline with rfl | hline
      · rw [gather_cons_of_header h]
        exact ⟨_, List.mem_cons_self ..⟩
      · obtain ⟨body, hbody⟩ := ih hline
        refine ⟨body, ?_⟩
        cases hpiece : header? piece with
        | some other =>
            rw [gather_cons_of_header hpiece]
            exact List.mem_cons_of_mem _ hbody
        | none =>
            rw [gather_cons_of_none hpiece]
            exact hbody

/-- Below a header is a segment of its name. -/
theorem exists_mem_split {dump : List Char} (h : header? line = some name) (hname : name ≠ mainName)
    (hline : line ∈ lines dump) : ∃ segment ∈ split dump, segment.name = name := by
  obtain ⟨piece, hpiece, rfl⟩ := List.mem_map.mp hline
  have hheader : header? piece = some name := by rw [← h, header?, header?, trim_chomp]
  obtain ⟨body, hbody⟩ := exists_mem_gather hheader hpiece
  let segment : Segment := ⟨name, String.ofList body.flatten⟩
  have hkept : ¬ isBlankMain segment = true := by simp [isBlankMain, segment, hname]
  refine ⟨segment, ?_, rfl⟩
  -- only what has the main name is passed over
  have hmem : segment ∈ ((mainName, (gather (pieces dump)).1) :: (gather (pieces dump)).2).map
      fun found => Segment.mk found.1 (String.ofList found.2.flatten) :=
    List.mem_map.mpr ⟨_, List.mem_cons_of_mem _ hbody, rfl⟩
  rw [← List.takeWhile_append_dropWhile (p := isBlankMain) (l := List.map _ _),
    List.mem_append] at hmem
  exact hmem.resolve_left fun hblank => hkept (List.mem_takeWhile_imp hblank)

end Segment

namespace CodeObject

/-- The last underscore of a function's name stands before the address. -/
theorem eq_of_functionName_eq {object other : CodeObject}
    (h : object.functionName = other.functionName) :
    object.bareName = other.bareName ∧ object.address = other.address := by
  have hplain (object : CodeObject) : '_' ∉ object.address.toList := fun hmem =>
    object.address_plain _ hmem (by decide)
  obtain ⟨hname, haddress⟩ :=
    append_cons_inj_of_not_mem (hplain object) (hplain other) (String.ofList_injective h)
  exact ⟨hname, String.toList_injective haddress⟩

end CodeObject

end Decompiler
