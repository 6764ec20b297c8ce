import Decompiler.Proofs.Walk.Unbroken
import Decompiler.Dump

/-!
One line for each statement. The statements of a segment are joined by line feeds to one text, and this
is cut into lines again. Since no statement is empty or has a line break of its own, the lines are the
statements: none is lost, and none becomes two.
-/

namespace Decompiler

open Text

/-! ### Parameters -/

namespace Signature

/-- Only identifiers become parameters. -/
theorem isIdentifier_mention {signature : Signature}
    (h : ∀ name ∈ signature.args, isIdentifier name.toList = true) (mention : Mention) :
    ∀ name ∈ (signature.mention mention).args, isIdentifier name.toList = true := by
  cases mention with
  | store name => exact h
  | load global name =>
      rw [Signature.mention]
      split
      · next hname =>
        have hname : isIdentifier name.toList = true := by
          rw [isName, Bool.and_eq_true] at hname
          exact hname.1
        dsimp only
        split
        · exact h
        · exact List.forall_mem_append.mpr ⟨h, List.forall_mem_singleton.mpr hname⟩
      · exact h

theorem isIdentifier_foldl {signature : Signature}
    (h : ∀ name ∈ signature.args, isIdentifier name.toList = true) (mentions : List Mention) :
    ∀ name ∈ (mentions.foldl mention signature).args, isIdentifier name.toList = true := by
  induction mentions generalizing signature with
  | nil => exact h
  | cons mention mentions ih => exact ih (isIdentifier_mention h mention)

end Signature

theorem isIdentifier_of_mem_args {flags : Flags} {code : Code} {result : Reconstruction}
    (h : reconstruct flags code = .ok result) :
    ∀ name ∈ result.args, isIdentifier name.toList = true := by
  obtain ⟨last, hrun, rfl⟩ := map_eq_ok.mp h
  dsimp only
  rw [Walk.signature_run hrun, Signature.read]
  exact Signature.isIdentifier_foldl (List.forall_mem_nil _) _

/-! ### Statements -/

namespace Statement

variable {unit : List Char} {showOffset : Bool} {s : Statement} {statements : List Statement}

/-- The line of a statement in the body of a function, one level deeper than the statement. -/
def bodyLine (unit : List Char) (showOffset : Bool) (s : Statement) : List Char :=
  (List.replicate (s.indent + 1) unit).flatten ++ s.node.chars ++
    if showOffset then "  # ".toList ++ digits s.offset else []

theorem append_chars (unit : List Char) (showOffset : Bool) (s : Statement) :
    unit ++ s.chars unit showOffset = s.bodyLine unit showOffset := by
  simp only [chars, bodyLine, List.replicate_succ, List.flatten_cons, List.append_assoc]

theorem unbroken_chars (hunit : Unbroken unit) (h : s.node.IsUnbroken) :
    Unbroken (s.chars unit showOffset) := by
  have hindent : Unbroken (List.replicate s.indent unit).flatten := by
    refine .flatten fun part hpart => ?_
    rw [List.eq_of_mem_replicate hpart]
    exact hunit
  refine (hindent.append h.unbroken_chars).append ?_
  split
  · exact .append (by decide) (unbroken_digits s.offset)
  · exact unbroken_nil

theorem chars_ne_nil (h : s.node.IsUnbroken) : s.chars unit showOffset ≠ [] :=
  List.append_ne_nil_of_left_ne_nil (List.append_ne_nil_of_right_ne_nil _ h.chars_ne_nil) _

/-- The lines of the text that shows some statements are those of the statements. -/
theorem lines_renderAll (hunit : Unbroken unit) (h : ∀ s ∈ statements, s.node.IsUnbroken) :
    Text.lines (renderAll unit showOffset statements) = statements.map (chars unit showOffset) :=
  lines_intercalate (List.forall_mem_map.mpr fun s hs => unbroken_chars hunit (h s hs))
    (List.forall_mem_map.mpr fun s hs => chars_ne_nil (h s hs))

end Statement

/-! ### Segments -/

namespace Segment

variable {segment : Segment} {options : Options}

def headLine (name : String) (args : List String) : List Char :=
  "def ".toList ++ name.toList ++ '(' :: [','].intercalate (args.map String.toList) ++ [')', ':']

/-- The lines below it, one for each statement, or a single one if there is none. -/
def bodyLines (unit : List Char) (showOffsets : Bool) : List Statement → List (List Char)
  | [] => [unit ++ "pass".toList]
  | statements => statements.map (Statement.bodyLine unit showOffsets)

theorem definition_eq {unit : List Char} {found : Reconstruction} (hunit : Unbroken unit)
    (h : ∀ s ∈ found.statements, s.node.IsUnbroken) (name : String) (showOffsets : Bool) :
    definition name unit showOffsets found =
      (headLine name found.args :: bodyLines unit showOffsets found.statements).flatMap line := by
  rw [definition, List.flatMap_cons]
  congr 1
  cases hstatements : found.statements with
  | nil => simp [bodyLines]
  | cons first rest =>
      rw [hstatements] at h
      dsimp only
      rw [Statement.lines_renderAll hunit h, bodyLines, List.flatMap_map, List.flatMap_map]
      · simp only [Statement.append_chars]
      · exact List.cons_ne_nil first rest

theorem unbroken_bodyLines {unit : List Char} {statements : List Statement} (hunit : Unbroken unit)
    (h : ∀ s ∈ statements, s.node.IsUnbroken) (showOffsets : Bool) :
    ∀ text ∈ bodyLines unit showOffsets statements, Unbroken text := by
  cases statements with
  | nil => exact List.forall_mem_singleton.mpr (hunit.append (by decide))
  | cons first rest =>
      refine List.forall_mem_map.mpr fun s hs => ?_
      rw [← Statement.append_chars]
      exact hunit.append (Statement.unbroken_chars hunit (h s hs))

/-- A name without line feeds makes the head one line, even if it ends in a carriage return. -/
theorem lines_headLine {name : String} {args : List String} (hname : '\n' ∉ name.toList)
    (hargs : ∀ arg ∈ args, isIdentifier arg.toList = true) (rest : List Char) :
    Text.lines (line (headLine name args) ++ rest) = headLine name args :: Text.lines rest := by
  have hcommas : Unbroken ([','].intercalate (args.map String.toList)) :=
    .intercalate (by decide)
      (List.forall_mem_map.mpr fun arg harg => unbroken_of_isIdentifier (hargs arg harg))
  have hdef : Unbroken "def ".toList := by decide
  have hfeed : '\n' ∉ headLine name args := by
    have hclose : Unbroken [')', ':'] := by decide
    have happend {first last : List Char} (h : '\n' ∉ first) (h' : '\n' ∉ last) :
        '\n' ∉ first ++ last := fun hmem => (List.mem_append.mp hmem).elim h h'
    exact happend (happend (happend hdef.not_mem hname) (hcommas.cons (by decide)).not_mem)
      hclose.not_mem
  have hlast : (headLine name args).getLast? = some ':' :=
    List.getLast?_append_of_ne_nil _ (List.cons_ne_nil ')' [':'])
  rw [line, List.append_assoc, List.singleton_append,
    lines_append_newline hfeed (by simp [hlast])]

/-- The text of a segment is its head and one line for each of its statements, in order, with the
statement one level deeper than it stands, and with its offset if jumps are left as they are; without
any statement it is `pass`. No statement has a line break of its own, so these are the lines of the
text, and joining the statements and cutting the text again changes nothing. -/
theorem decompile_lines (segment : Segment) (options : Options)
    (hbody : '\r' ∉ segment.body.toList) (hmode : options.mode = .pseudo)
    (hindent : Unbroken options.indent.toList) (output : String)
    (h : segment.decompile options = .ok output) :
    let unit := options.indent.toList
    let raw := (segment.flags options).rawJumps
    ∃ found,
      reconstruct (segment.flags options) (Listing.parse segment.body.toList) = .ok found ∧
      output.toList =
        (headLine segment.name found.args :: bodyLines unit raw found.statements).flatMap line ∧
      (∀ text ∈ bodyLines unit raw found.statements, Unbroken text) ∧
      Text.lines (Statement.renderAll unit raw found.statements) =
        found.statements.map (Statement.chars unit raw) ∧
      ('\n' ∉ segment.name.toList → Text.lines output.toList =
        headLine segment.name found.args :: bodyLines unit raw found.statements) := by
  intro unit raw
  rw [decompile, chars, hmode] at h
  dsimp only at h
  cases hfound : reconstruct (segment.flags options) (Listing.parse segment.body.toList) with
  | error e =>
      rw [hfound] at h
      cases h
  | ok found =>
      have hstatements := Walk.isUnbroken_of_reconstruct hfound (Listing.isUnbroken_parse hbody)
      have hlines := unbroken_bodyLines hindent hstatements raw
      have houtput : output.toList = definition segment.name unit raw found := by
        rw [hfound] at h
        cases h
        rw [String.toList_ofList]
      rw [definition_eq hindent hstatements] at houtput
      refine ⟨found, rfl, houtput, hlines, Statement.lines_renderAll hindent hstatements,
        fun hname => ?_⟩
      rw [houtput, List.flatMap_cons, lines_headLine hname (isIdentifier_of_mem_args hfound)]
      exact congrArg _ (lines_flatMap hlines)

/-- A branch as it is nested, and with its jump left as it is. -/
theorem decompile_lines_branch :
    let segment : Segment := ⟨"f", "0 LOAD_FAST 0 (x)\n2 POP_JUMP_IF_FALSE 6\n4 LOAD_FAST 1 (y)"⟩
    let nested : Options := { indent := "  " }
    let raw : Options := { indent := "  ", flags := { rawJumps := true } }
    let shown := "def f(x,y):\n  if x:\n    y\n"
    let jumps := "def f(x,y):\n  if not x: goto 6  # 2\n  y  # 4\n"
    ('\r' ∉ segment.body.toList ∧ Unbroken nested.indent.toList ∧ '\n' ∉ segment.name.toList) ∧
      (segment.decompile nested = .ok shown ∧ ∃ found : Reconstruction,
        found.statements.length = 2 ∧ Text.lines shown.toList =
          headLine "f" found.args :: bodyLines "  ".toList false found.statements) ∧
      (segment.decompile raw = .ok jumps ∧ ∃ found : Reconstruction,
        found.statements.length = 2 ∧ Text.lines jumps.toList =
          headLine "f" found.args :: bodyLines "  ".toList true found.statements) := by
  intro segment nested raw shown jumps
  have hbody : '\r' ∉ segment.body.toList := by decide
  have hindent : Unbroken nested.indent.toList := by decide
  have hname : '\n' ∉ segment.name.toList := by decide
  have hshown : segment.decompile nested = .ok shown := by decide
  have hjumps : segment.decompile raw = .ok jumps := by decide +kernel
  obtain ⟨found, hfound, -, -, -, hlines⟩ :=
    decompile_lines segment nested hbody rfl hindent shown hshown
  obtain ⟨other, hother, -, -, -, hrows⟩ :=
    decompile_lines segment raw hbody rfl hindent jumps hjumps
  have hcount (flags : Flags) {found : Reconstruction}
      (hcount : (reconstruct flags (Listing.parse segment.body.toList)).map
        (fun found => found.statements.length) = .ok 2)
      (hfound : reconstruct flags (Listing.parse segment.body.toList) = .ok found) :
      found.statements.length = 2 := by
    rw [hfound] at hcount
    exact Except.ok.inj hcount
  exact ⟨⟨hbody, hindent, hname⟩, ⟨hshown, found, hcount _ (by decide) hfound, hlines hname⟩,
    hjumps, other, hcount _ (by decide) hother, hrows hname⟩

end Segment

end Decompiler
