import Decompiler.Proofs.Dump.Meaningful

/-!
Dumps one behind the other. A header cuts a dump: of what stands before it nothing gets behind it, and
what is made of the rows from there on does not depend on what stands before. So two dumps in a row,
of which the second one starts with a header, are decompiled each for itself.
-/

namespace Decompiler

open Text

namespace Segment

/-- What a segment is read from that is passed over at the front. -/
def isBlankFront (found : String × List (List Char)) : Bool :=
  decide (found.1 = mainName ∧ found.2 = [])

/-- What the segments are read from that rows are split into. -/
def summaries (rows : List (List Char)) : List (String × List (List Char)) :=
  ((mainName, (gather rows).1) :: (gather rows).2).dropWhile isBlankFront

variable {row : List Char} {name : String}

/-- A header ends the segment that stands before it. -/
theorem gather_append (h : header? row = some name) (before after : List (List Char)) :
    gather (before ++ row :: after) =
      ((gather before).1, (gather before).2 ++ (gather (row :: after)).2) := by
  induction before with
  | nil =>
      rw [List.nil_append, gather_cons_of_header h]
      rfl
  | cons piece before ih =>
      rw [List.cons_append]
      cases hpiece : header? piece with
      | some other =>
          rw [gather_cons_of_header hpiece, gather_cons_of_header hpiece, ih]
          rfl
      | none => rw [gather_cons_of_none hpiece, gather_cons_of_none hpiece, ih]

/-- From a header on no segment is passed over. -/
theorem dropWhile_gather (h : header? row = some name) (hname : name ≠ mainName)
    (after : List (List Char)) :
    (gather (row :: after)).2.dropWhile isBlankFront = (gather (row :: after)).2 := by
  have hkept : ¬ isBlankFront (name, (gather after).1) = true := by simp [isBlankFront, hname]
  rw [gather_cons_of_header h, List.dropWhile_cons_of_neg hkept]

theorem summaries_cons_header (h : header? row = some name) (hname : name ≠ mainName)
    (after : List (List Char)) : summaries (row :: after) = (gather (row :: after)).2 := by
  have hmain : isBlankFront (mainName, (gather (row :: after)).1) = true := by
    rw [gather_cons_of_header h]
    rfl
  rw [summaries, List.dropWhile_cons_of_pos hmain, dropWhile_gather h hname]

theorem summaries_append (h : header? row = some name) (hname : name ≠ mainName)
    (before after : List (List Char)) :
    summaries (before ++ row :: after) = summaries before ++ summaries (row :: after) := by
  rw [summaries_cons_header h hname, summaries, gather_append h, ← List.cons_append, List.dropWhile_append,
    dropWhile_gather h hname, ← summaries]
  split
  · next hempty => rw [List.isEmpty_iff.mp hempty, List.nil_append]
  · rfl

theorem chars_ne_nil {segment : Segment} {options : Options} {text : List Char}
    (h : segment.chars options = .ok text) : text ≠ [] := by
  rw [chars] at h
  cases hmode : options.mode with
  | pseudo =>
      rw [hmode] at h
      obtain ⟨found, -, rfl⟩ := map_eq_ok.mp h
      simp [definition, line]
  | instructions =>
      rw [hmode] at h
      cases h
      simp [table, line]

end Segment

namespace Dump

def texts (options : Options) (dump : List Char) : Except Error (List (List Char)) :=
  (Segment.split (stripComments dump)).mapM (Segment.chars · options)

/-- The texts of segments with an empty line between two of them. -/
def joined (texts : List (List Char)) : String := String.ofList (['\n'].intercalate texts)

theorem decompile_eq (dump : String) (options : Options) :
    decompile dump options = (texts options dump.toList).map joined := rfl

theorem summaries_split (dump : List Char) :
    (Segment.split (stripComments dump)).map Segment.summary =
      Segment.summaries (meaningful dump) := by
  rw [Segment.map_summary_split, rows_stripComments]
  rfl

/-- The first row of a dump that is no comment is a header, and not that of the main segment. -/
def StartsSegment (dump : List Char) : Prop :=
  ∃ row ∈ (meaningful dump).head?, ∃ name ∈ Segment.header? row, name ≠ Segment.mainName

theorem texts_append (options : Options) (before : List Char) {after : List Char}
    (h : StartsSegment after) :
    texts options (before ++ '\n' :: after) = do
      let first ← texts options before
      let second ← texts options after
      return first ++ second := by
  obtain ⟨row, hrow, name, hheader, hname⟩ := h
  obtain ⟨rows, hrows⟩ := List.head?_eq_some_iff.mp hrow
  have hsummaries :
      (Segment.split (stripComments (before ++ '\n' :: after))).map Segment.summary =
        (Segment.split (stripComments before) ++ Segment.split (stripComments after)).map
          Segment.summary := by
    rw [List.map_append, summaries_split, summaries_split, summaries_split,
      meaningful_append_newline, hrows]
    exact Segment.summaries_append hheader hname _ _
  rw [texts, mapM_chars_congr hsummaries, List.mapM_append]
  rfl

theorem ne_nil_of_mem_texts {options : Options} {segments : List Segment}
    {found : List (List Char)} (h : segments.mapM (Segment.chars · options) = .ok found) :
    ∀ text ∈ found, text ≠ [] := by
  induction segments generalizing found with
  | nil =>
      cases h
      exact List.forall_mem_nil _
  | cons segment segments ih =>
      rw [List.mapM_cons] at h
      obtain ⟨text, htext, h⟩ := bind_eq_ok.mp h
      obtain ⟨rest, hrest, h⟩ := bind_eq_ok.mp h
      cases h
      exact List.forall_mem_cons.mpr ⟨Segment.chars_ne_nil htext, ih hrest⟩

/-- What is written for no segment at all is empty, and for some it is not. -/
theorem intercalate_eq_nil_iff {parts : List (List Char)} (h : ∀ part ∈ parts, part ≠ []) :
    ['\n'].intercalate parts = [] ↔ parts = [] := by
  cases parts with
  | nil => simp
  | cons part parts =>
      have hpart := (List.forall_mem_cons.mp h).1
      cases parts with
      | nil => simpa using hpart
      | cons next parts => simp [List.intercalate_cons_cons]

theorem intercalate_append {parts others : List (List Char)} (hparts : parts ≠ [])
    (hothers : others ≠ []) :
    ['\n'].intercalate (parts ++ others) =
      ['\n'].intercalate parts ++ '\n' :: ['\n'].intercalate others := by
  induction parts with
  | nil => exact absurd rfl hparts
  | cons part parts ih =>
      cases parts with
      | nil => simp [List.intercalate_cons_of_ne_nil hothers]
      | cons next parts =>
          rw [List.cons_append, List.cons_append, List.intercalate_cons_cons, ← List.cons_append,
            ih (List.cons_ne_nil next parts), List.intercalate_cons_cons, List.append_assoc,
            List.append_assoc, List.append_assoc]

theorem ne_nil_of_startsSegment {options : Options} {dump : List Char} {found : List (List Char)}
    (h : StartsSegment dump) (hfound : texts options dump = .ok found) : found ≠ [] := by
  rintro rfl
  obtain ⟨row, hrow, name, hheader, hname⟩ := h
  obtain ⟨rows, hrows⟩ := List.head?_eq_some_iff.mp hrow
  have hsummaries := summaries_split dump
  cases hsplit : Segment.split (stripComments dump) with
  | nil =>
      rw [hsplit, hrows, Segment.summaries_cons_header hheader hname,
        Segment.gather_cons_of_header hheader] at hsummaries
      cases hsummaries
  | cons segment segments =>
      rw [texts, hsplit, List.mapM_cons] at hfound
      obtain ⟨text, -, hfound⟩ := bind_eq_ok.mp hfound
      obtain ⟨rest, -, hfound⟩ := bind_eq_ok.mp hfound
      cases hfound

theorem joined_append {parts others : List (List Char)} (hparts : ∀ part ∈ parts, part ≠ [])
    (hothers : others ≠ []) :
    joined (parts ++ others) =
      if joined parts = "" then joined others else joined parts ++ "\n" ++ joined others := by
  have hempty : joined parts = "" ↔ parts = [] := by
    rw [joined, String.ofList_eq_empty_iff, intercalate_eq_nil_iff hparts]
  split
  · next hnil => rw [hempty.mp hnil, List.nil_append]
  · next hne =>
    rw [joined, intercalate_append (fun hnil => hne (hempty.mpr hnil)) hothers]
    simp [joined, ← String.toList_inj]

/-- A dump behind which comes one that starts with a header: both are decompiled each for itself, the
first fault counts, and between the two texts there is an empty line if there is a first one. -/
theorem decompile_append (options : Options) (first second : String)
    (h : StartsSegment second.toList) :
    decompile (first ++ "\n" ++ second) options = do
      let before ← decompile first options
      let after ← decompile second options
      return if before = "" then after else before ++ "\n" ++ after := by
  have htoList : (first ++ "\n" ++ second).toList = first.toList ++ '\n' :: second.toList := by
    simp
  rw [decompile_eq, decompile_eq, decompile_eq, htoList, texts_append options _ h]
  cases hfirst : texts options first.toList with
  | error e => rfl
  | ok before =>
      cases hsecond : texts options second.toList with
      | error e => rfl
      | ok after =>
          exact congrArg Except.ok
            (joined_append (ne_nil_of_mem_texts hfirst) (ne_nil_of_startsSegment h hsecond))

/-- The first dump ends inside a branch and with a prefix that nothing follows, and it names a line. -/
theorem decompile_append_open :
    let first := "7 0 LOAD_NAME 0 (x)\n2 POP_JUMP_IF_FALSE 8\n4 EXTENDED_ARG 1\n# end"
    let second := "\n# next\n Disassembly of f:\n0 LOAD_FAST 0 (x)\n2 RETURN_VALUE"
    StartsSegment second.toList ∧
      decompile first {} = .ok "def main(x):\n\tif x:\n" ∧
      decompile second {} = .ok "def f(x):\n\treturn x\n" ∧
      decompile (first ++ "\n" ++ second) {} =
        .ok "def main(x):\n\tif x:\n\ndef f(x):\n\treturn x\n" := by
  intro first second
  have hstarts : StartsSegment second.toList :=
    ⟨"Disassembly of f:".toList, by decide, "f", by decide, by decide⟩
  have hfirst : decompile first {} = .ok "def main(x):\n\tif x:\n" := by decide
  have hsecond : decompile second {} = .ok "def f(x):\n\treturn x\n" := by decide
  refine ⟨hstarts, hfirst, hsecond, ?_⟩
  rw [decompile_append {} first second hstarts, hfirst, hsecond]
  rfl

end Dump

end Decompiler
