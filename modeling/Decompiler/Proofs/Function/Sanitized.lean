import Decompiler.Dump
import Decompiler.Proofs.Function.Name
import Decompiler.Proofs.Statements.Lines

/-!
Names made of texts in angle brackets that describe no code object. Whatever such a text is, something is
left of it, and only letters, digits and underscores. But a digit that may not come first takes the first
place once the underscores in front of it are gone, so the name is an identifier exactly if the first letter
or digit in the brackets is no digit.
-/

namespace Decompiler

open Text

/-! ### Texts -/

namespace Text

/-- The character that sanitizing puts first, if it keeps a letter or a digit at all: the first one of the
text if it is a letter, and else the first letter or digit behind it. -/
def leading? : List Char → Option Char
  | [] => none
  | c :: rest => if c.isAlpha then some c else rest.find? Char.isAlphanum

/-- A character where it may stand, and an underscore where it may not. -/
def masked (test : Char → Bool) (c : Char) : Char := if test c then c else '_'

def maskedText : List Char → List Char
  | [] => []
  | c :: rest => masked isIdentifierStart c :: rest.map (masked isIdentifierPart)

/-- What is left of a text between underscores. -/
def bare (text : List Char) : List Char :=
  dropEndWhile (· = '_') ((maskedText text).dropWhile (· = '_'))

variable {text : List Char} {c : Char}

theorem sanitize_eq (text : List Char) :
    sanitize text = if bare text = [] then ['_'] else bare text := by
  cases text with
  | nil => rfl
  | cons c rest =>
      simp only [sanitize]
      split
      · next h =>
        have hnil : bare (c :: rest) = [] := h
        rw [if_pos hnil]
      · next h =>
        have hne : bare (c :: rest) ≠ [] := h
        rw [if_neg hne]
        rfl

theorem isIdentifierPart_of_isIdentifierStart (h : isIdentifierStart c = true) :
    isIdentifierPart c = true :=
  isIdentifierPart_of_mem (by rw [isIdentifier, h]; rfl) (List.mem_singleton_self c)

theorem isIdentifierPart_masked {test : Char → Bool}
    (h : ∀ c, test c = true → isIdentifierPart c = true) (c : Char) :
    isIdentifierPart (masked test c) = true := by
  unfold masked
  split
  · next hc => exact h c hc
  · rfl

theorem isIdentifierPart_of_mem_maskedText (h : c ∈ maskedText text) :
    isIdentifierPart c = true := by
  cases text with
  | nil => cases h
  | cons first rest =>
      rcases List.mem_cons.mp h with rfl | h
      · exact isIdentifierPart_masked (fun _ => isIdentifierPart_of_isIdentifierStart) first
      · obtain ⟨d, -, rfl⟩ := List.mem_map.mp h
        exact isIdentifierPart_masked (fun _ hd => hd) d

theorem isIdentifierPart_of_mem_sanitize (h : c ∈ sanitize text) : isIdentifierPart c = true := by
  rw [sanitize_eq] at h
  split at h
  · rw [List.mem_singleton.mp h]
    rfl
  · have hmem := dropEndWhile_subset _ _ h
    exact isIdentifierPart_of_mem_maskedText ((List.dropWhile_sublist _).subset hmem)

/-- Masking makes an underscore of what it does not keep. -/
theorem masked_eq_iff {keep : Char → Bool} (h : keep '_' = false) (c : Char) :
    masked (fun c => c = '_' || keep c) c = '_' ↔ keep c = false := by
  by_cases hc : c = '_'
  · simp [masked, hc, h]
  · cases hkeep : keep c with
    | true => simp [masked, hc, hkeep]
    | false => simp [masked, hc, hkeep]

theorem masked_of_isAlphanum (h : c.isAlphanum = true) : masked isIdentifierPart c = c := by
  rw [masked, isIdentifierPart, h, Bool.or_true, if_pos rfl]

theorem head?_dropWhile_maskedText (text : List Char) :
    ((maskedText text).dropWhile (· = '_')).head? = leading? text := by
  cases text with
  | nil => rfl
  | cons c rest =>
      have hfirst : masked isIdentifierStart c = '_' ↔ c.isAlpha = false :=
        masked_eq_iff (by decide) c
      rw [maskedText, leading?]
      split
      · next halpha =>
        have hkept : masked isIdentifierStart c = c := by
          rw [masked, isIdentifierStart, halpha, Bool.or_true, if_pos rfl]
        rw [List.dropWhile_cons_of_neg (by simp [hfirst, halpha]), List.head?_cons, hkept]
      · next halpha =>
        have htest : (fun c => decide (c = '_')) ∘ masked isIdentifierPart =
            fun c => !c.isAlphanum := by
          funext d
          have hd : masked isIdentifierPart d = '_' ↔ d.isAlphanum = false :=
            masked_eq_iff (by decide) d
          rw [Function.comp_apply, Bool.eq_iff_iff, decide_eq_true_eq, hd, Bool.not_eq_true']
        rw [List.dropWhile_cons_of_pos (by simp [hfirst, halpha]), List.dropWhile_map, htest,
          List.head?_map, ← List.find?_eq_head?_dropWhile_not]
        cases hfound : rest.find? Char.isAlphanum with
        | none => rfl
        | some d => rw [Option.map_some, masked_of_isAlphanum (List.find?_some hfound)]

theorem isAlphanum_of_leading? (h : leading? text = some c) : c.isAlphanum = true := by
  cases text with
  | nil => cases h
  | cons first rest =>
      rw [leading?] at h
      split at h
      · next halpha =>
        rw [← Option.some.inj h, Char.isAlphanum, halpha, Bool.true_or]
      · exact List.find?_some h

/-- Trimming at the end does not reach a letter or digit. -/
theorem head?_bare (text : List Char) : (bare text).head? = leading? text := by
  have hhead := head?_dropWhile_maskedText text
  obtain ⟨tail, htail, hsplit⟩ :=
    exists_dropEndWhile (· = '_') ((maskedText text).dropWhile (· = '_'))
  rw [← bare] at hsplit
  rw [hsplit] at hhead
  cases hbare : bare text with
  | cons c rest =>
      rw [hbare] at hhead
      exact hhead
  | nil =>
      rw [hbare, List.nil_append] at hhead
      rw [← hhead]
      cases tail with
      | nil => rfl
      | cons c rest =>
          -- what is dropped is an underscore, and this would be a letter or digit
          have hc : c = '_' := of_decide_eq_true (htail c (List.mem_cons_self ..))
          have halnum := isAlphanum_of_leading? hhead.symm
          rw [hc] at halnum
          exact absurd halnum (by decide)

theorem head?_sanitize (text : List Char) :
    (sanitize text).head? = some ((leading? text).getD '_') := by
  rw [sanitize_eq, ← head?_bare]
  split
  · next h => rw [h]; rfl
  · next h =>
    obtain ⟨c, rest, hbare⟩ := List.exists_cons_of_ne_nil h
    rw [hbare]
    rfl

theorem isDigit_of_isAlpha (h : c.isAlpha = true) : c.isDigit = false := by
  have hlow : 0x41 ≤ c.toNat := by
    rcases Bool.or_eq_true_iff.mp h with hupper | hlower
    · exact UInt32.le_iff_toNat_le.mp (of_decide_eq_true hupper).1
    · have hge := of_decide_eq_true (Bool.and_eq_true_iff.mp hlower).1
      exact Nat.le_trans (by decide) (UInt32.le_iff_toNat_le.mp hge)
  rw [Bool.eq_false_iff]
  intro hdigit
  have hhigh : c.toNat ≤ 0x39 := (Char.isDigit_iff_toNat.mp hdigit).2
  omega

/-- Of letters and digits, it is the letters that an identifier may start with. -/
theorem isIdentifierStart_iff_of_isAlphanum (h : c.isAlphanum = true) :
    isIdentifierStart c = true ↔ c.isDigit = false := by
  have hne : c ≠ '_' := by
    rintro rfl
    exact absurd h (by decide)
  rw [Char.isAlphanum, Bool.or_eq_true] at h
  rw [isIdentifierStart, Bool.or_eq_true, decide_eq_true_eq]
  constructor
  · exact fun hstart => isDigit_of_isAlpha (hstart.resolve_left hne)
  · intro hdigit
    rw [hdigit] at h
    exact .inr (h.resolve_right (by simp))

/-- The name is an identifier unless a digit comes first. -/
theorem isIdentifier_sanitize (text : List Char) :
    isIdentifier (sanitize text) = true ↔ ∀ c ∈ leading? text, c.isDigit = false := by
  obtain ⟨rest, hname⟩ := List.head?_eq_some_iff.mp (head?_sanitize text)
  have hrest : rest.all isIdentifierPart = true := List.all_eq_true.mpr fun d hd =>
    isIdentifierPart_of_mem_sanitize (hname ▸ List.mem_cons_of_mem _ hd)
  rw [hname, isIdentifier, hrest, Bool.and_true]
  cases hleading : leading? text with
  | none => simp [isIdentifierStart]
  | some d =>
      rw [Option.getD_some, isIdentifierStart_iff_of_isAlphanum (isAlphanum_of_leading? hleading)]
      simp

end Text

/-! ### Functions of a dump -/

namespace Segment

variable {line : List Char} {name : String} {segment : Segment} {options : Options}

/-- A header of something in angle brackets. -/
def bracketHeader (rest : List Char) : List Char :=
  "Disassembly of ".toList ++ '<' :: rest ++ [':']

theorem header?_bracketHeader {rest : List Char} (hline : trim line = bracketHeader rest)
    (hobject : codeObjectName? (String.ofList ('<' :: rest)) = none) :
    header? line = some (String.ofList (sanitize ('<' :: rest))) := by
  have hbetween : between "Disassembly of ".toList [':'] (bracketHeader rest) = some ('<' :: rest) :=
    between_append "Disassembly of ".toList [':'] ('<' :: rest)
  rw [header?, hline, hbetween, Option.map_some, nameOf, hobject, Option.getD_none]

/-- A header is no comment, so it is a line of the dump without comments too. -/
theorem exists_mem_split_stripComments {dump : List Char} (h : header? line = some name)
    (hname : name ≠ mainName) (hline : line ∈ lines dump) :
    ∃ segment ∈ split (Dump.stripComments dump), segment.name = name := by
  have hrow : trim line ∈ Dump.meaningful dump := by
    obtain ⟨described, hbetween, -⟩ := Option.map_eq_some_iff.mp h
    obtain ⟨rest, hprefix, -⟩ := Option.bind_eq_some_iff.mp hbetween
    have happend := List.isPrefixOf?_eq_some_iff_append_eq.mp hprefix
    have hhead : (trim line).head? = some 'D' := by
      rw [← happend]
      rfl
    refine List.mem_filter.mpr ⟨List.mem_filter.mpr ⟨List.mem_map_of_mem hline, ?_⟩, ?_⟩
    · simp [trim_ne_nil_of_header? h]
    · simp [hhead]
  rw [← Dump.rows_stripComments, rows, rowsOf] at hrow
  obtain ⟨other, hother, htrim⟩ := List.mem_map.mp (List.mem_filter.mp hrow).1
  refine exists_mem_split ?_ hname hother
  rw [← header?_trim, htrim, header?_trim, h]

/-- The text of a segment begins with the line that names the function. -/
theorem headLine_prefix {text : List Char} (hmode : options.mode = .pseudo)
    (h : segment.chars options = .ok text) :
    ∃ args, Segment.line (headLine segment.name args) <+: text := by
  rw [chars, hmode] at h
  obtain ⟨found, -, rfl⟩ := map_eq_ok.mp h
  exact ⟨found.args, List.prefix_append _ _⟩

end Segment

namespace Dump

theorem exists_chars_of_mem {options : Options} {segments : List Segment}
    {found : List (List Char)} (h : segments.mapM (Segment.chars · options) = .ok found)
    {segment : Segment} (hsegment : segment ∈ segments) :
    ∃ text ∈ found, segment.chars options = .ok text := by
  induction segments generalizing found with
  | nil => cases hsegment
  | cons first segments ih =>
      rw [List.mapM_cons] at h
      obtain ⟨text, htext, h⟩ := bind_eq_ok.mp h
      obtain ⟨rest, hrest, h⟩ := bind_eq_ok.mp h
      cases h
      rcases List.mem_cons.mp hsegment with rfl | hsegment
      · exact ⟨text, List.mem_cons_self .., htext⟩
      · obtain ⟨other, hother, hchars⟩ := ih hrest hsegment
        exact ⟨other, List.mem_cons_of_mem _ hother, hchars⟩

theorem infix_intercalate {text : List Char} {parts : List (List Char)} (h : text ∈ parts) :
    text <:+: ['\n'].intercalate parts := by
  induction parts with
  | nil => cases h
  | cons part parts ih =>
      cases parts with
      | nil =>
          rw [List.intercalate_singleton]
          exact List.mem_singleton.mp h ▸ List.infix_refl text
      | cons next parts =>
          rw [List.intercalate_cons_cons]
          rcases List.mem_cons.mp h with rfl | h
          · rw [List.append_assoc]
            exact (List.prefix_append _ _).isInfix
          · exact (ih h).trans (List.suffix_append _ _).isInfix

/-- Each segment of a dump is in its text, with the line that names the function. -/
theorem headLine_infix {dump output : String} {options : Options} (hmode : options.mode = .pseudo)
    (h : decompile dump options = .ok output) {segment : Segment}
    (hsegment : segment ∈ Segment.split (stripComments dump.toList)) :
    ∃ args, Segment.line (Segment.headLine segment.name args) <:+: output.toList := by
  rw [decompile] at h
  obtain ⟨found, hfound, rfl⟩ := map_eq_ok.mp h
  obtain ⟨text, htext, hchars⟩ := exists_chars_of_mem hfound hsegment
  obtain ⟨args, hargs⟩ := Segment.headLine_prefix hmode hchars
  refine ⟨args, ?_⟩
  rw [String.toList_ofList]
  exact hargs.isInfix.trans (infix_intercalate htext)

end Dump

open Segment

/-- Something is left of every text, letters, digits and underscores only, and it is an identifier unless
the first of the letters and digits that are kept is a digit. So it is with what a header puts in angle
brackets if no code object can be read from it: the function that is written for it has this name, and the
name is an identifier exactly if the first letter or digit in the brackets is no digit. -/
theorem sanitized_isIdentifier_iff (text rest line : List Char) :
    (sanitize text ≠ [] ∧ (∀ c ∈ sanitize text, isIdentifierPart c = true) ∧
      (isIdentifier (sanitize text) = true ↔ ∀ c ∈ leading? text, c.isDigit = false)) ∧
      (trim line = bracketHeader rest → codeObjectName? (String.ofList ('<' :: rest)) = none →
        ∃ name, header? line = some name ∧
          (isIdentifier name.toList = true ↔
            ∀ c ∈ rest.find? Char.isAlphanum, c.isDigit = false) ∧
          ∀ (dump output : String) (options : Options), options.mode = .pseudo →
            Dump.decompile dump options = .ok output → line ∈ lines dump.toList →
              name ≠ mainName → ∃ args, Segment.line (headLine name args) <:+: output.toList) := by
  constructor
  · refine ⟨fun hnil => ?_, fun c => isIdentifierPart_of_mem_sanitize, isIdentifier_sanitize text⟩
    have hhead := head?_sanitize text
    rw [hnil] at hhead
    cases hhead
  · intro hline hobject
    have hheader := header?_bracketHeader hline hobject
    refine ⟨_, hheader, ?_, fun dump output options hmode houtput hmem hname => ?_⟩
    · rw [String.toList_ofList]
      exact isIdentifier_sanitize ('<' :: rest)
    · obtain ⟨segment, hsegment, hsame⟩ := exists_mem_split_stripComments hheader hname hmem
      rw [← hsame]
      exact Dump.headLine_infix hmode houtput hsegment

/-- In the brackets a letter outside of ASCII and a hyphen stand before the first letter that is kept, and a
digit behind it. -/
theorem sanitized_isIdentifier_iff_plot :
    let dump := "0 NOP\n Disassembly of <ü-plot 2>:\n0 LOAD_FAST 0 (x)\n2 RETURN_VALUE"
    let line := " Disassembly of <ü-plot 2>:".toList
    let output := "def main():\n\tpass\n\ndef plot_2(x):\n\treturn x\n"
    trim line = bracketHeader "ü-plot 2>".toList ∧
      codeObjectName? (String.ofList ('<' :: "ü-plot 2>".toList)) = none ∧
      ("ü-plot 2>".toList.find? Char.isAlphanum = some 'p') ∧
      header? line = some "plot_2" ∧ isIdentifier "plot_2".toList = true ∧
      line ∈ lines dump.toList ∧ Dump.decompile dump {} = .ok output ∧
      ∃ args, Segment.line (headLine "plot_2" args) <:+: output.toList := by
  intro dump line output
  have hline : trim line = bracketHeader "ü-plot 2>".toList := by decide
  have hobject : codeObjectName? (String.ofList ('<' :: "ü-plot 2>".toList)) = none := by decide
  have hfirst : "ü-plot 2>".toList.find? Char.isAlphanum = some 'p' := by decide
  have hheader : header? line = some "plot_2" := by decide
  have hmem : line ∈ lines dump.toList := by decide
  have houtput : Dump.decompile dump {} = .ok output := by decide
  obtain ⟨name, hname, hiff, hdef⟩ := (sanitized_isIdentifier_iff [] _ line).2 hline hobject
  obtain rfl : "plot_2" = name := Option.some.inj (hheader.symm.trans hname)
  refine ⟨hline, hobject, hfirst, hheader, hiff.mpr ?_, hmem, houtput,
    hdef dump output {} rfl houtput hmem (by decide)⟩
  rw [hfirst]
  decide

/-- So not all functions have identifiers for names: the underscore in front of this digit is taken away
again. -/
theorem not_isIdentifier_sanitized_digit :
    let dump := "Disassembly of <1>:\n0 LOAD_NAME 0 (x)"
    codeObjectName? "<1>" = none ∧ sanitize "<1>".toList = ['1'] ∧
      isIdentifier (sanitize "<1>".toList) = false ∧
      Dump.decompile dump {} = .ok "def 1(x):\n\tx\n" := by
  decide

end Decompiler
