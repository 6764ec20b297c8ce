import Mathlib.Data.List.Basic
import Decompiler.Text.Basic

/-!
Reading back what was written: numerals, texts between marks, items parted by a character.
-/

namespace Decompiler.Text

section Decide

variable (p : Char → Prop) [DecidablePred p]

/-- What is said of the characters of a text is decided along the text. -/
instance decidableForallMem (text : List Char) : Decidable (∀ c ∈ text, p c) :=
  List.decidableBAll p text

instance decidableForallMemOption (found : Option Char) : Decidable (∀ c ∈ found, p c) :=
  Option.decidableForallMem found

end Decide

/-- The visible characters of ASCII are no blanks. -/
theorem isBlank_of_visible {c : Char} (hlow : 0x21 ≤ c.toNat) (hhigh : c.toNat ≤ 0x7E) :
    isBlank c = false := by
  refine List.any_eq_false.mpr fun range hrange => ?_
  have hfar : ∀ range ∈ blankRanges, range.2 < 0x21 ∨ 0x7E < range.1 := by decide
  have := hfar range hrange
  rw [Bool.and_eq_true, decide_eq_true_eq, decide_eq_true_eq]
  omega

theorem isBlank_of_isDigit {c : Char} (h : c.isDigit = true) : isBlank c = false := by
  obtain ⟨hlow, hhigh⟩ := Char.isDigit_iff_toNat.mp h
  exact isBlank_of_visible (Nat.le_trans (by decide) hlow) (Nat.le_trans hhigh (by decide))

theorem isDigit_of_mem_digits {n : Nat} {c : Char} (h : c ∈ digits n) : c.isDigit = true :=
  Nat.isDigit_of_mem_toDigits (by decide) (by decide) h

theorem trim_digits (n : Nat) : trim (digits n) = digits n := by
  refine trim_eq_self (fun c hc => ?_) (fun c hc => ?_)
  · exact isBlank_of_isDigit (isDigit_of_mem_digits (List.mem_of_mem_head? hc))
  · exact isBlank_of_isDigit (isDigit_of_mem_digits (List.mem_of_mem_getLast? hc))

theorem natural?_digits {bound n : Nat} (h : n < bound) : natural? bound (digits n) = some n := by
  unfold natural?
  split
  · next rest hplus =>
    have hmem : '+' ∈ digits n := by simp [hplus]
    exact absurd (isDigit_of_mem_digits hmem) (by decide)
  · exact numeral?_digits h

theorem isIdentifierPart_of_mem {text : List Char} (h : isIdentifier text = true) {c : Char}
    (hc : c ∈ text) : isIdentifierPart c = true := by
  cases text with
  | nil => cases h
  | cons first rest =>
      rw [isIdentifier, Bool.and_eq_true, List.all_eq_true] at h
      rcases List.mem_cons.mp hc with rfl | hc
      · have hfirst := h.1
        simp only [isIdentifierStart, Bool.or_eq_true, decide_eq_true_eq] at hfirst
        simp only [isIdentifierPart, Char.isAlphanum, Bool.or_eq_true, decide_eq_true_eq]
        exact hfirst.imp_right Or.inl
      · exact h.2 c hc

theorem between_append (opening closing text : List Char) :
    between opening closing (opening ++ text ++ closing) = some text := by
  have hopen : opening.isPrefixOf? (opening ++ (text ++ closing)) = some (text ++ closing) :=
    List.isPrefixOf?_eq_some_iff_append_eq.mpr rfl
  rw [between, List.append_assoc, hopen, Option.bind_some]
  exact List.isSuffixOf?_eq_some_iff_append_eq.mpr rfl

theorem split_of_forall_not {test : Char → Bool} {part : List Char}
    (h : ∀ c ∈ part, test c = false) : split test part = [part] := by
  induction part with
  | nil => rfl
  | cons c part ih =>
      have hc : test c = false := h c (List.mem_cons_self ..)
      rw [split, hc, ih fun d hd => h d (List.mem_cons_of_mem _ hd)]
      rfl

theorem split_append_cons {test : Char → Bool} {part : List Char}
    (h : ∀ c ∈ part, test c = false) {mark : Char} (hmark : test mark = true) (rest : List Char) :
    split test (part ++ mark :: rest) = part :: split test rest := by
  induction part with
  | nil => simp [split, hmark]
  | cons c part ih =>
      have hc : test c = false := h c (List.mem_cons_self ..)
      rw [List.cons_append, split, hc, ih fun d hd => h d (List.mem_cons_of_mem _ hd)]
      rfl

theorem trim_cons_of_isBlank {c : Char} (h : isBlank c = true) (text : List Char) :
    trim (c :: text) = trim text := by
  rw [trim, trimStart, List.dropWhile_cons, if_pos h]
  rfl

/-- A text whose characters all pass a test ends where one comes that does not. -/
theorem append_inj_of_test {test : Char → Bool} {text other rest more : List Char}
    (htext : ∀ c ∈ text, test c = true) (hother : ∀ c ∈ other, test c = true)
    (hrest : ∀ c ∈ rest.head?, test c = false) (hmore : ∀ c ∈ more.head?, test c = false)
    (h : text ++ rest = other ++ more) : text = other ∧ rest = more := by
  have hread {text rest : List Char} (htext : ∀ c ∈ text, test c = true)
      (hrest : ∀ c ∈ rest.head?, test c = false) : (text ++ rest).takeWhile test = text := by
    rw [List.takeWhile_append_of_pos htext]
    cases rest with
    | nil => rw [List.takeWhile_nil, List.append_nil]
    | cons c rest => rw [List.takeWhile_cons_of_neg (by simp [hrest c rfl]), List.append_nil]
  obtain rfl : text = other := by rw [← hread htext hrest, h, hread hother hmore]
  exact ⟨rfl, List.append_cancel_left h⟩

/-- A text is cut at the last of its marks in one way only. -/
theorem append_cons_inj_of_not_mem {mark : Char} {text other tail last : List Char}
    (htail : mark ∉ tail) (hlast : mark ∉ last) (h : text ++ mark :: tail = other ++ mark :: last) :
    text = other ∧ tail = last := by
  have hplain {tail : List Char} (htail : mark ∉ tail) :
      ∀ c ∈ tail.reverse, (c != mark) = true := fun c hc =>
    bne_iff_ne.mpr (ne_of_mem_of_not_mem (List.mem_reverse.mp hc) htail)
  have hstop (text : List Char) : ∀ c ∈ (mark :: text.reverse).head?, (c != mark) = false := by
    simp
  have hreverse : tail.reverse ++ mark :: text.reverse = last.reverse ++ mark :: other.reverse := by
    simpa using congrArg List.reverse h
  obtain ⟨htails, htexts⟩ := append_inj_of_test (hplain htail) (hplain hlast) (hstop text)
    (hstop other) hreverse
  exact ⟨List.reverse_injective (List.cons.inj htexts).2, List.reverse_injective htails⟩

end Decompiler.Text
