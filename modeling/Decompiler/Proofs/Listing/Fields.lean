import Decompiler.Proofs.Listing.Reading

/-!
Fields. A line is written as fields with blanks between them, of which only the last one may have
blanks in it. The reader finds each field again, and what comes after it.
-/

namespace Decompiler.Listing

open Text

/-- A field that is one word. -/
def Solid (field : List Char) : Prop := field ≠ [] ∧ ∀ c ∈ field, isBlank c = false

instance (field : List Char) : Decidable (Solid field) :=
  decidable_of_iff (field ≠ [] ∧ (field.all fun c => !isBlank c) = true) (by simp [Solid])

/-- These fields in a row, with one blank or more between two of them and any number at the end. -/
inductive Spaced : List (List Char) → List Char → Prop
  | last (field tail : List Char) (h : Blanks tail) : Spaced [field] (field ++ tail)
  | cons (field gap : List Char) {line : List Char} {fields : List (List Char)} (h : Blanks gap)
      (hgap : gap ≠ []) (rest : Spaced fields line) :
      Spaced (field :: fields) (field ++ (gap ++ line))

/-- What comes after a field: blanks, and the fields that are left. -/
def Follows (fields : List (List Char)) (rest : List Char) : Prop :=
  fields = [] ∧ Blanks rest ∨
    ∃ gap line, Blanks gap ∧ gap ≠ [] ∧ Spaced fields line ∧ rest = gap ++ line

variable {field rest line : List Char} {fields more : List (List Char)}

theorem Spaced.exists_follows (h : Spaced (field :: fields) line) :
    ∃ rest, line = field ++ rest ∧ Follows fields rest := by
  cases h with
  | last field tail htail => exact ⟨_, rfl, Or.inl ⟨rfl, htail⟩⟩
  | cons field gap hgap hne hrest => exact ⟨_, rfl, Or.inr ⟨_, _, hgap, hne, hrest, rfl⟩⟩

/-- One blank between two fields. -/
theorem spaced_intercalate (h : fields ≠ []) : Spaced fields ([' '].intercalate fields) := by
  induction fields with
  | nil => exact absurd rfl h
  | cons field fields ih =>
      cases fields with
      | nil =>
          have hlast := Spaced.last field [] (List.forall_mem_nil _)
          rw [List.append_nil] at hlast
          rwa [List.intercalate_singleton]
      | cons next fields =>
          rw [List.intercalate_cons_cons, List.append_assoc]
          exact .cons field [' '] (by decide) (by decide) (ih (List.cons_ne_nil next fields))

theorem Follows.isBlank_head (h : Follows fields rest) : ∀ c ∈ rest.head?, isBlank c = true := by
  intro c hc
  rcases h with ⟨-, hblanks⟩ | ⟨gap, line, hgap, hne, -, rfl⟩
  · exact hblanks c (List.mem_of_mem_head? hc)
  · rw [List.head?_append_of_ne_nil _ hne] at hc
    exact hgap c (List.mem_of_mem_head? hc)

/-! ### Where words begin -/

theorem wordStarts_blanks_append {lead : List Char} (h : Blanks lead) (line : List Char) :
    wordStarts true (lead ++ line) = wordStarts true line := by
  induction lead with
  | nil => rfl
  | cons c lead ih =>
      obtain ⟨hc, hlead⟩ := List.forall_mem_cons.mp h
      rw [List.cons_append, wordStarts, if_pos hc, ih hlead]

/-- Inside a word no other begins. -/
theorem wordStarts_word (hfield : ∀ c ∈ field, isBlank c = false)
    (hrest : ∀ c ∈ rest.head?, isBlank c = true) :
    wordStarts false (field ++ rest) = wordStarts true rest := by
  induction field with
  | nil =>
      cases rest with
      | nil => rfl
      | cons c rest =>
          have hc : isBlank c = true := hrest c rfl
          rw [List.nil_append, wordStarts, wordStarts, if_pos hc, if_pos hc]
  | cons c field ih =>
      obtain ⟨hc, hfield⟩ := List.forall_mem_cons.mp hfield
      rw [List.cons_append, wordStarts, hc, if_neg (by simp), if_neg (by simp), ih hfield]

theorem wordStarts_field (hfield : Solid field) (hrest : ∀ c ∈ rest.head?, isBlank c = true) :
    wordStarts true (field ++ rest) = (field ++ rest) :: wordStarts true rest := by
  obtain ⟨c, field, rfl⟩ := List.exists_cons_of_ne_nil hfield.1
  obtain ⟨hc, hword⟩ := List.forall_mem_cons.mp hfield.2
  rw [List.cons_append, wordStarts, hc, if_neg (by simp), if_pos rfl, wordStarts_word hword hrest]

theorem word_field (hfield : Solid field) (hrest : ∀ c ∈ rest.head?, isBlank c = true) :
    word (field ++ rest) = field := by
  rw [word, List.takeWhile_append_of_pos fun c hc => by rw [hfield.2 c hc, Bool.not_false]]
  cases rest with
  | nil => simp
  | cons c rest => simp [hrest c rfl]

theorem afterWord_field (hfield : Solid field) (hrest : ∀ c ∈ rest.head?, isBlank c = true) :
    afterWord (field ++ rest) = rest := by
  rw [afterWord, List.dropWhile_append_of_pos fun c hc => by rw [hfield.2 c hc, Bool.not_false]]
  cases rest with
  | nil => rfl
  | cons c rest => simp [hrest c rfl]

/-- A word begins at each of the first fields if these are words, and the last of them is followed by
the fields that are left. -/
theorem exists_wordStarts (hsolid : ∀ field ∈ fields, Solid field) (hne : fields ≠ [])
    (h : Spaced (fields ++ more) line) :
    ∃ starts rest, wordStarts true line = starts ++ wordStarts true rest ∧
      starts.map word = fields ∧ starts.getLast?.map afterWord = some rest ∧
      Follows more rest := by
  induction fields generalizing line with
  | nil => exact absurd rfl hne
  | cons field fields ih =>
      obtain ⟨hfield, hfields⟩ := List.forall_mem_cons.mp hsolid
      obtain ⟨rest, rfl, hfollows⟩ := Spaced.exists_follows h
      have hhead := hfollows.isBlank_head
      by_cases hlast : fields = []
      · subst hlast
        refine ⟨[field ++ rest], rest, wordStarts_field hfield hhead, ?_, ?_, hfollows⟩
        · rw [List.map_singleton, word_field hfield hhead]
        · rw [List.getLast?_singleton, Option.map_some, afterWord_field hfield hhead]
      · rcases hfollows with ⟨hnil, -⟩ | ⟨gap, after, hgap, -, hspaced, rfl⟩
        · exact absurd (List.append_eq_nil_iff.mp hnil).1 hlast
        · obtain ⟨starts, last, hstarts, hwords, hafter, hmore⟩ := ih hfields hlast hspaced
          refine ⟨(field ++ (gap ++ after)) :: starts, last, ?_, ?_, ?_, hmore⟩
          · rw [wordStarts_field hfield hhead, wordStarts_blanks_append hgap, hstarts,
              List.cons_append]
          · rw [List.map_cons, word_field hfield hhead, hwords]
          · have hne' : starts ≠ [] := by
              rintro rfl
              exact hlast hwords.symm
            rwa [List.getLast?_cons_of_ne_nil hne']

theorem Follows.wordStarts_nil (h : Follows [] rest) : wordStarts true rest = [] := by
  rcases h with ⟨-, hblanks⟩ | ⟨gap, line, -, -, hspaced, -⟩
  · have hnil := wordStarts_blanks_append hblanks []
    rwa [List.append_nil] at hnil
  · cases hspaced

/-! ### Columns -/

/-- The offset is found in front of the mnemonic if no other field before it is a mnemonic. -/
theorem columns?_of_words {starts leading after : List (List Char)} {offset opname : List Char}
    (hwords : starts.map word = leading ++ offset :: opname :: after)
    (hoffset : isNumeral offset = true) (hopname : isMnemonic opname = true)
    (hleading : ∀ field ∈ leading ++ [offset], isMnemonic field = false) :
    ∃ columns, columns? starts = some columns ∧ columns.leading.map word = leading ∧
      word columns.offset = offset ∧ word columns.opname = opname ∧
      columns.operands = starts.drop (leading.length + 2) := by
  induction leading generalizing starts with
  | nil =>
      obtain ⟨first, rest, rfl, rfl, hrest⟩ := List.map_eq_cons_iff.mp hwords
      obtain ⟨second, operands, rfl, rfl, -⟩ := List.map_eq_cons_iff.mp hrest
      refine ⟨⟨[], first, second, operands⟩, ?_, rfl, rfl, rfl, rfl⟩
      rw [columns?, hoffset, hopname]
      rfl
  | cons field leading ih =>
      obtain ⟨hfield, hrest⟩ := List.forall_mem_cons.mp hleading
      obtain ⟨first, rest, rfl, rfl, htail⟩ := List.map_eq_cons_iff.mp hwords
      obtain ⟨columns, hcolumns, hlead, hoff, hname, hoperands⟩ := ih htail hrest
      -- the next field is not a mnemonic, so the search goes on
      obtain ⟨second, others, rfl⟩ : ∃ second others, rest = second :: others := by
        cases rest with
        | nil => simp at htail
        | cons second others => exact ⟨second, others, rfl⟩
      have hsecond : isMnemonic (word second) = false := by
        refine hrest _ ?_
        rw [List.map_cons] at htail
        cases leading with
        | nil => simp [(List.cons.inj htail).1]
        | cons next leading => simp [(List.cons.inj htail).1]
      refine ⟨{ columns with leading := first :: columns.leading }, ?_, ?_, hoff, hname, ?_⟩
      · rw [columns?, hsecond, Bool.and_false, if_neg (by simp), hcolumns]
        rfl
      · rw [List.map_cons, hlead]
      · rw [hoperands]
        rfl

end Decompiler.Listing
