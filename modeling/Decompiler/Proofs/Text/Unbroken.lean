import Decompiler.Proofs.Text.Rows

/-!
Texts without line breaks. Such a text is one line wherever it stands between line feeds, so texts that
are joined by line feeds are told apart again by cutting at them, as long as none of them is empty. What
is cut out of a text has no line break that the text did not have.
-/

namespace Decompiler.Text

/-- A text without line feeds and carriage returns. -/
def Unbroken (text : List Char) : Prop := ∀ c ∈ text, c ≠ '\n' ∧ c ≠ '\r'

instance decidableUnbroken (text : List Char) : Decidable (Unbroken text) :=
  decidableForallMem (fun c => c ≠ '\n' ∧ c ≠ '\r') text

variable {text part : List Char} {parts : List (List Char)} {c : Char}

theorem unbroken_nil : Unbroken [] := List.forall_mem_nil _

theorem Unbroken.cons (hc : c ≠ '\n' ∧ c ≠ '\r') (h : Unbroken text) : Unbroken (c :: text) :=
  List.forall_mem_cons.mpr ⟨hc, h⟩

theorem Unbroken.append (h : Unbroken text) (hpart : Unbroken part) : Unbroken (text ++ part) :=
  List.forall_mem_append.mpr ⟨h, hpart⟩

theorem Unbroken.not_mem (h : Unbroken text) : '\n' ∉ text := fun hmem => (h _ hmem).1 rfl

theorem Unbroken.subset (h : Unbroken text) (hpart : part ⊆ text) : Unbroken part :=
  fun c hc => h c (hpart hc)

theorem Unbroken.flatMap {α : Type} {items : List α} {f : α → List Char}
    (h : ∀ item ∈ items, Unbroken (f item)) : Unbroken (items.flatMap f) := by
  intro c hc
  obtain ⟨item, hitem, hmem⟩ := List.mem_flatMap.mp hc
  exact h item hitem c hmem

theorem Unbroken.flatten (h : ∀ part ∈ parts, Unbroken part) : Unbroken parts.flatten :=
  fun _ hc => let ⟨part, hpart, hmem⟩ := List.mem_flatten.mp hc; h part hpart _ hmem

theorem Unbroken.intercalate {mark : List Char} (hmark : Unbroken mark)
    (h : ∀ part ∈ parts, Unbroken part) : Unbroken (mark.intercalate parts) := by
  induction parts with
  | nil => exact unbroken_nil
  | cons part parts ih =>
      obtain ⟨hpart, hparts⟩ := List.forall_mem_cons.mp h
      cases parts with
      | nil => simpa using hpart
      | cons next parts =>
          rw [List.intercalate_cons_cons]
          exact (hpart.append hmark).append (ih hparts)

theorem unbroken_of_forall {test : Char → Bool} (hfeed : test '\n' = false)
    (hreturn : test '\r' = false) (h : ∀ c ∈ text, test c = true) : Unbroken text := by
  intro c hc
  have hpass := h c hc
  constructor
  · rintro rfl
    rw [hfeed] at hpass
    cases hpass
  · rintro rfl
    rw [hreturn] at hpass
    cases hpass

theorem unbroken_digits (n : Nat) : Unbroken (digits n) :=
  unbroken_of_forall (by decide) (by decide) fun _ => isDigit_of_mem_digits

theorem unbroken_of_isIdentifier (h : isIdentifier text = true) : Unbroken text :=
  unbroken_of_forall (by decide) (by decide) fun _ => isIdentifierPart_of_mem h

/-! ### Joining and cutting -/

theorem chomp_append_newline (h : text.getLast? ≠ some '\r') : chomp (text ++ ['\n']) = text := by
  unfold chomp
  rw [List.reverse_append, List.reverse_singleton, List.singleton_append]
  split
  · next rest hreverse =>
    have hlast : text.getLast? = some '\r' := by
      rw [List.getLast?_eq_head?_reverse, (List.cons.inj hreverse).2]
      rfl
    exact absurd hlast h
  · next rest _ hreverse => rw [← (List.cons.inj hreverse).2, List.reverse_reverse]
  · next hnot => exact absurd rfl (hnot text.reverse)

theorem chomp_of_not_mem (h : '\n' ∉ text) : chomp text = text := by
  have hlast (rest : List Char) (hreverse : text.reverse = '\n' :: rest) : False := by
    have hmem : '\n' ∈ text.reverse := hreverse ▸ List.mem_cons_self ..
    exact h (List.mem_reverse.mp hmem)
  unfold chomp
  split
  · next hreverse => exact (hlast _ hreverse).elim
  · next hreverse => exact (hlast _ hreverse).elim
  · rfl

theorem lines_append_newline (hfeed : '\n' ∉ part) (hreturn : part.getLast? ≠ some '\r')
    (rest : List Char) : lines (part ++ '\n' :: rest) = part :: lines rest := by
  rw [lines, pieces_append_newline hfeed, List.map_cons, chomp_append_newline hreturn, lines]

theorem Unbroken.lines_append (h : Unbroken part) (rest : List Char) :
    lines (part ++ '\n' :: rest) = part :: lines rest :=
  lines_append_newline h.not_mem (fun hlast => (h _ (List.mem_of_getLast? hlast)).2 rfl) rest

theorem Unbroken.lines_eq (h : Unbroken part) (hne : part ≠ []) : lines part = [part] := by
  rw [lines, pieces_of_not_mem h.not_mem hne, List.map_singleton, chomp_of_not_mem h.not_mem]

/-- Lines with a line feed after each of them. -/
theorem lines_flatMap (h : ∀ part ∈ parts, Unbroken part) :
    lines (parts.flatMap fun part => part ++ ['\n']) = parts := by
  induction parts with
  | nil => rfl
  | cons part parts ih =>
      obtain ⟨hpart, hparts⟩ := List.forall_mem_cons.mp h
      rw [List.flatMap_cons, List.append_assoc, List.singleton_append, hpart.lines_append, ih hparts]

/-- Lines with a line feed between them. If the last one were empty, it would not be told from none. -/
theorem lines_intercalate (h : ∀ part ∈ parts, Unbroken part) (hne : ∀ part ∈ parts, part ≠ []) :
    lines (['\n'].intercalate parts) = parts := by
  induction parts with
  | nil => rfl
  | cons part parts ih =>
      obtain ⟨hpart, hparts⟩ := List.forall_mem_cons.mp h
      obtain ⟨hfirst, hrest⟩ := List.forall_mem_cons.mp hne
      cases parts with
      | nil => simpa using hpart.lines_eq hfirst
      | cons next parts =>
          rw [List.intercalate_cons_cons, List.append_assoc, List.singleton_append,
            hpart.lines_append, ih hparts hrest]

/-! ### Parts of a text -/

theorem subset_of_between {opening closing inner : List Char}
    (h : between opening closing text = some inner) : inner ⊆ text := by
  obtain ⟨rest, hrest, hinner⟩ := Option.bind_eq_some_iff.mp h
  have hopening := List.isPrefixOf?_eq_some_iff_append_eq.mp hrest
  have hclosing := List.isSuffixOf?_eq_some_iff_append_eq.mp hinner
  rw [← hopening, ← hclosing]
  intro c hc
  simp [hc]

theorem subset_of_mem_split {test : Char → Bool} (h : part ∈ split test text) : part ⊆ text := by
  induction text generalizing part with
  | nil =>
      obtain rfl : part = [] := List.mem_singleton.mp h
      exact List.Subset.refl _
  | cons c rest ih =>
      rw [split] at h
      split at h
      · rcases List.mem_cons.mp h with rfl | h
        · exact List.nil_subset _
        · exact List.Subset.trans (ih h) (List.subset_cons_self c rest)
      · split at h
        · next hnil => exact absurd hnil (split_ne_nil test rest)
        · next first more hsplit =>
          rw [hsplit] at ih
          rcases List.mem_cons.mp h with rfl | h
          · exact List.cons_subset_cons c (ih (List.mem_cons_self ..))
          · exact List.Subset.trans (ih (List.mem_cons_of_mem _ h)) (List.subset_cons_self c rest)

theorem subset_of_cut {mark before after : List Char} (h : cut mark text = some (before, after)) :
    before ⊆ text ∧ after ⊆ text := by
  induction text generalizing before with
  | nil =>
      obtain ⟨rest, hrest, hpair⟩ := Option.map_eq_some_iff.mp h
      cases hpair
      have happend := List.isPrefixOf?_eq_some_iff_append_eq.mp hrest
      exact ⟨List.Subset.refl _, happend ▸ List.subset_append_right ..⟩
  | cons c rest ih =>
      rw [cut] at h
      split at h
      · next found hfound =>
        cases h
        have happend := List.isPrefixOf?_eq_some_iff_append_eq.mp hfound
        exact ⟨List.nil_subset _, happend ▸ List.subset_append_right ..⟩
      · obtain ⟨⟨first, last⟩, hcut, hpair⟩ := Option.map_eq_some_iff.mp h
        cases hpair
        obtain ⟨hbefore, hafter⟩ := ih hcut
        exact ⟨List.cons_subset_cons c hbefore,
          List.Subset.trans hafter (List.subset_cons_self c rest)⟩

theorem dropEndWhile_subset (test : Char → Bool) (text : List Char) :
    dropEndWhile test text ⊆ text := by
  obtain ⟨tail, -, htail⟩ := exists_dropEndWhile test text
  conv_rhs => rw [htail]
  exact List.subset_append_left _ _

end Decompiler.Text
