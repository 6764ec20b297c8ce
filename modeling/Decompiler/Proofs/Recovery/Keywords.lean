import Decompiler.Proofs.Source.Expression
import Decompiler.Walk.Call

/-!
The names of keyword arguments. A call finds them in the text of a constant tuple; they are read back
from the text that lists them.
-/

namespace Decompiler

open Text Walk

def Keyword.quoted (name : Keyword) : List Char := '\'' :: name.text.toList ++ ['\'']

theorem Keyword.no_comma_quoted (name : Keyword) :
    ∀ c ∈ name.quoted, decide (c = ',') = false := by
  intro c hc
  rw [decide_eq_false_iff_not]
  rintro rfl
  simp only [quoted, List.cons_append, List.mem_cons, List.mem_append, List.not_mem_nil,
    or_false] at hc
  rcases hc with h | h | h
  · exact absurd h (by decide)
  · exact name.no_comma h
  · exact absurd h (by decide)

theorem Keyword.trim_quoted (name : Keyword) : trim name.quoted = name.quoted := by
  refine trim_eq_self (fun c hc => ?_) (fun c hc => ?_)
  · cases hc
    decide
  · rw [Option.mem_def, quoted, List.getLast?_append_of_ne_nil _ (by simp)] at hc
    cases hc
    decide

theorem Keyword.unquoted?_quoted (name : Keyword) : unquoted? name.quoted = some name.text := by
  have hbetween : between ['\''] ['\''] name.quoted = some name.text.toList :=
    between_append ['\''] ['\''] name.text.toList
  rw [unquoted?, hbetween]
  simp

theorem Keyword.isEmpty_quoted (name : Keyword) : name.quoted.isEmpty = false := rfl

/-- A quoted name as an item of the list, where it may have a blank in front of it. -/
theorem Keyword.item (name : Keyword) {lead : List Char} (hlead : lead = [] ∨ lead = [' ']) :
    (∀ c ∈ lead ++ name.quoted, decide (c = ',') = false) ∧
      trim (lead ++ name.quoted) = name.quoted := by
  rcases hlead with rfl | rfl
  · exact ⟨name.no_comma_quoted, name.trim_quoted⟩
  · refine ⟨?_, (trim_cons_of_isBlank (by decide) _).trans name.trim_quoted⟩
    exact List.forall_mem_cons.mpr ⟨by decide, name.no_comma_quoted⟩

/-- The items between the commas are the names in quotes again. A single name leaves an empty item
after its comma. -/
theorem items_quotedNames (names : List Keyword) (comma : Bool) {lead : List Char}
    (hlead : lead = [] ∨ lead = [' ']) :
    ((split (· = ',') (lead ++ Expr.quotedNames names ++ if comma then [','] else [])).map
        trim).filter (fun item => !item.isEmpty) = names.map Keyword.quoted := by
  have hcomma : decide (',' = ',') = true := by decide
  induction names generalizing lead with
  | nil => rcases hlead with rfl | rfl <;> cases comma <;> decide
  | cons name rest ih =>
      obtain ⟨hitem, htrim⟩ := name.item hlead
      cases rest with
      | nil =>
          have hquoted : Expr.quotedNames [name] = name.quoted := rfl
          cases comma with
          | false =>
              rw [hquoted, if_neg (by simp), List.append_nil, split_of_forall_not hitem]
              simp [htrim, name.isEmpty_quoted]
          | true =>
              rw [hquoted, if_pos rfl, split_append_cons hitem hcomma]
              simp [htrim, name.isEmpty_quoted, split]
      | cons next rest =>
          -- the names after the first comma have a blank in front of them
          have hquoted : lead ++ Expr.quotedNames (name :: next :: rest) =
              lead ++ name.quoted ++ ',' :: ([' '] ++ Expr.quotedNames (next :: rest)) := by
            simp [Expr.quotedNames, Keyword.quoted]
          rw [hquoted, List.append_assoc, List.cons_append, split_append_cons hitem hcomma,
            List.map_cons, htrim, List.filter_cons_of_pos (by simp [name.isEmpty_quoted]),
            ih (Or.inr rfl), ← List.map_cons]

theorem mapM_unquoted?_quoted (names : List Keyword) :
    (names.map Keyword.quoted).mapM unquoted? = some (names.map Keyword.text) := by
  induction names with
  | nil => rfl
  | cons name rest ih =>
      rw [List.map_cons, List.mapM_cons, name.unquoted?_quoted, ih]
      rfl

/-- The names of a constant tuple are read back from the text that lists it. -/
theorem nameTuple?_listedNames (names : List Keyword) :
    nameTuple? (Expr.listedNames names) = some (names.map Keyword.text) := by
  have hlisted : (Expr.listedNames names).toList =
      ['('] ++ (Expr.quotedNames names ++ if names.length = 1 then [','] else []) ++ [')'] := by
    simp [Expr.listedNames]
  have htrim : trim (Expr.listedNames names).toList = (Expr.listedNames names).toList := by
    refine trim_eq_self (fun c hc => ?_) (fun c hc => ?_)
    · rw [hlisted] at hc
      cases hc
      decide
    · rw [hlisted, Option.mem_def, List.getLast?_append_of_ne_nil _ (by simp)] at hc
      cases hc
      decide
  have hitems := items_quotedNames names (decide (names.length = 1)) (Or.inl rfl)
  simp only [List.nil_append, decide_eq_true_eq] at hitems
  rw [nameTuple?, htrim, hlisted, between_append, Option.bind_some]
  dsimp only
  rw [hitems, mapM_unquoted?_quoted]

end Decompiler
