import Decompiler.Proofs.Listing.Table
import Decompiler.Proofs.Text.Unbroken

/-!
Instructions without line breaks. Each instruction of a listing is read from one line, so no mnemonic,
name or constant has a line break; and a name or constant that is there is not empty.
-/

namespace Decompiler

open Text

/-- A name or constant of an instruction: not empty, and without a line break. -/
structure Text.IsField (text : String) : Prop where
  ne_empty : text ≠ ""
  unbroken : Unbroken text.toList

structure Instruction.IsUnbroken (ins : Instruction) : Prop where
  opname : Unbroken ins.opname.toList
  argval : ∀ text ∈ ins.argval, IsField text

namespace Listing

variable {text line : List Char}

theorem unbroken_of_solid (h : Solid text) : Unbroken text := by
  have hvisible : ∀ c ∈ text, (!isBlank c) = true := fun c hc => by rw [h.2 c hc]; rfl
  exact unbroken_of_forall (by decide) (by decide) hvisible

theorem isUnbroken_of_readLine? {row : Instruction} (h : readLine? line = some row)
    (hline : Unbroken line) : row.IsUnbroken := by
  obtain ⟨columns, hcolumns, h⟩ := Option.bind_eq_some_iff.mp h
  obtain ⟨offset, -, rfl⟩ := Option.map_eq_some_iff.mp h
  obtain ⟨hopname, hoperands⟩ := of_columns? hcolumns
  have hname : Unbroken (String.ofList (word columns.opname)).toList := by
    rw [String.toList_ofList]
    exact unbroken_of_solid (solid_of_isMnemonic hopname)
  cases hcases : columns.operands with
  | nil => exact ⟨hname, fun text htext => by cases htext⟩
  | cons operand others =>
      dsimp only
      split
      · have hsuffix : operand <:+ line :=
          suffix_of_mem_wordStarts (hoperands operand (by rw [hcases]; simp))
        refine ⟨hname, fun meaning hmeaning => ?_⟩
        obtain ⟨hne, hmem⟩ := of_meaning? hmeaning
        exact ⟨hne, fun c hc => hline c (hsuffix.subset (List.dropWhile_subset _ (hmem c hc)))⟩
      · exact ⟨hname, fun text htext => by cases htext⟩

theorem isUnbroken_fold {rows : List Instruction} (hrows : ∀ row ∈ rows, row.IsUnbroken)
    (lineNum high : Option Nat) : ∀ ins ∈ fold lineNum high rows, ins.IsUnbroken := by
  induction rows generalizing lineNum high with
  | nil => exact List.forall_mem_nil _
  | cons row rows ih =>
      obtain ⟨hrow, hrows⟩ := List.forall_mem_cons.mp hrows
      rw [fold]
      split
      · exact ih hrows _ _
      · exact List.forall_mem_cons.mpr ⟨⟨hrow.opname, hrow.argval⟩, ih hrows _ _⟩

/-- The instructions of a listing without carriage returns. -/
theorem isUnbroken_parse (h : '\r' ∉ text) : ∀ ins ∈ parse text, ins.IsUnbroken := by
  refine isUnbroken_fold (fun row hrow => ?_) _ _
  obtain ⟨line, hline, hread⟩ := List.mem_filterMap.mp hrow
  refine isUnbroken_of_readLine? hread fun c hc => ⟨?_, ?_⟩
  · rintro rfl
    exact not_mem_of_mem_lines hline hc
  · rintro rfl
    exact h (mem_of_mem_lines hline hc)

end Listing

end Decompiler
