import Decompiler.Proofs.Listing.Prefixes
import Decompiler.Proofs.Source.Mnemonic
import Decompiler.Proofs.Walk.Course

/-!
The ends of blocks. A block is over when a step is made at the offset where it ends, and at no other
time. In a listing the end may be the offset of a prefix, which is no instruction of its own, or of
an instruction that an earlier step has taken in; such a block is never over. These are the only
ones.
-/

namespace Decompiler

def Instruction.isJump (ins : Instruction) : Bool := ins.opcode?.any Opcode.isJump

/-- Loops and the jumps that open an `else` are over after they begin. -/
def Code.EndsForward (code : Code) : Prop :=
  ∀ ins ∈ code, ins.is .forIter = true ∨ ins.is .jumpForward = true →
    ∀ target ∈ ins.jumpTarget?, ins.offset < target

instance (code : Code) : Decidable code.EndsForward := by
  unfold Code.EndsForward
  infer_instance

namespace Walk

/-- What a dedent that is still to come waits for: the end of a block, if no step has been made
there, or the instruction behind a jump that is still ahead. -/
inductive Awaited (code : Code) (n : Nat) (past : List Instruction) (target : Nat) : Prop
  | blockEnd (opener : Instruction) (hpast : opener ∈ past) (hjump : opener.isJump = true)
      (htarget : opener.jumpTarget? = some target)
      (hunmet : ∀ started ∈ past, started.offset ≠ target)
  | behindJump (k : Nat) (back next : Instruction) (hk : n ≤ k + 1) (hback : code[k]? = some back)
      (hop : back.opcode? = some .jumpAbsolute) (hnext : code[k + 1]? = some next)
      (htarget : next.offset = target)

variable {flags : Flags} {code : Code} {ins : Instruction} {past : List Instruction}
  {n skip target : Nat} {state next : State} {effect : Effect}

/-- It still waits for that after a step at another offset. -/
theorem Awaited.step (h : Awaited code n past target) (hins : code[n]? = some ins)
    (hstep : step flags code ins (code.drop (n + 1)) state = .ok (next, skip))
    (hne : target ≠ ins.offset) : Awaited code (n + 1 + skip) (ins :: past) target := by
  cases h with
  | blockEnd opener hpast hjump htarget hunmet =>
      exact .blockEnd opener (List.mem_cons_of_mem _ hpast) hjump htarget
        (List.forall_mem_cons.mpr ⟨Ne.symm hne, hunmet⟩)
  | behindJump k back after hk hback hop hnext htarget =>
      refine .behindJump k back after ?_ hback hop hnext htarget
      rcases Nat.lt_trichotomy n k with hlt | rfl | hgt
      · have := le_of_not_isFollower hstep hlt hback
          (Instruction.not_isFollower_of_jump hop (.inl rfl))
        omega
      · rw [hins, Option.some.injEq] at hback
        subst hback
        rw [skip_eq_zero_of_jump hstep hop]
      · -- the step would be made behind the jump
        obtain rfl : n = k + 1 := by omega
        rw [hins, Option.some.injEq] at hnext
        subst hnext
        exact absurd htarget.symm hne

/-- A block that a step opens ends ahead. -/
theorem awaited_of_form (hcode : code.Increasing) (hforward : code.EndsForward)
    (hpast : ∀ started ∈ past, started.offset < ins.offset) (hins : code[n]? = some ins)
    (hstep : step flags code ins (code.drop (n + 1)) state = .ok (next, skip))
    (hform : effect.Form flags code ins (state.settle ins.offset))
    (hcloses : effect.closes = some target) :
    Awaited code (n + 1 + skip) (ins :: past) target := by
  have hmem : ins ∈ code := List.mem_of_getElem? hins
  have ahead {stop : Nat} (hjump : ins.isJump = true) (hstop : ins.jumpTarget? = some stop)
      (hlt : ins.offset < stop) (heq : stop = target) :
      Awaited code (n + 1 + skip) (ins :: past) target := by
    subst heq
    refine .blockEnd ins (List.mem_cons_self ..) hjump hstop
      (List.forall_mem_cons.mpr ⟨Nat.ne_of_lt hlt, fun started hstarted => ?_⟩)
    exact Nat.ne_of_lt ((hpast started hstarted).trans hlt)
  have jump {op : Opcode} (hop : ins.opcode? = some op) (hjump : op.isJump = true) :
      ins.isJump = true := by
    rw [Instruction.isJump, hop, Option.any_some, hjump]
  cases hform with
  | flat hflat hop =>
      rw [hflat.closes] at hcloses
      cases hcloses
  | forLoop node iterator stop mentions swallows hop hstop =>
      have his : ins.is .forIter = true := by simp [Instruction.is, hop]
      exact ahead (jump hop rfl) hstop
        (hforward ins hmem (.inl his) stop hstop) (Option.some.inj hcloses)
  | whileLoop onTrue condition stop hraw hop hstop hlt hwhile =>
      exact ahead (jump hop rfl) hstop hlt (Option.some.inj hcloses)
  | elifBranch onTrue condition stop elseStop hraw hop hstop hlt hwhile helse =>
      exact ahead (jump hop rfl) hstop hlt (Option.some.inj hcloses)
  | ifBranch onTrue condition stop hraw hop hstop hlt hwhile =>
      exact ahead (jump hop rfl) hstop hlt (Option.some.inj hcloses)
  | lastBranch onTrue condition head hraw hop hhead hback =>
      obtain ⟨k, back, after, hcode', hnext, hjump, horigin, htarget⟩ :=
        Code.exists_of_loopEnd? hcloses
      have hop' : back.opcode? = some .jumpAbsolute := by
        simpa [Instruction.is] using (Bool.and_eq_true_iff.mp hjump).1
      have hk := (hcode.offset_lt_iff hins hcode').mp horigin
      have := le_of_not_isFollower hstep hk hcode'
        (Instruction.not_isFollower_of_jump hop' (.inl rfl))
      exact .behindJump k back after (by omega) hcode' hop' hnext htarget
  | elseBranch stop hraw hop hstop =>
      have his : ins.is .jumpForward = true := by simp [Instruction.is, hop]
      exact ahead (jump hop rfl) hstop
        (hforward ins hmem (.inr his) stop hstop) (Option.some.inj hcloses)

theorem Arrives.awaited (hcode : code.Increasing) (hforward : code.EndsForward)
    (h : Arrives flags code n state past) :
    ∀ change ∈ state.pending, Awaited code n past change.target := by
  induction h with
  | start => nofun
  | step h hins hstep ih =>
      rename_i n skip state next ins past
      obtain ⟨effect, heffect, rfl, -⟩ := step_eq_ok.mp hstep
      intro change hchange
      rw [State.leave_pending] at hchange
      rcases State.mem_apply_pending _ _ hchange with hold | ⟨target, hcloses, rfl⟩
      · obtain ⟨hold, hne⟩ := (state.mem_settle_pending ins.offset).mp hold
        exact (ih change hold).step hins hstep hne
      · exact awaited_of_form hcode hforward (h.offset_lt hcode hins) hins hstep
          (form_effect effect heffect) hcloses

end Walk

/-! ### Listings -/

namespace Listing

theorem offsets_fold (lineNum high : Option Nat) (rows : List Instruction) :
    List.Sublist ((fold lineNum high rows).map Instruction.offset)
      (rows.map Instruction.offset) := by
  induction rows generalizing lineNum high with
  | nil => exact .slnil
  | cons row rows ih =>
      rw [fold, List.map_cons]
      split
      · exact (ih _ _).cons _
      · exact (ih _ _).cons_cons _

theorem increasing_parse {text : List Char} (h : Code.Increasing (rows text)) :
    Code.Increasing (parse text) := by
  have hrows : ((rows text).map Instruction.offset).Pairwise (· < ·) := List.pairwise_map.mpr h
  exact List.pairwise_map.mp (hrows.sublist (offsets_fold none none (rows text)))

/-- The lines of a text have greater and greater offsets, jumps go to the lines, and the ends of
loops and of each `else` lie ahead. -/
structure Linked (text : List Char) : Prop where
  increasing : Code.Increasing (rows text)
  listed : ∀ ins ∈ parse text, ins.isJump = true → ∀ target ∈ ins.jumpTarget?,
    ∃ row ∈ rows text, row.offset = target
  forward : Code.EndsForward (parse text)

end Listing

namespace Walk

open Listing

/-- A dedent that is still to come after its offset has been passed waits for a prefix or for an
instruction that an earlier step has taken in. -/
theorem passed_ends {flags : Flags} {text : List Char} {n : Nat} {state : State} {ins : Instruction}
    {past : List Instruction} {change : IndentChange} (hlinked : Linked text)
    (h : Arrives flags (parse text) n state past) (hins : (parse text)[n]? = some ins)
    (hchange : change ∈ (state.settle ins.offset).pending) (hpassed : change.target ≤ ins.offset) :
    ∃ row ∈ rows text, row.offset = change.target ∧
      (row.opname = extendedArg ∨
        ∃ taken ∈ parse text, taken.offset = change.target ∧ taken.isFollower = true ∧
          taken ∉ ins :: past) := by
  have hcode := increasing_parse hlinked.increasing
  obtain ⟨hpending, hne⟩ := (state.mem_settle_pending ins.offset).mp hchange
  cases h.awaited hcode hlinked.forward change hpending with
  | behindJump k back next hk hback hop hnext htarget =>
      -- the walk has not come to the jump yet
      have := (hcode.offset_le_iff hnext hins).mp (by omega)
      obtain rfl : n = k + 1 := by omega
      rw [hins, Option.some.injEq] at hnext
      subst hnext
      exact absurd htarget.symm hne
  | blockEnd opener hpast hjump htarget hunmet =>
      obtain ⟨_, _, hopener⟩ := h.exists_lt_of_mem hpast
      obtain ⟨row, hrow, hoffset⟩ :=
        hlinked.listed opener (List.mem_of_getElem? hopener) hjump _ htarget
      refine ⟨row, hrow, hoffset, ?_⟩
      by_cases hprefix : row.opname = extendedArg
      · exact .inl hprefix
      · right
        obtain ⟨taken, htaken, hrowoffset⟩ : ∃ taken ∈ parse text, taken.offset = row.offset :=
          exists_of_mem_rows hrow hprefix
        have htakenoffset : taken.offset = change.target := hrowoffset.trans hoffset
        have hnot : taken ∉ ins :: past := by
          rw [List.mem_cons, not_or]
          refine ⟨?_, fun hmem => hunmet taken hmem htakenoffset⟩
          rintro rfl
          exact hne htakenoffset.symm
        have hbehind : taken.offset ≤ ins.offset := htakenoffset.trans_le hpassed
        exact ⟨taken, htaken, htakenoffset,
          h.isFollower_of_not_mem hcode hins htaken hbehind hnot, hnot⟩

/-- A branch that ends at a prefix. -/
def prefixedEnd : List Char :=
  ("0 LOAD_NAME 0 (x)\n2 POP_JUMP_IF_FALSE 8\n4 LOAD_NAME 1 (y)\n6 STORE_NAME 2 (z)\n" ++
    "8 EXTENDED_ARG 1\n10 LOAD_NAME 0 (big)\n12 RETURN_VALUE").toList

def prefixedRows : List Instruction :=
  [{ offset := 0, opname := "LOAD_NAME", arg := some 0, argval := some "x" },
    { offset := 2, opname := "POP_JUMP_IF_FALSE", arg := some 8 },
    { offset := 4, opname := "LOAD_NAME", arg := some 1, argval := some "y" },
    { offset := 6, opname := "STORE_NAME", arg := some 2, argval := some "z" },
    { offset := 8, opname := "EXTENDED_ARG", arg := some 1 },
    { offset := 10, opname := "LOAD_NAME", arg := some 0, argval := some "big" },
    { offset := 12, opname := "RETURN_VALUE" }]

def prefixedCode : Code :=
  [{ offset := 0, opname := "LOAD_NAME", arg := some 0, argval := some "x" },
    { offset := 2, opname := "POP_JUMP_IF_FALSE", arg := some 8 },
    { offset := 4, opname := "LOAD_NAME", arg := some 1, argval := some "y" },
    { offset := 6, opname := "STORE_NAME", arg := some 2, argval := some "z" },
    { offset := 10, opname := "LOAD_NAME", arg := some 256, argval := some "big" },
    { offset := 12, opname := "RETURN_VALUE" }]

theorem rows_prefixedEnd : rows prefixedEnd = prefixedRows := by decide +kernel

theorem parse_prefixedEnd : parse prefixedEnd = prefixedCode :=
  congrArg (fold none none) rows_prefixedEnd

theorem linked_prefixedEnd : Linked prefixedEnd where
  increasing := by
    rw [rows_prefixedEnd]
    decide
  listed := by
    rw [rows_prefixedEnd, parse_prefixedEnd]
    decide
  forward := by
    rw [parse_prefixedEnd]
    decide

theorem arrives_prefixedEnd :
    ∃ state past, Arrives {} (parse prefixedEnd) 4 state past ∧
      IndentChange.dedent 8 ∈ (state.settle 10).pending := by
  rw [parse_prefixedEnd]
  have h₀ : Arrives {} prefixedCode 0 {} [] := .start
  have h₂ := (h₀.step rfl rfl).step rfl rfl
  have h₄ := (h₂.step rfl rfl).step rfl rfl
  exact ⟨_, _, h₄, by decide⟩

/-- The dedent of a branch that ends at a prefix is still to come at the instruction behind the
prefix. -/
theorem passed_ends_prefix :
    ∃ state past ins, Linked prefixedEnd ∧ Arrives {} (parse prefixedEnd) 4 state past ∧
      (parse prefixedEnd)[4]? = some ins ∧ ins.offset = 10 ∧
      IndentChange.dedent 8 ∈ (state.settle ins.offset).pending ∧
      ∃ row ∈ rows prefixedEnd, row.offset = 8 ∧
        (row.opname = extendedArg ∨
          ∃ taken ∈ parse prefixedEnd, taken.offset = 8 ∧ taken.isFollower = true ∧
            taken ∉ ins :: past) := by
  obtain ⟨state, past, h, hpending⟩ := arrives_prefixedEnd
  let ins : Instruction :=
    { offset := 10, opname := "LOAD_NAME", arg := some 256, argval := some "big" }
  have hins : (parse prefixedEnd)[4]? = some ins := by
    rw [parse_prefixedEnd]
    rfl
  exact ⟨state, past, ins, linked_prefixedEnd, h, hins, rfl, hpending,
    passed_ends linked_prefixedEnd h hins hpending (by decide)⟩

/-- So not every block is over when the walk has come to its end. -/
theorem exists_passed_end :
    ¬∀ (text : List Char) (n : Nat) (state : State) (past : List Instruction) (ins : Instruction),
      Linked text → Arrives {} (parse text) n state past → (parse text)[n]? = some ins →
        ∀ change ∈ (state.settle ins.offset).pending, ins.offset < change.target := by
  intro hall
  obtain ⟨state, past, h, hpending⟩ := arrives_prefixedEnd
  have hlt := hall prefixedEnd 4 state past
    { offset := 10, opname := "LOAD_NAME", arg := some 256, argval := some "big" }
    linked_prefixedEnd h (by rw [parse_prefixedEnd]; rfl) (.dedent 8) hpending
  exact absurd hlt (by decide)

end Walk

end Decompiler
