import Decompiler.Proofs.Walk.Cursor
import Decompiler.Proofs.Walk.Order
import Decompiler.Proofs.Walk.Taken

/-!
The course of a run. A run arrives at positions of the code in states, one step after the other;
what is proved of where it starts and kept by each step holds of all of them, also of those before a
failure. The instructions at which steps have been made are told along, since a step may take in
others.
-/

namespace Decompiler.Walk

namespace State

variable (state : State) (offset : Nat)

@[simp] theorem settle_stack : (state.settle offset).stack = state.stack := rfl

theorem settle_pending :
    (state.settle offset).pending = state.pending.filter fun change => change.target ≠ offset := by
  simp only [settle, List.partition_eq_filter_filter]
  exact List.filter_congr fun change _ => by simp

theorem mem_settle_pending {change : IndentChange} :
    change ∈ (state.settle offset).pending ↔ change ∈ state.pending ∧ change.target ≠ offset := by
  rw [settle_pending, List.mem_filter, decide_eq_true_eq]

/-- What is to come after an effect was so before it, or has been scheduled by it. -/
theorem mem_apply_pending {change : IndentChange} {effect : Effect}
    (h : change ∈ (state.apply offset effect).pending) :
    change ∈ state.pending ∨ ∃ target, effect.closes = some target ∧ change = .dedent target := by
  have hscheduled : change ∈
      (effect.closes.map IndentChange.dedent).toList ++ state.pending := by
    simp only [apply] at h
    split at h
    · exact List.mem_of_mem_erase h
    · exact h
  rcases List.mem_append.mp hscheduled with hnew | hold
  · obtain ⟨target, htarget, rfl⟩ := Option.map_eq_some_iff.mp (Option.mem_toList.mp hnew)
    exact Or.inr ⟨target, htarget, rfl⟩
  · exact Or.inl hold

@[simp] theorem collect_indent : (state.collect offset).indent = state.indent := by
  unfold collect
  split
  · rfl
  · rfl

@[simp] theorem collect_pending : (state.collect offset).pending = state.pending := by
  unfold collect
  split
  · rfl
  · rfl

/-- What the step at a position leaves to the next one. In a comprehension the first step leaves the
accumulator. -/
def leave (flags : Flags) (position offset : Nat) (state : State) : State :=
  if position = 0 ∧ flags.comprehension = true then state.collect offset else state

variable (flags : Flags) (position : Nat)

@[simp] theorem leave_indent : (state.leave flags position offset).indent = state.indent := by
  unfold leave
  split
  · exact state.collect_indent offset
  · rfl

@[simp] theorem leave_pending : (state.leave flags position offset).pending = state.pending := by
  unfold leave
  split
  · exact state.collect_pending offset
  · rfl

theorem leave_of_pos (h : 0 < position) : state.leave flags position offset = state := by
  rw [leave, if_neg (by omega)]

end State

variable {flags : Flags} {code : Code} {ins : Instruction} {ahead : Code} {n k skip : Nat}
  {state next last : State} {past : List Instruction}

theorem effect_of_opcode {op : Opcode} (hop : ins.opcode? = some op) :
    Walk.effect flags code ins ahead state = opcodeEffect flags code ins ahead state op := by
  rw [Walk.effect, hop]

theorem step_eq_ok :
    step flags code ins ahead state = .ok (next, skip) ↔
      ∃ effect, Walk.effect flags code ins ahead (state.settle ins.offset) = .ok effect ∧
        next = (state.settle ins.offset).apply ins.offset effect ∧ skip = effect.swallows := by
  rw [step, bind_eq_ok]
  constructor
  · rintro ⟨effect, heffect, ⟨⟩⟩
    exact ⟨effect, heffect, rfl, rfl⟩
  · rintro ⟨effect, heffect, rfl, rfl⟩
    exact ⟨effect, heffect, rfl⟩

/-- A run begins with a step at the first instruction. -/
theorem run_eq_bind (hins : code[0]? = some ins) :
    run flags code = step flags code ins (code.drop 1) {} >>= fun result =>
      walk flags code result.2 (code.drop 1) (result.1.leave flags 0 ins.offset) := by
  cases code with
  | nil => cases hins
  | cons first rest =>
      cases hins
      simp [run, State.leave]

/-- The run arrives at a position in a state, after steps at certain instructions, the latest one
first. -/
inductive Arrives (flags : Flags) (code : Code) : Nat → State → List Instruction → Prop
  | start : Arrives flags code 0 {} []
  | step {n skip : Nat} {state next : State} {ins : Instruction} {past : List Instruction}
      (h : Arrives flags code n state past) (hins : code[n]? = some ins)
      (hstep : step flags code ins (code.drop (n + 1)) state = .ok (next, skip)) :
      Arrives flags code (n + 1 + skip) (next.leave flags n ins.offset) (ins :: past)

namespace Arrives

theorem eq_start_or_pos (h : Arrives flags code n state past) :
    n = 0 ∧ state = {} ∧ past = [] ∨ 0 < n := by
  cases h with
  | start => exact Or.inl ⟨rfl, rfl, rfl⟩
  | step => exact Or.inr (by omega)

/-- What is left of the run is the walk over the rest of the code. -/
theorem run_eq_walk (h : Arrives flags code n state past) (hn : 0 < n) :
    run flags code = walk flags code 0 (code.drop n) state := by
  induction h with
  | start => exact absurd hn (Nat.lt_irrefl 0)
  | step h hins hstep ih =>
      rename_i n skip state next ins past
      have hdrop := Code.drop_eq_cons hins
      rcases h.eq_start_or_pos with ⟨rfl, rfl, rfl⟩ | hpos
      · -- the first step is made by the run itself
        rw [run_eq_bind hins, hstep, ok_bind, walk_eq_walk_drop, List.drop_drop]
      · rw [ih hpos, hdrop, walk, hstep, ok_bind, State.leave_of_pos _ _ _ _ hpos]
        dsimp only
        rw [walk_eq_walk_drop, List.drop_drop]

/-- The run goes on with the step at the position where it has arrived. -/
theorem exists_run_eq_bind (h : Arrives flags code n state past) (hins : code[n]? = some ins) :
    ∃ f, run flags code = Walk.step flags code ins (code.drop (n + 1)) state >>= f := by
  rcases h.eq_start_or_pos with ⟨rfl, rfl, rfl⟩ | hpos
  · exact ⟨_, run_eq_bind hins⟩
  · rw [h.run_eq_walk hpos, Code.drop_eq_cons hins, walk]
    exact ⟨_, rfl⟩

/-- A run that does not fail makes a step wherever it arrives. -/
theorem exists_step (h : Arrives flags code n state past) (hrun : run flags code = .ok last)
    (hins : code[n]? = some ins) :
    ∃ next skip, Walk.step flags code ins (code.drop (n + 1)) state = .ok (next, skip) := by
  obtain ⟨f, hbind⟩ := h.exists_run_eq_bind hins
  rw [hbind] at hrun
  obtain ⟨⟨next, skip⟩, hstep, -⟩ := bind_eq_ok.mp hrun
  exact ⟨next, skip, hstep⟩

/-- Behind all of the code nothing happens any more. -/
theorem run_eq_of_length_le (h : Arrives flags code n state past) (hn : code.length ≤ n) :
    run flags code = .ok state := by
  rcases h.eq_start_or_pos with ⟨rfl, rfl, rfl⟩ | hpos
  · rw [List.eq_nil_of_length_eq_zero (Nat.le_zero.mp hn)]
    rfl
  · rw [h.run_eq_walk hpos, List.drop_eq_nil_of_le hn]
    rfl

/-- The steps have been made at instructions before the position. -/
theorem exists_lt_of_mem (h : Arrives flags code n state past) (hins : ins ∈ past) :
    ∃ k, k < n ∧ code[k]? = some ins := by
  induction h with
  | start => cases hins
  | step h hins' hstep ih =>
      rename_i n skip state next started past
      rcases List.mem_cons.mp hins with rfl | hins
      · exact ⟨n, by omega, hins'⟩
      · obtain ⟨k, hk, hcode⟩ := ih hins
        exact ⟨k, by omega, hcode⟩

theorem offset_lt (hcode : code.Increasing) (h : Arrives flags code n state past)
    (hins : code[n]? = some ins) : ∀ started ∈ past, started.offset < ins.offset := by
  intro started hstarted
  obtain ⟨k, hk, hcode'⟩ := h.exists_lt_of_mem hstarted
  exact hcode.offset_lt hcode' hins hk

end Arrives

theorem followed_of_step
    (hstep : step flags code ins (code.drop (n + 1)) state = .ok (next, skip)) :
    Code.Followed (code.drop (n + 1)) skip := by
  obtain ⟨effect, heffect, -, rfl⟩ := step_eq_ok.mp hstep
  exact takesIn_effect effect heffect

/-- The cursor stays in the code. -/
theorem lt_length_of_step (hins : code[n]? = some ins)
    (hstep : step flags code ins (code.drop (n + 1)) state = .ok (next, skip)) :
    n + skip < code.length := by
  have hlt := (List.getElem?_eq_some_iff.mp hins).1
  have hlength := (followed_of_step hstep).le_length
  rw [List.length_drop] at hlength
  omega

/-- A step does not get past an instruction that must not be taken in. -/
theorem le_of_not_isFollower
    (hstep : step flags code ins (code.drop (n + 1)) state = .ok (next, skip)) (hk : n < k)
    {other : Instruction} (hother : code[k]? = some other) (hnot : other.isFollower = false) :
    n + 1 + skip ≤ k := by
  by_contra hlt
  obtain ⟨taken, htaken, hfollower⟩ :=
    (followed_of_step hstep).getElem? (k := k - (n + 1)) (by omega)
  rw [List.getElem?_drop, Nat.add_sub_of_le hk, hother, Option.some_inj] at htaken
  rw [htaken, hfollower] at hnot
  cases hnot

theorem Arrives.le_length (h : Arrives flags code n state past) : n ≤ code.length := by
  cases h with
  | start => exact Nat.zero_le _
  | step h hins hstep =>
      have hlt := lt_length_of_step hins hstep
      omega

/-- A jump takes nothing in. -/
theorem skip_eq_zero_of_jump (hstep : step flags code ins ahead state = .ok (next, skip))
    (hop : ins.opcode? = some .jumpAbsolute) : skip = 0 := by
  obtain ⟨effect, heffect, -, rfl⟩ := step_eq_ok.mp hstep
  unfold Walk.effect at heffect
  simp only [hop] at heffect
  exact (plain_opcodeEffect rfl effect heffect).silent.2

/-- Where a run has passed an instruction that must not be taken in, it has arrived at it before and made a
step there. -/
theorem Arrives.exists_earlier (h : Arrives flags code n state past) (hk : k < n)
    (hins : code[k]? = some ins) (hnot : ins.isFollower = false) :
    ∃ state earlier, Arrives flags code k state earlier ∧ ins :: earlier <:+ past := by
  induction h with
  | start => exact absurd hk (Nat.not_lt_zero k)
  | step h hcode hstep ih =>
      rename_i n skip state next started past
      rcases Nat.lt_trichotomy k n with hlt | rfl | hgt
      · obtain ⟨state, earlier, harrives, hsuffix⟩ := ih hlt
        exact ⟨state, earlier, harrives, hsuffix.trans (List.suffix_cons started past)⟩
      · rw [hins, Option.some.injEq] at hcode
        exact ⟨state, past, h, hcode ▸ List.suffix_refl _⟩
      · have := le_of_not_isFollower hstep hgt hins hnot
        omega

/-- Of what lies behind, steps have been made at all that must not be taken in. -/
theorem Arrives.mem_past (h : Arrives flags code n state past) (hk : k < n)
    (hins : code[k]? = some ins) (hnot : ins.isFollower = false) : ins ∈ past := by
  obtain ⟨_, _, -, hsuffix⟩ := h.exists_earlier hk hins hnot
  exact hsuffix.subset (List.mem_cons_self ..)

/-- What lies behind and has had no step of its own has been taken in. -/
theorem Arrives.isFollower_of_not_mem {other : Instruction} (h : Arrives flags code n state past)
    (hcode : code.Increasing) (hins : code[n]? = some ins) (hother : other ∈ code)
    (hbehind : other.offset ≤ ins.offset) (hnot : other ∉ ins :: past) :
    other.isFollower = true := by
  obtain ⟨k, hk⟩ := List.mem_iff_getElem?.mp hother
  have hle := (hcode.offset_le_iff hk hins).mp hbehind
  have hne : k ≠ n := by
    rintro rfl
    rw [hk, Option.some.injEq] at hins
    exact hnot (hins ▸ List.mem_cons_self ..)
  by_contra hfollower
  exact hnot (List.mem_cons_of_mem _
    (h.mem_past (by omega) hk (Bool.eq_false_iff.mpr hfollower)))

/-- Each step brings a run closer to the end of the code. So what holds where a run halts, and before a
step if it does behind it, holds wherever the run arrives. -/
theorem Arrives.backwards {motive : Nat → State → Prop}
    (done : ∀ n state past, Arrives flags code n state past → code.length ≤ n → motive n state)
    (fails : ∀ n state past ins e, Arrives flags code n state past → code[n]? = some ins →
      Walk.step flags code ins (code.drop (n + 1)) state = .error e → motive n state)
    (goes : ∀ n state past ins next skip, Arrives flags code n state past → code[n]? = some ins →
      Walk.step flags code ins (code.drop (n + 1)) state = .ok (next, skip) →
        motive (n + 1 + skip) (next.leave flags n ins.offset) → motive n state)
    (h : Arrives flags code n state past) : motive n state := by
  induction hd : code.length - n using Nat.strongRecOn generalizing n state past with
  | ind d ih =>
    rcases Nat.lt_or_ge n code.length with hlt | hge
    · have hins : code[n]? = some code[n] := List.getElem?_eq_getElem hlt
      cases hstep : Walk.step flags code code[n] (code.drop (n + 1)) state with
      | error e => exact fails _ _ _ _ e h hins hstep
      | ok result =>
          exact goes _ _ _ _ _ _ h hins hstep (ih _ (by omega) (h.step hins hstep) rfl)
    · exact done _ _ _ h hge

/-- A run that does not fail arrives at every instruction that must not be taken in. -/
theorem exists_arrives (hrun : run flags code = .ok last) (hins : code[k]? = some ins)
    (hnot : ins.isFollower = false) :
    ∃ state past, Arrives flags code k state past := by
  have hlength := (List.getElem?_eq_some_iff.mp hins).1
  -- from any earlier position the next step does not get past it
  have hstart : Arrives flags code 0 {} [] := .start
  refine hstart.backwards (motive := fun n _ => n ≤ k → ∃ state past, Arrives flags code k state past)
    ?_ ?_ ?_ (Nat.zero_le k)
  · intro n state past h hn hk
    omega
  · intro n state past started e h hcode hfails hk
    obtain ⟨next, skip, hstep⟩ := h.exists_step hrun hcode
    rw [hfails] at hstep
    cases hstep
  · intro n state past started next skip h hcode hstep ih hk
    rcases Nat.eq_or_lt_of_le hk with rfl | hlt
    · exact ⟨state, past, h⟩
    · exact ih (le_of_not_isFollower hstep hlt hins hnot)

/-- A run arrives behind all of the code, or at a step that fails. -/
theorem exists_halt (flags : Flags) (code : Code) :
    ∃ n state past, Arrives flags code n state past ∧
      (code.length ≤ n ∨ ∃ ins e, code[n]? = some ins ∧
        step flags code ins (code.drop (n + 1)) state = .error e) :=
  Arrives.start.backwards
    (motive := fun _ _ => ∃ n state past, Arrives flags code n state past ∧
      (code.length ≤ n ∨ ∃ ins e, code[n]? = some ins ∧
        step flags code ins (code.drop (n + 1)) state = .error e))
    (fun n state past h hn => ⟨n, state, past, h, .inl hn⟩)
    (fun n state past ins e h hins hstep => ⟨n, state, past, h, .inr ⟨ins, e, hins, hstep⟩⟩)
    (fun _ _ _ _ _ _ _ _ _ ih => ih)

/-- A run that does not fail arrives behind all of the code, in the state that it ends in. -/
theorem exists_arrives_length (hrun : run flags code = .ok last) :
    ∃ past, Arrives flags code code.length last past := by
  obtain ⟨n, state, past, h, hn | ⟨ins, e, hins, hfails⟩⟩ := exists_halt flags code
  · rw [h.run_eq_of_length_le hn, Except.ok.injEq] at hrun
    rw [← hrun, ← Nat.le_antisymm h.le_length hn]
    exact ⟨past, h⟩
  · obtain ⟨next, skip, hstep⟩ := h.exists_step hrun hins
    rw [hfails] at hstep
    cases hstep

theorem exists_arrives_last (hrun : run flags code = .ok last) :
    ∃ n past, Arrives flags code n last past :=
  ⟨code.length, exists_arrives_length hrun⟩

/-- A run that fails arrives at the step that fails. -/
theorem exists_failing_step {e : Error} (hrun : run flags code = .error e) :
    ∃ n state past ins, Arrives flags code n state past ∧ code[n]? = some ins ∧
      step flags code ins (code.drop (n + 1)) state = .error e := by
  obtain ⟨n, state, past, h, hn | ⟨ins, e', hins, hfails⟩⟩ := exists_halt flags code
  · rw [h.run_eq_of_length_le hn] at hrun
    cases hrun
  · obtain ⟨f, hbind⟩ := h.exists_run_eq_bind hins
    rw [hbind, hfails] at hrun
    cases hrun
    exact ⟨n, state, past, ins, h, hins, hfails⟩

/-! ### The result -/

variable {result : Reconstruction}

theorem exists_run (h : reconstruct flags code = .ok result) :
    ∃ last, run flags code = .ok last := by
  obtain ⟨last, hrun, -⟩ := map_eq_ok.mp h
  exact ⟨last, hrun⟩

theorem exists_last (h : reconstruct flags code = .ok result) :
    ∃ last, run flags code = .ok last ∧ result.statements = last.stack.reverse := by
  obtain ⟨last, hrun, rfl⟩ := map_eq_ok.mp h
  exact ⟨last, hrun, rfl⟩

end Decompiler.Walk
