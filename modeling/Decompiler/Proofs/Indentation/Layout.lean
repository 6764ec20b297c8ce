import Decompiler.Proofs.Indentation.Balance
import Decompiler.Proofs.Indentation.Nesting
import Decompiler.Proofs.Loops.Tests

/-!
The layout of the statements that a run leaves. Every head of a block that is put stays on the stack
if no step takes it for an operand, so the level rises only behind heads that are still there. A
block that is not over waits for its dedent, and if blocks end where steps are made, no end is
missed. So the statements are nested as the blocks are.
-/

namespace Decompiler

namespace Walk

def isHeadTo (code : Code) (stop : Nat) (s : Statement) : Bool :=
  s.node.isHead && code.blockEnd? s.offset = some stop

theorem dedent_beq (target stop : Nat) :
    (IndentChange.dedent target == IndentChange.dedent stop) = decide (target = stop) := by
  rw [Bool.eq_iff_iff]
  simp [IndentChange.dedent]

/-- All changes to come are dedents, and the blocks on the stack that are not over wait for one
each. The statements are nested, and the level is one that they allow. -/
structure Tidy (code : Code) (past : List Instruction) (offset : Nat) (state : State) : Prop where
  latest : ∀ started ∈ past, started.offset ≤ offset
  dedents : ∀ change ∈ state.pending, change.delta = -1
  blocks : ∀ stop, (∀ started ∈ past, started.offset < stop) →
    state.stack.countP (isHeadTo code stop) ≤ state.pending.count (.dedent stop)
  elses : ∀ s ∈ state.stack, s.node = .elseHead →
    ∃ ins, code.atOffset? s.offset = some ins ∧ ins.opcode? = some .jumpForward
  nested : code.Nested state.stack
  levelled : code.Levelled state.indent offset state.stack

variable {flags : Flags} {code : Code} {ins opener : Instruction} {past : List Instruction}
  {n offset stop : Nat} {state : State} {effect : Effect}

/-! ### Settling -/

/-- The instruction behind a jump has a step of its own. -/
theorem Arrives.mem_past_of_jump {k : Nat} {back next : Instruction}
    (h : Arrives flags code n state past) (hback : code[k]? = some back)
    (hop : back.opcode? = some .jumpAbsolute) (hnext : code[k + 1]? = some next) (hk : k + 1 < n) :
    next ∈ past := by
  induction h with
  | start => exact absurd hk (Nat.not_lt_zero _)
  | step h hins hstep ih =>
      rename_i n skip state after ins past
      rcases Nat.lt_trichotomy (k + 1) n with hlt | rfl | hgt
      · exact List.mem_cons_of_mem _ (ih hlt)
      · rw [hins, Option.some.injEq] at hnext
        exact hnext ▸ List.mem_cons_self ..
      · rcases Nat.lt_or_eq_of_le (Nat.le_of_lt_succ hgt) with hlt | rfl
        · have := le_of_not_isFollower hstep hlt hback
            (Instruction.not_isFollower_of_jump hop (.inl rfl))
          omega
        · rw [hins, Option.some.injEq] at hback
          subst hback
          have := skip_eq_zero_of_jump hstep hop
          omega

/-- A block whose end lies behind has been met by a step there. -/
theorem Arrives.exists_met (h : Arrives flags code n state past) (hcode : code.Increasing)
    (hends : code.EndsMet flags) (hins : code[n]? = some ins)
    (hstop : code.blockEnd? offset = some stop) (hlt : stop < ins.offset) :
    ∃ started ∈ past, started.offset = stop := by
  obtain ⟨opener, hopener, hend⟩ := Option.bind_eq_some_iff.mp hstop
  obtain ⟨hmem, -⟩ := hcode.atOffset?_eq_some.mp hopener
  rcases Option.or_eq_some_iff.mp hend with hahead | ⟨-, hloop⟩
  · rcases hends opener hmem stop hahead with ⟨made, hmade, rfl⟩ | hbehind
    · exact ⟨made.ins, h.mem_past_of_offset_lt hcode hins hmade hlt, rfl⟩
    · have := hbehind ins (List.mem_of_getElem? hins)
      omega
  · split at hloop
    · obtain ⟨target, -, hloop⟩ := Option.bind_eq_some_iff.mp hloop
      obtain ⟨k, back, next, hback, hnext, hjump, -, rfl⟩ := Code.exists_of_loopEnd? hloop
      have hop : back.opcode? = some .jumpAbsolute := by
        simpa [Instruction.is] using (Bool.and_eq_true_iff.mp hjump).1
      have hk := (hcode.offset_lt_iff hnext hins).mp hlt
      exact ⟨next, h.mem_past_of_jump hback hop hnext hk, rfl⟩
    · cases hloop

/-- The level stays if no dedent is due, and is lower otherwise. -/
theorem settle_indent_cases (h : ∀ change ∈ state.pending, change.delta = -1) (offset : Nat) :
    (∀ change ∈ state.pending, change.target ≠ offset) ∧
        (state.settle offset).indent = state.indent ∨
      (state.settle offset).indent < state.indent := by
  have hindent := settle_indent h offset
  rw [State.settle_pending] at hindent
  by_cases hnone : ∀ change ∈ state.pending, change.target ≠ offset
  · rw [List.filter_eq_self.mpr fun change hchange => decide_eq_true (hnone change hchange)]
      at hindent
    exact .inl ⟨hnone, by omega⟩
  · have hlt : (state.pending.filter fun change => change.target ≠ offset).length <
        state.pending.length := by
      rw [List.length_filter_lt_length_iff_exists]
      simpa using hnone
    exact .inr (by omega)

theorem exists_top_of_elseEnd? {level : Int} {stack : List Statement} {target : Nat}
    (h : elseEnd? code level stack target = some stop) :
    ∃ top below, stack = top :: below ∧ top.node = .elseHead ∧ top.indent = level - 1 ∧
      (code.atOffset? top.offset).bind Instruction.jumpTarget? = some stop := by
  unfold elseEnd? at h
  split at h
  · next margin offset below =>
    split at h
    · next hlevel => exact ⟨_, below, rfl, rfl, hlevel, (Option.filter_eq_some_iff.mp h).1⟩
    · cases h
  · cases h

namespace Tidy

/-- The block of a head that is not over waits for its dedent. -/
theorem dedent_mem {head : Statement} (h : Tidy code past offset state) (hhead : head ∈ state.stack)
    (his : head.node.isHead = true) (hstop : code.blockEnd? head.offset = some stop)
    (hopen : ∀ started ∈ past, started.offset < stop) : .dedent stop ∈ state.pending := by
  rw [← List.count_pos_iff]
  have hcount : 0 < state.stack.countP (isHeadTo code stop) :=
    List.countP_pos_iff.mpr ⟨head, hhead, by simp [isHeadTo, his, hstop]⟩
  have := h.blocks stop hopen
  omega

/-- At a step the blocks that end there are over. No block ends between two steps. -/
theorem settle (h : Tidy code past offset state) (harrives : Arrives flags code n state past)
    (hcode : code.Increasing) (hends : code.EndsMet flags) (hins : code[n]? = some ins) :
    Tidy code (ins :: past) ins.offset (state.settle ins.offset) := by
  have hpast := harrives.offset_lt hcode hins
  refine ⟨?_, ?_, ?_, h.elses, h.nested, ?_⟩
  · exact List.forall_mem_cons.mpr ⟨Nat.le_refl _, fun started hstarted =>
      Nat.le_of_lt (hpast started hstarted)⟩
  · exact fun change hchange =>
      h.dedents change ((state.mem_settle_pending ins.offset).mp hchange).1
  · intro stop hstop
    obtain ⟨hlt, hbehind⟩ := List.forall_mem_cons.mp hstop
    have hcount : (state.settle ins.offset).pending.count (.dedent stop) =
        state.pending.count (.dedent stop) := by
      rw [State.settle_pending, List.count_filter]
      exact decide_eq_true (Nat.ne_of_gt hlt)
    rw [hcount, State.settle_stack]
    exact h.blocks stop hbehind
  · intro above rest hstack habove
    have hallows := h.levelled above rest hstack habove
    rcases settle_indent_cases h.dedents ins.offset with ⟨hnone, heq⟩ | hlt
    · rw [heq]
      refine hallows.of_forall fun head hhead his stop hstop hopen => ?_
      have hunmet : ∀ started ∈ past, started.offset < stop := fun started hstarted =>
        Nat.lt_of_le_of_lt (h.latest started hstarted) hopen
      have hmem : head ∈ state.stack := by
        rw [show state.stack = above ++ rest from hstack]
        exact List.mem_append_right _ hhead
      have hne : stop ≠ ins.offset := hnone _ (h.dedent_mem hmem his hstop hunmet)
      by_contra hle
      obtain ⟨started, hstarted, heq⟩ :=
        harrives.exists_met hcode hends hins hstop (by omega)
      have := hunmet started hstarted
      omega
    · exact hallows.of_lt hlt ins.offset

/-! ### One step -/

theorem dedents_apply (h : Tidy code past offset state) (effect : Effect) :
    ∀ change ∈ (state.apply offset effect).pending, change.delta = -1 := by
  intro change hchange
  rcases state.mem_apply_pending offset hchange with hold | ⟨target, -, rfl⟩
  · exact h.dedents change hold
  · rfl

theorem flat (h : Tidy code past offset state) (hflat : effect.Flat)
    (hoperands : ∀ s ∈ state.stack.take effect.pops, s.node.isHead = false) :
    Tidy code past offset (state.apply offset effect) := by
  have hindent : (state.apply offset effect).indent = state.indent := by
    simp [State.apply, hflat.level]
  have hpending : (state.apply offset effect).pending = state.pending := by
    simp [State.apply, hflat.closes, hflat.cancels]
  have hrest := h.levelled.drop hoperands
  have hbelow (stop : Nat) := countP_drop_le (isHeadTo code stop) state.stack effect.pops
  cases hpush : effect.push with
  | none =>
      have hstack : (state.apply offset effect).stack = state.stack.drop effect.pops := by
        simp [State.apply, hpush]
      refine ⟨h.latest, h.dedents_apply effect, ?_, ?_, ?_, ?_⟩
      · intro stop hstop
        rw [hstack, hpending]
        exact (hbelow stop).trans (h.blocks stop hstop)
      · rw [hstack]
        exact fun s hs => h.elses s (List.mem_of_mem_drop hs)
      · rw [hstack]
        exact h.nested.drop effect.pops
      · rw [hstack, hindent]
        exact hrest
  | some node =>
      have hhead := hflat.push node hpush
      have hstack : (state.apply offset effect).stack =
          ⟨state.indent.toNat, node, offset⟩ :: state.stack.drop effect.pops := by
        simp [State.apply, hpush, hflat.shift]
      refine ⟨h.latest, h.dedents_apply effect, ?_, ?_, ?_, ?_⟩
      · intro stop hstop
        rw [hstack, hpending, List.countP_cons, if_neg (by simp [isHeadTo, hhead])]
        exact (hbelow stop).trans (h.blocks stop hstop)
      · rw [hstack, List.forall_mem_cons]
        refine ⟨?_, fun s hs => h.elses s (List.mem_of_mem_drop hs)⟩
        rintro rfl
        cases hhead
      · rw [hstack]
        refine ⟨hrest.allowsOn.toNat, ?_, h.nested.drop effect.pops⟩
        rintro rfl
        cases hhead
      · rw [hstack, hindent]
        exact hrest.cons_of_le (Int.self_le_toNat _)

/-- An effect that opens a block. The head of an `else` stands one level less deep than the others,
and its block ends at the target of the jump. -/
theorem opens {head : Node} (h : Tidy code past offset state) (hcancels : effect.cancels = none)
    (hlevel : effect.level = 1) (hcloses : effect.closes = code.blockEnd? offset)
    (hpush : effect.push = some head) (his : head.isHead = true)
    (hshift : head ≠ .elseHead ∧ effect.shift = 0 ∨ head = .elseHead ∧ effect.shift = -1 ∧
      ∃ ins, code.atOffset? offset = some ins ∧ ins.opcode? = some .jumpForward)
    (hoperands : ∀ s ∈ state.stack.take effect.pops, s.node.isHead = false) :
    Tidy code past offset (state.apply offset effect) := by
  have hrest := h.levelled.drop hoperands
  have hindent : (state.apply offset effect).indent = state.indent + 1 := by
    simp [State.apply, hlevel]
  have hpending : (state.apply offset effect).pending =
      ((code.blockEnd? offset).map IndentChange.dedent).toList ++ state.pending := by
    simp [State.apply, hcloses, hcancels]
  have hstack : (state.apply offset effect).stack =
      ⟨(state.indent + effect.shift).toNat, head, offset⟩ :: state.stack.drop effect.pops := by
    simp [State.apply, hpush]
  have hallows := hrest.allowsOn
  refine ⟨h.latest, h.dedents_apply effect, ?_, ?_, ?_, ?_⟩
  · intro stop hstop
    have hbelow := (countP_drop_le (isHeadTo code stop) state.stack effect.pops).trans
      (h.blocks stop hstop)
    rw [hstack, hpending, List.countP_cons, List.count_append]
    by_cases hto : code.blockEnd? offset = some stop
    · simpa [isHeadTo, his, hto, Nat.add_comm] using hbelow
    · simpa [isHeadTo, hto] using Nat.le_add_left_of_le hbelow
  · rw [hstack, List.forall_mem_cons]
    refine ⟨fun helse => ?_, fun s hs => h.elses s (List.mem_of_mem_drop hs)⟩
    rcases hshift with ⟨hne, -⟩ | ⟨-, -, hins⟩
    · exact absurd helse hne
    · exact hins
  · rw [hstack]
    refine ⟨?_, fun helse under hunder => ?_, h.nested.drop effect.pops⟩
    · refine Code.AllowsOn.toNat (hallows.mono ?_)
      rcases hshift with ⟨-, hshift⟩ | ⟨-, hshift, -⟩
      · omega
      · omega
    · obtain ⟨below, hdrop⟩ := List.head?_eq_some_iff.mp hunder
      rw [hdrop] at hallows
      have hunder := hallows.2
      rcases hshift with ⟨hne, -⟩ | ⟨-, hshift, -⟩
      · exact absurd helse hne
      · dsimp only
        omega
  · rw [hstack, hindent]
    refine Code.Levelled.cons_head his ⟨fun hhead => ?_, ?_⟩
    · rw [his] at hhead
      cases hhead
    · dsimp only
      rcases hshift with ⟨-, hshift⟩ | ⟨helse, hshift, -⟩
      · exact .inl (by omega)
      · rcases Int.lt_or_le 0 state.indent with hpos | hneg
        · exact .inr ⟨by omega, helse, fun other hother hhead stop hstop hlt => hlt⟩
        · exact .inl (by omega)

/-- A branch in place of an `else` stands where the `else` stood. -/
theorem continues {top : Statement} {below : List Statement} {target : Nat} {condition : Node}
    (h : Tidy code past offset state) (hstack : state.stack.drop 1 = top :: below)
    (htop : top.node = .elseHead) (hindent : top.indent = state.indent - 1)
    (hstop : code.blockEnd? top.offset = some stop) (htarget : code.blockEnd? offset = some target)
    (hpops : effect.pops = 2) (hpush : effect.push = some (.elifHead condition))
    (hshift : effect.shift = -1) (hlevel : effect.level = 0)
    (hcloses : effect.closes = some target) (hcancels : effect.cancels = some stop) :
    Tidy code past offset (state.apply offset effect) := by
  have hstack' : (state.apply offset effect).stack =
      ⟨top.indent, .elifHead condition, offset⟩ :: below := by
    have hdrop : state.stack.drop 2 = below := by
      rw [← List.drop_drop (i := 1) (j := 1), hstack, List.drop_one, List.tail_cons]
    have hmargin : (state.indent + -1).toNat = top.indent := by omega
    simp [State.apply, hpush, hshift, hpops, hdrop, hmargin]
  have hpending : (state.apply offset effect).pending =
      (IndentChange.dedent target :: state.pending).erase (.dedent stop) := by
    simp [State.apply, hcloses, hcancels]
  obtain ⟨habove, hdeep, hnested⟩ : code.Nested (top :: below) := hstack ▸ h.nested.drop 1
  refine ⟨h.latest, h.dedents_apply effect, ?_, ?_, ?_, ?_⟩
  · intro other hother
    have hle := (countP_of_drop_one hstack (isHeadTo code other)).trans (h.blocks other hother)
    have hnew : isHeadTo code other ⟨top.indent, .elifHead condition, offset⟩ =
        (IndentChange.dedent target == IndentChange.dedent other) := by
      simp [isHeadTo, Node.isHead, htarget, dedent_beq]
    have hold : isHeadTo code other top =
        (IndentChange.dedent stop == IndentChange.dedent other) := by
      simp [isHeadTo, htop, Node.isHead, hstop, dedent_beq]
    rw [hold] at hle
    rw [hstack', hpending, List.countP_cons, List.count_erase, List.count_cons, hnew]
    omega
  · rw [hstack', List.forall_mem_cons]
    refine ⟨by simp, fun s hs => h.elses s (List.mem_of_mem_drop (i := 1) ?_)⟩
    exact hstack ▸ List.mem_cons_of_mem _ hs
  · rw [hstack']
    refine ⟨?_, by simp, hnested⟩
    -- an `else` is no exception, so what replaces it is none either
    cases below with
    | nil => exact habove
    | cons under below => exact ⟨habove.1, .inl (by have := hdeep htop under rfl; dsimp only; omega)⟩
  · have hkeeps : (state.apply offset effect).indent = state.indent := by
      simp [State.apply, hlevel]
    rw [hstack', hkeeps]
    exact Code.Levelled.cons_head rfl ⟨by simp [Node.isHead], .inl (by dsimp only; omega)⟩

/-- Every effect leaves the statements nested. -/
theorem apply (h : Tidy code (ins :: past) ins.offset state) (hcode : code.Increasing)
    (hins : ins ∈ code) (hform : effect.Form flags code ins state)
    (hoperands : ∀ s ∈ state.stack.take (effect.pops - if effect.cancels.isSome then 1 else 0),
      s.node.isHead = false) :
    Tidy code (ins :: past) ins.offset (state.apply ins.offset effect) := by
  cases hform with
  | flat hflat hop =>
      rw [hflat.cancels] at hoperands
      exact h.flat hflat hoperands
  | forLoop target iterator stop mentions swallows hop hstop =>
      have hend := hcode.blockEnd?_of_endAhead? hins (Instruction.endAhead?_of_forIter hop hstop)
      exact h.opens rfl rfl hend.symm rfl rfl (.inl ⟨nofun, rfl⟩) hoperands
  | whileLoop onTrue condition target hraw hop htarget hforward hwhile =>
      have hend := hcode.blockEnd?_of_endAhead? hins
        (Instruction.endAhead?_of_test hop htarget hforward)
      exact h.opens rfl rfl hend.symm rfl rfl (.inl ⟨nofun, rfl⟩) hoperands
  | ifBranch onTrue condition target hraw hop htarget hforward hwhile =>
      have hend := hcode.blockEnd?_of_endAhead? hins
        (Instruction.endAhead?_of_test hop htarget hforward)
      exact h.opens rfl rfl hend.symm rfl rfl (.inl ⟨nofun, rfl⟩) hoperands
  | lastBranch onTrue condition target hraw hop htarget hback =>
      have hend := hcode.blockEnd?_of_back hins hop htarget hback
      exact h.opens rfl rfl hend.symm rfl rfl (.inl ⟨nofun, rfl⟩) hoperands
  | elseBranch target hraw hop htarget =>
      have hend := hcode.blockEnd?_of_endAhead? hins
        (Instruction.endAhead?_of_jumpForward hop htarget)
      have hat := hcode.atOffset?_eq_some.mpr ⟨hins, rfl⟩
      exact h.opens rfl rfl hend.symm rfl rfl (.inr ⟨rfl, rfl, ins, hat, hop⟩) hoperands
  | elifBranch onTrue condition target stop hraw hop htarget hforward hwhile hstop =>
      have hend := hcode.blockEnd?_of_endAhead? hins
        (Instruction.endAhead?_of_test hop htarget hforward)
      obtain ⟨top, below, hstack, htop, hlevel, hjumpstop⟩ := exists_top_of_elseEnd? hstop
      have hmem : top ∈ state.stack :=
        List.mem_of_mem_drop (i := 1) (hstack ▸ List.mem_cons_self ..)
      -- an `else` on the stack stands at the jump forward that has opened it
      obtain ⟨jump, hat, hjump⟩ := h.elses top hmem htop
      obtain ⟨hjumpmem, hoffset⟩ := hcode.atOffset?_eq_some.mp hat
      rw [hat, Option.bind_some] at hjumpstop
      have htopend := hcode.blockEnd?_of_endAhead? hjumpmem
        (Instruction.endAhead?_of_jumpForward hjump hjumpstop)
      rw [hoffset] at htopend
      exact h.continues hstack htop hlevel htopend hend rfl rfl rfl rfl rfl rfl

/-- In a comprehension the node of the first step becomes part of an assignment, which stands at the
same level. -/
theorem leave {position : Nat} (h : Tidy code past offset state)
    (htop : position = 0 ∧ flags.comprehension = true →
      ∀ top ∈ state.stack.head?, top.node.isHead = false) :
    Tidy code past offset (state.leave flags position offset) := by
  unfold State.leave
  split
  · next hfirst =>
    cases hstack : state.stack with
    | nil => simpa [State.collect, hstack] using h
    | cons top below =>
        have hhead : top.node.isHead = false := htop hfirst top (by simp [hstack])
        have hcollect : state.collect offset =
            { state with
              stack := ⟨state.indent.toNat, .assign .accumulator top.node, offset⟩ :: below } := by
          simp [State.collect, hstack]
        have hrest : code.Levelled state.indent offset below := by
          have := h.levelled.drop (n := 1) (by simp [hstack, hhead])
          simpa [hstack] using this
        rw [hcollect]
        refine ⟨h.latest, h.dedents, ?_, ?_, ?_, ?_⟩
        · intro stop hstop
          have hle := h.blocks stop hstop
          rw [hstack, List.countP_cons] at hle
          rw [List.countP_cons, if_neg (by simp [isHeadTo, Node.isHead])]
          exact (Nat.le_add_right _ _).trans hle
        · rw [List.forall_mem_cons]
          exact ⟨nofun, fun s hs => h.elses s (hstack ▸ List.mem_cons_of_mem _ hs)⟩
        · have hnested : code.Nested (top :: below) := hstack ▸ h.nested
          exact ⟨hrest.allowsOn.toNat, nofun, hnested.2.2⟩
        · exact hrest.cons_of_le (Int.self_le_toNat _)
  · exact h

end Tidy

/-! ### The whole run -/

theorem Arrives.tidy (h : Arrives flags code n state past) (hcode : code.Increasing)
    (hends : code.EndsMet flags) (hkeeps : code.KeepsHeads flags) :
    ∃ offset, Tidy code past offset state := by
  induction h with
  | start => exact ⟨0, nofun, nofun, fun _ _ => Nat.le_refl _, nofun, trivial, by
      rintro above rest hstack -
      obtain ⟨-, rfl⟩ := List.append_eq_nil_iff.mp hstack.symm
      exact Int.le_refl 0⟩
  | step h hins hstep ih =>
      rename_i n skip state next ins past
      obtain ⟨offset, ih⟩ := ih
      obtain ⟨effect, heffect, rfl, rfl⟩ := step_eq_ok.mp hstep
      have hmade := h.mem_steps hins heffect
      have happly := (ih.settle h hcode hends hins).apply hcode (List.mem_of_getElem? hins)
        (form_effect effect heffect) (hkeeps.1 _ hmade)
      refine ⟨ins.offset, happly.leave ?_⟩
      rintro ⟨rfl, hcomprehension⟩ top htop
      have hfirst := hkeeps.2 hcomprehension _ (h.head?_steps hins heffect)
      obtain ⟨-, rfl, -⟩ | hpos := h.eq_start_or_pos
      · cases hpush : effect.push with
        | none => simp [State.apply, hpush] at htop
        | some node =>
            obtain rfl : _ = top := by simpa [State.apply, hpush] using htop
            exact hfirst node hpush
      · exact absurd hpos (Nat.lt_irrefl 0)

variable {result : Reconstruction}

/-- Where no step takes the head of a block and blocks end where steps are made, the first statement
stands at the margin and each other one at most as deep as the one before it, or one level deeper
behind the head of a block. Only behind an `else` it may stand two levels deeper, and then no block
is over between the two. -/
theorem statements_nested (hcode : code.Increasing) (hends : code.EndsMet flags)
    (hkeeps : code.KeepsHeads flags) (hresult : reconstruct flags code = .ok result) :
    (∀ s ∈ result.statements.head?, s.indent = 0) ∧
      ∀ before s t after, result.statements = before ++ s :: t :: after →
        (s.node.isHead = false → t.indent ≤ s.indent) ∧
          (t.indent ≤ s.indent + 1 ∨
            t.indent = s.indent + 2 ∧ code.KeptOpen before s t.offset) := by
  obtain ⟨last, hrun, hstatements⟩ := exists_last hresult
  obtain ⟨n, past, h⟩ := exists_arrives_last hrun
  obtain ⟨offset, htidy⟩ := h.tidy hcode hends hkeeps
  rw [hstatements]
  constructor
  · intro s hs
    rw [List.head?_reverse] at hs
    obtain ⟨above, habove⟩ := List.getLast?_eq_some_iff.mp hs
    have hbottom : (s.indent : Int) ≤ 0 := htidy.nested.allowsOn habove
    omega
  · intro before s t after hsplit
    have hstack : last.stack = after.reverse ++ t :: s :: before.reverse := by
      rw [← List.reverse_reverse last.stack, hsplit]
      simp
    have hallows : code.Allows before.reverse s t.indent t.offset :=
      htidy.nested.allowsOn hstack
    refine ⟨fun hhead => Int.ofNat_le.mp (hallows.1 hhead), ?_⟩
    rcases hallows.2 with hone | ⟨htwo, helse, hkept⟩
    · exact .inl (by omega)
    · refine .inr ⟨by omega, helse, fun head hhead => hkept head ?_⟩
      simpa using hhead

/-- A jump forward in the body of a loop that ends no branch. -/
def forwardInLoop : Code :=
  [{ offset := 0, opname := "LOAD_NAME", argval := some "xs" },
    { offset := 2, opname := "GET_ITER" },
    { offset := 4, opname := "FOR_ITER", arg := some 10, argval := some "to 16" },
    { offset := 6, opname := "STORE_NAME", argval := some "x" },
    { offset := 8, opname := "JUMP_FORWARD", arg := some 2, argval := some "to 12" },
    { offset := 10, opname := "LOAD_NAME", argval := some "y" },
    { offset := 12, opname := "LOAD_NAME", argval := some "z" },
    { offset := 14, opname := "JUMP_ABSOLUTE", arg := some 4 },
    { offset := 16, opname := "LOAD_CONST", argval := some "None" },
    { offset := 18, opname := "RETURN_VALUE" }]

/-- The `else` has no branch before it. Neither the loop nor the `else` is over at 10. -/
theorem statements_nested_forwardInLoop :
    forwardInLoop.Increasing ∧ forwardInLoop.EndsMet {} ∧ forwardInLoop.KeepsHeads {} ∧
      ∃ result, reconstruct {} forwardInLoop = .ok result ∧
        (∀ s ∈ result.statements.head?, s.indent = 0) ∧
        ∃ before s t after, result.statements = before ++ s :: t :: after ∧
          s.node = .elseHead ∧ (s.indent, t.indent) = (0, 2) ∧
          forwardInLoop.KeptOpen before s t.offset := by
  have hcode : forwardInLoop.Increasing := by decide
  have hends : forwardInLoop.EndsMet {} := by decide +kernel
  have hkeeps : forwardInLoop.KeepsHeads {} := by decide +kernel
  have hresult : reconstruct {} forwardInLoop = .ok _ := rfl
  obtain ⟨hfirst, hpairs⟩ := statements_nested hcode hends hkeeps hresult
  refine ⟨hcode, hends, hkeeps, _, hresult, hfirst, [_], _, _, [_, _], rfl, rfl, rfl, ?_⟩
  rcases (hpairs [_] _ _ [_, _] rfl).2 with hone | ⟨-, hkept⟩
  · exact absurd hone (by decide)
  · exact hkept

/-- So a statement may stand two levels deeper than the one before it. -/
theorem exists_two_levels_deeper :
    ¬∀ (code : Code) (result : Reconstruction), code.Increasing → code.EndsMet {} →
      code.KeepsHeads {} → reconstruct {} code = .ok result →
        ∀ before s t after, result.statements = before ++ s :: t :: after →
          t.indent ≤ s.indent + 1 := by
  intro hall
  have hle := hall forwardInLoop _ (by decide) (by decide +kernel) (by decide +kernel) rfl [_] _ _
    [_, _] rfl
  exact absurd hle (by decide)

end Walk

end Decompiler
