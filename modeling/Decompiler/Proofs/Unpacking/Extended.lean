import Decompiler.Proofs.Unpacking.Binding

/-!
Extended unpackings. An `UNPACK_EX` announces stores of names, a starred one among them, and its step
takes in exactly these stores or fails. How many they are is told by the two low bytes of its argument.
What stands above them does not count, so a step with more names behind the starred one than a byte can
tell takes in too few.
-/

namespace Decompiler

/-! ### Stores in a row -/

def Code.Stores (ahead : Code) (names : List String) : Prop :=
  (ahead.take names.length).map Instruction.storedName? = names.map some

instance (ahead : Code) (names : List String) : Decidable (ahead.Stores names) :=
  inferInstanceAs (Decidable (_ = _))

theorem Code.stores_cons {ins : Instruction} {ahead : Code} {name : String} {names : List String} :
    Code.Stores (ins :: ahead) (name :: names) ↔
      ins.storedName? = some name ∧ ahead.Stores names := by
  simp [Stores]

theorem Target.storedNames?_eq_some_iff {ahead : Code} {n : Nat} {names : List String} :
    storedNames? ahead n = some names ↔ names.length = n ∧ ahead.Stores names := by
  fun_induction storedNames? ahead n generalizing names with
  | case1 ahead =>
      cases names with
      | nil => simp [Code.Stores]
      | cons name names => simp
  | case2 n =>
      cases names with
      | nil => simp
      | cons name names => simp [Code.Stores]
  | case3 ins ahead n ih =>
      simp only [Option.bind_eq_some_iff, Option.map_eq_some_iff, ih]
      cases names with
      | nil => simp
      | cons name names =>
          rw [Code.stores_cons]
          constructor
          · rintro ⟨text, htext, rest, ⟨hlength, hstores⟩, heq⟩
            obtain ⟨rfl, rfl⟩ := List.cons.inj heq
            exact ⟨congrArg Nat.succ hlength, htext, hstores⟩
          · rintro ⟨hlength, htext, hstores⟩
            exact ⟨name, htext, names, ⟨Nat.succ.inj hlength, hstores⟩, rfl⟩

/-! ### Starred targets -/

/-- A target of names, one of which takes what the others leave. -/
structure StarredTarget where
  before : List String
  star : String
  after : List String

namespace StarredTarget

def names (target : StarredTarget) : List String :=
  target.before ++ target.star :: target.after

def items (target : StarredTarget) : List Node :=
  target.before.map .atom ++ .atom ("*" ++ target.star) :: target.after.map .atom

/-- The stores of such a target are next, with so many names before the starred one and so many behind
it. -/
structure IsNext (target : StarredTarget) (ahead : Code) (before after : Nat) : Prop where
  before : target.before.length = before
  after : target.after.length = after
  stores : ahead.Stores target.names

theorem starred_names (target : StarredTarget) :
    Walk.starred target.before.length target.names = target.items := by
  refine List.ext_getElem? fun k => ?_
  rw [Walk.starred, List.getElem?_mapIdx, names, items]
  rcases Nat.lt_trichotomy k target.before.length with hk | rfl | hk
  · rw [List.getElem?_append_left hk, List.getElem?_append_left (by simpa using hk),
      List.getElem?_map]
    simp [Nat.ne_of_lt hk]
  · simp
  · obtain ⟨j, rfl⟩ := Nat.exists_eq_add_of_lt hk
    have hindex : target.before.length + j + 1 - target.before.length = j + 1 := by omega
    have hne : target.before.length + j + 1 ≠ target.before.length := by omega
    rw [List.getElem?_append_right (by omega), List.getElem?_append_right (by simp; omega),
      List.length_map, hindex, List.getElem?_cons_succ, List.getElem?_cons_succ, List.getElem?_map]
    simp [hne]

variable {target : StarredTarget} {ahead : Code} {before after : Nat}

theorem IsNext.length_names (h : target.IsNext ahead before after) :
    target.names.length = before + 1 + after := by
  rw [names, List.length_append, List.length_cons, h.before, h.after]
  omega

theorem IsNext.storedNames?_eq (h : target.IsNext ahead before after) :
    Target.storedNames? ahead (before + 1 + after) = some target.names :=
  Target.storedNames?_eq_some_iff.mpr ⟨h.length_names, h.stores⟩

/-- Where that many names are stored, one of them is the starred one. -/
theorem exists_isNext {names : List String}
    (h : Target.storedNames? ahead (before + 1 + after) = some names) :
    ∃ target : StarredTarget, target.IsNext ahead before after ∧ target.names = names := by
  obtain ⟨hlength, hstores⟩ := Target.storedNames?_eq_some_iff.mp h
  obtain ⟨star, rest, hdrop⟩ : ∃ star rest, names.drop before = star :: rest := by
    refine List.exists_cons_of_ne_nil fun hnil => ?_
    have := List.drop_eq_nil_iff.mp hnil
    omega
  have hnames : names.take before ++ star :: rest = names := by
    rw [← hdrop, List.take_append_drop]
  have hrest : rest.length = after := by
    have := congrArg List.length hdrop
    simp only [List.length_drop, List.length_cons] at this
    omega
  refine ⟨⟨names.take before, star, rest⟩, ⟨?_, hrest, ?_⟩, hnames⟩
  · rw [List.length_take]
    omega
  · rw [StarredTarget.names, hnames]
    exact hstores

end StarredTarget

/-! ### Steps -/

namespace Walk

variable {flags : Flags} {code : Code} {ins : Instruction} {ahead : Code} {state : State}
  {before after : Nat}

/-- A step unpacks so many names, a starred one and so many names behind it: where the stores of these
are next, it takes them in and leaves one assignment to them in place of the value, and otherwise it
fails at its own offset and says how many stores there ought to be. -/
structure Unpacks (flags : Flags) (code : Code) (ins : Instruction) (ahead : Code) (state : State)
    (before after : Nat) : Prop where
  taken : ∀ target : StarredTarget, target.IsNext ahead before after →
    ∃ top below next, state.stack = top :: below ∧
      step flags code ins ahead state = .ok (next, before + 1 + after) ∧
      next.stack = ⟨(state.settle ins.offset).indent.toNat, .assign (Node.tuple target.items) top.node,
        ins.offset⟩ :: below ∧
      Binds target.names state next
  refused : (¬∃ target : StarredTarget, target.IsNext ahead before after) →
    step flags code ins ahead state = .error (.malformedUnpack ins.offset (before + 1 + after))

theorem effect_unpackEx (flags : Flags) (code ahead : Code) {arg : Nat}
    (hop : ins.opcode? = some .unpackEx) (harg : ins.arg = some arg) (state : State) :
    Walk.effect flags code ins ahead state =
      match Target.storedNames? ahead (arg % 256 + 1 + arg / 256 % 256) with
      | none => .error (.malformedUnpack ins.offset (arg % 256 + 1 + arg / 256 % 256))
      | some names => operand ins state.stack >>= fun value =>
          .ok { Effect.replace 1 (.assign (Node.tuple (starred (arg % 256) names)) value) with
            mentions := names.map .store
            swallows := arg % 256 + 1 + arg / 256 % 256 } := by
  rw [effect_of_opcode hop, opcodeEffect, unpackEx, Instruction.requireArg_eq_ok.mpr harg, ok_bind]
  rfl

/-- The two low bytes of the argument say how many names there are. -/
theorem unpacks_bytes {arg : Nat} (hop : ins.opcode? = some .unpackEx) (harg : ins.arg = some arg)
    (hstack : state.stack ≠ []) :
    Unpacks flags code ins ahead state (arg % 256) (arg / 256 % 256) where
  taken target hnext := by
    obtain ⟨top, below, hstack⟩ := List.exists_cons_of_ne_nil hstack
    have heffect := effect_unpackEx flags code ahead hop harg (state.settle ins.offset)
    rw [hnext.storedNames?_eq, State.settle_stack, hstack] at heffect
    dsimp only [operand] at heffect
    rw [ok_bind, ← hnext.before, target.starred_names, hnext.before] at heffect
    refine ⟨top, below, _, hstack, step_eq_ok.mpr ⟨_, heffect, rfl, rfl⟩, ?_, binds_apply rfl _⟩
    simp [State.apply, Effect.replace, hstack]
  refused hnone := by
    have hnames : Target.storedNames? ahead (arg % 256 + 1 + arg / 256 % 256) = none := by
      refine Option.eq_none_iff_forall_ne_some.mpr fun names hnames => hnone ?_
      obtain ⟨target, hnext, -⟩ := StarredTarget.exists_isNext hnames
      exact ⟨target, hnext⟩
    rw [step, effect_unpackEx flags code ahead hop harg, hnames]
    rfl

/-- A step cannot unpack two numbers of names. -/
theorem Unpacks.after_unique {after' : Nat} (h : Unpacks flags code ins ahead state before after)
    (h' : Unpacks flags code ins ahead state before after') : after = after' := by
  by_cases hnext : ∃ target : StarredTarget, target.IsNext ahead before after
  · obtain ⟨target, hnext⟩ := hnext
    obtain ⟨top, below, next, -, hstep, -⟩ := h.taken target hnext
    by_cases hnext' : ∃ target : StarredTarget, target.IsNext ahead before after'
    · obtain ⟨target', hnext'⟩ := hnext'
      obtain ⟨top', below', next', -, hstep', -⟩ := h'.taken target' hnext'
      rw [hstep, Except.ok.injEq, Prod.mk.injEq] at hstep'
      omega
    · rw [h'.refused hnext'] at hstep
      cases hstep
  · have hstep := h.refused hnext
    by_cases hnext' : ∃ target : StarredTarget, target.IsNext ahead before after'
    · obtain ⟨target', hnext'⟩ := hnext'
      obtain ⟨top', below', next', -, hstep', -⟩ := h'.taken target' hnext'
      rw [hstep] at hstep'
      cases hstep'
    · rw [h'.refused hnext', Except.error.injEq, Error.malformedUnpack.injEq] at hstep
      omega

/-- The step of an extended unpacking takes in as many stores as the two low bytes of its argument
announce, or fails for want of them. So it unpacks what the whole argument announces exactly if there is
nothing above these bytes. -/
theorem unpackEx_unpacks (flags : Flags) (code ahead : Code) (ins : Instruction) (state : State)
    (arg : Nat) (hop : ins.opcode? = some .unpackEx) (harg : ins.arg = some arg)
    (hstack : state.stack ≠ []) :
    Unpacks flags code ins ahead state (arg % 256) (arg / 256 % 256) ∧
      (Unpacks flags code ins ahead state (arg % 256) (arg / 256) ↔ arg < 65536) := by
  have hbytes : Unpacks flags code ins ahead state (arg % 256) (arg / 256 % 256) :=
    unpacks_bytes hop harg hstack
  refine ⟨hbytes, fun hwhole => ?_, fun hlt => ?_⟩
  · have hcut : arg / 256 = arg / 256 % 256 := hwhole.after_unique hbytes
    omega
  · have hcut : arg / 256 % 256 = arg / 256 := Nat.mod_eq_of_lt (by omega)
    rwa [hcut] at hbytes

/-- One name before the starred one and, as the third byte says, 256 behind it, of which the step knows
nothing. -/
theorem unpackEx_unpacks_thirdByte :
    let ins : Instruction := { offset := 2, opname := "UNPACK_EX", arg := some 65537 }
    let ahead : Code :=
      [{ offset := 4, opname := "STORE_NAME", argval := some "a" },
        { offset := 6, opname := "STORE_NAME", argval := some "rest" }]
    let state : State := { stack := [⟨0, .atom "t", 0⟩] }
    ins.opcode? = some .unpackEx ∧ ins.arg = some 65537 ∧ state.stack ≠ [] ∧
      StarredTarget.IsNext ⟨["a"], "rest", []⟩ ahead 1 0 ∧
      Unpacks {} (ins :: ahead) ins ahead state 1 0 ∧
      ¬Unpacks {} (ins :: ahead) ins ahead state 1 256 := by
  intro ins ahead state
  have hop : ins.opcode? = some .unpackEx := by decide
  have hstack : state.stack ≠ [] := List.cons_ne_nil _ _
  obtain ⟨hbytes, hwhole⟩ :=
    unpackEx_unpacks {} (ins :: ahead) ahead ins state 65537 hop rfl hstack
  exact ⟨hop, rfl, hstack, ⟨rfl, rfl, by decide⟩, hbytes, fun h => absurd (hwhole.mp h) (by decide)⟩

/-- So an unpacking does not always ask for the stores that its argument announces. -/
theorem exists_unpacks_too_few :
    ¬∀ (code ahead : Code) (ins : Instruction) (state : State) (arg : Nat),
      ins.opcode? = some .unpackEx → ins.arg = some arg → state.stack ≠ [] →
        Unpacks {} code ins ahead state (arg % 256) (arg / 256) := by
  intro hall
  let ins : Instruction := { offset := 2, opname := "UNPACK_EX", arg := some 65536 }
  let ahead : Code := [{ offset := 4, opname := "STORE_NAME", argval := some "a" }]
  let state : State := { stack := [⟨0, .atom "t", 0⟩] }
  have hrefused := (hall (ins :: ahead) ahead ins state 65536 (by decide) rfl
    (List.cons_ne_nil _ _)).refused
  have hnone : ¬∃ target : StarredTarget, target.IsNext ahead 0 256 := by
    rintro ⟨target, hnext⟩
    have hlength := congrArg List.length hnext.stores
    rw [List.length_map, List.length_map, List.length_take, hnext.length_names] at hlength
    exact absurd hlength (by decide)
  have hstep : step {} (ins :: ahead) ins ahead state = .ok (_, 1) := rfl
  rw [hrefused hnone] at hstep
  cases hstep

end Walk

end Decompiler
