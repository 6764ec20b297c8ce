import Decompiler.Proofs.Unpacking.Code
import Decompiler.Proofs.Walk.Effects

/-!
What a step takes in. A statement may be spread over several instructions, and its step takes in
those that come after its own. They are there, and they store, unpack or belong to an import: no
load, no operation and no jump is ever passed over.
-/

namespace Decompiler

/-- The opcodes of instructions that may be taken in. -/
def Opcode.follows : Opcode → Bool
  | store | unpackSequence | importFrom | importStar | popTop => true
  | _ => false

/-- Whether an instruction may be taken in by the step of another. -/
def Instruction.isFollower (ins : Instruction) : Bool :=
  ins.isStore || ins.is .unpackSequence || ins.is .importFrom || ins.is .importStar ||
    ins.is .popTop || ins.opname = "ROT_TWO"

theorem Instruction.isFollower_of_storedName? {ins : Instruction} {name : String}
    (h : ins.storedName? = some name) : ins.isFollower = true := by
  obtain ⟨hop, -⟩ := storedName?_eq_some.mp h
  simp [isFollower, isStore, is, hop]

/-- What has another opcode is met by a step of its own. -/
theorem Instruction.not_isFollower_of_opcode {ins : Instruction} {op : Opcode}
    (hop : ins.opcode? = some op) (h : op.follows = false) : ins.isFollower = false := by
  have hname : ins.opname ≠ "ROT_TWO" := by
    intro hname
    have hnone : ins.opcode? = none := by
      rw [opcode?, hname]
      decide
    rw [hnone] at hop
    cases hop
  have hne (other : Opcode) (hother : other.follows = true) : ins.is other = false := by
    rw [is, hop, decide_eq_false_iff_not, Option.some_inj]
    rintro rfl
    rw [h] at hother
    cases hother
  simp [isFollower, isStore, hname, hne .store rfl, hne .unpackSequence rfl, hne .importFrom rfl,
    hne .importStar rfl, hne .popTop rfl]

/-- A jump is met by a step of its own. -/
theorem Instruction.not_isFollower_of_jump {ins : Instruction} {op : Opcode}
    (hop : ins.opcode? = some op) (hjump : op = .jumpAbsolute ∨ ∃ onTrue, op = .popJumpIf onTrue) :
    ins.isFollower = false := by
  rcases hjump with rfl | ⟨onTrue, rfl⟩
  · exact not_isFollower_of_opcode hop rfl
  · exact not_isFollower_of_opcode hop rfl

/-- The next `n` instructions are there, and all of them may be taken in. -/
structure Code.Followed (ahead : Code) (n : Nat) : Prop where
  le_length : n ≤ ahead.length
  followers : ∀ ins ∈ ahead.take n, ins.isFollower = true

namespace Code.Followed

variable {ahead : Code} {ins : Instruction} {n : Nat}

theorem zero (ahead : Code) : ahead.Followed 0 := ⟨Nat.zero_le _, nofun⟩

theorem cons (hins : ins.isFollower = true) (h : ahead.Followed n) :
    Code.Followed (ins :: ahead) (n + 1) := by
  refine ⟨Nat.succ_le_succ h.le_length, ?_⟩
  rw [List.take_succ_cons, List.forall_mem_cons]
  exact ⟨hins, h.followers⟩

theorem tail (h : Code.Followed (ins :: ahead) (n + 1)) : ahead.Followed n := by
  refine ⟨Nat.le_of_succ_le_succ h.le_length, fun other hother => h.followers other ?_⟩
  rw [List.take_succ_cons]
  exact List.mem_cons_of_mem _ hother

theorem getElem? {k : Nat} (h : ahead.Followed n) (hk : k < n) :
    ∃ other, ahead[k]? = some other ∧ other.isFollower = true := by
  obtain ⟨other, hother⟩ : ∃ other, ahead[k]? = some other :=
    ⟨_, List.getElem?_eq_getElem (Nat.lt_of_lt_of_le hk h.le_length)⟩
  have htaken : (ahead.take n)[k]? = some other := by rw [List.getElem?_take_of_lt hk, hother]
  exact ⟨other, hother, h.followers other (List.mem_of_getElem? htaken)⟩

end Code.Followed

/-! ### What is read ahead -/

namespace Target

mutual

theorem IsCode.isFollower {target : Target} {block : List Instruction} (h : target.IsCode block) :
    ∀ ins ∈ block, ins.isFollower = true := by
  cases h with
  | name h => exact List.forall_mem_singleton.mpr (Instruction.isFollower_of_storedName? h)
  | tuple hop harg hitems h =>
      exact List.forall_mem_cons.mpr
        ⟨by simp [Instruction.isFollower, Instruction.is, hop], h.isFollower⟩

theorem AreCodes.isFollower {targets : List Target} {block : List Instruction}
    (h : AreCodes targets block) : ∀ ins ∈ block, ins.isFollower = true := by
  cases h with
  | nil => exact List.forall_mem_nil _
  | cons head tail => exact List.forall_mem_append.mpr ⟨head.isFollower, tail.isFollower⟩

end

theorem followed_of_read? {ahead : List Instruction} {target : Target}
    (h : read? ahead = some target) : Code.Followed ahead target.size := by
  obtain ⟨block, rest, rfl, hcode⟩ := read?_eq_some_iff.mp h
  refine ⟨by simp [← hcode.length_eq], fun ins hins => hcode.isFollower ins ?_⟩
  rwa [← hcode.length_eq, List.take_left] at hins

theorem followed_of_storedNames? {ahead : List Instruction} {n : Nat} {stored : List String}
    (h : storedNames? ahead n = some stored) : Code.Followed ahead n := by
  induction ahead generalizing n stored with
  | nil =>
      cases n with
      | zero => exact .zero _
      | succ n => simp [storedNames?] at h
  | cons ins ahead ih =>
      cases n with
      | zero => exact .zero _
      | succ n =>
          obtain ⟨text, htext, h⟩ := Option.bind_eq_some_iff.mp h
          obtain ⟨rest, hrest, rfl⟩ := Option.map_eq_some_iff.mp h
          exact (ih hrest).cons (Instruction.isFollower_of_storedName? htext)

end Target

namespace Walk

theorem followed_of_submoduleName? {deeper : List String} {ahead : List Instruction}
    {name : String} (h : submoduleName? deeper ahead = some name) :
    Code.Followed ahead (3 * deeper.length + 1) := by
  induction deeper generalizing ahead with
  | nil =>
      match ahead, h with
      | store :: ahead, h =>
          exact (Code.Followed.zero _).cons (Instruction.isFollower_of_storedName? h)
  | cons component deeper ih =>
      match ahead, h with
      | source :: swap :: drop :: ahead, h =>
          rw [submoduleName?] at h
          split at h
          · next hc =>
            simp only [Bool.and_eq_true, decide_eq_true_eq] at hc
            obtain ⟨⟨⟨hsource, -⟩, hswap⟩, hdrop⟩ := hc
            have hdrop : drop.is .popTop = true := by
              rw [Instruction.is, Instruction.opcode?, hdrop]
              decide
            have hlength : 3 * (component :: deeper).length + 1 =
                3 * deeper.length + 1 + 1 + 1 + 1 := by
              rw [List.length_cons]
              omega
            rw [hlength]
            exact (((ih h).cons (by simp [Instruction.isFollower, hdrop])).cons
              (by simp [Instruction.isFollower, hswap])).cons
                (by simp [Instruction.isFollower, hsource])
          · cases h

theorem followed_of_importedNames (origin : Instruction) {ahead : List Instruction}
    {names : List ImportedName} (h : importedNames origin ahead = .ok names) :
    Code.Followed ahead (2 * names.length) := by
  induction ahead using importedNames.induct generalizing names with
  | case1 source store ahead hc ih =>
      rw [importedNames, if_pos hc] at h
      obtain ⟨name, -, h⟩ := bind_eq_ok.mp h
      obtain ⟨bound, -, h⟩ := bind_eq_ok.mp h
      obtain ⟨rest, hrest, h⟩ := bind_eq_ok.mp h
      cases h
      obtain ⟨hsource, hstore⟩ := Bool.and_eq_true_iff.mp hc
      rw [List.length_cons, Nat.mul_add]
      exact ((ih hrest).cons (by simp [Instruction.isFollower, hstore])).cons
        (by simp [Instruction.isFollower, hsource])
  | case2 source store ahead hc =>
      rw [importedNames, if_neg hc] at h
      cases h
      exact .zero _
  | case3 source hc =>
      rw [importedNames, if_pos hc] at h
      cases h
  | case4 source hc =>
      rw [importedNames, if_neg hc] at h
      cases h
      exact .zero _
  | case5 =>
      cases h
      exact .zero _

/-! ### What a step takes in -/

/-- An effect takes in instructions that may be taken in. -/
def Effect.TakesIn (ahead : Code) (effect : Effect) : Prop := ahead.Followed effect.swallows

theorem Effect.Silent.takesIn {effect : Effect} (h : effect.Silent) (ahead : Code) :
    effect.TakesIn ahead := by
  rw [TakesIn, h.2]
  exact .zero ahead

variable {flags : Flags} {code : Code} {ins : Instruction} {ahead : Code} {state : State}

theorem takesIn_load (global : Bool) : (load flags ins global).TakesIn ahead := by
  unfold load
  split
  · exact (Effect.plain_placeholder ins).silent.takesIn ahead
  · exact Code.Followed.zero ahead

theorem takesIn_store : Yields (Effect.TakesIn ahead) (store ins state) :=
  .bind fun _ _ => .bind fun _ _ => .ok (Code.Followed.zero ahead)

theorem takesIn_inplace (op : BinaryOperator) :
    Yields (Effect.TakesIn ahead) (inplace ins op ahead state) := by
  unfold inplace
  split
  · exact .ok ((Effect.plain_placeholder ins).silent.takesIn ahead)
  · next target htarget =>
    obtain ⟨store, hhead, hstored⟩ := Option.bind_eq_some_iff.mp htarget
    obtain ⟨rest, rfl⟩ := List.head?_eq_some_iff.mp hhead
    exact .bind fun _ _ =>
      .ok ((Code.Followed.zero rest).cons (Instruction.isFollower_of_storedName? hstored))

theorem takesIn_unpackSequence :
    Yields (Effect.TakesIn ahead) (unpackSequence ins ahead state) := by
  refine .bind fun value _ => ?_
  split
  · exact .ok ((Effect.plain_replace _ rfl).silent.takesIn ahead)
  · next target htarget =>
    refine .ok ?_
    -- the code of the target begins with the instruction itself
    have hread := Target.followed_of_read? htarget
    have hsize : target.size = target.size - 1 + 1 := by
      cases target <;> simp [Target.size]
    rw [hsize] at hread
    exact hread.tail

theorem takesIn_unpackEx : Yields (Effect.TakesIn ahead) (unpackEx ins ahead state) := by
  refine .bind fun arg _ => ?_
  dsimp only
  split
  · exact .error _
  · next names hnames =>
    exact .bind fun _ _ => .ok (Target.followed_of_storedNames? hnames)

theorem takesIn_forLoop : Yields (Effect.TakesIn ahead) (forLoop ins ahead state) := by
  refine .bind fun stop _ => ?_
  split
  · exact .error _
  · split
    · exact .ok ((Effect.plain_placeholder ins).silent.takesIn _)
    · next target htarget =>
      exact .bind fun _ _ => .ok (Target.followed_of_read? htarget)

theorem takesIn_importForm (module : String) :
    Yields (Effect.TakesIn ahead) (importForm ins module ahead) := by
  match ahead with
  | [] => exact .error _
  | next :: ahead =>
      rw [importForm]
      split
      · next hnext =>
        exact .bind fun _ _ => .ok ((Code.Followed.zero ahead).cons
          (by simp [Instruction.isFollower, Instruction.isStore, Instruction.is, hnext]))
      · dsimp only
        split
        · next name hname => exact .ok (followed_of_submoduleName? hname)
        · refine .bind fun names hnames => ?_
          split
          · exact .ok (Code.Followed.zero _)
          · exact .ok (followed_of_importedNames ins hnames)
      · next hnext =>
        exact .ok ((Code.Followed.zero ahead).cons
          (by simp [Instruction.isFollower, Instruction.is, hnext]))
      · exact .ok (Code.Followed.zero _)

theorem takesIn_importName : Yields (Effect.TakesIn ahead) (importName ins ahead state) := by
  refine .bind fun module _ => .bind fun ⟨level, _⟩ _ => ?_
  dsimp only
  split
  · exact takesIn_importForm module
  · exact .ok (Code.Followed.zero ahead)

theorem takesIn_opcodeEffect (op : Opcode) :
    Yields (Effect.TakesIn ahead) (opcodeEffect flags code ins ahead state op) := by
  have silent {x : Except Error Effect} (h : Yields Effect.Silent x) :
      Yields (Effect.TakesIn ahead) x := fun effect heffect =>
    (h effect heffect).takesIn ahead
  by_cases hplain : op.isPlain = true
  · exact silent fun effect heffect => (plain_opcodeEffect hplain effect heffect).silent
  · cases op with
    | load global => exact .ok (takesIn_load global)
    | store => exact takesIn_store
    | inplace op => exact takesIn_inplace op
    | unpackSequence => exact takesIn_unpackSequence
    | unpackEx => exact takesIn_unpackEx
    | forIter => exact takesIn_forLoop
    | importName => exact takesIn_importName
    | popJumpIf onTrue => exact silent (silent_conditionalJump onTrue)
    | jumpForward => exact silent silent_forwardJump
    | _ => exact absurd rfl hplain

theorem takesIn_effect :
    Yields (Effect.TakesIn ahead) (effect flags code ins ahead state) := by
  unfold effect
  split
  · exact .ok ((Effect.plain_placeholder ins).silent.takesIn ahead)
  · exact takesIn_opcodeEffect _

end Walk

end Decompiler
