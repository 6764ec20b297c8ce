import Decompiler.Proofs.Walk.Taken

/-!
Names met on a walk. A step mentions the names of its own instruction and of the instructions it
takes in, and it takes in no load. So the names that a walk meets are those of its instructions,
each read alone and in order: look-ahead and control flow play no part.
-/

namespace Decompiler

/-- What an instruction does with a name, whatever stands around it. -/
def Instruction.mentions (flags : Flags) (ins : Instruction) : List Mention :=
  match ins.opcode?, ins.argval with
  | some (.load global), some text => [.load global (Walk.loadedName flags text)]
  | some .store, some name => [.store name]
  | _, _ => []

/-- The signature after a stretch of code whose instructions are read one by one. -/
def Signature.read (flags : Flags) (signature : Signature) (block : Code) : Signature :=
  (block.flatMap (Instruction.mentions flags)).foldl mention signature

@[simp] theorem Signature.read_nil (flags : Flags) (signature : Signature) :
    signature.read flags [] = signature := rfl

theorem Signature.read_append (flags : Flags) (signature : Signature) (block more : Code) :
    signature.read flags (block ++ more) = (signature.read flags block).read flags more := by
  simp [read]

theorem Signature.read_cons (flags : Flags) (signature : Signature) (ins : Instruction)
    (code : Code) :
    signature.read flags (ins :: code) =
      ((ins.mentions flags).foldl mention signature).read flags code := by
  simp [read]

/-- Names that are bound are marked, and no parameters. -/
theorem Signature.foldl_mention_store (names : List String) (signature : Signature) :
    (names.map .store).foldl mention signature =
      { signature with seen := names.reverse ++ signature.seen } := by
  induction names generalizing signature with
  | nil => rfl
  | cons name names ih => simp [ih, mention]

theorem Instruction.mentions_of_storedName? {ins : Instruction} {name : String}
    (h : ins.storedName? = some name) (flags : Flags) : ins.mentions flags = [.store name] := by
  obtain ⟨hop, hval⟩ := storedName?_eq_some.mp h
  simp [mentions, hop, hval]

theorem Instruction.mentions_eq_nil {ins : Instruction} (hload : ∀ g, ins.opcode? ≠ some (.load g))
    (hstore : ins.opcode? ≠ some .store) (flags : Flags) : ins.mentions flags = [] := by
  unfold mentions
  split
  · next h _ => exact absurd h (hload _)
  · next h _ => exact absurd h hstore
  · rfl

/-! ### What is taken in -/

namespace Target

mutual

theorem IsCode.mentions (flags : Flags) {target : Target} {block : List Instruction}
    (h : target.IsCode block) :
    block.flatMap (Instruction.mentions flags) = target.names.map .store := by
  cases h with
  | name h => simp [Instruction.mentions_of_storedName? h, names]
  | tuple hop harg hitems h =>
      rw [List.flatMap_cons, Instruction.mentions_eq_nil (by simp [hop]) (by simp [hop]),
        List.nil_append, h.mentions, names]

theorem AreCodes.mentions (flags : Flags) {targets : List Target} {block : List Instruction}
    (h : AreCodes targets block) :
    block.flatMap (Instruction.mentions flags) = (allNames targets).map .store := by
  cases h with
  | nil => rfl
  | cons head tail =>
      rw [List.flatMap_append, head.mentions, tail.mentions, allNames, List.map_append]

end

theorem mentions_of_read? (flags : Flags) {ahead : List Instruction} {target : Target}
    (h : read? ahead = some target) :
    (ahead.take target.size).flatMap (Instruction.mentions flags) = target.names.map .store := by
  obtain ⟨block, rest, rfl, hcode⟩ := read?_eq_some_iff.mp h
  rw [← hcode.length_eq, List.take_left, hcode.mentions]

theorem mentions_of_storedNames? (flags : Flags) {ahead : List Instruction} {n : Nat}
    {stored : List String} (h : storedNames? ahead n = some stored) :
    (ahead.take n).flatMap (Instruction.mentions flags) = stored.map .store := by
  induction ahead generalizing n stored with
  | nil =>
      cases n with
      | zero => simp_all [storedNames?]
      | succ n => simp [storedNames?] at h
  | cons ins ahead ih =>
      cases n with
      | zero => simp_all [storedNames?]
      | succ n =>
          obtain ⟨text, htext, h⟩ := Option.bind_eq_some_iff.mp h
          obtain ⟨rest, hrest, rfl⟩ := Option.map_eq_some_iff.mp h
          rw [List.take_succ_cons, List.flatMap_cons, ih hrest,
            Instruction.mentions_of_storedName? htext]
          rfl

end Target

namespace Walk

theorem mentions_of_submoduleName? (flags : Flags) {deeper : List String}
    {ahead : List Instruction} {name : String} (h : submoduleName? deeper ahead = some name) :
    (ahead.take (3 * deeper.length + 1)).flatMap (Instruction.mentions flags) = [.store name] := by
  induction deeper generalizing ahead with
  | nil =>
      match ahead, h with
      | store :: ahead, h => simp [Instruction.mentions_of_storedName? h]
  | cons component deeper ih =>
      match ahead, h with
      | source :: swap :: drop :: ahead, h =>
          rw [submoduleName?] at h
          split at h
          · next hc =>
            simp only [Bool.and_eq_true, decide_eq_true_eq, Instruction.is] at hc
            obtain ⟨⟨⟨hsource, -⟩, hswap⟩, hdrop⟩ := hc
            have hswap : swap.opcode? = none := by
              rw [Instruction.opcode?, hswap]
              decide
            have hdrop : drop.opcode? = some .popTop := by
              rw [Instruction.opcode?, hdrop]
              decide
            have hlength : 3 * (component :: deeper).length + 1 =
                3 * deeper.length + 1 + 1 + 1 + 1 := by
              rw [List.length_cons]
              omega
            simp only [hlength, List.take_succ_cons, List.flatMap_cons]
            rw [Instruction.mentions_eq_nil (by simp [hsource]) (by simp [hsource]),
              Instruction.mentions_eq_nil (by simp [hswap]) (by simp [hswap]),
              Instruction.mentions_eq_nil (by simp [hdrop]) (by simp [hdrop])]
            exact ih h
          · cases h

theorem mentions_of_importedNames (flags : Flags) (origin : Instruction)
    {ahead : List Instruction} {names : List ImportedName}
    (h : importedNames origin ahead = .ok names) :
    (ahead.take (2 * names.length)).flatMap (Instruction.mentions flags) =
      names.map fun imported => .store imported.bound := by
  induction ahead using importedNames.induct generalizing names with
  | case1 source store ahead hc ih =>
      rw [importedNames, if_pos hc] at h
      obtain ⟨name, -, h⟩ := bind_eq_ok.mp h
      obtain ⟨bound, hbound, h⟩ := bind_eq_ok.mp h
      obtain ⟨rest, hrest, h⟩ := bind_eq_ok.mp h
      cases h
      obtain ⟨hsource, hstore⟩ := Bool.and_eq_true_iff.mp hc
      have hsource : source.opcode? = some .importFrom := by simpa [Instruction.is] using hsource
      have hstored : store.storedName? = some bound := by
        rw [Instruction.storedName?, if_pos hstore]
        exact Instruction.requireName_eq_ok.mp hbound
      have hname : ImportedName.bound ⟨name, if bound = name then none else some bound⟩ =
          bound := by
        unfold ImportedName.bound
        split
        · next heq => exact heq.symm
        · rfl
      rw [List.length_cons, Nat.mul_add, List.take_succ_cons, List.take_succ_cons,
        List.flatMap_cons, List.flatMap_cons, ih hrest,
        Instruction.mentions_eq_nil (by simp [hsource]) (by simp [hsource]),
        Instruction.mentions_of_storedName? hstored, List.map_cons, hname]
      rfl
  | case2 source store ahead hc =>
      rw [importedNames, if_neg hc] at h
      cases h
      rfl
  | case3 source hc =>
      rw [importedNames, if_pos hc] at h
      cases h
  | case4 source hc =>
      rw [importedNames, if_neg hc] at h
      cases h
      rfl
  | case5 =>
      cases h
      rfl

/-! ### What a step mentions -/

variable {flags : Flags} {code : Code} {ins : Instruction} {ahead : Code} {state : State}

/-- An effect mentions the names of the instructions it takes in, its own one first. -/
def Effect.Accounts (flags : Flags) (ins : Instruction) (ahead : Code) (effect : Effect) : Prop :=
  effect.mentions =
    (ins :: ahead.take effect.swallows).flatMap (Instruction.mentions flags)

theorem Effect.Silent.accounts {effect : Effect} (h : effect.Silent)
    (hnil : ins.mentions flags = []) : effect.Accounts flags ins ahead := by
  obtain ⟨hmentions, hswallows⟩ := h
  simp [Accounts, hmentions, hswallows, hnil]

theorem accounts_load {global : Bool} (hop : ins.opcode? = some (.load global)) :
    (load flags ins global).Accounts flags ins ahead := by
  unfold load Effect.Accounts
  split
  · next hval => simp [Effect.placeholder, Effect.push1, Effect.replace, Instruction.mentions, hval]
  · next hval => simp [Effect.push1, Effect.replace, Instruction.mentions, hop, hval]

theorem accounts_store (hop : ins.opcode? = some .store) :
    Yields (Effect.Accounts flags ins ahead) (store ins state) := by
  refine .bind fun name hname => .bind fun value _ => .ok ?_
  have hval := Instruction.requireName_eq_ok.mp hname
  simp [Effect.Accounts, Effect.replace, Instruction.mentions, hop, hval]

theorem accounts_inplace {op : BinaryOperator} (hop : ins.opcode? = some (.inplace op)) :
    Yields (Effect.Accounts flags ins ahead) (inplace ins op ahead state) := by
  have hnil : ins.mentions flags = [] :=
    Instruction.mentions_eq_nil (by simp [hop]) (by simp [hop]) flags
  unfold inplace
  split
  · exact .ok ((Effect.plain_placeholder ins).silent.accounts hnil)
  · next target htarget =>
    obtain ⟨store, hhead, hstored⟩ := Option.bind_eq_some_iff.mp htarget
    obtain ⟨rest, rfl⟩ := List.head?_eq_some_iff.mp hhead
    refine .bind fun operands _ => .ok ?_
    simp [Effect.Accounts, hnil, Instruction.mentions_of_storedName? hstored]

theorem accounts_unpackSequence (hop : ins.opcode? = some .unpackSequence) :
    Yields (Effect.Accounts flags ins ahead) (unpackSequence ins ahead state) := by
  have hnil : ins.mentions flags = [] :=
    Instruction.mentions_eq_nil (by simp [hop]) (by simp [hop]) flags
  refine .bind fun value _ => ?_
  split
  · exact .ok ((Effect.plain_replace _ rfl).silent.accounts hnil)
  · next target htarget =>
    refine .ok ?_
    -- the code of the target begins with the instruction itself
    have hread := Target.mentions_of_read? flags htarget
    have hsize : target.size = target.size - 1 + 1 := by
      cases target <;> simp [Target.size]
    rw [hsize, List.take_succ_cons] at hread
    simp [Effect.Accounts, ← hread]

theorem accounts_unpackEx (hop : ins.opcode? = some .unpackEx) :
    Yields (Effect.Accounts flags ins ahead) (unpackEx ins ahead state) := by
  have hnil : ins.mentions flags = [] :=
    Instruction.mentions_eq_nil (by simp [hop]) (by simp [hop]) flags
  refine .bind fun arg _ => ?_
  dsimp only
  split
  · exact .error _
  · next names hnames =>
    refine .bind fun value _ => .ok ?_
    simp only [Effect.Accounts, List.flatMap_cons, hnil, List.nil_append]
    exact (Target.mentions_of_storedNames? flags hnames).symm

theorem accounts_forLoop (hop : ins.opcode? = some .forIter) :
    Yields (Effect.Accounts flags ins ahead) (forLoop ins ahead state) := by
  have hnil : ins.mentions flags = [] :=
    Instruction.mentions_eq_nil (by simp [hop]) (by simp [hop]) flags
  refine .bind fun stop _ => ?_
  split
  · exact .error _
  · split
    · exact .ok ((Effect.plain_placeholder ins).silent.accounts hnil)
    · next target htarget =>
      refine .bind fun iterator _ => .ok ?_
      simp only [Effect.Accounts, List.flatMap_cons, hnil, List.nil_append]
      exact (Target.mentions_of_read? flags htarget).symm

theorem accounts_importForm (module : String) (hnil : ins.mentions flags = []) :
    Yields (Effect.Accounts flags ins ahead) (importForm ins module ahead) := by
  match ahead with
  | [] => exact .error _
  | next :: ahead =>
      rw [importForm]
      split
      · next hnext =>
        refine .bind fun stored hstored => .ok ?_
        have hval := Instruction.requireName_eq_ok.mp hstored
        have hname : next.storedName? = some stored :=
          Instruction.storedName?_eq_some.mpr ⟨hnext, hval⟩
        simp [Effect.Accounts, hnil, Instruction.mentions_of_storedName? hname]
      · next hnext =>
        dsimp only
        split
        · next name hname =>
          refine .ok ?_
          simp only [Effect.Accounts, List.flatMap_cons, hnil, List.nil_append]
          exact (mentions_of_submoduleName? flags hname).symm
        · refine .bind fun names hnames => ?_
          split
          · exact .ok (Effect.Silent.accounts ⟨rfl, rfl⟩ hnil)
          · refine .ok ?_
            simp only [Effect.Accounts, List.flatMap_cons, hnil, List.nil_append]
            exact (mentions_of_importedNames flags ins hnames).symm
      · next hnext =>
        refine .ok ?_
        have hstar : next.mentions flags = [] :=
          Instruction.mentions_eq_nil (by simp [hnext]) (by simp [hnext]) flags
        simp [Effect.Accounts, Effect.replace, hnil, hstar]
      · exact .ok (Effect.Silent.accounts ⟨rfl, rfl⟩ hnil)

theorem accounts_importName (hop : ins.opcode? = some .importName) :
    Yields (Effect.Accounts flags ins ahead) (importName ins ahead state) := by
  have hnil : ins.mentions flags = [] :=
    Instruction.mentions_eq_nil (by simp [hop]) (by simp [hop]) flags
  refine .bind fun module _ => .bind fun ⟨level, _⟩ _ => ?_
  dsimp only
  split
  · exact accounts_importForm module hnil
  · exact .ok (Effect.Silent.accounts ⟨rfl, rfl⟩ hnil)

theorem accounts_opcodeEffect {op : Opcode} (hop : ins.opcode? = some op) :
    Yields (Effect.Accounts flags ins ahead) (opcodeEffect flags code ins ahead state op) := by
  -- what neither loads nor stores is silent, except for what looks ahead
  have silent {x : Except Error Effect} (hload : ∀ g, op ≠ .load g) (hstore : op ≠ .store)
      (h : Yields Effect.Silent x) : Yields (Effect.Accounts flags ins ahead) x := by
    intro effect heffect
    refine (h effect heffect).accounts (Instruction.mentions_eq_nil ?_ ?_ flags)
    · intro g
      rw [hop]
      exact fun h => hload g (Option.some.inj h)
    · rw [hop]
      exact fun h => hstore (Option.some.inj h)
  by_cases hplain : op.isPlain = true
  · refine silent ?_ ?_ fun effect heffect => (plain_opcodeEffect hplain effect heffect).silent
    · rintro g rfl
      cases hplain
    · rintro rfl
      cases hplain
  · cases op with
    | load global => exact .ok (accounts_load hop)
    | store => exact accounts_store hop
    | inplace op => exact accounts_inplace hop
    | unpackSequence => exact accounts_unpackSequence hop
    | unpackEx => exact accounts_unpackEx hop
    | forIter => exact accounts_forLoop hop
    | importName => exact accounts_importName hop
    | popJumpIf onTrue => exact silent nofun nofun (silent_conditionalJump onTrue)
    | jumpForward => exact silent nofun nofun silent_forwardJump
    | _ => exact absurd rfl hplain

theorem accounts_effect :
    Yields (Effect.Accounts flags ins ahead) (effect flags code ins ahead state) := by
  unfold effect
  split
  · next hop =>
    have hnil : ins.mentions flags = [] :=
      Instruction.mentions_eq_nil (by simp [hop]) (by simp [hop]) flags
    exact .ok ((Effect.plain_placeholder ins).silent.accounts hnil)
  · next op hop => exact accounts_opcodeEffect hop

/-- A step reads the names of its instruction and of those it takes in. -/
theorem signature_step {next : State} {skip : Nat}
    (h : step flags code ins ahead state = .ok (next, skip)) :
    next.signature = state.signature.read flags (ins :: ahead.take skip) := by
  obtain ⟨effect, heffect, h⟩ := bind_eq_ok.mp h
  cases h
  have haccounts : effect.Accounts flags ins ahead := accounts_effect effect heffect
  rw [Signature.read, ← haccounts]
  rfl

theorem signature_walk {skip : Nat} {last : State}
    (h : walk flags code skip ahead state = .ok last) :
    last.signature = state.signature.read flags (ahead.drop skip) := by
  induction ahead generalizing skip state with
  | nil =>
      cases h
      simp
  | cons ins ahead ih =>
      cases skip with
      | succ skip =>
          rw [walk] at h
          rw [ih h, List.drop_succ_cons]
      | zero =>
          obtain ⟨⟨next, skip⟩, hstep, h⟩ := bind_eq_ok.mp h
          rw [ih h, signature_step hstep, ← Signature.read_append, List.cons_append,
            List.take_append_drop, List.drop_zero]

/-- The names met on a whole run are those of all the instructions, each read alone. -/
theorem signature_run {last : State} (h : run flags code = .ok last) :
    last.signature = Signature.read flags {} code := by
  cases code with
  | nil =>
      cases h
      rfl
  | cons ins ahead =>
      obtain ⟨⟨next, skip⟩, hstep, h⟩ := bind_eq_ok.mp h
      have hcollect : (if flags.comprehension then next.collect ins.offset else next).signature =
          next.signature := by
        split
        · unfold State.collect
          split
          · rfl
          · rfl
        · rfl
      rw [signature_walk h, hcollect, signature_step hstep, ← Signature.read_append,
        List.cons_append, List.take_append_drop]

end Walk

end Decompiler
