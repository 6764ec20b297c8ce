import Decompiler.Proofs.Walk.Operands

/-!
The codes of targets. Targets are read from a list of instructions exactly where their codes stand, one
after the other. No code is the beginning of another, so the target and the number of its instructions
are determined by where the code begins.
-/

namespace Decompiler.Target

mutual

/-- The instructions that list a target in preorder: a store for a name, and for a tuple an
`UNPACK_SEQUENCE` with the number of its items before their codes. No tuple is empty. -/
inductive IsCode : Target → List Instruction → Prop
  | name {ins : Instruction} {text : String} (h : ins.storedName? = some text) :
      IsCode (.name text) [ins]
  | tuple {ins : Instruction} {items : List Target} {block : List Instruction}
      (hop : ins.opcode? = some .unpackSequence) (harg : ins.arg = some items.length)
      (hitems : items ≠ []) (h : AreCodes items block) : IsCode (.tuple items) (ins :: block)

inductive AreCodes : List Target → List Instruction → Prop
  | nil : AreCodes [] []
  | cons {target : Target} {rest : List Target} {block more : List Instruction}
      (head : IsCode target block) (tail : AreCodes rest more) :
      AreCodes (target :: rest) (block ++ more)

end

variable {target : Target} {targets more : List Target} {ins : Instruction}
  {ahead block rest : List Instruction} {n : Nat}

theorem AreCodes.exists_append (h : AreCodes (targets ++ more) block) :
    ∃ first last, block = first ++ last ∧ AreCodes targets first ∧ AreCodes more last := by
  induction targets generalizing block with
  | nil => exact ⟨[], block, rfl, .nil, h⟩
  | cons target targets ih =>
      cases h with
      | cons head tail =>
          obtain ⟨first, last, rfl, hfirst, hlast⟩ := ih tail
          exact ⟨_, last, (List.append_assoc ..).symm, .cons head hfirst, hlast⟩

theorem areCodes_singleton : AreCodes [target] block ↔ target.IsCode block := by
  constructor
  · intro h
    cases h with
    | cons head tail =>
        cases tail
        rwa [List.append_nil]
  · intro h
    simpa using AreCodes.cons h .nil

mutual

theorem IsCode.length_eq {target : Target} {block : List Instruction} (h : target.IsCode block) :
    block.length = target.size := by
  cases h with
  | name h => rfl
  | tuple hop harg hitems h => rw [List.length_cons, h.length_eq, size]

theorem AreCodes.length_eq {targets : List Target} {block : List Instruction}
    (h : AreCodes targets block) : block.length = totalSize targets := by
  cases h with
  | nil => rfl
  | cons head tail => rw [List.length_append, head.length_eq, tail.length_eq, totalSize]

end

/-! ### Reading -/

theorem length_of_readMany? (h : readMany? ahead n = some targets) : targets.length = n := by
  induction ahead generalizing n targets with
  | nil =>
      cases n with
      | zero => simp_all [readMany?]
      | succ n => simp [readMany?] at h
  | cons ins ahead ih =>
      cases n with
      | zero => simp_all [readMany?]
      | succ n =>
          rw [readMany?] at h
          split at h
          · obtain ⟨text, -, h⟩ := Option.bind_eq_some_iff.mp h
            obtain ⟨rest, hrest, rfl⟩ := Option.map_eq_some_iff.mp h
            rw [List.length_cons, ih hrest]
          · split at h
            · split at h
              · obtain ⟨rest, hrest, rfl⟩ := Option.map_eq_some_iff.mp h
                have := ih hrest
                simp only [List.length_cons, List.length_drop]
                omega
              · cases h
            · cases h

/-- What is read stands at the beginning. -/
theorem exists_areCodes (h : readMany? ahead n = some targets) :
    ∃ block rest, ahead = block ++ rest ∧ AreCodes targets block := by
  induction ahead generalizing n targets with
  | nil =>
      cases n with
      | zero =>
          cases h
          exact ⟨[], [], rfl, .nil⟩
      | succ n => simp [readMany?] at h
  | cons ins ahead ih =>
      cases n with
      | zero =>
          cases h
          exact ⟨[], _, rfl, .nil⟩
      | succ n =>
          rw [readMany?] at h
          split at h
          · obtain ⟨text, htext, h⟩ := Option.bind_eq_some_iff.mp h
            obtain ⟨found, hfound, rfl⟩ := Option.map_eq_some_iff.mp h
            obtain ⟨block, rest, rfl, hcodes⟩ := ih hfound
            exact ⟨ins :: block, rest, rfl, .cons (.name htext) hcodes⟩
          · split at h
            · next hop =>
              split at h
              · next k harg =>
                obtain ⟨found, hfound, rfl⟩ := Option.map_eq_some_iff.mp h
                obtain ⟨block, rest, rfl, hcodes⟩ := ih hfound
                -- the first `k + 1` of what has been found are the items of the tuple
                rw [← List.take_append_drop (k + 1) found] at hcodes
                obtain ⟨first, last, rfl, hfirst, hlast⟩ := hcodes.exists_append
                have hlength : (found.take (k + 1)).length = k + 1 := by
                  have := length_of_readMany? hfound
                  rw [List.length_take]
                  omega
                have hop : ins.opcode? = some .unpackSequence := by
                  simpa [Instruction.is] using hop
                have htuple : IsCode (.tuple (found.take (k + 1))) (ins :: first) :=
                  .tuple hop (by rw [hlength, harg])
                    (List.ne_nil_of_length_eq_add_one hlength) hfirst
                exact ⟨(ins :: first) ++ last, rest, by simp, .cons htuple hlast⟩
              · cases h
            · cases h

mutual

/-- A code is read whatever comes after it, and what is wanted besides is read from there. -/
theorem IsCode.readMany?_append {target : Target} {block : List Instruction}
    (h : target.IsCode block) (rest : List Instruction) (n : Nat) :
    readMany? (block ++ rest) (n + 1) = (readMany? rest n).map (target :: ·) := by
  cases h with
  | @name ins text h =>
      obtain ⟨hop, -⟩ := Instruction.storedName?_eq_some.mp h
      have hstore : ins.isStore = true := by simp [Instruction.isStore, Instruction.is, hop]
      rw [List.singleton_append, readMany?, if_pos hstore, h]
      rfl
  | @tuple ins items block hop harg hitems h =>
      obtain ⟨k, hk⟩ := Nat.exists_eq_add_one.mpr (List.length_pos_iff.mpr hitems)
      have hstore : ¬ins.isStore = true := by simp [Instruction.isStore, Instruction.is, hop]
      have hunpack : ins.is .unpackSequence = true := by simp [Instruction.is, hop]
      rw [List.cons_append, readMany?, if_neg hstore, if_pos hunpack, harg, hk]
      dsimp only
      rw [← hk, h.readMany?_append rest n, Option.map_map]
      refine Option.map_congr fun found _ => ?_
      rw [Function.comp_apply, List.take_left, List.drop_left]

theorem AreCodes.readMany?_append {targets : List Target} {block : List Instruction}
    (h : AreCodes targets block) (rest : List Instruction) (n : Nat) :
    readMany? (block ++ rest) (targets.length + n) = (readMany? rest n).map (targets ++ ·) := by
  cases h with
  | nil => simp
  | @cons target targets block more head tail =>
      have hlength : (target :: targets).length + n = targets.length + n + 1 := by
        rw [List.length_cons]
        omega
      rw [List.append_assoc, hlength, head.readMany?_append, tail.readMany?_append, Option.map_map]
      rfl

end

theorem IsCode.read?_append (h : target.IsCode block) (rest : List Instruction) :
    read? (block ++ rest) = some target := by
  rw [read?, h.readMany?_append rest 0, readMany?]
  rfl

/-- A target is read where its code stands, and only there. -/
theorem read?_eq_some_iff :
    read? ahead = some target ↔ ∃ block rest, ahead = block ++ rest ∧ target.IsCode block := by
  constructor
  · intro h
    obtain ⟨targets, hmany, hhead⟩ := Option.bind_eq_some_iff.mp h
    obtain ⟨only, rfl⟩ := List.length_eq_one_iff.mp (length_of_readMany? hmany)
    obtain ⟨block, rest, hahead, hcodes⟩ := exists_areCodes hmany
    obtain rfl : only = target := Option.some.inj hhead
    exact ⟨block, rest, hahead, areCodes_singleton.mp hcodes⟩
  · rintro ⟨block, rest, rfl, h⟩
    exact h.read?_append rest

/-! ### Reading item by item

A tuple can also be read by reading each of its items in turn, as often as its instruction says. Every
tuple that is entered takes an instruction of its own, so this goes no deeper than there are
instructions, and it comes to an end whatever number is written in them. -/

/-- Reads a number of targets one after the other, and gives what is left. -/
def readTimes? (read : List Instruction → Option (Target × List Instruction)) :
    Nat → List Instruction → Option (List Target × List Instruction)
  | 0, ahead => some ([], ahead)
  | k + 1, ahead =>
      (read ahead).bind fun (target, rest) =>
        (readTimes? read k rest).map fun (targets, last) => (target :: targets, last)

/-- Reads a target with less than `depth` tuples around its names, and gives what is left. -/
def readNested? : Nat → List Instruction → Option (Target × List Instruction)
  | depth + 1, ins :: ahead =>
      if ins.isStore then ins.storedName?.map fun text => (.name text, ahead)
      else if ins.is .unpackSequence then
        match ins.arg with
        | some (k + 1) =>
            (readTimes? (readNested? depth) (k + 1) ahead).map fun (items, rest) =>
              (.tuple items, rest)
        | _ => none
      else none
  | _, _ => none

theorem exists_of_readTimes? {read : List Instruction → Option (Target × List Instruction)}
    (hread : ∀ ahead target rest, read ahead = some (target, rest) →
      ∃ block, ahead = block ++ rest ∧ target.IsCode block)
    (h : readTimes? read n ahead = some (targets, rest)) :
    targets.length = n ∧ ∃ block, ahead = block ++ rest ∧ AreCodes targets block := by
  induction n generalizing ahead targets with
  | zero =>
      cases h
      exact ⟨rfl, [], rfl, .nil⟩
  | succ k ih =>
      obtain ⟨⟨target, middle⟩, hfirst, h⟩ := Option.bind_eq_some_iff.mp h
      obtain ⟨⟨others, last⟩, hothers, heq⟩ := Option.map_eq_some_iff.mp h
      obtain ⟨rfl, rfl⟩ := Prod.mk.inj heq
      obtain ⟨block, rfl, hblock⟩ := hread _ _ _ hfirst
      obtain ⟨rfl, more, rfl, hmore⟩ := ih hothers
      exact ⟨rfl, block ++ more, (List.append_assoc ..).symm, .cons hblock hmore⟩

theorem exists_of_readNested? {depth : Nat} (h : readNested? depth ahead = some (target, rest)) :
    ∃ block, ahead = block ++ rest ∧ target.IsCode block := by
  induction depth generalizing ahead target rest with
  | zero => simp [readNested?] at h
  | succ depth ih =>
      cases ahead with
      | nil => simp [readNested?] at h
      | cons ins ahead =>
          rw [readNested?] at h
          split at h
          · obtain ⟨text, htext, heq⟩ := Option.map_eq_some_iff.mp h
            obtain ⟨rfl, rfl⟩ := Prod.mk.inj heq
            exact ⟨[ins], rfl, .name htext⟩
          · split at h
            · next hop =>
              split at h
              · next k harg =>
                obtain ⟨⟨items, last⟩, hitems, heq⟩ := Option.map_eq_some_iff.mp h
                obtain ⟨rfl, rfl⟩ := Prod.mk.inj heq
                obtain ⟨hlength, block, rfl, hblock⟩ :=
                  exists_of_readTimes? (fun _ _ _ => ih) hitems
                have hop : ins.opcode? = some .unpackSequence := by
                  simpa [Instruction.is] using hop
                exact ⟨ins :: block, rfl, .tuple hop (by rw [hlength, harg])
                  (List.ne_nil_of_length_eq_add_one hlength) hblock⟩
              · cases h
            · cases h

mutual

theorem IsCode.readNested?_append {target : Target} {block : List Instruction}
    (h : target.IsCode block) {depth : Nat} (hdepth : block.length ≤ depth)
    (rest : List Instruction) : readNested? depth (block ++ rest) = some (target, rest) := by
  cases h with
  | @name ins text h =>
      obtain ⟨depth, rfl⟩ := Nat.exists_eq_add_one.mpr hdepth
      obtain ⟨hop, -⟩ := Instruction.storedName?_eq_some.mp h
      have hstore : ins.isStore = true := by simp [Instruction.isStore, Instruction.is, hop]
      rw [List.singleton_append, readNested?, if_pos hstore, h]
      rfl
  | @tuple ins items block hop harg hitems h =>
      rw [List.length_cons] at hdepth
      obtain ⟨depth, rfl⟩ := Nat.exists_eq_add_of_le' (Nat.le_trans (Nat.le_add_left 1 _) hdepth)
      obtain ⟨k, hk⟩ := Nat.exists_eq_add_one.mpr (List.length_pos_iff.mpr hitems)
      have hstore : ¬ins.isStore = true := by simp [Instruction.isStore, Instruction.is, hop]
      have hunpack : ins.is .unpackSequence = true := by simp [Instruction.is, hop]
      rw [List.cons_append, readNested?, if_neg hstore, if_pos hunpack, harg, hk]
      dsimp only
      rw [← hk, h.readTimes?_append (Nat.le_of_succ_le_succ hdepth)]
      rfl

theorem AreCodes.readTimes?_append {targets : List Target} {block : List Instruction}
    (h : AreCodes targets block) {depth : Nat} (hdepth : block.length ≤ depth)
    (rest : List Instruction) :
    readTimes? (readNested? depth) targets.length (block ++ rest) = some (targets, rest) := by
  cases h with
  | nil => rfl
  | @cons target targets block more head tail =>
      rw [List.length_append] at hdepth
      rw [List.append_assoc, List.length_cons, readTimes?,
        head.readNested?_append (by omega), Option.bind_some]
      dsimp only
      rw [tail.readTimes?_append (by omega)]
      rfl

end

/-- As deep as there are instructions, reading item by item finds the same target, and leaves what
comes after its code. -/
theorem readNested?_eq {depth : Nat} (hdepth : ahead.length ≤ depth) :
    readNested? depth ahead = (read? ahead).map fun target => (target, ahead.drop target.size) := by
  cases hread : read? ahead with
  | some target =>
      obtain ⟨block, rest, rfl, hcode⟩ := read?_eq_some_iff.mp hread
      rw [List.length_append] at hdepth
      rw [hcode.readNested?_append (by omega), Option.map_some, ← hcode.length_eq, List.drop_left]
  | none =>
      refine Option.eq_none_iff_forall_ne_some.mpr fun ⟨target, rest⟩ hnested => ?_
      obtain ⟨block, hahead, hcode⟩ := exists_of_readNested? hnested
      rw [read?_eq_some_iff.mpr ⟨block, rest, hahead, hcode⟩] at hread
      cases hread

end Decompiler.Target
