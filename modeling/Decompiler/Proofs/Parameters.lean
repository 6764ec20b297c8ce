import Decompiler.Proofs.Source.Mnemonic
import Decompiler.Proofs.Walk.Mentions
import Decompiler.Walk.Step

/-!
Parameters in one pass. The walk finds the parameters while it rebuilds statements, and it takes in
instructions ahead of others. A plain pass over the instructions from left to right, which knows
mnemonics and nothing else, finds the same names.
-/

namespace Decompiler

namespace Opcode

/-- The load whose names are never parameters. -/
def globalLoad : String := "LOAD_GLOBAL"

def localLoads : List String :=
  ["LOAD_FAST", "LOAD_NAME", "LOAD_CONST", "LOAD_DEREF", "LOAD_CLOSURE", "LOAD_CLASSDEREF"]

def stores : List String := ["STORE_FAST", "STORE_NAME", "STORE_GLOBAL", "STORE_DEREF"]

theorem ofName?_eq_globalLoad {mnemonic : String} :
    ofName? mnemonic = some (.load true) ↔ mnemonic = globalLoad := by
  constructor
  · intro h
    have hmem := mem_mnemonics_of_ofName? h nofun nofun nofun nofun
    simpa [mnemonics, globalLoad] using hmem
  · rintro rfl
    decide

theorem ofName?_eq_localLoad {mnemonic : String} :
    ofName? mnemonic = some (.load false) ↔ mnemonic ∈ localLoads := by
  constructor
  · intro h
    have hmem := mem_mnemonics_of_ofName? h nofun nofun nofun nofun
    simpa [mnemonics, localLoads] using hmem
  · have hall : ∀ m ∈ localLoads, ofName? m = some (.load false) := by decide
    exact hall mnemonic

theorem ofName?_eq_store {mnemonic : String} :
    ofName? mnemonic = some .store ↔ mnemonic ∈ stores := by
  constructor
  · intro h
    have hmem := mem_mnemonics_of_ofName? h nofun nofun nofun nofun
    simpa [mnemonics, stores] using hmem
  · have hall : ∀ m ∈ stores, ofName? m = some .store := by decide
    exact hall mnemonic

end Opcode

open Opcode

/-- The parameters that a plain pass finds in code, given the names that are marked already. -/
def parameters (flags : Flags) : List String → Code → List String
  | _, [] => []
  | marked, ins :: rest =>
      match ins.argval with
      | none => parameters flags marked rest
      | some text =>
          if ins.opname = globalLoad ∨ ins.opname ∈ localLoads then
            let name := Walk.loadedName flags text
            if Signature.isName name then
              if ins.opname = globalLoad ∨ name ∈ marked then
                parameters flags (name :: marked) rest
              else name :: parameters flags (name :: marked) rest
            else parameters flags marked rest
          else if ins.opname ∈ stores then parameters flags (text :: marked) rest
          else parameters flags marked rest

theorem not_mem_parameters (flags : Flags) {marked : List String} {name : String}
    (h : name ∈ marked) (code : Code) : name ∉ parameters flags marked code := by
  induction code generalizing marked with
  | nil => simp [parameters]
  | cons ins code ih =>
      rw [parameters]
      split
      · exact ih h
      · dsimp only
        split
        · split
          · split
            · exact ih (List.mem_cons_of_mem _ h)
            · next hnew =>
              rw [List.mem_cons, not_or]
              refine ⟨?_, ih (List.mem_cons_of_mem _ h)⟩
              rintro rfl
              exact hnew (Or.inr h)
          · exact ih h
        · split
          · exact ih (List.mem_cons_of_mem _ h)
          · exact ih h

theorem nodup_parameters (flags : Flags) (marked : List String) (code : Code) :
    (parameters flags marked code).Nodup := by
  induction code generalizing marked with
  | nil => simp [parameters]
  | cons ins code ih =>
      rw [parameters]
      split
      · exact ih _
      · dsimp only
        split
        · split
          · split
            · exact ih _
            · rw [List.nodup_cons]
              exact ⟨not_mem_parameters flags (List.mem_cons_self ..) code, ih _⟩
          · exact ih _
        · split
          · exact ih _
          · exact ih _

/-- Jumps that are left as they are change no name. -/
theorem parameters_rawJumps (flags : Flags) (raw : Bool) (marked : List String) (code : Code) :
    parameters { flags with rawJumps := raw } marked code = parameters flags marked code := by
  have hname (text : String) :
      Walk.loadedName { flags with rawJumps := raw } text = Walk.loadedName flags text := rfl
  induction code generalizing marked with
  | nil => rfl
  | cons ins code ih => simp only [parameters, hname, ih]

theorem mentions_of_load {ins : Instruction} {global : Bool} {text : String} (flags : Flags)
    (hop : ins.opcode? = some (.load global)) (hval : ins.argval = some text) :
    ins.mentions flags = [.load global (Walk.loadedName flags text)] := by
  simp [Instruction.mentions, hop, hval]

/-- The pass finds what the mentions of the single instructions add up to. -/
theorem args_read (flags : Flags) (signature : Signature) (code : Code) :
    (signature.read flags code).args =
      signature.args ++ parameters flags signature.seen code := by
  induction code generalizing signature with
  | nil => simp [parameters]
  | cons ins code ih =>
      rw [Signature.read_cons, ih, parameters]
      cases hval : ins.argval with
      | none =>
          have hnil : ins.mentions flags = [] := by
            unfold Instruction.mentions
            simp [hval]
          simp [hnil]
      | some text =>
          dsimp only
          by_cases hglobal : ins.opname = globalLoad
          · rw [mentions_of_load flags (ofName?_eq_globalLoad.mpr hglobal) hval]
            by_cases hname : Signature.isName (Walk.loadedName flags text)
            · simp [hglobal, hname, Signature.mention]
            · simp [hglobal, hname, Signature.mention]
          · by_cases hlocal : ins.opname ∈ localLoads
            · rw [mentions_of_load flags (ofName?_eq_localLoad.mpr hlocal) hval]
              by_cases hname : Signature.isName (Walk.loadedName flags text)
              · by_cases hseen : Walk.loadedName flags text ∈ signature.seen
                · simp [hglobal, hlocal, hname, hseen, Signature.mention]
                · simp [hglobal, hlocal, hname, hseen, Signature.mention]
              · simp [hglobal, hlocal, hname, Signature.mention]
            · by_cases hstore : ins.opname ∈ stores
              · have hstored : ins.storedName? = some text :=
                  Instruction.storedName?_eq_some.mpr ⟨ofName?_eq_store.mpr hstore, hval⟩
                rw [Instruction.mentions_of_storedName? hstored]
                simp [hglobal, hlocal, hstore, Signature.mention]
              · have hload (global : Bool) : ins.opcode? ≠ some (.load global) := by
                  cases global with
                  | true => exact fun h => hglobal (ofName?_eq_globalLoad.mp h)
                  | false => exact fun h => hlocal (ofName?_eq_localLoad.mp h)
                rw [Instruction.mentions_eq_nil hload fun h => hstore (ofName?_eq_store.mp h)]
                simp [hglobal, hlocal, hstore]

/-- The parameters of a reconstruction are those of the plain pass. They are all different, and it
does not matter to them whether jumps are left as they are. -/
theorem args_reconstruct (flags : Flags) (code : Code) (result : Reconstruction)
    (h : reconstruct flags code = .ok result) :
    result.args = parameters flags [] code ∧ result.args.Nodup ∧
      ∀ raw other, reconstruct { flags with rawJumps := raw } code = .ok other →
        other.args = result.args := by
  have hargs (flags : Flags) (result : Reconstruction) (h : reconstruct flags code = .ok result) :
      result.args = parameters flags [] code := by
    unfold reconstruct at h
    cases hrun : Walk.run flags code with
    | error e => simp [hrun, Except.map] at h
    | ok last =>
        simp only [hrun, Except.map, Except.ok.injEq] at h
        subst h
        rw [Walk.signature_run hrun, args_read]
        rfl
  refine ⟨hargs flags result h, ?_, ?_⟩
  · rw [hargs flags result h]
    exact nodup_parameters flags [] code
  · intro raw other hother
    rw [hargs _ other hother, hargs flags result h, parameters_rawJumps]

/-- A loop that unpacks, adds in place and calls what an import has bound. The steps of the loop, the
addition and the import take in the stores after them. -/
theorem args_reconstruct_loop :
    let code : Code :=
      [{ offset := 0, opname := "LOAD_CONST", argval := some "0" },
        { offset := 2, opname := "LOAD_CONST", argval := some "None" },
        { offset := 4, opname := "IMPORT_NAME", argval := some "math" },
        { offset := 6, opname := "STORE_FAST", argval := some "m" },
        { offset := 8, opname := "LOAD_FAST", argval := some "pairs" },
        { offset := 10, opname := "GET_ITER" },
        { offset := 12, opname := "FOR_ITER", arg := some 16, argval := some "to 30" },
        { offset := 14, opname := "UNPACK_SEQUENCE", arg := some 2 },
        { offset := 16, opname := "STORE_FAST", argval := some "a" },
        { offset := 18, opname := "STORE_FAST", argval := some "b" },
        { offset := 20, opname := "LOAD_FAST", argval := some "total" },
        { offset := 22, opname := "LOAD_FAST", argval := some "a" },
        { offset := 24, opname := "INPLACE_ADD" },
        { offset := 26, opname := "STORE_FAST", argval := some "total" },
        { offset := 28, opname := "JUMP_ABSOLUTE", arg := some 12 },
        { offset := 30, opname := "LOAD_FAST", argval := some "m" },
        { offset := 32, opname := "RETURN_VALUE" }]
    let result : Reconstruction :=
      { statements :=
          [⟨0, .importStmt "math" (some "m"), 4⟩,
            ⟨0, .forHead (.tuple [.atom "a", .atom "b"]) (.atom "pairs"), 12⟩,
            ⟨1, .inplace .add "total" (.atom "a"), 24⟩,
            ⟨0, .returnStmt (.atom "m"), 32⟩]
        args := ["pairs", "total"] }
    reconstruct {} code = .ok result ∧
      ["pairs", "total"] = parameters {} [] code ∧ ["pairs", "total"].Nodup ∧
        ∀ raw other, reconstruct { rawJumps := raw } code = .ok other →
          other.args = ["pairs", "total"] := by
  intro code result
  have hresult : reconstruct {} code = .ok result := rfl
  exact ⟨hresult, args_reconstruct {} code result hresult⟩

end Decompiler
