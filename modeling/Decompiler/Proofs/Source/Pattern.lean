import Decompiler.Proofs.Source.Operation
import Decompiler.Proofs.Unpacking.Code

/-!
Patterns: the targets of loops as they are written, which are names and tuples of patterns. The code
of a pattern is read back as a target without a look at what comes after it.
-/

namespace Decompiler

/-- No tuple is empty. -/
inductive Pattern where
  | name (store : Store) (text : String)
  | tuple (first : Pattern) (rest : List Pattern)

namespace Pattern

mutual

def ops : Pattern → List Operation
  | .name store text => [.named store.mnemonic text]
  | .tuple first rest =>
      [.counted "UNPACK_SEQUENCE" (rest.length + 1)] ++ (first.ops ++ allOps rest)

def allOps : List Pattern → List Operation
  | [] => []
  | pattern :: rest => pattern.ops ++ allOps rest

end

mutual

def target : Pattern → Target
  | .name _ text => .name text
  | .tuple first rest => .tuple (first.target :: targets rest)

def targets : List Pattern → List Target
  | [] => []
  | pattern :: rest => pattern.target :: targets rest

end

theorem allOps_eq (patterns : List Pattern) : allOps patterns = patterns.flatMap ops := by
  induction patterns with
  | nil => rfl
  | cons pattern rest ih => simp [allOps, ih]

theorem targets_eq (patterns : List Pattern) : targets patterns = patterns.map target := by
  induction patterns with
  | nil => rfl
  | cons pattern rest ih => simp [targets, ih]

theorem induction {motive : Pattern → Prop} (name : ∀ store text, motive (.name store text))
    (tuple : ∀ first rest, motive first → (∀ pattern ∈ rest, motive pattern) →
      motive (.tuple first rest))
    (pattern : Pattern) : motive pattern := by
  refine @Pattern.rec motive (fun patterns => ∀ pattern ∈ patterns, motive pattern)
    name tuple ?_ ?_ pattern
  · exact nofun
  · exact fun _ _ head tail => List.forall_mem_cons.mpr ⟨head, tail⟩

theorem ops_ne_nil (pattern : Pattern) : pattern.ops ≠ [] := by
  cases pattern <;> simp [ops]

theorem jumpFree_ops (pattern : Pattern) : JumpFree pattern.ops := by
  induction pattern using Pattern.induction with
  | name store text =>
      exact List.forall_mem_singleton.mpr
        (Operation.isJump_eq_false (Store.ofName?_mnemonic store) rfl)
  | tuple first rest hfirst hrest =>
      have hunpack : JumpFree [.counted "UNPACK_SEQUENCE" (rest.length + 1)] :=
        List.forall_mem_singleton.mpr rfl
      rw [ops, allOps_eq]
      exact hunpack.append (hfirst.append (.flatMap hrest))

theorem size_target (pattern : Pattern) : pattern.target.size = pattern.ops.length := by
  induction pattern using Pattern.induction with
  | name store text => rfl
  | tuple first rest hfirst hrest =>
      have htotal : Target.totalSize (targets rest) = (allOps rest).length := by
        induction rest with
        | nil => rfl
        | cons pattern rest ih =>
            rw [targets, Target.totalSize, allOps, List.length_append,
              hrest pattern (List.mem_cons_self ..),
              ih fun other hother => hrest other (List.mem_cons_of_mem _ hother)]
      rw [target, Target.size, Target.totalSize, ops, List.length_append, List.length_append,
        List.length_singleton, hfirst, htotal]
      omega

def Lists (pattern : Pattern) : Prop :=
  ∀ code start, FitsAt code start pattern.ops →
    pattern.target.IsCode ((code.drop start).take pattern.ops.length)

theorem areCodes_allOps {patterns : List Pattern} (h : ∀ pattern ∈ patterns, pattern.Lists)
    {code : Code} {start : Nat} (hfits : FitsAt code start (allOps patterns)) :
    Target.AreCodes (targets patterns) ((code.drop start).take (allOps patterns).length) := by
  induction patterns generalizing start with
  | nil => exact .nil
  | cons pattern rest ih =>
      have hhead := h pattern (List.mem_cons_self ..) code start hfits.append_left
      have htail := ih (fun other hother => h other (List.mem_cons_of_mem _ hother))
        hfits.append_right
      rw [allOps, List.length_append, List.take_add, List.drop_drop]
      exact .cons hhead htail

theorem lists (pattern : Pattern) : pattern.Lists := by
  induction pattern using Pattern.induction with
  | name store text =>
      intro code start hfits
      obtain ⟨ins, hins, hop⟩ := hfits.head
      have hstored : ins.storedName? = some text :=
        Instruction.storedName?_eq_some.mpr
          ⟨hop.opcode?.trans (Store.ofName?_mnemonic store), hop.operands⟩
      rw [Code.drop_eq_cons hins]
      exact .name hstored
  | tuple first rest hfirst hrest =>
      intro code start hfits
      obtain ⟨ins, hins, hop⟩ := hfits.append_left.head
      have hitems : Target.AreCodes (targets (first :: rest))
          ((code.drop (start + 1)).take (allOps (first :: rest)).length) :=
        areCodes_allOps (List.forall_mem_cons.mpr ⟨hfirst, hrest⟩) hfits.append_right
      have harg : ins.arg = some (targets (first :: rest)).length := by
        rw [targets_eq, List.length_map]
        exact hop.operands
      have hlength : (tuple first rest).ops.length = (allOps (first :: rest)).length + 1 := by
        simp only [ops, allOps, List.length_append, List.length_singleton]
        omega
      rw [Code.drop_eq_cons hins, hlength, List.take_succ_cons, target]
      exact .tuple hop.opcode? harg (List.cons_ne_nil _ _) hitems

theorem read?_ops (pattern : Pattern) {code : Code} {start : Nat}
    (hfits : FitsAt code start pattern.ops) :
    Target.read? (code.drop start) = some pattern.target :=
  Target.read?_eq_some_iff.mpr
    ⟨_, _, (List.take_append_drop ..).symm, pattern.lists code start hfits⟩

end Pattern

end Decompiler
