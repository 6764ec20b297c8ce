import Decompiler.Proofs.Recovery.Comprehension
import Decompiler.Proofs.Rendering.Unambiguous

/-!
Dictionary displays are recovered with keys and values exchanged. The code of a display computes each key
before its value, and the operands are kept in the order in which they were computed; but a dictionary
node keeps each value in front of its key. A comprehension that collects the same key and value does not
exchange them.
-/

namespace Decompiler

open Walk Text

namespace Node

/-- The dictionary with these keys and values: each value is kept in front of its key. -/
def dictOf (entries : List (Node × Node)) : Node :=
  .dict (entries.flatMap fun entry => [entry.2, entry.1])

/-- The text of a dictionary: each key, a colon and its value. -/
theorem chars_dictOf (entries : List (Node × Node)) :
    (dictOf entries).chars =
      '{' :: (Form.commas (entries.map fun entry => entry.1.chars ++ ':' :: entry.2.chars) ++
        ['}']) :=
  chars_dict entries

theorem IsExpression.dictOf {entries : List (Node × Node)}
    (h : ∀ entry ∈ entries, entry.1.IsExpression ∧ entry.2.IsExpression) :
    (dictOf entries).IsExpression := by
  refine .dict (fun item hitem => ?_) ?_
  · obtain ⟨entry, hentry, hmem⟩ := List.mem_flatMap.mp hitem
    rcases List.mem_pair.mp hmem with rfl | rfl
    · exact (h entry hentry).2
    · exact (h entry hentry).1
  · exact ⟨entries.length, by simp [List.length_flatMap, Nat.mul_two]⟩

theorem dictOf_swap_eq_iff {entries : List (Node × Node)} :
    dictOf (entries.map Prod.swap) = dictOf entries ↔ ∀ entry ∈ entries, entry.1 = entry.2 := by
  rw [dictOf, dictOf, Node.dict.injEq]
  induction entries with
  | nil => simp
  | cons entry rest ih =>
      rw [List.map_cons, List.flatMap_cons, List.flatMap_cons, List.forall_mem_cons, ← ih]
      simp [eq_comm]

/-- Exchanging keys and values shows in the text, unless each value is its key. -/
theorem chars_dictOf_swap_eq_iff {entries : List (Node × Node)}
    (h : ∀ entry ∈ entries, entry.1.IsExpression ∧ entry.2.IsExpression) :
    (dictOf (entries.map Prod.swap)).chars = (dictOf entries).chars ↔
      ∀ entry ∈ entries, entry.1 = entry.2 := by
  have hswapped : (dictOf (entries.map Prod.swap)).IsExpression :=
    .dictOf (List.forall_mem_map.mpr fun entry hentry => (h entry hentry).symm)
  have hclosed : Closed [] := fun _ hc => by cases hc
  rw [← dictOf_swap_eq_iff]
  constructor
  · intro htext
    exact (hswapped.isToldApart.2 _ (.dictOf h) hclosed hclosed (congrArg (· ++ []) htext)).1
  · exact congrArg chars

end Node

namespace Expr

def entryNodes (r : Reading) (entries : List (Expr × Expr)) : List (Node × Node) :=
  entries.map fun entry => (entry.1.tree r, entry.2.tree r)

/-- The node of a display has its keys where the values belong. -/
theorem tree_dict (flags : Flags) (entries : List (Expr × Expr)) :
    (dict entries).tree (.built flags) =
      .dictOf ((entryNodes (.built flags) entries).map Prod.swap) := by
  rw [tree, entryTrees_eq, Node.dictOf, entryNodes, List.map_map, List.flatMap_map]
  rfl

end Expr

/-- The code of a dictionary display becomes one statement, at the margin and with the offset of the last
instruction: the dictionary that has the values for keys and the keys for values, which is how its text
reads as well. That is the text of the display as it was written only if each value is its key. -/
theorem reconstruct_dict (flags : Flags) (hcomprehension : flags.comprehension = false)
    (entries : List (Expr × Expr)) (code : Code)
    (hcode : List.Forall₂ Operation.Fits (Expr.dict entries).ops code) :
    let written := Expr.entryNodes (.built flags) entries
    let built := Node.dictOf (written.map Prod.swap)
    ∃ last result, code.getLast? = some last ∧ reconstruct flags code = .ok result ∧
      result.statements = [⟨0, built, last.offset⟩] ∧
      built.chars =
        '{' :: (Form.commas (written.map fun entry => entry.2.chars ++ ':' :: entry.1.chars) ++
          ['}']) ∧
      ((∀ entry ∈ written, entry.1.IsExpression ∧ entry.2.IsExpression) →
        (built.chars = (Node.dictOf written).chars ↔ ∀ entry ∈ written, entry.1 = entry.2)) := by
  intro written built
  have hlength : (Expr.dict entries).ops.length = code.length := hcode.length_eq
  have hquiet : Quiet code 0 (Expr.dict entries).ops.length ({} : State).pending :=
    Quiet.of_forall_mem (by simp)
  obtain ⟨last, signature, hlast, hreaches⟩ :=
    (Expr.dict entries).pushes flags {} (.of_compiled hcode) hquiet
  rw [Expr.tree_dict, Nat.zero_add, hlength] at hreaches
  rw [Nat.zero_add, hlength] at hlast
  have hchars := Node.chars_dictOf (written.map Prod.swap)
  rw [List.map_map] at hchars
  exact ⟨last, _, List.getLast?_eq_getElem?.trans hlast,
    reconstruct_of_reaches hcomprehension hreaches, rfl, hchars, Node.chars_dictOf_swap_eq_iff⟩

/-- `{f(x): {a: b}, c: c}`, whose second entry alone reads as it is written. -/
theorem reconstruct_dict_nested :
    let code : Code :=
      [{ offset := 0, opname := "LOAD_NAME", argval := some "f" },
        { offset := 2, opname := "LOAD_NAME", argval := some "x" },
        { offset := 4, opname := "CALL_FUNCTION", arg := some 1 },
        { offset := 6, opname := "LOAD_NAME", argval := some "a" },
        { offset := 8, opname := "LOAD_NAME", argval := some "b" },
        { offset := 10, opname := "BUILD_MAP", arg := some 1 },
        { offset := 12, opname := "LOAD_NAME", argval := some "c" },
        { offset := 14, opname := "LOAD_NAME", argval := some "c" },
        { offset := 16, opname := "BUILD_MAP", arg := some 2 }]
    let called := Node.call (.atom "f") [.atom "x"] []
    let inner := Node.dictOf [(.atom "b", .atom "a")]
    let built := Node.dictOf [(inner, called), (.atom "c", .atom "c")]
    ∃ result, reconstruct {} code = .ok result ∧ result.statements = [⟨0, built, 16⟩] ∧
      built.render = "\x7b\x7bb:a\x7d:f(x),c:c\x7d" ∧
      built.chars ≠ (Node.dictOf [(called, inner), (.atom "c", .atom "c")]).chars := by
  intro code called inner built
  let load (text : String) : Expr := .load .name text
  let entries : List (Expr × Expr) :=
    [(.call (load "f") [load "x"], .dict [(load "a", load "b")]), (load "c", load "c")]
  obtain ⟨last, result, hlast, hresult, hstatements, -, htext⟩ :=
    reconstruct_dict {} rfl entries code (by decide)
  cases hlast
  have hatom (text : String) (htext : IsName text.toList) : (Node.atom text).IsExpression :=
    .atom htext
  have hcalled : called.IsExpression :=
    .call (hatom "f" (by decide)) rfl (List.forall_mem_singleton.mpr (hatom "x" (by decide)))
      (by simp) (by simp)
  have hinner : inner.IsExpression :=
    .dictOf (List.forall_mem_singleton.mpr ⟨hatom "b" (by decide), hatom "a" (by decide)⟩)
  have hc := hatom "c" (by decide)
  have hexpressions : ∀ entry ∈ Expr.entryNodes (.built {}) entries,
      entry.1.IsExpression ∧ entry.2.IsExpression :=
    List.forall_mem_cons.mpr ⟨⟨hcalled, hinner⟩, List.forall_mem_singleton.mpr ⟨hc, hc⟩⟩
  have hne : called ≠ inner := by simp [called, inner, Node.dictOf]
  exact ⟨result, hresult, hstatements, by decide, fun h =>
    hne ((htext hexpressions).mp h _ (List.mem_cons_self ..))⟩

/-- `{k: v}` is recovered as `{v: k}`, while `{k: v for x in xs}` stores `v` under `k`. -/
theorem exists_exchanged_dict :
    let code : Code :=
      [{ offset := 0, opname := "LOAD_NAME", argval := some "k" },
        { offset := 2, opname := "LOAD_NAME", argval := some "v" },
        { offset := 4, opname := "BUILD_MAP", arg := some 1 }]
    let collecting : Code :=
      [{ offset := 0, opname := "BUILD_MAP", arg := some 0 },
        { offset := 2, opname := "LOAD_FAST", argval := some ".0" },
        { offset := 4, opname := "FOR_ITER", arg := some 10, argval := some "to 16" },
        { offset := 6, opname := "STORE_FAST", argval := some "x" },
        { offset := 8, opname := "LOAD_GLOBAL", argval := some "k" },
        { offset := 10, opname := "LOAD_GLOBAL", argval := some "v" },
        { offset := 12, opname := "MAP_ADD", arg := some 2 },
        { offset := 14, opname := "JUMP_ABSOLUTE", arg := some 4 },
        { offset := 16, opname := "RETURN_VALUE" }]
    let display := Expr.dict [(.load .name "k", .load .name "v")]
    List.Forall₂ Operation.Fits display.ops code ∧
      (∃ result, reconstruct {} code = .ok result ∧
        result.statements.map Statement.line = [(0, .dictOf [(.atom "v", .atom "k")])]) ∧
      (Node.dictOf [(.atom "v", .atom "k")]).render = "\x7bv:k\x7d" ∧
      (Node.dictOf [(.atom "k", .atom "v")]).render = "\x7bk:v\x7d" ∧
      ∃ result, reconstruct { comprehension := true } collecting = .ok result ∧
        result.statements.map (fun s => s.node.render) =
          ["__temp=\x7b\x7d", "for x in __0:", "__temp[k]=v", "return __temp"] := by
  intro code collecting display
  exact ⟨by decide, ⟨_, rfl, rfl⟩, by decide, by decide, ⟨_, rfl, by decide⟩⟩

end Decompiler
