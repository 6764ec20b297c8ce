import Decompiler.Walk.Step

/-!
When the functions that read an instruction or look at the stack succeed, and with what. A step is a
chain of such reads; these lemmas take the chain apart from either end.
-/

namespace Decompiler

theorem bind_eq_ok {ε α β : Type} {x : Except ε α} {f : α → Except ε β} {b : β} :
    (x >>= f) = .ok b ↔ ∃ a, x = .ok a ∧ f a = .ok b := by
  cases x with
  | ok a => simp [bind, Except.bind]
  | error e => simp [bind, Except.bind]

theorem map_eq_ok {ε α β : Type} {x : Except ε α} {f : α → β} {b : β} :
    x.map f = .ok b ↔ ∃ a, x = .ok a ∧ f a = b := by
  cases x with
  | ok a => simp [Except.map]
  | error e => simp [Except.map]

theorem ok_bind {ε α β : Type} (a : α) (f : α → Except ε β) : (Except.ok a >>= f) = f a := rfl

/-- What a computation yields, if it yields anything, satisfies `p`. -/
def Yields {ε α : Type} (p : α → Prop) (x : Except ε α) : Prop := ∀ a, x = .ok a → p a

namespace Yields

variable {ε α β : Type} {p : α → Prop}

theorem ok {a : α} (h : p a) : Yields p (.ok a : Except ε α) := by
  rintro _ ⟨⟩
  exact h

theorem error (e : ε) : Yields p (.error e : Except ε α) := by
  rintro _ ⟨⟩

theorem bind {x : Except ε β} {f : β → Except ε α} (h : ∀ b, x = .ok b → Yields p (f b)) :
    Yields p (x >>= f) := by
  intro a ha
  obtain ⟨b, hb, hf⟩ := bind_eq_ok.mp ha
  exact h b hb a hf

end Yields

namespace Instruction

theorem requireArg_eq_ok {ins : Instruction} {arg : Nat} :
    ins.requireArg = .ok arg ↔ ins.arg = some arg := by
  unfold requireArg
  cases ins.arg with
  | none => simp
  | some n => simp

theorem requireName_eq_ok {ins : Instruction} {name : String} :
    ins.requireName = .ok name ↔ ins.argval = some name := by
  unfold requireName
  cases ins.argval with
  | none => simp
  | some text => simp

theorem requireTarget_eq_ok {ins : Instruction} {target : Nat} :
    ins.requireTarget = .ok target ↔ ins.jumpTarget? = some target := by
  unfold requireTarget
  cases ins.jumpTarget? with
  | none => simp
  | some n => simp

theorem storedName?_eq_some {ins : Instruction} {name : String} :
    ins.storedName? = some name ↔ ins.opcode? = some .store ∧ ins.argval = some name := by
  simp [storedName?, isStore, is]

end Instruction

theorem Code.drop_eq_cons {code : Code} {n : Nat} {ins : Instruction} (h : code[n]? = some ins) :
    code.drop n = ins :: code.drop (n + 1) := by
  obtain ⟨hn, rfl⟩ := List.getElem?_eq_some_iff.mp h
  exact List.drop_eq_getElem_cons hn

namespace Walk

/-! What the operands are, given the nodes on the stack from the top down. -/

variable {stack : List Statement} {below : List Node} (ins : Instruction)

theorem operand_of_map {a : Node} (h : stack.map Statement.node = a :: below) :
    operand ins stack = .ok a := by
  match stack, h with
  | _ :: _, h => rw [operand, (List.cons.inj h).1]

theorem operands2_of_map {a b : Node} (h : stack.map Statement.node = b :: a :: below) :
    operands2 ins stack = .ok (a, b) := by
  match stack, h with
  | _ :: _ :: _, h =>
      simp only [List.map_cons, List.cons.injEq] at h
      rw [operands2, h.1, h.2.1]

theorem operands3_of_map {a b c : Node} (h : stack.map Statement.node = c :: b :: a :: below) :
    operands3 ins stack = .ok (a, b, c) := by
  match stack, h with
  | _ :: _ :: _ :: _, h =>
      simp only [List.map_cons, List.cons.injEq] at h
      rw [operands3, h.1, h.2.1, h.2.2.1]

theorem operands_of_map {nodes : List Node}
    (h : stack.map Statement.node = nodes.reverse ++ below) :
    operands ins nodes.length stack = .ok nodes := by
  have hlength : nodes.length ≤ stack.length := by
    have := congrArg List.length h
    simp only [List.length_map, List.length_append, List.length_reverse] at this
    omega
  have htake : (stack.take nodes.length).map Statement.node = nodes.reverse := by
    rw [List.map_take, h, ← List.length_reverse, List.take_left]
  rw [operands, if_pos hlength, List.map_reverse, htake, List.reverse_reverse]

/-- What is left below a number of operands. -/
theorem map_drop_of_map {nodes : List Node}
    (h : stack.map Statement.node = nodes.reverse ++ below) :
    (stack.drop nodes.length).map Statement.node = below := by
  rw [List.map_drop, h, ← List.length_reverse, List.drop_left]

end Walk

end Decompiler
