import Mathlib.Order.Monotone.Basic
import Decompiler.Proofs.Source.Operation

/-!
Places. A compiler gives the instructions places in increasing order, and one more place to the end of
the code, so that jumps may leave it. What is found in code by offsets is told here by positions.
-/

namespace Decompiler

/-- Where a list is cut by the first member that fails a test. -/
theorem cut_at {α : Type} {test : α → Bool} {items : List α} {p : Nat}
    (hbefore : ∀ k a, k < p → items[k]? = some a → test a = true)
    (hat : ∀ a, items[p]? = some a → test a = false) :
    items.takeWhile test = items.take p ∧ items.dropWhile test = items.drop p := by
  induction items generalizing p with
  | nil => simp
  | cons a items ih =>
      cases p with
      | zero => simp [hat a rfl]
      | succ p =>
          have ha : test a = true := hbefore 0 a (by omega) rfl
          obtain ⟨htake, hdrop⟩ := ih (fun k b hk hb => hbefore (k + 1) b (by omega) hb) hat
          simp [ha, htake, hdrop]

/-- The instructions of the code are laid out at these offsets. -/
structure LaidOut (place : Nat → Nat) (code : Code) : Prop where
  increasing : StrictMono place
  offset : ∀ n ins, code[n]? = some ins → ins.offset = place n
  bounded : place code.length < Instruction.wordBound

namespace LaidOut

/-- Code of two bytes an instruction. -/
theorem of_words {code : Code} (hoffset : ∀ k : Fin code.length, code[k].offset = 2 * k)
    (hbound : 2 * code.length < Instruction.wordBound) : LaidOut (2 * ·) code where
  increasing := by
    intro n m h
    show 2 * n < 2 * m
    omega
  offset := by
    intro n ins hins
    obtain ⟨hn, rfl⟩ := List.getElem?_eq_some_iff.mp hins
    exact hoffset ⟨n, hn⟩
  bounded := hbound

variable {place : Nat → Nat} {code : Code} {ins : Instruction} {n p : Nat} {op : Operation}

theorem place_lt_iff (h : LaidOut place code) : place n < place p ↔ n < p :=
  h.increasing.lt_iff_lt

theorem place_inj (h : LaidOut place code) : place n = place p ↔ n = p :=
  h.increasing.injective.eq_iff

theorem place_lt_offsetBound (h : LaidOut place code) (hn : n ≤ code.length) :
    place n < Instruction.offsetBound := by
  have hle : place n ≤ place code.length := h.increasing.monotone hn
  have hbounded : place code.length < Instruction.wordBound := h.bounded
  have hwords : Instruction.wordBound ≤ Instruction.offsetBound := by decide
  omega

/-- A jump to a place in the code or to its end. -/
theorem jumpTarget? (h : LaidOut place code) (hfits : op.Fits ins)
    (htarget : op.target? = some (place n)) (hn : n ≤ code.length) :
    ins.jumpTarget? = some (place n) :=
  hfits.jumpTarget? htarget (h.place_lt_offsetBound hn)

theorem cut_at_place (h : LaidOut place code) (p : Nat) :
    code.takeWhile (fun ins => ins.offset < place p) = code.take p ∧
      code.dropWhile (fun ins => ins.offset < place p) = code.drop p := by
  refine cut_at (fun k ins hk hins => ?_) fun ins hins => ?_
  · rw [h.offset k ins hins, decide_eq_true_eq]
    exact h.place_lt_iff.mpr hk
  · rw [h.offset p ins hins, decide_eq_false_iff_not]
    exact Nat.lt_irrefl _

theorem atOffset?_place (h : LaidOut place code) (p : Nat) :
    code.atOffset? (place p) = code[p]? := by
  rw [Code.atOffset?, (h.cut_at_place p).2, List.head?_drop]
  cases hins : code[p]? with
  | none => rfl
  | some ins => simp [h.offset p ins hins]

/-- What stands right before a place. -/
theorem beforeOffset?_place (h : LaidOut place code) (hins : code[p]? = some ins) :
    code.beforeOffset? (place (p + 1)) = some ins := by
  have hp : p < code.length := (List.getElem?_eq_some_iff.mp hins).1
  rw [Code.beforeOffset?, (h.cut_at_place (p + 1)).1, List.getLast?_take, Nat.add_sub_cancel, hins]
  simp

theorem beforeOffset?_of_pos (h : LaidOut place code) (hp : 0 < p)
    (hins : code[p - 1]? = some ins) : code.beforeOffset? (place p) = some ins := by
  obtain ⟨q, rfl⟩ := Nat.exists_eq_add_one.mpr hp
  exact h.beforeOffset?_place hins

/-- The target of an absolute jump among operations that jump to certain positions only. -/
theorem exists_target {ops : List Operation} {start low high k target : Nat}
    (hfits : FitsAt code start ops) (hwithin : JumpsWithin place low high ops)
    (hins : code[k]? = some ins) (hk : start ≤ k) (hk' : k < start + ops.length)
    (hjump : ins.is .jumpAbsolute = true) (htarget : ins.jumpTarget? = some target) :
    ∃ q, low ≤ q ∧ q < high ∧ target = place q := by
  obtain ⟨op, hop, hopfits⟩ := hfits.exists_mem hins hk hk'
  rw [hopfits.is_eq, decide_eq_true_eq] at hjump
  obtain ⟨q, hq, hq', rfl⟩ := hwithin op hop hjump
  rw [Operation.jumpTarget?_absolute hopfits, Option.some.injEq] at htarget
  exact ⟨q, hq, hq', htarget.symm⟩

theorem jumpsBackTo_eq_false (h : LaidOut place code) {ops : List Operation} {start low high k : Nat}
    (hfits : FitsAt code start ops) (hwithin : JumpsWithin place low high ops)
    (hins : code[k]? = some ins) (hk : start ≤ k) (hk' : k < start + ops.length)
    (hp : p < low ∨ high ≤ p) : ins.jumpsBackTo (place p) = false := by
  rw [Instruction.jumpsBackTo, Bool.and_eq_false_iff]
  by_cases hjump : ins.is .jumpAbsolute = true
  · -- a jump among the operations goes to one of the positions it is confined to
    right
    rw [decide_eq_false_iff_not]
    intro htarget
    obtain ⟨q, hq, hq', heq⟩ := exists_target hfits hwithin hins hk hk' hjump htarget
    have := h.place_inj.mp heq
    omega
  · exact Or.inl (Bool.eq_false_iff.mpr hjump)

end LaidOut

/-- No instruction from `stop` on jumps back to a position from `start` on and before `stop`. -/
def NoReturn (code : Code) (place : Nat → Nat) (start stop : Nat) : Prop :=
  ∀ k ins p, stop ≤ k → code[k]? = some ins → start ≤ p → p < stop →
    ins.jumpsBackTo (place p) = false

namespace NoReturn

variable {place : Nat → Nat} {code : Code} {start start' middle stop low high : Nat}
  {ops : List Operation}

theorem mono (h : NoReturn code place start stop) (hstart : start ≤ start') :
    NoReturn code place start' stop :=
  fun k ins p hk hins hp hp' => h k ins p hk hins (by omega) hp'

/-- What comes after a part of a stretch of code is the rest of the stretch, and what comes after. -/
theorem part (h : NoReturn code place start stop) (hlaid : LaidOut place code)
    (hfits : FitsAt code middle ops) (hstop : middle + ops.length = stop)
    (hwithin : JumpsWithin place low high ops) (hstart : start ≤ start')
    (hdisjoint : high ≤ start' ∨ middle ≤ low) : NoReturn code place start' middle := by
  intro k ins p hk hins hp hp'
  by_cases hlast : k < stop
  · exact hlaid.jumpsBackTo_eq_false hfits hwithin hins hk (by omega) (by omega)
  · exact h k ins p (by omega) hins (by omega) (by omega)

end NoReturn

end Decompiler
