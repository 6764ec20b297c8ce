import Mathlib.Data.List.TakeWhile
import Decompiler.Code

/-!
Code in the order of its offsets. Where no two instructions share an offset, what is searched for in
code by an offset is told here by membership and by position.
-/

namespace Decompiler

namespace Code

def Increasing (code : Code) : Prop := code.Pairwise fun a b => a.offset < b.offset

instance (code : Code) : Decidable code.Increasing := by
  unfold Increasing
  infer_instance

def LastBefore (code : Code) (offset : Nat) (ins : Instruction) : Prop :=
  ins ∈ code ∧ ins.offset < offset ∧
    ∀ other ∈ code, other.offset < offset → other.offset ≤ ins.offset

instance (code : Code) (offset : Nat) (ins : Instruction) :
    Decidable (code.LastBefore offset ins) := by
  unfold LastBefore
  infer_instance

namespace Increasing

variable {code : Code} {a b ins : Instruction} {n m offset : Nat}

theorem offset_lt (h : code.Increasing) (ha : code[n]? = some a) (hb : code[m]? = some b)
    (hlt : n < m) : a.offset < b.offset := by
  obtain ⟨hn, rfl⟩ := List.getElem?_eq_some_iff.mp ha
  obtain ⟨hm, rfl⟩ := List.getElem?_eq_some_iff.mp hb
  exact List.pairwise_iff_getElem.mp h n m hn hm hlt

theorem offset_lt_iff (h : code.Increasing) (ha : code[n]? = some a) (hb : code[m]? = some b) :
    a.offset < b.offset ↔ n < m := by
  refine ⟨fun hlt => ?_, h.offset_lt ha hb⟩
  rcases Nat.lt_trichotomy n m with hnm | rfl | hmn
  · exact hnm
  · rw [ha, Option.some.injEq] at hb
    subst hb
    exact absurd hlt (Nat.lt_irrefl _)
  · exact absurd (h.offset_lt hb ha hmn) (Nat.lt_asymm hlt)

theorem offset_le_iff (h : code.Increasing) (ha : code[n]? = some a) (hb : code[m]? = some b) :
    a.offset ≤ b.offset ↔ n ≤ m := by
  rw [← Nat.not_lt, h.offset_lt_iff hb ha, Nat.not_lt]

/-- An instruction is told by its offset. -/
theorem eq_of_offset_eq (h : code.Increasing) (ha : a ∈ code) (hb : b ∈ code)
    (heq : a.offset = b.offset) : a = b := by
  obtain ⟨n, hn⟩ := List.mem_iff_getElem?.mp ha
  obtain ⟨m, hm⟩ := List.mem_iff_getElem?.mp hb
  have hnm : n = m := by
    have hle := (h.offset_le_iff hn hm).mp (Nat.le_of_eq heq)
    have hge := (h.offset_le_iff hm hn).mp (Nat.le_of_eq heq.symm)
    omega
  rw [hnm, hm, Option.some.injEq] at hn
  exact hn.symm

theorem nodup (h : code.Increasing) : code.Nodup :=
  h.imp fun hlt heq => by
    rw [heq] at hlt
    exact Nat.lt_irrefl _ hlt

theorem takeWhile_eq_filter (h : code.Increasing) (offset : Nat) :
    code.takeWhile (fun ins => ins.offset < offset) =
      code.filter fun ins => ins.offset < offset := by
  induction code with
  | nil => rfl
  | cons ins code ih =>
      obtain ⟨hfirst, hrest⟩ := List.pairwise_cons.mp h
      by_cases hlt : ins.offset < offset
      · simp [hlt, ih hrest]
      · -- all that follows lies even further
        have hnone : code.filter (fun other => other.offset < offset) = [] := by
          rw [List.filter_eq_nil_iff]
          intro other hother
          have := hfirst other hother
          simp only [decide_eq_true_eq]
          omega
        simp [hlt, hnone]

theorem dropWhile_eq_filter (h : code.Increasing) (offset : Nat) :
    code.dropWhile (fun ins => ins.offset < offset) =
      code.filter fun ins => offset ≤ ins.offset := by
  induction code with
  | nil => rfl
  | cons ins code ih =>
      obtain ⟨hfirst, hrest⟩ := List.pairwise_cons.mp h
      by_cases hlt : ins.offset < offset
      · simp [hlt, Nat.not_le.mpr hlt, ih hrest]
      · have hall : code.filter (fun other => offset ≤ other.offset) = code := by
          rw [List.filter_eq_self]
          intro other hother
          have := hfirst other hother
          simp only [decide_eq_true_eq]
          omega
        simp [hlt, Nat.not_lt.mp hlt, hall]

theorem atOffset?_eq_some (h : code.Increasing) :
    code.atOffset? offset = some ins ↔ ins ∈ code ∧ ins.offset = offset := by
  rw [atOffset?, h.dropWhile_eq_filter, Option.filter_eq_some_iff, decide_eq_true_eq]
  constructor
  · rintro ⟨hhead, hoffset⟩
    have hmem := List.mem_of_mem_head? hhead
    exact ⟨(List.mem_filter.mp hmem).1, hoffset⟩
  · rintro ⟨hmem, hoffset⟩
    refine ⟨?_, hoffset⟩
    have hfound : ins ∈ code.filter fun other => offset ≤ other.offset := by
      simp [hmem, hoffset]
    -- the first of those that are not before the offset is at the offset itself
    cases hfilter : code.filter (fun other => offset ≤ other.offset) with
    | nil => simp [hfilter] at hfound
    | cons first rest =>
        have hfirst : first ∈ code ∧ offset ≤ first.offset := by
          have : first ∈ code.filter fun other => offset ≤ other.offset := by simp [hfilter]
          simpa using this
        have hsorted : (first :: rest).Pairwise fun a b => a.offset < b.offset :=
          hfilter ▸ h.filter _
        rw [hfilter, List.mem_cons] at hfound
        rcases hfound with rfl | hrest
        · rfl
        · have := (List.pairwise_cons.mp hsorted).1 ins hrest
          omega

theorem beforeOffset?_eq_some (h : code.Increasing) :
    code.beforeOffset? offset = some ins ↔ code.LastBefore offset ins := by
  have hsorted : (code.filter fun ins => ins.offset < offset).Pairwise
      fun a b => a.offset < b.offset := h.filter _
  rw [beforeOffset?, h.takeWhile_eq_filter]
  constructor
  · intro hlast
    obtain ⟨front, hfront⟩ := List.getLast?_eq_some_iff.mp hlast
    have hmem : ins ∈ code.filter fun ins => ins.offset < offset := by simp [hfront]
    simp only [List.mem_filter, decide_eq_true_eq] at hmem
    refine ⟨hmem.1, hmem.2, fun other hother hlt => ?_⟩
    have hin : other ∈ front ++ [ins] := by
      rw [← hfront]
      simp [hother, hlt]
    rw [hfront] at hsorted
    rcases List.mem_append.mp hin with hin | hin
    · exact Nat.le_of_lt ((List.pairwise_append.mp hsorted).2.2 other hin ins (by simp))
    · exact Nat.le_of_eq (congrArg Instruction.offset (List.mem_singleton.mp hin))
  · rintro ⟨hmem, hlt, hall⟩
    have hin : ins ∈ code.filter fun ins => ins.offset < offset := by simp [hmem, hlt]
    cases hlast : (code.filter fun ins => ins.offset < offset).getLast? with
    | none => simp [List.getLast?_eq_none_iff.mp hlast] at hin
    | some last =>
        have hlastmem := List.mem_of_getLast? hlast
        simp only [List.mem_filter, decide_eq_true_eq] at hlastmem
        have hle := hall last hlastmem.1 hlastmem.2
        obtain ⟨front, hfront⟩ := List.getLast?_eq_some_iff.mp hlast
        rw [hfront] at hin hsorted
        rcases List.mem_append.mp hin with hin | hin
        · have := (List.pairwise_append.mp hsorted).2.2 ins hin last (by simp)
          omega
        · rw [List.mem_singleton.mp hin]

/-- A test heads a while loop if the last instruction before its target goes back behind all other
tests before it. -/
theorem headsWhile_iff (h : code.Increasing) {origin target : Nat} :
    code.headsWhile origin target = true ↔
      ∃ last start, code.LastBefore target last ∧ last.jumpsBackTo start = true ∧ start < origin ∧
        ∀ test ∈ code, test.isTest = true → start ≤ test.offset → origin ≤ test.offset := by
  simp only [headsWhile, Option.any_eq_true, h.beforeOffset?_eq_some, Instruction.jumpsBackTo,
    Bool.and_eq_true, decide_eq_true_eq, Bool.not_eq_true', List.any_eq_false]
  constructor
  · rintro ⟨last, hlast, hop, start, hstart, hlt, hfree⟩
    refine ⟨last, start, hlast, ⟨hop, hstart⟩, hlt, fun test htest his hle => ?_⟩
    by_contra hbefore
    exact hfree test htest ⟨⟨hle, Nat.lt_of_not_le hbefore⟩, his⟩
  · rintro ⟨last, start, hlast, ⟨hop, hstart⟩, hlt, hfree⟩
    refine ⟨last, hlast, hop, start, hstart, hlt, fun test htest => ?_⟩
    rintro ⟨⟨hle, hbefore⟩, his⟩
    exact Nat.not_le.mpr hbefore (hfree test htest his hle)

/-- The jump that closes a for loop is the last instruction before its end. -/
theorem closesFor_iff (h : code.Increasing) {head : Instruction} (hins : ins ∈ code) :
    code.closesFor head ins.offset = true ↔
      ∃ stop, head.jumpTarget? = some stop ∧ code.LastBefore stop ins := by
  rw [closesFor, Option.any_eq_true]
  constructor
  · rintro ⟨last, hlast, hoffset⟩
    obtain ⟨stop, hstop, hlast⟩ := Option.bind_eq_some_iff.mp hlast
    have hbefore := h.beforeOffset?_eq_some.mp hlast
    rw [h.eq_of_offset_eq hins hbefore.1 (of_decide_eq_true hoffset).symm]
    exact ⟨stop, hstop, hbefore⟩
  · rintro ⟨stop, hstop, hbefore⟩
    exact ⟨ins, by rw [hstop, Option.bind_some, h.beforeOffset?_eq_some.mpr hbefore],
      decide_eq_true rfl⟩

end Increasing

/-! ### Jumps back -/

/-- The first jump back to `target` after `origin`. -/
def closing? (code : Code) (origin target : Nat) : Option Instruction :=
  code.find? fun back => origin < back.offset && back.jumpsBackTo target

variable {code : Code} {back : Instruction} {origin target : Nat}

theorem of_closing? (h : code.closing? origin target = some back) :
    origin < back.offset ∧ back.jumpsBackTo target = true := by
  simpa using List.find?_some h

theorem loopEnd?_of_closing?_eq_none (h : code.closing? origin target = none) :
    code.loopEnd? origin target = none := by
  have hnone : code.dropWhile
      (fun ins => !(origin < ins.offset && ins.jumpsBackTo target)) = [] := by
    rw [List.dropWhile_eq_nil_iff]
    intro ins hins
    rw [Bool.not_eq_true']
    exact Bool.eq_false_iff.mpr (List.find?_eq_none.mp h ins hins)
  rw [loopEnd?, hnone]

/-- A loop is over at the instruction after the jump that closes it, if there is one. -/
theorem loopEnd?_of_closing? (h : code.closing? origin target = some back) :
    ∃ before after, code = before ++ back :: after ∧
      code.loopEnd? origin target = after.head?.map Instruction.offset := by
  obtain ⟨hback, before, after, rfl, hbefore⟩ := List.find?_eq_some_iff_append.mp h
  refine ⟨before, after, rfl, ?_⟩
  have hskip : before.dropWhile
      (fun ins => !(origin < ins.offset && ins.jumpsBackTo target)) = [] :=
    List.dropWhile_eq_nil_iff.mpr hbefore
  have hdrop : (before ++ back :: after).dropWhile
      (fun ins => !(origin < ins.offset && ins.jumpsBackTo target)) = back :: after := by
    rw [List.dropWhile_append, hskip, List.isEmpty_nil, if_pos rfl, List.dropWhile_cons, hback]
    rfl
  rw [loopEnd?, hdrop]
  cases after with
  | nil => rfl
  | cons next rest => rfl

/-- There is no end of a loop only if nothing jumps back, or nothing comes after what does. -/
theorem loopEnd?_eq_none_iff (hcode : code.Increasing) :
    code.loopEnd? origin target = none ↔
      (code.closing? origin target).all fun back => code.getLast? = some back := by
  cases h : code.closing? origin target with
  | none => simp [loopEnd?_of_closing?_eq_none h]
  | some back =>
      obtain ⟨before, after, rfl, hend⟩ := loopEnd?_of_closing? h
      rw [hend, Option.all_some, decide_eq_true_eq]
      cases after with
      | nil => simp
      | cons next rest =>
          -- the last instruction is another one, since none comes twice
          have hne : (next :: rest).getLast? ≠ some back := by
            intro hlast
            have hmem := List.mem_of_getLast? hlast
            have hnodup := (List.nodup_append.mp hcode.nodup).2.1
            exact (List.nodup_cons.mp hnodup).1 hmem
          simpa [List.getLast?_append] using hne

/-- Where a loop is over, an instruction stands right behind a jump back. -/
theorem exists_of_loopEnd? {stop : Nat} (h : code.loopEnd? origin target = some stop) :
    ∃ n back next, code[n]? = some back ∧ code[n + 1]? = some next ∧
      back.jumpsBackTo target = true ∧ origin < back.offset ∧ next.offset = stop := by
  cases hclosing : code.closing? origin target with
  | none => simp [loopEnd?_of_closing?_eq_none hclosing] at h
  | some back =>
      obtain ⟨before, after, rfl, hend⟩ := loopEnd?_of_closing? hclosing
      obtain ⟨horigin, hback⟩ := of_closing? hclosing
      rw [hend] at h
      obtain ⟨next, hnext, rfl⟩ := Option.map_eq_some_iff.mp h
      obtain ⟨rest, rfl⟩ := List.head?_eq_some_iff.mp hnext
      exact ⟨before.length, back, next, by simp, by simp, hback, horigin, rfl⟩

end Code

end Decompiler
