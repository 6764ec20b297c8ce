import Decompiler.Proofs.Recovery.Branch
import Decompiler.Proofs.Recovery.Loop
import Decompiler.Proofs.Recovery.Simple
import Decompiler.Walk.Step

/-!
Programs are recovered. The walk over a statement adds its lines at the level that it is met at; what is
known besides is that no dedent waits inside the statement and that nothing after it jumps back into it.
Both are handed down to the statements of its bodies.
-/

namespace Decompiler

open Walk

/-- What is known where the walk comes to a statement or a body of a program. -/
structure Setting (code : Code) (place : Nat → Nat) (start size : Nat) (ops : List Operation)
    (before : State) (depth : Nat) : Prop where
  fits : FitsAt code start ops
  room : start + size ≤ code.length
  depth : before.indent = depth
  clear : Clear place start (start + size) before.pending
  noReturn : NoReturn code place start (start + size)

/-- Whatever comes before a statement, its lines are added. -/
def Stmt.IsRecovered (code : Code) (place : Nat → Nat) (s : Stmt) : Prop :=
  ∀ (elif : Bool) (start : Nat) (state before : State) (depth : Nat),
    Setting code place start s.size (s.ops place start) before depth →
    Met code place s (start + s.size) elif state before →
    Leaves {} code place start (start + s.size) state before (s.lines (.built {}) elif depth)

/-- A body is recovered behind the head of a block, and behind an `else` that ends where the body
does. -/
structure Block.IsRecovered (code : Code) (place : Nat → Nat) (body : Block) : Prop where
  behindHead : ∀ (start : Nat) (before : State) (depth : Nat),
    Setting code place start body.size (body.ops place start) before depth →
    (∀ top ∈ before.stack.head?, top.node ≠ .elseHead) →
    Leaves {} code place start (start + body.size) before before (body.lines (.built {}) depth)
  behindElse : ∀ (start : Nat) (before : State) (depth offset : Nat) (signature : Signature),
    Setting code place start body.size (body.ops place start) before depth →
    (code.atOffset? offset).bind Instruction.jumpTarget? = some (place (start + body.size)) →
    Leaves {} code place start (start + body.size)
      ((before.pushed .elseHead offset signature).opened 1 (place (start + body.size))) before
      (body.elseLines (.built {}) depth)

variable {code : Code} {place : Nat → Nat}

/-- Behind a head the level is one deeper, and one more dedent waits for the end of the block. -/
theorem Block.IsRecovered.under {body : Block} (h : body.IsRecovered code place)
    (hlaid : LaidOut place code) {start depth : Nat} {before : State} (stop : Nat) (node : Node)
    (offset : Nat) (signature : Signature) (hnode : node ≠ .elseHead)
    (hfits : FitsAt code start (body.ops place start)) (hroom : stop ≤ code.length)
    (hstop : start + body.size ≤ stop) (hdepth : before.indent = depth)
    (hclear : Clear place start stop before.pending)
    (hreturn : NoReturn code place start (start + body.size)) :
    Leaves {} code place start (start + body.size)
      ((before.pushed node offset signature).opened 1 (place stop))
      ((before.pushed node offset signature).opened 1 (place stop)) (body.lines (.built {}) (depth + 1)) := by
  refine h.behindHead start _ (depth + 1) ⟨hfits, by omega, ?_, ?_, hreturn⟩ ?_
  · simp [hdepth]
  · exact Clear.opened hlaid (hclear.sub (Nat.le_refl start) hstop) hstop
  · intro top htop
    cases htop
    exact hnode

/-- The body of a loop behind its head, and the jump that closes it. The jump goes back to before the
body and not into it. -/
theorem Block.IsRecovered.loop {body : Block} (h : body.IsRecovered code place)
    (hlaid : LaidOut place code) {start head inner depth : Nat} {before : State}
    {back : Instruction} (node : Node) (offset : Nat) (signature : Signature)
    (hnode : node ≠ .elseHead) (hfits : FitsAt code inner (body.ops place inner))
    (hclosing : FitsAt code (inner + body.size) [.absolute "JUMP_ABSOLUTE" (place head)])
    (hback : code[inner + body.size]? = some back) (hdepth : before.indent = depth)
    (hclear : Clear place inner (inner + body.size + 1) before.pending)
    (hreturn : NoReturn code place start (inner + body.size + 1)) (hstart : start ≤ head)
    (hhead : head < inner)
    (heffect : ∀ ahead after, effect {} code back ahead after = .ok {}) :
    Leaves {} code place inner (inner + body.size + 1)
      ((before.pushed node offset signature).opened 1 (place (inner + body.size + 1))) before
      ((depth, node) :: body.lines (.built {}) (depth + 1)) := by
  have hroom : inner + body.size + 1 ≤ code.length := (List.getElem?_eq_some_iff.mp hback).1
  have hwithin : JumpsWithin place head inner [.absolute "JUMP_ABSOLUTE" (place head)] :=
    .back (Nat.le_refl head) hhead
  have hinside : NoReturn code place inner (inner + body.size) :=
    hreturn.part hlaid hclosing rfl hwithin (by omega) (Or.inl (Nat.le_refl inner))
  have hblock := h.under hlaid (inner + body.size + 1) node offset signature hnode hfits hroom
    (by omega) hdepth hclear hinside
  have hclosed := hblock.close hlaid
    (Clear.opened hlaid (hclear.sub (by omega) (Nat.le_refl _)) (Nat.le_refl _)) hback
    fun after _ => heffect _ after
  have hlines := hclosed.under
  rw [hdepth, Int.toNat_natCast] at hlines
  exact hlines

/-! ### Statements -/

theorem isRecovered_simple (hlaid : LaidOut place code) (s : Simple) :
    Stmt.IsRecovered code place (.simple s) := by
  intro elif start state before depth hsetting hmet
  cases hmet with
  | filling hif => cases hif
  | alone =>
      have hreturn : ({} : Flags).comprehension = true → ∀ value, s ≠ .ret value := nofun
      obtain ⟨offset, signature, hreaches⟩ :=
        s.reaches hreturn state hsetting.fits (hsetting.clear.quiet hlaid)
      have hadds := Adds.pushed state offset signature (s.tree_ne_elseHead (.built {}))
      rw [hsetting.depth, Int.toNat_natCast] at hadds
      exact .of_adds hadds hreaches

theorem branchHead_ne_elseHead (elif : Bool) (test : Node) : branchHead elif test ≠ .elseHead := by
  cases elif <;> nofun

theorem isRecovered_ifThen (hlaid : LaidOut place code) (test : Expr) {body : Block}
    (hbody : body.IsRecovered code place) : Stmt.IsRecovered code place (.ifThen test body) := by
  intro elif start state before depth hsetting hmet
  obtain ⟨hfits, hroom, hdepth, hclear, hreturn⟩ := hsetting
  have hstop : start + (Stmt.ifThen test body).size =
      start + test.ops.length + 1 + body.size := by
    rw [Stmt.size]
    omega
  rw [hstop] at hroom hclear hreturn hmet ⊢
  have hcontained := (contained_ops place).2 body (start + test.ops.length + 1)
  have hpos := hcontained.pos
  have hinner : FitsAt code (start + test.ops.length + 1) _ :=
    hfits.append_right.cast (by rw [List.length_append, List.length_singleton, Nat.add_assoc])
  obtain ⟨last, hlast⟩ : ∃ last, code[start + test.ops.length + 1 + body.size - 1]? = some last :=
    ⟨_, List.getElem?_eq_getElem (by omega)⟩
  obtain ⟨offset, signature, hhead⟩ := reaches_branch hmet rfl hlaid hfits.append_left
    (.of_contained hlaid hcontained hinner hlast) (hlaid.beforeOffset?_of_pos (by omega) hlast)
    hclear hdepth (by omega) (Nat.le_refl _)
  have hblock := hbody.under hlaid _ _ offset signature (branchHead_ne_elseHead elif (test.tree (.built {})))
    hinner hroom (Nat.le_refl _) hdepth (hclear.sub (by omega) (Nat.le_refl _))
    (hreturn.mono (by omega))
  have hlines := hblock.under.prepend hhead
  rw [hdepth, Int.toNat_natCast] at hlines
  exact hlines

theorem isRecovered_ifElse (hlaid : LaidOut place code) (test : Expr) {body other : Block}
    (hbody : body.IsRecovered code place) (hother : other.IsRecovered code place) :
    Stmt.IsRecovered code place (.ifElse test body other) := by
  intro elif start state before depth hsetting hmet
  obtain ⟨hfits, hroom, hdepth, hclear, hreturn⟩ := hsetting
  have hcontained := (contained_ops place).2 body (start + test.ops.length + 1)
  have hcontained' := (contained_ops place).2 other (start + test.ops.length + 1 + body.size + 1)
  have hpos := hcontained.pos
  have hpos' := hcontained'.pos
  have hstop : start + (Stmt.ifElse test body other).size =
      start + test.ops.length + 1 + body.size + 1 + other.size := by
    rw [Stmt.size]
    omega
  rw [hstop] at hroom hclear hreturn hmet ⊢
  have hinner : FitsAt code (start + test.ops.length + 1) _ :=
    hfits.append_left.append_left.append_right.cast
      (by rw [List.length_append, List.length_singleton, Nat.add_assoc])
  have hskip : FitsAt code (start + test.ops.length + 1 + body.size) _ :=
    hfits.append_left.append_right.cast (by
      rw [List.length_append, List.length_append, List.length_singleton, hcontained.length]
      omega)
  have helse : FitsAt code (start + test.ops.length + 1 + body.size + 1) _ :=
    hfits.append_right.cast (by
      simp only [List.length_append, List.length_singleton, hcontained.length]
      omega)
  obtain ⟨jump, hins, hjump⟩ := hskip.head
  have hforward : jump.is .jumpForward = true := hjump.is_eq_true rfl
  obtain ⟨offset, signature, hhead⟩ := reaches_branch hmet rfl hlaid
    hfits.append_left.append_left.append_left
    (.jump (by omega) hforward (hlaid.jumpTarget? hjump rfl hroom)) (hlaid.beforeOffset?_place hins)
    hclear hdepth (by omega) (by omega)
  have hforwardOnly (target : Nat) : JumpsWithin place 0 0 [.relative "JUMP_FORWARD" target] :=
    .of_opcode .jumpForward rfl (by decide)
  have hreturn' : NoReturn code place (start + test.ops.length + 1)
      (start + test.ops.length + 1 + body.size + 1) :=
    hreturn.part hlaid helse (by rw [hcontained'.length]) hcontained'.within (by omega)
      (Or.inr (Nat.le_refl _))
  -- the body of the branch, and the `else` behind the jump over it
  have hblock := hbody.under hlaid (start + test.ops.length + 1 + body.size + 1) _ offset signature
    (branchHead_ne_elseHead elif (test.tree (.built {}))) hinner (by omega) (by omega) hdepth
    (hclear.sub (by omega) (by omega))
    (hreturn'.part hlaid hskip rfl (hforwardOnly _) (Nat.le_refl _) (Or.inl (Nat.zero_le _)))
  have hlines := hblock.else hlaid hins hjump (hclear.sub (by omega) (by omega)) (by omega) hroom
    fun after offset signature hadds htarget =>
      hother.behindElse _ after depth offset signature
        ⟨helse, hroom, hadds.indent.trans hdepth,
          hadds.pending ▸ hclear.sub (by omega) (Nat.le_refl _), hreturn.mono (by omega)⟩ htarget
  rw [hdepth, Int.toNat_natCast] at hlines
  exact hlines.prepend hhead

theorem isRecovered_whileLoop (hlaid : LaidOut place code) (test : Expr) {body : Block}
    (hbody : body.IsRecovered code place) : Stmt.IsRecovered code place (.whileLoop test body) := by
  intro elif start state before depth hsetting hmet
  obtain ⟨hfits, hroom, hdepth, hclear, hreturn⟩ := hsetting
  have hcontained := (contained_ops place).2 body (start + test.ops.length + 1)
  have hpos := hcontained.pos
  have hstop : start + (Stmt.whileLoop test body).size =
      start + test.ops.length + 1 + body.size + 1 := by
    rw [Stmt.size]
    omega
  rw [hstop] at hroom hclear hreturn hmet ⊢
  -- a loop is never all that an `else` has in it
  cases hmet with
  | filling hif => cases hif
  | alone =>
      have hinner : FitsAt code (start + test.ops.length + 1) _ :=
        hfits.append_left.append_right.cast
          (by rw [List.length_append, List.length_singleton, Nat.add_assoc])
      have hclosing : FitsAt code (start + test.ops.length + 1 + body.size) _ :=
        hfits.append_right.cast (by
          rw [List.length_append, List.length_append, List.length_singleton, hcontained.length]
          omega)
      obtain ⟨back, hback, hjump⟩ := hclosing.head
      obtain ⟨offset, signature, hhead⟩ := reaches_whileHead state hlaid
        hfits.append_left.append_left hback hjump hclear (by omega)
      have hlines := hbody.loop hlaid (.whileHead (test.tree (.built {}))) offset signature (by simp) hinner
        hclosing hback hdepth (hclear.sub (by omega) (Nat.le_refl _)) hreturn (Nat.le_refl start)
        (by omega)
        fun ahead after => effect_endWhile hlaid hfits.append_left.append_left.append_left hback
          hjump hreturn (by omega) ahead after
      exact hlines.prepend hhead

theorem isRecovered_forLoop (hlaid : LaidOut place code) (pattern : Pattern) (iterable : Expr)
    {body : Block} (hbody : body.IsRecovered code place) :
    Stmt.IsRecovered code place (.forLoop pattern iterable body) := by
  intro elif start state before depth hsetting hmet
  obtain ⟨hfits, hroom, hdepth, hclear, hreturn⟩ := hsetting
  have hcontained := (contained_ops place).2 body
    (start + iterable.ops.length + 1 + 1 + pattern.ops.length)
  have hpos := hcontained.pos
  have hstop : start + (Stmt.forLoop pattern iterable body).size =
      start + iterable.ops.length + 1 + 1 + pattern.ops.length + body.size + 1 := by
    rw [Stmt.size]
    omega
  rw [hstop] at hroom hclear hreturn hmet ⊢
  cases hmet with
  | filling hif => cases hif
  | alone =>
      have hhead : FitsAt code (start + iterable.ops.length + 1) _ :=
        hfits.append_left.append_left.append_right.cast
          (by rw [List.length_append, List.length_singleton, Nat.add_assoc])
      have hinner : FitsAt code (start + iterable.ops.length + 1 + 1 + pattern.ops.length) _ :=
        hfits.append_left.append_right.cast (by
          simp only [List.length_append, List.length_singleton]
          omega)
      have hclosing : FitsAt code
          (start + iterable.ops.length + 1 + 1 + pattern.ops.length + body.size) _ :=
        hfits.append_right.cast (by
          simp only [List.length_append, List.length_singleton, hcontained.length]
          omega)
      obtain ⟨next, hnext, hiter⟩ := hhead.append_left.head
      obtain ⟨back, hback, hjump⟩ := hclosing.head
      obtain ⟨offset, signature, hstep⟩ := reaches_forLoop (iterable.pushes {}) state hlaid pattern
        hfits.append_left.append_left hroom (hclear.sub (Nat.le_refl start) (by omega))
      have hlines := hbody.loop hlaid (.forHead pattern.target.node (iterable.tree (.built {}))) offset signature
        (by simp) hinner hclosing hback hdepth (hclear.sub (by omega) (Nat.le_refl _)) hreturn
        (by omega) (by omega)
        fun ahead after => effect_endFor hlaid rfl hnext hiter hback hjump ahead after
      exact hlines.prepend hstep

/-! ### Bodies -/

theorem Setting.behindElse (hlaid : LaidOut place code) {start size depth : Nat}
    {ops : List Operation} {before : State} (h : Setting code place start size ops before depth)
    (offset : Nat) (signature : Signature) :
    Setting code place start size ops
      ((before.pushed .elseHead offset signature).opened 1 (place (start + size))) (depth + 1) where
  fits := h.fits
  room := h.room
  depth := by simp [h.depth]
  clear := Clear.opened hlaid h.clear (Nat.le_refl _)
  noReturn := h.noReturn

theorem isRecovered_single (hlaid : LaidOut place code) (s : Stmt) (hs : s.IsRecovered code place) :
    (Block.single s).IsRecovered code place where
  behindHead start before depth hsetting hclosed :=
    hs false start before before depth hsetting
      (.alone fun _ top htop helse => absurd helse (hclosed top htop))
  behindElse start before depth offset signature hsetting htarget := by
    -- a branch takes the place of the `else`, anything else is nested in it
    rw [Block.elseLines]
    by_cases hif : s.isIf = true
    · rw [if_pos hif]
      exact hs true start _ before depth hsetting (.filling hif htarget)
    · rw [if_neg hif]
      have hlines := (hs false start _ _ (depth + 1) (hsetting.behindElse hlaid offset signature)
        (.alone fun h => absurd h hif)).under
      rwa [hsetting.depth, Int.toNat_natCast] at hlines

/-- The first of several statements is not all that an `else` has in it. -/
theorem leaves_seq (hlaid : LaidOut place code) {s : Stmt} {rest : Block}
    (hs : s.IsRecovered code place) (hrest : rest.IsRecovered code place) {start depth : Nat}
    {before : State} (hsetting : Setting code place start (Block.seq s rest).size
      ((Block.seq s rest).ops place start) before depth)
    (hapart : Apart code place (start + s.size) before) :
    Leaves {} code place start (start + (Block.seq s rest).size) before before
      (s.lines (.built {}) false depth ++ rest.lines (.built {}) depth) := by
  obtain ⟨hfits, hroom, hdepth, hclear, hreturn⟩ := hsetting
  have hcontained := (contained_ops place).1 s start
  have hcontained' := (contained_ops place).2 rest (start + s.size)
  have hpos := hcontained'.pos
  have hstop : start + (Block.seq s rest).size = start + s.size + rest.size := by
    rw [Block.size]
    omega
  rw [hstop] at hroom hclear hreturn ⊢
  have htail : FitsAt code (start + s.size) _ :=
    hfits.append_right.cast (by rw [hcontained.length])
  have hfirst := hs false start before before depth
    ⟨hfits.append_left, by omega, hdepth, hclear.sub (Nat.le_refl start) (by omega),
      hreturn.part hlaid htail (by rw [hcontained'.length]) hcontained'.within (Nat.le_refl start)
        (Or.inr (Nat.le_refl _))⟩
    (.alone fun _ => hapart)
  refine hfirst.seq hlaid (by omega) fun after hadds => ?_
  exact hrest.behindHead _ after depth
    ⟨htail, hroom, hadds.indent.trans hdepth, hadds.pending ▸ hclear.sub (by omega) (Nat.le_refl _),
      hreturn.mono (by omega)⟩ hadds.closed

theorem isRecovered_seq (hlaid : LaidOut place code) (s : Stmt) (rest : Block)
    (hs : s.IsRecovered code place) (hrest : rest.IsRecovered code place) :
    (Block.seq s rest).IsRecovered code place where
  behindHead start before depth hsetting hclosed :=
    leaves_seq hlaid hs hrest hsetting fun top htop helse => absurd helse (hclosed top htop)
  behindElse start before depth offset signature hsetting htarget := by
    -- the `else` ends with the last statement, so a branch that comes first is over before it
    have hapart : Apart code place (start + s.size)
        ((before.pushed .elseHead offset signature).opened 1
          (place (start + (Block.seq s rest).size))) := by
      intro top htop _
      cases htop
      refine ⟨_, htarget, ?_⟩
      have hpos := ((contained_ops place).2 rest (start + s.size)).pos
      rw [Block.size]
      omega
    have hlines := (leaves_seq hlaid hs hrest (hsetting.behindElse hlaid offset signature)
      hapart).under
    rwa [hsetting.depth, Int.toNat_natCast] at hlines

theorem isRecovered (hlaid : LaidOut place code) :
    (∀ s : Stmt, s.IsRecovered code place) ∧ ∀ body : Block, body.IsRecovered code place :=
  Stmt.induction (isRecovered_simple hlaid) (fun test _ => isRecovered_ifThen hlaid test)
    (fun test _ _ => isRecovered_ifElse hlaid test) (fun test _ => isRecovered_whileLoop hlaid test)
    (fun pattern iterable _ => isRecovered_forLoop hlaid pattern iterable)
    (isRecovered_single hlaid) (isRecovered_seq hlaid)

/-! ### Whole programs -/

def programOps (place : Nat → Nat) : Nat → List Stmt → List Operation
  | _, [] => []
  | start, s :: rest => s.ops place start ++ programOps place (start + s.size) rest

theorem jumpsWithin_programOps (place : Nat → Nat) (program : List Stmt) (start : Nat) :
    JumpsWithin place start (start + (programOps place start program).length)
      (programOps place start program) := by
  induction program generalizing start with
  | nil => exact nofun
  | cons s rest ih =>
      have hcontained := (contained_ops place).1 s start
      rw [programOps, List.length_append, hcontained.length]
      exact (hcontained.within.mono (Nat.le_refl start) (by omega)).append
        ((ih (start + s.size)).mono (by omega) (by omega))

theorem leaves_program (hlaid : LaidOut place code) (program : List Stmt) (start : Nat)
    (before : State) (hfits : FitsAt code start (programOps place start program))
    (hstop : start + (programOps place start program).length = code.length)
    (hindent : before.indent = (0 : Nat)) (hclear : Clear place start code.length before.pending)
    (hclosed : ∀ top ∈ before.stack.head?, top.node ≠ .elseHead) :
    Leaves {} code place start code.length before before
      (program.flatMap (Stmt.lines (.built {}) false 0)) := by
  induction program generalizing start before with
  | nil =>
      obtain rfl : start = code.length := hstop
      exact .of_adds ⟨rfl, rfl, by simp, hclosed⟩ (Reaches.refl {} code _)
  | cons s rest ih =>
      have hcontained := (contained_ops place).1 s start
      rw [programOps, List.length_append, hcontained.length, ← Nat.add_assoc] at hstop
      have htail : FitsAt code (start + s.size) _ :=
        hfits.append_right.cast (by rw [hcontained.length])
      have hend : NoReturn code place start code.length := by
        intro k ins p hk hins
        rw [List.getElem?_eq_none hk] at hins
        cases hins
      have hsetting : Setting code place start s.size (s.ops place start) before 0 :=
        ⟨hfits.append_left, by omega, hindent, hclear.sub (Nat.le_refl start) (by omega),
          hend.part hlaid htail hstop (jumpsWithin_programOps place rest _) (Nat.le_refl start)
            (Or.inr (Nat.le_refl _))⟩
      have hfirst := (isRecovered hlaid).1 s false start before before 0 hsetting
        (.alone fun _ top htop helse => absurd helse (hclosed top htop))
      cases rest with
      | nil =>
          have hlast : start + s.size = code.length := hstop
          rw [hlast] at hfirst
          simpa using hfirst
      | cons next rest =>
          have hpos := ((contained_ops place).1 next (start + s.size)).pos
          have hnext := ((contained_ops place).1 next (start + s.size)).length
          rw [List.flatMap_cons]
          refine hfirst.seq hlaid ?_ fun after hadds => ?_
          · rw [programOps, List.length_append, hnext] at hstop
            omega
          · exact ih (start + s.size) after htail hstop (hadds.indent.trans hindent)
              (hadds.pending ▸ hclear.sub (by omega) (Nat.le_refl _)) hadds.closed

/-! ### Readings -/

variable {r r' : Reading}

theorem lines_congr (hspell : r.spell = r'.spell) :
    (∀ (s : Stmt) start elif depth, EntryFree (s.ops place start) →
        s.lines r elif depth = s.lines r' elif depth) ∧
      ∀ (body : Block) start, EntryFree (body.ops place start) →
        ∀ depth, body.lines r depth = body.lines r' depth ∧
          body.elseLines r depth = body.elseLines r' depth := by
  apply Stmt.induction
  case simple =>
    intro s start elif depth h
    rw [Stmt.lines, Stmt.lines, Simple.tree_congr hspell h]
  case ifThen =>
    intro test body hbody start elif depth h
    simp only [Stmt.ops, EntryFree.append_iff] at h
    rw [Stmt.lines, Stmt.lines, Expr.tree_congr hspell h.1.1, (hbody _ h.2 _).1]
  case ifElse =>
    intro test body other hbody hother start elif depth h
    simp only [Stmt.ops, EntryFree.append_iff] at h
    obtain ⟨⟨⟨⟨htest, -⟩, hinner⟩, -⟩, helse⟩ := h
    rw [Stmt.lines, Stmt.lines, Expr.tree_congr hspell htest, (hbody _ hinner _).1,
      (hother _ helse _).2]
  case whileLoop =>
    intro test body hbody start elif depth h
    simp only [Stmt.ops, EntryFree.append_iff] at h
    obtain ⟨⟨⟨htest, -⟩, hinner⟩, -⟩ := h
    rw [Stmt.lines, Stmt.lines, Expr.tree_congr hspell htest, (hbody _ hinner _).1]
  case forLoop =>
    intro pattern iterable body hbody start elif depth h
    simp only [Stmt.ops, EntryFree.append_iff] at h
    obtain ⟨⟨⟨⟨hiterable, -⟩, -⟩, hinner⟩, -⟩ := h
    rw [Stmt.lines, Stmt.lines, Expr.tree_congr hspell hiterable, (hbody _ hinner _).1]
  case single =>
    intro s hs start h depth
    simp only [Block.lines, Block.elseLines, hs start _ _ h, and_self]
  case seq =>
    intro s rest hs hrest start h depth
    rw [Block.ops, EntryFree.append_iff] at h
    simp only [Block.lines, Block.elseLines, hs start _ _ h.1, (hrest _ h.2 _).1, and_self]

theorem programLines_congr (hspell : r.spell = r'.spell) {program : List Stmt} {start : Nat}
    (h : EntryFree (programOps place start program)) :
    program.flatMap (Stmt.lines r false 0) = program.flatMap (Stmt.lines r' false 0) := by
  induction program generalizing start with
  | nil => rfl
  | cons s rest ih =>
      rw [programOps, EntryFree.append_iff] at h
      rw [List.flatMap_cons, List.flatMap_cons, (lines_congr hspell).1 s start false 0 h.1, ih h.2]

/-- Any program that is compiled and laid out is recovered, if no dictionary display in it has entries: its
statements are the heads of its blocks and its simple statements, in order and each at the depth that it is
nested to. -/
theorem reconstruct_program (place : Nat → Nat) (program : List Stmt) (code : Code)
    (hlaid : LaidOut place code)
    (hcode : List.Forall₂ Operation.Fits (programOps place 0 program) code)
    (hentries : EntryFree (programOps place 0 program)) :
    ∃ result, reconstruct {} code = .ok result ∧
      result.statements.map Statement.line = program.flatMap (Stmt.lines .written false 0) := by
  obtain ⟨levels, after, hadds, hreaches⟩ := leaves_program hlaid program 0 {}
    (.of_compiled hcode) (by rw [hcode.length_eq, Nat.zero_add]) rfl nofun nofun
  refine ⟨_, reconstruct_of_reaches rfl hreaches, ?_⟩
  have hlines : after.lines = _ := hadds.lines
  have hspell : (Reading.built {}).spell = Reading.written.spell := Expr.loadedName_eq_id rfl rfl
  rw [State.opened_stack, ← State.lines, hlines, programLines_congr hspell hentries]
  rfl

/-- A chain of branches in a loop, and a branch in a loop that unpacks pairs. -/
theorem reconstruct_program_chain :
    let code : Code :=
      [{ offset := 0, opname := "LOAD_NAME", argval := some "a" },
        { offset := 2, opname := "POP_JUMP_IF_FALSE", arg := some 38 },
        { offset := 4, opname := "LOAD_NAME", argval := some "b" },
        { offset := 6, opname := "POP_JUMP_IF_FALSE", arg := some 14 },
        { offset := 8, opname := "LOAD_CONST", argval := some "1" },
        { offset := 10, opname := "STORE_NAME", argval := some "x" },
        { offset := 12, opname := "JUMP_FORWARD", arg := some 22, argval := some "to 36" },
        { offset := 14, opname := "LOAD_NAME", argval := some "c" },
        { offset := 16, opname := "POP_JUMP_IF_FALSE", arg := some 28 },
        { offset := 18, opname := "LOAD_NAME", argval := some "y" },
        { offset := 20, opname := "LOAD_CONST", argval := some "2" },
        { offset := 22, opname := "INPLACE_ADD" },
        { offset := 24, opname := "STORE_NAME", argval := some "y" },
        { offset := 26, opname := "JUMP_FORWARD", arg := some 8, argval := some "to 36" },
        { offset := 28, opname := "LOAD_NAME", argval := some "f" },
        { offset := 30, opname := "LOAD_NAME", argval := some "x" },
        { offset := 32, opname := "CALL_FUNCTION", arg := some 1 },
        { offset := 34, opname := "POP_TOP" },
        { offset := 36, opname := "JUMP_ABSOLUTE", arg := some 0 },
        { offset := 38, opname := "LOAD_NAME", argval := some "pairs" },
        { offset := 40, opname := "GET_ITER" },
        { offset := 42, opname := "FOR_ITER", arg := some 16, argval := some "to 60" },
        { offset := 44, opname := "UNPACK_SEQUENCE", arg := some 2 },
        { offset := 46, opname := "STORE_NAME", argval := some "i" },
        { offset := 48, opname := "STORE_NAME", argval := some "j" },
        { offset := 50, opname := "LOAD_NAME", argval := some "i" },
        { offset := 52, opname := "POP_JUMP_IF_FALSE", arg := some 58 },
        { offset := 54, opname := "LOAD_NAME", argval := some "j" },
        { offset := 56, opname := "RETURN_VALUE" },
        { offset := 58, opname := "JUMP_ABSOLUTE", arg := some 42 }]
    ∃ result, reconstruct {} code = .ok result ∧
      result.statements.map Statement.line =
        [(0, .whileHead (.atom "a")),
          (1, .ifHead (.atom "b")), (2, .assign (.atom "x") (.atom "1")),
          (1, .elifHead (.atom "c")), (2, .inplace .add "y" (.atom "2")),
          (1, .elseHead), (2, .call (.atom "f") [.atom "x"] []),
          (0, .forHead (.tuple [.atom "i", .atom "j"]) (.atom "pairs")),
          (1, .ifHead (.atom "i")), (2, .returnStmt (.atom "j"))] := by
  intro code
  let load (text : String) : Expr := .load .name text
  let chain : Stmt :=
    .ifElse (load "b") (.single (.simple (.assign .name "x" (.load .const "1"))))
      (.single
        (.ifElse (load "c")
          (.single (.simple (.augment .name .name "y" .add (.load .const "2"))))
          (.single (.simple (.eval (.call (load "f") [load "x"]))))))
  let pairs : Stmt :=
    .forLoop (.tuple (.name .name "i") [.name .name "j"]) (load "pairs")
      (.single (.ifThen (load "i") (.single (.simple (.ret (load "j"))))))
  have hlaid : LaidOut (2 * ·) code := LaidOut.of_words (by decide) (by decide)
  exact reconstruct_program (2 * ·) [.whileLoop (load "a") (.single chain), pairs] code hlaid
    (by decide) (by decide)

/-- A display with entries is recovered with its keys where the values belong, and of the formatted text
in `x = f"{y}"` a placeholder is left, which does not take its operand. -/
theorem exists_unrecovered_program :
    let program : List Stmt :=
      [.simple (.assign .name "x" (.dict [(.load .name "k", .load .name "v")]))]
    let code : Code :=
      [{ offset := 0, opname := "LOAD_NAME", argval := some "k" },
        { offset := 2, opname := "LOAD_NAME", argval := some "v" },
        { offset := 4, opname := "BUILD_MAP", arg := some 1 },
        { offset := 6, opname := "STORE_NAME", argval := some "x" }]
    let formatted : Code :=
      [{ offset := 0, opname := "LOAD_NAME", argval := some "y" },
        { offset := 2, opname := "FORMAT_VALUE", arg := some 0 },
        { offset := 4, opname := "STORE_NAME", argval := some "x" }]
    (LaidOut (2 * ·) code ∧ List.Forall₂ Operation.Fits (programOps (2 * ·) 0 program) code ∧
      (∃ result, reconstruct {} code = .ok result ∧
        result.statements.map (fun s => s.node.render) = ["x=\x7bv:k\x7d"]) ∧
      (program.flatMap (Stmt.lines .written false 0)).map (fun line => line.2.render) =
        ["x=\x7bk:v\x7d"]) ∧
      ∃ result, reconstruct {} formatted = .ok result ∧
        result.statements.map (fun s => s.node.render) = ["y", "x=<FORMAT_VALUE(0,None)>"] := by
  intro program code formatted
  have hlaid : LaidOut (2 * ·) code := LaidOut.of_words (by decide) (by decide)
  exact ⟨⟨hlaid, by decide, ⟨_, rfl, by decide⟩, by decide⟩, _, rfl, by decide⟩

end Decompiler
