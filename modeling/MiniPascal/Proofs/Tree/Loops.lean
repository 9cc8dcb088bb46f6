import MiniPascal.Proofs.Tree.Balance

/-!
# Loops

The loops with a control variable in the code of a statement. Such a loop is entered through the store of its first
value alone: no jump from elsewhere leads behind it. The first value is checked, and the step takes the value of the
control variable, its neighbour, and stores that without a check.
-/

namespace MiniPascal

open List Piece

/-- A loop with a control variable, the address behind the store of its first value, and that of the store of a
step. -/
structure Loop where
  control : Variable
  downward : Bool
  first : Nat
  store : Nat

def Stmt.loops (entries : Entries) : Nat → Stmt → List Loop
  | here, .seq first second => first.loops entries here ++ second.loops entries (here + (first.code entries here).length)
  | here, .ifThen condition _ body => body.loops entries (here + (condition.code entries).length + 1)
  | here, .ifElse condition _ body _ alternative =>
    let start := here + (condition.code entries).length + 1
    body.loops entries start ++ alternative.loops entries (start + (body.code entries start).length + 1)
  | here, .whileDo condition _ body _ => body.loops entries (here + (condition.code entries).length + 1)
  | here, .repeatUntil body _ _ => body.loops entries here
  | here, .forLoop control _ start conversion _ downward limit _ body _ =>
    let first := here + 1 + (start.code entries).length + conversion.code.length + 1
    let top := first + (limit.code entries).length
    let store := top + 5 + (body.code entries (top + 5)).length + 9
    { control, downward, first, store } :: body.loops entries (top + 5)
  | _, _ => []

namespace Loop

/-- The operation with which a loop steps. -/
def op (L : Loop) : UnaryOp := if L.downward then .pred else .succ

/-- The last address of a loop, where its limit is dropped. -/
def exit (L : Loop) : Nat := L.store + 2

/-- The addresses of a loop at which its control variable has a value. -/
def Covers (L : Loop) (a : Nat) : Prop := L.first ≤ a ∧ a ≤ L.exit

/-- A jump neither enters a loop nor leads into its step. -/
def Keeps (L : Loop) (a b : Nat) : Prop := L.Covers b → L.Covers a ∧ b + 1 ≠ L.store ∧ b ≠ L.store

/-- The code of a loop is part of other code, which is placed at an address and starts with some words on the stack. -/
structure Fits (C : Context) (sig : Signatures) (L : Loop) (here : Nat) (S : List Slot) (code : List Instr) : Prop where
  declares : C.Declares L.control
  scalar : C.types.isAggregate L.control.type = false
  start : here < L.first
  order : L.first + 3 ≤ L.store
  stop : L.exit < here + code.length
  /-- The first value is checked before it is stored. -/
  enters : ∃ i v T, here + i + 1 = L.first ∧ code[i]? = some (Opcode.assign.withInt 1) ∧
    scan C sig S (code.take i) = v :: C.placeOf L.control :: T ∧ C.types.Checks L.control.type v
  steps : ∃ i T, here + i + 2 = L.store ∧ code[i]? = some (Opcode.eval.withInt 1) ∧
    code[i + 1]? = some { op := .unary L.op } ∧
    code[i + 2]? = some (Opcode.assign.withInt 1) ∧
    scan C sig S (code.take i) = C.placeOf L.control :: C.placeOf L.control :: T
  jumps : ∀ (i : Nat) (x : Instr), code[i]? = some x → x.op.isJump = true →
    ∃ b ≤ here + code.length, x.arg = .integer (Int64.ofNat b) ∧ L.Keeps (here + i) b

end Loop

def ForLoop.loop (L : ForLoop) (entries : Entries) (here : Nat) : Loop :=
  ⟨L.control, L.downward, Piece.start entries here (L.pieces entries) 1, Piece.start entries here (L.pieces entries) 8 - 1⟩

/-! ### Loops of pieces -/

namespace Piece

variable {entries : Entries} {here : Nat} {ps : List Piece}

def loops (entries : Entries) (here : Nat) : Piece → List Loop
  | inner s => s.loops entries here
  | _ => []

def allLoops (entries : Entries) : Nat → List Piece → List Loop
  | _, [] => []
  | here, p :: rest => p.loops entries here ++ allLoops entries (here + p.size entries) rest

theorem mem_allLoops {L : Loop} : L ∈ allLoops entries here ps ↔
    ∃ (j : Nat) (p : Piece), ps[j]? = some p ∧ L ∈ p.loops entries (start entries here ps j) := by
  induction ps generalizing here with
  | nil => simp [allLoops]
  | cons q rest ih =>
    rw [allLoops, mem_append, ih]
    constructor
    · rintro (h | ⟨j, p, hp, h⟩)
      · exact ⟨0, q, rfl, h⟩
      · exact ⟨j + 1, p, hp, by rwa [start, take_succ_cons, map_cons, sum_cons, ← Nat.add_assoc]⟩
    · rintro ⟨_ | j, p, hp, h⟩
      · exact .inl (Option.some.inj hp ▸ h)
      · refine .inr ⟨j, p, hp, ?_⟩
        rwa [start, take_succ_cons, map_cons, sum_cons, ← Nat.add_assoc] at h

end Piece

section

variable {C : Context} {sig : Signatures} {entries : Entries} {here : Nat} {S : List Slot}

def Stmt.ownLoops (entries : Entries) (here : Nat) : Stmt → List Loop
  | .forLoop control controlLine start conversion startLine downward limit limitLine body endLine =>
    [ForLoop.loop ⟨control, controlLine, start, conversion, startLine, downward, limit, limitLine, body, endLine⟩
      entries here]
  | _ => []

/-- The loops of a statement are its own one and those of its inner statements. -/
theorem Stmt.loops_eq (s : Stmt) (here : Nat) :
    s.loops entries here = s.ownLoops entries here ++ allLoops entries here (s.pieces entries) := by
  cases s with
  | seq | ifThen | ifElse | whileDo | repeatUntil =>
    simp [loops, ownLoops, pieces, Piece.allLoops, Piece.loops, Piece.size, length_code_eq]
  | forLoop _ _ start conversion _ _ _ _ _ _ =>
    have hfirst : here + 1 + (start.code entries).length + conversion.code.length =
        here + (start.code entries).length + conversion.code.length + 1 := by omega
    simp [loops, ownLoops, pieces, Piece.allLoops, Piece.loops, Piece.size, length_code_eq, ← Nat.add_assoc, ForLoop.loop,
      ForLoop.pieces, Piece.start, ForLoop.init, ForLoop.test, compareControl, stepControl, hfirst]
  | _ => rfl

/-- A loop of an inner statement lies in the code of all pieces. Other pieces jump in front of it or behind it. -/
theorem Piece.fits_whole {L : Loop} {ps : List Piece} {j : Nat} {s : Stmt} (hp : ps[j]? = some (.inner s))
    (hsound : ∀ p ∈ ps, p.Sound entries ps.length)
    (h : ∀ S, L.Fits C sig (start entries here ps j) S (instrs (s.code entries (start entries here ps j)))) :
    L.Fits C sig here S (whole entries here ps) := by
  have hlength : start entries here ps ps.length = here + (whole entries here ps).length := by
    rw [start_eq, front, take_length]
  have hlast : start entries here ps (j + 1) ≤ start entries here ps ps.length :=
    start_le (List.getElem?_eq_some_iff.mp hp).1
  have hnext : start entries here ps (j + 1) = _ := start_succ hp
  have hsize : size entries (.inner s) = _ := size_inner s (start entries here ps j)
  generalize hT : scan C sig S (front entries here ps j) = T
  have hfront := start_eq entries here ps j
  have h := h T
  have hstart := h.start
  have hstop := h.stop
  rw [← hsize] at hstop
  refine ⟨h.declares, h.scalar, by omega, h.order, by omega, ?_, ?_, fun i x hx hjump => ?_⟩
  · obtain ⟨i, v, T', hi, hassign, hscan, hchecked⟩ := h.enters
    have hlt := (List.getElem?_eq_some_iff.mp hassign).1
    refine ⟨(front entries here ps j).length + i, v, T', by omega, getElem?_weave hp hassign, ?_, hchecked⟩
    rw [take_weave hp (hsize ▸ Nat.le_of_lt hlt), scan_append, hT]
    exact hscan
  · obtain ⟨i, T', hi, heval, hunary, hassign, hscan⟩ := h.steps
    have hlt := (List.getElem?_eq_some_iff.mp heval).1
    refine ⟨(front entries here ps j).length + i, T', by omega, getElem?_weave hp heval, getElem?_weave hp hunary,
      getElem?_weave hp hassign, ?_⟩
    rw [take_weave hp (hsize ▸ Nat.le_of_lt hlt), scan_append, hT]
    exact hscan
  · have houtside {b : Nat} (hb : b ≤ start entries here ps j ∨ start entries here ps (j + 1) ≤ b) (a : Nat) : L.Keeps a b :=
      fun ⟨_, _⟩ => by omega
    cases jumps_of_getElem? hsound hx hjump with
    | @piece m op goal hpm hgoal hx hi =>
      have hle : start entries here ps goal ≤ start entries here ps ps.length := start_le hgoal
      exact ⟨start entries here ps goal, by omega, by rw [hx]; rfl,
        houtside ((Nat.lt_or_ge j goal).symm.imp start_le start_le) _⟩
    | @inside m s' k hpm haimed hx hi =>
      have hm := start_eq entries here ps m
      have hnext' : start entries here ps (m + 1) = _ := start_succ hpm
      have hlast' : start entries here ps (m + 1) ≤ start entries here ps ps.length :=
        start_le (List.getElem?_eq_some_iff.mp hpm).1
      by_cases hmj : m = j
      · subst hmj
        obtain rfl : s' = s := inner.inj (Option.some.inj (hpm.symm.trans hp))
        obtain ⟨b, hb, harg, hkeeps⟩ := h.jumps k x hx hjump
        rw [← hsize] at hb
        refine ⟨b, by omega, harg, ?_⟩
        rwa [hi, ← Nat.add_assoc, ← hfront]
      · obtain ⟨i', hi', harg, -⟩ := haimed x (mem_of_getElem? hx) hjump
        rw [← size_inner] at hi'
        refine ⟨_, by omega, harg, houtside ?_ _⟩
        rcases Nat.lt_or_gt_of_ne hmj with hlt | hgt
        · have : start entries here ps (m + 1) ≤ start entries here ps j := start_le hlt
          omega
        · have : start entries here ps (j + 1) ≤ start entries here ps m := start_le hgt
          omega

namespace ForLoop

theorem starts (L : ForLoop) (entries : Entries) (here : Nat) : let a := Piece.start entries here (L.pieces entries)
    a 1 = here + (L.init entries).length + 1 ∧ a 1 ≤ a 2 ∧ a 4 = a 2 + 5 ∧ a 5 = a 4 + L.body.size entries ∧
      a 7 = a 5 + 5 ∧ a 8 = a 7 + 5 ∧ a 9 = a 8 + 1 ∧
      here + (Piece.whole entries here (L.pieces entries)).length = a 9 + 1 := by
  simp [Piece.length_weave, Piece.start, pieces, Piece.size, test, Stmt.compareControl, Stmt.stepControl]
  omega

/-- The loop of a statement lies in its code. A checked value is stored into the control variable, and the limit stays on
the stack while the tests, the inner statement and the step are carried out. -/
theorem fits_stmt (h : C.Laid sig entries) {L : ForLoop} (hL : L.stmt.WellTyped C) (here : Nat) (S : List Slot) :
    (L.loop entries here).Fits C sig here S (whole entries here (L.pieces entries)) := by
  obtain ⟨v, l, p, q, hparts, hthreads⟩ := L.exists_threads h hL (fun _ _ => Stmt.turns_code h hL.2.2.2.2.2 _ _) S
  obtain ⟨hcontrol, -, ⟨hord, hguards⟩, -⟩ := hL
  obtain ⟨h₁, h₂, h₄, h₅, h₇, h₈, h₉, hlength⟩ := L.starts entries here
  have hinit : (L.pieces entries)[0]? = some (.plain (L.init entries ++ [Opcode.assign.withInt 1])) := rfl
  have hstep : (L.pieces entries)[7]? = some (.plain (Stmt.stepControl L.control L.downward)) := rfl
  have hstart := start_eq entries here (L.pieces entries) 7
  have hfirst : (L.loop entries here).first = Piece.start entries here (L.pieces entries) 1 := rfl
  have hstore : (L.loop entries here).store = Piece.start entries here (L.pieces entries) 8 - 1 := rfl
  have hexit : (L.loop entries here).exit = (L.loop entries here).store + 2 := rfl
  refine ⟨hcontrol, TypeKind.scalar_of_isOrdinal hord, by omega, by omega, by omega,
    ⟨(L.init entries).length, v, S, by omega, ?_, ?_, fun hnarrow => hparts.checked _ (hguards hnarrow)⟩,
    ⟨(front entries here (L.pieces entries) 7).length + 2, l :: S, by omega,
      getElem?_weave hstep rfl, getElem?_weave (k := 3) hstep rfl, getElem?_weave (k := 4) hstep rfl, ?_⟩,
    fun i x hx hjump => ?_⟩
  · simp [pieces, weave, code]
  · simp [pieces, weave, code, hparts.value.scan_eq, loop]
  · rw [take_weave hstep (by decide : 2 ≤ 5), scan_append,
      (hthreads.turns (j := 7) (by decide : 7 ≤ 10) rfl _ here).scan_eq]
    rfl
  · have hi := (List.getElem?_eq_some_iff.mp hx).1
    have hkeeps {b : Nat} (hcovers : (L.loop entries here).first ≤ here + i)
        (hb : b + 1 < (L.loop entries here).store ∨ (L.loop entries here).store < b) :
        (L.loop entries here).Keeps (here + i) b := fun _ => ⟨⟨hcovers, by omega⟩, by omega, by omega⟩
    have hsound : ∀ p ∈ L.pieces entries, p.Sound entries (L.pieces entries).length := L.stmt.sound_pieces entries
    cases jumps_of_getElem? hsound hx hjump with
    | @piece j op goal hp hgoal hx hi =>
      have hgoals : 1 ≤ j ∧ (goal = 2 ∨ goal = 9) := by
        rcases j with _ | _ | _ | _ | _ | _ | _ | _ | _ | _ | j <;> cases hp <;> simp
      have hle : Piece.start entries here (L.pieces entries) 1 ≤ Piece.start entries here (L.pieces entries) j :=
        start_le hgoals.1
      have hj : Piece.start entries here (L.pieces entries) j = _ := Piece.start_eq entries here (L.pieces entries) j
      refine ⟨Piece.start entries here (L.pieces entries) goal, ?_, by rw [hx]; rfl, hkeeps (by omega) ?_⟩
      · rcases hgoals.2 with rfl | rfl <;> omega
      · rcases hgoals.2 with rfl | rfl <;> omega
    | @inside j s k hp haimed hx hi =>
      obtain ⟨rfl, rfl⟩ : j = 4 ∧ s = L.body := by
        rcases j with _ | _ | _ | _ | _ | _ | _ | _ | _ | _ | j <;> cases hp
        exact ⟨rfl, rfl⟩
      obtain ⟨i', hi', harg, -⟩ := haimed x (mem_of_getElem? hx) hjump
      rw [length_instrs, L.body.length_code_eq] at hi'
      have hj : Piece.start entries here (L.pieces entries) 4 = _ := Piece.start_eq entries here (L.pieces entries) 4
      exact ⟨_, by omega, harg, hkeeps (by omega) (by omega)⟩

end ForLoop

namespace Stmt

theorem loops_fit (h : C.Laid sig entries) {s : Stmt} (hs : s.WellTyped C) (here : Nat) (S : List Slot) :
    ∀ L ∈ s.loops entries here, L.Fits C sig here S (instrs (s.code entries here)) := by
  induction s using inner_induction entries generalizing here S with
  | _ s ih =>
    intro L hL
    rw [loops_eq, mem_append, mem_allLoops] at hL
    rw [instrs_code]
    rcases hL with hL | ⟨j, p, hp, hL⟩
    · cases s with
      | forLoop control controlLine start conversion startLine downward limit limitLine body endLine =>
        obtain rfl := mem_singleton.mp hL
        exact ForLoop.fits_stmt (L := ⟨control, controlLine, start, conversion, startLine, downward, limit, limitLine, body,
          endLine⟩) h hs here S
      | _ => cases hL
    · cases p with
      | inner s' =>
        have hmem := mem_of_getElem? hp
        exact fits_whole hp (s.sound_pieces entries) fun S => ih s' hmem (hs.inner hmem) _ S L hL
      | _ => cases hL

end Stmt

end

end MiniPascal
