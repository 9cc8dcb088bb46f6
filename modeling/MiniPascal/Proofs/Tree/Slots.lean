import MiniPascal.Proofs.Tree.Pieces
import MiniPascal.Proofs.Tree.Typing
import MiniPascal.Proofs.Types.Parts

/-!
# The stack as code sees it

What is known of the words on the stack at each place of the code of a body. The code of a body is scanned
from its start; every instruction takes words off the stack and puts others there. Jumps need no attention of
their own, because all ways to an instruction have the same words on the stack.
-/

namespace MiniPascal

open List

/-- A distance that is a multiple of a number, by a factor between bounds. -/
structure Stride where
  lower : Int
  upper : Int
  unit : Int
deriving DecidableEq, Repr

def Stride.Sums : List Stride → Int → Prop
  | [], d => d = 0
  | s :: rest, d => ∃ e k, Sums rest e ∧ s.lower ≤ k ∧ k ≤ s.upper ∧ d = e + k * s.unit

/-- Where an address lies: at an offset in the frame of a block around, moved by distances, the last one first. -/
structure Spot where
  level : Int8
  offset : Int64
  strides : List Stride := []
deriving DecidableEq, Repr

namespace Spot

def move (s : Spot) (d : Stride) : Spot := { s with strides := d :: s.strides }

/-- An address lies where it should, if the frames of the blocks around are given. -/
def Marks (s : Spot) (frames : List Nat) (w : Nat) : Prop :=
  ∃ f d, frames[s.level.toInt.toNat]? = some f ∧ Stride.Sums s.strides d ∧ (w : Int) = f + s.offset.toInt + d

end Spot

/-- What is known of a word on the stack: nothing, bounds of its ordinal, that it is a multiple of a number by a
bounded factor, or that it is the address of the first of some words that belong to variables, and where it lies. -/
inductive Slot where
  | any
  | atLeast (lower : Int)
  | within (lower upper : Int)
  | multiple (count unit : Int)
  | place (words : Int) (spot : Spot)
deriving DecidableEq, Repr

namespace Slot

def ofDatum : Datum → Slot
  | .integer n => .within n.toInt n.toInt
  | _ => .any

def ordinal : Slot → Slot
  | .within lower upper => .within lower upper
  | _ => .any

/-- What is known after a check of an upper bound. -/
def atMost (upper : Int) : Slot → Slot
  | .atLeast lower => .within lower upper
  | _ => .any

/-- What is known of the result of an operation. Only the calculation of addresses is followed, and only as
long as its numbers have 32 bits. -/
def combine : BinaryOp → Slot → Slot → Slot
  | .sub, .within lower upper, .within lower' upper' =>
    if -2 ^ 31 ≤ lower - upper' ∧ upper - lower' < 2 ^ 31 then .within (lower - upper') (upper - lower')
    else .any
  | .mul, .within lower upper, .within unit unit' =>
    if 0 ≤ lower ∧ 0 ≤ unit ∧ unit' = unit ∧ upper * unit < 2 ^ 31 then .multiple upper unit else .any
  | .add, .place words spot, .within lower upper =>
    if 0 ≤ lower then .place (words - upper) (spot.move ⟨lower, upper, 1⟩) else .any
  | .add, .place words spot, .multiple count unit =>
    if 0 ≤ unit then .place (words - count * unit) (spot.move ⟨0, count, unit⟩) else .any
  | _, _, _ => .any

end Slot

/-- The subprograms at the targets of calls. -/
abbrev Signatures := Datum → Option Routine

/-- The words of the variables of a block that lie together at an offset in its frame. Parameters lie below
the frame; the result and the local variables lie above the links of the frame. -/
def Context.reach (C : Context) (level : Int8) (offset : Int64) : Int :=
  match C.levels[level.toInt.toNat]? with
  | some l => if offset.toInt < 0 then -offset.toInt else 4 + C.types.total l.vars - offset.toInt
  | none => 0

def Variable.spot (v : Variable) : Spot := { level := Int8.ofInt v.hops, offset := v.frameOffset }

/-- What is known of the address of a variable. -/
def Context.placeOf (C : Context) (v : Variable) : Slot :=
  .place (C.reach (Int8.ofInt v.hops) v.frameOffset) v.spot

def Field.frameOffset (f : Field) : Int64 := Variable.frameOffset ⟨0, f.offset, f.type⟩

/-- An offset in the frame of a block is that of a variable, or that of the result of a function. -/
def Level.Names (l : Level) (offset : Int64) : Prop :=
  (∃ f ∈ l.fields, offset = f.frameOffset) ∨ l.routine.result.isSome = true ∧ offset = FrameSlot.result.offset

namespace Level

/-- A variable of a block, or its result, starts at an offset in the frame. -/
inductive Places (l : Level) : Int → TypeId → Prop
  | field {f : Field} (hf : f ∈ l.fields) : Places l f.frameOffset.toInt f.type
  | result {t : TypeId} (ht : l.routine.result = some t) : Places l FrameSlot.result.offset.toInt t

/-- At an offset in the frame of a block lies a value of a type: a variable, the result, or a part of them. -/
def Locates (ts : TypeTable) (l : Level) (offset : Int) (t : TypeId) : Prop :=
  ∃ start a i, l.Places start a ∧ ts.Part a i t ∧ offset = start + i

variable {ts : TypeTable} {l : Level} {offset : Int} {a t : TypeId}

theorem Places.locates (h : l.Places offset t) : l.Locates ts offset t :=
  ⟨offset, t, 0, h, .whole t, (Int.add_zero _).symm⟩

/-- A part of a value lies inside of it. -/
theorem Locates.part (h : l.Locates ts offset a) {i : Nat} (hpart : ts.Part a i t) : l.Locates ts (offset + i) t := by
  obtain ⟨start, b, j, hplace, hj, rfl⟩ := h
  exact ⟨start, b, j + i, hplace, hj.trans hpart, by omega⟩

theorem Locates.field {r : TypeId} (h : l.Locates ts offset r) (hkind : ts.kind r = .record) {f : Field}
    (hf : f ∈ (ts.get r).fields) (hnonneg : 0 ≤ f.offset.toInt) : l.Locates ts (offset + f.offset.toInt) f.type := by
  have hpart := h.part (.of_field hkind hf)
  rwa [Int.toNat_of_nonneg hnonneg] at hpart

end Level

def Context.Spots (C : Context) (spot : Spot) (t : TypeId) : Prop :=
  ∃ l, C.levels[spot.level.toInt.toNat]? = some l ∧
    ∀ d, Stride.Sums spot.strides d → l.Locates C.types (spot.offset.toInt + d) t

namespace TypeTable

/-- A word was checked to be a value of a type, if its values have to be checked. -/
def Checks (ts : TypeTable) (t : TypeId) (v : Slot) : Prop :=
  ts.isNarrow t = true → v = .within (ts.bounds t).lower.toInt (ts.bounds t).upper.toInt

/-- Words on the stack are arguments for parameters of given types, the last one on top. -/
def Passes (ts : TypeTable) : List TypeId → List Slot → Prop
  | [], vs => vs = []
  | p :: rest, vs => ∃ ws us, vs = ws ++ us ∧ us.length = ts.words p ∧ (∀ v ∈ us, ts.Checks p v) ∧
    ts.Passes rest ws

end TypeTable

namespace Context.Spots

variable {C : Context} {spot : Spot} {t : TypeId}

/-- A variable or a result of a block around. -/
theorem of_places {level : Int8} {offset : Int64} {l : Level} (hl : C.levels[level.toInt.toNat]? = some l)
    (h : l.Places offset.toInt t) : C.Spots { level, offset } t := by
  refine ⟨l, hl, fun d hd => ?_⟩
  obtain rfl : d = 0 := hd
  rw [Int.add_zero]
  exact h.locates

theorem field {r : TypeId} (h : C.Spots spot r) (hkind : C.types.kind r = .record) {f : Field}
    (hf : f ∈ (C.types.get r).fields) (hnonneg : 0 ≤ f.offset.toInt) :
    C.Spots (spot.move ⟨f.offset.toInt, f.offset.toInt, 1⟩) f.type := by
  obtain ⟨l, hl, hlocates⟩ := h
  refine ⟨l, hl, fun d hd => ?_⟩
  obtain ⟨e, j, he, hlower, hupper, rfl⟩ := hd
  have := (hlocates e he).field hkind hf hnonneg
  dsimp only at hlower hupper
  rwa [Int.mul_one, Int.le_antisymm hupper hlower, ← Int.add_assoc]

theorem field_zero {r : TypeId} (h : C.Spots spot r) (hkind : C.types.kind r = .record) {f : Field}
    (hf : f ∈ (C.types.get r).fields) (hzero : f.offset = 0) : C.Spots spot f.type := by
  obtain ⟨l, hl, hlocates⟩ := h
  refine ⟨l, hl, fun d hd => ?_⟩
  have := (hlocates d hd).field hkind hf (by rw [hzero]; decide)
  rwa [hzero, Word.toInt_zero, Int.add_zero] at this

end Context.Spots

/-- A word on the stack is the address of a value of a type. -/
def Context.Refers (C : Context) (v : Slot) (t : TypeId) : Prop :=
  ∃ k spot, v = .place k spot ∧ (C.types.size t).toInt ≤ k ∧ C.Spots spot t

variable {x : Instr}

namespace Instr

/-- The number in the argument. -/
def count (x : Instr) : Int :=
  match x.arg with
  | .integer n => n.toInt
  | _ => 0

section

variable (sig : Signatures)

/-- The number of words that an instruction takes off the stack. A call takes the arguments. -/
def consumes (x : Instr) : Int :=
  match x.op with
  | .unary _ | .dup | .eval | .jneq | .new | .dispose | .llimit | .ulimit | .calli | .jumpi => 1
  | .itor2 | .binary _ | .copy => 2
  | .assign => x.count + 1
  | .pop => x.count
  | .write => x.level.toInt + 1
  | .call =>
    match sig x.arg with
    | some r => r.paramSize.toInt
    | none => 0
  | .halt | .push | .pushVar | .enter | .ret | .retf | .jump | .writeln | .undefined _ => 0

/-- The number of words that an instruction puts on the stack. A call of a function puts its result. -/
def produces (x : Instr) : Int :=
  match x.op with
  | .unary _ | .binary _ | .push | .pushVar | .new | .llimit | .ulimit => 1
  | .itor2 | .dup => 2
  | .eval | .enter => x.count
  | .call =>
    match sig x.arg with
    | some r => if r.result.isSome then 1 else 0
    | none => 0
  | .halt | .assign | .copy | .pop | .calli | .ret | .retf | .jump | .jumpi | .jneq | .dispose | .write
  | .writeln | .undefined _ => 0

end

variable (C : Context) (sig : Signatures)

/-- What is known of the words that an instruction puts on the stack. -/
def pushed (x : Instr) (S : List Slot) : List Slot :=
  let top := S.headD .any
  let second := S.tail.headD .any
  match x.op with
  | .unary .ord => [top.ordinal]
  | .unary _ | .new => [.any]
  | .itor2 => [top, .any]
  | .dup => [top, top]
  | .binary op => [Slot.combine op second top]
  | .push => [.ofDatum x.arg]
  | .pushVar =>
    match x.arg with
    | .integer offset => [.place (C.reach x.level offset) { level := x.level, offset }]
    | _ => [.any]
  | .llimit => [.atLeast x.count]
  | .ulimit => [top.atMost x.count]
  | .eval | .enter => List.replicate x.count.toNat .any
  | .call =>
    match sig x.arg with
    | some r => if r.result.isSome then [.any] else []
    | none => []
  | .halt | .assign | .copy | .pop | .calli | .ret | .retf | .jump | .jumpi | .jneq | .dispose | .write
  | .writeln | .undefined _ => []

/-- The stack after an instruction. -/
def effect (x : Instr) (S : List Slot) : List Slot :=
  x.pushed C sig S ++ S.drop (x.consumes sig).toNat

theorem consumes_call {r : Routine} (hop : x.op = .call) (hsig : sig x.arg = some r) :
    x.consumes sig = r.paramSize.toInt := by
  simp only [consumes, hop, hsig]

theorem effect_call {r : Routine} (hop : x.op = .call) (hsig : sig x.arg = some r) (S : List Slot) :
    x.effect C sig S = if r.result.isSome then .any :: S.drop r.paramSize.toInt.toNat
      else S.drop r.paramSize.toInt.toNat := by
  simp only [effect, pushed, consumes_call sig hop hsig, hop, hsig]
  split <;> rfl

/-- What an instruction relies on if sizes are exact. -/
def Safe (x : Instr) (S : List Slot) : Prop :=
  match x.op with
  | .unary _ | .itor2 | .dup | .binary _ | .jump | .jneq | .writeln => True
  | .push => x.arg.Bounded
  | .pushVar => ∃ (k : Nat) (l : Level) (offset : Int64), x.level.toInt = k ∧ x.arg = .integer offset ∧
    C.levels[k]? = some l ∧ l.Names offset
  | .eval => ∃ words spot, S[0]? = some (.place words spot) ∧ 1 ≤ x.count ∧ x.count ≤ words
  | .assign => ∃ words spot, S[x.count.toNat]? = some (.place words spot) ∧ 1 ≤ x.count ∧ x.count ≤ words
  | .copy => ∃ source target T t, S = source :: target :: T ∧ x.arg = .integer (C.types.size t) ∧ 1 ≤ x.count ∧
    C.types.isAggregate t = true ∧ C.Refers source t ∧ C.Refers target t
  | .pop => 1 ≤ x.count
  | .call => ∃ (k : Nat) (r : Routine), x.level.toInt = k ∧ k ≤ C.levels.length ∧ sig x.arg = some r ∧
    C.known r (C.levels.drop k) ∧ ∃ vs T, S = vs ++ T ∧ C.types.Passes (r.params.map Field.type) vs
  | .llimit | .ulimit => ∃ n, x.arg = .integer n
  | .write => 0 ≤ x.level.toInt ∧ x.level.toInt ≤ 2
  | .halt | .calli | .enter | .ret | .retf | .jumpi | .new | .dispose | .undefined _ => False

/-- An instruction finds its operands on the stack. -/
structure Meets (x : Instr) (S : List Slot) : Prop where
  nonneg : 0 ≤ x.consumes sig
  enough : x.consumes sig ≤ S.length
  gives : 0 ≤ x.produces sig
  safe : C.exact → x.Safe C sig S

end Instr

section

variable (C : Context) (sig : Signatures)

/-- The stack after some code. -/
def scan (S : List Slot) (code : List Instr) : List Slot := code.foldl (fun S x => x.effect C sig S) S

/-- Every instruction of some code finds its operands. -/
def Served : List Slot → List Instr → Prop
  | _, [] => True
  | S, x :: rest => x.Meets C sig S ∧ Served (x.effect C sig S) rest

/-- Code leads from one stack to another, and every instruction finds its operands. -/
structure Turns (S : List Slot) (code : List Instr) (S' : List Slot) : Prop where
  served : Served C sig S code
  scan_eq : scan C sig S code = S'

end

section

variable {C : Context} {sig : Signatures} {S S' S'' : List Slot} {a b code : List Instr}

@[simp] theorem scan_nil : scan C sig S [] = S := rfl

@[simp] theorem scan_cons : scan C sig S (x :: code) = scan C sig (x.effect C sig S) code := rfl

@[simp] theorem scan_append : scan C sig S (a ++ b) = scan C sig (scan C sig S a) b := foldl_append

theorem Served.append (ha : Served C sig S a) (hb : Served C sig (scan C sig S a) b) : Served C sig S (a ++ b) := by
  induction a generalizing S with
  | nil => exact hb
  | cons x rest ih => exact ⟨ha.1, ih ha.2 hb⟩

/-- Each instruction finds its operands on the stack after the instructions before it. -/
theorem Served.getElem? (h : Served C sig S code) {i : Nat} (hx : code[i]? = some x) :
    x.Meets C sig (scan C sig S (code.take i)) := by
  induction code generalizing S i with
  | nil => simp at hx
  | cons y rest ih =>
    cases i with
    | zero =>
      rw [List.getElem?_cons_zero, Option.some.injEq] at hx
      exact hx ▸ h.1
    | succ i => exact ih h.2 hx

theorem scan_take_succ {i : Nat} (hx : code[i]? = some x) :
    scan C sig S (code.take (i + 1)) = x.effect C sig (scan C sig S (code.take i)) := by
  rw [take_add_one, hx, scan_append]
  rfl

namespace Turns

theorem nil : Turns C sig S [] S := ⟨trivial, rfl⟩

theorem append (ha : Turns C sig S a S') (hb : Turns C sig S' b S'') : Turns C sig S (a ++ b) S'' := by
  obtain ⟨hserved, rfl⟩ := ha
  exact ⟨hserved.append hb.served, scan_append.trans hb.scan_eq⟩

theorem single (h : x.Meets C sig S) : Turns C sig S [x] (x.effect C sig S) :=
  ⟨⟨h, trivial⟩, rfl⟩

theorem cons (h : x.Meets C sig S) (hcode : Turns C sig (x.effect C sig S) code S') :
    Turns C sig S (x :: code) S' := (single h).append hcode

end Turns

namespace Instr

theorem length_pushed (x : Instr) (h : 0 ≤ x.produces sig) : ((x.pushed C sig S).length : Int) = x.produces sig := by
  obtain ⟨op, level, arg⟩ := x
  cases op with
  | unary op => cases op <;> rfl
  | pushVar => cases arg <;> rfl
  | eval => exact (congrArg Nat.cast length_replicate).trans (Int.toNat_of_nonneg h)
  | enter => exact (congrArg Nat.cast length_replicate).trans (Int.toNat_of_nonneg h)
  | call =>
    unfold pushed produces
    cases sig arg with
    | none => rfl
    | some r =>
      show ((if r.result.isSome = true then [Slot.any] else []).length : Int) = if _ then 1 else 0
      split <;> rfl
  | _ => rfl

theorem produces_nonneg (h : x.op = .eval ∨ x.op = .enter → 0 ≤ x.count) : 0 ≤ x.produces sig := by
  obtain ⟨op, level, arg⟩ := x
  cases op with
  | eval => exact h (.inl rfl)
  | enter => exact h (.inr rfl)
  | call =>
    unfold produces
    cases sig arg with
    | none => exact Int.le_refl 0
    | some r =>
      show (0 : Int) ≤ if r.result.isSome = true then 1 else 0
      split <;> decide
  | _ => simp [produces]

/-- An instruction that takes a known number of words. -/
theorem Meets.of_eq {n : Nat} (hn : x.consumes sig = n) (hle : n ≤ S.length)
    (hgives : x.op = .eval ∨ x.op = .enter → 0 ≤ x.count) (hsafe : C.exact → x.Safe C sig S) : x.Meets C sig S :=
  ⟨by omega, by omega, produces_nonneg hgives, hsafe⟩

/-- The number of words on the stack after an instruction. -/
theorem Meets.length_effect (hx : x.Meets C sig S) :
    ((x.effect C sig S).length : Int) = S.length - x.consumes sig + x.produces sig := by
  have hpushed := length_pushed (C := C) (S := S) x hx.gives
  have hnonneg := hx.nonneg
  have henough := hx.enough
  rw [effect, length_append, length_drop]
  omega

end Instr

/-! ### Jumps -/

variable (C sig) in
/-- The jumps of some code lead to places with the same words on the stack. The code is placed at an address and starts
with some words. -/
def Joined (here : Nat) (S : List Slot) (code : List Instr) : Prop :=
  ∀ (i : Nat) (x : Instr), code[i]? = some x → x.op.isJump = true → ∃ j ≤ code.length,
    x.arg = .integer (Int64.ofNat (here + j)) ∧ scan C sig S (code.take j) = scan C sig S (code.take (i + 1))

namespace Piece

section

variable (C : Context) (sig : Signatures) (entries : Entries) (goals : List (List Slot))

/-- A piece leads from one stack to another, and its jumps to places with the same words. The stacks in front of all pieces
are given. -/
def Leads (S S' : List Slot) : Piece → Prop
  | plain code => Turns C sig S code S'
  | jump op goal => (∀ target, Turns C sig S [op.withTarget target] S') ∧ goals[goal]? = some S'
  | inner s => ∀ here, Turns C sig S (instrs (s.code entries here)) S' ∧
    Joined C sig here S (instrs (s.code entries here))

/-- Pieces lead from stack to stack. -/
def Threads : List (List Slot) → List Piece → Prop
  | _, [] => True
  | S :: S' :: rest, p :: ps => p.Leads C sig entries goals S S' ∧ Threads (S' :: rest) ps
  | _, _ :: _ => False

end

variable {entries : Entries} {goals Ss : List (List Slot)} {ps : List Piece} {here : Nat}

theorem Leads.turns {p : Piece} (h : p.Leads C sig entries goals S S') (address : Nat → Nat) (here : Nat) :
    Turns C sig S (p.code entries address here) S' := by
  cases p with
  | plain code => exact h
  | jump op goal => exact h.1 _
  | inner s => exact (h here).1

namespace Threads

/-- The stacks around a piece. -/
theorem leads (h : Threads C sig entries goals Ss ps) {j : Nat} {p : Piece} (hp : ps[j]? = some p) :
    ∃ S S', Ss[j]? = some S ∧ Ss[j + 1]? = some S' ∧ p.Leads C sig entries goals S S' := by
  induction ps generalizing Ss j with
  | nil => cases hp
  | cons q ps ih =>
    match Ss, h with
    | S :: S' :: rest, ⟨hq, h⟩ =>
      cases j with
      | zero => exact ⟨S, S', rfl, rfl, Option.some.inj hp ▸ hq⟩
      | succ j => exact ih h hp

/-- The code in front of a piece, or of all of them. -/
theorem turns (h : Threads C sig entries goals (S :: Ss) ps) {j : Nat} (hj : j ≤ ps.length)
    (hS' : (S :: Ss)[j]? = some S') (address : Nat → Nat) (here : Nat) :
    Turns C sig S (weave entries address here (ps.take j)) S' := by
  induction ps generalizing S Ss j here with
  | nil =>
    obtain rfl : j = 0 := Nat.le_zero.mp hj
    exact Option.some.inj hS' ▸ .nil
  | cons p ps ih =>
    match Ss, h with
    | T :: rest, ⟨hp, h⟩ =>
      cases j with
      | zero => exact Option.some.inj hS' ▸ .nil
      | succ j => exact (hp.turns address here).append (ih h (Nat.le_of_succ_le_succ hj) hS' _)

/-- The jumps of pieces lead to places with the same words on the stack. -/
theorem joined (h : Threads C sig entries (S :: Ss) (S :: Ss) ps) (hsound : ∀ p ∈ ps, p.Sound entries ps.length) :
    Joined C sig here S (whole entries here ps) := by
  intro i x hx hjump
  have hfront {j : Nat} {p : Piece} (hp : ps[j]? = some p) {T : List Slot} (hT : (S :: Ss)[j]? = some T) :=
    (h.turns (Nat.le_of_lt (List.getElem?_eq_some_iff.mp hp).1) hT (start entries here ps) here).scan_eq
  cases jumps_of_getElem? hsound hx hjump with
  | @piece j op goal hp hgoal hx hi =>
    obtain ⟨T, T', hT, -, hleads, hgoal'⟩ := h.leads hp
    refine ⟨(front entries here ps goal).length, ?_, by rw [hx, ← start_eq]; rfl, ?_⟩
    · rw [whole, weave_cut ps goal, length_append]
      exact Nat.le_add_right _ _
    · rw [hi, take_weave hp (Nat.le_refl 1), scan_append, hfront hp hT, whole, weave_cut ps goal, take_left,
        (h.turns hgoal hgoal' _ here).scan_eq]
      exact (hleads _).scan_eq.symm
  | @inside j s k hp haimed hx hi =>
    obtain ⟨T, T', hT, -, hleads⟩ := h.leads hp
    obtain ⟨i', hi', harg, hscan⟩ := (hleads _).2 k x hx hjump
    have hsize : size entries (.inner s) = _ := size_inner s (start entries here ps j)
    have hk := (List.getElem?_eq_some_iff.mp hx).1
    refine ⟨(front entries here ps j).length + i', ?_, by rw [harg, ← Nat.add_assoc, ← start_eq], ?_⟩
    · rw [whole, weave_split hp, length_append, length_append]
      exact Nat.add_le_add_left (Nat.le_trans hi' (Nat.le_add_right _ _)) _
    · rw [hi, Nat.add_assoc, take_weave hp (hsize ▸ hi'), take_weave hp (hsize ▸ hk), scan_append, scan_append,
        hfront hp hT]
      exact hscan

end Threads

end Piece

/-- A statement whose pieces lead from stack to stack. -/
theorem Stmt.turns_of_threads {entries : Entries} (s : Stmt) (Ss : List (List Slot))
    (h : Piece.Threads C sig entries (S :: Ss) (S :: Ss) (s.pieces entries))
    (hS' : (S :: Ss)[(s.pieces entries).length]? = some S') (here : Nat) :
    Turns C sig S (instrs (s.code entries here)) S' ∧ Joined C sig here S (instrs (s.code entries here)) := by
  rw [s.instrs_code]
  have hturns := h.turns (Nat.le_refl _) hS' (Piece.start entries here (s.pieces entries)) here
  rw [take_length] at hturns
  exact ⟨hturns, h.joined (s.sound_pieces entries)⟩

end

end MiniPascal
