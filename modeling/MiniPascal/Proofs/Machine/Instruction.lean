import Mathlib.Data.List.Forall2
import MiniPascal.Proofs.Machine.Frame
import MiniPascal.Proofs.Machine.Output
import MiniPascal.Proofs.Tree.Balance

/-!
# Single instructions

What an instruction does to a state in which the words on the stack are as the code expects them. It is
carried out and leads to the words that the code expects next, or it is refused with one of few faults.
-/

namespace MiniPascal

open List Int64 Word Datum

namespace Opcode

def isRanged : Opcode → Bool
  | .llimit | .ulimit => true
  | .unary op => op.isRanged
  | _ => false

/-- The faults with which an operation of a typed program may be refused. -/
def permits (op : Opcode) : Fault → Bool
  | .divideByZero | .badDataType | .stackOverflow => true
  | .outOfRange => op.isRanged
  | .badFetch | .unknownInstr | .stackUnderflow | .freeStoreError => false

/-- Operations that work on the topmost words of the stack and on nothing else. -/
def computes : Opcode → Bool
  | .unary _ | .itor2 | .binary _ | .push | .llimit | .ulimit => true
  | _ => false

/-- Operations that leave the variables as they are and go on with the next instruction. -/
def isQuiet : Opcode → Bool
  | .unary _ | .itor2 | .dup | .binary _ | .push | .pushVar | .eval | .pop | .llimit | .ulimit | .write
  | .writeln => true
  | _ => false

end Opcode

theorem Instr.exists_count {x : Instr} (h : 1 ≤ x.count) :
    ∃ (n : Int64) (k : Nat), x.arg = .integer n ∧ n.toInt = k ∧ x.count = k := by
  obtain ⟨op, level, arg⟩ := x
  cases arg with
  | integer n =>
    have hn : 1 ≤ n.toInt := h
    obtain ⟨k, hk⟩ := Int.eq_ofNat_of_zero_le (by omega : 0 ≤ n.toInt)
    exact ⟨n, k, rfl, hk, hk⟩
  | _ => exact absurd (show (1 : Int) ≤ 0 from h) (by decide)

variable {sig : Signatures}

/-- The operands that the machine asks for are there. -/
theorem Instr.Meets.exists_pops {C : Context} {x : Instr} {S : List Slot} (h : x.Meets C sig S) (hx : C.exact) :
    ∃ n, x.op.pops = some n ∧ n ≤ S.length := by
  have henough := h.enough
  have hsafe := h.safe hx
  obtain ⟨op, level, arg⟩ := x
  cases op with
  | assign =>
    obtain ⟨words, spot, -, hpos, -⟩ := hsafe
    have hcount : Instr.count ⟨.assign, level, arg⟩ + 1 ≤ S.length := henough
    exact ⟨2, rfl, by omega⟩
  | write =>
    have hcount : level.toInt + 1 ≤ S.length := henough
    have hnonneg : 0 ≤ level.toInt := hsafe.1
    exact ⟨1, rfl, by omega⟩
  | pop => exact ⟨0, rfl, Nat.zero_le _⟩
  | call => exact ⟨0, rfl, Nat.zero_le _⟩
  | halt | calli | enter | ret | retf | jumpi | new | dispose | undefined _ => exact hsafe.elim
  | _ => exact ⟨_, rfl, Int.ofNat_le.mp henough⟩

/-! ### Words that are as expected -/

/-- What a slot says of a word, if the words of variables and the frames of the blocks around are given. -/
def Slot.Holds (isVariable : Nat → Prop) (frames : List Nat) : Slot → Datum → Prop
  | .any, _ => True
  | .atLeast lower, d => ∃ v, d.ordinal? = some v ∧ lower ≤ v.toInt
  | .within lower upper, d => ∃ v, d.ordinal? = some v ∧ lower ≤ v.toInt ∧ v.toInt ≤ upper
  | .multiple count unit, d => ∃ v k, d.ordinal? = some v ∧ 0 ≤ k ∧ k ≤ count ∧ v.toInt = k * unit
  | .place words spot, d => ∃ t : Nat, d = .address (Int64.ofNat t) ∧ 1 ≤ t ∧
    (∀ i < words.toNat, isVariable (t + i)) ∧ spot.Marks frames t

namespace Slot

variable {W : Nat → Prop} {F : List Nat} {s s' : Slot} {a b d r : Datum}

theorem holds_ofDatum (d : Datum) : (ofDatum d).Holds W F d := by
  cases d with
  | integer n => exact ⟨n, rfl, Int.le_refl _, Int.le_refl _⟩
  | _ => trivial

theorem Holds.ordinal (h : s.Holds W F d) {v : Int64} (hv : d.ordinal? = some v) :
    s.ordinal.Holds W F (.integer v) := by
  cases s with
  | within lower upper =>
    obtain ⟨w, hw, hbounds⟩ := h
    obtain rfl : w = v := Option.some.inj (hw.symm.trans hv)
    exact ⟨w, rfl, hbounds⟩
  | _ => trivial

theorem Holds.atMost (h : s.Holds W F d) {v : Int64} (hv : d.ordinal? = some v) {upper : Int}
    (hle : v.toInt ≤ upper) : (s.atMost upper).Holds W F d := by
  cases s with
  | atLeast lower =>
    obtain ⟨w, hw, hlower⟩ := h
    obtain rfl : w = v := Option.some.inj (hw.symm.trans hv)
    exact ⟨w, hw, hlower, hle⟩
  | _ => trivial

theorem toInt_wrap32 {v : Int64} {n : Int} (hv : v.toInt = n) (hn : -2 ^ 31 ≤ n ∧ n < 2 ^ 31) :
    (wrap32 v).toInt = n := by
  rw [wrap32, Int32.toInt_toInt64, toInt_toInt32, hv]
  exact Int.bmod_eq_of_le hn.1 hn.2

theorem holds_sub {lower upper lower' upper' : Int} (ha : (within lower upper).Holds W F a)
    (hb : (within lower' upper').Holds W F b) (hlower : -2 ^ 31 ≤ lower - upper')
    (hupper : upper - lower' < 2 ^ 31) (h : a.sub b = .ok r) :
    (within (lower - upper') (upper - lower')).Holds W F r := by
  obtain ⟨v, hv, hv₁, hv₂⟩ := ha
  obtain ⟨w, hw, hw₁, hw₂⟩ := hb
  have hnumbers : a = .integer v ∧ b = .integer w := by
    cases a <;> cases b <;> simp_all [ordinal?, sub, onReals, widen?]
  obtain ⟨rfl, rfl⟩ := hnumbers
  cases h
  refine ⟨_, rfl, ?_⟩
  rw [toInt_wrap32 (sub_eq rfl rfl (by omega)) (by omega)]
  omega

theorem holds_mul {lower upper unit : Int} (ha : (within lower upper).Holds W F a)
    (hb : (within unit unit).Holds W F b) (hlower : 0 ≤ lower) (hunit : 0 ≤ unit)
    (hupper : upper * unit < 2 ^ 31) (h : a.mul b = .ok r) : (multiple upper unit).Holds W F r := by
  obtain ⟨v, hv, hv₁, hv₂⟩ := ha
  obtain ⟨w, hw, hw₁, hw₂⟩ := hb
  have hnumbers : a = .integer v ∧ b = .integer w := by
    cases a <;> cases b <;> simp_all [ordinal?, mul, onReals, widen?]
  obtain ⟨rfl, rfl⟩ := hnumbers
  cases h
  obtain rfl : w.toInt = unit := Int.le_antisymm hw₂ hw₁
  have hmost : v.toInt * w.toInt ≤ upper * w.toInt := Int.mul_le_mul_of_nonneg_right hv₂ hunit
  have hnonneg : 0 ≤ v.toInt * w.toInt := Int.mul_nonneg (by omega) hunit
  refine ⟨_, v.toInt, rfl, by omega, hv₂, ?_⟩
  exact toInt_wrap32 (toInt_mul ⟨by omega, by omega⟩) (by omega)

theorem holds_add {words most k : Int} {spot : Spot} {d : Stride} {w : Int64} (ha : (place words spot).Holds W F a)
    (hw : b.ordinal? = some w) (hk : w.toInt = k * d.unit) (hlower : d.lower ≤ k) (hupper : k ≤ d.upper)
    (hnonneg : 0 ≤ w.toInt) (hmost : w.toInt ≤ most) (h : a.add b = .ok r) :
    (place (words - most) (spot.move d)).Holds W F r := by
  obtain ⟨t, rfl, hpos, hplace, f, e, hf, hsum, heq⟩ := ha
  have hnumber : b = .integer w := by
    cases b <;> simp_all [ordinal?, add, onReals, widen?]
  subst hnumber
  cases h
  refine ⟨t + w.toInt.toNat, ?_, by omega, fun i hi => ?_, f, _, hf, ⟨e, k, hsum, hlower, hupper, rfl⟩, ?_⟩
  · have hword : Int64.ofNat w.toInt.toNat = w := by
      rw [← toInt_inj, toInt_ofNat (by have := w.toInt_lt; omega)]
      omega
    rw [ofNat_add, hword]
  · rw [Nat.add_assoc]
    exact hplace _ (by omega)
  · show ((t + w.toInt.toNat : Nat) : Int) = f + spot.offset.toInt + _
    omega

theorem holds_combine {op : BinaryOp} (ha : s.Holds W F a) (hb : s'.Holds W F b) (h : op.apply a b = .ok r) :
    (combine op s s').Holds W F r := by
  have harithmetic {e : Except Datum.Error Datum} (he : BinaryOp.arithmetic e = .ok r) : e = .ok r := by
    cases e with
    | ok d => exact congrArg Except.ok (Except.ok.inj he)
    | error e => cases he
  cases op with
  | add =>
    cases s with
    | place words spot =>
      cases s' with
      | within lower upper =>
        unfold combine
        dsimp only
        split
        · next hnonneg =>
          obtain ⟨w, hw, hlower, hupper⟩ := hb
          exact holds_add ha hw (Int.mul_one _).symm hlower hupper (by omega) hupper (harithmetic h)
        · trivial
      | multiple count unit =>
        unfold combine
        dsimp only
        split
        · next hunit =>
          obtain ⟨w, k, hw, hlower, hupper, hk⟩ := hb
          refine holds_add ha hw hk hlower hupper ?_ ?_ (harithmetic h) <;> rw [hk]
          · exact Int.mul_nonneg hlower hunit
          · exact Int.mul_le_mul_of_nonneg_right hupper hunit
        · trivial
      | _ => trivial
    | _ => trivial
  | sub =>
    cases s with
    | within lower upper =>
      cases s' with
      | within lower' upper' =>
        unfold combine
        dsimp only
        split
        · next hfits => exact holds_sub ha hb hfits.1 hfits.2 (harithmetic h)
        · trivial
      | _ => trivial
    | _ => trivial
  | mul =>
    cases s with
    | within lower upper =>
      cases s' with
      | within unit unit' =>
        unfold combine
        dsimp only
        split
        · next hfits =>
          obtain ⟨hlower, hunit, rfl, hupper⟩ := hfits
          exact holds_mul ha hb hlower hunit hupper (harithmetic h)
        · trivial
      | _ => trivial
    | _ => trivial
  | _ => trivial

/-- The word at a place of the stack is as its slot says. -/
theorem Holds.getElem? {S : List Slot} {ds : List Datum} (h : List.Forall₂ (Holds W F) S ds) {i : Nat}
    (hs : S[i]? = some s) : ∃ d, ds[i]? = some d ∧ s.Holds W F d := by
  obtain ⟨hi, rfl⟩ := List.getElem?_eq_some_iff.mp hs
  have hi' : i < ds.length := h.length_eq ▸ hi
  exact ⟨_, List.getElem?_eq_getElem hi', h.get hi hi'⟩

theorem forall₂_any (ds : List Datum) : List.Forall₂ (Holds W F) (List.replicate ds.length .any) ds := by
  induction ds with
  | nil => exact .nil
  | cons d rest ih => exact .cons trivial ih

end Slot

open Machine in
/-- An instruction that only computes makes words that are as slots say into words that are so again, or it is
refused with a fault that its operation permits. -/
theorem Instr.Meets.expects_compute {C : Context} {x : Instr} {S : List Slot} {W : Nat → Prop} {F : List Nat}
    {ds : List Datum} (h : x.Meets C sig S) (hx : C.exact) (hop : x.op.computes = true)
    (hslots : List.Forall₂ (Slot.Holds W F) S ds) (hnarrow : ∀ d ∈ ds, d.Narrow) (room : Nat) :
    Expects (x.op.permits · = true) (fun ds' => List.Forall₂ (Slot.Holds W F) (x.effect C sig S) ds' ∧
      ∀ d ∈ ds', d.Narrow) (x.compute room ds) := by
  have henough := h.enough
  have hsafe := h.safe hx
  have hrefuses (op : UnaryOp) (f : Fault) (hf : op.Refuses f) : (Opcode.unary op).permits f = true := by
    rcases hf with rfl | ⟨rfl, hranged⟩
    · rfl
    · exact hranged
  obtain ⟨op, level, arg⟩ := x
  cases op with
  | push =>
    show Expects _ _ (if ds.length < room then _ else _)
    split
    · refine ⟨.cons (Slot.holds_ofDatum arg) hslots, forall_mem_cons.mpr ⟨?_, hnarrow⟩⟩
      cases arg with
      | integer n => exact ⟨Int.le_of_lt hsafe.1, hsafe.2⟩
      | _ => trivial
    · exact rfl
  | unary op =>
    cases hslots with
    | nil => cases henough
    | @cons _ d _ _ hd hrest =>
      obtain ⟨hnd, hnrest⟩ := forall_mem_cons.mp hnarrow
      refine (op.apply_narrow hnd).map (hrefuses op) fun r hr hresult => ⟨?_, forall_mem_cons.mpr ⟨hresult, hnrest⟩⟩
      cases op with
      | ord =>
        cases hv : d.ordinal? with
        | none => simp [UnaryOp.apply, hv] at hr
        | some v =>
          simp only [UnaryOp.apply, hv, Except.ok.injEq] at hr
          exact .cons (hr ▸ hd.ordinal hv) hrest
      | _ => exact .cons trivial hrest
  | itor2 =>
    rcases hslots with _ | ⟨hb, _ | ⟨hd, hrest⟩⟩
    iterate 2 cases henough
    · rw [forall_mem_cons, forall_mem_cons] at hnarrow
      obtain ⟨hnb, hnd, hnrest⟩ := hnarrow
      refine (UnaryOp.itor.apply_narrow hnd).map (hrefuses .itor) fun r _ hresult => ⟨.cons hb (.cons trivial hrest), ?_⟩
      exact forall_mem_cons.mpr ⟨hnb, forall_mem_cons.mpr ⟨hresult, hnrest⟩⟩
  | binary op =>
    rcases hslots with _ | ⟨hb, _ | ⟨ha, hrest⟩⟩
    iterate 2 cases henough
    · rw [forall_mem_cons, forall_mem_cons] at hnarrow
      obtain ⟨hnb, hna, hnrest⟩ := hnarrow
      refine (op.apply_narrow hna hnb).map (fun f hf => ?_) fun r hr hresult =>
        ⟨.cons (Slot.holds_combine ha hb hr) hrest, forall_mem_cons.mpr ⟨hresult, hnrest⟩⟩
      rcases hf with rfl | rfl <;> rfl
  | llimit =>
    obtain ⟨n, rfl⟩ := hsafe
    cases hslots with
    | nil => cases henough
    | cons hd hrest =>
      refine expects_limited rfl rfl fun v hv hle => ⟨.cons ⟨v, hv, ?_⟩ hrest, hnarrow⟩
      rwa [decide_eq_true_eq, Int64.not_lt, Int64.le_iff_toInt_le] at hle
  | ulimit =>
    obtain ⟨n, rfl⟩ := hsafe
    cases hslots with
    | nil => cases henough
    | cons hd hrest =>
      refine expects_limited rfl rfl fun v hv hle => ⟨.cons (hd.atMost hv ?_) hrest, hnarrow⟩
      rwa [decide_eq_true_eq, gt_iff_lt, Int64.not_lt, Int64.le_iff_toInt_le] at hle
  | _ => cases hop

namespace Machine

/-- An instruction is carried out and leads to a state, or it is refused with a fault that its operation
permits. -/
def Goes (op : Opcode) (Q : Machine → Prop) (e : Effect) : Prop :=
  (e.1 = .success ∧ Q e.2) ∨ ∃ cause, e.1 = .fault cause ∧ op.permits cause = true

variable {Q : Machine → Prop} {op : Opcode}

theorem Goes.mono {P : Machine → Prop} {e : Effect} (h : Goes op P e) (hPQ : ∀ m, P m → Q m) : Goes op Q e :=
  h.imp_left fun ⟨hsuccess, hm⟩ => ⟨hsuccess, hPQ _ hm⟩

theorem Goes.success {m : Machine} (h : Goes op Q (.success, m)) : Q m := by
  rcases h with ⟨-, hm⟩ | ⟨cause, hfault, -⟩
  · exact hm
  · cases hfault

theorem Goes.refused {cause : Fault} {m : Machine} {e : Effect} (h : e = refuse cause m)
    (hcause : op.permits cause = true) : Goes op Q e :=
  .inr ⟨cause, by rw [h]; rfl, hcause⟩

/-- A state whose temporary words are as slots say. -/
def Shows (A : Activation) (W : Nat → Prop) (pc : Nat) (S : List Slot) (m : Machine) : Prop :=
  ∃ ds, At A pc ds m ∧ List.Forall₂ (Slot.Holds W (A.fp :: A.outer)) S ds

/-- The words of the variables of a block lie around its frame: the parameters below it, and the result and the
local variables above the links. -/
structure Covered (types : TypeTable) (W : Nat → Prop) (frame : Nat) (l : Level) : Prop where
  room : types.total l.routine.params < frame
  params : ∀ a, a < frame → frame ≤ a + types.total l.routine.params → W a
  locals : ∀ a, frame + 3 ≤ a → a ≤ frame + 3 + types.total l.vars → W a

theorem Covered.mono {types : TypeTable} {W W' : Nat → Prop} {frame : Nat} {l : Level}
    (h : Covered types W frame l) (hW : ∀ a, W a → W' a) : Covered types W' frame l where
  room := h.room
  params a hlower hupper := hW a (h.params a hlower hupper)
  locals a hlower hupper := hW a (h.locals a hlower hupper)

theorem Linked.le_of_mem {frozen : Nat → Datum} {writable : Nat → Prop} {top : Nat} {frames : List Nat}
    (h : Linked frozen writable top frames) {f : Nat} (hf : f ∈ frames) : f ≤ top := by
  induction frames with
  | nil => cases hf
  | cons g outer ih =>
    rcases mem_cons.mp hf with rfl | hf
    · exact h.2.1
    · exact ih h.2.2.2.2 hf

namespace Shows

variable {A : Activation} {W : Nat → Prop} {pc : Nat} {s s' : Slot} {S : List Slot} {m : Machine}

/-- Room is found for a word, or the stack is full. -/
theorem push (h : Shows A W pc S m) {d : Datum} (hd : A.admits d) (hs : s.Holds W (A.fp :: A.outer) d) :
    Goes op (Shows A W pc (s :: S)) (m.push d) := by
  obtain ⟨ds, hat, hslots⟩ := h
  have hpush := hat.push hd
  split at hpush
  · exact .inl ⟨hpush.1, d :: ds, hpush.2, .cons hs hslots⟩
  · exact .inr ⟨_, hpush, rfl⟩

theorem dup (h : Shows A W pc (s :: S) m) : Goes .dup (Shows A W pc (s :: s :: S))
    (match m.read? m.sp with
    | some d => m.push d
    | none => crash m) := by
  obtain ⟨_, hat, hslots⟩ := h
  cases hslots with
  | cons hd hrest =>
    rw [hat.read_top]
    exact push ⟨_, hat, .cons hd hrest⟩ (hat.admits_of_mem mem_cons_self) hd

theorem drop (h : Shows A W pc S m) {n : Int64} {k : Nat} (hn : n.toInt = k) (hk : k ≤ S.length) :
    Goes .pop (Shows A W pc (S.drop k)) (m.drop (.integer n)) := by
  obtain ⟨ds, hat, hslots⟩ := h
  have hlength := hslots.length_eq
  rw [← take_append_drop k ds] at hat
  have hdrop := hat.drop (n := n) (by rw [length_take]; omega)
  exact .inl ⟨hdrop.1, ds.drop k, hdrop.2, List.forall₂_drop k hslots⟩

/-- The words of a place are loaded. -/
theorem eval {words : Int} {spot : Spot} (h : Shows A W pc (.place words spot :: S) m) {n : Int64} {k : Nat} (hn : n.toInt = k)
    (hk : 1 ≤ k) (hle : k ≤ words) (hW : ∀ a, W a → a ≤ A.top) :
    Goes .eval (Shows A W pc (List.replicate k .any ++ S)) (m.eval (.integer n)) := by
  obtain ⟨_, hat, hslots⟩ := h
  cases hslots with
  | @cons _ d _ ds hd hrest =>
    obtain ⟨t, rfl, hpos, hplace, -⟩ := hd
    have hlast := hW _ (hplace (k - 1) (by omega))
    have heval := hat.eval hn hk hpos (by omega)
    split at heval
    · have hmemory := hat.memory
      have hroom := hat.room
      have hlength : (blockOf m.mem t k).length = k := length_blockOf (by omega)
      refine .inl ⟨heval.1, _, heval.2, rel_append ?_ hrest⟩
      have hany := Slot.forall₂_any (W := W) (F := A.fp :: A.outer) (blockOf m.mem t k)
      rwa [hlength] at hany
    · exact .refused heval rfl

theorem pushVar (h : Shows A W pc S m) {C : Context} {entries : Entries} (hlaid : C.Laid sig entries) (hx : C.exact)
    (hframes : List.Forall₂ (Covered C.types W) (A.fp :: A.outer) C.levels) {level : Int8} {k : Nat}
    (hlevel : level.toInt = k) {l : Level} (hl : C.levels[k]? = some l) {offset : Int64} (hnames : l.Names offset)
    (hadmits : ∀ a, A.admits (.address a)) :
    Goes .pushVar (Shows A W pc (.place (C.reach level offset) { level, offset } :: S))
      (match m.frameAt level with
      | .ok base => m.push (.address (base + offset))
      | .error reason => stop reason m) := by
  obtain ⟨ds, hat, hslots⟩ := h
  have hk := (List.getElem?_eq_some_iff.mp hl).1
  have hlength := hframes.length_eq
  rw [length_cons] at hlength
  obtain ⟨f, hf, hcovered⟩ : ∃ f, (A.fp :: A.outer)[k]? = some f ∧ Covered C.types W f l := by
    have hlt : k < (A.fp :: A.outer).length := by rw [length_cons]; omega
    have hget := hframes.get hlt hk
    rw [List.getElem?_eq_getElem hk, Option.some.injEq] at hl
    exact ⟨_, List.getElem?_eq_getElem hlt, hl ▸ hget⟩
  rw [hat.frameAt hlevel (by omega)]
  have hhead : ((A.fp :: A.outer).drop k).headD 1 = f := by
    rw [headD_eq_head?_getD, List.head?_drop, hf]
    rfl
  rw [hhead]
  have hle := A.linked.le_of_mem (mem_of_getElem? hf)
  have hsize := hat.size_le
  have hfword : (Int64.ofNat f).toInt = f := toInt_ofNat (by omega)
  obtain ⟨hparams, hlocals⟩ := (hlaid.levels l (mem_of_getElem? hl)).small hx
  -- a parameter lies below the frame, and everything else above the links
  have hoffset : -(C.types.total l.routine.params : Int) ≤ offset.toInt ∧ offset.toInt < 0 ∨
      3 ≤ offset.toInt ∧ offset.toInt < 4 + C.types.total l.vars := by
    rcases hnames with ⟨g, hg, rfl⟩ | ⟨-, rfl⟩
    · have hlevels := hlaid.levels l (mem_of_getElem? hl)
      have hsized := hlaid.sized g.type (hlevels.has hg)
      have := hlevels.frameOffset_bounds hx hlaid.sized hg
      omega
    · exact .inr ⟨by decide, by show (3 : Int) < _; omega⟩
  have hreach : C.reach level offset =
      if offset.toInt < 0 then -offset.toInt else 4 + C.types.total l.vars - offset.toInt := by
    unfold Context.reach
    rw [hlevel, Int.toNat_natCast, hl]
  refine push ⟨ds, hat, hslots⟩ (hadmits _) ?_
  rw [hreach]
  have hroom := hcovered.room
  have haddress : Int64.ofNat f + offset = Int64.ofNat (f + offset.toInt).toNat := by
    rw [← toInt_inj, add_eq hfword rfl (by omega), toInt_ofNat (by omega)]
    omega
  have hmarks : Spot.Marks { level, offset } (A.fp :: A.outer) (f + offset.toInt).toNat := by
    refine ⟨f, 0, ?_, rfl, ?_⟩
    · rw [hlevel, Int.toNat_natCast]
      exact hf
    · show ((f + offset.toInt).toNat : Int) = f + offset.toInt + 0
      omega
  rw [haddress]
  split
  · next hneg =>
    refine ⟨(f + offset.toInt).toNat, rfl, by omega, fun i hi => hcovered.params _ ?_ ?_, hmarks⟩ <;> omega
  · next hpos =>
    refine ⟨(f + offset.toInt).toNat, rfl, by omega, fun i hi => hcovered.locals _ ?_ ?_, hmarks⟩ <;> omega

theorem writeTop (h : Shows A W pc (s :: S) m) {width : Int64} {places : Option Nat}
    (hwidth : (integer width).Narrow) (hplaces : places.getD 0 < 2 ^ 48) :
    Goes .write (Shows A W pc S) (m.pop fun d m => m.writeValue width places d) := by
  obtain ⟨_, hat, hslots⟩ := h
  cases hslots with
  | @cons _ d _ ds hd hrest =>
    obtain ⟨m', hat', heq⟩ := hat.pop_eq fun d m => m.writeValue width places d
    have hyields := hat'.writeValue (d := d) (blanks_le hwidth hplaces)
    rw [heq]
    exact .inl ⟨hyields.1, ds, hyields.2, hrest⟩

variable (hnarrow : A.admits = Datum.Narrow)

include hnarrow

/-- An instruction that only computes leads to the words that the code expects next. -/
theorem compute (h : Shows A W pc S m) {C : Context} (hx : C.exact) {x : Instr} (hmeets : x.Meets C sig S)
    (hop : x.op.computes = true) : Goes x.op (Shows A W pc (x.effect C sig S)) (m.execute x) := by
  obtain ⟨ds, hat, hslots⟩ := h
  obtain ⟨room, hroom⟩ := hat.exists_room
  have hexpects := hmeets.expects_compute hx hop hslots (fun d hd => hnarrow ▸ hat.admits_of_mem hd) room
  have hcomputed := hat.bears.execute_compute hat.roomy hroom (hexpects.mono (fun f hf heq => by
    rw [heq] at hf
    cases hf) fun ds' hds' d hd => by
      rw [hnarrow]
      exact hds'.2 d hd)
  generalize x.compute room ds = r at hexpects hcomputed
  cases r with
  | ok ds' => exact .inl ⟨hcomputed.1, ds', hat.of_bears hcomputed.2, hexpects.1⟩
  | error f => exact .inr ⟨f, hcomputed.1, hexpects⟩

theorem popInteger (h : Shows A W pc (s :: S) m) {next : Int64 → Machine → Effect}
    (hnext : ∀ n m', (integer n).Narrow → Shows A W pc S m' → Goes .write Q (next n m')) :
    Goes .write Q (m.pop fun d m =>
      match d with
      | .integer n => next n m
      | _ => refuse .badDataType m) := by
  obtain ⟨_, hat, hslots⟩ := h
  cases hslots with
  | @cons _ d _ ds hd hrest =>
    have hadmits := hat.admits_of_mem mem_cons_self
    rw [hnarrow] at hadmits
    refine hat.pop_ind (P := Goes .write Q) fun m' hat' => ?_
    cases d with
    | integer n => exact hnext n m' hadmits ⟨ds, hat', hrest⟩
    | _ => exact .refused rfl rfl

/-- A value is written with up to two format arguments. -/
theorem output (h : Shows A W pc S m) {level : Int8} {k : Nat} (hlevel : level.toInt = k) (hk : k ≤ 2)
    (henough : k + 1 ≤ S.length) : Goes .write (Shows A W pc (S.drop (k + 1))) (m.output level) := by
  have hbounds : ¬(level < 0 || 2 < level) = true := by
    simp only [Bool.or_eq_true, decide_eq_true_eq, Int8.lt_iff_toInt_lt, hlevel]
    show ¬((k : Int) < 0 ∨ (2 : Int) < k)
    omega
  have hsp : ¬m.sp < Int64.ofInt level.toInt + 1 := by
    obtain ⟨ds, hat, hslots⟩ := h
    have hword : (Int64.ofInt level.toInt).toInt = k := by
      rw [hlevel, toInt_ofInt_of_le (by omega) (by omega)]
    have hlength := hslots.length_eq
    rw [lt_iff_toInt_lt, hat.sp, Word.add_eq hword Word.toInt_one (by omega)]
    omega
  unfold Machine.output
  rw [if_neg hbounds, if_neg hsp]
  match k, S, hk, henough with
  | 0, s :: S, _, _ =>
    rw [if_pos (Int8.toInt_inj.mp hlevel)]
    exact h.writeTop ⟨by decide, by decide⟩ (by decide)
  | 1, w :: s :: S, _, _ =>
    obtain rfl : level = 1 := Int8.toInt_inj.mp hlevel
    rw [if_neg (by decide), if_pos rfl]
    exact popInteger hnarrow h fun width m' hwidth hm' => hm'.writeTop hwidth (by decide)
  | 2, p :: w :: s :: S, _, _ =>
    obtain rfl : level = 2 := Int8.toInt_inj.mp hlevel
    rw [if_neg (by decide), if_neg (by decide)]
    refine popInteger hnarrow h fun places m' hplaces hm' => ?_
    refine popInteger hnarrow hm' fun width m'' hwidth hm'' => hm''.writeTop hwidth ?_
    have := hplaces.2
    show places.toInt.toNat < 2 ^ 48
    omega

/-- An instruction that leaves the variables as they are leads to the words that the code expects next. -/
theorem quiet (h : Shows A W pc S m) {C : Context} {entries : Entries} (hlaid : C.Laid sig entries) (hx : C.exact)
    (hframes : List.Forall₂ (Covered C.types W) (A.fp :: A.outer) C.levels) (hW : ∀ a, W a → a ≤ A.top) {x : Instr}
    (hmeets : x.Meets C sig S) (hquiet : x.op.isQuiet = true) :
    Goes x.op (Shows A W pc (x.effect C sig S)) (m.execute x) := by
  have henough := hmeets.enough
  have hsafe := hmeets.safe hx
  obtain ⟨op, level, arg⟩ := x
  cases op with
  | unary | itor2 | binary | push | llimit | ulimit => exact compute hnarrow h hx hmeets rfl
  | dup =>
    match S, henough with
    | s :: S, _ => exact dup h
  | pushVar =>
    obtain ⟨k, l, offset, hlevel, rfl, hl, hnames⟩ := hsafe
    exact pushVar h hlaid hx hframes hlevel hl hnames fun a => by rw [hnarrow]; trivial
  | eval =>
    obtain ⟨words, spot, hplace, hpos, hle⟩ := hsafe
    obtain ⟨n, k, rfl, hn, hcount⟩ := Instr.exists_count hpos
    match S, hplace with
    | .place _ _ :: S, rfl =>
      have heffect : (⟨.eval, level, .integer n⟩ : Instr).effect C sig (.place words spot :: S) =
          List.replicate k .any ++ S := by
        show List.replicate (Instr.count _).toNat _ ++ S = _
        rw [hcount, Int.toNat_natCast]
      rw [heffect]
      exact eval h hn (by omega) (by omega) hW
  | pop =>
    obtain ⟨n, k, rfl, hn, hcount⟩ := Instr.exists_count hsafe
    have heffect : (⟨.pop, level, .integer n⟩ : Instr).effect C sig S = S.drop k := by
      show S.drop (Instr.count ⟨.pop, level, .integer n⟩).toNat = _
      rw [hcount, Int.toNat_natCast]
    rw [heffect]
    have hlength : Instr.count ⟨.pop, level, .integer n⟩ ≤ S.length := henough
    exact drop h hn (by omega)
  | write =>
    obtain ⟨k, hk⟩ := Int.eq_ofNat_of_zero_le hsafe.1
    have hle : level.toInt ≤ 2 := hsafe.2
    have hlevel : level.toInt = k := hk
    have hlength : level.toInt + 1 ≤ S.length := henough
    have heffect : (⟨.write, level, arg⟩ : Instr).effect C sig S = S.drop (k + 1) := by
      show S.drop (level.toInt + 1).toNat = _
      rw [hlevel]
      rfl
    rw [heffect]
    exact output hnarrow h hlevel (by omega) (by omega)
  | writeln =>
    obtain ⟨ds, hat, hslots⟩ := h
    exact .inl ⟨rfl, ds, hat.withOutput _, hslots⟩
  | _ => cases hquiet

end Shows

end Machine

end MiniPascal
