import MiniPascal.Proofs.Machine.Setting
import MiniPascal.Proofs.Meaning.Phrase

/-!
# Code that computes values

Code computes a result if, wherever it stands, it leaves the value on the stack and everything below as it was, or
stops at the fault. The code of a phrase is put together from the code of its parts.
-/

namespace MiniPascal

open List

/-- A variable lies at an address, given the frames of the blocks around its use, innermost first. -/
def Variable.LiesAt (v : Variable) (frames : List Nat) (slot : Nat) : Prop :=
  1 ≤ slot ∧ ∃ hops frame : Nat, v.hops = hops ∧ frames[hops]? = some frame ∧ (slot : Int) = frame + v.frameOffset.toInt

namespace Machine

namespace Activation

def frames (A : Activation) : List Nat := A.fp :: A.outer

def word? (A : Activation) (a : Nat) : Option Datum := if a ≤ A.top then some (A.frozen a) else none

/-- Nothing may change, and all data are possible. -/
structure Still (A : Activation) : Prop where
  fixed : ∀ a, ¬A.writable a
  admits : ∀ d, A.admits d

theorem word?_eq_some {A : Activation} {a : Nat} {d : Datum} (h : A.word? a = some d) : a ≤ A.top ∧ A.frozen a = d := by
  unfold word? at h
  split at h
  · next hle => exact ⟨hle, Option.some.inj h⟩
  · cases h

end Activation

namespace Setting

variable {S : Setting} {σ : Store}

theorem word?_activation (h : S.Admits σ) : (S.activation h).word? = σ := by
  ext1 a
  unfold Activation.word?
  split
  · next hle =>
    obtain ⟨d, hd⟩ := Option.isSome_iff_exists.mp ((h.words a).mpr hle)
    show some ((σ a).getD _) = σ a
    rw [hd]
    rfl
  · next hgt =>
    have hnone := mt (h.words a).mp hgt
    rw [Option.not_isSome_iff_eq_none] at hnone
    exact hnone.symm

theorem still_activation (h : S.Admits σ) : (S.activation h).Still := ⟨fun _ => id, fun _ => trivial⟩

end Setting

theorem At.results_address {A : Activation} (hA : A.Still) {pc : Nat} {ds : List Datum} {m : Machine} (h : At A pc ds m)
    {v : Variable} (hx : A.code[pc]? = some v.address) {slot : Nat} (hlies : v.LiesAt A.frames slot)
    (hnear : v.hops ≤ 127) (htop : slot ≤ A.top) (hroom : A.top + ds.length + 1 < A.size) :
    Results pc (pc + 1) (fun d => At A (pc + 1) (d :: ds)) m (.ok (.address (Int64.ofNat slot))) := by
  obtain ⟨-, hops, frame, hhops, hframe, hslot⟩ := hlies
  have hsize := h.size_le
  have hlevel : (Int8.ofInt v.hops).toInt = hops := by
    rw [hhops, Int8.toInt_ofInt_of_le (by omega) (by omega)]
  have hframe_le : frame ≤ A.top := Linked.le_of_mem A.linked (mem_of_getElem? hframe)
  have haddress : Int64.ofNat frame + v.frameOffset = Int64.ofNat slot := by
    rw [← Int64.toInt_inj, Word.toInt_ofNat (by omega), hslot]
    exact Word.add_eq (Word.toInt_ofNat (by omega)) rfl (by omega)
  exact h.results_pushVar hx hlevel hframe haddress hA.admits hroom

/-- Code leaves the value of a result on the stack, or stops at its fault. -/
def Computes (A : Activation) (code : List Instr) (words : Nat) (r : Except Fault Value) : Prop :=
  ∀ (pc : Nat) (ds : List Datum) (m : Machine), At A pc ds m → Stands A.code pc code →
    A.top + ds.length + words < A.size →
      Results pc (pc + code.length) (fun v => At A (pc + code.length) (v.datum :: ds)) m r

namespace Computes

variable {A : Activation} {code code' last : List Instr} {words words' : Nat} {r r' : Except Fault Value}

theorem literal (hA : A.Still) (v : Value) : Computes A [{ op := .push, arg := v.datum }] 1 (.ok v) := by
  intro pc ds m hat hstands hroom
  exact hat.results_push hstands.head (hA.admits _) hroom

/-- The address of a variable, and then the word there. -/
theorem load (hA : A.Still) {v : Variable} {slot : Nat} (hlies : v.LiesAt A.frames slot) (hnear : v.hops ≤ 127)
    {w : Value} (hword : A.word? slot = some w.datum) : Computes A [v.address, Opcode.eval.withInt 1] 1 (.ok w) := by
  intro pc ds m hat hstands hroom
  obtain ⟨htop, hfrozen⟩ := Activation.word?_eq_some hword
  have hpush := hat.results_address hA hstands.head hlies hnear htop hroom
  have hpush : Results pc (pc + 2) _ m _ := hpush.mono ⟨Nat.le_refl _, Nat.le_succ _⟩
  show Results _ _ _ m ((.ok (.address (Int64.ofNat slot)) : Except Fault Datum) >>= fun _ => .ok w)
  refine hpush.bind fun d m' hd hat' => ?_
  cases hd
  have heval := hat'.results_eval hstands.tail.head hlies.1 htop (hA.fixed slot)
  rw [hfrozen] at heval
  exact (heval.mono ⟨Nat.le_succ _, Nat.le_refl _⟩).of_map (r := .ok w)

/-- An operation on the value of a phrase. -/
theorem unary (hA : A.Still) {next : Value → Except Fault Value} (h : Computes A code words r)
    (hop : ∀ v, r = .ok v → ∃ op : UnaryOp,
      last = [{ op := .unary op }] ∧ op.apply v.datum = (next v).map Value.datum) :
    Computes A (code ++ last) words (r >>= next) := by
  intro pc ds m hat hstands hroom
  refine ((h pc ds m hat hstands.left hroom).mono ⟨Nat.le_refl _, by rw [length_append]; omega⟩).bind ?_
  intro v m' hv hat'
  obtain ⟨op, rfl, happly⟩ := hop v hv
  have hresult := hat'.results_unary hstands.right.head hA.admits
  rw [happly] at hresult
  rw [length_append, length_singleton, ← Nat.add_assoc]
  exact (hresult.mono ⟨Nat.le_add_right _ _, Nat.le_refl _⟩).of_map

/-- An operation on the values of two phrases. The first one stays on the stack while the second one is computed. -/
theorem binary (hA : A.Still) {next : Value → Value → Except Fault Value} (h : Computes A code words r)
    (h' : Computes A code' words' r') (hop : ∀ a b, r = .ok a → r' = .ok b → ∃ op : BinaryOp,
      last = [{ op := .binary op }] ∧ op.apply a.datum b.datum = (next a b).map Value.datum) :
    Computes A (code ++ code' ++ last) (max words (words' + 1)) (do
      let a ← r
      let b ← r'
      next a b) := by
  intro pc ds m hat hstands hroom
  simp only [length_append]
  have hfirst := h pc ds m hat hstands.left.left (by omega)
  refine (hfirst.mono (by omega)).bind fun a m' ha hat' => ?_
  have hsecond := h' _ _ m' hat' hstands.left.right (by rw [length_cons]; omega)
  refine (hsecond.mono (by omega)).bind fun b m'' hb hat'' => ?_
  obtain ⟨op, rfl, happly⟩ := hop a b ha hb
  have hlast := hstands.right.head
  rw [length_append, ← Nat.add_assoc] at hlast
  have hresult := hat''.results_binary hlast hA.admits
  rw [happly] at hresult
  rw [length_singleton, ← Nat.add_assoc, ← Nat.add_assoc]
  exact (hresult.mono (by omega)).of_map

end Computes

end Machine

namespace Parser

/-- A name stands for a value: it is a constant, or a variable that lies in one of the frames and holds the value. -/
inductive State.Denotes (s : State) (frames : List Nat) (word? : Nat → Option Datum) (x : Text) (v : Value) : Prop where
  | constant {e : Scope.Entry Declaration} (found : s.scope.lookup x = .ok e)
    (value : e.value = .constant v.datum v.type)
  | stored {e : Scope.Entry Declaration} {offset : Int64} {slot : Nat} (found : s.scope.lookup x = .ok e)
    (value : e.value = .variable offset v.type)
    (lies : Variable.LiesAt { hops := s.level - e.level, offset, type := v.type } frames slot)
    (word : word? slot = some v.datum)

/-- A name that, if it is one of a variable, is declared at most 127 blocks further out. -/
def State.Near (s : State) (x : Text) : Prop :=
  ∀ e offset type, s.scope.lookup x = .ok e → e.value = .variable offset type → s.level - e.level ≤ 127

/-- The analysis of a phrase gives code that computes its value, which is of the type that was found. -/
def Implements (s : State) {r : Rank} (φ : Phrase r) (o : Operand) : Prop :=
  ∀ (A : Machine.Activation) (values : Text → Value), A.Still →
    (∀ x ∈ φ.names, s.Near x ∧ s.Denotes A.frames A.word? x (values x)) →
      ResultOf o.type (φ.eval values) ∧
        ∀ entries, Machine.Computes A (instrs (o.expr.code entries)) φ.words (φ.eval values)

end Parser

end MiniPascal
