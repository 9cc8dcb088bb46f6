import Mathlib.Logic.Function.Basic
import MiniPascal.Proofs.Machine.Passage

/-!
# Machines in the statements of a block

While the statements of a block run, the code, the frames and the height of the stack stay the same. What is in the
words of the stack is kept apart from them, as a store.
-/

namespace MiniPascal.Machine

/-- The words of the stack by their addresses. -/
abbrev Store := Nat → Option Datum

def stack (m : Machine) : Store := fun a => if a ≤ m.sp.toInt then m.mem[a]? else none

def Store.Links (σ : Store) (top : Nat) (frames : List Nat) : Prop :=
  Linked (fun a => (σ a).getD (.integer 0)) (fun _ => False) top frames

/-- A word that is no address is none of the links. -/
theorem Store.Links.apart {σ : Store} {top : Nat} {frames : List Nat} (h : σ.Links top frames) {slot : Nat}
    (hslot : ∀ a, σ slot ≠ some (.address a)) :
    Linked (fun a => (σ a).getD (.integer 0)) (fun a => a = slot) top frames := by
  induction frames with
  | nil => trivial
  | cons f outer ih =>
    obtain ⟨hpos, hle, -, hlink, hrest⟩ := h
    refine ⟨hpos, hle, ?_, hlink, ih hrest⟩
    rintro rfl
    have hlink : (σ f).getD (.integer 0) = _ := hlink
    cases hword : σ f with
    | none =>
      rw [hword] at hlink
      cases hlink
    | some d =>
      rw [hword] at hlink
      exact hslot _ (hword.trans (congrArg some hlink))

/-- The code, the room for the stack, the frames of the active blocks, and the height of the stack between two
statements. -/
structure Setting where
  code : Array Instr
  size : Nat
  fp : Nat
  outer : List Nat
  top : Nat
  code_le : code.size ≤ 2 ^ 48
  size_le : size ≤ 2 ^ 62

namespace Setting

/-- The frames of the active blocks, innermost first. -/
def frames (S : Setting) : List Nat := S.fp :: S.outer

/-- A store of the stack, with its links. -/
structure Admits (S : Setting) (σ : Store) : Prop where
  words : ∀ a, (σ a).isSome = true ↔ a ≤ S.top
  links : σ.Links S.top S.frames

def activation (S : Setting) {σ : Store} (h : S.Admits σ) : Activation :=
  { S with
    writable := fun _ => False
    frozen := fun a => (σ a).getD (.integer 0)
    admits := fun _ => True
    below := fun _ => False.elim
    linked := h.links }

/-- A machine at an address, with a store and some words above it. -/
def In (S : Setting) (σ : Store) (pc : Nat) (ds : List Datum) (m : Machine) : Prop :=
  ∃ h : S.Admits σ, At (S.activation h) pc ds m

variable {S : Setting} {σ : Store} {pc : Nat} {ds : List Datum} {m : Machine}

theorem In.getElem? (h : S.In σ pc ds m) {a : Nat} (ha : a ≤ S.top) : m.mem[a]? = σ a := by
  obtain ⟨hσ, hat⟩ := h
  obtain ⟨d, hd⟩ := Option.isSome_iff_exists.mp ((hσ.words a).mpr ha)
  rw [hat.frozen a ha id]
  show some ((σ a).getD _) = σ a
  rw [hd]
  rfl

theorem In.stack_eq (h : S.In σ pc [] m) : m.stack = σ := by
  obtain ⟨hσ, hat⟩ := h
  have hsp : m.sp.toInt = S.top := hat.sp
  ext1 a
  unfold stack
  rw [hsp]
  split
  · next hle => exact In.getElem? ⟨hσ, hat⟩ (by omega)
  · next hgt =>
    have hnone := mt (hσ.words a).mp (by omega)
    rw [Option.not_isSome_iff_eq_none] at hnone
    exact hnone.symm

/-- A word that is no address may change. -/
theorem Admits.update (h : S.Admits σ) {slot : Nat} (hle : slot ≤ S.top) (hslot : ∀ a, σ slot ≠ some (.address a))
    (d : Datum) : S.Admits (Function.update σ slot (some d)) where
  words a := by
    by_cases ha : a = slot
    · subst ha
      rw [Function.update_self]
      exact ⟨fun _ => hle, fun _ => rfl⟩
    · rw [Function.update_of_ne ha]
      exact h.words a
  links := by
    refine (h.links.apart hslot).mono (Nat.le_refl _) fun a _ ha => ⟨id, ?_⟩
    rw [Function.update_of_ne ha]

/-- A word is stored at an address where no link is. -/
theorem In.assign {slot : Nat} {d : Datum} (h : S.In σ pc [d, .address (Int64.ofNat slot)] m)
    (hx : S.code[pc]? = some (Opcode.assign.withInt 1)) (hpos : 1 ≤ slot) (hle : slot ≤ S.top)
    (hslot : ∀ a, σ slot ≠ some (.address a)) :
    ∃ m', Passes pc (pc + 1) 1 m m' ∧ S.In (Function.update σ slot (some d)) (pc + 1) [] m' := by
  obtain ⟨hσ, hat⟩ := h
  let A : Activation := { S.activation hσ with
    writable := fun a => a = slot
    below := fun a ha => ha ▸ hle
    linked := hσ.links.apart hslot }
  have hatA : At A pc [d, .address (Int64.ofNat slot)] m :=
    ⟨hat.code, hat.stackSize, hat.memory, hat.pc, hat.fp, hat.sp, hat.room, fun a ha _ => hat.frozen a ha id,
      hat.temporary, hat.data⟩
  have hplace : A.Place slot [d].length := ⟨hpos, fun i hi => by
    have : i = 0 := by simpa using hi
    subst this
    rfl⟩
  obtain ⟨hnext, hstep⟩ := hatA.step_eq hx (n := 2) rfl (by simp)
  have hwords : At A (pc + 1) ([d] ++ .address (Int64.ofNat slot) :: []) m.advance := hnext
  obtain ⟨m', hassign, hat', hmem⟩ := hwords.assign (n := 1) rfl (Nat.le_refl 1) hplace
  have hpass : Passes pc (pc + 1) 1 m m' := by
    refine ⟨hat.within, ?_, ?_⟩
    · rw [hstep]
      exact congrArg Prod.fst hassign
    · rw [hstep]
      exact congrArg Prod.snd hassign
  refine ⟨m', hpass, hσ.update hle hslot d, hat'.code, hat'.stackSize, hat'.memory, hat'.pc, hat'.fp, hat'.sp, hat'.room,
    fun a ha _ => ?_, trivial, hat'.data⟩
  show m'.mem[a]? = some ((Function.update σ slot (some d) a).getD _)
  by_cases heq : a = slot
  · subst heq
    have htop : m.mem[S.top + 1 + 1]? = some d := hat.temporary.1
    have hmemory : S.top + 2 < m.mem.size := Nat.lt_of_lt_of_le hat.room hat.memory
    rw [Function.update_self, hmem]
    show (move m.mem a (S.top + 0 + 2) 1)[a]? = _
    rw [getElem?_move (by omega) (by omega), if_pos ⟨Nat.le_refl a, Nat.lt_succ_self a⟩, Nat.sub_self]
    exact htop
  · rw [Function.update_of_ne heq]
    exact hat'.frozen a ha heq

end Setting

/-- The links of a machine lead from the running frame through the frames around it, and there is room for more words
on the stack. -/
structure Poised (m : Machine) (frames : List Nat) (words : Nat) : Prop where
  running : frames.head? = some m.fp.toInt.toNat
  links : m.stack.Links m.sp.toInt.toNat frames
  room : m.sp.toInt + words < m.stackSize.toInt
  memory : m.stackSize.toInt ≤ m.mem.size
  size_le : m.stackSize.toInt ≤ 2 ^ 62
  code_le : m.code.size ≤ 2 ^ 48

theorem Poised.exists_setting {m : Machine} {frames : List Nat} {words : Nat} (h : m.Poised frames words) {pc : Nat}
    (hpc : m.pc.toInt = pc) : ∃ S : Setting, S.code = m.code ∧ S.frames = frames ∧ S.top + words < S.size ∧
      S.In m.stack pc [] m := by
  obtain ⟨fp, outer, rfl⟩ := List.exists_cons_of_ne_nil (l := frames) (by
    rintro rfl
    cases h.running)
  have hfp : fp = m.fp.toInt.toNat := Option.some.inj h.running
  obtain ⟨hpos, hle, -⟩ := h.links
  have hroom := h.room
  have hmemory := h.memory
  have hsize := h.size_le
  let S : Setting := ⟨m.code, m.stackSize.toInt.toNat, fp, outer, m.sp.toInt.toNat, h.code_le, by omega⟩
  have hwords (a : Nat) : (m.stack a).isSome = true ↔ a ≤ m.sp.toInt.toNat := by
    unfold stack
    split
    · next ha =>
      rw [Array.getElem?_eq_getElem (by omega)]
      exact ⟨fun _ => by omega, fun _ => rfl⟩
    · next ha => exact ⟨fun h => (Bool.false_ne_true h).elim, fun _ => by omega⟩
  refine ⟨S, rfl, rfl, ?_, ⟨hwords, h.links⟩, rfl, ?_, ?_, hpc, ?_, ?_, ?_, ?_, trivial, fun _ _ _ => trivial⟩
  · show m.sp.toInt.toNat + words < m.stackSize.toInt.toNat
    omega
  · show m.stackSize.toInt = (m.stackSize.toInt.toNat : Nat)
    omega
  · show m.stackSize.toInt.toNat ≤ m.mem.size
    omega
  · show m.fp.toInt = (fp : Nat)
    omega
  · show m.sp.toInt = (m.sp.toInt.toNat : Nat) + (0 : Nat)
    omega
  · show m.sp.toInt.toNat + 0 < m.stackSize.toInt.toNat
    omega
  · intro a ha _
    have hle : a ≤ m.sp.toInt := by
      have : a ≤ m.sp.toInt.toNat := ha
      omega
    show m.mem[a]? = some ((m.stack a).getD _)
    unfold stack
    rw [if_pos hle, Array.getElem?_eq_getElem (by omega)]
    rfl

end MiniPascal.Machine
