import MiniPascal.Proofs.Machine.Activation

/-!
# Calls and returns

A call opens a frame above the arguments and an activation of its own, in which everything below the
arguments is fixed that was fixed before. Reserving local variables extends the activation. A return
finds the caller as the call left it, apart from variables.
-/

namespace MiniPascal.Machine

open Int64

/-- Frames stay linked if what is fixed stays fixed. -/
theorem Linked.mono {frozen frozen' : Nat → Datum} {writable writable' : Nat → Prop} {top top' : Nat}
    {frames : List Nat} (h : Linked frozen writable top frames) (htop : top ≤ top')
    (hkept : ∀ a ≤ top, ¬writable a → ¬writable' a ∧ frozen' a = frozen a) : Linked frozen' writable' top' frames := by
  induction frames with
  | nil => trivial
  | cons f outer ih =>
    obtain ⟨hpos, hle, hfixed, hlink, hrest⟩ := h
    obtain ⟨hfixed', hsame⟩ := hkept f hle hfixed
    exact ⟨hpos, Nat.le_trans hle htop, hfixed', hsame.trans hlink, ih hrest⟩

theorem Linked.drop {frozen : Nat → Datum} {writable : Nat → Prop} {top : Nat} {frames : List Nat}
    (h : Linked frozen writable top frames) (k : Nat) : Linked frozen writable top (frames.drop k) := by
  induction frames generalizing k with
  | nil => rwa [List.drop_nil]
  | cons f outer ih =>
    cases k with
    | zero => exact h
    | succ k => exact ih h.2.2.2.2 k

def Activation.extend (A : Activation) (k : Nat) : Activation :=
  { A with
    top := A.top + k
    writable := fun a => A.writable a ∨ A.top < a ∧ a ≤ A.top + k
    below := by
      rintro a (ha | ha)
      · exact Nat.le_add_right_of_le (A.below a ha)
      · exact ha.2
    linked := by
      refine A.linked.mono (Nat.le_add_right _ _) fun a ha hw => ⟨?_, rfl⟩
      rintro (h | h)
      · exact hw h
      · omega }

theorem At.extend_zero {A : Activation} {pc : Nat} {m : Machine} (h : At A pc [] m) : At (A.extend 0) pc [] m where
  code := h.code
  stackSize := h.stackSize
  memory := h.memory
  pc := h.pc
  fp := h.fp
  sp := h.sp
  room := h.room
  frozen a ha hw := h.frozen a ha fun hwritable => hw (.inl hwritable)
  temporary := trivial
  data := h.data

/-- Words for variables are reserved; what they hold is not known. -/
theorem At.enter {A : Activation} {pc : Nat} {m : Machine} (h : At A pc [] m) {n : Int64} {k : Nat}
    (hn : n.toInt = k) (hk : k < 2 ^ 48) :
    if A.top + k < A.size then Yields (A.extend k) pc [] (m.enter (.integer n))
    else m.enter (.integer n) = refuse .stackOverflow m := by
  have hsp : m.sp.toInt = A.top := h.sp
  have hsize : A.top < 2 ^ 62 := h.size_le
  have hend := Word.add_eq hsp hn (by omega)
  unfold Machine.enter
  show if _ then Yields (A.extend k) pc [] (if n < 0 then _ else if m.sp + n ≥ m.stackSize then _ else _)
    else (if n < 0 then _ else if m.sp + n ≥ m.stackSize then _ else _) = _
  have hpos : ¬n < 0 := by
    rw [lt_iff_toInt_lt, hn, Word.toInt_zero]
    omega
  rw [if_neg hpos]
  split
  · next hroom =>
    rw [if_neg]
    · refine ⟨rfl, h.code, h.stackSize, h.memory, h.pc, h.fp, hend, hroom, ?_, trivial, h.data⟩
      intro a ha hw
      refine h.frozen a ?_ fun hwritable => hw (.inl hwritable)
      exact Nat.le_of_not_lt fun hlt => hw (.inr ⟨hlt, ha⟩)
    · rw [ge_iff_le, le_iff_toInt_le, hend, h.stackSize]
      omega
  · rw [if_pos]
    rw [ge_iff_le, le_iff_toInt_le, hend, h.stackSize]
    omega

/-- Reserving words stores nothing. -/
theorem mem_enter (m : Machine) (arg : Datum) : (m.enter arg).2.mem = m.mem := by
  unfold Machine.enter
  split
  · split
    · rfl
    · split <;> rfl
  · rfl

def header (base old : Int64) (back : Int64) : List Datum :=
  [.address base, .address old, .integer back, .integer 0]

theorem call_eq {m : Machine} {level : Int8} {base : Int64} {s : Nat}
    (hbase : m.frameAt level = .ok base) (hsp : m.sp.toInt = s) (hs : s < 2 ^ 62)
    (hroom : (s + 4 : Int) < m.stackSize.toInt) (hmemory : m.stackSize.toInt ≤ m.mem.size) (entry : Int64) :
    ∃ m', m.call level entry = (.success, m') ∧ m'.code = m.code ∧ m'.stackSize = m.stackSize ∧
      m'.mem = blit m.mem (s + 1) (header base m.fp m.pc) ∧ m'.pc = entry ∧ m'.fp.toInt = s + 1 ∧
      m'.sp.toInt = s + 4 := by
  have hcount : (m.sp + FrameSlot.count).toInt = s + 4 :=
    Word.add_eq hsp (y := 4) rfl (by omega)
  have hfp : (m.sp + 1).toInt = s + 1 := Word.add_eq hsp Word.toInt_one (by omega)
  have hslot (slot : FrameSlot) {k : Nat} (hk : slot.offset.toInt = k) (hle : k ≤ 3) :
      (m.sp + 1 + slot.offset).toInt = (s + 1 + k : Nat) :=
    Word.add_eq hfp hk (by omega)
  have hread : (m.read? (m.sp + 1)).isNone = false := by
    rw [read?_eq (n := s + 1) hfp, Array.getElem?_eq_getElem (by omega)]
    rfl
  obtain ⟨mem, hmem⟩ : ∃ mem, mem = blit m.mem (s + 1) (header base m.fp m.pc) := ⟨_, rfl⟩
  refine ⟨{ m with mem, sp := m.sp + FrameSlot.count, fp := m.sp + 1, pc := entry }, ?_, rfl, rfl, hmem, rfl, hfp,
    hcount⟩
  unfold Machine.call
  rw [hbase]
  show (if m.sp + FrameSlot.count ≥ m.stackSize then _ else
    if (m.read? (m.sp + 1)).isNone = true then _ else _) = _
  rw [if_neg, if_neg (by rw [hread]; simp)]
  · unfold write
    rw [hslot .base (k := 0) rfl (by omega), hslot .oldFrame (k := 1) rfl (by omega),
      hslot .returnAddress (k := 2) rfl (by omega), hslot .result (k := 3) rfl (by omega)]
    simp only [hmem, header, blit, Int.toNat_natCast, Nat.add_assoc, Nat.reduceAdd]
    rfl
  · rw [ge_iff_le, le_iff_toInt_le, hcount]
    omega

def Activation.Fixed (A : Activation) (mem : Array Datum) : Prop :=
  ∀ a ≤ A.top, ¬A.writable a → mem[a]? = some (A.frozen a)

/-- An activation was opened by a call in another one, which goes on at an address with given temporary words.
The call took some words as arguments, and the frame was found a number of blocks further out. -/
structure Opens (A : Activation) (ds : List Datum) (back params hops : Nat) (A' : Activation) : Prop where
  code : A'.code = A.code
  size : A'.size = A.size
  admits : A'.admits = A.admits
  fp : A'.fp = A.top + ds.length + params + 1
  outer : A'.outer = (A.fp :: A.outer).drop hops
  top : A'.fp + 3 ≤ A'.top
  wider : ∀ a, A.writable a → A'.writable a
  arguments : ∀ a, A.top + ds.length < a → a < A'.fp → A'.writable a
  locals : ∀ a, A'.fp + 3 ≤ a → a ≤ A'.top → A'.writable a
  /-- The caller is as the call left it, apart from variables. -/
  kept : ∀ mem, A'.Fixed mem → A.Fixed mem ∧ Stacked mem A.top ds ∧
    mem[A'.fp + 1]? = some (.address (Int64.ofNat A.fp)) ∧ mem[A'.fp + 2]? = some (.integer (Int64.ofNat back))

theorem Activation.fixed_extend {A : Activation} {k : Nat} {mem : Array Datum} :
    (A.extend k).Fixed mem ↔ A.Fixed mem := by
  constructor
  · intro h a ha hw
    refine h a (Nat.le_add_right_of_le ha) ?_
    rintro (hwritable | ⟨hlt, -⟩)
    · exact hw hwritable
    · omega
  · intro h a ha hw
    refine h a ?_ fun hwritable => hw (.inl hwritable)
    exact Nat.le_of_not_lt fun hlt => hw (.inr ⟨hlt, ha⟩)

theorem Opens.extend {A A' : Activation} {ds : List Datum} {back params hops : Nat}
    (h : Opens A ds back params hops A') (htop : A'.top = A'.fp + 3) (k : Nat) :
    Opens A ds back params hops (A'.extend k) where
  code := h.code
  size := h.size
  admits := h.admits
  fp := h.fp
  outer := h.outer
  top := Nat.le_add_right_of_le h.top
  wider a ha := .inl (h.wider a ha)
  arguments a hlower hupper := .inl (h.arguments a hlower hupper)
  locals a hlower hupper := by
    by_cases hle : a ≤ A'.top
    · exact .inl (h.locals a hlower hle)
    · exact .inr ⟨by omega, hupper⟩
  kept mem hmem := h.kept mem (Activation.fixed_extend.mp hmem)

/-- The activation of a call above some temporary words and some arguments, in which everything else is fixed as it
is in a memory. -/
def Activation.opened (A : Activation) (temps params hops : Nat) {mem : Array Datum} (hfixed : A.Fixed mem)
    (hlink : mem[A.top + temps + params + 1]? =
      some (.address (Int64.ofNat (((A.fp :: A.outer).drop hops).headD 1)))) : Activation where
  code := A.code
  size := A.size
  fp := A.top + temps + params + 1
  outer := (A.fp :: A.outer).drop hops
  top := A.top + temps + params + 4
  writable a := A.writable a ∨ A.top + temps < a ∧ a ≤ A.top + temps + params ∨ a = A.top + temps + params + 4
  frozen a := (mem[a]?).getD (.integer 0)
  admits := A.admits
  code_le := A.code_le
  size_le := A.size_le
  below := by
    rintro a (hwritable | hwritable | hwritable)
    · exact Nat.le_trans (A.below a hwritable) (by omega)
    · omega
    · omega
  linked := by
    refine ⟨by omega, by omega, ?_, by show (mem[_]?).getD _ = _; rw [hlink]; rfl, ?_⟩
    · rintro (hwritable | hwritable | hwritable)
      · exact absurd (A.below _ hwritable) (by omega)
      · omega
      · omega
    · refine (A.linked.drop hops).mono (by omega) fun a ha hw => ⟨?_, ?_⟩
      · rintro (hwritable | hwritable | hwritable)
        · exact hw hwritable
        · omega
        · omega
      · show (mem[a]?).getD _ = _
        rw [hfixed a ha hw]
        rfl

section

variable {A : Activation} {ds : List Datum} {back params hops : Nat} {mem : Array Datum} (hfixed : A.Fixed mem)
  (hlink : mem[A.top + ds.length + params + 1]? = some (.address (Int64.ofNat (((A.fp :: A.outer).drop hops).headD 1))))
  (hsize : A.top + ds.length + params + 4 < mem.size)

include hsize

theorem Activation.fixed_opened : (A.opened ds.length params hops hfixed hlink).Fixed mem := by
  intro a ha _
  have hle : a ≤ A.top + ds.length + params + 4 := ha
  show mem[a]? = some ((mem[a]?).getD _)
  rw [Array.getElem?_eq_getElem (by omega)]
  rfl

theorem Activation.opens_opened (htemps : Stacked mem A.top ds)
    (hold : mem[A.top + ds.length + params + 2]? = some (.address (Int64.ofNat A.fp)))
    (hback : mem[A.top + ds.length + params + 3]? = some (.integer (Int64.ofNat back))) :
    Opens A ds back params hops (A.opened ds.length params hops hfixed hlink) where
  code := rfl
  size := rfl
  admits := rfl
  fp := rfl
  outer := rfl
  top := Nat.le_refl _
  wider _ ha := .inl ha
  arguments a hlower hupper := .inr (.inl ⟨hlower, Nat.le_of_lt_succ hupper⟩)
  locals a hlower hupper := .inr (.inr (Nat.le_antisymm hupper hlower))
  kept mem' hmem' := by
    have hsame (a : Nat) (ha : a ≤ A.top + ds.length ∧ (a ≤ A.top → ¬A.writable a) ∨
        A.top + ds.length + params < a ∧ a < A.top + ds.length + params + 4) : mem'[a]? = mem[a]? := by
      have hopened := fixed_opened hfixed hlink hsize
      have hle : a ≤ A.top + ds.length + params + 4 := by omega
      have hw : ¬(A.opened ds.length params hops hfixed hlink).writable a := by
        rintro (hwritable | hwritable | hwritable)
        · have := A.below a hwritable
          rcases ha with ha | ha
          · exact ha.2 this hwritable
          · omega
        · omega
        · omega
      rw [hmem' a hle hw, hopened a hle hw]
    refine ⟨fun a ha hw => ?_, htemps.congr fun a hlower hupper => ?_, ?_, ?_⟩
    · rw [hsame a (.inl ⟨by omega, fun _ => hw⟩)]
      exact hfixed a ha hw
    · exact hsame a (.inl ⟨hupper, by omega⟩)
    · exact (hsame (A.top + ds.length + params + 2) (.inr ⟨by omega, by omega⟩)).trans hold
    · exact (hsame (A.top + ds.length + params + 3) (.inr ⟨by omega, by omega⟩)).trans hback

end

section

variable {A : Activation} {back k : Nat} {args ds : List Datum} {m : Machine} {level : Int8} {entry : Int64}

/-- A call opens an activation, unless the stack is full. -/
theorem At.call (h : At A back (args ++ ds) m) (hlevel : level.toInt = k) (hk : k ≤ A.outer.length + 1)
    {e : Nat} (hentry : entry.toInt = e) (haddress : ∀ a, A.admits (.address a))
    (hback : A.admits (.integer m.pc)) (hzero : A.admits (.integer 0)) :
    if A.top + (args ++ ds).length + 4 < A.size then
      ∃ A' m', m.call level entry = (.success, m') ∧ At A' e [] m' ∧ Opens A ds back args.length k A' ∧
        A'.top = A'.fp + 3 ∧ (∀ a ≤ A.top + (args ++ ds).length, m'.mem[a]? = m.mem[a]?) ∧
        m'.mem[A'.fp + 3]? = some (.integer 0) else m.call level entry = refuse .stackOverflow m := by
  have hbase := h.frameAt hlevel hk
  have hsize := h.size_le
  have hmemory := h.memory
  have hsp : m.sp.toInt = (A.top + (args ++ ds).length : Nat) := by
    rw [h.sp]
    omega
  split
  · next hroom =>
    obtain ⟨m', heq, hcode, hstackSize, hmem, hpc, hfp, hsp'⟩ := call_eq hbase hsp (by omega)
      (by rw [h.stackSize]; omega) (by rw [h.stackSize]; omega) entry
    have hlength : A.top + (args ++ ds).length = A.top + ds.length + args.length := by
      rw [List.length_append]
      omega
    have hsize' : m'.mem.size = m.mem.size := by rw [hmem, size_blit]
    have hheader (i : Nat) (hi : i < 4) : m'.mem[A.top + ds.length + args.length + 1 + i]? =
        (header (Int64.ofNat (((A.fp :: A.outer).drop k).headD 1)) m.fp m.pc)[i]? := by
      rw [hmem, hlength, getElem?_blit (by show _ + 4 ≤ _; omega) hi]
    have hbelow (a : Nat) (ha : a ≤ A.top + (args ++ ds).length) : m'.mem[a]? = m.mem[a]? := by
      rw [hmem, getElem?_blit_of_outside (by omega)]
    have hfixed : A.Fixed m'.mem := fun a ha hw => by
      rw [hbelow a (by omega)]
      exact h.frozen a ha hw
    have hlink := hheader 0 (by decide)
    refine ⟨A.opened ds.length args.length k hfixed hlink, m', heq, ?_, ?_, rfl, hbelow, hheader 3 (by decide)⟩
    · refine ⟨hcode.trans h.code, ?_, ?_, ?_, ?_, ?_, ?_, ?_, trivial, ?_⟩
      · rw [hstackSize]
        exact h.stackSize
      · rw [hsize']
        exact hmemory
      · rw [hpc, hentry]
      · rw [hfp, hlength]
        rfl
      · rw [hsp', hlength]
        rfl
      · show A.top + ds.length + args.length + 4 + 0 < A.size
        omega
      · exact Activation.fixed_opened hfixed hlink (by omega)
      · show ∀ (a : Nat) (d : Datum), m'.mem[a]? = some d → A.admits d
        rw [hmem]
        refine blit_data ?_ h.data
        simp [header, haddress, hback, hzero]
    · refine Activation.opens_opened hfixed hlink (by omega) (h.temporary.append.congr fun a _ ha => ?_) ?_ ?_
      · exact hbelow a (by omega)
      · rw [hheader 1 (by decide), h.fp_eq]
        rfl
      · rw [hheader 2 (by decide), h.pc_eq]
        rfl
  · next hfull =>
    have hcount : (m.sp + FrameSlot.count).toInt = (A.top + (args ++ ds).length + 4 : Nat) :=
      Word.add_eq hsp (y := 4) rfl (by omega)
    unfold Machine.call
    rw [hbase]
    show (if m.sp + FrameSlot.count ≥ m.stackSize then _ else _) = _
    rw [if_pos]
    rw [ge_iff_le, le_iff_toInt_le, hcount, h.stackSize]
    omega

end

theorem ret_eq {m : Machine} {f params : Nat} {n old back : Int64} {r : Datum} (hn : n.toInt = params)
    (hfp : m.fp.toInt = f) (hroom : params < f) (hsp : (f + 3 : Int) ≤ m.sp.toInt) (hf : f < 2 ^ 62)
    (hold : m.mem[f + 1]? = some (.address old)) (hback : m.mem[f + 2]? = some (.integer back))
    (hr : m.mem[f + 3]? = some r) (function : Bool) :
    ∃ sp : Int64, sp.toInt = f - 1 - params ∧ m.ret (.integer n) function =
      if function then push { m with sp, fp := old, pc := back } r else done { m with sp, fp := old, pc := back } := by
  have hslot (slot : FrameSlot) {k : Nat} (hk : slot.offset.toInt = k) (hle : k ≤ 3) :
      (m.fp + slot.offset).toInt = (f + k : Nat) := Word.add_eq hfp hk (by omega)
  have hpred : (m.fp - 1).toInt = f - 1 := Word.sub_eq hfp Word.toInt_one (by omega)
  have hend : (m.fp - 1 - n).toInt = f - 1 - params := Word.sub_eq hpred hn (by omega)
  refine ⟨m.fp - 1 - n, hend, ?_⟩
  unfold Machine.ret
  dsimp only
  rw [if_neg, if_neg, read?_eq (hslot .returnAddress (k := 2) rfl (by omega)), hback]
  dsimp only
  rw [read?_eq (hslot .oldFrame (k := 1) rfl (by omega)), hold]
  dsimp only
  rw [read?_eq (hslot .result (k := 3) rfl (by omega)), hr]
  dsimp only
  rw [if_neg]
  · rw [lt_iff_toInt_lt, hend, Word.toInt_zero]
    omega
  · simp only [Bool.or_eq_true, decide_eq_true_eq, gt_iff_lt, lt_iff_toInt_lt,
      hslot .result (k := 3) rfl (by omega), hfp, Word.toInt_one]
    omega
  · rw [lt_iff_toInt_lt, hn, Word.toInt_zero]
    omega

/-- A return leads back to the caller, with the result slot as it is. -/
theorem At.ret {A A' : Activation} {ds : List Datum} {pc back params hops : Nat} {m : Machine}
    (h : At A' pc [] m) (hopens : Opens A ds back params hops A') (hback : back < 2 ^ 62) {n : Int64}
    (hn : n.toInt = params) (function : Bool) : ∃ r m', m.mem[A'.fp + 3]? = some r ∧ At A back ds m' ∧ m'.mem = m.mem ∧
      m.ret (.integer n) function = if function then m'.push r else done m' := by
  have hsp : m.sp.toInt = A'.top + 0 := h.sp
  have hroom : A'.top + 0 < A'.size := h.room
  have hmemory := h.memory
  have hsize := A'.size_le
  have htop := hopens.top
  have hfp := hopens.fp
  have hA := A.linked.2.1
  obtain ⟨hfixed, htemps, hold, hreturn⟩ := hopens.kept m.mem h.frozen
  obtain ⟨r, hr⟩ : ∃ r, m.mem[A'.fp + 3]? = some r := ⟨_, Array.getElem?_eq_getElem (by omega)⟩
  obtain ⟨sp, hsp', heq⟩ := ret_eq hn h.fp (by omega) (by omega) (by omega) hold hreturn hr function
  refine ⟨r, { m with sp, fp := Int64.ofNat A.fp, pc := Int64.ofNat back }, hr,
    ⟨h.code.trans hopens.code, ?_, ?_, ?_, ?_, ?_, ?_, hfixed, htemps, ?_⟩, rfl, heq⟩
  · rw [← hopens.size]
    exact h.stackSize
  · rw [← hopens.size]
    exact hmemory
  · exact Word.toInt_ofNat (by omega)
  · exact Word.toInt_ofNat (by omega)
  · show sp.toInt = _
    omega
  · rw [← hopens.size]
    omega
  · rw [← hopens.admits]
    exact h.data

/-! ### The first activation -/

/-- A machine before the first call. -/
structure Fresh (m : Machine) : Prop where
  pc : m.pc = 0
  fp : m.fp = 1
  sp : m.sp = 0
  room : 4 < m.stackSize.toInt
  size : m.stackSize.toInt ≤ 2 ^ 62
  memory : m.stackSize.toInt ≤ m.mem.size

/-- An activation that was opened by the first call, which returns to the next instruction. -/
structure Begins (A : Activation) : Prop where
  fp : A.fp = 1
  outer : A.outer = []
  top : 4 ≤ A.top
  locals : ∀ a, 4 ≤ a → a ≤ A.top → A.writable a
  kept : ∀ mem, A.Fixed mem → mem[2]? = some (.address 1) ∧ mem[3]? = some (.integer 1)

theorem Begins.extend {A : Activation} (h : Begins A) (htop : A.top = 4) (k : Nat) : Begins (A.extend k) where
  fp := h.fp
  outer := h.outer
  top := Nat.le_add_right_of_le h.top
  locals a hlower hupper := by
    by_cases hle : a ≤ A.top
    · exact .inl (h.locals a hlower hle)
    · exact .inr ⟨by omega, hupper⟩
  kept mem hmem := h.kept mem (Activation.fixed_extend.mp hmem)

/-- The first activation, in which everything but the result is fixed as it is in a memory. -/
def Activation.first (code : Array Instr) (size : Nat) (admits : Datum → Prop) (hcode : code.size ≤ 2 ^ 48)
    (hsize : size ≤ 2 ^ 62) {mem : Array Datum} (hlink : mem[1]? = some (.address 1)) : Activation where
  code := code
  size := size
  fp := 1
  outer := []
  top := 4
  writable a := a = 4
  frozen a := (mem[a]?).getD (.integer 0)
  admits := admits
  code_le := hcode
  size_le := hsize
  below a ha := Nat.le_of_eq ha
  linked := by
    refine ⟨by decide, by decide, by decide, ?_, trivial⟩
    show (mem[1]?).getD _ = _
    rw [hlink]
    rfl

theorem Activation.begins_first {code : Array Instr} {size : Nat} {admits : Datum → Prop}
    {hcode : code.size ≤ 2 ^ 48} {hsize : size ≤ 2 ^ 62} {mem : Array Datum}
    {hlink : mem[1]? = some (.address 1)} (hold : mem[2]? = some (.address 1))
    (hback : mem[3]? = some (.integer 1)) : Begins (.first code size admits hcode hsize hlink) where
  fp := rfl
  outer := rfl
  top := Nat.le_refl _
  locals _ hlower hupper := Nat.le_antisymm hupper hlower
  kept mem' hmem' := by
    constructor
    · rw [hmem' 2 (show 2 ≤ 4 by decide) (show ¬2 = 4 by decide)]
      show some ((mem[2]?).getD _) = _
      rw [hold]
      rfl
    · rw [hmem' 3 (show 3 ≤ 4 by decide) (show ¬3 = 4 by decide)]
      show some ((mem[3]?).getD _) = _
      rw [hback]
      rfl

/-- The first call finds room. -/
theorem Fresh.call {m : Machine} (h : Fresh m) (hcode : m.code.size ≤ 2 ^ 48) {admits : Datum → Prop}
    (hdata : ∀ (a : Nat) (d : Datum), m.mem[a]? = some d → admits d) (haddress : admits (.address 1))
    (hone : admits (.integer 1)) (hzero : admits (.integer 0)) {entry : Int64} {e : Nat} (hentry : entry.toInt = e) :
    ∃ A m', m.advance.call 0 entry = (.success, m') ∧ At A e [] m' ∧ Begins A ∧ A.top = 4 ∧
      A.code = m.code ∧ A.admits = admits ∧ m'.mem[0]? = m.mem[0]? ∧ m'.mem[4]? = some (.integer 0) := by
  have hroom := h.room
  have hsize := h.size
  have hmemory := h.memory
  obtain ⟨n, hn⟩ := Int.eq_ofNat_of_zero_le (by omega : 0 ≤ m.stackSize.toInt)
  have hbase : m.advance.frameAt 0 = .ok 1 := congrArg Except.ok h.fp
  have hfp : m.advance.fp = 1 := h.fp
  have hsp : m.advance.sp.toInt = (0 : Nat) := congrArg Int64.toInt h.sp
  have hreturn : m.advance.pc = 1 := by
    show m.pc + 1 = 1
    rw [h.pc]
    rfl
  obtain ⟨m', heq, hcode', hstackSize, hmem, hpc, hfp', hsp'⟩ := call_eq hbase hsp (by decide)
    (by show _ < m.stackSize.toInt; omega) (by show m.stackSize.toInt ≤ m.mem.size; omega) entry
  rw [hreturn, hfp] at hmem
  have hheader (i : Nat) (hi : i < 4) : m'.mem[1 + i]? = (header 1 1 1)[i]? := by
    rw [hmem, getElem?_blit (by show 1 + 4 ≤ m.mem.size; omega) hi]
  have hsize' : m'.mem.size = m.mem.size := by
    rw [hmem, size_blit]
    rfl
  refine ⟨.first m.code n admits hcode (by omega) (hheader 0 (by decide)), m', heq, ?_,
    Activation.begins_first (hheader 1 (by decide)) (hheader 2 (by decide)), rfl, rfl, rfl, ?_,
    hheader 3 (by decide)⟩
  · refine ⟨hcode', hstackSize ▸ hn, by show n ≤ m'.mem.size; omega, by rw [hpc, hentry], hfp', hsp',
      by show 4 + 0 < n; omega, fun a ha _ => ?_, trivial, ?_⟩
    · have hle : a ≤ 4 := ha
      show m'.mem[a]? = some ((m'.mem[a]?).getD _)
      rw [Array.getElem?_eq_getElem (by omega)]
      rfl
    · show ∀ (a : Nat) (d : Datum), m'.mem[a]? = some d → admits d
      rw [hmem]
      refine blit_data ?_ hdata
      simp [header, haddress, hone, hzero]
  · rw [hmem, getElem?_blit_of_outside (by omega)]
    rfl

/-- The return of the first activation leads to the next instruction, with nothing on the stack. -/
theorem At.ret_first {A : Activation} {pc : Nat} {m : Machine} (h : At A pc [] m) (hbegins : Begins A) :
    ∃ m', m.ret (.integer 0) false = (.success, m') ∧ m'.code = m.code ∧ m'.mem = m.mem ∧ m'.pc = 1 ∧ m'.fp = 1 ∧
      m'.sp = 0 := by
  have hsp : m.sp.toInt = A.top + 0 := h.sp
  have hroom : A.top + 0 < A.size := h.room
  have hmemory := h.memory
  have htop := hbegins.top
  have hfp : m.fp.toInt = (1 : Nat) := by
    rw [h.fp, hbegins.fp]
  have hparams : (0 : Int64).toInt = (0 : Nat) := Word.toInt_zero
  obtain ⟨hold, hreturn⟩ := hbegins.kept m.mem h.frozen
  obtain ⟨r, hr⟩ : ∃ r, m.mem[1 + 3]? = some r := ⟨_, Array.getElem?_eq_getElem (by omega)⟩
  obtain ⟨sp, hsp', heq⟩ := ret_eq hparams hfp (by decide) (by omega) (by decide) hold hreturn hr false
  exact ⟨_, heq, rfl, rfl, rfl, rfl, toInt_inj.mp hsp'⟩

end MiniPascal.Machine
