import MiniPascal.Proofs.Machine.Operands

/-!
# Code inside an activation

While the body of a block runs, most of the stack below it is as it was: only variables change. An
activation says what may change and what is fixed, and a state of the machine is described by the words
that are on the stack above the activation. The lemmas say what each operation does to such states.
-/

namespace MiniPascal.Machine

open List Int64 Word

/-- Frames are linked, each to the next one, by words that cannot change. The last link leads to the first
frame of all. -/
def Linked (frozen : Nat → Datum) (writable : Nat → Prop) (top : Nat) : List Nat → Prop
  | [] => True
  | f :: outer => 1 ≤ f ∧ f ≤ top ∧ ¬writable f ∧
    frozen f = .address (ofNat (outer.headD 1)) ∧ Linked frozen writable top outer

/-- What code can rely on while a block is active: the code, the words of the stack, the frame and the
frames around it, the height of the stack without temporary words, which words may change, what the other
words are, and what data there may be. -/
structure Activation where
  code : Array Instr
  size : Nat
  fp : Nat
  outer : List Nat
  top : Nat
  writable : Nat → Prop
  frozen : Nat → Datum
  admits : Datum → Prop
  code_le : code.size ≤ 2 ^ 48
  size_le : size ≤ 2 ^ 62
  below : ∀ a, writable a → a ≤ top
  linked : Linked frozen writable top (fp :: outer)

/-- Words that may change. -/
structure Activation.Place (A : Activation) (t k : Nat) : Prop where
  pos : 1 ≤ t
  writable : ∀ i < k, A.writable (t + i)

variable {k t : Nat}

theorem Activation.Place.le {A : Activation} (h : A.Place t k) (hk : 1 ≤ k) : t + k ≤ A.top + 1 := by
  have := A.below _ (h.writable (k - 1) (by omega))
  omega

/-- A state at an address of the code, with temporary words on the stack. -/
structure At (A : Activation) (pc : Nat) (ds : List Datum) (m : Machine) : Prop where
  code : m.code = A.code
  stackSize : m.stackSize.toInt = A.size
  memory : A.size ≤ m.mem.size
  pc : m.pc.toInt = pc
  fp : m.fp.toInt = A.fp
  sp : m.sp.toInt = A.top + ds.length
  room : A.top + ds.length < A.size
  frozen : ∀ a ≤ A.top, ¬A.writable a → m.mem[a]? = some (A.frozen a)
  temporary : Stacked m.mem A.top ds
  data : ∀ (a : Nat) (d : Datum), m.mem[a]? = some d → A.admits d

/-- An instruction is carried out and leads to a state. -/
def Yields (A : Activation) (pc : Nat) (ds : List Datum) (e : Effect) : Prop :=
  e.1 = .success ∧ At A pc ds e.2

namespace At

variable {A : Activation} {pc : Nat} {ds vs : List Datum} {d : Datum} {m : Machine} {x : Instr} {n : Int64}

section

variable (h : At A pc ds m)

include h

theorem roomy : m.Roomy := by
  have hmemory := h.memory
  have hcode := A.code_le
  exact ⟨by rw [h.stackSize]; omega, by rw [h.code]; omega⟩

/-- The temporary words of a state are operands above the activation. -/
theorem bears : Bears A.admits m A.top pc ds m := by
  have hroom := h.room
  exact ⟨⟨.refl _ m, h.pc, h.sp, by rw [h.stackSize]; omega, h.temporary⟩, h.data⟩

/-- A state that agrees with one in an activation is in the activation too. -/
theorem of_bears {pc' : Nat} {ds' : List Datum} {m' : Machine} (h' : Bears A.admits m A.top pc' ds' m') :
    At A pc' ds' m' where
  code := h'.code_eq.trans h.code
  stackSize := by rw [h'.stackSize_eq, h.stackSize]
  memory := by rw [h'.size_eq]; exact h.memory
  pc := h'.pc
  fp := by rw [h'.agrees.fp, h.fp]
  sp := h'.sp
  room := by
    have hroom := h'.room
    rw [h.stackSize] at hroom
    omega
  frozen a ha hfixed := (h'.agrees.below a ha).trans (h.frozen a ha hfixed)
  temporary := h'.operands
  data := h'.words

theorem of_computed {pc' : Nat} {e : Effect} {r : Except Fault (List Datum)} :
    Computed A.admits m A.top pc' e r →
      match r with
      | .ok ds' => Yields A pc' ds' e
      | .error f => e.1 = .fault f := by
  intro he
  cases r with
  | ok ds' => exact ⟨he.1, h.of_bears he.2⟩
  | error f => exact he.1

theorem exists_room : ∃ room : Nat, A.top + room + 1 = m.stackSize.toInt := h.bears.exists_room

theorem admits_of_mem (hd : d ∈ ds) : A.admits d := by
  obtain ⟨i, hi⟩ := List.getElem?_of_mem hd
  exact h.data _ d (h.temporary.getElem?_sub hi)

/-- The instruction at the address is carried out with the address moved on. -/
theorem step_eq (hx : A.code[pc]? = some x) {n : Nat} (hn : x.op.pops = some n)
    (hle : n ≤ A.top + ds.length) : At A (pc + 1) ds m.advance ∧ m.step = m.advance.execute x := by
  obtain ⟨hat, hstep⟩ := h.bears.step_eq h.roomy (by rw [h.code]; exact hx) hn hle
  exact ⟨h.of_bears ⟨hat, h.data⟩, hstep⟩

theorem push (hd : A.admits d) :
    if A.top + ds.length + 1 < A.size then Yields A pc (d :: ds) (m.push d)
    else (m.push d).1 = .fault .stackOverflow := by
  have hpush := h.of_computed (h.bears.push h.roomy fun _ => hd)
  have hsize := h.stackSize
  split
  · rwa [if_pos (by omega)] at hpush
  · rwa [if_neg (by omega)] at hpush

theorem size_le : A.top + ds.length < 2 ^ 62 :=
  Nat.lt_of_lt_of_le h.room A.size_le

theorem fp_eq : m.fp = ofNat A.fp := by
  have hsize := h.size_le
  have hle := A.linked.2.1
  rw [← toInt_inj, h.fp, toInt_ofNat (by omega)]

theorem pc_eq : m.pc = ofNat pc := by
  have hlt := m.pc.toInt_lt
  rw [h.pc] at hlt
  rw [← toInt_inj, h.pc, toInt_ofNat hlt]

/-- The stack pointer after a change of the stack. -/
theorem sp_sub (hn : n.toInt = k) (hk : k ≤ A.top + ds.length) : (m.sp - n).toInt = (A.top + ds.length - k : Nat) := by
  have hsize := h.size_le
  rw [Word.sub_eq h.sp hn (by omega)]
  omega

/-- The state after words were stored that do not belong to what is fixed. -/
theorem changed {mem : Array Datum} (ds' : List Datum) (hsize : mem.size = m.mem.size)
    (hfrozen : ∀ a ≤ A.top, ¬A.writable a → mem[a]? = m.mem[a]?)
    (hdata : ∀ (a : Nat) (d : Datum), mem[a]? = some d → A.admits d) {sp : Int64}
    (hsp : sp.toInt = A.top + ds'.length) (hroom : A.top + ds'.length < A.size)
    (htemporary : Stacked mem A.top ds') : At A pc ds' { m with mem, sp } where
  code := h.code
  stackSize := h.stackSize
  memory := hsize ▸ h.memory
  pc := h.pc
  fp := h.fp
  sp := hsp
  room := hroom
  frozen a ha hw := (hfrozen a ha hw).trans (h.frozen a ha hw)
  temporary := htemporary
  data := hdata

end

theorem dropped (vs : List Datum) (h : At A pc (vs ++ ds) m) {sp : Int64}
    (hsp : sp.toInt = A.top + ds.length) : At A pc ds { m with sp } := by
  have hroom := h.room
  rw [length_append] at hroom
  exact ⟨h.code, h.stackSize, h.memory, h.pc, h.fp, hsp, by omega, h.frozen, h.temporary.append, h.data⟩

theorem read_top (h : At A pc (d :: ds) m) : m.read? m.sp = some d := by
  have hsp := h.sp
  rw [length_cons] at hsp
  rw [read?_eq (n := A.top + ds.length + 1) (by omega)]
  exact h.temporary.1

theorem sp_pred (h : At A pc (d :: ds) m) : (m.sp - 1).toInt = A.top + ds.length := by
  have := h.sp_sub (n := 1) (k := 1) rfl (by rw [length_cons]; omega)
  rw [length_cons] at this
  omega

/-- Links lead from frame to frame. -/
theorem follow (h : At A pc ds m) {f : Nat} {outer : List Nat}
    (hlinked : Linked A.frozen A.writable A.top (f :: outer)) (hk : k ≤ outer.length + 1) :
    m.follow k (ofNat f) = .ok (ofNat (((f :: outer).drop k).headD 1)) := by
  have hsize := h.size_le
  induction k generalizing f outer with
  | zero => rfl
  | succ k ih =>
    obtain ⟨hpos, htop, hfixed, hlink, hrest⟩ := hlinked
    have hf : (ofNat f).toInt = f := toInt_ofNat (by omega)
    have hvalid : m.valid (ofNat f) 1 = true := by
      refine valid_of_le (k := 1) hf rfl hpos (Nat.le_refl 1) ?_ ?_
      · rw [h.sp]
        omega
      · rw [h.sp]
        omega
    have hread : m.read? (ofNat f + FrameSlot.base.offset) =
        some (.address (ofNat (outer.headD 1))) := by
      have hbase : (ofNat f + FrameSlot.base.offset).toInt = f := by
        show (ofNat f + 0).toInt = f
        rw [Int64.add_zero, hf]
      rw [read?_eq hbase, h.frozen f htop hfixed, hlink]
    unfold Machine.follow
    rw [hvalid, hread]
    cases outer with
    | nil =>
      obtain rfl : k = 0 := by
        rw [length_nil] at hk
        omega
      rfl
    | cons g outer => exact ih hrest (by rw [length_cons] at hk; omega)

theorem frameAt (h : At A pc ds m) {level : Int8} (hlevel : level.toInt = k) (hk : k ≤ A.outer.length + 1) :
    m.frameAt level = .ok (ofNat (((A.fp :: A.outer).drop k).headD 1)) := by
  unfold Machine.frameAt
  rw [hlevel, h.fp_eq]
  exact h.follow A.linked hk

/-- A block below the temporary words can be read. -/
theorem valid (h : At A pc ds m) (hn : n.toInt = k) (hk : 1 ≤ k) (ht : 1 ≤ t) (hle : t + k ≤ A.top + 1) :
    m.valid (ofNat t) n = true := by
  have hsize := h.size_le
  refine valid_of_le (toInt_ofNat (by omega)) hn ht hk ?_ ?_
  · rw [h.sp]
    omega
  · rw [h.sp]
    omega

theorem blockAt (h : At A pc ds m) {slot : Int64} {i : Nat} (hn : n.toInt = k) (hk : 1 ≤ k) (hslot : slot.toInt = i)
    (hi : 1 ≤ i) (hread : m.mem[i]? = some (.address (ofNat t))) (ht : 1 ≤ t) (hle : t + k ≤ A.top + 1) :
    m.blockAt (.integer n) slot = .ok (n, ofNat t) := by
  rw [blockAt_address (by omega) (by omega) ((read?_eq hslot).trans hread)]
  exact if_pos (h.valid hn hk ht hle)

theorem eval_valid (h : At A pc (.address (ofNat t) :: ds) m) (hn : n.toInt = k) (hk : 1 ≤ k)
    (hvalid : m.valid (ofNat t) n = true) (hsource : t + k ≤ m.mem.size)
    (hends : k ≤ 2 ^ 62 ∧ t + k < 2 ^ 63) :
    if A.top + ds.length + k < A.size then
      Yields A pc (blockOf m.mem t k ++ ds) (m.eval (.integer n))
    else m.eval (.integer n) = refuse .stackOverflow m := by
  have hsize := h.size_le
  have hsize_le := A.size_le
  have hmemory := h.memory
  have hsp := h.sp
  have hpred := h.sp_pred
  have hroom := h.room
  rw [length_cons] at hsp hsize hroom
  have hblock : m.blockAt (.integer n) m.sp = .ok (n, ofNat t) :=
    (blockAt_address (by omega) (by omega) h.read_top).trans (if_pos hvalid)
  have hend : (m.sp - 1 + n).toInt = (A.top + ds.length + k : Nat) := by
    rw [Word.toInt_add, hpred, hn]
    · omega
    · rw [hpred, hn]
      constructor <;> omega
  unfold Machine.eval
  rw [hblock]
  show if _ then Yields A pc _ (if m.sp - 1 + n ≥ m.stackSize then _ else _) else
    (if m.sp - 1 + n ≥ m.stackSize then _ else _) = _
  split
  · next hfits =>
    have hlength : (blockOf m.mem t k).length = k := length_blockOf (by omega)
    rw [if_neg, copyBlock_eq (t := A.top + ds.length + 1) (s := t) (k := k) (by omega)
      (toInt_ofNat (by omega)) hn (by show _ ≤ m.mem.size; omega) (by show _ ≤ m.mem.size; omega) (by omega)]
    · have hdropped : At A pc ds { m with sp := m.sp - 1 } := h.dropped [_] hpred
      have hblit := hdropped.temporary.blit (blockOf m.mem t k).reverse
        (by show _ < m.mem.size; rw [length_reverse, hlength]; omega)
      rw [reverse_reverse, ← move_eq] at hblit
      refine ⟨rfl, hdropped.changed _ (size_move _ _ _) (fun a ha _ => getElem?_move_of_outside (.inl (by omega)))
        (move_data h.data _ _ _) ?_ ?_ hblit⟩
      · rw [hend, length_append, hlength]
        omega
      · rw [length_append, hlength]
        omega
    · rw [ge_iff_le, le_iff_toInt_le, hend, h.stackSize]
      omega
  · next hfull =>
    rw [if_pos]
    rw [ge_iff_le, le_iff_toInt_le, hend, h.stackSize]
    omega

theorem eval (h : At A pc (.address (ofNat t) :: ds) m) (hn : n.toInt = k) (hk : 1 ≤ k) (ht : 1 ≤ t)
    (hle : t + k ≤ A.top + 1) :
    if A.top + ds.length + k < A.size then
      Yields A pc (blockOf m.mem t k ++ ds) (m.eval (.integer n))
    else m.eval (.integer n) = refuse .stackOverflow m := by
  have hsize := h.size_le
  have hmemory := h.memory
  have hroom := h.room
  exact h.eval_valid hn hk (h.valid hn hk ht hle) (by omega) (by omega)

theorem outside_place (hplace : A.Place t k) {a : Nat} (ha : ¬A.writable a) : a < t ∨ t + k ≤ a := by
  by_cases hlt : a < t
  · exact .inl hlt
  · refine .inr (Nat.le_of_not_lt fun hle => ha ?_)
    have := hplace.writable (a - t) (by omega)
    rwa [show t + (a - t) = a by omega] at this

/-- Words are copied to a place. -/
theorem moved (h : At A pc ds m) (hk : 1 ≤ k) (hplace : A.Place t k) (s : Nat) :
    At A pc ds { m with mem := move m.mem t s k } := by
  have hle := hplace.le hk
  exact h.changed ds (size_move _ _ _) (fun a _ hw => getElem?_move_of_outside (outside_place hplace hw))
    (move_data h.data _ _ _) h.sp h.room
    (h.temporary.congr fun a hlt _ => getElem?_move_of_outside (.inr (by omega)))

/-- The topmost words are stored at the address below them. -/
theorem assign (h : At A pc (vs ++ .address (ofNat t) :: ds) m) (hn : n.toInt = vs.length) (hk : 1 ≤ vs.length)
    (hplace : A.Place t vs.length) : ∃ m', m.assign (.integer n) = (.success, m') ∧ At A pc ds m' ∧
      m'.mem = move m.mem t (A.top + ds.length + 2) vs.length := by
  have hsize := h.size_le
  have hsize_le := A.size_le
  have hmemory := h.memory
  have hsp := h.sp
  have hroom := h.room
  have hle := hplace.le hk
  simp only [length_append, length_cons] at hsp hsize hroom
  have hslot := Word.sub_eq hsp hn (by omega)
  have hend := Word.sub_eq hsp (Word.add_eq hn Word.toInt_one (by omega)) (by omega)
  have hblock : m.blockAt (.integer n) (m.sp - n) = .ok (n, ofNat t) :=
    h.blockAt (i := A.top + ds.length + 1) hn hk (by omega) (by omega) h.temporary.append.1 hplace.pos hle
  have hdropped : At A pc ds { m with sp := m.sp - (n + 1) } :=
    dropped (vs ++ [_]) (by rwa [append_assoc]) (by omega)
  refine ⟨_, ?_, hdropped.moved hk hplace (A.top + ds.length + 2), rfl⟩
  rw [assign_eq_copyBlock (by omega) (by omega) hblock]
  exact copyBlock_eq (toInt_ofNat (by omega)) (by rw [Word.add_eq hslot Word.toInt_one (by omega)]; omega) hn (by omega)
    (by omega) (by omega)

/-- The block at the address on top is copied to the address below it. -/
theorem copy {s : Nat} (h : At A pc (.address (ofNat s) :: .address (ofNat t) :: ds) m) (hn : n.toInt = k)
    (hk : 1 ≤ k) (hplace : A.Place t k) (hs : 1 ≤ s) (hle : s + k ≤ A.top + 1) :
    ∃ m', m.copy (.integer n) = (.success, m') ∧ At A pc ds m' ∧ m'.mem = move m.mem t s k := by
  have hsize := h.size_le
  have hsize_le := A.size_le
  have hmemory := h.memory
  have hsp := h.sp
  have hroom := h.room
  have htarget := hplace.le hk
  simp only [length_cons] at hsp hsize hroom
  have hpred := Word.sub_eq hsp Word.toInt_one (by omega)
  have hend := Word.sub_eq hsp toInt_two (by omega)
  have hsourceBlock : m.blockAt (.integer n) m.sp = .ok (n, ofNat s) :=
    h.blockAt (i := A.top + ds.length + 2) hn hk (by omega) (by omega) h.temporary.1 hs hle
  have htargetBlock : m.blockAt (.integer n) (m.sp - 1) = .ok (n, ofNat t) :=
    h.blockAt (i := A.top + ds.length + 1) hn hk (by omega) (by omega) h.temporary.2.1 hplace.pos htarget
  have hdropped : At A pc ds { m with sp := m.sp - 2 } := dropped [_, _] h (by omega)
  refine ⟨_, ?_, hdropped.moved hk hplace s, rfl⟩
  unfold Machine.copy
  rw [hsourceBlock]
  dsimp only
  rw [htargetBlock]
  exact copyBlock_eq (toInt_ofNat (by omega)) (toInt_ofNat (by omega)) hn (by omega) (by omega) (by omega)

/-- The topmost words are dropped. -/
theorem drop (h : At A pc (vs ++ ds) m) (hn : n.toInt = vs.length) : Yields A pc ds (m.drop (.integer n)) := by
  have hsp := h.sp
  rw [length_append] at hsp
  have hend := h.sp_sub hn (by rw [length_append]; omega)
  rw [length_append] at hend
  unfold Machine.drop
  show Yields A pc ds (if n < 0 then _ else if m.sp < n then _ else _)
  rw [if_neg, if_neg]
  · exact ⟨rfl, h.dropped vs (by omega)⟩
  · rw [lt_iff_toInt_lt, hn, hsp]
    omega
  · rw [lt_iff_toInt_lt, hn, Word.toInt_zero]
    omega

theorem jump (h : At A pc ds m) {a : Int64} {target : Nat} (ha : a.toInt = target) :
    Yields A target ds (m.jump (.integer a)) :=
  ⟨rfl, h.code, h.stackSize, h.memory, ha, h.fp, h.sp, h.room, h.frozen, h.temporary, h.data⟩

/-- The top is taken off before what comes next. -/
theorem pop_eq (h : At A pc (d :: ds) m) (next : Datum → Machine → Effect) :
    ∃ m', At A pc ds m' ∧ m.pop next = next d m' := by
  refine ⟨{ m with sp := m.sp - 1 }, h.dropped [d] h.sp_pred, ?_⟩
  unfold pop
  rw [h.read_top]

theorem pop_ind (h : At A pc (d :: ds) m) {P : Effect → Prop} {next : Datum → Machine → Effect}
    (hnext : ∀ m', At A pc ds m' → P (next d m')) : P (m.pop next) := by
  obtain ⟨m', hat, hpop⟩ := h.pop_eq next
  rw [hpop]
  exact hnext m' hat

theorem withOutput (h : At A pc ds m) (out : Output) : At A pc ds { m with out } :=
  ⟨h.code, h.stackSize, h.memory, h.pc, h.fp, h.sp, h.room, h.frozen, h.temporary, h.data⟩

theorem writeValue (h : At A pc ds m) {width : Int64} {places : Option Nat}
    (hwidth : width - ofNat (outputText places d).length ≤ maxBlanks) :
    Yields A pc ds (m.writeValue width places d) := by
  unfold Machine.writeValue
  show Yields A pc ds (if width - ofNat (outputText places d).length > maxBlanks then _ else _)
  rw [if_neg (Int64.not_lt.mpr hwidth)]
  exact ⟨rfl, h.withOutput _⟩

end At

end MiniPascal.Machine
