import MiniPascal.Proofs.FrameCondition
import MiniPascal.Proofs.Machine.Instruction
import MiniPascal.Proofs.Machine.Trace

/-!
# Steps inside an activation

A step of the statements of a body, seen from its activation: where it leads to, which words are on the stack
afterwards, and what it does to the words below them. Only an assignment or a copy changes those, and only the
block that it stores.
-/

namespace MiniPascal.Machine

open List Word

/-! ### What a step leaves as it is -/

section

variable {A : Activation} {pc : Nat} {ds : List Datum} {m m' : Machine}

section

variable (h : At A pc ds m)

include h

/-- An instruction that stores no block leaves the words below its operands. -/
theorem At.step_kept {x : Instr} (hx : A.code[pc]? = some x) {n : Nat} (hn : x.op.pops = some n)
    (hle : n ≤ ds.length) (hassign : x.op ≠ .assign) (hcopy : x.op ≠ .copy) (hretf : x.op ≠ .retf)
    (hcrash : m.step.1 ≠ .crash) {a : Nat} (ha : a ≤ A.top) : m.step.2.mem[a]? = m.mem[a]? := by
  have hsp := h.sp
  have hroom := h.room
  have hstack := h.stackSize
  have hsize := A.size_le
  rw [(h.step_eq hx hn (by omega)).2] at hcrash ⊢
  refine ((execute_acts _ _).leaves (by omega) (by omega) hn (by omega) hcrash).mem a fun htouches => ?_
  have habove := ((touches_iff hn hassign hcopy hretf).mp htouches).1
  omega

theorem At.push_kept {d : Datum} (hd : A.admits d) (hroom : A.top + ds.length + 1 < A.size) :
    ∃ m', m.push d = (.success, m') ∧ At A pc (d :: ds) m' ∧ ∀ a ≤ A.top + ds.length, m'.mem[a]? = m.mem[a]? := by
  have hpush := h.bears.push h.roomy fun _ => hd
  rw [if_pos (by rw [h.stackSize]; omega)] at hpush
  refine ⟨_, Prod.ext hpush.1 rfl, h.of_bears hpush.2, fun a ha => ?_⟩
  by_cases hle : a ≤ A.top
  · exact hpush.2.agrees.below a hle
  · exact h.temporary.getElem?_eq hpush.2.operands.2 (by omega) ha

theorem At.push_success {d : Datum} (hd : A.admits d) (hpush : m.push d = (.success, m')) :
    m'.sp = m.sp + 1 ∧ m'.read? m'.sp = some d := by
  have hsplit := h.push hd
  rw [hpush] at hsplit
  split at hsplit
  · have hafter : At A pc (d :: ds) m' := hsplit.2
    have hsize := hafter.size_le
    rw [length_cons] at hsize
    refine ⟨?_, hafter.read_top⟩
    rw [← Int64.toInt_inj, hafter.sp, add_eq h.sp toInt_one (by omega), length_cons]
    omega
  · cases hsplit

/-- The address of a variable is counted from the frame that is a number of blocks further out. -/
theorem At.execute_pushVar {level : Int8} {k f : Nat} (hlevel : level.toInt = k)
    (hframe : (A.fp :: A.outer)[k]? = some f) (offset : Int64) :
    m.execute ⟨.pushVar, level, .integer offset⟩ = m.push (.address (Int64.ofNat f + offset)) := by
  have hk := (List.getElem?_eq_some_iff.mp hframe).1
  rw [length_cons] at hk
  unfold execute
  dsimp only
  rw [h.frameAt hlevel (by omega), headD_eq_head?_getD, List.head?_drop, hframe]
  rfl

end

end

/-! ### What a step stores -/

theorem transfer?_eq_none {m : Machine} {x : Instr} (hx : m.fetch? = some x) (hassign : x.op ≠ .assign)
    (hcopy : x.op ≠ .copy) : m.transfer? = none := by
  unfold transfer?
  rw [hx]
  obtain ⟨op, level, arg⟩ := x
  cases op with
  | assign => exact absurd rfl hassign
  | copy => exact absurd rfl hcopy
  | _ => rfl

theorem stored?_of_ne {m : Machine} {x : Instr} (hx : m.fetch? = some x) (hassign : x.op ≠ .assign)
    (hcopy : x.op ≠ .copy) (a : Nat) : m.stored? a = none :=
  stored?_eq_none fun b hb => by
    rw [transfer?_eq_none hx hassign hcopy] at hb
    cases hb

section

variable {A : Activation} {pc : Nat} {ds : List Datum} {m : Machine} {level : Int8} {n : Int64}

theorem At.transfer?_assign {vs : List Datum} {t : Nat} (h : At A pc (vs ++ .address (Int64.ofNat t) :: ds) m)
    (hx : m.fetch? = some ⟨.assign, level, .integer n⟩) (hn : n.toInt = vs.length) (ht : t ≤ A.top + 1) :
    m.transfer? = some ⟨t, A.top + ds.length + 2, vs.length⟩ := by
  have hsize := h.size_le
  have hsp := h.sp
  have hread : m.mem[A.top + ds.length + 1]? = some (.address (Int64.ofNat t)) := h.temporary.append.1
  simp only [length_append, length_cons] at hsize hsp
  have hbelow : (m.sp - n).toInt = A.top + ds.length + 1 := by
    rw [sub_eq hsp hn (by omega)]
    omega
  have hsource : (m.sp - n + 1).toInt = A.top + ds.length + 1 + 1 :=
    add_eq hbelow toInt_one (by omega)
  unfold transfer?
  rw [hx]
  dsimp only
  rw [read?_eq (n := A.top + ds.length + 1) (by omega), hread]
  dsimp only
  rw [hsource, hn, toInt_ofNat (by omega)]
  congr 2

theorem At.transfer?_copy {s t k : Nat} (h : At A pc (.address (Int64.ofNat s) :: .address (Int64.ofNat t) :: ds) m)
    (hx : m.fetch? = some ⟨.copy, level, .integer n⟩) (hn : n.toInt = k) (hs : s ≤ A.top + 1)
    (ht : t ≤ A.top + 1) : m.transfer? = some ⟨t, s, k⟩ := by
  have hsize := h.size_le
  have hsp := h.sp
  simp only [length_cons] at hsize hsp
  have hbelow : (m.sp - 1).toInt = A.top + ds.length + 1 := by
    rw [sub_eq hsp toInt_one (by omega)]
    omega
  have htarget : m.mem[A.top + ds.length + 1]? = some (.address (Int64.ofNat t)) := h.temporary.2.1
  unfold transfer?
  rw [hx]
  dsimp only
  rw [read?_eq (n := A.top + ds.length + 1) (by omega), htarget, h.read_top]
  dsimp only
  rw [hn, toInt_ofNat (by omega), toInt_ofNat (by omega)]
  rfl

end

theorem Shows.exists_assigned {A : Activation} {pc : Nat} {v : Slot} {k : Int} {spot : Spot} {S : List Slot}
    {m : Machine} {x : Instr} (h : Shows A A.writable pc (v :: .place k spot :: S) m) (hx : m.fetch? = some x)
    (hop : x.op = .assign) (harg : x.arg = .integer 1) (hk : 1 ≤ k) :
    ∃ w d, m.Stores w d ∧ v.Holds A.writable (A.fp :: A.outer) d ∧ spot.Marks (A.fp :: A.outer) w := by
  obtain ⟨ds, hat, hslots⟩ := h
  match ds, hslots with
  | d :: _ :: ds, .cons hd (.cons ⟨w, rfl, _, hplace, hmarks⟩ _) =>
    obtain ⟨op, level, arg⟩ := x
    subst hop harg
    have htop := A.below _ (hplace 0 (by omega))
    have hword : At A pc ([d] ++ .address (Int64.ofNat w) :: ds) m := hat
    have htransfer := hword.transfer?_assign hx rfl (by omega)
    exact ⟨w, d, ⟨_, htransfer, hat.temporary.1⟩, hd, hmarks⟩

/-- A block is stored at the address below the address where it is found. -/
theorem Shows.exists_copied {A : Activation} {pc : Nat} {p q : Int} {spot spot' : Spot} {S : List Slot}
    {m : Machine} {x : Instr} (h : Shows A A.writable pc (.place p spot :: .place q spot' :: S) m)
    (hx : m.fetch? = some x) (hop : x.op = .copy) {n : Int64} {k : Nat} (harg : x.arg = .integer n)
    (hn : n.toInt = k) (hp : 1 ≤ p) (hq : 1 ≤ q) :
    ∃ w source, m.transfer? = some ⟨w, source, k⟩ ∧ spot'.Marks (A.fp :: A.outer) w := by
  obtain ⟨ds, hat, hslots⟩ := h
  match ds, hslots with
  | _ :: _ :: ds, .cons ⟨s, rfl, _, hfrom, _⟩ (.cons ⟨w, rfl, _, hto, hmarks⟩ _) =>
    obtain ⟨op, level, arg⟩ := x
    subst hop harg
    have hsource := A.below _ (hfrom 0 (by omega))
    have htarget := A.below _ (hto 0 (by omega))
    exact ⟨w, s, hat.transfer?_copy hx hn (by omega) (by omega), hmarks⟩

theorem getElem?_move_stored {m : Machine} {t s k : Nat} (htransfer : m.transfer? = some ⟨t, s, k⟩)
    (htarget : t + k ≤ m.mem.size) (hsource : s + k ≤ m.mem.size) (a : Nat) :
    (move m.mem t s k)[a]? = (m.stored? a).or m.mem[a]? := by
  rw [getElem?_move htarget hsource, stored?, htransfer]
  dsimp only
  by_cases h : t ≤ a ∧ a < t + k
  · rw [if_pos h, if_pos (Transfer.covers_iff.mpr h), Array.getElem?_eq_getElem (by omega), Option.some_or]
  · rw [if_neg h, if_neg fun hcovers => h (Transfer.covers_iff.mp hcovers), Option.none_or]

/-! ### Steps -/

namespace Shows

variable {A : Activation} {pc : Nat} {S : List Slot} {m : Machine} {x : Instr} {sig : Signatures} {C : Context}

theorem fetch?_eq (h : Shows A A.writable pc S m) (hcode : A.code[pc]? = some x) : m.fetch? = some x := by
  obtain ⟨ds, hat, -⟩ := h
  rw [Machine.fetch?_eq hat.pc, hat.code, hcode]

/-- What is asked of a state after a step at another one: the words on the stack are as expected, and the words
below them are as they were, apart from a block that was stored. -/
def Leads (A : Activation) (before : Machine) (pc : Nat) (S : List Slot) (m : Machine) : Prop :=
  Shows A A.writable pc S m ∧ ∀ a ≤ A.top, m.mem[a]? = (before.stored? a).or before.mem[a]?

section

variable (h : Shows A A.writable pc S m) (hcode : A.code[pc]? = some x) (hmeets : x.Meets C sig S) (hx : C.exact)

include h hcode hmeets hx

theorem step_eq : ∃ ds, List.Forall₂ (Slot.Holds A.writable (A.fp :: A.outer)) S ds ∧ At A pc ds m ∧
    At A (pc + 1) ds m.advance ∧ m.step = m.advance.execute x := by
  obtain ⟨ds, hat, hslots⟩ := h
  obtain ⟨n, hn, hle⟩ := hmeets.exists_pops hx
  have hlength := hslots.length_eq
  exact ⟨ds, hslots, hat, hat.step_eq hcode hn (by omega)⟩

/-- A step that stores no block leaves the words below the stack as they are. -/
theorem goes_kept (hassign : x.op ≠ .assign) (hcopy : x.op ≠ .copy) (hretf : x.op ≠ .retf) {Q : Machine → Prop}
    (hgoes : Goes x.op Q m.step) :
    Goes x.op (fun m' => Q m' ∧ ∀ a ≤ A.top, m'.mem[a]? = (m.stored? a).or m.mem[a]?) m.step := by
  rcases hgoes with ⟨hsuccess, hQ⟩ | hfault
  · obtain ⟨ds, hslots, hat, -⟩ := h.step_eq hcode hmeets hx
    obtain ⟨n, hn, hle⟩ := hmeets.exists_pops hx
    refine .inl ⟨hsuccess, hQ, fun a ha => ?_⟩
    rw [stored?_of_ne (h.fetch?_eq hcode) hassign hcopy, Option.none_or]
    exact hat.step_kept hcode hn (hslots.length_eq ▸ hle) hassign hcopy hretf (by rw [hsuccess]; nofun) ha
  · exact .inr hfault

theorem step_quiet (hnarrow : A.admits = Datum.Narrow) {entries : Entries} (hlaid : C.Laid sig entries)
    (hframes : List.Forall₂ (Covered C.types A.writable) (A.fp :: A.outer) C.levels)
    (hquiet : x.op.isQuiet = true) : Goes x.op (Leads A m (pc + 1) (x.effect C sig S)) m.step := by
  have hne {op : Opcode} (hop : op.isQuiet = false) : x.op ≠ op := by
    rintro rfl
    exact absurd hquiet (by rw [hop]; decide)
  refine h.goes_kept hcode hmeets hx (hne rfl) (hne rfl) (hne rfl) ?_
  obtain ⟨ds, hslots, -, hat, hstep⟩ := h.step_eq hcode hmeets hx
  rw [hstep]
  exact quiet hnarrow ⟨ds, hat, hslots⟩ hlaid hx hframes A.below hmeets hquiet

theorem step_assign (hop : x.op = .assign) : Goes x.op (Leads A m (pc + 1) (x.effect C sig S)) m.step := by
  have hfetch := h.fetch?_eq hcode
  obtain ⟨ds, hslots, hbefore, hat, hstep⟩ := h.step_eq hcode hmeets hx
  have hsafe := hmeets.safe hx
  obtain ⟨op, level, arg⟩ := x
  subst hop
  obtain ⟨words, spot, hs, hpos, hle⟩ := hsafe
  obtain ⟨n, k, rfl, hn, hcount⟩ := Instr.exists_count hpos
  rw [hcount, Int.toNat_natCast] at hs
  obtain ⟨d, hd, t, rfl, ht, hplace, -⟩ := Slot.Holds.getElem? hslots hs
  obtain ⟨hk, heq⟩ := List.getElem?_eq_some_iff.mp hd
  have hrest := List.forall₂_drop (k + 1) hslots
  -- the words, the address below them, and the rest
  have hsplit : ds = ds.take k ++ .address (Int64.ofNat t) :: ds.drop (k + 1) := by
    rw [← heq, ← drop_eq_getElem_cons, take_append_drop]
  have htake : (ds.take k).length = k := by
    rw [length_take]
    omega
  rw [hsplit] at hat hbefore
  have hA : A.Place t (ds.take k).length := ⟨ht, fun i hi => hplace i (by omega)⟩
  have hn' : n.toInt = (ds.take k).length := by rw [htake]; exact hn
  obtain ⟨m', hassign, hafter, hmem⟩ := hat.assign hn' (by omega) hA
  rw [hstep]
  have hexecute : m.advance.execute ⟨.assign, level, .integer n⟩ = (.success, m') := hassign
  rw [hexecute]
  have heffect : (⟨.assign, level, .integer n⟩ : Instr).effect C sig S = S.drop (k + 1) := by
    show S.drop (Instr.count ⟨.assign, level, .integer n⟩ + 1).toNat = _
    rw [hcount]
    rfl
  rw [heffect]
  refine .inl ⟨rfl, ⟨_, hafter, hrest⟩, fun a _ => ?_⟩
  rw [hmem]
  have htop := hA.le (by omega)
  have hroom := hbefore.room
  have hmemory := hbefore.memory
  simp only [length_append, length_cons] at hroom
  exact getElem?_move_stored (hbefore.transfer?_assign hfetch hn' (by omega)) (by omega) (by omega) a

theorem step_copy (hop : x.op = .copy) : Goes x.op (Leads A m (pc + 1) (x.effect C sig S)) m.step := by
  have hfetch := h.fetch?_eq hcode
  obtain ⟨ds, hslots, hbefore, hat, hstep⟩ := h.step_eq hcode hmeets hx
  have hsafe := hmeets.safe hx
  obtain ⟨op, level, arg⟩ := x
  subst hop
  obtain ⟨_, _, S, type, rfl, harg, hpos, -, ⟨source, _, rfl, hsource, -⟩, target, _, rfl, htarget, -⟩ := hsafe
  obtain ⟨n, k, rfl, hn, hcount⟩ := Instr.exists_count hpos
  rw [← Datum.integer.inj harg] at hsource htarget
  match ds, hslots with
  | _ :: _ :: ds, .cons ⟨s, rfl, hs, hfrom, _⟩ (.cons ⟨t, rfl, ht, hto, _⟩ hrest) =>
    have hA : A.Place t k := ⟨ht, fun i hi => hto i (by omega)⟩
    have hlast := A.below _ (hfrom (k - 1) (by omega))
    have htop := hA.le (by omega)
    have hroom := hbefore.room
    have hmemory := hbefore.memory
    obtain ⟨m', hcopy, hafter, hmem⟩ := hat.copy hn (by omega) hA hs (by omega)
    rw [hstep]
    have hexecute : m.advance.execute ⟨.copy, level, .integer n⟩ = (.success, m') := hcopy
    rw [hexecute]
    refine .inl ⟨rfl, ⟨ds, hafter, hrest⟩, fun a _ => ?_⟩
    rw [hmem]
    exact getElem?_move_stored (hbefore.transfer?_copy hfetch hn (by omega) (by omega)) (by omega) (by omega) a

/-- A jump leads to its target, and one that depends on a condition perhaps to the next instruction. -/
theorem step_jump (hjump : x.op.isJump = true) {target : Nat}
    (harg : x.arg = .integer (Int64.ofNat target)) (htarget : target < 2 ^ 62) :
    Goes x.op (fun m' => x.op ≠ .jump ∧ Leads A m (pc + 1) (x.effect C sig S) m' ∨
      Leads A m target (x.effect C sig S) m') m.step := by
  have hne {op : Opcode} (hop : op.isJump = false) : x.op ≠ op := by
    rintro rfl
    exact absurd hjump (by rw [hop]; decide)
  obtain ⟨ds, hslots, -, hat, hstep⟩ := h.step_eq hcode hmeets hx
  have hword : (Int64.ofNat target).toInt = target := toInt_ofNat (by omega)
  have hgoes : Goes x.op (fun m' => x.op ≠ .jump ∧ Shows A A.writable (pc + 1) (x.effect C sig S) m' ∨
      Shows A A.writable target (x.effect C sig S) m') m.step := by
    obtain ⟨op, level, arg⟩ := x
    subst harg
    rw [hstep]
    cases op with
    | jump => exact .inl ⟨rfl, .inr ⟨ds, (hat.jump hword).2, hslots⟩⟩
    | jneq =>
      match S, hslots with
      | _ :: S, .cons (b := d) hd hrest =>
        unfold execute
        refine hat.pop_ind (P := Goes .jneq _) fun m' hat' => ?_
        cases d with
        | boolean b =>
          cases b with
          | true => exact .inl ⟨rfl, .inl ⟨Opcode.noConfusion, _, hat', hrest⟩⟩
          | false => exact .inl ⟨rfl, .inr ⟨_, (hat'.jump hword).2, hrest⟩⟩
        | _ => exact .refused rfl rfl
    | _ => cases hjump
  exact (h.goes_kept hcode hmeets hx (hne rfl) (hne rfl) (hne rfl) hgoes).mono fun m' ⟨hm', hkept⟩ =>
    hm'.imp (fun ⟨hop, hshows⟩ => ⟨hop, hshows, hkept⟩) fun hshows => ⟨hshows, hkept⟩

end

end Shows

end MiniPascal.Machine
