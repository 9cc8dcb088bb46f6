import MiniPascal.Proofs.Machine.Ordinals
import MiniPascal.Proofs.Run.Places

/-!
# Loops in a run

While a loop with a control variable runs, the value of the variable stays in the range of its type: the first value
is checked, and so is everything that the inner statement stores there. Only a step from the last value of the range
leads out of it. That is an invariant of a run, for all the activities that are open.
-/

namespace MiniPascal

open List Int64

open Machine

namespace Loop

/-- The last value of the control variable in the range of its type, or one that is next to no 32-bit number. -/
def Ends (types : TypeTable) (L : Loop) (v : Int) : Prop :=
  if L.downward then v = (types.bounds L.control.type).lower.toInt ∨ inRange32 (v - 1) = false
  else v = (types.bounds L.control.type).upper.toInt ∨ inRange32 (v + 1) = false

/-- A step stays in the range of the type, unless it starts at the last value. -/
theorem admits_step {types : TypeTable} {L : Loop} {d r : Datum}
    (h : (types.bounds L.control.type).Admits d) (hr : L.op.apply d = .ok r)
    (hends : ∀ v, d.ordinal? = some v → ¬L.Ends types v.toInt) : (types.bounds L.control.type).Admits r := by
  obtain ⟨v, hv, hlower, hupper⟩ := h
  have hnot := hends v hv
  unfold Ends at hnot
  unfold op at hr
  split at hr
  · next hdown =>
    rw [if_pos hdown, not_or, Bool.not_eq_false] at hnot
    obtain ⟨u, hu, heq⟩ := UnaryOp.ordinal_neighbour (-1) hv hr hnot.2
    have : (-1 : Int64).toInt = -1 := rfl
    exact ⟨u, hu, by omega, by omega⟩
  · next hup =>
    rw [if_neg hup, not_or, Bool.not_eq_false] at hnot
    obtain ⟨u, hu, heq⟩ := UnaryOp.ordinal_neighbour 1 hv hr hnot.2
    have : (1 : Int64).toInt = 1 := rfl
    exact ⟨u, hu, by omega, by omega⟩

end Loop

theorem Spot.Marks.unique {s : Spot} {frames : List Nat} {w w' : Nat} (h : s.Marks frames w) (h' : s.Marks frames w')
    (hs : s.strides = []) : w = w' := by
  obtain ⟨f, d, hf, hd, heq⟩ := h
  obtain ⟨f', d', hf', hd', heq'⟩ := h'
  obtain rfl := Option.some.inj (hf.symm.trans hf')
  rw [hs] at hd hd'
  obtain rfl : d = 0 := hd
  obtain rfl : d' = 0 := hd'
  omega

namespace Machine

/-- The word on top is what a function makes of the word whose address lies below it. -/
def Derives (m : Machine) (f : Datum → Except Fault Datum) : Prop :=
  ∃ t d r, m.read? (m.sp - 1) = some (.address t) ∧ m.read? t = some d ∧ f d = .ok r ∧ m.read? m.sp = some r

section

variable {A : Activation} {pc w : Nat} {d r : Datum} {ds : List Datum} {m m' : Machine}
  {f : Datum → Except Fault Datum}

theorem At.derives_iff (h : At A pc (r :: .address (ofNat w) :: ds) m) (hw : w ≤ A.top) :
    m.Derives f ↔ ∃ d, m.mem[w]? = some d ∧ f d = .ok r := by
  have hsize := h.size_le
  have hsp := h.sp_pred
  rw [length_cons] at hsp
  have hword : m.read? (ofNat w) = m.mem[w]? := read?_eq (Word.toInt_ofNat (by omega))
  have hbelow : m.read? (m.sp - 1) = some (.address (ofNat w)) := by
    rw [read?_eq (n := A.top + ds.length + 1) (by omega)]
    exact h.temporary.2.1
  constructor
  · rintro ⟨t, d, r', ht, hd, hf, hr⟩
    obtain rfl := Datum.address.inj (Option.some.inj (hbelow.symm.trans ht))
    obtain rfl := Option.some.inj (h.read_top.symm.trans hr)
    exact ⟨d, hword.symm.trans hd, hf⟩
  · rintro ⟨d, hd, hf⟩
    exact ⟨_, d, r, hbelow, hword.trans hd, hf, h.read_top⟩

theorem At.toNat_pc (h : At A pc ds m) : m.pc.toInt.toNat = pc := by
  rw [h.pc]
  rfl

theorem Shows.toNat_pc {W : Nat → Prop} {S : List Slot} (h : Shows A W pc S m) : m.pc.toInt.toNat = pc := by
  obtain ⟨ds, hat, -⟩ := h
  exact hat.toNat_pc

/-- The value of a variable is loaded above the address of the variable. -/
theorem At.derives_eval (h : At A pc (.address (ofNat w) :: .address (ofNat w) :: ds) m)
    (hx : A.code[pc]? = some (Opcode.eval.withInt 1)) (hpos : 1 ≤ w) (hw : w ≤ A.top)
    (hstep : m.step = (.success, m')) : m'.Derives .ok := by
  have hroom := h.room
  have hmemory := h.memory
  obtain ⟨hat, heq⟩ := h.step_eq hx (n := 1) rfl (by rw [length_cons]; omega)
  rw [hstep] at heq
  have hexecute : m.advance.eval (.integer 1) = (.success, m') := heq.symm
  have heval := hat.eval (n := 1) (k := 1) rfl (Nat.le_refl 1) hpos (Nat.succ_le_succ hw)
  rw [hexecute] at heval
  obtain ⟨d, hd⟩ : ∃ d, m.mem[w]? = some d := ⟨_, Array.getElem?_eq_getElem (by omega)⟩
  rw [show blockOf m.advance.mem w 1 = [d] from blockOf_one hd] at heval
  split at heval
  · have hsame := h.step_kept hx rfl (by simp) nofun nofun nofun (by rw [hstep]; nofun) hw
    rw [hstep] at hsame
    exact (heval.2.derives_iff hw).mpr ⟨d, hsame.trans hd, rfl⟩
  · cases heval

/-- The value of a variable is replaced by the result of an operation. -/
theorem At.derives_unary (h : At A pc (d :: .address (ofNat w) :: ds) m) {op : UnaryOp}
    (hx : A.code[pc]? = some { op := .unary op }) (hw : w ≤ A.top) (hnarrow : A.admits = Datum.Narrow)
    (hderives : m.Derives .ok) (hstep : m.step = (.success, m')) : m'.Derives op.apply := by
  obtain ⟨d, hd, heq⟩ := (h.derives_iff hw).mp hderives
  cases heq
  obtain ⟨hat, heq⟩ := h.step_eq hx (n := 1) rfl (by rw [length_cons]; omega)
  rw [hstep] at heq
  have hexecute : m.advance.update m.advance.sp op.apply = (.success, m') := heq.symm
  have hadmits := h.admits_of_mem mem_cons_self
  have hresult (r : Datum) (hr : op.apply d = .ok r) : A.admits r := by
    rw [hnarrow] at hadmits ⊢
    exact (op.apply_narrow hadmits).ok hr
  have hupdate := hat.bears.update_top hat.roomy hresult
  rw [hexecute] at hupdate
  cases hr : op.apply d with
  | ok r =>
    rw [hr] at hupdate
    exact ((hat.of_bears hupdate.2).derives_iff hw).mpr ⟨d, (hupdate.2.agrees.below w hw).trans hd, hr⟩
  | error f =>
    rw [hr] at hupdate
    cases hupdate.1

theorem Derives.of_stores {x : Instr} (h : m.Derives f) (hx : m.fetch? = some x) (hop : x.op = .assign)
    (harg : x.arg = .integer 1) (hstores : m.Stores w r) : ∃ d, m.mem[w]? = some d ∧ f d = .ok r := by
  obtain ⟨t, d, r', ht, hd, hf, hr⟩ := h
  obtain ⟨source, htransfer, hsource⟩ := hstores
  obtain ⟨op, level, arg⟩ := x
  subst hop harg
  unfold transfer? at htransfer
  rw [hx] at htransfer
  dsimp only at htransfer
  rw [ht] at htransfer
  obtain ⟨rfl, rfl, -⟩ := Transfer.mk.inj (Option.some.inj htransfer)
  have hmem {a : Int64} {e : Datum} (he : m.read? a = some e) : m.mem[a.toInt.toNat]? = some e := by
    unfold read? at he
    split at he
    · exact he
    · cases he
  rw [Int64.sub_add_cancel, hmem hr] at hsource
  cases hsource
  exact ⟨d, hmem hd, hf⟩

end

end Machine

/-! ### Loops of a program -/

namespace ProgramTree

variable (t : ProgramTree) (types : TypeTable)

def StepsAt (m : Machine) (L : Loop) : Prop :=
  ∃ g ∈ t.segments, L ∈ g.loops t.entries ∧ m.pc = ofNat L.store

/-- A loop steps although its control variable has the last value of the range of its type. -/
def Overruns (m : Machine) : Prop :=
  ∃ L, t.StepsAt m L ∧ types.isNarrow L.control.type = true ∧
    ∃ b v, m.transfer? = some b ∧ (m.mem[b.target]?).bind Datum.ordinal? = some v ∧ L.Ends types v.toInt

end ProgramTree

namespace ProgramTree

variable {t : ProgramTree} {types : TypeTable} (hr : t.Runnable types) {g : Segment}
  (hg : g ∈ t.segments) {L : Loop} (hL : L ∈ g.loops t.entries)

include hr hg hL

theorem Runnable.enters_loop {i : Nat} (hi : g.bodyStart + i + 1 = L.first) :
    (g.statements t.entries)[i]? = some (Opcode.assign.withInt 1) ∧
      ∃ v T, t.stackAt types True g (g.bodyStart + i) = v :: (t.contextAt types True g).placeOf L.control :: T ∧
        types.Checks L.control.type v := by
  obtain ⟨j, v, T, hj, hx, hscan, hchecked⟩ := (hr.fits_loops hg L hL).enters
  obtain rfl : i = j := by omega
  refine ⟨hx, v, T, ?_, hchecked⟩
  unfold stackAt
  rw [Nat.add_sub_cancel_left]
  exact hscan

theorem Runnable.steps_loop {i : Nat} (hi : g.bodyStart + i + 2 = L.store) :
    (g.statements t.entries)[i]? = some (Opcode.eval.withInt 1) ∧
      (g.statements t.entries)[i + 1]? = some { op := .unary L.op } ∧
      (g.statements t.entries)[i + 2]? = some (Opcode.assign.withInt 1) ∧
      ∃ T, t.stackAt types True g (g.bodyStart + i) = (t.contextAt types True g).placeOf L.control ::
          (t.contextAt types True g).placeOf L.control :: T ∧
        t.stackAt types True g (g.bodyStart + (i + 1)) = .any :: (t.contextAt types True g).placeOf L.control :: T ∧
        t.stackAt types True g (g.bodyStart + (i + 2)) = .any :: (t.contextAt types True g).placeOf L.control :: T := by
  obtain ⟨j, T, hj, heval, hunary, hassign, hscan⟩ := (hr.fits_loops hg L hL).steps
  obtain rfl : i = j := by omega
  have hlaid := hr.laid g hg
  have hstack : t.stackAt types True g (g.bodyStart + i) = (t.contextAt types True g).placeOf L.control ::
      (t.contextAt types True g).placeOf L.control :: T := by
    unfold stackAt
    rw [Nat.add_sub_cancel_left]
    exact hscan
  have hloaded := (hr.typed.meets_statements hg hlaid heval).2
  rw [hstack] at hloaded
  have hstepped := (hr.typed.meets_statements hg hlaid hunary).2
  rw [← Nat.add_assoc g.bodyStart, hloaded] at hstepped
  refine ⟨heval, hunary, hassign, T, hstack, hloaded, hstepped.trans ?_⟩
  unfold Loop.op
  split <;> rfl

theorem Runnable.keeps_jump {i j : Nat} {x : Instr} (hx : (g.statements t.entries)[i]? = some x)
    (hjump : x.op.isJump = true) (harg : x.arg = .integer (ofNat (g.bodyStart + j)))
    (hj : j ≤ (g.statements t.entries).length) : L.Keeps (g.bodyStart + i) (g.bodyStart + j) := by
  obtain ⟨b, hb, harg', hkeeps⟩ := (hr.fits_loops hg L hL).jumps i x hx hjump
  have hstop := g.stop_eq t.entries
  have hle := (t.contiguous_segments.stop_le hg).2
  have hshort := hr.short
  have heq := congrArg toInt (Datum.integer.inj (harg.symm.trans harg'))
  rw [Word.toInt_ofNat (by omega), Word.toInt_ofNat (by omega)] at heq
  rwa [Int.ofNat_inj.mp heq]

end ProgramTree

namespace Activity

variable (t : ProgramTree) (types : TypeTable)

/-- The value of the control variable of a loop lies in the range of its type. -/
def Confines (a : Activity) (L : Loop) (m : Machine) : Prop :=
  types.isNarrow L.control.type = true → ∀ w d, L.control.spot.Marks (a.act.fp :: a.act.outer) w →
    m.mem[w]? = some d → (types.bounds L.control.type).Admits d

/-- What holds of the loops of an activity at an address. The step of a loop finds what it needs on the stack. -/
structure Minds (a : Activity) (pc : Nat) (m : Machine) : Prop where
  confined : ∀ L ∈ a.segment.loops t.entries, L.Covers pc → a.Confines types L m
  loaded : ∀ L ∈ a.segment.loops t.entries, pc + 1 = L.store → m.Derives .ok
  stepped : ∀ L ∈ a.segment.loops t.entries, pc = L.store → m.Derives L.op.apply

/-- What holds of the loops of an activity that will go on at an address. -/
structure Rests (c : Activity) (back : Nat) (m : Machine) : Prop where
  confined : ∀ L ∈ c.segment.loops t.entries, L.Covers back → c.Confines types L m
  apart : ∀ L ∈ c.segment.loops t.entries, back + 1 ≠ L.store ∧ back ≠ L.store

def Waits : List Activity → Machine → Prop
  | a :: c :: rest, m => (∃ ds back hops, c.Awaits t types ds back hops a ∧ c.Rests t types back m) ∧ Waits (c :: rest) m
  | _, _ => True

/-- A state of a run in which the control variables of all loops have values in the ranges of their types. -/
def Steady (as : List Activity) (m : Machine) : Prop :=
  Live t types as m ∧ Waits t types as m ∧ ∀ a ∈ as.head?, a.Minds t types m.pc.toInt.toNat m

/-- What the next instruction stores into a variable lies in the range of its type. -/
def Respects (as : List Activity) (m : Machine) : Prop :=
  ∀ w ty d, Places as w ty → types.isNarrow ty = true → m.stored? w = some d → (types.bounds ty).Admits d

variable {t types} {a b c : Activity} {as rest : List Activity} {m m' : Machine} {pc back : Nat}

theorem Rests.minds (h : c.Rests t types back m) : c.Minds t types back m where
  confined := h.confined
  loaded L hL heq := absurd heq (h.apart L hL).1
  stepped L hL heq := absurd heq (h.apart L hL).2

/-- Nothing is asked for in front of the statements. -/
theorem Rests.of_fits (hpc : ∀ L ∈ a.segment.loops t.entries, pc < L.first ∧ L.first + 3 ≤ L.store) :
    a.Rests t types pc m where
  confined L hL hcovers := by
    have := hpc L hL
    have := hcovers.1
    omega
  apart L hL := by
    have := hpc L hL
    omega

theorem Waits.mono (h : Waits t types as m)
    (hkept : ∀ c ∈ as.tail, ∀ L ∈ c.segment.loops t.entries, c.Confines types L m → c.Confines types L m') :
    Waits t types as m' := by
  induction as with
  | nil => trivial
  | cons a rest ih =>
    cases rest with
    | nil => trivial
    | cons c rest =>
      obtain ⟨⟨ds, back, hops, hawaits, hrests⟩, hwaits⟩ := h
      refine ⟨⟨ds, back, hops, hawaits, fun L hL hcovers => ?_, hrests.apart⟩, ih hwaits fun d hd => ?_⟩
      · exact hkept c mem_cons_self L hL (hrests.confined L hL hcovers)
      · exact hkept d (mem_cons_of_mem c hd)

/-- The activities from one on are activities of a run, too. -/
theorem Chain.exists_from (h : Chain t types as) (hc : c ∈ as) :
    ∃ rest, Chain t types (c :: rest) ∧ ∀ b ∈ c :: rest, b ∈ as := by
  induction as with
  | nil => cases hc
  | cons a rest ih =>
    rcases mem_cons.mp hc with rfl | hc
    · exact ⟨rest, h, fun b hb => hb⟩
    · cases rest with
      | nil => cases hc
      | cons d rest =>
        obtain ⟨rest', hchain, hsub⟩ := ih h.2 hc
        exact ⟨rest', hchain, fun b hb => mem_cons_of_mem a (hsub b hb)⟩

section

variable (hr : t.Runnable types) (hsound : ∀ b ∈ as, b.Sound t types)
  (hchain : Chain t types as)

include hr hsound hchain

/-- The control variable of a loop of an activity is a variable of an activity. -/
theorem Chain.places_control (hc : c ∈ as) {L : Loop} (hL : L ∈ c.segment.loops t.entries) {w : Nat}
    (hmarks : L.control.spot.Marks (c.act.fp :: c.act.outer) w) : Places as w L.control.type ∧ w ≤ c.act.top := by
  obtain ⟨rest, hfrom, hsub⟩ := hchain.exists_from hc
  have hdeclares := (hr.fits_loops (hsound c hc).mem L hL).declares
  obtain ⟨b, hb, hplaces⟩ := hfrom.places hr (hsound c hc).mem hdeclares hmarks
  have hpos := (hplaces.toInt_size trivial (hr.laid_level (hsound b (hsub b hb)).mem) hr.formed).2
  have hspans := (hsound b (hsub b hb)).spans hr hplaces.locates (i := 0) hpos
  exact ⟨⟨b, hsub b hb, hplaces⟩, Nat.le_trans hspans.2 (hfrom.top_le hb)⟩

/-- The control variable of a loop keeps its value while the words of its activity are as they were. -/
theorem Confines.same (hc : c ∈ as) {L : Loop} (hL : L ∈ c.segment.loops t.entries) (h : c.Confines types L m)
    (hmem : ∀ w ≤ c.act.top, m'.mem[w]? = m.mem[w]?) : c.Confines types L m' := by
  intro hnarrow w d hmarks hd
  rw [hmem w (hchain.places_control hr hsound hc hL hmarks).2] at hd
  exact h hnarrow w d hmarks hd

/-- What is stored leaves the control variables in their ranges. -/
theorem Confines.store (hrespects : Respects types as m) (hc : c ∈ as) {L : Loop}
    (hL : L ∈ c.segment.loops t.entries) (h : c.Confines types L m)
    (hmem : ∀ w ≤ c.act.top, m'.mem[w]? = (m.stored? w).or m.mem[w]?) : c.Confines types L m' := by
  intro hnarrow w d hmarks hd
  obtain ⟨hplaces, hle⟩ := hchain.places_control hr hsound hc hL hmarks
  rw [hmem w hle] at hd
  cases hstored : m.stored? w with
  | none =>
    rw [hstored, Option.none_or] at hd
    exact h hnarrow w d hmarks hd
  | some e =>
    rw [hstored, Option.some_or] at hd
    cases hd
    exact hrespects w _ _ hplaces hnarrow hstored

end

section

variable (hr : t.Runnable types) (hsound : ∀ b ∈ a :: rest, b.Sound t types)
  (hchain : Chain t types (a :: rest)) {i : Nat} {x : Instr} (hshows : a.ShowsAt t types i m)
  (hx : (a.segment.statements t.entries)[i]? = some x) (hminds : a.Minds t types (a.segment.bodyStart + i) m)

include hr hsound hshows hx hminds

theorem Minds.exists_stepped {L : Loop} (hL : L ∈ a.segment.loops t.entries)
    (hstore : L.store = a.segment.bodyStart + i) : ∃ w d e, m.Stores w e ∧
      L.control.spot.Marks (a.act.fp :: a.act.outer) w ∧ m.mem[w]? = some d ∧ L.op.apply d = .ok e := by
  have ha := hsound a mem_cons_self
  have hfits := hr.fits_loops ha.mem L hL
  have horder := hfits.order
  have hstart := hfits.start
  obtain ⟨j, rfl⟩ := Nat.exists_eq_add_of_le (show 2 ≤ i by omega)
  rw [Nat.add_comm 2 j] at hx hshows hstore hminds
  obtain ⟨-, -, hassign, T, -, -, hstack⟩ := hr.steps_loop ha.mem hL (i := j) (by omega)
  obtain rfl := Option.some.inj (hx.symm.trans hassign)
  obtain ⟨w, e, hstores, -, hmarks⟩ := ha.exists_stored hr hshows hx rfl rfl hstack
  obtain ⟨d, hd, he⟩ := (hminds.stepped L hL hstore.symm).of_stores
    (hshows.fetch?_eq (ha.getElem?_statement hx)) rfl rfl hstores
  exact ⟨w, d, e, hstores, hmarks, hd, he⟩

include hchain

/-- A loop steps to a value of the type of its control variable, unless it starts at the last one. -/
theorem Minds.admits_stepped (hover : ¬t.Overruns types m) {L : Loop} (hL : L ∈ a.segment.loops t.entries)
    (hstore : L.store = a.segment.bodyStart + i) {w : Nat} {d : Datum} {ty : TypeId} (hstores : m.Stores w d)
    (hlocates : Locates types (a :: rest) w ty) (hnarrow : types.isNarrow ty = true) : (types.bounds ty).Admits d := by
  have ha := hsound a mem_cons_self
  have hfits := hr.fits_loops ha.mem L hL
  have horder := hfits.order
  obtain ⟨w', e, d', hstores', hmarks, he, hd⟩ := hminds.exists_stepped hr hsound hshows hx hL hstore
  obtain ⟨rfl, rfl⟩ := hstores.unique hstores'
  have hplaces := (hchain.places_control hr hsound mem_cons_self hL hmarks).1
  obtain rfl := hchain.locates_unique hr hsound hplaces.locates hlocates hfits.scalar
    (TypeTable.scalar_of_isNarrow hnarrow)
  have hcovers : L.Covers (a.segment.bodyStart + i) := by
    unfold Loop.Covers Loop.exit
    omega
  refine Loop.admits_step (hminds.confined L hL hcovers hnarrow w e hmarks he) hd fun v hv hends => hover ?_
  obtain ⟨ds, hat, -⟩ := hshows
  obtain ⟨source, htransfer, -⟩ := hstores
  refine ⟨L, ⟨a.segment, ha.mem, hL, ?_⟩, hnarrow, _, v, htransfer, ?_, hends⟩
  · rw [hstore]
    exact hat.pc_eq
  · show (m.mem[w]?).bind _ = _
    rw [he]
    exact hv

/-- What is stored into a variable lies in the range of its type, unless a loop steps from the last value. -/
theorem Minds.respects (hover : ¬t.Overruns types m) : Respects types (a :: rest) m := by
  intro w ty d hplaces hnarrow hstored
  have ha := hsound a mem_cons_self
  have hscalar := TypeTable.scalar_of_isNarrow hnarrow
  by_cases hassign : x.op = .assign
  · obtain ⟨w', d', ty', hstores, hlocates, hscalar', hchecks⟩ :=
      ha.exists_assigned hr hshows hx hchain hassign
    rw [hstores.stored?_eq] at hstored
    split at hstored
    · next heq =>
      subst heq
      cases hstored
      obtain rfl := hchain.locates_unique hr hsound hplaces.locates hlocates hscalar hscalar'
      rcases hchecks with ⟨L, hL, hstore⟩ | hchecks
      · exact hminds.admits_stepped hr hsound hchain hshows hx hover hL hstore hstores hlocates hnarrow
      · exact hchecks hnarrow
    · cases hstored
  by_cases hcopy : x.op = .copy
  · obtain ⟨w', source, ty', htransfer, hlocates, haggregate⟩ :=
      ha.exists_copied hr hshows hx hchain hcopy
    unfold stored? at hstored
    rw [htransfer] at hstored
    dsimp only at hstored
    split at hstored
    · next hcovers =>
      obtain ⟨-, rfl⟩ := hchain.eq_of_places hr hsound hplaces hscalar hlocates (Transfer.covers_iff.mp hcovers)
      rw [haggregate] at hscalar
      cases hscalar
    · cases hstored
  · rw [stored?_of_ne (hshows.fetch?_eq (ha.getElem?_statement hx)) hassign hcopy] at hstored
    cases hstored

end

/-! ### Steps of the machine -/

section

variable (hr : t.Runnable types) (hsound : ∀ b ∈ a :: rest, b.Sound t types)
  (hchain : Chain t types (a :: rest)) {i : Nat} {x : Instr} (hx : (a.segment.statements t.entries)[i]? = some x)
  (hshows : a.ShowsAt t types i m) {L : Loop} (hL : L ∈ a.segment.loops t.entries)

include hr hsound hchain hx hshows hL

theorem Chain.confines_first (hfirst : a.segment.bodyStart + i + 1 = L.first)
    (hmem : ∀ w ≤ a.act.top, m'.mem[w]? = (m.stored? w).or m.mem[w]?) : a.Confines types L m' := by
  intro hnarrow w d hmarks hd
  have ha := hsound a mem_cons_self
  obtain ⟨hassign, v, T, hstack, hchecks⟩ := hr.enters_loop ha.mem hL hfirst
  obtain rfl := Option.some.inj (hx.symm.trans hassign)
  obtain ⟨w', e, hstores, hholds, hmarks'⟩ := ha.exists_stored hr hshows hx rfl rfl hstack
  obtain rfl := hmarks.unique hmarks' rfl
  have hle := (hchain.places_control hr hsound mem_cons_self hL hmarks).2
  rw [hmem w hle, hstores.stored?_eq, if_pos rfl] at hd
  cases hd
  rw [hchecks hnarrow] at hholds
  exact hholds

theorem Chain.derives_loaded (hstore : a.segment.bodyStart + i + 2 = L.store) (hstep : m.step = (.success, m')) :
    m'.Derives .ok := by
  have ha := hsound a mem_cons_self
  obtain ⟨heval, -, -, T, hstack, -⟩ := hr.steps_loop ha.mem hL hstore
  obtain rfl := Option.some.inj (hx.symm.trans heval)
  rw [ShowsAt, hstack] at hshows
  obtain ⟨ds, hat, hslots⟩ := hshows
  rcases hslots with _ | ⟨⟨w, rfl, hpos, _, hmarks⟩, _ | ⟨⟨w', rfl, _, _, hmarks'⟩, _⟩⟩
  obtain rfl := hmarks.unique hmarks' rfl
  have hle := (hchain.places_control hr hsound mem_cons_self hL hmarks).2
  exact hat.derives_eval (ha.getElem?_statement hx) hpos hle hstep

/-- The value that was loaded is replaced by its neighbour. -/
theorem Chain.derives_stepped (hstore : a.segment.bodyStart + i + 1 = L.store) (hloaded : m.Derives .ok)
    (hstep : m.step = (.success, m')) : m'.Derives L.op.apply := by
  have ha := hsound a mem_cons_self
  have horder := (hr.fits_loops ha.mem L hL).order
  have hstart := (hr.fits_loops ha.mem L hL).start
  obtain ⟨j, rfl⟩ := Nat.exists_eq_add_of_le' (show 1 ≤ i by omega)
  obtain ⟨-, hunary, -, T, -, hstack, -⟩ := hr.steps_loop ha.mem hL (i := j) (by omega)
  obtain rfl := Option.some.inj (hx.symm.trans hunary)
  rw [ShowsAt, hstack] at hshows
  obtain ⟨ds, hat, hslots⟩ := hshows
  rcases hslots with _ | ⟨_, _ | ⟨⟨w, rfl, _, _, hmarks⟩, _⟩⟩
  have hle := (hchain.places_control hr hsound mem_cons_self hL hmarks).2
  exact hat.derives_unary (ha.getElem?_statement hx) hle ha.admits hloaded hstep

omit hL

theorem Minds.statement (hminds : a.Minds t types (a.segment.bodyStart + i) m) (hstep : m.step = (.success, m'))
    (hkept : ∀ L ∈ a.segment.loops t.entries, a.Confines types L m → a.Confines types L m')
    (hmem : ∀ w ≤ a.act.top, m'.mem[w]? = (m.stored? w).or m.mem[w]?) {j : Nat}
    (hj : j = i + 1 ∨ x.op.isJump = true ∧ x.arg = .integer (ofNat (a.segment.bodyStart + j)))
    (hle : j ≤ (a.segment.statements t.entries).length) : a.Minds t types (a.segment.bodyStart + j) m' := by
  rcases hj with rfl | ⟨hjump, harg⟩
  · refine ⟨fun L hL hcovers => ?_, fun L hL hstore => ?_, fun L hL hstore => ?_⟩
    · by_cases hinside : L.Covers (a.segment.bodyStart + i)
      · exact hkept L hL (hminds.confined L hL hinside)
      · refine hchain.confines_first hr hsound hx hshows hL ?_ hmem
        unfold Loop.Covers at hcovers hinside
        omega
    · exact hchain.derives_loaded hr hsound hx hshows hL hstore hstep
    · exact hchain.derives_stepped hr hsound hx hshows hL hstore (hminds.loaded L hL hstore) hstep
  · have ha := (hsound a mem_cons_self).mem
    have hkeeps (L : Loop) (hL : L ∈ a.segment.loops t.entries) := hr.keeps_jump ha hL hx hjump harg hle
    have hcovers {L : Loop} (hL : L ∈ a.segment.loops t.entries) {pc : Nat} (hpc : L.store ≤ pc + 1 ∧ pc ≤ L.store) :
        L.Covers pc := by
      have := (hr.fits_loops ha L hL).order
      unfold Loop.Covers Loop.exit
      omega
    refine ⟨fun L hL hcovers => ?_, fun L hL hstore => ?_, fun L hL hstore => ?_⟩
    · exact hkept L hL (hminds.confined L hL (hkeeps L hL hcovers).1)
    · exact absurd hstore (hkeeps L hL (hcovers hL (by omega))).2.1
    · exact absurd hstore (hkeeps L hL (hcovers hL (by omega))).2.2

omit hchain hshows in
theorem Minds.rests_call (hminds : a.Minds t types (a.segment.bodyStart + i) m) (hop : x.op = .call)
    (hkept : ∀ L ∈ a.segment.loops t.entries, a.Confines types L m → a.Confines types L m') :
    a.Rests t types (a.segment.bodyStart + i + 1) m' := by
  have ha := (hsound a mem_cons_self).mem
  refine ⟨fun L hL hcovers => ?_, fun L hL => ⟨fun hstore => ?_, fun hstore => ?_⟩⟩
  · by_cases hinside : L.Covers (a.segment.bodyStart + i)
    · exact hkept L hL (hminds.confined L hL hinside)
    · unfold Loop.Covers at hcovers hinside
      obtain ⟨hassign, -⟩ := hr.enters_loop ha hL (i := i) (by omega)
      obtain rfl := Option.some.inj (hx.symm.trans hassign)
      cases hop
  · obtain ⟨heval, -⟩ := hr.steps_loop ha hL hstore
    obtain rfl := Option.some.inj (hx.symm.trans heval)
    cases hop
  · have horder := (hr.fits_loops ha L hL).order
    have hstart := (hr.fits_loops ha L hL).start
    obtain ⟨j, rfl⟩ := Nat.exists_eq_add_of_le' (show 1 ≤ i by omega)
    obtain ⟨-, hunary, -⟩ := hr.steps_loop ha hL (i := j) (by omega)
    obtain rfl := Option.some.inj (hx.symm.trans hunary)
    cases hop

end

section

variable (hr : t.Runnable types)

include hr

theorem Sound.rests_start (ha : a.Sound t types) (hpc : pc ≤ a.segment.bodyStart) : a.Rests t types pc m :=
  .of_fits fun L hL => by
    have horder := (hr.fits_loops ha.mem L hL).order
    have hstart := (hr.fits_loops ha.mem L hL).start
    omega

theorem Sound.minds_call (ha : a.Sound t types) (hcall : a.call = ⟨m.fp, m.pc⟩) :
    a.Minds t types m.pc.toInt.toNat m := by
  have hpc : ofNat a.segment.start = m.pc := congrArg Call.entry hcall
  have hlength := (t.contiguous_segments.stop_le ha.mem).2
  have hstop := a.segment.stop_eq t.entries
  have hshort := hr.short
  have hstart : a.segment.start ≤ a.segment.bodyStart := Nat.le_add_right _ _
  refine (ha.rests_start hr ?_).minds
  rw [← hpc, Word.toInt_ofNat (by omega)]
  exact hstart

theorem Steady.of_enter (h : Steady t types (a :: rest) m) (hat : At a.act a.segment.bodyStart [] m')
    (hmem : m'.mem = m.mem) : Steady t types (a :: rest) m' := by
  obtain ⟨⟨hsound, hchain, -⟩, hwaits, -⟩ := h
  refine ⟨⟨hsound, hchain, .of_at hat⟩, hwaits.mono fun c hc L hL hconfines => ?_, ?_⟩
  · exact hconfines.same hr hsound hchain (mem_of_mem_tail hc) hL fun w _ => by rw [hmem]
  · rintro _ ⟨⟩
    rw [hat.toNat_pc]
    exact ((hsound a mem_cons_self).rests_start hr (Nat.le_refl _)).minds

theorem Steady.of_statement (h : Steady t types (a :: rest) m) (hover : ¬t.Overruns types m) {i : Nat} {x : Instr}
    (hshows : a.ShowsAt t types i m) (hx : (a.segment.statements t.entries)[i]? = some x)
    (hstep : m.step = (.success, m')) {j : Nat} (hle : j ≤ (a.segment.statements t.entries).length)
    (hj : j = i + 1 ∨ x.op.isJump = true ∧ x.arg = .integer (ofNat (a.segment.bodyStart + j)))
    (hleads : Shows.Leads a.act m (a.segment.bodyStart + j)
      (t.stackAt types True a.segment (a.segment.bodyStart + j)) m') : Steady t types (a :: rest) m' := by
  obtain ⟨⟨hsound, hchain, -⟩, hwaits, hminds⟩ := h
  obtain ⟨hshows', hmem⟩ := hleads
  have hminds := hminds a rfl
  rw [hshows.toNat_pc] at hminds
  have hrespects := hminds.respects hr hsound hchain hshows hx hover
  have hkept (c : Activity) (hc : c ∈ a :: rest) (L : Loop) (hL : L ∈ c.segment.loops t.entries)
      (hconfines : c.Confines types L m) : c.Confines types L m' :=
    hconfines.store hr hsound hchain hrespects hc hL fun w hw =>
      hmem w (Nat.le_trans hw (hchain.top_le hc))
  have hstop := a.segment.stop_eq t.entries
  refine ⟨⟨hsound, hchain, .inr ⟨_, by omega, by omega, hshows'⟩⟩,
    hwaits.mono fun c hc => hkept c (mem_of_mem_tail hc), ?_⟩
  rintro _ ⟨⟩
  rw [hshows'.toNat_pc]
  exact hminds.statement hr hsound hchain hx hshows hstep (hkept a mem_cons_self) hmem hj hle

theorem Steady.of_call (h : Steady t types (a :: rest) m) {i : Nat} {x : Instr}
    (hshows : a.ShowsAt t types i m) (hx : (a.segment.statements t.entries)[i]? = some x) (hop : x.op = .call) {ds : List Datum} {hops : Nat}
    (hstarts : a.Starts t types x m ds (a.segment.bodyStart + i + 1) hops b m') :
    Steady t types (b :: a :: rest) m' := by
  obtain ⟨hlive, hwaits, hminds⟩ := h
  have hminds := hminds a rfl
  rw [hshows.toNat_pc] at hminds
  have hkept (c : Activity) (hc : c ∈ a :: rest) (L : Loop) (hL : L ∈ c.segment.loops t.entries)
      (hconfines : c.Confines types L m) : c.Confines types L m' :=
    hconfines.same hr hlive.1 hlive.2.1 hc hL fun w hw => by
      have htop := hlive.2.1.top_le hc
      have hfp := hstarts.awaits.opens.fp
      exact hstarts.below w (by omega)
  refine ⟨hlive.cons hstarts, ⟨⟨ds, _, hops, hstarts.awaits, ?_⟩, ?_⟩, ?_⟩
  · exact hminds.rests_call hr hlive.1 hx hop (hkept a mem_cons_self)
  · exact hwaits.mono fun c hc => hkept c (mem_of_mem_tail hc)
  · rintro _ ⟨⟩
    exact hstarts.sound.minds_call hr hstarts.call_eq

theorem Steady.of_leave (h : Steady t types (a :: c :: rest) m)
    (hat : At a.act (a.segment.bodyStart + (a.segment.statements t.entries).length) [] m)
    (hstep : m.step = (.success, m')) : Steady t types (c :: rest) m' := by
  obtain ⟨⟨hsound, ⟨-, hchain⟩, -⟩, ⟨⟨ds, back, hops, hawaits, hrests⟩, hwaits⟩, -⟩ := h
  obtain ⟨ha, hsound⟩ := forall_mem_cons.mp hsound
  obtain ⟨r, m₁, hstep', -, hafter, hmem⟩ := ha.step_leave hr (hsound c mem_cons_self) hawaits hat
  obtain rfl : m' = m₁ := congrArg Prod.snd (hstep.symm.trans hstep')
  have hkept (b : Activity) (hb : b ∈ c :: rest) (L : Loop) (hL : L ∈ b.segment.loops t.entries)
      (hconfines : b.Confines types L m) : b.Confines types L m' :=
    hconfines.same hr hsound hchain hb hL fun w hw => by
      have htop := hchain.top_le hb
      exact hmem w (by omega)
  refine ⟨⟨hsound, hchain, hawaits.resume hafter⟩, hwaits.mono fun b hb => hkept b (mem_of_mem_tail hb), ?_⟩
  rintro _ ⟨⟩
  rw [hafter.toNat_pc]
  exact Rests.minds ⟨fun L hL hcovers => hkept c mem_cons_self L hL (hrests.confined L hL hcovers), hrests.apart⟩

/-- A step keeps the control variables in the ranges of their types, unless a loop steps from the last value. -/
theorem Steady.step (h : Steady t types as m) (hover : ¬t.Overruns types m) {x : Instr} (hfetch : m.fetch? = some x)
    (hstep : m.step = (.success, m')) : ∃ as', Follows x m' as as' ∧ Steady t types as' m' := by
  cases as with
  | nil =>
    obtain ⟨hcode, ⟨hfresh, hdata⟩ | ⟨hpc, hsp⟩⟩ := h.1
    · obtain ⟨b, m₁, hfetch', hstep', hlive, hcall, -⟩ := step_fresh hr hcode hfresh hdata
      obtain rfl : m' = m₁ := congrArg Prod.snd (hstep.symm.trans hstep')
      obtain rfl := Option.some.inj (hfetch.symm.trans hfetch')
      refine ⟨[b], .call rfl hcall, hlive, trivial, ?_⟩
      rintro _ ⟨⟩
      exact (hlive.1 b mem_cons_self).minds_call hr hcall
    · rw [step_eq_execute (n := 0) (fetch?_halt hcode hpc) rfl (by rw [hsp]; decide)] at hstep
      cases hstep
  | cons a rest =>
    obtain ⟨hsound, hchain, hruns⟩ := h.1
    have ha := hsound a mem_cons_self
    rcases ha.runsAt_cases hr hruns with ⟨A, hA, hat, hstart⟩ | ⟨i, y, hx, hfetch', hshows⟩ | ⟨hat, hfetch'⟩
    · obtain ⟨y, hfetch', hop, hgoes⟩ := ha.step_enter hr hA hat hstart
      obtain rfl := Option.some.inj (hfetch.symm.trans hfetch')
      rw [hstep] at hgoes
      obtain ⟨hat', hmem⟩ := hgoes.success
      refine ⟨_, .stay ?_ ?_, h.of_enter hr hat' hmem⟩ <;>
      · rw [hop]
        exact ⟨Opcode.noConfusion, Opcode.noConfusion⟩
    · obtain rfl := Option.some.inj (hfetch.symm.trans hfetch')
      by_cases hcall : x.op = .call
      · have hgoes := ha.step_call hr hshows hx hcall
        rw [hstep] at hgoes
        obtain ⟨b, ds, hops, hstarts⟩ := hgoes.success
        exact ⟨_, .call hcall hstarts.call_eq, h.of_call hr hshows hx hcall hstarts⟩
      · have hgoes := ha.step_statement hr hshows hx hcall
        rw [hstep] at hgoes
        obtain ⟨j, hle, hj, hleads⟩ := hgoes.success
        exact ⟨_, .statement hr ha.mem hx hcall, h.of_statement hr hover hshows hx hstep hle hj hleads⟩
    · obtain rfl := Option.some.inj (hfetch.symm.trans hfetch')
      refine ⟨rest, .ret (leave_op _), ?_⟩
      cases rest with
      | nil =>
        obtain ⟨hbegins, -, hroutine⟩ := hchain
        obtain ⟨m₁, hstep', hcode, -, hpc, -, hsp⟩ := ha.step_leave_main hbegins hroutine hat
        obtain rfl : m' = m₁ := congrArg Prod.snd (hstep.symm.trans hstep')
        exact ⟨⟨hcode, .inr ⟨hpc, hsp⟩⟩, trivial, fun b hb => nomatch hb⟩
      | cons c rest => exact h.of_leave hr hat hstep

/-- Along a run in which no loop steps from the last value, the control variables stay in the ranges of their
types. -/
theorem Steady.runs (h : Live t types [] m) {past : List Machine} {calls : List Call} (hruns : Runs m past m' calls)
    (hover : ∀ s ∈ past, ¬t.Overruns types s) : ∃ as, Steady t types as m' ∧ calls = as.map Activity.call := by
  induction hruns with
  | nil => exact ⟨[], ⟨h, trivial, fun a ha => nomatch ha⟩, rfl⟩
  | @snoc _ m₁ _ _ _ _ hmove ih =>
    obtain ⟨hover, hlast⟩ := forall_mem_append.mp hover
    obtain ⟨as, hsteady, rfl⟩ := ih hover
    obtain ⟨x, hfetch, -⟩ := hsteady.1.step hr
    obtain ⟨as', hfollows, hsteady'⟩ :=
      hsteady.step hr (hlast m₁ mem_cons_self) hfetch hmove.step_eq
    rw [← append_nil as] at hfollows
    obtain ⟨inner, rfl, rfl⟩ := hfollows.exists_inner hfetch hmove
    exact ⟨_, hsteady', by rw [append_nil]⟩

end

end Activity

end MiniPascal
