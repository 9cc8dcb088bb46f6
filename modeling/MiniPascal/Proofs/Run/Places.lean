import MiniPascal.Proofs.Run.Live
import MiniPascal.Proofs.Tree.Stores

/-!
# Places in a run

The variables of the activities of a run lie apart from each other in the memory, so the scalar at a word has one
type. An assignment stores a value of that type, and a copy stores a whole aggregate.
-/

namespace MiniPascal

open Machine

def Bounds.Admits (b : Bounds) (d : Datum) : Prop :=
  ∃ v, d.ordinal? = some v ∧ b.lower.toInt ≤ v.toInt ∧ v.toInt ≤ b.upper.toInt

/-! ### Segments -/

def Segment.loops (g : Segment) (entries : Entries) : List Loop := g.body.loops entries g.bodyStart

namespace ProgramTree

variable {t : ProgramTree} {types : TypeTable}

section

variable (hr : t.Runnable types) {g : Segment} (hg : g ∈ t.segments)

include hr hg

theorem Runnable.laid_level : g.level.Laid types True := (hr.laid g hg).levels g.level List.mem_cons_self

omit hg in
theorem Runnable.formed : types.Formed True := hr.typed.formed.formed

/-- The statements of a segment store what they should. Only the steps of loops store what was not checked. -/
theorem Runnable.heeds_statements {i : Nat} {x : Instr} (hx : (g.statements t.entries)[i]? = some x) :
    x.Heeds (t.contextAt types True g) (∃ L ∈ g.loops t.entries, L.store = g.bodyStart + i)
      (t.stackAt types True g (g.bodyStart + i)) := by
  have hheeded : Heeded (t.contextAt types True g) t.signatures (fun a => ∃ L ∈ g.loops t.entries, L.store = a)
      g.bodyStart [] (g.statements t.entries) :=
    Stmt.heeded_code (hr.laid g hg) trivial (hr.typed.sound hg).1.body g.bodyStart [] fun L hL => ⟨L, hL, rfl⟩
  unfold stackAt
  rw [Nat.add_sub_cancel_left]
  exact hheeded i x hx

theorem Runnable.fits_loops : ∀ L ∈ g.loops t.entries, L.Fits (t.contextAt types True g) t.signatures
    g.bodyStart [] (g.statements t.entries) :=
  Stmt.loops_fit (hr.laid g hg) (hr.typed.sound hg).1.body g.bodyStart []

end

end ProgramTree

/-! ### Places -/

namespace Activity

variable {t : ProgramTree} {types : TypeTable} {a b c : Activity} {as rest : List Activity} {m m' : Machine} {w : Nat}
  {ty ty' : TypeId}

/-- A word lies among those of an activity. -/
def Spans (types : TypeTable) (b : Activity) (w : Nat) : Prop :=
  b.act.fp ≤ w + types.total b.segment.info.routine.params ∧ w ≤ b.act.top

/-- A variable of an activity, or its result, starts at a word. -/
def Places (as : List Activity) (w : Nat) (ty : TypeId) : Prop :=
  ∃ b ∈ as, b.segment.level.Places ((w : Int) - b.act.fp) ty

/-- At a word lies a value of a type: a variable of an activity, its result, or a part of them. -/
def Locates (types : TypeTable) (as : List Activity) (w : Nat) (ty : TypeId) : Prop :=
  ∃ b ∈ as, b.segment.level.Locates types ((w : Int) - b.act.fp) ty

theorem Places.locates (h : Places as w ty) : Locates types as w ty := by
  obtain ⟨b, hb, hplaces⟩ := h
  exact ⟨b, hb, hplaces.locates⟩

/-- The words of different activities lie apart. -/
theorem Chain.eq_of_spans (h : Chain t types as) (hb : b ∈ as) (hc : c ∈ as) (hbw : b.Spans types w)
    (hcw : c.Spans types w) : b = c := by
  induction as with
  | nil => cases hb
  | cons a rest ih =>
    cases rest with
    | nil => rw [List.mem_singleton.mp hb, List.mem_singleton.mp hc]
    | cons d rest =>
      obtain ⟨⟨ds, back, hops, hawaits⟩, hchain⟩ := h
      have hfp := hawaits.opens.fp
      -- the outer activities end below the arguments of the innermost one
      have below {e : Activity} (he : e ∈ d :: rest) (hew : e.Spans types w) : ¬a.Spans types w := by
        intro haw
        have htop := hchain.top_le he
        have hlower := haw.1
        have hupper := hew.2
        omega
      rcases List.mem_cons.mp hb with rfl | hb' <;> rcases List.mem_cons.mp hc with rfl | hc'
      · rfl
      · exact absurd hbw (below hc' hcw)
      · exact absurd hcw (below hb' hbw)
      · exact ih hchain hb' hc'

section

variable (hr : t.Runnable types)

include hr

/-- What an activity has lies among its words. -/
theorem Sound.spans (h : b.Sound t types) (hlocates : b.segment.level.Locates types ((w : Int) - b.act.fp) ty)
    {i : Nat} (hi : i < types.words ty) : b.Spans types (w + i) := by
  have hbounds := (hlocates.bounds trivial (hr.laid_level h.mem) hr.formed).2
  have htop := h.top
  unfold Spans
  have hparams : types.total b.segment.level.routine.params = types.total b.segment.info.routine.params := rfl
  have hvars : types.total b.segment.level.vars = types.total b.segment.info.vars := rfl
  omega

variable (hchain : Chain t types as) (hsound : ∀ b ∈ as, b.Sound t types)

include hchain hsound

/-- A scalar variable is no part of anything else, and shares no word with it. -/
theorem Chain.eq_of_places (hplaces : Places as w ty) (hscalar : types.isAggregate ty = false) {w' : Nat}
    (hlocates : Locates types as w' ty') (hw : w' ≤ w ∧ w < w' + types.words ty') : w' = w ∧ ty' = ty := by
  obtain ⟨b, hb, hplaces⟩ := hplaces
  obtain ⟨c, hc, hlocates⟩ := hlocates
  have hlaid := hr.laid_level (hsound b hb).mem
  have hpos := (hplaces.toInt_size trivial hlaid hr.formed).2
  have hspans := (hsound b hb).spans hr hplaces.locates (i := 0) (by omega)
  have hspans' := (hsound c hc).spans hr hlocates (i := w - w') (by omega)
  rw [Nat.add_sub_cancel' hw.1] at hspans'
  obtain rfl := hchain.eq_of_spans hb hc hspans hspans'
  obtain ⟨heq, rfl⟩ := hlocates.eq_of_places trivial hlaid hr.formed hplaces hscalar (by omega)
  exact ⟨by omega, rfl⟩

theorem Chain.locates_unique (h : Locates types as w ty) (h' : Locates types as w ty')
    (hty : types.isAggregate ty = false) (hty' : types.isAggregate ty' = false) : ty = ty' := by
  obtain ⟨b, hb, hlocates⟩ := h
  obtain ⟨c, hc, hlocates'⟩ := h'
  have hlaid := hr.laid_level (hsound b hb).mem
  have hspans := (hsound b hb).spans hr hlocates (hlocates.bounds trivial hlaid hr.formed).1
  have hspans' := (hsound c hc).spans hr hlocates'
    (hlocates'.bounds trivial (hr.laid_level (hsound c hc).mem) hr.formed).1
  obtain rfl := hchain.eq_of_spans hb hc hspans hspans'
  exact hlocates.unique trivial hlaid hr.formed hlocates' hty hty'

end

/-- A frame that is visible in an activity is that of an activity of the block. -/
theorem Chain.exists_level (h : Chain t types (a :: rest)) {k f : Nat} {l : Level}
    (hl : a.segment.levels[k]? = some l) (hf : (a.act.fp :: a.act.outer)[k]? = some f) :
    ∃ b ∈ a :: rest, b.segment.level = l ∧ b.act.fp = f := by
  obtain ⟨b, hb, hblock, hframe⟩ := h.exists_enclosing (List.getElem?_eq_some_iff.mp hl).1
  have hhead : b.segment.levels.head? = some l := by
    rw [hblock, List.head?_drop]
    exact hl
  exact ⟨b, hb, Option.some.inj hhead, Option.some.inj (hframe.symm.trans hf)⟩

/-- The address of a value of some type is one of an activity that is visible. -/
theorem Chain.locates (h : Chain t types (a :: rest)) {spot : Spot}
    (hspots : (t.contextAt types True a.segment).Spots spot ty) (hmarks : spot.Marks (a.act.fp :: a.act.outer) w) :
    Locates types (a :: rest) w ty := by
  obtain ⟨l, hl, hlocates⟩ := hspots
  obtain ⟨f, d, hf, hsums, heq⟩ := hmarks
  obtain ⟨b, hb, rfl, rfl⟩ := h.exists_level hl hf
  refine ⟨b, hb, ?_⟩
  rw [show (w : Int) - b.act.fp = spot.offset.toInt + d by omega]
  exact hlocates d hsums

/-- The address of a variable is that of a variable of an activity that is visible. -/
theorem Chain.places (h : Chain t types (a :: rest)) (hr : t.Runnable types) (ha : a.segment ∈ t.segments)
    {v : Variable} (hv : (t.contextAt types True a.segment).Declares v)
    (hmarks : v.spot.Marks (a.act.fp :: a.act.outer) w) : Places (a :: rest) w v.type := by
  obtain ⟨l, hl, hplaces⟩ := (hr.laid _ ha).places_variable trivial hv
  obtain ⟨f, d, hf, rfl, heq⟩ := hmarks
  obtain ⟨b, hb, rfl, rfl⟩ := h.exists_level hl hf
  refine ⟨b, hb, ?_⟩
  rw [show (w : Int) - b.act.fp = v.spot.offset.toInt by omega]
  exact hplaces

/-! ### What is stored -/

section

variable (hr : t.Runnable types) (ha : a.Sound t types) {i : Nat} {x : Instr}
  (hshows : a.ShowsAt t types i m) (hx : (a.segment.statements t.entries)[i]? = some x)

include hr ha hshows hx

theorem Sound.exists_stored (hop : x.op = .assign) (harg : x.arg = .integer 1) {v : Slot} {k : Int} {spot : Spot}
    {T : List Slot} (hstack : t.stackAt types True a.segment (a.segment.bodyStart + i) = v :: .place k spot :: T) :
    ∃ w d, m.Stores w d ∧ v.Holds a.act.writable (a.act.fp :: a.act.outer) d ∧
      spot.Marks (a.act.fp :: a.act.outer) w := by
  have hsafe := (hr.typed.meets_statements ha.mem (hr.laid _ ha.mem) hx).1.safe trivial
  have hfetch := hshows.fetch?_eq (ha.getElem?_statement hx)
  have hcount : x.count = 1 := by
    unfold Instr.count
    rw [harg]
    rfl
  simp only [Instr.Safe, hop, hcount, hstack] at hsafe
  obtain ⟨words, spot', hslot, -, hle⟩ := hsafe
  obtain ⟨rfl, -⟩ := Slot.place.inj (Option.some.inj hslot)
  rw [ShowsAt, hstack] at hshows
  exact hshows.exists_assigned hfetch hop harg hle

/-- An assignment stores a value of the type of what lies there, unless it is the step of a loop. -/
theorem Sound.exists_assigned (hchain : Chain t types (a :: rest)) (hop : x.op = .assign) :
    ∃ w d ty, m.Stores w d ∧ Locates types (a :: rest) w ty ∧ types.isAggregate ty = false ∧
      ((∃ L ∈ a.segment.loops t.entries, L.store = a.segment.bodyStart + i) ∨
        (types.isNarrow ty = true → (types.bounds ty).Admits d)) := by
  obtain ⟨v, k, spot, ty, T, hstack, harg, hspots, hscalar, hchecks⟩ := hr.heeds_statements ha.mem hx hop
  obtain ⟨w, d, hstores, hholds, hmarks⟩ := ha.exists_stored hr hshows hx hop harg hstack
  refine ⟨w, d, ty, hstores, hchain.locates hspots hmarks, hscalar, hchecks.imp_right fun hchecks hnarrow => ?_⟩
  rw [hchecks hnarrow] at hholds
  exact hholds

theorem Sound.exists_copied (hchain : Chain t types (a :: rest)) (hop : x.op = .copy) :
    ∃ w source ty, m.transfer? = some ⟨w, source, types.words ty⟩ ∧ Locates types (a :: rest) w ty ∧
      types.isAggregate ty = true := by
  have hfetch := hshows.fetch?_eq (ha.getElem?_statement hx)
  have hsafe := (hr.typed.meets_statements ha.mem (hr.laid _ ha.mem) hx).1.safe trivial
  unfold ShowsAt at hshows
  generalize t.stackAt types True a.segment (a.segment.bodyStart + i) = S at hshows hsafe
  simp only [Instr.Safe, hop] at hsafe
  obtain ⟨_, _, T, ty, rfl, harg, hpos, haggregate, ⟨_, _, rfl, hwords, -⟩, _, _, rfl, hwords', hspots⟩ := hsafe
  have hcount : x.count = (types.size ty).toInt := by
    unfold Instr.count
    rw [harg]
    rfl
  change (types.size ty).toInt ≤ _ at hwords hwords'
  have hsize : (types.size ty).toInt = types.words ty := by
    unfold TypeTable.words
    omega
  obtain ⟨w, source, htransfer, hmarks⟩ := hshows.exists_copied hfetch hop harg hsize (by omega) (by omega)
  exact ⟨w, source, ty, htransfer, hchain.locates hspots hmarks, haggregate⟩

theorem Sound.admits_argument {ds : List Datum} {back hops : Nat} (hop : x.op = .call)
    (hstarts : a.Starts t types x m ds back hops b m') {f : Field} (hf : f ∈ b.segment.info.routine.params)
    (hnarrow : types.isNarrow f.type = true) :
    ∃ d, m'.mem[(b.act.fp + f.frameOffset.toInt).toNat]? = some d ∧ (types.bounds f.type).Admits d := by
  have hsafe := (hr.typed.meets_statements ha.mem (hr.laid _ ha.mem) hx).1.safe trivial
  simp only [Instr.Safe, hop] at hsafe
  obtain ⟨-, r, -, -, hr', -, vs, T, hS, hpasses⟩ := hsafe
  have hshort := hr.short
  have hsig : t.signatures x.arg = some b.segment.info.routine := by
    rw [hstarts.arg]
    exact ProgramTree.signatures_start (by omega) hstarts.sound.mem
  obtain rfl := Option.some.inj (hr'.symm.trans hsig)
  have hlaid := hr.laid_level hstarts.sound.mem
  have hsized (ty : TypeId) (hty : types.Has ty) : 1 ≤ (types.size ty).toInt := (hr.formed.size hty trivial).1
  obtain ⟨hoffset, hlower, hupper⟩ := hlaid.frameOffset_param trivial hsized hf
  have hsize := hsized f.type (hlaid.routine.types f hf)
  have hslot := hpasses.getElem? hr.formed trivial hlaid.routine.types hlaid.routine.placed
    (hlaid.toInt_start trivial hsized) (hlaid.small trivial).1 hf hnarrow
  obtain ⟨ds', hat, hslots⟩ := hshows
  rw [hS] at hslots
  obtain ⟨d, hd, hholds⟩ := Slot.Holds.getElem? hslots
    ((List.getElem?_append_left (List.getElem?_eq_some_iff.mp hslot).1).trans hslot)
  have hword := hat.temporary.getElem?_sub hd
  have hsp := hat.sp
  have hfp := hstarts.sp
  refine ⟨d, ?_, hholds⟩
  rw [hstarts.below _ (by omega), ← hword]
  congr 1
  omega

end

end Activity

end MiniPascal
