import MiniPascal.Proofs.Run.Loops
import MiniPascal.Proofs.Run.Program

/-!
# Subranges

A scalar whose type is a subrange gets only values of the subrange: an assignment, the start of a loop and the
passing of an argument check the value before it is stored. The steps of a loop are the exception. They stay in the
range as long as none of them starts at its last value.
-/

namespace MiniPascal

open List

open Machine

/-- At a word lies a value of a type: a variable of a call that is open, its result, or a part of them. -/
def ProgramTree.Locates (t : ProgramTree) (types : TypeTable) (calls : List Call) (w : Nat) (ty : TypeId) : Prop :=
  ∃ c ∈ calls, ∃ g ∈ t.segments, c.entry = Int64.ofNat g.start ∧ g.level.Locates types ((w : Int) - c.base.toInt) ty

/-- What an instruction gives to scalars whose type is a subrange lies in the subrange: what an assignment stores, and
what a call passes to parameters. An assignment stores into a scalar. -/
structure ProgramTree.Confined (t : ProgramTree) (types : TypeTable) (calls : List Call) (m : Machine) (x : Instr) :
    Prop where
  assigned : x.op = .assign → ∃ w d, m.Stores w d ∧ (∃ ty, t.Locates types calls w ty ∧ types.isAggregate ty = false) ∧
    ∀ ty, t.Locates types calls w ty → types.isNarrow ty = true → (types.bounds ty).Admits d
  passed : x.op = .call → ∀ m', m.step = (.success, m') → ∃ g ∈ t.segments, x.arg = .integer (Int64.ofNat g.start) ∧
    ∀ f ∈ g.info.routine.params, types.isNarrow f.type = true →
      ∃ d, m'.mem[(m'.fp.toInt + f.frameOffset.toInt).toNat]? = some d ∧ (types.bounds f.type).Admits d

instance (types : TypeTable) (L : Loop) (v : Int) : Decidable (L.Ends types v) :=
  inferInstanceAs (Decidable (if L.downward = true then _ ∨ _ else _ ∨ _))

instance (t : ProgramTree) (types : TypeTable) (m : Machine) : Decidable (t.Overruns types m) :=
  decidable_of_iff (∃ g ∈ t.segments, ∃ L ∈ g.loops t.entries, m.pc = Int64.ofNat L.store ∧
    types.isNarrow L.control.type = true ∧ ∃ b ∈ m.transfer?, ∃ v ∈ (m.mem[b.target]?).bind Datum.ordinal?,
      L.Ends types v.toInt) <| by
    constructor
    · rintro ⟨g, hg, L, hL, hpc, hnarrow, b, hb, v, hv, hends⟩
      exact ⟨L, ⟨g, hg, hL, hpc⟩, hnarrow, b, v, hb, hv, hends⟩
    · rintro ⟨L, ⟨g, hg, hL, hpc⟩, hnarrow, b, v, hb, hv, hends⟩
      exact ⟨g, hg, L, hL, hpc, hnarrow, b, hb, v, hv, hends⟩

namespace Activity

variable {t : ProgramTree} {types : TypeTable} {a b : Activity} {as rest : List Activity} {m m' : Machine} {w : Nat}
  {ty : TypeId}

/-- The frames of the outer activities lie below the current one. -/
theorem Chain.fp_le (h : Chain t types (a :: rest)) (hb : b ∈ a :: rest) : b.act.fp ≤ a.act.fp := by
  rcases mem_cons.mp hb with rfl | hb
  · exact Nat.le_refl _
  · cases rest with
    | nil => cases hb
    | cons c rest =>
      obtain ⟨⟨ds, back, hops, hawaits⟩, hchain⟩ := h
      have hfp := hawaits.opens.fp
      have htop := hchain.top_le hb
      have hle := b.act.linked.2.1
      omega

/-- The call of an activity knows where its frame lies. -/
theorem Live.toInt_base (h : Live t types as m) (hb : b ∈ as) : b.call.base.toInt = b.act.fp := by
  cases as with
  | nil => cases hb
  | cons a rest =>
    obtain ⟨-, hchain, hruns⟩ := h
    obtain ⟨A, pc, ds, hat, -, hfp, -⟩ := hruns.exists_at
    have hle := hchain.fp_le hb
    have hsize := hat.size_le
    have htop := A.linked.2.1
    exact Word.toInt_ofNat (by omega)

theorem Live.sound (h : Live t types as m) : ∀ b ∈ as, b.Sound t types := by
  cases as with
  | nil => exact fun b hb => nomatch hb
  | cons a rest => exact h.1

theorem Live.locates_iff (hr : t.Runnable types) (h : Live t types as m) :
    t.Locates types (as.map call) w ty ↔ Locates types as w ty := by
  constructor
  · rintro ⟨c, hc, g, hg, hentry, hlocates⟩
    obtain ⟨b, hb, rfl⟩ := mem_map.mp hc
    have hshort := hr.short
    obtain rfl := ProgramTree.eq_of_start (by omega) (h.sound b hb).mem hg hentry
    rw [h.toInt_base hb] at hlocates
    exact ⟨b, hb, hlocates⟩
  · rintro ⟨b, hb, hlocates⟩
    rw [← h.toInt_base hb] at hlocates
    exact ⟨b.call, mem_map_of_mem hb, b.segment, (h.sound b hb).mem, rfl, hlocates⟩

section

variable (hr : t.Runnable types) (h : Steady t types as m) {x : Instr}
  (hfetch : m.fetch? = some x)

include hr h hfetch

theorem Steady.admits_assigned (hover : ¬t.Overruns types m) (hop : x.op = .assign) :
    ∃ w d, m.Stores w d ∧ (∃ ty, Locates types as w ty ∧ types.isAggregate ty = false) ∧
      ∀ ty, Locates types as w ty → types.isNarrow ty = true → (types.bounds ty).Admits d := by
  obtain ⟨hlive, -, hminds⟩ := h
  cases as with
  | nil =>
    obtain ⟨hcode, ⟨hfresh, hdata⟩ | ⟨hpc, -⟩⟩ := hlive
    · obtain ⟨b, m', hfetch', -⟩ := step_fresh hr hcode hfresh hdata
      obtain rfl := Option.some.inj (hfetch.symm.trans hfetch')
      cases hop
    · obtain rfl := Option.some.inj (hfetch.symm.trans (fetch?_halt hcode hpc))
      cases hop
  | cons a rest =>
    obtain ⟨i, hx, hshows⟩ := hlive.exists_statement hr hfetch (by simp [hop])
    have hminds := hminds a rfl
    rw [hshows.toNat_pc] at hminds
    obtain ⟨hsound, hchain, -⟩ := hlive
    obtain ⟨w, d, ty, hstores, hlocates, hscalar, hchecks⟩ :=
      (hsound a mem_cons_self).exists_assigned hr hshows hx hchain hop
    refine ⟨w, d, hstores, ⟨ty, hlocates, hscalar⟩, fun ty' hlocates' hnarrow => ?_⟩
    obtain rfl := hchain.locates_unique hr hsound hlocates hlocates' hscalar (TypeTable.scalar_of_isNarrow hnarrow)
    rcases hchecks with ⟨L, hL, hstore⟩ | hchecks
    · exact hminds.admits_stepped hr hsound hchain hshows hx hover hL hstore hstores hlocates hnarrow
    · exact hchecks hnarrow

theorem Steady.admits_passed (hop : x.op = .call) (hstep : m.step = (.success, m')) :
    ∃ g ∈ t.segments, x.arg = .integer (Int64.ofNat g.start) ∧
      ∀ f ∈ g.info.routine.params, types.isNarrow f.type = true →
        ∃ d, m'.mem[(m'.fp.toInt + f.frameOffset.toInt).toNat]? = some d ∧ (types.bounds f.type).Admits d := by
  obtain ⟨hlive, -, -⟩ := h
  cases as with
  | nil =>
    obtain ⟨hcode, ⟨hfresh, hdata⟩ | ⟨hpc, -⟩⟩ := hlive
    · obtain ⟨b, m₁, hfetch', -, ⟨hsound, ⟨-, -, hroutine⟩, -⟩, -⟩ := step_fresh hr hcode hfresh hdata
      obtain rfl := Option.some.inj (hfetch.symm.trans hfetch')
      refine ⟨b.segment, (hsound b mem_cons_self).mem, rfl, fun f hf => ?_⟩
      rw [hroutine] at hf
      cases hf
    · obtain rfl := Option.some.inj (hfetch.symm.trans (fetch?_halt hcode hpc))
      cases hop
  | cons a rest =>
    obtain ⟨i, hx, hshows⟩ := hlive.exists_statement hr hfetch (by simp [hop])
    have ha := hlive.sound a mem_cons_self
    have hgoes := ha.step_call hr hshows hx hop
    rw [hstep] at hgoes
    obtain ⟨b, ds, hops, hstarts⟩ := hgoes.success
    refine ⟨b.segment, hstarts.sound.mem, hstarts.arg, fun f hf hnarrow => ?_⟩
    have hbase := (hlive.cons hstarts).toInt_base mem_cons_self
    rw [hstarts.call_eq] at hbase
    rw [hbase]
    exact ha.admits_argument hr hshows hx hop hstarts hf hnarrow

end

end Activity

/-- In every state of a run in which no loop steps from the last value of the type of its control variable, scalars
whose type is a subrange get only values of the subrange. -/
theorem compile_confines {source : Text} (h : Moderate source) {p : Program} (hp : (compile source).result = .ok p)
    {config : Config} (hc : config.Addressable) {past : List Machine} {m : Machine} {calls : List Call}
    (hruns : Runs (ofCode config p.code) past m calls)
    (hover : ∀ s ∈ past ++ [m], ¬(analyse source).1.Overruns (analyse source).2.types s) {x : Instr}
    (hx : m.fetch? = some x) : (analyse source).1.Confined (analyse source).2.types calls m x := by
  have hr := h.runnable
  have hlive := h.live hp hc
  generalize analyse source = a at *
  obtain ⟨hpast, hlast⟩ := forall_mem_append.mp hover
  obtain ⟨as, hsteady, rfl⟩ := Activity.Steady.runs hr hlive hruns hpast
  refine ⟨fun hop => ?_, fun hop m' hstep => hsteady.admits_passed hr hx hop hstep⟩
  obtain ⟨w, d, hstores, ⟨ty, hlocates, hscalar⟩, hadmits⟩ :=
    hsteady.admits_assigned hr hx (hlast m mem_cons_self) hop
  exact ⟨w, d, hstores, ⟨ty, (hsteady.1.locates_iff hr).mpr hlocates, hscalar⟩, fun ty' hlocates' =>
    hadmits ty' ((hsteady.1.locates_iff hr).mp hlocates')⟩

/-- A loop over all the values of a subrange, which calls a function for each of them and fills an array. -/
def rangesSource : Text := Text.ofChars
  (["program p; type r = 1..5; var a: array[1..3] of r; i: 1..3; ",
    "function f(n: r): r; begin f := n end; ",
    "begin for i := 1 to 3 do a[i] := f(i) end."].flatMap String.toList)

theorem moderate_rangesSource : Moderate rangesSource := by decide +kernel

/-- The loop steps to its last value, then the function is called, and the last element of the array is set. -/
theorem compile_confines_elements : ∃ p, Moderate rangesSource ∧ (compile rangesSource).result = .ok p ∧
    Config.Addressable { stackSize := 64, heapSize := 1 } ∧
    ∀ x ∈ [⟨.assign, 0, .integer 1⟩, ⟨.call, 0, .integer 2⟩], ∃ past m calls,
      Runs (ofCode { stackSize := 64, heapSize := 1 } p.code) past m calls ∧
      (∀ s ∈ past ++ [m], ¬(analyse rangesSource).1.Overruns (analyse rangesSource).2.types s) ∧
      m.fetch? = some x ∧ (analyse rangesSource).1.Confined (analyse rangesSource).2.types calls m x := by
  have hfacts : ∃ p ∈ (compile rangesSource).result.toOption,
      ∀ y ∈ [(113, ⟨.assign, 0, .integer 1⟩), (103, (⟨.call, 0, .integer 2⟩ : Instr))],
        ∃ r ∈ (ofCode { stackSize := 64, heapSize := 1 } p.code).trace? y.1, r.2.1.fetch? = some y.2 ∧
          ∀ s ∈ r.1 ++ [r.2.1], ¬(analyse rangesSource).1.Overruns (analyse rangesSource).2.types s := by decide +kernel
  obtain ⟨p, hp, hfacts⟩ := hfacts
  have hresult := compile_of_mem hp
  refine ⟨p, moderate_rangesSource, hresult, by decide, fun x hx => ?_⟩
  obtain ⟨n, hn⟩ : ∃ n, (n, x) ∈ [(113, ⟨.assign, 0, .integer 1⟩), (103, (⟨.call, 0, .integer 2⟩ : Instr))] := by
    rcases mem_pair.mp hx with rfl | rfl
    · exact ⟨113, mem_cons_self⟩
    · exact ⟨103, mem_cons_of_mem _ mem_cons_self⟩
  obtain ⟨⟨past, m, calls⟩, htrace, hfetch, hover⟩ := hfacts _ hn
  have hruns := runs_of_trace? htrace
  exact ⟨past, m, calls, hruns, hover, hfetch,
    compile_confines moderate_rangesSource hresult (by decide) hruns hover hfetch⟩

/-- A loop whose limit lies outside of the type of its control variable. -/
def overrunSource : Text := Text.ofChars "program p; var i: 1..3; begin for i := 1 to 5 do end.".toList

/-- The loop steps out of the type of its control variable, and the machine does not stop. -/
theorem compile_overruns : ∃ p past m calls, Moderate overrunSource ∧ (compile overrunSource).result = .ok p ∧
    Config.Addressable { stackSize := 64, heapSize := 1 } ∧
    Runs (ofCode { stackSize := 64, heapSize := 1 } p.code) past m calls ∧
    m.fetch? = some ⟨.assign, 0, .integer 1⟩ ∧ m.step.1 = .success ∧
    ¬(analyse overrunSource).1.Confined (analyse overrunSource).2.types calls m ⟨.assign, 0, .integer 1⟩ := by
  have hmoderate : Moderate overrunSource := by decide +kernel
  have hfacts : ∃ p ∈ (compile overrunSource).result.toOption,
      ∃ r ∈ (ofCode { stackSize := 64, heapSize := 1 } p.code).trace? 54,
        r.2.1.fetch? = some ⟨.assign, 0, .integer 1⟩ ∧ r.2.1.step.1 = .success ∧
        (∃ b ∈ r.2.1.transfer?, b.target = 5 ∧ b.count = 1 ∧ r.2.1.mem[b.source]? = some (.integer 4)) ∧
        ∃ c ∈ r.2.2, ∃ g ∈ (analyse overrunSource).1.segments, c.entry = Int64.ofNat g.start ∧
          ∃ f ∈ g.level.fields, f.frameOffset.toInt = 5 - c.base.toInt ∧
            (analyse overrunSource).2.types.isNarrow f.type = true ∧
            ((analyse overrunSource).2.types.bounds f.type) = ⟨1, 3⟩ := by decide +kernel
  obtain ⟨p, hp, ⟨past, m, calls⟩, htrace, hfetch, hstep, ⟨⟨target, source, count⟩, htransfer, rfl, rfl, hd⟩,
    c, hc, g, hg, hentry, f, hf, hoffset, hnarrow, hbounds⟩ := hfacts
  refine ⟨p, past, m, calls, hmoderate, compile_of_mem hp, by decide, runs_of_trace? htrace, hfetch, hstep,
    fun hconfined => ?_⟩
  obtain ⟨w, d, hstores, -, hadmits⟩ := hconfined.assigned rfl
  obtain ⟨rfl, rfl⟩ := hstores.unique ⟨source, htransfer, hd⟩
  have hplaces : g.level.Places ((5 : Nat) - c.base.toInt) f.type := by
    have := Level.Places.field hf
    rwa [hoffset] at this
  obtain ⟨v, hv, -, hupper⟩ := hadmits f.type ⟨c, hc, g, hg, hentry, hplaces.locates⟩ hnarrow
  obtain rfl := Option.some.inj hv
  rw [hbounds] at hupper
  exact absurd hupper (by decide)

end MiniPascal
