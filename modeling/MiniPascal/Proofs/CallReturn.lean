import MiniPascal.Proofs.Run.Program

/-!
# Calls and their returns

However a call goes on, with calls inside it and variables of other blocks changed by it, once it returns the caller
goes on behind the call in its own frame, with a result in place of the arguments. Apart from what was assigned, the
words below the arguments are as they were.
-/

namespace MiniPascal

open List Word

open Machine

/-- What the return from a call of a subprogram leaves. The states are the one at the call, the one at the start of
the body, those on the way, and the one after the return. -/
structure Routine.Returned (r : Routine) (before start : Machine) (during : List Machine) (after : Machine) :
    Prop where
  pc : after.pc = before.pc + 1
  fp : after.fp = before.fp
  sp : after.sp = before.sp - r.paramSize + if r.result.isSome then 1 else 0
  /-- The result is what was stored last in the slot for it. -/
  result : r.result.isSome = true → after.read? after.sp =
    some ((lastStored? (start.fp + FrameSlot.result.offset).toInt.toNat during).getD (.integer 0))
  /-- Words are only changed by assignments and copies. -/
  kept : ∀ w : Nat, w ≤ (before.sp - r.paramSize).toInt →
    (∀ m ∈ during, ∀ b, m.transfer? = some b → b.covers w = false) → after.mem[w]? = before.mem[w]?

namespace Activity

variable {t : ProgramTree} {types : TypeTable} {a : Activity} {rest : List Activity} {m m₁ m₂ : Machine}
  {during : List Machine}

/-- The words of an activity at its end are those at its start, apart from what was stored last. -/
theorem getElem?_of_kept (h : ∀ w ≤ a.act.top, m₂.mem[w]? = (lastStored? w during).or m₁.mem[w]?) {w : Nat}
    (hw : w ≤ a.act.top) (hnone : ∀ m ∈ during, ∀ b, m.transfer? = some b → b.covers w = false) :
    m₂.mem[w]? = m₁.mem[w]? := by
  rw [h w hw, lastStored?_eq_none hnone, Option.none_or]

variable (hr : t.Runnable types)

include hr

theorem Starts.returned {x : Instr} {pc hops : Nat} {ds ds₀ : List Datum} {b : Activity}
    (h : a.Starts t types x m ds (pc + 1) hops b m₁) (ha : a.Sound t types) (hat : At a.act pc ds₀ m)
    (hkept : ∀ w ≤ b.act.top, m₂.mem[w]? = (lastStored? w during).or m₁.mem[w]?)
    (hend : At b.act (b.segment.bodyStart + (b.segment.statements t.entries).length) [] m₂) :
    ∃ m₃, m₂.step = (.success, m₃) ∧ b.segment.info.routine.Returned m m₁ during m₃ := by
  obtain ⟨r, m₃, hstep, hresult, hafter, hbelow⟩ := h.sound.step_leave hr ha h.awaits hend
  have hopens := h.awaits.opens
  have hfp := hopens.fp
  have htop := hopens.top
  have hsp := h.sp
  have hsize := hat.size_le
  have hle : b.act.fp ≤ 2 ^ 62 := by
    have := hat.sp
    omega
  have hparams := h.sound.toInt_paramSize hr
  have hheight : (m.sp - b.segment.info.routine.paramSize).toInt = a.act.top + ds.length := by
    rw [sub_eq rfl hparams (by omega)]
    omega
  have hslot : (m₁.fp + FrameSlot.result.offset).toInt.toNat = b.act.fp + 3 := by
    obtain ⟨hstart, -⟩ := Call.mk.inj h.call_eq
    rw [← hstart, add_eq (toInt_ofNat (by omega)) (y := 3) rfl (by omega)]
    rfl
  refine ⟨m₃, hstep, ?_, ?_, ?_, fun hfunction => ?_, fun w hw hnone => ?_⟩
  · have hpc := hafter.pc
    have hlt := m₃.pc.toInt_lt
    rw [← Int64.toInt_inj, hpc, add_eq hat.pc toInt_one (by omega)]
    rfl
  · rw [hafter.fp_eq, hat.fp_eq]
  · rw [← Int64.toInt_inj, hafter.sp]
    cases b.segment.info.routine.result.isSome with
    | true =>
      rw [if_pos rfl, if_pos rfl, add_eq hheight toInt_one (by omega), length_cons]
      omega
    | false => rw [if_neg Bool.false_ne_true, if_neg Bool.false_ne_true, Int64.add_zero, hheight]
  · rw [if_pos hfunction] at hafter
    rw [hafter.read_top, hslot]
    have hlast := hkept (b.act.fp + 3) htop
    rw [hresult, h.result, Option.or_some] at hlast
    exact hlast
  · rw [hheight] at hw
    rw [hbelow w (by omega), getElem?_of_kept hkept (by omega) hnone, h.below w (by omega)]

section

variable {x y : Instr} (hfetch : m.fetch? = some x) (hop : x.op = .call) (hstep : m.step = (.success, m₁))
  (hruns : Runs m₁ during m₂ []) (hfetch' : m₂.fetch? = some y) (hret : y.op = .ret ∨ y.op = .retf)

include hfetch hop hstep hruns hfetch' hret

theorem Live.returned_cons (h : Live t types (a :: rest) m) : ∃ g ∈ t.segments, x.arg = .integer (Int64.ofNat g.start) ∧
      ∃ m₃, m₂.step = (.success, m₃) ∧ g.info.routine.Returned m m₁ during m₃ := by
  obtain ⟨pc, ds₀, b, ds, hops, hat, hstarts, hkept, hend⟩ := h.called hr hfetch hop hstep hruns hfetch' hret
  exact ⟨b.segment, hstarts.sound.mem, hstarts.arg, hstarts.returned hr (h.1 a mem_cons_self) hat hkept hend⟩

theorem Live.returned_nil (h : Live t types [] m) : ∃ g ∈ t.segments, x.arg = .integer (Int64.ofNat g.start) ∧
      ∃ m₃, m₂.step = (.success, m₃) ∧ g.info.routine.Returned m m₁ during m₃ := by
  obtain ⟨hcode, ⟨hfresh, hdata⟩ | hended⟩ := h
  · obtain ⟨b, m', hfetch₁, hstep₁, hlive, -, hzero, -⟩ := step_fresh hr hcode hfresh hdata
    obtain rfl := Option.some.inj (hfetch₁.symm.trans hfetch)
    obtain rfl : m' = m₁ := congrArg Prod.snd (hstep₁.symm.trans hstep)
    obtain ⟨inner, hlive', hinner, hkept⟩ := hlive.runs hr hruns
    obtain rfl : inner = [] := map_eq_nil_iff.mp hinner.symm
    have hb := hlive.1 b mem_cons_self
    obtain ⟨hbegins, -, hroutine⟩ := hlive.2.1
    obtain ⟨m₃, hstep₃, -, hmem, hpc, hfp, hsp⟩ :=
      hb.step_leave_main hbegins hroutine (hlive'.at_leave hr hfetch' hret)
    refine ⟨b.segment, hb.mem, rfl, m₃, hstep₃, ?_⟩
    rw [hroutine]
    refine ⟨?_, ?_, ?_, fun hfunction => absurd hfunction Bool.false_ne_true, fun w hw hnone => ?_⟩
    · rw [hpc, hfresh.pc]
      rfl
    · rw [hfp, hfresh.fp]
    · rw [hsp, hfresh.sp]
      show (0 : Int64) = 0 - 0 + 0
      decide
    · have hle : (w : Int) ≤ (m.sp - 0).toInt := hw
      rw [hfresh.sp, Int64.sub_zero, toInt_zero] at hle
      obtain rfl : w = 0 := by omega
      rw [hmem, getElem?_of_kept (hkept b mem_cons_self) (Nat.zero_le _) hnone, hzero]
  · have hhalt := fetch?_halt hcode hended.1
    obtain rfl := Option.some.inj (hhalt.symm.trans hfetch)
    cases hop

end

end Activity

/-- Every call of a run returns as it should once its body is at its end: the calls that were made from the body
have all returned then, and the next instruction is a return. -/
theorem compile_returns {source : Text} (h : Moderate source) {p : Program} (hp : (compile source).result = .ok p)
    {config : Config} (hc : config.Addressable) {past during : List Machine} {m m₁ m₂ : Machine} {calls : List Call}
    (hpast : Runs (ofCode config p.code) past m calls) {x : Instr} (hx : m.fetch? = some x) (hcall : x.op = .call)
    (hstep : m.step = (.success, m₁)) (hduring : Runs m₁ during m₂ []) {y : Instr} (hy : m₂.fetch? = some y)
    (hret : y.op = .ret ∨ y.op = .retf) : ∃ g ∈ (analyse source).1.segments, x.arg = .integer (Int64.ofNat g.start) ∧
      ∃ m₃, m₂.step = (.success, m₃) ∧ g.info.routine.Returned m m₁ during m₃ := by
  obtain ⟨as, hlive, -⟩ := (h.live hp hc).runs h.runnable hpast
  rw [append_nil] at hlive
  cases as with
  | nil => exact hlive.returned_nil h.runnable hx hcall hstep hduring hy hret
  | cons a rest => exact hlive.returned_cons h.runnable hx hcall hstep hduring hy hret

/-- A call of the function by itself, from whose body the function is called twice more. -/
theorem compile_returns_nested : ∃ p past during m m₁ m₂ calls, Moderate nestedSource ∧
    (compile nestedSource).result = .ok p ∧ Config.Addressable { stackSize := 64, heapSize := 1 } ∧
    Runs (ofCode { stackSize := 64, heapSize := 1 } p.code) past m calls ∧
    m.fetch? = some ⟨.call, 1, .integer 2⟩ ∧ m.step = (.success, m₁) ∧ Runs m₁ during m₂ [] ∧
    m₂.fetch? = some ⟨.retf, 0, .integer 1⟩ ∧
    ∃ g ∈ (analyse nestedSource).1.segments, Datum.integer 2 = .integer (Int64.ofNat g.start) ∧
      ∃ m₃, m₂.step = (.success, m₃) ∧ g.info.routine.Returned m m₁ during m₃ := by
  have hfacts : ∃ p ∈ (compile nestedSource).result.toOption,
      ∃ r ∈ (ofCode { stackSize := 64, heapSize := 1 } p.code).trace? 38,
        r.2.1.fetch? = some ⟨.call, 1, .integer 2⟩ ∧ r.2.1.step.1 = .success ∧
        ∃ r' ∈ r.2.1.step.2.trace? 63, r'.2.2.isEmpty = true ∧
          r'.2.1.fetch? = some ⟨.retf, 0, .integer 1⟩ := by decide +kernel
  obtain ⟨p, hp, ⟨past, m, calls⟩, htrace, hcall, hsuccess, ⟨during, m₂, open₂⟩, hduring, hempty, hret⟩ := hfacts
  obtain rfl : open₂ = [] := isEmpty_iff.mp hempty
  have hresult := compile_of_mem hp
  have hpast := runs_of_trace? htrace
  have hstep : m.step = (.success, m.step.2) := Prod.ext hsuccess rfl
  have hruns := runs_of_trace? hduring
  exact ⟨p, past, during, m, _, m₂, calls, moderate_nestedSource, hresult, by decide, hpast, hcall, hstep, hruns, hret,
    compile_returns moderate_nestedSource hresult (by decide) hpast hcall rfl hstep hruns hret (.inr rfl)⟩

end MiniPascal
