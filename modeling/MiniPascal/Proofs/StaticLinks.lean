import MiniPascal.Proofs.Run.Program

/-!
# Static links

The links to enclosing blocks implement lexical scoping. In every state of a run, following them from the current
frame leads to frames that are still in use, and the frame that is reached after a number of links is that of the
block which encloses the running one at that distance. So the address of a variable that an instruction pushes lies
in the frame of the block that declares the variable.
-/

namespace MiniPascal

open List

open Machine

/-- A frame is another one, or the frame of a caller of it. -/
inductive Machine.Callers (m : Machine) : Int64 → Int64 → Prop
  | here (frame : Int64) : Callers m frame frame
  | next {frame old base : Int64} (hold : m.read? (frame + FrameSlot.oldFrame.offset) = some (.address old))
      (hrest : Callers m old base) : Callers m frame base

/-- After a number of links from the current frame, which is that of a segment, there is a frame at an address. It is
the frame of a call that is still open, and that call is one of the block around the segment at that distance. -/
structure ProgramTree.Encloses (t : ProgramTree) (m : Machine) (calls : List Call) (g : Segment) (distance : Nat)
    (f : Segment) (base : Int64) : Prop where
  mem : f ∈ t.segments
  block : f.levels = g.levels.drop distance
  reached : m.follow distance m.fp = .ok base
  called : ⟨base, Int64.ofNat f.start⟩ ∈ calls
  callers : m.Callers m.fp base

namespace Activity

variable {t : ProgramTree} {types : TypeTable} {a : Activity} {rest : List Activity} {m : Machine}

/-- The frames of the outer activities are those of callers. -/
theorem Chain.callers (h : Chain t types (a :: rest)) (hfixed : a.act.Fixed m.mem) (hfp : a.act.fp < 2 ^ 62)
    {b : Activity} (hb : b ∈ a :: rest) : m.Callers (Int64.ofNat a.act.fp) (Int64.ofNat b.act.fp) := by
  induction rest generalizing a with
  | nil =>
    obtain rfl := mem_singleton.mp hb
    exact .here _
  | cons c rest ih =>
    rcases mem_cons.mp hb with rfl | hb
    · exact .here _
    · obtain ⟨⟨ds, back, hops, hawaits⟩, hchain⟩ := h
      obtain ⟨hcaller, -, hold, -⟩ := hawaits.opens.kept m.mem hfixed
      have hbelow := hawaits.opens.fp
      have htop := c.act.linked.2.1
      refine .next ?_ (ih hchain hcaller (by omega) hb)
      have hslot : (Int64.ofNat a.act.fp + FrameSlot.oldFrame.offset).toInt = (a.act.fp + 1 : Nat) :=
        Word.add_eq (Word.toInt_ofNat (by omega)) Word.toInt_one (by omega)
      rw [read?_eq hslot]
      exact hold

/-- Links lead from the current frame to the frames of activities of the blocks around. -/
theorem Live.exists_enclosing (h : Live t types (a :: rest) m) {k : Nat} (hk : k < a.segment.levels.length) :
    ∃ b ∈ a :: rest, b.segment.levels = a.segment.levels.drop k ∧ (a.act.fp :: a.act.outer)[k]? = some b.act.fp ∧
      t.Encloses m ((a :: rest).map call) a.segment k b.segment (Int64.ofNat b.act.fp) := by
  obtain ⟨hsound, hchain, hruns⟩ := h
  obtain ⟨b, hb, hblock, hframe⟩ := hchain.exists_enclosing hk
  obtain ⟨A, pc, ds, hat, -, hfp, houter, hfixed⟩ := hruns.exists_at
  refine ⟨b, hb, hblock, hframe, (hsound b hb).mem, hblock, ?_, mem_map_of_mem hb, ?_⟩
  · have hlt := (List.getElem?_eq_some_iff.mp hframe).1
    rw [← hfp, ← houter] at hframe
    rw [length_cons] at hlt
    rw [hat.fp_eq, hat.follow A.linked (by rw [houter]; omega), headD_eq_head?_getD, List.head?_drop, hframe]
    rfl
  · have hsize := hat.size_le
    have htop := A.linked.2.1
    rw [hat.fp_eq, hfp]
    exact hchain.callers hfixed (by omega) hb

/-- An instruction that pushes the address of a variable goes to the frame of the block that declares it. -/
theorem Live.step_pushVar (hr : t.Runnable types) (h : Live t types (a :: rest) m) {x : Instr}
    (hfetch : m.fetch? = some x) (hop : x.op = .pushVar) :
    ∃ (k : Nat) (offset : Int64) (f : Segment) (base : Int64), x.level.toInt = k ∧ x.arg = .integer offset ∧
      t.Encloses m ((a :: rest).map call) a.segment k f base ∧ f.level.Names offset ∧
      ∀ m', m.step = (.success, m') → m'.sp = m.sp + 1 ∧ m'.read? m'.sp = some (.address (base + offset)) := by
  have ha := h.1 a mem_cons_self
  obtain ⟨i, hx, hshows⟩ := h.exists_statement hr hfetch (by simp [hop])
  obtain ⟨hi, -⟩ := List.getElem?_eq_some_iff.mp hx
  have hmeets := (hr.typed.meets_statements ha.mem (hr.laid _ ha.mem) hx).1
  have hcode : a.act.code[a.segment.bodyStart + i]? = some x := by
    rw [ha.getElem?_code, ProgramTree.getElem?_statements ha.mem hi, hx]
  obtain ⟨ds, -, -, hat, hstep⟩ := hshows.step_eq hcode hmeets trivial
  obtain ⟨op, level, arg⟩ := x
  subst hop
  obtain ⟨k, l, offset, hlevel, rfl, hl, hnames⟩ := hmeets.safe trivial
  obtain ⟨b, -, hblock, hframe, hencloses⟩ := h.exists_enclosing (List.getElem?_eq_some_iff.mp hl).1
  -- the block at that distance is the one that has the name
  have hblock : b.segment.levels.head? = some l := by
    rw [hblock, List.head?_drop]
    exact hl
  have hdeclares : b.segment.level = l := Option.some.inj hblock
  refine ⟨k, offset, b.segment, _, hlevel, rfl, hencloses, hdeclares ▸ hnames, fun m' hm' => ?_⟩
  rw [hstep, hat.execute_pushVar hlevel hframe] at hm'
  exact hat.push_success (by rw [ha.admits]; trivial) hm'

end Activity

/-- In every state of a run with an open call, the running block is the one that was called last, its static links
lead to frames in use of all the blocks around it, and variables are found there. -/
theorem compile_scoped {source : Text} (h : Moderate source) {p : Program} (hp : (compile source).result = .ok p)
    {config : Config} (hc : config.Addressable) {past : List Machine} {m : Machine} {c : Call} {calls : List Call}
    (hruns : Runs (ofCode config p.code) past m (c :: calls)) :
    ∃ g ∈ (analyse source).1.segments, c = ⟨m.fp, Int64.ofNat g.start⟩ ∧
      (∀ k < g.levels.length, ∃ f base, (analyse source).1.Encloses m (c :: calls) g k f base) ∧
      ∀ x, m.fetch? = some x → x.op = .pushVar →
        ∃ (k : Nat) (offset : Int64) (f : Segment) (base : Int64), x.level.toInt = k ∧ x.arg = .integer offset ∧
          (analyse source).1.Encloses m (c :: calls) g k f base ∧ f.level.Names offset ∧ ∀ m', m.step = (.success, m') →
            m'.sp = m.sp + 1 ∧ m'.read? m'.sp = some (.address (base + offset)) := by
  obtain ⟨as, hlive, hcalls, -⟩ := (h.live hp hc).runs h.runnable hruns
  rw [append_nil] at hlive
  obtain ⟨a, rest, rfl, rfl, rfl⟩ := map_eq_cons_iff.mp hcalls.symm
  obtain ⟨A, pc, ds, hat, -, hfp, -⟩ := hlive.2.2.exists_at
  refine ⟨a.segment, (hlive.1 a mem_cons_self).mem, ?_, fun k hk => ?_, fun x hfetch hop => ?_⟩
  · rw [hat.fp_eq, hfp]
    rfl
  · obtain ⟨b, -, -, -, hencloses⟩ := hlive.exists_enclosing hk
    exact ⟨_, _, hencloses⟩
  · exact hlive.step_pushVar h.runnable hfetch hop

/-- The function has called itself, and pushes the address of a variable of the program. -/
theorem compile_scoped_nested : ∃ p past m c calls, Moderate nestedSource ∧
    (compile nestedSource).result = .ok p ∧ Config.Addressable { stackSize := 64, heapSize := 1 } ∧
    Runs (ofCode { stackSize := 64, heapSize := 1 } p.code) past m (c :: calls) ∧
    m.fetch? = some ⟨.pushVar, 2, .integer 8⟩ ∧
    ∃ g ∈ (analyse nestedSource).1.segments, c = ⟨m.fp, Int64.ofNat g.start⟩ ∧
      (∀ k < g.levels.length, ∃ f base, (analyse nestedSource).1.Encloses m (c :: calls) g k f base) ∧
      ∀ x, m.fetch? = some x → x.op = .pushVar →
        ∃ (k : Nat) (offset : Int64) (f : Segment) (base : Int64), x.level.toInt = k ∧ x.arg = .integer offset ∧
          (analyse nestedSource).1.Encloses m (c :: calls) g k f base ∧ f.level.Names offset ∧
          ∀ m', m.step = (.success, m') → m'.sp = m.sp + 1 ∧ m'.read? m'.sp = some (.address (base + offset)) := by
  have hfacts : ∃ p ∈ (compile nestedSource).result.toOption,
      ∃ r ∈ (ofCode { stackSize := 64, heapSize := 1 } p.code).trace? 39,
        r.2.2.isEmpty = false ∧ r.2.1.fetch? = some ⟨.pushVar, 2, .integer 8⟩ := by decide +kernel
  obtain ⟨p, hp, ⟨past, m, calls⟩, htrace, hopen, hfetch⟩ := hfacts
  have hresult := compile_of_mem hp
  have hruns := runs_of_trace? htrace
  cases calls with
  | nil => cases hopen
  | cons c calls =>
    exact ⟨p, past, m, c, calls, moderate_nestedSource, hresult, by decide, hruns, hfetch,
      compile_scoped moderate_nestedSource hresult (by decide) hruns⟩

end MiniPascal
