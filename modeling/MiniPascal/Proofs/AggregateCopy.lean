import MiniPascal.Proofs.BlockMoves
import MiniPascal.Proofs.Tree.Contexts

/-!
# Copies of aggregates

An aggregate that was just loaded is not stored from the stack: the load is taken back, and the words are copied from
address to address. In an accepted source the instruction that is taken back is always the load of the whole value, and
a machine ends with the same words either way.
-/

namespace MiniPascal

open List Opcode

namespace Machine

variable {m : Machine} {level : Int8} {n a b slot : Int64}

/-! ## Both ways to copy -/

/-- A block of words below the two topmost ones, or in the heap. -/
def Clear (m : Machine) (a n : Int64) : Prop :=
  1 ≤ a.toInt ∧ a.toInt + n.toInt ≤ m.sp.toInt - 1 ∨
    m.stackSize.toInt ≤ a.toInt ∧ a.toInt + n.toInt ≤ m.stackSize.toInt + m.heapSize.toInt

theorem Clear.inside {m' : Machine} (h : m.Clear a n) (hstack : m'.stackSize = m.stackSize)
    (hheap : m'.heapSize = m.heapSize) (hsp : m.sp.toInt - 2 ≤ m'.sp.toInt) : m'.Inside a n := by
  unfold Clear at h
  unfold Inside
  rw [hstack, hheap]
  omega

/-- The operands of a copy: the addresses of two blocks that lie below them or in the heap, with room on the stack to load
one of the blocks. -/
structure CopyOperands (m : Machine) (n target source : Int64) : Prop where
  pos : 1 ≤ n.toInt
  two : 2 ≤ m.sp.toInt
  room : m.sp.toInt - 1 + n.toInt < m.stackSize.toInt
  below : m.read? (m.sp - 1) = some (.address target)
  top : m.read? m.sp = some (.address source)
  target : m.Clear target n
  source : m.Clear source n

/-- Two machines have the same stack and the same heap. What is above the stack may differ. -/
structure SameWords (m m' : Machine) : Prop where
  sp : m'.sp = m.sp
  words : ∀ i : Nat, i ≤ m.sp.toInt ∨ m.stackSize.toInt ≤ i → m'.mem[i]? = m.mem[i]?
  heap : m'.heap = m.heap

/-- Words that are copied by way of others are those that were there. -/
theorem getElem?_move_move {mem : Array Datum} {t s k top i : Nat} (ht : t + k ≤ mem.size) (hs : s + k ≤ mem.size)
    (htop : top + k ≤ mem.size) (hi : i < top ∨ top + k ≤ i) :
    (move (move mem top s k) t top k)[i]? = (move mem t s k)[i]? := by
  have hsize := @size_move mem top s k
  rw [getElem?_move (by omega) (by omega), getElem?_move ht hs]
  split
  · rw [getElem?_move htop hs, if_pos (by omega), Nat.add_sub_cancel_left]
  · rw [getElem?_move htop hs, if_neg (by omega)]

namespace CopyOperands

variable (h : m.CopyOperands n b a) (hm : m.Laid)
include h hm

theorem copied (hx : m.fetch? = some ⟨.copy, level, .integer n⟩) : m.step = (.success,
      { m.advance with mem := move m.mem b.toInt.toNat a.toInt.toNat n.toInt.toNat, sp := m.sp - 2 }) := by
  obtain ⟨hn, htwo, hroom, hbelow, htop, hb, ha⟩ := h
  rw [step_eq_execute hx rfl (show ((2 : Nat) : Int) ≤ m.sp.toInt from htwo)]
  exact copy_eq (m := m.advance) (hm.of_extents rfl) (show m.sp.toInt < m.stackSize.toInt by omega) hn
    (ha.inside rfl rfl (show _ ≤ m.sp.toInt by omega)) (hb.inside rfl rfl (show _ ≤ m.sp.toInt by omega)) htwo htop hbelow

theorem loaded (hx : m.fetch? = some ⟨.eval, level, .integer n⟩) : m.step = (.success,
      { m.advance with mem := move m.mem m.sp.toInt.toNat a.toInt.toNat n.toInt.toNat, sp := m.sp - 1 + n }) := by
  obtain ⟨hn, htwo, hroom, hbelow, htop, hb, ha⟩ := h
  rw [step_eq_execute hx rfl (show ((1 : Nat) : Int) ≤ m.sp.toInt by omega)]
  exact eval_eq (m := m.advance) (hm.of_extents rfl) (show m.sp.toInt < m.stackSize.toInt by omega) hn
    (ha.inside rfl rfl (show _ ≤ m.sp.toInt by omega)) (show 1 ≤ m.sp.toInt by omega) htop hroom

/-- A block that was loaded is stored where it would have been copied. -/
theorem stored {l : Machine} (hlaid : l.Laid) (hstack : l.stackSize = m.stackSize)
    (hheapSize : l.heapSize = m.heapSize) (hsp : l.sp = m.sp - 1 + n) (hmem : l.mem = move m.mem m.sp.toInt.toNat a.toInt.toNat n.toInt.toNat)
    (hx : l.fetch? = some ⟨.assign, level, .integer n⟩) :
    ∃ sp mem, l.step = (.success, { l.advance with mem, sp }) ∧ sp = m.sp - 2 ∧
      ∀ i : Nat, i ≤ sp.toInt ∨ m.stackSize.toInt ≤ i →
        mem[i]? = (move m.mem b.toInt.toNat a.toInt.toNat n.toInt.toNat)[i]? := by
  obtain ⟨hn, htwo, hroom, hbelow, htop, hb, ha⟩ := h
  have hwords := hm.words
  have hheap := hm.heap_nonneg
  have hsum := hm.addressable
  have hlt : m.sp.toInt < m.stackSize.toInt := by omega
  have hasize := hm.add_le_size hlt (ha.inside rfl rfl (by omega))
  have hbsize := hm.add_le_size hlt (hb.inside rfl rfl (by omega))
  have hprev : (m.sp - 1).toInt = m.sp.toInt - 1 := Word.sub_one (by omega)
  have hlsp : l.sp.toInt = m.sp.toInt - 1 + n.toInt := hsp ▸ Word.add_eq hprev rfl (by omega)
  have hslot : l.sp - n = m.sp - 1 := by rw [hsp, Int64.add_sub_cancel]
  -- Loading leaves the address of the target below the block.
  have hread : l.read? (l.sp - n) = some (.address b) := by
    rw [← hbelow, hslot, read?_eq (n := (m.sp.toInt - 1).toNat) (by omega),
      read?_eq (n := (m.sp.toInt - 1).toNat) (by omega), hmem]
    exact (getElem?_move (by omega) (by omega) _).trans (if_neg (by omega))
  have hend : (l.sp - (n + 1)).toInt = m.sp.toInt - 2 := by
    rw [Word.sub_eq hlsp (Word.add_one (by omega)) (by omega)]
    omega
  refine ⟨_, _, (step_eq_execute hx rfl (show ((2 : Nat) : Int) ≤ l.sp.toInt by omega)).trans
    (assign_eq (m := l.advance) (hlaid.of_extents rfl) (show l.sp.toInt < l.stackSize.toInt by rw [hstack]; omega) hn
      (hb.inside hstack hheapSize (show _ ≤ l.sp.toInt by omega)) (show _ ≤ l.sp.toInt by omega) hread), ?_, ?_⟩
  · rw [← Int64.toInt_inj]
    exact hend.trans (Word.sub_eq rfl Word.toInt_two (by omega)).symm
  · intro i hi
    change (move l.mem _ (l.sp - n + 1).toInt.toNat _)[i]? = _
    rw [hslot, Int64.sub_add_cancel, hmem]
    change i ≤ (l.sp - (n + 1)).toInt ∨ _ at hi
    exact getElem?_move_move (by omega) (by omega) (by omega) (by omega)

/-- A block is copied from address to address as it is by way of the stack, also when it overlaps the block where it
goes. -/
theorem agree {code : Array Instr} {pc : Int64} {level' level'' : Int8}
    (hcopy : m.fetch? = some ⟨.copy, level, .integer n⟩)
    (heval : ({ m with code, pc } : Machine).fetch? = some ⟨.eval, level', .integer n⟩)
    (hassign : ({ m with code, pc := pc + 1 } : Machine).fetch? = some ⟨.assign, level'', .integer n⟩) :
    ∃ copied loaded stored, m.step = (.success, copied) ∧ step { m with code, pc } = (.success, loaded) ∧
      loaded.step = (.success, stored) ∧ copied.SameWords stored := by
  have hm' : ({ m with code, pc } : Machine).Laid :=
    ⟨hm.stack_pos, hm.heap_nonneg, hm.addressable, hm.words, hm.base, hm.size⟩
  have h' : ({ m with code, pc } : Machine).CopyOperands n b a :=
    ⟨h.pos, h.two, h.room, h.below, h.top, h.target, h.source⟩
  have hsize := @size_move m.mem m.sp.toInt.toNat a.toInt.toNat n.toInt.toNat
  obtain ⟨sp, mem, hstored, hsp, hwords⟩ := h'.stored hm'
    (l := { advance { m with code, pc } with
      mem := move m.mem m.sp.toInt.toNat a.toInt.toNat n.toInt.toNat, sp := m.sp - 1 + n })
    ⟨hm.stack_pos, hm.heap_nonneg, hm.addressable, (congrArg Nat.cast hsize).trans hm.words, hm.base, hm.size⟩
    rfl rfl rfl rfl hassign
  refine ⟨_, _, _, h.copied hm hcopy, h'.loaded hm' heval, hstored, hsp, fun i hi => hwords i ?_, rfl⟩
  rw [hsp]
  exact hi

end CopyOperands

end Machine

/-! ## Assignments of aggregates -/

namespace Stmt

variable {C : Context} {entries : Entries}

/-- The statements inside a statement that have no others inside them. -/
def leaves : Stmt → List Stmt
  | .seq first second => first.leaves ++ second.leaves
  | .ifThen _ _ body | .whileDo _ _ body _ | .repeatUntil body _ _ | .forLoop _ _ _ _ _ _ _ _ body _ => body.leaves
  | .ifElse _ _ body _ alternative => body.leaves ++ alternative.leaves
  | s => [s]

theorem wellTyped_of_mem_leaves {s leaf : Stmt} (hs : s.WellTyped C) (h : leaf ∈ s.leaves) : leaf.WellTyped C := by
  induction s with
  | seq first second ih₁ ih₂ => exact (mem_append.mp h).elim (ih₁ hs.1) (ih₂ hs.2)
  | ifThen _ _ _ ih => exact ih hs.2 h
  | ifElse _ _ _ _ _ ih₁ ih₂ =>
    exact (mem_append.mp h).elim (ih₁ hs.2.1) (ih₂ hs.2.2)
  | whileDo _ _ _ _ ih => exact ih hs.2 h
  | repeatUntil _ _ _ ih => exact ih hs.1 h
  | forLoop _ _ _ _ _ _ _ _ _ _ ih =>
    exact ih hs.2.2.2.2.2 h
  | _ => exact mem_singleton.mp h ▸ hs

variable (entries) in
/-- The code of a statement holds the code of the statements inside it. -/
theorem isInfix_of_mem_leaves {s leaf : Stmt} (h : leaf ∈ s.leaves) (here : Nat) :
    ∃ there, leaf.code entries there <:+: s.code entries here := by
  have left {code : List Emission} (after : List Emission) (h : ∃ there, leaf.code entries there <:+: code) :
      ∃ there, leaf.code entries there <:+: code ++ after :=
    h.imp fun _ h => h.trans (prefix_append ..).isInfix
  have right {code : List Emission} (before : List Emission) (h : ∃ there, leaf.code entries there <:+: code) :
      ∃ there, leaf.code entries there <:+: before ++ code :=
    h.imp fun _ h => h.trans (suffix_append ..).isInfix
  induction s generalizing here with
  | seq first second ih₁ ih₂ => exact (mem_append.mp h).elim (fun h => left _ (ih₁ h _)) fun h => right _ (ih₂ h _)
  | ifThen _ _ _ ih => exact right _ (ih h _)
  | ifElse _ _ _ _ _ ih₁ ih₂ =>
    exact (mem_append.mp h).elim (fun h => left _ (left _ (right _ (ih₁ h _)))) fun h => right _ (ih₂ h _)
  | whileDo _ _ _ _ ih => exact left _ (right _ (ih h _))
  | repeatUntil _ _ _ ih => exact left _ (left _ (ih h _))
  | forLoop _ _ _ _ _ _ _ _ _ _ ih =>
    exact left _ (left _ (left _ (left _ (left _ (right _ (ih h _))))))
  | _ => exact ⟨here, mem_singleton.mp h ▸ infix_rfl⟩

/-- An aggregate is stored by a copy, which takes the place of the load of the whole value. -/
structure CopiesWhole (C : Context) (entries : Entries) (target : Designator) (value : Expr) (size : Int64) (line : Nat)
    (type : TypeId) (source : Designator) (loadLine : Nat) : Prop where
  aggregate : C.types.isAggregate type = true
  fits : target.HasType C type ∧ source.HasType C type
  words : size = C.types.size type
  loads : value = .load source size loadLine
  /-- After the code of the value was written, its load is what the store takes back. -/
  taken : ∀ e e' : Emitter, source.emit e = some ((), e') →
    value.emit e = some ((), { e' with code := e'.code.push ⟨loadLine, eval.withInt size⟩ }) ∧
      Emitter.storeWhole size line { e' with code := e'.code.push ⟨loadLine, eval.withInt size⟩ } =
        some ((), { e' with code := e'.code.push ⟨line, copy.withInt size⟩ })
  copied : ∀ here, (assignWhole target value size line).code entries here =
    target.code entries ++ source.code entries ++ emitAt line [copy.withInt size]

theorem WellTyped.copiesWhole {target : Designator} {value : Expr} {size : Int64} {line : Nat} (hC : C.WellFormed)
    (h : (assignWhole target value size line).WellTyped C) :
    ∃ type source loadLine, CopiesWhole C entries target value size line type source loadLine := by
  obtain ⟨type, htarget, haggregate, rfl, hvalue⟩ := h
  obtain ⟨source, loadLine, rfl, hsource⟩ := Expr.eq_load hC hvalue haggregate
  refine ⟨type, source, loadLine, haggregate, ⟨htarget, hsource⟩, rfl, rfl, fun e e' he => ⟨?_, ?_⟩, fun here => ?_⟩
  · show (source.emit >>= fun _ => _) e = _
    rw [Emitter.bind_run he rfl]
    rfl
  · have hdrop (x : Emission) : Emitter.drop { e' with code := e'.code.push x } = some ((), e') := by
      rw [Emitter.drop, Emitter.get_bind_run, if_neg (by simp)]
      show some ((), { e' with code := (e'.code.push x).pop }) = _
      rw [Array.pop_push]
    rw [Emitter.storeWhole, Emitter.get_bind_run, Array.back?_push]
    exact Emitter.bind_run (hdrop _) rfl
  · rw [code, Expr.code, ← append_assoc]
    simp [storeWhole, emitAt, withInt]

end Stmt

theorem ProgramTree.WellTyped.copiesWhole {t : ProgramTree} {types : TypeTable} {exact : Prop} (h : t.WellTyped types exact)
    {g : Segment} (hg : g ∈ t.segments) {target : Designator} {value : Expr} {size : Int64} {line : Nat}
    (hleaf : .assignWhole target value size line ∈ g.body.leaves) : ∃ type place loadLine,
      Stmt.CopiesWhole (t.contextAt types exact g) t.entries target value size line type place loadLine ∧
      instrs (target.code t.entries) ++ instrs (place.code t.entries) ++ [copy.withInt size] <:+: instrs t.code := by
  have hformed : (t.contextAt types exact g).WellFormed := ⟨h.formed.builtins, h.formed.formed⟩
  obtain ⟨type, place, loadLine, hcopies⟩ :=
    Stmt.WellTyped.copiesWhole hformed (Stmt.wellTyped_of_mem_leaves (h.sound hg).1.body hleaf)
  obtain ⟨there, hpart⟩ := Stmt.isInfix_of_mem_leaves t.entries hleaf (g.start + g.info.entry.length)
  have hstatements : instrs (g.body.code t.entries (g.start + g.info.entry.length)) <:+: g.code t.entries := by
    rw [Segment.code, BlockInfo.code, instrs_append, instrs_append]
    exact ⟨_, _, rfl⟩
  have hsegment : g.code t.entries <:+: instrs t.code := by
    rw [t.instrs_code, flatMap_def]
    exact (infix_of_mem_flatten (mem_map_of_mem hg)).trans ((suffix_cons ..).trans (suffix_cons ..)).isInfix
  refine ⟨type, place, loadLine, hcopies, ?_⟩
  have hcode := ((hpart.map Emission.instr).trans hstatements).trans hsegment
  rwa [hcopies.copied, ← instrs, instrs_append, instrs_append, instrs_emitAt] at hcode

/-- **Aggregates are copied as they would be stored.** In an accepted source the instruction that the assignment of an
aggregate takes back is the load of the whole value, of as many words as the target has, and a copy takes its place. A
machine copies a block as it would load and store it, also when it overlaps the block where it goes. -/
theorem compile_copies_aggregates {source : Text} {p : Program} (h : (compile source).result = .ok p) :
    (∀ g ∈ (analyse source).1.segments, ∀ target value size line,
      Stmt.assignWhole target value size line ∈ g.body.leaves → ∃ type place loadLine,
          Stmt.CopiesWhole ((analyse source).1.contextAt (analyse source).2.types False g) (analyse source).1.entries
            target value size line type place loadLine ∧
          instrs (target.code (analyse source).1.entries) ++ instrs (place.code (analyse source).1.entries) ++
            [copy.withInt size] <:+: p.code.toList) ∧
    ∀ (m : Machine) (n a b : Int64) (code : Array Instr) (pc : Int64), m.Laid → m.CopyOperands n b a →
      m.fetch? = some (copy.withInt n) → ({ m with code, pc } : Machine).fetch? = some (eval.withInt n) →
      ({ m with code, pc := pc + 1 } : Machine).fetch? = some (assign.withInt n) →
      ∃ copied loaded stored, m.step = (.success, copied) ∧
        Machine.step { m with code, pc } = (.success, loaded) ∧ loaded.step = (.success, stored) ∧
        copied.SameWords stored := by
  obtain ⟨haccepted, hcode⟩ := compile_ok h
  have htyped := Parser.analyse_wellTyped False haccepted False.elim False.elim False.elim
  refine ⟨fun g hg target value size line hleaf => ?_, fun m n a b code pc hm h => h.agree hm⟩
  rw [hcode]
  exact htyped.copiesWhole hg hleaf

def rowSource : Text := Text.ofChars "program p;var a:array[1..2]of array[1..3]of integer;begin a[1]:=a[2] end.".toList

/-- A machine with three words on its stack, the first two of which are to be copied one word up. -/
def Machine.sliding : Machine :=
  (ofCode { stackSize := 8, heapSize := 2 }
    #[Opcode.push.withInt 10, Opcode.push.withInt 20, Opcode.push.withInt 30, { op := .push, arg := .address 2 },
      { op := .push, arg := .address 1 }, Opcode.copy.withInt 2, Opcode.eval.withInt 2, Opcode.assign.withInt 2]).after 5

/-- A row is copied as a whole, and words that are copied one place up do not overtake one another. -/
theorem compile_copies_aggregates_row : ∃ p, (compile rowSource).result = .ok p ∧
    (∃ g ∈ (analyse rowSource).1.segments, ∃ target value line,
      Stmt.assignWhole target value 3 line ∈ g.body.leaves ∧ ∃ place loadLine, value = .load place 3 loadLine) ∧
    ∃ copied loaded stored, Machine.sliding.step = (.success, copied) ∧ copied.mem[2]? = some (.integer 10) ∧
      copied.mem[3]? = some (.integer 20) ∧ Machine.step { Machine.sliding with pc := 6 } = (.success, loaded) ∧
      loaded.step = (.success, stored) ∧ copied.SameWords stored := by
  have hfacts : (∃ p ∈ (compile rowSource).result.toOption, 0 < p.code.size) ∧
      ∃ g ∈ (analyse rowSource).1.segments, ∃ s ∈ g.body.leaves,
        (match s with | .assignWhole _ _ size _ => decide (size = 3) | _ => false) = true := by decide +kernel
  obtain ⟨⟨p, hp, -⟩, g, hg, s, hs, hwhole⟩ := hfacts
  obtain ⟨hcopies, hagree⟩ := compile_copies_aggregates (compile_of_mem hp)
  refine ⟨p, compile_of_mem hp, ⟨g, hg, ?_⟩, ?_⟩
  · split at hwhole
    · next target value size line =>
      obtain rfl : size = 3 := of_decide_eq_true hwhole
      obtain ⟨type, place, loadLine, h, -⟩ := hcopies g hg target value 3 line hs
      exact ⟨target, value, line, hs, place, loadLine, h.loads⟩
    · cases hwhole
  · obtain ⟨copied, loaded, stored, hcopied, hloaded, hstored, hsame⟩ := hagree Machine.sliding 2 1 2 Machine.sliding.code 6
      ((Machine.Laid.ofCode (by decide) _).after 5)
      ⟨by decide, by decide, by decide, rfl, rfl, .inl (by decide), .inl (by decide)⟩ rfl rfl rfl
    refine ⟨copied, loaded, stored, hcopied, ?_, ?_, hloaded, hstored, hsame⟩
    · rw [← show Machine.sliding.step.2 = copied from congrArg Prod.snd hcopied]
      rfl
    · rw [← show Machine.sliding.step.2 = copied from congrArg Prod.snd hcopied]
      rfl

end MiniPascal
