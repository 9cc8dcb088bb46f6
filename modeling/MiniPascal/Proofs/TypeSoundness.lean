import MiniPascal.Proofs.Conversions
import MiniPascal.Proofs.ExpressionMeaning
import MiniPascal.Proofs.Parser.TypedProgram
import MiniPascal.Proofs.Tree.Soundness

/-!
# Types and kinds of values

The type that the analysis finds for an expression foretells what its code leaves on the stack: one
datum of the kind of the type. The places that the expression reads have to hold data of their kinds,
and none of its variables may be more than 127 blocks out.
-/

namespace MiniPascal

open Machine

/-- A machine pushes a datum with a property on its way through the code between two addresses, and
leaves the stack below as it was; or it stops there at a fault that may arise. -/
def Machine.Pushes (m : Machine) (lo hi : Nat) (P : Datum → Prop) : Prop :=
  (∃ n m' d, Passes lo hi n m m' ∧ P d ∧ m'.pc.toInt = hi ∧ m'.fp = m.fp ∧
    m'.sp.toInt = m.sp.toInt + 1 ∧ m'.read? m'.sp = some d ∧
    ∀ a : Nat, a ≤ m.sp.toInt → m'.mem[a]? = m.mem[a]?) ∨
  ∃ f, f.MayArise ∧ FaultsWithin lo hi f m

namespace Parser

open State

/-- If the places from which words are loaded hold data of their kinds, an accepted expression without
calls leaves one datum of the kind of its type. It may stop at a division by zero, a value out of
range or a full stack, but at nothing else. -/
theorem expression_keeps_kinds {C : Context} {s : State} (hs : s.Grounded C)
    (htypes : s.types = C.types) (hfresh : s.exhausted = false)
    (harrays : ∀ t, C.types.Has t → C.types.kind t = .array → (C.types.dimension t).Fits)
    (haccepted : (expression s).2.diagnostics = [])
    (hscalar : s.types.isAggregate (expression s).1.type = false)
    (hcalls : (expression s).1.expr.calls = false) {entries : Entries} {m : Machine}
    {frames : List Nat} {pc : Nat} (hm : m.Poised frames 0)
    (hlevels : C.levels.length ≤ frames.length) (hlaid : m.Laid) (hpc : m.pc.toInt = pc)
    (hcode : Stands m.code pc (instrs ((expression s).1.expr.code entries)))
    (hnear : ∀ p ∈ (expression s).1.expr.loads, p.hops ≤ 127)
    (hslots : ∀ p ∈ (expression s).1.expr.loads, ∀ t a, p.HasType C t →
      p.address? frames m = some a → m.Furnishes (C.types.kind t) a) :
    m.Pushes pc (pc + ((expression s).1.expr.code entries).length) fun d =>
      (s.types.kind (expression s).1.type).holds d = true := by
  have hbounded := (expression_reads (n := s.lexemes.length) s).1.bounded hs.ended (Nat.le_refl _)
  have htyped := (expression_gives (c := True) hs.stage).gives trivial s hs rfl
    ⟨haccepted, hbounded.trans hfresh⟩
  obtain ⟨S, hScode, rfl, hroom, hstack, hat⟩ := hm.exists_setting hpc
  have hready : m.Ready := ⟨hlaid, Nat.lt_of_le_of_lt hm.code_le (by decide)⟩
  have hlinks {pc ds m'} {k f : Nat} (h : Carries m S.top pc ds m') (hk : k ≤ 127)
      (hf : S.frames[k]? = some f) : m'.frameAt (Int8.ofInt k) = .ok (Int64.ofNat f) := by
    have hlt := (List.getElem?_eq_some_iff.mp hf).1
    have hlevel : (Int8.ofInt k).toInt = k := Int8.toInt_ofInt_of_le (by omega) (by omega)
    have hat' : At (S.activation hstack) pc ds m' := hat.of_bears h.bears
    rw [hat'.frameAt hlevel (Nat.le_of_lt hlt), List.headD_eq_head?_getD, List.head?_drop]
    exact congrArg (fun o => Except.ok (Int64.ofNat (o.getD 1))) hf
  have hhosts : C.Hosts S.frames S.top m :=
    ⟨⟨htypes ▸ hs.stage.builtins, htypes ▸ hs.stage.formed⟩, harrays, hlevels, hready, hat.sp, hlinks⟩
  have hcarries : Carries m S.top pc [] m :=
    ⟨.refl _ _, hpc, hat.sp, by rw [hat.stackSize]; exact Int.ofNat_lt.mpr hat.room, trivial⟩
  have hbrings := Expr.brings hhosts (expression s).1.expr htyped.expr (htypes ▸ hscalar) hcalls
    (fun p hp => ⟨hnear p hp, hslots p hp⟩) [] hcode (Nat.le_refl _) (Nat.le_refl _) m
    hcarries.arrives
  rw [← length_instrs]
  rcases hbrings with ⟨_, m', ⟨hcarries', n, hpass⟩, d, rfl, hd, -⟩ | ⟨f, hf, n, m', hpass, hwithin, hfault, -⟩
  · have hsp : m'.sp.toInt = m.sp.toInt + 1 := by
      rw [hcarries'.sp, hat.sp]
      rfl
    exact .inl ⟨n, m', d, hpass, htypes ▸ TypeKind.admits_iff.mp hd, hcarries'.pc,
      hcarries'.agrees.fp, hsp, hcarries'.read_top, fun a ha => hcarries'.agrees.below a (by
        rw [hat.sp] at ha
        exact Int.ofNat_le.mp ha)⟩
  · exact .inr ⟨f, hf, n, m', hpass, hwithin, hfault⟩

/-- A state in the blocks of a context where some variables are declared, at the start of a text. -/
def stateIn (C : Context) (level : Int) (declared : List (Scope.Entry Declaration))
    (source : Text) : State :=
  { ofSource source with
    types := C.types, scope := ⟨declared⟩, level, enclosing := C.ids, forward := [] }

theorem stateIn_grounded {C : Context} {level : Int} {declared : List (Scope.Entry Declaration)}
    {source : Text} (hx : ¬C.exact) (hstage : C.Stage C.types) (hlevel : level = C.levels.length)
    (hdeclared : ∀ e ∈ declared, C.Admits C.types e) :
    (stateIn C level declared source).Grounded C := by
  let empty : Context := ⟨.builtins, False, fun _ _ => False, []⟩
  have h : (ofSource source).Grounded empty :=
    ofSource_grounded rfl (.refl _) (.refl _) False.elim False.elim
  exact ⟨h.lastError, h.ended,
    fun l hl => ⟨(h.lexemes l hl).integer, (h.lexemes l hl).real, fun hexact => absurd hexact hx⟩,
    fun hexact => absurd hexact hx, hstage, hlevel, rfl, hdeclared, fun f hf => (List.not_mem_nil hf).elim⟩

theorem admits_variable {C : Context} {k : Nat} {l : Level} (hl : C.levels[k]? = some l) {f : Field}
    (hf : f ∈ l.fields) (hhas : C.types.Has f.type) :
    C.Admits C.types ⟨f.name, C.levels.length - k, .variable f.offset f.type⟩ := by
  have hlt := (List.getElem?_eq_some_iff.mp hl).1
  refine ⟨?_, ?_, hhas, k, l, ?_, hl, f, hf, rfl, rfl⟩
  · show (0 : Int) ≤ C.levels.length - k
    omega
  · show (C.levels.length - k : Int) ≤ C.levels.length
    omega
  · show (C.levels.length - (C.levels.length - k) : Int) = k
    omega

/-! ## All kinds of places -/

/-- An array with a number for each truth value, a record of two numbers, and a pointer to a number,
after the built-in types. -/
def placeTypes : TypeTable :=
  let row : TypeDesc :=
    { kind := .array, size := 2, bounds := ⟨0, 1⟩, base := some .integer, index := some .boolean }
  let rows := (TypeTable.builtins.add row).2
  let pairs := (rows.add (rows.record [(Text.ofChars ['m'], .integer), (Text.ofChars ['n'], .integer)])).2
  (pairs.add (.pointer (some .integer))).2

/-- The variables of a block: a truth value, an array, a record and a pointer. -/
def placeFields : List Field :=
  [⟨Text.ofChars ['b'], .boolean, 0⟩, ⟨Text.ofChars ['a'], ⟨5⟩, 1⟩, ⟨Text.ofChars ['r'], ⟨6⟩, 3⟩,
    ⟨Text.ofChars ['p'], ⟨7⟩, 5⟩]

def placeContext : Context := ⟨placeTypes, False, fun _ _ => False, [⟨{ id := ⟨0⟩ }, placeFields⟩]⟩

/-- An expression that reads a variable, an element, a field and what a pointer points to. -/
def placeState : State :=
  stateIn placeContext 1 (placeFields.map fun f => ⟨f.name, 1, .variable f.offset f.type⟩)
    (Text.ofChars "a[b]+r.n*p^".toList)

/-- A machine in the block. The pointer leads to the second word of the heap. -/
def placeMachine : Machine :=
  { stackSize := 16, heapSize := 4, code := (instrs ((expression placeState).1.expr.code fun _ => 0)).toArray
    mem := #[.integer 0, .address 1, .integer 0, .integer 0, .integer 0, .boolean true, .integer 10, .integer 20,
      .integer 30, .integer 3, .address 17, .integer 0, .integer 0, .integer 0, .integer 0, .integer 0,
      .integer 0, .integer 4, .integer 0, .integer 0]
    heap := .ofRange 16 4, fp := 1, sp := 10 }

theorem loads_placeState : (expression placeState).1.expr.loads =
    [.variable ⟨0, 0, .boolean⟩ 1, .element (.variable ⟨0, 1, ⟨5⟩⟩ 1) (.load (.variable ⟨0, 0, .boolean⟩ 1) 1 1)
      ⟨⟨0, 1⟩, .boolean, 1⟩ 1, .field (.variable ⟨0, 3, ⟨6⟩⟩ 1) 1 1, .variable ⟨0, 5, ⟨7⟩⟩ 1,
      .pointee (.variable ⟨0, 5, ⟨7⟩⟩ 1) 1] := by
  rfl

theorem placeTypes_made : placeTypes.Made := by
  have hrows := @TypeTable.Made.array _ .boolean .integer _ .builtins (by decide) (by decide) rfl
  have hpairs := @TypeTable.Made.record _
    [(Text.ofChars ['m'], .integer), (Text.ofChars ['n'], .integer)] hrows (by decide)
  exact hpairs.pointer (by decide)

theorem placeState_grounded : placeState.Grounded placeContext := by
  obtain ⟨hformed, hordered⟩ := placeTypes_made.formed
  have hgrows : TypeTable.builtins.Grows placeTypes :=
    ((TypeTable.grows_add _ _).trans (TypeTable.grows_add _ _)).trans (TypeTable.grows_add _ _)
  refine stateIn_grounded not_false ⟨hgrows, hformed, hordered, .refl _, .refl _⟩ rfl ?_
  have hhas : ∀ f ∈ placeFields, placeTypes.Has f.type := by decide
  intro e he
  obtain ⟨f, hf, rfl⟩ := List.mem_map.mp he
  exact admits_variable (C := placeContext) (k := 0) rfl hf (hhas f hf)

/-- The number for `true`, a field and what the pointer leads to are found, and they are numbers. -/
theorem expression_keeps_kinds_places : (expression placeState).2.diagnostics = [] ∧
    (expression placeState).1.expr.loads.map (Designator.address? [1] placeMachine) =
      [some 5, some 7, some 9, some 10, some 17] ∧
    placeMachine.Pushes 0 17 fun d => TypeKind.integer.holds d = true := by
  have haccepted : (expression placeState).2.diagnostics = [] := by decide +kernel
  have hlength : ((expression placeState).1.expr.code fun _ => 0).length = 17 := by decide +kernel
  have hkind : placeState.types.kind (expression placeState).1.type = .integer := by decide +kernel
  have hm : placeMachine.Poised [1] 0 :=
    ⟨rfl, ⟨by decide, by decide, id, rfl, trivial⟩, by decide, by decide +kernel, by decide, by
      show (instrs _).toArray.size ≤ _
      rw [List.size_toArray, length_instrs, hlength]
      decide⟩
  have hlaid : placeMachine.Laid := ⟨by decide, by decide, by decide, by decide +kernel, rfl, rfl⟩
  have hpc : placeMachine.pc.toInt = (0 : Nat) := rfl
  have hpushes := expression_keeps_kinds placeState_grounded rfl rfl ?_ haccepted
    (by rw [TypeTable.isAggregate, hkind]; rfl) (by decide +kernel) hm (Nat.le_refl 1) hlaid hpc (.whole _) ?_ ?_
  · rw [hlength, hkind] at hpushes
    exact ⟨haccepted, by decide +kernel, hpushes⟩
  · intro t ht hkind
    have hone : ∀ i < 8, placeTypes.kind ⟨i⟩ = .array → i = 5 := by decide
    obtain rfl : t = ⟨5⟩ := congrArg TypeId.mk (hone t.index ht hkind)
    exact ⟨rfl, by decide, by decide⟩
  · rw [loads_placeState]
    decide
  · rw [loads_placeState]
    intro p hp t a ht ha
    simp only [List.mem_cons, List.not_mem_nil, or_false] at hp
    rcases hp with rfl | rfl | rfl | rfl | rfl
    · obtain ⟨-, rfl, -⟩ := ht
      obtain rfl : 5 = a := Option.some.inj ha
      exact ⟨by decide, fun _ => ⟨_, rfl, rfl⟩⟩
    · obtain ⟨_, _, ⟨-, rfl, -⟩, -, -, hbase, -⟩ := ht
      obtain rfl : .integer = t := Option.some.inj hbase
      obtain rfl : 7 = a := Option.some.inj ha
      exact ⟨by decide, fun _ => ⟨_, rfl, rfl⟩⟩
    · obtain ⟨_, ⟨-, rfl, -⟩, -, f, hf, -, rfl⟩ := ht
      have htype : ∀ f ∈ (placeTypes.get ⟨6⟩).fields, f.type = .integer := by decide
      obtain rfl : 9 = a := Option.some.inj ha
      exact ⟨by decide, fun _ => ⟨.integer 3, rfl, by rw [htype f hf]; rfl⟩⟩
    · obtain ⟨-, rfl, -⟩ := ht
      obtain rfl : 10 = a := Option.some.inj ha
      exact ⟨by decide, fun _ => ⟨_, rfl, rfl⟩⟩
    · obtain ⟨_, ⟨-, rfl, -⟩, -, hbase⟩ := ht
      obtain rfl : .integer = t := Option.some.inj hbase
      obtain rfl : 17 = a := Option.some.inj ha
      exact ⟨by decide, fun _ => ⟨_, rfl, rfl⟩⟩

/-! ## Variables of blocks far out -/

/-- The innermost of 129 nested blocks, each with a number of its own. -/
def deepContext : Context :=
  ⟨.builtins, False, fun _ _ => False,
    List.replicate 129 ⟨{ id := ⟨0⟩ }, [⟨Text.ofChars ['x'], .integer, 0⟩]⟩⟩

/-- There, one is added to the number that the program declares. -/
def deepState : State :=
  stateIn deepContext 129 [⟨Text.ofChars ['x'], 1, .variable 0 .integer⟩] (Text.ofChars "x+1".toList)

/-- A machine there, with a truth value in the variable of the innermost block. -/
def deepMachine : Machine :=
  { (nestedMachine 129 5 (instrs ((expression deepState).1.expr.code fun _ => 0))).write
      (Int64.ofNat (5 * 129)) (.boolean true) with heap := .ofRange (Int64.ofNat (5 * 129 + 8)) 0 }

/-- A word that is no link may change, and so may the heap. -/
theorem poised_write {m : Machine} {frames : List Nat} {words : Nat} (h : m.Poised frames words)
    {a : Int64} (hslot : ∀ b, m.stack a.toInt.toNat ≠ some (.address b)) (d : Datum)
    (heap : FreeStore) : ({ m.write a d with heap } : Machine).Poised frames words := by
  refine ⟨h.running, ?_, h.room, ?_, h.size_le, h.code_le⟩
  · refine (h.links.apart hslot).mono (Nat.le_refl _) fun b _ hb => ⟨id, ?_⟩
    show (if _ then (m.mem.setIfInBounds a.toInt.toNat d)[b]? else none : Option Datum).getD _ = _
    rw [Array.getElem?_setIfInBounds_ne (Ne.symm hb)]
    rfl
  · show m.stackSize.toInt ≤ (m.mem.setIfInBounds _ _).size
    rw [Array.size_setIfInBounds]
    exact h.memory

theorem deepMachine_poised : deepMachine.Poised (nestedFrames 129) 0 := by
  have hlength : (instrs ((expression deepState).1.expr.code fun _ => 0)).length = 4 := by
    decide +kernel
  have h : (nestedMachine 129 5 _).Poised (nestedFrames 129) 0 :=
    poised_nestedMachine 5 _ (by decide) (by decide) hlength (by decide) (by decide)
  refine poised_write h (fun b => ?_) (.boolean true) _
  rw [Word.toInt_ofNat (by decide), Int.toNat_natCast, stack_nestedMachine _ _ (by decide) (Nat.le_refl _),
    getElem?_nestedMachine _ _ (by decide)]
  nofun

/-- The links to the program are more than eight bits can count, none of them is followed, and the
number is added to the truth value of the innermost block. -/
theorem expression_confuses_deep : deepState.Grounded deepContext ∧
    (expression deepState).2.diagnostics = [] ∧ deepMachine.Poised (nestedFrames 129) 0 ∧
    deepMachine.Laid ∧
    (∀ p ∈ (expression deepState).1.expr.loads, ∀ t a, p.HasType deepContext t →
      p.address? (nestedFrames 129) deepMachine = some a →
      deepMachine.Furnishes (deepContext.types.kind t) a) ∧
    FaultsWithin 0 4 .badDataType deepMachine := by
  have hloads : (expression deepState).1.expr.loads = [.variable ⟨128, 0, .integer⟩ 1] := by rfl
  refine ⟨?_, by decide +kernel, deepMachine_poised,
    ⟨by decide +kernel, by decide +kernel, by decide +kernel, by decide +kernel, rfl,
      by decide +kernel⟩, ?_, ?_⟩
  · refine stateIn_grounded not_false
      ⟨.refl _, TypeTable.formed_builtins, TypeTable.ordered_builtins, .refl _, .refl _⟩
      (by simp [deepContext]) ?_
    have hx := admits_variable (C := deepContext) (k := 128)
      (List.getElem?_replicate_of_lt (by decide)) (List.mem_singleton.mpr rfl) (by decide)
    have hlevel : (deepContext.levels.length : Int) - (128 : Nat) = 1 := by simp [deepContext]
    rw [hlevel] at hx
    exact List.forall_mem_singleton.mpr hx
  · rw [hloads]
    intro p hp t a ht ha
    obtain rfl := List.mem_singleton.mp hp
    obtain ⟨-, rfl, -⟩ := ht
    obtain rfl : 5 = a := Option.some.inj ha
    exact ⟨by decide, fun _ => ⟨.integer 5, by decide +kernel, rfl⟩⟩
  · have hpass : Passes 0 4 3 deepMachine (deepMachine.after 3) :=
      ⟨⟨by decide +kernel, by decide +kernel⟩, by decide +kernel, ⟨by decide +kernel, by decide +kernel⟩,
        by decide +kernel, ⟨by decide +kernel, by decide +kernel⟩, by decide +kernel, rfl⟩
    exact ⟨3, _, hpass, ⟨by decide +kernel, by decide +kernel⟩, by decide +kernel⟩

end Parser

end MiniPascal
