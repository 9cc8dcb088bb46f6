import MiniPascal.Proofs.Meaning.Command
import MiniPascal.Proofs.Meaning.Node

/-!
# Code that runs commands

Code runs a command if it comes to every result that the command has, and is not left if the command has none. The
code of a command is put together from the code of its parts, with jumps between them.
-/

namespace MiniPascal.Parser

open List

open State Machine

/-- A name stands for the value of a constant, or for the word of a variable that holds a value of its type. -/
inductive State.Binds (s : State) (frames : List Nat) (σ : Store) (x : Text) : Binding → Prop where
  | constant {e : Scope.Entry Declaration} {v : Value} (found : s.scope.lookup x = .ok e)
    (value : e.value = .constant v.datum v.type) : Binds s frames σ x (.constant v)
  | stored {e : Scope.Entry Declaration} {offset : Int64} {slot : Nat} {v : Value} (found : s.scope.lookup x = .ok e)
    (value : e.value = .variable offset v.type)
    (lies : Variable.LiesAt { hops := s.level - e.level, offset, type := v.type } frames slot)
    (word : σ slot = some v.datum) : Binds s frames σ x (.location slot)

namespace State.Binds

variable {s : State} {frames : List Nat} {σ : Store} {x : Text} {b : Binding}

theorem denotes (h : s.Binds frames σ x b) : s.Denotes frames σ x (b.value σ) := by
  cases h with
  | constant found value => exact .constant found value
  | stored found value lies word =>
    rw [Binding.value_location word]
    exact .stored found value lies word

/-- A word that holds a value may be set to another value of the same type. -/
theorem update (h : s.Binds frames σ x b) {slot : Nat} {v w : Value} (hword : σ slot = some v.datum)
    (hw : w.type = v.type) : s.Binds frames (Function.update σ slot (some w.datum)) x b := by
  cases h with
  | constant found value => exact .constant found value
  | @stored _ _ slot' v' found value lies word =>
    by_cases heq : slot' = slot
    · subst heq
      have hsame : v' = v := by
        rw [← v'.value_datum, ← v.value_datum, Option.some.inj (word.symm.trans hword)]
      rw [hsame, ← hw] at value lies
      exact .stored found value lies (Function.update_self ..)
    · exact .stored found value lies ((Function.update_of_ne heq ..).trans word)

end State.Binds

/-- A setting in which some names are bound. -/
structure Scene (s : State) where
  setting : Setting
  names : List Text
  bindings : Text → Binding
  near : ∀ x ∈ names, s.Near x

namespace Scene

variable {s : State} (E : Scene s)

/-- A machine at an address between two statements. -/
def In (σ : Store) (pc : Nat) (m : Machine) : Prop :=
  (∀ x ∈ E.names, s.Binds E.setting.frames σ x (E.bindings x)) ∧ E.setting.In σ pc [] m

def Runs (c : Command) (here : Nat) (code : List Instr) : Prop :=
  (∀ x ∈ c.names, x ∈ E.names) → E.setting.top + c.words < E.setting.size → Stands E.setting.code here code →
    ∀ σ m, E.In σ here m →
      Meets here (here + code.length) (fun σ' => E.In σ' (here + code.length)) (Exec E.bindings c σ) m

/-- Code finds the value of a condition. -/
def Tests (e : Phrase .expression) (code : List Instr) : Prop :=
  (∀ x ∈ e.names, x ∈ E.names) → E.setting.top + e.words < E.setting.size → ∀ σ here m, E.In σ here m →
    Stands E.setting.code here code →
      Results here (here + code.length)
        (fun v m' => ∃ b, v = .boolean b ∧ E.setting.In σ (here + code.length) [.boolean b] m') m (e.evalIn E.bindings σ)

/-- A condition leads to one of two addresses, or to a fault. -/
structure Branches (e : Phrase .expression) (σ : Store) (lo hi yes no : Nat) (m : Machine) : Prop where
  fault : ∀ f, e.evalIn E.bindings σ = .error f → FaultsWithin lo hi f m
  boolean : ∀ v, e.evalIn E.bindings σ = .ok v → ∃ b, v = .boolean b
  holds : e.evalIn E.bindings σ = .ok (.boolean true) → ∃ n m', Passes lo hi (n + 1) m m' ∧ E.In σ yes m'
  fails : e.evalIn E.bindings σ = .ok (.boolean false) → ∃ n m', Passes lo hi (n + 1) m m' ∧ E.In σ no m'

end Scene

variable {s : State} {E : Scene s} {σ : Store} {here lo hi target : Nat} {m : Machine} {e : Phrase .expression}
  {o : Operand} {test inside outside rest : List Instr} {c d : Command}

/-- The value of an expression is found by its code. -/
theorem Scene.In.computes {pc : Nat} (h : E.In σ pc m) (ho : Implements s e o) (hnames : ∀ x ∈ e.names, x ∈ E.names)
    (entries : Entries) : ∃ hσ : E.setting.Admits σ, At (E.setting.activation hσ) pc [] m ∧
      ResultOf o.type (e.evalIn E.bindings σ) ∧
      Computes (E.setting.activation hσ) (instrs (o.expr.code entries)) e.words (e.evalIn E.bindings σ) := by
  obtain ⟨hbinds, hσ, hat⟩ := h
  have hknown (x : Text) (hx : x ∈ e.names) : s.Near x ∧
      s.Denotes (E.setting.activation hσ).frames (E.setting.activation hσ).word? x ((E.bindings x).value σ) := by
    refine ⟨E.near x (hnames x hx), ?_⟩
    rw [Setting.word?_activation hσ]
    exact (hbinds x (hnames x hx)).denotes
  obtain ⟨htype, hcomputes⟩ := ho _ _ (Setting.still_activation hσ) hknown
  exact ⟨hσ, hat, htype, hcomputes entries⟩

theorem Implements.tests (ho : Implements s e o) (hboolean : ∀ v : Value, v.type = o.type → v.kind = .boolean)
    (entries : Entries) : E.Tests e (instrs (o.expr.code entries)) := by
  intro hnames hroom σ here m hin hstands
  obtain ⟨hσ, hat, htype, hcomputes⟩ := hin.computes ho hnames entries
  have hresults := hcomputes here [] m hat hstands hroom
  cases hv : e.evalIn E.bindings σ with
  | error f =>
    rw [hv] at hresults
    exact hresults
  | ok v =>
    rw [hv] at hresults htype
    obtain ⟨n, m', hpass, hat'⟩ := hresults
    cases v with
    | boolean b => exact ⟨n, m', hpass, b, rfl, hσ, hat'⟩
    | integer i => cases hboolean _ htype
    | character i => cases hboolean _ htype

theorem Scene.Tests.branches (h : E.Tests e test) (hnames : ∀ x ∈ e.names, x ∈ E.names)
    (hroom : E.setting.top + e.words < E.setting.size)
    (hstands : Stands E.setting.code here (test ++ Opcode.jneq.withTarget target :: rest))
    (htarget : target ≤ E.setting.code.size) (hin : E.In σ here m) (hlo : lo ≤ here)
    (hhi : here + test.length + 1 ≤ hi) : E.Branches e σ lo hi (here + test.length + 1) target m := by
  have hresults := h hnames hroom σ here m hin hstands.left
  have htaken (b : Bool) (hv : e.evalIn E.bindings σ = .ok (.boolean b)) :
      ∃ n m', Passes lo hi (n + 1) m m' ∧ E.In σ (if b then here + test.length + 1 else target) m' := by
    rw [hv] at hresults
    obtain ⟨n, m', hpass, b', heq, hσ, hat⟩ := hresults
    cases heq
    obtain ⟨m'', hstep, hat'⟩ := hat.passes_jneq hstands.right.head htarget
    exact ⟨n, m'', (hpass.mono ⟨hlo, by omega⟩).trans (hstep.mono ⟨by omega, hhi⟩), hin.1, hσ, hat'⟩
  refine ⟨fun f hv => ?_, fun v hv => ?_, htaken true, htaken false⟩
  · rw [hv] at hresults
    exact FaultsWithin.mono ⟨hlo, by omega⟩ hresults
  · rw [hv] at hresults
    obtain ⟨-, -, -, b, heq, -⟩ := hresults
    exact ⟨b, heq⟩

theorem Scene.In.jump {pc : Nat} (h : E.In σ pc m) (hx : E.setting.code[pc]? = some (Opcode.jump.withTarget target))
    (htarget : target ≤ E.setting.code.size) : ∃ m', Passes pc (pc + 1) 1 m m' ∧ E.In σ target m' := by
  obtain ⟨hbinds, hσ, hat⟩ := h
  obtain ⟨m', hpass, hat'⟩ := hat.passes_jump hx htarget
  exact ⟨m', hpass, hbinds, hσ, hat'⟩

namespace Scene.Runs

theorem skip : E.Runs .skip here [] := by
  intro _ _ _ σ m hin
  constructor
  · intro r hexec
    cases hexec with
    | skip => exact .refl hin
  · intro hnone
    exact absurd .skip (hnone _)

/-- The address of the variable stays on the stack while the value is found. -/
theorem assign {x : Text} {entry : Scope.Entry Declaration} (hx : s.scope.lookup x = .ok entry) {offset : Int64}
    {type : TypeId} (hentry : entry.value = .variable offset type) (ho : Implements s e o) {conversion : List Instr}
    (hconversion : ∀ v : Value, v.type = o.type → conversion = [] ∧ v.type = type) (entries : Entries) :
    E.Runs (.assign x e) here (Variable.address { hops := s.level - entry.level, offset, type } ::
      (instrs (o.expr.code entries) ++ (conversion ++ [Opcode.assign.withInt 1]))) := by
  intro hnames hroom hstands σ m hin
  obtain ⟨hxNames, hvalueNames⟩ := forall_mem_cons.mp hnames
  have hroom : E.setting.top + (e.words + 1) < E.setting.size := hroom
  obtain ⟨slot, v, hbinding, rfl, hlies, hword⟩ : ∃ slot, ∃ v : Value, E.bindings x = .location slot ∧ v.type = type ∧
      Variable.LiesAt { hops := s.level - entry.level, offset, type } E.setting.frames slot ∧
        σ slot = some v.datum := by
    have hbinds := hin.1 x hxNames
    generalize E.bindings x = b at hbinds
    cases hbinds with
    | constant found value =>
      cases hx.symm.trans found
      cases hentry.symm.trans value
    | stored found value lies word =>
      cases hx.symm.trans found
      cases hentry.symm.trans value
      exact ⟨_, _, rfl, rfl, lies, word⟩
  obtain ⟨hσ, hat, hresult, hcomputes⟩ := hin.computes ho hvalueNames entries
  have htop : slot ≤ E.setting.top := (hσ.words slot).mp (by rw [hword]; rfl)
  obtain ⟨n, m', hpass, hat'⟩ := hat.results_address (Setting.still_activation hσ) hstands.head hlies
    (E.near x hxNames _ _ _ hx hentry) htop (by show E.setting.top + 0 + 1 < E.setting.size; omega)
  have hvalue := hcomputes _ _ m' hat' hstands.tail.left (by show E.setting.top + 1 + e.words < E.setting.size; omega)
  simp only [length_append, length_cons, length_nil]
  generalize hend : here + _ = hi
  have hpass := hpass.mono (by omega : here ≤ here ∧ here + 1 ≤ hi)
  constructor
  · intro r hexec
    cases hexec with
    | assignFault hv =>
      rw [hv] at hvalue
      exact .after hpass (FaultsWithin.mono ⟨by omega, by omega⟩ hvalue)
    | @assign _ _ slot' w _ htarget hv =>
      cases hbinding.symm.trans htarget
      rw [hv] at hvalue hresult
      obtain ⟨rfl, hwtype⟩ := hconversion w hresult
      obtain ⟨k, m'', hpass', hat''⟩ := hvalue
      have hscalar (a : Int64) : σ slot ≠ some (.address a) := by
        rw [hword]
        cases v <;> simp [Value.datum]
      have hstore := hstands.tail.right.head
      obtain ⟨last, hstep, hin'⟩ := Setting.In.assign ⟨hσ, hat''⟩ hstore hlies.1 htop hscalar
      rw [length_nil] at hend
      have hstop : here + 1 + (instrs (o.expr.code entries)).length + 1 = hi := by omega
      rw [hstop] at hin' hstep
      exact .after hpass ⟨k + 1, last, (hpass'.mono (by omega)).trans (hstep.mono ⟨by omega, Nat.le_refl hi⟩),
        fun y hy => (hin.1 y hy).update hword hwtype, hin'⟩
  · intro hnone
    cases hv : e.evalIn E.bindings σ with
    | error f => exact absurd (.assignFault hv) (hnone _)
    | ok w => exact absurd (.assign hbinding hv) (hnone _)

theorem seq (h : E.Runs c here inside) (h' : E.Runs d (here + inside.length) outside) :
    E.Runs (.seq c d) here (inside ++ outside) := by
  intro hnames hroom hstands σ m hin
  obtain ⟨hfirstNames, hsecondNames⟩ := forall_mem_append.mp hnames
  have hroom : E.setting.top + max c.words d.words < E.setting.size := hroom
  rw [length_append, ← Nat.add_assoc]
  have hfirst := (h hfirstNames (by omega) hstands.left σ m hin).mono ⟨Nat.le_refl _, Nat.le_add_right _ outside.length⟩
  have hsecond {σ : Store} {m : Machine} (hin : E.In σ (here + inside.length) m) :=
    (h' hsecondNames (by omega) hstands.right σ m hin).mono ⟨Nat.le_add_right here inside.length, Nat.le_refl _⟩
  constructor
  · intro r hexec
    cases hexec with
    | seq hdone hrest =>
      obtain ⟨n, m', hpass, hin'⟩ := hfirst.results _ hdone
      exact .after hpass ((hsecond hin').results r hrest)
    | seqFault hfault => exact hfirst.results _ hfault
  · intro hnone
    by_cases hdone : ∃ r, Exec E.bindings c σ r
    · obtain ⟨r, hdone⟩ := hdone
      cases r with
      | error f => exact absurd (.seqFault hdone) (hnone _)
      | ok σ' =>
        obtain ⟨n, m', hpass, hin'⟩ := hfirst.results _ hdone
        exact .after hpass ((hsecond hin').diverges fun r hrest => hnone r (.seq hdone hrest))
    · exact hfirst.diverges (not_exists.mp hdone)

theorem ifThen (ht : E.Tests e test) (h : E.Runs c (here + test.length + 1) inside) : E.Runs (.ifThen e c) here
    (test ++ Opcode.jneq.withTarget (here + test.length + 1 + inside.length) :: inside) := by
  intro hnames hroom hstands σ m hin
  obtain ⟨htestNames, hbodyNames⟩ := forall_mem_append.mp hnames
  have hroom : E.setting.top + max e.words c.words < E.setting.size := hroom
  have hsize := hstands.le_size (by simp)
  rw [length_append, length_cons] at hsize ⊢
  have hend : here + (test.length + (inside.length + 1)) = here + test.length + 1 + inside.length := by omega
  rw [hend] at hsize ⊢
  have hbranches := ht.branches htestNames (by omega) hstands hsize hin (Nat.le_refl _) (Nat.le_add_right _ inside.length)
  have hbody {m : Machine} (hin : E.In σ (here + test.length + 1) m) :=
    (h hbodyNames (by omega) hstands.right.tail σ m hin).mono ⟨(by omega : here ≤ _), Nat.le_refl _⟩
  constructor
  · intro r hexec
    cases hexec with
    | ifThen hv hinside =>
      obtain ⟨n, m', hpass, hin'⟩ := hbranches.holds hv
      exact .after hpass ((hbody hin').results r hinside)
    | ifThenSkip hv =>
      obtain ⟨n, m', hpass, hin'⟩ := hbranches.fails hv
      exact ⟨n + 1, m', hpass, hin'⟩
    | ifThenFault hv => exact hbranches.fault _ hv
  · intro hnone
    cases hv : e.evalIn E.bindings σ with
    | error f => exact absurd (.ifThenFault hv) (hnone _)
    | ok v =>
      obtain ⟨b, rfl⟩ := hbranches.boolean v hv
      cases b with
      | false => exact absurd (.ifThenSkip hv) (hnone _)
      | true =>
        obtain ⟨n, m', hpass, hin'⟩ := hbranches.holds hv
        exact .after hpass ((hbody hin').diverges fun r hinside => hnone r (.ifThen hv hinside))

theorem ifElse (ht : E.Tests e test) (h : E.Runs c (here + test.length + 1) inside)
    (h' : E.Runs d (here + test.length + 1 + inside.length + 1) outside) : E.Runs (.ifElse e c d) here
      (test ++ Opcode.jneq.withTarget (here + test.length + 1 + inside.length + 1) :: (inside ++
        Opcode.jump.withTarget (here + test.length + 1 + inside.length + 1 + outside.length) :: outside)) := by
  intro hnames hroom hstands σ m hin
  obtain ⟨htestNames, hnames⟩ := forall_mem_append.mp hnames
  obtain ⟨hbodyNames, hotherNames⟩ := forall_mem_append.mp hnames
  have hroom : E.setting.top + max e.words (max c.words d.words) < E.setting.size := hroom
  have hsize := hstands.le_size (by simp)
  simp only [length_append, length_cons] at hsize ⊢
  generalize hend : here + (test.length + (inside.length + (outside.length + 1) + 1)) = hi at hsize ⊢
  have hend' : here + test.length + 1 + inside.length + 1 + outside.length = hi := by omega
  rw [hend'] at hstands
  have hbranches := ht.branches htestNames (by omega) hstands (by omega) hin (Nat.le_refl here) (by omega : _ ≤ hi)
  have hbody {m : Machine} (hin : E.In σ (here + test.length + 1) m) :
      Meets here hi (fun σ' => E.In σ' hi) (Exec E.bindings c σ) m := by
    have hmeets := h hbodyNames (by omega) hstands.right.tail.left σ m hin
    refine (hmeets.mono (by omega)).andThen fun σ' m' hin' => ?_
    obtain ⟨m'', hpass, hin''⟩ := hin'.jump hstands.right.tail.right.head (by omega)
    exact ⟨1, m'', hpass.mono (by omega), hin''⟩
  have hother {m : Machine} (hin : E.In σ (here + test.length + 1 + inside.length + 1) m) :
      Meets here hi (fun σ' => E.In σ' hi) (Exec E.bindings d σ) m := by
    have hmeets := h' hotherNames (by omega) hstands.right.tail.right.tail σ m hin
    rw [hend'] at hmeets
    exact hmeets.mono (by omega)
  constructor
  · intro r hexec
    cases hexec with
    | ifElse hv hinside =>
      obtain ⟨n, m', hpass, hin'⟩ := hbranches.holds hv
      exact .after hpass ((hbody hin').results r hinside)
    | ifElseOther hv houtside =>
      obtain ⟨n, m', hpass, hin'⟩ := hbranches.fails hv
      exact .after hpass ((hother hin').results r houtside)
    | ifElseFault hv => exact hbranches.fault _ hv
  · intro hnone
    cases hv : e.evalIn E.bindings σ with
    | error f => exact absurd (.ifElseFault hv) (hnone _)
    | ok v =>
      obtain ⟨b, rfl⟩ := hbranches.boolean v hv
      cases b with
      | false =>
        obtain ⟨n, m', hpass, hin'⟩ := hbranches.fails hv
        exact .after hpass ((hother hin').diverges fun r houtside => hnone r (.ifElseOther hv houtside))
      | true =>
        obtain ⟨n, m', hpass, hin'⟩ := hbranches.holds hv
        exact .after hpass ((hbody hin').diverges fun r hinside => hnone r (.ifElse hv hinside))

/-- The results are found by induction on the turns, and a loop without a result makes one turn after the other. -/
theorem whileDo (ht : E.Tests e test) (h : E.Runs c (here + test.length + 1) inside) : E.Runs (.whileDo e c) here
    (test ++ Opcode.jneq.withTarget (here + test.length + 1 + inside.length + 1) ::
      (inside ++ [Opcode.jump.withTarget here])) := by
  intro hnames hroom hstands σ m hin
  obtain ⟨htestNames, hbodyNames⟩ := forall_mem_append.mp hnames
  have hroom : E.setting.top + max e.words c.words < E.setting.size := hroom
  have hsize := hstands.le_size (by simp)
  simp only [length_append, length_cons, length_nil] at hsize ⊢
  generalize hend : here + (test.length + (inside.length + (0 + 1) + 1)) = hi at hsize ⊢
  have hend' : here + test.length + 1 + inside.length + 1 = hi := by omega
  rw [hend'] at hstands
  have hbranches {σ : Store} {m : Machine} (hin : E.In σ here m) :=
    ht.branches htestNames (by omega) hstands (by omega) hin (Nat.le_refl here) (by omega : _ ≤ hi)
  have hbody {σ : Store} {m : Machine} (hin : E.In σ (here + test.length + 1) m) :
      Meets here hi (fun σ' => E.In σ' here) (Exec E.bindings c σ) m := by
    have hmeets := h hbodyNames (by omega) hstands.right.tail.left σ m hin
    refine (hmeets.mono (by omega)).andThen fun σ' m' hin' => ?_
    obtain ⟨m'', hpass, hin''⟩ := hin'.jump hstands.right.tail.right.head (by omega)
    exact ⟨1, m'', hpass.mono (by omega), hin''⟩
  constructor
  · intro r hexec
    generalize hc : Command.whileDo e c = w at hexec
    induction hexec generalizing m with
    | whileDo hv hinside hagain _ ih =>
      cases hc
      obtain ⟨n, m', hpass, hin'⟩ := (hbranches hin).holds hv
      obtain ⟨k, m'', hpass', hin''⟩ := (hbody hin').results _ hinside
      exact .after (hpass.trans hpass') (ih _ hin'' rfl)
    | whileDoEnd hv =>
      cases hc
      obtain ⟨n, m', hpass, hin'⟩ := (hbranches hin).fails hv
      exact ⟨n + 1, m', hpass, hin'⟩
    | whileDoFault hv =>
      cases hc
      exact (hbranches hin).fault _ hv
    | whileDoInside hv hinside =>
      cases hc
      obtain ⟨n, m', hpass, hin'⟩ := (hbranches hin).holds hv
      exact .after hpass ((hbody hin').results _ hinside)
    | _ => cases hc
  · intro hnone
    refine .of_progress (I := fun m => ∃ σ, E.In σ here m ∧ ∀ r, ¬Exec E.bindings (.whileDo e c) σ r) ?_ ⟨σ, hin, hnone⟩
    rintro m ⟨σ, hin, hnone⟩
    cases hv : e.evalIn E.bindings σ with
    | error f => exact absurd (.whileDoFault hv) (hnone _)
    | ok v =>
      obtain ⟨b, rfl⟩ := (hbranches hin).boolean v hv
      cases b with
      | false => exact absurd (.whileDoEnd hv) (hnone _)
      | true =>
        obtain ⟨n, m', hpass, hin'⟩ := (hbranches hin).holds hv
        by_cases hinside : ∃ r, Exec E.bindings c σ r
        · obtain ⟨r, hinside⟩ := hinside
          cases r with
          | error f => exact absurd (.whileDoInside hv hinside) (hnone _)
          | ok σ' =>
            obtain ⟨k, m'', hpass', hin''⟩ := (hbody hin').results _ hinside
            refine .inr ⟨n + k, m'', ?_, σ', hin'', fun r hagain => hnone r (.whileDo hv hinside hagain)⟩
            rw [Nat.add_right_comm]
            exact hpass.trans hpass'
        · exact .inl (.after hpass ((hbody hin').diverges (not_exists.mp hinside)))

theorem repeatUntil (h : E.Runs c here inside) (ht : E.Tests e test) : E.Runs (.repeatUntil c e) here
    (inside ++ (test ++ [Opcode.jneq.withTarget here])) := by
  intro hnames hroom hstands σ m hin
  obtain ⟨hbodyNames, htestNames⟩ := forall_mem_append.mp hnames
  have hroom : E.setting.top + max c.words e.words < E.setting.size := hroom
  have hsize := hstands.le_size (by simp)
  simp only [length_append, length_cons, length_nil] at hsize ⊢
  generalize hend : here + (inside.length + (test.length + (0 + 1))) = hi at hsize ⊢
  have hend' : here + inside.length + test.length + 1 = hi := by omega
  have hbranches {σ : Store} {m : Machine} (hin : E.In σ (here + inside.length) m) :
      E.Branches e σ here hi hi here m := by
    have hbranches := ht.branches htestNames (by omega) hstands.right (by omega) hin (Nat.le_add_right here _)
      (Nat.le_of_eq hend')
    rwa [hend'] at hbranches
  have hbody {σ : Store} {m : Machine} (hin : E.In σ here m) :=
    (h hbodyNames (by omega) hstands.left σ m hin).mono ⟨Nat.le_refl here, (by omega : _ ≤ hi)⟩
  constructor
  · intro r hexec
    generalize hc : Command.repeatUntil c e = w at hexec
    induction hexec generalizing m with
    | repeatUntil hinside hv hagain _ ih =>
      cases hc
      obtain ⟨n, m', hpass, hin'⟩ := (hbody hin).results _ hinside
      obtain ⟨k, m'', hpass', hin''⟩ := (hbranches hin').fails hv
      exact .after (hpass.trans hpass') (ih _ hin'' rfl)
    | repeatUntilEnd hinside hv =>
      cases hc
      obtain ⟨n, m', hpass, hin'⟩ := (hbody hin).results _ hinside
      obtain ⟨k, m'', hpass', hin''⟩ := (hbranches hin').holds hv
      exact ⟨n + (k + 1), m'', hpass.trans hpass', hin''⟩
    | repeatUntilFault hinside hv =>
      cases hc
      obtain ⟨n, m', hpass, hin'⟩ := (hbody hin).results _ hinside
      exact .after hpass ((hbranches hin').fault _ hv)
    | repeatUntilInside hinside =>
      cases hc
      exact (hbody hin).results _ hinside
    | _ => cases hc
  · intro hnone
    refine .of_progress (I := fun m => ∃ σ, E.In σ here m ∧ ∀ r, ¬Exec E.bindings (.repeatUntil c e) σ r) ?_ ⟨σ, hin, hnone⟩
    rintro m ⟨σ, hin, hnone⟩
    by_cases hinside : ∃ r, Exec E.bindings c σ r
    · obtain ⟨r, hinside⟩ := hinside
      cases r with
      | error f => exact absurd (.repeatUntilInside hinside) (hnone _)
      | ok σ' =>
        obtain ⟨n, m', hpass, hin'⟩ := (hbody hin).results _ hinside
        cases hv : e.evalIn E.bindings σ' with
        | error f => exact absurd (.repeatUntilFault hinside hv) (hnone _)
        | ok v =>
          obtain ⟨b, rfl⟩ := (hbranches hin').boolean v hv
          cases b with
          | true => exact absurd (.repeatUntilEnd hinside hv) (hnone _)
          | false =>
            obtain ⟨k, m'', hpass', hin''⟩ := (hbranches hin').fails hv
            exact .inr ⟨n + k, m'', hpass.trans hpass', σ', hin'', fun r hagain => hnone r (.repeatUntil hinside hv hagain)⟩
    · exact .inl ((hbody hin).diverges (not_exists.mp hinside))

end Scene.Runs

end MiniPascal.Parser
