import MiniPascal.Proofs.Grammar.Statement

/-!
# Constants and types are phrases

The tokens that are taken for a constant or a type without a report can be derived from the grammar. Two reports
rest on what the types are: a minus sign before a string, and an index of an array that is no simple type.
-/

namespace MiniPascal

open List

def TypeTable.Composite (ts : TypeTable) (t : TypeId) : Prop := ts.Has t ∧ (ts.kind t).isOrdinal = false

variable {t : TypeId} {ts : TypeTable}

theorem TypeTable.Composite.grow {ts' : TypeTable} (h : ts.Composite t) (hgrows : ts.Grows ts') : ts'.Composite t := by
  obtain ⟨hhas, hkind⟩ := h
  refine ⟨hgrows.has hhas, ?_⟩
  rwa [hgrows.kind hhas]

theorem TypeTable.root_of_hostless (h : (ts.get t).base = none) : ts.root t = t := by
  unfold root
  cases ts.descs.size with
  | zero => rfl
  | succ n => simp [rootFrom, h]

namespace Parser

open State Ebnf

variable {α β σ : Type} {K : List Token → Prop} {element : TypeId}

namespace State.Viable

variable {s : State} (h : s.Viable)

include h

theorem has_basic (ht : t.Basic) : s.types.Has t := by
  refine h.types.has ?_
  show t.index < 5
  unfold TypeId.Basic at ht
  omega

theorem root_basic (ht : t.Basic) : s.types.root t = t := TypeTable.root_of_hostless (h.hostless t ht)

theorem rootKind_char : s.types.rootKind .char = .character := by
  unfold TypeTable.rootKind
  rw [h.root_basic (by decide), h.types.kind (by decide)]
  rfl

end State.Viable

/-! ## Changes of the declarations -/

/-- A change of the state that leaves lexemes, diagnostics and types alone. -/
theorem Stays.modify {f : State → State} (hlexemes : ∀ s, (f s).lexemes = s.lexemes)
    (hdiagnostics : ∀ s, (f s).diagnostics = s.diagnostics) (hlast : ∀ s, (f s).lastError = s.lastError)
    (hexhausted : ∀ s, (f s).exhausted = s.exhausted) (htypes : ∀ s, (f s).types = s.types)
    (hforward : ∀ s, (f s).forward = s.forward) : Stays (modify f : Parser Unit) := fun K => {
  goes := fun s => ⟨change_advances (hlexemes s) (hdiagnostics s) (hlast s) (hexhausted s), htypes s ▸ .refl _⟩
  holds := fun s hs hK _ => by
    have hadv : Advances 0 s (f s) := change_advances (hlexemes s) (hdiagnostics s) (hlast s) (hexhausted s)
    refine ⟨⟨hadv.lastError hs.lastError, hs.ended.of_suffix hadv.lexemes, ?_, ?_, ?_⟩, ?_⟩
    · exact htypes s ▸ hs.types
    · exact htypes s ▸ hs.hostless
    · exact hforward s ▸ hs.forward
    · exact (tokens_eq (hlexemes s)).symm ▸ hK }

theorem declareAt_stays (level : Int) (name : Text) (value : Declaration) : Stays (declareAt level name value) := by
  intro K
  refine ⟨.of_moves (declareAt_moves level name value), ?_⟩
  intro s hs hK hclean
  rw [declareAt_run] at hclean ⊢
  split at hclean
  · next heq =>
    exact ⟨⟨hs.lastError, hs.ended, hs.types, hs.hostless, hs.forward⟩, hK⟩
  · exact absurd hclean (not_clean_report hs.lastError _)

theorem declare_stays (name : Text) (value : Declaration) : Stays (declare name value) :=
  .level fun _ => (declareAt_stays _ _ _).bind fun _ => .pure _

theorem addType_ensures (d : TypeDesc) : Ensures (fun s => K s.tokens) (addType d)
    fun t s => (s.types.Has t ∧ s.types.kind t = d.kind ∧ ¬t.Basic) ∧ K s.tokens where
  goes := .of_moves (addType_moves d)
  holds s hs hK _ := by
    have hget (t : TypeId) (ht : t.Basic) : ((s.types.add d).2.get t).base = none := by
      have hsame : (s.types.descs.push d)[t.index]? = s.types.descs[t.index]? := by
        rw [Array.getElem?_push, if_neg (Nat.ne_of_lt (hs.has_basic ht))]
      show (((s.types.descs.push d)[t.index]?).getD .integer).base = none
      rw [hsame]
      exact hs.hostless t ht
    refine ⟨⟨hs.lastError, hs.ended, hs.types.trans (s.types.grows_add d), hget, hs.forward⟩, ⟨?_, ?_, ?_⟩, hK⟩
    · exact s.types.has_add d
    · exact congrArg TypeDesc.kind (s.types.get_add d)
    · intro hbasic
      exact Nat.lt_irrefl _ (hs.has_basic hbasic)

theorem addType_stays (d : TypeDesc) : Stays (addType d) := fun _ => (addType_ensures d).post fun _ _ h => h.2

theorem addType_composite {d : TypeDesc} (hd : d.kind.isOrdinal = false) : Ensures (fun s => K s.tokens) (addType d)
    fun t s => s.types.Composite t ∧ K s.tokens := by
  refine (addType_ensures d).post fun t s hs => ⟨⟨hs.1.1, ?_⟩, hs.2⟩
  rwa [hs.1.2.1]

/-! ## Constants -/

/-- A number, a name or a string; only the latter has the type of characters for its own sake. -/
theorem unsignedConstant_ensures : Ensures (fun s => K s.tokens) unsignedConstant fun r s =>
    ∃ value type, r = some (value, type) ∧
      ((choice [number, ident]).After K s.tokens ∨ type = .char ∧ string.After K s.tokens) := by
  refine .current fun s₀ => ?_
  dsimp only
  generalize s₀.current.token = t
  split
  · exact .advance [.integerLiteral, .realLiteral] (by decide) <| .pure fun s hs => ⟨_, _, rfl, .inl (.nth 0 rfl hs)⟩
  · exact .advance [.integerLiteral, .realLiteral] (by decide) <| .pure fun s hs => ⟨_, _, rfl, .inl (.nth 0 rfl hs)⟩
  · exact .require rfl <| .shift nofun <| .pure fun s hs => ⟨_, _, rfl, .inr ⟨rfl, hs⟩⟩
  · refine (Ensures.resolve _).bind fun e => ?_
    split
    · exact .pure fun s hs => ⟨_, _, rfl, .inl (.nth 1 rfl hs)⟩
    · exact .report_bind rfl (.pure _)
  · exact .report_bind rfl (.pure _)

/-- Only numbers change their sign. -/
theorem negated_ensures {c : State → Prop} (value : Datum) (type : TypeId) :
    Ensures c (negated value type) fun _ s => type ≠ .char ∧ c s := by
  have hkind : Ensures c types fun ts s => ts.rootKind .char = .character ∧ c s :=
    .of_reads types_reads fun s hs hc _ => ⟨hs.rootKind_char, hc⟩
  refine hkind.bind fun ts => ?_
  have hnumber {k : TypeKind} (hk : ts.rootKind type = k) (hne : k ≠ .character)
      (hroot : ts.rootKind .char = .character) : type ≠ .char := by
    rintro rfl
    exact hne (hk.symm.trans hroot)
  split
  · next hk => exact .pure fun s hs => ⟨hnumber hk (by decide) hs.1, hs.2⟩
  · next hk => exact .pure fun s hs => ⟨hnumber hk (by decide) hs.1, hs.2⟩
  · exact .report_bind rfl (.pure _)

def AfterSign (K : List Token → Prop) : Option Bool → List Token → Prop
  | none => K
  | some false => (tok .plus).After K
  | some true => (tok .minus).After K

theorem sign_ensures : Ensures (fun s => K s.tokens) sign fun r s => AfterSign K r s.tokens := by
  refine .token fun t => ?_
  cases hsign : sign? t with
  | none => exact .bind (.pure fun s hs => hs.2) fun _ => .pure fun s hs => hs
  | some negative =>
    obtain ⟨hmem, hne⟩ := sign_mem hsign
    refine .bind (.taken hne K) fun _ => .pure fun s hs => ?_
    cases t <;> simp [sign?] at hsign <;> subst hsign <;> exact hs

theorem after_signs {sign : Option Bool} {r : List Token} (h : AfterSign K sign r) :
    (opt (oneOf [.plus, .minus])).After K r := by
  have hone {t : Token} (ht : t ∈ [Token.plus, .minus]) (h : (tok t).After K r) :
      (oneOf [.plus, .minus]).After K r := by
    obtain ⟨w, hw, hd⟩ := h
    cases hd with
    | oneOf hmem =>
      cases mem_singleton.mp hmem
      exact ⟨_, hw, .oneOf ht⟩
  cases sign with
  | none => exact .absent h
  | some negative =>
    cases negative with
    | false => exact .present (hone (by decide) h)
    | true => exact .present (hone (by decide) h)

theorem constant_parses : Parses constant (rule .constant) := by
  intro K
  refine sign_ensures.bind fun sign => unsignedConstant_ensures.bind fun found => ?_
  -- A string comes without a sign or after a plus sign, unless it is negated.
  have hplain (type : TypeId) (hsign : sign ≠ some true) (l : List Token)
      (h : (choice [number, ident]).After (AfterSign K sign) l ∨ type = .char ∧ string.After (AfterSign K sign) l) :
      (rule .constant).After K l := by
    refine .rule ?_
    rcases h with h | ⟨-, h⟩
    · refine .nth 0 rfl ?_
      rw [after_seq]
      exact h.mono fun _ => after_signs
    · refine .nth 1 rfl ?_
      rw [after_seq]
      refine h.mono fun _ h => ?_
      cases sign with
      | none => exact .absent h
      | some negative =>
        cases negative with
        | false => exact .present h
        | true => exact absurd rfl hsign
  split
  · next value type =>
    split
    · refine (negated_ensures _ _).post fun _ s hs => ?_
      obtain ⟨hne, v, t, heq, h | ⟨hchar, -⟩⟩ := hs
      · refine .rule (.nth 0 rfl ?_)
        rw [after_seq]
        exact h.mono fun _ => after_signs
      · cases heq
        exact absurd hchar hne
    · next hsign =>
      refine .pure fun s hs => ?_
      obtain ⟨v, t, heq, h⟩ := hs
      exact hplain t hsign _ h
  · refine .pure fun s hs => ?_
    obtain ⟨v, t, heq, -⟩ := hs
    cases heq

/-! ## Types -/

theorem typeIdentifier_parses : Parses typeIdentifier ident := by
  refine fun K => .ifToken ?_ ?_
  · refine (Ensures.resolve K).bind fun e => ?_
    split
    · exact .pure fun _ h => h
    · exact .report_bind rfl (.pure _)
  · exact .report_bind rfl (.pure _)

theorem declareValues_stays (type : TypeId) (n : Nat) (names : List Text) : Stays (declareValues type n names) := by
  induction names generalizing n with
  | nil => exact .pure _
  | cons name rest ih => exact (declare_stays _ _).bind fun _ => ih (n + 1)

/-- The tokens of a type. If they are no simple type, the values of the type have no ordinal numbers. -/
def Specified (K : List Token → Prop) (t : TypeId) (s : State) : Prop :=
  (rule .type).After K s.tokens ∧ ((rule .simpleType).After K s.tokens ∨ s.types.Composite t)

theorem specified_of_simple {s : State} (h : (production .simpleType).After K s.tokens) :
    Specified K t s := ⟨.rule (.nth 1 rfl (.rule h)), .inl (.rule h)⟩

theorem enumeration_ensures : Ensures (fun s => Sees .leftParen K s.tokens) enumeration (Specified K) := by
  refine .shift nofun <| (identifiers_parses _).bind fun names => ?_
  refine .expect nofun <| (addType_stays _ _).bind fun type => ?_
  refine (declareValues_stays _ _ _ _).bind fun _ => .pure fun s hs => specified_of_simple (.nth 1 rfl ?_)
  simpa only [after_seq] using hs

theorem subrange_ensures : Ensures (fun s => K s.tokens) subrange (Specified K) := by
  refine (constant_parses K).bind fun lower => .expect nofun <|
    (constant_parses _).bind fun upper => .types fun ts => ?_
  split
  · split
    · refine (addType_stays _ _).post fun t s hs => specified_of_simple (.nth 2 rfl ?_)
      simpa only [after_seq] using hs
    · exact .report_bind rfl (.pure _)
  · exact .report_bind rfl (.pure _)

theorem composite_kept (t : TypeId) (ts ts' : TypeTable) (hgrows : ts.Grows ts') (h : ts.Composite t) :
    ts'.Composite t := h.grow hgrows

theorem array?_kind {index : TypeId} {d : TypeDesc} (h : ts.array? index element = .ok d) :
    d.kind = .array ∧ ¬ts.Composite index := by
  unfold TypeTable.array? at h
  dsimp only at h
  split at h
  · cases h
  · next hordinal =>
    split at h
    · cases h
    · cases h
      refine ⟨rfl, fun hcomposite => hordinal ?_⟩
      rw [show (ts.get index).kind = ts.kind index from rfl, hcomposite.2]
      rfl

section

variable (indices : List TypeId)

theorem arrayOver_composite :
    Ensures (fun s => (indices = [] → s.types.Composite element) ∧ K s.tokens) (arrayOver element indices)
      fun t s => s.types.Composite t ∧ K s.tokens := by
  induction indices generalizing element with
  | nil => exact .pure fun _ h => ⟨h.1 rfl, h.2⟩
  | cons index rest ih =>
    refine .pre (c := fun s => K s.tokens) (fun s hs => hs.2) (.types fun ts => ?_)
    split
    · next d hd =>
      have hkind : d.kind.isOrdinal = false := by
        rw [(array?_kind hd).1]
        rfl
      exact (addType_composite hkind).bind fun t => ih.pre fun s hs => ⟨fun _ => hs.1, hs.2⟩
    · exact .report_bind rfl (.pure _)

/-- One of some types has no ordinal numbers. -/
def Irregular (indices : List TypeId) (ts : TypeTable) : Prop := ∃ i ∈ indices, ts.Composite i

theorem irregular_kept (ts ts' : TypeTable) (hgrows : ts.Grows ts') (h : Irregular indices ts) :
    Irregular indices ts' := by
  obtain ⟨i, hmem, hi⟩ := h
  exact ⟨i, hmem, hi.grow hgrows⟩

/-- What is done next changes nothing about a type without ordinal numbers. -/
theorem irregular_ensures {p : Parser α} {G : α → State → Prop} (hp : Ensures (fun _ => True) p G) :
    Ensures (fun s => Irregular indices s.types) p fun a s => Irregular indices s.types ∧ G a s :=
  (hp.keep (irregular_kept indices)).pre fun _ hs => ⟨hs, trivial⟩

theorem arrayOver_refused {H : TypeId → State → Prop} :
    Ensures (fun s => Irregular indices s.types) (arrayOver element indices) H := by
  induction indices generalizing element with
  | nil =>
    refine .pure fun s hs => ?_
    obtain ⟨i, hmem, -⟩ := hs
    cases hmem
  | cons index rest ih =>
    refine Ensures.types_known.bind fun ts => ?_
    split
    · next d hd =>
      refine ((irregular_ensures rest (addType_stays d fun _ => True)).pre ?_).bind fun t => ih.pre fun s hs => hs.1
      rintro s ⟨rfl, i, hmem, hi⟩
      rcases mem_cons.mp hmem with rfl | hrest
      · exact absurd hi (array?_kind hd).2
      · exact ⟨i, hrest, hi⟩
    · exact .report_bind rfl (.pure _)

end

theorem await_ensures (f : Forward) : Ensures (fun s => ¬f.type.Basic ∧ K s.tokens)
    (modify fun s => { s with forward := s.forward ++ [f] } : Parser Unit) fun _ s => K s.tokens where
  goes s := ⟨change_advances rfl rfl rfl rfl, .refl _⟩
  holds s hs hK _ := by
    refine ⟨⟨hs.lastError, hs.ended, hs.types, hs.hostless, ?_⟩, hK.2⟩
    intro g hg
    rcases mem_append.mp hg with hg | hg
    · exact hs.forward g hg
    · cases mem_singleton.mp hg
      exact hK.1

theorem pointerType_ensures (inSection : Bool) :
    Ensures (fun s => Sees .caret K s.tokens) (pointerType inSection) (Specified K) := by
  have hspecified (t : TypeId) (s : State)
      (h : s.types.Composite t ∧ ident.After ((tok .caret).After K) s.tokens) : Specified K t s := by
    refine ⟨.rule (.nth 4 rfl ?_), .inr h.1⟩
    rw [after_seq]
    exact h.2
  refine .shift nofun <| .current fun s₀ => ?_
  split
  · next heq =>
    rw [heq]
    split
    · refine .shift nofun <| ?_
      split
      · exact (addType_composite rfl).post hspecified
      · exact .report_bind rfl (.of_moves (addType_moves _))
    · split
      · refine (addType_ensures _).bind fun t => ?_
        -- The new type has no ordinal numbers, and that is kept until the name is taken.
        have hwait := ((await_ensures (K := Sees .identifier ((tok .caret).After K))
          ⟨s₀.current.text, t, s₀.current.pos, s₀.current.line⟩).keep (composite_kept t))
        refine (hwait.pre ?_).bind fun _ => ?_
        · rintro s ⟨⟨hhas, hkind, hne⟩, hsees⟩
          refine ⟨⟨hhas, ?_⟩, hne, hsees⟩
          rw [hkind]
          rfl
        · exact ((Ensures.taken (by decide) _).keep (composite_kept t)).bind fun _ => .pure (hspecified t)
      · exact (Ensures.resolve _).bind fun _ => (addType_composite rfl).post hspecified
  · exact .report_bind rfl (.of_moves (addType_moves _))

theorem addFields_stays (type : TypeId) (fields : List (Text × TypeId)) (names : List Text) :
    Stays (addFields type fields names) := by
  induction names generalizing fields with
  | nil => exact .pure _
  | cons name rest ih => exact .require rfl <| ih _

/-- What is left before a group of fields: the first one, or one after a semicolon. -/
def BeforeFields (K : List Token → Prop) (fields : List (Text × TypeId)) (l : List Token) : Prop :=
  fields = [] ∧ K l ∨ (tok .semicolon).After ((sepBy group .semicolon).After K) l

def AfterFields (K : List Token → Prop) (fields : List (Text × TypeId)) (l : List Token) : Prop :=
  fields = [] ∨ (rule .fieldList).After K l

section

variable {typeSpec : Bool → Parser TypeId}
  (ht : ∀ inSection K, Ensures (fun s => K s.tokens) (typeSpec inSection) (Specified K))

include ht

/-- The indices of an array are simple types, or one of them has no ordinal numbers. -/
theorem indices_ensures : Ensures (fun s => K s.tokens)
    (separated .comma (fun indices => return indices ++ [← typeSpec false]) []) fun indices s => indices ≠ [] ∧
      ((sepBy (rule .simpleType) .comma).After K s.tokens ∨ Irregular indices s.types) := by
  let L : List Token → Prop := (sepBy (rule .simpleType) .comma).After K
  let J (indices : List TypeId) (s : State) : Prop :=
    (rule .simpleType).Before .comma K s.tokens ∨ Irregular indices s.types
  have hitem (indices : List TypeId) : Ensures (J indices) (typeSpec false)
      fun t s => L s.tokens ∨ Irregular (indices ++ [t]) s.types := by
    refine ((ht false _).or (irregular_ensures indices (ht false fun _ => True))).post fun t s hs => ?_
    rcases hs with ⟨-, hsimple | hcomposite⟩ | ⟨⟨i, hmem, hi⟩, -⟩
    · exact .inl hsimple.separated
    · exact .inr ⟨t, by simp, hcomposite⟩
    · exact .inr ⟨i, mem_append_left _ hmem, hi⟩
  have hstep (indices : List TypeId) : Ensures (J indices)
      (separatedStep .comma (fun indices => return indices ++ [← typeSpec false]) indices)
      fun r s => if r.1 then J r.2 s else r.2 ≠ [] ∧ (L s.tokens ∨ Irregular r.2 s.types) := by
    refine .bind (G := fun z s => z ≠ [] ∧ (L s.tokens ∨ Irregular z s.types)) ?_ fun z => ?_
    · exact (hitem indices).bind fun t => .pure fun s hs => ⟨by simp, hs⟩
    · have hregular (hne : z ≠ []) := separator_ensures (t := .comma) (by decide) z (K := L)
        (H := fun r s => if r.1 then J r.2 s else r.2 ≠ [] ∧ (L s.tokens ∨ Irregular r.2 s.types))
        (fun s h => .inl (.inr h)) fun s h => ⟨hne, .inl h⟩
      have hirregular := irregular_ensures z (separator_ensures (t := .comma) (by decide) z
        (K := fun _ => True) (H := fun r _ => r.2 = z) (fun _ _ => rfl) fun _ _ => rfl)
      refine .given hirregular.goes fun hne => ((hregular hne).or hirregular).post fun r s hs => ?_
      rcases hs with h | ⟨h, heq⟩
      · exact h
      · rw [← heq] at h hne
        split
        · exact .inr h
        · exact ⟨hne, .inr h⟩
  exact (Ensures.loop hstep []).pre fun s hs => .inl (.inl hs)

variable (inSection : Bool)

theorem arrayType_ensures :
    Ensures (fun s => Sees .kwArray K s.tokens) (arrayType typeSpec inSection) (Specified K) := by
  refine .shift nofun <| .expect nofun <| (indices_ensures ht).bind fun indices => ?_
  refine .given ?_ fun hne => ?_
  · refine .bind (.of_reads (expect_reads _)) fun _ => .bind (.of_reads (expect_reads _)) fun _ => ?_
    exact (ht inSection fun _ => True).goes.bind fun _ => .of_moves (arrayOver_declares _ _).moves
  · refine (Ensures.or ?_ ?_).post fun _ _ h => h.elim id id
    · refine .expect nofun <| .expect nofun <| ((ht inSection _).post fun t s hs => hs.1).bind fun element => ?_
      have hover (s : State) : indices.reverse = [] → s.types.Composite element :=
        fun hnil => absurd (reverse_eq_nil_iff.mp hnil) hne
      refine ((arrayOver_composite indices.reverse).pre fun s hs => ⟨hover s, hs⟩).post fun t s hs => ?_
      refine ⟨.rule (.nth 2 rfl ?_), .inr hs.1⟩
      simpa only [after_seq] using hs.2
    · have hexpect (t : Token) (ht : t ≠ .endOfFile) := irregular_ensures indices (Ensures.expected ht fun _ => True)
      refine (hexpect .rightBracket (by decide)).bind fun _ => ?_
      refine ((hexpect .kwOf (by decide)).pre fun s hs => hs.1).bind fun _ => ?_
      refine ((irregular_ensures indices (ht inSection fun _ => True)).pre fun s hs => hs.1).bind fun element => ?_
      refine (arrayOver_refused indices.reverse).pre fun s hs => ?_
      obtain ⟨⟨i, hmem, hi⟩, -⟩ := hs
      exact ⟨i, mem_reverse.mpr hmem, hi⟩

theorem fieldGroup_ensures (fields : List (Text × TypeId)) :
    Ensures (fun s => BeforeFields K fields s.tokens) (fieldGroup typeSpec inSection fields)
      fun r s => if r.1 then BeforeFields K r.2 s.tokens else AfterFields K r.2 s.tokens := by
  let L : List Token → Prop := (sepBy group .semicolon).After K
  have hgroup (l : List Token) (h : group.After (BeforeFields K fields) l) : L l :=
    (h.mono fun _ h => h.imp_left And.right).separated
  refine .ifToken ?_ ?_
  · refine ((identifiers_parses _).pre fun s hs => hs.2).bind fun names => ?_
    refine .expect nofun <|
      ((ht inSection _).post fun t s hs => hs.1).bind fun type => (addFields_stays _ _ _ _).bind fun z => ?_
    refine (separator_ensures (K := L) (by decide) z (fun s hs => .inr hs) fun s hs => ?_).pre fun s hs => hgroup _ ?_
    · refine .inr (.rule ?_)
      simp only [production, after_seq]
      exact .absent hs
    · simpa only [group, after_seq] using hs
  · refine .pure fun s hs => ?_
    rw [if_neg Bool.false_ne_true]
    refine hs.imp And.left fun h => .rule ?_
    simp only [production, after_seq]
    exact .present h

theorem recordType_ensures :
    Ensures (fun s => Sees .kwRecord K s.tokens) (recordType typeSpec inSection) (Specified K) := by
  refine .shift nofun <| ((Ensures.loop (J := fun fields s => BeforeFields _ fields s.tokens)
    (Q := fun fields s => AfterFields _ fields s.tokens) (fieldGroup_ensures ht inSection) []).pre
    fun s hs => .inl ⟨rfl, hs⟩).bind fun fields => ?_
  by_cases hempty : fields = []
  · subst hempty
    exact ((Ensures.expected (by decide) fun _ => True).pre fun s _ => trivial).bind fun _ => .report_bind rfl (.pure _)
  · refine ((Ensures.expected (by decide) _).pre fun s hs => hs.resolve_left hempty).bind fun _ => ?_
    rw [if_neg (by simpa using hempty)]
    refine .types fun ts => (addType_composite rfl).post fun t s hs => ⟨.rule (.nth 3 rfl ?_), .inr hs.1⟩
    simpa only [after_seq] using hs.2

theorem typeSpecOf_ensures : Ensures (fun s => K s.tokens) (typeSpecOf typeSpec inSection) (Specified K) := by
  refine .current fun s₀ => ?_
  generalize s₀.current.token = t
  have hsubrange : Ensures (fun s => Sees t K s.tokens) subrange (Specified K) :=
    subrange_ensures.pre fun s hs => hs.2
  split
  · split
    · exact hsubrange
    · exact ((typeIdentifier_parses K).pre fun s hs => hs.2).post fun t s hs => specified_of_simple (.nth 0 rfl hs)
  · exact enumeration_ensures
  · exact hsubrange
  · exact hsubrange
  · exact hsubrange
  · exact hsubrange
  · exact arrayType_ensures ht inSection
  · exact recordType_ensures ht inSection
  · exact pointerType_ensures inSection
  · exact .report_bind rfl (.pure _)

end

theorem typeSpecWithin_ensures (n : Nat) (inSection : Bool) (K : List Token → Prop) :
    Ensures (fun s => K s.tokens) (typeSpecWithin n inSection) (Specified K) := by
  induction n generalizing inSection K with
  | zero => exact .exhaust _
  | succ n ih => exact typeSpecOf_ensures ih inSection

theorem typeSpec_parses (inSection : Bool) : Parses (typeSpec inSection) (rule .type) :=
  fun K => .of_fuel fun k => (typeSpecWithin_ensures k inSection K).post fun _ _ h => h.1

end Parser

end MiniPascal
