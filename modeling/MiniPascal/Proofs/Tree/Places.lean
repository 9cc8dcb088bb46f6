import MiniPascal.Proofs.Tree.Balance

/-!
# Places in frames

What lies at the offsets of the frame of a block: its parameters below the frame, its result and its local variables
above the links of the frame, and the parts of these. No word belongs to two of them, so the scalar at a word has one
type.
-/

namespace MiniPascal.Level

variable {ts : TypeTable} {l : Level} {offset start start' w : Int} {a a' t t' : TypeId}

section

variable {exact : Prop} (hx : exact) (hlaid : l.Laid ts exact) (hformed : ts.Formed exact)

include hlaid

theorem Places.has (h : l.Places start a) : ts.Has a := by
  cases h with
  | field hf => exact hlaid.has hf
  | result ht => exact (hlaid.routine.result _ ht).1

include hx hformed

theorem Places.toInt_size (h : l.Places start a) : (ts.size a).toInt = ts.words a ∧ 1 ≤ ts.words a := by
  have hpos := (hformed.size (h.has hlaid) hx).1
  unfold TypeTable.words
  omega

/-- Where the values of a block lie. -/
theorem Places.bounds (h : l.Places start a) : -(ts.total l.routine.params : Int) ≤ start ∧ start + ts.words a ≤ 0 ∨
      3 ≤ start ∧ start + ts.words a ≤ 4 + ts.total l.vars := by
  obtain ⟨hsize, -⟩ := h.toInt_size hx hlaid hformed
  rw [← hsize]
  cases h with
  | field hf =>
    have := hlaid.frameOffset_bounds hx (fun t ht => (hformed.size ht hx).1) hf
    omega
  | result ht =>
    obtain ⟨hhas, hscalar⟩ := hlaid.routine.result _ ht
    rw [hformed.scalar hhas hscalar]
    have : FrameSlot.result.offset.toInt = 3 := rfl
    have : (1 : Int64).toInt = 1 := rfl
    omega

theorem field_eq_of_shared {f g : Field} (hf : f ∈ l.fields) (hg : g ∈ l.fields)
    (hfw : f.frameOffset.toInt ≤ w ∧ w < f.frameOffset.toInt + (ts.size f.type).toInt)
    (hgw : g.frameOffset.toInt ≤ w ∧ w < g.frameOffset.toInt + (ts.size g.type).toInt) : f = g := by
  have hsized (t : TypeId) (ht : ts.Has t) : 1 ≤ (ts.size t).toInt := (hformed.size ht hx).1
  obtain ⟨hparams, hlocals⟩ := hlaid.small hx
  have hstart := hlaid.toInt_start hx hsized
  rcases List.mem_append.mp hf with hf | hf <;> rcases List.mem_append.mp hg with hg | hg
  · obtain ⟨hfo, -⟩ := hlaid.frameOffset_param hx hsized hf
    obtain ⟨hgo, -⟩ := hlaid.frameOffset_param hx hsized hg
    refine TypeTable.eq_of_shared (hlaid.routine.placed.apart
      (fun g hg => Int.le_trans (by decide) (hsized g.type (hlaid.routine.types g hg))) hparams (by omega) (by omega))
      hf hg (w := w) (by omega) (by omega)
  · have := hlaid.frameOffset_param hx hsized hf
    have := hlaid.frameOffset_local hx hsized hg
    omega
  · have := hlaid.frameOffset_local hx hsized hf
    have := hlaid.frameOffset_param hx hsized hg
    omega
  · obtain ⟨hfo, -⟩ := hlaid.frameOffset_local hx hsized hf
    obtain ⟨hgo, -⟩ := hlaid.frameOffset_local hx hsized hg
    refine TypeTable.eq_of_shared (hlaid.placed.apart
      (fun g hg => Int.le_trans (by decide) (hsized g.type (hlaid.types g hg))) hlocals (by decide)
      (by rw [Word.toInt_zero]; omega)) hf hg (w := w - 4) (by omega) (by omega)

/-- No word belongs to two variables, or to a variable and the result. -/
theorem Places.eq_of_shared (h : l.Places start a) (h' : l.Places start' a')
    (hw : start ≤ w ∧ w < start + ts.words a) (hw' : start' ≤ w ∧ w < start' + ts.words a') :
    start = start' ∧ a = a' := by
  obtain ⟨hsize, -⟩ := h.toInt_size hx hlaid hformed
  obtain ⟨hsize', -⟩ := h'.toInt_size hx hlaid hformed
  rw [← hsize] at hw
  rw [← hsize'] at hw'
  have hone {t : TypeId} (ht : l.routine.result = some t) : (ts.size t).toInt = 1 := by
    obtain ⟨hhas, hscalar⟩ := hlaid.routine.result t ht
    rw [hformed.scalar hhas hscalar]
    rfl
  have hresult : FrameSlot.result.offset.toInt = 3 := rfl
  cases h with
  | field hf =>
    cases h' with
    | field hg =>
      obtain rfl := field_eq_of_shared hx hlaid hformed hf hg hw hw'
      exact ⟨rfl, rfl⟩
    | result ht =>
      have := hlaid.frameOffset_bounds hx (fun t ht => (hformed.size ht hx).1) hf
      have := hone ht
      omega
  | result ht =>
    cases h' with
    | field hg =>
      have := hlaid.frameOffset_bounds hx (fun t ht => (hformed.size ht hx).1) hg
      have := hone ht
      omega
    | result ht' => exact ⟨rfl, Option.some.inj (ht.symm.trans ht')⟩

theorem Locates.bounds (h : l.Locates ts offset t) : 1 ≤ ts.words t ∧
    (-(ts.total l.routine.params : Int) ≤ offset ∧ offset + ts.words t ≤ 0 ∨
      3 ≤ offset ∧ offset + ts.words t ≤ 4 + ts.total l.vars) := by
  obtain ⟨start, a, i, hplace, hpart, rfl⟩ := h
  obtain ⟨hhas, hwithin⟩ := hpart.within hx hformed (hplace.has hlaid)
  have := hplace.bounds hx hlaid hformed
  have := hformed.words_pos hx hhas
  omega

/-- A scalar variable is no part of anything else, and shares no word with it. -/
theorem Locates.eq_of_places (h : l.Locates ts offset t) (hplace : l.Places start a) (ha : ts.isAggregate a = false)
    (hw : offset ≤ start ∧ start < offset + ts.words t) : offset = start ∧ t = a := by
  obtain ⟨start', a', i, hplace', hpart, rfl⟩ := h
  obtain ⟨-, hwithin⟩ := hpart.within hx hformed (hplace'.has hlaid)
  obtain ⟨-, hpos⟩ := hplace.toInt_size hx hlaid hformed
  obtain ⟨rfl, rfl⟩ := hplace'.eq_of_shared hx hlaid hformed hplace (w := start) (by omega) (by omega)
  obtain ⟨rfl, rfl⟩ := hpart.eq_of_scalar ha
  exact ⟨Int.add_zero _, rfl⟩

/-- The type of the scalar at an offset is known. -/
theorem Locates.unique (h : l.Locates ts offset t) (h' : l.Locates ts offset t') (ht : ts.isAggregate t = false)
    (ht' : ts.isAggregate t' = false) : t = t' := by
  obtain ⟨start, a, i, hplace, hpart, rfl⟩ := h
  obtain ⟨start', a', i', hplace', hpart', heq⟩ := h'
  obtain ⟨hhas, hwithin⟩ := hpart.within hx hformed (hplace.has hlaid)
  obtain ⟨hhas', hwithin'⟩ := hpart'.within hx hformed (hplace'.has hlaid)
  have hpos := hformed.words_pos hx hhas
  have hpos' := hformed.words_pos hx hhas'
  obtain ⟨rfl, rfl⟩ := hplace.eq_of_shared hx hlaid hformed hplace' (w := start + i) (by omega) (by omega)
  obtain rfl : i = i' := by omega
  exact hpart.unique hx hformed hpart' (hplace.has hlaid) ht ht'

end

end MiniPascal.Level
