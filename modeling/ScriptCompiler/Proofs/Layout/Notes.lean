import ScriptCompiler.Proofs.Layout.Displacement
import ScriptCompiler.Proofs.Note.Buffer
import Mathlib.Data.List.Forall2

/-!
# Notes follow the code

When code grows, every note goes where the code at its offset goes, and an
operand that measures a distance in the code measures the distance between the
same two places of the new code. The walk over the notes keeps count of the
fields it has passed: the growth it has added to the deltas is what the next
field has moved, so it is the growth in front of the note it stands at.
-/

namespace ScriptCompiler

open Bytes NoteBytes CodedNote

variable {bytes notes notes' : Bytes} {fuel growth delta lo hi position : Nat} {tooLarge : Error}
  {cs : List CodedNote} {c' : CodedNote} {sites : List Site} {direction : Direction}

/-- A distance from a note, taken again between the places where its two ends have gone. An operand
of zero has not been set. -/
def Direction.remeasure (direction : Direction) (at' : Nat → Nat) (offset bias span : Nat) : Nat :=
  if span = 0 then 0
  else if direction = .forward then at' (offset + bias + span) - (at' offset + bias)
  else at' offset + bias - at' (offset + bias - span)

/-- A note of code whose bytes have moved. -/
def PlacedNote.relocate (at' : Nat → Nat) (n : PlacedNote) : PlacedNote :=
  { n with
    offset := at' n.offset
    operands := (n.kind.spec.measures.map fun direction =>
      n.operands.map (direction.remeasure at' n.offset n.kind.spec.bias)).getD n.operands }

theorem CodedNote.length_bytes_le (c : CodedNote) : c.bytes.length ≤ Layout.longestNote := by
  have hoperands : ∀ os : List CodedOperand, (CodedOperand.allBytes os).length ≤ 3 * os.length := by
    intro os
    induction os with
    | nil => simp
    | cons o os ih =>
      have : o.bytes.length ≤ 3 := by
        unfold CodedOperand.bytes
        split <;> simp
      simp only [CodedOperand.allBytes_cons, List.length_append, List.length_cons]
      omega
  have hheader : c.header.length ≤ 2 := by
    unfold header NoteBytes.header
    split
    · simp
    · split <;> simp
  have harity : c.kind.arity ≤ 3 := by
    generalize c.kind = kind
    cases kind <;> decide
  have := hoperands c.operands
  rw [c.arity] at this
  simp only [CodedNote.bytes, List.length_append, Layout.longestNote]
  omega

/-- The kind and the operands fix the length of a note. -/
theorem CodedNote.length_bytes_congr {c : CodedNote} (hkind : c'.kind = c.kind)
    (hoperands : c'.operands = c.operands) : c'.bytes.length = c.bytes.length := by
  simp only [CodedNote.bytes, header, NoteBytes.header, hkind, hoperands]
  split
  · simp
  · split <;> simp

/-- An operand that is set takes no fewer bytes than before. -/
theorem CodedNote.length_bytes_le_setOperand (c : CodedNote) (which value : Nat)
    (h : value < operandLimit) : c.bytes.length ≤ (c.setOperand which value h).bytes.length := by
  have hstore : ∀ o : CodedOperand, o.bytes.length ≤ (o.store value h).bytes.length := by
    intro o
    simp only [CodedOperand.bytes, CodedOperand.store]
    by_cases hlong : o.long = true
    · simp [hlong]
    · simp only [hlong, Bool.false_eq_true, if_false, Bool.false_or]
      split <;> simp
  have hoperands : ∀ (os : List CodedOperand) (which : Nat), (CodedOperand.allBytes os).length ≤
      (CodedOperand.allBytes (os.modify which (·.store value h))).length := by
    intro os
    induction os with
    | nil => simp
    | cons o os ih =>
      intro which
      cases which with
      | zero => simp [hstore o]
      | succ which => simp [ih which]
  have := hoperands c.operands which
  simp only [CodedNote.bytes, header_setOperand, List.length_append]
  exact Nat.add_le_add_left this _

theorem NoteBytes.lt_fillerLimit_of_addToDelta {b b' : Bytes} {pos pos' : Nat}
    (h : addToDelta b pos delta = .ok (b', pos')) : delta < fillerLimit := by
  have hlimit : ∀ lead : UInt8,
      (if isFiller lead = true then fillerLimit else deltaLimit) ≤ fillerLimit := fun lead => by
    split <;> decide
  refine Nat.lt_of_not_le fun hlarge => ?_
  cases hlead : b[pos]? with
  | none =>
    rw [addToDelta, hlead] at h
    cases h
  | some lead =>
    have hfull : ¬ leadDelta lead + delta <
        (if isFiller lead = true then fillerLimit else deltaLimit) := by
      have := hlimit lead
      omega
    simp only [addToDelta, hlead, Error.inBounds, bind, Except.bind, if_neg hfull, if_pos hlarge] at h
    cases h

namespace Layout

/-- The table of the fields tells where every offset has gone. -/
structure Displacement.Follows (d : Displacement) (at' : Nat → Nat) : Prop where
  /-- What stands between two fields has moved as far as the later one. -/
  between : ∀ {x n : Nat}, n ≤ d.arms.size → (∀ k < n, d.field k < x) →
    (n < d.arms.size → x ≤ d.field n) → x + d.moved n = at' x
  /-- The search for an offset finds the field it stands in front of. -/
  nearest : ∀ (x first : Nat), (∀ k < min first d.arms.size, d.field k < x) →
    x + d.moved (d.nearest x first) = at' x
  /-- A field grows by two bytes at most. -/
  step : ∀ {k : Nat}, k < d.arms.size → d.moved k ≤ d.moved (k + 1) ∧ d.moved (k + 1) ≤ d.moved k + 2

/-- A byte grows by two if it starts a field that does. -/
theorem grown_succ_le {W : List Nat} (hW : W.Pairwise (· < ·)) (x : Nat) :
    grown W x + 1 ≤ grown W (x + 1) ∧ grown W (x + 1) ≤ grown W x + 3 := by
  have hcount : W.countP (· < x) ≤ W.countP (· < x + 1) ∧
      W.countP (· < x + 1) ≤ W.countP (· < x) + 1 := by
    induction W with
    | nil => simp
    | cons w W ih =>
      obtain ⟨hw, hW⟩ := List.pairwise_cons.mp hW
      obtain ⟨hlo, hhi⟩ := ih hW
      simp only [List.countP_cons, decide_eq_true_eq]
      by_cases heq : w = x
      · -- no later field starts here
        have hnone : ∀ v ∈ W, ¬ v < x + 1 := fun v hv => by
          have := hw v hv
          omega
        have hzero : W.countP (· < x + 1) = 0 := by
          simpa [List.countP_eq_zero] using fun v hv => Nat.le_of_not_lt (hnone v hv)
        simp only [heq, Nat.lt_irrefl, if_false, Nat.lt_add_one, if_true]
        omega
      · have hiff : w < x ↔ w < x + 1 := by omega
        simp only [hiff]
        split <;> omega
  simp only [grown]
  omega

theorem pairwise_widenedFields (horder : SitesOrdered lo sites hi) (wide : Nat → Bool) :
    (widenedFields sites wide).Pairwise (· < ·) := by
  have h := (armsOrdered_flatMap horder wide).pairwise
  rwa [List.map_flatMap] at h

theorem Describes.follows {targets : TargetIndex} {wide : Nat → Bool} {layout : Layout}
    (hd : Describes sites targets wide layout) (horder : SitesOrdered lo sites hi) :
    Displacement.Follows ⟨layout.arms, layout.growth⟩ (grown (widenedFields sites wide)) where
  between hn hbefore hbehind := hd.moved_between horder hn hbefore hbehind
  nearest x first hfirst := (hd.moved_nearest horder x first hfirst).1
  step {k} hk := by
    have hlow : ∀ j < k, Displacement.field ⟨layout.arms, layout.growth⟩ j <
        Displacement.field ⟨layout.arms, layout.growth⟩ k := fun j hj => hd.field_lt horder hj hk
    have hat := hd.moved_between horder (Nat.le_of_lt hk) hlow fun _ => Nat.le_refl _
    have hbehind := hd.moved_between horder
      (x := Displacement.field ⟨layout.arms, layout.growth⟩ k + 1) (n := k + 1) hk
      (fun j hj => by
        rcases Nat.lt_or_eq_of_le (Nat.le_of_lt_succ hj) with hj | rfl
        · have := hlow j hj
          omega
        · omega)
      fun hk => hd.field_lt horder (Nat.lt_succ_self k) hk
    have := grown_succ_le (pairwise_widenedFields horder wide)
      (Displacement.field ⟨layout.arms, layout.growth⟩ k)
    omega

variable {d : Displacement} {at' : Nat → Nat} {walk walk' : NoteWalk} {piece piece' : NotePiece}
  {gap : List CodedNote} {c : CodedNote} {post : List UInt8}

/-- The fields a walk has passed lie in front of its offset, and it has added what they grew by. -/
structure NoteWalk.Passing (walk : NoteWalk) (d : Displacement) : Prop where
  le : walk.passed ≤ d.arms.size
  growth : walk.growth = d.moved walk.passed
  before : ∀ k < walk.passed, d.field k < walk.offset

/-- The walk has passed all fields in front of its offset. -/
structure NoteWalk.Settled (walk : NoteWalk) (d : Displacement) : Prop extends
    NoteWalk.Passing walk d where
  behind : walk.passed < d.arms.size → walk.offset ≤ d.field walk.passed

theorem NoteWalk.Settled.offset (h : walk.Settled d) (hd : d.Follows at') :
    walk.offset + walk.growth = at' walk.offset := by
  rw [h.growth]
  exact hd.between h.le h.before h.behind

/-- A note with the fillers put in front of it and the bytes behind it. -/
structure NotePiece.Shows (piece : NotePiece) (gap : List CodedNote) (c : CodedNote)
    (post : List UInt8) : Prop where
  fillers : ∀ f ∈ gap, f.kind = .filler
  bytes : piece.bytes.toList = CodedNote.allBytes gap ++ (c.bytes ++ post)
  position : piece.position = (CodedNote.allBytes gap).length

/-- The note takes the growth itself, or a filler in front of it does. -/
theorem NotePiece.Shows.addToDelta (hp : piece.Shows gap c post)
    (h : addToDelta piece.bytes piece.position delta = .ok (bytes, position)) :
    ∃ gap' c', NotePiece.Shows ⟨bytes, position⟩ gap' c' post ∧ c'.kind = c.kind ∧
      c'.operands = c.operands ∧
      extent gap' + c'.delta = extent gap + c.delta + delta := by
  have hsmall := lt_fillerLimit_of_addToDelta h
  obtain ⟨bytes', position', hadd, hshape⟩ := addToDelta_of_parts hp.bytes hsmall
  rw [hp.position, hadd] at h
  cases h
  obtain ⟨hroom, rfl, hbytes⟩ | ⟨rfl, hbytes⟩ := hshape
  · exact ⟨gap, _, ⟨hp.fillers, hbytes, rfl⟩, rfl, rfl, by simp only [CodedNote.withDelta]; omega⟩
  · refine ⟨gap ++ [.filler delta hsmall], c, ⟨fun f hf => ?_, by simpa using hbytes, by simp⟩, rfl,
      rfl, by simp; omega⟩
    obtain hf | hf := List.mem_append.mp hf
    · exact hp.fillers f hf
    · rw [List.mem_singleton.mp hf]
      rfl

/-- A note of a stream that has been fixed: its length is read, what the piece has grown by is not
taken from the stream, and the bytes up to its end are those of the note and the gap. -/
theorem NotePiece.Shows.taken {c₀ : CodedNote} (hp : piece.Shows gap c post)
    (hbytes : bytes.toList = c₀.bytes ++ post) (hlonger : c₀.bytes.length ≤ c.bytes.length) :
    noteLen? piece.bytes piece.position = some c.bytes.length ∧
      piece.position + c.bytes.length - (piece.bytes.size - bytes.size) = c₀.bytes.length ∧
      (piece.bytes.extract 0 (piece.position + c.bytes.length)).toList =
        allBytes gap ++ c.bytes := by
  refine ⟨?_, ?_, ?_⟩
  · rw [hp.position]
    exact noteLen?_of_holds (holds_of_parts hp.bytes)
  · rw [← Array.length_toList, ← Array.length_toList, hp.bytes, hbytes, hp.position]
    simp only [List.length_append]
    omega
  · rw [Array.toList_extract, hp.bytes, hp.position, List.extract_eq_take_drop, List.drop_zero,
      Nat.sub_zero, ← List.append_assoc, ← List.length_append, List.take_left]

/-- Growth that is counted goes into the delta of the note. -/
theorem absorb_moves (hp : piece.Shows gap c post)
    (h : absorb d walk piece fuel = .ok (walk', piece')) : ∃ gap' c',
      piece'.Shows gap' c' post ∧ c'.kind = c.kind ∧ c'.operands = c.operands ∧
      extent gap' + c'.delta + walk.growth =
        extent gap + c.delta + walk'.growth := by
  induction fuel generalizing walk piece gap c with
  | zero =>
    cases h
    exact ⟨gap, c, hp, rfl, rfl, rfl⟩
  | succ fuel ih =>
    rw [absorb] at h
    split at h
    · simp only at h
      split at h
      · simp only [bind, Except.bind] at h
        split at h
        · cases h
        · rename_i result hadd
          obtain ⟨gap₁, c₁, hp₁, hkind₁, hoperands₁, hextent₁⟩ := hp.addToDelta hadd
          obtain ⟨gap', c', hp', hkind, hoperands, hextent⟩ := ih hp₁ h
          refine ⟨gap', c', hp', hkind.trans hkind₁, hoperands.trans hoperands₁, ?_⟩
          simp only at hextent
          omega
      · obtain ⟨gap', c', hrest⟩ := ih hp h
        exact ⟨gap', c', hrest⟩
    · cases h
      exact ⟨gap, c, hp, rfl, rfl, rfl⟩

/-- All fields in front of the offset are passed. -/
theorem absorb_settles (hd : d.Follows at') (hfuel : d.arms.size ≤ walk.passed + fuel)
    (hw : walk.Passing d) (h : absorb d walk piece fuel = .ok (walk', piece')) :
    walk'.offset = walk.offset ∧ walk'.Settled d := by
  induction fuel generalizing walk piece with
  | zero =>
    cases h
    exact ⟨rfl, hw, fun hlt => by omega⟩
  | succ fuel ih =>
    rw [absorb] at h
    split at h
    · rename_i hnext
      obtain ⟨hlo, -⟩ := hd.step hnext.1
      have hgrowth := hw.growth
      have hbefore : ∀ k < walk.passed + 1, d.field k < walk.offset := by
        intro k hk
        rcases Nat.lt_or_eq_of_le (Nat.le_of_lt_succ hk) with hk | rfl
        · exact hw.before k hk
        · exact hnext.2
      simp only at h
      split at h
      · simp only [bind, Except.bind] at h
        split at h
        · cases h
        · have hrest := ih (by simp only; omega)
            (by exact ⟨hnext.1, by simp only; omega, hbefore⟩) h
          exact hrest
      · have hrest := ih (by simp only; omega) (by exact ⟨hnext.1, by simp only; omega, hbefore⟩) h
        exact hrest
    · cases h
      exact ⟨rfl, hw, fun hlt => by omega⟩

theorem remeasure_ok (hd : d.Follows at') (hw : walk.Settled d) {bias span distance : Nat}
    (hspan : span ≠ 0)
    (h : remeasure tooLarge d walk direction (walk.offset + bias) span = .ok distance) :
    distance < operandLimit ∧ distance = direction.remeasure at' walk.offset bias span := by
  have hoffset := hw.offset hd
  cases direction with
  | forward =>
    have htarget := hd.nearest (walk.offset + bias + span) walk.passed fun k hk => by
      have := hw.before k (by omega)
      omega
    simp only [remeasure, bind, Except.bind, pure, Except.pure, throw, throwThe,
      MonadExceptOf.throw, Nat.le_add_right, if_true] at h
    split at h
    · cases h
    · split at h
      · cases h
      · cases h
        simp only [Direction.remeasure, hspan, if_true, if_false]
        omega
  | backward =>
    simp only [remeasure, bind, Except.bind, pure, Except.pure, throw, throwThe,
      MonadExceptOf.throw] at h
    split at h
    · cases h
    · have htarget := hd.nearest (walk.offset + bias - span) 0 fun k hk => by omega
      rw [if_neg (by omega : ¬ walk.offset + bias ≤ walk.offset + bias - span)] at h
      split at h
      · cases h
      · split at h
        · cases h
        · cases h
          simp only [Direction.remeasure, hspan, if_false, reduceCtorEq]
          omega

/-- An operand is measured anew; one of zero has not been set and stays. -/
def Remeasures (tooLarge : Error) (d : Displacement) (walk : NoteWalk) (direction : Direction)
    (pivot span distance : Nat) : Prop :=
  if span = 0 then distance = 0 else remeasure tooLarge d walk direction pivot span = .ok distance

/-- The operands from one on are measured anew, those before it stay. -/
theorem remeasureOperands_moves {pivot which count : Nat} {bytes' : Bytes}
    (hp : NotePiece.Shows ⟨bytes, position⟩ gap c post) (hcount : which + count = c.kind.arity)
    (h : remeasureOperands tooLarge d walk direction pivot position bytes which count = .ok bytes') :
    ∃ (c' : CodedNote) (distances : List Nat), NotePiece.Shows ⟨bytes', position⟩ gap c' post ∧
      c'.kind = c.kind ∧ c'.delta = c.delta ∧ c.bytes.length ≤ c'.bytes.length ∧
      c'.operands.map CodedOperand.value =
        (c.operands.map CodedOperand.value).take which ++ distances ∧
      List.Forall₂ (Remeasures tooLarge d walk direction pivot)
        ((c.operands.map CodedOperand.value).drop which) distances := by
  induction count generalizing which bytes c with
  | zero =>
    cases h
    have hlength : (c.operands.map CodedOperand.value).length = which := by
      rw [List.length_map, c.arity, ← hcount, Nat.add_zero]
    refine ⟨c, [], hp, rfl, rfl, Nat.le_refl _, ?_, ?_⟩
    · rw [← hlength, List.take_length, List.append_nil]
    · rw [← hlength, List.drop_length]
      exact .nil
  | succ count ih =>
    have hwhich : which < c.operands.length := by
      rw [c.arity]
      omega
    have hget := List.getElem?_eq_getElem hwhich
    have hsplit : (c.operands.map CodedOperand.value).drop which =
        (c.operands.get ⟨which, hwhich⟩).value ::
          (c.operands.map CodedOperand.value).drop (which + 1) := by
      rw [List.drop_eq_getElem_cons (by simpa using hwhich)]
      simp
    have hposition : position = (allBytes gap).length := hp.position
    have hread : operand? bytes position which = some (c.operands.get ⟨which, hwhich⟩).value := by
      rw [hposition]
      exact operand?_of_holds (holds_of_parts hp.bytes) hget
    rw [remeasureOperands, hread] at h
    simp only [Error.inBounds, bind, Except.bind] at h
    rw [hsplit]
    split at h
    · rename_i hzero
      obtain ⟨c', distances, hp', hkind, hdelta, hlonger, hvalues, hall⟩ := ih hp (by omega) h
      refine ⟨c', 0 :: distances, hp', hkind, hdelta, hlonger, ?_, .cons (by rw [Remeasures, if_pos hzero]) hall⟩
      rw [hvalues, List.take_add_one, List.getElem?_map, hget, Option.map_some]
      simp only [List.get_eq_getElem] at hzero
      simp [hzero]
    · rename_i hspan
      split at h
      · cases h
      · rename_i distance hdistance
        split at h
        · cases h
        · rename_i bytes₁ hset
          have hsmall : distance < operandLimit := by
            refine Nat.lt_of_not_le fun hlarge => ?_
            rw [NoteBytes.setOperand, if_pos hlarge] at hset
            cases hset
          obtain ⟨bytes₂, hset', hbytes₂⟩ := setOperand_of_parts hp.bytes
            (by omega : which < c.kind.arity) hsmall
          rw [hposition, hset'] at hset
          cases hset
          obtain ⟨c', distances, hp', hkind, hdelta, hlonger, hvalues, hall⟩ :=
            ih (c := c.setOperand which distance hsmall) ⟨hp.fillers, hbytes₂, hposition⟩
              (by simp only [kind_setOperand]; omega) h
          refine ⟨c', distance :: distances, hp', hkind, hdelta,
            Nat.le_trans (c.length_bytes_le_setOperand which distance hsmall) hlonger, ?_, ?_⟩
          · have hlen : which < (c.operands.map CodedOperand.value).length := by simpa using hwhich
            rw [hvalues, values_setOperand, List.take_add_one, List.take_set_of_le
              (Nat.le_refl _), List.getElem?_set_self hlen]
            simp
          · rw [values_setOperand, List.drop_set_of_lt (Nat.lt_succ_self which)] at hall
            exact .cons ((if_neg hspan).mpr hdistance) hall

/-- A note that has been fixed, with the walk behind it. -/
structure FixedNote (tooLarge : Error) (d : Displacement) (walk walk' : NoteWalk) (c : CodedNote)
    (gap : List CodedNote) (c' : CodedNote) : Prop where
  fillers : ∀ f ∈ gap, f.kind = .filler
  kind : c'.kind = c.kind
  longer : c.bytes.length ≤ c'.bytes.length
  growth : CodedNote.extent gap + c'.delta + walk.growth = c.delta + walk'.growth
  absorbed : ∃ piece piece', absorb d { walk with offset := walk.offset + c.delta } piece
    (d.arms.size - walk.passed) = .ok (walk', piece')
  kept : c.kind.spec.measures = none →
    c'.operands.map CodedOperand.value = c.operands.map CodedOperand.value
  measured : ∀ direction, c.kind.spec.measures = some direction →
    List.Forall₂ (Remeasures tooLarge d walk' direction (walk'.offset + c.kind.spec.bias))
      (c.operands.map CodedOperand.value) (c'.operands.map CodedOperand.value)

theorem fixNote_moves (hbytes : bytes.toList = c.bytes ++ post)
    (h : fixNote tooLarge d walk bytes = .ok (walk', piece)) :
    ∃ gap c', piece.Shows gap c' post ∧ FixedNote tooLarge d walk walk' c gap c' := by
  have hshows : NotePiece.Shows ⟨bytes, 0⟩ [] c post := ⟨by simp, by simpa using hbytes, rfl⟩
  obtain ⟨lead, hlead, hL, -⟩ := c.lead_of_holds (holds_header
    (holds_of_parts hshows.bytes))
  rw [allBytes_nil, List.length_nil] at hlead
  simp only [fixNote, hlead, Error.inBounds, bind, Except.bind, hL.delta] at h
  split at h
  · cases h
  · rename_i result habsorb
    obtain ⟨walk₁, piece₁⟩ := result
    obtain ⟨gap, c₁, hp₁, hkind₁, hoperands₁, hextent₁⟩ := absorb_moves hshows habsorb
    have hlength := CodedNote.length_bytes_congr hkind₁ hoperands₁
    simp only [extent_nil, Nat.zero_add] at hextent₁
    have hread : kindAt? piece₁.bytes piece₁.position = some c₁.kind := by
      rw [hp₁.position]
      exact kindAt?_of_holds (holds_of_parts hp₁.bytes)
    simp only [hread, Error.orInconsistent, hkind₁] at h
    cases hmeasures : c.kind.spec.measures with
    | none =>
      simp only [hmeasures, pure, Except.pure, Except.ok.injEq, Prod.mk.injEq] at h
      obtain ⟨rfl, rfl⟩ := h
      exact ⟨gap, c₁, hp₁, hp₁.fillers, hkind₁, Nat.le_of_eq hlength.symm, hextent₁, ⟨_, _, habsorb⟩,
        fun _ => by rw [hoperands₁], by simp [hmeasures]⟩
    | some direction =>
      simp only [hmeasures] at h
      split at h
      · cases h
      · rename_i bytes' hmeasured
        simp only [pure, Except.pure, Except.ok.injEq, Prod.mk.injEq] at h
        obtain ⟨rfl, rfl⟩ := h
        rw [← hkind₁] at hmeasured
        obtain ⟨c', distances, hp', hkind, hdelta, hlonger, hvalues, hall⟩ :=
          remeasureOperands_moves ⟨hp₁.fillers, hp₁.bytes, hp₁.position⟩ (Nat.zero_add _) hmeasured
        refine ⟨gap, c', ⟨hp'.fillers, hp'.bytes, hp'.position⟩, hp'.fillers, hkind.trans hkind₁,
          by omega, by rw [hdelta]; exact hextent₁, ⟨_, _, habsorb⟩, by simp [hmeasures],
          fun direction' hsome => ?_⟩
        obtain rfl : direction = direction' := Option.some.inj (hmeasures.symm.trans hsome)
        rw [hvalues, List.take_zero, List.nil_append, ← hkind₁, ← hoperands₁]
        exact hall

/-- The note goes where the code goes, if the walk stands where the fields say. -/
theorem FixedNote.follows (h : FixedNote tooLarge d walk walk' c gap c') (hd : d.Follows at')
    (hw : walk.Settled d) :
    walk'.offset = walk.offset + c.delta ∧ walk'.Settled d ∧
      at' walk.offset + (extent gap + c'.delta) = at' (walk.offset + c.delta) ∧
      placed (at' walk.offset) (gap ++ [c']) =
        (placed walk.offset [c]).map (PlacedNote.relocate at') := by
  obtain ⟨_, _, habsorb⟩ := h.absorbed
  have hpassing : NoteWalk.Passing { walk with offset := walk.offset + c.delta } d :=
    ⟨hw.le, hw.growth, fun k hk => Nat.lt_of_lt_of_le (hw.before k hk) (Nat.le_add_right _ _)⟩
  obtain ⟨hoffset, hsettled⟩ := absorb_settles hd (by simp only; omega) hpassing habsorb
  simp only at hoffset
  have hat := hw.offset hd
  have hat' := hsettled.offset hd
  rw [hoffset] at hat'
  have hextent : at' walk.offset + (extent gap + c'.delta) =
      at' (walk.offset + c.delta) := by
    have := h.growth
    omega
  refine ⟨hoffset, hsettled, hextent, ?_⟩
  have hvalues : c'.operands.map CodedOperand.value =
      (c.kind.spec.measures.map fun direction => (c.operands.map CodedOperand.value).map
        (direction.remeasure at' (walk.offset + c.delta) c.kind.spec.bias)).getD
          (c.operands.map CodedOperand.value) := by
    cases hmeasures : c.kind.spec.measures with
    | none => exact h.kept hmeasures
    | some direction =>
      refine (List.forall₂_eq_eq_eq ▸ List.forall₂_map_left_iff.mpr
        ((h.measured direction hmeasures).imp fun span distance hspan => ?_)).symm
      by_cases hzero : span = 0
      · rw [Remeasures, if_pos hzero] at hspan
        rw [hspan, Direction.remeasure, if_pos hzero]
      · rw [Remeasures, if_neg hzero] at hspan
        rw [← hoffset]
        exact (remeasure_ok hd hsettled hzero hspan).2.symm
  -- behind the gap only the note itself is placed
  rw [placed_append, placed_fillers h.fillers, List.nil_append]
  simp only [placed, h.kind]
  split
  · rfl
  · simp only [List.map_cons, List.map_nil, PlacedNote.relocate, hvalues, Nat.add_assoc, hextent]

/-- The notes from one on are fixed, with the ones before them done. -/
theorem fixNotesFrom_moves {done : List UInt8}
    (hnotes : notes.toList = done ++ allBytes cs) {fixed fixed' : Bytes}
    (hfuel : cs.length ≤ fuel)
    (h : fixNotesFrom tooLarge d notes walk fixed done.length fuel = .ok (fixed', growth)) :
    ∃ cs', fixed'.toList = fixed.toList ++ allBytes cs' ∧
      extent cs' + walk.growth = extent cs + growth ∧
      cs'.getLast?.map CodedNote.kind = cs.getLast?.map CodedNote.kind ∧
      ∀ at', d.Follows at' → walk.Settled d →
        placed (at' walk.offset) cs' =
            (placed walk.offset cs).map (PlacedNote.relocate at') ∧
          at' walk.offset + extent cs' = at' (walk.offset + extent cs) := by
  induction cs generalizing walk fixed done fuel with
  | nil =>
    have hsize : notes.size ≤ done.length := by
      rw [← Array.length_toList, hnotes]
      simp
    have hdone : fixed = fixed' ∧ walk.growth = growth := by
      cases fuel with
      | zero =>
        cases h
        exact ⟨rfl, rfl⟩
      | succ fuel =>
        rw [fixNotesFrom, if_pos hsize] at h
        cases h
        exact ⟨rfl, rfl⟩
    obtain ⟨rfl, rfl⟩ := hdone
    exact ⟨[], by simp, rfl, rfl, fun _ _ _ => ⟨rfl, rfl⟩⟩
  | cons c cs ih =>
    cases fuel with
    | zero => simp at hfuel
    | succ fuel =>
      have hlen := c.length_bytes_le
      have hsize : notes.size = done.length + (c.bytes.length + (allBytes cs).length) := by
        rw [← Array.length_toList, hnotes]
        simp
      have hpos : 0 < c.bytes.length := List.length_pos_iff.mpr c.bytes_ne_nil
      rw [fixNotesFrom, if_neg (by omega)] at h
      simp only [bind, Except.bind] at h
      split at h
      · cases h
      · rename_i result hfix
        obtain ⟨walk₁, piece⟩ := result
        have hbytes : (notes.extract done.length (done.length + longestNote)).toList =
            c.bytes ++ (allBytes cs).take (longestNote - c.bytes.length) := by
          rw [Array.toList_extract, hnotes, List.extract_eq_take_drop, List.drop_left,
            allBytes_cons, Nat.add_sub_cancel_left, List.take_append,
            List.take_of_length_le hlen]
        obtain ⟨gap, c', hp, hfixed₁⟩ := fixNote_moves hbytes hfix
        obtain ⟨hread, htaken, hstop⟩ := hp.taken hbytes hfixed₁.longer
        simp only [hread, Error.inBounds, htaken] at h
        rw [← List.length_append] at h
        obtain ⟨cs', hfixed, hextent', hlast, hfollows⟩ :=
          ih (by simp [hnotes]) (by simp at hfuel; omega) h
        refine ⟨gap ++ [c'] ++ cs', ?_, ?_, ?_, fun at' hd hw => ?_⟩
        · rw [hfixed, Array.toList_append, hstop]
          simp
        · have := hfixed₁.growth
          simp only [extent_append, extent_cons, extent_nil]
          omega
        · rw [List.append_assoc, List.singleton_append, List.getLast?_append_cons, List.getLast?_cons,
            List.getLast?_cons, Option.map_some, Option.map_some, ← Option.getD_map CodedNote.kind,
            ← Option.getD_map CodedNote.kind, hlast, hfixed₁.kind]
        · obtain ⟨hoffset, hsettled, hextent, hplaced⟩ := hfixed₁.follows hd hw
          obtain ⟨hplaced', hextent'⟩ := hfollows at' hd hsettled
          rw [hoffset] at hextent' hplaced'
          constructor
          · rw [placed_append, hplaced, extent_append]
            simp only [extent_cons, extent_nil, Nat.add_zero]
            rw [hextent, hplaced', ← List.map_append]
            exact congrArg _ (placed_append walk.offset [c] cs).symm
          · simp only [extent_append, extent_cons, extent_nil,
              ← Nat.add_assoc] at hextent hextent' ⊢
            omega

/-- Fixing notes keeps them a run of coded notes, longer by the growth that is answered. The notes
of code that has grown go where the code at them goes. -/
theorem fixNotes_moves (hnotes : Spells notes cs)
    (h : fixNotes tooLarge d notes = .ok (notes', growth)) :
    ∃ cs', Spells notes' cs' ∧ extent cs' = extent cs + growth ∧
      cs'.getLast?.map CodedNote.kind = cs.getLast?.map CodedNote.kind ∧
      ∀ at', d.Follows at' → at' 0 = 0 →
        placed 0 cs' = (placed 0 cs).map (PlacedNote.relocate at') ∧
          extent cs' = at' (extent cs) := by
  have hfuel : cs.length ≤ notes.size := by
    rw [hnotes.size]
    exact length_le_allBytes cs
  have hparts : notes.toList = [] ++ allBytes cs := hnotes
  obtain ⟨cs', hbytes, hextent, hlast, hfollows⟩ := fixNotesFrom_moves hparts hfuel h
  refine ⟨cs', by simpa [Spells] using hbytes, hextent, hlast, fun at' hd hzero => ?_⟩
  have hstart : NoteWalk.Settled ⟨0, 0, 0⟩ d := by
    have := hd.between (x := 0) (Nat.zero_le _) (fun k hk => by omega) fun _ => Nat.zero_le _
    exact ⟨⟨Nat.zero_le _, by simp only; omega, fun k hk => by simp only at hk; omega⟩,
      fun _ => Nat.zero_le _⟩
  simpa only [hzero, Nat.zero_add] using hfollows at' hd hstart

theorem fixNotes_ok (hd : d.Follows at') (hzero : at' 0 = 0) (hnotes : Spells notes cs)
    (h : fixNotes tooLarge d notes = .ok (notes', growth)) :
    ∃ cs', Spells notes' cs' ∧
      placed 0 cs' = (placed 0 cs).map (PlacedNote.relocate at') ∧
      extent cs' = at' (extent cs) ∧
      extent cs + growth = at' (extent cs) := by
  obtain ⟨cs', hspells, hextent, -, hfollows⟩ := fixNotes_moves hnotes h
  obtain ⟨hplaced, hat⟩ := hfollows at' hd hzero
  exact ⟨cs', hspells, hplaced, hat, hextent.symm.trans hat⟩

end Layout

end ScriptCompiler
