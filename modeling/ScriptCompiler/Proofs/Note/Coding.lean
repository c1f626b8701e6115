import ScriptCompiler.Note.Stream
import ScriptCompiler.Proofs.Bytes

/-!
# Notes and their bytes

A `CodedNote` is a note together with what its bytes add to it: which of its
operands take three bytes. Its fields say that it can be written at all, so the
bytes of a coded note always read back as that note. Where the bytes of a coded
note stand in a stream, every operation on the stream is an operation on the
note: setting an operand, adding to the delta, or putting a filler in front.
-/

namespace ScriptCompiler

open Bytes NoteBytes

variable {which delta : Nat} {o : CodedOperand}

/-- An operand as it stands in a stream. -/
@[ext]
structure CodedOperand where
  /-- Its value. -/
  value : Nat
  /-- Whether it takes three bytes. -/
  long : Bool
  /-- The value fits three bytes. -/
  bound : value < operandLimit
  /-- The value of a short operand fits one byte. -/
  short : long = false → value < 128

namespace CodedOperand

/-- The operand of a fresh note. -/
def zero : CodedOperand := ⟨0, false, by decide, by decide⟩

/-- The bytes of an operand. -/
def bytes (o : CodedOperand) : List UInt8 :=
  if o.long then
    [UInt8.ofNat (128 + o.value / 65536), UInt8.ofNat (o.value / 256), UInt8.ofNat o.value]
  else [UInt8.ofNat o.value]

/-- The operand with another value. It takes three bytes if it did before or if the value does not
fit one. -/
def store (o : CodedOperand) (value : Nat) (h : value < operandLimit) : CodedOperand :=
  ⟨value, o.long || decide (127 < value), h, fun hshort => by
    simp only [Bool.or_eq_false_iff, decide_eq_false_iff_not] at hshort
    omega⟩

@[simp] theorem value_zero : zero.value = 0 := rfl

@[simp] theorem bytes_zero : zero.bytes = [0] := rfl

@[simp] theorem value_store (o : CodedOperand) (value : Nat) (h : value < operandLimit) :
    (o.store value h).value = value := rfl

theorem bytes_ne_nil (o : CodedOperand) : o.bytes ≠ [] := by
  rw [bytes]
  split <;> simp

variable {b : Bytes} {pos : Nat}

/-- The first byte of an operand tells how many there are. -/
theorem first_of_holds (o : CodedOperand) (h : Holds b pos o.bytes) :
    ∃ first, b[pos]? = some first ∧ isLong first = o.long ∧ operandLen first = o.bytes.length := by
  have hbound := o.bound
  simp only [operandLimit] at hbound
  cases hlong : o.long with
  | true =>
    simp only [bytes, hlong, if_true, holds_cons] at h
    have hbit : isLong (UInt8.ofNat (128 + o.value / 65536)) := by
      simp [isLong]
      omega
    exact ⟨_, h.1, hbit, by simp only [operandLen, hbit, bytes, hlong, if_true]; rfl⟩
  | false =>
    have hshort := o.short hlong
    simp only [bytes, hlong, Bool.false_eq_true, if_false, holds_cons] at h
    have hbit : isLong (UInt8.ofNat o.value) = false := by
      simp [isLong]
      omega
    exact ⟨_, h.1, hbit, by simp [operandLen, hbit, bytes, hlong]⟩

/-- The bytes of an operand are read back as its value. -/
theorem operandAt?_of_holds (o : CodedOperand) (h : Holds b pos o.bytes) :
    operandAt? b pos = some o.value := by
  obtain ⟨first, hfirst, hbit, -⟩ := o.first_of_holds h
  have hbound := o.bound
  simp only [operandLimit] at hbound
  cases hlong : o.long with
  | true =>
    simp only [bytes, hlong, if_true, holds_cons] at h
    obtain ⟨h0, h1, h2, -⟩ := h
    rw [h0] at hfirst
    cases hfirst
    simp only [operandAt?, h0, h1, h2, hbit, hlong, Option.bind_eq_bind, Option.bind_some, if_true,
      UInt8.toNat_ofNat', Option.pure_def, Option.some.injEq]
    omega
  | false =>
    have hshort := o.short hlong
    simp only [bytes, hlong, Bool.false_eq_true, if_false, holds_cons] at h
    obtain ⟨h0, -⟩ := h
    rw [h0] at hfirst
    cases hfirst
    simp only [operandAt?, h0, hbit, hlong, Option.bind_eq_bind, Option.bind_some,
      Bool.false_eq_true, if_false, UInt8.toNat_ofNat', Option.pure_def, Option.some.injEq]
    omega

/-- The bytes of operands one behind the other. -/
def allBytes (os : List CodedOperand) : List UInt8 := os.flatMap bytes

@[simp] theorem allBytes_nil : allBytes [] = [] := rfl

@[simp] theorem allBytes_cons (o : CodedOperand) (os : List CodedOperand) :
    allBytes (o :: os) = o.bytes ++ allBytes os := rfl

@[simp] theorem allBytes_append (os os' : List CodedOperand) :
    allBytes (os ++ os') = allBytes os ++ allBytes os' := List.flatMap_append

theorem allBytes_replicate_zero (n : Nat) :
    allBytes (List.replicate n zero) = List.replicate n 0 := by
  induction n with
  | zero => rfl
  | succ n ih => simp [List.replicate_succ, ih]

/-- Stepping over operands ends behind their bytes. -/
theorem skipOperands?_of_holds {os : List CodedOperand} (h : Holds b pos (allBytes os)) {n : Nat}
    (hn : n ≤ os.length) :
    skipOperands? b pos n = some (pos + (allBytes (os.take n)).length) := by
  induction os generalizing pos n with
  | nil =>
    obtain rfl : n = 0 := by simpa using hn
    simp [skipOperands?]
  | cons o os ih =>
    cases n with
    | zero => simp [skipOperands?]
    | succ n =>
      rw [allBytes_cons, holds_append] at h
      obtain ⟨first, hfirst, -, hlen⟩ := o.first_of_holds h.1
      simp only [skipOperands?, hfirst, Option.bind_eq_bind, Option.bind_some, hlen]
      rw [ih h.2 (by simpa using hn)]
      simp [Nat.add_assoc]

/-- Operands are read back as their values. -/
theorem readOperands_of_holds {os : List CodedOperand} (h : Holds b pos (allBytes os)) :
    NoteStream.readOperands b pos os.length =
      .ok (os.map value, pos + (allBytes os).length) := by
  induction os generalizing pos with
  | nil => simp [NoteStream.readOperands]
  | cons o os ih =>
    rw [allBytes_cons, holds_append] at h
    obtain ⟨first, hfirst, -, hlen⟩ := o.first_of_holds h.1
    simp only [List.length_cons, NoteStream.readOperands, hfirst, o.operandAt?_of_holds h.1, hlen,
      ih h.2]
    simp [Nat.add_assoc]

end CodedOperand

/-- A note as it stands in a stream. -/
@[ext]
structure CodedNote where
  /-- What the note says. -/
  kind : NoteKind
  /-- The delta its own lead byte carries. -/
  delta : Nat
  /-- Its operands. -/
  operands : List CodedOperand
  /-- A note never looks like the end of the stream. -/
  proper : kind ≠ .null
  /-- The kind fixes the number of operands. -/
  arity : operands.length = kind.arity
  /-- The delta fits the lead byte. -/
  room : delta < if kind = .filler then fillerLimit else deltaLimit

namespace CodedNote

/-- The note as it is read. -/
def toNote (c : CodedNote) : Note := ⟨c.kind, c.delta, c.operands.map CodedOperand.value⟩

/-- The bytes in front of the operands. -/
def header (c : CodedNote) : List UInt8 :=
  if c.kind = .filler then [fillerByte c.delta] else (NoteBytes.header c.kind c.delta).toList

/-- All bytes of a note. -/
def bytes (c : CodedNote) : List UInt8 := c.header ++ CodedOperand.allBytes c.operands

/-- A filler. -/
def filler (delta : Nat) (h : delta < fillerLimit) : CodedNote :=
  ⟨.filler, delta, [], by decide, rfl, by simpa using h⟩

@[simp] theorem bytes_filler (h : delta < fillerLimit) :
    (filler delta h).bytes = [fillerByte delta] := rfl

@[simp] theorem kind_filler (h : delta < fillerLimit) : (filler delta h).kind = .filler := rfl

@[simp] theorem delta_filler (h : delta < fillerLimit) : (filler delta h).delta = delta := rfl

/-- A note that is no filler, with all operands zero. -/
def plain (kind : NoteKind) (delta : Nat) (hproper : kind ≠ .null) (hplain : kind ≠ .filler)
    (h : delta < deltaLimit) : CodedNote :=
  ⟨kind, delta, List.replicate kind.arity .zero, hproper, by simp, by simpa [hplain] using h⟩

/-- The note with another delta. -/
def withDelta (c : CodedNote) (delta : Nat)
    (h : delta < if c.kind = .filler then fillerLimit else deltaLimit) : CodedNote :=
  { c with delta, room := h }

/-- The note with another operand. -/
def setOperand (c : CodedNote) (which value : Nat) (h : value < operandLimit) : CodedNote :=
  { c with
    operands := c.operands.modify which (·.store value h)
    arity := by simp [c.arity] }

section

variable (c : CodedNote) (which value : Nat) (h : value < operandLimit)

@[simp] theorem kind_setOperand : (c.setOperand which value h).kind = c.kind := rfl

@[simp] theorem delta_setOperand : (c.setOperand which value h).delta = c.delta := rfl

@[simp] theorem header_setOperand : (c.setOperand which value h).header = c.header := rfl

theorem values_setOperand :
    (c.setOperand which value h).operands.map CodedOperand.value =
      (c.operands.map CodedOperand.value).set which value := by
  refine List.ext_getElem (by simp [setOperand]) fun i _ _ => ?_
  simp only [setOperand, List.getElem_map, List.getElem_modify, List.getElem_set]
  split <;> rfl

end

theorem header_ne_nil (c : CodedNote) : c.header ≠ [] := by
  rw [header, NoteBytes.header]
  split
  · simp
  · split <;> simp

theorem bytes_ne_nil (c : CodedNote) : c.bytes ≠ [] := by
  simp [bytes, c.header_ne_nil]

variable {b : Bytes} {pos : Nat}

/-- What the lead byte of a note tells. -/
structure Lead (c : CodedNote) (lead : UInt8) : Prop where
  /-- It is not the end of the stream. -/
  ne_zero : lead ≠ 0
  /-- It tells whether the note is a filler. -/
  filler : isFiller lead = decide (c.kind = .filler)
  /-- It carries the delta. -/
  delta : leadDelta lead = c.delta
  /-- It tells how many bytes stand in front of the operands. -/
  header : headerLen lead = c.header.length

/-- Kind numbers fit five bits. -/
theorem number_lt (kind : NoteKind) : kind.number < 24 := by
  cases kind <;> decide

/-- The lead byte of a note is its first byte, and together with the byte behind it tells the
kind. -/
theorem lead_of_holds (c : CodedNote) (h : Holds b pos c.header) :
    ∃ lead, b[pos]? = some lead ∧ c.Lead lead ∧ kindAt? b pos = some c.kind := by
  have hroom := c.room
  by_cases hfiller : c.kind = .filler
  · simp only [header, hfiller, if_true, holds_cons] at h
    simp only [hfiller, if_true, fillerLimit] at hroom
    have hlead : (fillerByte c.delta).toNat = 192 + c.delta := by
      simp only [fillerByte, UInt8.toNat_ofNat']
      omega
    have his : isFiller (fillerByte c.delta) := by
      simp [isFiller, hlead]
    refine ⟨_, h.1, ⟨fun hzero => ?_, by simp [his, hfiller], ?_, ?_⟩, ?_⟩
    · rw [hzero] at hlead
      simp at hlead
      omega
    · simp [leadDelta, his, hlead]
    · simp only [headerLen, leadTag, hlead, escapeTag, header, hfiller, if_true, List.length_singleton]
      rw [if_neg (by omega)]
    · simp [kindAt?, h.1, his, hfiller]
  · simp only [header, hfiller, if_false, NoteBytes.header] at h
    simp only [hfiller, if_false, deltaLimit] at hroom
    have hnumber := number_lt c.kind
    have hzero : c.kind.number ≠ 0 := by
      have hproper := c.proper
      generalize c.kind = kind at hproper
      cases kind <;> first | decide | exact absurd rfl hproper
    -- a lead byte is its tag in front of the delta
    have hlead : ∀ tag ≤ 5, 0 < tag → (leadByte tag c.delta).toNat = 32 * tag + c.delta := by
      intro tag hle _
      simp only [leadByte, UInt8.toNat_ofNat']
      omega
    have hcase : ∀ tag ≤ 5, 0 < tag → headerLen (leadByte tag c.delta) = c.header.length →
        c.Lead (leadByte tag c.delta) := by
      intro tag hle hpos hlen
      have hnat := hlead tag hle hpos
      have his : isFiller (leadByte tag c.delta) = false := by
        simp [isFiller, hnat]
        omega
      refine ⟨fun hz => ?_, by simp [his, hfiller], ?_, hlen⟩
      · rw [hz] at hnat
        simp at hnat
        omega
      · simp only [leadDelta, his, Bool.false_eq_true, if_false, hnat]
        omega
    have htag : ∀ tag ≤ 5, 0 < tag → leadTag (leadByte tag c.delta) = tag := by
      intro tag hle hpos
      simp only [leadTag, hlead tag hle hpos]
      omega
    by_cases hdirect : c.kind.number < escapeTag
    · simp only [hdirect, if_true, holds_cons] at h
      have hle : c.kind.number ≤ 5 := by
        simp only [escapeTag] at hdirect
        omega
      have hpos : 0 < c.kind.number := by omega
      have hL := hcase _ hle hpos (by
        simp [headerLen, htag _ hle hpos, header, NoteBytes.header, hfiller, hdirect,
          Nat.ne_of_lt hdirect])
      refine ⟨_, h.1, hL, ?_⟩
      simp [kindAt?, h.1, hL.filler, hfiller, htag _ hle hpos, Nat.ne_of_lt hdirect]
    · simp only [hdirect, if_false, holds_cons] at h
      have hL := hcase escapeTag (by decide) (by decide) (by
        simp [headerLen, htag escapeTag (by decide) (by decide), header, NoteBytes.header, hfiller,
          hdirect])
      have hbyte : (UInt8.ofNat c.kind.number).toNat = c.kind.number := by
        simp only [UInt8.toNat_ofNat']
        omega
      refine ⟨_, h.1, hL, ?_⟩
      simp [kindAt?, h.1, h.2.1, hL.filler, hfiller, htag escapeTag (by decide) (by decide), hbyte]

theorem holds_header {c : CodedNote} (h : Holds b pos c.bytes) : Holds b pos c.header :=
  (holds_append.mp h).1

theorem holds_operands {c : CodedNote} (h : Holds b pos c.bytes) :
    Holds b (pos + c.header.length) (CodedOperand.allBytes c.operands) :=
  (holds_append.mp h).2

theorem kindAt?_of_holds {c : CodedNote} (h : Holds b pos c.bytes) : kindAt? b pos = some c.kind :=
  (c.lead_of_holds (holds_header h)).choose_spec.2.2

/-- Where an operand starts. -/
theorem operandPos?_of_holds {c : CodedNote} (h : Holds b pos c.bytes)
    (hwhich : which ≤ c.operands.length) : operandPos? b pos which =
      some (pos + c.header.length + (CodedOperand.allBytes (c.operands.take which)).length) := by
  obtain ⟨lead, hlead, hL, -⟩ := c.lead_of_holds (holds_header h)
  simp only [operandPos?, hlead, Option.bind_eq_bind, Option.bind_some, hL.header]
  exact CodedOperand.skipOperands?_of_holds (holds_operands h) hwhich

/-- The length of a note is the number of its bytes. -/
theorem noteLen?_of_holds {c : CodedNote} (h : Holds b pos c.bytes) :
    noteLen? b pos = some c.bytes.length := by
  obtain ⟨lead, hlead, hL, hkind⟩ := c.lead_of_holds (holds_header h)
  simp only [noteLen?, hlead, hkind, Option.bind_eq_bind, Option.bind_some, Option.map_some,
    Option.getD_some, hL.header, ← c.arity,
    CodedOperand.skipOperands?_of_holds (holds_operands h) (Nat.le_refl _), List.take_length,
    Option.pure_def, Option.some.injEq, bytes, List.length_append]
  omega

/-- The bytes of a note read back as the note. -/
theorem readNote_of_holds {c : CodedNote} (h : Holds b pos c.bytes) :
    NoteStream.readNote b pos = .ok (c.toNote, pos + c.bytes.length) := by
  obtain ⟨lead, hlead, hL, hkind⟩ := c.lead_of_holds (holds_header h)
  simp only [NoteStream.readNote, hlead, hL.ne_zero, if_false, hkind, hL.header, ← c.arity,
    CodedOperand.readOperands_of_holds (holds_operands h), hL.delta, bytes, List.length_append,
    toNote, Nat.add_assoc]

/-- The bytes of an operand stand behind those of the operands before it. -/
theorem holds_operand {c : CodedNote} (h : Holds b pos c.bytes) (ho : c.operands[which]? = some o) :
    Holds b (pos + c.header.length + (CodedOperand.allBytes (c.operands.take which)).length)
      o.bytes := by
  have hall := holds_operands h
  obtain ⟨hlt, hget⟩ := List.getElem?_eq_some_iff.mp ho
  rw [← List.take_append_drop which c.operands, CodedOperand.allBytes_append, holds_append,
    List.drop_eq_getElem_cons hlt, hget, CodedOperand.allBytes_cons, holds_append] at hall
  exact hall.2.1

/-- An operand is read back. -/
theorem operand?_of_holds {c : CodedNote} (h : Holds b pos c.bytes)
    (ho : c.operands[which]? = some o) : operand? b pos which = some o.value := by
  have hlt := lt_of_getElem? ho
  simp only [operand?, operandPos?_of_holds h (Nat.le_of_lt hlt), Option.bind_eq_bind,
    Option.bind_some]
  exact o.operandAt?_of_holds (holds_operand h ho)

end CodedNote

/-! ## Changing a stream -/

/-- A byte put in between two parts. -/
theorem toList_insertIdxIfInBounds {b : Bytes} (pre : List UInt8) {post : List UInt8}
    (h : b.toList = pre ++ post) {pos : Nat} (hpos : pos = pre.length) (byte : UInt8) :
    (b.insertIdxIfInBounds pos byte).toList = pre ++ byte :: post := by
  have hsize : pos ≤ b.size := by
    rw [← Array.length_toList, h, hpos]
    simp
  rw [Array.insertIdxIfInBounds, dif_pos hsize, Array.toList_insertIdx, h]
  subst hpos
  clear hsize h
  induction pre with
  | nil => rfl
  | cons first pre ih => simp [ih]

/-- A byte between two parts is replaced. -/
theorem toList_setIfInBounds_middle {b : Bytes} (pre : List UInt8) {post : List UInt8}
    {old : UInt8} (h : b.toList = pre ++ old :: post) {pos : Nat} (hpos : pos = pre.length)
    (byte : UInt8) :
    (b.setIfInBounds pos byte).toList = pre ++ byte :: post := by
  rw [Array.toList_setIfInBounds, h, hpos]
  simp

/-- Three bytes one behind the other are replaced. -/
theorem toList_set_three {b : Bytes} {pre post : List UInt8} {x y z : UInt8}
    (h : b.toList = pre ++ x :: y :: z :: post) (x' y' z' : UInt8) :
    (((b.setIfInBounds pre.length x').setIfInBounds (pre.length + 1) y').setIfInBounds
      (pre.length + 2) z').toList = pre ++ x' :: y' :: z' :: post := by
  simp only [Array.toList_setIfInBounds, h]
  rw [List.set_append_right _ _ (by omega), List.set_append_right _ _ (by omega),
    List.set_append_right _ _ (by omega)]
  simp

/-- Storing a value writes the operand that takes it. -/
theorem CodedOperand.toList_writeOperand {b : Bytes} {pre post : List UInt8}
    (h : b.toList = pre ++ (o.bytes ++ post)) {value : Nat} (hvalue : value < operandLimit) :
    (writeOperand b pre.length value).toList = pre ++ ((o.store value hvalue).bytes ++ post) := by
  have hholds : Holds b pre.length o.bytes := by
    rw [← List.append_assoc] at h
    exact holds_of_toList h
  obtain ⟨first, hfirst, hbit, -⟩ := o.first_of_holds hholds
  have hlongAt : longAt b pre.length = o.long := by simp [longAt, hfirst, hbit]
  cases hlong : o.long with
  | true =>
    simp only [bytes, hlong, if_true, List.cons_append, List.nil_append] at h
    simp only [writeOperand, hlongAt, hlong, Bool.true_eq_false, and_false, if_false, or_true,
      if_true, store, bytes, Bool.true_or, List.cons_append, List.nil_append]
    exact toList_set_three h _ _ _
  | false =>
    simp only [bytes, hlong, Bool.false_eq_true, if_false, List.cons_append, List.nil_append] at h
    by_cases hbig : 127 < value
    · simp only [writeOperand, hlongAt, hlong, hbig, and_self, if_true, true_or, store, bytes,
        decide_true, Bool.or_true, List.cons_append, List.nil_append]
      rw [List.append_cons] at h
      have hone := toList_insertIdxIfInBounds _ h List.length_append.symm 0
      have htwo := toList_insertIdxIfInBounds _ hone List.length_append.symm 0
      rw [← List.append_cons] at htwo
      exact toList_set_three htwo _ _ _
    · simp only [writeOperand, hlongAt, hlong, hbig, false_and, false_or, Bool.false_eq_true,
        if_false, store, bytes, decide_false, Bool.or_false, List.cons_append, List.nil_append]
      exact toList_setIfInBounds_middle pre h rfl _

namespace CodedNote

variable {b : Bytes} {pre post : List UInt8} {c : CodedNote}

variable (h : b.toList = pre ++ (c.bytes ++ post))

include h

theorem holds_of_parts : Holds b pre.length c.bytes := by
  rw [← List.append_assoc] at h
  exact holds_of_toList h

/-- Where the operand of a note is written. -/
theorem writable_of_parts {value : Nat} (hwhich : which < c.kind.arity)
    (hvalue : value < operandLimit) : ∃ place,
      operandPos? b pre.length which = some place ∧ operandComplete b place ∧
      (writeOperand b place value).toList =
        pre ++ ((c.setOperand which value hvalue).bytes ++ post) := by
  have hholds := holds_of_parts h
  have hlt : which < c.operands.length := by rwa [c.arity]
  obtain ⟨o, ho⟩ : ∃ o, c.operands[which]? = some o := ⟨_, List.getElem?_eq_getElem hlt⟩
  have hget : c.operands[which] = o := by
    rw [List.getElem?_eq_getElem hlt] at ho
    exact Option.some.inj ho
  have hplace := holds_operand hholds ho
  refine ⟨_, operandPos?_of_holds hholds (Nat.le_of_lt hlt), ?_, ?_⟩
  · obtain ⟨first, hfirst, hbit, -⟩ := o.first_of_holds hplace
    have hle := hplace.le_size o.bytes_ne_nil
    simp only [operandComplete, hfirst, hbit, Bool.or_eq_true, Bool.not_eq_eq_eq_not, Bool.not_true,
      decide_eq_true_eq]
    cases hlong : o.long with
    | false => exact .inl rfl
    | true =>
      simp only [CodedOperand.bytes, hlong, if_true, List.length_cons, List.length_nil] at hle
      right
      omega
  · -- the operands before and behind the one that is set stay as they are
    have hsplit : c.operands = c.operands.take which ++ o :: c.operands.drop (which + 1) := by
      rw [← hget, ← List.drop_eq_getElem_cons hlt, List.take_append_drop]
    have hparts : b.toList = (pre ++ c.header ++ CodedOperand.allBytes (c.operands.take which)) ++
        (o.bytes ++ (CodedOperand.allBytes (c.operands.drop (which + 1)) ++ post)) := by
      rw [h, bytes]
      conv => lhs; rw [hsplit]
      simp
    have hwritten := CodedOperand.toList_writeOperand hparts hvalue
    have hmodify : (c.setOperand which value hvalue).operands =
        c.operands.take which ++ o.store value hvalue :: c.operands.drop (which + 1) := by
      simp only [setOperand, List.modify_eq_take_cons_drop hlt, hget]
    rw [bytes, hmodify, header_setOperand]
    simpa [Nat.add_assoc] using hwritten

/-- Setting an operand of a note. -/
theorem setOperand_of_parts {value : Nat} (hwhich : which < c.kind.arity)
    (hvalue : value < operandLimit) : ∃ b',
      NoteBytes.setOperand b pre.length which value = .ok b' ∧
      b'.toList = pre ++ ((c.setOperand which value hvalue).bytes ++ post) := by
  obtain ⟨place, hplace, hcomplete, hwritten⟩ := writable_of_parts h hwhich hvalue
  refine ⟨_, ?_, hwritten⟩
  simp [NoteBytes.setOperand, Nat.not_le.mpr hvalue, hplace, Error.inBounds, hcomplete, bind,
    Except.bind, pure, Except.pure]

/-- Adding to the delta of a note either changes the note or puts a filler in front of it. -/
theorem addToDelta_of_parts (hdelta : delta < fillerLimit) :
    ∃ b' pos,
      NoteBytes.addToDelta b pre.length delta = .ok (b', pos) ∧
      ((∃ hroom, pos = pre.length ∧
          b'.toList = pre ++ ((c.withDelta (c.delta + delta) hroom).bytes ++ post)) ∨
        (pos = pre.length + 1 ∧
          b'.toList = pre ++ ((filler delta hdelta).bytes ++ (c.bytes ++ post)))) := by
  obtain ⟨lead, hlead, hL, -⟩ := c.lead_of_holds (holds_header (holds_of_parts h))
  have hlimit : (if isFiller lead = true then fillerLimit else deltaLimit) =
      if c.kind = .filler then fillerLimit else deltaLimit := by
    simp [hL.filler]
  by_cases hroom : c.delta + delta < if c.kind = .filler then fillerLimit else deltaLimit
  · refine ⟨b.setIfInBounds pre.length (NoteBytes.withDelta lead (c.delta + delta)), pre.length, ?_,
      .inl ⟨hroom, rfl, ?_⟩⟩
    · simp only [NoteBytes.addToDelta, hlead, Error.inBounds, bind, Except.bind, hL.delta, hlimit,
        hroom, if_true]
      rfl
    · -- only the lead byte changes
      obtain ⟨rest, hrest⟩ : ∃ rest, c.header = lead :: rest := by
        cases hheader : c.header with
        | nil => exact absurd hheader c.header_ne_nil
        | cons first rest =>
          have hholds := holds_header (holds_of_parts h)
          rw [hheader, holds_cons, hlead] at hholds
          cases hholds.1
          exact ⟨rest, rfl⟩
      have hnew : (c.withDelta (c.delta + delta) hroom).header =
          NoteBytes.withDelta lead (c.delta + delta) :: rest := by
        have hfill := hL.filler
        simp only [header, CodedNote.withDelta] at hrest ⊢
        by_cases hfiller : c.kind = .filler
        · simp only [hfiller, decide_true] at hfill
          simp only [hfiller, if_true, List.cons.injEq] at hrest
          simp [hfiller, NoteBytes.withDelta, hfill, ← hrest.2]
        · have hold := c.room
          simp only [hfiller, decide_false] at hfill
          simp only [hfiller, if_false, deltaLimit] at hrest hold hroom
          simp only [hfiller, if_false, NoteBytes.withDelta, hfill, Bool.false_eq_true]
          have hnumber := number_lt c.kind
          have hbyte : ∀ tag ≤ 5, lead = leadByte tag c.delta →
              UInt8.ofNat (lead.toNat - lead.toNat % 32 + (c.delta + delta)) =
                leadByte tag (c.delta + delta) := by
            intro tag htag heq
            have hnat : lead.toNat = 32 * tag + c.delta := by
              rw [heq]
              simp only [leadByte, UInt8.toNat_ofNat']
              omega
            rw [leadByte, hnat]
            congr 1
            omega
          simp only [NoteBytes.header] at hrest ⊢
          split at hrest <;> rename_i hdirect
          · simp only [List.cons.injEq] at hrest
            have hle : c.kind.number ≤ 5 := Nat.le_of_lt hdirect
            rw [if_pos hdirect, hbyte c.kind.number hle hrest.1.symm, ← hrest.2]
          · simp only [List.cons.injEq] at hrest
            rw [if_neg hdirect, hbyte escapeTag (by decide) hrest.1.symm, ← hrest.2]
      have hparts : b.toList =
          pre ++ lead :: (rest ++ CodedOperand.allBytes c.operands ++ post) := by
        rw [h, bytes, hrest]
        simp
      have hset := toList_setIfInBounds_middle pre hparts rfl
        (NoteBytes.withDelta lead (c.delta + delta))
      rw [hset, bytes, hnew]
      simp [CodedNote.withDelta]
  · refine ⟨b.insertIdxIfInBounds pre.length (fillerByte delta), pre.length + 1, ?_,
      .inr ⟨rfl, ?_⟩⟩
    · simp only [NoteBytes.addToDelta, hlead, Error.inBounds, bind, Except.bind, hL.delta, hlimit,
        hroom, if_false, Nat.not_le.mpr hdelta]
      rfl
    · exact toList_insertIdxIfInBounds pre h rfl _

end CodedNote

end ScriptCompiler
