import ScriptCompiler.Proofs.Note.Coding

/-!
# The note buffer as a list of notes

A buffer that is grown and changed note by note is at all times a run of coded
notes, so it stands for a list of notes with absolute offsets: a filler only
adds to the offset of the note behind it. Appending adds a note to that list,
setting an operand changes one operand of one note, and adding to a delta moves
a note with all notes behind it. A terminated buffer reads back as its notes,
up to the terminator and no further.
-/

namespace ScriptCompiler

open Bytes NoteBytes

variable {pos position j delta offset fuel which value : Nat} {note : PlacedNote} {kind : NoteKind}

/-- A note with the offset it annotates. -/
@[ext]
structure PlacedNote where
  /-- What the note says. -/
  kind : NoteKind
  /-- The annotated offset. -/
  offset : Nat
  /-- Operands, as many as the kind asks for. -/
  operands : List Nat
  deriving DecidableEq, Repr

/-- The note at an offset further on. -/
def PlacedNote.shift (distance : Nat) (n : PlacedNote) : PlacedNote :=
  { n with offset := n.offset + distance }

namespace NoteBytes

/-- The notes from `pos` on with the positions of their lead bytes, fillers included. Every note
takes at least one byte, so `fuel` is the number of bytes left. -/
def leadsFrom (b : Bytes) (pos : Nat) : Nat → List (Nat × Note)
  | 0 => []
  | fuel + 1 =>
    match NoteStream.readNote b pos with
    | .ok (note, next) => (pos, note) :: leadsFrom b next fuel
    | .error _ => []

/-- The notes of a buffer with the positions of their lead bytes, fillers included. -/
def leads (b : Bytes) : List (Nat × Note) := leadsFrom b 0 b.size

/-- Fold fillers into the offsets of the notes behind them. -/
def foldFillers (offset : Nat) : List (Nat × Note) → List (Nat × PlacedNote)
  | [] => []
  | (pos, note) :: rest =>
    if note.kind = .filler then foldFillers (offset + note.delta) rest
    else (pos, ⟨note.kind, offset + note.delta, note.operands⟩) ::
      foldFillers (offset + note.delta) rest

/-- The notes of a buffer with their absolute offsets, each with the position of its lead byte. -/
def entries (b : Bytes) : List (Nat × PlacedNote) := foldFillers 0 (leads b)

/-- The notes a buffer stands for. -/
def noteList (b : Bytes) : List PlacedNote := (entries b).map Prod.snd

/-- The offset annotated last, zero if there is none. -/
def lastOffset (notes : List PlacedNote) : Nat := (notes.getLast?.map PlacedNote.offset).getD 0

end NoteBytes

/-! ## Runs of coded notes -/

namespace CodedNote

/-- The bytes of notes one behind the other. -/
def allBytes (cs : List CodedNote) : List UInt8 := cs.flatMap bytes

@[simp] theorem allBytes_nil : allBytes [] = [] := rfl

@[simp] theorem allBytes_cons (c : CodedNote) (cs : List CodedNote) :
    allBytes (c :: cs) = c.bytes ++ allBytes cs := rfl

@[simp] theorem allBytes_append (cs cs' : List CodedNote) :
    allBytes (cs ++ cs') = allBytes cs ++ allBytes cs' := List.flatMap_append

/-- Every note takes at least one byte. -/
theorem length_le_allBytes (cs : List CodedNote) : cs.length ≤ (allBytes cs).length := by
  induction cs with
  | nil => simp
  | cons c cs ih =>
    have := List.length_pos_of_ne_nil c.bytes_ne_nil
    simp only [List.length_cons, allBytes_cons, List.length_append]
    omega

/-- The notes of a run, with positions. -/
def leads (pos : Nat) : List CodedNote → List (Nat × Note)
  | [] => []
  | c :: cs => (pos, c.toNote) :: leads (pos + c.bytes.length) cs

/-- The sum of the deltas of a run. -/
def extent : List CodedNote → Nat
  | [] => 0
  | c :: cs => c.delta + extent cs

@[simp] theorem extent_nil : extent [] = 0 := rfl

@[simp] theorem extent_cons (c : CodedNote) (cs : List CodedNote) :
    extent (c :: cs) = c.delta + extent cs := rfl

@[simp] theorem extent_append (cs cs' : List CodedNote) :
    extent (cs ++ cs') = extent cs + extent cs' := by
  induction cs with
  | nil => simp
  | cons c cs ih => simp [ih, Nat.add_assoc]

/-- The notes a run stands for, from an offset on. -/
def placed (offset : Nat) : List CodedNote → List PlacedNote
  | [] => []
  | c :: cs =>
    if c.kind = .filler then placed (offset + c.delta) cs
    else ⟨c.kind, offset + c.delta, c.operands.map CodedOperand.value⟩ ::
      placed (offset + c.delta) cs

/-- The positions of the notes of a run that are no fillers. -/
def positions (pos : Nat) : List CodedNote → List Nat
  | [] => []
  | c :: cs =>
    if c.kind = .filler then positions (pos + c.bytes.length) cs
    else pos :: positions (pos + c.bytes.length) cs

theorem placed_append (offset : Nat) (cs cs' : List CodedNote) :
    placed offset (cs ++ cs') = placed offset cs ++ placed (offset + extent cs) cs' := by
  induction cs generalizing offset with
  | nil => simp [placed]
  | cons c cs ih =>
    simp only [List.cons_append, placed, ih, extent_cons, Nat.add_assoc]
    split <;> simp

theorem positions_append (pos : Nat) (cs cs' : List CodedNote) :
    positions pos (cs ++ cs') = positions pos cs ++ positions (pos + (allBytes cs).length) cs' := by
  induction cs generalizing pos with
  | nil => simp [positions]
  | cons c cs ih =>
    simp only [List.cons_append, positions, ih, allBytes_cons, List.length_append, Nat.add_assoc]
    split <;> simp

@[simp] theorem length_positions (pos offset : Nat) (cs : List CodedNote) :
    (positions pos cs).length = (placed offset cs).length := by
  induction cs generalizing pos offset with
  | nil => rfl
  | cons c cs ih =>
    simp only [positions, placed]
    split
    · exact ih _ _
    · simp only [List.length_cons, Nat.add_right_cancel_iff]
      exact ih _ _

/-- Fillers alone stand for no notes. -/
theorem placed_fillers {cs : List CodedNote} (h : ∀ c ∈ cs, c.kind = .filler) :
    placed offset cs = [] := by
  induction cs generalizing offset with
  | nil => rfl
  | cons c cs ih =>
    simp only [placed, h c (by simp), if_true]
    exact ih fun c hc => h c (by simp [hc])

theorem positions_fillers {cs : List CodedNote} (h : ∀ c ∈ cs, c.kind = .filler) :
    positions pos cs = [] :=
  List.eq_nil_of_length_eq_zero (by rw [length_positions pos 0, placed_fillers h, List.length_nil])

/-- A run further on stands for the same notes further on. -/
theorem placed_shift (offset distance : Nat) (cs : List CodedNote) :
    placed (offset + distance) cs = (placed offset cs).map (PlacedNote.shift distance) := by
  induction cs generalizing offset with
  | nil => rfl
  | cons c cs ih =>
    simp only [placed, Nat.add_right_comm offset distance c.delta, ih]
    split <;> rfl

/-- A run without a filler at its end reaches as far as its last note. -/
theorem lastOffset_placed {cs : List CodedNote} (h : ∀ c ∈ cs.getLast?, c.kind ≠ .filler)
    (hne : cs ≠ []) : lastOffset (placed offset cs) = offset + extent cs := by
  obtain ⟨front, c, rfl⟩ := List.eq_nil_or_concat cs |>.resolve_left hne
  have hc : c.kind ≠ .filler := h c (by simp)
  simp [placed_append, placed, hc, lastOffset, Nat.add_assoc]

theorem foldFillers_leads (offset pos : Nat) (cs : List CodedNote) :
    foldFillers offset (leads pos cs) = (positions pos cs).zip (placed offset cs) := by
  induction cs generalizing offset pos with
  | nil => rfl
  | cons c cs ih =>
    simp only [leads, foldFillers, positions, placed, toNote, ih]
    split <;> simp

end CodedNote

namespace NoteBytes

/-- A buffer is a run of coded notes. -/
def Spells (b : Bytes) (cs : List CodedNote) : Prop := b.toList = CodedNote.allBytes cs

variable {b b' : Bytes} {cs : List CodedNote}

theorem Spells.size (h : Spells b cs) : b.size = (CodedNote.allBytes cs).length := by
  rw [← Array.length_toList, h]

theorem Spells.eq_nil_iff (h : Spells b cs) : cs = [] ↔ b.size = 0 := by
  rw [h.size]
  constructor
  · rintro rfl
    rfl
  · have hle := CodedNote.length_le_allBytes cs
    exact fun hsize => List.eq_nil_of_length_eq_zero (by omega)

/-- A stream that starts with a run of coded notes is read note by note. -/
theorem leadsFrom_of_holds (h : Holds b pos (CodedNote.allBytes cs)) (hfuel : cs.length ≤ fuel) :
    leadsFrom b pos fuel =
      CodedNote.leads pos cs ++
        leadsFrom b (pos + (CodedNote.allBytes cs).length) (fuel - cs.length) := by
  induction cs generalizing pos fuel with
  | nil => simp [CodedNote.leads]
  | cons c cs ih =>
    obtain ⟨fuel, rfl⟩ : ∃ n, fuel = n + 1 := ⟨fuel - 1, by simp at hfuel; omega⟩
    rw [CodedNote.allBytes_cons, holds_append] at h
    simp only [leadsFrom, CodedNote.readNote_of_holds h.1, CodedNote.leads, List.cons_append]
    rw [ih h.2 (by simpa using hfuel)]
    simp [Nat.add_assoc]

theorem Spells.holds (h : Spells b cs) : Holds b 0 (CodedNote.allBytes cs) :=
  @holds_of_toList b _ [] [] (by simpa [Spells] using h)

/-- The bytes of a buffer stand at the front of whatever is appended to it. -/
theorem Spells.holds_append (h : Spells b cs) (more : Bytes) :
    Holds (b ++ more) 0 (CodedNote.allBytes cs) :=
  @holds_of_toList _ _ [] more.toList (by
    rw [Array.toList_append, h]
    simp)

theorem Spells.leads (h : Spells b cs) : leads b = CodedNote.leads 0 cs := by
  have hend : NoteStream.readNote b b.size = .error .unreadable := by
    simp [NoteStream.readNote]
  have hle := CodedNote.length_le_allBytes cs
  have hrun : leadsFrom b 0 b.size = CodedNote.leads 0 cs ++
      leadsFrom b (0 + (CodedNote.allBytes cs).length) (b.size - cs.length) :=
    leadsFrom_of_holds h.holds (by rw [h.size]; exact hle)
  rw [NoteBytes.leads, hrun, Nat.zero_add, ← h.size]
  cases b.size - cs.length with
  | zero => simp [leadsFrom]
  | succ fuel => simp [leadsFrom, hend]

theorem Spells.entries (h : Spells b cs) :
    entries b = (CodedNote.positions 0 cs).zip (CodedNote.placed 0 cs) := by
  rw [NoteBytes.entries, h.leads, CodedNote.foldFillers_leads]

theorem Spells.noteList (h : Spells b cs) : noteList b = CodedNote.placed 0 cs := by
  rw [NoteBytes.noteList, h.entries, List.map_snd_zip]
  exact Nat.le_of_eq (CodedNote.length_positions 0 0 cs).symm

theorem Spells.positions (h : Spells b cs) :
    (NoteBytes.entries b).map Prod.fst = CodedNote.positions 0 cs := by
  rw [h.entries, List.map_fst_zip]
  exact Nat.le_of_eq (CodedNote.length_positions 0 0 cs)

/-- Reading a stream gives its notes without their positions. -/
theorem readFrom_of_holds {read : List Note} (h : Holds b pos (CodedNote.allBytes cs))
    (hfuel : cs.length ≤ fuel) :
    NoteStream.readFrom b read pos fuel = NoteStream.readFrom b
      ((cs.map CodedNote.toNote).reverse ++ read) (pos + (CodedNote.allBytes cs).length)
      (fuel - cs.length) := by
  induction cs generalizing pos fuel read with
  | nil => simp
  | cons c cs ih =>
    obtain ⟨fuel, rfl⟩ : ∃ n, fuel = n + 1 := ⟨fuel - 1, by simp at hfuel; omega⟩
    rw [CodedNote.allBytes_cons, Bytes.holds_append] at h
    simp only [NoteStream.readFrom, CodedNote.readNote_of_holds h.1]
    rw [ih h.2 (by simpa using hfuel)]
    simp [Nat.add_assoc]

/-- A terminated run reads back as its notes, up to the terminator. -/
theorem Spells.read_push_zero (h : Spells b cs) :
    NoteStream.read (b.push 0) = ⟨cs.map CodedNote.toNote, b.size, .terminator⟩ := by
  have hle := CodedNote.length_le_allBytes cs
  have hholds : Holds (b.push 0) 0 (CodedNote.allBytes cs) := by
    rw [Array.push_eq_append]
    exact h.holds_append _
  have hend : NoteStream.readNote (b.push 0) b.size = .error .terminator := by
    simp [NoteStream.readNote]
  rw [NoteStream.read, readFrom_of_holds hholds (by rw [Array.size_push, h.size]; omega),
    Nat.zero_add, ← h.size]
  obtain ⟨fuel, hfuel⟩ : ∃ n, (b.push 0).size - cs.length = n + 1 :=
    ⟨b.size - cs.length, by rw [Array.size_push, h.size]; omega⟩
  rw [hfuel]
  simp [NoteStream.readFrom, hend]

theorem map_snd_leads (pos : Nat) (cs : List CodedNote) :
    (CodedNote.leads pos cs).map Prod.snd = cs.map CodedNote.toNote := by
  induction cs generalizing pos with
  | nil => rfl
  | cons c cs ih => simp [CodedNote.leads, ih]

/-- A lead position cuts a run in two. -/
theorem split_of_mem_leads {note : Note} (h : (position, note) ∈ CodedNote.leads pos cs) :
    ∃ front c back,
      cs = front ++ c :: back ∧ position = pos + (CodedNote.allBytes front).length ∧
      note = c.toNote := by
  induction cs generalizing pos with
  | nil => simp [CodedNote.leads] at h
  | cons c cs ih =>
    simp only [CodedNote.leads, List.mem_cons] at h
    rcases h with h | h
    · cases h
      exact ⟨[], c, cs, rfl, by simp, rfl⟩
    · obtain ⟨front, c', back, rfl, rfl, rfl⟩ := ih h
      exact ⟨c :: front, c', back, rfl, by simp [Nat.add_assoc], rfl⟩

/-- The entry of a run at an index cuts it in two at a note that is no filler. -/
theorem Spells.split_of_entry (h : Spells b cs)
    (hj : (NoteBytes.entries b)[j]? = some (position, note)) : ∃ front c back,
      cs = front ++ c :: back ∧ position = (CodedNote.allBytes front).length ∧
      c.kind ≠ .filler ∧ j = (CodedNote.placed 0 front).length ∧
      note = ⟨c.kind, CodedNote.extent front + c.delta, c.operands.map CodedOperand.value⟩ := by
  rw [h.entries] at hj
  have hgeneral : ∀ (pos offset j : Nat) (cs : List CodedNote),
      ((CodedNote.positions pos cs).zip (CodedNote.placed offset cs))[j]? = some (position, note) →
      ∃ front c back, cs = front ++ c :: back ∧
        position = pos + (CodedNote.allBytes front).length ∧ c.kind ≠ .filler ∧
        j = (CodedNote.placed offset front).length ∧ note =
          ⟨c.kind, offset + CodedNote.extent front + c.delta,
            c.operands.map CodedOperand.value⟩ := by
    intro pos offset j cs hj
    induction cs generalizing pos offset j with
    | nil => simp [CodedNote.positions] at hj
    | cons c cs ih =>
      simp only [CodedNote.positions, CodedNote.placed] at hj
      by_cases hc : c.kind = .filler
      · simp only [hc, if_true] at hj
        obtain ⟨front, c', back, rfl, rfl, hc', rfl, rfl⟩ := ih _ _ _ hj
        exact ⟨c :: front, c', back, rfl, by simp [Nat.add_assoc], hc',
          by simp [CodedNote.placed, hc], by simp [Nat.add_assoc]⟩
      · simp only [hc, if_false, List.zip_cons_cons] at hj
        cases j with
        | zero =>
          simp only [List.getElem?_cons_zero, Option.some.injEq, Prod.mk.injEq] at hj
          obtain ⟨rfl, rfl⟩ := hj
          exact ⟨[], c, cs, rfl, by simp, hc, rfl, by simp⟩
        | succ j =>
          obtain ⟨front, c', back, rfl, rfl, hc', rfl, rfl⟩ := ih _ _ _ (by simpa using hj)
          exact ⟨c :: front, c', back, rfl, by simp [Nat.add_assoc], hc',
            by simp [CodedNote.placed, hc], by simp [Nat.add_assoc]⟩
  simpa using hgeneral 0 0 j cs hj

/-! ## The operations on runs -/

theorem mod_lt_fillerLimit (delta : Nat) : delta % 63 < fillerLimit :=
  Nat.lt_trans (Nat.mod_lt delta (by decide)) (by decide)

/-- A filler with the largest delta it is written with. -/
def fullFiller : CodedNote := .filler 63 (Nat.le_refl 64)

/-- The fillers in front of a note at a distance. -/
def fillerRun (delta : Nat) : List CodedNote :=
  List.replicate (delta / 63) fullFiller ++
    if deltaLimit ≤ delta % 63 then [.filler (delta % 63) (mod_lt_fillerLimit delta)] else []

theorem ownDelta_lt (delta : Nat) : ownDelta delta < deltaLimit := by
  rw [ownDelta]
  split
  · decide
  · omega

theorem allBytes_fillerRun (delta : Nat) :
    CodedNote.allBytes (fillerRun delta) = (fillersFor delta).toList := by
  have hfull : ∀ n, CodedNote.allBytes (List.replicate n fullFiller) =
      List.replicate n (fillerByte 63) := by
    intro n
    induction n with
    | zero => rfl
    | succ n ih =>
      rw [List.replicate_succ, CodedNote.allBytes_cons, ih]
      rfl
  rw [fillerRun, fillersFor, CodedNote.allBytes_append, hfull]
  split <;> simp

theorem extent_fillerRun (delta : Nat) :
    CodedNote.extent (fillerRun delta) + ownDelta delta = delta := by
  have hfull : ∀ n, CodedNote.extent (List.replicate n fullFiller) = 63 * n := by
    intro n
    induction n with
    | zero => rfl
    | succ n ih =>
      rw [List.replicate_succ, CodedNote.extent_cons, ih]
      exact (Nat.add_comm _ _).trans (Nat.mul_succ 63 n).symm
  rw [fillerRun, CodedNote.extent_append, hfull, ownDelta]
  split <;> simp <;> omega

theorem kind_of_mem_fillerRun {c : CodedNote} (hc : c ∈ fillerRun delta) : c.kind = .filler := by
  simp only [fillerRun, List.mem_append, List.mem_replicate] at hc
  rcases hc with ⟨-, rfl⟩ | hc
  · rfl
  · split at hc
    · obtain rfl := List.mem_singleton.mp hc
      rfl
    · simp at hc

/-- The run of a fresh note. -/
def freshRun (kind : NoteKind) (delta : Nat) (hproper : kind ≠ .null) (hplain : kind ≠ .filler) :
    List CodedNote :=
  fillerRun delta ++ [.plain kind (ownDelta delta) hproper hplain (ownDelta_lt delta)]

theorem allBytes_freshRun (kind : NoteKind) (delta : Nat) (hproper : kind ≠ .null)
    (hplain : kind ≠ .filler) :
    CodedNote.allBytes (freshRun kind delta hproper hplain) = (fresh kind delta).toList := by
  simp [freshRun, fresh, allBytes_fillerRun, CodedNote.bytes, CodedNote.header, CodedNote.plain,
    hplain, CodedOperand.allBytes_replicate_zero]

/-- Appending a note appends its run. -/
theorem Spells.append (h : Spells b cs) (delta : Nat) (hproper : kind ≠ .null)
    (hplain : kind ≠ .filler) :
    Spells (append b kind delta) (cs ++ freshRun kind delta hproper hplain) := by
  rw [Spells, NoteBytes.append, Array.toList_append, h, CodedNote.allBytes_append,
    allBytes_freshRun]

variable {front back : List CodedNote} {c : CodedNote}

theorem Spells.parts (h : Spells b (front ++ c :: back)) :
    b.toList = CodedNote.allBytes front ++ (c.bytes ++ CodedNote.allBytes back) := by
  rw [h]
  simp

/-- Setting an operand changes one note of the run. -/
theorem Spells.setOperand (h : Spells b (front ++ c :: back)) (hwhich : which < c.kind.arity)
    (hvalue : value < operandLimit) : ∃ b',
      setOperand b (CodedNote.allBytes front).length which value = .ok b' ∧
      Spells b' (front ++ c.setOperand which value hvalue :: back) := by
  obtain ⟨b', hok, hparts⟩ := CodedNote.setOperand_of_parts h.parts hwhich hvalue
  exact ⟨b', hok, by rw [Spells, hparts]; simp⟩

/-- Adding to a delta changes one note of the run or puts a filler in front of it. -/
theorem Spells.addToDelta (h : Spells b (front ++ c :: back)) (hdelta : delta < fillerLimit) :
    ∃ b' pos c' gap,
      addToDelta b (CodedNote.allBytes front).length delta = .ok (b', pos) ∧
      pos = (CodedNote.allBytes (front ++ gap)).length ∧
      Spells b' (front ++ gap ++ c' :: back) ∧ (∀ f ∈ gap, f.kind = .filler) ∧
      c'.kind = c.kind ∧ c'.operands = c.operands ∧
      CodedNote.extent gap + c'.delta = c.delta + delta := by
  obtain ⟨b', pos, hok, ⟨hroom, rfl, hparts⟩ | ⟨rfl, hparts⟩⟩ :=
    CodedNote.addToDelta_of_parts h.parts hdelta
  · refine ⟨b', _, c.withDelta (c.delta + delta) hroom, [], hok, by simp, ?_, by simp, rfl, rfl,
      by simp [CodedNote.withDelta]⟩
    rw [Spells, hparts]
    simp
  · refine ⟨b', _, c, [.filler delta hdelta], hok, by simp, ?_, by simp, rfl, rfl,
      by simp [Nat.add_comm]⟩
    rw [Spells, hparts]
    simp

end NoteBytes

/-! ## Edited buffers -/

/-- An operation on a note buffer. -/
inductive NoteEdit where
  /-- Append a note at a distance from the one before it. -/
  | append (kind : NoteKind) (delta : Nat)
  /-- Set an operand of the note at a position. -/
  | setOperand (position which value : Nat)
  /-- Add to the delta of the note or filler at a position. -/
  | addToDelta (position delta : Nat)

namespace NoteEdit

/-- The buffer after an operation. -/
def run (b : Bytes) : NoteEdit → Except Error Bytes
  | append kind delta => .ok (NoteBytes.append b kind delta)
  | setOperand position which value => NoteBytes.setOperand b position which value
  | addToDelta position delta => (NoteBytes.addToDelta b position delta).map Prod.fst

/-- Whether an operation is one on notes of the buffer, with values that can be written. -/
def Allowed (b : Bytes) : NoteEdit → Prop
  | append kind _ => kind ≠ .null ∧ kind ≠ .filler
  | setOperand position which value =>
    (∃ note, (position, note) ∈ leads b ∧ which < note.kind.arity) ∧ value < operandLimit
  | addToDelta position delta => (∃ note, (position, note) ∈ leads b) ∧ delta < fillerLimit

end NoteEdit

/-- The buffers that operations on notes lead to from the empty one. -/
inductive EditedNotes : Bytes → Prop where
  | empty : EditedNotes #[]
  | edit {b b' : Bytes} (e : NoteEdit) : EditedNotes b → e.Allowed b → e.run b = .ok b' →
      EditedNotes b'

/-- Operations on notes keep a buffer a run of coded notes that does not end in a filler. -/
theorem EditedNotes.spells {b : Bytes} (h : EditedNotes b) :
    ∃ cs, Spells b cs ∧ ∀ c ∈ cs.getLast?, c.kind ≠ .filler := by
  induction h with
  | empty => exact ⟨[], rfl, by simp⟩
  | @edit b b' e _ hallowed hrun ih =>
    obtain ⟨cs, hcs, hlast⟩ := ih
    cases e with
    | append kind delta =>
      cases hrun
      refine ⟨_, hcs.append delta hallowed.1 hallowed.2, fun c hc => ?_⟩
      simp only [freshRun, ← List.append_assoc, List.getLast?_concat, Option.mem_def,
        Option.some.injEq] at hc
      subst hc
      exact hallowed.2
    | setOperand position which value =>
      obtain ⟨⟨note, hmem, hwhich⟩, hvalue⟩ := hallowed
      rw [hcs.leads] at hmem
      obtain ⟨front, c, back, rfl, rfl, rfl⟩ := split_of_mem_leads hmem
      obtain ⟨b₁, hok, hspells⟩ := hcs.setOperand hwhich hvalue
      rw [NoteEdit.run, Nat.zero_add, hok] at hrun
      cases hrun
      refine ⟨_, hspells, fun d hd => ?_⟩
      rw [List.getLast?_append_cons] at hlast hd
      cases back with
      | nil =>
        obtain rfl : c.setOperand which value hvalue = d := by simpa using hd
        exact hlast c (by simp)
      | cons first back => exact hlast d (by simpa using hd)
    | addToDelta position delta =>
      obtain ⟨⟨note, hmem⟩, hdelta⟩ := hallowed
      rw [hcs.leads] at hmem
      obtain ⟨front, c, back, rfl, rfl, rfl⟩ := split_of_mem_leads hmem
      obtain ⟨b₁, pos, c', gap, hok, -, hspells, -, hkind, -, -⟩ := hcs.addToDelta hdelta
      rw [NoteEdit.run, Nat.zero_add, hok] at hrun
      cases hrun
      refine ⟨_, hspells, fun d hd => ?_⟩
      rw [List.getLast?_append_cons] at hlast hd
      cases back with
      | nil =>
        obtain rfl : c' = d := by simpa using hd
        rw [hkind]
        exact hlast c (by simp)
      | cons first back => exact hlast d (by simpa using hd)

/-- What the operations do to the list of notes a buffer stands for. -/
structure NoteBuffer (b : Bytes) : Prop where
  /-- Followed by a zero byte the buffer reads back as its notes with the fillers among them, and
  reading stops at the zero byte. -/
  read : NoteStream.read (b.push 0) = ⟨(leads b).map Prod.snd, b.size, .terminator⟩
  /-- A note is appended behind the notes that are there, which stay where they are. -/
  append : ∀ (kind : NoteKind) (delta : Nat), kind ≠ .null → kind ≠ .filler →
    entries (NoteBytes.append b kind delta) = entries b ++ [(appendPos b delta,
      ⟨kind, lastOffset (noteList b) + delta, List.replicate kind.arity 0⟩)]
  /-- One operand of one note is set. -/
  setOperand : ∀ (j position : Nat) (note : PlacedNote) (which value : Nat),
    (entries b)[j]? = some (position, note) → which < note.kind.arity → value < operandLimit →
    ∃ b', NoteBytes.setOperand b position which value = .ok b' ∧
      noteList b' =
        (noteList b).set j { note with operands := note.operands.set which value } ∧
      ((entries b').map Prod.fst)[j]? = some position
  /-- A note and all notes behind it move. -/
  addToDelta : ∀ (j position : Nat) (note : PlacedNote) (delta : Nat),
    (entries b)[j]? = some (position, note) → delta < fillerLimit →
    ∃ b' position', NoteBytes.addToDelta b position delta = .ok (b', position') ∧
      noteList b' =
        (noteList b).take j ++ ((noteList b).drop j).map (PlacedNote.shift delta) ∧
      ((entries b').map Prod.fst)[j]? = some position'

namespace NoteBytes.Spells

variable {b : Bytes} {cs : List CodedNote}

/-- The entries after a note has been appended. -/
theorem entries_append (h : Spells b cs) (hlast : ∀ c ∈ cs.getLast?, c.kind ≠ .filler) (delta : Nat)
    (hproper : kind ≠ .null) (hplain : kind ≠ .filler) :
    NoteBytes.entries (NoteBytes.append b kind delta) =
      NoteBytes.entries b ++ [(appendPos b delta,
        ⟨kind, lastOffset (NoteBytes.noteList b) + delta, List.replicate kind.arity 0⟩)] := by
  have hextent : lastOffset (NoteBytes.noteList b) = CodedNote.extent cs := by
    rw [h.noteList]
    cases cs with
    | nil => rfl
    | cons c cs => simpa using @CodedNote.lastOffset_placed 0 _ hlast (by simp)
  have hfillers : ∀ f ∈ fillerRun delta, f.kind = .filler := fun _ => kind_of_mem_fillerRun
  have hposition : (CodedNote.allBytes (cs ++ fillerRun delta)).length = appendPos b delta := by
    rw [CodedNote.allBytes_append, List.length_append, ← h.size, allBytes_fillerRun, appendPos,
      Array.length_toList]
  have hoffset : CodedNote.extent (cs ++ fillerRun delta) + ownDelta delta =
      CodedNote.extent cs + delta := by
    rw [CodedNote.extent_append, Nat.add_assoc, extent_fillerRun]
  rw [(h.append delta hproper hplain).entries, h.entries, hextent, freshRun, ← List.append_assoc,
    CodedNote.positions_append, CodedNote.placed_append, Nat.zero_add, Nat.zero_add, hposition,
    CodedNote.positions_append, CodedNote.placed_append, CodedNote.positions_fillers hfillers,
    CodedNote.placed_fillers hfillers, List.append_nil, List.append_nil,
    List.zip_append (CodedNote.length_positions 0 0 cs)]
  simp only [CodedNote.positions, CodedNote.placed, CodedNote.plain, hplain, if_false, hoffset,
    List.map_replicate, CodedOperand.value_zero, List.zip_cons_cons, List.zip_nil_right]

/-- What setting an operand does to the notes a buffer stands for. -/
theorem noteList_setOperand (h : Spells b cs)
    (hj : (NoteBytes.entries b)[j]? = some (position, note)) (hwhich : which < note.kind.arity)
    (hvalue : value < operandLimit) :
    ∃ b', NoteBytes.setOperand b position which value = .ok b' ∧
      NoteBytes.noteList b' = (NoteBytes.noteList b).set j
        { note with operands := note.operands.set which value } ∧
      ((NoteBytes.entries b').map Prod.fst)[j]? = some position := by
  obtain ⟨front, c, back, rfl, rfl, hc, rfl, rfl⟩ := h.split_of_entry hj
  obtain ⟨b', hok, hspells⟩ := h.setOperand hwhich hvalue
  refine ⟨b', hok, ?_, ?_⟩
  · rw [hspells.noteList, h.noteList, CodedNote.placed_append, CodedNote.placed_append]
    simp [CodedNote.placed, hc, CodedNote.values_setOperand]
  · rw [hspells.positions, CodedNote.positions_append,
      List.getElem?_append_right (Nat.le_of_eq (CodedNote.length_positions 0 0 front)),
      CodedNote.length_positions 0 0]
    simp [CodedNote.positions, hc]

/-- What adding to a delta does to the notes a buffer stands for. -/
theorem noteList_addToDelta (h : Spells b cs)
    (hj : (NoteBytes.entries b)[j]? = some (position, note)) (hdelta : delta < fillerLimit) :
    ∃ b' position', NoteBytes.addToDelta b position delta = .ok (b', position') ∧
      NoteBytes.noteList b' = (NoteBytes.noteList b).take j ++
        ((NoteBytes.noteList b).drop j).map (PlacedNote.shift delta) ∧
      ((NoteBytes.entries b').map Prod.fst)[j]? = some position' := by
  obtain ⟨front, c, back, rfl, rfl, hc, rfl, rfl⟩ := h.split_of_entry hj
  obtain ⟨b', position', c', gap, hok, rfl, hspells, hgap, hkind, hoperands, hsum⟩ :=
    h.addToDelta hdelta
  refine ⟨b', _, hok, ?_, ?_⟩
  · rw [hspells.noteList, h.noteList, CodedNote.placed_append, CodedNote.placed_append,
      CodedNote.placed_append, CodedNote.placed_fillers hgap, List.append_nil, List.take_left,
      List.drop_left, ← CodedNote.placed_shift]
    have hoffset : CodedNote.extent (front ++ gap) + c'.delta =
        CodedNote.extent front + delta + c.delta := by
      rw [CodedNote.extent_append]
      omega
    simp only [CodedNote.placed, hkind, hc, if_false, hoperands, Nat.zero_add, hoffset]
  · rw [hspells.positions, CodedNote.positions_append, CodedNote.positions_append,
      CodedNote.positions_fillers hgap, List.append_nil,
      List.getElem?_append_right (Nat.le_of_eq (CodedNote.length_positions 0 0 front)),
      CodedNote.length_positions 0 0]
    simp [CodedNote.positions, hkind, hc]

end NoteBytes.Spells

/-- A buffer that has been edited note by note is a list of notes. -/
theorem EditedNotes.noteBuffer {b : Bytes} (h : EditedNotes b) : NoteBuffer b := by
  obtain ⟨cs, hcs, hlast⟩ := h.spells
  refine ⟨?_, ?_, ?_, ?_⟩
  · rw [hcs.read_push_zero, hcs.leads, map_snd_leads]
  · exact fun kind delta hproper hplain => hcs.entries_append hlast delta hproper hplain
  · exact fun j position note which value => hcs.noteList_setOperand
  · exact fun j position note delta => hcs.noteList_addToDelta

/-- A loop note far into the code whose operand has grown and that has been moved on, with a line
note behind it. -/
theorem EditedNotes.noteBuffer_movedLoop :
    EditedNotes #[255, 229, 232, 160, 8, 128, 1, 44, 35] ∧
      NoteBuffer #[255, 229, 232, 160, 8, 128, 1, 44, 35] := by
  have happend : EditedNotes #[255, 229, 160, 8, 0] :=
    .edit (.append .whileLoop 100) .empty ⟨by decide, by decide⟩ rfl
  have hset : EditedNotes #[255, 229, 160, 8, 128, 1, 44] :=
    .edit (.setOperand 2 0 300) happend
      ⟨⟨⟨.whileLoop, 0, [0]⟩, by decide, by decide⟩, by decide⟩ (by cbv)
  have hline : EditedNotes #[255, 229, 160, 8, 128, 1, 44, 35] :=
    .edit (.append .newline 3) hset ⟨by decide, by decide⟩ rfl
  have hmoved : EditedNotes #[255, 229, 232, 160, 8, 128, 1, 44, 35] :=
    .edit (.addToDelta 2 40) hline ⟨⟨⟨.whileLoop, 0, [300]⟩, by decide⟩, by decide⟩ (by cbv)
  exact ⟨hmoved, hmoved.noteBuffer⟩

end ScriptCompiler
