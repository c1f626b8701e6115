import ScriptCompiler.Proofs.Code.Instructions
import ScriptCompiler.Proofs.Frame.Code
import ScriptCompiler.Proofs.Line.Chart
import ScriptCompiler.Proofs.Line.Notes

/-!
# Runs of a generator

A run starts from a new generator and applies one operation after the other.
`Emission` goes with a run and logs every instruction with the line in force in
its section. What a caller has to keep to is part of it: an opcode is only
overwritten by one of the same length, and whenever the table of spans is
built, takes a switch or is resolved the main code is made of the instructions
of the log.

Composite operations are runs of the ones listed here. A chain is resolved link
by link: the offset of a link is set, then it becomes a jump.
-/

namespace ScriptCompiler

open NoteBytes

variable {pc field : Nat} {op : Opcode} {z delta : Int} {is : List Instruction} {spans : SpanTable}
  {g₁ : Generator} {operand : UInt16}

/-- An operation that writes code. -/
inductive CodeOperation where
  /-- Append an opcode and its operands. -/
  | instruction (op : Opcode) (operands : Bytes)
  /-- Append the entry of a block. -/
  | enterBlock (count : UInt16)
  /-- Append an opcode and zero bytes to be filled in. -/
  | zeroed (op : Opcode) (extra : Nat)
  /-- Append a jump. -/
  | jump (op : Opcode) (offset : Int)
  /-- Overwrite an opcode. -/
  | setOp (pc : Nat) (op : Opcode)
  /-- Overwrite a 16-bit operand. -/
  | setU16 (position value : Nat)
  /-- Set the offset of a jump. -/
  | setJumpOffset (pc : Nat) (offset : Int)
  /-- Set the distance of a link. -/
  | setLinkDelta (pc : Nat) (delta : Int)
  /-- Let a link of main code become a jump. -/
  | becomeJump (pc : Nat) (op : Opcode)

/-- What an operation does. -/
def CodeOperation.run : CodeOperation → Emit Unit
  | instruction op operands => do let _ ← Emit.instruction op operands
  | enterBlock count => do let _ ← Emit.enterBlock count
  | zeroed op extra => do let _ ← Emit.opZeroed op extra
  | jump op offset => do let _ ← Emit.jump op offset
  | setOp pc op => Emit.setOp pc op
  | setU16 position value => Emit.setU16 position value
  | setJumpOffset pc offset => Emit.setJumpOffset pc offset
  | setLinkDelta pc delta => Emit.setLinkDelta pc delta
  | becomeJump pc op => modify fun g =>
    { g with main := { g.main with code := g.main.code.setIfInBounds pc op.toByte } }

/-- Whether an operation turns the table of spans on: an offset does not fit its field. -/
def CodeOperation.builds (g : Generator) : CodeOperation → Bool
  | jump _ offset => !g.spans.active && !Bytes.fits16 offset
  | setJumpOffset _ offset => !g.spans.active && !Bytes.fits16 offset
  | setLinkDelta _ delta => !g.spans.active && decide (32767 ≤ delta)
  | _ => false

/-- An operation that writes notes. -/
inductive NoteOperation where
  /-- Append a note. -/
  | note (kind : NoteKind)
  /-- Set an operand of a note. -/
  | setNote (position which value : Nat)
  /-- Change the line. -/
  | updateLine (line : UInt32)

/-- What an operation does. -/
def NoteOperation.run : NoteOperation → Emit Unit
  | note kind => do let _ ← Emit.note kind
  | setNote position which value => Emit.setNote position which value
  | updateLine line => Emit.updateLine line

/-- Line notes come from changes of the line alone, which stays below the limit of an operand; an
operand that is set is one of a note that is there. -/
def NoteOperation.Allowed (g : Generator) : NoteOperation → Prop
  | note kind => kind ≠ .null ∧ kind ≠ .newline ∧ kind ≠ .setLine
  | setNote position which _ => ∃ note, (position, note) ∈ leads g.currentSection.notes ∧
      which < note.kind.arity ∧ note.kind ≠ .setLine
  | updateLine line => line.toNat < operandLimit

/-- The instructions logged for each section. -/
structure EmissionLog where
  /-- Those of the hoisted declarations. -/
  prolog : List LoggedInstruction
  /-- Those of the body. -/
  main : List LoggedInstruction

/-- Offset and length of each logged instruction. -/
def loggedBounds (log : List LoggedInstruction) : List (Nat × Nat) :=
  log.map fun e => (e.pc, e.length)

/-- Bytes that have been appended to a section are one more instruction of the line in force. -/
def extendLog (log : List LoggedInstruction) (s s' : CodeSection) : List LoggedInstruction :=
  if s.code.size < s'.code.size then log ++ [⟨s.code.size, s'.code.size - s.code.size, s.line⟩]
  else log

/-- The log after an operation. -/
def EmissionLog.extend (log : EmissionLog) (g g' : Generator) : EmissionLog :=
  ⟨extendLog log.prolog g.prolog g'.prolog, extendLog log.main g.main g'.main⟩

/-- The log of code that has been resolved: the instructions are the same ones, elsewhere. -/
def relocateLog (code : Bytes) (log : List LoggedInstruction) : List LoggedInstruction :=
  ((instructions code).zip log).map fun p => ⟨p.1.pc, p.1.length, p.2.line⟩

/-- Code is made of the logged instructions. -/
def Complete (code : Bytes) (log : List LoggedInstruction) : Prop :=
  ∃ is, Whole code 0 is ∧ boundsOf is = loggedBounds log

/-- The opcodes of logged instructions are kept, or overwritten by opcodes of the same length. -/
def RewritesAlike (log : List LoggedInstruction) (code code' : Bytes) : Prop :=
  ∀ e ∈ log, ∀ op, opcodeAt? code e.pc = some op → ∃ op', opcodeAt? code' e.pc = some op' ∧
    (op' = op ∨ op.spec.length.isSome = true ∧ op'.spec.length = op.spec.length)

/-- A narrow switch the table may take: an instruction of the log behind all that has been resolved or
entered. -/
structure NewSwitch (g : Generator) (log : List LoggedInstruction) (i : Instruction) : Prop where
  complete : Complete g.main.code log
  logged : (i.pc, i.length) ∈ loggedBounds log
  opcode : opcodeAt? g.main.code i.pc = some i.op
  narrow : i.op.format.jumpLen = some 2
  isSwitch : i.op.format.isSwitch = true
  recent : g.spans.todo ≤ i.pc
  behind : ∀ p ∈ g.spans.pairs, p.1 < i.pc

/-- A run of a generator whose unit starts on a line, with what it has emitted. -/
inductive Emission (first : UInt32) : Generator → EmissionLog → Prop where
  | new (filename : String) (limits : Limits) (hfirst : first.toNat < operandLimit) :
      Emission first (Generator.new filename first limits) ⟨[], []⟩
  /-- Operations on code. -/
  | code {g g' : Generator} {log : EmissionLog} (operation : CodeOperation)
      (hrun : Emission first g log) (hok : operation.run g = .ok () g')
      (hrewrites : RewritesAlike log.main g.main.code g'.main.code)
      (hbuild : operation.builds g = true → Complete g.main.code log.main) :
      Emission first g' (log.extend g g')
  /-- Operations on notes. -/
  | note {g g' : Generator} {log : EmissionLog} (operation : NoteOperation)
      (hrun : Emission first g log) (hallowed : operation.Allowed g)
      (hok : operation.run g = .ok () g') : Emission first g' log
  /-- The offsets of a switch go into the table that is on. -/
  | register {g g' : Generator} {log : EmissionLog} {i : Instruction} {next : Nat}
      (hrun : Emission first g log) (hon : g.spans.active = true) (hnew : NewSwitch g log.main i)
      (hok : Emit.addSwitch i.pc g = .ok next g') : Emission first g' log
  /-- Resolution of the spans. -/
  | resolve {g g' : Generator} {log : EmissionLog} (hrun : Emission first g log)
      (hcomplete : Complete g.main.code log.main) (hok : Emit.resolveSpans g = .ok () g') :
      Emission first g' ⟨log.prolog, relocateLog g'.main.code log.main⟩
  /-- Anything else: sections, statements, literals, functions, regions and the stack model. -/
  | aside {g g' : Generator} {log : EmissionLog} (hrun : Emission first g log)
      (hfirst : g'.firstLine = g.firstLine) (hprolog : g'.prolog = g.prolog)
      (hmain : g'.main = g.main) (hspans : g'.spans = g.spans) : Emission first g' log

/-! ## What operations on code change -/

/-- What an operation on code changes, with the offsets it enters when it turns the table on. -/
structure CodeChange (g g' : Generator) (builds : Bool) (scanned : List (Nat × Nat)) : Prop where
  firstLine : g'.firstLine = g.firstLine
  prolog : ∃ code, g'.prolog = { g.prolog with code } ∧ g.prolog.code.size ≤ code.size
  main : ∃ code, g'.main = { g.main with code } ∧ g.main.code.size ≤ code.size
  todo : g'.spans.todo = g.spans.todo
  sound : g'.spans.targets.Sound
  active : g'.spans.active = (g.spans.active || builds)
  /-- A jump emitted while the table is on goes into it. -/
  pairs : ∃ more, g'.spans.pairs = g.spans.pairs ++ (if builds then scanned else []) ++ more ∧
    (more = [] ∨ g'.spans.active = true ∧
      more = [(g.main.code.size, g.main.code.size + 1)] ∧ g'.main.code.size = g.main.code.size + 3)

namespace CodeChange

variable {g g' : Generator} {scanned : List (Nat × Nat)}

/-- Code is written and the stack model changes. -/
theorem of_section (hs : g.spans.targets.Sound) (h : SectionOnly g g') :
    CodeChange g g' false scanned where
  firstLine := by rw [h.rest]
  prolog := ⟨_, by rw [h.rest], h.prolog⟩
  main := ⟨_, by rw [h.rest], h.main⟩
  todo := by rw [h.spans]
  sound := by rwa [h.spans]
  active := by rw [h.spans, Bool.or_false]
  pairs := ⟨[], by simp [h.spans], .inl rfl⟩

/-- Code of main and the table change in step. -/
theorem of_table {code : Bytes} {builds : Bool}
    (h : g' = { g with main := { g.main with code }, spans }) (hsize : code.size = g.main.code.size)
    (htodo : spans.todo = g.spans.todo) (hsound : spans.targets.Sound)
    (hactive : spans.active = (g.spans.active || builds))
    (hpairs : spans.pairs = g.spans.pairs ++ if builds then scanned else []) :
    CodeChange g g' builds scanned := by
  subst h
  exact ⟨rfl, ⟨_, rfl, Nat.le_refl _⟩, ⟨_, rfl, Nat.le_of_eq hsize.symm⟩, htodo, hsound, hactive,
    [], by rw [List.append_nil]; exact hpairs, .inl rfl⟩

end CodeChange

namespace Emit

variable {g g' : Generator}

theorem appendCode_eq {bytes : Bytes} (h : appendCode bytes g = .ok pc g') :
    g' = g.modifySection fun s => { s with code := s.code ++ bytes } := by
  simp only [appendCode, offset, bind_ok, get_ok, pure_ok, modify_ok] at h
  obtain ⟨_, _, ⟨_, _, ⟨rfl, rfl⟩, -, rfl⟩, _, _, rfl, -, rfl⟩ := h
  rfl

theorem updateDepth_eq {pushed : Nat} (h : updateDepth op pc pushed g = .ok () g') :
    ∃ depth warnings, g' = { g with depth, warnings } := by
  simp only [updateDepth, bind_ok, get_ok, liftFault_ok, modify_ok] at h
  obtain ⟨_, _, ⟨rfl, rfl⟩, uses, _, ⟨-, rfl⟩, rfl⟩ := h
  obtain ⟨warnings, hwarnings, -⟩ := g.applyEffect_eq pc uses (op.spec.defs.getD pushed) op.spec.scratch
  exact ⟨_, warnings, hwarnings⟩

theorem instruction_eq {operands : Bytes} (h : instruction op operands g = .ok pc g') :
    ∃ depth warnings,
      g' = { g.modifySection fun s => { s with code := s.code ++ (#[op.toByte] ++ operands) } with
        depth, warnings } := by
  simp only [instruction, bind_ok, pure_ok] at h
  obtain ⟨_, g₁, happend, _, _, hdepth, -, rfl⟩ := h
  obtain rfl := appendCode_eq happend
  exact updateDepth_eq hdepth

/-- Destinations may change, the offsets listed do not. -/
theorem pairs_modify (spans : SpanTable) (index : Nat) (destination : Destination)
    (targets : TargetIndex) :
    SpanTable.pairs { spans with
      targets, spans := spans.spans.modify index fun span => { span with destination } } =
        spans.pairs := by
  simp only [SpanTable.pairs]
  apply List.ext_getElem?
  intro k
  simp only [List.getElem?_map, Array.getElem?_toList, Array.getElem?_modify]
  split
  · simp [Function.comp_def]
  · rfl

/-- Once the table is on, the span of a field is found and gets a target. -/
theorem retarget_eq (hs : g.spans.targets.Sound)
    (h : (locateSpan field >>= fun r => setSpanTarget r.1 r.2.top z) g = .ok () g') :
    ∃ spans, g' = { g with spans } ∧ g.spans.Grows spans ∧ spans.pairs = g.spans.pairs := by
  simp only [locateSpan, bind_ok, get_ok, lift_ok] at h
  obtain ⟨r, _, ⟨_, _, ⟨rfl, rfl⟩, _, _, ⟨-, rfl⟩, _, _, ⟨rfl, rfl⟩, -, rfl⟩, hset⟩ := h
  obtain ⟨-, rfl⟩ := setSpanTarget_ok hset
  exact ⟨_, rfl, SpanTable.grows_setTarget hs .., pairs_modify ..⟩

theorem relink_eq (hs : g.spans.targets.Sound)
    (h : (do
      let r ← locateSpan field
      if delta < 0 then inconsistent .negativeLink
      modify fun g => { g with spans := g.spans.setDestination r.1 (.link delta.toNat) } :
        Emit Unit) g = .ok () g') :
    ∃ spans, g' = { g with spans } ∧ g.spans.Grows spans ∧ spans.pairs = g.spans.pairs := by
  simp only [locateSpan, bind_ok, get_ok, lift_ok] at h
  obtain ⟨r, _, ⟨_, _, ⟨rfl, rfl⟩, _, _, ⟨-, rfl⟩, _, _, ⟨rfl, rfl⟩, -, rfl⟩, h⟩ := h
  simp only [guard_inconsistent_ok, modify_ok] at h
  obtain ⟨-, rfl⟩ := h
  exact ⟨_, rfl, SpanTable.grows_spans hs _, pairs_modify ..⟩

/-- The table is turned on, and then only destinations change. -/
theorem change_of_build
    (hbuild : Enters { g with spans := { g.spans with active := true } } g₁
      (offsetPairs (narrowJumps is))) (hg' : g' = { g₁ with spans }) (hgrows : g₁.spans.Grows spans)
    (hpairs : spans.pairs = g₁.spans.pairs) :
    CodeChange g g' true (offsetPairs (narrowJumps is)) := by
  obtain ⟨code, spans₁, rfl, hgrows₁, hpairs₁, hsize⟩ := hbuild
  refine .of_table hg' hsize (hgrows.todo.trans hgrows₁.todo) hgrows.sound
    ((hgrows.active.trans hgrows₁.active).trans (Bool.or_true _).symm) ?_
  rw [if_pos rfl, hpairs, hpairs₁]
  rfl

theorem setOffsetAt_change (hs : g.spans.targets.Sound)
    (hw : (!g.spans.active && !Bytes.fits16 z) → Whole g.main.code g.spans.todo is)
    (h : setOffsetAt field z g = .ok () g') :
    CodeChange g g' (!g.spans.active && !Bytes.fits16 z) (offsetPairs (narrowJumps is)) := by
  simp only [setOffsetAt, get_bind] at h
  cases hon : g.spans.active with
  | true =>
    rw [if_neg (by simp [hon])] at h
    obtain ⟨spans, rfl, hgrows, hpairs⟩ := retarget_eq hs h
    refine .of_table rfl rfl hgrows.todo hgrows.sound ?_ ?_
    · simpa using hgrows.active
    · simpa using hpairs
  | false =>
    rw [if_pos (by simp [hon])] at h
    split at h
    · rename_i hfits
      simp only [bind_ok] at h
      obtain ⟨_, g₁, hset, h⟩ := h
      obtain ⟨-, rfl⟩ := setMainU16_ok hset
      obtain ⟨-, rfl⟩ := pure_ok.mp h
      simp only [hfits, Bool.not_true, Bool.and_false]
      exact .of_table rfl (Bytes.size_setU16 ..) rfl hs (Bool.or_false _).symm (by simp)
    · rename_i hfits
      rw [bind_ok] at h
      obtain ⟨_, g₁, hbuild, h⟩ := h
      have henters := buildSpans_enters (hw (by simp [hon, hfits])) hs hbuild
      obtain ⟨spans, rfl, hgrows, hpairs⟩ := retarget_eq henters.sound h
      simp only [hfits, Bool.not_false, Bool.and_self]
      exact change_of_build henters rfl hgrows hpairs

theorem setLinkDelta_change (hs : g.spans.targets.Sound)
    (hw : (!g.spans.active && decide (32767 ≤ delta)) → Whole g.main.code g.spans.todo is)
    (h : setLinkDelta pc delta g = .ok () g') :
    CodeChange g g' (!g.spans.active && decide (32767 ≤ delta)) (offsetPairs (narrowJumps is)) := by
  rw [setLinkDelta, bind_ok] at h
  obtain ⟨field, g₁, hfield, h⟩ := h
  obtain ⟨rfl, rfl⟩ := fieldOf_ok hfield
  simp only [get_bind] at h
  cases hon : g₁.spans.active with
  | true =>
    rw [if_neg (by simp [hon])] at h
    simp only [guard_tooLarge_ok, get_bind, hon, Bool.not_true, Bool.false_eq_true, if_false] at h
    obtain ⟨spans, rfl, hgrows, hpairs⟩ := relink_eq hs h.2
    refine .of_table rfl rfl hgrows.todo hgrows.sound ?_ ?_
    · simpa using hgrows.active
    · simpa using hpairs
  | false =>
    by_cases hsmall : delta < 32767
    · rw [if_pos (by simp [hon, hsmall])] at h
      simp only [guard_inconsistent_ok, bind_ok] at h
      obtain ⟨-, _, g₂, hset, h⟩ := h
      obtain ⟨-, rfl⟩ := setMainU16_ok hset
      obtain ⟨-, rfl⟩ := pure_ok.mp h
      have hlt : decide (32767 ≤ delta) = false := by simpa using hsmall
      rw [hlt, Bool.and_false]
      exact .of_table rfl (Bytes.size_setU16 ..) rfl hs (Bool.or_false _).symm (by simp)
    · rw [if_neg (by simp [hsmall])] at h
      simp only [guard_tooLarge_ok, get_bind, hon, Bool.not_false, if_true] at h
      rw [bind_ok] at h
      obtain ⟨-, _, g₂, hbuild, h⟩ := h
      have hge : decide (32767 ≤ delta) := by simpa using hsmall
      have henters := buildSpans_enters (hw (by simp [hon, hge])) hs hbuild
      obtain ⟨spans, rfl, hgrows, hpairs⟩ := relink_eq henters.sound h
      rw [hge]
      exact change_of_build henters rfl hgrows hpairs

theorem opU16_main (hmain : g.current = .main) (h : opU16 op operand g = .ok pc g') :
    pc = g.main.code.size ∧ ∃ code depth warnings,
      g' = { g with main := { g.main with code }, depth, warnings } ∧
      code.size = g.main.code.size + 3 := by
  simp only [opU16, instruction, bind_ok, pure_ok] at h
  obtain ⟨_, g₁, happend, _, _, hdepth, rfl, rfl⟩ := h
  obtain ⟨rfl, rfl⟩ := appendCode_ok happend hmain
  obtain ⟨depth, warnings, rfl⟩ := updateDepth_eq hdepth
  exact ⟨rfl, _, depth, warnings, rfl, by simp [Bytes.le16]⟩

theorem jump_change (hs : g.spans.targets.Sound)
    (hw : (!g.spans.active && !Bytes.fits16 z) → Whole g.main.code g.spans.todo is)
    (h : jump op z g = .ok pc g') :
    CodeChange g g' (!g.spans.active && !Bytes.fits16 z) (offsetPairs (narrowJumps is)) := by
  obtain ⟨hmain, g₀, g₁, n, -, -, hbuild, happend, hadd⟩ := jump_ok h
  -- the table is built first, if it is built at all
  obtain ⟨code₀, spans₀, rfl, htodo₀, hsound₀, hactive₀, hpairs₀, hsize₀⟩ :
      ∃ code₀ spans₀, g₀ = { g with main := { g.main with code := code₀ }, spans := spans₀ } ∧
        spans₀.todo = g.spans.todo ∧ spans₀.targets.Sound ∧
        spans₀.active = (g.spans.active || (!g.spans.active && !Bytes.fits16 z)) ∧
        (spans₀.pairs = g.spans.pairs ++ if !g.spans.active && !Bytes.fits16 z then
          offsetPairs (narrowJumps is) else []) ∧ code₀.size = g.main.code.size := by
    split at hbuild
    · rename_i hbuilds
      obtain ⟨code₀, spans₀, rfl, hgrows, hpairs, hsize⟩ := buildSpans_enters (hw hbuilds) hs hbuild
      refine ⟨code₀, spans₀, rfl, hgrows.todo, hgrows.sound, ?_, ?_, hsize⟩
      · rw [hbuilds, Bool.or_true]
        exact hgrows.active
      · rw [if_pos hbuilds]
        exact hpairs
    · rename_i hbuilds
      exact ⟨_, _, hbuild, rfl, hs, by simp [hbuilds], by rw [if_neg hbuilds, List.append_nil], rfl⟩
  obtain ⟨rfl, code, depth, warnings, rfl, hsize⟩ := opU16_main (by exact hmain) happend
  have hsize : code.size = g.main.code.size + 3 := hsize.trans (congrArg (· + 3) hsize₀)
  split at hadd
  · rename_i hon
    have hon : spans₀.active := by
      rw [hactive₀]
      have hon : (!Bytes.fits16 z || spans₀.active) = true := hon
      rw [hactive₀] at hon
      cases hz : Bytes.fits16 z <;> simp_all
    obtain ⟨code', spans, rfl, hgrows, hpairs, hsize'⟩ := addSpan_enters hsound₀ hadd
    have hsize' : code'.size = g.main.code.size + 3 := hsize'.trans hsize
    have hpairs : spans.pairs = spans₀.pairs ++ [(code₀.size, code₀.size + 1)] := hpairs
    rw [hpairs₀, hsize₀] at hpairs
    exact ⟨rfl, ⟨_, rfl, Nat.le_refl _⟩, ⟨_, rfl, by omega⟩, hgrows.todo.trans htodo₀, hgrows.sound,
      hgrows.active.trans hactive₀, [(g.main.code.size, g.main.code.size + 1)], hpairs,
      .inr ⟨hgrows.active.trans hon, rfl, hsize'⟩⟩
  · subst hadd
    exact ⟨rfl, ⟨_, rfl, Nat.le_refl _⟩, ⟨_, rfl, by omega⟩, htodo₀, hsound₀, hactive₀,
      [], by rw [List.append_nil]; exact hpairs₀, .inl rfl⟩

end Emit

/-- What each operation on code changes. -/
theorem CodeOperation.change {g g' : Generator} (operation : CodeOperation)
    (hs : g.spans.targets.Sound)
    (hw : operation.builds g → Whole g.main.code g.spans.todo is)
    (hok : operation.run g = .ok () g') :
    CodeChange g g' (operation.builds g) (offsetPairs (narrowJumps is)) := by
  cases operation with
  | instruction | enterBlock | zeroed | setOp | setU16 | becomeJump =>
    rw [run] at hok
    exact .of_section hs (Emit.Within.ok _ _ _ hok)
  | jump op offset =>
    simp only [run, Emit.bind_ok, Emit.pure_ok] at hok
    obtain ⟨_, _, hok, -, rfl⟩ := hok
    exact Emit.jump_change hs hw hok
  | setJumpOffset pc offset =>
    simp only [run, Emit.setJumpOffset, Emit.bind_ok] at hok
    obtain ⟨_, _, hfield, hok⟩ := hok
    obtain ⟨rfl, rfl⟩ := Emit.fieldOf_ok hfield
    exact Emit.setOffsetAt_change hs hw hok
  | setLinkDelta pc delta => exact Emit.setLinkDelta_change hs hw hok

end ScriptCompiler
