import ScriptCompiler.Proofs.Line.Run
import ScriptCompiler.Proofs.Unit.Finishing

/-!
# Lines of a finished script

Joining the sections moves the notes of main behind those of the hoisted
declarations. A main section starts on the line of the unit, so the notes in
front of it have to lead back there: either they do, or a line note closes them.
-/

namespace ScriptCompiler

open NoteBytes CodedNote Emit

variable {notes : Bytes} {cs cs' : List CodedNote} {log log' : List LoggedInstruction}
  {g g' : Generator} {first : UInt32} {s : CodeSection}

/-! ## Joining the notes -/

/-- The delta of the first note takes the whole distance. -/
theorem Emit.pushAhead_spells {notes' : Bytes} {distance step fuel : Nat}
    (hspells : Spells notes cs) (hne : cs ≠ []) (hstep : step ≤ distance)
    (hsmall : step < fillerLimit) (hfuel : distance < fuel + step)
    (hok : pushAhead notes distance step fuel = .ok notes') : ∃ cs', Spells notes' cs' ∧
      ∀ offset, placed offset cs' = placed (offset + distance) cs := by
  induction fuel generalizing notes cs distance step with
  | zero => omega
  | succ fuel ih =>
    obtain ⟨c, back, rfl⟩ := List.exists_cons_of_ne_nil hne
    have hspells : Spells notes ([] ++ c :: back) := hspells
    obtain ⟨b, pos, c', gap, hadd, -, hspells', hgap, hkind, hoperands, hdelta⟩ :=
      hspells.addToDelta hsmall
    rw [List.nil_append] at hspells'
    have hplaced : ∀ offset, placed offset (gap ++ c' :: back) =
        placed (offset + step) (c :: back) := by
      intro offset
      have hsum : offset + extent gap + c'.delta = offset + step + c.delta := by omega
      rw [placed_append, placed_fillers hgap, List.nil_append, placed,
        placed, hsum, hkind, hoperands]
    simp only [pushAhead, bind, Except.bind, allBytes_nil, List.length_nil] at hadd hok
    rw [hadd] at hok
    simp only at hok
    split at hok
    · rename_i hdone
      cases hok
      obtain rfl : step = distance := by omega
      exact ⟨_, hspells', hplaced⟩
    · rename_i hmore
      obtain ⟨cs', hspells'', hplaced'⟩ := ih hspells' (by simp) (Nat.min_le_left ..)
        (by simp only [fillerLimit]; omega) (by simp only [fillerLimit]; omega) hok
      refine ⟨cs', hspells'', fun offset => ?_⟩
      rw [hplaced', hplaced]
      congr 1
      omega

theorem NoteBytes.headroom_lt (lead : UInt8) : headroom lead < fillerLimit := by
  simp only [headroom, fillerLimit, deltaLimit]
  split <;> omega

/-- Notes of main behind notes that lead back to the first line. -/
theorem Says.join {line : UInt32} {t : CodeSection} {more : List CodedNote}
    (h : Says first s log first cs) (h' : Says first t log' line cs')
    (hmore : placed (CodedNote.extent cs) more = placed s.code.size cs') :
    (∀ e ∈ log, lineAfter first (notesUpTo (placed 0 (cs ++ more)) e.pc) = .ok e.line) ∧
      ∀ e ∈ log', lineAfter first
        (notesUpTo (placed 0 (cs ++ more)) (s.code.size + e.pc)) = .ok e.line := by
  have hplaced : placed 0 (cs ++ more) = placed 0 cs ++
      (placed 0 cs').map (PlacedNote.shift s.code.size) := by
    rw [placed_append, Nat.zero_add, hmore, ← placed_shift, Nat.zero_add]
  refine ⟨fun e he => ?_, fun e he => ?_⟩
  · obtain ⟨hinside, hline⟩ := h.each e he
    have hnone : notesUpTo ((placed 0 cs').map (PlacedNote.shift s.code.size)) e.pc = [] :=
      notesUpTo_eq_nil fun n hn => by
        obtain ⟨m, -, rfl⟩ := List.mem_map.mp hn
        simp only [PlacedNote.shift]
        omega
    rw [hplaced, notesUpTo_append, hnone, List.append_nil]
    exact hline
  · have hall : notesUpTo (placed 0 cs) (s.code.size + e.pc) = placed 0 cs :=
      notesUpTo_eq_self fun n hn => Nat.le_trans (h.offset_le hn) (Nat.le_add_right ..)
    have hmoved : List.Forall₂ (fun n n' : PlacedNote =>
        (n'.offset ≤ s.code.size + e.pc ↔ n.offset ≤ e.pc) ∧ ∀ line, n'.line line = n.line line)
        (placed 0 cs') ((placed 0 cs').map (PlacedNote.shift s.code.size)) := by
      rw [List.forall₂_map_right_iff]
      refine List.forall₂_same.mpr fun n _ => ⟨?_, fun _ => rfl⟩
      simp only [PlacedNote.shift]
      omega
    rw [hplaced, notesUpTo_append, hall, lineAfter_append, h.after]
    exact (lineAfter_congr hmoved first).trans (h'.each e he).2

/-- Sections without notes are on their first line. -/
theorem SectionKept.line_of_empty (h : SectionKept first s log) (hempty : s.notes.size = 0) :
    s.line = first := by
  obtain ⟨-, cs, hstream⟩ := h
  have hafter := hstream.after
  rw [hstream.spells.eq_nil_iff.mpr hempty] at hafter
  exact (Except.ok.inj hafter).symm

theorem NoteBytes.Spells.join {more : Bytes} (h : Spells notes cs) (h' : Spells more cs') :
    Spells (notes ++ more) (cs ++ cs') := by
  rw [Spells, Array.toList_append, h, h', allBytes_append]

/-- The joined notes are those of the hoisted declarations, closed by a line note if one is needed,
and those of main further on. -/
theorem joinNotes_spells (hs : Spells g.prolog.notes cs)
    (hextent : extent cs = g.prolog.lastNoteOffset) (hs' : Spells g.main.notes cs')
    (hok : joinNotes g = .ok notes g') :
    ∃ joined front back, notes = joined.push 0 ∧ Spells joined (front ++ back) ∧
      placed (extent front) back = placed g.prolog.code.size cs' ∧
      ((g.prolog.notes.size ≠ 0 ∧ g.prolog.line ≠ g.firstLine) ∧
          extent front = g.prolog.code.size ∧
          placed 0 front = placed 0 cs ++
            [⟨.setLine, g.prolog.code.size, [g.firstLine.toNat]⟩] ∨
        ¬ (g.prolog.notes.size ≠ 0 ∧ g.prolog.line ≠ g.firstLine) ∧ front = cs) := by
  simp only [joinNotes, get_bind] at hok
  split at hok
  · -- a line note closes the notes of the hoisted declarations at their end
    rename_i hneeded
    simp only [switchTo, modify_bind, bind_ok, get_bind, pure_ok] at hok
    obtain ⟨_, g₁, hnote, rfl, -⟩ := hok
    obtain ⟨front, closed, hspells, -, hreach, hplaced, hsection⟩ :=
      setLine_fresh (g := { g with current := .prolog }) hs hextent hnote
    obtain ⟨notes, last, line, hg₁⟩ := note1_noted hnote
    simp only [Generator.modifySection] at hg₁
    subst hg₁
    obtain rfl : notes = closed := congrArg CodeSection.notes hsection
    exact ⟨_, front, cs', rfl, hspells.join hs', congrArg (placed · cs') hreach,
      .inl ⟨hneeded, hreach, hplaced⟩⟩
  · rename_i hneeded
    simp only [guard_throw_ok] at hok
    obtain ⟨hinside, hok⟩ := hok
    cases hlead : g.main.notes[0]? with
    | none =>
      simp only [hlead, get_bind, pure_ok] at hok
      obtain ⟨rfl, -⟩ := hok
      have hnone : cs' = [] :=
        hs'.eq_nil_iff.mpr (Nat.le_zero.mp (Array.getElem?_eq_none_iff.mp hlead))
      refine ⟨_, cs, cs', rfl, hs.join hs', ?_, .inr ⟨hneeded, rfl⟩⟩
      rw [hnone]
      rfl
    | some lead =>
      simp only [hlead] at hok
      split at hok
      · simp only [bind_ok, lift_ok, modify_ok, get_bind, pure_ok] at hok
        obtain ⟨more, _, ⟨hpush, rfl⟩, _, _, rfl, rfl, -⟩ := hok
        have hne : cs' ≠ [] := fun hnone => by
          have := hs'.eq_nil_iff.mp hnone
          have := (Array.getElem?_eq_some_iff.mp hlead).1
          omega
        obtain ⟨pushed, hspells, hplaced⟩ := Emit.pushAhead_spells hs' hne
          (Nat.min_le_right ..) (Nat.lt_of_le_of_lt (Nat.min_le_left ..) (NoteBytes.headroom_lt lead))
          (by omega) hpush
        refine ⟨_, cs, pushed, rfl, hs.join hspells, ?_, .inr ⟨hneeded, rfl⟩⟩
        rw [hplaced]
        congr 1
        omega
      · simp only [get_bind, pure_ok] at hok
        obtain ⟨rfl, -⟩ := hok
        refine ⟨_, cs, cs', rfl, hs.join hs', ?_, .inr ⟨hneeded, rfl⟩⟩
        congr 1
        omega

/-- The joined notes give every instruction its line, those of main behind the hoisted ones. -/
theorem joinNotes_lines (hprolog : SectionKept g.firstLine g.prolog log)
    (hmain : SectionKept g.firstLine g.main log') (hok : joinNotes g = .ok notes g') :
    ∃ joined cs, notes = joined.push 0 ∧
      Spells joined cs ∧
      (∀ e ∈ log, lineAfter g.firstLine (notesUpTo (placed 0 cs) e.pc) = .ok e.line) ∧
      ∀ e ∈ log', lineAfter g.firstLine
        (notesUpTo (placed 0 cs) (g.prolog.code.size + e.pc)) = .ok e.line := by
  have hempty := hprolog.line_of_empty
  obtain ⟨-, cs, hstream⟩ := hprolog
  obtain ⟨-, cs', hstream'⟩ := hmain
  obtain ⟨joined, front, back, hnotes, hspells, hback, ⟨-, hreach, hplaced⟩ | ⟨hsame, rfl⟩⟩ :=
    joinNotes_spells hstream.spells hstream.extent hstream'.spells hok
  · have hfront : Spells (allBytes front).toArray front := rfl
    have hset : PlacedNote.line g.prolog.line ⟨.setLine, g.prolog.code.size, [g.firstLine.toNat]⟩ =
        .ok g.firstLine := congrArg Except.ok UInt32.ofNat_toNat
    have hclosed := hstream.addNote hfront hreach hplaced rfl hset g.prolog.line
    exact ⟨joined, _, hnotes, hspells, hclosed.join hstream' hback⟩
  · have hline : g.prolog.line = g.firstLine := by
      by_cases hsize : g.prolog.notes.size = 0
      · exact hempty hsize
      · exact Decidable.not_not.mp fun hline => hsame ⟨hsize, hline⟩
    rw [hline] at hstream
    exact ⟨joined, _, hnotes, hspells, hstream.join hstream' hback⟩

/-- Resolution leaves the hoisted declarations alone. -/
theorem resolveSpans_frame (hok : resolveSpans g = .ok () g') :
    g'.prolog = g.prolog ∧ g'.current = g.current := by
  cases hon : g.spans.active with
  | false =>
    obtain rfl := resolveSpans_off hon hok
    exact ⟨rfl, rfl⟩
  | true =>
    obtain ⟨-, -, code, notes, last, regions, -, -, -, -, -, rfl⟩ := resolveSpans_ok hon hok
    exact ⟨rfl, rfl⟩

/-- The lines of instructions that stand where the log has them. -/
theorem map_lines {is : List Instruction} (lineAt : Nat → Except Fault UInt32)
    (hbounds : boundsOf is = loggedBounds log) (hline : ∀ e ∈ log, lineAt e.pc = .ok e.line) :
    is.map (fun i => lineAt i.pc) = (log.map LoggedInstruction.line).map .ok := by
  have hpcs : is.map Instruction.pc = log.map LoggedInstruction.pc := by
    have hfst := congrArg (List.map Prod.fst) hbounds
    simpa only [boundsOf, loggedBounds, List.map_map, Function.comp_def] using hfst
  calc is.map (fun i => lineAt i.pc)
      = (is.map Instruction.pc).map lineAt := by
        rw [List.map_map]
        rfl
    _ = log.map fun e => lineAt e.pc := by
        rw [hpcs, List.map_map]
        rfl
    _ = (log.map LoggedInstruction.line).map .ok := by
        rw [List.map_map]
        exact List.map_congr_left hline

/-- The line of an instruction of a finished script is the one that was in force in its section when
it was emitted: the instructions of the script are those of the run in order, hoisted declarations
first. -/
theorem finish_lines {first : UInt32} {g g' : Generator} {log : EmissionLog} {s : Script}
    (hrun : Emission first g log) (hprolog : Complete g.prolog.code log.prolog)
    (hmain : Complete g.main.code log.main) (hok : Emit.finish g = .ok s g') :
    Whole s.code 0 (instructions s.code) ∧
      (instructions s.code).map (fun i => s.lineAt i.pc) =
        ((log.prolog ++ log.main).map LoggedInstruction.line).map .ok := by
  simp only [Emit.finish, Emit.switchTo, Emit.modify_bind, Emit.bind_ok, Emit.get_bind,
    Emit.pure_ok] at hok
  obtain ⟨_, g₁, hresolve, notes, g₂, hjoin, hs, -⟩ := hok
  have hkept := hrun.kept
  obtain ⟨hkept₁, ⟨js, hw', hbounds'⟩, hlines⟩ := Kept.resolve (g := { g with current := .main })
    ⟨hkept.firstLine, hkept.prolog, hkept.main, hkept.table⟩ hmain hresolve
  obtain ⟨hsame, hcurrent⟩ := resolveSpans_frame hresolve
  obtain ⟨is, hw, hbounds⟩ := hprolog
  have hfirst := hkept₁.firstLine
  obtain ⟨joined, cs, hnotes, hspells, hfront, hbehind⟩ :=
    joinNotes_lines (hfirst ▸ hkept₁.prolog) (hfirst ▸ hkept₁.main) hjoin
  obtain ⟨prolog, main, rfl, hprolog, hcode⟩ := joinNotes_ok hcurrent hjoin
  rw [hsame] at hprolog hbehind
  have hcode : s.code = g.prolog.code ++ g₁.main.code := by rw [← hs, ← hprolog, ← hcode]
  -- the line of a place is read from the joined notes
  have hread : ∀ pc, s.lineAt pc = lineAfter g₁.firstLine (notesUpTo (CodedNote.placed 0 cs) pc) := by
    intro pc
    have hstream : s.noteStream = ⟨cs.map CodedNote.toNote, joined.size, .terminator⟩ := by
      rw [Script.noteStream, ← hs, hnotes, hspells.read_push_zero]
    have hline : s.firstLine = g₁.firstLine := by rw [← hs]
    rw [Script.lineAt, hstream, hline]
    exact lineFrom_eq ..
  have hwhole : Whole s.code 0 (is ++ js.map (Instruction.shift g.prolog.code.size)) := by
    rw [hcode]
    exact hw.append hw'
  rw [instructions_of_whole hwhole]
  refine ⟨hwhole, ?_⟩
  have hhoisted : is.map (fun i => s.lineAt i.pc) =
      (log.prolog.map LoggedInstruction.line).map .ok :=
    map_lines s.lineAt hbounds fun e he => (hread e.pc).trans (hfront e he)
  have hbody : js.map (fun i => s.lineAt (g.prolog.code.size + i.pc)) =
      ((relocateLog g₁.main.code log.main).map LoggedInstruction.line).map .ok :=
    map_lines (fun pc => s.lineAt (g.prolog.code.size + pc)) hbounds' fun e he =>
      (hread _).trans (hbehind e he)
  have hshifted : (js.map (Instruction.shift g.prolog.code.size)).map (fun i => s.lineAt i.pc) =
      js.map fun i => s.lineAt (g.prolog.code.size + i.pc) := by
    rw [List.map_map]
    rfl
  rw [List.map_append, List.map_append, List.map_append, hhoisted, hshifted, hbody, hlines]

/-- A unit that starts on line 7, part of the way through. -/
def unitOnSeven (current : SectionKind) (prolog main : CodeSection) (spans : SpanTable) : Generator :=
  { Generator.new "unit" 7 .standard with current, prolog, main, spans }

/-- A hoisted instruction on line 9. -/
def hoistedNop : CodeSection := ⟨#[Opcode.nop.toByte], #[64, 9], 0, 9⟩

/-- The table with a jump over more than 16 bits, and what has been entered since. -/
def farGoto (more : Array Span) : SpanTable :=
  ⟨#[⟨0, 1, .target 0⟩] ++ more, ⟨#[40000], .node 0 0 .leaf .leaf, [], 1⟩, true, 0⟩

/-- Hoisted code, then a jump on line 12 that has to be widened, then a switch on line 8. -/
def gotoAndSwitch : Generator :=
  unitOnSeven .main hoistedNop
    ⟨#[Opcode.goto.toByte, 0, 0, Opcode.tableSwitch.toByte, 1, 0, 0, 0, 0, 0, 2, 0],
      #[64, 12, 67, 8], 3, 8⟩
    (farGoto #[⟨3, 4, .unset⟩, ⟨3, 10, .unset⟩])

/-- The jump is two bytes longer, and the note of the last line is two bytes further on. -/
def gotoAndSwitchResolved : Generator :=
  { gotoAndSwitch with
    main := ⟨#[Opcode.gotoX.toByte, 0x42, 0x9c, 0, 0, Opcode.tableSwitch.toByte, 0, 0, 0, 0, 0, 0, 0,
      0], #[64, 12, 69, 8], 5, 8⟩
    spans := gotoAndSwitch.spans.reset 14 }

theorem gotoAndSwitch_emission :
    Emission 7 gotoAndSwitch ⟨[⟨0, 1, 9⟩], [⟨0, 3, 12⟩, ⟨3, 9, 8⟩]⟩ := by
  have hnew : Emission 7 (unitOnSeven .prolog (.empty 7) (.empty 7) .empty) ⟨[], []⟩ :=
    .aside (.new "unit" .standard (by decide)) rfl rfl rfl rfl
  have hnine : Emission 7 (unitOnSeven .prolog ⟨#[], #[64, 9], 0, 9⟩ (.empty 7) .empty) ⟨[], []⟩ :=
    .note (.updateLine 9) hnew (show (9 : UInt32).toNat < operandLimit by decide) rfl
  have hnop := Emission.code (.instruction .nop #[]) hnine rfl (fun e he => by cases he)
    fun hbuild => by cases hbuild
  have hmain : Emission 7 (unitOnSeven .main hoistedNop (.empty 7) .empty) ⟨[⟨0, 1, 9⟩], []⟩ :=
    .aside hnop rfl rfl rfl rfl
  have htwelve : Emission 7 (unitOnSeven .main hoistedNop ⟨#[], #[64, 12], 0, 12⟩ .empty)
      ⟨[⟨0, 1, 9⟩], []⟩ :=
    .note (.updateLine 12) hmain (show (12 : UInt32).toNat < operandLimit by decide) rfl
  have hjump : Emission 7
      (unitOnSeven .main hoistedNop ⟨#[Opcode.goto.toByte, 0, 0], #[64, 12], 0, 12⟩ (farGoto #[]))
      ⟨[⟨0, 1, 9⟩], [⟨0, 3, 12⟩]⟩ :=
    .code (.jump .goto 40000) htwelve rfl (fun e he => by cases he) fun _ => ⟨[], rfl, rfl⟩
  have height : Emission 7
      (unitOnSeven .main hoistedNop ⟨#[Opcode.goto.toByte, 0, 0], #[64, 12, 67, 8], 3, 8⟩
        (farGoto #[])) ⟨[⟨0, 1, 9⟩], [⟨0, 3, 12⟩]⟩ :=
    .note (.updateLine 8) hjump (show (8 : UInt32).toNat < operandLimit by decide) rfl
  have hzeroed := Emission.code (.zeroed .tableSwitch 8) height rfl (fun e he op hop => by
    obtain rfl := List.mem_singleton.mp he
    exact ⟨op, hop, .inl rfl⟩) fun hbuild => by cases hbuild
  have hswitch : Emission 7
      (unitOnSeven .main hoistedNop
        ⟨#[Opcode.goto.toByte, 0, 0, Opcode.tableSwitch.toByte, 0, 0, 0, 0, 0, 0, 0, 0],
          #[64, 12, 67, 8], 3, 8⟩ (farGoto #[])) ⟨[⟨0, 1, 9⟩], [⟨0, 3, 12⟩, ⟨3, 9, 8⟩]⟩ :=
    .aside hzeroed rfl rfl rfl rfl
  refine .register (i := ⟨3, .tableSwitch, 9⟩) hswitch rfl ⟨?_, ?_, by decide, rfl, rfl, ?_, ?_⟩ rfl
  · exact ⟨[⟨0, .goto, 3⟩, ⟨3, .tableSwitch, 9⟩],
      ⟨rfl, by decide, by decide, rfl, by decide, by decide, rfl⟩, rfl⟩
  · decide
  · decide
  · decide

theorem gotoAndSwitch_resolves :
    Emit.resolveSpans gotoAndSwitch = .ok () gotoAndSwitchResolved := by
  simp only [Emit.resolveSpans, Emit.get_bind]
  rw [if_neg (by decide)]
  simp only [Emit.lift_bind_ok, Emit.modify_bind]
  refine ⟨[⟨0, .goto, [⟨1, 1, .target 0⟩]⟩,
      ⟨3, .tableSwitch, [⟨4, 4, .unset⟩, ⟨10, 10, .unset⟩]⟩], rfl,
    ⟨[⟨0, .gotoX, [⟨1, 1, .target 0⟩]⟩, ⟨3, .tableSwitch, [⟨4, 6, .unset⟩, ⟨10, 12, .unset⟩]⟩],
      ⟨#[40002], .node 0 0 .leaf .leaf, [], 1⟩, 2, 2⟩,
    by decide +kernel, gotoAndSwitchResolved.main.code, by decide +kernel, ?_⟩
  rw [if_pos (by decide)]
  simp only [Emit.lift_bind_ok, Emit.modify_bind]
  have hregions : gotoAndSwitch.regions = #[] := rfl
  exact ⟨(#[64, 12, 69, 8], 2), by decide +kernel, #[], by rw [hregions, Array.mapM_empty]; rfl, rfl⟩

theorem finish_lines_gotoAndSwitch : ∃ s g', Emit.finish gotoAndSwitch = .ok s g' ∧
    (instructions s.code).map Instruction.op = [.nop, .gotoX, .tableSwitch] ∧
    (instructions s.code).map (fun i => s.lineAt i.pc) = [.ok 9, .ok 12, .ok 8] := by
  obtain ⟨s, g', hok, hcode⟩ : ∃ s g', Emit.finish gotoAndSwitch = .ok s g' ∧
      s.code = hoistedNop.code ++ gotoAndSwitchResolved.main.code := by
    simp only [Emit.finish, Emit.switchTo, Emit.modify_bind, Emit.bind_ok, Emit.get_bind,
      Emit.pure_ok]
    exact ⟨_, _, ⟨_, _, gotoAndSwitch_resolves, _, _, rfl, rfl, rfl⟩, rfl⟩
  have hprolog : Complete gotoAndSwitch.prolog.code [⟨0, 1, 9⟩] :=
    ⟨[⟨0, .nop, 1⟩], ⟨rfl, by decide, by decide, rfl⟩, rfl⟩
  have hmain : Complete gotoAndSwitch.main.code [⟨0, 3, 12⟩, ⟨3, 9, 8⟩] :=
    ⟨[⟨0, .goto, 3⟩, ⟨3, .tableSwitch, 9⟩],
      ⟨rfl, by decide, by decide, rfl, by decide, by decide, rfl⟩, rfl⟩
  refine ⟨s, g', hok, ?_, (finish_lines gotoAndSwitch_emission hprolog hmain hok).2⟩
  rw [hcode]
  decide

/-- A line note that does not come from a change of the line moves what comes behind it to another
line, while its section stays on the old one. -/
theorem lineAt_ne_of_newline_note : ∃ g₁ g₂ g₃ s g',
    Emit.instruction .nop #[] (Generator.new "unit" 7 .standard) = .ok 0 g₁ ∧
    Emit.note .newline g₁ = .ok 0 g₂ ∧ g₂.main.line = 7 ∧
    Emit.instruction .nop #[] g₂ = .ok 1 g₃ ∧
    Emit.finish g₃ = .ok s g' ∧ s.mainOffset = 0 ∧ s.lineAt 1 = .ok 8 :=
  ⟨_, _, _, _, _, rfl, rfl, rfl, rfl, rfl, rfl, by decide⟩

end ScriptCompiler
