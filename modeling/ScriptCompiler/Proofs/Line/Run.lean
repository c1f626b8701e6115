import ScriptCompiler.Proofs.Line.Emission

/-!
# What a run keeps

Along a run the notes of each section lead to the line in force and give every
logged instruction its line. While the table of spans is on, it lists offsets
of logged instructions. Resolution needs the second to keep the first: notes
and instructions move alike only if what grows are fields of instructions.
-/

namespace ScriptCompiler

open NoteBytes Emit Layout

variable {todo : Nat} {spans : SpanTable} {first : UInt32} {s s' : CodeSection}
  {log' : List LoggedInstruction} {g g' : Generator} {code' : Bytes}

/-! ## Whole instructions -/

section Whole

variable {code : Bytes} {is : List Instruction} {pc : Nat}

theorem Whole.behind {left right : List Instruction} {i : Instruction}
    (h : Whole code pc (left ++ i :: right)) : Whole code (i.pc + i.length) right := by
  induction left generalizing pc with
  | nil =>
    obtain ⟨hpc, -, -, hrest⟩ := h
    rwa [hpc]
  | cons j left ih => exact ih h.2.2.2

theorem Whole.apart (h : Whole code pc is) : is.Pairwise fun i j => i.pc + i.length ≤ j.pc := by
  induction is generalizing pc with
  | nil => exact .nil
  | cons i is ih =>
    obtain ⟨rfl, -, -, hrest⟩ := h
    exact .cons (fun j hj => (hrest.bounds.2 j hj).1) (ih hrest)

/-- Two instructions are one or do not overlap. -/
theorem Whole.disjoint (h : Whole code pc is) {i j : Instruction} (hi : i ∈ is) (hj : j ∈ is) :
    i = j ∨ i.pc + i.length ≤ j.pc ∨ j.pc + j.length ≤ i.pc := by
  induction is generalizing pc with
  | nil => cases hi
  | cons k is ih =>
    obtain ⟨hfront, -⟩ := List.pairwise_cons.mp h.apart
    rcases List.mem_cons.mp hi with rfl | hi' <;> rcases List.mem_cons.mp hj with rfl | hj'
    · exact .inl rfl
    · exact .inr (.inl (hfront j hj'))
    · exact .inr (.inr (hfront i hi'))
    · exact ih h.2.2.2 hi' hj'

theorem Whole.ends (h : Whole code pc is) :
    code.size = pc ∨ ∃ i ∈ is, code.size = i.pc + i.length := by
  induction is generalizing pc with
  | nil => exact .inl h.symm
  | cons i is ih =>
    obtain ⟨rfl, -, -, hrest⟩ := h
    rcases ih hrest with hend | ⟨j, hj, hend⟩
    · exact .inr ⟨i, by simp, hend⟩
    · exact .inr ⟨j, by simp [hj], hend⟩

end Whole

/-- Each entry of the log has its instruction. -/
theorem logged_instruction {is : List Instruction} {log : List LoggedInstruction}
    {e : LoggedInstruction} (hbounds : boundsOf is = loggedBounds log) (he : e ∈ log) :
    ∃ i ∈ is, i.pc = e.pc ∧ i.length = e.length := by
  rw [← mem_boundsOf, hbounds]
  exact List.mem_map_of_mem he

namespace Complete

variable {code : Bytes} {log : List LoggedInstruction}

theorem inside (h : Complete code log) : ∀ e ∈ log, e.pc + e.length ≤ code.size := by
  obtain ⟨is, hw, hbounds⟩ := h
  intro e he
  obtain ⟨i, hi, hpc, hlength⟩ := logged_instruction hbounds he
  have := (hw.bounds.2 i hi).2.1
  omega

/-- The code ends behind an instruction. -/
theorem ends (h : Complete code log) : code.size = 0 ∨ ∃ e ∈ log, code.size = e.pc + e.length := by
  obtain ⟨is, hw, hbounds⟩ := h
  rcases hw.ends with hend | ⟨i, hi, hend⟩
  · exact .inl hend
  · have hmem : (i.pc, i.length) ∈ loggedBounds log := hbounds ▸ List.mem_map_of_mem hi
    obtain ⟨e, he, heq⟩ := List.mem_map.mp hmem
    obtain ⟨hpc, hlength⟩ := Prod.mk.inj heq
    exact .inr ⟨e, he, by omega⟩

/-- The instructions from the end of one of them on. -/
theorem since (h : Complete code log) (htodo : todo = 0 ∨ ∃ e ∈ log, todo = e.pc + e.length) :
    ∃ is, Whole code todo is ∧ ∀ i ∈ is, (i.pc, i.length) ∈ loggedBounds log := by
  obtain ⟨is, hw, hbounds⟩ := h
  have hlogged : ∀ i ∈ is, (i.pc, i.length) ∈ loggedBounds log :=
    fun i hi => hbounds ▸ List.mem_map_of_mem hi
  rcases htodo with rfl | ⟨e, he, rfl⟩
  · exact ⟨is, hw, hlogged⟩
  · obtain ⟨i, hi, hpc, hlength⟩ := logged_instruction hbounds he
    obtain ⟨left, right, rfl⟩ := List.append_of_mem hi
    refine ⟨right, ?_, fun j hj => hlogged j (by simp [hj])⟩
    rw [← hpc, ← hlength]
    exact hw.behind

/-- Each instruction of the code has its entry in the log. -/
theorem zip {is : List Instruction} (h : boundsOf is = loggedBounds log) :
    is.length = log.length ∧ ∀ p ∈ is.zip log, p.1.pc = p.2.pc ∧ p.1.length = p.2.length := by
  have hlength : is.length = log.length := by
    simpa [boundsOf, loggedBounds] using congrArg List.length h
  refine ⟨hlength, fun p hp => ?_⟩
  have hall : List.Forall₂ (fun i e => (i.pc, i.length) = (e.pc, e.length)) is log := by
    rw [boundsOf, loggedBounds, ← List.forall₂_eq_eq_eq, List.forall₂_map_left_iff,
      List.forall₂_map_right_iff] at h
    exact h
  exact Prod.mk.inj ((List.forall₂_iff_zip.mp hall).2 hp)

end Complete

/-! ## The invariant -/

/-- The notes of a section lead to its line. -/
structure SectionKept (first : UInt32) (s : CodeSection) (log : List LoggedInstruction) : Prop where
  small : s.line.toNat < operandLimit
  stream : ∃ cs, Says first s log s.line cs

/-- What the table of spans knows are instructions of the log. -/
structure TableKept (code : Bytes) (spans : SpanTable) (log : List LoggedInstruction) : Prop where
  sound : spans.targets.Sound
  /-- Resolution has got as far as the end of an instruction. -/
  todo : spans.todo = 0 ∨ ∃ e ∈ log, spans.todo = e.pc + e.length
  inside : ∀ e ∈ log, e.pc + e.length ≤ code.size
  idle : spans.active = false → spans.pairs = []
  charted : spans.active = true → ∃ js, Chart code (loggedBounds log) spans js

/-- What every run keeps. -/
structure Kept (first : UInt32) (g : Generator) (log : EmissionLog) : Prop where
  firstLine : g.firstLine = first
  prolog : SectionKept first g.prolog log.prolog
  main : SectionKept first g.main log.main
  table : TableKept g.main.code g.spans log.main

theorem TableKept.todo_le {code : Bytes} {log : List LoggedInstruction}
    (h : TableKept code spans log) : spans.todo ≤ code.size := by
  rcases h.todo with hzero | ⟨e, he, hend⟩
  · omega
  · have := h.inside e he
    omega

theorem Kept.new (filename : String) (limits : Limits) (hfirst : first.toNat < operandLimit) :
    Kept first (Generator.new filename first limits) ⟨[], []⟩ where
  firstLine := rfl
  prolog := ⟨hfirst, [], rfl, rfl, Nat.le_refl 0, rfl, by simp⟩
  main := ⟨hfirst, [], rfl, rfl, Nat.le_refl 0, rfl, by simp⟩
  table := ⟨TargetIndex.sound_empty, .inl rfl, by simp, fun _ => rfl, fun h => by cases h⟩

/-! ## Operations on code -/

theorem SectionKept.change {log : List LoggedInstruction} (h : SectionKept first s log)
    (hs : ∃ code, s' = { s with code } ∧ s.code.size ≤ code.size) :
    SectionKept first s' (extendLog log s s') := by
  obtain ⟨hsmall, cs, hstream⟩ := h
  obtain ⟨code, rfl, hsize⟩ := hs
  refine ⟨hsmall, cs, ?_⟩
  rw [extendLog]
  split
  · rename_i hlt
    exact hstream.append hlt _
  · rename_i hnot
    exact hstream.recode (Nat.le_antisymm hsize (Nat.le_of_not_lt hnot))

theorem mem_extendLog {log : List LoggedInstruction} {e : LoggedInstruction} (he : e ∈ log) :
    e ∈ extendLog log s s' := by
  rw [extendLog]
  split <;> simp [he]

/-- The instructions entered when the table is turned on. -/
theorem Chart.of_whole {code : Bytes} {bounds : List (Nat × Nat)} {is : List Instruction}
    (hw : Whole code spans.todo is) (hlogged : ∀ i ∈ is, (i.pc, i.length) ∈ bounds)
    (hpairs : spans.pairs = offsetPairs (narrowJumps is)) :
    Chart code bounds spans (narrowJumps is) where
  listed := hpairs
  apart := hw.apart.filter _
  each j hj := by
    obtain ⟨hj, hnarrow⟩ := List.mem_filter.mp hj
    have hnarrow : j.op.format.jumpLen = some 2 := by simpa using hnarrow
    obtain ⟨hlo, -, hop, hlen⟩ := hw.bounds.2 j hj
    refine ⟨hnarrow, ?_, j.fieldsOrdered hop hlen (by rw [Opcode.isWide, hnarrow]; rfl), hlo,
      hlogged j hj⟩
    cases hs : j.op.format.isSwitch with
    | true => exact .inr ⟨rfl, hop⟩
    | false =>
      obtain ⟨-, ⟨-, hl⟩ | ⟨hs', -⟩⟩ := (instructionLength?_eq_some hop).mp hlen
      · rw [Opcode.length_of_jump hnarrow hs] at hl
        exact .inl ⟨rfl, (Option.some.inj hl).symm⟩
      · rw [hs] at hs'
        cases hs'

/-- A charted instruction stays charted when opcodes are rewritten. -/
theorem Charted.rewrite {code : Bytes} {log : List LoggedInstruction} {j : Instruction}
    (h : Charted code (loggedBounds log) todo j) (hr : RewritesAlike log code code')
    (hsub : ∀ e ∈ log, e ∈ log') : Charted code' (loggedBounds log') todo j := by
  obtain ⟨e, he, heq⟩ := List.mem_map.mp h.logged
  obtain ⟨hpc, -⟩ := Prod.mk.inj heq
  refine ⟨h.narrow, ?_, h.ordered, h.recent, heq ▸ List.mem_map_of_mem (hsub e he)⟩
  obtain hjump | ⟨hs, hop⟩ := h.kind
  · exact .inl hjump
  · obtain ⟨op', hop', rfl | ⟨hlength, -⟩⟩ := hr e he j.op (hpc ▸ hop)
    · exact .inr ⟨hs, hpc ▸ hop'⟩
    · rw [Opcode.length_of_switch hs] at hlength
      cases hlength

/-- A jump at the end of the code as the table sees it. -/
theorem Charted.jump {code : Bytes} {bounds : List (Nat × Nat)} {pc : Nat} (htodo : todo ≤ pc)
    (hlogged : (pc, 3) ∈ bounds) : Charted code bounds todo ⟨pc, .goto, 3⟩ :=
  ⟨rfl, .inl ⟨rfl, rfl⟩, ⟨Nat.le_refl _, Nat.le_refl _⟩, htodo, hlogged⟩

/-- The chart goes on when opcodes are rewritten and destinations change. -/
theorem Chart.rewrite {code : Bytes} {log : List LoggedInstruction} {spans' : SpanTable}
    {js : List Instruction} (h : Chart code (loggedBounds log) spans js)
    (hr : RewritesAlike log code code') (hsub : ∀ e ∈ log, e ∈ log')
    (htodo : spans'.todo = spans.todo) (hpairs : spans'.pairs = spans.pairs) :
    Chart code' (loggedBounds log') spans' js where
  listed := hpairs.trans h.listed
  apart := h.apart
  each j hj := by
    rw [htodo]
    exact (h.each j hj).rewrite hr hsub

/-- One more instruction enters the chart, behind the others. -/
theorem Chart.enter {code : Bytes} {bounds : List (Nat × Nat)} {spans' : SpanTable}
    {js : List Instruction} {j : Instruction} (h : Chart code bounds spans js)
    (hj : Charted code bounds spans.todo j) (hbehind : ∀ i ∈ js, i.pc + i.length ≤ j.pc)
    (htodo : spans'.todo = spans.todo) (hpairs : spans'.pairs = spans.pairs ++ offsetPairs [j]) :
    Chart code bounds spans' (js ++ [j]) where
  listed := by
    have hlisted : spans.pairs = offsetPairs js := h.listed
    rw [hlisted, offsetPairs, offsetPairs, ← List.flatMap_append] at hpairs
    exact hpairs
  apart := List.pairwise_append.mpr ⟨h.apart, by simp, fun i hi k hk => by
    obtain rfl := List.mem_singleton.mp hk
    exact hbehind i hi⟩
  each k hk := by
    rw [htodo]
    rcases List.mem_append.mp hk with hk | hk
    · exact h.each k hk
    · rwa [List.mem_singleton.mp hk]

/-- The chart after an operation that enters at most one more jump. -/
theorem Chart.change {code : Bytes} {log : List LoggedInstruction} {spans' : SpanTable}
    {js : List Instruction} (h : Chart code (loggedBounds log) spans js)
    (hr : RewritesAlike log code code') (hsub : ∀ e ∈ log, e ∈ log')
    (hinside : ∀ e ∈ log, e.pc + e.length ≤ code.size) (htodo : spans'.todo = spans.todo)
    (htodo_le : spans.todo ≤ code.size) {more : List (Nat × Nat)}
    (hpairs : spans'.pairs = spans.pairs ++ more)
    (hmore : more = [] ∨ more = [(code.size, code.size + 1)] ∧ (code.size, 3) ∈ loggedBounds log') :
    ∃ js', Chart code' (loggedBounds log') spans' js' := by
  obtain rfl | ⟨rfl, hlogged⟩ := hmore
  · exact ⟨js, h.rewrite hr hsub htodo (by rwa [List.append_nil] at hpairs)⟩
  · have hold : Chart code' (loggedBounds log') spans js := h.rewrite hr hsub rfl rfl
    refine ⟨_, hold.enter (.jump htodo_le hlogged) (fun i hi => ?_) htodo hpairs⟩
    obtain ⟨e, he, heq⟩ := List.mem_map.mp (h.each i hi).logged
    obtain ⟨hpc, hlength⟩ := Prod.mk.inj heq
    have := hinside e he
    show i.pc + i.length ≤ code.size
    omega

theorem CodeOperation.active_of_builds {operation : CodeOperation} (h : operation.builds g) :
    g.spans.active = false := by
  cases operation <;> simp_all [builds]

theorem Kept.code {log : EmissionLog} (h : Kept first g log) (operation : CodeOperation)
    (hok : operation.run g = .ok () g')
    (hrewrites : RewritesAlike log.main g.main.code g'.main.code)
    (hbuild : operation.builds g → Complete g.main.code log.main) :
    Kept first g' (log.extend g g') := by
  obtain ⟨is, his⟩ : ∃ is, operation.builds g = true → Whole g.main.code g.spans.todo is ∧
      ∀ i ∈ is, (i.pc, i.length) ∈ loggedBounds log.main := by
    by_cases hb : operation.builds g = true
    · obtain ⟨is, hw⟩ := (hbuild hb).since h.table.todo
      exact ⟨is, fun _ => hw⟩
    · exact ⟨[], fun hb' => absurd hb' hb⟩
  have hchange := operation.change h.table.sound (fun hb => (his hb).1) hok
  obtain ⟨code, hmain, hsize⟩ := hchange.main
  have hsize : g.main.code.size ≤ g'.main.code.size := by
    rw [hmain]
    exact hsize
  have hsub : ∀ e ∈ log.main, e ∈ extendLog log.main g.main g'.main := fun e => mem_extendLog
  refine ⟨hchange.firstLine.trans h.firstLine, h.prolog.change hchange.prolog,
    h.main.change hchange.main, hchange.sound, ?_, fun e he => ?_, fun hoff => ?_, fun hon => ?_⟩
  · rw [hchange.todo]
    exact h.table.todo.imp_right fun ⟨e, he, hend⟩ => ⟨e, hsub e he, hend⟩
  · change e ∈ extendLog log.main g.main g'.main at he
    rw [extendLog] at he
    split at he
    · rename_i hgrown
      rcases List.mem_append.mp he with he | he
      · have := h.table.inside e he
        omega
      · obtain rfl := List.mem_singleton.mp he
        show g.main.code.size + (g'.main.code.size - g.main.code.size) ≤ g'.main.code.size
        omega
    · have := h.table.inside e he
      omega
  · have hactive := hchange.active.symm.trans hoff
    obtain ⟨hwas, hnot⟩ := Bool.or_eq_false_iff.mp hactive
    obtain ⟨more, hpairs, rfl | ⟨hon, -⟩⟩ := hchange.pairs
    · rw [hpairs, h.table.idle hwas, hnot]
      rfl
    · rw [hoff] at hon
      cases hon
  · obtain ⟨more, hpairs, hmore⟩ := hchange.pairs
    have hjump : more = [] ∨ more = [(g.main.code.size, g.main.code.size + 1)] ∧
        (g.main.code.size, 3) ∈ loggedBounds (extendLog log.main g.main g'.main) := by
      refine hmore.imp_right fun hmore => ⟨hmore.2.1, ?_⟩
      have hgrown := hmore.2.2
      rw [extendLog, if_pos (by omega), hgrown, Nat.add_sub_cancel_left]
      simp [loggedBounds]
    cases hb : operation.builds g with
    | false =>
      have hwas : g.spans.active := by
        rw [hchange.active, hb, Bool.or_false] at hon
        exact hon
      obtain ⟨js, hchart⟩ := h.table.charted hwas
      rw [hb, if_neg Bool.false_ne_true, List.append_nil] at hpairs
      exact hchart.change hrewrites hsub h.table.inside hchange.todo h.table.todo_le hpairs hjump
    | true =>
      -- the table as it is right behind the scan, before the operation goes on
      obtain ⟨hw, hlogged⟩ := his hb
      have hnone := h.table.idle (CodeOperation.active_of_builds hb)
      rw [hb, if_pos rfl, hnone, List.nil_append] at hpairs
      have hscanned : Chart g.main.code (loggedBounds log.main)
          { g.spans with spans := ((offsetPairs (narrowJumps is)).map fun p =>
            (⟨p.1, p.2, .unset⟩ : Span)).toArray } (narrowJumps is) :=
        .of_whole hw hlogged (by simp [SpanTable.pairs, Function.comp_def])
      exact hscanned.change hrewrites hsub h.table.inside hchange.todo h.table.todo_le
        (by simpa [SpanTable.pairs, Function.comp_def] using hpairs) hjump

/-- Marks on the fields of one instruction leave all opcodes. -/
theorem RewritesAlike.of_marks {log : List LoggedInstruction} {is : List Instruction}
    {i : Instruction} (hw : Whole g.main.code 0 is) (hbounds : boundsOf is = loggedBounds log)
    (hi : i ∈ is) (hnarrow : i.op.isWide = false) (hmarks : Marks g g' (offsetPairs [i])) :
    RewritesAlike log g.main.code g'.main.code := by
  intro e he op hop
  refine ⟨op, ?_, .inl rfl⟩
  rw [← hop, opcodeAt?, opcodeAt?, hmarks.2 e.pc fun p hp => ?_]
  obtain ⟨k, hk, hpc, -⟩ := logged_instruction hbounds he
  obtain ⟨-, -, hopcode, hlen⟩ := hw.bounds.2 i hi
  obtain ⟨field, hfield, rfl⟩ : ∃ field ∈ i.fields, (i.pc, field) = p := by
    simpa [offsetPairs] using hp
  have hinside := (fieldsOrdered_bounds (i.fieldsOrdered hopcode hlen hnarrow)).2 field hfield
  show e.pc < field ∨ field + 2 ≤ e.pc
  rcases hw.disjoint hk hi with rfl | hfront | hbehind <;> omega

/-- A switch is entered behind what the table knows. -/
theorem Kept.register {log : EmissionLog} {i : Instruction} {next : Nat} (h : Kept first g log)
    (hon : g.spans.active = true) (hnew : NewSwitch g log.main i)
    (hok : addSwitch i.pc g = .ok next g') : Kept first g' log := by
  obtain ⟨⟨is, hw, hbounds⟩, hlogged, hop, hnarrow, hswitch, hrecent, hbehind⟩ := hnew
  obtain ⟨k, hk, hpc, hlength⟩ := mem_boundsOf.mp (hbounds ▸ hlogged)
  obtain ⟨-, -, hkop, hlen⟩ := hw.bounds.2 k hk
  obtain rfl : k = i := by
    rw [hpc, hop] at hkop
    cases k
    cases i
    simp_all
  have hwide : k.op.isWide = false := by
    rw [Opcode.isWide, hnarrow]
    rfl
  rw [addSwitch_eq hop hlen hnarrow hswitch] at hok
  simp only [bind_ok, pure_ok] at hok
  obtain ⟨_, _, hok, -, rfl⟩ := hok
  have hfields : k.fields.map (fun field => (k.pc, field)) = offsetPairs [k] := by
    rw [offsetPairs, List.flatMap_singleton]
  rw [hfields] at hok
  have hrewrites := RewritesAlike.of_marks hw hbounds hk hwide (enterOffsets_marks hok)
  obtain ⟨code, spans, rfl, hgrows, hpairs, hsize⟩ := enterOffsets_enters h.table.sound hok
  obtain ⟨hsmall, cs, hstream⟩ := h.main
  refine ⟨h.firstLine, h.prolog, ⟨hsmall, cs, hstream.recode hsize.symm⟩, hgrows.sound,
    hgrows.todo ▸ h.table.todo, fun e he => hsize ▸ h.table.inside e he, fun hoff => ?_, fun _ => ?_⟩
  · have hoff : spans.active = false := hoff
    rw [hgrows.active, hon] at hoff
    cases hoff
  · obtain ⟨js, hchart⟩ := h.table.charted hon
    have hold : Chart code (loggedBounds log.main) g.spans js :=
      hchart.rewrite hrewrites (fun _ => id) rfl rfl
    have hnew : Charted g.main.code (loggedBounds log.main) g.spans.todo k :=
      ⟨hnarrow, .inr ⟨hswitch, hop⟩, k.fieldsOrdered hop hlen hwide, hrecent, hlogged⟩
    refine ⟨_, hold.enter (hnew.rewrite hrewrites fun _ => id) (fun j hj => ?_) hgrows.todo hpairs⟩
    -- an instruction of the table is one of the code, and starts in front of the switch
    obtain ⟨j', hj', hpc', hlength'⟩ := mem_boundsOf.mp (hbounds ▸ (hchart.each j hj).logged)
    obtain ⟨field, hfield⟩ := List.exists_mem_of_ne_nil _ (hchart.each j hj).fields_ne_nil
    have hlisted : g.spans.pairs = offsetPairs js := hchart.listed
    have hfront : j.pc < k.pc := hbehind (j.pc, field) (by
      rw [hlisted]
      exact List.mem_flatMap.mpr ⟨j, hj, List.mem_map_of_mem hfield⟩)
    rcases hw.disjoint hj' hk with rfl | hend | hend <;> omega

/-! ## Operations on notes -/

/-- Operations on notes touch the current section alone. -/
theorem NoteOperation.noted (operation : NoteOperation) (hok : operation.run g = .ok () g') :
    Noted g g' := by
  cases operation with
  | note kind =>
    simp only [run, bind_ok, pure_ok] at hok
    obtain ⟨_, _, hok, -, rfl⟩ := hok
    exact note_noted hok
  | setNote position which value => exact setNote_noted hok
  | updateLine line => exact updateLine_noted hok

/-- Operations on notes lead to the line of the section. -/
theorem SectionKept.note {log : List LoggedInstruction} (h : SectionKept first g.currentSection log)
    (operation : NoteOperation) (hallowed : operation.Allowed g) (hok : operation.run g = .ok () g') :
    SectionKept first g'.currentSection log := by
  obtain ⟨hsmall, cs, hstream⟩ := h
  cases operation with
  | note kind =>
    obtain ⟨hproper, hnewline, hset⟩ := hallowed
    simp only [NoteOperation.run, bind_ok, pure_ok] at hok
    obtain ⟨_, _, hok, -, rfl⟩ := hok
    obtain ⟨hstream', hline⟩ :=
      note_says hstream hproper (fun _ => PlacedNote.line_eq hnewline hset _) hok
    exact ⟨hline ▸ hsmall, hline ▸ hstream'⟩
  | setNote position which value =>
    obtain ⟨note, hmem, hwhich, hkind⟩ := hallowed
    obtain ⟨hstream', hline⟩ := setNote_says hstream hmem hwhich hkind hok
    exact ⟨hline ▸ hsmall, hline ▸ hstream'⟩
  | updateLine line =>
    obtain ⟨hstream', hline⟩ := updateLine_says hstream hsmall hallowed hok
    exact ⟨hline ▸ hallowed, hline ▸ hstream'⟩

theorem Kept.note {log : EmissionLog} (h : Kept first g log) (operation : NoteOperation)
    (hallowed : operation.Allowed g) (hok : operation.run g = .ok () g') : Kept first g' log := by
  obtain ⟨notes, last, line, hg'⟩ := operation.noted hok
  cases hcurrent : g.current with
  | prolog =>
    have hsection : g.currentSection = g.prolog := by rw [Generator.currentSection, hcurrent]
    have hkept := SectionKept.note (hsection ▸ h.prolog) operation hallowed hok
    simp only [Generator.modifySection, hcurrent] at hg'
    subst hg'
    exact ⟨h.firstLine, hkept, h.main, h.table⟩
  | main =>
    have hsection : g.currentSection = g.main := by rw [Generator.currentSection, hcurrent]
    have hkept := SectionKept.note (hsection ▸ h.main) operation hallowed hok
    simp only [Generator.modifySection, hcurrent] at hg'
    subst hg'
    exact ⟨h.firstLine, h.prolog, hkept, h.table⟩

/-! ## Resolution -/

/-- Line notes measure no distance. -/
theorem PlacedNote.line_relocate (at' : Nat → Nat) (n : PlacedNote) (line : UInt32) :
    (n.relocate at').line line = n.line line := by
  obtain ⟨kind, offset, operands⟩ := n
  cases kind <;> rfl

theorem relocateLog_eq {code : Bytes} {is : List Instruction} (hw : Whole code 0 is)
    (log : List LoggedInstruction) :
    relocateLog code log = (is.zip log).map fun p => ⟨p.1.pc, p.1.length, p.2.line⟩ := by
  rw [relocateLog, instructions_of_whole hw]

/-- Code that keeps the number of its instructions is made of those of the new log, on the lines of
the old one. -/
theorem Complete.relocate {code : Bytes} {is : List Instruction} {log : List LoggedInstruction}
    (hw : Whole code 0 is) (hlength : is.length = log.length) :
    Complete code (relocateLog code log) ∧
      (relocateLog code log).map LoggedInstruction.line = log.map LoggedInstruction.line := by
  refine ⟨⟨is, hw, ?_⟩, ?_⟩
  · rw [relocateLog_eq hw, loggedBounds, boundsOf, List.map_map]
    calc is.map (fun i => (i.pc, i.length))
        = ((is.zip log).map Prod.fst).map fun i => (i.pc, i.length) := by
          rw [List.map_fst_zip (Nat.le_of_eq hlength)]
      _ = _ := by
          rw [List.map_map]
          rfl
  · rw [relocateLog_eq hw, List.map_map]
    calc (is.zip log).map (fun p => p.2.line)
        = ((is.zip log).map Prod.snd).map LoggedInstruction.line := by
          rw [List.map_map]
          rfl
      _ = _ := by rw [List.map_snd_zip (Nat.le_of_eq hlength.symm)]

/-- Code that has not moved keeps its log. -/
theorem Complete.relocateLog_self {code : Bytes} {log : List LoggedInstruction}
    (h : Complete code log) : relocateLog code log = log := by
  obtain ⟨is, hw, hbounds⟩ := h
  obtain ⟨hlength, hzip⟩ := Complete.zip hbounds
  rw [relocateLog_eq hw, List.map_congr_left (g := Prod.snd), List.map_snd_zip]
  · exact Nat.le_of_eq hlength.symm
  · intro p hp
    obtain ⟨hpc, hlen⟩ := hzip p hp
    rw [hpc, hlen]

/-- The notes of code that has grown, as far as lines go. -/
structure NotesMoved (at' : Nat → Nat) (s : CodeSection) (notes : Bytes) (last : Nat)
    (cs cs' : List CodedNote) : Prop where
  spells : Spells notes cs'
  extent : CodedNote.extent cs' = last
  last : last = at' s.lastNoteOffset
  placed : List.Forall₂ (fun n n' : PlacedNote => n'.offset = at' n.offset ∧
    ∀ line, n'.line line = n.line line) (CodedNote.placed 0 cs) (CodedNote.placed 0 cs')

/-- Code and notes that grow alike keep the lines of all instructions. -/
theorem Says.moved {line : UInt32} {log : List LoggedInstruction} {cs cs' : List CodedNote}
    (h : Says first s log line cs) {W : List Nat} {code notes : Bytes} {last : Nat}
    (hnotes : NotesMoved (Layout.grown W) s notes last cs cs')
    (hsize : code.size = Layout.grown W s.code.size)
    (hlog : ∀ e' ∈ log', ∃ e ∈ log, e'.pc = Layout.grown W e.pc ∧ e'.line = e.line) :
    Says first { s with code, notes, lastNoteOffset := last } log' line cs' := by
  refine ⟨hnotes.spells, hnotes.extent, ?_, ?_, fun e' he' => ?_⟩
  · show last ≤ code.size
    rw [hnotes.last, hsize]
    exact grown_le_grown W h.inside
  · rw [lineAfter_congr_all (hnotes.placed.imp fun n n' hn => hn.2)]
    exact h.after
  · obtain ⟨e, he, hpc, hline⟩ := hlog e' he'
    obtain ⟨hinside, hstream⟩ := h.each e he
    rw [hpc, hline]
    refine ⟨?_, ?_⟩
    · show Layout.grown W e.pc < code.size
      rw [hsize]
      exact grown_lt_grown W hinside
    · rw [lineAfter_congr (hnotes.placed.imp fun n n' hn => ⟨?_, hn.2⟩)]
      · exact hstream
      · rw [hn.1, ← Nat.not_lt, ← Nat.not_lt, grown_lt_grown_iff]

/-- Resolution moves notes and instructions alike. -/
theorem Kept.resolve {log : EmissionLog} (h : Kept first g log)
    (hcomplete : Complete g.main.code log.main) (hok : resolveSpans g = .ok () g') :
    Kept first g' ⟨log.prolog, relocateLog g'.main.code log.main⟩ ∧
      Complete g'.main.code (relocateLog g'.main.code log.main) ∧
      (relocateLog g'.main.code log.main).map LoggedInstruction.line =
        log.main.map LoggedInstruction.line := by
  cases hon : g.spans.active with
  | false =>
    obtain rfl := resolveSpans_off hon hok
    rw [hcomplete.relocateLog_self]
    exact ⟨h, hcomplete, rfl⟩
  | true =>
    obtain ⟨sites, layout, code, notes, last, regions, hsites, hlayout, hcode, hnotes, -, rfl⟩ :=
      resolveSpans_ok hon hok
    obtain ⟨is, hw, hbounds⟩ := hcomplete
    obtain ⟨js, hchart⟩ := h.table.charted hon
    rw [← hbounds] at hchart
    obtain ⟨hcovers, horder, hplace⟩ := hchart.sites hw h.table.todo_le hsites
    obtain ⟨wide, hd, -⟩ := settle_unmoved ⟨⟨_, _, horder⟩, hcovers.narrow⟩ hplace hlayout
    have hr := relocate_ok horder hcovers.narrow hd hcode
    have hwhole := hcovers.whole hw horder hd.promotable hr
    rw [grown_zero] at hwhole
    obtain ⟨W, hW⟩ : ∃ W, W = widenedFields sites wide := ⟨_, rfl⟩
    have hsize := hr.size
    obtain ⟨hlength, hzip⟩ := Complete.zip hbounds
    obtain ⟨hnew, hlines⟩ :=
      Complete.relocate hwhole (show _ = log.main.length by rw [List.length_map, hlength])
    obtain ⟨hsmall, cs, hstream⟩ := h.main
    obtain ⟨cs', hmoved⟩ : ∃ cs', NotesMoved (Layout.grown W) g.main notes last cs cs' := by
      by_cases hgrowth : 0 < layout.growth
      · rw [if_pos hgrowth] at hnotes
        obtain ⟨grown, hfix, rfl⟩ := hnotes
        obtain ⟨cs', hspells, hplaced, hextent, hlast⟩ := fixNotes_ok (hd.follows horder)
          (grown_zero _) hstream.spells hfix
        rw [← hW] at hplaced hextent hlast
        rw [hstream.extent] at hextent hlast
        refine ⟨cs', hspells, hextent.trans hlast.symm, hlast, ?_⟩
        rw [hplaced, List.forall₂_map_right_iff]
        exact List.forall₂_same.mpr fun n _ => ⟨rfl, n.line_relocate _⟩
      · rw [if_neg hgrowth] at hnotes
        obtain ⟨rfl, rfl⟩ := hnotes
        have hnone : W = [] := by
          rw [hd.growth, ← hW] at hgrowth
          exact List.length_eq_zero_iff.mp (by omega)
        rw [hnone]
        exact ⟨cs, hstream.spells, hstream.extent, (grown_nil _).symm,
          List.forall₂_same.mpr fun n _ => ⟨(grown_nil _).symm, fun _ => rfl⟩⟩
    have hlog : ∀ e' ∈ relocateLog code log.main, ∃ e ∈ log.main,
        e'.pc = Layout.grown W e.pc ∧ e'.line = e.line := by
      intro e' he'
      rw [relocateLog_eq hwhole, List.zip_map_left, List.map_map] at he'
      obtain ⟨p, hp, rfl⟩ := List.mem_map.mp he'
      refine ⟨p.2, (List.of_mem_zip hp).2, ?_, rfl⟩
      rw [← (hzip p hp).1, hW]
      rfl
    refine ⟨⟨h.firstLine, h.prolog, ⟨hsmall, cs', hstream.moved hmoved (hW ▸ hsize) hlog⟩, ?_⟩, hnew,
      hlines⟩
    exact ⟨h.table.sound.clear, hnew.ends, hnew.inside, fun _ => rfl, fun hactive => by cases hactive⟩

/-! ## Runs -/

/-- What a run has kept so far. -/
theorem Emission.kept {log : EmissionLog} (h : Emission first g log) : Kept first g log := by
  induction h with
  | new filename limits hfirst => exact .new filename limits hfirst
  | code operation _ hok hrewrites hbuild ih => exact ih.code operation hok hrewrites hbuild
  | note operation _ hallowed hok ih => exact ih.note operation hallowed hok
  | register _ hon hnew hok ih => exact ih.register hon hnew hok
  | resolve _ hcomplete hok ih => exact (ih.resolve hcomplete hok).1
  | aside _ hfirst hprolog hmain hspans ih =>
    exact ⟨hfirst.trans ih.firstLine, hprolog ▸ ih.prolog, hmain ▸ ih.main,
      by rw [hmain, hspans]; exact ih.table⟩

end ScriptCompiler
