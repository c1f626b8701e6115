import ScriptCompiler.Proofs.Code.Chains
import ScriptCompiler.Proofs.Draft.Statements
import ScriptCompiler.Proofs.Note.Joining

/-!
# What a jump out of statements leaves behind

A jump out of statements first cleans up, from the innermost statement outward:
finally clauses are called, objects and iterators are let go, and the slots of
block-scoped names are dropped. What a finally clause that is running has on the
stack is popped, and pops that come one behind the other are done at once. Each
cleanup carries a note that hides it, and nothing else changes.
-/

namespace ScriptCompiler

open Bytes NoteBytes Generator Emit

variable {index count : Nat} {kind : StatementKind}

/-- One thing that is done on the way out of statements. -/
inductive Cleanup where
  /-- Call the finally clause of the statement at a position. -/
  | gosub (index : Nat)
  /-- Let the object of a with statement go. -/
  | leaveWith
  /-- Let an iterator go. -/
  | endIter
  /-- Drop the slots of block-scoped names. -/
  | leaveBlock (count : UInt16)
  /-- Pop values. -/
  | pops (count : Nat)
  deriving DecidableEq, Repr

namespace Cleanup

/-- What leaving a statement takes because of its kind. -/
def ofKind (index : Nat) : StatementKind → List Cleanup
  | .finallyClause => [.gosub index]
  | .withObject => [.leaveWith]
  | .forInLoop => [.endIter]
  | .subroutine => [.pops 2]
  | _ => []

/-- What leaving a statement takes because of the names it binds. -/
def ofScope (scope : Option BlockScope) : List Cleanup :=
  (scope.map fun s => leaveBlock s.count).toList

/-- One instruction for all pops, if there are any. -/
def flush (count : Nat) : List Cleanup := if 0 < count then [.pops count] else []

/-- Cleanups with the pops between two others done at once, `pops` of them put off so far. -/
def merge (pops : Nat) : List Cleanup → List Cleanup
  | [] => flush pops
  | .pops count :: rest => merge (pops + count) rest
  | c :: rest => flush pops ++ c :: merge 0 rest

/-- The opcode; calls of finally clauses are placeholders for now. -/
def opcode : Cleanup → Opcode
  | gosub _ => .backpatch
  | leaveWith => .leaveWith
  | endIter => .endIter
  | leaveBlock _ => .leaveBlock
  | pops _ => .popN

/-- The operand, apart from jump offsets. -/
def operand : Cleanup → Bytes
  | leaveBlock count => le16 count.toNat
  | pops count => le16 count
  | _ => #[]

/-- The bytes, apart from jump offsets. -/
def bytes (c : Cleanup) : List UInt8 := c.opcode.toByte :: c.operand.toList

/-- Number of bytes. -/
def size : Cleanup → Nat
  | gosub _ => 3
  | c => 1 + c.operand.size

end Cleanup

namespace StatementStack

/-- All that matters for leaving the statement at a position. -/
def shape (s : StatementStack) (index : Nat) : Option (StatementKind × Option BlockScope) :=
  s.entries[index]?.map fun e => (e.kind, e.scope)

/-- What leaving the statement at a position takes. -/
def contributions (s : StatementStack) (index : Nat) : List Cleanup :=
  ((s.shape index).map fun e => Cleanup.ofKind index e.1 ++ Cleanup.ofScope e.2).getD []

/-- What a jump out of all statements inside of a target takes, or out of all statements. -/
def cleanups (s : StatementStack) (target : Option Nat) : List Cleanup :=
  let stop := (target.map (· + 1)).getD 0
  Cleanup.merge 0 ((List.range' stop (s.size - stop)).reverse.flatMap s.contributions)

/-- The latest pending call of the finally clause of a statement. -/
def gosubs (s : StatementStack) (index : Nat) : Option Nat :=
  s.entries[index]?.bind OpenStatement.gosubs

end StatementStack

namespace Cleanup

/-- A cleanup at `pc` as a cell. The call of a finally clause is a link of the chain of its
statement. -/
def cell (pc : Nat) (s : StatementStack) : Cleanup → Cell Int
  | gosub index => .jump .backpatch (linkDistance pc (s.gosubs index).toList) ⟨0⟩
  | c => .plain c.opcode c.operand.toList ⟨0⟩

/-- The statements behind a cleanup at `pc`. The call of a finally clause joins the chain of its
statement. -/
def join (pc : Nat) (s : StatementStack) : Cleanup → StatementStack
  | gosub index => s.modify index fun e => { e with gosubs := some pc }
  | _ => s

/-- Offsets of cleanups one behind the other. -/
def offsets (pc : Nat) : List Cleanup → List Nat
  | [] => []
  | c :: cs => pc :: offsets (pc + c.size) cs

/-- Cleanups one behind the other as cells. -/
def cells (pc : Nat) (s : StatementStack) : List Cleanup → List (Cell Int)
  | [] => []
  | c :: cs => c.cell pc s :: cells (pc + c.size) (c.join pc s) cs

/-- The statements behind cleanups one behind the other. -/
def joinAll (pc : Nat) (s : StatementStack) : List Cleanup → StatementStack
  | [] => s
  | c :: cs => joinAll (pc + c.size) (c.join pc s) cs

/-- Emit a cleanup. -/
def emit : Cleanup → Emit Unit
  | gosub index => do
    let _ ← Emit.note .hidden
    let pc ← Emit.link .backpatch (← Emit.gosubs index)
    Emit.setGosubs index (some pc)
  | c => Emit.cleanup (Emit.instruction c.opcode c.operand)

end Cleanup

/-- Cleanups are emitted one behind the other. -/
inductive Cleans : Generator → List Cleanup → Generator → Prop where
  | nil (g : Generator) : Cleans g [] g
  | cons {g g₁ g' : Generator} {c : Cleanup} {cs : List Cleanup} (hok : c.emit g = .ok () g₁)
      (hrest : Cleans g₁ cs g') : Cleans g (c :: cs) g'

/-- Cleanups one behind the other, in two parts. -/
theorem Cleans.append {g g₁ g' : Generator} {cs cs' : List Cleanup} (h : Cleans g cs g₁)
    (h' : Cleans g₁ cs' g') : Cleans g (cs ++ cs') g' := by
  induction h with
  | nil => exact h'
  | cons hok _ ih => exact .cons hok (ih h')

/-- A single cleanup. -/
theorem Cleans.one {g g' : Generator} {c : Cleanup} (hok : c.emit g = .ok () g') :
    Cleans g [c] g' := .cons hok (.nil g')

/-! ## The walk over the statements -/

/-- Joining a chain changes nothing that matters for leaving statements. -/
theorem Cleanup.shape_join (c : Cleanup) (pc : Nat) (s : StatementStack) :
    (c.join pc s).shape = s.shape := by
  cases c with
  | gosub index =>
    funext j
    simp only [join, StatementStack.shape, StatementStack.modify, Array.getElem?_modify]
    split
    · rw [Option.map_map]
      rfl
    · rfl
  | _ => rfl

/-- A cleanup changes the statements by the chain it joins. -/
theorem Cleanup.emit_statements {g g' : Generator} {c : Cleanup} (hok : c.emit g = .ok () g') :
    ∃ pc, g'.statements = c.join pc g.statements := by
  have hnoted : ∀ {g₁ : Generator}, Noted g g₁ → g₁.statements = g.statements := by
    rintro g₁ ⟨notes, last, line, rfl⟩
    rw [Generator.modifySection]
    split <;> rfl
  have hcode : ∀ {g₁ g₂ : Generator}, CodeOnly g₁ g₂ → g₂.statements = g₁.statements :=
    fun h => by rw [h.rest]
  cases c with
  | gosub index =>
    simp only [emit, Emit.gosubs, setGosubs, modifyStatement, Emit.bind_ok, Emit.pure_ok,
      get_bind, guard_outOfBounds_ok, modify_ok] at hok
    obtain ⟨_, g₁, hnote, last, _, ⟨e, _, hstatement, rfl, rfl⟩, pc, g₃, hlink, -, rfl⟩ := hok
    obtain ⟨-, rfl⟩ := statement_ok hstatement
    have hlinked : CodeOnly _ _ := Emit.Within.ok _ _ _ hlink
    refine ⟨pc, ?_⟩
    show g₃.statements.modify index _ = _
    rw [hcode hlinked, hnoted (note_noted hnote)]
    rfl
  | _ =>
    simp only [emit, Emit.cleanup, Emit.bind_ok, Emit.pure_ok] at hok
    obtain ⟨_, g₁, hnote, _, _, hinstruction, -, rfl⟩ := hok
    exact ⟨0, (hcode (Emit.Within.ok _ _ _ hinstruction)).trans
      (hnoted (note_noted hnote))⟩

/-- Cleanups change nothing that matters for leaving statements. -/
theorem Cleans.shape {g g' : Generator} {cs : List Cleanup} (h : Cleans g cs g') :
    g'.statements.shape = g.statements.shape := by
  induction h with
  | nil => rfl
  | @cons g g₁ g' c cs hok _ ih =>
    obtain ⟨pc, hjoin⟩ := Cleanup.emit_statements hok
    rw [ih, hjoin, c.shape_join]

/-- Contributions that have been dealt with: some are emitted, some pops are put off. -/
def Clears (g : Generator) (pops : Nat) (all : List Cleanup) (pops' : Nat) (g' : Generator) : Prop :=
  ∃ cs, Cleans g cs g' ∧ (∀ rest, Cleanup.merge pops (all ++ rest) = cs ++ Cleanup.merge pops' rest) ∧
    (∀ count, .pops count ∈ cs → count < 65536) ∧ pops' < 65536

namespace Clears

variable {g g₁ g' : Generator} {pops pops₁ pops' : Nat} {all all' : List Cleanup}

/-- Nothing to deal with. -/
theorem nil (hpops : pops < 65536) : Clears g pops [] pops g :=
  ⟨[], .nil g, fun _ => rfl, by simp, hpops⟩

/-- Dealing with contributions changes nothing that matters for further ones. -/
theorem shape (h : Clears g pops all pops' g') : g'.statements.shape = g.statements.shape := by
  obtain ⟨cs, hcleans, -⟩ := h
  exact hcleans.shape

/-- The pops put off fit one instruction. -/
theorem lt (h : Clears g pops all pops' g') : pops' < 65536 := by
  obtain ⟨cs, -, -, -, hpops⟩ := h
  exact hpops

/-- Contributions are dealt with in order. -/
theorem append (h : Clears g pops all pops₁ g₁) (h' : Clears g₁ pops₁ all' pops' g') :
    Clears g pops (all ++ all') pops' g' := by
  obtain ⟨cs, hcleans, hmerge, hfits, -⟩ := h
  obtain ⟨cs', hcleans', hmerge', hfits', hpops'⟩ := h'
  refine ⟨cs ++ cs', hcleans.append hcleans', fun rest => ?_, fun count hmem => ?_, hpops'⟩
  · rw [List.append_assoc, hmerge, hmerge', List.append_assoc]
  · exact (List.mem_append.mp hmem).elim (hfits count) (hfits' count)

end Clears

/-- Pops that are done at once are those put off. -/
theorem Cleanup.pops_of_mem_flush {pops : Nat} (h : .pops count ∈ flush pops) : pops = count := by
  rw [flush] at h
  split at h
  · cases List.mem_singleton.mp h
    rfl
  · cases h

namespace Emit

variable {g g' : Generator} {pops pops' : Nat}

/-- The pops put off are emitted as one cleanup. -/
theorem flushPops_cleans (hpops : pops < 65536) (hok : flushPops pops g = .ok () g') :
    Cleans g (Cleanup.flush pops) g' := by
  rw [flushPops] at hok
  rw [Cleanup.flush]
  split at hok
  · rename_i hpos
    rw [if_pos hpos]
    refine .one ?_
    simp only [bind_ok, pure_ok, popN, opU16, UInt16.toNat_ofNat', Nat.mod_eq_of_lt hpops] at hok
    simp only [Cleanup.emit, cleanup, bind_ok, pure_ok]
    exact hok
  · rename_i hpos
    obtain ⟨-, rfl⟩ := pure_ok.mp hok
    rw [if_neg hpos]
    exact .nil _

/-- A cleanup that is no pop is emitted behind the pops that have been put off. -/
theorem clears_of_emit {c : Cleanup} {g₁ : Generator} (hpops : pops < 65536)
    (hc : ∀ count, c ≠ .pops count) (hflush : flushPops pops g = .ok () g₁)
    (hok : c.emit g₁ = .ok () g') : Clears g pops [c] 0 g' := by
  refine ⟨_, (flushPops_cleans hpops hflush).append (.one hok), fun rest => ?_,
    fun count hmem => ?_, by decide⟩
  · rw [List.singleton_append, List.append_assoc, List.singleton_append]
    cases c with
    | pops count => exact absurd rfl (hc count)
    | _ => rfl
  · rcases List.mem_append.mp hmem with hmem | hmem
    · exact Cleanup.pops_of_mem_flush hmem ▸ hpops
    · exact absurd (List.mem_singleton.mp hmem).symm (hc count)

/-- A statement is left as its kind asks for. -/
theorem leaveKind_clears (hpops : pops < 65536) (hok : leaveKind index pops kind g = .ok pops' g') :
    Clears g pops (Cleanup.ofKind index kind) pops' g' := by
  cases kind with
  | finallyClause =>
    simp only [leaveKind, bind_ok, pure_ok] at hok
    obtain ⟨_, g₁, hflush, _, g₂, hnote, last, g₃, hgosubs, pc, g₄, hlink, _, _, hset, rfl, rfl⟩ := hok
    refine clears_of_emit hpops (by simp) hflush ?_
    simp only [Cleanup.emit, bind_ok]
    exact ⟨_, g₂, hnote, last, g₃, hgosubs, pc, g₄, hlink, hset⟩
  | withObject =>
    simp only [leaveKind, bind_ok, pure_ok] at hok
    obtain ⟨_, g₁, hflush, _, _, hclean, rfl, rfl⟩ := hok
    exact clears_of_emit hpops (by simp) hflush hclean
  | forInLoop =>
    simp only [leaveKind, bind_ok, pure_ok] at hok
    obtain ⟨_, g₁, hflush, _, _, hclean, rfl, rfl⟩ := hok
    exact clears_of_emit hpops (by simp) hflush hclean
  | subroutine =>
    simp only [leaveKind, guard_throw_ok, pure_ok] at hok
    obtain ⟨hlt, rfl, rfl⟩ := hok
    exact ⟨[], .nil _, fun _ => rfl, by simp, by omega⟩
  | _ =>
    simp only [leaveKind, pure_ok] at hok
    obtain ⟨rfl, rfl⟩ := hok
    exact .nil hpops

/-- The names a statement binds are left behind. -/
theorem leaveScope_clears {scope : Option BlockScope}
    (hshape : g.statements.shape index = some (kind, scope)) (hpops : pops < 65536)
    (hok : leaveScope index pops g = .ok pops' g') :
    Clears g pops (Cleanup.ofScope scope) pops' g' := by
  simp only [leaveScope, bind_ok] at hok
  obtain ⟨e, g₁, hstatement, hok⟩ := hok
  obtain ⟨he, rfl⟩ := statement_ok hstatement
  rw [StatementStack.shape, he] at hshape
  cases hshape
  cases hscope : e.scope with
  | none =>
    rw [hscope] at hok
    obtain ⟨rfl, rfl⟩ := pure_ok.mp hok
    exact .nil hpops
  | some scope =>
    rw [hscope] at hok
    simp only [bind_ok, pure_ok] at hok
    obtain ⟨_, g₂, hflush, _, _, hclean, rfl, rfl⟩ := hok
    exact clears_of_emit hpops (by simp) hflush hclean

/-- Statements are left from the innermost on. -/
theorem leaveStatements_clears {stop : Nat} (hpops : pops < 65536)
    (hok : leaveStatements stop pops count g = .ok pops' g') :
    Clears g pops ((List.range' stop count).reverse.flatMap g.statements.contributions) pops' g' := by
  induction count generalizing g pops with
  | zero =>
    obtain ⟨rfl, rfl⟩ := pure_ok.mp hok
    exact .nil hpops
  | succ count ih =>
    simp only [leaveStatements, bind_ok] at hok
    obtain ⟨e, g₁, hstatement, pops₁, g₂, hkind, pops₂, g₃, hscope, hrest⟩ := hok
    obtain ⟨he, rfl⟩ := statement_ok hstatement
    have hshape : g₁.statements.shape (stop + count) = some (e.kind, e.scope) := by
      rw [StatementStack.shape, he]
      rfl
    have hclears₁ := leaveKind_clears hpops hkind
    have hclears₂ := leaveScope_clears (hclears₁.shape ▸ hshape) hclears₁.lt hscope
    have hclears₃ := ih hclears₂.lt hrest
    have hsame : g₃.statements.contributions = g₁.statements.contributions := by
      funext j
      rw [StatementStack.contributions, StatementStack.contributions, hclears₂.shape, hclears₁.shape]
    have hhead : g₁.statements.contributions (stop + count) =
        Cleanup.ofKind (stop + count) e.kind ++ Cleanup.ofScope e.scope := by
      rw [StatementStack.contributions, hshape]
      rfl
    rw [hsame] at hclears₃
    rw [List.range'_concat, List.reverse_append, List.reverse_singleton, List.singleton_append,
      List.flatMap_cons, Nat.one_mul, hhead]
    exact (hclears₁.append hclears₂).append hclears₃

end Emit

/-! ## What a cleanup changes -/

namespace Generator

@[simp] theorem statements_modifySection (g : Generator) (f : CodeSection → CodeSection) :
    (g.modifySection f).statements = g.statements := by
  rw [modifySection]
  split <;> rfl

end Generator

/-- Nothing changes but code and notes of the current section, the spans, the statements and the
model of the stack. -/
def Confined (g g' : Generator) : Prop :=
  g' = { g.modifySection fun s => { s with
      code := g'.currentSection.code
      notes := g'.currentSection.notes
      lastNoteOffset := g'.currentSection.lastNoteOffset } with
    spans := g'.spans, depth := g'.depth, statements := g'.statements, warnings := g'.warnings }

namespace Confined

variable {g g' g'' : Generator}

/-- A change of the current section that keeps its line. -/
theorem of_modify (f : CodeSection → CodeSection) (hline : ∀ s, (f s).line = s.line)
    (spans : SpanTable) (depth : StackDepth) (statements : StatementStack) (warnings : Array Warning) :
    Confined g { g.modifySection f with spans, depth, statements, warnings } := by
  have heq : ∀ s : CodeSection, f s = { s with
      code := (f s).code, notes := (f s).notes, lastNoteOffset := (f s).lastNoteOffset } :=
    fun s => by rw [← hline s]
  cases hcurrent : g.current with
  | prolog =>
    simp only [Confined, Generator.modifySection, currentSection, hcurrent]
    rw [← heq]
  | main =>
    simp only [Confined, Generator.modifySection, currentSection, hcurrent]
    rw [← heq]

/-- A change of the stack model alone. -/
theorem of_depth (g : Generator) (depth : StackDepth) : Confined g { g with depth } := by
  have hsame : Confined g { g.modifySection id with
      spans := g.spans, depth, statements := g.statements, warnings := g.warnings } :=
    .of_modify id (fun _ => rfl) ..
  have hid : g.modifySection id = g := by
    rw [Generator.modifySection]
    split <;> rfl
  rwa [hid] at hsame

/-- The section stays the current one. -/
theorem current (h : Confined g g') : g'.current = g.current := by
  rw [h]
  exact current_modifySection ..

/-- Confined changes add up. -/
theorem trans (h : Confined g g') (h' : Confined g' g'') : Confined g g'' := by
  have hcurrent := h.current
  rw [Confined] at h h' ⊢
  rw [h', h]
  cases hsection : g.current <;>
    simp [Generator.modifySection, currentSection, hsection]

end Confined

namespace Cleanup

variable {g g' : Generator} {settled : Nat} {cs : List (Cell Int)} {ns : List CodedNote}
  {c : Cleanup}

/-- A cleanup has been emitted, into code that stands for cells and behind notes that are coded. -/
structure Emitted (settled : Nat) (cs : List (Cell Int)) (ns : List CodedNote) (g : Generator)
    (all : List Cleanup) (g' : Generator) : Prop where
  main : g.current = .main →
    Codes g'.main.code g'.spans settled (cs ++ cells g.offset g.statements all)
  prolog : g.current = .prolog → (∀ index, .gosub index ∉ all) ∧ g'.spans = g.spans ∧
    g'.prolog.code.toList = g.prolog.code.toList ++ all.flatMap bytes
  notes : ∃ ns', SectionCoded g'.currentSection ns' ∧ CodedNote.placed 0 ns' =
    CodedNote.placed 0 ns ++ (offsets g.offset all).map fun pc => ⟨.hidden, pc, []⟩
  statements : g'.statements = joinAll g.offset g.statements all
  confined : Confined g g'

/-- A note hides what comes next. -/
theorem hidden_ok (hnotes : SectionCoded g.currentSection ns) {p : Nat}
    (h : note .hidden g = .ok p g') : ∃ f : CodeSection → CodeSection,
      g' = g.modifySection f ∧ (∀ s, (f s).code = s.code ∧ (f s).line = s.line) ∧
      ∃ ns', SectionCoded g'.currentSection ns' ∧
        CodedNote.placed 0 ns' = CodedNote.placed 0 ns ++ [⟨.hidden, g.offset, []⟩] := by
  have hplaced := note_placed hnotes (by decide) h
  obtain ⟨-, -, -, rfl⟩ := note_ok.mp h
  exact ⟨_, rfl, fun _ => ⟨rfl, rfl⟩, hplaced⟩

/-- A cleanup without a jump is one plain instruction behind its note. -/
theorem emit_plain (hc : ∀ index, c ≠ .gosub index)
    (hcode : g.current = .main → Codes g.main.code g.spans settled cs)
    (hnotes : SectionCoded g.currentSection ns) (hok : c.emit g = .ok () g') :
    Emitted settled cs ns g [c] g' ∧ g'.offset = g.offset + c.size := by
  have hemit : c.emit = Emit.cleanup (instruction c.opcode c.operand) := by
    cases c with
    | gosub index => exact absurd rfl (hc index)
    | _ => rfl
  have hcell : cells g.offset g.statements [c] = [.plain c.opcode c.operand.toList ⟨0⟩] := by
    cases c with
    | gosub index => exact absurd rfl (hc index)
    | _ => rfl
  have hjoin : joinAll g.offset g.statements [c] = g.statements := by
    cases c with
    | gosub index => exact absurd rfl (hc index)
    | _ => rfl
  have hsize : c.size = 1 + c.operand.size := by
    cases c with
    | gosub index => exact absurd rfl (hc index)
    | _ => rfl
  have hspec : c.opcode.format.jumpLen = none ∧ c.opcode.spec.length = some (1 + c.operand.size) ∧
      c.opcode.spec.defs.isSome := by
    cases c with
    | gosub index => exact absurd rfl (hc index)
    | _ => exact ⟨rfl, rfl, rfl⟩
  simp only [hemit, Emit.cleanup, Emit.bind_ok, Emit.pure_ok] at hok
  obtain ⟨_, g₁, hnote, pc, g₂, hinstruction, -, rfl⟩ := hok
  obtain ⟨f, rfl, hf, ns', hcoded, hplaced⟩ := hidden_ok hnotes hnote
  obtain ⟨depth, warnings, hg₂⟩ := instruction_eq hinstruction
  rw [Generator.modifySection_modifySection] at hg₂
  have hsection : g₂.currentSection = { f g.currentSection with
      code := (f g.currentSection).code ++ (#[c.opcode.toByte] ++ c.operand) } := by
    rw [hg₂]
    exact currentSection_modifySection ..
  have hbytes : ∀ s, (f s).code ++ (#[c.opcode.toByte] ++ c.operand) =
      s.code ++ (#[c.opcode.toByte] ++ c.operand) := fun s => by rw [(hf s).1]
  have hnone : ∀ index, .gosub index ∉ [c] := fun index hmem =>
    hc index (List.mem_singleton.mp hmem).symm
  refine ⟨⟨fun hmain => ?_, fun hprolog => ⟨hnone, ?_, ?_⟩, ⟨ns', ?_, hplaced⟩, ?_, ?_⟩, ?_⟩
  · have hnoted : Codes (g.modifySection f).main.code (g.modifySection f).spans settled cs := by
      rw [modifySection_main hmain, (hf g.main).1]
      exact hcode hmain
    rw [hcell]
    exact (instruction_emitted hinstruction hnoted (by simpa using hmain) hspec.1 hspec.2.1
      hspec.2.2 ⟨0⟩).2.codes
  · rw [hg₂, Generator.modifySection, hprolog]
  · rw [hg₂, Generator.modifySection, hprolog]
    simp [hbytes, bytes]
  · rw [currentSection_modifySection] at hcoded
    rw [hsection]
    exact ⟨hcoded.spells, hcoded.ended, hcoded.extent⟩
  · rw [hjoin, hg₂]
    exact Generator.statements_modifySection ..
  · rw [hg₂]
    exact .of_modify (fun s => { f s with code := (f s).code ++ (#[c.opcode.toByte] ++ c.operand) })
      (fun s => (hf s).2) ..
  · rw [Generator.offset, Generator.code, hsection, hbytes, hsize]
    simp only [Generator.offset, Generator.code, Array.size_append, List.size_toArray,
      List.length_singleton]

variable (hcode : g.current = .main → Codes g.main.code g.spans settled cs)
  (hnotes : SectionCoded g.currentSection ns)

include hcode hnotes

/-- The call of a finally clause is one more link of its chain. -/
theorem emit_gosub (hok : (gosub index).emit g = .ok () g') :
    Emitted settled cs ns g [.gosub index] g' ∧ g'.offset = g.offset + 3 := by
  simp only [emit, Emit.gosubs, setGosubs, modifyStatement, Emit.bind_ok, Emit.pure_ok,
    get_bind, guard_outOfBounds_ok, modify_ok] at hok
  obtain ⟨_, g₁, hnote, last, _, ⟨e, _, hstatement, rfl, rfl⟩, pc, g₃, hlink, -, hg'⟩ := hok
  obtain ⟨he, rfl⟩ := statement_ok hstatement
  obtain ⟨f, rfl, hf, ns', hcoded, hplaced⟩ := hidden_ok hnotes hnote
  rw [Generator.statements_modifySection] at he
  have hgosubs : g.statements.gosubs index = e.gosubs := by
    rw [StatementStack.gosubs, he, Option.bind_some]
  have hoffset : (g.modifySection f).offset = g.offset := by
    rw [Generator.offset, Generator.code, currentSection_modifySection, (hf _).1]
    rfl
  have hjump : jump .backpatch (linkDistance g.offset e.gosubs.toList)
      (g.modifySection f) = .ok pc g₃ := by
    simp only [link, Emit.offset, get_bind, Emit.bind_ok, Emit.pure_ok, hoffset] at hlink
    obtain ⟨here, _, ⟨rfl, rfl⟩, hlink⟩ := hlink
    cases hlast : e.gosubs with
    | none =>
      rw [hlast] at hlink
      exact hlink
    | some last =>
      simp only [hlast, Emit.guard_throw_ok] at hlink
      exact hlink.2
  have hmain : g.current = .main := by
    simp only [jump, get_bind, guard_inconsistent_ok,
      current_modifySection] at hjump
    simpa using hjump.1
  have hnoted : Codes (g.modifySection f).main.code (g.modifySection f).spans settled cs := by
    rw [modifySection_main hmain, (hf g.main).1]
    exact hcode hmain
  obtain ⟨-, hpc', code, spans, warnings, hg₃, hcodes, -⟩ := jump_emitted hnoted rfl ⟨0⟩ hjump
  have hpc : pc = g.offset := by
    rw [hpc', ← hoffset, Generator.offset, Generator.code, currentSection,
      current_modifySection, hmain]
  have hsize : code.size = g.offset + 3 := by
    rw [hcodes.size, List.length_append, position_append_length, ← hnoted.size, ← hpc', hpc]
    rfl
  obtain ⟨depth, hg'⟩ : ∃ depth, g' = { g.modifySection fun s => { f s with code } with
      spans, depth, warnings,
      statements := g.statements.modify index fun e => { e with gosubs := some pc } } := by
    refine ⟨g₃.depth, ?_⟩
    rw [← hg', hg₃, modifySection_main hmain, modifySection_main hmain]
  have hsection : g'.currentSection = { f g.currentSection with code } := by
    rw [hg']
    exact currentSection_modifySection ..
  refine ⟨⟨fun _ => ?_, fun hprolog => ?_, ⟨ns', ?_, hplaced⟩, ?_, ?_⟩, ?_⟩
  · rw [cells, cells, cell, hgosubs, hg', modifySection_main hmain]
    exact hcodes
  · rw [hmain] at hprolog
    cases hprolog
  · rw [currentSection_modifySection] at hcoded
    rw [hsection]
    exact ⟨hcoded.spells, hcoded.ended, hcoded.extent⟩
  · rw [hg', ← hpc]
    rfl
  · rw [hg']
    exact .of_modify (fun s => { f s with code }) (fun s => (hf s).2) ..
  · rw [Generator.offset, Generator.code, hsection]
    exact hsize

/-- Each cleanup is one instruction behind its note. -/
theorem emit_ok (hok : c.emit g = .ok () g') :
    Emitted settled cs ns g [c] g' ∧ g'.offset = g.offset + c.size := by
  cases c with
  | gosub index => exact emit_gosub hcode hnotes hok
  | _ => exact emit_plain (by simp) hcode hnotes hok

end Cleanup

/-- What cleanups emitted one behind the other change. -/
theorem Cleans.emitted {g g' : Generator} {settled : Nat} {cells : List (Cell Int)}
    {ns : List CodedNote} {cs : List Cleanup} (h : Cleans g cs g')
    (hcode : g.current = .main → Codes g.main.code g.spans settled cells)
    (hnotes : SectionCoded g.currentSection ns) :
    Cleanup.Emitted settled cells ns g cs g' := by
  induction h generalizing cells ns with
  | nil g =>
    refine ⟨fun hmain => ?_, fun _ => ⟨by simp, rfl, by simp⟩, ⟨ns, hnotes, by simp [Cleanup.offsets]⟩,
      rfl, ?_⟩
    · rw [Cleanup.cells, List.append_nil]
      exact hcode hmain
    · exact .of_depth g g.depth
  | @cons g g₁ g' c cs hok _ ih =>
    obtain ⟨hfirst, hoffset⟩ := Cleanup.emit_ok hcode hnotes hok
    have hcurrent := hfirst.confined.current
    obtain ⟨ns₁, hcoded₁, hplaced₁⟩ := hfirst.notes
    have hrest := ih (fun hmain => hfirst.main (hcurrent ▸ hmain)) hcoded₁
    obtain ⟨ns', hcoded', hplaced'⟩ := hrest.notes
    have hstatements : g₁.statements = c.join g.offset g.statements := hfirst.statements
    refine ⟨fun hmain => ?_, fun hprolog => ?_, ⟨ns', hcoded', ?_⟩, ?_,
      hfirst.confined.trans hrest.confined⟩
    · have hcodes := hrest.main (hcurrent.trans hmain)
      rw [hoffset, hstatements, List.append_assoc] at hcodes
      exact hcodes
    · obtain ⟨hnone, hspans, hbytes⟩ := hfirst.prolog hprolog
      obtain ⟨hnone', hspans', hbytes'⟩ := hrest.prolog (hcurrent.trans hprolog)
      refine ⟨fun index hmem => ?_, hspans'.trans hspans, ?_⟩
      · rcases List.mem_cons.mp hmem with heq | hmem
        · exact hnone index (by rw [heq]; exact List.mem_singleton_self c)
        · exact hnone' index hmem
      · rw [hbytes', hbytes, List.append_assoc]
        simp
    · rw [hplaced', hplaced₁, List.append_assoc, hoffset]
      rfl
    · rw [hrest.statements, hoffset, hstatements]
      rfl

/-- What a jump out of statements does before it jumps. -/
structure Leaves (g : Generator) (cs : List Cleanup) (g' : Generator) : Prop where
  /-- In main the cleanups are the new cells, and all cells in front of them stay. -/
  main : g.current = .main → ∃ settled cells, Codes g.main.code g.spans settled cells ∧
    Codes g'.main.code g'.spans settled (cells ++ Cleanup.cells g.offset g.statements cs)
  /-- Among hoisted declarations the bytes of the cleanups are appended; no finally clause can be
  called there. -/
  prolog : g.current = .prolog → (∀ index, .gosub index ∉ cs) ∧ g'.spans = g.spans ∧
    g'.prolog.code.toList = g.prolog.code.toList ++ cs.flatMap Cleanup.bytes
  /-- The operand of an instruction that pops says how much. -/
  fits : ∀ count, .pops count ∈ cs → count < 65536
  /-- One note hides each cleanup. -/
  notes : noteList g'.currentSection.notes = noteList g.currentSection.notes ++
    (Cleanup.offsets g.offset cs).map fun pc => ⟨.hidden, pc, []⟩
  /-- Calls of finally clauses join the chains of their statements, and the statements stay as they
  are otherwise. -/
  statements : g'.statements = Cleanup.joinAll g.offset g.statements cs
  depth : g'.depth.depth = g.depth.depth
  /-- Nothing else changes. -/
  confined : Confined g g'

/-- A jump out of statements cleans up behind exactly those it leaves. -/
theorem leaveUpTo_leaves {g g' : Generator} {target : Option Nat} (hcode : Reached g)
    (hnotes : Annotating g) (hok : Emit.leaveUpTo target g = .ok () g') :
    Leaves g (g.statements.cleanups target) g' := by
  simp only [Emit.leaveUpTo, Emit.stackDepth, Emit.setStackDepth, Emit.guard_throw_ok, Emit.get_bind,
    Emit.bind_ok, Emit.pure_ok, Emit.modify_ok] at hok
  obtain ⟨depth, _, ⟨rfl, rfl⟩, -, pops, g₁, hleave, _, g₂, hflush, rfl⟩ := hok
  replace hleave : Emit.leaveStatements ((target.map (· + 1)).getD 0) 0
      (g.statements.size - (target.map (· + 1)).getD 0) g = .ok pops g₁ := by
    cases target <;> exact hleave
  obtain ⟨cs, hcleans, hmerge, hfits, hpops⟩ := Emit.leaveStatements_clears (by decide) hleave
  have hcleanups : g.statements.cleanups target = cs ++ Cleanup.flush pops := by
    have hall := hmerge []
    rw [List.append_nil] at hall
    exact hall
  obtain ⟨settled, cells, hcodes⟩ := hcode.codes
  obtain ⟨ns, hcoded⟩ := hnotes.coded.currentSection
  have hemitted := (hcleans.append (Emit.flushPops_cleans hpops hflush)).emitted
    (fun _ => hcodes) hcoded
  obtain ⟨ns', hcoded', hplaced⟩ := hemitted.notes
  rw [hcleanups]
  refine ⟨fun hmain => ⟨settled, cells, hcodes, hemitted.main hmain⟩, hemitted.prolog,
    fun count hmem => ?_, ?_, hemitted.statements, rfl,
    hemitted.confined.trans (.of_depth g₂ _)⟩
  · rcases List.mem_append.mp hmem with hmem | hmem
    · exact hfits count hmem
    · exact Cleanup.pops_of_mem_flush hmem ▸ hpops
  · rw [hcoded.spells.noteList, ← hplaced]
    exact hcoded'.spells.noteList

/-- Whether a step succeeds. -/
def Emit.succeeds {α : Type} (x : Emit α) (g : Generator) : Bool :=
  match x g with
  | .ok _ _ => true
  | .error _ _ => false

theorem Emit.exists_ok {α : Type} {x : Emit α} {g : Generator} (h : x.succeeds g) :
    ∃ a g', x g = .ok a g' := by
  cases hx : x g with
  | ok a g' => exact ⟨a, g', rfl⟩
  | error e g' =>
    rw [succeeds, hx] at h
    cases h

/-- A with statement in a loop over an object, inside of two finally clauses that are running and of
one that has not been reached. -/
def deepStatement : Generator :=
  { Generator.new "unit" 1 .standard with
    depth := ⟨8, 8⟩
    statements := ⟨#[⟨.whileLoop, 0, 0, none, none, none, none, none, none⟩,
      ⟨.finallyClause, 0, 0, none, none, none, none, none, none⟩,
      ⟨.subroutine, 0, 0, none, none, none, none, none, none⟩,
      ⟨.subroutine, 0, 0, none, none, none, none, some ⟨4, ["x", "y"]⟩, none⟩,
      ⟨.forInLoop, 0, 0, none, none, none, none, none, none⟩,
      ⟨.withObject, 0, 0, none, none, none, none, none, some 3⟩], some 5⟩ }

theorem deepStatement_cleanups : deepStatement.statements.cleanups (some 0) =
    [.leaveWith, .endIter, .pops 2, .leaveBlock 2, .pops 2, .gosub 1] := by
  decide

theorem leaveUpTo_leaves_deepStatement : ∃ g', Emit.leaveUpTo (some 0) deepStatement = .ok () g' ∧
    Leaves deepStatement [.leaveWith, .endIter, .pops 2, .leaveBlock 2, .pops 2, .gosub 1] g' := by
  have hcode : Reached deepStatement := .step (.new "unit" 1 .standard) (.aside rfl rfl)
  have hnotes : Annotating deepStatement := .aside (.new "unit" 1 .standard) rfl rfl
  obtain ⟨_, g', hok⟩ := Emit.exists_ok
    (show (Emit.leaveUpTo (some 0)).succeeds deepStatement = true by decide +kernel)
  exact ⟨g', hok, deepStatement_cleanups ▸ leaveUpTo_leaves hcode hnotes hok⟩

end ScriptCompiler
