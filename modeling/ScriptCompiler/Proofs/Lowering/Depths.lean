import ScriptCompiler.Proofs.Grammar
import ScriptCompiler.Proofs.Lowering.Labels

/-!
# Stack depths of constructs

The depth of the operand stack along a list of actions, before any code is
looked at. Every label has one depth, with which each jump to it arrives and
with which it is passed. A statement leaves the depth as it finds it and an
expression adds one value, so a construct is checked against its own actions
only. The statements around a node take their own slots, which the ways out
give back one statement after the other.
-/

namespace ScriptCompiler

variable {os : List Open} {ids : List NodeId}

/-! ## Effects of instructions -/

namespace Opcode

/-- Number of values popped by a jump that is taken: a short-circuit jump keeps its operand and a
case that matches pops both of its operands. -/
def taken (op : Opcode) : Nat :=
  match op with
  | .and | .andX | .or | .orX => 0
  | .case | .caseX => 2
  | op => op.spec.uses.getD 0

end Opcode

/-- A 16-bit operand counts what it was made from. -/
theorem Operands.immediate_le16 {n : Nat} (hn : n < 65536) :
    (plain (Bytes.le16 n).toList).immediate = n := by
  simp only [Bytes.le16, immediate, UInt8.toNat_ofNat']
  omega

/-! ## Slots of statements -/

/-- Values that a statement keeps on the stack because of its kind. -/
def StatementKind.weight : StatementKind → Nat
  | .withObject | .forInLoop => 1
  | .subroutine => 2
  | _ => 0

/-- Values that an open statement keeps on the stack. -/
def Open.weight (o : Open) : Nat :=
  o.kind.weight + (o.scope.map fun scope => scope.count.toNat).getD 0

/-- Values that a statement keeps on the stack once it is opened. -/
def Opening.weight (o : Opening) : Nat :=
  o.kind.weight + (o.names.map fun names => min names.length 65535).getD 0

@[simp] theorem Opening.weight_place (lab : Nat → Mark) (o : Opening) :
    (o.place lab).weight = o.weight := by
  simp only [Open.weight, Opening.weight, Opening.place, Option.map_map]
  congr 2
  cases o.names with
  | none => rfl
  | some names =>
    simp only [Option.map_some, Function.comp, BlockScope.count, UInt16.toNat_ofNat']
    congr 1
    omega

/-- Inside some open statements, innermost first, at a depth: each of them has its values on the
stack, and its places are reached at the depth inside of it. What `T` says about a cell is the
depth there. -/
def Inside (T : Nat → Int → Prop) : List Open → Int → Prop
  | [], d => 0 ≤ d
  | o :: outer, d =>
    (o.kind.takesBreaks = true → T o.breakTo d) ∧ (o.kind.isLoop = true → T o.continueTo d) ∧
      (o.kind = .finallyClause → T o.finallyAt d) ∧ Inside T outer (d - o.weight)

/-- Inside statements opened by a construct that starts at the depth `b`. -/
def Entered (ℓ : Nat → Int) (b : Int) : List Opening → Int → Prop
  | [], d => d = b
  | o :: outer, d =>
    (o.kind.takesBreaks = true → ℓ o.breaks = d) ∧ (o.kind.isLoop = true → ℓ o.continues = d) ∧
      (o.kind = .finallyClause → ℓ o.gosubs = d) ∧ Entered ℓ b outer (d - o.weight)

theorem Inside.nonneg {T : Nat → Int → Prop} {d : Int} (h : Inside T os d) : 0 ≤ d := by
  induction os generalizing d with
  | nil => exact h
  | cons o outer ih =>
    have := ih h.2.2.2
    omega

/-! ## Depths along actions -/

/-- How the depth goes on behind an instruction. -/
def Next.Goes (ℓ : Nat → Int) (seen : List Nat) (uses defs : Nat) (d e : Int) : Next → Prop
  | flow => e = d - uses + defs
  | back label => label ∈ seen ∧ uses ≤ ℓ label ∧ e = ℓ label
  | drop => uses = 0 ∧ defs = 0 ∧ 1 ≤ d ∧ e = d - 1

namespace Action

/-- The labels that are passed by an action. -/
def marks : Action → List Nat
  | here label => [label]
  | _ => []

/-- An action leads from the depth `d` to the depth `e`. Labels have the depths `ℓ`, those of `seen`
have been passed, and cells outside of the construct have the depths `T`. The construct starts at the
depth `β`, which only matters for the statements in it. -/
def Flows (t : Tree) (T : Nat → Int → Prop) (ℓ : Nat → Int) (β : Option Int) (seen : List Nat)
    (d e : Int) : Action → Prop
  | op code bytes next =>
    let n := (Operands.plain bytes).immediate
    code.pops n ≤ d ∧ next.Goes ℓ seen (code.pops n) (code.pushes n) d e
  | literal code _ => ∃ p q : Nat, code.spec.uses = some p ∧ code.spec.defs = some q ∧ p ≤ d ∧
      e = d - p + q
  | access _ slot named _ => ∃ p q : Nat,
      (∀ code ∈ slot :: named.toList, code.spec.uses = some p ∧ code.spec.defs = some q) ∧ p ≤ d ∧
      e = d - p + q
  | jump code label next => code.pops 0 ≤ d ∧ ℓ label = d - code.taken ∧
      next.Goes ℓ seen (code.pops 0) (code.pushes 0) d e
  | exit code target next => code.pops 0 ≤ d ∧ T target (d - code.taken) ∧
      next.Goes ℓ seen (code.pops 0) (code.pushes 0) d e
  | table low high fallback arms => 1 ≤ d ∧ e = d - 1 ∧
      ∀ label ∈ (table low high fallback arms).labels, ℓ label = d - 1
  | lookup fallback pairs => 1 ≤ d ∧ e = d - 1 ∧
      ∀ label ∈ (lookup fallback pairs).labels, ℓ label = d - 1
  | lambda .. => 0 ≤ d ∧ e = d + 1
  | child openings id =>
    t.holds NodeKind.isStatement id = true ∧
        (∃ b, β = some b ∧ Entered ℓ b openings.reverse d) ∧ e = d ∨
      t.holds NodeKind.isExpression id = true ∧ e = d + 1
  | here label => ℓ label = d ∧ e = d
  | region kind depth _ stop => (kind ≠ .iterator → ℓ stop = ℓ depth) ∧ e = d
  | declare _ | define .. => e = d

end Action

/-- A list of actions leads from one depth to another. -/
inductive Flows (t : Tree) (T : Nat → Int → Prop) (ℓ : Nat → Int) (β : Option Int) :
    List Nat → List Action → Int → Int → Prop
  | nil {seen : List Nat} {d m : Int} (hd : d = m) : Flows t T ℓ β seen [] d m
  | cons {seen : List Nat} {act : Action} {acts : List Action} {d e m : Int}
      (hact : act.Flows t T ℓ β seen d e) (hrest : Flows t T ℓ β (act.marks ++ seen) acts e m) :
      Flows t T ℓ β seen (act :: acts) d m

section Flows

variable {t : Tree} {T : Nat → Int → Prop} {ℓ : Nat → Int} {β : Option Int} {b d e m n : Int}
  {seen known : List Nat} {act : Action} {acts more : List Action}

/-- More labels may have been passed. -/
theorem Action.Flows.mono (h : act.Flows t T ℓ β seen d e) (hsub : seen ⊆ known) :
    act.Flows t T ℓ β known d e := by
  have hnext {uses defs : Nat} {next : Next} (hgoes : next.Goes ℓ seen uses defs d e) :
      next.Goes ℓ known uses defs d e := by
    cases next with
    | back label => exact ⟨hsub hgoes.1, hgoes.2⟩
    | _ => exact hgoes
  cases act with
  | op => exact ⟨h.1, hnext h.2⟩
  | jump | exit => exact ⟨h.1, h.2.1, hnext h.2.2⟩
  | _ => exact h

namespace Flows

theorem mono (h : Flows t T ℓ β seen acts d m) (hsub : seen ⊆ known) :
    Flows t T ℓ β known acts d m := by
  induction h generalizing known with
  | nil hd => exact .nil hd
  | cons hact _ ih =>
    refine .cons (hact.mono hsub) (ih fun label hlabel => ?_)
    rw [List.mem_append] at hlabel ⊢
    exact hlabel.imp_right fun h => hsub h

/-- Actions go on where others end. -/
theorem append (h : Flows t T ℓ β seen acts d m) (hmore : Flows t T ℓ β seen more m n) :
    Flows t T ℓ β seen (acts ++ more) d n := by
  induction h with
  | nil hd => rwa [hd]
  | cons hact _ ih => exact .cons hact (ih (hmore.mono (List.subset_append_right ..)))

/-- Depths along two lists of actions, with the depth between them. -/
theorem of_append (h : Flows t T ℓ β seen (acts ++ more) d m) :
    ∃ e known, Flows t T ℓ β seen acts d e ∧ Flows t T ℓ β known more e m := by
  induction acts generalizing seen d with
  | nil => exact ⟨d, seen, .nil rfl, h⟩
  | cons act acts ih =>
    cases h with
    | cons hact hrest =>
      obtain ⟨e, known, hacts, hmore⟩ := ih hrest
      exact ⟨e, known, .cons hact hacts, hmore⟩

/-- One more action in front, which leads to a depth. -/
theorem step (e : Int) (hact : act.Flows t T ℓ β seen d e)
    (hrest : Flows t T ℓ β (act.marks ++ seen) acts e m) : Flows t T ℓ β seen (act :: acts) d m :=
  .cons hact hrest

/-- A statement leaves the depth as it is. -/
theorem statement {openings : List Opening} {id : NodeId} (hkind : t.holds NodeKind.isStatement id)
    (hentered : Entered ℓ b openings.reverse d) (hrest : Flows t T ℓ (some b) seen acts d m) :
    Flows t T ℓ (some b) seen (.child openings id :: acts) d m :=
  .cons (.inl ⟨hkind, ⟨b, rfl, hentered⟩, rfl⟩) hrest

/-- An expression adds its value. -/
theorem expression {openings : List Opening} {id : NodeId}
    (hkind : t.holds NodeKind.isExpression id) (hrest : Flows t T ℓ β seen acts (d + 1) m) :
    Flows t T ℓ β seen (.child openings id :: acts) d m :=
  .cons (.inr ⟨hkind, rfl⟩) hrest

/-- Statements one after the other leave the depth as it is. -/
theorem statements {openings : List Opening}
    (hkind : ∀ id ∈ ids, t.holds NodeKind.isStatement id)
    (hentered : Entered ℓ b openings.reverse d) :
    Flows t T ℓ (some b) seen (ids.map (.child openings)) d d := by
  induction ids with
  | nil => exact .nil rfl
  | cons id ids ih =>
    exact .statement (hkind id (List.mem_cons_self ..)) hentered
      (ih fun id hid => hkind id (List.mem_cons_of_mem _ hid))

/-- Expressions one after the other add their values. -/
theorem expressions (hkind : ∀ id ∈ ids, t.holds NodeKind.isExpression id) :
    Flows t T ℓ β seen (ids.map Lowering.part) d (d + ids.length) := by
  induction ids generalizing d with
  | nil => exact .nil (by simp)
  | cons id ids ih =>
    refine .expression (hkind id (List.mem_cons_self ..)) ?_
    have := ih (d := d + 1) fun id hid => hkind id (List.mem_cons_of_mem _ hid)
    rwa [show d + 1 + (ids.length : Int) = d + ((id :: ids).length : Nat) by
      rw [List.length_cons]; omega] at this

end Flows

end Flows

end ScriptCompiler
