import ScriptCompiler.Proofs.Draft.Holes
import ScriptCompiler.Proofs.Lowering.Action
import ScriptCompiler.Proofs.Statement.Scopes

/-!
# Drafts

A draft is a unit while it is being emitted, with its code as cells with holes
and with its open statements by number. It says what a generator holds, up to
the layout of the code, and what any finished program has to look like that the
generator may still lead to.
-/

namespace ScriptCompiler

open Bytes

/-- Whether jumps of a chain may be pending for a statement of this kind. -/
def StatementKind.takes (kind : StatementKind) : Chain → Bool
  | .breaks => kind.takesBreaks
  | .continues => kind.isLoop
  | .gosubs => kind = .finallyClause

/-- An open statement. -/
structure Opened where
  /-- What kind of statement it is. -/
  kind : StatementKind
  /-- Its name, for a labeled statement. -/
  label : Option String
  /-- Names it binds. -/
  scope : Option BlockScope
  /-- Its number among all statements that have been opened. -/
  serial : Nat
  /-- Index of the cell its continues go to. -/
  update : Nat

namespace Opened

/-- The statement with places for its holes. -/
def place (fill : Hole → Nat) (o : Opened) : Open where
  kind := o.kind
  label := o.label
  scope := o.scope
  breakTo := if o.kind.takesBreaks then fill (.chain o.serial .breaks) else 0
  continueTo := if o.kind.isLoop then fill (.chain o.serial .continues) else 0
  finallyAt := if o.kind = .finallyClause then fill (.chain o.serial .gosubs) else 0

end Opened

/-- A unit while it is being emitted. -/
structure Draft where
  /-- The body. -/
  main : List (Cell Hole)
  /-- The holes that have been filled, and with what. -/
  filled : Hole → Option Nat
  /-- Number of cells that have been resolved. -/
  settled : Nat
  /-- Hoisted declarations. -/
  prolog : List (Cell Nat)
  /-- The modelled stack. -/
  depth : StackDepth
  /-- Open statements, outermost first. -/
  opens : List Opened
  /-- Number of statements that have been opened. -/
  serial : Nat
  /-- Literals by index. -/
  literals : List Literal
  /-- Nested functions by index. -/
  functions : List Script
  /-- Closed regions. -/
  regions : List Extent
  /-- What is known of the nested functions. -/
  nested : Script → Prop
  /-- No instruction has popped more than there was. -/
  quiet : Prop

/-- What the cell at `k` may be in a unit with this many literals and functions. -/
structure CellOk (literals functions k : Nat) (c : Cell Hole) : Prop where
  shaped : c.Shaped
  final : c.op.spec.placeholder = false
  holes : match c.operands with
    | .plain _ => True
    | .jump => ∃ h, c.dests = [h] ∧ h.Fits k c.op
    | _ => c.dests = (List.range c.operands.arms).map (.arm k)
  literal : c.op.format = .literal → c.operands.immediate < literals
  function : c.op.format = .function → c.operands.immediate < functions

/-- What a hoisted declaration may be in a unit with this many literals and functions. -/
def Declares (literals functions : Nat) (c : Cell Nat) : Prop :=
  ∃ i < 65536, (i < literals ∧ c = .plain .defVar (le16 i).toList ⟨0⟩) ∨
    (i < functions ∧ c = .plain .defFun (le16 i).toList ⟨0⟩)

namespace Draft

/-- What stands in the code. -/
def cells (a : Draft) : List (Cell Int) := shown (fun _ => a.filled) a.main

/-- The modelled stack. -/
def frame (a : Draft) : Frame := ⟨a.depth.depth⟩

/-- The end of the code. -/
def mark (a : Draft) : Mark := ⟨a.main.length, a.frame, a.regions.length, a.quiet⟩

/-- Offset of the latest pending jump with a hole. -/
def head (a : Draft) (h : Hole) : Option Nat :=
  if (a.filled h).isSome then none else (linkBefore a.main h a.main.length).map (position a.main)

/-- The parts of a draft fit together. -/
structure Sound (a : Draft) : Prop where
  cells : ∀ (k : Nat) (c : Cell Hole), a.main[k]? = some c →
    CellOk a.literals.length a.functions.length k c
  used : ∀ (k : Nat) (c : Cell Hole), a.main[k]? = some c → ∀ h ∈ c.dests,
    h.Old a.main.length a.serial
  fresh : ∀ h : Hole, ¬ h.Old a.main.length a.serial → a.filled h = none
  targets : ∀ h t, a.filled h = some t → (∀ k i, h ≠ .literal k i) → t ≤ a.main.length
  literals : ∀ k i n, a.filled (.literal k i) = some n → n < a.literals.length
  serials : ∀ o ∈ a.opens, o.serial < a.serial
  distinct : (a.opens.map Opened.serial).Nodup
  updates : ∀ o ∈ a.opens, o.update ≤ a.main.length
  pending : ∀ (k : Nat) (c : Cell Hole), a.main[k]? = some c → ∀ serial chain,
    .chain serial chain ∈ c.dests → a.filled (.chain serial chain) = none →
    ∃ o ∈ a.opens, o.serial = serial ∧ o.kind.takes chain = true
  unfilled : ∀ o ∈ a.opens, ∀ chain, o.kind.takes chain = true →
    a.filled (.chain o.serial chain) = none
  settled : ∀ (k : Nat) (c : Cell Hole), a.main[k]? = some c → k < a.settled → ∀ h ∈ c.dests,
    ∃ t ≤ a.settled, a.filled h = some t
  regions : ∀ r ∈ a.regions, r.start ≤ a.main.length ∧ r.stop ≤ a.main.length
  high : a.depth.depth.toNat ≤ a.depth.high
  prolog : ∀ c ∈ a.prolog, Declares a.literals.length a.functions.length c
  nested : ∀ script ∈ a.functions, a.nested script

end Draft

/-! ## What a generator holds -/

/-- The bytes of a cell without offsets. -/
def Cell.bytes {δ : Type} (c : Cell δ) : List UInt8 :=
  c.op.toByte :: match c.operands with
    | .plain bytes => bytes
    | _ => []

/-- A region covers a stretch of cells. -/
structure Covers (cells : List (Cell Hole)) (r : Region) (e : Extent) : Prop where
  kind : r.kind = e.kind
  depth : r.depth = e.depth
  start : r.start = position cells e.start
  stop : r.start + r.length = position cells e.stop

/-- A generator holds the code and the tables of a draft. -/
structure Built (g : Generator) (a : Draft) : Prop where
  sound : a.Sound
  main : g.current = .main
  code : Codes g.main.code g.spans a.settled a.cells
  prolog : g.prolog.code.toList = a.prolog.flatMap Cell.bytes
  depth : g.depth = a.depth
  literals : g.literals.entries.toList = a.literals
  indexed : ∀ (literal : Literal) (i : Nat), g.literals.positions[literal]? = some i →
    a.literals[i]? = some literal
  functions : g.functions.toList = a.functions
  closed : g.regions.size = a.regions.length
  regions : ∀ (i : Nat) (r : Region) (e : Extent), g.regions[i]? = some r → a.regions[i]? = some e →
    Covers a.main r e
  quiet : a.quiet → g.warnings = #[]

/-- An entry of the statement stack stands for an open statement. -/
structure Stated (a : Draft) (e : OpenStatement) (o : Opened) : Prop where
  kind : e.kind = o.kind
  label : e.label = o.label
  scope : e.scope = o.scope
  update : o.kind.isLoop = true → e.update = position a.main o.update
  link : ∀ chain, e.link chain = a.head (.chain o.serial chain)

/-- A statement stack holds the open statements of a draft. -/
structure Stacked (s : StatementStack) (a : Draft) : Prop where
  size : s.entries.size = a.opens.length
  entries : ∀ (i : Nat) (e : OpenStatement) (o : Opened), s.entries[i]? = some e →
    a.opens[i]? = some o → Stated a e o
  linked : s.Linked

/-- A generator holds a draft. -/
structure Drafted (g : Generator) (a : Draft) : Prop where
  built : Built g a
  stacked : Stacked g.statements a

/-! ## What a program has to look like -/

/-- The literals that end up in the operands of the cell at `k`. -/
def Operands.closed (fill : Hole → Nat) (k : Nat) : Operands → Operands
  | .lookup literals => .lookup ((List.range literals.length).map fun i => fill (.literal k i))
  | o => o

/-- What becomes of the cell at `k`. -/
def Cell.closed (fill : Hole → Nat) (k : Nat) (c : Cell Hole) : Cell Nat where
  op := c.op
  wide := c.wide
  operands := c.operands.closed fill k
  dests := c.dests.map fill
  frame := c.frame

/-- A program, and a way to fill all holes, that a draft may lead to as far as its cells from `n` on
are concerned. -/
structure Fills (fill : Hole → Nat) (P : Program) (n : Nat) (a : Draft) : Prop where
  filled : ∀ h t, a.filled h = some t → fill h = t
  main : ∀ (k : Nat) (c : Cell Hole), n ≤ k → a.main[k]? = some c → P.At k (c.closed fill k)
  prolog : a.prolog ⊆ P.prolog
  literals : a.literals <+: P.literals
  functions : a.functions <+: P.functions
  regions : a.regions <+: P.regions
  high : a.depth.high ≤ P.high

/-- One draft leads to another in which no holes from before cell `n` or statement `s` have been
filled, and new jumps have such holes only if they leave a statement. -/
structure Grown (n s : Nat) (a a' : Draft) : Prop where
  filled : ∀ h t, a.filled h = some t → a'.filled h = some t
  kept : ∀ h : Hole, h.Old n s → a'.filled h = a.filled h
  own : ∀ (k : Nat) (c : Cell Hole), a'.main[k]? = some c → ∀ h ∈ c.dests,
    (∀ serial chain, h ≠ .chain serial chain) → h.Old n s → a.main[k]? = some c
  main : ∀ (k : Nat) (c : Cell Hole), a.main[k]? = some c → a'.main[k]? = some c
  length : a.main.length ≤ a'.main.length
  serial : a.serial ≤ a'.serial
  settled : a'.settled = a.settled
  prolog : a.prolog ⊆ a'.prolog
  literals : a.literals <+: a'.literals
  functions : a.functions <+: a'.functions
  regions : a.regions <+: a'.regions
  high : a.depth.high ≤ a'.depth.high
  nested : a'.nested = a.nested

theorem Hole.Old.mono {n s n' s' : Nat} {h : Hole} (hold : h.Old n s) (hn : n ≤ n') (hs : s ≤ s') :
    h.Old n' s' := by
  cases h with
  | chain serial chain => exact Nat.lt_of_lt_of_le hold hs
  | _ => exact Nat.lt_of_lt_of_le hold hn

namespace Grown

variable {n s : Nat} {a b d : Draft}

theorem refl (n s : Nat) (a : Draft) : Grown n s a a :=
  ⟨fun _ _ h => h, fun _ _ => rfl, fun _ _ h _ _ _ _ => h, fun _ _ h => h, Nat.le_refl _,
    Nat.le_refl _, rfl, List.Subset.refl _, List.prefix_rfl, List.prefix_rfl, List.prefix_rfl,
    Nat.le_refl _, rfl⟩

theorem trans (h : Grown n s a b) (h' : Grown n s b d) : Grown n s a d :=
  ⟨fun hole t ht => h'.filled hole t (h.filled hole t ht),
    fun hole hold => (h'.kept hole hold).trans (h.kept hole hold),
    fun k c hk hole hmem hchain hold =>
      h.own k c (h'.own k c hk hole hmem hchain hold) hole hmem hchain hold,
    fun k c hk => h'.main k c (h.main k c hk), Nat.le_trans h.length h'.length,
    Nat.le_trans h.serial h'.serial, h'.settled.trans h.settled,
    List.Subset.trans h.prolog h'.prolog, h.literals.trans h'.literals,
    h.functions.trans h'.functions, h.regions.trans h'.regions,
    Nat.le_trans h.high h'.high, h'.nested.trans h.nested⟩

/-- What is old stays old. -/
theorem mono {n' s' : Nat} (h : Grown n' s' a b) (hn : n ≤ n') (hs : s ≤ s') : Grown n s a b :=
  { h with
    kept := fun hole hold => h.kept hole (hold.mono hn hs)
    own := fun k c hk hole hmem hchain hold => h.own k c hk hole hmem hchain (hold.mono hn hs) }

theorem isPrefix (h : Grown n s a b) : a.main <+: b.main := by
  refine List.prefix_iff_getElem?.mpr fun i hi => ?_
  exact h.main i _ (List.getElem?_eq_getElem hi)

/-- Cells stay where they are. -/
theorem position_eq (h : Grown n s a b) {k : Nat} (hk : k ≤ a.main.length) :
    position b.main k = position a.main k := by
  obtain ⟨more, hmore⟩ := h.isPrefix
  rw [← hmore, position_append hk]

end Grown

/-- What a later draft may lead to, an earlier one may. -/
theorem Fills.mono {fill : Hole → Nat} {P : Program} {n s m m' : Nat} {a a' : Draft}
    (h : Fills fill P m a') (hgrown : Grown n s a a') (hm : m ≤ m') : Fills fill P m' a :=
  ⟨fun hole t ht => h.filled hole t (hgrown.filled hole t ht),
    fun k c hle hk => h.main k c (Nat.le_trans hm hle) (hgrown.main k c hk),
    List.Subset.trans hgrown.prolog h.prolog, hgrown.literals.trans h.literals,
    hgrown.functions.trans h.functions, hgrown.regions.trans h.regions,
    Nat.le_trans hgrown.high h.high⟩

end ScriptCompiler
