import ScriptCompiler.Proofs.Draft.Follow
import ScriptCompiler.Proofs.Lowering.Run

/-!
# What drafts say of programs

Steps that lead from one draft to the next add cells, and in any program that the
later draft may lead to, these cells are the ones that some actions stand for.
-/

namespace ScriptCompiler

open Bytes Emit Opened

variable {i : UInt16} {act : Action} {pc : Nat}

/-! ## Single cells -/

section Cells

variable {fill : Hole → Nat} {P : Program} {lab : Nat → Mark} {n : Nat} {a b : Draft}
  {c : Cell Hole}

theorem Operands.immediate_closed (o : Operands) (k : Nat) :
    (o.closed fill k).immediate = o.immediate := by
  cases o <;> rfl

theorem Cell.uses_closed (k : Nat) : (c.closed fill k).uses = c.uses := by
  simp only [uses, closed, Operands.immediate_closed]
  rfl

theorem Cell.out_closed (k : Nat) : (c.closed fill k).out = c.out := by
  simp only [out, uses, defs, closed, Operands.immediate_closed]
  rfl

theorem Draft.frame_emit (h : c.frame = a.frame) : (a.emit c).frame = c.out := by
  rw [frame, emit, StackDepth.apply_depth, Cell.out, h]
  rfl

/-- A program has room for the stack of a draft that leads to it. -/
theorem Fills.room (h : Fills fill P n b) (hsound : a.Sound) (hhigh : a.depth.high ≤ b.depth.high) :
    a.mark.frame.depth.toNat ≤ P.high :=
  Nat.le_trans (Nat.le_trans hsound.high hhigh) h.high

/-- A cell that has been emitted is in place. -/
theorem Fills.step (h : Fills fill P n (a.emit c)) (hsound : a.Sound) (hn : n ≤ a.main.length)
    (hframe : c.frame = a.frame) :
    Step P lab a.mark (c.closed fill a.main.length) .flow (a.emit c).mark where
  stands := h.main _ _ hn Draft.getElem?_emit_last
  pos := Draft.length_emit
  frame := (Draft.frame_emit hframe).trans (Cell.out_closed _).symm
  closed := rfl
  quiet := fun hquiet huses _ => ⟨hquiet, by rw [Cell.uses_closed] at huses; exact huses⟩
  flows := .inl rfl
  before := h.room hsound (StackDepth.high_le_apply _ _ _ _)
  behind := Nat.le_trans (StackDepth.apply_high _ _ _ _) h.high

/-- A cell behind which the model goes on elsewhere is in place. -/
theorem Fills.turn (h : Fills fill P n b) (hsound : a.Sound) (hn : n ≤ a.main.length)
    (hcell : b.main[a.main.length]? = some c) (hlength : b.main.length = a.main.length + 1)
    (hregions : b.regions = a.regions)
    (hhigh : a.depth.high ≤ b.depth.high) (hroom : b.Sound) (hfalls : c.op.fallsThrough = false)
    {next : Next} (hquiet : a.quiet → c.uses ≤ a.depth.depth →
      (∀ label, next = .back label → c.uses ≤ (lab label).frame.depth) → b.quiet)
    (hframe : b.frame = next.frame lab c.out) :
    Step P lab a.mark (c.closed fill a.main.length) next b.mark where
  stands := h.main _ _ hn hcell
  pos := hlength
  frame := by rw [Cell.out_closed]; exact hframe
  closed := by rw [Draft.mark, Draft.mark, hregions]
  quiet := by
    rw [Cell.uses_closed]
    exact hquiet
  flows := .inr hfalls
  before := h.room hsound hhigh
  behind := h.room hroom (Nat.le_refl _)

theorem getElem?_of_isPrefix {α : Type} {l l' : List α} (h : l <+: l') {i : Nat} {x : α}
    (hi : l[i]? = some x) : l'[i]? = some x := by
  obtain ⟨more, rfl⟩ := h
  rw [List.getElem?_append_left (lt_of_getElem? hi)]
  exact hi

/-- A literal that a draft has. -/
theorem Fills.literal (h : Fills fill P n a) {literal : Literal}
    (hi : a.literals[i.toNat]? = some literal) : P.Literal i.toNat literal :=
  ⟨i.toNat_lt, getElem?_of_isPrefix h.literals hi⟩

theorem Fills.function (h : Fills fill P n a) {i : Nat} {script : Script}
    (hi : a.functions[i]? = some script) : P.functions[i]? = some script :=
  getElem?_of_isPrefix h.functions hi

end Cells

/-! ## Actions -/

/-- Where actions are run. -/
structure Setting where
  /-- The tree. -/
  tree : Tree
  /-- What nested functions become. -/
  ps : Parts
  /-- Whether the code belongs to a function. -/
  inFunction : Bool
  /-- The statements opened by the construct. -/
  openings : List Opening

/-- Some actions, which may depend on how holes are filled, lead from one draft to another. -/
structure Leads (r : Setting) (acts : (Hole → Nat) → List Action) (a a' : Draft) : Prop where
  grown : Follows a a'
  opens : a'.opens = a.opens
  run : ∀ {fill : Hole → Nat} {P : Program} {n : Nat} {ctx : Ctx} {lab : Nat → Mark},
    n ≤ a.main.length → Fills fill P n a' → ctx.inFunction = r.inFunction →
    (ctx.enter lab r.openings).opens = a.opens.map (Opened.place fill) →
    Run r.tree P r.ps ctx lab (acts fill) a.mark a'.mark

/-- Some actions lead from one draft to another. -/
abbrev Emits (r : Setting) (acts : List Action) (a a' : Draft) : Prop :=
  Leads r (fun _ => acts) a a'

namespace Leads

variable {r : Setting} {acts more : (Hole → Nat) → List Action} {a b d : Draft}

theorem nil (a : Draft) : Emits r [] a a :=
  ⟨Grown.refl _ _ _, rfl, fun _ _ _ _ => .nil _⟩

theorem append (h : Leads r acts a b)
    (h' : Leads r more b d) :
    Leads r (fun fill => acts fill ++ more fill) a d := by
  refine ⟨h.grown.follow h'.grown, h'.opens.trans h.opens, fun hn hfills hctx hplaced => ?_⟩
  exact (h.run hn (hfills.before h'.grown.extends) hctx hplaced).append
    (h'.run (Nat.le_trans hn h.grown.length) hfills hctx (by rw [h.opens]; exact hplaced))

/-- One emitted cell. -/
theorem of_emit {act : (Hole → Nat) → Action} {c : Cell Hole} (hsound : a.Sound)
    (hframe : c.frame = a.frame)
    (hown : ∀ h ∈ c.dests, (∀ serial chain, h ≠ .chain serial chain) →
      ¬ h.Old a.main.length a.serial)
    (his : ∀ {fill : Hole → Nat} {P : Program} {n : Nat} {ctx : Ctx} {lab : Nat → Mark},
      Fills fill P n (a.emit c) →
      (ctx.enter lab r.openings).opens = a.opens.map (place fill) →
      (act fill).Is P r.ps ctx lab a.mark (c.closed fill a.main.length) .flow) :
    Leads r (fun fill => [act fill]) a (a.emit c) :=
  ⟨Draft.grown_emit hown, rfl, fun hn hfills _ hplaced =>
    .emit (his hfills hplaced) (hfills.step hsound hn hframe) (.nil _)⟩

/-- One emitted cell without destinations. -/
theorem of_plain {c : Cell Hole} (hsound : a.Sound) (hframe : c.frame = a.frame)
    (hplain : c.dests = [])
    (his : ∀ {fill : Hole → Nat} {P : Program} {n : Nat} {ctx : Ctx} {lab : Nat → Mark},
      Fills fill P n (a.emit c) →
      (ctx.enter lab r.openings).opens = a.opens.map (place fill) →
      act.Is P r.ps ctx lab a.mark (c.closed fill a.main.length) .flow) :
    Emits r [act] a (a.emit c) :=
  of_emit hsound hframe (by simp [hplain]) his

end Leads

/-- Some actions lead from what one generator holds to what another one holds. -/
def Reaches (r : Setting) (acts : List Action) (a : Draft) (g' : Generator) : Prop :=
  ∃ a', Drafted g' a' ∧ Emits r acts a a'

section Instructions

variable {r : Setting} {g g' : Generator} {a : Draft}

/-- An instruction without offsets that refers to no table. -/
theorem Drafted.emits_simple (h : Drafted g a) {op : Opcode} {bytes : Bytes}
    (hok : Emit.instruction op bytes g = .ok pc g') (hop : op.Simple bytes.size) :
    Reaches r [.op op bytes.toList .flow] a g' :=
  ⟨_, (h.simple hok hop a.frame).2, .of_plain h.built.sound rfl rfl fun _ _ => ⟨rfl, rfl⟩⟩

theorem Drafted.op (h : Drafted g a) {op : Opcode} (hok : Walk.op op g = .ok () g')
    (hop : op.Simple 0) : Reaches r [Lowering.plain op] a g' := by
  simp only [Walk.op, bind_ok, pure_ok] at hok
  obtain ⟨pc, _, hok, -, rfl⟩ := hok
  exact h.emits_simple hok hop

theorem Drafted.u16Op (h : Drafted g a) {op : Opcode} {operand : UInt16}
    (hok : Walk.u16Op op operand g = .ok () g') (hop : op.Simple 2) :
    Reaches r [Lowering.counted op operand.toNat] a g' := by
  simp only [Walk.u16Op, bind_ok, pure_ok] at hok
  obtain ⟨pc, _, hok, -, rfl⟩ := hok
  exact h.emits_simple hok hop

/-- Block entry. -/
theorem Drafted.emits_enterBlock (h : Drafted g a) {count : UInt16}
    (hok : Emit.enterBlock count g = .ok pc g') :
    Reaches r [Lowering.counted .enterBlock count.toNat] a g' :=
  ⟨_, (h.enterBlock hok a.frame).2, .of_plain h.built.sound rfl rfl fun _ _ => ⟨rfl, rfl⟩⟩

theorem Draft.grown_literals (n s : Nat) {literals : List Literal} (h : a.literals <+: literals) :
    Grown n s a { a with literals } := { Grown.refl n s a with literals := h }

theorem immediate_le16_toNat (i : UInt16) :
    (Operands.plain (le16 i.toNat).toList).immediate = i.toNat := by
  rw [immediate_le16, Nat.mod_eq_of_lt i.toNat_lt]

/-- An instruction whose operand is a literal that the table has. -/
theorem Drafted.emits_literal (h : Drafted g a) {op : Opcode} {literal : Literal}
    (hi : a.literals[i.toNat]? = some literal) (hformat : op.format = .literal)
    (hlen : op.spec.length = some 3) (hdefs : op.spec.defs.isSome)
    (hok : Emit.opU16 op i g = .ok pc g')
    (his : ∀ {P : Program} {ctx : Ctx} {lab : Nat → Mark} {fill : Hole → Nat},
      P.Literal i.toNat literal → (ctx.enter lab r.openings).opens = a.opens.map (place fill) →
      act.Is P r.ps ctx lab a.mark (.plain op (le16 i.toNat).toList a.frame) .flow) :
    Reaches r [act] a g' := by
  have hjump : op.format.jumpLen = none := by rw [hformat]; rfl
  obtain ⟨-, hdrafted⟩ := h.instruction hok a.frame hjump hlen hdefs
    (fun _ => by rw [immediate_le16_toNat]; exact (lt_of_getElem? hi))
    (fun hfunction => by rw [hformat] at hfunction; cases hfunction)
  exact ⟨_, hdrafted, .of_plain h.built.sound rfl rfl fun hfills hplaced => his (hfills.literal hi) hplaced⟩

/-- An index of a literal is asked for. -/
theorem Drafted.literalIndex (h : Drafted g a) {literal : Literal}
    (hok : Emit.literalIndex literal g = .ok i g') :
    ∃ literals, a.literals <+: literals ∧ literals[i.toNat]? = some literal ∧
      Drafted g' { a with literals } := by
  obtain ⟨table, rfl, hindex⟩ := literalIndex_ok hok
  exact h.literal hindex

/-- More literals lead nowhere. -/
theorem Leads.literals {acts : List Action} {b : Draft} {literals : List Literal}
    (hincl : a.literals <+: literals)
    (h : Emits r acts { a with literals } b) :
    Emits r acts a b :=
  ⟨(Draft.grown_literals _ _ hincl).trans h.grown, h.opens, h.run⟩

/-- An instruction whose operand is a literal. -/
theorem Drafted.literalOp (h : Drafted g a) {op : Opcode} {literal : Literal}
    (hok : Walk.literalOp op literal g = .ok () g') (hformat : op.format = .literal)
    (hlen : op.spec.length = some 3) (hdefs : op.spec.defs.isSome)
    (his : ∀ {P : Program} {ctx : Ctx} {lab : Nat → Mark} {fill : Hole → Nat} {i : UInt16},
      P.Literal i.toNat literal → (ctx.enter lab r.openings).opens = a.opens.map (place fill) →
      act.Is P r.ps ctx lab a.mark (.plain op (le16 i.toNat).toList a.frame) .flow) :
    Reaches r [act] a g' := by
  simp only [Walk.literalOp, Emit.opLiteral, bind_ok, pure_ok] at hok
  obtain ⟨_, _, ⟨i, g₁, hindex, hop⟩, -, rfl⟩ := hok
  obtain ⟨literals, hincl, hget, hdrafted⟩ := h.literalIndex hindex
  obtain ⟨a', hdrafted', hemits⟩ := hdrafted.emits_literal hget hformat hlen hdefs hop his
  exact ⟨a', hdrafted', hemits.literals hincl⟩

/-- An instruction that says which literal it uses. -/
theorem Drafted.emits_literalOp (h : Drafted g a) {op : Opcode} {literal : Literal}
    (hok : Walk.literalOp op literal g = .ok () g') (hformat : op.format = .literal)
    (hlen : op.spec.length = some 3) (hdefs : op.spec.defs.isSome) :
    Reaches r [.literal op literal] a g' :=
  h.literalOp hok hformat hlen hdefs fun hliteral _ => ⟨rfl, _, hliteral, rfl⟩

end Instructions

/-! ## Jumps -/

section Jumps

variable {t : Tree} {ps : Parts} {fill : Hole → Nat} {P : Program}
  {n label : Nat} {ctx : Ctx} {lab : Nat → Mark} {acts : List Action} {op : Opcode} {hole : Hole}
  {a : Draft} {z : Mark}

/-- A jump leads to where its label is passed. -/
theorem Fills.jump (h : Fills fill P n (a.emit (.jump op hole a.frame))) (hsound : a.Sound)
    (hn : n ≤ a.main.length) (hlabel : fill hole = (lab label).pos)
    (hrest : Run t P ps ctx lab acts (a.emit (.jump op hole a.frame)).mark z) :
    Run t P ps ctx lab (.jump op label .flow :: acts) a.mark z := by
  refine .emit ⟨rfl, ?_⟩ (h.step hsound hn rfl) hrest
  simp only [Cell.closed, Cell.jump, Operands.closed, List.map_cons, List.map_nil, hlabel]
  rfl

end Jumps

/-! ## Names -/

section Names

variable {name : String} {opens : List Opened} {fill : Hole → Nat} {g g' : Generator} {a : Draft}

/-- A scan of the entries finds the innermost slot. -/
theorem Stacked.scan {s : StatementStack} (h : Stacked s a) (fill : Hole → Nat) (name : String)
    {n : Nat} (hn : n ≤ a.opens.length) : StatementStack.scan name (s.entries.toList.take n).reverse =
      Ctx.slotIn? name ((a.opens.take n).map (place fill)).reverse := by
  induction n with
  | zero => rfl
  | succ n ih =>
    have hn' : n < s.entries.toList.length := by rw [Array.length_toList, h.size]; exact hn
    have hstated := h.entries n s.entries.toList[n] a.opens[n] (by simp) (List.getElem?_eq_getElem hn)
    rw [List.take_succ_eq_append_getElem hn', List.take_succ_eq_append_getElem hn, List.map_append,
      List.map_singleton, List.reverse_concat, List.reverse_concat, StatementStack.scan,
      Ctx.slotIn?, OpenStatement.slot?, hstated.kind, hstated.scope, ih (Nat.le_of_lt hn)]
    simp only [place]
    cases a.opens[n].scope with
    | none => rfl
    | some scope => cases hindex : scope.names.idxOf? name <;> simp [hindex]

/-- The slot of a name as an operand. -/
theorem Drafted.localSlot (h : Drafted g a) {slot : Option UInt16}
    (hok : Walk.localSlot name g = .ok slot g') :
    g' = g ∧ ∀ (fill : Hole → Nat) (ctx : Ctx), ctx.opens = a.opens.map (place fill) →
      ctx.slot? name = slot.map UInt16.toNat := by
  simp only [Walk.localSlot, Emit.lookup, get_bind, bind_ok, liftFault_ok] at hok
  obtain ⟨r, _, ⟨hlookup, rfl⟩, hok⟩ := hok
  have hslot : ∀ (fill : Hole → Nat) (ctx : Ctx), ctx.opens = a.opens.map (place fill) →
      ctx.slot? name = r := by
    intro fill ctx hctx
    have hscan := h.stacked.scan fill name (Nat.le_refl _)
    rw [List.take_length, ← hctx, ← h.stacked.size, ← Array.length_toList, List.take_length] at hscan
    rw [Ctx.slot?, ← hscan]
    exact Except.ok.inj ((h.stacked.linked.lookup name).symm.trans hlookup)
  cases r with
  | none =>
    obtain ⟨rfl, rfl⟩ := pure_ok.mp hok
    exact ⟨rfl, hslot⟩
  | some n =>
    simp only [guard_tooLarge_ok, pure_ok] at hok
    obtain ⟨hlt, rfl, rfl⟩ := hok
    refine ⟨rfl, fun fill ctx hctx => (hslot fill ctx hctx).trans ?_⟩
    rw [Option.map_some, UInt16.toNat_ofNat', Nat.mod_eq_of_lt (by omega)]

variable {r : Setting}

/-- An access by slot. -/
theorem Drafted.emits_slot (h : Drafted g a) {slot : Opcode} {named : Option Opcode}
    (hslot : ∀ (fill : Hole → Nat) (ctx : Ctx), ctx.opens = a.opens.map (place fill) →
      ctx.slot? name = some i.toNat) (hok : Walk.u16Op slot i g = .ok () g') (hop : slot.Simple 2) :
    Reaches r [.access r.openings slot named name] a g' := by
  simp only [Walk.u16Op, bind_ok, pure_ok] at hok
  obtain ⟨pc, _, hok, -, rfl⟩ := hok
  refine ⟨_, (h.simple hok hop a.frame).2, .of_plain h.built.sound rfl rfl
    fun {fill _ _ ctx lab} _ hplaced => ⟨rfl, ?_⟩⟩
  rw [hslot fill (ctx.enter lab r.openings) hplaced]
  exact ⟨i.toNat_lt, rfl⟩

/-- An access by slot or by name. -/
theorem Drafted.emits_access (h : Drafted g a) {slot named : Opcode} {i : Option UInt16}
    {g₁ : Generator} (hlookup : Walk.localSlot name g = .ok i g₁)
    (hok : (match i with
      | some i => Walk.u16Op slot i
      | none => Walk.literalOp named (.string name)) g₁ = .ok () g')
    (hslot : slot.Simple 2) (hformat : named.format = .literal)
    (hlen : named.spec.length = some 3) (hdefs : named.spec.defs.isSome) :
    Reaches r [.access r.openings slot (some named) name] a g' := by
  obtain ⟨rfl, hctx⟩ := h.localSlot hlookup
  cases i with
  | some i => exact h.emits_slot hctx hok hslot
  | none =>
    refine h.literalOp hok hformat hlen hdefs fun {P ctx lab fill i} hliteral hplaced => ⟨rfl, ?_⟩
    rw [hctx fill (ctx.enter lab r.openings) hplaced]
    exact ⟨named, i.toNat, rfl, hliteral, rfl⟩

theorem Drafted.nameValue (h : Drafted g a) (hok : Walk.nameValue name g = .ok () g') :
    Reaches r [.access r.openings .getLocal (some .name) name] a g' := by
  simp only [Walk.nameValue, bind_ok] at hok
  obtain ⟨i, g₁, hlookup, hok⟩ := hok
  exact h.emits_access hlookup hok (by decide) rfl rfl rfl

theorem Drafted.storeName (h : Drafted g a) (hok : Walk.storeName name g = .ok () g') :
    Reaches r [Lowering.store r.openings name] a g' := by
  simp only [Walk.storeName, bind_ok] at hok
  obtain ⟨i, g₁, hlookup, hok⟩ := hok
  exact h.emits_access hlookup hok (by decide) rfl rfl rfl

end Names

end ScriptCompiler
