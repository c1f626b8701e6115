import ScriptCompiler.Proofs.Draft.Progress

/-!
# Ways out of statements

What is emitted before a jump leaves statements, and the jump itself, which joins
a chain of the statement it leaves.
-/

namespace ScriptCompiler

open Bytes Emit Lowering StatementStack Opened

variable {i pops pc pops' stop count n : Nat} {chain : Chain} {e : OpenStatement} {g₁ : Generator}
  {p : OpenStatement → Bool}

variable {r : Setting} {g g' : Generator} {a : Draft} {o : Opened}

theorem Drafted.note (h : Drafted g a) {kind : NoteKind} {p : Nat}
    (hok : Emit.note kind g = .ok p g') : Drafted g' a := h.noted (note_noted hok)

/-- The pops that have been put off. -/
theorem Drafted.flushPops (h : Drafted g a) (hpops : pops < 65536)
    (hok : Emit.flushPops pops g = .ok () g') : Reaches r (Lowering.flush pops) a g' := by
  rw [Emit.flushPops] at hok
  rw [Lowering.flush]
  split at hok
  · rename_i hpos
    simp only [bind_ok, pure_ok] at hok
    obtain ⟨_, g₁, hnote, pc, g₂, hpop, -, rfl⟩ := hok
    rw [if_pos hpos]
    have hop := (h.note hnote).emits_simple (r := r) hpop ⟨rfl, rfl, rfl, by decide, by decide⟩
    rw [UInt16.toNat_ofNat', Nat.mod_eq_of_lt hpops] at hop
    exact hop
  · rename_i hpos
    obtain ⟨-, rfl⟩ := pure_ok.mp hok
    rw [if_neg hpos]
    exact ⟨a, h, .nil a⟩

/-- An instruction that cleans up. -/
theorem Drafted.cleanup (h : Drafted g a) {op : Opcode} {bytes : Bytes}
    (hok : Emit.cleanup (Emit.instruction op bytes) g = .ok () g') (hop : op.Simple bytes.size) :
    Reaches r [.op op bytes.toList .flow] a g' := by
  simp only [Emit.cleanup, bind_ok, pure_ok] at hok
  obtain ⟨_, g₁, hnote, pc, _, hok, -, rfl⟩ := hok
  exact (h.note hnote).emits_simple hok hop

section

variable (h : Drafted g a) (ho : a.opens[i]? = some o)

include h ho

/-- A jump joins the chain of a statement without a change of the stack in between. -/
theorem Drafted.leads_join (htakes : o.kind.takes chain)
    (he : g.statements.entries[i]? = some e)
    (hlink : Emit.link .backpatch (e.link chain) g = .ok pc g₁)
    (hset : Emit.modifyStatement i (·.setLink (some pc) chain) g₁ = .ok () g') :
    Drafted g' (a.emit (.jump chain.op (.chain o.serial chain) a.frame)) ∧
      Leads r
        (fun fill => [.exit chain.op (fill (.chain o.serial chain)) .flow]) a
        (a.emit (.jump chain.op (.chain o.serial chain) a.frame)) := by
  refine ⟨(h.join ho htakes he hlink hset a.frame).2, .of_emit h.built.sound rfl ?_ fun _ _ => ⟨rfl, rfl⟩⟩
  intro hole hmem hchain
  exact absurd (List.mem_singleton.mp hmem) (hchain _ _)

/-- The call of a finally clause. -/
theorem Drafted.gosub (hkind : o.kind = .finallyClause) {last : Option Nat} {g₂ : Generator}
    (hgosubs : Emit.gosubs i g = .ok last g₁) (hlink : Emit.link .backpatch last g₁ = .ok pc g₂)
    (hset : Emit.setGosubs i (some pc) g₂ = .ok () g') :
    Drafted g' (a.emit (.jump .gosub (.chain o.serial .gosubs) a.frame)) ∧
      Leads r
        (fun fill => [.exit .gosub (fill (.chain o.serial .gosubs)) .flow]) a
        (a.emit (.jump .gosub (.chain o.serial .gosubs) a.frame)) := by
  simp only [Emit.gosubs, bind_ok, pure_ok] at hgosubs
  obtain ⟨e, _, hstatement, rfl, rfl⟩ := hgosubs
  obtain ⟨he, rfl⟩ := statement_ok hstatement
  exact h.leads_join ho (show o.kind.takes .gosubs = true by rw [hkind]; rfl) he hlink hset

/-- What leaving a statement takes because of its kind. -/
theorem Drafted.leaveKind (hpops : pops < 65536)
    (hok : Emit.leaveKind i pops o.kind g = .ok pops' g') :
    pops' < 65536 ∧ (∀ fill, (Lowering.leavingKind pops (o.place fill)).2 = pops') ∧
      ∃ a', Drafted g' a' ∧ Leads r
        (fun fill => (Lowering.leavingKind pops (o.place fill)).1) a a' := by
  have hplace : ∀ fill, (o.place fill).kind = o.kind := fun _ => rfl
  cases hkind : o.kind with rw [hkind] at hok
  | finallyClause =>
    simp only [Emit.leaveKind, bind_ok, pure_ok] at hok
    obtain ⟨_, g₁, hflush, _, g₂, hnote, last, g₃, hgosubs, pc, g₄, hlink, _, _, hset, rfl, rfl⟩ := hok
    obtain ⟨a₁, h₁, hleads₁⟩ := h.flushPops (r := r) hpops hflush
    obtain ⟨h₂, hleads₂⟩ := (h₁.note hnote).gosub (r := r) (by rw [hleads₁.opens]; exact ho) hkind
      hgosubs hlink hset
    simp only [Lowering.leavingKind, hplace, hkind]
    refine ⟨by decide, fun _ => trivial, _, h₂, ?_⟩
    have hfinally : ∀ fill, (o.place fill).finallyAt = fill (.chain o.serial .gosubs) := by
      intro fill
      simp [place, hkind]
    simp only [hfinally]
    exact hleads₁.append hleads₂
  | withObject | forInLoop =>
    simp only [Emit.leaveKind, bind_ok, pure_ok] at hok
    obtain ⟨_, g₁, hflush, _, g₂, hclean, rfl, rfl⟩ := hok
    obtain ⟨a₁, h₁, hleads₁⟩ := h.flushPops (r := r) hpops hflush
    obtain ⟨a₂, h₂, hleads₂⟩ := h₁.cleanup (r := r) hclean (by decide)
    simp only [Lowering.leavingKind, hplace, hkind]
    exact ⟨by decide, fun _ => trivial, _, h₂, hleads₁.append hleads₂⟩
  | subroutine =>
    simp only [Emit.leaveKind, guard_throw_ok, pure_ok] at hok
    obtain ⟨hlt, rfl, rfl⟩ := hok
    simp only [Lowering.leavingKind, hplace, hkind]
    exact ⟨by omega, fun _ => trivial, a, h, .nil a⟩
  | _ =>
    simp only [Emit.leaveKind, pure_ok] at hok
    obtain ⟨rfl, rfl⟩ := hok
    simp only [Lowering.leavingKind, hplace, hkind]
    exact ⟨hpops, fun _ => trivial, a, h, .nil a⟩

/-- What leaving a statement takes because of the names it binds. -/
theorem Drafted.leaveScope (hpops : pops < 65536) (hok : Emit.leaveScope i pops g = .ok pops' g') :
    pops' < 65536 ∧ (∀ fill, (Lowering.leavingScope pops (o.place fill)).2 = pops') ∧
      ∃ a', Drafted g' a' ∧ Leads r (fun fill => (Lowering.leavingScope pops (o.place fill)).1) a
        a' := by
  have hplace : ∀ fill, (o.place fill).scope = o.scope := fun _ => rfl
  simp only [Emit.leaveScope, bind_ok] at hok
  obtain ⟨e, g₁, hstatement, hok⟩ := hok
  obtain ⟨he, rfl⟩ := statement_ok hstatement
  rw [(h.stacked.entries i e o he ho).scope] at hok
  simp only [Lowering.leavingScope, hplace]
  cases hscope : o.scope with
  | none =>
    rw [hscope] at hok
    obtain ⟨rfl, rfl⟩ := pure_ok.mp hok
    exact ⟨hpops, fun _ => rfl, a, h, .nil a⟩
  | some scope =>
    rw [hscope] at hok
    simp only [bind_ok, pure_ok] at hok
    obtain ⟨_, g₂, hflush, _, g₃, hclean, rfl, rfl⟩ := hok
    obtain ⟨a₁, h₁, hleads₁⟩ := h.flushPops (r := r) hpops hflush
    obtain ⟨a₂, h₂, hleads₂⟩ := h₁.cleanup (r := r) hclean ⟨rfl, rfl, rfl, by decide, by decide⟩
    exact ⟨by decide, fun _ => rfl, _, h₂, hleads₁.append hleads₂⟩

end

namespace Lowering

/-- What leaving some statements takes apart from the last pops, and those pops. -/
def leavingAll (pops : Nat) : List Open → List Action × Nat
  | [] => ([], pops)
  | o :: outer =>
    let kind := leavingKind pops o
    let scope := leavingScope kind.2 o
    let rest := leavingAll scope.2 outer
    (kind.1 ++ scope.1 ++ rest.1, rest.2)

theorem leaving_eq (pops : Nat) (opens : List Open) :
    leaving pops opens = (leavingAll pops opens).1 ++ flush (leavingAll pops opens).2 := by
  induction opens generalizing pops with
  | nil => rfl
  | cons o outer ih => rw [leaving, leavingAll, ih, List.append_assoc _ _ (flush _)]

end Lowering

/-- The statements from `stop + count - 1` down to `stop`, innermost first. -/
def leftStatements (fill : Hole → Nat) (opens : List Opened) (stop count : Nat) : List Open :=
  (((opens.drop stop).take count).map (Opened.place fill)).reverse

theorem leftStatements_succ {fill : Hole → Nat} {opens : List Opened}
    (ho : opens[stop + count]? = some o) :
    leftStatements fill opens stop (count + 1) =
      o.place fill :: leftStatements fill opens stop count := by
  simp [leftStatements, List.take_add_one, List.getElem?_drop, ho]

/-- What leaving statements takes. -/
theorem Drafted.leaveStatements (h : Drafted g a) (hpops : pops < 65536)
    (hok : Emit.leaveStatements stop pops count g = .ok pops' g') :
    pops' < 65536 ∧
      (∀ fill, (Lowering.leavingAll pops (leftStatements fill a.opens stop count)).2 = pops') ∧
      (∀ fill, leavable pops (leftStatements fill a.opens stop count)) ∧
      ∃ a', Drafted g' a' ∧ Leads r (fun fill =>
        (Lowering.leavingAll pops (leftStatements fill a.opens stop count)).1) a a' := by
  induction count generalizing g a pops with
  | zero =>
    obtain ⟨rfl, rfl⟩ := pure_ok.mp hok
    have hnone : ∀ fill, leftStatements fill a.opens stop 0 = [] := fun _ => by
      simp [leftStatements]
    simp only [hnone, Lowering.leavingAll, leavable]
    exact ⟨hpops, fun _ => trivial, fun _ => trivial, a, h, .nil a⟩
  | succ count ih =>
    simp only [Emit.leaveStatements, bind_ok] at hok
    obtain ⟨e, g₁, hstatement, pops₁, g₂, hkind, pops₂, g₃, hscope, hrest⟩ := hok
    obtain ⟨he, rfl⟩ := statement_ok hstatement
    have hlt : stop + count < a.opens.length := by
      rw [← h.stacked.size]
      exact (Array.getElem?_eq_some_iff.mp he).1
    obtain ⟨o, ho⟩ : ∃ o, a.opens[stop + count]? = some o := ⟨_, List.getElem?_eq_getElem hlt⟩
    rw [(h.stacked.entries _ e o he ho).kind] at hkind
    obtain ⟨hpops₁, hleft₁, a₁, h₁, hleads₁⟩ := h.leaveKind (r := r) ho hpops hkind
    obtain ⟨hpops₂, hleft₂, a₂, h₂, hleads₂⟩ :=
      h₁.leaveScope (r := r) (by rw [hleads₁.opens]; exact ho) hpops₁ hscope
    obtain ⟨hpops₃, hleft₃, hleavable₃, a₃, h₃, hleads₃⟩ := ih h₂ hpops₂ hrest
    rw [hleads₂.opens, hleads₁.opens] at hleft₃ hleavable₃ hleads₃
    have hall : ∀ fill, Lowering.leavingAll pops (leftStatements fill a.opens stop (count + 1)) =
        ((Lowering.leavingKind pops (o.place fill)).1 ++
          (Lowering.leavingScope pops₁ (o.place fill)).1 ++
          (Lowering.leavingAll pops₂ (leftStatements fill a.opens stop count)).1, pops') := by
      intro fill
      rw [leftStatements_succ ho]
      simp only [Lowering.leavingAll, hleft₁, hleft₂, hleft₃]
    have hleavable : ∀ fill,
        leavable pops (leftStatements fill a.opens stop (count + 1)) := by
      intro fill
      rw [leftStatements_succ ho]
      simp only [leavable, hleft₁, hleft₂, hleavable₃, hpops₁, decide_true, Bool.and_true]
    simp only [hall]
    exact ⟨hpops₃, fun _ => trivial, hleavable, a₃, h₃, (hleads₁.append hleads₂).append hleads₃⟩

/-- What leaving all statements inside of a target takes. The depth is put back behind it. -/
theorem Drafted.leaveUpTo (h : Drafted g a) {target : Option Nat}
    (hok : Emit.leaveUpTo target g = .ok () g') :
    (∀ fill, leavable 0
      ((a.opens.drop ((target.map (· + 1)).getD 0)).map (place fill)).reverse) ∧
    ∃ a', Drafted g' { a' with depth := a'.depth.set a.depth.depth } ∧ a'.Sound ∧
      Leads r (fun fill => Lowering.leaving 0
        ((a.opens.drop ((target.map (· + 1)).getD 0)).map (place fill)).reverse) a a' := by
  simp only [Emit.leaveUpTo, Emit.stackDepth, guard_throw_ok, get_bind, bind_ok, pure_ok]
    at hok
  obtain ⟨depth, _, ⟨rfl, rfl⟩, -, pops, g₁, hleave, _, g₂, hflush, hset⟩ := hok
  replace hleave : Emit.leaveStatements ((target.map (· + 1)).getD 0) 0
      (a.opens.length - (target.map (· + 1)).getD 0) g = .ok pops g₁ := by
    rw [← h.stacked.size]
    cases target <;> exact hleave
  obtain ⟨hpops, hleft, hleavable, a₁, h₁, hleads₁⟩ := h.leaveStatements (r := r) (by decide) hleave
  obtain ⟨a₂, h₂, hleads₂⟩ := h₁.flushPops (r := r) hpops hflush
  have hall : ∀ fill, leftStatements fill a.opens ((target.map (· + 1)).getD 0)
      (a.opens.length - (target.map (· + 1)).getD 0) =
      ((a.opens.drop ((target.map (· + 1)).getD 0)).map (place fill)).reverse := by
    intro fill
    rw [leftStatements, List.take_of_length_le (by simp)]
  rw [h.built.depth] at hset
  refine ⟨fun fill => hall fill ▸ hleavable fill, a₂, h₂.setStackDepth hset, h₂.built.sound, ?_⟩
  have hleads := hleads₁.append hleads₂
  simp only [← hall, Lowering.leaving_eq, hleft]
  exact hleads

/-! ## Jumps out -/

/-- The stack and the cells of a draft do not depend on where holes lead. -/
theorem StackDepth.set_self {s : StackDepth} (h : s.depth.toNat ≤ s.high) : s.set s.depth = s := by
  simp only [set, raise, Nat.max_eq_left h]

/-- A jump out of statements, which carries no note. -/
theorem Drafted.leaveTo (h : Drafted g a) (ho : a.opens[i]? = some o)
    (htakes : o.kind.takes chain) {label : Option UInt16} {kind : Option NoteKind}
    (hok : Emit.leaveTo i chain label kind g = .ok pc g') :
    (∀ fill, leavable 0 ((a.opens.drop (i + 1)).map (place fill)).reverse) ∧
    ∃ a', Drafted g' ({ a' with depth := a'.depth.set a.depth.depth }.emit
        (.jump chain.op (.chain o.serial chain) a'.frame)) ∧ a'.Sound ∧
      Leads r (fun fill => Lowering.leaving 0
        ((a.opens.drop (i + 1)).map (place fill)).reverse) a a' ∧
      pc = position a'.main a'.main.length := by
  simp only [Emit.leaveTo, bind_ok] at hok
  obtain ⟨_, g₁, hleave, hok⟩ := hok
  obtain ⟨hleavable, a₁, h₁, hsound, hleads⟩ := h.leaveUpTo (r := r) hleave
  obtain ⟨g₂, h₂, e, g₃, hstatement, pc', g₄, hlink, _, _, hset, rfl, rfl⟩ :
      ∃ g₂, Drafted g₂ { a₁ with depth := a₁.depth.set a.depth.depth } ∧ ∃ e g₃,
        Emit.statement i g₂ = .ok e g₃ ∧ ∃ pc' g₄, Emit.link .backpatch (e.link chain) g₃ =
          .ok pc' g₄ ∧ ∃ u g₅, Emit.modifyStatement i (·.setLink (some pc') chain) g₄ = .ok u g₅ ∧
          pc' = pc ∧ g₅ = g' := by
    cases label with
    | some label =>
      cases kind with
      | some kind =>
        simp only [bind_ok, pure_ok] at hok
        obtain ⟨_, g₂, hnote, hok⟩ := hok
        exact ⟨g₂, h₁.noted (note1_noted hnote), hok⟩
      | none =>
        simp only [bind_ok, pure_ok] at hok
        exact ⟨g₁, h₁, hok⟩
    | none =>
      cases kind with
      | some kind =>
        simp only [bind_ok, pure_ok] at hok
        obtain ⟨_, g₂, hnote, hok⟩ := hok
        exact ⟨g₂, h₁.noted (note_noted hnote), hok⟩
      | none =>
        simp only [bind_ok, pure_ok] at hok
        exact ⟨g₁, h₁, hok⟩
  obtain ⟨he, rfl⟩ := statement_ok hstatement
  have ho' : a₁.opens[i]? = some o := by rw [hleads.opens]; exact ho
  obtain ⟨hpc, hdrafted⟩ := h₂.join ho' htakes he hlink hset a₁.frame
  exact ⟨hleavable, a₁, hdrafted, hsound, hleads, hpc⟩

/-! ## Targets -/

section Targets

variable {s : StatementStack} {fill : Hole → Nat} {ctx : Ctx}

theorem Stacked.get (h : Stacked s a) (he : s.entries[i]? = some e) :
    ∃ o, a.opens[i]? = some o ∧ Stated a e o := by
  have hlt : i < a.opens.length := by
    rw [← h.size]
    exact (Array.getElem?_eq_some_iff.mp he).1
  exact ⟨_, List.getElem?_eq_getElem hlt, h.entries i e _ he (List.getElem?_eq_getElem hlt)⟩

theorem Stacked.entry (h : Stacked s a) (hi : i < a.opens.length) : ∃ e, s.entries[i]? = some e :=
  ⟨_, Array.getElem?_eq_getElem (by rw [h.size]; exact hi)⟩

/-- The stack and the context find the same statement. -/
theorem Stacked.findBelow (h : Stacked s a) (hctx : ctx.opens = a.opens.map (place fill))
    {q : Open → Bool} (hpq : ∀ e o, Stated a e o → p e = q (o.place fill)) (n : Nat)
    (hn : n ≤ a.opens.length) : s.findBelow? p n = ctx.findBelow? q n := by
  induction n with
  | zero => rfl
  | succ n ih =>
    obtain ⟨e, he⟩ := h.entry hn
    obtain ⟨o, ho, hstated⟩ := h.get he
    rw [StatementStack.findBelow?, Ctx.findBelow?, he, hctx, List.getElem?_map, ho, Option.map_some,
      ih (Nat.le_of_succ_le hn)]
    simp only [hpq e o hstated]

theorem StatementStack.findBelow?_some (h : s.findBelow? p n = some i) :
    ∃ e, s.entries[i]? = some e ∧ p e := by
  induction n with
  | zero => cases h
  | succ n ih =>
    rw [findBelow?] at h
    split at h
    · rename_i e he
      split at h
      · rename_i hp
        cases h
        exact ⟨e, he, hp⟩
      · exact ih h
    · exact ih h

theorem Stacked.loopFrom (h : Stacked s a) (hctx : ctx.opens = a.opens.map (place fill))
    (n i : Nat) : s.loopFrom? i n = ctx.loopFrom? i n := by
  induction n generalizing i with
  | zero => rfl
  | succ n ih =>
    rw [StatementStack.loopFrom?, Ctx.loopFrom?, hctx, List.getElem?_map, ih]
    cases he : s.entries[i]? with
    | none =>
      rw [List.getElem?_eq_none]
      · rfl
      · rw [← h.size]
        exact Array.getElem?_eq_none_iff.mp he
    | some e =>
      obtain ⟨o, ho, hstated⟩ := h.get he
      rw [ho]
      simp only [Option.map_some, hstated.kind]
      rfl

theorem StatementStack.loopFrom?_some {j : Nat} (h : s.loopFrom? i n = some j) :
    ∃ e, s.entries[j]? = some e ∧ e.kind.isLoop := by
  induction n generalizing i with
  | zero => cases h
  | succ n ih =>
    rw [loopFrom?] at h
    split at h
    · rename_i e he
      split at h
      · rename_i hloop
        cases h
        exact ⟨e, he, hloop⟩
      · exact ih h
    · cases h

section

variable (h : Stacked s a) (hctx : ctx.opens = a.opens.map (place fill))

include h hctx

/-- A break finds its target. -/
theorem Stacked.breakTarget : s.breakTarget? = ctx.breakTarget? none := by
  rw [breakTarget?, findInner?, Ctx.breakTarget?, h.size, hctx,
    List.length_map]
  exact h.findBelow hctx (fun e o hstated => by rw [hstated.kind]; rfl) _ (Nat.le_refl _)

/-- A labeled break finds its target. -/
theorem Stacked.labeled (label : String) : s.labeled? label = ctx.breakTarget? (some label) := by
  rw [labeled?, findInner?, Ctx.breakTarget?, h.size, hctx,
    List.length_map]
  exact h.findBelow hctx (fun e o hstated => by rw [hstated.kind, hstated.label]; rfl) _
    (Nat.le_refl _)

/-- A continue finds its target. -/
theorem Stacked.continueTarget : s.continueTarget? = ctx.continueTarget? none := by
  rw [continueTarget?, findInner?, Ctx.continueTarget?, h.size, hctx,
    List.length_map]
  exact h.findBelow hctx (fun e o hstated => by rw [hstated.kind]; rfl) _ (Nat.le_refl _)

/-- A labeled continue finds its target. -/
theorem Stacked.labeledLoop (label : String) :
    s.labeledLoop? label = ctx.continueTarget? (some label) := by
  simp only [labeledLoop?, Ctx.continueTarget?, h.labeled hctx, h.loopFrom hctx,
    h.size, hctx, List.length_map]

end

/-- The statement that a break leaves takes breaks. -/
theorem Stacked.takes_breaks (h : Stacked s a) (label : Option String)
    (htarget : (match label with
      | none => s.breakTarget?
      | some label => s.labeled? label) = some i) :
    ∃ o, a.opens[i]? = some o ∧ o.kind.takes .breaks := by
  cases label with
  | none =>
    obtain ⟨e, he, hp⟩ := StatementStack.findBelow?_some htarget
    obtain ⟨o, ho, hstated⟩ := h.get he
    refine ⟨o, ho, ?_⟩
    rw [hstated.kind] at hp
    cases hkind : o.kind <;> rw [hkind] at hp <;> first | rfl | exact absurd hp (by decide)
  | some label =>
    obtain ⟨e, he, hp⟩ := StatementStack.findBelow?_some htarget
    obtain ⟨o, ho, hstated⟩ := h.get he
    refine ⟨o, ho, ?_⟩
    rw [hstated.kind] at hp
    have hkind : o.kind = .label := by
      simp only [Bool.and_eq_true, decide_eq_true_eq] at hp
      exact hp.1
    rw [hkind]
    rfl

/-- The statement that a continue restarts takes continues. -/
theorem Stacked.takes_continues (h : Stacked s a) (label : Option String)
    (htarget : (match label with
      | none => s.continueTarget?
      | some label => s.labeledLoop? label) = some i) :
    ∃ o, a.opens[i]? = some o ∧ o.kind.takes .continues := by
  cases label with
  | none =>
    obtain ⟨e, he, hp⟩ := StatementStack.findBelow?_some htarget
    obtain ⟨o, ho, hstated⟩ := h.get he
    exact ⟨o, ho, by rw [hstated.kind] at hp; exact hp⟩
  | some label =>
    simp only [labeledLoop?, Option.bind_eq_bind, Option.bind_eq_some_iff] at htarget
    obtain ⟨j, -, hloop⟩ := htarget
    obtain ⟨e, he, hp⟩ := StatementStack.loopFrom?_some hloop
    obtain ⟨o, ho, hstated⟩ := h.get he
    exact ⟨o, ho, by rw [hstated.kind] at hp; exact hp⟩

end Targets

end ScriptCompiler
