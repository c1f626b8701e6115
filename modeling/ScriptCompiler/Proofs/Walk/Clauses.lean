import ScriptCompiler.Compile.Switch
import ScriptCompiler.Proofs.Walk.Basic

/-!
# Clauses of a switch

The tests of a conditional switch leave a waiting jump each, and the bodies come
after all tests. A body gives the jump of its clause a destination, and leaves
alone all other jumps that wait.
-/

namespace ScriptCompiler

open Bytes Emit Lowering

variable {j pc before after : Option Nat} {clauses : List Case} {clause : Case}
  {k top note index here : Nat} {chain : Walk.CaseChain} {ms : List Mark}
  {bodies bodies' : Walk.CaseBodies}

variable {w : Walk} {ps : Parts} {g g' : Generator} {a : Draft}

theorem exists_getElem?_of_forall₂ {α β : Type} {R : α → β → Prop} {l : List α} {l' : List β}
    (h : List.Forall₂ R l l') {i : Nat} {x : α} (hi : l[i]? = some x) :
    ∃ y, l'[i]? = some y ∧ R x y := by
  induction h generalizing i with
  | nil => simp at hi
  | cons hxy _ ih =>
    cases i with
    | zero =>
      cases hi
      exact ⟨_, rfl, hxy⟩
    | succ i => exact ih (by simpa using hi)

/-! ## Tests -/

/-- The case jump of a clause waits for its body, if the clause has one. -/
def Draft.Awaits (b : Draft) (j pc : Option Nat) : Prop :=
  Option.Rel (fun k pc => ∃ frame, b.Waits .case frame k pc) j pc

theorem Draft.Awaits.follows {b d : Draft} (h : b.Awaits j pc) (hfollows : Follows b d) :
    d.Awaits j pc := by
  cases h with
  | none => exact .none
  | some h =>
    obtain ⟨frame, hwaits⟩ := h
    exact .some ⟨frame, hwaits.follows hfollows⟩

/-- Another jump gets its destination. -/
theorem Draft.awaits_fill {b : Draft} {t : Nat} {js pcs : List (Option Nat)}
    (h : List.Forall₂ b.Awaits js pcs) (hne : ∀ k', some k' ∈ js → k' ≠ k) :
    List.Forall₂ (b.fill (.arm k 0) t).Awaits js pcs := by
  induction h with
  | nil => exact .nil
  | cons hj _ ih =>
    refine .cons ?_ (ih fun k' hk' => hne k' (List.mem_cons_of_mem _ hk'))
    cases hj with
    | none => exact .none
    | @some k' pc hwaits =>
      obtain ⟨frame, hwaits⟩ := hwaits
      refine .some ⟨frame, hwaits.fill fun heq => ?_⟩
      exact hne k' (List.mem_cons_self ..) (Hole.arm.inj heq).1.symm

/-- Case jumps that wait, in the order of their clauses, from cell `n` on. -/
structure Draft.Awaiting (b : Draft) (n : Nat) (js pcs : List (Option Nat)) : Prop where
  each : List.Forall₂ b.Awaits js pcs
  from_le : ∀ k, some k ∈ js → n ≤ k
  sorted : (js.filterMap id).Pairwise (· < ·)

namespace Draft.Awaiting

variable {b d : Draft} {n m : Nat} {js pcs : List (Option Nat)}

theorem follows (h : b.Awaiting n js pcs) (hfollows : Follows b d) (hm : m ≤ n) :
    d.Awaiting m js pcs :=
  ⟨h.each.imp fun _ _ hj => hj.follows hfollows, fun k hk => Nat.le_trans hm (h.from_le k hk),
    h.sorted⟩

theorem lt (h : b.Awaiting n js pcs) (hk : some k ∈ js) : k < b.main.length := by
  obtain ⟨i, hi⟩ := List.mem_iff_getElem?.mp hk
  obtain ⟨pc, -, hj⟩ := exists_getElem?_of_forall₂ h.each hi
  cases hj with
  | some hwaits => exact hwaits.choose_spec.lt

end Draft.Awaiting

theorem closeCase_noted (h : Drafted g a) (hok : Walk.closeCase chain g = .ok () g') :
    Drafted g' a := by
  rw [Walk.closeCase] at hok
  cases hnote : chain.note with
  | none =>
    rw [hnote] at hok
    obtain ⟨-, rfl⟩ := pure_ok.mp hok
    exact h
  | some note =>
    rw [hnote] at hok
    simp only [bind_ok] at hok
    obtain ⟨stop, g₁, hstop, n, g₂, hdistance, hset⟩ := hok
    obtain ⟨-, rfl⟩ := h.built.offset_ok hstop
    obtain ⟨-, -, rfl⟩ := distance_ok hdistance
    exact h.noted (setNote_noted hset)

theorem noteFirst_noted {switchNote pc n : Nat} {first : Option Nat} (h : Drafted g a)
    (hok : Walk.noteFirst top switchNote pc note first g = .ok n g') : Drafted g' a := by
  cases first with
  | some _ =>
    obtain ⟨-, rfl⟩ := pure_ok.mp hok
    exact h
  | none =>
    simp only [Walk.noteFirst, noteCount, get_bind, bind_ok, pure_ok] at hok
    obtain ⟨_, _, ⟨-, rfl⟩, d, g₁, hdistance, _, g₂, hset, _, _, ⟨-, rfl⟩, -, rfl⟩ := hok
    obtain ⟨-, -, rfl⟩ := distance_ok hdistance
    exact h.noted (setNote_noted hset)

/-- The tests of a conditional switch. -/
theorem Visits.caseTests (hvisits : Visits w.tree ps w.visit) (h : Drafted g a)
    (hnested : a.nested = nestedIn ps) {chain' : Walk.CaseChain}
    (hok : w.caseTests top note chain clauses g = .ok chain' g') (index : Nat) :
    ∃ a' js pcs, chain'.jumps = pcs.reverse ++ chain.jumps ∧ Drafted g' a' ∧ Follows a a' ∧
      a'.opens = a.opens ∧ js.length = clauses.length ∧ a'.Awaiting a.main.length js pcs ∧
      ∀ {fill : Hole → Nat} {P : Program} {n : Nat} {ctx : Ctx} {lab : Nat → Mark},
        n ≤ a.main.length → Fills fill P n a' → ctx.inFunction = w.inFunction →
        (ctx.enter lab [opened]).opens = a.opens.map (Opened.place fill) →
        (∀ (i k : Nat), js[i]? = some (some k) →
          fill (.arm k 0) = (lab (bodyLabel (index + i))).pos) →
        Run w.tree P ps ctx lab (Lowering.caseTests index clauses) a.mark a'.mark := by
  induction clauses generalizing g a chain index with
  | nil =>
    obtain ⟨rfl, rfl⟩ := pure_ok.mp hok
    exact ⟨a, [], [], rfl, h, Grown.refl _ _ _, rfl, rfl, ⟨.nil, (by rintro _ ⟨⟩), .nil⟩,
      fun _ _ _ _ _ => .nil _⟩
  | cons clause clauses ih =>
    rw [Walk.caseTests] at hok
    have hshift : ∀ i, index + 1 + i = index + (i + 1) := fun i => by omega
    cases htest : clause.test with
    | none =>
      rw [htest] at hok
      simp only [bind_ok] at hok
      obtain ⟨_, g₁, hclose, hrest⟩ := hok
      obtain ⟨a', js, pcs, hjumps, h', hfollows, hopens, hlength, hwaits, hrun⟩ :=
        ih (closeCase_noted h hclose) hnested hrest (index + 1)
      refine ⟨a', none :: js, none :: pcs, by simp [hjumps], h', hfollows, hopens, by simp [hlength],
        ⟨.cons .none hwaits.each, fun k hk => hwaits.from_le k (by simpa using hk), hwaits.sorted⟩,
        fun hn hfills hin hplaced hlabels => ?_⟩
      rw [Lowering.caseTests, htest]
      refine hrun hn hfills hin hplaced fun i k hi => ?_
      rw [hshift]
      exact hlabels (i + 1) k (by simpa using hi)
    | some test =>
      rw [htest] at hok
      simp only [bind_ok] at hok
      obtain ⟨_, g₁, hchild, _, g₂, hclose, note', g₃, hnote, pc, g₄, hjump, note'', g₅, hfirst,
        hrest⟩ := hok
      obtain ⟨a₁, h₁, hleads₁⟩ := hvisits.child [opened] h hnested hchild
      have h₁' := (closeCase_noted h₁ hclose).noted (note1_noted hnote)
      obtain ⟨h₂, hwaits₂⟩ := h₁'.begin hjump rfl rfl
      have hnested₁ := hleads₁.grown.nested.trans hnested
      obtain ⟨a', js, pcs, hjumps, h', hfollows, hopens, hlength, hwaits, hrun⟩ :=
        ih (noteFirst_noted h₂ hfirst) hnested₁ hrest (index + 1)
      have hlength₂ : (a₁.jump .case).main.length = a₁.main.length + 1 := Draft.length_emit
      have hfollows₂ : Follows a (a₁.jump .case) := Follows.jump hleads₁.grown .case
      refine ⟨a', some a₁.main.length :: js, some pc :: pcs, by simp [hjumps], h',
        hfollows₂.follow hfollows, hopens.trans hleads₁.opens, by simp [hlength],
        ⟨.cons (.some ⟨_, hwaits₂.follows hfollows⟩) hwaits.each, fun k hk => ?_, ?_⟩,
        fun {fill P n ctx lab} hn hfills hin hplaced hlabels => ?_⟩
      · rcases List.mem_cons.mp hk with heq | hk
        · cases heq
          exact hleads₁.grown.length
        · exact Nat.le_trans hfollows₂.length (hwaits.from_le k hk)
      · refine List.pairwise_cons.mpr ⟨fun k hk => ?_, hwaits.sorted⟩
        obtain ⟨j, hj, heq⟩ := List.mem_filterMap.mp hk
        cases heq
        have := hwaits.from_le k hj
        omega
      · have hfills₂ := hfills.before hfollows.extends
        have hfills₁ := hfills₂.before (Draft.extends_jump _)
        rw [Lowering.caseTests, htest]
        refine (hleads₁.run hn hfills₁ hin hplaced).append ?_
        refine hfills₂.jump h₁.built.sound (Nat.le_trans hn hleads₁.grown.length)
          (hlabels 0 _ rfl) (hrun (Nat.le_trans hn hfollows₂.length) hfills hin ?_ fun i k hi => ?_)
        · rw [hplaced]
          exact congrArg _ hleads₁.opens.symm
        · rw [hshift]
          exact hlabels (i + 1) k (by simpa using hi)

/-! ## Bodies -/

/-- Where the last default clause leads, for a label that stands for no such clause so far. -/
def Draft.FallsBack (b : Draft) (index : Nat) (clauses : List Case) (ms : List Mark)
    (before after : Option Nat) : Prop :=
  (after = before ∧ ∀ label, Lowering.fallbackLabel label index clauses = label) ∨
    ∃ i m pc, ms[i]? = some m ∧ after = some pc ∧ b.Placed m.pos pc ∧
      ∀ label, Lowering.fallbackLabel label index clauses = Lowering.bodyLabel (index + i)

/-- One more clause in front, which starts at `mark`. -/
theorem Draft.FallsBack.cons {b : Draft} {mark : Mark} (hhere : b.Placed mark.pos here)
    (h : b.FallsBack (index + 1) clauses ms (if clause.test.isNone then some here else before) after) :
    b.FallsBack index (clause :: clauses) (mark :: ms) before after := by
  rcases h with ⟨hsame, hlabel⟩ | ⟨i, m, pc, hi, hafter, hpc, hlabel⟩
  · cases htest : clause.test with
    | none =>
      rw [htest] at hsame
      refine .inr ⟨0, mark, here, rfl, hsame, hhere, fun label => ?_⟩
      rw [fallbackLabel, hlabel, htest]
      rfl
    | some test =>
      rw [htest] at hsame
      refine .inl ⟨hsame, fun label => ?_⟩
      rw [fallbackLabel, hlabel, htest]
      rfl
  · refine .inr ⟨i + 1, m, pc, by simpa using hi, hafter, hpc, fun label => ?_⟩
    rw [fallbackLabel, hlabel, Nat.add_right_comm, Nat.add_assoc]

/-- The jump of a clause, if there is one, has got its destination. -/
structure Draft.Lands (a : Draft) (m : Nat) (j : Option Nat) (b : Draft) : Prop where
  grown : Grown m a.serial a b
  opens : b.opens = a.opens
  mark : b.mark = a.mark
  filled : ∀ k, j = some k → b.filled (.arm k 0) = some a.main.length
  kept : ∀ hole : Hole, (∀ k, j = some k → hole ≠ .arm k 0) → b.filled hole = a.filled hole

theorem Draft.Lands.length {m : Nat} {b : Draft} (h : a.Lands m j b) :
    b.main.length = a.main.length :=
  congrArg Mark.pos h.mark

/-- The jump of a clause gets its destination, which leaves the other ones waiting. -/
theorem Drafted.landCase (h : Drafted g a) {m : Nat} {js pcs : List (Option Nat)}
    (hwaits : a.Awaiting m (j :: js) (pc :: pcs))
    (hok : w.caseBodies bodies ((clause :: clauses).zip (pc :: pcs)) g = .ok bodies' g') :
    ∃ b g₁, Drafted g₁ b ∧ a.Lands m j b ∧ b.Awaiting m js pcs ∧
      ∃ here g₂, offset g₁ = .ok here g₂ ∧ ∃ u g₃, w.children clause.body g₂ = .ok u g₃ ∧
        w.caseBodies ⟨here :: bodies.offsets,
          if clause.test.isNone then some here else bodies.fallback⟩ (clauses.zip pcs) g₃ =
          .ok bodies' g' := by
  obtain ⟨heach, hfrom, hsorted⟩ := hwaits
  have hfrom' : ∀ k, some k ∈ js → m ≤ k := fun k hk => hfrom k (List.mem_cons_of_mem _ hk)
  cases heach with
  | cons hj heach =>
    cases hj with
    | none =>
      simp only [List.zip_cons_cons, Walk.caseBodies, bind_ok] at hok
      exact ⟨a, g, h, ⟨Grown.refl _ _ _, rfl, rfl, (by rintro _ ⟨⟩), fun _ _ => rfl⟩,
        ⟨heach, hfrom', hsorted⟩, hok⟩
    | @some k pc hwaits =>
      obtain ⟨frame, hwaits⟩ := hwaits
      obtain ⟨hlater, hsorted⟩ := List.pairwise_cons.mp hsorted
      simp only [List.zip_cons_cons, Walk.caseBodies, bind_ok] at hok
      obtain ⟨_, g₁, hland, hok⟩ := hok
      have hk : m ≤ k := hfrom k (List.mem_cons_self ..)
      refine ⟨_, g₁, h.land hwaits hland,
        ⟨Draft.grown_fill hwaits.unfilled (Nat.not_lt.mpr hk), rfl, rfl, fun k' heq => ?_,
          fun hole hne => Draft.filled_fill_ne (hne k rfl)⟩,
        ⟨Draft.awaits_fill heach fun k' hk' => Nat.ne_of_gt ?_, hfrom', hsorted⟩, hok⟩
      · cases heq
        exact Draft.filled_fill_self
      · exact hlater k' (List.mem_filterMap.mpr ⟨some k', hk', rfl⟩)

/-- The bodies of some clauses lead from one draft to another. They start at the marks `ms`, which
have the offsets `offs`, and the jumps `js` of the clauses lead there. -/
structure Bodied (w : Walk) (ps : Parts) (m index : Nat)
    (clauses : List Case) (js : List (Option Nat)) (before after : Option Nat) (ms : List Mark)
    (offs : List Nat) (a a' : Draft) : Prop where
  grown : Grown m a.serial a a'
  opens : a'.opens = a.opens
  length : ms.length = clauses.length
  placed : List.Forall₂ (fun pc (mark : Mark) => a'.Placed mark.pos pc) offs ms
  fallback : a'.FallsBack index clauses ms before after
  filled : ∀ (i k : Nat), js[i]? = some (some k) → ∃ mark : Mark, ms[i]? = some mark ∧
    a'.filled (.arm k 0) = some mark.pos
  /-- Holes that are there already and belong to none of the jumps are as before. -/
  kept : ∀ hole : Hole, hole.Old a.main.length a.serial → (∀ k, some k ∈ js → hole ≠ .arm k 0) →
    a'.filled hole = a.filled hole
  run : ∀ {fill : Hole → Nat} {P : Program} {n : Nat} {ctx : Ctx} {lab : Nat → Mark},
    n ≤ a.main.length → Fills fill P n a' → ctx.inFunction = w.inFunction →
    (ctx.enter lab [Lowering.opened]).opens = a.opens.map (Opened.place fill) →
    (∀ (i : Nat) (mark : Mark), ms[i]? = some mark → lab (Lowering.bodyLabel (index + i)) = mark) →
    Run w.tree P ps ctx lab (Lowering.bodies index clauses) a.mark a'.mark

/-- One more clause in front. -/
theorem Bodied.cons {m : Nat} {js : List (Option Nat)} {offs : List Nat} {b a₂ a' : Draft}
    (hm : m ≤ a.main.length) (hlands : a.Lands m j b) (hhere : b.Placed b.mark.pos here)
    (hbody : Emits (w.setting ps [opened])
      (clause.body.map (.child [opened])) b a₂)
    (h : Bodied w ps m (index + 1) clauses js (if clause.test.isNone then some here else before)
      after ms offs a₂ a') :
    Bodied w ps m index (clause :: clauses) (j :: js) before after (b.mark :: ms) (here :: offs)
      a a' := by
  have hgrown₂ : Grown m a.serial a a₂ := hlands.grown.trans
    (hbody.grown.mono (by rw [hlands.length]; exact hm) hlands.grown.serial)
  have hgrown₃ : Grown m a.serial a₂ a' := h.grown.mono (Nat.le_refl _) hgrown₂.serial
  have hhere' : a'.Placed b.mark.pos here := (hhere.grown hbody.grown).grown hgrown₃
  refine ⟨hgrown₂.trans hgrown₃, h.opens.trans (hbody.opens.trans hlands.opens), by simp [h.length],
    .cons hhere' h.placed, h.fallback.cons hhere', fun i k hi => ?_, fun hole hold hne => ?_,
    fun {fill P n ctx lab} hn hfills hin hplaced hlabels => ?_⟩
  · cases i with
    | zero =>
      refine ⟨b.mark, rfl, ?_⟩
      have := hlands.filled k (by simpa using hi)
      rw [← hlands.length] at this
      exact hgrown₃.filled _ _ (hbody.grown.filled _ _ this)
    | succ i => exact h.filled i k (by simpa using hi)
  · rw [h.kept hole (hold.mono hgrown₂.length hgrown₂.serial) fun k hk =>
      hne k (List.mem_cons_of_mem _ hk)]
    rw [hbody.grown.kept hole (hold.mono (Nat.le_of_eq hlands.length.symm) hlands.grown.serial)]
    exact hlands.kept hole fun k hk => hne k (by rw [hk]; exact List.mem_cons_self ..)
  · have hfills₂ := hfills.before hgrown₃.extends
    rw [Lowering.bodies, ← hlands.mark]
    refine .here (hlabels 0 b.mark rfl) ((hbody.run ?_ hfills₂ hin ?_).append
      (h.run (Nat.le_trans hn hgrown₂.length) hfills hin ?_ fun i mark hi => ?_))
    · rw [hlands.length]
      exact hn
    · rw [hlands.opens]
      exact hplaced
    · rw [hbody.opens, hlands.opens]
      exact hplaced
    · rw [Nat.add_right_comm, Nat.add_assoc]
      exact hlabels (i + 1) mark (by simpa using hi)

/-- The bodies of a switch, whose case jumps get their destinations. -/
theorem Visits.caseBodies (hvisits : Visits w.tree ps w.visit) (h : Drafted g a)
    (hnested : a.nested = nestedIn ps) {m : Nat} (hm : m ≤ a.main.length)
    {js pcs : List (Option Nat)} (hwaits : a.Awaiting m js pcs)
    (hlength : js.length = clauses.length)
    (hok : w.caseBodies bodies (clauses.zip pcs) g = .ok bodies' g') (index : Nat) :
    ∃ (a' : Draft) (ms : List Mark) (offs : List Nat),
      bodies'.offsets = offs.reverse ++ bodies.offsets ∧ Drafted g' a' ∧
      Bodied w ps m index clauses js bodies.fallback bodies'.fallback ms offs a a' := by
  induction clauses generalizing g a bodies js pcs index with
  | nil =>
    obtain rfl := List.length_eq_zero_iff.mp hlength
    rw [List.zip_nil_left] at hok
    obtain ⟨rfl, rfl⟩ := pure_ok.mp hok
    exact ⟨a, [], [], rfl, h, Grown.refl _ _ _, rfl, rfl, .nil, .inl ⟨rfl, fun _ => rfl⟩,
      fun i k hi => by simp at hi, fun _ _ _ => rfl, fun _ _ _ _ _ => .nil _⟩
  | cons clause clauses ih =>
    cases js with
    | nil => cases hlength
    | cons j js =>
      cases pcs with
      | nil => cases hwaits.each
      | cons pc pcs =>
        obtain ⟨b, g₁, hb, hlands, hwaits₁, here, g₂, hhere, _, g₃, hbody, hrest⟩ :=
          h.landCase hwaits hok
        obtain ⟨hplaced, rfl⟩ := hb.built.placed hhere
        have hnested₁ := hlands.grown.nested.trans hnested
        obtain ⟨a₂, h₂, hleads₂⟩ := hvisits.children [opened] hb hnested₁ hbody
        have hle : a.main.length ≤ a₂.main.length :=
          Nat.le_trans hlands.grown.length hleads₂.grown.length
        obtain ⟨a', ms, offs, hoffsets, h', hbodied⟩ :=
          ih h₂ (hleads₂.grown.nested.trans hnested₁) (Nat.le_trans hm hle)
            (hwaits₁.follows hleads₂.grown (Nat.le_refl _)) (by simpa using hlength) hrest (index + 1)
        exact ⟨a', b.mark :: ms, here :: offs, by simp [hoffsets], h',
          hbodied.cons hm hlands hplaced hleads₂⟩

end ScriptCompiler
