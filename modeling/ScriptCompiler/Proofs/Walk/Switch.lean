import ScriptCompiler.Proofs.Draft.Switch
import ScriptCompiler.Proofs.Walk.Clauses
import ScriptCompiler.Proofs.Walk.Plans

/-!
# Switches emit what they are lowered to

The arms of a table and the pairs of a lookup switch are written once all bodies
are in place. What the three ways to lower a switch have in common is where the
bodies start, and that the default jump is set behind them.
-/

namespace ScriptCompiler

open Bytes Emit Lowering

variable {low high : Int} {n note pc t top tests count : Nat} {dests : List Hole} {frame : Frame}
  {g₁ g₂ : Generator} {c : Cell Hole} {entries : List (Option Nat)} {literals : List Nat}
  {place : Nat → Nat} {fill : Hole → Nat}

variable {w : Walk} {ps : Parts} {g g' : Generator} {a : Draft}

/-! ## Arms -/

/-- The arms of a table as offsets, for given offsets of the bodies. -/
theorem fillTable_ok {table table' : Array (Option Nat)} (arms : Array (Option Nat))
    {clauses : List Case} {offs : List Nat} (place : Nat → Nat) (index : Nat)
    (hok : w.fillTable low table (clauses.zip offs) g = .ok table' g')
    (hlength : offs.length = clauses.length) (htable : table = arms.map (Option.map place))
    (hplace : ∀ (i pc : Nat), offs[i]? = some pc → place (bodyLabel (index + i)) = pc) :
    g' = g ∧ table' =
      (tableArms w.tree low arms index clauses).map (Option.map place) := by
  induction clauses generalizing table arms offs index with
  | nil =>
    rw [List.zip_nil_left] at hok
    obtain ⟨rfl, rfl⟩ := pure_ok.mp hok
    exact ⟨rfl, htable⟩
  | cons clause clauses ih =>
    cases offs with
    | nil => cases hlength
    | cons pc offs =>
      have hshift : ∀ i pc', offs[i]? = some pc' → place (bodyLabel (index + 1 + i)) = pc' := by
        intro i pc' hi
        rw [show index + 1 + i = index + (i + 1) by omega]
        exact hplace (i + 1) pc' (by simpa using hi)
      have hrest : offs.length = clauses.length := by simpa using hlength
      rw [List.zip_cons_cons, Walk.fillTable] at hok
      rw [tableArms]
      cases htest : clause.test with
      | none =>
        rw [htest] at hok
        exact ih arms (index + 1) hok hrest htable hshift
      | some test =>
        rw [htest] at hok
        simp only [bind_ok] at hok
        obtain ⟨key, g₁, hkey, hok⟩ := hok
        obtain ⟨rfl, rfl⟩ := tableKey_ok hkey
        rw [Option.bind_some]
        cases hkey' : tableKey? w.tree test with
        | none =>
          rw [hkey'] at hok
          exact ih arms (index + 1) hok hrest htable hshift
        | some z =>
          rw [hkey'] at hok
          simp only [guard_inconsistent_ok, guard_outOfBounds_ok] at hok
          obtain ⟨-, -, hok⟩ := hok
          refine ih _ (index + 1) hok hrest ?_ hshift
          rw [htable, ← hplace 0 pc rfl]
          simp

/-- Arms of one switch are filled one after the other. -/
def Draft.fillArms (a : Draft) (k : Nat) : Nat → List Nat → Draft
  | _, [] => a
  | i, t :: ts => (a.fill (.arm k i) t).fillArms k (i + 1) ts

namespace Draft

variable {k i : Nat} {ts : List Nat}

theorem fillArms_fixed (a : Draft) (k i : Nat) (ts : List Nat) :
    (a.fillArms k i ts).main = a.main ∧ (a.fillArms k i ts).opens = a.opens ∧
      (a.fillArms k i ts).mark = a.mark := by
  induction ts generalizing a i with
  | nil => exact ⟨rfl, rfl, rfl⟩
  | cons t ts ih => exact ih (a.fill (.arm k i) t) (i + 1)

theorem grown_fillArms {s : Nat} (hopen : ∀ j, i ≤ j → a.filled (.arm k j) = none) (hn : n ≤ k) :
    Grown n s a (a.fillArms k i ts) := by
  induction ts generalizing a i with
  | nil => exact Grown.refl _ _ _
  | cons t ts ih =>
    refine (grown_fill (hopen i (Nat.le_refl _)) (Nat.not_lt.mpr hn)).trans (ih fun j hj => ?_)
    rw [filled_fill_ne fun heq => by have := (Hole.arm.inj heq).2; omega]
    exact hopen j (by omega)

theorem filled_fillArms (hopen : ∀ j, i ≤ j → a.filled (.arm k j) = none) {j : Nat}
    (ht : ts[j]? = some t) : (a.fillArms k i ts).filled (.arm k (i + j)) = some t := by
  induction ts generalizing a i j with
  | nil => cases ht
  | cons t' ts ih =>
    have hopen' : ∀ j, i + 1 ≤ j → (a.fill (.arm k i) t').filled (.arm k j) = none := fun j hj => by
      rw [filled_fill_ne fun heq => by have := (Hole.arm.inj heq).2; omega]
      exact hopen j (by omega)
    cases j with
    | zero =>
      cases ht
      exact (grown_fillArms (n := 0) (s := 0) hopen' (Nat.zero_le _)).filled _ _ filled_fill_self
    | succ j =>
      rw [show i + (j + 1) = i + 1 + j by omega]
      exact ih hopen' (by simpa using ht)

end Draft

/-- The span of an arm: that to its body, or none at all for a hole. -/
theorem writeTable_cons {field : Nat} {entry : Option Nat}
    (hok : Walk.writeTable top field (entry :: entries) g = .ok () g') :
    ∃ g₁, setOffsetAt field ((entry.getD top : Int) - top) g = .ok () g₁ ∧
      Walk.writeTable top (field + 2) entries g₁ = .ok () g' := by
  cases entry with
  | none =>
    simp only [Walk.writeTable, bind_ok, pure_ok] at hok
    obtain ⟨_, _, ⟨rfl, rfl⟩, _, g₁, hset, hok⟩ := hok
    refine ⟨g₁, ?_, hok⟩
    rw [Option.getD_none, Int.sub_self]
    exact hset
  | some pc =>
    simp only [Walk.writeTable, bind_ok] at hok
    obtain ⟨z, g₀, hspan, _, g₁, hset, hok⟩ := hok
    obtain ⟨rfl, rfl⟩ := spanBetween_ok hspan
    exact ⟨g₁, hset, hok⟩

/-- The arms of a table are written. -/
theorem Drafted.writeTable {k : Nat} {ts : List Nat} {i : Nat} (h : Drafted g a)
    (hk : a.main[k]? = some (.table low high dests frame))
    (hentries : List.Forall₂ (fun entry t => a.Placed t (entry.getD (position a.main k))) entries ts)
    (hopen : ∀ j, i + 1 ≤ j → a.filled (.arm k j) = none)
    (hroom : i + entries.length ≤ keyCount low high)
    (hok : Walk.writeTable (position a.main k) (position a.main k + 7 + 2 * i) entries g =
      .ok () g') : Drafted g' (a.fillArms k (i + 1) ts) := by
  induction entries generalizing g a i ts with
  | nil =>
    cases hentries
    obtain ⟨-, rfl⟩ := pure_ok.mp hok
    exact h
  | cons entry entries ih =>
    cases hentries with
    | @cons _ t _ ts hplaced hrest =>
      rw [List.length_cons] at hroom
      obtain ⟨g₁, hset, hok⟩ := writeTable_cons hok
      have hdest : (Cell.table low high dests frame).dests[i + 1]? = some (.arm k (i + 1)) := by
        have hholes : dests = (List.range (keyCount low high + 1)).map (.arm k) :=
          (h.built.sound.cells k _ hk).holes
        show dests[i + 1]? = _
        rw [hholes, List.getElem?_map, List.getElem?_range (by omega)]
        rfl
      rw [hplaced.offset] at hset
      have h₁ := h.setOffsetAt hk hdest (hopen _ (Nat.le_refl _)) hplaced.reached hset
      refine ih (a := a.fill (.arm k (i + 1)) t) h₁ hk (hrest.imp fun _ _ hp => ⟨hp.reached, hp.offset⟩)
        (fun j hj => ?_) (by omega) hok
      rw [Draft.filled_fill_ne fun heq => by have := (Hole.arm.inj heq).2; omega]
      exact hopen j (by omega)

/-- A pair of the lookup switch at `k` is in place, with the labels as cells. -/
structure Draft.Paired (b : Draft) (k i : Nat) (place : Nat → Nat) (pair : Literal × Nat) : Prop where
  literal : ∃ n < 65536, b.filled (.literal k i) = some n ∧ b.literals[n]? = some pair.1
  arm : b.filled (.arm k (i + 1)) = some (place pair.2)

/-- One pair of a lookup switch is written, which leaves the other ones alone. -/
theorem Drafted.writePair {k i : Nat} {key : Literal} {index : UInt16} (h : Drafted g a)
    (hk : a.main[k]? = some (.lookup literals dests frame)) (hs : a.settled ≤ k)
    (hi : i < literals.length) (hliteral : a.filled (.literal k i) = none)
    (harm : a.filled (.arm k (i + 1)) = none) (hplaced : a.Placed t pc)
    (hindex : Emit.literalIndex key g = .ok index g₁)
    (hset : Emit.setU16 (position a.main k + 5 + 4 * i) index.toNat g₁ = .ok () g₂)
    (hspan : Emit.setOffsetAt (position a.main k + 5 + 4 * i + 2) ((pc : Int) - position a.main k) g₂ =
      .ok () g') :
    ∃ b, Drafted g' b ∧ Grown k a.serial a b ∧ b.main = a.main ∧ b.settled = a.settled ∧
      b.opens = a.opens ∧ b.mark = a.mark ∧
      (∃ m < 65536, b.filled (.literal k i) = some m ∧ b.literals[m]? = some key) ∧
      b.filled (.arm k (i + 1)) = some t ∧
      ∀ hole : Hole, hole ≠ .literal k i → hole ≠ .arm k (i + 1) → b.filled hole = a.filled hole := by
  obtain ⟨table, hincl, hget, h₁⟩ := h.literalIndex hindex
  have hdest : (Cell.lookup literals dests frame).dests[i + 1]? = some (.arm k (i + 1)) := by
    have hholes : dests = (List.range (literals.length + 1)).map (.arm k) :=
      (h.built.sound.cells k _ hk).holes
    show dests[i + 1]? = _
    rw [hholes, List.getElem?_map, List.getElem?_range (by omega)]
    rfl
  let b₁ : Draft := { a with literals := table }
  let b₂ := b₁.fill (.literal k i) index.toNat
  let b₃ := b₂.fill (.arm k (i + 1)) t
  have h₂ : Drafted g₂ b₂ := h₁.setPairLiteral (a := b₁) hk rfl hi hliteral hs
    (lt_of_getElem? hget) hset
  have harm₂ : b₂.filled (.arm k (i + 1)) = none :=
    (Draft.filled_fill_ne (a := b₁) (by rintro ⟨⟩)).trans harm
  have hfield : position a.main k + 5 + 4 * i + 2 =
      (Cell.lookup literals dests frame).field (position a.main k) (i + 1) := by
    show _ = position a.main k + 2 + 5 + 4 * i
    omega
  rw [hplaced.offset, hfield] at hspan
  have h₃ : Drafted g' b₃ := h₂.setOffsetAt (a := b₂) hk hdest harm₂ hplaced.reached hspan
  have hgrown₁ : Grown k a.serial a b₁ := Draft.grown_literals _ _ hincl
  have hgrown₂ : Grown k a.serial b₁ b₂ := Draft.grown_fill hliteral (Nat.lt_irrefl _)
  have hgrown₃ : Grown k a.serial b₂ b₃ := Draft.grown_fill harm₂ (Nat.lt_irrefl _)
  exact ⟨b₃, h₃, (hgrown₁.trans hgrown₂).trans hgrown₃, rfl, rfl, rfl, rfl,
    ⟨index.toNat, index.toNat_lt, hgrown₃.filled _ _ Draft.filled_fill_self, hget⟩,
    Draft.filled_fill_self, fun hole hne hne' =>
      (Draft.filled_fill_ne (a := b₂) hne').trans (Draft.filled_fill_ne (a := b₁) hne)⟩

/-- The pairs of a lookup switch are written. -/
theorem Drafted.writePairs {k : Nat} {clauses : List Case} {offs : List Nat} {i : Nat}
    (h : Drafted g a) (hk : a.main[k]? = some (.lookup literals dests frame)) (hs : a.settled ≤ k)
    (hopen : ∀ j, i ≤ j → a.filled (.literal k j) = none ∧ a.filled (.arm k (j + 1)) = none)
    (hroom : i + (clauses.filterMap Case.test).length = literals.length)
    (hlength : offs.length = clauses.length) (index : Nat)
    (hplace : ∀ j pc : Nat, offs[j]? = some pc → a.Placed (place (bodyLabel (index + j))) pc)
    (hok : w.writePairs (position a.main k) (position a.main k + 5 + 4 * i) (clauses.zip offs) g =
      .ok () g') :
    ∃ a' pairs, casePairs w.tree index clauses = some pairs ∧ Drafted g' a' ∧
      Grown k a.serial a a' ∧ a'.opens = a.opens ∧ a'.mark = a.mark ∧
      i + pairs.length = literals.length ∧
      ∀ j pair, pairs[j]? = some pair → a'.Paired k (i + j) place pair := by
  induction clauses generalizing g a offs i index with
  | nil =>
    rw [List.zip_nil_left] at hok
    obtain ⟨-, rfl⟩ := pure_ok.mp hok
    exact ⟨a, [], rfl, h, Grown.refl _ _ _, rfl, rfl, hroom, (by rintro _ _ ⟨⟩)⟩
  | cons clause clauses ih =>
    cases offs with
    | nil => cases hlength
    | cons pc offs =>
      have hrest : offs.length = clauses.length := by simpa using hlength
      have hshift : ∀ j pc', offs[j]? = some pc' →
          a.Placed (place (bodyLabel (index + 1 + j))) pc' := by
        intro j pc' hj
        rw [show index + 1 + j = index + (j + 1) by omega]
        exact hplace (j + 1) pc' (by simpa using hj)
      rw [List.zip_cons_cons, Walk.writePairs] at hok
      rw [casePairs]
      cases htest : clause.test with
      | none =>
        rw [htest] at hok
        rw [List.filterMap_cons_none htest] at hroom
        exact ih h hk hs hopen hroom hrest (index + 1) hshift hok
      | some test =>
        rw [htest] at hok
        rw [List.filterMap_cons_some htest, List.length_cons] at hroom
        simp only [bind_ok] at hok
        obtain ⟨key, g₁, hkey, hok⟩ := hok
        obtain ⟨rfl, rfl⟩ := caseKey_ok hkey
        cases hkey' : caseKey? w.tree test with
        | none =>
          rw [hkey'] at hok
          cases hok
        | some key =>
          rw [hkey'] at hok
          simp only [bind_ok] at hok
          obtain ⟨n, g₁, hindex, _, g₂, hliteral, z, g₃, hspan, _, g₄, hset, hok⟩ := hok
          obtain ⟨rfl, rfl⟩ := spanBetween_ok hspan
          obtain ⟨b, hb, hgrown, hmain, hsettled, hopens, hmark, hkey, harm, hkept⟩ := h.writePair hk hs
            (by omega) (hopen i (Nat.le_refl _)).1 (hopen i (Nat.le_refl _)).2 (hplace 0 pc rfl) hindex
            hliteral hset
          rw [← hmain] at hok hk
          have hopen' : ∀ j, i + 1 ≤ j →
              b.filled (.literal k j) = none ∧ b.filled (.arm k (j + 1)) = none := by
            intro j hj
            obtain ⟨hliteral, harm⟩ := hopen j (by omega)
            refine ⟨(hkept _ ?_ (by rintro ⟨⟩)).trans hliteral, (hkept _ (by rintro ⟨⟩) ?_).trans harm⟩
            · simp only [ne_eq, Hole.literal.injEq]
              omega
            · simp only [ne_eq, Hole.arm.injEq]
              omega
          obtain ⟨a', pairs, hpairs, h', hgrown', hopens', hmark', hlength', hpaired⟩ :=
            ih hb hk (hsettled ▸ hs) hopen' (by omega) hrest (index + 1)
              (fun j pc' hj => (hshift j pc' hj).grown hgrown) hok
          refine ⟨a', (key, bodyLabel index) :: pairs, by simp [hkey', hpairs], h',
            hgrown.trans (hgrown'.mono (Nat.le_refl _) hgrown.serial), hopens'.trans hopens,
            hmark'.trans hmark, by rw [List.length_cons]; omega, fun j pair hj => ?_⟩
          cases j with
          | zero =>
            cases hj
            obtain ⟨m, hm, hfilled, hget⟩ := hkey
            exact ⟨⟨m, hm, hgrown'.filled _ _ hfilled, getElem?_of_isPrefix hgrown'.literals hget⟩,
              hgrown'.filled _ _ harm⟩
          | succ j =>
            rw [show i + (j + 1) = i + 1 + j by omega]
            exact hpaired j pair (by simpa using hj)

/-! ## The three plans -/

/-- The cell of a switch that is planned in some way, with `tests` tests. -/
def Draft.Heads (b : Draft) (k tests : Nat) : SwitchPlan → Prop
  | .table low high => ∃ frame, b.main[k]? =
      some (.table low high ((List.range (keyCount low high + 1)).map (.arm k)) frame)
  | .lookup => ∃ frame, b.main[k]? =
      some (.lookup (.replicate tests 0) ((List.range (tests + 1)).map (.arm k)) frame)
  | .conditional => True

/-- The arms of a switch that is planned in some way lead where they should. -/
def Armed (t : Tree) (fill : Hole → Nat) (P : Program) (k : Nat) (place : Nat → Nat)
    (clauses : List Case) : SwitchPlan → Prop
  | .table low high => ∀ (j : Nat) (arm : Option Nat),
      (Lowering.tableArms t low (Array.replicate (keyCount low high) none) 0 clauses)[j]? =
        some arm → fill (.arm k (j + 1)) = (arm.map place).getD k
  | .lookup => ∃ pairs, Lowering.casePairs t 0 clauses = some pairs ∧
      pairs.length = (clauses.filterMap Case.test).length ∧
      ∀ (j : Nat) (pair : Literal × Nat), pairs[j]? = some pair →
        P.Literal (fill (.literal k j)) pair.1 ∧ fill (.arm k (j + 1)) = place pair.2
  | .conditional => True

theorem size_tableArms {t : Tree} {arms : Array (Option Nat)} {index : Nat} {clauses : List Case} :
    (tableArms t low arms index clauses).size = arms.size := by
  induction clauses generalizing arms index with
  | nil => rfl
  | cons clause clauses ih =>
    rw [tableArms]
    split
    · exact ih
    · rw [ih, Array.size_setIfInBounds]

/-- The arms of a switch are written once all bodies are in place. -/
theorem Drafted.switchArms {plan : SwitchPlan} {k : Nat} {clauses : List Case} {offs : List Nat}
    (h : Drafted g a) (hs : a.settled ≤ k) (hk : k < a.main.length)
    (hheads : a.Heads k (clauses.filterMap Case.test).length plan)
    (hopen : plan ≠ .conditional →
      ∀ j, a.filled (.literal k j) = none ∧ a.filled (.arm k (j + 1)) = none)
    (hlength : offs.length = clauses.length) (hbound : ∀ label, place label ≤ a.main.length)
    (hplace : ∀ j pc : Nat, offs[j]? = some pc → pc = position a.main (place (bodyLabel j)))
    (hok : w.switchArms plan (position a.main k) (clauses.zip offs) g = .ok () g') :
    ∃ a', Drafted g' a' ∧ Grown k a.serial a a' ∧ a'.opens = a.opens ∧ a'.mark = a.mark ∧
      ∀ {fill : Hole → Nat} {P : Program} {n : Nat}, Fills fill P n a' →
        Armed w.tree fill P k place clauses plan := by
  cases plan with
  | conditional =>
    obtain ⟨-, rfl⟩ := pure_ok.mp hok
    exact ⟨a, h, Grown.refl _ _ _, rfl, rfl, fun _ => trivial⟩
  | table low high =>
    obtain ⟨frame, hcell⟩ := hheads
    simp only [Walk.switchArms, bind_ok] at hok
    obtain ⟨table, g₁, hfill, hwrite⟩ := hok
    let arms := tableArms w.tree low (Array.replicate (keyCount low high) none) 0 clauses
    obtain ⟨rfl, rfl⟩ := fillTable_ok (Array.replicate (keyCount low high) none)
      (fun label => position a.main (place label)) 0 hfill hlength (by simp)
      fun i pc hi => by rw [Nat.zero_add]; exact (hplace i pc hi).symm
    let ts := arms.toList.map fun arm => (arm.map place).getD k
    have hentries : List.Forall₂ (fun entry t => a.Placed t (entry.getD (position a.main k)))
        (arms.map (Option.map fun label => position a.main (place label))).toList ts := by
      rw [Array.toList_map, List.forall₂_map_left_iff, List.forall₂_map_right_iff,
        List.forall₂_same]
      rintro (_ | label) -
      · exact ⟨Nat.le_of_lt hk, rfl⟩
      · exact ⟨hbound label, rfl⟩
    have hopen' : ∀ j, 0 + 1 ≤ j → a.filled (.arm k j) = none := fun j hj => by
      obtain ⟨j, rfl⟩ := Nat.exists_eq_add_of_le' hj
      exact (hopen (by rintro ⟨⟩) j).2
    have hsize : arms.size = keyCount low high := by
      rw [size_tableArms, Array.size_replicate]
    have h' := h.writeTable (i := 0) hcell hentries hopen' (by simp [hsize]) hwrite
    obtain ⟨-, hopens, hmark⟩ := Draft.fillArms_fixed a k (0 + 1) ts
    refine ⟨_, h', Draft.grown_fillArms hopen' (Nat.le_refl _), hopens, hmark,
      fun hfills j arm harm => ?_⟩
    rw [← Nat.add_comm]
    refine hfills.filled _ _ (Draft.filled_fillArms hopen' ?_)
    rw [List.getElem?_map, Array.getElem?_toList, harm]
    rfl
  | lookup =>
    obtain ⟨frame, hcell⟩ := hheads
    have hplaced : ∀ j pc : Nat, offs[j]? = some pc →
        a.Placed (place (bodyLabel (0 + j))) pc := fun j pc hj => by
      rw [Nat.zero_add]
      exact ⟨hbound _, hplace j pc hj⟩
    obtain ⟨a', pairs, hpairs, h', hgrown, hopens, hmark, hlength', hpaired⟩ :=
      h.writePairs (i := 0) hcell hs (fun j _ => hopen (by rintro ⟨⟩) j) (by simp) hlength 0 hplaced hok
    rw [List.length_replicate, Nat.zero_add] at hlength'
    refine ⟨a', h', hgrown, hopens, hmark, fun hfills => ⟨pairs, hpairs, hlength', fun j pair hj => ?_⟩⟩
    obtain ⟨⟨n, hn, hfilled, hliteral⟩, harm⟩ := hpaired j pair hj
    rw [Nat.zero_add] at hfilled harm
    rw [hfills.filled _ _ hfilled]
    exact ⟨⟨hn, getElem?_of_isPrefix hfills.literals hliteral⟩, hfills.filled _ _ harm⟩

/-- The head of a switch stands in the code: its cell at `k`, and the default jump at `d`. -/
structure Draft.Headed (b : Draft) (k d tests : Nat) (plan : SwitchPlan) : Prop where
  cell : b.Heads k tests plan
  settled : b.settled ≤ k
  lt : k < b.main.length
  le : k ≤ d
  unarmed : plan ≠ .conditional →
    ∀ j, b.filled (.literal k j) = none ∧ b.filled (.arm k (j + 1)) = none
  default : ∃ c, b.main[d]? = some c ∧ c.dests[0]? = some (.arm d 0)
  waits : b.filled (.arm d 0) = none

/-- The destinations of a switch, with that of its default jump first. -/
theorem map_arms {α : Type} {k : Nat} {arms : List α} {dest : α → Nat}
    (hfirst : fill (.arm k 0) = t) (hlength : arms.length = n)
    (hrest : ∀ (j : Nat) (arm : α), arms[j]? = some arm → fill (.arm k (j + 1)) = dest arm) :
    ((List.range (n + 1)).map (.arm k)).map fill = t :: arms.map dest := by
  refine List.ext_getElem? fun i => ?_
  rw [List.map_map, List.getElem?_map]
  cases i with
  | zero => simp [hfirst]
  | succ j =>
    rw [List.getElem?_cons_succ, List.getElem?_map]
    cases harm : arms[j]? with
    | none =>
      rw [List.getElem?_eq_none_iff] at harm
      rw [List.getElem?_eq_none_iff.mpr (by simp; omega)]
      rfl
    | some arm =>
      have hlt := lt_of_getElem? harm
      rw [List.getElem?_range (by omega)]
      exact congrArg some (hrest j arm harm)

/-- A switch is in place whose arms are all to be written. -/
theorem Draft.Sound.headed (hsound : a.Sound) {plan : SwitchPlan}
    (hcell : (a.emit c).Heads a.main.length tests plan)
    (hdests : c.dests = (List.range (n + 1)).map (.arm a.main.length))
    (hsettled : a.settled ≤ a.main.length) :
    (a.emit c).Headed a.main.length a.main.length tests plan where
  cell := hcell
  settled := hsettled
  lt := by rw [length_emit]; exact Nat.lt_succ_self _
  le := Nat.le_refl _
  unarmed := fun _ j => ⟨hsound.fresh _ (Nat.lt_irrefl _), hsound.arm_open _⟩
  default := ⟨c, getElem?_emit_last, by rw [hdests]; simp⟩
  waits := hsound.arm_open 0

theorem Draft.follows_armed (hdests : c.dests = (List.range n).map (.arm a.main.length)) :
    Follows a (a.emit c) := by
  refine grown_emit fun hole hmem _ => ?_
  rw [hdests] at hmem
  obtain ⟨i, -, rfl⟩ := List.mem_map.mp hmem
  exact Nat.lt_irrefl _

theorem Draft.awaiting_none {clauses : List Case} (n : Nat) :
    a.Awaiting n (clauses.map fun _ => none) (clauses.map fun _ => none) where
  each := by
    rw [List.forall₂_map_left_iff, List.forall₂_map_right_iff, List.forall₂_same]
    exact fun _ _ => .none
  from_le := fun k hk => by simp at hk
  sorted := by
    rw [List.filterMap_map]
    simp

/-- The head of a switch leads from one draft to another. The jumps `js` of its tests wait for the
bodies, and the one at `d` is its default jump. -/
structure SwitchBegun (w : Walk) (ps : Parts) (plan : SwitchPlan)
    (clauses : List Case) (jumps : List (Option Nat)) (fallback : Option Nat) (a a' : Draft)
    (js : List (Option Nat)) (d : Nat) : Prop where
  grown : Follows a a'
  opens : a'.opens = a.opens
  length : js.length = clauses.length
  waits : a'.Awaiting a.main.length js jumps
  apart : ∀ k, some k ∈ js → k ≠ d
  headed : a'.Headed a.main.length d (clauses.filterMap Case.test).length plan
  default : fallback.getD (position a.main a.main.length) = position a'.main d
  run : ∀ {fill : Hole → Nat} {P : Program} {n : Nat} {ctx : Ctx} {lab : Nat → Mark},
    n ≤ a.main.length → Fills fill P n a' → ctx.inFunction = w.inFunction →
    (ctx.enter lab [Lowering.opened]).opens = a.opens.map (Opened.place fill) →
    (∀ (i k : Nat), js[i]? = some (some k) → fill (.arm k 0) = (lab (Lowering.bodyLabel i)).pos) →
    fill (.arm d 0) = (lab (Lowering.fallbackLabel 1 0 clauses)).pos →
    Armed w.tree fill P a.main.length (fun label => (lab label).pos) clauses plan →
    ∃ head, Lowering.switchHead w.tree clauses plan = some head ∧
      Run w.tree P ps ctx lab head a.mark a'.mark

/-- A switch of one instruction, whose arms are all to be written. -/
theorem SwitchBegun.of_cell (h : Drafted g a) {plan : SwitchPlan} {clauses : List Case}
    (hcell : (a.emit c).Heads a.main.length (clauses.filterMap Case.test).length plan)
    (hdests : c.dests = (List.range (n + 1)).map (.arm a.main.length)) (hframe : c.frame = a.frame)
    (hhead : ∀ {fill : Hole → Nat} {P : Program} {ctx : Ctx} {lab : Nat → Mark},
      fill (.arm a.main.length 0) = (lab (fallbackLabel 1 0 clauses)).pos →
      Armed w.tree fill P a.main.length (fun label => (lab label).pos) clauses plan →
      ∃ act : Action, Lowering.switchHead w.tree clauses plan = some [act] ∧
        act.Is P ps ctx lab a.mark (c.closed fill a.main.length) .flow) :
    SwitchBegun w ps plan clauses (clauses.map fun _ => none) none a (a.emit c)
      (clauses.map fun _ => none) a.main.length := by
  have hsound := h.built.sound
  refine ⟨Draft.follows_armed hdests, rfl, by simp, Draft.awaiting_none _, fun k hk => by simp at hk,
    hsound.headed hcell hdests h.built.settled_le, (position_append (Nat.le_refl _)).symm,
    fun hn hfills _ _ _ hfallback harmed => ?_⟩
  obtain ⟨act, hacts, his⟩ := hhead hfallback harmed
  exact ⟨_, hacts, .emit his (hfills.step hsound hn hframe) (.nil _)⟩

/-- A table switch. -/
theorem Drafted.beginTable (h : Drafted g a) {clauses : List Case} {jumps : List (Option Nat)}
    {fallback : Option Nat} (hfits : tableFits w.tree low high clauses)
    (hop : opZeroed .tableSwitch (Walk.switchHead (.table low high)
      (clauses.filterMap Case.test).length).2 g = .ok pc g₁)
    (hoperands : w.switchOperands (.table low high) (position a.main a.main.length) note
      (clauses.filterMap Case.test).length clauses g₁ = .ok (jumps, fallback) g') :
    ∃ a' js d, Drafted g' a' ∧
      SwitchBegun w ps (.table low high) clauses jumps fallback a a' js d := by
  rw [← h.built.opZeroed_offset hop rfl rfl] at hoperands
  simp only [Walk.switchOperands, guard_inconsistent_ok, bind_ok, pure_ok] at hoperands
  obtain ⟨hlow16, _, g₂, hlow, hhigh16, _, g₃, hhigh, _, g₄, hregister, heq, rfl⟩ := hoperands
  cases heq
  refine ⟨_, _, _,
    h.tableSwitch hop hlow hhigh hregister (by simpa using hlow16) (by simpa using hhigh16),
    .of_cell h ⟨_, Draft.getElem?_emit_last⟩ rfl rfl fun hfallback harmed =>
      ⟨_, if_pos hfits, rfl, ?_⟩⟩
  have hsize : (tableArms w.tree low (Array.replicate (keyCount low high) none) 0
      clauses).toList.length = keyCount low high := by simp [size_tableArms]
  have hdests := map_arms hfallback hsize fun j arm harm => harmed j arm (by simpa using harm)
  exact congrArg (fun dests => Cell.table low high dests a.frame) hdests

/-- A lookup switch. -/
theorem Drafted.beginLookup (h : Drafted g a) {clauses : List Case} {jumps : List (Option Nat)}
    {fallback : Option Nat}
    (hop : opZeroed .lookupSwitch (Walk.switchHead .lookup
      (clauses.filterMap Case.test).length).2 g = .ok pc g₁)
    (hoperands : w.switchOperands .lookup (position a.main a.main.length) note
      (clauses.filterMap Case.test).length clauses g₁ = .ok (jumps, fallback) g') :
    ∃ a' js d, Drafted g' a' ∧ SwitchBegun w ps .lookup clauses jumps fallback a a' js d := by
  rw [← h.built.opZeroed_offset hop rfl rfl] at hoperands
  simp only [Walk.switchOperands, guard_tooLarge_ok, bind_ok, pure_ok] at hoperands
  obtain ⟨htests, _, g₂, hset, _, g₃, hregister, heq, rfl⟩ := hoperands
  cases heq
  refine ⟨_, _, _, h.lookupSwitch hop hset hregister (Nat.not_le.mp htests),
    .of_cell h ⟨_, Draft.getElem?_emit_last⟩ rfl rfl fun {fill _ _ _} hfallback harmed => ?_⟩
  obtain ⟨pairs, hpairs, hlength, hpaired⟩ := harmed
  have hhead : Lowering.switchHead w.tree clauses .lookup =
      some [.lookup (fallbackLabel 1 0 clauses) pairs] := by
    rw [Lowering.switchHead, hpairs]
    rfl
  refine ⟨_, hhead, rfl, (List.range pairs.length).map fun i => fill (.literal a.main.length i),
    ?_, ?_⟩
  · refine List.forall₂_iff_get.mpr ⟨by simp, fun i hi hi' => ?_⟩
    have := (hpaired i pairs[i] (List.getElem?_eq_getElem hi')).1
    simpa using this
  · have hdests := map_arms hfallback hlength fun j pair hj => (hpaired j pair hj).2
    have hliterals : (a.lookupCell (clauses.filterMap Case.test).length).operands.closed fill
        a.main.length = .lookup ((List.range pairs.length).map fun i =>
          fill (.literal a.main.length i)) := by
      simp [Draft.lookupCell, Cell.lookup, Operands.closed, hlength]
    rw [Cell.closed, hliterals]
    exact congrArg (Cell.mk .lookupSwitch false _ · a.frame) hdests

/-- The default jump behind the tests of a conditional switch. -/
theorem Drafted.closeTests {b : Draft} (h : Drafted g₂ b) {chain : Walk.CaseChain}
    {clauses : List Case} {jumps : List (Option Nat)} {fallback : Option Nat}
    (htests : w.caseTests top note ⟨none, top, []⟩ clauses g₁ = .ok chain g₂)
    (hoperands : w.switchOperands .conditional top note count clauses g₁ =
      .ok (jumps, fallback) g') :
    ∃ g₃ pc, Drafted g₃ b ∧ Emit.jump .default 0 g₃ = .ok pc g' ∧ jumps = chain.jumps.reverse ∧
      fallback = some pc := by
  simp only [Walk.switchOperands, bind_of_ok htests] at hoperands
  split at hoperands
  · simp only [bind_ok, pure_ok] at hoperands
    obtain ⟨_, g₃, hclose, pc, g₄, hdefault, heq, rfl⟩ := hoperands
    cases heq
    exact ⟨g₃, pc, closeCase_noted h hclose, hdefault, rfl, rfl⟩
  · simp only [bind_ok, pure_ok] at hoperands
    obtain ⟨pc, g₄, hdefault, heq, rfl⟩ := hoperands
    cases heq
    exact ⟨g₂, pc, h, hdefault, rfl, rfl⟩

/-- A conditional switch. -/
theorem Visits.beginConditional (hvisits : Visits w.tree ps w.visit) (h : Drafted g a)
    (hnested : a.nested = nestedIn ps) {clauses : List Case} {jumps : List (Option Nat)}
    {fallback : Option Nat} (hop : opZeroed .condSwitch 0 g = .ok pc g₁)
    (hoperands : w.switchOperands .conditional (position a.main a.main.length) note
      (clauses.filterMap Case.test).length clauses g₁ = .ok (jumps, fallback) g') :
    ∃ a' js d, Drafted g' a' ∧ SwitchBegun w ps .conditional clauses jumps fallback a a' js d := by
  obtain ⟨chain, g₂, htests, -⟩ := bind_ok.mp hoperands
  obtain ⟨a₁, h₁, hleads₁⟩ := h.emits_simple (r := w.setting ps [opened])
    (opZeroed_zero rfl hop) (by decide)
  obtain ⟨a₂, js, pcs, hjumps, h₂, hfollows₂, hopens₂, hlength, hwaits, hrun₂⟩ :=
    hvisits.caseTests h₁ (hleads₁.grown.nested.trans hnested) htests 0
  obtain ⟨g₃, pc', h₃, hdefault, rfl, rfl⟩ := h₂.closeTests htests hoperands
  rw [hjumps, List.append_nil, List.reverse_reverse]
  obtain ⟨h₄, hwaits₄⟩ := h₃.begin hdefault rfl rfl
  have hfollows : Follows a a₂ := hleads₁.grown.follow hfollows₂
  refine ⟨_, js, a₂.main.length, h₄, hfollows.jump _, hopens₂.trans hleads₁.opens, hlength,
    hwaits.follows (Follows.jump (Grown.refl _ _ _) _) hleads₁.grown.length,
    fun k hk => Nat.ne_of_lt (hwaits.lt hk), ⟨trivial, ?_, ?_, hfollows.length, (by simp), ?_, ?_⟩,
    hwaits₄.offset, fun {fill P n ctx lab} hn hfills hin hplaced hlabels hfallback _ => ?_⟩
  · exact Nat.le_trans (Nat.le_of_eq hfollows.settled) h.built.settled_le
  · rw [Draft.jump, Draft.length_emit]
    exact Nat.lt_succ_of_le hfollows.length
  · exact ⟨_, hwaits₄.cell, rfl⟩
  · exact hwaits₄.unfilled
  · have hfills₂ := hfills.before (Draft.extends_jump _)
    have hfills₁ := hfills₂.before hfollows₂.extends
    refine ⟨_, rfl, ((hleads₁.run hn hfills₁ hin hplaced).append
      (hrun₂ (Nat.le_trans hn hleads₁.grown.length) hfills₂ hin ?_ fun i k hi => ?_)).append
      (hfills.jump h₃.built.sound (Nat.le_trans hn hfollows.length) hfallback (.nil _))⟩
    · rw [hplaced]
      exact congrArg _ hleads₁.opens.symm
    · rw [Nat.zero_add]
      exact hlabels i k hi

/-- The instruction of a switch and what comes before the bodies. -/
theorem Visits.switchHead (hvisits : Visits w.tree ps w.visit) (h : Drafted g a)
    (hnested : a.nested = nestedIn ps) {plan : SwitchPlan} {clauses : List Case}
    {jumps : List (Option Nat)} {fallback : Option Nat}
    (hfits : ∀ low high, plan = .table low high → tableFits w.tree low high clauses)
    (hop : opZeroed (Walk.switchHead plan (clauses.filterMap Case.test).length).1
      (Walk.switchHead plan (clauses.filterMap Case.test).length).2 g = .ok pc g₁)
    (hoperands : w.switchOperands plan (position a.main a.main.length) note
      (clauses.filterMap Case.test).length clauses g₁ = .ok (jumps, fallback) g') :
    ∃ a' js d, Drafted g' a' ∧ SwitchBegun w ps plan clauses jumps fallback a a' js d := by
  cases plan with
  | conditional => exact hvisits.beginConditional h hnested hop hoperands
  | table low high => exact h.beginTable (hfits low high rfl) hop hoperands
  | lookup => exact h.beginLookup hop hoperands

theorem Draft.Heads.grown {b d : Draft} {m k : Nat} {plan : SwitchPlan} (h : b.Heads k tests plan)
    (hgrown : Grown n m b d) : d.Heads k tests plan := by
  cases plan with
  | conditional => trivial
  | table low high => exact ⟨h.choose, hgrown.main k _ h.choose_spec⟩
  | lookup => exact ⟨h.choose, hgrown.main k _ h.choose_spec⟩

/-! Labels of a switch: where it starts, where it ends, and the bodies. -/

section Labels

variable {b : Draft} {x y mark : Mark} {ms : List Mark} {offs : List Nat}

theorem marks_bodyLabel {i : Nat} (hi : ms[i]? = some mark) :
    marks (x :: y :: ms) (bodyLabel i) = mark := by
  simp [marks, bodyLabel, hi]

theorem marks_le (hx : x.pos ≤ b.main.length) (hy : y.pos ≤ b.main.length)
    (hms : List.Forall₂ (fun pc (mark : Mark) => b.Placed mark.pos pc) offs ms) (label : Nat) :
    (marks (x :: y :: ms) label).pos ≤ b.main.length := by
  match label with
  | 0 => exact hx
  | 1 => exact hy
  | i + 2 =>
    rw [marks, List.getD_cons_succ, List.getD_cons_succ, List.getD_eq_getElem?_getD]
    cases hi : ms[i]? with
    | none => exact Nat.zero_le _
    | some mark =>
      obtain ⟨pc, -, hplaced⟩ := exists_getElem?_of_forall₂ hms.flip hi
      exact hplaced.reached

/-- The default jump leads to the body of the last default clause, or else behind the switch. -/
theorem Draft.FallsBack.target {clauses : List Case} {fallback : Option Nat}
    (h : b.FallsBack 0 clauses ms none fallback) (x : Mark) :
    b.Placed (marks (x :: b.mark :: ms) (fallbackLabel 1 0 clauses)).pos
      (fallback.getD (position b.main b.main.length)) := by
  obtain ⟨rfl, hlabel⟩ | ⟨i, mark, pc, hi, rfl, hplaced, hlabel⟩ := h
  · rw [hlabel]
    exact ⟨Nat.le_refl _, rfl⟩
  · rw [hlabel, Nat.zero_add, marks_bodyLabel hi]
    exact hplaced

end Labels

section Finish

variable {plan : SwitchPlan} {clauses : List Case} {jumps : List (Option Nat)} {js : List (Option Nat)}
  {fallback after : Option Nat} {a₃ a₄ : Draft} {d : Nat} {ms : List Mark} {offs : List Nat}

variable (h : SwitchBegun w ps plan clauses jumps fallback a a₃ js d)
  (hbodied : Bodied w ps a.main.length 0 clauses js none after ms offs a₃ a₄)

include h hbodied

/-- Behind the bodies the default jump gets its destination, and then the arms. -/
theorem SwitchBegun.finish (hdrafted : Drafted g a₄) {x : Mark} (hx : x.pos ≤ a₄.main.length)
    {which : Nat} (hset : Emit.setJumpOffset (fallback.getD (position a.main a.main.length))
      ((after.getD (position a₄.main a₄.main.length) : Int) -
        fallback.getD (position a.main a.main.length)) g = .ok () g₁)
    (hnote : Emit.setNote note which count g₁ = .ok () g₂)
    (harms : w.switchArms plan (position a.main a.main.length) (clauses.zip offs) g₂ = .ok () g') :
    ∃ a', Drafted g' a' ∧ Grown a.main.length a.serial a₄ a' ∧ a'.opens = a₄.opens ∧
      a'.mark = a₄.mark ∧ ∀ {fill : Hole → Nat} {P : Program} {n : Nat}, Fills fill P n a' →
        fill (.arm d 0) =
          (marks (x :: a₄.mark :: ms) (fallbackLabel 1 0 clauses)).pos ∧
        Armed w.tree fill P a.main.length (fun label => (marks (x :: a₄.mark :: ms) label).pos)
          clauses plan := by
  let lab := marks (x :: a₄.mark :: ms)
  obtain ⟨c, hcell, hdest⟩ := h.headed.default
  have hd : d < a₃.main.length := lt_of_getElem? hcell
  have hunfilled : a₄.filled (.arm d 0) = none :=
    (hbodied.kept (.arm d 0) hd fun k hk heq => h.apart k hk (Hole.arm.inj heq).1.symm).trans
      h.headed.waits
  have htarget := hbodied.fallback.target x
  rw [h.default, ← hbodied.grown.position_eq (Nat.le_of_lt hd), htarget.offset] at hset
  have h₁ := hdrafted.setJumpOffset (hbodied.grown.main d c hcell) hdest hunfilled htarget.reached hset
  let b := a₄.fill (.arm d 0) (lab (fallbackLabel 1 0 clauses)).pos
  have hgrown : Grown a.main.length a.serial a₄ b :=
    Draft.grown_fill hunfilled (Nat.not_lt.mpr h.headed.le)
  -- the bodies and the default jump leave the arms alone
  have hunarmed : plan ≠ .conditional → ∀ j, b.filled (.literal a.main.length j) = none ∧
      b.filled (.arm a.main.length (j + 1)) = none := fun hplan j => by
    have hkept : ∀ hole : Hole, hole.Old a₃.main.length a₃.serial → (∀ k, hole ≠ .arm k 0) →
        b.filled hole = a₃.filled hole := fun hole hold hne =>
      (Draft.filled_fill_ne (hne d)).trans (hbodied.kept hole hold fun k _ => hne k)
    exact ⟨(hkept (.literal _ j) h.headed.lt (by rintro _ ⟨⟩)).trans (h.headed.unarmed hplan j).1,
      (hkept (.arm _ (j + 1)) h.headed.lt (by rintro _ ⟨⟩)).trans (h.headed.unarmed hplan j).2⟩
  have hplace : ∀ j pc : Nat, offs[j]? = some pc →
      pc = position b.main (lab (bodyLabel j)).pos := fun j pc hj => by
    obtain ⟨mark, hmark, hplaced⟩ := exists_getElem?_of_forall₂ hbodied.placed hj
    show pc = position a₄.main (marks (x :: a₄.mark :: ms) (bodyLabel j)).pos
    rw [marks_bodyLabel hmark]
    exact hplaced.offset
  have hbound : ∀ label, (lab label).pos ≤ a₄.main.length :=
    marks_le hx (Nat.le_refl _) hbodied.placed
  have hposition : position a.main a.main.length = position b.main a.main.length :=
    ((h.grown.extends.trans hbodied.grown.extends).position_eq (Nat.le_refl _)).symm
  rw [hposition] at harms
  obtain ⟨a', h', hgrown', hopens, hmark, harmed⟩ := (h₁.noted (setNote_noted hnote)).switchArms
    (Nat.le_trans (Nat.le_of_eq hbodied.grown.settled) h.headed.settled)
    (Nat.lt_of_lt_of_le h.headed.lt hbodied.grown.length)
    ((h.headed.cell.grown hbodied.grown).grown hgrown) hunarmed
    (hbodied.placed.length_eq.trans hbodied.length) hbound hplace harms
  have hserial : a.serial ≤ a₄.serial := Nat.le_trans h.grown.serial hbodied.grown.serial
  exact ⟨a', h', hgrown.trans (hgrown'.mono (Nat.le_refl _) hserial), hopens, hmark, fun hfills =>
    ⟨(hfills.before hgrown'.extends).filled _ _ Draft.filled_fill_self, harmed hfills⟩⟩

/-- The head and the bodies of a switch as a run. -/
theorem SwitchBegun.runs {x y : Mark} {P : Program} {ctx : Ctx} (hn : n ≤ a.main.length)
    (hfills : Fills fill P n a₄) (hin : ctx.inFunction = w.inFunction)
    (hplaced : (ctx.enter (marks (x :: y :: ms)) [opened]).opens =
      a.opens.map (Opened.place fill))
    (hdefault : fill (.arm d 0) = (marks (x :: y :: ms) (fallbackLabel 1 0 clauses)).pos)
    (harmed : Armed w.tree fill P a.main.length (fun label => (marks (x :: y :: ms) label).pos)
      clauses plan) :
    ∃ head, Lowering.switchHead w.tree clauses plan = some head ∧
      Run w.tree P ps ctx (marks (x :: y :: ms)) (head ++ Lowering.bodies 0 clauses)
        a.mark a₄.mark := by
  obtain ⟨head, hhead, hrun⟩ := h.run hn (hfills.before hbodied.grown.extends) hin hplaced
    (fun i k hi => by
      obtain ⟨mark, hmark, hfilled⟩ := hbodied.filled i k hi
      rw [hfills.filled _ _ hfilled]
      exact congrArg Mark.pos (marks_bodyLabel hmark).symm) hdefault harmed
  refine ⟨head, hhead, hrun.append (hbodied.run (Nat.le_trans hn h.grown.length) hfills hin
    (by rw [hplaced, h.opens]) fun i mark hi => ?_)⟩
  rw [Nat.zero_add]
  exact marks_bodyLabel hi

end Finish

/-- A switch. -/
theorem Visits.switch (hvisits : Visits w.tree ps w.visit) (h : Drafted g a)
    (hnested : a.nested = nestedIn ps) {node : Node} {discriminant : NodeId} {clauses : List Case}
    (hkind : node.kind = .switch discriminant clauses)
    (hok : w.switch discriminant clauses g = .ok () g') : Lowers w ps node a g' := by
  simp only [Walk.switch, bind_ok] at hok
  obtain ⟨_, g₁, hdiscriminant, top, g₂, htop, index, g₃, hpush, plan, g₄, hplan, note, g₅, hnote, pc,
    g₆, hop, ⟨jumps, fallback⟩, g₇, hoperands, bodies, g₈, hbodies, hok⟩ := hok
  obtain ⟨here, g₉, hhere, span, g₁₀, hspan, _, g₁₁, hset, n, g₁₂, hdistance, _, g₁₃, hnote', _, g₁₄,
    harms, hpop⟩ := hok
  obtain ⟨a₁, h₁, hleads₁⟩ := hvisits.child [] h hnested hdiscriminant
  obtain ⟨rfl, rfl⟩ := h₁.built.offset_ok htop
  obtain ⟨rfl, h₂⟩ := h₁.pushStatement hpush (by rintro ⟨⟩)
  let o : Opened := ⟨.switch, none, none, a₁.serial, a₁.main.length⟩
  obtain ⟨rfl, hfits⟩ := planSwitch_ok hplan
  have hnested₂ : (a₁.open .switch none).nested = nestedIn ps := hleads₁.grown.nested.trans hnested
  obtain ⟨a₃, js, d, h₃, hbegun⟩ :=
    hvisits.switchHead (h₂.noted (note2_noted hnote)) hnested₂ hfits hop hoperands
  obtain ⟨a₄, ms, offs, hoffs, h₄, hbodied⟩ := hvisits.caseBodies h₃
    (hbegun.grown.nested.trans hnested₂) hbegun.grown.length hbegun.waits hbegun.length hbodies 0
  rw [List.append_nil] at hoffs
  rw [hoffs, List.reverse_reverse] at harms
  obtain ⟨rfl, rfl⟩ := h₄.built.offset_ok hhere
  obtain ⟨rfl, rfl⟩ := spanBetween_ok hspan
  obtain ⟨-, -, rfl⟩ := distance_ok hdistance
  have hgrown₁ : Follows a₁ a₃ := (Draft.follows_open _ _).follow hbegun.grown
  have hle : a.main.length ≤ a₄.main.length :=
    Nat.le_trans (Nat.le_trans hleads₁.grown.length hgrown₁.length) hbodied.grown.length
  obtain ⟨a₅, h₅, hgrown₅, hopens₅, hmark₅, hfilled⟩ :=
    hbegun.finish hbodied h₄ (x := a.mark) hle hset hnote' harms
  have hgrown : Grown a₁.main.length a₁.serial a₁ a₅ :=
    (hgrown₁.trans (hbodied.grown.mono (Nat.le_refl _) hgrown₁.serial)).trans
      (hgrown₅.mono (Nat.le_refl _) (Nat.le_succ _))
  have hopens : a₅.opens = a₁.opens ++ [o] := hopens₅.trans (hbodied.opens.trans hbegun.opens)
  have hmem : o ∈ a₅.opens := by simp [hopens]
  refine ⟨_, h₅.popStatement hopens (by rintro ⟨⟩) hpop, hleads₁.grown.follow (hgrown.trans
    (Draft.grown_close h₅.built.sound hmem (Nat.le_refl _))), hleads₁.opens,
    fun {fill P n ctx} hn hfills hin hctx => ?_⟩
  have hfills₅ := hfills.before (Draft.grown_close h₅.built.sound hmem (Nat.zero_le _))
  have hfills₄ := hfills₅.before hgrown₅.extends
  have hfills₁ := hfills₄.before (hgrown₁.extends.trans hbodied.grown.extends)
  have hbreaks : fill (.chain a₁.serial .breaks) = a₄.main.length :=
    (hfills.filled _ _ (Draft.filled_close_breaks (o := o) rfl)).trans (congrArg Mark.pos hmark₅)
  let lab := marks (a.mark :: a₄.mark :: ms)
  have hplace : opened.place lab = o.place fill := by
    simp only [Opening.place, Opened.place, o, hbreaks]
    rfl
  have hctx₁ : ctx.opens = a₁.opens.map (Opened.place fill) := by rw [hctx, hleads₁.opens]
  obtain ⟨hdefault, harmed⟩ := hfilled hfills₅
  obtain ⟨head, hhead, hrun⟩ := hbegun.runs hbodied (Nat.le_trans hn hleads₁.grown.length) hfills₄ hin
    (placed_one hctx₁ hplace rfl) hdefault harmed
  have hacts : Lowering.node w.tree ctx plan node =
      some (part discriminant :: head ++ Lowering.bodies 0 clauses ++ [.here 1]) := by
    rw [Lowering.node, hkind]
    show Lowering.switch w.tree plan discriminant clauses = _
    rw [Lowering.switch, hhead]
    rfl
  refine ⟨plan, _, lab, hacts, ?_⟩
  have hmark : (a₅.close a₁.opens o).mark = a₄.mark := hmark₅
  rw [hmark]
  exact ((hleads₁.run hn hfills₁ hin (placed_nil hctx)).append hrun).append (.here rfl (.nil _))

end ScriptCompiler
