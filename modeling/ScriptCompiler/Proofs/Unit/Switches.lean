import ScriptCompiler.Proofs.Unit.Exits

/-!
# Where switches lead

However a switch is lowered, by a table, by a lookup or by one test after the
other, each of its tests leads to the body of its clause, and everything else to
the body of the default clause, or behind the switch if there is none.
-/

namespace ScriptCompiler

open Lowering

variable {low high : Int} {arms : Array (Option Nat)}

namespace Lowering

/-- The tests of some clauses from the clause at `index` on, each with the index of its clause. -/
def tests (index : Nat) (clauses : List Case) : List (NodeId × Nat) :=
  (clauses.zipIdx index).filterMap fun entry => entry.1.test.map fun test => (test, entry.2)

section Clauses

variable {t : Tree} {clauses : List Case} {clause : Case} {index i : Nat}

theorem tests_cons (clause : Case) (clauses : List Case) : tests index (clause :: clauses) =
    (clause.test.map fun test => (test, index)).toList ++ tests (index + 1) clauses := by
  rw [tests, List.zipIdx_cons, List.filterMap_cons]
  cases clause.test <;> rfl

/-- A test belongs to a clause. -/
theorem clause_of_test {entry : NodeId × Nat} (h : entry ∈ tests 0 clauses) :
    ∃ clause, clauses[entry.2]? = some clause := by
  simp only [tests, List.mem_filterMap, Option.map_eq_some_iff] at h
  obtain ⟨⟨clause, i⟩, hmem, test, -, rfl⟩ := h
  exact ⟨clause, List.mk_mem_zipIdx_iff_getElem?.mp hmem⟩

/-- The bodies of a switch, cut where that of a clause starts. -/
theorem bodies_split (h : clauses[i]? = some clause) : bodies index clauses =
    (bodies index (clauses.take i) ++ [.here (bodyLabel (index + i))]) ++
      (clause.body.map (.child [opened]) ++ bodies (index + i + 1) (clauses.drop (i + 1))) := by
  induction clauses generalizing index i with
  | nil => cases h
  | cons first clauses ih =>
    cases i with
    | zero =>
      cases h
      rfl
    | succ i =>
      have hrest : clauses[i]? = some clause := by simpa using h
      have hindex : index + 1 + i = index + (i + 1) := by omega
      simp only [bodies, ih hrest, hindex, List.take_succ_cons, List.drop_succ_cons,
        List.cons_append, List.append_assoc]

/-- The tests of a switch, cut behind that of a clause. -/
theorem caseTests_split (h : clauses[i]? = some clause) {test : NodeId} (htest : clause.test = some test) :
    caseTests index clauses =
      (caseTests index (clauses.take i) ++ [.child [opened] test]) ++
        .jump .case (bodyLabel (index + i)) .flow ::
          caseTests (index + i + 1) (clauses.drop (i + 1)) := by
  induction clauses generalizing index i with
  | nil => cases h
  | cons first clauses ih =>
    cases i with
    | zero =>
      cases h
      simp [caseTests, htest]
    | succ i =>
      have hrest : clauses[i]? = some clause := by simpa using h
      have hindex : index + 1 + i = index + (i + 1) := by omega
      simp only [caseTests, ih hrest, hindex, List.take_succ_cons, List.drop_succ_cons,
        List.append_assoc]

/-- The last default clause is the one that counts. -/
theorem fallbackLabel_spec (label index : Nat) (clauses : List Case) :
    (∀ clause ∈ clauses, clause.test ≠ none) ∧ fallbackLabel label index clauses = label ∨
      ∃ i clause, clauses[i]? = some clause ∧ clause.test = none ∧
        (∀ other ∈ clauses.drop (i + 1), other.test ≠ none) ∧
        fallbackLabel label index clauses = bodyLabel (index + i) := by
  induction clauses generalizing label index with
  | nil => exact .inl ⟨by simp, rfl⟩
  | cons first clauses ih =>
    rw [fallbackLabel]
    rcases ih (if first.test.isNone then bodyLabel index else label) (index + 1) with
      ⟨hnone, hlabel⟩ | ⟨i, clause, hclause, hdefault, hlast, hlabel⟩
    · cases htest : first.test with
      | none =>
        rw [htest] at hlabel
        exact .inr ⟨0, first, rfl, htest, hnone, hlabel⟩
      | some test =>
        rw [htest] at hlabel
        exact .inl ⟨List.forall_mem_cons.mpr ⟨by simp [htest], hnone⟩, hlabel⟩
    · refine .inr ⟨i + 1, clause, by simpa using hclause, hdefault, by simpa using hlast, ?_⟩
      rw [hlabel]
      congr 1
      omega

theorem tableArms_append (more : List Case) :
    tableArms t low arms index (clauses ++ more) =
      tableArms t low (tableArms t low arms index clauses) (index + clauses.length) more := by
  induction clauses generalizing arms index with
  | nil => rfl
  | cons clause clauses ih =>
    have hindex : index + (clauses.length + 1) = index + 1 + clauses.length := by omega
    rw [List.cons_append, tableArms, tableArms, List.length_cons, hindex]
    cases clause.test.bind (tableKey? t) <;> exact ih

/-- A place of the table that no clause is entered at stays as it was. -/
theorem tableArms_unset {j : Nat}
    (h : ∀ clause ∈ clauses, ∀ key, clause.test.bind (tableKey? t) = some key →
      (key - low).toNat ≠ j) : (tableArms t low arms index clauses)[j]? = arms[j]? := by
  induction clauses generalizing arms index with
  | nil => rfl
  | cons clause clauses ih =>
    have hrest := fun other hmem => h other (List.mem_cons_of_mem _ hmem)
    rw [tableArms]
    cases hkey : clause.test.bind (tableKey? t) with
    | none => exact ih hrest
    | some key =>
      rw [ih hrest, Array.getElem?_setIfInBounds_ne (h clause (List.mem_cons_self ..) key hkey)]

/-- Tests that fit a table are distinct integers in its range. -/
theorem tableFits_spec (h : tableFits t low high clauses) :
    (∀ clause ∈ clauses, ∀ test, clause.test = some test → ∃ key, tableKey? t test = some key ∧
      low ≤ key ∧ key ≤ high) ∧
    clauses.Pairwise fun clause other => ∀ key, clause.test.bind (tableKey? t) = some key →
      other.test.bind (tableKey? t) ≠ some key := by
  simp only [tableFits, tableKeys, Bool.and_eq_true, List.all_map, List.all_eq_true,
    List.mem_filterMap] at h
  obtain ⟨hall, hnodup⟩ := h
  constructor
  · intro clause hclause test htest
    have hkey := hall test ⟨clause, hclause, htest⟩
    simp only [Function.comp_apply, Option.any_eq_true, Bool.and_eq_true, decide_eq_true_eq] at hkey
    exact hkey
  · have hpairs := of_decide_eq_true hnodup
    rw [List.Nodup, List.pairwise_map, List.pairwise_filterMap] at hpairs
    refine hpairs.imp fun hne key hkey hkey' => ?_
    obtain ⟨test, htest, hkey⟩ := Option.bind_eq_some_iff.mp hkey
    obtain ⟨test', htest', hkey'⟩ := Option.bind_eq_some_iff.mp hkey'
    exact hne test htest test' htest' (hkey.trans hkey'.symm)

/-- The table has the body of a clause where its test is, and nothing where no test is. -/
theorem tableArms_spec (h : tableFits t low high clauses) {key : Int} (hlow : low ≤ key)
    (hhigh : key ≤ high) :
    (∀ i clause, clauses[i]? = some clause → clause.test.bind (tableKey? t) = some key →
      (tableArms t low (Array.replicate (keyCount low high) none) 0 clauses)[(key - low).toNat]? =
        some (some (bodyLabel i))) ∧
    ((∀ clause ∈ clauses, clause.test.bind (tableKey? t) ≠ some key) →
      (tableArms t low (Array.replicate (keyCount low high) none) 0 clauses)[(key - low).toNat]? =
        some none) := by
  obtain ⟨hrange, hdistinct⟩ := tableFits_spec h
  have hsize : (key - low).toNat < keyCount low high := by
    rw [keyCount]
    omega
  -- distinct keys have distinct places
  have hplace : ∀ clause ∈ clauses, clause.test.bind (tableKey? t) ≠ some key →
      ∀ other, clause.test.bind (tableKey? t) = some other →
        (other - low).toNat ≠ (key - low).toNat := by
    intro clause hclause hne other hother heq
    obtain ⟨test, htest, hkey⟩ := Option.bind_eq_some_iff.mp hother
    obtain ⟨_, hkey', hlo, hhi⟩ := hrange clause hclause test htest
    obtain rfl := Option.some.inj (hkey.symm.trans hkey')
    exact hne (hother.trans (congrArg some (by omega)))
  constructor
  · intro i clause hclause hkey
    obtain ⟨hlt, hget⟩ := List.getElem?_eq_some_iff.mp hclause
    have hsplit : clauses = clauses.take i ++ clause :: clauses.drop (i + 1) := by
      rw [← hget, ← List.drop_eq_getElem_cons hlt, List.take_append_drop]
    have hlength : (clauses.take i).length = i := List.length_take_of_le (Nat.le_of_lt hlt)
    rw [hsplit, List.pairwise_append, List.pairwise_cons] at hdistinct
    rw [hsplit, tableArms_append, hlength, Nat.zero_add, tableArms, hkey]
    dsimp only
    rw [tableArms_unset fun other hother => hplace other
      (by rw [hsplit]; simp [hother]) (hdistinct.2.1.1 other hother key hkey)]
    exact Array.getElem?_setIfInBounds_self_of_lt (by rw [size_tableArms]; simpa using hsize)
  · intro hnone
    rw [tableArms_unset fun clause hclause => hplace clause hclause (hnone clause hclause)]
    simp [hsize]

/-- The pairs of a lookup are the tests with the bodies of their clauses. -/
theorem casePairs_spec {pairs : List (Literal × Nat)} (h : casePairs t index clauses = some pairs) :
    List.Forall₂ (fun (pair : Literal × Nat) (entry : NodeId × Nat) =>
      caseKey? t entry.1 = some pair.1 ∧ pair.2 = bodyLabel entry.2) pairs (tests index clauses) := by
  induction clauses generalizing index pairs with
  | nil =>
    cases h
    exact .nil
  | cons clause clauses ih =>
    rw [casePairs] at h
    rw [tests_cons]
    cases htest : clause.test with
    | none =>
      rw [htest] at h
      exact ih h
    | some test =>
      simp only [htest, Option.bind_eq_bind, Option.bind_eq_some_iff, Option.pure_def,
        Option.some.injEq] at h
      obtain ⟨key, hkey, rest, hrest, rfl⟩ := h
      exact .cons ⟨hkey, rfl⟩ (ih hrest)

end Clauses

end Lowering

/-! ## Places in the code of a switch -/

section Places

variable (tree : Tree) (P : Program) (s : Script) (occ : Occurrence) (discriminant : NodeId)
  (clauses : List Case)

/-- The code of the body of a clause starts at a target. -/
def Occurrence.BodyAt (i target : Nat) : Prop :=
  ∃ clause front y, clauses[i]? = some clause ∧
    occ.Splits tree P front (clause.body.map (.child [Lowering.opened]) ++
      Lowering.bodies (i + 1) (clauses.drop (i + 1)) ++ [.here 1]) y ∧ target = P.offset y.pos

/-- A target is where the body of the default clause starts, or behind the switch if there is no
such clause. -/
def Occurrence.DefaultAt (target : Nat) : Prop :=
  (∃ i clause, clauses[i]? = some clause ∧ clause.test = none ∧
    (∀ other ∈ clauses.drop (i + 1), other.test ≠ none) ∧ occ.BodyAt tree P clauses i target) ∨
  (∀ clause ∈ clauses, clause.test ≠ none) ∧ target = P.offset occ.last.pos

/-- A switch over the integers from `low` to `high`. All tests are among these, those of the clauses
lead to their bodies and the other ones to the default. -/
def Occurrence.SwitchesByTable (low high : Int) : Prop :=
  ∃ back y fallback, ∃ target : Int → Nat,
    occ.Splits tree P [Lowering.part discriminant] back y ∧
    s.FormAt (P.offset y.pos) .tableSwitch ∧
    Script.switchTargets s.code (P.offset y.pos) = .ok (some ⟨fallback,
      ((List.range (keyCount low high)).map fun (i : Nat) =>
        (⟨.integer (low + i), target (low + i)⟩ : SwitchArm)).toArray⟩) ∧
    occ.DefaultAt tree P clauses fallback ∧
    (∀ i clause test, clauses[i]? = some clause → clause.test = some test →
      ∃ key, Lowering.tableKey? tree test = some key ∧ low ≤ key ∧ key ≤ high ∧
        occ.BodyAt tree P clauses i (target key)) ∧
    ∀ key, low ≤ key → key ≤ high →
      (∀ clause ∈ clauses, clause.test.bind (Lowering.tableKey? tree) ≠ some key) →
      target key = fallback

/-- A switch over literals, which are those that the tests stand for, in order. -/
def Occurrence.SwitchesByLookup : Prop :=
  ∃ back y fallback, ∃ arms : Array SwitchArm,
    occ.Splits tree P [Lowering.part discriminant] back y ∧
    s.FormAt (P.offset y.pos) .lookupSwitch ∧
    Script.switchTargets s.code (P.offset y.pos) = .ok (some ⟨fallback, arms⟩) ∧
    occ.DefaultAt tree P clauses fallback ∧
    List.Forall₂ (fun (arm : SwitchArm) (entry : NodeId × Nat) =>
      (∃ n literal, arm.key = .literal n ∧ s.literals[n]? = some literal ∧
        Lowering.caseKey? tree entry.1 = some literal) ∧
      occ.BodyAt tree P clauses entry.2 arm.target) arms.toList (Lowering.tests 0 clauses)

/-- A switch that makes one test after the other, and then goes to the default. -/
def Occurrence.SwitchesByTests : Prop :=
  (∃ back y, occ.Splits tree P [Lowering.part discriminant] back y ∧
    s.OpAt (P.offset y.pos) .condSwitch) ∧
  (∀ i clause test, clauses[i]? = some clause → clause.test = some test →
    ∃ label back y target,
      occ.Splits tree P
        (Lowering.part discriminant :: Lowering.plain .condSwitch ::
          (Lowering.caseTests 0 (clauses.take i) ++ [.child [Lowering.opened] test]))
        (.jump .case label .flow :: back) y ∧
      s.JumpsAt (P.offset y.pos) .case target ∧ occ.BodyAt tree P clauses i target) ∧
  ∃ label y target,
    occ.Splits tree P
      (Lowering.part discriminant :: Lowering.plain .condSwitch :: Lowering.caseTests 0 clauses)
      (.jump .default label .flow :: (Lowering.bodies 0 clauses ++ [.here 1])) y ∧
    s.JumpsAt (P.offset y.pos) .default target ∧ occ.DefaultAt tree P clauses target

/-- A switch leads where its clauses say, however it has been lowered. -/
def Occurrence.Switches : Prop :=
  match occ.plan with
  | .table low high => occ.SwitchesByTable tree P s discriminant clauses low high
  | .lookup => occ.SwitchesByLookup tree P s discriminant clauses
  | .conditional => occ.SwitchesByTests tree P s discriminant clauses

end Places

section Placing

variable {tree : Tree} {P : Program} {s : Script} {occ : Occurrence} {discriminant : NodeId}
  {clauses : List Case} {head : List Action}

section

variable (hruns : occ.Runs tree P)
  (hacts : occ.acts = part discriminant :: head ++ Lowering.bodies 0 clauses ++ [.here 1])

include hruns hacts

/-- The label of a body is where it starts. -/
theorem Occurrence.bodyAt {i : Nat} {clause : Case} (hclause : clauses[i]? = some clause) :
    occ.BodyAt tree P clauses i (P.offset (occ.lab (Lowering.bodyLabel i)).pos) := by
  have hshape : occ.acts = (part discriminant :: head ++
      (Lowering.bodies 0 (clauses.take i) ++ [.here (Lowering.bodyLabel i)])) ++
      (clause.body.map (.child [Lowering.opened]) ++
        Lowering.bodies (i + 1) (clauses.drop (i + 1)) ++ [.here 1]) := by
    rw [hacts, Lowering.bodies_split hclause, Nat.zero_add]
    simp only [List.append_assoc]
  obtain ⟨y, hsplits⟩ := hruns.splits hshape
  have hlabel : occ.lab (Lowering.bodyLabel i) = y :=
    Run.last_here hsplits.front (by rw [← List.append_assoc]; exact List.getLast?_concat)
  exact ⟨clause, _, y, hclause, hsplits, by rw [hlabel]⟩

/-- The label of the default is where the default clause starts, or the end of the switch. -/
theorem Occurrence.defaultAt :
    occ.DefaultAt tree P clauses
      (P.offset (occ.lab (Lowering.fallbackLabel 1 0 clauses)).pos) := by
  rcases Lowering.fallbackLabel_spec 1 0 clauses with
    ⟨hnone, hlabel⟩ | ⟨i, clause, hclause, hdefault, hlast, hlabel⟩
  · rw [hlabel, Run.last_here (hruns.of_eq hacts) List.getLast?_concat]
    exact .inr ⟨hnone, rfl⟩
  · rw [hlabel, Nat.zero_add]
    exact .inl ⟨i, clause, hclause, hdefault, hlast, Occurrence.bodyAt hruns hacts hclause⟩

end

variable (hencodes : Encodes s P) (hruns : occ.Runs tree P)

include hencodes hruns

theorem Occurrence.switchesByTable (hend : occ.last.pos ≤ P.main.length)
    (hfits : Lowering.tableFits tree low high clauses) (hacts : occ.acts = part discriminant ::
      [.table low high (Lowering.fallbackLabel 1 0 clauses)
        (Lowering.tableArms tree low (Array.replicate (keyCount low high) none) 0 clauses).toList] ++
      Lowering.bodies 0 clauses ++ [.here 1]) :
    occ.SwitchesByTable tree P s discriminant clauses low high := by
  let arms := Lowering.tableArms tree low (Array.replicate (keyCount low high) none) 0 clauses
  let fallback := (occ.lab (Lowering.fallbackLabel 1 0 clauses)).pos
  have hshape : occ.acts = [part discriminant] ++
      .table low high (Lowering.fallbackLabel 1 0 clauses) arms.toList ::
        (Lowering.bodies 0 clauses ++ [.here 1]) := hacts
  obtain ⟨y, hsplits⟩ := hruns.splits hshape
  cases hsplits.back with
  | emit his hstep hrest =>
    obtain ⟨-, rfl⟩ := his
    obtain ⟨wide, hk⟩ := hstep.stands
    have htargets := hencodes.switchTargets_table hk rfl rfl
    let dest (arm : Option Nat) : Nat := (arm.map fun label => (occ.lab label).pos).getD y.pos
    -- an arm that leads to the switch itself stands for the default
    let target (key : Int) : Nat :=
      if P.offset ((arms.toList.map dest).getD (key - low).toNat 0) = P.offset y.pos then
        P.offset fallback
      else P.offset ((arms.toList.map dest).getD (key - low).toNat 0)
    have hdest {key : Int} {arm : Option Nat} (harm : arms[(key - low).toNat]? = some arm) :
        (arms.toList.map dest).getD (key - low).toNat 0 = dest arm := by
      rw [List.getD_eq_getElem?_getD, List.getElem?_map, Array.getElem?_toList, harm]
      rfl
    refine ⟨_, y, P.offset fallback, target, hsplits, hencodes.formAt ⟨wide, hk⟩, ?_,
      Occurrence.defaultAt hruns hacts, ?_, ?_⟩
    · have hkey : ∀ i : Nat, (low + (i : Int) - low).toNat = i := fun i => by omega
      simp only [htargets, target, hkey]
      rfl
    · intro i clause test hclause htest
      obtain ⟨key, hkey, hlow, hhigh⟩ :=
        (Lowering.tableFits_spec hfits).1 clause (List.mem_of_getElem? hclause) test htest
      have harm := (Lowering.tableArms_spec hfits hlow hhigh).1 i clause hclause
        (by rw [htest]; exact hkey)
      -- bodies stand behind the switch
      have hi := lt_of_getElem? hclause
      have hpos := hrest.here_le (List.mem_append_left _
        (here_mem_bodies (Nat.zero_le i) (by omega)))
      rw [hstep.pos] at hpos
      have hlt := P.offset_lt hpos.1 (Nat.le_trans hpos.2 hend)
      have htarget : target key = P.offset (occ.lab (Lowering.bodyLabel i)).pos := by
        simp only [target, hdest harm]
        exact if_neg (Nat.ne_of_gt hlt)
      refine ⟨key, hkey, hlow, hhigh, ?_⟩
      rw [htarget]
      exact Occurrence.bodyAt hruns hacts hclause
    · intro key hlow hhigh hnone
      simp only [target, hdest ((Lowering.tableArms_spec hfits hlow hhigh).2 hnone)]
      exact if_pos rfl

theorem Occurrence.switchesByLookup {pairs : List (Literal × Nat)}
    (hpairs : Lowering.casePairs tree 0 clauses = some pairs)
    (hacts : occ.acts = part discriminant ::
      [.lookup (Lowering.fallbackLabel 1 0 clauses) pairs] ++ Lowering.bodies 0 clauses ++
      [.here 1]) : occ.SwitchesByLookup tree P s discriminant clauses := by
  have hshape : occ.acts = [part discriminant] ++
      .lookup (Lowering.fallbackLabel 1 0 clauses) pairs ::
        (Lowering.bodies 0 clauses ++ [.here 1]) := hacts
  obtain ⟨y, hsplits⟩ := hruns.splits hshape
  cases hsplits.back with
  | emit his hstep hrest =>
    have hcell := his
    obtain ⟨-, literals, hliterals, rfl⟩ := his
    obtain ⟨wide, hk⟩ := hstep.stands
    have htargets := hencodes.switchTargets_lookup hk rfl
      (fun n hn => (hcell.lookup_literals rfl n hn).1) rfl
    refine ⟨_, y, _, _, hsplits, hencodes.formAt ⟨wide, hk⟩, htargets,
      Occurrence.defaultAt hruns hacts, ?_⟩
    have hspec := Lowering.casePairs_spec hpairs
    obtain ⟨hlength, hget⟩ := List.forall₂_iff_get.mp hspec
    obtain ⟨hlength', hget'⟩ := List.forall₂_iff_get.mp hliterals
    refine List.forall₂_iff_get.mpr ⟨by simp [hlength', hlength], fun i hi hi' => ?_⟩
    have hpair : i < pairs.length := by omega
    have hliteral : i < literals.length := by omega
    obtain ⟨hkey, hlabel⟩ := hget i hpair hi'
    obtain ⟨-, hfound⟩ := hget' i hliteral hpair
    obtain ⟨clause, hclause⟩ := Lowering.clause_of_test (List.get_mem (Lowering.tests 0 clauses) ⟨i, hi'⟩)
    have hbody := Occurrence.bodyAt hruns hacts hclause
    rw [← hlabel] at hbody
    simp only [List.get_eq_getElem, List.getElem_map, List.getElem_range, List.getD_eq_getElem?_getD,
      List.getElem?_eq_getElem hliteral, List.getElem?_map, List.getElem?_eq_getElem hpair,
      Option.map_some, Option.getD_some] at hkey hfound hbody ⊢
    refine ⟨⟨_, _, rfl, ?_, hkey⟩, hbody⟩
    rw [← Array.getElem?_toList, hencodes.literals]
    exact hfound

theorem Occurrence.switchesByTests (hacts : occ.acts = part discriminant :: (plain .condSwitch ::
      Lowering.caseTests 0 clauses ++ [.jump .default (Lowering.fallbackLabel 1 0 clauses) .flow]) ++
      Lowering.bodies 0 clauses ++ [.here 1]) :
    occ.SwitchesByTests tree P s discriminant clauses := by
  refine ⟨?_, ?_, ?_⟩
  · have hshape : occ.acts = [part discriminant] ++ plain .condSwitch :: _ := hacts
    obtain ⟨y, hsplits⟩ := hruns.splits hshape
    obtain ⟨-, hat, -, -⟩ := Run.of_op hsplits.back
    exact ⟨_, y, hsplits, (hencodes.opAt hat).2⟩
  · intro i clause test hclause htest
    have hshape : occ.acts = (part discriminant :: plain .condSwitch ::
        (Lowering.caseTests 0 (clauses.take i) ++ [.child [Lowering.opened] test])) ++
        .jump .case (Lowering.bodyLabel i) .flow :: (Lowering.caseTests (i + 1) (clauses.drop (i + 1)) ++
          [.jump .default (Lowering.fallbackLabel 1 0 clauses) .flow] ++ Lowering.bodies 0 clauses ++
          [.here 1]) := by
      rw [hacts, Lowering.caseTests_split hclause htest, Nat.zero_add]
      simp only [List.append_assoc, List.cons_append]
    obtain ⟨y, hsplits⟩ := hruns.splits hshape
    obtain ⟨-, hat, -, -⟩ := Run.of_jump hsplits.back
    exact ⟨_, _, y, _, hsplits, hencodes.jumpsAt hat, Occurrence.bodyAt hruns hacts hclause⟩
  · have hshape : occ.acts = (part discriminant :: plain .condSwitch ::
        Lowering.caseTests 0 clauses) ++
        .jump .default (Lowering.fallbackLabel 1 0 clauses) .flow ::
          (Lowering.bodies 0 clauses ++ [.here 1]) := by
      rw [hacts]
      simp only [List.append_assoc, List.cons_append, List.nil_append]
    obtain ⟨y, hsplits⟩ := hruns.splits hshape
    obtain ⟨-, hat, -, -⟩ := Run.of_jump hsplits.back
    exact ⟨_, y, _, hsplits, hencodes.jumpsAt hat, Occurrence.defaultAt hruns hacts⟩

end Placing

/-- The switches in the code of some statements lead where the tree says. -/
def Script.WellSwitched (tree : Tree) (inFunction : Bool) (body : List NodeId) (s : Script) : Prop :=
  ∃ P root, Laid tree P inFunction body s root ∧ ∀ path occ, Path tree P root path occ →
    ∀ discriminant clauses, occ.node.kind = .switch discriminant clauses →
      occ.Switches tree P s discriminant clauses

theorem Laid.wellSwitched {tree : Tree} {P : Program} {inFunction : Bool} {body : List NodeId}
    {s : Script} {root : Stretch} (h : Laid tree P inFunction body s root) :
    s.WellSwitched tree inFunction body := by
  refine ⟨P, root, h, fun path occ hpath discriminant clauses hkind => ?_⟩
  obtain ⟨hlowered, hruns, -, hlast⟩ := hpath.found
  rw [h.pos] at hlast
  simp only [node, hkind, switch, Option.bind_eq_bind, Option.bind_eq_some_iff,
    Option.pure_def, Option.some.injEq] at hlowered
  obtain ⟨head, hhead, hacts⟩ := hlowered
  rw [Occurrence.Switches]
  cases hplan : occ.plan with
  | table low high =>
    simp only [hplan, switchHead] at hhead
    split at hhead
    · rename_i hfits
      cases hhead
      exact Occurrence.switchesByTable h.encodes hruns hlast hfits hacts.symm
    · cases hhead
  | lookup =>
    simp only [hplan, switchHead, Option.bind_eq_bind, Option.bind_eq_some_iff,
      Option.pure_def, Option.some.injEq] at hhead
    obtain ⟨pairs, hpairs, rfl⟩ := hhead
    exact Occurrence.switchesByLookup h.encodes hruns hpairs hacts.symm
  | conditional =>
    rw [hplan] at hhead
    cases hhead
    exact Occurrence.switchesByTests h.encodes hruns hacts.symm

/-- In every unit of a script that compiles, switches lead where the tree says. -/
theorem compileScript_wellSwitched {tree : Tree} {filename : String} {limits : Limits}
    {script : Script} (h : compileScript tree filename limits = .ok script) :
    script.Throughout tree fun inFunction body s => s.WellSwitched tree inFunction body :=
  throughout_of_compiles h fun _ hcompiles =>
    let ⟨_, hlaid⟩ := hcompiles.laid
    hlaid.wellSwitched

/-- `switch (null) { case undefined: break; default: case null: ; }` -/
def Tree.testedSwitch : Tree where
  nodes := #[⟨.null, 1⟩, ⟨.undefined, 1⟩, ⟨.breakTo none, 1⟩, ⟨.empty, 1⟩,
    ⟨.switch ⟨0⟩ [⟨some ⟨1⟩, [⟨2⟩]⟩, ⟨none, []⟩, ⟨some ⟨0⟩, [⟨3⟩]⟩], 1⟩]
  body := [⟨4⟩]

theorem compileScript_wellSwitched_testedSwitch :
    ∃ script, compileScript .testedSwitch "switch.js" ⟨none, 10⟩ = .ok script ∧
      script.code = #[6, 74, 1, 81, 10, 0, 6, 81, 9, 0, 82, 6, 0, 75, 3, 0, 60] ∧
      script.WellSwitched .testedSwitch false [⟨4⟩] := by
  obtain ⟨script, hok, hcode⟩ :=
    exists_ok (x := compileScript .testedSwitch "switch.js" ⟨none, 10⟩)
      (p := fun s => s.code = #[6, 74, 1, 81, 10, 0, 6, 81, 9, 0, 82, 6, 0, 75, 3, 0, 60])
      (by decide +kernel)
  exact ⟨script, hok, of_decide_eq_true hcode, (compileScript_wellSwitched hok).holds _ _ _ .script⟩

end ScriptCompiler
