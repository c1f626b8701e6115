import ScriptCompiler.Compile.Expressions
import ScriptCompiler.Proofs.Draft.Statements

/-!
# Short-circuit chains

The jumps of a short-circuit chain are linked from the first to the last, the
other way round than those that leave a statement: each link is written when the
next jump has been emitted. Landing the chain walks the links forwards, and the
cells in front of the cursor are the ones whose hole counts as filled by then.
-/

namespace ScriptCompiler

open Bytes Emit

variable {js : List Nat} {n pc j t : Nat} {frame : Frame}

variable {g g' : Generator} {a : Draft} {op : Opcode} {k last : Nat}

/-- The jumps of a short-circuit chain, in order. -/
structure Draft.Linked (a : Draft) (op : Opcode) (k : Nat) (js : List Nat) : Prop where
  unfilled : a.filled (.logic k) = none
  logical : op = .and ∨ op = .or
  jumps : ∀ (j : Nat) (c : Cell Hole), a.main[j]? = some c → .logic k ∈ c.dests →
    c = .jump op (.logic k) c.frame
  mem : ∀ j, j ∈ js ↔ Links a.main (.logic k) j
  sorted : js.Pairwise (· < ·)

theorem Draft.admits_logic (hop : op = .and ∨ op = .or) (hk : k ≤ a.main.length) (frame : Frame) :
    a.Admits (.jump op (.logic k) frame) := by
  have hfits : (Hole.logic k).Fits a.main.length op := ⟨hk, hop⟩
  refine ⟨CellOk.of_jump ?_ ?_ hfits _, fun hole hmem => ?_, fun _ _ hmem => ?_⟩
  · rcases hop with rfl | rfl <;> rfl
  · rcases hop with rfl | rfl <;> rfl
  · rw [List.mem_singleton.mp hmem]
    exact Nat.lt_succ_of_le hk
  · cases List.mem_singleton.mp hmem

/-- One more jump of a chain. -/
theorem Draft.Linked.emit (h : a.Linked op k js) (frame : Frame) :
    (a.emit (.jump op (.logic k) frame)).Linked op k (js ++ [a.main.length]) := by
  have hlt : ∀ j ∈ js, j < a.main.length := fun j hj => ((h.mem j).mp hj).lt
  refine ⟨h.unfilled, h.logical, fun j c hj hmem => ?_, fun j => ?_, ?_⟩
  · rcases Draft.getElem?_emit hj with hj | ⟨rfl, rfl⟩
    · exact h.jumps j c hj hmem
    · rfl
  · rw [List.mem_append, List.mem_singleton]
    constructor
    · rintro (hj | rfl)
      · exact (links_append (hlt j hj)).mpr ((h.mem j).mp hj)
      · exact links_last.mpr rfl
    · intro hlinks
      obtain ⟨c, hj, hdests⟩ := links_iff.mp hlinks
      rcases Draft.getElem?_emit hj with hj | ⟨rfl, rfl⟩
      · exact .inl ((h.mem j).mpr (links_iff.mpr ⟨c, hj, hdests⟩))
      · exact .inr rfl
  · refine List.pairwise_append.mpr ⟨h.sorted, List.pairwise_singleton _ _, fun i hi j hj => ?_⟩
    rw [List.mem_singleton.mp hj]
    exact hlt i hi

/-- A chain stays as it is while other code is emitted. -/
theorem Draft.Linked.grown {s : Nat} {b : Draft} (h : a.Linked op k js) (hgrown : Grown n s a b)
    (hk : k < n) : b.Linked op k js := by
  have hown : ∀ (j : Nat) (c : Cell Hole), b.main[j]? = some c → .logic k ∈ c.dests →
      a.main[j]? = some c := fun j c hj hmem => hgrown.own j c hj _ hmem (fun _ _ => (by rintro ⟨⟩)) hk
  refine ⟨?_, h.logical, fun j c hj hmem => h.jumps j c (hown j c hj hmem) hmem, fun j => ?_,
    h.sorted⟩
  · rw [hgrown.kept (.logic k) hk]
    exact h.unfilled
  · rw [h.mem, links_iff, links_iff]
    constructor
    · rintro ⟨c, hj, hdests⟩
      exact ⟨c, hgrown.main j c hj, hdests⟩
    · rintro ⟨c, hj, hdests⟩
      exact ⟨c, hown j c hj (by simp [hdests]), hdests⟩

/-- The first jump of a chain. -/
theorem Drafted.firstOperand (h : Drafted g a) (hop : op = .and ∨ op = .or)
    (hok : Emit.jump .backpatchPop 0 g = .ok pc g') :
    pc = position a.main a.main.length ∧
      Drafted g' (a.emit (.jump op (.logic a.main.length) a.frame)) ∧
      (a.emit (.jump op (.logic a.main.length) a.frame)).Linked op a.main.length
        [a.main.length] := by
  have hsound := h.built.sound
  have hnew : ∀ (j : Nat) (c : Cell Hole), a.main[j]? = some c → .logic a.main.length ∉ c.dests :=
    fun j c hj hmem => Nat.lt_irrefl _ (hsound.used j c hj _ hmem)
  have hopen : a.filled (.logic a.main.length) = none := hsound.fresh _ (Nat.lt_irrefl _)
  obtain ⟨-, rfl, hemitted⟩ := jump_emitted h.built.code rfl a.frame hok
  have hshown : (Cell.jump op (.logic a.main.length) a.frame).shown a.filled
      (a.main ++ [.jump op (.logic a.main.length) a.frame]) a.main.length =
      .jump .backpatchPop 0 a.frame := by
    have hnone : linkFrom (a.main ++ [.jump op (.logic a.main.length) a.frame])
        (.logic a.main.length) (a.main.length + 1) (a.main.length + 1) = none :=
      linkFrom_none fun j hj hle => absurd hj (by omega)
    have hlink : (Hole.logic a.main.length).link
        (a.main ++ [.jump op (.logic a.main.length) a.frame]) a.main.length = 0 := by
      rw [Hole.link, List.length_append, List.length_singleton, hnone]
    simp [Cell.shown, Cell.jump, Cell.standing, Operands.standing, Hole.offset, hopen,
      Hole.placeholder?]
    exact hlink
  have hempty : a.Linked op a.main.length [] := by
    refine ⟨hopen, hop, fun j c hj hmem => absurd hmem (hnew j c hj), fun j => ?_, .nil⟩
    refine ⟨fun hj => absurd hj List.not_mem_nil, fun hlinks => ?_⟩
    obtain ⟨c, hj, hdests⟩ := links_iff.mp hlinks
    exact absurd (by simp [hdests]) (hnew j c hj)
  refine ⟨h.built.size, ⟨h.built.emit (Draft.admits_logic hop (Nat.le_refl _) _) ?_
    (by rw [hshown]; exact hemitted), ?_⟩, hempty.emit a.frame⟩
  · intro j hj i c hi hmem
    cases hj
    exact hnew i c hi hmem
  · obtain ⟨code, spans, warnings, rfl, -⟩ := hemitted
    exact h.stacked.emit hsound fun _ _ heq => by cases heq

/-- What stands in the code for a jump of a chain that has not landed. -/
theorem Draft.Linked.shown_open (h : a.Linked op k js) (frame : Frame) (cells : List (Cell Hole))
    (j : Nat) :
    (Cell.jump op (.logic k) frame).shown a.filled cells j =
      .jump .backpatchPop ((Hole.logic k).link cells j) frame := by
  simp [Cell.shown, Cell.jump, Cell.standing, Operands.standing, Hole.offset, h.unfilled,
    Hole.placeholder?]

theorem Hole.link_logic {cells : List (Cell Hole)} :
    (Hole.logic k).link cells j = match linkFrom cells (.logic k) (j + 1) cells.length with
      | some i => (position cells i : Int) - position cells j
      | none => 0 := rfl

/-- The cells once a further jump has been linked to the last one. -/
theorem Draft.cells_nextOperand (hsound : a.Sound) (h : a.Linked op k (js ++ [last]))
    (hlast : a.main[last]? = some (.jump op (.logic k) frame)) :
    (a.emit (.jump op (.logic k) a.frame)).cells =
      (a.cells ++ [Cell.jump .backpatchPop 0 a.frame]).set last
        (.jump .backpatchPop ((position a.main a.main.length : Int) - position a.main last)
          frame) := by
  have hlt := lt_of_getElem? hlast
  have hlinks : Links a.main (.logic k) last := links_iff.mpr ⟨_, hlast, rfl⟩
  have hafter : ∀ j, Links a.main (.logic k) j → j ≤ last := by
    intro j hj
    rcases List.mem_append.mp ((h.mem j).mpr hj) with hmem | hmem
    · exact Nat.le_of_lt ((List.pairwise_append.mp h.sorted).2.2 j hmem last (by simp))
    · exact Nat.le_of_eq (List.mem_singleton.mp hmem)
  have hpos : ∀ j ≤ a.main.length, position (a.main ++ [.jump op (.logic k) a.frame]) j =
      position a.main j := fun j hj => position_append hj
  have hlink : ∀ j, (Hole.logic k).link (a.main ++ [.jump op (.logic k) a.frame]) j =
      match (linkFrom a.main (.logic k) (j + 1) a.main.length).or
        (if j + 1 ≤ a.main.length then some a.main.length else none) with
      | some i => (position (a.main ++ [.jump op (.logic k) a.frame]) i : Int) -
          position (a.main ++ [.jump op (.logic k) a.frame]) j
      | none => 0 := by
    intro j
    have hself : Links (a.main ++ [.jump op (.logic k) a.frame]) (.logic k) a.main.length :=
      links_last.mpr rfl
    rw [Hole.link_logic, List.length_append, List.length_singleton, linkFrom,
      linkFrom_append (Nat.le_refl _)]
    simp only [hself, and_true]
  have hlen : a.cells.length = a.main.length := length_shown
  have hfilled : (a.emit (.jump op (.logic k) a.frame)).filled = a.filled := rfl
  refine List.ext_getElem? fun j => ?_
  rw [List.getElem?_set]
  rcases Nat.lt_trichotomy j a.main.length with hj | rfl | hj
  · obtain ⟨d, hd⟩ : ∃ d, a.main[j]? = some d := ⟨_, List.getElem?_eq_getElem hj⟩
    have hd' : (a.emit (.jump op (.logic k) a.frame)).main[j]? = some d := by
      rw [Draft.emit, List.getElem?_append_left hj, hd]
    rw [Draft.getElem?_cells hd', List.getElem?_append_left (by rw [hlen]; exact hj),
      Draft.getElem?_cells hd, hfilled]
    by_cases hjl : last = j
    · subst hjl
      obtain rfl := Option.some.inj (hlast.symm.trans hd)
      have hnone : linkFrom a.main (.logic k) (last + 1) a.main.length = none :=
        linkFrom_none fun i _ hle hi => absurd (hafter i hi) (by omega)
      rw [if_pos rfl, if_pos (by simp [hlen]; omega), h.shown_open]
      simp only [Draft.emit, hlink, hnone, Option.none_or, if_pos (show last + 1 ≤ _ from hlt),
        hpos _ (Nat.le_refl _), hpos _ (Nat.le_of_lt hlt)]
    · rw [if_neg hjl]
      have hdests : d.dests.map (Hole.offset a.filled (a.main ++ [.jump op (.logic k) a.frame]) j) =
          d.dests.map (Hole.offset a.filled a.main j) := by
        refine List.map_congr_left fun hole hmem => ?_
        by_cases heq : hole = .logic k
        · subst heq
          have hjlinks : Links a.main (.logic k) j := by
            refine links_iff.mpr ⟨d, hd, ?_⟩
            rw [h.jumps j d hd hmem]
            rfl
          have hjlast : j < last := by
            have := hafter j hjlinks
            omega
          simp only [Hole.offset, h.unfilled, hlink, Hole.link_logic]
          cases hnext : linkFrom a.main (.logic k) (j + 1) a.main.length with
          | none =>
            exact absurd hlinks (linkFrom_eq_none hnext last hlt hjlast)
          | some i =>
            have hi := (linkFrom_some hnext).2.1
            simp only [Option.some_or, hpos i (Nat.le_of_lt hi), hpos j (Nat.le_of_lt hj)]
        · refine Hole.offset_append hj (fun t ht => hsound.dest_le hd hmem ht) fun i hi hc => ?_
          rw [hi] at hc heq
          exact heq (List.cons.inj hc).1.symm
      simp only [Cell.shown, Draft.emit, hdests]
  · rw [if_neg (by omega), List.getElem?_append_right (Nat.le_of_eq hlen), hlen, Nat.sub_self,
      Draft.getElem?_cells Draft.getElem?_emit_last, hfilled, h.shown_open]
    have hnone : linkFrom a.main (.logic k) (a.main.length + 1) a.main.length = none :=
      linkFrom_none fun i hi hle => absurd hi (by omega)
    simp only [Draft.emit, hlink, hnone, Option.none_or,
      if_neg (show ¬ a.main.length + 1 ≤ a.main.length by omega)]
    rfl
  · have hlen' : (a.emit (.jump op (.logic k) a.frame)).cells.length = a.main.length + 1 :=
      length_shown.trans Draft.length_emit
    rw [if_neg (by omega), List.getElem?_eq_none (by omega),
      List.getElem?_eq_none (by simp [hlen]; omega)]

/-- A further jump joins a chain. -/
theorem Drafted.nextOperand {next : Nat} {delta : Int} {g₁ g₂ : Generator} (h : Drafted g a)
    (hlinked : a.Linked op k (js ++ [last]))
    (hlast : a.main[last]? = some (.jump op (.logic k) frame)) (hk : k ≤ a.main.length)
    (hjump : Emit.jump .backpatchPop 0 g = .ok next g₁)
    (hspan : spanBetween (position a.main last) next g₁ = .ok delta g₂)
    (hset : setLinkDelta (position a.main last) delta g₂ = .ok () g') :
    next = position a.main a.main.length ∧
      Drafted g' (a.emit (.jump op (.logic k) a.frame)) := by
  have hsound := h.built.sound
  have hlt := lt_of_getElem? hlast
  have hadmits : a.Admits (.jump op (.logic k) a.frame) :=
    Draft.admits_logic hlinked.logical hk a.frame
  obtain ⟨-, rfl, hemitted⟩ := jump_emitted h.built.code rfl a.frame hjump
  obtain ⟨rfl, rfl⟩ := spanBetween_ok hspan
  have hs : a.settled ≤ last :=
    hsound.settled_le_of_open hlast (List.mem_singleton_self _) hlinked.unfilled
  have hcells := Draft.cells_nextOperand hsound hlinked hlast
  have hlen : a.cells.length = a.main.length := length_shown
  have hposition : position (a.cells ++ [Cell.jump .backpatchPop 0 a.frame]) last =
      position a.main last := by
    rw [position_append (by rw [hlen]; exact Nat.le_of_lt hlt), Draft.position_cells]
  have hk' : (a.cells ++ [Cell.jump .backpatchPop 0 a.frame])[last]? =
      some (.jump .backpatchPop ((Hole.logic k).link a.main last) frame) := by
    rw [List.getElem?_append_left (by rw [hlen]; exact hlt), Draft.getElem?_cells hlast,
      hlinked.shown_open]
  have hsize := h.built.size
  obtain ⟨code, spans, warnings, rfl, hcodes, hspares⟩ := hemitted
  rw [← hposition] at hset
  have hcoded := setLinkDelta_coded hset hcodes hk' hs Nat.zero_lt_one
  rw [hposition, hsize] at hcoded
  have hcells' : (a.cells ++ [Cell.jump .backpatchPop 0 a.frame]).set last
      ((Cell.jump .backpatchPop ((Hole.logic k).link a.main last) frame).setDest 0
        ((position a.main a.main.length : Int) - position a.main last)) =
      (a.emit (.jump op (.logic k) a.frame)).cells := hcells.symm
  rw [hcells'] at hcoded
  obtain ⟨code', spans', rfl, hcodes'⟩ := hcoded
  obtain ⟨hbuilt, hstacked⟩ := h
  refine ⟨hsize, { hbuilt with
      sound := hsound.emit hbuilt.settled_le hadmits, code := hcodes', depth := ?_
      regions := fun i r e hr he => ?_, quiet := ?_ },
    hstacked.emit hsound fun _ _ heq => by cases heq⟩
  · show g.depth.apply _ _ _ = a.depth.apply _ _ _
    rw [hbuilt.depth]
    rcases hlinked.logical with rfl | rfl <;> rfl
  · have hmem := hsound.regions e (List.mem_of_getElem? he)
    exact (hbuilt.regions i r e hr he).append hmem.1 hmem.2
  · rintro ⟨hquiet, huses⟩
    refine hspares (hbuilt.quiet hquiet) ?_
    rw [hbuilt.depth]
    rcases hlinked.logical with rfl | rfl <;> exact huses

/-! ## Landing -/

/-- The holes that count as filled once the cursor has passed the first `n` cells. -/
def Draft.landed (a : Draft) (hole : Hole) (t n : Nat) (j : Nat) (h : Hole) : Option Nat :=
  if h = hole ∧ j < n then some t else a.filled h

theorem Draft.position_landed (hole : Hole) (t n j : Nat) :
    position (shown (a.landed hole t n) a.main) j = position a.main j := position_shown j

theorem setOp_main (hmain : g.current = .main) (hok : Emit.setOp pc op g = .ok () g') :
    g' = { g with main := { g.main with code := g.main.code.setIfInBounds pc op.toByte } } := by
  simp only [Emit.setOp, bind_ok] at hok
  obtain ⟨n, g₁, hoffset, hok⟩ := hok
  obtain ⟨rfl, rfl⟩ := Emit.offset_ok hoffset hmain
  simp only [guard_outOfBounds_ok, modify_ok] at hok
  rw [← hok.2, Generator.modifySection_main hmain]

/-- Moving the cursor matters only for the jumps of the chain. -/
theorem Draft.Linked.agree (h : a.Linked op k js) {n' : Nat} {c : Cell Hole}
    (hj : a.main[j]? = some c) (hlinks : Links a.main (.logic k) j → (j < n ↔ j < n')) :
    Agree (a.landed (.logic k) t n j) (a.landed (.logic k) t n' j) j c := by
  refine ⟨fun hole hmem => ?_, fun i => ?_⟩
  · rw [landed, landed]
    by_cases heq : hole = .logic k
    · subst heq
      have hlink : Links a.main (.logic k) j := by
        refine links_iff.mpr ⟨c, hj, ?_⟩
        rw [h.jumps j c hj hmem]
        rfl
      simp only [true_and, hlinks hlink]
    · rw [if_neg fun hc => heq hc.1, if_neg fun hc => heq hc.1]
  · simp [landed]

/-- A jump of a chain before the cursor has passed it, and behind. -/
theorem Draft.Linked.shown_landed (h : a.Linked op k js) (frame : Frame) (t n j : Nat) :
    (Cell.jump op (.logic k) frame).shown (a.landed (.logic k) t n j) a.main j =
      if j < n then .jump op ((position a.main t : Int) - position a.main j) frame
      else .jump .backpatchPop ((Hole.logic k).link a.main j) frame := by
  split <;> rename_i hn <;>
    simp [Cell.shown, Cell.jump, Cell.standing, Operands.standing, Hole.offset, landed, hn,
      h.unfilled, Hole.placeholder?]

/-- The walk along a chain lands the jumps from the cursor on. -/
theorem landChain_coded {rest : List Nat} (h : a.Linked op k js) (hrecent : ∀ j ∈ js, a.settled ≤ j)
    (hrest : ∀ j, j ∈ rest ↔ j ∈ js ∧ n ≤ j) (hsorted : rest.Pairwise (· < ·))
    (hpc : ∀ j, rest.head? = some j → pc = position a.main j) (hmain : g.current = .main)
    (hcodes : Codes g.main.code g.spans a.settled (shown (a.landed (.logic k) t n) a.main))
    (hok : Walk.landChain op (position a.main t) pc rest.length g = .ok () g') :
    Coded g g' a.settled (shown (a.landed (.logic k) t a.main.length) a.main) := by
  induction rest generalizing g n pc with
  | nil =>
    rw [List.length_nil, Walk.landChain, pure_ok] at hok
    obtain rfl := hok.2
    refine ⟨_, _, rfl, ?_⟩
    rw [shown_congr fun j c hj => h.agree hj fun hlinks => ?_]
    · exact hcodes
    · have hlt := lt_of_getElem? hj
      have hnot : ¬ n ≤ j := fun hle =>
        absurd ((hrest j).mpr ⟨(h.mem j).mpr hlinks, hle⟩) List.not_mem_nil
      omega
  | cons j rest ih =>
    obtain rfl := hpc j rfl
    obtain ⟨hjs, hnj⟩ := (hrest j).mp List.mem_cons_self
    obtain ⟨c, hj, hdests⟩ := links_iff.mp ((h.mem j).mp hjs)
    have hc := h.jumps j c hj (by simp [hdests])
    have hlt := lt_of_getElem? hj
    have hs := hrecent j hjs
    have hj' : (shown (a.landed (.logic k) t n) a.main)[j]? =
        some (.jump .backpatchPop ((Hole.logic k).link a.main j) c.frame) := by
      rw [getElem?_shown hj, hc, h.shown_landed, if_neg (by omega)]
      rfl
    simp only [List.length_cons, Walk.landChain, bind_ok, guard_inconsistent_ok] at hok
    obtain ⟨delta, g₁, hread, z, g₂, hspan, _, g₃, hset, _, g₄, hop, -, hok⟩ := hok
    rw [← Draft.position_landed (.logic k) t n] at hread hset
    obtain ⟨rfl, rfl⟩ := jumpOffset_ok hread hcodes hj' hs rfl
    obtain ⟨rfl, rfl⟩ := spanBetween_ok hspan
    have hmain' : g₃.current = .main := by
      obtain ⟨code, spans, rfl, -⟩ := setJumpOffset_coded hset hcodes hj' hs Nat.zero_lt_one
      exact hmain
    have hformat : op.format = .jump := by rcases h.logical with rfl | rfl <;> rfl
    have hcoded := relink_coded hcodes hj' hs hformat hset
    rw [Draft.position_landed, ← setOp_main hmain' hop] at hcoded
    have hshown : (shown (a.landed (.logic k) t n) a.main).set j
        (.jump op ((position a.main t : Int) - position a.main j) c.frame) =
        shown (a.landed (.logic k) t (j + 1)) a.main := by
      have hnew : c.shown (a.landed (.logic k) t (j + 1) j) a.main j =
          .jump op ((position a.main t : Int) - position a.main j) c.frame := by
        rw [hc, h.shown_landed, if_pos (Nat.lt_succ_self j)]
        rfl
      rw [← hnew]
      refine (shown_set hj fun i d hi hne => h.agree hi fun hlinks => ⟨fun hlt' => by omega,
        fun hlt' => ?_⟩).symm
      by_contra hge
      have himem := (hrest i).mpr ⟨(h.mem i).mpr hlinks, by omega⟩
      rcases List.mem_cons.mp himem with rfl | himem
      · exact hne rfl
      · have := (List.pairwise_cons.mp hsorted).1 i himem
        omega
    replace hcoded := hshown ▸ hcoded
    have hmain'' : g₄.current = .main := by
      rw [setOp_main hmain' hop]
      exact hmain'
    have hrest' : ∀ i, i ∈ rest ↔ i ∈ js ∧ j + 1 ≤ i := by
      intro i
      constructor
      · intro hi
        have hji := (List.pairwise_cons.mp hsorted).1 i hi
        exact ⟨((hrest i).mp (List.mem_cons_of_mem _ hi)).1, hji⟩
      · rintro ⟨hi, hji⟩
        rcases List.mem_cons.mp ((hrest i).mpr ⟨hi, by omega⟩) with rfl | hi
        · omega
        · exact hi
    refine hcoded.trans (ih hrest' (List.pairwise_cons.mp hsorted).2 (fun i hi => ?_) hmain''
      hcoded.codes hok)
    -- the link leads to the next jump
    have himem : i ∈ rest := List.mem_of_mem_head? (by rw [hi]; rfl)
    obtain ⟨hijs, hji⟩ := (hrest' i).mp himem
    have hilinks := (h.mem i).mp hijs
    have hnext : linkFrom a.main (.logic k) (j + 1) a.main.length = some i := by
      refine linkFrom_first hji hilinks.lt hilinks fun i' hlt' hle' hlinks' => ?_
      have hi'mem := (hrest' i').mpr ⟨(h.mem i').mpr hlinks', hle'⟩
      cases rest with
      | nil => cases hi
      | cons x xs =>
        cases hi
        rcases List.mem_cons.mp hi'mem with rfl | hi'mem
        · exact Nat.lt_irrefl _ hlt'
        · have := (List.pairwise_cons.mp (List.pairwise_cons.mp hsorted).2).1 i' hi'mem
          omega
    have hlink : (Hole.logic k).link a.main j = (position a.main i : Int) - position a.main j := by
      rw [Hole.link_logic, hnext]
    omega

/-- Landing a chain fills its hole. -/
theorem Drafted.landChain (h : Drafted g a) (hlinked : a.Linked op k (k :: js))
    (hok : Walk.landChain op (position a.main a.main.length) (position a.main k) (k :: js).length g =
      .ok () g') : Drafted g' (a.fill (.logic k) a.main.length) := by
  have hsound := h.built.sound
  have hmem : ∀ j ∈ k :: js, ∃ c, a.main[j]? = some c ∧ .logic k ∈ c.dests := by
    intro j hj
    obtain ⟨c, hc, hdests⟩ := links_iff.mp ((hlinked.mem j).mp hj)
    exact ⟨c, hc, by simp [hdests]⟩
  have hrecent : ∀ j ∈ k :: js, a.settled ≤ j := by
    intro j hj
    obtain ⟨c, hc, hole_mem⟩ := hmem j hj
    exact hsound.settled_le_of_open hc hole_mem hlinked.unfilled
  have hstart : shown (a.landed (.logic k) a.main.length 0) a.main = a.cells :=
    shown_congr fun j c hj => ⟨fun hole _ => by simp [Draft.landed], fun i => by simp [Draft.landed]⟩
  have hstop : shown (a.landed (.logic k) a.main.length a.main.length) a.main =
      (a.fill (.logic k) a.main.length).cells := by
    refine shown_congr fun j c hj => ⟨fun hole _ => ?_, fun i => by simp [Draft.landed, Draft.fill]⟩
    have hlt := lt_of_getElem? hj
    simp [Draft.landed, Draft.fill, hlt]
  have hcodes := h.built.code
  rw [← hstart] at hcodes
  have hcoded := landChain_coded hlinked hrecent (by simp) hlinked.sorted
    (fun j hj => by rw [Option.some.inj hj]) h.built.main hcodes hok
  rw [hstop] at hcoded
  obtain ⟨c, hc, hole_mem⟩ := hmem k List.mem_cons_self
  refine h.of_coded rfl hcoded ?_ (h.stacked.fill fun _ _ _ heq => by cases heq)
  exact hsound.fill hlinked.unfilled (hsound.used k c hc _ hole_mem) (fun _ => Nat.le_refl _)
    (fun _ _ heq => by cases heq) (fun _ _ _ _ heq => by cases heq)

end ScriptCompiler
