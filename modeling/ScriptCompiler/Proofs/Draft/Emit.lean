import ScriptCompiler.Proofs.Draft.Basic

/-!
# One more cell

An emitted instruction is one more cell of the draft. The cells before it stand in
the code as they did, as links lead to earlier cells and holes are filled with
places that have been reached.
-/

namespace ScriptCompiler

open Bytes

variable {h hole : Hole}

/-! ## What stands in longer code -/

section Append

variable {cells : List (Cell Hole)} {filled : Hole → Option Nat} {c d : Cell Hole} {k : Nat}

/-- Behind a new cell, an older destination is the same unless the new jump joins its chain. -/
theorem Hole.offset_append (hk : k < cells.length)
    (htarget : ∀ t, filled h = some t → t ≤ cells.length)
    (hlogic : ∀ j, h = .logic j → c.dests ≠ [h]) :
    h.offset filled (cells ++ [c]) k = h.offset filled cells k := by
  have hpos : ∀ j ≤ cells.length, position (cells ++ [c]) j = position cells j :=
    fun j hj => position_append hj
  have hback : linkBefore (cells ++ [c]) h k = linkBefore cells h k :=
    linkBefore_append (Nat.le_of_lt hk)
  rw [offset, offset]
  cases hfilled : filled h with
  | some t => simp only [hpos t (htarget t hfilled), hpos k (Nat.le_of_lt hk)]
  | none =>
    have hlinked : ∀ j, linkBefore cells h k = some j →
        position (cells ++ [c]) j = position cells j := fun j hlink => by
      obtain ⟨hj, -, -⟩ := linkBefore_some hlink
      exact hpos j (by omega)
    cases h with
    | arm j i => rfl
    | literal j i => rfl
    | exits j | chain serial chain =>
      simp only [link, hback, hpos k (Nat.le_of_lt hk)]
      split
      · rename_i i hlink
        simp only [hlinked i hlink]
      · rfl
    | logic j =>
      have hlast : ¬ Links (cells ++ [c]) (.logic j) cells.length := fun hlinks =>
        hlogic j rfl (links_last.mp hlinks)
      simp only [link, List.length_append, List.length_singleton, linkFrom,
        linkFrom_append (Nat.le_refl cells.length), hlast, and_false, if_false, Option.or_none]
      cases hlink : linkFrom cells (.logic j) (k + 1) cells.length with
      | none => rfl
      | some i =>
        obtain ⟨-, hi, -⟩ := linkFrom_some hlink
        simp only [hpos i (Nat.le_of_lt hi), hpos k (Nat.le_of_lt hk)]

/-- The code stands for one more cell. -/
theorem shown_append
    (htargets : ∀ (k : Nat) (d : Cell Hole), cells[k]? = some d → ∀ h ∈ d.dests, ∀ t,
      filled h = some t → t ≤ cells.length)
    (hlogic : ∀ j, c.dests = [.logic j] → ∀ (k : Nat) (d : Cell Hole), cells[k]? = some d →
      .logic j ∉ d.dests) :
    shown (fun _ => filled) (cells ++ [c]) =
      shown (fun _ => filled) cells ++ [c.shown filled (cells ++ [c]) cells.length] := by
  refine List.ext_getElem? fun k => ?_
  rcases Nat.lt_trichotomy k cells.length with hlt | rfl | hgt
  · obtain ⟨d, hd⟩ : ∃ d, cells[k]? = some d := ⟨_, List.getElem?_eq_getElem hlt⟩
    have hd' : (cells ++ [c])[k]? = some d := by rw [List.getElem?_append_left hlt, hd]
    rw [getElem?_shown hd', List.getElem?_append_left (by simpa using hlt), getElem?_shown hd]
    have hdests : d.dests.map (Hole.offset filled (cells ++ [c]) k) =
        d.dests.map (Hole.offset filled cells k) := by
      refine List.map_congr_left fun h hmem => ?_
      refine Hole.offset_append hlt (htargets k d hd h hmem) fun j hj hc => ?_
      rw [hj] at hc hmem
      exact hlogic j hc k d hd hmem
    rw [Cell.shown, Cell.shown, hdests]
  · rw [getElem?_shown (c := c) (by simp), List.getElem?_append_right (by simp)]
    simp
  · rw [List.getElem?_eq_none (by simp; omega), List.getElem?_eq_none (by simp; omega)]

end Append

/-! ## Cells and their placeholders -/

namespace CellOk

variable {literals functions k : Nat} {c : Cell Hole}

/-- More literals and functions do no harm. -/
theorem mono {literals' functions' : Nat} (h : CellOk literals functions k c)
    (hliterals : literals ≤ literals') (hfunctions : functions ≤ functions') :
    CellOk literals' functions' k c :=
  { h with
    literal := fun hformat => Nat.lt_of_lt_of_le (h.literal hformat) hliterals
    function := fun hformat => Nat.lt_of_lt_of_le (h.function hformat) hfunctions }

/-- The holes of a cell, by kind. -/
theorem hole_cases (h : CellOk literals functions k c) (hmem : hole ∈ c.dests) :
    (c.dests = [hole] ∧ c.operands = .jump ∧ hole.Fits k c.op) ∨ ∃ i, hole = .arm k i := by
  have hholes := h.holes
  cases hc : c.operands with
  | plain bytes =>
    have hcount := h.shaped.count
    rw [hc] at hcount
    rw [List.length_eq_zero_iff.mp hcount] at hmem
    cases hmem
  | jump =>
    rw [hc] at hholes
    obtain ⟨hole', hdests, hfits⟩ := hholes
    rw [hdests, List.mem_singleton] at hmem
    subst hmem
    exact .inl ⟨hdests, rfl, hfits⟩
  | table low high =>
    rw [hc] at hholes
    rw [hholes, List.mem_map] at hmem
    obtain ⟨i, -, rfl⟩ := hmem
    exact .inr ⟨i, rfl⟩
  | lookup pairs =>
    rw [hc] at hholes
    rw [hholes, List.mem_map] at hmem
    obtain ⟨i, -, rfl⟩ := hmem
    exact .inr ⟨i, rfl⟩

/-- The placeholder of a jump has the same effect on the stack. -/
theorem spec_standing (h : CellOk literals functions k c) (filled : Hole → Option Nat) :
    (c.standing filled).spec.uses = c.op.spec.uses ∧
      (c.standing filled).spec.defs = c.op.spec.defs ∧
      (c.standing filled).spec.scratch = c.op.spec.scratch ∧
      ((c.standing filled = .call ∨ c.standing filled = .new) ↔ (c.op = .call ∨ c.op = .new)) := by
  rw [Cell.standing]
  split
  · rename_i hole hdests
    split
    · exact ⟨rfl, rfl, rfl, Iff.rfl⟩
    · rcases h.hole_cases (show hole ∈ c.dests by simp [hdests]) with ⟨-, -, hfits⟩ | ⟨i, rfl⟩
      · cases hole with
        | arm j i => exact ⟨rfl, rfl, rfl, Iff.rfl⟩
        | literal j i => exact hfits.elim
        | logic j =>
          rcases hfits.2 with hop | hop <;> rw [hop] <;>
            exact ⟨rfl, rfl, rfl, by simp [Hole.placeholder?]⟩
        | exits j =>
          rw [hfits.2]
          exact ⟨rfl, rfl, rfl, by simp [Hole.placeholder?]⟩
        | chain serial chain =>
          have hop : c.op = .goto ∨ c.op = .gosub := by
            cases chain <;> first | exact .inl hfits | exact .inr hfits
          rcases hop with hop | hop <;> rw [hop] <;>
            exact ⟨rfl, rfl, rfl, by simp [Hole.placeholder?]⟩
      · exact ⟨rfl, rfl, rfl, Iff.rfl⟩
  · exact ⟨rfl, rfl, rfl, Iff.rfl⟩

theorem uses_shown (h : CellOk literals functions k c) (filled : Hole → Option Nat)
    (cells : List (Cell Hole)) (j : Nat) : (c.shown filled cells j).uses = c.uses := by
  obtain ⟨huses, -, -, hcall⟩ := h.spec_standing filled
  have himmediate : (c.operands.standing filled j).immediate = c.operands.immediate := by
    cases c.operands <;> rfl
  simp only [Cell.uses, Cell.shown, huses, himmediate, hcall]

theorem defs_shown (h : CellOk literals functions k c) (filled : Hole → Option Nat)
    (cells : List (Cell Hole)) (j : Nat) : (c.shown filled cells j).defs = c.defs := by
  obtain ⟨-, hdefs, -, -⟩ := h.spec_standing filled
  have himmediate : (c.operands.standing filled j).immediate = c.operands.immediate := by
    cases c.operands <;> rfl
  simp only [Cell.defs, Cell.shown, hdefs, himmediate]

end CellOk

/-! ## Emission -/

namespace Draft

/-- One more cell. -/
def emit (a : Draft) (c : Cell Hole) : Draft :=
  { a with
    main := a.main ++ [c]
    depth := a.depth.apply c.uses c.defs c.op.spec.scratch
    quiet := a.quiet ∧ c.uses ≤ a.depth.depth }

variable {a : Draft} {c : Cell Hole}

theorem length_emit : (a.emit c).main.length = a.main.length + 1 := by
  simp [emit]

theorem getElem?_emit {k : Nat} {d : Cell Hole} (h : (a.emit c).main[k]? = some d) :
    a.main[k]? = some d ∨ k = a.main.length ∧ d = c := by
  rcases Nat.lt_or_ge k a.main.length with hlt | hge
  · rw [emit, List.getElem?_append_left hlt] at h
    exact .inl h
  · rw [emit, List.getElem?_append_right hge, List.getElem?_singleton] at h
    split at h
    · cases h
      exact .inr ⟨by omega, rfl⟩
    · cases h

theorem getElem?_emit_last : (a.emit c).main[a.main.length]? = some c := by
  simp [emit]

/-- What a new cell has to be. -/
structure Admits (a : Draft) (c : Cell Hole) : Prop where
  ok : CellOk a.literals.length a.functions.length a.main.length c
  old : ∀ h ∈ c.dests, h.Old (a.main.length + 1) a.serial
  pending : ∀ serial chain, .chain serial chain ∈ c.dests →
    a.filled (.chain serial chain) = none →
    ∃ o ∈ a.opens, o.serial = serial ∧ o.kind.takes chain = true

theorem Sound.emit (h : a.Sound) (hs : a.settled ≤ a.main.length) (hc : a.Admits c) :
    (a.emit c).Sound := by
  have hlen : (a.emit c).main.length = a.main.length + 1 := length_emit
  have hold : ∀ hole : Hole, hole.Old a.main.length a.serial →
      hole.Old (a.emit c).main.length (a.emit c).serial := by
    intro hole hold
    rw [hlen]
    cases hole with
    | chain serial chain => exact hold
    | _ => exact Nat.lt_succ_of_lt hold
  refine
    { cells := ?_, used := ?_, fresh := ?_, targets := ?_, literals := h.literals,
      serials := h.serials, distinct := h.distinct, updates := ?_, pending := ?_,
      unfilled := h.unfilled, settled := ?_, regions := ?_, high := ?_, prolog := h.prolog,
      nested := h.nested }
  · intro k d hk
    rcases getElem?_emit hk with hk | ⟨rfl, rfl⟩
    · exact h.cells k d hk
    · exact hc.ok
  · intro k d hk hole hmem
    rcases getElem?_emit hk with hk | ⟨rfl, rfl⟩
    · exact hold hole (h.used k d hk hole hmem)
    · rw [hlen]
      exact hc.old hole hmem
  · exact fun hole hfresh => h.fresh hole fun hold' => hfresh (hold hole hold')
  · intro hole t ht hne
    rw [hlen]
    exact Nat.le_succ_of_le (h.targets hole t ht hne)
  · intro o ho
    rw [hlen]
    exact Nat.le_succ_of_le (h.updates o ho)
  · intro k d hk serial chain hmem hnone
    rcases getElem?_emit hk with hk | ⟨rfl, rfl⟩
    · exact h.pending k d hk serial chain hmem hnone
    · exact hc.pending serial chain hmem hnone
  · intro k d hk hlt hole hmem
    rcases getElem?_emit hk with hk | ⟨rfl, rfl⟩
    · exact h.settled k d hk hlt hole hmem
    · exact absurd hlt (Nat.not_lt.mpr hs)
  · intro r hr
    rw [hlen]
    exact ⟨Nat.le_succ_of_le (h.regions r hr).1, Nat.le_succ_of_le (h.regions r hr).2⟩
  · exact StackDepth.apply_high _ _ _ _

/-- Other pending jumps are where they were. -/
theorem head_emit (hc : c.dests ≠ [h]) : (a.emit c).head h = a.head h := by
  have hlink : linkBefore (a.main ++ [c]) h (a.main.length + 1) =
      linkBefore a.main h a.main.length := by rw [linkBefore_last, if_neg hc]
  simp only [head, emit, List.length_append, List.length_singleton, hlink]
  cases hlast : linkBefore a.main h a.main.length with
  | none => rfl
  | some j =>
    obtain ⟨hj, -, -⟩ := linkBefore_some hlast
    simp only [Option.map_some, position_append (Nat.le_of_lt hj)]

/-- A new jump is the latest one of its hole. -/
theorem head_emit_self (hc : c.dests = [h]) (hnone : a.filled h = none) :
    (a.emit c).head h = some (position a.main a.main.length) := by
  have hlink : linkBefore (a.main ++ [c]) h (a.main.length + 1) = some a.main.length := by
    rw [linkBefore_last, if_pos hc]
  simp only [head, emit, List.length_append, List.length_singleton, hlink, hnone,
    Option.isSome_none, Bool.false_eq_true, if_false, Option.map_some,
    position_append (Nat.le_refl _)]

/-- Emission leaves all else alone. -/
theorem grown_emit {n s : Nat} (hown : ∀ h ∈ c.dests, (∀ serial chain, h ≠ .chain serial chain) →
    ¬ h.Old n s) : Grown n s a (a.emit c) := by
  refine { Grown.refl n s a with own := ?_, main := ?_, length := ?_, high := ?_ }
  · intro k d hk hole hmem hchain hold
    rcases getElem?_emit hk with hk | ⟨rfl, rfl⟩
    · exact hk
    · exact absurd hold (hown hole hmem hchain)
  · intro k d hk
    rw [emit, List.getElem?_append_left (lt_of_getElem? hk)]
    exact hk
  · rw [length_emit]
    exact Nat.le_succ _
  · exact StackDepth.high_le_apply _ _ _ _

end Draft

theorem Covers.append {cells more : List (Cell Hole)} {r : Region} {e : Extent}
    (h : Covers cells r e) (hstart : e.start ≤ cells.length) (hstop : e.stop ≤ cells.length) :
    Covers (cells ++ more) r e :=
  { h with
    start := h.start.trans (position_append hstart).symm
    stop := h.stop.trans (position_append hstop).symm }

section Emission

variable {g g' : Generator} {a : Draft} {c : Cell Hole}

theorem Built.settled_le (h : Built g a) : a.settled ≤ a.main.length := by
  have := h.code.settled_le
  rwa [Draft.cells, length_shown] at this

/-- Filled destinations have been reached. -/
theorem Draft.Sound.dest_le (h : a.Sound) {k : Nat} {d : Cell Hole} (hk : a.main[k]? = some d)
    (hmem : hole ∈ d.dests) {t : Nat} (ht : a.filled hole = some t) : t ≤ a.main.length := by
  refine h.targets hole t ht fun j i hne => ?_
  subst hne
  rcases (h.cells k d hk).hole_cases hmem with ⟨-, -, hfits⟩ | ⟨i', hne⟩
  · exact hfits
  · cases hne

theorem Built.emit (h : Built g a) (hc : a.Admits c)
    (hlogic : ∀ j, c.dests = [.logic j] → ∀ (k : Nat) (d : Cell Hole), a.main[k]? = some d →
      .logic j ∉ d.dests)
    (hemitted : Emit.Emitted g g' (c.shown a.filled (a.main ++ [c]) a.main.length) a.settled
      a.cells) : Built g' (a.emit c) := by
  obtain ⟨code, spans, warnings, rfl, hcodes, hspares⟩ := hemitted
  have hcells : (a.emit c).cells =
      a.cells ++ [c.shown a.filled (a.main ++ [c]) a.main.length] :=
    shown_append (fun k d hk hole hmem t => h.sound.dest_le hk hmem) hlogic
  have hscratch : (c.shown a.filled (a.main ++ [c]) a.main.length).op.spec.scratch =
      c.op.spec.scratch := (hc.ok.spec_standing a.filled).2.2.1
  refine
    { sound := h.sound.emit h.settled_le hc, main := h.main, code := ?_, prolog := h.prolog,
      depth := ?_, literals := h.literals, indexed := h.indexed, functions := h.functions,
      closed := h.closed, regions := ?_, quiet := ?_ }
  · rw [hcells]
    exact hcodes
  · dsimp only [Draft.emit]
    rw [hc.ok.uses_shown, hc.ok.defs_shown, hscratch, h.depth]
  · intro i r e hr he
    have hmem := h.sound.regions e (List.mem_of_getElem? he)
    exact (h.regions i r e hr he).append hmem.1 hmem.2
  · rintro ⟨hquiet, huses⟩
    refine hspares (h.quiet hquiet) ?_
    rw [hc.ok.uses_shown, h.depth]
    exact huses

theorem Stacked.emit {s : StatementStack} (h : Stacked s a) (hsound : a.Sound)
    (hc : ∀ serial chain, c.dests ≠ [.chain serial chain]) : Stacked s (a.emit c) := by
  refine { h with entries := fun i e o he ho => ?_ }
  have hstated := h.entries i e o he ho
  refine { hstated with update := fun hloop => ?_, link := fun chain => ?_ }
  · rw [hstated.update hloop]
    exact (position_append (hsound.updates o (List.mem_of_getElem? ho))).symm
  · rw [hstated.link, Draft.head_emit (hc o.serial chain)]

/-- Emitting a cell with holes of its own. -/
theorem Drafted.emit (h : Drafted g a) (hadmits : a.Admits c)
    (hchain : ∀ hole, c.dests = [hole] → hole.placeholder? = none)
    (hemitted : Emit.Emitted g g' (c.shown a.filled (a.main ++ [c]) a.main.length) a.settled
      a.cells) :
    Drafted g' (a.emit c) := by
  refine ⟨h.built.emit hadmits (fun j hj => ?_) hemitted, ?_⟩
  · cases hchain _ hj
  · obtain ⟨code, spans, warnings, rfl, -⟩ := hemitted
    exact h.stacked.emit h.built.sound fun serial chain hj => by cases hchain _ hj

end Emission

end ScriptCompiler
