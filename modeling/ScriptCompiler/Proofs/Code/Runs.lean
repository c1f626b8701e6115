import ScriptCompiler.Proofs.Code.Resolution
import ScriptCompiler.Proofs.Code.Switch

/-!
# Runs of a generator

A generator gets from state to state by emitting whole instructions into main
code, by changing offsets, opcodes and other operands of instructions that have
not been resolved, by resolving, and by operations that do not concern main code
at all. Whatever the order, main code and the table of spans stand for cells; and
an operation that touches one instruction leaves the cells of all others alone.
-/

namespace ScriptCompiler

open Bytes Emit

/-- The instructions of main code since the last resolution. -/
def Recent (g : Generator) (is : List Instruction) : Prop := Whole g.main.code g.spans.todo is

/-- One operation. It says at which place the instruction stands that it changes, if any. -/
inductive Operation (g g' : Generator) : Option Nat → Prop where
  /-- Anything that leaves main code and the table of spans alone. -/
  | aside (hcode : g'.main.code = g.main.code) (hspans : g'.spans = g.spans) : Operation g g' none
  /-- An instruction without offsets is emitted. -/
  | plain {op : Opcode} {operands : Bytes} (hop : op.format.jumpLen = none)
      (hlength : op.spec.length = some (1 + operands.size))
      (hcode : g'.main.code = g.main.code ++ (#[op.toByte] ++ operands))
      (hspans : g'.spans = g.spans) : Operation g g' none
  /-- A jump or a link is emitted. -/
  | jump {op : Opcode} {offset : Int} {pc : Nat} (hop : op.format = .jump)
      (hok : Emit.jump op offset g = .ok pc g') : Operation g g' none
  /-- A table switch is emitted and entered. -/
  | tableSwitch {low high : Int} {pc : Nat} {g₁ g₂ g₃ : Generator} (hmain : g.current = .main)
      (hlow16 : fits16 low = true) (hhigh16 : fits16 high = true)
      (hop : Emit.opZeroed .tableSwitch (2 * (3 + keyCount low high)) g = .ok pc g₁)
      (hlow : Emit.setI16 (pc + 3) low g₁ = .ok () g₂)
      (hhigh : Emit.setI16 (pc + 5) high g₂ = .ok () g₃)
      (hregister : Walk.registerSwitch pc g₃ = .ok () g') : Operation g g' none
  /-- A lookup switch is emitted and entered. -/
  | lookupSwitch {count pc : Nat} {g₁ g₂ : Generator} (hmain : g.current = .main)
      (hcount16 : count < 65536)
      (hop : Emit.opZeroed .lookupSwitch (4 + 4 * count) g = .ok pc g₁)
      (hcount : Emit.setU16 (pc + 3) count g₁ = .ok () g₂)
      (hregister : Walk.registerSwitch pc g₂ = .ok () g') : Operation g g' none
  /-- An offset is set. -/
  | offset {is : List Instruction} {i : Instruction} {field : Nat} {offset : Int}
      (hrecent : Recent g is) (hi : i ∈ is) (hfield : field ∈ i.fields)
      (hok : Emit.setOffsetAt field offset g = .ok () g') : Operation g g' (some i.pc)
  /-- The distance of a link is set. -/
  | delta {is : List Instruction} {i : Instruction} {delta : Int} (hrecent : Recent g is)
      (hi : i ∈ is) (hop : i.op.format = .jump)
      (hok : Emit.setLinkDelta i.pc delta g = .ok () g') : Operation g g' (some i.pc)
  /-- An opcode is overwritten by one of the same shape. -/
  | opcode {is : List Instruction} {i : Instruction} {op : Opcode} (hrecent : Recent g is)
      (hi : i ∈ is)
      (hop : op.format = i.op.format ∨ op.format.jumpLen = none ∧ i.op.format.jumpLen = none)
      (hlength : op.spec.length = i.op.spec.length)
      (hcode : g'.main.code = g.main.code.setIfInBounds i.pc op.toByte)
      (hspans : g'.spans = g.spans) : Operation g g' (some i.pc)
  /-- Operands of an instruction without offsets are overwritten. -/
  | operand {is : List Instruction} {i : Instruction} (hrecent : Recent g is) (hi : i ∈ is)
      (hop : i.op.format.jumpLen = none) (hsize : g'.main.code.size = g.main.code.size)
      (hcode : ∀ x, x ≤ i.pc ∨ i.pc + i.length ≤ x → g'.main.code[x]? = g.main.code[x]?)
      (hspans : g'.spans = g.spans) : Operation g g' (some i.pc)
  /-- A literal of a lookup switch is overwritten. -/
  | literal {is : List Instruction} {i : Instruction} {pair value : Nat} (hrecent : Recent g is)
      (hi : i ∈ is) (hop : i.op.format = .lookupSwitch) (hpair : 9 + 4 * pair ≤ i.length)
      (hcode : g'.main.code = setU16 g.main.code (i.pc + 5 + 4 * pair) value)
      (hspans : g'.spans = g.spans) : Operation g g' (some i.pc)

/-- States a new generator gets to. -/
inductive Reached : Generator → Prop where
  | new (filename : String) (firstLine : UInt32) (limits : Limits) :
      Reached (Generator.new filename firstLine limits)
  | step {g g' : Generator} {touched : Option Nat} (hg : Reached g) (hstep : Operation g g' touched) :
      Reached g'
  | resolve {g g' : Generator} (hg : Reached g) (hok : Emit.resolveSpans g = .ok () g') : Reached g'

/-! ## Instructions and cells -/

/-- From a place on there is one way to read the code. -/
theorem Whole.unique {code : Bytes} {pc : Nat} {is js : List Instruction} (h : Whole code pc is)
    (h' : Whole code pc js) : is = js := by
  have hread := instructionsFrom_of_whole h [] (Nat.le_add_left code.size pc)
  have hread' := instructionsFrom_of_whole h' [] (Nat.le_add_left code.size pc)
  simpa using hread.symm.trans hread'

section Cells

variable {g g' : Generator} {settled k : Nat} {cells cells' : List (Cell Int)} {c : Cell Int}
  {is : List Instruction} {i : Instruction}

section

variable (hr : Recent g is) (h : Codes g.main.code g.spans settled cells)

include hr h

theorem Recent.eq_views : is = views (position cells settled) (cells.drop settled) :=
  Whole.unique hr (whole_recent h)

/-- A recent instruction is a recent cell. -/
theorem Recent.cell (hi : i ∈ is) :
    ∃ (k : Nat) (c : Cell Int), settled ≤ k ∧ cells[k]? = some c ∧
      i = c.view (position cells k) := by
  rw [hr.eq_views h] at hi
  obtain ⟨k, c, hk, rfl⟩ := mem_views.mp hi
  rw [List.getElem?_drop] at hk
  exact ⟨settled + k, c, Nat.le_add_right _ _, hk, by rw [position_drop cells h.settled_le]⟩

theorem Recent.mem_view (hk : cells[k]? = some c) (hs : settled ≤ k) :
    c.view (position cells k) ∈ is := by
  rw [hr.eq_views h]
  exact view_mem h.settled_le hk hs

end

/-- The fields of the instruction are those of the cell. -/
theorem Cell.Shaped.mem_fields {c : Cell Int} (h : c.Shaped) {pc field : Nat} :
    field ∈ (c.view pc).fields ↔ ∃ i < c.operands.arms, c.field pc i = field := by
  rw [h.view_fields, List.mem_map]
  simp only [List.mem_range]

/-- The opcode of a recent cell is the one in the code. -/
theorem view_op (h : Codes g.main.code g.spans settled cells) (hk : cells[k]? = some c)
    (hs : settled ≤ k) (pc : Nat) : (c.view pc).op = c.op := by
  show c.opcode = c.op
  rw [Cell.opcode, h.narrow k c hk hs]
  rfl

/-! ## What one operation does to the cells -/

/-- The cells of a later state: nothing has moved, and none is changed but the one touched. -/
structure Spares (touched : Option Nat) (cells cells' : List (Cell Int)) : Prop where
  length : cells.length ≤ cells'.length
  places : ∀ k ≤ cells.length, position cells' k = position cells k
  kept : ∀ (k : Nat) (c : Cell Int), cells[k]? = some c → touched ≠ some (position cells k) →
    cells'[k]? = some c

theorem spares_refl (touched : Option Nat) (cells : List (Cell Int)) :
    Spares touched cells cells :=
  ⟨Nat.le_refl _, fun _ _ => rfl, fun _ _ hk _ => hk⟩

theorem spares_append (touched : Option Nat) (cells : List (Cell Int)) (c : Cell Int) :
    Spares touched cells (cells ++ [c]) where
  length := by simp
  places _ hk := position_append hk
  kept k d hk _ := by
    rw [List.getElem?_append_left (lt_of_getElem? hk)]
    exact hk

theorem spares_set {c' : Cell Int} (hk : cells[k]? = some c) (hform : c'.form = c.form) :
    Spares (some (position cells k)) cells (cells.set k c') where
  length := by simp
  places := fun j _ => position_congr (map_form_set hk hform) j
  kept j d hj htouched := by
    have hne : k ≠ j := by
      rintro rfl
      exact htouched rfl
    rw [List.getElem?_set_ne hne]
    exact hj

theorem form_setOp (c : Cell Int) (op : Opcode) : ({ c with op } : Cell Int).form = c.form := rfl

theorem form_setLiteral {literals : List Nat} (hc : c.operands = .lookup literals) (i literal : Nat) :
    ({ c with operands := .lookup (literals.set i literal) } : Cell Int).form = c.form := by
  simp only [Cell.form, hc, Operands.form, List.map_const', List.length_set]

theorem Layered.setPlain {code code' : Bytes} {spans : SpanTable} {limit : Nat}
    (h : Layered code spans limit settled cells) (hk : cells[k]? = some c) {bytes : List UInt8}
    (hc : c.operands = .plain bytes) (hsize : code'.size = code.size)
    (hcode : ∀ x, x ≤ position cells k ∨ position cells k + c.size ≤ x → code'[x]? = code[x]?) :
    ∃ bytes', Layered code' spans limit settled (cells.set k { c with operands := .plain bytes' }) ∧
      ({ c with operands := .plain bytes' } : Cell Int).form = c.form := by
  have hstands := h.stands k c hk
  have hend := position_add_size hk (lt_of_getElem? hk)
  rw [← h.size, ← hsize, Cell.size, hc, Operands.size] at hend
  obtain ⟨bytes', hbytes⟩ : ∃ bytes', bytes' =
      (code'.toList.drop (position cells k + 1)).take bytes.length := ⟨_, rfl⟩
  have hlen : bytes'.length = bytes.length := by
    have hlist : code'.toList.length = code'.size := Array.length_toList
    rw [hbytes, List.length_take, List.length_drop, hlist]
    omega
  have hform : ({ c with operands := .plain bytes' } : Cell Int).form = c.form := by
    simp only [Cell.form, hc, Operands.form, List.map_const', hlen]
  have hdests : c.dests = [] := by
    have hcount := hstands.shaped.count
    rw [hc] at hcount
    exact List.length_eq_zero_iff.mp hcount
  refine ⟨bytes', h.set hk hform hsize (fun x hx => hcode x (by omega))
    (SpanTable.Grows.refl h.sound) (fun _ _ _ _ _ _ => Iff.rfl) (fun _ _ hget _ => hget) h.listed
    ⟨⟨?_, ?_, hstands.shaped.twin⟩, ?_, ?_, ?_⟩, hform⟩
  · rw [hdests]
    rfl
  · have hfits := hstands.shaped.fits_plain hc
    rw [← hlen] at hfits
    exact hfits
  · rw [hcode _ (.inl (Nat.le_refl _))]
    exact hstands.opcode
  · intro raw hraw
    obtain rfl := List.mem_singleton.mp hraw
    intro j hj
    have hj : j < bytes.length := hlen ▸ hj
    rw [hbytes, List.getElem?_take_of_lt hj, List.getElem?_drop, Array.getElem?_toList]
  · intro j z hz
    rw [hdests] at hz
    cases hz

/-- A cell may get another opcode of its shape. -/
theorem Cell.Shaped.setOp {op : Opcode} (h : c.Shaped) (hwide : c.wide = false)
    (hop : op.format = c.op.format ∨ op.format.jumpLen = none ∧ c.op.format.jumpLen = none)
    (hlength : op.spec.length = c.op.spec.length) : ({ c with op } : Cell Int).Shaped := by
  refine ⟨h.count, ?_, fun hw => ?_⟩
  · -- a cell with offsets has a format that tells which
    have hsame : c.op.format.jumpLen = some 2 → op.format = c.op.format := fun hjump => by
      rcases hop with heq | ⟨-, hnone⟩
      · exact heq
      · rw [hjump] at hnone
        cases hnone
    cases hc : c.operands with
    | plain bytes =>
      obtain ⟨hjump, hlen⟩ := h.fits_plain hc
      refine ⟨?_, hlength.trans hlen⟩
      rcases hop with heq | ⟨hnone, -⟩
      · exact (congrArg Format.jumpLen heq).trans hjump
      · exact hnone
    | jump =>
      have hformat := h.fits_jump hc
      exact (hsame (by rw [hformat]; rfl)).trans hformat
    | table low high =>
      obtain ⟨hformat, hbounds⟩ := h.fits_table hc
      exact ⟨(hsame (by rw [hformat]; rfl)).trans hformat, hbounds⟩
    | lookup literals =>
      obtain ⟨hformat, hcount⟩ := h.fits_lookup hc
      exact ⟨(hsame (by rw [hformat]; rfl)).trans hformat, hcount⟩
  · exact absurd (hwide.symm.trans hw) Bool.false_ne_true

theorem Emit.Emitted.codes (h : Emit.Emitted g g' c settled cells) :
    Codes g'.main.code g'.spans settled (cells ++ [c]) := by
  obtain ⟨code, spans, warnings, rfl, hcodes, -⟩ := h
  exact hcodes

/-- Code and spans stand for cells again after an operation. -/
theorem Operation.codes {touched : Option Nat} (hstep : Operation g g' touched)
    (h : Codes g.main.code g.spans settled cells) :
    ∃ cells', Codes g'.main.code g'.spans settled cells' ∧ Spares touched cells cells' := by
  cases hstep with
  | aside hcode hspans =>
    rw [hcode, hspans]
    exact ⟨cells, h, spares_refl _ _⟩
  | @plain op operands hop hlength hcode hspans =>
    obtain ⟨hlayered, -, -⟩ := layered_plain h (limit_le _ _)
      (Cell.Shaped.of_plain hop (by simpa using hlength) ⟨0⟩) rfl
    rw [hcode, hspans]
    exact ⟨_, codes_of_longer hlayered h.size rfl, spares_append _ _ _⟩
  | jump hop hok =>
    obtain ⟨-, -, hemitted⟩ := jump_emitted h hop ⟨0⟩ hok
    exact ⟨_, hemitted.codes, spares_append _ _ _⟩
  | tableSwitch hmain hlow16 hhigh16 hop hlow hhigh hregister =>
    obtain ⟨-, hemitted⟩ :=
      tableSwitch_emitted hop hlow hhigh hregister h hmain hlow16 hhigh16 ⟨0⟩
    exact ⟨_, hemitted.codes, spares_append _ _ _⟩
  | lookupSwitch hmain hcount16 hop hcount hregister =>
    obtain ⟨-, hemitted⟩ := lookupSwitch_emitted hop hcount hregister h hmain hcount16 ⟨0⟩
    exact ⟨_, hemitted.codes, spares_append _ _ _⟩
  | offset hrecent hi hfield hok =>
    obtain ⟨k, c, hs, hk, rfl⟩ := hrecent.cell h hi
    obtain ⟨j, hj, rfl⟩ := (h.stands k c hk).shaped.mem_fields.mp hfield
    exact ⟨_, (setOffsetAt_coded h hk hs hj hok).codes, spares_set hk rfl⟩
  | delta hrecent hi hop hok =>
    obtain ⟨k, c, hs, hk, rfl⟩ := hrecent.cell h hi
    rw [view_op h hk hs] at hop
    have hj : 0 < c.operands.arms := by
      cases hc : c.operands with
      | plain bytes =>
        have hjump := ((h.stands k c hk).shaped.fits_plain hc).1
        rw [hop] at hjump
        cases hjump
      | _ => simp [Operands.arms]
    exact ⟨_, (setLinkDelta_coded hok h hk hs hj).codes, spares_set hk rfl⟩
  | @opcode is i op hrecent hi hop hlength hcode hspans =>
    obtain ⟨k, c, hs, hk, rfl⟩ := hrecent.cell h hi
    rw [view_op h hk hs] at hop hlength
    have hshaped := (h.stands k c hk).shaped.setOp (h.narrow k c hk hs) hop hlength
    have hlayered := h.setOp hk hs hshaped
    refine ⟨_, ?_, spares_set hk (form_setOp c op)⟩
    rw [hcode, hspans, Codes, Array.size_setIfInBounds]
    exact hlayered
  | operand hrecent hi hop hsize hcode hspans =>
    obtain ⟨k, c, hs, hk, rfl⟩ := hrecent.cell h hi
    rw [view_op h hk hs] at hop
    have hshaped := (h.stands k c hk).shaped
    cases hc : c.operands with
    | plain bytes =>
      obtain ⟨bytes', hlayered, hform⟩ := h.setPlain hk hc hsize hcode
      refine ⟨_, ?_, spares_set hk hform⟩
      rw [hspans, Codes, hsize]
      exact hlayered
    | jump =>
      rw [hshaped.fits_jump hc] at hop
      cases hop
    | table low high =>
      rw [(hshaped.fits_table hc).1] at hop
      cases hop
    | lookup literals =>
      rw [(hshaped.fits_lookup hc).1] at hop
      cases hop
  | @literal is i pair value hrecent hi hop hpair hcode hspans =>
    obtain ⟨k, c, hs, hk, rfl⟩ := hrecent.cell h hi
    rw [view_op h hk hs] at hop
    have hshaped := (h.stands k c hk).shaped
    cases hc : c.operands with
    | plain bytes =>
      have hjump := (hshaped.fits_plain hc).1
      rw [hop] at hjump
      cases hjump
    | jump =>
      rw [hshaped.fits_jump hc] at hop
      cases hop
    | table low high =>
      rw [(hshaped.fits_table hc).1] at hop
      cases hop
    | lookup literals =>
      have hwidth : c.width = 2 := by rw [Cell.width, h.narrow k c hk hs]; rfl
      have hlen : (c.view (position cells k)).length = 5 + 4 * literals.length := by
        show c.size = _
        rw [Cell.size, hc, hwidth, Operands.size]
        omega
      have hlayered := h.setLiteral hk hs hc (i := pair) (by omega) value
      refine ⟨_, ?_, spares_set hk (form_setLiteral hc pair value)⟩
      rw [hcode, hspans, Codes, size_setU16]
      exact hlayered

/-! ## What a resolution does to the cells -/

/-- In a table that is on, all offsets lead to places in the code or behind it. -/
theorem Codes.target_nonneg (h : Codes g.main.code g.spans settled cells)
    (hon : g.spans.active) (hk : cells[k]? = some c) (hs : settled ≤ k) {j : Nat} {z : Int}
    (hz : c.dests[j]? = some z) : 0 ≤ (position cells k : Int) + z := by
  have hj := arms_of_dest h hk hz
  have hlt := field_lt_size h hk hj
  rw [Codes, hon, if_pos rfl] at h
  have hoffset := (h.stands k c hk).offsets j z hz
  rw [OffsetAt, if_pos ⟨h.todo_le hk hs hj, hlt⟩] at hoffset
  obtain ⟨index, destination, -, -, -, rfl⟩ := hoffset
  cases destination <;> simp only [SpanTable.offsetOf] <;> omega

/-- A cell as it is after a resolution. -/
def Cell.resolved (promoted : Instruction → Bool) (at' : Nat → Nat) (pc : Nat) (c : Cell Int) :
    Cell Int :=
  { c with
    wide := promoted (c.view pc)
    dests := c.dests.map fun z => (at' ((pc : Int) + z).toNat : Int) - at' pc }

theorem resolveSpans_codes (h : Codes g.main.code g.spans settled cells)
    (hok : resolveSpans g = .ok () g') :
    ∃ settled' cells', Codes g'.main.code g'.spans settled' cells' := by
  cases hon : g.spans.active with
  | false =>
    obtain rfl := resolveSpans_off hon hok
    exact ⟨settled, cells, h⟩
  | true =>
    obtain ⟨promoted, at', hm⟩ := (recorded_views h hon).moved hok
    obtain ⟨-, -, code, notes, last, regions, -, -, -, -, -, rfl⟩ := resolveSpans_ok hon hok
    obtain ⟨cells', hcells⟩ : ∃ cells', cells' = cells.mapIdx fun k c =>
        if k < settled then c else c.resolved promoted at' (position cells k) := ⟨_, rfl⟩
    have hget : ∀ (k : Nat) (c : Cell Int), cells[k]? = some c → cells'[k]? =
        some (if k < settled then c else c.resolved promoted at' (position cells k)) := by
      intro k c hk
      simp [hcells, List.getElem?_mapIdx, hk]
    obtain ⟨wides, hwides⟩ : ∃ wides : Nat → Bool, ∀ (k : Nat) (c : Cell Int),
        cells[k]? = some c → settled ≤ k → wides k = promoted (c.view (position cells k)) :=
      ⟨fun k => (cells[k]?.map fun c => promoted (c.view (position cells k))).getD false,
        fun k c hk _ => by simp [hk]⟩
    have hwidened : Widened wides settled cells cells' := by
      refine ⟨by simp [hcells], fun k hk => ?_, fun k c c' hle hk hk' => ?_⟩
      · have hlt : k < cells.length := Nat.lt_of_lt_of_le hk h.settled_le
        rw [hget k _ (List.getElem?_eq_getElem hlt), if_pos hk, List.getElem?_eq_getElem hlt]
      · rw [hget k c hk, if_neg (by omega)] at hk'
        cases hk'
        exact ⟨rfl, (hwides k c hk hle).symm, rfl, by simp [Cell.resolved]⟩
    have haims : Aims settled cells cells' at' fun k j =>
        ((position cells k : Int) + ((cells[k]?.bind fun c => c.dests[j]?).getD 0)).toNat := by
      intro k c c' hle hk hk' j z hz
      have hpos := h.target_nonneg hon hk hle hz
      rw [hget k c hk, if_neg (by omega)] at hk'
      cases hk'
      simp only [hk, Option.bind_some, hz, Option.getD_some]
      refine ⟨by omega, ?_⟩
      rw [position_widened h hm hwidened hwides
        (Nat.le_of_lt (lt_of_getElem? hk))]
      simp [Cell.resolved, hz]
    exact ⟨_, _, (Emit.Resolved.mk h hm hwidened hwides haims).codes rfl⟩

end Cells

/-- In every state a run gets to, code and spans stand for cells. -/
theorem Reached.codes {g : Generator} (hg : Reached g) :
    ∃ settled cells, Codes g.main.code g.spans settled cells := by
  induction hg with
  | new filename firstLine limits =>
    exact ⟨0, [], Nat.le_refl _, rfl, rfl, fun _ _ hk => by simp at hk,
      fun _ _ hk => by simp at hk, rfl, TargetIndex.sound_empty⟩
  | step _ hstep ih =>
    obtain ⟨settled, cells, h⟩ := ih
    obtain ⟨cells', h', -⟩ := hstep.codes h
    exact ⟨settled, cells', h'⟩
  | resolve _ hok ih =>
    obtain ⟨settled, cells, h⟩ := ih
    exact resolveSpans_codes h hok

end ScriptCompiler
