import ScriptCompiler.Proofs.Code.Offsets
import ScriptCompiler.Proofs.Layout.Displacement

/-!
# Resolving cells

Cells as instructions are what resolution preserves. So after a resolution the
code stands for the same cells, some of them in their wide form, with all
offsets measured anew between the places where the cells stand then.
-/

namespace ScriptCompiler

open Bytes Cell

namespace Emit

variable {g g' : Generator} {settled : Nat} {cells : List (Cell Int)}

theorem listed_recent (h : Codes g.main.code g.spans settled cells) (hon : g.spans.active) :
    g.spans.spans.toList.map (fun span => (span.top, span.field)) =
      fieldsFrom (position cells settled) (cells.drop settled) := by
  rw [Codes, hon, if_pos rfl] at h
  have hlen : (cells.take settled).length = settled := by simp [h.settled_le]
  have hfront : position (cells.take settled) settled = position cells settled := by
    have := @position_append settled _ (cells.take settled) (cells.drop settled) (Nat.le_of_eq hlen.symm)
    rw [List.take_append_drop] at this
    exact this.symm
  have hsplit : fieldsFrom 0 cells = fieldsFrom 0 (cells.take settled) ++
      fieldsFrom (position cells settled) (cells.drop settled) := by
    conv_lhs => rw [← List.take_append_drop settled cells]
    rw [fieldsFrom_append, hlen, hfront, Nat.zero_add]
  rw [h.listed, hsplit, List.filter_append]
  have hnone : (fieldsFrom 0 (cells.take settled)).filter
      (fun p => g.spans.todo ≤ p.2 && p.2 < g.main.code.size) = [] := by
    refine List.filter_eq_nil_iff.mpr fun p hp => ?_
    obtain ⟨k, c, i, hk, hi, rfl⟩ := mem_fieldsFrom.mp hp
    have hlt : k < settled := by
      have := lt_of_getElem? hk
      omega
    have hin := c.field_bounds (0 + position (cells.take settled) k) hi
    have hwidth := offsetWidth_pos c.wide
    rw [width] at hin
    have hpos := position_add_size hk hlt
    rw [hfront] at hpos
    simp only [h.todo, Bool.and_eq_true, decide_eq_true_eq, not_and, Nat.not_lt]
    omega
  have hall : (fieldsFrom (position cells settled) (cells.drop settled)).filter
      (fun p => g.spans.todo ≤ p.2 && p.2 < g.main.code.size) =
        fieldsFrom (position cells settled) (cells.drop settled) := by
    refine List.filter_eq_self.mpr fun p hp => ?_
    obtain ⟨k, c, i, hk, hi, rfl⟩ := mem_fieldsFrom.mp hp
    have hin := c.field_bounds (position cells settled + position (cells.drop settled) k) hi
    have hwidth := offsetWidth_pos c.wide
    rw [width] at hin
    rw [← position_drop cells h.settled_le] at hin ⊢
    rw [List.getElem?_drop] at hk
    have hend := position_add_size hk (lt_of_getElem? hk)
    rw [← h.size] at hend
    simp only [h.todo, Bool.and_eq_true, decide_eq_true_eq]
    have hle := position_le (Nat.le_add_right settled k)
      (Nat.le_of_lt (lt_of_getElem? hk))
    omega
  rw [hnone, hall, List.nil_append]

/-- Cells since the last resolution, with the table on. -/
theorem recorded_views (h : Codes g.main.code g.spans settled cells)
    (hon : g.spans.active) :
    Recorded g (views (position cells settled) (cells.drop settled)) := by
  have hlisted := listed_recent h hon
  have hshaped : ∀ c ∈ cells.drop settled, c.Shaped := fun c hc => by
    obtain ⟨k, hk⟩ := List.mem_iff_getElem?.mp (List.mem_of_mem_drop hc)
    exact (h.stands k c hk).shaped
  have hlayered := h
  rw [Codes, hon, if_pos rfl] at hlayered
  refine ⟨hon, whole_recent h, ?_, ?_, ?_⟩
  · intro i hi
    obtain ⟨k, c, hk, rfl⟩ := mem_views.mp hi
    rw [List.getElem?_drop] at hk
    exact (h.stands _ c hk).shaped.isWide_eq_false (h.narrow _ c hk (Nat.le_add_right _ _))
  · rw [Layout.Lists, hlisted, flatMap_views hshaped]
  · intro index span hspan
    have hmem : (span.top, span.field) ∈
        fieldsFrom (position cells settled) (cells.drop settled) := by
      rw [← hlisted]
      exact List.mem_map.mpr ⟨span, Array.mem_toList_iff.mpr (Array.mem_of_getElem? hspan), rfl⟩
    obtain ⟨k, c, i, hk, hi, heq⟩ := mem_fieldsFrom.mp hmem
    rw [List.getElem?_drop] at hk
    rw [← position_drop cells h.settled_le] at heq
    obtain ⟨htop, hfield⟩ := Prod.mk.inj heq
    have hdest : i < c.dests.length := by rwa [(h.stands _ c hk).shaped.count]
    have hoffset := (hlayered.stands _ c hk).offsets i _ (List.getElem?_eq_getElem hdest)
    rw [OffsetAt, if_pos ⟨hlayered.todo_le hk (Nat.le_add_right _ _) hi, field_lt_size h hk hi⟩] at hoffset
    obtain ⟨index', destination, hget, hholds, -, -⟩ := hoffset
    obtain ⟨rfl, rfl⟩ := hlayered.ascending.eq_of_field_eq hspan hget hfield
    have hmark : SpanTable.mark index % 65536 = SpanTable.mark index := by
      simp only [SpanTable.mark, SpanTable.searchMark]
      omega
    rw [hholds.u16?, hmark]

end Emit

/-! ## Cells after a resolution -/

/-- The same cells, those from `settled` on in a width of their own, with offsets of their own. -/
structure Widened (wides : Nat → Bool) (settled : Nat) (cells cells' : List (Cell Int)) : Prop where
  length : cells'.length = cells.length
  front : ∀ k < settled, cells'[k]? = cells[k]?
  back : ∀ (k : Nat) (c c' : Cell Int), settled ≤ k → cells[k]? = some c → cells'[k]? = some c' →
    c'.op = c.op ∧ c'.wide = wides k ∧ c'.operands = c.operands ∧ c'.dests.length = c.dests.length

/-- The offset number `i` of the cell at `k` leads to the place `landing k i`, and after a resolution
to where that place has gone. -/
def Aims (settled : Nat) (cells cells' : List (Cell Int)) (at' : Nat → Nat)
    (landing : Nat → Nat → Nat) : Prop :=
  ∀ (k : Nat) (c c' : Cell Int), settled ≤ k → cells[k]? = some c → cells'[k]? = some c' →
    ∀ (i : Nat) (z : Int), c.dests[i]? = some z →
      z = (landing k i : Int) - position cells k ∧
        c'.dests[i]? = some ((at' (landing k i) : Int) - position cells' k)

theorem Operands.size_four (o : Operands) : o.size 4 = o.size 2 + 2 * o.arms := by
  cases o with
  | plain bytes => rfl
  | jump => rfl
  | table low high =>
    simp only [size, arms]
    omega
  | lookup literals =>
    simp only [size, arms]
    omega

section Widening

variable {wides : Nat → Bool} {settled : Nat} {cells cells' : List (Cell Int)} {g g' : Generator}
  {promoted : Instruction → Bool} {at' : Nat → Nat}

theorem Widened.position_front (h : Widened wides settled cells cells') (hs : settled ≤ cells.length)
    {k : Nat} (hk : k ≤ settled) : position cells' k = position cells k := by
  have htake : cells'.take settled = cells.take settled := by
    refine List.ext_getElem? fun i => ?_
    by_cases hi : i < settled
    · rw [List.getElem?_take_of_lt hi, List.getElem?_take_of_lt hi, h.front i hi]
    · rw [List.getElem?_eq_none_iff.mpr (by simp; omega),
        List.getElem?_eq_none_iff.mpr (by simp; omega)]
  rw [← List.take_append_drop settled cells, ← List.take_append_drop settled cells', htake,
    position_append (by simp; omega), position_append (by simp; omega)]

/-- The cell at an index as an instruction. -/
theorem view_mem {k : Nat} {c : Cell Int} (hs : settled ≤ cells.length) (hk : cells[k]? = some c)
    (hle : settled ≤ k) :
    c.view (position cells k) ∈ views (position cells settled) (cells.drop settled) := by
  obtain ⟨j, rfl⟩ := Nat.exists_eq_add_of_le hle
  refine mem_views.mpr ⟨j, c, by rwa [List.getElem?_drop], ?_⟩
  rw [position_drop cells hs]

/-- Cells stand where the code has moved. -/
theorem Widened.position_eq (h : Widened wides settled cells cells')
    (hm : Moved g g' (views (position cells settled) (cells.drop settled)) promoted at')
    (htodo : g.spans.todo = position cells settled) (hs : settled ≤ cells.length)
    (hshaped : ∀ c ∈ cells, c.Shaped)
    (hnarrow : ∀ (k : Nat) (c : Cell Int), cells[k]? = some c → settled ≤ k → c.wide = false)
    (hwides : ∀ (k : Nat) (c : Cell Int), cells[k]? = some c → settled ≤ k →
      wides k = promoted (c.view (position cells k)))
    {k : Nat} (hk : k ≤ cells.length) : position cells' k = at' (position cells k) := by
  rcases Nat.lt_or_ge k settled with hlt | hge
  · rw [h.position_front hs (Nat.le_of_lt hlt), hm.front]
    rw [htodo]
    exact position_le (Nat.le_of_lt hlt) hs
  · obtain ⟨j, rfl⟩ := Nat.exists_eq_add_of_le hge
    induction j with
    | zero =>
      rw [Nat.add_zero, h.position_front hs (Nat.le_refl _), hm.front]
      exact Nat.le_of_eq htodo.symm
    | succ j ih =>
      obtain ⟨k, hkj⟩ : ∃ k, k = settled + j := ⟨_, rfl⟩
      have hge : settled ≤ k := by omega
      rw [← Nat.add_assoc, ← hkj] at hk ⊢
      rw [← hkj] at ih
      obtain ⟨c, hc⟩ : ∃ c, cells[k]? = some c := ⟨_, List.getElem?_eq_getElem (by omega)⟩
      obtain ⟨c', hc'⟩ : ∃ c', cells'[k]? = some c' :=
        ⟨_, List.getElem?_eq_getElem (by rw [h.length]; omega)⟩
      obtain ⟨-, hwide, hoperands, -⟩ := h.back k c c' hge hc hc'
      have hin := hm.inside _ (view_mem hs hc hge) (position cells k + c.size)
        (Nat.le_add_right _ _) (Nat.le_refl _)
      have hfields := (hshaped c (List.mem_of_getElem? hc)).view_fields (position cells k)
      have hcount : (c.view (position cells k)).fields.countP
          (· < position cells k + c.size) = c.operands.arms := by
        rw [Layout.countP_lt_eq_length, hfields]
        · simp
        · intro field hfield
          rw [hfields] at hfield
          obtain ⟨i, hi, rfl⟩ := List.mem_map.mp hfield
          have := c.field_bounds (position cells k) (List.mem_range.mp hi)
          have hw := offsetWidth_pos c.wide
          rw [width] at this
          omega
      rw [position_succ hc, position_succ hc', ih (by omega) hge, hin, hcount]
      have hsize : c'.size = c.size + if wides k then 2 * c.operands.arms else 0 := by
        rw [Cell.size, Cell.size, width, width, hwide, hoperands, hnarrow k c hc hge]
        cases wides k with
        | false => rfl
        | true =>
          show 1 + c.operands.size 4 = _
          rw [Operands.size_four]
          simp [offsetWidth]
          omega
      rw [hsize, hwides k c hc hge]
      show _ = at' (position cells k) + (position cells k + c.size - position cells k) + _
      omega

/-- Of ascending offsets, the first ones lie in front of a place. -/
theorem countP_map_range {f : Nat → Nat} {n m x : Nat} (hm : m ≤ n) (hlt : ∀ i < m, f i < x)
    (hge : ∀ i, m ≤ i → i < n → x ≤ f i) : ((List.range n).map f).countP (· < x) = m := by
  obtain ⟨d, rfl⟩ := Nat.exists_eq_add_of_le hm
  rw [List.range_add, List.map_append, List.countP_append, Layout.countP_lt_eq_length,
    Layout.countP_lt_eq_zero]
  · simp
  · intro w hw
    obtain ⟨i, hi, rfl⟩ := List.mem_map.mp hw
    obtain ⟨j, hj, rfl⟩ := List.mem_map.mp hi
    exact hge _ (Nat.le_add_right _ _) (by have := List.mem_range.mp hj; omega)
  · intro w hw
    obtain ⟨i, hi, rfl⟩ := List.mem_map.mp hw
    exact hlt i (List.mem_range.mp hi)

/-- Operands besides the offsets move with the code. -/
theorem raws_moved {pc : Nat} {c c' : Cell Int} (hshaped : c.Shaped) (hnarrow : c.wide = false)
    (hwide : c'.wide = promoted (c.view pc)) (hoperands : c'.operands = c.operands)
    (hinside : ∀ x, pc ≤ x → x ≤ pc + c.size → at' x = at' pc + (x - pc) +
      if promoted (c.view pc) then 2 * (c.view pc).fields.countP (· < x) else 0)
    {raw : Nat × List UInt8} (hraw : raw ∈ c'.raws (at' pc)) :
    ∃ p, (p, raw.2) ∈ c.raws pc ∧ ∀ j < raw.2.length, raw.1 + j = at' (p + j) := by
  have hwidth : c.width = 2 := by rw [width, hnarrow]; rfl
  have hwidth' : c'.width = if promoted (c.view pc) then 4 else 2 := by
    rw [width, hwide]
    rfl
  have hbounds := fun (raw : Nat × List UInt8) (hmem : raw ∈ c.raws pc) => c.raw_bounds hmem
  -- a place behind `m` of the offsets
  have hat : ∀ m x, pc ≤ x → x ≤ pc + c.size → m ≤ c.operands.arms →
      (∀ i < m, c.field pc i < x) → (∀ i, m ≤ i → i < c.operands.arms → x ≤ c.field pc i) →
      at' x = at' pc + (x - pc) + (c'.width - 2) * m := by
    intro m x hlo hhi hm hlt hge
    rw [hinside x hlo hhi, hshaped.view_fields, countP_map_range hm hlt hge, hwidth']
    cases promoted (c.view pc) <;> simp
  rw [Cell.raws, hoperands] at hraw
  cases hc : c.operands with
  | plain bytes =>
    rw [hc] at hraw
    obtain rfl := List.mem_singleton.mp hraw
    have hmem : (pc + 1, bytes) ∈ c.raws pc := by simp [Cell.raws, hc, Operands.raws]
    refine ⟨pc + 1, hmem, fun j hj => ?_⟩
    have hsize := hbounds _ hmem
    simp only at hj hsize ⊢
    rw [hat 0 (pc + 1 + j) (by omega) (by omega) (Nat.zero_le _) (by simp) (by simp [hc, Operands.arms])]
    omega
  | jump =>
    rw [hc] at hraw
    cases hraw
  | table low high =>
    rw [hc] at hraw
    obtain rfl := List.mem_singleton.mp hraw
    have hmem : (pc + 3, (le16 (image16 low)).toList ++ (le16 (image16 high)).toList) ∈
        c.raws pc := by simp [Cell.raws, hc, Operands.raws, hwidth]
    refine ⟨pc + 3, hmem, fun j hj => ?_⟩
    have hsize := hbounds _ hmem
    simp only [List.length_append] at hj hsize ⊢
    rw [show (le16 (image16 low)).toList.length = 2 from rfl,
      show (le16 (image16 high)).toList.length = 2 from rfl] at hj hsize
    rw [hat 1 (pc + 3 + j) (by omega) (by omega) (by simp [hc, Operands.arms]) (fun i hi => ?_) fun i hi _ => ?_]
    · have : c'.width = 2 ∨ c'.width = 4 := by rw [hwidth']; split <;> simp
      omega
    · obtain rfl : i = 0 := by omega
      simp only [Cell.field, Operands.field]
      omega
    · obtain ⟨i, rfl⟩ := Nat.exists_eq_add_of_le' hi
      simp only [Cell.field, hc, Operands.field, hwidth]
      omega
  | lookup literals =>
    rw [hc] at hraw
    have hcases : c'.width = 2 ∨ c'.width = 4 := by rw [hwidth']; split <;> simp
    simp only [Operands.raws, List.mem_cons] at hraw
    rcases hraw with rfl | hraw
    · have hmem : (pc + 3, (le16 literals.length).toList) ∈ c.raws pc := by
        simp [Cell.raws, hc, Operands.raws, hwidth]
      refine ⟨pc + 3, hmem, fun j hj => ?_⟩
      have hsize := hbounds _ hmem
      simp only at hj hsize ⊢
      rw [show (le16 literals.length).toList.length = 2 from rfl] at hj hsize
      rw [hat 1 (pc + 3 + j) (by omega) (by omega) (by simp [hc, Operands.arms]) (fun i hi => ?_)
        fun i hi _ => ?_]
      · omega
      · obtain rfl : i = 0 := by omega
        simp only [Cell.field, Operands.field]
        omega
      · obtain ⟨i, rfl⟩ := Nat.exists_eq_add_of_le' hi
        simp only [Cell.field, hc, Operands.field, hwidth]
        omega
    · obtain ⟨⟨literal, q⟩, hq, rfl⟩ := List.mem_map.mp hraw
      have hlt := (List.mem_zipIdx' hq).1
      have hmem : (pc + 5 + 4 * q, (le16 literal).toList) ∈ c.raws pc := by
        simp only [Cell.raws, hc, Operands.raws, hwidth, List.mem_cons]
        exact .inr (List.mem_map.mpr ⟨(literal, q), hq, rfl⟩)
      refine ⟨pc + 5 + 4 * q, hmem, fun j hj => ?_⟩
      have hsize := hbounds _ hmem
      simp only at hj hsize ⊢
      rw [show (le16 literal).toList.length = 2 from rfl] at hj hsize
      rw [hat (q + 1) (pc + 5 + 4 * q + j) (by omega) (by omega) (by simp [hc, Operands.arms]; omega) (fun i hi => ?_)
        fun i hi hi' => ?_]
      · rcases hcases with h | h <;> rw [h] <;> omega
      · cases i with
        | zero =>
          simp only [Cell.field, Operands.field]
          omega
        | succ i =>
          simp only [Cell.field, hc, Operands.field, Operands.stride, hwidth]
          omega
      · obtain ⟨i, rfl⟩ : ∃ i', i = i' + 1 := ⟨i - 1, by omega⟩
        simp only [Cell.field, hc, Operands.field, Operands.stride, hwidth]
        omega

end Widening

theorem toByte_all : ∀ n : Fin Opcode.all.size, Opcode.all[n].toByte = UInt8.ofNat n := by decide

theorem toByte_of_ofByte? {byte : UInt8} {op : Opcode} (h : Opcode.ofByte? byte = some op) :
    byte = op.toByte := by
  obtain ⟨hlt, rfl⟩ := Array.getElem?_eq_some_iff.mp h
  have hbyte := toByte_all ⟨byte.toNat, hlt⟩
  simp only [Fin.getElem_fin, UInt8.ofNat_toNat] at hbyte
  exact hbyte.symm

namespace Emit

variable {g g' : Generator} {settled : Nat} {cells cells' : List (Cell Int)} {wides : Nat → Bool}
  {promoted : Instruction → Bool} {at' : Nat → Nat}

/-- What had been resolved before stays. -/
theorem stands_front (h : Codes g.main.code g.spans settled cells)
    (hkept : ∀ x < g.spans.todo, g'.main.code[x]? = g.main.code[x]?) {k : Nat} {c : Cell Int}
    (hk : cells[k]? = some c) (hlt : k < settled) :
    Stands g'.main.code g'.spans 0 (position cells k) c := by
  have hstands := h.stands k c hk
  have hend := position_add_size hk hlt
  have hpos := c.size_pos
  rw [h.todo] at hkept
  refine ⟨hstands.shaped, ?_, fun raw hraw => ?_, fun i z hz => ?_⟩
  · rw [hkept _ (by omega)]
    exact hstands.opcode
  · have hin := c.raw_bounds hraw
    exact (hstands.raws raw hraw).of_eq fun x hlo hhi => hkept x (by omega)
  · have hi : i < c.operands.arms := by
      rw [← hstands.shaped.count]
      exact lt_of_getElem? hz
    have hin := c.field_bounds (position cells k) hi
    have hoffset := hstands.offsets i z hz
    have hwidth := offsetWidth_pos c.wide
    rw [width] at hin
    rw [OffsetAt, h.todo, if_neg (by omega)] at hoffset
    rw [OffsetAt, if_neg (by omega)]
    refine ⟨hoffset.fits, hoffset.holds.of_eq fun x hlo hhi => hkept x ?_⟩
    rw [length_offsetBytes] at hhi
    omega

/-- An offset that is read stands in the code. -/
theorem direct_of_offsetIn? {code : Bytes} {c : Cell Int} (hshaped : c.Shaped) {i field : Nat}
    (hi : i < c.operands.arms) {z : Int} (h : offsetIn? code c.opcode field = some z) :
    Direct code c.wide field z := by
  rw [offsetIn?, hshaped.isWide (by omega)] at h
  cases hwide : c.wide with
  | false =>
    rw [hwide] at h
    obtain ⟨hfits, hholds⟩ := holds_of_i16? h
    exact ⟨hfits, hholds⟩
  | true =>
    rw [hwide] at h
    obtain ⟨hfits, hholds⟩ := holds_of_i32? h
    exact ⟨hfits, hholds⟩

/-- A cell has moved with the place where it starts. -/
theorem position_widened (h : Codes g.main.code g.spans settled cells)
    (hm : Moved g g' (views (position cells settled) (cells.drop settled)) promoted at')
    (hwidened : Widened wides settled cells cells')
    (hwides : ∀ (k : Nat) (c : Cell Int), cells[k]? = some c → settled ≤ k →
      wides k = promoted (c.view (position cells k))) {k : Nat} (hk : k ≤ cells.length) :
    position cells' k = at' (position cells k) := by
  refine hwidened.position_eq hm h.todo h.settled_le (fun c hc => ?_) h.narrow hwides hk
  obtain ⟨k, hk⟩ := List.mem_iff_getElem?.mp hc
  exact (h.stands k c hk).shaped

/-- Code that stands for cells has been relocated. The cells have the new widths, and the offset of
number `i` of the cell `k` leads to what was the place `landing k i`. -/
structure Resolved (g g' : Generator) (settled : Nat) (cells cells' : List (Cell Int))
    (wides : Nat → Bool) (promoted : Instruction → Bool) (at' : Nat → Nat)
    (landing : Nat → Nat → Nat) : Prop where
  before : Codes g.main.code g.spans settled cells
  moved : Moved g g' (views (position cells settled) (cells.drop settled)) promoted at'
  widened : Widened wides settled cells cells'
  wides : ∀ (k : Nat) (c : Cell Int), cells[k]? = some c → settled ≤ k →
    wides k = promoted (c.view (position cells k))
  aims : Aims settled cells cells' at' landing

namespace Resolved

variable {landing : Nat → Nat → Nat} {k i : Nat} {c c' : Cell Int}

section

variable (h : Resolved g g' settled cells cells' wides promoted at' landing)

include h

theorem position_eq (hk : k ≤ cells.length) : position cells' k = at' (position cells k) :=
  position_widened h.before h.moved h.widened h.wides hk

/-- A cell is there from before. -/
theorem exists_before (hk' : cells'[k]? = some c') : ∃ c, cells[k]? = some c :=
  ⟨_, List.getElem?_eq_getElem (h.widened.length ▸ (lt_of_getElem? hk'))⟩

variable (hback : settled ≤ k) (hk : cells[k]? = some c) (hk' : cells'[k]? = some c')

include hback hk hk'

/-- A recent cell is wide now if its instruction has been promoted. -/
theorem wide_eq : c'.wide = promoted (c.view (position cells k)) :=
  (h.widened.back k c c' hback hk hk').2.1.trans (h.wides k c hk hback)

theorem shaped : c'.Shaped := by
  have hshaped := (h.before.stands k c hk).shaped
  obtain ⟨hop, -, hoperands, hcount⟩ := h.widened.back k c c' hback hk hk'
  refine ⟨?_, ?_, fun hwide => ?_⟩
  · rw [hcount, hoperands]
    exact hshaped.count
  · rw [hoperands, hop]
    exact hshaped.fits
  · rw [h.wide_eq hback hk hk'] at hwide
    have hopcode : c.opcode = c.op := by rw [Cell.opcode, h.before.narrow k c hk hback]; rfl
    rw [hop, ← hopcode]
    exact h.moved.twin _ (view_mem h.before.settled_le hk hback) hwide

/-- The relocated instruction is the cell in its new place. -/
theorem relocate_view :
    (c.view (position cells k)).relocate at' (promoted (c.view (position cells k))) =
      c'.view (at' (position cells k)) := by
  have hnarrow := h.before.narrow k c hk hback
  have hopcode : c.opcode = c.op := by rw [Cell.opcode, hnarrow]; rfl
  have hwide := h.wide_eq hback hk hk'
  obtain ⟨hop, -, hoperands, -⟩ := h.widened.back k c c' hback hk hk'
  have hfields : (c.view (position cells k)).fields.length = c.operands.arms := by
    rw [(h.before.stands k c hk).shaped.view_fields]
    simp
  obtain ⟨b, hb⟩ : ∃ b, promoted (c.view (position cells k)) = b := ⟨_, rfl⟩
  rw [hb] at hwide ⊢
  rw [Instruction.relocate, hfields]
  show Instruction.mk (at' (position cells k))
    (if b then c.opcode.widened.getD c.opcode else c.opcode)
    (c.size + if b then 2 * c.operands.arms else 0) = ⟨at' (position cells k), c'.opcode, c'.size⟩
  rw [hopcode, Cell.opcode, hop, Cell.size, Cell.size, width, width, hwide, hoperands,
    hnarrow]
  cases b with
  | false => rfl
  | true =>
    show Instruction.mk _ _ _ = Instruction.mk _ _ (1 + c.operands.size 4)
    rw [Operands.size_four]
    simp [offsetWidth]
    omega

/-- The opcode of a recent cell. -/
theorem opcode : g'.main.code[at' (position cells k)]? = some c'.opcode.toByte := by
  have hmem : c'.view (at' (position cells k)) ∈ (views (position cells settled)
      (cells.drop settled)).map fun i => i.relocate at' (promoted i) :=
    List.mem_map.mpr ⟨_, view_mem h.before.settled_le hk hback, h.relocate_view hback hk hk'⟩
  obtain ⟨-, -, hat, -⟩ := h.moved.whole.bounds.2 _ hmem
  simp only [opcodeAt?, Option.bind_eq_bind, Option.bind_eq_some_iff] at hat
  obtain ⟨byte, hbyte, hof⟩ := hat
  rw [← show byte = c'.opcode.toByte from toByte_of_ofByte? hof]
  exact hbyte

/-- Operands besides the offsets have moved with the code. -/
theorem raws {raw : Nat × List UInt8} (hraw : raw ∈ c'.raws (at' (position cells k))) :
    Holds g'.main.code raw.1 raw.2 := by
  have hstands := h.before.stands k c hk
  have hnarrow := h.before.narrow k c hk hback
  have hmem := view_mem h.before.settled_le hk hback
  obtain ⟨p, hp, hmoved⟩ := raws_moved hstands.shaped hnarrow (h.wide_eq hback hk hk')
    (h.widened.back k c c' hback hk hk').2.2.1 (h.moved.inside _ hmem) hraw
  intro j hj
  have hbounds := c.operands.raw_bounds hp
  have hfree : ∀ field ∈ (c.view (position cells k)).fields, p + j < field ∨ field + 2 ≤ p + j := by
    intro field hfield
    rw [hstands.shaped.view_fields] at hfield
    obtain ⟨i, hi, rfl⟩ := List.mem_map.mp hfield
    have hwidth : c.width = 2 := by rw [width, hnarrow]; rfl
    have := hbounds.2.2 i (List.mem_range.mp hi)
    rw [hwidth] at this
    rw [Cell.field, hwidth]
    simp only at this hj
    omega
  rw [hmoved j hj, h.moved.operands _ hmem (p + j)
    (by show position cells k < _; simp only at hbounds; omega)
    (by show _ < position cells k + c.size; rw [Cell.size]; simp only at hbounds hj; omega) hfree]
  exact hstands.raws _ hp j hj

/-- What has become of an offset, and that of a wide cell. -/
theorem dest (hi : i < c.operands.arms) :
    c'.dests[i]? = some ((at' (landing k i) : Int) - position cells' k) ∧
      offsetAt (c.field (position cells k) i) g =
        .ok ((landing k i : Int) - position cells k) g ∧
      c.field (position cells k) i ∈ (c.view (position cells k)).fields := by
  have hshaped := (h.before.stands k c hk).shaped
  obtain ⟨z, hz⟩ : ∃ z, c.dests[i]? = some z :=
    ⟨_, List.getElem?_eq_getElem (by rwa [hshaped.count])⟩
  obtain ⟨rfl, hnew⟩ := h.aims k c c' hback hk hk' i z hz
  refine ⟨hnew, offsetAt_eq h.before hk hback hz, ?_⟩
  rw [hshaped.view_fields]
  exact List.mem_map_of_mem (List.mem_range.mpr hi)

end

theorem landing_eq (pc : Nat) (landing : Nat) :
    ((pc : Int) + ((landing : Int) - pc)).toNat = landing := by omega

variable (h : Resolved g g' settled cells cells' wides promoted at' landing)

include h

/-- A recent offset leads to the new place of its destination. -/
theorem offset (hback : settled ≤ k) (hk : cells[k]? = some c) (hk' : cells'[k]? = some c')
    {z : Int} (hz : c'.dests[i]? = some z) :
    Direct g'.main.code c'.wide (c'.field (at' (position cells k)) i) z := by
  have hshaped := (h.before.stands k c hk).shaped
  have hshaped' := h.shaped hback hk hk'
  have hoperands := (h.widened.back k c c' hback hk hk').2.2.1
  have hmem := view_mem h.before.settled_le hk hback
  have hrelocate := h.relocate_view hback hk hk'
  have hi : i < c.operands.arms := by
    rw [← hoperands, ← hshaped'.count]
    exact lt_of_getElem? hz
  obtain ⟨hnew, hread, hfield⟩ := h.dest hback hk hk' hi
  obtain rfl := Option.some.inj (hnew.symm.trans hz)
  obtain ⟨offset, hread', -, hmoved⟩ := h.moved.offsets _ hmem _ hfield
  cases hread.symm.trans hread'
  have hplace : at' (c.field (position cells k) i) = c'.field (at' (position cells k)) i := by
    have hfields := h.moved.fields _ hmem
    rw [hrelocate, hshaped'.view_fields, hshaped.view_fields, List.map_map, hoperands] at hfields
    have hget := congrArg (·[i]?) hfields
    simp only [List.getElem?_map, List.getElem?_range hi, Option.map_some,
      Option.some.injEq] at hget
    exact hget.symm
  rw [hrelocate, hplace, show (c.view (position cells k)).pc = position cells k from rfl,
    landing_eq] at hmoved
  rw [h.position_eq (Nat.le_of_lt (lt_of_getElem? hk))]
  exact direct_of_offsetIn? hshaped' (by rw [hoperands]; exact hi) hmoved

/-- The code stands for the same cells afterwards, with their offsets measured anew. -/
theorem codes (hspans : g'.spans = g.spans.reset g'.main.code.size) :
    Codes g'.main.code g'.spans cells.length cells' := by
  have hoff : g'.spans.active = false := by rw [hspans]; rfl
  have hlength := h.widened.length
  have hsize : g'.main.code.size = position cells' cells.length := by
    rw [h.moved.size, h.before.size, h.position_eq (Nat.le_refl _)]
  rw [Codes, hoff, if_neg (by simp)]
  refine ⟨Nat.le_of_eq hlength.symm, by rw [hsize, hlength], ?_, ?_, ?_, ?_, ?_⟩
  · rw [hspans]
    exact hsize
  · intro k c hk hle
    have := lt_of_getElem? hk
    omega
  · intro k c' hk'
    obtain ⟨c, hk⟩ := h.exists_before hk'
    rcases Nat.lt_or_ge k settled with hfront | hback
    · rw [h.widened.front k hfront, hk] at hk'
      cases hk'
      rw [h.widened.position_front h.before.settled_le (Nat.le_of_lt hfront)]
      exact stands_front h.before h.moved.settled hk hfront
    · rw [h.position_eq (Nat.le_of_lt (lt_of_getElem? hk))]
      refine ⟨h.shaped hback hk hk', h.opcode hback hk hk', fun raw hraw => h.raws hback hk hk' hraw,
        fun i z hz => ?_⟩
      rw [OffsetAt, if_neg (by omega)]
      exact h.offset hback hk hk' hz
  · rw [hspans]
    show [] = _
    refine (List.filter_eq_nil_iff.mpr fun p _ => ?_).symm
    simp
  · rw [hspans]
    exact h.before.sound.clear

/-- A cell that has become wide has an offset that does not fit a narrow field. -/
theorem tight (hback : settled ≤ k) (hk' : cells'[k]? = some c') (hwide : c'.wide) :
    ∃ z ∈ c'.dests, fits16 z = false := by
  obtain ⟨c, hk⟩ := h.exists_before hk'
  rw [h.wide_eq hback hk hk'] at hwide
  obtain ⟨field, hfield, offset, hread, hlarge⟩ :=
    h.moved.tight _ (view_mem h.before.settled_le hk hback) hwide
  rw [(h.before.stands k c hk).shaped.view_fields] at hfield
  obtain ⟨i, hi, rfl⟩ := List.mem_map.mp hfield
  obtain ⟨hnew, hread', -⟩ := h.dest hback hk hk' (List.mem_range.mp hi)
  cases hread'.symm.trans hread
  refine ⟨_, List.mem_of_getElem? hnew, ?_⟩
  rw [show (c.view (position cells k)).pc = position cells k from rfl, landing_eq] at hlarge
  rw [h.position_eq (Nat.le_of_lt (lt_of_getElem? hk))]
  exact hlarge

end Resolved

end Emit

end ScriptCompiler
