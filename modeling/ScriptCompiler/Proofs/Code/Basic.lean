import ScriptCompiler.Proofs.Cell
import ScriptCompiler.Proofs.SpanTable
import ScriptCompiler.Proofs.TargetIndex

/-!
# Code as cells with offsets

Main code and the table of spans together stand for a list of cells whose
destinations are relative offsets. An offset in front of a limit stands in the
table and its field holds the position of its span; all others stand in the
code. The limit is the end of the code while the table is on, the start while it
is off, and somewhere in between while the table is being built.
-/

namespace ScriptCompiler

open Bytes Cell

variable {k i pc top field : Nat} {t : SpanTable} {z : Int} {c : Cell Int} {literals : List Nat}
  {destination : Destination}

theorem offsetWidth_pos (wide : Bool) : 2 ≤ offsetWidth wide := by
  cases wide <;> decide

/-! ## Fields of cells -/

section Fields

variable {δ : Type}

/-- Opcode and field positions of all offsets of cells that stand from `pc` on. -/
def fieldsFrom (pc : Nat) : List (Cell δ) → List (Nat × Nat)
  | [] => []
  | c :: cells =>
    ((List.range c.operands.arms).map fun i => (pc, c.field pc i)) ++ fieldsFrom (pc + c.size) cells

theorem mem_fieldsFrom {cells : List (Cell δ)} {p : Nat × Nat} :
    p ∈ fieldsFrom pc cells ↔ ∃ k c i, cells[k]? = some c ∧ i < c.operands.arms ∧
      p = (pc + position cells k, c.field (pc + position cells k) i) := by
  induction cells generalizing pc with
  | nil => simp [fieldsFrom]
  | cons c cells ih =>
    have hshift : ∀ k, pc + c.size + position cells k = pc + position (c :: cells) (k + 1) := by
      intro k
      simp [position, Nat.add_assoc]
    rw [fieldsFrom, List.mem_append, ih]
    constructor
    · rintro (h | ⟨k, d, i, hd, hi, rfl⟩)
      · obtain ⟨i, hi, rfl⟩ := List.mem_map.mp h
        exact ⟨0, c, i, rfl, List.mem_range.mp hi, by simp⟩
      · exact ⟨k + 1, d, i, by simpa using hd, hi, by rw [hshift]⟩
    · rintro ⟨k, d, i, hd, hi, rfl⟩
      cases k with
      | zero =>
        obtain rfl : c = d := by simpa using hd
        exact .inl (List.mem_map.mpr ⟨i, List.mem_range.mpr hi, by simp⟩)
      | succ k => exact .inr ⟨k, d, i, by simpa using hd, hi, by rw [hshift]⟩

/-- Fields ascend. -/
theorem pairwise_fieldsFrom (pc : Nat) (cells : List (Cell δ)) :
    (fieldsFrom pc cells).Pairwise fun p q => p.2 < q.2 := by
  induction cells generalizing pc with
  | nil => exact .nil
  | cons c cells ih =>
    have hwidth : 0 < c.width := by
      rw [width]
      cases c.wide <;> decide
    refine List.pairwise_append.mpr ⟨?_, ih _, ?_⟩
    · refine List.pairwise_map.mpr (List.pairwise_lt_range.imp fun {i j} hij => ?_)
      have hlt : c.field pc i + c.width ≤ c.field pc j := c.operands.field_lt hij
      omega
    · intro p hp q hq
      obtain ⟨i, hi, rfl⟩ := List.mem_map.mp hp
      obtain ⟨k, d, j, -, hj, rfl⟩ := mem_fieldsFrom.mp hq
      have hin := c.field_bounds pc (List.mem_range.mp hi)
      have hout := d.field_bounds (pc + c.size + position cells k) hj
      simp only
      omega

/-- Fields depend on the forms alone. -/
theorem fieldsFrom_congr {ε : Type} {cells : List (Cell δ)} {cells' : List (Cell ε)}
    (h : cells.map form = cells'.map form) (pc : Nat) :
    fieldsFrom pc cells = fieldsFrom pc cells' := by
  induction cells generalizing pc cells' with
  | nil =>
    cases cells' with
    | nil => rfl
    | cons c cells' => cases h
  | cons c cells ih =>
    cases cells' with
    | nil => cases h
    | cons c' cells' =>
      simp only [List.map_cons, List.cons.injEq] at h
      obtain ⟨hform, hrest⟩ := h
      have hfield : c.field pc = c'.field pc := funext (field_congr hform pc)
      rw [fieldsFrom, fieldsFrom, ih hrest, arms_congr hform, size_congr hform, hfield]

theorem fieldsFrom_append (pc : Nat) (cells more : List (Cell δ)) :
    fieldsFrom pc (cells ++ more) =
      fieldsFrom pc cells ++ fieldsFrom (pc + position cells cells.length) more := by
  induction cells generalizing pc with
  | nil => simp [fieldsFrom]
  | cons c cells ih =>
    have hshift : pc + c.size + position cells cells.length =
        pc + position (c :: cells) (cells.length + 1) := by
      simp [position, Nat.add_assoc]
    rw [List.cons_append, fieldsFrom, fieldsFrom, ih, List.append_assoc, hshift]
    rfl

/-- The fields in front of `limit` are those in front of offset `i` of cell `k`. -/
def Frontier (cells : List (Cell δ)) (limit k i : Nat) : Prop :=
  ∀ j d i', cells[j]? = some d → i' < d.operands.arms →
    (d.field (position cells j) i' < limit ↔ j < k ∨ j = k ∧ i' < i)

theorem frontier_position (cells : List (Cell δ)) (k : Nat) :
    Frontier cells (position cells k) k 0 := by
  intro j d i' hj hi'
  have hin := d.field_bounds (position cells j) hi'
  rcases Nat.lt_or_ge j k with hlt | hge
  · have := position_add_size hj hlt
    have := offsetWidth_pos d.wide
    rw [width] at hin
    omega
  · have := position_le hge (Nat.le_of_lt (lt_of_getElem? hj))
    omega

theorem frontier_field {cells : List (Cell δ)} {c : Cell δ} (hk : cells[k]? = some c)
    (hi : i < c.operands.arms) : Frontier cells (c.field (position cells k) i + 1) k (i + 1) := by
  intro j d i' hj hi'
  have hin := d.field_bounds (position cells j) hi'
  have hin' := c.field_bounds (position cells k) hi
  have hwidth := offsetWidth_pos d.wide
  have hwidth' := offsetWidth_pos c.wide
  rw [width] at hin hin'
  rcases Nat.lt_trichotomy j k with hlt | rfl | hlt
  · have := position_add_size hj hlt
    omega
  · obtain rfl : d = c := by simpa [hk] using hj.symm
    rcases Nat.lt_trichotomy i' i with hlt | rfl | hlt
    · have : d.field (position cells j) i' + d.width ≤ d.field (position cells j) i :=
        d.operands.field_lt hlt
      omega
    · omega
    · have : d.field (position cells j) i + d.width ≤ d.field (position cells j) i' :=
        d.operands.field_lt hlt
      rw [width] at this
      omega
  · have := position_add_size hk hlt
    omega

/-- Behind the last offset of a cell comes the next cell. -/
theorem Frontier.next {cells : List (Cell δ)} {limit : Nat} {c : Cell δ}
    (h : Frontier cells limit k i) (hk : cells[k]? = some c) (hi : c.operands.arms ≤ i) :
    Frontier cells limit (k + 1) 0 := by
  intro j d i' hj hi'
  rw [h j d i' hj hi']
  rcases Nat.lt_trichotomy j k with hlt | rfl | hlt
  · omega
  · obtain rfl : d = c := by simpa [hk] using hj.symm
    omega
  · omega

end Fields

/-! ## What an offset stands for -/

namespace SpanTable

/-- A destination that is not an entry given up. -/
def Known (t : SpanTable) : Destination → Prop
  | .target entry => entry ∈ t.targets.live
  | _ => True

/-- The destinations of one table mean the same in another. -/
structure Grows (t t' : SpanTable) : Prop where
  active : t'.active = t.active
  todo : t'.todo = t.todo
  sound : t'.targets.Sound
  kept : ∀ span : Span, t.Known span.destination →
    t'.Known span.destination ∧ t'.offsetOf span = t.offsetOf span

theorem Grows.refl (h : t.targets.Sound) : t.Grows t :=
  ⟨rfl, rfl, h, fun _ hk => ⟨hk, rfl⟩⟩

theorem Grows.trans {t' t'' : SpanTable} (h : t.Grows t') (h' : t'.Grows t'') : t.Grows t'' := by
  refine ⟨h'.active.trans h.active, h'.todo.trans h.todo, h'.sound, fun span hk => ?_⟩
  obtain ⟨hknown, hoffset⟩ := h.kept span hk
  obtain ⟨hknown', hoffset'⟩ := h'.kept span hknown
  exact ⟨hknown', hoffset'.trans hoffset⟩

/-- Spans come and go; destinations stay. -/
theorem grows_spans (h : t.targets.Sound) (spans : Array Span) : t.Grows { t with spans } := by
  refine ⟨rfl, rfl, h, fun span hk => ⟨?_, ?_⟩⟩
  · cases hd : span.destination with
    | target entry => simpa [Known, hd] using hk
    | _ => trivial
  · cases hd : span.destination <;> simp [offsetOf, hd]

/-- A new target leaves the others alone. -/
theorem grows_setTarget (h : t.targets.Sound) (index offset : Nat) :
    t.Grows (t.setTarget index offset) := by
  have hentered := TargetIndex.insert_entered h offset
  refine ⟨rfl, rfl, hentered.sound, fun span hk => ?_⟩
  cases hd : span.destination with
  | target entry =>
    rw [hd] at hk
    obtain ⟨hlive, hoffset⟩ := hentered.kept entry hk
    refine ⟨hlive, ?_⟩
    simp [offsetOf, hd, setTarget, hoffset]
  | unset => exact ⟨trivial, by simp [offsetOf, hd]⟩
  | link delta => exact ⟨trivial, by simp [offsetOf, hd]⟩

/-- A span that is given a target leads there. -/
theorem setTarget_entry (h : t.targets.Sound) (index offset : Nat) :
    ∃ entry, (t.setTarget index offset).spans = (t.spans.modify index fun span =>
        { span with destination := .target entry }) ∧
      (t.setTarget index offset).Known (.target entry) ∧
      ∀ top field, (t.setTarget index offset).offsetOf ⟨top, field, .target entry⟩ =
        (offset : Int) - top := by
  have hentered := TargetIndex.insert_entered h offset
  refine ⟨(t.targets.insert offset).2, rfl, hentered.mem, fun top field => ?_⟩
  have hoffset : (t.setTarget index offset).targets.offset (t.targets.insert offset).2 = offset :=
    hentered.offset_eq
  simp only [offsetOf, hoffset]

end SpanTable

/-- An offset that stands in the code. -/
structure Direct (code : Bytes) (wide : Bool) (field : Nat) (z : Int) : Prop where
  fits : offsetFits wide z = true
  holds : Holds code field (offsetBytes wide z)

/-- An offset that stands in the table of spans. -/
def Indirect (code : Bytes) (spans : SpanTable) (top field : Nat) (z : Int) : Prop :=
  ∃ index destination, spans.spans[index]? = some ⟨top, field, destination⟩ ∧
    Holds code field (le16 (SpanTable.mark index)).toList ∧ spans.Known destination ∧
    spans.offsetOf ⟨top, field, destination⟩ = z

/-- An offset, in the table if it is recent and in front of the limit. -/
def OffsetAt (code : Bytes) (spans : SpanTable) (limit : Nat) (wide : Bool) (top field : Nat)
    (z : Int) : Prop :=
  if spans.todo ≤ field ∧ field < limit then Indirect code spans top field z
  else Direct code wide field z

/-- A cell stands at `pc`. -/
structure Stands (code : Bytes) (spans : SpanTable) (limit pc : Nat) (c : Cell Int) : Prop where
  shaped : c.Shaped
  opcode : code[pc]? = some c.opcode.toByte
  raws : ∀ raw ∈ c.raws pc, Holds code raw.1 raw.2
  offsets : ∀ i z, c.dests[i]? = some z → OffsetAt code spans limit c.wide pc (c.field pc i) z

/-- Code and spans stand for cells, the first `settled` of which have been resolved, with the
fields up to `limit` in the table. -/
structure Layered (code : Bytes) (spans : SpanTable) (limit settled : Nat)
    (cells : List (Cell Int)) : Prop where
  settled_le : settled ≤ cells.length
  size : code.size = position cells cells.length
  todo : spans.todo = position cells settled
  narrow : ∀ k c, cells[k]? = some c → settled ≤ k → c.wide = false
  stands : ∀ k c, cells[k]? = some c → Stands code spans limit (position cells k) c
  listed : spans.spans.toList.map (fun span => (span.top, span.field)) =
    (fieldsFrom 0 cells).filter fun p => spans.todo ≤ p.2 && p.2 < limit
  sound : spans.targets.Sound

/-- Code and spans stand for cells, the first `settled` of which have been resolved. -/
def Codes (code : Bytes) (spans : SpanTable) (settled : Nat) (cells : List (Cell Int)) : Prop :=
  Layered code spans (if spans.active then code.size else 0) settled cells

/-! ## Changes -/

/-- An offset stays where its bytes and its span stay. -/
theorem OffsetAt.frame {code code' : Bytes} {spans spans' : SpanTable} {limit limit' : Nat}
    {wide : Bool} (h : OffsetAt code spans limit wide top field z)
    (hcode : ∀ x, field ≤ x → x < field + offsetWidth wide → code'[x]? = code[x]?)
    (hgrows : spans.Grows spans') (hlimit : spans.todo ≤ field → (field < limit ↔ field < limit'))
    (hspan : ∀ (index : Nat) (span : Span), spans.spans[index]? = some span → span.top = top →
      span.field = field → spans'.spans[index]? = some span) :
    OffsetAt code' spans' limit' wide top field z := by
  have hwidth := offsetWidth_pos wide
  unfold OffsetAt at h ⊢
  rw [hgrows.todo]
  by_cases hin : spans.todo ≤ field ∧ field < limit
  · rw [if_pos hin] at h
    rw [if_pos ⟨hin.1, (hlimit hin.1).mp hin.2⟩]
    obtain ⟨index, destination, hget, hholds, hknown, hoffset⟩ := h
    obtain ⟨hknown', hoffset'⟩ := hgrows.kept ⟨top, field, destination⟩ hknown
    refine ⟨index, destination, hspan index _ hget rfl rfl, ?_, hknown', hoffset'.trans hoffset⟩
    refine hholds.of_eq fun x hlo hhi => hcode x hlo ?_
    simp [le16] at hhi
    omega
  · rw [if_neg hin] at h
    rw [if_neg fun hin' => hin ⟨hin'.1, (hlimit hin'.1).mpr hin'.2⟩]
    refine ⟨h.fits, h.holds.of_eq fun x hlo hhi => hcode x hlo ?_⟩
    simpa using hhi

/-- A cell stays where its bytes and its spans stay. -/
theorem Stands.frame {code code' : Bytes} {spans spans' : SpanTable} {limit limit' : Nat}
    (h : Stands code spans limit pc c)
    (hcode : ∀ x, pc ≤ x → x < pc + c.size → code'[x]? = code[x]?) (hgrows : spans.Grows spans')
    (hlimit : ∀ i < c.operands.arms, spans.todo ≤ c.field pc i →
      (c.field pc i < limit ↔ c.field pc i < limit'))
    (hspan : ∀ (index : Nat) (span : Span), spans.spans[index]? = some span → span.top = pc →
      spans'.spans[index]? = some span) : Stands code' spans' limit' pc c := by
  have hpos := c.size_pos
  refine ⟨h.shaped, ?_, ?_, ?_⟩
  · rw [hcode pc (by omega) (by omega)]
    exact h.opcode
  · intro raw hraw
    have hin := c.raw_bounds hraw
    exact (h.raws raw hraw).of_eq fun x hlo hhi => hcode x (by omega) (by omega)
  · intro i z hz
    have hi : i < c.operands.arms := by
      rw [← h.shaped.count]
      exact lt_of_getElem? hz
    have hin := c.field_bounds pc hi
    refine OffsetAt.frame (h.offsets i z hz) (fun x hlo hhi => hcode x (by omega) ?_) hgrows
      (hlimit i hi) fun index span hget htop _ => hspan index span hget htop
    rw [width] at hin
    omega

/-- Replace one destination of a cell. -/
def Cell.setDest {δ : Type} (c : Cell δ) (i : Nat) (z : δ) : Cell δ :=
  { c with dests := c.dests.set i z }

/-- A cell of which one offset changes. -/
theorem Stands.setDest {code code' : Bytes} {spans spans' : SpanTable} {limit limit' : Nat}
    (h : Stands code spans limit pc c)
    (hcode : ∀ x, x < c.field pc i ∨ c.field pc i + c.width ≤ x → code'[x]? = code[x]?)
    (hi : i < c.operands.arms) (hgrows : spans.Grows spans')
    (hlimit : ∀ j < c.operands.arms, j ≠ i → (c.field pc j < limit ↔ c.field pc j < limit'))
    (hspan : ∀ (index : Nat) (span : Span), spans.spans[index]? = some span → span.field ≠ c.field pc i →
      spans'.spans[index]? = some span)
    (hnew : OffsetAt code' spans' limit' c.wide pc (c.field pc i) z) :
    Stands code' spans' limit' pc (c.setDest i z) := by
  have hfield := c.field_bounds pc hi
  have hlen : i < c.dests.length := by rwa [h.shaped.count]
  refine ⟨⟨?_, h.shaped.fits, h.shaped.twin⟩, ?_, ?_, ?_⟩
  · simpa [Cell.setDest] using h.shaped.count
  · rw [hcode pc (by omega)]
    exact h.opcode
  · intro raw hraw
    have hin : pc + 1 ≤ raw.1 ∧ raw.1 + raw.2.length ≤ pc + 1 + c.operands.size c.width ∧
        ∀ j < c.operands.arms, raw.1 + raw.2.length ≤ c.operands.field c.width pc j ∨
          c.operands.field c.width pc j + c.width ≤ raw.1 := c.operands.raw_bounds hraw
    have hfree := hin.2.2 i hi
    refine (h.raws raw hraw).of_eq fun x hlo hhi => hcode x ?_
    rw [Cell.field]
    omega
  · intro j w hw
    rw [Cell.setDest, List.getElem?_set] at hw
    split at hw
    · rename_i hij
      subst hij
      cases hw
      exact hnew
    · rename_i hij
      have hj : j < c.operands.arms := by
        rw [← h.shaped.count]
        exact lt_of_getElem? hw
      have hapart : c.field pc j + c.width ≤ c.field pc i ∨
          c.field pc i + c.width ≤ c.field pc j := c.operands.field_apart (Ne.symm hij)
      have hwidth := offsetWidth_pos c.wide
      rw [width] at hapart hcode
      have hold : OffsetAt code' spans' limit' c.wide pc (c.field pc j) w :=
        OffsetAt.frame (h.offsets j w hw) (fun x hlo hhi => hcode x (by omega)) hgrows
          (fun _ => hlimit j hj (by omega)) fun index span hget _ hf => hspan index span hget (by omega)
      exact hold

theorem Cell.form_setLiteral (hc : c.operands = .lookup literals) (i literal : Nat) :
    ({ c with operands := .lookup (literals.set i literal) } : Cell Int).form = c.form := by
  simp only [form, hc, Operands.form]
  congr 2
  apply List.ext_getElem
  · simp
  · intro j hj hj'
    rw [List.getElem_map, List.getElem_map]

namespace Layered

variable {code code' : Bytes} {spans spans' : SpanTable} {limit limit' settled : Nat}
  {cells : List (Cell Int)}

/-- One cell changes and keeps its form. -/
theorem set (h : Layered code spans limit settled cells) {c' : Cell Int} (hk : cells[k]? = some c)
    (hform : c'.form = c.form) (hsize : code'.size = code.size)
    (hcode : ∀ x, x < position cells k ∨ position cells k + c.size ≤ x → code'[x]? = code[x]?)
    (hgrows : spans.Grows spans')
    (hlimit : ∀ j d, cells[j]? = some d → j ≠ k → ∀ i < d.operands.arms,
      d.field (position cells j) i < limit ↔ d.field (position cells j) i < limit')
    (hspan : ∀ (index : Nat) (span : Span), spans.spans[index]? = some span → span.top ≠ position cells k →
      spans'.spans[index]? = some span)
    (hlisted : spans'.spans.toList.map (fun span => (span.top, span.field)) =
      (fieldsFrom 0 cells).filter fun p => spans.todo ≤ p.2 && p.2 < limit')
    (hstands : Stands code' spans' limit' (position cells k) c') :
    Layered code' spans' limit' settled (cells.set k c') := by
  have hforms := map_form_set hk hform
  have hposition : ∀ j, position (cells.set k c') j = position cells j := position_congr hforms
  have hkl := lt_of_getElem? hk
  refine ⟨?_, ?_, ?_, ?_, ?_, ?_, hgrows.sound⟩
  · rw [List.length_set]
    exact h.settled_le
  · rw [hsize, List.length_set, hposition]
    exact h.size
  · rw [hgrows.todo, hposition]
    exact h.todo
  · intro j d hj hle
    rw [List.getElem?_set] at hj
    split at hj
    · rename_i hkj
      subst hkj
      cases hj
      rw [(Prod.mk.inj hform).2]
      exact h.narrow k c hk hle
    · exact h.narrow j d hj hle
  · intro j d hj
    rw [hposition]
    rw [List.getElem?_set] at hj
    split at hj
    · rename_i hkj
      subst hkj
      cases hj
      exact hstands
    · rename_i hkj
      have hjl := lt_of_getElem? hj
      have hapart := position_apart hk hj
      refine (h.stands j d hj).frame (fun x hlo hhi => hcode x (by omega)) hgrows
        (fun i hi _ => hlimit j d hj (Ne.symm hkj) i hi) fun index span hget htop => hspan index span hget ?_
      rw [htop]
      intro heq
      exact hkj (position_inj (by omega) (by omega) heq.symm)
  · rw [hlisted, fieldsFrom_congr hforms, hgrows.todo]

/-- The spans of a table are in order. -/
theorem ascending (h : Layered code spans limit settled cells) : spans.Ascending := by
  have hpair := (pairwise_fieldsFrom 0 cells).filter fun p => spans.todo ≤ p.2 && p.2 < limit
  rw [← h.listed, List.pairwise_map] at hpair
  exact hpair

/-- The fields of a cell are among all fields. -/
theorem field_mem (hk : cells[k]? = some c) (hi : i < c.operands.arms) :
    (position cells k, c.field (position cells k) i) ∈ fieldsFrom 0 cells :=
  mem_fieldsFrom.mpr ⟨k, c, i, hk, hi, by simp⟩

section

variable (h : Layered code spans limit settled cells)

include h

/-- Recent cells have their fields behind the resolved code. -/
theorem todo_le (hk : cells[k]? = some c) (hs : settled ≤ k) (hi : i < c.operands.arms) :
    spans.todo ≤ c.field (position cells k) i := by
  have hkl := lt_of_getElem? hk
  have hle := position_le hs (Nat.le_of_lt hkl)
  have hin := c.field_bounds (position cells k) hi
  rw [h.todo]
  omega

/-- The limit may move as long as it passes no recent field. -/
theorem raise (hnone : ∀ p ∈ fieldsFrom 0 cells, spans.todo ≤ p.2 → (p.2 < limit ↔ p.2 < limit')) :
    Layered code spans limit' settled cells := by
  refine ⟨h.settled_le, h.size, h.todo, h.narrow, ?_, ?_, h.sound⟩
  · intro k c hk
    refine (h.stands k c hk).frame (fun x _ _ => rfl) (SpanTable.Grows.refl h.sound) ?_
      fun index span hget _ => hget
    intro i hi
    exact hnone _ (field_mem hk hi)
  · rw [h.listed]
    refine List.filter_congr fun p hp => ?_
    have := hnone p hp
    rw [Bool.eq_iff_iff]
    simp only [Bool.and_eq_true, decide_eq_true_eq]
    omega

/-- Limits with the same frontier do not differ. -/
theorem raise_frontier (hfrontier : Frontier cells limit k i)
    (hfrontier' : Frontier cells limit' k i) : Layered code spans limit' settled cells := by
  refine h.raise fun p hp _ => ?_
  obtain ⟨j, d, i', hj, hi', rfl⟩ := mem_fieldsFrom.mp hp
  rw [Nat.zero_add, hfrontier j d i' hj hi', hfrontier' j d i' hj hi']

/-- Whether the table is on does not matter for what stands in it. -/
theorem withActive (active : Bool) : Layered code { spans with active } limit settled cells :=
  ⟨h.settled_le, h.size, h.todo, h.narrow,
    fun k c hk => ⟨(h.stands k c hk).shaped, (h.stands k c hk).opcode, (h.stands k c hk).raws,
      (h.stands k c hk).offsets⟩, h.listed, h.sound⟩

/-- A cell is added behind the others, with its offsets in the code. -/
theorem append (hlimit : limit ≤ code.size) (hshaped : c.Shaped) (hwide : c.wide = false)
    (hsize : code'.size = code.size + c.size) (hcode : ∀ x < code.size, code'[x]? = code[x]?)
    (hop : code'[code.size]? = some c.op.toByte)
    (hraws : ∀ raw ∈ c.raws code.size, Holds code' raw.1 raw.2)
    (hoffsets : ∀ i z, c.dests[i]? = some z → Direct code' false (c.field code.size i) z) :
    Layered code' spans limit settled (cells ++ [c]) := by
  have hnew : ∀ i < c.operands.arms, limit < c.field code.size i := by
    intro i hi
    have := c.field_bounds code.size hi
    omega
  have hlast : position (cells ++ [c]) (cells.length + 1) = code.size + c.size := by
    rw [position_append_length, ← h.size]
    simp [position]
  refine ⟨?_, ?_, ?_, ?_, ?_, ?_, h.sound⟩
  · have := h.settled_le
    simp only [List.length_append]
    omega
  · rw [hsize, List.length_append]
    exact hlast.symm
  · rw [h.todo, position_append h.settled_le]
  · intro k d hk hs
    rcases Nat.lt_or_ge k cells.length with hlt | hge
    · rw [List.getElem?_append_left hlt] at hk
      exact h.narrow k d hk hs
    · obtain ⟨-, rfl⟩ : k - cells.length = 0 ∧ c = d := by
        simpa [List.getElem?_append_right hge, List.getElem?_singleton] using hk
      exact hwide
  · intro k d hk
    rcases Nat.lt_or_ge k cells.length with hlt | hge
    · rw [List.getElem?_append_left hlt] at hk
      have hin := position_add_size hk hlt
      rw [position_append (Nat.le_of_lt hlt)]
      rw [← h.size] at hin
      exact (h.stands k d hk).frame (fun x _ hhi => hcode x (by omega))
        (SpanTable.Grows.refl h.sound) (fun _ _ _ => Iff.rfl) fun index span hget _ => hget
    · obtain ⟨hzero, rfl⟩ : k - cells.length = 0 ∧ c = d := by
        simpa [List.getElem?_append_right hge, List.getElem?_singleton] using hk
      obtain rfl : k = cells.length := by omega
      rw [position_append (Nat.le_refl _), ← h.size]
      refine ⟨hshaped, ?_, hraws, ?_⟩
      · rw [hop, Cell.opcode, hwide]
        rfl
      · intro i z hz
        have hi : i < c.operands.arms := by
          rw [← hshaped.count]
          exact lt_of_getElem? hz
        have := hnew i hi
        rw [OffsetAt, if_neg (by omega), hwide]
        exact hoffsets i z hz
  · rw [h.listed, fieldsFrom_append, List.filter_append, Nat.zero_add, ← h.size]
    have hnone : (fieldsFrom code.size [c]).filter
        (fun p => spans.todo ≤ p.2 && p.2 < limit) = [] := by
      refine List.filter_eq_nil_iff.mpr fun p hp => ?_
      simp only [fieldsFrom, List.append_nil, List.mem_map, List.mem_range] at hp
      obtain ⟨i, hi, rfl⟩ := hp
      have := hnew i hi
      simp only [Bool.and_eq_true, decide_eq_true_eq, not_and]
      omega
    rw [hnone, List.append_nil]

end

/-- Past the next field, a limit has the same of the other fields before it. -/
theorem lt_limit_iff (hk : cells[k]? = some c) (hi : i < c.operands.arms)
    (hfrontier : Frontier cells limit k i) {p : Nat × Nat} (hp : p ∈ fieldsFrom 0 cells)
    (hne : p.2 ≠ c.field (position cells k) i) :
    p.2 < limit ↔ p.2 < c.field (position cells k) i + 1 := by
  obtain ⟨j, d, i', hj, hi', rfl⟩ := mem_fieldsFrom.mp hp
  rw [Nat.zero_add] at hne ⊢
  rw [hfrontier j d i' hj hi', frontier_field hk hi j d i' hj hi']
  have : ¬(j = k ∧ i' = i) := by
    rintro ⟨rfl, rfl⟩
    obtain rfl : d = c := by simpa [hk] using hj.symm
    exact hne rfl
  omega

/-- A limit that goes past one field more lists that field behind the others. -/
theorem filter_fieldsFrom_next {todo : Nat} (hmem : (top, field) ∈ fieldsFrom 0 cells)
    (htodo : todo ≤ field) (hlimit : limit ≤ field)
    (hothers : ∀ p ∈ fieldsFrom 0 cells, p.2 ≠ field → (p.2 < limit ↔ p.2 < field + 1)) :
    (fieldsFrom 0 cells).filter (fun p => todo ≤ p.2 && p.2 < limit) ++ [(top, field)] =
      (fieldsFrom 0 cells).filter fun p => todo ≤ p.2 && p.2 < field + 1 := by
  obtain ⟨left, right, hsplit⟩ := List.append_of_mem hmem
  have hpair := pairwise_fieldsFrom 0 cells
  rw [hsplit] at hpair hothers ⊢
  obtain ⟨-, hright, hleft⟩ := List.pairwise_append.mp hpair
  have hleft : ∀ p ∈ left, p.2 < field := fun p hp => hleft p hp (top, field) (by simp)
  have hright : ∀ p ∈ right, field < p.2 := (List.pairwise_cons.mp hright).1
  have hnone : ∀ bound ≤ field + 1,
      right.filter (fun p => todo ≤ p.2 && p.2 < bound) = [] := by
    intro bound hbound
    refine List.filter_eq_nil_iff.mpr fun p hp => ?_
    have := hright p hp
    simp only [Bool.and_eq_true, decide_eq_true_eq, not_and]
    omega
  have hsame : left.filter (fun p => todo ≤ p.2 && p.2 < limit) =
      left.filter fun p => todo ≤ p.2 && p.2 < field + 1 :=
    List.filter_congr fun p hp => by
      have hlt := hleft p hp
      rw [decide_eq_decide.mpr (hothers p (List.mem_append_left _ hp) (by omega))]
  rw [List.filter_append, List.filter_append, List.filter_cons_of_neg (by simp; omega),
    List.filter_cons_of_pos (by simp [htodo]), hnone _ (by omega), hnone _ (by omega), hsame,
    List.append_nil]

variable (h : Layered code spans limit settled cells) (hk : cells[k]? = some c) (hs : settled ≤ k)

include h hk hs

/-- The next field behind the limit goes into the table. -/
theorem record (hi : i < c.operands.arms) (hfrontier : Frontier cells limit k i)
    (hgrows : spans.Grows spans') (hpush : spans'.spans = spans.spans.push
      ⟨position cells k, c.field (position cells k) i, destination⟩)
    (hknown : spans'.Known destination)
    (hoffset : spans'.offsetOf ⟨position cells k, c.field (position cells k) i, destination⟩ = z) :
    Layered (setU16 code (c.field (position cells k) i) (SpanTable.mark spans.spans.size)) spans'
      (c.field (position cells k) i + 1) settled (cells.set k (c.setDest i z)) := by
  obtain ⟨field, hfield⟩ : ∃ field, field = c.field (position cells k) i := ⟨_, rfl⟩
  have hin := c.field_bounds (position cells k) hi
  have htodo := h.todo_le hk hs hi
  have hkl := lt_of_getElem? hk
  have hend := position_add_size hk hkl
  have hwide : c.wide = false := h.narrow k c hk hs
  have hwidth : c.width = 2 := by rw [width, hwide]; rfl
  have hfrontier' := frontier_field hk hi
  have hlimit := hfrontier k c i hk hi
  rw [← h.size] at hend
  rw [← hfield] at hin hlimit hfrontier' hpush hoffset htodo ⊢
  have hothers : ∀ p ∈ fieldsFrom 0 cells, p.2 ≠ field → (p.2 < limit ↔ p.2 < field + 1) :=
    fun p hp hne => hfield ▸ lt_limit_iff hk hi hfrontier hp (hfield ▸ hne)
  have hnext : limit ≤ field := by omega
  have hkept : ∀ (index : Nat) (span : Span), spans.spans[index]? = some span →
      spans'.spans[index]? = some span := by
    intro index span hget
    have hlt := (Array.getElem?_eq_some_iff.mp hget).1
    rw [hpush, Array.getElem?_push, if_neg (by omega)]
    exact hget
  refine h.set hk rfl (by simp) (fun x hx => getElem?_setU16_of_ne _ (by omega)) hgrows ?_
    (fun index span hget _ => hkept index span hget) ?_ ?_
  · intro j d hj hjk i' hi'
    refine hothers _ (field_mem hj hi') ?_
    have hapart := position_apart hj hk
    have hin' := d.field_bounds (position cells j) hi'
    simp only
    omega
  · rw [hpush, Array.toList_push, List.map_append, h.listed]
    exact filter_fieldsFrom_next (hfield ▸ field_mem hk hi) htodo hnext hothers
  · have hindirect : Indirect (setU16 code field (SpanTable.mark spans.spans.size)) spans'
        (position cells k) field z := by
      refine ⟨spans.spans.size, destination, ?_, holds_setU16 _ (by omega), hknown, hoffset⟩
      rw [hpush, Array.getElem?_push_size]
    refine (h.stands k c hk).setDest (fun x hx => getElem?_setU16_of_ne _ ?_) hi hgrows ?_
      (fun index span hget _ => hkept index span hget) ?_
    · rw [← hfield, hwidth] at hx
      exact hx
    · intro j hj hji
      refine hothers _ (field_mem hk hj) ?_
      have hapart : c.field (position cells k) j + c.width ≤ c.field (position cells k) i ∨
          c.field (position cells k) i + c.width ≤ c.field (position cells k) j :=
        c.operands.field_apart hji
      simp only
      omega
    · rw [← hfield, OffsetAt, if_pos (by rw [hgrows.todo]; omega)]
      exact hindirect

/-- An offset in the code is overwritten. -/
theorem write (hi : i < c.operands.arms) (hout : limit ≤ c.field (position cells k) i)
    (hfits : fits16 z) :
    Layered (setU16 code (c.field (position cells k) i) (image16 z)) spans limit settled
      (cells.set k (c.setDest i z)) := by
  have hin := c.field_bounds (position cells k) hi
  have hkl := lt_of_getElem? hk
  have hend := position_add_size hk hkl
  have hwide : c.wide = false := h.narrow k c hk hs
  have hwidth : c.width = 2 := by rw [width, hwide]; rfl
  have hgrows := SpanTable.Grows.refl h.sound
  rw [← h.size] at hend
  refine h.set hk rfl (by simp) (fun x hx => getElem?_setU16_of_ne _ (by omega)) hgrows
    (fun _ _ _ _ _ _ => Iff.rfl) (fun index span hget _ => hget) h.listed ?_
  refine (h.stands k c hk).setDest (fun x hx => getElem?_setU16_of_ne _ (by omega)) hi hgrows
    (fun _ _ _ => Iff.rfl) (fun index span hget _ => hget) ?_
  rw [OffsetAt, if_neg (by omega), hwide]
  exact ⟨hfits, holds_setU16 _ (by omega)⟩

/-- A span in the table gets another destination. -/
theorem retarget (hi : i < c.operands.arms) (hin : c.field (position cells k) i < limit)
    {index : Nat} {destination' : Destination} (hget : spans.spans[index]? =
      some ⟨position cells k, c.field (position cells k) i, destination⟩)
    (hgrows : spans.Grows spans') (hmodify : spans'.spans = spans.spans.modify index fun span =>
      { span with destination := destination' }) (hknown : spans'.Known destination')
    (hoffset : spans'.offsetOf ⟨position cells k, c.field (position cells k) i, destination'⟩ = z) :
    Layered code spans' limit settled (cells.set k (c.setDest i z)) := by
  have hothers : ∀ (j : Nat) (span : Span), spans.spans[j]? = some span →
      span.field ≠ c.field (position cells k) i → spans'.spans[j]? = some span := by
    intro j span hj hne
    have hji : index ≠ j := by
      rintro rfl
      rw [hget] at hj
      cases hj
      exact hne rfl
    rw [hmodify, Array.getElem?_modify, if_neg hji]
    exact hj
  have htops : ∀ (j : Nat) (span : Span), spans.spans[j]? = some span →
      span.top ≠ position cells k → spans'.spans[j]? = some span := by
    intro j span hj hne
    refine hothers j span hj fun hfield => hne ?_
    rw [(h.ascending.eq_of_field_eq hj hget hfield).2]
  refine h.set hk rfl rfl (fun _ _ => rfl) hgrows (fun _ _ _ _ _ _ => Iff.rfl) htops ?_ ?_
  · rw [← h.listed, hmodify, Array.toList_modify]
    apply List.ext_getElem?
    intro j
    rw [List.getElem?_map, List.getElem?_map, List.getElem?_modify]
    cases hj : spans.spans.toList[j]? with
    | none => rfl
    | some span =>
      by_cases hij : index = j <;> simp [hij]
  · have hlt : i < c.dests.length := by rwa [(h.stands k c hk).shaped.count]
    have hold := (h.stands k c hk).offsets i _ (List.getElem?_eq_getElem hlt)
    have htodo := h.todo_le hk hs hi
    rw [OffsetAt, if_pos ⟨htodo, hin⟩] at hold
    obtain ⟨index', destination₀, hget', hholds, -, -⟩ := hold
    obtain ⟨rfl, -⟩ := h.ascending.eq_of_field_eq hget' hget rfl
    refine (h.stands k c hk).setDest (fun _ _ => rfl) hi hgrows (fun _ _ _ => Iff.rfl) hothers ?_
    rw [OffsetAt, if_pos (by rw [hgrows.todo]; exact ⟨htodo, hin⟩)]
    refine ⟨index', destination', ?_, hholds, hknown, hoffset⟩
    rw [hmodify, Array.getElem?_modify, if_pos rfl, hget]
    rfl

/-- The opcode of a recent cell is overwritten. -/
theorem setOp {op : Opcode} (hshaped : ({ c with op } : Cell Int).Shaped) :
    Layered (code.setIfInBounds (position cells k) op.toByte) spans limit settled
      (cells.set k { c with op }) := by
  have hkl := lt_of_getElem? hk
  have hend := position_add_size hk hkl
  have hpos := c.size_pos
  have hgrows := SpanTable.Grows.refl h.sound
  have hstands := h.stands k c hk
  rw [← h.size] at hend
  have hcode : ∀ x, x ≠ position cells k →
      (code.setIfInBounds (position cells k) op.toByte)[x]? = code[x]? :=
    fun x hx => Array.getElem?_setIfInBounds_ne (Ne.symm hx)
  refine h.set hk rfl (by simp) (fun x hx => hcode x (by omega)) hgrows
    (fun _ _ _ _ _ _ => Iff.rfl) (fun index span hget _ => hget) h.listed ⟨hshaped, ?_, ?_, ?_⟩
  · have hlt : position cells k < code.size := by omega
    rw [Array.getElem?_setIfInBounds_self_of_lt hlt, Cell.opcode, h.narrow k c hk hs]
    rfl
  · intro raw hraw
    have hin := c.raw_bounds hraw
    exact (hstands.raws raw hraw).of_eq fun x hlo hhi => hcode x (by omega)
  · intro i z hz
    have hi : i < c.operands.arms := by
      rw [← hstands.shaped.count]
      exact lt_of_getElem? hz
    have hin := c.field_bounds (position cells k) hi
    have hkept : OffsetAt (code.setIfInBounds (position cells k) op.toByte) spans limit c.wide
        (position cells k) (c.field (position cells k) i) z :=
      OffsetAt.frame (hstands.offsets i z hz) (fun x hlo hhi => hcode x (by omega)) hgrows
        (fun _ => Iff.rfl) fun index span hget _ _ => hget
    exact hkept

/-- A literal of a recent lookup switch is overwritten. -/
theorem setLiteral (hc : c.operands = .lookup literals) (hi : i < literals.length) (literal : Nat) :
    Layered (setU16 code (position cells k + 5 + 4 * i) literal) spans limit settled
      (cells.set k { c with operands := .lookup (literals.set i literal) }) := by
  have hkl := lt_of_getElem? hk
  have hend := position_add_size hk hkl
  have hgrows := SpanTable.Grows.refl h.sound
  have hstands := h.stands k c hk
  have hwide : c.wide = false := h.narrow k c hk hs
  have hwidth : c.width = 2 := by rw [width, hwide]; rfl
  have hsize : c.size = 5 + 4 * literals.length := by
    rw [Cell.size, hc, hwidth, Operands.size]
    omega
  rw [← h.size] at hend
  have hcode : ∀ x, x < position cells k + 5 + 4 * i ∨ position cells k + 7 + 4 * i ≤ x →
      (setU16 code (position cells k + 5 + 4 * i) literal)[x]? = code[x]? :=
    fun x hx => getElem?_setU16_of_ne _ (by omega)
  have hform := Cell.form_setLiteral hc i literal
  refine h.set hk hform (by simp) (fun x hx => hcode x (by omega)) hgrows
    (fun _ _ _ _ _ _ => Iff.rfl) (fun index span hget _ => hget) h.listed ⟨⟨?_, ?_, ?_⟩, ?_, ?_, ?_⟩
  · have hcount := hstands.shaped.count
    rw [hc] at hcount
    simpa [Operands.arms] using hcount
  · have hfits := hstands.shaped.fits_lookup hc
    simpa using hfits
  · exact hstands.shaped.twin
  · rw [hcode _ (by omega)]
    exact hstands.opcode
  · intro raw hraw
    have hold := hstands.raws
    simp only [Cell.raws, hc, hwidth, Operands.raws, List.mem_cons, List.mem_map] at hold
    have hwidth' : ({ c with operands := .lookup (literals.set i literal) } : Cell Int).width = 2 :=
      hwidth
    simp only [Cell.raws, hwidth', Operands.raws, List.mem_cons, List.mem_map,
      List.length_set] at hraw
    rcases hraw with rfl | ⟨⟨l, j⟩, hl, rfl⟩
    · refine (hold _ (.inl rfl)).of_eq fun x hlo hhi => hcode x ?_
      simp [le16] at hlo hhi
      omega
    · have hget := List.mk_mem_zipIdx_iff_getElem?.mp hl
      have hj : j < literals.length := by
        have := lt_of_getElem? hget
        simpa using this
      simp only
      rw [List.getElem?_set] at hget
      split at hget
      · rename_i hij
        subst hij
        cases hget
        have hholds := holds_setU16 (b := code) (i := position cells k + 5 + 4 * i) literal
          (by omega)
        rwa [show position cells k + 2 + 3 + (2 + 2) * i = position cells k + 5 + 4 * i by omega]
      · rename_i hij
        have hholds := hold (position cells k + 2 + 3 + (2 + 2) * j, (le16 l).toList)
          (.inr ⟨(l, j), List.mk_mem_zipIdx_iff_getElem?.mpr hget, rfl⟩)
        refine hholds.of_eq fun x hlo hhi => hcode x ?_
        simp [le16] at hhi
        omega
  · intro j z hz
    have hj : j < c.operands.arms := by
      rw [← hstands.shaped.count]
      exact lt_of_getElem? hz
    have hin := c.field_bounds (position cells k) hj
    have hfield := field_congr hform (position cells k) j
    have hplace : c.field (position cells k) j = position cells k + 1 ∨
        ∃ m, c.field (position cells k) j = position cells k + 7 + 4 * m := by
      cases j with
      | zero => exact .inl rfl
      | succ m =>
        refine .inr ⟨m, ?_⟩
        rw [Cell.field, hc, hwidth, Operands.field, Operands.stride]
    rw [hfield]
    refine OffsetAt.frame (hstands.offsets j z hz) (fun x hlo hhi => hcode x ?_) hgrows
      (fun _ => Iff.rfl) fun index span hget _ _ => hget
    rw [show offsetWidth c.wide = 2 from hwidth] at hhi
    rcases hplace with hplace | ⟨m, hplace⟩ <;> omega

end Layered

end ScriptCompiler
