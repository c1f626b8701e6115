import ScriptCompiler.Proofs.Code.Transparency

/-!
# Resolving a chain

A chain of placeholders is threaded through their offsets: each counts back to
the link before it, and the first to just before the code. While the chain is
open anything else may be emitted or changed. Resolving the chain walks it back,
and every link becomes a jump to the target; no other instruction changes, even
where the table of spans comes on half way.
-/

namespace ScriptCompiler

open Bytes

variable {pc : Nat} {c : Cell Int} {op₀ : Opcode} {delta : Int} {frame : Frame}

/-- Distance from a link to the one before it, or to just before the code. -/
def linkDistance (pc : Nat) : List Nat → Int
  | [] => (pc : Int) + 1
  | last :: _ => (pc : Int) - last

/-- A run in which a chain is built. The links of the chain are given from the latest to the first;
anything may happen in between but a resolution or a change to one of the links. -/
inductive Linked : Generator → List Nat → Prop where
  | start {g : Generator} (hg : Reached g) : Linked g []
  | link {g g' : Generator} {pcs : List Nat} {op : Opcode} {pc : Nat} (hlinked : Linked g pcs)
      (hop : op.format = .jump) (hplaceholder : op.spec.placeholder = true)
      (hok : Emit.link op pcs.head? g = .ok pc g') : Linked g' (pc :: pcs)
  | other {g g' : Generator} {pcs : List Nat} {touched : Option Nat} (hlinked : Linked g pcs)
      (hstep : Operation g g' touched) (hfree : ∀ pc ∈ pcs, touched ≠ some pc) : Linked g' pcs

/-- The links of a chain as cells. -/
def Threaded (settled : Nat) (cells : List (Cell Int)) : List Nat → Prop
  | [] => True
  | pc :: pcs => (∃ (k : Nat) (op : Opcode) (frame : Frame), settled ≤ k ∧
      cells[k]? = some (.jump op (linkDistance pc pcs) frame) ∧ position cells k = pc) ∧
    (∀ last ∈ pcs, last < pc) ∧ Threaded settled cells pcs

section

variable {g g' : Generator} {settled k target : Nat} {cells cells' : List (Cell Int)}
  {pcs : List Nat} {op : Opcode}

/-! ## Building -/

theorem Threaded.link (h : Threaded settled cells pcs) (hpc : pc ∈ pcs) :
    ∃ (k : Nat) (op : Opcode) (delta : Int) (frame : Frame), settled ≤ k ∧
      cells[k]? = some (.jump op delta frame) ∧ position cells k = pc := by
  induction pcs with
  | nil => cases hpc
  | cons p pcs ih =>
    obtain ⟨⟨k, op, frame, hs, hk, hp⟩, -, hrest⟩ := h
    rcases List.mem_cons.mp hpc with rfl | hpc
    · exact ⟨k, op, _, frame, hs, hk, hp⟩
    · exact ih hrest hpc

/-- Links lie in front of the end of the code. -/
theorem Threaded.lt_end (h : Threaded settled cells pcs) (hpc : pc ∈ pcs) :
    pc < position cells cells.length := by
  obtain ⟨k, op, delta, frame, -, hk, rfl⟩ := h.link hpc
  exact position_lt (lt_of_getElem? hk) (Nat.le_refl _)

/-- A chain stays as it is where its links do. -/
theorem Threaded.spared {touched : Option Nat} (h : Threaded settled cells pcs)
    (hspares : Spares touched cells cells') (hfree : ∀ pc ∈ pcs, touched ≠ some pc) :
    Threaded settled cells' pcs := by
  induction pcs with
  | nil => trivial
  | cons pc pcs ih =>
    obtain ⟨⟨k, op, frame, hs, hk, rfl⟩, hlast, hrest⟩ := h
    refine ⟨⟨k, op, frame, hs, hspares.kept k _ hk (hfree _ (by simp)), ?_⟩, hlast,
      ih hrest fun pc hpc => hfree pc (by simp [hpc])⟩
    exact hspares.places k (Nat.le_of_lt (lt_of_getElem? hk))

/-- A link is a jump over the distance to the link before it. -/
theorem Emit.link_jump (h : Codes g.main.code g.spans settled cells) (hop : op.format = .jump)
    (hok : Emit.link op pcs.head? g = .ok pc g') :
    Emit.jump op (linkDistance g.main.code.size pcs) g = .ok pc g' := by
  rw [Emit.link, bind_ok] at hok
  obtain ⟨here, g₁, hoffset, hok⟩ := hok
  -- jumps are emitted into main code only
  have hmain : g.current = .main := by
    have hstate : g₁ = g := by
      simp only [Emit.offset, get_bind, pure_ok] at hoffset
      exact hoffset.2.symm
    subst hstate
    cases pcs with
    | nil => exact (jump_emitted h hop ⟨0⟩ hok).1
    | cons last pcs =>
      simp only [List.head?_cons, guard_throw_ok] at hok
      exact (jump_emitted h hop ⟨0⟩ hok.2).1
  obtain ⟨rfl, rfl⟩ := offset_ok hoffset hmain
  cases pcs with
  | nil => exact hok
  | cons last pcs =>
    simp only [List.head?_cons, guard_throw_ok] at hok
    exact hok.2

/-- In a run that builds a chain the links stand as cells. -/
theorem Linked.threaded (hl : Linked g pcs) :
    ∃ settled cells, Codes g.main.code g.spans settled cells ∧ Threaded settled cells pcs := by
  induction hl with
  | start hg =>
    obtain ⟨settled, cells, h⟩ := hg.codes
    exact ⟨settled, cells, h, trivial⟩
  | @link g g' pcs op pc _ hop _ hok ih =>
    obtain ⟨settled, cells, h, hthreaded⟩ := ih
    obtain ⟨-, rfl, hemitted⟩ := Emit.jump_emitted h hop ⟨0⟩ (Emit.link_jump h hop hok)
    refine ⟨settled, _, hemitted.codes, ⟨cells.length, op, ⟨0⟩, h.settled_le, by simp, ?_⟩,
      fun last hlast => ?_, hthreaded.spared (spares_append none cells _) (by simp)⟩
    · rw [position_append (Nat.le_refl _), h.size]
    · rw [h.size]
      exact hthreaded.lt_end hlast
  | other _ hstep hfree ih =>
    obtain ⟨settled, cells, h, hthreaded⟩ := ih
    obtain ⟨cells', h', hspares⟩ := hstep.codes h
    exact ⟨settled, cells', h', hthreaded.spared hspares hfree⟩

/-! ## Resolving -/

theorem Admitted.set (ha : Admitted settled cells) {c' : Cell Int} (hk : cells[k]? = some c)
    (hform : c'.form = c.form) (hnew : ∀ z ∈ c'.dests, Admits c'.op (position cells k) z) :
    Admitted settled (cells.set k c') := by
  intro l d hs hl z hz
  rw [position_congr (map_form_set hk hform)]
  by_cases hkl : k = l
  · subst hkl
    rw [List.getElem?_set_self (lt_of_getElem? hk)] at hl
    obtain rfl := Option.some.inj hl
    exact hnew z hz
  · rw [List.getElem?_set_ne hkl] at hl
    exact ha l d hs hl z hz

/-- One link becomes a jump to the target, and the walk goes on to the link before it. -/
theorem Emit.resolveLink (h : Codes g.main.code g.spans settled cells) (ha : Admitted settled cells)
    (hk : cells[k]? = some (.jump op₀ delta frame)) (hs : settled ≤ k) (hdelta : 0 ≤ delta)
    (hop : op.format = .jump) (hsize : g.main.code.size ≤ 9223372036854775808)
    (htarget : target < 9223372036854775808)
    (hfits : fits32 ((target : Int) - position cells k)) :
    ∃ g₁, Coded g g₁ settled (cells.set k (.jump op ((target : Int) - position cells k) frame)) ∧
      ∀ (fuel : Nat) (g' : Generator),
        resolveLinks target op fuel (if delta.toNat ≤ position cells k
          then some (position cells k - delta.toNat) else none) g₁ = .ok () g' →
        resolveLinks target op (fuel + 1) (some (position cells k)) g = .ok () g' := by
  obtain ⟨pc, hpc⟩ : ∃ pc, pc = position cells k := ⟨_, rfl⟩
  have hlt := position_lt (lt_of_getElem? hk) (Nat.le_refl _)
  rw [← h.size, ← hpc] at hlt
  have hread : jumpOffset pc g = .ok delta g :=
    (jumpOffset_iff (by omega)).mpr (hpc ▸ offsetAt_eq (i := 0) h hk hs rfl)
  have hspan : spanBetween pc target g = .ok ((target : Int) - pc) g := by
    simp only [spanBetween, guard_tooLarge_ok, pure_ok, and_self, and_true]
    omega
  rw [← hpc] at hfits
  obtain ⟨g₁, hset⟩ : ∃ g₁, setJumpOffset pc ((target : Int) - pc) g = .ok () g₁ := by
    obtain ⟨g₁, hset⟩ := setOffsetAt_total (i := 0) h hk hs Nat.zero_lt_one ha hfits
      (by rw [← hpc]; omega)
    exact ⟨g₁, (setJumpOffset_iff (by omega)).mpr (hpc ▸ hset)⟩
  have hcoded := relink_coded h hk hs hop (hpc ▸ hset)
  have hforms : (cells.set k (.jump op ((target : Int) - position cells k) frame)).map Cell.form =
      cells.map Cell.form := map_form_set hk rfl
  have hsize₁ : g₁.main.code.size = g.main.code.size := by
    have hsame := hcoded.codes.size
    rw [List.length_set, position_congr hforms, ← h.size] at hsame
    simpa using hsame
  refine ⟨_, hcoded, fun fuel g' hrest => ?_⟩
  rw [← hpc] at hrest ⊢
  simp only [resolveLinks, bind_ok]
  refine ⟨delta, g, hread, _, g, hspan, (), g₁, hset, ?_⟩
  simp only [get_ok, guard_outOfBounds_ok, modify_bind, guard_inconsistent_ok]
  exact ⟨g₁, g₁, ⟨rfl, rfl⟩, by omega, by omega, hrest⟩

/-- The cells of a resolved chain: its links are jumps to the target, all others are as before. -/
structure Relinks (pcs : List Nat) (op : Opcode) (target : Nat) (cells cells' : List (Cell Int)) :
    Prop where
  forms : cells'.map Cell.form = cells.map Cell.form
  links : ∀ (k : Nat) (c : Cell Int), cells[k]? = some c → position cells k ∈ pcs →
    cells'[k]? = some (.jump op ((target : Int) - position cells k) c.frame)
  kept : ∀ (k : Nat) (c : Cell Int), cells[k]? = some c → position cells k ∉ pcs →
    cells'[k]? = some c

theorem Relinks.step (hk : cells[k]? = some (.jump op₀ delta frame))
    (hlast : ∀ last ∈ pcs, last < position cells k)
    (h : Relinks pcs op target
      (cells.set k (.jump op ((target : Int) - position cells k) frame)) cells') :
    Relinks (position cells k :: pcs) op target cells cells' := by
  have hforms : (cells.set k (.jump op ((target : Int) - position cells k) frame)).map Cell.form =
      cells.map Cell.form := map_form_set hk rfl
  have hkl := lt_of_getElem? hk
  have hlinks := h.links
  have hkept := h.kept
  simp only [position_congr hforms] at hlinks hkept
  refine ⟨h.forms.trans hforms, fun l c hl hmem => ?_, fun l c hl hnot => ?_⟩
  · by_cases hlk : k = l
    · subst hlk
      obtain rfl := Option.some.inj (hk.symm.trans hl)
      refine hkept k _ (List.getElem?_set_self hkl) fun hin => ?_
      exact Nat.lt_irrefl _ (hlast _ hin)
    · have hne : position cells l ≠ position cells k := fun heq =>
        hlk (position_inj (Nat.le_of_lt hkl)
          (Nat.le_of_lt (lt_of_getElem? hl)) heq.symm)
      refine hlinks l c (by rw [List.getElem?_set_ne hlk]; exact hl) ?_
      exact (List.mem_cons.mp hmem).resolve_left hne
  · have hlk : k ≠ l := by
      rintro rfl
      exact hnot (by simp)
    exact hkept l c (by rw [List.getElem?_set_ne hlk]; exact hl) fun hin => hnot (by simp [hin])

/-- The walk comes to the end of the chain and resolves every link. -/
theorem Emit.resolveLinks_total (fuel : Nat) (hthreaded : Threaded settled cells pcs)
    (h : Codes g.main.code g.spans settled cells) (ha : Admitted settled cells)
    (hop : op.format = .jump) (hplain : op.spec.placeholder = false)
    (hsize : g.main.code.size ≤ 9223372036854775808) (htarget : target < 9223372036854775808)
    (hfits : ∀ pc ∈ pcs, fits32 ((target : Int) - pc)) (hfuel : pcs.length ≤ fuel) :
    ∃ g' cells', resolveLinks target op fuel pcs.head? g = .ok () g' ∧ Coded g g' settled cells' ∧
      Relinks pcs op target cells cells' := by
  -- the walk follows the list of links, and what is left of the chain stays threaded
  induction pcs generalizing g cells fuel with
  | nil =>
    refine ⟨g, cells, ?_, ⟨_, _, rfl, h⟩, rfl, fun _ _ _ hmem => absurd hmem List.not_mem_nil,
      fun _ _ hk _ => hk⟩
    cases fuel <;> rfl
  | cons pc pcs ih =>
    obtain ⟨⟨k, op₀, frame, hs, hk, rfl⟩, hlast, hrest⟩ := hthreaded
    obtain ⟨fuel, rfl⟩ : ∃ n, fuel = n + 1 := ⟨fuel - 1, by simp at hfuel; omega⟩
    have hdistance : 0 ≤ linkDistance (position cells k) pcs ∧
        (if (linkDistance (position cells k) pcs).toNat ≤ position cells k
          then some (position cells k - (linkDistance (position cells k) pcs).toNat) else none) =
            pcs.head? := by
      cases pcs with
      | nil =>
        have hdist : linkDistance (position cells k) [] = (position cells k : Int) + 1 := rfl
        exact ⟨by omega, if_neg (by omega)⟩
      | cons last pcs =>
        have hlt := hlast last (by simp)
        have hdist : linkDistance (position cells k) (last :: pcs) =
            (position cells k : Int) - last := rfl
        refine ⟨by omega, (if_pos (by omega)).trans ?_⟩
        rw [List.head?_cons]
        congr 1
        omega
    have hpc := hfits _ (List.mem_cons_self ..)
    obtain ⟨g₁, hcoded, hwalk⟩ := resolveLink h ha hk hs hdistance.1 hop hsize htarget hpc
    have hform : (Cell.jump op ((target : Int) - position cells k) frame).form =
        (Cell.jump op₀ (linkDistance (position cells k) pcs) frame).form := rfl
    have h₁ := hcoded.codes
    have hsize₁ : g₁.main.code.size = g.main.code.size := by
      rw [h₁.size, h.size, List.length_set]
      exact position_congr (map_form_set hk hform) _
    have ha₁ : Admitted settled
        (cells.set k (.jump op ((target : Int) - position cells k) frame)) := by
      refine ha.set hk hform fun z hz => ?_
      obtain rfl := List.mem_singleton.mp hz
      rw [Admits, Cell.jump, if_neg (by simp [hplain])]
      omega
    obtain ⟨g', cells', hok, hcoded', hrelinks⟩ := ih fuel
      (hrest.spared (spares_set hk hform) fun last hmem heq =>
        Nat.lt_irrefl _ (Option.some.inj heq ▸ hlast last hmem))
      h₁ ha₁ (by omega) (fun last hmem => hfits last (by simp [hmem]))
      (Nat.le_of_succ_le_succ hfuel)
    refine ⟨g', cells', ?_, hcoded.trans hcoded', hrelinks.step hk hlast⟩
    rw [List.head?_cons]
    exact hwalk fuel g' (by rw [hdistance.2]; exact hok)

/-- A chain has no more links than there are places up to its last one. -/
theorem Threaded.length_le (h : Threaded settled cells pcs) :
    pcs.length ≤ pcs.head?.getD 0 + 1 := by
  induction pcs with
  | nil => simp
  | cons pc pcs ih =>
    obtain ⟨-, hlast, hrest⟩ := h
    have hle := ih hrest
    cases pcs with
    | nil => simp
    | cons last pcs =>
      have hlt := hlast last (by simp)
      simp only [List.head?_cons, Option.getD_some, List.length_cons] at hle ⊢
      omega

/-! ## What is seen of it -/

/-- The instruction as it is once the chain is resolved. -/
def Instruction.relinked (pcs : List Nat) (op : Opcode) (i : Instruction) : Instruction :=
  if i.pc ∈ pcs then { i with op } else i

/-- The offsets once the chain is resolved, by the positions of their fields. -/
def relinkedOffset (pcs : List Nat) (target : Nat) (offset : Nat → Int) (field : Nat) : Int :=
  if field ∈ pcs.map (· + 1) then (target : Int) + 1 - field else offset field

theorem getElem?_views {δ : Type} {cells : List (Cell δ)} (pc k : Nat) :
    (views pc cells)[k]? = cells[k]?.map fun c => c.view (pc + position cells k) := by
  induction cells generalizing pc k with
  | nil => simp [views]
  | cons c cells ih =>
    cases k with
    | zero => simp [views]
    | succ k =>
      rw [views, List.getElem?_cons_succ, List.getElem?_cons_succ, ih, position_cons_succ,
        Nat.add_assoc]

/-- Offsets that have been resolved stand in the code. -/
theorem Codes.settled_offset (h : Codes g.main.code g.spans settled cells) (hk : cells[k]? = some c)
    (hs : k < settled) {j : Nat} {z : Int} (hz : c.dests[j]? = some z) :
    offsetIn? g.main.code (c.view (position cells k)).op (c.field (position cells k) j) =
      some z := by
  have hstands := h.stands k c hk
  have hj := Emit.arms_of_dest h hk hz
  have hin := c.field_bounds (position cells k) hj
  have hend := position_add_size hk hs
  have hwidth := offsetWidth_pos c.wide
  have hdirect := hstands.offsets j z hz
  rw [Cell.width] at hin
  rw [OffsetAt, if_neg (by rw [h.todo]; omega)] at hdirect
  have hwide : (c.view (position cells k)).op.isWide = c.wide := hstands.shaped.isWide (by omega)
  rw [offsetIn?, hwide]
  obtain ⟨hfits, hholds⟩ := hdirect
  cases hw : c.wide with
  | false =>
    rw [hw] at hfits hholds
    exact hholds.i16? hfits
  | true =>
    rw [hw] at hfits hholds
    exact hholds.i32? hfits

/-- Apart from the opcodes of the links the instructions are the same. -/
theorem Relinks.views_eq (h : Relinks pcs op target cells cells')
    (hlinks : ∀ pc ∈ pcs, ∃ (k : Nat) (op₀ : Opcode) (delta : Int) (frame : Frame),
      cells[k]? = some (.jump op₀ delta frame) ∧ position cells k = pc)
    {n : Nat} (hn : n ≤ cells.length) :
    views (position cells' n) (cells'.drop n) =
      (views (position cells n) (cells.drop n)).map (Instruction.relinked pcs op) := by
  have hposition := position_congr h.forms
  have hlength : cells'.length = cells.length := by simpa using congrArg List.length h.forms
  apply List.ext_getElem?
  intro k
  rw [List.getElem?_map, getElem?_views, getElem?_views, List.getElem?_drop, List.getElem?_drop,
    ← position_drop cells hn, ← position_drop cells' (hlength ▸ hn), hposition]
  cases hk : cells[n + k]? with
  | none =>
    rw [List.getElem?_eq_none_iff.mpr (by rw [hlength]; exact List.getElem?_eq_none_iff.mp hk)]
    rfl
  | some c =>
    by_cases hin : position cells (n + k) ∈ pcs
    · obtain ⟨l, op₀, delta, frame, hl, heq⟩ := hlinks _ hin
      obtain rfl := position_inj (Nat.le_of_lt (lt_of_getElem? hl))
        (Nat.le_of_lt (lt_of_getElem? hk)) heq
      obtain rfl := Option.some.inj (hl.symm.trans hk)
      rw [h.links _ _ hk hin]
      simp only [Option.map_some, Instruction.relinked, Cell.view, hin, if_true]
      rfl
    · rw [h.kept _ c hk hin]
      simp only [Option.map_some, Instruction.relinked, Cell.view, hin, if_false]

/-- Apart from the offsets of the links the offsets are the same. -/
theorem Relinks.offsets (h : Relinks pcs op target cells cells') (hshaped : ∀ c ∈ cells, c.Shaped)
    (hlinks : ∀ pc ∈ pcs, ∃ (k : Nat) (op₀ : Opcode) (delta : Int) (frame : Frame),
      cells[k]? = some (.jump op₀ delta frame) ∧ position cells k = pc)
    {offset : Nat → Int} (ho : OffsetsOf settled cells offset) :
    OffsetsOf settled cells' (relinkedOffset pcs target offset) := by
  intro k c' hs hk' j z hz
  have hlength : cells'.length = cells.length := by simpa using congrArg List.length h.forms
  rw [position_congr h.forms]
  obtain ⟨c, hk⟩ : ∃ c, cells[k]? = some c :=
    ⟨_, List.getElem?_eq_getElem (hlength ▸ (lt_of_getElem? hk'))⟩
  by_cases hin : position cells k ∈ pcs
  · obtain rfl := Option.some.inj ((h.links k c hk hin).symm.trans hk')
    obtain ⟨rfl, rfl⟩ : j = 0 ∧ (target : Int) - position cells k = z := by
      simpa [Cell.jump, List.getElem?_singleton] using hz
    have hfield : (Cell.jump op ((target : Int) - position cells k) c.frame).field
        (position cells k) 0 = position cells k + 1 := rfl
    rw [hfield, relinkedOffset, if_pos (List.mem_map_of_mem hin)]
    omega
  · obtain rfl := Option.some.inj ((h.kept k c hk hin).symm.trans hk')
    rw [relinkedOffset, if_neg]
    · exact ho k c hs hk j z hz
    · intro hmem
      obtain ⟨pc, hpc, heq⟩ := List.mem_map.mp hmem
      obtain ⟨l, op₀, delta, frame, hl, rfl⟩ := hlinks pc hpc
      have hj : j < c.operands.arms := by
        rw [← (hshaped c (List.mem_of_getElem? hk)).count]
        exact lt_of_getElem? hz
      have hfield : (Cell.jump op₀ delta frame).field (position cells l) 0 =
          c.field (position cells k) j := heq
      obtain ⟨rfl, -⟩ := field_inj hl hk Nat.zero_lt_one hj hfield
      exact hin hpc

end

/-- Resolving a chain resolves the whole chain and nothing else. It succeeds; each link becomes the
given jump and leads to the target; all other opcodes of main code and all other offsets, resolved or
not, are as before, and so is everything outside main code and the table of spans. -/
theorem resolveChain_resolves {g : Generator} {pcs : List Nat} {is : List Instruction} {op : Opcode}
    {target : Nat} (hlinked : Linked g pcs) (hrecent : Recent g is) (hadmissible : Admissible g is)
    (hop : op.format = .jump) (hplain : op.spec.placeholder = false)
    (hsize : g.main.code.size ≤ 9223372036854775808) (htarget : target < 9223372036854775808)
    (hfits : ∀ pc ∈ pcs, fits32 ((target : Int) - pc) = true) :
    ∃ g' code spans offset, Emit.resolveChain pcs.head? target op g = .ok () g' ∧
      g' = { g with main := { g.main with code }, spans } ∧
      (∀ pc ∈ pcs, Emit.jumpOffset pc g' = .ok ((target : Int) - pc) g' ∧
        opcodeAt? g'.main.code pc = some op) ∧
      Reads g is offset ∧
      Recent g' (is.map (Instruction.relinked pcs op)) ∧
      Reads g' (is.map (Instruction.relinked pcs op)) (relinkedOffset pcs target offset) ∧
      ∀ all, Whole g.main.code 0 all →
        Whole g'.main.code 0 (all.map (Instruction.relinked pcs op)) ∧
        ∀ i ∈ all, i.pc < g.spans.todo → ∀ field ∈ i.fields,
          offsetIn? g'.main.code i.op field = offsetIn? g.main.code i.op field := by
  obtain ⟨settled, cells, h, hthreaded⟩ := hlinked.threaded
  have hlinks : ∀ pc ∈ pcs, ∃ (k : Nat) (op₀ : Opcode) (delta : Int) (frame : Frame),
      cells[k]? = some (.jump op₀ delta frame) ∧ position cells k = pc := fun pc hpc => by
    obtain ⟨k, op₀, delta, frame, -, hk, heq⟩ := hthreaded.link hpc
    exact ⟨k, op₀, delta, frame, hk, heq⟩
  have hlength := hthreaded.length_le
  obtain ⟨g', cells', hok, hcoded, hrelinks⟩ := Emit.resolveLinks_total
    (2 * pcs.head?.getD 0 + 3) hthreaded h (hadmissible.admitted hrecent h) hop hplain hsize
    htarget hfits (by omega)
  obtain ⟨offset, ho⟩ := h.exists_offsets
  have h' := hcoded.codes
  have hsize' : g'.main.code.size = g.main.code.size := by
    have hlen : cells'.length = cells.length := by simpa using congrArg List.length hrelinks.forms
    rw [h'.size, h.size, hlen, position_congr hrelinks.forms]
  have hrecent' : Recent g' (is.map (Instruction.relinked pcs op)) := by
    have hwhole := Emit.whole_recent h'
    rw [hrelinks.views_eq hlinks h.settled_le, ← hrecent.eq_views h] at hwhole
    exact hwhole
  have hreads' := (hrelinks.offsets h.shaped hlinks ho).reads h' hrecent' (by omega)
  obtain ⟨code, spans, hg', -⟩ := hcoded
  refine ⟨g', code, spans, offset, hok, hg', fun pc hpc => ?_, ho.reads h hrecent (by omega),
    hrecent', hreads', fun all hall => ?_⟩
  · obtain ⟨k, op₀, delta, frame, hs, hk, rfl⟩ := hthreaded.link hpc
    have hk' := hrelinks.links k _ hk hpc
    have hposition : position cells' k = position cells k := position_congr hrelinks.forms k
    have hread := Emit.offsetAt_eq (i := 0) h' hk' hs rfl
    have hopcode := (h'.stands k _ hk').opcode
    rw [hposition] at hread hopcode
    have hlt := hthreaded.lt_end hpc
    rw [← h.size] at hlt
    refine ⟨(Emit.jumpOffset_iff (by omega)).mpr hread, ?_⟩
    rw [opcodeAt?, hopcode]
    exact Opcode.ofByte?_toByte op
  · have hviews := hrelinks.views_eq hlinks (Nat.zero_le _)
    rw [position_zero, position_zero, List.drop_zero, List.drop_zero] at hviews
    obtain rfl := Whole.unique hall h.whole
    refine ⟨hviews ▸ h'.whole, fun i hi hsettled field hfield => ?_⟩
    obtain ⟨k, c, hk, rfl⟩ := mem_views.mp hi
    rw [Nat.zero_add] at hsettled hfield ⊢
    have hks : k < settled := by
      by_contra hge
      have hle := position_le (Nat.le_of_not_lt hge)
        (Nat.le_of_lt (List.getElem?_eq_some_iff.mp hk).1)
      rw [h.todo] at hsettled
      exact absurd hsettled (Nat.not_lt.mpr hle)
    obtain ⟨j, hj, rfl⟩ := (h.stands k c hk).shaped.mem_fields.mp hfield
    have hz : c.dests[j]? = some (c.dests.get ⟨j, by rwa [(h.stands k c hk).shaped.count]⟩) :=
      List.getElem?_eq_getElem _
    have hfree : position cells k ∉ pcs := fun hpc => by
      obtain ⟨l, _, _, _, hl, hlk, heq⟩ := hthreaded.link hpc
      obtain rfl := position_inj (Nat.le_of_lt (List.getElem?_eq_some_iff.mp hlk).1)
        (Nat.le_of_lt (List.getElem?_eq_some_iff.mp hk).1) heq
      omega
    have hread' := h'.settled_offset (hrelinks.kept k c hk hfree) hks hz
    rw [position_congr hrelinks.forms] at hread'
    rw [hread', h.settled_offset hk hks hz]

/-- The chain with one more link. -/
def openLinks : Generator :=
  { Generator.new "unit" 1 .standard with
    main := ⟨#[Opcode.goto.toByte, 0, 0, Opcode.backpatch.toByte, 4, 0,
      Opcode.backpatch.toByte, 3, 0], #[], 0, 1⟩ }

theorem openLinks_emitted : Emit.jump .backpatch 3 openChain = .ok 6 openLinks := rfl

theorem openLinks_linked : Linked openLinks [6, 3] := by
  have hfirst : Emit.link .backpatch none openJump = .ok 3 openChain := by
    rw [Emit.link, Emit.bind_ok]
    exact ⟨3, openJump, rfl, openChain_emitted⟩
  have hsecond : Emit.link .backpatch (some 3) openChain = .ok 6 openLinks := by
    rw [Emit.link, Emit.bind_ok]
    refine ⟨6, openChain, rfl, ?_⟩
    simp only [Emit.guard_throw_ok]
    exact ⟨by decide, openLinks_emitted⟩
  exact .link (.link (.start openJump_reached) rfl rfl hfirst) rfl rfl hsecond

theorem openLinks_recent :
    Recent openLinks [⟨0, .goto, 3⟩, ⟨3, .backpatch, 3⟩, ⟨6, .backpatch, 3⟩] :=
  ⟨rfl, by decide, by decide, rfl, by decide, by decide, rfl, by decide, by decide, rfl⟩

theorem openLinks_offsets : Emit.offsetAt 1 openLinks = .ok 0 openLinks ∧
    Emit.offsetAt 4 openLinks = .ok 4 openLinks ∧ Emit.offsetAt 7 openLinks = .ok 3 openLinks := by
  simp only [Emit.offsetAt, Emit.get_bind]
  rw [if_neg (by decide)]
  exact ⟨Emit.mainI16_ok.mpr ⟨by decide, rfl⟩, Emit.mainI16_ok.mpr ⟨by decide, rfl⟩,
    Emit.mainI16_ok.mpr ⟨by decide, rfl⟩⟩

theorem openLinks_admissible :
    Admissible openLinks [⟨0, .goto, 3⟩, ⟨3, .backpatch, 3⟩, ⟨6, .backpatch, 3⟩] := by
  intro i hi field hfield z hz
  simp only [List.mem_cons, List.not_mem_nil, or_false] at hi
  rcases hi with rfl | rfl | rfl
  · obtain rfl := List.mem_singleton.mp hfield
    rw [openLinks_offsets.1] at hz
    cases hz
    decide
  · obtain rfl := List.mem_singleton.mp hfield
    rw [openLinks_offsets.2.1] at hz
    cases hz
    decide
  · obtain rfl := List.mem_singleton.mp hfield
    rw [openLinks_offsets.2.2] at hz
    cases hz
    decide

/-- The table comes on at the first of two links. -/
theorem resolveChain_resolves_openLinks :
    Linked openLinks [6, 3] ∧
      Recent openLinks [⟨0, .goto, 3⟩, ⟨3, .backpatch, 3⟩, ⟨6, .backpatch, 3⟩] ∧
      Admissible openLinks [⟨0, .goto, 3⟩, ⟨3, .backpatch, 3⟩, ⟨6, .backpatch, 3⟩] ∧
      ∃ g', Emit.resolveChain (some 6) 40000 .goto openLinks = .ok () g' ∧
        Emit.jumpOffset 6 g' = .ok 39994 g' ∧ Emit.jumpOffset 3 g' = .ok 39997 g' ∧
        Emit.jumpOffset 0 g' = .ok 0 g' := by
  refine ⟨openLinks_linked, openLinks_recent, openLinks_admissible, ?_⟩
  obtain ⟨g', -, -, offset, hok, -, hlinks, hreads, -, hreads', -⟩ :=
    resolveChain_resolves openLinks_linked openLinks_recent openLinks_admissible
      (show Opcode.goto.format = .jump from rfl) rfl (by decide)
      (show 40000 < 9223372036854775808 by decide) (by decide)
  have hzero : offset 1 = 0 := by
    have hread := (hreads ⟨0, .goto, 3⟩ (by simp) 1 (by decide)).1
    rw [openLinks_offsets.1] at hread
    exact (EStateM.Result.ok.inj hread).1.symm
  have hother := (hreads' ⟨0, .goto, 3⟩ (by simp [Instruction.relinked]) 1 (by decide)).2 rfl
  rw [relinkedOffset, if_neg (by decide), hzero] at hother
  exact ⟨g', hok, (hlinks 6 (by decide)).1, (hlinks 3 (by decide)).1, hother⟩

end ScriptCompiler
