import ScriptCompiler.Proofs.Unit.Compilation

/-!
# Well-formed scripts

The code of a compiled script is a sequence of whole instructions that ends in
a stop. Declarations come first, no placeholder is left, jumps and switches
lead to instructions of the main section, and operands name literals and
functions that exist.
-/

namespace ScriptCompiler

open Bytes Cell

namespace Script

/-- A place in the main section where an instruction starts. -/
def IsTarget (s : Script) (target : Nat) : Prop :=
  s.mainOffset ≤ target ∧ ∃ i ∈ instructions s.code, i.pc = target

/-- What can be relied on in the code of one script. -/
structure WellFormed (s : Script) : Prop where
  /-- The instructions cover the code, one right behind the other. -/
  whole : Whole s.code 0 (instructions s.code)
  /-- An instruction starts where main code starts. -/
  boundary : s.IsTarget s.mainOffset
  /-- In front of main code there are declarations only. -/
  hoisted : ∀ i ∈ instructions s.code, i.pc < s.mainOffset → i.op = .defVar ∨ i.op = .defFun
  ends : (instructions s.code).getLast?.map Instruction.op = some .stop
  resolved : ∀ i ∈ instructions s.code, i.op ≠ .backpatch ∧ i.op ≠ .backpatchPop
  jumps : ∀ i ∈ instructions s.code, i.op.format = .jump ∨ i.op.format = .jumpX →
    ∃ target, jumpTarget s.code i.pc = .ok (some target) ∧ s.IsTarget target
  switches : ∀ i ∈ instructions s.code, i.op.format.isSwitch = true →
    ∃ targets, switchTargets s.code i.pc = .ok (some targets) ∧ s.IsTarget targets.fallback ∧
      ∀ arm ∈ targets.arms, s.IsTarget arm.target ∧
        ∀ n, arm.key = .literal n → n < s.literals.size
  literals : ∀ i ∈ instructions s.code, i.op.format = .literal →
    ∃ n, u16? s.code (i.pc + 1) = some n ∧ n < s.literals.size
  functions : ∀ i ∈ instructions s.code, i.op.format = .function →
    ∃ n, u16? s.code (i.pc + 1) = some n ∧ n < s.functions.size

end Script

/-! ## Cells of a run -/

section Cells

variable {t : Tree} {P : Program} {ps : Parts} {ctx : Ctx}
  {lab : Nat → Mark} {acts : List Action} {x z : Mark} {k : Nat} {c : Cell Nat}

/-- Every cell that a run goes through stands for an action. -/
theorem Run.action_of_cell (h : Run t P ps ctx lab acts x z) (hlo : x.pos ≤ k) (hhi : k < z.pos)
    (hk : P.main[k]? = some c) :
    ∃ (ctx' : Ctx) (lab' : Nat → Mark) (y : Mark) (act : Action) (next : Next) (wide : Bool),
      act.Is P ps ctx' lab' y { c with wide } next := by
  induction h with
  | nil => omega
  | @emit ctx lab act acts x y z d next his hstep _ ih =>
    rcases Nat.lt_or_eq_of_le hlo with hlt | rfl
    · exact ih (by rw [hstep.pos]; exact hlt) hhi
    · obtain ⟨wide, hat⟩ := hstep.stands
      obtain rfl := Option.some.inj (hat.symm.trans hk)
      exact ⟨ctx, lab, x, act, next, d.wide, his⟩
  | @child ctx lab lab' openings id node plan inner acts x y z _ _ _ _ _ ihrun ihrest =>
    rcases Nat.lt_or_ge k y.pos with hlt | hge
    · exact ihrun hlo hlt
    · exact ihrest hge hhi
  | here _ _ ih => exact ih hlo hhi
  | declare _ _ _ ih => exact ih hlo hhi
  | define _ _ _ _ _ ih => exact ih hlo hhi
  | region _ _ _ ih => exact ih hlo hhi

/-- The literals of a lookup switch are literals of the program. -/
theorem Action.Is.lookup_literals {y : Mark} {act : Action} {next : Next} {literals : List Nat}
    (h : act.Is P ps ctx lab y c next) (hc : c.operands = .lookup literals) :
    ∀ n ∈ literals, n < 65536 ∧ n < P.literals.length := by
  cases act with
  | lookup fallback pairs =>
    obtain ⟨-, found, hfound, rfl⟩ := h
    cases hc
    intro n hn
    obtain ⟨i, hi, rfl⟩ := List.mem_iff_getElem.mp hn
    obtain ⟨hlt, hget⟩ := hfound.get hi (hfound.length_eq ▸ hi)
    exact ⟨hlt, lt_of_getElem? hget⟩
  | op code bytes next => obtain ⟨-, rfl⟩ := h; cases hc
  | literal code value => obtain ⟨-, i, -, rfl⟩ := h; cases hc
  | access openings slot named name =>
    obtain ⟨-, h⟩ := h
    split at h
    · obtain ⟨-, rfl⟩ := h; cases hc
    · obtain ⟨code, i, -, -, rfl⟩ := h; cases hc
  | jump code label next => obtain ⟨-, rfl⟩ := h; cases hc
  | exit code target next => obtain ⟨-, rfl⟩ := h; cases hc
  | table low high fallback arms => obtain ⟨-, rfl⟩ := h; cases hc
  | lambda f line => obtain ⟨-, i, script, -, -, -, rfl⟩ := h; cases hc
  | child | here | declare | define | region => cases h

end Cells

/-! ## Cells as instructions -/

theorem getD_mem {l : List Nat} {i : Nat} (hi : i < l.length) : l.getD i 0 ∈ l := by
  rw [List.getD_eq_getElem?_getD, List.getElem?_eq_getElem hi]
  exact List.getElem_mem hi

theorem map_op_views {δ : Type} (pc : Nat) (cells : List (Cell δ)) :
    (views pc cells).map Instruction.op = cells.map opcode := by
  induction cells generalizing pc with
  | nil => rfl
  | cons c cells ih => rw [views, List.map_cons, List.map_cons, ih, view]

section Instructions

variable {s : Script} {P : Program} {i : Instruction} {k : Nat} {c : Cell Nat}

/-- An instruction of a script is a hoisted declaration or a cell of the body. -/
theorem Encodes.instruction_cases (h : Encodes s P) (hi : i ∈ instructions s.code) :
    (∃ (k : Nat) (c : Cell Nat), P.prolog[k]? = some c ∧ i = c.view (position P.cells k) ∧
      i.pc < s.mainOffset) ∨
      ∃ (k : Nat) (c : Cell Nat), P.main[k]? = some c ∧ i = c.view (P.offset k) ∧
        s.mainOffset ≤ i.pc := by
  obtain ⟨k, c, hk, rfl⟩ := h.mem_instructions.mp hi
  rcases Nat.lt_or_ge k P.prolog.length with hlt | hge
  · left
    refine ⟨k, c, by rwa [Program.cells, List.getElem?_append_left hlt] at hk, rfl, ?_⟩
    rw [h.start]
    exact position_lt hlt (by rw [Program.length_cells]; omega)
  · right
    obtain ⟨j, rfl⟩ := Nat.exists_eq_add_of_le hge
    refine ⟨j, c, ?_, rfl, ?_⟩
    · rwa [Program.cells, List.getElem?_append_right hge, Nat.add_sub_cancel_left] at hk
    · have hlt := lt_of_getElem? hk
      rw [Program.length_cells] at hlt
      rw [h.start]
      exact Program.offset_le (Nat.zero_le j) (by omega)

theorem Encodes.isTarget (h : Encodes s P) (hk : k < P.main.length) : s.IsTarget (P.offset k) := by
  refine ⟨?_, _, h.instruction (List.getElem?_eq_getElem hk), rfl⟩
  rw [h.start]
  exact Program.offset_le (Nat.zero_le k) (Nat.le_of_lt hk)

/-- The operands of a cell go with the format of its instruction. -/
theorem Cell.Shaped.operands_of_opcode (h : c.Shaped) :
    match c.operands with
    | .plain _ => c.opcode = c.op ∧ c.op.format.jumpLen = none ∧ c.op.format.isSwitch = false
    | .jump => c.opcode.format.jumpLen = some c.width ∧ c.opcode.format.isSwitch = false
    | _ => c.opcode.format.jumpLen = some c.width ∧ c.opcode.format.isSwitch := by
  cases hc : c.operands with
  | plain bytes =>
    obtain ⟨hlen, -⟩ := h.fits_plain hc
    refine ⟨h.opcode_plain hc, hlen, ?_⟩
    generalize c.op.format = format at hlen
    cases format <;> simp_all [Format.jumpLen, Format.isSwitch]
  | jump =>
    obtain ⟨hlen, hswitch, -⟩ := h.opcode_format (h.fits_jump hc) rfl
    exact ⟨hlen, hswitch⟩
  | table low high =>
    obtain ⟨hlen, hswitch, -⟩ := h.opcode_format (h.fits_table hc).1 rfl
    exact ⟨hlen, hswitch⟩
  | lookup literals =>
    obtain ⟨hlen, hswitch, -⟩ := h.opcode_format (h.fits_lookup hc).1 rfl
    exact ⟨hlen, hswitch⟩

theorem Cell.Shaped.operands_jump (h : c.Shaped)
    (hformat : c.opcode.format = .jump ∨ c.opcode.format = .jumpX) : c.operands = .jump := by
  have hkind := h.operands_of_opcode
  cases hc : c.operands with
  | plain bytes =>
    rw [hc] at hkind
    obtain ⟨hop, hlen, -⟩ := hkind
    rw [hop] at hformat
    rcases hformat with hjump | hjump <;> (rw [hjump] at hlen; cases hlen)
  | jump => rfl
  | table low high =>
    rw [hc] at hkind
    rcases hformat with hjump | hjump <;> (rw [hjump] at hkind; cases hkind.2)
  | lookup literals =>
    rw [hc] at hkind
    rcases hformat with hjump | hjump <;> (rw [hjump] at hkind; cases hkind.2)

/-- A cell that is no placeholder does not stand as one in its wide form either. -/
theorem Cell.Shaped.opcode_final (h : c.Shaped) (hfinal : c.op.spec.placeholder = false) :
    c.opcode ≠ .backpatch ∧ c.opcode ≠ .backpatchPop := by
  cases hwide : c.wide with
  | false =>
    rw [opcode, hwide, if_neg (by decide)]
    constructor <;> (intro hop; rw [hop] at hfinal; cases hfinal)
  | true =>
    obtain ⟨twin, htwin⟩ := Option.isSome_iff_exists.mp (h.twin hwide)
    obtain ⟨-, hlen, -⟩ := Opcode.widened_format htwin
    rw [opcode, hwide, if_pos rfl, htwin, Option.getD_some]
    constructor <;> (intro hop; rw [hop] at hlen; cases hlen)

theorem Format.jumpLen_of_literal {format : Format} (h : format = .literal ∨ format = .function) :
    format.jumpLen = none := by
  rcases h with rfl | rfl <;> rfl

/-- A cell with a literal or a function as its operand. -/
theorem Encodes.immediate (h : Encodes s P) (hk : P.main[k]? = some c)
    (hformat : c.opcode.format = .literal ∨ c.opcode.format = .function) :
    c.opcode = c.op ∧ u16? s.code (P.offset k + 1) = some c.operands.immediate := by
  have hshaped := h.shaped hk
  have hop : c.opcode = c.op := by
    have hnone := Format.jumpLen_of_literal hformat
    cases hwide : c.wide with
    | false => rw [opcode, hwide, if_neg (by decide)]
    | true =>
      obtain ⟨twin, htwin⟩ := Option.isSome_iff_exists.mp (hshaped.twin hwide)
      obtain ⟨-, hlen, -⟩ := Opcode.widened_format htwin
      rw [opcode, hwide, if_pos rfl, htwin, Option.getD_some, hlen] at hnone
      cases hnone
  rw [hop] at hformat
  have hlength : c.op.spec.length = some 3 := by
    revert hformat
    cases c.op <;> decide
  exact ⟨hop, hshaped.u16?_immediate (Format.jumpLen_of_literal hformat) hlength fun raw hraw =>
    h.raws hk hraw⟩

end Instructions

namespace Compiles

variable {tree : Tree} {inFunction : Bool} {body : List NodeId} {s : Script} {P : Program}

variable (h : Compiles tree inFunction body s P)

include h

/-- The last cell is a stop. -/
theorem stop :
    ∃ (k : Nat) (c : Cell Nat), k + 1 = P.main.length ∧ P.main[k]? = some c ∧ c.opcode = .stop := by
  obtain ⟨z, hz, -, hrun⟩ := h.run
  obtain ⟨y, -, hstop⟩ := hrun.of_append
  cases hstop with
  | emit his hstep hrest =>
    obtain ⟨-, rfl⟩ := his
    obtain rfl := hrest.eq_of_nil
    obtain ⟨wide, hat⟩ := hstep.stands
    refine ⟨y.pos, _, by rw [← hz, hstep.pos], hat, ?_⟩
    rw [(h.encodes.shaped hat).opcode_plain rfl]
    rfl

/-- What is known of a hoisted declaration as an instruction. -/
theorem hoisted {k : Nat} {c : Cell Nat} (hk : P.prolog[k]? = some c) :
    (c.opcode = .defVar ∧ c.operands.immediate < P.literals.length ∨
      c.opcode = .defFun ∧ c.operands.immediate < P.functions.length) ∧
      u16? s.code (position P.cells k + 1) = some c.operands.immediate := by
  have hlt := lt_of_getElem? hk
  obtain ⟨-, -, hraws⟩ := h.encodes.stands k c (by
    rwa [Program.cells, List.getElem?_append_left hlt])
  rw [Nat.zero_add] at hraws
  obtain ⟨i, hi, ⟨hlt, rfl⟩ | ⟨hlt, rfl⟩⟩ := h.sound.prolog c (List.mem_of_getElem? hk)
  all_goals
    have hread := (hraws _ (List.mem_singleton.mpr rfl)).u16?
    rw [Nat.mod_eq_of_lt hi] at hread
    have himmediate : (Operands.plain (le16 i).toList).immediate = i := by
      rw [Emit.immediate_le16, Nat.mod_eq_of_lt hi]
  · exact ⟨.inl ⟨rfl, Nat.lt_of_le_of_lt (Nat.le_of_eq himmediate) hlt⟩, hread.trans (congrArg _ himmediate.symm)⟩
  · exact ⟨.inr ⟨rfl, Nat.lt_of_le_of_lt (Nat.le_of_eq himmediate) hlt⟩, hread.trans (congrArg _ himmediate.symm)⟩

theorem literals_length : P.literals.length = s.literals.size := by
  rw [← h.encodes.literals, Array.length_toList]

theorem functions_length : P.functions.length = s.functions.size := by
  rw [← h.encodes.functions, Array.length_toList]

theorem isTarget {k : Nat} {c : Cell Nat} (hk : P.main[k]? = some c) {d : Nat} (hd : d ∈ c.dests) :
    s.IsTarget (P.offset d) :=
  h.encodes.isTarget (h.dests k c hk d hd)

/-- The targets of a switch are destinations of its cell, where an arm of a table does not lead to
the table itself. -/
theorem switchTargets {k : Nat} {c : Cell Nat} (hk : P.main[k]? = some c)
    (hswitch : c.opcode.format.isSwitch) :
    ∃ targets, Script.switchTargets s.code (P.offset k) = .ok (some targets) ∧
      (∀ target, (target = targets.fallback ∨ ∃ arm ∈ targets.arms, arm.target = target) →
        ∃ dest ∈ c.dests, target = P.offset dest ∧
          (c.dests.head? = some dest ∨ dest ≠ k ∨ c.op ≠ .tableSwitch)) ∧
      ∀ arm ∈ targets.arms, ∀ n, arm.key = .literal n → n < s.literals.size := by
  have hshaped := h.encodes.shaped hk
  have hkind := hshaped.operands_of_opcode
  have hcount := hshaped.count
  have hfirst : ∀ {t : Nat} {rest : List Nat}, c.dests = t :: rest →
      ∃ dest ∈ c.dests, P.offset t = P.offset dest ∧
        (c.dests.head? = some dest ∨ dest ≠ k ∨ c.op ≠ .tableSwitch) := fun {t} _ hdests =>
    ⟨t, by simp [hdests], rfl, .inl (by rw [hdests]; rfl)⟩
  cases hc : c.operands with
  | plain bytes =>
    rw [hc] at hkind
    rw [hkind.1, hkind.2.2] at hswitch
    cases hswitch
  | jump =>
    rw [hc] at hkind
    rw [hkind.2] at hswitch
    cases hswitch
  | table low high =>
    rw [hc] at hcount
    obtain ⟨t, rest, hdests⟩ := List.exists_cons_of_length_eq_add_one hcount
    have hlength : rest.length = keyCount low high := by
      rw [hdests] at hcount
      exact Nat.succ.inj hcount
    refine ⟨_, h.encodes.switchTargets_table hk hc hdests, ?_, fun arm harm n hn => ?_⟩
    · rintro _ (rfl | ⟨arm, harm, rfl⟩)
      · exact hfirst hdests
      obtain ⟨i, hi, rfl⟩ := by simpa using harm
      dsimp only
      split
      · exact hfirst hdests
      · rename_i hne
        refine ⟨rest.getD i 0, ?_, rfl, .inr (.inl fun heq => hne ?_)⟩
        · rw [hdests]
          exact List.mem_cons_of_mem _ (getD_mem (by omega))
        · rw [← List.getD_eq_getElem?_getD, heq]
    · obtain ⟨i, -, rfl⟩ := by simpa using harm
      cases hn
  | lookup literals =>
    rw [hc] at hcount
    obtain ⟨t, rest, hdests⟩ := List.exists_cons_of_length_eq_add_one hcount
    have hlength : rest.length = literals.length := by
      rw [hdests] at hcount
      exact Nat.succ.inj hcount
    have hop : c.op ≠ .tableSwitch := fun heq => by
      have hformat := (hshaped.fits_lookup hc).1
      rw [heq] at hformat
      cases hformat
    obtain ⟨z, hz, -, hrun⟩ := h.run
    obtain ⟨ctx, lab, y, act, next, wide, his⟩ := hrun.action_of_cell (Nat.zero_le k)
      (by rw [hz]; exact (lt_of_getElem? hk)) hk
    have hliterals := his.lookup_literals hc
    refine ⟨_, h.encodes.switchTargets_lookup hk hc (fun n hn => (hliterals n hn).1) hdests, ?_,
      fun arm harm n hn => ?_⟩
    · rintro _ (rfl | ⟨arm, harm, rfl⟩)
      · exact hfirst hdests
      obtain ⟨i, hi, rfl⟩ := by simpa using harm
      refine ⟨rest.getD i 0, ?_, rfl, .inr (.inr hop)⟩
      rw [hdests]
      exact List.mem_cons_of_mem _ (getD_mem (by omega))
    · obtain ⟨i, hi, rfl⟩ := by simpa using harm
      cases hn
      rw [← h.literals_length]
      exact (hliterals _ (getD_mem hi)).2

/-- A compiled unit is well formed. -/
theorem wellFormed : s.WellFormed where
  whole := by
    rw [h.encodes.instructions_eq]
    exact h.encodes.whole
  boundary := by
    obtain ⟨k, c, hk, -⟩ := h.stop
    rw [h.encodes.start]
    exact h.encodes.isTarget (by omega)
  hoisted := fun i hi hlt => by
    rcases h.encodes.instruction_cases hi with ⟨k, c, hk, rfl, -⟩ | ⟨k, c, hk, rfl, hge⟩
    · exact (h.hoisted hk).1.imp And.left And.left
    · omega
  ends := by
    obtain ⟨k, c, hlast, hk, hstop⟩ := h.stop
    have hcell : P.cells[P.cells.length - 1]? = some c := by
      rw [Program.length_cells, ← hlast]
      exact Program.getElem?_cells hk
    rw [h.encodes.instructions_eq, ← List.getLast?_map, map_op_views, List.getLast?_map,
      List.getLast?_eq_getElem?, hcell, Option.map_some, hstop]
  resolved := fun i hi => by
    rcases h.encodes.instruction_cases hi with ⟨k, c, hk, rfl, -⟩ | ⟨k, c, hk, rfl, -⟩
    · rcases (h.hoisted hk).1 with ⟨hop, -⟩ | ⟨hop, -⟩ <;> simp [view, hop]
    · exact (h.encodes.shaped hk).opcode_final (h.sound.final c (List.mem_of_getElem? hk))
  jumps := fun i hi hformat => by
    rcases h.encodes.instruction_cases hi with ⟨k, c, hk, rfl, -⟩ | ⟨k, c, hk, rfl, -⟩
    · rcases (h.hoisted hk).1 with ⟨hop, -⟩ | ⟨hop, -⟩ <;>
        exact absurd hformat (by dsimp only [view]; rw [hop]; decide)
    · have hjump := (h.encodes.shaped hk).operands_jump hformat
      have hcount := (h.encodes.shaped hk).count
      rw [hjump] at hcount
      obtain ⟨t, hdests⟩ := List.length_eq_one_iff.mp hcount
      exact ⟨_, h.encodes.jumpTarget hk hjump hdests, h.isTarget hk (by simp [hdests])⟩
  switches := fun i hi hswitch => by
    rcases h.encodes.instruction_cases hi with ⟨k, c, hk, rfl, -⟩ | ⟨k, c, hk, rfl, -⟩
    · rcases (h.hoisted hk).1 with ⟨hop, -⟩ | ⟨hop, -⟩ <;>
        exact absurd hswitch (by dsimp only [view]; rw [hop]; decide)
    · obtain ⟨targets, hread, hdests, hliterals⟩ := h.switchTargets hk hswitch
      have htarget : ∀ target, (target = targets.fallback ∨ ∃ arm ∈ targets.arms,
          arm.target = target) → s.IsTarget target := fun target hhas => by
        obtain ⟨dest, hdest, rfl, -⟩ := hdests target hhas
        exact h.isTarget hk hdest
      exact ⟨targets, hread, htarget _ (.inl rfl), fun arm harm =>
        ⟨htarget _ (.inr ⟨arm, harm, rfl⟩), hliterals arm harm⟩⟩
  literals := fun i hi hformat => by
    rcases h.encodes.instruction_cases hi with ⟨k, c, hk, rfl, -⟩ | ⟨k, c, hk, rfl, -⟩
    · obtain ⟨⟨-, hlt⟩ | ⟨hop, -⟩, hread⟩ := h.hoisted hk
      · exact ⟨_, hread, h.literals_length ▸ hlt⟩
      · exact absurd hformat (by dsimp only [view]; rw [hop]; decide)
    · obtain ⟨hop, hread⟩ := h.encodes.immediate hk (.inl hformat)
      refine ⟨_, hread, ?_⟩
      rw [← h.literals_length]
      exact h.sound.literal c (List.mem_of_getElem? hk) (hop ▸ hformat)
  functions := fun i hi hformat => by
    rcases h.encodes.instruction_cases hi with ⟨k, c, hk, rfl, -⟩ | ⟨k, c, hk, rfl, -⟩
    · obtain ⟨⟨hop, -⟩ | ⟨-, hlt⟩, hread⟩ := h.hoisted hk
      · exact absurd hformat (by dsimp only [view]; rw [hop]; decide)
      · exact ⟨_, hread, h.functions_length ▸ hlt⟩
    · obtain ⟨hop, hread⟩ := h.encodes.immediate hk (.inr hformat)
      refine ⟨_, hread, ?_⟩
      rw [← h.functions_length]
      exact h.sound.function c (List.mem_of_getElem? hk) (hop ▸ hformat)

end Compiles

/-- Every script that compiles is well formed, and so are all functions in it. -/
theorem compileScript_wellFormed {tree : Tree} {filename : String} {limits : Limits}
    {script s : Script} (h : compileScript tree filename limits = .ok script)
    (hs : script.Contains s) : s.WellFormed := by
  obtain ⟨inFunction, body, P, hcompiles⟩ := compiles_of_contains h hs
  exact hcompiles.wellFormed

/-- A function with `while (true) break;` as its body, as an expression. -/
def Tree.loopInFunction : Tree where
  nodes := #[⟨.bool true, 1⟩, ⟨.breakTo none, 1⟩, ⟨.whileLoop ⟨0⟩ ⟨1⟩, 1⟩,
    ⟨.function ⟨none, [], [⟨2⟩]⟩, 1⟩, ⟨.expression ⟨3⟩, 1⟩]
  body := [⟨4⟩]

theorem compileScript_wellFormed_loopInFunction :
    ∃ script, compileScript .loopInFunction "loop.js" ⟨none, 10⟩ = .ok script ∧
      script.functions.map Script.code = #[#[75, 6, 0, 75, 7, 0, 7, 77, 252, 255, 60]] ∧
      script.WellFormed ∧ ∀ f ∈ script.functions, f.WellFormed := by
  obtain ⟨script, hok, hcode⟩ := exists_ok (x := compileScript .loopInFunction "loop.js" ⟨none, 10⟩)
    (p := fun s => s.functions.map Script.code = #[#[75, 6, 0, 75, 7, 0, 7, 77, 252, 255, 60]])
    (by decide +kernel)
  exact ⟨script, hok, of_decide_eq_true hcode, compileScript_wellFormed hok (.self _),
    fun f hf => compileScript_wellFormed hok (.function hf (.self _))⟩

end ScriptCompiler
