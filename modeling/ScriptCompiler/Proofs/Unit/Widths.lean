import ScriptCompiler.Proofs.Layout.Ascending
import ScriptCompiler.Proofs.Unit.WellFormed

/-!
# Widths of jumps

Widening arrives at the smallest set of wide sites that leaves every other site
in range, whatever table of spans it starts from. What a unit resolves earlier
stays resolved and what it resolves later moves nothing in front of it, so a
finished script has a wide jump or switch only where an offset needs it.
-/

namespace ScriptCompiler

open Bytes

/-- The offsets of an instruction lead to instructions, and it is wide exactly if one of them does not
fit 16 bits. -/
structure Sized (code : Bytes) (i : Instruction) : Prop where
  leads : ∀ field ∈ i.fields, ∃ z, offsetIn? code i.op field = some z ∧
    ∃ j ∈ instructions code, (j.pc : Int) = i.pc + z
  wide : i.op.isWide = true ↔
    ∃ field ∈ i.fields, ∃ z, offsetIn? code i.op field = some z ∧ fits16 z = false

namespace Compiles

variable {tree : Tree} {inFunction : Bool} {body : List NodeId} {s : Script} {P : Program}

/-- The offset number `i` of a cell as it is read from the script. -/
theorem offsetIn? (h : Compiles tree inFunction body s P) {k : Nat} {c : Cell Nat}
    (hk : P.main[k]? = some c) {i d : Nat} (hd : c.dests[i]? = some d) :
    ScriptCompiler.offsetIn? s.code c.opcode (c.field (P.offset k) i) =
      some ((P.offset d : Int) - P.offset k) := by
  have hshaped := h.encodes.shaped hk
  have hi : i < c.operands.arms := by
    rw [← hshaped.count]
    exact lt_of_getElem? hd
  have hdirect := h.encodes.offsets k c hk i d hd
  rw [ScriptCompiler.offsetIn?, hshaped.isWide (by omega)]
  cases hwide : c.wide with
  | true =>
    rw [hwide] at hdirect
    exact hdirect.holds.i32? hdirect.fits
  | false =>
    rw [hwide] at hdirect
    exact hdirect.holds.i16? hdirect.fits

/-- A field of a cell belongs to one of its destinations. -/
theorem exists_dest (h : Compiles tree inFunction body s P) {k : Nat} {c : Cell Nat}
    (hk : P.main[k]? = some c) {field : Nat} (hf : field ∈ (c.view (P.offset k)).fields) :
    ∃ i d, c.dests[i]? = some d ∧ field = c.field (P.offset k) i := by
  have hshaped := h.encodes.shaped hk
  rw [hshaped.view_fields] at hf
  obtain ⟨i, hi, rfl⟩ := List.mem_map.mp hf
  have hlt : i < c.dests.length := by
    rw [hshaped.count]
    exact List.mem_range.mp hi
  exact ⟨i, _, List.getElem?_eq_getElem hlt, rfl⟩

/-- Jumps and switches are as wide as their offsets need. -/
theorem sized (h : Compiles tree inFunction body s P) : ∀ i ∈ instructions s.code, Sized s.code i := by
  intro i hi
  rcases h.encodes.instruction_cases hi with ⟨k, c, hk, rfl, -⟩ | ⟨k, c, hk, rfl, -⟩
  · -- a hoisted declaration has no offsets
    have hplain : (c.view (position P.cells k)).op.format.jumpLen = none := by
      rcases (h.hoisted hk).1 with ⟨hop, -⟩ | ⟨hop, -⟩ <;> dsimp only [Cell.view] <;> rw [hop] <;> rfl
    have hnone := Instruction.fields_plain hplain
    refine ⟨by rw [hnone]; simp, ?_⟩
    rw [hnone, Opcode.isWide, hplain]
    simp
  · have hshaped := h.encodes.shaped hk
    refine ⟨fun field hf => ?_, fun hwide => ?_, fun hlarge => ?_⟩
    · obtain ⟨i, d, hd, rfl⟩ := h.exists_dest hk hf
      refine ⟨_, h.offsetIn? hk hd, ?_⟩
      have hlt := h.dests k c hk d (List.mem_of_getElem? hd)
      refine ⟨_, h.encodes.instruction (List.getElem?_eq_getElem hlt), ?_⟩
      show (P.offset d : Int) = P.offset k + ((P.offset d : Int) - P.offset k)
      omega
    · have hcell : c.wide := by
        by_contra hnarrow
        have hop : c.opcode.isWide = false := hshaped.isWide_eq_false (by simpa using hnarrow)
        rw [show (c.view (P.offset k)).op = c.opcode from rfl, hop] at hwide
        cases hwide
      obtain ⟨d, hd, hlarge⟩ := h.tight k c hk hcell
      obtain ⟨i, hi⟩ := List.mem_iff_getElem?.mp hd
      refine ⟨c.field (P.offset k) i, ?_, _, h.offsetIn? hk hi, hlarge⟩
      rw [hshaped.view_fields]
      refine List.mem_map_of_mem (List.mem_range.mpr ?_)
      rw [← hshaped.count]
      exact lt_of_getElem? hi
    · obtain ⟨field, hf, z, hz, hlarge⟩ := hlarge
      by_contra hnarrow
      rw [ScriptCompiler.offsetIn?, if_neg hnarrow] at hz
      obtain ⟨hfits, -⟩ := holds_of_i16? hz
      rw [hlarge] at hfits
      cases hfits

end Compiles

/-- Widening is exact and minimal. Whatever table of spans it succeeds on and however many passes it
is allowed, it stops after at most one pass more than there are sites, and the promoted sites are the
least set that leaves every other site in range. Hence in a compiled script a jump or switch is wide
exactly if it has to be. -/
theorem widening_least :
    (∀ (code : Bytes) (t : SpanTable) (tooLarge : Error) (sites : List Site) (allowed : Nat)
        (layout : Layout),
      t.Ascends code → Layout.sitesOf code t.spans = .ok sites →
      Layout.settle tooLarge sites t.targets 0 0 allowed = .ok layout →
      layout.passes ≤ sites.length + 1 ∧
      Layout.widen tooLarge sites t.targets = .ok layout ∧
      (∀ fuel > sites.length, Layout.settle tooLarge sites t.targets 0 0 fuel = .ok layout) ∧
      ∃ wide, Layout.Describes sites t.targets wide layout ∧
        (∀ site ∈ layout.sites, site.op.isWide = wide site.top) ∧
        Layout.Settles sites t.targets wide ∧
        ∀ other, Layout.Settles sites t.targets other →
          ∀ site ∈ sites, wide site.top = true → other site.top = true) ∧
    ∀ (tree : Tree) (filename : String) (limits : Limits) (script s : Script),
      compileScript tree filename limits = .ok script → script.Contains s →
      ∀ i ∈ instructions s.code, Sized s.code i := by
  constructor
  · intro code t tooLarge sites allowed layout hascends hsites hsettle
    have hs := hascends.toSites hsites
    have hplace := SpanTable.Ascends.unmoved hsites
    obtain ⟨wide, hdescribes, hsettles, hsteps, hpasses⟩ := Layout.settle_unmoved hs hplace hsettle
    have hwiden : Layout.widen tooLarge sites t.targets = .ok layout := by
      rw [← Layout.settle_eq_widen hs hplace t.targets tooLarge
        (Nat.lt_of_lt_of_le (Nat.lt_succ_self _) (Nat.le_max_right allowed (sites.length + 1)))]
      exact Layout.settle_mono hsettle (Nat.le_max_left _ _)
    refine ⟨hpasses, hwiden, fun fuel hfuel => ?_, wide, hdescribes, fun site hsite => ?_, hsettles,
      fun other hother => Layout.steps_least hsteps hother⟩
    · rw [Layout.settle_eq_widen hs hplace t.targets tooLarge hfuel, hwiden]
    · rw [hdescribes.placed] at hsite
      obtain ⟨site, hmem, rfl⟩ := List.mem_map.mp hsite
      exact Layout.isWide_placeSite hs.narrow hdescribes.promotable hmem _
  · intro tree filename limits script s hcompile hs
    obtain ⟨inFunction, body, P, hcompiles⟩ := compiles_of_contains hcompile hs
    exact hcompiles.sized

/-- Two jumps. The first one just reaches its target as long as the second one is narrow. -/
def SpanTable.pushedOut : SpanTable where
  spans := #[⟨0, 1, .target 0⟩, ⟨3, 4, .target 1⟩]
  targets := ((TargetIndex.empty.insert 32767).1.insert 32771).1
  active := true
  todo := 0

/-- Their code. -/
def SpanTable.pushedOutCode : Bytes := #[Opcode.goto.toByte, 0, 0, Opcode.goto.toByte, 1, 0]

/-- Their sites. -/
def SpanTable.pushedOutSites : List Site :=
  [⟨0, .goto, [⟨1, 1, .target 0⟩]⟩, ⟨3, .goto, [⟨4, 4, .target 1⟩]⟩]

theorem SpanTable.sitesOf_pushedOut :
    Layout.sitesOf SpanTable.pushedOutCode SpanTable.pushedOut.spans =
      .ok SpanTable.pushedOutSites := rfl

theorem SpanTable.pushedOut_ascends : SpanTable.pushedOut.Ascends SpanTable.pushedOutCode := by
  refine ⟨by decide, by decide, fun span hspan op hop => ?_⟩
  have hgoto : ∀ span ∈ SpanTable.pushedOut.spans.toList,
      opcodeAt? SpanTable.pushedOutCode span.top = some .goto := by decide
  rw [hgoto span hspan] at hop
  cases hop
  rfl

/-- The second jump is widened in the first pass, which makes the second pass widen the first one. The
third pass has nothing to do. -/
theorem widening_least_pushedOut :
    SpanTable.pushedOut.Ascends SpanTable.pushedOutCode ∧
    Layout.sitesOf SpanTable.pushedOutCode SpanTable.pushedOut.spans =
      .ok SpanTable.pushedOutSites ∧
    (∃ layout, Layout.widen (.tooLarge none) SpanTable.pushedOutSites SpanTable.pushedOut.targets =
        .ok layout ∧
      layout.passes = 3 ∧ layout.sites.map Site.op = [.gotoX, .gotoX] ∧
      ∀ other, Layout.Settles SpanTable.pushedOutSites SpanTable.pushedOut.targets other →
        other 0 = true ∧ other 3 = true) ∧
    ∃ script, compileScript .loopInFunction "loop.js" ⟨none, 10⟩ = .ok script ∧
      ∀ f ∈ script.functions, ∀ i ∈ instructions f.code, Sized f.code i := by
  refine ⟨SpanTable.pushedOut_ascends, SpanTable.sitesOf_pushedOut, ?_, ?_⟩
  · obtain ⟨layout, hok, hlayout⟩ := exists_ok (x := Layout.widen (.tooLarge none)
        SpanTable.pushedOutSites SpanTable.pushedOut.targets)
      (p := fun l => l.passes = 3 ∧ l.sites.map Site.op = [.gotoX, .gotoX] ∧
        l.sites.map (fun site => (site.top, site.op.isWide)) = [(0, true), (3, true)])
      (by decide +kernel)
    obtain ⟨hpasses, hops, hwide⟩ := of_decide_eq_true hlayout
    obtain ⟨-, -, -, wide, -, hpromoted, -, hleast⟩ := widening_least.1 _ _ _ _ _ _
      SpanTable.pushedOut_ascends SpanTable.sitesOf_pushedOut hok
    have hboth : ∀ top ∈ [0, 3], wide top = true := by
      have hmap : layout.sites.map (fun site => (site.top, site.op.isWide)) =
          layout.sites.map fun site => (site.top, wide site.top) :=
        List.map_congr_left fun site hs => by rw [hpromoted site hs]
      rw [hwide] at hmap
      intro top htop
      have hmem : (top, true) ∈ [(0, true), (3, true)] := by
        rcases List.mem_cons.mp htop with rfl | htop
        · simp
        · simp [List.mem_singleton.mp htop]
      rw [hmap] at hmem
      obtain ⟨site, -, heq⟩ := List.mem_map.mp hmem
      obtain ⟨rfl, hw⟩ := Prod.mk.inj heq
      exact hw
    refine ⟨layout, hok, hpasses, hops, fun other hother => ⟨?_, ?_⟩⟩
    · exact hleast other hother ⟨0, .goto, [⟨1, 1, .target 0⟩]⟩ (by simp [SpanTable.pushedOutSites])
        (hboth 0 (by simp))
    · exact hleast other hother ⟨3, .goto, [⟨4, 4, .target 1⟩]⟩ (by simp [SpanTable.pushedOutSites])
        (hboth 3 (by simp))
  · obtain ⟨script, hok, -⟩ := exists_ok (x := compileScript .loopInFunction "loop.js" ⟨none, 10⟩)
      (p := fun s => s.functions.size = 1) (by decide +kernel)
    exact ⟨script, hok, fun f hf => widening_least.2 _ _ _ _ _ hok (.function hf (.self _))⟩

end ScriptCompiler
