import ScriptCompiler.Proofs.Draft.Progress
import ScriptCompiler.Proofs.Draft.Resolution
import ScriptCompiler.Proofs.Lowering.Labels

/-!
# First and last drafts

A unit starts as an empty draft. A draft whose holes are all filled is a
program. Behind a statement of the top level no jump waits for a destination,
because nothing that the statement is lowered to leads out of it.
-/

namespace ScriptCompiler

open Bytes Emit

variable {k : Nat} {c : Cell Hole} {fill : Hole → Nat}

namespace Draft

/-- A unit without code. -/
def empty (nested : Script → Prop) : Draft where
  main := []
  filled := fun _ => none
  settled := 0
  prolog := []
  depth := .empty
  opens := []
  serial := 0
  literals := []
  functions := []
  regions := []
  nested := nested
  quiet := True

theorem not_mem_main_empty {nested : Script → Prop} : ¬ (empty nested).main[k]? = some c := by
  simp [empty]

theorem sound_empty (nested : Script → Prop) : (empty nested).Sound where
  cells := fun _ _ hk => absurd hk not_mem_main_empty
  used := fun _ _ hk => absurd hk not_mem_main_empty
  fresh := fun _ _ => rfl
  targets := fun _ _ ht => by cases ht
  literals := fun _ _ _ hn => by cases hn
  serials := fun _ ho => absurd ho List.not_mem_nil
  distinct := List.nodup_nil
  updates := fun _ ho => absurd ho List.not_mem_nil
  pending := fun _ _ hk => absurd hk not_mem_main_empty
  unfilled := fun _ ho => absurd ho List.not_mem_nil
  settled := fun _ _ hk => absurd hk not_mem_main_empty
  regions := fun _ hr => absurd hr List.not_mem_nil
  high := Nat.le_refl 0
  prolog := fun _ hc => absurd hc List.not_mem_nil
  nested := fun _ hs => absurd hs List.not_mem_nil

/-- A generator that has emitted nothing holds the empty draft. -/
theorem drafted_empty (filename : String) (line : UInt32) (limits : Limits) (levelBase : Nat)
    (nested : Script → Prop) :
    Drafted { Generator.new filename line limits with levelBase } (empty nested) := by
  have hcode : Codes #[] SpanTable.empty 0 [] :=
    ⟨Nat.le_refl _, rfl, rfl, fun _ _ hk => by simp at hk, fun _ _ hk => by simp at hk, rfl,
      TargetIndex.sound_empty⟩
  have hno : ∀ {α : Type} {i : Nat} {x : α}, ¬ (#[] : Array α)[i]? = some x := by simp
  refine ⟨⟨sound_empty nested, rfl, hcode, rfl, rfl, rfl, fun literal i hi => ?_, rfl, rfl,
    fun i r e hr => absurd hr hno, fun _ => rfl⟩, ⟨rfl, fun i e o he => absurd he hno, rfl,
    fun i e he => absurd he hno⟩⟩
  simp [Generator.new, LiteralTable.empty] at hi

/-- The program that a draft is when its holes are filled. -/
def program (a : Draft) (fill : Hole → Nat) : Program where
  main := a.main.mapIdx fun k c => c.closed fill k
  prolog := a.prolog
  literals := a.literals
  functions := a.functions
  regions := a.regions
  high := a.depth.high

variable {a a' : Draft}

theorem getElem?_program (hk : a.main[k]? = some c) :
    (a.program fill).main[k]? = some (c.closed fill k) := by
  simp [program, hk]

theorem fills_program (h : ∀ hole t, a.filled hole = some t → fill hole = t) :
    Fills fill (a.program fill) 0 a where
  filled := h
  main := fun _ c _ hk => ⟨c.wide, getElem?_program hk⟩
  prolog := List.Subset.refl _
  literals := List.prefix_rfl
  functions := List.prefix_rfl
  regions := List.prefix_rfl
  high := Nat.le_refl _

end Draft

/-- Behind statements of the top level no jump waits for a destination. -/
theorem Leads.closed {t : Tree} {ps : Parts} {inFunction : Bool}
    {ids : List NodeId} {a a' : Draft} (h : Emits ⟨t, ps, inFunction, []⟩ (ids.map Lowering.part) a a')
    (hclosed : a.Closed) (hopens : a.opens = []) : a'.Closed := by
  -- An unfilled hole is taken to lead beyond the code, where no run leads.
  let fill : Hole → Nat := fun hole => (a'.filled hole).getD (a'.main.length + 1)
  have hfills : Fills fill (a'.program fill) 0 a' :=
    Draft.fills_program fun hole t ht => by simp [fill, ht]
  have hrun : Run t (a'.program fill) ps ⟨inFunction, []⟩ (fun _ => a.mark) (ids.map Lowering.part)
      a.mark a'.mark := h.run (Nat.zero_le _) hfills rfl (by simp [Ctx.enter, hopens])
  intro k c hk hole hmem
  have hlt : k < a'.main.length := lt_of_getElem? hk
  rcases Nat.lt_or_ge k a.main.length with hold | hnew
  · obtain ⟨c', hc'⟩ : ∃ c', a.main[k]? = some c' := ⟨_, List.getElem?_eq_getElem hold⟩
    obtain rfl := Option.some.inj ((h.grown.main k c' hc').symm.trans hk)
    obtain ⟨t, hle, ht⟩ := hclosed k c' hc' hole hmem
    exact ⟨t, Nat.le_trans hle h.grown.length, h.grown.filled hole t ht⟩
  · have hparts : ∀ act ∈ ids.map Lowering.part, act.labels = [] ∧ act.target? = none := by
      intro act hact
      obtain ⟨id, -, rfl⟩ := List.mem_map.mp hact
      exact ⟨rfl, rfl⟩
    have hle := hrun.dests_le (Nat.le_refl a'.main.length) (by rintro _ ⟨⟩)
      (fun act hact label hlabel => by rw [(hparts act hact).1] at hlabel; cases hlabel)
      (fun act hact target htarget => by rw [(hparts act hact).2] at htarget; cases htarget)
      hnew hlt (Draft.getElem?_program hk) (fill hole) (List.mem_map_of_mem hmem)
    cases hfilled : a'.filled hole with
    | none =>
      have : fill hole = a'.main.length + 1 := by simp [fill, hfilled]
      omega
    | some t => exact ⟨t, by simpa [fill, hfilled] using hle, rfl⟩

end ScriptCompiler
