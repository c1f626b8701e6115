import ScriptCompiler.Compile.Statements
import ScriptCompiler.Proofs.Walk.Strand

/-!
# Blocks emit what they are lowered to

Blocks, labeled statements, with statements and blocks with names of their own
open a statement, emit some code in it and close it.
-/

namespace ScriptCompiler

open Bytes Emit

variable {w : Walk} {ps : Parts} {g g' g₁ : Generator} {a : Draft}
  {node : Node} {body : List NodeId} {i : Nat} {bindings : List Binding}

section

variable (hvisits : Visits w.tree ps w.visit) (h : Drafted g a) (hnested : a.nested = nestedIn ps)

include hvisits h hnested

/-- A block without names. -/
theorem Visits.block (hkind : node.kind = .block body) {top : Nat} {g₂ g₃ : Generator}
    (htop : offset g = .ok top g₁) (hpush : pushStatement .block top g₁ = .ok i g₂)
    (hbody : w.children body g₂ = .ok () g₃) (hpop : popStatement g₃ = .ok () g') :
    Lowers w ps node a g' := by
  let opening : Opening := { kind := .block }
  obtain ⟨-, rfl⟩ := h.built.offset_ok htop
  obtain ⟨rfl, s⟩ := (Strand.start h hnested).push hpush (by rintro ⟨⟩)
  obtain ⟨a₁, s, -, hopens₁⟩ := s.reach [opening]
    (hvisits.children [opening] s.drafted s.nested hbody)
  have s := (s.close hopens₁ (Nat.le_refl _) (by rintro ⟨⟩) hpop).1
  exact s.lowers rfl (fun _ _ => by rw [Lowering.node, hkind]; rfl) (fun _ => a.mark)
    fun hctx _ => ⟨placed_one hctx rfl rfl, trivial⟩

/-- A labeled statement. -/
theorem Visits.labeled {label : String} {body : NodeId} (hkind : node.kind = .labeled label body)
    (hok : w.labeled label body g = .ok () g') : Lowers w ps node a g' := by
  simp only [Walk.labeled, bind_ok] at hok
  obtain ⟨literal, g₁, hliteral, _, g₂, hnote, _, g₃, hnop, top, g₄, htop, index, g₅, hpush, _, g₆,
    hset, _, g₇, hbody, hpop⟩ := hok
  let opening : Opening := { kind := .label, label := some label, breaks := 1 }
  obtain ⟨literals, hincl, -, h₀⟩ := h.literalIndex hliteral
  obtain ⟨d, hd, hleads⟩ := (h₀.noted (note1_noted hnote)).op (r := w.setting ps []) hnop (by decide)
  obtain ⟨a₁, s, hfollows₁, hopens₁⟩ :=
    (Strand.start h hnested).reach [] ⟨d, hd, hleads.literals hincl⟩
  obtain ⟨-, rfl⟩ := s.drafted.built.offset_ok htop
  obtain ⟨rfl, s⟩ := s.push hpush (by rintro ⟨⟩)
  let o : Opened := ⟨.label, some label, none, a₁.serial, a₁.main.length⟩
  have s := s.retop (o := o) (s.drafted.setLabel rfl hset)
  obtain ⟨a₂, s, -, hopens₂⟩ := s.child hvisits [opening] hbody
  have s := ((s.here 1).close hopens₂ hfollows₁.serial (by rintro ⟨⟩) hpop).1
  let lab := marks [a.mark, a₂.mark]
  refine s.lowers hopens₁ (fun _ _ => by rw [Lowering.node, hkind]; rfl) lab
    fun {fill ctx} hctx hjumps => ?_
  have hplace : opening.place lab = o.place fill :=
    place_eq rfl rfl rfl (by rintro ⟨⟩) ⟨hjumps.1, by rintro ⟨⟩⟩
  have hctx₁ : ctx.opens = a₁.opens.map (Opened.place fill) := by rw [hctx, hopens₁]
  exact ⟨rfl, placed_one hctx₁ hplace rfl, placed_nil hctx, trivial⟩

/-- A with statement. -/
theorem Visits.withObject {object body : NodeId} (hkind : node.kind = .withObject object body)
    (hok : w.withObject object body g = .ok () g') : Lowers w ps node a g' := by
  simp only [Walk.withObject, bind_ok] at hok
  obtain ⟨_, g₁, hobject, top, g₂, htop, index, g₃, hpush, _, g₄, henter, _, g₅, hbody, _, g₆, hleave,
    hpop⟩ := hok
  let opening : Opening := { kind := .withObject }
  obtain ⟨a₁, s, hfollows₁, hopens₁⟩ := (Strand.start h hnested).child hvisits [] hobject
  obtain ⟨-, rfl⟩ := s.drafted.built.offset_ok htop
  obtain ⟨rfl, s⟩ := s.push hpush (by rintro ⟨⟩)
  obtain ⟨a₂, s, -, hopens₂⟩ := s.reach [opening]
    (((s.drafted.op henter (by decide)).andThen fun h hn =>
      hvisits.child [opening] h (hn.trans s.nested) hbody).andThen fun h _ => h.op hleave (by decide))
  have s := (s.close hopens₂ hfollows₁.serial (by rintro ⟨⟩) hpop).1
  refine s.lowers hopens₁ (fun _ _ => by rw [Lowering.node, hkind]; rfl) (fun _ => a.mark)
    fun {fill ctx} hctx _ => ?_
  have hctx₁ : ctx.opens = a₁.opens.map (Opened.place fill) := by rw [hctx, hopens₁]
  exact ⟨placed_one hctx₁ rfl rfl, placed_nil hctx, trivial⟩

end

/-! ## Blocks with names -/

theorem Drafted.blockCount (h : Drafted g a) {o : Opened} {scope : BlockScope}
    (ho : a.opens[i]? = some o) (hscope : o.scope = some scope) {count : UInt16}
    (hok : Emit.blockCount i g = .ok count g') : count = scope.count ∧ g' = g := by
  simp only [Emit.blockCount, bind_ok, pure_ok] at hok
  obtain ⟨e, _, he, rfl, rfl⟩ := hok
  obtain ⟨he, rfl⟩ := statement_ok he
  have hstated := h.stacked.entries i e o he ho
  rw [hstated.scope, hscope]
  exact ⟨rfl, rfl⟩

/-- The number of slots of a block as a number. -/
theorem BlockScope.count_toNat (s : BlockScope) : s.count.toNat = min s.names.length 65535 := by
  rw [count, UInt16.toNat_ofNat', Nat.mod_eq_of_lt (by omega)]

/-- The top of the stack becomes the value of a name that is bound around. -/
theorem Drafted.bindName (h : Drafted g a) {r : Setting} {name : String} (cause : Inconsistency)
    {i : Option UInt16} (hlookup : Walk.localSlot name g = .ok i g₁)
    (hok : (match i with
      | none => inconsistent cause
      | some slot => Walk.u16Op .setLocalPop slot) g₁ = .ok () g') :
    Reaches r [.access r.openings .setLocalPop none name] a g' := by
  obtain ⟨rfl, hctx⟩ := h.localSlot hlookup
  cases i with
  | none => exact absurd hok (by simp)
  | some slot => exact h.emits_slot hctx hok (by decide)

/-- The initial values of the names of a block. -/
theorem Visits.letInits (hvisits : Visits w.tree ps w.visit) (openings : List Opening)
    (h : Drafted g a) (hnested : a.nested = nestedIn ps) (hok : w.letInits bindings g = .ok () g') :
    Reaches (w.setting ps openings) (bindings.flatMap fun binding =>
      (binding.init.map fun init =>
        [.child openings init, .access openings .setLocalPop none binding.name]).getD []) a g' := by
  induction bindings generalizing g a with
  | nil =>
    obtain ⟨-, rfl⟩ := pure_ok.mp hok
    exact ⟨a, h, .nil a⟩
  | cons binding bindings ih =>
    simp only [Walk.letInits] at hok
    rw [List.flatMap_cons]
    cases hinit : binding.init with
    | none =>
      rw [hinit] at hok
      exact ih h hnested hok
    | some init =>
      rw [hinit] at hok
      simp only [bind_ok] at hok
      obtain ⟨_, g₁, hchild, i, g₂, hlookup, hok⟩ := hok
      obtain ⟨a₁, h₁, hleads₁⟩ := hvisits.child openings h hnested hchild
      have hnested₁ := hleads₁.grown.nested.trans hnested
      cases i with
      | none => exact absurd hok (by simp)
      | some slot =>
        simp only [bind_ok] at hok
        obtain ⟨_, g₃, hset, hrest⟩ := hok
        obtain ⟨a₂, h₂, hleads₂⟩ := h₁.bindName (r := w.setting ps openings) .letBinding hlookup hset
        obtain ⟨a₃, h₃, hleads₃⟩ := ih h₂ (hleads₂.grown.nested.trans hnested₁) hrest
        exact ⟨a₃, h₃, (hleads₁.append hleads₂).append hleads₃⟩

/-- A block with names of its own. -/
theorem Visits.letBlock (hvisits : Visits w.tree ps w.visit) (h : Drafted g a)
    (hnested : a.nested = nestedIn ps) (hkind : node.kind = .letBlock bindings body)
    (hok : w.letBlock bindings body g = .ok () g') : Lowers w ps node a g' := by
  simp only [Walk.letBlock, bind_ok] at hok
  obtain ⟨top, g₁, htop, index, g₂, hpush, count, g₃, hcount, _, g₄, henter, _, g₅, hinits, _, g₆,
    hbody, _, g₇, hleave, hpop⟩ := hok
  let names := bindings.map Binding.name
  let opening : Opening := { kind := .block, names := some names }
  obtain ⟨-, rfl⟩ := h.built.offset_ok htop
  obtain ⟨rfl, s⟩ := ((Strand.start (w := w) h hnested).here 0).pushBlock hpush rfl
  obtain ⟨rfl, rfl⟩ := s.drafted.blockCount (List.getElem?_concat_length) rfl hcount
  obtain ⟨a₁, s, -, hopens₁⟩ := s.reach [opening] ((((s.drafted.emits_enterBlock henter).andThen fun h hn =>
    hvisits.letInits [opening] h (hn.trans s.nested) hinits).andThen fun h hn =>
    hvisits.children [opening] h (hn.trans s.nested) hbody).andThen fun h _ =>
    h.emits_simple hleave ⟨rfl, rfl, rfl, by decide, by decide⟩)
  have s := (s.close hopens₁ (Nat.le_refl _) (by rintro ⟨⟩) hpop).1
  have hcount : (BlockScope.count ⟨a.depth.depth.toNat, names⟩).toNat = min bindings.length 65535 := by
    rw [BlockScope.count_toNat, List.length_map]
  refine s.lowers rfl (fun _ _ => ?_) (fun _ => a.mark) fun hctx _ =>
    ⟨placed_one hctx rfl rfl, rfl, trivial⟩
  rw [Lowering.node, hkind]
  simp [Lowering.letBlock, Lowering.counted, hcount, opening, names]

end ScriptCompiler
