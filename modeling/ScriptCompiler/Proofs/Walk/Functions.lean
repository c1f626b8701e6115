import ScriptCompiler.Proofs.Draft.Hoisting
import ScriptCompiler.Proofs.Walk.Basic

/-!
# Functions in functions

A nested function is a unit of its own, which shares nothing with the unit
around it but the file, the limits and the nesting level. What is known of its
script stays a parameter here.
-/

namespace ScriptCompiler

open Bytes Emit

variable {f : Function} {line : UInt32} {i : UInt16}

/-- A number stands for a declaration of a function, or for one in an expression. -/
def Tree.FunctionAt (t : Tree) (id : NodeId) (f : Function) : Prop :=
  ∃ node, t.get? id = some node ∧ (node.kind = .functionDecl f ∨ node.kind = .function f)

/-- A node of the tree is the function, as a declaration or as a value. -/
def Tree.HasFunction (t : Tree) (f : Function) : Prop := ∃ id, t.FunctionAt id f

/-- The scripts of nested functions are what they are known to be. -/
def Nests (w : Walk) (ps : Parts) : Prop :=
  ∀ {f : Function} {line : UInt32} {g g' : Generator} {script : Script},
    w.tree.HasFunction f → w.functionBody f (g.child line) = .ok script g' → ps.function f line script

variable {w : Walk} {ps : Parts} {g g' : Generator} {a : Draft}

theorem Draft.grown_functions (n s : Nat) (script : Script) :
    Grown n s a { a with functions := a.functions ++ [script] } :=
  { Grown.refl n s a with functions := List.prefix_append _ _ }

variable (hnests : Nests w ps) (h : Drafted g a) (hnested : a.nested = nestedIn ps)
  (hf : w.tree.HasFunction f)

include hnests h hnested hf

/-- A function is compiled and kept. -/
theorem Nests.function (hok : w.function f line g = .ok i g') :
    ∃ script, ps.function f line script ∧ (a.functions ++ [script])[i.toNat]? = some script ∧
      Drafted g' { a with functions := a.functions ++ [script] } := by
  rw [Walk.function] at hok
  split at hok
  · rename_i script g₁ hbody
    have hscript : ps.function f line script := hnests hf hbody
    have hkept : a.nested script := by
      rw [hnested]
      exact ⟨f, line, hscript⟩
    exact ⟨script, hscript, h.addFunction hkept hok⟩
  · cases hok

/-- A function as a value. -/
theorem Nests.lambda {g₁ : Generator} (hfunction : w.function f line g = .ok i g₁)
    (hok : Walk.u16Op .lambda i g₁ = .ok () g') :
    Reaches (w.setting ps []) [.lambda f line] a g' := by
  obtain ⟨script, hscript, hget, h₁⟩ := hnests.function h hnested hf hfunction
  simp only [Walk.u16Op, bind_ok, pure_ok] at hok
  obtain ⟨pc, _, hop, -, rfl⟩ := hok
  let b : Draft := { a with functions := a.functions ++ [script] }
  have hlt : (Operands.plain (le16 i.toNat).toList).immediate < b.functions.length := by
    rw [immediate_le16_toNat]
    exact lt_of_getElem? hget
  obtain ⟨-, h₂⟩ := h₁.instruction hop b.frame rfl rfl rfl (by rintro ⟨⟩) fun _ => hlt
  have hemits : Emits (w.setting ps []) [.lambda f line] b (b.emit (.plain .lambda _ b.frame)) :=
    .of_plain h₁.built.sound rfl rfl fun hfills _ =>
      ⟨rfl, i.toNat, script, i.toNat_lt, hfills.function hget, hscript, rfl⟩
  exact ⟨_, h₂, (Draft.grown_functions _ _ _).trans hemits.grown, hemits.opens, hemits.run⟩

/-- A function declaration. -/
theorem Nests.functionDecl (hok : w.functionDecl f line g = .ok () g') :
    Reaches (w.setting ps []) [.define f line] a g' := by
  simp only [Walk.functionDecl, bind_ok] at hok
  obtain ⟨i, g₁, hfunction, hprolog⟩ := hok
  obtain ⟨script, hscript, hget, h₁⟩ := hnests.function h hnested hf hfunction
  obtain ⟨g₂, hstep, rfl⟩ := inProlog_ok hprolog
  simp only [bind_ok] at hstep
  obtain ⟨n, g₃, hnote, hop⟩ := hstep
  obtain ⟨h₃, hcurrent⟩ := h₁.noted_prolog (note1_noted hnote)
  simp only [Walk.u16Op, bind_ok, pure_ok] at hop
  obtain ⟨pc, _, hop, -, rfl⟩ := hop
  let b : Draft := { a with functions := a.functions ++ [script] }
  have hi : i.toNat < b.functions.length := lt_of_getElem? hget
  let d : Draft := b.hoisted (.plain .defFun (le16 i.toNat).toList ⟨0⟩)
  have hsame : g₃ = { { g₃ with current := .main } with current := .prolog } := by
    rw [← hcurrent]
  rw [hsame] at hop
  have h' : Drafted _ d := h₃.hoist (by decide) ⟨i.toNat, i.toNat_lt, .inr ⟨hi, rfl⟩⟩ hop
  have hmark : d.mark = a.mark.hoisted := Draft.mark_hoisted _
  refine ⟨d, h', (Draft.grown_functions _ _ _).trans (Draft.grown_hoisted _ _ _), rfl,
    fun hn hfills hin hplaced => ?_⟩
  have hmem := hfills.prolog (List.mem_append_right _ (List.mem_singleton.mpr rfl))
  refine .define i.toNat_lt (hfills.function hget) hscript hmem ?_
  rw [hmark]
  exact .nil _

end ScriptCompiler
