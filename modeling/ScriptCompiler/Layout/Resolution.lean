import ScriptCompiler.Generator.State
import ScriptCompiler.Layout.Relocation
import ScriptCompiler.Layout.SideTables

/-!
# Resolving the spans of a generator

Resolution settles which jumps are wide, moves the code and lets notes and
regions follow. Afterwards the table of spans is off again and what has been
emitted so far never moves any more.
-/

namespace ScriptCompiler

namespace Emit

/-- Settle all spans since the last resolution; nothing is done while the table is off. -/
def resolveSpans : Emit Unit := do
  let g ← get
  if !g.spans.active then return
  let tooLarge := g.tooLarge
  let sites ← lift (Layout.sitesOf g.main.code g.spans.spans)
  let layout ← lift (Layout.widen tooLarge sites g.spans.targets)
  let code ← lift (layout.relocate tooLarge g.main.code)
  modify fun g => { g with main := { g.main with code := code } }
  if 0 < layout.growth then
    let d : Layout.Displacement := ⟨layout.arms, layout.growth⟩
    let (notes, grown) ← lift (Layout.fixNotes tooLarge d g.main.notes)
    let regions ← lift (g.regions.mapM (Layout.fixRegion tooLarge d))
    modify fun g => { g with
      main := { g.main with notes, lastNoteOffset := g.main.lastNoteOffset + grown }
      regions := regions }
  modify fun g => { g with spans := g.spans.reset g.main.code.size }

end Emit

end ScriptCompiler
