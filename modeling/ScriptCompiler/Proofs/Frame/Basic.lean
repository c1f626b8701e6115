import ScriptCompiler.Generator.Statements
import ScriptCompiler.Proofs.Emission
import Mathlib.Order.Defs.Unbundled

/-!
# What a step leaves alone

A step of emission stops with an answer or with an error, and in both cases it
leaves a generator behind. `Within R` says of a step that its states before and
after are related by `R` whatever comes of it, and that no error it stops with
speaks of the nesting limit. Steps put together from such steps are of this kind
again, so what a construct leaves alone follows from what its parts leave alone.
The facts about parts are instances, and those about sequences and branches are
found from them.
-/

namespace ScriptCompiler

/-- Errors that do not speak of the nesting limit. -/
def Error.Plain (e : Error) : Prop := ∀ limit depth, e ≠ .tooMuchRecursion limit depth

namespace Error

theorem plain_fault (cause : Fault) : (fault cause).Plain := by intro _ _ h; cases h

theorem plain_inconsistent (cause : Inconsistency) : (inconsistent cause).Plain := by
  intro _ _ h; cases h

theorem plain_tooLarge (construct : Option StatementKind) : (tooLarge construct).Plain := by
  intro _ _ h; cases h

/-- A computed answer whose errors do not speak of the nesting limit. -/
class Only {α : Type} (x : Except Error α) : Prop where
  plain : ∀ e, x = .error e → e.Plain

namespace Only

variable {α β : Type} {x y : Except Error α}

instance (a : α) : Only (.ok a) := ⟨fun e h => by cases h⟩

instance (a : α) : Only (pure a : Except Error α) := ⟨fun e h => by cases h⟩

theorem error {e : Error} (h : e.Plain) : Only (.error e : Except Error α) :=
  ⟨fun _ heq => by cases heq; exact h⟩

instance (cause : Fault) : Only (.error (.fault cause) : Except Error α) := error (plain_fault _)

instance (cause : Fault) : Only (throw (.fault cause) : Except Error α) := error (plain_fault _)

instance (cause : Inconsistency) : Only (.error (.inconsistent cause) : Except Error α) :=
  error (plain_inconsistent _)

instance (cause : Inconsistency) : Only (throw (.inconsistent cause) : Except Error α) :=
  error (plain_inconsistent _)

instance (construct : Option StatementKind) :
    Only (.error (.tooLarge construct) : Except Error α) :=
  error (plain_tooLarge _)

instance (a : Option α) : Only (Error.inBounds a) := by
  cases a with
  | none => exact error (plain_fault _)
  | some a => exact inferInstanceAs (Only (.ok a))

instance (cause : Inconsistency) (a : Option α) : Only (Error.orInconsistent cause a) := by
  cases a with
  | none => exact error (plain_inconsistent _)
  | some a => exact inferInstanceAs (Only (.ok a))

/-- One computation after another. -/
theorem go {f : α → Except Error β} [hx : Only x] (hf : ∀ a, Only (f a)) : Only (x >>= f) := by
  cases x with
  | error e => exact error (hx.plain e rfl)
  | ok a => exact hf a

instance {f : α → Except Error β} [Only x] [hf : ∀ a, Only (f a)] : Only (x >>= f) := go hf

instance {c : Prop} [Decidable c] [hx : Only x] [hy : Only y] : Only (if c then x else y) := by
  split
  · exact hx
  · exact hy

instance {f : α → Except Error β} [∀ a, Only (f a)] (as : List α) : Only (as.mapM f) := by
  induction as with
  | nil => exact inferInstanceAs (Only (.ok []))
  | cons a as ih =>
    rw [List.mapM_cons]
    infer_instance

instance {f : α → Except Error β} [∀ a, Only (f a)] (as : Array α) : Only (as.mapM f) := by
  have hlist : Only (as.toList.mapM f) := inferInstance
  rw [Array.mapM_eq_mapM_toList]
  cases hres : as.toList.mapM f with
  | error e => exact error (hlist.plain e hres)
  | ok bs => exact inferInstanceAs (Only (.ok _))

instance {f : β → α → Except Error β} [∀ b a, Only (f b a)] (as : List α) (b : β) :
    Only (as.foldlM f b) := by
  induction as generalizing b with
  | nil => exact inferInstanceAs (Only (.ok b))
  | cons a as ih =>
    rw [List.foldlM_cons]
    infer_instance

end Only

end Error

/-- A change of the generator relates it to the one before. -/
class Changes (R : Generator → Generator → Prop) (f : Generator → Generator) : Prop where
  changes : ∀ g, R g (f g)

namespace Emit

/-- Whatever comes of a step, `R` relates the states before and after it, and an error it stops with
does not speak of the nesting limit. -/
class Within {α : Type} (R : Generator → Generator → Prop) (x : Emit α) : Prop where
  ok : ∀ g a g', x g = .ok a g' → R g g'
  error : ∀ g e g', x g = .error e g' → R g g' ∧ e.Plain

section Combination

variable {α β : Type} {R S : Generator → Generator → Prop} {x y : Emit α}

/-- A failing sequence fails in its first step or behind it. -/
theorem bind_error {f : α → Emit β} {e : Error} {g g'' : Generator} :
    (x >>= f) g = .error e g'' ↔
      x g = .error e g'' ∨ ∃ a g', x g = .ok a g' ∧ f a g' = .error e g'' := by
  simp only [bind, EStateM.bind]
  cases x g with
  | error e s => simp
  | ok a s => simp

namespace Within

theorem mono (h : Within R x) (hR : ∀ g g', R g g' → S g g') : Within S x :=
  ⟨fun g a g' hx => hR g g' (h.ok g a g' hx),
    fun g e g' hx => ⟨hR g g' (h.error g e g' hx).1, (h.error g e g' hx).2⟩⟩

instance {f : Generator → Generator} [hf : Changes R f] : Within R (modify f : Emit Unit) where
  ok g a g' hx := by
    cases hx
    exact hf.changes g
  error g e g' hx := by cases hx

instance {c : Prop} [Decidable c] [hx : Within R x] [hy : Within R y] :
    Within R (if c then x else y) := by
  split
  · exact hx
  · exact hy

variable [IsPreorder Generator R]

/-- One step after another. -/
theorem go {f : α → Emit β} [hx : Within R x] (hf : ∀ a, Within R (f a)) :
    Within R (x >>= f) where
  ok g b g'' h := by
    obtain ⟨a, g', h₁, h₂⟩ := bind_ok.mp h
    exact IsTrans.trans g g' g'' (hx.ok g a g' h₁) ((hf a).ok g' b g'' h₂)
  error g e g'' h := by
    rcases bind_error.mp h with h | ⟨a, g', h₁, h₂⟩
    · exact hx.error g e g'' h
    · obtain ⟨hr, he⟩ := (hf a).error g' e g'' h₂
      exact ⟨IsTrans.trans g g' g'' (hx.ok g a g' h₁) hr, he⟩

instance {f : α → Emit β} [Within R x] [hf : ∀ a, Within R (f a)] : Within R (x >>= f) := go hf

/-- A step that is made or not before the same rest. -/
instance (priority := high) {c : Prop} [Decidable c] {u : Emit PUnit} [Within R u] [hx : Within R x] :
    Within R (if c then u >>= fun _ => x else x) := by
  split
  · exact go fun _ => hx
  · exact hx

instance (a : α) : Within R (pure a : Emit α) where
  ok g b g' h := by
    obtain ⟨-, rfl⟩ := pure_ok.mp h
    exact refl_of R g
  error g e g' h := by cases h

instance : Within R (get : Emit Generator) where
  ok g b g' h := by
    obtain ⟨-, rfl⟩ := get_ok.mp h
    exact refl_of R g
  error g e g' h := by cases h

theorem throw {e : Error} (he : e.Plain) : Within R (MonadExcept.throw e : Emit α) where
  ok g b g' h := by cases h
  error g e g' h := by
    cases h
    exact ⟨refl_of R g, he⟩

instance (cause : Fault) : Within R (MonadExcept.throw (.fault cause) : Emit α) :=
  throw (Error.plain_fault _)

instance : Within R (MonadExcept.throw .outOfMemory : Emit α) := throw fun _ _ h => by cases h

instance : Within R (MonadExcept.throw .tooManyLiterals : Emit α) := throw fun _ _ h => by cases h

instance (cause : Inconsistency) : Within R (Emit.inconsistent cause : Emit α) :=
  throw (Error.plain_inconsistent _)

instance : Within R (Emit.outOfBounds : Emit α) := throw (Error.plain_fault _)

instance : Within R (Emit.tooLarge : Emit α) := go fun _ => throw (Error.plain_tooLarge _)

instance {x : Except Error α} [hx : Error.Only x] : Within R (Emit.lift x) := by
  cases x with
  | ok a => exact inferInstanceAs (Within R (pure a))
  | error e => exact throw (hx.plain e rfl)

instance (x : Except Fault α) : Within R (Emit.liftFault x) := by
  cases x with
  | ok a => exact inferInstanceAs (Within R (pure a))
  | error cause => exact throw (Error.plain_fault cause)

instance : Within R Emit.offset := by rw [Emit.offset]; infer_instance

instance : Within R Emit.stackDepth := by rw [Emit.stackDepth]; infer_instance

end Within

end Combination

end Emit

end ScriptCompiler
