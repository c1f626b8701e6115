import ScriptCompiler.Generator.State
import Mathlib.Data.List.Basic

/-!
# Successful steps

A computation that succeeds is taken apart into the steps it is made of. The
lemmas here turn "this sequence of steps has ended well" into what each step has
answered and the states in between.
-/

namespace ScriptCompiler

variable {e : Error} {cause : Inconsistency} {x : Emit Unit}

/-- Two computed answers one after the other. -/
theorem except_bind_ok {ε α β : Type} {x : Except ε α} {f : α → Except ε β} {b : β} :
    x >>= f = .ok b ↔ ∃ a, x = .ok a ∧ f a = .ok b := by
  cases x with
  | error e => simp [bind, Except.bind]
  | ok a => simp [bind, Except.bind]

namespace Emit

variable {α β : Type} {g g' g'' : Generator}

/-- Two steps one after the other. -/
@[simp] theorem bind_ok {x : Emit α} {f : α → Emit β} {b : β} :
    (x >>= f) g = .ok b g'' ↔ ∃ a g', x g = .ok a g' ∧ f a g' = .ok b g'' := by
  simp only [bind, EStateM.bind]
  cases x g with
  | error e s => simp
  | ok a s => simp

/-- A sequence goes on behind a first step that succeeds. -/
theorem bind_of_ok {x : Emit α} {f : α → Emit β} {a : α} (h : x g = .ok a g') :
    (x >>= f) g = f a g' := by
  simp only [bind, EStateM.bind, h]

/-- What follows a step only matters where the step leads to. -/
theorem bind_congr {x : Emit α} {f k : α → Emit β}
    (h : ∀ a g', x g = .ok a g' → f a g' = k a g') : (x >>= f) g = (x >>= k) g := by
  simp only [bind, EStateM.bind]
  cases hx : x g with
  | error e s => rfl
  | ok a s => exact h a s hx

theorem bind_congr_left {x y : Emit α} {f : α → Emit β} (h : x g = y g) :
    (x >>= f) g = (y >>= f) g := by
  simp only [bind, EStateM.bind, h]

@[simp] theorem map_ok {x : Emit α} {f : α → β} {b : β} :
    (f <$> x) g = .ok b g' ↔ ∃ a, x g = .ok a g' ∧ f a = b := by
  simp only [Functor.map, EStateM.map]
  cases x g with
  | error e s => simp
  | ok a s => simp [and_comm]

@[simp] theorem pure_ok {a b : α} : (pure a : Emit α) g = .ok b g' ↔ a = b ∧ g = g' := by
  have hpure : (pure a : Emit α) g = .ok a g := rfl
  rw [hpure, EStateM.Result.ok.injEq]

@[simp] theorem get_ok {s : Generator} : (get : Emit Generator) g = .ok s g' ↔ g = s ∧ g = g' := by
  have hget : (get : Emit Generator) g = .ok g g := rfl
  rw [hget, EStateM.Result.ok.injEq]

@[simp] theorem modify_ok {f : Generator → Generator} {u : Unit} :
    (modify f : Emit Unit) g = .ok u g' ↔ f g = g' := by
  have hmodify : (modify f : Emit Unit) g = .ok () (f g) := rfl
  rw [hmodify, EStateM.Result.ok.injEq]
  simp

@[simp] theorem throw_ok {a : α} : (throw e : Emit α) g = .ok a g' ↔ False := by
  have hthrow : (throw e : Emit α) g = .error e g := rfl
  simp [hthrow]

@[simp] theorem lift_ok {x : Except Error α} {a : α} : lift x g = .ok a g' ↔ x = .ok a ∧ g = g' := by
  cases x with
  | error e => simp [lift, throw_ok]
  | ok b => simp [lift, pure_ok]

@[simp] theorem liftFault_ok {x : Except Fault α} {a : α} :
    liftFault x g = .ok a g' ↔ x = .ok a ∧ g = g' := by
  cases x with
  | error e => simp [liftFault, throw_ok]
  | ok b => simp [liftFault, pure_ok]

@[simp] theorem inconsistent_ok {a : α} :
    (inconsistent cause : Emit α) g = .ok a g' ↔ False := throw_ok

@[simp] theorem outOfBounds_ok {a : α} : (outOfBounds : Emit α) g = .ok a g' ↔ False := throw_ok

@[simp] theorem tooLarge_ok {a : α} : (tooLarge : Emit α) g = .ok a g' ↔ False := by
  simp [tooLarge, bind_ok, throw_ok]

/-! Steps whose answer is known right away. -/

@[simp] theorem get_bind {f : Generator → Emit β} : (get >>= f) g = f g g := rfl

@[simp] theorem modify_bind {h : Generator → Generator} {f : Unit → Emit β} :
    (modify h >>= f) g = f () (h g) := rfl

theorem lift_bind {a : α} {f : α → Emit β} : (lift (.ok a) >>= f) g = f a g := rfl

@[simp] theorem lift_bind_ok {x : Except Error α} {f : α → Emit β} {b : β} :
    (lift x >>= f) g = .ok b g' ↔ ∃ a, x = .ok a ∧ f a g = .ok b g' := by
  simp only [bind_ok, lift_ok]
  constructor
  · rintro ⟨a, _, ⟨hx, rfl⟩, hf⟩
    exact ⟨a, hx, hf⟩
  · rintro ⟨a, hx, hf⟩
    exact ⟨a, g, ⟨hx, rfl⟩, hf⟩

/-! Checks in front of a step. -/

section Guard

variable {c : Prop} [Decidable c] {k : α → Emit β} {rest : Emit β} {b : β}

@[simp] theorem guard_throw_ok :
    (if c then throw e >>= k else rest) g = .ok b g' ↔ ¬c ∧ rest g = .ok b g' := by
  split <;> rename_i hc <;> simp [hc]

@[simp] theorem guard_inconsistent_ok :
    (if c then inconsistent cause >>= k else rest) g = .ok b g' ↔ ¬c ∧ rest g = .ok b g' :=
  guard_throw_ok

@[simp] theorem guard_outOfBounds_ok :
    (if c then outOfBounds >>= k else rest) g = .ok b g' ↔ ¬c ∧ rest g = .ok b g' :=
  guard_throw_ok

@[simp] theorem guard_tooLarge_ok :
    (if c then tooLarge >>= k else rest) g = .ok b g' ↔ ¬c ∧ rest g = .ok b g' := by
  split <;> rename_i hc <;> simp [hc]

/-- A step that is taken on a condition. -/
theorem optional_ok :
    (if c then x >>= fun _ => rest else rest) g = .ok b g' ↔
      ∃ g₁, (if c then x else pure ()) g = .ok () g₁ ∧ rest g₁ = .ok b g' := by
  by_cases hc : c
  · simp only [hc, if_true, bind_ok]
    exact ⟨fun ⟨_, g₁, hx, hrest⟩ => ⟨g₁, hx, hrest⟩, fun ⟨g₁, hx, hrest⟩ => ⟨(), g₁, hx, hrest⟩⟩
  · simp [hc]

/-- Two steps that are taken on a condition. -/
theorem optional_two_ok {y : Emit Unit} :
    (if c then x >>= fun _ => y >>= fun _ => rest else rest) g = .ok b g' ↔
      ∃ g₁, (if c then x >>= fun _ => y else pure ()) g = .ok () g₁ ∧ rest g₁ = .ok b g' := by
  rw [← optional_ok, bind_assoc]

end Guard

end Emit

end ScriptCompiler
