import ScriptCompiler.Generator.Instructions
import ScriptCompiler.Proofs.Emission

/-!
# The table of literals

A literal is found in the table or enters it at the end, so an index leads back
to its literal.
-/

namespace ScriptCompiler

open Emit

variable {g g' : Generator} {literal : Literal} {i : UInt16} {t t' : LiteralTable}

/-- Asking for the index of a literal answers `i` and leaves the table `t'`. -/
def Indexes (t : LiteralTable) (literal : Literal) (i : UInt16) (t' : LiteralTable) : Prop :=
  (t.positions[literal]? = some i.toNat ∧ t' = t) ∨
    (i.toNat = t.entries.size ∧ t' = t.push literal)

/-- Whether or not there is an index, only the table changes. -/
theorem literalIndex_cases (literal : Literal) (g : Generator) : ∃ table,
    (∃ i, literalIndex literal g = .ok i { g with literals := table } ∧
      Indexes g.literals literal i table) ∨
    ∃ e, literalIndex literal g = .error e { g with literals := table } := by
  have hoperand : ∀ (n : Nat) (g : Generator),
      (∃ i : UInt16, lift ((LiteralTable.operand? n).elim (.error .tooManyLiterals) .ok) g = .ok i g ∧
        i.toNat = n) ∨
      ∃ e, lift ((LiteralTable.operand? n).elim (.error .tooManyLiterals) .ok) g = .error e g := by
    intro n g
    by_cases hlt : n < 65536
    · rw [LiteralTable.operand?, if_pos hlt]
      exact .inl ⟨_, rfl, by rw [UInt16.toNat_ofNat', Nat.mod_eq_of_lt hlt]⟩
    · rw [LiteralTable.operand?, if_neg hlt]
      exact .inr ⟨_, rfl⟩
  simp only [literalIndex, get_bind]
  cases hknown : g.literals.positions[literal]? with
  | some n =>
    obtain ⟨i, hok, rfl⟩ | herror := hoperand n g
    · exact ⟨g.literals, .inl ⟨i, hok, .inl ⟨hknown, rfl⟩⟩⟩
    · exact ⟨g.literals, .inr herror⟩
  | none =>
    simp only [get_bind]
    split
    · exact ⟨g.literals, .inr ⟨_, rfl⟩⟩
    · obtain ⟨i, hok, hi⟩ | herror :=
        hoperand g.literals.size { g with literals := g.literals.push literal }
      · exact ⟨g.literals.push literal, .inl ⟨i, hok, .inr ⟨hi, rfl⟩⟩⟩
      · exact ⟨g.literals.push literal, .inr herror⟩

theorem literalIndex_ok (hok : literalIndex literal g = .ok i g') :
    ∃ table, g' = { g with literals := table } ∧ Indexes g.literals literal i table := by
  obtain ⟨table, ⟨j, hj, hindexes⟩ | ⟨e, he⟩⟩ := literalIndex_cases literal g
  · rw [hok] at hj
    cases hj
    exact ⟨table, rfl, hindexes⟩
  · rw [hok] at he
    cases he

namespace LiteralTable

/-- The tables that come about by asking for one index after the other. -/
inductive Reached : LiteralTable → Prop where
  | empty (limit : Nat) : Reached (.empty limit)
  | index (before : LiteralTable) (literal : Literal) (i : UInt16) (after : LiteralTable)
      (h : Reached before) (hindexes : Indexes before literal i after) : Reached after

/-- Known positions are those of the entries. -/
def Indexed (t : LiteralTable) : Prop :=
  ∀ (literal : Literal) (n : Nat), t.positions[literal]? = some n → t.entries[n]? = some literal

theorem Indexed.push (h : t.Indexed) (literal : Literal) : (t.push literal).Indexed := by
  intro other n hother
  simp only [LiteralTable.push, Std.HashMap.getElem?_insert] at hother ⊢
  split at hother
  · rename_i heq
    obtain rfl : literal = other := by simpa using heq
    obtain rfl : t.entries.size = n := Option.some.inj hother
    exact Array.getElem?_push_size
  · have hget := h other n hother
    rw [Array.getElem?_push_lt (Array.getElem?_eq_some_iff.mp hget).1]
    exact (Array.getElem?_eq_getElem _).symm.trans hget

/-- The index that is answered leads to the literal. -/
theorem Indexed.index (h : t.Indexed) (hindexes : Indexes t literal i t') :
    t'.Indexed ∧ t'.entries[i.toNat]? = some literal := by
  rcases hindexes with ⟨hknown, rfl⟩ | ⟨hi, rfl⟩
  · exact ⟨h, h literal i.toNat hknown⟩
  · refine ⟨h.push literal, ?_⟩
    rw [hi]
    exact Array.getElem?_push_size

theorem Reached.indexed (h : t.Reached) : t.Indexed := by
  induction h with
  | empty limit =>
    intro literal n h
    simp [LiteralTable.empty] at h
  | index before literal i after _ hindexes ih => exact (ih.index hindexes).1

end LiteralTable

end ScriptCompiler
