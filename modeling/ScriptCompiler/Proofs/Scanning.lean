import ScriptCompiler.Generator.Jumps
import ScriptCompiler.Proofs.Bytes
import ScriptCompiler.Proofs.Layout.Sites

/-!
# The walk that enters spans

The walk over main code reads one whole instruction after the other and enters
the offsets of the narrow jumps and switches. An offset leaves its mark in its
own field only, so what the walk reads is what has been there from the start.
-/

namespace ScriptCompiler

open Bytes Instruction

variable {is : List Instruction} {position pc : Nat} {z : Int} {code : Bytes}

/-- The offsets of instructions, each with the instruction it belongs to. -/
def offsetPairs (is : List Instruction) : List (Nat × Nat) :=
  is.flatMap fun i => i.fields.map fun field => (i.pc, field)

/-- The narrow jumps and switches. -/
def narrowJumps (is : List Instruction) : List Instruction :=
  is.filter fun i => i.op.format.jumpLen = some 2

/-- Without wide instructions, there are no other offsets. -/
theorem offsetPairs_narrowJumps (h : ∀ i ∈ is, i.op.isWide = false) :
    offsetPairs (narrowJumps is) = offsetPairs is := by
  induction is with
  | nil => rfl
  | cons i is ih =>
    obtain ⟨hnarrow, hrest⟩ := List.forall_mem_cons.mp h
    have ih := ih hrest
    simp only [offsetPairs, narrowJumps] at ih ⊢
    rw [List.filter_cons, List.flatMap_cons, ← ih]
    split
    · exact List.flatMap_cons
    · rename_i hne
      have hnone : i.op.format.jumpLen = none := by
        cases hj : i.op.format.jumpLen with
        | none => rfl
        | some width =>
          rw [Opcode.isWide, hj] at hnarrow
          rcases Format.jumpLen_eq hj with rfl | rfl
          · exact absurd (decide_eq_true hj) hne
          · cases hnarrow
      rw [fields_plain hnone, List.map_nil, List.nil_append]

namespace Emit

variable {g g' : Generator} {pairs : List (Nat × Nat)}

/-- Enter offsets as they stand in the code, each with the instruction it belongs to. -/
def enterOffsets : List (Nat × Nat) → Emit Unit
  | [] => pure ()
  | (top, field) :: pairs => do
    let offset ← mainI16 field
    addSpan top field offset
    enterOffsets pairs

theorem enterOffsets_append (pairs pairs' : List (Nat × Nat)) :
    enterOffsets (pairs ++ pairs') = enterOffsets pairs >>= fun _ => enterOffsets pairs' := by
  induction pairs with
  | nil => rfl
  | cons p pairs ih => simp only [List.cons_append, enterOffsets, ih, bind_assoc]

theorem mainI16_ok :
    mainI16 position g = .ok z g' ↔ Bytes.i16? g.main.code position = some z ∧ g = g' := by
  simp only [mainI16, get_bind, lift_ok]
  cases Bytes.i16? g.main.code position <;> simp [Error.inBounds]

theorem mainI16_bind {α : Type} {f : Int → Emit α} (h : Bytes.i16? g.main.code position = some z) :
    (mainI16 position >>= f) g = f z g :=
  bind_of_ok (mainI16_ok.mpr ⟨h, rfl⟩)

theorem setMainU16_ok {value : Nat} (h : setMainU16 position value g = .ok () g') :
    position + 2 ≤ g.main.code.size ∧
      g' = { g with main := { g.main with code := Bytes.setU16 g.main.code position value } } := by
  simp only [setMainU16, get_bind, guard_outOfBounds_ok, modify_ok, Nat.not_lt] at h
  exact ⟨h.1, h.2.symm⟩

theorem setSpanTarget_ok {index top : Nat} (h : setSpanTarget index top z g = .ok () g') :
    0 ≤ (top : Int) + z ∧
      g' = { g with spans := g.spans.setTarget index ((top : Int) + z).toNat } := by
  simp only [setSpanTarget, guard_tooLarge_ok, modify_ok, Int.not_lt] at h
  exact ⟨h.2.1, h.2.2.symm⟩

/-- All code but some fields is as before. -/
def Marks (g g' : Generator) (pairs : List (Nat × Nat)) : Prop :=
  g'.main.code.size = g.main.code.size ∧
    ∀ x, (∀ p ∈ pairs, x < p.2 ∨ p.2 + 2 ≤ x) → g'.main.code[x]? = g.main.code[x]?

theorem addSpan_marks {top field : Nat} (h : addSpan top field z g = .ok () g') :
    Marks g g' [(top, field)] := by
  have hset : ∀ {g₁ : Generator} {mark : Nat}, setMainU16 field mark g₁ = .ok () g' →
      g₁.main.code = g.main.code → Marks g g' [(top, field)] := by
    intro g₁ mark hok hcode
    obtain ⟨-, rfl⟩ := setMainU16_ok hok
    rw [Marks, ← hcode]
    exact ⟨size_setU16 .., fun x hx => getElem?_setU16_of_ne _ (hx _ (List.mem_singleton_self _))⟩
  simp only [addSpan, get_bind, modify_bind, lift_bind_ok] at h
  obtain ⟨byte, -, op, -, h⟩ := h
  split at h
  · simp only [guard_tooLarge_ok, guard_inconsistent_ok, modify_bind] at h
    exact hset h.2.2 rfl
  · split at h
    · simp only [bind_ok] at h
      obtain ⟨_, g₁, htarget, h⟩ := h
      obtain ⟨-, rfl⟩ := setSpanTarget_ok htarget
      exact hset h rfl
    · exact hset h rfl

theorem enterOffsets_marks (h : enterOffsets pairs g = .ok () g') : Marks g g' pairs := by
  induction pairs generalizing g with
  | nil =>
    obtain ⟨-, rfl⟩ := pure_ok.mp h
    exact ⟨rfl, fun _ _ => rfl⟩
  | cons p pairs ih =>
    simp only [enterOffsets, bind_ok, mainI16_ok] at h
    obtain ⟨z, _, ⟨-, rfl⟩, _, g₁, hadd, h⟩ := h
    obtain ⟨hsize, hkeep⟩ := addSpan_marks hadd
    obtain ⟨hsize', hkeep'⟩ := ih h
    refine ⟨hsize'.trans hsize, fun x hx => ?_⟩
    obtain ⟨hfirst, hrest⟩ := List.forall_mem_cons.mp hx
    rw [hkeep' x hrest, hkeep x (by simpa using hfirst)]

/-! ## Switches -/

theorem addArms_eq (top skip position count : Nat) :
    addArms top skip position count =
      enterOffsets ((List.range count).map fun k => (top, position + skip + (skip + 2) * k)) >>=
        fun _ => pure (position + (skip + 2) * count) := by
  induction count generalizing position with
  | zero => rfl
  | succ count ih =>
    have hrest : (List.range (count + 1)).map (fun k => (top, position + skip + (skip + 2) * k)) =
        (top, position + skip) :: (List.range count).map fun k =>
          (top, position + skip + 2 + skip + (skip + 2) * k) := by
      rw [List.range_succ_eq_map, List.map_cons, List.map_map, Nat.mul_zero, Nat.add_zero]
      congr 1
      apply List.map_congr_left
      intro k _
      simp only [Function.comp, Nat.mul_succ, Prod.mk.injEq, true_and]
      omega
    rw [hrest, show position + (skip + 2) * (count + 1) =
      position + skip + 2 + (skip + 2) * count by rw [Nat.mul_succ]; omega]
    simp only [addArms, enterOffsets, ih, bind_assoc]

/-- The number of arms of a narrow switch by its operands. -/
theorem armCount_eq {i : Instruction} (hop : opcodeAt? code i.pc = some i.op)
    (hlen : instructionLength? code i.pc = some i.length) (hj : i.op.format.jumpLen = some 2)
    (hs : i.op.format.isSwitch) :
    (i.op.format.isTable ∧ ∃ low high, Bytes.i16? code (i.pc + 3) = some low ∧
      Bytes.i16? code (i.pc + 5) = some high ∧ i.armCount 2 = keyCount low high) ∨
    (i.op.format.isTable = false ∧ Bytes.u16? code (i.pc + 3) = some (i.armCount 2)) := by
  have hlength := i.length_switch hop hlen hj hs
  obtain ⟨-, ⟨hs', -⟩ | ⟨-, width, hwidth, hl⟩⟩ := (instructionLength?_eq_some hop).mp hlen
  · rw [hs] at hs'
    cases hs'
  · obtain rfl : width = 2 := Option.some.inj (hwidth.symm.trans hj)
    cases ht : i.op.format.isTable with
    | true =>
      rw [ht] at hl
      obtain ⟨low, high, hlow, hhigh, hl⟩ := switchLength?_table hl
      simp only [armStride, ht, if_true] at hlength
      exact .inl ⟨rfl, low, high, hlow, hhigh, by omega⟩
    | false =>
      rw [ht] at hl
      obtain ⟨pairs, hpairs, hl⟩ := switchLength?_lookup hl
      simp only [armStride, ht, Bool.false_eq_true, if_false] at hlength
      obtain rfl : pairs = i.armCount 2 := by omega
      exact .inr ⟨rfl, hpairs⟩

theorem byte_of_opcodeAt? {op : Opcode} (h : opcodeAt? code pc = some op) :
    ∃ byte, code[pc]? = some byte ∧ Opcode.ofByte? byte = some op :=
  Option.bind_eq_some_iff.mp h

/-- All offsets of a switch go into the table. -/
theorem addSwitch_eq {i : Instruction} (hop : opcodeAt? g.main.code i.pc = some i.op)
    (hlen : instructionLength? g.main.code i.pc = some i.length)
    (hj : i.op.format.jumpLen = some 2) (hswitch : i.op.format.isSwitch) :
    addSwitch i.pc g = (enterOffsets (i.fields.map fun field => (i.pc, field)) >>= fun _ =>
      pure (i.pc + i.length)) g := by
  have hlength := i.length_switch hop hlen hj hswitch
  obtain ⟨byte, hbyte, hread⟩ := byte_of_opcodeAt? hop
  simp only [addSwitch, get_bind, hbyte, Error.inBounds, lift_bind, hread, Error.orInconsistent]
  rw [fields_switch hj hswitch, List.map_cons, List.map_map, enterOffsets, bind_assoc]
  refine bind_congr fun z g₀ hz => ?_
  obtain ⟨-, rfl⟩ := mainI16_ok.mp hz
  rw [bind_assoc]
  refine bind_congr fun _ g₁ hadd => ?_
  -- the operands behind the default are not touched by its mark
  have hkeep : ∀ d, 3 ≤ d →
      Bytes.u16? g₁.main.code (i.pc + d) = Bytes.u16? g.main.code (i.pc + d) := by
    intro d hd
    rw [Bytes.u16?, Bytes.u16?, (addSpan_marks hadd).2 (i.pc + d) (by simp; omega),
      (addSpan_marks hadd).2 (i.pc + d + 1) (by simp; omega)]
  obtain ⟨ht, low, high, hlow, hhigh, hcount⟩ | ⟨ht, hpairs⟩ := armCount_eq hop hlen hj hswitch
  · have hformat : i.op.format = .tableSwitch := by
      generalize i.op.format = format at ht hj
      cases format <;> first | rfl | exact absurd ht (by decide) | exact absurd hj (by decide)
    rw [Bytes.i16?, ← hkeep _ (by omega)] at hlow hhigh
    simp only [armStride, ht, if_true] at hlength
    rw [if_pos hformat, mainI16_bind hlow, mainI16_bind hhigh, ← hcount, addArms_eq, hlength]
    simp [armStride, ht, Function.comp_def, Nat.add_assoc]
  · have hformat : i.op.format ≠ .tableSwitch := by
      intro hformat
      rw [hformat] at ht
      cases ht
    rw [← hkeep 3 (by omega)] at hpairs
    simp only [armStride, ht, Bool.false_eq_true, if_false] at hlength
    rw [if_neg hformat]
    simp only [get_bind, hpairs, lift_bind]
    rw [addArms_eq, hlength]
    simp [armStride, ht, Function.comp_def, Nat.add_assoc]

/-! ## The walk -/

/-- Bytes in front of an instruction do not matter to it. -/
theorem instruction_congr {code' : Bytes} (hsize : code'.size = code.size)
    (hsame : ∀ x, pc ≤ x → code'[x]? = code[x]?) :
    opcodeAt? code' pc = opcodeAt? code pc ∧
      instructionLength? code' pc = instructionLength? code pc := by
  have hop : opcodeAt? code' pc = opcodeAt? code pc := by
    rw [opcodeAt?, opcodeAt?, hsame pc (Nat.le_refl _)]
  have hu16 : ∀ x, pc ≤ x → Bytes.u16? code' x = Bytes.u16? code x := by
    intro x hx
    rw [Bytes.u16?, Bytes.u16?, hsame x hx, hsame (x + 1) (by omega)]
  refine ⟨hop, ?_⟩
  simp (disch := omega) only [instructionLength?, switchLength?, hop, hsize, Bytes.i16?, hu16]

/-- The walk over whole instructions enters the offsets of the narrow jumps and switches. -/
theorem scanSpans_eq {fuel : Nat} (hw : Whole code pc is) (hsize : g.main.code.size = code.size)
    (hsame : ∀ x, pc ≤ x → g.main.code[x]? = code[x]?) (hfuel : code.size ≤ pc + fuel) :
    scanSpans code.size fuel pc g = enterOffsets (offsetPairs (narrowJumps is)) g := by
  induction is generalizing g pc fuel with
  | nil =>
    have hend : code.size ≤ pc := Nat.le_of_eq hw.symm
    cases fuel with
    | zero => rfl
    | succ fuel =>
      rw [scanSpans, if_pos hend]
      rfl
  | cons i is ih =>
    obtain ⟨rfl, hop, hlen, hrest⟩ := hw
    have hin := ((instructionLength?_eq_some hop).mp hlen).1
    have hpos := instructionLength?_pos hop hlen
    obtain ⟨hop', hlen'⟩ := instruction_congr hsize hsame
    rw [hop] at hop'
    rw [hlen] at hlen'
    obtain ⟨byte, hbyte, hread⟩ := byte_of_opcodeAt? hop'
    -- the rest of the walk, once the offsets of this instruction are in the table
    have hnext : ∀ {g₁ : Generator} {pairs : List (Nat × Nat)} {fuel : Nat}, Marks g g₁ pairs →
        (∀ p ∈ pairs, p.2 + 2 ≤ i.pc + i.length) → code.size ≤ i.pc + i.length + fuel →
        scanSpans code.size fuel (i.pc + i.length) g₁ =
          enterOffsets (offsetPairs (narrowJumps is)) g₁ := by
      intro g₁ pairs fuel hmarks hinside hfuel
      refine ih hrest (hmarks.1.trans hsize) (fun x hx => ?_) hfuel
      rw [hmarks.2 x fun p hp => .inr (by have := hinside p hp; omega), hsame x (by omega)]
    cases fuel with
    | zero => omega
    | succ fuel =>
      simp only [scanSpans]
      rw [if_neg (by omega)]
      simp only [get_bind, hbyte, Error.inBounds, lift_bind, hread, Error.orInconsistent]
      by_cases hj : i.op.format.jumpLen = some 2
      · rw [narrowJumps, List.filter_cons_of_pos (by simpa using hj), offsetPairs,
          List.flatMap_cons, ← offsetPairs, ← narrowJumps, enterOffsets_append]
        cases hs' : i.op.format.isSwitch with
        | false =>
          have hformat : i.op.format = .jump := by
            generalize i.op.format = format at hj hs'
            cases format <;> first | rfl | exact absurd hs' (by decide) | exact absurd hj (by decide)
          have hthree : i.length = 3 := by
            obtain ⟨-, ⟨-, hl⟩ | ⟨hs, -⟩⟩ := (instructionLength?_eq_some hop).mp hlen
            · rw [Opcode.length_of_jump hj hs'] at hl
              exact (Option.some.inj hl).symm
            · rw [hs'] at hs
              cases hs
          rw [fields_jump hj hs', List.map_singleton, hformat]
          simp only [enterOffsets, bind_assoc, pure_bind]
          refine bind_congr fun z g₀ hz => ?_
          obtain ⟨-, rfl⟩ := lift_ok.mp hz
          refine bind_congr fun _ g₁ hadd => ?_
          rw [← hthree]
          exact hnext (addSpan_marks hadd) (by simp; omega) (by omega)
        | true =>
          have hswitch : (addSwitch i.pc >>= fun next => scanSpans code.size fuel next) g =
              (enterOffsets (i.fields.map fun field => (i.pc, field)) >>= fun _ =>
                enterOffsets (offsetPairs (narrowJumps is))) g := by
            rw [bind_congr_left (addSwitch_eq hop' hlen' hj hs'), bind_assoc]
            refine bind_congr fun _ g₁ hadd => ?_
            refine hnext (enterOffsets_marks hadd) (fun p hp => ?_) (by omega)
            obtain ⟨field, hf, rfl⟩ := List.mem_map.mp hp
            exact ((Layout.fieldsOrdered_bounds (i.fieldsOrdered hop hlen
              (by rw [Opcode.isWide, hj]; rfl))).2 field hf).2
          rcases hformat : i.op.format with _ | _ | _ | _ | _ | _ | _ | _ | _ | _ | _ | _ <;>
            rw [hformat] at hs' hj <;>
            first
              | exact absurd hs' (by decide)
              | exact absurd hj (by decide)
              | exact hswitch
      · rw [narrowJumps, List.filter_cons_of_neg (by simpa using hj), ← narrowJumps]
        have hscan : scanSpans code.size fuel (i.pc + i.length) g =
            enterOffsets (offsetPairs (narrowJumps is)) g :=
          @hnext g [] fuel ⟨rfl, fun _ _ => rfl⟩ (by simp) (by omega)
        rcases hformat : i.op.format with _ | _ | _ | _ | _ | _ | _ | _ | _ | _ | _ | _ <;>
          rw [hformat] at hj <;>
          first
            | exact absurd rfl hj
            | (simp only [hlen', lift_bind]
               exact hscan)

/-- Turning the table on enters the narrow jumps and switches since the last resolution. -/
theorem buildSpans_offsets (hw : Whole g.main.code g.spans.todo is) :
    buildSpans g = enterOffsets (offsetPairs (narrowJumps is))
      { g with spans := { g.spans with active := true } } :=
  scanSpans_eq (g := { g with spans := { g.spans with active := true } }) hw rfl (fun _ _ => rfl)
    (by have := hw.bounds.1; omega)

end Emit

end ScriptCompiler
