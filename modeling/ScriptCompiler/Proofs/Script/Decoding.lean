import ScriptCompiler.Proofs.Script.Arms
import ScriptCompiler.Script.Listing

/-!
# Reading back arbitrary bytes

Code need not come from a compiler to be read. Whatever the bytes are, the walk
over them yields instructions that stand one behind the other and ends where no
whole instruction starts. What is read back from one of them depends on its own
bytes only, no read misses a byte, and a listing is always possible.
-/

namespace ScriptCompiler

open Bytes Instruction

/-! ## The walk -/

/-- What the walk yields from an offset on. -/
inductive Walks (code : Bytes) : Nat → List Instruction → Prop where
  /-- It ends where no whole instruction starts. -/
  | stop {pc : Nat} (h : instructionLength? code pc = none) : Walks code pc []
  /-- It goes on behind an instruction, which takes up bytes of the code. -/
  | next {pc length : Nat} {op : Opcode} {is : List Instruction} (hop : opcodeAt? code pc = some op)
      (hlen : instructionLength? code pc = some length) (hpos : 0 < length)
      (hfits : pc + length ≤ code.size) (h : Walks code (pc + length) is) :
      Walks code pc (⟨pc, op, length⟩ :: is)

variable {code code' : Bytes} {pc width : Nat}

theorem instructionLength?_of_opcodeAt? (h : opcodeAt? code pc = none) :
    instructionLength? code pc = none := by
  simp [instructionLength?, h]

/-- With a step for each byte left the walk comes to its end. -/
theorem walks_instructionsFrom (found : List Instruction) (pc : Nat) {fuel : Nat}
    (hfuel : code.size ≤ pc + fuel) :
    ∃ is, Walks code pc is ∧ instructionsFrom code found pc fuel = found.reverse ++ is := by
  induction fuel generalizing pc found with
  | zero =>
    have hend : opcodeAt? code pc = none := by
      simp [opcodeAt?, Array.getElem?_eq_none (show code.size ≤ pc from hfuel)]
    exact ⟨[], .stop (instructionLength?_of_opcodeAt? hend), by simp [instructionsFrom]⟩
  | succ fuel ih =>
    rw [instructionsFrom]
    cases hop : opcodeAt? code pc with
    | none => exact ⟨[], .stop (instructionLength?_of_opcodeAt? hop), by simp⟩
    | some op =>
      cases hlen : instructionLength? code pc with
      | none => exact ⟨[], .stop hlen, by simp⟩
      | some length =>
        have hpos := instructionLength?_pos hop hlen
        obtain ⟨is, his, heq⟩ := ih (⟨pc, op, length⟩ :: found) (pc + length) (by omega)
        exact ⟨_, .next hop hlen hpos ((instructionLength?_eq_some hop).mp hlen).1 his,
          heq.trans (by simp)⟩

theorem walks_instructions (code : Bytes) : Walks code 0 (instructions code) := by
  obtain ⟨is, his, heq⟩ := walks_instructionsFrom [] 0 (Nat.le_add_left code.size 0)
  rw [instructions, heq]
  exact his

/-- Every instruction that the walk yields is whole. -/
theorem Walks.whole {is : List Instruction} (h : Walks code pc is) {i : Instruction} (hi : i ∈ is) :
    opcodeAt? code i.pc = some i.op ∧ instructionLength? code i.pc = some i.length := by
  induction h with
  | stop => cases hi
  | next hop hlen _ _ _ ih =>
    rcases List.mem_cons.mp hi with rfl | hi
    · exact ⟨hop, hlen⟩
    · exact ih hi

namespace Window

variable {lo hi i : Nat}

theorem offsetAt? (h : Window code code' lo hi) (hwidth : width = 2 ∨ width = 4) (hlo : lo ≤ i)
    (hhi : i + width ≤ hi) :
    ∃ z, Script.offsetAt? code width i = some z ∧ Script.offsetAt? code' width i = some z := by
  rcases hwidth with rfl | rfl
  · exact h.i16? hlo hhi
  · obtain ⟨m, hm, hm'⟩ := h.u16? hlo (by omega)
    obtain ⟨n, hn, hn'⟩ := h.u16? (show lo ≤ i + 2 by omega) (by omega)
    refine ⟨Int.bmod (m + 65536 * n : Nat) 4294967296, ?_, ?_⟩
    · simp [Script.offsetAt?, i32?, hm, hn]
    · simp [Script.offsetAt?, i32?, hm', hn']

end Window

/-! ## Arms -/

/-- The offset at a field leads from `pc` to no place before the code. -/
def Lands (code : Bytes) (width pc field : Nat) : Prop :=
  ∃ z, Script.offsetAt? code width field = some z ∧ 0 ≤ (pc : Int) + z

theorem Lands.nonneg {field : Nat} {z : Int} (h : Lands code width pc field)
    (hz : Script.offsetAt? code width field = some z) : 0 ≤ (pc : Int) + z := by
  obtain ⟨z', hz', hle⟩ := h
  cases hz.symm.trans hz'
  exact hle

/-! ## Jumps and switches -/

section Whole

variable {i : Instruction} (hop : opcodeAt? code i.pc = some i.op)
  (hlen : instructionLength? code i.pc = some i.length)

include hop hlen

variable (h : Window code code' i.pc (i.pc + i.length))

include h

theorem Window.jumpTarget :
    ∃ r, Script.jumpTarget code i.pc = .ok r ∧ Script.jumpTarget code' i.pc = .ok r := by
  simp only [Script.jumpTarget, hop, (h.whole hop hlen).1]
  split
  · rename_i hformat
    obtain ⟨width, hw, hs⟩ : ∃ width, i.op.format.jumpLen = some width ∧
        i.op.format.isSwitch = false := by
      rcases hformat with hf | hf <;> exact ⟨_, by rw [hf]; rfl, by rw [hf]; rfl⟩
    have hlength : i.length = 1 + width := by
      obtain ⟨-, ⟨-, hl⟩ | ⟨hs', -⟩⟩ := (instructionLength?_eq_some hop).mp hlen
      · exact Option.some.inj (hl.symm.trans (Opcode.length_of_jump hw hs))
      · rw [hs] at hs'
        cases hs'
    obtain ⟨z, hz, hz'⟩ := h.offsetAt? (Format.jumpLen_eq hw) (show i.pc ≤ i.pc + 1 by omega) (by omega)
    simp only [hw, Option.getD_some, hz, hz']
    exact ⟨_, rfl, rfl⟩
  · exact ⟨none, rfl, rfl⟩

/-- The arms of a switch, as many as there is room for in the instruction. -/
theorem Window.switchArms (hs : i.op.format.isSwitch) (hw : i.op.format.jumpLen = some width)
    (fallback : Nat) :
    ∃ r, Script.switchArms code i.pc width fallback (i.pc + 1 + width) i.op.format.isTable = .ok r ∧
      Script.switchArms code' i.pc width fallback (i.pc + 1 + width) i.op.format.isTable = .ok r ∧
      ((∀ k < i.armCount width, Lands code width i.pc
          (i.pc + width + 5 + i.armStride width * k)) →
        ∃ found, r = some found ∧ found.size = i.armCount width) := by
  have hlength := length_switch hop hlen hw hs
  have hroom : ∀ k < i.armCount width, i.armStride width * k + i.armStride width ≤
      i.armStride width * i.armCount width := fun k hk => by
    rw [← Nat.mul_succ]
    exact Nat.mul_le_mul_left _ hk
  obtain ⟨-, ⟨hs', -⟩ | ⟨-, width', hw', hl⟩⟩ := (instructionLength?_eq_some hop).mp hlen
  · rw [hs] at hs'
    cases hs'
  cases hw.symm.trans hw'
  cases ht : i.op.format.isTable with
  | true =>
    rw [ht] at hl
    simp only [armStride, ht, if_true] at hlength hroom ⊢
    obtain ⟨low, high, hlow, hhigh, hl⟩ := switchLength?_table hl
    have hcount : keyCount low high = i.armCount width := by
      have hpos : 0 < width := by rcases Format.jumpLen_eq hw with rfl | rfl <;> omega
      exact Nat.eq_of_mul_eq_mul_left hpos (by omega)
    obtain ⟨_, h₁, h₁'⟩ := h.i16? (show i.pc ≤ i.pc + (1 + width) by omega) (by omega)
    obtain ⟨_, h₂, h₂'⟩ := h.i16? (show i.pc ≤ i.pc + (1 + width) + 2 by omega) (by omega)
    cases hlow.symm.trans h₁
    cases hhigh.symm.trans h₂
    rw [← Nat.add_assoc] at h₁ h₁' h₂ h₂'
    simp only [Script.switchArms, if_true, h₁, h₁', h₂, h₂', hcount]
    have hplace : i.pc + 1 + width + 4 = i.pc + width + 5 := by omega
    have hread : ∀ k < i.armCount width, ∃ z,
        Script.offsetAt? code width (i.pc + width + 5 + width * k) = some z ∧
          Script.offsetAt? code' width (i.pc + width + 5 + width * k) = some z := fun k hk =>
      h.offsetAt? (Format.jumpLen_eq hw) (by omega) (by have := hroom k hk; omega)
    choose! offset hoffset hoffset' using hread
    rw [hplace, tableArms_eq _ _ _ hoffset, tableArms_eq _ _ _ hoffset']
    refine ⟨_, rfl, rfl, fun hall => ⟨_, if_pos fun k hk => ?_, by simp⟩⟩
    exact (hall k hk).nonneg (hoffset k hk)
  | false =>
    rw [ht] at hl
    simp only [armStride, ht, Bool.false_eq_true, if_false] at hlength hroom ⊢
    obtain ⟨pairs, hpairs, hl⟩ := switchLength?_lookup hl
    have hcount : pairs = i.armCount width :=
      Nat.eq_of_mul_eq_mul_left (show 0 < width + 2 by omega) (by omega)
    obtain ⟨_, h₁, h₁'⟩ := h.u16? (show i.pc ≤ i.pc + (1 + width) by omega) (by omega)
    cases hpairs.symm.trans h₁
    rw [← Nat.add_assoc] at h₁ h₁'
    simp only [Script.switchArms, Bool.false_eq_true, if_false, h₁, h₁', hcount]
    have hplace : i.pc + width + 5 = i.pc + 1 + width + 2 + 2 := by omega
    have hread : ∀ k < i.armCount width, ∃ n,
        Bytes.u16? code (i.pc + 1 + width + 2 + (width + 2) * k) = some n ∧
          Bytes.u16? code' (i.pc + 1 + width + 2 + (width + 2) * k) = some n := fun k hk =>
      h.u16? (by omega) (by have := hroom k hk; omega)
    have hread' : ∀ k < i.armCount width, ∃ z,
        Script.offsetAt? code width (i.pc + 1 + width + 2 + 2 + (width + 2) * k) = some z ∧
          Script.offsetAt? code' width (i.pc + 1 + width + 2 + 2 + (width + 2) * k) = some z :=
      fun k hk => h.offsetAt? (Format.jumpLen_eq hw) (by omega) (by have := hroom k hk; omega)
    choose! index hindex hindex' using hread
    choose! offset hoffset hoffset' using hread'
    rw [hplace, lookupArms_eq _ _ hindex hoffset, lookupArms_eq _ _ hindex' hoffset']
    refine ⟨_, rfl, rfl, fun hall => ⟨_, if_pos fun k hk => ?_, by simp⟩⟩
    exact (hall k hk).nonneg (hoffset k hk)

/-- A whole switch is read back from its own bytes, and if all its offsets lead into the code, with
as many arms as there is room for. -/
theorem Window.switchTargets :
    ∃ r, Script.switchTargets code i.pc = .ok r ∧ Script.switchTargets code' i.pc = .ok r ∧
      ∀ width, i.op.format.jumpLen = some width → i.op.format.isSwitch →
        (∀ field ∈ i.fields, Lands code width i.pc field) →
        ∃ targets, r = some targets ∧ targets.arms.size = i.armCount width := by
  obtain ⟨hop', hlen'⟩ := h.whole hop hlen
  simp only [Script.switchTargets, hop, hop', hlen, hlen']
  split
  · rename_i hs
    obtain ⟨width, hw⟩ := Format.jumpLen_of_isSwitch hs
    have hlength := length_switch hop hlen hw hs
    obtain ⟨z, hz, hz'⟩ := h.offsetAt? (Format.jumpLen_eq hw) (show i.pc ≤ i.pc + 1 by omega)
      (by split at hlength <;> omega)
    simp only [hw, Option.getD_some, hz, hz', fields_switch hw hs]
    cases hland : Script.landing? i.pc z with
    | none =>
      refine ⟨none, rfl, rfl, fun width' hw' _ hall => ?_⟩
      cases hw'
      rw [Script.landing?, if_pos ((hall _ (List.mem_cons_self ..)).nonneg hz)] at hland
      cases hland
    | some fallback =>
      obtain ⟨r, hr, hr', hsize⟩ := h.switchArms hop hlen hs hw fallback
      refine ⟨r.map fun arms => ⟨fallback, arms⟩, by simp only [hr], by simp only [hr'],
        fun width' hw' _ hall => ?_⟩
      cases hw'
      obtain ⟨found, rfl, hfound⟩ := hsize fun k hk => hall _ (List.mem_cons_of_mem _
        (List.mem_map.mpr ⟨k, List.mem_range.mpr hk, rfl⟩))
      exact ⟨_, rfl, hfound⟩
  · rename_i hs
    exact ⟨none, rfl, rfl, fun _ _ hs' => absurd hs' hs⟩

end Whole

/-! ## Scripts -/

/-- An instruction can be read back, and from its own bytes. -/
structure Instruction.Readable (code : Bytes) (i : Instruction) : Prop where
  /-- Looking for a jump misses no byte. -/
  jump : ∃ target, Script.jumpTarget code i.pc = .ok target
  /-- Looking for a switch misses no byte. -/
  switch : ∃ targets, Script.switchTargets code i.pc = .ok targets
  /-- A switch whose offsets all lead into the code or behind it has as many arms as its length has
  room for. -/
  arms : ∀ width, i.op.format.jumpLen = some width → i.op.format.isSwitch = true →
    (∀ field ∈ i.fields, Lands code width i.pc field) →
    ∃ targets, Script.switchTargets code i.pc = .ok (some targets) ∧
      targets.arms.size = i.armCount width
  /-- Bytes in front of the instruction and behind it do not matter, not even whether there are any
  behind it. -/
  confined : ∀ code' : Bytes, (∀ x, i.pc ≤ x → x < i.pc + i.length → code'[x]? = code[x]?) →
    Script.jumpTarget code' i.pc = Script.jumpTarget code i.pc ∧
      Script.switchTargets code' i.pc = Script.switchTargets code i.pc

theorem Instruction.readable {i : Instruction} (hop : opcodeAt? code i.pc = some i.op)
    (hlen : instructionLength? code i.pc = some i.length) : i.Readable code := by
  have hself := window_of_same hop hlen fun _ _ _ => rfl
  obtain ⟨target, hjump, -⟩ := hself.jumpTarget hop hlen
  obtain ⟨targets, hswitch, -, harms⟩ := hself.switchTargets hop hlen
  refine ⟨⟨target, hjump⟩, ⟨targets, hswitch⟩, fun width hw hs hall => ?_, fun code' hsame => ?_⟩
  · obtain ⟨found, rfl, hsize⟩ := harms width hw hs hall
    exact ⟨found, hswitch, hsize⟩
  · have h := window_of_same hop hlen hsame
    obtain ⟨_, hr, hr'⟩ := h.jumpTarget hop hlen
    obtain ⟨_, hs, hs', -⟩ := h.switchTargets hop hlen
    exact ⟨hr'.trans hr.symm, hs'.trans hs.symm⟩

/-- Every instruction has its line in a listing. -/
theorem Instruction.Readable.addLine {s : Script} {i : Instruction} (h : i.Readable s.code)
    (hfits : i.pc + i.length ≤ s.code.size) (text : String) : ∃ line, s.addLine text i = .ok line := by
  obtain ⟨target, hjump⟩ := h.jump
  obtain ⟨targets, hswitch⟩ := h.switch
  have hoperand : ∃ operand, Script.operandText s.code i = .ok operand := by
    rw [Script.operandText, hjump]
    cases target with
    | some target => exact ⟨_, rfl⟩
    | none =>
      simp only [Except.bind, bind, hswitch]
      cases targets with
      | some targets => exact ⟨_, rfl⟩
      | none =>
        by_cases hlength : i.length = 3
        · obtain ⟨n, hn, -⟩ := Window.u16? (⟨hfits, fun _ _ _ => rfl⟩ : Window s.code s.code i.pc _)
            (show i.pc ≤ i.pc + 1 by omega) (by omega)
          simp only [hlength, hn]
          exact ⟨_, rfl⟩
        · simp only [if_pos hlength]
          exact ⟨_, rfl⟩
  obtain ⟨operand, hoperand⟩ := hoperand
  rw [Script.addLine, hoperand]
  exact ⟨_, rfl⟩

/-- Whatever the bytes of a script are, the walk over them comes to its end with instructions one
behind the other, each can be read back from its own bytes, and the script can be listed. -/
theorem Script.decodes (s : Script) :
    Walks s.code 0 (instructions s.code) ∧
      (∀ i ∈ instructions s.code, i.Readable s.code) ∧ ∃ text, s.listing = .ok text := by
  have hwalks := walks_instructions s.code
  have hreadable : ∀ i ∈ instructions s.code, i.Readable s.code := fun i hi =>
    Instruction.readable (hwalks.whole hi).1 (hwalks.whole hi).2
  refine ⟨hwalks, hreadable, ?_⟩
  have hlines : ∀ is : List Instruction, (∀ i ∈ is, i ∈ instructions s.code) →
      ∀ text, ∃ out, is.foldlM s.addLine text = .ok out := by
    intro is
    induction is with
    | nil => exact fun _ text => ⟨text, rfl⟩
    | cons i is ih =>
      intro his text
      have hi := his i (List.mem_cons_self ..)
      obtain ⟨hop, hlen⟩ := hwalks.whole hi
      obtain ⟨line, hline⟩ := (hreadable i hi).addLine ((instructionLength?_eq_some hop).mp hlen).1 text
      rw [List.foldlM_cons, hline]
      exact ih (fun j hj => his j (List.mem_cons_of_mem _ hj)) line
  exact hlines _ (fun _ hi => hi) ""

end ScriptCompiler
