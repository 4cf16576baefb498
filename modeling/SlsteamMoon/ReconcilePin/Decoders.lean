import SlsteamMoon.NumberFields
import SlsteamMoon.SoleMatch
import SlsteamMoon.KeyValues.Text

/-! The two decoders of EvaluateConfigChanges' code: where its call of the target-vector builder stands, and at which
offset of the context its loop finds the depot vector. -/
namespace SlsteamMoon.ReconcilePin
open KeyValues CheckedReads Check SoleMatch NumberFields

def kBuilderCallOff : Nat := 0x183
def kBuilderCallWindow : Nat := 0x40
def kMaxCtxDepotVectorOff : Nat := 0x1000

/-- mov edi,[ebp+8]; mov eax,esi; shl eax,5; add eax,… -/
def kHead : Bytes := [0x8b, 0x7d, 0x08, 0x89, 0xf0, 0xc1, 0xe0, 0x05, 0x03]

/-- All of the bytes, as memcmp and memcpy read them. A decoder refuses nothing with a diagnostic. -/
def bytesAt (code : Bytes) (off n : Nat) : Check Empty Bytes :=
  if off + n ≤ code.length then .passed (slice code off n) else .outside

section
variable (code : Bytes) (codeAddr : Nat) (targetExecutable : Nat → Bool)

/-- The target of the call at the offset; addresses and sizes have 32 bits, and a negative distance wraps around. -/
def callTarget (off rel : Nat) : Nat := (codeAddr + off + 5 + rel) % 0x100000000

def callTargetOk (off : Nat) : Check Empty Bool :=
  if code.length < (off + 8) % 0x100000000 then pure false
  else do
    if ← either (differs (readAt code off) 0xe8)
        (either (differs (readAt code (off + 5)) 0x83)
          (either (differs (readAt code (off + 6)) 0xc4) (differs (readAt code (off + 7)) 0x20))) then
      pure false
    else
      let rel ← bytesAt code (off + 1) 4
      pure (targetExecutable (callTarget codeAddr off (number rel)))

/-- None is the answer -1. A window that ends at the last number of all is never left; the only caller's constants
stand far below it. -/
def findBuilderCallRel32 (expectedOff window : Nat) : Check Empty (Option Nat) := do
  if ← callTargetOk code codeAddr targetExecutable expectedOff then pure (some expectedOff)
  else
    let lo := expectedOff - window
    let hi := (expectedOff + window) % 0x100000000
    uniqueLoop
      (fun off =>
        if off = expectedOff then pure none
        else do if ← callTargetOk code codeAddr targetExecutable off then pure (some off) else pure none)
      (fun _ => true) (List.range' lo (hi + 1 - lo)) none

/-- The operand at the offset, widened with zeros; none where the sequence or its encoding is another. -/
def displacementAt (off : Nat) : Check Empty (Option Nat) := do
  let head ← bytesAt code off kHead.length
  if head ≠ kHead then pure none
  else
    let modrm := off + kHead.length
    let form ← readAt code modrm
    if form = 0x47 then
      let disp ← readAt code (modrm + 1)
      pure (some disp.toNat)
    else if form = 0x87 ∧ modrm + 5 ≤ code.length then
      let disp ← bytesAt code (modrm + 1) 4
      pure (some (number disp))
    else pure none

def findCtxDepotVectorOffset : Check Empty (Option Nat) :=
  uniqueLoop (displacementAt code) (fun disp => !(disp = 0 || disp % 4 ≠ 0 || kMaxCtxDepotVectorOff < disp))
    (List.range (code.length + 1 - (kHead.length + 2))) none

end

/-- The forms of the operand: one byte behind the mod-r/m byte, or four. -/
inductive Form where
  | disp8
  | disp32
  deriving DecidableEq

namespace Form

def modrm : Form → UInt8
  | disp8 => 0x47
  | disp32 => 0x87

def width : Form → Nat
  | disp8 => 1
  | disp32 => 4

end Form

/-- The sequence stands at the offset with this operand, all of it inside. -/
def LoadsAt (code : Bytes) (off : Nat) (form : Form) (operand : Bytes) : Prop :=
  operand.length = form.width ∧ StandsAt code off (kHead ++ form.modrm :: operand)

/-- What the instruction adds to the register, sign-extended. -/
def displacement (operand : Bytes) : Int := (number operand : Int).bmod (256 ^ operand.length)

/-- The only load in the code. -/
structure OnlyLoad (code : Bytes) (off : Nat) (form : Form) (operand : Bytes) : Prop where
  loads : LoadsAt code off form operand
  only : ∀ off' form' operand', LoadsAt code off' form' operand' → off' = off

/-- A whole call with its cleanup of eight arguments, to executable memory. -/
def CallSite (code : Bytes) (codeAddr : Nat) (targetExecutable : Nat → Bool) (off : Nat) : Prop :=
  ∃ rel : Bytes, rel.length = 4 ∧ StandsAt code off (0xe8 :: (rel ++ [0x83, 0xc4, 0x20])) ∧
    targetExecutable (callTarget codeAddr off (number rel)) = true

section
variable {code : Bytes} {codeAddr : Nat} {targetExecutable : Nat → Bool} {off n : Nat} {form : Form} {operand : Bytes}

private theorem bytesAt_of_le (h : off + n ≤ code.length) : bytesAt code off n = .passed (slice code off n) := if_pos h

private theorem exists_readAt (h : off < code.length) :
    ∃ byte, code[off]? = some byte ∧ (readAt code off : Check Empty UInt8) = .passed byte :=
  ⟨code[off], List.getElem?_eq_getElem h, readAt_eq (List.getElem?_eq_getElem h)⟩

/-- A call site, byte by byte. -/
theorem callSite_iff (hinside : off + 8 ≤ code.length) :
    CallSite code codeAddr targetExecutable off ↔
      code[off]? = some 0xe8 ∧ code[off + 5]? = some 0x83 ∧ code[off + 6]? = some 0xc4 ∧ code[off + 7]? = some 0x20 ∧
        targetExecutable (callTarget codeAddr off (number (slice code (off + 1) 4))) = true := by
  have hcleanup : StandsAt code (off + 5) [0x83, 0xc4, 0x20] ↔
      code[off + 5]? = some 0x83 ∧ code[off + 6]? = some 0xc4 ∧ code[off + 7]? = some 0x20 := by
    have hempty : StandsAt code (off + 5 + 1 + 1 + 1) [] := List.nil_prefix
    rw [standsAt_cons_iff, standsAt_cons_iff, standsAt_cons_iff, and_iff_left hempty]
  constructor
  · rintro ⟨rel, hrel, hstands, htarget⟩
    rw [standsAt_cons_iff, standsAt_append_iff, hrel, hcleanup] at hstands
    obtain ⟨hop, hword, h₁, h₂, h₃⟩ := hstands
    rw [hword.eq_slice, hrel] at htarget
    exact ⟨hop, h₁, h₂, h₃, htarget⟩
  · rintro ⟨hop, h₁, h₂, h₃, htarget⟩
    have hrel : (slice code (off + 1) 4).length = 4 := length_slice (by omega)
    refine ⟨slice code (off + 1) 4, hrel, ?_, htarget⟩
    rw [standsAt_cons_iff, standsAt_append_iff, hrel, hcleanup]
    exact ⟨hop, standsAt_slice code (off + 1) 4, h₁, h₂, h₃⟩

/-- No byte is read outside, and exactly the call sites are acceptable. -/
theorem callTargetOk_spec (code : Bytes) (codeAddr : Nat) (targetExecutable : Nat → Bool) (off : Nat)
    (hoff : off + 8 < 0x100000000) :
    ∃ ok, callTargetOk code codeAddr targetExecutable off = .passed ok ∧
      (ok = true ↔ CallSite code codeAddr targetExecutable off) := by
  rw [callTargetOk, Nat.mod_eq_of_lt hoff]
  obtain hshort | hlong := Nat.lt_or_ge code.length (off + 8)
  · refine ⟨false, if_pos hshort, iff_of_false Bool.false_ne_true ?_⟩
    rintro ⟨rel, hrel, hstands, -⟩
    have hle := length_le_of_standsAt (List.cons_ne_nil _ _) hstands
    rw [List.length_cons, List.length_append, hrel] at hle
    exact absurd hle (Nat.not_le.mpr hshort)
  · have hread : ∀ k, k < 8 → ∃ byte, code[off + k]? = some byte ∧
        (readAt code (off + k) : Check Empty UInt8) = .passed byte :=
      fun k hk => exists_readAt (by omega)
    obtain ⟨op, hop, hreadOp⟩ := hread 0 (by decide)
    obtain ⟨c₁, hc₁, hread₁⟩ := hread 5 (by decide)
    obtain ⟨c₂, hc₂, hread₂⟩ := hread 6 (by decide)
    obtain ⟨c₃, hc₃, hread₃⟩ := hread 7 (by decide)
    have hguards := Guards.either (guards_differs hreadOp 0xe8) fun _ =>
      Guards.either (guards_differs hread₁ 0x83) fun _ =>
        Guards.either (guards_differs hread₂ 0xc4) fun _ => guards_differs hread₃ 0x20
    obtain ⟨other, hother, hiff⟩ := hguards
    rw [if_neg (Nat.not_lt.mpr hlong), callSite_iff hlong, hc₁, hc₂, hc₃]
    rw [Nat.add_zero] at hother hop
    rw [hother, hop, passed_bind]
    simp only [Option.some.injEq]
    cases other with
    | true =>
      refine ⟨false, rfl, iff_of_false Bool.false_ne_true ?_⟩
      rintro ⟨h, h₁, h₂, h₃, -⟩
      exact Bool.noConfusion (hiff.mpr ⟨h, h₁, h₂, h₃⟩)
    | false =>
      obtain ⟨h, h₁, h₂, h₃⟩ := hiff.mp rfl
      rw [if_neg Bool.false_ne_true, bytesAt_of_le (by omega), passed_bind]
      refine ⟨_, rfl, ?_⟩
      simp only [h, h₁, h₂, h₃, true_and]

/-- The load, head first. -/
theorem loadsAt_iff : LoadsAt code off form operand ↔
    operand.length = form.width ∧ StandsAt code off kHead ∧ code[off + kHead.length]? = some form.modrm ∧
      StandsAt code (off + kHead.length + 1) operand := by
  rw [LoadsAt, standsAt_append_iff, standsAt_cons_iff]

private theorem modrm_injective {form form' : Form} (h : form.modrm = form'.modrm) : form = form' := by
  cases form <;> cases form' <;> first | rfl | exact absurd h (by decide)

/-- A load whose head and form are known. -/
theorem exists_loadsAt_iff {disp : Nat} (hstands : StandsAt code off kHead)
    (hmodrm : code[off + kHead.length]? = some form.modrm) :
    (∃ form operand, LoadsAt code off form operand ∧ number operand = disp) ↔
      ∃ operand, operand.length = form.width ∧ StandsAt code (off + kHead.length + 1) operand ∧ number operand = disp := by
  simp only [loadsAt_iff]
  constructor
  · rintro ⟨form', operand, ⟨hlength, -, hmodrm', hoperand⟩, hdisp⟩
    obtain rfl := modrm_injective (Option.some.inj (hmodrm.symm.trans hmodrm'))
    exact ⟨operand, hlength, hoperand, hdisp⟩
  · rintro ⟨operand, hlength, hoperand, hdisp⟩
    exact ⟨form, operand, ⟨hlength, hstands, hmodrm, hoperand⟩, hdisp⟩

/-- An operand that stands inside. -/
theorem exists_operand_iff {disp : Nat} (h : off + n ≤ code.length) :
    (∃ operand : Bytes, operand.length = n ∧ StandsAt code off operand ∧ number operand = disp) ↔
      number (slice code off n) = disp := by
  constructor
  · rintro ⟨operand, rfl, hoperand, hdisp⟩
    rwa [← hoperand.eq_slice]
  · intro hdisp
    exact ⟨slice code off n, length_slice h, standsAt_slice code off n, hdisp⟩

private theorem number_byte (b : UInt8) : number [b] = b.toNat := by rw [number, number, Nat.mul_zero, Nat.add_zero]

/-- No byte is read outside, and exactly the loads yield an operand. -/
theorem displacementAt_spec (h : off + (kHead.length + 2) ≤ code.length) :
    ∃ found, displacementAt code off = .passed found ∧
      ∀ disp, found = some disp ↔ ∃ form operand, LoadsAt code off form operand ∧ number operand = disp := by
  rw [displacementAt, bytesAt_of_le (by omega), passed_bind]
  by_cases hmatch : slice code off kHead.length = kHead
  · have hstands : StandsAt code off kHead := hmatch ▸ standsAt_slice code off kHead.length
    obtain ⟨modrm, hmodrm, hreadModrm⟩ := exists_readAt (show off + kHead.length < code.length by omega)
    rw [if_neg (not_not.mpr hmatch)]
    dsimp only
    rw [hreadModrm, passed_bind]
    by_cases h8 : modrm = 0x47
    · obtain ⟨disp, hdisp, hreadDisp⟩ := exists_readAt (show off + kHead.length + 1 < code.length by omega)
      have hbyte : StandsAt code (off + kHead.length + 1) [disp] := standsAt_cons_iff.mpr ⟨hdisp, List.nil_prefix⟩
      have hslice : slice code (off + kHead.length + 1) 1 = [disp] := hbyte.eq_slice.symm
      rw [if_pos h8, hreadDisp, passed_bind]
      refine ⟨_, rfl, fun value => ?_⟩
      have hform : code[off + kHead.length]? = some Form.disp8.modrm := hmodrm.trans (congrArg some h8)
      rw [exists_loadsAt_iff hstands hform, Form.width, exists_operand_iff (by omega),
        hslice, number_byte, Option.some.injEq]
    · rw [if_neg h8]
      by_cases h32 : modrm = 0x87
      · have hform : code[off + kHead.length]? = some Form.disp32.modrm := hmodrm.trans (congrArg some h32)
        simp only [exists_loadsAt_iff hstands hform, Form.width]
        by_cases hinside : off + kHead.length + 5 ≤ code.length
        · rw [if_pos ⟨h32, hinside⟩, bytesAt_of_le (by omega), passed_bind]
          refine ⟨_, rfl, fun value => ?_⟩
          rw [exists_operand_iff (by omega), Option.some.injEq]
        · rw [if_neg fun hboth => hinside hboth.2]
          refine ⟨none, rfl, fun value => iff_of_false (Option.some_ne_none value).symm ?_⟩
          rintro ⟨operand, hlength, hoperand, -⟩
          have hle := length_le_of_standsAt (List.ne_nil_of_length_pos (by omega)) hoperand
          omega
      · rw [if_neg fun hboth => h32 hboth.1]
        refine ⟨none, rfl, fun value => iff_of_false (Option.some_ne_none value).symm ?_⟩
        rintro ⟨form, operand, hload, -⟩
        have hform : modrm = form.modrm := Option.some.inj (hmodrm.symm.trans (loadsAt_iff.mp hload).2.2.1)
        cases form with
        | disp8 => exact h8 hform
        | disp32 => exact h32 hform
  · rw [if_pos hmatch]
    refine ⟨none, rfl, fun value => iff_of_false (Option.some_ne_none value).symm ?_⟩
    rintro ⟨form, operand, hload, -⟩
    exact hmatch (loadsAt_iff.mp hload).2.1.eq_slice.symm

theorem LoadsAt.inside (h : LoadsAt code off form operand) : off + (kHead.length + 2) ≤ code.length := by
  have hle := length_le_of_standsAt (List.append_ne_nil_of_left_ne_nil (by decide) _) h.2
  have hwidth : 1 ≤ form.width := by cases form <;> decide
  rw [List.length_append, List.length_cons, h.1] at hle
  omega

private theorem inside_of_mem_range (h : off ∈ List.range (code.length + 1 - n)) : off + n ≤ code.length := by
  have hlt := List.mem_range.mp h
  omega

/-- The offset that is returned is the operand of the only load, widened with zeros, and plausible. -/
theorem findCtxDepotVectorOffset_eq (code : Bytes) : ∃ answer, findCtxDepotVectorOffset code = .passed answer ∧
    ∀ d, answer = some d ↔ (0 < d ∧ d ≤ kMaxCtxDepotVectorOff ∧ 4 ∣ d) ∧
      ∃ off form operand, OnlyLoad code off form operand ∧ number operand = d := by
  have hspec : ∀ off, ∃ found, off ∈ List.range (code.length + 1 - (kHead.length + 2)) →
      displacementAt code off = .passed found ∧
        ∀ disp, found = some disp ↔ ∃ form operand, LoadsAt code off form operand ∧ number operand = disp := by
    intro off
    by_cases hoff : off ∈ List.range (code.length + 1 - (kHead.length + 2))
    · obtain ⟨found, hfound⟩ := displacementAt_spec (inside_of_mem_range hoff)
      exact ⟨found, fun _ => hfound⟩
    · exact ⟨none, fun h => absurd h hoff⟩
  choose value hvalue using hspec
  have hmem : ∀ {off form operand}, LoadsAt code off form operand →
      off ∈ List.range (code.length + 1 - (kHead.length + 2)) := by
    intro off form operand hload
    have hinside := hload.inside
    exact List.mem_range.mpr (by omega)
  refine ⟨_, uniqueLoop_none fun off hoff => (hvalue off hoff).1, fun d => ?_⟩
  rw [sole_eq_some_iff List.nodup_range]
  refine and_congr ?_ ?_
  · rw [Nat.dvd_iff_mod_eq_zero]
    simp
    omega
  · constructor
    · rintro ⟨off, hoff, hd, honly⟩
      obtain ⟨form, operand, hload, hnumber⟩ := ((hvalue off hoff).2 d).mp hd
      refine ⟨off, form, operand, ⟨hload, fun off' form' operand' hload' => ?_⟩, hnumber⟩
      have hsome := ((hvalue off' (hmem hload')).2 _).mpr ⟨form', operand', hload', rfl⟩
      exact honly off' (hmem hload') (by rw [hsome]; exact Option.isSome_some)
    · rintro ⟨off, form, operand, honly, hnumber⟩
      refine ⟨off, hmem honly.loads, ((hvalue off (hmem honly.loads)).2 d).mpr ⟨form, operand, honly.loads, hnumber⟩, ?_⟩
      intro other hother hsome
      obtain ⟨disp, hdisp⟩ := Option.isSome_iff_exists.mp hsome
      obtain ⟨form', operand', hload', -⟩ := ((hvalue other hother).2 disp).mp hdisp
      exact honly.only other form' operand' hload'

/-- Nothing is read outside, and what is returned is encoded by the only load, and plausible. -/
def CtxDecoded (code : Bytes) : Prop :=
  findCtxDepotVectorOffset code ≠ .outside ∧
    ∀ d, findCtxDepotVectorOffset code = .passed (some d) →
      (0 < d ∧ d ≤ kMaxCtxDepotVectorOff ∧ 4 ∣ d) ∧
        ∃ off form operand, OnlyLoad code off form operand ∧ displacement operand = d

/-- Nothing is read outside, and what is returned is a call site, the expected one or the only one of the window. -/
def CallDecoded (code : Bytes) (codeAddr : Nat) (targetExecutable : Nat → Bool) (expectedOff window : Nat) : Prop :=
  findBuilderCallRel32 code codeAddr targetExecutable expectedOff window ≠ .outside ∧
    ∀ o, findBuilderCallRel32 code codeAddr targetExecutable expectedOff window = .passed (some o) →
      CallSite code codeAddr targetExecutable o ∧
        (o = expectedOff ∨ (expectedOff ≤ o + window ∧ o ≤ expectedOff + window ∧
          ∀ o', expectedOff ≤ o' + window → o' ≤ expectedOff + window →
            CallSite code codeAddr targetExecutable o' → o' = o))

/-- The only load has a one-byte operand that encodes a negative distance, a multiple of four. -/
def NegativeDisp8 (code : Bytes) : Prop :=
  ∃ off b, OnlyLoad code off .disp8 [b] ∧ 0x80 ≤ b.toNat ∧ 4 ∣ b.toNat

private theorem displacement_byte (b : UInt8) :
    displacement [b] = if b.toNat < 0x80 then (b.toNat : Int) else b.toNat - 256 := by
  have hlt := b.toNat_lt
  rw [displacement, number_byte, List.length_singleton]
  split_ifs with h
  · exact Int.bmod_eq_of_le (by omega) (by omega)
  · simp only [Int.bmod]
    omega

private theorem displacement_word (hlength : operand.length = 4) (h : number operand ≤ kMaxCtxDepotVectorOff) :
    displacement operand = number operand := by
  rw [displacement, hlength]
  have hmax : kMaxCtxDepotVectorOff = 0x1000 := rfl
  exact Int.bmod_eq_of_le (by omega) (by omega)

private theorem findBuilderCallRel32_decoded (code : Bytes) (codeAddr : Nat) (targetExecutable : Nat → Bool)
    (expectedOff window : Nat) (hwindow : expectedOff + window + 8 < 0x100000000) :
    CallDecoded code codeAddr targetExecutable expectedOff window := by
  choose! ok hspec using callTargetOk_spec code codeAddr targetExecutable
  have hok : ∀ {off}, off ≤ expectedOff + window →
      callTargetOk code codeAddr targetExecutable off = .passed (ok off) := fun h => (hspec _ (by omega)).1
  have hsite : ∀ {off}, off ≤ expectedOff + window →
      (ok off = true ↔ CallSite code codeAddr targetExecutable off) := fun h => (hspec _ (by omega)).2
  have hexpectedOff : expectedOff ≤ expectedOff + window := Nat.le_add_right _ _
  rw [CallDecoded, findBuilderCallRel32, hok hexpectedOff, passed_bind,
    Nat.mod_eq_of_lt (show expectedOff + window < 0x100000000 by omega)]
  cases hexpected : ok expectedOff with
  | true =>
    rw [if_pos rfl]
    refine ⟨(fun h => by cases h), fun o ho => ?_⟩
    cases ho
    exact ⟨(hsite hexpectedOff).mp hexpected, .inl rfl⟩
  | false =>
    rw [if_neg Bool.false_ne_true]
    dsimp only
    have hprobe : ∀ off ∈ List.range' (expectedOff - window) (expectedOff + window + 1 - (expectedOff - window)),
        (if off = expectedOff then pure none
          else do if ← callTargetOk code codeAddr targetExecutable off then pure (some off) else pure none) =
          Check.passed (if off = expectedOff then none else if ok off then some off else none) := by
      intro off hoff
      rw [List.mem_range'_1] at hoff
      rw [hok (by omega), passed_bind]
      split_ifs <;> rfl
    rw [uniqueLoop_none hprobe]
    refine ⟨(fun h => by cases h), fun o ho => ?_⟩
    obtain ⟨-, off, hoff, hvalue, honly⟩ := (sole_eq_some_iff List.nodup_range').mp (passed.inj ho)
    obtain ⟨hne, hvalue⟩ := Option.ite_none_left_eq_some.mp hvalue
    obtain ⟨hoffOk, hvalue⟩ := Option.ite_none_right_eq_some.mp hvalue
    obtain rfl := Option.some.inj hvalue
    rw [List.mem_range'_1] at hoff
    refine ⟨(hsite (by omega)).mp hoffOk, .inr ⟨by omega, by omega, fun o' hlow hhigh hsite' => ?_⟩⟩
    have hokSite : ok o' = true := (hsite hhigh).mpr hsite'
    have hother : o' ≠ expectedOff := by
      rintro rfl
      exact Bool.false_ne_true (hexpected.symm.trans hokSite)
    refine honly o' (List.mem_range'_1.mpr (by omega)) ?_
    rw [if_neg hother, if_pos hokSite]
    rfl

/-- Two loads at one place are one. -/
theorem LoadsAt.unique {form' : Form} {operand' : Bytes} (h : LoadsAt code off form operand)
    (h' : LoadsAt code off form' operand') : form = form' ∧ operand = operand' := by
  obtain ⟨hlength, -, hmodrm, hoperand⟩ := loadsAt_iff.mp h
  obtain ⟨hlength', -, hmodrm', hoperand'⟩ := loadsAt_iff.mp h'
  obtain rfl := modrm_injective (Option.some.inj (hmodrm.symm.trans hmodrm'))
  exact ⟨rfl, hoperand.unique hoperand' (hlength.trans hlength'.symm)⟩

private theorem ctxDecoded_iff (code : Bytes) : CtxDecoded code ↔ ¬NegativeDisp8 code := by
  obtain ⟨answer, hanswer, hd⟩ := findCtxDepotVectorOffset_eq code
  simp only [CtxDecoded, hanswer, passed.injEq, hd]
  constructor
  · rintro ⟨-, hdecoded⟩ ⟨off, b, honly, hnegative, hdvd⟩
    have hlt := b.toNat_lt
    have hmax : kMaxCtxDepotVectorOff = 0x1000 := rfl
    have hfits : 0 < b.toNat ∧ b.toNat ≤ kMaxCtxDepotVectorOff ∧ 4 ∣ b.toNat := ⟨by omega, by omega, hdvd⟩
    obtain ⟨-, off', form, operand, honly', hencoded⟩ :=
      hdecoded b.toNat ⟨hfits, off, .disp8, [b], honly, number_byte b⟩
    obtain rfl := honly.only off' form operand honly'.loads
    obtain ⟨rfl, rfl⟩ := honly.loads.unique honly'.loads
    rw [displacement_byte, if_neg (Nat.not_lt.mpr hnegative)] at hencoded
    omega
  · intro hpositive
    refine ⟨(fun h => by cases h), fun d hfits => ⟨hfits.1, ?_⟩⟩
    obtain ⟨⟨hpos, hmax, hdvd⟩, off, form, operand, honly, rfl⟩ := hfits
    refine ⟨off, form, operand, honly, ?_⟩
    cases form with
    | disp8 =>
      obtain ⟨b, rfl⟩ := List.length_eq_one_iff.mp honly.loads.1
      rw [number_byte] at hdvd ⊢
      rw [displacement_byte, if_pos]
      by_contra hnegative
      exact hpositive ⟨off, b, honly, Nat.le_of_not_lt hnegative, hdvd⟩
    | disp32 => exact displacement_word honly.loads.1 hmax

/-- The decoders do not guess, except that a one-byte operand is widened with zeros where the instruction extends its
sign. -/
theorem code_decoders_exact_iff (code : Bytes) (codeAddr : Nat) (targetExecutable : Nat → Bool)
    (expectedOff window : Nat) (hwindow : expectedOff + window + 8 < 0x100000000) :
    (CtxDecoded code ∧ CallDecoded code codeAddr targetExecutable expectedOff window) ↔ ¬NegativeDisp8 code := by
  rw [and_iff_left (findBuilderCallRel32_decoded code codeAddr targetExecutable expectedOff window hwindow)]
  exact ctxDecoded_iff code

/-- A load of the field at 0x78, searched with the caller's constants. -/
theorem code_decoders_exact_load :
    CtxDecoded (kHead ++ [0x47, 0x78]) ∧
      CallDecoded (kHead ++ [0x47, 0x78]) 0 (fun _ => true) kBuilderCallOff kBuilderCallWindow := by
  refine (code_decoders_exact_iff _ _ _ _ _ (by decide)).mpr ?_
  rintro ⟨off, b, honly, hnegative, -⟩
  have hloads : LoadsAt (kHead ++ [0x47, 0x78]) 0 .disp8 [0x78] := ⟨rfl, List.prefix_rfl⟩
  obtain rfl := honly.only 0 .disp8 [0x78] hloads
  obtain ⟨-, hoperand⟩ := hloads.unique honly.loads
  obtain rfl := List.head_eq_of_cons_eq hoperand
  exact absurd hnegative (by decide)

/-- add eax,[edi-0x70] -/
def negativeLoad : Bytes := kHead ++ [0x47, 0x90]

/-- The field is 0x70 bytes in front of where the register points, and the decoder answers 0x90 behind it. -/
theorem negative_load_misread :
    findCtxDepotVectorOffset negativeLoad = .passed (some 0x90) ∧ displacement [0x90] = -0x70 ∧
      ¬CtxDecoded negativeLoad := by
  refine ⟨rfl, displacement_byte 0x90, fun hdecoded => (ctxDecoded_iff negativeLoad).mp hdecoded ?_⟩
  have hloads : LoadsAt negativeLoad 0 .disp8 [0x90] := ⟨rfl, List.prefix_rfl⟩
  refine ⟨0, 0x90, ⟨hloads, fun off form operand hload => ?_⟩, by decide, by decide⟩
  have hinside : off + 11 ≤ 11 := hload.inside
  omega

end
end SlsteamMoon.ReconcilePin
