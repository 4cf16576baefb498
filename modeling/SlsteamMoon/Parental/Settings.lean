import SlsteamMoon.Stats.Wire
import Mathlib.Data.List.Induction

/-! The parental settings on the wire: the walk over the fields of the message and the rewrite that
keeps parental mode on with every feature unlocked. -/
namespace SlsteamMoon.Parental
open KeyValues Stats

/-- One turn of the walk. -/
def readField (d : Bytes) : Option (Field × Bytes) :=
  (readVarint d).bind fun (tag, rest) =>
    if tag >>> 3 = 0 ∨ 0x1fffffff < tag >>> 3 then none
    else (readValue (tag % 8) rest).map fun (value, after) =>
      (⟨tag >>> 3, tag % 8, d.take (d.length - after.length), value⟩, after)

/-- The fields shown to the callback, of a message that is walked to its end. -/
def walkFuel : Nat → Bytes → Option (List Field)
  | _, [] => some []
  | 0, _ :: _ => none
  | fuel + 1, b :: d => (readField (b :: d)).bind fun (field, after) =>
      (walkFuel fuel after).map (field :: ·)

/-- A field takes a byte, so the length bounds their number. -/
def walk (d : Bytes) : Option (List Field) := walkFuel d.length d

def putVarintField (number : UInt32) (value : UInt64) : Bytes :=
  putVarint (number.toUInt64 <<< 3) ++ putVarint value

def unlockableFeatures : UInt64 := 0x7fff

/-- What the callback of rewriteSettings has gathered. -/
structure Rewrite where
  out : Bytes
  parentalEnabled : Bool

/-- The callback: is_enabled is looked at and left out, the feature masks and the playtime
restrictions are left out, and any other field is copied. -/
def Rewrite.field (s : Rewrite) (f : Field) : Rewrite :=
  if f.number = 9 then
    if f.wireType = 0 then
      match readVarint f.value with
      | some (value, _) => { s with parentalEnabled := value ≠ 0 }
      | none => s
    else s
  else if f.number = 10 ∨ f.number = 13 ∨ f.number = 15 ∨ f.number = 16 then s
  else { s with out := s.out ++ f.raw }

def rewriteSettings (d : Bytes) : Option Bytes :=
  (walk d).map fun fields =>
    let s := fields.foldl Rewrite.field ⟨[], false⟩
    if s.parentalEnabled then
      s.out ++ putVarintField 9 1 ++ putVarintField 10 unlockableFeatures ++
        putVarintField 13 unlockableFeatures
    else d

/-- A well-formed field: a tag with a number below 2^29 and a wire type, and its body. -/
def IsField (f : Field) : Prop :=
  ∃ tag n body, IsVarint tag n ∧ f.number = n / 8 ∧ 1 ≤ f.number ∧ f.number ≤ 2 ^ 29 - 1 ∧
    f.wireType = n % 8 ∧ IsBody f.wireType body f.value ∧ f.raw = tag ++ body

/-- The message is these fields, one after the other. -/
def IsRow (fields : List Field) (d : Bytes) : Prop :=
  d = fields.flatMap Field.raw ∧ ∀ f ∈ fields, IsField f

/-- What a reader of the message takes the number for: the last varint field of it. -/
def LastVarint (fields : List Field) (number value : Nat) : Prop :=
  ∃ before f after, fields = before ++ f :: after ∧ f.number = number ∧ f.wireType = 0 ∧
    IsVarint f.value value ∧ ∀ g ∈ after, ¬(g.number = number ∧ g.wireType = 0)

/-- The fields the rewrite has nothing to say about. -/
def Untouched (f : Field) : Prop :=
  f.number ≠ 9 ∧ f.number ≠ 10 ∧ f.number ≠ 13 ∧ f.number ≠ 15 ∧ f.number ≠ 16

instance : DecidablePred Untouched := fun f =>
  inferInstanceAs (Decidable (f.number ≠ 9 ∧ f.number ≠ 10 ∧ f.number ≠ 13 ∧ f.number ≠ 15 ∧ f.number ≠ 16))

theorem readField_eq_some_iff {d rest : Bytes} {f : Field} :
    readField d = some (f, rest) ↔ d = f.raw ++ rest ∧ IsField f := by
  constructor
  · intro h
    obtain ⟨⟨n, after⟩, hv, hafter⟩ := Option.bind_eq_some_iff.mp h
    obtain ⟨tag, rfl, htag⟩ := readVarint_eq_some_iff.mp hv
    dsimp only at hafter
    split_ifs at hafter with hnumber
    obtain ⟨⟨value, tail⟩, hvalue, heq⟩ := Option.map_eq_some_iff.mp hafter
    obtain ⟨body, rfl, hbody⟩ := readValue_eq_some_iff.mp hvalue
    rw [← List.append_assoc, take_front] at heq
    cases heq
    have hshift : n >>> 3 = n / 8 := Nat.shiftRight_eq_div_pow n 3
    exact ⟨(List.append_assoc tag body tail).symm, tag, n, body, htag, hshift, by dsimp only; omega,
      by dsimp only; omega, rfl, hbody, rfl⟩
  · rintro ⟨rfl, tag, n, body, htag, hnumber, hlow, hhigh, hwireType, hbody, hraw⟩
    have hshift : n >>> 3 = f.number := (Nat.shiftRight_eq_div_pow n 3).trans hnumber.symm
    have hinside : ¬(f.number = 0 ∨ 0x1fffffff < f.number) := by omega
    have hvalue : readValue f.wireType (body ++ rest) = some (f.value, rest) :=
      readValue_eq_some_iff.mpr ⟨body, rfl, hbody⟩
    rw [hraw, List.append_assoc, readField, readVarint_eq_some_iff.mpr ⟨_, rfl, htag⟩, Option.bind_some]
    simp only [hshift, if_neg hinside, ← hwireType, hvalue, Option.map_some, ← List.append_assoc, ← hraw,
      take_front]

private theorem IsField.raw_ne_nil {f : Field} (h : IsField f) : f.raw ≠ [] := by
  obtain ⟨tag, n, body, htag, -, -, -, -, -, hraw⟩ := h
  intro hnil
  rw [hraw] at hnil
  obtain ⟨rfl, -⟩ := List.append_eq_nil_iff.mp hnil
  exact not_ends_nil htag.ends

private theorem isRow_nil_iff {fields : List Field} : IsRow fields [] ↔ fields = [] := by
  constructor
  · rintro ⟨hnil, hfields⟩
    cases fields with
    | nil => rfl
    | cons f rest =>
      have hraw := (hfields f List.mem_cons_self).raw_ne_nil
      exact absurd (List.append_eq_nil_iff.mp hnil.symm).1 hraw
  · rintro rfl
    exact ⟨rfl, List.forall_mem_nil _⟩

private theorem walkFuel_eq_some_iff {fuel : Nat} {d : Bytes} {fields : List Field} (h : d.length ≤ fuel) :
    walkFuel fuel d = some fields ↔ IsRow fields d := by
  induction fuel generalizing d fields with
  | zero =>
    obtain rfl := List.eq_nil_of_length_eq_zero (Nat.le_zero.mp h)
    rw [isRow_nil_iff, walkFuel, Option.some.injEq, eq_comm]
  | succ fuel ih =>
    cases d with
    | nil => rw [isRow_nil_iff, walkFuel, Option.some.injEq, eq_comm]
    | cons b d =>
      have hshorter : ∀ {f : Field} {after : Bytes}, b :: d = f.raw ++ after → IsField f →
          after.length ≤ fuel := by
        intro f after hd hf
        have hpos := List.length_pos_of_ne_nil hf.raw_ne_nil
        have hlength := congrArg List.length hd
        rw [List.length_cons, List.length_append] at hlength
        rw [List.length_cons] at h
        omega
      constructor
      · intro hwalk
        obtain ⟨⟨f, after⟩, hread, hrest⟩ := Option.bind_eq_some_iff.mp hwalk
        obtain ⟨others, hothers, rfl⟩ := Option.map_eq_some_iff.mp hrest
        obtain ⟨hd, hf⟩ := readField_eq_some_iff.mp hread
        obtain ⟨hafter, hall⟩ := (ih (hshorter hd hf)).mp hothers
        exact ⟨by rw [hd, List.flatMap_cons, ← hafter], List.forall_mem_cons.mpr ⟨hf, hall⟩⟩
      · rintro ⟨hd, hfields⟩
        cases fields with
        | nil => exact absurd hd (List.cons_ne_nil b d)
        | cons f others =>
          obtain ⟨hf, hall⟩ := List.forall_mem_cons.mp hfields
          rw [List.flatMap_cons] at hd
          have hread := readField_eq_some_iff.mpr ⟨hd, hf⟩
          have hothers := (ih (hshorter hd hf)).mpr ⟨rfl, hall⟩
          rw [walkFuel, hread, Option.bind_some]
          dsimp only
          rw [hothers, Option.map_some]

/-- The walk takes a message apart in the one way it can be taken apart. -/
theorem walk_eq_some_iff {d : Bytes} {fields : List Field} : walk d = some fields ↔ IsRow fields d :=
  walkFuel_eq_some_iff le_rfl

end SlsteamMoon.Parental

/-! What the rewrite leaves of a message. The fields it has nothing to say about are copied byte by
byte, the switch and the two masks stand once behind them, and a second rewrite changes nothing. -/
namespace SlsteamMoon.Parental
open KeyValues Stats

private theorem Rewrite.field_out (s : Rewrite) (f : Field) :
    (s.field f).out = s.out ++ ([f].filter Untouched).flatMap Field.raw := by
  by_cases h9 : f.number = 9
  · have htouched : ¬Untouched f := fun h => h.1 h9
    rw [Rewrite.field, if_pos h9]
    split
    · split <;> simp [htouched]
    · simp [htouched]
  · rw [Rewrite.field, if_neg h9]
    split_ifs with hmask
    · have htouched : ¬Untouched f := by
        rintro ⟨-, h10, h13, h15, h16⟩
        tauto
      simp [htouched]
    · have huntouched : Untouched f := by
        refine ⟨h9, ?_⟩
        tauto
      simp [huntouched]

/-- The callback copies the untouched fields in their order. -/
theorem Rewrite.foldl_out (fields : List Field) (s : Rewrite) :
    (fields.foldl Rewrite.field s).out = s.out ++ (fields.filter Untouched).flatMap Field.raw := by
  induction fields generalizing s with
  | nil => simp
  | cons f rest ih =>
    rw [List.foldl_cons, ih, Rewrite.field_out, List.append_assoc, ← List.flatMap_append, ← List.filter_append,
      List.singleton_append]

private theorem lastVarint_concat {fields : List Field} {f : Field} {number value : Nat} :
    LastVarint (fields ++ [f]) number value ↔
      if f.number = number ∧ f.wireType = 0 then IsVarint f.value value
      else LastVarint fields number value := by
  split_ifs with hf
  · constructor
    · rintro ⟨before, g, after, heq, -, -, hvalue, hlater⟩
      rcases List.eq_nil_or_concat' after with rfl | ⟨after, last, rfl⟩
      · obtain ⟨-, hlast⟩ := List.append_inj' heq rfl
        cases hlast
        exact hvalue
      · rw [← List.cons_append, ← List.append_assoc] at heq
        obtain ⟨-, hlast⟩ := List.append_inj' heq rfl
        cases hlast
        exact absurd hf (hlater f (List.mem_append_right _ List.mem_cons_self))
    · intro hvalue
      exact ⟨fields, f, [], rfl, hf.1, hf.2, hvalue, List.forall_mem_nil _⟩
  · constructor
    · rintro ⟨before, g, after, heq, hnumber, hwire, hvalue, hlater⟩
      rcases List.eq_nil_or_concat' after with rfl | ⟨after, last, rfl⟩
      · obtain ⟨-, hlast⟩ := List.append_inj' heq rfl
        cases hlast
        exact absurd ⟨hnumber, hwire⟩ hf
      · rw [← List.cons_append, ← List.append_assoc] at heq
        obtain ⟨hfields, -⟩ := List.append_inj' heq rfl
        exact ⟨before, g, after, hfields, hnumber, hwire, hvalue,
          fun x hx => hlater x (List.mem_append_left _ hx)⟩
    · rintro ⟨before, g, after, rfl, hnumber, hwire, hvalue, hlater⟩
      refine ⟨before, g, after ++ [f], by simp, hnumber, hwire, hvalue, ?_⟩
      intro x hx
      rcases List.mem_append.mp hx with hold | hnew
      · exact hlater x hold
      · rw [List.mem_singleton.mp hnew]
        exact hf

/-- A varint stands for one number. -/
theorem readVarint_value {bytes : Bytes} {value : Nat} (h : IsVarint bytes value) :
    readVarint bytes = some (value, []) :=
  readVarint_eq_some_iff.mpr ⟨bytes, (List.append_nil _).symm, h⟩

private theorem IsField.value_isVarint {f : Field} (h : IsField f) (hwire : f.wireType = 0) :
    ∃ value, IsVarint f.value value := by
  obtain ⟨tag, n, body, -, -, -, -, -, hbody, -⟩ := h
  rw [hwire] at hbody
  generalize f.value = value at hbody
  cases hbody with
  | varint hvalue => exact ⟨_, hvalue⟩

private theorem Rewrite.foldl_parentalEnabled {fields : List Field} (h : ∀ f ∈ fields, IsField f) :
    (fields.foldl Rewrite.field ⟨[], false⟩).parentalEnabled = true ↔
      ∃ value, LastVarint fields 9 value ∧ value ≠ 0 := by
  induction fields using List.reverseRecOn with
  | nil =>
    simp only [List.foldl_nil, Bool.false_eq_true, false_iff, not_exists]
    rintro value ⟨⟨before, f, after, hnil, -⟩, -⟩
    simp at hnil
  | append_singleton fields f ih =>
    have hfields := fun g hg => h g (List.mem_append_left _ hg)
    have hf := h f (List.mem_append_right _ List.mem_cons_self)
    simp only [List.foldl_append, List.foldl_cons, List.foldl_nil, lastVarint_concat]
    generalize fields.foldl Rewrite.field ⟨[], false⟩ = s at ih
    by_cases hswitch : f.number = 9 ∧ f.wireType = 0
    · obtain ⟨value, hvalue⟩ := hf.value_isVarint hswitch.2
      have hsame : ∀ v, IsVarint f.value v ↔ v = value := by
        intro v
        constructor
        · intro hv
          have heq := (readVarint_value hv).symm.trans (readVarint_value hvalue)
          cases heq
          rfl
        · rintro rfl
          exact hvalue
      simp only [Rewrite.field, readVarint_value hvalue, hswitch, and_self, if_true, hsame]
      simp
    · simp only [if_neg hswitch, ← ih hfields]
      rw [Rewrite.field]
      split_ifs with h9 hwire
      · exact absurd ⟨h9, hwire⟩ hswitch
      · rfl
      · rfl
      · rfl

/-- A field as putVarintField writes it. -/
def varintField (number : UInt32) (value : UInt64) : Field :=
  ⟨number.toNat, 0, putVarintField number value, putVarint value⟩

private theorem isField_varintField {number : UInt32} (hlow : 1 ≤ number.toNat) (hhigh : number.toNat ≤ 2 ^ 29 - 1)
    (value : UInt64) : IsField (varintField number value) := by
  have htag : (number.toUInt64 <<< 3).toNat = 8 * number.toNat := by
    rw [UInt64.toNat_shiftLeft, UInt32.toNat_toUInt64, Nat.shiftLeft_eq]
    have hthree : (3 : UInt64).toNat % 64 = 3 := rfl
    rw [hthree, Nat.mod_eq_of_lt (by omega)]
    omega
  refine ⟨putVarint (number.toUInt64 <<< 3), 8 * number.toNat, putVarint value, ?_, ?_, hlow, hhigh, ?_,
    .varint (isVarint_putVarint value), rfl⟩
  · rw [← htag]
    exact isVarint_putVarint _
  · dsimp only [varintField]
    omega
  · dsimp only [varintField]
    omega

/-- The fields of a rewritten message. -/
def rewritten (fields : List Field) : List Field :=
  fields.filter Untouched ++
    [varintField 9 1, varintField 10 unlockableFeatures, varintField 13 unlockableFeatures]

private theorem mem_rewritten {fields : List Field} {f : Field} :
    f ∈ rewritten fields ↔ (f ∈ fields ∧ Untouched f) ∨ f = varintField 9 1 ∨
      f = varintField 10 unlockableFeatures ∨ f = varintField 13 unlockableFeatures := by
  simp [rewritten]

private theorem isField_rewritten {fields : List Field} (h : ∀ f ∈ fields, IsField f) :
    ∀ f ∈ rewritten fields, IsField f := by
  intro f hf
  rcases mem_rewritten.mp hf with ⟨hmem, -⟩ | rfl | rfl | rfl
  · exact h f hmem
  · exact isField_varintField (by decide) (by decide) _
  · exact isField_varintField (by decide) (by decide) _
  · exact isField_varintField (by decide) (by decide) _

private theorem filter_rewritten (fields : List Field) :
    (rewritten fields).filter Untouched = fields.filter Untouched := by
  have h9 : ¬Untouched (varintField 9 1) := fun h => h.1 rfl
  have h10 : ¬Untouched (varintField 10 unlockableFeatures) := fun h => h.2.1 rfl
  have h13 : ¬Untouched (varintField 13 unlockableFeatures) := fun h => h.2.2.1 rfl
  simp [rewritten, h9, h10, h13]

private theorem lastVarint_rewritten (fields : List Field) :
    LastVarint (rewritten fields) 9 1 ∧ LastVarint (rewritten fields) 10 0x7fff ∧
      LastVarint (rewritten fields) 13 0x7fff := by
  have hone : IsVarint (putVarint 1) 1 := isVarint_putVarint 1
  have hmask : IsVarint (putVarint unlockableFeatures) 0x7fff := isVarint_putVarint unlockableFeatures
  refine ⟨⟨fields.filter Untouched, _, _, rfl, rfl, rfl, hone, ?_⟩,
    ⟨fields.filter Untouched ++ [varintField 9 1], varintField 10 unlockableFeatures,
      [varintField 13 unlockableFeatures], by simp [rewritten], rfl, rfl, hmask, ?_⟩,
    ⟨fields.filter Untouched ++ [varintField 9 1, varintField 10 unlockableFeatures],
      varintField 13 unlockableFeatures, [], by simp [rewritten], rfl, rfl, hmask, List.forall_mem_nil _⟩⟩
  · simp [varintField]
  · simp [varintField]

/-- A message with parental mode on becomes its rewritten fields. -/
theorem rewriteSettings_of_enabled {fields : List Field} {d : Bytes} (hrow : IsRow fields d)
    (h : ∃ value, LastVarint fields 9 value ∧ value ≠ 0) :
    rewriteSettings d = some ((rewritten fields).flatMap Field.raw) := by
  have hon := (Rewrite.foldl_parentalEnabled hrow.2).mpr h
  rw [rewriteSettings, walk_eq_some_iff.mpr hrow, Option.map_some]
  simp only [hon, if_true, Rewrite.foldl_out, rewritten, List.flatMap_append, List.nil_append]
  simp [varintField]

private theorem rewriteSettings_of_disabled {fields : List Field} {d : Bytes} (hrow : IsRow fields d)
    (h : ¬∃ value, LastVarint fields 9 value ∧ value ≠ 0) : rewriteSettings d = some d := by
  have hoff := mt (Rewrite.foldl_parentalEnabled hrow.2).mp h
  rw [rewriteSettings, walk_eq_some_iff.mpr hrow, Option.map_some]
  simp only [hoff, if_false, Bool.false_eq_true]

private theorem rewriteSettings_eq_none_iff (d : Bytes) : rewriteSettings d = none ↔ ∀ fields, ¬IsRow fields d := by
  rw [rewriteSettings, Option.map_eq_none_iff]
  constructor
  · intro hnone fields hrow
    rw [walk_eq_some_iff.mpr hrow] at hnone
    cases hnone
  · intro hall
    cases hwalk : walk d with
    | none => rfl
    | some fields => exact absurd (walk_eq_some_iff.mp hwalk) (hall fields)

/-- A message that is not a row of fields is left to Steam, one without parental mode is passed on
as it is, and any other keeps its other fields and gets the switch and both masks. -/
theorem rewriteSettings_spec (d : Bytes) :
    (rewriteSettings d = none ↔ ∀ fields, ¬IsRow fields d) ∧
    (∀ fields, IsRow fields d →
      ((∀ value, LastVarint fields 9 value → value = 0) → rewriteSettings d = some d) ∧
      ∀ value, LastVarint fields 9 value → value ≠ 0 →
        ∃ out written, rewriteSettings d = some out ∧ IsRow written out ∧
          written.filter Untouched = fields.filter Untouched ∧
          (∀ f ∈ written, f.number ≠ 15 ∧ f.number ≠ 16) ∧
          LastVarint written 9 1 ∧ LastVarint written 10 0x7fff ∧ LastVarint written 13 0x7fff) ∧
    ∀ out, rewriteSettings d = some out → rewriteSettings out = some out := by
  refine ⟨rewriteSettings_eq_none_iff d, fun fields hrow => ⟨?_, ?_⟩, ?_⟩
  · intro hoff
    apply rewriteSettings_of_disabled hrow
    rintro ⟨value, hvalue, hne⟩
    exact hne (hoff value hvalue)
  · intro value hvalue hne
    refine ⟨_, rewritten fields, rewriteSettings_of_enabled hrow ⟨value, hvalue, hne⟩,
      ⟨rfl, isField_rewritten hrow.2⟩, filter_rewritten fields, ?_, lastVarint_rewritten fields⟩
    intro f hf
    rcases mem_rewritten.mp hf with ⟨-, huntouched⟩ | rfl | rfl | rfl
    · exact ⟨huntouched.2.2.2.1, huntouched.2.2.2.2⟩
    · exact ⟨by decide, by decide⟩
    · exact ⟨by decide, by decide⟩
    · exact ⟨by decide, by decide⟩
  · intro out hout
    cases hwalk : walk d with
    | none =>
      rw [rewriteSettings, hwalk] at hout
      cases hout
    | some fields =>
      have hrow := walk_eq_some_iff.mp hwalk
      by_cases hon : ∃ value, LastVarint fields 9 value ∧ value ≠ 0
      · rw [rewriteSettings_of_enabled hrow hon] at hout
        cases hout
        have hagain : IsRow (rewritten fields) ((rewritten fields).flatMap Field.raw) :=
          ⟨rfl, isField_rewritten hrow.2⟩
        have hsame : rewritten (rewritten fields) = rewritten fields := by
          rw [rewritten, filter_rewritten, rewritten]
        rw [rewriteSettings_of_enabled hagain ⟨1, (lastVarint_rewritten fields).1, one_ne_zero⟩, hsame]
      · rw [rewriteSettings_of_disabled hrow hon] at hout
        cases hout
        exact rewriteSettings_of_disabled hrow hon

end SlsteamMoon.Parental
