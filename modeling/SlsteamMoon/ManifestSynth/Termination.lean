import SlsteamMoon.ManifestSynth.Manifest

/-! When the loops of the two manifest readers move forward on every turn. A field whose length is
declared as 2^64 - k passes the bound check with a sum that has wrapped around, and takes the cursor
back by k. -/
namespace SlsteamMoon.ManifestSynth

open KeyValues AppInfo CursorLoop

private theorem readVarintFrom_advances {m : Manifest} {left : Nat} {p q : UInt32} {shift : Nat} {r v : UInt64}
    (hroom : p.toNat + left < 0x100000000) (h : readVarintFrom m left p shift r = some (v, q)) :
    p.toNat < q.toNat ∧ q.toNat ≤ p.toNat + left := by
  induction left generalizing p shift r with
  | zero => cases h
  | succ left ih =>
    have hp : (p + 1).toNat = p.toNat + 1 := by
      rw [UInt32.toNat_add, UInt32.toNat_one]
      apply Nat.mod_eq_of_lt
      omega
    rw [readVarintFrom] at h
    split_ifs at h
    all_goals
      first
      | have := ih (by omega) h
        omega
      | obtain ⟨-, rfl⟩ := Prod.mk.inj (Option.some.inj h)
        omega

/-- A varint takes at least a byte, and none behind the end. -/
theorem readVarint_advances {m : Manifest} {p stop q : UInt32} {v : UInt64}
    (h : readVarint m p stop = some (v, q)) : p.toNat < q.toNat ∧ q.toNat ≤ stop.toNat := by
  have hp := p.toNat_lt
  have hstop := stop.toNat_lt
  rw [readVarint] at h
  have hlt : p.toNat < stop.toNat := by
    by_contra hle
    rw [Nat.sub_eq_zero_of_le (Nat.le_of_not_lt hle)] at h
    cases h
  have := readVarintFrom_advances (by omega) h
  omega

/-! ### The section walk -/

private theorem sectionTurn_again {m : Manifest} {wanted i j : UInt32} (h : sectionTurn m wanted i = .again j) :
    i.toNat < j.toNat ∧ i.toNat < m.bytes.length := by
  have hm := m.fits
  rw [sectionTurn] at h
  split at h
  · cases h
  · split at h
    case h_2 => cases h
    case h_1 _ magic len _ _ =>
      split_ifs at h with hcut
      obtain rfl := Turn.again.inj h
      have hi := i.toNat_lt
      have hlen := len.toNat_lt
      have hsum : i.toNat + 8 + len.toNat ≤ m.bytes.length := by
        rw [UInt64.lt_iff_toNat_lt, UInt64.toNat_add, UInt64.toNat_add] at hcut
        simp only [UInt32.toNat_toUInt64, Manifest.size_toNat, UInt64.reduceToNat] at hcut
        omega
      have hj : (i + (8 + len)).toNat = i.toNat + (8 + len.toNat) := by
        rw [UInt32.toNat_add, UInt32.toNat_add]
        simp only [UInt32.reduceToNat]
        omega
      omega

private theorem sectionTurn_found {m : Manifest} {wanted i start len : UInt32}
    (h : sectionTurn m wanted i = .leave (some (start, len))) :
    (start + len).toNat ≤ m.bytes.length := by
  have hm := m.fits
  rw [sectionTurn] at h
  split at h
  · cases h
  · split at h
    case h_2 => cases h
    case h_1 _ magic n _ _ =>
      split_ifs at h with hcut
      · cases h
      obtain ⟨rfl, rfl⟩ := Prod.mk.inj (Option.some.inj (Turn.leave.inj h))
      have hi := i.toNat_lt
      have hn := n.toNat_lt
      rw [UInt64.lt_iff_toNat_lt, UInt64.toNat_add, UInt64.toNat_add] at hcut
      simp only [UInt32.toNat_toUInt64, Manifest.size_toNat, UInt64.reduceToNat] at hcut
      rw [UInt32.toNat_add, UInt32.toNat_add]
      simp only [UInt32.reduceToNat]
      omega

/-- The section walk of a 32-bit build always returns: its check is made in 64 bits. -/
theorem sections_advance (m : Manifest) (wanted i : UInt32) : Advances (sectionTurn m wanted) UInt32.toNat i :=
  fun _ _ _ h => (sectionTurn_again h).1

private theorem sections_return (m : Manifest) (wanted i : UInt32) : Returns (sectionTurn m wanted) i :=
  (sections_advance m wanted i).returns fun _ _ h => (sectionTurn_again h).2

/-- The payload of a magic: where it begins and how long it is. -/
def Found (m : Manifest) (wanted start len : UInt32) : Prop :=
  ∃ fuel, run (sectionTurn m wanted) fuel 0 = some (some (start, len))

theorem Found.inside {m : Manifest} {wanted start len : UInt32} (h : Found m wanted start len) :
    (start + len).toNat ≤ m.bytes.length := by
  obtain ⟨fuel, h⟩ := h
  obtain ⟨i, -, hi⟩ := exists_leave_of_run h
  exact sectionTurn_found hi

/-! ### The field loops -/

/-- The length that a length-delimited field at `p` declares, and the cursor behind it. -/
def lengthAt (m : Manifest) (stop p : UInt32) : Option (UInt64 × UInt32) :=
  if p < stop then
    (readVarint m p stop).bind fun (tag, p) => if (tag &&& 7).toUInt32 = 2 then readVarint m p stop else none
  else none

/-- The field at `p` declares a length that, taken as negative, leads to `p` or before it. -/
def WrapsBack (m : Manifest) (stop p : UInt32) : Prop :=
  ∃ len q, lengthAt m stop p = some (len, q) ∧
    0x10000000000000000 ≤ q.toNat + len.toNat ∧ q.toNat + len.toNat ≤ 0x10000000000000000 + p.toNat

/-- Where both field loops go on after the field at `p`. -/
def nextField (m : Manifest) (stop p : UInt32) : Option UInt32 :=
  if p < stop then
    (readVarint m p stop).bind fun (tag, p) =>
      if (tag &&& 7).toUInt32 = 0 then (readVarint m p stop).map Prod.snd
      else if (tag &&& 7).toUInt32 = 2 then
        (readVarint m p stop).bind fun (len, p) =>
          if stop.toUInt64 < fieldEnd p len then none else some (fieldEnd p len).toUInt32
      else if (tag &&& 7).toUInt32 = 5 then some (p + 4)
      else if (tag &&& 7).toUInt32 = 1 then some (p + 8)
      else none
  else none

theorem fieldEnd_toNat (q : UInt32) (len : UInt64) :
    (fieldEnd q len).toNat = (q.toNat + len.toNat) % 0x10000000000000000 := by
  rw [fieldEnd, UInt64.toNat_add, UInt32.toNat_toUInt64]

theorem toUInt32_toNat {n : UInt64} (h : n.toNat < 0x100000000) : n.toUInt32.toNat = n.toNat := by
  rw [UInt64.toNat_toUInt32]
  exact Nat.mod_eq_of_lt h

/-- Only a length that wraps around keeps the cursor from moving forward. -/
theorem nextField_forward_iff {m : Manifest} {stop p p' : UInt32} (hstop : stop.toNat < 0x80000000)
    (h : nextField m stop p = some p') : p.toNat < p'.toNat ↔ ¬WrapsBack m stop p := by
  simp only [nextField, Option.ite_none_right_eq_some, Option.bind_eq_some_iff, Prod.exists] at h
  obtain ⟨hp, tag, q, hq, h⟩ := h
  have hq' := readVarint_advances hq
  have hlength : lengthAt m stop p = if (tag &&& 7).toUInt32 = 2 then readVarint m q stop else none := by
    rw [lengthAt, if_pos hp, hq]
    rfl
  have hno (hwire : (tag &&& 7).toUInt32 ≠ 2) : ¬WrapsBack m stop p := by
    rintro ⟨len, q', hlen, -, -⟩
    rw [hlength, if_neg hwire] at hlen
    cases hlen
  split_ifs at h with h0 h2 h5 h1
  · -- a varint field
    obtain ⟨⟨v, q'⟩, hv, h⟩ := Option.map_eq_some_iff.mp h
    obtain rfl : q' = p' := h
    have := readVarint_advances hv
    exact iff_of_true (by omega) (hno (by rw [h0]; decide))
  · -- a length-delimited field
    obtain ⟨⟨len, q'⟩, hlen, h⟩ := Option.bind_eq_some_iff.mp h
    dsimp only at h
    obtain ⟨hend, h⟩ := Option.ite_none_left_eq_some.mp h
    obtain rfl := Option.some.inj h
    have hdeclared : lengthAt m stop p = some (len, q') := by rw [hlength, if_pos h2, hlen]
    have hq'' := readVarint_advances hlen
    have hlen' := len.toNat_lt
    rw [UInt64.lt_iff_toNat_lt, fieldEnd_toNat, UInt32.toNat_toUInt64] at hend
    rw [toUInt32_toNat (by rw [fieldEnd_toNat]; omega), fieldEnd_toNat]
    constructor
    · rintro hlt ⟨len', r, hlength', hlow, hhigh⟩
      obtain ⟨rfl, rfl⟩ := Prod.mk.inj (Option.some.inj (hdeclared.symm.trans hlength'))
      omega
    · intro hwrap
      by_contra hle
      exact hwrap ⟨len, q', hdeclared, by omega, by omega⟩
  · -- fixed 32 bits
    obtain rfl := Option.some.inj h
    refine iff_of_true ?_ (hno h2)
    rw [UInt32.toNat_add]
    simp only [UInt32.reduceToNat]
    omega
  · -- fixed 64 bits
    obtain rfl := Option.some.inj h
    refine iff_of_true ?_ (hno h2)
    rw [UInt32.toNat_add]
    simp only [UInt32.reduceToNat]
    omega

/-- A field that wraps around passes the bound check. -/
theorem nextField_of_wrapsBack {m : Manifest} {stop p : UInt32} (h : WrapsBack m stop p) :
    ∃ p', nextField m stop p = some p' := by
  obtain ⟨len, q, hlen, hlow, hhigh⟩ := h
  simp only [lengthAt, Option.ite_none_right_eq_some, Option.bind_eq_some_iff, Prod.exists] at hlen
  obtain ⟨hp, tag, r, htag, hwire, hlen⟩ := hlen
  refine ⟨(fieldEnd q len).toUInt32, ?_⟩
  have hend : ¬stop.toUInt64 < fieldEnd q len := by
    rw [UInt32.lt_iff_toNat_lt] at hp
    rw [UInt64.lt_iff_toNat_lt, fieldEnd_toNat, UInt32.toNat_toUInt64]
    omega
  simp only [nextField, if_pos hp, htag, Option.bind_some, hwire, hlen, if_neg hend]
  rfl

private theorem sizesTurn_cursor (m : Manifest) (stop : UInt32) (s : Sizes) :
    (sizesTurn m stop s).next.map Sizes.p = nextField m stop s.p := by
  have hstore (t : Sizes) (field : UInt32) (v : UInt64) : (t.store field v).p = t.p := by
    rw [Sizes.store]
    split_ifs <;> rfl
  rw [sizesTurn, nextField]
  by_cases hp : s.p < stop
  case neg =>
    rw [if_pos hp, if_neg hp]
    rfl
  rw [if_neg (not_not.mpr hp), if_pos hp]
  cases readVarint m s.p stop with
  | none => rfl
  | some r =>
    obtain ⟨tag, p⟩ := r
    dsimp only [Option.bind_some]
    split_ifs with h0 h2 h5 h1
    · cases readVarint m p stop with
      | none => rfl
      | some r => exact congrArg some (hstore _ _ _)
    · cases readVarint m p stop with
      | none => rfl
      | some r =>
        dsimp only [Option.bind_some]
        split_ifs <;> rfl
    · rfl
    · rfl
    · rfl

private theorem namesTurn_cursor (m : Manifest) (plEnd : UInt32) (s : Names) :
    (namesTurn m plEnd s).next.map Names.p = nextField m plEnd s.p := by
  rw [namesTurn, nextField]
  by_cases hp : s.p < plEnd
  case neg =>
    rw [if_pos hp, if_neg hp]
    rfl
  rw [if_neg (not_not.mpr hp), if_pos hp]
  cases readVarint m s.p plEnd with
  | none => rfl
  | some r =>
    obtain ⟨tag, p⟩ := r
    dsimp only [Option.bind_some]
    -- the two loops ask for the wire types in another order
    by_cases h2 : (tag &&& 7).toUInt32 = 2
    · have h0 : ¬(tag &&& 7).toUInt32 = 0 := by rw [h2]; decide
      rw [if_pos h2, if_neg h0, if_pos h2]
      cases readVarint m p plEnd with
      | none => rfl
      | some r =>
        dsimp only [Option.bind_some]
        split_ifs <;> rfl
    · rw [if_neg h2, if_neg h2]
      split_ifs with h0 h5 h1
      · cases readVarint m p plEnd <;> rfl
      · rfl
      · rfl
      · rfl

section Fields

variable {σ τ : Type} {m : Manifest} {stop : UInt32} {turn : σ → Turn σ τ} {cursor : σ → UInt32}

/-- What the two loops have in common: the cursor moves as `nextField` says. -/
theorem fields_advance_iff (hcursor : ∀ s, (turn s).next.map cursor = nextField m stop (cursor s))
    (hstop : stop.toNat < 0x80000000) (s : σ) :
    Advances turn (fun s => (cursor s).toNat) s ↔ ∀ t, Reaches turn s t → ¬WrapsBack m stop (cursor t) := by
  apply advances_iff
  · intro t u h
    have hnext := hcursor t
    rw [h] at hnext
    exact nextField_forward_iff hstop hnext.symm
  · intro t h
    obtain ⟨p', hp'⟩ := nextField_of_wrapsBack h
    rw [← hcursor, Option.map_eq_some_iff] at hp'
    obtain ⟨u, hu, -⟩ := hp'
    exact ⟨u, Turn.next_eq_some.mp hu⟩

private theorem fields_return (hcursor : ∀ s, (turn s).next.map cursor = nextField m stop (cursor s)) {s : σ}
    (h : Advances turn (fun s => (cursor s).toNat) s) : Returns turn s := by
  have hbelow : ∀ t u, turn t = .again u → (cursor t).toNat < stop.toNat := by
    intro t u ht
    have hnext := hcursor t
    rw [ht, nextField] at hnext
    obtain ⟨hp, -⟩ := Option.ite_none_right_eq_some.mp hnext.symm
    exact hp
  exact h.returns hbelow

end Fields

/-- Both readers return, and every turn of their loops that goes on moves the cursor forward. -/
structure Terminates (m : Manifest) : Prop where
  parseManifestSizes : ∀ sizeOut downloadOut, ∃ fuel, (parseManifestSizes fuel m sizeOut downloadOut).isSome = true
  extractManifestFilenames : ∃ fuel, (extractManifestFilenames fuel m).isSome = true
  sections : ∀ wanted, Advances (sectionTurn m wanted) UInt32.toNat 0
  sizes : ∀ start len, Found m kMetadataMagic start len → ∀ sizeOut downloadOut,
    Advances (sizesTurn m (start + len)) (fun s => s.p.toNat) { p := start, sizeOut, downloadOut }
  names : ∀ start len, Found m kPayloadMagic start len →
    Advances (namesTurn m (start + len)) (fun s => s.p.toNat) { p := start }

/-- No field that is read wraps back. -/
structure NeverWrapsBack (m : Manifest) : Prop where
  sizes : ∀ start len, Found m kMetadataMagic start len → ∀ sizeOut downloadOut s,
    Reaches (sizesTurn m (start + len)) { p := start, sizeOut, downloadOut } s → ¬WrapsBack m (start + len) s.p
  names : ∀ start len, Found m kPayloadMagic start len → ∀ s,
    Reaches (namesTurn m (start + len)) { p := start } s → ¬WrapsBack m (start + len) s.p

/-- A reader that finds no section is done with the walk, one that does returns with its field loop. -/
theorem parseManifestSizes_returns {m : Manifest} {sizeOut downloadOut : UInt64}
    (h : ∀ start len, Found m kMetadataMagic start len →
      Returns (sizesTurn m (start + len)) { p := start, sizeOut, downloadOut }) :
    ∃ fuel, (parseManifestSizes fuel m sizeOut downloadOut).isSome = true := by
  obtain ⟨fuel, hfuel⟩ := sections_return m kMetadataMagic 0
  obtain ⟨found, hrun⟩ := Option.isSome_iff_exists.mp hfuel
  match found with
  | none => exact ⟨fuel, by rw [parseManifestSizes, hrun]; rfl⟩
  | some (start, len) =>
    obtain ⟨more, hmore⟩ := h start len ⟨fuel, hrun⟩
    obtain ⟨s, hs⟩ := Option.isSome_iff_exists.mp hmore
    refine ⟨fuel + more, ?_⟩
    rw [parseManifestSizes, run_mono hrun]
    dsimp only
    rw [Nat.add_comm, run_mono hs]
    rfl

private theorem extractManifestFilenames_returns {m : Manifest}
    (h : ∀ start len, Found m kPayloadMagic start len → Returns (namesTurn m (start + len)) { p := start }) :
    ∃ fuel, (extractManifestFilenames fuel m).isSome = true := by
  obtain ⟨fuel, hfuel⟩ := sections_return m kPayloadMagic 0
  obtain ⟨found, hrun⟩ := Option.isSome_iff_exists.mp hfuel
  match found with
  | none => exact ⟨fuel, by rw [extractManifestFilenames, hrun]; rfl⟩
  | some (start, len) =>
    obtain ⟨more, hmore⟩ := h start len ⟨fuel, hrun⟩
    obtain ⟨s, hs⟩ := Option.isSome_iff_exists.mp hmore
    refine ⟨fuel + more, ?_⟩
    rw [extractManifestFilenames, run_mono hrun]
    dsimp only
    rw [Nat.add_comm, run_mono hs]
    rfl

theorem Found.stop_lt {m : Manifest} {wanted start len : UInt32} (h : Found m wanted start len) :
    (start + len).toNat < 0x80000000 :=
  Nat.lt_of_le_of_lt h.inside m.fits

/-- The readers terminate, moving forward all the way, just on the manifests none of whose fields wraps back. -/
theorem terminates_iff_neverWrapsBack (m : Manifest) : Terminates m ↔ NeverWrapsBack m := by
  constructor
  · intro h
    constructor
    · intro start len hfound sizeOut downloadOut
      exact (fields_advance_iff (sizesTurn_cursor m _) hfound.stop_lt _).mp (h.sizes start len hfound sizeOut downloadOut)
    · intro start len hfound
      exact (fields_advance_iff (namesTurn_cursor m _) hfound.stop_lt _).mp (h.names start len hfound)
  · intro h
    have hsizes (start len : UInt32) (hfound : Found m kMetadataMagic start len) (sizeOut downloadOut : UInt64) :
        Advances (sizesTurn m (start + len)) (fun s => s.p.toNat) { p := start, sizeOut, downloadOut } :=
      (fields_advance_iff (sizesTurn_cursor m _) hfound.stop_lt _).mpr (h.sizes start len hfound sizeOut downloadOut)
    have hnames (start len : UInt32) (hfound : Found m kPayloadMagic start len) :
        Advances (namesTurn m (start + len)) (fun s => s.p.toNat) { p := start } :=
      (fields_advance_iff (namesTurn_cursor m _) hfound.stop_lt _).mpr (h.names start len hfound)
    exact {
      parseManifestSizes := fun sizeOut downloadOut => parseManifestSizes_returns fun start len hfound =>
        fields_return (sizesTurn_cursor m _) (hsizes start len hfound sizeOut downloadOut)
      extractManifestFilenames := extractManifestFilenames_returns fun start len hfound =>
        fields_return (namesTurn_cursor m _) (hnames start len hfound)
      sections := fun wanted => sections_advance m wanted 0
      sizes := hsizes
      names := hnames }

/-- A metadata section whose only field declares a length of 2^64 - 11, eleven bytes after the field began. -/
def wrappedLength : Manifest where
  bytes := [0xbe, 0x12, 0x48, 0x1f, 11, 0, 0, 0, 0x0a, 0xf5, 0xff, 0xff, 0xff, 0xff, 0xff, 0xff, 0xff, 0xff, 0x01]
  fits := by decide

/-- The cursor returns to the field's tag each time, and no fuel is enough. -/
theorem wrappedLength_loops :
    (∀ fuel, parseManifestSizes fuel wrappedLength 0 0 = none) ∧ ¬Terminates wrappedLength := by
  have hwalk : run (sectionTurn wrappedLength kMetadataMagic) 1 0 = some (some (8, 11)) := by decide +kernel
  have hturn : sizesTurn wrappedLength (8 + 11) { p := 8, sizeOut := 0, downloadOut := 0 } =
      .again { p := 8, sizeOut := 0, downloadOut := 0 } := by
    rfl
  have hnever (fuel : Nat) : parseManifestSizes fuel wrappedLength 0 0 = none := by
    cases fuel with
    | zero => rfl
    | succ fuel =>
      rw [parseManifestSizes, Nat.add_comm, run_mono hwalk]
      dsimp only
      rw [run_of_fixed hturn]
      rfl
  refine ⟨hnever, fun h => ?_⟩
  obtain ⟨fuel, hfuel⟩ := h.parseManifestSizes 0 0
  rw [hnever] at hfuel
  cases hfuel

end SlsteamMoon.ManifestSynth
