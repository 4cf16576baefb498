import SlsteamMoon.ManifestSynth.Termination

/-! Where the filenames that are extracted lie. A filename whose declared length wraps around passes the bound check of
its mapping and is read to the end of the file; a mapping whose length wraps around takes the cursor back, also in front
of the payload. -/
namespace SlsteamMoon.ManifestSynth

open KeyValues AppInfo CursorLoop

/-- The FileMapping that the field at `p` is: where its content begins and the length it declares. -/
def mappingAt (m : Manifest) (plEnd p : UInt32) : Option (UInt32 × UInt64) :=
  if p < plEnd then
    (readVarint m p plEnd).bind fun (tag, p) =>
      if (tag &&& 7).toUInt32 = 2 then
        (readVarint m p plEnd).bind fun (len, p) =>
          if plEnd.toUInt64 < fieldEnd p len ∨ (tag >>> 3).toUInt32 ≠ 1 then none else some (p, len)
      else none
  else none

/-- The filename field that a mapping begins with: where the name begins and the length it declares. -/
def nameFieldIn (m : Manifest) (p : UInt32) (len : UInt64) : Option (UInt32 × UInt64) :=
  (readVarint m p (fieldEnd p len).toUInt32).bind fun (ftag, q) =>
    if ftag >>> 3 = 1 ∧ ftag &&& 7 = 2 then
      (readVarint m q (fieldEnd p len).toUInt32).map fun (flen, q) => (q, flen)
    else none

private theorem fileName_eq (m : Manifest) (p : UInt32) (len : UInt64) :
    fileName m p len =
      match nameFieldIn m p len with
      | none => []
      | some (q, flen) => if fieldEnd q flen ≤ (fieldEnd p len).toUInt32.toUInt64 then [substr m q flen] else [] := by
  rw [fileName, nameFieldIn]
  cases readVarint m p (fieldEnd p len).toUInt32 with
  | none => rfl
  | some r =>
    obtain ⟨ftag, q⟩ := r
    dsimp only [Option.bind_some]
    split_ifs with htag
    · cases readVarint m q (fieldEnd p len).toUInt32 <;> rfl
    · rfl

/-- The names that the turn at `p` adds. -/
def namesAt (m : Manifest) (plEnd p : UInt32) : List Bytes :=
  match mappingAt m plEnd p with
  | none => []
  | some (p, len) => fileName m p len

private theorem namesTurn_adds {m : Manifest} {plEnd : UInt32} {s t : Names} (h : namesTurn m plEnd s = .again t) :
    t.out = s.out ++ namesAt m plEnd s.p := by
  rw [namesTurn] at h
  rw [namesAt, mappingAt]
  by_cases hp : s.p < plEnd
  case neg =>
    rw [if_pos hp] at h
    cases h
  rw [if_neg (not_not.mpr hp)] at h
  rw [if_pos hp]
  cases htag : readVarint m s.p plEnd with
  | none =>
    rw [htag] at h
    cases h
  | some r =>
    obtain ⟨tag, p⟩ := r
    rw [htag] at h
    dsimp only [Option.bind_some] at h ⊢
    by_cases h2 : (tag &&& 7).toUInt32 = 2
    · rw [if_pos h2] at h ⊢
      cases hlen : readVarint m p plEnd with
      | none =>
        rw [hlen] at h
        cases h
      | some r =>
        obtain ⟨len, q⟩ := r
        rw [hlen] at h
        dsimp only [Option.bind_some] at h ⊢
        split_ifs at h with hend hfield
        · obtain rfl := Turn.again.inj h
          rw [if_neg (by rw [not_or, not_not]; exact ⟨hend, hfield⟩)]
        · obtain rfl := Turn.again.inj h
          rw [if_pos (.inr hfield)]
    · rw [if_neg h2] at h ⊢
      rw [List.append_nil]
      split_ifs at h with h0 h5 h1
      · cases hv : readVarint m p plEnd with
        | none =>
          rw [hv] at h
          cases h
        | some r =>
          rw [hv] at h
          obtain rfl := Turn.again.inj h
          rfl
      · obtain rfl := Turn.again.inj h
        rfl
      · obtain rfl := Turn.again.inj h
        rfl

/-- A loop that is left answers with what it has. -/
theorem namesTurn_leaves {m : Manifest} {plEnd : UInt32} {s t : Names} (h : namesTurn m plEnd s = .leave t) : t = s := by
  rw [namesTurn] at h
  split at h
  · exact (Turn.leave.inj h).symm
  · split at h
    · exact (Turn.leave.inj h).symm
    · dsimp only at h
      split_ifs at h
      all_goals
        first
        | exact (Turn.leave.inj h).symm
        | split at h
          · exact (Turn.leave.inj h).symm
          · split_ifs at h
            exact (Turn.leave.inj h).symm
        | split at h
          · exact (Turn.leave.inj h).symm
          · cases h

/-- A field that the extraction has read, and the payload it was looking through. -/
structure Place where
  start : UInt32
  stop : UInt32
  p : UInt32

/-- The fields that the extraction reads, in order. -/
def placesRead (fuel : Nat) (m : Manifest) : List Place :=
  match run (sectionTurn m kPayloadMagic) fuel 0 with
  | some (some (start, len)) =>
    (visited (namesTurn m (start + len)) fuel { p := start }).map fun s => ⟨start, start + len, s.p⟩
  | _ => []

/-- The names returned are those of the fields read. -/
theorem names_of_places {fuel : Nat} {m : Manifest} {names : List Bytes}
    (h : extractManifestFilenames fuel m = some names) :
    names = (placesRead fuel m).flatMap fun place => namesAt m place.stop place.p := by
  rw [extractManifestFilenames] at h
  rw [placesRead]
  split at h
  · cases h
  · next hrun =>
    rw [hrun]
    exact (Option.some.inj h).symm
  · next start len hrun =>
    obtain ⟨last, hlast, rfl⟩ := Option.map_eq_some_iff.mp h
    have hadds : ∀ s t, namesTurn m (start + len) s = .again t → t.out = s.out ++ namesAt m (start + len) s.p :=
      fun _ _ => namesTurn_adds
    have hleaves : ∀ s t, namesTurn m (start + len) s = .leave t → t.out = s.out :=
      fun _ _ hleave => congrArg Names.out (namesTurn_leaves hleave)
    have hcollects := run_collects hadds hleaves hlast
    rw [hrun, hcollects, List.flatMap_map]
    rfl

/-- The name is the byte range of the filename field of the mapping at the place, and lies wholly inside this mapping,
which lies wholly inside the payload; cursors and lengths are added as numbers here. -/
def Place.Holds (m : Manifest) (place : Place) (name : Bytes) : Prop :=
  ∃ p len q flen, mappingAt m place.stop place.p = some (p, len) ∧ nameFieldIn m p len = some (q, flen) ∧
    place.start.toNat ≤ place.p.toNat ∧ p.toNat + len.toNat ≤ place.stop.toNat ∧
    q.toNat + flen.toNat ≤ p.toNat + len.toNat ∧ name = (m.bytes.drop q.toNat).take flen.toNat

/-- A filename that is taken although its mapping begins in front of the payload or its own length wraps around. -/
def Place.Astray (m : Manifest) (place : Place) : Prop :=
  ∃ p len q flen, mappingAt m place.stop place.p = some (p, len) ∧ nameFieldIn m p len = some (q, flen) ∧
    fieldEnd q flen ≤ (fieldEnd p len).toUInt32.toUInt64 ∧
    (place.p.toNat < place.start.toNat ∨ 0x10000000000000000 ≤ q.toNat + flen.toNat)

/-- A mapping that holds a filename field ends where its length says. -/
theorem mapping_ends {m : Manifest} {stop p c q : UInt32} {len flen : UInt64} (hstop : stop.toNat < 0x80000000)
    (hmapping : mappingAt m stop p = some (c, len)) (hname : nameFieldIn m c len = some (q, flen)) :
    (fieldEnd c len).toUInt32.toNat = c.toNat + len.toNat ∧ c.toNat + len.toNat ≤ stop.toNat := by
  simp only [mappingAt, Option.ite_none_right_eq_some, Option.bind_eq_some_iff, Prod.exists,
    Option.ite_none_left_eq_some, not_or, Option.some.injEq, Prod.mk.injEq] at hmapping
  obtain ⟨-, tag, p', -, -, len', c', -, ⟨hend, -⟩, rfl, rfl⟩ := hmapping
  simp only [nameFieldIn, Option.bind_eq_some_iff, Prod.exists] at hname
  obtain ⟨ftag, r, hftag, -⟩ := hname
  have hinside := readVarint_advances hftag
  have hlen := len'.toNat_lt
  rw [UInt64.lt_iff_toNat_lt, fieldEnd_toNat, UInt32.toNat_toUInt64] at hend
  rw [toUInt32_toNat (by rw [fieldEnd_toNat]; omega), fieldEnd_toNat] at hinside ⊢
  omega

private theorem namesAt_eq (m : Manifest) {stop p c : UInt32} {len : UInt64}
    (hmapping : mappingAt m stop p = some (c, len)) : namesAt m stop p = fileName m c len := by
  rw [namesAt, hmapping]

private theorem mem_fileName {m : Manifest} {p : UInt32} {len : UInt64} {name : Bytes} :
    name ∈ fileName m p len ↔ ∃ q flen, nameFieldIn m p len = some (q, flen) ∧
      fieldEnd q flen ≤ (fieldEnd p len).toUInt32.toUInt64 ∧ name = substr m q flen := by
  rw [fileName_eq]
  cases hname : nameFieldIn m p len with
  | none => simp
  | some field =>
    obtain ⟨q, flen⟩ := field
    dsimp only
    split_ifs with hend
    · rw [List.mem_singleton]
      constructor
      · rintro rfl
        exact ⟨q, flen, rfl, hend, rfl⟩
      · rintro ⟨q', flen', hsame, -, rfl⟩
        obtain ⟨rfl, rfl⟩ := Prod.mk.inj (Option.some.inj hsame)
        rfl
    · refine iff_of_false List.not_mem_nil ?_
      rintro ⟨q', flen', hsame, hend', -⟩
      obtain ⟨rfl, rfl⟩ := Prod.mk.inj (Option.some.inj hsame)
      exact hend hend'

private theorem mem_namesAt {m : Manifest} {stop p : UInt32} {name : Bytes} (h : name ∈ namesAt m stop p) :
    ∃ c len, mappingAt m stop p = some (c, len) ∧ name ∈ fileName m c len := by
  rw [namesAt] at h
  split at h
  · cases h
  · next c len hmapping => exact ⟨c, len, hmapping, h⟩

/-- The names that a place adds lie where they should just when it does not go astray. -/
theorem Place.holds_iff {m : Manifest} {place : Place} (hstop : place.stop.toNat < 0x80000000) :
    (∀ name ∈ namesAt m place.stop place.p, place.Holds m name) ↔ ¬place.Astray m := by
  constructor
  · rintro h ⟨c, len, q, flen, hmapping, hname, hend, hastray⟩
    have hmem : substr m q flen ∈ namesAt m place.stop place.p := by
      rw [namesAt_eq m hmapping]
      exact mem_fileName.mpr ⟨q, flen, hname, hend, rfl⟩
    obtain ⟨c', len', q', flen', hmapping', hname', hstart, hlen, hflen, -⟩ := h _ hmem
    obtain ⟨rfl, rfl⟩ := Prod.mk.inj (Option.some.inj (hmapping.symm.trans hmapping'))
    obtain ⟨rfl, rfl⟩ := Prod.mk.inj (Option.some.inj (hname.symm.trans hname'))
    omega
  · intro h name hmem
    obtain ⟨c, len, hmapping, hmem⟩ := mem_namesAt hmem
    obtain ⟨q, flen, hname, hend, rfl⟩ := mem_fileName.mp hmem
    obtain ⟨hmappingEnd, hinside⟩ := mapping_ends hstop hmapping hname
    have hstraight : ¬(place.p.toNat < place.start.toNat ∨ 0x10000000000000000 ≤ q.toNat + flen.toNat) :=
      fun hastray => h ⟨c, len, q, flen, hmapping, hname, hend, hastray⟩
    rw [UInt64.le_iff_toNat_le, fieldEnd_toNat, UInt32.toNat_toUInt64, hmappingEnd] at hend
    have hflen : flen.toUInt32.toNat = flen.toNat := toUInt32_toNat (by omega)
    refine ⟨c, len, q, flen, hmapping, hname, by omega, hinside, by omega, ?_⟩
    rw [substr, hflen]

/-- Every filename that is returned lies in the record that it is read from. -/
def FilenamesLie (m : Manifest) : Prop :=
  ∀ fuel names, extractManifestFilenames fuel m = some names →
    names = ((placesRead fuel m).flatMap fun place => namesAt m place.stop place.p) ∧
      ∀ place ∈ placesRead fuel m, ∀ name ∈ namesAt m place.stop place.p, place.Holds m name

/-- Where the extraction returns, no field that it reads takes a filename astray. -/
def NeverAstray (m : Manifest) : Prop :=
  ∀ fuel names, extractManifestFilenames fuel m = some names → ∀ start len, Found m kPayloadMagic start len →
    ∀ s, Reaches (namesTurn m (start + len)) { p := start } s → ¬Place.Astray m ⟨start, start + len, s.p⟩

private theorem mem_placesRead {fuel : Nat} {m : Manifest} {place : Place} (h : place ∈ placesRead fuel m) :
    ∃ len s, Found m kPayloadMagic place.start len ∧ place.stop = place.start + len ∧ place.p = s.p ∧
      Reaches (namesTurn m (place.start + len)) { p := place.start } s := by
  rw [placesRead] at h
  split at h
  · next start len hrun =>
    obtain ⟨s, hs, rfl⟩ := List.mem_map.mp h
    exact ⟨len, s, ⟨fuel, hrun⟩, rfl, rfl, reaches_of_mem_visited hs⟩
  · cases h

theorem Found.unique {m : Manifest} {wanted start len : UInt32} (h : Found m wanted start len) {fuel : Nat}
    {found : Option (UInt32 × UInt32)} (hrun : run (sectionTurn m wanted) fuel 0 = some found) :
    found = some (start, len) := by
  obtain ⟨other, hother⟩ := h
  have hmore := run_mono hrun other
  rw [Nat.add_comm, run_mono hother] at hmore
  exact (Option.some.inj hmore).symm

/-- A field from which the extraction goes on is among those it has read when it returns. -/
theorem mem_placesRead_of_reaches {fuel : Nat} {m : Manifest} {names : List Bytes}
    (hreturns : extractManifestFilenames fuel m = some names) {start len : UInt32} (hfound : Found m kPayloadMagic start len)
    {s t : Names} (hreach : Reaches (namesTurn m (start + len)) { p := start } s)
    (hs : namesTurn m (start + len) s = .again t) : ⟨start, start + len, s.p⟩ ∈ placesRead fuel m := by
  rw [extractManifestFilenames] at hreturns
  rw [placesRead]
  split at hreturns
  · cases hreturns
  · next hrun => exact absurd (hfound.unique hrun) (Option.some_ne_none _).symm
  · next start' len' hrun =>
    obtain ⟨rfl, rfl⟩ := Prod.mk.inj (Option.some.inj (hfound.unique hrun))
    obtain ⟨last, hlast, -⟩ := Option.map_eq_some_iff.mp hreturns
    rw [hrun]
    exact List.mem_map.mpr ⟨s, mem_visited_of_reaches hlast hreach hs, rfl⟩

/-- The loop goes on from a mapping. -/
theorem namesTurn_mapping {m : Manifest} {plEnd : UInt32} {s : Names} {c : UInt32} {len : UInt64}
    (h : mappingAt m plEnd s.p = some (c, len)) : ∃ t, namesTurn m plEnd s = .again t := by
  simp only [mappingAt, Option.ite_none_right_eq_some, Option.bind_eq_some_iff, Prod.exists,
    Option.ite_none_left_eq_some, not_or, Option.some.injEq, Prod.mk.injEq] at h
  obtain ⟨hp, tag, p', htag, hwire, len', c', hlen, ⟨hend, -⟩, -⟩ := h
  rw [namesTurn, if_neg (not_not.mpr hp), htag]
  dsimp only
  rw [if_pos hwire, hlen]
  dsimp only
  rw [if_neg hend]
  exact ⟨_, rfl⟩

/-- The filenames lie in their records just when none is taken astray. -/
theorem filenames_lie_iff (m : Manifest) : FilenamesLie m ↔ NeverAstray m := by
  constructor
  · rintro h fuel names hreturns start len hfound s hreach hastray
    have hmapping := hastray
    obtain ⟨c, n, q, flen, hmapping, -⟩ := hmapping
    obtain ⟨t, ht⟩ := namesTurn_mapping hmapping
    have hplace := mem_placesRead_of_reaches hreturns hfound hreach ht
    exact (Place.holds_iff hfound.stop_lt).mp ((h fuel names hreturns).2 _ hplace) hastray
  · intro h fuel names hreturns
    refine ⟨names_of_places hreturns, fun place hplace => ?_⟩
    obtain ⟨len, s, hfound, hstop, hp, hreach⟩ := mem_placesRead hplace
    have hstraight := h fuel names hreturns place.start len hfound s hreach
    rw [← hstop, ← hp] at hstraight
    exact (Place.holds_iff (by rw [hstop]; exact hfound.stop_lt)).mpr hstraight

/-- A payload of one mapping whose filename declares a length of 2^64 - 1, and a byte behind the payload. -/
def wrappedName : Manifest where
  bytes := [0xd0, 0x17, 0xf6, 0x71, 13, 0, 0, 0, 0x0a, 0x0b, 0x0a, 0xff, 0xff, 0xff, 0xff, 0xff, 0xff, 0xff, 0xff, 0xff,
    0x01, 0x58]
  fits := by decide

/-- The byte behind the payload is returned as a filename. -/
theorem wrappedName_astray :
    extractManifestFilenames 3 wrappedName = some [[0x58]] ∧ ¬FilenamesLie wrappedName := by
  have hreturns : extractManifestFilenames 3 wrappedName = some [[0x58]] := by decide +kernel
  refine ⟨hreturns, fun h => ?_⟩
  have hplace : (⟨8, 21, 8⟩ : Place) ∈ placesRead 3 wrappedName := by
    have hread : placesRead 3 wrappedName = [⟨8, 21, 8⟩] := rfl
    rw [hread]
    exact List.mem_cons_self
  have hmapping : mappingAt wrappedName 21 8 = some (10, 11) := by decide +kernel
  have hname : nameFieldIn wrappedName 10 11 = some (21, 0xffffffffffffffff) := by decide +kernel
  have hadded : [0x58] ∈ namesAt wrappedName 21 8 := by decide +kernel
  obtain ⟨c, len, q, flen, hmapping', hname', -, -, hinside, -⟩ := (h 3 _ hreturns).2 _ hplace _ hadded
  obtain ⟨rfl, rfl⟩ := Prod.mk.inj (Option.some.inj (hmapping.symm.trans hmapping'))
  obtain ⟨rfl, rfl⟩ := Prod.mk.inj (Option.some.inj (hname.symm.trans hname'))
  exact absurd hinside (by decide)

end SlsteamMoon.ManifestSynth
