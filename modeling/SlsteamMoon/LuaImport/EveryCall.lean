import Mathlib.Data.List.TakeWhile
import SlsteamMoon.DepotKey.Import
import SlsteamMoon.ManifestId.Import

/-! The two importers side by side, on one directory of scripts: when every call of every
script is stored, whatever else the scripts say. -/
namespace SlsteamMoon.LuaImport
open DepotKey ManifestId Runs

/-- Both importers finish, every call is stored and nothing else is written. -/
structure EveryCallStored (managedApps : List AppId) (stplug : Option (List DirectoryEntry)) (entry : Entry)
    (i : Importer) (p : Process) : Prop where
  keys : KeysImported (scripts managedApps (stplug.getD [])) i.cache (i.call managedApps stplug entry).cache
  pins : Process.PinsImported (scripts managedApps (stplug.getD [])) p
    (p.importLuaScripts (scripts managedApps (stplug.getD []))).1
    (p.importLuaScripts (scripts managedApps (stplug.getD []))).2

/-- No number stands in the way of a call behind it, and no script of a pin. -/
structure NothingInTheWay (managedApps : List AppId) (stplug : Option (List DirectoryEntry)) (entry : Entry)
    (i : Importer) (p : Process) : Prop where
  keys : KeysReached (i.reads entry (scripts managedApps (stplug.getD []))) (scripts managedApps (stplug.getD []))
    i.cache
  pins : Process.PinsOwned p.index (scripts managedApps (stplug.getD []))

/-- Scripts whose numbers are depot ids, one script an app. -/
structure Clean (scripts : List Script) : Prop where
  keys : ∀ s ∈ scripts, ∀ call ∈ s.keyCalls, 0 < numeral call.depot ∧ numeral call.depot < 0x100000000
  pins : ∀ s ∈ scripts, ∀ call ∈ s.pinCalls, numeral call.depot < 0x100000000
  apps : (scripts.map Script.appId).Nodup

private theorem Clean.nothingInTheWay {managedApps : List AppId} {stplug : Option (List DirectoryEntry)} {entry : Entry}
    {i : Importer} (h : Clean (scripts managedApps (stplug.getD []))) (hlets : i.lets entry = true) (p : Process) :
    NothingInTheWay managedApps stplug entry i p := by
  generalize hscripts : scripts managedApps (stplug.getD []) = found at h
  have hkeyed : ∀ x ∈ keyedCalls found, 0 < numeral x.2.depot ∧ numeral x.2.depot < 0x100000000 := by
    intro x hx
    obtain ⟨s, hs, hx⟩ := List.mem_flatMap.mp hx
    obtain ⟨call, hcall, rfl⟩ := List.mem_map.mp hx
    exact h.keys s hs call hcall
  have hall : reached (keyedCalls found) = keyedCalls found := by
    apply List.takeWhile_eq_self_iff.mpr
    intro x hx
    rw [Option.isSome_iff_ne_none, ne_eq, stoul_eq_none_iff, Nat.not_le]
    exact (hkeyed x hx).2
  refine ⟨?_, ?_⟩
  · rw [hscripts, Importer.reads, if_pos hlets, hall]
    refine ⟨fun x hx d _ hnames => .inl ⟨x, hx, hnames⟩, fun x hx hnames => ?_⟩
    have hzero : numeral x.2.depot = 0 := hnames
    exact absurd (hkeyed x hx).1 (by omega)
  · rw [hscripts]
    refine ⟨h.pins, ?_⟩
    rintro d - ⟨s, hs, hnamed⟩
    refine ⟨s.appId, ?_⟩
    rw [Process.OwnsAfter]
    cases hfind : found.reverse.find? fun s' => s'.appId = s.appId with
    | none =>
      have hnone := List.find?_eq_none.mp hfind s (List.mem_reverse.mpr hs)
      simp at hnone
    | some s' =>
      have hsame : s'.appId = s.appId := by simpa using List.find?_some hfind
      have hmem : s' ∈ found := List.mem_reverse.mp (List.mem_of_find?_eq_some hfind)
      rwa [List.inj_on_of_nodup_map h.apps hmem hs hsame]

/-- In every process and for every directory: a number above the depot ids ends the pins
for good, and the keys behind it are lost; so are pins of an app that has another script, and
a key for depot zero is written. Otherwise every call is stored. -/
theorem every_call_stored_iff {disk : Disk} {events : List Process.Event} {p : Process}
    (hrun : exec Process.step (Process.start disk) events = some p) (i : Importer) (managedApps : List AppId)
    (stplug : Option (List DirectoryEntry)) (entry : Entry) :
    EveryCallStored managedApps stplug entry i p ↔ NothingInTheWay managedApps stplug entry i p := by
  have hkeys := i.call_imports_iff managedApps stplug entry
  have hpins := Process.importLuaScripts_imports_iff (Process.related_exec hrun) (scripts managedApps (stplug.getD []))
  exact ⟨fun h => ⟨hkeys.mp h.keys, hpins.mp h.pins⟩, fun h => ⟨hkeys.mpr h.keys, hpins.mpr h.pins⟩⟩

def keyLine (depot : Text) : Text :=
  ['a', 'd', 'd', 'a', 'p', 'p', 'i', 'd', '('] ++ depot ++ [',', '1', ',', quote] ++ List.replicate 64 'a' ++
    [quote, ')', '\n']

def pinLine (depot : Text) : Text :=
  ['s', 'e', 't', 'M', 'a', 'n', 'i', 'f', 'e', 's', 't', 'i', 'd', '('] ++ depot ++
    [',', quote, '7', quote, ')', '\n']

def emptyCache : KeyCache := ⟨fun _ => none, false, fun _ => none, [], fun _ _ h => (by cases h), fun h => (by cases h)⟩

/-- Depot 481 in the script of app 480. -/
def plainScript : DirectoryEntry :=
  ⟨['4', '8', '0', '.', 'l', 'u', 'a'], true, true, keyLine ['4', '8', '1'] ++ pinLine ['4', '8', '1']⟩

theorem plainScript_stored :
    EveryCallStored [480] (some [plainScript]) .importLuaScripts ⟨emptyCache, false⟩ (Process.start Disk.empty) := by
  refine (@every_call_stored_iff Disk.empty [] _ rfl _ _ _ _).mpr (Clean.nothingInTheWay ?_ rfl _)
  have hscripts : scripts [480] [plainScript] = [⟨480, plainScript.text, by decide⟩] := by decide +kernel
  rw [Option.getD_some, hscripts]
  exact ⟨by decide +kernel, by decide +kernel, by decide +kernel⟩

/-- The same behind a line with the number 2^32. -/
def wideNumberFirst : DirectoryEntry :=
  { plainScript with
    text := keyLine ['4', '2', '9', '4', '9', '6', '7', '2', '9', '6'] ++
      pinLine ['4', '2', '9', '4', '9', '6', '7', '2', '9', '6'] ++ plainScript.text }

/-- The key of depot 481 is lost, and an exception leaves the importer of the pins. -/
theorem wideNumber_stops_import :
    ¬EveryCallStored [480] (some [wideNumberFirst]) .importLuaScripts ⟨emptyCache, false⟩ (Process.start Disk.empty) ∧
      ((⟨emptyCache, false⟩ : Importer).importLuaScripts [480] (some [wideNumberFirst])).cache.getCachedKey 481 = {} ∧
      ((Process.start Disk.empty).importLuaScripts (scripts [480] [wideNumberFirst])).2 = true := by
  have hthrew : ((Process.start Disk.empty).importLuaScripts (scripts [480] [wideNumberFirst])).2 = true := by
    decide +kernel
  refine ⟨fun h => ?_, by decide +kernel, hthrew⟩
  exact Bool.noConfusion (h.pins.returns.symm.trans hthrew)

end SlsteamMoon.LuaImport
