import SlsteamMoon.LuaImport.Calls
import Mathlib.Logic.Function.Basic

/-! The depot key cache: one file for each depot, and an index of them that is loaded on
the first use. -/
namespace SlsteamMoon.DepotKey
open LuaImport

structure SavedKey where
  appId : AppId := 0
  depotId : DepotId := 0
  key : List UInt8 := []
  managed : Bool := false
  deriving DecidableEq, Repr

/-- The files that can be read, each about the depot of its name. A loaded index has
what the files have; the file of depot zero is never loaded. -/
structure KeyCache where
  file : DepotId → Option SavedKey
  loaded : Bool := false
  entry : DepotId → Option SavedKey := fun _ => none
  writes : List DepotId := []
  named : ∀ d k, file d = some k → k.depotId = d
  agrees : loaded = true → ∀ d, d ≠ 0 → entry d = file d

namespace KeyCache

def loadKeyIndexLocked (c : KeyCache) : KeyCache :=
  if c.loaded then c
  else { c with
    loaded := true
    entry := fun d => if d = 0 then none else c.file d
    agrees := fun _ _ hd => if_neg hd }

def getCachedKey (c : KeyCache) (d : DepotId) : SavedKey := (c.loadKeyIndexLocked.entry d).getD {}

/-- The file and the index entry of one depot; `writes` is history. -/
def write (c : KeyCache) (d : DepotId) (appId : AppId) (key : List UInt8) (managed : Bool) : KeyCache where
  file := Function.update c.file d (some ⟨appId, d, key, managed⟩)
  loaded := c.loaded
  entry := Function.update c.entry d (some ⟨appId, d, key, managed⟩)
  writes := c.writes ++ [d]
  named e k hk := by
    by_cases he : e = d
    · subst he
      rw [Function.update_self] at hk
      cases hk
      rfl
    · rw [Function.update_of_ne he] at hk
      exact c.named e k hk
  agrees hloaded e hne := by
    by_cases he : e = d
    · rw [he, Function.update_self, Function.update_self]
    · rw [Function.update_of_ne he, Function.update_of_ne he]
      exact c.agrees hloaded e hne

/-- The answer is false for a key that is no key; writing succeeds. -/
def saveKeyToCache (c : KeyCache) (appId : AppId) (d : DepotId) (key : List UInt8) (managed : Bool) :
    Bool × KeyCache :=
  if key.length ≠ 32 then (false, c)
  else
    let c := c.loadKeyIndexLocked
    let existing := (c.entry d).getD {}
    let finalAppId := if appId ≠ 0 then appId else existing.appId
    let finalManaged := existing.managed || managed
    if existing.depotId = d ∧ existing.key = key ∧ existing.appId = finalAppId ∧ existing.managed = finalManaged then
      (true, c)
    else (true, c.write d finalAppId key finalManaged)

section
variable {c : KeyCache} {d e : DepotId} {appId : AppId} {key : List UInt8}

@[simp] theorem load_load (c : KeyCache) : c.loadKeyIndexLocked.loadKeyIndexLocked = c.loadKeyIndexLocked := by
  by_cases hloaded : c.loaded = true
  · rw [loadKeyIndexLocked, if_pos]
    rw [loadKeyIndexLocked, if_pos hloaded]
    exact hloaded
  · conv_lhs => rw [loadKeyIndexLocked, if_pos (by rw [loadKeyIndexLocked, if_neg hloaded])]

@[simp] theorem getCachedKey_load (c : KeyCache) (d : DepotId) :
    c.loadKeyIndexLocked.getCachedKey d = c.getCachedKey d := by rw [getCachedKey, load_load, getCachedKey]

@[simp] theorem writes_load (c : KeyCache) : c.loadKeyIndexLocked.writes = c.writes := by
  rw [loadKeyIndexLocked]
  split_ifs <;> rfl

@[simp] theorem file_load (c : KeyCache) : c.loadKeyIndexLocked.file = c.file := by
  rw [loadKeyIndexLocked]
  split_ifs <;> rfl

theorem loaded_load (c : KeyCache) : c.loadKeyIndexLocked.loaded = true := by
  rw [loadKeyIndexLocked]
  split_ifs with hloaded
  · exact hloaded
  · rfl

/-- What the index answers is what the file of the depot says. -/
theorem getCachedKey_eq_file (c : KeyCache) (hd : d ≠ 0) : c.getCachedKey d = (c.file d).getD {} := by
  rw [getCachedKey, c.loadKeyIndexLocked.agrees c.loaded_load d hd, file_load]

private theorem getCachedKey_write (hloaded : c.loaded = true) (managed : Bool) :
    (c.write d appId key managed).getCachedKey e = if e = d then ⟨appId, d, key, managed⟩ else c.getCachedKey e := by
  rw [getCachedKey, loadKeyIndexLocked, if_pos (by exact hloaded), getCachedKey, loadKeyIndexLocked, if_pos hloaded]
  split_ifs with he
  · simp only [write, he, Function.update_self, Option.getD_some]
  · simp only [write, Function.update_of_ne he]

/-- A key of a script is written unless the entry of its depot is the very same. -/
theorem saveKeyToCache_script (c : KeyCache) (d : DepotId) (happ : appId ≠ 0) (hkey : key.length = 32) :
    (c.saveKeyToCache appId d key true).2 =
      if c.getCachedKey d = ⟨appId, d, key, true⟩ then c.loadKeyIndexLocked
      else c.loadKeyIndexLocked.write d appId key true := by
  have hsame : (c.getCachedKey d = ⟨appId, d, key, true⟩) ↔ (c.getCachedKey d).depotId = d ∧
      (c.getCachedKey d).key = key ∧ (c.getCachedKey d).appId = appId ∧ (c.getCachedKey d).managed = true := by
    constructor
    · intro h
      rw [h]
      exact ⟨rfl, rfl, rfl, rfl⟩
    · cases c.getCachedKey d
      rintro ⟨rfl, rfl, rfl, rfl⟩
      rfl
  simp only [saveKeyToCache, hkey, ne_eq, not_true_eq_false, if_false, happ, not_false_eq_true, if_true, Bool.or_true]
  simp only [getCachedKey] at hsame ⊢
  simp only [hsame, apply_ite Prod.snd]

/-- Afterwards the depot has the key, and the other depots what they had. -/
theorem getCachedKey_saveKeyToCache (c : KeyCache) (d e : DepotId) (happ : appId ≠ 0) (hkey : key.length = 32) :
    (c.saveKeyToCache appId d key true).2.getCachedKey e =
      if e = d then ⟨appId, d, key, true⟩ else c.getCachedKey e := by
  rw [saveKeyToCache_script c d happ hkey]
  split_ifs with hsame he he
  · rw [getCachedKey_load, he, hsame]
  · rw [getCachedKey_load]
  · rw [getCachedKey_write c.loaded_load, if_pos he]
  · rw [getCachedKey_write c.loaded_load, if_neg he, getCachedKey_load]

private theorem writes_saveKeyToCache (c : KeyCache) (d : DepotId) (happ : appId ≠ 0) (hkey : key.length = 32) :
    (c.saveKeyToCache appId d key true).2.writes =
      c.writes ++ if c.getCachedKey d = ⟨appId, d, key, true⟩ then [] else [d] := by
  rw [saveKeyToCache_script c d happ hkey]
  split_ifs with hsame
  · rw [writes_load, List.append_nil]
  · rw [write, writes_load]

end
end KeyCache
end SlsteamMoon.DepotKey

/-! The importer of the keys in the scripts, behind its gate. -/
namespace SlsteamMoon.DepotKey
open LuaImport

/-- The keyed calls of the scripts in the order in which they are read. -/
def keyedCalls (scripts : List Script) : List (Script × KeyCall) :=
  scripts.flatMap fun s => s.keyCalls.map fun call => (s, call)

/-- The loops of importLuaScriptsFrom, and whether an exception ended them. -/
def importCalls (c : KeyCache) : List (Script × KeyCall) → KeyCache × Bool
  | [] => (c, false)
  | (s, call) :: rest =>
    match stoul call.depot with
    | none => (c, true)
    | some d =>
      let keyBin := hexToBytes call.keyHex
      if keyBin.length ≠ 32 then importCalls c rest
      else importCalls (c.saveKeyToCache s.appId d keyBin true).2 rest

def importLuaScriptsFrom (c : KeyCache) (scripts : List Script) : KeyCache × Bool :=
  importCalls c (keyedCalls scripts)

namespace LuaScriptImportGate

variable {σ : Type}

/-- The answer, the gate and the state. What the body throws ends here, but what it has
done by then stays done. -/
def run (done ready : Bool) (body : σ → σ × Bool) (s : σ) : Bool × Bool × σ :=
  if done then (false, done, s)
  else if ready = false then (false, done, s)
  else
    let (s, threw) := body s
    if threw then (false, done, s) else (true, true, s)

def rerun (done ready : Bool) (body : σ → σ × Bool) (s : σ) : Bool × Bool × σ :=
  if ready = false then (false, done, s)
  else
    let (s, threw) := body s
    (!threw, done, s)

private theorem run_state (done ready : Bool) (body : σ → σ × Bool) (s : σ) :
    (run done ready body s).2.2 = if done = false ∧ ready = true then (body s).1 else s := by
  simp only [run]
  cases done <;> cases ready <;> simp only [Bool.true_eq_false, Bool.false_eq_true, if_true, if_false, and_self,
    and_true, and_false]
  split <;> rfl

private theorem rerun_state (done ready : Bool) (body : σ → σ × Bool) (s : σ) :
    (rerun done ready body s).2.2 = if ready = true then (body s).1 else s := by
  rw [rerun]
  cases ready <;> rfl

end LuaScriptImportGate

structure Importer where
  cache : KeyCache
  done : Bool := false

/-- The two calls behind the gate. -/
inductive Entry
  | importLuaScripts | reloadLuaScripts
  deriving DecidableEq, Repr

namespace Importer

/-- Without a directory the importer is not ready. -/
def importLuaScripts (i : Importer) (managedApps : List AppId) (stplug : Option (List DirectoryEntry)) : Importer :=
  let (_, done, cache) := LuaScriptImportGate.run i.done stplug.isSome
    (fun c => importLuaScriptsFrom c (scripts managedApps (stplug.getD []))) i.cache
  ⟨cache, done⟩

def reloadLuaScripts (i : Importer) (managedApps : List AppId) (stplug : Option (List DirectoryEntry)) : Importer :=
  let (_, done, cache) := LuaScriptImportGate.rerun i.done stplug.isSome
    (fun c => importLuaScriptsFrom c (scripts managedApps (stplug.getD []))) i.cache
  ⟨cache, done⟩

def call (i : Importer) (managedApps : List AppId) (stplug : Option (List DirectoryEntry)) : Entry → Importer
  | .importLuaScripts => i.importLuaScripts managedApps stplug
  | .reloadLuaScripts => i.reloadLuaScripts managedApps stplug

/-- The gate lets the call through to the scripts. -/
def lets (i : Importer) : Entry → Bool
  | .importLuaScripts => !i.done
  | .reloadLuaScripts => true

end Importer

/-- The calls before the first whose number does not fit. -/
def reached (calls : List (Script × KeyCall)) : List (Script × KeyCall) :=
  calls.takeWhile fun x => (stoul x.2.depot).isSome

/-- The entry that a call makes for its depot. -/
def record (x : Script × KeyCall) (d : DepotId) : SavedKey := ⟨x.1.appId, d, hexToBytes x.2.keyHex, true⟩

section
variable {xs : List (Script × KeyCall)}

private theorem keyBin_length_of_mem {scripts : List Script} {x : Script × KeyCall} (hx : x ∈ keyedCalls scripts) :
    (hexToBytes x.2.keyHex).length = 32 := by
  obtain ⟨s, -, hx⟩ := List.mem_flatMap.mp hx
  obtain ⟨call, hcall, rfl⟩ := List.mem_map.mp hx
  exact keyBin_length hcall

private theorem importCalls_cons {s : Script} {call : KeyCall} {d : DepotId} (c : KeyCache)
    (hfits : stoul call.depot = some d) (hkey : (hexToBytes call.keyHex).length = 32) :
    importCalls c ((s, call) :: xs) =
      importCalls (c.saveKeyToCache s.appId d (hexToBytes call.keyHex) true).2 xs := by
  simp only [importCalls, hfits, hkey, ne_eq, not_true_eq_false, if_false]

private theorem reached_cons {s : Script} {call : KeyCall} {d : DepotId} (hfits : stoul call.depot = some d) :
    reached ((s, call) :: xs) = (s, call) :: reached xs := by
  simp only [reached, List.takeWhile_cons, hfits, Option.isSome_some, if_true]

private theorem reached_cons_of_none {s : Script} {call : KeyCall} (hthrows : stoul call.depot = none) :
    reached ((s, call) :: xs) = [] := by
  simp only [reached, List.takeWhile_cons, hthrows, Option.isSome_none, Bool.false_eq_true, if_false]

/-- A depot has the entry of the last call that named it before the exception. -/
theorem getCachedKey_importCalls (c : KeyCache) (hkeys : ∀ x ∈ xs, (hexToBytes x.2.keyHex).length = 32)
    (d : DepotId) :
    (∃ y ∈ reached xs, y.2.Names d ∧ (importCalls c xs).1.getCachedKey d = record y d) ∨
      (∀ y ∈ reached xs, ¬y.2.Names d) ∧ (importCalls c xs).1.getCachedKey d = c.getCachedKey d := by
  induction xs generalizing c with
  | nil => exact .inr ⟨by simp [reached], rfl⟩
  | cons x xs ih =>
    obtain ⟨s, call⟩ := x
    cases hfits : stoul call.depot with
    | none =>
      refine .inr ⟨?_, by simp only [importCalls, hfits]⟩
      simp [reached_cons_of_none hfits]
    | some e =>
      have hkey := hkeys _ List.mem_cons_self
      rw [reached_cons hfits, importCalls_cons c hfits hkey]
      obtain ⟨y, hy, hnames, heq⟩ | ⟨hnone, heq⟩ := ih _ fun x hx => hkeys x (List.mem_cons_of_mem _ hx)
      · exact .inl ⟨y, List.mem_cons_of_mem _ hy, hnames, heq⟩
      · rw [KeyCache.getCachedKey_saveKeyToCache c e d s.managed hkey] at heq
        split_ifs at heq with hd
        · subst hd
          exact .inl ⟨_, List.mem_cons_self, stoul_eq_some_iff.mp hfits, heq⟩
        · refine .inr ⟨fun y hy => ?_, heq⟩
          obtain rfl | hy := List.mem_cons.mp hy
          · intro hnames
            have hsame := hfits.symm.trans (stoul_eq_some_iff.mpr hnames)
            exact hd (Option.some.inj hsame).symm
          · exact hnone y hy

/-- A file is written for a depot that some call named otherwise than its entry says. -/
theorem writes_importCalls (c : KeyCache) (hkeys : ∀ x ∈ xs, (hexToBytes x.2.keyHex).length = 32) :
    ∃ new, (importCalls c xs).1.writes = c.writes ++ new ∧
      ∀ d, d ∈ new ↔ ∃ y ∈ reached xs, y.2.Names d ∧ c.getCachedKey d ≠ record y d := by
  induction xs generalizing c with
  | nil => exact ⟨[], (List.append_nil _).symm, by simp [reached]⟩
  | cons x xs ih =>
    obtain ⟨s, call⟩ := x
    cases hfits : stoul call.depot with
    | none =>
      refine ⟨[], ?_, ?_⟩
      · simp only [importCalls, hfits, List.append_nil]
      · simp [reached_cons_of_none hfits]
    | some e =>
      have hkey := hkeys _ List.mem_cons_self
      have hhead : ∀ d, KeyCall.Names call d ↔ d = e := fun d => by
        rw [KeyCall.Names, ← stoul_eq_some_iff, hfits, Option.some.injEq, eq_comm]
      rw [reached_cons hfits, importCalls_cons c hfits hkey]
      obtain ⟨new, hwrites, hnew⟩ := ih _ fun x hx => hkeys x (List.mem_cons_of_mem _ hx)
      rw [KeyCache.writes_saveKeyToCache c e s.managed hkey, List.append_assoc] at hwrites
      refine ⟨_, hwrites, fun d => ?_⟩
      rw [List.mem_append, hnew d, KeyCache.getCachedKey_saveKeyToCache c e d s.managed hkey]
      simp only [List.mem_cons, exists_eq_or_imp, hhead]
      by_cases hd : d = e
      · subst hd
        simp only [if_true, true_and]
        split_ifs with hsame
        · rw [hsame]
          simp [record]
        · simp [record, hsame]
      · simp only [if_neg hd]
        split_ifs <;> simp [hd]

end

/-- Every keyed call that names a depot has left it the key of one of the calls naming it,
and no other file was written. -/
structure KeysImported (scripts : List Script) (before after : KeyCache) : Prop where
  stored : ∀ x ∈ keyedCalls scripts, ∀ d, d ≠ 0 → x.2.Names d →
    ∃ y ∈ keyedCalls scripts, y.2.Names d ∧ (after.getCachedKey d).key = hexToBytes y.2.keyHex
  only : ∀ d ∈ after.writes.drop before.writes.length, d ≠ 0 ∧ ∃ x ∈ keyedCalls scripts, x.2.Names d

/-- Each depot is named before the first number that does not fit, or had the key of one
of its calls before; depot zero is named for the entry that it has, if at all. -/
structure KeysReached (read : List (Script × KeyCall)) (scripts : List Script) (before : KeyCache) : Prop where
  reaches : ∀ x ∈ keyedCalls scripts, ∀ d, d ≠ 0 → x.2.Names d → (∃ y ∈ read, y.2.Names d) ∨
    ∃ y ∈ keyedCalls scripts, y.2.Names d ∧ (before.getCachedKey d).key = hexToBytes y.2.keyHex
  zero : ∀ x ∈ read, x.2.Names 0 → before.getCachedKey 0 = record x 0

private theorem mem_of_mem_reached {xs : List (Script × KeyCall)} {x : Script × KeyCall} (h : x ∈ reached xs) :
    x ∈ xs :=
  (List.takeWhile_prefix _).subset h

private theorem importLuaScriptsFrom_imports_iff (c : KeyCache) (scripts : List Script) :
    KeysImported scripts c (importLuaScriptsFrom c scripts).1 ↔ KeysReached (reached (keyedCalls scripts)) scripts c := by
  have hkeys : ∀ x ∈ keyedCalls scripts, (hexToBytes x.2.keyHex).length = 32 := fun x hx => keyBin_length_of_mem hx
  obtain ⟨new, hwrites, hnew⟩ := writes_importCalls c hkeys
  have hdrop : (importLuaScriptsFrom c scripts).1.writes.drop c.writes.length = new := by
    rw [importLuaScriptsFrom, hwrites, List.drop_left]
  constructor
  · intro h
    refine ⟨fun x hx d hd hnames => ?_, fun x hx hnames => ?_⟩
    · obtain ⟨y, hy, hynames, hstored⟩ := h.stored x hx d hd hnames
      obtain ⟨z, hz, hznames, -⟩ | ⟨-, hsame⟩ := getCachedKey_importCalls c hkeys d
      · exact .inl ⟨z, hz, hznames⟩
      · rw [importLuaScriptsFrom, hsame] at hstored
        exact .inr ⟨y, hy, hynames, hstored⟩
    · by_contra hother
      exact (h.only 0 (hdrop ▸ (hnew 0).mpr ⟨x, hx, hnames, hother⟩)).1 rfl
  · intro h
    refine ⟨fun x hx d hd hnames => ?_, fun d hd => ?_⟩
    · obtain ⟨z, hz, hznames, hsame⟩ | ⟨hnone, hsame⟩ := getCachedKey_importCalls c hkeys d
      · exact ⟨z, mem_of_mem_reached hz, hznames, by rw [importLuaScriptsFrom, hsame, record]⟩
      · obtain ⟨y, hy, hynames⟩ | ⟨y, hy, hynames, hstored⟩ := h.reaches x hx d hd hnames
        · exact absurd hynames (hnone y hy)
        · exact ⟨y, hy, hynames, by rw [importLuaScriptsFrom, hsame, hstored]⟩
    · rw [hdrop] at hd
      obtain ⟨y, hy, hynames, hother⟩ := (hnew d).mp hd
      refine ⟨?_, y, mem_of_mem_reached hy, hynames⟩
      rintro rfl
      exact hother (h.zero y hy hynames)

/-- Where the gate does not let the call through, the keys have to be there. -/
theorem untouched_imports_iff (c : KeyCache) (scripts : List Script) :
    KeysImported scripts c c ↔ KeysReached [] scripts c := by
  constructor
  · intro h
    exact ⟨fun x hx d hd hnames => .inr (h.stored x hx d hd hnames), by simp⟩
  · intro h
    refine ⟨fun x hx d hd hnames => ?_, fun d hd => ?_⟩
    · obtain ⟨y, hy, -⟩ | hstored := h.reaches x hx d hd hnames
      · cases hy
      · exact hstored
    · rw [List.drop_length] at hd
      cases hd

/-- The calls that an entry point reads. -/
def Importer.reads (i : Importer) (entry : Entry) (scripts : List Script) : List (Script × KeyCall) :=
  if i.lets entry then reached (keyedCalls scripts) else []

theorem Importer.call_imports_iff (i : Importer) (managedApps : List AppId) (stplug : Option (List DirectoryEntry))
    (entry : Entry) :
    KeysImported (scripts managedApps (stplug.getD [])) i.cache (i.call managedApps stplug entry).cache ↔
      KeysReached (i.reads entry (scripts managedApps (stplug.getD []))) (scripts managedApps (stplug.getD []))
        i.cache := by
  have hcache : (i.call managedApps stplug entry).cache =
      if i.lets entry = true ∧ stplug.isSome = true then
        (importLuaScriptsFrom i.cache (scripts managedApps (stplug.getD []))).1
      else i.cache := by
    cases entry with
    | importLuaScripts =>
      simp only [lets, Bool.not_eq_true']
      exact LuaScriptImportGate.run_state i.done stplug.isSome
        (fun c => importLuaScriptsFrom c (scripts managedApps (stplug.getD []))) i.cache
    | reloadLuaScripts =>
      simp only [lets, true_and]
      exact LuaScriptImportGate.rerun_state i.done stplug.isSome
        (fun c => importLuaScriptsFrom c (scripts managedApps (stplug.getD []))) i.cache
  rw [hcache, reads]
  cases hlets : i.lets entry with
  | false => simpa using untouched_imports_iff i.cache _
  | true =>
    cases stplug with
    | none =>
      have hnone : scripts managedApps [] = [] := rfl
      simpa [hnone, keyedCalls, reached] using untouched_imports_iff i.cache []
    | some stplug => simpa using importLuaScriptsFrom_imports_iff i.cache _

end SlsteamMoon.DepotKey
