import SlsteamMoon.HotReload.Coordinator
import SlsteamMoon.Runs

/-! The managed-membership store: publications and the taker under one mutex, any
number of readers on atomics, and the one slot that carries the dirty signal. -/
namespace SlsteamMoon.HotReloadState

open OwnerQueue (AppId)
open HotReload (sortUnique mem_sortUnique)
open Runs

/-- A record is created by one publication, so its app and generation name it. A generation
is a counter of 64 bits: below 2^64 publications it does not run over. -/
structure Record where
  appId : AppId
  generation : Nat
  deriving DecidableEq

/-- A read handle and how far its noteResolved call has come. -/
inductive Reader
  | idle
  | holding (snapshot : List Record)
  | found (record : Option Record)
  | checked (record : Record)
  | marked (record : Record)

/-- The slot's generation is zero when nothing is dirty. The records noted since
the last exchange, and those noted before the exchange of a running take, are
history. -/
structure Store where
  generation : Nat := 0
  records : List Record := []
  resolvedGeneration : Record → Nat := fun _ => 0
  resolvedDirtyGeneration : Nat := 0
  readers : Nat → Reader := fun _ => .idle
  taking : Option Nat := none
  noted : List Record := []
  awaited : List Record := []

inductive Event
  | readHandle (t : Nat)
  | contains (t : Nat) (appId : AppId)
  | checkCurrent (t : Nat)
  | resolve (t : Nat)
  | storeDirty (t : Nat)
  | release (t : Nat)
  | publish (desired : List AppId)
  | exchangeDirty
  | scanRecords

def findRecord (records : List Record) (appId : AppId) : Option Record := records.find? (·.appId == appId)

namespace Store

def setReader (s : Store) (t : Nat) (reader : Reader) : Store :=
  { s with readers := Function.update s.readers t reader }

/-- Records that stay are kept, new ones carry the new generation. -/
def publish (s : Store) (desired : List AppId) : Store :=
  if sortUnique desired = s.records.map Record.appId then s
  else
    { s with
      generation := s.generation + 1
      records := (sortUnique desired).map fun appId =>
        (findRecord s.records appId).getD ⟨appId, s.generation + 1⟩ }

/-- What takeResolvedDirty answers for the generation its exchange took. -/
def takeAnswer (s : Store) (dirtyGeneration : Nat) : Bool :=
  dirtyGeneration != 0 &&
    s.records.any fun r => r.generation == dirtyGeneration && s.resolvedGeneration r == dirtyGeneration

end Store

/-- One shared access. noteResolved is the check, the compare-exchange and the
store; its return is the store. A take holds the mutex from its exchange to its scan. -/
def step (s : Store) : Event → Option Store
  | .readHandle t =>
    match s.readers t with
    | .idle => some (s.setReader t (.holding s.records))
    | _ => none
  | .contains t appId =>
    match s.readers t with
    | .holding snapshot => some (s.setReader t (.found (findRecord snapshot appId)))
    | _ => none
  | .checkCurrent t =>
    match s.readers t with
    | .found (some record) =>
      if findRecord s.records record.appId = some record then some (s.setReader t (.checked record)) else some s
    | _ => none
  | .resolve t =>
    match s.readers t with
    | .checked record =>
      if s.resolvedGeneration record = 0 then
        some ({ s with resolvedGeneration := Function.update s.resolvedGeneration record record.generation }.setReader t
          (.marked record))
      else some (s.setReader t (.found (some record)))
    | _ => none
  | .storeDirty t =>
    match s.readers t with
    | .marked record =>
      some ({ s with resolvedDirtyGeneration := record.generation, noted := s.noted ++ [record] }.setReader t
        (.found (some record)))
    | _ => none
  | .release t =>
    match s.readers t with
    | .holding _ | .found _ => some (s.setReader t .idle)
    | _ => none
  | .publish desired => if s.taking.isSome then none else some (s.publish desired)
  | .exchangeDirty =>
    if s.taking.isSome then none
    else some { s with taking := some s.resolvedDirtyGeneration, resolvedDirtyGeneration := 0
                       awaited := s.noted, noted := [] }
  | .scanRecords => if s.taking.isSome then some { s with taking := none, awaited := [] } else none

/-- A current record is resolved in this generation. -/
def Carried (s : Store) (generation : Nat) : Prop :=
  ∃ r ∈ s.records, r.generation = generation ∧ s.resolvedGeneration r = generation

/-- A take answers true when a record noted before it is still current. -/
def Signalled (s : Store) : Event → Prop
  | .scanRecords => ∀ dirtyGeneration, s.taking = some dirtyGeneration →
      (∃ r ∈ s.awaited, r ∈ s.records) → s.takeAnswer dirtyGeneration = true
  | _ => True

/-- While a noted record stays current, no publication removes the records that
carry the slot's generation, and no reader stores the generation of a record
that was removed behind its check. -/
def KeepsCarrier (s : Store) : Event → Prop
  | .publish desired => (∃ r ∈ s.noted, r ∈ s.records ∧ r.appId ∈ desired) →
      ∃ r ∈ s.records, r.appId ∈ desired ∧ r.generation = s.resolvedDirtyGeneration ∧
        s.resolvedGeneration r = s.resolvedDirtyGeneration
  | .storeDirty t => ∀ record, s.readers t = .marked record → (∃ r ∈ s.noted, r ∈ s.records) →
      Carried s record.generation
  | _ => True

/-- The records a reader holds. -/
def Reader.records : Reader → List Record
  | .idle => []
  | .holding snapshot => snapshot
  | .found record => record.toList
  | .checked record => [record]
  | .marked record => [record]

/-- The generations some publication has used. -/
def Store.Known (s : Store) (r : Record) : Prop := 0 < r.generation ∧ r.generation ≤ s.generation

structure Consistent (s : Store) : Prop where
  unique : (s.records.map Record.appId).Nodup
  records : ∀ r ∈ s.records, s.Known r
  readers : ∀ t, ∀ r ∈ (s.readers t).records, s.Known r
  marked : ∀ t r, s.readers t = .marked r → s.resolvedGeneration r = r.generation
  noted : ∀ r ∈ s.noted, s.Known r ∧ s.resolvedGeneration r = r.generation
  awaited : ∀ r ∈ s.awaited, s.Known r
  signal : (∃ r ∈ s.noted, r ∈ s.records) → Carried s s.resolvedDirtyGeneration
  taken : ∀ g, s.taking = some g → (∃ r ∈ s.awaited, r ∈ s.records) → Carried s g

private theorem findRecord_some {records : List Record} {appId : AppId} {r : Record}
    (h : findRecord records appId = some r) : r ∈ records ∧ r.appId = appId := by
  have hkey := List.find?_some (p := fun r : Record => r.appId == appId) h
  exact ⟨List.mem_of_find?_eq_some h, eq_of_beq hkey⟩

private theorem findRecord_of_mem {records : List Record} (h : (records.map Record.appId).Nodup) {r : Record}
    (hr : r ∈ records) : findRecord records r.appId = some r := by
  induction records with
  | nil => cases hr
  | cons first records ih =>
    obtain ⟨hnew, hrest⟩ := List.nodup_cons.mp h
    obtain rfl | hr := List.mem_cons.mp hr
    · simp [findRecord]
    · have hne : first.appId ≠ r.appId := fun heq => hnew (heq ▸ List.mem_map_of_mem hr)
      have hskip : findRecord (first :: records) r.appId = findRecord records r.appId := by
        simp [findRecord, hne]
      rw [hskip, ih hrest hr]

/-- A publication keeps the desired records it finds and adds fresh ones. -/
theorem mem_publish {s : Store} {desired : List AppId} {r : Record} (hr : r ∈ (s.publish desired).records) :
    (r ∈ s.records ∧ r.appId ∈ desired) ∨ (r.generation = (s.publish desired).generation ∧
      (s.publish desired).generation = s.generation + 1) := by
  simp only [Store.publish] at hr ⊢
  split at hr
  · next hsame =>
    rw [if_pos hsame]
    have happ : r.appId ∈ sortUnique desired := hsame ▸ List.mem_map_of_mem hr
    exact Or.inl ⟨hr, mem_sortUnique.mp happ⟩
  · next hchanged =>
    rw [if_neg hchanged]
    obtain ⟨appId, happ, hget⟩ := List.mem_map.mp hr
    cases hfound : findRecord s.records appId with
    | none =>
      rw [hfound] at hget
      exact Or.inr ⟨by rw [← hget]; rfl, rfl⟩
    | some found =>
      rw [hfound] at hget
      obtain rfl : found = r := hget
      obtain ⟨hmem, rfl⟩ := findRecord_some hfound
      exact Or.inl ⟨hmem, mem_sortUnique.mp happ⟩

private theorem publish_keeps {s : Store} (hunique : (s.records.map Record.appId).Nodup) {desired : List AppId}
    {r : Record} (hr : r ∈ s.records) (hdesired : r.appId ∈ desired) : r ∈ (s.publish desired).records := by
  simp only [Store.publish]
  split
  · exact hr
  · apply List.mem_map.mpr
    refine ⟨r.appId, mem_sortUnique.mpr hdesired, ?_⟩
    rw [findRecord_of_mem hunique hr]
    rfl

private theorem publish_generation_le (s : Store) (desired : List AppId) :
    s.generation ≤ (s.publish desired).generation := by
  simp only [Store.publish]
  split
  · exact Nat.le_refl _
  · exact Nat.le_succ _

private theorem publish_unique {s : Store} (hunique : (s.records.map Record.appId).Nodup) (desired : List AppId) :
    ((s.publish desired).records.map Record.appId).Nodup := by
  simp only [Store.publish]
  split
  · exact hunique
  · have hids : ((sortUnique desired).map fun appId =>
        (findRecord s.records appId).getD ⟨appId, s.generation + 1⟩).map Record.appId = sortUnique desired := by
      rw [List.map_map]
      apply List.map_id''
      intro appId
      show ((findRecord s.records appId).getD ⟨appId, s.generation + 1⟩).appId = appId
      cases hfound : findRecord s.records appId with
      | none => rfl
      | some found => exact (findRecord_some hfound).2
    rw [hids]
    exact List.nodup_dedup _

/-- What one publication preserves. -/
theorem consistent_publish {s : Store} (h : Consistent s) {desired : List AppId} (htaking : s.taking = none)
    (hok : KeepsCarrier s (.publish desired)) : Consistent (s.publish desired) := by
  have hle := publish_generation_le s desired
  have hfields : (s.publish desired).resolvedGeneration = s.resolvedGeneration ∧
      (s.publish desired).resolvedDirtyGeneration = s.resolvedDirtyGeneration ∧
      (s.publish desired).readers = s.readers ∧ (s.publish desired).taking = s.taking ∧
      (s.publish desired).noted = s.noted ∧ (s.publish desired).awaited = s.awaited := by
    simp only [Store.publish]
    split <;> exact ⟨rfl, rfl, rfl, rfl, rfl, rfl⟩
  obtain ⟨hresolved, hdirty, hreaders, htake, hnoted, hawaited⟩ := hfields
  have hknown : ∀ r, s.Known r → (s.publish desired).Known r := fun r hr => ⟨hr.1, hr.2.trans hle⟩
  constructor
  case unique => exact publish_unique h.unique desired
  case records =>
    intro r hr
    obtain ⟨hold, -⟩ | ⟨hfresh, hnext⟩ := mem_publish hr
    · exact hknown r (h.records r hold)
    · exact ⟨by omega, hfresh.le⟩
  case readers =>
    rw [hreaders]
    exact fun t r hr => hknown r (h.readers t r hr)
  case marked =>
    rw [hreaders, hresolved]
    exact h.marked
  case noted =>
    rw [hnoted, hresolved]
    exact fun r hr => ⟨hknown r (h.noted r hr).1, (h.noted r hr).2⟩
  case awaited =>
    rw [hawaited]
    exact fun r hr => hknown r (h.awaited r hr)
  case signal =>
    rw [hnoted, hdirty]
    rintro ⟨r, hr, hcurrent⟩
    -- a fresh record is younger than every noted one
    have hstays : r ∈ s.records ∧ r.appId ∈ desired := by
      obtain hold | ⟨hfresh, hnext⟩ := mem_publish hcurrent
      · exact hold
      · have hnoted := (h.noted r hr).1.2
        omega
    obtain ⟨carrier, hcarrier, hdesired, hgeneration, hmark⟩ := hok ⟨r, hr, hstays⟩
    refine ⟨carrier, publish_keeps h.unique hcarrier hdesired, hgeneration, ?_⟩
    rw [hresolved]
    exact hmark
  case taken =>
    rw [htake, htaking]
    intro g hg
    cases hg

/-- Moving a reader to another phase over the records it holds. -/
theorem consistent_setReader {s : Store} (h : Consistent s) (t : Nat) {reader : Reader}
    (hknown : ∀ r ∈ reader.records, s.Known r)
    (hmarked : ∀ r, reader = .marked r → s.resolvedGeneration r = r.generation) :
    Consistent (s.setReader t reader) := by
  have hat : ∀ u, (s.setReader t reader).readers u = reader ∨ (s.setReader t reader).readers u = s.readers u := by
    intro u
    by_cases hu : u = t
    · exact Or.inl (by rw [hu]; exact Function.update_self ..)
    · exact Or.inr (Function.update_of_ne hu ..)
  constructor
  case unique => exact h.unique
  case records => exact h.records
  case readers =>
    intro u r hr
    obtain hu | hu := hat u
    · exact hknown r (hu ▸ hr)
    · exact h.readers u r (hu ▸ hr)
  case marked =>
    intro u r hr
    obtain hu | hu := hat u
    · exact hmarked r (hu ▸ hr)
    · exact h.marked u r (hu ▸ hr)
  case noted => exact h.noted
  case awaited => exact h.awaited
  case signal => exact h.signal
  case taken => exact h.taken

/-- The won compare-exchange writes the record's own generation. -/
theorem consistent_resolve {s : Store} (h : Consistent s) (record : Record) :
    Consistent { s with
      resolvedGeneration := Function.update s.resolvedGeneration record record.generation } := by
  have hkeep : ∀ r, s.resolvedGeneration r = r.generation →
      Function.update s.resolvedGeneration record record.generation r = r.generation := by
    intro r hr
    by_cases heq : r = record
    · rw [heq, Function.update_self]
    · rw [Function.update_of_ne heq, hr]
  have hcarried : ∀ g, Carried s g → Carried { s with
      resolvedGeneration := Function.update s.resolvedGeneration record record.generation } g := by
    rintro g ⟨r, hr, hgeneration, hmark⟩
    exact ⟨r, hr, hgeneration, (hkeep r (hmark.trans hgeneration.symm)).trans hgeneration⟩
  exact
    { unique := h.unique
      records := h.records
      readers := h.readers
      marked := fun t r hr => hkeep r (h.marked t r hr)
      noted := fun r hr => ⟨(h.noted r hr).1, hkeep r (h.noted r hr).2⟩
      awaited := h.awaited
      signal := fun hcurrent => hcarried _ (h.signal hcurrent)
      taken := fun g hg hcurrent => hcarried g (h.taken g hg hcurrent) }

/-- The store of the slot, by a reader whose record is marked. -/
theorem consistent_storeDirty {s : Store} (h : Consistent s) {t : Nat} {record : Record}
    (hreader : s.readers t = .marked record) (hok : KeepsCarrier s (.storeDirty t)) :
    Consistent { s with resolvedDirtyGeneration := record.generation, noted := s.noted ++ [record] } := by
  have hrecord : s.Known record := h.readers t record (by rw [hreader]; exact List.mem_singleton_self record)
  have hmark := h.marked t record hreader
  constructor
  case unique => exact h.unique
  case records => exact h.records
  case readers => exact h.readers
  case marked => exact h.marked
  case noted =>
    intro r hr
    obtain hr | hr := List.mem_append.mp hr
    · exact h.noted r hr
    · rw [List.mem_singleton.mp hr]
      exact ⟨hrecord, hmark⟩
  case awaited => exact h.awaited
  case signal =>
    rintro ⟨r, hr, hcurrent⟩
    obtain hr | hr := List.mem_append.mp hr
    · exact hok record hreader ⟨r, hr, hcurrent⟩
    · rw [List.mem_singleton.mp hr] at hcurrent
      exact ⟨record, hcurrent, rfl, hmark⟩
  case taken => exact h.taken

/-- The take has the slot's generation, and the noted records wait for its answer. -/
theorem consistent_exchangeDirty {s : Store} (h : Consistent s) :
    Consistent { s with taking := some s.resolvedDirtyGeneration, resolvedDirtyGeneration := 0
                        awaited := s.noted, noted := [] } where
  unique := h.unique
  records := h.records
  readers := h.readers
  marked := h.marked
  noted _ hr := absurd hr List.not_mem_nil
  awaited r hr := (h.noted r hr).1
  signal := fun ⟨_, hr, _⟩ => absurd hr List.not_mem_nil
  taken _ hg hcurrent := Option.some.inj hg ▸ h.signal hcurrent

private theorem consistent_scanRecords {s : Store} (h : Consistent s) :
    Consistent { s with taking := none, awaited := [] } where
  unique := h.unique
  records := h.records
  readers := h.readers
  marked := h.marked
  noted := h.noted
  awaited _ hr := absurd hr List.not_mem_nil
  signal := h.signal
  taken g hg := by cases hg

private theorem consistent_step (s : Store) (e : Event) (u : Store) (h : Consistent s) (hok : KeepsCarrier s e)
    (hstep : step s e = some u) : Consistent u := by
  cases e with
  | readHandle t =>
    simp only [step] at hstep
    split at hstep
    · obtain rfl := Option.some.inj hstep
      exact consistent_setReader h t h.records fun _ hr => Reader.noConfusion hr
    · cases hstep
  | contains t appId =>
    simp only [step] at hstep
    split at hstep
    · next snapshot hreader =>
      obtain rfl := Option.some.inj hstep
      refine consistent_setReader h t (fun r hr => ?_) fun _ hr => Reader.noConfusion hr
      have hfound : findRecord snapshot appId = some r := Option.mem_toList.mp hr
      exact h.readers t r (by rw [hreader]; exact (findRecord_some hfound).1)
    · cases hstep
  | checkCurrent t =>
    simp only [step] at hstep
    split at hstep
    · next record hreader =>
      split at hstep
      · obtain rfl := Option.some.inj hstep
        refine consistent_setReader h t (fun r hr => h.readers t r ?_) fun _ hr => Reader.noConfusion hr
        rw [hreader]
        simpa [Reader.records] using hr
      · obtain rfl := Option.some.inj hstep
        exact h
    · cases hstep
  | resolve t =>
    simp only [step] at hstep
    split at hstep
    · next record hreader =>
      have hheld : ∀ r ∈ [record], s.Known r := fun r hr => h.readers t r (by rw [hreader]; exact hr)
      split at hstep
      · obtain rfl := Option.some.inj hstep
        refine consistent_setReader (consistent_resolve h record) t hheld fun r hr => ?_
        obtain rfl := Reader.marked.inj hr
        exact Function.update_self ..
      · obtain rfl := Option.some.inj hstep
        refine consistent_setReader h t (fun r hr => hheld r ?_) fun _ hr => Reader.noConfusion hr
        simpa [Reader.records] using hr
    · cases hstep
  | storeDirty t =>
    simp only [step] at hstep
    split at hstep
    · next record hreader =>
      obtain rfl := Option.some.inj hstep
      refine consistent_setReader (consistent_storeDirty h hreader hok) t (fun r hr => ?_)
        fun _ hr => Reader.noConfusion hr
      have hsame : r = record := by simpa [Reader.records] using hr
      exact h.readers t r (by rw [hreader, hsame]; exact List.mem_singleton_self record)
    · cases hstep
  | release t =>
    simp only [step] at hstep
    split at hstep
    · obtain rfl := Option.some.inj hstep
      exact consistent_setReader h t (fun _ hr => absurd hr List.not_mem_nil) fun _ hr => Reader.noConfusion hr
    · obtain rfl := Option.some.inj hstep
      exact consistent_setReader h t (fun _ hr => absurd hr List.not_mem_nil) fun _ hr => Reader.noConfusion hr
    · cases hstep
  | publish desired =>
    simp only [step] at hstep
    split at hstep
    · cases hstep
    · next htaking =>
      obtain rfl := Option.some.inj hstep
      exact consistent_publish h (Option.not_isSome_iff_eq_none.mp htaking) hok
  | exchangeDirty =>
    simp only [step] at hstep
    split at hstep
    · cases hstep
    · obtain rfl := Option.some.inj hstep
      exact consistent_exchangeDirty h
  | scanRecords =>
    simp only [step] at hstep
    split at hstep
    · obtain rfl := Option.some.inj hstep
      exact consistent_scanRecords h
    · cases hstep

private theorem signalled_of_consistent (s : Store) (e : Event) (h : Consistent s) : Signalled s e := by
  cases e with
  | scanRecords =>
    intro dirtyGeneration htaking hcurrent
    obtain ⟨r, hr, hgeneration, hmark⟩ := h.taken dirtyGeneration htaking hcurrent
    have hpos := (h.records r hr).1
    simp only [Store.takeAnswer, Bool.and_eq_true, bne_iff_ne, List.any_eq_true, beq_iff_eq]
    exact ⟨by omega, r, hr, hgeneration, hmark⟩
  | readHandle | contains | checkCurrent | resolve | storeDirty | release | publish | exchangeDirty => trivial

/-- In a run that keeps a carrier of the signal while a noted record stays
current, every take answers true for the records noted before it. -/
theorem signals_arrive {es : List Event} (hok : Meets step KeepsCarrier {} es) : Meets step Signalled {} es := by
  have hstart : Consistent {} := by
    constructor <;> simp [Reader.records]
  rw [meets_iff_splits]
  rintro first e rest rfl t ht
  have hprefix := ((meets_append step KeepsCarrier {} first (e :: rest)).mp hok).1
  exact signalled_of_consistent t e (exec_invariant consistent_step hstart hprefix ht)

/-- One whole noteResolved call for an app. -/
def noteResolved (t : Nat) (appId : AppId) : List Event :=
  [.readHandle t, .contains t appId, .checkCurrent t, .resolve t, .storeDirty t, .release t]

/-- One app is published, noted and taken. -/
def notedRun : List Event := .publish [1] :: noteResolved 0 1 ++ [.exchangeDirty, .scanRecords]

theorem signal_arrives_once : Meets step Signalled {} notedRun := by
  apply signals_arrive
  apply Meets.step rfl
  · rintro ⟨r, hr, -⟩
    cases hr
  apply Meets.step rfl trivial
  apply Meets.step rfl trivial
  apply Meets.step rfl trivial
  apply Meets.step rfl trivial
  apply Meets.step rfl
  · rintro record - ⟨r, hr, -⟩
    cases hr
  apply Meets.step rfl trivial
  apply Meets.step rfl trivial
  exact Meets.step rfl trivial trivial

/-- App 1 is noted, then app 2 of a later publication, which the next
publication removes: the take finds the slot on a removed generation and answers
false, with app 1 still current. -/
theorem later_signal_hides_earlier :
    ∃ s, exec step {} (.publish [1] :: .publish [1, 2] :: noteResolved 0 1 ++ noteResolved 1 2 ++
        [.publish [1], .exchangeDirty]) = some s ∧
      s.taking = some 2 ∧ ⟨1, 1⟩ ∈ s.awaited ∧ ⟨1, 1⟩ ∈ s.records ∧ s.takeAnswer 2 = false :=
  ⟨_, rfl, rfl, by decide, by decide, rfl⟩

end SlsteamMoon.HotReloadState
