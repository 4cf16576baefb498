import SlsteamMoon.LuaImport.Calls
import SlsteamMoon.ManifestId.Coherence
import SlsteamMoon.ManifestId.Relations

/-! The importer of the pins in the scripts: after each script its relations replace
those of its app, and what nobody owns any more is retired. -/
namespace SlsteamMoon.ManifestId
open LuaImport

/-- No record is about depot zero. -/
theorem Disk.record_zero (disk : Disk) : disk.record 0 = none := by
  rw [record]
  split
  · rename_i n hfile
    exact absurd rfl (disk.named 0 n hfile).2
  · rfl

namespace Process

/-- The loops over one script: the depots of the calls, and whether an exception ended
them. Every write succeeds. -/
def savePins (p : Process) : List PinCall → Process × List DepotId × Bool
  | [] => (p, [], false)
  | call :: rest =>
    match stoul call.depot with
    | none => (p, [], true)
    | some d =>
      let (q, scriptDepots, threw) := (p.savePin d call.gid .complete).2.savePins rest
      (q, d :: scriptDepots, threw)

/-- The loop over the scripts; an exception leaves the function. -/
def importLuaScripts (p : Process) : List Script → Process × Bool
  | [] => (p, false)
  | s :: rest =>
    let (q, scriptDepots, threw) := p.savePins s.pinCalls
    if threw then (q, true)
    else (q.replaceScript s.appId scriptDepots fun _ => true).importLuaScripts rest

/-- The gid is in the catalogue and in the file of the depot. -/
structure Holds (p : Process) (d : DepotId) (gid : Gid) : Prop where
  loaded : p.loaded = true
  catalog : p.catalog d = some gid
  record : p.disk.record d = some gid

/-- A pin that a reader gets and the next process finds. -/
def Pinned (p : Process) (d : DepotId) (gid : Gid) : Prop :=
  (p.getPinnedGid d).1 = gid ∧ p.disk.record d = some gid

section
variable {p q : Process} {d e : DepotId} {gid gid' : Gid}

theorem Holds.pinned (h : p.Holds d gid) : p.Pinned d gid := by
  refine ⟨?_, h.record⟩
  rw [getPinnedGid, loadCatalogLocked, if_pos h.loaded]
  simp only [h.catalog, Option.getD_some]

private theorem load_of_loaded (h : p.loaded = true) : p.loadCatalogLocked = p := if_pos h

/-- A valid pin is held afterwards, and the other depots keep theirs. -/
theorem savePin_holds (p : Process) (hvalid : validPin d gid = true) :
    (p.savePin d gid .complete).2.Holds d gid ∧ ∀ e, e ≠ d →
      (p.savePin d gid .complete).2.disk.record e = p.disk.record e ∧
      (p.savePin d gid .complete).2.catalog e = p.catalog e := by
  rw [savePin, dif_pos hvalid]
  split_ifs with hsame
  · refine ⟨⟨rfl, Function.update_self _ _ _, ?_⟩, fun e he => ⟨rfl, Function.update_of_ne he _ _⟩⟩
    simp only [remember, Disk.record, hsame]
  · refine ⟨⟨rfl, Function.update_self _ _ _, ?_⟩, fun e he => ⟨?_, Function.update_of_ne he _ _⟩⟩
    · simp only [remember, Disk.record_put, if_true]
    · simp only [remember, Disk.record_put, if_neg he]

/-- Depot zero has no pin. -/
theorem savePin_zero (p : Process) (gid : Gid) : (p.savePin 0 gid .complete).2 = p := by
  rw [savePin, dif_neg (by simp [validPin])]

private theorem retireOne_zero (p : Process) : retireOne (fun _ => true) p 0 = p := if_pos (.inl rfl)

private theorem retireOne_eq (p : Process) (hd : d ≠ 0) :
    retireOne (fun _ => true) p d =
      { p with disk := p.disk.remove d, catalog := Function.update p.catalog d none } :=
  if_neg (by simpa using hd)

private theorem retireOne_self (p : Process) (hd : d ≠ 0) : (retireOne (fun _ => true) p d).disk.record d = none := by
  rw [retireOne_eq p hd, Disk.remove, Disk.record_clear, if_pos rfl]

private theorem retireOne_other (p : Process) (he : e ≠ d) :
    (retireOne (fun _ => true) p d).disk.record e = p.disk.record e ∧
      (retireOne (fun _ => true) p d).catalog e = p.catalog e := by
  by_cases hd : d = 0
  · rw [hd, retireOne_zero]
    exact ⟨rfl, rfl⟩
  · rw [retireOne_eq p hd]
    exact ⟨by rw [Disk.remove, Disk.record_clear, if_neg he], Function.update_of_ne he _ _⟩

private theorem loaded_retireOne (p : Process) (d : DepotId) : (retireOne (fun _ => true) p d).loaded = p.loaded := by
  rw [retireOne]
  split_ifs <;> rfl

private theorem record_retireOne (p : Process) (d e : DepotId) :
    (retireOne (fun _ => true) p d).disk.record e = p.disk.record e ∨
      (retireOne (fun _ => true) p d).disk.record e = none := by
  by_cases hd : d = 0
  · rw [hd, retireOne_zero]
    exact .inl rfl
  · by_cases he : e = d
    · subst he
      exact .inr (retireOne_self p hd)
    · exact .inl (retireOne_other p he).1

/-- Retired depots have no record, the others what they had. -/
theorem retireDepotsLocked_spec (p : Process) (ds : List DepotId) :
    (∀ e, e ≠ 0 → e ∈ ds → (p.retireDepotsLocked ds fun _ => true).disk.record e = none) ∧
      (∀ e, e ∉ ds → (p.retireDepotsLocked ds fun _ => true).disk.record e = p.disk.record e) ∧
      (∀ e gid, e ∉ ds → p.Holds e gid → (p.retireDepotsLocked ds fun _ => true).Holds e gid) := by
  have hfold : ∀ q : Process, (∀ e, e ≠ 0 → e ∈ ds ∨ q.disk.record e = none →
        (ds.foldl (retireOne fun _ => true) q).disk.record e = none) ∧
      (∀ e, e ∉ ds → (ds.foldl (retireOne fun _ => true) q).disk.record e = q.disk.record e ∧
        (ds.foldl (retireOne fun _ => true) q).catalog e = q.catalog e) ∧
      (ds.foldl (retireOne fun _ => true) q).loaded = q.loaded := by
    induction ds with
    | nil => exact fun q => ⟨fun e _ h => h.elim (fun hmem => absurd hmem List.not_mem_nil) id,
        fun _ _ => ⟨rfl, rfl⟩, rfl⟩
    | cons d ds ih =>
      intro q
      obtain ⟨hgone, hkept, hloaded⟩ := ih (retireOne (fun _ => true) q d)
      refine ⟨fun e he h => ?_, fun e he => ?_, hloaded.trans (loaded_retireOne q d)⟩
      · apply hgone e he
        obtain h | hnone := h
        · obtain rfl | h := List.mem_cons.mp h
          · exact .inr (retireOne_self q he)
          · exact .inl h
        · obtain hsame | hcleared := record_retireOne q d e
          · exact .inr (hsame.trans hnone)
          · exact .inr hcleared
      · obtain ⟨hne, hnotin⟩ := not_or.mp (mt List.mem_cons.mpr he)
        obtain ⟨hrecord, hcatalog⟩ := hkept e hnotin
        obtain ⟨hrecord', hcatalog'⟩ := retireOne_other q hne
        exact ⟨hrecord.trans hrecord', hcatalog.trans hcatalog'⟩
  obtain ⟨hgone, hkept, hloaded⟩ := hfold p.loadCatalogLocked
  refine ⟨fun e he hmem => hgone e he (.inl hmem), fun e he => ?_, fun e gid he h => ?_⟩
  · rw [retireDepotsLocked, (hkept e he).1, disk_load]
  · rw [load_of_loaded h.loaded] at hkept hloaded
    rw [retireDepotsLocked, load_of_loaded h.loaded]
    exact ⟨hloaded.trans h.loaded, (hkept e he).2.trans h.catalog, (hkept e he).1.trans h.record⟩

/-! One script. -/

/-- A call of the list names the depot. -/
def Named (calls : List PinCall) (d : DepotId) : Prop := ∃ call ∈ calls, call.Names d

/-- Every number of the calls is a depot id. -/
def Fits (calls : List PinCall) : Prop := ∀ call ∈ calls, numeral call.depot < 0x100000000

private theorem savePins_throws_iff (p : Process) (calls : List PinCall) :
    (p.savePins calls).2.2 = true ↔ ¬Fits calls := by
  induction calls generalizing p with
  | nil => simp [savePins, Fits]
  | cons call calls ih =>
    rw [savePins]
    cases hfits : stoul call.depot with
    | none =>
      have hover := stoul_eq_none_iff.mp hfits
      simp only [Fits, List.forall_mem_cons, not_and_or, true_iff]
      exact .inl (Nat.not_lt.mpr hover)
    | some d =>
      have hunder : numeral call.depot < 0x100000000 := stoul_eq_some_iff.mp hfits ▸ d.toNat_lt
      simp only [ih, Fits, List.forall_mem_cons, hunder, true_and]

private theorem index_savePins (p : Process) (calls : List PinCall) : (p.savePins calls).1.index = p.index := by
  induction calls generalizing p with
  | nil => rfl
  | cons call calls ih =>
    rw [savePins]
    cases stoul call.depot with
    | none => rfl
    | some d => exact (ih _).trans (index_savePin p d call.gid .complete)

/-- The depots of a script are those that its calls name. -/
theorem mem_scriptDepots (p : Process) {calls : List PinCall} (hfits : Fits calls) :
    d ∈ (p.savePins calls).2.1 ↔ Named calls d := by
  induction calls generalizing p with
  | nil => simp [savePins, Named]
  | cons call calls ih =>
    obtain ⟨hcall, hcalls⟩ := List.forall_mem_cons.mp hfits
    rw [savePins]
    cases hstoul : stoul call.depot with
    | none => exact absurd (stoul_eq_none_iff.mp hstoul) (Nat.not_le.mpr hcall)
    | some e =>
      have hhead : call.Names d ↔ d = e := by
        rw [PinCall.Names, ← stoul_eq_some_iff, hstoul, Option.some.injEq, eq_comm]
      simp only [List.mem_cons, ih _ hcalls, Named, exists_eq_or_imp, hhead]

/-- A named depot holds the gid of one of its calls, the others have what they had. -/
theorem savePins_holds (p : Process) {calls : List PinCall} (hfits : Fits calls)
    (hgids : ∀ call ∈ calls, call.gid ≠ [] ∧ call.gid.all isDigit = true) :
    (∀ d, d ≠ 0 → Named calls d → ∃ call ∈ calls, call.Names d ∧ (p.savePins calls).1.Holds d call.gid) ∧
      (∀ d, d = 0 ∨ ¬Named calls d → (p.savePins calls).1.disk.record d = p.disk.record d ∧
        ∀ gid, p.Holds d gid → (p.savePins calls).1.Holds d gid) := by
  induction calls generalizing p with
  | nil => exact ⟨fun d _ ⟨call, hcall, _⟩ => absurd hcall List.not_mem_nil, fun d _ => ⟨rfl, fun _ h => h⟩⟩
  | cons call calls ih =>
    obtain ⟨hcall, hcalls⟩ := List.forall_mem_cons.mp hfits
    obtain ⟨hgid, hgids⟩ := List.forall_mem_cons.mp hgids
    rw [savePins]
    cases hstoul : stoul call.depot with
    | none => exact absurd (stoul_eq_none_iff.mp hstoul) (Nat.not_le.mpr hcall)
    | some e =>
      have hhead : ∀ d, call.Names d ↔ d = e := fun d => by
        rw [PinCall.Names, ← stoul_eq_some_iff, hstoul, Option.some.injEq, eq_comm]
      obtain ⟨hheld, hkept⟩ := ih (p.savePin e call.gid .complete).2 hcalls hgids
      have hother : ∀ d, d ≠ e ∨ d = 0 → (p.savePin e call.gid .complete).2.disk.record d = p.disk.record d ∧
          ∀ gid, p.Holds d gid → (p.savePin e call.gid .complete).2.Holds d gid := by
        intro d hd
        by_cases he : e = 0
        · rw [he, savePin_zero]
          exact ⟨rfl, fun _ h => h⟩
        · have hne : d ≠ e := hd.elim id fun hzero heq => he (heq ▸ hzero)
          have hvalid : validPin e call.gid = true := by
            simp only [validPin, Bool.and_eq_true, decide_eq_true_eq, ne_eq]
            exact ⟨⟨he, hgid.1⟩, hgid.2⟩
          obtain ⟨hself, hrest⟩ := p.savePin_holds hvalid
          exact ⟨(hrest d hne).1, fun gid h =>
            ⟨hself.loaded, (hrest d hne).2.trans h.catalog, (hrest d hne).1.trans h.record⟩⟩
      refine ⟨fun d hd hnamed => ?_, fun d hd => ?_⟩
      · by_cases hlater : Named calls d
        · obtain ⟨later, hmem, hnames, hholds⟩ := hheld d hd hlater
          exact ⟨later, List.mem_cons_of_mem _ hmem, hnames, hholds⟩
        · obtain ⟨named, hmem, hnames⟩ := hnamed
          obtain rfl | hmem := List.mem_cons.mp hmem
          · have he : d = e := (hhead d).mp hnames
            subst he
            have hvalid : validPin d named.gid = true := by
              simp only [validPin, Bool.and_eq_true, decide_eq_true_eq, ne_eq]
              exact ⟨⟨hd, hgid.1⟩, hgid.2⟩
            exact ⟨named, List.mem_cons_self, hnames, (hkept d (.inr hlater)).2 _ (p.savePin_holds hvalid).1⟩
          · exact absurd ⟨named, hmem, hnames⟩ hlater
      · have hlater : d = 0 ∨ ¬Named calls d :=
          hd.imp_right fun hnot ⟨named, hmem, hnames⟩ => hnot ⟨named, List.mem_cons_of_mem _ hmem, hnames⟩
        have hne : d ≠ e ∨ d = 0 := by
          obtain hzero | hnot := hd
          · exact .inr hzero
          · exact .inl fun he => hnot ⟨call, List.mem_cons_self, (hhead d).mpr he⟩
        obtain ⟨hrecord, hholds⟩ := hother d hne
        exact ⟨(hkept d hlater).1.trans hrecord, fun gid h => (hkept d hlater).2 gid (hholds gid h)⟩

end
/-- One turn of the loop over the scripts, when nothing throws. -/
def importScript (p : Process) (s : Script) : Process :=
  (p.savePins s.pinCalls).1.replaceScript s.appId (p.savePins s.pinCalls).2.1 fun _ => true

/-- A call of the scripts names the depot. -/
def ScriptsName (scripts : List Script) (d : DepotId) : Prop := ∃ s ∈ scripts, Named s.pinCalls d

/-- The app owns the depot once the scripts are read: its last script names it, or no
script is its own and it owned it before. -/
def OwnsAfter (index : AppDepotIndex) (scripts : List Script) (a : AppId) (d : DepotId) : Prop :=
  match scripts.reverse.find? fun s => s.appId = a with
  | some s => Named s.pinCalls d
  | none => index.Owns a d

/-- What holds after some of the scripts: a named depot holds the gid of one of its calls
as long as it has an owner, and has no record without one. -/
structure Imported (index : AppDepotIndex) (before : Process) (done : List Script) (p : Process) : Prop where
  related : p.index.Related
  owns : ∀ a d, d ≠ 0 → (p.index.Owns a d ↔ OwnsAfter index done a d)
  held : ∀ d, d ≠ 0 → ScriptsName done d → (∃ a, p.index.Owns a d) →
    ∃ s ∈ done, ∃ call ∈ s.pinCalls, call.Names d ∧ p.Holds d call.gid
  retired : ∀ d, d ≠ 0 → ScriptsName done d → (∀ a, ¬p.index.Owns a d) → p.disk.record d = none
  others : ∀ d, d = 0 ∨ ¬ScriptsName done d →
    p.disk.record d = before.disk.record d ∨ p.disk.record d = none

section
variable {index : AppDepotIndex} {before p : Process} {done : List Script} {s : Script} {d : DepotId} {a : AppId}

private theorem scriptsName_append : ScriptsName (done ++ [s]) d ↔ ScriptsName done d ∨ Named s.pinCalls d := by
  simp only [ScriptsName, List.mem_append, List.mem_singleton, or_and_right, exists_or, exists_eq_left]

private theorem ownsAfter_append :
    OwnsAfter index (done ++ [s]) a d ↔ if a = s.appId then Named s.pinCalls d else OwnsAfter index done a d := by
  rw [OwnsAfter, List.reverse_append, List.reverse_singleton, List.singleton_append, List.find?_cons]
  by_cases ha : a = s.appId
  · simp only [ha, decide_true, if_true]
  · simp only [ha, Ne.symm ha, decide_false, if_false, OwnsAfter]

private theorem start_imported (hrelated : before.index.Related) : Imported before.index before [] before where
  related := hrelated
  owns _ _ _ := Iff.rfl
  held _ _ h := by simp [ScriptsName] at h
  retired _ _ h := by simp [ScriptsName] at h
  others _ _ := .inl rfl

/-- One script more. Its own depots are saved, then owned, so they are not released. A
depot named before loses its record only with its last owner. -/
theorem Imported.importScript (h : Imported index before done p) (hfits : Fits s.pinCalls) :
    Imported index before (done ++ [s]) (p.importScript s) := by
  obtain ⟨hheld, hkept⟩ := p.savePins_holds hfits fun call hcall => gid_digits hcall
  have hindex := p.index_savePins s.pinCalls
  have hdesired : ∀ d, d ≠ 0 → (d ∈ AppDepotIndex.desiredSet (p.savePins s.pinCalls).2.1 ↔ Named s.pinCalls d) := by
    intro d hd
    rw [AppDepotIndex.mem_desiredSet, mem_scriptDepots p hfits]
    exact and_iff_left hd
  have hindex' : (p.importScript s).index = (p.index.replaceApp s.appId (p.savePins s.pinCalls).2.1).2 := by
    rw [Process.importScript, index_replaceScript, hindex]
  have howns : ∀ b d, d ≠ 0 →
      ((p.importScript s).index.Owns b d ↔ if b = s.appId then Named s.pinCalls d else p.index.Owns b d) := by
    intro b d hd
    rw [hindex', h.related.owns_replaceApp s.managed]
    split_ifs
    · exact hdesired d hd
    · rfl
  have hreleased : ∀ d, d ≠ 0 → (d ∈ (p.index.replaceApp s.appId (p.savePins s.pinCalls).2.1).1 ↔
      p.index.Owns s.appId d ∧ ¬Named s.pinCalls d ∧ ∀ b, p.index.Owns b d → b = s.appId) := by
    intro d hd
    rw [h.related.mem_released s.managed, hdesired d hd]
  obtain ⟨hgone, hrecord, hholds⟩ :=
    ({ (p.savePins s.pinCalls).1 with
      index := ((p.savePins s.pinCalls).1.index.replaceApp s.appId (p.savePins s.pinCalls).2.1).2 } :
      Process).retireDepotsLocked_spec ((p.savePins s.pinCalls).1.index.replaceApp s.appId (p.savePins s.pinCalls).2.1).1
  rw [hindex] at hgone hrecord hholds
  have hafter : (p.importScript s) = Process.retireDepotsLocked
      { (p.savePins s.pinCalls).1 with index := (p.index.replaceApp s.appId (p.savePins s.pinCalls).2.1).2 }
      (p.index.replaceApp s.appId (p.savePins s.pinCalls).2.1).1 fun _ => true := by
    rw [Process.importScript, replaceScript, hindex]
  rw [← hafter] at hgone hrecord hholds
  -- a depot of the script itself stays
  have hown : ∀ d, d ≠ 0 → Named s.pinCalls d →
      ∃ call ∈ s.pinCalls, call.Names d ∧ (p.importScript s).Holds d call.gid := by
    intro d hd hnamed
    obtain ⟨call, hcall, hnames, hhold⟩ := hheld d hd hnamed
    refine ⟨call, hcall, hnames, hholds d call.gid ?_ ⟨hhold.loaded, hhold.catalog, hhold.record⟩⟩
    rw [hreleased d hd]
    exact fun hrel => hrel.2.1 hnamed
  refine ⟨?_, fun a d hd => ?_, fun d hd hname howned => ?_, fun d hd hname hnone => ?_, fun d hd => ?_⟩
  · rw [hindex']
    exact h.related.replaceApp s.appId _
  · rw [howns a d hd, ownsAfter_append]
    split_ifs
    · rfl
    · exact h.owns a d hd
  · by_cases hnamed : Named s.pinCalls d
    · obtain ⟨call, hcall, hnames, hhold⟩ := hown d hd hnamed
      exact ⟨s, by simp, call, hcall, hnames, hhold⟩
    · obtain ⟨b, hb⟩ := howned
      rw [howns b d hd] at hb
      split_ifs at hb with happ
      · exact absurd hb hnamed
      · obtain ⟨s', hs', call, hcall, hnames, hhold⟩ :=
          h.held d hd ((scriptsName_append.mp hname).resolve_right hnamed) ⟨b, hb⟩
        have hnot : d ∉ (p.index.replaceApp s.appId (p.savePins s.pinCalls).2.1).1 := by
          rw [hreleased d hd]
          exact fun hrel => happ (hrel.2.2 b hb)
        have hsaved := (hkept d (.inr hnamed)).2 _ hhold
        exact ⟨s', by simp [hs'], call, hcall, hnames,
          hholds d call.gid hnot ⟨hsaved.loaded, hsaved.catalog, hsaved.record⟩⟩
  · have hnamed : ¬Named s.pinCalls d := by
      intro hnamed
      exact hnone s.appId ((howns s.appId d hd).mpr (by rwa [if_pos rfl]))
    by_cases hrel : d ∈ (p.index.replaceApp s.appId (p.savePins s.pinCalls).2.1).1
    · exact hgone d hd hrel
    · have hunowned : ∀ b, ¬p.index.Owns b d := by
        intro b hb
        have hall : ∀ c, p.index.Owns c d → c = s.appId := by
          intro c hc
          by_contra hne
          exact hnone c ((howns c d hd).mpr (by rwa [if_neg hne]))
        exact hrel ((hreleased d hd).mpr ⟨hall b hb ▸ hb, hnamed, hall⟩)
      rw [hrecord d hrel]
      exact (hkept d (.inr hnamed)).1.trans
        (h.retired d hd ((scriptsName_append.mp hname).resolve_right hnamed) hunowned)
  · by_cases hzero : d = 0
    · rw [hzero]
      exact .inr (Disk.record_zero _)
    · have hnot := hd.resolve_left hzero
      rw [scriptsName_append, not_or] at hnot
      by_cases hrel : d ∈ (p.index.replaceApp s.appId (p.savePins s.pinCalls).2.1).1
      · exact .inr (hgone d hzero hrel)
      · rw [hrecord d hrel]
        have hsame := (hkept d (.inr hnot.2)).1
        exact (h.others d (.inr hnot.1)).imp hsame.trans hsame.trans

private theorem importLuaScripts_throws_iff (p : Process) (scripts : List Script) :
    (p.importLuaScripts scripts).2 = true ↔ ¬∀ s ∈ scripts, Fits s.pinCalls := by
  induction scripts generalizing p with
  | nil => simp [importLuaScripts]
  | cons s scripts ih =>
    rw [importLuaScripts]
    have hthrows := p.savePins_throws_iff s.pinCalls
    dsimp only
    split_ifs with hthrew
    · simp only [List.forall_mem_cons, not_and_or, true_iff]
      exact .inl (hthrows.mp hthrew)
    · rw [ih, List.forall_mem_cons, not_and_or]
      exact (or_iff_right (fun hnot => hthrew (hthrows.mpr hnot))).symm

/-- When nothing throws, the scripts are read one after the other. -/
theorem importLuaScripts_imported {scripts : List Script} (h : Imported index before done p)
    (hfits : ∀ s ∈ scripts, Fits s.pinCalls) :
    Imported index before (done ++ scripts) (p.importLuaScripts scripts).1 := by
  induction scripts generalizing done p with
  | nil => simpa [importLuaScripts] using h
  | cons s scripts ih =>
    obtain ⟨hs, hrest⟩ := List.forall_mem_cons.mp hfits
    have hquiet : (p.savePins s.pinCalls).2.2 ≠ true := fun hthrew => (p.savePins_throws_iff _).mp hthrew hs
    have hlast := ih (h.importScript hs) hrest
    rw [importLuaScripts]
    dsimp only
    rw [if_neg hquiet]
    rwa [List.append_assoc, List.singleton_append] at hlast

end

/-- No exception leaves the importer; every call that names a depot has left it the gid of
one of the calls naming it, and no other depot has got a pin. -/
structure PinsImported (scripts : List Script) (before after : Process) (threw : Bool) : Prop where
  returns : threw = false
  stored : ∀ s ∈ scripts, ∀ call ∈ s.pinCalls, ∀ d, d ≠ 0 → call.Names d →
    ∃ s' ∈ scripts, ∃ call' ∈ s'.pinCalls, call'.Names d ∧ after.Pinned d call'.gid
  only : ∀ d, d = 0 ∨ ¬ScriptsName scripts d →
    after.disk.record d = before.disk.record d ∨ after.disk.record d = none

/-- Every number fits, and no depot of a script loses its last owner to a later script
of the same app. -/
structure PinsOwned (index : AppDepotIndex) (scripts : List Script) : Prop where
  fits : ∀ s ∈ scripts, Fits s.pinCalls
  owned : ∀ d, d ≠ 0 → ScriptsName scripts d → ∃ a, OwnsAfter index scripts a d

theorem importLuaScripts_imports_iff {before : Process} (hrelated : before.index.Related) (scripts : List Script) :
    PinsImported scripts before (before.importLuaScripts scripts).1 (before.importLuaScripts scripts).2 ↔
      PinsOwned before.index scripts := by
  have himported : (∀ s ∈ scripts, Fits s.pinCalls) →
      Imported before.index before scripts (before.importLuaScripts scripts).1 := fun hfits =>
    importLuaScripts_imported (start_imported hrelated) hfits
  constructor
  · intro h
    have hfits : ∀ s ∈ scripts, Fits s.pinCalls := by
      by_contra hnot
      exact Bool.noConfusion (h.returns.symm.trans ((importLuaScripts_throws_iff before scripts).mpr hnot))
    refine ⟨hfits, fun d hd hname => ?_⟩
    by_contra hnone
    have hretired := (himported hfits).retired d hd hname fun a ha =>
      hnone ⟨a, ((himported hfits).owns a d hd).mp ha⟩
    obtain ⟨s, hs, call, hcall, hnames⟩ := hname
    obtain ⟨s', -, call', -, -, -, hrecord⟩ := h.stored s hs call hcall d hd hnames
    cases hretired.symm.trans hrecord
  · intro h
    refine ⟨?_, fun s hs call hcall d hd hnames => ?_, (himported h.fits).others⟩
    · by_contra hthrew
      exact (importLuaScripts_throws_iff before scripts).mp (by simpa using hthrew) h.fits
    · have hname : ScriptsName scripts d := ⟨s, hs, call, hcall, hnames⟩
      obtain ⟨a, ha⟩ := h.owned d hd hname
      obtain ⟨s', hs', call', hcall', hnames', hhold⟩ :=
        (himported h.fits).held d hd hname ⟨a, ((himported h.fits).owns a d hd).mpr ha⟩
      exact ⟨s', hs', call', hcall', hnames', hhold.pinned⟩

end Process
end SlsteamMoon.ManifestId
