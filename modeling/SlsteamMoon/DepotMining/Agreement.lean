import SlsteamMoon.DepotMining.Depths

/-! When the pairs that the scanner returns are the pairs that the tree lists. -/
namespace SlsteamMoon.DepotMining
open KeyValues ProvisionCache TextSearch

namespace Scan

/-- Each depot has one entry, and the current depot has one. -/
structure Known (s : Scan) : Prop where
  nodup : (s.gids.map DepotGid.depotId).Nodup
  current : ∀ depotId ∈ s.current, depotId ∈ s.gids.map DepotGid.depotId

/-- What a string among the depots leaves. -/
structure Armed (s : Scan) (string : Bytes) (t : Scan) : Prop where
  depth : t.depth = s.depth
  current : t.current = armedBy s.current string
  known : t.Known
  gids : ∀ d : DepotGid, d.gid ≠ 0 → (d ∈ t.gids ↔ d ∈ s.gids)

section
variable {s t : Scan}

private theorem depotToken_escaped (s : Scan) (string : Bytes) :
    s.depotToken (escaped string) = s.depotToken string := by
  obtain heq | ⟨hs, htoken⟩ := escaped_digits string
  · rw [heq]
  · simp [depotToken, hs, htoken]

private theorem gids_entryFor (s : Scan) (depotId : UInt32) :
    ({ s with out := entryFor s.out depotId } : Scan).gids =
      if depotId ∈ s.gids.map DepotGid.depotId then s.gids else s.gids ++ [⟨depotId, 0⟩] := by
  have hids : s.gids.map DepotGid.depotId = s.out.map DepotInfo.depotId := by
    rw [gids, List.map_map]
    rfl
  rw [hids, gids, gids, entryFor]
  split_ifs
  · rfl
  · rw [List.map_append]
    rfl

/-- A new entry has no manifest yet. -/
theorem depotToken_armed (h : s.Known) (string : Bytes) : s.Armed string (s.depotToken string) := by
  rw [depotToken]
  split_ifs with hdigits
  · cases hnumber : stoul string with
    | none =>
      exact ⟨rfl, by rw [armedBy, if_pos hdigits, hnumber], ⟨h.nodup, fun _ hmem => (nomatch hmem)⟩, fun _ _ => Iff.rfl⟩
    | some depotId =>
      have hcurrent : some depotId = armedBy s.current string := by rw [armedBy, if_pos hdigits, hnumber]
      have hgids : ({ s with current := some depotId, out := entryFor s.out depotId } : Scan).gids =
          if depotId ∈ s.gids.map DepotGid.depotId then s.gids else s.gids ++ [⟨depotId, 0⟩] := s.gids_entryFor depotId
      split_ifs at hgids with hmem
      · refine ⟨rfl, hcurrent, ⟨by rw [hgids]; exact h.nodup, fun d hd => ?_⟩, fun d _ => by rw [hgids]⟩
        cases hd
        rw [hgids]
        exact hmem
      · refine ⟨rfl, hcurrent, ⟨?_, fun d hd => ?_⟩, fun d hd => ?_⟩
        · rw [hgids, List.map_append, List.nodup_append]
          refine ⟨h.nodup, by simp, fun a ha b hb heq => hmem ?_⟩
          rw [List.map_singleton, List.mem_singleton] at hb
          rwa [heq, hb] at ha
        · cases hd
          rw [hgids, List.map_append]
          exact List.mem_append_right _ (List.mem_singleton_self _)
        · rw [hgids, List.mem_append, List.mem_singleton, or_iff_left]
          rintro rfl
          exact hd rfl
  · exact ⟨rfl, by rw [armedBy, if_neg hdigits], h, fun _ _ => Iff.rfl⟩

private theorem ids_giveGid (current : Option UInt32) (g : Option UInt64) (gids : List DepotGid) :
    (giveGid current g gids).map DepotGid.depotId = gids.map DepotGid.depotId := by
  cases g with
  | none => rfl
  | some gid =>
    rw [giveGid, List.map_map]
    refine List.map_congr_left fun d _ => ?_
    dsimp only [Function.comp_apply]
    split_ifs <;> rfl

private theorem mem_giveGid {depotId : UInt32} {gid : UInt64} {gids : List DepotGid}
    (hknown : depotId ∈ gids.map DepotGid.depotId) (d : DepotGid) :
    d ∈ giveGid (some depotId) (some gid) gids ↔ d = ⟨depotId, gid⟩ ∨ d.depotId ≠ depotId ∧ d ∈ gids := by
  rw [giveGid, List.mem_map]
  constructor
  · rintro ⟨e, he, rfl⟩
    split_ifs with hid
    · exact .inl (by rw [Option.some.inj hid])
    · exact .inr ⟨fun heq => hid (congrArg some heq.symm), he⟩
  · rintro (rfl | ⟨hne, hd⟩)
    · obtain ⟨e, he, rfl⟩ := List.mem_map.mp hknown
      exact ⟨e, he, if_pos rfl⟩
    · exact ⟨d, hd, if_neg fun heq => hne (Option.some.inj heq).symm⟩

private theorem reaches_depotString (hdepth : s.depth = 1) {string : Bytes} (hquote : quote ∉ string) :
    s.Reaches (emitEscaped string) (s.depotToken string) := by
  refine reaches_string (by omega) hquote fun after => ?_
  rw [onToken, if_pos hdepth, depotToken_escaped]

/-- The pairs of the entries after a tree of depots: its own, and those it says nothing of. -/
structure Mined (s : Scan) (tree : Pairs) (t : Scan) : Prop where
  depth : t.depth = 1
  known : t.Known
  gids : ∀ d : DepotGid, d.gid ≠ 0 →
    (d ∈ t.gids ↔ d ∈ depotGids tree ∨ d ∈ s.gids ∧ ∀ e ∈ depotGids tree, e.depotId ≠ d.depotId)

/-- One depot's map and then the rest of the tree. -/
theorem Mined.depot {key : Bytes} {depot rest : Pairs} {u v : Scan} (harmed : s.Armed key u)
    (hgids : v.gids = giveGid u.current (publicGid depot) u.gids)
    (hstale : depotNumber key = none → armedBy s.current key ≠ none → publicGid depot = none)
    (hagrees : ∀ d ∈ depotGids (.node key depot .nil), d.gid ≠ 0 → ∀ later ∈ depotGids rest,
      later.depotId = d.depotId → later.gid = d.gid)
    (hrest : v.Mined rest t) : s.Mined (.node key depot rest) t := by
  refine ⟨hrest.depth, hrest.known, fun d hd => ?_⟩
  rw [hrest.gids d hd, ← harmed.gids d hd, hgids, harmed.current]
  cases hnumber : depotNumber key with
  | none =>
    -- A depot that a scalar has left behind gets nothing from this map.
    have hnothing : giveGid (armedBy s.current key) (publicGid depot) u.gids = u.gids := by
      cases harm : armedBy s.current key with
      | none => cases publicGid depot <;> simp [giveGid]
      | some left => rw [hstale hnumber (by rw [harm]; exact Option.some_ne_none left), giveGid]
    rw [hnothing, depotGids, hnumber]
  | some depotId =>
    have harm : armedBy s.current key = some depotId := by
      rw [depotNumber] at hnumber
      split_ifs at hnumber with hdigits
      rw [armedBy, if_pos hdigits, hnumber]
    rw [harm, depotGids, hnumber]
    cases hgid : publicGid depot with
    | none => rfl
    | some gid =>
      have hhas : depotId ∈ u.gids.map DepotGid.depotId := harmed.known.current depotId (harmed.current.trans harm)
      dsimp only
      rw [mem_giveGid hhas, List.mem_cons, List.forall_mem_cons]
      constructor
      · rintro (hlater | ⟨rfl | ⟨hne, hmem⟩, hnone⟩)
        · exact .inl (.inr hlater)
        · exact .inl (.inl rfl)
        · exact .inr ⟨hmem, hne.symm, hnone⟩
      · rintro ((rfl | hlater) | ⟨hmem, hne, hnone⟩)
        · by_cases hagain : ∃ e ∈ depotGids rest, e.depotId = depotId
          · -- The last map of the number decides, and it says the same.
            obtain ⟨e, he, rfl⟩ := hagain
            have hown : (⟨e.depotId, gid⟩ : DepotGid) ∈ depotGids (.node key depot .nil) := by
              rw [depotGids, hnumber, hgid]
              exact List.mem_singleton_self _
            have hsame : e.gid = gid := hagrees ⟨e.depotId, gid⟩ hown hd e he rfl
            exact .inl (by rw [← hsame]; exact he)
          · exact .inr ⟨.inl rfl, fun e he heq => hagain ⟨e, he, heq⟩⟩
        · exact .inl hlater
        · exact .inr ⟨.inr ⟨hne.symm, hmem⟩, hnone⟩

/-- The induction over the entries of `depots`. -/
theorem depots_reaches (hdepth : s.depth = 1) (h : s.Known) {tree : Pairs} (hquotes : QuoteFree tree)
    (hdistinct : Distinct tree) (horderly : Orderly s.current tree) (depth : Nat) :
    ∃ t, s.Reaches (emitPairs depth tree) t ∧ s.Mined tree t := by
  induction tree generalizing s with
  | nil => exact ⟨s, .refl s, hdepth, h, fun d _ => by simp [depotGids]⟩
  | leaf key value rest ih =>
    have hkey := depotToken_armed h key
    have hvalue := depotToken_armed hkey.known value
    have hdepthKey : (s.depotToken key).depth = 1 := hkey.depth.trans hdepth
    obtain ⟨t, hrest, hmined⟩ := ih (hvalue.depth.trans hdepthKey) hvalue.known hquotes.2.2 hdistinct.2
      (by rw [hvalue.current, hkey.current]; exact horderly)
    refine ⟨t, ?_, hmined.depth, hmined.known, fun d hd => ?_⟩
    · rw [emitPairs_leaf]
      exact (reaches_leafText depth (reaches_depotString hdepth hquotes.1)
        (reaches_depotString hdepthKey hquotes.2.1)).append hrest
    · rw [hmined.gids d hd, hvalue.gids d hd, hkey.gids d hd]
      rfl
  | node key children rest _ ih =>
    have hkey := depotToken_armed h key
    have hdepthKey : (s.depotToken key).depth = 1 := hkey.depth.trans hdepth
    obtain ⟨hnames, hstale, hagrees, horderlyRest⟩ := horderly
    have hopen := reaches_openText depth (reaches_depotString hdepth hquotes.1) (by omega)
    obtain ⟨v, hchildren, hgiven⟩ := depot_reaches (s := (s.depotToken key).openBrace)
      (congrArg Nat.succ hdepthKey) hquotes.2.1 hdistinct.2.1
      (fun hcurrent => hnames (by rw [← hkey.current]; exact hcurrent)) (depth + 1)
    have hdepthV : v.depth = 2 := hgiven.depth.trans (congrArg Nat.succ hdepthKey)
    have hclose := reaches_closeText (s := v) depth (by omega)
    have hcurrent : v.closeBrace.current = none := by
      rw [closeBrace]
      exact if_pos (by rw [hdepthV])
    have hids : v.closeBrace.gids.map DepotGid.depotId = (s.depotToken key).gids.map DepotGid.depotId := by
      have hgids : v.closeBrace.gids = _ := hgiven.gids
      rw [hgids]
      exact ids_giveGid _ _ _
    have hknown : v.closeBrace.Known :=
      ⟨by rw [hids]; exact hkey.known.nodup, fun d hd => by rw [hcurrent] at hd; cases hd⟩
    obtain ⟨t, hrest, hmined⟩ := ih (s := v.closeBrace) (by rw [closeBrace, hdepthV]) hknown hquotes.2.2
      hdistinct.2.2 (by rw [hcurrent]; exact horderlyRest)
    refine ⟨t, ?_, Mined.depot (v := v.closeBrace) hkey hgiven.gids hstale hagrees hmined⟩
    rw [emitPairs_node]
    exact hopen.append (hchildren.append (hclose.append hrest))

end
end Scan

/-- The entries of the walk over the text of a map of depots. -/
theorem walk_depots {depots : Pairs} (hquotes : QuoteFree depots) (hdistinct : Distinct depots)
    (horderly : Orderly none depots) (more : Bytes) :
    ∃ t : Scan, Scan.walk 0 {} (newline :: (emitPairs 2 depots ++ (closeText 1 ++ more))) = t.out ∧
      ({} : Scan).Mined depots t := by
  obtain ⟨t, hreaches, hmined⟩ := Scan.depots_reaches (s := {}) rfl ⟨List.nodup_nil, fun _ h => (nomatch h)⟩ hquotes
    hdistinct horderly 2
  refine ⟨t, ?_, hmined⟩
  have hnewline := Scan.reaches_blank {} [newline] (by decide) (emitPairs 2 depots ++ (closeText 1 ++ more))
  have hclose := Scan.reaches_closeText (s := t) 1 (by rw [hmined.depth]; decide) more
  have hdone : t.closeBrace.depth = 0 := by rw [Scan.closeBrace, hmined.depth]
  calc Scan.walk 0 {} (newline :: (emitPairs 2 depots ++ (closeText 1 ++ more)))
      = Scan.walk 0 {} (emitPairs 2 depots ++ (closeText 1 ++ more)) := hnewline
    _ = Scan.walk 0 t (closeText 1 ++ more) := hreaches _
    _ = Scan.walk 0 t.closeBrace more := hclose
    _ = t.out := Scan.walk_closed hdone more

/-- The pairs with a manifest are the pairs that the scanner returns, each depot once. -/
structure Agrees (tree : Pairs) (mined : List DepotGid) : Prop where
  once : (mined.map DepotGid.depotId).Nodup
  pairs : ∀ d, d ∈ mined ↔ Lists tree d

/-- A map of one scalar. -/
def oneScalar (key value : String) : Entries := .cons (utf8 key) (.scalar (utf8 value)) .nil

/-- A depot with a system and two branches. -/
def depotEntries : Entries :=
  .cons config (.map (oneScalar "oslist" "linux"))
    (.cons manifests (.map (.cons publicBranch (.map (oneScalar "gid" "7"))
      (.cons (utf8 "beta") (.map (oneScalar "gid" "8")) .nil))) .nil)

/-- A name with quotes before the depots, and a scalar and a map of no depot among them. -/
def oneDepot : Document where
  body := .cons (utf8 "common") (.map (oneScalar "name" "the \"depots\" of x"))
    (.cons depotsName (.map (.cons (utf8 "100") (.map depotEntries)
      (.cons (utf8 "baselanguages") (.scalar (utf8 "english"))
        (.cons (utf8 "branches") (.map (.cons publicBranch (.map (oneScalar "buildid" "9")) .nil)) .nil)))) .nil)
  proper := by
    simp only [oneScalar, depotEntries, Entries.Proper, Entries.Lacks, Node.Proper]
    and_intros <;> decide +kernel

/-- A map under the key `depots` that is not the one of the appinfo stands before it. -/
def twoDepots : Document where
  body := .cons (utf8 "extended") (.map (.cons depotsName (.map .nil) .nil))
    (.cons depotsName (.map (.cons (utf8 "100") (.map depotEntries) .nil)) .nil)
  proper := by
    simp only [oneScalar, depotEntries, Entries.Proper, Entries.Lacks, Node.Proper]
    and_intros <;> decide +kernel

/-- For a minable tree the scanner returns what the tree lists; a tree of maps has no
sequence, so none in another. -/
theorem extractDepotsAndGids_agrees (d : Document) (hmaps : d.body.flat = true) (h : Minable d.body.pairs) :
    Agrees d.body.pairs (extractDepotsAndGids (renderAppinfo d.body)) := by
  have hwritten : d.body.written = d.body.pairs := (d.body.written_eq_iff).mpr hmaps
  have hdistinct := d.body.distinct_written d.proper
  rw [← hwritten] at h ⊢
  obtain ⟨hnone, hnodepots⟩ | ⟨depots, front, more, htext, hfind, hquotes, horderly⟩ := walked_renderAppinfo h
  · have hempty : extractDepotsAndGids (renderAppinfo d.body) = [] := by
      rw [extractDepotsAndGids, parseDepots, hnone]
      rfl
    rw [hempty]
    refine ⟨List.nodup_nil, fun pair => iff_of_false List.not_mem_nil ?_⟩
    rintro ⟨depots, hfind, -⟩
    exact hnodepots depots hfind
  · obtain ⟨t, hwalk, hmined⟩ := walk_depots hquotes (hdistinct.of_find hfind) horderly more
    have hextract : extractDepotsAndGids (renderAppinfo d.body) = t.gids.filter fun pair => pair.gid ≠ 0 := by
      rw [extractDepotsAndGids, parseDepots, htext]
      dsimp only
      rw [hwalk, Scan.gids, List.filter_map]
      rfl
    rw [hextract]
    refine ⟨hmined.known.nodup.sublist (List.filter_sublist.map _), fun pair => ?_⟩
    rw [List.mem_filter, decide_eq_true_iff]
    constructor
    · rintro ⟨hmem, hgid⟩
      obtain hlisted | ⟨hstart, -⟩ := (hmined.gids pair hgid).mp hmem
      · exact ⟨depots, hfind, hlisted, hgid⟩
      · exact (List.not_mem_nil hstart).elim
    · rintro ⟨others, hothers, hlisted, hgid⟩
      cases hfind.symm.trans hothers
      exact ⟨(hmined.gids pair hgid).mpr (.inl hlisted), hgid⟩

theorem oneDepot_agrees : extractDepotsAndGids (renderAppinfo oneDepot.body) = [⟨100, 7⟩] ∧
    Agrees oneDepot.body.pairs (extractDepotsAndGids (renderAppinfo oneDepot.body)) :=
  ⟨by decide +kernel, extractDepotsAndGids_agrees oneDepot (by decide +kernel) (by decide +kernel)⟩

/-- The scanner mines the empty map and returns nothing. -/
theorem twoDepots_missed : ¬∀ d : Document, d.body.flat = true →
    Agrees d.body.pairs (extractDepotsAndGids (renderAppinfo d.body)) := by
  intro hclaim
  have hnone : extractDepotsAndGids (renderAppinfo twoDepots.body) = [] := by decide +kernel
  have hagrees := hclaim twoDepots (by decide +kernel)
  rw [hnone] at hagrees
  have hlists : Lists twoDepots.body.pairs ⟨100, 7⟩ :=
    ⟨.node (utf8 "100") depotEntries.pairs .nil, by decide +kernel, by decide +kernel, by decide⟩
  exact List.not_mem_nil ((hagrees.pairs ⟨100, 7⟩).mpr hlists)

end SlsteamMoon.DepotMining
