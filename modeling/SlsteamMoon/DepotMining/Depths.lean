import SlsteamMoon.DepotMining.FirstMatch
import SlsteamMoon.ProvisionCache.RenderMeaning

/-! What the walk makes of the maps at each depth, from the innermost outwards. -/
namespace SlsteamMoon.DepotMining
open KeyValues ProvisionCache TextSearch

private theorem plain_gidKey : Plain gidKey := by decide

private theorem plain_oslistKey : Plain oslistKey := by decide

private theorem plain_publicBranch : Plain publicBranch := by decide

private theorem plain_manifests : Plain manifests := by decide

private theorem plain_config : Plain config := by decide

namespace Scan

/-- The current depot gets its manifest, if there is one to get. -/
def setGid (s : Scan) (g : Option UInt64) : Scan :=
  { s with out :=
    match g with
    | some gid => (s.onCurrent fun e => { e with gid }).out
    | none => s.out }

/-- The pairs of the entries. -/
def gids (s : Scan) : List DepotGid := s.out.map fun e => ⟨e.depotId, e.gid⟩

section
variable {s t u : Scan}

private theorem onCurrent_none (h : s.current = none) (change : DepotInfo → DepotInfo) : s.onCurrent change = s := by
  have hmap : (s.out.map fun e => if s.current = some e.depotId then change e else e) = s.out := by
    rw [h]
    simp
  rw [onCurrent, hmap]

private theorem setGid_none_current (h : s.current = none) (g : Option UInt64) : s.setGid g = s := by
  cases g with
  | none => rfl
  | some gid => exact onCurrent_none h _

private theorem gidToken_escaped (s : Scan) (value : Bytes) :
    s.gidToken (escaped value) = s.setGid (gidNumber value) := by
  have htoken : s.gidToken (escaped value) = s.gidToken value := by
    obtain heq | ⟨hs, htoken⟩ := escaped_digits value
    · rw [heq]
    · simp [gidToken, hs, htoken]
  rw [htoken, gidToken, gidNumber]
  split_ifs
  · cases stoull value <;> rfl
  · rfl

/-- A line whose value the scanner takes with its key. -/
theorem reaches_valueLine {key value : Bytes} (hdepth : s.depth ≠ 0) (hkey : Plain key) (hquote : quote ∉ value)
    (htoken : ∀ after rest, quotedValue after = some (escaped value, rest) → s.onToken key after = (t, rest))
    (depth : Nat) : s.Reaches (leafText depth key value) t := by
  apply (s.reaches_tabs depth).append
  intro rest
  have hkeyQuote : quote ∉ key := fun hmem => (hkey quote hmem).1 rfl
  have hvalue := quotedValue_line [tab, tab] (by decide) hquote (newline :: rest)
  have hshape : emitEscaped key ++ tab :: ([tab] ++ (emitEscaped value ++ [newline])) ++ rest =
      emitEscaped key ++ ([tab, tab] ++ (emitEscaped value ++ newline :: rest)) := by
    simp
  rw [hshape, walk_string hdepth hkeyQuote, escaped_plain hkey, htoken _ _ hvalue]
  exact reaches_blank t [newline] (by decide) rest

/-- From its depth on no token does anything. -/
structure Inert (s : Scan) : Prop where
  deep : 2 < s.depth
  tokens : ∀ depth, s.depth ≤ depth → ∀ token after,
    onToken { s with depth } token after = ({ s with depth }, after)

private theorem Inert.deeper (h : s.Inert) : s.openBrace.Inert where
  deep := Nat.lt_succ_of_lt h.deep
  tokens depth hle := h.tokens depth (Nat.le_of_succ_le hle)

theorem Inert.reaches_string (h : s.Inert) {string : Bytes} (hquote : quote ∉ string) :
    s.Reaches (emitEscaped string) s :=
  Scan.reaches_string (Nat.ne_zero_of_lt h.deep) hquote fun after => h.tokens s.depth (Nat.le_refl _) _ after

private theorem closeBrace_openBrace (h : s.depth ≠ 1) : s.openBrace.closeBrace = s := by
  rw [closeBrace, openBrace]
  simp [h]

private theorem inert_deep (h : 4 < s.depth) : s.Inert where
  deep := by omega
  tokens depth hle token after := by
    rw [onToken, if_neg (by dsimp only; omega), if_neg (by dsimp only; omega), if_neg (by dsimp only; omega),
      if_neg (by dsimp only; omega), if_neg (by dsimp only; omega)]

/-- The closing line of a map leads back to its depth. -/
theorem reaches_back (h : 1 < s.depth) (depth : Nat) : s.openBrace.Reaches (closeText depth) s := by
  have hclose := reaches_closeText (s := s.openBrace) depth (Nat.succ_ne_zero _)
  rwa [closeBrace_openBrace (Nat.ne_of_gt h)] at hclose

theorem Inert.reaches (h : s.Inert) {tree : Pairs} (hquotes : QuoteFree tree) (depth : Nat) :
    s.Reaches (emitPairs depth tree) s := by
  induction tree generalizing s depth with
  | nil => exact .refl s
  | leaf key value rest ih =>
    rw [emitPairs_leaf]
    exact (reaches_leafText depth (h.reaches_string hquotes.1) (h.reaches_string hquotes.2.1)).append
      (ih h hquotes.2.2 depth)
  | node key children rest ihChildren ihRest =>
    have hopen := reaches_openText depth (h.reaches_string hquotes.1) (Nat.ne_zero_of_lt h.deep)
    rw [emitPairs_node]
    apply hopen.append
    apply (ihChildren h.deeper hquotes.2.1 (depth + 1)).append
    exact (reaches_back (Nat.lt_of_succ_lt h.deep) depth).append (ihRest h hquotes.2.2 depth)

/-! ### Depth 4: a branch -/

/-- The walk in a branch of the manifests. -/
structure InBranch (s : Scan) (branch : Bytes) : Prop where
  depth : s.depth = 4
  inSection : s.currentSection = manifests
  inBranch : s.currentBranch = branch

private theorem inert_of_branch {branch : Bytes} (h : s.InBranch branch)
    (hidle : branch ≠ publicBranch ∨ s.current = none) : s.Inert where
  deep := by
    rw [h.depth]
    decide
  tokens depth hle token after := by
    rw [h.depth] at hle
    have hnone : ¬(s.currentBranch = publicBranch ∧ token = gidKey ∧ s.current ≠ none) := by
      rintro ⟨hbranch, -, hcurrent⟩
      exact hidle.elim (fun hne => hne (h.inBranch.symm.trans hbranch)) hcurrent
    rw [onToken, if_neg (by dsimp only; omega), if_neg (by dsimp only; omega), if_neg (by dsimp only; omega),
      if_neg (by dsimp only; omega), if_neg]
    rintro ⟨-, -, hrest⟩
    exact hnone hrest

private theorem onToken_branch {branch token after : Bytes} (h : s.InBranch branch) (htoken : token ≠ gidKey) :
    s.onToken token after = (s, after) := by
  have hdepth := h.depth
  rw [onToken, if_neg (by omega), if_neg (by omega), if_neg (by omega), if_neg (by omega), if_neg]
  rintro ⟨-, -, -, heq, -⟩
  exact htoken heq

theorem InBranch.reaches_string {branch string : Bytes} (h : s.InBranch branch) (hquote : quote ∉ string)
    (hstring : string ≠ gidKey) : s.Reaches (emitEscaped string) s := by
  have hdepth := h.depth
  exact Scan.reaches_string (by omega) hquote fun after =>
    onToken_branch h fun heq => hstring ((escaped_eq_iff plain_gidKey string).mp heq)

/-- The line of the public manifest. -/
theorem reaches_gid (h : s.InBranch publicBranch) (hcurrent : s.current ≠ none) {value : Bytes}
    (hquote : quote ∉ value) (depth : Nat) : s.Reaches (leafText depth gidKey value) (s.setGid (gidNumber value)) := by
  have hdepth := h.depth
  refine reaches_valueLine (by omega) plain_gidKey hquote (fun after rest hvalue => ?_) depth
  rw [onToken, if_neg (by omega), if_neg (by omega), if_neg (by omega), if_neg (by omega),
    if_pos ⟨hdepth, h.inSection, h.inBranch, rfl, hcurrent⟩, hvalue]
  dsimp only
  rw [gidToken_escaped]

private theorem InBranch.setGid {branch : Bytes} (h : s.InBranch branch) (g : Option UInt64) :
    (s.setGid g).InBranch branch :=
  ⟨h.depth, h.inSection, h.inBranch⟩

/-- The public branch gives the depot its manifest. -/
theorem branch_reaches (h : s.InBranch publicBranch) {tree : Pairs} (hquotes : QuoteFree tree) (hdistinct : Distinct tree)
    (hnames : s.current ≠ none → Names gidKey tree) (depth : Nat) :
    s.Reaches (emitPairs depth tree) (s.setGid (branchGid tree)) := by
  by_cases hcurrent : s.current = none
  · rw [setGid_none_current hcurrent]
    exact (inert_of_branch h (.inr hcurrent)).reaches hquotes depth
  have hname := hnames hcurrent
  clear hnames
  induction tree generalizing s depth with
  | nil => exact .refl s
  | leaf key value rest ih =>
    rw [emitPairs_leaf]
    by_cases hkey : key = gidKey
    · subst hkey
      have hfound : branchGid (.leaf gidKey value rest) = gidNumber value := by
        rw [branchGid, find, if_pos rfl]
      have hmissing : branchGid rest = none := by
        rw [branchGid, hdistinct.1]
      have hrest := ih (h.setGid (gidNumber value)) hquotes.2.2 hdistinct.2 depth
        hcurrent hname.2
      rw [hmissing] at hrest
      rw [hfound]
      exact (reaches_gid h hcurrent hquotes.2.1 depth).append hrest
    · have hlater : branchGid (.leaf key value rest) = branchGid rest := by
        rw [branchGid, find, if_neg hkey, branchGid]
      have hvalue : value ≠ gidKey := hname.1.resolve_left hkey
      rw [hlater]
      exact (reaches_leafText depth (h.reaches_string hquotes.1 hkey) (h.reaches_string hquotes.2.1 hvalue)).append
        (ih h hquotes.2.2 hdistinct.2 depth hcurrent hname.2)
  | node key children rest _ ih =>
    have hdepth := h.depth
    have hlater : branchGid (.node key children rest) = branchGid rest := by
      rw [branchGid, find, if_neg hname.1, branchGid]
    have hinert : s.openBrace.Inert := inert_deep (Nat.lt_succ_of_le (Nat.le_of_eq hdepth.symm))
    rw [emitPairs_node, hlater]
    apply (reaches_openText depth (h.reaches_string hquotes.1 hname.1) (by omega)).append
    apply (hinert.reaches hquotes.2.1 (depth + 1)).append
    exact (reaches_back (by omega) depth).append (ih h hquotes.2.2 hdistinct.2.2 depth hcurrent hname.2)

/-! ### Depth 3: the manifests, the configuration and the rest -/

private theorem manifestsGid_leaf {key value : Bytes} {rest : Pairs} (h : find key rest = none) :
    manifestsGid (.leaf key value rest) = manifestsGid rest := by
  rw [manifestsGid, find, manifestsGid]
  split_ifs with hkey
  · rw [← hkey, h]
  · rfl

private theorem reaches_manifestsString (hdepth : s.depth = 3) (hsection : s.currentSection = manifests)
    {string : Bytes}
    (hquote : quote ∉ string) : s.Reaches (emitEscaped string) { s with currentBranch := escaped string } := by
  refine reaches_string (by omega) hquote fun after => ?_
  rw [onToken, if_neg (by omega), if_neg (by omega), if_pos ⟨hdepth, hsection⟩]

/-- The other branches are passed over. -/
theorem manifests_reaches (hdepth : s.depth = 3) (hsection : s.currentSection = manifests) {tree : Pairs}
    (hquotes : QuoteFree tree) (hdistinct : Distinct tree) (hnames : s.current ≠ none → NamesGid tree) (depth : Nat) :
    ∃ branch, s.Reaches (emitPairs depth tree) ({ s with currentBranch := branch }.setGid (manifestsGid tree)) := by
  induction tree generalizing s with
  | nil => exact ⟨s.currentBranch, .refl s⟩
  | leaf key value rest ih =>
    have hkey := reaches_manifestsString hdepth hsection hquotes.1
    have hvalue := reaches_manifestsString (s := { s with currentBranch := escaped key }) hdepth hsection hquotes.2.1
    obtain ⟨branch, hrest⟩ := ih (s := { s with currentBranch := escaped value }) hdepth hsection hquotes.2.2
      hdistinct.2 hnames
    refine ⟨branch, ?_⟩
    rw [emitPairs_leaf, manifestsGid_leaf hdistinct.1]
    exact (reaches_leafText depth hkey hvalue).append hrest
  | node key children rest _ ih =>
    have hopen := reaches_openText depth (reaches_manifestsString hdepth hsection hquotes.1) (by simp only; omega)
    have hinBranch : ({ s with currentBranch := escaped key } : Scan).openBrace.InBranch (escaped key) :=
      ⟨congrArg Nat.succ hdepth, hsection, rfl⟩
    have hpublic := escaped_eq_iff plain_publicBranch key
    rw [emitPairs_node]
    by_cases hkey : key = publicBranch
    · rw [hpublic.mpr hkey] at hinBranch hopen
      have hchildren := branch_reaches hinBranch hquotes.2.1 hdistinct.2.1 (fun hcurrent => (hnames hcurrent).1 hkey)
        (depth + 1)
      have hback := reaches_back (s := { s with currentBranch := publicBranch }.setGid (branchGid children))
        (Nat.lt_of_lt_of_eq (by decide) hdepth.symm) depth
      obtain ⟨branch, hrest⟩ := ih (s := { s with currentBranch := publicBranch }.setGid (branchGid children)) hdepth
        hsection hquotes.2.2 hdistinct.2.2 fun hcurrent => (hnames hcurrent).2
      have hfound : manifestsGid (.node key children rest) = branchGid children := by
        rw [manifestsGid, find, if_pos hkey]
      have hmissing : manifestsGid rest = none := by
        rw [manifestsGid, ← hkey, hdistinct.1]
      rw [hmissing] at hrest
      refine ⟨branch, ?_⟩
      rw [hfound]
      exact hopen.append (hchildren.append (hback.append hrest))
    · have hidle := inert_of_branch hinBranch (.inl fun heq => hkey (hpublic.mp heq))
      have hback := reaches_back (s := { s with currentBranch := escaped key })
        (Nat.lt_of_lt_of_eq (by decide) hdepth.symm) depth
      obtain ⟨branch, hrest⟩ := ih (s := { s with currentBranch := escaped key }) hdepth hsection hquotes.2.2
        hdistinct.2.2 fun hcurrent => (hnames hcurrent).2
      have hlater : manifestsGid (.node key children rest) = manifestsGid rest := by
        rw [manifestsGid, find, if_neg hkey, manifestsGid]
      refine ⟨branch, ?_⟩
      rw [hlater]
      exact hopen.append ((hidle.reaches hquotes.2.1 (depth + 1)).append (hback.append hrest))

/-- Another section, or one of a map that is no depot's. -/
theorem inert_of_section (hdepth : s.depth = 3) (hsection : s.currentSection ≠ manifests)
    (hidle : s.currentSection ≠ config ∨ s.current = none) : s.Inert where
  deep := by omega
  tokens depth hle token after := by
    rw [onToken, if_neg (by dsimp only; omega), if_neg (by dsimp only; omega), if_neg (fun h => hsection h.2), if_neg,
      if_neg (fun h => hsection h.2.1)]
    rintro ⟨-, hconfig, -, hcurrent⟩
    exact hidle.elim (fun hne => hne hconfig) hcurrent

private theorem inert_below (hdepth : 3 < s.depth) (hsection : s.currentSection ≠ manifests) : s.Inert where
  deep := by omega
  tokens depth hle token after := by
    rw [onToken, if_neg (by dsimp only; omega), if_neg (by dsimp only; omega), if_neg (fun h => hsection h.2),
      if_neg (by dsimp only; omega), if_neg (fun h => hsection h.2.1)]

private theorem reaches_configString (hdepth : s.depth = 3) (hsection : s.currentSection = config) {string : Bytes}
    (hquote : quote ∉ string) (hstring : string ≠ oslistKey) : s.Reaches (emitEscaped string) s := by
  refine reaches_string (by omega) hquote fun after => ?_
  have htoken : escaped string ≠ oslistKey := fun heq => hstring ((escaped_eq_iff plain_oslistKey string).mp heq)
  rw [onToken, if_neg (by omega), if_neg (by omega), if_neg (fun h => absurd (hsection.symm.trans h.2) (by decide)),
    if_neg (fun h => htoken h.2.2.1), if_neg (by omega)]

private theorem gids_oslist (s : Scan) (oslist : Bytes) : (s.onCurrent fun e => { e with oslist }).gids = s.gids := by
  dsimp only [gids, onCurrent]
  rw [List.map_map]
  refine List.map_congr_left fun e _ => ?_
  dsimp only [Function.comp_apply]
  split_ifs <;> rfl

/-- The configuration gives the depot its systems and leaves the manifests alone. -/
theorem config_reaches (hdepth : s.depth = 3) (hsection : s.currentSection = config) {tree : Pairs}
    (hquotes : QuoteFree tree) (hnames : s.current ≠ none → Names oslistKey tree) (depth : Nat) :
    ∃ out, s.Reaches (emitPairs depth tree) { s with out } ∧ ({ s with out } : Scan).gids = s.gids := by
  have hmanifests : s.currentSection ≠ manifests := by
    rw [hsection]
    decide
  by_cases hcurrent : s.current = none
  · exact ⟨s.out, (inert_of_section hdepth hmanifests (.inr hcurrent)).reaches hquotes depth, rfl⟩
  have hname := hnames hcurrent
  clear hnames
  induction tree generalizing s with
  | nil => exact ⟨s.out, .refl s, rfl⟩
  | leaf key value rest ih =>
    rw [emitPairs_leaf]
    by_cases hkey : key = oslistKey
    · subst hkey
      let t : Scan := s.onCurrent fun e => { e with oslist := escaped value }
      have hline : s.Reaches (leafText depth oslistKey value) t := by
        refine reaches_valueLine (by omega) plain_oslistKey hquotes.2.1 (fun after rest hvalue => ?_) depth
        rw [onToken, if_neg (by omega), if_neg (by omega), if_neg (fun h => hmanifests h.2),
          if_pos ⟨hdepth, hsection, rfl, hcurrent⟩, hvalue]
      obtain ⟨out, hrest, hout⟩ := ih (s := t) hdepth hsection hquotes.2.2 hmanifests hcurrent hname.2
      exact ⟨out, hline.append hrest, hout.trans (gids_oslist s _)⟩
    · have hvalue : value ≠ oslistKey := hname.1.resolve_left hkey
      obtain ⟨out, hrest, hout⟩ := ih hdepth hsection hquotes.2.2 hmanifests hcurrent hname.2
      exact ⟨out, (reaches_leafText depth (reaches_configString hdepth hsection hquotes.1 hkey)
        (reaches_configString hdepth hsection hquotes.2.1 hvalue)).append hrest, hout⟩
  | node key children rest _ ih =>
    have hopen := reaches_openText depth (reaches_configString hdepth hsection hquotes.1 hname.1) (by omega)
    have hinert : s.openBrace.Inert := inert_below (Nat.lt_succ_of_le (Nat.le_of_eq hdepth.symm)) hmanifests
    obtain ⟨out, hrest, hout⟩ := ih hdepth hsection hquotes.2.2 hmanifests hcurrent hname.2
    refine ⟨out, ?_, hout⟩
    rw [emitPairs_node]
    apply hopen.append
    apply (hinert.reaches hquotes.2.1 (depth + 1)).append
    exact (reaches_back (by omega) depth).append hrest

/-! ### Depth 2: a depot -/

/-- What a new manifest does to the pairs. -/
def giveGid (current : Option UInt32) (g : Option UInt64) (gids : List DepotGid) : List DepotGid :=
  match g with
  | some gid => gids.map fun d => if current = some d.depotId then { d with gid } else d
  | none => gids

private theorem gids_setGid (s : Scan) (g : Option UInt64) : (s.setGid g).gids = giveGid s.current g s.gids := by
  cases g with
  | none => rfl
  | some gid =>
    dsimp only [gids, setGid, onCurrent, giveGid]
    rw [List.map_map, List.map_map]
    refine List.map_congr_left fun e _ => ?_
    dsimp only [Function.comp_apply]
    split_ifs <;> rfl

private theorem publicGid_leaf {key value : Bytes} {rest : Pairs} (h : find key rest = none) :
    publicGid (.leaf key value rest) = publicGid rest := by
  rw [publicGid, find, publicGid]
  split_ifs with hkey
  · rw [← hkey, h]
  · rfl

private theorem reaches_sectionString (hdepth : s.depth = 2) {string : Bytes} (hquote : quote ∉ string) :
    s.Reaches (emitEscaped string) { s with currentSection := escaped string } := by
  refine reaches_string (by omega) hquote fun after => ?_
  rw [onToken, if_neg (by omega), if_pos hdepth]

/-- What the walk over a depot's map leaves. -/
structure Given (s : Scan) (g : Option UInt64) (t : Scan) : Prop where
  depth : t.depth = s.depth
  current : t.current = s.current
  gids : t.gids = giveGid s.current g s.gids

theorem depot_reaches (hdepth : s.depth = 2) {tree : Pairs} (hquotes : QuoteFree tree) (hdistinct : Distinct tree)
    (hnames : s.current ≠ none → NamesKeys tree) (depth : Nat) :
    ∃ t, s.Reaches (emitPairs depth tree) t ∧ s.Given (publicGid tree) t := by
  induction tree generalizing s with
  | nil => exact ⟨s, .refl s, rfl, rfl, rfl⟩
  | leaf key value rest ih =>
    have hkey := reaches_sectionString hdepth hquotes.1
    have hvalue := reaches_sectionString (s := { s with currentSection := escaped key }) hdepth hquotes.2.1
    obtain ⟨t, hrest, hgiven⟩ := ih (s := { s with currentSection := escaped value }) hdepth hquotes.2.2 hdistinct.2
      hnames
    refine ⟨t, ?_, ?_⟩
    · rw [emitPairs_leaf]
      exact (reaches_leafText depth hkey hvalue).append hrest
    · rw [publicGid_leaf hdistinct.1]
      exact ⟨hgiven.depth, hgiven.current, hgiven.gids⟩
  | node key children rest _ ih =>
    have hopen := reaches_openText depth (reaches_sectionString hdepth hquotes.1) (by simp only; omega)
    have hnamesRest : s.current ≠ none → NamesKeys rest := fun hcurrent => (hnames hcurrent).2.2
    have htwo : 1 < s.depth := Nat.lt_of_lt_of_eq (by decide) hdepth.symm
    have hthree : s.depth + 1 = 3 := congrArg Nat.succ hdepth
    have hisManifests := escaped_eq_iff plain_manifests key
    rw [emitPairs_node]
    by_cases hmanifests : key = manifests
    · obtain ⟨branch, hchildren⟩ := manifests_reaches (s := ({ s with currentSection := escaped key } : Scan).openBrace)
        hthree (hisManifests.mpr hmanifests) hquotes.2.1 hdistinct.2.1
        (fun hcurrent => (hnames hcurrent).1 hmanifests) (depth + 1)
      let u : Scan := { s with currentSection := escaped key, currentBranch := branch }.setGid (manifestsGid children)
      have hback : u.openBrace.Reaches (closeText depth) u := reaches_back (s := u) htwo depth
      obtain ⟨t, hrest, hgiven⟩ := ih (s := u) hdepth hquotes.2.2 hdistinct.2.2 hnamesRest
      have hfound : publicGid (.node key children rest) = manifestsGid children := by
        rw [publicGid, find, if_pos hmanifests]
      have hmissing : publicGid rest = none := by
        rw [publicGid, ← hmanifests, hdistinct.1]
      refine ⟨t, hopen.append (hchildren.append (hback.append hrest)), hgiven.depth, hgiven.current, ?_⟩
      rw [hgiven.gids, hmissing, hfound]
      exact gids_setGid _ _
    · have hlater : publicGid (.node key children rest) = publicGid rest := by
        rw [publicGid, find, if_neg hmanifests, publicGid]
      have hother : escaped key ≠ manifests := fun heq => hmanifests (hisManifests.mp heq)
      obtain ⟨out, hchildren, hout⟩ : ∃ out,
          ({ s with currentSection := escaped key } : Scan).openBrace.Reaches (emitPairs (depth + 1) children)
            ({ s with currentSection := escaped key, out } : Scan).openBrace ∧
          ({ s with currentSection := escaped key, out } : Scan).gids = s.gids := by
        by_cases hconfig : key = config
        · exact config_reaches (s := ({ s with currentSection := escaped key } : Scan).openBrace) hthree
            ((escaped_eq_iff plain_config key).mpr hconfig) hquotes.2.1
            (fun hcurrent => (hnames hcurrent).2.1 hconfig) (depth + 1)
        · have hidle : escaped key ≠ config := fun heq => hconfig ((escaped_eq_iff plain_config key).mp heq)
          exact ⟨s.out, (inert_of_section (s := ({ s with currentSection := escaped key } : Scan).openBrace) hthree
            hother (.inl hidle)).reaches hquotes.2.1 (depth + 1), rfl⟩
      let u : Scan := { s with currentSection := escaped key, out }
      have hback : u.openBrace.Reaches (closeText depth) u := reaches_back (s := u) htwo depth
      obtain ⟨t, hrest, hgiven⟩ := ih (s := u) hdepth hquotes.2.2 hdistinct.2.2 hnamesRest
      refine ⟨t, hopen.append (hchildren.append (hback.append hrest)), hgiven.depth, hgiven.current, ?_⟩
      rw [hgiven.gids, hlater, ← hout]

end
end Scan
end SlsteamMoon.DepotMining
