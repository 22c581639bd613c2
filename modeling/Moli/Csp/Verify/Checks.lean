import Moli.Csp.Checks

/-!
# When the two URL checks agree

A source that only says something about scripts (`'strict-dynamic'`, a nonce, a hash) matches no URL
(`sourceExpressionMatches_of_scriptOnly`), so the Boolean check does not see it. The check that
reports a violation treats a standard request like a script element that the parser inserted without
a nonce, and a list with `'strict-dynamic'` and a nonce or a hash then allows nothing
(`allowsStandard_iff`). The checks agree, and adding given sources changes neither, exactly if no
list does so after the addition or the URL is refused anyway. Since both sources can be added to any
list, no addition changes an answer exactly if no list governs the kind of resource or the URL is
refused anyway (`url_checks_agree_iff`).
-/

namespace Moli.Csp

open Lib Lib.Text List

variable {source : Text} {sources : List Text} {protectedUrl requestUrl : Url}
  {redirectStatus : ContentSecurityPolicyRedirectStatus}

/-! ## Sources for scripts -/

def isScriptOnly (source : Text) : Bool :=
  cspKeywordEq source "strict-dynamic" || isNonceOrHash source

def quote : Char := Char.ofNat 39

/-- A dash between two quotes, as in every source for scripts. -/
def DashQuoted (source : Text) : Prop :=
  ∃ middle, source = quote :: (middle ++ [quote]) ∧ '-' ∈ toAsciiLowercase middle

theorem dash_mem_lowercase {s : Text} (h : '-' ∈ s) : '-' ∈ toAsciiLowercase s :=
  mem_map.mpr ⟨'-', h, rfl⟩

theorem eq_of_stripPrefix {start s rest : List Char} (h : stripPrefix start s = some rest) :
    s = start ++ rest := by
  unfold stripPrefix at h
  split at h
  next hprefix =>
    obtain ⟨rest', rfl⟩ := isPrefixOf_iff_prefix.mp hprefix
    simpa using h
  · cases h

theorem eq_of_stripSuffix {ending s rest : List Char} (h : stripSuffix ending s = some rest) :
    s = rest ++ ending := by
  unfold stripSuffix at h
  split at h
  next hsuffix =>
    obtain ⟨rest', rfl⟩ := isSuffixOf_iff_suffix.mp hsuffix
    simpa using h
  · cases h

theorem dashQuoted_of_nonce {value : Text} (h : cspNonceSourceValue source = some value) :
    DashQuoted source := by
  obtain ⟨rest, hrest, hvalue⟩ := Option.bind_eq_some_iff.mp h
  refine ⟨"nonce-".toList ++ value, ?_, dash_mem_lowercase (by simp)⟩
  rw [eq_of_stripPrefix hrest, eq_of_stripSuffix hvalue]
  rfl

theorem mem_of_hashSourceValue {value : Text} {hash : CspHashSourceValue}
    (h : hashSourceValue value = some hash) : '-' ∈ value := by
  unfold hashSourceValue splitOnce at h
  by_contra hdash
  rw [if_neg hdash] at h
  cases h

theorem dashQuoted_of_hash {hash : CspHashSourceValue} (h : cspHashSourceValue source = some hash) :
    DashQuoted source := by
  obtain ⟨middle, hmiddle, hhash⟩ := Option.bind_eq_some_iff.mp h
  obtain ⟨rest, hrest, hvalue⟩ := Option.bind_eq_some_iff.mp hmiddle
  refine ⟨middle, ?_, dash_mem_lowercase (mem_of_hashSourceValue hhash)⟩
  rw [eq_of_stripPrefix hrest, eq_of_stripSuffix hvalue]
  rfl

theorem keyword_middle {keyword : String} (h : cspKeywordEq source keyword = true) :
    ∃ middle, source = quote :: (middle ++ [quote]) ∧
      toAsciiLowercase middle = toAsciiLowercase keyword.toList := by
  unfold cspKeywordEq at h
  simp only [Bool.and_eq_true, eqIgnoreAsciiCase_iff] at h
  obtain ⟨⟨⟨hlength, hstart⟩, hend⟩, hmiddle⟩ := h
  obtain ⟨rest, rfl⟩ := isPrefixOf_iff_prefix.mp hstart
  have hsuffix : [quote] <:+ [quote] ++ rest := isSuffixOf_iff_suffix.mp hend
  cases rest using reverseRecOn with
  | nil => simp at hlength
  | append_singleton middle last =>
    have hlast : quote = last := by
      have hends : [quote] <:+ [quote] ++ middle ++ [last] := by simpa using hsuffix
      simpa using hends
    subst hlast
    exact ⟨middle, rfl, by simpa using hmiddle⟩

theorem dashQuoted_of_scriptOnly (h : isScriptOnly source = true) : DashQuoted source := by
  unfold isScriptOnly isNonceOrHash at h
  rw [Bool.or_eq_true, Bool.or_eq_true, Option.isSome_iff_exists, Option.isSome_iff_exists] at h
  rcases h with hkeyword | ⟨value, hvalue⟩ | ⟨hash, hhash⟩
  · obtain ⟨middle, hsource, hmiddle⟩ := keyword_middle hkeyword
    refine ⟨middle, hsource, ?_⟩
    rw [hmiddle]
    decide
  · exact dashQuoted_of_nonce hvalue
  · exact dashQuoted_of_hash hhash

/-! ## They match no URL -/

/-- A source that starts with a quote has no scheme. -/
theorem splitScheme_quote (rest : Text) :
    splitScheme (quote :: rest) = none ∨
      splitScheme (quote :: rest) = some (none, quote :: rest) := by
  unfold splitScheme
  cases findSub "://".toList (quote :: rest) with
  | none => exact .inr rfl
  | some index =>
    dsimp only
    split
    · exact .inr rfl
    · cases index with
      | zero => exact .inl rfl
      | succ index =>
        exact .inl rfl

theorem hostIsValid_quote (rest : Text) : hostIsValid (quote :: rest) = false := by
  have hlabels : ∀ rest : Text, ((quote :: rest).splitOn '.').all (fun label =>
      !label.isEmpty && label.all fun c => isAlphanumeric c || c = '-') = false := by
    intro rest
    rw [splitOn_cons_eq_if_modifyHead, if_neg (by decide)]
    obtain ⟨label, labels, hsplit⟩ := exists_cons_of_ne_nil (splitOn_ne_nil '.' rest)
    rw [hsplit]
    have hquote : (isAlphanumeric quote || decide (quote = '-')) = false := by decide
    simp [hquote]
  unfold hostIsValid
  have hstar : stripPrefix "*.".toList (quote :: rest) = none := if_neg (by simp [quote])
  have hne : (quote :: rest) ≠ ['*'] := by simp [quote]
  rw [hstar]
  cases hdot : stripSuffix ['.'] (quote :: rest) with
  | none => simp [hne, hdot, hlabels]
  | some labels =>
    -- The dot is not the quote, so the labels still start with it.
    obtain ⟨rest', rfl⟩ : ∃ rest', labels = quote :: rest' := by
      have happend := eq_of_stripSuffix hdot
      cases labels with
      | nil => simp [quote] at happend
      | cons c labels => exact ⟨labels, by rw [(List.cons.inj happend).1]⟩
    simp [hne, hdot, hlabels]

theorem takeWhile_quote {c : Char} (rest : Text) (hc : quote ≠ c) :
    (quote :: rest).takeWhile (· ≠ c) = quote :: rest.takeWhile (· ≠ c) :=
  takeWhile_cons_of_pos (decide_eq_true hc)

theorem splitAuthority_quote (rest : Text) :
    ∃ rest', (splitAuthorityAndPath (quote :: rest)).1 = quote :: rest' := by
  unfold splitAuthorityAndPath
  split
  · exact ⟨rest.takeWhile (· ≠ '/'), @takeWhile_quote '/' rest (by decide)⟩
  · exact ⟨rest, rfl⟩

theorem splitPort_quote (rest : Text) {host : Text} {port : Option Text}
    (h : splitPort (quote :: rest) = some (host, port)) : ∃ rest', host = quote :: rest' := by
  unfold splitPort splitOnce at h
  split at h
  · cases h
    exact ⟨rest, rfl⟩
  next found hfound =>
    split at hfound
    · cases hfound
      split at h
      · cases h
      · cases h
        exact ⟨rest.takeWhile (· ≠ ':'), @takeWhile_quote ':' rest (by decide)⟩
    · cases hfound

theorem parseHostSource_quote (rest : Text) : parseHostSource (quote :: rest) = none := by
  unfold parseHostSource
  rcases splitScheme_quote rest with hscheme | hscheme
  · rw [hscheme]
  rw [hscheme]
  obtain ⟨rest', hauthority⟩ := splitAuthority_quote rest
  dsimp only
  rw [hauthority]
  cases hport : splitPort (quote :: rest') with
  | none => rfl
  | some found =>
    obtain ⟨rest'', hhost⟩ := splitPort_quote rest' hport
    dsimp only
    rw [hhost, hostIsValid_quote]
    rfl

theorem sourceExpressionMatches_of_scriptOnly (h : isScriptOnly source = true) :
    sourceExpressionMatches source protectedUrl requestUrl redirectStatus = false := by
  obtain ⟨middle, rfl, hdash⟩ := dashQuoted_of_scriptOnly h
  have hself : cspKeywordEq (quote :: (middle ++ [quote])) "self" = false := by
    rw [Bool.eq_false_iff]
    intro hself
    obtain ⟨middle', heq, hmiddle⟩ := keyword_middle hself
    have hsame : middle = middle' := append_cancel_right (List.cons.inj heq).2
    rw [hsame, hmiddle] at hdash
    exact absurd hdash (by decide)
  have hstar : quote :: (middle ++ [quote]) ≠ ['*'] := by simp
  have hcolon : stripSuffix [':'] (quote :: (middle ++ [quote])) = none := by
    refine if_neg ?_
    simp [quote]
  unfold sourceExpressionMatches
  rw [hself, if_neg (by simp), if_neg hstar, hcolon]
  rw [sourceUrlMatches, parseHostSource_quote]

/-! ## What the two checks look at -/

/-- Some source, other than `'none'`, matches the URL. -/
def Listed (protectedUrl requestUrl : Url) (redirectStatus : ContentSecurityPolicyRedirectStatus)
    (sources : List Text) : Prop :=
  ∃ source ∈ sources, source ≠ [] ∧ cspKeywordEq source "none" = false ∧
    sourceExpressionMatches source protectedUrl requestUrl redirectStatus = true

/-- The list has `'strict-dynamic'` and a nonce or a hash. -/
def StrictDynamic (sources : List Text) : Prop :=
  (∃ source ∈ sources, cspKeywordEq source "strict-dynamic" = true) ∧
    ∃ source ∈ sources, isNonceOrHash source = true

theorem normalizedSourceListAllowsUrl_eq :
    normalizedSourceListAllowsUrl sources protectedUrl requestUrl redirectStatus =
      sources.any fun source => !cspKeywordEq source "none" &&
        sourceExpressionMatches source protectedUrl requestUrl redirectStatus := by
  unfold normalizedSourceListAllowsUrl
  match sources with
  | [] => rfl
  | [source] =>
    cases hnone : cspKeywordEq source "none" with
    | true | false => simp [hnone]
  | source :: second :: rest => simp

theorem sourceListAllows_iff :
    sourceListAllows sources protectedUrl requestUrl redirectStatus = true ↔
      Listed protectedUrl requestUrl redirectStatus sources := by
  unfold sourceListAllows normalizedSourceList Listed
  rw [normalizedSourceListAllowsUrl_eq]
  simp

theorem ne_nil_of_dashQuoted (h : DashQuoted source) : source ≠ [] := by
  obtain ⟨middle, rfl, -⟩ := h
  exact cons_ne_nil _ _

theorem activatesStrictDynamic_iff :
    sourceListActivatesStrictDynamic (normalizedSourceList sources) = true ↔
      StrictDynamic sources := by
  have hkept : ∀ p : Text → Bool, (∀ source, p source = true → isScriptOnly source = true) →
      ((normalizedSourceList sources).any p = true ↔ ∃ source ∈ sources, p source = true) := by
    intro p hp
    rw [any_eq_true]
    refine exists_congr fun source => and_congr_left fun h => ?_
    have hne := ne_nil_of_dashQuoted (dashQuoted_of_scriptOnly (hp source h))
    simp [normalizedSourceList, hne]
  unfold sourceListActivatesStrictDynamic StrictDynamic
  rw [Bool.and_eq_true, hkept _ (by simp +contextual [isScriptOnly]),
    hkept _ (by simp +contextual [isScriptOnly])]

/-- A standard request is judged like a script element of the parser without a nonce. -/
theorem allowsStandard_iff :
    sourceListAllowsResourceRequest sources protectedUrl requestUrl redirectStatus .standard =
      true ↔ ¬StrictDynamic sources ∧ Listed protectedUrl requestUrl redirectStatus sources := by
  rw [← activatesStrictDynamic_iff, ← sourceListAllows_iff]
  unfold sourceListAllowsResourceRequest sourceListAllowsScriptElementRequest sourceListAllows
  cases hdynamic : sourceListActivatesStrictDynamic (normalizedSourceList sources) with
  | true | false => simp [nonceMatches, scriptIntegrityMatchesHashSource, hdynamic]

/-! ## Adding sources for scripts -/

/-- The second list is the first with sources for scripts added anywhere. -/
inductive AddsScriptSources : List Text → List Text → Prop
  | nil : AddsScriptSources [] []
  | keep (source : Text) {before after : List Text} :
    AddsScriptSources before after → AddsScriptSources (source :: before) (source :: after)
  | add {source : Text} {before after : List Text} : isScriptOnly source = true →
    AddsScriptSources before after → AddsScriptSources before (source :: after)

namespace AddsScriptSources

variable {before after : List Text}

theorem refl (sources : List Text) : AddsScriptSources sources sources := by
  induction sources with
  | nil => exact .nil
  | cons source _ ih => exact .keep source ih

section
variable (h : AddsScriptSources before after)
include h

theorem subset : before ⊆ after := by
  induction h with
  | nil => exact List.Subset.refl []
  | keep source _ ih => exact cons_subset_cons source ih
  | add _ _ ih => exact subset_cons_of_subset _ ih

theorem mem_before (hsource : source ∈ after) (hurl : isScriptOnly source = false) :
    source ∈ before := by
  induction h with
  | nil => exact hsource
  | keep kept _ ih =>
    rcases mem_cons.mp hsource with rfl | hrest
    · exact mem_cons_self
    · exact mem_cons_of_mem kept (ih hrest)
  | add hadded _ ih =>
    rcases mem_cons.mp hsource with rfl | hrest
    · rw [hadded] at hurl
      cases hurl
    · exact ih hrest

theorem listed_iff :
    Listed protectedUrl requestUrl redirectStatus before ↔
      Listed protectedUrl requestUrl redirectStatus after := by
  constructor
  · intro ⟨source, hmem, hlisted⟩
    exact ⟨source, h.subset hmem, hlisted⟩
  · intro ⟨source, hmem, hne, hnone, hmatch⟩
    refine ⟨source, h.mem_before hmem ?_, hne, hnone, hmatch⟩
    rw [Bool.eq_false_iff]
    intro honly
    rw [sourceExpressionMatches_of_scriptOnly honly] at hmatch
    cases hmatch

theorem strictDynamic (hdynamic : StrictDynamic before) : StrictDynamic after := by
  obtain ⟨⟨keyword, hkeyword, hkind⟩, nonce, hnonce, hvalue⟩ := hdynamic
  exact ⟨⟨keyword, h.subset hkeyword, hkind⟩, nonce, h.subset hnonce, hvalue⟩

end

section
variable {lists lists' : List (List Text)} (h : List.Forall₂ AddsScriptSources lists lists')
include h

theorem forall_listed_iff :
    (∀ sources ∈ lists, Listed protectedUrl requestUrl redirectStatus sources) ↔
      ∀ sources ∈ lists', Listed protectedUrl requestUrl redirectStatus sources := by
  induction h with
  | nil => exact Iff.rfl
  | cons hadds _ ih => rw [forall_mem_cons, forall_mem_cons, ih, hadds.listed_iff]

theorem forall_inactive (hinactive : ∀ sources ∈ lists', ¬StrictDynamic sources) :
    ∀ sources ∈ lists, ¬StrictDynamic sources := by
  induction h with
  | nil => exact hinactive
  | cons hadds _ ih =>
    rw [forall_mem_cons] at hinactive ⊢
    exact ⟨fun hdynamic => hinactive.1 (hadds.strictDynamic hdynamic), ih hinactive.2⟩

end

end AddsScriptSources

/-! ## Lists of policies -/

variable {policies before : List ContentSecurityPolicy} {kind : ContentSecurityPolicyResourceKind}

/-- The sources of the directive that governs a kind of resource. -/
def effectiveSources (kind : ContentSecurityPolicyResourceKind) (policy : ContentSecurityPolicy) :
    Option (List Text) :=
  (effectiveSourceListWithDirective policy kind).map (·.2)

def governingLists (kind : ContentSecurityPolicyResourceKind)
    (policies : List ContentSecurityPolicy) : List (List Text) :=
  policies.filterMap (effectiveSources kind)

theorem forall_governingLists {P : List Text → Prop} :
    (∀ sources ∈ governingLists kind policies, P sources) ↔
      ∀ policy ∈ policies, ∀ sources, effectiveSources kind policy = some sources → P sources := by
  simp only [governingLists]
  grind

theorem allowsUrl_iff :
    contentSecurityPolicyAllowsUrlWithRedirectStatus policies protectedUrl requestUrl kind
        redirectStatus = true ↔
      ∀ sources ∈ governingLists kind policies,
        Listed protectedUrl requestUrl redirectStatus sources := by
  unfold contentSecurityPolicyAllowsUrlWithRedirectStatus
  rw [forall_governingLists, all_eq_true]
  refine forall₂_congr fun policy _ => ?_
  unfold effectiveSources
  cases effectiveSourceListWithDirective policy kind with
  | none => simp
  | some found => simp [sourceListAllows_iff]

variable {platform : Platform} {blockedUrl : Url} {disposition : ContentSecurityPolicyDisposition}
  {reportingEndpoints : ContentSecurityPolicyReportingEndpoints}

theorem noViolation_iff :
    contentSecurityPolicyUrlViolation platform policies protectedUrl requestUrl blockedUrl kind
        redirectStatus disposition reportingEndpoints .standard = none ↔
      ∀ sources ∈ governingLists kind policies,
        ¬StrictDynamic sources ∧ Listed protectedUrl requestUrl redirectStatus sources := by
  unfold contentSecurityPolicyUrlViolation
  rw [forall_governingLists, findSome?_eq_none_iff]
  refine forall₂_congr fun policy _ => ?_
  unfold effectiveSources
  cases effectiveSourceListWithDirective policy kind with
  | none => simp
  | some found => simp [← allowsStandard_iff]

/-- Policy by policy, the governing directive is the same up to added sources for scripts. -/
def AddsToEffectiveDirective (kind : ContentSecurityPolicyResourceKind) :
    List ContentSecurityPolicy → List ContentSecurityPolicy → Prop :=
  List.Forall₂ fun before after =>
    Option.Rel AddsScriptSources (effectiveSources kind before) (effectiveSources kind after)

namespace AddsToEffectiveDirective

section
variable (h : AddsToEffectiveDirective kind before policies)
include h

theorem governing :
    List.Forall₂ AddsScriptSources (governingLists kind before) (governingLists kind policies) :=
  rel_filterMap (fun _ _ hadds => hadds) h

theorem allows_eq :
    contentSecurityPolicyAllowsUrlWithRedirectStatus before protectedUrl requestUrl kind
      redirectStatus =
      contentSecurityPolicyAllowsUrlWithRedirectStatus policies protectedUrl requestUrl kind
        redirectStatus := by
  rw [Bool.eq_iff_iff, allowsUrl_iff, allowsUrl_iff]
  exact AddsScriptSources.forall_listed_iff h.governing

end

end AddsToEffectiveDirective

/-! ## Both kinds of sources can be added -/

variable {policy : ContentSecurityPolicy} {name : String}

/-- Adds sources to a directive. -/
def ContentSecurityPolicy.addSources (policy : ContentSecurityPolicy) (name : String)
    (added : List Text) : ContentSecurityPolicy where
  serialized := policy.serialized
  directiveSet := policy.directiveSet.map fun directive =>
    if directive.name = name then ⟨name, added ++ directive.value⟩ else directive

theorem directiveSourceList_addSources (added : List Text) (other : String) :
    directiveSourceList (policy.addSources name added) other =
      (directiveSourceList policy other).map fun sources =>
        if other = name then added ++ sources else sources := by
  unfold directiveSourceList ContentSecurityPolicy.sources ContentSecurityPolicy.addSources
  -- the names stay, so the same directive is found
  have hname : (fun directive : Directive => decide (directive.name = other)) ∘
      (fun directive => if directive.name = name then ⟨name, added ++ directive.value⟩
      else directive) = fun directive => decide (directive.name = other) := by
    funext directive
    by_cases h : directive.name = name
    · simp [h]
    · simp [h]
  rw [find?_map, hname]
  cases hfound : policy.directiveSet.find? fun directive => directive.name = other with
  | none => rfl
  | some directive =>
    obtain rfl : directive.name = other := by simpa using find?_some hfound
    by_cases h : directive.name = name
    · simp [h]
    · simp [h]

/-- To a directive that governs the kind, sources can be added that activate `'strict-dynamic'`. -/
theorem exists_strictDynamic (kind : ContentSecurityPolicyResourceKind)
    (policy : ContentSecurityPolicy) :
    ∃ after,
      Option.Rel AddsScriptSources (effectiveSources kind policy) (effectiveSources kind after) ∧
      ∀ sources, effectiveSources kind after = some sources → StrictDynamic sources := by
  cases hgoverns : effectiveSourceListWithDirective policy kind with
  | none =>
    have hnone : effectiveSources kind policy = none := by
      rw [effectiveSources, hgoverns, Option.map_none]
    refine ⟨policy, ?_, fun sources hsources => ?_⟩
    · rw [hnone]
      exact .none
    · cases hnone.symm.trans hsources
  | some found =>
    obtain ⟨skipped, name, rest, hfallbacks, hname, hskipped⟩ :=
      findSome?_eq_some_iff.mp hgoverns
    obtain ⟨sources, hsources, rfl⟩ := Option.map_eq_some_iff.mp hname
    let added : List Text := ["'strict-dynamic'".toList, "'nonce-abc'".toList]
    have hafter : effectiveSourceListWithDirective (policy.addSources name added) kind =
        some (kind.effectiveDirective, added ++ sources) := by
      refine findSome?_eq_some_iff.mpr ⟨skipped, name, rest, hfallbacks, ?_, ?_⟩
      · simp [directiveSourceList_addSources, hsources]
      · intro other hother
        simpa [directiveSourceList_addSources] using hskipped other hother
    refine ⟨policy.addSources name added, ?_, fun sources' hsources' => ?_⟩
    · rw [effectiveSources, effectiveSources, hgoverns, hafter]
      exact .some (.add (by decide) (.add (by decide) (.refl sources)))
    · rw [effectiveSources, hafter] at hsources'
      obtain rfl := Option.some.inj hsources'
      exact ⟨⟨_, mem_cons_self, by decide⟩, _, mem_cons_of_mem _ mem_cons_self,
        by decide⟩

/-- Every policy gets such sources in the directive that governs the kind. -/
theorem AddsToEffectiveDirective.exists_strictDynamic (kind : ContentSecurityPolicyResourceKind)
    (policies : List ContentSecurityPolicy) :
    ∃ after, AddsToEffectiveDirective kind policies after ∧
      ∀ sources ∈ governingLists kind after, StrictDynamic sources := by
  choose add hadds hdynamic using Csp.exists_strictDynamic kind
  refine ⟨policies.map add, ?_, ?_⟩
  · rw [AddsToEffectiveDirective, forall₂_map_right_iff, forall₂_same]
    exact fun policy _ => hadds policy
  · rw [forall_governingLists, forall_mem_map]
    exact fun policy _ => hdynamic policy

/-! ## When the checks agree -/

/-- No governing list activates `'strict-dynamic'`, or one of them does not list the URL. -/
def Undisturbed (policies : List ContentSecurityPolicy) (protectedUrl requestUrl : Url)
    (kind : ContentSecurityPolicyResourceKind)
    (redirectStatus : ContentSecurityPolicyRedirectStatus) :
    Prop :=
  (∀ sources ∈ governingLists kind policies, ¬StrictDynamic sources) ∨
    ¬∀ sources ∈ governingLists kind policies, Listed protectedUrl requestUrl redirectStatus sources

theorem Undisturbed.of_added (h : Undisturbed policies protectedUrl requestUrl kind redirectStatus)
    (hadds : AddsToEffectiveDirective kind before policies) :
    Undisturbed before protectedUrl requestUrl kind redirectStatus := by
  rcases h with hinactive | hunlisted
  · exact .inl (AddsScriptSources.forall_inactive hadds.governing hinactive)
  · refine .inr fun hlisted => hunlisted ?_
    exact (AddsScriptSources.forall_listed_iff hadds.governing).mp hlisted

theorem undisturbed_iff :
    Undisturbed policies protectedUrl requestUrl kind redirectStatus ↔
      (contentSecurityPolicyUrlViolation platform policies protectedUrl requestUrl blockedUrl kind
          redirectStatus disposition reportingEndpoints .standard = none ↔
        contentSecurityPolicyAllowsUrlWithRedirectStatus policies protectedUrl requestUrl kind
          redirectStatus = true) := by
  rw [noViolation_iff, allowsUrl_iff]
  constructor
  · intro h
    refine ⟨fun hall sources hsources => (hall sources hsources).2,
      fun hlisted sources hsources => ?_⟩
    rcases h with hinactive | hunlisted
    · exact ⟨hinactive sources hsources, hlisted sources hsources⟩
    · exact absurd hlisted hunlisted
  · intro h
    by_cases hlisted : ∀ sources ∈ governingLists kind policies,
        Listed protectedUrl requestUrl redirectStatus sources
    · exact .inl fun sources hsources => (h.mpr hlisted sources hsources).1
    · exact .inr hlisted

/-- No list governs the kind of resource, or one of them does not list the URL. -/
def Settled (policies : List ContentSecurityPolicy) (protectedUrl requestUrl : Url)
    (kind : ContentSecurityPolicyResourceKind)
    (redirectStatus : ContentSecurityPolicyRedirectStatus) :
    Prop :=
  governingLists kind policies = [] ∨
    ¬∀ sources ∈ governingLists kind policies, Listed protectedUrl requestUrl redirectStatus sources

theorem Undisturbed.of_settled (h : Settled policies protectedUrl requestUrl kind redirectStatus) :
    Undisturbed policies protectedUrl requestUrl kind redirectStatus := by
  rcases h with hnil | hunlisted
  · refine .inl fun sources hsources => ?_
    rw [hnil] at hsources
    cases hsources
  · exact .inr hunlisted

/-- No addition activates `'strict-dynamic'` on a URL that is listed everywhere. -/
theorem settled_iff :
    Settled policies protectedUrl requestUrl kind redirectStatus ↔
      ∀ after, AddsToEffectiveDirective kind policies after →
        Undisturbed after protectedUrl requestUrl kind redirectStatus := by
  constructor
  · rintro (hnil | hunlisted) after hadds
    · have hgoverning := hadds.governing
      rw [hnil, forall₂_nil_left_iff] at hgoverning
      exact .of_settled (.inl hgoverning)
    · refine .inr fun hlisted => hunlisted ?_
      exact (AddsScriptSources.forall_listed_iff hadds.governing).mpr hlisted
  · intro h
    obtain ⟨after, hadds, hdynamic⟩ := AddsToEffectiveDirective.exists_strictDynamic kind policies
    rcases h after hadds with hinactive | hunlisted
    · -- every list of `after` is active, so there is none, and there was none before
      have hnil : governingLists kind after = [] :=
        eq_nil_iff_forall_not_mem.mpr fun sources hsources =>
          hinactive sources hsources (hdynamic sources hsources)
      have hgoverning := hadds.governing
      rw [hnil, forall₂_nil_right_iff] at hgoverning
      exact .inl hgoverning
    · refine .inr fun hlisted => hunlisted ?_
      exact (AddsScriptSources.forall_listed_iff hadds.governing).mp hlisted

/-- When the checks agree and additions of sources for scripts change neither of them, for one
addition and for all. -/
theorem url_checks_agree_iff (platform : Platform) (policies : List ContentSecurityPolicy)
    (protectedUrl requestUrl blockedUrl : Url) (kind : ContentSecurityPolicyResourceKind)
    (redirectStatus : ContentSecurityPolicyRedirectStatus)
    (disposition : ContentSecurityPolicyDisposition)
    (reportingEndpoints : ContentSecurityPolicyReportingEndpoints) :
    let violation :=
      fun policies => contentSecurityPolicyUrlViolation platform policies protectedUrl
      requestUrl blockedUrl kind redirectStatus disposition reportingEndpoints .standard
    let allows :=
      fun policies => contentSecurityPolicyAllowsUrlWithRedirectStatus policies protectedUrl
      requestUrl kind redirectStatus
    let agree := violation policies = none ↔ allows policies = true
    let unchanged := fun after =>
      allows after = allows policies ∧ (violation after = none ↔ violation policies = none)
    (agree ↔ Undisturbed policies protectedUrl requestUrl kind redirectStatus) ∧
      (∀ after, AddsToEffectiveDirective kind policies after →
        (agree ∧ unchanged after ↔ Undisturbed after protectedUrl requestUrl kind redirectStatus)) ∧
      ((agree ∧ ∀ after, AddsToEffectiveDirective kind policies after → unchanged after) ↔
        Settled policies protectedUrl requestUrl kind redirectStatus) := by
  intro violation allows agree unchanged
  have hone : ∀ after, AddsToEffectiveDirective kind policies after →
      (agree ∧ unchanged after ↔
        Undisturbed after protectedUrl requestUrl kind redirectStatus) := by
    intro after hadds
    have hallows : allows after = allows policies := hadds.allows_eq.symm
    constructor
    · rintro ⟨hagree, -, hviolation⟩
      rw [undisturbed_iff, hadds.allows_eq.symm]
      exact hviolation.trans hagree
    · intro h
      have hagree : agree := undisturbed_iff.mp (h.of_added hadds)
      rw [undisturbed_iff, hadds.allows_eq.symm] at h
      exact ⟨hagree, hallows, h.trans hagree.symm⟩
  refine ⟨undisturbed_iff.symm, hone, ?_⟩
  rw [settled_iff]
  constructor
  · exact fun h after hadds => (hone after hadds).mp ⟨h.1, h.2 after hadds⟩
  · intro h
    refine ⟨undisturbed_iff.mp (.of_settled (settled_iff.mpr h)), fun after hadds => ?_⟩
    exact ((hone after hadds).mpr (h after hadds)).2

/-! ## An image that only one check allows -/

def imagePolicy (sources : List String) : ContentSecurityPolicy where
  serialized := ("img-src " ++ " ".intercalate sources).toList
  directiveSet := [⟨"img-src", sources.map String.toList⟩]

def httpsUrl (host path : String) : Url where
  scheme := "https".toList
  username := []
  password := none
  host := some host.toList
  port := none
  path := path.toList
  query := none
  fragment := none

/-- A URL library for which every URL is written without a query and nothing can be joined. -/
def plainUrls : Platform where
  serialize url := url.scheme ++ "://".toList ++ url.host.getD [] ++ url.path
  join _ _ := none

/-- An image of a listed host is allowed by one check and reported by the other; without the nonce
it is reported by none. -/
theorem listed_image_reported :
    contentSecurityPolicyAllowsUrlWithRedirectStatus
        [imagePolicy ["'strict-dynamic'", "'nonce-abc'", "https://cdn.test"]]
        (httpsUrl "page.test" "/")
        (httpsUrl "cdn.test" "/x.png") .documentImage .noRedirect = true ∧
      (contentSecurityPolicyUrlViolation plainUrls
        [imagePolicy ["'strict-dynamic'", "'nonce-abc'", "https://cdn.test"]]
        (httpsUrl "page.test" "/")
        (httpsUrl "cdn.test" "/x.png")
        (httpsUrl "cdn.test" "/x.png") .documentImage .noRedirect .enforce ⟨∅⟩
        .standard).isSome = true ∧
      (contentSecurityPolicyUrlViolation plainUrls
        [imagePolicy ["'strict-dynamic'", "https://cdn.test"]] (httpsUrl "page.test" "/")
        (httpsUrl "cdn.test" "/x.png")
        (httpsUrl "cdn.test" "/x.png") .documentImage .noRedirect .enforce ⟨∅⟩
        .standard).isNone = true := by
  decide +kernel

end Moli.Csp
