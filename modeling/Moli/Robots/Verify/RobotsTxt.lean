import Moli.Robots.RobotsTxt

/-!
# Patterns and precedence

The greedy matcher finds a way to match whenever there is one (`patternMatches_iff`), and the
running decision is that of the longest matching patterns (`allows_iff`). Both only speak of which
rules there are for which agents, so the order of groups and rules does not matter (`robots_rules`).
What the parser keeps of a document is well formed (`parse_wellFormed`).
-/

namespace Moli.Robots

open Lib Lib.Glob List

/-! ## Patterns -/

/-- The meaning of a pattern: with a final `$` it stands for the whole target, otherwise for a start
of it. -/
def Matches (pattern target : Text) : Prop :=
  if pattern.getLast? = some '$' then Denotes '*' pattern.dropLast target
  else ∃ start, start <+: target ∧ Denotes '*' pattern start

section Trailing

variable {piece rest : Text} {pieces : List Text}

/-- The pieces stand in the rest after any run, up to its end if they are anchored there. -/
def FitsAfter (anchoredToEnd : Bool) (pieces : List Text) (rest : Text) : Prop :=
  ∃ run text after, rest = run ++ (text ++ after) ∧ (anchoredToEnd = true → after = []) ∧
    Fits pieces text

theorem fitsAfter_last {anchoredToEnd : Bool} :
    FitsAfter anchoredToEnd [piece] rest ↔
      if anchoredToEnd then piece <:+ rest else ∃ offset, findSub piece rest = some offset := by
  cases anchoredToEnd with
  | true =>
    constructor
    · rintro ⟨run, text, after, rfl, hafter, hfits⟩
      cases hfits
      rw [hafter rfl, append_nil]
      exact suffix_append run piece
    · rintro ⟨run, rfl⟩
      exact ⟨run, piece, [], by rw [append_nil], fun _ => rfl, .last piece⟩
  | false =>
    constructor
    · rintro ⟨run, text, after, rfl, -, hfits⟩
      cases hfits
      obtain ⟨offset, hoffset, -⟩ := exists_findSub (append_assoc run piece after).symm
      exact ⟨offset, hoffset⟩
    · rintro ⟨offset, hoffset⟩
      obtain ⟨run, after, rfl, -⟩ := findSub_split hoffset
      exact ⟨run, piece, after, append_assoc .., fun h => (by cases h), .last piece⟩

/-- Taking the first place of a piece leaves the others every chance. -/
theorem fitsAfter_cons {anchoredToEnd : Bool} {second : Text} :
    FitsAfter anchoredToEnd (piece :: second :: pieces) rest ↔
      ∃ offset, findSub piece rest = some offset ∧
        FitsAfter anchoredToEnd (second :: pieces) (rest.drop (offset + piece.length)) := by
  constructor
  · rintro ⟨run, text, after, rfl, hafter, hfits⟩
    cases hfits with
    | @next _ gap _ _ text h =>
      have hplace : run ++ (piece ++ (gap ++ text) ++ after) = run ++ piece ++
          (gap ++ (text ++ after)) := by
        simp only [append_assoc]
      obtain ⟨offset, hoffset, -⟩ := exists_findSub hplace
      obtain ⟨more, hmore⟩ := drop_findSub hplace hoffset
      refine ⟨offset, hoffset, more ++ gap, text, after, ?_, hafter, h⟩
      rw [hmore, append_assoc]
  · rintro ⟨offset, hoffset, run, text, after, hrest, hafter, h⟩
    obtain ⟨before, tail, rfl, hlength⟩ := findSub_split hoffset
    have hdrop : (before ++ piece ++ tail).drop (offset + piece.length) = tail := by
      rw [← hlength, ← length_append, drop_left]
    rw [hdrop] at hrest
    refine ⟨before, piece ++ (run ++ text), after, ?_, hafter, .next piece run h⟩
    rw [hrest]
    simp only [append_assoc]

theorem matchTrailing_iff {anchoredToEnd : Bool} {pieces : List Text} (hpieces : pieces ≠ []) :
    matchTrailing anchoredToEnd pieces rest = true ↔ FitsAfter anchoredToEnd pieces rest := by
  induction pieces generalizing rest with
  | nil => exact absurd rfl hpieces
  | cons piece more ih =>
    unfold matchTrailing
    cases more with
    | nil =>
      rw [fitsAfter_last, isEmpty_nil, Bool.true_and]
      cases anchoredToEnd with
      | true => simp only [if_true, isSuffixOf_iff_suffix]
      | false =>
        cases findSub piece rest <;> simp [matchTrailing]
    | cons second pieces =>
      rw [fitsAfter_cons]
      cases hfind : findSub piece rest with
      | none => simp
      | some offset =>
        simp only [Option.some.injEq, exists_eq_left']
        exact ih (cons_ne_nil _ _)

end Trailing

variable {target : Text} {decision : Option (Nat × Bool)} {groups groups' : List Group}

theorem denotes_body {body : Text} {leading : Text} {trailing : List Text} (anchoredToEnd : Bool)
    (hpieces : body.splitOn '*' = leading :: trailing) :
    (∃ start after, target = start ++ after ∧ (anchoredToEnd = true → after = []) ∧
      Denotes '*' body start) ↔ ∃ rest, target = leading ++ rest ∧
        if trailing.isEmpty then anchoredToEnd = true → rest = []
        else FitsAfter anchoredToEnd trailing rest := by
  simp only [denotes_iff_fits, hpieces]
  cases trailing with
  | nil =>
    constructor
    · rintro ⟨start, after, rfl, hafter, hfits⟩
      cases hfits
      exact ⟨after, rfl, hafter⟩
    · rintro ⟨rest, rfl, hrest⟩
      exact ⟨leading, rest, rfl, hrest, .last leading⟩
  | cons second pieces =>
    constructor
    · rintro ⟨start, after, rfl, hafter, hfits⟩
      cases hfits with
      | @next _ run _ _ text h =>
        refine ⟨run ++ (text ++ after), ?_, run, text, after, rfl, hafter, h⟩
        simp only [append_assoc]
    · rintro ⟨rest, rfl, run, text, after, rfl, hafter, h⟩
      refine ⟨leading ++ (run ++ text), after, ?_, hafter, .next leading run h⟩
      simp only [append_assoc]

theorem matches_iff {pattern : Text} : Matches pattern target ↔
    ∃ start after, target = start ++ after ∧ ((anchor pattern).2 = true → after = []) ∧
      Denotes '*' (anchor pattern).1 start := by
  unfold Matches anchor
  split
  · constructor
    · exact fun h => ⟨target, [], (append_nil _).symm, fun _ => rfl, h⟩
    · rintro ⟨start, after, rfl, hafter, h⟩
      rwa [hafter rfl, append_nil]
  · constructor
    · rintro ⟨start, ⟨after, rfl⟩, h⟩
      exact ⟨start, after, rfl, fun hfalse => (by cases hfalse), h⟩
    · rintro ⟨start, after, rfl, -, h⟩
      exact ⟨start, prefix_append _ _, h⟩

theorem patternMatches_iff {pattern : Text} :
    patternMatches pattern target = true ↔ Matches pattern target := by
  obtain ⟨leading, trailing, hpieces⟩ :=
    exists_cons_of_ne_nil (splitOn_ne_nil '*' (anchor pattern).1)
  rw [matches_iff, denotes_body _ hpieces]
  unfold patternMatches
  dsimp only
  rw [hpieces]
  dsimp only
  by_cases hleading : leading <+: target
  · obtain ⟨rest, rfl⟩ := hleading
    rw [if_pos (List.isPrefixOf_iff_prefix.mpr (prefix_append _ _)), drop_left]
    simp only [append_cancel_left_eq, exists_eq_left']
    cases trailing with
    | nil => cases (anchor pattern).2 <;> simp
    | cons second pieces =>
      exact matchTrailing_iff (cons_ne_nil _ _)
  · rw [if_neg fun h => hleading (List.isPrefixOf_iff_prefix.mp h)]
    constructor
    · exact fun h => absurd h Bool.false_ne_true
    · rintro ⟨rest, rfl, -⟩
      exact absurd (prefix_append _ _) hleading

/-! ## Precedence -/

/-- A decision after some rules: the greatest length, and whether an Allow rule has it. -/
def Decides (rules : List Rule) : Option (Nat × Bool) → Prop
  | none => rules = []
  | some (best, allow) => (∀ rule ∈ rules, rule.pattern.length ≤ best) ∧
      (∃ rule ∈ rules, rule.pattern.length = best) ∧
      (allow = true ↔ ∃ rule ∈ rules, rule.allow = true ∧ rule.pattern.length = best)

theorem decides_concat {rules : List Rule} {rule : Rule} {best : Nat} {allow : Bool} :
    Decides (rules ++ [rule]) (some (best, allow)) ↔
      ((∀ rule ∈ rules, rule.pattern.length ≤ best) ∧ rule.pattern.length ≤ best) ∧
      ((∃ rule ∈ rules, rule.pattern.length = best) ∨ rule.pattern.length = best) ∧
      (allow = true ↔ (∃ rule ∈ rules, rule.allow = true ∧ rule.pattern.length = best) ∨
        rule.allow = true ∧ rule.pattern.length = best) := by
  simp only [Decides, mem_append, mem_singleton, or_imp, forall_and, forall_eq,
    or_and_right, exists_or, exists_eq_left]

theorem Decides.concat {rules : List Rule} (h : Decides rules decision) (rule : Rule) :
    Decides (rules ++ [rule]) (decideRule decision rule) := by
  cases decision with
  | none =>
    obtain rfl : rules = [] := h
    simp [decideRule, Decides]
  | some found =>
    obtain ⟨best, allow⟩ := found
    obtain ⟨hle, ⟨longest, hlongest, hbest⟩, hallow⟩ := h
    unfold decideRule
    dsimp only
    by_cases hkeep : best > rule.pattern.length ∨ best = rule.pattern.length ∧ allow = true
    · rw [if_pos (by simpa using hkeep), decides_concat, ← hallow]
      refine ⟨⟨hle, by omega⟩, .inl ⟨longest, hlongest, hbest⟩, .inl, ?_⟩
      rintro (htrue | ⟨-, hlength⟩)
      · exact htrue
      · -- the tie was kept because it allows already
        exact (hkeep.resolve_left (by omega)).2
    · rw [if_neg (by simpa using hkeep), decides_concat]
      simp only [not_or, not_and, Nat.not_lt] at hkeep
      refine ⟨⟨fun other hother => (hle other hother).trans hkeep.1, le_rfl⟩, .inr rfl,
        fun htrue => .inr ⟨htrue, rfl⟩, ?_⟩
      rintro (⟨other, hother, htrue, hlength⟩ | ⟨htrue, -⟩)
      · have hsame : best = rule.pattern.length := hkeep.1.antisymm (hlength ▸ hle other hother)
        have hallowed := hallow.mpr ⟨other, hother, htrue, hlength.trans hsame.symm⟩
        exact absurd hallowed (hkeep.2 hsame)
      · exact htrue

theorem Decides.foldl {before : List Rule} (h : Decides before decision) (rules : List Rule) :
    Decides (before ++ rules) (rules.foldl decideRule decision) := by
  induction rules generalizing before decision with
  | nil => rwa [append_nil]
  | cons rule rules ih =>
    have hrest := ih (h.concat rule)
    rwa [append_assoc] at hrest

theorem Decides.all_iff {rules : List Rule} (h : Decides rules decision) :
    decision.all (·.2) = true ↔ rules = [] ∨ ∃ rule ∈ rules, rule.allow = true ∧
      ∀ other ∈ rules, other.pattern.length ≤ rule.pattern.length := by
  cases decision with
  | none =>
    obtain rfl : rules = [] := h
    simp
  | some found =>
    obtain ⟨hle, ⟨longest, hlongest, hbest⟩, hallow⟩ := h
    rw [Option.all_some, hallow]
    constructor
    · rintro ⟨rule, hrule, htrue, hlength⟩
      exact .inr ⟨rule, hrule, htrue, fun other hother => hlength ▸ hle other hother⟩
    · rintro (rfl | ⟨rule, hrule, htrue, hgreatest⟩)
      · cases hlongest
      · refine ⟨rule, hrule, htrue, ?_⟩
        have := hle rule hrule
        have := hgreatest longest hlongest
        omega

/-- A rule of the groups that match the agent most specifically. -/
def Applies (groups : List Group) (agent : Text) (rule : Rule) : Prop :=
  ∃ group ∈ groups, rule ∈ group.rules ∧ ∃ n, group.specificity agent = some n ∧
    ∀ other ∈ groups, ∀ m, other.specificity agent = some m → m ≤ n

namespace RobotsTxt

variable {lower : Text → Text} {robots : RobotsTxt} {agent : Text}

theorem bestSpecificity_eq_some {n : Nat} : robots.bestSpecificity agent = some n ↔
    (∃ group ∈ robots.groups, group.specificity agent = some n) ∧
      ∀ other ∈ robots.groups, ∀ m, other.specificity agent = some m → m ≤ n := by
  unfold bestSpecificity
  rw [max?_eq_some_iff]
  simp only [mem_filterMap]
  constructor
  · rintro ⟨hmem, hle⟩
    exact ⟨hmem, fun other hother m hm => hle m ⟨other, hother, hm⟩⟩
  · rintro ⟨hmem, hle⟩
    refine ⟨hmem, ?_⟩
    rintro m ⟨other, hother, hm⟩
    exact hle other hother m hm

theorem mem_matchingRules {n : Nat} (h : robots.bestSpecificity agent = some n) {rule : Rule} :
    rule ∈ robots.matchingRules agent n ↔ Applies robots.groups agent rule := by
  obtain ⟨⟨best, hbest, hn⟩, hle⟩ := bestSpecificity_eq_some.mp h
  unfold matchingRules Applies
  simp only [mem_flatMap, mem_filter, decide_eq_true_eq]
  constructor
  · rintro ⟨group, ⟨hgroup, hspecificity⟩, hrule⟩
    exact ⟨group, hgroup, hrule, n, hspecificity, hle⟩
  · rintro ⟨group, hgroup, hrule, m, hspecificity, hgreatest⟩
    have hsame : m = n :=
      Nat.le_antisymm (hle group hgroup m hspecificity) (hgreatest best hbest n hn)
    exact ⟨group, ⟨hgroup, hsame ▸ hspecificity⟩, hrule⟩

theorem allows_iff {userAgent : Text} : robots.allows lower userAgent target = true ↔
    (∀ rule, Applies robots.groups (lower userAgent) rule →
      ¬Matches rule.pattern (normalizePercentEncoding target)) ∨
    ∃ rule, Applies robots.groups (lower userAgent) rule ∧
      Matches rule.pattern (normalizePercentEncoding target) ∧ rule.allow = true ∧
      ∀ other, Applies robots.groups (lower userAgent) other →
        Matches other.pattern (normalizePercentEncoding target) →
          other.pattern.length ≤ rule.pattern.length := by
  unfold allows
  dsimp only
  cases hbest : robots.bestSpecificity (lower userAgent) with
  | none =>
    -- no group speaks to the agent
    simp only [true_iff]
    refine .inl ?_
    rintro rule ⟨group, hgroup, -, n, hn, -⟩
    have hnone : n ∈ robots.groups.filterMap (·.specificity (lower userAgent)) :=
      mem_filterMap.mpr ⟨group, hgroup, hn⟩
    rw [bestSpecificity, max?_eq_none_iff] at hbest
    rw [hbest] at hnone
    cases hnone
  | some n =>
    dsimp only
    rw [← foldl_filter]
    have hdecides := (show Decides [] none from rfl).foldl
      ((robots.matchingRules (lower userAgent) n).filter
        fun rule => patternMatches rule.pattern (normalizePercentEncoding target))
    rw [nil_append] at hdecides
    rw [hdecides.all_iff, filter_eq_nil_iff]
    simp only [mem_filter, mem_matchingRules hbest, patternMatches_iff, and_assoc, and_imp]

end RobotsTxt

/-! ## The order of groups and rules -/

/-- Groups are permuted, and the rules of groups with the same agents are permuted and distributed
over other groups with these agents. -/
inductive Rearranged : List Group → List Group → Prop where
  | groups {groups groups' : List Group} (h : groups.Perm groups') : Rearranged groups groups'
  | rules {agents agents' : List Text} {parts parts' : List (List Rule)} (rest : List Group)
      (hagents : agents.Perm agents') (hparts : parts ≠ []) (hparts' : parts' ≠ [])
      (h : parts.flatten.Perm parts'.flatten) :
      Rearranged (parts.map (Group.mk agents) ++ rest) (parts'.map (Group.mk agents') ++ rest)
  | trans {groups groups' groups'' : List Group} (h : Rearranged groups groups')
      (h' : Rearranged groups' groups'') : Rearranged groups groups''

/-- The same agents have groups, and the same rules. -/
structure SameRules (groups groups' : List Group) : Prop where
  agents : ∀ group ∈ groups, ∃ group' ∈ groups', group.agents.Perm group'.agents
  rules : ∀ group ∈ groups, ∀ rule ∈ group.rules,
    ∃ group' ∈ groups', group.agents.Perm group'.agents ∧ rule ∈ group'.rules

theorem specificity_perm {group group' : Group} (h : group.agents.Perm group'.agents)
    (agent : Text) : group.specificity agent = group'.specificity agent := by
  unfold Group.specificity
  have hperm := h.filterMap (agentSpecificity · agent)
  ext n
  simp only [max?_eq_some_iff, hperm.mem_iff]

theorem SameRules.applies (h : SameRules groups groups') (h' : SameRules groups' groups)
    {agent : Text} {rule : Rule} (hrule : Applies groups agent rule) :
    Applies groups' agent rule := by
  obtain ⟨group, hgroup, hmem, n, hn, hgreatest⟩ := hrule
  obtain ⟨group', hgroup', hagents, hmem'⟩ := h.rules group hgroup rule hmem
  refine ⟨group', hgroup', hmem', n, (specificity_perm hagents agent).symm.trans hn, ?_⟩
  intro other' hother' m hm
  obtain ⟨other, hother, hsame⟩ := h'.agents other' hother'
  exact hgreatest other hother m ((specificity_perm hsame agent).symm.trans hm)

theorem SameRules.trans {groups'' : List Group} (h : SameRules groups groups')
    (h' : SameRules groups' groups'') : SameRules groups groups'' where
  agents group hgroup := by
    obtain ⟨group', hgroup', hagents⟩ := h.agents group hgroup
    obtain ⟨group'', hgroup'', hagents'⟩ := h'.agents group' hgroup'
    exact ⟨group'', hgroup'', hagents.trans hagents'⟩
  rules group hgroup rule hrule := by
    obtain ⟨group', hgroup', hagents, hrule'⟩ := h.rules group hgroup rule hrule
    obtain ⟨group'', hgroup'', hagents', hrule''⟩ := h'.rules group' hgroup' rule hrule'
    exact ⟨group'', hgroup'', hagents.trans hagents', hrule''⟩

theorem SameRules.of_perm (h : groups.Perm groups') : SameRules groups groups'  where
  agents group hgroup := ⟨group, h.subset hgroup, .refl _⟩
  rules group hgroup _ hrule := ⟨group, h.subset hgroup, .refl _, hrule⟩

theorem SameRules.of_parts {agents agents' : List Text} {parts parts' : List (List Rule)}
    (rest : List Group) (hagents : agents.Perm agents') (hparts' : parts' ≠ [])
    (h : parts.flatten.Perm parts'.flatten) :
    SameRules (parts.map (Group.mk agents) ++ rest) (parts'.map (Group.mk agents') ++ rest) where
  agents group hgroup := by
    rcases mem_append.mp hgroup with hpart | hrest
    · obtain ⟨part, -, rfl⟩ := mem_map.mp hpart
      obtain ⟨part', more, rfl⟩ := exists_cons_of_ne_nil hparts'
      exact ⟨_, mem_append_left _ mem_cons_self, hagents⟩
    · exact ⟨group, mem_append_right _ hrest, .refl _⟩
  rules group hgroup rule hrule := by
    rcases mem_append.mp hgroup with hpart | hrest
    · obtain ⟨part, hmem, rfl⟩ := mem_map.mp hpart
      have hflat : rule ∈ parts'.flatten := h.subset (mem_flatten.mpr ⟨part, hmem, hrule⟩)
      obtain ⟨part', hmem', hrule'⟩ := mem_flatten.mp hflat
      exact ⟨_, mem_append_left _ (mem_map_of_mem hmem'), hagents, hrule'⟩
    · exact ⟨group, mem_append_right _ hrest, .refl _, hrule⟩

theorem Rearranged.sameRules (h : Rearranged groups groups') :
    SameRules groups groups' ∧ SameRules groups' groups := by
  induction h with
  | groups h => exact ⟨.of_perm h, .of_perm h.symm⟩
  | rules rest hagents hparts hparts' h =>
    exact ⟨.of_parts rest hagents hparts' h, .of_parts rest hagents.symm hparts h.symm⟩
  | trans _ _ ih ih' => exact ⟨ih.1.trans ih'.1, ih'.2.trans ih.2⟩

theorem Rearranged.allows_eq {lower : Text → Text} {robots robots' : RobotsTxt}
    (h : Rearranged robots.groups robots'.groups) (userAgent target : Text) :
    robots'.allows lower userAgent target = robots.allows lower userAgent target := by
  obtain ⟨hsame, hsame'⟩ := h.sameRules
  have happlies : ∀ rule, Applies robots'.groups (lower userAgent) rule ↔
      Applies robots.groups (lower userAgent) rule := fun rule =>
    ⟨hsame'.applies hsame, hsame.applies hsame'⟩
  rw [Bool.eq_iff_iff, RobotsTxt.allows_iff, RobotsTxt.allows_iff]
  simp only [happlies]

/-- Patterns have their declarative meaning, the longest matching patterns of the most specific
groups decide with Allow winning a tie, and rearranging groups and rules changes no answer. -/
theorem robots_rules (lower : Text → Text) :
    (∀ pattern target, patternMatches pattern target = true ↔ Matches pattern target) ∧
    (∀ (robots : RobotsTxt) userAgent target, robots.allows lower userAgent target = true ↔
      (∀ rule, Applies robots.groups (lower userAgent) rule →
        ¬Matches rule.pattern (normalizePercentEncoding target)) ∨
      ∃ rule, Applies robots.groups (lower userAgent) rule ∧
        Matches rule.pattern (normalizePercentEncoding target) ∧ rule.allow = true ∧
        ∀ other, Applies robots.groups (lower userAgent) other →
          Matches other.pattern (normalizePercentEncoding target) →
            other.pattern.length ≤ rule.pattern.length) ∧
    ∀ (robots robots' : RobotsTxt) userAgent target, Rearranged robots.groups robots'.groups →
      robots'.allows lower userAgent target = robots.allows lower userAgent target :=
  ⟨fun _ _ => patternMatches_iff, fun _ _ _ => RobotsTxt.allows_iff,
    fun _ _ userAgent target h => h.allows_eq userAgent target⟩

example : (RobotsTxt.parse id "user-agent: *\ndisallow: /a*\nallow: /a/b$\n".toList).allows id
    "bot".toList "/a/b".toList = true := by
  decide +kernel

/-! ## Parsing -/

theorem normalizePercentEncoding_ne_nil {value : Text} (h : value ≠ []) :
    normalizePercentEncoding value ≠ [] := by
  fun_cases normalizePercentEncoding value with
  | case1 | case2 => simp
  | case3 c =>
    have hbytes : String.utf8EncodeChar c ≠ [] :=
      ne_nil_of_length_pos (by simp [Char.utf8Size_pos])
    split_ifs <;> simp [pushPercentEncoded, exists_mem_of_ne_nil, hbytes]
  | case4 => exact absurd rfl h

/-- The group names an agent, and its rules restrict something. -/
structure Group.WellFormed (group : Group) : Prop where
  agents : group.agents ≠ []
  rules : ∀ rule ∈ group.rules, rule.pattern ≠ []

namespace RobotsTxt

structure Parse.WellFormed (parse : Parse) : Prop where
  groups : ∀ group ∈ parse.groups, group.WellFormed
  begun : parse.startNewGroup = false → parse.groups ≠ []

theorem Parse.WellFormed.line {lower : Text → Text} {parse : Parse} (h : parse.WellFormed)
    (line : Text) : (parse.line lower line).WellFormed := by
  -- what a line does to the last group decides
  have hlast : ∀ groups group f start, (∀ group ∈ groups, group.WellFormed) →
      (f group).WellFormed → Parse.WellFormed ⟨(groups ++ [group]).modifyLast f, start⟩ := by
    intro groups group f start hgroups hgroup
    rw [modifyLast_concat]
    exact ⟨forall_mem_append.2 ⟨hgroups, forall_mem_singleton.2 hgroup⟩, fun _ => by simp⟩
  have hmodify : ∀ f start, parse.groups ≠ [] →
      (∀ group, group.WellFormed → (f group).WellFormed) →
      Parse.WellFormed ⟨parse.groups.modifyLast f, start⟩ := by
    intro f start hne hf
    have hgroups := h.groups
    rw [← dropLast_concat_getLast hne, forall_mem_append, forall_mem_singleton] at hgroups
    rw [← dropLast_concat_getLast hne]
    exact hlast _ _ f start hgroups.1 (hf _ hgroups.2)
  unfold Parse.line
  split
  · exact h
  · split_ifs with hagent hnew hrule hempty hvalue
    · exact hlast _ _ _ _ h.groups ⟨by simp, by simp⟩
    · exact hmodify _ _ (h.begun (by simpa using hnew)) fun _ hgroup => ⟨by simp, hgroup.rules⟩
    · exact h
    · exact ⟨h.groups, fun hfalse => by cases hfalse⟩
    · refine hmodify _ _ (by simpa using hempty) fun _ hgroup => ⟨hgroup.agents, ?_⟩
      have hpattern := normalizePercentEncoding_ne_nil (mt List.isEmpty_iff.2 hvalue)
      exact forall_mem_append.2 ⟨hgroup.rules, forall_mem_singleton.2 hpattern⟩
    · exact h

/-- Rules before the first agent and rules without a value leave no trace: every group of a document
names an agent, and no pattern is empty. -/
theorem parse_wellFormed (lower : Text → Text) (text : Text) :
    ∀ group ∈ (parse lower text).groups, group.WellFormed := by
  have hlines : ∀ (lines : List Text) (start : Parse), start.WellFormed →
      (lines.foldl (Parse.line lower) start).WellFormed := by
    intro lines
    induction lines with
    | nil => exact fun _ h => h
    | cons line lines ih => exact fun _ h => ih _ (h.line line)
  exact (hlines _ _ ⟨by simp, by simp⟩).groups

end RobotsTxt

end Moli.Robots
