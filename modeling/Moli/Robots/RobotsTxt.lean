import Mathlib.Data.List.ModifyLast
import Moli.Lib.Search
import Moli.Lib.Text

/-!
# Robots documents

Rule paths and user agents as `moli-robots` matches them, and asking a `robots.txt` document whether
a user agent may fetch a target. The lower case of a text is that of Unicode and a parameter.
Offsets and lengths of the matcher are counted in characters, which makes no difference to what is
matched; the length of an agent is that of its UTF-8 text.
-/

namespace Moli.Robots

open Lib

abbrev Text := List Char

def hexDigits : List Char := "0123456789ABCDEF".toList

def isHexDigit (c : Char) : Bool := c.isDigit || ('a' ≤ c && c ≤ 'f') || ('A' ≤ c && c ≤ 'F')

/-- The two digits of a byte after a percent sign. -/
def pushPercentEncoded (byte : UInt8) : Text :=
  ['%', hexDigits.getD (byte >>> 4).toNat '0', hexDigits.getD (byte &&& 0x0F).toNat '0']

/-- Escapes get upper case digits, and what is not ASCII is escaped. -/
def normalizePercentEncoding : Text → Text
  | '%' :: high :: low :: rest =>
    if isHexDigit high && isHexDigit low then
      '%' :: high.toUpper :: low.toUpper :: normalizePercentEncoding rest
    else '%' :: normalizePercentEncoding (high :: low :: rest)
  | c :: rest =>
    (if c.toNat < 128 then [c] else (String.utf8EncodeChar c).flatMap pushPercentEncoded) ++
      normalizePercentEncoding rest
  | [] => []

/-- The loop over the pieces after the first wildcard. -/
def matchTrailing (anchoredToEnd : Bool) : List Text → Text → Bool
  | [], _ => true
  | piece :: more, rest =>
    if more.isEmpty && anchoredToEnd then piece.isSuffixOf rest
    else
      match findSub piece rest with
      | some offset => matchTrailing anchoredToEnd more (rest.drop (offset + piece.length))
      | none => false

/-- The pattern without a final `$`, and whether it had one. -/
def anchor (pattern : Text) : Text × Bool :=
  if pattern.getLast? = some '$' then (pattern.dropLast, true) else (pattern, false)

def patternMatches (pattern requestTarget : Text) : Bool :=
  let (body, anchoredToEnd) := anchor pattern
  match body.splitOn '*' with
  | [] => false
  | leading :: trailing =>
    if leading.isPrefixOf requestTarget then
      let rest := requestTarget.drop leading.length
      if trailing.isEmpty then !anchoredToEnd || rest.isEmpty
      else matchTrailing anchoredToEnd trailing rest
    else false

def agentSpecificity (groupAgent lowercaseUserAgent : Text) : Option Nat :=
  if groupAgent = ['*'] then some 0
  else if groupAgent.isEmpty then none
  else if (findSub groupAgent lowercaseUserAgent).isSome then
    some (groupAgent.map Char.utf8Size).sum
  else none

/-! ## Documents -/

open Lib.Text

structure Rule where
  allow : Bool
  pattern : Text

structure Group where
  /-- In lower case. -/
  agents : List Text
  rules : List Rule

structure RobotsTxt where
  groups : List Group

def Group.specificity (group : Group) (lowercaseUserAgent : Text) : Option Nat :=
  (group.agents.filterMap (agentSpecificity · lowercaseUserAgent)).max?

/-- A decision after one more rule that matches: the longest pattern wins, and Allow wins a tie. -/
def decideRule (decision : Option (Nat × Bool)) (rule : Rule) : Option (Nat × Bool) :=
  let length := rule.pattern.length
  match decision with
  | some (best, allow) =>
    if best > length || (best = length && allow) then some (best, allow)
    else some (length, rule.allow)
  | none => some (length, rule.allow)

namespace RobotsTxt

variable (lower : Text → Text) (robots : RobotsTxt)

def bestSpecificity (lowercaseUserAgent : Text) : Option Nat :=
  (robots.groups.filterMap (·.specificity lowercaseUserAgent)).max?

def matchingRules (lowercaseUserAgent : Text) (specificity : Nat) : List Rule :=
  (robots.groups.filter fun group => group.specificity lowercaseUserAgent =
    some specificity).flatMap (·.rules)

def allows (userAgent requestTarget : Text) : Bool :=
  let requestTarget := normalizePercentEncoding requestTarget
  let lowercaseUserAgent := lower userAgent
  match robots.bestSpecificity lowercaseUserAgent with
  | none => true
  | some specificity =>
    let rules := robots.matchingRules lowercaseUserAgent specificity
    let decision := rules.foldl (fun decision rule =>
      if patternMatches rule.pattern requestTarget then decideRule decision rule else decision) none
    decision.all (·.2)

/-! ## Parsing -/

/-- The field name of a line in lower case, and its value. -/
def splitField (line : Text) : Option (Text × Text) :=
  let line := match splitOnce '#' line with
    | some (before, _) => before
    | none => line
  match splitOnce ':' line with
  | none => none
  | some (field, value) =>
    let field := lower (trim field)
    if field.isEmpty then none else some (field, trim value)

/-- The groups so far, and whether a user agent starts a new one. -/
structure Parse where
  groups : List Group
  startNewGroup : Bool

def Parse.line (parse : Parse) (line : Text) : Parse :=
  match splitField lower line with
  | none => parse
  | some (field, value) =>
    if field = "user-agent".toList || field = "useragent".toList then
      let groups := if parse.startNewGroup then parse.groups ++ [⟨[], []⟩] else parse.groups
      ⟨groups.modifyLast fun group => { group with agents := group.agents ++ [lower value] }, false⟩
    else if field = "allow".toList || field = "disallow".toList then
      if parse.groups.isEmpty then parse
      else if value.isEmpty then { parse with startNewGroup := true }
      else
        let rule : Rule := ⟨field = "allow".toList, normalizePercentEncoding value⟩
        ⟨parse.groups.modifyLast fun group => { group with rules := group.rules ++ [rule] }, true⟩
    else parse

/-- Lines end with a newline, and a carriage return before it is dropped. -/
def lines (text : Text) : List Text :=
  let pieces := text.splitOn '\n'
  let ended := pieces.dropLast.map fun line =>
    if line.getLast? = some '\r' then line.dropLast else line
  let last := pieces.getLast?.getD []
  if last.isEmpty then ended else ended ++ [last]

def parse (text : Text) : RobotsTxt :=
  ⟨((lines (text.dropWhile (· = Char.ofNat 0xFEFF))).foldl (Parse.line lower) ⟨[], true⟩).groups⟩

end RobotsTxt

end Moli.Robots
