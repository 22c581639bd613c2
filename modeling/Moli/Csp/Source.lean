import Moli.Lib.Search
import Moli.Lib.Text

/-!
# Source expressions

How one source expression of a Content Security Policy is matched against a URL, as in `checks.rs`
of `moli-csp`. A URL is given by its parts.
-/

namespace Moli.Csp

open Lib Lib.Text

abbrev Text := List Char

structure Url where
  scheme : Text
  username : Text
  password : Option Text
  host : Option Text
  port : Option Nat
  path : Text
  query : Option Text
  fragment : Option Text

def isNamed (name : String) (text : Text) : Bool := eqIgnoreAsciiCase text name.toList

/-- The port that the URL library knows for a scheme. -/
def knownPort (scheme : Text) : Option Nat :=
  if scheme = "http".toList || scheme = "ws".toList then some 80
  else if scheme = "https".toList || scheme = "wss".toList then some 443
  else if scheme = "ftp".toList then some 21
  else none

def Url.portOrKnownDefault (url : Url) : Option Nat := url.port.or (knownPort url.scheme)

inductive ContentSecurityPolicyRedirectStatus where
  | noRedirect
  | followedRedirect
deriving DecidableEq

/-! ## Schemes and ports -/

inductive CspSchemeMatch where
  | notMatching
  | exact
  | webSocketToHttp
  | upgrade
deriving DecidableEq

inductive CspPortMatch where
  | notMatching
  | exact
  | wildcard
  | upgrade
deriving DecidableEq

def cspSchemeMatch (sourceScheme requestScheme : Text) : CspSchemeMatch :=
  if eqIgnoreAsciiCase sourceScheme requestScheme then .exact
  else if (isNamed "ws" sourceScheme && isNamed "http" requestScheme) ||
      (isNamed "wss" sourceScheme && isNamed "https" requestScheme) then .webSocketToHttp
  else if (isNamed "http" sourceScheme && isNamed "https" requestScheme) ||
      (isNamed "ws" sourceScheme &&
        (isNamed "wss" requestScheme || isNamed "https" requestScheme)) then
    .upgrade
  else .notMatching

def cspPortMatch (sourceScheme : Text) (sourcePort : Option Nat) (sourcePortWildcard : Bool)
    (requestUrl : Url) : CspPortMatch :=
  if sourcePortWildcard then .wildcard
  else
    let requestPort := requestUrl.portOrKnownDefault
    if cspSchemeMatch sourceScheme requestUrl.scheme = .upgrade &&
        (sourcePort = some 80 || sourcePort = some 443) && requestPort = some 443 then .upgrade
    else if sourcePort.isSome && sourcePort = requestPort then .exact
    else .notMatching

def isDefaultPortForScheme (port : Nat) (scheme : Text) : Bool :=
  ((isNamed "http" scheme || isNamed "ws" scheme) && port = 80) ||
    ((isNamed "https" scheme || isNamed "wss" scheme) && port = 443)

def cspSchemeAndPortMatch (schemeMatch : CspSchemeMatch) (portMatch : CspPortMatch) : Bool :=
  if portMatch = .notMatching then false
  else if !(schemeMatch = .upgrade || portMatch = .upgrade) then true
  else schemeMatch = .upgrade && (portMatch = .upgrade || portMatch = .wildcard)

def selfSourceMatches (protectedUrl requestUrl : Url) : Bool :=
  if protectedUrl.host ≠ requestUrl.host then false
  else
    let schemeMatch := cspSchemeMatch protectedUrl.scheme requestUrl.scheme
    let portMatch :=
      cspPortMatch protectedUrl.scheme protectedUrl.portOrKnownDefault false requestUrl
    if schemeMatch = .exact && portMatch = .exact then true
    else
      let isDefault := fun url : Url =>
        url.portOrKnownDefault.any fun port => isDefaultPortForScheme port url.scheme
      (portMatch = .exact || (isDefault protectedUrl && isDefault requestUrl)) &&
        (isNamed "https" requestUrl.scheme || isNamed "wss" requestUrl.scheme ||
          isNamed "http" protectedUrl.scheme)

/-! ## Host sources -/

structure CspHostSource where
  scheme : Option Text
  host : Text
  port : Option Text
  path : Option Text

def isAlphanumeric (c : Char) : Bool := c.isAlpha || c.isDigit

def isHexDigit (c : Char) : Bool := c.isDigit || ('a' ≤ c && c ≤ 'f') || ('A' ≤ c && c ≤ 'F')

/-- The bytes of a path are allowed one by one, and escapes are complete. -/
def pathBytesAreValid : Text → Bool
  | [] => true
  | '%' :: high :: low :: rest => isHexDigit high && isHexDigit low && pathBytesAreValid rest
  | c :: rest => c ≠ '%' && (isAlphanumeric c || "/-._~!$&'()*+=:@".toList.contains c) &&
    pathBytesAreValid rest

def cspPathPartIsValid (path : Text) : Bool :=
  "/".toList.isPrefixOf path && !"//".toList.isPrefixOf path && pathBytesAreValid path

def splitAuthorityAndPath (sourceRest : Text) : Text × Option Text :=
  if '/' ∈ sourceRest then
    (sourceRest.takeWhile (· ≠ '/'), some (sourceRest.dropWhile (· ≠ '/')))
  else (sourceRest, none)

def isSchemeText (scheme : Text) : Bool :=
  match scheme with
  | [] => false
  | c :: rest => c.isAlpha && rest.all fun c => isAlphanumeric c || c = '+' || c = '-' || c = '.'

/-- The scheme in front of `://`, if that is not part of a path, and the rest; none if it is no
scheme. -/
def splitScheme (source : Text) : Option (Option Text × Text) :=
  match findSub "://".toList source with
  | none => some (none, source)
  | some index =>
    let scheme := source.take index
    if '/' ∈ scheme then some (none, source)
    else if isSchemeText scheme then some (some scheme, source.drop (index + 3)) else none

/-- The host and the port of an authority; none if the port is no port. -/
def splitPort (authority : Text) : Option (Text × Option Text) :=
  match splitOnce ':' authority with
  | none => some (authority, none)
  | some (host, port) =>
    if port ≠ ['*'] && (port.isEmpty || !port.all Char.isDigit) then none
    else some (host, some port)

def hostIsValid (host : Text) : Bool :=
  host = ['*'] ||
    let labels := (stripPrefix "*.".toList host).getD host
    let labels := (stripSuffix ['.'] labels).getD labels
    (labels.splitOn '.').all fun label => !label.isEmpty && label.all fun c =>
      isAlphanumeric c || c = '-'

def parseHostSource (source : Text) : Option CspHostSource :=
  match splitScheme source with
  | none => none
  | some (scheme, rest) =>
    let (authority, path) := splitAuthorityAndPath rest
    match splitPort authority with
    | none => none
    | some (host, port) =>
      if hostIsValid host && path.all cspPathPartIsValid then some ⟨scheme, host, port, path⟩
      else none

def cspHostPartMatches (sourceHost requestHost : Text) : Bool :=
  if sourceHost = ['*'] then !requestHost.isEmpty
  else
    match stripPrefix ['*'] sourceHost with
    | some suffix => suffix.length ≤ requestHost.length &&
        eqIgnoreAsciiCase (requestHost.drop (requestHost.length - suffix.length)) suffix
    | none => eqIgnoreAsciiCase sourceHost requestHost

def hexValue (byte : UInt8) : Option Nat :=
  let n := byte.toNat
  if 48 ≤ n ∧ n ≤ 57 then some (n - 48)
  else if 97 ≤ n ∧ n ≤ 102 then some (n - 87)
  else if 65 ≤ n ∧ n ≤ 70 then some (n - 55)
  else none

def percentDecode : List UInt8 → List UInt8
  | [] => []
  | [byte] => [byte]
  | [byte, second] => [byte, second]
  | byte :: high :: low :: rest =>
    if byte = 37 then
      match hexValue high, hexValue low with
      | some h, some l => UInt8.ofNat (h * 16 + l) :: percentDecode rest
      | _, _ => byte :: percentDecode (high :: low :: rest)
    else byte :: percentDecode (high :: low :: rest)

def percentDecodeText (text : Text) : List UInt8 :=
  percentDecode (text.flatMap String.utf8EncodeChar)

/-- Segment by segment; an empty last segment of the source stands for any rest. -/
def segmentsMatch : List Text → List Text → Bool
  | [], request => request.isEmpty
  | _ :: _, [] => false
  | source :: sources, request :: requests =>
    if source.isEmpty && sources.isEmpty then true
    else if percentDecodeText source ≠ percentDecodeText request then false
    else segmentsMatch sources requests

def cspPathPartMatches (sourcePath requestPath : Text) : Bool :=
  if sourcePath.isEmpty || (sourcePath = ['/'] && requestPath.isEmpty) then true
  else segmentsMatch (sourcePath.splitOn '/') (requestPath.splitOn '/')

def defaultPortForScheme (scheme : Text) : Option Nat := knownPort (toAsciiLowercase scheme)

def hostSourcePortMatch (sourceScheme : Text) (sourcePort : Option Text) (requestUrl : Url) :
    CspPortMatch :=
  match sourcePort with
  | some ['*'] => .wildcard
  | some port =>
    match parseBelow 65536 port with
    | some port => cspPortMatch sourceScheme (some port) false requestUrl
    | none => .notMatching
  | none => cspPortMatch sourceScheme (defaultPortForScheme sourceScheme) false requestUrl

/-- Four decimal numbers below 256 without leading zeros. -/
def isIpv4 (host : Text) : Bool :=
  let parts := host.splitOn '.'
  parts.length = 4 && parts.all fun part =>
    part.length ≤ 3 && part.all Char.isDigit && (parseBelow 256 part).isSome &&
      (part.length = 1 || part.head? ≠ some '0')

def sourceUrlMatches (source : Text) (protectedUrl requestUrl : Url)
    (redirectStatus : ContentSecurityPolicyRedirectStatus) : Bool :=
  match parseHostSource source with
  | none => false
  | some source =>
    let sourceScheme := source.scheme.getD protectedUrl.scheme
    let schemeMatch := cspSchemeMatch sourceScheme requestUrl.scheme
    if schemeMatch = .notMatching then false
    else if !cspSchemeAndPortMatch schemeMatch
      (hostSourcePortMatch sourceScheme source.port requestUrl) then
      false
    else
      match requestUrl.host with
      | none => false
      | some requestHost =>
        if !cspHostPartMatches source.host requestHost then false
        else if source.port = some ['*'] && source.host ≠ "127.0.0.1".toList &&
          isIpv4 source.host then false
        else redirectStatus = .followedRedirect ||
          source.path.all (cspPathPartMatches · requestUrl.path)

/-! ## Expressions -/

def cspKeywordEq (source : Text) (keyword : String) : Bool :=
  source.length = keyword.toList.length + 2 && "'".toList.isPrefixOf source &&
    "'".toList.isSuffixOf source && eqIgnoreAsciiCase (source.tail.dropLast) keyword.toList

def sourceExpressionMatches (source : Text) (protectedUrl requestUrl : Url)
    (redirectStatus : ContentSecurityPolicyRedirectStatus) : Bool :=
  if cspKeywordEq source "self" then selfSourceMatches protectedUrl requestUrl
  else if source = ['*'] then
    ["http", "https", "ws", "wss"].any fun scheme => requestUrl.scheme = scheme.toList
  else
    match stripSuffix [':'] source with
    | some scheme =>
      if '/' ∉ scheme && !scheme.isEmpty then cspSchemeMatch scheme requestUrl.scheme ≠ .notMatching
      else sourceUrlMatches source protectedUrl requestUrl redirectStatus
    | none => sourceUrlMatches source protectedUrl requestUrl redirectStatus

def cspNonceSourceValue (source : Text) : Option Text :=
  (stripPrefix "'nonce-".toList source).bind (stripSuffix "'".toList)

inductive CspHashAlgorithm where
  | sha256
  | sha384
  | sha512
deriving DecidableEq

structure CspHashSourceValue where
  algorithm : CspHashAlgorithm
  digest : Text
deriving DecidableEq

def parseHashAlgorithm (text : Text) : Option CspHashAlgorithm :=
  if isNamed "sha256" text then some .sha256
  else if isNamed "sha384" text then some .sha384
  else if isNamed "sha512" text then some .sha512
  else none

def hashSourceValue (value : Text) : Option CspHashSourceValue :=
  match splitOnce '-' value with
  | none => none
  | some (algorithm, digest) =>
    if digest.isEmpty then none else (parseHashAlgorithm algorithm).map (⟨·, digest⟩)

def cspHashSourceValue (source : Text) : Option CspHashSourceValue :=
  ((stripPrefix "'".toList source).bind (stripSuffix "'".toList)).bind hashSourceValue

end Moli.Csp
