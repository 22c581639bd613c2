import Moli.Lib.Text
import Moli.Lib.Checked

/-!
# Cache policy

Storage and freshness as `moli-http-cache` reads them from response headers, what a request says
about the cache, what is sent to validate a cached response and how the headers of a 304 response
are merged into the cached ones. Parsing an HTTP date is a parameter: milliseconds since the epoch,
none for a text that is no date or a date before it.

Header names are texts and values are bytes, as in `moli-header-field`. The scanner of quoted
parameter values works on characters: its special bytes are ASCII, so they are never part of another
character.
-/

namespace Moli.HttpCache

/-! ## Header fields -/

abbrev Text := List Char

abbrev Headers := List (Text × List UInt8)

/-- Each byte is the character of that number. -/
def decodeHeaderValue (value : List UInt8) : Text := value.map fun byte => Char.ofNat byte.toNat

inductive ParameterScanState where
  | beforeValue
  | atValueStart
  | unquotedValue
  | quotedValue
  | afterQuotedValue
deriving DecidableEq

/-- The state after a character that is not a separator, outside of quotes. -/
def ParameterScanState.next (c : Char) : ParameterScanState → ParameterScanState
  | .beforeValue => if c = '=' then .atValueStart else .beforeValue
  | .atValueStart =>
    if c = ' ' ∨ c = '\t' then .atValueStart else if c = '"' then .quotedValue else .unquotedValue
  | state => state

/-- The segments of the rest of a value; the first one continues the segment that is being read. -/
def scanSegments (separator : Char) : ParameterScanState → Text → List Text
  | _, [] => [[]]
  | .quotedValue, ['\\'] => [['\\']]
  | .quotedValue, '\\' :: escaped :: rest =>
    (scanSegments separator .quotedValue rest).modifyHead ('\\' :: escaped :: ·)
  | .quotedValue, c :: rest =>
    (scanSegments separator (if c = '"' then .afterQuotedValue else .quotedValue) rest).modifyHead
      (c :: ·)
  | state, c :: rest =>
    if c = separator then [] :: scanSegments separator .beforeValue rest
    else (scanSegments separator (state.next c) rest).modifyHead (c :: ·)

def splitOutsideQuotedStrings (value : Text) (separator : Char) : List Text :=
  scanSegments separator .beforeValue value

/-- The text of a quoted value up to its closing quote, without the quoting backslashes. -/
def unquoted : Text → Text
  | [] => []
  | ['\\'] => ['\\']
  | '\\' :: escaped :: rest => escaped :: unquoted rest
  | c :: rest => if c = '"' then [] else c :: unquoted rest

def unquoteParameterValue : Text → Text
  | '"' :: quoted => unquoted quoted
  | raw => raw

/-! ## Storage and freshness -/

open Lib Lib.Text

structure HttpCacheResponsePolicy where
  store : Bool
  expiresAtUnixMs : Option Nat

def saturatingMul (a b : Nat) : Nat := min (a * b) u64Max

def saturatingAdd (a b : Nat) : Nat := min (a + b) u64Max

def cacheExpiresAtUnixMs (nowMs : Nat) (maxAgeSeconds expiresHeaderUnixMs dateUnixMs : Option Nat)
    (ageSeconds : Nat) : Option Nat :=
  match maxAgeSeconds with
  | some maxAgeSeconds =>
    let apparentAgeMs := (dateUnixMs.map (nowMs - ·)).getD 0
    let responseAgeMs := max apparentAgeMs (saturatingMul ageSeconds 1000)
    let freshnessMs := saturatingMul maxAgeSeconds 1000 - responseAgeMs
    some (saturatingAdd nowMs freshnessMs)
  | none => expiresHeaderUnixMs

/-- What has been read of the headers so far. -/
structure PolicyScan where
  store : Bool := true
  requiresValidation : Bool := false
  maxAgeSeconds : Option Nat := none
  expiresHeaderUnixMs : Option Nat := none
  dateUnixMs : Option Nat := none
  ageSeconds : Nat := 0

/-- The name of a directive and its argument. -/
def directiveParts (directive : Text) : Text × Option Text :=
  match splitOnce '=' directive with
  | some (name, value) => (trim name, some (unquoteParameterValue (trim value)))
  | none => (directive, none)

def directives (value : Text) : List Text := (splitOutsideQuotedStrings value ',').map trim

def isNamed (name : String) (text : Text) : Bool := eqIgnoreAsciiCase text name.toList

namespace PolicyScan

/-- One directive of a Cache-Control field. -/
def directive (scan : PolicyScan) (text : Text) : PolicyScan :=
  let (name, argument) := directiveParts text
  if isNamed "no-store" name || isNamed "private" name then { scan with store := false }
  else if isNamed "no-cache" name then { scan with requiresValidation := true }
  else if isNamed "max-age" name then
    match argument.bind (parseBelow (2 ^ 64)) with
    | some seconds => { scan with maxAgeSeconds := some seconds }
    | none => scan
  else scan

variable (parseHttpDate : Text → Option Nat)

/-- One header field. -/
def field (scan : PolicyScan) (line : Text × List UInt8) : PolicyScan :=
  let value := decodeHeaderValue line.2
  if isNamed "cache-control" line.1 then (directives value).foldl directive scan
  else if isNamed "pragma" line.1 then
    if (value.splitOn ',').any fun directive => isNamed "no-cache" (trim directive) then
      { scan with store := false }
    else scan
  else if isNamed "expires" line.1 && (parseHttpDate value).isSome then
    { scan with expiresHeaderUnixMs := parseHttpDate value }
  else if isNamed "date" line.1 && (parseHttpDate value).isSome then
    { scan with dateUnixMs := parseHttpDate value }
  else if isNamed "age" line.1 then
    match parseBelow (2 ^ 64) (trim value) with
    | some seconds => { scan with ageSeconds := seconds }
    | none => scan
  else scan

def headers (headers : Headers) : PolicyScan := headers.foldl (field parseHttpDate) {}

end PolicyScan

def responseCachePolicy (parseHttpDate : Text → Option Nat) (nowMs : Nat) (headers : Headers) :
    HttpCacheResponsePolicy :=
  let scan := PolicyScan.headers parseHttpDate headers
  let expiresAtUnixMs :=
    if scan.requiresValidation then none
    else cacheExpiresAtUnixMs nowMs scan.maxAgeSeconds scan.expiresHeaderUnixMs scan.dateUnixMs
      scan.ageSeconds
  ⟨scan.store, expiresAtUnixMs⟩

/-! ## Requests -/

def requestCacheControlForbidsStorage (value : Text) : Bool :=
  (directives value).any fun directive => isNamed "no-store" (directiveParts directive).1

def requestCacheControlRequiresValidation (value : Text) : Bool :=
  (directives value).any fun directive =>
    isNamed "no-cache" (directiveParts directive).1 ||
      (isNamed "max-age" (directiveParts directive).1 && (directiveParts directive).2 = some ['0'])

def requestPragmaRequiresValidation (value : Text) : Bool :=
  (directives value).any (isNamed "no-cache")

/-! ## Revalidation -/

open Lib.Text

/-- The names that the Connection fields mention, in lower case. -/
def connectionNominatedHeaderNames (headers : Headers) : List Text :=
  let fields := headers.filter fun line => eqIgnoreAsciiCase line.1 "connection".toList
  let tokens := fields.flatMap fun line => (decodeHeaderValue line.2).splitOn ','
  ((tokens.map trim).filter fun token => !token.isEmpty).map toAsciiLowercase

def hopByHopNames : List Text :=
  ["content-length", "connection", "keep-alive", "proxy-authenticate", "proxy-authorization", "te",
    "trailer", "transfer-encoding", "upgrade"].map String.toList

def shouldSkipNotModifiedHeader (name : Text) (connectionNominatedHeaders : List Text) : Bool :=
  let lowerName := toAsciiLowercase name
  (connectionNominatedHeaders.any fun nominated => nominated = lowerName) ||
    lowerName ∈ hopByHopNames

/-- The first field of that name gets the value; without one the field is added at the end. -/
def putHeader (line : Text × List UInt8) : Headers → Headers
  | [] => [line]
  | existing :: rest =>
    if eqIgnoreAsciiCase existing.1 line.1 then (existing.1, line.2) :: rest
    else existing :: putHeader line rest

def mergeNotModifiedHeaders (cachedHeaders notModifiedHeaders : Headers) : Headers :=
  let connectionNominatedHeaders := connectionNominatedHeaderNames notModifiedHeaders
  notModifiedHeaders.foldl (fun headers line =>
    if shouldSkipNotModifiedHeader line.1 connectionNominatedHeaders then headers
    else putHeader line headers) cachedHeaders

end Moli.HttpCache
