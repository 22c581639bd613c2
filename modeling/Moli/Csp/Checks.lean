import Mathlib.Data.List.AList
import Moli.Csp.Source

/-!
# The URL checks of a Content Security Policy

The two checks of `checks.rs` that decide whether a list of policies lets a resource be fetched: the
one that answers with a Boolean and the one that answers with the violation to report. A policy is
its text and its directives as parsed; the URL library is a parameter.
-/

namespace Moli.Csp

open Lib.Text

/-- What is used of the URL library. -/
structure Platform where
  serialize : Url → Text
  join : Url → Text → Option Url

inductive ContentSecurityPolicyResourceKind where
  | documentConnect
  | documentFrame
  | documentImage
  | documentManifest
  | documentMedia
  | documentFont
  | documentScriptElement
  | documentStyleElement
  | sharedWorkerScript
  | workerConnect
  | workerDynamicModuleImport
  | workerScript
  | workerStaticModuleImport
deriving DecidableEq

namespace ContentSecurityPolicyResourceKind

def effectiveDirective : ContentSecurityPolicyResourceKind → String
  | documentConnect => "connect-src"
  | documentFrame => "frame-src"
  | documentImage => "img-src"
  | documentManifest => "manifest-src"
  | documentMedia => "media-src"
  | documentFont => "font-src"
  | documentScriptElement | workerDynamicModuleImport => "script-src-elem"
  | documentStyleElement => "style-src-elem"
  | sharedWorkerScript | workerStaticModuleImport => "worker-src"
  | workerConnect => "connect-src"
  | workerScript => "script-src"

def directiveFallbacks : ContentSecurityPolicyResourceKind → List String
  | documentConnect => ["connect-src", "default-src"]
  | documentFrame => ["frame-src", "child-src", "default-src"]
  | documentImage => ["img-src", "default-src"]
  | documentManifest => ["manifest-src", "default-src"]
  | documentMedia => ["media-src", "default-src"]
  | documentFont => ["font-src", "default-src"]
  | documentScriptElement => ["script-src-elem", "script-src", "default-src"]
  | documentStyleElement => ["style-src-elem", "style-src", "default-src"]
  | sharedWorkerScript => ["worker-src", "child-src", "script-src", "default-src"]
  | workerConnect => ["connect-src", "default-src"]
  | workerDynamicModuleImport => ["script-src-elem", "script-src", "default-src"]
  | workerScript => ["script-src", "default-src"]
  | workerStaticModuleImport => ["worker-src", "child-src", "script-src", "default-src"]

end ContentSecurityPolicyResourceKind

/-! ## Policies -/

structure Directive where
  name : String
  value : List Text

structure ContentSecurityPolicy where
  serialized : Text
  directiveSet : List Directive

def ContentSecurityPolicy.sources (policy : ContentSecurityPolicy) (name : String) :
    Option (List Text) :=
  (policy.directiveSet.find? fun directive => directive.name = name).map (·.value)

def directiveSourceList (policy : ContentSecurityPolicy) (name : String) : Option (List Text) :=
  policy.sources name

def effectiveSourceListWithDirective (policy : ContentSecurityPolicy)
    (kind : ContentSecurityPolicyResourceKind) : Option (String × List Text) :=
  kind.directiveFallbacks.findSome? fun directive =>
    (directiveSourceList policy directive).map fun sources => (kind.effectiveDirective, sources)

/-! ## Source lists -/

def normalizedSourceList (sources : List Text) : List Text :=
  sources.filter fun source => !source.isEmpty

def normalizedSourceListAllowsUrl (sources : List Text) (protectedUrl requestUrl : Url)
    (redirectStatus : ContentSecurityPolicyRedirectStatus) : Bool :=
  if sources.isEmpty then false
  else if sources.length = 1 && sources.head?.any (cspKeywordEq · "none") then false
  else
    sources.any fun source =>
      !cspKeywordEq source "none" &&
        sourceExpressionMatches source protectedUrl requestUrl redirectStatus

def sourceListAllows (sources : List Text) (protectedUrl requestUrl : Url)
    (redirectStatus : ContentSecurityPolicyRedirectStatus) : Bool :=
  normalizedSourceListAllowsUrl (normalizedSourceList sources) protectedUrl requestUrl
    redirectStatus

def isNonceOrHash (source : Text) : Bool :=
  (cspNonceSourceValue source).isSome || (cspHashSourceValue source).isSome

def sourceListActivatesStrictDynamic (sources : List Text) : Bool :=
  (sources.any fun source => cspKeywordEq source "strict-dynamic") && sources.any isNonceOrHash

def cspNonceSourceMatches (source nonce : Text) : Bool :=
  (cspNonceSourceValue source).any fun value => value = nonce

def nonceMatches (nonce : Option Text) (sources : List Text) : Bool :=
  ((nonce.map trim).filter fun nonce => !nonce.isEmpty).any fun nonce =>
    sources.any fun source => cspNonceSourceMatches source nonce

/-! ## Integrity metadata -/

def isAsciiWhitespace (c : Char) : Bool :=
  c = ' ' || c = '\t' || c = '\n' || c = '\x0c' || c = '\r'

def splitAsciiWhitespace (text : Text) : List Text :=
  (text.splitOnP isAsciiWhitespace).filter fun token => !token.isEmpty

def integrityPrefixes : List (String × CspHashAlgorithm) :=
  [("sha256", .sha256), ("sha-256", .sha256), ("sha384", .sha384), ("sha-384", .sha384),
    ("sha512", .sha512), ("sha-512", .sha512)]

def parseIntegrityAlgorithmAndDigest (token : Text) : Option CspHashSourceValue :=
  integrityPrefixes.findSome? fun (start, algorithm) =>
    ((stripPrefix start.toList token).bind (stripPrefix ['-'])).map (⟨algorithm, ·⟩)

def isIntegrityDigestSyntax (digest : Text) : Bool :=
  !digest.isEmpty && digest.all fun c => isAlphanumeric c || "+/-_=".toList.contains c

def parseIntegrityHash (token : Text) : Option CspHashSourceValue :=
  match parseIntegrityAlgorithmAndDigest token with
  | none => none
  | some hash =>
    let digest := ((splitOnce '?' hash.digest).map (·.1)).getD hash.digest
    if isIntegrityDigestSyntax digest then some ⟨hash.algorithm, digest⟩ else none

def integrityMetadataHashes (integrity : Text) : List CspHashSourceValue :=
  (splitAsciiWhitespace integrity).filterMap parseIntegrityHash

def scriptIntegrityMatchesHashSource (integrity : Option Text) (sources : List Text) : Bool :=
  match integrity with
  | none => false
  | some integrity =>
    let hashes := integrityMetadataHashes integrity
    !hashes.isEmpty && hashes.all fun hash => (sources.filterMap cspHashSourceValue).any (· = hash)

/-! ## Requests -/

structure ContentSecurityPolicyScriptElementRequest where
  nonce : Option Text := none
  integrity : Option Text := none
  parserInserted : Bool := true

structure ContentSecurityPolicyStyleElementRequest where
  nonce : Option Text := none

inductive ContentSecurityPolicyUrlRequest where
  | standard
  | script (request : ContentSecurityPolicyScriptElementRequest)
  | style (request : ContentSecurityPolicyStyleElementRequest)

def sourceListAllowsScriptElementRequest (sources : List Text) (protectedUrl requestUrl : Url)
    (redirectStatus : ContentSecurityPolicyRedirectStatus)
    (request : ContentSecurityPolicyScriptElementRequest) : Bool :=
  let sources := normalizedSourceList sources
  if nonceMatches request.nonce sources then true
  else if scriptIntegrityMatchesHashSource request.integrity sources then true
  else if sourceListActivatesStrictDynamic sources then !request.parserInserted
  else normalizedSourceListAllowsUrl sources protectedUrl requestUrl redirectStatus

def sourceListAllowsStyleElementRequest (sources : List Text) (protectedUrl requestUrl : Url)
    (redirectStatus : ContentSecurityPolicyRedirectStatus)
    (request : ContentSecurityPolicyStyleElementRequest) : Bool :=
  let sources := normalizedSourceList sources
  if nonceMatches request.nonce sources then true
  else normalizedSourceListAllowsUrl sources protectedUrl requestUrl redirectStatus

def sourceListAllowsResourceRequest (sources : List Text) (protectedUrl requestUrl : Url)
    (redirectStatus : ContentSecurityPolicyRedirectStatus) :
    ContentSecurityPolicyUrlRequest → Bool
  | .standard =>
    sourceListAllowsScriptElementRequest sources protectedUrl requestUrl redirectStatus {}
  | .script request =>
    sourceListAllowsScriptElementRequest sources protectedUrl requestUrl redirectStatus request
  | .style request =>
    sourceListAllowsStyleElementRequest sources protectedUrl requestUrl redirectStatus request

/-! ## The two checks -/

def contentSecurityPolicyAllowsUrlWithRedirectStatus (policies : List ContentSecurityPolicy)
    (protectedUrl requestUrl : Url) (kind : ContentSecurityPolicyResourceKind)
    (redirectStatus : ContentSecurityPolicyRedirectStatus) : Bool :=
  policies.all fun policy =>
    match effectiveSourceListWithDirective policy kind with
    | none => true
    | some (_, sourceList) => sourceListAllows sourceList protectedUrl requestUrl redirectStatus

inductive ContentSecurityPolicyDisposition where
  | enforce
  | report
deriving DecidableEq

structure ContentSecurityPolicyReportingEndpoints where
  endpoints : AList fun _ : Text => Text

structure ContentSecurityPolicyUrlViolation where
  effectiveDirective : String
  blockedUri : Text
  documentUri : Text
  originalPolicy : Text
  disposition : ContentSecurityPolicyDisposition
  reportUriEndpoints : List Text
  reportToEndpoints : List Text
  sample : Text
  sourceFile : Text
  lineNumber : Int
  columnNumber : Int

/-- Credentials are only changed on a URL that can have them. -/
def Url.withoutCredentials (url : Url) : Url :=
  if url.host.any (fun host => !host.isEmpty) && url.scheme ≠ "file".toList then
    { url with username := [], password := none }
  else url

def cspUrlForReport (platform : Platform) (url : Url) : Text :=
  if ["http", "https", "ws", "wss"].any fun scheme => url.scheme = scheme.toList then
    platform.serialize { url.withoutCredentials with fragment := none }
  else url.scheme

def contentSecurityPolicyReportUriEndpoints (platform : Platform) (policy : ContentSecurityPolicy)
    (protectedUrl : Url) : List Text :=
  if (policy.sources "report-to").isSome then []
  else
    ((((policy.sources "report-uri").getD []).filterMap (platform.join protectedUrl)).filter
      fun endpoint =>
      endpoint.scheme = "http".toList || endpoint.scheme = "https".toList).map platform.serialize

def contentSecurityPolicyReportToEndpoints (policy : ContentSecurityPolicy)
    (reportingEndpoints : ContentSecurityPolicyReportingEndpoints) : List Text :=
  (((policy.sources "report-to").bind List.head?).bind fun group =>
    reportingEndpoints.endpoints.lookup group).toList

/-- `content_security_policy_url_violation_for_checked_url_with_redirect_status_disposition_reporting_endpoints_and_request`. -/
def contentSecurityPolicyUrlViolation (platform : Platform) (policies : List ContentSecurityPolicy)
    (protectedUrl checkedUrl blockedUrl : Url) (kind : ContentSecurityPolicyResourceKind)
    (redirectStatus : ContentSecurityPolicyRedirectStatus)
    (disposition : ContentSecurityPolicyDisposition)
    (reportingEndpoints : ContentSecurityPolicyReportingEndpoints)
    (request : ContentSecurityPolicyUrlRequest) : Option ContentSecurityPolicyUrlViolation :=
  policies.findSome? fun policy =>
    match effectiveSourceListWithDirective policy kind with
    | none => none
    | some (effectiveDirective, sourceList) =>
      if sourceListAllowsResourceRequest sourceList protectedUrl checkedUrl redirectStatus
        request then none
      else
        let documentUri := cspUrlForReport platform protectedUrl
        some {
          effectiveDirective
          blockedUri := cspUrlForReport platform blockedUrl
          documentUri
          originalPolicy := policy.serialized
          disposition
          reportUriEndpoints := contentSecurityPolicyReportUriEndpoints platform policy protectedUrl
          reportToEndpoints := contentSecurityPolicyReportToEndpoints policy reportingEndpoints
          sample := []
          sourceFile := documentUri
          lineNumber := 0
          columnNumber := 0 }

end Moli.Csp
