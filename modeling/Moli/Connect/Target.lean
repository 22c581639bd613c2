import Moli.Connect.HostResolve

/-!
# The target of a request

What is checked before a request goes to curl: `enforce_request_target_address_policy` looks at the
fixed or literal address, `connection_dns_endpoint` says what has to be looked up, and
`CurlDnsResolution::install` checks the answer and pins it. `CurlList.addresses` is the meaning that
curl gives to the list it was handed.
-/

namespace Moli.Connect

open Lib.Text (eqIgnoreAsciiCase)

inductive Scheme where
  | http
  | https
deriving DecidableEq

/-- A host of a parsed URL; a domain has no brackets. -/
inductive Host where
  | domain (text : Text) (h : '[' ∉ text)
  | ipv4 (address : Ipv4)
  | ipv6 (address : Ipv6)

structure Url where
  scheme : Scheme
  host : Host
  port : Option Nat

namespace Url

variable (p : Platform)

def portOrKnownDefault (url : Url) : Nat :=
  url.port.getD (match url.scheme with
    | .http => 80
    | .https => 443)

/-- `host_str`: an IPv6 address is written in brackets. -/
def hostStr (url : Url) : Text :=
  match url.host with
  | .domain text _ => text
  | .ipv4 address => p.ipv4Text address
  | .ipv6 address => '[' :: p.ipv6Text address ++ [']']

end Url

structure FetchConfig where
  httpHostResolve : List Text
  blockPrivateNetworks : Bool
  blockCidrs : List AnyIpCidr

namespace FetchConfig

def networkAddressPolicy (config : FetchConfig) : NetworkAddressPolicy :=
  ⟨config.blockPrivateNetworks, config.blockCidrs⟩

end FetchConfig

inductive TargetError where
  | resolve (error : ResolveError)
  | blocked
  /-- A fixed address for a target that a proxy resolves. -/
  | ignoredOverride
deriving DecidableEq

def checked (admitted : Bool) : Except TargetError Unit :=
  if admitted then .ok () else .error .blocked

section Request

variable (p : Platform)

def parseOverrides (config : FetchConfig) : Except TargetError HostResolveOverrides :=
  (HostResolveOverrides.parse p config.httpHostResolve).mapError .resolve

def enforceRequestTargetAddressPolicy (config : FetchConfig) (url : Url) :
    Except TargetError Unit :=
  let policy := config.networkAddressPolicy
  if !policy.isEnforced then .ok ()
  else (parseOverrides p config).bind fun overrides =>
    match overrides.addressesFor (url.hostStr p) url.portOrKnownDefault with
    | some addresses => checked (policy.checkAddresses addresses)
    | none =>
      match url.host with
      | .ipv4 address => checked (policy.checkAddress (.v4 address))
      | .ipv6 address => checked (policy.checkAddress (.v6 address))
      | .domain _ _ => .ok ()

structure DnsTarget where
  host : Text
  port : Nat

inductive ConnectionEndpointRole where
  | requestTarget
  | proxy

structure ConnectionDnsEndpoint where
  target : DnsTarget
  role : ConnectionEndpointRole

structure SelectedProxy where
  url : Url
  endpointPort : Nat

inductive ProxyRoute where
  | direct
  | proxy (proxy : SelectedProxy)

def Host.isDomain : Host → Bool
  | .domain _ _ => true
  | _ => false

namespace ProxyRoute

def connectionDnsEndpoint (url : Url) (hostResolve : HostResolveOverrides) :
    ProxyRoute → Except TargetError (Option ConnectionDnsEndpoint)
  | direct =>
    if url.host.isDomain ∧
      hostResolve.addressesFor (url.hostStr p) url.portOrKnownDefault = none then
      .ok (some ⟨⟨url.hostStr p, url.portOrKnownDefault⟩, .requestTarget⟩)
    else .ok none
  | proxy selected =>
    let host := selected.url.hostStr p
    let isRequestEndpoint := eqIgnoreAsciiCase host (url.hostStr p) &&
      selected.endpointPort = url.portOrKnownDefault
    if !isRequestEndpoint &&
        (hostResolve.addressesFor (url.hostStr p) url.portOrKnownDefault).isSome then
      .error .ignoredOverride
    else if selected.url.host.isDomain ∧
      hostResolve.addressesFor host selected.endpointPort = none then
      .ok (some ⟨⟨host, selected.endpointPort⟩, .proxy⟩)
    else .ok none

end ProxyRoute

/-- `CurlDnsResolution::install`: the list that is handed to curl. -/
def install (policy : NetworkAddressPolicy) (target : DnsTarget)
    (staticEntries : List HostResolveEntry)
    (addresses : List IpAddr) : Except TargetError (List HostResolveEntry) :=
  (checked (policy.checkAddresses addresses)).bind fun _ =>
    .ok (staticEntries ++ [⟨target.host, target.port, addresses⟩])

/-- The list that a direct request leaves on its curl handle, where `answer` is what DNS says. -/
def directRequest (config : FetchConfig) (url : Url) (answer : List IpAddr) :
    Except TargetError (List HostResolveEntry) :=
  (enforceRequestTargetAddressPolicy p config url).bind fun _ =>
    (parseOverrides p config).bind fun overrides =>
      (ProxyRoute.direct.connectionDnsEndpoint p url overrides).bind fun endpoint =>
        match endpoint with
        | none => .ok overrides.normalizedEntries
        | some endpoint =>
          install config.networkAddressPolicy endpoint.target overrides.normalizedEntries answer

end Request

/-! ## The meaning of the list -/

namespace CurlList

/-- The host of an entry without IPv6 brackets. -/
def unbracket (host : Text) : Text :=
  match host with
  | '[' :: rest => rest.dropLast
  | _ => host

def lastWith (entries : List HostResolveEntry) (p : HostResolveEntry → Bool) :
    Option (List IpAddr) :=
  (entries.filter p).getLast?.map (·.addresses)

def exact (entries : List HostResolveEntry) (host : Text) (port : Nat) : Option (List IpAddr) :=
  lastWith entries fun entry => entry.port = port && eqIgnoreAsciiCase (unbracket entry.host) host

def wildcard (entries : List HostResolveEntry) (port : Nat) : Option (List IpAddr) :=
  lastWith entries fun entry => entry.port = port && entry.host = ['*']

/-- The host that curl looks for, and the address it stands for. -/
def hostText (p : Platform) : Host → Text
  | .domain text _ => text
  | .ipv4 address => p.ipv4Text address
  | .ipv6 address => p.ipv6Text address

def literal : Host → Option (List IpAddr)
  | .domain _ _ => none
  | .ipv4 address => some [.v4 address]
  | .ipv6 address => some [.v6 address]

/-- The addresses that curl may connect to; without any, curl would resolve the host itself. -/
def addresses (p : Platform) (entries : List HostResolveEntry) (url : Url) : Option (List IpAddr) :=
  (exact entries (hostText p url.host) url.portOrKnownDefault).or
    ((wildcard entries url.portOrKnownDefault).or (literal url.host))

end CurlList

end Moli.Connect
