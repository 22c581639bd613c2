import Moli.Lib.Text

/-!
# Addresses and host resolve entries

The addresses a transport may connect to with the policy of `moli-curl` that admits them, and the
fixed addresses of `--http-host-resolve`, as `moli-curl` parses them, looks them up and writes them
for curl. What belongs to the standard library, which characters are white space and how an address
is read, is a parameter.
-/

namespace Moli.Connect

structure Ipv4 where
  a : UInt8
  b : UInt8
  c : UInt8
  d : UInt8
deriving DecidableEq

/-- The eight segments. -/
structure Ipv6 where
  a : UInt16
  b : UInt16
  c : UInt16
  d : UInt16
  e : UInt16
  f : UInt16
  g : UInt16
  h : UInt16
deriving DecidableEq

inductive IpAddr where
  | v4 (address : Ipv4)
  | v6 (address : Ipv6)
deriving DecidableEq

namespace Ipv4

def toNat (x : Ipv4) : Nat :=
  ((x.a.toNat * 256 + x.b.toNat) * 256 + x.c.toNat) * 256 + x.d.toNat

variable (x : Ipv4)

def isPrivate : Bool :=
  x.a = 10 || (x.a = 172 && 16 ≤ x.b && x.b ≤ 31) || (x.a = 192 && x.b = 168)

def isLoopback : Bool := x.a = 127

def isLinkLocal : Bool := x.a = 169 && x.b = 254

def isBroadcast : Bool := x = ⟨255, 255, 255, 255⟩

def isDocumentation : Bool :=
  (x.a, x.b, x.c) ∈ [(192, 0, 2), (198, 51, 100), (203, 0, 113)]

def isUnspecified : Bool := x = ⟨0, 0, 0, 0⟩

def isMulticast : Bool := 224 ≤ x.a && x.a ≤ 239

end Ipv4

namespace Ipv6

def toNat (x : Ipv6) : Nat :=
  [x.a, x.b, x.c, x.d, x.e, x.f, x.g, x.h].foldl (fun n s => n * 65536 + s.toNat) 0

variable (x : Ipv6)

def toIpv4Mapped : Option Ipv4 :=
  if x.a = 0 ∧ x.b = 0 ∧ x.c = 0 ∧ x.d = 0 ∧ x.e = 0 ∧ x.f = 0xffff then
    some ⟨(x.g >>> 8).toUInt8, x.g.toUInt8, (x.h >>> 8).toUInt8, x.h.toUInt8⟩
  else none

def isLoopback : Bool := x = ⟨0, 0, 0, 0, 0, 0, 0, 1⟩

def isUnspecified : Bool := x = ⟨0, 0, 0, 0, 0, 0, 0, 0⟩

def isMulticast : Bool := x.a &&& 0xff00 = 0xff00

def isUnicastLinkLocal : Bool := x.a &&& 0xffc0 = 0xfe80

def isUniqueLocal : Bool := x.a &&& 0xfe00 = 0xfc00

end Ipv6

def isPrivateOrInternalIpv4 (x : Ipv4) : Bool :=
  x.isPrivate || x.isLoopback || x.isLinkLocal || x.isBroadcast || x.isDocumentation ||
    x.isUnspecified || x.isMulticast || (x.a = 100 && 64 ≤ x.b && x.b ≤ 127) ||
    (x.a = 198 && (x.b = 18 || x.b = 19)) || 240 ≤ x.a

def isPrivateOrInternalIp : IpAddr → Bool
  | .v4 x => isPrivateOrInternalIpv4 x
  | .v6 x =>
    match x.toIpv4Mapped with
    | some mapped => isPrivateOrInternalIpv4 mapped
    | none =>
      x.isLoopback || x.isUnspecified || x.isMulticast || x.isUnicastLinkLocal || x.isUniqueLocal ||
        (x.a = 0x2001 && x.b = 0x0db8)

inductive AnyIpCidr where
  | any
  | v4 (first : Ipv4) (length : Nat)
  | v6 (first : Ipv6) (length : Nat)

namespace AnyIpCidr

def contains : AnyIpCidr → IpAddr → Bool
  | any, _ => true
  | v4 first length, .v4 x => x.toNat / 2 ^ (32 - length) = first.toNat / 2 ^ (32 - length)
  | v6 first length, .v6 x => x.toNat / 2 ^ (128 - length) = first.toNat / 2 ^ (128 - length)
  | _, _ => false

end AnyIpCidr

structure NetworkAddressPolicy where
  blockPrivateNetworks : Bool
  blockCidrs : List AnyIpCidr

namespace NetworkAddressPolicy

variable (policy : NetworkAddressPolicy)

def isEnforced : Bool := policy.blockPrivateNetworks || !policy.blockCidrs.isEmpty

def mappedIpv4 : IpAddr → Option IpAddr
  | .v6 x => x.toIpv4Mapped.map .v4
  | .v4 _ => none

/-- Whether `check_address` admits the address. -/
def checkAddress (address : IpAddr) : Bool :=
  !(policy.blockPrivateNetworks && isPrivateOrInternalIp address) &&
    !policy.blockCidrs.any fun cidr =>
      cidr.contains address || (mappedIpv4 address).any cidr.contains

def checkAddresses (addresses : List IpAddr) : Bool := addresses.all policy.checkAddress

end NetworkAddressPolicy

/-! ## Host resolve entries -/

open Lib.Text (eqIgnoreAsciiCase parseBelow splitOnce trimMatches)

abbrev Text := List Char

structure Platform where
  isWhitespace : Char → Bool
  parseIp : Text → Option IpAddr
  ipv4Text : Ipv4 → Text
  /-- Without brackets. -/
  ipv6Text : Ipv6 → Text
  ipv6Text_bracket : ∀ x, '[' ∉ ipv6Text x
  ipv4Text_bracket : ∀ x, '[' ∉ ipv4Text x

def isBracket (c : Char) : Bool := c = '[' || c = ']'

inductive ResolveError where
  | unsupportedPrefix
  | form
  | port
  | emptyAddress
  | address
deriving DecidableEq

structure HostResolveEntry where
  host : Text
  port : Nat
  addresses : List IpAddr

section Parse

variable (p : Platform)

def trim (s : Text) : Text := trimMatches p.isWhitespace s

def parts (host port address : Text) : Except ResolveError (Text × Text × Text) :=
  if (trim p host).isEmpty || (trim p port).isEmpty || (trim p address).isEmpty then .error .form
  else .ok (trim p host, trim p port, trim p address)

def splitEntry : Text → Except ResolveError (Text × Text × Text)
  | '[' :: entry =>
    match splitOnce ']' entry with
    | none => .error .form
    | some (host, remainder) =>
      match remainder with
      | ':' :: remainder =>
        match splitOnce ':' remainder with
        | none => .error .form
        | some (port, address) => parts p host port address
      | _ => .error .form
  | entry =>
    match splitOnce ':' entry with
    | none => .error .form
    | some (host, remainder) =>
      match splitOnce ':' remainder with
      | none => .error .form
      | some (port, address) => parts p host port address

/-- The loop over the addresses of an entry. -/
def parseAddresses : List Text → List IpAddr → Except ResolveError (List IpAddr)
  | [], addresses => .ok addresses
  | piece :: pieces, addresses =>
    if (trim p piece).isEmpty then .error .emptyAddress
    else
      match p.parseIp (trimMatches isBracket (trim p piece)) with
      | none => .error .address
      | some address =>
        parseAddresses pieces (if address ∈ addresses then addresses else addresses ++ [address])

def parseEntry (entry : Text) : Except ResolveError HostResolveEntry :=
  let entry := trim p entry
  if entry.head? = some '+' || entry.head? = some '-' then .error .unsupportedPrefix
  else
    match splitEntry p entry with
    | .error error => .error error
    | .ok (host, port, address) =>
      match parseBelow (2 ^ 16) port with
      | none => .error .port
      | some port =>
        match parseAddresses p (address.splitOn ',') [] with
        | .error error => .error error
        | .ok addresses => .ok ⟨trimMatches isBracket host, port, addresses⟩

abbrev HostResolveOverrides := List HostResolveEntry

namespace HostResolveOverrides

def parse (entries : List Text) : Except ResolveError HostResolveOverrides :=
  entries.mapM (parseEntry p)

/-- The loop of `addresses_for`: the last exact match and the last wildcard so far. -/
def addressesForStep (host : Text) (port : Nat)
    (found : Option (List IpAddr) × Option (List IpAddr))
    (entry : HostResolveEntry) : Option (List IpAddr) × Option (List IpAddr) :=
  if entry.port ≠ port then found
  else if entry.host = ['*'] then (found.1, some entry.addresses)
  else if eqIgnoreAsciiCase entry.host host then (some entry.addresses, found.2)
  else found

def addressesFor (entries : HostResolveOverrides) (host : Text) (port : Nat) :
    Option (List IpAddr) :=
  let found := entries.foldl (addressesForStep host port) (none, none)
  found.1.or found.2

def formatHost (host : Text) : Text :=
  if host ≠ ['*'] ∧ ':' ∈ host then '[' :: host ++ [']'] else host

/-- `curl_entry`: the entry as it is written for curl, up to how numbers and addresses are
written. -/
def curlEntry (entry : HostResolveEntry) : HostResolveEntry :=
  { entry with host := formatHost entry.host }

def normalizedEntries (entries : HostResolveOverrides) : List HostResolveEntry :=
  entries.map curlEntry

end HostResolveOverrides

end Parse

end Moli.Connect
