import Moli.Connect.Target
import Moli.Lib.Ensures

/-!
# Blocked addresses and fixed hosts

The check of a direct request, the list it leaves for curl and the meaning of that list agree on
domains and IPv4 addresses. The host of an IPv6 URL is written in brackets when fixed entries are
looked up for the check, and entries are kept without them, so the check misses the entry that curl
then uses; `guarded_iff` says exactly when the request is safe.
-/

namespace Moli.Connect

open CurlList HostResolveOverrides List
open Lib.Text (eqIgnoreAsciiCase trimMatches)

/-! ## Texts -/

theorem head_trimMatches {q : Char → Bool} {s : Text} {c : Char}
    (h : (trimMatches q s).head? = some c) : q c = false := by
  have hprefix : trimMatches q s <+: s.dropWhile q := rdropWhile_prefix q (s.dropWhile q)
  have hhead : (s.dropWhile q).head? = some c := by
    obtain ⟨rest, hrest⟩ := hprefix
    rw [← hrest, head?_append, h]
    rfl
  have hnot := head?_dropWhile_not q s
  rw [hhead] at hnot
  exact hnot

/-- Only a letter becomes a small letter. -/
theorem toLower_other {c d : Char} (h : c.toLower = d) (hd : d.val.toNat < 97) : c = d := by
  unfold Char.toLower at h
  split_ifs at h with hupper
  · have hlow : 65 ≤ c.val.toNat := hupper.1
    have hhigh : c.val.toNat ≤ 90 := hupper.2
    have hval : c.val + ('a'.val - 'A'.val) = d.val := congrArg Char.val h
    have hnat := congrArg UInt32.toNat hval
    rw [UInt32.toNat_add] at hnat
    have hconst : ('a'.val - 'A'.val).toNat = 32 := by decide
    omega
  · exact h

/-- The host of an entry does not begin with a bracket. -/
def Bare (entry : HostResolveEntry) : Prop := entry.host.head? ≠ some '['

variable {p : Platform} {entries : HostResolveOverrides} {url : Url}

theorem bare_parseEntry {text : Text} {entry : HostResolveEntry}
    (h : parseEntry p text = .ok entry) : Bare entry := by
  unfold parseEntry at h
  dsimp only at h
  split_ifs at h
  split at h
  · cases h
  split at h
  · cases h
  split at h
  · cases h
  cases h
  intro hhead
  have := head_trimMatches hhead
  cases this

theorem bare_parse {texts : List Text} (h : parse p texts = .ok entries) :
    ∀ entry ∈ entries, Bare entry := by
  intro entry hentry
  obtain ⟨i, hi, rfl⟩ := getElem_of_mem hentry
  have hparsed := Lib.mapM_eq_ok h
  exact bare_parseEntry (hparsed.get (hparsed.length_eq ▸ hi) hi)

theorem unbracket_formatHost {host : Text} (h : host.head? ≠ some '[') :
    unbracket (formatHost host) = host := by
  unfold formatHost
  split_ifs
  · exact dropLast_concat ..
  · unfold unbracket
    split
    · exact absurd rfl h
    · rfl

theorem formatHost_star {host : Text} : formatHost host = ['*'] ↔ host = ['*'] := by
  unfold formatHost
  split_ifs with h
  · exact ⟨fun hstar => (by cases hstar), fun hstar => absurd hstar h.1⟩
  · rfl

/-! ## The last matching entry -/

theorem lastWith_concat (l : List HostResolveEntry) (entry : HostResolveEntry)
    (q : HostResolveEntry → Bool) :
    lastWith (l ++ [entry]) q = if q entry then some entry.addresses else lastWith l q := by
  unfold lastWith
  by_cases hq : q entry = true <;> simp [hq]

theorem lastWith_congr {l : List HostResolveEntry} {q q' : HostResolveEntry → Bool}
    (h : ∀ entry ∈ l, q entry = q' entry) : lastWith l q = lastWith l q' := by
  rw [lastWith, filter_congr h, lastWith]

theorem lastWith_normalized (entries : HostResolveOverrides) (q : HostResolveEntry → Bool) :
    lastWith entries.normalizedEntries q = lastWith entries (q ∘ curlEntry) := by
  unfold lastWith normalizedEntries
  rw [filter_map, getLast?_map, Option.map_map]
  rfl

/-- The last entry of a host and port, as entries are kept. -/
def exactFor (entries : HostResolveOverrides) (host : Text) (port : Nat) : Option (List IpAddr) :=
  lastWith entries fun entry => entry.port = port && eqIgnoreAsciiCase entry.host host

def wildcardFor (entries : HostResolveOverrides) (port : Nat) : Option (List IpAddr) :=
  lastWith entries fun entry => entry.port = port && entry.host = ['*']

theorem exact_normalized (h : ∀ entry ∈ entries, Bare entry) (host : Text) (port : Nat) :
    exact entries.normalizedEntries host port = exactFor entries host port := by
  refine (lastWith_normalized entries _).trans (lastWith_congr fun entry hentry => ?_)
  simp only [Function.comp_apply, curlEntry, unbracket_formatHost (h entry hentry)]
  rfl

theorem wildcard_normalized (entries : HostResolveOverrides) (port : Nat) :
    wildcard entries.normalizedEntries port = wildcardFor entries port := by
  refine (lastWith_normalized entries _).trans (lastWith_congr fun entry _ => ?_)
  simp only [Function.comp_apply, curlEntry, formatHost_star]
  rfl

theorem wildcardFor_concat (entries : HostResolveOverrides) (entry : HostResolveEntry)
    (port : Nat) : wildcardFor (entries ++ [entry]) port =
      if entry.port = port ∧ entry.host = ['*'] then some entry.addresses
      else wildcardFor entries port := by
  rw [wildcardFor, lastWith_concat]
  simp [wildcardFor]

theorem eqIgnoreAsciiCase_star {host : Text} :
    eqIgnoreAsciiCase host ['*'] = true ↔ host = ['*'] := by
  refine ⟨fun h => ?_, fun h => by rw [h]; rfl⟩
  have hmap : host.map Char.toLower = ['*'] := of_decide_eq_true h
  obtain ⟨c, hhost, hc⟩ := map_eq_singleton_iff.1 hmap
  rw [hhost, toLower_other hc (by decide)]

theorem foldl_addressesFor (entries : HostResolveOverrides) (host : Text) (port : Nat) :
    entries.foldl (addressesForStep host port) (none, none) =
      (lastWith entries (fun entry =>
        entry.port = port && (entry.host ≠ ['*'] && eqIgnoreAsciiCase entry.host host)),
      wildcardFor entries port) := by
  induction entries using reverseRecOn with
  | nil => rfl
  | append_singleton entries entry ih =>
    rw [foldl_append, ih, wildcardFor_concat, lastWith_concat]
    simp only [foldl_cons, addressesForStep]
    by_cases hport : entry.port = port
    · by_cases hstar : entry.host = ['*']
      · simp [hport, hstar]
      · by_cases heq : eqIgnoreAsciiCase entry.host host = true <;> simp [hport, hstar, heq]
    · simp [hport]

theorem eqIgnoreAsciiCase_comm (s t : Text) : eqIgnoreAsciiCase s t = eqIgnoreAsciiCase t s := by
  rw [eqIgnoreAsciiCase, eqIgnoreAsciiCase, decide_eq_decide]
  exact eq_comm

/-- The entries of `*` are the wildcards, also for a host of that name. -/
theorem addressesFor_eq (entries : HostResolveOverrides) (host : Text) (port : Nat) :
    entries.addressesFor host port =
      (exactFor entries host port).or (wildcardFor entries port) := by
  unfold addressesFor
  dsimp only
  rw [foldl_addressesFor]
  by_cases hhost : host = ['*']
  · subst hhost
    have hexact : exactFor entries ['*'] port = wildcardFor entries port := by
      refine lastWith_congr fun entry _ => ?_
      rw [Bool.eq_iff_iff]
      simp [eqIgnoreAsciiCase_star]
    have hnone : lastWith entries (fun entry =>
        entry.port = port && (entry.host ≠ ['*'] && eqIgnoreAsciiCase entry.host ['*'])) =
          none := by
      rw [lastWith, filter_eq_nil_iff.2 fun entry _ => ?_]
      · rfl
      · simp [eqIgnoreAsciiCase_star]
    rw [hnone, hexact]
    cases wildcardFor entries port <;> rfl
  · congr 1
    refine lastWith_congr fun entry _ => ?_
    by_cases hstar : entry.host = ['*']
    · have hne : eqIgnoreAsciiCase entry.host host = false := by
        rw [hstar, eqIgnoreAsciiCase_comm, ← Bool.not_eq_true, eqIgnoreAsciiCase_star]
        exact hhost
      simp [hne]
    · simp [hstar]

/-- A host in brackets has no entry. -/
theorem exactFor_bracket (h : ∀ entry ∈ entries, Bare entry) (text : Text) (port : Nat) :
    exactFor entries ('[' :: text) port = none := by
  rw [exactFor, lastWith, filter_eq_nil_iff.2 fun entry hentry => ?_]
  · rfl
  · rw [Bool.and_eq_true, not_and]
    intro _ heq
    have hmap : entry.host.map Char.toLower = ('[' :: text).map Char.toLower :=
      of_decide_eq_true heq
    obtain ⟨c, rest, hhost, hc, -⟩ := map_eq_cons_iff.1 hmap
    refine h entry hentry ?_
    rw [hhost, toLower_other hc (by decide)]
    rfl

/-! ## The list that is left -/

section Direct

variable {config : FetchConfig} {answer : List IpAddr}

/-- What a direct request promises: curl connects to admitted addresses only, and has some. -/
def Guarded (p : Platform) (config : FetchConfig) (url : Url) (answer : List IpAddr) : Prop :=
  ∀ list, directRequest p config url answer = .ok list →
    ∃ addresses, CurlList.addresses p list url = some addresses ∧
      ∀ address ∈ addresses, config.networkAddressPolicy.checkAddress address = true

theorem checked_ok {admitted : Bool} : checked admitted = .ok () ↔ admitted = true := by
  cases admitted <;> simp [checked]

/-- The check looks at the fixed addresses, or else at the literal. -/
theorem enforce_ok_iff (henforced : config.networkAddressPolicy.isEnforced = true)
    (hparse : parse p config.httpHostResolve = .ok entries) :
    enforceRequestTargetAddressPolicy p config url = .ok () ↔
      ∀ addresses,
        (entries.addressesFor (url.hostStr p) url.portOrKnownDefault).or (literal url.host) =
        some addresses → config.networkAddressPolicy.checkAddresses addresses = true := by
  have hoverrides : parseOverrides p config = .ok entries := by
    rw [parseOverrides, hparse]
    rfl
  unfold enforceRequestTargetAddressPolicy
  dsimp only
  rw [henforced, hoverrides]
  simp only [Except.bind]
  cases entries.addressesFor (url.hostStr p) url.portOrKnownDefault with
  | some addresses => simp [checked_ok]
  | none => cases url.host <;> simp [checked_ok, literal, NetworkAddressPolicy.checkAddresses]

theorem directRequest_ok_iff
    (hparse : parse p config.httpHostResolve = .ok entries)
    {list : List HostResolveEntry} :
    directRequest p config url answer = .ok list ↔
      enforceRequestTargetAddressPolicy p config url = .ok () ∧
      if url.host.isDomain ∧ entries.addressesFor (url.hostStr p) url.portOrKnownDefault = none then
        config.networkAddressPolicy.checkAddresses answer = true ∧
          entries.normalizedEntries ++ [⟨url.hostStr p, url.portOrKnownDefault, answer⟩] = list
      else entries.normalizedEntries = list := by
  have hoverrides : parseOverrides p config = .ok entries := by
    rw [parseOverrides, hparse]
    rfl
  unfold directRequest
  cases henforce : enforceRequestTargetAddressPolicy p config url with
  | error error => simp [Except.bind]
  | ok _ =>
    rw [hoverrides]
    simp only [Except.bind]
    unfold ProxyRoute.connectionDnsEndpoint
    split_ifs with hlookup
    · unfold install
      cases hchecked : config.networkAddressPolicy.checkAddresses answer <;>
        simp [checked, Except.bind]
    · simp

/-- The last entry with the host of a domain is the one that was pinned. -/
theorem addresses_pinned {text : Text} {h : '[' ∉ text} (hhost : url.host = .domain text h)
    (list : List HostResolveEntry) :
    CurlList.addresses p (list ++ [⟨url.hostStr p, url.portOrKnownDefault, answer⟩]) url =
      some answer := by
  have hstr : url.hostStr p = text := by
    rw [Url.hostStr, hhost]
  have hbare : unbracket text = text := by
    unfold unbracket
    split
    · exact absurd (mem_cons_self ..) h
    · rfl
  rw [CurlList.addresses, exact, lastWith_concat]
  simp [hstr, hhost, hostText, hbare, eqIgnoreAsciiCase]

theorem addresses_normalized (hbare : ∀ entry ∈ entries, Bare entry) :
    CurlList.addresses p entries.normalizedEntries url =
      (exactFor entries (hostText p url.host) url.portOrKnownDefault).or
        ((wildcardFor entries url.portOrKnownDefault).or (literal url.host)) := by
  rw [CurlList.addresses, exact_normalized hbare, wildcard_normalized]

theorem isSome_literal (host : Host) : (literal host).isSome = !host.isDomain := by
  cases host <;> rfl

theorem hostStr_eq (h : ∀ address, url.host ≠ .ipv6 address) :
    url.hostStr p = hostText p url.host := by
  unfold Url.hostStr
  cases hhost : url.host with
  | domain | ipv4 => rfl
  | ipv6 address => exact absurd hhost (h address)

section
variable (henforced : config.networkAddressPolicy.isEnforced = true)
  (hparse : parse p config.httpHostResolve = .ok entries)
include henforced hparse

/-- The check and curl agree on every other host. -/
theorem guarded_of_not_ipv6 (h : ∀ address, url.host ≠ .ipv6 address) :
    Guarded p config url answer := by
  intro list hlist
  obtain ⟨henforce, hleft⟩ := (directRequest_ok_iff hparse).1 hlist
  split_ifs at hleft with hlookup
  · obtain ⟨hanswer, rfl⟩ := hleft
    cases hhost : url.host with
    | domain text hbracket =>
      exact ⟨answer, addresses_pinned hhost _, all_eq_true.1 hanswer⟩
    | ipv4 address =>
      rw [hhost] at hlookup
      cases hlookup.1
    | ipv6 address => exact absurd hhost (h address)
  · subst hleft
    have haddresses : CurlList.addresses p entries.normalizedEntries url =
        (entries.addressesFor (url.hostStr p) url.portOrKnownDefault).or (literal url.host) := by
      rw [addresses_normalized (bare_parse hparse), addressesFor_eq, hostStr_eq h, Option.or_assoc]
    cases hsome : CurlList.addresses p entries.normalizedEntries url with
    | some addresses =>
      rw [haddresses] at hsome
      exact ⟨addresses, rfl, all_eq_true.1 ((enforce_ok_iff henforced hparse).1 henforce _ hsome)⟩
    | none =>
      rw [haddresses, Option.or_eq_none_iff] at hsome
      have hliteral := isSome_literal url.host
      rw [hsome.2] at hliteral
      refine absurd ⟨?_, hsome.1⟩ hlookup
      simpa using hliteral

/-- For an IPv6 address the check looks at the wildcard or the literal only. -/
theorem guarded_ipv6_iff {address : Ipv6} (hhost : url.host = .ipv6 address) :
    Guarded p config url answer ↔ ∀ addresses,
      exactFor entries (p.ipv6Text address) url.portOrKnownDefault = some addresses →
      (∀ a ∈ addresses, config.networkAddressPolicy.checkAddress a = true) ∨
      ∃ a ∈ (wildcardFor entries url.portOrKnownDefault).getD [.v6 address],
        config.networkAddressPolicy.checkAddress a = false := by
  have hbare := bare_parse hparse
  have hlookup : entries.addressesFor (url.hostStr p) url.portOrKnownDefault =
      wildcardFor entries url.portOrKnownDefault := by
    rw [addressesFor_eq, Url.hostStr, hhost]
    dsimp only
    rw [cons_append, exactFor_bracket hbare]
    rfl
  have hliteral : literal url.host = some [.v6 address] := by
    rw [hhost]
    rfl
  have haddresses : CurlList.addresses p entries.normalizedEntries url =
      some ((exactFor entries (p.ipv6Text address) url.portOrKnownDefault).getD
        ((wildcardFor entries url.portOrKnownDefault).getD [.v6 address])) := by
    rw [addresses_normalized hbare, hhost]
    dsimp only [hostText]
    cases exactFor entries (p.ipv6Text address) url.portOrKnownDefault <;>
      cases wildcardFor entries url.portOrKnownDefault <;> rfl
  have hrequest : ∀ list, directRequest p config url answer = .ok list ↔
      (∀ a ∈ (wildcardFor entries url.portOrKnownDefault).getD [.v6 address],
        config.networkAddressPolicy.checkAddress a = true) ∧ entries.normalizedEntries = list := by
    intro list
    rw [directRequest_ok_iff hparse, enforce_ok_iff henforced hparse, hlookup, hliteral, hhost]
    simp [Host.isDomain, NetworkAddressPolicy.checkAddresses]
  constructor
  · intro h addresses hexact
    by_cases hchecked : ∀ a ∈ (wildcardFor entries url.portOrKnownDefault).getD [.v6 address],
        config.networkAddressPolicy.checkAddress a = true
    · obtain ⟨used, hused, hsafe⟩ := h _ ((hrequest _).2 ⟨hchecked, rfl⟩)
      rw [haddresses, hexact] at hused
      cases hused
      exact .inl hsafe
    · simp only [not_forall, Bool.not_eq_true] at hchecked
      obtain ⟨a, ha, hblocked⟩ := hchecked
      exact .inr ⟨a, ha, hblocked⟩
  · intro h list hlist
    obtain ⟨hchecked, rfl⟩ := (hrequest list).1 hlist
    refine ⟨_, haddresses, ?_⟩
    cases hexact : exactFor entries (p.ipv6Text address) url.portOrKnownDefault with
    | none => exact hchecked
    | some addresses =>
      refine (h addresses hexact).resolve_right ?_
      rintro ⟨a, ha, hblocked⟩
      rw [hchecked a ha] at hblocked
      cases hblocked

/-- A direct request is safe exactly if it does not go to an IPv6 address that has fixed addresses
of its own which are not all admitted, while the addresses that are checked in their place are. -/
theorem guarded_iff :
    Guarded p config url answer ↔
      ∀ address, url.host = .ipv6 address → ∀ addresses,
        exactFor entries (p.ipv6Text address) url.portOrKnownDefault = some addresses →
        (∀ a ∈ addresses, config.networkAddressPolicy.checkAddress a = true) ∨
        ∃ a ∈ (wildcardFor entries url.portOrKnownDefault).getD [.v6 address],
          config.networkAddressPolicy.checkAddress a = false := by
  constructor
  · intro h address hhost
    exact (guarded_ipv6_iff henforced hparse hhost).1 h
  · intro h
    cases hhost : url.host with
    | ipv6 address => exact (guarded_ipv6_iff henforced hparse hhost).2 (h address hhost)
    | domain | ipv4 =>
      exact guarded_of_not_ipv6 henforced hparse fun address heq =>
        (by rw [hhost] at heq; cases heq)

end

end Direct

namespace Sample

/-- A public IPv6 address and its text. -/
def publicAddress : Ipv6 := ⟨0x2606, 0x4700, 0, 0, 0, 0, 0, 0x1111⟩

def publicText : Text := ['2', '6', '0', '6', ':', '4', '7', '0', '0', ':', ':', '1', '1', '1', '1']

def internalText : Text := ['1', '0', '.', '0', '.', '0', '.', '1']

/-- The platform, at the texts of the sample. -/
def platform : Platform where
  isWhitespace := (· = ' ')
  parseIp text :=
    if text = internalText then some (.v4 ⟨10, 0, 0, 1⟩)
    else if text = publicText then some (.v6 publicAddress)
    else none
  ipv4Text _ := internalText
  ipv6Text _ := publicText
  ipv6Text_bracket _ := by decide
  ipv4Text_bracket _ := by decide

/-- Private networks are blocked, and the public address is fixed to an internal one. -/
def config : FetchConfig where
  httpHostResolve := ['[' :: publicText ++ [']', ':', '8', '0', ':'] ++ internalText]
  blockPrivateNetworks := true
  blockCidrs := []

def fixed : HostResolveOverrides := [⟨publicText, 80, [.v4 ⟨10, 0, 0, 1⟩]⟩]

theorem parse_config : parse platform config.httpHostResolve = .ok fixed := by
  rfl

def request : Url := ⟨.http, .ipv6 publicAddress, none⟩

end Sample

theorem guarded_iff_sample :
    Guarded Sample.platform Sample.config ⟨.https, .ipv6 Sample.publicAddress, none⟩ [] :=
  (guarded_iff rfl Sample.parse_config).2 fun address hhost addresses hexact => by
    cases hhost
    cases hexact

/-- The request for a public IPv6 address is admitted, and curl connects to the internal address. -/
theorem internal_address_reached :
    parse Sample.platform Sample.config.httpHostResolve = .ok Sample.fixed ∧
      Sample.config.networkAddressPolicy.isEnforced = true ∧
      ¬ Guarded Sample.platform Sample.config Sample.request [.v4 ⟨93, 184, 216, 34⟩] := by
  refine ⟨Sample.parse_config, rfl, fun h => ?_⟩
  obtain ⟨addresses, haddresses, hsafe⟩ := h _ rfl
  have hinternal : addresses = [.v4 ⟨10, 0, 0, 1⟩] := Option.some.inj (haddresses.symm.trans rfl)
  have hchecked := hsafe (.v4 ⟨10, 0, 0, 1⟩) (by rw [hinternal]; exact mem_singleton.2 rfl)
  cases hchecked

end Moli.Connect
