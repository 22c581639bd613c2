import Moli.Cookies.Verify.Store

/-!
# Insecure origins and Secure cookies

Browser-policy writes from URLs that are not secure leave every unexpired Secure cookie as it is,
and none of them is accepted over such a cookie (`insecure_writes_keep_secure`). "Over" is meant as
in the check: the domains overlap and the path of the incoming cookie path-matches the path of the
Secure one.
-/

namespace Moli.Cookies

open Lib.Text (ascii)

open Lib

variable {p : Platform} {store store' : CookieStore} {checked c : Cookie} {key : CookieStoreKey}

/-! ## Overlap -/

/-- The domains are equal, or one is a subdomain of the other. -/
def DomainsOverlap (left right : Text) : Prop :=
  left = right ∨ (∃ labels, left = labels ++ dot :: right) ∨ ∃ labels, right = labels ++ dot :: left

/-- A request path path-matches a cookie path. -/
def PathMatches (request path : Text) : Prop :=
  request = path ∨ ∃ rest, request = path ++ rest ∧
    (path.getLast? = some slash ∨ rest.head? = some slash)

namespace CookieStore

theorem domainsOverlap_iff {left right : Text} :
    domainsOverlap left right = true ↔ DomainsOverlap left right := by
  simp only [domainsOverlap, Bool.or_eq_true, beq_iff_eq, List.isSuffixOf_iff_suffix, or_assoc]
  exact or_congr_right (or_congr (exists_congr fun _ => eq_comm) (exists_congr fun _ => eq_comm))

theorem pathOverlap_iff {left right : Text} :
    pathOverlap left right = true ↔ PathMatches left right := by
  simp only [pathOverlap, Bool.or_eq_true, Bool.and_eq_true, beq_iff_eq, List.isPrefixOf_iff_prefix]
  refine or_congr_right ⟨?_, ?_⟩
  · rintro ⟨⟨rest, rfl⟩, hends⟩
    refine ⟨rest, rfl, hends.imp_right fun hslash => ?_⟩
    rwa [List.getElem?_append_right le_rfl, Nat.sub_self, ← List.head?_eq_getElem?] at hslash
  · rintro ⟨rest, rfl, hends⟩
    refine ⟨⟨rest, rfl⟩, hends.imp_right fun hslash => ?_⟩
    rwa [List.getElem?_append_right le_rfl, Nat.sub_self, ← List.head?_eq_getElem?]

end CookieStore

/-- An incoming cookie would be written over another one. -/
structure Overlays (incoming existing : Cookie) : Prop where
  name : incoming.name = existing.name
  partitionKey : incoming.partitionKey = existing.partitionKey
  domain : DomainsOverlap incoming.domain.text existing.domain.text
  path : PathMatches incoming.path.text existing.path.text

theorem Overlays.of_key (h : CookieStoreKey.forCookie checked = .forCookie c) :
    Overlays checked c := by
  simp only [CookieStoreKey.forCookie, CookieStoreKey.mk.injEq] at h
  obtain ⟨hdomain, hpath, hname, hpartition⟩ := h
  exact ⟨hname, hpartition, .inl hdomain, .inl hpath⟩

/-! ## Checks -/

/-- A write of a page or server whose URL is not secure. -/
structure SetCall.Insecure (call : SetCall) : Prop where
  enforced : call.context.enforceBrowserPolicy = true
  source : call.context.source = .http ∨ call.context.source = .document
  url : isSecure call.context.url = false

namespace CookieStore

theorem failFirst_eq_ok {errors : List CookieError} {u : Unit} (h : failFirst errors = .ok u) :
    errors = [] := by
  cases errors with
  | nil => rfl
  | cons error errors => cases h

theorem checkInsert_spec {cookie : Cookie} {context : InsertContext}
    (h : store.checkInsert p cookie context = .ok checked) :
    store.canonicalizeCookieForStoreChecks p cookie context.url = .ok checked ∧
      attributeRejections checked context = [] ∧
        store.canonicalRejections p checked context = [] := by
  obtain ⟨canonical, hcanonical, h⟩ := bind_eq_ok.1 h
  obtain ⟨_, hattributes, h⟩ := bind_eq_ok.1 h
  obtain ⟨_, hchecks, h⟩ := bind_eq_ok.1 h
  obtain rfl := Except.ok.inj h
  exact ⟨hcanonical, failFirst_eq_ok hattributes, failFirst_eq_ok hchecks⟩

/-- What passes the checks of an insecure write is not Secure and overlays no Secure cookie. -/
theorem checkInsert_insecure {call : SetCall} {cookie : Cookie} (hcall : call.Insecure)
    (h : store.checkInsert p cookie call.context = .ok checked) :
    checked.isSecure = false ∧
      ∀ c ∈ store.iterUnexpired p, c.isSecure = true → ¬ Overlays checked c := by
  obtain ⟨-, hattributes, hcanonical⟩ := checkInsert_spec h
  have hsecure : checked.isSecure = false := by
    simp only [attributeRejections, List.append_eq_nil_iff] at hattributes
    simpa [hcall.enforced, hcall.url] using hattributes.1.1.1.1.2
  refine ⟨hsecure, fun c hmem hc hover => ?_⟩
  have hoverlay : store.overlaysSecure p checked call.context = false := by
    simp only [canonicalRejections, List.append_eq_nil_iff] at hcanonical
    simpa using hcanonical.2
  have hsource : call.context.source ≠ .cdp := by
    rcases hcall.source with hsource | hsource <;> simp [hsource]
  have hnone : store.hasSecureOverlayConflict p checked = false := by
    simpa [overlaysSecure, hcall.enforced, hcall.url, hsecure, hsource] using hoverlay
  rw [hasSecureOverlayConflict, List.any_eq_false] at hnone
  refine hnone c hmem ?_
  simp only [Bool.and_eq_true, beq_iff_eq]
  exact ⟨⟨⟨⟨hover.name.symm, hover.partitionKey.symm⟩, hc⟩, domainsOverlap_iff.2 hover.domain⟩,
    pathOverlap_iff.2 hover.path⟩

/-! ## Writes -/

theorem Evicted.get_secure (h : Evicted p false store store') (hget : store.get p key = some c)
    (hc : c.isSecure = true) : store'.get p key = some c := by
  induction h with
  | refl => exact hget
  | tail _ hstep ih =>
    obtain ⟨other, hother, hsecure, rfl⟩ := hstep
    rw [get_removeWithPartitionKey, if_neg, ih]
    rintro rfl
    obtain rfl := Option.some.inj (hother.symm.trans ih)
    exact absurd (hsecure hc) Bool.false_ne_true

/-- A write that overlays no Secure cookie leaves them alone. -/
theorem WriteEffect.get_secure {outcome : InsertResult}
    (h : WriteEffect p checked store outcome store') (hsecure : checked.isSecure = false)
    (hfree : ∀ c ∈ store.iterUnexpired p, c.isSecure = true → ¬ Overlays checked c)
    (hget : store.get p key = some c) (hc : c.isSecure = true) : store'.get p key = some c := by
  have hkey : key ≠ .forCookie checked := by
    have hplace := key_of_get hget
    rintro rfl
    refine hfree c (mem_iterUnexpired.2 ?_) hc (.of_key hplace.symm)
    rw [hplace, hget]
  cases h with
  | refused => exact hget
  | full hroom => exact (hsecure ▸ hroom).get_secure hget hc
  | expired hold => rw [get_expireExisting_of_ne (key_of_get hold ▸ hkey), hget]
  | stored hlive hroom hready hsame =>
    rw [get_upsert (hsame.isExpired.trans hlive), hsame.key, if_neg hkey, hready.get_eq]
    exact (hsecure ▸ hroom).get_secure hget hc

end CookieStore

namespace SetCall

/-- The store after a sequence of writes. -/
def runAll (p : Platform) (store : CookieStore) (calls : List SetCall) : CookieStore :=
  calls.foldl (fun store call => (call.run p store).2) store

variable {call : SetCall} {calls : List SetCall}

theorem run_get_secure (hcall : call.Insecure) (hget : store.get p key = some c)
    (hc : c.isSecure = true) : (call.run p store).2.get p key = some c := by
  rcases store.setWithOrdering_cases call.cookie call.context call.priorResult call.restore with
    ⟨-, hsame⟩ | ⟨checked, outcome, hcheck, heffect, -⟩
  · rw [SetCall.run, hsame, hget]
  · obtain ⟨hsecure, hfree⟩ := CookieStore.checkInsert_insecure hcall hcheck
    exact heffect.get_secure hsecure hfree hget hc

theorem runAll_get_secure (hcalls : ∀ call ∈ calls, call.Insecure) (hget : store.get p key = some c)
    (hc : c.isSecure = true) : (runAll p store calls).get p key = some c := by
  induction calls generalizing store with
  | nil => exact hget
  | cons call calls ih =>
    obtain ⟨hcall, hcalls⟩ := List.forall_mem_cons.1 hcalls
    exact ih hcalls (run_get_secure hcall hget hc)

theorem run_accepted (hcall : call.Insecure) (h : (call.run p store).1.status.isAccepted = true)
    {accepted : Cookie} (haccepted : store.canonicalizeCookieForStoreChecks p
      (CookieStore.prepare p call.cookie call.context call.restore) call.context.url = .ok accepted)
    (hmem : c ∈ store.iterUnexpired p) (hc : c.isSecure = true) : ¬ Overlays accepted c := by
  rcases store.setWithOrdering_cases call.cookie call.context call.priorResult call.restore with
    ⟨hrejected, -⟩ | ⟨checked, outcome, hcheck, -, -⟩
  · exact absurd (hrejected.symm.trans h) Bool.false_ne_true
  · obtain rfl := Except.ok.inj
      ((CookieStore.checkInsert_spec hcheck).1.symm.trans haccepted)
    exact (CookieStore.checkInsert_insecure hcall hcheck).2 c hmem hc

end SetCall

/-! ## Runs -/

/-- In every run of writes from insecure URLs, the unexpired Secure cookies stay as they are under
their keys, and no write is accepted over one. -/
theorem insecure_writes_keep_secure (p : Platform) (store : CookieStore) (calls : List SetCall)
    (hcalls : ∀ call ∈ calls, call.Insecure) :
    (∀ key c, store.get p key = some c → c.isSecure = true →
      (SetCall.runAll p store calls).get p key = some c) ∧
    ∀ before call after, calls = before ++ call :: after →
      (call.run p (SetCall.runAll p store before)).1.status.isAccepted = true →
      ∀ accepted, (SetCall.runAll p store before).canonicalizeCookieForStoreChecks p
          (CookieStore.prepare p call.cookie call.context call.restore) call.context.url =
            .ok accepted →
        ∀ c ∈ (SetCall.runAll p store before).iterUnexpired p, c.isSecure = true →
          ¬ Overlays accepted c := by
  refine ⟨fun key c hget hc => SetCall.runAll_get_secure hcalls hget hc, ?_⟩
  rintro before call after rfl haccept accepted haccepted c hmem hc
  exact SetCall.run_accepted (hcalls call (by simp)) haccept haccepted hmem hc

/-! ## A Secure cookie with a longer path -/

namespace Sample

def secured : CookieStore where
  cookies := CookieMap.empty.put (sid "/account" (some true))
  nextCreationIndex := 1
  nextAccessIndex := 1
  limits := ⟨180, 3300⟩
  observer := none
  publicSuffixList := none

theorem insecure (path : String) : (call path).Insecure where
  enforced := rfl
  source := .inl rfl
  url := by
    have hurl : isSecure url = false := by decide +kernel
    exact hurl

end Sample

open Sample (sid platform call secured insecure)

theorem insecure_writes_keep_secure_sid :
    (SetCall.runAll platform secured [call "/account/x", call "/"]).get
      platform (.forCookie (sid "/account" (some true))) =
        some (sid "/account" (some true)) :=
  (insecure_writes_keep_secure platform secured
    [call "/account/x", call "/"] (by simp [insecure])).1 _ _
    (by decide +kernel) (by decide +kernel)

/-- The path of the Secure cookie path-matches the path of the accepted one. -/
theorem insecure_write_beside_secure :
    (call "/").Insecure ∧
    ((call "/").run platform secured).1.status.isAccepted = true ∧
    secured.canonicalizeCookieForStoreChecks platform
      (CookieStore.prepare platform (sid "/" none) Sample.context false) Sample.url =
        .ok (sid "/" none) ∧
    sid "/account" (some true) ∈ secured.iterUnexpired platform ∧
    (sid "/account" (some true)).isSecure = true ∧
    (sid "/" none).name = (sid "/account" (some true)).name ∧
    (sid "/" none).partitionKey = (sid "/account" (some true)).partitionKey ∧
    DomainsOverlap (sid "/" none).domain.text (sid "/account" (some true)).domain.text ∧
    PathMatches (sid "/account" (some true)).path.text (sid "/" none).path.text :=
  ⟨insecure "/", by decide +kernel, by decide +kernel, by decide +kernel, rfl, rfl, rfl,
    .inl rfl, .inr ⟨ascii "account", by decide +kernel, .inl (by decide +kernel)⟩⟩

end Moli.Cookies
