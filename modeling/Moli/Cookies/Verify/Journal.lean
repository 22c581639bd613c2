import Moli.Cookies.Verify.Store

/-!
# The observer's journal

Replaying what the observer has received gives the unexpired cookies of the store, up to their last
access (`journal_complete`). An operation changes the view of a store by the mutations it emits,
`Emits`, and such steps compose. A write that expires a cookie leaves it in the map with the Unix
epoch as its expiry time; before the epoch the clock does not count it as expired.
-/

namespace Moli.Cookies

open Function CookieStore

variable {p : Platform} {store store' store'' : CookieStore} {key k : CookieStoreKey}
variable {c old cookie : Cookie}

/-! ## Views -/

/-- Unexpired cookies by their keys. -/
abbrev View := CookieStoreKey → Option Cookie

def Cookie.contents (cookie : Cookie) : Cookie := { cookie with lastAccessIndex := 0 }

/-- Equal up to the last access. -/
def SameContents (v v' : View) : Prop :=
  ∀ key, (v key).map Cookie.contents = (v' key).map Cookie.contents

namespace SameContents

variable {v v' v'' : View}

theorem rfl' : SameContents v v := fun _ => rfl

theorem trans (h : SameContents v v') (h' : SameContents v' v'') : SameContents v v'' :=
  fun key => (h key).trans (h' key)

end SameContents

def CookieStoreMutation.apply : CookieStoreMutation → View → View
  | upsert cookie, v => update v (.forCookie cookie) (some cookie)
  | delete key, v => update v key none
  | clear, _ => fun _ => none

/-- What a list of mutations makes of a view. -/
def replayFrom (v : View) (mutations : List CookieStoreMutation) : View :=
  mutations.foldl (fun v mutation => mutation.apply v) v

/-- What the mutations make of an empty map. -/
def replay (mutations : List CookieStoreMutation) : View := replayFrom (fun _ => none) mutations

theorem SameContents.update {v v' : View} (h : SameContents v v') (key : CookieStoreKey)
    (x : Option Cookie) : SameContents (update v key x) (update v' key x) := by
  intro k
  by_cases hk : k = key
  · rw [hk, update_self, update_self]
  · rw [update_of_ne hk, update_of_ne hk, h]

theorem SameContents.apply {v v' : View} (h : SameContents v v') (mutation : CookieStoreMutation) :
    SameContents (mutation.apply v) (mutation.apply v') := by
  cases mutation with
  | upsert | delete => exact h.update _ _
  | clear => exact .rfl'

theorem SameContents.replayFrom {v v' : View} (h : SameContents v v')
    (mutations : List CookieStoreMutation) :
    SameContents (replayFrom v mutations) (replayFrom v' mutations) := by
  induction mutations generalizing v v' with
  | nil => exact h
  | cons mutation mutations ih => exact ih (h.apply mutation)

/-! ## Emissions -/

/-- A store changes by the mutations it emits. -/
structure Emits (p : Platform) (store : CookieStore) (mutations : List CookieStoreMutation)
    (store' : CookieStore) : Prop where
  observer : store'.observer = store.observer.map (· ++ mutations)
  view : SameContents (store'.get p) (replayFrom (store.get p) mutations)

/-- A store changes by some mutations it emits. -/
def Journaled (p : Platform) (store store' : CookieStore) : Prop :=
  ∃ mutations, Emits p store mutations store'

namespace Journaled

theorem trans (h : Journaled p store store') (h' : Journaled p store' store'') :
    Journaled p store store'' := by
  obtain ⟨mutations, hobserver, hview⟩ := h
  obtain ⟨mutations', hobserver', hview'⟩ := h'
  refine ⟨mutations ++ mutations', ?_, ?_⟩
  · rw [hobserver', hobserver, Option.map_map]
    congr 1
    funext log
    exact List.append_assoc ..
  · unfold replayFrom
    rw [List.foldl_append]
    exact hview'.trans (hview.replayFrom mutations')

/-- A change of counters and of last accesses. -/
theorem silent (hobserver : store'.observer = store.observer)
    (hview : SameContents (store'.get p) (store.get p)) : Journaled p store store' :=
  ⟨[], by simp [hobserver], hview⟩

theorem refl : Journaled p store store := .silent rfl .rfl'

theorem one (mutation : CookieStoreMutation)
    (hobserver : store'.observer = store.observer.map (· ++ [mutation]))
    (hview : store'.get p = mutation.apply (store.get p)) : Journaled p store store' :=
  ⟨[mutation], hobserver, by rw [hview]; exact .rfl'⟩

end Journaled

/-! ## Primitive changes -/

namespace CookieStore

theorem removeWithPartitionKey_journaled (store : CookieStore) (key : CookieStoreKey) :
    Journaled p store (store.removeWithPartitionKey key).2 := by
  have hview : (store.removeWithPartitionKey key).2.get p = update (store.get p) key none := by
    funext k
    rw [get_removeWithPartitionKey, update_apply]
  cases hremoved : store.getAny key with
  | none =>
    have hnone : store.get p key = none := by rw [get, hremoved, Option.filter_none]
    refine .silent ?_ ?_
    · rw [removeWithPartitionKey, hremoved]
    · rw [hview, ← hnone, update_eq_self]
      exact .rfl'
  | some removed =>
    refine .one (.delete (.forCookie removed)) ?_ ?_
    · rw [removeWithPartitionKey, hremoved]
      rfl
    · rw [hview, CookieMap.key_of_find hremoved]
      rfl

theorem clear_journaled : Journaled p store store.clear := by
  unfold clear
  split_ifs with hempty
  · exact .refl
  · exact .one .clear rfl rfl

theorem expireExisting_journaled (hnow : 0 ≤ p.now) :
    Journaled p store (store.expireExisting p old) := by
  refine .one (.delete (.forCookie old)) rfl ?_
  funext k
  refine (get_put_expired (expire_isExpired hnow)).trans ?_
  exact (update_apply ..).symm

theorem upsert_journaled (hlive : c.isExpired p = false) :
    Journaled p store (store.upsert c).2 := by
  refine .one (.upsert c) rfl ?_
  funext k
  rw [get_upsert hlive]
  exact (update_apply ..).symm

theorem touch_journaled (store : CookieStore) (key : CookieStoreKey) :
    Journaled p store (store.touchWithPartitionKey p key).2 := by
  unfold touchWithPartitionKey
  dsimp only [bumpAccessIndex]
  split
  next => exact .silent rfl .rfl'
  next cookie hget =>
    refine .silent rfl fun k => ?_
    have hlive : (cookie.touchWithAccessIndex store.nextAccessIndex).isExpired p = false :=
      (get_eq_some.1 hget).2
    have hkey : CookieStoreKey.forCookie cookie = key := key_of_get hget
    refine (congrArg (Option.map Cookie.contents) (get_put hlive)).trans ?_
    split_ifs with hk
    · have hplace : k = key := hk.trans hkey
      have hcookie : store.get p k = some cookie := hplace ▸ hget
      rw [hcookie]
      rfl
    · rfl

theorem Evicted.journaled {secure : Bool} (h : Evicted p secure store store') :
    Journaled p store store' := by
  induction h with
  | refl => exact .refl
  | tail _ hstep ih =>
    obtain ⟨c, -, -, rfl⟩ := hstep
    exact ih.trans (removeWithPartitionKey_journaled ..)

theorem Recounted.journaled (h : Recounted store store') : Journaled p store store' :=
  .silent h.observer (get_congr h.cookies ▸ .rfl')

theorem Ready.journaled (h : Ready p key store store') : Journaled p store store' := by
  cases h with
  | kept h => exact h.journaled
  | cleared _ h => exact (removeWithPartitionKey_journaled ..).trans h.journaled

theorem WriteEffect.journaled (hnow : 0 ≤ p.now) {outcome : InsertResult}
    (h : WriteEffect p cookie store outcome store') : Journaled p store store' := by
  cases h with
  | refused => exact .refl
  | full hroom => exact hroom.journaled
  | expired _ => exact expireExisting_journaled hnow
  | stored hlive hroom hready hsame =>
    exact (hroom.journaled.trans hready.journaled).trans
      (upsert_journaled (hsame.isExpired.trans hlive))

end CookieStore

/-! ## Operations and runs -/

theorem SetCall.run_journaled (hnow : 0 ≤ p.now) (call : SetCall) (store : CookieStore) :
    Journaled p store (call.run p store).2 := by
  rcases store.setWithOrdering_cases call.cookie call.context call.priorResult call.restore with
    ⟨-, hsame⟩ | ⟨checked, outcome, -, heffect, -⟩
  · rw [SetCall.run, hsame]
    exact .refl
  · exact heffect.journaled hnow

theorem foldl_journaled {ι : Type*} {step : CookieStore → ι → CookieStore}
    (hstep : ∀ store i, Journaled p store (step store i)) (l : List ι) (store : CookieStore) :
    Journaled p store (l.foldl step store) := by
  induction l generalizing store with
  | nil => exact .refl
  | cons i l ih => exact (hstep store i).trans (ih _)

theorem StoreOp.run_journaled (hnow : 0 ≤ p.now) (store : CookieStore) (op : StoreOp) :
    Journaled p store (op.run p store) := by
  cases op with
  | set call => exact call.run_journaled hnow store
  | remove key => exact removeWithPartitionKey_journaled ..
  | deleteMatching filter =>
    exact foldl_journaled (fun store key => removeWithPartitionKey_journaled store key) _ _
  | clear => exact clear_journaled
  | touch key => exact touch_journaled ..
  | query context =>
    show Journaled p store (store.getCookieAccessQueryResult p context).2
    unfold getCookieAccessQueryResult
    dsimp only
    split_ifs
    · exact foldl_journaled (fun store cookie => touch_journaled store _) _ _
    · exact .refl
  | setLimits limits => exact .silent rfl .rfl'

/-- An empty store with an observer that has received nothing. -/
def CookieStore.observed (limits : CookieStoreLimits) (publicSuffixList : Option (Text → Bool)) :
    CookieStore where
  cookies := .empty
  nextCreationIndex := 0
  nextAccessIndex := 0
  limits := limits
  observer := some []
  publicSuffixList := publicSuffixList

/-- A key and the contents of the cookie that a view has for it. -/
def View.entries (v : View) : Set (CookieStoreKey × Cookie) :=
  {entry | ∃ c, v entry.1 = some c ∧ c.contents = entry.2}

/-- The unexpired cookies of a store. -/
def CookieStore.unexpiredEntries (p : Platform) (store : CookieStore) :
    Set (CookieStoreKey × Cookie) :=
  {entry | ∃ c ∈ store.iterUnexpired p, CookieStoreKey.forCookie c = entry.1 ∧ c.contents = entry.2}

/-- The journal is complete: the observer has received what gives the unexpired cookies. -/
def JournalComplete (p : Platform) (store : CookieStore) : Prop :=
  ∃ log, store.observer = some log ∧ (replay log).entries = store.unexpiredEntries p

theorem SameContents.entries_eq {v v' : View} (h : SameContents v v') : v.entries = v'.entries := by
  ext ⟨key, x⟩
  have hkey := h key
  simp only [View.entries, Set.mem_ofPred_eq, ← Option.map_eq_some_iff, hkey]

theorem CookieStore.entries_get (store : CookieStore) :
    View.entries (store.get p) = store.unexpiredEntries p := by
  ext ⟨key, x⟩
  simp only [unexpiredEntries, mem_iterUnexpired]
  constructor
  · rintro ⟨c, hget, hx⟩
    have hplace := key_of_get hget
    exact ⟨c, hplace ▸ hget, hplace, hx⟩
  · rintro ⟨c, hget, rfl, hx⟩
    exact ⟨c, hget, hx⟩

/-- In every run on a clock that has reached the Unix epoch, replaying the journal gives the
unexpired cookies, under their keys and up to their last access. -/
theorem journal_complete (p : Platform) (hnow : 0 ≤ p.now) (limits : CookieStoreLimits)
    (psl : Option (Text → Bool)) (ops : List StoreOp) :
    JournalComplete p (ops.foldl (StoreOp.run p) (.observed limits psl)) := by
  obtain ⟨log, hobserver, hview⟩ := foldl_journaled (StoreOp.run_journaled hnow) ops
    (.observed limits psl)
  exact ⟨log, hobserver, hview.entries_eq.symm.trans (entries_get _)⟩

theorem journal_complete_sid :
    JournalComplete Sample.platform
      ([.set (Sample.call "/"), .set (Sample.call "/account"), .clear].foldl
        (StoreOp.run Sample.platform) (.observed ⟨180, 3300⟩ none)) :=
  journal_complete Sample.platform le_rfl ⟨180, 3300⟩ none
    [.set (Sample.call "/"), .set (Sample.call "/account"), .clear]

/-! ## Before the epoch -/

namespace Sample

def beforeEpoch : Platform := { platform with now := -1 }

def expiringCall : SetCall :=
  { call "/" with cookie := { sid "/" none with expires := .atUtc (-5) } }

/-- Write a cookie and expire it. -/
def expiredStore : CookieStore :=
  [.set (call "/"), .set expiringCall].foldl (StoreOp.run beforeEpoch) (.observed ⟨180, 3300⟩ none)

/-- The cookie that stays, with the epoch as its expiry time. -/
def leftover : Cookie := { sid "/" none with expires := .atUtc 0 }

end Sample

theorem journal_incomplete_beforeEpoch :
    ¬ JournalComplete Sample.beforeEpoch Sample.expiredStore := by
  rintro ⟨log, hlog, hentries⟩
  have hreceived : Sample.expiredStore.observer =
      some [.upsert (Sample.sid "/" none), .delete (.forCookie (Sample.sid "/" none))] := by
    decide +kernel
  obtain rfl := Option.mem_unique hlog hreceived
  have hmem : Sample.leftover ∈ Sample.expiredStore.iterUnexpired Sample.beforeEpoch := by
    decide +kernel
  have hleft : (CookieStoreKey.forCookie Sample.leftover, Sample.leftover.contents) ∈
      Sample.expiredStore.unexpiredEntries Sample.beforeEpoch :=
    ⟨Sample.leftover, hmem, rfl, rfl⟩
  rw [← hentries] at hleft
  obtain ⟨c, hc, -⟩ := hleft
  cases hc

end Moli.Cookies
