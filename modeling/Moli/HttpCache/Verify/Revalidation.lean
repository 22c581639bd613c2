import Moli.HttpCache.Policy

/-!
# Merging the headers of a 304 response

The values that a merge leaves under a name (`valuesOf_merge`): the last value of the 304 in front
of the cached values after the first. `merge_exact_iff` says when this is what the 304 carries.
-/

namespace Moli.HttpCache

open Lib.Text List

variable {name : Text} {line : Text × List UInt8} {cached notModified headers headers' : Headers}

/-- The values of a field, in order. -/
def valuesOf (name : Text) (headers : Headers) : List (List UInt8) :=
  (headers.filter fun line => eqIgnoreAsciiCase line.1 name).map (·.2)

theorem valuesOf_cons : valuesOf name (line :: headers) =
    if eqIgnoreAsciiCase line.1 name then line.2 :: valuesOf name headers
    else valuesOf name headers := by
  by_cases h : eqIgnoreAsciiCase line.1 name = true
  · simp only [valuesOf, filter_cons, h, if_true, map_cons]
  · simp only [valuesOf, filter_cons, if_neg h]

theorem valuesOf_congr {name' : Text} (h : eqIgnoreAsciiCase name name' = true) :
    valuesOf name headers = valuesOf name' headers := by
  rw [eqIgnoreAsciiCase_iff] at h
  unfold valuesOf eqIgnoreAsciiCase
  rw [h]

theorem valuesOf_putHeader : valuesOf name (putHeader line headers) =
    if eqIgnoreAsciiCase line.1 name then line.2 :: (valuesOf name headers).tail
    else valuesOf name headers := by
  induction headers with
  | nil => exact valuesOf_cons
  | cons existing rest ih =>
    unfold putHeader
    by_cases hexisting : eqIgnoreAsciiCase existing.1 line.1 = true
    · -- the names are the same, so they are both `name` or both are not
      have hsame : eqIgnoreAsciiCase existing.1 name = eqIgnoreAsciiCase line.1 name := by
        rw [eqIgnoreAsciiCase_iff] at hexisting
        rw [eqIgnoreAsciiCase, eqIgnoreAsciiCase, hexisting]
      rw [if_pos hexisting, valuesOf_cons, valuesOf_cons, hsame]
      split <;> rfl
    · rw [if_neg hexisting, valuesOf_cons, valuesOf_cons, ih]
      by_cases hline : eqIgnoreAsciiCase line.1 name = true
      · have hother : ¬eqIgnoreAsciiCase existing.1 name = true := by
          rw [eqIgnoreAsciiCase_iff] at hexisting hline ⊢
          exact fun h => hexisting (h.trans hline.symm)
        rw [if_neg hother, if_neg hother]
      · rw [if_neg hline, if_neg hline]

/-- The values after the given ones were put one after another. -/
def overwritten (values put : List (List UInt8)) : List (List UInt8) :=
  match put.getLast? with
  | none => values
  | some last => last :: values.tail

theorem overwritten_cons (value : List UInt8) (values put : List (List UInt8)) :
    overwritten (value :: values.tail) put = overwritten values (value :: put) := by
  unfold overwritten
  cases put with
  | nil => rfl
  | cons second rest => rw [getLast?_cons_cons]; rfl

theorem skip_congr {nominated : List Text} (h : eqIgnoreAsciiCase line.1 name = true) :
    shouldSkipNotModifiedHeader line.1 nominated = shouldSkipNotModifiedHeader name nominated := by
  rw [eqIgnoreAsciiCase_iff] at h
  unfold shouldSkipNotModifiedHeader
  rw [h]

theorem valuesOf_foldl (nominated : List Text) :
    valuesOf name (notModified.foldl (fun headers line =>
      if shouldSkipNotModifiedHeader line.1 nominated then headers
      else putHeader line headers) cached) =
    if shouldSkipNotModifiedHeader name nominated then valuesOf name cached
    else overwritten (valuesOf name cached) (valuesOf name notModified) := by
  induction notModified generalizing cached with
  | nil =>
    split <;> rfl
  | cons line rest ih =>
    rw [foldl_cons, ih, valuesOf_cons]
    by_cases hname : eqIgnoreAsciiCase line.1 name = true
    · rw [skip_congr hname]
      by_cases hskip : shouldSkipNotModifiedHeader name nominated = true
      · rw [if_pos hskip, if_pos hskip, if_pos hskip]
      · rw [if_neg hskip, if_neg hskip, if_neg hskip, if_pos hname, valuesOf_putHeader,
          if_pos hname, overwritten_cons]
    · rw [if_neg hname]
      by_cases hskip : shouldSkipNotModifiedHeader line.1 nominated = true
      · rw [if_pos hskip]
      · rw [if_neg hskip, valuesOf_putHeader, if_neg hname]

/-- A field is taken over from the 304. -/
def Updates (notModified : Headers) (name : Text) : Prop :=
  (∃ line ∈ notModified, eqIgnoreAsciiCase line.1 name = true) ∧
    shouldSkipNotModifiedHeader name (connectionNominatedHeaderNames notModified) = false

instance decidableUpdates : Decidable (Updates notModified name) := by
  unfold Updates
  infer_instance

theorem valuesOf_eq_nil : valuesOf name headers = [] ↔
    ∀ line ∈ headers, ¬eqIgnoreAsciiCase line.1 name = true := by
  simp only [valuesOf, map_eq_nil_iff, filter_eq_nil_iff]

theorem valuesOf_merge : valuesOf name (mergeNotModifiedHeaders cached notModified) =
    if Updates notModified name then overwritten (valuesOf name cached) (valuesOf name notModified)
    else valuesOf name cached := by
  rw [mergeNotModifiedHeaders, valuesOf_foldl]
  by_cases hskip : shouldSkipNotModifiedHeader name (connectionNominatedHeaderNames notModified) =
    true
  · rw [if_pos hskip, if_neg fun h => by simp [h.2] at hskip]
  · rw [if_neg hskip]
    by_cases hoccurs : ∃ line ∈ notModified, eqIgnoreAsciiCase line.1 name = true
    · rw [if_pos ⟨hoccurs, by simpa using hskip⟩]
    · have hnil : valuesOf name notModified = [] := by
        rw [valuesOf_eq_nil]
        exact fun line hline h => hoccurs ⟨line, hline, h⟩
      rw [if_neg fun h => hoccurs h.1, hnil]
      rfl

/-! ## Merging twice -/

/-- The names in their order and the values of each name determine the fields. -/
theorem headers_ext (hnames : headers.map (·.1) = headers'.map (·.1))
    (hvalues : ∀ name, valuesOf name headers = valuesOf name headers') : headers = headers' := by
  induction headers generalizing headers' with
  | nil => exact (map_eq_nil_iff.mp hnames.symm).symm
  | cons line rest ih =>
    cases headers' with
    | nil => cases hnames
    | cons line' rest' =>
      obtain ⟨hname, hrest⟩ : line.1 = line'.1 ∧ rest.map (·.1) = rest'.map (·.1) :=
        List.cons.inj hnames
      have hself : eqIgnoreAsciiCase line'.1 line.1 = true := by
        rw [eqIgnoreAsciiCase_iff, hname]
      have hvalue : line.2 = line'.2 := by
        have h := hvalues line.1
        rw [valuesOf_cons, valuesOf_cons, hname] at h
        rw [hname] at hself
        rw [if_pos hself, if_pos hself] at h
        exact (List.cons.inj h).1
      obtain rfl : line = line' := Prod.ext hname hvalue
      refine congrArg (line :: ·) (ih hrest fun name => ?_)
      have h := hvalues name
      rw [valuesOf_cons, valuesOf_cons] at h
      split at h
      · exact (List.cons.inj h).2
      · exact h

theorem names_putHeader (h : ∃ existing ∈ headers, eqIgnoreAsciiCase existing.1 line.1 = true) :
    (putHeader line headers).map (·.1) = headers.map (·.1) := by
  induction headers with
  | nil =>
    obtain ⟨existing, hmem, -⟩ := h
    cases hmem
  | cons first rest ih =>
    unfold putHeader
    split
    · rfl
    next hfirst =>
      obtain ⟨existing, hmem, hexisting⟩ := h
      rcases mem_cons.mp hmem with rfl | hrest
      · exact absurd hexisting hfirst
      · rw [map_cons, map_cons, ih ⟨existing, hrest, hexisting⟩]

theorem names_merge (h : ∀ line ∈ notModified, Updates notModified line.1 →
      ∃ existing ∈ cached, eqIgnoreAsciiCase existing.1 line.1 = true) :
    (mergeNotModifiedHeaders cached notModified).map (·.1) = cached.map (·.1) := by
  unfold mergeNotModifiedHeaders
  have hself : ∀ line : Text × List UInt8, eqIgnoreAsciiCase line.1 line.1 = true := fun line =>
    eqIgnoreAsciiCase_iff.mpr rfl
  have hpresent : ∀ line ∈ notModified,
      ¬shouldSkipNotModifiedHeader line.1 (connectionNominatedHeaderNames notModified) = true →
        ∃ name ∈ cached.map (·.1), eqIgnoreAsciiCase name line.1 = true := by
    intro line hline hskip
    obtain ⟨existing, hmem, hexisting⟩ :=
      h line hline ⟨⟨line, hline, hself line⟩, by simpa using hskip⟩
    exact ⟨existing.1, mem_map_of_mem hmem, hexisting⟩
  clear h
  generalize connectionNominatedHeaderNames notModified = nominated at hpresent
  induction notModified generalizing cached with
  | nil => rfl
  | cons line rest ih =>
    rw [foldl_cons]
    by_cases hskip : shouldSkipNotModifiedHeader line.1 nominated = true
    · rw [if_pos hskip]
      exact ih fun line hline => hpresent line (mem_cons_of_mem _ hline)
    · obtain ⟨name, hname, heq⟩ := hpresent line mem_cons_self hskip
      obtain ⟨existing, hmem, rfl⟩ := mem_map.mp hname
      have hput := @names_putHeader line _ ⟨existing, hmem, heq⟩
      rw [if_neg hskip,
        ih (by rw [hput]; exact fun line hline => hpresent line (mem_cons_of_mem _ hline)), hput]

theorem overwritten_overwritten (values put : List (List UInt8)) :
    overwritten (overwritten values put) put = overwritten values put := by
  unfold overwritten
  cases put.getLast? <;> rfl

theorem merge_merge :
    mergeNotModifiedHeaders (mergeNotModifiedHeaders cached notModified) notModified =
    mergeNotModifiedHeaders cached notModified := by
  refine headers_ext (names_merge ?_) fun name => ?_
  · intro line hline hupdates
    -- the value that was put is there
    have hvalues : valuesOf line.1 (mergeNotModifiedHeaders cached notModified) ≠ [] := by
      rw [valuesOf_merge, if_pos hupdates, overwritten]
      have hsome : valuesOf line.1 notModified ≠ [] := by
        rw [Ne, valuesOf_eq_nil]
        exact fun h => h line hline (eqIgnoreAsciiCase_iff.mpr rfl)
      rw [getLast?_eq_some_getLast hsome]
      exact cons_ne_nil _ _
    rw [Ne, valuesOf_eq_nil] at hvalues
    simpa only [not_forall, not_not, exists_prop] using hvalues
  · rw [valuesOf_merge]
    split
    next h => rw [valuesOf_merge, if_pos h, overwritten_overwritten]
    · rfl

/-! ## When a merge is exact -/

/-- What a merge is for: the fields of the 304 replace the cached ones as a whole, doing it again
changes nothing, and every Cache-Control line of the 304 is kept. -/
structure ExactMerge (cached notModified merged : Headers) : Prop where
  replaced : ∀ name, Updates notModified name → valuesOf name merged = valuesOf name notModified
  kept : ∀ name, ¬Updates notModified name → valuesOf name merged = valuesOf name cached
  again : mergeNotModifiedHeaders merged notModified = merged
  cacheControl : ∀ line ∈ notModified, eqIgnoreAsciiCase line.1 "cache-control".toList = true →
    Updates notModified line.1 → line.2 ∈ valuesOf "cache-control".toList merged

/-- Of the field's values in the 304 the first is also the last, and the others are cached in its
place. -/
def SameShape (cached notModified : Headers) (name : Text) : Prop :=
  (valuesOf name notModified).head? = (valuesOf name notModified).getLast? ∧
    (valuesOf name notModified).tail = (valuesOf name cached).tail

theorem overwritten_eq_iff {values put : List (List UInt8)} (hput : put ≠ []) :
    overwritten values put = put ↔ put.head? = put.getLast? ∧ put.tail = values.tail := by
  obtain ⟨first, rest, rfl⟩ := exists_cons_of_ne_nil hput
  rw [overwritten, getLast?_eq_some_getLast hput, head?_cons]
  simp only [List.cons.injEq, Option.some.injEq]
  constructor
  · rintro ⟨hfirst, hrest⟩
    exact ⟨hfirst.symm, hrest.symm⟩
  · rintro ⟨hfirst, hrest⟩
    exact ⟨hfirst.symm, hrest.symm⟩

/-- The merge is exact if and only if all updated fields have the same shape. -/
theorem merge_exact_iff (cached notModified : Headers) :
    ExactMerge cached notModified (mergeNotModifiedHeaders cached notModified) ↔
      ∀ name, Updates notModified name → SameShape cached notModified name := by
  have hput : ∀ name, Updates notModified name → valuesOf name notModified ≠ [] := by
    intro name h
    obtain ⟨⟨line, hline, hname⟩, -⟩ := h
    rw [Ne, valuesOf_eq_nil]
    exact fun hnone => hnone line hline hname
  constructor
  · intro h name hupdates
    have hreplaced := h.replaced name hupdates
    rw [valuesOf_merge, if_pos hupdates, overwritten_eq_iff (hput name hupdates)] at hreplaced
    exact hreplaced
  · intro h
    have hreplaced : ∀ name, Updates notModified name →
        valuesOf name (mergeNotModifiedHeaders cached notModified) = valuesOf name notModified := by
      intro name hupdates
      rw [valuesOf_merge, if_pos hupdates, overwritten_eq_iff (hput name hupdates)]
      exact h name hupdates
    refine ⟨hreplaced, fun name hnot => ?_, merge_merge, ?_⟩
    · rw [valuesOf_merge, if_neg hnot]
    · intro line hline hname hupdates
      rw [← valuesOf_congr hname, hreplaced line.1 hupdates]
      exact mem_map_of_mem (mem_filter.mpr ⟨hline, eqIgnoreAsciiCase_iff.mpr rfl⟩)

/-- The first of two Cache-Control lines of a 304 is dropped. -/
theorem merge_drops_no_store :
    let line :=
      fun value : String => ("Cache-Control".toList, value.toList.map fun c => UInt8.ofNat c.toNat)
    ¬ExactMerge [line "max-age=60"] [line "no-store", line "max-age=60"]
      (mergeNotModifiedHeaders [line "max-age=60"] [line "no-store", line "max-age=60"]) := by
  intro line h
  have hkept := h.cacheControl (line "no-store") mem_cons_self (by decide) (by decide)
  revert hkept
  decide

end Moli.HttpCache
