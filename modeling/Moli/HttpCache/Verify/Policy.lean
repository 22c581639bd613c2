import Moli.HttpCache.Policy

/-!
# Quoted arguments of cache directives

Reading a text is followed piece by piece (`Reads`), so a quoted argument stays inside its directive
(`directives_fill`). The naive split of the Pragma field in responses does not respect quotes:
`unaffected_iff` says when the text of an argument has no influence.
-/

namespace Moli.HttpCache

open Lib.Text ParameterScanState List

/-! ## Reading a value -/

/-- A part of a value that contains no separator outside of quotes. -/
def Reads (state : ParameterScanState) (part : Text) (state' : ParameterScanState) : Prop :=
  ∀ rest, scanSegments ',' state (part ++ rest) =
    (scanSegments ',' state' rest).modifyHead (part ++ ·)

section Reads

variable {state state' state'' : ParameterScanState} {part part' : Text} {c : Char}

theorem scanSegments_ne_nil (state : ParameterScanState) (value : Text) :
    scanSegments ',' state value ≠ [] := by
  fun_induction scanSegments ',' state value <;> simp_all

theorem Reads.nil : Reads state [] state := fun _ => (modifyHead_nil_append _).symm

theorem Reads.append (h : Reads state part state') (h' : Reads state' part' state'') :
    Reads state (part ++ part') state'' := by
  intro rest
  rw [append_assoc, h, h', modifyHead_modifyHead]
  simp only [Function.comp_def, append_assoc]

/-- A character outside of quotes. -/
theorem Reads.char (hstate : state ≠ .quotedValue) (hc : c ≠ ',') :
    Reads state [c] (state.next c) := by
  intro rest
  cases state with
  | quotedValue => exact absurd rfl hstate
  | beforeValue | atValueStart | unquotedValue | afterQuotedValue =>
    simp only [singleton_append, scanSegments, if_neg hc]

/-- Characters that do not change the state. -/
theorem Reads.chars (hstate : state ≠ .quotedValue)
    (h : ∀ c ∈ part, c ≠ ',' ∧ state.next c = state) : Reads state part state := by
  induction part with
  | nil => exact .nil
  | cons c part ih =>
    obtain ⟨hc, hnext⟩ := h c mem_cons_self
    have hfirst := Reads.char hstate hc
    rw [hnext] at hfirst
    exact hfirst.append (ih fun d hd => h d (mem_cons_of_mem _ hd))

theorem scanSegments_separator (hstate : state ≠ .quotedValue) (rest : Text) :
    scanSegments ',' state (',' :: rest) = [] :: scanSegments ',' .beforeValue rest := by
  cases state with
  | quotedValue => exact absurd rfl hstate
  | beforeValue | atValueStart | unquotedValue | afterQuotedValue =>
    simp only [scanSegments, if_true]

theorem Reads.separator (h : Reads .beforeValue part state) (hstate : state ≠ .quotedValue)
    (rest : Text) : scanSegments ',' .beforeValue (part ++ ',' :: rest) =
      part :: scanSegments ',' .beforeValue rest := by
  rw [h, scanSegments_separator hstate, modifyHead_cons, append_nil]

end Reads

/-! ## Quoted texts -/

/-- Every quote is escaped, and so is something by every backslash. -/
inductive Quotable : Text → Prop where
  | nil : Quotable []
  | escaped (c : Char) {text : Text} (h : Quotable text) : Quotable ('\\' :: c :: text)
  | char {c : Char} {text : Text} (hquote : c ≠ '"') (hbackslash : c ≠ '\\') (h : Quotable text) :
    Quotable (c :: text)

/-- A text without quotes and backslashes. -/
def Plain (text : Text) : Prop := ∀ c ∈ text, c ≠ '"' ∧ c ≠ '\\'

instance decidablePlain (text : Text) : Decidable (Plain text) :=
  decidableBAll _ text

variable {text : Text}

theorem Plain.quotable (h : Plain text) : Quotable text := by
  induction text with
  | nil => exact .nil
  | cons c text ih =>
    obtain ⟨hquote, hbackslash⟩ := h c mem_cons_self
    exact .char hquote hbackslash (ih fun d hd => h d (mem_cons_of_mem _ hd))

theorem Quotable.reads (h : Quotable text) :
    Reads .quotedValue (text ++ ['"']) .afterQuotedValue := by
  induction h with
  | nil =>
    intro rest
    rfl
  | escaped c _ ih =>
    intro rest
    have hrest := ih rest
    rw [List.cons_append, List.cons_append, List.cons_append, List.cons_append, scanSegments, hrest,
      List.modifyHead_modifyHead]
    rfl
  | char hquote hbackslash _ ih =>
    intro rest
    have hrest := ih rest
    rw [List.cons_append, List.cons_append, scanSegments, if_neg hquote, hrest,
      List.modifyHead_modifyHead]
    · rfl
    all_goals
      simp_all

theorem Quotable.unquoted_append (h : Quotable text) (rest : Text) :
    unquoted (text ++ '"' :: rest) = unquoted text := by
  induction h with
  | nil => simp [unquoted]
  | escaped c _ ih => simp only [cons_append, unquoted, ih]
  | char hquote hbackslash _ ih =>
    rw [cons_append, unquoted, unquoted, if_neg hquote, if_neg hquote, ih]
    all_goals simp_all

theorem Plain.unquoted_eq (h : Plain text) : unquoted text = text := by
  induction text with
  | nil => rfl
  | cons c text ih =>
    obtain ⟨hquote, hbackslash⟩ := h c mem_cons_self
    rw [unquoted, if_neg hquote, ih fun d hd => h d (mem_cons_of_mem _ hd)]
    all_goals simp_all

/-! ## The argument of a directive -/

/-- Directives that are complete and have their comma. -/
inductive Complete : Text → Prop where
  | nil : Complete []
  | bare {name rest : Text} (hname : ∀ c ∈ name, c ≠ ',' ∧ c ≠ '=') (h : Complete rest) :
    Complete (name ++ ',' :: rest)
  | empty {name blanks rest : Text} (hname : ∀ c ∈ name, c ≠ ',' ∧ c ≠ '=')
      (hblanks : ∀ c ∈ blanks, c = ' ' ∨ c = '\t') (h : Complete rest) :
    Complete ((name ++ '=' :: blanks) ++ ',' :: rest)
  | unquoted {name blanks argument rest : Text} {c : Char} (hname : ∀ c ∈ name, c ≠ ',' ∧ c ≠ '=')
      (hblanks : ∀ c ∈ blanks, c = ' ' ∨ c = '\t') (hc : c ≠ ',' ∧ c ≠ '"' ∧ c ≠ ' ' ∧ c ≠ '\t')
      (hargument : ∀ c ∈ argument, c ≠ ',') (h : Complete rest) :
    Complete ((name ++ '=' :: blanks ++ c :: argument) ++ ',' :: rest)
  | quoted {name blanks text more rest : Text} (hname : ∀ c ∈ name, c ≠ ',' ∧ c ≠ '=')
      (hblanks : ∀ c ∈ blanks, c = ' ' ∨ c = '\t') (htext : Quotable text)
      (hmore : ∀ c ∈ more, c ≠ ',') (h : Complete rest) :
    Complete ((name ++ '=' :: blanks ++ '"' :: (text ++ ['"']) ++ more) ++ ',' :: rest)

/-- A place of a value that holds a quoted argument of a directive. -/
structure QuotedArgument where
  leading : Text
  leading_complete : Complete leading
  name : Text
  name_plain : ∀ c ∈ name, c ≠ ',' ∧ c ≠ '='
  blanks : Text
  blanks_blank : ∀ c ∈ blanks, c = ' ' ∨ c = '\t'
  rest : Text

namespace QuotedArgument

variable (a : QuotedArgument) {text text' : Text}

/-- The value up to the opening quote. -/
def opening : Text := a.leading ++ (a.name ++ '=' :: a.blanks)

/-- The value with a text between the quotes. -/
def fill (text : Text) : Text := a.opening ++ '"' :: (text ++ '"' :: a.rest)

end QuotedArgument

section

variable {name blanks text : Text}

theorem reads_opening (hname : ∀ c ∈ name, c ≠ ',' ∧ c ≠ '=')
    (hblanks : ∀ c ∈ blanks, c = ' ' ∨ c = '\t') :
    Reads .beforeValue (name ++ '=' :: blanks) .atValueStart := by
  have hfirst : Reads .beforeValue name .beforeValue := by
    refine .chars (by decide) fun c hc => ⟨(hname c hc).1, ?_⟩
    rw [ParameterScanState.next, if_neg (hname c hc).2]
  have hequals : Reads .beforeValue ['='] .atValueStart := .char (by decide) (by decide)
  have hlast : Reads .atValueStart blanks .atValueStart := by
    refine .chars (by decide) fun c hc => ⟨?_, ?_⟩
    · rcases hblanks c hc with rfl | rfl <;> decide
    · rw [ParameterScanState.next, if_pos (hblanks c hc)]
  exact hfirst.append (hequals.append hlast)

theorem reads_quoted (htext : Quotable text) :
    Reads .atValueStart ('"' :: (text ++ ['"'])) .afterQuotedValue := by
  have hquote : Reads .atValueStart ['"'] .quotedValue := .char (by decide) (by decide)
  exact hquote.append htext.reads

end

theorem Complete.segments {leading : Text} (h : Complete leading) :
    ∃ segments, ∀ rest, scanSegments ',' .beforeValue (leading ++ rest) =
      segments ++ scanSegments ',' .beforeValue rest := by
  -- one more directive in front
  have hmore : ∀ {part rest : Text} {state}, Reads .beforeValue part state → state ≠ .quotedValue →
      (∃ segments, ∀ more, scanSegments ',' .beforeValue (rest ++ more) =
        segments ++ scanSegments ',' .beforeValue more) →
      ∃ segments, ∀ more, scanSegments ',' .beforeValue ((part ++ ',' :: rest) ++ more) =
        segments ++ scanSegments ',' .beforeValue more := by
    intro part rest state hpart hstate hrest
    obtain ⟨segments, hsegments⟩ := hrest
    refine ⟨part :: segments, fun more => ?_⟩
    rw [append_assoc, cons_append, hpart.separator hstate, hsegments, cons_append]
  induction h with
  | nil => exact ⟨[], fun _ => rfl⟩
  | bare hname _ ih =>
    refine hmore (.chars (by decide) fun c hc => ⟨(hname c hc).1, ?_⟩) (by decide) ih
    rw [ParameterScanState.next, if_neg (hname c hc).2]
  | empty hname hblanks _ ih => exact hmore (reads_opening hname hblanks) (by decide) ih
  | @unquoted name blanks argument rest c hname hblanks hc hargument _ ih =>
    have hchar : Reads .atValueStart [c] .unquotedValue := by
      have h := @Reads.char .atValueStart c (by decide) hc.1
      rwa [ParameterScanState.next, if_neg (by simp [hc.2.2]), if_neg hc.2.1] at h
    have hlast : Reads .unquotedValue argument .unquotedValue :=
      .chars (by decide) fun d hd => ⟨hargument d hd, rfl⟩
    exact hmore ((reads_opening hname hblanks).append (hchar.append hlast)) (by decide) ih
  | quoted hname hblanks htext hmore' _ ih =>
    have hlast : Reads .afterQuotedValue _ .afterQuotedValue :=
      .chars (by decide) fun d hd => ⟨hmore' d hd, rfl⟩
    exact hmore (((reads_opening hname hblanks).append (reads_quoted htext)).append hlast)
      (by decide) ih

namespace QuotedArgument

variable (a : QuotedArgument) {text : Text}

/-- The argument stays inside its directive, and the other directives do not depend on it. -/
theorem directives_fill : ∃ before after more, ∀ text, Quotable text →
    directives (a.fill text) =
      before ++ trim (a.name ++ '=' :: (a.blanks ++ '"' :: (text ++ '"' :: more))) :: after := by
  obtain ⟨segments, hsegments⟩ := a.leading_complete.segments
  obtain ⟨more, after, hafter⟩ :=
    exists_cons_of_ne_nil (scanSegments_ne_nil .afterQuotedValue a.rest)
  refine ⟨segments.map trim, after.map trim, more, fun text htext => ?_⟩
  have hreads := (reads_opening a.name_plain a.blanks_blank).append (reads_quoted htext) a.rest
  rw [hafter] at hreads
  have hfill : a.fill text =
      a.leading ++ ((a.name ++ '=' :: a.blanks ++ '"' :: (text ++ ['"'])) ++ a.rest) := by
    simp [fill, opening]
  rw [directives, splitOutsideQuotedStrings, hfill, hsegments, hreads]
  simp

theorem blanks_white : a.blanks.dropWhile isWhiteSpace = [] := by
  rw [dropWhile_eq_nil_iff]
  intro c hc
  rcases a.blanks_blank c hc with rfl | rfl <;> decide

/-- The parts of the directive with the argument. -/
theorem directiveParts_fill (more : Text) (htext : Quotable text) :
    directiveParts (trim (a.name ++ '=' :: (a.blanks ++ '"' :: (text ++ '"' :: more)))) =
      (trim a.name, some (unquoted text)) := by
  have hequals : '=' ∉ a.name.dropWhile isWhiteSpace := fun h =>
    (a.name_plain _ (dropWhile_subset _ h)).2 rfl
  have hvalue : ∀ rest, trim (a.blanks ++ '"' :: (text ++ '"' :: rest)) =
      '"' :: (text ++ '"' :: rest.rdropWhile isWhiteSpace) := by
    intro rest
    rw [trim_append_cons (by decide), blanks_white, rdropWhile_append_cons (by decide)]
    rfl
  have hright : (a.blanks ++ '"' :: (text ++ '"' :: more)).rdropWhile isWhiteSpace =
      a.blanks ++ '"' :: (text ++ '"' :: more.rdropWhile isWhiteSpace) := by
    rw [rdropWhile_append_cons (by decide), rdropWhile_append_cons (by decide)]
  rw [trim_append_cons (by decide), hright, directiveParts, splitOnce_append_cons hequals]
  dsimp only
  rw [hvalue, unquoteParameterValue, htext.unquoted_append]
  rw [trim, trimMatches, dropWhile_idempotent]
  rfl

end QuotedArgument

/-! ## What a field says -/

def forbidsStorage (directive : Text) : Bool :=
  isNamed "no-store" (directiveParts directive).1 || isNamed "private" (directiveParts directive).1

def requiresValidation (directive : Text) : Bool :=
  !forbidsStorage directive && isNamed "no-cache" (directiveParts directive).1

/-- A Pragma field, as the response policy splits it. -/
def pragmaForbids (value : Text) : Bool :=
  (value.splitOn ',').any fun directive => isNamed "no-cache" (trim directive)

/-- The field alone forbids to store the response. -/
def fieldForbids (name value : Text) : Bool :=
  if isNamed "cache-control" name then (directives value).any forbidsStorage
  else isNamed "pragma" name && pragmaForbids value

/-- The field alone requires validation. -/
def fieldRequires (name value : Text) : Bool :=
  isNamed "cache-control" name && (directives value).any requiresValidation

namespace PolicyScan

variable {scan : PolicyScan} {parseHttpDate : Text → Option Nat}

/-- A step of the scan that forbids storing or requires validation as the flags say. -/
def Marks (scan scan' : PolicyScan) (forbids requires : Bool) : Prop :=
  scan'.store = (scan.store && !forbids) ∧
    scan'.requiresValidation = (scan.requiresValidation || requires)

theorem Marks.none {scan' : PolicyScan} (hstore : scan'.store = scan.store)
    (hvalidation : scan'.requiresValidation = scan.requiresValidation) :
    scan.Marks scan' false false := by
  simp [Marks, hstore, hvalidation]

theorem Marks.foldl {α : Type} {step : PolicyScan → α → PolicyScan} {forbids requires : α → Bool}
    (h : ∀ scan x, Marks scan (step scan x) (forbids x) (requires x)) (scan : PolicyScan)
    (xs : List α) : scan.Marks (xs.foldl step scan) (xs.any forbids) (xs.any requires) := by
  induction xs generalizing scan with
  | nil => exact .none rfl rfl
  | cons x xs ih =>
    obtain ⟨hstore, hvalidation⟩ := ih (step scan x)
    refine ⟨hstore.trans ?_, hvalidation.trans ?_⟩
    · rw [(h scan x).1, any_cons, Bool.not_or, Bool.and_assoc]
    · rw [(h scan x).2, any_cons, Bool.or_assoc]

theorem marks_directive (scan : PolicyScan) (text : Text) :
    scan.Marks (scan.directive text) (forbidsStorage text) (HttpCache.requiresValidation text) := by
  unfold directive HttpCache.requiresValidation forbidsStorage
  dsimp only
  split
  next h => simp [Marks, h]
  next h =>
    have hforbids := eq_false_of_ne_true h
    split
    next hcache => simp [Marks, hforbids, hcache]
    next hcache =>
      rw [hforbids, eq_false_of_ne_true hcache]
      split
      · split <;> exact .none rfl rfl
      · exact .none rfl rfl

theorem marks_field (scan : PolicyScan) (line : Text × List UInt8) :
    scan.Marks (scan.field parseHttpDate line) (fieldForbids line.1 (decodeHeaderValue line.2))
      (fieldRequires line.1 (decodeHeaderValue line.2)) := by
  unfold field fieldForbids fieldRequires pragmaForbids
  by_cases hcache : isNamed "cache-control" line.1 = true
  · rw [hcache]
    exact .foldl marks_directive scan _
  · rw [if_neg hcache, eq_false_of_ne_true hcache]
    by_cases hpragma : isNamed "pragma" line.1 = true
    · rw [if_pos hpragma, hpragma]
      split
      next h => simp [Marks, h]
      next h =>
        rw [eq_false_of_ne_true h]
        exact .none rfl rfl
    · rw [if_neg hpragma, eq_false_of_ne_true hpragma]
      split
      · exact .none rfl rfl
      · split
        · exact .none rfl rfl
        · split
          · split <;> exact .none rfl rfl
          · exact .none rfl rfl

theorem marks_headers (parseHttpDate : Text → Option Nat) (lines : Headers) :
    Marks {} (headers parseHttpDate lines)
      (lines.any fun line => fieldForbids line.1 (decodeHeaderValue line.2))
      (lines.any fun line => fieldRequires line.1 (decodeHeaderValue line.2)) :=
  .foldl marks_field {} lines

end PolicyScan

/-! ## Replacing the text of an argument -/

namespace QuotedArgument

variable (a : QuotedArgument) {text text' : Text}

def isMaxAge : Bool := isNamed "max-age" (trim a.name)

/-- A test that does not see the argument of the directive. -/
theorem any_directives_eq {test : Text → Bool} (h : Quotable text) (h' : Quotable text')
    (htest : ∀ more, test (trim (a.name ++ '=' :: (a.blanks ++ '"' :: (text' ++ '"' :: more)))) =
      test (trim (a.name ++ '=' :: (a.blanks ++ '"' :: (text ++ '"' :: more))))) :
    (directives (a.fill text')).any test = (directives (a.fill text)).any test := by
  obtain ⟨before, after, more, hfill⟩ := a.directives_fill
  rw [hfill text h, hfill text' h', any_append, any_append, any_cons, any_cons, htest]

theorem fieldRequires_fill (name : Text) (h : Quotable text) (h' : Quotable text') :
    fieldRequires name (a.fill text') = fieldRequires name (a.fill text) := by
  unfold fieldRequires
  rw [a.any_directives_eq h h' fun more => by
    simp only [requiresValidation, forbidsStorage, directiveParts_fill, h, h']]

theorem fieldForbids_fill {name : Text} (hname : isNamed "pragma" name = false) (h : Quotable text)
    (h' : Quotable text') : fieldForbids name (a.fill text') = fieldForbids name (a.fill text) := by
  unfold fieldForbids
  rw [a.any_directives_eq h h' fun more => by
    simp only [forbidsStorage, directiveParts_fill, h, h'], hname]
  rfl

theorem forbidsStorage_fill (h : Quotable text) (h' : Quotable text') :
    requestCacheControlForbidsStorage (a.fill text') =
      requestCacheControlForbidsStorage (a.fill text) :=
  a.any_directives_eq h h' fun more => by simp only [directiveParts_fill, h, h']

/-- The argument of another directive than max-age has no influence, and that of max-age only by
whether it is zero. -/
theorem requiresValidation_fill (h : Quotable text) (h' : Quotable text')
    (hzero : a.isMaxAge = true → (unquoted text' = ['0'] ↔ unquoted text = ['0'])) :
    requestCacheControlRequiresValidation (a.fill text') =
      requestCacheControlRequiresValidation (a.fill text) := by
  refine a.any_directives_eq h h' fun more => ?_
  rw [a.directiveParts_fill more h, a.directiveParts_fill more h']
  cases hmax : isNamed "max-age" (trim a.name) with
  | false => simp only [Bool.false_and]
  | true => simp only [Option.some.injEq, hzero hmax]

theorem quote_not_named {name : String} (hname : '"' ∉ toAsciiLowercase name.toList)
    {directive : Text} (h : '"' ∈ directive) : isNamed name directive = false := by
  rw [isNamed, ← Bool.not_eq_true, eqIgnoreAsciiCase_iff]
  intro heq
  rw [← heq] at hname
  exact hname (mem_map_of_mem h)

theorem pragma_fill (h : Quotable text) (h' : Quotable text') :
    requestPragmaRequiresValidation (a.fill text') =
      requestPragmaRequiresValidation (a.fill text) := by
  have hquote : ∀ text more, isNamed "no-cache"
      (trim (a.name ++ '=' :: (a.blanks ++ '"' :: (text ++ '"' :: more)))) = false := by
    intro text more
    refine quote_not_named (by decide) (mem_trim (by decide) ?_)
    simp
  exact a.any_directives_eq h h' fun more => (hquote ..).trans (hquote ..).symm

/-- The pieces of the text between two commas are read as directives of the response. -/
theorem pragmaForbids_fill (text : Text) : pragmaForbids (a.fill text) =
    (((a.opening.splitOn ',').dropLast.any fun piece => isNamed "no-cache" (trim piece)) ||
      (((text.splitOn ',').dropLast.tail.any fun piece => isNamed "no-cache" (trim piece)) ||
        (a.rest.splitOn ',').tail.any fun piece => isNamed "no-cache" (trim piece))) := by
  have hquote : ∀ piece, '"' ∈ piece → isNamed "no-cache" (trim piece) = false := fun piece h =>
    quote_not_named (by decide) (mem_trim (by decide) h)
  rw [pragmaForbids, fill, any_splitOn_append_cons hquote (by decide),
    any_tail_splitOn_append_cons hquote (by decide)]

end QuotedArgument

/-- A header list with a quoted argument in one of its fields. -/
structure QuotedField where
  before : Headers
  after : Headers
  name : Text
  argument : QuotedArgument
  text : Text
  text_quotable : Quotable text
  value : List UInt8
  decode_value : decodeHeaderValue value = argument.fill text

namespace QuotedField

variable (f : QuotedField)

/-- The headers with another value of the field. -/
def headers (value : List UInt8) : Headers := f.before ++ (f.name, value) :: f.after

/-- No other text in place of the argument's changes what the headers and the value mean. -/
structure Unaffected (parseHttpDate : Text → Option Nat) (nowMs : Nat) : Prop where
  store : ∀ text value, Plain text → decodeHeaderValue value = f.argument.fill text →
    (responseCachePolicy parseHttpDate nowMs (f.headers value)).store =
      (responseCachePolicy parseHttpDate nowMs (f.headers f.value)).store
  validation : ∀ text value, Plain text → decodeHeaderValue value = f.argument.fill text →
    (PolicyScan.headers parseHttpDate (f.headers value)).requiresValidation =
      (PolicyScan.headers parseHttpDate (f.headers f.value)).requiresValidation
  forbids : ∀ text, Plain text → requestCacheControlForbidsStorage (f.argument.fill text) =
    requestCacheControlForbidsStorage (f.argument.fill f.text)
  requires : ∀ text, Plain text →
    (f.argument.isMaxAge = true → (text = ['0'] ↔ unquoted f.text = ['0'])) →
    requestCacheControlRequiresValidation (f.argument.fill text) =
      requestCacheControlRequiresValidation (f.argument.fill f.text)
  pragma : ∀ text, Plain text → requestPragmaRequiresValidation (f.argument.fill text) =
    requestPragmaRequiresValidation (f.argument.fill f.text)

/-- The field is not a Pragma field, or the headers forbid to store the response anyway: by another
field, or by this one with an empty argument. -/
def Guarded : Prop :=
  isNamed "pragma" f.name = false ∨
    (∃ line ∈ f.before ++ f.after, fieldForbids line.1 (decodeHeaderValue line.2) = true) ∨
    fieldForbids f.name (f.argument.fill []) = true

theorem store_headers (parseHttpDate : Text → Option Nat) (nowMs : Nat) (value : List UInt8) :
    (responseCachePolicy parseHttpDate nowMs (f.headers value)).store = false ↔
      (∃ line ∈ f.before ++ f.after, fieldForbids line.1 (decodeHeaderValue line.2) = true) ∨
        fieldForbids f.name (decodeHeaderValue value) = true := by
  have hstore := (PolicyScan.marks_headers parseHttpDate (f.headers value)).1
  change (PolicyScan.headers parseHttpDate (f.headers value)).store = false ↔ _
  rw [hstore, Bool.true_and, Bool.not_eq_false', headers, ← List.any_eq_true, List.any_append,
    List.any_append, List.any_cons, ← Bool.or_eq_true, Bool.or_assoc,
      Bool.or_comm (fieldForbids ..)]

/-- A text of ASCII characters can be put in the place of the argument. -/
theorem exists_value (text : List UInt8) :
    ∃ value, decodeHeaderValue value = f.argument.fill (decodeHeaderValue text) := by
  have hvalue := f.decode_value
  unfold decodeHeaderValue QuotedArgument.fill at *
  obtain ⟨opening, rest, -, hopening, hrest⟩ := List.map_eq_append_iff.mp hvalue
  obtain ⟨quote, rest, -, hquote, hrest⟩ := List.map_eq_cons_iff.mp hrest
  obtain ⟨-, rest, -, -, hrest⟩ := List.map_eq_append_iff.mp hrest
  obtain ⟨-, rest, -, -, hrest⟩ := List.map_eq_cons_iff.mp hrest
  refine ⟨opening ++ quote :: (text ++ quote :: rest), ?_⟩
  rw [List.map_append, List.map_cons, List.map_append, List.map_cons, hopening, hquote, hrest]

theorem fieldForbids_pragma (hname : isNamed "pragma" f.name = true) (value : Text) :
    fieldForbids f.name value = pragmaForbids value := by
  have hcache : ¬isNamed "cache-control" f.name = true := by
    intro hcache
    rw [isNamed, eqIgnoreAsciiCase_iff] at hname hcache
    rw [hname] at hcache
    revert hcache
    decide
  rw [fieldForbids, if_neg hcache, hname, Bool.true_and]

theorem store_unaffected (parseHttpDate : Text → Option Nat) (nowMs : Nat) (h : f.Guarded)
    {value : List UInt8} (htext : Plain text)
    (hvalue : decodeHeaderValue value = f.argument.fill text) :
    (responseCachePolicy parseHttpDate nowMs (f.headers value)).store =
      (responseCachePolicy parseHttpDate nowMs (f.headers f.value)).store := by
  have hiff : (responseCachePolicy parseHttpDate nowMs (f.headers value)).store = false ↔
      (responseCachePolicy parseHttpDate nowMs (f.headers f.value)).store = false := by
    rw [store_headers, store_headers, hvalue, f.decode_value]
    rcases h with hname | hother | hempty
    · rw [f.argument.fieldForbids_fill hname f.text_quotable htext.quotable]
    · exact ⟨fun _ => .inl hother, fun _ => .inl hother⟩
    · cases hname : isNamed "pragma" f.name with
      | false => rw [f.argument.fieldForbids_fill hname f.text_quotable htext.quotable]
      | true =>
        -- what forbids storing stands outside of the quotes
        have hforbids : ∀ text, fieldForbids f.name (f.argument.fill text) = true := by
          intro text
          rw [f.fieldForbids_pragma hname, f.argument.pragmaForbids_fill] at hempty ⊢
          simp only [List.splitOn_nil, List.dropLast_singleton, List.tail_nil, List.any_nil,
            Bool.false_or] at hempty
          rcases Bool.or_eq_true_iff.mp hempty with hopening | hrest
          · rw [hopening, Bool.true_or]
          · rw [hrest, Bool.or_true, Bool.or_true]
        exact ⟨fun _ => .inr (hforbids _), fun _ => .inr (hforbids _)⟩
  cases hstore : (responseCachePolicy parseHttpDate nowMs (f.headers f.value)).store with
  | false => exact hiff.mpr hstore
  | true =>
    rw [← Bool.not_eq_false, hiff, hstore]
    decide

/-- Exactly the guarded fields keep their argument from the policy. -/
theorem unaffected_iff (parseHttpDate : Text → Option Nat) (nowMs : Nat) :
    f.Unaffected parseHttpDate nowMs ↔ f.Guarded := by
  constructor
  · intro h
    by_contra hguarded
    simp only [Guarded, not_or, Bool.not_eq_false] at hguarded
    obtain ⟨hname, hother, hempty⟩ := hguarded
    -- an empty argument and one with a directive in it
    obtain ⟨empty, hemptyValue⟩ := f.exists_value []
    obtain ⟨leaking, hleaking⟩ :=
      f.exists_value (",no-cache,".toList.map fun c => UInt8.ofNat c.toNat)
    have hstores : ¬(responseCachePolicy parseHttpDate nowMs (f.headers empty)).store = false := by
      rw [store_headers, hemptyValue]
      exact not_or.mpr ⟨hother, hempty⟩
    have hforbids : (responseCachePolicy parseHttpDate nowMs (f.headers leaking)).store =
        false := by
      rw [store_headers, hleaking, f.fieldForbids_pragma hname, f.argument.pragmaForbids_fill]
      refine .inr ?_
      have hinner :
          (((decodeHeaderValue (",no-cache,".toList.map fun c => UInt8.ofNat c.toNat)).splitOn ','
            ).dropLast.tail.any fun piece => isNamed "no-cache" (trim piece)) = true := by
        decide +kernel
      rw [hinner, Bool.true_or, Bool.or_true]
    have hsame := (h.store _ _ (by decide) hemptyValue).trans
      (h.store _ _ (by decide +kernel) hleaking).symm
    exact hstores (hsame.trans hforbids)
  · intro h
    refine ⟨fun text value htext hvalue => f.store_unaffected parseHttpDate nowMs h htext hvalue,
      ?_, ?_, ?_, ?_⟩
    · intro text value htext hvalue
      have hrequires := fun value => (PolicyScan.marks_headers parseHttpDate (f.headers value)).2
      rw [hrequires, hrequires, headers, headers, List.any_append, List.any_append, List.any_cons,
        List.any_cons, hvalue, f.decode_value,
        f.argument.fieldRequires_fill f.name f.text_quotable htext.quotable]
    · exact fun text htext => f.argument.forbidsStorage_fill f.text_quotable htext.quotable
    · intro text htext hzero
      refine f.argument.requiresValidation_fill f.text_quotable htext.quotable fun hmax => ?_
      rw [htext.unquoted_eq]
      exact hzero hmax
    · exact fun text htext => f.argument.pragma_fill f.text_quotable htext.quotable

/-- `Pragma: token="a"`. -/
def pragmaToken : QuotedField where
  before := []
  after := []
  name := "Pragma".toList
  argument := ⟨[], .nil, ['t', 'o', 'k', 'e', 'n'], by simp, [], by simp, []⟩
  text := ['a']
  text_quotable := .char (by decide) (by decide) .nil
  value := "token=\"a\"".toList.map fun c => UInt8.ofNat c.toNat
  decode_value := by decide +kernel

theorem pragma_argument_leaks : ¬pragmaToken.Unaffected (fun _ => none) 0 := by
  intro h
  have hstore := h.store "a, no-cache, b".toList
    ("token=\"a, no-cache, b\"".toList.map fun c => UInt8.ofNat c.toNat) (by decide +kernel)
  revert hstore
  decide +kernel

end QuotedField

end Moli.HttpCache
