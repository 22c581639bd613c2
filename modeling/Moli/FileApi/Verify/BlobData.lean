import Moli.FileApi.BlobData

/-!
# What blob data denotes

A blob denotes the bytes of its backing, cut to its offset and length. `bytes_slice`, `leaves_spec`
and `concat_spec` say what the operations do to the bytes denoted; `Built.sound` is the invariant
of every blob that the operations build.
-/

namespace Moli.FileApi

open Lib List

variable {σ : Type} (content : σ → Bytes)

mutual

def BlobData.bytes : BlobData σ → Bytes
  | ⟨backing, offset, length⟩ => cut backing.bytes offset length

def Backing.bytes : Backing σ → Bytes
  | .memory bytes => bytes
  | .source source => content source
  | .parts parts => bytesOfParts parts

def bytesOfParts : List (BlobData σ) → Bytes
  | [] => []
  | part :: parts => part.bytes ++ bytesOfParts parts

end

variable {content}

theorem bytesOfParts_eq (parts : List (BlobData σ)) :
    bytesOfParts content parts = parts.flatMap (BlobData.bytes content) := by
  induction parts with
  | nil => rfl
  | cons part parts ih => rw [bytesOfParts, ih, flatMap_cons]

namespace BlobData

variable {data part : BlobData σ} {parts pieces : List (BlobData σ)} {start stop : Nat}

theorem bytes_eq :
    data.bytes content = cut (data.backing.bytes content) data.offset data.length := by
  cases data
  rw [bytes]

/-! ## The invariant -/

/-- A blob that is not made of parts. -/
def Leaf (data : BlobData σ) : Prop := ∀ parts, data.backing ≠ .parts parts

/-- The blob lies in its backing. -/
structure Fits (content : σ → Bytes) (data : BlobData σ) : Prop where
  within : data.offset + data.length ≤ (data.backing.bytes content).length
  bounded : data.offset + data.length ≤ usizeMax

structure Sound (content : σ → Bytes) (data : BlobData σ) : Prop extends Fits content data where
  parts : ∀ parts, data.backing = .parts parts → ∀ part ∈ parts, part.Leaf ∧ part.Fits content

theorem Fits.length_bytes (h : data.Fits content) : (data.bytes content).length = data.len := by
  rw [bytes_eq, length_cut h.within]
  rfl

theorem Leaf.sound (hleaf : data.Leaf) (h : data.Fits content) : data.Sound content :=
  ⟨h, fun parts hparts => absurd hparts (hleaf parts)⟩

theorem Fits.ofBytes {bytes : Bytes} (h : bytes.length ≤ usizeMax) :
    (ofBytes bytes : BlobData σ).Fits content where
  within := by simp [BlobData.ofBytes, Backing.bytes]
  bounded := by simpa [BlobData.ofBytes] using h

@[simp] theorem bytes_ofBytes (bytes : Bytes) :
    (ofBytes bytes : BlobData σ).bytes content = bytes := cut_all

theorem leaf_ofBytes (bytes : Bytes) : (ofBytes bytes : BlobData σ).Leaf := by
  intro parts h
  cases h

/-! ## Slices -/

theorem slice_eq (hstart : start ≤ stop) (hstop : stop ≤ data.length) :
    data.slice start stop = .ok ⟨data.backing, data.offset + start, stop - start⟩ :=
  if_pos ⟨hstart, hstop⟩

theorem Fits.slice (h : data.Fits content) (hstart : start ≤ stop) (hstop : stop ≤ data.length) :
    Fits content ⟨data.backing, data.offset + start, stop - start⟩ where
  within := by
    have hwithin := h.within
    simp only
    omega
  bounded := by
    have hbounded := h.bounded
    simp only
    omega

theorem bytes_slice (hstart : start ≤ stop) (hstop : stop ≤ data.length) :
    bytes content ⟨data.backing, data.offset + start, stop - start⟩ =
      cut (data.bytes content) start (stop - start) := by
  rw [bytes_eq, bytes_eq, cut_cut (by omega)]

theorem Sound.slice (h : data.Sound content) (hstart : start ≤ stop) (hstop : stop ≤ data.length) :
    Sound content ⟨data.backing, data.offset + start, stop - start⟩ :=
  ⟨h.toFits.slice hstart hstop, h.parts⟩

/-! ## Leaves -/

theorem weight_pos (data : BlobData σ) : 0 < data.weight := by
  obtain ⟨backing, offset, length⟩ := data
  cases backing <;> simp [weight]

theorem weight_congr {data' : BlobData σ} (h : data.backing = data'.backing) :
    data.weight = data'.weight := by
  obtain ⟨backing, offset, length⟩ := data
  obtain ⟨backing', offset', length'⟩ := data'
  cases h
  cases backing <;> rfl

/-- The pieces that a loop over the parts of a blob yields. -/
structure Clipped (content : σ → Bytes) (bytes : Bytes) (weight : Nat)
    (children : List (BlobData σ)) : Prop where
  bytes : children.flatMap (BlobData.bytes content) = bytes
  weight : (children.map BlobData.weight).sum ≤ weight
  leaf : ∀ child ∈ children, child.Leaf ∧ child.Fits content

theorem Clipped.none {weight : Nat} : Clipped content [] weight [] :=
  ⟨rfl, Nat.zero_le _, fun _ hchild => absurd hchild not_mem_nil⟩

theorem overlap_spec (hpart : part.Leaf ∧ part.Fits content) (first last offset : Nat) :
    Ensures (fun _ => False) (overlap first last offset part)
      (Clipped content (cut (part.bytes content) (first - offset) (last - max first offset))
        part.weight) := by
  have hlength := hpart.2.length_bytes
  rw [← cut_min, hlength]
  unfold overlap len
  dsimp only
  split
  · rename_i hlt
    have hstart : max first offset - offset ≤ min last (offset + part.length) - offset := by omega
    have hstop : min last (offset + part.length) - offset ≤ part.length := by omega
    rw [slice_eq hstart hstop]
    refine ⟨?_, ?_, ?_⟩
    · rw [flatMap_singleton, bytes_slice hstart hstop]
      congr 1 <;> omega
    · rw [map_singleton]
      exact Nat.le_of_eq (weight_congr rfl)
    · intro child hchild
      rw [mem_singleton] at hchild
      subst hchild
      exact ⟨hpart.1, hpart.2.slice hstart hstop⟩
  · rename_i hlt
    have hnone : min (last - max first offset) (part.length - (first - offset)) = 0 := by omega
    rw [hnone]
    exact .none

theorem clip_spec (hparts : ∀ part ∈ parts, part.Leaf ∧ part.Fits content)
    (first last offset : Nat) :
    Ensures (fun _ => False) (clip first last offset parts)
      (Clipped content (cut (parts.flatMap (bytes content)) (first - offset)
        (last - max first offset)) (weights parts)) := by
  induction parts generalizing offset with
  | nil =>
    rw [flatMap_nil, cut, drop_nil, take_nil]
    exact .none
  | cons part parts ih =>
    obtain ⟨hpart, hrest⟩ := forall_mem_cons.1 hparts
    have hlength := hpart.2.length_bytes
    rw [flatMap_cons, cut_append, hlength]
    refine (overlap_spec hpart first last offset).bind fun child hchild => ?_
    dsimp only
    split
    · -- the remaining parts lie behind the end
      have hnone : last - max first offset - (part.len - (first - offset)) = 0 := by omega
      rw [hnone, cut_zero, append_nil]
      exact ⟨hchild.bytes, hchild.weight.trans (by rw [weights]; omega), hchild.leaf⟩
    · refine (ih hrest (offset + part.len)).bind fun rest hrest => ⟨?_, ?_, ?_⟩
      · rw [flatMap_append, hchild.bytes, hrest.bytes]
        congr 2 <;> omega
      · rw [map_append, sum_append]
        exact Nat.add_le_add hchild.weight hrest.weight
      · exact forall_mem_append.2 ⟨hchild.leaf, hrest.leaf⟩

/-- A piece of a blob: non-empty bytes in memory or in a source. -/
structure Piece (content : σ → Bytes) (piece : BlobData σ) : Prop extends Fits content piece where
  leaf : piece.Leaf
  nonempty : piece.isEmpty = false

/-- The loop of `leaves`: the pieces so far and the stack denote the blob. -/
structure Loop (content : σ → Bytes) (bytes : Bytes) (pieces stack : List (BlobData σ)) :
    Prop where
  bytes : pieces.flatMap (BlobData.bytes content) ++ stack.flatMap (BlobData.bytes content) = bytes
  pieces : ∀ piece ∈ pieces, Piece content piece
  stack : ∀ data ∈ stack, data.Sound content

theorem visit_spec {bytes : Bytes} {stack : List (BlobData σ)}
    (h : Loop content bytes pieces (data :: stack)) :
    Ensures (fun _ => False) (visit pieces data) fun (pushed, pieces') =>
      (pushed.map weight).sum < data.weight ∧ Loop content bytes pieces' (pushed ++ stack) := by
  obtain ⟨hdata, hstack⟩ := forall_mem_cons.1 h.stack
  have hbytes := h.bytes
  rw [flatMap_cons] at hbytes
  unfold visit
  cases hempty : data.isEmpty with
  | true =>
    have hzero : data.length = 0 := by simpa [isEmpty] using hempty
    refine ⟨data.weight_pos, ?_, h.pieces, hstack⟩
    rw [bytes_eq, hzero] at hbytes
    exact hbytes
  | false =>
    have hpiece (hleaf : data.Leaf) : Loop content bytes (pieces ++ [data]) stack := by
      refine ⟨?_, ?_, hstack⟩
      · rw [flatMap_append, flatMap_singleton, append_assoc, hbytes]
      · exact forall_mem_append.2 ⟨h.pieces, forall_mem_singleton.2
          ⟨hdata.toFits, hleaf, hempty⟩⟩
    cases hbacking : data.backing with
    | memory | source => exact ⟨data.weight_pos, hpiece fun parts => by simp [hbacking]⟩
    | parts parts =>
      have hweight : data.weight = weights parts + 1 :=
        (@weight_congr σ data ⟨.parts parts, 0, 0⟩ hbacking).trans (by rw [weight])
      have hclip := clip_spec (hdata.parts parts hbacking) data.offset (data.offset + data.length) 0
      refine hclip.bind fun children hchildren => ⟨?_, ?_, h.pieces, ?_⟩
      · rw [hweight]
        exact Nat.lt_succ_of_le hchildren.weight
      · rw [← hbytes, flatMap_append, hchildren.bytes, bytes_eq, hbacking, Backing.bytes,
          bytesOfParts_eq]
        congr 3
        omega
      · exact forall_mem_append.2 ⟨fun child hchild =>
          (hchildren.leaf child hchild).1.sound (hchildren.leaf child hchild).2, hstack⟩

/-- The leaves of a blob denote its bytes. -/
theorem leaves_spec (h : data.Sound content) :
    Ensures (fun _ => False) data.leaves fun pieces =>
      pieces.flatMap (bytes content) = data.bytes content ∧ ∀ piece ∈ pieces,
        Piece content piece := by
  have hstart : Loop content (data.bytes content) [] [data] :=
    ⟨by simp, fun _ hpiece => absurd hpiece not_mem_nil, by simpa using h⟩
  refine (drain_weight weight_pos (Loop content (data.bytes content))
    (fun pieces entry stack => visit_spec) (by simp) hstart).mono ?_
  intro pieces hloop
  exact ⟨by simpa using hloop.bytes, hloop.pieces⟩

/-! ## Concatenation -/

theorem foldlM_addLength {ι : Type} (length : ι → Nat) (l : List ι) {total : Nat}
    (h : total ≤ usizeMax) :
    l.foldlM (fun total x => addLength total (length x)) total =
      if total + (l.map length).sum ≤ usizeMax then .ok (total + (l.map length).sum)
      else .error sizeOverflow := by
  induction l generalizing total with
  | nil => simp [h, pure, Except.pure]
  | cons x l ih =>
    rw [foldlM_cons, map_cons, sum_cons, ← Nat.add_assoc, addLength]
    split
    · rename_i hle
      exact ih hle
    · rename_i hgt
      rw [if_neg (by omega)]
      rfl

theorem sum_len (h : ∀ part ∈ parts, part.Fits content) :
    (parts.map len).sum = (parts.flatMap (bytes content)).length := by
  rw [length_flatMap]
  congr 1
  exact map_congr_left fun part hpart => (h part hpart).length_bytes.symm

theorem bytes_of_asBytes {bytes : Bytes} (hbytes : part.asBytes = some bytes) :
    part.bytes content = bytes := by
  unfold BlobData.asBytes at hbytes
  cases hbacking : part.backing with
  | memory memory =>
    rw [hbacking] at hbytes
    rw [bytes_eq, hbacking]
    exact Option.some.inj hbytes
  | source | parts => simp [hbacking] at hbytes

/-- The memory pieces of a blob as one list. -/
theorem mapM_asBytes (hmemory : ∀ piece ∈ pieces, piece.asBytes.isSome = true) :
    Ensures (fun _ : Failure => False)
      (pieces.mapM fun piece => piece.asBytes.elim (throw .panicked) pure)
      fun bytes => bytes.flatten = pieces.flatMap (BlobData.bytes content) := by
  induction pieces with
  | nil => rfl
  | cons piece pieces ih =>
    obtain ⟨bytes, hbytes⟩ := Option.isSome_iff_exists.1 (hmemory piece (by simp))
    rw [mapM_cons, hbytes]
    refine (ih fun x hx => hmemory x (by simp [hx])).bind fun rest hrest => ?_
    rw [Ensures.pure_iff, flatten_cons, hrest, flatMap_cons, bytes_of_asBytes hbytes]

theorem Sound.ofParts (h : ∀ part ∈ parts, part.Leaf ∧ part.Fits content)
    (hle : (parts.map len).sum ≤ usizeMax) :
    Sound content ⟨.parts parts, 0, (parts.map len).sum⟩ ∧
      bytes content ⟨.parts parts, 0, (parts.map len).sum⟩ = parts.flatMap (bytes content) := by
  have hsum := sum_len fun part hpart => (h part hpart).2
  refine ⟨⟨⟨?_, ?_⟩, ?_⟩, ?_⟩
  · simp only [Backing.bytes, bytesOfParts_eq, hsum, Nat.zero_add, Nat.le_refl]
  · simpa using hle
  · intro parts' hparts'
    cases hparts'
    exact h
  · rw [bytes, Backing.bytes, bytesOfParts_eq, hsum, cut_all]

/-- The ways in which a concatenation of `total` bytes fails. -/
inductive Refused (grants : Nat → Bool) (total : Nat) : Failure → Prop
  | size (h : usizeMax < total) : Refused grants total (.io sizeOverflow)
  | allocation {error : IoError} (h : tryReserveExact grants total = .error error) :
    Refused grants total (.io error)

theorem mapM_leaves (h : ∀ part ∈ parts, part.Sound content) :
    Ensures (fun _ => False) (parts.mapM leaves) fun pieces =>
      pieces.flatten.flatMap (bytes content) = parts.flatMap (bytes content) ∧
        ∀ piece ∈ pieces.flatten, Piece content piece := by
  refine (Ensures.mapM fun part hpart => leaves_spec (h part hpart)).mono ?_
  intro pieces hpieces
  clear h
  induction hpieces with
  | nil => exact ⟨rfl, fun _ hpiece => absurd hpiece not_mem_nil⟩
  | cons hpart _ ih =>
    rw [flatten_cons, flatMap_append, hpart.1, ih.1]
    exact ⟨rfl, forall_mem_append.2 ⟨hpart.2, ih.2⟩⟩

/-- Concatenation of blobs is that of their bytes. -/
theorem concat_spec (grants : Nat → Bool) (h : ∀ part ∈ parts, part.Sound content) :
    Ensures (Refused grants (parts.map len).sum) (concat grants parts) fun data =>
      data.Sound content ∧ data.bytes content = parts.flatMap (bytes content) := by
  rw [sum_len fun part hpart => (h part hpart).toFits]
  refine Ensures.bind ((mapM_leaves h).weaken fun _ => False.elim) fun pieces hpost => ?_
  obtain ⟨hbytes, hpieces⟩ := hpost
  rw [← hbytes]
  generalize pieces.flatten = leaves at hbytes hpieces ⊢
  have hfits : ∀ piece ∈ leaves, piece.Fits content :=
    fun piece hpiece => (hpieces piece hpiece).toFits
  dsimp only
  split
  · exact ⟨(leaf_ofBytes []).sound (.ofBytes (Nat.zero_le _)), bytes_ofBytes []⟩
  · rename_i part
    have hpart := hpieces part (mem_singleton_self part)
    exact ⟨hpart.leaf.sound hpart.toFits, (flatMap_singleton ..).symm⟩
  · rw [foldlM_addLength len _ (Nat.zero_le _), Nat.zero_add, ← sum_len hfits]
    split
    · rename_i hle
      refine Ensures.bind_eq (a := (leaves.map len).sum) rfl ?_
      split
      · rename_i hmemory
        have hjoin := @mapM_asBytes σ content leaves (by simpa using hmemory)
        cases hreserve : tryReserveExact grants (leaves.map len).sum with
        | error => exact .allocation hreserve
        | ok =>
          refine (hjoin.weaken fun _ => False.elim).bind fun bytes hflat => ?_
          rw [← hflat]
          refine ⟨(leaf_ofBytes _).sound (.ofBytes ?_), bytes_ofBytes _⟩
          rwa [hflat, ← sum_len hfits]
      · exact Sound.ofParts (fun piece hpiece => ⟨(hpieces piece hpiece).leaf, hfits piece hpiece⟩)
          hle
    · rename_i hgt
      exact .size (Nat.lt_of_not_le hgt)

end BlobData

/-! ## Blobs the operations build -/

/-- The blobs built from memory, sources, concatenations and valid slices. A source has at least the
bytes it was announced with; no vector has more than `isizeMax` bytes. -/
inductive BlobData.Built (content : σ → Bytes) : BlobData σ → Prop
  | memory {bytes : Bytes} (h : bytes.length ≤ isizeMax) : Built content (ofBytes bytes)
  | source {source : σ} {length : Nat} (h : length ≤ (content source).length)
    (hlength : length ≤ usizeMax) : Built content (fromSource source length)
  | concat {grants : Nat → Bool} {parts : List (BlobData σ)} {data : BlobData σ}
    (h : ∀ part ∈ parts, Built content part) (hdata : BlobData.concat grants parts = .ok data) :
    Built content data
  | slice {data data' : BlobData σ} {start stop : Nat} (h : Built content data)
    (hdata : data.slice start stop = .ok data') : Built content data'

theorem BlobData.Built.sound {data : BlobData σ} (h : data.Built content) : data.Sound content := by
  induction h with
  | memory h => exact (leaf_ofBytes _).sound (.ofBytes (h.trans (by decide)))
  | source h hlength =>
    refine ⟨⟨?_, ?_⟩, fun parts hparts => ?_⟩
    · simpa [fromSource, Backing.bytes] using h
    · simpa [fromSource] using hlength
    · cases hparts
  | concat _ hdata ih => exact ((concat_spec _ ih).of_ok hdata).1
  | @slice data data' start stop _ hdata ih =>
    by_cases hrange : start ≤ stop ∧ stop ≤ data.length
    · rw [slice_eq hrange.1 hrange.2] at hdata
      cases hdata
      exact ih.slice hrange.1 hrange.2
    · rw [BlobData.slice, if_neg hrange] at hdata
      cases hdata

end Moli.FileApi
