import Moli.Disk.Pool
import Moli.Disk.Verify.Allocation
import Moli.Lib.Lists

/-!
# Soundness of the disk pool

Every step of any thread keeps `WorldSound`: the allocator accounts for every extent in use, and
the file holds the bytes of the stored data and what has been written so far of the data on its
way. `disk_pool_sound` states the result for every run.
-/

namespace Moli.Disk

open Lib List

variable {live : List Extent} {e e' : Extent}

/-! ## Bytes -/

/-- The file holds these bytes at the start of the extent. -/
def Holds (file : List UInt8) (e : Extent) (bytes : List UInt8) : Prop :=
  ∀ i < bytes.length, file[e.offset + i]? = bytes[i]?

/-- Writing inside of one extent keeps what another one holds. -/
theorem Holds.write {file bytes piece : List UInt8} {offset : Nat} (h : Holds file e bytes)
    (hfits : bytes.length ≤ e.len) (hapart : e.Apart e') (hlow : e'.offset ≤ offset)
    (hhigh : offset + piece.length ≤ e'.stop) : Holds (ByteFile.write file offset piece)
      e bytes := by
  intro i hi
  obtain ⟨b, hb⟩ : ∃ b, bytes[i]? = some b := ⟨bytes[i], getElem?_eq_getElem hi⟩
  rw [hb]
  refine ByteFile.getElem?_write_of_outside ((h i hi).trans hb) ?_
  simp only [Extent.Apart, Extent.stop] at hapart hhigh
  omega

/-- The next piece of the data lands behind what is there. -/
theorem Holds.write_next {file data piece : List UInt8} {written : Nat}
    (h : Holds file e (data.take written)) (hwritten : written ≤ data.length)
    (hpiece : piece <+: data.drop written) :
    Holds (ByteFile.write file (e.offset + written) piece) e
      (data.take (written + piece.length)) := by
  obtain ⟨rest, hrest⟩ := hpiece
  intro i hi
  rw [length_take] at hi
  rw [getElem?_take_of_lt (by omega)]
  by_cases hold : i < written
  · have hb := h i (by rw [length_take]; omega)
    rw [getElem?_take_of_lt hold] at hb
    have hlt : i < data.length := by omega
    rw [getElem?_eq_getElem hlt] at hb ⊢
    exact ByteFile.getElem?_write_of_outside hb (.inl (by omega))
  · obtain ⟨j, rfl⟩ := Nat.exists_eq_add_of_le (Nat.le_of_not_lt hold)
    rw [← Nat.add_assoc, ByteFile.getElem?_write_inside (by omega), ← getElem?_drop, ← hrest,
      getElem?_append_left (by omega)]

structure Writing.Sound (file : List UInt8) (x : Writing) : Prop where
  fits : x.data.length = x.extent.len
  pending : x.written < x.data.length
  holds : Holds file x.extent (x.data.take x.written)

structure Stored.Sound (file : List UInt8) (d : Stored) : Prop where
  fits : d.bytes.length = d.extent.len
  holds : Holds file d.extent d.bytes

theorem Stored.Sound.read {pool : DiskPool} {d : Stored} (h : d.Sound pool.file)
    (hbound : d.extent.stop ≤ u64Max) {offset len : Nat} (hlen : offset + len ≤ d.extent.len) :
    pool.readExactAt d.extent offset len = .ok ((d.bytes.drop offset).take len) := by
  rw [Extent.stop] at hbound
  have hread : ByteFile.read pool.file (d.extent.offset + offset) len =
      some ((d.bytes.drop offset).take len) :=
    ByteFile.read_eq_some h.holds (by rw [h.fits]; exact hlen)
  rw [DiskPool.readExactAt, checkedAdd_of_le (by omega), checkedAdd_of_le (by omega)]
  simp only [hread, if_neg (Nat.not_lt.2 hlen)]
  rfl

/-! ## The pool -/

namespace DiskPool

variable {pool : DiskPool}

/-- Nothing but the allocator has changed, and the file tail has not. -/
structure Kept (pool pool' : DiskPool) : Prop where
  file : pool'.file = pool.file
  maxCapacity : pool'.maxCapacity = pool.maxCapacity
  fileTail : pool'.state.fileTail = pool.state.fileTail

theorem release_spec (h : Sound pool.state (e :: live)) :
    Safe (pool.release e) fun pool' => pool.Kept pool' ∧ Sound pool'.state live :=
  (releaseChunk_spec h).bind fun _ hstate => ⟨⟨rfl, rfl, hstate.2.1⟩, hstate.1⟩

theorem failWrite_spec (h : Sound pool.state (e :: live)) :
    Safe (pool.failWrite e) fun pool' => pool.Kept pool' ∧ Sound pool'.state live :=
  (releaseChunk_spec h).bind fun _ hstate => ⟨⟨rfl, rfl, hstate.2.1⟩,
    ⟨hstate.1.tiling, hstate.1.indexed, hstate.1.total, hstate.1.coalesced, hstate.1.bounded⟩⟩

theorem checkWrite_spec (h : Sound pool.state (e :: live)) (belongsTo : Bool) (data : List UInt8) :
    Safe (pool.checkWrite belongsTo ⟨some e⟩ data) fun result =>
      pool.Kept result.2 ∧
      match result.1 with
      | .error _ => Sound result.2.state live
      | .ok extent => extent = e ∧ data.length = e.len ∧ Sound result.2.state (e :: live) := by
  cases belongsTo with
  | false => exact (release_spec h).bind fun pool' hpool => hpool
  | true =>
    have htake : Safe (ReservedChunk.takeExtent ⟨some e⟩) (· = e) := rfl
    refine htake.bind fun extent hextent => ?_
    subst hextent
    split
    · exact (release_spec h).bind fun pool' hpool => hpool
    · next hlen =>
      have hfits : extent.len = data.length := by simpa using hlen
      exact ⟨⟨rfl, rfl, rfl⟩, rfl, hfits.symm, h⟩

/-- A reservation adds one live extent or none; the tail grows only if no free chunk is large
enough, and never beyond the capacity. -/
structure Reserved (pool : DiskPool) (live : List Extent) (size : Nat)
    (chunk : Option ReservedChunk) (pool' : DiskPool) : Prop where
  file : pool'.file = pool.file
  maxCapacity : pool'.maxCapacity = pool.maxCapacity
  footprint : ∀ capacity ∈ pool.maxCapacity, pool'.state.fileTail ≤ capacity
  filled : ∀ c ∈ chunk, c.extent.isSome = true
  sound : Sound pool'.state (chunk.toList.filterMap (·.extent) ++ live)
  grown : pool'.state.fileTail ≠ pool.state.fileTail → ∀ e ∈ pool.state.free, e.len < size

theorem growTail_spec (h : Sound pool.state live) {size : Nat} (hsize : 0 < size)
    (hsmall : ∀ e ∈ pool.state.free, e.len < size) {extent : Extent}
    {pool' : DiskPool} (hgrow : pool.growTail size = some (extent, pool')) :
    Reserved pool live size (some ⟨some extent⟩) pool' := by
  obtain ⟨newTail, hadd, hrest⟩ := Option.bind_eq_some_iff.1 hgrow
  obtain ⟨hbound, rfl⟩ := checkedAdd_eq_some_iff.1 hadd
  split at hrest
  · cases hrest
  · next hfull =>
    cases hrest
    refine ⟨rfl, rfl, ?_, ?_, ?_, fun _ => hsmall⟩
    · intro capacity hmem
      simp only [Option.mem_def] at hmem
      simpa [hmem] using hfull
    · intro chunk hchunk
      obtain rfl := Option.some.inj hchunk
      rfl
    · refine ⟨?_, h.indexed, h.total, h.coalesced, hbound⟩
      exact (h.tiling.grow hsize).perm perm_middle.symm

theorem tryReserveChunk_spec (h : Sound pool.state live)
    (hcapacity : ∀ capacity ∈ pool.maxCapacity, pool.state.fileTail ≤ capacity) (size : Nat) :
    Safe (pool.tryReserveChunk size) fun result =>
      Reserved pool live size result.1 result.2 := by
  have hnone : Reserved pool live size none pool :=
    ⟨rfl, rfl, hcapacity, fun _ hchunk => (nomatch hchunk), h, fun hne => absurd rfl hne⟩
  rw [tryReserveChunk]
  split
  · exact hnone
  · next hsize =>
    split
    · exact hnone
    · refine (findFreeChunk_spec h (Nat.pos_of_ne_zero hsize)).bind
        fun (found, state) ⟨htail, _, hfound⟩ => ?_
      cases found with
      | some extent =>
        refine ⟨rfl, rfl, ?_, ?_, hfound.1, fun hne => absurd htail hne⟩
        · exact fun capacity hmem => htail ▸ hcapacity capacity hmem
        · intro chunk hchunk
          obtain rfl := Option.some.inj hchunk
          rfl
      | none =>
        obtain ⟨rfl, hsmall⟩ := hfound
        cases hgrow : growTail pool size with
        | none => simpa [hgrow] using hnone
        | some grown =>
          have hgrown := growTail_spec h (Nat.pos_of_ne_zero hsize) hsmall hgrow
          simpa [hgrow] using hgrown

end DiskPool

/-! ## Steps -/

structure WorldSound (maxCapacity : Option Nat) (w : World) : Prop where
  allocator : Sound w.pool.state w.live
  reserved : ∀ chunk ∈ w.reserved, chunk.extent.isSome = true
  writing : ∀ x ∈ w.writing, x.Sound w.pool.file
  stored : ∀ d ∈ w.stored, d.Sound w.pool.file
  footprint : ∀ capacity ∈ maxCapacity, w.pool.state.fileTail ≤ capacity
  maxCapacity : w.pool.maxCapacity = maxCapacity

namespace World

variable {w : World} {position : Nat}

theorem live_reserved {chunk : ReservedChunk} (h : w.reserved[position]? = some chunk)
    (hextent : chunk.extent = some e) :
    w.live.Perm (e :: { w with reserved := w.reserved.eraseIdx position }.live) := by
  have hperm := (perm_of_getElem? h).filterMap (·.extent)
  rw [filterMap_cons_some hextent] at hperm
  exact (hperm.append_right _).append_right _

theorem live_writing {x : Writing} (h : w.writing[position]? = some x) :
    w.live.Perm (x.extent :: { w with writing := w.writing.eraseIdx position }.live) :=
  ((((perm_of_getElem? h).map (·.extent)).append_left _).append_right _).trans
    (perm_middle.append_right _)

theorem live_stored {d : Stored} (h : w.stored[position]? = some d) :
    w.live.Perm (d.extent :: { w with stored := w.stored.eraseIdx position }.live) :=
  (((perm_of_getElem? h).map (·.extent)).append_left _).trans perm_middle

end World

namespace WorldSound

variable {maxCapacity : Option Nat} {w : World} {position : Nat}

theorem new (maxCapacity : Option Nat) : WorldSound maxCapacity (.new maxCapacity) where
  allocator := .new true
  reserved _ h := nomatch h
  writing _ h := nomatch h
  stored _ h := nomatch h
  footprint _ _ := Nat.zero_le _
  maxCapacity := rfl

section
variable (h : WorldSound maxCapacity w)
include h

/-- The allocator has changed, and the owners are those of its extents. -/
theorem kept {pool : DiskPool} {reserved : List ReservedChunk} {writing : List Writing}
    {stored : List Stored} (hpool : w.pool.Kept pool)
    (hsound : Sound pool.state (World.live ⟨pool, reserved, writing, stored⟩))
    (hreserved : ∀ chunk ∈ reserved, chunk.extent.isSome = true)
    (hwriting : ∀ x ∈ writing, x.Sound w.pool.file) (hstored : ∀ d ∈ stored, d ∈ w.stored) :
    WorldSound maxCapacity ⟨pool, reserved, writing, stored⟩ where
  allocator := hsound
  reserved := hreserved
  writing := hpool.file ▸ hwriting
  stored d hd := hpool.file ▸ h.stored d (hstored d hd)
  maxCapacity := hpool.maxCapacity.trans h.maxCapacity
  footprint := hpool.fileTail ▸ h.footprint

theorem exists_extent {chunk : ReservedChunk} (hchunk : w.reserved[position]? = some chunk) :
    ∃ e, chunk = ⟨some e⟩ := by
  obtain ⟨e, he⟩ := Option.isSome_iff_exists.1
    (h.reserved chunk (mem_of_getElem? hchunk))
  exact ⟨e, by rw [← he]⟩

theorem tryReserveChunk (size : Nat) :
    Safe (w.step (.tryReserveChunk size)) (WorldSound maxCapacity) := by
  refine (DiskPool.tryReserveChunk_spec h.allocator (h.maxCapacity ▸ h.footprint) size).bind
    fun (chunk, pool) hreserved => ?_
  refine ⟨hreserved.sound.perm ?_, ?_, ?_, ?_, h.maxCapacity ▸ hreserved.footprint,
    hreserved.maxCapacity.trans h.maxCapacity⟩
  · simp only [World.live, filterMap_append, append_assoc]
    exact perm_append_comm_assoc _ _ _
  · intro c hc
    rcases mem_append.1 hc with hc | hc
    · exact h.reserved c hc
    · exact hreserved.filled c (Option.mem_toList.1 hc)
  · intro x hx
    rw [hreserved.file]
    exact h.writing x hx
  · intro d hd
    rw [hreserved.file]
    exact h.stored d hd

theorem write (belongsTo : Bool) (data : List UInt8) :
    Safe (w.step (.write position belongsTo data)) (WorldSound maxCapacity) := by
  rw [World.step]
  cases hchunk : w.reserved[position]? with
  | none => exact h
  | some chunk =>
    obtain ⟨e, rfl⟩ := h.exists_extent hchunk
    have hlive := World.live_reserved hchunk rfl
    have hreserved : ∀ c ∈ w.reserved.eraseIdx position, c.extent.isSome = true :=
      fun c hc => h.reserved c (mem_of_mem_eraseIdx hc)
    refine (DiskPool.checkWrite_spec (h.allocator.perm hlive) belongsTo data).bind
      fun (result, pool) ⟨hpool, hresult⟩ => ?_
    cases result with
    | error => exact h.kept hpool hresult hreserved h.writing fun _ => id
    | ok extent =>
      obtain ⟨rfl, hlen, hsound⟩ := hresult
      have hpos := hsound.tiling.nonempty extent (by simp)
      refine h.kept hpool (hsound.perm ?_) hreserved ?_ fun _ => id
      · simp only [World.live, map_append, append_assoc]
        rw [← append_assoc, ← append_assoc]
        exact perm_middle.symm
      · intro x hx
        rcases mem_append.1 hx with hx | hx
        · exact h.writing x hx
        · obtain rfl := mem_singleton.1 hx
          exact ⟨hlen, hlen ▸ hpos, fun i hi => by simp at hi⟩

theorem failWrite {x : Writing} (hx : w.writing[position]? = some x) :
    Safe (w.failWrite position x) (WorldSound maxCapacity) := by
  refine (DiskPool.failWrite_spec (h.allocator.perm (World.live_writing hx))).bind
    fun pool ⟨hpool, hsound⟩ => ?_
  exact h.kept hpool hsound h.reserved (fun x hx => h.writing x (mem_of_mem_eraseIdx hx))
    fun _ => id

theorem dropReserved : Safe (w.step (.dropReserved position)) (WorldSound maxCapacity) := by
  rw [World.step]
  cases hchunk : w.reserved[position]? with
  | none => exact h
  | some chunk =>
    obtain ⟨e, rfl⟩ := h.exists_extent hchunk
    refine (DiskPool.release_spec (h.allocator.perm (World.live_reserved hchunk rfl))).bind
      fun pool ⟨hpool, hsound⟩ => ?_
    exact h.kept hpool hsound (fun c hc => h.reserved c (mem_of_mem_eraseIdx hc)) h.writing
      fun _ => id

theorem dropData : Safe (w.step (.dropData position)) (WorldSound maxCapacity) := by
  rw [World.step]
  cases hd : w.stored[position]? with
  | none => exact h
  | some d =>
    refine (DiskPool.release_spec (h.allocator.perm (World.live_stored hd))).bind
      fun pool ⟨hpool, hsound⟩ => ?_
    exact h.kept hpool hsound h.reserved h.writing fun _ => mem_of_mem_eraseIdx

/-- A write to the extent of `x` keeps what the other owners have in the file. -/
theorem others_written {x : Writing} (hx : w.writing[position]? = some x) (offset : Nat)
    (piece : List UInt8) (hlow : x.extent.offset ≤ offset)
    (hhigh : offset + piece.length ≤ x.extent.stop) :
    (∀ y ∈ w.writing.eraseIdx position, y.Sound (ByteFile.write w.pool.file offset piece)) ∧
    ∀ d ∈ w.stored, d.Sound (ByteFile.write w.pool.file offset piece) := by
  have htiling := ((h.allocator.perm (World.live_writing hx)).tiling.perm perm_middle)
  constructor
  · intro y hy
    have hsound := h.writing y (mem_of_mem_eraseIdx hy)
    have hapart : x.extent.Apart y.extent := by
      refine htiling.apart_of_mem (mem_append_right _ ?_)
      exact mem_append_left _ (mem_append_right _ (mem_map_of_mem hy))
    have hfits : (y.data.take y.written).length ≤ y.extent.len := by
      rw [length_take, hsound.fits]
      exact Nat.min_le_right _ _
    exact ⟨hsound.fits, hsound.pending, hsound.holds.write hfits hapart.symm hlow hhigh⟩
  · intro d hd
    have hsound := h.stored d hd
    have hapart : x.extent.Apart d.extent := by
      refine htiling.apart_of_mem (mem_append_right _ ?_)
      exact mem_append_right _ (mem_map_of_mem hd)
    exact ⟨hsound.fits, hsound.holds.write hsound.fits.le hapart.symm hlow hhigh⟩

/-- The operating system has written one more piece. -/
theorem writeAt {x : Writing} (hx : w.writing[position]? = some x) (count : Nat) :
    WorldSound maxCapacity (w.writeAt position count x) := by
  obtain ⟨hfits, hpending, hholds⟩ := h.writing x (mem_of_getElem? hx)
  have hlive := World.live_writing hx
  have hpiece := take_prefix count (x.data.drop x.written)
  rw [World.writeAt]
  generalize (x.data.drop x.written).take count = piece at hpiece ⊢
  have hlength : x.written + piece.length ≤ x.data.length := by
    have hle := hpiece.length_le
    rw [length_drop] at hle
    omega
  obtain ⟨hwriting, hstored⟩ := h.others_written hx (x.extent.offset + x.written) piece
    (Nat.le_add_right _ _) (by rw [Extent.stop]; omega)
  have hnext := hholds.write_next hpending.le hpiece
  split
  · next hfinished =>
    rw [hfinished, take_length] at hnext
    refine ⟨(h.allocator.perm hlive).perm ?_, h.reserved, hwriting, ?_, h.footprint, h.maxCapacity⟩
    · simp only [World.live, map_append]
      rw [← append_assoc]
      exact (perm_append_singleton _ _).symm
    · intro d hd
      rcases mem_append.1 hd with hd | hd
      · exact hstored d hd
      · obtain rfl := mem_singleton.1 hd
        exact ⟨hfits, hnext⟩
  · next hunfinished =>
    have hlt := (List.getElem?_eq_some_iff.1 hx).1
    have hset := List.set_perm_cons_eraseIdx hlt { x with written := x.written + piece.length }
    refine ⟨(h.allocator.perm hlive).perm ?_, h.reserved, ?_, hstored, h.footprint, h.maxCapacity⟩
    · have hmap := hset.map (·.extent)
      exact (perm_middle.symm.append_right _).trans ((hmap.symm.append_left _).append_right _)
    · intro y hy
      rcases mem_cons.1 (hset.mem_iff.1 hy) with rfl | hy
      · exact ⟨hfits, Nat.lt_of_le_of_ne hlength hunfinished, hnext⟩
      · exact hwriting y hy

theorem step (op : Op) : Safe (w.step op) (WorldSound maxCapacity) := by
  cases op with
  | tryReserveChunk size => exact h.tryReserveChunk size
  | write position belongsTo data => exact h.write belongsTo data
  | writeAt position count =>
    rw [World.step]
    cases hx : w.writing[position]? with
    | none => exact h
    | some x =>
      simp only
      split
      · exact h.failWrite hx
      · exact h.writeAt hx count
  | writeFails position =>
    rw [World.step]
    cases hx : w.writing[position]? with
    | none => exact h
    | some x => exact h.failWrite hx
  | dropReserved position => exact h.dropReserved
  | dropData position => exact h.dropData

end

theorem run (maxCapacity : Option Nat) (ops : List Op) :
    Safe (Disk.run maxCapacity ops) (WorldSound maxCapacity) := by
  have hfrom : ∀ w, WorldSound maxCapacity w →
      Safe (ops.foldlM World.step w) (WorldSound maxCapacity) := by
    induction ops with
    | nil => exact fun w h => h
    | cons op ops ih =>
      intro w h
      exact (h.step op).bind ih
  exact hfrom _ (.new maxCapacity)

end WorldSound

/-- After any run, which never faults, the free chunks and the extents in use tile the file up to
its tail, the free chunks do not touch, the indexes and the total agree, the tail respects the
capacity, all data reads back as stored, and a reservation grows the tail only if it must. -/
theorem disk_pool_sound (maxCapacity : Option Nat) (ops : List Op) :
    ∃ w, run maxCapacity ops = .ok w ∧
      Tiling (w.pool.state.free ++ w.live) w.pool.state.fileTail ∧
      (w.pool.state.free ++ w.live).Pairwise Extent.Apart ∧
      Coalesced w.pool.state.free ∧
      w.pool.state.Indexed ∧
      w.pool.state.freeBytes = bytesIn w.pool.state.free ∧
      (∀ capacity ∈ maxCapacity, w.pool.state.fileTail ≤ capacity) ∧
      (∀ d ∈ w.stored, d.bytes.length = d.extent.len ∧ ∀ offset len, offset + len ≤ d.extent.len →
        w.pool.readExactAt d.extent offset len = .ok ((d.bytes.drop offset).take len)) ∧
      ∀ size, ∃ chunk pool, w.pool.tryReserveChunk size = .ok (chunk, pool) ∧
        (pool.state.fileTail ≠ w.pool.state.fileTail → ∀ e ∈ w.pool.state.free, e.len < size) := by
  obtain ⟨w, hrun, h⟩ := (WorldSound.run maxCapacity ops).exists_ok
  have hsound := h.allocator
  refine ⟨w, hrun, hsound.tiling, hsound.tiling.pairwise, hsound.coalesced, hsound.indexed,
    hsound.total, h.footprint, ?_, ?_⟩
  · intro d hd
    have hmem : d.extent ∈ w.pool.state.free ++ w.live :=
      mem_append_right _ (mem_append_right _ (mem_map_of_mem hd))
    have hbound := (hsound.tiling.stop_le hmem).trans hsound.bounded
    exact ⟨(h.stored d hd).fits, fun offset len hlen => (h.stored d hd).read hbound hlen⟩
  · intro size
    obtain ⟨⟨chunk, pool⟩, hreserve, hreserved⟩ :=
      (DiskPool.tryReserveChunk_spec hsound (h.maxCapacity ▸ h.footprint) size).exists_ok
    exact ⟨chunk, pool, hreserve, hreserved.grown⟩

/-- The file fragments no further than its live extents do; without any, it is one free chunk. -/
theorem fragmentation_bounded (maxCapacity : Option Nat) (ops : List Op) :
    Safe (run maxCapacity ops) fun w => w.pool.state.free.length ≤ w.live.length + 1 :=
  (WorldSound.run maxCapacity ops).mono fun _ h => h.allocator.free_length_le

end Moli.Disk
