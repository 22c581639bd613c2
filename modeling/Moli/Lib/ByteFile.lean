import Mathlib.Data.List.Basic

/-!
# Files as byte lists

A file is the list of its bytes. A write beyond the end fills the gap with zeros.
-/

namespace Lib.ByteFile

open List

variable {file data : List UInt8} {offset x : Nat}

/-- Write at an offset. Writing nothing leaves the file as it is. -/
def write (file : List UInt8) (offset : Nat) (data : List UInt8) : List UInt8 :=
  if data.isEmpty then file
  else (file ++ replicate (offset - file.length) 0).take offset ++ data ++
    file.drop (offset + data.length)

/-- The bytes at an offset, if the file has them all. -/
def read (file : List UInt8) (offset len : Nat) : Option (List UInt8) :=
  let bytes := (file.drop offset).take len
  if bytes.length = len then some bytes else none

@[simp] theorem write_nil : write file offset [] = file := rfl

theorem write_of_ne_nil (h : data ≠ []) :
    write file offset data = (file ++ replicate (offset - file.length) 0).take offset ++
      data ++ file.drop (offset + data.length) := by
  rw [write, if_neg (by simpa using h)]

theorem getElem?_write (h : data ≠ []) :
    (write file offset data)[x]? =
      if x < offset then (if x < file.length then file[x]? else some 0)
      else if x < offset + data.length then data[x - offset]? else file[x]? := by
  have hpad : ((file ++ replicate (offset - file.length) 0).take offset).length = offset := by
    simp only [length_take, length_append, length_replicate]
    omega
  rw [write_of_ne_nil h, append_assoc]
  split_ifs with hlow hfile hhigh
  · rw [getElem?_append_left (by omega), getElem?_take_of_lt hlow,
      getElem?_append_left hfile]
  · rw [getElem?_append_left (by omega), getElem?_take_of_lt hlow,
      getElem?_append_right (by omega), getElem?_replicate_of_lt (by omega)]
  · rw [getElem?_append_right (by omega), hpad, getElem?_append_left (by omega)]
  · rw [getElem?_append_right (by omega), getElem?_append_right (by omega),
      getElem?_drop]
    congr 1
    omega

/-- A write leaves the bytes outside of it alone. -/
theorem getElem?_write_of_outside {b : UInt8} (hx : file[x]? = some b)
    (houtside : x < offset ∨ offset + data.length ≤ x) : (write file offset data)[x]? = some b := by
  by_cases h : data = []
  · rw [h, write_nil, hx]
  · have hlt := (List.getElem?_eq_some_iff.1 hx).1
    rw [getElem?_write h, ← hx]
    split_ifs with hlow hhigh
    · rfl
    · omega
    · rfl

/-- What has been written is there. -/
theorem getElem?_write_inside (hx : x < data.length) :
    (write file offset data)[offset + x]? = data[x]? := by
  have h : data ≠ [] := ne_nil_of_length_pos (by omega)
  rw [getElem?_write h, if_neg (by omega), if_pos (by omega), Nat.add_sub_cancel_left]

/-- Where the file agrees with `bytes`, it is read as `bytes`. -/
theorem read_eq_some {bytes : List UInt8} {base len : Nat}
    (h : ∀ i < bytes.length, file[base + i]? = bytes[i]?) (hlen : offset + len ≤ bytes.length) :
    read file (base + offset) len = some ((bytes.drop offset).take len) := by
  have heq : (file.drop (base + offset)).take len = (bytes.drop offset).take len := by
    refine ext_getElem? fun i => ?_
    by_cases hi : i < len
    · rw [getElem?_take_of_lt hi, getElem?_take_of_lt hi, getElem?_drop,
        getElem?_drop, Nat.add_assoc]
      exact h (offset + i) (by omega)
    · rw [getElem?_take_eq_none (by omega), getElem?_take_eq_none (by omega)]
  have hlength : ((bytes.drop offset).take len).length = len := by
    simp only [length_take, length_drop]
    omega
  rw [read, heq, if_pos hlength]

end Lib.ByteFile
