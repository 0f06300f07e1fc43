/-!
# Windows of a byte array

An arena is one array of bytes, and every access to it is through a window: some bytes from an
offset on. Three things are done to a window. It is overwritten (`splice`), it is read as a number
with the low byte first (`number`, and `digits` for the bytes that a number is written as), and
new bytes are added at the end (`pad`).

**A number that was spliced in is the number that is read back** (`number_splice`), and a window
that no splice touched reads as before (`number_congr` with `getElem_splice_of_outside`).
-/

set_option autoImplicit false

namespace BoundaryHeap.Window

/-! ## Overwriting -/

/-- `bytes` with `data` in place of the bytes from `start` on. The array keeps its size when `data`
ends inside it, which is the only case the arena uses. -/
def splice (bytes : ByteArray) (start : Nat) (data : ByteArray) : ByteArray :=
  data.copySlice 0 bytes start data.size

theorem splice_eq_append (bytes data : ByteArray) (start : Nat) :
    splice bytes start data =
      bytes.extract 0 start ++ data ++ bytes.extract (start + data.size) bytes.size := by
  simp [splice, ByteArray.copySlice_eq_append]

@[simp] theorem size_splice {bytes data : ByteArray} {start : Nat}
    (fits : start + data.size ≤ bytes.size) : (splice bytes start data).size = bytes.size := by
  simp only [splice_eq_append, ByteArray.size_append, ByteArray.size_extract]
  omega

/-- Inside the window stands the new data. -/
theorem getElem_splice_of_inside {bytes data : ByteArray} {start i : Nat}
    (fits : start + data.size ≤ bytes.size) (inside : i < data.size)
    {h : start + i < (splice bytes start data).size} :
    (splice bytes start data)[start + i] = data[i] := by
  have lenFront : (bytes.extract 0 start).size = start := by
    simp only [ByteArray.size_extract]; omega
  simp only [splice_eq_append]
  rw [ByteArray.getElem_append_left (by simp only [ByteArray.size_append]; omega),
    ByteArray.getElem_append_right (by omega)]
  congr 1
  omega

theorem getElem_splice_of_outside {bytes data : ByteArray} {start i : Nat}
    (fits : start + data.size ≤ bytes.size) (outside : i < start ∨ start + data.size ≤ i)
    {h : i < (splice bytes start data).size} {h' : i < bytes.size} :
    (splice bytes start data)[i] = bytes[i] := by
  have lenFront : (bytes.extract 0 start).size = start := by
    simp only [ByteArray.size_extract]; omega
  simp only [splice_eq_append]
  rcases outside with before | after
  · rw [ByteArray.getElem_append_left (by simp only [ByteArray.size_append]; omega),
      ByteArray.getElem_append_left (by omega), ByteArray.getElem_extract]
    congr 1
    omega
  · rw [ByteArray.getElem_append_right (by simp only [ByteArray.size_append]; omega),
      ByteArray.getElem_extract]
    congr 1
    simp only [ByteArray.size_append]
    omega

/-! ## Numbers -/

/-- The number written in the `count` bytes from `start` on, low byte first. -/
def number (bytes : ByteArray) (start : Nat) : (count : Nat) → start + count ≤ bytes.size → Nat
  | 0, _ => 0
  | count + 1, fits =>
    have here : start < bytes.size := by omega
    bytes[start].toNat + 256 * number bytes (start + 1) count (by omega)

/-- The `count` bytes that write `n`, low byte first; what exceeds them is lost. -/
def digits : Nat → Nat → List UInt8
  | 0, _ => []
  | count + 1, n => UInt8.ofNat n :: digits count (n / 256)

@[simp] theorem length_digits (count n : Nat) : (digits count n).length = count := by
  induction count generalizing n with
  | zero => rfl
  | succ count ih => simp [digits, ih]

/-- The first number that `count` bytes cannot hold. -/
def limit : (count : Nat) → Nat
  | 0 => 1
  | count + 1 => 256 * limit count

/-- Two windows with the same bytes hold the same number. -/
theorem number_congr {left right : ByteArray} {start start' count : Nat}
    (fits : start + count ≤ left.size) (fits' : start' + count ≤ right.size)
    (same : ∀ i (h : i < count), left[start + i] = right[start' + i]) :
    number left start count fits = number right start' count fits' := by
  induction count generalizing start start' with
  | zero => rfl
  | succ count ih =>
    have first := same 0 (by omega)
    simp only [Nat.add_zero] at first
    have rest := @ih (start + 1) (start' + 1) (by omega) (by omega) (by
      intro i h
      have := same (i + 1) (by omega)
      simpa only [Nat.add_assoc, Nat.add_comm 1 i] using this)
    simp only [number, first, rest]

/-- A window that holds the bytes of `n` holds `n`. -/
theorem number_of_digits {bytes : ByteArray} {start count n : Nat}
    (fits : start + count ≤ bytes.size)
    (same : ∀ i (h : i < count), (digits count n)[i]? = some bytes[start + i]) :
    number bytes start count fits = n % limit count := by
  induction count generalizing start n with
  | zero => exact (Nat.mod_one n).symm
  | succ count ih =>
    have first := same 0 (by omega)
    have rest := @ih (start + 1) (n / 256) (by omega) (by
      intro i h
      have := same (i + 1) (by omega)
      simpa only [digits, List.getElem?_cons_succ, Nat.add_assoc, Nat.add_comm 1 i] using this)
    simp only [digits, Nat.add_zero, List.getElem?_cons_zero, Option.some.injEq] at first
    rw [limit, Nat.mod_mul, number]
    simp only [← first, rest, UInt8.toNat_ofNat', Nat.reducePow]

theorem number_splice {bytes : ByteArray} {start count n : Nat}
    (fits : start + count ≤ bytes.size)
    (fits' : start + count ≤ (splice bytes start (digits count n).toByteArray).size) :
    number (splice bytes start (digits count n).toByteArray) start count fits' =
      n % limit count := by
  apply number_of_digits
  intro i h
  rw [getElem_splice_of_inside (by simpa using fits) (by simpa using h),
    List.getElem_toByteArray, List.getElem?_eq_getElem]

/-! ## Growing -/

/-- `bytes` followed by `count` times the byte `b`. -/
def pad (bytes : ByteArray) (b : UInt8) : (count : Nat) → ByteArray
  | 0 => bytes
  | count + 1 => pad (bytes.push b) b count

@[simp] theorem size_pad (bytes : ByteArray) (b : UInt8) (count : Nat) :
    (pad bytes b count).size = bytes.size + count := by
  induction count generalizing bytes with
  | zero => rfl
  | succ count ih => rw [pad, ih, ByteArray.size_push]; omega

private theorem getElem_push_of_lt {bytes : ByteArray} {b : UInt8} {i : Nat}
    (old : i < bytes.size) {h : i < (bytes.push b).size} : (bytes.push b)[i] = bytes[i] := by
  simp only [ByteArray.getElem_eq_getElem_data, ByteArray.data_push]
  exact Array.getElem_push_lt old

private theorem getElem_push_last {bytes : ByteArray} {b : UInt8}
    {h : bytes.size < (bytes.push b).size} : (bytes.push b)[bytes.size] = b := by
  simp only [ByteArray.getElem_eq_getElem_data, ByteArray.data_push]
  exact Array.getElem_push_eq

theorem getElem_pad_of_lt {bytes : ByteArray} {b : UInt8} {count i : Nat} (old : i < bytes.size)
    {h : i < (pad bytes b count).size} : (pad bytes b count)[i] = bytes[i] := by
  induction count generalizing bytes with
  | zero => rfl
  | succ count ih =>
    have step := @ih (bytes.push b) (by rw [ByteArray.size_push]; omega) h
    exact step.trans (getElem_push_of_lt old)

theorem getElem_pad_of_ge {bytes : ByteArray} {b : UInt8} {count i : Nat} (new : bytes.size ≤ i)
    {h : i < (pad bytes b count).size} : (pad bytes b count)[i] = b := by
  induction count generalizing bytes with
  | zero => simp only [pad] at h; omega
  | succ count ih =>
    by_cases last : i = bytes.size
    · subst last
      have step := @getElem_pad_of_lt (bytes.push b) b count bytes.size
        (by rw [ByteArray.size_push]; omega) h
      exact step.trans getElem_push_last
    · exact @ih (bytes.push b) (by rw [ByteArray.size_push]; omega) h

end BoundaryHeap.Window
