import Mathlib.Data.List.TakeDrop
import Mathlib.Tactic.Common

/-! Fixed memory regions as lists of cells: overwriting a range in place, reading a
range, growing at the end. Cells that would fall past the end are not stored, so
an overwrite never changes the size of a region. -/
namespace MemoryRegion

variable {α : Type*}

def overwrite (mem : List α) (off : ℕ) (data : List α) : List α :=
  mem.take off ++ data.take (mem.length - off) ++ mem.drop (off + data.length)

def slice (mem : List α) (lo hi : ℕ) : List α := (mem.take hi).drop lo

def reverseRange (mem : List α) (lo hi : ℕ) : List α :=
  mem.take lo ++ (slice mem lo hi).reverse ++ mem.drop hi

/-- Read `len` cells from `off` on; a cell outside the region reads as `none`. -/
def peek (mem : List α) (off len : ℕ) : List (Option α) :=
  (List.range len).map fun i => mem[off + i]?

@[simp] theorem overwrite_length (mem : List α) (off : ℕ) (data : List α) :
    (overwrite mem off data).length = mem.length := by
  simp only [overwrite, List.length_append, List.length_take, List.length_drop]
  omega

theorem overwrite_of_le {mem data : List α} {off : ℕ} (h : off + data.length ≤ mem.length) :
    overwrite mem off data = mem.take off ++ data ++ mem.drop (off + data.length) := by
  rw [overwrite, List.take_of_length_le (by omega : data.length ≤ mem.length - off)]

theorem take_overwrite {mem data : List α} {off : ℕ} (h : off + data.length ≤ mem.length) :
    (overwrite mem off data).take (off + data.length) = mem.take off ++ data := by
  have size : (mem.take off ++ data).length = off + data.length := by
    simp only [List.length_append, List.length_take]
    omega
  rw [overwrite_of_le h, ← size, List.take_left]

theorem overwrite_append {mem pre post : List α} {off : ℕ}
    (h : off + pre.length + post.length ≤ mem.length) :
    overwrite (overwrite mem off pre) (off + pre.length) post =
      overwrite mem off (pre ++ post) := by
  have room : off + pre.length ≤ mem.length := by omega
  have whole : off + (pre ++ post).length ≤ mem.length := by
    rw [List.length_append]
    omega
  have size : (mem.take off ++ pre).length = off + pre.length := by
    rw [List.length_append, List.length_take]
    omega
  have rest : (overwrite mem off pre).drop (off + pre.length + post.length) =
      mem.drop (off + (pre ++ post).length) := by
    rw [← List.drop_drop, overwrite_of_le room, ← size, List.drop_left, size, List.drop_drop,
      List.length_append, Nat.add_assoc]
  rw [overwrite_of_le (by rw [overwrite_length]; exact h), take_overwrite room, rest,
    overwrite_of_le whole, ← List.append_assoc (mem.take off)]

theorem set_eq_overwrite {mem : List α} {i : ℕ} (h : i < mem.length) (c : α) :
    mem.set i c = overwrite mem i [c] := by
  rw [overwrite_of_le (by exact h), List.set_eq_take_append_cons_drop, if_pos h]
  simp

theorem reverseRange_length {mem : List α} {lo hi : ℕ} (inside : lo ≤ hi) (h : hi ≤ mem.length) :
    (reverseRange mem lo hi).length = mem.length := by
  simp only [reverseRange, slice, List.length_append, List.length_take, List.length_reverse,
    List.length_drop]
  omega

theorem reverseRange_overwrite {mem pre post : List α} {off : ℕ}
    (h : off + (pre ++ post).length ≤ mem.length) :
    reverseRange (overwrite mem off (pre ++ post)) off (off + pre.length) =
      overwrite mem off (pre.reverse ++ post) := by
  have turned : off + (pre.reverse ++ post).length ≤ mem.length := by
    rw [List.length_append, List.length_reverse, ← List.length_append]
    exact h
  have start : (mem.take off).length = off := by
    rw [List.length_take]
    rw [List.length_append] at h
    omega
  have reach : off ≤ (mem.take off).length := Nat.le_of_eq start.symm
  have all : (mem.take off).length ≤ off := Nat.le_of_eq start
  have front : (overwrite mem off (pre ++ post)).take off = mem.take off := by
    rw [overwrite_of_le h, List.append_assoc, List.take_append_of_le_length reach,
      List.take_of_length_le all]
  have behind : (overwrite mem off (pre ++ post)).drop off =
      pre ++ (post ++ mem.drop (off + (pre ++ post).length)) := by
    rw [overwrite_of_le h, List.append_assoc, List.drop_append_of_le_length reach,
      List.drop_of_length_le all, List.nil_append, List.append_assoc]
  have middle : slice (overwrite mem off (pre ++ post)) off (off + pre.length) = pre := by
    rw [slice, List.take_add, front, behind, List.take_left, List.drop_append_of_le_length reach,
      List.drop_of_length_le all, List.nil_append]
  rw [reverseRange, front, middle, ← List.drop_drop, behind, List.drop_left,
    overwrite_of_le turned]
  simp only [List.append_assoc, List.length_append, List.length_reverse]

theorem getElem?_overwrite {mem data : List α} {off i : ℕ} (h : off + data.length ≤ mem.length)
    (outside : i < off ∨ off + data.length ≤ i) : (overwrite mem off data)[i]? = mem[i]? := by
  have start : (mem.take off).length = off := by
    rw [List.length_take]
    omega
  rw [overwrite_of_le h, List.append_assoc]
  rcases outside with before | behind
  · rw [List.getElem?_append_left (start.symm ▸ before), List.getElem?_take_of_lt before]
  · rw [List.getElem?_append_right (by omega), start, List.getElem?_append_right (by omega),
      List.getElem?_drop]
    congr 1
    omega

theorem slice_length {mem : List α} {lo hi : ℕ} (h : hi ≤ mem.length) :
    (slice mem lo hi).length = hi - lo := by
  simp only [slice, List.length_drop, List.length_take]
  omega

@[simp] theorem slice_self (mem : List α) (i : ℕ) : slice mem i i = [] :=
  List.drop_eq_nil_of_le (List.length_take_le i mem)

theorem slice_overwrite {mem data : List α} {lo off : ℕ} (hlo : lo ≤ off)
    (h : off + data.length ≤ mem.length) :
    slice (overwrite mem off data) lo (off + data.length) = slice mem lo off ++ data := by
  have reach : lo ≤ (mem.take off).length := by
    rw [List.length_take]
    omega
  rw [slice, take_overwrite h, List.drop_append_of_le_length reach]
  rfl

theorem slice_append {mem extra : List α} {lo hi : ℕ} (h : hi ≤ mem.length) :
    slice (mem ++ extra) lo hi = slice mem lo hi := by
  rw [slice, List.take_append_of_le_length h]
  rfl

theorem drop_slice (mem : List α) (lo hi n : ℕ) :
    (slice mem lo hi).drop n = slice mem (lo + n) hi := by
  rw [slice, List.drop_drop]
  rfl

theorem take_slice {mem : List α} {lo hi n : ℕ} (h : lo + n ≤ hi) :
    (slice mem lo hi).take n = slice mem lo (lo + n) := by
  rw [slice, List.take_drop, List.take_take, Nat.min_eq_left h]
  rfl

theorem peek_eq_slice {mem : List α} {off len : ℕ} (h : off + len ≤ mem.length) :
    peek mem off len = (slice mem off (off + len)).map some := by
  apply List.ext_getElem
  · simp only [peek, List.length_map, List.length_range, slice_length h]
    omega
  · intro i hi _
    have inside : off + i < mem.length := by
      simp only [peek, List.length_map, List.length_range] at hi
      omega
    simp [peek, slice, inside]

end MemoryRegion
