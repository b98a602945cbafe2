import Mathlib.Algebra.Group.Nat.Defs
import Mathlib.Data.Vector.Defs
import Mathlib.Tactic.Common

/-!
# A stream cipher that makes its stream a block at a time

The state keeps the counter of the next block and what is left of the last one.  After `p` bytes it
stands at position `p` of one fixed stream (`Cipher.At`), so a text given in pieces is covered as it
is in one piece, and a cipher that is set to a block and made to skip some bytes covers as one that
came there by itself.

* `cover_cover`, `cover_append`: what covering does to a text;
* `Cipher.At.xorKeyStream`: a cipher at a position covers from there on.
-/

namespace BlockStream

open List hiding Vector

variable {data : List UInt8} {stream : Nat → UInt8}

variable {size : Nat}

/-! ### The stream -/

/-- Byte `p` of the stream the blocks make. -/
def byteAt (block : Nat → Vector UInt8 size) (p : Nat) : UInt8 :=
  (block (p / size)).toList.getD (p % size) 0

/-- `data` under a stream from `start` on. -/
def cover (stream : Nat → UInt8) (start : Nat) (data : List UInt8) : List UInt8 :=
  data.mapIdx fun i b => b ^^^ stream (start + i)

section

variable (stream : Nat → UInt8)

@[simp] theorem length_cover (start : Nat) (data : List UInt8) :
    (cover stream start data).length = data.length := length_mapIdx

theorem getElem?_cover (start : Nat) (data : List UInt8) (i : Nat) :
    (cover stream start data)[i]? = data[i]?.map fun b => b ^^^ stream (start + i) :=
  getElem?_mapIdx

theorem cover_append (start : Nat) (a b : List UInt8) :
    cover stream start (a ++ b) = cover stream start a ++ cover stream (start + a.length) b := by
  have hshift (i : Nat) : start + (i + a.length) = start + a.length + i := by omega
  simp only [cover, mapIdx_append, hshift]

theorem cover_take_append_drop (start : Nat) {k : Nat} (h : k ≤ data.length) :
    cover stream start (data.take k) ++ cover stream (start + k) (data.drop k) =
      cover stream start data := by
  have hfr : (data.take k).length = k := by
    rw [length_take]
    omega
  conv_rhs => rw [← take_append_drop k data, cover_append, hfr]

/-- The stream twice is no stream. -/
@[simp] theorem cover_cover (start : Nat) (data : List UInt8) :
    cover stream start (cover stream start data) = data := by
  apply ext_getElem?
  intro i
  simp only [getElem?_cover, Option.map_map, Function.comp_def, UInt8.xor_assoc, UInt8.xor_self,
    UInt8.xor_zero, Option.map_id']

theorem drop_cover (start k : Nat) (data : List UInt8) :
    (cover stream start data).drop k = cover stream (start + k) (data.drop k) := by
  apply ext_getElem?
  intro i
  rw [getElem?_drop, getElem?_cover, getElem?_cover, getElem?_drop, Nat.add_assoc]

theorem take_cover (start n : Nat) (data : List UInt8) :
    (cover stream start data).take n = cover stream start (data.take n) := by
  apply ext_getElem?
  intro i
  rw [getElem?_take, getElem?_cover, getElem?_cover, getElem?_take]
  by_cases h : i < n
  · rw [if_pos h, if_pos h]
  · rw [if_neg h, if_neg h]
    rfl

end

/-- A text under the bytes of a stream, written out. -/
theorem zipWith_xor_eq_cover {start : Nat} {key : List UInt8} (hlen : data.length ≤ key.length)
    (h : ∀ i < key.length, key[i]? = some (stream (start + i))) :
    zipWith (· ^^^ ·) data key = cover stream start data := by
  apply ext_getElem?
  intro i
  rw [getElem?_cover, getElem?_zipWith]
  by_cases hi : i < data.length
  · rw [getElem?_eq_getElem hi, h i (by omega)]
    rfl
  · rw [getElem?_eq_none (by omega)]
    rfl

/-- A text longer than the bytes of a stream at hand: only its front is covered. -/
theorem zipWith_xor_eq_cover_take {start : Nat} {key : List UInt8} (hlen : key.length ≤ data.length)
    (h : ∀ i < key.length, key[i]? = some (stream (start + i))) :
    zipWith (· ^^^ ·) data key = cover stream start (data.take key.length) := by
  rw [zipWith_eq_zipWith_take_min, Nat.min_eq_right hlen, take_length]
  exact zipWith_xor_eq_cover (by rw [length_take]; omega) h

/-! ### The cipher -/

/-- A cipher: its block function, the counter of the next block, what is left of the last block, and
whether the last block there is has been made. -/
structure Cipher (size : Nat) where
  block : Nat → Vector UInt8 size
  counter : Nat := 0
  buffer : List UInt8 := []
  overflow : Bool := false

namespace Cipher

variable (limit : Nat)

/-- Sets the counter of the next block; nothing for a block that has been passed. -/
def setCounter (c : Cipher size) (counter : Nat) : Option (Cipher size) :=
  if c.overflow ∨ counter < c.counter then none
  else some { c with counter := counter, buffer := [] }

/-- The bytes of `count` blocks from `counter` on. -/
def blocks (block : Nat → Vector UInt8 size) (counter count : Nat) : List UInt8 :=
  (List.range' counter count).flatMap fun n => (block n).toList

/-- Covers `src` with the stream from where the cipher stands: first with what is left of the last
block, then with new ones.  Nothing where that would take a block past `limit`. -/
def xorKeyStream (c : Cipher size) (src : List UInt8) : Option (List UInt8 × Cipher size) :=
  let drained := List.zipWith (· ^^^ ·) src c.buffer
  let rest := src.drop c.buffer.length
  if rest = [] then some (drained, { c with buffer := c.buffer.drop src.length })
  else
    let numBlocks := (rest.length + size - 1) / size
    if c.overflow ∨ limit < c.counter + numBlocks then none
    else
      let key := blocks c.block c.counter numBlocks
      some (drained ++ List.zipWith (· ^^^ ·) rest key, { c with
          counter := (c.counter + numBlocks) % limit
          buffer := key.drop rest.length
          overflow := c.counter + numBlocks = limit })

/-- How many blocks have been made. -/
def made (c : Cipher size) : Nat := if c.overflow then limit else c.counter

/-- The cipher stands at position `p`: its buffer is the rest of the block `p` is in. -/
structure At (c : Cipher size) (p : Nat) : Prop where
  ends : p + c.buffer.length = c.made limit * size
  buffered : ∀ i < c.buffer.length, c.buffer[i]? = some (byteAt c.block (p + i))
  made_le : c.made limit ≤ limit
  counter_lt : c.counter < limit

variable {limit}

section

variable (block : Nat → Vector UInt8 size)

/-- A cipher with nothing left of a block stands at the first byte of the next. -/
theorem at_counter {counter : Nat} (h : counter < limit) :
    At limit { block := block, counter := counter } (counter * size) :=
  { ends := rfl
    buffered := fun i h => absurd h (Nat.not_lt_zero i)
    made_le := Nat.le_of_lt h
    counter_lt := h }

theorem length_blocks (ctr count : Nat) : (blocks block ctr count).length = count * size := by
  induction count generalizing ctr with
  | zero => simp [blocks]
  | succ count ih =>
    have htail := ih (ctr + 1)
    rw [blocks] at htail
    rw [blocks, range'_succ, flatMap_cons, length_append, htail, Vector.length_toList,
      Nat.succ_mul, Nat.add_comm]

/-- The bytes of some blocks in a row. -/
theorem getElem?_blocks (counter count : Nat) {i : Nat} (h : i < count * size) :
    (blocks block counter count)[i]? = some (byteAt block (counter * size + i)) := by
  induction count generalizing counter i with
  | zero => omega
  | succ count ih =>
    have hsize : 0 < size := by
      rcases Nat.eq_zero_or_pos size with rfl | hpos
      · omega
      · exact hpos
    rw [blocks, range'_succ, flatMap_cons]
    by_cases hi : i < size
    · have hdiv : (counter * size + i) / size = counter := by
        rw [Nat.mul_comm, Nat.mul_add_div hsize, Nat.div_eq_of_lt hi, Nat.add_zero]
      have hmod : (counter * size + i) % size = i := by
        rw [Nat.mul_comm, Nat.mul_add_mod, Nat.mod_eq_of_lt hi]
      have hin : i < (block counter).toList.length := by rwa [Vector.length_toList]
      rw [getElem?_append_left hin, byteAt, hdiv, hmod, getD_eq_getElem?_getD,
        getElem?_eq_getElem hin]
      rfl
    · have htail := ih (counter + 1) (i := i - size) (by rw [Nat.succ_mul] at h; omega)
      rw [blocks] at htail
      rw [getElem?_append_right (by rw [Vector.length_toList]; omega), Vector.length_toList, htail]
      congr 2
      rw [Nat.succ_mul]
      omega

end

/-- How many new blocks a text needs, and how much of the last one it leaves. -/
private theorem numBlocks_spec {size n : Nat} (hsize : 0 < size) (hn : 0 < n) :
    n ≤ (n + size - 1) / size * size ∧ (n + size - 1) / size * size < n + size := by
  have hdiv := Nat.div_add_mod (n + size - 1) size
  have hmod := Nat.mod_lt (n + size - 1) hsize
  rw [Nat.mul_comm] at hdiv
  omega

section

variable {c : Cipher size} {p : Nat} (h : At limit c p) {src : List UInt8}

include h

/-- What is left of the last block is enough. -/
private theorem At.drain (hle : src.length ≤ c.buffer.length) :
    zipWith (· ^^^ ·) src c.buffer = cover (byteAt c.block) p src ∧
      At limit { c with buffer := c.buffer.drop src.length } (p + src.length) := by
  refine ⟨zipWith_xor_eq_cover hle h.buffered,
    { ends := ?_, buffered := ?_, made_le := h.made_le, counter_lt := h.counter_lt }⟩
  · show p + src.length + (c.buffer.drop src.length).length = c.made limit * size
    rw [← h.ends, length_drop]
    omega
  · intro i hi
    rw [length_drop] at hi
    rw [getElem?_drop, h.buffered _ (by omega), Nat.add_assoc]

/-- A text that is longer than what is left, while there are blocks to come. -/
private theorem At.open_of_lt (hlt : c.buffer.length < src.length)
    (hfits : p + src.length ≤ limit * size) :
    c.overflow = false ∧ p + c.buffer.length = c.counter * size := by
  have hends := h.ends
  have hopen : c.overflow = false := by
    rw [Bool.eq_false_iff]
    intro hover
    rw [made, if_pos hover] at hends
    omega
  rw [made, hopen] at hends
  exact ⟨hopen, hends⟩

/-- The buffer is used up, and `count` new blocks cover the rest, which starts at a block. -/
private theorem At.refill (hlt : c.buffer.length < src.length)
    (hends : p + c.buffer.length = c.counter * size) {count : Nat}
    (hcovers : (src.drop c.buffer.length).length ≤ count * size)
    (hroom : c.counter + count ≤ limit) :
    zipWith (· ^^^ ·) src c.buffer ++
        zipWith (· ^^^ ·) (src.drop c.buffer.length) (blocks c.block c.counter count) =
          cover (byteAt c.block) p src ∧
      At limit { c with
        counter := (c.counter + count) % limit
        buffer := (blocks c.block c.counter count).drop (src.drop c.buffer.length).length
        overflow := c.counter + count = limit } (p + src.length) := by
  have hkey := length_blocks c.block c.counter count
  have hfresh : ∀ i < (blocks c.block c.counter count).length,
      (blocks c.block c.counter count)[i]? = some (byteAt c.block (p + c.buffer.length + i)) := by
    intro i hi
    rw [hends, getElem?_blocks _ _ _ (by rwa [← hkey])]
  -- the counter that came round is told from 0 by `overflow`
  have hmade : (if c.counter + count = limit then limit else (c.counter + count) % limit) =
      c.counter + count := by
    by_cases hlast : c.counter + count = limit
    · rw [if_pos hlast, hlast]
    · rw [if_neg hlast, Nat.mod_eq_of_lt (by omega)]
  refine ⟨?_, { ends := ?_, buffered := ?_, made_le := ?_, counter_lt := ?_ }⟩
  · rw [zipWith_xor_eq_cover_take (Nat.le_of_lt hlt) h.buffered,
      zipWith_xor_eq_cover (by rw [hkey]; exact hcovers) hfresh,
      cover_take_append_drop _ _ (Nat.le_of_lt hlt)]
  · simp only [made, decide_eq_true_eq, hmade, length_drop, Nat.add_mul]
    rw [length_drop] at hcovers
    omega
  · intro i hi
    rw [length_drop] at hi
    rw [getElem?_drop, hfresh _ (by omega), length_drop]
    congr 2
    omega
  · simp only [made, decide_eq_true_eq, hmade]
    exact hroom
  · exact Nat.mod_lt _ (Nat.lt_of_le_of_lt (Nat.zero_le _) h.counter_lt)

/-- What a cipher at `p` does, as long as the stream lasts: it covers the text with the stream from
`p` on, and stands after it. -/
theorem At.xorKeyStream (hsize : 0 < size) (hfits : p + src.length ≤ limit * size) :
    ∃ c', xorKeyStream limit c src = some (cover (byteAt c.block) p src, c') ∧
      c'.block = c.block ∧ At limit c' (p + src.length) := by
  rw [Cipher.xorKeyStream]
  by_cases hrest : src.drop c.buffer.length = []
  · obtain ⟨hcover, hat⟩ := h.drain (drop_eq_nil_iff.mp hrest)
    refine ⟨_, ?_, ?_, hat⟩
    · rw [if_pos hrest, hcover]
    · rfl
  · have hlt : c.buffer.length < src.length := by
      rw [drop_eq_nil_iff] at hrest
      omega
    have hlen : 0 < (src.drop c.buffer.length).length := by
      rw [length_drop]
      omega
    obtain ⟨hcovers, hleaves⟩ := numBlocks_spec hsize hlen
    obtain ⟨hopen, hends⟩ := h.open_of_lt hlt hfits
    generalize hcnt : ((src.drop c.buffer.length).length + size - 1) / size = count at *
    -- the text ends within the stream, and fewer than `size` bytes after it are made
    have hroom : c.counter + count ≤ limit := by
      have hbts : (c.counter + count) * size < (limit + 1) * size := by
        rw [length_drop] at hleaves
        rw [Nat.add_mul, Nat.succ_mul]
        omega
      exact Nat.le_of_lt_succ (Nat.lt_of_mul_lt_mul_right hbts)
    obtain ⟨hcover, hat⟩ := h.refill hlt hends hcovers hroom
    refine ⟨_, ?_, ?_, hat⟩
    · rw [if_neg hrest, if_neg (by simp [hopen, hroom])]
      show some (_ ++ _, _) = some (_, _)
      rw [hcover]
    · rfl

end

/-- Past the last block there is no stream. -/
theorem At.xorKeyStream_none {c : Cipher size} {p : Nat} (h : At limit c p) (hsize : 0 < size)
    {src : List UInt8} (hlong : limit * size < p + src.length) :
    Cipher.xorKeyStream limit c src = none := by
  have hends := h.ends
  have hmade : c.made limit * size ≤ limit * size := Nat.mul_le_mul_right _ h.made_le
  have hrest : ¬ src.drop c.buffer.length = [] := by
    rw [drop_eq_nil_iff]
    omega
  rw [Cipher.xorKeyStream, if_neg hrest, if_pos ?_]
  cases hover : c.overflow with
  | true => exact .inl rfl
  | false =>
    have hcnt : c.made limit = c.counter := by
      rw [made, hover]
      rfl
    have hlen : 0 < (src.drop c.buffer.length).length := by
      rw [length_drop]
      omega
    obtain ⟨hcovers, -⟩ := numBlocks_spec hsize hlen
    refine .inr (Nat.lt_of_mul_lt_mul_right (a := size) ?_)
    rw [hcnt] at hends
    rw [length_drop] at hcovers
    rw [Nat.add_mul, length_drop]
    omega

end Cipher

end BlockStream
