import Mathlib.Data.List.Infix

/-!
# Base64

The standard encoding: three bytes as four characters of six bits each, and what is left over as two
or three characters, padded.  A character is settled once its six bits are there, whatever bytes
follow (`take_settled_prefix`).
-/

namespace Base64

open List

/-- The character of six bits. -/
def char (n : Nat) : UInt8 :=
  if n < 26 then UInt8.ofNat (65 + n)
  else if n < 52 then UInt8.ofNat (71 + n)
  else if n < 62 then UInt8.ofNat (n - 4)
  else if n = 62 then 43 else 47

def encode : List UInt8 → List UInt8
  | [] => []
  | [a] => [char (a.toNat / 4), char (a.toNat % 4 * 16), 61, 61]
  | [a, b] =>
    [char (a.toNat / 4), char (a.toNat % 4 * 16 + b.toNat / 16), char (b.toNat % 16 * 4), 61]
  | a :: b :: c :: rest =>
    char (a.toNat / 4) :: char (a.toNat % 4 * 16 + b.toNat / 16) ::
      char (b.toNat % 16 * 4 + c.toNat / 64) :: char (c.toNat % 64) :: encode rest

/-- How many characters the bits of `n` bytes fill. -/
def settled (n : Nat) : Nat := 4 * (n / 3) + n % 3

/-- How many characters of an encoding the bits of its first `n` bytes reach into; `n` is at most
two. -/
def touched (n : Nat) : Nat := n + min n 1

theorem length_encode (l : List UInt8) : (encode l).length = 4 * ((l.length + 2) / 3) := by
  fun_induction encode l with
  | case1 | case2 | case3 => simp
  | case4 a b c rest ih =>
    simp only [length_cons, ih]
    omega

/-- Whole groups are encoded on their own. -/
theorem encode_append {l : List UInt8} (m : List UInt8) (h : l.length % 3 = 0) :
    encode (l ++ m) = encode l ++ encode m := by
  fun_induction encode l with
  | case1 => rfl
  | case2 | case3 => simp at h
  | case4 a b c rest ih =>
    have hrest : rest.length % 3 = 0 := by
      simp only [length_cons] at h
      omega
    rw [cons_append, cons_append, cons_append, encode, ih hrest]
    rfl

/-- The characters that are settled by a text stay when more follows. -/
theorem take_settled_prefix (l m : List UInt8) :
    (encode l).take (settled l.length) <+: encode (l ++ m) := by
  fun_induction encode l with
  | case1 => exact nil_prefix
  | case2 a =>
    match m with
    | [] | [_] | _ :: _ :: _ => simp [encode, settled]
  | case3 a b =>
    match m with
    | [] | _ :: _ => simp [encode, settled]
  | case4 a b c rest ih =>
    have hsettled : settled (rest.length + 1 + 1 + 1) = settled rest.length + 4 := by
      unfold settled
      omega
    rw [length_cons, length_cons, length_cons, hsettled]
    simpa only [cons_append, encode, take_succ_cons, prefix_cons_inj] using ih

/-- Past the characters they reach into, one or two bytes at the front do not matter. -/
theorem drop_touched_encode {front front' : List UInt8} (l : List UInt8)
    (hlen : front.length = front'.length) (hfr : front.length ≤ 2) :
    (encode (front ++ l)).drop (touched front.length) =
      (encode (front' ++ l)).drop (touched front.length) := by
  match front, front', hlen with
  | [], [], _ => rfl
  | [_], [_], _ =>
    match l with
    | [] | [_] | _ :: _ :: _ => rfl
  | [_, _], [_, _], _ =>
    match l with
    | [] | _ :: _ => rfl

end Base64
