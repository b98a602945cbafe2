import Mutant.Lib.Result
import Mutant.Mutil.Equiv.ReplSeal

/-!
# The lines of a session

What one line's call of `Seal` does to the pool, and from it what every session keeps.

* `Session.Inv.step`, `session_inv`: what a line, and a session, keeps;
* `session_keeps_iff`: when every value of a session opens to what it was.
-/

namespace Mutant.Mutil

open List
open BlockStream (cover cover_cover length_cover)
open Mutant.Security (Bytes text)

variable {byteCode : ByteCode κ} {heap : Heap} {constants : List (Option (Object κ))}
  {exposed : Prop}

variable {κ : Type} {K : Keystream} {password : Bytes}

/-! ### One call -/

@[simp] theorem encryptConstant_scalar (key : SealKey) (v : Scalar κ) :
    encryptConstant K key (some (.scalar v)) =
      some (.encrypted (sealedScalar K key v)) := by
  simp only [encryptConstant, encryptObject, encryptScalar_eq]
  rfl

/-- The entries phase two writes. -/
def rekeyEntries (K : Keystream) (s : ReplSealer) (next : Int) (heap : Heap)
    (constants : List (Option (Object κ))) : List (Nat × Bytes) :=
  if next ≠ s.seed then (constants.take s.sealed).filterMap (rekeyEntry K s next heap) else []

/-- The functions after a call that returns. -/
def sealedHeap (K : Keystream) (s : ReplSealer) (heap : Heap) (byteCode : ByteCode κ) : Heap :=
  (sealConstants K s byteCode.instructions.length
    (writeBack heap (rekeyEntries K s byteCode.instructions.length heap byteCode.constants)) 0
    byteCode.constants).2

/-- What a call leaves that has a password and no shrunken pool. -/
theorem seal_ok {s : ReplSealer} (hpw : s.password ≠ [])
    (hsealed : s.sealed ≤ byteCode.constants.length) (heap : Heap) :
    ∃ is, s.seal K heap byteCode =
      { result := .ok ⟨is, byteCode.constants.map
          (encryptConstant K ⟨byteCode.instructions.length, s.password⟩)⟩
        sealer := ⟨s.password, byteCode.instructions.length, byteCode.constants.length⟩
        heap := sealedHeap K s heap byteCode } := by
  have hph : (if (byteCode.instructions.length : Int) ≠ s.seed then
      rekeyed K s byteCode.instructions.length heap 0 (byteCode.constants.take s.sealed)
      else .ok []) =
      .ok (rekeyEntries K s byteCode.instructions.length heap byteCode.constants) := by
    rw [rekeyEntries]
    split
    · exact rekeyed_eq K s _ heap 0 _
    · rfl
  refine ⟨(secureXOR K byteCode.instructions byteCode.instructions.length s.password).toOption.getD
    byteCode.instructions, ?_⟩
  rw [ReplSealer.seal, if_neg hpw, if_neg (by omega)]
  simp only [hph, sealWrites, sealedHeap, sealConstants_fst, length_map]

/-- A call that fails has written nothing. -/
theorem seal_error {s : ReplSealer} {fault : Fault}
    (h : (s.seal K heap byteCode).result = .error fault) :
    (s.seal K heap byteCode).sealer = s ∧ (s.seal K heap byteCode).heap = heap := by
  revert h
  fun_cases ReplSealer.seal K s heap byteCode with
  | case4 => rintro ⟨⟩
  | _ => exact fun _ => ⟨rfl, rfl⟩

open Classical in
/-- The functions of earlier lines are brought over to the next stream. -/
theorem writeBack_rekeyEntries (s : ReplSealer) (next : Int) (a : Nat) :
    writeBack heap (rekeyEntries K s next heap constants) a =
      if some (.compiledFunction a) ∈ constants.take s.sealed then moved K s next (heap a)
      else heap a := by
  rw [rekeyEntries]
  split
  · exact writeBack_rekeyed K s next heap _ a
  · next hnext => rw [moved, not_not.mp hnext, cover_cover, ite_self]; rfl

/-! ### What holds between two lines -/

/-- The entry of a constant at position `i` between two lines, the last of length `seed`.
`exposed` says that a scalar may be under a seed of zero. -/
def Standing (K : Keystream) (password : Bytes) (exposed : Prop) (seed : Int) (heap : Heap)
    (i : Nat) : NewConstant κ → Option (Object κ) → Prop
  | .function body, constant =>
    constant = some (.compiledFunction i) ∧ heap i = cover (K seed password) 0 body
  | .scalar value, constant => ∃ length : Nat,
      constant = some (.encrypted (sealedScalar K ⟨length, password⟩ value)) ∧
      (length = 0 → Fragile (.scalar value : NewConstant κ) → exposed)
  | .absent, constant => constant = none

/-- A session between two lines. -/
structure Session.Inv (K : Keystream) (password : Bytes) (exposed : Prop) (s : Session κ) : Prop where
  password_eq : s.sealer.password = password
  sealed_eq : s.sealer.sealed = s.constants.length
  length_eq : s.originals.length = s.constants.length
  standing : ∀ i original, s.originals[i]? = some original → ∃ constant,
    s.constants[i]? = some constant ∧
      Standing K password exposed s.sealer.seed s.heap i original constant

/-- The entry of a constant the line adds. -/
theorem Session.byteCode_added (s : Session κ) {line : Line κ} {j : Nat} {original : NewConstant κ}
    (hj : line.added[j]? = some original) :
    (s.byteCode line).constants[s.constants.length + j]? =
      some (original.entry (s.constants.length + j)) := by
  rw [Session.byteCode, getElem?_append_right (by omega), entries_getElem?,
    Nat.add_sub_cancel_left, hj]
  rfl

theorem Session.length_byteCode (s : Session κ) (line : Line κ) :
    (s.byteCode line).constants.length = s.constants.length + line.added.length := by
  rw [Session.byteCode, length_append, length_entries]

theorem newSession_inv (exposed : Prop) :
    (newSession password : Session κ).Inv K password exposed :=
  ⟨rfl, rfl, rfl, fun _ _ h => by cases h⟩

variable {i : Nat} {original : NewConstant κ}

theorem Standing.address_eq {seed : Int} {addr : Nat}
    (h : Standing K password exposed seed heap i original (some (.compiledFunction addr))) :
    addr = i := by
  match original, h with
  | .function _, h => cases h.1; rfl
  | .scalar _, ⟨_, h, _⟩ => cases h

theorem Standing.mono {exposed' : Prop} {seed : Int} {constant : Option (Object κ)}
    (h : Standing K password exposed seed heap i original constant) (hexp : exposed → exposed') :
    Standing K password exposed' seed heap i original constant := by
  match original, h with
  | .function _, h => exact h
  | .scalar _, ⟨length, hcon, hzero⟩ =>
    exact ⟨length, hcon, fun hl hf => hexp (hzero hl hf)⟩
  | .absent, h => exact h

section

variable {s : Session κ} (h : s.Inv K password exposed)

include h

theorem Session.Inv.mono {exposed' : Prop} (hexp : exposed → exposed') :
    s.Inv K password exposed' := by
  refine ⟨h.password_eq, h.sealed_eq, h.length_eq, fun i original hi => ?_⟩
  obtain ⟨con, hcon, hstand⟩ := h.standing i original hi
  exact ⟨con, hcon, hstand.mono hexp⟩

/-- Every function of the pool a line's compiler leaves is at the address of its position. -/
theorem Session.Inv.addressed
    (line : Line κ) : Addressed 0 (s.byteCode line).constants := by
  intro i addr hi
  rw [Nat.zero_add]
  by_cases hold : i < s.constants.length
  · obtain ⟨original, horig⟩ : ∃ original, s.originals[i]? = some original :=
      ⟨_, getElem?_eq_getElem (by rw [h.length_eq]; exact hold)⟩
    obtain ⟨con, hcon, hstand⟩ := h.standing i original horig
    rw [Session.byteCode, getElem?_append_left hold, hcon] at hi
    rw [Option.some.inj hi] at hstand
    exact hstand.address_eq
  · rw [Session.byteCode, getElem?_append_right (by omega), entries_getElem?] at hi
    obtain ⟨con, -, hcon⟩ := Option.map_eq_some_iff.mp hi
    match con, hcon with
    | .function _, hcon => cases hcon; omega

/-- A function of the pool after the line. -/
theorem Session.Inv.sealedHeap_at (line : Line κ) {i : Nat}
    (hpool : (s.byteCode line).constants[i]? = some (some (.compiledFunction i))) :
    sealedHeap K s.sealer (s.compiledHeap line) (s.byteCode line) i =
      cover (K line.instructions.length password) 0 (if i < s.constants.length then
        cover (K s.sealer.seed password) 0 (s.compiledHeap line i) else s.compiledHeap line i) := by
  have hat := sealConstants_at K s.sealer line.instructions.length (writeBack (s.compiledHeap line)
    (rekeyEntries K s.sealer line.instructions.length (s.compiledHeap line)
      (s.byteCode line).constants)) (h.addressed line) (j := i) (by rwa [Nat.zero_add])
  rw [Nat.zero_add, writeBack_rekeyEntries, moved, h.sealed_eq, h.password_eq] at hat
  refine hat.trans ?_
  have hmem : some (.compiledFunction i) ∈ (s.byteCode line).constants.take s.constants.length ↔
      i < s.constants.length := by
    simp only [mem_iff_getElem?, getElem?_take]
    constructor
    · rintro ⟨j, hj⟩
      split at hj
      · have := h.addressed line j i hj
        omega
      · cases hj
    · exact fun hi => ⟨i, by rw [if_pos hi, hpool]⟩
  simp only [hmem]
  split
  · rfl
  · rfl

/-- An earlier entry after the line. -/
theorem Session.Inv.standing_old {exposed' : Prop}
    (hexp : exposed → exposed') (line : Line κ) {i : Nat}
    {original : NewConstant κ} {con : Option (Object κ)} (hcon : s.constants[i]? = some con)
    (hstand : Standing K password exposed s.sealer.seed s.heap i original con) :
    Standing K password exposed' line.instructions.length
      (sealedHeap K s.sealer (s.compiledHeap line) (s.byteCode line)) i original
      (encryptConstant K ⟨line.instructions.length, password⟩ con) := by
  have hi : i < s.constants.length := (List.getElem?_eq_some_iff.mp hcon).1
  match original, hstand with
  | .absent, hstand => rw [hstand]; rfl
  | .scalar value, ⟨length, heq, hzero⟩ =>
    exact ⟨length, by rw [heq]; rfl, fun hl hf => hexp (hzero hl hf)⟩
  | .function body, ⟨heq, hbody⟩ =>
    subst heq
    refine ⟨rfl, ?_⟩
    rw [h.sealedHeap_at line (by rw [Session.byteCode, getElem?_append_left hi, hcon]),
      if_pos hi, Session.compiledHeap, allocate_before _ _ hi, hbody, cover_cover]

/-- An entry the line adds. -/
theorem Session.Inv.standing_new
    (line : Line κ) {j : Nat} {original : NewConstant κ} (hj : line.added[j]? = some original) :
    Standing K password line.Unrecorded line.instructions.length
      (sealedHeap K s.sealer (s.compiledHeap line) (s.byteCode line)) (s.constants.length + j)
      original (encryptConstant K ⟨line.instructions.length, password⟩
        (original.entry (s.constants.length + j))) := by
  match original, hj with
  | .absent, _ => rfl
  | .scalar value, hj =>
    refine ⟨line.instructions.length, encryptConstant_scalar _ _, fun hzero hfrag => ?_⟩
    exact ⟨length_eq_zero_iff.mp hzero, _, mem_of_getElem? hj, hfrag⟩
  | .function body, hj =>
    refine ⟨rfl, ?_⟩
    rw [h.sealedHeap_at line (s.byteCode_added hj), if_neg (by omega), Session.compiledHeap,
      allocate_at _ _ hj]

end

/-! ### One line -/

variable {s : Session κ}

/-- The call for a line returns, where there is a password. -/
theorem Session.Inv.sealLine_ok (h : s.Inv K password exposed)
    (hpw : password ≠ []) (line : Line κ) :
    ∃ is, s.sealLine K line =
      { result := .ok ⟨is, (s.byteCode line).constants.map
          (encryptConstant K ⟨line.instructions.length, password⟩)⟩
        sealer := ⟨password, line.instructions.length, (s.byteCode line).constants.length⟩
        heap := sealedHeap K s.sealer (s.compiledHeap line) (s.byteCode line) } := by
  have hne : s.sealer.password ≠ [] := by rwa [h.password_eq]
  have hsealed : s.sealer.sealed ≤ (s.byteCode line).constants.length := by
    rw [h.sealed_eq, s.length_byteCode]
    omega
  obtain ⟨is, hseal⟩ := seal_ok (K := K) hne hsealed (s.compiledHeap line)
  rw [h.password_eq] at hseal
  exact ⟨is, hseal⟩

/-- The entries after the line. -/
theorem Session.Inv.standing_sealed
    (h : s.Inv K password exposed) (line : Line κ)
    (hi : (s.originals ++ line.added)[i]? = some original) :
    ∃ constant, ((s.byteCode line).constants.map
        (encryptConstant K ⟨line.instructions.length, password⟩))[i]? = some constant ∧
      Standing K password (exposed ∨ line.Unrecorded) line.instructions.length
        (sealedHeap K s.sealer (s.compiledHeap line) (s.byteCode line)) i original constant := by
  by_cases hold : i < s.originals.length
  · rw [getElem?_append_left hold] at hi
    obtain ⟨constant, hcon, hstand⟩ := h.standing i original hi
    refine ⟨_, ?_, h.standing_old Or.inl line hcon hstand⟩
    rw [getElem?_map, Session.byteCode,
      getElem?_append_left (by rw [← h.length_eq]; exact hold), hcon]
    rfl
  · obtain ⟨j, rfl⟩ := Nat.exists_eq_add_of_le (Nat.not_lt.mp hold)
    rw [getElem?_append_right (by omega), Nat.add_sub_cancel_left] at hi
    rw [h.length_eq]
    refine ⟨_, ?_, (h.standing_new line hi).mono Or.inr⟩
    rw [getElem?_map, s.byteCode_added hi]
    rfl

theorem Session.Inv.step (h : s.Inv K password exposed) (hpw : password ≠ []) (line : Line κ) :
    (s.step K line).Inv K password (exposed ∨ line.Unrecorded) := by
  obtain ⟨is, hseal⟩ := h.sealLine_ok hpw line
  rw [Session.step, hseal]
  refine ⟨rfl, ?_, ?_, fun i original hi => h.standing_sealed line hi⟩
  · rw [length_map]
  · rw [length_map, s.length_byteCode, length_append, h.length_eq]

/-- What holds between any two lines of a session. -/
theorem session_inv (hpw : password ≠ []) (ls : List (Line κ)) :
    (session K password ls).Inv K password (∃ line ∈ ls, line.Unrecorded) := by
  induction ls using reverseRecOn with
  | nil => exact newSession_inv _
  | append_singleton ls line ih =>
    have hstep := ih.step hpw line
    rw [session, foldl_append]
    refine hstep.mono ?_
    rintro (⟨earlier, hmem, hear⟩ | hline)
    · exact ⟨earlier, mem_append_left _ hmem, hear⟩
    · exact ⟨line, mem_append_right _ (mem_singleton_self line), hline⟩

/-! ### Opening the pool -/

/-- A scalar that no stream can change opens to itself under every key. -/
theorem decryptEncrypted_of_not_fragile {value : Scalar κ}
    (h : ¬ Fragile (.scalar value : NewConstant κ)) (key key' : SealKey) :
    decryptEncrypted K key' (sealedScalar K key value) = .ok value := by
  match value with
  | .integer _ => exact absurd trivial h
  | .float _ => exact absurd trivial h
  | .string value => exact decryptEncrypted_of_no_payload K key key' (not_not.mp h)
  | .bytes value _ => exact decryptEncrypted_of_no_payload K key key' (not_not.mp h)
  | .null => exact decryptEncrypted_of_no_payload K key key' rfl
  | .boolean true => exact absurd rfl h
  | .boolean false =>
    -- Five bytes never say `true`.
    have hpayload : (Scalar.boolean false : Scalar κ).payload ≠ [] := formatBool_ne_nil false
    rw [decryptEncrypted_of_payload K key key' hpayload]
    have hlen : ∀ data : Bytes, data.length = 5 → (toLower data == text "true") = false := by
      intro data hdata
      rw [beq_eq_false_iff_ne]
      intro heq
      have := congrArg length heq
      rw [toLower, length_map, hdata] at this
      exact absurd this (by decide)
    have hfive : (Scalar.boolean false : Scalar κ).payload.length = 5 := by
      rw [Scalar.payload]
      decide
    rw [Scalar.encType, decodeScalar, hlen _ (by rw [length_cover, length_cover, hfive])]

/-- An entry opens under the length of the last line, if that is zero wherever a scalar may be
under a seed of zero. -/
theorem Standing.opens {length : Nat} {constant : Option (Object κ)}
    (h : Standing K password exposed length heap i original constant)
    (hexp : exposed → length = 0) : Opens K password length heap original constant := by
  match original, h with
  | .absent, h => exact h
  | .function body, ⟨hcon, hbody⟩ =>
    refine ⟨i, hcon, ?_⟩
    -- an empty body is not covered
    by_cases hemp : body = []
    · rw [if_pos hemp, hbody, hemp, cover_nil]
    · have hne : heap i ≠ [] := by
        intro hnil
        have hlen := length_cover (K length password) 0 body
        rw [← hbody, hnil] at hlen
        exact hemp (length_eq_zero_iff.mp hlen.symm)
      rw [if_neg hemp, secureXOR_of_ne_nil K hne, hbody, cover_cover]
  | .scalar value, ⟨sealedLength, hcon, hzero⟩ =>
    have hopen : decryptEncrypted K ⟨length, password⟩
        (sealedScalar K ⟨sealedLength, password⟩ value) = .ok value := by
      -- what was sealed under a seed of zero is opened under the key's length
      by_cases hfrag : Fragile (.scalar value : NewConstant κ)
      · refine decryptEncrypted_own K value rfl ?_
        by_cases hseed : sealedLength = 0
        · rw [hseed, hexp (hzero hseed hfrag)]
          rfl
        · exact if_pos (Int.natCast_ne_zero.mpr hseed)
      · exact decryptEncrypted_of_not_fragile hfrag _ _
    rw [Opens, hcon, decryptObject, hopen]
    rfl

variable {line : Line κ}

/-- The call for a line whose length is zero wherever a scalar may be under a seed of zero. -/
theorem Session.Inv.sealKeeps (h : s.Inv K password exposed)
    (hpw : password ≠ []) (hline : exposed → line.instructions = []) : SealKeeps K s line := by
  obtain ⟨is, hseal⟩ := h.sealLine_ok hpw line
  have hzero : exposed ∨ line.Unrecorded → line.instructions.length = 0 := by
    rintro (hexp | hline')
    · rw [hline hexp, length_nil]
    · rw [hline'.1, length_nil]
  rw [SealKeeps, hseal, h.password_eq]
  refine forall₂_iff_get.mpr ⟨?_, fun i hi hi' => ?_⟩
  · rw [length_map, s.length_byteCode, length_append, h.length_eq]
  · obtain ⟨con, hcon, hstand⟩ := h.standing_sealed line
      (getElem?_eq_getElem hi)
    rw [getElem?_eq_getElem hi'] at hcon
    rw [get_eq_getElem, get_eq_getElem, Option.some.inj hcon]
    exact hstand.opens hzero

/-! ### A seed of zero -/

/-- A stream that changes every byte under every seed but zero. -/
def flipped : Keystream := fun seed _ _ => if seed = 0 then 0 else 1

/-- A stream of ones changes every text. -/
theorem cover_flipped_ne {data : Bytes} (h : data ≠ []) :
    cover (fun _ => (1 : UInt8)) 0 data ≠ data := by
  intro heq
  match data, h with
  | b :: rest, _ =>
    rw [cover, mapIdx_cons] at heq
    have hhead : b ^^^ 1 = b := (cons.inj heq).1
    have hb : b ^^^ b ^^^ 1 = b ^^^ b := by rw [UInt8.xor_assoc, hhead]
    rw [UInt8.xor_self] at hb
    exact absurd hb (by decide)

/-- A scalar of a line without instructions does not open under another length. -/
theorem decryptEncrypted_flipped {value : Scalar κ}
    (h : Fragile (.scalar value : NewConstant κ)) {length : Nat} (hlen : length ≠ 0) :
    decryptEncrypted flipped ⟨length, password⟩ (sealedScalar flipped ⟨0, password⟩ value) ≠
      .ok value := by
  have hpayload : value.payload ≠ [] := by
    cases value with
    | integer _ => exact putUint64_ne_nil _
    | float _ => exact putUint64_ne_nil _
    | boolean _ => exact formatBool_ne_nil _
    | string _ => exact h
    | bytes _ _ => exact h
    | null => cases h
  have hseed : openingSeed (0 : Nat) length = length := rfl
  -- under a seed of zero the stream is all zeros, under any other all ones
  have hzero : cover (flipped (0 : Nat) password) 0 value.payload = value.payload := by
    refine ext_getElem (by simp) fun i _ _ => ?_
    simp [cover, flipped]
  have hstream : flipped length password = fun _ => 1 :=
    funext fun _ => if_neg (Int.natCast_ne_zero.mpr hlen)
  rw [decryptEncrypted_of_payload flipped _ _ hpayload]
  simp only [SealKey.seed, hseed, hzero, hstream]
  have hne := cover_flipped_ne hpayload
  have hcover := length_cover (fun _ => (1 : UInt8)) 0 value.payload
  intro heq
  cases value with
  | boolean value =>
    obtain rfl : value = true := h
    have hfalse : (toLower (cover (fun _ => 1) 0 (formatBool true)) == text "true") = false := by
      decide
    have htrue := Scalar.boolean.inj (Except.ok.inj heq)
    exact Bool.false_ne_true (hfalse.symm.trans htrue)
  | string value => exact hne (Scalar.string.inj (Except.ok.inj heq))
  | bytes value _ => exact hne (Scalar.bytes.inj (Except.ok.inj heq)).1
  | float bits =>
    refine hne (eq_putUint64_of_getUint64 hcover ?_)
    obtain ⟨n, hn, heq⟩ := Result.ok_of_bind heq
    rw [hn, Scalar.float.inj (Except.ok.inj heq)]
  | integer value =>
    refine hne (eq_putUint64_of_getUint64 hcover ?_)
    obtain ⟨n, hn, heq⟩ := Result.ok_of_bind heq
    have hval : n.toInt64 = value := Scalar.integer.inj (Except.ok.inj heq)
    exact hn.trans (by rw [← hval, UInt64.toUInt64_toInt64])
  | null => cases h

/-- The pool has a scalar that another stream can change, under a seed of zero. -/
def Session.Stale (K : Keystream) (password : Bytes) (s : Session κ) : Prop :=
  ∃ (i : Nat) (value : Scalar κ), s.originals[i]? = some (.scalar value) ∧
    Fragile (.scalar value : NewConstant κ) ∧
    s.constants[i]? = some (some (.encrypted (sealedScalar K ⟨0, password⟩ value)))

/-- A line leaves what was sealed before it alone. -/
theorem Session.sealed_kept (line : Line κ) {v : Encrypted κ}
    (hi : s.constants[i]? = some (some (.encrypted v))) (K : Keystream) (key : SealKey) :
    ((s.byteCode line).constants.map (encryptConstant K key))[i]? =
      some (some (.encrypted v)) := by
  have hlen : i < s.constants.length := (List.getElem?_eq_some_iff.mp hi).1
  rw [getElem?_map, Session.byteCode, getElem?_append_left hlen, hi]
  rfl

/-- A scalar that was sealed without a recorded length stays so. -/
theorem Session.Inv.stale_step (h : s.Inv K password exposed)
    (hpw : password ≠ []) (hline : s.Stale K password ∨ line.Unrecorded) :
    (s.step K line).Stale K password := by
  obtain ⟨is, hseal⟩ := h.sealLine_ok hpw line
  rw [Session.step, hseal]
  rcases hline with ⟨i, value, horig, hfrag, hcon⟩ | ⟨hnil, constant, hmem, hfrag⟩
  · have hi : i < s.originals.length := (List.getElem?_eq_some_iff.mp horig).1
    refine ⟨i, value, ?_, hfrag, Session.sealed_kept line hcon K _⟩
    rw [getElem?_append_left hi, horig]
  · obtain ⟨j, hj⟩ := mem_iff_getElem?.mp hmem
    match constant, hfrag, hj with
    | .scalar value, hfrag, hj =>
      refine ⟨s.originals.length + j, value, ?_, hfrag, ?_⟩
      · rw [getElem?_append_right (by omega), Nat.add_sub_cancel_left, hj]
      · rw [getElem?_map, h.length_eq, s.byteCode_added hj, hnil]
        exact congrArg some (encryptConstant_scalar _ _)

/-- Once a line without instructions has added such a scalar, the pool keeps it. -/
theorem session_stale (hpw : password ≠ []) {ls : List (Line κ)}
    (h : ∃ line ∈ ls, line.Unrecorded) : (session K password ls).Stale K password := by
  induction ls using reverseRecOn with
  | nil =>
    obtain ⟨line, hmem, -⟩ := h
    cases hmem
  | append_singleton ls line ih =>
    obtain ⟨earlier, hmem, hear⟩ := h
    rw [session, foldl_append]
    refine (session_inv hpw ls).stale_step hpw ?_
    rcases mem_append.mp hmem with hbef | hlast
    · exact Or.inl (ih ⟨earlier, hbef, hear⟩)
    · rw [mem_singleton.mp hlast] at hear
      exact Or.inr hear

/-- A line with instructions over such a pool. -/
theorem Session.Inv.not_sealKeeps
    (h : s.Inv flipped password exposed) (hpw : password ≠ [])
    (hstale : s.Stale flipped password) (hline : line.instructions ≠ []) :
    ¬ SealKeeps flipped s line := by
  obtain ⟨is, hseal⟩ := h.sealLine_ok hpw line
  obtain ⟨i, value, horig, hfrag, hcon⟩ := hstale
  have hkept := Session.sealed_kept line hcon flipped ⟨line.instructions.length, password⟩
  have hi : i < s.originals.length := (List.getElem?_eq_some_iff.mp horig).1
  rw [SealKeeps, hseal]
  intro hops
  have hops' := (forall₂_iff_get.mp hops).2 i
    (by rw [length_append]; omega) (List.getElem?_eq_some_iff.mp hkept).1
  rw [get_eq_getElem, get_eq_getElem, (List.getElem?_eq_some_iff.mp hkept).2,
    getElem_append_left hi, (List.getElem?_eq_some_iff.mp horig).2] at hops'
  obtain ⟨opened, hopen, heq⟩ := Result.ok_of_bind hops'
  have hval : opened = value := Object.scalar.inj (Except.ok.inj heq)
  rw [hval] at hopen
  exact decryptEncrypted_flipped hfrag
    (fun hzero => hline (length_eq_zero_iff.mp hzero)) hopen

/-! ### Without a password -/

theorem seal_no_password {s : ReplSealer} (h : s.password = []) (heap : Heap)
    (byteCode : ByteCode κ) :
    s.seal K heap byteCode = ⟨.error (.error errReplSealerNoPassword), s, heap⟩ := by
  rw [ReplSealer.seal, if_pos h]

/-- Without a password every line is refused. -/
theorem session_no_password (ls : List (Line κ)) : (session K [] ls).sealer = newReplSealer [] := by
  induction ls using reverseRecOn with
  | nil => rfl
  | append_singleton ls line ih =>
    have hnone : (session K [] ls).sealer.password = [] := by rw [ih]; rfl
    rw [session, foldl_append]
    show ((session K [] ls).step K line).sealer = _
    rw [Session.step, Session.sealLine, seal_no_password hnone]
    exact ih

/-! ### The session -/

/-- In a session every call of `Seal` that returns leaves every function and every scalar of the
pool opening to what was compiled, whatever the stream is, exactly when after a line that has no
instructions and adds a scalar no line has any; and a call that fails, on any pool, leaves the
functions and the sealer as they were. -/
theorem session_keeps_iff (password : Bytes) (lines : List (Line κ)) :
    ((∀ K, SessionKeeps K password lines) ↔ password = [] ∨ LinesRecorded lines) ∧
    ∀ (K : Keystream) (s : ReplSealer) (heap : Heap) (byteCode : ByteCode κ) (fault : Fault),
      (s.seal K heap byteCode).result = .error fault →
        (s.seal K heap byteCode).sealer = s ∧ (s.seal K heap byteCode).heap = heap := by
  refine ⟨⟨fun h => ?_, fun h K before line after hlines => ?_⟩,
    fun K s heap byteCode fault => seal_error⟩
  · by_cases hpassword : password = []
    · exact Or.inl hpassword
    -- a keystream that covers nothing under the seed 0 shows the line
    · refine Or.inr fun before line after hlines hearlier => ?_
      by_contra hline
      exact (session_inv hpassword before).not_sealKeeps hpassword
        (session_stale hpassword hearlier) hline (h flipped before line after hlines)
  · by_cases hpassword : password = []
    · subst hpassword
      have hnone : (session K [] before).sealer.password = [] := by
        rw [session_no_password]
        rfl
      rw [SealKeeps, Session.sealLine, seal_no_password hnone]
      exact ⟨rfl, rfl⟩
    · have hrecorded : LinesRecorded lines := h.resolve_left hpassword
      exact (session_inv hpassword before).sealKeeps hpassword
        (hrecorded before line after hlines)

/-- A line without instructions that adds an integer, and a line of one byte: the integer opens
to another one. -/
theorem emptyLine_losesInteger :
    ¬ SessionKeeps flipped (text "pw") [(⟨[], [.scalar (.integer 5)]⟩ : Line Unit), ⟨[0], []⟩] := by
  intro h
  have hlast := h [⟨[], [.scalar (.integer 5)]⟩] ⟨[0], []⟩ [] rfl
  have hpassword : text "pw" ≠ [] := by decide
  refine (session_inv hpassword _).not_sealKeeps hpassword (session_stale hpassword ?_) ?_ hlast
  · exact ⟨_, mem_singleton_self _, rfl, _, mem_singleton_self _, trivial⟩
  · decide

end Mutant.Mutil
