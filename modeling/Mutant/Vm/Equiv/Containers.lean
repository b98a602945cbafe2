import Mutant.Vm.Value
/-!
# Writes into containers

A write at a hop makes two containers equal exactly when they differ at most there and the same part
is written (`access_tells`).
-/

namespace Mutant.Vm

open List Function PathUpdate

variable {K A : Type} [DecidableEq K] {O : Objects K A}

/-- Two lists that are equal once one element of each is set: they were equal elsewhere, and the
elements set are. -/
theorem set_eq_set_iff {B : Type} {l l' : List B} {n : Nat} {a b : B} (hn : n < l.length) :
    l'.length = l.length ∧ l'.set n b = l.set n a ↔
      (l'.length = l.length ∧ ∀ j, j ≠ n → l'[j]? = l[j]?) ∧ a = b := by
  constructor
  · rintro ⟨hlen, hset⟩
    refine ⟨⟨hlen, fun j hj => ?_⟩, ?_⟩
    · have hj' : (l'.set n b)[j]? = (l.set n a)[j]? := by rw [hset]
      rwa [getElem?_set_ne (Ne.symm hj), getElem?_set_ne (Ne.symm hj)] at hj'
    · have hn' : (l'.set n b)[n]? = (l.set n a)[n]? := by rw [hset]
      rw [getElem?_set_self (by omega), getElem?_set_self hn] at hn'
      exact (Option.some.inj hn').symm
  · rintro ⟨⟨hlen, hoth⟩, rfl⟩
    refine ⟨hlen, ext_getElem? fun j => ?_⟩
    by_cases hj : j = n
    · subst hj
      rw [getElem?_set_self (by omega), getElem?_set_self hn]
    · rw [getElem?_set_ne (Ne.symm hj), getElem?_set_ne (Ne.symm hj)]
      exact hoth j hj

/-- Two maps that are equal once one key of each is written. -/
theorem update_eq_update_iff {I B : Type} [DecidableEq I] {f f' : I → B} {k : I} {a b : B} :
    update f' k b = update f k a ↔ (∀ j, j ≠ k → f' j = f j) ∧ a = b := by
  constructor
  · intro h
    refine ⟨fun j hj => ?_, ?_⟩
    · have hj' := congrFun h j
      rwa [update_of_ne hj, update_of_ne hj] at hj'
    · have hk := congrFun h k
      rw [update_self, update_self] at hk
      exact hk.symm
  · rintro ⟨hoth, rfl⟩
    ext j
    by_cases hj : j = k
    · rw [hj, update_self, update_self]
    · rw [update_of_ne hj, update_of_ne hj]
      exact hoth j hj

theorem InBounds.toNat_lt {i : Int64} {n : Nat} (h : InBounds i n) : i.toInt.toNat < n := by
  obtain ⟨hzero, hlt⟩ := h
  omega

/-- A buffer keeps an integer it can hold. -/
theorem IsByte.ofNat_inj {b c : Int64} (hb : IsByte b) (hc : IsByte c)
    (h : UInt8.ofNat b.toInt.toNat = UInt8.ofNat c.toInt.toNat) : b = c := by
  obtain ⟨hb0, hb⟩ := hb
  obtain ⟨hc0, hc⟩ := hc
  have hnat := congrArg UInt8.toNat h
  rw [UInt8.toNat_ofNat', UInt8.toNat_ofNat'] at hnat
  exact Int64.toInt.inj (by omega)

/-! ### What a write that succeeds has made -/

variable {x y idx u v a : Value K A} {field : String}

/-- Writing an element of an array. -/
theorem execSetIndex_array {elems : List (Value K A)} :
    execSetIndex O (.array elems) idx v = .ok a ↔ ∃ i, idx = .integer i ∧
      InBounds i elems.length ∧ .array (elems.set i.toInt.toNat v) = a := by
  simp only [execSetIndex]
  split
  · split_ifs with hi
    · simp only [Except.ok.injEq, Value.integer.injEq, exists_eq_left', hi, true_and]
    · simp only [Value.integer.injEq, exists_eq_left', hi, false_and]
  · rename_i hne
    refine iff_of_false nofun ?_
    rintro ⟨i, rfl, -⟩
    exact hne i rfl

/-- Writing a byte. -/
theorem execSetIndex_bytes {data : List UInt8} {classified : Option Object.Classification} :
    execSetIndex O (.bytes data classified) idx v = .ok a ↔ ∃ i b, idx = .integer i ∧
      v = .integer b ∧ InBounds i data.length ∧ IsByte b ∧
      .bytes (data.set i.toInt.toNat (UInt8.ofNat b.toInt.toNat)) classified = a := by
  simp only [execSetIndex]
  split
  · split_ifs with hi
    · split
      · split_ifs with hb
        · simp only [Except.ok.injEq, Value.integer.injEq, exists_eq_left', exists_and_left, hi, hb,
            true_and]
        · simp only [Value.integer.injEq, exists_eq_left', exists_and_left, hb, false_and, and_false,
            exists_false]
      · rename_i hne
        refine iff_of_false nofun ?_
        rintro ⟨i, b, -, rfl, -⟩
        exact hne b rfl
    · simp only [Value.integer.injEq, exists_eq_left', exists_and_left, hi, false_and,
        exists_false, and_false]
  · rename_i hne
    refine iff_of_false nofun ?_
    rintro ⟨i, b, rfl, -⟩
    exact hne i rfl

theorem execSetIndex_hash {pairs : K → Option (Value K A × Value K A)} :
    execSetIndex O (.hash pairs) idx v = .ok a ↔ ∃ key, O.hashKey idx = some key ∧
      .hash (update pairs key (some (idx, v))) = a := by
  simp only [execSetIndex]
  cases O.hashKey idx with
  | none => simp only [reduceCtorEq, false_and, exists_false]
  | some key => simp only [Except.ok.injEq, Option.some.injEq, exists_eq_left']

omit [DecidableEq K] in
/-- Writing a field of a struct, which must have the field. -/
theorem execSetField_ok : execSetField O x field v = .ok a ↔ ∃ tname fs fieldOrder,
      x = .struct tname fs fieldOrder ∧ (fs field).isSome ∧
      .struct tname (Function.update fs field (some v)) fieldOrder = a := by
  unfold execSetField
  split
  · rename_i tname fs fieldOrder
    cases hfld : fs field with
    -- a struct without the field
    | none =>
      refine iff_of_false nofun ?_
      rintro ⟨_, _, _, hx, hsome, -⟩
      cases hx
      rw [hfld] at hsome
      cases hsome
    | some _ =>
      rw [Except.ok.injEq]
      constructor
      · exact fun ha => ⟨tname, fs, fieldOrder, rfl, by rw [hfld]; rfl, ha⟩
      · rintro ⟨_, _, _, hx, -, ha⟩
        cases hx
        exact ha
  · rename_i hne
    refine iff_of_false nofun ?_
    rintro ⟨_, _, _, rfl, -⟩
    exact hne _ _ _ rfl

/-! ### Two writes with one outcome -/

/-- A write at an index makes a container of the kind it found. -/
theorem execSetIndex_kind (h : execSetIndex O x idx v = .ok a) : a.ctorIdx = x.ctorIdx := by
  cases x with
  | array elems =>
    obtain ⟨_, _, _, rfl⟩ := execSetIndex_array.mp h
    rfl
  | bytes data classified =>
    obtain ⟨_, _, _, _, _, _, rfl⟩ := execSetIndex_bytes.mp h
    rfl
  | hash pairs =>
    obtain ⟨_, _, rfl⟩ := execSetIndex_hash.mp h
    rfl
  | _ => cases h

omit [DecidableEq K] in
theorem SameBut.kind {hop : Hop K A} (h : SameBut O hop x y) : y.ctorIdx = x.ctorIdx := by
  unfold SameBut at h
  split at h
  all_goals first | rfl | exact h.elim

/-- Two writes at one index make the same container exactly when the containers differ there only.
-/
theorem execSetIndex_tells (hx : execSetIndex O x idx u = .ok a) :
    execSetIndex O y idx v = .ok a ↔ SameBut O (.index idx) x y ∧ u = v := by
  -- a write keeps the kind of the container
  by_cases hkind : y.ctorIdx = x.ctorIdx
  swap
  · refine iff_of_false (fun hy => hkind ?_) fun h => hkind h.1.kind
    exact (execSetIndex_kind hy).symm.trans (execSetIndex_kind hx)
  cases x with
  | array elems =>
    obtain ⟨i, rfl, hi, rfl⟩ := execSetIndex_array.mp hx
    cases y with
    | array elems' =>
      rw [execSetIndex_array]
      simp only [Value.integer.injEq, exists_eq_left', Value.array.injEq]
      rw [SameBut, ← set_eq_set_iff hi.toNat_lt]
      constructor
      · rintro ⟨-, hset⟩
        refine ⟨?_, hset⟩
        simpa using congrArg length hset
      · rintro ⟨hlen, hset⟩
        exact ⟨hlen ▸ hi, hset⟩
    | _ => cases hkind
  | bytes data classified =>
    obtain ⟨i, b, rfl, rfl, hi, hb, rfl⟩ := execSetIndex_bytes.mp hx
    cases y with
    | bytes data' classified' =>
      rw [execSetIndex_bytes]
      simp only [Value.integer.injEq, exists_eq_left', exists_and_left, Value.bytes.injEq]
      constructor
      · rintro ⟨c, rfl, -, hc, hset, rfl⟩
        have hlen : data'.length = data.length := by simpa using congrArg length hset
        obtain ⟨hsame, hbyte⟩ := (set_eq_set_iff hi.toNat_lt).mp ⟨hlen, hset⟩
        exact ⟨⟨rfl, hsame⟩, congrArg Value.integer (hb.ofNat_inj hc hbyte)⟩
      · rintro ⟨⟨rfl, hsame⟩, rfl⟩
        obtain ⟨hlen, hset⟩ := (set_eq_set_iff hi.toNat_lt).mpr ⟨hsame, rfl⟩
        exact ⟨b, rfl, hlen ▸ hi, hb, hset, rfl⟩
    | _ => cases hkind
  | hash pairs =>
    obtain ⟨key, hkey, rfl⟩ := execSetIndex_hash.mp hx
    cases y with
    | hash pairs' =>
      rw [execSetIndex_hash]
      simp only [hkey, Option.some.injEq, exists_eq_left', Value.hash.injEq, update_eq_update_iff,
        Prod.mk.injEq, true_and]
      -- a key other than the one written is one the index is not filed under
      refine and_congr_left fun _ => ?_
      rw [SameBut]
      exact forall_congr' fun other => by simp [hkey, eq_comm]
    | _ => cases hkind
  | _ => cases hx

omit [DecidableEq K] in
/-- Two writes of one field make the same struct exactly when the structs differ there only. -/
theorem execSetField_tells (hx : execSetField O x field u = .ok a) :
    execSetField O y field v = .ok a ↔ SameBut O (.field field) x y ∧ u = v := by
  obtain ⟨tname, fields, fieldOrder, rfl, hsome, rfl⟩ := execSetField_ok.mp hx
  rw [execSetField_ok]
  constructor
  · rintro ⟨tname', fs', fieldOrder', rfl, hsome', ha⟩
    obtain ⟨rfl, hflds, rfl⟩ := Value.struct.inj ha
    obtain ⟨hoth, hval⟩ := update_eq_update_iff.mp hflds
    exact ⟨⟨rfl, rfl, hsome', hoth⟩, Option.some.inj hval⟩
  · rintro ⟨hsame, rfl⟩
    cases y with
    | struct tname' fs' fieldOrder' =>
      obtain ⟨rfl, rfl, hsome', hoth⟩ := hsame
      refine ⟨_, _, _, rfl, hsome', ?_⟩
      rw [update_eq_update_iff.mpr ⟨hoth, rfl⟩]
    | _ => cases hsame

theorem access_tells : (access O).Tells (SameBut O) := by
  intro x y u v a hop hx
  cases hop with
  | index idx => exact execSetIndex_tells hx
  | field name => exact execSetField_tells hx

/-- A write through a path makes two values equal exactly when they differ at most where it leads. -/
theorem replaceAt_eq_iff_agreeOff {path : List (Hop K A)}
    (hx : (access O).replaceAt x path v = .ok a) :
    (access O).replaceAt y path v = .ok a ↔ AgreeOff O path x y :=
  Access.replaceAt_eq_iff access_tells hx

end Mutant.Vm
