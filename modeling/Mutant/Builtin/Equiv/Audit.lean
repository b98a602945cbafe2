import Mutant.Builtin.Audit

/-!
# The chain of some events

The chain after any events is the log of all of them without the entries it dropped
(`auditRun_eq`), and a link tells its fields apart (`auditMessage_inj`).
-/

namespace Mutant.Builtin

open List
open Mutant.Security (Bytes Primitives)

variable {s : Bytes}

/-! ### Links -/

theorem auditField_append_inj {a b x y : Bytes} (h : auditField a ++ x = auditField b ++ y) :
    a = b ∧ x = y := by
  simp only [auditField, append_assoc] at h
  obtain ⟨hlen, hrest⟩ := Decimal.ofNat_append_inj (by decide) h
  exact append_inj hrest hlen

/-- A link tells its fields apart. -/
theorem auditMessage_inj {prev prev' : Bytes} {seq seq' nano nano' : Int}
    {ev ev' stage stage' : Bytes}
    (h : auditMessage prev seq nano ev stage = auditMessage prev' seq' nano' ev' stage') :
    prev = prev' ∧ seq = seq' ∧ nano = nano' ∧ ev = ev' ∧ stage = stage' := by
  obtain ⟨-, h⟩ := auditField_append_inj h
  obtain ⟨hprev, h⟩ := auditField_append_inj h
  obtain ⟨hseq, h⟩ := auditField_append_inj h
  obtain ⟨hnano, h⟩ := auditField_append_inj h
  obtain ⟨hev, h⟩ := auditField_append_inj h
  obtain ⟨hstage, -⟩ := auditField_append_inj h
  exact ⟨hprev, Decimal.ofInt_inj hseq, Decimal.ofInt_inj hnano, hev, hstage⟩

/-- The text of a digest, or of as many zeros. -/
def IsLinkText (s : Bytes) : Prop := ∃ digest : Security.Digest, s = Hex.encode digest.toList

theorem isLinkText_auditLink (P : Primitives) (prev : Bytes) (seq nano : Int) (ev stage : Bytes) :
    IsLinkText (auditLink P prev seq nano ev stage) := ⟨_, rfl⟩

theorem isLinkText_auditGenesis : IsLinkText auditGenesis :=
  ⟨Vector.replicate _ 0, by decide⟩

theorem IsLinkText.ne_nil (h : IsLinkText s) : s ≠ [] := by
  obtain ⟨digest, rfl⟩ := h
  intro hnil
  have := congrArg length hnil
  rw [Hex.length_encode, Vector.length_toList] at this
  cases this

theorem auditLink_ne_nil (P : Primitives) (prev : Bytes) (seq nano : Int) (ev stage : Bytes) :
    auditLink P prev seq nano ev stage ≠ [] :=
  (isLinkText_auditLink P prev seq nano ev stage).ne_nil

/-- The text of a link has no blank in it. -/
theorem IsLinkText.graphic (h : IsLinkText s) : ∀ b ∈ s, 0x20 < b.toNat ∧ b.toNat < 0x7F := by
  obtain ⟨digest, rfl⟩ := h
  have hdig : ∀ n : Fin 16, 0x20 < (Hex.digit n.val).toNat ∧ (Hex.digit n.val).toNat < 0x7F := by
    decide
  intro b hb
  obtain ⟨c, -, hb⟩ := mem_flatMap.mp hb
  have hc := c.toNat_lt
  simp only [mem_cons, not_mem_nil, or_false] at hb
  rcases hb with rfl | rfl
  · exact hdig ⟨c.toNat / 16, by omega⟩
  · exact hdig ⟨c.toNat % 16, by omega⟩

theorem IsLinkText.repair (h : IsLinkText s) : Utf8.repair s = s := by
  apply Utf8.repair_of_valid
  apply Utf8.valid_of_ascii
  intro b hb
  have := (h.graphic b hb).2
  omega

theorem IsLinkText.toLower {T : TextOps} (hT : T.Correct) (h : IsLinkText s) : T.toLower s = s := by
  rw [hT.toLower_ascii s fun b hb => by have := (h.graphic b hb).2; omega]
  obtain ⟨digest, rfl⟩ := h
  exact Hex.map_lower_encode _

theorem IsLinkText.trimSpace {T : TextOps} (hT : T.Correct) (h : IsLinkText s) :
    T.trimSpace s = s :=
  hT.trimSpace_graphic s h.graphic

/-! ### The log of all events -/

/-- The entries of some events, after `n` others and a last hash. -/
def auditLog (P : Primitives) : Bytes → Nat → List AuditEvent → List AuditEntry
  | _, _, [] => []
  | prev, n, e :: events =>
    let hash := auditLink P prev (wrap64 (n + 1)) (unixNano e.at_) e.event e.stage
    { seq := wrap64 (n + 1)
      at_ := e.at_
      event := e.event
      stage := e.stage
      prev := prev
      hash := hash } :: auditLog P hash (n + 1) events

/-- The hash after some events. -/
def auditLast (P : Primitives) : Bytes → Nat → List AuditEvent → Bytes
  | prev, _, [] => prev
  | prev, n, e :: events =>
    auditLast P (auditLink P prev (wrap64 (n + 1)) (unixNano e.at_) e.event e.stage) (n + 1) events

variable {P : Primitives}

@[simp] theorem length_auditLog (prev : Bytes) (n : Nat) (events : List AuditEvent) :
    (auditLog P prev n events).length = events.length := by
  induction events generalizing prev n with
  | nil => rfl
  | cons e events ih => simp only [auditLog, length_cons, ih]

/-- A log goes on from its last hash. -/
theorem auditLog_append (prev : Bytes) (n : Nat) (events events' : List AuditEvent) :
    auditLog P prev n (events ++ events') =
      auditLog P prev n events ++
        auditLog P (auditLast P prev n events) (n + events.length) events' := by
  induction events generalizing prev n with
  | nil => rfl
  | cons e events ih =>
    simp only [cons_append, auditLog, auditLast, ih, length_cons]
    rw [Nat.add_assoc, Nat.add_comm 1]

/-- And so does that hash. -/
theorem auditLast_append (prev : Bytes) (n : Nat) (events events' : List AuditEvent) :
    auditLast P prev n (events ++ events') =
      auditLast P (auditLast P prev n events) (n + events.length) events' := by
  induction events generalizing prev n with
  | nil => rfl
  | cons e events ih =>
    simp only [cons_append, auditLast, ih, length_cons]
    rw [Nat.add_assoc, Nat.add_comm 1]

/-- The entries after the first `d` are the log of the events after them. -/
theorem drop_auditLog (prev : Bytes) (n : Nat) (events : List AuditEvent) (d : Nat)
    (hd : d ≤ events.length) :
    (auditLog P prev n events).drop d =
      auditLog P (auditLast P prev n (events.take d)) (n + d) (events.drop d) := by
  have h := auditLog_append (P := P) prev n (events.take d) (events.drop d)
  rw [take_append_drop, length_take, Nat.min_eq_left hd] at h
  rw [h, drop_left' (by rw [length_auditLog, length_take, Nat.min_eq_left hd])]

theorem isLinkText_auditLast {prev : Bytes} (hprev : IsLinkText prev) (n : Nat)
    (events : List AuditEvent) : IsLinkText (auditLast P prev n events) := by
  induction events generalizing prev n with
  | nil => exact hprev
  | cons e events ih => exact ih (isLinkText_auditLink P ..) (n + 1)

theorem auditLast_eq_getLast? (prev : Bytes) (n : Nat) (events : List AuditEvent) :
    auditLast P prev n events = (((auditLog P prev n events).getLast?).map (·.hash)).getD prev := by
  induction events generalizing prev n with
  | nil => rfl
  | cons e events ih =>
    rw [auditLast, ih, auditLog, getLast?_cons]
    cases (auditLog P _ (n + 1) events).getLast? <;> rfl

/-- How many of `n` entries the chain has dropped. -/
def auditDropped (n : Nat) : Nat :=
  if n ≤ auditRetained then 0
  else (n - auditRetained + (auditRetained / 4 - 1)) / (auditRetained / 4) * (auditRetained / 4)

theorem auditDropped_eq (n : Nat) :
    auditDropped n = if n ≤ 4096 then 0 else (n - 4096 + 1023) / 1024 * 1024 := rfl

theorem auditDropped_lt {n : Nat} (h : 0 < n) : auditDropped n < n := by
  rw [auditDropped_eq]
  split_ifs <;> omega

theorem auditDropped_le (n : Nat) : auditDropped n ≤ n := by
  rcases Nat.eq_zero_or_pos n with rfl | h
  · exact Nat.le_refl 0
  · exact Nat.le_of_lt (auditDropped_lt h)

/-- A quarter goes where the cap is reached. -/
theorem auditDropped_succ (n : Nat) : auditDropped (n + 1) =
    if auditRetained ≤ n - auditDropped n then auditDropped n + auditRetained / 4
    else auditDropped n := by
  have hretained : auditRetained = 4096 := rfl
  have hn := auditDropped_eq n
  have hsucc := auditDropped_eq (n + 1)
  split_ifs at hn hsucc ⊢ <;> omega

section

variable (events : List AuditEvent)

/-- The chain after some events. -/
theorem auditRun_eq :
    auditRun P events =
      { head := if events = [] then [] else auditLast P auditGenesis 0 events
        total := wrap64 events.length
        dropped := wrap64 (auditDropped events.length)
        entries := (auditLog P auditGenesis 0 events).drop (auditDropped events.length) } := by
  -- on the last event, as the chain grows at its end
  induction events using reverseRecOn with
  | nil => rfl
  | append_singleton events e ih =>
    have hrun : auditRun P (events ++ [e]) = (auditRun P events).appendEntry P e := by
      rw [auditRun, foldl_append]
      rfl
    have hprev : (if (auditRun P events).head = [] then auditGenesis else (auditRun P events).head) =
        auditLast P auditGenesis 0 events := by
      rw [ih]
      by_cases hevs : events = []
      · rw [hevs]
        rfl
      · rw [if_neg hevs, if_neg (isLinkText_auditLast isLinkText_auditGenesis 0 events).ne_nil]
    have hent : (auditRun P events).nextEntry P e =
        { seq := wrap64 (events.length + 1)
          at_ := e.at_
          event := e.event
          stage := e.stage
          prev := auditLast P auditGenesis 0 events
          hash := auditLast P auditGenesis 0 (events ++ [e]) } := by
      rw [AuditChain.nextEntry, hprev, ih, auditLast_append]
      simp only [wrap64_wrap64_add, auditLast, Nat.zero_add]
    have hlog : auditLog P auditGenesis 0 (events ++ [e]) =
        auditLog P auditGenesis 0 events ++ [(auditRun P events).nextEntry P e] := by
      rw [auditLog_append, hent, auditLast_append]
      simp only [auditLog, auditLast, Nat.zero_add]
    have hlen : (auditRun P events).entries.length =
        events.length - auditDropped events.length := by
      rw [ih, length_drop, length_auditLog]
    have hle : auditDropped events.length ≤ (auditLog P auditGenesis 0 events).length := by
      rw [length_auditLog]
      exact auditDropped_le _
    rw [hrun, AuditChain.appendEntry, hlen, length_append, length_singleton,
      auditDropped_succ, hlog]
    -- at capacity a quarter is dropped before the entry is added
    by_cases hcap : auditRetained ≤ events.length - auditDropped events.length
    · have hdrop : auditDropped events.length + auditRetained / 4 ≤
          (auditLog P auditGenesis 0 events).length := by
        rw [length_auditLog]
        unfold auditRetained at hcap ⊢
        omega
      rw [if_pos hcap, if_pos hcap, if_neg (append_ne_nil_of_right_ne_nil _ (by simp)),
        drop_append_of_le_length hdrop, ← drop_drop, hent, ih]
      simp only [wrap64_wrap64_add, Int.natCast_add, Int.natCast_one]
    · rw [if_neg hcap, if_neg hcap, if_neg (append_ne_nil_of_right_ne_nil _ (by simp)),
        drop_append_of_le_length hle, hent, ih]
      simp only [Int.natCast_add, Int.natCast_one]

/-- The head of a snapshot; the chain of no events has the zeros. -/
theorem head_snapshot : (auditRun P events).snapshot.head = auditLast P auditGenesis 0 events := by
  rw [auditRun_eq]
  by_cases hevs : events = []
  · simp only [hevs]
    rfl
  · simp only [hevs]
    exact if_neg (isLinkText_auditLast isLinkText_auditGenesis 0 events).ne_nil

theorem total_snapshot : (auditRun P events).snapshot.total = wrap64 events.length := by
  rw [AuditChain.snapshot, auditRun_eq]

/-- What the chain kept is the log of the last events. -/
theorem entries_snapshot :
    (auditRun P events).snapshot.entries =
      auditLog P
        (auditLast P auditGenesis 0 (events.take (auditDropped events.length)))
        (auditDropped events.length) (events.drop (auditDropped events.length)) := by
  rw [AuditChain.snapshot, auditRun_eq, drop_auditLog _ _ _ _ (auditDropped_le _), Nat.zero_add]

end

end Mutant.Builtin
