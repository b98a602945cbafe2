import Mathlib.Data.List.Basic

/-!
# Bounded queues with waiting senders and receivers

A queue of bounded capacity holds items in the order they were put in.  A sender that finds no room and
a receiver that finds nothing wait in line, by number; a receiver that waits is handed the next item
directly, and a sender that waits puts its item in as soon as one is taken.

* `send_eq_handed`, `send_eq_buffered`: what a send that is done has done;
* `receive_eq_item`, `receive_eq_released`: the same of a receive.
-/

/-- Nobody waits for room while there is some, nor for an item while there is one. -/
@[ext] structure WaitQueue (α : Type) where
  capacity : Nat
  buffer : List α
  senders : List (Nat × α)
  receivers : List Nat
  bounded : buffer.length ≤ capacity
  full : senders = [] ∨ buffer.length = capacity
  empty : receivers = [] ∨ buffer = [] ∧ senders = []

namespace WaitQueue

variable {α : Type} {q q' : WaitQueue α} {x : α}

def new (capacity : Nat) : WaitQueue α := ⟨capacity, [], [], [], Nat.zero_le _, .inl rfl, .inl rfl⟩

/-! ### Sending -/

/-- What sending an item without waiting for room does. -/
inductive Sent (α : Type)
  | handed (receiver : Nat) (q : WaitQueue α)
  | buffered (q : WaitQueue α)
  | noRoom

def send (q : WaitQueue α) (x : α) : Sent α :=
  match h : q.receivers with
  | receiver :: rest =>
    .handed receiver { q with
      receivers := rest
      empty := .inr (q.empty.resolve_left (by rw [h]; exact List.cons_ne_nil _ _)) }
  | [] =>
    if hroom : q.buffer.length < q.capacity then
      .buffered { q with
        buffer := q.buffer ++ [x]
        bounded := by rw [List.length_append]; exact hroom
        full := .inl (q.full.resolve_right (Nat.ne_of_lt hroom))
        empty := .inl h }
    else .noRoom

/-- An item is handed over only when nothing is queued before it. -/
theorem send_eq_handed {recv : Nat} (h : q.send x = .handed recv q') :
    q.buffer = [] ∧ q.senders = [] ∧ q.receivers = recv :: q'.receivers ∧ q'.buffer = [] ∧
      q'.senders = [] ∧ q'.capacity = q.capacity := by
  rw [send] at h
  split at h
  · next receiver' rest hrcv =>
    obtain ⟨rfl, rfl⟩ := Sent.handed.inj h
    obtain ⟨hbuf, hsnd⟩ :=
      q.empty.resolve_left (by rw [hrcv]; exact List.cons_ne_nil _ _)
    exact ⟨hbuf, hsnd, hrcv, hbuf, hsnd, rfl⟩
  · split_ifs at h

/-- An item is buffered when nobody waits for one and there is room. -/
theorem send_eq_buffered (h : q.send x = .buffered q') :
    q.receivers = [] ∧ q.senders = [] ∧ q.buffer.length < q.capacity ∧
      q'.buffer = q.buffer ++ [x] ∧ q'.senders = [] ∧ q'.receivers = [] ∧
      q'.capacity = q.capacity := by
  rw [send] at h
  split at h
  · cases h
  · next hrcv =>
    split_ifs at h with hroom
    obtain rfl := Sent.buffered.inj h
    have hsnd := q.full.resolve_right (Nat.ne_of_lt hroom)
    exact ⟨hrcv, hsnd, hroom, rfl, hsnd, hrcv, rfl⟩

theorem send_eq_noRoom (h : q.send x = .noRoom) :
    q.receivers = [] ∧ q.buffer.length = q.capacity := by
  rw [send] at h
  split at h
  · cases h
  · next hrcv =>
    split_ifs at h with hroom
    exact ⟨hrcv, Nat.le_antisymm q.bounded (Nat.le_of_not_lt hroom)⟩

theorem exists_send_of_room (hrcv : q.receivers = []) (hroom : q.buffer.length < q.capacity)
    (x : α) : ∃ q', q.send x = .buffered q' := by
  rw [send]
  split
  · next receiver rest h => rw [h] at hrcv; cases hrcv
  · rw [dif_pos hroom]
    exact ⟨_, rfl⟩

/-! ### Receiving -/

/-- What receiving without waiting for an item does. -/
inductive Received (α : Type)
  | item (x : α) (q : WaitQueue α)
  | released (x : α) (sender : Nat) (sent : α) (q : WaitQueue α)
  | nothing

/-- The oldest item; the sender that has waited longest puts its own in. -/
def receive (q : WaitQueue α) : Received α :=
  match hbuffer : q.buffer, hsenders : q.senders with
  | [], [] => .nothing
  | x :: rest, [] =>
    .item x { q with
      buffer := rest
      bounded := by
        have hlength := q.bounded
        rw [hbuffer, List.length_cons] at hlength
        exact Nat.le_of_succ_le hlength
      full := .inl hsenders
      empty := .inl (q.empty.resolve_right (by rw [hbuffer]; exact fun h => List.cons_ne_nil _ _ h.1)) }
  | [], (sender, y) :: others =>
    .released y sender y { q with
      senders := others
      full := .inr (q.full.resolve_left (by rw [hsenders]; exact List.cons_ne_nil _ _))
      empty := .inl (q.empty.resolve_right
        (by rw [hsenders]; exact fun h => List.cons_ne_nil _ _ h.2)) }
  | x :: rest, (sender, y) :: others =>
    .released x sender y { q with
      buffer := rest ++ [y]
      senders := others
      bounded := by
        have hlength := q.bounded
        rw [hbuffer, List.length_cons] at hlength
        rw [List.length_append]
        exact hlength
      full := .inr (by
        have hlength := q.full.resolve_left (by rw [hsenders]; exact List.cons_ne_nil _ _)
        rw [hbuffer, List.length_cons] at hlength
        rw [List.length_append]
        exact hlength)
      empty := .inl (q.empty.resolve_right (by rw [hbuffer]; exact fun h => List.cons_ne_nil _ _ h.1)) }

/-- An item is taken from the front of the buffer. -/
theorem receive_eq_item (h : q.receive = .item x q') :
    q.buffer = x :: q'.buffer ∧ q.senders = [] ∧ q'.senders = [] ∧ q'.receivers = q.receivers ∧
      q'.capacity = q.capacity := by
  rw [receive] at h
  split at h
  · cases h
  · next x' rest hbuf hsnd =>
    obtain ⟨rfl, rfl⟩ := Received.item.inj h
    exact ⟨hbuf, hsnd, hsnd, rfl, rfl⟩
  · cases h
  · cases h

/-- A sender that is released has put its item behind those there were. -/
theorem receive_eq_released {snd : Nat} {y : α} (h : q.receive = .released x snd y q') :
    q.buffer ++ [y] = x :: q'.buffer ∧ q.senders = (snd, y) :: q'.senders ∧
      q'.receivers = q.receivers ∧ q'.capacity = q.capacity := by
  rw [receive] at h
  split at h
  · cases h
  · cases h
  · next sender' y' others hbuf hsnd =>
    obtain ⟨rfl, rfl, rfl, rfl⟩ := Received.released.inj h
    exact ⟨by rw [hbuf]; rfl, hsnd, rfl, rfl⟩
  · next x' rest sender' y' others hbuf hsnd =>
    obtain ⟨rfl, rfl, rfl, rfl⟩ := Received.released.inj h
    exact ⟨congrArg (· ++ [y']) hbuf, hsnd, rfl, rfl⟩

theorem receive_eq_nothing (h : q.receive = .nothing) : q.buffer = [] ∧ q.senders = [] := by
  rw [receive] at h
  split at h
  · next hbuf hsnd => exact ⟨hbuf, hsnd⟩
  · cases h
  · cases h
  · cases h

/-! ### Waiting -/

/-- A sender that found no room waits. -/
def awaitRoom (q : WaitQueue α) (sender : Nat) (x : α) : WaitQueue α :=
  if h : q.receivers = [] ∧ q.buffer.length = q.capacity then
    { q with senders := q.senders ++ [(sender, x)], full := .inr h.2, empty := .inl h.1 }
  else q

/-- A receiver that found nothing waits. -/
def awaitItem (q : WaitQueue α) (receiver : Nat) : WaitQueue α :=
  if h : q.buffer = [] ∧ q.senders = [] then
    { q with receivers := q.receivers ++ [receiver], empty := .inr h }
  else q

/-- A waiter gives up. -/
def leave (q : WaitQueue α) (waiter : Nat) : WaitQueue α := { q with
    senders := q.senders.filter (·.1 ≠ waiter)
    receivers := q.receivers.filter (· ≠ waiter)
    full := q.full.imp_left fun h => by rw [h]; rfl
    empty := q.empty.imp (fun h => by rw [h]; rfl) (And.imp_right fun h => by rw [h]; rfl) }

/-- All waiters give up. -/
def clear (q : WaitQueue α) : WaitQueue α :=
  { q with senders := [], receivers := [], full := .inl rfl, empty := .inl rfl }

end WaitQueue
