import Mathlib.Data.List.Nodup
import Mutant.Builtin.Channels

/-!
# What a channel keeps over all interleavings

Every action is one of a few moves (`Move`).  From the moves, what was accepted is at all times what
was taken followed by what is buffered (`Balanced`), and after a close nothing more is accepted unless
a send had already passed its test of the close (`Quiet`).

* `move_of_step`: what one action can do.
* `Balanced.move`, `Balanced.run`: no item is lost or taken twice, in one move and over a run.
* `Quiet.move`, `Quiet.run`: nothing is accepted any more.
* `chanClose_loses_nothing_iff`: when a receiver that was told of the close has had everything.
* `chanSend_after_closed`: a send that is accepted after that.
-/

namespace Mutant.Builtin.Channels

open List WaitQueue

variable {call : Nat}

variable {α : Type} {s s' : ManagedChannel α} {events : List (Event α)}

open ManagedChannel (step)

@[simp] theorem goTo_calls_self (call : Nat) (phase : Phase α) :
    (s.goTo call phase).calls call = phase := Function.update_self ..

theorem goTo_calls_of_ne {other : Nat} (h : other ≠ call) (phase : Phase α) :
    (s.goTo call phase).calls other = s.calls other := Function.update_of_ne h _ _

@[simp] theorem goTo_ch (call : Nat) (phase : Phase α) : (s.goTo call phase).ch = s.ch := rfl

/-! ### Moves -/

/-- A call that is under way and does not wait in line. -/
structure Active (s : ManagedChannel α) (call : Nat) : Prop where
  sends : ∀ ms, s.calls call ≠ .sendWaits ms
  receives : ∀ ms, s.calls call ≠ .recvWaits ms
  running : s.calls call ≠ .returned

/-- An answer that says nothing of a value, nor that there will be none. -/
def Event.isQuiet : Event α → Bool
  | .sent _ => false
  | .received _ _ => false
  | .closed _ => false
  | _ => true

/-- What one action does. -/
inductive Move (s : ManagedChannel α) : ManagedChannel α → List (Event α) → Prop
  | goTo {call : Nat} {phase : Phase α} (hcall : Active s call)
      (hagain : phase = .recvAgain → s.done = true)
      (hselect : ∀ value ms, phase = .sendSelect value ms → s.done = false) :
      Move s (s.goTo call phase) []
  | answer {call : Nat} {event : Event α} (hcall : Active s call) (hevent : event.isQuiet = true) :
      Move s (s.goTo call .returned) [event]
  | closed {call : Nat} (hcall : s.calls call = .recvAgain) (hdrain : s.drain call = none) :
      Move s (s.goTo call .returned) [.closed call]
  | handed {call receiver : Nat} {value : α} {ms : Int} {ch : WaitQueue (Item α)}
      (hcall : s.calls call = .sendSelect value ms)
      (hsend : s.ch.send ⟨call, value⟩ = .handed receiver ch) :
      Move s (({ s with ch := ch }.goTo receiver .returned).goTo call .returned)
        [.sent ⟨call, value⟩, .received receiver ⟨call, value⟩]
  | buffered {call : Nat} {value : α} {ms : Int} {ch : WaitQueue (Item α)}
      (hcall : s.calls call = .sendSelect value ms)
      (hsend : s.ch.send ⟨call, value⟩ = .buffered ch) :
      Move s ({ s with ch := ch }.goTo call .returned) [.sent ⟨call, value⟩]
  | item {call : Nat} {x : Item α} {ch : WaitQueue (Item α)} (hcall : Active s call)
      (hreceive : s.ch.receive = .item x ch) :
      Move s ({ s with ch := ch }.goTo call .returned) [.received call x]
  | released {call sender : Nat} {x y : Item α} {ch : WaitQueue (Item α)} (hcall : Active s call)
      (hreceive : s.ch.receive = .released x sender y ch) :
      Move s (({ s with ch := ch }.goTo sender .returned).goTo call .returned)
        [.sent y, .received call x]
  | awaitRoom {call : Nat} {value : α} {ms : Int} (hcall : Active s call) (hdone : s.done = false)
      (hroom : s.ch.send ⟨call, value⟩ = .noRoom) :
      Move s ({ s with ch := s.ch.awaitRoom call ⟨call, value⟩ }.goTo call (.sendWaits ms)) []
  | awaitItem {call : Nat} {ms : Int} (hcall : Active s call) (hdone : s.done = false)
      (hitem : s.ch.receive = .nothing) :
      Move s ({ s with ch := s.ch.awaitItem call }.goTo call (.recvWaits ms)) []
  | leave {call : Nat} {event : Event α}
      (hcall : ∃ ms, s.calls call = .sendWaits ms ∨ s.calls call = .recvWaits ms)
      (hevent : event.isQuiet = true) :
      Move s ({ s with ch := s.ch.leave call }.goTo call .returned) [event]
  | close {call : Nat} (hcall : s.calls call = .notCalled) :
      Move s (s.close.1.goTo call .returned) (s.close.2 ++ [.closing call true])

theorem active_of_eq {phase : Phase α} (h : s.calls call = phase)
    (hsends : ∀ ms, phase ≠ .sendWaits ms) (hreceives : ∀ ms, phase ≠ .recvWaits ms)
    (hrun : phase ≠ .returned) : Active s call :=
  ⟨fun ms => h ▸ hsends ms, fun ms => h ▸ hreceives ms, h ▸ hrun⟩

/-- Taking an item, with or without a sender that waits for the room. -/
theorem move_of_drain (hcall : Active s call) :
    s.drain call = some (s', events) → Move s s' events := by
  fun_cases ManagedChannel.drain s call with
  | case1 x ch hrec =>
    rintro ⟨⟩
    exact .item hcall hrec
  | case2 x snd y ch hrec =>
    rintro ⟨⟩
    exact .released hcall hrec
  | case3 => rintro ⟨⟩

/-- The `select` of a send: into the channel, or one of the answers that leave it alone. -/
theorem move_of_sendSelect {v : α} {ms : Int} {choice : Choice}
    (hcall : s.calls call = .sendSelect v ms) :
    s.sendSelect call v ms choice = some (s', events) → Move s s' events := by
  have hactive := active_of_eq hcall nofun nofun nofun
  fun_cases ManagedChannel.sendSelect s call v ms choice with
  | case1 =>
    fun_cases ManagedChannel.put s call v with
    | case1 recv ch hsend =>
      rintro ⟨⟩
      exact .handed hcall hsend
    | case2 ch hsend =>
      rintro ⟨⟩
      exact .buffered hcall hsend
    | case3 => rintro ⟨⟩
  -- nothing was ready, so the send queues up
  | case7 hdone hroom =>
    rintro ⟨⟩
    exact .awaitRoom hactive hdone hroom
  | case2 | case4 | case6 =>
    rintro ⟨⟩
    exact .answer hactive rfl
  | case3 | case5 | case8 => rintro ⟨⟩

/-- The `select` of a receive. Where `done` is chosen the receive drains once more before it
answers. -/
theorem move_of_recvSelect {ms : Int} {choice : Choice} (hcall : s.calls call = .recvSelect ms) :
    s.recvSelect call ms choice = some (s', events) → Move s s' events := by
  have hactive := active_of_eq hcall nofun nofun nofun
  fun_cases ManagedChannel.recvSelect s call ms choice with
  | case2 => exact move_of_drain hactive
  | case3 hdone =>
    rintro ⟨⟩
    exact .goTo hactive (fun _ => hdone) nofun
  | case5 | case8 =>
    rintro ⟨⟩
    exact .answer hactive rfl
  | case9 hdone _ hitem =>
    rintro ⟨⟩
    exact .awaitItem hactive (Bool.not_eq_true _ ▸ hdone) hitem
  | case1 | case4 | case6 | case7 | case10 => rintro ⟨⟩

/-- Every action is a move. -/
theorem move_of_step {action : Action α} :
    s.step action = some (s', events) → Move s s' events := by
  fun_cases ManagedChannel.step s action with
  | case1 call v ms hcall | case8 call ms hcall | case11 call ms hcall =>
    rintro ⟨⟩
    exact .goTo (active_of_eq hcall nofun nofun nofun) nofun nofun
  | case3 call v ms hcall | case23 call hcall =>
    rintro ⟨⟩
    exact .answer (active_of_eq hcall nofun nofun nofun) rfl
  -- the send has seen the channel open, which may change before its `select`
  | case4 call v ms hcall hdone =>
    rintro ⟨⟩
    exact .goTo (active_of_eq hcall nofun nofun nofun) nofun fun _ _ _ => Bool.not_eq_true _ ▸ hdone
  | case6 call choice v ms hcall => exact move_of_sendSelect hcall
  | case10 call ms hcall taken hdrain | case15 call hcall taken hdrain =>
    rintro ⟨⟩
    exact move_of_drain (active_of_eq hcall nofun nofun nofun) hdrain
  | case13 call choice ms hcall => exact move_of_recvSelect hcall
  | case16 call hcall hdrain =>
    rintro ⟨⟩
    exact .closed hcall hdrain
  | case18 call ms hcall =>
    rintro ⟨⟩
    exact .leave ⟨ms, .inl hcall⟩ rfl
  | case20 call ms hcall =>
    rintro ⟨⟩
    exact .leave ⟨ms, .inr hcall⟩ rfl
  | case24 call hcall =>
    rintro ⟨⟩
    exact .close hcall
  | _ => rintro ⟨⟩

variable {actions : List (Action α)}

/-- A run is a move and a run. -/
theorem move_of_run {action : Action α} (hrun : run s (action :: actions) = some (s', events)) :
    ∃ s₁ first later, Move s s₁ first ∧ run s₁ actions = some (s', later) ∧
      events = first ++ later := by
  rw [run, Option.bind_eq_some_iff] at hrun
  obtain ⟨⟨s₁, first⟩, hstep, hrun⟩ := hrun
  obtain ⟨⟨s₂, later⟩, hrest, heq⟩ := Option.map_eq_some_iff.mp hrun
  cases heq
  exact ⟨s₁, first, later, move_of_step hstep, hrest, rfl⟩

/-! ### What was accepted is what was taken and what is buffered -/

variable {acc tak : List (Item α)}

structure Balanced (s : ManagedChannel α) (acc tak : List (Item α)) : Prop where
  balance : acc = tak ++ s.ch.buffer
  once : (acc.map Item.call).Nodup
  returned : ∀ item ∈ acc, s.calls item.call = .returned
  senders : ∀ waiter ∈ s.ch.senders, waiter.1 = waiter.2.call ∧ ∃ ms, s.calls waiter.1 = .sendWaits ms
  receivers : ∀ waiter ∈ s.ch.receivers, ∃ ms, s.calls waiter = .recvWaits ms
  sendersOnce : (s.ch.senders.map Prod.fst).Nodup
  receiversOnce : s.ch.receivers.Nodup
  done : s.done = true → s.ch.senders = [] ∧ s.ch.receivers = []
  again : ∀ call, s.calls call = .recvAgain → s.done = true

/-- A new channel has accepted and delivered nothing. -/
theorem balanced_new (cap : Nat) : Balanced (.new cap : ManagedChannel α) [] [] := by
  refine ⟨rfl, nodup_nil, ?_, ?_, ?_, nodup_nil, nodup_nil, ?_, ?_⟩ <;>
    simp [ManagedChannel.new, new]

namespace Balanced

section

variable (h : Balanced s acc tak)

include h

/-- A call that is still active has not been accepted, and does not wait. -/
theorem notMem (hcall : s.calls call ≠ .returned) : call ∉ acc.map Item.call := by
  rw [mem_map]
  rintro ⟨item, hitem, rfl⟩
  exact hcall (h.returned item hitem)

/-- A call that is under way is not among those that wait. -/
theorem sender_ne (hcall : Active s call)
    {w : Nat × Item α} (hwt : w ∈ s.ch.senders) : w.1 ≠ call := by
  rintro rfl
  obtain ⟨ms, hms⟩ := (h.senders w hwt).2
  exact hcall.sends ms hms

theorem receiver_ne (hcall : Active s call) {w : Nat} (hwt : w ∈ s.ch.receivers) : w ≠ call := by
  rintro rfl
  obtain ⟨ms, hms⟩ := h.receivers w hwt
  exact hcall.receives ms hms

/-- An active call goes on. -/
theorem goTo (phase : Phase α) (hcall : Active s call)
    (hag : phase = .recvAgain → s.done = true) : Balanced (s.goTo call phase) acc tak := by
  refine ⟨h.balance, h.once, ?_, ?_, ?_, h.sendersOnce, h.receiversOnce, h.done, ?_⟩
  · intro item hitem
    have hreturned := h.returned item hitem
    have hne : item.call ≠ call := fun heq => hcall.running (heq ▸ hreturned)
    rw [goTo_calls_of_ne hne]
    exact hreturned
  · intro w hwt
    rw [goTo_calls_of_ne (h.sender_ne hcall hwt)]
    exact h.senders w hwt
  · intro w hwt
    rw [goTo_calls_of_ne (h.receiver_ne hcall hwt)]
    exact h.receivers w hwt
  · intro other hph
    by_cases hne : other = call
    · rw [hne, goTo_calls_self] at hph
      exact hag hph
    · rw [goTo_calls_of_ne hne] at hph
      exact h.again other hph

/-- The calls of `gone` return, one of them accepted or none, and the lines get shorter. -/
theorem settle (new : Option (Item α)) {tak' : List (Item α)}
    {gone : List Nat} (hbal : acc ++ new.toList = tak' ++ s'.ch.buffer) (hdone : s'.done = s.done)
    (hcs : ∀ call, s'.calls call = if call ∈ gone then .returned else s.calls call)
    (hnew : ∀ item ∈ new, s.calls item.call ≠ .returned ∧ item.call ∈ gone)
    (hsnd : s'.ch.senders.Sublist s.ch.senders) (hsnd' : ∀ waiter ∈ s'.ch.senders, waiter.1 ∉ gone)
    (hrcv : s'.ch.receivers.Sublist s.ch.receivers)
    (hrcv' : ∀ waiter ∈ s'.ch.receivers, waiter ∉ gone) : Balanced s' (acc ++ new.toList) tak' := by
  refine ⟨hbal, ?_, ?_, ?_, ?_, (hsnd.map _).nodup h.sendersOnce,
    hrcv.nodup h.receiversOnce, ?_, ?_⟩
  -- the call that is accepted had not returned, so its item is new
  · cases new with
    | none => simpa using h.once
    | some item =>
      rw [Option.toList_some, map_append, nodup_append_comm]
      exact nodup_cons.mpr ⟨h.notMem (hnew item rfl).1, h.once⟩
  · intro item hitem
    rw [hcs, ite_eq_left_iff]
    intro hgone
    obtain hitem | hitem := mem_append.mp hitem
    · exact h.returned item hitem
    · exact absurd (hnew item (Option.mem_toList.mp hitem)).2 hgone
  · intro waiter hwt
    rw [hcs, if_neg (hsnd' waiter hwt)]
    exact h.senders waiter (hsnd.subset hwt)
  · intro waiter hwt
    rw [hcs, if_neg (hrcv' waiter hwt)]
    exact h.receivers waiter (hrcv.subset hwt)
  · intro hcl
    obtain ⟨hs, hr⟩ := h.done (hdone ▸ hcl)
    exact ⟨sublist_nil.mp (hs ▸ hsnd), sublist_nil.mp (hr ▸ hrcv)⟩
  · intro call hph
    rw [hcs] at hph
    rw [hdone]
    split_ifs at hph
    exact h.again call hph

/-- An active call answers nothing of a value. -/
theorem answer (hcall : Active s call) :
    Balanced (s.goTo call .returned) acc tak := h.goTo .returned hcall nofun

end

end Balanced

theorem goTo_returned_calls (call other : Nat) : (s.goTo call .returned).calls other =
      if other ∈ [call] then .returned else s.calls other := by
  simp [ManagedChannel.goTo, Function.update_apply]

theorem goTo_goTo_returned_calls (first second other : Nat) :
    ((s.goTo first .returned).goTo second .returned).calls other =
      if other ∈ [first, second] then .returned else s.calls other := by
  rw [goTo_returned_calls, goTo_returned_calls]
  split_ifs <;> simp_all

namespace Balanced

section

variable (h : Balanced s acc tak)

include h

variable {ch : WaitQueue (Item α)}

/-- The item goes straight to a receiver that waits, and both calls return. -/
theorem handed {receiver : Nat} {v : α}
    (hcall : Active s call) (hsend : s.ch.send ⟨call, v⟩ = .handed receiver ch) :
    Balanced (({ s with ch := ch }.goTo receiver .returned).goTo call .returned)
      (acc ++ [⟨call, v⟩]) (tak ++ [⟨call, v⟩]) := by
  obtain ⟨hbuf, -, hrcv, hbuf', hsnd', -⟩ := send_eq_handed hsend
  have hnd := nodup_cons.mp (hrcv ▸ h.receiversOnce)
  have hbal := h.balance
  rw [hbuf] at hbal
  refine h.settle (some ⟨call, v⟩) ?_ rfl (goTo_goTo_returned_calls _ _) ?_ ?_ ?_ ?_ ?_
  · simp [hbuf', hbal]
  · rintro item ⟨⟩
    exact ⟨hcall.running, by simp⟩
  · simp [hsnd']
  · simp [hsnd']
  · simp [hrcv]
  · intro w (hwt : w ∈ ch.receivers)
    have hmem : w ∈ s.ch.receivers := hrcv ▸ mem_cons_of_mem _ hwt
    -- no receiver waits twice, so the others still wait
    have hne : w ≠ receiver := fun heq => hnd.1 (heq ▸ hwt)
    simp [hne, h.receiver_ne hcall hmem]

/-- The item goes into the buffer, and the send returns. -/
theorem buffered {v : α} (hcall : Active s call) (hsend : s.ch.send ⟨call, v⟩ = .buffered ch) :
    Balanced ({ s with ch := ch }.goTo call .returned) (acc ++ [⟨call, v⟩]) (tak ++ []) := by
  obtain ⟨-, -, -, hbuf', hsnd', hrcv', -⟩ := send_eq_buffered hsend
  refine h.settle (some ⟨call, v⟩) ?_ rfl (goTo_returned_calls _) ?_ ?_ ?_ ?_ ?_
  · simp [hbuf', h.balance]
  · rintro item ⟨⟩
    exact ⟨hcall.running, by simp⟩
  · simp [hsnd']
  · simp [hsnd']
  · simp [hrcv']
  · simp [hrcv']

/-- The oldest item is taken, and no sender was waiting for the room. -/
theorem item {x : Item α} (hcall : Active s call) (hrec : s.ch.receive = .item x ch) :
    Balanced ({ s with ch := ch }.goTo call .returned) (acc ++ []) (tak ++ [x]) := by
  obtain ⟨hbuf, -, hsnd', hrcv', -⟩ := receive_eq_item hrec
  refine h.settle none ?_ rfl (goTo_returned_calls _) nofun ?_ ?_ ?_ ?_
  · simp [h.balance, hbuf]
  · simp [hsnd']
  · simp [hsnd']
  · simp [hrcv']
  · intro w (hwt : w ∈ ch.receivers)
    simp [h.receiver_ne hcall (hrcv' ▸ hwt)]

/-- The oldest item is taken, and the first sender that waits puts its own into the room and
returns. -/
theorem released {sender : Nat} {x y : Item α} (hcall : Active s call)
    (hrec : s.ch.receive = .released x sender y ch) :
    Balanced (({ s with ch := ch }.goTo sender .returned).goTo call .returned) (acc ++ [y])
      (tak ++ [x]) := by
  obtain ⟨hbuf, hsnd, hrcv', -⟩ := receive_eq_released hrec
  have hnd := nodup_cons.mp (hsnd ▸ h.sendersOnce)
  -- a sender waits with its own item, which is therefore new
  obtain ⟨hself, ms, hms⟩ := h.senders (sender, y) (hsnd ▸ mem_cons_self)
  replace hself : sender = y.call := hself
  refine h.settle (some y) ?_ rfl (goTo_goTo_returned_calls _ _) ?_ ?_ ?_ ?_ ?_
  · simp [h.balance, hbuf]
  · rintro item ⟨⟩
    rw [← hself, show s.calls sender = _ from hms]
    exact ⟨nofun, by simp⟩
  · simp [hsnd]
  · intro w (hwt : w ∈ ch.senders)
    have hmem : w ∈ s.ch.senders := hsnd ▸ mem_cons_of_mem _ hwt
    have hne : w.1 ≠ sender := fun heq =>
      hnd.1 (mem_map.mpr ⟨w, hwt, heq⟩)
    simp [hne, h.sender_ne hcall hmem]
  · simp [hrcv']
  · intro w (hwt : w ∈ ch.receivers)
    rw [hrcv'] at hwt
    -- one call does not both send and receive
    have hne : w ≠ sender := by
      rintro rfl
      obtain ⟨ms', hms'⟩ := h.receivers w hwt
      rw [hms] at hms'
      cases hms'
    simp [hne, h.receiver_ne hcall hwt]

/-- A send that finds no room waits at the end of the queue. -/
theorem awaitRoom {v : α} {ms : Int} (hcall : Active s call) (hdone : s.done = false)
    (hroom : s.ch.send ⟨call, v⟩ = .noRoom) :
    Balanced ({ s with ch := s.ch.awaitRoom call ⟨call, v⟩ }.goTo call (.sendWaits ms))
      acc tak := by
  have hstep := h.goTo (.sendWaits ms) hcall nofun
  have hwaits := send_eq_noRoom hroom
  have hch : s.ch.awaitRoom call ⟨call, v⟩ = { s.ch with
        senders := s.ch.senders ++ [(call, ⟨call, v⟩)], full := .inr hwaits.2,
        empty := .inl hwaits.1 } := dif_pos hwaits
  rw [hch]
  refine ⟨hstep.balance, hstep.once, hstep.returned, ?_, hstep.receivers, ?_, hstep.receiversOnce,
    ?_, hstep.again⟩
  · intro w hwt
    obtain hwt | hwt := mem_append.mp hwt
    · exact hstep.senders w hwt
    · rw [mem_singleton.mp hwt]
      exact ⟨rfl, ms, goTo_calls_self ..⟩
  · show ((s.ch.senders ++ [(call, Item.mk call v)]).map Prod.fst).Nodup
    rw [map_append, nodup_append_comm]
    refine nodup_cons.mpr ⟨fun hmem => ?_, h.sendersOnce⟩
    obtain ⟨w, hwt, heq⟩ := mem_map.mp hmem
    exact h.sender_ne hcall hwt heq
  -- absurd (hdone.symm.trans hcl) => the channel is open, so nothing is said of a closed one
  · exact fun hcl => absurd (hdone.symm.trans hcl) Bool.false_ne_true

/-- A receive that finds nothing waits at the end of the queue. -/
theorem awaitItem {ms : Int} (hcall : Active s call)
    (hdone : s.done = false) (hitem : s.ch.receive = .nothing) :
    Balanced ({ s with ch := s.ch.awaitItem call }.goTo call (.recvWaits ms)) acc tak := by
  have hstep := h.goTo (.recvWaits ms) hcall nofun
  have hwaits := receive_eq_nothing hitem
  have hch : s.ch.awaitItem call =
      { s.ch with receivers := s.ch.receivers ++ [call], empty := .inr hwaits } := dif_pos hwaits
  rw [hch]
  refine ⟨hstep.balance, hstep.once, hstep.returned, hstep.senders, ?_, hstep.sendersOnce, ?_, ?_,
    hstep.again⟩
  · intro w hwt
    obtain hwt | hwt := mem_append.mp hwt
    · exact hstep.receivers w hwt
    · rw [mem_singleton.mp hwt]
      exact ⟨ms, goTo_calls_self ..⟩
  · exact nodup_append_comm.mpr
      (nodup_cons.mpr ⟨fun hmem => h.receiver_ne hcall hmem rfl, h.receiversOnce⟩)
  · exact fun hcl => absurd (hdone.symm.trans hcl) Bool.false_ne_true

/-- A call that waits gives up. -/
theorem leave :
    Balanced ({ s with ch := s.ch.leave call }.goTo call .returned) (acc ++ []) (tak ++ []) := by
  refine h.settle none ?_ rfl (goTo_returned_calls _) nofun filter_sublist ?_
    filter_sublist ?_
  · simp [WaitQueue.leave, h.balance]
  · simp [WaitQueue.leave]
  · simp [WaitQueue.leave]

/-- A close leaves the calls that do not wait where they are. -/
theorem close_calls {phase : Phase α} (hcall : s.calls call = phase)
    (hsends : ∀ ms, phase ≠ .sendWaits ms) (hreceives : ∀ ms, phase ≠ .recvWaits ms) :
    s.close.1.calls call = phase := by
  have hsender : call ∉ s.ch.senders.map Prod.fst := by
    rw [mem_map]
    rintro ⟨w, hwt, rfl⟩
    obtain ⟨ms, hms⟩ := (h.senders w hwt).2
    exact hsends ms (hcall.symm.trans hms)
  have hreceiver : call ∉ s.ch.receivers := by
    intro hmem
    obtain ⟨ms, hms⟩ := h.receivers _ hmem
    exact hreceives ms (hcall.symm.trans hms)
  show (if _ then _ else if _ then _ else _) = _
  rw [if_neg hsender, if_neg hreceiver, hcall]

/-- Closing answers those who wait and moves no item. -/
theorem close : Balanced s.close.1 acc tak :=
  ⟨h.balance, h.once, fun item hitem => h.close_calls (h.returned item hitem) nofun nofun,
    forall_mem_nil _, forall_mem_nil _, nodup_nil, nodup_nil, fun _ => ⟨rfl, rfl⟩, fun _ _ => rfl⟩

end

end Balanced

/-- What is accepted in two stretches of a run. -/
theorem accepted_append (a b : List (Event α)) : accepted (a ++ b) = accepted a ++ accepted b :=
  filterMap_append

theorem taken_append (a b : List (Event α)) : taken (a ++ b) = taken a ++ taken b :=
  filterMap_append

/-- Quiet answers accept and take nothing. -/
theorem accepted_of_quiet (h : ∀ ev ∈ events, ev.isQuiet = true) :
    accepted events = [] ∧ taken events = [] := by
  constructor
  all_goals
    refine filterMap_eq_nil_iff.mpr fun ev hev => ?_
    have hqt := h ev hev
    cases ev <;> first | rfl | cases hqt

theorem accepted_singleton {ev : Event α} (h : ev.isQuiet = true) :
    accepted [ev] = [] ∧ taken [ev] = [] :=
  accepted_of_quiet (forall_mem_singleton.mpr h)

theorem close_isQuiet (call : Nat) :
    ∀ ev ∈ s.close.2 ++ [.closing call true], ev.isQuiet = true := by
  intro ev hev
  obtain hev | hev := mem_append.mp hev
  · obtain ⟨w, -, rfl⟩ := mem_map.mp hev
    rfl
  · rw [mem_singleton.mp hev]
    rfl

/-- Every action keeps the balance. -/
theorem Balanced.move (h : Balanced s acc tak) (hmove : Move s s' events) :
    Balanced s' (acc ++ accepted events) (tak ++ taken events) := by
  cases hmove with
  | goTo hcall hag _ =>
    simpa [accepted, taken] using h.goTo _ hcall hag
  | answer hcall hev =>
    rw [(accepted_singleton hev).1, (accepted_singleton hev).2, append_nil, append_nil]
    exact h.answer hcall
  | closed hcall hdrain =>
    simpa [accepted, taken] using h.answer (active_of_eq hcall nofun nofun nofun)
  | handed hcall hsend => exact h.handed (active_of_eq hcall nofun nofun nofun) hsend
  | buffered hcall hsend => exact h.buffered (active_of_eq hcall nofun nofun nofun) hsend
  | item hcall hrec => exact h.item hcall hrec
  | released hcall hrec => exact h.released hcall hrec
  | awaitRoom hcall hdone hroom =>
    simpa [accepted, taken] using h.awaitRoom hcall hdone hroom
  | awaitItem hcall hdone hitem =>
    simpa [accepted, taken] using h.awaitItem hcall hdone hitem
  | leave hcall hev =>
    rw [(accepted_singleton hev).1, (accepted_singleton hev).2]
    exact h.leave
  | @close call hcall =>
    obtain ⟨haccepted, htaken⟩ := accepted_of_quiet (close_isQuiet (s := s) call)
    rw [haccepted, htaken, append_nil, append_nil]
    exact h.close.answer (active_of_eq (h.close_calls hcall nofun nofun) nofun nofun nofun)

/-- So does every run. -/
theorem Balanced.run (h : Balanced s acc tak) (hrun : run s actions = some (s', events)) :
    Balanced s' (acc ++ accepted events) (tak ++ taken events) := by
  induction actions generalizing s acc tak events with
  | nil =>
    cases hrun
    simpa [accepted, taken] using h
  | cons action actions ih =>
    obtain ⟨s₁, first, later, hmove, hrest, rfl⟩ := move_of_run hrun
    rw [accepted_append, taken_append, ← append_assoc, ← append_assoc]
    exact ih (h.move hmove) hrest

/-! ### After the close -/

/-- A closed channel that is empty, and that no send can still put a value in. -/
structure Quiet (s : ManagedChannel α) : Prop where
  done : s.done = true
  buffer : s.ch.buffer = []
  sends : s.ch.capacity = 0 ∨ ∀ call value ms, s.calls call ≠ .sendSelect value ms

/-- No move changes the capacity. -/
theorem capacity_of_move (h : Move s s' events) : s'.ch.capacity = s.ch.capacity := by
  cases h with
  | goTo | answer | closed | leave | close => rfl
  | handed _ hsend => exact (send_eq_handed hsend).2.2.2.2.2
  | buffered _ hsend => exact (send_eq_buffered hsend).2.2.2.2.2.2
  | item _ hrec => exact (receive_eq_item hrec).2.2.2.2
  | released _ hrec => exact (receive_eq_released hrec).2.2.2
  | awaitRoom hcall hdone hroom =>
    show (s.ch.awaitRoom _ _).capacity = _
    rw [awaitRoom, dif_pos (send_eq_noRoom hroom)]
  | awaitItem hcall hdone hitem =>
    show (s.ch.awaitItem _).capacity = _
    rw [awaitItem, dif_pos (receive_eq_nothing hitem)]

/-- A call other than a send that passed its test does not get to the `select` of a send. -/
theorem calls_goTo_ne_sendSelect {phase : Phase α} (hph : ∀ v ms, phase ≠ .sendSelect v ms)
    (h : s.ch.capacity = 0 ∨ ∀ call v ms, s.calls call ≠ .sendSelect v ms) :
    s.ch.capacity = 0 ∨ ∀ other v ms, (s.goTo call phase).calls other ≠ .sendSelect v ms := by
  refine h.imp_right fun h other v ms => ?_
  by_cases hne : other = call
  · rw [hne, goTo_calls_self]
    exact hph v ms
  · rw [goTo_calls_of_ne hne]
    exact h other v ms

/-- No action accepts a value on a quiet channel, and the channel stays quiet. -/
theorem Quiet.move (hqt : Quiet s) (h : Balanced s acc tak) (hmove : Move s s' events) :
    Quiet s' ∧ accepted events = [] := by
  cases hmove with
  | goTo hcall hag hselect =>
    refine ⟨⟨hqt.done, hqt.buffer, calls_goTo_ne_sendSelect ?_ hqt.sends⟩, rfl⟩
    intro v ms hph
    have hopen := hselect v ms hph
    rw [hqt.done] at hopen
    cases hopen
  | answer hcall hev =>
    exact ⟨⟨hqt.done, hqt.buffer, calls_goTo_ne_sendSelect nofun hqt.sends⟩,
      (accepted_singleton hev).1⟩
  | closed hcall hdrain =>
    exact ⟨⟨hqt.done, hqt.buffer, calls_goTo_ne_sendSelect nofun hqt.sends⟩, rfl⟩
  -- no receiver is left to hand an item to
  | handed _ hsend =>
    have hsome := (send_eq_handed hsend).2.2.1
    rw [(h.done hqt.done).2] at hsome
    cases hsome
  -- a send that could still get in would need room, and there is none
  | buffered hcall hsend =>
    have hroom := (send_eq_buffered hsend).2.2.1
    rw [hqt.sends.resolve_right fun hnone => hnone _ _ _ hcall] at hroom
    exact absurd hroom (Nat.not_lt_zero _)
  | item _ hrec =>
    have hsome := (receive_eq_item hrec).1
    rw [hqt.buffer] at hsome
    cases hsome
  | released _ hrec =>
    have hsome := (receive_eq_released hrec).2.1
    rw [(h.done hqt.done).1] at hsome
    cases hsome
  | awaitRoom hcall hdone hroom =>
    rw [hqt.done] at hdone
    cases hdone
  | awaitItem hcall hdone hitem =>
    rw [hqt.done] at hdone
    cases hdone
  | @leave call ev hcall hev =>
    exact ⟨⟨hqt.done, hqt.buffer,
      calls_goTo_ne_sendSelect (s := { s with ch := s.ch.leave call }) nofun hqt.sends⟩,
      (accepted_singleton hev).1⟩
  | @close call hcall =>
    refine ⟨⟨rfl, hqt.buffer, calls_goTo_ne_sendSelect (s := s.close.1) nofun ?_⟩,
      (accepted_of_quiet (close_isQuiet call)).1⟩
    refine hqt.sends.imp_right fun hnone other v ms => ?_
    show (if _ then _ else if _ then _ else _) ≠ _
    split_ifs
    · exact nofun
    · exact nofun
    · exact hnone other v ms

/-- Nothing is accepted over a whole run. -/
theorem Quiet.run (hqt : Quiet s) (h : Balanced s acc tak)
    (hrun : run s actions = some (s', events)) : accepted events = [] := by
  induction actions generalizing s acc tak events with
  | nil =>
    cases hrun
    rfl
  | cons action actions ih =>
    obtain ⟨s₁, first, later, hmove, hrest, rfl⟩ := move_of_run hrun
    obtain ⟨hqt₁, hfst⟩ := hqt.move h hmove
    rw [accepted_append, hfst, ih hqt₁ (h.move hmove) hrest, nil_append]

/-- When a receive reports that the channel is closed, it is, and nothing is buffered. -/
theorem Balanced.closed_of_move (h : Balanced s acc tak) (hmove : Move s s' events)
    (hcl : .closed call ∈ events) :
    s.done = true ∧ s.ch.buffer = [] ∧ s.calls call = .recvAgain ∧ s' = s.goTo call .returned := by
  cases hmove with
  | goTo | awaitRoom | awaitItem => cases hcl
  | answer hcall hev | leave hcall hev =>
    rw [← mem_singleton.mp hcl] at hev
    cases hev
  | closed hcall hdrain =>
    obtain ⟨rfl⟩ := mem_singleton.mp hcl
    refine ⟨h.again call hcall, ?_, hcall, rfl⟩
    rw [ManagedChannel.drain] at hdrain
    split at hdrain
    · cases hdrain
    · cases hdrain
    · next hrec => exact (receive_eq_nothing hrec).1
  | handed | buffered | item | released => simp at hcl
  | close hcall =>
    have hqt := close_isQuiet _ _ hcl
    cases hqt

/-- A channel keeps its capacity. -/
theorem capacity_of_run (hrun : run s actions = some (s', events)) :
    s'.ch.capacity = s.ch.capacity := by
  induction actions generalizing s events with
  | nil =>
    cases hrun
    rfl
  | cons action actions ih =>
    obtain ⟨s₁, first, later, hmove, hrest, rfl⟩ := move_of_run hrun
    rw [ih hrest, capacity_of_move hmove]

/-- A send that passed its test before the close puts its value in after it, where there is room. -/
theorem exists_accepted (h : Balanced s acc tak) (hdone : s.done = true)
    (hbuf : s.ch.buffer = []) (hcapacity : s.ch.capacity ≠ 0) {v : α} {ms : Int}
    (hcall : s.calls call = .sendSelect v ms) :
    ∃ s', run s [.sendSelect call .channel] = some (s', [.sent ⟨call, v⟩]) := by
  have hroom : s.ch.buffer.length < s.ch.capacity := by
    rw [hbuf]
    exact Nat.pos_of_ne_zero hcapacity
  obtain ⟨ch, hch⟩ := exists_send_of_room (h.done hdone).2 hroom ⟨call, v⟩
  refine ⟨{ s with ch := ch }.goTo call .returned, ?_⟩
  simp only [run, step, hcall, ManagedChannel.sendSelect, ManagedChannel.put, hch,
    ManagedChannel.answer, Option.bind_some, Option.map_some, append_nil]

/-- Over every interleaving of calls on a channel: what receives return is, in order, the front of
what sends were told they had sent, each once. When a receive is told that the channel is closed,
everything sent so far has been received; and no send is told that it has sent after that exactly when
the channel is unbuffered or no send is between its test of the close and its `select`. -/
theorem chanClose_loses_nothing_iff {capacity : Nat} {actions : List (Action α)}
    (hrun : run (.new capacity) actions = some (s, events)) :
    ((accepted events).map Item.call).Nodup ∧ taken events <+: accepted events ∧
      ∀ action answers s' call, s.step action = some (s', answers) → .closed call ∈ answers →
        accepted events = taken events ∧
          ((∀ later s'' answers', run s' later = some (s'', answers') → accepted answers' = []) ↔
            capacity = 0 ∨ ∀ send value ms, s.calls send ≠ .sendSelect value ms) := by
  have h := (balanced_new capacity).run hrun
  refine ⟨h.once, ⟨s.ch.buffer, h.balance.symm⟩, ?_⟩
  intro action answers s' call hstep hclosed
  have hmove := move_of_step hstep
  obtain ⟨hdone, hbuffer, hagain, rfl⟩ := h.closed_of_move hmove hclosed
  have hcapacity : s.ch.capacity = capacity := capacity_of_run hrun
  have hbalance := h.balance
  rw [hbuffer, append_nil] at hbalance
  refine ⟨hbalance, ?_, ?_⟩
  · intro hnone
    -- a send that has passed its test can still be accepted into an empty buffer
    refine or_iff_not_imp_left.mpr fun hbuffered send value ms hsend => ?_
    have hne : send ≠ call := by
      rintro rfl
      rw [hagain] at hsend
      cases hsend
    obtain ⟨s'', hrun'⟩ := exists_accepted (h.move hmove) hdone hbuffer (hcapacity ▸ hbuffered)
      ((goTo_calls_of_ne hne _).trans hsend)
    exact absurd (hnone _ _ _ hrun') (cons_ne_nil _ _)
  · intro hcondition
    have hquiet : Quiet s := ⟨hdone, hbuffer, hcapacity ▸ hcondition⟩
    obtain ⟨hquiet', -⟩ := hquiet.move h hmove
    intro later s'' answers' hlater
    exact hquiet'.run (h.move hmove) hlater

/-- A value is sent and received, the channel is closed, and a receive is told so. -/
theorem chanClose_loses_nothing_iff_drained :
    ∃ s : ManagedChannel Nat, run (.new 1) [.chanSend 0 7 (-1), .sendTest 0, .sendSelect 0 .channel,
        .chanRecv 1 0, .recvDrain 1, .chanClose 2, .chanRecv 3 0, .recvDrain 3,
        .recvSelect 3 .done] = some (s, [.sent ⟨0, 7⟩, .received 1 ⟨0, 7⟩, .closing 2 true]) ∧
      ∃ s', s.step (.recvAgain 3) = some (s', [.closed 3]) ∧
        ((∀ later s'' answers, run s' later = some (s'', answers) → accepted answers = []) ↔
          1 = 0 ∨ ∀ send value ms, s.calls send ≠ .sendSelect value ms) := by
  refine ⟨_, rfl, _, rfl, ?_⟩
  have hrun : run (.new 1 : ManagedChannel Nat) [.chanSend 0 7 (-1), .sendTest 0,
      .sendSelect 0 .channel, .chanRecv 1 0, .recvDrain 1, .chanClose 2, .chanRecv 3 0, .recvDrain 3,
      .recvSelect 3 .done] = some (_, [.sent ⟨0, 7⟩, .received 1 ⟨0, 7⟩, .closing 2 true]) := rfl
  exact ((chanClose_loses_nothing_iff hrun).2.2 (.recvAgain 3) _ _ 3 rfl mem_cons_self).2

/-- A send tests the close and finds the channel open; the channel is closed, and a receive drains it,
tests, drains again and reports it closed; then the send puts its value in and answers true. -/
theorem chanSend_after_closed :
    (run (.new 1 : ManagedChannel Nat) [.chanSend 0 7 (-1), .sendTest 0, .chanClose 1, .chanRecv 2 (-1),
      .recvDrain 2, .recvSelect 2 .done, .recvAgain 2, .sendSelect 0 .channel]).map Prod.snd =
    some [.closing 1 true, .closed 2, .sent ⟨0, 7⟩] := rfl

end Mutant.Builtin.Channels
