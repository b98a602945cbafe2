import Mathlib.Logic.Function.Basic
import Mutant.Lib.WaitQueue

/-!
# Channels

A channel that a program sends and receives on is a channel of the runtime beside a second one that
only says it was closed.  The calls on one channel whose handle is retained are modelled step by step:
a test of the second channel, an attempt to take a value, a `select`, a timer that fires.  A list of
actions is an interleaving of the calls.
-/

namespace Mutant.Builtin.Channels

/-- A value under way, with the call that sends it. -/
structure Item (α : Type) where
  call : Nat
  value : α
  deriving DecidableEq

/-- Where a call has got to.  A negative timeout means none, and zero that the call does not wait. -/
inductive Phase (α : Type)
  | notCalled
  | sendTest (value : α) (timeoutMs : Int)
  | sendSelect (value : α) (timeoutMs : Int)
  | sendWaits (timeoutMs : Int)
  | recvDrain (timeoutMs : Int)
  | recvSelect (timeoutMs : Int)
  | recvWaits (timeoutMs : Int)
  | recvAgain
  | returned
  deriving DecidableEq

/-- `managedChannel`, with the calls on it by number. -/
structure ManagedChannel (α : Type) where
  ch : WaitQueue (Item α)
  done : Bool
  calls : Nat → Phase α

variable {α : Type}

/-- The channel that `ChanNew` makes. -/
def ManagedChannel.new (capacity : Nat) : ManagedChannel α :=
  ⟨.new capacity, false, fun _ => .notCalled⟩

/-- What a call answers: `chan_send` true, an error, or false; `chan_recv` a value, nothing, that the
channel is closed, or that its time ran out; `chan_close` whether it was the one that closed. -/
inductive Event (α : Type)
  | sent (item : Item α)
  | sendClosed (call : Nat)
  | notSent (call : Nat)
  | received (call : Nat) (item : Item α)
  | nothing (call : Nat)
  | closed (call : Nat)
  | timedOut (call : Nat)
  | closing (call : Nat) (first : Bool)
  deriving DecidableEq

/-- The ready case that a `select` takes, or none of them. -/
inductive Choice
  | channel
  | done
  | timer
  | wait
  deriving DecidableEq

inductive Action (α : Type)
  | chanSend (call : Nat) (value : α) (timeoutMs : Int)
  | sendTest (call : Nat)
  | sendSelect (call : Nat) (choice : Choice)
  | chanRecv (call : Nat) (timeoutMs : Int)
  | recvDrain (call : Nat)
  | recvSelect (call : Nat) (choice : Choice)
  | recvAgain (call : Nat)
  | timerFires (call : Nat)
  | chanClose (call : Nat)
  deriving DecidableEq

namespace ManagedChannel

variable (s : ManagedChannel α)

def goTo (call : Nat) (phase : Phase α) : ManagedChannel α :=
  { s with calls := Function.update s.calls call phase }

def answer (call : Nat) (event : Event α) : ManagedChannel α × List (Event α) :=
  (s.goTo call .returned, [event])

/-- A value is put in, or handed to the receiver that has waited longest. -/
def put (call : Nat) (value : α) : Option (ManagedChannel α × List (Event α)) :=
  match s.ch.send ⟨call, value⟩ with
  | .handed receiver ch =>
    some (({ s with ch := ch }.goTo receiver .returned).goTo call .returned,
      [.sent ⟨call, value⟩, .received receiver ⟨call, value⟩])
  | .buffered ch => some ({ s with ch := ch }.answer call (.sent ⟨call, value⟩))
  | .noRoom => none

/-- `drain`: a value is taken, if there is one without waiting. -/
def drain (call : Nat) : Option (ManagedChannel α × List (Event α)) :=
  match s.ch.receive with
  | .item x ch => some ({ s with ch := ch }.answer call (.received call x))
  | .released x sender y ch =>
    some (({ s with ch := ch }.goTo sender .returned).goTo call .returned,
      [.sent y, .received call x])
  | .nothing => none

/-- `closeChannel`: every call that waits is woken by the close. -/
def close : ManagedChannel α × List (Event α) :=
  ({ ch := s.ch.clear
     done := true
     calls := fun call =>
       if call ∈ s.ch.senders.map Prod.fst then .returned
       else if call ∈ s.ch.receivers then .recvAgain else s.calls call },
    s.ch.senders.map fun waiter => .sendClosed waiter.1)

/-- The `select` of `ChanSend`. -/
def sendSelect (call : Nat) (value : α) (timeoutMs : Int) :
    Choice → Option (ManagedChannel α × List (Event α))
  | .channel => s.put call value
  | .done => if s.done then some (s.answer call (.sendClosed call)) else none
  | .timer => if 0 < timeoutMs then some (s.answer call (.notSent call)) else none
  | .wait =>
    match s.ch.send ⟨call, value⟩, s.done with
    | .noRoom, false =>
      if timeoutMs = 0 then some (s.answer call (.notSent call))
      else some (({ s with ch := s.ch.awaitRoom call ⟨call, value⟩ }).goTo call
        (.sendWaits timeoutMs), [])
    | _, _ => none

/-- The `select` of `ChanRecv`; the one of a call that does not wait has no case for the channel. -/
def recvSelect (call : Nat) (timeoutMs : Int) :
    Choice → Option (ManagedChannel α × List (Event α))
  | .channel => if timeoutMs = 0 then none else s.drain call
  | .done => if s.done then some (s.goTo call .recvAgain, []) else none
  | .timer => if 0 < timeoutMs then some (s.answer call (.timedOut call)) else none
  | .wait =>
    if s.done then none
    else if timeoutMs = 0 then some (s.answer call (.nothing call))
    else
      match s.ch.receive with
      | .nothing => some (({ s with ch := s.ch.awaitItem call }).goTo call (.recvWaits timeoutMs), [])
      | _ => none

/-- One action, where its call has got to it. -/
def step : Action α → Option (ManagedChannel α × List (Event α))
  | .chanSend call value timeoutMs =>
    match s.calls call with
    | .notCalled => some (s.goTo call (.sendTest value timeoutMs), [])
    | _ => none
  | .sendTest call =>
    match s.calls call with
    | .sendTest value timeoutMs =>
      if s.done then some (s.answer call (.sendClosed call))
      else some (s.goTo call (.sendSelect value timeoutMs), [])
    | _ => none
  | .sendSelect call choice =>
    match s.calls call with
    | .sendSelect value timeoutMs => s.sendSelect call value timeoutMs choice
    | _ => none
  | .chanRecv call timeoutMs =>
    match s.calls call with
    | .notCalled => some (s.goTo call (.recvDrain timeoutMs), [])
    | _ => none
  | .recvDrain call =>
    match s.calls call with
    | .recvDrain timeoutMs =>
      match s.drain call with
      | some taken => some taken
      | none => some (s.goTo call (.recvSelect timeoutMs), [])
    | _ => none
  | .recvSelect call choice =>
    match s.calls call with
    | .recvSelect timeoutMs => s.recvSelect call timeoutMs choice
    | _ => none
  | .recvAgain call =>
    match s.calls call with
    | .recvAgain =>
      match s.drain call with
      | some taken => some taken
      | none => some (s.answer call (.closed call))
    | _ => none
  | .timerFires call =>
    match s.calls call with
    | .sendWaits timeoutMs =>
      if 0 < timeoutMs then some ({ s with ch := s.ch.leave call }.answer call (.notSent call))
      else none
    | .recvWaits timeoutMs =>
      if 0 < timeoutMs then some ({ s with ch := s.ch.leave call }.answer call (.timedOut call))
      else none
    | _ => none
  | .chanClose call =>
    match s.calls call with
    | .notCalled =>
      if s.done then some (s.answer call (.closing call false))
      else
        let closed := s.close
        some (closed.1.goTo call .returned, closed.2 ++ [.closing call true])
    | _ => none

end ManagedChannel

/-- A run: what the calls answered, in order. -/
def run (s : ManagedChannel α) : List (Action α) → Option (ManagedChannel α × List (Event α))
  | [] => some (s, [])
  | action :: actions =>
    (s.step action).bind fun (s', events) =>
      (run s' actions).map fun (s'', later) => (s'', events ++ later)

/-- The items of the sends that answered true, in the order they were accepted. -/
def accepted (events : List (Event α)) : List (Item α) :=
  events.filterMap fun
    | .sent item => some item
    | _ => none

/-- The items that receives returned, in order. -/
def taken (events : List (Event α)) : List (Item α) :=
  events.filterMap fun
    | .received _ item => some item
    | _ => none

end Mutant.Builtin.Channels
