-- SUMMARY: The poller for kqueue: filters in the kernel, added and deleted for what a handler is interested in.
import QGServer.Core.Pollpoller

/-!
# KqueuePoller

`src/core/poll/KqueuePoller.cpp`, without the waiting call. The interest is kept
in the kernel, as one filter for each descriptor and kind of event; the poller
adds the filters of the events that are on, and when it removes a handler it
deletes those. The calls of `kevent` do not fail for a descriptor that is open,
and deleting a filter that is not there does nothing.
-/

namespace QGServer

/-- `EVFILT_READ` and `EVFILT_WRITE`. -/
inductive EventFilter where
  | read | write
  deriving DecidableEq, Repr

/-- The handler is interested in the event. -/
def EventHandler.wants (h : EventHandler) : EventFilter → Bool
  | .read => h.isReading
  | .write => h.isWriting

structure KqueuePoller (η : Type*) where
  eventHandlerMap : Nat → Option η
  /-- The length of `events_`. -/
  events : Nat
  /-- The filters that the kernel queue has. -/
  installed : Nat → EventFilter → Bool
  /-- The handlers that the pointers lead to. -/
  handler : η → PolledHandler

namespace KqueuePoller

variable {η : Type*} [DecidableEq η]

/-! ## Functions -/

def modifyHandler (h : η) (g : PolledHandler → PolledHandler) (k : KqueuePoller η) :
    KqueuePoller η :=
  { k with handler := Function.update k.handler h (g (k.handler h)) }

/-- A call of `kevent` with `EV_ADD` or `EV_DELETE`. -/
def kevent (fd : Nat) (filter : EventFilter) (add : Bool) (k : KqueuePoller η) : KqueuePoller η :=
  { k with
    installed := Function.update k.installed fd (Function.update (k.installed fd) filter add) }

/-- The calls of `kevent` for the events that the handler is interested in. -/
def kevents (h : η) (add : Bool) (k : KqueuePoller η) : KqueuePoller η :=
  let fd := (k.handler h).handle
  let k := if (k.handler h).isReading then k.kevent fd .read add else k
  if (k.handler h).isWriting then k.kevent fd .write add else k

def registerHandler (h : η) (k : KqueuePoller η) : Option (KqueuePoller η) :=
  if k.eventHandlerMap (k.handler h).handle = none then
    let k := k.kevents h true
    some
      { k with
        eventHandlerMap := Function.update k.eventHandlerMap (k.handler h).handle (some h)
        events := k.events + 1 }
  else none

def updateHandler (h : η) (k : KqueuePoller η) : Option (KqueuePoller η) :=
  if k.eventHandlerMap (k.handler h).handle ≠ none then some (k.kevents h true) else none

/-- A change of interest, with the `update` at its end. -/
def changeInterest (h : η) (g : EventHandler → EventHandler) (k : KqueuePoller η) :
    Option (KqueuePoller η) :=
  (k.modifyHandler h fun x => { x with toEventHandler := g x.toEventHandler }).updateHandler h

def removeHandler (h : η) (k : KqueuePoller η) : Option (KqueuePoller η) :=
  if k.eventHandlerMap (k.handler h).handle ≠ none then
    let k := k.kevents h false
    some
      { k with
        eventHandlerMap := Function.update k.eventHandlerMap (k.handler h).handle none
        events := k.events - 1 }
  else none

/-! ## What they do -/

section Spec

variable {k k' : KqueuePoller η} {h : η}

omit [DecidableEq η] in
theorem installed_kevent (fd fd' : Nat) (f f' : EventFilter) (add : Bool) :
    (k.kevent fd f add).installed fd' f' =
      if fd' = fd ∧ f' = f then add else k.installed fd' f' := by
  unfold kevent
  by_cases hfd : fd' = fd
  · subst hfd
    by_cases hf : f' = f
    · simp [hf]
    · simp [hf]
  · simp [hfd]

omit [DecidableEq η] in
@[simp] theorem handler_kevent (fd : Nat) (f : EventFilter) (add : Bool) :
    (k.kevent fd f add).handler = k.handler := rfl

omit [DecidableEq η] in
@[simp] theorem eventHandlerMap_kevent (fd : Nat) (f : EventFilter) (add : Bool) :
    (k.kevent fd f add).eventHandlerMap = k.eventHandlerMap := rfl

/-- Only the filters of the handler change that it is interested in. -/
structure Kevents (h : η) (add : Bool) (k k' : KqueuePoller η) : Prop where
  installed : ∀ fd f, k'.installed fd f =
    if fd = (k.handler h).handle ∧ (k.handler h).wants f = true then add else k.installed fd f
  handler : k'.handler = k.handler

omit [DecidableEq η] in
theorem kevents_spec (h : η) (add : Bool) (k : KqueuePoller η) :
    Kevents h add k (k.kevents h add) ∧
      (k.kevents h add).eventHandlerMap = k.eventHandlerMap := by
  refine ⟨⟨fun fd f => ?_, ?_⟩, ?_⟩
  all_goals
    unfold kevents
    dsimp only
  · cases hread : (k.handler h).isReading <;> cases hwrite : (k.handler h).isWriting <;> cases f
    all_goals simp [installed_kevent, EventHandler.wants, hread, hwrite]
  all_goals split_ifs <;> rfl

omit [DecidableEq η] in
theorem registerHandler_spec (hk : k.registerHandler h = some k') :
    k.eventHandlerMap (k.handler h).handle = none ∧ Kevents h true k k' ∧
      k'.eventHandlerMap = Function.update k.eventHandlerMap (k.handler h).handle (some h) := by
  unfold registerHandler at hk
  rw [Option.ite_none_right_eq_some] at hk
  obtain ⟨hmap, hk⟩ := hk
  cases hk
  obtain ⟨hevents, hsame⟩ := kevents_spec h true k
  refine ⟨hmap, ⟨hevents.installed, hevents.handler⟩, ?_⟩
  dsimp only
  rw [hsame, hevents.handler]

omit [DecidableEq η] in
theorem removeHandler_spec (hk : k.removeHandler h = some k') :
    Kevents h false k k' ∧
      k'.eventHandlerMap = Function.update k.eventHandlerMap (k.handler h).handle none := by
  unfold removeHandler at hk
  rw [Option.ite_none_right_eq_some] at hk
  obtain ⟨hmap, hk⟩ := hk
  cases hk
  obtain ⟨hevents, hsame⟩ := kevents_spec h false k
  refine ⟨⟨hevents.installed, hevents.handler⟩, ?_⟩
  dsimp only
  rw [hsame, hevents.handler]

theorem changeInterest_spec {g : EventHandler → EventHandler} (hk : k.changeInterest h g = some k') :
    k.eventHandlerMap (k.handler h).handle ≠ none ∧
      Kevents h true (k.modifyHandler h fun x => { x with toEventHandler := g x.toEventHandler }) k' ∧
      k'.eventHandlerMap = k.eventHandlerMap := by
  unfold changeInterest updateHandler at hk
  rw [Option.ite_none_right_eq_some] at hk
  obtain ⟨hmap, hk⟩ := hk
  cases hk
  obtain ⟨hevents, hsame⟩ := kevents_spec h true
    (k.modifyHandler h fun x => { x with toEventHandler := g x.toEventHandler })
  refine ⟨?_, hevents, hsame⟩
  have hhandle : ((k.modifyHandler h fun x =>
      { x with toEventHandler := g x.toEventHandler }).handler h).handle = (k.handler h).handle := by
    unfold modifyHandler
    dsimp only
    rw [Function.update_self]
  rw [hhandle] at hmap
  exact hmap

end Spec

end KqueuePoller

end QGServer
