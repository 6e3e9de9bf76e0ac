-- SUMMARY: The interest mask of an event handler and the operations that change it.
import Mathlib.Data.BitVec

/-!
# Event handlers

The interest mask of `EventHandler` (`src/core/event_handler.h`), in the build
without `__linux__`: the bits of `EventMode` are the `si_code` values `POLL_IN`,
`POLL_OUT` and `POLL_ERR`.
-/

namespace QGServer

/-- `events_t`, an `unsigned int`. -/
abbrev Events := BitVec 32

/-! ## `EventMode` -/

def kEventNone : Events := 0x00
def kEventRead : Events := 1
def kEventWrite : Events := 2
def kEventError : Events := 4
def kEventAll : Events := kEventRead ||| kEventWrite ||| kEventError
def kEventMask : Events := 0xff

/-- A test of one bit. -/
theorem and_twoPow_ne_zero (x : Events) (n : Nat) :
    (x &&& BitVec.twoPow 32 n != 0) = x.getLsbD n := by
  rw [BitVec.and_twoPow]
  cases hn : x.getLsbD n with
  | false => simp
  | true =>
      have hlt : n < 32 := BitVec.lt_of_getLsbD hn
      have hone : BitVec.twoPow 32 n ≠ 0#32 := by
        intro hzero
        have hbit := congrArg (fun y => y.getLsbD n) hzero
        simp [hlt] at hbit
      simpa using hone

/-- The part of `EventHandler` that a connection changes: `ievents_`, the events
    it is interested in. -/
structure EventHandler where
  ievents : Events
  deriving DecidableEq, Repr

namespace EventHandler

/-- The constructor without an interest argument. -/
def new : EventHandler := ⟨kEventNone⟩

def setIEvents (h : EventHandler) (iev : Events) : EventHandler :=
  { h with ievents := h.ievents ||| (iev &&& kEventMask) }

def enableRead (h : EventHandler) : EventHandler := h.setIEvents kEventRead
def enableWrite (h : EventHandler) : EventHandler := h.setIEvents kEventWrite

def disableWrite (h : EventHandler) : EventHandler :=
  { h with ievents := h.ievents &&& ~~~kEventWrite }

def disableAll (h : EventHandler) : EventHandler := { h with ievents := kEventNone }

def isReading (h : EventHandler) : Bool := h.ievents &&& kEventRead != 0
def isWriting (h : EventHandler) : Bool := h.ievents &&& kEventWrite != 0

/-! ## The two bits a connection uses -/

theorem isReading_eq (h : EventHandler) : h.isReading = h.ievents.getLsbD 0 :=
  and_twoPow_ne_zero h.ievents 0

theorem isWriting_eq (h : EventHandler) : h.isWriting = h.ievents.getLsbD 1 :=
  and_twoPow_ne_zero h.ievents 1

@[simp] theorem isReading_new : new.isReading = false := by decide
@[simp] theorem isWriting_new : new.isWriting = false := by decide

@[simp] theorem isReading_enableRead (h : EventHandler) : h.enableRead.isReading = true := by
  simp [isReading_eq, enableRead, setIEvents, kEventRead, kEventMask]

@[simp] theorem isWriting_enableRead (h : EventHandler) :
    h.enableRead.isWriting = h.isWriting := by
  simp [isWriting_eq, enableRead, setIEvents, kEventRead, kEventMask]

@[simp] theorem isReading_enableWrite (h : EventHandler) :
    h.enableWrite.isReading = h.isReading := by
  simp [isReading_eq, enableWrite, setIEvents, kEventWrite, kEventMask]

@[simp] theorem isWriting_enableWrite (h : EventHandler) : h.enableWrite.isWriting = true := by
  simp [isWriting_eq, enableWrite, setIEvents, kEventWrite, kEventMask]

@[simp] theorem isReading_disableWrite (h : EventHandler) :
    h.disableWrite.isReading = h.isReading := by
  simp [isReading_eq, disableWrite, kEventWrite]

@[simp] theorem isWriting_disableWrite (h : EventHandler) : h.disableWrite.isWriting = false := by
  simp [isWriting_eq, disableWrite, kEventWrite]

@[simp] theorem isReading_disableAll (h : EventHandler) : h.disableAll.isReading = false := by
  simp [isReading_eq, disableAll, kEventNone]

@[simp] theorem isWriting_disableAll (h : EventHandler) : h.disableAll.isWriting = false := by
  simp [isWriting_eq, disableAll, kEventNone]

end EventHandler

end QGServer
