import DarkReNamer.Core.MachineInteger
import DarkReNamer.Machine.Run

/-!
# The coalescing settings writer

One writer owns a queue of at most one pending snapshot, a generation counter that only
the caller's side advances, and a worker thread. A step of the machine is one call of the
owner or one move of the worker between two accesses to what both share: the queue under
its lock, the event channel, and the save itself.
-/

namespace DarkReNamer

open Machine

structure PreferenceRequest (T : Type) where
  generation : ℕ
  snapshot : T
deriving DecidableEq

structure PreferenceQueue (T : Type) where
  pending : Option (PreferenceRequest T) := none
  shutdown : Bool := false
deriving DecidableEq

inductive PreferenceWriteEvent where
  | saved (generation : ℕ)
  | failed (generation : ℕ) (error : String)
  | stopped
  | panicked
deriving DecidableEq

/-- The generation a result is about; the terminal events have none. -/
def PreferenceWriteEvent.generation? : PreferenceWriteEvent → Option ℕ
  | .saved generation => some generation
  | .failed generation _ => some generation
  | .stopped => none
  | .panicked => none

/-- Where the worker stands: about to look at the queue, asleep on the condition variable,
in `save`, about to send a result, about to send the terminal event, past it, returned. -/
inductive WorkerPhase (T : Type) where
  | polling
  | waiting
  | saving (request : PreferenceRequest T)
  | sending (generation : ℕ) (outcome : Except String Unit)
  | stopping
  | exiting
  | ended

structure CoalescingWriter (T : Type) where
  queue : PreferenceQueue T
  events : List PreferenceWriteEvent
  worker : WorkerPhase T
  nextGeneration : ℕ

/-- What the owner, the save and the channel see of a run. -/
inductive WriterObservation (T : Type) where
  | submit (snapshot : T) (result : Except String ℕ)
  | shutdownWith (snapshot : T) (result : Except String ℕ)
  | requestShutdown
  | handed (generation : ℕ) (snapshot : T)
  | emitted (event : PreferenceWriteEvent)

/-- A call carries the `is_finished` it read before it took the lock, and a move of the
worker carries what `save` answers, which is read only where it returns from `save`. -/
inductive WriterAction (T : Type) where
  | submit (snapshot : T) (finished : Bool)
  | shutdownWith (snapshot : T) (finished : Bool)
  | requestShutdown
  | worker (outcome : Except String Unit)

namespace CoalescingWriter

variable {T : Type}

def spawn : CoalescingWriter T :=
  { queue := {}, events := [], worker := .polling, nextGeneration := 0 }

/-- `notify_one`: the worker is the only waiter. -/
def notify (w : CoalescingWriter T) : CoalescingWriter T :=
  match w.worker with
  | .waiting => { w with worker := .polling }
  | _ => w

def generationExhausted : String := "preference writer generation exhausted"

/-- The new request replaces a pending one. -/
def accept (w : CoalescingWriter T) (generation : ℕ) (snapshot : T) (shutdown : Bool) :
    CoalescingWriter T :=
  { w with
    nextGeneration := generation
    queue := { pending := some ⟨generation, snapshot⟩, shutdown := shutdown } }

def submit (w : CoalescingWriter T) (snapshot : T) (finished : Bool)
    (stopped shuttingDown : String) : Except String ℕ × CoalescingWriter T :=
  if finished then
    (.error stopped, w)
  else
    match checkedAdd u64Max w.nextGeneration 1 with
    | none => (.error generationExhausted, w)
    | some generation =>
      if w.queue.shutdown then
        (.error shuttingDown, w)
      else
        (.ok generation, (w.accept generation snapshot false).notify)

/-- Once shutdown is requested the call reports the last generation and takes nothing. -/
def shutdownWith (w : CoalescingWriter T) (snapshot : T) (finished : Bool)
    (stopped : String) : Except String ℕ × CoalescingWriter T :=
  if finished then
    (.error stopped, w)
  else
    match checkedAdd u64Max w.nextGeneration 1 with
    | none => (.error generationExhausted, w)
    | some generation =>
      if w.queue.shutdown then
        (.ok w.nextGeneration, w)
      else
        (.ok generation, (w.accept generation snapshot true).notify)

def requestShutdown (w : CoalescingWriter T) : CoalescingWriter T :=
  { w with queue := { w.queue with shutdown := true } }.notify

/-- The result of a save, as it goes to the channel. -/
def eventOf (generation : ℕ) : Except String Unit → PreferenceWriteEvent
  | .ok _ => .saved generation
  | .error error => .failed generation error

/-- One move of the worker thread. A wait may also end without a notification. -/
def workerStep (w : CoalescingWriter T) (outcome : Except String Unit) :
    Option (CoalescingWriter T × List (WriterObservation T)) :=
  match w.worker with
  | .polling =>
    match w.queue.pending with
    | some request =>
      some ({ w with queue := { w.queue with pending := none }, worker := .saving request },
        [.handed request.generation request.snapshot])
    | none =>
      some ({ w with worker := if w.queue.shutdown then .stopping else .waiting }, [])
  | .waiting => some ({ w with worker := .polling }, [])
  | .saving request =>
    some ({ w with worker := .sending request.generation outcome }, [])
  | .sending generation outcome =>
    let event := eventOf generation outcome
    some ({ w with worker := .polling, events := w.events ++ [event] }, [.emitted event])
  | .stopping =>
    some ({ w with worker := .exiting, events := w.events ++ [.stopped] },
      [.emitted .stopped])
  | .exiting => some ({ w with worker := .ended }, [])
  | .ended => none

/-- `JoinHandle::is_finished`. A call may have read it as false before it became true. -/
def isFinished (w : CoalescingWriter T) : Bool :=
  match w.worker with
  | .ended => true
  | _ => false

/-- The results that the owner has not read yet, and the channel without them. -/
def drainEvents (w : CoalescingWriter T) : List PreferenceWriteEvent × CoalescingWriter T :=
  (w.events, { w with events := [] })

/-- `finished` was read from a thread that had ended. -/
def canRead (w : CoalescingWriter T) (finished : Bool) : Bool := !finished || w.isFinished

variable (stopped shuttingDown : String)

def step (w : CoalescingWriter T) :
    WriterAction T → Option (CoalescingWriter T × List (WriterObservation T))
  | .submit snapshot finished =>
    if w.canRead finished then
      let (result, w') := w.submit snapshot finished stopped shuttingDown
      some (w', [.submit snapshot result])
    else
      none
  | .shutdownWith snapshot finished =>
    if w.canRead finished then
      let (result, w') := w.shutdownWith snapshot finished stopped
      some (w', [.shutdownWith snapshot result])
    else
      none
  | .requestShutdown => some (w.requestShutdown, [.requestShutdown])
  | .worker outcome => w.workerStep outcome

end CoalescingWriter

end DarkReNamer
