import DarkReNamer.Core.MachineInteger
import DarkReNamer.Machine.Run

/-!
# Icon requests

The bounded state of the requests for shell icons (`icon_requests.rs`): a queue, the one call
that is in flight, and the results the interface has not taken yet. Keys and results are of any
type. The worker and what is done with a result are not part of it.
-/

namespace DarkReNamer

def maxPendingIconRequests : ℕ := 64

inductive RequestKey (K : Type) where
  | bootstrap
  | ofClass (key : K)
  deriving DecidableEq

/-- One dispatch within a session and a generation. -/
structure RequestToken where
  session : ℕ
  generation : ℕ
  serial : ℕ
  deriving DecidableEq

structure Request (K : Type) where
  token : RequestToken
  key : RequestKey K
  deriving DecidableEq

structure Completion (K R : Type) where
  request : Request K
  result : R
  deriving DecidableEq

inductive SubmitDisposition where
  | queued
  | coalesced
  | deferredStaleInFlight
  | saturated
  | identifierExhausted
  | retired
  deriving DecidableEq

inductive CompletionDisposition where
  | published
  | discarded
  | unexpected
  deriving DecidableEq

structure IconRequests (K R : Type) where
  session : ℕ
  generation : ℕ
  nextSerial : ℕ
  queued : List (Request K)
  inFlight : Option (Request K)
  completed : List (Completion K R)
  retired : Bool
  deriving DecidableEq

namespace IconRequests

variable {K R : Type}

def new (session : ℕ) : IconRequests K R where
  session := session
  generation := 0
  nextSerial := 0
  queued := []
  inFlight := none
  completed := []
  retired := false

def inFlightCount (requests : IconRequests K R) : ℕ := if requests.inFlight.isSome then 1 else 0

def pendingCount (requests : IconRequests K R) : ℕ :=
  requests.queued.length + requests.inFlightCount + requests.completed.length

/-- The disposition of a key that is already held, or of one that finds no room. -/
def refusal [DecidableEq K] (requests : IconRequests K R) (key : RequestKey K) :
    Option SubmitDisposition :=
  if requests.retired then some .retired
  else
    match requests.inFlight.filter (·.key = key) with
    | some request =>
      if request.token.generation = requests.generation then some .coalesced
      else some .deferredStaleInFlight
    | none =>
      if requests.queued.any (·.key = key) || requests.completed.any (·.request.key = key) then
        some .coalesced
      else if requests.pendingCount = maxPendingIconRequests then some .saturated
      else none

def submit [DecidableEq K] (requests : IconRequests K R) (key : RequestKey K) :
    SubmitDisposition × IconRequests K R :=
  match requests.refusal key with
  | some disposition => (disposition, requests)
  | none =>
    match checkedAdd u64Max requests.nextSerial 1 with
    | none => (.identifierExhausted, requests)
    | some serial =>
      (.queued, { requests with
        nextSerial := serial
        queued := requests.queued ++ [⟨⟨requests.session, requests.generation, serial⟩, key⟩] })

/-- Moves one queued request into the in-flight slot. -/
def takeNext (requests : IconRequests K R) : Option (Request K) × IconRequests K R :=
  if requests.retired || requests.inFlight.isSome then (none, requests)
  else
    match requests.queued with
    | [] => (none, requests)
    | request :: queued =>
      (some request, { requests with queued := queued, inFlight := some request })

/-- Publishes a matching result, or discards it after an invalidation. -/
def complete (requests : IconRequests K R) (token : RequestToken) (result : R) :
    CompletionDisposition × IconRequests K R :=
  match requests.inFlight with
  | none => (.unexpected, requests)
  | some request =>
    if request.token ≠ token then (.unexpected, requests)
    else if requests.retired || request.token.generation != requests.generation then
      (.discarded, { requests with inFlight := none })
    else
      (.published, { requests with
        inFlight := none
        completed := requests.completed ++ [⟨request, result⟩] })

def acknowledgeCompletions (requests : IconRequests K R) (count : ℕ) : ℕ × IconRequests K R :=
  let acknowledged := min count requests.completed.length
  (acknowledged, { requests with completed := requests.completed.drop acknowledged })

/-- Stops admissions and delivery; a call in flight stays tracked. -/
def retire (requests : IconRequests K R) : IconRequests K R :=
  { requests with queued := [], completed := [], retired := true }

/-- Invalidates what is queued and what is completed; false where nothing is advanced. -/
def advanceGeneration (requests : IconRequests K R) : Bool × IconRequests K R :=
  if requests.retired then (false, requests)
  else
    match checkedAdd u64Max requests.generation 1 with
    | none => (false, requests.retire)
    | some next => (true, { requests with generation := next, queued := [], completed := [] })

/-! ### Runs -/

inductive Action (K R : Type) where
  | submit (key : RequestKey K)
  | takeNext
  | complete (token : RequestToken) (result : R)
  | acknowledgeCompletions (count : ℕ)
  | advanceGeneration
  | retire

/-- What becomes of tokens, and what invalidates them. -/
inductive Observation where
  | admitted (token : RequestToken)
  | dispatched (token : RequestToken)
  | published (token : RequestToken)
  | discarded (token : RequestToken)
  | advanced
  | retired
  deriving DecidableEq

/-- One call, with what it leaves in the history. -/
def step [DecidableEq K] (requests : IconRequests K R) :
    Action K R → Option (IconRequests K R × List Observation)
  | .submit key =>
    let (disposition, after) := requests.submit key
    some (after, match disposition with
      | .queued => [.admitted ⟨requests.session, requests.generation, after.nextSerial⟩]
      | _ => [])
  | .takeNext =>
    let (request, after) := requests.takeNext
    some (after, (request.map fun request => .dispatched request.token).toList)
  | .complete token result =>
    let (disposition, after) := requests.complete token result
    some (after, match disposition with
      | .published => [.published token]
      | .discarded => [.discarded token]
      | .unexpected => [])
  | .acknowledgeCompletions count => some ((requests.acknowledgeCompletions count).2, [])
  | .advanceGeneration =>
    let (advanced, after) := requests.advanceGeneration
    some (after, if advanced then [.advanced]
      else if requests.retired then [] else [.retired])
  | .retire => some (requests.retire, [.retired])

end IconRequests

end DarkReNamer
