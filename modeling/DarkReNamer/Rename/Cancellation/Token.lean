import Mathlib.Logic.Function.Iterate
import DarkReNamer.Rename.World

/-!
# A token that is requested from outside

Cancellation is requested by another thread, at any moment of a run. `interleaved env` lets any
number of requests take effect before each call and records them in the history, among the
calls. What the token guarantees is a matter of the history alone (`Linearized`): no request has
taken effect before a check that is answered by no, or before a transaction that begins.
-/

namespace DarkReNamer

open Interaction

/-- One-shot cancellation token. -/
structure CancellationToken where
  state : UInt8
  deriving DecidableEq, Repr

namespace CancellationToken

def cancelRequested : UInt8 := 0b01

def journalBeginCommitted : UInt8 := 0b10

def new : CancellationToken := ⟨0⟩

/-- Requests cancellation. -/
def request (token : CancellationToken) : CancellationToken := ⟨token.state ||| cancelRequested⟩

def isRequested (token : CancellationToken) : Bool := token.state &&& cancelRequested != 0

/-- Commits the begin of the journal, unless the token has been used. -/
def commitJournalBegin (token : CancellationToken) : Bool × CancellationToken :=
  if token.state = 0 then (true, ⟨journalBeginCommitted⟩) else (false, token)

theorem isRequested_request (token : CancellationToken) : token.request.isRequested = true := by
  have hbit : (token.state ||| cancelRequested) &&& cancelRequested = 1 := by
    refine UInt8.toNat.inj ?_
    rw [UInt8.toNat_and, UInt8.toNat_or]
    show (token.state.toNat ||| 1) &&& 1 = 1
    rw [Nat.and_one_is_mod, Nat.or_mod_two_eq_one]
    exact .inr rfl
  rw [isRequested, request, hbit]
  rfl

theorem isRequested_commitJournalBegin (token : CancellationToken) :
    token.commitJournalBegin.2.isRequested = token.isRequested := by
  unfold commitJournalBegin
  split
  · next h =>
      rw [isRequested, isRequested, h]
      rfl
  · rfl

theorem not_isRequested_of_commitJournalBegin {token : CancellationToken}
    (h : token.commitJournalBegin.1 = true) : token.isRequested = false := by
  unfold commitJournalBegin at h
  split at h
  · next hzero => simp [isRequested, hzero]
  · cases h

end CancellationToken

/-- What happens in the course of a run, outside and inside of it. -/
inductive Moment where
  | requested
  | called (event : EngineEvent)
  deriving DecidableEq

/-- The calls of a history. -/
def callsOf (history : List Moment) : List EngineEvent :=
  history.filterMap fun
    | .requested => none
    | .called event => some event

/-- The world of a run, the token it shares, and what has happened so far. -/
structure Interleaved (σ : Type) where
  world : σ
  token : CancellationToken
  history : List Moment

/-- The token answers the calls of the control. -/
def CancellationToken.Answers (token : CancellationToken) :
    (call : Call) → Answer call → CancellationToken → Prop
  | .control .cancellationRequested, answer, token' =>
      answer = token.isRequested ∧ token' = token
  | .control .beginTransaction, answer, token' => (answer, token') = token.commitJournalBegin
  | _, _, token' => token' = token

/-- Before each call any number of requests take effect. -/
def interleaved {σ : Type} (env : Environment σ Call Answer) :
    Environment (Interleaved σ) Call Answer :=
  fun s call answer t => ∃ requests : ℕ, env s.world call answer t.world ∧
    (CancellationToken.request^[requests] s.token).Answers call answer t.token ∧
    t.history = s.history ++ List.replicate requests .requested ++ [.called ⟨call, answer⟩]

/-- A check that is answered by no, or a transaction that begins. -/
def Proceeds : EngineEvent → Prop
  | ⟨.control .cancellationRequested, requested⟩ => requested = false
  | ⟨.control .beginTransaction, begun⟩ => begun = true
  | _ => False

/-- No request has taken effect before the run proceeds. -/
structure Linearized (token : CancellationToken) (history : List Moment) : Prop where
  kept : .requested ∈ history → token.isRequested = true
  proceeds : ∀ front event back, history = front ++ .called event :: back → Proceeds event →
    .requested ∉ front

namespace Linearized

variable {token token' : CancellationToken} {history : List Moment}

theorem nil (token : CancellationToken) : Linearized token [] where
  kept h := by cases h
  proceeds front event back h := by simp at h

theorem request (h : Linearized token history) :
    Linearized token.request (history ++ [.requested]) where
  kept _ := token.isRequested_request
  proceeds front event back hsplit hevent := by
    rcases List.eq_nil_or_concat back with rfl | ⟨back, last, rfl⟩
    · have hlast := (List.append_inj' hsplit rfl).2
      simp at hlast
    · rw [List.concat_eq_append, ← List.cons_append, ← List.append_assoc] at hsplit
      exact h.proceeds front event back (List.append_inj' hsplit rfl).1 hevent

theorem requests (h : Linearized token history) (n : ℕ) :
    Linearized (CancellationToken.request^[n] token)
      (history ++ List.replicate n .requested) := by
  induction n with
  | zero => simpa using h
  | succ n ih =>
      rw [Function.iterate_succ_apply', List.replicate_succ', ← List.append_assoc]
      exact ih.request

theorem call (h : Linearized token history) {call : Call} {answer : Answer call}
    (hanswers : token.Answers call answer token') :
    Linearized token' (history ++ [.called ⟨call, answer⟩]) := by
  have hsame : token'.isRequested = token.isRequested := by
    cases call with
    | control call =>
        cases call with
        | cancellationRequested => rw [hanswers.2]
        | beginTransaction =>
            rw [show token' = token.commitJournalBegin.2 from congrArg Prod.snd hanswers,
              token.isRequested_commitJournalBegin]
        | progress value => rw [show token' = token from hanswers]
    | backend call => rw [show token' = token from hanswers]
    | journal call => rw [show token' = token from hanswers]
  have hproceeds : Proceeds ⟨call, answer⟩ → token.isRequested = false := by
    intro hevent
    cases call with
    | control call =>
        cases call with
        | cancellationRequested => exact hanswers.1.symm.trans hevent
        | beginTransaction =>
            refine CancellationToken.not_isRequested_of_commitJournalBegin ?_
            exact (congrArg Prod.fst hanswers).symm.trans hevent
        | progress value => exact hevent.elim
    | backend call => exact hevent.elim
    | journal call => exact hevent.elim
  refine ⟨fun hmem => ?_, fun front event back hsplit hevent => ?_⟩
  · rw [hsame]
    exact h.kept (by simpa using hmem)
  · rcases List.eq_nil_or_concat back with rfl | ⟨back, last, rfl⟩
    · obtain ⟨rfl, hlast⟩ := List.append_inj' hsplit rfl
      obtain rfl : (⟨call, answer⟩ : EngineEvent) = event := by simpa using hlast
      intro hmem
      rw [h.kept hmem] at hproceeds
      cases hproceeds hevent
    · rw [List.concat_eq_append, ← List.cons_append, ← List.append_assoc] at hsplit
      exact h.proceeds front event back (List.append_inj' hsplit rfl).1 hevent

end Linearized

section Handler

/-! ### A run that is requested once -/

variable {B : Type} {backend : BackendRel B}

/-- The answer of the token, where the call is one of the control. -/
def CancellationToken.answer (token : CancellationToken) :
    (call : Call) → Answer call → Answer call × CancellationToken
  | .control .cancellationRequested, _ => (token.isRequested, token)
  | .control .beginTransaction, _ => token.commitJournalBegin
  | _, answer => (answer, token)

theorem CancellationToken.answers_answer (token : CancellationToken) (call : Call)
    (answer : Answer call) :
    token.Answers call (token.answer call answer).1 (token.answer call answer).2 := by
  cases call with
  | control call =>
      cases call with
      | cancellationRequested => exact ⟨rfl, rfl⟩
      | _ => rfl
  | _ => rfl

theorem CancellationToken.allowed_answer (token : CancellationToken) {s t : World B}
    {call : Call} {answer : Answer call} (h : engineEnv backend s call answer t) :
    engineEnv backend s call (token.answer call answer).1 t := by
  cases call with
  | control call => exact h
  | _ => exact h

/-- Answers as `handler` does, with a request before the call of that number. -/
def requestedAt (number : ℕ) (handler : World B → (call : Call) → Answer call × World B)
    (s : Interleaved (World B)) (call : Call) : Answer call × Interleaved (World B) :=
  let requests := if (callsOf s.history).length = number then 1 else 0
  let answered := handler s.world call
  let answer := (CancellationToken.request^[requests] s.token).answer call answered.1
  (answer.1, ⟨answered.2, answer.2,
    s.history ++ List.replicate requests .requested ++ [.called ⟨call, answer.1⟩]⟩)

theorem requestedAt_allowed {handler : World B → (call : Call) → Answer call × World B}
    (hallowed : ∀ s call, engineEnv backend s call (handler s call).1 (handler s call).2)
    (number : ℕ) (s : Interleaved (World B)) (call : Call) :
    interleaved (engineEnv backend) s call (requestedAt number handler s call).1
      (requestedAt number handler s call).2 :=
  ⟨_, CancellationToken.allowed_answer _ (hallowed s.world call),
    CancellationToken.answers_answer _ _ _, rfl⟩

end Handler

section Runs

variable {σ α : Type} {env : Environment σ Call Answer} {p : Engine α} {s t : Interleaved σ}
  {trace : List EngineEvent} {result : Option α}

/-- The run alone, without what happens outside. -/
theorem runs_of_interleaved (run : Runs (interleaved env) p s trace result t) :
    Runs env p s.world trace result t.world ∧
      callsOf t.history = callsOf s.history ++ trace := by
  induction run with
  | done a s => exact ⟨.done a _, by simp⟩
  | crash p s => exact ⟨.crash p _, by simp⟩
  | call step _ ih =>
      obtain ⟨requests, hstep, -, hhistory⟩ := step
      refine ⟨.call hstep ih.1, ?_⟩
      rw [ih.2, hhistory]
      simp [callsOf]

theorem linearized_of_runs (run : Runs (interleaved env) p s trace result t)
    (h : Linearized s.token s.history) : Linearized t.token t.history := by
  refine ((Spec.invariant (I := fun u : Interleaved σ => Linearized u.token u.history)
    ?_ p h).sound run).1
  rintro u call answer v hu ⟨requests, -, hanswers, hhistory⟩
  rw [hhistory]
  exact (hu.requests requests).call hanswers

end Runs

end DarkReNamer
