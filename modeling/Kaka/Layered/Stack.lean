import Kaka.Base.RunLog
import Kaka.Base.Simulation
import Kaka.Layered.Quota
import Kaka.Memory.Metrics

/-! # The whole stack of a layered limiter

`layered.Limiter.Allow` over `Allow` of a Redis limiter over `Script.Run`,
with what the quota leaves open: each limiter caches the SHA of its script,
the server keeps loaded scripts and may forget them at any time, a command
may be carried out although its reply is lost, and the sinks are told every
decision and every error, one call at a time.

The stack is an implementation of `system`: forgetting the caches and the
sinks, each of its steps is some steps there.
-/

namespace Kaka.Layered

open Interleaving Redis

open Memory (SinkCall tierSingle)

def tierLocal : String := "local"

def tierRemote : String := "remote"

/-- Which of the hooks are configured: the sink of the layered limiter, the
sink of the Redis limiter and its `onError`. -/
structure Sinks where
  layered : Bool
  redis : Bool
  onError : Bool

inductive Report where
  | layered (call : SinkCall)
  | redis (call : SinkCall)
  | onError (err : String)
  deriving DecidableEq

namespace Sinks

variable (k : Sinks)

def decision (tier : String) (result : Result) : SinkCall :=
  if result.allowed then .onAllowed tier result else .onRejected tier result

def emit (tier : String) (result : Result) : List Report :=
  if k.layered then [.layered (decision tier result)] else []

def emitError (tier : String) (err : String) : List Report :=
  if k.layered then [.layered (.onError tier err)] else []

def redisEmit (result : Result) : List Report :=
  if k.redis then [.redis (decision tierSingle result)] else []

def redisEmitError (err : String) : List Report :=
  if k.redis then [.redis (.onError tierSingle err)] else []

/-- `fallback` reports the error as well. -/
def fallback (err : String) : List Report := if k.onError then [.onError err] else []

/-- What is told of a Redis limiter's result, which the layered limiter returns. -/
def served (r : Result) : List Report := k.redisEmit r ++ k.emit tierRemote r

/-- What is told of a Redis limiter's error, answered by its policy. -/
def failed (opts : Options) (err : String) : List Report :=
  k.redisEmitError err ++ k.fallback err ++ k.redisEmit opts.fallback ++ k.emit tierRemote opts.fallback

end Sinks

/-! ## `Script.Run` -/

def isNoScriptErr (err : String) : Bool := decide ("NOSCRIPT".toList <:+: err.toList)

def noScript : String := "NOSCRIPT No matching script. Please use EVAL."

def loadError (name cause : String) : String := "kaka/redis: redis unavailable: load " ++ name ++ ": " ++ cause

def runError (name cause : String) : String := "kaka/redis: script error: run " ++ name ++ ": " ++ cause

/-- What becomes of a command that is sent at `now`: its reply comes back; it
is carried out and its reply lost, whereupon the client library repeats it or
returns an error; it never gets there. -/
inductive Net where
  | replied (now : Int)
  | lost (now : Int) (err : Option String)
  | down (err : String)

/-- The key, the scripts loaded and the SHAs that the limiters have cached. -/
structure Backend (α : Type) where
  server : Server α
  loaded : Bool
  sha : Nat → Bool

/-- What follows after the sinks have been told. -/
inductive Next where
  | remote
  | done (a : Answer)
  deriving DecidableEq

inductive Place where
  | enter
  | consult
  | remote
  | load (again : Bool)
  | store (again : Bool)
  | eval (again : Bool)
  | report (todo : List Report) (next : Next)
  | done (a : Answer)
  | flush
  | flushed
  deriving DecidableEq

def Next.place : Next → Place
  | .remote => .remote
  | .done a => .done a

/-- A call on one of the limiters, or the server forgetting its scripts. -/
inductive Task where
  | call (limiter : Nat)
  | flush

structure Frame where
  limiter : Nat
  place : Place

inductive Input where
  | go
  | answer (a : Answer)
  | net (n : Net)

section Stack

variable {α : Type} (script : Option (Entry α) → Int → Option (Entry α) × Reply) (name : String)
  (opts : Options) (k : Sinks) (key : List UInt8)

def served (r : Result) : Place := .report (k.served r) (.done (r, none))

def failed (err : String) : Place := .report (k.failed opts err) (.done (opts.fallback, none))

def evalFailed (again : Bool) (err : String) : Place :=
  if isNoScriptErr err && !again then .load true else failed opts k (runError name err)

def Backend.run (b : Backend α) (tid : Tid) (now : Int) : Backend α :=
  if b.loaded then { b with server := b.server.run script tid now } else b

def allowStep (tid : Tid) (limiter : Nat) (b : Backend α) : Input → Place → Option (Backend α × Place)
  | .go, .enter =>
    match Layered.validateKey key with
    | some err => some (b, .report (k.emitError tierSingle err) (.done (⟨false, 0, 0⟩, some err)))
    | none => some (b, .consult)
  | .answer (_, some err), .consult => some (b, .report (k.emitError tierLocal err) .remote)
  | .answer (r, none), .consult =>
    if !r.allowed then some (b, .report (k.emit tierLocal r) (.done (r, none))) else some (b, .remote)
  | .go, .remote =>
    match Redis.validateKey key with
    | some err => some (b, .report (k.redisEmitError err ++ k.emitError tierRemote err)
        (.done (⟨false, 0, 0⟩, some err)))
    | none => some (b, if b.sha limiter then .eval false else .load false)
  | .net (.replied _), .load again => some ({ b with loaded := true }, .store again)
  | .net (.lost _ none), .load again => some ({ b with loaded := true }, .load again)
  | .net (.lost _ (some err)), .load _ =>
    some ({ b with loaded := true }, failed opts k (loadError name err))
  | .net (.down err), .load _ => some (b, failed opts k (loadError name err))
  | .go, .store again => some ({ b with sha := Function.update b.sha limiter true }, .eval again)
  | .net (.replied now), .eval again =>
    some (b.run script tid now,
      if b.loaded then served k (decode (script b.server.key now).2)
      else evalFailed name opts k again noScript)
  | .net (.lost now none), .eval again => some (b.run script tid now, .eval again)
  | .net (.lost now (some err)), .eval again =>
    some (b.run script tid now, evalFailed name opts k again err)
  | .net (.down err), .eval again => some (b, evalFailed name opts k again err)
  | .go, .report [] next => some (b, next.place)
  | .go, .report (_ :: rest) next => some (b, .report rest next)
  | .go, .flush => some ({ b with loaded := false }, .flushed)
  | _, _ => none

/-- The calls of all the limiters on `key`. -/
def stack : Program (Backend α) Frame Task Input Answer where
  init := ⟨⟨none, []⟩, false, fun _ => false⟩
  start
    | .call limiter => ⟨limiter, .enter⟩
    | .flush => ⟨0, .flush⟩
  step tid input b t :=
    (allowStep script name opts k key tid t.limiter b input t.place).map fun x => (x.1, ⟨t.limiter, x.2⟩)
  result t :=
    match t.place with
    | .done a => some a
    | _ => none

end Stack

/-! ## What one step can do -/

section Moves

variable {α : Type} (script : Option (Entry α) → Int → Option (Entry α) × Reply) (name : String)
  (opts : Options) (k : Sinks) (key : List UInt8)

inductive Moves (tid : Tid) (limiter : Nat) (b : Backend α) :
    Input → Place → Backend α → Place → Prop
  | blank {err} (hKey : Layered.validateKey key = some err) : Moves tid limiter b .go .enter b
      (.report (k.emitError tierSingle err) (.done (⟨false, 0, 0⟩, some err)))
  | enter (hKey : Layered.validateKey key = none) : Moves tid limiter b .go .enter b .consult
  | localError {r err} : Moves tid limiter b (.answer (r, some err)) .consult b
      (.report (k.emitError tierLocal err) .remote)
  | denied {r} (hDenied : r.allowed = false) : Moves tid limiter b (.answer (r, none)) .consult b
      (.report (k.emit tierLocal r) (.done (r, none)))
  | passed {r} (hAllowed : r.allowed = true) : Moves tid limiter b (.answer (r, none)) .consult b .remote
  | invalid {err} (hKey : Redis.validateKey key = some err) : Moves tid limiter b .go .remote b
      (.report (k.redisEmitError err ++ k.emitError tierRemote err) (.done (⟨false, 0, 0⟩, some err)))
  | cached (hKey : Redis.validateKey key = none) (hSha : b.sha limiter = true) :
      Moves tid limiter b .go .remote b (.eval false)
  | unknown (hKey : Redis.validateKey key = none) (hSha : b.sha limiter = false) :
      Moves tid limiter b .go .remote b (.load false)
  | loaded {now again} : Moves tid limiter b (.net (.replied now)) (.load again)
      { b with loaded := true } (.store again)
  | reload {now again} : Moves tid limiter b (.net (.lost now none)) (.load again)
      { b with loaded := true } (.load again)
  | loadLost {now err again} : Moves tid limiter b (.net (.lost now (some err))) (.load again)
      { b with loaded := true } (failed opts k (loadError name err))
  | loadDown {err again} : Moves tid limiter b (.net (.down err)) (.load again) b
      (failed opts k (loadError name err))
  | store {again} : Moves tid limiter b .go (.store again)
      { b with sha := Function.update b.sha limiter true } (.eval again)
  | served {now again} (hLoaded : b.loaded = true) :
      Moves tid limiter b (.net (.replied now)) (.eval again)
        { b with server := b.server.run script tid now } (served k (decode (script b.server.key now).2))
  | missing {now again} (hLoaded : b.loaded = false) :
      Moves tid limiter b (.net (.replied now)) (.eval again) b (evalFailed name opts k again noScript)
  | repeated {now again} : Moves tid limiter b (.net (.lost now none)) (.eval again)
      (b.run script tid now) (.eval again)
  | evalLost {now err again} : Moves tid limiter b (.net (.lost now (some err))) (.eval again)
      (b.run script tid now) (evalFailed name opts k again err)
  | evalDown {err again} : Moves tid limiter b (.net (.down err)) (.eval again) b
      (evalFailed name opts k again err)
  | reported {next} : Moves tid limiter b .go (.report [] next) b next.place
  | report {r rest next} : Moves tid limiter b .go (.report (r :: rest) next) b (.report rest next)
  | flush : Moves tid limiter b .go .flush { b with loaded := false } .flushed

end Moves

variable {α : Type} {script : Option (Entry α) → Int → Option (Entry α) × Reply} {name : String}
  {opts : Options} {k : Sinks} {key : List UInt8} {tid : Tid} {limiter : Nat} {b b' : Backend α}
  {input : Input} {place place' : Place}

theorem moves_of_allowStep
    (h : allowStep script name opts k key tid limiter b input place = some (b', place')) :
    Moves script name opts k key tid limiter b input place b' place' := by
  unfold allowStep at h
  split at h
  · split at h <;> cases h
    · exact .blank ‹_›
    · exact .enter ‹_›
  · cases h
    exact .localError
  · split at h <;> rename_i hAllowed <;> cases h
    · exact .denied (by simpa using hAllowed)
    · exact .passed (by simpa using hAllowed)
  · split at h <;> cases h
    · exact .invalid ‹_›
    · split
      · exact .cached ‹_› ‹_›
      · exact .unknown ‹_› (Bool.eq_false_iff.mpr ‹_›)
  · cases h
    exact .loaded
  · cases h
    exact .reload
  · cases h
    exact .loadLost
  · cases h
    exact .loadDown
  · cases h
    exact .store
  · cases h
    unfold Backend.run
    split
    · exact .served ‹_›
    · exact .missing (Bool.eq_false_iff.mpr ‹_›)
  · cases h
    exact .repeated
  · cases h
    exact .evalLost
  · cases h
    exact .evalDown
  · cases h
    exact .reported
  · cases h
    exact .report
  · cases h
    exact .flush
  · cases h

theorem moves_of_step {t t' : Frame} (h : (stack script name opts k key).step tid input b t = some (b', t')) :
    ∃ place', t' = ⟨t.limiter, place'⟩ ∧
      Moves script name opts k key tid t.limiter b input t.place b' place' := by
  obtain ⟨⟨_, place'⟩, hStep, hEq⟩ := Option.map_eq_some_iff.mp h
  cases hEq
  exact ⟨place', rfl, moves_of_allowStep hStep⟩

/-! ## The stack implements the system -/

/-- The place in `system`; a flush is read as a call that is never scheduled. -/
def Place.pc : Place → Pc
  | .enter | .flush | .flushed => .enter
  | .consult => .consult
  | .remote | .report _ .remote => .remote
  | .load again => .running (.load again)
  | .store again | .eval again => .running (.eval again)
  | .report _ (.done a) | .done a => .done a

def Frame.thread (t : Frame) : Thread := ⟨t.limiter, t.place.pc⟩

section StepsTo

variable {s : Server α} {pc pc' : Pc}

theorem stepsTo_of_advance {s' : Server α} (choice : Choice)
    (h : advance script opts key tid s choice pc = some (s', pc')) :
    (system script opts key).StepsTo tid s ⟨limiter, pc⟩ s' ⟨limiter, pc'⟩ := by
  refine .single choice ?_
  simp only [system, h, Option.map_some]

theorem stepsTo_evalFailed (again : Bool) (err : String) :
    (system script opts key).StepsTo tid s ⟨limiter, .running (.eval again)⟩ s
      ⟨limiter, (evalFailed name opts k again err).pc⟩ := by
  refine stepsTo_of_advance (.effect (.refused (isNoScriptErr err))) ?_
  unfold evalFailed
  simp only [advance, command]
  cases isNoScriptErr err && !again <;> rfl

theorem stepsTo_run (again : Bool) (now : Int) :
    (system script opts key).StepsTo tid b.server ⟨limiter, .running (.eval again)⟩
      (b.run script tid now).server ⟨limiter, .running (.eval again)⟩ := by
  unfold Backend.run
  split
  · exact stepsTo_of_advance (.effect (.lost now)) rfl
  · exact .refl

theorem Moves.stepsTo (h : Moves script name opts k key tid limiter b input place b' place') :
    (system script opts key).StepsTo tid b.server ⟨limiter, place.pc⟩ b'.server ⟨limiter, place'.pc⟩ := by
  cases h with
  | blank hKey | enter hKey => exact stepsTo_of_advance .go (by simp only [Place.pc, advance, hKey])
  | @localError r err => exact stepsTo_of_advance (.answer (r, some err)) rfl
  | @denied r hDenied =>
    refine stepsTo_of_advance (.answer (r, none)) ?_
    simp only [Place.pc, advance, settled_of_denied hDenied]
  | @passed r hAllowed =>
    refine stepsTo_of_advance (.answer (r, none)) ?_
    simp only [Place.pc, advance, settled_of_allowed hAllowed]
  | invalid hKey => exact stepsTo_of_advance (.cached false) (by simp only [Place.pc, advance, hKey])
  | cached hKey => exact stepsTo_of_advance (.cached true) (by simp only [Place.pc, advance, hKey]; rfl)
  | unknown hKey => exact stepsTo_of_advance (.cached false) (by simp only [Place.pc, advance, hKey]; rfl)
  | loaded => exact stepsTo_of_advance (.effect (.loaded true)) rfl
  | loadLost | loadDown => exact stepsTo_of_advance (.effect (.loaded false)) rfl
  | @served now => exact stepsTo_of_advance (.effect (.served now)) rfl
  | missing | evalDown => exact stepsTo_evalFailed _ _
  | repeated => exact stepsTo_run _ _
  | evalLost => exact (stepsTo_run _ _).trans (stepsTo_evalFailed _ _)
  | @reported next => cases next <;> exact .refl
  | @report _ _ next => cases next <;> exact .refl
  | reload | store | flush => exact .refl

end StepsTo

theorem simulation : Program.Simulation (stack script name opts k key) (system script opts key)
    Backend.server Frame.thread where
  init := rfl
  start
    | .call limiter => ⟨limiter, rfl⟩
    | .flush => ⟨0, rfl⟩
  step tid input b t b' t' hStep := by
    obtain ⟨place', rfl, hMoves⟩ := moves_of_step hStep
    exact hMoves.stepsTo

/-- Whatever the caches, the flushes, the lost replies and the sinks do, the
configurations of the stack are configurations of `system`. -/
theorem stack_refines {g : Config (Backend α) Frame Answer}
    (hReach : (stack script name opts k key).Reachable g) :
    ∃ history, (system script opts key).Reachable
      ⟨g.shared.server, g.threads.map Frame.thread, history⟩ :=
  simulation.reachable hReach

def allSinks : Sinks := ⟨true, true, true⟩

def replies (n : Nat) (now : Int) (tid : Tid) : List (Act Task Input) :=
  List.replicate n (.step tid (.net (.replied now)))

/-- The second call finds the script that the first has loaded forgotten, and
loads it again; the reply of its first run on the server is lost. -/
def flushRun : List (Act Task Input) :=
  [.start (.call 0), .step 0 .go, .step 0 (.answer (⟨true, 5, 0⟩, none)), .step 0 .go] ++
    replies 1 0 0 ++ [.step 0 .go] ++ replies 1 0 0 ++
    [.start (.call 0), .step 1 .go, .step 1 (.answer (⟨true, 5, 0⟩, none)), .step 1 .go,
      .start .flush, .step 2 .go] ++ replies 2 10 1 ++
    [.step 1 .go, .step 1 (.net (.lost 10 none))] ++ replies 1 10 1

theorem stack_refines_flushRun :
    let g := (stack (TokenBucket.script .onePerSecond 0) "token_bucket" forever allSinks [97]).final
      (fun _ _ => True) flushRun
    g.shared.server.log.map Run.tid = [0, 1, 1] ∧
    ∃ history, (system (TokenBucket.script .onePerSecond 0) forever [97]).Reachable
      ⟨g.shared.server, g.threads.map Frame.thread, history⟩ :=
  ⟨by decide +kernel, stack_refines (.final flushRun (by decide +kernel))⟩

end Kaka.Layered
