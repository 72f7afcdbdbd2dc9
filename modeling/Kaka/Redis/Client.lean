import Kaka.Redis.Script
import Mathlib.Logic.Function.Basic

/-! # The client of a Redis limiter

`Allow` checks the key, runs the script of its limiter and makes a result of
the value that the client library returns.  What fails on the way is
answered by the error policy.  A script may have run on the server although
the client sees an error, or several times for one call.
-/

namespace Kaka.Redis

inductive ErrorPolicy where
  | errorFailClosed
  | errorFailOpen
  deriving DecidableEq, Repr

structure Options where
  -- the defaults are those of `defaultOptions`
  keyTTL : Int := 30 * 60 * 1000000000
  policy : ErrorPolicy := .errorFailClosed
  deriving DecidableEq, Repr

def Options.fallback (opts : Options) : Result :=
  match opts.policy with
  | .errorFailOpen => ⟨true, 0, 0⟩
  | .errorFailClosed => ⟨false, 0, 0⟩

def validateKey (key : List UInt8) : Option String :=
  if blank key then some "kaka/redis: key must not be blank" else none

/-! ## The value of a run -/

inductive Value where
  | int64 (n : Int)
  | array (elements : List Value)
  | other

def Reply.value (r : Reply) : Value :=
  .array [.int64 (toInt64 r.allowed), .int64 (toInt64 r.remaining), .int64 (toInt64 r.retryAfterMs)]

def parse : Value → Option Result
  | .array [.int64 allowed, .int64 remaining, .int64 retryMs] =>
    some ⟨allowed == 1, remaining, wrap64 (retryMs * 1000000)⟩
  | _ => none

theorem allowed_decode {r : Reply} : (decode r).allowed = true ↔ r.allowed = 1 := by
  simp only [decode, toInt64, beq_iff_eq]
  split <;> omega

def Options.result (opts : Options) (value : Option Value) : Result :=
  (value.bind parse).getD opts.fallback

theorem Options.result_value (opts : Options) (r : Reply) : opts.result (some r.value) = decode r := rfl

/-- `Allow` where every run of the script comes to its reply; the server keeps
an entry for each key. -/
def Options.allow {α ι : Type} (opts : Options)
    (script : Option (Entry α) → ι → Option (Entry α) × Option Reply)
    (entries : List UInt8 → Option (Entry α)) (x : List UInt8 × ι) :
    (List UInt8 → Option (Entry α)) × Answer :=
  match validateKey x.1 with
  | some err => (entries, (⟨false, 0, 0⟩, some err))
  | none =>
    let out := script (entries x.1) x.2
    (Function.update entries x.1 out.1, (opts.result (out.2.map Reply.value), none))

/-! ## The runs of a script -/

structure Run where
  tid : Nat
  now : Int
  reply : Reply

structure Server (α : Type) where
  key : Option (Entry α)
  log : List Run

section Runs

variable {α : Type} (script : Option (Entry α) → Int → Option (Entry α) × Reply)

def Server.run (s : Server α) (tid : Nat) (now : Int) : Server α :=
  ⟨(script s.key now).1, s.log ++ [⟨tid, now, (script s.key now).2⟩]⟩

/-- Where `Script.Run` stands.  It runs `EVALSHA` once more, `again`, after a
NOSCRIPT error; before it the script is loaded where its SHA is not known. -/
inductive Progress where
  | load (again : Bool)
  | eval (again : Bool)
  | ended (value : Option Value)

/-- What becomes of a command: the client library repeats one whose reply was
lost, or gives up; a value may come back that no script returns. -/
inductive Effect where
  | loaded (ok : Bool)
  | served (now : Int)
  | lost (now : Int)
  | refused (noScript : Bool)
  | garbled (value : Value)

def command (tid : Nat) (s : Server α) : Effect → Progress → Option (Server α × Progress)
  | .loaded ok, .load again => some (s, if ok then .eval again else .ended none)
  | .served now, .eval _ => some (s.run script tid now, .ended (some (script s.key now).2.value))
  | .lost now, .eval again => some (s.run script tid now, .eval again)
  | .refused noScript, .eval again => some (s, if noScript && !again then .load true else .ended none)
  -- a value that parses is a reply, and comes by `served` only
  | .garbled value, .eval _ => if (parse value).isNone then some (s, .ended (some value)) else none
  | _, _ => none

variable {script}

/-- A command runs the script once, and its reply is the value if it comes
back; or it does not, and there is no result. -/
theorem command_cases {tid : Nat} {s s' : Server α} {e : Effect} {p p' : Progress}
    (h : command script tid s e p = some (s', p')) :
    (s' = s ∧ ∀ value, p' = .ended value → value.bind parse = none) ∨
    ∃ now, s' = s.run script tid now ∧
      ((∃ again, p' = .eval again) ∨ p' = .ended (some (script s.key now).2.value)) := by
  unfold command at h
  split at h
  · rename_i ok again
    cases h
    refine .inl ⟨rfl, ?_⟩
    intro value hEnd
    cases ok <;> cases hEnd
    rfl
  · cases h
    exact .inr ⟨_, rfl, .inr rfl⟩
  · cases h
    exact .inr ⟨_, rfl, .inl ⟨_, rfl⟩⟩
  · cases h
    refine .inl ⟨rfl, ?_⟩
    intro value hEnd
    split at hEnd <;> cases hEnd
    rfl
  · split at h
    · rename_i hNone
      cases h
      refine .inl ⟨rfl, ?_⟩
      rintro value ⟨⟩
      exact Option.isNone_iff_eq_none.mp hNone
    · cases h
  · cases h

structure Server.Replays (script : Option (Entry α) → Int → Option (Entry α) × Reply)
    (s : Server α) : Prop where
  log : s.log.map (fun x => (x.now, x.reply)) = serve script none (s.log.map Run.now)
  key : s.key = after script none (s.log.map Run.now)

theorem Server.Replays.run {s : Server α} (h : s.Replays script) (tid : Nat) (now : Int) :
    (s.run script tid now).Replays script := by
  constructor
  · simp only [Server.run, List.map_append, List.map_cons, List.map_nil]
    rw [serve_snoc, h.log, h.key]
  · simp only [Server.run, List.map_append, List.map_cons, List.map_nil]
    rw [after_snoc, h.key]

end Runs

end Kaka.Redis
