import Kaka.Redis.Buckets
import Kaka.Redis.Client
import Kaka.Redis.SlidingWindow

/-! # Limiters that share a server

Limiters keep their states on one server, each under its prefix.  A hash has
room for the fields of both buckets.  A script whose key holds a value of
the other type fails at its first command, and the error policy answers.
-/

namespace Kaka.Redis

variable {M : Type} [LinearOrder M]

/-- The type of a value; a script fails on a value of the other one. -/
inductive Kind where
  | hash
  | zset
  deriving DecidableEq

inductive Datum (M : Type) [LinearOrder M] where
  | hash (token : Option TokenHash) (leaky : Option LeakyHash)
  | zset (set : SortedSet Int M)

def Datum.kind : Datum M → Kind
  | .hash _ _ => .hash
  | .zset _ => .zset

inductive Family where
  | tokenBucket
  | leakyBucket
  | slidingWindow
  deriving DecidableEq

def Family.kind : Family → Kind
  | .tokenBucket => .hash
  | .leakyBucket => .hash
  | .slidingWindow => .zset

inductive Algorithm where
  | tokenBucket (rates : Rates)
  | leakyBucket (rates : Rates)
  | slidingWindow (limit window : Int) (limit_pos : 0 < limit)

def Algorithm.family : Algorithm → Family
  | .tokenBucket _ => .tokenBucket
  | .leakyBucket _ => .leakyBucket
  | .slidingWindow _ _ _ => .slidingWindow

structure Limiter where
  /-- `"kaka:"`, where no option sets another -/
  keyPrefix : List UInt8 := [107, 97, 107, 97, 58]
  opts : Options := {}
  algorithm : Algorithm

def Limiter.keyFor (l : Limiter) (key : List UInt8) : List UInt8 := l.keyPrefix ++ key

/-! ## The scripts on the keys of the server -/

abbrev Cell (M : Type) [LinearOrder M] := Option (Entry (Datum M))

def Cell.token (cell : Cell M) : Option TokenHash :=
  cell.bind fun e =>
    match e.value with
    | .hash token _ => token
    | .zset _ => none

def Cell.leaky (cell : Cell M) : Option LeakyHash :=
  cell.bind fun e =>
    match e.value with
    | .hash _ leaky => leaky
    | .zset _ => none

def Cell.zset (cell : Cell M) : SlidingWindow.Key M :=
  cell.bind fun e =>
    match e.value with
    | .hash _ _ => none
    | .zset set => some ⟨set, e.deadline⟩

/-- A script on a key that holds nothing of the other type.  A bucket keeps
the fields of the other bucket. -/
def Algorithm.body (ttlMs : Int) (cell : Cell M) (x : Int × M) : Algorithm → Cell M × Option Reply
  | .tokenBucket rates =>
    let (token, reply) := TokenBucket.body rates cell.token x.1
    (some (pexpire ttlMs x.1 ⟨.hash (some token) cell.leaky, cell.bind Entry.deadline⟩), some reply)
  | .leakyBucket rates =>
    let (leaky, reply) := LeakyBucket.body rates cell.leaky x.1
    (some (pexpire ttlMs x.1 ⟨.hash cell.token (some leaky), cell.bind Entry.deadline⟩), some reply)
  | .slidingWindow limit window _ =>
    let (key, reply) := SlidingWindow.script limit (milliseconds window) ttlMs cell.zset x
    (key.map (Entry.map .zset), reply)

/-- Without a reply the script has failed. -/
def Algorithm.run (a : Algorithm) (ttlMs : Int) (cell : Cell M) (x : Int × M) : Cell M × Option Reply :=
  let cell := find x.1 cell
  if cell.all fun e => e.value.kind = a.family.kind then a.body ttlMs cell x else (cell, none)

abbrev Database (M : Type) [LinearOrder M] := List UInt8 → Cell M

def Limiter.decide (l : Limiter) (cell : Cell M) (x : Int × M) : Cell M × Result :=
  let out := l.algorithm.run (milliseconds l.opts.keyTTL) cell x
  (out.1, l.opts.result (out.2.map Reply.value))

/-- `Allow`, where the client sees the reply of its script, or the error. -/
def Limiter.allow (l : Limiter) (db : Database M) (x : List UInt8 × Int × M) : Database M × Answer :=
  match validateKey x.1 with
  | some err => (db, (⟨false, 0, 0⟩, some err))
  | none =>
    let out := l.decide (db (l.keyFor x.1)) x.2
    (Function.update db (l.keyFor x.1) out.1, (out.2, none))

def emptyDatabase : Database M := fun _ => none

section Requests

variable {ι : Type} (limiters : ι → Limiter)

def request (db : Database M) (x : ι × List UInt8 × Int × M) : Database M × Answer :=
  (limiters x.1).allow db x.2

def fullKey (x : ι × List UInt8 × Int × M) : List UInt8 := (limiters x.1).keyFor x.2.1

def family (x : ι × List UInt8 × Int × M) : Family := (limiters x.1).algorithm.family

/-- The type that the first request on a key gives it. -/
def firstKind (requests : List (ι × List UInt8 × Int × M)) (key : List UInt8) : Option Kind :=
  (requests.find? fun x => !blank x.2.1 && fullKey limiters x = key).map fun x => (family limiters x).kind

def native (requests : List (ι × List UInt8 × Int × M)) (f : Family) (x : ι × List UInt8 × Int × M) : Bool :=
  family limiters x = f && firstKind limiters requests (fullKey limiters x) = some f.kind

variable {limiters} {x : ι × List UInt8 × Int × M} {db : Database M}

theorem request_of_blank (hBlank : blank x.2.1 = true) :
    request limiters db x = (db, (⟨false, 0, 0⟩, some "kaka/redis: key must not be blank")) := by
  simp [request, Limiter.allow, validateKey, hBlank]

theorem request_of_valid (hValid : blank x.2.1 = false) :
    request limiters db x =
      (Function.update db (fullKey limiters x) ((limiters x.1).decide (db (fullKey limiters x)) x.2.2).1,
        (((limiters x.1).decide (db (fullKey limiters x)) x.2.2).2, none)) := by
  simp [request, Limiter.allow, validateKey, hValid, fullKey]

end Requests

/-! ## Keys without a TTL -/

/-- The key is there until it is deleted. -/
def Cell.Lasting (cell : Cell M) : Prop := ∀ e ∈ cell, e.deadline = none

/-- The key holds nothing that the script fails on. -/
def Cell.Fits (cell : Cell M) (f : Family) : Prop := ∀ e ∈ cell, e.value.kind = f.kind

theorem Cell.Lasting.find {cell : Cell M} (h : cell.Lasting) (now : Int) : find now cell = cell := by
  cases cell with
  | none => rfl
  | some e => simp only [Redis.find, h e rfl]

theorem Algorithm.run_of_fits {a : Algorithm} {cell : Cell M} (hLasting : cell.Lasting)
    (hFits : cell.Fits a.family) (ttlMs : Int) (x : Int × M) : a.run ttlMs cell x = a.body ttlMs cell x := by
  unfold Algorithm.run
  rw [hLasting.find]
  refine if_pos ?_
  cases cell with
  | none => rfl
  | some e => simpa using hFits e rfl

theorem Algorithm.run_of_not_fits {a : Algorithm} {cell : Cell M} (hLasting : cell.Lasting)
    (hFits : ¬ cell.Fits a.family) (ttlMs : Int) (x : Int × M) : a.run ttlMs cell x = (cell, none) := by
  unfold Algorithm.run
  rw [hLasting.find]
  refine if_neg ?_
  cases cell with
  | none => exact absurd (by rintro e ⟨⟩) hFits
  | some e => simpa [Cell.Fits] using hFits

theorem luaNumber_pos {x : Int} (hx : 0 < x) : luaNumber (0 : Nat) < luaNumber x :=
  luaNumber_lt le_rfl hx (by omega)

/-- The window is never empty after a run, as its limit is positive. -/
theorem SlidingWindow.exists_script {limit ttlMs : Int} (windowMs : Int) (hLimit : 0 < limit) (hTtl : ttlMs ≤ 0)
    {key : Key M} (hLasting : ∀ e ∈ key, e.deadline = none) (x : Int × M) :
    ∃ e, (script limit windowMs ttlMs key x).1 = some e ∧ e.deadline = none := by
  have hTimed : Timed ttlMs (find x.1 key) := fun e he _ => hLasting e (mem_of_mem_find he)
  unfold script scriptOn
  dsimp only
  have hPruned := hTimed.zremrangebyscore (luaNumber (luaNumber x.1 - luaNumber windowMs))
  revert hPruned
  generalize SlidingWindow.zremrangebyscore _ (find x.1 key) = pruned
  intro hPruned
  split
  · have hSome : ∃ e, zadd (luaNumber x.1) x.2 pruned = some e := by
      cases pruned <;> exact ⟨_, rfl⟩
    obtain ⟨e, he⟩ := hSome
    refine ⟨_, congrArg (Option.map _) he, ?_⟩
    have hDeadline := (hPruned.zadd (luaNumber x.1) x.2).pexpire x.1 (Redis.pexpire ttlMs x.1 e)
      (by rw [he]; rfl)
    rw [hDeadline, deadlineAfter_of_le hTtl]
  · rename_i hFull
    cases pruned with
    | none => exact absurd (luaNumber_pos hLimit) hFull
    | some e =>
      refine ⟨_, rfl, ?_⟩
      rw [hPruned.pexpire x.1 _ rfl, deadlineAfter_of_le hTtl]

theorem Cell.zset_map (key : SlidingWindow.Key M) : Cell.zset (key.map (Entry.map .zset)) = key := by
  cases key <;> rfl

theorem Cell.Lasting.zset {cell : Cell M} (h : cell.Lasting) : ∀ e ∈ cell.zset, e.deadline = none := by
  cases cell with
  | none => rintro e ⟨⟩
  | some e =>
    obtain ⟨value, deadline⟩ := e
    cases value with
    | hash token leaky => rintro e ⟨⟩
    | zset set =>
      rintro e ⟨⟩
      exact h _ rfl

theorem Algorithm.exists_body (a : Algorithm) {ttlMs : Int} (hTtl : ttlMs ≤ 0) {cell : Cell M}
    (hLasting : cell.Lasting) (x : Int × M) :
    ∃ e, (a.body ttlMs cell x).1 = some e ∧ e.deadline = none ∧ e.value.kind = a.family.kind := by
  have hDeadline : cell.bind Entry.deadline = none := by
    cases cell with
    | none => rfl
    | some e => exact hLasting e rfl
  have hKeeps : ∀ value : Datum M, pexpire ttlMs x.1 ⟨value, cell.bind Entry.deadline⟩ = ⟨value, none⟩ := by
    intro value
    rw [hDeadline, pexpire, if_neg (not_lt.mpr hTtl)]
  cases a with
  | tokenBucket rates => exact ⟨_, congrArg some (hKeeps _), rfl, rfl⟩
  | leakyBucket rates => exact ⟨_, congrArg some (hKeeps _), rfl, rfl⟩
  | slidingWindow limit window limit_pos =>
    obtain ⟨e, he, hNone⟩ := SlidingWindow.exists_script (milliseconds window) limit_pos hTtl
      hLasting.zset x
    exact ⟨e.map .zset, congrArg (Option.map (Entry.map Datum.zset)) he, hNone, rfl⟩

abbrev Family.State (M : Type) [LinearOrder M] : Family → Type
  | .tokenBucket => TokenHash
  | .leakyBucket => LeakyHash
  | .slidingWindow => Entry (SortedSet Int M)

def Cell.part (cell : Cell M) : (f : Family) → Option (f.State M)
  | .tokenBucket => cell.token
  | .leakyBucket => cell.leaky
  | .slidingWindow => cell.zset

theorem Cell.part_of_fits {cell : Cell M} {f g : Family} (hFits : cell.Fits g) (hNe : g.kind ≠ f.kind) :
    cell.part f = none := by
  cases cell with
  | none => cases f <;> rfl
  | some e =>
    obtain ⟨value, deadline⟩ := e
    have hKind : value.kind ≠ f.kind := fun hEq => hNe ((hFits _ rfl).symm.trans hEq)
    cases value with
    | hash token leaky =>
      cases f with
      | slidingWindow => rfl
      | tokenBucket | leakyBucket => exact absurd rfl hKind
    | zset set =>
      cases f with
      | slidingWindow => exact absurd rfl hKind
      | tokenBucket | leakyBucket => rfl

theorem Cell.token_pexpire (ttlMs now : Int) (token : Option TokenHash) (leaky : Option LeakyHash)
    (deadline : Option Int) :
    Cell.token (M := M) (some (pexpire ttlMs now ⟨.hash token leaky, deadline⟩)) = token := by
  simp [Cell.token, value_pexpire]

theorem Cell.leaky_pexpire (ttlMs now : Int) (token : Option TokenHash) (leaky : Option LeakyHash)
    (deadline : Option Int) :
    Cell.leaky (M := M) (some (pexpire ttlMs now ⟨.hash token leaky, deadline⟩)) = leaky := by
  simp [Cell.leaky, value_pexpire]

theorem Algorithm.body_alike (a : Algorithm) {cell cell' : Cell M}
    (h : cell.part a.family = cell'.part a.family) (ttlMs : Int) (x : Int × M) :
    (a.body ttlMs cell x).2 = (a.body ttlMs cell' x).2 ∧
      Cell.part (a.body ttlMs cell x).1 a.family = Cell.part (a.body ttlMs cell' x).1 a.family := by
  cases a with
  | tokenBucket rates =>
    have hToken : cell.token = cell'.token := h
    simp only [Algorithm.body, Algorithm.family, Cell.part, Cell.token_pexpire, hToken, true_and]
  | leakyBucket rates =>
    have hLeaky : cell.leaky = cell'.leaky := h
    simp only [Algorithm.body, Algorithm.family, Cell.part, Cell.leaky_pexpire, hLeaky, true_and]
  | slidingWindow limit window limit_pos =>
    have hZset : cell.zset = cell'.zset := h
    simp only [Algorithm.body, Algorithm.family, Cell.part, Cell.zset_map, hZset, true_and]

theorem Algorithm.body_other (a : Algorithm) {f : Family} (hNe : a.family ≠ f) {cell : Cell M}
    (hFits : cell.Fits a.family) {ttlMs : Int} (hTtl : ttlMs ≤ 0) (hLasting : cell.Lasting) (x : Int × M) :
    Cell.part (a.body ttlMs cell x).1 f = cell.part f := by
  by_cases hKind : a.family.kind = f.kind
  · -- of one type are the two buckets only
    cases a with
    | tokenBucket rates =>
      cases f with
      | tokenBucket => exact absurd rfl hNe
      | leakyBucket => exact Cell.leaky_pexpire _ _ _ _ _
      | slidingWindow => cases hKind
    | leakyBucket rates =>
      cases f with
      | tokenBucket => exact Cell.token_pexpire _ _ _ _ _
      | leakyBucket => exact absurd rfl hNe
      | slidingWindow => cases hKind
    | slidingWindow limit window limit_pos =>
      cases f with
      | tokenBucket | leakyBucket => cases hKind
      | slidingWindow => exact absurd rfl hNe
  · obtain ⟨e, he, -, hFit⟩ := a.exists_body hTtl hLasting x
    have hAfter : Cell.Fits (a.body ttlMs cell x).1 a.family := by
      intro e' he'
      obtain rfl : e = e' := Option.some_inj.mp (he.symm.trans he')
      exact hFit
    rw [Cell.part_of_fits hFits hKind, Cell.part_of_fits hAfter hKind]

/-! ## Who comes first -/

section FirstKind

variable {ι : Type} {limiters : ι → Limiter}

/-- The type of the value at a key, now or once the requests have put one there. -/
def kindAt (limiters : ι → Limiter) (requests : List (ι × List UInt8 × Int × M)) (db : Database M)
    (key : List UInt8) : Option Kind :=
  ((db key).map fun e => e.value.kind).or (firstKind limiters requests key)

theorem fits_of_kindAt {requests : List (ι × List UInt8 × Int × M)} {db : Database M} {key : List UInt8}
    {f : Family} (h : kindAt limiters requests db key = some f.kind) : (db key).Fits f := by
  intro e he
  rw [Option.mem_def] at he
  simpa [kindAt, he] using h

/-- Where the script does not fail the key has its type from the start. -/
theorem kindAt_of_fits {x : ι × List UInt8 × Int × M} {rest : List (ι × List UInt8 × Int × M)}
    {db : Database M} (hValid : blank x.2.1 = false)
    (hFits : (db (fullKey limiters x)).Fits (family limiters x)) :
    kindAt limiters (x :: rest) db (fullKey limiters x) = some (family limiters x).kind := by
  unfold kindAt
  cases hCell : db (fullKey limiters x) with
  | none => simp [firstKind, hValid]
  | some e => exact congrArg some (hFits e hCell)

def Lasting (db : Database M) : Prop := ∀ key, (db key).Lasting

variable (hTtl : ∀ i, milliseconds (limiters i).opts.keyTTL ≤ 0)
include hTtl

theorem decide_cases {x : ι × List UInt8 × Int × M} {cell : Cell M} (hLasting : cell.Lasting) :
    (cell.Fits (family limiters x) ∧
      ∃ e, ((limiters x.1).decide cell x.2.2).1 = some e ∧ e.deadline = none ∧
        e.value.kind = (family limiters x).kind) ∨
    (¬ cell.Fits (family limiters x) ∧
      (limiters x.1).decide cell x.2.2 = (cell, (limiters x.1).opts.fallback)) := by
  by_cases hFits : cell.Fits (family limiters x)
  · refine .inl ⟨hFits, ?_⟩
    rw [Limiter.decide, Algorithm.run_of_fits hLasting hFits]
    exact Algorithm.exists_body _ (hTtl x.1) hLasting x.2.2
  · refine .inr ⟨hFits, ?_⟩
    rw [Limiter.decide, Algorithm.run_of_not_fits hLasting hFits]
    rfl

theorem lasting_request {db : Database M} (h : Lasting db) (x : ι × List UInt8 × Int × M) :
    Lasting (request limiters db x).1 := by
  cases hValid : blank x.2.1 with
  | true => rwa [request_of_blank hValid]
  | false =>
    rw [request_of_valid hValid]
    intro key
    by_cases hKey : key = fullKey limiters x
    · subst hKey
      dsimp only
      rw [Function.update_self]
      rcases decide_cases hTtl (h (fullKey limiters x)) with ⟨-, e, he, hNone, -⟩ | ⟨-, hSame⟩
      · rw [he]
        rintro e' ⟨⟩
        exact hNone
      · rw [hSame]
        exact h _
    · dsimp only
      rw [Function.update_of_ne hKey]
      exact h key

theorem kindAt_request {db : Database M} (h : Lasting db) (x : ι × List UInt8 × Int × M)
    (rest : List (ι × List UInt8 × Int × M)) (key : List UInt8) :
    kindAt limiters rest (request limiters db x).1 key = kindAt limiters (x :: rest) db key := by
  cases hValid : blank x.2.1 with
  | true =>
    rw [request_of_blank hValid]
    simp [kindAt, firstKind, hValid]
  | false =>
    rw [request_of_valid hValid]
    by_cases hKey : key = fullKey limiters x
    · subst hKey
      rcases decide_cases hTtl (h (fullKey limiters x)) with ⟨hFits, e, he, -, hKind⟩ | ⟨hFits, hSame⟩
      · rw [kindAt_of_fits hValid hFits]
        simp [kindAt, he, hKind]
      · rw [hSame, Function.update_eq_self]
        unfold kindAt
        cases hCell : db (fullKey limiters x) with
        | none => exact absurd (by rw [hCell]; rintro e ⟨⟩) hFits
        | some e => simp [hCell]
    · have hSkip : ¬ fullKey limiters x = key := fun hEq => hKey hEq.symm
      simp [kindAt, firstKind, Function.update_of_ne hKey, hSkip]

/-- A request whose key is of the other type gets the answer of the error policy. -/
theorem fallback_of_kindAt {requests : List (ι × List UInt8 × Int × M)} {db : Database M} (h : Lasting db)
    {x : (ι × List UInt8 × Int × M) × Answer} (hMem : x ∈ serve (request limiters) db requests)
    (hValid : blank x.1.2.1 = false)
    (hKind : kindAt limiters requests db (fullKey limiters x.1) ≠ some (family limiters x.1).kind) :
    x.2 = ((limiters x.1.1).opts.fallback, none) := by
  induction requests generalizing db with
  | nil => cases hMem
  | cons y rest ih =>
    rw [serve_cons] at hMem
    rcases List.mem_cons.mp hMem with rfl | hRest
    · rw [request_of_valid hValid]
      rcases decide_cases hTtl (h (fullKey limiters y)) with ⟨hFits, -⟩ | ⟨-, hSame⟩
      · exact absurd (kindAt_of_fits hValid hFits) hKind
      · rw [hSame]
    · rw [← kindAt_request hTtl h y rest] at hKind
      exact ih (lasting_request hTtl h y) hRest hKind

/-- The second database holds what one of the scripts keeps in the first. -/
structure Projects (limiters : ι → Limiter) (f : Family) (kinds : List UInt8 → Option Kind)
    (requests : List (ι × List UInt8 × Int × M)) (db db' : Database M) : Prop where
  lasting : Lasting db
  lasting' : Lasting db'
  part : ∀ key, (db key).part f = (db' key).part f
  fits : ∀ key, (db' key).Fits f
  kinds : ∀ key, kindAt limiters requests db key = kinds key

variable {f : Family} {kinds : List UInt8 → Option Kind} {rest : List (ι × List UInt8 × Int × M)}
  {x : ι × List UInt8 × Int × M} {db db' : Database M}

theorem Projects.own (h : Projects limiters f kinds (x :: rest) db db') (hFamily : family limiters x = f)
    (hKind : kinds (fullKey limiters x) = some f.kind) :
    (request limiters db x).2 = (request limiters db' x).2 ∧
      Projects limiters f kinds rest (request limiters db x).1 (request limiters db' x).1 := by
  have hLasting := lasting_request hTtl h.lasting x
  have hLasting' := lasting_request hTtl h.lasting' x
  have hKinds : ∀ key, kindAt limiters rest (request limiters db x).1 key = kinds key := fun key =>
    (kindAt_request hTtl h.lasting x rest key).trans (h.kinds key)
  cases hValid : blank x.2.1 with
  | true =>
    rw [request_of_blank hValid] at hKinds ⊢
    rw [request_of_blank hValid]
    exact ⟨rfl, h.lasting, h.lasting', h.part, h.fits, hKinds⟩
  | false =>
    obtain rfl := hFamily
    have hFits := fits_of_kindAt ((h.kinds _).trans hKind)
    obtain ⟨hReply, hPart⟩ := Algorithm.body_alike _ (h.part (fullKey limiters x))
      (milliseconds (limiters x.1).opts.keyTTL) x.2.2
    rw [← Algorithm.run_of_fits (h.lasting _) hFits,
      ← Algorithm.run_of_fits (h.lasting' _) (h.fits (fullKey limiters x))] at hReply hPart
    have hAfter : Cell.Fits ((limiters x.1).decide (db' (fullKey limiters x)) x.2.2).1
        (family limiters x) := by
      rcases decide_cases hTtl (h.lasting' (fullKey limiters x)) with ⟨-, e, he, -, hFit⟩ | ⟨hNot, -⟩
      · rw [he]
        rintro e' ⟨⟩
        exact hFit
      · exact absurd (h.fits _) hNot
    refine ⟨?_, hLasting, hLasting', ?_, ?_, hKinds⟩
    · rw [request_of_valid hValid, request_of_valid hValid, Limiter.decide, hReply, Limiter.decide]
    · intro key
      rw [request_of_valid hValid, request_of_valid hValid]
      by_cases hKey : key = fullKey limiters x
      · subst hKey
        simp only [Function.update_self]
        exact hPart
      · simpa [Function.update_of_ne hKey] using h.part key
    · intro key
      rw [request_of_valid hValid]
      by_cases hKey : key = fullKey limiters x
      · subst hKey
        simpa using hAfter
      · simpa [Function.update_of_ne hKey] using h.fits key

theorem Projects.other (h : Projects limiters f kinds (x :: rest) db db')
    (hOther : ¬ (family limiters x = f ∧ kinds (fullKey limiters x) = some f.kind)) :
    Projects limiters f kinds rest (request limiters db x).1 db' := by
  refine ⟨lasting_request hTtl h.lasting x, h.lasting', ?_, h.fits,
    fun key => (kindAt_request hTtl h.lasting x rest key).trans (h.kinds key)⟩
  intro key
  rw [← h.part key]
  cases hValid : blank x.2.1 with
  | true => rw [request_of_blank hValid]
  | false =>
    rw [request_of_valid hValid]
    by_cases hKey : key = fullKey limiters x
    · subst hKey
      dsimp only
      rw [Function.update_self]
      by_cases hFits : (db (fullKey limiters x)).Fits (family limiters x)
      · have hNe : family limiters x ≠ f := by
          rintro rfl
          exact hOther ⟨rfl, (h.kinds _).symm.trans (kindAt_of_fits hValid hFits)⟩
        rw [Limiter.decide, Algorithm.run_of_fits (h.lasting _) hFits]
        exact Algorithm.body_other _ hNe hFits (hTtl x.1) (h.lasting _) x.2.2
      · rw [Limiter.decide, Algorithm.run_of_not_fits (h.lasting _) hFits]
    · dsimp only
      rw [Function.update_of_ne hKey]

/-- Where no key has a TTL the first request on a key decides which type its
value has.  From then on the limiters of the other type get the answer of
their error policy there.  The others are answered as if only limiters with
their own script were on the server. -/
theorem first_kind_wins (requests : List (ι × List UInt8 × Int × M)) :
    (∀ x ∈ serve (request limiters) emptyDatabase requests, blank x.1.2.1 = false →
      firstKind limiters requests (fullKey limiters x.1) ≠ some (family limiters x.1).kind →
      x.2 = ((limiters x.1.1).opts.fallback, none)) ∧
    ∀ f : Family,
      (serve (request limiters) emptyDatabase requests).filter
          (fun x => native limiters requests f x.1) =
        serve (request limiters) emptyDatabase (requests.filter (native limiters requests f)) := by
  have hEmpty : Lasting (emptyDatabase : Database M) := by
    rintro key e ⟨⟩
  refine ⟨fun x hx hValid hKind => fallback_of_kindAt hTtl hEmpty hx hValid hKind, ?_⟩
  intro f
  refine serve_filter (native limiters requests f)
    (R := Projects limiters f (firstKind limiters requests)) ?_ ?_ ?_
  · intro x rest db db' h hOwn
    simp only [native, Bool.and_eq_true, decide_eq_true_eq] at hOwn
    exact h.own hTtl hOwn.1 hOwn.2
  · intro x rest db db' h hOther
    refine h.other hTtl fun hOwn => ?_
    simp [native, hOwn] at hOther
  · refine ⟨hEmpty, hEmpty, fun _ => rfl, ?_, fun _ => rfl⟩
    rintro key e ⟨⟩

end FirstKind

/-- One limiter of each script, all with the default prefix and no TTL. -/
def onePrefix (f : Family) : Limiter where
  opts := { keyTTL := 0 }
  algorithm :=
    match f with
    | .tokenBucket => .tokenBucket .onePerSecond
    | .leakyBucket => .leakyBucket .onePerSecond
    | .slidingWindow => .slidingWindow 1 1000000000 Int.one_pos

/-- Both buckets come before the window on one key, and after it on another. -/
def sharedRun : List (Family × List UInt8 × Int × Nat) :=
  [(.slidingWindow, [97], 0, 0), (.tokenBucket, [98], 0, 0), (.leakyBucket, [98], 0, 0),
    (.tokenBucket, [97], 1, 0), (.leakyBucket, [97], 1, 0), (.slidingWindow, [98], 1, 1),
    (.tokenBucket, [98], 2, 0), (.leakyBucket, [98], 2, 0), (.slidingWindow, [97], 2, 2)]

theorem first_kind_wins_sharedRun :
    (∀ f, milliseconds (onePrefix f).opts.keyTTL ≤ 0) ∧
    (∀ x ∈ [(Family.tokenBucket, [97], 1, 0), (.leakyBucket, [97], 1, 0), (.slidingWindow, [98], 1, 1)],
      (x, ((⟨false, 0, 0⟩ : Result), none)) ∈ serve (request onePrefix) emptyDatabase sharedRun) ∧
    (serve (request onePrefix) emptyDatabase sharedRun).filter
        (fun x => native onePrefix sharedRun .leakyBucket x.1) =
      serve (request onePrefix) emptyDatabase
        [(.leakyBucket, [98], 0, 0), (.leakyBucket, [98], 2, 0)] := by
  have hTtl : ∀ f, milliseconds (onePrefix f).opts.keyTTL ≤ 0 := fun _ => le_rfl
  refine ⟨hTtl, ?_, (first_kind_wins hTtl sharedRun).2 .leakyBucket⟩
  decide +kernel

end Kaka.Redis
