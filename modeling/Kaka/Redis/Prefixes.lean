import Kaka.Redis.Keyspace

/-! # Prefixes that keep limiters apart

The keys of two limiters never meet if neither prefix starts the other.  If
one does, the longer prefix can be completed to a key of both.
-/

namespace Kaka.Redis

variable {M : Type} [LinearOrder M]

/-- The databases agree on the keys of the limiter. -/
def Limiter.Sees (l : Limiter) (db db' : Database M) : Prop := ∀ key, db (l.keyFor key) = db' (l.keyFor key)

theorem Limiter.Sees.own {l : Limiter} {db db' : Database M} (h : l.Sees db db') (x : List UInt8 × Int × M) :
    (l.allow db x).2 = (l.allow db' x).2 ∧ l.Sees (l.allow db x).1 (l.allow db' x).1 := by
  unfold Limiter.allow
  cases validateKey x.1 with
  | some err => exact ⟨rfl, h⟩
  | none =>
    simp only [h x.1]
    refine ⟨trivial, fun key => ?_⟩
    by_cases hKey : l.keyFor key = l.keyFor x.1
    · rw [hKey, Function.update_self, Function.update_self]
    · rw [Function.update_of_ne hKey, Function.update_of_ne hKey, h key]

/-- Neither prefix starts the other. -/
def Limiter.Apart (l l' : Limiter) : Prop :=
  ¬ l.keyPrefix <+: l'.keyPrefix ∧ ¬ l'.keyPrefix <+: l.keyPrefix

theorem Limiter.Apart.keyFor_ne {l l' : Limiter} (h : l.Apart l') (key key' : List UInt8) :
    l.keyFor key ≠ l'.keyFor key' := by
  intro hEq
  have hOther : l'.keyPrefix <+: l.keyFor key := hEq ▸ List.prefix_append l'.keyPrefix key'
  rcases List.prefix_or_prefix_of_prefix (List.prefix_append l.keyPrefix key) hOther with hPre | hPre
  · exact h.1 hPre
  · exact h.2 hPre

theorem Limiter.Sees.other {l l' : Limiter} {db db' : Database M} (h : l.Sees db db') (hApart : l.Apart l')
    (x : List UInt8 × Int × M) : l.Sees (l'.allow db x).1 db' := by
  unfold Limiter.allow
  cases validateKey x.1 with
  | some err => exact h
  | none =>
    intro key
    exact (Function.update_of_ne (hApart.keyFor_ne key x.1) _ _).trans (h key)

section OneKey

variable {ι : Type} {limiters : ι → Limiter} {i : ι}

theorem serve_one_key {key : List UInt8} (hValid : blank key = false) (db : Database M)
    (xs : List (Int × M)) :
    (serve (request limiters) db (xs.map fun x => (i, key, x))).map (fun y => (y.1.2.2, y.2.1)) =
      serve (limiters i).decide (db ((limiters i).keyFor key)) xs := by
  induction xs generalizing db with
  | nil => rfl
  | cons x rest ih =>
    rw [List.map_cons, serve_cons, List.map_cons, ih, serve_cons, request_of_valid hValid]
    simp [fullKey]

theorem after_one_key {key : List UInt8} (hValid : blank key = false) (db : Database M)
    (xs : List (Int × M)) :
    after (request limiters) db (xs.map fun x => (i, key, x)) ((limiters i).keyFor key) =
      after (limiters i).decide (db ((limiters i).keyFor key)) xs := by
  induction xs generalizing db with
  | nil => rfl
  | cons x rest ih =>
    have hRest := ih (request limiters db (i, key, x)).1
    have hCell : (request limiters db (i, key, x)).1 ((limiters i).keyFor key) =
        ((limiters i).decide (db ((limiters i).keyFor key)) x).1 := by
      rw [request_of_valid hValid]
      exact Function.update_self ..
    rw [hCell] at hRest
    exact hRest

end OneKey

section Isolation

variable {ι : Type} [DecidableEq ι]

/-- The requests on the other limiters change no answer of `i`. -/
def Isolated (M : Type) [LinearOrder M] (limiters : ι → Limiter) (i : ι) : Prop :=
  ∀ requests : List (ι × List UInt8 × Int × M),
    (serve (request limiters) emptyDatabase requests).filter (fun x => x.1.1 = i) =
      serve (request limiters) emptyDatabase (requests.filter fun x => x.1 = i)

variable {limiters : ι → Limiter} {i j : ι}

theorem isolated_of_apart (hApart : ∀ j, j ≠ i → (limiters i).Apart (limiters j)) :
    Isolated M limiters i := by
  intro requests
  refine serve_filter (fun x : ι × _ => x.1 = i) (R := fun _ db db' => (limiters i).Sees db db') ?_ ?_ fun _ => rfl
  · rintro ⟨j, x⟩ rest db db' hSees hOwn
    obtain rfl : j = i := by simpa using hOwn
    exact hSees.own x
  · rintro ⟨j, x⟩ rest db db' hSees hOther
    exact hSees.other (hApart j (by simpa using hOther)) x

/-! ## A key of two limiters -/

/-- Some requests on `l` are answered otherwise after some on `l'`, all on one
key of the server. -/
def Limiter.Disturbs (M : Type) [LinearOrder M] (l' l : Limiter) : Prop :=
  ∃ before own : List (Int × M), serve l.decide (after l'.decide none before) own ≠ serve l.decide none own

theorem not_isolated_of_shared_key (hNe : j ≠ i) {key key' : List UInt8} (hValid : blank key = false)
    (hValid' : blank key' = false) (hShared : (limiters j).keyFor key' = (limiters i).keyFor key)
    (hDisturbs : (limiters j).Disturbs M (limiters i)) : ¬ Isolated M limiters i := by
  obtain ⟨before, own, hDiffer⟩ := hDisturbs
  intro hIsolated
  have hRun := hIsolated (before.map (fun x => (j, key', x)) ++ own.map fun x => (i, key, x))
  have hOthers : ∀ x ∈ serve (request limiters) emptyDatabase (before.map fun x => (j, key', x)),
      x.1.1 = j := by
    intro x hx
    obtain ⟨y, -, hy⟩ := List.mem_map.mp (fst_mem_of_mem_serve hx)
    rw [← hy]
  have hOwn : ∀ db, ∀ x ∈ serve (request limiters) db (own.map fun x => (i, key, x)), x.1.1 = i := by
    intro db x hx
    obtain ⟨y, -, hy⟩ := List.mem_map.mp (fst_mem_of_mem_serve hx)
    rw [← hy]
  rw [serve_append, List.filter_append, List.filter_append,
    List.filter_eq_nil_iff.mpr fun x hx => by simp [hOthers x hx, hNe],
    List.filter_eq_self.mpr fun x hx => by simp [hOwn _ x hx],
    List.filter_eq_nil_iff.mpr fun x hx => by
      obtain ⟨y, -, rfl⟩ := List.mem_map.mp hx
      simp [hNe],
    List.filter_eq_self.mpr fun x hx => by
      obtain ⟨y, -, rfl⟩ := List.mem_map.mp hx
      simp, List.nil_append, List.nil_append] at hRun
  have hAnswers := congrArg (List.map fun y => (y.1.2.2, y.2.1)) hRun
  rw [serve_one_key hValid, serve_one_key hValid, ← hShared, after_one_key hValid'] at hAnswers
  exact hDiffer hAnswers

end Isolation

/-! ## Two requests on one key in one millisecond -/

/-- What remains is counted exactly, and a window lasts longer than its
millisecond. -/
def Algorithm.Exact : Algorithm → Prop
  | .tokenBucket _ => True
  | .leakyBucket rates => rates.capacity < 2 ^ 63
  | .slidingWindow limit window _ => limit ≤ 2 ^ 53 ∧ 1000000 ≤ window

section Moment

def written (ttlMs : Int) (value : Datum M) : Cell M := some ⟨value, deadlineAfter ttlMs 0⟩

theorem find_written (ttlMs : Int) (value : Datum M) : find 0 (written ttlMs value) = written ttlMs value :=
  find_deadlineAfter value (by omega)

theorem pexpire_written {ttlMs : Int} (value : Datum M) :
    some (pexpire ttlMs 0 ⟨value, deadlineAfter ttlMs 0⟩) = written ttlMs value :=
  congrArg some (pexpire_eq (fun hTtl => deadlineAfter_of_le hTtl 0) 0)

theorem pexpire_new {ttlMs : Int} (value : Datum M) :
    some (pexpire ttlMs 0 ⟨value, none⟩) = written ttlMs value :=
  congrArg some (pexpire_eq (fun _ => rfl) 0)

theorem Algorithm.run_written {a : Algorithm} {value : Datum M} (hKind : value.kind = a.family.kind)
    (ttlMs ttlMs' : Int) (member : M) :
    a.run ttlMs (written ttlMs' value) (0, member) = a.body ttlMs (written ttlMs' value) (0, member) := by
  unfold Algorithm.run
  rw [find_written]
  exact if_pos (by simp [written, hKind])

theorem Algorithm.run_written_other {a : Algorithm} {value : Datum M} (hKind : value.kind ≠ a.family.kind)
    (ttlMs ttlMs' : Int) (member : M) :
    a.run ttlMs (written ttlMs' value) (0, member) = (written ttlMs' value, none) := by
  unfold Algorithm.run
  rw [find_written]
  exact if_neg (by simp [written, hKind])

def Algorithm.first (member : M) : Algorithm → Datum M
  | .tokenBucket rates => .hash (some ⟨rates.capacity - 1, 0⟩) none
  | .leakyBucket _ => .hash none (some ⟨1, 0⟩)
  | .slidingWindow _ _ _ => .zset (SortedSet.empty.add 0 member)

def Algorithm.room : Algorithm → Int
  | .tokenBucket rates => ⌊rates.capacity - 1⌋
  | .leakyBucket rates => ⌊rates.capacity - 1⌋
  | .slidingWindow limit _ _ => luaNumber (luaNumber (luaNumber limit - luaNumber (0 : Nat)) - 1)

theorem kind_first (a : Algorithm) (member : M) : (a.first member).kind = a.family.kind := by
  cases a <;> rfl

theorem TokenBucket.body_at_once (rates : Rates) (tokens : ℚ) :
    TokenBucket.body rates (some ⟨tokens, 0⟩) 0 = TokenBucket.decide rates tokens 0 := by
  simp [TokenBucket.body, guarded, TokenBucket.refill]

theorem LeakyBucket.body_at_once (rates : Rates) (water : ℚ) :
    LeakyBucket.body rates (some ⟨water, 0⟩) 0 = LeakyBucket.decide rates water 0 := by
  simp [LeakyBucket.body, guarded, LeakyBucket.leak]

theorem Entry.map_pexpire {α β : Type} (f : α → β) (ttlMs now : Int) (e : Entry α) :
    (pexpire ttlMs now e).map f = pexpire ttlMs now (e.map f) := by
  unfold pexpire
  split <;> rfl

theorem SlidingWindow.script_new {limit : Int} (hLimit : 0 < limit) (windowMs ttlMs : Int) (member : M) :
    script limit windowMs ttlMs none (0, member) =
      (some (pexpire ttlMs 0 ⟨SortedSet.empty.add 0 member, none⟩),
        some ⟨1, luaNumber (luaNumber (luaNumber limit - luaNumber (0 : Nat)) - 1), 0⟩) := by
  have hRoom : luaNumber (zcard (none : Key M)) < luaNumber limit := luaNumber_pos hLimit
  have hEmpty : ∀ top, zremrangebyscore top (find 0 (none : Key M)) = none := fun _ => rfl
  simp only [script, scriptOn, hEmpty, if_pos hRoom, luaNumber_zero]
  rfl

theorem Algorithm.run_new (a : Algorithm) (ttlMs : Int) (member : M) :
    a.run ttlMs none (0, member) = (written ttlMs (a.first member), some ⟨1, a.room, 0⟩) := by
  change a.body ttlMs none (0, member) = _
  cases a with
  | tokenBucket rates =>
    have hBody : TokenBucket.body rates none 0 =
        (⟨rates.capacity - 1, 0⟩, ⟨1, ⌊rates.capacity - 1⌋, 0⟩) := by
      simp [TokenBucket.body, TokenBucket.refill, TokenBucket.decide, rates.one_le]
    simp only [Algorithm.body, Cell.token, Cell.leaky, Option.bind_none, hBody, pexpire_new]
    rfl
  | leakyBucket rates =>
    have hBody : LeakyBucket.body rates none 0 = (⟨1, 0⟩, ⟨1, ⌊rates.capacity - 1⌋, 0⟩) := by
      simp [LeakyBucket.body, LeakyBucket.leak, LeakyBucket.decide, rates.one_le]
    simp only [Algorithm.body, Cell.token, Cell.leaky, Option.bind_none, hBody, pexpire_new]
    rfl
  | slidingWindow limit window limit_pos =>
    simp only [Algorithm.body, Cell.zset, Option.bind_none, SlidingWindow.script_new limit_pos,
      Option.map_some, Entry.map_pexpire]
    exact Prod.ext (pexpire_new _) rfl

theorem SlidingWindow.zremrangebyscore_new {top : Int} (hTop : top < 0) (member : M) (deadline : Option Int) :
    zremrangebyscore top (some ⟨SortedSet.empty.add 0 member, deadline⟩) =
      some ⟨SortedSet.empty.add 0 member, deadline⟩ := by
  have hKept : (SortedSet.empty.add 0 member).removeUpTo top = SortedSet.empty.add 0 member := by
    simp [SortedSet.removeUpTo, SortedSet.add, SortedSet.others, SortedSet.empty, hTop]
  have hCard : (SortedSet.empty.add (0 : Int) member).card = 1 := rfl
  simp only [zremrangebyscore, Option.bind_some, hKept, hCard, one_ne_zero, if_false]

theorem SlidingWindow.reply_second {limit windowMs : Int} (hWindow : 0 < windowMs) (hLimit : 0 < limit)
    (hSmall : limit ≤ 2 ^ 53) (ttlMs ttlMs' : Int) (member member' : M) :
    ∃ r, (script limit windowMs ttlMs (some ⟨SortedSet.empty.add 0 member, deadlineAfter ttlMs' 0⟩)
        (0, member')).2 = some r ∧ (r.allowed = 0 ∨ r.remaining = limit - 1 - 1 ∧ 0 < limit - 1) := by
  have hStart : luaNumber (luaNumber 0 - luaNumber windowMs) < 0 := by
    have hPos : 0 < luaNumber windowMs := luaNumber_zero ▸ luaNumber_pos hWindow
    have hPos' : 0 < luaNumber (luaNumber windowMs) := luaNumber_zero ▸ luaNumber_pos hPos
    rw [luaNumber_zero, zero_sub, luaNumber_neg]
    omega
  have hPruned : zremrangebyscore (luaNumber (luaNumber 0 - luaNumber windowMs))
      (find 0 (some ⟨SortedSet.empty.add 0 member, deadlineAfter ttlMs' 0⟩)) =
        some ⟨SortedSet.empty.add 0 member, deadlineAfter ttlMs' 0⟩ := by
    rw [find_deadlineAfter _ (by omega), zremrangebyscore_new hStart]
  have hOne : luaNumber (zcard (some (⟨SortedSet.empty.add 0 member, deadlineAfter ttlMs' 0⟩ :
      Entry (SortedSet Int M)))) = 1 := luaNumber_of_le (x := 1) (by norm_num)
  have hExact : ∀ x, 0 ≤ x → x ≤ limit → luaNumber x = x := by
    intro x hLow hHigh
    exact luaNumber_of_le (by rw [abs_of_nonneg hLow]; omega)
  simp only [script, scriptOn, hPruned, hOne, hExact limit hLimit.le le_rfl]
  split
  · refine ⟨_, rfl, .inr ?_⟩
    dsimp only
    rw [hExact (limit - 1) (by omega) (by omega), hExact (limit - 1 - 1) (by omega) (by omega)]
    omega
  · exact ⟨_, rfl, .inl rfl⟩

theorem Algorithm.room_slidingWindow {limit window : Int} (hLimit : 0 < limit) (hSmall : limit ≤ 2 ^ 53) :
    (Algorithm.slidingWindow limit window hLimit).room = limit - 1 := by
  have hExact : luaNumber limit = limit := luaNumber_of_le (by rw [abs_of_pos hLimit]; omega)
  rw [Algorithm.room, Nat.cast_zero, luaNumber_zero, sub_zero, hExact, hExact]
  exact luaNumber_of_le (by rw [abs_of_nonneg (by omega)]; omega)

theorem Algorithm.reply_second {a : Algorithm} (hExact : a.Exact) (ttlMs ttlMs' : Int) (member member' : M) :
    ∃ r, (a.run ttlMs (written ttlMs' (a.first member)) (0, member')).2 = some r ∧
      (r.allowed = 0 ∨ r.remaining = a.room - 1 ∧ 0 < a.room) := by
  rw [Algorithm.run_written (kind_first a member)]
  cases a with
  | tokenBucket rates =>
    refine ⟨(TokenBucket.body rates (some ⟨rates.capacity - 1, 0⟩) 0).2, rfl, ?_⟩
    rw [TokenBucket.body_at_once, TokenBucket.decide]
    split
    · rename_i hToken
      exact .inr ⟨Int.floor_sub_one _, Int.floor_pos.mpr hToken⟩
    · exact .inl rfl
  | leakyBucket rates =>
    refine ⟨(LeakyBucket.body rates (some ⟨1, 0⟩) 0).2, rfl, ?_⟩
    rw [LeakyBucket.body_at_once, LeakyBucket.decide]
    split
    · rename_i hRoom
      refine .inr ⟨?_, Int.floor_pos.mpr (by linarith)⟩
      rw [Algorithm.room, ← Int.floor_sub_one, sub_sub]
    · exact .inl rfl
  | slidingWindow limit window limit_pos =>
    obtain ⟨hLimit, hWindow⟩ := hExact
    have hMs : 0 < milliseconds window := by
      rw [milliseconds, Int.tdiv_eq_ediv_of_nonneg (by omega)]
      omega
    rw [Algorithm.room_slidingWindow limit_pos hLimit]
    exact SlidingWindow.reply_second hMs limit_pos hLimit ttlMs ttlMs' member member'

variable {l l' : Limiter}

theorem decide_new (l : Limiter) (member : M) :
    l.decide none (0, member) =
      (written (milliseconds l.opts.keyTTL) (l.algorithm.first member), decode ⟨1, l.algorithm.room, 0⟩) := by
  rw [Limiter.decide, Algorithm.run_new]
  rfl

theorem allowed_second (hExact : l.algorithm.Exact) (ttlMs : Int) (member member' : M)
    (hAllowed : (l.decide (written ttlMs (l.algorithm.first member)) (0, member')).2.allowed = true) :
    (l.decide (written ttlMs (l.algorithm.first member)) (0, member')).2.remaining =
      toInt64 (l.algorithm.room - 1) ∧ 0 < l.algorithm.room := by
  obtain ⟨r, hReply, hCases⟩ := Algorithm.reply_second hExact (milliseconds l.opts.keyTTL) ttlMs member member'
  have hResult : (l.decide (written ttlMs (l.algorithm.first member)) (0, member')).2 = decode r := by
    rw [Limiter.decide, hReply]
    rfl
  rw [hResult, allowed_decode] at hAllowed
  rw [hResult]
  rcases hCases with hDenied | ⟨hLeft, hRoom⟩
  · rw [hDenied] at hAllowed
    cases hAllowed
  · exact ⟨congrArg toInt64 hLeft, hRoom⟩

/-- One request on `l'` leaves the state of one on `l`. -/
theorem disturbs_of_first (hExact : l.algorithm.Exact) (hRoom : l.algorithm.room < 2 ^ 63) (member : M)
    (hFirst : l'.algorithm.first member = l.algorithm.first member) : l'.Disturbs M l := by
  refine ⟨[(0, member)], [(0, member)], fun hSame => ?_⟩
  have hAfter : after l'.decide none [(0, member)] =
      written (milliseconds l'.opts.keyTTL) (l.algorithm.first member) := by
    rw [← hFirst]
    exact congrArg Prod.fst (decide_new l' member)
  rw [hAfter, serve_cons, serve_cons, decide_new] at hSame
  have hResult := congrArg Prod.snd (List.cons.inj hSame).1
  obtain ⟨hLeft, hPos⟩ := allowed_second hExact (milliseconds l'.opts.keyTTL) member member
    (congrArg Result.allowed hResult)
  have hOneLess : toInt64 (l.algorithm.room - 1) = toInt64 l.algorithm.room :=
    hLeft.symm.trans (congrArg Result.remaining hResult)
  rw [toInt64_of_mem (by omega) (by omega), toInt64_of_mem hPos.le hRoom] at hOneLess
  omega

theorem disturbs_of_kind_ne (hExact : l.algorithm.Exact) (member : M)
    (hKind : l'.algorithm.family.kind ≠ l.algorithm.family.kind) : l'.Disturbs M l := by
  refine ⟨[(0, member)], [(0, member), (0, member)], fun hSame => ?_⟩
  have hAfter : after l'.decide none [(0, member)] =
      written (milliseconds l'.opts.keyTTL) (l'.algorithm.first member) :=
    congrArg Prod.fst (decide_new l' member)
  have hFails : l.decide (written (milliseconds l'.opts.keyTTL) (l'.algorithm.first member)) (0, member) =
      (written (milliseconds l'.opts.keyTTL) (l'.algorithm.first member), l.opts.fallback) := by
    rw [Limiter.decide, Algorithm.run_written_other (by rw [kind_first]; exact hKind)]
    rfl
  rw [hAfter, serve_cons, serve_cons, serve_cons, serve_cons, hFails, hFails, decide_new] at hSame
  obtain ⟨hFirst, hRest⟩ := List.cons.inj hSame
  have hOne : l.opts.fallback = decode ⟨1, l.algorithm.room, 0⟩ := congrArg Prod.snd hFirst
  have hTwo : l.opts.fallback = (l.decide _ (0, member)).2 := congrArg Prod.snd (List.cons.inj hRest).1
  have hAllowed : l.opts.fallback.allowed = true := hOne ▸ rfl
  have hZero : toInt64 l.algorithm.room = 0 := by
    have hLeft := congrArg Result.remaining hOne
    unfold Options.fallback at hLeft
    split at hLeft <;> exact hLeft.symm
  rw [hTwo] at hAllowed
  have hPos := (allowed_second hExact _ member member hAllowed).2
  unfold toInt64 at hZero
  split at hZero <;> omega

theorem decide_tokens {rates : Rates} (hToken : l.algorithm = .tokenBucket rates) (ttlMs : Int) (tokens : ℚ)
    (member : M) :
    l.decide (written ttlMs (.hash (some ⟨tokens, 0⟩) none)) (0, member) =
      (some (pexpire (milliseconds l.opts.keyTTL) 0
          ⟨.hash (some (TokenBucket.decide rates tokens 0).1) none, deadlineAfter ttlMs 0⟩),
        decode (TokenBucket.decide rates tokens 0).2) := by
  rw [Limiter.decide, hToken, Algorithm.run_written rfl, ← TokenBucket.body_at_once]
  rfl

/-- Requests in one millisecond take the tokens that are there. -/
theorem after_tokens {rates : Rates} (hToken : l.algorithm = .tokenBucket rates) (member : M) {n : Nat}
    (tokens : ℚ) (hEnough : n ≤ tokens) :
    after l.decide (written (milliseconds l.opts.keyTTL) (.hash (some ⟨tokens, 0⟩) none))
        (List.replicate n (0, member)) =
      written (milliseconds l.opts.keyTTL) (.hash (some ⟨tokens - n, 0⟩) none) := by
  induction n generalizing tokens with
  | zero => simp [after]
  | succ n ih =>
    have hOne : 1 ≤ tokens := by
      push_cast at hEnough
      linarith [n.cast_nonneg (α := ℚ)]
    have hStep : (l.decide (written (milliseconds l.opts.keyTTL) (.hash (some ⟨tokens, 0⟩) none))
        (0, member)).1 = written (milliseconds l.opts.keyTTL) (.hash (some ⟨tokens - 1, 0⟩) none) := by
      rw [decide_tokens hToken, TokenBucket.decide, if_pos hOne]
      exact pexpire_written _
    have hRest := ih (tokens - 1) (by push_cast at hEnough; linarith)
    rw [List.replicate_succ, after, List.foldl_cons, hStep]
    refine hRest.trans ?_
    push_cast
    rw [sub_sub, add_comm]

/-- Once the tokens are gone every token bucket denies. -/
theorem disturbs_of_tokens {rates rates' : Rates} (hToken : l.algorithm = .tokenBucket rates)
    (hToken' : l'.algorithm = .tokenBucket rates') (member : M) : l'.Disturbs M l := by
  have hLow : 0 ≤ rates'.capacity - 1 := by linarith [rates'.one_le]
  refine ⟨List.replicate (⌊rates'.capacity - 1⌋₊ + 1) (0, member), [(0, member)], fun hSame => ?_⟩
  have hAfter : after l'.decide none (List.replicate (⌊rates'.capacity - 1⌋₊ + 1) (0, member)) =
      written (milliseconds l'.opts.keyTTL)
        (.hash (some ⟨rates'.capacity - 1 - ⌊rates'.capacity - 1⌋₊, 0⟩) none) := by
    rw [List.replicate_succ, after, List.foldl_cons, decide_new, hToken']
    exact after_tokens hToken' member _ (Nat.floor_le hLow)
  rw [hAfter, serve_cons, serve_cons, decide_new] at hSame
  have hGone : ¬ 1 ≤ rates'.capacity - 1 - ⌊rates'.capacity - 1⌋₊ := by
    linarith [Nat.lt_floor_add_one (rates'.capacity - 1)]
  rw [decide_tokens hToken, TokenBucket.decide, if_neg hGone] at hSame
  cases congrArg Result.allowed (congrArg Prod.snd (List.cons.inj hSame).1)

theorem Algorithm.room_lt {a : Algorithm} (hExact : a.Exact) (hFamily : a.family ≠ .tokenBucket) :
    a.room < 2 ^ 63 := by
  cases a with
  | tokenBucket rates => exact absurd rfl hFamily
  | leakyBucket rates =>
    have hCapacity : rates.capacity < 2 ^ 63 := hExact
    refine Int.floor_lt.mpr ?_
    push_cast
    linarith
  | slidingWindow limit window limit_pos =>
    rw [Algorithm.room_slidingWindow limit_pos hExact.1]
    have := hExact.1
    omega

theorem Algorithm.first_eq {a a' : Algorithm} (hSame : a'.family = a.family)
    (hFamily : a.family ≠ .tokenBucket) (member : M) : a'.first member = a.first member := by
  cases a with
  | tokenBucket rates => exact absurd rfl hFamily
  | leakyBucket rates =>
    cases a' with
    | leakyBucket rates' => rfl
    | tokenBucket rates' | slidingWindow limit' window' limit_pos' => cases hSame
  | slidingWindow limit window limit_pos =>
    cases a' with
    | slidingWindow limit' window' limit_pos' => rfl
    | tokenBucket rates' | leakyBucket rates' => cases hSame

theorem Algorithm.exists_of_family {a : Algorithm} (hFamily : a.family = .tokenBucket) :
    ∃ rates, a = .tokenBucket rates := by
  cases a with
  | tokenBucket rates => exact ⟨rates, rfl⟩
  | leakyBucket rates | slidingWindow limit window limit_pos => cases hFamily

theorem disturbs (hExact : l.algorithm.Exact) (member : M)
    (hMeets : l'.algorithm.family.kind = l.algorithm.family.kind →
      l'.algorithm.family = l.algorithm.family) : l'.Disturbs M l := by
  by_cases hKind : l'.algorithm.family.kind = l.algorithm.family.kind
  · have hSame := hMeets hKind
    by_cases hFamily : l.algorithm.family = .tokenBucket
    · obtain ⟨rates, hToken⟩ := Algorithm.exists_of_family hFamily
      obtain ⟨rates', hToken'⟩ := Algorithm.exists_of_family (hSame.trans hFamily)
      exact disturbs_of_tokens hToken hToken' member
    · exact disturbs_of_first hExact (Algorithm.room_lt hExact hFamily) member
        (Algorithm.first_eq hSame hFamily member)
  · exact disturbs_of_kind_ne hExact member hKind

end Moment

theorem blank_of_mem {key : List UInt8} (hMem : 97 ∈ key) : blank key = false := by
  fun_induction blank key with
  | case1 => cases hMem
  | case2 rest ih | case3 rest ih | case4 rest ih | case6 rest ih | case7 rest ih =>
    refine ih ?_
    simpa using hMem
  | case5 c rest ih =>
    obtain rfl | hRest : 97 = c ∨ 97 ∈ rest := by simpa using hMem
    · rfl
    · rw [ih hRest, Bool.and_false]
  | case8 b rest _ _ _ _ _ _ ih =>
    rcases List.mem_cons.mp hMem with rfl | hRest
    · rfl
    · rw [ih hRest, Bool.and_false]

/-- Unless the prefixes are apart there is a key of both limiters. -/
theorem exists_shared_key {l l' : Limiter} (h : ¬ l.Apart l') :
    ∃ key key', blank key = false ∧ blank key' = false ∧ l'.keyFor key' = l.keyFor key := by
  have hComparable : l.keyPrefix <+: l'.keyPrefix ∨ l'.keyPrefix <+: l.keyPrefix := by
    by_contra hNot
    exact h (not_or.mp hNot)
  rcases hComparable with ⟨rest, hRest⟩ | ⟨rest, hRest⟩
  · refine ⟨rest ++ [97], [97], blank_of_mem (by simp), rfl, ?_⟩
    rw [Limiter.keyFor, Limiter.keyFor, ← hRest, List.append_assoc]
  · refine ⟨[97], rest ++ [97], rfl, blank_of_mem (by simp), ?_⟩
    rw [Limiter.keyFor, Limiter.keyFor, ← hRest, List.append_assoc]

/-- A limiter is answered as if it were alone on the server just if no other
limiter's prefix starts its own, or the other way round.  A token bucket and
a leaky bucket are not compared here: they keep apart on one key. -/
theorem prefixes_isolate_iff {ι : Type} [DecidableEq ι] [Inhabited M] {limiters : ι → Limiter} {i : ι}
    (hExact : (limiters i).algorithm.Exact)
    (hMeets : ∀ j, (limiters j).algorithm.family.kind = (limiters i).algorithm.family.kind →
      (limiters j).algorithm.family = (limiters i).algorithm.family) :
    Isolated M limiters i ↔ ∀ j, j ≠ i → (limiters i).Apart (limiters j) := by
  refine ⟨fun hIsolated j hNe => ?_, isolated_of_apart⟩
  by_contra hApart
  obtain ⟨key, key', hValid, hValid', hShared⟩ := exists_shared_key hApart
  exact not_isolated_of_shared_key hNe hValid hValid' hShared (disturbs hExact default (hMeets j)) hIsolated

/-- A window of one request a second for each of two prefixes, the second of
which starts with the first. -/
def nested (b : Bool) : Limiter where
  keyPrefix := if b then [107, 58, 98, 58] else [107, 58]
  algorithm := .slidingWindow 1 1000000000 Int.one_pos

theorem prefixes_isolate_iff_nested : ¬ Isolated Nat nested false := by
  have hExact : (nested false).algorithm.Exact := ⟨by norm_num, by norm_num⟩
  intro hIsolated
  have hApart := (prefixes_isolate_iff hExact fun _ _ => rfl).mp hIsolated true (by decide)
  exact hApart.1 (by decide)

end Kaka.Redis
