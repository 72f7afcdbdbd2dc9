import Kaka.Layered.Stack

/-! # What the sinks of the stack are told

Every call tells the sinks one story, whatever happens to it and to the calls
around it: where it was decided, what was decided, and the error where there
was one. So the counters of the sinks add up, and bound the calls that are
allowed even where errors are answered by allowing.
-/

namespace Kaka.Layered

open Interleaving Redis

open Memory (SinkCall tierSingle)

section Stories

variable {α : Type}

def reportNote (g : Config (Backend α) Frame Answer) : Act Task Input → List (Tid × Report)
  | .start _ => []
  | .step tid _ =>
    match g.threads[tid]? with
    | some ⟨_, .report (r :: _) _⟩ => [(tid, r)]
    | _ => []

/-- What the call `tid` has told. -/
def told (tid : Tid) (log : List (Tid × Report)) : List Report :=
  (log.filter fun x => x.1 == tid).map Prod.snd

variable (opts : Options) (k : Sinks) (key : List UInt8)

/-- The end of a call's story where the Redis limiter decides; `runs` are the
runs of the script. -/
inductive RemoteStory (tid : Tid) (runs : List Run) : List Report → Answer → Prop
  | served {run} (hRun : run ∈ runs) (hTid : run.tid = tid) :
      RemoteStory tid runs (k.served (decode run.reply)) (decode run.reply, none)
  | failed (err : String) : RemoteStory tid runs (k.failed opts err) (opts.fallback, none)

inductive Story (tid : Tid) (runs : List Run) : List Report → Answer → Prop
  | blank {err} (hKey : Layered.validateKey key = some err) :
      Story tid runs (k.emitError tierSingle err) (⟨false, 0, 0⟩, some err)
  | denied {r} (hDenied : r.allowed = false) : Story tid runs (k.emit tierLocal r) (r, none)
  | remote {reports a} (hRemote : RemoteStory opts k tid runs reports a) : Story tid runs reports a
  | localError {reports a} (err : String) (hRemote : RemoteStory opts k tid runs reports a) :
      Story tid runs (k.emitError tierLocal err ++ reports) a

/-- What a call has told before the Redis limiter is asked. -/
def Opening (reports : List Report) : Prop := reports = [] ∨ ∃ err, reports = k.emitError tierLocal err

/-- A call in progress has told the beginning of a story. -/
def Telling (tid : Tid) (runs : List Run) (reports : List Report) : Place → Prop
  | .enter | .flush | .flushed => reports = []
  | .consult => Layered.validateKey key = none ∧ reports = []
  | .remote | .load _ | .store _ | .eval _ => Layered.validateKey key = none ∧ Opening k reports
  | .report todo .remote => Layered.validateKey key = none ∧ Opening k (reports ++ todo)
  | .report todo (.done a) => Story opts k key tid runs (reports ++ todo) a
  | .done a => Story opts k key tid runs reports a

structure Stories (log : List (Tid × Report)) (g : Config (Backend α) Frame Answer) : Prop where
  telling : ∀ (tid : Tid) (t : Frame), g.threads[tid]? = some t →
    Telling opts k key tid g.shared.server.log (told tid log) t.place
  known : ∀ x ∈ log, x.1 < g.threads.length

end Stories

variable {α : Type} {script : Option (Entry α) → Int → Option (Entry α) × Reply} {name : String}
  {opts : Options} {k : Sinks} {key : List UInt8} {tid : Tid} {limiter : Nat} {b b' : Backend α}
  {input : Input} {place place' : Place} {log : List (Tid × Report)} {runs runs' : List Run}
  {reports : List Report} {a : Answer}

/-! ## One step -/

theorem RemoteStory.mono (h : RemoteStory opts k tid runs reports a) (hRuns : runs ⊆ runs') :
    RemoteStory opts k tid runs' reports a := by
  cases h with
  | served hRun hTid => exact .served (hRuns hRun) hTid
  | failed err => exact .failed err

theorem Story.mono (h : Story opts k key tid runs reports a) (hRuns : runs ⊆ runs') :
    Story opts k key tid runs' reports a := by
  cases h with
  | blank hKey => exact .blank hKey
  | denied hDenied => exact .denied hDenied
  | remote hRemote => exact .remote (hRemote.mono hRuns)
  | localError err hRemote => exact .localError err (hRemote.mono hRuns)

theorem Telling.mono (h : Telling opts k key tid runs reports place) (hRuns : runs ⊆ runs') :
    Telling opts k key tid runs' reports place := by
  cases place with
  | report todo next =>
    cases next with
    | remote => exact h
    | done a => exact Story.mono h hRuns
  | done a => exact Story.mono h hRuns
  | _ => exact h

theorem Opening.story (hOpening : Opening k reports) {rest : List Report}
    (hRemote : RemoteStory opts k tid runs rest a) : Story opts k key tid runs (reports ++ rest) a := by
  rcases hOpening with rfl | ⟨err, rfl⟩
  · exact .remote hRemote
  · exact .localError err hRemote

theorem redis_valid (hKey : Layered.validateKey key = none) : Redis.validateKey key = none := by
  unfold Layered.validateKey at hKey
  unfold Redis.validateKey
  split at hKey
  · cases hKey
  · rename_i hBlank
    exact if_neg hBlank

theorem telling_evalFailed (hKey : Layered.validateKey key = none) (hOpening : Opening k reports)
    (again : Bool) (err : String) :
    Telling opts k key tid runs reports (evalFailed name opts k again err) := by
  unfold evalFailed
  split
  · exact ⟨hKey, hOpening⟩
  · exact hOpening.story (.failed _)

/-- The report that the next step of a call makes. -/
def reportOf : Place → List Report
  | .report (r :: _) _ => [r]
  | _ => []

theorem Moves.server_cases (h : Moves script name opts k key tid limiter b input place b' place') :
    b'.server = b.server ∨ ∃ now, b'.server = b.server.run script tid now := by
  cases h with
  | served => exact .inr ⟨_, rfl⟩
  | repeated | evalLost =>
    unfold Backend.run
    split
    · exact .inr ⟨_, rfl⟩
    · exact .inl rfl
  | _ => exact .inl rfl

theorem Moves.runs_subset (h : Moves script name opts k key tid limiter b input place b' place') :
    b.server.log ⊆ b'.server.log := by
  rcases h.server_cases with hSame | ⟨now, hRun⟩
  · rw [hSame]
    exact List.Subset.refl _
  · rw [hRun]
    exact List.subset_append_left _ _

theorem Moves.telling (h : Moves script name opts k key tid limiter b input place b' place')
    (hTelling : Telling opts k key tid b.server.log reports place) :
    Telling opts k key tid b'.server.log (reports ++ reportOf place) place' := by
  have hRuns := h.runs_subset
  cases h with
  | blank hKey =>
    obtain rfl : reports = [] := hTelling
    exact .blank hKey
  | enter hKey =>
    obtain rfl : reports = [] := hTelling
    exact ⟨hKey, rfl⟩
  | @localError r err =>
    obtain ⟨hKey, rfl⟩ := hTelling
    exact ⟨hKey, .inr ⟨err, rfl⟩⟩
  | denied hDenied =>
    obtain ⟨_, rfl⟩ := hTelling
    exact .denied hDenied
  | passed =>
    obtain ⟨hKey, rfl⟩ := hTelling
    exact ⟨hKey, .inl rfl⟩
  | invalid hInvalid =>
    rw [redis_valid hTelling.1] at hInvalid
    cases hInvalid
  | cached | unknown | loaded | reload | store =>
    simp only [reportOf, List.append_nil]
    exact hTelling
  | loadLost | loadDown =>
    simp only [reportOf, List.append_nil]
    exact hTelling.2.story (.failed _)
  | served =>
    simp only [reportOf, List.append_nil]
    exact hTelling.2.story (.served (List.mem_append_right _ List.mem_cons_self) rfl)
  | missing | evalDown | evalLost =>
    simp only [reportOf, List.append_nil]
    exact telling_evalFailed hTelling.1 hTelling.2 _ _
  | repeated =>
    simp only [reportOf, List.append_nil]
    exact Telling.mono hTelling hRuns
  | @reported next =>
    simp only [reportOf, List.append_nil]
    cases next with
    | remote =>
      have hNow : Layered.validateKey key = none ∧ Opening k (reports ++ []) := hTelling
      rwa [List.append_nil] at hNow
    | done a =>
      have hNow : Story opts k key tid b.server.log (reports ++ []) a := hTelling
      rwa [List.append_nil] at hNow
  | @report r rest next =>
    cases next with
    | remote =>
      have hNow : Layered.validateKey key = none ∧ Opening k (reports ++ r :: rest) := hTelling
      rwa [List.append_cons] at hNow
    | done a =>
      have hNow : Story opts k key tid b.server.log (reports ++ r :: rest) a := hTelling
      rwa [List.append_cons] at hNow
  | flush =>
    obtain rfl : reports = [] := hTelling
    rfl

/-! ## Every run -/

section Runs

variable {g : Config (Backend α) Frame Answer} {t : Frame} {history : List (Event Answer)} {u : Tid}

theorem told_append (log log' : List (Tid × Report)) : told u (log ++ log') = told u log ++ told u log' := by
  rw [told, List.filter_append, List.map_append]
  rfl

theorem told_self (reports : List Report) : told tid (reports.map fun r => (tid, r)) = reports := by
  rw [told, List.filter_eq_self.mpr]
  · rw [List.map_map]
    exact List.map_id _
  · intro x hx
    obtain ⟨r, _, rfl⟩ := List.mem_map.mp hx
    exact beq_self_eq_true tid

theorem told_of_ne (hNe : u ≠ tid) (reports : List Report) : told u (reports.map fun r => (tid, r)) = [] := by
  rw [told, List.filter_eq_nil_iff.mpr]
  · rfl
  · intro x hx
    obtain ⟨r, _, rfl⟩ := List.mem_map.mp hx
    simp [Ne.symm hNe]

theorem reportNote_eq (ht : g.threads[tid]? = some t) :
    reportNote g (.step tid input) = (reportOf t.place).map fun r => (tid, r) := by
  obtain ⟨limiter, place⟩ := t
  simp only [reportNote, ht]
  cases place with
  | report todo next => cases todo <;> rfl
  | _ => rfl

theorem Stories.step (h : Stories opts k key log g) (ht : g.threads[tid]? = some t)
    (hMoves : Moves script name opts k key tid t.limiter g.shared input t.place b' place') :
    Stories opts k key (log ++ reportNote g (.step tid input))
      ⟨b', g.threads.set tid ⟨t.limiter, place'⟩, history⟩ := by
  rw [reportNote_eq ht]
  refine ⟨?_, ?_⟩
  · intro u x hx
    rw [told_append]
    rcases getElem?_set_cases hx ht with ⟨rfl, rfl⟩ | ⟨hNe, hx⟩
    · rw [told_self]
      exact hMoves.telling (h.telling _ t ht)
    · rw [told_of_ne hNe, List.append_nil]
      exact (h.telling u x hx).mono hMoves.runs_subset
  · intro x hx
    rw [List.length_set]
    rcases List.mem_append.mp hx with hOld | hNew
    · exact h.known x hOld
    · obtain ⟨r, _, rfl⟩ := List.mem_map.mp hNew
      exact (List.getElem?_eq_some_iff.mp ht).1

theorem told_of_unknown (h : Stories opts k key log g) (hu : g.threads.length ≤ u) : told u log = [] := by
  rw [told, List.filter_eq_nil_iff.mpr]
  · rfl
  · intro x hx
    exact fun hEq => absurd (h.known x hx) (by rw [beq_iff_eq.mp hEq]; exact Nat.not_lt.mpr hu)

theorem Stories.start (h : Stories opts k key log g) (task : Task) :
    Stories opts k key log ⟨g.shared, g.threads ++ [(stack script name opts k key).start task], history⟩ := by
  refine ⟨?_, ?_⟩
  · intro u x hx
    rcases getElem?_snoc_cases hx with ⟨rfl, rfl⟩ | hx
    · rw [told_of_unknown h le_rfl]
      cases task <;> rfl
    · exact h.telling u x hx
  · intro x hx
    rw [List.length_append]
    exact (h.known x hx).trans_le (Nat.le_add_right _ _)

theorem stories (hLog : (stack script name opts k key).Logged reportNote log g) :
    Stories opts k key log g := by
  induction hLog with
  | init => exact ⟨nofun, nofun⟩
  | next _ hNext ih =>
    rcases Program.next_cases hNext with ⟨task, rfl, rfl⟩ | ⟨tid, input, t, b', t', rfl, ht, hStep, rfl⟩
    · rw [reportNote, List.append_nil]
      exact ih.start task
    · obtain ⟨place', rfl, hMoves⟩ := moves_of_step hStep
      exact ih.step ht hMoves

end Runs

/-! ## The counters of the sinks -/

/-- The call returned this answer. -/
def Answered (g : Config (Backend α) Frame Answer) (tid : Tid) (a : Answer) : Prop :=
  ∃ limiter, g.threads[tid]? = some ⟨limiter, .done a⟩

namespace Report

def allowed : Report → Bool
  | .layered (.onAllowed _ _) => true
  | _ => false

def rejected : Report → Bool
  | .layered (.onRejected _ _) => true
  | _ => false

def redisError : Report → Bool
  | .redis (.onError _ _) => true
  | _ => false

def hook : Report → Bool
  | .onError _ => true
  | _ => false

/-- A decision of the Redis limiter, as its own sink hears it. -/
def redisDecision : Report → Bool
  | .redis (.onAllowed _ _) => true
  | .redis (.onRejected _ _) => true
  | _ => false

/-- A decision of the Redis limiter, as the sink of the layered limiter hears it. -/
def remoteDecision : Report → Bool
  | .layered (.onAllowed tier _) => tier == tierRemote
  | .layered (.onRejected tier _) => tier == tierRemote
  | _ => false

end Report

/-- The calls that have returned such an answer. -/
def answers (p : Answer → Bool) (g : Config (Backend α) Frame Answer) : Nat :=
  g.threads.countP fun t =>
    match t.place with
    | .done a => p a
    | _ => false

def reported (p : Report → Bool) (log : List (Tid × Report)) : Nat := log.countP fun x => p x.2

/-- Nothing is under way. -/
def Settled (g : Config (Backend α) Frame Answer) : Prop :=
  ∀ t ∈ g.threads, t.place = .flush ∨ t.place = .flushed ∨ ∃ a, t.place = .done a

def failOpen : Options := { forever with policy := .errorFailOpen }

/-- The first call is served, the second denied locally; the local layer of
the third fails, and then the server cannot be reached. -/
def outageRun : List (Act Task Input) :=
  [.start (.call 0), .start (.call 1), .start (.call 0),
    .step 0 .go, .step 0 (.answer (⟨true, 5, 0⟩, none)), .step 0 .go, .step 0 (.net (.replied 0)),
    .step 0 .go, .step 0 (.net (.replied 0)), .step 0 .go, .step 0 .go, .step 0 .go,
    .step 1 .go, .step 1 (.answer (⟨false, 0, 7⟩, none)), .step 1 .go, .step 1 .go,
    .step 2 .go, .step 2 (.answer (Memory.Outcome.answer .errMaxKeysExceeded)), .step 2 .go,
    .step 2 .go, .step 2 .go, .step 2 (.net (.down "dial tcp: i/o timeout")),
    .step 2 .go, .step 2 .go, .step 2 .go, .step 2 .go, .step 2 .go]

abbrev outage : Program (Backend TokenHash) Frame Task Input Answer :=
  stack (TokenBucket.script .onePerSecond 0) "token_bucket" failOpen allSinks [97]

/-- What the third call tells. -/
def outageReports : List Report :=
  let err := "kaka/redis: script error: run token_bucket: dial tcp: i/o timeout"
  [.layered (.onError tierLocal "memory: max keys exceeded"), .redis (.onError tierSingle err),
    .onError err, .redis (.onAllowed tierSingle ⟨true, 0, 0⟩), .layered (.onAllowed tierRemote ⟨true, 0, 0⟩)]

theorem outage_logged : ∃ (log : List (Tid × Report)) (g : Config (Backend TokenHash) Frame Answer),
    outage.Logged reportNote log g ∧
    g.threads.map Frame.place =
      [.done (⟨true, 1, 0⟩, none), .done (⟨false, 0, 7⟩, none), .done (⟨true, 0, 0⟩, none)] ∧
    reported Report.redisError log = 1 ∧ told 2 log = outageReports := by
  have hRun : (outage.record reportNote outage.initial outageRun).map (fun out =>
      (out.2.threads.map Frame.place, reported Report.redisError out.1, told 2 out.1)) =
      some ([.done (⟨true, 1, 0⟩, none), .done (⟨false, 0, 7⟩, none), .done (⟨true, 0, 0⟩, none)], 1,
        outageReports) := by decide +kernel
  obtain ⟨⟨log, g⟩, hRecord, hOut⟩ := Option.map_eq_some_iff.mp hRun
  simp only [Prod.mk.injEq] at hOut
  exact ⟨log, g, Program.Logged.init.record outageRun hRecord, hOut⟩

/-- Every call that has returned has told its story: the sinks heard where it
was decided, once, with the result it returned, after each error on the way. -/
theorem calls_told {g : Config (Backend α) Frame Answer}
    (hLog : (stack script name opts k key).Logged reportNote log g) {tid : Tid} {a : Answer}
    (hAnswered : Answered g tid a) : Story opts k key tid g.shared.server.log (told tid log) a := by
  obtain ⟨limiter, ht⟩ := hAnswered
  exact (stories hLog).telling tid _ ht

theorem answered_of_places {g : Config (Backend α) Frame Answer}
    (h : (g.threads.map Frame.place)[tid]? = some (.done a)) : Answered g tid a := by
  rw [List.getElem?_map] at h
  obtain ⟨⟨limiter, place⟩, ht, rfl⟩ := Option.map_eq_some_iff.mp h
  exact ⟨limiter, ht⟩

theorem calls_told_outage : ∃ (log : List (Tid × Report)) (g : Config (Backend TokenHash) Frame Answer),
    outage.Logged reportNote log g ∧ Answered g 2 (⟨true, 0, 0⟩, none) ∧
    Story failOpen allSinks [97] 2 g.shared.server.log outageReports (⟨true, 0, 0⟩, none) := by
  obtain ⟨log, g, hLog, hPlaces, _, hTold⟩ := outage_logged
  have hAnswered : Answered g 2 (⟨true, 0, 0⟩, none) := answered_of_places (by rw [hPlaces]; rfl)
  exact ⟨log, g, hLog, hAnswered, hTold ▸ calls_told hLog hAnswered⟩

structure Balance (log : List (Tid × Report)) (g : Config (Backend α) Frame Answer) : Prop where
  allowed : reported Report.allowed log = answers (fun a => a.1.allowed) g
  rejected : reported Report.rejected log = answers (fun a => a.2.isNone && !a.1.allowed) g
  hooks : reported Report.hook log = reported Report.redisError log
  tiers : reported Report.redisDecision log = reported Report.remoteDecision log

/-- The part of a call in the counters. -/
structure Share (reports : List Report) (a : Answer) : Prop where
  allowed : reports.countP Report.allowed = if a.1.allowed then 1 else 0
  rejected : reports.countP Report.rejected = if a.2.isNone && !a.1.allowed then 1 else 0
  hooks : reports.countP Report.hook = reports.countP Report.redisError
  tiers : reports.countP Report.redisDecision = reports.countP Report.remoteDecision

theorem share_served (r : Result) : Share (allSinks.served r) (r, none) := by
  obtain ⟨allowed, remaining, retryAfter⟩ := r
  cases allowed <;> exact ⟨rfl, rfl, rfl, rfl⟩

theorem Share.errors {reports : List Report} {a : Answer} (h : Share reports a) (err : String) :
    Share (allSinks.redisEmitError err ++ allSinks.fallback err ++ reports) a where
  allowed := h.allowed
  rejected := h.rejected
  hooks := by
    simp only [Sinks.redisEmitError, Sinks.fallback, allSinks, if_true, List.countP_append, h.hooks]
    rfl
  tiers := h.tiers

theorem Share.localError {reports : List Report} {a : Answer} (h : Share reports a) (err : String) :
    Share (allSinks.emitError tierLocal err ++ reports) a :=
  ⟨h.allowed, h.rejected, h.hooks, h.tiers⟩

theorem RemoteStory.share (h : RemoteStory opts allSinks tid runs reports a) : Share reports a := by
  cases h with
  | served => exact share_served _
  | failed err =>
    have hErrors := (share_served opts.fallback).errors err
    rwa [Sinks.served, ← List.append_assoc] at hErrors

theorem Story.share (h : Story opts allSinks key tid runs reports a) : Share reports a := by
  cases h with
  | blank => exact ⟨rfl, rfl, rfl, rfl⟩
  | denied hDenied =>
    constructor <;>
      simp [Sinks.emit, Sinks.decision, allSinks, hDenied, Report.allowed, Report.rejected, Report.hook,
        Report.redisError, Report.redisDecision, Report.remoteDecision, tierLocal, tierRemote]
  | remote hRemote => exact hRemote.share
  | localError err hRemote => exact hRemote.share.localError err

theorem sum_told (q : Report → Bool) {n : Nat} (hKnown : ∀ x ∈ log, x.1 < n) :
    ∑ tid ∈ Finset.range n, (told tid log).countP q = reported q log := by
  induction log with
  | nil => exact Finset.sum_const_zero
  | cons x rest ih =>
    have hTold : ∀ tid, (told tid (x :: rest)).countP q =
        (told tid rest).countP q + if x.1 = tid then (if q x.2 then 1 else 0) else 0 := by
      intro tid
      rw [told, List.filter_cons]
      by_cases hEq : x.1 = tid
      · simp only [hEq, beq_self_eq_true, if_true, List.map_cons, List.countP_cons]
        rfl
      · simp only [hEq, beq_eq_false_iff_ne.mpr hEq, if_false, Bool.false_eq_true]
        rfl
    have hx : x.1 ∈ Finset.range n := Finset.mem_range.mpr (hKnown x List.mem_cons_self)
    rw [Finset.sum_congr rfl fun tid _ => hTold tid, Finset.sum_add_distrib, Finset.sum_ite_eq,
      if_pos hx, ih fun y hy => hKnown y (List.mem_cons_of_mem x hy), reported, reported, List.countP_cons]

theorem sum_threads {T : Type} (p : T → Bool) (threads : List T) :
    ∑ tid ∈ Finset.range threads.length, (if (threads[tid]?).any p then 1 else 0) = threads.countP p := by
  induction threads with
  | nil => rfl
  | cons t rest ih =>
    rw [List.length_cons, Finset.sum_range_succ', List.countP_cons, ← ih]
    rfl

section Balance

variable {g : Config (Backend α) Frame Answer}

/-- Where nothing is under way, a thread has told nothing or returned. -/
theorem Stories.shares (h : Stories opts allSinks key log g) (hSettled : Settled g) {t : Frame}
    (ht : g.threads[tid]? = some t) :
    ((∀ a, t.place ≠ .done a) ∧ told tid log = []) ∨ ∃ a, t.place = .done a ∧ Share (told tid log) a := by
  have hTelling := h.telling tid t ht
  rcases hSettled t (List.mem_of_getElem? ht) with hPlace | hPlace | ⟨a, hDone⟩
  · rw [hPlace] at hTelling ⊢
    exact .inl ⟨nofun, hTelling⟩
  · rw [hPlace] at hTelling ⊢
    exact .inl ⟨nofun, hTelling⟩
  · rw [hDone] at hTelling
    exact .inr ⟨a, hDone, Story.share hTelling⟩

/-- A counter that each returned call adds its answer to. -/
theorem Stories.count (h : Stories opts allSinks key log g) (hSettled : Settled g) (q : Report → Bool)
    (p : Answer → Bool) (hCount : ∀ reports a, Share reports a → reports.countP q = if p a then 1 else 0) :
    reported q log = answers p g := by
  rw [← sum_told q h.known, answers, ← sum_threads]
  refine Finset.sum_congr rfl fun tid hTid => ?_
  have ht := List.getElem?_eq_getElem (Finset.mem_range.mp hTid)
  rw [ht, Option.any_some]
  rcases h.shares hSettled ht with ⟨hNone, hTold⟩ | ⟨a, hDone, hShare⟩
  · rw [hTold]
    split
    · exact absurd ‹_› (hNone _)
    · rfl
  · rw [hDone]
    exact hCount _ a hShare

theorem Stories.agree (h : Stories opts allSinks key log g) (hSettled : Settled g) (q q' : Report → Bool)
    (hCount : ∀ reports a, Share reports a → reports.countP q = reports.countP q') :
    reported q log = reported q' log := by
  rw [← sum_told q h.known, ← sum_told q' h.known]
  refine Finset.sum_congr rfl fun tid hTid => ?_
  rcases h.shares hSettled (List.getElem?_eq_getElem (Finset.mem_range.mp hTid)) with
    ⟨_, hTold⟩ | ⟨a, _, hShare⟩
  · rw [hTold]
    rfl
  · exact hCount _ a hShare

/-- Once every call has returned, the counters of the sinks add up: what was
allowed and rejected is what the callers were told, the hook and the sink heard
the same errors, and the two sinks the same decisions. -/
theorem sinks_balance (hLog : (stack script name opts allSinks key).Logged reportNote log g)
    (hSettled : Settled g) : Balance log g where
  allowed := (stories hLog).count hSettled _ _ fun _ _ hShare => hShare.allowed
  rejected := (stories hLog).count hSettled _ _ fun _ _ hShare => hShare.rejected
  hooks := (stories hLog).agree hSettled _ _ fun _ _ hShare => hShare.hooks
  tiers := (stories hLog).agree hSettled _ _ fun _ _ hShare => hShare.tiers

theorem sinks_balance_outage : ∃ (log : List (Tid × Report)) (g : Config (Backend TokenHash) Frame Answer),
    outage.Logged reportNote log g ∧ Settled g ∧ Balance log g := by
  obtain ⟨log, g, hLog, hPlaces, _⟩ := outage_logged
  have hSettled : Settled g := by
    intro t ht
    have hPlace := List.mem_map_of_mem (f := Frame.place) ht
    rw [hPlaces] at hPlace
    simp only [List.mem_cons, List.not_mem_nil, or_false] at hPlace
    rcases hPlace with hPlace | hPlace | hPlace <;> exact .inr (.inr ⟨_, hPlace⟩)
  exact ⟨log, g, hLog, hSettled, sinks_balance hLog hSettled⟩

end Balance

/-! ## The quota where errors are answered by allowing -/

theorem replays {g : Config (Backend α) Frame Answer}
    (hReach : (stack script name opts k key).Reachable g) : g.shared.server.Replays script := by
  refine Program.Reach.invariant (I := fun g => g.shared.server.Replays script) ⟨rfl, rfl⟩ ?_ hReach
  intro g a g' _ ih _ hNext
  rcases Program.next_cases hNext with ⟨task, _, rfl⟩ | ⟨tid, input, t, b', t', _, ht, hStep, rfl⟩
  · exact ih
  · obtain ⟨place', rfl, hMoves⟩ := moves_of_step hStep
    rcases hMoves.server_cases with hSame | ⟨now, hRun⟩
    · exact hSame ▸ ih
    · exact hRun ▸ ih.run tid now

/-- An allowed call has a run of its own that allowed it, or an error of its
own that the policy answered. -/
theorem Story.allowed_cases (hSink : k.redis = true) (h : Story opts k key tid runs reports a)
    (hAllowed : a.1.allowed = true) :
    (∃ run ∈ runs, run.tid = tid ∧ run.reply.allowed = 1) ∨
    opts.policy = .errorFailOpen ∧ 1 ≤ reports.countP Report.redisError := by
  have hRemote : ∀ {reports a}, RemoteStory opts k tid runs reports a → a.1.allowed = true →
      (∃ run ∈ runs, run.tid = tid ∧ run.reply.allowed = 1) ∨
      opts.policy = .errorFailOpen ∧ 1 ≤ reports.countP Report.redisError := by
    intro reports a hRemote hAllowed
    cases hRemote with
    | served hRun hTid => exact .inl ⟨_, hRun, hTid, allowed_decode.mp hAllowed⟩
    | failed err =>
      refine .inr ⟨?_, ?_⟩
      · cases hPolicy : opts.policy with
        | errorFailOpen => rfl
        | errorFailClosed =>
          simp only [Options.fallback, hPolicy] at hAllowed
          cases hAllowed
      · refine List.one_le_countP_iff.mpr ⟨.redis (.onError tierSingle err), ?_, rfl⟩
        simp [Sinks.failed, Sinks.redisEmitError, hSink]
  cases h with
  | blank => cases hAllowed
  | denied hDenied =>
    rw [hDenied] at hAllowed
    cases hAllowed
  | remote h => exact hRemote h hAllowed
  | localError err h =>
    rcases hRemote h hAllowed with hRun | ⟨hPolicy, hError⟩
    · exact .inl hRun
    · refine .inr ⟨hPolicy, ?_⟩
      rw [List.countP_append]
      exact hError.trans (Nat.le_add_left _ _)

section Quota

variable {g : Config (Backend TokenHash) Frame Answer}

def allowedCalls (g : Config (Backend α) Frame Answer) : Finset Tid :=
  (Finset.range g.threads.length).filter fun tid => (g.threads[tid]?).any (fun t =>
    match t.place with
    | .done a => a.1.allowed
    | _ => false) = true

theorem mem_allowedCalls {g : Config (Backend α) Frame Answer} (h : tid ∈ allowedCalls g) :
    ∃ a, Answered g tid a ∧ a.1.allowed = true := by
  obtain ⟨_, hAny⟩ := Finset.mem_filter.mp h
  obtain ⟨⟨limiter, place⟩, ht, hPlace⟩ := (Option.any_eq_true _ _).mp hAny
  cases place with
  | done a => exact ⟨a, ⟨limiter, ht⟩, hPlace⟩
  | _ => cases hPlace

theorem card_allowedCalls (g : Config (Backend α) Frame Answer) :
    (allowedCalls g).card = answers (fun a => a.1.allowed) g := by
  rw [answers, ← sum_threads, allowedCalls, Finset.card_filter]

theorem card_errors (hKnown : ∀ x ∈ log, x.1 < g.threads.length) {calls : Finset Tid}
    (hCalls : calls ⊆ Finset.range g.threads.length)
    (hError : ∀ tid ∈ calls, 1 ≤ (told tid log).countP Report.redisError) :
    calls.card ≤ reported Report.redisError log :=
  calc calls.card = ∑ _tid ∈ calls, 1 := Finset.card_eq_sum_ones calls
    _ ≤ ∑ tid ∈ calls, (told tid log).countP Report.redisError := Finset.sum_le_sum hError
    _ ≤ ∑ tid ∈ Finset.range g.threads.length, (told tid log).countP Report.redisError :=
      Finset.sum_le_sum_of_subset hCalls
    _ = reported Report.redisError log := sum_told _ hKnown

/-- The calls that a run of their own allowed are no more than the bucket grants. -/
theorem card_runs (tb : Rates) {ttlMs : Int} (hTTL : ttlMs ≤ 0) {s : Server TokenHash}
    (hReplays : s.Replays (TokenBucket.script tb ttlMs)) {calls : Finset Tid}
    (hOwn : ∀ tid ∈ calls, ∃ run ∈ s.log, run.tid = tid ∧ run.reply.allowed = 1) :
    (calls.card : ℚ) ≤ tb.capacity + tb.rate *
      (peak (s.log.map Run.now) (s.log.length - 1) - peak (s.log.map Run.now) 0) / 1000 := by
  by_cases hEmpty : s.log = []
  · have hCalls : calls = ∅ := by
      refine Finset.eq_empty_of_forall_notMem fun tid hTid => ?_
      obtain ⟨run, hRun, _⟩ := hOwn tid hTid
      rw [hEmpty] at hRun
      cases hRun
    rw [hCalls, hEmpty]
    simpa [peak] using zero_le_one.trans tb.one_le
  · have hLength : 0 < s.log.length := List.length_pos_iff.mpr hEmpty
    have hRun : ∀ tid, ∃ i, tid ∈ calls → i < s.log.length ∧ ∃ run, s.log[i]? = some run ∧
        run.tid = tid ∧ run.reply.allowed = 1 := by
      intro tid
      by_cases hTid : tid ∈ calls
      · obtain ⟨run, hMem, hRun⟩ := hOwn tid hTid
        obtain ⟨i, hi⟩ := List.mem_iff_getElem?.mp hMem
        exact ⟨i, fun _ => ⟨(List.getElem?_eq_some_iff.mp hi).1, run, hi, hRun⟩⟩
      · exact ⟨0, fun h => absurd h hTid⟩
    choose exec hExec using hRun
    refine le_trans ?_ (granted_runs tb hTTL hReplays (Nat.zero_le _) (Nat.sub_lt hLength one_pos))
    refine Nat.cast_le.mpr (card_le_countP exec ?_ ?_)
    · intro tid hTid
      obtain ⟨hLt, run, hGet, _, hAllowed⟩ := hExec tid hTid
      exact ⟨Nat.zero_le _, Nat.le_sub_one_of_lt hLt, by simp [hGet, hAllowed]⟩
    · intro tid hTid tid' hTid' hEq
      obtain ⟨_, run, hGet, hOf, _⟩ := hExec tid hTid
      obtain ⟨_, run', hGet', hOf', _⟩ := hExec tid' hTid'
      rw [hEq, hGet'] at hGet
      cases hGet
      exact hOf.symm.trans hOf'

/-- Many limiters over one token bucket never allow more calls than the bucket
grants and, where errors are answered by allowing, one for each error that the
sink is told. -/
theorem quota_with_errors (tb : Rates) (opts : Options) (name : String) (k : Sinks) (key : List UInt8)
    (hSink : k.redis = true) (hForever : milliseconds opts.keyTTL ≤ 0)
    (hLog : (stack (TokenBucket.script tb (milliseconds opts.keyTTL)) name opts k key).Logged
      reportNote log g) :
    (answers (fun a => a.1.allowed) g : ℚ) ≤ tb.capacity + tb.rate *
      (peak (g.shared.server.log.map Run.now) (g.shared.server.log.length - 1) -
        peak (g.shared.server.log.map Run.now) 0) / 1000 +
      if opts.policy = .errorFailOpen then (reported Report.redisError log : ℚ) else 0 := by
  have hStories := stories hLog
  have hCases : ∀ tid ∈ allowedCalls g,
      (∃ run ∈ g.shared.server.log, run.tid = tid ∧ run.reply.allowed = 1) ∨
      opts.policy = .errorFailOpen ∧ 1 ≤ (told tid log).countP Report.redisError := by
    intro tid hTid
    obtain ⟨a, ⟨limiter, ht⟩, hAllowed⟩ := mem_allowedCalls hTid
    exact Story.allowed_cases hSink (hStories.telling tid _ ht) hAllowed
  classical
  let byRun := (allowedCalls g).filter fun tid =>
    ∃ run ∈ g.shared.server.log, run.tid = tid ∧ run.reply.allowed = 1
  let byError := (allowedCalls g).filter fun tid =>
    ¬ ∃ run ∈ g.shared.server.log, run.tid = tid ∧ run.reply.allowed = 1
  have hByError : ∀ tid ∈ byError,
      opts.policy = .errorFailOpen ∧ 1 ≤ (told tid log).countP Report.redisError := by
    intro tid hTid
    obtain ⟨hMem, hNot⟩ := Finset.mem_filter.mp hTid
    exact (hCases tid hMem).resolve_left hNot
  have hErrors : (byError.card : ℚ) ≤
      if opts.policy = .errorFailOpen then (reported Report.redisError log : ℚ) else 0 := by
    split
    · refine Nat.cast_le.mpr (card_errors hStories.known ?_ fun tid hTid => (hByError tid hTid).2)
      exact (Finset.filter_subset _ _).trans (Finset.filter_subset _ _)
    · rename_i hClosed
      rw [Finset.eq_empty_of_forall_notMem fun tid hTid => hClosed (hByError tid hTid).1]
      simp
  have hOwn : ∀ tid ∈ byRun, ∃ run ∈ g.shared.server.log, run.tid = tid ∧ run.reply.allowed = 1 :=
    fun tid hTid => (Finset.mem_filter.mp hTid).2
  have hRuns := card_runs tb hForever (replays hLog.reachable) hOwn
  have hSplit : (answers (fun a => a.1.allowed) g : ℚ) = byRun.card + byError.card := by
    rw [← card_allowedCalls, ← Nat.cast_add, Finset.card_filter_add_card_filter_not]
  rw [hSplit]
  exact add_le_add hRuns hErrors

theorem quota_with_errors_outage : ∃ (log : List (Tid × Report))
    (g : Config (Backend TokenHash) Frame Answer), outage.Logged reportNote log g ∧
    reported Report.redisError log = 1 ∧
    (answers (fun a => a.1.allowed) g : ℚ) ≤ Rates.onePerSecond.capacity + Rates.onePerSecond.rate *
      (peak (g.shared.server.log.map Run.now) (g.shared.server.log.length - 1) -
        peak (g.shared.server.log.map Run.now) 0) / 1000 + 1 := by
  obtain ⟨log, g, hLog, _, hErrors, _⟩ := outage_logged
  have hQuota := quota_with_errors .onePerSecond failOpen "token_bucket" allSinks [97] rfl le_rfl hLog
  rw [if_pos (show failOpen.policy = .errorFailOpen from rfl), hErrors, Nat.cast_one] at hQuota
  exact ⟨log, g, hLog, hErrors, hQuota⟩

end Quota

end Kaka.Layered
