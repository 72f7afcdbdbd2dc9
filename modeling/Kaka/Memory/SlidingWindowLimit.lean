import Kaka.Memory.KeyHistory
import Kaka.Memory.SlidingWindow

/-! # The sliding window limit under concurrency

A call reads the clock and only then takes the shard lock, so a log entry
may be later than a reading that is served after it.  Such a call counts
only the entries still in the log, and entries that its own window covers
may already have been pruned.  The limit holds in every run whose calls are
served on readings not earlier than the log, or on a full log that lies
inside their window.
-/

namespace Kaka.Memory

open Interleaving

namespace SlidingWindow

variable {sw : SlidingWindow}

/-! ## One key, one call after another -/

/-- The reading `now` is not earlier than any entry, or the log is full of
entries in its window. -/
def Timely (sw : SlidingWindow) (state : WindowState) (now : Int) : Prop :=
  (∀ x ∈ state.logs, x ≤ now) ∨
    (sw.limit ≤ state.logs.length ∧ ∀ x ∈ state.logs, now - sw.window < x)

instance (state : WindowState) (now : Int) : Decidable (sw.Timely state now) :=
  inferInstanceAs (Decidable (_ ∨ _))

def within (sw : SlidingWindow) (readings : List Int) (t : Int) : Nat :=
  readings.countP fun x => t - sw.window < x ∧ x ≤ t

/-- The log is sorted and holds the allowed readings up to those pruned, which
are a whole window before some entry. -/
structure Recorded (sw : SlidingWindow) (allowed : List Int) (state : WindowState) : Prop where
  sorted : state.logs.Pairwise (· ≤ ·)
  short : state.logs.length ≤ sw.limit
  gone : ∃ pruned, (pruned ++ state.logs).Perm allowed ∧
    ∀ x ∈ pruned, ∃ y ∈ state.logs, x + sw.window ≤ y
  bound : ∀ t, sw.within allowed t ≤ sw.limit

variable {allowed : List Int} {state : WindowState} {now : Int}

theorem Recorded.new : sw.Recorded [] .new where
  sorted := .nil
  short := sw.limit_pos.le
  gone := ⟨[], .refl _, by simp⟩
  bound _ := sw.limit_pos.le

theorem Recorded.deny (h : sw.Recorded allowed state) {state' : WindowState}
    (hSame : state'.logs = state.logs) : sw.Recorded allowed state' := by
  refine ⟨?_, ?_, ?_, h.bound⟩ <;> rw [hSame]
  · exact h.sorted
  · exact h.short
  · exact h.gone

theorem within_snoc (t : Int) : sw.within (allowed ++ [now]) t =
    sw.within allowed t + if t - sw.window < now ∧ now ≤ t then 1 else 0 := by
  rw [within, List.countP_append, List.countP_singleton]
  simp only [decide_eq_true_eq]
  rfl

theorem Recorded.within_le (h : sw.Recorded allowed state) (hNow : ∀ x ∈ state.logs, x ≤ now) {t : Int}
    (ht : now ≤ t) :
    sw.within allowed t ≤ (state.logs.filter fun x => now - sw.window < x).length := by
  obtain ⟨pruned, hPerm, hGone⟩ := h.gone
  have hNone : (pruned.countP fun x => t - sw.window < x ∧ x ≤ t) = 0 := by
    rw [List.countP_eq_zero]
    intro x hx
    obtain ⟨y, hy, hFar⟩ := hGone x hx
    have := hNow y hy
    simp only [decide_eq_true_eq]
    omega
  rw [within, ← hPerm.countP_eq, List.countP_append, hNone, Nat.zero_add,
    ← List.countP_eq_length_filter]
  refine List.countP_mono_left fun x _ hx => ?_
  simp only [decide_eq_true_eq] at hx ⊢
  omega

theorem Recorded.allow (h : sw.Recorded allowed state) (hNow : ∀ x ∈ state.logs, x ≤ now)
    (hRoom : ((state.logs.filter fun x => now - sw.window < x).length : Int) < sw.limit)
    {state' : WindowState}
    (hLogs : state'.logs = (state.logs.filter fun x => now - sw.window < x) ++ [now]) :
    sw.Recorded (allowed ++ [now]) state' := by
  have hLast : now ∈ state'.logs := by rw [hLogs]; simp
  obtain ⟨pruned, hPerm, hGone⟩ := h.gone
  refine ⟨?_, ?_, ?_, ?_⟩
  · rw [hLogs, List.pairwise_append]
    refine ⟨h.sorted.filter _, List.pairwise_singleton _ _, ?_⟩
    intro x hx y hy
    rw [List.mem_singleton.mp hy]
    exact hNow x (List.mem_of_mem_filter hx)
  · rw [hLogs, List.length_append, List.length_singleton]
    omega
  · refine ⟨pruned ++ state.logs.filter fun x => !decide (now - sw.window < x), ?_, ?_⟩
    · have hSplit := List.filter_append_perm (fun x => decide (now - sw.window < x)) state.logs
      rw [hLogs, ← List.append_assoc, List.append_assoc pruned]
      exact (((List.perm_append_comm.trans hSplit).append_left pruned).trans hPerm).append_right _
    · intro x hx
      refine ⟨now, hLast, ?_⟩
      rcases List.mem_append.mp hx with hOld | hOut
      · obtain ⟨y, hy, hFar⟩ := hGone x hOld
        exact hFar.trans (hNow y hy)
      · have := (List.mem_filter.mp hOut).2
        simp only [Bool.not_eq_true', decide_eq_false_iff_not] at this
        omega
  · intro t
    rw [within_snoc]
    split
    · rename_i hIn
      have := h.within_le hNow hIn.2
      omega
    · exact h.bound t

theorem Recorded.record (h : sw.Recorded allowed state) (hTimely : sw.Timely state now) :
    sw.Recorded (allowed ++ if (sw.recordAndDecide state now).2.allowed then [now] else [])
      (sw.recordAndDecide state now).1 := by
  have hSub := List.filter_sublist (p := fun x => decide (now - sw.window < x)) (l := state.logs)
  have hShort := h.short
  by_cases hRoom : ((state.logs.filter fun x => now - sw.window < x).length : Int) < sw.limit
  · obtain ⟨hLogs, hResult⟩ := record_allow h.sorted hRoom
    rw [hResult, if_pos rfl]
    refine h.allow (hTimely.resolve_right ?_) hRoom hLogs
    -- a full log inside the window leaves no room
    rintro ⟨hFull, hIn⟩
    rw [List.filter_eq_self.mpr fun x hx => decide_eq_true (hIn x hx)] at hRoom
    omega
  · obtain ⟨hLogs, hResult⟩ := record_deny h.sorted (not_lt.mp hRoom)
    rw [hResult, if_neg Bool.false_ne_true, List.append_nil]
    -- the log was full, so a denial prunes nothing
    refine h.deny (hLogs.trans (hSub.eq_of_length ?_))
    have := hSub.length_le
    omega

end SlidingWindow

def allowedReadings (history : List (Int × Result)) : List Int :=
  (history.filter fun x => x.2.allowed).map Prod.fst

theorem allowedReadings_snoc (history : List (Int × Result)) (now : Int) (r : Result) :
    allowedReadings (history ++ [(now, r)]) =
      allowedReadings history ++ if r.allowed then [now] else [] := by
  rw [allowedReadings, List.filter_append, List.map_append, allowedReadings]
  cases hAllowed : r.allowed <;> simp [hAllowed]

namespace SlidingWindow

variable {sw : SlidingWindow}

theorem recorded_of_served {history : List (Int × Result)} {state : WindowState}
    (h : Served (fun _ => .new) sw.recordAndDecide sw.Timely history state) :
    sw.Recorded (allowedReadings history) state := by
  induction h with
  | first now hOk =>
    have hStep := Recorded.new.record hOk
    rw [List.nil_append] at hStep
    exact allowedReadings_snoc [] now _ ▸ hStep
  | next now _ hOk ih =>
    rw [allowedReadings_snoc]
    exact ih.record hOk

/-! ## Every interleaving -/

def params (opts : Options) (shardCount : Nat) (power : ∃ k, shardCount = 2 ^ k) :
    Params WindowState where
  opts := opts
  shardCount := shardCount
  power := power
  create _ := .new

/-- For every key and instant, at most `limit` of the allowed calls have a
reading in the window that ends there. -/
def WithinLimit (sw : SlidingWindow) (P : Params WindowState)
    (ok : P.State Result → Act (Key × Int) (List Key) → Prop) : Prop :=
  ∀ g, (P.requests sw.recordAndDecide).Reach ok g →
    ∀ key t, sw.within (allowedReadings (Params.answered g key)) t ≤ sw.limit

variable {opts : Options} {shardCount : Nat} {power : ∃ k, shardCount = 2 ^ k}

theorem recorded_of_reach (hKeeps : (params opts shardCount power).Keeps)
    {g : (params opts shardCount power).State Result}
    (hReach : ((params opts shardCount power).requests sw.recordAndDecide).Reach
      (Params.ServedWhen sw.Timely) g) (key : Key) :
    ∃ allowed, allowed.Perm (allowedReadings (Params.answered g key)) ∧
      ∃ state, sw.Recorded allowed state ∧
        ∀ v ∈ (params opts shardCount power).value g.shared key, v = state := by
  cases Params.keyState hKeeps hReach key with
  | absent hValue hNone =>
    refine ⟨[], by rw [hNone]; rfl, .new, .new, ?_⟩
    simp [hValue]
  | created _ _ _ hValue hNone =>
    refine ⟨[], by rw [hNone]; rfl, .new, .new, ?_⟩
    intro v hv
    exact (Option.some.inj (hValue.symm.trans hv)).symm
  | @served history state hValue hPerm hServed =>
    refine ⟨allowedReadings history, (hPerm.filter _).map _, state, recorded_of_served hServed, ?_⟩
    simp [hValue]

theorem within_limit (sw : SlidingWindow) (hKeeps : (params opts shardCount power).Keeps) :
    sw.WithinLimit (params opts shardCount power) (Params.ServedWhen sw.Timely) := by
  intro g hReach key t
  obtain ⟨allowed, hPerm, state, hRecorded, _⟩ := recorded_of_reach hKeeps hReach key
  rw [within, ← hPerm.countP_eq]
  exact hRecorded.bound t

/-- A log of one entry is timely for every reading, so with a limit of one the
order of the locked sections does not matter. -/
theorem timely_of_limit_one (hOne : sw.limit = 1) {state : WindowState}
    (hShort : state.logs.length ≤ sw.limit) (now : Int) : sw.Timely state now := by
  have hWindow := sw.window_pos
  match hLogs : state.logs with
  | [] => exact .inl (by simp [hLogs])
  | [x] =>
    rcases le_or_gt x now with hLe | hGt
    · exact .inl (by simpa [hLogs] using hLe)
    · refine .inr ⟨by simp [hLogs, hOne], ?_⟩
      simp only [hLogs, List.mem_singleton, forall_eq]
      omega
  | x :: y :: rest =>
    rw [hLogs, hOne] at hShort
    simp at hShort
    omega

theorem limit_one_holds (hOne : sw.limit = 1) (hKeeps : (params opts shardCount power).Keeps) :
    sw.WithinLimit (params opts shardCount power) (fun _ _ => True) := by
  intro g hReach key t
  have hTimely : ((params opts shardCount power).requests sw.recordAndDecide).Reach
      (Params.ServedWhen sw.Timely) g := by
    refine Program.Reach.invariant (M := (params opts shardCount power).requests sw.recordAndDecide)
      (I := fun g => Program.Reach _ (Params.ServedWhen sw.Timely) g) .init ?_ hReach
    intro g a g' _ hTimely _ hNext
    refine hTimely.next ?_ hNext
    cases a with
    | start => trivial
    | step tid choice =>
      intro t _ _ v hv
      obtain ⟨_, _, state, hRecorded, hState⟩ := recorded_of_reach hKeeps hTimely t.call.key
      rw [hState v hv]
      exact timely_of_limit_one hOne hRecorded.short _
  obtain ⟨allowed, hPerm, state, hRecorded, _⟩ := recorded_of_reach hKeeps hTimely key
  rw [within, ← hPerm.countP_eq]
  exact hRecorded.bound t

def two : SlidingWindow := ⟨2, 5, by decide, by decide⟩

def oneShard : Params WindowState := params {} 1 ⟨0, rfl⟩

/-- Calls for one key read 1, 1, 2 and 100.  The call that read 100 takes the
lock before the one that read 2 and prunes the first two from the log. -/
def lateRun : List (Act (Key × Int) (List Key)) :=
  [.start ([97], 1), .start ([97], 1), .start ([97], 2), .start ([97], 100)] ++ Params.steps 0 7 ++
    Params.steps 1 5 ++ Params.steps 3 5 ++ Params.steps 2 5

theorem limit_exceeded : ¬ two.WithinLimit oneShard Params.Clocked := by
  intro hWithin
  have hReach : (oneShard.requests two.recordAndDecide).Reach Params.Clocked
      ((oneShard.requests two.recordAndDecide).final Params.Clocked lateRun) :=
    .final lateRun (by decide +kernel)
  have hThree : two.within (allowedReadings (Params.answered
      ((oneShard.requests two.recordAndDecide).final Params.Clocked lateRun) [97])) 2 = 3 := by
    decide +kernel
  have hTwo := hWithin _ hReach [97] 2
  rw [hThree] at hTwo
  exact absurd hTwo (by decide)

def orderedRun : List (Act (Key × Int) (List Key)) :=
  [.start ([97], 1), .start ([97], 1), .start ([97], 2), .start ([97], 100)] ++ Params.steps 0 7 ++
    Params.steps 1 5 ++ Params.steps 2 5 ++ Params.steps 3 5

theorem within_limit_orderedRun :
    let g := (oneShard.requests two.recordAndDecide).final (Params.ServedWhen two.Timely) orderedRun
    allowedReadings (Params.answered g [97]) = [1, 1, 100] ∧
      two.within (allowedReadings (Params.answered g [97])) 2 ≤ two.limit :=
  ⟨by decide +kernel, within_limit two ⟨by decide, .inl rfl⟩ _ (.final orderedRun (by decide +kernel))
    [97] 2⟩

end SlidingWindow

end Kaka.Memory
