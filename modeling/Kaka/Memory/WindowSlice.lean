import Kaka.Base.Slice
import Kaka.Memory.SlidingWindow
import Mathlib.Data.Nat.Log

/-! # The log as a slice

`recordAndDecide` on the slice of the log itself: the entries in the window
are moved to the front of the backing array, and `appendWindowLog` takes a new
array when the old one is full. What the slice shows is the log of the
list model, so the two give the same answers.
-/

namespace Kaka.Memory

open Slices

def timeSize : Nat := 24 -- the bytes of a `time.Time`

namespace WindowSlice

variable (R : Runtime timeSize)

/-- The capacity that `appendWindowLog` asks for, in 64-bit arithmetic. -/
def newCap (logs : Slice Int) (limit : Int) : Int :=
  let newCap := Int.bmod (logs.cap * 2) (2 ^ 64)
  let newCap := if newCap < 1 then 1 else newCap
  let newCap := if limit < newCap then limit else newCap
  if newCap < logs.len + 1 then logs.len + 1 else newCap

def appendWindowLog (logs : Slice Int) (now limit : Int) : Exec (Slice Int) :=
  if logs.len < logs.cap then append R logs now
  else do
    let next ← make R logs.len (newCap logs limit)
    let (next, _) ← copy next logs.items
    append R next now

def prune (logs : Slice Int) (windowStart : Int) : Exec (Slice Int) :=
  let validIndex := search logs.items windowStart 0 logs.len logs.len
  if 0 < validIndex then do
    let (moved, n) ← copy logs (logs.items.drop validIndex)
    upTo moved n
  else pure logs

def recordAndDecide (sw : SlidingWindow) (logs : Slice Int) (now : Int) :
    Exec (Slice Int × Result) := do
  let logs ← prune logs (now - sw.window)
  if logs.len < sw.limit then
    let logs ← appendWindowLog R logs now sw.limit
    pure (logs, ⟨true, sw.limit - logs.len, 0⟩)
  else pure (logs, ⟨false, 0, sub (logs.items.getD 0 0 + sw.window) now⟩)

def run (sw : SlidingWindow) (logs : Slice Int) : List Int → Exec (Slice Int × List Result)
  | [] => pure (logs, [])
  | now :: rest => do
    let (logs, r) ← recordAndDecide R sw logs now
    let (logs, results) ← run sw logs rest
    pure (logs, r :: results)

def view (logs : Slice Int) : WindowState := ⟨logs.items, logs.cap⟩

def allocs (ops : List Op) : Nat :=
  ops.countP fun op => match op with
    | .write _ _ => false
    | _ => true

/-- No array has more than `limit` cells, no `append` finds its slice full, and
no store misses its array. -/
def Within (limit : Int) : Op → Prop
  | .alloc cap => cap ≤ limit
  | .grow _ => False
  | .write index cap => index < cap

/-! ## One call -/

variable {R} {sw : SlidingWindow} {logs : Slice Int} {ops : List Op} {now limit windowStart : Int}

theorem view_eq {state : WindowState} (hLogs : logs.items = state.logs) (hCap : logs.cap = state.cap) :
    view logs = state := by
  rw [view, hLogs, hCap]

theorem writes_within {n cap : Nat} (hn : n ≤ cap) :
    ∀ op ∈ (List.range n).map fun i => Op.write i cap, Within limit op := by
  intro op hOp
  obtain ⟨i, hi, rfl⟩ := List.mem_map.mp hOp
  exact (List.mem_range.mp hi).trans_le hn

theorem allocs_writes (n cap : Nat) : allocs ((List.range n).map fun i => Op.write i cap) = 0 := by
  rw [allocs, List.countP_eq_zero]
  intro op hOp
  obtain ⟨i, _, rfl⟩ := List.mem_map.mp hOp
  exact Bool.false_ne_true

theorem allocs_append (ops ops' : List Op) : allocs (ops ++ ops') = allocs ops + allocs ops' :=
  List.countP_append

theorem bmod_eq_self {n : Int} (hPos : 0 ≤ n) (hLt : n < 2 ^ 63) : n.bmod (2 ^ 64) = n := by
  apply Int.bmod_eq_of_le
  · norm_num
    omega
  · norm_num
    omega

theorem newCap_of_full (hFull : logs.len = logs.cap) (hRoom : (logs.len : Int) < limit)
    (hFits : logs.cap ≤ R.maxCap) :
    newCap logs limit = min (max ((logs.cap : Int) * 2) 1) limit := by
  -- the runtime has no room for an array whose doubled length overflows
  have hSize : R.maxCap * 24 < 2 ^ 63 := R.fits
  have hExact : Int.bmod (logs.cap * 2) (2 ^ 64) = (logs.cap : Int) * 2 := by
    apply bmod_eq_self <;> omega
  unfold newCap
  rw [hExact]
  clear hSize hExact
  dsimp only
  split_ifs <;> omega

theorem appendWindowLog_cap (state : WindowState) (now : Int)
    (hFull : state.logs.length = state.cap) (hRoom : (state.logs.length : Int) < limit) :
    (Memory.appendWindowLog state now limit).cap =
      (min (max ((state.cap : Int) * 2) 1) limit).toNat := by
  have hDouble : (if state.cap * 2 < 1 then 1 else state.cap * 2) = max (state.cap * 2) 1 := by
    split_ifs <;> omega
  have hLimit : (if limit < (max (state.cap * 2) 1 : Nat) then limit.toNat
      else max (state.cap * 2) 1) = (min (max ((state.cap : Int) * 2) 1) limit).toNat := by
    split_ifs <;> omega
  rw [Memory.appendWindowLog, if_neg (by omega)]
  dsimp only
  -- the floor at `len + 1` changes nothing
  rw [hDouble, hLimit, if_neg (by omega)]

theorem prune_run (logs : Slice Int) (windowStart : Int) (ops : List Op) :
    ∃ kept writes, (prune logs windowStart).run ops = some (kept, ops ++ writes) ∧
      view kept = SlidingWindow.prune (view logs) windowStart ∧ allocs writes = 0 ∧
      ∀ op ∈ writes, Within limit op := by
  have hSame : SlidingWindow.prune (view logs) windowStart =
      ⟨logs.items.drop (search logs.items windowStart 0 logs.len logs.len), logs.cap⟩ := by
    simp only [SlidingWindow.prune, view, Slice.length_items]
  rw [hSame]
  unfold prune
  generalize search logs.items windowStart 0 logs.len logs.len = validIndex
  by_cases hValid : 0 < validIndex
  · have hShort : (logs.items.drop validIndex).length ≤ logs.len := by
      rw [List.length_drop, Slice.length_items]
      omega
    have hInside := hShort.trans logs.len_le_cap
    obtain ⟨moved, hCopy, _, hCap, hItems⟩ := copy_run logs ops hShort
    obtain ⟨kept, hCut, _, hKeptCap, hKept⟩ := upTo_run moved _ (hInside.trans_eq hCap.symm)
    refine ⟨kept, _, ?_, ?_, allocs_writes _ _, writes_within hInside⟩
    · rw [if_pos hValid, run_bind_some hCopy]
      exact hCut
    · rw [view, hKept, hItems, hKeptCap, hCap]
  · refine ⟨logs, [], ?_, ?_, rfl, ?_⟩
    · rw [if_neg hValid, List.append_nil]
      rfl
    · rw [Nat.eq_zero_of_not_pos hValid, List.drop_zero, view]
    · intro op hOp
      cases hOp

theorem appendWindowLog_room (ops : List Op) (now limit : Int) (hRoom : logs.len < logs.cap) :
    ∃ next, (appendWindowLog R logs now limit).run ops =
        some (next, ops ++ [.write logs.len logs.cap]) ∧
      view next = Memory.appendWindowLog (view logs) now limit := by
  obtain ⟨next, hAppend, hCap, hItems⟩ := append_run R logs ops now hRoom
  refine ⟨next, ?_, ?_⟩
  · rw [appendWindowLog, if_pos hRoom]
    exact hAppend
  · rw [Memory.appendWindowLog, if_pos (by simpa [view] using hRoom), view, hItems, hCap]
    rfl

theorem appendWindowLog_full (ops : List Op) (now : Int) (hFull : logs.len = logs.cap)
    (hRoom : (logs.len : Int) < limit) (hFits : logs.cap ≤ R.maxCap)
    (hMake : newCap logs limit ≤ R.maxCap) :
    ∃ next writes, (appendWindowLog R logs now limit).run ops =
        some (next, ops ++ .alloc (newCap logs limit).toNat :: writes) ∧
      view next = Memory.appendWindowLog (view logs) now limit ∧
      next.cap = (newCap logs limit).toNat ∧ allocs writes = 0 ∧ ∀ op ∈ writes, Within limit op := by
  have hNewCap := newCap_of_full hFull hRoom hFits
  obtain ⟨made, hMade, hMadeLen, hMadeCap⟩ : ∃ next : Slice Int, _ :=
    make_run R ops logs.len (newCap logs limit) (by omega) hMake
  have hFit : logs.items.length ≤ made.len := by rw [Slice.length_items, hMadeLen]
  obtain ⟨moved, hCopy, hMovedLen, hMovedCap, hItems⟩ :=
    copy_run made (ops ++ [.alloc (newCap logs limit).toNat]) hFit
  have hAll : moved.items = logs.items := by
    rw [Slice.items, hMovedLen, hMadeLen, ← Slice.length_items logs, hItems]
  have hSpare : moved.len < moved.cap := by omega
  obtain ⟨next, hAppend, hCap, hNext⟩ := append_run R moved
    (ops ++ [.alloc (newCap logs limit).toNat] ++
      (List.range logs.items.length).map fun i => .write i made.cap) now hSpare
  refine ⟨next, (List.range logs.items.length).map (fun i => .write i made.cap) ++
    [.write moved.len moved.cap], ?_, ?_, ?_, ?_, ?_⟩
  · rw [appendWindowLog, if_neg (by omega)]
    rw [run_bind_some hMade, run_bind_some hCopy, hAppend]
    simp only [List.append_assoc, List.cons_append, List.nil_append]
  · have hShown : (view logs).logs.length = logs.len := Slice.length_items logs
    apply view_eq
    · rw [hNext, hAll, appendWindowLog_logs]
      rfl
    · rw [hCap, hMovedCap, hMadeCap, hNewCap,
        appendWindowLog_cap (view logs) now (hShown.trans hFull) (by omega)]
      rfl
  · rw [hCap, hMovedCap, hMadeCap]
  · rw [allocs_append, allocs_writes]
    rfl
  · intro op hOp
    rcases List.mem_append.mp hOp with hCopied | hLast
    · exact writes_within (hFit.trans made.len_le_cap) op hCopied
    · rw [List.mem_singleton.mp hLast]
      exact hSpare

theorem appendWindowLog_panics (ops : List Op) (now : Int) (hFull : logs.len = logs.cap)
    (hMake : R.maxCap < newCap logs limit) :
    (appendWindowLog R logs now limit).run ops = none := by
  rw [appendWindowLog, if_neg (by omega)]
  exact run_bind_none (make_panics R ops hMake) _

/-! ## Whole runs -/

/-- After the first array each one doubles the capacity, up to the limit. -/
structure Settles (R : Runtime timeSize) (sw : SlidingWindow) (logs : Slice Int) (ops : List Op) :
    Prop where
  cap_eq : logs.cap = min (2 ^ allocs ops / 2) sw.limit.toNat
  fits : logs.cap ≤ R.maxCap
  within : ∀ op ∈ ops, Within sw.limit op
  allocs_le : allocs ops ≤ Nat.clog 2 sw.limit.toNat + 1

theorem Settles.empty : Settles R sw .empty [] where
  cap_eq := by simp [Slice.cap, Slice.empty, allocs]
  fits := Nat.zero_le _
  within := by simp
  allocs_le := Nat.zero_le _

theorem Settles.writes (h : Settles R sw logs ops) {logs' : Slice Int} {writes : List Op}
    (hCap : logs'.cap = logs.cap) (hNone : allocs writes = 0)
    (hWithin : ∀ op ∈ writes, Within sw.limit op) : Settles R sw logs' (ops ++ writes) := by
  have hAllocs : allocs (ops ++ writes) = allocs ops := by rw [allocs_append, hNone, Nat.add_zero]
  constructor
  · rw [hCap, hAllocs]
    exact h.cap_eq
  · exact hCap.trans_le h.fits
  · intro op hOp
    exact (List.mem_append.mp hOp).elim (h.within op) (hWithin op)
  · rw [hAllocs]
    exact h.allocs_le

theorem double_half (a : Nat) : max (2 ^ a / 2 * 2) 1 = 2 ^ (a + 1) / 2 := by
  cases a with
  | zero => rfl
  | succ k =>
    have hPos := Nat.two_pow_pos k
    rw [Nat.pow_succ, Nat.mul_div_cancel _ Nat.two_pos, Nat.pow_succ, Nat.mul_div_cancel _ Nat.two_pos,
      Nat.pow_succ]
    omega

theorem Settles.allocs_le_clog (h : Settles R sw logs ops) (hRoom : (logs.cap : Int) < sw.limit) :
    allocs ops ≤ Nat.clog 2 sw.limit.toNat := by
  have hCap := h.cap_eq
  cases hAllocs : allocs ops with
  | zero => exact Nat.zero_le _
  | succ k =>
    rw [hAllocs, Nat.pow_succ, Nat.mul_div_cancel _ Nat.two_pos] at hCap
    -- a capacity below the limit is a power of two
    have hLt : 2 ^ k < sw.limit.toNat := by omega
    exact (Nat.lt_clog_iff_pow_lt Nat.one_lt_two).mpr hLt

theorem Settles.alloc (h : Settles R sw logs ops) (hRoom : (logs.cap : Int) < sw.limit)
    {next : Slice Int} {writes : List Op}
    (hCap : next.cap = (min (max ((logs.cap : Int) * 2) 1) sw.limit).toNat)
    (hFits : next.cap ≤ R.maxCap) (hNone : allocs writes = 0)
    (hWithin : ∀ op ∈ writes, Within sw.limit op) :
    Settles R sw next (ops ++ .alloc next.cap :: writes) := by
  have hAllocs : allocs (ops ++ .alloc next.cap :: writes) = allocs ops + 1 := by
    rw [allocs_append, ← List.singleton_append, allocs_append, hNone]
    rfl
  have hOld := h.cap_eq
  have hDouble := double_half (allocs ops)
  constructor
  · rw [hAllocs, ← hDouble]
    omega
  · exact hFits
  · intro op hOp
    rcases List.mem_append.mp hOp with hBefore | hNew
    · exact h.within op hBefore
    · rcases List.mem_cons.mp hNew with rfl | hWrite
      · change (next.cap : Int) ≤ sw.limit
        have := sw.limit_pos
        omega
      · exact hWithin op hWrite
  · rw [hAllocs]
    exact Nat.succ_le_succ (h.allocs_le_clog hRoom)

/-- `appendWindowLog` panics where the runtime has no room for an array of
`limit` cells; otherwise it does what it does on the list. -/
theorem Settles.append (h : Settles R sw logs ops) (hRoom : (logs.len : Int) < sw.limit) (now : Int) :
    ((appendWindowLog R logs now sw.limit).run ops = none ∧ R.maxCap < sw.limit) ∨
      ∃ next ops', (appendWindowLog R logs now sw.limit).run ops = some (next, ops') ∧
        view next = Memory.appendWindowLog (view logs) now sw.limit ∧ Settles R sw next ops' := by
  rcases lt_or_eq_of_le logs.len_le_cap with hSpare | hFull
  · right
    obtain ⟨next, hAppend, hNext⟩ := appendWindowLog_room (R := R) ops now sw.limit hSpare
    refine ⟨next, _, hAppend, hNext, h.writes ?_ rfl ?_⟩
    · have hCap := congrArg WindowState.cap hNext
      rwa [Memory.appendWindowLog, if_pos (by simpa [view] using hSpare)] at hCap
    · intro op hOp
      rw [List.mem_singleton.mp hOp]
      exact hSpare
  · have hNewCap := newCap_of_full hFull hRoom h.fits
    by_cases hMake : newCap logs sw.limit ≤ R.maxCap
    · right
      obtain ⟨next, writes, hAppend, hNext, hCap, hNone, hWithin⟩ :=
        appendWindowLog_full ops now hFull hRoom h.fits hMake
      rw [← hCap] at hAppend
      refine ⟨next, _, hAppend, hNext, h.alloc (by omega) ?_ (by omega) hNone hWithin⟩
      rw [hCap, hNewCap]
    · left
      exact ⟨appendWindowLog_panics ops now hFull (by omega), by omega⟩

theorem Settles.record (h : Settles R sw logs ops) (now : Int) :
    ((recordAndDecide R sw logs now).run ops = none ∧ R.maxCap < sw.limit) ∨
      ∃ logs' ops', (recordAndDecide R sw logs now).run ops =
          some ((logs', (sw.recordAndDecide (view logs) now).2), ops') ∧
        view logs' = (sw.recordAndDecide (view logs) now).1 ∧ Settles R sw logs' ops' := by
  obtain ⟨kept, writes, hPrune, hView, hNone, hWithin⟩ := prune_run logs (now - sw.window) ops
  have hKept : Settles R sw kept (ops ++ writes) :=
    h.writes (congrArg WindowState.cap hView) hNone hWithin
  have hLen : (SlidingWindow.prune (view logs) (now - sw.window)).logs.length = kept.len := by
    rw [← hView]
    exact Slice.length_items kept
  rw [recordAndDecide, run_bind_some hPrune, SlidingWindow.recordAndDecide, hLen]
  by_cases hRoom : (kept.len : Int) < sw.limit
  · rw [if_pos hRoom, if_pos hRoom]
    rcases hKept.append hRoom now with ⟨hPanic, hMax⟩ | ⟨next, ops', hAppend, hNext, hSettles⟩
    · exact .inl ⟨run_bind_none hPanic _, hMax⟩
    · right
      have hCount : ((Memory.appendWindowLog (view kept) now sw.limit).logs.length : Int) = next.len := by
        rw [← hNext]
        exact congrArg Nat.cast (Slice.length_items next)
      refine ⟨next, ops', ?_, ?_, hSettles⟩
      · rw [run_bind_some hAppend, ← hView]
        dsimp only
        rw [hCount]
        rfl
      · rw [hNext, hView]
  · rw [if_neg hRoom, if_neg hRoom]
    right
    refine ⟨kept, _, ?_, hView, hKept⟩
    rw [← hView]
    rfl

theorem Settles.run (h : Settles R sw logs ops) (readings : List Int) :
    ((run R sw logs readings).run ops = none ∧ R.maxCap < sw.limit) ∨
      ∃ logs' ops', (run R sw logs readings).run ops =
          some ((logs', (serve sw.recordAndDecide (view logs) readings).map Prod.snd), ops') ∧
        view logs' = after sw.recordAndDecide (view logs) readings ∧ Settles R sw logs' ops' := by
  induction readings generalizing logs ops with
  | nil => exact .inr ⟨logs, ops, rfl, rfl, h⟩
  | cons now rest ih =>
    rw [WindowSlice.run]
    rcases h.record now with ⟨hPanic, hMax⟩ | ⟨logs', ops', hRecord, hView, hSettles⟩
    · exact .inl ⟨run_bind_none hPanic _, hMax⟩
    · rw [run_bind_some hRecord]
      rcases ih hSettles with ⟨hPanic, hMax⟩ | ⟨last, ops'', hRest, hLast, hEnd⟩
      · exact .inl ⟨run_bind_none hPanic _, hMax⟩
      · right
        refine ⟨last, ops'', ?_, ?_, hEnd⟩
        · rw [run_bind_some hRest, hView]
          rfl
        · rw [hLast, hView]
          rfl

/-- Every moment of a run is the end of a run. A run that ends in a panic asks
for an array that the runtime cannot give, and only a limit above the
runtime's own makes it do so. -/
theorem log_memory_settles (R : Runtime timeSize) (sw : SlidingWindow) (readings : List Int) :
    (∀ logs results ops, (run R sw .empty readings).run [] = some ((logs, results), ops) →
      logs.len ≤ logs.cap ∧ (logs.cap : Int) ≤ sw.limit ∧ (∀ op ∈ ops, Within sw.limit op) ∧
        allocs ops ≤ Nat.clog 2 sw.limit.toNat + 1) ∧
    (sw.limit ≤ R.maxCap → ((run R sw .empty readings).run []).isSome = true) := by
  rcases Settles.empty.run readings with ⟨hPanic, hMax⟩ | ⟨logs, ops, hRun, _, h⟩
  · constructor
    · intro logs results ops hRun
      rw [hPanic] at hRun
      cases hRun
    · intro hRoom
      omega
  · constructor
    · intro logs' results ops' hRun'
      rw [hRun] at hRun'
      cases hRun'
      have hCap := h.cap_eq
      have hPos := sw.limit_pos
      exact ⟨logs.len_le_cap, by omega, h.within, h.allocs_le⟩
    · intro _
      rw [hRun]
      rfl

/-- A heap of `2 ^ 48` bytes; a full slice grows to twice its length. -/
def smallHeap : Runtime timeSize := ⟨11728124029610, by decide, fun cap => 2 * cap⟩

def sixInThree : SlidingWindow := ⟨6, 3000000000, by decide, by decide⟩

/-- Six requests at once take arrays of 1, 2, 4 and 6 cells, as many as the
bound allows. -/
theorem log_memory_settles_six : ∃ logs results ops,
    (run smallHeap sixInThree .empty [0, 0, 0, 0, 0, 0, 3500000000]).run [] =
        some ((logs, results), ops) ∧
      logs.len ≤ logs.cap ∧ (logs.cap : Int) ≤ 6 ∧ allocs ops ≤ Nat.clog 2 6 + 1 := by
  obtain ⟨hBounds, hRuns⟩ := log_memory_settles smallHeap sixInThree [0, 0, 0, 0, 0, 0, 3500000000]
  obtain ⟨⟨⟨logs, results⟩, ops⟩, hRun⟩ := Option.isSome_iff_exists.mp (hRuns (by decide))
  obtain ⟨hLen, hCap, _, hAllocs⟩ := hBounds logs results ops hRun
  exact ⟨logs, results, ops, hRun, hLen, hCap, hAllocs⟩

example : ((run smallHeap sixInThree .empty [0, 0, 0, 0, 0, 0, 3500000000]).run []).map
    (fun x => (x.1.1.cap, allocs x.2)) = some (6, 4) := by
  decide +kernel

end WindowSlice

end Kaka.Memory
