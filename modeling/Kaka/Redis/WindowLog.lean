import Kaka.Redis.SlidingWindow

/-! # The log of the Redis sliding window

The sorted set at the key is the list of the times allowed so far, but for
those before the window of the last request, which pruning removes, or the
TTL with the whole key.  No later window needs them where the TTL covers the
window.
-/

namespace Kaka.Redis.SlidingWindow

variable {M : Type}

/-- The member of `x` is not that of an earlier request of its window. -/
def Fresh (windowMs : Int) (past : List (Int × M)) (x : Int × M) : Prop :=
  ∀ y ∈ past, x.1 - windowMs < y.1 → y.2 ≠ x.2

theorem fresh_of_nodup (windowMs : Int) {past rest : List (Int × M)} {x : Int × M}
    (hMembers : ((past ++ x :: rest).map Prod.snd).Nodup) : Fresh windowMs past x := by
  intro y hy _ hEq
  rw [List.map_append] at hMembers
  exact (List.nodup_append.mp hMembers).2.2 y.2 (List.mem_map_of_mem hy) x.2 (by simp) hEq

variable [LinearOrder M]

/-- The key after the requests `past`, the last of them at `last`; `allowed`
are the times of the allowed ones. -/
structure Listed (windowMs ttlMs : Int) (allowed : List Int) (past : List (Int × M)) (last : Int)
    (key : Key M) : Prop where
  scores : (contents key).scores = allowed.filter (last - windowMs < ·)
  le_last : ∀ x ∈ allowed, x ≤ last
  entries : ∀ e ∈ (contents key).entries, ofLex e ∈ past
  deadline : ∀ e ∈ key, e.deadline = deadlineAfter ttlMs last

theorem Listed.none (windowMs ttlMs last : Int) :
    Listed windowMs ttlMs [] ([] : List (Int × M)) last none where
  scores := rfl
  le_last := by simp
  entries := by simp [contents, SortedSet.empty]
  deadline := nofun

/-- A request that never comes to the script. -/
theorem Listed.skip {windowMs ttlMs last : Int} {allowed : List Int} {past : List (Int × M)} {key : Key M}
    (h : Listed windowMs ttlMs allowed past last key) (x : Int × M) :
    Listed windowMs ttlMs allowed (past ++ [x]) last key :=
  ⟨h.scores, h.le_last, fun e he => List.mem_append_left _ (h.entries e he), h.deadline⟩

section Step

variable {windowMs ttlMs last now : Int} {allowed : List Int} {past : List (Int × M)} {key : Key M}
  {member : M}

theorem Listed.timed_pruned (h : Listed windowMs ttlMs allowed past last key) :
    Timed ttlMs (zremrangebyscore (now - windowMs) (find now key)) := by
  apply Timed.zremrangebyscore
  intro e he hTtl
  rw [h.deadline e (mem_of_mem_find he), deadlineAfter_of_le hTtl]

/-- The script finds the allowed requests of its window, also where the key
has expired. -/
theorem Listed.live_scores (h : Listed windowMs ttlMs allowed past last key) (hTime : last ≤ now)
    (hCovers : Lapsed ttlMs last now → windowMs ≤ ttlMs) :
    (live windowMs key now).scores = allowed.filter (now - windowMs < ·) := by
  rw [live, SortedSet.scores_removeUpTo]
  rcases em (Lapsed ttlMs last now) with hLapsed | hLive
  · rw [find_of_lapsed h.deadline hLapsed]
    symm
    apply List.filter_eq_nil_iff.mpr
    intro x hx
    have hOld := h.le_last x hx
    have hLate := hLapsed.2
    have hWindow := hCovers hLapsed
    simp only [decide_eq_true_eq]
    omega
  · rw [find_of_not_lapsed h.deadline hLive, h.scores, List.filter_filter]
    apply List.filter_congr
    intro x _
    rw [← Bool.decide_and, decide_eq_decide]
    omega

theorem Listed.card_live (h : Listed windowMs ttlMs allowed past last key) (hTime : last ≤ now)
    (hCovers : Lapsed ttlMs last now → windowMs ≤ ttlMs) :
    (live windowMs key now).card = (allowed.filter (now - windowMs < ·)).length := by
  rw [SortedSet.card_eq, h.live_scores hTime hCovers]

theorem Listed.live_entries (h : Listed windowMs ttlMs allowed past last key) :
    ∀ e ∈ (live windowMs key now).entries, ofLex e ∈ past ∧ now - windowMs < (ofLex e).1 := by
  intro e he
  obtain ⟨hFound, hAfter⟩ := List.mem_filter.mp he
  refine ⟨?_, by simpa using hAfter⟩
  cases hFind : find now key with
  | none =>
    rw [hFind] at hFound
    cases hFound
  | some entry =>
    obtain rfl := mem_of_mem_find hFind
    rw [hFind] at hFound
    exact h.entries e hFound

theorem Listed.notMem_members (h : Listed windowMs ttlMs allowed past last key)
    (hFresh : Fresh windowMs past (now, member)) : member ∉ (live windowMs key now).members := by
  intro hMem
  obtain ⟨e, he, hEq⟩ := List.mem_map.mp hMem
  obtain ⟨hPast, hAfter⟩ := h.live_entries e he
  exact hFresh _ hPast hAfter hEq

theorem Listed.allow (h : Listed windowMs ttlMs allowed past last key) (hTime : last ≤ now)
    (hCovers : Lapsed ttlMs last now → windowMs ≤ ttlMs) (hWindow : 0 < windowMs)
    (hFresh : Fresh windowMs past (now, member)) :
    Listed windowMs ttlMs (allowed ++ [now]) (past ++ [(now, member)]) now
      ((zadd now member (zremrangebyscore (now - windowMs) (find now key))).map
        (pexpire ttlMs now)) := by
  have hPast : ∀ x ∈ allowed, x ≤ now := fun x hx => (h.le_last x hx).trans hTime
  have hLive := h.live_scores hTime hCovers
  have hSet : contents ((zadd now member (zremrangebyscore (now - windowMs) (find now key))).map
      (pexpire ttlMs now)) = (live windowMs key now).add now member := by
    rw [contents_pexpire, contents_zadd, contents_pruned]
  have hHighest : ∀ x ∈ (live windowMs key now).scores, x ≤ now := by
    rw [hLive]
    exact fun x hx => hPast x (List.mem_filter.mp hx).1
  constructor
  · rw [hSet, SortedSet.scores_add _ (h.notMem_members hFresh) hHighest, hLive, List.filter_append]
    simp [hWindow]
  · intro x hx
    rcases List.mem_append.mp hx with hOld | hLast
    · exact hPast x hOld
    · exact (List.mem_singleton.mp hLast).le
  · rw [hSet]
    intro e he
    rcases List.mem_cons.mp ((SortedSet.entries_add_perm _ now member).mem_iff.mp he) with rfl | hOther
    · exact List.mem_append_right _ List.mem_cons_self
    · exact List.mem_append_left _ (h.live_entries e (List.mem_filter.mp hOther).1).1
  · exact (h.timed_pruned.zadd now member).pexpire now

theorem Listed.deny (h : Listed windowMs ttlMs allowed past last key) (hTime : last ≤ now)
    (hCovers : Lapsed ttlMs last now → windowMs ≤ ttlMs) :
    Listed windowMs ttlMs allowed (past ++ [(now, member)]) now
      ((zremrangebyscore (now - windowMs) (find now key)).map (pexpire ttlMs now)) := by
  constructor
  · rw [contents_pexpire, contents_pruned, h.live_scores hTime hCovers]
  · exact fun x hx => (h.le_last x hx).trans hTime
  · rw [contents_pexpire, contents_pruned]
    exact fun e he => List.mem_append_left _ (h.live_entries e he).1
  · exact h.timed_pruned.pexpire now

/-! ## The script -/

variable {num : Int → Int} {limit : Int}

/-- The numbers of a request that the script does not round. -/
structure Exact (num : Int → Int) (windowMs now : Int) : Prop where
  now_eq : num now = now
  window_eq : num windowMs = windowMs
  start_eq : num (now - windowMs) = now - windowMs

theorem Exact.id (windowMs now : Int) : Exact id windowMs now := ⟨rfl, rfl, rfl⟩

theorem Exact.luaNumber (hWindow : 0 < windowMs) (hFits : |now| + windowMs ≤ 2 ^ 53) :
    Exact luaNumber windowMs now := by
  obtain ⟨hLow, hHigh⟩ := abs_le.mp (by omega : |now| ≤ 2 ^ 53 - windowMs)
  constructor <;> apply luaNumber_of_le <;> rw [abs_le] <;> omega

/-- A request is allowed where the rounded count of its window is below the
rounded limit. -/
theorem Listed.script_allow (h : Listed windowMs ttlMs allowed past last key) (hTime : last ≤ now)
    (hCovers : Lapsed ttlMs last now → windowMs ≤ ttlMs) (hWindow : 0 < windowMs)
    (hExact : Exact num windowMs now) (hFresh : Fresh windowMs past (now, member))
    (hRoom : num (allowed.filter (now - windowMs < ·)).length < num limit) :
    (scriptOn num limit windowMs ttlMs key (now, member)).2 =
        some ⟨1, num (num (num limit - num (allowed.filter (now - windowMs < ·)).length) - 1), 0⟩ ∧
      Listed windowMs ttlMs (allowed ++ [now]) (past ++ [(now, member)]) now
        (scriptOn num limit windowMs ttlMs key (now, member)).1 := by
  rw [scriptOn_eq_live hExact.now_eq hExact.window_eq hExact.start_eq, h.card_live hTime hCovers,
    if_pos hRoom]
  exact ⟨rfl, h.allow hTime hCovers hWindow hFresh⟩

theorem Listed.script_deny (h : Listed windowMs ttlMs allowed past last key) (member : M)
    (hTime : last ≤ now) (hCovers : Lapsed ttlMs last now → windowMs ≤ ttlMs)
    (hExact : Exact num windowMs now)
    (hFull : num limit ≤ num (allowed.filter (now - windowMs < ·)).length) :
    (scriptOn num limit windowMs ttlMs key (now, member)).2 =
        (allowed.filter (now - windowMs < ·)).head?.map
          (fun oldest => ⟨0, 0, num (num (oldest + windowMs) - now)⟩) ∧
      Listed windowMs ttlMs allowed (past ++ [(now, member)]) now
        (scriptOn num limit windowMs ttlMs key (now, member)).1 := by
  rw [scriptOn_eq_live hExact.now_eq hExact.window_eq hExact.start_eq, h.card_live hTime hCovers,
    if_neg (not_lt.mpr hFull), SortedSet.first?_eq, h.live_scores hTime hCovers]
  exact ⟨rfl, h.deny hTime hCovers⟩

end Step

end Kaka.Redis.SlidingWindow
